import Unroll.Machine.Source
/-!
# Texts that are accepted

A given text can be read and checked by evaluation.  What is evaluated is one test; it holds of a program that is
accepted.
-/
namespace Unroll

/-- The text is read and accepted, and the test holds of what comes out. -/
def accepts (source : String) (test : Program → CheckedProgram → Checker → Bool) : Bool :=
  match Source.program source none with
  | .error _ => false
  | .ok p =>
    match Check.program p (.new .standard) with
    | .error _ _ => false
    | .ok checked last => test p checked last

theorem of_accepts {source : String} {test : Program → CheckedProgram → Checker → Bool}
    (h : accepts source test = true) : ∃ p checked last, Source.program source none = .ok p ∧
      Check.program p (.new .standard) = .ok checked last ∧ test p checked last = true := by
  unfold accepts at h
  cases hp : Source.program source none with
  | error e =>
    rw [hp] at h
    cases h
  | ok p =>
    cases hc : Check.program p (.new .standard) with
    | error d last =>
      simp only [hp, hc] at h
      cases h
    | ok checked last =>
      simp only [hp, hc] at h
      exact ⟨p, checked, last, rfl, hc, h⟩

end Unroll
