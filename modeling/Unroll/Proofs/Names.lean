import Mathlib.Data.List.Basic
import Std.Data.String.ToNat
import Unroll.Template.Arg
/-!
# Names that the checker makes up

A record that a block declares gets a name of its own, which ends in a quote and a number.  The number can be read off
the name again, whatever stands before the quote, so records with different numbers have different names.  The name of
an instance has its arguments in angle brackets, and no name that is written does.
-/
namespace Unroll

/-- The canonical name of the record that a block declared as the `k`-th. -/
def localName (base : String) (k : Nat) : String := base ++ "'" ++ toString k

theorem toString_toList (k : Nat) : (toString k).toList = Nat.toDigits 10 k := Nat.toList_repr

theorem localName_toList (base : String) (k : Nat) :
    (localName base k).toList = base.toList ++ '\'' :: Nat.toDigits 10 k := by
  unfold localName
  rw [String.toList_append, String.toList_append, toString_toList]
  simp

theorem quote_notMem_digits (k : Nat) : '\'' ∉ Nat.toDigits 10 k := by
  intro h
  have hd := Nat.isDigit_of_mem_toDigits (by decide) (by decide) h
  exact absurd hd (by decide)

/-- What stands after the last mark is the same, where the whole is. -/
theorem after_last_mark {α : Type} {q : α} {xs ys ds es : List α} (h : xs ++ q :: ds = ys ++ q :: es)
    (hd : q ∉ ds) (he : q ∉ es) : ds = es := by
  rcases List.append_eq_append_iff.1 h with ⟨gap, -, hgap⟩ | ⟨gap, -, hgap⟩
  · cases gap with
    | nil => exact (List.cons.inj hgap).2
    | cons c gap =>
      obtain ⟨-, rfl⟩ := List.cons.inj hgap
      simp at hd
  · cases gap with
    | nil => exact (List.cons.inj hgap).2.symm
    | cons c gap =>
      obtain ⟨-, rfl⟩ := List.cons.inj hgap
      simp at he

/-- **A local record's number is part of its name.** -/
theorem localName_number {a b : String} {j k : Nat} (h : localName a j = localName b k) : j = k := by
  have hl := congrArg String.toList h
  rw [localName_toList, localName_toList] at hl
  have hd := after_last_mark hl (quote_notMem_digits j) (quote_notMem_digits k)
  rw [← Nat.toList_repr, ← Nat.toList_repr] at hd
  exact Nat.repr_injective (String.toList_injective hd)

theorem quote_mem_localName (base : String) (k : Nat) : '\'' ∈ (localName base k).toList := by
  rw [localName_toList]
  simp

theorem angle_mem_mangle (name : String) (args : List TemplateArg) : '<' ∈ (mangle name args).toList := by
  unfold mangle
  simp [String.toList_append]

theorem mangle_ne {name written : String} {args : List TemplateArg} (h : '<' ∉ written.toList) :
    mangle name args ≠ written := by
  rintro rfl
  exact h (angle_mem_mangle name args)

/-- The name before the arguments of an instance. -/
def baseName (n : String) : String := String.ofList (n.toList.takeWhile (· != '<'))

theorem takeWhile_append_stop {α : Type} {p : α → Bool} (xs ys : List α) {y : α} (hy : p y = false) :
    (xs ++ y :: ys).takeWhile p = xs.takeWhile p := by
  induction xs with
  | nil => simp [hy]
  | cons x xs ih => rw [List.cons_append, List.takeWhile_cons, List.takeWhile_cons, ih]

/-- **An instance is named after its template.** -/
theorem baseName_mangle (name : String) (args : List TemplateArg) : baseName (mangle name args) = baseName name := by
  unfold baseName mangle
  rw [String.append_assoc, String.append_assoc, String.toList_append, String.toList_append]
  exact congrArg String.ofList (takeWhile_append_stop _ _ (by decide))

end Unroll
