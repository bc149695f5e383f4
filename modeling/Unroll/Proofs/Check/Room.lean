import Unroll.Checker.Program
import Unroll.Proofs.Check.Endings
/-!
# How far down a check can go

A check goes down a level when it opens a frame or when it checks a template for the first time.  The frames that may
still be opened and the templates that have not been tried are the room that is left; every way down takes some of it,
and on the way up there is never more of it than before.

The room is counted under limits of its own, so that a check can be compared with the same check under wider limits.
-/
namespace Unroll

theorem countP_lt {α : Type} {p q : α → Bool} {a : α} (h : ∀ b, p b = true → q b = true) (hp : p a = false)
    (hq : q a = true) {l : List α} (ha : a ∈ l) : l.countP p < l.countP q := by
  obtain ⟨l, r, rfl⟩ := List.append_of_mem ha
  have hl := List.countP_mono_left (l := l) fun b _ => h b
  have hr := List.countP_mono_left (l := r) fun b _ => h b
  simp only [List.countP_append, List.countP_cons, hp, hq, Bool.false_eq_true, if_false, if_true]
  omega

namespace Checker

/-- The state as it would be under the given limits. -/
def under (c : Config) (s : Checker) : Checker :=
  { s with config := c, frames := { s.frames with limit := c.maxInstantiationDepth } }

/-- A generic cell whose template is neither checked nor being checked. -/
def untried (s : Checker) (name : String) : Bool :=
  match s.generics.find? name with
  | some g => !(g.elaborated || s.elaborating.contains name)
  | none => false

def templatesLeft (s : Checker) : Nat := s.generics.countP fun e => s.untried e.1

/-- The frames that the limits leave, and the templates. -/
def room (c : Config) (s : Checker) : Nat := (c.maxInstantiationDepth - s.frames.depth) + s.templatesLeft

variable {s t : Checker} {name : String} {g : GenericInfo}

theorem untried_iff : s.untried name = true ↔ ∃ g, s.generics.find? name = some g ∧
    (g.elaborated || s.elaborating.contains name) = false := by
  unfold untried
  cases s.generics.find? name <;> simp

theorem templatesLeft_le (s : Checker) : s.templatesLeft ≤ s.generics.length := List.countP_le_length

theorem untried_mono {n : String} (hg : t.generics.find? n = s.generics.find? n)
    (he : n ∈ s.elaborating → n ∈ t.elaborating) (h : t.untried n = true) : s.untried n = true := by
  obtain ⟨g, hg', h⟩ := untried_iff.1 h
  refine untried_iff.2 ⟨g, hg ▸ hg', ?_⟩
  simp only [Bool.or_eq_false_iff, List.contains_eq_mem, decide_eq_false_iff_not] at h ⊢
  exact ⟨h.1, fun hin => h.2 (he hin)⟩

/-- **A template that is tried takes room.** -/
theorem templatesLeft_trying (h : s.untried name = true) (hg : t.generics = s.generics)
    (he : t.elaborating = name :: s.elaborating) : t.templatesLeft < s.templatesLeft := by
  have hgone : t.untried name = false := by
    unfold untried
    rw [he]
    cases t.generics.find? name <;> simp
  have hfewer : ∀ n, t.untried n = true → s.untried n = true :=
    fun n => untried_mono (by rw [hg]) (he ▸ List.mem_cons_of_mem name)
  obtain ⟨g, hfind, -⟩ := untried_iff.1 h
  obtain ⟨l, r, hl, -⟩ := List.lookup_eq_some_iff.1 hfind
  have hmem : (name, g) ∈ s.generics := hl ▸ List.mem_append_right l (List.mem_cons_self ..)
  unfold templatesLeft
  rw [hg]
  exact countP_lt (fun e => hfewer e.1) hgone h hmem

/-- A template that has been tried is not left to try under a new entry either. -/
theorem templatesLeft_insert (hg : t.generics = s.generics.insert name g) (hdone : g.elaborated = true)
    (he : ∀ n ≠ name, n ∈ s.elaborating → n ∈ t.elaborating) : t.templatesLeft ≤ s.templatesLeft := by
  have hfind : ∀ n, t.generics.find? n = if n = name then some g else s.generics.find? n := by
    rw [hg]
    exact fun n => Table.find?_insert ..
  have hgone : t.untried name = false := by
    simp [untried, hfind, hdone]
  have hfewer : ∀ n, t.untried n = true → s.untried n = true := by
    intro n hn
    by_cases hne : n = name
    · rw [hne, hgone] at hn
      cases hn
    · exact untried_mono (by rw [hfind, if_neg hne]) (he n hne) hn
  unfold templatesLeft
  rw [hg, Table.insert, List.countP_cons, hgone]
  exact List.countP_mono_left fun e _ => hfewer e.1

/-- **The end of a template's check gives no room back**: the template is not checked again. -/
theorem templatesLeft_tried (name : String) (s : Checker) :
    (Check.modifyGeneric name (fun g => { g with elaborated := true })
      { s with elaborating := s.elaborating.erase name }).templatesLeft ≤ s.templatesLeft := by
  have hother : ∀ n ≠ name, n ∈ s.elaborating → n ∈ s.elaborating.erase name := fun n hne => (List.mem_erase_of_ne hne).2
  unfold Check.modifyGeneric
  dsimp only
  cases hg : s.generics.find? name with
  | none =>
    refine List.countP_mono_left fun e _ h => ?_
    by_cases hne : e.1 = name
    · obtain ⟨g, hg', -⟩ := untried_iff.1 h
      simp [hne, hg] at hg'
    · exact untried_mono (by rfl) (hother _ hne) h
  | some g => exact templatesLeft_insert rfl rfl hother

/-- Another cell for a template changes nothing about what is left to try; its new entry may count once more. -/
theorem templatesLeft_withCell (name : String) (cell : CellDef) (s : Checker) :
    (Check.modifyGeneric name (fun g => { g with cell }) s).templatesLeft ≤ s.templatesLeft + 1 := by
  unfold Check.modifyGeneric
  cases hg : s.generics.find? name with
  | none => exact Nat.le_succ _
  | some g =>
    have hsame : ∀ n, ({ s with generics := s.generics.insert name { g with cell } } : Checker).untried n = true →
        s.untried n = true := by
      intro n hn
      by_cases hne : n = name
      · simpa [untried, Table.find?_insert, hne, hg] using hn
      · refine untried_mono ?_ (by exact id) hn
        simp [Table.find?_insert, hne]
    show List.countP _ ((name, { g with cell }) :: s.generics) ≤ _
    rw [List.countP_cons]
    have hone : ∀ b : Bool, (if b = true then 1 else 0) ≤ 1 := by decide
    exact Nat.add_le_add (List.countP_mono_left fun e _ => hsame e.1) (hone _)

end Checker

end Unroll
