/-! # Tables

A table is a list of entries in which the newest entry for a name counts.
-/
namespace Unroll

abbrev Table (α : Type) := List (String × α)

namespace Table

variable {α : Type}

def find? (t : Table α) (name : String) : Option α := t.lookup name

def contains (t : Table α) (name : String) : Bool := (t.find? name).isSome

def insert (t : Table α) (name : String) (a : α) : Table α := (name, a) :: t

def erase (t : Table α) (name : String) : Table α := t.filter (·.1 != name)

/-- Changes the entry that counts, where there is one. -/
def set (t : Table α) (name : String) (a : α) : Table α :=
  match t with
  | [] => []
  | (n, b) :: r => if name = n then (n, a) :: r else (n, b) :: set r name a

theorem find?_insert (t : Table α) (n m : String) (a : α) :
    (t.insert n a).find? m = if m = n then some a else t.find? m := by
  by_cases h : m = n
  · simp [find?, insert, h]
  · simp [find?, insert, List.lookup_cons, h, beq_eq_false_iff_ne.2 h]

theorem contains_insert {t : Table α} {n m : String} {a : α} :
    (t.insert n a).contains m = true ↔ m = n ∨ t.contains m = true := by
  unfold contains
  rw [find?_insert]
  split <;> simp [*]

theorem find?_erase (t : Table α) (n m : String) : (t.erase n).find? m = if m = n then none else t.find? m := by
  induction t with
  | nil => simp [Table.erase, Table.find?]
  | cons p t ih =>
    obtain ⟨k, b⟩ := p
    unfold Table.find? Table.erase at ih ⊢
    by_cases hk : k = n
    · subst hk
      by_cases hm : m = k
      · simpa [hm] using ih
      · simpa [List.lookup_cons, hm, beq_eq_false_iff_ne.2 hm] using ih
    · by_cases hm : m = k
      · subst hm
        simp [hk]
      · simpa [List.lookup_cons, hk, beq_eq_false_iff_ne.2 hm] using ih

theorem find?_set (t : Table α) (n m : String) (a : α) :
    (t.set n a).find? m = if m = n then (t.find? m).map fun _ => a else t.find? m := by
  induction t with
  | nil => simp [Table.set, Table.find?]
  | cons p t ih =>
    obtain ⟨k, b⟩ := p
    unfold Table.find? at ih ⊢
    by_cases hk : n = k
    · subst hk
      by_cases hm : m = n
      · subst hm
        simp [Table.set]
      · simp [Table.set, List.lookup_cons, hm, beq_eq_false_iff_ne.2 hm]
    · by_cases hm : m = n
      · subst hm
        simp [Table.set, hk, List.lookup_cons, beq_eq_false_iff_ne.2 hk, ih]
      · simp only [Table.set, hk, if_false, hm, List.lookup_cons] at ih ⊢
        rw [ih]

end Table

end Unroll
