import Unroll.Proofs.Check.Settled
/-!
# Arguments that are spelled back

Substitution puts a type argument back into the tree as it would be written, and the written type is resolved again
where it stands.  A type that leaves nothing open then means itself, up to the record that its name means there.  The
record of a block is written with its canonical name, which no declaration can take.  A global record is written with
its own name, and a record that a block around declares under that name takes its place.
-/
namespace Unroll

/-- The type with other records in place of its own. -/
def Ty.mapRecord (f : String → String) : Ty → Ty
  | .array elem len => .array (elem.mapRecord f) len
  | .record n => .record (f n)
  | t => t

theorem Ty.mapRecord_eq_self {f : String → String} {P : String → Prop} :
    ∀ {t : Ty}, t.Settled P → (t.mapRecord f = t ↔ t.Settled fun n => f n = n)
  | .unit, _ | .bool, _ | .int, _ | .char, _ | .text, _ => by simp [mapRecord, Settled]
  | .record n, _ => by simp [mapRecord, Settled]
  | .array elem (some n), h => by simpa [mapRecord, Settled] using mapRecord_eq_self (t := elem) h

theorem Ty.Settled.and {P Q : String → Prop} :
    ∀ {t : Ty}, t.Settled P → t.Settled Q → t.Settled fun n => P n ∧ Q n
  | .unit, _, _ | .bool, _, _ | .int, _, _ | .char, _, _ | .text, _, _ => trivial
  | .record _, hp, hq => ⟨hp, hq⟩
  | .array elem (some _), hp, hq => Ty.Settled.and (t := elem) hp hq

namespace Check

open CheckM Outcome

variable {deeper : Deeper} {s : Checker} {sp : Span}

/-- The name is read as that of a record. -/
def NamesRecord (s : Checker) (n : String) : Prop :=
  Ty.builtin? n = none ∧ s.place.param? n = none ∧ (s.recordName? n).isSome

theorem meaning_record {n c : String} (h : NamesRecord s n) (hc : s.recordName? n = some c) :
    meaning ⟨n, sp⟩ s = .ok (.plain .record (.record c)) s := by
  unfold meaning
  rw [bind_ok]
  refine ⟨s, s, rfl, ?_⟩
  simp only [h.1, h.2.1, hc]
  rfl

theorem typeRef_bare {n : String} {what : Plain} {t : Ty} (h : meaning ⟨n, sp⟩ s = .ok (.plain what t) s) :
    typeRef deeper (.bare sp n) s = .ok t s := by
  unfold TypeRef.bare typeRef
  rw [bind_ok]
  exact ⟨_, s, h, rfl⟩

theorem typeRef_builtin {n : String} {t : Ty} (h : Ty.builtin? n = some t) :
    typeRef deeper (.bare sp n) s = .ok t s := by
  have hmeans : meaning ⟨n, sp⟩ s = .ok (.plain .builtin t) s := by
    unfold meaning
    rw [bind_ok]
    refine ⟨s, s, rfl, ?_⟩
    simp only [h]
    rfl
  exact typeRef_bare hmeans

/-- **A type that was spelled back is resolved to itself**, but for the record that its name means in the place. -/
theorem typeRef_spelledBack : ∀ {t : Ty} {w : TypeRef}, t.Settled (NamesRecord s) → t.toTypeRef? sp = some w →
    typeRef deeper w s = .ok (t.mapRecord fun n => (s.recordName? n).getD n) s
  | .unit, w, _, hw | .bool, w, _, hw | .int, w, _, hw | .char, w, _, hw | .text, w, _, hw => by
    cases hw
    exact typeRef_builtin rfl
  | .record n, w, ht, hw => by
    cases hw
    obtain ⟨c, hc⟩ := Option.isSome_iff_exists.1 ht.2.2
    rw [typeRef_bare (meaning_record ht hc), Ty.mapRecord, hc]
    rfl
  | .array elem (some n), w, ht, hw => by
    simp only [Ty.toTypeRef?] at hw
    split at hw
    · obtain ⟨v, hv, rfl⟩ := Option.map_eq_some_iff.1 hw
      have helem := typeRef_spelledBack (t := elem) ht hv
      unfold typeRef
      rw [bind_ok]
      refine ⟨_, s, helem, ?_⟩
      unfold length
      rw [bind_ok]
      exact ⟨.int n, s, const_ok.2 ⟨rfl, rfl⟩, by simp [Ty.mapRecord]⟩
    · cases hw

/-! ## Records in scope -/

/-- What the blocks around declare under the name, the innermost first. -/
def inBlocks (blocks : List (Table String)) (n : String) : Option String := blocks.findSome? (Table.find? · n)

theorem recordName_global {blocks : List (Table String)} {globals : Table String} {n : String}
    (hplace : s.place.types = blocks ++ [globals]) (hn : globals.find? n = some n) :
    s.recordName? n = some ((inBlocks blocks n).getD n) := by
  unfold Checker.recordName? inBlocks
  rw [hplace, List.findSome?_append]
  cases blocks.findSome? (Table.find? · n) with
  | some c => rfl
  | none => simp [hn]

theorem recordName_local {n : String} (hscopes : ∀ scope ∈ s.place.types, scope.find? n = none)
    (hq : '\'' ∈ n.toList) (hr : s.records.contains n = true) : s.recordName? n = some n := by
  unfold Checker.recordName?
  rw [List.findSome?_eq_none_iff.2 hscopes]
  simp [hq, hr]

/-- A record as an argument carries it: of a block, under a name that no scope has, or global, under a name that the
place does not use otherwise. -/
def Carried (s : Checker) (globals : Table String) (n : String) : Prop :=
  Ty.builtin? n = none ∧ s.place.param? n = none ∧
    ((∀ scope ∈ s.place.types, scope.find? n = none) ∧ '\'' ∈ n.toList ∧ s.records.contains n = true ∨
      globals.find? n = some n)

theorem carried_meaning {blocks : List (Table String)} {globals : Table String} {n : String}
    (hplace : s.place.types = blocks ++ [globals]) (h : Carried s globals n) :
    s.recordName? n = some ((inBlocks blocks n).getD n) := by
  obtain ⟨-, -, ⟨hscopes, hq, hr⟩ | hn⟩ := h
  · have hblocks : inBlocks blocks n = none :=
      List.findSome?_eq_none_iff.2 fun scope hscope => hscopes scope (by simp [hplace, hscope])
    rw [recordName_local hscopes hq hr, hblocks]
    rfl
  · exact recordName_global hplace hn

/-- **Spelling an argument back is hygienic but for one case**: the written type is resolved to the argument itself,
unless a block around declares a record of its own under the name of a global record in it. -/
theorem typeRef_spelledBack_iff {blocks : List (Table String)} {globals : Table String} {t : Ty} {w : TypeRef}
    (hplace : s.place.types = blocks ++ [globals]) (ht : t.Settled (Carried s globals))
    (hw : t.toTypeRef? sp = some w) :
    typeRef deeper w s = .ok t s ↔ t.Settled fun n => ∀ c, inBlocks blocks n = some c → c = n := by
  have hmeans : t.Settled (NamesRecord s) :=
    ht.mono fun n hn => ⟨hn.1, hn.2.1, by rw [carried_meaning hplace hn]; rfl⟩
  rw [typeRef_spelledBack hmeans hw]
  have hself : (EStateM.Result.ok (t.mapRecord fun n => (s.recordName? n).getD n) s : EStateM.Result Diagnostic Checker Ty)
      = .ok t s ↔ t.mapRecord (fun n => (s.recordName? n).getD n) = t := by simp
  rw [hself, Ty.mapRecord_eq_self ht]
  have hsame (n : String) (hn : Carried s globals n) :
      (s.recordName? n).getD n = n ↔ ∀ c, inBlocks blocks n = some c → c = n := by
    rw [carried_meaning hplace hn]
    cases inBlocks blocks n <;> simp
  constructor
  · exact fun h => (h.and ht).mono fun n hn => (hsame n hn.2).1 hn.1
  · exact fun h => (h.and ht).mono fun n hn => (hsame n hn.2).2 hn.1

end Check

end Unroll
