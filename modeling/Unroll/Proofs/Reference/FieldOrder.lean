import Mathlib.Data.Finset.Card
import Unroll.Proofs.Check.Order
import Unroll.Proofs.Check.Whole
import Unroll.Proofs.Reference
/-!
# The order of fields is that of the source

The reference follows a name to a record statement of the parsed program; the checker resolves it against its tables.
Where a program is accepted, the two agree on every literal: the record that the checker finds has the fields of the
statement that the name leads to, in that order.

An alias leads to a record or to one of its own parameters, whatever it is applied to.  So the aliases that have been
followed are a set that grows from round to round, until a round adds nothing.
-/
namespace Unroll

namespace Table

variable {α : Type} {t : Table α} {n : String}

theorem contains_iff : ∀ {t : Table α}, t.contains n = true ↔ n ∈ t.map (·.1)
  | [] => by simp [Table.contains, Table.find?]
  | (m, a) :: t => by
    rw [List.map_cons, List.mem_cons, ← contains_iff]
    exact contains_insert

/-- Where no name stands twice, each entry is the one that counts. -/
theorem find?_of_mem {a : α} (ht : (t.map (·.1)).Nodup) (h : (n, a) ∈ t) : t.find? n = some a := by
  obtain ⟨b, hb⟩ := Option.isSome_iff_exists.1 (contains_iff.2 (List.mem_map_of_mem h))
  have hab := List.inj_on_of_nodup_map ht (mem_of_find? hb) h rfl
  rw [hb, (Prod.mk.inj hab).2]

/-- A table of names that stand for themselves. -/
theorem find?_themselves (l : List String) (n : String) :
    Table.find? (l.map fun m => (m, m)) n = if n ∈ l then some n else none := by
  induction l with
  | nil => rfl
  | cons m l ih =>
    unfold Table.find? at ih ⊢
    rw [List.map_cons, List.lookup_cons, ih]
    by_cases h : n = m
    · simp [h]
    · simp [h, beq_eq_false_iff_ne.2 h]

end Table

namespace Reference

open Outcome

variable {p : Program} {f g : String → Option Target} {params : List String}

/-! ## Following aliases -/

theorem target?_named {sp : Span} {id : Ident} {args : List TypeArg} (hid : position? params id.name args = none)
    (hb : Ty.builtin? id.name = none) : target? p f params (.named sp id args) =
      match (recordTable p).find? id.name with
      | some d => some (.record d)
      | none =>
        match f id.name with
        | some (.param i) => argTarget? p f params args i
        | found => found := by
  rw [target?, hid]
  exact if_neg (by simp [hb])

mutual

/-- A type leads where it led, when more aliases are followed. -/
theorem target?_mono (h : ∀ {a x}, f a = some x → g a = some x) : ∀ {w : TypeRef} {x : Target},
    target? p f params w = some x → target? p g params w = some x
  | .array _ _ _, _, hw => by
    rw [target?] at hw
    cases hw
  | .named sp id args, x, hw => by
    rw [target?] at hw ⊢
    cases hid : position? params id.name args with
    | some i => simpa [hid] using hw
    | none =>
      simp only [hid] at hw ⊢
      split at hw
      · cases hw
      rename_i hb
      rw [if_neg hb]
      cases hr : (recordTable p).find? id.name with
      | some d => simpa [hr] using hw
      | none =>
        simp only [hr] at hw ⊢
        cases hf : f id.name with
        | none => simp [hf] at hw
        | some y =>
          rw [h hf]
          cases y with
          | record d => simpa [hf] using hw
          | param i =>
            simp only [hf] at hw
            exact argTarget?_mono h hw

theorem argTarget?_mono (h : ∀ {a x}, f a = some x → g a = some x) : ∀ {as : List TypeArg} {i : Nat} {x : Target},
    argTarget? p f params as i = some x → argTarget? p g params as i = some x
  | .type t :: _, 0, _, hw => by
    rw [argTarget?] at hw ⊢
    exact target?_mono h hw
  | .value _ :: as, i + 1, _, hw | .type _ :: as, i + 1, _, hw => by
    rw [argTarget?] at hw ⊢
    exact argTarget?_mono h hw
  | .value _ :: _, 0, _, hw | [], 0, _, hw | [], _ + 1, _, hw => by
    simp [argTarget?] at hw

end

theorem aliasTarget?_succ : ∀ {n : Nat} {a : String} {x : Target}, aliasTarget? p n a = some x →
    aliasTarget? p (n + 1) a = some x
  | 0, _, _, h => nomatch h
  | n + 1, a, x, h => by
    unfold aliasTarget? at h ⊢
    split at h
    · exact target?_mono aliasTarget?_succ h
    · cases h

theorem aliasTarget?_congr {n m : Nat} (h : aliasTarget? p m = aliasTarget? p n) :
    aliasTarget? p (m + 1) = aliasTarget? p (n + 1) := by
  funext a
  simp only [aliasTarget?, h]

theorem aliasTarget?_le {n m : Nat} (hnm : n ≤ m) {a : String} {x : Target} (h : aliasTarget? p n a = some x) :
    aliasTarget? p m a = some x := by
  induction hnm with
  | refl => exact h
  | step _ ih => exact aliasTarget?_succ ih

/-- The names that aliases are declared under. -/
def aliasNames (p : Program) : List String := (aliasTable p).map (·.1)

/-- The aliases that lead somewhere, through so many at most. -/
def followed (p : Program) (n : Nat) : Finset String :=
  (aliasNames p).toFinset.filter fun a => (aliasTarget? p n a).isSome

theorem followed_subset_succ (p : Program) (n : Nat) : followed p n ⊆ followed p (n + 1) := by
  intro a ha
  obtain ⟨hmem, hsome⟩ := Finset.mem_filter.1 ha
  obtain ⟨x, hx⟩ := Option.isSome_iff_exists.1 hsome
  exact Finset.mem_filter.2 ⟨hmem, by rw [aliasTarget?_succ hx]; rfl⟩

theorem mem_followed {n : Nat} {a : String} {x : Target} (h : aliasTarget? p n a = some x) : a ∈ followed p n := by
  refine Finset.mem_filter.2 ⟨?_, by rw [h]; rfl⟩
  cases n with
  | zero => cases h
  | succ n =>
    unfold aliasTarget? at h
    split at h
    · rename_i params target hfind
      exact List.mem_toFinset.2 (List.mem_map.2 ⟨_, Table.mem_of_find? hfind, rfl⟩)
    · cases h

/-- A round that follows no further alias changes nothing. -/
theorem aliasTarget?_still {n : Nat} (h : followed p n = followed p (n + 1)) :
    aliasTarget? p (n + 1) = aliasTarget? p n := by
  funext a
  cases hn : aliasTarget? p n a with
  | some x => exact aliasTarget?_succ hn
  | none =>
    cases hs : aliasTarget? p (n + 1) a with
    | none => rfl
    | some x =>
      have ha := mem_followed hs
      rw [← h] at ha
      have hsome := (Finset.mem_filter.1 ha).2
      rw [hn] at hsome
      cases hsome

/-- Each round stands still or has followed more aliases than there were rounds. -/
theorem still_or_card (p : Program) : ∀ n : Nat, aliasTarget? p (n + 1) = aliasTarget? p n ∨ n < (followed p (n + 1)).card
  | 0 => by
    by_cases h : followed p 0 = followed p 1
    · exact .inl (aliasTarget?_still h)
    · have hcard := Finset.card_lt_card ((followed_subset_succ p 0).ssubset_of_ne h)
      exact .inr (by omega)
  | n + 1 => by
    obtain hstill | hcard := still_or_card p n
    · exact .inl (aliasTarget?_congr hstill)
    · by_cases h : followed p (n + 1) = followed p (n + 2)
      · exact .inl (aliasTarget?_still h)
      · have hlt := Finset.card_lt_card ((followed_subset_succ p (n + 1)).ssubset_of_ne h)
        exact .inr (by omega)

theorem aliasNames_length (p : Program) : (aliasNames p).length ≤ p.length := by
  unfold aliasNames aliasTable
  rw [List.length_map]
  exact List.length_filterMap_le ..

theorem card_followed (p : Program) (n : Nat) : (followed p n).card ≤ p.length :=
  calc (followed p n).card
    _ ≤ (aliasNames p).toFinset.card := Finset.card_filter_le ..
    _ ≤ (aliasNames p).length := List.toFinset_card_le _
    _ ≤ p.length := aliasNames_length p

/-- **As many rounds as there are statements are enough.** -/
theorem aliasTarget?_length {n : Nat} {a : String} {x : Target} (h : aliasTarget? p n a = some x) :
    aliasTarget? p p.length a = some x := by
  have hstill : aliasTarget? p (p.length + 1) = aliasTarget? p p.length := by
    refine (still_or_card p p.length).resolve_right fun hlt => ?_
    have hle := card_followed p (p.length + 1)
    omega
  have hall : ∀ k, aliasTarget? p (p.length + k) = aliasTarget? p p.length := by
    intro k
    induction k with
    | zero => rfl
    | succ k ih => exact (aliasTarget?_congr ih).trans hstill
  rw [← hall n]
  exact aliasTarget?_le (Nat.le_add_left ..) h

/-! ## Substituted targets -/

/-- A known type that is spelled back leads to a record only where it is one. -/
theorem target?_spelled {t : Ty} (ht : t.isUnknown = false) {sp : Span} {w : TypeRef} {d : RecordDef}
    (hw : t.toTypeRef? sp = some w) (h : target? p f [] w = some (.record d)) :
    ∃ n, t = .record n ∧ ∀ d', (recordTable p).find? n = some d' → d' = d := by
  cases t with
  | record n =>
    cases hw
    refine ⟨n, rfl, fun d' hd' => ?_⟩
    unfold TypeRef.bare at h
    rw [target?] at h
    simp only [position?, List.idxOf?_nil, hd'] at h
    split at h
    · cases h
    · cases h
      rfl
  | array elem len =>
    cases len with
    | none => cases hw
    | some n =>
      simp only [Ty.toTypeRef?] at hw
      split at hw
      · obtain ⟨v, -, rfl⟩ := Option.map_eq_some_iff.1 hw
        simp [target?] at h
      · cases hw
  | list ts => cases hw
  | param n | dependent | error => simp [Ty.isUnknown] at ht
  | unit | bool | int | char | text =>
    cases hw
    simp [TypeRef.bare, target?, position?, Ty.builtin?] at h

/-- **Where a target leads** that the given arguments are filled into: to the record itself, or to an argument that is
the record. -/
def Reaches (p : Program) (args : List TemplateArg) (d : RecordDef) : Option Target → Prop
  | some (.record d') => d' = d
  | some (.param i) => ∃ n, args[i]? = some (.type (.record n)) ∧ ∀ d', (recordTable p).find? n = some d' → d' = d
  | none => False

section

variable {names : List String} {args : List TemplateArg} {d : RecordDef}

theorem position?_nil (n : String) (as : List TypeArg) : position? [] n as = none := by
  cases as <;> rfl

theorem typeArg_type {ls : ArgLevels} {w r : TypeRef} (h : Subst.typeArg ls (.type w) = .ok (.type r)) :
    Subst.typeRef ls w = .ok r := by
  cases w with
  | array sp elem len =>
    simp only [Subst.typeArg, except_map_ok, TypeArg.type.injEq] at h
    obtain ⟨_, h, rfl⟩ := h
    exact h
  | named sp id as =>
    cases as with
    | nil =>
      simp only [Subst.typeArg] at h
      split at h
      · cases h
      · simp only [except_map_ok, TypeArg.type.injEq] at h
        obtain ⟨_, h, rfl⟩ := h
        rw [Subst.typeRef]
        exact h
    | cons a as =>
      simp only [Subst.typeArg, except_map_ok, TypeArg.type.injEq] at h
      obtain ⟨_, h, rfl⟩ := h
      exact h

/-- A name that is no parameter leads where it leads after substitution. -/
theorem named_subst {sp : Span} {id : Ident} {as bs : List TypeArg} (hid : position? names id.name as = none)
    (hbs : ∀ i, argTarget? p f [] bs i = some (.record d) → Reaches p args d (argTarget? p f names as i))
    (h : target? p f [] (.named sp id bs) = some (.record d)) : Reaches p args d (target? p f names (.named sp id as)) := by
  cases hb : Ty.builtin? id.name with
  | some t =>
    rw [target?, position?_nil] at h
    simp [hb] at h
  | none =>
    rw [target?_named (position?_nil _ _) hb] at h
    rw [target?_named hid hb]
    cases hr : (recordTable p).find? id.name with
    | some d' =>
      simp only [hr, Option.some.injEq, Target.record.injEq] at h
      exact h
    | none =>
      simp only [hr] at h ⊢
      cases hf : f id.name with
      | none => simp [hf] at h
      | some x =>
        cases x with
        | record d' =>
          simp only [hf, Option.some.injEq, Target.record.injEq] at h
          exact h
        | param i =>
          simp only [hf] at h
          exact hbs i h

mutual

/-- **A target leads where it leads after substitution.** -/
theorem target?_subst (hlen : args.length = names.length) (hargs : ∀ t, .type t ∈ args → t.isUnknown = false) :
    ∀ {w r : TypeRef}, Subst.typeRef (ArgLevels.bind [] names args) w = .ok r →
      target? p f [] r = some (.record d) → Reaches p args d (target? p f names w)
  | .array _ _ _, r, h, hr => by
    simp only [Subst.typeRef, except_bind_ok, except_pure_ok] at h
    obtain ⟨_, -, _, -, rfl⟩ := h
    simp [target?] at hr
  | .named sp id [], r, h, hr => by
    simp only [Subst.typeRef, Subst.typeName, ArgLevels.lookup?_bind_nil] at h
    cases hid : names.idxOf? id.name with
    | none =>
      simp only [hid, Option.bind_none] at h
      cases h
      exact named_subst hid (fun i hi => by cases i <;> simp [argTarget?] at hi) hr
    | some i =>
      have hi : i < args.length := hlen ▸ (List.idxOf?_eq_some_iff.1 hid).1
      have hw : target? p f names (.named sp id []) = some (.param i) := by
        rw [target?]
        simp [position?, hid]
      simp only [hid, Option.bind_some, List.getElem?_eq_getElem hi] at h
      rw [hw]
      cases ha : args[i] with
      | value v =>
        simp only [ha] at h
        cases h
      | type t =>
        simp only [ha] at h
        split at h
        · rename_i r' hr'
          cases h
          obtain ⟨n, rfl, hn⟩ := target?_spelled (hargs t (ha ▸ List.getElem_mem hi)) hr' hr
          exact ⟨n, by rw [List.getElem?_eq_getElem hi, ha], hn⟩
        · cases h
  | .named sp id (a :: as), r, h, hr => by
    simp only [Subst.typeRef, except_bind_ok, except_pure_ok] at h
    obtain ⟨bs, hbs, rfl⟩ := h
    exact named_subst rfl (fun i hi => argTarget?_subst hlen hargs hbs hi) hr

theorem argTarget?_subst (hlen : args.length = names.length) (hargs : ∀ t, .type t ∈ args → t.isUnknown = false) :
    ∀ {as bs : List TypeArg} {i : Nat}, Subst.typeArgs (ArgLevels.bind [] names args) as = .ok bs →
      argTarget? p f [] bs i = some (.record d) → Reaches p args d (argTarget? p f names as i)
  | [], bs, i, h, hr => by
    cases h
    cases i <;> simp [argTarget?] at hr
  | a :: as, bs, i, h, hr => by
    simp only [Subst.typeArgs, except_bind_ok, except_pure_ok] at h
    obtain ⟨b, hb, bs, hbs, rfl⟩ := h
    cases i with
    | succ i =>
      have hrest : argTarget? p f names (a :: as) (i + 1) = argTarget? p f names as i := by cases a <;> rw [argTarget?]
      rw [hrest]
      refine argTarget?_subst hlen hargs hbs ?_
      rw [← hr]
      cases b <;> rw [argTarget?]
    | zero =>
      cases b with
      | value e => simp [argTarget?] at hr
      | type r =>
        rw [argTarget?] at hr
        cases a with
        | value e =>
          simp only [Subst.typeArg, except_map_ok] at hb
          obtain ⟨_, -, hb⟩ := hb
          cases hb
        | type w =>
          rw [argTarget?]
          exact target?_subst hlen hargs (typeArg_type hb) hr

end

end

/-! ## What the checker resolves -/

open Check CheckM

/-- **Followed through enough aliases, a written type leads to the statement of the record** with the name. -/
def Arrives (p : Program) (params : List String) (w : TypeRef) (n : String) : Prop :=
  ∃ k d, (recordTable p).find? n = some d ∧ target? p (aliasTarget? p k) params w = some (.record d)

/-- The entry of an alias says what its statement says. -/
def Spells (p : Program) (params : List String) (target : TypeRef) : AliasInfo → Prop
  | .plain t => ∀ n, t = .record n → Arrives p params target n
  | .generic ps w => ps.names = params ∧ w = target

/-- **What names mean in the state comes from the statements**, outside of all templates. -/
structure Sourced (p : Program) (s : Checker) : Prop where
  templates : s.place.templates = []
  records : ∀ n, s.recordName? n = ((recordTable p).find? n).map fun _ => n
  aliases : ∀ {n info}, s.aliases.find? n = some info →
    ∃ params target, (aliasTable p).find? n = some (params, target) ∧ Spells p params target info

/-- What is one level down resolves to what the statements lead to. -/
def Resolves (p : Program) (deeper : Deeper) : Prop :=
  ∀ {w s n s'}, Sourced p s → deeper.typeRef w s = .ok (.record n) s' → Arrives p [] w n

/-- A resolved argument is known, and a record where the written one leads to it. -/
def GivenBy (p : Program) (a : TypeArg) (b : TemplateArg) : Prop :=
  ∀ t, b = .type t → t.isUnknown = false ∧ ∀ n, t = .record n → ∃ w, a = .type w ∧ Arrives p [] w n

section

variable {deeper : Deeper} {s s' : Checker}

theorem argTarget?_get {params : List String} : ∀ {as : List TypeArg} {i : Nat} {w : TypeRef}, as[i]? = some (.type w) →
    argTarget? p f params as i = target? p f params w
  | .type _ :: _, 0, _, h => by
    cases h
    rw [argTarget?]
  | .type _ :: _, _ + 1, _, h | .value _ :: _, _ + 1, _, h => by
    rw [argTarget?]
    exact argTarget?_get h

theorem forall₂_at_right {α β : Type} {R : α → β → Prop} {as : List α} {bs : List β} (h : List.Forall₂ R as bs) {i : Nat}
    {b : β} (hb : bs[i]? = some b) : ∃ a, as[i]? = some a ∧ R a b := by
  obtain ⟨hi, rfl⟩ := List.getElem?_eq_some_iff.1 hb
  have hi' : i < as.length := h.length_eq ▸ hi
  exact ⟨as[i], List.getElem?_eq_getElem hi', (List.forall₂_iff_get.1 h).2 i hi' hi⟩

/-- A plain name leads to the record that it means. -/
theorem meaning_arrives (hs : Sourced p s) {id : Ident} {what : Plain} {n : String} {sp : Span}
    (h : meaning id s = .ok (.plain what (.record n)) s') : Arrives p [] (.named sp id []) n := by
  obtain ⟨-, ⟨b, hb, hm⟩ | ⟨hb, ⟨_, _, hp, -⟩ | ⟨-, ⟨c, hc, hm⟩ | ⟨hc, ⟨a, ha, hm⟩ | ⟨_, _, -, hm⟩⟩⟩⟩⟩ := meaning_ok h
  · cases hm
    exact absurd hb (by unfold Ty.builtin?; split <;> simp)
  · rw [param?_outside hs.templates] at hp
    cases hp
  · cases hm
    rw [hs.records] at hc
    obtain ⟨d, hd, rfl⟩ := Option.map_eq_some_iff.1 hc
    refine ⟨0, d, hd, ?_⟩
    rw [target?_named rfl hb, hd]
  · cases hm
    rw [hs.records, Option.map_eq_none_iff] at hc
    obtain ⟨params, target, hfind, hspells⟩ := hs.aliases ha
    obtain ⟨k, d, hd, htarget⟩ := hspells n rfl
    refine ⟨k + 1, d, hd, ?_⟩
    rw [target?_named rfl hb, hc]
    simp only [aliasTarget?, hfind, htarget]
  · cases hm

/-- A name of no record leads where its alias leads: to a record whatever it is applied to, or to the argument that is the
record. -/
theorem applied_arrives {sp : Span} {id : Ident} {as : List TypeArg} {full : List TemplateArg} {k : Nat} {d : RecordDef}
    {n : String} (hb : Ty.builtin? id.name = none) (hc : (recordTable p).find? id.name = none)
    (hd : (recordTable p).find? n = some d) (hfull : List.Forall₂ (GivenBy p) as full)
    (hreach : Reaches p full d (aliasTarget? p k id.name)) : Arrives p [] (.named sp id as) n := by
  cases halias : aliasTarget? p k id.name with
  | none =>
    rw [halias] at hreach
    exact hreach.elim
  | some x =>
    rw [halias] at hreach
    cases x with
    | record d' =>
      obtain rfl : d' = d := hreach
      refine ⟨k, d', hd, ?_⟩
      rw [target?_named (position?_nil _ _) hb, hc]
      simp only [halias]
    | param i =>
      obtain ⟨m, hi, hm⟩ := hreach
      obtain ⟨a, ha, hgiven⟩ := forall₂_at_right hfull hi
      obtain ⟨w, rfl, l, d', hl, harg⟩ := (hgiven _ rfl).2 m rfl
      obtain rfl := hm d' hl
      refine ⟨max k l, d', hd, ?_⟩
      rw [target?_named (position?_nil _ _) hb, hc]
      simp only [aliasTarget?_le (le_max_left k l) halias, argTarget?_get ha]
      exact target?_mono (aliasTarget?_le (le_max_right k l)) harg

/-- An alias that is applied to arguments leads to the record that its filled in target is. -/
theorem instantiateAlias_arrives (hd : Resolves p deeper) (hs : Sourced p s) {sp : Span} {id : Ident} {as : List TypeArg}
    {full : List TemplateArg} {ps : ParamLevel} {n : String} (hm : meaning id s = .ok (.generic ps) s)
    (hfull : List.Forall₂ (GivenBy p) as full) (hlen : as.length = ps.params.length)
    (h : instantiateAlias deeper id full s = .ok (.record n) s') : Arrives p [] (.named sp id as) n := by
  obtain ⟨-, ⟨_, -, hm⟩ | ⟨hb, ⟨_, _, -, hm⟩ | ⟨-, ⟨_, -, hm⟩ | ⟨hc, ⟨_, -, hm⟩ | ⟨_, target, ha, hm⟩⟩⟩⟩⟩ := meaning_ok hm <;>
    cases hm
  rw [hs.records, Option.map_eq_none_iff] at hc
  obtain ⟨params, w, hfind, rfl, rfl⟩ := hs.aliases ha
  obtain ⟨_, _, r, fr, u, ha', hr, -, hx, -⟩ := instantiateAlias_ok h
  rw [ha] at ha'
  cases ha'
  have hs' : Sourced p { s with frames := fr } := ⟨hs.templates, hs.records, hs.aliases⟩
  obtain ⟨k, d, hd', htarget⟩ := hd hs' hx
  have hlen' : full.length = ps.names.length := by rw [← hfull.length_eq, hlen, ParamLevel.names, List.length_map]
  have hargs : ∀ t, .type t ∈ full → t.isUnknown = false := fun t ht => by
    obtain ⟨_, -, hgiven⟩ := Check.forall₂_mem_right hfull ht
    exact (hgiven t rfl).1
  have halias : aliasTarget? p (k + 1) id.name = target? p (aliasTarget? p k) ps.names target := by
    simp only [aliasTarget?, hfind]
  refine applied_arrives hb hc hd' hfull (k := k + 1) ?_
  rw [halias]
  exact target?_subst hlen' hargs hr htarget

mutual

/-- **A written type that is a record leads to its statement.** -/
theorem typeRef_arrives (ho : deeper.Orderly) (hd : Resolves p deeper) : ∀ {w : TypeRef} {s s' : Checker} {n : String},
    Sourced p s → typeRef deeper w s = .ok (.record n) s' → Arrives p [] w n
  | .array sp elem len, s, s', n, hs, h => by
    simp only [typeRef, bind_ok] at h
    obtain ⟨_, _, -, h⟩ := h
    obtain ⟨-, ⟨_, -, -, h⟩ | ⟨-, h⟩⟩ := length_ok h <;> cases h
  | .named sp id args, s, s', n, hs, h => by
    obtain ⟨m, hm, ⟨what, rfl, rfl, -⟩ | ⟨ps, u, as, rfl, hlen, has, h⟩⟩ := typeRef_named_ok h
    · exact meaning_arrives hs hm
    · obtain rfl := argsFor_same ho has
      obtain ⟨full, hk, h⟩ | ⟨-, h, -⟩ := h
      · exact instantiateAlias_arrives hd hs hm (argsFor_arrives ho hd hs has hk hlen) hlen h
      · cases h

theorem argsFor_arrives (ho : deeper.Orderly) (hd : Resolves p deeper) : ∀ {as : List TypeArg} {ps : List ParamDecl}
    {s s' : Checker} {xs : List (Option TemplateArg)} {full : List TemplateArg}, Sourced p s →
      argsFor deeper ps as s = .ok xs s' → allKnown xs = some full → as.length = ps.length →
        List.Forall₂ (GivenBy p) as full
  | [], ps, s, s', xs, full, hs, h, hk, hlen => by
    cases ps with
    | cons => cases hlen
    | nil =>
      simp only [argsFor, pure_ok] at h
      obtain ⟨rfl, -⟩ := h
      cases hk
      exact .nil
  | a :: as, [], s, s', xs, full, hs, h, hk, hlen => by cases hlen
  | a :: as, q :: ps, s, s', xs, full, hs, h, hk, hlen => by
    simp only [argsFor, bind_ok, pure_ok] at h
    obtain ⟨x, u, ha, xs, _, has, rfl, -⟩ := h
    obtain rfl := argFor_same ho ha
    cases x with
    | none => cases hk
    | some b =>
      obtain ⟨rest, hrest, rfl⟩ := Option.map_eq_some_iff.1 hk
      exact .cons (argFor_arrives ho hd hs ha) (argsFor_arrives ho hd hs has hrest (Nat.succ.inj hlen))

theorem argFor_arrives (ho : deeper.Orderly) (hd : Resolves p deeper) : ∀ {a : TypeArg} {q : ParamDecl}
    {s s' : Checker} {b : TemplateArg}, Sourced p s → argFor deeper q a s = .ok (some b) s' → GivenBy p a b
  | .value e, ⟨_, .type _⟩, s, s', b, hs, h => by
    simp only [argFor] at h
    exact absurd h fail_ok
  | .value e, ⟨_, .const⟩, s, s', b, hs, h => by
    simp only [argFor] at h
    obtain ⟨-, ⟨v, -, hb⟩ | ⟨-, hb⟩⟩ := valueArg_ok h <;> cases hb
    exact fun _ ht => nomatch ht
  | .type w, ⟨_, .type _⟩, s, s', b, hs, h => by
    simp only [argFor, bind_ok, pure_ok] at h
    obtain ⟨t, _, ht, hb, -⟩ := h
    unfold typeArgOf at hb
    split at hb
    · cases hb
    · rename_i hknown
      cases hb
      rintro _ ⟨⟩
      refine ⟨by simpa using hknown, ?_⟩
      rintro n rfl
      exact ⟨w, rfl, typeRef_arrives ho hd hs ht⟩
  | .type w, ⟨_, .const⟩, s, s', b, hs, h => by
    obtain ⟨_, _, -, hv⟩ := argFor_const_ok h
    obtain ⟨-, ⟨v, -, hb⟩ | ⟨-, hb⟩⟩ := valueArg_ok hv <;> cases hb
    exact fun _ ht => nomatch ht

end

theorem levels_resolve (p : Program) : ∀ n : Nat, Resolves p (levels n)
  | 0 => fun _ h => absurd h fail_ok
  | n + 1 => fun hs h => typeRef_arrives (typeRefAt_orderly n) (levels_resolve p n) hs h

end

/-! ## What the passes declare -/

section

variable {q done : Program} {s s' : Checker}

/-- The names that records are declared under. -/
def recordNames (p : Program) : List String := (recordTable p).map (·.1)

theorem recordTable_append (p q : Program) : recordTable (p ++ q) = recordTable p ++ recordTable q := by
  unfold recordTable
  exact List.filterMap_append

theorem aliasTable_append (p q : Program) : aliasTable (p ++ q) = aliasTable p ++ aliasTable q := by
  unfold aliasTable
  exact List.filterMap_append

theorem recordNames_append (p q : Program) : recordNames (p ++ q) = recordNames p ++ recordNames q := by
  unfold recordNames
  rw [recordTable_append, List.map_append]

theorem aliasNames_append (p q : Program) : aliasNames (p ++ q) = aliasNames p ++ aliasNames q := by
  unfold aliasNames
  rw [aliasTable_append, List.map_append]

theorem mem_recordTable {n : String} {d : RecordDef} : (n, d) ∈ recordTable p ↔ .record d ∈ p ∧ d.name.name = n := by
  unfold recordTable
  rw [List.mem_filterMap]
  constructor
  · rintro ⟨x, hx, h⟩
    split at h
    · cases h
      exact ⟨hx, rfl⟩
    · cases h
  · rintro ⟨hd, rfl⟩
    exact ⟨_, hd, rfl⟩

theorem mem_aliasTable {sp : Span} {id : Ident} {ps : List TemplateParam} {target : TypeRef}
    (h : .typeAlias sp id ps target ∈ p) : (id.name, ps.map (·.name.name), target) ∈ aliasTable p :=
  List.mem_filterMap.2 ⟨_, h, rfl⟩

/-! ### Names -/

/-- **After the first pass** the records are known that have been gone over, each under a name of its own. -/
structure Named (done : Program) (s : Checker) : Prop where
  place : s.place = .outside ((recordNames done).reverse.map fun n => (n, n))
  distinct : (recordNames done).Nodup
  known : ∀ n, s.records.contains n = true ↔ n ∈ recordNames done
  aliases : s.aliases = []

theorem named_new (config : Config) : Named [] (.new config) :=
  ⟨rfl, .nil, fun n => by simp [Checker.new, Table.contains, Table.find?, recordNames, recordTable], rfl⟩

theorem checkTypeName_new {id : Ident} {u : Unit} (h : checkTypeName id s = .ok u s') :
    s.records.contains id.name = false ∧ s.aliases.contains id.name = false := by
  simp only [checkTypeName, bind_ok, get_ok] at h
  obtain ⟨_, _, ⟨rfl, rfl⟩, h⟩ := h
  split at h
  · exact absurd h fail_ok
  · rename_i hnew
    simpa using hnew

theorem Named.of_same (h : Named done s) {x : Stmt} (hx : ∀ d, x ≠ .record d) (hp : s'.place = s.place)
    (hr : s'.records = s.records) (ha : s'.aliases = s.aliases) : Named (done ++ [x]) s' := by
  have hnone : recordNames (done ++ [x]) = recordNames done := by
    rw [recordNames_append]
    cases x with
    | record d => exact absurd rfl (hx d)
    | _ => exact List.append_nil _
  exact ⟨by rw [hp, h.place, hnone], hnone ▸ h.distinct, fun n => by rw [hr, hnone, h.known], ha.trans h.aliases⟩

theorem declareName_named {x : Stmt} (h : declareName x s = .ok () s') (hs : Named done s) : Named (done ++ [x]) s' := by
  cases x with
  | trait sp id =>
    simp only [declareName, declareTrait, bind_ok, get_ok] at h
    obtain ⟨_, _, ⟨rfl, rfl⟩, h⟩ := h
    split at h
    · simp only [bind_ok] at h
      obtain ⟨_, _, h, -⟩ := h
      exact absurd h fail_ok
    · simp only [modify_ok] at h
      subst h
      exact hs.of_same (by simp) rfl rfl rfl
  | record d =>
    simp only [declareName, declareRecord, bind_ok, modify_ok, onPlace_ok] at h
    obtain ⟨_, t, ht, _, _, rfl, rfl⟩ := h
    obtain ⟨hnew, -⟩ := checkTypeName_new ht
    obtain rfl := checkTypeName_ok ht
    have hnames : recordNames (done ++ [.record d]) = recordNames done ++ [d.name.name] := recordNames_append ..
    have hfree : d.name.name ∉ recordNames done := by rw [← hs.known, hnew]; simp
    refine ⟨?_, ?_, fun n => ?_, hs.aliases⟩
    · rw [hnames, List.reverse_append]
      simp only [Checker.onPlace, Checker.addRecord, hs.place, Place.outside, addGlobal]
      rfl
    · rw [hnames, ← List.concat_eq_append]
      exact hs.distinct.concat hfree
    · rw [hnames, List.mem_append, List.mem_singleton, ← hs.known, or_comm]
      exact Table.contains_insert
  | typeAlias _ _ _ _ | cell _ =>
    simp only [declareName, pure_ok] at h
    obtain ⟨-, rfl⟩ := h
    exact hs.of_same (by simp) rfl rfl rfl
  | _ =>
    simp only [declareName] at h
    exact absurd h fail_ok

theorem names_named {config : Config} {u : Unit} (hp : ∀ x ∈ p, x.Written)
    (h : p.forM (fun x => collecting (declareName x)) (.new config) = .ok u s) (hclean : s.diagnostics = []) : Named p s := by
  refine (forM_ok (C := fun s => s.diagnostics = []) (P := Named) [] (fun x hx s s' done hg hc => ?_) h hclean).2
    (named_new config)
  rcases collecting_ok hg with hg | hd
  · exact ⟨(declareName_ok hg (hp x hx)).1 ▸ hc, declareName_named hg⟩
  · exact absurd hc hd

/-! ### Fields and aliases -/

/-- **After the second pass** has gone over the given declarations, each record has the fields of its statement, and each
alias leads where its statement leads. -/
structure Stated (p done : Program) (s : Checker) : Prop where
  sub : ∀ x ∈ done, x ∈ p
  place : s.place = .outside ((recordNames p).reverse.map fun n => (n, n))
  known : ∀ n, s.records.contains n = true ↔ n ∈ recordNames p
  fields : ∀ d, .record d ∈ done → ∃ r, s.records.find? d.name.name = some r ∧
    r.fields.map (·.name) = d.fields.map (·.name.name)
  distinct : (aliasNames done).Nodup
  aliased : ∀ n, s.aliases.contains n = true ↔ n ∈ aliasNames done
  aliases : (aliasNames p).Nodup → ∀ {n info}, s.aliases.find? n = some info →
    ∃ params target, (aliasTable p).find? n = some (params, target) ∧ Spells p params target info

theorem Named.stated (h : Named p s) : Stated p [] s where
  sub := by simp
  place := h.place
  known := h.known
  fields := by simp
  distinct := .nil
  aliased := fun n => by simp [h.aliases, Table.contains, Table.find?, aliasNames, aliasTable]
  aliases := fun _ {_ _} ha => by simp [h.aliases, Table.find?] at ha

theorem Stated.globals (h : Stated p done s) (n : String) : s.place.types.findSome? (Table.find? · n) =
    ((recordTable p).find? n).map fun _ => n := by
  rw [h.place]
  show List.findSome? _ [_] = _
  rw [List.findSome?_cons, List.findSome?_nil, Table.find?_themselves]
  cases hr : (recordTable p).find? n with
  | some d =>
    have hn : n ∈ recordNames p := List.mem_map.2 ⟨_, Table.mem_of_find? hr, rfl⟩
    simp [hn]
  | none =>
    have hn : n ∉ recordNames p := fun hn => by
      have hc := Table.contains_iff.2 hn
      rw [Table.contains, hr] at hc
      cases hc
    simp [hn]

/-- The names mean what the statements say. -/
theorem Stated.sourced (h : Stated p done s) (hp : (aliasNames p).Nodup) : Sourced p s where
  templates := by rw [h.place]; rfl
  records := fun n => by
    unfold Checker.recordName?
    rw [h.globals]
    cases hr : (recordTable p).find? n with
    | some d => rfl
    | none =>
      have hn : s.records.contains n = false := by
        rw [← Bool.not_eq_true, h.known, recordNames, ← Table.contains_iff, Table.contains, hr]
        simp
      simp [hn]
  aliases := h.aliases hp

theorem Stated.sub_append (h : Stated p done s) {x : Stmt} (hx : x ∈ p) : ∀ y ∈ done ++ [x], y ∈ p :=
  List.forall_mem_append.2 ⟨h.sub, List.forall_mem_singleton.2 hx⟩

/-- A declaration of no record and no alias states nothing. -/
theorem Stated.of_same (h : Stated p done s) {x : Stmt} (hx : x ∈ p) (hr : ∀ d, x ≠ .record d) (ha : x.isAlias = false)
    (hplace : s'.place = s.place) (hrecords : s'.records = s.records) (haliases : s'.aliases = s.aliases) :
    Stated p (done ++ [x]) s' := by
  have hnone : aliasNames (done ++ [x]) = aliasNames done := by
    rw [aliasNames_append]
    cases x with
    | typeAlias _ _ _ _ => cases ha
    | _ => exact List.append_nil _
  refine ⟨h.sub_append hx, hplace.trans h.place, fun n => by rw [hrecords, h.known], fun d hd => ?_, hnone ▸ h.distinct,
    fun n => by rw [haliases, hnone, h.aliased], fun hp {n info} hf => h.aliases hp (haliases ▸ hf)⟩
  rcases List.mem_append.1 hd with hd | hd
  · rw [hrecords]
    exact h.fields d hd
  · exact absurd (List.mem_singleton.1 hd).symm (hr d)

theorem Stated.record (h : Stated p done s) (hp : (recordNames p).Nodup) {d : RecordDef} (hd : .record d ∈ p)
    {fields : List FieldInfo} (hfields : fields.map (·.name) = d.fields.map (·.name.name)) :
    Stated p (done ++ [.record d]) (s.addRecord d.name.name fields) := by
  have hnone : aliasNames (done ++ [.record d]) = aliasNames done := by
    rw [aliasNames_append]
    exact List.append_nil _
  have hmem : d.name.name ∈ recordNames p := List.mem_map.2 ⟨_, mem_recordTable.2 ⟨hd, rfl⟩, rfl⟩
  refine ⟨h.sub_append hd, h.place, fun n => ?_, fun d' hd' => ?_, hnone ▸ h.distinct, fun n => by rw [hnone]; exact h.aliased n,
    h.aliases⟩
  · rw [← h.known]
    exact Table.contains_insert.trans (or_iff_right_of_imp fun hn => (h.known n).2 (hn ▸ hmem))
  · have hd'p := h.sub_append hd _ hd'
    show ∃ r, (s.records.insert d.name.name _).find? d'.name.name = some r ∧ _
    rw [Table.find?_insert]
    by_cases hn : d'.name.name = d.name.name
    · have hsame := List.inj_on_of_nodup_map hp (mem_recordTable.2 ⟨hd'p, rfl⟩) (mem_recordTable.2 ⟨hd, rfl⟩) hn
      obtain rfl := (Prod.mk.inj hsame).2
      exact ⟨_, if_pos rfl, hfields⟩
    · rw [if_neg hn]
      rcases List.mem_append.1 hd' with hd' | hd'
      · exact h.fields d' hd'
      · cases List.mem_singleton.1 hd'
        exact absurd rfl hn

theorem Stated.alias (h : Stated p done s) {sp : Span} {id : Ident} {ps : List TemplateParam} {target : TypeRef}
    (hx : .typeAlias sp id ps target ∈ p) (hnew : s.aliases.contains id.name = false) {info : AliasInfo}
    (hinfo : (aliasNames p).Nodup → Spells p (ps.map (·.name.name)) target info) :
    Stated p (done ++ [.typeAlias sp id ps target]) { s with aliases := s.aliases.insert id.name info } := by
  have hnames : aliasNames (done ++ [.typeAlias sp id ps target]) = aliasNames done ++ [id.name] := aliasNames_append ..
  have hfree : id.name ∉ aliasNames done := by rw [← h.aliased, hnew]; simp
  refine ⟨h.sub_append hx, h.place, h.known, fun d hd => ?_, ?_, fun n => ?_, fun hp {n i} hf => ?_⟩
  · rcases List.mem_append.1 hd with hd | hd
    · exact h.fields d hd
    · cases List.mem_singleton.1 hd
  · rw [hnames, ← List.concat_eq_append]
    exact h.distinct.concat hfree
  · rw [hnames, List.mem_append, List.mem_singleton, ← h.aliased, or_comm]
    exact Table.contains_insert
  · simp only [Table.find?_insert] at hf
    split at hf
    · rename_i hn
      cases hf
      exact ⟨_, target, by rw [hn]; exact Table.find?_of_mem hp (mem_aliasTable hx), hinfo hp⟩
    · exact h.aliases hp hf

theorem declare_stated {n : Nat} (hp : (recordNames p).Nodup) {x : Stmt} (hx : x ∈ p)
    (h : Check.declare (levels n) x s = .ok () s') (hs : Stated p done s) : Stated p (done ++ [x]) s' := by
  cases x with
  | record d =>
    simp only [Check.declare, bind_ok, modify_ok] at h
    obtain ⟨fields, t, hf, rfl⟩ := h
    obtain ⟨rfl, hfields, -, -⟩ := recordFields_ok (levels_orderly n) hf
    exact hs.record hp hx (fields_names hfields)
  | typeAlias sp id ps target =>
    simp only [Check.declare, declareAlias, bind_ok] at h
    obtain ⟨_, t, hname, h⟩ := h
    obtain ⟨-, hnew⟩ := checkTypeName_new hname
    obtain rfl := checkTypeName_ok hname
    split at h
    · rename_i hempty
      simp only [bind_ok, map_ok, modify_ok] at h
      obtain ⟨_, t, ⟨ty, hty, rfl⟩, rfl⟩ := h
      obtain rfl := typeRef_same (levels_orderly n) hty
      refine hs.alias hx hnew fun hp m hm => ?_
      rw [List.isEmpty_iff.1 hempty]
      exact typeRef_arrives (levels_orderly n) (levels_resolve p n) (hs.sourced hp) (hm ▸ hty)
    · simp only [bind_ok, get_ok, ofExcept_ok, pure_ok, modify_ok] at h
      obtain ⟨_, _, ⟨rfl, rfl⟩, decls, _, ⟨hdecls, rfl⟩, _, _, ⟨rfl, rfl⟩, rfl⟩ := h
      exact hs.alias hx hnew fun _ => ⟨paramDecls_names hdecls, rfl⟩
  | cell c =>
    obtain ⟨-, -, ⟨-, _, rfl⟩ | ⟨-, _, -, rfl⟩⟩ := declareCell_ok h <;>
      exact hs.of_same hx (by simp) rfl rfl rfl rfl
  | _ =>
    simp only [Check.declare, pure_ok] at h
    obtain ⟨-, rfl⟩ := h
    exact hs.of_same hx (by simp) rfl rfl rfl rfl

theorem declarations_stated {v : Unit} (hp : ∀ x ∈ p, x.Written)
    (h : p.forM (fun x => (do collecting (Check.declare (fromHere (← get)) x) : CheckM Unit)) s = .ok v s')
    (hclean : s'.diagnostics = []) : s.diagnostics = [] ∧ (Named p s → Stated p p s') := by
  have hpass := forM_ok (C := fun s => s.diagnostics = [])
    (P := fun done s => (recordNames p).Nodup → Stated p done s) [] (fun x hx s s' done hg hc => ?_) h hclean
  · exact ⟨hpass.1, fun hnamed => hpass.2 (fun _ => hnamed.stated) hnamed.distinct⟩
  simp only [bind_ok, get_ok] at hg
  obtain ⟨_, _, ⟨rfl, rfl⟩, hg⟩ := hg
  rcases collecting_ok hg with hg | hd
  · exact ⟨declare_keeps_diagnostics (hp x hx) hg ▸ hc, fun hs hn => declare_stated hn hx hg (hs hn)⟩
  · exact absurd hc hd

/-! ## Literals -/

theorem Stated.fields_of_find? (h : Stated p p s) {n : String} {d : RecordDef} (hd : (recordTable p).find? n = some d) :
    ∃ r, s.records.find? n = some r ∧ r.fields.map (·.name) = d.fields.map (·.name.name) := by
  obtain ⟨hmem, rfl⟩ := mem_recordTable.1 (Table.mem_of_find? hd)
  exact h.fields d hmem

/-- **The order of the source is the order of the checker**: a literal whose name the checker takes for a record has the
fields of that record in the order in which they are written in the statement that the name leads to. -/
theorem declaredOrder_eq {config : Config} {checked : CheckedProgram} {last : Checker} (hp : ∀ x ∈ p, x.Written)
    (h : Check.program p (.new config) = .ok checked last) {name c : String} {r : RecordInfo} (hname : Worded name)
    (hc : (globalsOf last).literal? ⟨[], last.place.types, .unit, false⟩ name = some c)
    (hr : last.records.find? c = some r) : declaredOrder p name = r.fields.map (·.name) := by
  obtain ⟨s, start, t, u, v, w, stmts, fin, hnames, hstart, ht, hfin, hclean, -, rfl⟩ := program_ok h
  obtain ⟨hstartclean, hsince⟩ := bodies_since ht hfin hclean
  obtain ⟨globals, hd⟩ := declarations_ok hp hnames hstart hstartclean
  obtain ⟨hsclean, hstated⟩ := declarations_stated hp hstart hstartclean
  have hst := hstated (names_named hp hnames hsclean)
  have hext := hsince.since.toExtends
  -- What a statement declares is what the checker has in the end.
  have hfields : ∀ {d}, (recordTable p).find? c = some d → d.fields.map (·.name.name) = r.fields.map (·.name) := by
    intro d hfind
    obtain ⟨r', hr', horder⟩ := hst.fields_of_find? hfind
    have hlast := hext.records hd.fresh hr'
    rw [show fin.records.find? c = some r from hr] at hlast
    rw [← horder, Option.some.inj hlast]
  have hglobals : fin.place.types.findSome? (Table.find? · name) = ((recordTable p).find? name).map fun _ => name := by
    rw [hsince.place, hst.globals]
  unfold declaredOrder
  unfold Globals.literal? at hc
  cases hfind : (recordTable p).find? name with
  | some d =>
    simp only [hglobals, hfind, Option.map_some, Option.some.injEq] at hc
    exact hfields (hc ▸ hfind)
  | none =>
    simp only [hglobals, hfind, Option.map_none] at hc
    split at hc
    · rename_i hq
      rw [Bool.and_eq_true, List.contains_iff_mem] at hq
      exact absurd hq.1 (hname.notMem (by decide))
    split at hc
    · rename_i halias
      cases hc
      have hplain : start.aliases.find? name = some (.plain (.record c)) := hext.aliases ▸ halias
      obtain ⟨params, target, hentry, harrives⟩ := hst.aliases hst.distinct hplain
      obtain ⟨k, d, hd', htarget⟩ := harrives c rfl
      have hleads : aliasTarget? p (k + 1) name = some (.record d) := by simp only [aliasTarget?, hentry, htarget]
      rw [aliasTarget?_length hleads]
      exact hfields hd'
    · cases hc

end

end Reference
end Unroll
