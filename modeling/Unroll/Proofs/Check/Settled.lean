import Unroll.Proofs.Check.Onward
import Unroll.Proofs.Levels
/-!
# Types that leave nothing open

Outside of all templates every written type is settled: its lengths are known and no parameter is left in it.  Whether
the records that it names are settled as well is another question.  A record that a template declares may have fields of
unknown types, and its name can be carried out of the template by substitution; so each statement here is about types
whose records have some property, and the property is a parameter.
-/
namespace Unroll

namespace Ty

/-- **A type that leaves nothing open**, with records that all have the property. -/
def Settled (P : String → Prop) : Ty → Prop
  | unit | bool | int | char | text => True
  | array elem (some _) => Settled P elem
  | record n => P n
  | array _ none | list _ | param _ | dependent | error => False

namespace Settled

variable {P Q : String → Prop}

theorem known : ∀ {t : Ty}, Settled P t → t.isUnknown = false ∧ t.isDependent = false
  | unit, _ | bool, _ | int, _ | char, _ | text, _ | record _, _ => by simp [isUnknown, isDependent]
  | array elem (some n), h => by
    obtain ⟨hu, hd⟩ := known (t := elem) h
    simp [isUnknown, isDependent, hu, hd]

theorem mono (hPQ : ∀ n, P n → Q n) : ∀ {t : Ty}, Settled P t → Settled Q t
  | unit, _ | bool, _ | int, _ | char, _ | text, _ => trivial
  | record n, h => hPQ n h
  | array elem (some _), h => mono hPQ (t := elem) h

theorem of_builtin {n : String} {t : Ty} (h : builtin? n = some t) : Settled P t := by
  unfold builtin? at h
  split at h <;> cases h <;> trivial

end Settled

end Ty

/-! ## Records that are settled all the way down -/

/-- Every record with the property has fields whose records have it, too. -/
def Closes (records : Table RecordInfo) (P : String → Prop) : Prop :=
  ∀ n, P n → ∃ r, records.find? n = some r ∧ ∀ f ∈ r.fields, f.type.Settled P

/-- **A record that leaves nothing open**, however deep one looks.  Records may refer to one another in circles, so this
is the largest property that closes. -/
def ClosedRecord (records : Table RecordInfo) (n : String) : Prop := ∃ P, Closes records P ∧ P n

theorem closes_closedRecord (records : Table RecordInfo) : Closes records (ClosedRecord records) := by
  rintro n ⟨P, hP, hn⟩
  obtain ⟨r, hr, hf⟩ := hP n hn
  exact ⟨r, hr, fun f hm => (hf f hm).mono fun m hm => ⟨P, hP, hm⟩⟩

theorem closedRecord_of_fields {records : Table RecordInfo} {n : String} {r : RecordInfo}
    (hr : records.find? n = some r) (hf : ∀ f ∈ r.fields, f.type.Settled (ClosedRecord records)) :
    ClosedRecord records n := by
  refine ⟨fun m => ClosedRecord records m ∨ m = n, ?_, .inr rfl⟩
  rintro m (hm | rfl)
  · obtain ⟨r', hr', hf'⟩ := closes_closedRecord records m hm
    exact ⟨r', hr', fun f h => (hf' f h).mono fun _ => .inl⟩
  · exact ⟨r, hr, fun f h => (hf f h).mono fun _ => .inl⟩

/-! ## Names in written types -/

mutual

/-- The names that a written type is made of. -/
def TypeRef.names : TypeRef → List String
  | .named _ id args => id.name :: TypeArg.allNames args
  | .array _ elem _ => elem.names

def TypeArg.names : TypeArg → List String
  | .type t => t.names
  | .value _ => []

def TypeArg.allNames : List TypeArg → List String
  | [] => []
  | a :: as => a.names ++ TypeArg.allNames as

end

/-- The argument is a value, or a type that leaves nothing open. -/
def TemplateArg.Settled (P : String → Prop) : TemplateArg → Prop
  | .type t => t.Settled P
  | .value _ => True

namespace Check

open CheckM Outcome

/-! ## Substitution -/

theorem builtin_no_quote {n : String} (h : '\'' ∈ n.toList) : Ty.builtin? n = none := by
  unfold Ty.builtin?
  split <;> first | rfl | exact absurd h (by decide)

/-- Written out, a settled type is made of the names of its records, and of builtin names. -/
theorem toTypeRef_names {P : String → Prop} {sp : Span} : ∀ {t : Ty} {w : TypeRef}, t.Settled P →
    t.toTypeRef? sp = some w → ∀ m ∈ w.names, (∃ b, Ty.builtin? m = some b) ∨ P m
  | .unit, w, _, h | .bool, w, _, h | .int, w, _, h | .char, w, _, h | .text, w, _, h => by
    cases h
    intro m hm
    simp only [TypeRef.bare, TypeRef.names, TypeArg.allNames, List.mem_singleton] at hm
    exact .inl (by rw [hm]; exact ⟨_, rfl⟩)
  | .record n, w, hs, h => by
    cases h
    intro m hm
    simp only [TypeRef.bare, TypeRef.names, TypeArg.allNames, List.mem_singleton] at hm
    exact .inr (hm ▸ hs)
  | .array elem (some n), w, hs, h => by
    simp only [Ty.toTypeRef?] at h
    split at h
    · cases he : elem.toTypeRef? sp with
      | none => simp [he] at h
      | some v =>
        simp only [he, Option.map_some, Option.some.injEq] at h
        subst h
        intro m hm
        exact toTypeRef_names (t := elem) (w := v) hs he m (by simpa only [TypeRef.names] using hm)
    · cases h

mutual

/-- **Substitution brings in no names** but those of the argument types. -/
theorem subst_names {R : String → Prop} {ls : ArgLevels}
    (hls : ∀ {n t sp w}, ls.lookup? n = some (.type t) → t.toTypeRef? sp = some w → ∀ m ∈ w.names, R m) :
    ∀ {w r : TypeRef}, (∀ m ∈ w.names, R m) → Subst.typeRef ls w = .ok r → ∀ m ∈ r.names, R m
  | .named sp id [], r, hw, h => by
    simp only [Subst.typeRef, Subst.typeName] at h
    split at h
    · rename_i t hl
      split at h
      · rename_i w' ht
        cases h
        exact hls hl ht
      · cases h
    · cases h
    · cases h
      exact hw
  | .named sp id (a :: as), r, hw, h => by
    simp only [Subst.typeRef, except_bind_ok, except_pure_ok] at h
    obtain ⟨bs, hb, rfl⟩ := h
    have hw' : R id.name ∧ ∀ m ∈ TypeArg.allNames (a :: as), R m := by simpa [TypeRef.names] using hw
    intro m hm
    simp only [TypeRef.names, List.mem_cons] at hm
    rcases hm with rfl | hm
    · exact hw'.1
    · exact substArgs_names hls hw'.2 hb m hm
  | .array sp elem len, r, hw, h => by
    simp only [Subst.typeRef, except_bind_ok, except_pure_ok] at h
    obtain ⟨e, he, l, -, rfl⟩ := h
    intro m hm
    exact subst_names hls (w := elem) (r := e) (by simpa only [TypeRef.names] using hw) he m
      (by simpa only [TypeRef.names] using hm)

theorem substArg_names {R : String → Prop} {ls : ArgLevels}
    (hls : ∀ {n t sp w}, ls.lookup? n = some (.type t) → t.toTypeRef? sp = some w → ∀ m ∈ w.names, R m) :
    ∀ {a b : TypeArg}, (∀ m ∈ a.names, R m) → Subst.typeArg ls a = .ok b → ∀ m ∈ b.names, R m
  | .type (.named sp id []), b, ha, h => by
    simp only [Subst.typeArg] at h
    split at h
    · cases h
      simp [TypeArg.names]
    · rw [except_map_ok] at h
      obtain ⟨w, hw, rfl⟩ := h
      exact subst_names hls (w := .named sp id []) ha (by simpa only [Subst.typeRef] using hw)
  | .type (.named sp id (a :: as)), b, ha, h => by
    simp only [Subst.typeArg, except_map_ok] at h
    obtain ⟨w, hw, rfl⟩ := h
    exact subst_names hls (w := .named sp id (a :: as)) ha hw
  | .type (.array sp elem len), b, ha, h => by
    simp only [Subst.typeArg, except_map_ok] at h
    obtain ⟨w, hw, rfl⟩ := h
    exact subst_names hls (w := .array sp elem len) ha hw
  | .value e, b, ha, h => by
    simp only [Subst.typeArg, except_map_ok] at h
    obtain ⟨w, hw, rfl⟩ := h
    simp [TypeArg.names]

theorem substArgs_names {R : String → Prop} {ls : ArgLevels}
    (hls : ∀ {n t sp w}, ls.lookup? n = some (.type t) → t.toTypeRef? sp = some w → ∀ m ∈ w.names, R m) :
    ∀ {as bs : List TypeArg}, (∀ m ∈ TypeArg.allNames as, R m) → Subst.typeArgs ls as = .ok bs →
      ∀ m ∈ TypeArg.allNames bs, R m
  | [], bs, _, h => by
    cases h
    simp [TypeArg.allNames]
  | a :: as, bs, ha, h => by
    simp only [Subst.typeArgs, except_bind_ok, except_pure_ok] at h
    obtain ⟨b, hb, bs', hbs, rfl⟩ := h
    simp only [TypeArg.allNames, List.mem_append] at ha ⊢
    rintro m (hm | hm)
    · exact substArg_names hls (fun m hm => ha m (.inl hm)) hb m hm
    · exact substArgs_names hls (fun m hm => ha m (.inr hm)) hbs m hm

end

/-! ## Constants -/

theorem ofArith_known {sp : Span} {r : Except Arith.Fault Int} {c : Const} (h : Const.ofArith sp r = .ok c) :
    c ≠ .dependent := by
  rcases r with f | v
  · cases f <;> cases h
  · cases h
    simp

theorem unary_known {sp : Span} {op : UnaryOp} {a c : Const} (ha : a ≠ .dependent)
    (h : Const.unary sp op a = .ok c) : c ≠ .dependent := by
  cases a with
  | dependent => exact absurd rfl ha
  | int n =>
    cases op with
    | neg => exact ofArith_known h
    | not => cases h
  | bool b =>
    cases op with
    | neg => cases h
    | not =>
      cases h
      simp

theorem binary_known {sp : Span} {op : BinOp} {a b c : Const} (ha : a ≠ .dependent) (hb : b ≠ .dependent)
    (h : Const.binary sp op a b = .ok c) : c ≠ .dependent := by
  cases a with
  | dependent => exact absurd rfl ha
  | int m =>
    cases b with
    | dependent => exact absurd rfl hb
    | bool _ => cases h
    | int n =>
      simp only [Const.binary] at h
      cases op <;> simp only [Const.onInts, Const.notOperand, Except.ok.injEq, reduceCtorEq] at h <;>
        first | exact ofArith_known h | exact h ▸ by simp
  | bool p =>
    cases b with
    | dependent => exact absurd rfl hb
    | int _ => cases h
    | bool q =>
      simp only [Const.binary] at h
      cases op <;> simp only [Const.onBools, Const.notOperand, Except.ok.injEq, reduceCtorEq] at h <;>
        exact h ▸ by simp

/-- **Where no name stands for an open constant, no constant is open.** -/
theorem eval_known {env : String → Option Const} (henv : ∀ n, env n ≠ some .dependent) : ∀ {e : Expr} {c : Const},
    Const.eval env e = .ok c → c ≠ .dependent
  | .int _ _, c, h | .bool _ _, c, h => by
    cases h
    simp
  | .name sp id, c, h => by
    unfold Const.eval at h
    split at h
    · rename_i hn
      cases h
      rintro rfl
      exact henv _ hn
    · cases h
  | .unary sp op e, c, h => by
    simp only [Const.eval, except_bind_ok] at h
    obtain ⟨a, ha, hc⟩ := h
    exact unary_known (eval_known henv ha) hc
  | .binary sp l op r, c, h => by
    simp only [Const.eval, except_bind_ok] at h
    obtain ⟨a, ha, b, hb, hc⟩ := h
    exact binary_known (eval_known henv ha) (eval_known henv hb) hc
  | .char _ _, c, h | .text _ _, c, h | .list _ _, c, h | .array _ _, c, h | .record _ _ _, c, h
  | .member _ _ _, c, h | .index _ _ _, c, h | .call _ _ _ _, c, h | .listSelect _ _ _, c, h
  | .memberSelect _ _ _ _, c, h => by cases h

/-! ## Written types outside of templates -/

/-- A name that would be taken for a local record's own name has the property, if there is such a record. -/
def Spelled (P : String → Prop) (s : Checker) (n : String) : Prop :=
  '\'' ∈ n.toList → s.records.contains n = true → P n

/-- **The place is outside of all templates**, and type names that are known there stand for types that leave nothing
open. -/
structure Grounded (P : String → Prop) (s : Checker) : Prop where
  templates : s.place.templates = []
  types : ∀ {n c}, s.place.types.findSome? (Table.find? · n) = some c → P c
  plain : ∀ {n t}, s.aliases.find? n = some (.plain t) → t.Settled P
  generic : ∀ {n ps target}, s.aliases.find? n = some (.generic ps target) → ∀ m ∈ target.names, Spelled P s m

/-- Outside of all templates no name is that of a parameter. -/
theorem param?_outside {p : Place} (hp : p.templates = []) (n : String) : p.param? n = none := by
  unfold Place.param?
  rw [hp]
  rfl

theorem constant?_outside {p : Place} (hp : p.templates = []) (n : String) : p.constant? n = none := by
  unfold Place.constant?
  rw [param?_outside hp]

/-- What is one level down resolves written types to settled ones. -/
def Deeper.Settles (deeper : Deeper) (P : String → Prop) : Prop :=
  ∀ {w s t s'}, Grounded P s → (∀ m ∈ w.names, Spelled P s m) → deeper.typeRef w s = .ok t s' → t.Settled P

variable {P : String → Prop} {deeper : Deeper} {s s' : Checker}

theorem Grounded.constant? (hg : Grounded P s) (n : String) : s.place.constant? n = none :=
  constant?_outside hg.templates n

theorem Grounded.param? (hg : Grounded P s) (n : String) : s.place.param? n = none :=
  param?_outside hg.templates n

theorem recordName_has (hg : Grounded P s) {n c : String} (hn : Spelled P s n) (h : s.recordName? n = some c) : P c := by
  unfold Checker.recordName? at h
  cases hf : s.place.types.findSome? (Table.find? · n) with
  | some c' =>
    simp only [hf, Option.some.injEq] at h
    exact h ▸ hg.types hf
  | none =>
    simp only [hf] at h
    split at h
    · rename_i hq
      simp only [Option.some.injEq] at h
      simp only [List.contains_iff_mem, Bool.and_eq_true] at hq
      exact h ▸ hn hq.1 hq.2
    · cases h

theorem meaning_settled (hg : Grounded P s) {id : Ident} (hn : Spelled P s id.name) {what : Plain} {t : Ty}
    (h : meaning id s = .ok (.plain what t) s') : t.Settled P := by
  obtain ⟨-, ⟨b, hb, hm⟩ | ⟨-, ⟨_, _, hp, -⟩ | ⟨-, ⟨c, hc, hm⟩ | ⟨-, ⟨a, ha, hm⟩ | ⟨_, _, -, hm⟩⟩⟩⟩⟩ := meaning_ok h
  · cases hm
    exact .of_builtin hb
  · rw [hg.param?] at hp
    cases hp
  · cases hm
    exact recordName_has hg hn hc
  · cases hm
    exact hg.plain ha
  · cases hm

theorem meaning_generic {id : Ident} {ps : ParamLevel} (h : meaning id s = .ok (.generic ps) s') :
    ∃ target, s.aliases.find? id.name = some (.generic ps target) := by
  obtain ⟨-, ⟨_, -, hm⟩ | ⟨-, ⟨_, _, -, hm⟩ | ⟨-, ⟨_, -, hm⟩ | ⟨-, ⟨_, -, hm⟩ | ⟨ps', target, ha, hm⟩⟩⟩⟩⟩ := meaning_ok h
  · cases hm
  · cases hm
  · cases hm
  · cases hm
  · cases hm
    exact ⟨target, ha⟩

/-- The names of arguments that are bound stand for these arguments. -/
theorem lookup_bound {names : List String} {args : List TemplateArg} {n : String} {a : TemplateArg}
    (h : (ArgLevels.bind [] names args).lookup? n = some a) : a ∈ args := by
  rw [ArgLevels.lookup?_bind_nil] at h
  exact (level_names h).2

theorem instantiateAlias_settled (hd : deeper.Settles P) (hg : Grounded P s) {id : Ident} {args : List TemplateArg}
    (ha : ∀ a ∈ args, a.Settled P) {t : Ty} (h : instantiateAlias deeper id args s = .ok t s') : t.Settled P := by
  obtain ⟨ps, target, r, fr, u, hal, hr, -, ht, -⟩ := instantiateAlias_ok h
  have hg' : Grounded P { s with frames := fr } := ⟨hg.templates, hg.types, hg.plain, hg.generic⟩
  refine hd hg' ?_ ht
  refine subst_names (R := Spelled P s) (fun hl hw m hm hq hc => ?_) (hg.generic hal) hr
  obtain ⟨b, hb⟩ | hm := toTypeRef_names (ha _ (lookup_bound hl)) hw m hm
  · rw [builtin_no_quote hq] at hb
    cases hb
  · exact hm

theorem allKnown_some : ∀ {as : List (Option TemplateArg)}, (∀ x ∈ as, ∃ a, x = some a ∧ a.Settled P) →
    ∃ full, allKnown as = some full ∧ ∀ a ∈ full, a.Settled P
  | [], _ => ⟨[], rfl, by simp⟩
  | x :: as, h => by
    obtain ⟨a, rfl, ha⟩ := h x (List.mem_cons_self ..)
    obtain ⟨full, hf, hall⟩ := allKnown_some fun y hy => h y (List.mem_cons_of_mem _ hy)
    refine ⟨a :: full, by simp [allKnown, hf], ?_⟩
    simp only [List.mem_cons, forall_eq_or_imp]
    exact ⟨ha, hall⟩

theorem valueArg_settled (hg : Grounded P s) {p : ParamDecl} {e : Expr} {r : Option TemplateArg}
    (h : valueArg p e s = .ok r s') : ∃ a, r = some a ∧ a.Settled P := by
  obtain ⟨-, ⟨v, -, rfl⟩ | ⟨hdep, -⟩⟩ := valueArg_ok h
  · exact ⟨_, rfl, trivial⟩
  · exact absurd rfl (eval_known (fun n => by simp [hg.constant? n]) hdep)

mutual

/-- **Outside of templates a written type is settled.** -/
theorem typeRef_settled (ho : deeper.Orderly) (hd : deeper.Settles P) : ∀ {w : TypeRef} {s s' : Checker} {t : Ty},
    Grounded P s → (∀ m ∈ w.names, Spelled P s m) → typeRef deeper w s = .ok t s' → t.Settled P
  | .array sp elem len, s, s', t, hg, hw, h => by
    simp only [typeRef, bind_ok] at h
    obtain ⟨et, u, he, hl⟩ := h
    have hs := typeRef_same ho he
    subst hs
    have hes := typeRef_settled ho hd hg (by simpa only [TypeRef.names] using hw) he
    obtain ⟨-, ⟨n, -, -, rfl⟩ | ⟨hdep, -⟩⟩ := length_ok hl
    · exact hes
    · exact absurd rfl (eval_known (fun n => by simp [hg.constant? n]) hdep)
  | .named sp id args, s, s', t, hg, hw, h => by
    have hw' : Spelled P s id.name ∧ ∀ m ∈ TypeArg.allNames args, Spelled P s m := by simpa [TypeRef.names] using hw
    obtain ⟨m, hm, ⟨what, rfl, -, -⟩ | ⟨ps, u, as, rfl, -, has, h⟩⟩ := typeRef_named_ok h
    · exact meaning_settled hg hw'.1 hm
    · have hs := argsFor_same ho has
      subst hs
      obtain ⟨full, hfull, hall⟩ := allKnown_some (argsFor_settled ho hd hg hw'.2 has)
      obtain ⟨full', hk, hi⟩ | ⟨hk, -⟩ := h
      · rw [hfull] at hk
        cases hk
        exact instantiateAlias_settled hd hg hall hi
      · rw [hfull] at hk
        cases hk

theorem argsFor_settled (ho : deeper.Orderly) (hd : deeper.Settles P) : ∀ {as : List TypeArg} {ps : List ParamDecl}
    {s s' : Checker} {r : List (Option TemplateArg)}, Grounded P s → (∀ m ∈ TypeArg.allNames as, Spelled P s m) →
      argsFor deeper ps as s = .ok r s' → ∀ x ∈ r, ∃ a, x = some a ∧ a.Settled P
  | [], ps, s, s', r, hg, hw, h => by
    cases ps <;> simp only [argsFor, pure_ok] at h <;> simp [← h.1]
  | a :: as, [], s, s', r, hg, hw, h => by
    simp only [argsFor, pure_ok] at h
    simp [← h.1]
  | a :: as, p :: ps, s, s', r, hg, hw, h => by
    simp only [argsFor, bind_ok, pure_ok] at h
    obtain ⟨x, u, ha, xs, _, has, rfl, rfl⟩ := h
    have hs := argFor_same ho ha
    subst hs
    simp only [TypeArg.allNames, List.mem_append] at hw
    simp only [List.mem_cons, forall_eq_or_imp]
    exact ⟨argFor_settled ho hd hg (fun m hm => hw m (.inl hm)) ha,
      argsFor_settled ho hd hg (fun m hm => hw m (.inr hm)) has⟩

theorem argFor_settled (ho : deeper.Orderly) (hd : deeper.Settles P) : ∀ {a : TypeArg} {p : ParamDecl}
    {s s' : Checker} {r : Option TemplateArg}, Grounded P s → (∀ m ∈ a.names, Spelled P s m) →
      argFor deeper p a s = .ok r s' → ∃ b, r = some b ∧ b.Settled P
  | .value e, ⟨_, .type _⟩, s, s', r, hg, hw, h => by
    simp only [argFor] at h
    exact absurd h fail_ok
  | .value e, ⟨_, .const⟩, s, s', r, hg, hw, h => by
    simp only [argFor] at h
    exact valueArg_settled hg h
  | .type t, ⟨_, .type _⟩, s, s', r, hg, hw, h => by
    simp only [argFor, bind_ok, pure_ok] at h
    obtain ⟨ty, _, ht, rfl, rfl⟩ := h
    have hty := typeRef_settled ho hd hg (by simpa only [TypeArg.names] using hw) ht
    refine ⟨.type ty, ?_, hty⟩
    simp [typeArgOf, hty.known.1]
  | .type t, ⟨_, .const⟩, s, s', r, hg, hw, h => by
    obtain ⟨_, _, -, hv⟩ := argFor_const_ok h
    exact valueArg_settled hg hv

end

theorem levels_settle (P : String → Prop) : ∀ n : Nat, (levels n).Settles P
  | 0 => fun _ _ h => absurd h fail_ok
  | n + 1 => fun hg hw h => typeRef_settled (typeRefAt_orderly n) (levels_settle P n) hg hw h

end Check
end Unroll
