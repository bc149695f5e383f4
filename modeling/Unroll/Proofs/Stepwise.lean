import Unroll.Proofs.Levels
import Unroll.Proofs.Outcome
import Unroll.Proofs.Unplaced
import Unroll.Template.Subst
/-!
# Level after level

Two levels can be put in at once, or one after the other, and what comes of it is the same: a name is answered by one of
them only, and what the one puts in is nothing that the other answers to.  The steps differ in when a selection
collapses.  An index that is a literal after the first step is the same literal after the second one, so a selection that
collapses early selects what it would have selected late.
-/
namespace Unroll

/-- The names that a type is written with. -/
def Ty.words : Ty → List String
  | unit => ["Unit"]
  | bool => ["bool"]
  | int => ["int"]
  | char => ["char"]
  | text => ["String"]
  | record n | param n => [n]
  | array elem _ => elem.words
  | list _ | dependent | error => []

/-- The type is not a bare name. -/
def TypeRef.Compound : TypeRef → Prop
  | .named _ _ [] => False
  | _ => True

namespace Subst

open Outcome

variable {ls both first second : ArgLevels}

/-! ## What was put in stays -/

theorem typeArg_compound : ∀ {w : TypeRef}, w.Compound → typeArg ls (.type w) = .type <$> typeRef ls w
  | .named _ _ (_ :: _), _ | .array _ _ _, _ => by simp only [typeArg]

theorem compound_stays : ∀ {w r : TypeRef}, w.Compound → typeRef ls w = .ok r → r.Compound
  | .named _ _ (_ :: _), r, _, h => by
    simp only [typeRef, typeArgs, except_bind_ok, except_pure_ok] at h
    obtain ⟨_, ⟨_, -, _, -, rfl⟩, rfl⟩ := h
    trivial
  | .array _ _ _, r, _, h => by
    simp only [typeRef, except_bind_ok, except_pure_ok] at h
    obtain ⟨_, -, _, -, rfl⟩ := h
    trivial

theorem bare_stays {sp : Span} {n : String} (hn : ls.lookup? n = none) :
    typeRef ls (.bare sp n) = .ok (.bare sp n) ∧ typeArg ls (.type (.bare sp n)) = .ok (.type (.bare sp n)) := by
  have hname : typeName ls sp ⟨n, sp⟩ = .ok (.bare sp n) := by
    unfold typeName
    simp only [hn]
    rfl
  refine ⟨hname, ?_⟩
  unfold TypeRef.bare typeArg
  simp only [hn, hname]
  rfl

/-- **A type that was written out is left alone** by levels that answer to none of its words. -/
theorem spelled_stays {sp : Span} : ∀ {t : Ty} {w : TypeRef}, (∀ m ∈ t.words, ls.lookup? m = none) →
    t.toTypeRef? sp = some w → typeRef ls w = .ok w ∧ typeArg ls (.type w) = .ok (.type w)
  | .unit, w, hw, h | .bool, w, hw, h | .int, w, hw, h | .char, w, hw, h | .text, w, hw, h | .record _, w, hw, h
  | .param _, w, hw, h => by
    cases h
    exact bare_stays (hw _ (List.mem_singleton_self _))
  | .array elem (some n), w, hw, h => by
    simp only [Ty.toTypeRef?] at h
    split at h
    · obtain ⟨v, hv, rfl⟩ := Option.map_eq_some_iff.1 h
      have helem := (spelled_stays (t := elem) hw hv).1
      have harray : typeRef ls (.array sp v (.int sp n)) = .ok (.array sp v (.int sp n)) := by
        rw [typeRef, helem]
        rfl
      exact ⟨harray, by rw [typeArg_compound (w := .array sp v (.int sp n)) trivial, harray]; rfl⟩
    · cases h

/-! ## Selections that collapse early -/

theorem literal_stays {i r : Expr} {k : Int} (hi : expr ls i = .ok r) (hk : literal? i = some k) : r = i := by
  cases i with
  | int sp v =>
    cases hi
    rfl
  | _ => cases hk

theorem exprs_get : ∀ {es us : List Expr} {k : Nat} {u : Expr}, exprs ls es = .ok us → us[k]? = some u →
    ∃ e, es[k]? = some e ∧ expr ls e = .ok u
  | [], us, k, u, h, hu => by
    cases h
    cases hu
  | e :: es, us, k, u, h, hu => by
    simp only [exprs, except_bind_ok, except_pure_ok] at h
    obtain ⟨x, hx, rest, hrest, rfl⟩ := h
    cases k with
    | zero =>
      cases hu
      exact ⟨e, rfl, hx⟩
    | succ k => exact exprs_get (k := k) hrest hu

/-- **A selection that collapses in the first step** selects what both steps together make of it. -/
theorem listSelect_splits {sp : Span} {l i lu iu : Expr} {u : Expr} (hl : expr ls l = .ok lu)
    (hi : expr ls i = .ok iu) (hu : foldListSelect sp lu iu = .ok u) :
    ∃ v, foldListSelect sp l i = .ok v ∧ expr ls v = .ok u := by
  have hlate : expr ls (.listSelect sp l i) = .ok u := by
    rw [expr, hl]
    show (do let x ← expr ls i; foldListSelect sp lu x) = _
    rw [hi]
    exact hu
  unfold foldListSelect
  split
  · rename_i k lsp items hk
    obtain rfl := literal_stays hi hk
    simp only [expr, except_bind_ok, except_pure_ok] at hl
    obtain ⟨us, hus, rfl⟩ := hl
    simp only [foldListSelect, hk] at hu
    split at hu
    · rename_i x hx
      cases hu
      unfold item? at hx ⊢
      split at hx
      · rename_i hpos
        obtain ⟨e, he, heu⟩ := exprs_get hus hx
        simp only [hpos, if_true, he]
        exact ⟨e, rfl, heu⟩
      · cases hx
    · cases hu
  · exact ⟨_, rfl, hlate⟩

theorem memberSelect_splits {sp : Span} {b i bu iu : Expr} {ms : List Ident} {u : Expr} (hb : expr ls b = .ok bu)
    (hi : expr ls i = .ok iu) (hu : foldMemberSelect sp bu ms iu = .ok u) :
    ∃ v, foldMemberSelect sp b ms i = .ok v ∧ expr ls v = .ok u := by
  have hlate : expr ls (.memberSelect sp b ms i) = .ok u := by
    rw [expr, hb]
    show (do let x ← expr ls i; foldMemberSelect sp bu ms x) = _
    rw [hi]
    exact hu
  unfold foldMemberSelect
  split
  · rename_i k hk
    obtain rfl := literal_stays hi hk
    simp only [foldMemberSelect, hk] at hu
    cases hm : item? ms k with
    | none =>
      simp only [hm] at hu
      cases hu
    | some m =>
      simp only [hm] at hu
      cases hu
      refine ⟨_, rfl, ?_⟩
      rw [expr, hb]
      rfl
  · exact ⟨_, rfl, hlate⟩

/-! ## Levels that can be put in one after the other -/

/-- **The first step answers with what both levels answer with, the second one answers to the rest.**  To what the first
one answers the second one does not, nor to what types of the first are written with. -/
structure Splits (both first second : ArgLevels) : Prop where
  early : ∀ {n a}, first.lookup? n = some a → both.lookup? n = some a ∧ second.lookup? n = none
  late : ∀ {n}, first.lookup? n = none → both.lookup? n = second.lookup? n
  apart : ∀ {n t}, first.lookup? n = some (.type t) → ∀ m ∈ t.words, second.lookup? m = none

section

variable (h : Splits both first second)
include h

theorem name_splits {sp : Span} {id : Ident} {u : Expr} (hu : name both sp id = .ok u) :
    ∃ v, name first sp id = .ok v ∧ expr second v = .ok u := by
  cases hf : first.lookup? id.name with
  | none =>
    refine ⟨.name sp id, by rw [name, hf], ?_⟩
    rw [name, h.late hf] at hu
    exact hu
  | some a =>
    rw [name, (h.early hf).1] at hu
    cases a with
    | type t => cases hu
    | value v =>
      cases hu
      exact ⟨.int sp v, by rw [name, hf], rfl⟩

theorem typeName_splits {sp : Span} {id : Ident} {u : TypeRef} (hu : typeName both sp id = .ok u) :
    ∃ v, typeName first sp id = .ok v ∧ typeRef second v = .ok u := by
  cases hf : first.lookup? id.name with
  | none =>
    refine ⟨.named sp id [], by rw [typeName, hf], ?_⟩
    rw [typeName, h.late hf] at hu
    exact hu
  | some a =>
    rw [typeName, (h.early hf).1] at hu
    cases a with
    | value v => cases hu
    | type t =>
      cases ht : t.toTypeRef? sp with
      | none =>
        simp only [ht] at hu
        cases hu
      | some w =>
        simp only [ht] at hu
        cases hu
        exact ⟨u, by rw [typeName, hf]; simp only [ht], (spelled_stays (h.apart hf) ht).1⟩

/-- A bare name may stand for a type or for a value, in either step. -/
theorem bareArg_splits {sp : Span} {id : Ident} {u : TypeArg} (hu : typeArg both (.type (.named sp id [])) = .ok u) :
    ∃ v, typeArg first (.type (.named sp id [])) = .ok v ∧ typeArg second v = .ok u := by
  cases hf : first.lookup? id.name with
  | none =>
    refine ⟨.type (.named sp id []), ?_, ?_⟩
    · simp only [typeArg, hf, typeName]
      rfl
    · simp only [typeArg, h.late hf, typeName] at hu ⊢
      exact hu
  | some a =>
    simp only [typeArg, (h.early hf).1, typeName] at hu
    simp only [typeArg, hf, typeName]
    cases a with
    | value v =>
      cases hu
      exact ⟨.value (.int sp v), rfl, rfl⟩
    | type t =>
      cases ht : t.toTypeRef? sp with
      | none =>
        simp only [ht] at hu
        cases hu
      | some w =>
        simp only [ht] at hu ⊢
        cases hu
        exact ⟨.type w, rfl, (spelled_stays (h.apart hf) ht).2⟩

omit h in
theorem compoundArg_splits {w : TypeRef} {u : TypeArg} (hw : w.Compound)
    (hsplits : ∀ {r}, typeRef both w = .ok r → ∃ v, typeRef first w = .ok v ∧ typeRef second v = .ok r)
    (hu : typeArg both (.type w) = .ok u) : ∃ v, typeArg first (.type w) = .ok v ∧ typeArg second v = .ok u := by
  rw [typeArg_compound hw, except_map_ok] at hu
  obtain ⟨r, hr, rfl⟩ := hu
  obtain ⟨v, hv, hvr⟩ := hsplits hr
  refine ⟨.type v, by rw [typeArg_compound hw, hv]; rfl, ?_⟩
  rw [typeArg_compound (compound_stays hw hv), hvr]
  rfl

theorem recordName_splits (id : Ident) : recordName second (recordName first id) = recordName both id := by
  cases hf : first.lookup? id.name with
  | none =>
    have hstays : recordName first id = id := by
      unfold recordName
      rw [hf]
    rw [hstays]
    unfold recordName
    rw [h.late hf]
  | some a =>
    obtain ⟨hb, hs⟩ := h.early hf
    have hown : recordName second id = id := by
      unfold recordName
      rw [hs]
    cases a with
    | value v =>
      simp only [recordName, hf, hb]
      exact hown
    | type t =>
      cases t with
      | record c =>
        have hc : second.lookup? c = none := h.apart hf c (List.mem_singleton_self c)
        simp only [recordName, hf, hb, hc]
      | _ =>
        simp only [recordName, hf, hb]
        exact hown

end

mutual

/-- **What all levels at once make of an expression, one step after the other makes of it.** -/
theorem expr_splits (h : Splits both first second) : ∀ {e u : Expr}, expr both e = .ok u →
    ∃ v, expr first e = .ok v ∧ expr second v = .ok u
  | .name sp id, u, hu => name_splits h hu
  | .int _ _, u, hu | .char _ _, u, hu | .bool _ _, u, hu | .text _ _, u, hu => by
    cases hu
    exact ⟨_, rfl, rfl⟩
  | .list sp items, u, hu => by
    simp only [expr, except_bind_ok, except_pure_ok] at hu
    obtain ⟨us, hus, rfl⟩ := hu
    obtain ⟨vs, hvs, hvu⟩ := exprs_splits h hus
    exact ⟨.list sp vs, by rw [expr, hvs]; rfl, by rw [expr, hvu]; rfl⟩
  | .array sp items, u, hu => by
    simp only [expr, except_bind_ok, except_pure_ok] at hu
    obtain ⟨us, hus, rfl⟩ := hu
    obtain ⟨vs, hvs, hvu⟩ := exprs_splits h hus
    exact ⟨.array sp vs, by rw [expr, hvs]; rfl, by rw [expr, hvu]; rfl⟩
  | .record sp type fs, u, hu => by
    simp only [expr, except_bind_ok, except_pure_ok] at hu
    obtain ⟨us, hus, rfl⟩ := hu
    obtain ⟨vs, hvs, hvu⟩ := fields_splits h hus
    refine ⟨.record sp (recordName first type) vs, by rw [expr, hvs]; rfl, ?_⟩
    rw [expr, hvu, recordName_splits h]
    rfl
  | .unary sp op e, u, hu => by
    simp only [expr, except_bind_ok, except_pure_ok] at hu
    obtain ⟨eu, heu, rfl⟩ := hu
    obtain ⟨ev, hev, hevu⟩ := expr_splits h heu
    exact ⟨.unary sp op ev, by rw [expr, hev]; rfl, by rw [expr, hevu]; rfl⟩
  | .binary sp l op r, u, hu => by
    simp only [expr, except_bind_ok, except_pure_ok] at hu
    obtain ⟨lu, hlu, ru, hru, rfl⟩ := hu
    obtain ⟨lv, hlv, hlvu⟩ := expr_splits h hlu
    obtain ⟨rv, hrv, hrvu⟩ := expr_splits h hru
    exact ⟨.binary sp lv op rv, by rw [expr, hlv, hrv]; rfl, by rw [expr, hlvu, hrvu]; rfl⟩
  | .member sp base m, u, hu => by
    simp only [expr, except_bind_ok, except_pure_ok] at hu
    obtain ⟨bu, hbu, rfl⟩ := hu
    obtain ⟨bv, hbv, hbvu⟩ := expr_splits h hbu
    exact ⟨.member sp bv m, by rw [expr, hbv]; rfl, by rw [expr, hbvu]; rfl⟩
  | .index sp base index, u, hu => by
    simp only [expr, except_bind_ok, except_pure_ok] at hu
    obtain ⟨bu, hbu, iu, hiu, rfl⟩ := hu
    obtain ⟨bv, hbv, hbvu⟩ := expr_splits h hbu
    obtain ⟨iv, hiv, hivu⟩ := expr_splits h hiu
    exact ⟨.index sp bv iv, by rw [expr, hbv, hiv]; rfl, by rw [expr, hbvu, hivu]; rfl⟩
  | .call sp callee generic args, u, hu => by
    simp only [expr, except_bind_ok, except_pure_ok] at hu
    obtain ⟨gu, hgu, au, hau, rfl⟩ := hu
    obtain ⟨gv, hgv, hgvu⟩ := typeArgs_splits h hgu
    obtain ⟨av, hav, havu⟩ := exprs_splits h hau
    exact ⟨.call sp callee gv av, by rw [expr, hgv, hav]; rfl, by rw [expr, hgvu, havu]; rfl⟩
  | .listSelect sp list index, u, hu => by
    simp only [expr, except_bind_ok] at hu
    obtain ⟨lu, hlu, iu, hiu, hu⟩ := hu
    obtain ⟨lv, hlv, hlvu⟩ := expr_splits h hlu
    obtain ⟨iv, hiv, hivu⟩ := expr_splits h hiu
    obtain ⟨v, hv, hvu⟩ := listSelect_splits hlvu hivu hu
    exact ⟨v, by rw [expr, hlv, hiv]; exact hv, hvu⟩
  | .memberSelect sp base ms index, u, hu => by
    simp only [expr, except_bind_ok] at hu
    obtain ⟨bu, hbu, iu, hiu, hu⟩ := hu
    obtain ⟨bv, hbv, hbvu⟩ := expr_splits h hbu
    obtain ⟨iv, hiv, hivu⟩ := expr_splits h hiu
    obtain ⟨v, hv, hvu⟩ := memberSelect_splits hbvu hivu hu
    exact ⟨v, by rw [expr, hbv, hiv]; exact hv, hvu⟩
termination_by structural e => e

theorem exprs_splits (h : Splits both first second) : ∀ {es us : List Expr}, exprs both es = .ok us →
    ∃ vs, exprs first es = .ok vs ∧ exprs second vs = .ok us
  | [], us, hu => by
    cases hu
    exact ⟨[], rfl, rfl⟩
  | e :: es, us, hu => by
    simp only [exprs, except_bind_ok, except_pure_ok] at hu
    obtain ⟨u, he, rest, hes, rfl⟩ := hu
    obtain ⟨v, hv, hvu⟩ := expr_splits h he
    obtain ⟨vs, hvs, hvus⟩ := exprs_splits h hes
    exact ⟨v :: vs, by rw [exprs, hv, hvs]; rfl, by rw [exprs, hvu, hvus]; rfl⟩
termination_by structural es => es

theorem fields_splits (h : Splits both first second) : ∀ {fs us : List (Ident × Expr)}, fields both fs = .ok us →
    ∃ vs, fields first fs = .ok vs ∧ fields second vs = .ok us
  | [], us, hu => by
    cases hu
    exact ⟨[], rfl, rfl⟩
  | (f, e) :: fs, us, hu => by
    simp only [fields, except_bind_ok, except_pure_ok] at hu
    obtain ⟨u, he, rest, hfs, rfl⟩ := hu
    obtain ⟨v, hv, hvu⟩ := expr_splits h he
    obtain ⟨vs, hvs, hvus⟩ := fields_splits h hfs
    exact ⟨(f, v) :: vs, by rw [fields, hv, hvs]; rfl, by rw [fields, hvu, hvus]; rfl⟩
termination_by structural fs => fs

/-- **The same of a written type.** -/
theorem typeRef_splits (h : Splits both first second) : ∀ {w u : TypeRef}, typeRef both w = .ok u →
    ∃ v, typeRef first w = .ok v ∧ typeRef second v = .ok u
  | .named sp id [], u, hu => typeName_splits h hu
  | .named sp id (a :: as), u, hu => by
    simp only [typeRef, typeArgs, except_bind_ok, except_pure_ok] at hu
    obtain ⟨_, ⟨bu, ha, rest, has, rfl⟩, rfl⟩ := hu
    obtain ⟨bv, hbv, hbvu⟩ := typeArg_splits h ha
    obtain ⟨vs, hvs, hvus⟩ := typeArgs_splits h has
    exact ⟨.named sp id (bv :: vs), by rw [typeRef, typeArgs, hbv, hvs]; rfl,
      by rw [typeRef, typeArgs, hbvu, hvus]; rfl⟩
  | .array sp elem len, u, hu => by
    simp only [typeRef, except_bind_ok, except_pure_ok] at hu
    obtain ⟨eu, heu, lu, hlu, rfl⟩ := hu
    obtain ⟨ev, hev, hevu⟩ := typeRef_splits h heu
    obtain ⟨lv, hlv, hlvu⟩ := expr_splits h hlu
    exact ⟨.array sp ev lv, by rw [typeRef, hev, hlv]; rfl, by rw [typeRef, hevu, hlvu]; rfl⟩
termination_by structural w => w

theorem typeArg_splits (h : Splits both first second) : ∀ {a u : TypeArg}, typeArg both a = .ok u →
    ∃ v, typeArg first a = .ok v ∧ typeArg second v = .ok u
  | .type (.named sp id []), u, hu => bareArg_splits h hu
  | .type (.named sp id (a :: as)), u, hu => compoundArg_splits (w := .named sp id (a :: as)) trivial (typeRef_splits h) hu
  | .type (.array sp elem len), u, hu => compoundArg_splits (w := .array sp elem len) trivial (typeRef_splits h) hu
  | .value e, u, hu => by
    simp only [typeArg, except_map_ok] at hu
    obtain ⟨eu, heu, rfl⟩ := hu
    obtain ⟨ev, hev, hevu⟩ := expr_splits h heu
    exact ⟨.value ev, by rw [typeArg, hev]; rfl, by rw [typeArg, hevu]; rfl⟩
termination_by structural a => a

theorem typeArgs_splits (h : Splits both first second) : ∀ {as us : List TypeArg}, typeArgs both as = .ok us →
    ∃ vs, typeArgs first as = .ok vs ∧ typeArgs second vs = .ok us
  | [], us, hu => by
    cases hu
    exact ⟨[], rfl, rfl⟩
  | a :: as, us, hu => by
    simp only [typeArgs, except_bind_ok, except_pure_ok] at hu
    obtain ⟨u, ha, rest, has, rfl⟩ := hu
    obtain ⟨v, hv, hvu⟩ := typeArg_splits h ha
    obtain ⟨vs, hvs, hvus⟩ := typeArgs_splits h has
    exact ⟨v :: vs, by rw [typeArgs, hv, hvs]; rfl, by rw [typeArgs, hvu, hvus]; rfl⟩
termination_by structural as => as

end

/-! ## Statements -/

theorem typeRef?_splits (h : Splits both first second) : ∀ {w u : Option TypeRef}, typeRef? both w = .ok u →
    ∃ v, typeRef? first w = .ok v ∧ typeRef? second v = .ok u
  | none, u, hu => by
    cases hu
    exact ⟨none, rfl, rfl⟩
  | some w, u, hu => by
    simp only [typeRef?, except_map_ok] at hu
    obtain ⟨r, hr, rfl⟩ := hu
    obtain ⟨v, hv, hvr⟩ := typeRef_splits h hr
    exact ⟨some v, by rw [typeRef?, hv]; rfl, by rw [typeRef?, hvr]; rfl⟩

theorem expr?_splits (h : Splits both first second) : ∀ {e u : Option Expr}, expr? both e = .ok u →
    ∃ v, expr? first e = .ok v ∧ expr? second v = .ok u
  | none, u, hu => by
    cases hu
    exact ⟨none, rfl, rfl⟩
  | some e, u, hu => by
    simp only [expr?, except_map_ok] at hu
    obtain ⟨r, hr, rfl⟩ := hu
    obtain ⟨v, hv, hvr⟩ := expr_splits h hr
    exact ⟨some v, by rw [expr?, hv]; rfl, by rw [expr?, hvr]; rfl⟩

theorem recordFields_splits (h : Splits both first second) : ∀ {fs us : List RecordField},
    fs.mapM (recordField both) = .ok us →
      ∃ vs, fs.mapM (recordField first) = .ok vs ∧ vs.mapM (recordField second) = .ok us
  | [], us, hu => by
    cases hu
    exact ⟨[], rfl, rfl⟩
  | f :: fs, us, hu => by
    simp only [List.mapM_cons, recordField, except_bind_ok, except_pure_ok] at hu
    obtain ⟨_, ⟨t, ht, rfl⟩, rest, hrest, rfl⟩ := hu
    obtain ⟨v, hv, hvu⟩ := typeRef_splits h ht
    obtain ⟨vs, hvs, hvus⟩ := recordFields_splits h hrest
    refine ⟨{ f with type := v } :: vs, ?_, ?_⟩
    · rw [List.mapM_cons, recordField, hv, hvs]
      rfl
    · rw [List.mapM_cons, recordField, hvu, hvus]
      rfl

theorem valDecl_splits (h : Splits both first second) {d u : ValDecl} (hu : valDecl both d = .ok u) :
    ∃ v, valDecl first d = .ok v ∧ valDecl second v = .ok u := by
  simp only [valDecl, except_bind_ok, except_pure_ok] at hu
  obtain ⟨t, ht, e, he, rfl⟩ := hu
  obtain ⟨tv, htv, htvu⟩ := typeRef?_splits h ht
  obtain ⟨ev, hev, hevu⟩ := expr_splits h he
  exact ⟨{ d with type := tv, expr := ev }, by rw [valDecl, htv, hev]; rfl, by rw [valDecl, htvu, hevu]; rfl⟩

theorem loopVar_splits (h : Splits both first second) {x u : LoopVar} (hu : loopVar both x = .ok u) :
    ∃ v, loopVar first x = .ok v ∧ loopVar second v = .ok u := by
  simp only [loopVar, except_bind_ok, except_pure_ok] at hu
  obtain ⟨t, ht, rfl⟩ := hu
  obtain ⟨tv, htv, htvu⟩ := typeRef?_splits h ht
  exact ⟨{ x with type := tv }, by rw [loopVar, htv]; rfl, by rw [loopVar, htvu]; rfl⟩

theorem init_splits (h : Splits both first second) : ∀ {x u : Option Init}, init both x = .ok u →
    ∃ v, init first x = .ok v ∧ init second v = .ok u
  | none, u, hu => by
    cases hu
    exact ⟨none, rfl, rfl⟩
  | some (.val d), u, hu => by
    simp only [init, except_map_ok] at hu
    obtain ⟨_, ⟨r, hr, rfl⟩, rfl⟩ := hu
    obtain ⟨v, hv, hvr⟩ := valDecl_splits h hr
    exact ⟨some (.val v), by rw [init, hv]; rfl, by rw [init, hvr]; rfl⟩
  | some (.expr e), u, hu => by
    simp only [init, except_map_ok] at hu
    obtain ⟨_, ⟨r, hr, rfl⟩, rfl⟩ := hu
    obtain ⟨v, hv, hvr⟩ := expr_splits h hr
    exact ⟨some (.expr v), by rw [init, hv]; rfl, by rw [init, hvr]; rfl⟩

mutual

/-- **The same of a statement.**  What belongs to the top level is left as it is, and an expansion is reset in each step. -/
theorem stmt_splits (h : Splits both first second) : ∀ {x u : Stmt}, stmt both x = .ok u →
    ∃ v, stmt first x = .ok v ∧ stmt second v = .ok u
  | .typeAlias _ _ _ _, u, hu | .trait _ _, u, hu | .cell _, u, hu | .leave _, u, hu | .next _, u, hu => by
    cases hu
    exact ⟨_, rfl, rfl⟩
  | .record d, u, hu => by
    simp only [stmt, except_bind_ok, except_pure_ok] at hu
    obtain ⟨fs, hfs, rfl⟩ := hu
    obtain ⟨vs, hvs, hvus⟩ := recordFields_splits h hfs
    exact ⟨.record { d with fields := vs }, by rw [stmt, hvs]; rfl, by rw [stmt, hvus]; rfl⟩
  | .val d, u, hu => by
    simp only [stmt, except_map_ok] at hu
    obtain ⟨r, hr, rfl⟩ := hu
    obtain ⟨v, hv, hvr⟩ := valDecl_splits h hr
    exact ⟨.val v, by rw [stmt, hv]; rfl, by rw [stmt, hvr]; rfl⟩
  | .assign sp target e, u, hu => by
    simp only [stmt, except_bind_ok, except_pure_ok] at hu
    obtain ⟨r, hr, rfl⟩ := hu
    obtain ⟨v, hv, hvr⟩ := expr_splits h hr
    exact ⟨.assign sp target v, by rw [stmt, hv]; rfl, by rw [stmt, hvr]; rfl⟩
  | .cond sp c yes none, u, hu => by
    simp only [stmt, except_bind_ok, except_pure_ok] at hu
    obtain ⟨cu, hc, yu, hy, rfl⟩ := hu
    obtain ⟨cv, hcv, hcvu⟩ := expr_splits h hc
    obtain ⟨yv, hyv, hyvu⟩ := block_splits h hy
    exact ⟨.cond sp cv yv none, by rw [stmt, hcv, hyv]; rfl, by rw [stmt, hcvu, hyvu]; rfl⟩
  | .cond sp c yes (some no), u, hu => by
    simp only [stmt, except_bind_ok, except_pure_ok] at hu
    obtain ⟨cu, hc, yu, hy, nu, hn, rfl⟩ := hu
    obtain ⟨cv, hcv, hcvu⟩ := expr_splits h hc
    obtain ⟨yv, hyv, hyvu⟩ := block_splits h hy
    obtain ⟨nv, hnv, hnvu⟩ := block_splits h hn
    exact ⟨.cond sp cv yv (some nv), by rw [stmt, hcv, hyv, hnv]; rfl, by rw [stmt, hcvu, hyvu, hnvu]; rfl⟩
  | .loop sp c body, u, hu => by
    simp only [stmt, except_bind_ok, except_pure_ok] at hu
    obtain ⟨cu, hc, bu, hb, rfl⟩ := hu
    obtain ⟨cv, hcv, hcvu⟩ := expr_splits h hc
    obtain ⟨bv, hbv, hbvu⟩ := block_splits h hb
    exact ⟨.loop sp cv bv, by rw [stmt, hcv, hbv]; rfl, by rw [stmt, hcvu, hbvu]; rfl⟩
  | .expand x, u, hu => by
    simp only [stmt, except_map_ok] at hu
    obtain ⟨r, hr, rfl⟩ := hu
    obtain ⟨v, hv, hvr⟩ := expansion_splits h hr
    exact ⟨.expand v, by rw [stmt, hv]; rfl, by rw [stmt, hvr]; rfl⟩
  | .give sp e, u, hu => by
    simp only [stmt, except_bind_ok, except_pure_ok] at hu
    obtain ⟨r, hr, rfl⟩ := hu
    obtain ⟨v, hv, hvr⟩ := expr?_splits h hr
    exact ⟨.give sp v, by rw [stmt, hv]; rfl, by rw [stmt, hvr]; rfl⟩
  | .assert sp e, u, hu => by
    simp only [stmt, except_bind_ok, except_pure_ok] at hu
    obtain ⟨r, hr, rfl⟩ := hu
    obtain ⟨v, hv, hvr⟩ := expr_splits h hr
    exact ⟨.assert sp v, by rw [stmt, hv]; rfl, by rw [stmt, hvr]; rfl⟩
  | .expr e, u, hu => by
    simp only [stmt, except_map_ok] at hu
    obtain ⟨r, hr, rfl⟩ := hu
    obtain ⟨v, hv, hvr⟩ := expr_splits h hr
    exact ⟨.expr v, by rw [stmt, hv]; rfl, by rw [stmt, hvr]; rfl⟩
termination_by structural x => x

theorem stmts_splits (h : Splits both first second) : ∀ {xs us : List Stmt}, stmts both xs = .ok us →
    ∃ vs, stmts first xs = .ok vs ∧ stmts second vs = .ok us
  | [], us, hu => by
    cases hu
    exact ⟨[], rfl, rfl⟩
  | x :: xs, us, hu => by
    simp only [stmts, except_bind_ok, except_pure_ok] at hu
    obtain ⟨u, hx, rest, hxs, rfl⟩ := hu
    obtain ⟨v, hv, hvu⟩ := stmt_splits h hx
    obtain ⟨vs, hvs, hvus⟩ := stmts_splits h hxs
    exact ⟨v :: vs, by rw [stmts, hv, hvs]; rfl, by rw [stmts, hvu, hvus]; rfl⟩
termination_by structural xs => xs

theorem block_splits (h : Splits both first second) : ∀ {b u : Block}, block both b = .ok u →
    ∃ v, block first b = .ok v ∧ block second v = .ok u
  | ⟨sp, ss⟩, u, hu => by
    simp only [block, except_bind_ok, except_pure_ok] at hu
    obtain ⟨us, hus, rfl⟩ := hu
    obtain ⟨vs, hvs, hvus⟩ := stmts_splits h hus
    exact ⟨⟨sp, vs⟩, by rw [block, hvs]; rfl, by rw [block, hvus]; rfl⟩
termination_by structural b => b

theorem expansion_splits (h : Splits both first second) : ∀ {x u : Expansion}, expansion both x = .ok u →
    ∃ v, expansion first x = .ok v ∧ expansion second v = .ok u
  | ⟨sp, keyword, start, var, range, body, depth, state⟩, u, hu => by
    simp only [expansion, except_bind_ok, except_pure_ok] at hu
    obtain ⟨iu, hi, xu, hx, ru, hr, bu, hb, rfl⟩ := hu
    obtain ⟨iv, hiv, hivu⟩ := init_splits h hi
    obtain ⟨xv, hxv, hxvu⟩ := loopVar_splits h hx
    obtain ⟨rv, hrv, hrvu⟩ := expr_splits h hr
    obtain ⟨bv, hbv, hbvu⟩ := block_splits h hb
    exact ⟨⟨sp, keyword, iv, xv, rv, bv, depth, .pending⟩, by rw [expansion, hiv, hxv, hrv, hbv]; rfl,
      by rw [expansion, hivu, hxvu, hrvu, hbvu]; rfl⟩
termination_by structural x => x

end

/-! ## Two levels -/

section

variable {ns ms : List String} {as bs : List TemplateArg}

/-- Two levels with no name in common can be put in one after the other, the inner or the outer one first. -/
theorem splits_of_disjoint (hnames : ∀ n ∈ ns, n ∉ ms) (hwords : ∀ t, .type t ∈ as → ∀ m ∈ t.words, m ∉ ms)
    (k l j : Nat) {both : ArgLevels}
    (hboth : both = ((ArgLevels.retaining k).bind ns as).bind ms bs ∨
      both = ((ArgLevels.retaining k).bind ms bs).bind ns as) :
    Splits both ((ArgLevels.retaining l).bind ns as) ((ArgLevels.retaining j).bind ms bs) where
  early := fun {n a} ha => by
    rw [ArgLevels.lookup?_retaining_bind] at ha
    have hother : (ms.idxOf? n).bind (bs[·]?) = none := level_none (hnames n (level_names ha).1)
    refine ⟨?_, by rw [ArgLevels.lookup?_retaining_bind, hother]⟩
    obtain rfl | rfl := hboth <;>
      rw [ArgLevels.lookup?_bind, ArgLevels.lookup?_retaining_bind, ha, hother] <;> rfl
  late := fun {n} hn => by
    rw [ArgLevels.lookup?_retaining_bind] at hn
    obtain rfl | rfl := hboth <;>
      rw [ArgLevels.lookup?_bind, ArgLevels.lookup?_retaining_bind, ArgLevels.lookup?_retaining_bind, hn]
    · exact Option.or_none
    · exact Option.none_or
  apart := fun {n t} ha m hm => by
    rw [ArgLevels.lookup?_retaining_bind] at ha ⊢
    exact level_none (hwords t (level_names ha).2 m hm)

/-- **Two levels at once are one level after the other.**  The names of the levels are apart, and no type argument of the
first one is written with a name of the second.  Then whatever both levels together make of an expression, of a written
type or of a statement, the first one makes something of it from which the second one makes that.  It does not matter
which of the two is the outer one, nor how many levels there are further out that are left alone. -/
theorem substitute_stepwise (hnames : ∀ n ∈ ns, n ∉ ms) (hwords : ∀ t, .type t ∈ as → ∀ m ∈ t.words, m ∉ ms)
    {k l j : Nat} {both : ArgLevels}
    (hboth : both = ((ArgLevels.retaining k).bind ns as).bind ms bs ∨
      both = ((ArgLevels.retaining k).bind ms bs).bind ns as) :
    (∀ {e u : Expr}, expr both e = .ok u →
        ∃ v, expr ((ArgLevels.retaining l).bind ns as) e = .ok v ∧ expr ((ArgLevels.retaining j).bind ms bs) v = .ok u) ∧
      (∀ {w u : TypeRef}, typeRef both w = .ok u →
        ∃ v, typeRef ((ArgLevels.retaining l).bind ns as) w = .ok v ∧
          typeRef ((ArgLevels.retaining j).bind ms bs) v = .ok u) ∧
      ∀ {x u : Stmt}, stmt both x = .ok u →
        ∃ v, stmt ((ArgLevels.retaining l).bind ns as) x = .ok v ∧ stmt ((ArgLevels.retaining j).bind ms bs) v = .ok u :=
  have h := splits_of_disjoint hnames hwords k l j hboth
  ⟨expr_splits h, typeRef_splits h, stmt_splits h⟩

/-- `(10, (20, 30).M).N`, one selection inside of another. -/
def twofold : Expr :=
  .listSelect nowhere (.list nowhere [.int nowhere 10, .listSelect nowhere
    (.list nowhere [.int nowhere 20, .int nowhere 30]) (.name nowhere (bareName "M"))]) (.name nowhere (bareName "N"))

/-- The outer selection collapses in the first step, and leaves the inner one for the second. -/
theorem substitute_stepwise_twofold :
    ∃ v, expr ((ArgLevels.retaining 0).bind ["T", "N"] [.type (.record "P"), .value 1]) twofold = .ok v ∧
      expr ((ArgLevels.retaining 2).bind ["M"] [.value 1]) v = .ok (.int nowhere 30) :=
  (substitute_stepwise (by decide) (by simp [Ty.words]) (k := 1) (.inr rfl)).1 rfl

end

end Subst

end Unroll
