import Unroll.Proofs.Check.OneMeaning
import Unroll.Proofs.Check.Remembered
import Unroll.Proofs.Check.WellTyped
/-!
# Checked again

What an elaborated expression consists of has been decided: its calls name cells that are known, and what was put off is
put off again wherever the same is unknown.  So it stays as it is, with its type, when it is checked again later, inside
of scopes in which its names mean what they meant; and nothing is filled in when it is substituted into, unless one of its
names is bound.  A check of it might fail, where there is less room; but it cannot pass with anything else.
-/
namespace Unroll

/-! ## The names of a tree -/

mutual

/-- **All names that are looked up have the property**: those of values and types, and those in template arguments. -/
def Expr.Names (P : String → Prop) : Expr → Prop
  | .int _ _ | .char _ _ | .bool _ _ | .text _ _ => True
  | .name _ id => P id.name
  | .list _ items | .array _ items => Expr.AllNames P items
  | .record _ type fs => P type.name ∧ Expr.FieldNames P fs
  | .unary _ _ e | .member _ e _ => e.Names P
  | .binary _ l _ r => l.Names P ∧ r.Names P
  | .index _ base i | .listSelect _ base i | .memberSelect _ base _ i => base.Names P ∧ i.Names P
  | .call _ _ generic args => (∀ n ∈ TypeArg.allFree [] generic, P n) ∧ Expr.AllNames P args

def Expr.AllNames (P : String → Prop) : List Expr → Prop
  | [] => True
  | e :: es => e.Names P ∧ Expr.AllNames P es

def Expr.FieldNames (P : String → Prop) : List (Ident × Expr) → Prop
  | [] => True
  | (_, e) :: fs => e.Names P ∧ Expr.FieldNames P fs

end

variable {P : String → Prop}

mutual

theorem Expr.Names.constants : ∀ {e : Expr}, e.Names P → ∀ n ∈ e.constants, P n
  | .name _ id, h => by
    intro n hn
    exact List.mem_singleton.1 hn ▸ h
  | .unary _ _ e, h => Expr.Names.constants (e := e) h
  | .listSelect _ e _, h => Expr.Names.constants (e := e) h.1
  | .binary _ l _ r, h => by
    intro n hn
    obtain hn | hn := List.mem_append.1 hn
    · exact Expr.Names.constants h.1 n hn
    · exact Expr.Names.constants h.2 n hn
  | .list _ items, h => Expr.AllNames.constants (show Expr.AllNames P items from h)
  | .int _ _, _ | .char _ _, _ | .bool _ _, _ | .text _ _, _ | .array _ _, _ | .record _ _ _, _ | .member _ _ _, _
  | .index _ _ _, _ | .call _ _ _ _, _ | .memberSelect _ _ _ _, _ => fun _ hn => absurd hn List.not_mem_nil

theorem Expr.AllNames.constants : ∀ {es : List Expr}, Expr.AllNames P es → ∀ n ∈ Expr.allConstants es, P n
  | [], _ => fun _ hn => absurd hn List.not_mem_nil
  | e :: es, h => by
    intro n hn
    obtain hn | hn := List.mem_append.1 hn
    · exact Expr.Names.constants h.1 n hn
    · exact Expr.AllNames.constants h.2 n hn

end

theorem Expr.Names.freeConstants {e : Expr} (h : e.Names P) : ∀ n ∈ e.freeConstants [], P n :=
  fun n hn => h.constants n (List.mem_of_mem_filter hn)

namespace Check

open CheckM Outcome Checker

/-! ## Nothing to fill in -/

section

variable {ls : ArgLevels} {d : Deeper} {s s' : Checker}

/-- None of the names is bound. -/
def Spares (P : String → Prop) (ls : ArgLevels) : Prop := ∀ n, P n → ls.lookup? n = none

/-- A constant selects nothing, so that nothing collapses in it. -/
theorem constant_unfilled {env : String → Option Const} (hls : Spares P ls) : ∀ {e : Expr} {c : Const},
    (∀ n ∈ e.constants, P n) → Const.eval env e = .ok c → Subst.expr ls e = .ok e
  | .int _ _, _, _, _ | .bool _ _, _, _, _ => rfl
  | .name _ id, _, he, _ => by
    rw [Subst.expr, Subst.name, hls _ (he _ (List.mem_singleton_self _))]
  | .unary _ _ e, _, he, h => by
    simp only [Const.eval, except_bind_ok] at h
    obtain ⟨c, hc, -⟩ := h
    rw [Subst.expr, constant_unfilled hls (e := e) he hc]
    rfl
  | .binary _ l _ r, _, he, h => by
    simp only [Const.eval, except_bind_ok] at h
    obtain ⟨a, ha, b, hb, -⟩ := h
    have hl := constant_unfilled hls (e := l) (fun n hn => he n (List.mem_append_left _ hn)) ha
    have hr := constant_unfilled hls (e := r) (fun n hn => he n (List.mem_append_right _ hn)) hb
    rw [Subst.expr, hl, hr]
    rfl
  | .char _ _, _, _, h | .text _ _, _, _, h | .list _ _, _, _, h | .array _ _, _, _, h | .record _ _ _, _, _, h
  | .member _ _ _, _, _, h | .index _ _ _, _, _, h | .call _ _ _ _, _, _, h | .listSelect _ _ _, _, _, h
  | .memberSelect _ _ _ _, _, _, h => by cases h

theorem freeConstants_nil {e : Expr} : e.freeConstants [] = e.constants := by
  simp [Expr.freeConstants]

mutual

/-- A written type that means something has only constants in it. -/
theorem typeRef_unfilled (hls : Spares P ls) (hd : d.Orderly) : ∀ {w : TypeRef} {t : Ty} {s s' : Checker},
    (∀ n ∈ w.free [], P n) → typeRef d w s = .ok t s' → Subst.typeRef ls w = .ok w
  | .array _ elem len, t, s, s', hw, h => by
    simp only [typeRef, bind_ok] at h
    obtain ⟨_, u, he, hl⟩ := h
    simp only [TypeRef.free, List.mem_append, freeConstants_nil] at hw
    have helem := typeRef_unfilled hls hd (fun n hn => hw n (.inl hn)) he
    have hlen : Subst.expr ls len = .ok len := by
      obtain ⟨-, ⟨_, -, hc, -⟩ | ⟨hc, -⟩⟩ := length_ok hl
      · exact constant_unfilled hls (fun n hn => hw n (.inr hn)) hc
      · exact constant_unfilled hls (fun n hn => hw n (.inr hn)) hc
    rw [Subst.typeRef, helem, hlen]
    rfl
  | .named _ id [], t, s, s', hw, h => by
    have hid : ls.lookup? id.name = none := hls _ (hw _ (by simp [TypeRef.free]))
    rw [Subst.typeRef, Subst.typeName, hid]
  | .named _ id (a :: as), t, s, s', hw, h => by
    simp only [TypeRef.free, List.mem_cons] at hw
    obtain ⟨m, -, ⟨_, -, hnil, -⟩ | ⟨ps, u, rs, -, hlen, has, -⟩⟩ := typeRef_named_ok h
    · cases hnil
    · have hargs := argsFor_unfilled hls hd (fun n hn => hw n (.inr hn)) (Nat.le_of_eq hlen) has
      rw [Subst.typeRef, hargs]
      rfl

theorem argsFor_unfilled (hls : Spares P ls) (hd : d.Orderly) : ∀ {as : List TypeArg} {ps : List ParamDecl}
    {rs : List (Option TemplateArg)} {s s' : Checker}, (∀ n ∈ TypeArg.allFree [] as, P n) → as.length ≤ ps.length →
      argsFor d ps as s = .ok rs s' → Subst.typeArgs ls as = .ok as
  | [], ps, rs, s, s', _, _, _ => rfl
  | a :: as, [], rs, s, s', _, hlen, _ => absurd hlen (by simp)
  | a :: as, p :: ps, rs, s, s', hw, hlen, h => by
    simp only [argsFor, bind_ok, pure_ok] at h
    obtain ⟨x, u, ha, xs, _, hxs, -, -⟩ := h
    simp only [TypeArg.allFree, List.mem_append] at hw
    have harg := argFor_unfilled hls hd (fun n hn => hw n (.inl hn)) ha
    have hargs := argsFor_unfilled hls hd (fun n hn => hw n (.inr hn)) (Nat.le_of_succ_le_succ hlen) hxs
    rw [Subst.typeArgs, harg, hargs]
    rfl

theorem argFor_unfilled (hls : Spares P ls) (hd : d.Orderly) : ∀ {a : TypeArg} {p : ParamDecl} {r : Option TemplateArg}
    {s s' : Checker}, (∀ n ∈ a.free [], P n) → argFor d p a s = .ok r s' → Subst.typeArg ls a = .ok a
  | .value e, ⟨_, .type _⟩, r, s, s', hw, h => by
    simp only [argFor] at h
    exact absurd h fail_ok
  | .value e, ⟨_, .const⟩, r, s, s', hw, h => by
    simp only [argFor] at h
    simp only [TypeArg.free, freeConstants_nil] at hw
    have he : Subst.expr ls e = .ok e := by
      obtain ⟨-, ⟨_, hc, -⟩ | ⟨hc, -⟩⟩ := valueArg_ok h
      · exact constant_unfilled hls hw hc
      · exact constant_unfilled hls hw hc
    rw [Subst.typeArg, he]
    rfl
  | .type (.named sp id []), p, r, s, s', hw, h => by
    have hid : ls.lookup? id.name = none := hls _ (hw _ (by simp [TypeArg.free, TypeRef.free]))
    simp only [Subst.typeArg, Subst.typeName, hid]
    rfl
  | .type (.named sp id (a :: as)), ⟨_, .type _⟩, r, s, s', hw, h => by
    simp only [argFor, bind_ok] at h
    obtain ⟨t, u, ht, -⟩ := h
    have hty := typeRef_unfilled hls hd (w := .named sp id (a :: as)) hw ht
    rw [Subst.typeArg, hty]
    · rfl
    · simp
  | .type (.array sp elem len), ⟨_, .type _⟩, r, s, s', hw, h => by
    simp only [argFor, bind_ok] at h
    obtain ⟨t, u, ht, -⟩ := h
    have hty := typeRef_unfilled hls hd (w := .array sp elem len) hw ht
    rw [Subst.typeArg, hty]
    · rfl
    · simp
  | .type (.named sp id (a :: as)), ⟨_, .const⟩, r, s, s', hw, h | .type (.array sp elem len), ⟨_, .const⟩, r, s, s', hw, h => by
    simp only [argFor] at h
    exact absurd h fail_ok

end

end

/-! ## States that follow -/

/-- **Names that mean something for good**: what they lead to is among them, those that are made up for records are known,
and no template has an angle bracket in its name. -/
structure Anchored (P : String → Prop) (s : Checker) : Prop where
  fresh : s.Fresh
  closed : ClosedNames P s
  known : ∀ {n}, P n → '\'' ∈ n.toList → s.records.contains n = true
  templates : ∀ {n g}, s.generics.find? n = some g → '<' ∉ n.toList

/-- The second state is what a check of an expression has made of the first. -/
structure Ahead (s t : Checker) : Prop where
  remembers : Remembers s t
  place : t.place = s.place
  frames : t.frames = s.frames

/-- **The second state is a later one, at which the names mean the same.**  It may have less room. -/
structure After (P : String → Prop) (s t : Checker) : Prop where
  remembers : Remembers s t
  values : ∀ n, P n → t.place.val? n = s.place.val? n
  alike : Alike P t s
  room : Roomier t s

variable {n m : Nat} {s t u v w : Checker}

theorem Roomier.of_frames (h : t.frames = s.frames) : Roomier s t := by
  unfold Roomier
  simp only [h, Nat.le_refl]

theorem Ahead.refl (s : Checker) : Ahead s s := ⟨.refl s, rfl, rfl⟩

theorem Ahead.trans (h : Ahead s t) (h' : Ahead t u) : Ahead s u :=
  ⟨h.remembers.trans h'.remembers, h'.place.trans h.place, h'.frames.trans h.frames⟩

theorem Ahead.of_always {α : Type} {x : CheckM α} {a : α} (hr : Always (Keeps Eq Remembers) x)
    (hp : Always (Keeps Eq PutBack) x) (h : x s = .ok a t) : Ahead s t :=
  ⟨(hr.ok h).rest, (hr.ok h).place.symm, (hp.ok h).rest.frames⟩

theorem expr_ahead {e : Expr} {r : Typed} (h : expr (levels n) e s = .ok r t) : Ahead s t :=
  .of_always (expr_keeps (stmtAt_keeps n) e) (expr_keeps (stmtAt_keeps n) e) h

theorem exprs_ahead {es : List Expr} {r : List Expr × List Ty} (h : exprs (levels n) es s = .ok r t) : Ahead s t :=
  .of_always (exprs_keeps (stmtAt_keeps n) es) (exprs_keeps (stmtAt_keeps n) es) h

theorem elements_ahead {es : List Expr} {sofar : Option Ty} {r : List Expr × Ty}
    (h : elements (levels n) sofar es s = .ok r t) : Ahead s t :=
  .of_always (elements_keeps (stmtAt_keeps n) es sofar) (elements_keeps (stmtAt_keeps n) es sofar) h

theorem fields_ahead {type : Ty} {record : Option RecordInfo} {seen : List String} {fs r : List (Ident × Expr)}
    (h : fields (levels n) type record seen fs s = .ok r t) : Ahead s t :=
  .of_always (fields_keeps (stmtAt_keeps n) fs type record seen) (fields_keeps (stmtAt_keeps n) fs type record seen) h

theorem instantiateCell_ahead {id : Ident} {args : List TemplateArg} {r : String × CellSig}
    (h : instantiateCell (levels n) id args s = .ok r t) : Ahead s t :=
  .of_always (instantiateCell_keeps (stmtAt_keeps n) id args) (instantiateCell_keeps (stmtAt_keeps n) id args) h

/-- Where the made-up names are known, the scopes alone tell what a name means. -/
theorem recordName?_known {k : String} (hk : '\'' ∈ k.toList → s.records.contains k = true) :
    s.recordName? k =
      (s.place.types.findSome? (Table.find? · k)).or (if k.toList.contains '\'' then some k else none) := by
  unfold Checker.recordName?
  cases s.place.types.findSome? (Table.find? · k) with
  | some c => rfl
  | none =>
    by_cases hq : '\'' ∈ k.toList
    · simp [hq, hk hq]
    · simp [hq]

theorem Anchored.moved (h : Anchored P s) (hr : Remembers s t) (hp : ∀ k, P k → t.recordName? k = s.recordName? k) :
    Anchored P t where
  fresh := hr.fresh h.fresh
  closed :=
    ⟨h.closed.builtin, fun {k c} hk hc => h.closed.records hk ((hp k hk).symm.trans hc),
      fun hk ha => h.closed.plain hk (hr.aliases ▸ ha), fun hk ha => h.closed.generic hk (hr.aliases ▸ ha)⟩
  known := fun hk hq => hr.recorded (h.known hk hq)
  templates := fun hg => by
    obtain ⟨_, hg', -⟩ := hr.symm_template hg
    exact h.templates hg'

theorem Anchored.recordName? (h : Anchored P s) (hr : Remembers s t)
    (ht : ∀ k, t.place.types.findSome? (Table.find? · k) = s.place.types.findSome? (Table.find? · k)) {k : String} (hk : P k) :
    t.recordName? k = s.recordName? k := by
  rw [recordName?_known (h.known hk), recordName?_known fun hq => hr.recorded (h.known hk hq), ht]

namespace After

theorem refl (P : String → Prop) (s : Checker) : After P s s :=
  ⟨.refl s, fun _ _ => rfl, ⟨rfl, rfl, fun _ _ => rfl, fun _ _ => rfl⟩, Nat.le_refl _⟩

theorem trans (h : After P s t) (h' : After P t u) : After P s u where
  remembers := h.remembers.trans h'.remembers
  values := fun k hk => (h'.values k hk).trans (h.values k hk)
  alike :=
    ⟨h.alike.aliases.trans h'.alike.aliases, h.alike.traits.trans h'.alike.traits,
      fun k hk => (h.alike.params k hk).trans (h'.alike.params k hk),
      fun k hk => (h.alike.records k hk).trans (h'.alike.records k hk)⟩
  room := by
    have := h.room
    have := h'.room
    unfold Roomier at *
    omega

/-- A state at which the same values, parameters and records are found. -/
theorem standing (h : Anchored P s) (hr : Remembers s t) (hv : ∀ k, P k → t.place.val? k = s.place.val? k)
    (hp : ∀ k, P k → t.place.param? k = s.place.param? k)
    (ht : ∀ k, t.place.types.findSome? (Table.find? · k) = s.place.types.findSome? (Table.find? · k))
    (hroom : Roomier t s) : After P s t where
  remembers := hr
  values := hv
  alike :=
    ⟨hr.aliases.symm, hr.traits.symm, fun k hk => (hp k hk).symm, fun _ hk => (h.recordName? hr ht hk).symm⟩
  room := hroom

theorem of_ahead (h : Anchored P s) (hst : Ahead s t) : After P s t := by
  refine .standing h hst.remembers (fun _ _ => ?_) (fun _ _ => ?_) (fun _ => ?_) (.of_frames hst.frames.symm)
  · rw [hst.place]
  · rw [hst.place]
  · rw [hst.place]

theorem anchored (h : After P s t) (hs : Anchored P s) : Anchored P t :=
  hs.moved h.remembers fun k hk => (h.alike.records k hk).symm

end After

theorem Anchored.ahead (h : Anchored P s) (hst : Ahead s t) : Anchored P t := (After.of_ahead h hst).anchored h

namespace After

/-- A later check goes on from a later state. -/
theorem ahead (h : After P s t) (hs : Anchored P s) (htu : Ahead t u) : After P s u :=
  h.trans (.of_ahead (h.anchored hs) htu)

/-- What a written type means later it meant before. -/
theorem typeRef (h : After P s t) (hs : Anchored P s) (hmn : m ≤ n) {x : TypeRef} {a b : Ty} {s' t' : Checker}
    (hx : ∀ k ∈ x.free [], P k) (hb : Check.typeRef (levels n) x s = .ok b s')
    (ha : Check.typeRef (levels m) x t = .ok a t') : a = b := by
  have hback := (typeRef_alike (e := levels n) (levels_orderly m) (typeRefAt_reads_alike hmn) h.alike
    (h.anchored hs).closed h.room hx ha).1
  rw [hb] at hback
  cases hback
  rfl

theorem templateArgs (h : After P s t) (hs : Anchored P s) (hmn : m ≤ n) {o : String} {ps : ParamLevel}
    {as : List TypeArg} {a b : Option (List TemplateArg)} {s' t' : Checker} (hx : ∀ k ∈ TypeArg.allFree [] as, P k)
    (hb : Check.templateArgs (levels n) o ps as s = .ok b s') (ha : Check.templateArgs (levels m) o ps as t = .ok a t') :
    a = b := by
  simp only [Check.templateArgs, bind_ok, pure_ok] at ha hb
  obtain ⟨_, _, hcount, ra, _, ha, rfl, rfl⟩ := ha
  obtain ⟨_, _, hcount', rb, _, hb, rfl, rfl⟩ := hb
  obtain ⟨rfl, -⟩ := checkArgCount_ok hcount
  obtain ⟨rfl, -⟩ := checkArgCount_ok hcount'
  have hback := (argsFor_alike (e := levels n) (levels_orderly m) (typeRefAt_reads_alike hmn) h.alike
    (h.anchored hs).closed h.room hx ha).1
  rw [hb] at hback
  cases hback
  rfl

theorem evalIndex (h : After P s t) {e : Expr} (he : e.Names P) :
    Const.evalIndex t.place.constant? e = Const.evalIndex s.place.constant? e := by
  unfold Const.evalIndex
  rw [h.alike.eval he.freeConstants]

end After

/-! ## Checked trees -/

/-- **A tree that has been checked for good**, with its type: nothing is filled in in it, and every later check that
passes gives it back. -/
structure Fixed (P : String → Prop) (m : Nat) (s : Checker) (e : Expr) (t : Ty) : Prop where
  filled : ∀ ls, Spares P ls → Subst.expr ls e = .ok e
  again : ∀ {v w r}, After P s v → expr (levels m) e v = .ok r w → r = (e, t)
  whole : ∀ sp items, e ≠ .list sp items

theorem Fixed.later {e : Expr} {t : Ty} (h : Fixed P m s e t) (hst : After P s u) : Fixed P m u e t :=
  ⟨h.filled, fun huv he => h.again (hst.trans huv) he, h.whole⟩

/-- A list of such trees. -/
abbrev AllFixed (P : String → Prop) (m : Nat) (s : Checker) (es : List Expr) (ts : List Ty) : Prop :=
  List.Forall₂ (Fixed P m s) es ts

theorem AllFixed.later {es : List Expr} {ts : List Ty} (h : AllFixed P m s es ts) (hst : After P s u) :
    AllFixed P m u es ts :=
  h.imp fun _ _ hf => hf.later hst

theorem AllFixed.filled {ls : ArgLevels} (hls : Spares P ls) : ∀ {es : List Expr} {ts : List Ty}, AllFixed P m s es ts →
    Subst.exprs ls es = .ok es
  | [], _, _ => rfl
  | e :: es, _, .cons he hes => by
    rw [Subst.exprs, he.filled ls hls, AllFixed.filled hls hes]
    rfl

theorem AllFixed.again : ∀ {es : List Expr} {ts : List Ty} {v w : Checker} {r : List Expr × List Ty},
    AllFixed P m s es ts → Anchored P s → After P s v → exprs (levels m) es v = .ok r w → r = (es, ts)
  | [], _, v, w, r, .nil, _, _, h => by
    simp only [exprs, pure_ok] at h
    exact h.1.symm
  | e :: es, _, v, w, r, .cons he hes, hs, hv, h => by
    simp only [exprs, bind_ok, pure_ok] at h
    obtain ⟨⟨e', t'⟩, v', he', ⟨es', ts'⟩, _, hes', rfl, rfl⟩ := h
    cases he.again hv he'
    cases AllFixed.again hes hs (hv.ahead hs (expr_ahead he')) hes'
    rfl

/-! ## Element by element -/

/-- The type of the elements so far, after one more of the type. -/
def join : Option Ty → Ty → Ty
  | none, t => t
  | some first, t => if first.isUnknown then t else first

/-- The type of all elements. -/
def joined : Option Ty → List Ty → Ty
  | sofar, [] => sofar.getD .dependent
  | sofar, t :: ts => joined (some (join sofar t)) ts

theorem elementType_joins {sofar : Option Ty} {t r : Ty} {sp : Span} (h : elementType sofar t sp s = .ok r u) :
    s = u ∧ r = join sofar t := by
  obtain ⟨rfl, ⟨rfl, rfl⟩ | ⟨first, rfl, ⟨hu, rfl⟩ | ⟨hk, -, rfl⟩⟩⟩ := elementType_ok h
  · exact ⟨rfl, rfl⟩
  · exact ⟨rfl, by simp [join, hu]⟩
  · exact ⟨rfl, by simp [join, hk]⟩

theorem AllFixed.elements : ∀ {es : List Expr} {ts : List Ty} {sofar : Option Ty} {v w : Checker} {r : List Expr × Ty},
    AllFixed P m s es ts → Anchored P s → After P s v → elements (levels m) sofar es v = .ok r w →
      r = (es, joined sofar ts)
  | [], _, sofar, v, w, r, .nil, _, _, h => by
    simp only [Check.elements, pure_ok] at h
    exact h.1.symm
  | e :: es, _, sofar, v, w, r, .cons he hes, hs, hv, h => by
    simp only [Check.elements, bind_ok, pure_ok] at h
    obtain ⟨⟨e', t'⟩, v', he', elem, _, hty, ⟨es', all⟩, _, hes', rfl, rfl⟩ := h
    cases he.again hv he'
    obtain ⟨rfl, rfl⟩ := elementType_joins hty
    cases AllFixed.elements hes hs (hv.ahead hs (expr_ahead he')) hes'
    rfl

/-! ## Field by field -/

theorem AllFixed.filled_fields {ls : ArgLevels} (hls : Spares P ls) : ∀ {fs : List (Ident × Expr)} {ts : List Ty},
    AllFixed P m s (fs.map (·.2)) ts → Subst.fields ls fs = .ok fs
  | [], _, _ => rfl
  | (f, e) :: fs, _, .cons he hes => by
    rw [Subst.fields, he.filled ls hls, AllFixed.filled_fields hls hes]
    rfl

theorem AllFixed.fields {type : Ty} {record : Option RecordInfo} : ∀ {fs : List (Ident × Expr)} {ts : List Ty}
    {seen : List String} {v w : Checker} {r : List (Ident × Expr)}, AllFixed P m s (fs.map (·.2)) ts → Anchored P s →
      After P s v → fields (levels m) type record seen fs v = .ok r w → r = fs
  | [], _, seen, v, w, r, .nil, _, _, h => by
    simp only [Check.fields, pure_ok] at h
    exact h.1.symm
  | (f, e) :: fs, _, seen, v, w, r, .cons he hes, hs, hv, h => by
    obtain ⟨info, e', t', v', rest, -, he', -, hrest, rfl⟩ := fields_cons_ok h
    cases he.again hv he'
    rw [AllFixed.fields hes hs (hv.ahead hs (expr_ahead he')) hrest]

/-! ## One level of a tree -/

section

variable {e b i : Expr} {r : Typed} {ty bt it : Ty} {sp : Span} {s' : Checker}

theorem literal_fixed {e : Expr} {t : Ty} (hf : ∀ ls, Subst.expr ls e = .ok e)
    (ha : ∀ (d : Deeper) v, expr d e v = .ok (e, t) v) (hl : ∀ sp items, e ≠ .list sp items) : Fixed P m s e t where
  filled := fun ls _ => hf ls
  again := fun {v w r} _ h => by
    rw [ha] at h
    cases h
    rfl
  whole := hl

theorem nameExpr_fixed {id : Ident} (hn : P id.name) (h : nameExpr sp id s = .ok r s') :
    Fixed P m s' r.1 r.2 := by
  obtain ⟨rfl, he, htype⟩ := nameExpr_ok h
  rw [he]
  refine ⟨fun ls hls => by rw [Subst.expr, Subst.name, hls _ hn], fun {v w q} hv hq => ?_, by simp⟩
  simp only [expr] at hq
  obtain ⟨-, hq, htype'⟩ := nameExpr_ok hq
  refine Prod.ext hq ?_
  rw [hv.values _ hn, ← hv.alike.params _ hn] at htype'
  obtain ⟨x, hx, ht⟩ | ⟨hx, -, ht⟩ := htype
  · obtain ⟨y, hy, ht'⟩ | ⟨hy, -⟩ := htype'
    · rw [hx] at hy
      cases hy
      exact ht'.trans ht.symm
    · rw [hx] at hy
      cases hy
  · obtain ⟨y, hy, -⟩ | ⟨-, -, ht'⟩ := htype'
    · rw [hx] at hy
      cases hy
    · exact ht'.trans ht.symm

theorem unaryType_agrees {op : UnaryOp} {q : Ty} {v w : Checker} {sp' : Span} (h : unaryType sp op ty s = .ok bt s')
    (h' : unaryType sp' op ty v = .ok q w) : q = bt := by
  obtain ⟨-, ⟨hu, rfl⟩ | ⟨hk, hop⟩⟩ := unaryType_ok h
  · obtain ⟨-, ⟨-, rfl⟩ | ⟨hk, -⟩⟩ := unaryType_ok h'
    · rfl
    · rw [hu] at hk
      cases hk
  · obtain ⟨-, ⟨hu, -⟩ | ⟨-, hop'⟩⟩ := unaryType_ok h'
    · rw [hk] at hu
      cases hu
    · grind

theorem unary_fixed {op : UnaryOp} (he : Fixed P m s e ty) (h : unaryType sp op ty s = .ok bt s') :
    Fixed P m s' (.unary sp op e) bt := by
  obtain ⟨rfl, -⟩ := unaryType_ok h
  refine ⟨fun ls hls => by rw [Subst.expr, he.filled ls hls]; rfl, fun {v w q} hv hq => ?_, by simp⟩
  simp only [expr, bind_ok, pure_ok] at hq
  obtain ⟨⟨e', t'⟩, v', he', q', _, hty, rfl, rfl⟩ := hq
  cases he.again hv he'
  rw [unaryType_agrees h hty]

theorem binaryType_agrees {op : BinOp} {q : Ty} {v w : Checker} {sp' : Span} (h : binaryType sp op bt it s = .ok ty s')
    (h' : binaryType sp' op bt it v = .ok q w) : q = ty := by
  obtain ⟨-, ⟨hu, rfl⟩ | ⟨hl, hr, hk⟩⟩ := binaryType_ok h
  · obtain ⟨-, ⟨-, rfl⟩ | ⟨hl, hr, -⟩⟩ := binaryType_ok h'
    · rfl
    · simp [hl, hr] at hu
  · obtain ⟨-, ⟨hu, -⟩ | ⟨-, -, hk'⟩⟩ := binaryType_ok h'
    · simp [hl, hr] at hu
    · exact Option.some.inj (hk'.symm.trans hk)

theorem binary_fixed {op : BinOp} (hs : Anchored P s) (hb : Fixed P m s b bt) (hi : Fixed P m s i it)
    (h : binaryType sp op bt it s = .ok ty s') : Fixed P m s' (.binary sp b op i) ty := by
  obtain ⟨rfl, -⟩ := binaryType_ok h
  refine ⟨fun ls hls => by rw [Subst.expr, hb.filled ls hls, hi.filled ls hls]; rfl, fun {v w q} hv hq => ?_, by simp⟩
  simp only [expr, bind_ok, pure_ok] at hq
  obtain ⟨⟨b', _⟩, v', hb', ⟨i', _⟩, v'', hi', q', _, hty, rfl, rfl⟩ := hq
  cases hb.again hv hb'
  cases hi.again (hv.ahead hs (expr_ahead hb')) hi'
  rw [binaryType_agrees h hty]

/-- A record that is known stays as it is. -/
theorem memberType_agrees {f : Ident} {q : Ty} {v w : Checker} (hs : s.Fresh) (hv : Remembers s v)
    (h : memberType b bt f s = .ok ty s') (h' : memberType b bt f v = .ok q w) : q = ty := by
  obtain ⟨-, ⟨hu, rfl⟩ | ⟨hk, k, info, fd, rfl, hr, hf, -, rfl⟩⟩ := memberType_ok h
  · obtain ⟨-, ⟨-, rfl⟩ | ⟨hk, -⟩⟩ := memberType_ok h'
    · rfl
    · rw [hu] at hk
      cases hk
  · obtain ⟨-, ⟨hu, -⟩ | ⟨-, k', info', fd', hk', hr', hf', -, rfl⟩⟩ := memberType_ok h'
    · rw [hk] at hu
      cases hu
    · cases hk'
      rw [hv.records hs hr] at hr'
      cases hr'
      rw [hf] at hf'
      cases hf'
      rfl

theorem memberAccess_fixed {f : Ident} (hs : Anchored P s) (hb : Fixed P m s b bt)
    (h : memberAccess b bt f s = .ok r s') : Fixed P m s' r.1 r.2 := by
  obtain ⟨ty, hty, rfl⟩ := memberAccess_ok h
  obtain ⟨rfl, -⟩ := memberType_ok hty
  refine ⟨fun ls hls => by rw [Subst.expr, hb.filled ls hls]; rfl, fun {v w q} hv hq => ?_, by simp⟩
  simp only [expr, bind_ok] at hq
  obtain ⟨⟨b', _⟩, v', hb', hq⟩ := hq
  cases hb.again hv hb'
  obtain ⟨ty', hty', rfl⟩ := memberAccess_ok hq
  rw [memberType_agrees hs.fresh (hv.ahead hs (expr_ahead hb')).remembers hty hty']

theorem elementAccess_agrees {b i q : Typed} {v w : Checker} {bs is bs' is' : Span}
    (h : elementAccess sp bs is b i s = .ok r s') (h' : elementAccess sp bs' is' b i v = .ok q w) : q = r := by
  obtain ⟨-, -, hr, htype⟩ := elementAccess_ok h
  obtain ⟨-, -, hq, htype'⟩ := elementAccess_ok h'
  refine Prod.ext (hq.trans hr.symm) ?_
  obtain ⟨elem, len, hb, he, -⟩ | ⟨hne, -, he⟩ := htype
  · obtain ⟨elem', len', hb', he', -⟩ | ⟨hne, -⟩ := htype'
    · rw [hb] at hb'
      cases hb'
      exact he'.trans he.symm
    · exact absurd hb (hne elem len)
  · obtain ⟨elem', len', hb', -⟩ | ⟨-, -, he'⟩ := htype'
    · exact absurd hb' (hne elem' len')
    · exact he'.trans he.symm

theorem elementAccess_fixed {bs is : Span} (hs : Anchored P s) (hb : Fixed P m s b bt) (hi : Fixed P m s i it)
    (h : elementAccess sp bs is (b, bt) (i, it) s = .ok r s') : Fixed P m s' r.1 r.2 := by
  obtain ⟨rfl, -, hr, -⟩ := elementAccess_ok h
  refine ⟨fun ls hls => ?_, fun {v w q} hv hq => ?_, by simp [hr]⟩
  · rw [hr, Subst.expr, hb.filled ls hls, hi.filled ls hls]
    rfl
  · rw [hr] at hq
    simp only [expr, bind_ok] at hq
    obtain ⟨⟨b', _⟩, v', hb', ⟨i', _⟩, v'', hi', hq⟩ := hq
    cases hb.again hv hb'
    cases hi.again (hv.ahead hs (expr_ahead hb')) hi'
    exact elementAccess_agrees h hq

theorem array_fixed {es : List Expr} {ts : List Ty} (hs : Anchored P s) (hes : AllFixed P m s es ts) :
    Fixed P m s (.array sp es) (.array (joined none ts) (some es.length)) := by
  refine ⟨fun ls hls => by rw [Subst.expr, hes.filled hls]; rfl, fun {v w q} hv hq => ?_, by simp⟩
  obtain ⟨-, es', elem, hes', rfl⟩ := expr_array_ok hq
  cases hes.elements hs hv hes'
  rfl

/-- A literal names the same record later. -/
theorem literalRecord_agrees {id : Ident} {a c : Ty × Option RecordInfo} (hs : Anchored P s) (hst : After P s v) (hmn : m ≤ n)
    (hid : P id.name) (h : literalRecord (levels n) id s = .ok a s') (h' : literalRecord (levels m) id v = .ok c w) :
    c = a := by
  obtain ⟨ta, hta, ha⟩ := literalRecord_ok h
  obtain ⟨tc, htc, hc⟩ := literalRecord_ok h'
  have hsame : tc = ta := hst.typeRef hs hmn (by simpa [TypeRef.free] using hid) hta htc
  have hs' := typeRef_same (levels_orderly n) hta
  have hv' := typeRef_same (levels_orderly m) htc
  subst hsame hs' hv'
  obtain ⟨hu, rfl⟩ | ⟨hk, k, info, rfl, hr, rfl⟩ := ha
  · obtain ⟨-, rfl⟩ | ⟨hk, -⟩ := hc
    · rfl
    · rw [hu] at hk
      cases hk
  · obtain ⟨hu, -⟩ | ⟨-, k', info', hk', hr', rfl⟩ := hc
    · rw [hk] at hu
      cases hu
    · cases hk'
      rw [hst.remembers.records hs.fresh hr] at hr'
      cases hr'
      rfl

theorem record_fixed {id : Ident} {record : Option RecordInfo} {fs : List (Ident × Expr)} {ts : List Ty} (hs : Anchored P s)
    (hmn : m ≤ n) (hid : P id.name) (h : literalRecord (levels n) id s = .ok (ty, record) s')
    (hst : After P s u) (hfs : AllFixed P m u (fs.map (·.2)) ts) : Fixed P m u (.record sp id fs) ty := by
  refine ⟨fun ls hls => ?_, fun {v w q} hv hq => ?_, by simp⟩
  · rw [Subst.expr, Subst.recordName, hls _ hid, hfs.filled_fields hls]
    rfl
  · obtain ⟨t', record', v', fs', hl, hfs', -, rfl⟩ := expr_record_ok hq
    cases literalRecord_agrees hs (hst.trans hv) hmn hid h hl
    obtain rfl := literalRecord_same (levels_orderly m) hl
    rw [hfs.fields (hst.anchored hs) hv hfs']

theorem builtin_fixed {callee : Ident} {es : List Expr} {ts : List Ty} {places : List Span} (hs : Anchored P s)
    (hes : AllFixed P m s es ts) (hb : isBuiltin callee.name = true)
    (h : builtinCall sp callee es ts places s = .ok r s') : Fixed P m s' r.1 r.2 := by
  obtain ⟨rfl, t, rfl, hr, htype⟩ := builtinCall_ok h
  refine ⟨fun ls hls => ?_, fun {v w q} hv hq => ?_, by simp [hr]⟩
  · rw [hr, Subst.expr, Subst.typeArgs, hes.filled hls]
    rfl
  · rw [hr] at hq
    obtain ⟨es', ts', v', -, hes', ⟨-, hcall⟩ | ⟨hb', -⟩⟩ := expr_call_ok hq
    · cases hes.again hs hv hes'
      obtain ⟨-, t', -, hq', htype'⟩ := builtinCall_ok hcall
      refine Prod.ext (hq'.trans hr.symm) ?_
      grind
    · rw [hb] at hb'
      cases hb'

/-- A call of a cell that is known. -/
theorem known_fixed {callee : Ident} {sig : CellSig} {es : List Expr} {ts : List Ty} (hs : Anchored P s)
    (hes : AllFixed P m s es ts) (hb : isBuiltin callee.name = false) (hc : s.cells.find? callee.name = some sig) :
    Fixed P m s (.call sp callee [] es) sig.ret := by
  refine ⟨fun ls hls => ?_, fun {v w q} hv hq => ?_, by simp⟩
  · rw [Subst.expr, Subst.typeArgs, hes.filled hls]
    rfl
  · obtain ⟨es', ts', v', -, hes', ⟨hb', -⟩ | ⟨-, hcall⟩⟩ := expr_call_ok hq
    · rw [hb] at hb'
      cases hb'
    · cases hes.again hs hv hes'
      have hc' := (hv.ahead hs (exprs_ahead hes')).remembers.cells hc
      obtain ⟨sig', hsig, -, -, rfl⟩ | ⟨hnone, -⟩ := cellCall_ok hcall
      · rw [hc'] at hsig
        cases hsig
        rfl
      · rw [hc'] at hnone
        cases hnone

/-- A generic call that is put off is put off again: no cell takes its name, and its arguments are no better known. -/
theorem kept_fixed {callee : Ident} {generic : List TypeArg} {g : GenericInfo} {given : Option (List TemplateArg)}
    {es : List Expr} {ts : List Ty} (hs : Anchored P s) (hmn : m ≤ n) (hfree : ∀ k ∈ TypeArg.allFree [] generic, P k)
    (hes : AllFixed P m s es ts) (hb : isBuiltin callee.name = false) (hnone : s.cells.find? callee.name = none)
    (hg : s.generics.find? callee.name = some g)
    (hargs : templateArgs (levels n) callee.name g.params generic s = .ok given s')
    (hkept : given = none ∨ ts.any Ty.isUnknown = true) : Fixed P m s (.call sp callee generic es) .dependent := by
  refine ⟨fun ls hls => ?_, fun {v w q} hv hq => ?_, by simp⟩
  · have hgeneric : Subst.typeArgs ls generic = .ok generic := by
      simp only [templateArgs, bind_ok, pure_ok] at hargs
      obtain ⟨_, _, hcount, rs, _, hrs, -⟩ := hargs
      exact argsFor_unfilled hls (levels_orderly n) hfree (checkArgCount_ok hcount).2 hrs
    rw [Subst.expr, hgeneric, hes.filled hls]
    rfl
  · obtain ⟨es', ts', v', -, hes', ⟨hb', -⟩ | ⟨-, hcall⟩⟩ := expr_call_ok hq
    · rw [hb] at hb'
      cases hb'
    · cases hes.again hs hv hes'
      have hst := hv.ahead hs (exprs_ahead hes')
      have hnone' := hst.remembers.instances hnone (hs.templates hg)
      obtain ⟨_, hsig, -⟩ | ⟨-, g', given', v'', hg', hargs', hor⟩ := cellCall_ok hcall
      · rw [hnone'] at hsig
        cases hsig
      · have hparams : g'.params = g.params := by
          obtain ⟨g'', hg'', hsame⟩ := hst.remembers.template hg
          rw [hg''] at hg'
          cases hg'
          exact hsame
        rw [hparams] at hargs'
        have hgiven := hst.templateArgs hs hmn hfree hargs hargs'
        obtain ⟨known, _, _, _, _, hknown, hall, -⟩ | ⟨-, -, rfl⟩ := hor
        · rw [hgiven] at hknown
          rcases hkept with hkept | hkept
          · rw [hkept] at hknown
            cases hknown
          · rw [hkept] at hall
            cases hall
        · rfl

theorem cellCall_fixed {callee : Ident} {generic : List TypeArg} {es : List Expr} {ts : List Ty} {places : List Span}
    (hs : Anchored P s) (hmn : m ≤ n) (hfree : ∀ k ∈ TypeArg.allFree [] generic, P k) (hes : AllFixed P m s es ts)
    (hb : isBuiltin callee.name = false) (h : cellCall (levels n) sp callee generic es ts places s = .ok r s') :
    Fixed P m s' r.1 r.2 := by
  obtain ⟨sig, hc, rfl, hcall, rfl⟩ | ⟨hnone, g, given, t, hg, hargs, hor⟩ := cellCall_ok h
  · obtain ⟨rfl, -⟩ := checkCall_ok hcall
    exact known_fixed hs hes hb hc
  · obtain rfl := templateArgs_same (levels_orderly n) hargs
    obtain ⟨known, full, name, sig, u, -, -, -, hi, hcall, rfl⟩ | ⟨hkept, rfl, rfl⟩ := hor
    · obtain ⟨rfl, -⟩ := checkCall_ok hcall
      have hsu := instantiateCell_ahead hi
      exact known_fixed (hs.ahead hsu) (hes.later (.of_ahead hs hsu)) (instance_not_builtin hi) (instantiateCell_known hi)
    · exact kept_fixed hs hmn hfree hes hb hnone hg hargs hkept

/-- An index that is not known holds nothing to fill in. -/
theorem index_unfilled {env : String → Option Const} {ls : ArgLevels} (hls : Spares P ls) (hi : i.Names P)
    (h : Const.evalIndex env i = .ok none) : Subst.expr ls i = .ok i ∧ Subst.literal? i = none := by
  unfold Const.evalIndex at h
  simp only [except_bind_ok] at h
  obtain ⟨c, hc, h⟩ := h
  refine ⟨constant_unfilled hls hi.constants hc, ?_⟩
  cases i with
  | int sp k =>
    cases hc
    simp only at h
    split at h <;> cases h
  | _ => rfl

theorem listSelect_fixed {lsp : Span} {es : List Expr} {ts : List Ty} (hs : Anchored P s) (hi : i.Names P)
    (hes : AllFixed P m s es ts) (hunknown : Const.evalIndex s.place.constant? i = .ok none) :
    Fixed P m s (.listSelect sp (.list lsp es) i) .dependent := by
  refine ⟨fun ls hls => ?_, fun {v w q} hv hq => ?_, by simp⟩
  · obtain ⟨hfill, hlit⟩ := index_unfilled hls hi hunknown
    rw [Subst.expr, Subst.expr, hes.filled hls, hfill]
    show Subst.foldListSelect sp (.list lsp es) i = _
    simp only [Subst.foldListSelect, hlit]
  · rw [← hv.evalIndex hi] at hunknown
    obtain ⟨k, hk, -⟩ | ⟨-, es', ts', hes', rfl⟩ := expr_listSelect_ok hq
    · rw [hunknown] at hk
      cases hk
    · cases hes.again hs hv hes'
      rfl

theorem memberSelect_fixed {ms : List Ident} (hs : Anchored P s) (hi : i.Names P) (hb : Fixed P m s b bt)
    (hunknown : Const.evalIndex s.place.constant? i = .ok none) : Fixed P m s (.memberSelect sp b ms i) .dependent := by
  refine ⟨fun ls hls => ?_, fun {v w q} hv hq => ?_, by simp⟩
  · obtain ⟨hfill, hlit⟩ := index_unfilled hls hi hunknown
    rw [Subst.expr, hb.filled ls hls, hfill]
    show Subst.foldMemberSelect sp b ms i = _
    simp only [Subst.foldMemberSelect, hlit]
  · obtain ⟨b', bt', v', hb', hor⟩ := expr_memberSelect_ok hq
    cases hb.again hv hb'
    rw [← (hv.ahead hs (expr_ahead hb')).evalIndex hi] at hunknown
    obtain ⟨k, f, hk, -⟩ | ⟨-, rfl, rfl⟩ := hor
    · rw [hunknown] at hk
      cases hk
    · rfl

end

/-! ## Whole trees -/

mutual

/-- **What a check of an expression has made stays as it is.** -/
theorem expr_fixed (hmn : m ≤ n) : ∀ {e : Expr} {s u : Checker} {r : Typed}, Anchored P s → e.Names P →
    expr (levels n) e s = .ok r u → Fixed P m u r.1 r.2
  | .name sp id, s, u, r, hs, he, h => by
    simp only [expr] at h
    exact nameExpr_fixed he h
  | .int _ _, s, u, r, _, _, h | .char _ _, s, u, r, _, _, h | .bool _ _, s, u, r, _, _, h
  | .text _ _, s, u, r, _, _, h => by
    simp only [expr, pure_ok] at h
    obtain ⟨rfl, rfl⟩ := h
    exact literal_fixed (fun _ => rfl) (fun _ _ => rfl) (by simp)
  | .list _ _, s, u, r, _, _, h => by
    rw [expr_list] at h
    exact absurd h fail_ok
  | .array sp items, s, u, r, hs, he, h => by
    obtain ⟨-, es, elem, hes, rfl⟩ := expr_array_ok h
    obtain ⟨ts, hall, rfl⟩ := elements_fixed hmn hs he hes
    exact array_fixed (hs.ahead (elements_ahead hes)) hall
  | .record sp type fs, s, u, r, hs, he, h => by
    obtain ⟨t, record, s', es, hl, hes, -, rfl⟩ := expr_record_ok h
    obtain rfl := literalRecord_same (levels_orderly n) hl
    obtain ⟨ts, hall⟩ := fields_fixed hmn hs he.2 hes
    exact record_fixed hs hmn he.1 hl (.of_ahead hs (fields_ahead hes)) hall
  | .unary _ _ e, s, u, r, hs, he, h => by
    simp only [expr, bind_ok, pure_ok] at h
    obtain ⟨⟨e', t⟩, s', he', t', _, hty, rfl, rfl⟩ := h
    exact unary_fixed (expr_fixed (e := e) hmn hs he he') hty
  | .binary _ l _ r', s, u, r, hs, he, h => by
    simp only [expr, bind_ok, pure_ok] at h
    obtain ⟨⟨l', lt⟩, s', hl, ⟨r'', rt⟩, s'', hr, t', _, hty, rfl, rfl⟩ := h
    have hs' := hs.ahead (expr_ahead hl)
    have hstep := expr_ahead hr
    exact binary_fixed (hs'.ahead hstep) ((expr_fixed hmn hs he.1 hl).later (.of_ahead hs' hstep))
      (expr_fixed hmn hs' he.2 hr) hty
  | .member _ base _, s, u, r, hs, he, h => by
    simp only [expr, bind_ok] at h
    obtain ⟨⟨b, t⟩, s', hb, h⟩ := h
    exact memberAccess_fixed (hs.ahead (expr_ahead hb)) (expr_fixed (e := base) hmn hs he hb) h
  | .index _ base i, s, u, r, hs, he, h => by
    simp only [expr, bind_ok] at h
    obtain ⟨⟨b, bt⟩, s', hb, ⟨i', it⟩, s'', hi, h⟩ := h
    have hs' := hs.ahead (expr_ahead hb)
    have hstep := expr_ahead hi
    exact elementAccess_fixed (hs'.ahead hstep) ((expr_fixed hmn hs he.1 hb).later (.of_ahead hs' hstep))
      (expr_fixed hmn hs' he.2 hi) h
  | .call _ callee generic args, s, u, r, hs, he, h => by
    obtain ⟨es, ts, s', -, hes, ⟨hb, h⟩ | ⟨hb, h⟩⟩ := expr_call_ok h
    · exact builtin_fixed (hs.ahead (exprs_ahead hes)) (exprs_fixed hmn hs he.2 hes) hb h
    · exact cellCall_fixed (hs.ahead (exprs_ahead hes)) hmn he.1 (exprs_fixed hmn hs he.2 hes) hb h
  | .listSelect _ (.list _ items) i, s, u, r, hs, he, h => by
    obtain ⟨k, -, h⟩ | ⟨hunknown, es, ts, hes, rfl⟩ := expr_listSelect_ok h
    · exact nth_fixed hmn hs he.1 h
    · have hstep := exprs_ahead hes
      exact listSelect_fixed (hs.ahead hstep) he.2 (exprs_fixed hmn hs he.1 hes) (hstep.place ▸ hunknown)
  | .listSelect _ (.name _ _) _, s, u, r, hs, he, h | .listSelect _ (.int _ _) _, s, u, r, hs, he, h
  | .listSelect _ (.char _ _) _, s, u, r, hs, he, h | .listSelect _ (.bool _ _) _, s, u, r, hs, he, h
  | .listSelect _ (.text _ _) _, s, u, r, hs, he, h | .listSelect _ (.array _ _) _, s, u, r, hs, he, h
  | .listSelect _ (.record _ _ _) _, s, u, r, hs, he, h | .listSelect _ (.unary _ _ _) _, s, u, r, hs, he, h
  | .listSelect _ (.binary _ _ _ _) _, s, u, r, hs, he, h | .listSelect _ (.member _ _ _) _, s, u, r, hs, he, h
  | .listSelect _ (.index _ _ _) _, s, u, r, hs, he, h | .listSelect _ (.call _ _ _ _) _, s, u, r, hs, he, h
  | .listSelect _ (.listSelect _ _ _) _, s, u, r, hs, he, h
  | .listSelect _ (.memberSelect _ _ _ _) _, s, u, r, hs, he, h => by
    simp only [expr] at h
    exact absurd h fail_ok
  | .memberSelect _ base ms i, s, u, r, hs, he, h => by
    obtain ⟨b, t, s', hb, hor⟩ := expr_memberSelect_ok h
    have hs' := hs.ahead (expr_ahead hb)
    have hfix := expr_fixed hmn hs he.1 hb
    obtain ⟨k, f, -, -, h⟩ | ⟨hunknown, rfl, rfl⟩ := hor
    · exact memberAccess_fixed hs' hfix h
    · exact memberSelect_fixed hs' he.2 hfix hunknown

theorem exprs_fixed (hmn : m ≤ n) : ∀ {es : List Expr} {s u : Checker} {r : List Expr × List Ty}, Anchored P s →
    Expr.AllNames P es → exprs (levels n) es s = .ok r u → AllFixed P m u r.1 r.2
  | [], s, u, r, _, _, h => by
    simp only [exprs, pure_ok] at h
    obtain ⟨rfl, -⟩ := h
    exact .nil
  | e :: es, s, u, r, hs, he, h => by
    simp only [exprs, bind_ok, pure_ok] at h
    obtain ⟨⟨e', t⟩, s', he', ⟨es', ts⟩, _, hes, rfl, rfl⟩ := h
    have hs' := hs.ahead (expr_ahead he')
    exact .cons ((expr_fixed hmn hs he.1 he').later (.of_ahead hs' (exprs_ahead hes))) (exprs_fixed hmn hs' he.2 hes)

theorem elements_fixed (hmn : m ≤ n) : ∀ {es : List Expr} {sofar : Option Ty} {s u : Checker} {r : List Expr × Ty},
    Anchored P s → Expr.AllNames P es → elements (levels n) sofar es s = .ok r u →
      ∃ ts, AllFixed P m u r.1 ts ∧ r.2 = joined sofar ts
  | [], sofar, s, u, r, _, _, h => by
    simp only [elements, pure_ok] at h
    obtain ⟨rfl, -⟩ := h
    exact ⟨[], .nil, rfl⟩
  | e :: es, sofar, s, u, r, hs, he, h => by
    simp only [elements, bind_ok, pure_ok] at h
    obtain ⟨⟨e', t⟩, s', he', elem, _, hty, ⟨es', all⟩, _, hes, rfl, rfl⟩ := h
    obtain ⟨rfl, rfl⟩ := elementType_joins hty
    have hs' := hs.ahead (expr_ahead he')
    obtain ⟨ts, hall, hjoin⟩ := elements_fixed hmn hs' he.2 hes
    exact ⟨t :: ts, .cons ((expr_fixed hmn hs he.1 he').later (.of_ahead hs' (elements_ahead hes))) hall, hjoin⟩

theorem fields_fixed (hmn : m ≤ n) : ∀ {fs : List (Ident × Expr)} {type : Ty} {record : Option RecordInfo}
    {seen : List String} {s u : Checker} {r : List (Ident × Expr)}, Anchored P s → Expr.FieldNames P fs →
      fields (levels n) type record seen fs s = .ok r u → ∃ ts, AllFixed P m u (r.map (·.2)) ts
  | [], type, record, seen, s, u, r, _, _, h => by
    simp only [fields, pure_ok] at h
    obtain ⟨rfl, -⟩ := h
    exact ⟨[], .nil⟩
  | (f, e) :: fs, type, record, seen, s, u, r, hs, he, h => by
    obtain ⟨info, e', t, s', rest, -, he', -, hfs, rfl⟩ := fields_cons_ok h
    have hs' := hs.ahead (expr_ahead he')
    obtain ⟨ts, hall⟩ := fields_fixed hmn hs' he.2 hfs
    exact ⟨t :: ts, .cons ((expr_fixed hmn hs he.1 he').later (.of_ahead hs' (fields_ahead hfs))) hall⟩

theorem nth_fixed (hmn : m ≤ n) : ∀ {es : List Expr} {k : Nat} {sp : Span} {count index : Nat} {s u : Checker} {r : Typed},
    Anchored P s → Expr.AllNames P es → nth (levels n) sp count index es k s = .ok r u → Fixed P m u r.1 r.2
  | [], 0, sp, count, index, s, u, r, _, _, h | [], _ + 1, sp, count, index, s, u, r, _, _, h => by
    simp only [nth] at h
    exact absurd h fail_ok
  | e :: _, 0, sp, count, index, s, u, r, hs, he, h => by
    simp only [nth] at h
    exact expr_fixed hmn hs he.1 h
  | _ :: es, k + 1, sp, count, index, s, u, r, hs, he, h => by
    simp only [nth] at h
    exact nth_fixed hmn hs he.2 h

end

end Check
end Unroll
