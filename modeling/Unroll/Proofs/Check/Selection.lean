import Unroll.Proofs.Check.Again
import Unroll.Proofs.Check.EmptyScope
import Unroll.Proofs.Check.TypedStmt
/-!
# The element that a copy begins with

There are two ways to an element of a range.  The engine checks a selection with a symbolic index, in the template of an
expansion, and fills the index in when it makes a copy, and checks the result again.  A caller who asks for one element
has the range checked and the selection folded at once, and it is not checked again.  The two ways lead to one element:
what has been checked stays as it is, so that nothing comes of the checks in between.
-/
namespace Unroll

/-! ## What a copy is read for -/

section

variable (name : String) (value : Expr)

mutual

/-- The expression with another one in the place of a name. -/
def Expr.put : Expr → Expr
  | .name sp id => if id.name = name then value else .name sp id
  | .int sp v => .int sp v
  | .char sp c => .char sp c
  | .bool sp b => .bool sp b
  | .text sp s => .text sp s
  | .list sp items => .list sp (Expr.putAll items)
  | .array sp items => .array sp (Expr.putAll items)
  | .record sp type fs => .record sp type (Expr.putFields fs)
  | .unary sp op e => .unary sp op (Expr.put e)
  | .binary sp l op r => .binary sp (Expr.put l) op (Expr.put r)
  | .member sp base m => .member sp (Expr.put base) m
  | .index sp base i => .index sp (Expr.put base) (Expr.put i)
  | .call sp callee generic args => .call sp callee generic (Expr.putAll args)
  | .listSelect sp base i => .listSelect sp (Expr.put base) (Expr.put i)
  | .memberSelect sp base ms i => .memberSelect sp (Expr.put base) ms (Expr.put i)

def Expr.putAll : List Expr → List Expr
  | [] => []
  | e :: es => Expr.put e :: Expr.putAll es

def Expr.putFields : List (Ident × Expr) → List (Ident × Expr)
  | [] => []
  | (f, e) :: fs => (f, Expr.put e) :: Expr.putFields fs

end

end

/-- The copies, where it is known how many there are. -/
def Unrolling.known? : Unrolling → Option (List Copy)
  | .empty => some []
  | .unrolled _ cs => some cs
  | .pending | .deferred => none

/-- The expression with the range in place of the name that the range is bound to, where it is bound to one. -/
def Expansion.inlined (x : Expansion) (e : Expr) : Expr :=
  match x.state with
  | .unrolled (some b) _ => Expr.put b.name.name x.range e
  | _ => e

namespace Check

open CheckM Outcome Checker

/-! ## One element -/

section

variable {deeper : Deeper} {s v : Checker} {range index e r : Expr} {t : Ty} {walk : Walk} {count : Nat} {k : Int}

theorem evalIndex_int {env : String → Option Const} (hk : Const.eval env index = .ok (.int k)) :
    Const.evalIndex env index = if 0 ≤ k then .ok (some k.toNat) else .error (.of (.indexNegative k) index.span) := by
  unfold Const.evalIndex
  rw [hk]
  rfl

/-- The range is checked where it stands, and the rest depends on the index. -/
structure Ranges (deeper : Deeper) (range : Expr) (s : Checker) (e : Expr) (walk : Walk) (v : Checker) : Prop where
  range : ∃ t, rangeExpr deeper range s = .ok (e, t) v ∧ walkOf v e.span t = .ok walk
  place : v.place = s.place

variable (hr : Ranges deeper range s e walk v) (hk : Const.eval s.place.constant? index = .ok (.int k))

include hr hk

theorem select_within (hc : walk.count? = some count) (hle : 0 ≤ k) (hlt : k < count)
    (hsub : Subst.expr [] (selector walk e e (.int index.span k.toNat)) = .ok r) :
    selectElement deeper range index s = .ok r v := by
  obtain ⟨⟨t, hrange, hwalk⟩, hplace⟩ := hr
  rw [← hplace] at hk
  have hin : ¬ count ≤ k.toNat := by omega
  simp only [selectElement, bind_ok, get_ok, ofExcept_ok, constIndex_ok]
  refine ⟨(e, t), v, hrange, v, v, ⟨rfl, rfl⟩, walk, v, ⟨hwalk, rfl⟩, some k.toNat, v, ⟨?_, rfl⟩, ?_⟩
  · rw [evalIndex_int hk, if_pos hle]
  · simp only [hc, if_neg hin]
    exact ofExcept_ok.2 ⟨hsub, rfl⟩

theorem select_negative (hneg : k < 0) :
    selectElement deeper range index s = .error (.of (.indexNegative k) index.span) v := by
  obtain ⟨⟨t, hrange, hwalk⟩, hplace⟩ := hr
  rw [← hplace] at hk
  simp only [selectElement, bind_error, get_ok, ofExcept_ok, constIndex]
  refine .inr ⟨(e, t), v, hrange, .inr ⟨v, v, ⟨rfl, rfl⟩, .inr ⟨walk, v, ⟨hwalk, rfl⟩, .inl (.inr ⟨v.place, v, ?_, ?_⟩)⟩⟩⟩
  · exact place_ok.2 ⟨rfl, rfl⟩
  · rw [ofExcept_error, evalIndex_int hk, if_neg (by omega)]
    exact ⟨rfl, rfl⟩

theorem select_beyond (hc : walk.count? = some count) (hge : count ≤ k) :
    selectElement deeper range index s = .error (.of (.selectionRange k.toNat .rangeElements count) index.span) v := by
  obtain ⟨⟨t, hrange, hwalk⟩, hplace⟩ := hr
  rw [← hplace] at hk
  have hout : count ≤ k.toNat := by omega
  simp only [selectElement, bind_error, get_ok, ofExcept_ok, constIndex_ok]
  refine .inr ⟨(e, t), v, hrange, .inr ⟨v, v, ⟨rfl, rfl⟩, .inr ⟨walk, v, ⟨hwalk, rfl⟩, .inr ⟨some k.toNat, v, ⟨?_, rfl⟩, ?_⟩⟩⟩⟩
  · rw [evalIndex_int hk, if_pos (by omega)]
  · simp only [hc, if_pos hout]
    exact bind_error.2 (.inl (fail_error.2 ⟨rfl, rfl⟩))

/-- An index that no element has is an error in the index. -/
theorem select_outside (hc : walk.count? = some count) (hout : k < 0 ∨ count ≤ k) :
    ∃ d, selectElement deeper range index s = .error d v ∧ d.kind = .indexEvaluation := by
  obtain hneg | hge := hout
  · exact ⟨_, select_negative hr hk hneg, rfl⟩
  · exact ⟨_, select_beyond hr hk hc hge, rfl⟩

end

/-! ## States inside of an expansion -/

section

variable {P : String → Prop} {n m : Nat} {s t u v : Checker}

/-- A check that has left what it entered. -/
theorem After.of_left (hs : Anchored P s) (hr : Keeps Place.Left Remembers s t) (hp : Keeps Place.Left PutBack s t) :
    After P s t := by
  obtain ⟨⟨hin, hvalues, htypes⟩, hremembers⟩ := hr
  refine .standing hs hremembers (fun k _ => ?_) (fun k _ => ?_) (fun k => ?_) (.of_frames hp.rest.frames.symm)
  · unfold Place.val?
    rw [hvalues]
  · unfold Place.param?
    rw [hin.templates]
  · rw [htypes]

theorem onPlace_remembers (s : Checker) (f : Place → Place) : Remembers s (s.onPlace f) := Lasting.onPlace s f

theorem After.opened (hs : Anchored P s) : After P s (opened s) :=
  .standing hs (onPlace_remembers s _) (fun _ _ => rfl) (fun _ _ => rfl) (fun _ => rfl) (Nat.le_refl _)

/-- Only the index is a parameter more. -/
theorem After.symbolic (hs : Anchored P s) {index : IndexParam} (hi : ¬ P index.name) : After P s (symbolic index s) := by
  refine .standing hs (onPlace_remembers s _) (fun _ _ => rfl) (fun k hk => ?_) (fun _ => rfl) (Nat.le_refl _)
  have hne : index.name ≠ k := fun he => hi (he ▸ hk)
  show (index.level :: s.place.templates).findSome? (·.find? k) = _
  simp [ParamLevel.find?, IndexParam.level, hne, Place.param?]

theorem After.copying (hs : Anchored P s) {f : Frame} {fr : Frames} (hf : s.frames.push f = .ok fr) :
    After P s (copying fr s) := by
  have hframes : Remembers s { s with frames := fr } := .of_same rfl rfl rfl rfl rfl fun _ => rfl
  refine .standing hs (hframes.trans ((onPlace_remembers _ _).trans (onPlace_remembers _ _))) (fun _ _ => rfl)
    (fun _ _ => rfl) (fun _ => rfl) ?_
  unfold Frames.push at hf
  split at hf
  · cases hf
    show s.frames.limit + s.frames.depth ≤ s.frames.limit + (s.frames.depth + 1)
    omega
  · cases hf

/-! ## The range -/

/-- **The range of an expansion has been checked for good**: a list item by item, and anything else as it is. -/
theorem rangeExpr_fixed (hmn : m ≤ n) (hs : Anchored P s) {e : Expr} (he : e.Names P) {r : Typed}
    (h : rangeExpr (levels n) e s = .ok r t) :
    (∃ sp es ts, r = (.list sp es, .list ts) ∧ AllFixed P m t es ts) ∨ Fixed P m t r.1 r.2 := by
  by_cases hlist : ∃ sp items, e = .list sp items
  · obtain ⟨sp, items, rfl⟩ := hlist
    simp only [rangeExpr, listExpr, bind_ok, pure_ok] at h
    obtain ⟨⟨es, ts⟩, _, hes, rfl, rfl⟩ := h
    exact .inl ⟨sp, es, ts, rfl, exprs_fixed hmn hs he hes⟩
  · have hexpr : expr (levels n) e s = .ok r t := by
      cases e with
      | list sp items => exact absurd ⟨sp, items, rfl⟩ hlist
      | _ => exact h
    exact .inr (expr_fixed hmn hs he hexpr)

theorem rangeExpr_ahead {e : Expr} {r : Typed} (h : rangeExpr (levels n) e s = .ok r t) : Ahead s t :=
  .of_always (rangeExpr_keeps (stmtAt_keeps n) e) (rangeExpr_keeps (stmtAt_keeps n) e) h

/-! ## Lists -/

variable {p : Pending} {lsp : Span} {es : List Expr} {ts tys : List Ty} {var w d : ValDecl} {i : Nat}

/-- The template of a list holds the list as it was checked. -/
theorem template_listed (hs : Anchored P s) (hes : AllFixed P n s es ts) (hrange : p.range = .list lsp es)
    (hst : After P s t) (h : valDecl (levels n) (loopDecl p (.list tys)) t = .ok var u) :
    var.expr = .listSelect p.range.span (.list lsp es) p.index.reference := by
  obtain ⟨declared, t', e, type, u', hdecl, he, -, -, rfl⟩ := valDecl_ok h
  obtain rfl := declared_same (levels_orderly n) hdecl
  have hexpr : (loopDecl p (.list tys)).expr = .listSelect p.range.span p.range p.index.reference := rfl
  rw [hexpr] at he
  have he := initialValue_expr (fun sp => by simp) he
  rw [hrange] at he
  obtain ⟨k, hk, -⟩ | ⟨-, es', ts', hes', hres⟩ := expr_listSelect_ok he
  · exact absurd hk evalIndex_name
  · cases hes.again hs hst hes'
    rw [hrange]
    exact (Prod.mk.inj hres).1

/-- A copy takes its own item out of the list, and the item stays as it is. -/
theorem copy_listed (hes : AllFixed P m s es ts) (hindex : ¬ P p.index.name)
    (hvar : var.expr = .listSelect p.range.span (.list lsp es) p.index.reference)
    (hsub : Subst.valDecl (copyArgs p.index i) var = .ok w) (hst : After P s t) (h : valDecl (levels m) w t = .ok d u) :
    es[i]? = some d.expr := by
  have hspares : Spares P (copyArgs p.index i) := fun k hk => by
    have hne : k ≠ p.index.name := fun he => hindex (he ▸ hk)
    rw [copyArgs_lookup, if_neg hne]
  have hi : (copyArgs p.index i).lookup? p.index.name = some (.value i) := by rw [copyArgs_lookup, if_pos rfl]
  simp only [Subst.valDecl, hvar, Subst.expr, IndexParam.reference, Expr.ofIdent, Subst.name, hi, hes.filled hspares,
    except_bind_ok, except_pure_ok, Except.ok.injEq, exists_eq_left'] at hsub
  obtain ⟨_, -, e, he, rfl⟩ := hsub
  simp only [Subst.foldListSelect, Subst.literal?, Subst.item?, Int.natCast_nonneg, if_true, Int.toNat_natCast] at he
  cases hitem : es[i]? with
  | none =>
    rw [hitem] at he
    cases he
  | some e₀ =>
    rw [hitem] at he
    cases he
    obtain ⟨declared, t', e', type, u', hdecl, hinit, -, -, rfl⟩ := valDecl_ok h
    obtain rfl := declared_same (levels_orderly m) hdecl
    obtain ⟨sp, elem, hnil, -, hres, -⟩ | hinit := initialValue_ok hinit
    · rw [(Prod.mk.inj hres).1]
      exact congrArg some hnil
    · obtain ⟨hk, heq⟩ := List.getElem?_eq_some_iff.1 hitem
      have hfix := hes.get hk (hes.length_eq ▸ hk)
      simp only [List.get_eq_getElem, heq] at hfix
      cases hfix.again hst hinit
      rfl

/-! ## Copies -/

/-- The expression of a copy, with the range in the place of its hidden name. -/
def unbound (p : Pending) (walk : Walk) (e : Expr) : Expr :=
  match bindingFor p walk with
  | some b => Expr.put b.name.name p.range e
  | none => e

/-- **The expression is the element of the range with the index**, but for its places. -/
def IsElement (p : Pending) (walk : Walk) (i : Nat) (e : Expr) : Prop :=
  ∀ sp, ∃ r, Subst.expr [] (selector walk p.range p.range (.int sp i)) = .ok r ∧
    r.unplaced = (unbound p walk e).unplaced

variable {walk : Walk} {e : Expr}

theorem isElement_bound (hb : walk.needsBinding = true) (hfill : Subst.expr [] p.range = .ok p.range)
    (h : (elementsOf p walk).Selects i e) : IsElement p walk i e := by
  intro sp
  cases walk with
  | list tys => cases hb
  | dependent => cases hb
  | array count elem =>
    obtain ⟨sp₁, sp₂, sp₃, id, rfl, hid⟩ := h
    refine ⟨.index p.range.span p.range (.int sp i), ?_, ?_⟩
    · simp only [selector, Subst.expr, hfill]
      rfl
    · simp [unbound, bindingFor, Walk.needsBinding, Expr.put, rangeBinding, hid]
  | members record ms =>
    obtain ⟨sp₁, sp₂, id, f, rfl, hid, hf⟩ := h
    simp only [List.getElem?_map, Option.map_eq_some_iff] at hf
    obtain ⟨g, hg, hname⟩ := hf
    refine ⟨.member p.range.span p.range g, ?_, ?_⟩
    · simp only [selector, Subst.expr, hfill]
      show Subst.foldMemberSelect p.range.span p.range ms (.int sp i) = _
      simp [Subst.foldMemberSelect, Subst.literal?, Subst.item?, hg]
    · simp [unbound, bindingFor, Walk.needsBinding, Expr.put, rangeBinding, hid, hname]

theorem isElement_listed (hrange : p.range = .list lsp es) (hfill : Subst.expr [] p.range = .ok p.range)
    (h : es[i]? = some e) : IsElement p (.list tys) i e := by
  intro sp
  refine ⟨e, ?_, rfl⟩
  simp only [selector, Subst.expr, hfill]
  rw [hrange]
  show Subst.foldListSelect lsp (.list lsp es) (.int sp i) = _
  simp [Subst.foldListSelect, Subst.literal?, Subst.item?, h]

/-- A copy is checked one level down, from its element on. -/
theorem copy_begins {bsp keyword : Span} {ss : List Stmt} {c : Copy}
    (h : copyAt (levels n) ⟨bsp, .val var :: ss⟩ p.index keyword i s = .ok c t) :
    ∃ m fr w d rest u, m ≤ n ∧ s.frames.push ⟨.copy p.index.depth i, keyword⟩ = .ok fr ∧
      Subst.valDecl (copyArgs p.index i) var = .ok w ∧ valDecl (levels m) w (copying fr s) = .ok d u ∧
      c = ⟨i, ⟨bsp, .val d :: rest⟩⟩ := by
  obtain ⟨body, t', news, hb, rfl, -, -⟩ := copyAt_ok h
  obtain ⟨fr, b, xs, u, hfr, hsub, hxs, rfl, rfl⟩ := instantiateBlock_ok hb
  obtain ⟨w, rest, hw, -, rfl⟩ := substBlock_cons hsub
  obtain ⟨x, xs', v, hx, rfl⟩ := mapM_head hxs
  cases n with
  | zero => exact absurd hx fail_ok
  | succ m =>
    have hx' : stmt (levels m) (.val w) (copying fr s) = .ok x v := hx
    simp only [stmt, map_ok] at hx'
    obtain ⟨d, hd, rfl⟩ := hx'
    exact ⟨m, fr, w, d, xs', v, Nat.le_succ m, hfr, hw, hd, rfl⟩

/-- What the copies make of the state, and what is said of each. -/
theorem copiesFrom_each {copy : Nat → CheckM Copy} {R : Checker → Prop} {Q : Nat → Copy → Prop}
    (hcopy : ∀ i s c t, R s → copy i s = .ok c t → R t ∧ Q i c) {left i : Nat} {s t : Checker} {cs : List Copy} (hs : R s)
    (h : copiesFrom copy left i s = .ok cs t) : cs.length = left ∧ ∀ j c, cs[j]? = some c → Q (i + j) c := by
  induction left generalizing i s cs with
  | zero =>
    simp only [copiesFrom, pure_ok] at h
    obtain ⟨rfl, -⟩ := h
    refine ⟨rfl, fun _ _ hj => ?_⟩
    cases hj
  | succ left ih =>
    simp only [copiesFrom, bind_ok, pure_ok] at h
    obtain ⟨c, u, hc, cs', _, hcs, rfl, rfl⟩ := h
    obtain ⟨hu, hq⟩ := hcopy _ _ _ _ hs hc
    obtain ⟨hlen, hall⟩ := ih hu hcs
    refine ⟨congrArg (· + 1) hlen, fun j c' hj => ?_⟩
    cases j with
    | zero =>
      cases hj
      exact hq
    | succ j =>
      have hshift : i + (j + 1) = i + 1 + j := by omega
      exact hshift ▸ hall j c' hj

/-- The range has been checked for good, on as many levels. -/
def RangeFixed (P : String → Prop) (n : Nat) (s : Checker) (p : Pending) : Prop :=
  ∀ m ≤ n, (∃ sp es ts, p.range = .list sp es ∧ AllFixed P m s es ts) ∨ Fixed P m s p.range p.rangeType

theorem RangeFixed.filled (h : RangeFixed P n s p) : Subst.expr [] p.range = .ok p.range := by
  have hspares : Spares P [] := fun _ _ => rfl
  obtain ⟨sp, es, ts, hrange, hes⟩ | hfix := h n (Nat.le_refl n)
  · rw [hrange, Subst.expr, hes.filled hspares]
    rfl
  · exact hfix.filled [] hspares

theorem RangeFixed.items (h : RangeFixed P n s p) (hmn : m ≤ n) (hrange : p.range = .list lsp es) :
    ∃ ts, AllFixed P m s es ts := by
  obtain ⟨sp, es', ts, hrange', hes⟩ | hfix := h m hmn
  · cases hrange.symm.trans hrange'
    exact ⟨ts, hes⟩
  · exact absurd hrange (hfix.whole lsp es)

variable {bsp keyword : Span} {ss : List Stmt} {cs : List Copy} {count : Nat}

/-- Each copy begins with its element. -/
def Elementwise (p : Pending) (walk : Walk) (bsp : Span) (i : Nat) (c : Copy) : Prop :=
  ∃ d rest, c = ⟨i, ⟨bsp, .val d :: rest⟩⟩ ∧ IsElement p walk i d.expr

/-- Copies of what is bound to a hidden name read their elements from there. -/
theorem copies_bound (hidx : p.index.name = indexName p.index.depth) (hb : walk.needsBinding = true)
    (hfill : Subst.expr [] p.range = .ok p.range) (hvar : valDecl (levels n) (loopDecl p walk) s = .ok var t)
    (h : copiesFrom (copyAt (levels n) ⟨bsp, .val var :: ss⟩ p.index keyword) count 0 u = .ok cs v) :
    cs.length = count ∧ ∀ i c, cs[i]? = some c → Elementwise p walk bsp i c := by
  have hexpr := template_selector hb hvar
  have hcopy : ∀ i s c t, True → copyAt (levels n) ⟨bsp, .val var :: ss⟩ p.index keyword i s = .ok c t →
      True ∧ Elementwise p walk bsp i c := by
    intro i s c t _ hc
    obtain ⟨m, fr, w, d, rest, _, -, -, hw, hd, rfl⟩ := copy_begins hc
    exact ⟨trivial, d, rest, rfl, isElement_bound hb hfill (copy_selects hidx (fun _ => hexpr) hw hd)⟩
  obtain ⟨hlen, hall⟩ := copiesFrom_each hcopy trivial h
  exact ⟨hlen, fun i c hc => Nat.zero_add i ▸ hall i c hc⟩

/-- Copies out of a list begin with its items. -/
theorem copies_listed (hs : Anchored P s) (hindex : ¬ P p.index.name) (hfix : RangeFixed P n s p)
    (hrange : p.range = .list lsp es) (hst : After P s t)
    (hvar : var.expr = .listSelect p.range.span (.list lsp es) p.index.reference)
    (h : copiesFrom (copyAt (levels n) ⟨bsp, .val var :: ss⟩ p.index keyword) count 0 t = .ok cs v) :
    cs.length = count ∧ ∀ i c, cs[i]? = some c → Elementwise p (.list tys) bsp i c := by
  have hcopy : ∀ i u c v, After P s u → copyAt (levels n) ⟨bsp, .val var :: ss⟩ p.index keyword i u = .ok c v →
      After P s v ∧ Elementwise p (.list tys) bsp i c := by
    intro i u c v hu hc
    have hanchored := hu.anchored hs
    have hleft : After P u v :=
      .of_left hanchored ((copyAt_keeps (stmtAt_keeps n) _ _ _ _).ok hc) ((copyAt_keeps (stmtAt_keeps n) _ _ _ _).ok hc)
    obtain ⟨m, fr, w, d, rest, _, hmn, hfr, hw, hd, rfl⟩ := copy_begins hc
    obtain ⟨ts, hes⟩ := hfix.items hmn hrange
    have hitem := copy_listed hes hindex hvar hw (hu.trans (.copying hanchored hfr)) hd
    exact ⟨hu.trans hleft, d, rest, rfl, isElement_listed hrange hfix.filled hitem⟩
  obtain ⟨hlen, hall⟩ := copiesFrom_each hcopy hst h
  exact ⟨hlen, fun i c hc => Nat.zero_add i ▸ hall i c hc⟩

/-- **All copies begin with their elements**, as many as there are elements. -/
theorem unrolling_elementwise (hs : Anchored P s) (hindex : ¬ P p.index.name)
    (hidx : p.index.name = indexName p.index.depth) (hfix : RangeFixed P n s p) {xs : List Stmt} {state : Unrolling}
    (hb : bindRange p walk (opened s) = .ok () t)
    (ht : templateOf (levels n) p walk (stmts (levels n) xs) t = .ok (var, ss) u)
    (hu : unrolling (levels n) p walk ⟨bsp, .val var :: ss⟩ u = .ok state v) (hcs : state.known? = some cs) :
    walk.count? = some cs.length ∧ ∀ i c, cs[i]? = some c →
      Elementwise p walk bsp i c ∧ state = .unrolled (bindingFor p walk) cs := by
  obtain ⟨-, rfl, -⟩ | ⟨hcount, rfl, -⟩ | ⟨k, cs', hcount, rfl, hcopies⟩ := unrolling_ok hu
  · cases hcs
  · cases hcs
    exact ⟨hcount, nofun⟩
  · cases hcs
    have hall : cs.length = k + 1 ∧ ∀ i c, cs[i]? = some c → Elementwise p walk bsp i c := by
      obtain ⟨_, _, hvar, -, -⟩ := templateOf_ok ht
      obtain ⟨hneeds, -⟩ | ⟨hneeds, rfl⟩ := bindRange_ok hb
      · exact copies_bound hidx hneeds hfix.filled hvar hcopies
      · cases walk with
        | array count elem => cases hneeds
        | members record ms => cases hneeds
        | dependent => cases hcount
        | list tys =>
          have hopened : After P s (opened s) := .opened hs
          have hanchored := hopened.anchored hs
          have hleft : After P (opened s) u := by
            refine .of_left hanchored ?_ ?_
            · exact (templateOf_keeps (stmtAt_keeps n) p _ (stmts_keeps (stmtAt_keeps n) xs)).ok ht
            · exact (templateOf_keeps (stmtAt_keeps n) p _ (stmts_keeps (stmtAt_keeps n) xs)).ok ht
          obtain ⟨lsp, es, hrange⟩ : ∃ lsp es, p.range = .list lsp es := by
            obtain ⟨declared, t', e', type, u', -, he, -, -, -⟩ := valDecl_ok hvar
            exact expr_listSelect_list (initialValue_expr (fun sp => nofun) he)
          obtain ⟨ts, hes⟩ := hfix.items (Nat.le_refl n) hrange
          have hexpr := template_listed hs hes hrange (hopened.trans (.symbolic hanchored hindex)) hvar
          exact copies_listed hs hindex hfix hrange (hopened.trans hleft) hexpr hcopies
    exact ⟨hcount.trans (congrArg some hall.1.symm), fun i c hc => ⟨hall.2 i c hc, rfl⟩⟩

end

/-! ## The two ways -/

section

variable {P : String → Prop} {n : Nat} {s s' : Checker} {x x' : Expansion} {index : Expr} {k : Int} {cs : List Copy}

/-- **Both ways lead to one element**, at a state at which the names of the range mean something for good. -/
theorem selection_anchored (hs : Anchored P s) (hnames : x.range.Names P)
    (hindex : ¬ P (indexName (x.depth.getD s.place.templates.length))) (hinit : x.init = none)
    (hx : expansion (levels n) x s = .ok x' s') (hcs : x'.state.known? = some cs)
    (hk : Const.eval s.place.constant? index = .ok (.int k)) :
    (0 ≤ k → k < cs.length → ∃ sp d rest e t, cs[k.toNat]? = some ⟨k.toNat, ⟨sp, .val d :: rest⟩⟩ ∧
        selectElement (levels n) x.range index s = .ok e t ∧ e.unplaced = (x'.inlined d.expr).unplaced) ∧
      (k < 0 ∨ cs.length ≤ k → ∃ d t, selectElement (levels n) x.range index s = .error d t ∧ d.kind = .indexEvaluation) := by
  obtain ⟨span, keyword, init, var, range, ⟨bsp, xs⟩, depth, state⟩ := x
  obtain rfl : init = none := hinit
  simp only [expansion, bind_ok] at hx
  obtain ⟨p, t₀, hp, hx⟩ := hx
  obtain ⟨init', t₁, range', type, hi, hopen, rfl⟩ := beginExpansion_ok hp
  simp only [initStmt, pure_ok] at hi
  obtain ⟨rfl, rfl⟩ := hi
  obtain ⟨v, hr, rfl⟩ := rangeExpr_overlooks range s _ _ hopen
  have hahead := rangeExpr_ahead hr
  obtain ⟨walk, t, var', ss, u, state', w, hwalk, hb, ht, hu, rfl, -⟩ := finishExpansion_ok hx
  have hranges : Ranges (levels n) range s range' walk v := ⟨⟨type, hr, hwalk⟩, hahead.place⟩
  have hfix : RangeFixed P n v ⟨span, keyword, none, var, range', type, .make s.place depth keyword, s.place.mark⟩ := by
    intro m hmn
    obtain ⟨sp, es, ts, he, hes⟩ | hfix := rangeExpr_fixed hmn hs hnames hr
    · exact .inl ⟨sp, es, ts, (Prod.mk.inj he).1, hes⟩
    · exact .inr hfix
  obtain ⟨hcount, hall⟩ := unrolling_elementwise (hs.ahead hahead) hindex rfl hfix hb ht hu hcs
  refine ⟨fun hle hlt => ?_, fun hout => ?_⟩
  · have hin : k.toNat < cs.length := by omega
    obtain ⟨⟨d, rest, hc, helement⟩, rfl⟩ := hall k.toNat _ (List.getElem?_eq_getElem hin)
    obtain ⟨e, he, hsame⟩ := helement index.span
    refine ⟨bsp, d, rest, e, v, (List.getElem?_eq_getElem hin).trans (congrArg some hc),
      select_within hranges hk hcount hle hlt he, hsame.trans ?_⟩
    unfold Expansion.inlined unbound
    cases bindingFor _ walk <;> rfl
  · obtain ⟨d, hd, hkind⟩ := select_outside hranges hk hcount hout
    exact ⟨d, v, hd, hkind⟩

end

end Check
end Unroll
