import Unroll.Proofs.Check.Kept
import Unroll.Proofs.Check.Outline
/-!
# Every element has its copy

Where the number of elements is known, a check replaces an expansion by its copies: the body is checked once more for
each element, with the position filled in for the index, behind the declaration of that element.  So what runs of a
program that passes, its instances included, selects nothing by an index any more.  An expansion whose number of
elements was not known where it was checked last is left as it is.
-/
namespace Unroll
namespace Check

open CheckM Outcome Checker

/-! ## Substitution -/

section

variable {ls : ArgLevels}

mutual

theorem substExpr_direct : ∀ {e r : Expr}, Subst.expr ls e = .ok r → e.Direct → r.Direct
  | .name _ _, r, h, he => by
    simp only [Subst.expr, Subst.name] at h
    split at h
    · cases h
      trivial
    · cases h
    · cases h
      exact he
  | .int _ _, r, h, _ | .char _ _, r, h, _ | .bool _ _, r, h, _ | .text _ _, r, h, _ => by
    simp only [Subst.expr, Except.ok.injEq] at h
    subst h
    trivial
  | .list _ items, r, h, he | .array _ items, r, h, he => by
    simp only [Subst.expr, except_bind_ok, except_pure_ok] at h
    obtain ⟨_, hes, rfl⟩ := h
    exact substExprs_direct hes he
  | .record _ _ fs, r, h, he => by
    simp only [Subst.expr, except_bind_ok, except_pure_ok] at h
    obtain ⟨_, hfs, rfl⟩ := h
    exact substFields_direct hfs he
  | .unary _ _ e, r, h, he | .member _ e _, r, h, he => by
    simp only [Subst.expr, except_bind_ok, except_pure_ok] at h
    obtain ⟨_, he', rfl⟩ := h
    have hdirect := substExpr_direct he' he
    exact hdirect
  | .binary _ _ _ _, r, h, he | .index _ _ _, r, h, he => by
    simp only [Subst.expr, except_bind_ok, except_pure_ok] at h
    obtain ⟨_, hl, _, hr, rfl⟩ := h
    exact ⟨substExpr_direct hl he.1, substExpr_direct hr he.2⟩
  | .call _ _ _ args, r, h, he => by
    simp only [Subst.expr, except_bind_ok, except_pure_ok] at h
    obtain ⟨_, -, _, hes, rfl⟩ := h
    exact substExprs_direct hes he

theorem substExprs_direct : ∀ {es rs : List Expr}, Subst.exprs ls es = .ok rs → Expr.AllDirect es → Expr.AllDirect rs
  | [], rs, h, _ => by
    cases h
    trivial
  | e :: es, rs, h, he => by
    simp only [Subst.exprs, except_bind_ok, except_pure_ok] at h
    obtain ⟨_, hr, _, hrs, rfl⟩ := h
    exact ⟨substExpr_direct hr he.1, substExprs_direct hrs he.2⟩

theorem substFields_direct : ∀ {fs rs : List (Ident × Expr)}, Subst.fields ls fs = .ok rs → Expr.FieldsDirect fs →
    Expr.FieldsDirect rs
  | [], rs, h, _ => by
    cases h
    trivial
  | (_, _) :: _, rs, h, hf => by
    simp only [Subst.fields, except_bind_ok, except_pure_ok] at h
    obtain ⟨_, hr, _, hrs, rfl⟩ := h
    exact ⟨substExpr_direct hr hf.1, substFields_direct hrs hf.2⟩

end

theorem substValDecl_direct {d r : ValDecl} (h : Subst.valDecl ls d = .ok r) (hd : d.expr.Direct) : r.expr.Direct := by
  simp only [Subst.valDecl, except_bind_ok, except_pure_ok] at h
  obtain ⟨_, -, _, he, rfl⟩ := h
  exact substExpr_direct he hd

theorem substInit_direct : ∀ {i r : Option Init}, Subst.init ls i = .ok r → Init.Direct i → Init.Direct r
  | none, r, h, _ => by
    cases h
    trivial
  | some (.val _), r, h, hi => by
    simp only [Subst.init, except_map_ok] at h
    obtain ⟨_, ⟨_, hd, rfl⟩, rfl⟩ := h
    exact substValDecl_direct hd hi
  | some (.expr _), r, h, hi => by
    simp only [Subst.init, except_map_ok] at h
    obtain ⟨_, ⟨_, he, rfl⟩, rfl⟩ := h
    exact substExpr_direct he hi

mutual

theorem substStmt_direct : ∀ {x r : Stmt}, Subst.stmt ls x = .ok r → x.Direct → r.Direct
  | .typeAlias _ _ _ _, r, h, hx | .trait _ _, r, h, hx | .cell _, r, h, hx | .leave _, r, h, hx
  | .next _, r, h, hx => by
    simp only [Subst.stmt, Except.ok.injEq] at h
    exact h ▸ hx
  | .record _, r, h, _ => by
    simp only [Subst.stmt, except_bind_ok, except_pure_ok] at h
    obtain ⟨_, -, rfl⟩ := h
    trivial
  | .val _, r, h, hx => by
    simp only [Subst.stmt, except_map_ok] at h
    obtain ⟨_, hd, rfl⟩ := h
    exact substValDecl_direct hd hx
  | .assign _ _ e, r, h, hx | .assert _ e, r, h, hx => by
    simp only [Subst.stmt, except_bind_ok, except_pure_ok] at h
    obtain ⟨_, he, rfl⟩ := h
    exact substExpr_direct (e := e) he hx
  | .expr e, r, h, hx => by
    simp only [Subst.stmt, except_map_ok] at h
    obtain ⟨_, he, rfl⟩ := h
    exact substExpr_direct (e := e) he hx
  | .give _ none, r, h, _ => by
    simp only [Subst.stmt, Subst.expr?, except_bind_ok, except_pure_ok, Except.ok.injEq, exists_eq_left'] at h
    subst h
    trivial
  | .give _ (some e), r, h, hx => by
    simp only [Subst.stmt, Subst.expr?, except_bind_ok, except_map_ok, except_pure_ok] at h
    obtain ⟨_, ⟨_, he, rfl⟩, rfl⟩ := h
    exact substExpr_direct (e := e) he hx
  | .cond _ _ yes none, r, h, hx => by
    simp only [Subst.stmt, except_bind_ok, except_pure_ok] at h
    obtain ⟨_, hc, _, hy, rfl⟩ := h
    exact ⟨substExpr_direct hc hx.1, substBlock_direct hy hx.2⟩
  | .cond _ _ yes (some no), r, h, hx => by
    simp only [Subst.stmt, except_bind_ok, except_pure_ok] at h
    obtain ⟨_, hc, _, hy, _, hn, rfl⟩ := h
    exact ⟨substExpr_direct hc hx.1, substBlock_direct hy hx.2.1, substBlock_direct hn hx.2.2⟩
  | .loop _ _ body, r, h, hx => by
    simp only [Subst.stmt, except_bind_ok, except_pure_ok] at h
    obtain ⟨_, hc, _, hb, rfl⟩ := h
    exact ⟨substExpr_direct hc hx.1, substBlock_direct hb hx.2⟩
  | .expand ⟨_, _, _, _, _, body, _, _⟩, r, h, hx => by
    simp only [Subst.stmt, Subst.expansion, except_map_ok, except_bind_ok, except_pure_ok] at h
    obtain ⟨_, ⟨_, hi, _, -, _, hr, _, hb, rfl⟩, rfl⟩ := h
    exact ⟨substInit_direct hi hx.1, substExpr_direct hr hx.2.1, substBlock_direct hb hx.2.2⟩

theorem substStmts_direct : ∀ {xs rs : List Stmt}, Subst.stmts ls xs = .ok rs → Stmt.AllDirect xs → Stmt.AllDirect rs
  | [], rs, h, _ => by
    cases h
    trivial
  | x :: xs, rs, h, hx => by
    simp only [Subst.stmts, except_bind_ok, except_pure_ok] at h
    obtain ⟨_, hr, _, hrs, rfl⟩ := h
    exact ⟨substStmt_direct hr hx.1, substStmts_direct hrs hx.2⟩

/-- **Substitution makes no selection**, and names no index. -/
theorem substBlock_direct : ∀ {b r : Block}, Subst.block ls b = .ok r → b.Direct → r.Direct
  | ⟨_, ss⟩, r, h, hb => by
    simp only [Subst.block, except_bind_ok, except_pure_ok] at h
    obtain ⟨_, hs, rfl⟩ := h
    exact substStmts_direct hs hb

end

theorem substCell_direct {c r : CellDef} {name : String} (h : Subst.cell ls c name = .ok r) (hc : c.body.Direct) :
    r.body.Direct := by
  simp only [Subst.cell, except_bind_ok, except_pure_ok] at h
  obtain ⟨_, -, _, -, _, hb, rfl⟩ := h
  exact substBlock_direct hb hc

end

/-! ## The limits stay -/

/-- The states have the same limits. -/
def SameConfig (s t : Checker) : Prop := t.config = s.config

instance : IsPreorder Checker SameConfig where
  refl _ := rfl
  trans _ _ _ h h' := h'.trans h

instance : Lasting SameConfig where
  onPlace _ _ := rfl
  event _ := rfl
  report _ _ := rfl
  record _ _ _ := rfl
  within _ h := h
  tried _ _ h := (modifyGeneric_config ..).trans h
  elaborated _ _ _ h := (modifyGeneric_config ..).trans ((modifyGeneric_config ..).trans h)
  instantiated _ hst _ _ _ _ _ h := trans_of SameConfig hst h
  forgotten _ hst _ h := by
    refine trans_of SameConfig hst ?_
    rcases h with rfl | ⟨_, -, h⟩
    · rfl
    · exact h

variable {n limit : Nat} {s s' : Checker} {α : Type}

/-- A check of the parts leaves the limits as they are. -/
theorem kept_config {P : Place → Place → Prop} {x : CheckM α} {a : α} (h : Always (Keeps P SameConfig) x)
    (hx : x s = .ok a s') : s'.config = s.config := (h.ok hx).rest

/-! ## Copies -/

/-- **What is one level down leaves direct trees direct, and takes the elements out of their expansions.** -/
def Deeper.Extracts (limit : Nat) (deeper : Deeper) : Prop := ∀ {x r : Stmt} {s s' : Checker},
  deeper.stmt x s = .ok r s' → s.config.maxExpansionSize = limit → x.Direct → r.Direct ∧ r.Runs (Expansion.Settles limit)

theorem mapM_extracts (hd : (levels n).Extracts limit) : ∀ {xs rs : List Stmt} {s s' : Checker},
    xs.mapM (levels n).stmt s = .ok rs s' → s.config.maxExpansionSize = limit → Stmt.AllDirect xs →
      Stmt.AllDirect rs ∧ Stmt.AllRun (Expansion.Settles limit) rs
  | [], rs, s, s', h, _, _ => by
    simp only [List.mapM_nil, pure_ok] at h
    obtain ⟨rfl, -⟩ := h
    exact ⟨trivial, trivial⟩
  | x :: xs, rs, s, s', h, hlim, hx => by
    simp only [List.mapM_cons, bind_ok, pure_ok] at h
    obtain ⟨_, t, hr, _, _, hrs, rfl, rfl⟩ := h
    have ht := kept_config (stmtAt_keeps n x) hr
    obtain ⟨hdirect, hruns⟩ := hd hr hlim hx.1
    obtain ⟨hdirects, hrun⟩ := mapM_extracts hd hrs (ht ▸ hlim) hx.2
    exact ⟨⟨hdirect, hdirects⟩, hruns, hrun⟩

/-- **One copy for each element**, in their order. -/
theorem copiesFrom_extracts (hd : (levels n).Extracts limit) {p : Pending} (hidx : p.index.name = indexName p.index.depth)
    (hrange : p.range.Direct) {walk : Walk} {b : Option ValDecl} {depth : Nat}
    (hels : (elementsOf p walk).Of p.range depth b) {var : ValDecl} (hvar : Heads p walk var) {sp : Span} {ss : List Stmt}
    (hss : Stmt.AllDirect ss) {keyword : Span} : ∀ {left i : Nat} {s s' : Checker} {cs : List Copy},
      copiesFrom (copyAt (levels n) ⟨sp, .val var :: ss⟩ p.index keyword) left i s = .ok cs s' →
        s.config.maxExpansionSize = limit → cs.length = left ∧ InOrder p.var p.range (elementsOf p walk) i cs ∧
          Copy.AllRun (Expansion.Settles limit) cs
  | 0, i, s, s', cs, h, _ => by
    simp only [copiesFrom, pure_ok] at h
    obtain ⟨rfl, -⟩ := h
    exact ⟨rfl, .nil, trivial⟩
  | left + 1, i, s, s', cs, h, hlim => by
    simp only [copiesFrom, bind_ok, pure_ok] at h
    obtain ⟨c, t, hc, cs', _, hcs, rfl, rfl⟩ := h
    have ht := kept_config (copyAt_keeps (stmtAt_keeps n) _ _ _ i) hc
    obtain ⟨hlen, horder, hruns⟩ := copiesFrom_extracts hd hidx hrange hels hvar hss hcs (ht ▸ hlim)
    obtain ⟨d, v, x, fr, u, _, _, rest, rest', hv, hrest, hx, hxs, hrests, rfl, rfl⟩ := copyAt_cons_ok (levels_open n) hc
    have hinit := copy_initial hidx hrange hvar hv hx
    have hu : u.config = (copying fr s).config := kept_config (stmtAt_keeps n (.val v)) hxs
    have hrun := (mapM_extracts hd hrests (hu ▸ hlim) (substStmts_direct hrest hss)).2
    have hhead : x.name = p.var.name ∧ x.mutable = p.var.mutable := by
      obtain ⟨_, _, _, _, _, -, -, -, -, rfl⟩ := valDecl_ok hx
      simp only [Subst.valDecl, except_bind_ok, except_pure_ok] at hv
      obtain ⟨_, -, _, -, rfl⟩ := hv
      exact ⟨congrArg ValDecl.name hvar.header, congrArg ValDecl.mutable hvar.header⟩
    exact ⟨congrArg (· + 1) hlen, .cons hhead.1 hhead.2 hinit horder, ⟨hinit.direct hels hrange, hrun⟩, hruns⟩

/-! ## Expansions -/

theorem checkSize_bound {sp : Span} {count : Option Nat} {u : Unit} (h : checkSize sp count s = .ok u s') :
    ∀ k, count = some k → k ≤ s.config.maxExpansionSize := by
  rintro k rfl
  simp only [checkSize, bind_ok, get_ok] at h
  obtain ⟨_, _, ⟨rfl, rfl⟩, h⟩ := h
  split at h
  · exact absurd h fail_ok
  · rename_i hle
    exact Nat.le_of_not_lt hle

/-- An expansion with more elements than the limit is rejected. -/
theorem finishExpansion_bound {deeper : Deeper} {p : Pending} {sp : Span} {body : CheckM (List Stmt)} {x : Expansion}
    (h : finishExpansion deeper p sp body s = .ok x s') {walk : Walk}
    (hwalk : walkOf s p.range.span p.rangeType = .ok walk) : ∀ k, walk.count? = some k → k ≤ s.config.maxExpansionSize := by
  simp only [finishExpansion, unroll, always_ok, bind_ok, get_ok, ofExcept_ok] at h
  obtain ⟨_, ⟨_, _, ⟨rfl, rfl⟩, walk', _, ⟨hwalk', rfl⟩, _, _, hsize, -⟩, -⟩ := h
  rw [hwalk'] at hwalk
  cases hwalk
  exact checkSize_bound hsize

theorem elements_of_walk {p : Pending} {walk : Walk} {var : ValDecl} (hvar : Heads p walk var) {k : Nat}
    (hcount : walk.count? = some k) :
    (elementsOf p walk).Of p.range p.index.depth (bindingFor p walk) ∧ (elementsOf p walk).count = k := by
  cases walk with
  | dependent => cases hcount
  | list ts =>
    obtain ⟨sp, items, _, hrange, -, hlen, -⟩ := hvar.listed rfl
    refine ⟨?_, Option.some.inj hcount⟩
    rw [show elementsOf p (.list ts) = .list items.length from congrArg Elements.list (Option.some.inj hlen)]
    exact .list hrange
  | array m elem =>
    cases hcount
    exact ⟨.array (hvar.read rfl).2 rfl rfl, rfl⟩
  | members r ms =>
    cases hcount
    exact ⟨.members (hvar.read rfl).2 rfl rfl, List.length_map ..⟩

/-- **An expansion is replaced by its copies**, where the number of its elements is known. -/
theorem unrolling_extracts (hd : (levels n).Extracts limit) {p : Pending} (hidx : p.index.name = indexName p.index.depth)
    (hrange : p.range.Direct)
    (hlist : ∀ sp items, p.range = .list sp items → ∃ ts, p.rangeType = .list ts ∧ ts.length = items.length)
    {t y z : Checker} {walk : Walk} (hwalk : walkOf t p.range.span p.rangeType = .ok walk)
    (hbound : ∀ k, walk.count? = some k → k ≤ limit) {var : ValDecl}
    (hv : valDecl (levels n) (loopDecl p walk) y = .ok var z) {bsp : Span} {ss : List Stmt} (hss : Stmt.AllDirect ss)
    {state : Unrolling} (h : unrolling (levels n) p walk ⟨bsp, .val var :: ss⟩ s = .ok state s')
    (hlim : s.config.maxExpansionSize = limit) :
    (Expansion.mk p.span p.keyword p.init p.var p.range ⟨bsp, ss⟩ (some p.index.depth) state).Settles limit ∧
      state.Runs (Expansion.Settles limit) := by
  cases hcount : walk.count? with
  | none =>
    obtain ⟨-, rfl, -⟩ | ⟨hsome, -⟩ | ⟨_, _, hsome, -⟩ := unrolling_ok h
    · exact ⟨.inl rfl, trivial⟩
    · rw [hcount] at hsome
      cases hsome
    · rw [hcount] at hsome
      cases hsome
  | some k =>
    have hne : walk ≠ .dependent := by
      rintro rfl
      cases hcount
    have hheads := template_heads hrange hlist hwalk hne hv
    obtain ⟨hof, hels⟩ := elements_of_walk hheads hcount
    have hle : (elementsOf p walk).count ≤ limit := hels ▸ hbound k hcount
    obtain ⟨hnone, -⟩ | ⟨hzero, rfl, -⟩ | ⟨j, cs, hsucc, rfl, hcs⟩ := unrolling_ok h
    · rw [hcount] at hnone
      cases hnone
    · rw [hcount] at hzero
      cases hzero
      exact ⟨.inr ⟨_, hle, _, _, rfl, hof, .inl ⟨hels, rfl⟩⟩, trivial⟩
    · rw [hcount] at hsucc
      cases hsucc
      obtain ⟨hlen, horder, hruns⟩ := copiesFrom_extracts hd hidx hrange hof hheads hss hcs hlim
      have hpos : 0 < (elementsOf p walk).count := hels ▸ Nat.succ_pos j
      exact ⟨.inr ⟨_, hle, _, _, rfl, hof, .inr ⟨cs, hpos, hlen.trans hels.symm, rfl, horder⟩⟩, hruns⟩

theorem expansion_extracts (hd : (levels n).Extracts limit) {span keyword bsp : Span} {init : Option Init} {var : LoopVar}
    {range : Expr} {ss : List Stmt} {depth : Option Nat} {state : Unrolling}
    (hx : (Expansion.mk span keyword init var range ⟨bsp, ss⟩ depth state).Direct)
    (hbody : ∀ {s s' : Checker} {r : List Stmt}, stmts (levels n) ss s = .ok r s' →
      s.config.maxExpansionSize = limit → Stmt.AllDirect r)
    {r : Expansion} (h : expansion (levels n) ⟨span, keyword, init, var, range, ⟨bsp, ss⟩, depth, state⟩ s = .ok r s')
    (hlim : s.config.maxExpansionSize = limit) : r.Direct ∧ r.Runs (Expansion.Settles limit) := by
  simp only [expansion, bind_ok] at h
  obtain ⟨p, t, hp, hf⟩ := h
  obtain ⟨init', u, range', type, hi, hr, rfl⟩ := beginExpansion_ok hp
  have hbound := @finishExpansion_bound _ _ _ _ _ _ _ hf
  obtain ⟨walk, v, var', ss', w, state', z, hwalk, hb, ht, hu, rfl, -⟩ := finishExpansion_ok hf
  obtain ⟨y, _, hv, hss, -⟩ := templateOf_ok ht
  -- the limits are the same all along
  have hconfig : t.config = s.config := (kept_config (rangeExpr_keeps (stmtAt_keeps n) _) hr).trans
    (kept_config (s := opened s) (initStmt_keeps (stmtAt_keeps n) _) hi)
  have hconfigv : v.config = s.config := (kept_config (bindRange_keeps _ walk) hb).trans hconfig
  have hconfigy : y.config = s.config :=
    (kept_config (s := symbolic _ v) (valDecl_keeps (stmtAt_keeps n) _).1 hv).trans hconfigv
  have hconfigw : w.config = s.config :=
    (kept_config (templateOf_keeps (stmtAt_keeps n) _ walk (stmts_keeps (stmtAt_keeps n) ss)) ht).trans hconfigv
  obtain ⟨hxi, hxr, -⟩ := hx
  have hinit : Init.Direct init' := hxi.of_outline (initStmt_outline hi hxi)
  obtain ⟨hrange, hlist⟩ := rangeExpr_outline hr hxr
  have hdirect : range'.Direct := hxr.of_outline hrange
  have hss' : Stmt.AllDirect ss' := hbody hss (hconfigy ▸ hlim)
  have hfits : ∀ k, walk.count? = some k → k ≤ limit := by
    rw [← hlim, ← hconfig]
    exact hbound hwalk
  obtain ⟨hsettles, hruns⟩ := unrolling_extracts hd rfl hdirect hlist hwalk hfits hv hss' hu (hconfigw ▸ hlim)
  exact ⟨⟨hinit, hdirect, hss'⟩, hsettles, hinit, hdirect, hruns⟩

/-! ## Statements -/

theorem valDecl_direct {deeper : Deeper} {d r : ValDecl} (h : valDecl deeper d s = .ok r s') (hd : d.expr.Direct) :
    r.expr.Direct :=
  hd.of_outline (congrArg ValDecl.expr (valDecl_outline h hd))

theorem expr_direct {deeper : Deeper} {e : Expr} {r : Typed} (h : expr deeper e s = .ok r s') (he : e.Direct) : r.1.Direct :=
  he.of_outline (expr_outline h he)

theorem condition_direct {deeper : Deeper} {what : Condition} {e r : Expr} (h : condition deeper what e s = .ok r s')
    (he : e.Direct) : r.Direct :=
  he.of_outline (condition_outline h he)

mutual

theorem stmt_extracts (hd : (levels n).Extracts limit) : ∀ {x : Stmt} {s s' : Checker} {r : Stmt},
    stmt (levels n) x s = .ok r s' → s.config.maxExpansionSize = limit → x.Direct →
      r.Direct ∧ r.Runs (Expansion.Settles limit)
  | .typeAlias _ _ _ _, s, s', r, h, _, _ | .trait _ _, s, s', r, h, _, _ | .cell _, s, s', r, h, _, _ => by
    simp only [stmt] at h
    exact absurd h fail_ok
  | .record _, s, s', r, h, _, _ => by
    simp only [stmt, bind_ok, pure_ok] at h
    obtain ⟨_, _, -, rfl, -⟩ := h
    exact ⟨trivial, trivial⟩
  | .val _, s, s', r, h, _, hx => by
    simp only [stmt, map_ok] at h
    obtain ⟨_, hv, rfl⟩ := h
    exact ⟨valDecl_direct hv hx, valDecl_direct hv hx⟩
  | .assign _ _ e, s, s', r, h, _, hx => by
    obtain ⟨_, _, _, -, -, he, -, rfl⟩ := assignment_ok (by simpa only [stmt] using h)
    have hdirect := expr_direct (e := e) he hx
    exact ⟨hdirect, hdirect⟩
  | .cond sp c yes none, s, s', r, h, hlim, hx => by
    simp only [stmt, bind_ok, pure_ok] at h
    obtain ⟨_, t, hc, _, _, hy, rfl, rfl⟩ := h
    have ht := kept_config (condition_keeps (stmtAt_keeps n) _ _) hc
    have hcond := condition_direct hc hx.1
    obtain ⟨hyes, hyesRuns⟩ := block_extracts hd hy (ht ▸ hlim) hx.2
    exact ⟨⟨hcond, hyes⟩, hcond, hyesRuns⟩
  | .cond sp c yes (some no), s, s', r, h, hlim, hx => by
    simp only [stmt, bind_ok, pure_ok] at h
    obtain ⟨_, t, hc, _, u, hy, _, _, hno, rfl, rfl⟩ := h
    have ht := kept_config (condition_keeps (stmtAt_keeps n) _ _) hc
    have hu := (kept_config (block_keeps (stmtAt_keeps n) _) hy).trans ht
    have hcond := condition_direct hc hx.1
    obtain ⟨hyes, hyesRuns⟩ := block_extracts hd hy (ht ▸ hlim) hx.2.1
    obtain ⟨hnot, hnotRuns⟩ := block_extracts hd hno (hu ▸ hlim) hx.2.2
    exact ⟨⟨hcond, hyes, hnot⟩, hcond, hyesRuns, hnotRuns⟩
  | .loop sp c ⟨bsp, ss⟩, s, s', r, h, hlim, hx => by
    simp only [stmt, bind_ok, pure_ok] at h
    obtain ⟨_, t, hc, b, _, hb, rfl, rfl⟩ := h
    have ht := kept_config (condition_keeps (stmtAt_keeps n) _ _) hc
    have hcond := condition_direct hc hx.1
    obtain ⟨u, hin, rfl⟩ := loopBodyWith_ok hb
    obtain ⟨ss', v, hss, rfl, -⟩ := blockWith_ok hin
    obtain ⟨hbody, hruns⟩ := stmts_extracts hd hss (ht ▸ hlim) hx.2
    exact ⟨⟨hcond, hbody⟩, hcond, hruns⟩
  | .expand ⟨span, keyword, init, var, range, ⟨bsp, ss⟩, depth, state⟩, s, s', r, h, hlim, hx => by
    simp only [stmt, map_ok] at h
    obtain ⟨x, he, rfl⟩ := h
    exact expansion_extracts hd hx (fun hss hin => (stmts_extracts hd hss hin hx.2.2).1) he hlim
  | .leave _, s, s', r, h, _, _ | .next _, s, s', r, h, _, _ => by
    obtain ⟨-, -, rfl⟩ := jump_ok (by simpa only [stmt] using h)
    exact ⟨trivial, trivial⟩
  | .give _ e, s, s', r, h, _, hx => by
    obtain ⟨e, _, _, rfl, he, -, rfl⟩ | ⟨-, -, rfl, -⟩ := giveBack_ok (by simpa only [stmt] using h)
    · have hdirect := expr_direct (e := e) he hx
      exact ⟨hdirect, hdirect⟩
    · exact ⟨trivial, trivial⟩
  | .assert _ e, s, s', r, h, _, hx => by
    obtain ⟨_, he, rfl⟩ := assertion_ok (by simpa only [stmt] using h)
    have hdirect := condition_direct (e := e) he hx
    exact ⟨hdirect, hdirect⟩
  | .expr e, s, s', r, h, _, hx => by
    simp only [stmt, bind_ok, pure_ok] at h
    obtain ⟨⟨_, _⟩, _, he, rfl, -⟩ := h
    have hdirect := expr_direct (e := e) he hx
    exact ⟨hdirect, hdirect⟩

theorem stmts_extracts (hd : (levels n).Extracts limit) : ∀ {xs : List Stmt} {s s' : Checker} {r : List Stmt},
    stmts (levels n) xs s = .ok r s' → s.config.maxExpansionSize = limit → Stmt.AllDirect xs →
      Stmt.AllDirect r ∧ Stmt.AllRun (Expansion.Settles limit) r
  | [], s, s', r, h, _, _ => by
    simp only [stmts, pure_ok] at h
    obtain ⟨rfl, -⟩ := h
    exact ⟨trivial, trivial⟩
  | x :: xs, s, s', r, h, hlim, hx => by
    simp only [stmts, bind_ok, pure_ok] at h
    obtain ⟨_, t, hr, _, _, hrs, rfl, rfl⟩ := h
    have ht := kept_config (stmt_keeps (stmtAt_keeps n) x).moves hr
    obtain ⟨hdirect, hruns⟩ := stmt_extracts hd hr hlim hx.1
    obtain ⟨hdirects, hrun⟩ := stmts_extracts hd hrs (ht ▸ hlim) hx.2
    exact ⟨⟨hdirect, hdirects⟩, hruns, hrun⟩

theorem block_extracts (hd : (levels n).Extracts limit) : ∀ {b : Block} {s s' : Checker} {r : Block},
    block (levels n) b s = .ok r s' → s.config.maxExpansionSize = limit → b.Direct →
      r.Direct ∧ r.Runs (Expansion.Settles limit)
  | ⟨sp, ss⟩, s, s', r, h, hlim, hb => by
    simp only [block] at h
    obtain ⟨ss', t, hss, rfl, -⟩ := blockWith_ok h
    exact stmts_extracts hd hss hlim hb

end

theorem levels_extracts (limit : Nat) : ∀ n : Nat, (levels n).Extracts limit
  | 0 => fun h => absurd h fail_ok
  | n + 1 => fun h => stmt_extracts (levels_extracts limit n) h

/-! ## Cells -/

theorem cellStmts_extracts : ∀ {xs : List Stmt} {s s' : Checker} {r : List Stmt},
    cellStmts (levels n) xs s = .ok r s' → s.config.maxExpansionSize = limit → Stmt.AllDirect xs →
      Stmt.AllDirect r ∧ Stmt.AllRun (Expansion.Settles limit) r
  | [], s, s', r, h, _, _ => by
    simp only [cellStmts, pure_ok] at h
    obtain ⟨rfl, -⟩ := h
    exact ⟨trivial, trivial⟩
  | x :: xs, s, s', r, h, hlim, hx => by
    simp only [cellStmts_cons, bind_ok, pure_ok] at h
    obtain ⟨checked, t, hc, rest, _, hrest, rfl, rfl⟩ := h
    have ht := kept_config (recovered_keeps (stmtAt_keeps n) x) hc
    obtain ⟨hdirects, hrun⟩ := cellStmts_extracts hrest (ht ▸ hlim) hx.2
    cases checked with
    | none => exact ⟨hdirects, hrun⟩
    | some x' =>
      obtain ⟨hdirect, hruns⟩ := levels_extracts limit n (recovered_some hc) hlim hx.1
      exact ⟨⟨hdirect, hdirects⟩, hruns, hrun⟩

theorem cellBody_extracts {c r : CellDef} {sig : CellSig} (h : cellBody (levels n) c sig s = .ok r s')
    (hlim : s.config.maxExpansionSize = limit) (hc : c.body.Direct) :
    r.body.Direct ∧ r.body.Runs (Expansion.Settles limit) := by
  obtain ⟨t, ss, hparams, hss, rfl⟩ := cellBody_ok h
  obtain ⟨_, _, _, _, _, ⟨_, _⟩⟩ := c
  have ht : t.config = (s.onPlace Place.pushScope).config := kept_config (defineParams_keeps _ _) hparams
  exact cellStmts_extracts hss (show t.config.maxExpansionSize = limit from ht ▸ hlim) hc

/-- The elements have been taken out of the expansions that run in the cell. -/
abbrev Settled (k : Config) (c : CellDef) : Prop := c.body.Runs (Expansion.Settles k.maxExpansionSize)

instance (k : Config) : CellLaw k (·.body.Direct) (Settled k) where
  template hk hg hc := (cellBody_extracts hc (congrArg Config.maxExpansionSize hk) hg).1
  made hk hg hsub hc := (cellBody_extracts hc (congrArg Config.maxExpansionSize hk) (substCell_direct hsub hg)).2

/-- **The elements are taken out of every expansion that runs**, in a concrete cell of a program that passes or in an
instance, unless their number was not known where the expansion was checked. -/
theorem program_extracted {p : Program} {k : Config} {checked : CheckedProgram} {last : Checker}
    (hw : ∀ x ∈ p, x.Written) (h : Check.program p (.new k) = .ok checked last) : ∀ c ∈ checked.cells, Settled k c := by
  obtain ⟨hcells, hinstances⟩ := program_kept (G := (·.body.Direct)) (I := Settled k) hw
    (fun c hc => CellDef.Written.direct (hw _ hc)) h
  intro c hc
  rcases mem_concrete.1 hc with ⟨hc, hpar⟩ | hc
  · obtain ⟨c₀, n, sig, s, t, hc₀, -, hk, -, hbody⟩ := hcells c hc hpar
    exact (cellBody_extracts hbody (congrArg Config.maxExpansionSize hk) (CellDef.Written.direct (hw _ hc₀))).2
  · exact hinstances c hc

/-- **All elements are taken out where the instances are in order**: those that the type of the range tells. -/
theorem Passed.taken {p : Program} {k : Config} {checked : CheckedProgram} {last fin : Checker} {globals : Table String}
    (hp : Passed p checked last globals fin) (hfin : Final globals fin) (h : ∀ c ∈ checked.cells, Settled k c) :
    ∀ c ∈ checked.cells, c.body.Runs (Expansion.Taken (globalsOf last) k.maxExpansionSize) := by
  intro c hc
  obtain ⟨sig, -, ht⟩ := (hp.typed hfin).cells c hc
  have hglobals : globalsOf last = globalsOf fin := by
    rw [hp.last]
    rfl
  rw [hglobals]
  have hruns := h c hc
  obtain ⟨_, _, _, _, _, ⟨_, ss⟩⟩ := c
  exact Stmt.AllRun.taken hruns ht.body

/-- **Positional extraction** in a program without generic cells. -/
theorem program_taken {p : Program} {k : Config} {checked : CheckedProgram} {last : Checker} (hw : ∀ x ∈ p, x.Written)
    (hconcrete : ∀ c, .cell c ∈ p → c.params = []) (h : Check.program p (.new k) = .ok checked last) :
    ∀ c ∈ checked.cells, c.body.Runs (Expansion.Taken (globalsOf last) k.maxExpansionSize) := by
  obtain ⟨globals, fin, hp⟩ := passed hw h
  have hnone := hp.concrete hconcrete
  exact hp.taken (hp.final (by simp [hnone]) (by simp [hnone])) (program_extracted hw h)

end Check
end Unroll
