import Unroll.Proofs.Check.Kept
/-!
# The depths of expansions

An expansion that has no depth yet takes it from the templates around its place; from then on it keeps it, through
substitution and through every further check.  So an instance has the depths of the tree that it was made from: those
of its template, one deeper than the expansions stand, or, where the template had not been checked to its end, those
that it is given in the check of the instance itself.
-/
namespace Unroll

mutual

/-- **Every expansion has the depth that it stands at**, where the statement stands at the given one.  It may also have
none yet, where `fresh` says so. -/
def Stmt.Numbered (fresh : Prop) (d : Nat) : Stmt → Prop
  | .cond _ _ yes none => yes.Numbered fresh d
  | .cond _ _ yes (some no) => yes.Numbered fresh d ∧ no.Numbered fresh d
  | .loop _ _ body => body.Numbered fresh d
  | .expand x => x.Numbered fresh d
  | _ => True

def Stmt.AllNumbered (fresh : Prop) (d : Nat) : List Stmt → Prop
  | [] => True
  | s :: ss => s.Numbered fresh d ∧ Stmt.AllNumbered fresh d ss

def Block.Numbered (fresh : Prop) (d : Nat) : Block → Prop
  | ⟨_, ss⟩ => Stmt.AllNumbered fresh d ss

/-- What is inside stands one deeper, in the body and in each of its copies. -/
def Expansion.Numbered (fresh : Prop) (d : Nat) : Expansion → Prop
  | ⟨_, _, _, _, _, body, depth, state⟩ =>
    (depth = some d ∨ fresh ∧ depth = none) ∧ body.Numbered fresh (d + 1) ∧ state.Numbered fresh (d + 1)

def Unrolling.Numbered (fresh : Prop) (d : Nat) : Unrolling → Prop
  | .unrolled _ copies => Copy.AllNumbered fresh d copies
  | _ => True

def Copy.AllNumbered (fresh : Prop) (d : Nat) : List Copy → Prop
  | [] => True
  | ⟨_, body⟩ :: cs => body.Numbered fresh d ∧ Copy.AllNumbered fresh d cs

end

/-- No expansion has a depth yet. -/
def Block.Unnumbered (b : Block) : Prop := ∀ d, b.Numbered True d

/-- All expansions have depths, which go up by one from an expansion to what is inside. -/
abbrev CellDef.NumberedFrom (d : Nat) (c : CellDef) : Prop := c.body.Numbered False d

/-- A generic cell has no depths yet, or those that its check has given it, under its own parameters. -/
def CellDef.GenericNumbered (c : CellDef) : Prop := c.body.Unnumbered ∨ c.NumberedFrom 1

/-- An instance has the depths of the tree that it was made from. -/
def CellDef.InstanceNumbered (c : CellDef) : Prop := c.NumberedFrom 0 ∨ c.NumberedFrom 1

namespace Check

open CheckM Outcome Checker

/-! ## Substitution -/

section

variable {ls : ArgLevels} {fresh : Prop}

mutual

theorem subst_stmt_numbered : ∀ {x r : Stmt} {d : Nat}, Subst.stmt ls x = .ok r → x.Numbered fresh d → r.Numbered fresh d
  | .typeAlias _ _ _ _, r, d, h, hx | .trait _ _, r, d, h, hx | .cell _, r, d, h, hx | .leave _, r, d, h, hx
  | .next _, r, d, h, hx => by
    simp only [Subst.stmt, Except.ok.injEq] at h
    exact h ▸ hx
  | .record _, r, d, h, hx | .assign _ _ _, r, d, h, hx | .give _ _, r, d, h, hx | .assert _ _, r, d, h, hx => by
    simp only [Subst.stmt, except_bind_ok, except_pure_ok] at h
    obtain ⟨_, -, rfl⟩ := h
    exact hx
  | .val _, r, d, h, hx | .expr _, r, d, h, hx => by
    simp only [Subst.stmt, except_map_ok] at h
    obtain ⟨_, -, rfl⟩ := h
    exact hx
  | .cond _ _ yes none, r, d, h, hx => by
    simp only [Subst.stmt, except_bind_ok, except_pure_ok] at h
    obtain ⟨_, -, _, hy, rfl⟩ := h
    exact subst_block_numbered hy hx
  | .cond _ _ yes (some no), r, d, h, hx => by
    simp only [Subst.stmt, except_bind_ok, except_pure_ok] at h
    obtain ⟨_, -, _, hy, _, hn, rfl⟩ := h
    exact ⟨subst_block_numbered hy hx.1, subst_block_numbered hn hx.2⟩
  | .loop _ _ body, r, d, h, hx => by
    simp only [Subst.stmt, except_bind_ok, except_pure_ok] at h
    obtain ⟨_, -, _, hb, rfl⟩ := h
    exact subst_block_numbered hb hx
  | .expand ⟨_, _, _, _, _, body, depth, _⟩, r, d, h, hx => by
    simp only [Subst.stmt, Subst.expansion, except_map_ok, except_bind_ok, except_pure_ok] at h
    obtain ⟨_, ⟨_, -, _, -, _, -, _, hb, rfl⟩, rfl⟩ := h
    exact ⟨hx.1, subst_block_numbered hb hx.2.1, trivial⟩

theorem subst_stmts_numbered : ∀ {xs rs : List Stmt} {d : Nat}, Subst.stmts ls xs = .ok rs →
    Stmt.AllNumbered fresh d xs → Stmt.AllNumbered fresh d rs
  | [], rs, d, h, _ => by
    simp only [Subst.stmts, Except.ok.injEq] at h
    exact h ▸ trivial
  | x :: xs, rs, d, h, hx => by
    simp only [Subst.stmts, except_bind_ok, except_pure_ok] at h
    obtain ⟨_, hr, _, hrs, rfl⟩ := h
    exact ⟨subst_stmt_numbered hr hx.1, subst_stmts_numbered hrs hx.2⟩

/-- **Substitution leaves the depths alone.** -/
theorem subst_block_numbered : ∀ {b r : Block} {d : Nat}, Subst.block ls b = .ok r → b.Numbered fresh d → r.Numbered fresh d
  | ⟨_, ss⟩, r, d, h, hb => by
    simp only [Subst.block, except_bind_ok, except_pure_ok] at h
    obtain ⟨_, hs, rfl⟩ := h
    exact subst_stmts_numbered hs hb

end

theorem subst_cell_numbered {c r : CellDef} {name : String} {d : Nat} (h : Subst.cell ls c name = .ok r)
    (hc : c.body.Numbered fresh d) : r.body.Numbered fresh d := by
  simp only [Subst.cell, except_bind_ok, except_pure_ok] at h
  obtain ⟨_, -, _, -, _, hb, rfl⟩ := h
  exact subst_block_numbered hb hc

end

/-! ## Statements -/

/-- **What is one level down numbers the expansions that have no depth yet**, and leaves the others. -/
def Deeper.Numbers (deeper : Deeper) : Prop := ∀ {fresh : Prop} {d : Nat} {x r : Stmt} {s s' : Checker},
  deeper.stmt x s = .ok r s' → x.Numbered fresh d → (fresh → s.place.templates.length = d) → r.Numbered False d

variable {deeper : Deeper} {fresh : Prop} {d : Nat} {s s' : Checker}

theorem mapM_numbered (hn : deeper.Numbers) : ∀ {xs rs : List Stmt} {s s' : Checker}, xs.mapM deeper.stmt s = .ok rs s' →
    Stmt.AllNumbered False d xs → Stmt.AllNumbered False d rs
  | [], rs, s, s', h, _ => by
    simp only [List.mapM_nil, pure_ok] at h
    exact h.1 ▸ trivial
  | x :: xs, rs, s, s', h, hx => by
    simp only [List.mapM_cons, bind_ok, pure_ok] at h
    obtain ⟨_, t, hr, _, _, hrs, rfl, rfl⟩ := h
    exact ⟨hn hr hx.1 False.elim, mapM_numbered hn hrs hx.2⟩

theorem copiesFrom_numbered (hn : deeper.Numbers) {template : Block} {index : IndexParam} {keyword : Span}
    (ht : template.Numbered False d) : ∀ {left i : Nat} {s s' : Checker} {cs : List Copy},
      copiesFrom (copyAt deeper template index keyword) left i s = .ok cs s' → Copy.AllNumbered False d cs
  | 0, i, s, s', cs, h => by
    simp only [copiesFrom, pure_ok] at h
    exact h.1 ▸ trivial
  | left + 1, i, s, s', cs, h => by
    simp only [copiesFrom, bind_ok, pure_ok] at h
    obtain ⟨c, t, hc, _, _, hcs, rfl, rfl⟩ := h
    obtain ⟨body, u, news, hb, rfl, -, -⟩ := copyAt_ok hc
    obtain ⟨fr, ⟨_, _⟩, ss, v, -, hsub, hss, rfl, -⟩ := instantiateBlock_ok hb
    exact ⟨mapM_numbered hn hss (subst_block_numbered hsub ht), copiesFrom_numbered hn ht hcs⟩

/-- **An expansion takes its depth from the templates around it**, if it has none, and its body stands one deeper. -/
theorem expansion_numbered (hd : deeper.Orderly) (hn : deeper.Numbers) {span keyword bsp : Span} {init : Option Init}
    {var : LoopVar} {range : Expr} {ss : List Stmt} {depth : Option Nat} {state : Unrolling}
    (hdepth : depth = some d ∨ fresh ∧ depth = none) (hplace : fresh → s.place.templates.length = d)
    (hbody : ∀ {s s' : Checker} {r : List Stmt}, stmts deeper ss s = .ok r s' →
      (fresh → s.place.templates.length = d + 1) → Stmt.AllNumbered False (d + 1) r)
    {r : Expansion} (h : expansion deeper ⟨span, keyword, init, var, range, ⟨bsp, ss⟩, depth, state⟩ s = .ok r s') :
    r.Numbered False d := by
  simp only [expansion, bind_ok] at h
  obtain ⟨p, t, hp, hx⟩ := h
  obtain ⟨init', u, range', type, hi, hr, rfl⟩ := beginExpansion_ok hp
  obtain ⟨walk, v, var', ss', w, state', z, -, hb, ht, hu, rfl, -⟩ := finishExpansion_ok hx
  obtain ⟨y, _, hv, hss, -⟩ := templateOf_ok ht
  have hindex : depth.getD s.place.templates.length = d := by
    obtain rfl | ⟨hf, rfl⟩ := hdepth
    · rfl
    · exact hplace hf
  have hhead : v.place.templates = s.place.templates :=
    ((((initStmt_moves hd hi).trans (rangeExpr_steady hd hr).moves).trans (bindRange_moves hb)).2).templates
  have hin : y.place.templates.length = s.place.templates.length + 1 := by
    rw [(valDecl_moves hd hv).2.templates, ← hhead]
    rfl
  have hss' := hbody hss fun hf => by rw [hin, hplace hf]
  refine ⟨.inl (congrArg some hindex), hss', ?_⟩
  obtain ⟨-, rfl, -⟩ | ⟨-, rfl, -⟩ | ⟨n, cs, -, rfl, hcs⟩ := unrolling_ok hu
  · trivial
  · trivial
  · have htemplate : Block.Numbered False (d + 1) ⟨bsp, .val var' :: ss'⟩ := ⟨trivial, hss'⟩
    exact copiesFrom_numbered hn htemplate hcs

mutual

theorem stmt_numbered (hd : deeper.Orderly) (hn : deeper.Numbers) : ∀ {x : Stmt} {d : Nat} {s s' : Checker} {r : Stmt},
    stmt deeper x s = .ok r s' → x.Numbered fresh d → (fresh → s.place.templates.length = d) → r.Numbered False d
  | .typeAlias _ _ _ _, d, s, s', r, h, _, _ | .trait _ _, d, s, s', r, h, _, _ | .cell _, d, s, s', r, h, _, _ => by
    simp only [stmt] at h
    exact absurd h fail_ok
  | .record _, d, s, s', r, h, _, _ => by
    simp only [stmt, bind_ok, pure_ok] at h
    obtain ⟨_, _, -, rfl, -⟩ := h
    trivial
  | .val _, d, s, s', r, h, _, _ => by
    simp only [stmt, map_ok] at h
    obtain ⟨_, -, rfl⟩ := h
    trivial
  | .assign _ _ _, d, s, s', r, h, _, _ => by
    obtain ⟨_, _, _, -, -, -, -, rfl⟩ := assignment_ok (by simpa only [stmt] using h)
    trivial
  | .cond sp c yes none, d, s, s', r, h, hx, hp => by
    simp only [stmt, bind_ok, pure_ok] at h
    obtain ⟨_, t, hc, _, _, hy, rfl, rfl⟩ := h
    exact block_numbered hd hn hy hx fun hf => (condition_steady hd hc).2 ▸ hp hf
  | .cond sp c yes (some no), d, s, s', r, h, hx, hp => by
    simp only [stmt, bind_ok, pure_ok] at h
    obtain ⟨_, t, hc, _, u, hy, _, _, hno, rfl, rfl⟩ := h
    have ht : fresh → t.place.templates.length = d := fun hf => (condition_steady hd hc).2 ▸ hp hf
    refine ⟨block_numbered hd hn hy hx.1 ht, block_numbered hd hn hno hx.2 fun hf => ?_⟩
    rw [(block_leaves hd hy).2.1.templates, ht hf]
  | .loop sp c ⟨bsp, ss⟩, d, s, s', r, h, hx, hp => by
    simp only [stmt, bind_ok, pure_ok] at h
    obtain ⟨_, t, hc, b, _, hb, rfl, rfl⟩ := h
    obtain ⟨u, hin, rfl⟩ := loopBodyWith_ok hb
    obtain ⟨ss', v, hss, rfl, -⟩ := blockWith_ok hin
    refine stmts_numbered hd hn hss hx fun hf => ?_
    show t.place.templates.length = d
    rw [(condition_steady hd hc).2, hp hf]
  | .expand ⟨span, keyword, init, var, range, ⟨bsp, ss⟩, depth, state⟩, d, s, s', r, h, hx, hp => by
    simp only [stmt, map_ok] at h
    obtain ⟨x, he, rfl⟩ := h
    exact expansion_numbered hd hn hx.1 hp (fun hss hin => stmts_numbered hd hn hss hx.2.1 hin) he
  | .leave _, d, s, s', r, h, _, _ | .next _, d, s, s', r, h, _, _ => by
    obtain ⟨-, -, rfl⟩ := jump_ok (by simpa only [stmt] using h)
    trivial
  | .give _ _, d, s, s', r, h, _, _ => by
    obtain ⟨_, _, _, -, -, -, rfl⟩ | ⟨-, -, rfl, -⟩ := giveBack_ok (by simpa only [stmt] using h)
    · trivial
    · trivial
  | .assert _ _, d, s, s', r, h, _, _ => by
    obtain ⟨_, -, rfl⟩ := assertion_ok (by simpa only [stmt] using h)
    trivial
  | .expr _, d, s, s', r, h, _, _ => by
    simp only [stmt, bind_ok, pure_ok] at h
    obtain ⟨_, _, -, rfl, -⟩ := h
    trivial

theorem stmts_numbered (hd : deeper.Orderly) (hn : deeper.Numbers) : ∀ {xs : List Stmt} {d : Nat} {s s' : Checker}
    {r : List Stmt}, stmts deeper xs s = .ok r s' → Stmt.AllNumbered fresh d xs →
      (fresh → s.place.templates.length = d) → Stmt.AllNumbered False d r
  | [], d, s, s', r, h, _, _ => by
    simp only [stmts, pure_ok] at h
    exact h.1 ▸ trivial
  | x :: xs, d, s, s', r, h, hx, hp => by
    simp only [stmts, bind_ok, pure_ok] at h
    obtain ⟨_, t, hr, _, _, hrs, rfl, rfl⟩ := h
    refine ⟨stmt_numbered hd hn hr hx.1 hp, stmts_numbered hd hn hrs hx.2 fun hf => ?_⟩
    rw [(stmt_moves hd hr).2.templates, hp hf]

theorem block_numbered (hd : deeper.Orderly) (hn : deeper.Numbers) : ∀ {b : Block} {d : Nat} {s s' : Checker} {r : Block},
    block deeper b s = .ok r s' → b.Numbered fresh d → (fresh → s.place.templates.length = d) → r.Numbered False d
  | ⟨sp, ss⟩, d, s, s', r, h, hb, hp => by
    simp only [block] at h
    obtain ⟨ss', t, hss, rfl, -⟩ := blockWith_ok h
    exact stmts_numbered hd hn hss hb hp

end

theorem levels_numbers : ∀ n : Nat, (levels n).Numbers
  | 0 => fun h => absurd h fail_ok
  | n + 1 => fun h hx hp => stmt_numbered (levels_orderly n) (levels_numbers n) h hx hp

/-! ## Cells -/

theorem cellStmts_numbered {n : Nat} : ∀ {xs : List Stmt} {s s' : Checker} {r : List Stmt},
    cellStmts (levels n) xs s = .ok r s' → Stmt.AllNumbered fresh d xs → (fresh → s.place.templates.length = d) →
      Stmt.AllNumbered False d r
  | [], s, s', r, h, _, _ => by
    simp only [cellStmts, pure_ok] at h
    exact h.1 ▸ trivial
  | x :: xs, s, s', r, h, hx, hp => by
    simp only [cellStmts_cons, bind_ok, pure_ok] at h
    obtain ⟨checked, t, hc, rest, _, hrest, rfl, rfl⟩ := h
    have hplace := ((recovered_keeps (T := PutBack) (stmtAt_keeps n) x).ok hc).place
    have hrest' := cellStmts_numbered hrest hx.2 fun hf => by rw [hplace.templates, hp hf]
    cases checked with
    | none => exact hrest'
    | some x' => exact ⟨levels_numbers n (recovered_some hc) hx.1 hp, hrest'⟩

/-- **A cell is numbered from the templates around it.** -/
theorem cellBody_numbered {n : Nat} {c r : CellDef} {sig : CellSig} (h : cellBody (levels n) c sig s = .ok r s')
    (hc : c.body.Numbered fresh d) (hp : fresh → s.place.templates.length = d) : r.NumberedFrom d := by
  obtain ⟨t, ss, hparams, hss, rfl⟩ := cellBody_ok h
  obtain ⟨_, _, _, _, _, ⟨_, _⟩⟩ := c
  refine cellStmts_numbered hss hc fun hf => ?_
  show t.place.templates.length = d
  rw [(defineParams_moves hparams).2.templates, ← hp hf]
  rfl

instance (k : Config) : CellLaw k CellDef.GenericNumbered CellDef.InstanceNumbered where
  template _ hg hc := by
    rcases hg with hraw | hdone
    · exact .inr (cellBody_numbered hc (hraw 1) fun _ => rfl)
    · exact .inr (cellBody_numbered hc hdone False.elim)
  made _ hg hsub hc := by
    rcases hg with hraw | hdone
    · exact .inl (cellBody_numbered hc (subst_cell_numbered hsub (hraw 0)) fun _ => rfl)
    · exact .inr (cellBody_numbered hc (subst_cell_numbered hsub hdone) False.elim)

/-- **The depths in a program that passes** count the expansions around, from nothing in a concrete cell.  In an instance
they count from nothing or from one, and from the same in all of it. -/
theorem program_numbered {p : Program} {k : Config} {checked : CheckedProgram} {last : Checker}
    (hw : ∀ x ∈ p, x.Written) (hp : ∀ c, .cell c ∈ p → c.body.Unnumbered)
    (h : Check.program p (.new k) = .ok checked last) :
    (∀ c, .cell c ∈ checked.program → c.params = [] → c.NumberedFrom 0) ∧
      ∀ c ∈ checked.instances, c.NumberedFrom 0 ∨ c.NumberedFrom 1 := by
  obtain ⟨hcells, hinstances⟩ := program_kept (G := CellDef.GenericNumbered) (I := CellDef.InstanceNumbered) hw
    (fun c hc => .inl (hp c hc)) h
  refine ⟨fun c hc hpar => ?_, hinstances⟩
  obtain ⟨c₀, n, sig, s, t, hc₀, -, -, hplace, hbody⟩ := hcells c hc hpar
  exact cellBody_numbered hbody (hp c₀ hc₀ 0) fun _ => congrArg List.length hplace

/-- A cell `f<T>(x: T)` that calls `f::<int>(1)` and has an expansion. -/
def expanding : Stmt :=
  match asking "f" with
  | .cell c => .cell { c with body := { c.body with stmts := c.body.stmts ++
      [.expand ⟨nowhere, nowhere, none, ⟨nowhere, bareName "y", false, none⟩, .list nowhere [.int nowhere 1],
        ⟨nowhere, []⟩, none, .pending⟩] } }
  | x => x

/-- The depths of the expansions directly in a cell. -/
def outermostDepths (c : CellDef) : List (Option Nat) :=
  c.body.stmts.filterMap fun
    | .expand x => some x.depth
    | _ => none

/-- The instance that is asked for before the template has been checked to its end has its own depths. -/
example : (Program.check [expanding] .standard).toOption.map (fun c => (c.templates ++ c.instances).map outermostDepths) =
    some [[some 1], [some 0]] := by decide +kernel

end Check
end Unroll
