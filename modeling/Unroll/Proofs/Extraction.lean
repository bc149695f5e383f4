import Unroll.Proofs.Check.TypedStmt
import Unroll.Proofs.Outline
/-!
# Elements taken out one after another

What runs of an expansion is its head and its copies.  There is one copy for each element, in order, and each begins
with the declaration of the iteration variable as its element: an item of a list, an element of an array, or a member of
a record.  Nothing that runs selects by an index that is yet to be filled in.
-/
namespace Unroll

/-! ## Direct expressions -/

mutual

/-- No element is selected by an index that is yet to be filled in, and no name is that of an index.  Template arguments
are not part of what runs. -/
def Expr.Direct : Expr → Prop
  | .name _ id => ∀ d, id.name ≠ Check.indexName d
  | .int _ _ | .char _ _ | .bool _ _ | .text _ _ => True
  | .list _ items | .array _ items => Expr.AllDirect items
  | .record _ _ fs => Expr.FieldsDirect fs
  | .unary _ _ e | .member _ e _ => e.Direct
  | .binary _ l _ r | .index _ l r => l.Direct ∧ r.Direct
  | .call _ _ _ args => Expr.AllDirect args
  | .listSelect _ _ _ | .memberSelect _ _ _ _ => False

def Expr.AllDirect : List Expr → Prop
  | [] => True
  | e :: es => e.Direct ∧ Expr.AllDirect es

def Expr.FieldsDirect : List (Ident × Expr) → Prop
  | [] => True
  | (_, e) :: fs => e.Direct ∧ Expr.FieldsDirect fs

end

def Init.Direct : Option Init → Prop
  | none => True
  | some (.val d) => d.expr.Direct
  | some (.expr e) => e.Direct

mutual

/-- The outline is direct where the expression is. -/
theorem Expr.outline_direct : ∀ e : Expr, e.outline.Direct ↔ e.Direct
  | .name _ _ | .int _ _ | .char _ _ | .bool _ _ | .text _ _ | .listSelect _ _ _ | .memberSelect _ _ _ _ => .rfl
  | .list _ items | .array _ items => Expr.outlines_direct items
  | .record _ _ fs => Expr.fieldOutlines_direct fs
  | .unary _ _ e | .member _ e _ => Expr.outline_direct e
  | .binary _ l _ r | .index _ l r => and_congr (Expr.outline_direct l) (Expr.outline_direct r)
  | .call _ _ _ args => Expr.outlines_direct args
termination_by structural e => e

theorem Expr.outlines_direct : ∀ es : List Expr, Expr.AllDirect (Expr.outlines es) ↔ Expr.AllDirect es
  | [] => .rfl
  | e :: es => and_congr (Expr.outline_direct e) (Expr.outlines_direct es)
termination_by structural es => es

theorem Expr.fieldOutlines_direct : ∀ fs : List (Ident × Expr), Expr.FieldsDirect (Expr.fieldOutlines fs) ↔ Expr.FieldsDirect fs
  | [] => .rfl
  | (_, e) :: fs => and_congr (Expr.outline_direct e) (Expr.fieldOutlines_direct fs)
termination_by structural fs => fs

end

theorem Expr.Direct.of_outline {e r : Expr} (h : e.Direct) (hout : r.outline = e.outline) : r.Direct :=
  (Expr.outline_direct r).1 (hout ▸ (Expr.outline_direct e).2 h)

theorem Check.indexName_not_worded (d : Nat) : ¬ Worded (indexName d) := by
  intro h
  refine h.notMem (c := '.') (by decide) ?_
  unfold indexName
  rw [String.toList_append]
  exact List.mem_append_left _ (by decide)

theorem Worded.ne_indexName {n : String} (h : Worded n) (d : Nat) : n ≠ Check.indexName d := by
  rintro rfl
  exact Check.indexName_not_worded d h

mutual

theorem Expr.Written.direct : ∀ {e : Expr}, e.Written → e.Direct
  | .int _ _, _ | .char _ _, _ | .bool _ _, _ | .text _ _, _ => trivial
  | .name _ _, h => Worded.ne_indexName h
  | .list _ _, h | .array _ _, h => Expr.AllWritten.direct h
  | .record _ _ _, h => Expr.FieldsWritten.direct h.2
  | .unary _ _ e, h | .member _ e _, h => Expr.Written.direct (e := e) h
  | .binary _ _ _ _, h | .index _ _ _, h => ⟨Expr.Written.direct h.1, Expr.Written.direct h.2⟩
  | .call _ _ _ _, h => Expr.AllWritten.direct h.2.2
termination_by structural e => e

theorem Expr.AllWritten.direct : ∀ {es : List Expr}, Expr.AllWritten es → Expr.AllDirect es
  | [], _ => trivial
  | _ :: _, h => ⟨Expr.Written.direct h.1, Expr.AllWritten.direct h.2⟩
termination_by structural es => es

theorem Expr.FieldsWritten.direct : ∀ {fs : List (Ident × Expr)}, Expr.FieldsWritten fs → Expr.FieldsDirect fs
  | [], _ => trivial
  | _ :: _, h => ⟨Expr.Written.direct h.1, Expr.FieldsWritten.direct h.2⟩
termination_by structural fs => fs

end

theorem Expr.direct_of_outline {e : Expr} (h : e.outline.Written) : e.Direct := (Expr.outline_direct e).1 h.direct

theorem Expr.allDirect_item {es : List Expr} {i : Nat} {e : Expr} (hi : es[i]? = some e) (h : Expr.AllDirect es) :
    e.Direct := by
  induction es generalizing i with
  | nil => cases hi
  | cons e es ih =>
    cases i with
    | zero =>
      cases hi
      exact h.1
    | succ i => exact ih hi h.2

theorem Init.outline_direct : ∀ i : Option Init, Init.Direct (Init.outline i) ↔ Init.Direct i
  | none => .rfl
  | some (.val d) => Expr.outline_direct d.expr
  | some (.expr e) => Expr.outline_direct e

theorem Init.Direct.of_outline {i r : Option Init} (h : Init.Direct i) (hout : Init.outline r = Init.outline i) :
    Init.Direct r :=
  (Init.outline_direct r).1 (hout ▸ (Init.outline_direct i).2 h)

/-! ## Statements that are to be checked -/

mutual

/-- Every expression in the statement is direct.  What expansions have been replaced by does not count. -/
def Stmt.Direct : Stmt → Prop
  | .val d => d.expr.Direct
  | .assign _ _ e | .give _ (some e) | .assert _ e | .expr e => e.Direct
  | .cond _ c yes none => c.Direct ∧ yes.Direct
  | .cond _ c yes (some no) => c.Direct ∧ yes.Direct ∧ no.Direct
  | .loop _ c body => c.Direct ∧ body.Direct
  | .expand x => x.Direct
  | .typeAlias _ _ _ _ | .trait _ _ | .record _ | .cell _ | .leave _ | .next _ | .give _ none => True

def Stmt.AllDirect : List Stmt → Prop
  | [] => True
  | s :: ss => s.Direct ∧ Stmt.AllDirect ss

def Block.Direct : Block → Prop
  | ⟨_, ss⟩ => Stmt.AllDirect ss

def Expansion.Direct : Expansion → Prop
  | ⟨_, _, init, _, range, body, _, _⟩ => Init.Direct init ∧ range.Direct ∧ body.Direct

end

theorem Init.Written.direct : ∀ {i : Option Init}, Init.Written i → Init.Direct i
  | none, _ => trivial
  | some (.val _), h => h.expr.direct
  | some (.expr _), h => Expr.Written.direct h

theorem Init.direct_of_outline : ∀ {i : Option Init}, Init.Written (Init.outline i) → Init.Direct i
  | none, _ => trivial
  | some (.val _), h => Expr.direct_of_outline h.expr
  | some (.expr _), h => Expr.direct_of_outline h

mutual

theorem Stmt.Written.direct : ∀ {s : Stmt}, s.Written → s.Direct
  | .typeAlias _ _ _ _, _ | .trait _ _, _ | .record _, _ | .cell _, _ | .leave _, _ | .next _, _ | .give _ none, _ => trivial
  | .val _, h => h.expr.direct
  | .assign _ _ _, h => h.2.direct
  | .give _ (some e), h | .assert _ e, h | .expr e, h => Expr.Written.direct (e := e) h
  | .cond _ _ _ none, h => ⟨h.1.direct, Block.Written.direct h.2⟩
  | .cond _ _ _ (some _), h => ⟨h.1.direct, Block.Written.direct h.2.1, Block.Written.direct h.2.2⟩
  | .loop _ _ _, h => ⟨h.1.direct, Block.Written.direct h.2⟩
  | .expand x, h => Expansion.Written.direct (x := x) h

theorem Stmt.AllWritten.direct : ∀ {ss : List Stmt}, Stmt.AllWritten ss → Stmt.AllDirect ss
  | [], _ => trivial
  | _ :: _, h => ⟨Stmt.Written.direct h.1, Stmt.AllWritten.direct h.2⟩

theorem Block.Written.direct : ∀ {b : Block}, b.Written → b.Direct
  | ⟨_, ss⟩, h => @Stmt.AllWritten.direct ss h

theorem Expansion.Written.direct : ∀ {x : Expansion}, x.Written → x.Direct
  | ⟨_, _, _, _, _, _, _, _⟩, h => ⟨Init.Written.direct h.1, h.2.2.1.direct, Block.Written.direct h.2.2.2⟩

end

theorem CellDef.Written.direct {c : CellDef} (h : c.Written) : c.body.Direct := by
  obtain ⟨_, _, _, _, _, _⟩ := c
  exact Block.Written.direct h.2.2.2

/-! ## What runs -/

mutual

/-- **Every expression that runs is direct, and every expansion that runs is of the given kind.** -/
def Stmt.Runs (X : Expansion → Prop) : Stmt → Prop
  | .val d => d.expr.Direct
  | .assign _ _ e | .give _ (some e) | .assert _ e | .expr e => e.Direct
  | .cond _ c yes none => c.Direct ∧ yes.Runs X
  | .cond _ c yes (some no) => c.Direct ∧ yes.Runs X ∧ no.Runs X
  | .loop _ c body => c.Direct ∧ body.Runs X
  | .expand x => x.Runs X
  | .typeAlias _ _ _ _ | .trait _ _ | .record _ | .cell _ | .leave _ | .next _ | .give _ none => True

def Stmt.AllRun (X : Expansion → Prop) : List Stmt → Prop
  | [] => True
  | s :: ss => s.Runs X ∧ Stmt.AllRun X ss

def Block.Runs (X : Expansion → Prop) : Block → Prop
  | ⟨_, ss⟩ => Stmt.AllRun X ss

/-- The body of an expansion does not run, its copies do. -/
def Expansion.Runs (X : Expansion → Prop) : Expansion → Prop
  | ⟨sp, keyword, init, var, range, body, depth, state⟩ =>
    X ⟨sp, keyword, init, var, range, body, depth, state⟩ ∧ Init.Direct init ∧ range.Direct ∧ state.Runs X

def Unrolling.Runs (X : Expansion → Prop) : Unrolling → Prop
  | .unrolled _ copies => Copy.AllRun X copies
  | .pending | .deferred | .empty => True

def Copy.AllRun (X : Expansion → Prop) : List Copy → Prop
  | [] => True
  | ⟨_, body⟩ :: cs => body.Runs X ∧ Copy.AllRun X cs

end

/-! ## Elements -/

namespace Elements

/-- The elements are those of the range: a list stays where it is, and anything else is bound to the hidden name of the
depth. -/
inductive Of (range : Expr) (depth : Nat) : Elements → Option ValDecl → Prop
  | list {sp items} : range = .list sp items → Of range depth (.list items.length) none
  | array {b n} : (∀ sp items, range ≠ .list sp items) → b.name.name = Check.rangeName depth → b.expr = range →
      Of range depth (.array (Check.rangeName depth) n) (some b)
  | members {b names} : (∀ sp items, range ≠ .list sp items) → b.name.name = Check.rangeName depth → b.expr = range →
      Of range depth (.members (Check.rangeName depth) names) (some b)

/-- What the iteration variable is in the copy with the index: the item of the list, up to what elaboration changes, or
else a selection. -/
def Initial (els : Elements) (range : Expr) (i : Nat) (e : Expr) : Prop :=
  els.Selects i e ∧ ∀ sp items, range = .list sp items → (items[i]?).map Expr.outline = some e.outline

theorem Initial.direct {els : Elements} {range e : Expr} {depth i : Nat} {b : Option ValDecl} (h : els.Initial range i e)
    (hels : els.Of range depth b) (hr : range.Direct) : e.Direct := by
  cases hels with
  | @list sp items hlist =>
    subst hlist
    obtain ⟨e₀, hitem, hout⟩ := Option.map_eq_some_iff.1 (h.2 sp items rfl)
    exact (Expr.allDirect_item hitem hr).of_outline hout.symm
  | array =>
    obtain ⟨_, _, _, id, rfl, hid⟩ := h.1
    refine ⟨fun d => ?_, trivial⟩
    rw [hid]
    exact Check.rangeName_ne _ d
  | members =>
    obtain ⟨_, _, id, _, rfl, hid, -⟩ := h.1
    show ∀ d, id.name ≠ _
    rw [hid]
    exact Check.rangeName_ne _

end Elements

/-- The copies from the one with the index on: each has its index, and begins with the declaration of the iteration
variable as its element. -/
inductive InOrder (var : LoopVar) (range : Expr) (els : Elements) : Nat → List Copy → Prop
  | nil {i} : InOrder var range els i []
  | cons {i sp d ss cs} : d.name = var.name → d.mutable = var.mutable → els.Initial range i d.expr →
      InOrder var range els (i + 1) cs → InOrder var range els i (⟨i, ⟨sp, .val d :: ss⟩⟩ :: cs)

theorem InOrder.indices {var : LoopVar} {range : Expr} {els : Elements} {i : Nat} {cs : List Copy}
    (h : InOrder var range els i cs) : cs.map (·.index) = List.range' i cs.length := by
  induction h with
  | nil => rfl
  | cons _ _ _ _ ih => simp [ih, List.range'_succ]

/-- **The elements of the range have been taken out, one after another**, as many as there are and no more than the
limit. -/
structure Extracted (limit : Nat) (els : Elements) (x : Expansion) : Prop where
  within : els.count ≤ limit
  taken : ∃ d b, x.depth = some d ∧ els.Of x.range d b ∧
    (els.count = 0 ∧ x.state = .empty ∨
      ∃ cs, 0 < els.count ∧ cs.length = els.count ∧ x.state = .unrolled b cs ∧ InOrder x.var x.range els 0 cs)

namespace Extracted

variable {limit : Nat} {els : Elements} {x : Expansion}

theorem empty_iff (h : Extracted limit els x) : x.state = .empty ↔ els.count = 0 := by
  obtain ⟨d, b, -, -, ⟨hcount, hstate⟩ | ⟨cs, hcount, -, hstate, -⟩⟩ := h.taken
  · exact ⟨fun _ => hcount, fun _ => hstate⟩
  · rw [hstate]
    exact iff_of_false (by simp) (Nat.ne_of_gt hcount)

/-- The copies are numbered from nothing on, as many as there are elements. -/
theorem indices (h : Extracted limit els x) : x.state.copies.map (·.index) = List.range els.count := by
  obtain ⟨d, b, -, -, ⟨hcount, hstate⟩ | ⟨cs, -, hlen, hstate, hcopies⟩⟩ := h.taken
  · rw [hstate, hcount]
    rfl
  · rw [hstate, ← hlen, List.range_eq_range']
    exact hcopies.indices

/-- The range is bound where there are copies of an array or of a record. -/
theorem bound_iff (h : Extracted limit els x) {b : Option ValDecl} {cs : List Copy} (hstate : x.state = .unrolled b cs) :
    b.isSome ↔ ∀ sp items, x.range ≠ .list sp items := by
  obtain ⟨d, b', -, hels, ⟨-, hempty⟩ | ⟨cs', -, -, hstate', -⟩⟩ := h.taken
  · rw [hempty] at hstate
    cases hstate
  · rw [hstate] at hstate'
    cases hstate'
    cases hels with
    | list hlist => exact iff_of_false (by simp) fun h => h _ _ hlist
    | array hne | members hne => exact iff_of_true rfl hne

end Extracted

/-- An expansion whose elements have been taken out, or one that waits for a parameter further out. -/
def Expansion.Settles (limit : Nat) (x : Expansion) : Prop := x.state = .deferred ∨ ∃ els, Extracted limit els x

/-! ## Where what runs is well typed -/

/-- The elements that have been taken out are those that the type of the range tells. -/
def Expansion.Taken (g : Globals) (limit : Nat) (x : Expansion) : Prop :=
  ∃ Γ b Γ' els, RangeTyped g Γ x.range b Γ' els ∧ Extracted limit els x

section

variable {g : Globals} {limit : Nat}

theorem RangeTyped.not_list {Γ Γ' : Scope} {range : Expr} {b : ValDecl} {els : Elements}
    (h : RangeTyped g Γ range (some b) Γ' els) (sp : Span) (items : List Expr) : range ≠ .list sp items := by
  rintro rfl
  cases h with
  | array _ ht | members _ ht => cases ht

/-- The hidden name may be that of any depth, as long as nothing has been read by it. -/
theorem RangeTyped.at_depth {Γ Γ' : Scope} {range : Expr} {b : Option ValDecl} {els : Elements}
    (h : RangeTyped g Γ range b Γ' els) (d : Nat) :
    ∃ b' Γ'' els', RangeTyped g Γ range b' Γ'' els' ∧ els'.Of range d b' ∧ els'.count = els.count := by
  cases h with
  | list hlist => exact ⟨none, Γ, _, .list hlist, .list hlist, rfl⟩
  | @array b elem n hexpr ht =>
    have hb := RangeTyped.array (b := { b with name := ⟨Check.rangeName d, b.name.span⟩ }) hexpr ht
    exact ⟨_, _, _, hb, .array hb.not_list rfl hexpr, rfl⟩
  | @members b n r hexpr ht hr =>
    have hb := RangeTyped.members (b := { b with name := ⟨Check.rangeName d, b.name.span⟩ }) hexpr ht hr
    exact ⟨_, _, _, hb, .members hb.not_list rfl hexpr, rfl⟩

/-- What is bound to the hidden name of the depth is read by that name. -/
theorem RangeTyped.of {Γ Γ' : Scope} {range : Expr} {b : Option ValDecl} {els els' : Elements} {d : Nat}
    (h : RangeTyped g Γ range b Γ' els') (hels : els.Of range d b) : els'.Of range d b := by
  have hname : ∀ v, b = some v → v.name.name = Check.rangeName d := by
    rintro v rfl
    cases hels with
    | array _ hname _ | members _ hname _ => exact hname
  cases h with
  | list hlist => exact .list hlist
  | @array b elem n hexpr ht =>
    have hb := RangeTyped.array hexpr ht
    rw [hname b rfl]
    exact .array hb.not_list (hname b rfl) hexpr
  | @members b n r hexpr ht hr =>
    have hb := RangeTyped.members hexpr ht hr
    rw [hname b rfl]
    exact .members hb.not_list (hname b rfl) hexpr

/-- Copies that are well typed select what their types say. -/
theorem InOrder.typed {var : LoopVar} {range : Expr} {els els' : Elements} {i : Nat} {cs : List Copy}
    (h : InOrder var range els i cs) : ∀ {Γ : Scope}, CopiesTyped g Γ var els' i cs → InOrder var range els' i cs := by
  induction h with
  | nil => exact fun _ => .nil
  | cons hname hmutable hinit _ ih =>
    intro Γ ht
    cases ht with
    | cons _ hselects _ hrest => exact .cons hname hmutable ⟨hselects, hinit.2⟩ (ih hrest)

/-- **An expansion that is well typed has all the elements that the type of its range tells.** -/
theorem Expansion.Settles.taken {Γ : Scope} {x : Expansion} (h : x.Settles limit)
    (ht : UnrollingTyped g Γ x.var x.range x.state) : x.Taken g limit := by
  obtain hdeferred | ⟨els, hwithin, d, b, hdepth, hels, ⟨hzero, hstate⟩ | ⟨cs, hpos, hlen, hstate, hcopies⟩⟩ := h
  · rw [hdeferred] at ht
    cases ht
  · rw [hstate] at ht
    cases ht with
    | empty hrange hcount =>
      obtain ⟨b', Γ'', els', hrange', hof, hsame⟩ := hrange.at_depth d
      have hnone : els'.count = 0 := hsame.trans hcount
      exact ⟨Γ, b', Γ'', els', hrange', hnone ▸ Nat.zero_le _, d, b', hdepth, hof, .inl ⟨hnone, hstate⟩⟩
  · rw [hstate] at ht
    cases ht with
    | @unrolled _ Γ' _ _ _ els' _ hrange hcount hcs =>
      have hsame : els'.count = els.count := hcount.symm.trans hlen
      exact ⟨Γ, b, Γ', els', hrange, hsame ▸ hwithin, d, b, hdepth, hrange.of hels,
        .inr ⟨cs, hsame ▸ hpos, hcount, hstate, hcopies.typed hcs⟩⟩

mutual

theorem Stmt.Runs.taken : ∀ {s : Stmt} {Γ Γ' : Scope}, s.Runs (Expansion.Settles limit) → StmtTyped g Γ s Γ' →
    s.Runs (Expansion.Taken g limit)
  | .typeAlias _ _ _ _, _, _, h, _ | .trait _ _, _, _, h, _ | .record _, _, _, h, _ | .cell _, _, _, h, _
  | .leave _, _, _, h, _ | .next _, _, _, h, _ | .give _ none, _, _, h, _ | .val _, _, _, h, _ | .assign _ _ _, _, _, h, _
  | .give _ (some _), _, _, h, _ | .assert _ _, _, _, h, _ | .expr _, _, _, h, _ => h
  | .cond _ _ _ none, _, _, h, ht => by
    cases ht with
    | cond _ hyes => exact ⟨h.1, Block.Runs.taken h.2 hyes⟩
  | .cond _ _ _ (some _), _, _, h, ht => by
    cases ht with
    | choice _ hyes hno => exact ⟨h.1, Block.Runs.taken h.2.1 hyes, Block.Runs.taken h.2.2 hno⟩
  | .loop _ _ _, _, _, h, ht => by
    cases ht with
    | loop _ hbody => exact ⟨h.1, Block.Runs.taken h.2 hbody⟩
  | .expand ⟨_, _, _, _, _, _, _, _⟩, _, _, h, ht => by
    cases ht with
    | expand _ hstate => exact ⟨h.1.taken hstate, h.2.1, h.2.2.1, Unrolling.Runs.taken h.2.2.2 hstate⟩
termination_by structural s => s

theorem Stmt.AllRun.taken : ∀ {ss : List Stmt} {Γ : Scope}, Stmt.AllRun (Expansion.Settles limit) ss → StmtsTyped g Γ ss →
    Stmt.AllRun (Expansion.Taken g limit) ss
  | [], _, _, _ => trivial
  | _ :: _, _, h, ht => by
    cases ht with
    | cons hs hss => exact ⟨Stmt.Runs.taken h.1 hs, Stmt.AllRun.taken h.2 hss⟩
termination_by structural ss => ss

theorem Block.Runs.taken : ∀ {b : Block} {Γ : Scope}, b.Runs (Expansion.Settles limit) → BlockTyped g Γ b →
    b.Runs (Expansion.Taken g limit)
  | ⟨_, ss⟩, _, h, ht => by
    cases ht with
    | mk hss =>
      have hruns : Stmt.AllRun (Expansion.Settles limit) ss := h
      exact Stmt.AllRun.taken hruns hss
termination_by structural b => b

theorem Unrolling.Runs.taken : ∀ {u : Unrolling} {Γ : Scope} {var : LoopVar} {range : Expr},
    u.Runs (Expansion.Settles limit) → UnrollingTyped g Γ var range u → u.Runs (Expansion.Taken g limit)
  | .pending, _, _, _, _, _ | .deferred, _, _, _, _, _ | .empty, _, _, _, _, _ => trivial
  | .unrolled _ cs, _, _, _, h, ht => by
    cases ht with
    | unrolled _ _ hcs =>
      have hruns : Copy.AllRun (Expansion.Settles limit) cs := h
      exact Copy.AllRun.taken hruns hcs
termination_by structural u => u

/-- **Where what runs is well typed, no expansion is left as it was.** -/
theorem Copy.AllRun.taken : ∀ {cs : List Copy} {Γ : Scope} {var : LoopVar} {els : Elements} {i : Nat},
    Copy.AllRun (Expansion.Settles limit) cs → CopiesTyped g Γ var els i cs → Copy.AllRun (Expansion.Taken g limit) cs
  | [], _, _, _, _, _, _ => trivial
  | ⟨_, ⟨_, ss⟩⟩ :: _, Γ, _, _, _, h, ht => by
    have hbody : StmtsTyped g Γ.opened.looped ss → Stmt.AllRun (Expansion.Taken g limit) ss := Stmt.AllRun.taken h.1
    cases ht with
    | cons _ _ hss hcs => exact ⟨hbody hss, Copy.AllRun.taken h.2 hcs⟩
termination_by structural cs => cs

end

end

end Unroll
