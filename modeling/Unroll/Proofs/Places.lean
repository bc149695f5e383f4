import Mathlib.Data.List.Basic
import Unroll.Syntax
/-!
# Where the parts of a program stand

A tree without what it says: the place of every node, every name and every written type, each inside the node that it
is part of.  Such a plan is nested if each part lies inside of what it is part of, and the parts of one node follow one
another; then whatever is below a node lies inside of it (`Plan.Nested.has`).
-/
namespace Unroll

namespace Span

def Within (a b : Span) : Prop := b.offset ≤ a.offset ∧ a.stop ≤ b.stop

theorem Within.refl (a : Span) : a.Within a := ⟨Nat.le_refl _, Nat.le_refl _⟩

theorem Within.trans {a b c : Span} (h : a.Within b) (h' : b.Within c) : a.Within c :=
  ⟨Nat.le_trans h'.1 h.1, Nat.le_trans h.2 h'.2⟩

@[simp] theorem join_offset (a b : Span) : (a.join b).offset = min a.offset b.offset := rfl

@[simp] theorem join_stop (a b : Span) : (a.join b).stop = max a.stop b.stop := by
  simp only [join, between, stop]
  omega

theorem offset_le_stop (a : Span) : a.offset ≤ a.stop := Nat.le_add_right _ _

end Span

/-- A place, and what stands inside of it. -/
inductive Plan
  | node (span : Span) (inside : List Plan)

namespace Plan

def span : Plan → Span
  | node s _ => s

def inside : Plan → List Plan
  | node _ ps => ps

def leaf (s : Span) : Plan := .node s []

@[simp] theorem span_node (s : Span) (ps : List Plan) : (node s ps).span = s := rfl

@[simp] theorem span_leaf (s : Span) : (leaf s).span = s := rfl

/-- The part itself, and whatever is below it. -/
inductive Has : Plan → Plan → Prop
  | self {p : Plan} : Has p p
  | deeper {s : Span} {ps : List Plan} {p q : Plan} : p ∈ ps → Has p q → Has (node s ps) q

/-- The parts stand apart, and in order. -/
def InOrder (ps : List Plan) : Prop := ps.Pairwise fun p q => p.span.stop ≤ q.span.offset

/-- **Each part lies inside of what it is part of**, and the parts of one node follow one another. -/
inductive Nested : Plan → Prop
  | node {s : Span} {ps : List Plan} : (∀ p ∈ ps, p.span.Within s) → InOrder ps → (∀ p ∈ ps, Nested p) →
    Nested (node s ps)

namespace Nested

variable {p q : Plan}

/-- **Whatever is below a node lies inside of it.** -/
theorem has (h : p.Nested) (hq : p.Has q) : q.Nested ∧ q.span.Within p.span := by
  induction hq with
  | self => exact ⟨h, .refl _⟩
  | deeper hmem _ ih =>
    cases h with
    | node hwithin _ hnested =>
      obtain ⟨hq, hin⟩ := ih (hnested _ hmem)
      exact ⟨hq, hin.trans (hwithin _ hmem)⟩

theorem inOrder (h : p.Nested) : InOrder p.inside := by
  cases h with
  | node _ horder _ => exact horder

theorem leaf (s : Span) : (Plan.leaf s).Nested := .node (by simp) .nil (by simp)

end Nested

/-- **Nested parts in a row**, all of them between two offsets. -/
def Row (lo hi : Nat) : List Plan → Prop
  | [] => lo ≤ hi
  | p :: ps => p.Nested ∧ lo ≤ p.span.offset ∧ Row p.span.stop hi ps

namespace Row

variable {lo mid hi : Nat} {p : Plan} {ps qs : List Plan}

theorem le : ∀ {ps : List Plan} {lo : Nat}, Row lo hi ps → lo ≤ hi
  | [], _, h => h
  | p :: _, _, ⟨_, hp, h⟩ => by
    have hps := h.le
    have hspan := p.span.offset_le_stop
    omega

theorem mono : ∀ {ps : List Plan} {lo lo' hi hi' : Nat}, Row lo hi ps → lo' ≤ lo → hi ≤ hi' → Row lo' hi' ps
  | [], _, _, _, _, h, hlo, hhi => Nat.le_trans hlo (Nat.le_trans h hhi)
  | _ :: _, _, _, _, _, ⟨hn, hp, h⟩, hlo, hhi => ⟨hn, Nat.le_trans hlo hp, h.mono (Nat.le_refl _) hhi⟩

theorem append {mid' : Nat} (hgap : mid ≤ mid') : ∀ {ps : List Plan} {lo : Nat}, Row lo mid ps → Row mid' hi qs →
    Row lo hi (ps ++ qs)
  | [], _, h, h' => h'.mono (Nat.le_trans h hgap) (Nat.le_refl _)
  | _ :: _, _, ⟨hn, hp, h⟩, h' => ⟨hn, hp, h.append hgap h'⟩

/-- Where the only part stands, given the place that it has. -/
theorem place {s : Span} (h : Row lo hi [p]) (hs : p.span = s) : lo ≤ s.offset ∧ s.offset ≤ s.stop ∧ s.stop ≤ hi :=
  ⟨hs ▸ h.2.1, s.offset_le_stop, hs ▸ h.2.2⟩

theorem tight {s : Span} (h : Row lo hi [p]) (hs : p.span = s) : Row s.offset s.stop [p] := by
  subst hs
  exact ⟨h.1, Nat.le_refl _, Nat.le_refl _⟩

theorem here (s : Span) : Row s.offset s.stop [.leaf s] := ⟨.leaf s, Nat.le_refl _, Nat.le_refl _⟩

theorem leaf {s : Span} (hlo : lo ≤ s.offset) (hhi : s.stop ≤ hi) : Row lo hi [.leaf s] := ⟨.leaf s, hlo, hhi⟩

/-- A row ends where its last part ends. -/
theorem toLast : ∀ {ps : List Plan} {lo : Nat}, Row lo hi ps → ps.getLast? = some p →
    Row lo p.span.stop ps ∧ p.span.stop ≤ hi
  | [_], _, ⟨hn, hp, h⟩, hlast => by
    cases hlast
    exact ⟨⟨hn, hp, Nat.le_refl _⟩, h⟩
  | _ :: q :: ps, _, ⟨hn, hp, h⟩, hlast => by
    rw [List.getLast?_cons_cons] at hlast
    obtain ⟨hrow, hhi⟩ := h.toLast hlast
    exact ⟨⟨hn, hp, hrow⟩, hhi⟩

theorem bounds : ∀ {ps : List Plan} {lo : Nat}, Row lo hi ps → ∀ p ∈ ps, lo ≤ p.span.offset ∧ p.span.stop ≤ hi
  | p :: ps, lo, ⟨_, hp, h⟩, q, hq => by
    obtain rfl | hq := List.mem_cons.1 hq
    · exact ⟨hp, h.le⟩
    · have hb := h.bounds q hq
      have hspan := p.span.offset_le_stop
      omega

theorem inOrder : ∀ {ps : List Plan} {lo : Nat}, Row lo hi ps → InOrder ps
  | [], _, _ => .nil
  | _ :: _, _, ⟨_, _, h⟩ => .cons (fun q hq => (h.bounds q hq).1) h.inOrder

theorem nested : ∀ {ps : List Plan} {lo : Nat}, Row lo hi ps → ∀ p ∈ ps, p.Nested
  | _ :: _, _, ⟨hn, _, h⟩, q, hq => by
    obtain rfl | hq := List.mem_cons.1 hq
    · exact hn
    · exact h.nested q hq

/-- **What a place covers is a part of it.** -/
theorem node {s : Span} (h : Row s.offset s.stop ps) (hlo : lo ≤ s.offset) (hhi : s.stop ≤ hi) :
    Row lo hi [.node s ps] :=
  ⟨.node h.bounds h.inOrder h.nested, hlo, hhi⟩

/-- A node from where `a` begins to where `b` ends covers what is between these. -/
theorem joined {a b : Span} {x y : Nat} (h : Row x y ps) (hspans : a.offset ≤ b.offset ∧ a.stop ≤ b.stop)
    (hlow : lo ≤ a.offset ∧ a.offset ≤ x) (hhigh : y ≤ b.stop ∧ b.stop ≤ hi) : Row lo hi [.node (a.join b) ps] := by
  obtain ⟨hstart, hstop⟩ := hspans
  have hoffset : (a.join b).offset = a.offset := Nat.min_eq_left hstart
  have hend : (a.join b).stop = b.stop := (a.join_stop b).trans (Nat.max_eq_right hstop)
  refine .node (h.mono ?_ ?_) ?_ ?_ <;> omega

/-- **A node from where `a` begins to the end of its last part.** -/
theorem closing {a s : Span} {x y z : Nat} (h : Row x mid ps) (hlast : Row y z [p]) (hs : p.span = s)
    (hlow : lo ≤ a.offset ∧ a.offset ≤ x) (hgap : mid ≤ y ∧ a.stop ≤ y) (hhi : z ≤ hi) :
    Row lo hi [.node (a.join s) (ps ++ [p])] := by
  have hplace := hlast.place hs
  have hle := h.le
  have hrow := h.append (Nat.le_trans hgap.1 hplace.1) (hlast.tight hs)
  exact hrow.joined (by omega) (by omega) (by omega)

theorem covered : ∀ {ps : List Plan} {lo : Nat}, (∀ p ∈ ps, p.Nested) → InOrder ps → lo ≤ hi →
    (∀ p ∈ ps, lo ≤ p.span.offset ∧ p.span.stop ≤ hi) → Row lo hi ps
  | [], _, _, _, hle, _ => hle
  | p :: ps, _, hnested, horder, _, hbounds => by
    obtain ⟨hp, hps⟩ := List.forall_mem_cons.1 hnested
    obtain ⟨hfirst, horder⟩ := List.pairwise_cons.1 horder
    obtain ⟨hb, hbs⟩ := List.forall_mem_cons.1 hbounds
    exact ⟨hp, hb.1, covered hps horder hb.2 fun q hq => ⟨hfirst q hq, (hbs q hq).2⟩⟩

end Row

theorem Nested.row {s : Span} {ps : List Plan} (h : (Plan.node s ps).Nested) : Row s.offset s.stop ps := by
  cases h with
  | node hwithin horder hnested => exact .covered hnested horder s.offset_le_stop hwithin

end Plan

/-! ## The plans of expressions and written types -/

mutual

def Expr.plan : Expr → Plan
  | .name s id => .node s [.leaf id.span]
  | .int s _ | .char s _ | .bool s _ | .text s _ => .leaf s
  | .list s items | .array s items => .node s (Expr.plans items)
  | .record s type fields => .node s (.leaf type.span :: Expr.fieldPlans fields)
  | .unary s _ e => .node s [e.plan]
  | .binary s l _ r => .node s [l.plan, r.plan]
  | .member s base m => .node s [base.plan, .leaf m.span]
  | .index s base i => .node s [base.plan, i.plan]
  | .call s callee generic args => .node s (.leaf callee.span :: (TypeArg.plans generic ++ Expr.plans args))
  | .listSelect s list i => .node s [list.plan, i.plan]
  | .memberSelect s base members i => .node s (base.plan :: (members.map (.leaf ·.span) ++ [i.plan]))

def Expr.plans : List Expr → List Plan
  | [] => []
  | e :: es => e.plan :: Expr.plans es

/-- Each field of a record literal is its name and then its value. -/
def Expr.fieldPlans : List (Ident × Expr) → List Plan
  | [] => []
  | (id, e) :: fields => .leaf id.span :: e.plan :: Expr.fieldPlans fields

def TypeRef.plan : TypeRef → Plan
  | .named s id args => .node s (.leaf id.span :: TypeArg.plans args)
  | .array s elem len => .node s [elem.plan, len.plan]

def TypeArg.plan : TypeArg → Plan
  | .type t => t.plan
  | .value e => e.plan

def TypeArg.plans : List TypeArg → List Plan
  | [] => []
  | a :: as => a.plan :: TypeArg.plans as

end

theorem Expr.plans_eq (es : List Expr) : Expr.plans es = es.map Expr.plan := by
  induction es with
  | nil => rfl
  | cons e es ih => rw [Expr.plans, ih, List.map_cons]

theorem TypeArg.plans_eq (as : List TypeArg) : TypeArg.plans as = as.map TypeArg.plan := by
  induction as with
  | nil => rfl
  | cons a as ih => rw [TypeArg.plans, ih, List.map_cons]

@[simp] theorem Expr.plan_span (e : Expr) : e.plan.span = e.span := by
  cases e <;> rfl

@[simp] theorem TypeRef.plan_span (t : TypeRef) : t.plan.span = t.span := by
  cases t <;> rfl

@[simp] theorem TypeArg.plan_span (a : TypeArg) : a.plan.span = a.span := by
  cases a <;> simp [plan, span]

/-! ## The plans of statements -/

/-- A written type that may be left out. -/
def TypeRef.plan? (t : Option TypeRef) : List Plan := (t.map TypeRef.plan).toList

def ParamKind.plan? : ParamKind → List Plan
  | .type bound => (bound.map fun id => .leaf id.span).toList
  | .const t => [t.plan]

def TemplateParam.plan (p : TemplateParam) : Plan := .node p.span (.leaf p.name.span :: p.kind.plan?)

def RecordField.plan (f : RecordField) : Plan := .node f.span [.leaf f.name.span, f.type.plan]

def RecordDef.plan (r : RecordDef) : Plan := .node r.span (.leaf r.name.span :: r.fields.map RecordField.plan)

def Param.plan (p : Param) : Plan := .node p.span [.leaf p.name.span, p.type.plan]

def ValDecl.plan (d : ValDecl) : Plan := .node d.span (.leaf d.name.span :: (TypeRef.plan? d.type ++ [d.expr.plan]))

def LoopVar.plan (v : LoopVar) : Plan := .node v.span (.leaf v.name.span :: TypeRef.plan? v.type)

/-- What an expansion runs first, if there is such a thing. -/
def Init.plan? : Option Init → List Plan
  | none => []
  | some (.val d) => [d.plan]
  | some (.expr e) => [e.plan]

mutual

/-- The copies of an expansion's body stand nowhere, and are no part of its plan. -/
def Stmt.plan : Stmt → Plan
  | .typeAlias s id params t => .node s (.leaf id.span :: (params.map TemplateParam.plan ++ [t.plan]))
  | .trait s id => .node s [.leaf id.span]
  | .record d => d.plan
  | .cell c => c.plan
  | .val d => d.plan
  | .assign s id e => .node s [.leaf id.span, e.plan]
  | .cond s c yes none => .node s [c.plan, yes.plan]
  | .cond s c yes (some no) => .node s [c.plan, yes.plan, no.plan]
  | .loop s c body => .node s [c.plan, body.plan]
  | .expand x => x.plan
  | .leave s | .next s | .give s none => .leaf s
  | .give s (some e) | .assert s e => .node s [e.plan]
  | .expr e => .node e.span [e.plan]

def Block.plan : Block → Plan
  | ⟨s, stmts⟩ => .node s (Stmt.plans stmts)

def CellDef.plan : CellDef → Plan
  | ⟨s, id, params, args, ret, body⟩ =>
    .node s (.leaf id.span :: (params.map TemplateParam.plan ++ (args.map Param.plan ++
      (TypeRef.plan? ret ++ [body.plan]))))

def Expansion.plan : Expansion → Plan
  | ⟨s, keyword, init, var, range, body, _, _⟩ =>
    .node s (.leaf keyword :: (Init.plan? init ++ [var.plan, range.plan, body.plan]))

def Stmt.plans : List Stmt → List Plan
  | [] => []
  | s :: ss => s.plan :: Stmt.plans ss

end

theorem Stmt.plans_eq (ss : List Stmt) : Stmt.plans ss = ss.map Stmt.plan := by
  induction ss with
  | nil => rfl
  | cons s ss ih => rw [Stmt.plans, ih, List.map_cons]

@[simp] theorem Block.plan_span (b : Block) : b.plan.span = b.span := by
  cases b
  rfl

@[simp] theorem CellDef.plan_span (c : CellDef) : c.plan.span = c.span := by
  cases c
  rfl

@[simp] theorem Expansion.plan_span (x : Expansion) : x.plan.span = x.span := by
  cases x
  rfl

@[simp] theorem Stmt.plan_span : ∀ s : Stmt, s.plan.span = s.span
  | .cond _ _ _ none | .cond _ _ _ (some _) | .give _ none | .give _ (some _) => rfl
  | .typeAlias _ _ _ _ | .trait _ _ | .record _ | .val _ | .assign _ _ _ | .loop _ _ _ | .leave _ | .next _
  | .assert _ _ | .expr _ => rfl
  | .cell c => c.plan_span
  | .expand x => x.plan_span

end Unroll
