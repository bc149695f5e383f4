import Mathlib.Data.List.Forall2
import Unroll.Checker.Program
/-!
# What it is to be well typed

The rules for elaborated trees outside of templates: every type is known, every call names its cell, and every
expansion has been replaced by its copies.  They speak of no checker; that a check that passes leaves a tree that
satisfies them is proved elsewhere, and so is that the machine runs such a tree safely.
-/
namespace Unroll

/-- What the whole program declares. -/
structure Globals where
  records : Table RecordInfo
  cells : Table CellSig
  aliases : Table AliasInfo

/-- What a statement can see around it. -/
structure Scope where
  /-- Innermost first. -/
  values : List (Table ValInfo)
  types : List (Table String)
  ret : Ty
  inLoop : Bool

namespace Scope

def val? (Γ : Scope) (name : String) : Option ValInfo := Γ.values.findSome? (Table.find? · name)

/-- With one more scope. -/
def opened (Γ : Scope) : Scope := { Γ with values := [] :: Γ.values, types := [] :: Γ.types }

def looped (Γ : Scope) : Scope := { Γ with inLoop := true }

/-- With a value in the innermost scope. -/
def define (Γ : Scope) (name : String) (v : ValInfo) : Scope :=
  { Γ with values := match Γ.values with
    | [] => []
    | scope :: outer => scope.insert name v :: outer }

/-- With a record in the innermost scope. -/
def declare (Γ : Scope) (name canonical : String) : Scope :=
  { Γ with types := match Γ.types with
    | [] => []
    | scope :: outer => scope.insert name canonical :: outer }

end Scope

namespace Place

/-- What can be seen at the place. -/
def scope (p : Place) : Scope := ⟨p.values, p.types, p.rets.headD .unit, decide (p.loopDepth ≠ 0)⟩

end Place

/-- The record that the name of a literal stands for: one in scope, or else one that it names outright, or else the
target of an alias. -/
def Globals.literal? (g : Globals) (Γ : Scope) (name : String) : Option String :=
  match Γ.types.findSome? (Table.find? · name) with
  | some canonical => some canonical
  | none =>
    if name.toList.contains '\'' && g.records.contains name then some name
    else match g.aliases.find? name with
      | some (.plain (.record canonical)) => some canonical
      | _ => none

/-! ## Expressions -/

inductive ExprTyped (g : Globals) (Γ : Scope) : Expr → Ty → Prop
  | name {sp id v} : Γ.val? id.name = some v → ExprTyped g Γ (.name sp id) v.type
  | int {sp n} : ExprTyped g Γ (.int sp n) .int
  | char {sp c} : ExprTyped g Γ (.char sp c) .char
  | bool {sp b} : ExprTyped g Γ (.bool sp b) .bool
  | text {sp s} : ExprTyped g Γ (.text sp s) .text
  | array {sp items elem} : (∀ e ∈ items, ExprTyped g Γ e elem) →
      ExprTyped g Γ (.array sp items) (.array elem (some items.length))
  | record {sp type fs n r} : g.literal? Γ type.name = some n → g.records.find? n = some r →
      (fs.map (·.1.name)).Nodup → (∀ f ∈ r.fields, f.name ∈ fs.map (·.1.name)) →
      (∀ f ∈ fs, (r.field? f.1.name).isSome) →
      (∀ f ∈ fs, ∀ i, r.field? f.1.name = some i → ExprTyped g Γ f.2 i.type) → ExprTyped g Γ (.record sp type fs) (.record n)
  | neg {sp e} : ExprTyped g Γ e .int → ExprTyped g Γ (.unary sp .neg e) .int
  | not {sp e} : ExprTyped g Γ e .bool → ExprTyped g Γ (.unary sp .not e) .bool
  | binary {sp l op r lt rt t} : ExprTyped g Γ l lt → ExprTyped g Γ r rt → Check.knownBinaryType? op lt rt = some t →
      ExprTyped g Γ (.binary sp l op r) t
  | member {sp base m n r f} : ExprTyped g Γ base (.record n) → g.records.find? n = some r →
      r.field? m.name = some f → ExprTyped g Γ (.member sp base m) f.type
  | index {sp base i elem n} : ExprTyped g Γ base (.array elem (some n)) → ExprTyped g Γ i .int →
      ExprTyped g Γ (.index sp base i) elem
  | print {sp callee generic arg t} : callee.name = "print" → ExprTyped g Γ arg t →
      ExprTyped g Γ (.call sp callee generic [arg]) .unit
  | len {sp callee generic arg elem n} : callee.name = "len" → ExprTyped g Γ arg (.array elem (some n)) →
      ExprTyped g Γ (.call sp callee generic [arg]) .int
  | call {sp callee generic args sig} : Check.isBuiltin callee.name = false → g.cells.find? callee.name = some sig →
      args.length = sig.params.length →
      (∀ (i : Nat) e p, args[i]? = some e → sig.params[i]? = some p → ExprTyped g Γ e p.type) →
      ExprTyped g Γ (.call sp callee generic args) sig.ret

namespace ExprTyped

variable {g : Globals} {Γ : Scope}

/-- The types of the arguments, and what they are arguments of. -/
theorem call_cases {sp : Span} {callee : Ident} {generic : List TypeArg} {args : List Expr} {t : Ty}
    (h : ExprTyped g Γ (.call sp callee generic args) t) : ∃ types, List.Forall₂ (ExprTyped g Γ) args types ∧
      ((callee.name = "print" ∧ t = .unit ∧ ∃ a, types = [a]) ∨
        (callee.name = "len" ∧ t = .int ∧ ∃ elem n, types = [.array elem (some n)]) ∨
        ∃ sig, Check.isBuiltin callee.name = false ∧ g.cells.find? callee.name = some sig ∧ t = sig.ret ∧
          types = sig.params.map (·.type)) := by
  cases h with
  | print hname harg => exact ⟨_, .cons harg .nil, .inl ⟨hname, rfl, _, rfl⟩⟩
  | len hname harg => exact ⟨_, .cons harg .nil, .inr (.inl ⟨hname, rfl, _, _, rfl⟩)⟩
  | @call _ _ _ _ sig hb hsig hlen hargs =>
    refine ⟨_, ?_, .inr (.inr ⟨sig, hb, hsig, rfl, rfl⟩)⟩
    rw [List.forall₂_iff_get]
    refine ⟨by simpa using hlen, fun i h₁ h₂ => ?_⟩
    have h₃ : i < sig.params.length := by simpa using h₂
    simpa using hargs i _ _ (List.getElem?_eq_getElem h₁) (List.getElem?_eq_getElem h₃)

/-- The items of an array have one type. -/
theorem array_cases {sp : Span} {items : List Expr} {t : Ty} (h : ExprTyped g Γ (.array sp items) t) :
    ∃ elem, t = .array elem (some items.length) ∧
      List.Forall₂ (ExprTyped g Γ) items (List.replicate items.length elem) := by
  cases h with
  | @array _ _ elem hitems =>
    refine ⟨elem, rfl, ?_⟩
    rw [List.forall₂_iff_get]
    refine ⟨by simp, fun i h₁ h₂ => ?_⟩
    simp only [List.get_eq_getElem, List.getElem_replicate]
    exact hitems _ (List.getElem_mem _)

end ExprTyped

/-! ## Ranges -/

/-- Where the copies of an expansion read their elements from. -/
inductive Elements
  /-- Expressions of their own. -/
  | list (count : Nat)
  | array (base : String) (count : Nat)
  | members (base : String) (names : List String)

namespace Elements

def count : Elements → Nat
  | list n | array _ n => n
  | members _ ms => ms.length

/-- The expression that declares the iteration variable of the copy with the index. -/
def Selects : Elements → Nat → Expr → Prop
  | list _, _, _ => True
  | array base _, i, e => ∃ sp₁ sp₂ sp₃ id, e = .index sp₁ (.name sp₂ id) (.int sp₃ i) ∧ id.name = base
  | members base ms, i, e => ∃ sp₁ sp₂ id m, e = .member sp₁ (.name sp₂ id) m ∧ id.name = base ∧ ms[i]? = some m.name

end Elements

/-- How a range is read: a list by its expressions, anything else by a hidden name that it is bound to. -/
inductive RangeTyped (g : Globals) (Γ : Scope) (range : Expr) : Option ValDecl → Scope → Elements → Prop
  | list {sp items} : range = .list sp items → RangeTyped g Γ range none Γ (.list items.length)
  | array {b : ValDecl} {elem n} : b.expr = range → ExprTyped g Γ range (.array elem (some n)) →
      RangeTyped g Γ range (some b) (Γ.define b.name.name ⟨.array elem (some n), false⟩) (.array b.name.name n)
  | members {b : ValDecl} {n r} : b.expr = range → ExprTyped g Γ range (.record n) → g.records.find? n = some r →
      RangeTyped g Γ range (some b) (Γ.define b.name.name ⟨.record n, false⟩)
        (.members b.name.name (r.fields.map (·.name)))

/-! ## Statements -/

inductive InitTyped (g : Globals) (Γ : Scope) : Option Init → Scope → Prop
  | none : InitTyped g Γ none Γ
  | val {d t} : ExprTyped g Γ d.expr t → InitTyped g Γ (some (.val d)) (Γ.define d.name.name ⟨t, d.mutable⟩)
  | expr {e t} : ExprTyped g Γ e t → InitTyped g Γ (some (.expr e)) Γ

mutual

/-- The statement is well typed in the first scope, and what follows it stands in the second. -/
inductive StmtTyped (g : Globals) : Scope → Stmt → Scope → Prop
  | record {Γ d canonical r} : g.records.find? canonical = some r →
      r.fields.map (·.name) = d.fields.map (·.name.name) →
      StmtTyped g Γ (.record d) (Γ.declare d.name.name canonical)
  | val {Γ d t} : ExprTyped g Γ d.expr t → StmtTyped g Γ (.val d) (Γ.define d.name.name ⟨t, d.mutable⟩)
  | assign {Γ sp target e v} : Γ.val? target.name = some v → ExprTyped g Γ e v.type →
      StmtTyped g Γ (.assign sp target e) Γ
  | cond {Γ sp c yes} : ExprTyped g Γ c .bool → BlockTyped g Γ yes → StmtTyped g Γ (.cond sp c yes none) Γ
  | choice {Γ sp c yes no} : ExprTyped g Γ c .bool → BlockTyped g Γ yes → BlockTyped g Γ no →
      StmtTyped g Γ (.cond sp c yes (some no)) Γ
  | loop {Γ sp c body} : ExprTyped g Γ c .bool → BlockTyped g Γ.looped body → StmtTyped g Γ (.loop sp c body) Γ
  | expand {Γ Γ' x} : InitTyped g Γ.opened x.init Γ' → UnrollingTyped g Γ' x.var x.range x.state →
      StmtTyped g Γ (.expand x) Γ
  | leave {Γ sp} : Γ.inLoop = true → StmtTyped g Γ (.leave sp) Γ
  | next {Γ sp} : Γ.inLoop = true → StmtTyped g Γ (.next sp) Γ
  | giveUnit {Γ sp} : Γ.ret = .unit → StmtTyped g Γ (.give sp none) Γ
  | give {Γ sp e} : ExprTyped g Γ e Γ.ret → StmtTyped g Γ (.give sp (some e)) Γ
  | assert {Γ sp e} : ExprTyped g Γ e .bool → StmtTyped g Γ (.assert sp e) Γ
  | expr {Γ e t} : ExprTyped g Γ e t → StmtTyped g Γ (.expr e) Γ

inductive StmtsTyped (g : Globals) : Scope → List Stmt → Prop
  | nil {Γ} : StmtsTyped g Γ []
  | cons {Γ Γ' s ss} : StmtTyped g Γ s Γ' → StmtsTyped g Γ' ss → StmtsTyped g Γ (s :: ss)

inductive BlockTyped (g : Globals) : Scope → Block → Prop
  | mk {Γ sp ss} : StmtsTyped g Γ.opened ss → BlockTyped g Γ ⟨sp, ss⟩

/-- An expansion that has been replaced by one copy for each element. -/
inductive UnrollingTyped (g : Globals) : Scope → LoopVar → Expr → Unrolling → Prop
  | empty {Γ Γ' var range b els} : RangeTyped g Γ range b Γ' els → els.count = 0 → UnrollingTyped g Γ var range .empty
  | unrolled {Γ Γ' var range b els cs} : RangeTyped g Γ range b Γ' els → cs.length = els.count →
      CopiesTyped g Γ' var els 0 cs → UnrollingTyped g Γ var range (.unrolled b cs)

/-- The copies from the one with the index on. -/
inductive CopiesTyped (g : Globals) : Scope → LoopVar → Elements → Nat → List Copy → Prop
  | nil {Γ var els i} : CopiesTyped g Γ var els i []
  | cons {Γ var els i j sp d ss cs} : d.name.name = var.name.name → els.Selects i d.expr →
      StmtsTyped g Γ.opened.looped (.val d :: ss) → CopiesTyped g Γ var els (i + 1) cs →
      CopiesTyped g Γ var els i (⟨j, ⟨sp, .val d :: ss⟩⟩ :: cs)

end

/-- A statement changes nothing below the innermost scope. -/
theorem StmtTyped.outer_kept {g : Globals} {Γ Γ' : Scope} {s : Stmt} (h : StmtTyped g Γ s Γ') :
    Γ'.values.tail = Γ.values.tail ∧ Γ'.types.tail = Γ.types.tail ∧ Γ'.ret = Γ.ret ∧ Γ'.inLoop = Γ.inLoop := by
  cases h with
  | record _ _ =>
    refine ⟨rfl, ?_, rfl, rfl⟩
    unfold Scope.declare
    cases Γ.types <;> rfl
  | val _ =>
    refine ⟨?_, rfl, rfl, rfl⟩
    unfold Scope.define
    cases Γ.values <;> rfl
  | _ => exact ⟨rfl, rfl, rfl, rfl⟩

theorem InitTyped.outer_kept {g : Globals} {Γ Γ' : Scope} {i : Option Init} (h : InitTyped g Γ i Γ') :
    Γ'.values.tail = Γ.values.tail ∧ Γ'.types.tail = Γ.types.tail ∧ Γ'.ret = Γ.ret ∧ Γ'.inLoop = Γ.inLoop := by
  cases h with
  | val _ =>
    refine ⟨?_, rfl, rfl, rfl⟩
    unfold Scope.define
    cases Γ.values <;> rfl
  | _ => exact ⟨rfl, rfl, rfl, rfl⟩

theorem RangeTyped.outer_kept {g : Globals} {Γ Γ' : Scope} {range : Expr} {b : Option ValDecl} {els : Elements}
    (h : RangeTyped g Γ range b Γ' els) :
    Γ'.values.tail = Γ.values.tail ∧ Γ'.ret = Γ.ret ∧ Γ'.inLoop = Γ.inLoop := by
  cases h with
  | list _ => exact ⟨rfl, rfl, rfl⟩
  | _ =>
    refine ⟨?_, rfl, rfl⟩
    unfold Scope.define
    cases Γ.values <;> rfl

/-- The scope that the body of a cell begins in, where the global types are given. -/
def bodyScope (globals : Table String) (sig : CellSig) : Scope :=
  ⟨[(sig.params.map fun p => (p.name, (⟨p.type, p.mutable⟩ : ValInfo))).reverse, []], [[], globals], sig.ret, false⟩

/-- **A cell that can run**: its parameters are those of its signature, and its body is well typed. -/
structure CellTyped (g : Globals) (globals : Table String) (c : CellDef) (sig : CellSig) : Prop where
  params : c.args.map (·.name.name) = sig.params.map (·.name)
  body : StmtsTyped g (bodyScope globals sig) c.body.stmts

end Unroll
