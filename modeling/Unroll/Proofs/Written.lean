import Unroll.Syntax
import Unroll.Token.Scan
/-!
# Trees that can be written

A name that is written is made of letters, digits and underscores.  The names that the checker makes up all have some
other character in them: a record of a block has a quote, an instance of a generic cell angle brackets, and what an
expansion counts with a point.  So no name that is written is ever one of them.
-/
namespace Unroll

/-- A name that is made of what words are made of. -/
def Worded (n : String) : Prop := ∀ c ∈ n.toList, Lexeme.continuesWord c = true

/-- A word that is no keyword. -/
structure IsName (n : String) : Prop where
  first : ∃ c, n.toList.head? = some c ∧ Lexeme.startsWord c = true
  worded : Worded n
  free : Keyword.ofWord? n = none

theorem Worded.notMem {n : String} (h : Worded n) {c : Char} (hc : Lexeme.continuesWord c = false) : c ∉ n.toList := by
  intro hm
  rw [h c hm] at hc
  cases hc

/-! ## Expressions and types -/

mutual

/-- Every name that is looked up is a word, and nothing is selected from a list or from a record. -/
def Expr.Written : Expr → Prop
  | .int _ _ | .char _ _ | .bool _ _ | .text _ _ => True
  | .name _ id => Worded id.name
  | .list _ items | .array _ items => Expr.AllWritten items
  | .record _ type fs => Worded type.name ∧ Expr.FieldsWritten fs
  | .unary _ _ e | .member _ e _ => e.Written
  | .binary _ l _ r => l.Written ∧ r.Written
  | .index _ base i => base.Written ∧ i.Written
  | .call _ callee generic args => Worded callee.name ∧ TypeArg.AllWritten generic ∧ Expr.AllWritten args
  | .listSelect _ _ _ | .memberSelect _ _ _ _ => False

def Expr.AllWritten : List Expr → Prop
  | [] => True
  | e :: es => e.Written ∧ Expr.AllWritten es

def Expr.FieldsWritten : List (Ident × Expr) → Prop
  | [] => True
  | (_, e) :: fs => e.Written ∧ Expr.FieldsWritten fs

def TypeRef.Written : TypeRef → Prop
  | .named _ id args => Worded id.name ∧ TypeArg.AllWritten args
  | .array _ elem len => elem.Written ∧ len.Written

def TypeArg.Written : TypeArg → Prop
  | .type t => t.Written
  | .value e => e.Written

def TypeArg.AllWritten : List TypeArg → Prop
  | [] => True
  | a :: as => a.Written ∧ TypeArg.AllWritten as

end

theorem Expr.allWritten_iff : ∀ {es : List Expr}, Expr.AllWritten es ↔ ∀ e ∈ es, e.Written
  | [] => by simp [Expr.AllWritten]
  | e :: es => by simp [Expr.AllWritten, @Expr.allWritten_iff es]

/-! ## Statements -/

def TypeRef.Written? (t : Option TypeRef) : Prop := ∀ w, t = some w → w.Written

structure ValDecl.Written (d : ValDecl) : Prop where
  name : Worded d.name.name
  type : TypeRef.Written? d.type
  expr : d.expr.Written

structure LoopVar.Written (v : LoopVar) : Prop where
  name : Worded v.name.name
  type : TypeRef.Written? v.type

structure Param.Written (p : Param) : Prop where
  name : Worded p.name.name
  type : p.type.Written

structure RecordDef.Written (d : RecordDef) : Prop where
  name : Worded d.name.name
  fields : ∀ f ∈ d.fields, f.type.Written

def Init.Written : Option Init → Prop
  | none => True
  | some (.val d) => d.Written
  | some (.expr e) => e.Written

mutual

def Stmt.Written : Stmt → Prop
  | .typeAlias _ name _ target => Worded name.name ∧ target.Written
  | .trait _ _ | .leave _ | .next _ | .give _ none => True
  | .record d => d.Written
  | .cell c => c.Written
  | .val d => d.Written
  | .assign _ target e => Worded target.name ∧ e.Written
  | .give _ (some e) | .assert _ e | .expr e => e.Written
  | .cond _ c yes none => c.Written ∧ yes.Written
  | .cond _ c yes (some no) => c.Written ∧ yes.Written ∧ no.Written
  | .loop _ c body => c.Written ∧ body.Written
  | .expand x => x.Written

def Stmt.AllWritten : List Stmt → Prop
  | [] => True
  | s :: ss => s.Written ∧ Stmt.AllWritten ss

def Block.Written : Block → Prop
  | ⟨_, ss⟩ => Stmt.AllWritten ss

def CellDef.Written : CellDef → Prop
  | ⟨_, name, _, args, ret, body⟩ =>
    Worded name.name ∧ (∀ a ∈ args, a.Written) ∧ TypeRef.Written? ret ∧ body.Written

/-- What the expansion is replaced by does not count. -/
def Expansion.Written : Expansion → Prop
  | ⟨_, _, init, var, range, body, _, _⟩ => Init.Written init ∧ var.Written ∧ range.Written ∧ body.Written

end

theorem CellDef.Written.parts {c : CellDef} (h : c.Written) :
    Worded c.name.name ∧ (∀ a ∈ c.args, a.Written) ∧ TypeRef.Written? c.ret ∧ Stmt.AllWritten c.body.stmts := by
  obtain ⟨_, _, _, _, _, ⟨_, _⟩⟩ := c
  exact h

theorem Stmt.allWritten_iff : ∀ {ss : List Stmt}, Stmt.AllWritten ss ↔ ∀ s ∈ ss, s.Written
  | [] => by simp [Stmt.AllWritten]
  | s :: ss => by simp [Stmt.AllWritten, @Stmt.allWritten_iff ss]

end Unroll
