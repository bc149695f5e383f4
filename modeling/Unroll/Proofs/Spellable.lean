import Unroll.Arith
import Unroll.Proofs.Written
/-!
# Trees that can be spelled

A tree that has come out of a text has names wherever a name stands, integers that fit, no form without a spelling, and
a statement in each of its blocks.  Such a tree can be written in particular, and what is printed of it can be read.
-/
namespace Unroll

/-! ## Expressions and types -/

mutual

/-- **Every name is one, every integer fits**, and nothing is selected from a list or from a record. -/
def Expr.Spellable : Expr → Prop
  | .char _ _ | .bool _ _ | .text _ _ => True
  | .name _ id => IsName id.name
  | .int _ v => 0 ≤ v ∧ v < Arith.bound
  | .list _ items | .array _ items => Expr.AllSpellable items
  | .record _ type fs => IsName type.name ∧ Expr.FieldsSpellable fs
  | .unary _ _ e => e.Spellable
  | .member _ e m => e.Spellable ∧ IsName m.name
  | .binary _ l _ r => l.Spellable ∧ r.Spellable
  | .index _ base i => base.Spellable ∧ i.Spellable
  | .call _ callee generic args => IsName callee.name ∧ TypeArg.AllSpellable generic ∧ Expr.AllSpellable args
  | .listSelect _ _ _ | .memberSelect _ _ _ _ => False

def Expr.AllSpellable : List Expr → Prop
  | [] => True
  | e :: es => e.Spellable ∧ Expr.AllSpellable es

def Expr.FieldsSpellable : List (Ident × Expr) → Prop
  | [] => True
  | (key, e) :: fs => (IsName key.name ∧ e.Spellable) ∧ Expr.FieldsSpellable fs

def TypeRef.Spellable : TypeRef → Prop
  | .named _ id args => IsName id.name ∧ TypeArg.AllSpellable args
  | .array _ elem len => elem.Spellable ∧ len.Spellable

def TypeArg.Spellable : TypeArg → Prop
  | .type t => t.Spellable
  | .value e => e.Spellable

def TypeArg.AllSpellable : List TypeArg → Prop
  | [] => True
  | a :: as => a.Spellable ∧ TypeArg.AllSpellable as

end

theorem Expr.allSpellable_iff : ∀ {es : List Expr}, Expr.AllSpellable es ↔ ∀ e ∈ es, e.Spellable
  | [] => by simp [Expr.AllSpellable]
  | e :: es => by simp [Expr.AllSpellable, @Expr.allSpellable_iff es]

theorem TypeArg.allSpellable_iff : ∀ {as : List TypeArg}, TypeArg.AllSpellable as ↔ ∀ a ∈ as, a.Spellable
  | [] => by simp [TypeArg.AllSpellable]
  | a :: as => by simp [TypeArg.AllSpellable, @TypeArg.allSpellable_iff as]

/-! ## Statements -/

def TypeRef.Spellable? (t : Option TypeRef) : Prop := ∀ w, t = some w → w.Spellable

def ParamKind.Spellable : ParamKind → Prop
  | .type none => True
  | .type (some id) => IsName id.name
  | .const t => t.Spellable

structure TemplateParam.Spellable (p : TemplateParam) : Prop where
  name : IsName p.name.name
  kind : p.kind.Spellable

structure Param.Spellable (p : Param) : Prop where
  name : IsName p.name.name
  type : p.type.Spellable

structure RecordField.Spellable (f : RecordField) : Prop where
  name : IsName f.name.name
  type : f.type.Spellable

structure RecordDef.Spellable (d : RecordDef) : Prop where
  name : IsName d.name.name
  fields : ∀ f ∈ d.fields, f.Spellable

structure ValDecl.Spellable (d : ValDecl) : Prop where
  name : IsName d.name.name
  type : TypeRef.Spellable? d.type
  expr : d.expr.Spellable

structure LoopVar.Spellable (v : LoopVar) : Prop where
  name : IsName v.name.name
  type : TypeRef.Spellable? v.type

def Init.Spellable : Option Init → Prop
  | none => True
  | some (.val d) => d.Spellable
  | some (.expr e) => e.Spellable

mutual

def Stmt.Spellable : Stmt → Prop
  | .typeAlias _ name params target => IsName name.name ∧ (∀ p ∈ params, p.Spellable) ∧ target.Spellable
  | .trait _ name => IsName name.name
  | .leave _ | .next _ | .give _ none => True
  | .record d => d.Spellable
  | .cell c => c.Spellable
  | .val d => d.Spellable
  | .assign _ target e => IsName target.name ∧ e.Spellable
  | .give _ (some e) | .assert _ e | .expr e => e.Spellable
  | .cond _ c yes none => c.Spellable ∧ yes.Spellable
  | .cond _ c yes (some no) => c.Spellable ∧ yes.Spellable ∧ no.Spellable
  | .loop _ c body => c.Spellable ∧ body.Spellable
  | .expand x => x.Spellable

def Stmt.AllSpellable : List Stmt → Prop
  | [] => True
  | s :: ss => s.Spellable ∧ Stmt.AllSpellable ss

/-- There is a statement in the block. -/
def Block.Spellable : Block → Prop
  | ⟨_, ss⟩ => ss ≠ [] ∧ Stmt.AllSpellable ss

def CellDef.Spellable : CellDef → Prop
  | ⟨_, name, params, args, ret, body⟩ =>
    IsName name.name ∧ (∀ p ∈ params, p.Spellable) ∧ (∀ a ∈ args, a.Spellable) ∧ TypeRef.Spellable? ret ∧ body.Spellable

/-- What the expansion is replaced by does not count. -/
def Expansion.Spellable : Expansion → Prop
  | ⟨_, _, init, var, range, body, _, _⟩ => Init.Spellable init ∧ var.Spellable ∧ range.Spellable ∧ body.Spellable

end

/-! ## What can be spelled can be written -/

mutual

theorem Expr.Spellable.written : ∀ e : Expr, e.Spellable → e.Written
  | .int _ _, _ | .char _ _, _ | .bool _ _, _ | .text _ _, _ => trivial
  | .name _ _, h => h.worded
  | .list _ items, h | .array _ items, h => Expr.AllSpellable.written items h
  | .record _ _ fs, h => ⟨h.1.worded, Expr.FieldsSpellable.written fs h.2⟩
  | .unary _ _ e, h => Expr.Spellable.written e h
  | .member _ e _, h => Expr.Spellable.written e h.1
  | .binary _ l _ r, h => ⟨Expr.Spellable.written l h.1, Expr.Spellable.written r h.2⟩
  | .index _ e i, h => ⟨Expr.Spellable.written e h.1, Expr.Spellable.written i h.2⟩
  | .call _ _ generic args, h =>
    ⟨h.1.worded, TypeArg.AllSpellable.written generic h.2.1, Expr.AllSpellable.written args h.2.2⟩
  | .listSelect _ _ _, h | .memberSelect _ _ _ _, h => h.elim

theorem Expr.AllSpellable.written : ∀ es : List Expr, Expr.AllSpellable es → Expr.AllWritten es
  | [], _ => trivial
  | e :: es, h => ⟨Expr.Spellable.written e h.1, Expr.AllSpellable.written es h.2⟩

theorem Expr.FieldsSpellable.written : ∀ fs : List (Ident × Expr), Expr.FieldsSpellable fs → Expr.FieldsWritten fs
  | [], _ => trivial
  | (_, e) :: fs, h => ⟨Expr.Spellable.written e h.1.2, Expr.FieldsSpellable.written fs h.2⟩

theorem TypeRef.Spellable.written : ∀ t : TypeRef, t.Spellable → t.Written
  | .named _ _ args, h => ⟨h.1.worded, TypeArg.AllSpellable.written args h.2⟩
  | .array _ elem len, h => ⟨TypeRef.Spellable.written elem h.1, Expr.Spellable.written len h.2⟩

theorem TypeArg.Spellable.written : ∀ a : TypeArg, a.Spellable → a.Written
  | .type t, h => TypeRef.Spellable.written t h
  | .value e, h => Expr.Spellable.written e h

theorem TypeArg.AllSpellable.written : ∀ as : List TypeArg, TypeArg.AllSpellable as → TypeArg.AllWritten as
  | [], _ => trivial
  | a :: as, h => ⟨TypeArg.Spellable.written a h.1, TypeArg.AllSpellable.written as h.2⟩

end

theorem TypeRef.Spellable?.written {t : Option TypeRef} (h : TypeRef.Spellable? t) : TypeRef.Written? t :=
  fun w hw => (h w hw).written

theorem ValDecl.Spellable.written {d : ValDecl} (h : d.Spellable) : d.Written :=
  ⟨h.name.worded, TypeRef.Spellable?.written h.type, h.expr.written⟩

theorem Init.Spellable.written : ∀ i : Option Init, Init.Spellable i → Init.Written i
  | none, _ => trivial
  | some (.val _), h => ValDecl.Spellable.written h
  | some (.expr e), h => Expr.Spellable.written e h

mutual

theorem Stmt.Spellable.written : ∀ s : Stmt, s.Spellable → s.Written
  | .typeAlias _ _ _ _, h => ⟨h.1.worded, h.2.2.written⟩
  | .trait _ _, _ | .leave _, _ | .next _, _ | .give _ none, _ => trivial
  | .record _, h => ⟨h.name.worded, fun f hf => (h.fields f hf).type.written⟩
  | .cell c, h => CellDef.Spellable.written c h
  | .val _, h => ValDecl.Spellable.written h
  | .assign _ _ _, h => ⟨h.1.worded, h.2.written⟩
  | .give _ (some e), h | .assert _ e, h | .expr e, h => Expr.Spellable.written e h
  | .cond _ _ yes none, h => ⟨h.1.written, Block.Spellable.written yes h.2⟩
  | .cond _ _ yes (some no), h => ⟨h.1.written, Block.Spellable.written yes h.2.1, Block.Spellable.written no h.2.2⟩
  | .loop _ _ body, h => ⟨h.1.written, Block.Spellable.written body h.2⟩
  | .expand x, h => Expansion.Spellable.written x h

theorem Stmt.AllSpellable.written : ∀ ss : List Stmt, Stmt.AllSpellable ss → Stmt.AllWritten ss
  | [], _ => trivial
  | s :: ss, h => ⟨Stmt.Spellable.written s h.1, Stmt.AllSpellable.written ss h.2⟩

theorem Block.Spellable.written : ∀ b : Block, b.Spellable → b.Written
  | ⟨_, ss⟩, h => Stmt.AllSpellable.written ss h.2

theorem CellDef.Spellable.written : ∀ c : CellDef, c.Spellable → c.Written
  | ⟨_, _, _, _, _, body⟩, ⟨hname, _, hargs, hret, hbody⟩ =>
    ⟨hname.worded, fun a ha => ⟨(hargs a ha).name.worded, (hargs a ha).type.written⟩, TypeRef.Spellable?.written hret,
      Block.Spellable.written body hbody⟩

theorem Expansion.Spellable.written : ∀ x : Expansion, x.Spellable → x.Written
  | ⟨_, _, init, _, _, body, _, _⟩, ⟨hinit, hvar, hrange, hbody⟩ =>
    ⟨Init.Spellable.written init hinit, ⟨hvar.name.worded, TypeRef.Spellable?.written hvar.type⟩, hrange.written,
      Block.Spellable.written body hbody⟩

end

end Unroll
