import Mathlib.Data.List.TakeWhile
import Unroll.Proofs.TypeNames
import Unroll.Proofs.Written
/-!
# The outline of a tree

Elaboration changes little in a tree: where a member is read the span is put together anew, a call of a generic cell
gets the name of an instance in place of its template arguments, and an expansion gets its copies.  The outline leaves
out all of these, so a tree and what it is elaborated into have one outline.
-/
namespace Unroll

/-! ## Outlines -/

mutual

def Expr.outline : Expr → Expr
  | .name sp id => .name sp id
  | .int sp v => .int sp v
  | .char sp c => .char sp c
  | .bool sp b => .bool sp b
  | .text sp s => .text sp s
  | .list sp items => .list sp (Expr.outlines items)
  | .array sp items => .array sp (Expr.outlines items)
  | .record sp type fs => .record sp type (Expr.fieldOutlines fs)
  | .unary sp op e => .unary sp op e.outline
  | .binary sp l op r => .binary sp l.outline op r.outline
  | .member _ base m => .member m.span base.outline m
  | .index sp base i => .index sp base.outline i.outline
  | .call sp callee _ args => .call sp ⟨baseName callee.name, callee.span⟩ [] (Expr.outlines args)
  | .listSelect sp list i => .listSelect sp list.outline i.outline
  | .memberSelect sp base ms i => .memberSelect sp base.outline ms i.outline

def Expr.outlines : List Expr → List Expr
  | [] => []
  | e :: es => e.outline :: Expr.outlines es

def Expr.fieldOutlines : List (Ident × Expr) → List (Ident × Expr)
  | [] => []
  | (f, e) :: fs => (f, e.outline) :: Expr.fieldOutlines fs

def TypeRef.outline : TypeRef → TypeRef
  | .named sp id args => .named sp id (TypeArg.outlines args)
  | .array sp elem len => .array sp elem.outline len.outline

def TypeArg.outline : TypeArg → TypeArg
  | .type t => .type t.outline
  | .value e => .value e.outline

def TypeArg.outlines : List TypeArg → List TypeArg
  | [] => []
  | a :: as => a.outline :: TypeArg.outlines as

end

def ValDecl.outline (d : ValDecl) : ValDecl :=
  { d with type := d.type.map TypeRef.outline, expr := d.expr.outline }

def LoopVar.outline (v : LoopVar) : LoopVar := { v with type := v.type.map TypeRef.outline }

def RecordDef.outline (d : RecordDef) : RecordDef :=
  { d with fields := d.fields.map fun f => { f with type := f.type.outline } }

def Init.outline : Option Init → Option Init
  | none => none
  | some (.val d) => some (.val d.outline)
  | some (.expr e) => some (.expr e.outline)

mutual

/-- Declarations of the top level have no place among the statements of a body; they are left as they are. -/
def Stmt.outline : Stmt → Stmt
  | .typeAlias sp name params target => .typeAlias sp name params target
  | .trait sp name => .trait sp name
  | .cell c => .cell c
  | .record d => .record d.outline
  | .val d => .val d.outline
  | .assign sp target e => .assign sp target e.outline
  | .cond sp c yes none => .cond sp c.outline yes.outline none
  | .cond sp c yes (some no) => .cond sp c.outline yes.outline (some no.outline)
  | .loop sp c body => .loop sp c.outline body.outline
  | .expand x => .expand x.outline
  | .leave sp => .leave sp
  | .next sp => .next sp
  | .give sp none => .give sp none
  | .give sp (some e) => .give sp (some e.outline)
  | .assert sp e => .assert sp e.outline
  | .expr e => .expr e.outline

def Stmt.outlines : List Stmt → List Stmt
  | [] => []
  | s :: ss => s.outline :: Stmt.outlines ss

def Block.outline : Block → Block
  | ⟨sp, ss⟩ => ⟨sp, Stmt.outlines ss⟩

def Expansion.outline : Expansion → Expansion
  | ⟨sp, keyword, init, var, range, body, _, _⟩ =>
    ⟨sp, keyword, Init.outline init, var.outline, range.outline, body.outline, none, .pending⟩

end

theorem Expr.outlines_eq (es : List Expr) : Expr.outlines es = es.map Expr.outline := by
  induction es with
  | nil => rfl
  | cons e es ih => rw [Expr.outlines, ih, List.map_cons]

theorem Stmt.outlines_eq (ss : List Stmt) : Stmt.outlines ss = ss.map Stmt.outline := by
  induction ss with
  | nil => rfl
  | cons s ss ih => rw [Stmt.outlines, ih, List.map_cons]

/-! ## The names of instances -/

theorem Worded.baseName {n : String} (h : Worded n) : Unroll.baseName n = n := by
  have hall : n.toList.takeWhile (· != '<') = n.toList := by
    rw [List.takeWhile_eq_self_iff]
    intro c hc
    have hne : c ≠ '<' := by
      rintro rfl
      exact h.notMem (by decide) hc
    simpa using hne
  unfold Unroll.baseName
  rw [hall, String.ofList_toList]

/-! ## What is written has a written outline -/

mutual

theorem Expr.Written.outline : ∀ {e : Expr}, e.Written → e.outline.Written
  | .int _ _, _ | .char _ _, _ | .bool _ _, _ | .text _ _, _ => trivial
  | .name _ _, h => h
  | .list _ _, h | .array _ _, h => Expr.AllWritten.outlines h
  | .record _ _ _, h => ⟨h.1, Expr.FieldsWritten.outlines h.2⟩
  | .unary _ _ e, h => Expr.Written.outline (e := e) h
  | .member _ base _, h => Expr.Written.outline (e := base) h
  | .binary _ _ _ _, h => ⟨Expr.Written.outline h.1, Expr.Written.outline h.2⟩
  | .index _ _ _, h => ⟨Expr.Written.outline h.1, Expr.Written.outline h.2⟩
  | .call _ _ _ _, h => ⟨h.1.baseName.symm ▸ h.1, trivial, Expr.AllWritten.outlines h.2.2⟩

theorem Expr.AllWritten.outlines : ∀ {es : List Expr}, Expr.AllWritten es → Expr.AllWritten (Expr.outlines es)
  | [], _ => trivial
  | _ :: _, h => ⟨h.1.outline, Expr.AllWritten.outlines h.2⟩

theorem Expr.FieldsWritten.outlines : ∀ {fs : List (Ident × Expr)}, Expr.FieldsWritten fs →
    Expr.FieldsWritten (Expr.fieldOutlines fs)
  | [], _ => trivial
  | _ :: _, h => ⟨h.1.outline, Expr.FieldsWritten.outlines h.2⟩

theorem TypeRef.Written.outline : ∀ {t : TypeRef}, t.Written → t.outline.Written
  | .named _ _ _, h => ⟨h.1, TypeArg.AllWritten.outlines h.2⟩
  | .array _ _ _, h => ⟨TypeRef.Written.outline h.1, Expr.Written.outline h.2⟩

theorem TypeArg.Written.outline : ∀ {a : TypeArg}, a.Written → a.outline.Written
  | .type t, h => TypeRef.Written.outline (t := t) h
  | .value e, h => Expr.Written.outline (e := e) h

theorem TypeArg.AllWritten.outlines : ∀ {as : List TypeArg}, TypeArg.AllWritten as →
    TypeArg.AllWritten (TypeArg.outlines as)
  | [], _ => trivial
  | _ :: _, h => ⟨TypeArg.Written.outline h.1, TypeArg.AllWritten.outlines h.2⟩

end

theorem TypeRef.Written?.outline {t : Option TypeRef} (h : TypeRef.Written? t) :
    TypeRef.Written? (t.map TypeRef.outline) := by
  intro w hw
  obtain ⟨u, rfl, rfl⟩ := Option.map_eq_some_iff.1 hw
  exact (h u rfl).outline

theorem ValDecl.Written.outline {d : ValDecl} (h : d.Written) : d.outline.Written :=
  ⟨h.name, h.type.outline, h.expr.outline⟩

theorem Init.Written.outline : ∀ {i : Option Init}, Init.Written i → Init.Written (Init.outline i)
  | none, _ => trivial
  | some (.val _), h => ValDecl.Written.outline h
  | some (.expr _), h => Expr.Written.outline h

theorem RecordDef.Written.outline {d : RecordDef} (h : d.Written) : d.outline.Written := by
  refine ⟨h.name, fun f hf => ?_⟩
  obtain ⟨g, hg, rfl⟩ := List.mem_map.1 hf
  exact (h.fields g hg).outline

mutual

theorem Stmt.Written.outline : ∀ {s : Stmt}, s.Written → s.outline.Written
  | .typeAlias _ _ _ _, h => h
  | .trait _ _, _ | .leave _, _ | .next _, _ | .give _ none, _ => trivial
  | .cell _, h => h
  | .record d, h => RecordDef.Written.outline (d := d) h
  | .val d, h => ValDecl.Written.outline (d := d) h
  | .assign _ _ _, h => ⟨h.1, Expr.Written.outline h.2⟩
  | .give _ (some e), h => Expr.Written.outline (e := e) h
  | .assert _ e, h => Expr.Written.outline (e := e) h
  | .expr e, h => Expr.Written.outline (e := e) h
  | .cond _ _ _ none, h => ⟨Expr.Written.outline h.1, Block.Written.outline h.2⟩
  | .cond _ _ _ (some _), h => ⟨Expr.Written.outline h.1, Block.Written.outline h.2.1, Block.Written.outline h.2.2⟩
  | .loop _ _ _, h => ⟨Expr.Written.outline h.1, Block.Written.outline h.2⟩
  | .expand x, h => Expansion.Written.outline (x := x) h

theorem Stmt.AllWritten.outlines : ∀ {ss : List Stmt}, Stmt.AllWritten ss → Stmt.AllWritten (Stmt.outlines ss)
  | [], _ => trivial
  | _ :: _, h => ⟨Stmt.Written.outline h.1, Stmt.AllWritten.outlines h.2⟩

theorem Block.Written.outline : ∀ {b : Block}, b.Written → b.outline.Written
  | ⟨_, ss⟩, h => @Stmt.AllWritten.outlines ss h

theorem Expansion.Written.outline : ∀ {x : Expansion}, x.Written → x.outline.Written
  | ⟨_, _, _, _, _, _, _, _⟩, h =>
    ⟨Init.Written.outline h.1, ⟨h.2.1.name, h.2.1.type.outline⟩, Expr.Written.outline h.2.2.1,
      Block.Written.outline h.2.2.2⟩

end

/-! ## Names in the outline -/

mutual

theorem TypeRef.outline_names : ∀ t : TypeRef, t.outline.names = t.names
  | .named _ _ args => by simp only [TypeRef.outline, TypeRef.names, TypeArg.outlines_names args]
  | .array _ elem _ => by simp only [TypeRef.outline, TypeRef.names, TypeRef.outline_names elem]

theorem TypeArg.outline_names : ∀ a : TypeArg, a.outline.names = a.names
  | .type t => by simp only [TypeArg.outline, TypeArg.names, TypeRef.outline_names t]
  | .value _ => rfl

theorem TypeArg.outlines_names : ∀ as : List TypeArg, TypeArg.allNames (TypeArg.outlines as) = TypeArg.allNames as
  | [] => rfl
  | a :: as => by
    simp only [TypeArg.outlines, TypeArg.allNames, TypeArg.outline_names a, TypeArg.outlines_names as]

end

mutual

theorem Expr.outline_typeNames : ∀ e : Expr, e.outline.typeNames = e.typeNames
  | .name _ _ | .int _ _ | .char _ _ | .bool _ _ | .text _ _ => rfl
  | .list _ items | .array _ items => by
    simp only [Expr.outline, Expr.typeNames, Expr.outlines_typeNames items]
  | .record _ _ fs => by simp only [Expr.outline, Expr.typeNames, Expr.fieldOutlines_typeNames fs]
  | .unary _ _ e | .member _ e _ => by simp only [Expr.outline, Expr.typeNames, Expr.outline_typeNames e]
  | .binary _ l _ r | .index _ l r | .listSelect _ l r | .memberSelect _ l _ r => by
    simp only [Expr.outline, Expr.typeNames, Expr.outline_typeNames l, Expr.outline_typeNames r]
  | .call _ _ _ args => by simp only [Expr.outline, Expr.typeNames, Expr.outlines_typeNames args]

theorem Expr.outlines_typeNames : ∀ es : List Expr, Expr.allTypeNames (Expr.outlines es) = Expr.allTypeNames es
  | [] => rfl
  | e :: es => by
    simp only [Expr.outlines, Expr.allTypeNames, Expr.outline_typeNames e, Expr.outlines_typeNames es]

theorem Expr.fieldOutlines_typeNames : ∀ fs : List (Ident × Expr),
    Expr.fieldTypeNames (Expr.fieldOutlines fs) = Expr.fieldTypeNames fs
  | [] => rfl
  | (_, e) :: fs => by
    simp only [Expr.fieldOutlines, Expr.fieldTypeNames, Expr.outline_typeNames e, Expr.fieldOutlines_typeNames fs]

end

theorem TypeRef.outline_names? (t : Option TypeRef) : TypeRef.names? (t.map TypeRef.outline) = TypeRef.names? t := by
  cases t with
  | none => rfl
  | some w => exact TypeRef.outline_names w

theorem ValDecl.outline_typeNames (d : ValDecl) : d.outline.typeNames = d.typeNames := by
  simp only [ValDecl.typeNames, ValDecl.outline, TypeRef.outline_names?, Expr.outline_typeNames]

theorem RecordDef.outline_names (d : RecordDef) :
    d.outline.fields.flatMap (·.type.names) = d.fields.flatMap (·.type.names) := by
  unfold RecordDef.outline
  rw [List.flatMap_map]
  exact congrArg d.fields.flatMap (funext fun f => TypeRef.outline_names f.type)

theorem Init.outline_typeNames : ∀ i : Option Init, Init.typeNames (Init.outline i) = Init.typeNames i
  | none => rfl
  | some (.val d) => ValDecl.outline_typeNames d
  | some (.expr e) => Expr.outline_typeNames e

/-! ## The names of what is written -/

mutual

theorem TypeRef.Written.names : ∀ {t : TypeRef}, t.Written → ∀ n ∈ t.names, Worded n
  | .named _ _ _, h => List.forall_mem_cons.2 ⟨h.1, TypeArg.AllWritten.names h.2⟩
  | .array _ elem _, h => TypeRef.Written.names (t := elem) h.1

theorem TypeArg.Written.names : ∀ {a : TypeArg}, a.Written → ∀ n ∈ a.names, Worded n
  | .type t, h => TypeRef.Written.names (t := t) h
  | .value _, _ => by simp [TypeArg.names]

theorem TypeArg.AllWritten.names : ∀ {as : List TypeArg}, TypeArg.AllWritten as → ∀ n ∈ TypeArg.allNames as, Worded n
  | [], _ => by simp [TypeArg.allNames]
  | _ :: _, h => List.forall_mem_append.2 ⟨TypeArg.Written.names h.1, TypeArg.AllWritten.names h.2⟩

end

mutual

theorem Expr.Written.typeNames : ∀ {e : Expr}, e.Written → ∀ n ∈ e.typeNames, Worded n
  | .name _ _, _ | .int _ _, _ | .char _ _, _ | .bool _ _, _ | .text _ _, _ => by simp [Expr.typeNames]
  | .list _ _, h | .array _ _, h => Expr.AllWritten.typeNames h
  | .record _ _ _, h => List.forall_mem_cons.2 ⟨h.1, Expr.FieldsWritten.typeNames h.2⟩
  | .unary _ _ e, h => Expr.Written.typeNames (e := e) h
  | .member _ e _, h => Expr.Written.typeNames (e := e) h
  | .binary _ _ _ _, h | .index _ _ _, h =>
    List.forall_mem_append.2 ⟨Expr.Written.typeNames h.1, Expr.Written.typeNames h.2⟩
  | .call _ _ _ _, h => Expr.AllWritten.typeNames h.2.2

theorem Expr.AllWritten.typeNames : ∀ {es : List Expr}, Expr.AllWritten es → ∀ n ∈ Expr.allTypeNames es, Worded n
  | [], _ => by simp [Expr.allTypeNames]
  | _ :: _, h => List.forall_mem_append.2 ⟨Expr.Written.typeNames h.1, Expr.AllWritten.typeNames h.2⟩

theorem Expr.FieldsWritten.typeNames : ∀ {fs : List (Ident × Expr)}, Expr.FieldsWritten fs →
    ∀ n ∈ Expr.fieldTypeNames fs, Worded n
  | [], _ => by simp [Expr.fieldTypeNames]
  | _ :: _, h => List.forall_mem_append.2 ⟨Expr.Written.typeNames h.1, Expr.FieldsWritten.typeNames h.2⟩

end

theorem TypeRef.Written?.names {t : Option TypeRef} (h : TypeRef.Written? t) : ∀ n ∈ TypeRef.names? t, Worded n := by
  cases t with
  | none => simp [TypeRef.names?]
  | some w => exact (h w rfl).names

theorem ValDecl.Written.typeNames {d : ValDecl} (h : d.Written) : ∀ n ∈ d.typeNames, Worded n :=
  List.forall_mem_append.2 ⟨h.type.names, h.expr.typeNames⟩

theorem Init.Written.typeNames : ∀ {i : Option Init}, Init.Written i → ∀ n ∈ Init.typeNames i, Worded n
  | none, _ => by simp [Init.typeNames]
  | some (.val _), h => ValDecl.Written.typeNames h
  | some (.expr _), h => Expr.Written.typeNames h

mutual

/-- A tree that has no copies yet. -/
theorem Stmt.Written.typeNames : ∀ {s : Stmt}, s.Written → ∀ n ∈ s.outline.typeNames, Worded n
  | .typeAlias _ _ _ _, _ | .trait _ _, _ | .cell _, _ | .leave _, _ | .next _, _ | .give _ none, _ => by
    simp [Stmt.outline, Stmt.typeNames]
  | .record d, h => by
    simp only [Stmt.outline, Stmt.typeNames, RecordDef.outline_names, List.mem_flatMap]
    rintro n ⟨f, hf, hn⟩
    exact (h.fields f hf).names n hn
  | .val d, h => by
    simpa only [Stmt.outline, Stmt.typeNames, ValDecl.outline_typeNames] using ValDecl.Written.typeNames (d := d) h
  | .assign _ _ e, h => by
    simpa only [Stmt.outline, Stmt.typeNames, Expr.outline_typeNames] using Expr.Written.typeNames (e := e) h.2
  | .give _ (some e), h | .assert _ e, h | .expr e, h => by
    simpa only [Stmt.outline, Stmt.typeNames, Expr.outline_typeNames] using Expr.Written.typeNames (e := e) h
  | .cond _ c yes none, h => by
    simp only [Stmt.outline, Stmt.typeNames, Expr.outline_typeNames]
    exact List.forall_mem_append.2 ⟨Expr.Written.typeNames h.1, Block.Written.typeNames h.2⟩
  | .cond _ c yes (some no), h => by
    simp only [Stmt.outline, Stmt.typeNames, Expr.outline_typeNames]
    exact List.forall_mem_append.2 ⟨Expr.Written.typeNames h.1,
      List.forall_mem_append.2 ⟨Block.Written.typeNames h.2.1, Block.Written.typeNames h.2.2⟩⟩
  | .loop _ c body, h => by
    simp only [Stmt.outline, Stmt.typeNames, Expr.outline_typeNames]
    exact List.forall_mem_append.2 ⟨Expr.Written.typeNames h.1, Block.Written.typeNames h.2⟩
  | .expand x, h => Expansion.Written.typeNames (x := x) h

theorem Stmt.AllWritten.typeNames : ∀ {ss : List Stmt}, Stmt.AllWritten ss →
    ∀ n ∈ Stmt.allTypeNames (Stmt.outlines ss), Worded n
  | [], _ => by simp [Stmt.outlines, Stmt.allTypeNames]
  | _ :: _, h => List.forall_mem_append.2 ⟨Stmt.Written.typeNames h.1, Stmt.AllWritten.typeNames h.2⟩

theorem Block.Written.typeNames : ∀ {b : Block}, b.Written → ∀ n ∈ b.outline.typeNames, Worded n
  | ⟨_, ss⟩, h => @Stmt.AllWritten.typeNames ss h

theorem Expansion.Written.typeNames : ∀ {x : Expansion}, x.Written → ∀ n ∈ x.outline.typeNames, Worded n
  | ⟨_, _, init, var, range, body, _, _⟩, h => by
    simp only [Expansion.outline, Expansion.typeNames, Init.outline_typeNames, LoopVar.outline, TypeRef.outline_names?,
      Expr.outline_typeNames, Unrolling.typeNames, List.append_nil]
    exact List.forall_mem_append.2 ⟨Init.Written.typeNames h.1, List.forall_mem_append.2 ⟨h.2.1.type.names,
      List.forall_mem_append.2 ⟨Expr.Written.typeNames h.2.2.1, Block.Written.typeNames h.2.2.2⟩⟩⟩

end

/-! ## Faithful copies -/

/-- What a copy with the index begins with and goes on with: the iteration variable is declared as its element, and the
rest is the body. -/
structure CopyOf (var : LoopVar) (range : Expr) (body : List Stmt) (i : Nat) (d : ValDecl) (rest : List Stmt) :
    Prop where
  type : d.type.map TypeRef.outline = var.type.map TypeRef.outline
  item : ∀ sp items, range = .list sp items → (items[i]?).map Expr.outline = some d.expr.outline
  selected : (∀ sp items, range ≠ .list sp items) → d.expr.typeNames = []
  body : Stmt.outlines rest = Stmt.outlines body

mutual

/-- **Every copy says what the body says**, and so do the copies in it. -/
def Stmt.Faithful : Stmt → Prop
  | .cond _ _ yes none => yes.Faithful
  | .cond _ _ yes (some no) => yes.Faithful ∧ no.Faithful
  | .loop _ _ body => body.Faithful
  | .expand x => x.Faithful
  | .typeAlias _ _ _ _ | .trait _ _ | .cell _ | .record _ | .val _ | .assign _ _ _ | .leave _ | .next _ | .give _ _
  | .assert _ _ | .expr _ => True

def Stmt.AllFaithful : List Stmt → Prop
  | [] => True
  | s :: ss => s.Faithful ∧ Stmt.AllFaithful ss

def Block.Faithful : Block → Prop
  | ⟨_, ss⟩ => Stmt.AllFaithful ss

def Expansion.Faithful : Expansion → Prop
  | ⟨_, _, _, var, range, ⟨_, ss⟩, _, state⟩ => Stmt.AllFaithful ss ∧ state.Faithful var range ss

def Unrolling.Faithful (var : LoopVar) (range : Expr) (body : List Stmt) : Unrolling → Prop
  | .pending | .deferred | .empty => True
  | .unrolled b cs => (∀ d, b = some d → d.type = none ∧ d.expr = range ∧ ¬ Worded d.name.name) ∧
      Copy.AllFaithful var range body 0 cs

def Copy.AllFaithful (var : LoopVar) (range : Expr) (body : List Stmt) : Nat → List Copy → Prop
  | _, [] => True
  | i, ⟨_, ⟨_, ss⟩⟩ :: cs => (∃ d rest, ss = .val d :: rest ∧ CopyOf var range body i d rest) ∧ Stmt.AllFaithful ss ∧
      Copy.AllFaithful var range body (i + 1) cs

end

/-! ## Where the copies are faithful, they say no new names -/

section

variable {Q : String → Prop}

theorem allTypeNames_item : ∀ {es : List Expr} {i : Nat} {e : Expr}, es[i]? = some e →
    (∀ n ∈ Expr.allTypeNames es, Q n) → ∀ n ∈ e.typeNames, Q n
  | [], i, e, h, _ => by simp at h
  | e :: es, 0, e', h, hq => by
    cases h
    intro n hn
    exact hq n (List.mem_append_left _ hn)
  | e :: es, i + 1, e', h, hq => @allTypeNames_item es _ _ h fun n hn => hq n (List.mem_append_right _ hn)

/-- What the copy declares first is named as the variable and the range are. -/
theorem CopyOf.declared_names {var : LoopVar} {range : Expr} {body rest : List Stmt} {i : Nat} {d : ValDecl}
    (h : CopyOf var range body i d rest) (hvar : ∀ n ∈ TypeRef.names? var.type, Q n)
    (hrange : ∀ n ∈ range.typeNames, Q n) : ∀ n ∈ d.typeNames, Q n := by
  intro n hn
  unfold ValDecl.typeNames at hn
  rw [← TypeRef.outline_names? d.type, h.type, TypeRef.outline_names?] at hn
  rcases List.mem_append.1 hn with hn | hn
  · exact hvar n hn
  by_cases hlist : ∀ sp items, range ≠ .list sp items
  · rw [h.selected hlist] at hn
    cases hn
  · push Not at hlist
    obtain ⟨sp, items, rfl⟩ := hlist
    obtain ⟨e, he, hout⟩ := Option.map_eq_some_iff.1 (h.item sp items rfl)
    rw [← Expr.outline_typeNames, ← hout, Expr.outline_typeNames] at hn
    exact allTypeNames_item he hrange n hn

mutual

theorem Stmt.faithful_names : ∀ {s : Stmt}, s.Faithful → (∀ n ∈ s.outline.typeNames, Q n) → ∀ n ∈ s.typeNames, Q n
  | .typeAlias _ _ _ _, _, h | .trait _ _, _, h | .cell _, _, h | .leave _, _, h | .next _, _, h
  | .give _ none, _, h => h
  | .record d, _, h => by
    simpa only [Stmt.outline, Stmt.typeNames, RecordDef.outline_names] using h
  | .val d, _, h => by simpa only [Stmt.outline, Stmt.typeNames, ValDecl.outline_typeNames] using h
  | .assign _ _ e, _, h | .give _ (some e), _, h | .assert _ e, _, h | .expr e, _, h => by
    simpa only [Stmt.outline, Stmt.typeNames, Expr.outline_typeNames] using h
  | .cond _ c yes none, hf, h => by
    simp only [Stmt.outline, Stmt.typeNames, List.mem_append, Expr.outline_typeNames] at h ⊢
    rintro n (hn | hn)
    · exact h n (.inl hn)
    · exact Block.faithful_names hf (fun m hm => h m (.inr hm)) n hn
  | .cond _ c yes (some no), hf, h => by
    simp only [Stmt.outline, Stmt.typeNames, List.mem_append, Expr.outline_typeNames] at h ⊢
    rintro n (hn | hn | hn)
    · exact h n (.inl hn)
    · exact Block.faithful_names hf.1 (fun m hm => h m (.inr (.inl hm))) n hn
    · exact Block.faithful_names hf.2 (fun m hm => h m (.inr (.inr hm))) n hn
  | .loop _ c body, hf, h => by
    simp only [Stmt.outline, Stmt.typeNames, List.mem_append, Expr.outline_typeNames] at h ⊢
    rintro n (hn | hn)
    · exact h n (.inl hn)
    · exact Block.faithful_names hf (fun m hm => h m (.inr hm)) n hn
  | .expand x, hf, h => Expansion.faithful_names (x := x) hf h

theorem Stmt.allFaithful_names : ∀ {ss : List Stmt}, Stmt.AllFaithful ss →
    (∀ n ∈ Stmt.allTypeNames (Stmt.outlines ss), Q n) → ∀ n ∈ Stmt.allTypeNames ss, Q n
  | [], _, h => h
  | s :: ss, hf, h => by
    simp only [Stmt.outlines, Stmt.allTypeNames, List.mem_append] at h ⊢
    rintro n (hn | hn)
    · exact Stmt.faithful_names hf.1 (fun m hm => h m (.inl hm)) n hn
    · exact Stmt.allFaithful_names hf.2 (fun m hm => h m (.inr hm)) n hn

theorem Block.faithful_names : ∀ {b : Block}, b.Faithful → (∀ n ∈ b.outline.typeNames, Q n) → ∀ n ∈ b.typeNames, Q n
  | ⟨_, ss⟩, hf, h => @Stmt.allFaithful_names ss hf h

theorem Expansion.faithful_names : ∀ {x : Expansion}, x.Faithful → (∀ n ∈ x.outline.typeNames, Q n) →
    ∀ n ∈ x.typeNames, Q n
  | ⟨_, _, init, var, range, ⟨_, ss⟩, _, state⟩, hf, h => by
    simp only [Expansion.outline, Block.outline, Expansion.typeNames, Block.typeNames, Unrolling.typeNames,
      Init.outline_typeNames, LoopVar.outline, TypeRef.outline_names?, Expr.outline_typeNames, List.mem_append] at h ⊢
    have hvar : ∀ n ∈ TypeRef.names? var.type, Q n := fun n hn => h n (.inr (.inl hn))
    have hrange : ∀ n ∈ range.typeNames, Q n := fun n hn => h n (.inr (.inr (.inl hn)))
    have hbody : ∀ n ∈ Stmt.allTypeNames (Stmt.outlines ss), Q n := fun n hn => h n (.inr (.inr (.inr (.inl hn))))
    rintro n (hn | hn | hn | hn | hn)
    · exact h n (.inl hn)
    · exact hvar n hn
    · exact hrange n hn
    · exact Stmt.allFaithful_names hf.1 hbody n hn
    · exact Unrolling.faithful_names hf.2 hvar hrange hbody n hn

theorem Unrolling.faithful_names {var : LoopVar} {range : Expr} {body : List Stmt} : ∀ {u : Unrolling},
    u.Faithful var range body → (∀ n ∈ TypeRef.names? var.type, Q n) → (∀ n ∈ range.typeNames, Q n) →
      (∀ n ∈ Stmt.allTypeNames (Stmt.outlines body), Q n) → ∀ n ∈ u.typeNames, Q n
  | .pending, _, _, _, _ | .deferred, _, _, _, _ | .empty, _, _, _, _ => by simp [Unrolling.typeNames]
  | .unrolled b cs, hf, hvar, hrange, hbody => by
    simp only [Unrolling.typeNames, List.mem_append]
    rintro n (hn | hn)
    · cases b with
      | none => cases hn
      | some d =>
        obtain ⟨htype, hexpr, -⟩ := hf.1 d rfl
        simp only [Unrolling.bindingTypeNames, ValDecl.typeNames, htype, hexpr, TypeRef.names?, List.nil_append] at hn
        exact hrange n hn
    · exact Copy.faithful_names hf.2 hvar hrange hbody n hn

theorem Copy.faithful_names {var : LoopVar} {range : Expr} {body : List Stmt} : ∀ {cs : List Copy} {i : Nat},
    Copy.AllFaithful var range body i cs → (∀ n ∈ TypeRef.names? var.type, Q n) → (∀ n ∈ range.typeNames, Q n) →
      (∀ n ∈ Stmt.allTypeNames (Stmt.outlines body), Q n) → ∀ n ∈ Copy.allTypeNames cs, Q n
  | [], i, _, _, _, _ => by simp [Copy.allTypeNames]
  | ⟨_, ⟨_, ss⟩⟩ :: cs, i, hf, hvar, hrange, hbody => by
    obtain ⟨⟨d, rest, hss, hcopy⟩, hall, hcs⟩ := hf
    simp only [Copy.allTypeNames, Block.typeNames, List.mem_append]
    rintro n (hn | hn)
    · refine Stmt.allFaithful_names hall (fun m hm => ?_) n hn
      rw [hss, Stmt.outlines, hcopy.body] at hm
      simp only [Stmt.outline, Stmt.allTypeNames, Stmt.typeNames, ValDecl.outline_typeNames, List.mem_append] at hm
      rcases hm with hm | hm
      · exact hcopy.declared_names hvar hrange m hm
      · exact hbody m hm
    · exact Copy.faithful_names hcs hvar hrange hbody n hn

end

end

end Unroll
