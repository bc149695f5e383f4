import Unroll.Syntax
/-!
# Trees without their places

Two trees that differ in spans alone mean the same; `unplaced` takes every span away, so that "equal up to places" is
an equation between unplaced trees.
-/
namespace Unroll

/-- The span of a node that stands nowhere. -/
def nowhere : Span := ⟨0, 0⟩

/-- A name without its place. -/
def bareName (n : String) : Ident := ⟨n, nowhere⟩

@[simp] theorem bareName_name (n : String) : (bareName n).name = n := rfl

@[simp] def Ident.unplaced (id : Ident) : Ident := bareName id.name

mutual

@[simp] def Expr.unplaced : Expr → Expr
  | .name _ id => .name nowhere id.unplaced
  | .int _ v => .int nowhere v
  | .char _ c => .char nowhere c
  | .bool _ b => .bool nowhere b
  | .text _ s => .text nowhere s
  | .list _ items => .list nowhere (Expr.allUnplaced items)
  | .array _ items => .array nowhere (Expr.allUnplaced items)
  | .record _ type fields => .record nowhere type.unplaced (Expr.fieldsUnplaced fields)
  | .unary _ op e => .unary nowhere op e.unplaced
  | .binary _ l op r => .binary nowhere l.unplaced op r.unplaced
  | .member _ base member => .member nowhere base.unplaced member.unplaced
  | .index _ base index => .index nowhere base.unplaced index.unplaced
  | .call _ callee generic args =>
    .call nowhere callee.unplaced (TypeArg.allUnplaced generic) (Expr.allUnplaced args)
  | .listSelect _ list index => .listSelect nowhere list.unplaced index.unplaced
  | .memberSelect _ base members index =>
    .memberSelect nowhere base.unplaced (members.map Ident.unplaced) index.unplaced

@[simp] def Expr.allUnplaced : List Expr → List Expr
  | [] => []
  | e :: es => e.unplaced :: Expr.allUnplaced es

@[simp] def Expr.fieldsUnplaced : List (Ident × Expr) → List (Ident × Expr)
  | [] => []
  | (key, value) :: fs => (key.unplaced, value.unplaced) :: Expr.fieldsUnplaced fs

@[simp] def TypeRef.unplaced : TypeRef → TypeRef
  | .named _ name args => .named nowhere name.unplaced (TypeArg.allUnplaced args)
  | .array _ elem len => .array nowhere elem.unplaced len.unplaced

@[simp] def TypeArg.unplaced : TypeArg → TypeArg
  | .type t => .type t.unplaced
  | .value e => .value e.unplaced

@[simp] def TypeArg.allUnplaced : List TypeArg → List TypeArg
  | [] => []
  | a :: as => a.unplaced :: TypeArg.allUnplaced as

end

/-- An expression whose unplaced form is a bare name is that name. -/
theorem Expr.eq_name_of_unplaced {e : Expr} {id : Ident} (h : e.unplaced = .name nowhere id) :
    ∃ span id', e = .name span id' ∧ id'.unplaced = id := by
  cases e with
  | name span id' =>
    simp only [Expr.unplaced, Expr.name.injEq, true_and] at h
    exact ⟨span, id', rfl, h⟩
  | _ => simp [Expr.unplaced] at h

end Unroll
