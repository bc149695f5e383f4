import Unroll.Proofs.Check.Settled
/-!
# The type names of a tree

Where a tree says which type it means: in the types that are written in it and in its record literals.  The template
arguments of a call are left out; they are resolved before the call is, and an elaborated call has none.
-/
namespace Unroll

mutual

def Expr.typeNames : Expr → List String
  | .name _ _ | .int _ _ | .char _ _ | .bool _ _ | .text _ _ => []
  | .list _ items | .array _ items => Expr.allTypeNames items
  | .record _ type fs => type.name :: Expr.fieldTypeNames fs
  | .unary _ _ e | .member _ e _ => e.typeNames
  | .binary _ l _ r => l.typeNames ++ r.typeNames
  | .index _ base i | .listSelect _ base i => base.typeNames ++ i.typeNames
  | .call _ _ _ args => Expr.allTypeNames args
  | .memberSelect _ base _ i => base.typeNames ++ i.typeNames

def Expr.allTypeNames : List Expr → List String
  | [] => []
  | e :: es => e.typeNames ++ Expr.allTypeNames es

def Expr.fieldTypeNames : List (Ident × Expr) → List String
  | [] => []
  | (_, e) :: fs => e.typeNames ++ Expr.fieldTypeNames fs

end

namespace TypeRef

def names? : Option TypeRef → List String
  | none => []
  | some t => t.names

end TypeRef

def ValDecl.typeNames (d : ValDecl) : List String := TypeRef.names? d.type ++ d.expr.typeNames

def Init.typeNames : Option Init → List String
  | none => []
  | some (.val d) => d.typeNames
  | some (.expr e) => e.typeNames

def Unrolling.bindingTypeNames : Option ValDecl → List String
  | none => []
  | some d => d.typeNames

mutual

def Stmt.typeNames : Stmt → List String
  | .typeAlias _ _ _ _ | .trait _ _ | .cell _ | .leave _ | .next _ | .give _ none => []
  | .record d => d.fields.flatMap (·.type.names)
  | .val d => d.typeNames
  | .assign _ _ e | .give _ (some e) | .assert _ e | .expr e => e.typeNames
  | .cond _ c yes none => c.typeNames ++ yes.typeNames
  | .cond _ c yes (some no) => c.typeNames ++ (yes.typeNames ++ no.typeNames)
  | .loop _ c body => c.typeNames ++ body.typeNames
  | .expand x => x.typeNames

def Stmt.allTypeNames : List Stmt → List String
  | [] => []
  | s :: ss => s.typeNames ++ Stmt.allTypeNames ss

def Block.typeNames : Block → List String
  | ⟨_, ss⟩ => Stmt.allTypeNames ss

/-- An expansion says its names in its template and again in its copies. -/
def Expansion.typeNames : Expansion → List String
  | ⟨_, _, init, var, range, body, _, state⟩ =>
    Init.typeNames init ++ (TypeRef.names? var.type ++ (range.typeNames ++ (body.typeNames ++ state.typeNames)))

def Unrolling.typeNames : Unrolling → List String
  | .pending | .deferred | .empty => []
  | .unrolled b cs => Unrolling.bindingTypeNames b ++ Copy.allTypeNames cs

def Copy.allTypeNames : List Copy → List String
  | [] => []
  | ⟨_, body⟩ :: cs => body.typeNames ++ Copy.allTypeNames cs

end

def CellDef.typeNames (c : CellDef) : List String :=
  c.args.flatMap (·.type.names) ++ (TypeRef.names? c.ret ++ c.body.typeNames)

end Unroll
