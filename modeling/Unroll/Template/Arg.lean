import Unroll.Ty
/-! # Template arguments

A template is a cell, a type alias or the body of an expansion.  Each has one level of parameters;
levels are nested, and an argument list for several levels either binds a level or retains it, which
leaves its parameters alone.
-/
namespace Unroll

inductive TemplateArg
  | type (type : Ty)
  | value (value : Int)
deriving DecidableEq, Repr

/-- What a parameter accepts. -/
inductive ParamSort
  | type (bound : Option String)
  | const
deriving DecidableEq, Repr

structure ParamDecl where
  name : String
  sort : ParamSort
deriving DecidableEq, Repr

/-- The parameters of one template, and how many template scopes enclose them. -/
structure ParamLevel where
  depth : Nat
  params : List ParamDecl
deriving DecidableEq, Repr

namespace ParamLevel

def find? (l : ParamLevel) (name : String) : Option ParamDecl := l.params.find? (·.name = name)

def names (l : ParamLevel) : List String := l.params.map (·.name)

end ParamLevel

namespace TemplateArg

def display : TemplateArg → String
  | type t => t.canonical
  | value v => toString v

end TemplateArg

/-- The name of an instance: it spells the arguments, so two instances of one cell have one name
just where they have the same arguments. -/
def mangle (name : String) (args : List TemplateArg) : String :=
  name ++ "<" ++ ", ".intercalate (args.map TemplateArg.display) ++ ">"

inductive ArgLevel
  | retained
  | bound (names : List String) (args : List TemplateArg)
deriving Repr

/-- Outermost first. -/
abbrev ArgLevels := List ArgLevel

namespace ArgLevel

def lookup? (name : String) : ArgLevel → Option TemplateArg
  | retained => none
  | bound names args => (names.idxOf? name).bind (args[·]?)

end ArgLevel

namespace ArgLevels

/-- So many outer levels, all left alone. -/
def retaining (depth : Nat) : ArgLevels := List.replicate depth .retained

def bind (ls : ArgLevels) (names : List String) (args : List TemplateArg) : ArgLevels :=
  ls ++ [.bound names args]

/-- Whether the level is left alone; levels further in than all given ones are. -/
def isRetained (ls : ArgLevels) (depth : Nat) : Bool :=
  match ls[depth]? with
  | some (.bound _ _) => false
  | _ => true

/-- The innermost argument for the name. -/
def lookup? (ls : ArgLevels) (name : String) : Option TemplateArg :=
  ls.reverse.findSome? (·.lookup? name)

end ArgLevels

end Unroll
