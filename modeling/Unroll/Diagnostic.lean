import Unroll.Template.Arg
/-! # Diagnostics of the checker

An error is a cause, a place and a back-trace.  Causes are data; their wording is in one function,
and so is the class that each belongs to.  An error inside an instance or a copy is wrapped once for
every instance and copy around it, and keeps the class of a limit through all of them.
-/
namespace Unroll

inductive DiagnosticKind
  | shape
  | instantiation
  | indexEvaluation
  | type
  | name
  | limit
deriving DecidableEq, Repr

namespace DiagnosticKind

def label : DiagnosticKind → String
  | shape => "shape"
  | instantiation => "instantiation"
  | indexEvaluation => "index-evaluation"
  | type => "type"
  | name => "name"
  | limit => "limit"

end DiagnosticKind

/-- What can be a template of its own. -/
inductive TemplateKind
  | typeAlias
  | cell
  | variable_
  | predicate
deriving DecidableEq, Repr

namespace TemplateKind

def label : TemplateKind → String
  | typeAlias => "type alias"
  | cell => "cell"
  | variable_ => "variable"
  | predicate => "predicate"

end TemplateKind

/-- An instantiation that is under way. -/
inductive FrameKind
  | cell (name : String)
  | typeAlias (name : String)
  | copy (depth index : Nat)
deriving DecidableEq, Repr

namespace FrameKind

def describe : FrameKind → String
  | cell name => "in instantiation of cell '" ++ name ++ "'"
  | typeAlias name => "in instantiation of type '" ++ name ++ "'"
  | copy _ index => "in expansion instantiation for index " ++ toString index

end FrameKind

/-- What takes no template arguments. -/
inductive Plain
  | builtin
  | typeParam
  | record
  | typeAlias
deriving DecidableEq, Repr

namespace Plain

def label : Plain → String
  | builtin => "type"
  | typeParam => "type parameter"
  | record => "record"
  | typeAlias => "type alias"

end Plain

/-- What has a condition. -/
inductive Condition
  | cond
  | loop
  | assertion
deriving DecidableEq, Repr

namespace Condition

def label : Condition → String
  | cond => "if"
  | loop => "while"
  | assertion => "assert"

end Condition

/-- What an index selects from: the words for the whole and for its parts. -/
inductive Selected
  | listElements
  | recordElements
  | recordMembers
  | rangeElements
deriving DecidableEq, Repr

inductive Cause
  -- declarations
  | notDeclaration
  | traitDefined (name : String)
  | typeDefined (name : String)
  | typeDefinedHere (name : String)
  | cellReserved (name : String)
  | cellDefined (name : String)
  | valDefinedHere (name : String)
  | duplicateParam (name : String)
  | duplicateField (field record : String)
  | unknownTrait (name : String)
  | constParamType
  | shadowsParam (name : String)
  | noScope
  | nestedAlias
  | nestedTrait
  | nestedCell
  -- types
  | unknownType (name : String)
  | unknownRecord (type : Ty)
  | traitAsType (name : String)
  | valueParamAsType (name : String)
  | lengthNegative
  | lengthNotInt
  | lengthRange
  | takesNoArgs (plain : Plain) (name : String)
  | aliasArity (name : String) (expected found : Nat)
  | tooManyArgs (owner : String) (expected found : Nat)
  | typeArgExpected (param : String)
  | constArgExpected (param : String)
  | intArgExpected (param : String)
  | templateArity (name : String) (expected found : Nat)
  | boundUnmet (type : Ty) (bound : String)
  | paramTakesType (param : String) (value : Int)
  | paramTakesConst (param : String) (type : Ty)
  | unknownTemplate (kind : TemplateKind) (name : String)
  | noTemplate (kind : TemplateKind) (name : String)
  | conflictingDeduction (param cell : String) (first second : TemplateArg)
  | notDeduced (param cell : String)
  -- statements
  | mismatch (expected found : Ty)
  | outsideLoop (keyword : String)
  | immutable (name : String)
  | conditionType (condition : Condition) (type : Ty)
  | returnMissing (type : Ty)
  | assertionFails
  -- expressions
  | unknownName (name : String)
  | typeParamAsValue (name : String)
  | cellAsValue (name : String)
  | strayList
  | negation (type : Ty)
  | complement (type : Ty)
  | operator (op : BinOp) (left right : Ty)
  | emptyArray
  | elementMismatch (expected found : Ty)
  | notRecord (name : String)
  | noField (record : Ty) (field : String)
  | noFieldInType (type : Ty) (field : String)
  | fieldHidden (field : String) (record : Ty)
  | fieldRepeated (field : String)
  | fieldMissing (field : String) (record : Ty)
  | indexType (type : Ty)
  | indexBounds (index : Int) (length : Nat)
  | notIndexable (type : Ty)
  | unknownCell (name : String)
  | notGeneric (name : String)
  | callArity (name : String) (expected found : Nat)
  | builtinArity (name : String) (found : Nat)
  | lenArg (type : Ty)
  -- constants and selections
  | notConstant (what : String)
  | constOverflow
  | constDivision
  | indexNegative (index : Int)
  | indexNotInt
  | selectionOf
  | selectionRange (index : Int) (selected : Selected) (count : Nat)
  -- expansions
  | hiddenMember (record : Ty) (member : String)
  | unknownRangeRecord (type : Ty)
  | notExpandable (type : Ty)
  | notSubstitutable (type : Ty) (param : String)
  | depthLimit (limit : Nat)
  | sizeLimit (count limit : Nat)
  | inCell (name : String) (inner : Cause)
  | inCopy (index : Nat) (inner : Cause)
deriving Repr

namespace Cause

def kind : Cause → DiagnosticKind
  | traitDefined _ | typeDefined _ | typeDefinedHere _ | cellReserved _ | cellDefined _
  | valDefinedHere _ | duplicateParam _ | duplicateField _ _ | unknownTrait _ | shadowsParam _
  | noScope | unknownType _ | unknownTemplate _ _ | noTemplate _ _ | unknownName _ | noField _ _
  | fieldRepeated _ | unknownCell _ => .name
  | notConstant _ | constOverflow | constDivision | indexNegative _ | indexNotInt
  | selectionOf | selectionRange _ _ _ => .indexEvaluation
  | hiddenMember _ _ | unknownRangeRecord _ | notExpandable _ => .shape
  | notSubstitutable _ _ => .instantiation
  | depthLimit _ | sizeLimit _ _ => .limit
  | inCell _ inner | inCopy _ inner => if inner.kind = .limit then .limit else .instantiation
  | _ => .type

def quote (s : String) : String := "'" ++ s ++ "'"

def selection (index : Int) (count : Nat) : Selected → String
  | .listElements => words "a brace list" "elements"
  | .recordElements => words "a record" "elements"
  | .recordMembers => words "a record" "members"
  | .rangeElements => words "a range" "elements"
where
  words (whole parts : String) : String :=
    s!"index {index} is out of range for {whole} of {count} {parts}"

def message : Cause → String
  | notDeclaration => "only declarations are allowed at top level"
  | traitDefined n => "trait " ++ quote n ++ " already defined"
  | typeDefined n => "type " ++ quote n ++ " already defined"
  | typeDefinedHere n => "type " ++ quote n ++ " already defined in this scope"
  | cellReserved n => "cell name " ++ quote n ++ " is reserved for a builtin"
  | cellDefined n => "cell " ++ quote n ++ " already defined"
  | valDefinedHere n => "val " ++ quote n ++ " already defined in this scope"
  | duplicateParam n => "duplicate template parameter " ++ quote n
  | duplicateField f r => "duplicate field " ++ quote f ++ " in record " ++ quote r
  | unknownTrait n => "unknown trait " ++ quote n ++ " in template parameter constraint"
  | constParamType => "const template parameters must have type int"
  | shadowsParam n => "declaration of " ++ quote n ++ " shadows a template parameter"
  | noScope => "no scope to declare in"
  | nestedAlias => "type aliases must be declared at top level"
  | nestedTrait => "traits must be declared at top level"
  | nestedCell => "cells must be declared at top level"
  | unknownType n => "unknown type " ++ quote n
  | unknownRecord t | unknownRangeRecord t => "unknown record type " ++ quote t.display
  | traitAsType n => "trait " ++ quote n ++ " cannot be used as a type"
  | valueParamAsType n => quote n ++ " is a value parameter, not a type"
  | lengthNegative => "array length must not be negative"
  | lengthNotInt => "array length must be an integer"
  | lengthRange => "array length does not fit in 64 bits"
  | takesNoArgs what n => what.label ++ " " ++ quote n ++ " takes no template arguments"
  | aliasArity n expected found =>
    s!"type alias {quote n} expects {expected} template arguments, found {found}"
  | tooManyArgs owner expected found =>
    s!"too many template arguments for {quote owner}: expected at most {expected}, found {found}"
  | typeArgExpected p => "expected a type for template parameter " ++ quote p ++ ", found a value"
  | constArgExpected p =>
    "expected a constant for template parameter " ++ quote p ++ ", found a type"
  | intArgExpected p => "template parameter " ++ quote p ++ " expects an int"
  | templateArity n expected found =>
    s!"{quote n} expects {expected} template arguments, found {found}"
  | boundUnmet t b =>
    "type argument " ++ quote t.display ++ " does not satisfy trait bound " ++ quote b
  | paramTakesType p v => s!"template parameter {quote p} expects a type, found {v}"
  | paramTakesConst p t =>
    s!"template parameter {quote p} expects a constant, found type {t.display}"
  | unknownTemplate k n => "unknown " ++ k.label ++ " template " ++ quote n
  | noTemplate k n => "no " ++ k.label ++ " template named " ++ quote n
  | conflictingDeduction p cell a b =>
    s!"conflicting deduction for {quote p} in call to {quote cell}: {a.display} and {b.display}"
  | notDeduced p cell => "cannot deduce template argument " ++ quote p ++ " for cell " ++ quote cell
  | mismatch expected found =>
    s!"mismatched types: expected {expected.display}, found {found.display}"
  | outsideLoop k => quote k ++ " outside of a loop or expansion statement"
  | immutable n => "cannot assign to immutable val " ++ quote n
  | conditionType c t => s!"{c.label} condition must be bool, found {t.display}"
  | returnMissing t => "missing return value of type " ++ t.display
  | assertionFails => "assertion always fails"
  | unknownName n => "unknown name " ++ quote n
  | typeParamAsValue n => quote n ++ " is a type parameter, not a value"
  | cellAsValue n => "cell " ++ quote n ++ " cannot be used as a value"
  | strayList => "a brace-enclosed list can only be used as an expansion range"
  | negation t => "cannot negate a value of type " ++ t.display
  | complement t => "'!' expects bool, found " ++ t.display
  | operator op l r =>
    s!"operator {quote op.spelling} cannot be applied to {l.display} and {r.display}"
  | emptyArray =>
    "cannot infer the element type of an empty array literal; add a type annotation"
  | elementMismatch expected found =>
    "array elements must have the same type: expected " ++ expected.display ++ ", found " ++
      found.display
  | notRecord n => quote n ++ " is not a record type"
  | noField r f => "record " ++ quote r.display ++ " has no field " ++ quote f
  | noFieldInType t f => "type " ++ t.display ++ " has no field " ++ quote f
  | fieldHidden f r => "field " ++ quote f ++ " of record " ++ quote r.display ++ " is private"
  | fieldRepeated f => "field " ++ quote f ++ " specified more than once"
  | fieldMissing f r => "missing field " ++ quote f ++ " in record literal " ++ quote r.display
  | indexType t => "array index must be int, found " ++ t.display
  | indexBounds k n => s!"index {k} is out of bounds for an array of length {n}"
  | notIndexable t => "cannot index a value of type " ++ t.display
  | unknownCell n => "unknown cell " ++ quote n
  | notGeneric n => "cell " ++ quote n ++ " is not generic"
  | callArity n expected found =>
    s!"wrong number of arguments to {quote n}: expected {expected}, got {found}"
  | builtinArity n found => s!"{quote n} expects 1 argument, got {found}"
  | lenArg t => "len expects an array, found " ++ t.display
  | notConstant what => what ++ " is not a constant expression"
  | constOverflow => "overflow in constant expression"
  | constDivision => "division by zero in constant expression"
  | indexNegative n => s!"index {n} is negative"
  | indexNotInt => "index must be an integer"
  | selectionOf => "list selection requires a brace-enclosed list"
  | selectionRange index selected count => selection index count selected
  | hiddenMember r m =>
    "cannot expand over " ++ quote r.display ++ ": member " ++ quote m ++ " is not accessible"
  | notExpandable t =>
    "cannot expand over a value of type " ++ quote t.display ++
      ": expected an array, a brace-enclosed list, or a record"
  | notSubstitutable t p =>
    "type " ++ quote t.display ++ " cannot be substituted for " ++ quote p
  | depthLimit n =>
    s!"instantiation depth limit of {n} exceeded (set max_instantiation_depth to raise it)"
  | sizeLimit n limit => s!"expansion of {n} elements exceeds max_expansion_size ({limit})"
  | inCell n inner => "cannot instantiate " ++ quote n ++ ": " ++ inner.message
  | inCopy i inner =>
    s!"expansion statement is ill-formed: instantiation {i} failed: " ++ inner.message

end Cause

/-- Where in the back-trace an error was met. -/
inductive NoteKind
  | frame (frame : FrameKind)
  | copy (index : Nat)
deriving DecidableEq, Repr

structure Note where
  kind : NoteKind
  span : Span
deriving DecidableEq, Repr

namespace Note

def message (n : Note) : String :=
  match n.kind with
  | .frame f => f.describe
  | .copy i => "in instantiation for index " ++ toString i

end Note

structure Diagnostic where
  cause : Cause
  span : Span
  /-- Innermost first. -/
  notes : List Note
deriving Repr

namespace Diagnostic

def of (cause : Cause) (span : Span) : Diagnostic := ⟨cause, span, []⟩

def kind (d : Diagnostic) : DiagnosticKind := d.cause.kind

def message (d : Diagnostic) : String := d.cause.message

/-- The error as seen from the place that asked for the instance. -/
def inCell (d : Diagnostic) (name : String) (place : Span) : Diagnostic :=
  ⟨.inCell name d.cause, place, ⟨.frame (.cell name), d.span⟩ :: d.notes⟩

/-- The error as seen from the expansion whose copy it is in. -/
def inCopy (d : Diagnostic) (index : Nat) (keyword : Span) : Diagnostic :=
  ⟨.inCopy index d.cause, keyword, ⟨.copy index, d.span⟩ :: d.notes⟩

end Diagnostic

end Unroll
