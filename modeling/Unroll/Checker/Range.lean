import Unroll.Checker.Expr
/-! # Ranges and their elements

A range is walked by the shape of its type.  Arrays and records are evaluated once, into a hidden
name, and read element by element; the elements of a brace list are expressions of their own, each
evaluated in its own copy.

The hidden names and the index that an expansion counts with have a point in them, so no program can
write them; the depth after the point keeps nested expansions apart.
-/
namespace Unroll.Check

open CheckM

/-- How the elements of a range are selected. -/
inductive Walk
  | array (length : Nat) (elem : Ty)
  | list (elems : List Ty)
  | members (record : String) (members : List Ident)
  /-- The number of elements depends on a template parameter further out. -/
  | dependent

namespace Walk

def count? : Walk → Option Nat
  | array n _ => some n
  | list ts => some ts.length
  | members _ ms => some ms.length
  | dependent => none

def label : Walk → String
  | array _ _ => "array-index"
  | list _ => "list-position"
  | members _ _ => "aggregate-member"
  | dependent => "dependent"

/-- Whether the range is evaluated once, before the copies. -/
def needsBinding : Walk → Bool
  | array _ _ | members _ _ => true
  | list _ | dependent => false

end Walk

def isAccessible (r : RecordInfo) (member : String) : Bool :=
  match r.field? member with
  | some f => !f.hidden
  | none => false

/-- Whether every member on the path can be reached, each in the record that the one before it
holds. -/
def isAccessiblePath (s : Checker) : RecordInfo → List String → Bool
  | _, [] => true
  | r, [member] => isAccessible r member
  | r, member :: rest =>
    match r.field? member with
    | none => false
    | some f =>
      !f.hidden && match s.record? f.type with
        | some next => isAccessiblePath s next rest
        | none => false

/-- How a range of the type is walked; a record must have no hidden member. -/
def walkOf (s : Checker) (span : Span) (t : Ty) : Except Diagnostic Walk :=
  match t with
  | .list elems => .ok (.list elems)
  | .array elem (some n) => .ok (.array n elem)
  | .array _ none | .param _ | .dependent => .ok .dependent
  | .record _ =>
    match s.record? t with
    | none => .error (.of (.unknownRangeRecord t) span)
    | some r =>
      match r.fields.find? fun f => !isAccessiblePath s r [f.name] with
      | some f => .error (.of (.hiddenMember t f.name) span)
      | none => .ok (.members r.name (r.fields.map fun f => ⟨f.name, span⟩))
  | _ => .error (.of (.notExpandable t) span)

/-- The expression for one element.  Members and elements are read from `base`, which is the hidden
name where there is one; a list stays what it is. -/
def selector (walk : Walk) (range base index : Expr) : Expr :=
  match walk with
  | .list _ => .listSelect range.span range index
  | .members _ ms => .memberSelect range.span base ms index
  | .array _ _ | .dependent => .index range.span base index

def rangeName (depth : Nat) : String := "__expansion_range." ++ toString depth

def indexName (depth : Nat) : String := "__expansion_index." ++ toString depth

/-- The parameter that an expansion counts with. -/
structure IndexParam where
  name : String
  depth : Nat
  span : Span

namespace IndexParam

def level (p : IndexParam) : ParamLevel := ⟨p.depth, [⟨p.name, .const⟩]⟩

def reference (p : IndexParam) : Expr := .ofIdent ⟨p.name, p.span⟩

/-- A statement that has been checked before keeps its depth, wherever it stands now. -/
def make (place : Place) (fixed : Option Nat) (keyword : Span) : IndexParam :=
  let depth := fixed.getD place.templates.length
  ⟨indexName depth, depth, keyword⟩

end IndexParam

/-- How an expression would be walked as a range. -/
def classify (deeper : Deeper) (range : Expr) : CheckM Walk := do
  let (e, t) ← rangeExpr deeper range
  ofExcept (walkOf (← get) e.span t)

/-- The element of a range with the given index.  A constant index collapses the selection at once,
a dependent one leaves it as it is; the result is not checked. -/
def selectElement (deeper : Deeper) (range index : Expr) : CheckM Expr := do
  let (e, t) ← rangeExpr deeper range
  let walk ← ofExcept (walkOf (← get) e.span t)
  match ← constIndex index with
  | none => return selector walk e e index
  | some i =>
    match walk.count? with
    | some n => if n ≤ i then fail (.selectionRange i .rangeElements n) index.span
    | none => pure ()
    ofExcept (Subst.expr [] (selector walk e e (.int index.span i)))

end Unroll.Check
