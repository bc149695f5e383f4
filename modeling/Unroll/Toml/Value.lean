import Unroll.Table
/-! # Tables of a settings file

A settings file names each value once.  Whether a name may still be added to a table depends on how
the table came about, so a table carries its origin: `descend` follows a path of names and decides
at each step whether it may be entered.
-/
namespace Unroll.Toml

/-- How a table came about. -/
inductive Origin
  /-- It has a header of its own, or is the whole file. -/
  | header
  /-- The header of a table below it passed through. -/
  | passed
  /-- A dotted name passed through. -/
  | dotted
  /-- It was written between braces, and is complete. -/
  | inline
deriving DecidableEq, Repr

inductive Value
  | text (content : String)
  | integer (value : Int)
  /-- Kept as written: nothing computes with it. -/
  | float (literal : String)
  | boolean (value : Bool)
  /-- A date, a time or both, kept as written. -/
  | moment (literal : String)
  | array (items : List Value)
  /-- Tables with one header in double brackets each, the last one first. -/
  | tables (items : List (List (String × Value)))
  | table (origin : Origin) (entries : List (String × Value))

/-- A dotted name: the names of the tables it leads through, and the last one. -/
structure Key where
  path : List String
  name : String
deriving DecidableEq, Repr

/-- Follows `path` from a table, making the tables that are missing, and changes the one at its end.
A header may lead through any table that is not inline; a dotted name only through tables that have
no header. -/
def descend (isDotted : Bool) (change : Origin → Table Value → Option (Table Value)) :
    List String → Origin → Table Value → Option (Table Value)
  | [], origin, t => change origin t
  | name :: path, _, t =>
    match t.find? name with
    | none =>
      let origin := if isDotted then Origin.dotted else .passed
      (descend isDotted change path origin []).map fun inner => t.insert name (.table origin inner)
    | some (.table origin inner) =>
      if origin = .inline || (isDotted && origin = .header) then none
      else (descend isDotted change path origin inner).map fun inner =>
        t.set name (.table origin inner)
    | some (.tables (last :: earlier)) =>
      (descend isDotted change path .header last).map fun last =>
        t.set name (.tables (last :: earlier))
    | some _ => none

/-- Gives a name in the current table its value.  The tables that a dotted name leads through hold
what dotted names put there and nothing else. -/
def assign (key : Key) (v : Value) (current : Table Value) : Option (Table Value) :=
  descend true (fun origin t =>
    if (!key.path.isEmpty && origin != .dotted) || t.contains key.name then none
    else some (t.insert key.name v)) key.path .header current

/-- The table between two braces. -/
def ofPairs (pairs : List (Key × Value)) : Option Value :=
  (pairs.foldlM (fun t (k, v) => assign k v t) []).map (.table .inline)

/-- A header in brackets: a new table, or one that only headers below it have mentioned so far. -/
def openTable (key : Key) (root : Table Value) : Option (Table Value) :=
  descend false (fun _ t =>
    match t.find? key.name with
    | none => some (t.insert key.name (.table .header []))
    | some (.table .passed inner) => some (t.set key.name (.table .header inner))
    | some _ => none) key.path .header root

/-- A header in double brackets: one more table under the name. -/
def openElement (key : Key) (root : Table Value) : Option (Table Value) :=
  descend false (fun _ t =>
    match t.find? key.name with
    | none => some (t.insert key.name (.tables [[]]))
    | some (.tables items) => some (t.set key.name (.tables ([] :: items)))
    | some _ => none) key.path .header root

end Unroll.Toml
