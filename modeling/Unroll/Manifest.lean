import Unroll.Checker.State
import Unroll.Toml.Document
/-! # Manifests

A project states its name, the edition of the language it is written in and the limits of the
checker in a settings file.  It may hold two tables, `project` and `expansion`; names in them that
mean nothing are passed over.
-/
namespace Unroll

structure Manifest where
  name : Option String := none
  edition : Option String := none
  config : Config := .standard
deriving DecidableEq, Repr

/-- What is wrong with a manifest. -/
inductive ManifestError
  | malformed
  | unknown (table : String)
  | wrongType (name : String)
deriving DecidableEq, Repr

namespace ManifestError

def message : ManifestError → String
  | malformed => "malformed settings"
  | unknown table => "unknown table '" ++ table ++ "'"
  | wrongType name => "wrong type for '" ++ name ++ "'"

end ManifestError

namespace Manifest

/-- The values under some names of a table.  An array stands for a table with these names, in this
order, and a date or a time for a table in which none of them has a value. -/
def values? (names : List String) : Toml.Value → Option (List (Option Toml.Value))
  | .table _ t => some (names.map (Table.find? t))
  | .array vs => some ((List.range names.length).map (vs[·]?))
  | .moment _ => some (names.map fun _ => none)
  | _ => none

def text (name : String) : Option Toml.Value → Except ManifestError (Option String)
  | none => .ok none
  | some (.text s) => .ok (some s)
  | some _ => .error (.wrongType name)

def count (name : String) (standard : Nat) : Option Toml.Value → Except ManifestError Nat
  | none => .ok standard
  | some (.integer n) => if n < 0 then .error (.wrongType name) else .ok n.toNat
  | some _ => .error (.wrongType name)

def withProject (m : Manifest) : Option Toml.Value → Except ManifestError Manifest
  | none => .ok m
  | some v =>
    match values? ["name", "edition"] v with
    | some [name, edition] =>
      return { m with name := ← text "name" name, edition := ← text "edition" edition }
    | _ => .error (.wrongType "project")

def withExpansion (m : Manifest) : Option Toml.Value → Except ManifestError Manifest
  | none => .ok m
  | some v =>
    match values? ["max_instantiation_depth", "max_expansion_size"] v with
    | some [depth, size] => do
      let depth ← count "max_instantiation_depth" m.config.maxInstantiationDepth depth
      let size ← count "max_expansion_size" m.config.maxExpansionSize size
      return { m with config := ⟨depth, size⟩ }
    | _ => .error (.wrongType "expansion")

def parse (source : String) : Except ManifestError Manifest := do
  match Toml.parse? source with
  | none => throw .malformed
  | some t =>
    match List.find? (fun (name, _) => name != "project" && name != "expansion") t with
    | some (name, _) => throw (.unknown name)
    | none => withExpansion (← withProject {} (t.lookup "project")) (t.lookup "expansion")

end Manifest

end Unroll
