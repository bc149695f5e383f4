import Unroll.Table
/-! # Trees of files

Text files below one directory, seen from that directory.  A path is followed name by name, and each
name but the last has to lead to a directory; a directory is there when a file is below it.  What
lies outside the tree is not there.
-/
namespace Unroll

/-- What a path leads to, where it leads to something. -/
inductive Entry
  | text (content : String)
  /-- A directory, or anything else that cannot be read as text. -/
  | other
deriving DecidableEq, Repr

/-- Where a file is: the names of the directories above it, and its own. -/
abbrev FileTree.Place := List String

structure FileTree where
  files : List (FileTree.Place × String)
deriving DecidableEq, Repr

namespace FileTree

def text? (t : FileTree) (place : Place) : Option String := t.files.lookup place

def isDirectory (t : FileTree) (place : Place) : Bool :=
  place.isEmpty || t.files.any fun (p, _) => p != place && place.isPrefixOf p

/-- Follows names from a place. -/
def walk (t : FileTree) (here : Place) : List String → Option Place
  | [] => some here
  | name :: names =>
    if !t.isDirectory here then none
    else if name = "" || name = "." then walk t here names
    else if name = ".." then if here.isEmpty then none else walk t here.dropLast names
    else walk t (here ++ [name]) names

def place? (t : FileTree) (path : String) : Option Place :=
  if path.startsWith "/" then none else t.walk [] (path.splitOn "/")

def entry? (t : FileTree) (path : String) : Option Entry := do
  let place ← t.place? path
  match t.text? place with
  | some content => some (.text content)
  | none => if t.isDirectory place then some .other else none

/-- Writes a file, if the path leads to a file or to a free place in a directory. -/
def save? (t : FileTree) (path content : String) : Option FileTree := do
  let place ← t.place? path
  if t.isDirectory place then none
  else some ⟨t.files.filter (·.1 != place) ++ [(place, content)]⟩

/-- The files that are not in `before`, or not with this content. -/
def changesSince (t before : FileTree) : List (Place × String) :=
  t.files.filter fun (place, content) => before.text? place != some content

end FileTree

/-- The directory of a file and those above it, the innermost first: what to put in front of a name
to find it there. -/
def directoriesAbove (path : String) : List String :=
  let root := if path.startsWith "/" then "/" else ""
  let names := (path.splitOn "/").filter fun n => n != "" && n != "."
  (List.range names.length).reverse.map fun n =>
    root ++ String.join ((names.take n).map (· ++ "/"))

end Unroll
