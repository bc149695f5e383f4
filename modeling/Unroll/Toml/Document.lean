import Unroll.Toml.Number
import Unroll.Toml.Text
import Unroll.Toml.Value
/-! # Settings files

A settings file is a list of lines, each of which opens a table or gives a name its value.  `parse?`
reads the lines and then carries them out one after the other on an empty table.
-/
namespace Unroll.Toml

/-- More parts than this in a name, or more brackets in each other, are refused. -/
def deepest : Nat := 79

inductive Line
  | table (key : Key)
  | element (key : Key)
  | pair (key : Key) (value : Value)

namespace Reader

/-! ## Names -/

def isBare (c : Char) : Bool := c.isAlphanum || c == '-' || c == '_'

def simpleKey : Reader String := fun
  | '"' :: r => (Text.basic r).map fun (s, r) => (String.ofList s, r)
  | '\'' :: r => (Text.literal r).map fun (s, r) => (String.ofList s, r)
  | cs =>
    if (cs.takeWhile isBare).isEmpty then none
    else some (String.ofList (cs.takeWhile isBare), cs.dropWhile isBare)

/-- A name of at most `parts` parts, and the spaces around it. -/
def key : (parts : Nat) → Reader Key
  | 0 => failure
  | parts + 1 => do
    spaces
    let name ← simpleKey
    spaces
    if (← next) = some '.' then
      char '.'
      let k ← key parts
      return ⟨name :: k.path, k.name⟩
    return ⟨[], name⟩

/-! ## Values -/

def isWordPart (c : Char) : Bool :=
  c.isAlphanum || c == '+' || c == '-' || c == '_' || c == '.' || c == ':'

/-- The value that a single word stands for. -/
def ofWord (word : List Char) : Option Value :=
  if word = ['t', 'r', 'u', 'e'] then some (.boolean true)
  else if word = ['f', 'a', 'l', 's', 'e'] then some (.boolean false)
  else if isMoment word then some (.moment (String.ofList word))
  else if isFloat word then some (.float (String.ofList word))
  else (integer? word).map .integer

/-- A value without brackets.  A date and a time may have a space between them. -/
def plain : Reader Value := fun
  | '"' :: '"' :: '"' :: r =>
    (Text.basicLines false (Text.dropBreak r)).map fun (s, r) => (.text (String.ofList s), r)
  | '"' :: r => (Text.basic r).map fun (s, r) => (.text (String.ofList s), r)
  | '\'' :: '\'' :: '\'' :: r =>
    (Text.literalLines (Text.dropBreak r)).map fun (s, r) => (.text (String.ofList s), r)
  | '\'' :: r => (Text.literal r).map fun (s, r) => (.text (String.ofList s), r)
  | cs =>
    let word := cs.takeWhile isWordPart
    let rest := cs.dropWhile isWordPart
    let time := (rest.drop 1).takeWhile isWordPart
    if isDate word && rest.head? = some ' ' && isTimeAndOffset time then
      some (.moment (String.ofList (word ++ ' ' :: time)), (rest.drop 1).dropWhile isWordPart)
    else (ofWord word).map (·, rest)

def pair (value : Reader Value) : Reader (Key × Value) := do
  let k ← key deepest
  char '='
  spaces
  return (k, ← value)

/-- A value in which so many brackets may still be opened in each other. -/
def value : (depth : Nat) → Reader Value
  | 0 => plain
  | depth + 1 => fun
    | '[' :: r => (items (value depth) (r.length + 1) r).map fun (vs, r) => (.array vs, r)
    | '{' :: r =>
      match r.dropWhile isSpace with
      | '}' :: r => some (.table .inline [], r)
      | r =>
        match members (pair (value depth)) (r.length + 1) r with
        | some (pairs, r) => (ofPairs pairs).map (·, r)
        | none => none
    | cs => plain cs

/-! ## Lines -/

/-- One line with something on it. -/
def line : Reader Line := do
  if (← next) = some '[' then
    char '['
    if (← next) = some '[' then
      char '['
      let k ← key deepest
      char ']'
      char ']'
      lineEnd
      return .element k
    let k ← key deepest
    char ']'
    lineEnd
    return .table k
  let (k, v) ← pair (value deepest)
  lineEnd
  return .pair k v

/-- All lines, at most `most` of them. -/
def lines : (most : Nat) → Reader (List Line)
  | 0 => failure
  | most + 1 => do
    gap false
    if (← next).isNone then return []
    let l ← line
    return l :: (← lines most)

end Reader

/-- A file that has been read so far, and the path to the table that pairs go into. -/
structure Document where
  root : Table Value
  current : List String

namespace Document

def add (d : Document) : Line → Option Document
  | .table k => (openTable k d.root).map (⟨·, k.path ++ [k.name]⟩)
  | .element k => (openElement k d.root).map (⟨·, k.path ++ [k.name]⟩)
  | .pair k v =>
    (descend false (fun _ => assign k v) d.current .header d.root).map ({ d with root := · })

end Document

/-- A mark at the very beginning that says how the text is encoded counts for nothing. -/
def dropMark : List Char → List Char
  | '\uFEFF' :: r => r
  | r => r

def parse? (source : String) : Option (Table Value) := do
  let cs := dropMark source.toList
  let (lines, _) ← Reader.lines (cs.length + 1) cs
  let d ← lines.foldlM Document.add ⟨[], []⟩
  return d.root

end Unroll.Toml
