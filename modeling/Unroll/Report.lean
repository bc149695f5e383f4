import Unroll.Checker.Program
/-! # The expansion report

A list of every expansion in the cells that can run: outer ones before inner ones, in source order,
and those inside an unrolled body once for each copy.  An expansion of a template counts where the
template has been instantiated.
-/
namespace Unroll

/-- An expansion, and the cell that it stands in. -/
structure Site where
  cell : String
  expansion : Expansion

namespace Site

mutual

def ofStmt (cell : String) : Stmt → List Site
  | .cond _ _ yes none => ofBlock cell yes
  | .cond _ _ yes (some no) => ofBlock cell yes ++ ofBlock cell no
  | .loop _ _ body => ofBlock cell body
  | .expand x => ofExpansion cell x
  | _ => []

def ofStmts (cell : String) : List Stmt → List Site
  | [] => []
  | s :: ss => ofStmt cell s ++ ofStmts cell ss

def ofBlock (cell : String) : Block → List Site
  | ⟨_, ss⟩ => ofStmts cell ss

def ofExpansion (cell : String) : Expansion → List Site
  | ⟨span, keyword, init, var, range, body, depth, .unrolled binding cs⟩ =>
    ⟨cell, ⟨span, keyword, init, var, range, body, depth, .unrolled binding cs⟩⟩ ::
      ofCopies cell cs
  | x => [⟨cell, x⟩]

def ofCopies (cell : String) : List Copy → List Site
  | [] => []
  | c :: cs => ofCopy cell c ++ ofCopies cell cs

def ofCopy (cell : String) : Copy → List Site
  | ⟨_, body⟩ => ofBlock cell body

end

end Site

/-- Every expansion in a cell that can run. -/
def CheckedProgram.sites (p : CheckedProgram) : List Site :=
  p.cells.flatMap fun c => Site.ofBlock c.name.name c.body

structure ReportEntry where
  cell : String
  span : Span
  keyword : Span
  depth : Option Nat
  state : String
  copies : Nat
  /-- The hidden name of the range. -/
  binding : Option String
deriving DecidableEq, Repr

structure Report where
  input : String
  instances : List String
  entries : List ReportEntry
deriving DecidableEq, Repr

namespace Unrolling

def label : Unrolling → String
  | pending => "pending"
  | deferred => "deferred"
  | empty => "empty"
  | unrolled _ _ => "expanded"

def binding? : Unrolling → Option ValDecl
  | unrolled b _ => b
  | _ => none

end Unrolling

namespace Report

def schema : String := "quill.expansion-report/v1"

def entry (s : Site) : ReportEntry where
  cell := s.cell
  span := s.expansion.span
  keyword := s.expansion.keyword
  depth := s.expansion.depth
  state := s.expansion.state.label
  copies := s.expansion.state.copies.length
  binding := s.expansion.state.binding?.map (·.name.name)

def ofProgram (input : String) (p : CheckedProgram) : Report :=
  ⟨input, p.instances.map (·.name.name), p.sites.map entry⟩

/-! ## The report as JSON -/

/-- How a character is written inside a JSON string. -/
def escape (c : Char) : List Char :=
  match c with
  | '"' => ['\\', '"']
  | '\\' => ['\\', '\\']
  | '\x08' => ['\\', 'b']
  | '\x0c' => ['\\', 'f']
  | '\n' => ['\\', 'n']
  | '\r' => ['\\', 'r']
  | '\t' => ['\\', 't']
  | c =>
    if c.toNat < 16 then ['\\', 'u', '0', '0', '0'] ++ Text.hexDigits c.toNat
    else if c.toNat < 32 then ['\\', 'u', '0', '0'] ++ Text.hexDigits c.toNat
    else [c]

def quoted (s : String) : String := String.ofList ('"' :: s.toList.flatMap escape ++ ['"'])

def indent (n : Nat) : String := String.ofList (List.replicate (2 * n) ' ')

/-- A bracketed list over several lines, one item on each; an empty one is two brackets. -/
def spread (level : Nat) (opening closing : String) (items : List String) : String :=
  if items.isEmpty then opening ++ closing
  else opening ++ "\n" ++ ",\n".intercalate (items.map (indent (level + 1) ++ ·)) ++ "\n" ++
    indent level ++ closing

def array (level : Nat) (items : List String) : String := spread level "[" "]" items

def object (level : Nat) (fields : List (String × String)) : String :=
  spread level "\x7b" "\x7d" (fields.map fun (k, v) => quoted k ++ ": " ++ v)

def spanJson (level : Nat) (s : Span) : String :=
  object level [("offset", toString s.offset), ("len", toString s.length)]

def given {α : Type} (key : String) (f : α → String) : Option α → List (String × String)
  | some a => [(key, f a)]
  | none => []

def entryJson (level : Nat) (e : ReportEntry) : String :=
  object level ([("cell", quoted e.cell), ("span", spanJson (level + 1) e.span),
    ("keyword", spanJson (level + 1) e.keyword)] ++ given "depth" toString e.depth ++
    [("state", quoted e.state), ("instantiations", toString e.copies)] ++
    given "range_binding" quoted e.binding)

/-- The text of the report file; it has no line end after it. -/
def json (r : Report) : String :=
  object 0 [("schema", quoted schema), ("input", quoted r.input),
    ("instantiated_cells", array 1 (r.instances.map quoted)),
    ("expansions", array 1 (r.entries.map (entryJson 2)))]

end Report

end Unroll
