import Unroll.Token.Scan
/-! # Layout

Lines become one stream of tokens.  A line that opens deeper than the one before it is preceded by
one indent, a line that opens further out by one dedent for each level it leaves, and every logical
line ends in a newline.  An open bracket switches all of this off until it is closed, so that a
bracketed phrase may run over as many lines as it likes.

The open levels are kept innermost first and without the outermost, which is column zero and never
left; that the levels grow strictly from the outside in is what makes the dedents of a text match
its indents.
-/
namespace Unroll

structure Line where
  start : Nat
  /-- Without the line end. -/
  content : List Char
  stop : Nat

namespace Line

/-- Cuts the text after each line feed; there is no line after a last line feed. -/
def split (start : Nat) : List Char → List Line
  | [] => []
  | c :: rest =>
    let content := (c :: rest).takeWhile (· != '\n')
    match (c :: rest).drop content.length with
    | [] => [⟨start, content, start + Text.width content⟩]
    | _ :: after =>
      let stop := start + Text.width content + 1
      ⟨start, content, stop⟩ :: split stop (rest.drop content.length)
termination_by cs => cs.length
decreasing_by simp only [List.length_drop, List.length_cons]; omega

/-- The line up to a comment.  Comment marks inside a quotation do not count, and a quotation left
open reaches to the end of the line. -/
def beforeComment (quote : Option Char) : List Char → List Char
  | [] => []
  | c :: rest =>
    match quote with
    | some q =>
      if c = '\\' then
        match rest with
        | [] => [c]
        | d :: after => c :: d :: beforeComment quote after
      else c :: beforeComment (if c = q then none else quote) rest
    | none =>
      if c = '#' then []
      else if c = '/' ∧ rest.head? = some '/' then []
      else c :: beforeComment (if c = '"' ∨ c = '\'' then some c else none) rest

def span (l : Line) : Span := .between l.start l.stop

def leading (l : Line) : Nat := (l.content.takeWhile (· == ' ')).length

/-- What the line says, from its first character that is not a space. -/
def code (l : Line) : List Char := beforeComment none (l.content.drop l.leading)

end Line

structure Layout where
  /-- The open indentation levels, innermost first. -/
  levels : List Nat
  /-- The number of open brackets. -/
  depth : Nat
  tokens : Array Token

namespace Layout

def start : Layout := ⟨[], 0, #[]⟩

def level (levels : List Nat) : Nat := levels.headD 0

/-- Adjusts the open levels to a line that starts at column `column`. -/
def align (s : Layout) (l : Line) (column : Nat) : Except LexError Layout :=
  if 0 < s.depth then .ok s
  else
    let span : Span := ⟨l.start, column⟩
    let current := level s.levels
    if current < column then
      .ok { s with levels := column :: s.levels, tokens := s.tokens.push ⟨.indent, span⟩ }
    else
      let left := s.levels.takeWhile (column < ·)
      let levels := s.levels.drop left.length
      if level levels = column then
        .ok { s with levels, tokens := s.tokens ++ left.map (fun _ => (⟨.dedent, span⟩ : Token)) }
      else .error ⟨.indentation, l.span⟩

def line (s : Layout) (l : Line) : Except LexError Layout :=
  if l.content.all Text.isBlank then .ok s
  else if l.content.contains '\t' then .error ⟨.tab, l.span⟩
  else if l.code.all Text.isBlank then .ok s
  else do
    let s ← s.align l l.leading
    let (tokens, depth) ← scanLine s.depth (l.start + l.leading) l.code
    let tokens := s.tokens ++ tokens
    return { s with
      depth
      tokens := if depth = 0 then tokens.push ⟨.newline, ⟨l.stop, 0⟩⟩ else tokens }

def finish (s : Layout) (stop : Nat) : Except LexError (List Token) :=
  let span : Span := ⟨stop, 0⟩
  if 0 < s.depth then .error ⟨.unclosed, span⟩
  else .ok (s.tokens.toList ++ s.levels.map (fun _ => (⟨.dedent, span⟩ : Token)) ++ [⟨.eof, span⟩])

end Layout

/-- The tokens of a source text; the last one, and only that, is the end mark. -/
def tokens (source : String) : Except LexError (List Token) := do
  let cs := source.toList
  let s ← (Line.split 0 cs).foldlM Layout.line Layout.start
  s.finish (Text.width cs)

end Unroll
