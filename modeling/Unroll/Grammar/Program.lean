import Unroll.Grammar.Stmt
/-! # Programs

Whole texts: a program, a program read in spite of its errors, a single expression, a single type.
-/
namespace Unroll

namespace Grammar

open Parse

def programStmts (bound : Nat) : Nat → Parse Program
  | 0 => stmt 0 >>= fun s => return [s]
  | n + 1 => do
    skipNewlines
    match ← peek with
    | some .eof => return []
    | _ =>
      let s ← stmt bound
      return s :: (← programStmts bound n)

/-- Drops the rest of a faulty statement, up to and with the end of its line or of its block. -/
def recover (c : Cursor) : Cursor :=
  let rest := c.rest.dropWhile fun t => t.kind ≠ .newline ∧ t.kind ≠ .dedent ∧ t.kind ≠ .eof
  match rest with
  | t :: after => { c with rest := if t.kind = .eof then rest else after }
  | [] => { c with rest }

/-- What a round of reading in spite of errors comes to.  A fault leaves the cursor where it was met. -/
inductive Round
  | ended
  | read (stmt : Stmt) (next : Cursor)
  | failed (error : ParseError) (stopped : Cursor)

def pastLines (c : Cursor) : Cursor := { c with rest := c.rest.dropWhile (·.kind = .newline) }

def round (bound : Nat) (c : Cursor) : Round :=
  if (pastLines c).kind? = some .eof then .ended
  else match stmt bound (pastLines c) with
    | .ok s c => .read s c
    | .error e c => .failed e c

/-- Every statement that can be read and the error of every one that cannot, from the given number of
rounds or as many as there are.  Where an error took the end mark no round is the last. -/
def recovering (bound : Nat) : Nat → Cursor → Program × List ParseError
  | 0, _ => ([], [])
  | n + 1, c =>
    match round bound c with
    | .ended => ([], [])
    | .read s c =>
      let (stmts, errors) := recovering bound n c
      (s :: stmts, errors)
    | .failed e c =>
      let (stmts, errors) := recovering bound n (recover c)
      (stmts, e :: errors)

def exprToEnd (n : Nat) : Parse Expr := do
  let e ← expr n
  skipNewlines
  if ← sees .eof then return e
  else fail .expectedEnd (← place e.span)

def run {α : Type} (p : Nat → Parse α) (tokens : List Token) : Except ParseError α :=
  match p tokens.length (.ofTokens tokens) with
  | .ok a _ => .ok a
  | .error e _ => .error e

end Grammar

def checkEdition (edition : Option String) : Except ParseError Unit :=
  match edition with
  | none => .ok ()
  | some e => if supportedEditions.contains e then .ok () else .error ⟨.edition e, ⟨0, 0⟩⟩

/-- The program that the tokens spell. -/
def program? (tokens : List Token) (edition : Option String) : Except ParseError Program := do
  checkEdition edition
  Grammar.run (fun n => Grammar.programStmts n n) tokens

def editionFaults (edition : Option String) : List ParseError :=
  match checkEdition edition with
  | .ok () => []
  | .error e => [e]

/-- As much of the program as can be read, and what is wrong with the rest.  A fault of the edition
is reported first and keeps nothing from being read. -/
def programRecovered (tokens : List Token) (edition : Option String) : Program × List ParseError :=
  let (stmts, errors) := Grammar.recovering tokens.length tokens.length (.ofTokens tokens)
  (stmts, editionFaults edition ++ errors)

/-- The expression that the tokens spell, with nothing after it but line ends. -/
def expr? (tokens : List Token) : Except ParseError Expr := Grammar.run Grammar.exprToEnd tokens

/-- The written type that the tokens begin with. -/
def typeRef? (tokens : List Token) : Except ParseError TypeRef := Grammar.run Grammar.typeRef tokens

end Unroll
