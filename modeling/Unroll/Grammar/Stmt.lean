import Unroll.Grammar.Expr
/-! # Statements

A block is an indented run of statements after a colon.  A statement ends with its line, or with the
block it stands in.
-/
namespace Unroll.Grammar

open Parse

def startsExpr : TokenKind → Bool
  | .name _ | .int _ | .char _ | .text _ => true
  | .keyword .trueWord | .keyword .falseWord => true
  | .symbol .lparen | .symbol .lbrace | .symbol .lbracket => true
  | .symbol .minus | .symbol .bang => true
  | _ => false

/-- A written type behind the given mark, where the mark stands. -/
def typeBehind (mark : Symbol) (n : Nat) : Parse (Option TypeRef) := do
  if ← eat (.symbol mark) then return some (← typeRef n) else return none

def templateParam (n : Nat) : Parse TemplateParam := do
  if ← sees (.keyword .const) then
    let start ← expect (.keyword .const)
    let name ← ident
    let _ ← expect (.symbol .colon)
    let type ← typeRef n
    return ⟨start.join type.span, name, .const type⟩
  else
    let name ← ident
    if ← eat (.symbol .colon) then
      let bound ← ident
      return ⟨name.span.join bound.span, name, .type (some bound)⟩
    else return ⟨name.span, name, .type none⟩

def templateParams (n : Nat) : Parse (List TemplateParam) := do
  if ← sees (.symbol .lt) then
    let opening ← expect (.symbol .lt)
    if ← sees (.symbol .gt) then fail .noTemplateParams opening
    let params ← commaSeparated (templateParam n) (return true) n
    let _ ← expect (.symbol .gt)
    return params
  else return []

def param (n : Nat) : Parse Param := do
  let name ← ident
  let _ ← expect (.symbol .colon)
  let mutable ← eat (.keyword .mut)
  let type ← typeRef n
  return ⟨name.span.join type.span, name, mutable, type⟩

def traitDef : Parse Stmt := do
  let start ← expect (.keyword .trait)
  let name ← ident
  lineEnd
  return .trait (start.join name.span) name

/-- The fields of a record type and its closing brace. -/
def recordFields (bound : Nat) (opening : Span) : Nat → Parse (List RecordField × Span)
  | 0 => endOfInput
  | n + 1 => do
    match ← peek with
    | some (.symbol .rbrace) =>
      let close ← expect (.symbol .rbrace)
      lineEnd
      return ([], close)
    | some .eof => fail .openRecordType opening
    | _ =>
      let hidden ← eat (.keyword .priv)
      let name ← ident
      let _ ← expect (.symbol .colon)
      let type ← typeRef bound
      match ← peek with
      | some (.symbol .comma) => skip
      | some (.symbol .rbrace) => pure ()
      | _ => fail .recordTypeSeparator (← place opening)
      let (fields, close) ← recordFields bound opening n
      return (⟨name.span.join type.span, name, type, hidden⟩ :: fields, close)

def typeDef (n : Nat) : Parse Stmt := do
  let start ← expect (.keyword .type)
  let name ← ident
  let params ← templateParams n
  let _ ← expect (.symbol .assign)
  if ← sees (.keyword .record) then
    match params with
    | p :: _ => fail .templateRecord p.span
    | [] =>
      let _ ← expect (.keyword .record)
      let brace ← expect (.symbol .lbrace)
      let (fields, close) ← recordFields n (start.join brace) n
      return .record ⟨start.join close, name, fields⟩
  else
    let target ← typeRef n
    lineEnd
    return .typeAlias (start.join target.span) name params target

def valDecl (n : Nat) : Parse ValDecl := do
  let start ← expect (.keyword .val)
  let mutable ← eat (.keyword .mut)
  let name ← ident
  let type ← typeBehind .colon n
  let _ ← expect (.symbol .assign)
  let e ← expr n
  return ⟨start.join e.span, name, mutable, type, e⟩

/-- The statements of a block and the mark that ends it; `opening` is the mark that began it. -/
def blockStmts (stmt : Parse Stmt) (opening : Span) : Nat → Parse (List Stmt × Span)
  | 0 => fail .expectedStatement ⟨0, 0⟩
  | n + 1 => do
    skipNewlines
    match ← peek with
    | some .dedent => return ([], ← expect .dedent)
    | some .eof => fail .openBlock opening
    | _ =>
      let s ← stmt
      let (rest, close) ← blockStmts stmt opening n
      return (s :: rest, close)

/-- A block reaches from its indent to its last statement, or to its dedent where it has none. -/
def block (n : Nat) (stmt : Parse Stmt) : Parse Block := do
  let _ ← expect .newline
  let opening ← expect .indent
  let (stmts, close) ← blockStmts stmt opening n
  let stop := match stmts.getLast? with
    | some s => s.span
    | none => close
  return ⟨opening.join stop, stmts⟩

def cellDef (n : Nat) (stmt : Parse Stmt) : Parse Stmt := do
  let start ← expect (.keyword .cell)
  let name ← ident
  let params ← templateParams n
  let _ ← expect (.symbol .lparen)
  let args ← closedBy (.symbol .rparen) (param n) n
  let _ ← expect (.symbol .rparen)
  let ret ← typeBehind .arrow n
  let _ ← expect (.symbol .colon)
  let body ← block n stmt
  return .cell ⟨start.join body.span, name, params, args, ret, body⟩

def assignment (n : Nat) : Parse Stmt := do
  let target ← ident
  let _ ← expect (.symbol .assign)
  let e ← expr n
  lineEnd
  return .assign (target.span.join e.span) target e

def conditional (n : Nat) (stmt : Parse Stmt) : Parse Stmt := do
  let start ← expect (.keyword .ifWord)
  let cond ← expr n
  let _ ← expect (.symbol .colon)
  let yes ← block n stmt
  skipNewlines
  if ← eat (.keyword .elseWord) then
    let _ ← expect (.symbol .colon)
    let no ← block n stmt
    return .cond (start.join no.span) cond yes (some no)
  else return .cond (start.join yes.span) cond yes none

def whileLoop (n : Nat) (stmt : Parse Stmt) : Parse Stmt := do
  let start ← expect (.keyword .whileWord)
  let cond ← expr n
  let _ ← expect (.symbol .colon)
  let body ← block n stmt
  return .loop (start.join body.span) cond body

def returnStmt (n : Nat) : Parse Stmt := do
  let start ← expect (.keyword .returnWord)
  if (← peek).any startsExpr then
    let e ← expr n
    lineEnd
    return .give (start.join e.span) (some e)
  else
    lineEnd
    return .give start none

/-! ## Expansions

The heading may begin with one statement to run first, a declaration or an expression, closed by a
semicolon.  A declaration with an initializer is that statement; one without is the variable. -/

/-- A declaration at the head of an expansion, up to its type. -/
def loopVar (n : Nat) : Parse (Span × LoopVar) := do
  let start ← expect (.keyword .val)
  let mutable ← eat (.keyword .mut)
  let name ← ident
  let type ← typeBehind .colon n
  let stop := match type with
    | some t => t.span
    | none => name.span
  return (start, ⟨start.join stop, name, mutable, type⟩)

/-- The variable after a first statement. -/
def loopVarAfter (n : Nat) (keyword : Span) : Parse LoopVar := do
  if ← sees (.keyword .val) then return (← loopVar n).2
  else fail .expansionVariable (← place keyword)

def expansionHead (n : Nat) (keyword : Span) : Parse (Option Init × LoopVar) := do
  if ← sees (.keyword .val) then
    let (start, var) ← loopVar n
    if ← eat (.symbol .assign) then
      let e ← expr n
      let _ ← expect (.symbol .semi)
      let decl : ValDecl := ⟨start.join e.span, var.name, var.mutable, var.type, e⟩
      return (some (.val decl), ← loopVarAfter n keyword)
    else return (none, var)
  else
    let e ← expr n
    let _ ← expect (.symbol .semi)
    return (some (.expr e), ← loopVarAfter n keyword)

def expansion (n : Nat) (stmt : Parse Stmt) : Parse Stmt := do
  let keyword ← expect (.keyword .expand)
  let (init, var) ← expansionHead n keyword
  let _ ← expect (.keyword .inWord)
  let range ← expr n
  let _ ← expect (.symbol .colon)
  let body ← block n stmt
  return .expand ⟨keyword.join body.span, keyword, init, var, range, body, none, .pending⟩

def stmtWith (n : Nat) (stmt : Parse Stmt) : Parse Stmt := do
  match ← peek with
  | some (.keyword .trait) => traitDef
  | some (.keyword .type) => typeDef n
  | some (.keyword .val) =>
    let decl ← valDecl n
    lineEnd
    return .val decl
  | some (.keyword .cell) => cellDef n stmt
  | some (.keyword .ifWord) => conditional n stmt
  | some (.keyword .whileWord) => whileLoop n stmt
  | some (.keyword .expand) => expansion n stmt
  | some (.keyword .breakWord) =>
    let place ← expect (.keyword .breakWord)
    lineEnd
    return .leave place
  | some (.keyword .continueWord) =>
    let place ← expect (.keyword .continueWord)
    lineEnd
    return .next place
  | some (.keyword .returnWord) => returnStmt n
  | some (.keyword .assert) =>
    let start ← expect (.keyword .assert)
    let e ← expr n
    lineEnd
    return .assert (start.join e.span) e
  | some kind =>
    if (kind matches .name _) && (← peekSecond) = some (.symbol .assign) then assignment n
    else if startsExpr kind then
      let e ← expr n
      lineEnd
      return .expr e
    else fail .expectedStatement (← place ⟨0, 0⟩)
  | none => fail .expectedStatement ⟨0, 0⟩

def stmt : Nat → Parse Stmt
  | 0 => fail .expectedStatement ⟨0, 0⟩
  | n + 1 => fun c => stmtWith (n + 1) (stmt n) c

end Unroll.Grammar
