import Unroll.Arith
import Unroll.Grammar.Basic
/-! # Expressions and written types

From the loosest to the tightest: `||`, `&&`, one comparison, `+ -`, `* / %`, the two operators in
front, and what follows an operand.  Comparisons do not chain.  A template argument is a sum, so
that its `>` closes the list, and is a type where it begins with a bracket or with a name that no
arithmetic operator follows.
-/
namespace Unroll.Grammar

open Parse

/-- The phrases that begin inside another one, each at least one token later. -/
structure Inner where
  expr : Parse Expr
  sum : Parse Expr
  unary : Parse Expr
  typeRef : Parse TypeRef

def binary (left : Expr) (op : BinOp) (right : Expr) : Expr :=
  .binary (left.span.join right.span) left op right

def orOp? : TokenKind → Option BinOp
  | .symbol .orOr => some .or
  | _ => none

def andOp? : TokenKind → Option BinOp
  | .symbol .andAnd => some .and
  | _ => none

def comparison? : TokenKind → Option BinOp
  | .symbol .eq => some .eq
  | .symbol .ne => some .ne
  | .symbol .lt => some .lt
  | .symbol .gt => some .gt
  | .symbol .le => some .le
  | .symbol .ge => some .ge
  | _ => none

def sumOp? : TokenKind → Option BinOp
  | .symbol .plus => some .add
  | .symbol .minus => some .sub
  | _ => none

def productOp? : TokenKind → Option BinOp
  | .symbol .star => some .mul
  | .symbol .slash => some .div
  | .symbol .percent => some .rem
  | _ => none

/-- Joins further operands to `left`, from left to right. -/
def chainFrom (op? : TokenKind → Option BinOp) (operand : Parse Expr) : Nat → Expr → Parse Expr
  | 0, left => return left
  | n + 1, left => do
    match (← peek).bind op? with
    | none => return left
    | some op =>
      skip
      let right ← operand
      chainFrom op? operand n (binary left op right)

def chain (op? : TokenKind → Option BinOp) (operand : Parse Expr) (n : Nat) : Parse Expr := do
  chainFrom op? operand n (← operand)

def templateArg (inner : Inner) : Parse TypeArg := do
  let isValue ← match ← peek with
    | some (.symbol .lbracket) => pure false
    | some (.name _) =>
      pure (((← peekSecond).bind fun k => (sumOp? k).orElse fun _ => productOp? k).isSome)
    | _ => pure true
  if isValue then return .value (← inner.sum)
  else return .type (← inner.typeRef)

/-- Template arguments up to the closing mark, which is not taken; none after a last comma. -/
def templateArgs (inner : Inner) (n : Nat) : Parse (List TypeArg) := do
  if ← sees (.symbol .gt) then return []
  else commaSeparated (templateArg inner) (return true) n

def typeRefWith (n : Nat) (inner : Inner) : Parse TypeRef := do
  if ← sees (.symbol .lbracket) then
    let left ← expect (.symbol .lbracket)
    let elem ← inner.typeRef
    let _ ← expect (.symbol .semi)
    let len ← inner.expr
    let right ← expect (.symbol .rbracket)
    return .array (left.join right) elem len
  else
    let name ← ident
    if ← eat (.symbol .lt) then
      let args ← templateArgs inner n
      let close ← expect (.symbol .gt)
      return .named (name.span.join close) name args
    else return .named name.span name []

def integer (value : Nat) (span : Span) : Parse Expr :=
  if value < Arith.bound then return .int span value
  else fail .integerRange span

def primary (n : Nat) (inner : Inner) : Parse Expr := do
  let t ← next
  match t.kind with
  | .name name => return .ofIdent ⟨name, t.span⟩
  | .int v => integer v t.span
  | .char c => return .char t.span c
  | .text s => return .text t.span s
  | .keyword .trueWord => return .bool t.span true
  | .keyword .falseWord => return .bool t.span false
  | .symbol .lbrace =>
    let items ← closedBy (.symbol .rbrace) inner.expr n
    return .list (t.span.join (← expect (.symbol .rbrace))) items
  | .symbol .lbracket =>
    let items ← closedBy (.symbol .rbracket) inner.expr n
    return .array (t.span.join (← expect (.symbol .rbracket))) items
  | .symbol .lparen =>
    let e ← inner.expr
    let _ ← expect (.symbol .rparen)
    return e
  | _ => fail .expectedExpression t.span

/-- The fields of a record literal and its closing brace; `opening` is reported where the input ends
before it. -/
def literalFields (inner : Inner) (opening : Span) : Nat → Parse (List (Ident × Expr) × Span)
  | 0 => endOfInput
  | n + 1 => do
    match ← peek with
    | some (.symbol .rbrace) => return ([], ← expect (.symbol .rbrace))
    | some .eof => fail .openRecordLiteral opening
    | _ =>
      let key ← ident
      let _ ← expect (.symbol .colon)
      let value ← inner.expr
      match ← peek with
      | some (.symbol .comma) => skip
      | some (.symbol .rbrace) => pure ()
      | _ => fail .recordLiteralSeparator (← place opening)
      let (fields, close) ← literalFields inner opening n
      return ((key, value) :: fields, close)

def recordLiteral (n : Nat) (inner : Inner) (start : Span) (type : Ident) : Parse Expr := do
  let brace ← expect (.symbol .lbrace)
  let (fields, close) ← literalFields inner (start.join brace) n
  return .record (start.join close) type fields

def call (n : Nat) (inner : Inner) (start : Span) (callee : Ident) : Parse Expr := do
  let generic ←
    if ← eat (.symbol .pathSep) then
      let _ ← expect (.symbol .lt)
      let args ← templateArgs inner n
      let _ ← expect (.symbol .gt)
      pure args
    else pure []
  let _ ← expect (.symbol .lparen)
  let args ← closedBy (.symbol .rparen) inner.expr n
  let close ← expect (.symbol .rparen)
  return .call (start.join close) callee generic args

/-- The form that follows an operand, if one does.  A brace opens a record literal only behind a
name, and calls are made by name alone. -/
def suffix? (n : Nat) (inner : Inner) (e : Expr) : Parse (Option Expr) := do
  match ← peek, e with
  | some (.symbol .lbrace), .name span id => return some (← recordLiteral n inner span id)
  | some (.symbol .dot), _ =>
    skip
    let member ← ident
    return some (.member (e.span.join member.span) e member)
  | some (.symbol .lbracket), _ =>
    skip
    let index ← inner.expr
    let close ← expect (.symbol .rbracket)
    return some (.index (e.span.join close) e index)
  | some (.symbol .pathSep), _ =>
    if (← peekSecond) = some (.symbol .lt) then return some (← callOf e) else return none
  | some (.symbol .lparen), _ => return some (← callOf e)
  | _, _ => return none
where
  callOf : Expr → Parse Expr
    | .name span id => call n inner span id
    | e => do fail .calleeNotNamed (← place e.span)

def suffixesFrom (bound : Nat) (inner : Inner) : Nat → Expr → Parse Expr
  | 0, e => return e
  | n + 1, e => do
    match ← suffix? bound inner e with
    | some e => suffixesFrom bound inner n e
    | none => return e

def unaryWith (n : Nat) (inner : Inner) : Parse Expr := do
  match ← peek with
  | some (.symbol .bang) => prefixed .not
  | some (.symbol .minus) => prefixed .neg
  | _ => suffixesFrom n inner n (← primary n inner)
where
  prefixed (op : UnaryOp) : Parse Expr := do
    let t ← next
    let e ← inner.unary
    return .unary (t.span.join e.span) op e

def sumWith (n : Nat) (inner : Inner) : Parse Expr :=
  chain sumOp? (chain productOp? (unaryWith n inner) n) n

def comparisonWith (n : Nat) (inner : Inner) : Parse Expr := do
  let left ← sumWith n inner
  match (← peek).bind comparison? with
  | none => return left
  | some op =>
    skip
    let right ← sumWith n inner
    let e := binary left op right
    match (← peek).bind comparison? with
    | none => return e
    | some _ => fail .chainedComparison (← place e.span)

def exprWith (n : Nat) (inner : Inner) : Parse Expr :=
  chain orOp? (chain andOp? (comparisonWith n inner) n) n

mutual

def expr : Nat → Parse Expr
  | 0 => endOfInput
  | n + 1 => fun c => exprWith (n + 1) ⟨expr n, sum n, unary n, typeRef n⟩ c

def sum : Nat → Parse Expr
  | 0 => endOfInput
  | n + 1 => fun c => sumWith (n + 1) ⟨expr n, sum n, unary n, typeRef n⟩ c

def unary : Nat → Parse Expr
  | 0 => endOfInput
  | n + 1 => fun c => unaryWith (n + 1) ⟨expr n, sum n, unary n, typeRef n⟩ c

def typeRef : Nat → Parse TypeRef
  | 0 => endOfInput
  | n + 1 => fun c => typeRefWith (n + 1) ⟨expr n, sum n, unary n, typeRef n⟩ c

end

end Unroll.Grammar
