import Unroll.Grammar.Program
import Unroll.Proofs.Grammar.Levels
/-!
# Reading without a bound

The phrases of the grammar once more, with no bound that would make them end.  A phrase asks for the phrases inside of
it and a loop for its next round, as often as the tokens have it, and what is asked for is read in its turn (`Ends`).
So nothing but the tokens can end a reading; one that goes on for ever has no end.
-/
namespace Unroll

/-- What is asked for in a reading, with the type of the answer. -/
inductive Phrase : Type → Type
  | level (l : Prec) : Phrase Expr
  /-- Joins further operands of the level to `left`. -/
  | joined (l : Prec) (left : Expr) : Phrase Expr
  /-- Expressions up to the closing token, which is not taken. -/
  | exprs (close : TokenKind) : Phrase (List Expr)
  /-- The forms that follow an operand. -/
  | suffixed (e : Expr) : Phrase Expr
  | literalFields (opening : Span) : Phrase (List (Ident × Expr) × Span)
  /-- At least one template argument. -/
  | someArgs : Phrase (List TypeArg)
  | typeRef : Phrase TypeRef
  /-- At least one template parameter. -/
  | someTemplateParams : Phrase (List TemplateParam)
  /-- Parameters up to the closing parenthesis, which is not taken. -/
  | params : Phrase (List Param)
  | recordFields (opening : Span) : Phrase (List RecordField × Span)
  /-- The statements of a block and the mark that ends it. -/
  | blockStmts (opening : Span) : Phrase (List Stmt × Span)
  | stmt : Phrase Stmt
  | program : Phrase Program

/-- A reading: what comes first, and how it goes on. -/
inductive Unbounded (α : Type) : Type 1
  | done (a : α)
  | step {β : Type} (p : Parse β) (goOn : β → Unbounded α)
  | ask {β : Type} (f : Phrase β) (goOn : β → Unbounded α)

namespace Unbounded

def andThen {α β : Type} : Unbounded α → (α → Unbounded β) → Unbounded β
  | .done a, g => g a
  | .step p goOn, g => .step p fun b => andThen (goOn b) g
  | .ask f goOn, g => .ask f fun b => andThen (goOn b) g

instance : Monad Unbounded where
  pure := done
  bind := andThen

instance : MonadLift Parse Unbounded where
  monadLift p := .step p done

theorem andThen_done {α : Type} (q : Unbounded α) : andThen q done = q := by
  induction q with
  | done a => rfl
  | step p goOn ih => exact congrArg (step p) (funext ih)
  | ask f goOn ih => exact congrArg (ask f) (funext ih)

theorem andThen_assoc {α β γ : Type} (q : Unbounded α) (g : α → Unbounded β) (g' : β → Unbounded γ) :
    andThen (andThen q g) g' = andThen q fun a => andThen (g a) g' := by
  induction q with
  | done a => rfl
  | step p goOn ih => exact congrArg (step p) (funext ih)
  | ask f goOn ih => exact congrArg (ask f) (funext ih)

instance : LawfulMonad Unbounded := .mk' Unbounded andThen_done (fun _ _ => rfl) andThen_assoc

/-- Asks for the phrase, and for nothing else. -/
def phrase {α : Type} (f : Phrase α) : Unbounded α := .ask f done

abbrev level (l : Prec) : Unbounded Expr := phrase (.level l)

abbrev joined (l : Prec) (left : Expr) : Unbounded Expr := phrase (.joined l left)

abbrev exprs (close : TokenKind) : Unbounded (List Expr) := phrase (.exprs close)

abbrev suffixed (e : Expr) : Unbounded Expr := phrase (.suffixed e)

abbrev literalFields (opening : Span) : Unbounded (List (Ident × Expr) × Span) := phrase (.literalFields opening)

abbrev someArgs : Unbounded (List TypeArg) := phrase .someArgs

abbrev typeRef : Unbounded TypeRef := phrase .typeRef

abbrev someTemplateParams : Unbounded (List TemplateParam) := phrase .someTemplateParams

abbrev params : Unbounded (List Param) := phrase .params

abbrev recordFields (opening : Span) : Unbounded (List RecordField × Span) := phrase (.recordFields opening)

abbrev blockStmts (opening : Span) : Unbounded (List Stmt × Span) := phrase (.blockStmts opening)

abbrev stmt : Unbounded Stmt := phrase .stmt

abbrev program : Unbounded Program := phrase .program

abbrev expr : Unbounded Expr := level .lowest

open Parse Grammar

/-! ## Expressions and types -/

def prefixed (op : UnaryOp) : Unbounded Expr := do
  let t ← next
  let e ← level .unary
  return .unary (t.span.join e.span) op e

def primary : Unbounded Expr := do
  let t ← next
  match t.kind with
  | .name name => return .ofIdent ⟨name, t.span⟩
  | .int v => integer v t.span
  | .char c => return .char t.span c
  | .text s => return .text t.span s
  | .keyword .trueWord => return .bool t.span true
  | .keyword .falseWord => return .bool t.span false
  | .symbol .lbrace =>
    let items ← exprs (.symbol .rbrace)
    return .list (t.span.join (← expect (.symbol .rbrace))) items
  | .symbol .lbracket =>
    let items ← exprs (.symbol .rbracket)
    return .array (t.span.join (← expect (.symbol .rbracket))) items
  | .symbol .lparen =>
    let e ← expr
    let _ ← expect (.symbol .rparen)
    return e
  | _ => fail .expectedExpression t.span

def templateArg : Unbounded TypeArg := do
  let isValue ← match ← peek with
    | some (.symbol .lbracket) => pure false
    | some (.name _) =>
      pure (((← peekSecond).bind fun k => (sumOp? k).orElse fun _ => productOp? k).isSome)
    | _ => pure true
  if isValue then return .value (← level .sum)
  else return .type (← typeRef)

def templateArgs : Unbounded (List TypeArg) := do
  if ← sees (.symbol .gt) then return []
  else someArgs

def recordLiteral (start : Span) (type : Ident) : Unbounded Expr := do
  let brace ← expect (.symbol .lbrace)
  let (fields, close) ← literalFields (start.join brace)
  return .record (start.join close) type fields

def callOf : Expr → Unbounded Expr
  | .name span id => do
    let generic ←
      if ← eat (.symbol .pathSep) then
        let _ ← expect (.symbol .lt)
        let args ← templateArgs
        let _ ← expect (.symbol .gt)
        pure args
      else pure []
    let _ ← expect (.symbol .lparen)
    let args ← exprs (.symbol .rparen)
    let close ← expect (.symbol .rparen)
    return .call (span.join close) id generic args
  | e => do fail .calleeNotNamed (← place e.span)

/-- The form that follows an operand, if one does. -/
def suffix? (e : Expr) : Unbounded (Option Expr) := do
  match ← peek, e with
  | some (.symbol .lbrace), .name span id => return some (← recordLiteral span id)
  | some (.symbol .dot), _ =>
    skip
    let member ← ident
    return some (.member (e.span.join member.span) e member)
  | some (.symbol .lbracket), _ =>
    skip
    let index ← expr
    let close ← expect (.symbol .rbracket)
    return some (.index (e.span.join close) e index)
  | some (.symbol .pathSep), _ =>
    if (← peekSecond) = some (.symbol .lt) then return some (← callOf e) else return none
  | some (.symbol .lparen), _ => return some (← callOf e)
  | _, _ => return none

/-! ## Statements -/

/-- A written type behind the given mark, where the mark stands. -/
def typeBehind (mark : Symbol) : Unbounded (Option TypeRef) := do
  if ← eat (.symbol mark) then return some (← typeRef) else return none

def templateParam : Unbounded TemplateParam := do
  if ← sees (.keyword .const) then
    let start ← expect (.keyword .const)
    let name ← ident
    let _ ← expect (.symbol .colon)
    let type ← typeRef
    return ⟨start.join type.span, name, .const type⟩
  else
    let name ← ident
    if ← eat (.symbol .colon) then
      let bound ← ident
      return ⟨name.span.join bound.span, name, .type (some bound)⟩
    else return ⟨name.span, name, .type none⟩

def templateParams : Unbounded (List TemplateParam) := do
  if ← sees (.symbol .lt) then
    let opening ← expect (.symbol .lt)
    if ← sees (.symbol .gt) then fail .noTemplateParams opening
    let params ← someTemplateParams
    let _ ← expect (.symbol .gt)
    return params
  else return []

def param : Unbounded Param := do
  let name ← ident
  let _ ← expect (.symbol .colon)
  let mutable ← eat (.keyword .mut)
  let type ← typeRef
  return ⟨name.span.join type.span, name, mutable, type⟩

def typeDef : Unbounded Stmt := do
  let start ← expect (.keyword .type)
  let name ← ident
  let params ← templateParams
  let _ ← expect (.symbol .assign)
  if ← sees (.keyword .record) then
    match params with
    | p :: _ => fail .templateRecord p.span
    | [] =>
      let _ ← expect (.keyword .record)
      let brace ← expect (.symbol .lbrace)
      let (fields, close) ← recordFields (start.join brace)
      return .record ⟨start.join close, name, fields⟩
  else
    let target ← typeRef
    lineEnd
    return .typeAlias (start.join target.span) name params target

def valDecl : Unbounded ValDecl := do
  let start ← expect (.keyword .val)
  let mutable ← eat (.keyword .mut)
  let name ← ident
  let type ← typeBehind .colon
  let _ ← expect (.symbol .assign)
  let e ← expr
  return ⟨start.join e.span, name, mutable, type, e⟩

def assignment : Unbounded Stmt := do
  let target ← ident
  let _ ← expect (.symbol .assign)
  let e ← expr
  lineEnd
  return .assign (target.span.join e.span) target e

def returnStmt : Unbounded Stmt := do
  let start ← expect (.keyword .returnWord)
  if (← peek).any startsExpr then
    let e ← expr
    lineEnd
    return .give (start.join e.span) (some e)
  else
    lineEnd
    return .give start none

def loopVar : Unbounded (Span × LoopVar) := do
  let start ← expect (.keyword .val)
  let mutable ← eat (.keyword .mut)
  let name ← ident
  let type ← typeBehind .colon
  let stop := match type with
    | some t => t.span
    | none => name.span
  return (start, ⟨start.join stop, name, mutable, type⟩)

def loopVarAfter (keyword : Span) : Unbounded LoopVar := do
  if ← sees (.keyword .val) then return (← loopVar).2
  else fail .expansionVariable (← place keyword)

def expansionHead (keyword : Span) : Unbounded (Option Init × LoopVar) := do
  if ← sees (.keyword .val) then
    let (start, var) ← loopVar
    if ← eat (.symbol .assign) then
      let e ← expr
      let _ ← expect (.symbol .semi)
      let decl : ValDecl := ⟨start.join e.span, var.name, var.mutable, var.type, e⟩
      return (some (.val decl), ← loopVarAfter keyword)
    else return (none, var)
  else
    let e ← expr
    let _ ← expect (.symbol .semi)
    return (some (.expr e), ← loopVarAfter keyword)

def block : Unbounded Block := do
  let _ ← expect .newline
  let opening ← expect .indent
  let (stmts, close) ← blockStmts opening
  let stop := match stmts.getLast? with
    | some s => s.span
    | none => close
  return ⟨opening.join stop, stmts⟩

def cellDef : Unbounded Stmt := do
  let start ← expect (.keyword .cell)
  let name ← ident
  let params ← templateParams
  let _ ← expect (.symbol .lparen)
  let args ← Unbounded.params
  let _ ← expect (.symbol .rparen)
  let ret ← typeBehind .arrow
  let _ ← expect (.symbol .colon)
  let body ← block
  return .cell ⟨start.join body.span, name, params, args, ret, body⟩

def conditional : Unbounded Stmt := do
  let start ← expect (.keyword .ifWord)
  let cond ← expr
  let _ ← expect (.symbol .colon)
  let yes ← block
  skipNewlines
  if ← eat (.keyword .elseWord) then
    let _ ← expect (.symbol .colon)
    let no ← block
    return .cond (start.join no.span) cond yes (some no)
  else return .cond (start.join yes.span) cond yes none

def whileLoop : Unbounded Stmt := do
  let start ← expect (.keyword .whileWord)
  let cond ← expr
  let _ ← expect (.symbol .colon)
  let body ← block
  return .loop (start.join body.span) cond body

def expansion : Unbounded Stmt := do
  let keyword ← expect (.keyword .expand)
  let (init, var) ← expansionHead keyword
  let _ ← expect (.keyword .inWord)
  let range ← expr
  let _ ← expect (.symbol .colon)
  let body ← block
  return .expand ⟨keyword.join body.span, keyword, init, var, range, body, none, .pending⟩

/-! ## What is asked for -/

/-- The text of a phrase. -/
def body {α : Type} : Phrase α → Unbounded α
  | .level .comparison => do
    let left ← level .sum
    match (← peek).bind comparison? with
    | none => return left
    | some op =>
      skip
      let right ← level .sum
      let e := binary left op right
      match (← peek).bind comparison? with
      | none => return e
      | some _ => fail .chainedComparison (← place e.span)
  | .level .unary => do
    match ← peek with
    | some (.symbol .bang) => prefixed .not
    | some (.symbol .minus) => prefixed .neg
    | _ => level .suffix
  | .level .suffix => do suffixed (← primary)
  | .level l => do joined l (← level l.tighter)
  | .joined l left => do
    match (← peek).bind (opAt l) with
    | none => return left
    | some op =>
      skip
      joined l (binary left op (← level l.tighter))
  | .exprs close => do
    if ← sees close then return []
    let e ← expr
    if ← eat (.symbol .comma) then return e :: (← exprs close)
    return [e]
  | .suffixed e => do
    match ← suffix? e with
    | some e => suffixed e
    | none => return e
  | .literalFields opening => do
    match ← peek with
    | some (.symbol .rbrace) => return ([], ← expect (.symbol .rbrace))
    | some .eof => fail .openRecordLiteral opening
    | _ =>
      let key ← ident
      let _ ← expect (.symbol .colon)
      let value ← expr
      match ← peek with
      | some (.symbol .comma) => skip
      | some (.symbol .rbrace) => pure ()
      | _ => fail .recordLiteralSeparator (← place opening)
      let (fields, close) ← literalFields opening
      return ((key, value) :: fields, close)
  | .someArgs => do
    let a ← templateArg
    if ← eat (.symbol .comma) then return a :: (← someArgs)
    return [a]
  | .typeRef => do
    if ← sees (.symbol .lbracket) then
      let left ← expect (.symbol .lbracket)
      let elem ← typeRef
      let _ ← expect (.symbol .semi)
      let len ← expr
      let right ← expect (.symbol .rbracket)
      return .array (left.join right) elem len
    else
      let name ← ident
      if ← eat (.symbol .lt) then
        let args ← templateArgs
        let close ← expect (.symbol .gt)
        return .named (name.span.join close) name args
      else return .named name.span name []
  | .someTemplateParams => do
    let p ← templateParam
    if ← eat (.symbol .comma) then return p :: (← someTemplateParams)
    return [p]
  | .params => do
    if ← sees (.symbol .rparen) then return []
    let p ← param
    if ← eat (.symbol .comma) then return p :: (← params)
    return [p]
  | .recordFields opening => do
    match ← peek with
    | some (.symbol .rbrace) =>
      let close ← expect (.symbol .rbrace)
      lineEnd
      return ([], close)
    | some .eof => fail .openRecordType opening
    | _ =>
      let hidden ← eat (.keyword .priv)
      let name ← ident
      let _ ← expect (.symbol .colon)
      let type ← typeRef
      match ← peek with
      | some (.symbol .comma) => skip
      | some (.symbol .rbrace) => pure ()
      | _ => fail .recordTypeSeparator (← place opening)
      let (fields, close) ← recordFields opening
      return (⟨name.span.join type.span, name, type, hidden⟩ :: fields, close)
  | .blockStmts opening => do
    skipNewlines
    match ← peek with
    | some .dedent => return ([], ← expect .dedent)
    | some .eof => fail .openBlock opening
    | _ =>
      let s ← stmt
      let (rest, close) ← blockStmts opening
      return (s :: rest, close)
  | .stmt => do
    match ← peek with
    | some (.keyword .trait) => traitDef
    | some (.keyword .type) => typeDef
    | some (.keyword .val) =>
      let decl ← valDecl
      lineEnd
      return .val decl
    | some (.keyword .cell) => cellDef
    | some (.keyword .ifWord) => conditional
    | some (.keyword .whileWord) => whileLoop
    | some (.keyword .expand) => expansion
    | some (.keyword .breakWord) =>
      let place ← expect (.keyword .breakWord)
      lineEnd
      return .leave place
    | some (.keyword .continueWord) =>
      let place ← expect (.keyword .continueWord)
      lineEnd
      return .next place
    | some (.keyword .returnWord) => returnStmt
    | some (.keyword .assert) =>
      let start ← expect (.keyword .assert)
      let e ← expr
      lineEnd
      return .assert (start.join e.span) e
    | some kind =>
      if (kind matches .name _) && (← peekSecond) = some (.symbol .assign) then assignment
      else if startsExpr kind then
        let e ← expr
        lineEnd
        return .expr e
      else fail .expectedStatement (← place ⟨0, 0⟩)
    | none => fail .expectedStatement ⟨0, 0⟩
  | .program => do
    skipNewlines
    match ← peek with
    | some .eof => return []
    | _ =>
      let s ← stmt
      return s :: (← program)

def exprToEnd : Unbounded Expr := do
  let e ← expr
  skipNewlines
  if ← sees .eof then return e
  else fail .expectedEnd (← place e.span)

/-! ## How a reading ends -/

/-- **The reading ends**, from the one cursor on with the result at the other.  No step of it leaves the tokens that it
has before it. -/
inductive Ends : {α : Type} → Unbounded α → Cursor → Except ParseError α → Cursor → Prop
  | done {α : Type} {a : α} {c : Cursor} : Ends (.done a) c (.ok a) c
  | step {α β : Type} {p : Parse β} {goOn : β → Unbounded α} {c m c' : Cursor} {b : β} {r : Except ParseError α} :
    p c = .ok b m → m.rest <:+ c.rest → Ends (goOn b) m r c' → Ends (.step p goOn) c r c'
  | fault {α β : Type} {p : Parse β} {goOn : β → Unbounded α} {c m : Cursor} {e : ParseError} :
    p c = .error e m → m.rest <:+ c.rest → Ends (.step p goOn) c (.error e) m
  | answer {α β : Type} {f : Phrase β} {goOn : β → Unbounded α} {c m c' : Cursor} {b : β} {r : Except ParseError α} :
    Ends (body f) c (.ok b) m → Ends (goOn b) m r c' → Ends (.ask f goOn) c r c'
  | refusal {α β : Type} {f : Phrase β} {goOn : β → Unbounded α} {c m : Cursor} {e : ParseError} :
    Ends (body f) c (.error e) m → Ends (.ask f goOn) c (.error e) m

/-- **A reading ends in one way at most.** -/
theorem Ends.unique {α : Type} {q : Unbounded α} {c m m' : Cursor} {r r' : Except ParseError α} (h : Ends q c r m)
    (h' : Ends q c r' m') : r = r' ∧ m = m' := by
  induction h generalizing m' with
  | done =>
    cases h'
    exact ⟨rfl, rfl⟩
  | step hp _ _ ih =>
    cases h' with
    | step hp' _ hrest =>
      cases hp.symm.trans hp'
      exact ih hrest
    | fault hp' => cases hp.symm.trans hp'
  | fault hp =>
    cases h' with
    | step hp' => cases hp.symm.trans hp'
    | fault hp' =>
      cases hp.symm.trans hp'
      exact ⟨rfl, rfl⟩
  | answer _ _ ihbody ih =>
    cases h' with
    | answer hbody hrest =>
      obtain ⟨hb, rfl⟩ := ihbody hbody
      cases hb
      exact ih hrest
    | refusal hbody => cases (ihbody hbody).1
  | refusal _ ihbody =>
    cases h' with
    | answer hbody => cases (ihbody hbody).1
    | refusal hbody =>
      obtain ⟨he, rfl⟩ := ihbody hbody
      cases he
      exact ⟨rfl, rfl⟩

/-- What reading the tokens gives. -/
def Gives {α : Type} (q : Unbounded α) (tokens : List Token) (r : Except ParseError α) : Prop :=
  ∃ c, Ends q (.ofTokens tokens) r c

/-- What reading the program that the tokens spell gives. -/
def GivesProgram (tokens : List Token) (edition : Option String) (r : Except ParseError Program) : Prop :=
  match checkEdition edition with
  | .ok () => Gives program tokens r
  | .error e => r = .error e

end Unbounded
end Unroll
