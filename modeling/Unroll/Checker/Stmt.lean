import Unroll.Checker.Expansion
/-! # Statements
-/
namespace Unroll.Check

open CheckM

/-- A condition is bool, or not known yet. -/
def condition (deeper : Deeper) (what : Condition) (e : Expr) : CheckM Expr := do
  let (checked, t) ← expr deeper e
  if t = .bool || t.isUnknown then return checked
  else fail (.conditionType what t) e.span

def assignment (deeper : Deeper) (span : Span) (target : Ident) (e : Expr) : CheckM Stmt := do
  match (← place).val? target.name with
  | none => fail (.unknownName target.name) target.span
  | some v =>
    if !v.mutable then fail (.immutable target.name) target.span
    let (checked, t) ← expr deeper e
    checkAssignable v.type t e.span
    return .assign span target checked

def giveBack (deeper : Deeper) (span : Span) (e : Option Expr) : CheckM Stmt := do
  let expected := (← place).rets.headD .unit
  match e with
  | some e =>
    let (checked, t) ← expr deeper e
    checkAssignable expected t e.span
    return .give span (some checked)
  | none =>
    if expected = .unit || expected.isUnknown then return .give span none
    else fail (.returnMissing expected) span

/-- An assertion that is constant is decided at once. -/
def assertion (deeper : Deeper) (span : Span) (e : Expr) : CheckM Stmt := do
  let checked ← condition deeper .assertion e
  match Const.eval (← place).constant? checked with
  | .ok (.bool false) => fail .assertionFails e.span
  | _ => return .assert span checked

/-- `break` and `continue` stand inside a loop or an expansion. -/
def jump (keyword : String) (s : Stmt) (span : Span) : CheckM Stmt := do
  if (← place).loopDepth = 0 then fail (.outsideLoop keyword) span else return s

/-- Runs the check of a block's statements in a scope of its own. -/
def blockWith (span : Span) (stmts : CheckM (List Stmt)) : CheckM Block :=
  inScope do
    onPlace Place.pushScope
    return ⟨span, ← stmts⟩

/-- Like `blockWith`, for the body of a loop. -/
def loopBodyWith (span : Span) (stmts : CheckM (List Stmt)) : CheckM Block :=
  inScope do
    onPlace Place.enterLoop
    blockWith span stmts

mutual

def stmt (deeper : Deeper) : Stmt → CheckM Stmt
  | .typeAlias span _ _ _ => fail .nestedAlias span
  | .trait span _ => fail .nestedTrait span
  | .cell c => fail .nestedCell c.span
  | .record d => do
    let _ ← defineRecord deeper d.name d.fields
    return .record d
  | .val d => .val <$> valDecl deeper d
  | .assign span target e => assignment deeper span target e
  | .cond span c yes none => do
    let c ← condition deeper .cond c
    return .cond span c (← block deeper yes) none
  | .cond span c yes (some no) => do
    let c ← condition deeper .cond c
    let yes ← block deeper yes
    return .cond span c yes (some (← block deeper no))
  | .loop span c ⟨bodySpan, ss⟩ => do
    let c ← condition deeper .loop c
    return .loop span c (← loopBodyWith bodySpan (stmts deeper ss))
  | .expand x => .expand <$> expansion deeper x
  | .leave span => jump "break" (.leave span) span
  | .next span => jump "continue" (.next span) span
  | .give span e => giveBack deeper span e
  | .assert span e => assertion deeper span e
  | .expr e => do return .expr (← expr deeper e).1

def stmts (deeper : Deeper) : List Stmt → CheckM (List Stmt)
  | [] => return []
  | s :: ss => do return (← stmt deeper s) :: (← stmts deeper ss)

def block (deeper : Deeper) : Block → CheckM Block
  | ⟨span, ss⟩ => blockWith span (stmts deeper ss)

def expansion (deeper : Deeper) : Expansion → CheckM Expansion
  | ⟨span, keyword, init, var, range, ⟨bodySpan, ss⟩, depth, state⟩ => do
    let p ← beginExpansion deeper
      ⟨span, keyword, init, var, range, ⟨bodySpan, []⟩, depth, state⟩
    finishExpansion deeper p bodySpan (stmts deeper ss)

end

/-! ## Levels

At level zero nothing can be resolved or checked any more.  A checker that starts with more levels
than the instantiations it allows and the templates there are never gets there: it meets the limit
of the stack first. -/

def typeRefAt : Nat → TypeRef → CheckM Ty
  | 0, t => fail (.depthLimit 0) t.span
  | n + 1, t => typeRef ⟨typeRefAt n, fun s => fail (.depthLimit 0) s.span⟩ t

def stmtAt : Nat → Stmt → CheckM Stmt
  | 0, s => fail (.depthLimit 0) s.span
  | n + 1, s => stmt ⟨typeRefAt n, stmtAt n⟩ s

def levels (n : Nat) : Deeper := ⟨typeRefAt n, stmtAt n⟩

/-- As many levels as a check that begins in the state can go down. -/
def fromHere (s : Checker) : Deeper :=
  levels (s.config.maxInstantiationDepth + s.generics.length + 1)

end Unroll.Check
