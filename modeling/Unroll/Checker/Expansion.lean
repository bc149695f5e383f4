import Unroll.Checker.Range
/-! # Expansions

An expansion is checked in two parts, as it is read.  Its head opens a scope and leaves it open for
the body.  The body is then checked once as a template over the index, and once more for each
element, as a copy with the index filled in.  Copies are made from the elaborated template.
-/
namespace Unroll.Check

open CheckM

/-- An expansion whose head has been checked, and whose scope is still open. -/
structure Pending where
  span : Span
  keyword : Span
  init : Option Init
  var : LoopVar
  range : Expr
  rangeType : Ty
  index : IndexParam
  mark : Mark

/-- The expression of a declaration.  An empty array has a type only through its annotation. -/
def initialValue (deeper : Deeper) (declared : Option Ty) (e : Expr) : CheckM Typed :=
  match e, declared with
  | .array span [], some (.array elem (some 0)) =>
    return (.array span [], .array elem (some 0))
  | e, _ => expr deeper e

/-- The type of a declared name: the one that is written, or else that of its expression. -/
def declaredType (declared : Option Ty) (actual : Ty) (place : Span) : CheckM Ty :=
  match declared with
  | some expected => do
    checkAssignable expected actual place
    return expected
  | none => return actual

def valDecl (deeper : Deeper) (d : ValDecl) : CheckM ValDecl := do
  let declared ← d.type.mapM (typeRef deeper)
  let (e, t) ← initialValue deeper declared d.expr
  let type ← declaredType declared t d.expr.span
  defineVal d.name type d.mutable
  return { d with expr := e }

def initStmt (deeper : Deeper) : Option Init → CheckM (Option Init)
  | none => return none
  | some (.val d) => do return some (.val (← valDecl deeper d))
  | some (.expr e) => do return some (.expr (← expr deeper e).1)

/-- Checks the head.  Where it is wrong its scope is left again. -/
def beginExpansion (deeper : Deeper) (x : Expansion) : CheckM Pending := do
  let p ← place
  let index := IndexParam.make p x.depth x.keyword
  onPlace Place.pushScope
  try
    let init ← initStmt deeper x.init
    let (range, rangeType) ← rangeExpr deeper x.range
    pure ⟨x.span, x.keyword, init, x.var, range, rangeType, index, p.mark⟩
  catch d =>
    onPlace (·.restore p.mark)
    throw d

/-- The iteration variable, declared as the selected element. -/
def attachInitializer (var : LoopVar) (init : Expr) : ValDecl :=
  ⟨var.span, var.name, var.mutable, var.type, init⟩

/-- Substitutes into a block and checks the result in a scope of its own. -/
def instantiateBlock (deeper : Deeper) (unit : Block) (ls : ArgLevels) (frame : Frame) :
    CheckM Block :=
  within frame do
    onPlace Place.enterLocal
    onPlace Place.enterLoop
    let check : CheckM Block := do
      let b ← ofExcept (Subst.block ls unit)
      return { b with stmts := ← b.stmts.mapM deeper.stmt }
    always check (·.onPlace Place.exitLocal)

/-- One copy of the template. -/
def copyAt (deeper : Deeper) (template : Block) (index : IndexParam) (keyword : Span) (i : Nat) :
    CheckM Copy := do
  let ls := (ArgLevels.retaining index.depth).bind [index.name] [.value i]
  let body ← try instantiateBlock deeper template ls ⟨.copy index.depth i, keyword⟩
    catch d => throw (d.inCopy i keyword)
  if let some (.val v) := body.stmts.head? then
    modify (·.addEvent ⟨.val, v.name.name, none, v.span, some i⟩)
  return ⟨i, body⟩

/-- The next `left` copies, from element `i` on.  The first that fails ends the expansion. -/
def copiesFrom (copy : Nat → CheckM Copy) : (left i : Nat) → CheckM (List Copy)
  | 0, _ => return []
  | left + 1, i => do
    let c ← copy i
    return c :: (← copiesFrom copy left (i + 1))

def checkSize (keyword : Span) (count : Option Nat) : CheckM Unit := do
  let limit := (← get).config.maxExpansionSize
  match count with
  | some n => if limit < n then fail (.sizeLimit n limit) keyword
  | none => return ()

/-- The hidden declaration of the range. -/
def rangeBinding (p : Pending) : ValDecl :=
  ⟨p.range.span, ⟨rangeName p.index.depth, p.range.span⟩, false, none, p.range⟩

/-- The hidden declaration, for a walk that needs one. -/
def bindingFor (p : Pending) (walk : Walk) : Option ValDecl :=
  if walk.needsBinding then some (rangeBinding p) else none

def bindRange (p : Pending) (walk : Walk) : CheckM Unit :=
  if walk.needsBinding then defineVal (rangeBinding p).name p.rangeType false else return ()

/-- What the elements are read from. -/
def rangeBase (p : Pending) (walk : Walk) : Expr :=
  if walk.needsBinding then .ofIdent (rangeBinding p).name else p.range

/-- The declaration that the template begins with. -/
def loopDecl (p : Pending) (walk : Walk) : ValDecl :=
  attachInitializer p.var (selector walk p.range (rangeBase p walk) p.index.reference)

/-- Checks the body as a template over the index. -/
def templateOf (deeper : Deeper) (p : Pending) (walk : Walk) (body : CheckM (List Stmt)) :
    CheckM (ValDecl × List Stmt) :=
  inScope do
    onPlace fun place => ((place.pushScope).pushTemplate p.index.level).enterLoop
    let var ← valDecl deeper (loopDecl p walk)
    return (var, ← body)

/-- Replaces the template by its copies, as far as their number is known. -/
def unrolling (deeper : Deeper) (p : Pending) (walk : Walk) (template : Block) :
    CheckM Unrolling :=
  match walk.count? with
  | none => return .deferred
  | some 0 => return .empty
  | some n => do
    return .unrolled (bindingFor p walk)
      (← copiesFrom (copyAt deeper template p.index p.keyword) n 0)

/-- The expansion itself, where `body` checks the statements of the body.  Nothing is kept of a
statement that fails. -/
def unroll (deeper : Deeper) (p : Pending) (bodySpan : Span) (body : CheckM (List Stmt)) :
    CheckM Expansion := do
  let walk ← ofExcept (walkOf (← get) p.range.span p.rangeType)
  checkSize p.keyword walk.count?
  bindRange p walk
  let (var, stmts) ← templateOf deeper p walk body
  let state ← unrolling deeper p walk ⟨bodySpan, .val var :: stmts⟩
  return ⟨p.span, p.keyword, p.init, p.var, p.range, ⟨bodySpan, stmts⟩, some p.index.depth, state⟩

/-- Takes the body to an open expansion and leaves its scope. -/
def finishExpansion (deeper : Deeper) (p : Pending) (bodySpan : Span)
    (body : CheckM (List Stmt)) : CheckM Expansion :=
  always (unroll deeper p bodySpan body) (·.onPlace (·.restore p.mark))

end Unroll.Check
