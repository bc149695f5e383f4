import Unroll.Checker.Program
/-!
# The copies in a tree

A copy stands where its expansion stands, and inside it stand the copies of the expansions in its body.  The body of an
expansion itself does not run: it is kept as it was checked, and the copies in it have been made for that check.  The
walk leaves these out or takes them in.
-/
namespace Unroll

mutual

/-- The copies in a statement, outer ones first; `all` says whether the bodies of expansions are looked at too. -/
def Stmt.copies (all : Bool) : Stmt → List Copy
  | .cond _ _ yes none => yes.copies all
  | .cond _ _ yes (some no) => yes.copies all ++ no.copies all
  | .loop _ _ body => body.copies all
  | .expand x => x.copies all
  | _ => []

def Stmt.copiesOf (all : Bool) : List Stmt → List Copy
  | [] => []
  | s :: ss => s.copies all ++ Stmt.copiesOf all ss

def Block.copies (all : Bool) : Block → List Copy
  | ⟨_, ss⟩ => Stmt.copiesOf all ss

def Expansion.copies (all : Bool) : Expansion → List Copy
  | ⟨_, _, _, _, _, body, _, state⟩ => (if all then body.copies all else []) ++ state.copiesIn all

def Unrolling.copiesIn (all : Bool) : Unrolling → List Copy
  | .unrolled _ cs => Copy.copiesOf all cs
  | _ => []

def Copy.copiesOf (all : Bool) : List Copy → List Copy
  | [] => []
  | ⟨i, body⟩ :: cs => ⟨i, body⟩ :: body.copies all ++ Copy.copiesOf all cs

end

/-- The copies in executable positions: what runs when the cells of the program run. -/
def CheckedProgram.runningCopies (p : CheckedProgram) : List Copy := p.cells.flatMap (·.body.copies false)

/-- All copies that the program keeps: those that run, and those in the bodies that it keeps as templates. -/
def CheckedProgram.copies (p : CheckedProgram) : List Copy := (p.cells ++ p.templates).flatMap (·.body.copies true)

/-- What is known of a copy from outside: the declaration that it begins with, and its index. -/
def Copy.news : Copy → Option (String × Span × Nat)
  | ⟨i, ⟨_, .val v :: _⟩⟩ => some (v.name.name, v.span, i)
  | _ => none

/-- What the news of a value tell of a copy. -/
def Event.copied? : Event → Option (String × Span × Nat)
  | ⟨.val, name, _, span, some i⟩ => some (name, span, i)
  | _ => none

/-- What has been broadcast of copies, newest first. -/
def Checker.heard (s : Checker) : List (String × Span × Nat) := s.events.filterMap Event.copied?

end Unroll
