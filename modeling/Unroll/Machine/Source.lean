import Unroll.Machine.Run
import Unroll.Source
/-! # From text to outcome

All stages in a row, with one kind of error for all of them.
-/
namespace Unroll

inductive RunError
  | source (error : SourceError)
  | check (error : Diagnostic)
  | runtime (error : RuntimeError)
  | exhausted

namespace RunError

def ofHalt : Halt → RunError
  | .error e => runtime e
  | .exhausted => exhausted

def message : RunError → String
  | source e => e.message
  | check d => "semantic error: " ++ d.message
  | runtime e => "runtime error: " ++ e.message
  | exhausted => "the run was given up"

end RunError

namespace CheckedProgram

/-- Runs a cell on a new machine. -/
def run (p : CheckedProgram) (b : Bounds) (entry : String) : Except RunError Outcome :=
  match Machine.runEntry p b entry .new with
  | .ok outcome _ => .ok outcome
  | .error h _ => .error (.ofHalt h)

end CheckedProgram

/-- Reads, checks and runs a program, within the usual bounds. -/
def runSource (source entry : String) : Except RunError Outcome := do
  let p ← (Source.program source none).mapError .source
  let checked ← (p.check .standard).mapError .check
  checked.run .standard entry

end Unroll
