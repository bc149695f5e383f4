import Unroll.Response
/-! # The command

Looks the files up that a command line names, and carries the response out.
-/

/-- What a path leads to: a text, nothing, or something that is no text. -/
def lookUp (path : String) : IO (Option Unroll.Entry) := do
  try
    return some (.text (← IO.FS.readFile path))
  catch
    | .noFileOrDirectory .. => return none
    | _ => return some .other

def main (args : List String) : IO UInt32 := do
  let found ← (Unroll.pathsRead args).mapM fun path => do return (path, ← lookUp path)
  let mut r := Unroll.respond (fun path => (found.lookup path).join) args
  IO.print r.output
  match r.save with
  | none => pure ()
  | some (path, content) =>
    try IO.FS.writeFile path content
    catch _ => r := r.unsaved path
  for complaint in r.complaints do
    IO.eprintln complaint
  return r.exit
