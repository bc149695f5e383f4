import Unroll.CommandLine
import Unroll.FileTree
import Unroll.Machine.Source
import Unroll.Manifest
import Unroll.Report
/-! # What a command line leads to

`respond` answers a command line from the files that it can see, and changes none of them: what is
to be written is part of the response.
-/
namespace Unroll

/-- The files that paths lead to. -/
abbrev Files := String → Option Entry

/-- Why a command does not do what it was asked for. -/
inductive Failure
  | unreadable (path : String)
  | manifest (path : String) (error : ManifestError)
  | source (path : String) (error : SourceError)
  | check (path : String) (error : Diagnostic)
  | run (path : String) (error : RunError)
  | unformatted (path : String)
  | unwritable (path : String)

namespace Failure

def message : Failure → String
  | unreadable path => path ++ ": cannot be read"
  | manifest path e => path ++ ": manifest error: " ++ e.message
  | source path e => path ++ ": " ++ e.message
  | check path d => path ++ ": semantic error: " ++ d.message
  | run path e => path ++ ": " ++ e.message
  | unformatted path => "formatting differs: " ++ path
  | unwritable path => path ++ ": cannot be written"

end Failure

/-! ## Settings -/

/-- How a source file is to be read and checked. -/
structure Settings where
  edition : Option String
  config : Config
deriving DecidableEq, Repr

def manifestName : String := "quill.toml"

/-- Where the manifest of a file may be, the nearest place first. -/
def manifestPaths (path : String) : List String :=
  (directoriesAbove path).map (· ++ manifestName)

/-- The manifest that is nearest to a file, if there is one. -/
def manifestOf (files : Files) (path : String) : Except Failure Manifest :=
  match (manifestPaths path).findSome? fun p => (files p).map (p, ·) with
  | none => .ok {}
  | some (p, .text s) => (Manifest.parse s).mapError (.manifest p)
  | some (p, .other) => .error (.unreadable p)

/-- What the command line says comes before what the manifest says. -/
def Overrides.apply (o : Overrides) (m : Manifest) : Settings where
  edition := o.edition.or m.edition
  config := ⟨o.maxInstantiationDepth.getD m.config.maxInstantiationDepth,
    o.maxExpansionSize.getD m.config.maxExpansionSize⟩

/-! ## Commands -/

/-- A path as it is shown: with forward slashes. -/
def shownPath (path : String) : String := path.map fun c => if c = '\\' then '/' else c

/-- The text of a source file and its settings. -/
def sourceOf (files : Files) (o : Overrides) (path : String) : Except Failure (String × Settings) :=
  match files path with
  | some (.text s) => return (s, o.apply (← manifestOf files path))
  | _ => .error (.unreadable path)

def programOf (files : Files) (o : Overrides) (path : String) :
    Except Failure (String × Settings × Program) := do
  let (s, settings) ← sourceOf files o path
  return (s, settings, ← (Source.program s settings.edition).mapError (.source path))

def checkedOf (files : Files) (o : Overrides) (path : String) : Except Failure CheckedProgram := do
  let (_, settings, p) ← programOf files o path
  (p.check settings.config).mapError (.check path)

/-- What a command line leads to.  Zero says that all went well, one that something was wrong with a
file, two that the command line makes no sense. -/
structure Response where
  exit : UInt32 := 0
  output : String := ""
  /-- For the user, apart from the output. -/
  complaints : List String := []
  /-- A file to write, once the output is out. -/
  save : Option (String × String) := none
deriving DecidableEq, Repr

namespace Response

def ofFailure (f : Failure) : Response := { exit := 1, complaints := [f.message] }

def ofExcept : Except Failure Response → Response
  | .ok r => r
  | .error f => ofFailure f

/-- The response where the file could not be written. -/
def unsaved (r : Response) (path : String) : Response :=
  { r with
    exit := 1, save := none
    complaints := r.complaints ++ [(Failure.unwritable path).message] }

/-- One response after the other; they are well together if each is. -/
def append (a b : Response) : Response where
  exit := max a.exit b.exit
  output := a.output ++ b.output
  complaints := a.complaints ++ b.complaints
  save := a.save.or b.save

end Response

namespace Command

def respond (files : Files) (o : Overrides) : Command → Response
  | check paths =>
    paths.foldl (fun r path => r.append (.ofExcept do
      let _ ← checkedOf files o path
      return { output := "ok: " ++ shownPath path ++ "\n" })) {}
  | run path entry => .ofExcept do
    let checked ← checkedOf files o path
    let outcome ← (checked.run .standard entry).mapError (.run path)
    return { output := outcome.out }
  | expand path report => .ofExcept do
    let checked ← checkedOf files o path
    let save := report.map (·, (Report.ofProgram (shownPath path) checked).json)
    return { output := checked.print, save }
  | format path mode => .ofExcept do
    let (s, _, p) ← programOf files o path
    match mode with
    | .display => return { output := p.print }
    | .compare => if p.print = s then return {} else throw (.unformatted (shownPath path))
    | .save => return { save := some (path, p.print) }

/-- The source files that a command reads. -/
def sources : Command → List String
  | check paths => paths
  | run path _ => [path]
  | expand path _ => [path]
  | format path _ => [path]

end Command

/-! ## Command lines -/

def versionText : String := "quill 0.2.0\n"

def helpText : String :=
  "Usage: quill [OPTIONS] <COMMAND>\n\n" ++
  "Commands:\n" ++
  "  check <PATHS>...                  Parse and check source files\n" ++
  "  run [PATH] [--entry <NAME>]       Check a file and run its entry cell\n" ++
  "  expand [PATH] [--report <FILE>]   Print the program with every expansion unrolled\n" ++
  "  fmt [PATH] [--check] [--write]    Format a source file\n\n" ++
  "Options:\n" ++
  "  --edition <EDITION>               Language edition\n" ++
  "  --max-instantiation-depth <N>     Maximum nesting of instantiations\n" ++
  "  --max-expansion-size <N>          Maximum elements that one expansion may unroll\n" ++
  "  -h, --help                        Print help\n" ++
  "  -V, --version                     Print version\n"

def respond (files : Files) (args : List String) : Response :=
  match Invocation.ofArguments args with
  | .error m => { exit := 2, complaints := [m.message, "for more information, try '--help'"] }
  | .ok .help => { output := helpText }
  | .ok .version => { output := versionText }
  | .ok (.perform o c) => c.respond files o

/-- Every path whose file the response to a command line may depend on. -/
def pathsRead (args : List String) : List String :=
  match Invocation.ofArguments args with
  | .ok (.perform _ c) => c.sources.flatMap fun p => p :: manifestPaths p
  | _ => []

/-- Answers a command line inside a tree of files, and writes there what is to be written. -/
def FileTree.perform (t : FileTree) (args : List String) : Response × FileTree :=
  let r := respond t.entry? args
  match r.save with
  | none => (r, t)
  | some (path, content) =>
    match t.save? path content with
    | some after => (r, after)
    | none => (r.unsaved path, t)

end Unroll
