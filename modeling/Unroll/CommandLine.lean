import Unroll.Text.Digit
/-! # Command lines

A command line is a command with its operands and options.  Three options belong to every command
and may stand before it as well as after it; where an option stands in both places, the one after
the command counts.

Options are read from the left, and what is wrong first decides: a request for help or for the
version is granted if nothing before it is wrong.
-/
namespace Unroll

/-- What the options of every command set. -/
structure Overrides where
  edition : Option String
  maxInstantiationDepth : Option Nat
  maxExpansionSize : Option Nat
deriving DecidableEq, Repr

/-- What becomes of a formatted text. -/
inductive FormatMode
  | display
  | compare
  | save
deriving DecidableEq, Repr

inductive Command
  | check (paths : List String)
  | run (path entry : String)
  | expand (path : String) (report : Option String)
  | format (path : String) (mode : FormatMode)
deriving DecidableEq, Repr

inductive Misuse
  | noCommand
  | unknownCommand (name : String)
  | unknownOption (name : String)
  | missingValue (option : String)
  | unwantedValue (option : String)
  | invalidValue (option value : String)
  | repeated (option : String)
  | missingPath
  | unwantedOperand (operand : String)
deriving DecidableEq, Repr

namespace Misuse

def message : Misuse → String
  | noCommand => "a command is needed"
  | unknownCommand name => "unknown command '" ++ name ++ "'"
  | unknownOption name => "unknown option '" ++ name ++ "'"
  | missingValue option => "option '--" ++ option ++ "' needs a value"
  | unwantedValue option => "option '--" ++ option ++ "' takes no value"
  | invalidValue option value => "invalid value '" ++ value ++ "' for '" ++ option ++ "'"
  | repeated option => "option '--" ++ option ++ "' is given twice"
  | missingPath => "a path is needed"
  | unwantedOperand operand => "unexpected argument '" ++ operand ++ "'"

end Misuse

/-- What a command line asks for. -/
inductive Invocation
  | help
  | version
  | perform (overrides : Overrides) (command : Command)
deriving DecidableEq, Repr

namespace CommandLine

/-! ## Options -/

inductive OptionKind
  | flag
  | text
  /-- A text that is not empty. -/
  | path
  | count
deriving DecidableEq, Repr

inductive OptionValue
  | flag
  | text (content : String)
  | count (value : Nat)
deriving DecidableEq, Repr

/-- A natural number below 2^64, a plus sign allowed in front. -/
def count? (s : String) : Option Nat :=
  let digits := match s.toList with
    | '+' :: r => r
    | r => r
  let n := Text.ofDigits 10 digits
  if !digits.isEmpty && digits.all (Text.isDigitIn 10) && n < UInt64.size then some n else none

namespace OptionKind

def read? (value : String) : OptionKind → Option OptionValue
  | flag => none
  | text => some (.text value)
  | path => if value.isEmpty then none else some (.text value)
  | count => (count? value).map .count

end OptionKind

/-- What may stand at one level of a command line: before the command, or after it. -/
structure Level where
  options : List (String × OptionKind)
  /-- How many operands there may be, where that is bounded.  Before the command there are none. -/
  most : Option Nat
  /-- Whether the first operand is the command, with which the level ends. -/
  endsAtOperand : Bool

/-- What stood at a level. -/
structure Given where
  options : List (String × OptionValue) := []
  operands : List String := []

/-- Why the reading of a level stopped early. -/
inductive Stop
  | help
  | version
  | misuse (m : Misuse)

namespace Given

def add (g : Given) (name : String) (v : OptionValue) : Except Stop Given :=
  if (g.options.lookup name).isSome then .error (.misuse (.repeated name))
  else .ok { g with options := g.options ++ [(name, v)] }

def addText (g : Given) (name : String) (kind : OptionKind) (value : String) : Except Stop Given :=
  match kind.read? value with
  | some v => g.add name v
  | none => .error (.misuse (.invalidValue name value))

def addOperand (g : Given) (level : Level) (operand : String) : Except Stop Given :=
  if operand.isEmpty then .error (.misuse (.invalidValue "path" ""))
  else if level.most.any (· ≤ g.operands.length) then .error (.misuse (.unwantedOperand operand))
  else .ok { g with operands := g.operands ++ [operand] }

def flag (g : Given) (name : String) : Bool := (g.options.lookup name).isSome

def text? (g : Given) (name : String) : Option String :=
  match g.options.lookup name with
  | some (.text s) => some s
  | _ => none

def count? (g : Given) (name : String) : Option Nat :=
  match g.options.lookup name with
  | some (.count n) => some n
  | _ => none

end Given

/-- The forms of an argument. -/
inductive Argument
  /-- Two dashes: everything after them is an operand. -/
  | dashes
  | long (name : String) (value : Option String)
  | short (letter : Char)
  /-- Also a dash alone. -/
  | plain

namespace Argument

def ofString (s : String) : Argument :=
  match s.toList with
  | ['-', '-'] => dashes
  | '-' :: '-' :: r =>
    long (String.ofList (r.takeWhile (· != '=')))
      ((r.dropWhile (· != '=')).tail?.map String.ofList)
  | '-' :: c :: _ => short c
  | _ => plain

def isPlain (s : String) : Bool := ofString s matches plain

end Argument

/-- Reads a level: what stood there, and the arguments that are left from the command on. -/
def Level.read (level : Level) (g : Given) : List String → Except Stop (Given × List String)
  | [] => .ok (g, [])
  | arg :: rest =>
    match Argument.ofString arg with
    | .plain =>
      if level.endsAtOperand then .ok (g, arg :: rest)
      else do level.read (← g.addOperand level arg) rest
    | .dashes => do
      let g ← rest.foldlM (fun g operand => g.addOperand level operand) g
      return (g, [])
    | .short c =>
      if c = 'h' then .error .help
      else if c = 'V' && level.endsAtOperand then .error .version
      else .error (.misuse (.unknownOption arg))
    | .long name value =>
      match level.options.lookup name, value, rest with
      | some .flag, none, rest => do level.read (← g.add name .flag) rest
      | some .flag, some _, _ => .error (.misuse (.unwantedValue name))
      | some kind, some v, rest => do level.read (← g.addText name kind v) rest
      | some kind, none, v :: rest =>
        if Argument.isPlain v then do level.read (← g.addText name kind v) rest
        else .error (.misuse (.missingValue name))
      | some _, none, [] => .error (.misuse (.missingValue name))
      | none, none, _ =>
        if name = "help" then .error .help
        else if name = "version" && level.endsAtOperand then .error .version
        else .error (.misuse (.unknownOption arg))
      | none, some _, _ => .error (.misuse (.unknownOption arg))

/-! ## Commands -/

/-- The options of every command. -/
def commonOptions : List (String × OptionKind) :=
  [("edition", .text), ("max-instantiation-depth", .count), ("max-expansion-size", .count)]

def topLevel : Level := ⟨commonOptions, some 0, true⟩

/-- The level of a command. -/
def level? : String → Option Level
  | "check" => some ⟨commonOptions, none, false⟩
  | "run" => some ⟨("entry", .text) :: commonOptions, some 1, false⟩
  | "expand" => some ⟨("report", .path) :: commonOptions, some 1, false⟩
  | "fmt" => some ⟨("check", .flag) :: ("write", .flag) :: commonOptions, some 1, false⟩
  | _ => none

/-- The file that a command works on where none is named. -/
def mainFile : String := "main.quill"

def command (name : String) (g : Given) : Except Misuse Command :=
  let path := g.operands.headD mainFile
  match name with
  | "check" => if g.operands.isEmpty then .error .missingPath else .ok (.check g.operands)
  | "run" => .ok (.run path ((g.text? "entry").getD "main"))
  | "expand" => .ok (.expand path (g.text? "report"))
  | "fmt" =>
    .ok (.format path
      (if g.flag "check" then .compare else if g.flag "write" then .save else .display))
  | _ => .error (.unknownCommand name)

def overrides (before after : Given) : Overrides where
  edition := (after.text? "edition").or (before.text? "edition")
  maxInstantiationDepth :=
    (after.count? "max-instantiation-depth").or (before.count? "max-instantiation-depth")
  maxExpansionSize := (after.count? "max-expansion-size").or (before.count? "max-expansion-size")

/-- What the names after `help` ask for: each a command of the one before. -/
def help : List String → Stop
  | [] => .help
  | [name] =>
    if name = "help" || (level? name).isSome then .help else .misuse (.unknownCommand name)
  | _ :: name :: _ => .misuse (.unknownCommand name)

def read (args : List String) : Except Stop (Overrides × Command) := do
  match ← topLevel.read {} args with
  | (_, []) => throw (.misuse .noCommand)
  | (before, name :: rest) =>
    if name = "help" then throw (help rest)
    match level? name with
    | none => throw (.misuse (.unknownCommand name))
    | some level =>
      let (after, _) ← level.read {} rest
      return (overrides before after, ← (command name after).mapError .misuse)

end CommandLine

namespace Invocation

def ofArguments (args : List String) : Except Misuse Invocation :=
  match CommandLine.read args with
  | .ok (o, c) => .ok (perform o c)
  | .error .help => .ok help
  | .error .version => .ok version
  | .error (.misuse m) => .error m

end Invocation

end Unroll
