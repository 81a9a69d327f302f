import DocAudit.Command

/-!
# The command line

The first argument that is no option names a command; the others are its operands. Options may stand
anywhere after the command they belong to, `--verbose` anywhere at all.

* `Invocation.parse?`: what the arguments ask for; none if they are wrong.
* `Invocation.run`: the answer to it.
-/

namespace DocAudit

/-- What the arguments ask for. -/
inductive Invocation
  | check (format : Format)
  | definition (file : Path) (line : Nat)
  | hover (file : Path) (line : Nat)
  | «show» (file : Path) (asJson : Bool)
  | synth (file : Path) (line column : Nat)
  | watch (format : Format)
deriving DecidableEq, Repr

/-- Arguments sorted by kind: operands in order, values of options, and flags. -/
structure Arguments where
  operands : List Text := []
  values : List (Text × Text) := []
  flags : List Text := []
deriving DecidableEq, Repr

/-- The options of a command: those that take a value, and those that do not. -/
structure Options where
  valued : List Text := []
  flags : List Text := []
deriving DecidableEq, Repr

/-- The flag that every command takes. -/
def verboseFlags : List Text := ["-v", "--verbose"]

/-- The options of each command. -/
def commandOptions : List (Text × Options) :=
  [("check", { valued := ["--format"] }), ("definition", {}), ("hover", {}),
    ("show", { flags := ["--json"] }), ("synth", { valued := ["--column"] }),
    ("watch", { valued := ["--format"] })]

namespace Arguments

/-- One more value of an option; no option may have two. -/
def addValue? (a : Arguments) (name value : Text) : Option Arguments :=
  if (a.values.lookup name).isSome then none else some { a with values := a.values ++ [(name, value)] }

/-- One more flag; none may be repeated. -/
def addFlag? (a : Arguments) (name : Text) : Option Arguments :=
  if a.flags.contains name then none else some { a with flags := a.flags ++ [name] }

/-- The name that a flag goes by: its long form. -/
def flagName (name : Text) : Text := if name = ("-v" : Text) then "--verbose" else name

/-- Whether an argument looks like an option. -/
def isOption (t : Text) : Bool := t.head? = some '-' && t.length != 1

/-- The arguments of a command sorted by its options. After `--` only operands follow. -/
def sort? (o : Options) (a : Arguments) : List Text → Option Arguments
  | [] => some a
  | t :: rest =>
    if t = ("--" : Text) then some { a with operands := a.operands ++ rest }
    else if o.valued.contains t then
      match rest with
      | [] => none
      | value :: rest =>
        if isOption value then none
        else
          match a.addValue? t value with
          | some a => sort? o a rest
          | none => none
    else if o.flags.contains t || verboseFlags.contains t then
      match a.addFlag? (flagName t) with
      | some a => sort? o a rest
      | none => none
    else if isOption t then
      match splitFirst (· = '=') t with
      | some (name, value) =>
        if o.valued.contains name then
          match a.addValue? name value with
          | some a => sort? o a rest
          | none => none
        else none
      | none => none
    else sort? o { a with operands := a.operands ++ [t] } rest

end Arguments

/-- The largest line or column. -/
def maxNumber : Nat := 18446744073709551615

/-- A line or column: digits, possibly after a plus sign. -/
def numberArgument? (t : Text) : Option Nat :=
  let digits := if t.head? = some '+' then t.drop 1 else t
  if digits.isEmpty || !digits.all Char.isDigit || maxNumber < digitsValue digits then none
  else some (digitsValue digits)

/-- How the program is called. -/
def usage : Text :=
  "Usage: aldoc [-v|--verbose] <COMMAND>\n\n" ++
    "Commands:\n" ++
    "  check [--format json|markdown|text]\n" ++
    "  definition <FILE> <LINE>\n" ++
    "  hover <FILE> <LINE>\n" ++
    "  show <FILE> [--json]\n" ++
    "  synth <FILE> <LINE> [--column <COLUMN>]\n" ++
    "  watch [--format json|markdown|text]\n"

namespace Invocation

/-- The format that the arguments ask for, which is text unless they say otherwise. -/
def format? (a : Arguments) : Option Format :=
  match a.values.lookup ("--format" : Text) with
  | none => some .text
  | some word => Format.words.lookup word

/-- The column that the arguments ask for, which is the first unless they say otherwise. -/
def column? (a : Arguments) : Option Nat :=
  match a.values.lookup ("--column" : Text) with
  | none => some 1
  | some t => numberArgument? t

/-- What a command with its arguments asks for. -/
def ofArguments? (command : Text) (a : Arguments) : Option Invocation :=
  match a.operands with
  | [] =>
    if command = ("check" : Text) then (format? a).map .check
    else if command = ("watch" : Text) then (format? a).map .watch
    else none
  | [file] =>
    if command = ("show" : Text) then some (.show ⟨file⟩ (a.flags.contains ("--json" : Text))) else none
  | [file, line] => do
    let line ← numberArgument? line
    if command = ("definition" : Text) then some (.definition ⟨file⟩ line)
    else if command = ("hover" : Text) then some (.hover ⟨file⟩ line)
    else if command = ("synth" : Text) then (column? a).map (.synth ⟨file⟩ line)
    else none
  | _ => none

/-- What some arguments ask for; none if they are wrong. -/
def parse? (arguments : List Text) : Option Invocation := do
  let flags := arguments.takeWhile verboseFlags.contains
  match arguments.dropWhile verboseFlags.contains with
  | [] => none
  | command :: rest =>
    if 1 < flags.length then none
    else
      let options ← commandOptions.lookup command
      ofArguments? command (← Arguments.sort? options {} rest)

/-- The file that a request is about. -/
def file? : Invocation → Option Path
  | definition file _ => some file
  | hover file _ => some file
  | «show» file _ => some file
  | synth file _ _ => some file
  | check _ => none
  | watch _ => none

/-- The same request about another file. -/
def about (file : Path) : Invocation → Invocation
  | definition _ line => definition file line
  | hover _ line => hover file line
  | «show» _ asJson => .show file asJson
  | synth _ line column => synth file line column
  | check format => check format
  | watch format => watch format

/-- The answer to a request. For `watch` it is the first round only. -/
def run (d : Disk) : Invocation → Answer
  | check format => Command.check d format
  | definition file line => Command.definition d file line
  | hover file line => Command.hover d file line
  | «show» file asJson => Command.show d file asJson
  | synth file line _ => Command.synth d file line
  | watch format =>
    .of (Command.watchStart d format) fun (w, printed) =>
      { stdout := printed, stderr := "watch: initial check\n" ++ w.banner, result := .ok w.exitCode }

end Invocation

/-- The exit code of an answer; a failure has a code of its own. -/
def Answer.exitCode (a : Answer) : Nat :=
  match a.result with
  | .ok code => code
  | .error _ => 2

/-- A failure as the program prints it, headings in bold. -/
def Failure.printed (failure : Failure) : Text :=
  printLines ((lines failure.markdown).map emphasizeLine)

/-- What an answer prints on the side, with the failure it may end in. -/
def Answer.allStderr (a : Answer) : Text :=
  match a.result with
  | .ok _ => a.stderr
  | .error failure => a.stderr ++ failure.printed

end DocAudit
