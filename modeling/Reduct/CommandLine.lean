import Reduct.Diagnostic.Explain
import Reduct.Diagnostic.Render
import Reduct.Suite

/-!
# The command line

A command line names a command, an input and options. What a command writes and its exit status
are functions of the command line and of the files it can read.
-/

namespace Reduct

/-- What the program is asked to do. -/
inductive Command where
  /-- Show how the program is used. -/
  | help
  /-- Compile and report faults. -/
  | check
  /-- Compile and run all entries. -/
  | run
  /-- Compile and write the code. -/
  | emit
  /-- Explain a code. -/
  | explain
deriving DecidableEq

/-- The command of a name. -/
def Command.ofName? : String → Option Command
  | "check" => some .check
  | "run" | "test" => some .run
  | "emit" => some .emit
  | "explain" => some .explain
  | "help" | "--help" | "-h" => some .help
  | _ => none

/-- What is wrong with a command line. -/
inductive UsageError where
  | unknownCommand (name : String)
  | unknownOption (option : String)
  | unexpectedArgument (argument : String)
  | missingPath
  | missingCode
deriving DecidableEq

/-- The words for what is wrong with a command line. -/
def UsageError.message : UsageError → String
  | unknownCommand name => s!"unknown command `{name}`"
  | unknownOption option => s!"unknown option `{option}`"
  | unexpectedArgument argument => s!"unexpected argument `{argument}`"
  | missingPath => "missing file path"
  | missingCode => "missing error code"

/-- A command with its input and options. -/
structure Request where
  command : Command
  /-- The path of the specification, or the code to explain. -/
  input : Option String
  /-- The text that the descriptions of the entries to run have in them. -/
  filter : Option String
  /-- Whether passed entries are reported too. -/
  verbose : Bool
  /-- Whether log spans are shown as a tree. -/
  traceTree : Bool
deriving DecidableEq

namespace Request

/-- A command without input and options. -/
def ofCommand (command : Command) : Request := ⟨command, none, none, false, false⟩

/-- The rest of an argument after a leading text. -/
def after? (lead argument : String) : Option String :=
  if Text.startsWith argument lead then some (.ofList (argument.toList.drop lead.length)) else none

/-- Take in one argument after the command. -/
def addArgument (request : Request) (argument : String) : Except UsageError Request :=
  match after? "--filter=" argument with
  | some text => .ok { request with filter := some text }
  | none =>
    if argument = "-v" ∨ argument = "--verbose" then .ok { request with verbose := true }
    else if argument = "--trace-tree" then .ok { request with traceTree := true }
    else if Text.startsWith argument "-" then .error (.unknownOption argument)
    else if request.input.isNone then .ok { request with input := some argument }
    else .error (.unexpectedArgument argument)

/-- Check that a command that needs an input has one. -/
def checkInput (request : Request) : Except UsageError Request :=
  match request.command, request.input with
  | .help, _ | _, some _ => .ok request
  | .explain, none => .error .missingCode
  | _, none => .error .missingPath

/-- Read a command line. Without arguments it asks for help. -/
def ofArguments : List String → Except UsageError Request
  | [] => .ok (ofCommand .help)
  | name :: arguments =>
    match Command.ofName? name with
    | none => .error (.unknownCommand name)
    | some command => do
      let request ← arguments.foldlM addArgument (ofCommand command)
      request.checkInput

/-- The file that the command reads, if it reads one. -/
def path? (request : Request) : Option String :=
  match request.command with
  | .help | .explain => none
  | .check | .run | .emit => some (request.input.getD "")

end Request

/-- What a command writes, and its exit status. -/
structure CommandResult where
  status : Nat
  output : String
  errors : String
deriving DecidableEq

namespace CommandResult

/-- A command that succeeds. -/
def success (output : String) : CommandResult := ⟨0, output, ""⟩

/-- A command that fails. -/
def failure (output errors : String) : CommandResult := ⟨1, output, errors⟩

/-- A run that ends out of turn. -/
def abort (output errors : String) : CommandResult := ⟨101, output, errors⟩

end CommandResult

/-- The contents of the file at a path, or the reason why it cannot be read. -/
abbrev Files := String → Except String String

namespace CommandLine

/-- Lines, each with its end. -/
def lines (items : List String) : String := String.join (items.map (· ++ "\n"))

/-- How the program is used. -/
def usage : String :=
  lines
    ["Redex compiler",
      "",
      "Usage: redexc <command> [options]",
      "",
      "Commands:",
      "  check <file>     Compile a specification and report errors",
      "  run <file>       Compile and run its assertion forms",
      "  emit <file>      Print the generated code",
      "  explain <code>   Explain an error code (e.g. E2003)",
      "  help             Show this message",
      "",
      "Options:",
      "  --filter=<text>  Only run entries whose form contains <text>",
      "  -v, --verbose    Report passing entries too",
      "  --trace-tree     Render logs as a span tree (filter with RUST_LOG)"]

/-- The depth of calls that the command line allows. -/
def callLimit : Nat := 10000

/-- Compile the file at a path, or report why this fails. -/
def compileFile (files : Files) (path : String) (prints : Bool) : Except CommandResult Program :=
  match files path with
  | .error reason => .error (.failure "" (s!"error: cannot read `{path}`: {reason}\n"))
  | .ok source =>
    match Program.ofSource source prints with
    | .ok program => .ok program
    | .error fault =>
      .error (.failure "" (fault.diagnostic.render (some (.ofText path source)) false))

/-- Compile only. -/
def check (path : String) (verbose : Bool) (program : Program) : CommandResult :=
  .success <|
    if verbose then
      path ++ ": ok (" ++ toString program.entries.length ++ " entries, " ++
        toString program.code.body.length ++ " statements)\n"
    else ""

/-- The lines on the result of an entry. -/
def resultLines (verbose : Bool) (result : EntryResult) : List String :=
  match result.message? with
  | some message => ["  FAIL " ++ result.entry.description, "       " ++ message]
  | none => if verbose then ["  PASS " ++ result.entry.description] else []

/-- The lines on a run. -/
def reportText (verbose : Bool) (report : Report) : String :=
  lines (report.results.flatMap (resultLines verbose)) ++
    toString report.passed ++ " passed, " ++ toString report.failed ++ " failed, " ++
    toString report.filtered ++ " filtered out\n"

/-- Run the selected entries. -/
def run (filter : Option String) (verbose : Bool) (program : Program) : CommandResult :=
  match program.run Machine.ampleFuel filter .empty (some callLimit) false with
  | (.error (.error cause), machine) =>
    .failure machine.output ("error: " ++ cause.message ++ "\n")
  | (.error failure, machine) => .abort machine.output ("error: " ++ failure.message ++ "\n")
  | (.ok report, machine) =>
    let output := machine.output ++ reportText verbose report
    if report.hasFailures then .failure output "" else .success output

/-- Explain a code. -/
def explain (text : String) : CommandResult :=
  match Code.ofText? text with
  | some code => .success (code.explanation ++ "\n")
  | none =>
    .failure "" <|
      lines
        ["Unknown error code: " ++ text,
          "",
          "Codes have the format EXXXX where X is a digit.",
          "Examples: E1001, E2003, E3002"]

/-- Compile the input of a request and go on with the program. -/
def withProgram (files : Files) (path : String) (prints : Bool)
    (next : Program → CommandResult) : CommandResult :=
  match compileFile files path prints with
  | .ok program => next program
  | .error result => result

/-- Carry out a request. -/
def perform (files : Files) (request : Request) : CommandResult :=
  let input := request.input.getD ""
  match request.command with
  | .help => .success usage
  | .check => withProgram files input false (check input request.verbose)
  | .run => withProgram files input true (run request.filter request.verbose)
  | .emit => withProgram files input true fun program => .success program.code.text
  | .explain => explain input

/-- Carry out a command line. -/
def execute (files : Files) (arguments : List String) : CommandResult :=
  match Request.ofArguments arguments with
  | .ok request => perform files request
  | .error error => .failure usage ("error: " ++ error.message ++ "\n\n")

end CommandLine

end Reduct
