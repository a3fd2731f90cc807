import ProofKernel.Report

/-!
# The command line

* `Command`: what the arguments ask for;
* `Command.ofArguments`: the command of the arguments, the first decisive one counting;
* `ReadFault`: why an input cannot be read;
* `Command.run`: output, messages and exit code of a command.
-/

namespace ProofKernel

/-- What the arguments ask for. -/
inductive Command where
  | help
  | version
  /-- Reports on a file, or on the standard input where no file is given. -/
  | report (file? : Option String)
deriving DecidableEq, Repr

/-- What is wrong with the arguments. -/
inductive UsageError where
  | unknownOption (option : String)
  | twoFiles
deriving DecidableEq, Repr

/-- The message of an error. -/
def UsageError.message : UsageError → String
  | .unknownOption option => s!"unknown option `{option}`"
  | .twoFiles => "more than one input file given"

/-- Why an input cannot be read: the words of the operating system, or bytes that are no text. -/
inductive ReadFault where
  | system (text : String) (code : Nat)
  | notText
deriving DecidableEq, Repr

/-- The message of a fault. -/
def ReadFault.message : ReadFault → String
  | .system text code => s!"{text} (os error {code})"
  | .notText => "stream did not contain valid UTF-8"

/-- What a command writes, and its exit code. -/
structure Outcome where
  code : Nat
  stdout : String
  stderr : String
deriving DecidableEq, Repr

namespace CommandLine

/-- Each line on a line of its own. -/
def unlines (lines : List String) : String := String.join (lines.map fun line => line ++ "\n")

/-- The help text. -/
def usage : String :=
  unlines
    ["Usage: prooftoys [OPTIONS] [FILE]",
     "",
     "Reads one term per line from FILE, or from standard input, and prints each",
     "term with its inferred type. Lines starting with `#` are skipped.",
     "",
     "Options:",
     "  -h, --help     Print this help",
     "  -v, --version  Print version"]

/-- The version text. -/
def versionText : String := "prooftoys 0.1.0\n"

/-- The text with blanks before each line but the first. -/
def hang (width : Nat) (text : String) : String :=
  ("\n" ++ "".pushn ' ' width).intercalate ((Text.lines text.toList).map String.ofList)

/-- A cause among several, with its number. -/
def numbered (place : Nat) (cause : String) : String :=
  let number := toString place
  "".pushn ' ' (5 - number.length) ++ number ++ ": " ++ hang 7 cause

/-- The report of a failure: its message, then its causes, each indented and numbered if there are
several. -/
def failureReport : List String → String
  | [] => ""
  | [only] => unlines ["Error: " ++ only]
  | [top, cause] => unlines ["Error: " ++ top, "", "Caused by:", "    " ++ hang 4 cause]
  | top :: causes =>
    unlines (["Error: " ++ top, "", "Caused by:"] ++
      causes.zipIdx.map fun (cause, place) => numbered place cause)

/-- The outcome of a failure, after the given messages. -/
def failed (log : List String) (chain : List String) : Outcome :=
  ⟨1, "", unlines log ++ failureReport chain⟩

end CommandLine

namespace Command

open CommandLine

/-- The command of the arguments after a file was given or not. -/
def ofArgumentsFrom (file? : Option String) : List String → Except UsageError Command
  | [] => .ok (.report file?)
  | arg :: args =>
    if arg = "-h" ∨ arg = "--help" then .ok .help
    else if arg = "-v" ∨ arg = "--version" then .ok .version
    else if arg = "-" then ofArgumentsFrom none args
    else if arg.front = '-' ∧ arg ≠ "" then .error (.unknownOption arg)
    else if file?.isSome then .error .twoFiles
    else ofArgumentsFrom (some arg) args

/-- The command of the arguments. -/
def ofArguments (args : List String) : Except UsageError Command := ofArgumentsFrom none args

/-- What cannot be read. -/
def readContext : Option String → String
  | some path => s!"failed to read `{path}`"
  | none => "failed to read stdin"

/-- The outcome of a report on an input. -/
def runReport (filter : LogFilter) (file? : Option String) (input : Except ReadFault ByteArray) :
    Outcome :=
  let text := input.bind fun bytes => match String.fromUTF8? bytes with
    | some text => .ok text
    | none => .error .notText
  match text with
  | .error fault => failed [] [readContext file?, fault.message]
  | .ok text =>
    let (result, session) := Report.process text
    let log := filter.render session.log.reverse
    match result with
    | .ok lines => ⟨0, unlines lines, unlines log⟩
    | .error e => failed log e.chain

/-- The outcome of a command. Only a report uses its input. -/
def run (filter : LogFilter) (input : Except ReadFault ByteArray) : Command → Outcome
  | .help => ⟨0, usage, ""⟩
  | .version => ⟨0, versionText, ""⟩
  | .report file? => runReport filter file? input

/-- The outcome of arguments that are wrong. -/
def refuse (e : UsageError) : Outcome := failed [] [e.message]

end Command

end ProofKernel
