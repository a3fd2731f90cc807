import ProofKernel.CommandLine

/-!
# The program

Reads its arguments, its environment and its input, and writes what `Command.run` says.
-/

namespace ProofKernel.Program

/-- The words of the operating system for an error. -/
def faultOf : IO.Error → ReadFault
  | .noFileOrDirectory _ code text | .inappropriateType _ code text
  | .permissionDenied _ code text | .invalidArgument _ code text | .noSuchThing _ code text
  | .resourceExhausted _ code text | .alreadyExists _ code text | .interrupted _ code text
  | .otherError code text | .hardwareFault code text | .illegalOperation code text
  | .resourceBusy code text | .resourceVanished code text | .unsupportedOperation code text
  | .unsatisfiedConstraints code text | .protocolError code text | .timeExpired code text =>
    .system text code.toNat
  | e => .system (toString e) 0

/-- The bytes of a stream up to its end, after those read so far. -/
partial def readAll (stream : IO.FS.Stream) (read : ByteArray) : IO ByteArray := do
  let more ← stream.read 65536
  if more.isEmpty then return read else readAll stream (read ++ more)

/-- The bytes of a file, or of the standard input. -/
def readInput (file? : Option String) : IO (Except ReadFault ByteArray) := do
  try
    match file? with
    | some path => return .ok (← (← IO.FS.Handle.mk path .read).readBinToEnd)
    | none => return .ok (← readAll (← IO.getStdin) .empty)
  catch e => return .error (faultOf e)

end ProofKernel.Program

open ProofKernel in
/-- Runs the program. -/
def main (args : List String) : IO UInt32 := do
  let filter := LogFilter.read (← IO.getEnv "RUST_LOG")
  let outcome ← match Command.ofArguments args with
    | .error e => pure (Command.refuse e)
    | .ok command => do
      let input ← match command with
        | .report file? => Program.readInput file?
        | _ => pure (.ok .empty)
      pure (command.run filter input)
  IO.print outcome.stdout
  IO.eprint outcome.stderr
  return outcome.code.toUInt32
