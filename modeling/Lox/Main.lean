import Mathlib.Tactic.DeprecateTo
import Lox.CommandLine

/-!
# The program

The command line on the real input, output, files and clock.  Evaluation cannot
ask the system for the time, so the clock is read whenever a source is started,
and shows that time until the source ends.
-/

namespace Lox
namespace CommandLine

/-- The system's code for a path through something that is no directory. -/
def codeNotDirectory : UInt32 := 20

def codeIsDirectory : UInt32 := 21

def codeNameTooLong : UInt32 := 36

/-- A failure carries the system's code, or its negation in 32 bits. -/
def carries (code expected : UInt32) : Bool := code = expected || code = 0 - expected

def readFailure : IO.Error → ReadFailure
  | .noFileOrDirectory .. => .notFound
  | .inappropriateType _ code details =>
      if carries code codeIsDirectory then .isDirectory
      else if carries code codeNotDirectory then .notDirectory
      else .other details
  | .invalidArgument _ code details =>
      if carries code codeNameTooLong then .nameTooLong else .other details
  | e => .other e.toString

def readScript (path : String) : IO (Except ReadFailure ByteArray) := do
  try
    return .ok (← IO.FS.readBinFile path)
  catch e =>
    return .error (readFailure e)

/-- Read the input to its end. -/
partial def readInput (stream : IO.FS.Stream) (sofar : String) : IO String := do
  let line ← stream.getLine
  if line.isEmpty then
    return sofar
  else
    readInput stream (sofar ++ line)

def write (console : Console) : IO Unit := do
  let output ← IO.getStdout
  let errors ← IO.getStderr
  output.putStr console.output
  output.flush
  errors.putStr console.errors
  errors.flush

def unlimited : Nat := 4000000000000000000

def nextLines (stream : IO.FS.Stream) : List String → IO (List String)
  | [] => return linesOf (unifyNewlines (← stream.getLine))
  | pending => return pending

/-- A clock that shows the milliseconds since the epoch at this moment. -/
def wallClock : IO (Nat → Number) := do
  let now ← Std.Time.Timestamp.now
  return fun _ => .ofNat now.toMillisecondsSinceUnixEpoch.val.toNat

/-- Hold a dialogue; `pending` are lines that have been read and not run. -/
partial def converse (stream : IO.FS.Stream) (verbose : Bool) (s : Session)
    (pending : List String) : IO Unit := do
  let display (s : Session) : IO Session := do
    let (trace, rest) := s.takeTrace
    write (.ofTrace verbose trace)
    return rest
  let prompted ← display (s.record .prompt)
  match ← nextLines stream pending with
  | [] =>
      let _ ← display (prompted.record .endOfPrompt)
  | line :: rest =>
      let clock ← wallClock
      let ready := { prompted with machine := { prompted.machine with clock } }
      let after ← display (ready.promptLine unlimited line)
      converse stream verbose after rest

def start (words : List String) : IO UInt32 := do
  let clock ← wallClock
  let stream ← IO.getStdin
  let finish (world : World) : IO UInt32 := do
    match run world words with
    | .exited code console =>
        write console
        return code.toUInt32
    | .undecodable =>
        write { errors := s!"{programName}: the script is not UTF-8\n" }
        return 1
    | .impossiblePath =>
        write { errors := s!"{programName}: the path has a null character\n" }
        return 1
    | .halted _ => return 1
  match readRequest words with
  | .ok (.run options) =>
      match options.script with
      | some path =>
          let content ← readScript path
          finish ⟨fun _ => content, "", clock, unlimited⟩
      | none =>
          if options.tokens || options.ast then
            let input ← readInput stream ""
            finish ⟨fun _ => .error .notFound, input, clock, unlimited⟩
          else
            converse stream options.verbose (Session.start clock) []
            return 0
  | _ => finish ⟨fun _ => .error .notFound, "", clock, unlimited⟩

end CommandLine
end Lox

def main (words : List String) : IO UInt32 := Lox.CommandLine.start words
