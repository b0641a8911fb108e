import Lox.CommandLine.Directory
import Lox.CommandLine.Options
import Lox.Console
import Lox.Text.Newlines

/-!
# The command line

Running a script, listing its tokens, showing its tree, or holding a dialogue,
as the options ask.  What is outside the program comes in as data: a way to read
files, the standard input and the clock.
-/

namespace Lox
namespace CommandLine

def usage : String := s!"usage: {programName} [-h] [--tokens | --ast] [-v] [script]\n"

def helpText : String :=
  usage ++ "\n" ++
  "Run Lox scripts\n" ++
  "\n" ++
  "positional arguments:\n" ++
  "  script         script to run; starts a prompt when omitted\n" ++
  "\n" ++
  "options:\n" ++
  "  -h, --help     show this help message and exit\n" ++
  "  --tokens       print the token stream instead of running\n" ++
  "  --ast          print the parenthesised tree of a single expression\n" ++
  "  -v, --verbose  log pipeline stages to stderr\n"

namespace UsageError

def text (e : UsageError) : String := usage ++ s!"{programName}: error: {e.message}\n"

end UsageError

def exitUsage : Nat := 2

def exitNoInput : Nat := 66

structure World where
  read : String → Except ReadFailure ByteArray
  input : String
  clock : Nat → Number
  /-- A bound on the depth of evaluation. -/
  fuel : Nat

inductive Outcome where
  | exited (code : Nat) (console : Console)
  /-- A script that is not UTF-8. -/
  | undecodable
  /-- A path that no file can have. -/
  | impossiblePath
  /-- A run that stopped for a reason that no source can give. -/
  | halted (stop : Stop)

inductive SourceFailure where
  | unreadable (path : String) (failure : ReadFailure)
  | undecodable
  | impossiblePath

/-- The text of a script.  A path with a null character is not even looked up. -/
def script (world : World) (path : String) : Except SourceFailure String :=
  if path.toList.contains '\x00' then
    .error .impossiblePath
  else
    match world.read path with
    | .error failure => .error (.unreadable path failure)
    | .ok content =>
        match String.fromUTF8? content with
        | some text => .ok (unifyNewlines text)
        | none => .error .undecodable

def source (world : World) : Option String → Except SourceFailure String
  | some path => script world path
  | none => .ok (unifyNewlines world.input)

def SourceFailure.outcome : SourceFailure → Outcome
  | unreadable path failure =>
      .exited exitNoInput
        { errors := s!"{programName}: cannot read {path}: {failure.reason}\n" }
  | undecodable => .undecodable
  | impossiblePath => .impossiblePath

def finish (verbose : Bool) (s : Session) (code : Nat) : Outcome :=
  match (s.trace.toList.filterMap Event.halted?).head? with
  | some stop => .halted stop
  | none => .exited code (.ofTrace verbose s.trace)

def execute (world : World) (options : Options) : Outcome :=
  let s := Session.start world.clock
  if options.tokens || options.ast then
    match source world options.script with
    | .error failure => failure.outcome
    | .ok text =>
        let s := if options.tokens then s.listTokens text else s.showTree text
        finish options.verbose s s.exitCode
  else
    match options.script with
    | some path =>
        match script world path with
        | .error failure => failure.outcome
        | .ok text =>
            let s := (s.recordNote (.running path)).run world.fuel text
            finish options.verbose s s.exitCode
    | none =>
        let s := s.dialogue world.fuel (linesOf (unifyNewlines world.input))
        finish options.verbose s 0

def run (world : World) (words : List String) : Outcome :=
  match readRequest words with
  | .error e => .exited exitUsage { errors := UsageError.text e }
  | .ok .help => .exited 0 { output := helpText }
  | .ok (.run options) => execute world options

end CommandLine
end Lox
