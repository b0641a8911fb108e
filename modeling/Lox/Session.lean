import Lox.Evaluate
import Lox.Parse.Statement
import Lox.Resolve
import Lox.Syntax.Numbering
import Lox.Syntax.Prefix
import Lox.Token.Scan

/-!
# Sessions

A session runs sources one after the other on one machine.  A source is
scanned, parsed and resolved; only if no rule is broken is it executed.  What
happens is recorded as a trace of events in order: printed lines, diagnostics,
runtime errors, and notes on the progress of each stage.

Two flags remember errors until they are cleared.  While the first one is set,
no source is executed.
-/

namespace Lox

inductive Note where
  | scanned (tokens lines : Nat)
  | parsed (statements : Nat)
  | leftGlobal (name : Token)
  | notResolving
  | notExecuting
  | runtimeError (error : RuntimeError)
  | running (path : String)
deriving DecidableEq, Repr

namespace Note

def stage : Note → String
  | scanned _ _ => "scanner"
  | parsed _ => "parser"
  | leftGlobal _ => "resolver"
  | runtimeError _ => "interpreter"
  | notResolving | notExecuting | running _ => "lox"

def text : Note → String
  | scanned tokens lines => s!"scanned {tokens} tokens over {lines} lines"
  | parsed statements => s!"parsed {statements} top-level statements"
  | leftGlobal name => s!"'{name.lexeme}' on line {name.line} left global"
  | notResolving => "syntax errors, not resolving"
  | notExecuting => "resolution errors, not executing"
  | runtimeError error => s!"runtime error on line {error.line}: {error.message}"
  | running path => s!"running {path}"

end Note

inductive Event where
  | printed (line : String)
  | diagnostic (diagnostic : Diagnostic)
  | runtimeError (error : RuntimeError)
  | note (note : Note)
  | prompt
  | endOfPrompt
  | halted (stop : Stop)

namespace Event

def printed? : Event → Option String
  | printed line => some line
  | _ => none

def diagnostic? : Event → Option Diagnostic
  | diagnostic d => some d
  | _ => none

def runtimeError? : Event → Option RuntimeError
  | runtimeError e => some e
  | _ => none

def halted? : Event → Option Stop
  | halted stop => some stop
  | _ => none

end Event

structure Flags where
  error : Bool := false
  runtimeError : Bool := false
deriving DecidableEq, Repr

namespace Flags

def exitCode (flags : Flags) : Nat :=
  if flags.error then 65 else if flags.runtimeError then 70 else 0

end Flags

structure Session where
  machine : Machine
  flags : Flags := {}
  trace : Array Event := #[]

namespace Session

def startWith (flags : Flags) (clock : Nat → Number) : Session :=
  { machine := .initial clock, flags }

def start (clock : Nat → Number) : Session := startWith {} clock

def record (s : Session) (event : Event) : Session :=
  { s with trace := s.trace.push event }

@[inline] def learn (s : Session) (count : Nat) (findings : List Finding) : Session :=
  { s with machine := { s.machine with locals := s.machine.locals.learn count findings } }

def distances (s : Session) : List Distance := s.machine.locals.distances

def recordNote (s : Session) (note : Note) : Session := s.record (.note note)

def report (s : Session) (d : Diagnostic) : Session :=
  { s with flags := { s.flags with error := true }, trace := s.trace.push (.diagnostic d) }

def reportAll (s : Session) (ds : List Diagnostic) : Session := ds.foldl report s

def clearError (s : Session) : Session :=
  { s with flags := { s.flags with error := false } }

def clearRuntimeError (s : Session) : Session :=
  { s with flags := { s.flags with runtimeError := false } }

def takeTrace (s : Session) : Array Event × Session := (s.trace, { s with trace := #[] })

def exitCode (s : Session) : Nat := s.flags.exitCode

/-!
## Stages
-/

def scanned (s : Session) (source : String) : Scanned × Session :=
  let tokens := scan source
  (tokens, (s.reportAll tokens.diagnostics).recordNote
    (.scanned (tokens.tokens.length + 1) tokens.line))

def parsed (s : Session) (tokens : Scanned) : List Stmt × Session :=
  let parsed := parse tokens.tokens
  let program := parsed.result.getD []
  (program, (s.reportAll (parsed.reports.map (Report.diagnostic tokens.eof))).recordNote
    (.parsed program.length))

def find (s : Session) : Finding → Session
  | .violation token rule => s.report (.atToken token rule)
  | .local _ _ => s
  | .global _ name => s.recordNote (.leftGlobal name)
  | .defect defect => s.record (.halted (.defect defect))

/-- Resolve a program, its nodes with the next numbers, and report what is wrong with it. -/
def resolved (s : Session) (program : List Stmt) : List Stmt × Session :=
  let numbered := Stmt.allNumbered s.machine.locals.size program
  let findings := (resolve numbered).findings
  (numbered, findings.foldl find (s.learn (Stmt.allPlaces program) findings))

def stopped (s : Session) : Stop → Session
  | .error e =>
      let s := s.recordNote (.runtimeError e)
      { s with
        flags := { s.flags with runtimeError := true }
        trace := s.trace.push (.runtimeError e) }
  | stop => s.record (.halted stop)

def flush (s : Session) (m : Machine) : Session :=
  { s with
    machine := { m with output := #[] }
    trace := m.output.foldl (fun trace line => trace.push (.printed line)) s.trace }

def perform (s : Session) (action : Eval Completion) : Session :=
  match action s.machine with
  | .ok _ m => s.flush m
  | .error stop m => (s.flush m).stopped stop

def execute (s : Session) (n : Nat) (program : List Stmt) : Session :=
  s.perform (Eval.interpret n program)

def run (s : Session) (n : Nat) (source : String) : Session :=
  let (tokens, s) := s.scanned source
  let (program, s) := s.parsed tokens
  if s.flags.error then
    s.recordNote .notResolving
  else
    let (program, s) := s.resolved program
    if s.flags.error then
      s.recordNote .notExecuting
    else
      s.execute n program

def listTokens (s : Session) (source : String) : Session :=
  let (tokens, s) := s.scanned source
  tokens.allTokens.foldl (fun s t => s.record (.printed t.listing)) s

/-- Print the prefix form of a source that is a single expression. -/
def showTree (s : Session) (source : String) : Session :=
  let (tokens, s) := s.scanned source
  let parsed := parseExpression tokens.tokens
  let s := s.reportAll (parsed.reports.map (Report.diagnostic tokens.eof))
  match parsed.result with
  | none => s
  | some e => if s.flags.error then s else s.record (.printed e.prefixForm)

/-!
## The prompt
-/

/-- One line of a dialogue: errors in it do not affect later lines. -/
def promptLine (s : Session) (n : Nat) (line : String) : Session :=
  ((s.run n line).clearError).clearRuntimeError

def dialogue (s : Session) (n : Nat) (lines : List String) : Session :=
  let s := lines.foldl (fun s line => (s.record .prompt).promptLine n line) s
  (s.record .prompt).record .endOfPrompt

end Session
end Lox
