import Lox.Session

/-!
# The console

The texts in which the events of a session appear.  Printed lines and prompts
go to the output, diagnostics and runtime errors to the error stream, and notes
only there and only on request.
-/

namespace Lox

def programName : String := "treelox"

namespace Diagnostic

def text (d : Diagnostic) : String :=
  s!"[line {d.line}] Error{d.place.text}: {d.message}"

end Diagnostic

namespace RuntimeError

def text (e : RuntimeError) : String := s!"{e.message}\n[line {e.line}]"

end RuntimeError

namespace Note

def logLine (n : Note) : String := s!"{programName}.{n.stage}: {n.text}"

end Note

namespace Event

def outputText : Event → String
  | printed line => line ++ "\n"
  | prompt => "> "
  | endOfPrompt => "\n"
  | _ => ""

def errorText (verbose : Bool) : Event → String
  | diagnostic d => d.text ++ "\n"
  | runtimeError e => e.text ++ "\n"
  | note n => if verbose then n.logLine ++ "\n" else ""
  | _ => ""

end Event

structure Console where
  output : String := ""
  errors : String := ""
deriving DecidableEq, Repr

namespace Console

def ofTrace (verbose : Bool) (trace : Array Event) : Console where
  output := trace.foldl (fun text event => text ++ event.outputText) ""
  errors := trace.foldl (fun text event => text ++ event.errorText verbose) ""

def transcript (trace : Array Event) : String :=
  trace.foldl (fun text event => text ++ event.outputText ++ event.errorText false) ""

end Console

end Lox
