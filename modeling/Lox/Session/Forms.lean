import Lox.Form.Prefix
import Lox.Resolve.Misfit
import Lox.Session

/-!
# Forms as programs

A form is evaluated and executed as the tree that it is read as.  A program is a
form with items, and each of them is a statement or a misfit.
-/

namespace Lox
namespace Session

def executeForm (s : Session) (n : Nat) (program : Form) : Session :=
  match program.items? with
  | some items => s.execute n (Form.stmts items)
  | none => s.stopped (.defect (.noItems program.sort))

/-- Execute a program that is given as a form, resolved or as it is. -/
def runForm (s : Session) (n : Nat) (resolving : Bool) (program : Form) : Session :=
  let numbered := program.numbered s.machine.locals.size
  let findings := if resolving then (resolveForm numbered).findings else []
  (findings.foldl find (s.learn program.places findings)).executeForm n numbered

end Session
end Lox
