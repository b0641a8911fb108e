import Lox.Defect
import Lox.Diagnostic
import Lox.Syntax

/-!
# Scopes

What is known about names while a program is resolved.  A scope lists the names
declared in it, the latest first, each with the mark whether its declaration is
finished.  Scopes are stacked with the innermost one in front.  The global
scope is not among them: a name found in none of them is looked up among the
globals when the program runs.
-/

namespace Lox

/-- The names of one scope; a name counts with its latest mark. -/
abbrev Scope := List (String × Bool)

namespace Scope

/-- Whether the declaration of a name in this scope is finished, if there is one. -/
def mark? (scope : Scope) (name : String) : Option Bool := scope.lookup name

def declares (scope : Scope) (name : String) : Bool := (scope.mark? name).isSome

end Scope

/-- The scopes around a place, from the inside out. -/
abbrev Scopes := List Scope

namespace Scopes

/-- How many scopes lie between a place and the nearest scope that declares a name. -/
def depth? (scopes : Scopes) (name : String) : Option Nat :=
  scopes.findIdx? (Scope.declares · name)

def mark (scopes : Scopes) (name : String) (finished : Bool) : Scopes :=
  match scopes with
  | [] => []
  | scope :: outer => ((name, finished) :: scope) :: outer

def declaredHere (scopes : Scopes) (name : String) : Bool :=
  match scopes with
  | [] => false
  | scope :: _ => scope.declares name

/-- Whether the innermost scope is still in the declaration of a name. -/
def unfinishedHere (scopes : Scopes) (name : String) : Bool :=
  match scopes with
  | [] => false
  | scope :: _ => scope.mark? name == some false

end Scopes

/-!
## Findings
-/

inductive ReferenceKind where
  | variable | assign | this | super
deriving DecidableEq, Repr

namespace ReferenceKind

def title : ReferenceKind → String
  | .variable => "Variable"
  | .assign => "Assign"
  | .this => "This"
  | .super => "Super"

end ReferenceKind

structure Distance where
  kind : ReferenceKind
  name : Token
  depth : Nat
deriving DecidableEq, Repr

/-- What the resolver finds, in order; a name is found at a node. -/
inductive Finding where
  | violation (token : Token) (rule : Violation)
  | local (node : NodeId) (distance : Distance)
  | global (node : NodeId) (name : Token)
  | defect (defect : Defect)

namespace Finding

def diagnostic? : Finding → Option Diagnostic
  | violation token rule => some (.atToken token rule)
  | _ => none

def distance? : Finding → Option Distance
  | .local _ distance => some distance
  | _ => none

end Finding
end Lox
