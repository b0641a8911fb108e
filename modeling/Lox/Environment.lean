import Lox.Defect
import Lox.RuntimeError
import Lox.Value

/-!
# Environments

An environment binds names to values and links to the environment around it.
Environments are shared: a closure keeps the one in which it was made, and an
assignment through one holder is seen by all.  They are therefore kept in one
store and known by their number.  A link always points to an older environment.

There are two ways to a binding.  The walking operations (`get?`, `assign?`)
look for the nearest environment that binds a name; the distance operations
(`getAt`, `assignAt`) go a given number of links outwards.  A name that is not
bound on the way is an error of the program (`get`, `assign`).
-/

namespace Lox

abbrev Bindings := List (String × Value)

namespace Bindings

def get? (bindings : Bindings) (name : String) : Option Value := bindings.lookup name

def binds (bindings : Bindings) (name : String) : Bool := (bindings.get? name).isSome

def insert : Bindings → String → Value → Bindings
  | [], name, value => [(name, value)]
  | (other, old) :: rest, name, value =>
      if other = name then (name, value) :: rest
      else (other, old) :: insert rest name value

def sorted (bindings : Bindings) : Bindings :=
  bindings.mergeSort (fun a b => decide (a.1 ≤ b.1))

end Bindings

structure Environment where
  values : Bindings := []
  enclosing : Option EnvId := none

structure Environments where
  all : Array Environment := #[]

namespace Environments

def size (s : Environments) : Nat := s.all.size

def create (s : Environments) (enclosing : Option EnvId) (values : Bindings) : Environments :=
  ⟨s.all.push ⟨values, enclosing⟩⟩

def values (s : Environments) (e : EnvId) : Bindings :=
  match s.all[e]? with
  | some env => env.values
  | none => []

def enclosing (s : Environments) (e : EnvId) : Option EnvId :=
  match s.all[e]? with
  | some env => env.enclosing
  | none => none

def define (s : Environments) (e : EnvId) (name : String) (value : Value) : Environments :=
  ⟨s.all.modify e fun env => { env with values := env.values.insert name value }⟩

/-!
## Walking
-/

/-- The nearest environment, from `e` outwards, that binds a name. -/
def holder? (s : Environments) (e : EnvId) (name : String) : Option EnvId :=
  if (s.values e).binds name then some e
  else
    match s.enclosing e with
    | none => none
    | some outer => if outer < e then holder? s outer name else none
termination_by e

def get? (s : Environments) (e : EnvId) (name : String) : Option Value :=
  match s.holder? e name with
  | some holder => (s.values holder).get? name
  | none => none

@[inline] def assign? (s : Environments) (e : EnvId) (name : String) (value : Value) :
    Option Environments :=
  match s.holder? e name with
  | some holder => some (s.define holder name value)
  | none => none

def get (s : Environments) (e : EnvId) (name : Token) : Except RuntimeError Value :=
  match s.get? e name.lexeme with
  | some value => .ok value
  | none => .error ⟨name, .undefinedVariable name.lexeme⟩

@[inline] def assign (s : Environments) (e : EnvId) (name : Token) (value : Value) :
    Except RuntimeError Environments :=
  match s.assign? e name.lexeme value with
  | some after => .ok after
  | none => .error ⟨name, .undefinedVariable name.lexeme⟩

/-!
## Distances
-/

/-- Follow links outwards; the step past the root leads nowhere, and none leads on from there. -/
def outwards (s : Environments) : Nat → Option EnvId → Except LookupFault (Option EnvId)
  | 0, place => .ok place
  | _ + 1, none => .error .outsideRoot
  | n + 1, some e => outwards s n (s.enclosing e)

def ancestor (s : Environments) (e : EnvId) (distance : Nat) :
    Except LookupFault (Option EnvId) :=
  s.outwards distance (some e)

def place (s : Environments) (e : EnvId) (distance : Nat) : Except LookupFault EnvId :=
  match s.ancestor e distance with
  | .ok (some target) => .ok target
  | .ok none => .error .outsideRoot
  | .error fault => .error fault

def getAt (s : Environments) (e : EnvId) (distance : Nat) (name : String) :
    Except LookupFault Value :=
  match s.place e distance with
  | .error fault => .error fault
  | .ok target =>
      match (s.values target).get? name with
      | some value => .ok value
      | none => .error .unboundName

@[inline] def assignAt (s : Environments) (e : EnvId) (distance : Nat) (name : String)
    (value : Value) : Except LookupFault Environments :=
  match s.place e distance with
  | .error fault => .error fault
  | .ok target => .ok (s.define target name value)

end Environments
end Lox
