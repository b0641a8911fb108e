import Lox.Environment
import Lox.Locals

/-!
# The machine

Everything a running program can change.  The heap has the environments, the
functions, classes and instances made so far, and the lines printed; nothing is
ever removed from it, and a class always inherits from an older one.  Around the
heap, the machine has the native functions, the environment of the statement at
hand, and what is known of the nodes of programs.

A native function belongs to the program around the machine.  It can do anything
with its arguments and the heap.
-/

namespace Lox

/-- A function together with the environment in which it was made. -/
structure Closure where
  function : Function
  env : EnvId
  isInitialiser : Bool := false
  /-- What is wrong with its declaration, so that its parameters cannot be counted. -/
  flaw : Option Defect := none

structure Class where
  name : String
  superclass : Option ClassId
  methods : List (String × FunctionId)

structure Instance where
  cls : ClassId
  fields : Bindings := []

structure Heap where
  environments : Environments
  functions : Array Closure := #[]
  classes : Array Class := #[]
  instances : Array Instance := #[]
  output : Array String := #[]
  /-- The time at each reading of the clock. -/
  clock : Nat → Number
  /-- How often the clock has been read. -/
  readings : Nat := 0

structure Native where
  name : String
  arity : Nat
  action : List Value → EStateM Stop Heap Value

namespace Native

def clock : Native where
  name := "clock"
  arity := 0
  action _ heap :=
    .ok (.number (heap.clock heap.readings)) { heap with readings := heap.readings + 1 }

end Native

def steadyClock (first : Nat) (reading : Nat) : Number := .ofNat (first + reading)

structure Machine extends Heap where
  natives : Array Native
  current : EnvId
  locals : Locals := {}

namespace Machine

def globals : EnvId := 0

/-- A machine on which nothing has run; the only global is the clock. -/
def initial (clock : Nat → Number) : Machine where
  environments := Environments.create {} none [(Native.clock.name, .native 0)]
  clock
  natives := #[.clock]
  current := globals

def atTop (m : Machine) : Bool := m.current == globals

def addNative (m : Machine) (native : Native) : Machine :=
  { m with
    environments := m.environments.define globals native.name (.native m.natives.size)
    natives := m.natives.push native }

/-- The method of a class or of the nearest class above it. -/
def findMethod (m : Machine) (c : ClassId) (name : String) : Option FunctionId :=
  match m.classes[c]? with
  | none => none
  | some cls =>
      match cls.methods.lookup name with
      | some f => some f
      | none =>
          match cls.superclass with
          | none => none
          | some parent => if parent < c then findMethod m parent name else none
termination_by c

def functionArity (m : Machine) (f : FunctionId) : Except Defect Nat :=
  match m.functions[f]? with
  | some closure =>
      match closure.flaw with
      | none => .ok closure.function.params.length
      | some defect => .error defect
  | none => .ok 0

def arity (m : Machine) : Callable → Except Defect Nat
  | .native id =>
      match m.natives[id]? with
      | some native => .ok native.arity
      | none => .ok 0
  | .function id => m.functionArity id
  | .cls id =>
      match m.findMethod id initName with
      | some f => m.functionArity f
      | none => .ok 0

def className (m : Machine) (c : ClassId) : String :=
  match m.classes[c]? with
  | some cls => cls.name
  | none => ""

def print (m : Machine) : Value → String
  | .nil => Literal.nil.print
  | .bool b => (Literal.bool b).print
  | .number x => x.print
  | .text s => s
  | .native _ => "<native fn>"
  | .function id =>
      match m.functions[id]? with
      | some closure => s!"<fn {closure.function.name.lexeme}>"
      | none => ""
  | .cls id => m.className id
  | .object id =>
      match m.instances[id]? with
      | some object => s!"{m.className object.cls} instance"
      | none => ""

def globalBindings (m : Machine) : Bindings := (m.environments.values globals).sorted

end Machine
end Lox
