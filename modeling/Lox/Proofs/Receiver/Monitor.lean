import Lox.Proofs.Evaluate.Class

/-!
# Monitored evaluation

What `this` and `super` stand for at a place of a program is said here without
environments.  A place has a bond: the instance to which the method around it is
bound, and the class that the superclass clause of the class declaration around
it denoted.  Monitored evaluation passes the bond of the place along.  It keeps a
record of the bond of every function, so that the body of a function is run with
the bond of the place where the function was made, whoever calls it.

A function inside a method gets the bond of the method.  Binding a method to an
instance, by a property, by `super` or by a call of its class, makes a function
with that instance as the receiver.

Everything is done as in plain evaluation, and the results are compared with the
bonds: the value of `this`, the two parts of `super`, the value of a call of an
initialiser, and the instance that a call of a class gives.  If one of them is not
what the bonds say, the run is stopped by a violation.
-/

namespace Lox

/-- What `this` and `super` stand for. -/
structure Bond where
  /-- The instance to which the method around is bound. -/
  receiver : Option InstanceId := none
  /-- The class that the superclass clause around denoted when the class was declared. -/
  parent : Option ClassId := none
deriving DecidableEq, Repr

namespace Bond

def this? (bond : Bond) : Option Value := bond.receiver.map .object

end Bond

structure Provenance where
  /-- The bond with which its body is run. -/
  bond : Bond := {}
  /-- For a method, the class that the superclass clause of its class denoted. -/
  parent : Option ClassId := none
  /-- Whether it was declared as a method. -/
  isMethod : Bool := false
deriving DecidableEq, Repr

namespace Provenance

/-- Whether a function is an initialiser: it was declared as a method under that name. -/
def initialises (origin : Provenance) (closure : Closure) : Bool :=
  origin.isMethod && closure.function.name.lexeme == initName

end Provenance

structure Monitored where
  machine : Machine
  origins : Array Provenance

namespace Monitored

def origin (σ : Monitored) (f : FunctionId) : Provenance := σ.origins[f]?.getD {}

end Monitored

inductive Halt where
  | stop (stop : Stop)
  | violation

abbrev Monitor := EStateM Halt Monitored

namespace Monitor

def lift (p : Eval α) : Monitor α := fun σ =>
  match p σ.machine with
  | .ok value m => .ok value { σ with machine := m }
  | .error stop m => .error (.stop stop) { σ with machine := m }

def fail (token : Token) (cause : RuntimeCause) : Monitor α := lift (Eval.fail token cause)

def expect (holds : Bool) : Monitor Unit := if holds then pure () else throw .violation

/-- Evaluate in another environment, and come back whatever happens. -/
def within (e : EnvId) (p : Monitor α) : Monitor α := fun σ =>
  let before := σ.machine.current
  match p { σ with machine := { σ.machine with current := e } } with
  | .ok value after => .ok value { after with machine := { after.machine with current := before } }
  | .error halt after =>
      .error halt { after with machine := { after.machine with current := before } }

/-!
## Functions
-/

def record (origin : Provenance) : Monitor Unit :=
  modify fun σ => { σ with origins := σ.origins.push origin }

def newFunction (closure : Closure) (origin : Provenance) : Monitor FunctionId := do
  let f ← lift (Eval.newFunction closure)
  record origin
  pure f

def bindMethod (f : FunctionId) (i : InstanceId) : Monitor FunctionId := do
  let origin := (← get).origin f
  let bound ← lift (Eval.bindMethod f (.object i))
  record { origin with bond := ⟨some i, origin.parent⟩ }
  pure bound

def getProperty (i : InstanceId) (name : Token) : Monitor Value := do
  let m := (← get).machine
  match m.instances[i]? with
  | none => fail name (.undefinedProperty name.lexeme)
  | some object =>
      match object.fields.get? name.lexeme with
      | some value => pure value
      | none =>
          match m.findMethod object.cls name.lexeme with
          | some f => .function <$> bindMethod f i
          | none => fail name (.undefinedProperty name.lexeme)

/-- A method above the class around, bound to the receiver of the method around. -/
def superMethod (bond : Bond) (keyword : Reference) (method : Token) : Monitor Value := do
  let parts ← lift (Eval.superParts keyword)
  match bond.parent, bond.receiver with
  | some c, some i =>
      expect (parts = (.cls c, .object i))
      match (← get).machine.findMethod c method.lexeme with
      | some f => .function <$> bindMethod f i
      | none => fail method (.undefinedProperty method.lexeme)
  | _, _ => throw .violation

/-!
## Expressions
-/

def evaluateAll (evaluate : Expr → Monitor Value) : List Expr → Monitor (List Value)
  | [] => pure []
  | e :: es => do
      let value ← evaluate e
      let values ← evaluateAll evaluate es
      pure (value :: values)

def invoke (call : Callable → List Value → Monitor Value) (paren : Token) (callee : Value)
    (arguments : List Value) : Monitor Value := do
  match callee.callable? with
  | none => fail paren .notCallable
  | some f =>
      let expected ← lift (Eval.ofDefect ((← get).machine.arity f))
      if arguments.length = expected then
        call f arguments
      else
        fail paren (.wrongArgumentCount expected arguments.length)

def exprStep (bond : Bond) (evaluate : Expr → Monitor Value)
    (call : Callable → List Value → Monitor Value) : Expr → Monitor Value
  | .assign target value => do
      let value ← evaluate value
      lift (Eval.assign target value)
      pure value
  | .binary left operator right => do
      let left ← evaluate left
      let right ← evaluate right
      lift (Eval.ofExcept (Operator.binary operator left right))
  | .call callee paren arguments => do
      let callee ← evaluate callee
      let arguments ← evaluateAll evaluate arguments
      invoke call paren callee arguments
  | .conditional condition thenBranch elseBranch => do
      if (← evaluate condition).isTruthy then
        evaluate thenBranch
      else
        evaluate elseBranch
  | .get object name => do
      match ← evaluate object with
      | .object i => getProperty i name
      | _ => fail name .propertyOfNonInstance
  | .grouping inner => evaluate inner
  | .literal value => pure (.ofLiteral value)
  | .logical left operator right => do
      let left ← evaluate left
      if Eval.shortCircuits operator left then
        pure left
      else
        evaluate right
  | .set object name value => do
      match ← evaluate object with
      | .object i => do
          let value ← evaluate value
          lift (Eval.setField i name.lexeme value)
          pure value
      | _ => fail name .fieldOfNonInstance
  | .superRef keyword method => superMethod bond keyword method
  | .thisRef keyword => do
      let value ← lift (Eval.lookup keyword)
      expect (bond.this? = some value)
      pure value
  | .unary operator right => do
      let right ← evaluate right
      lift (Eval.ofExcept (Operator.unary operator right))
  | .var name => lift (Eval.lookup name)
  | .misfit _ => throw .violation

/-!
## Statements
-/

def executeAll (execute : Stmt → Monitor Completion) : List Stmt → Monitor Completion
  | [] => pure .normal
  | s :: ss => do
      match ← execute s with
      | .normal => executeAll execute ss
      | .returned value => pure (.returned value)

def executeBlock (execute : Stmt → Monitor Completion) (body : List Stmt) (e : EnvId) :
    Monitor Completion :=
  within e (executeAll execute body)

def superclass (evaluate : Expr → Monitor Value) : Option Reference → Monitor (Option ClassId)
  | none => pure none
  | some name => do
      match ← evaluate (.var name) with
      | .cls c => pure (some c)
      | _ => fail name.name .superclassNotClass

/-- The methods of a class; none of them is bound yet. -/
def makeMethods (origin : Provenance) : List Function → Eval.MethodTable →
    Monitor Eval.MethodTable
  | [], table => pure table
  | f :: rest, table => do
      let id ← newFunction ⟨f, (← get).machine.current, f.isInitialiser, none⟩ origin
      makeMethods origin rest ((f.name.lexeme, id) :: table)

def declareClass (bond : Bond) (evaluate : Expr → Monitor Value) (name : Token)
    (parent : Option Reference) (methods : List Function) : Monitor Unit := do
  let parent ← superclass evaluate parent
  lift (Eval.defineHere name.lexeme .nil)
  let e ← lift (Eval.methodEnvironment parent)
  let table ← within e (makeMethods ⟨bond, parent, true⟩ methods [])
  let c ← lift (Eval.newClass ⟨name.lexeme, parent, table⟩)
  lift (Eval.assignFrom (← get).machine.current name (.cls c))

def optional (evaluate : Expr → Monitor Value) : Option Expr → Monitor Value
  | none => pure .nil
  | some e => evaluate e

def stmtStep (bond : Bond) (evaluate : Expr → Monitor Value)
    (execute : Stmt → Monitor Completion) : Stmt → Monitor Completion
  | .block body => do
      let e ← lift (Eval.newEnvironment (← get).machine.current [])
      executeBlock execute body e
  | .classDecl name parent methods => do
      declareClass bond evaluate name parent methods
      pure .normal
  | .expression inner => do
      let _ ← evaluate inner
      pure .normal
  | .funDecl f => do
      let id ← newFunction ⟨f, (← get).machine.current, false, none⟩ ⟨bond, none, false⟩
      lift (Eval.defineHere f.name.lexeme (.function id))
      pure .normal
  | .ifElse condition thenBranch elseBranch => do
      if (← evaluate condition).isTruthy then
        execute thenBranch
      else
        match elseBranch with
        | some s => execute s
        | none => pure .normal
  | .print inner => do
      let value ← evaluate inner
      lift (Eval.emit value)
      pure .normal
  | .ret _ value => do
      let value ← optional evaluate value
      pure (.returned value)
  | .varDecl name initial => do
      let value ← optional evaluate initial
      lift (Eval.defineHere name.lexeme value)
      pure .normal
  | .whileLoop condition body => do
      if (← evaluate condition).isTruthy then
        match ← execute body with
        | .normal => execute (.whileLoop condition body)
        | .returned value => pure (.returned value)
      else
        pure .normal
  | .misfit _ => throw .violation

/-!
## Calls
-/

/-- The body is run with the bond of the function; an initialiser has to give its receiver. -/
def callFunction (execute : Bond → Stmt → Monitor Completion) (f : FunctionId)
    (arguments : List Value) : Monitor Value := do
  let σ ← get
  match σ.machine.functions[f]? with
  | none => pure .nil
  | some closure =>
      let origin := σ.origin f
      let e ← lift (Eval.newEnvironment closure.env
        (Eval.parameters closure.function.params arguments))
      let completion ← executeBlock (execute origin.bond) closure.function.body e
      let value ← lift (Eval.callResult closure completion)
      expect (!origin.initialises closure || origin.bond.this? = some value)
      pure value

/-- The initialiser that a call of a class runs has to give the new instance. -/
def callStep (execute : Bond → Stmt → Monitor Completion) :
    Callable → List Value → Monitor Value
  | .native id, arguments => lift (Eval.callNative id arguments)
  | .function f, arguments => callFunction execute f arguments
  | .cls c, arguments => do
      let i ← lift (Eval.newInstance c)
      match (← get).machine.findMethod c initName with
      | none => pure (.object i)
      | some f => do
          let f ← bindMethod f i
          let value ← callFunction execute f arguments
          expect (value = .object i)
          pure value

mutual

def evaluate : Nat → Bond → Expr → Monitor Value
  | 0, _, _ => throw (.stop .outOfFuel)
  | n + 1, bond, e => exprStep bond (evaluate n bond) (call n) e

def execute : Nat → Bond → Stmt → Monitor Completion
  | 0, _, _ => throw (.stop .outOfFuel)
  | n + 1, bond, s => stmtStep bond (evaluate n bond) (execute n bond) s

def call : Nat → Callable → List Value → Monitor Value
  | 0, _, _ => throw (.stop .outOfFuel)
  | n + 1, f, arguments => callStep (execute n) f arguments

end

/-- Execute a program; at the top level nothing is bound. -/
def interpret (n : Nat) (program : List Stmt) : Monitor Completion :=
  executeAll (execute n {}) program

end Monitor
end Lox
