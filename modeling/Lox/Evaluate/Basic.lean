import Lox.Machine
import Lox.Operator

/-!
# Steps of evaluation

Evaluation changes the machine and gives a value, or stops early; the machine
keeps what was done before the stop.  This module has the single steps: on
environments, and on functions, classes and instances.
-/

namespace Lox

abbrev Eval := EStateM Stop Machine

namespace Eval

def fail (token : Token) (cause : RuntimeCause) : Eval α := throw (.error ⟨token, cause⟩)

def defect (d : Defect) : Eval α := throw (.defect d)

@[inline] def ofExcept : Except Stop α → Eval α
  | .ok value => pure value
  | .error stop => throw stop

@[inline] def ofLookup : Except LookupFault α → Eval α
  | .ok value => pure value
  | .error fault => throw (.defect (.lookup fault))

@[inline] def ofRuntimeError : Except RuntimeError α → Eval α
  | .ok value => pure value
  | .error e => throw (.error e)

@[inline] def ofDefect : Except Defect α → Eval α
  | .ok value => pure value
  | .error d => throw (.defect d)

/-!
## Environments
-/

def newEnvironment (enclosing : EnvId) (values : Bindings) : Eval EnvId :=
  modifyGet fun m =>
    let e := m.environments.size
    (e, { m with environments := m.environments.create (some enclosing) values })

def defineHere (name : String) (value : Value) : Eval Unit :=
  modify fun m =>
    let e := m.current
    { m with environments := m.environments.define e name value }

/-- Evaluate in another environment, and come back whatever happens. -/
@[inline] def within (e : EnvId) (p : Eval α) : Eval α := fun m =>
  let before := m.current
  match p { m with current := e } with
  | .ok value after => .ok value { after with current := before }
  | .error stop after => .error stop { after with current := before }

def enter (e : EnvId) : Eval Unit := modify fun m => { m with current := e }

def leave : Eval Unit := fun m =>
  match m.environments.enclosing m.current with
  | some outer => .ok () { m with current := outer }
  | none => .error (.defect (.lookup .outsideRoot)) m

/-- The value of a name: at its distance if it is local, else among the globals. -/
def lookup (r : Reference) : Eval Value := do
  let m ← get
  match m.locals.depth? r.node with
  | some depth => ofLookup (m.environments.getAt m.current depth r.name.lexeme)
  | none => ofRuntimeError (m.environments.get Machine.globals r.name)

def assignLocal (depth : Nat) (name : String) (value : Value) : Eval Unit := fun m =>
  match m.environments.assignAt m.current depth name value with
  | .ok environments => .ok () { m with environments }
  | .error fault => .error (.defect (.lookup fault)) m

/-- Assign to the nearest binding of a name, from an environment outwards. -/
def assignFrom (e : EnvId) (name : Token) (value : Value) : Eval Unit := fun m =>
  match m.environments.assign e name value with
  | .ok environments => .ok () { m with environments }
  | .error e => .error (.error e) m

def assign (r : Reference) (value : Value) : Eval Unit := do
  match (← get).locals.depth? r.node with
  | some depth => assignLocal depth r.name.lexeme value
  | none => assignFrom Machine.globals r.name value

/-!
## Objects
-/

def newFunction (closure : Closure) : Eval FunctionId :=
  modifyGet fun m =>
    let f := m.functions.size
    (f, { m with functions := m.functions.push closure })

def newClass (cls : Class) : Eval ClassId :=
  modifyGet fun m =>
    let c := m.classes.size
    (c, { m with classes := m.classes.push cls })

def newInstance (c : ClassId) : Eval InstanceId :=
  modifyGet fun m =>
    let i := m.instances.size
    (i, { m with instances := m.instances.push { cls := c } })

def bindMethod (f : FunctionId) (receiver : Value) : Eval FunctionId := do
  match (← get).functions[f]? with
  | none => pure f
  | some closure =>
      let e ← newEnvironment closure.env [("this", receiver)]
      newFunction { closure with env := e }

def getProperty (i : InstanceId) (name : Token) : Eval Value := do
  let m ← get
  match m.instances[i]? with
  | none => fail name (.undefinedProperty name.lexeme)
  | some object =>
      match object.fields.get? name.lexeme with
      | some value => pure value
      | none =>
          match m.findMethod object.cls name.lexeme with
          | some f => .function <$> bindMethod f (.object i)
          | none => fail name (.undefinedProperty name.lexeme)

def setField (i : InstanceId) (name : String) (value : Value) : Eval Unit :=
  modify fun m =>
    { m with
      instances := m.instances.modify i fun object =>
        { object with fields := object.fields.insert name value } }

def superParts (keyword : Reference) : Eval (Value × Value) := do
  let m ← get
  match m.locals.depth? keyword.node with
  | none => defect .superWithoutDistance
  | some depth =>
      let parent ← ofLookup (m.environments.getAt m.current depth "super")
      let receiver ← ofLookup (m.environments.getAt m.current (depth - 1) "this")
      pure (parent, receiver)

/-- A method above the class of the declaration around, bound to the same `this`. -/
def superMethod (keyword : Reference) (method : Token) : Eval Value := do
  let (parent, receiver) ← superParts keyword
  match parent with
  | .cls c =>
      match (← get).findMethod c method.lexeme with
      | some f => .function <$> bindMethod f receiver
      | none => fail method (.undefinedProperty method.lexeme)
  | _ => defect .superNotClass

end Eval
end Lox
