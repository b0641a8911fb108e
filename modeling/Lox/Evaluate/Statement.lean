import Lox.Evaluate.Expression

/-!
# Executing statements

A statement completes normally or with the value of a `return` statement, which
passes outwards through blocks and loops up to the call around it.  `stmtStep`
says what one statement does, given how its parts are evaluated and executed.
-/

namespace Lox

inductive Completion where
  | normal
  | returned (value : Value)
deriving DecidableEq, Repr

namespace Eval

def executeAll (execute : Stmt → Eval Completion) : List Stmt → Eval Completion
  | [] => pure .normal
  | s :: ss => do
      match ← execute s with
      | .normal => executeAll execute ss
      | .returned value => pure (.returned value)

def executeBlock (execute : Stmt → Eval Completion) (body : List Stmt) (e : EnvId) :
    Eval Completion :=
  within e (executeAll execute body)

@[inline] def superclass (evaluate : Expr → Eval Value) :
    Option Reference → Eval (Option ClassId)
  | none => pure none
  | some name => do
      match ← evaluate (.var name) with
      | .cls c => pure (some c)
      | _ => fail name.name .superclassNotClass

/-- Go to an environment that binds `super`, if there is a superclass. -/
def enterClass : Option ClassId → Eval Unit
  | none => pure ()
  | some c => do
      let e ← newEnvironment (← get).current [("super", .cls c)]
      enter e

def leaveClass : Option ClassId → Eval Unit
  | none => pure ()
  | some _ => leave

/-- Methods by their names; of two with one name the first one in the table counts. -/
abbrev MethodTable := List (String × FunctionId)

/-- A function as it was declared, with what is wrong so that it cannot be called. -/
structure Loose where
  function : Function
  flaw : Option Defect := none

def Loose.closure (loose : Loose) (e : EnvId) (isInitialiser : Bool) : Closure :=
  ⟨loose.function, e, isInitialiser, loose.flaw⟩

/-- Make methods in the current environment; `read` says what each of them is. -/
@[specialize] def makeMethods (read : α → Eval Loose) :
    List α → MethodTable → Eval MethodTable
  | [], table => pure table
  | method :: rest, table => do
      let loose ← read method
      let id ← newFunction (loose.closure (← get).current loose.function.isInitialiser)
      makeMethods read rest ((loose.function.name.lexeme, id) :: table)

/-- Make a class and bind it to its name; the methods are made in an environment of their own. -/
@[inline] def buildClass (name : Token) (parent : Option ClassId) (methods : Eval MethodTable) :
    Eval Unit := do
  defineHere name.lexeme .nil
  enterClass parent
  let table ← methods
  let c ← newClass ⟨name.lexeme, parent, table⟩
  leaveClass parent
  assignFrom (← get).current name (.cls c)

@[inline] def declareClass (evaluate : Expr → Eval Value) (name : Token)
    (parent : Option Reference) (methods : List Function) : Eval Unit := do
  let parent ← superclass evaluate parent
  buildClass name parent (makeMethods (fun f => pure ⟨f, none⟩) methods [])

@[inline] def optional (evaluate : Expr → Eval Value) : Option Expr → Eval Value
  | none => pure .nil
  | some e => evaluate e

def emit (value : Value) : Eval Unit :=
  modify fun m =>
    let line := m.print value
    { m with output := m.output.push line }

/-!
## Misfits

A form that is no statement stops the execution.  A statement with a field of
the wrong kind is executed up to the point where the field is needed.
-/

/-- A declaration that cannot bind anything, because it has no name. -/
def nameless : Stmt := .misfit (.node .varDecl [.absent, .absent])

namespace Loose

def body (form : Form) : List Stmt :=
  match form.items? with
  | some items => Form.stmts items
  | none => [.misfit (.node .block [form])]

/--
A function whose parameters or body may be anything.  Parameters that are no
items cannot be counted.  A parameter that is no token cannot be bound, so such a
function stops when its body would start.
-/
def ofParts (name : Token) (params body : Form) : Loose :=
  match params.items? with
  | none => ⟨⟨name, [], []⟩, some (.noCount params.sort)⟩
  | some items =>
      match items.mapM Form.token? with
      | some tokens => ⟨⟨name, tokens, Loose.body body⟩, none⟩
      | none => ⟨⟨name, items.map fun p => (p.token?).getD (.endOfInput 0), [nameless]⟩, none⟩

/-- What stands in the place of a method; whatever has a name can be one until it is called. -/
def ofMethod (method : Form) : Eval Loose :=
  match method.nameToken?, method with
  | some name, .node .funDecl [_, params, body] => pure (ofParts name params body)
  | some name, _ => pure ⟨⟨name, [], []⟩, some .noToken⟩
  | none, _ => defect .noToken

end Loose

def looseSuperclass (evaluate : Expr → Eval Value) (parent : Form) : Eval (Option ClassId) := do
  if parent.isAbsent then
    pure none
  else
    match ← evaluate parent.expr with
    | .cls c => pure (some c)
    | _ =>
        match parent.nameToken? with
        | some name => fail name .superclassNotClass
        | none => defect .noToken

def looseMethods (methods : Form) : Eval MethodTable :=
  match methods.items? with
  | some items => makeMethods Loose.ofMethod items []
  | none => defect (.noItems methods.sort)

def looseClass (evaluate : Expr → Eval Value) (name parent methods : Form) : Eval Unit := do
  let parent ← looseSuperclass evaluate parent
  match name.token? with
  | some name => buildClass name parent (looseMethods methods)
  | none => defect .noToken

def misfitStmt (evaluate : Expr → Eval Value) (execute : Stmt → Eval Completion) :
    Form → Eval Completion
  | .node .block [body] =>
      match body.items? with
      | some items => do
          let e ← newEnvironment (← get).current []
          executeBlock execute (Form.stmts items) e
      | none => defect (.noItems body.sort)
  | .node .classDecl [name, parent, methods] => do
      looseClass evaluate name parent methods
      pure .normal
  | .node .funDecl [name, params, body] => do
      match name.token? with
      | some name => do
          let id ← newFunction ((Loose.ofParts name params body).closure (← get).current false)
          defineHere name.lexeme (.function id)
          pure .normal
      | none => defect .noToken
  | .node .ret [_, value] => do
      let value ← optional evaluate (value.optional Form.expr)
      pure (.returned value)
  | .node .varDecl [_, initial] => do
      let _ ← optional evaluate (initial.optional Form.expr)
      defect .noToken
  | form => defect (.unknownStatement form)

/-!
## One step
-/

/-- What a statement does, given how its parts are evaluated and executed. -/
@[inline] def stmtStep (evaluate : Expr → Eval Value) (execute : Stmt → Eval Completion) :
    Stmt → Eval Completion
  | .block body => do
      let e ← newEnvironment (← get).current []
      executeBlock execute body e
  | .classDecl name parent methods => do
      declareClass evaluate name parent methods
      pure .normal
  | .expression inner => do
      let _ ← evaluate inner
      pure .normal
  | .funDecl f => do
      let id ← newFunction ⟨f, (← get).current, false, none⟩
      defineHere f.name.lexeme (.function id)
      pure .normal
  | .ifElse condition thenBranch elseBranch => do
      if (← evaluate condition).isTruthy then
        execute thenBranch
      else
        match elseBranch with
        | some s => execute s
        | none => pure .normal
  | .print inner => do
      let value ← evaluate inner
      emit value
      pure .normal
  | .ret _ value => do
      let value ← optional evaluate value
      pure (.returned value)
  | .varDecl name initial => do
      let value ← optional evaluate initial
      defineHere name.lexeme value
      pure .normal
  | .whileLoop condition body => do
      if (← evaluate condition).isTruthy then
        match ← execute body with
        | .normal => execute (.whileLoop condition body)
        | .returned value => pure (.returned value)
      else
        pure .normal
  | .misfit form => misfitStmt evaluate execute form

end Eval
end Lox
