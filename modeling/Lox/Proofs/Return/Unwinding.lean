import Lox.Session

/-!
# Returning by unwinding

Another way to execute statements, in which nothing is said about how a statement
completes.  A `return` statement raises its value as an exit, which abandons all
the statements, branches and loops around it.  Only two places take it up: the
call around, whose value it becomes, and the program, which then ends quietly.
A stop abandons everything, too, and nothing takes it up.

Expressions are evaluated as before; they meet exits in the calls they make only.
The main result of this module is that the two ways of execution agree.
-/

namespace Lox

inductive Exit where
  | stop (stop : Stop)
  | returned (value : Value)

abbrev Unwinding := EStateM Exit Machine

namespace Unwinding

def lift (p : Eval α) : Unwinding α := fun m =>
  match p m with
  | .ok value m' => .ok value m'
  | .error stop m' => .error (.stop stop) m'

/-- Execute in another environment, and come back whatever happens. -/
def within (e : EnvId) (p : Unwinding α) : Unwinding α := fun m =>
  match p { m with current := e } with
  | .ok value m' => .ok value { m' with current := m.current }
  | .error exit m' => .error exit { m' with current := m.current }

def leave (value : Eval Value) : Unwinding Unit := do
  let value ← lift value
  throw (.returned value)

/-- Take up an exit with a value; without one the value is `nil`. -/
def takeUp (p : Unwinding Unit) : Eval Value := fun m =>
  match p m with
  | .ok _ m' => .ok .nil m'
  | .error (.returned value) m' => .ok value m'
  | .error (.stop stop) m' => .error stop m'

/-!
# Statements
-/

def executeAll (execute : Stmt → Unwinding Unit) : List Stmt → Unwinding Unit
  | [] => pure ()
  | s :: ss => do
      execute s
      executeAll execute ss

/-- Execute statements in a new environment inside the current one. -/
def block (execute : Stmt → Unwinding Unit) (body : List Stmt) : Unwinding Unit := do
  let e ← lift (Eval.newEnvironment (← get).current [])
  within e (executeAll execute body)

def misfitStmt (evaluate : Expr → Eval Value) (execute : Stmt → Unwinding Unit) :
    Form → Unwinding Unit
  | .node .block [body] =>
      match body.items? with
      | some items => block execute (Form.stmts items)
      | none => lift (Eval.defect (.noItems body.sort))
  | .node .classDecl [name, parent, methods] => lift (Eval.looseClass evaluate name parent methods)
  | .node .funDecl [name, params, body] =>
      match name.token? with
      | some name => do
          let closure := (Eval.Loose.ofParts name params body).closure (← get).current false
          let id ← lift (Eval.newFunction closure)
          lift (Eval.defineHere name.lexeme (.function id))
      | none => lift (Eval.defect .noToken)
  | .node .ret [_, value] => leave (Eval.optional evaluate (value.optional Form.expr))
  | .node .varDecl [_, initial] => do
      let _ ← lift (Eval.optional evaluate (initial.optional Form.expr))
      lift (Eval.defect .noToken)
  | form => lift (Eval.defect (.unknownStatement form))

def stmtStep (evaluate : Expr → Eval Value) (execute : Stmt → Unwinding Unit) :
    Stmt → Unwinding Unit
  | .block body => block execute body
  | .classDecl name parent methods => lift (Eval.declareClass evaluate name parent methods)
  | .expression inner => do
      let _ ← lift (evaluate inner)
      pure ()
  | .funDecl f => do
      let id ← lift (Eval.newFunction ⟨f, (← get).current, false, none⟩)
      lift (Eval.defineHere f.name.lexeme (.function id))
  | .ifElse condition thenBranch elseBranch => do
      if (← lift (evaluate condition)).isTruthy then
        execute thenBranch
      else
        match elseBranch with
        | some s => execute s
        | none => pure ()
  | .print inner => do
      let value ← lift (evaluate inner)
      lift (Eval.emit value)
  | .ret _ value => leave (Eval.optional evaluate value)
  | .varDecl name initial => do
      let value ← lift (Eval.optional evaluate initial)
      lift (Eval.defineHere name.lexeme value)
  | .whileLoop condition body => do
      if (← lift (evaluate condition)).isTruthy then
        execute body
        execute (.whileLoop condition body)
      else
        pure ()
  | .misfit form => misfitStmt evaluate execute form

/-!
# Calls
-/

/-- An initialiser gives its receiver instead of the value of its body. -/
def callFunction (execute : Stmt → Unwinding Unit) (f : FunctionId) (arguments : List Value) :
    Eval Value := do
  match (← get).functions[f]? with
  | none => pure .nil
  | some closure =>
      let e ← Eval.newEnvironment closure.env
        (Eval.parameters closure.function.params arguments)
      let value ← takeUp (within e (executeAll execute closure.function.body))
      if closure.isInitialiser then
        Eval.ofLookup ((← get).environments.getAt closure.env 0 "this")
      else
        pure value

def callStep (execute : Stmt → Unwinding Unit) : Callable → List Value → Eval Value
  | .native id, arguments => Eval.callNative id arguments
  | .function f, arguments => callFunction execute f arguments
  | .cls c, arguments => do
      let i ← Eval.newInstance c
      match (← get).findMethod c initName with
      | none => pure (.object i)
      | some f => do
          let f ← Eval.bindMethod f (.object i)
          let _ ← callFunction execute f arguments
          pure (.object i)

mutual

def evaluate : Nat → Expr → Eval Value
  | 0, _ => throw .outOfFuel
  | n + 1, e => Eval.exprStep (evaluate n) (call n) e

def execute : Nat → Stmt → Unwinding Unit
  | 0, _ => throw (.stop .outOfFuel)
  | n + 1, s => stmtStep (evaluate n) (execute n) s

def call : Nat → Callable → List Value → Eval Value
  | 0, _, _ => throw .outOfFuel
  | n + 1, f, arguments => callStep (execute n) f arguments

end

/-- Execute a program; the value of a `return` statement outside every function is of no use. -/
def interpret (n : Nat) (program : List Stmt) : Eval Unit := do
  let _ ← takeUp (executeAll (execute n) program)
  pure ()

/-!
# Agreement
-/

def outcome : EStateM.Result Stop Machine Completion → EStateM.Result Exit Machine Unit
  | .ok .normal m => .ok () m
  | .ok (.returned value) m => .error (.returned value) m
  | .error stop m => .error (.stop stop) m

def Agrees (p : Eval Completion) (q : Unwinding Unit) : Prop := ∀ m, q m = outcome (p m)

namespace Agrees

theorem pure_normal : Agrees (pure .normal) (pure ()) := fun _ => rfl

theorem throw (stop : Stop) : Agrees (MonadExcept.throw stop) (MonadExcept.throw (.stop stop)) :=
  fun _ => rfl

theorem defect (d : Defect) : Agrees (Eval.defect d) (lift (Eval.defect d)) := fun _ => rfl

theorem after (p : Eval α) {next : α → Eval Completion} {next' : α → Unwinding Unit}
    (hnext : ∀ value, Agrees (next value) (next' value)) :
    Agrees (p >>= next) (lift p >>= next') := by
  intro m
  show EStateM.bind (lift p) next' m = outcome (EStateM.bind p next m)
  unfold EStateM.bind lift
  cases p m with
  | ok value m' => exact hnext value m'
  | error stop m' => rfl

theorem afterGet {next : Machine → Eval Completion} {next' : Machine → Unwinding Unit}
    (hnext : ∀ m, Agrees (next m) (next' m)) :
    Agrees (MonadState.get >>= next) (MonadState.get >>= next') := fun m => hnext m m

theorem step (p : Eval Unit) : Agrees (p >>= fun _ => pure .normal) (lift p) := by
  have hstep := after p fun _ => pure_normal
  rwa [bind_pure_unit] at hstep

theorem andThen {p : Eval Completion} {q rest : Unwinding Unit}
    {next : Completion → Eval Completion} (hp : Agrees p q) (hnormal : Agrees (next .normal) rest)
    (hreturned : ∀ value, next (.returned value) = pure (.returned value)) :
    Agrees (p >>= next) (q >>= fun _ => rest) := by
  intro m
  show EStateM.bind q (fun _ => rest) m = outcome (EStateM.bind p next m)
  unfold EStateM.bind
  rw [hp m]
  cases p m with
  | error stop m' => rfl
  | ok completion m' =>
      cases completion with
      | normal => exact hnormal m'
      | returned value =>
          simp only [hreturned]
          rfl

theorem within {p : Eval Completion} {q : Unwinding Unit} (hp : Agrees p q) (e : EnvId) :
    Agrees (Eval.within e p) (Unwinding.within e q) := by
  intro m
  unfold Eval.within Unwinding.within
  rw [hp]
  cases p { m with current := e } with
  | error stop m' => rfl
  | ok completion m' =>
      cases completion with
      | normal => rfl
      | returned value => rfl

theorem leave (p : Eval Value) :
    Agrees (p >>= fun value => pure (.returned value)) (Unwinding.leave p) :=
  after p fun _ _ => rfl

theorem takeUp {p : Eval Completion} {q : Unwinding Unit} (hp : Agrees p q)
    {next : Completion → Eval α} {next' : Value → Eval α}
    (hnormal : next .normal = next' .nil)
    (hreturned : ∀ value, next (.returned value) = next' value) :
    Unwinding.takeUp q >>= next' = p >>= next := by
  funext m
  show EStateM.bind (Unwinding.takeUp q) next' m = EStateM.bind p next m
  unfold EStateM.bind Unwinding.takeUp
  rw [hp m]
  cases p m with
  | error stop m' => rfl
  | ok completion m' =>
      cases completion with
      | normal => exact (congrFun hnormal m').symm
      | returned value => exact (congrFun (hreturned value) m').symm

end Agrees

section

variable {evaluate : Expr → Eval Value} {execute : Stmt → Eval Completion}
variable {execute' : Stmt → Unwinding Unit} (hexecute : ∀ s, Agrees (execute s) (execute' s))

include hexecute

theorem agrees_executeAll (ss : List Stmt) :
    Agrees (Eval.executeAll execute ss) (executeAll execute' ss) := by
  induction ss with
  | nil => exact .pure_normal
  | cons s ss ih => exact (hexecute s).andThen ih fun _ => rfl

theorem agrees_executeBlock (body : List Stmt) (e : EnvId) :
    Agrees (Eval.executeBlock execute body e) (within e (executeAll execute' body)) :=
  (agrees_executeAll hexecute body).within e

theorem agrees_block (body : List Stmt) :
    Agrees
      (do
        let e ← Eval.newEnvironment (← get).current []
        Eval.executeBlock execute body e)
      (block execute' body) := by
  apply Agrees.afterGet
  intro m
  apply Agrees.after
  exact agrees_executeBlock hexecute body

theorem agrees_misfitStmt (form : Form) :
    Agrees (Eval.misfitStmt evaluate execute form) (misfitStmt evaluate execute' form) := by
  unfold Eval.misfitStmt
  split
  · next body =>
      rw [misfitStmt]
      cases body.items? with
      | some items => exact agrees_block hexecute _
      | none => exact .defect _
  · exact .step _
  · next name params body =>
      rw [misfitStmt]
      cases name.token? with
      | some name =>
          apply Agrees.afterGet
          intro m
          exact .after _ fun id => .step _
      | none => exact .defect _
  · exact .leave _
  · exact .after _ fun _ => .defect _
  · next hblock hclass hfunction hreturn hvariable =>
      rw [misfitStmt]
      · exact .defect _
      all_goals assumption

theorem agrees_stmtStep (s : Stmt) :
    Agrees (Eval.stmtStep evaluate execute s) (stmtStep evaluate execute' s) := by
  cases s with
  | block body => exact agrees_block hexecute body
  | classDecl name parent methods => exact .step _
  | expression inner => exact .after _ fun _ => .pure_normal
  | funDecl f =>
      apply Agrees.afterGet
      intro m
      exact .after _ fun id => .step _
  | ifElse condition thenBranch elseBranch =>
      apply Agrees.after
      intro value
      split
      · exact hexecute thenBranch
      · cases elseBranch with
        | some s => exact hexecute s
        | none => exact .pure_normal
  | print inner => exact .after _ fun value => .step _
  | ret keyword value => exact .leave _
  | varDecl name initial => exact .after _ fun value => .step _
  | whileLoop condition body =>
      apply Agrees.after
      intro value
      split
      · exact (hexecute body).andThen (hexecute (.whileLoop condition body)) fun _ => rfl
      · exact .pure_normal
  | misfit form => exact agrees_misfitStmt hexecute form

theorem callFunction_eq (f : FunctionId) (arguments : List Value) :
    callFunction execute' f arguments = Eval.callFunction execute f arguments := by
  unfold callFunction Eval.callFunction
  apply bind_congr
  intro m
  cases m.functions[f]? with
  | none => rfl
  | some closure =>
      apply bind_congr
      intro e
      apply (agrees_executeBlock hexecute closure.function.body e).takeUp
      · rfl
      · exact fun _ => rfl

theorem callStep_eq (f : Callable) (arguments : List Value) :
    callStep execute' f arguments = Eval.callStep execute f arguments := by
  cases f with
  | native id => rfl
  | function f => exact callFunction_eq hexecute f arguments
  | cls c =>
      unfold callStep Eval.callStep
      apply bind_congr
      intro i
      apply bind_congr
      intro m
      cases m.findMethod c initName with
      | none => rfl
      | some f => simp only [callFunction_eq hexecute]

end

theorem agrees_evaluation (n : Nat) :
    (∀ e, evaluate n e = Eval.evaluate n e) ∧
      (∀ s, Agrees (Eval.execute n s) (execute n s)) ∧
      ∀ f arguments, call n f arguments = Eval.call n f arguments := by
  induction n with
  | zero =>
      constructor
      · intro e
        rw [evaluate, Eval.evaluate]
      constructor
      · intro s
        rw [execute, Eval.execute]
        exact .throw .outOfFuel
      · intro f arguments
        rw [call, Eval.call]
  | succ n ih =>
      rcases ih with ⟨hevaluate, hexecute, hcall⟩
      have hevaluate : evaluate n = Eval.evaluate n := funext hevaluate
      have hcall : call n = Eval.call n := funext fun f => funext (hcall f)
      constructor
      · intro e
        rw [evaluate, Eval.evaluate, hevaluate, hcall]
      constructor
      · intro s
        rw [execute, Eval.execute, hevaluate]
        exact agrees_stmtStep hexecute s
      · intro f arguments
        rw [call, Eval.call]
        exact callStep_eq hexecute f arguments

/-- A program ends in the same way, whether or not a `return` statement ends it. -/
theorem interpret_eq (n : Nat) (program : List Stmt) :
    interpret n program = Eval.interpret n program >>= fun _ => pure () :=
  (agrees_executeAll (agrees_evaluation n).2.1 program).takeUp rfl fun _ => rfl

/-- For a session it makes no difference in which way its programs are executed. -/
theorem execute_eq_perform (s : Session) (n : Nat) (program : List Stmt) :
    s.execute n program = s.perform (interpret n program >>= fun _ => pure .normal) := by
  unfold Session.execute Session.perform
  rw [interpret_eq]
  simp only [bind, EStateM.bind]
  cases Eval.interpret n program s.machine with
  | ok completion m => rfl
  | error stop m => rfl

end Unwinding
end Lox
