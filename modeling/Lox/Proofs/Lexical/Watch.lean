import Lox.Proofs.Evaluate.Refines

/-!
# Watched evaluation

Evaluation in which every expression is looked at before it is evaluated.  The
steps are those of plain evaluation; what is done to look is a parameter.  A
watch that does nothing gives plain evaluation.

The watch `watchNames` stops with a defect at a local reference whose name is
not bound at its distance.  For a reference to a superclass it looks for both
names that are read: `super` at the distance, and `this` one environment nearer.
-/

namespace Lox

namespace Environments

/-- Whether the environment at a distance exists and binds a name. -/
def bindsAt (s : Environments) (e : EnvId) (distance : Nat) (name : String) : Bool :=
  match s.place e distance with
  | .ok target => (s.values target).binds name
  | .error _ => false

end Environments

namespace Eval

section

variable (watch : Expr → Eval Unit)

mutual

def evaluateWith : Nat → Expr → Eval Value
  | 0, _ => throw .outOfFuel
  | n + 1, e => do
      watch e
      exprStep (evaluateWith n) (callWith n) e

def executeWith : Nat → Stmt → Eval Completion
  | 0, _ => throw .outOfFuel
  | n + 1, s => stmtStep (evaluateWith n) (executeWith n) s

def callWith : Nat → Callable → List Value → Eval Value
  | 0, _, _ => throw .outOfFuel
  | n + 1, f, arguments => callStep (executeWith n) f arguments

end

def interpretWith (n : Nat) (program : List Stmt) : Eval Completion :=
  executeAll (executeWith watch n) program

end

/-- Whether the names that an expression reads at a distance are bound there. -/
def namesBound (m : Machine) : Expr → Bool
  | .var r | .thisRef r =>
      match m.locals.depth? r.node with
      | some depth => m.environments.bindsAt m.current depth r.name.lexeme
      | none => true
  | .superRef keyword _ =>
      match m.locals.depth? keyword.node with
      | some (depth + 1) =>
          m.environments.bindsAt m.current (depth + 1) "super" &&
            m.environments.bindsAt m.current depth "this"
      | _ => false
  | _ => true

def watchNames (e : Expr) : Eval Unit := do
  if namesBound (← get) e then pure () else defect (.lookup .unboundName)

/-!
# A watch can only stop the run

Unless a watch stops it for a bad reason, the watched run is the plain one.
-/

section

variable {bad : Stop → Prop} {watch : Expr → Eval Unit}
variable (hwatch : ∀ e, Refines bad (watch e) (pure ()))

include hwatch

theorem refines_evaluateWith (n : Nat) :
    (∀ e, Refines bad (evaluateWith watch n e) (evaluate n e)) ∧
      (∀ s, Refines bad (executeWith watch n s) (execute n s)) ∧
      ∀ f arguments, Refines bad (callWith watch n f arguments) (call n f arguments) := by
  induction n with
  | zero =>
      refine ⟨?_, ?_, ?_⟩
      · intro e
        rw [evaluateWith, evaluate]
        exact .refl _
      · intro s
        rw [executeWith, execute]
        exact .refl _
      · intro f arguments
        rw [callWith, call]
        exact .refl _
  | succ n ih =>
      rcases ih with ⟨hevaluate, hexecute, hcall⟩
      refine ⟨?_, ?_, ?_⟩
      · intro e
        rw [evaluateWith, evaluate]
        have hplain : exprStep (evaluate n) (call n) e =
            pure () >>= fun _ => exprStep (evaluate n) (call n) e := rfl
        rw [hplain]
        exact (hwatch e).bind fun _ => refines_exprStep hevaluate hcall e
      · intro s
        rw [executeWith, execute]
        exact refines_stmtStep hevaluate hexecute s
      · intro f arguments
        rw [callWith, call]
        exact refines_callStep hexecute f arguments

theorem refines_interpretWith (n : Nat) (program : List Stmt) :
    Refines bad (interpretWith watch n program) (interpret n program) :=
  refines_executeAll (refines_evaluateWith hwatch n).2.1 program

end

theorem interpretWith_pure (n : Nat) (program : List Stmt) :
    interpretWith (fun _ => pure ()) n program = interpret n program := by
  have hrefines : Refines (fun _ => False) (interpretWith (fun _ => pure ()) n program)
      (interpret n program) := refines_interpretWith (fun _ => .refl _) n program
  funext m
  rcases hrefines m with hsame | ⟨_, _, hfalse, _⟩
  · exact hsame
  · cases hfalse

/-- Looking for names changes nothing, or stops the run with a defect. -/
theorem refines_watchNames (e : Expr) :
    Refines (fun stop => ∃ d, stop = .defect d) (watchNames e) (pure ()) := by
  intro m
  cases hbound : namesBound m e with
  | true =>
      refine Or.inl ?_
      show (if namesBound m e then pure () else defect (.lookup .unboundName) : Eval Unit) m = _
      rw [hbound]
      rfl
  | false =>
      refine Or.inr ⟨.defect (.lookup .unboundName), m, ⟨_, rfl⟩, ?_⟩
      show (if namesBound m e then pure () else defect (.lookup .unboundName) : Eval Unit) m = _
      rw [hbound]
      rfl

end Eval
end Lox
