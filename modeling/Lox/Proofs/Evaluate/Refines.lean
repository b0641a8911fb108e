import Lox.Evaluate

/-!
# Computations that may stop earlier

A computation refines another if it does the same, or stops for a reason that is
a parameter.  Every step of evaluation keeps this relation between the ways in
which the parts are evaluated.
-/

namespace Lox
namespace Eval

/-- `p` does what `q` does, unless it stops for a bad reason. -/
def Refines (bad : Stop → Prop) (p q : Eval α) : Prop :=
  ∀ m, p m = q m ∨ ∃ stop m', bad stop ∧ p m = .error stop m'

variable {bad : Stop → Prop}

namespace Refines

theorem refl (p : Eval α) : Refines bad p p := fun _ => Or.inl rfl

theorem bind {p q : Eval α} {f g : α → Eval β} (hp : Refines bad p q)
    (hf : ∀ value, Refines bad (f value) (g value)) : Refines bad (p >>= f) (q >>= g) := by
  intro m
  show EStateM.bind p f m = EStateM.bind q g m ∨
    ∃ stop m', bad stop ∧ EStateM.bind p f m = .error stop m'
  unfold EStateM.bind
  rcases hp m with hsame | ⟨stop, m', hbad, hstop⟩
  · rw [hsame]
    cases q m with
    | ok value m' => exact hf value m'
    | error stop m' => exact Or.inl rfl
  · rw [hstop]
    exact Or.inr ⟨stop, m', hbad, rfl⟩

theorem within {p q : Eval α} (hp : Refines bad p q) (e : EnvId) :
    Refines bad (Eval.within e p) (Eval.within e q) := by
  intro m
  unfold Eval.within
  rcases hp { m with current := e } with hsame | ⟨stop, m', hbad, hstop⟩
  · rw [hsame]
    exact Or.inl rfl
  · rw [hstop]
    exact Or.inr ⟨stop, _, hbad, rfl⟩

end Refines

/-!
# Steps
-/

section

variable {evaluate evaluate' : Expr → Eval Value} {execute execute' : Stmt → Eval Completion}
variable {call call' : Callable → List Value → Eval Value}

section

variable (hevaluate : ∀ e, Refines bad (evaluate e) (evaluate' e))

include hevaluate

theorem refines_evaluateAll (es : List Expr) :
    Refines bad (evaluateAll evaluate es) (evaluateAll evaluate' es) := by
  induction es with
  | nil => exact .refl _
  | cons e es ih =>
      refine (hevaluate e).bind fun value => ?_
      exact ih.bind fun values => .refl _

theorem refines_optional (value : Option Expr) :
    Refines bad (optional evaluate value) (optional evaluate' value) := by
  cases value with
  | none => exact .refl _
  | some e => exact hevaluate e

theorem refines_superclass (parent : Option Reference) :
    Refines bad (superclass evaluate parent) (superclass evaluate' parent) := by
  cases parent with
  | none => exact .refl _
  | some name => exact (hevaluate _).bind fun value => .refl _

theorem refines_looseClass (name parent methods : Form) :
    Refines bad (looseClass evaluate name parent methods)
      (looseClass evaluate' name parent methods) := by
  have hparent : Refines bad (looseSuperclass evaluate parent)
      (looseSuperclass evaluate' parent) := by
    unfold looseSuperclass
    split
    · exact .refl _
    · exact (hevaluate _).bind fun value => .refl _
  exact hparent.bind fun value => .refl _

theorem refines_discard (form : Form) :
    Refines bad (discard evaluate form) (discard evaluate' form) :=
  (hevaluate _).bind fun _ => .refl _

theorem refines_argumentForms (arguments : Form) :
    Refines bad (argumentForms evaluate arguments) (argumentForms evaluate' arguments) := by
  unfold argumentForms
  split
  · exact refines_evaluateAll hevaluate _
  · exact .refl _

end

theorem refines_invoke (hcall : ∀ f arguments, Refines bad (call f arguments) (call' f arguments))
    (refuse : RuntimeCause → Eval Value) (callee : Value) (arguments : List Value) :
    Refines bad (invoke call refuse callee arguments) (invoke call' refuse callee arguments) := by
  unfold invoke
  split
  · exact .refl _
  · refine (Refines.refl _).bind fun m => (Refines.refl _).bind fun expected => ?_
    split
    · exact hcall _ _
    · exact .refl _

theorem refines_misfitExpr (hevaluate : ∀ e, Refines bad (evaluate e) (evaluate' e))
    (hcall : ∀ f arguments, Refines bad (call f arguments) (call' f arguments)) (form : Form) :
    Refines bad (misfitExpr evaluate call form) (misfitExpr evaluate' call' form) := by
  have hdiscard := refines_discard hevaluate
  unfold misfitExpr
  split
  · exact (hdiscard _).bind fun _ => .refl _
  · exact (hdiscard _).bind fun _ => (hdiscard _).bind fun _ => .refl _
  · refine (hevaluate _).bind fun callee => ?_
    refine (refines_argumentForms hevaluate _).bind fun arguments => ?_
    exact refines_invoke hcall _ _ _
  · exact (hdiscard _).bind fun _ => .refl _
  · exact (hdiscard _).bind fun _ => .refl _
  · refine (hevaluate _).bind fun object => ?_
    split
    · exact (hdiscard _).bind fun _ => .refl _
    · exact .refl _
  all_goals first | exact .refl _ | exact (hdiscard _).bind fun _ => .refl _

theorem refines_exprStep (hevaluate : ∀ e, Refines bad (evaluate e) (evaluate' e))
    (hcall : ∀ f arguments, Refines bad (call f arguments) (call' f arguments)) (e : Expr) :
    Refines bad (exprStep evaluate call e) (exprStep evaluate' call' e) := by
  cases e with
  | assign target value => exact (hevaluate _).bind fun value => .refl _
  | binary left operator right =>
      exact (hevaluate _).bind fun left => (hevaluate _).bind fun right => .refl _
  | call callee paren arguments =>
      refine (hevaluate _).bind fun callee => ?_
      refine (refines_evaluateAll hevaluate _).bind fun arguments => ?_
      exact refines_invoke hcall _ _ _
  | conditional condition thenBranch elseBranch =>
      refine (hevaluate _).bind fun condition => ?_
      split
      · exact hevaluate _
      · exact hevaluate _
  | get object name => exact (hevaluate _).bind fun object => .refl _
  | grouping inner => exact hevaluate _
  | literal value => exact .refl _
  | logical left operator right =>
      refine (hevaluate _).bind fun left => ?_
      split
      · exact .refl _
      · exact hevaluate _
  | set object name value =>
      refine (hevaluate _).bind fun object => ?_
      split
      · exact (hevaluate _).bind fun value => .refl _
      · exact .refl _
  | superRef keyword method => exact .refl _
  | thisRef keyword => exact .refl _
  | unary operator right => exact (hevaluate _).bind fun right => .refl _
  | var name => exact .refl _
  | misfit form => exact refines_misfitExpr hevaluate hcall form

theorem refines_executeAll (hexecute : ∀ s, Refines bad (execute s) (execute' s))
    (ss : List Stmt) : Refines bad (executeAll execute ss) (executeAll execute' ss) := by
  induction ss with
  | nil => exact .refl _
  | cons s ss ih =>
      refine (hexecute s).bind fun completion => ?_
      split
      · exact ih
      · exact .refl _

theorem refines_executeBlock (hexecute : ∀ s, Refines bad (execute s) (execute' s))
    (body : List Stmt) (e : EnvId) :
    Refines bad (executeBlock execute body e) (executeBlock execute' body e) :=
  (refines_executeAll hexecute body).within e

theorem refines_misfitStmt (hevaluate : ∀ e, Refines bad (evaluate e) (evaluate' e))
    (hexecute : ∀ s, Refines bad (execute s) (execute' s)) (form : Form) :
    Refines bad (misfitStmt evaluate execute form) (misfitStmt evaluate' execute' form) := by
  unfold misfitStmt
  split
  · split
    · refine (Refines.refl _).bind fun m => (Refines.refl _).bind fun e => ?_
      exact refines_executeBlock hexecute _ e
    · exact .refl _
  · exact (refines_looseClass hevaluate _ _ _).bind fun _ => .refl _
  · exact .refl _
  · exact (refines_optional hevaluate _).bind fun value => .refl _
  · exact (refines_optional hevaluate _).bind fun value => .refl _
  · exact .refl _

theorem refines_stmtStep (hevaluate : ∀ e, Refines bad (evaluate e) (evaluate' e))
    (hexecute : ∀ s, Refines bad (execute s) (execute' s)) (s : Stmt) :
    Refines bad (stmtStep evaluate execute s) (stmtStep evaluate' execute' s) := by
  cases s with
  | block body =>
      refine (Refines.refl _).bind fun m => (Refines.refl _).bind fun e => ?_
      exact refines_executeBlock hexecute body e
  | classDecl name parent methods =>
      refine Refines.bind ?_ fun _ => .refl _
      exact (refines_superclass hevaluate parent).bind fun parent => .refl _
  | expression inner => exact (hevaluate _).bind fun value => .refl _
  | funDecl f => exact .refl _
  | ifElse condition thenBranch elseBranch =>
      refine (hevaluate _).bind fun condition => ?_
      split
      · exact hexecute _
      · split
        · exact hexecute _
        · exact .refl _
  | print inner => exact (hevaluate _).bind fun value => .refl _
  | ret keyword value => exact (refines_optional hevaluate _).bind fun value => .refl _
  | varDecl name initial => exact (refines_optional hevaluate _).bind fun value => .refl _
  | whileLoop condition body =>
      refine (hevaluate _).bind fun condition => ?_
      split
      · refine (hexecute _).bind fun completion => ?_
        split
        · exact hexecute _
        · exact .refl _
      · exact .refl _
  | misfit form => exact refines_misfitStmt hevaluate hexecute form

theorem refines_callFunction (hexecute : ∀ s, Refines bad (execute s) (execute' s))
    (f : FunctionId) (arguments : List Value) :
    Refines bad (callFunction execute f arguments) (callFunction execute' f arguments) := by
  refine (Refines.refl _).bind fun m => ?_
  split
  · exact .refl _
  · refine (Refines.refl _).bind fun e => ?_
    exact (refines_executeBlock hexecute _ e).bind fun completion => .refl _

theorem refines_callStep (hexecute : ∀ s, Refines bad (execute s) (execute' s))
    (f : Callable) (arguments : List Value) :
    Refines bad (callStep execute f arguments) (callStep execute' f arguments) := by
  cases f with
  | native id => exact .refl _
  | function f => exact refines_callFunction hexecute f arguments
  | cls c =>
      refine (Refines.refl _).bind fun i => (Refines.refl _).bind fun m => ?_
      split
      · exact .refl _
      · refine (Refines.refl _).bind fun f => ?_
        exact (refines_callFunction hexecute f arguments).bind fun _ => .refl _

end

end Eval
end Lox
