import Lox.Proofs.Lexical.Objects

/-!
# Alike expressions evaluate alike

One lemma for each kind of expression, given that its parts evaluate alike and
that callables are called alike.
-/

namespace Lox
namespace Lexical

variable (sides : Sides)

/-!
# What is assumed of the parts
-/

def EvaluatesAlike (evaluate evaluate' : Expr → Eval Value) : Prop :=
  ∀ (st : Stage) (Γ : List Frame) (e e' : Expr), Here st Γ → AlikeExpr sides Γ e e' →
    Agree sides st (evaluate e) (evaluate' e') (Sound sides)

def SoundCallable (st : Stage) : Callable → Prop
  | .function f => AlikeId sides st false f
  | _ => True

def CallsAlike (call call' : Callable → List Value → Eval Value) : Prop :=
  ∀ (st : Stage) (f : Callable) (arguments : List Value), SoundCallable sides st f →
    st.left.arity f = .ok arguments.length → (∀ value ∈ arguments, Sound sides st value) →
    Agree sides st (call f arguments) (call' f arguments) (Sound sides)

variable {sides} {st : Stage}

/-!
# Operators
-/

/-- The results of two operators that are applied to the same values. -/
inductive OperatorAlike (operator operator' : Token) :
    Except Stop Value → Except Stop Value → Prop where
  | ok {value : Value} : (∀ f, value ≠ .function f) →
      OperatorAlike operator operator' (.ok value) (.ok value)
  | error (cause : RuntimeCause) :
      OperatorAlike operator operator' (.error (.error ⟨operator, cause⟩))
        (.error (.error ⟨operator', cause⟩))

theorem plus_alike (operator operator' : Token) (left right : Value) :
    OperatorAlike operator operator' (Operator.plus operator left right)
      (Operator.plus operator' left right) := by
  cases left <;> cases right <;>
    first
    | exact .ok fun _ => Value.noConfusion
    | exact .error _

theorem arithmetic_alike {operator operator' : Token} (hkind : operator'.kind = operator.kind)
    (hknown : operator.kind ∈
      [.slash, .star, .minus, .greater, .greaterEqual, .less, .lessEqual]) (x y : Number) :
    OperatorAlike operator operator' (Operator.arithmetic operator x y)
      (Operator.arithmetic operator' x y) := by
  unfold Operator.arithmetic
  rw [hkind]
  simp only [List.mem_cons, List.not_mem_nil, or_false] at hknown
  rcases hknown with h | h | h | h | h | h | h <;> rw [h] <;>
    exact .ok fun _ => Value.noConfusion

theorem binary_alike {operator operator' : Token} (hkind : operator'.kind = operator.kind)
    (hknown : operator.kind ∈ binaryOperators) (left right : Value) :
    OperatorAlike operator operator' (Operator.binary operator left right)
      (Operator.binary operator' left right) := by
  simp only [binaryOperators, List.mem_cons, List.not_mem_nil, or_false] at hknown
  unfold Operator.binary
  rw [hkind]
  split
  · exact .ok fun _ => Value.noConfusion
  · exact .ok fun _ => Value.noConfusion
  · exact plus_alike operator operator' left right
  · next hdiffers hequals hplus =>
      have hmem : operator.kind ∈
          [.slash, .star, .minus, .greater, .greaterEqual, .less, .lessEqual] := by
        simp only [List.mem_cons, List.not_mem_nil, or_false]
        tauto
      cases left <;> cases right <;>
        first
        | exact arithmetic_alike hkind hmem _ _
        | exact .error _

theorem unary_alike {operator operator' : Token} (hkind : operator'.kind = operator.kind)
    (hknown : operator.kind ∈ unaryOperators) (right : Value) :
    OperatorAlike operator operator' (Operator.unary operator right)
      (Operator.unary operator' right) := by
  unfold Operator.unary
  rw [hkind]
  simp only [unaryOperators, List.mem_cons, List.not_mem_nil, or_false] at hknown
  rcases hknown with h | h <;> rw [h]
  · exact .ok fun _ => Value.noConfusion
  · cases right <;>
      first
      | exact .ok fun _ => Value.noConfusion
      | exact .error _

theorem agree_ofExcept {operator operator' : Token} {result result' : Except Stop Value}
    (hrelated : sides.related operator operator')
    (halike : OperatorAlike operator operator' result result') :
    Agree sides st (Eval.ofExcept result) (Eval.ofExcept result') (Sound sides) := by
  cases halike with
  | ok hvalue => exact Agree.pure (sound_of_not_function hvalue)
  | error cause => exact Agree.fail hrelated cause

/-!
# Calls
-/

theorem soundCallable_of_callable? {value : Value} {f : Callable} (hvalue : Sound sides st value)
    (hf : value.callable? = some f) : SoundCallable sides st f := by
  cases value <;> cases hf
  · trivial
  · exact hvalue _ rfl
  · trivial

theorem params_length_eq {Γ : List Frame} {f f' : Function}
    (halike : AlikeFunction sides Γ f f') : f'.params.length = f.params.length := by
  cases halike with
  | mk _ _ hparams _ => exact hparams.length_eq.symm

theorem functionArity_eq {isMethod : Bool} {f : FunctionId}
    (hf : AlikeId sides st isMethod f) :
    ∃ arity, st.left.functionArity f = .ok arity ∧ st.right.functionArity f = .ok arity := by
  rcases hf with ⟨closure, closure', hleft, hright, halike⟩
  rcases halike.body with ⟨Γ, _, hfunction⟩
  refine ⟨closure.function.params.length, ?_, ?_⟩
  · unfold Machine.functionArity
    simp only [hleft, halike.flaw]
  · unfold Machine.functionArity
    simp only [hright, halike.flaw', params_length_eq hfunction]

theorem arity_eq (hrelated : Related sides st) {f : Callable} (hf : SoundCallable sides st f) :
    ∃ arity, st.left.arity f = .ok arity ∧ st.right.arity f = .ok arity := by
  unfold Machine.arity
  cases f with
  | native id =>
      simp only [hrelated.natives]
      cases st.left.natives[id]? with
      | none => exact ⟨0, rfl, rfl⟩
      | some native => exact ⟨native.arity, rfl, rfl⟩
  | function f => exact functionArity_eq hf
  | cls c =>
      simp only [Machine.findMethod_congr hrelated.classes]
      cases hmethod : st.left.findMethod c initName with
      | none => exact ⟨0, rfl, rfl⟩
      | some f => exact functionArity_eq (alikeId_of_findMethod hrelated hmethod)

theorem agree_invoke {call call' : Callable → List Value → Eval Value}
    (hcall : CallsAlike sides call call') {paren paren' : Token}
    (hparen : SameToken sides paren paren') {callee : Value} {arguments : List Value}
    (hcallee : Sound sides st callee)
    (harguments : ∀ value ∈ arguments, Sound sides st value) :
    Agree sides st (Eval.invoke call (Eval.fail paren) callee arguments)
      (Eval.invoke call' (Eval.fail paren') callee arguments) (Sound sides) := by
  unfold Eval.invoke
  cases hf : callee.callable? with
  | none => exact Agree.fail hparen.related _
  | some f =>
      have hsound := soundCallable_of_callable? hcallee hf
      apply Agree.get
      intro hrelated
      rcases arity_eq hrelated hsound with ⟨arity, hleft, hright⟩
      simp only [hleft, hright]
      show Agree sides st (if arguments.length = arity then _ else _)
        (if arguments.length = arity then _ else _) _
      by_cases hlength : arguments.length = arity
      · rw [if_pos hlength, if_pos hlength]
        exact hcall st f arguments hsound (hlength ▸ hleft) harguments
      · rw [if_neg hlength, if_neg hlength]
        exact Agree.fail hparen.related _

/-!
# Expressions
-/

section

variable {evaluate evaluate' : Expr → Eval Value} {call call' : Callable → List Value → Eval Value}

theorem agree_evaluateAll (hevaluate : EvaluatesAlike sides evaluate evaluate')
    {Γ : List Frame} {es es' : List Expr} (hhere : Here st Γ)
    (halike : AlikeExprs sides Γ es es') :
    Agree sides st (Eval.evaluateAll evaluate es) (Eval.evaluateAll evaluate' es')
      fun st₁ values => ∀ value ∈ values, Sound sides st₁ value := by
  induction es generalizing st es' with
  | nil =>
      cases halike
      exact Agree.pure fun _ hvalue => by cases hvalue
  | cons e es ih =>
      cases halike with
      | cons he hes =>
          refine Agree.bind (hevaluate st Γ _ _ hhere he) ?_
          intro st₁ value hgrows hvalue
          refine Agree.bind (ih (hhere.mono hgrows) hes) ?_
          intro st₂ values hgrows₂ hvalues
          apply Agree.pure
          intro other hother
          rcases List.mem_cons.mp hother with rfl | hother
          · exact hvalue.mono hgrows₂.toExtends
          · exact hvalues other hother

theorem agree_exprStep (hevaluate : EvaluatesAlike sides evaluate evaluate')
    (hcall : CallsAlike sides call call') {Γ : List Frame} {e e' : Expr} (hhere : Here st Γ)
    (halike : AlikeExpr sides Γ e e') :
    Agree sides st (Eval.exprStep evaluate call e) (Eval.exprStep evaluate' call' e')
      (Sound sides) := by
  cases halike with
  | assign htarget hvalue =>
      refine Agree.bind (hevaluate st Γ _ _ hhere hvalue) ?_
      intro st₁ value hgrows hsound
      refine Agree.bind (agree_assign (hhere.mono hgrows) htarget hsound) ?_
      intro st₂ _ hgrows₂ _
      exact Agree.pure (hsound.mono hgrows₂.toExtends)
  | binary hknown hoperator hleft hright =>
      refine Agree.bind (hevaluate st Γ _ _ hhere hleft) ?_
      intro st₁ left hgrows _
      refine Agree.bind (hevaluate st₁ Γ _ _ (hhere.mono hgrows) hright) ?_
      intro st₂ right _ _
      exact agree_ofExcept hoperator.related (binary_alike hoperator.kind hknown left right)
  | call hparen hcallee harguments =>
      refine Agree.bind (hevaluate st Γ _ _ hhere hcallee) ?_
      intro st₁ callee hgrows hsound
      refine Agree.bind (agree_evaluateAll hevaluate (hhere.mono hgrows) harguments) ?_
      intro st₂ values hgrows₂ hvalues
      exact agree_invoke hcall hparen (hsound.mono hgrows₂.toExtends) hvalues
  | conditional hcondition hthen helse =>
      refine Agree.bind (hevaluate st Γ _ _ hhere hcondition) ?_
      intro st₁ condition hgrows _
      cases condition.isTruthy with
      | true => exact hevaluate st₁ Γ _ _ (hhere.mono hgrows) hthen
      | false => exact hevaluate st₁ Γ _ _ (hhere.mono hgrows) helse
  | get hname hobject =>
      refine Agree.bind (hevaluate st Γ _ _ hhere hobject) ?_
      intro st₁ object _ _
      cases object with
      | object i => exact agree_getProperty i hname
      | _ => exact Agree.fail hname.related _
  | grouping hinner => exact hevaluate st Γ _ _ hhere hinner
  | literal value =>
      refine Agree.pure (sound_of_not_function ?_)
      cases value <;> exact fun _ => Value.noConfusion
  | @logical _ _ _ _ operator operator' hoperator hleft hright =>
      refine Agree.bind (hevaluate st Γ _ _ hhere hleft) ?_
      intro st₁ left hgrows hsound
      have hsame : Eval.shortCircuits operator' left = Eval.shortCircuits operator left := by
        unfold Eval.shortCircuits
        rw [hoperator.kind]
      simp only [hsame]
      cases Eval.shortCircuits operator left with
      | true => exact Agree.pure hsound
      | false => exact hevaluate st₁ Γ _ _ (hhere.mono hgrows) hright
  | set hname hobject hvalue =>
      refine Agree.bind (hevaluate st Γ _ _ hhere hobject) ?_
      intro st₁ object hgrows _
      cases object with
      | object i =>
          refine Agree.bind (hevaluate st₁ Γ _ _ (hhere.mono hgrows) hvalue) ?_
          intro st₂ value hgrows₂ hsound
          rw [hname.lexeme]
          refine Agree.bind (agree_setField i _ hsound) ?_
          intro st₃ _ hgrows₃ _
          exact Agree.pure (hsound.mono hgrows₃.toExtends)
      | _ => exact Agree.fail hname.related _
  | superRef hsees hsees' _ hthis hsuper hmethod =>
      exact agree_superMethod hhere hsees hsees' hthis hsuper hmethod
  | thisRef hsees hsees' hkeyword hkeyword' _ hframe =>
      exact agree_lookup_this hhere hsees hsees' hkeyword hkeyword' hframe
  | unary hknown hoperator hright =>
      refine Agree.bind (hevaluate st Γ _ _ hhere hright) ?_
      intro st₁ right _ _
      exact agree_ofExcept hoperator.related (unary_alike hoperator.kind hknown right)
  | var hname => exact agree_lookup hhere hname

end

end Lexical
end Lox
