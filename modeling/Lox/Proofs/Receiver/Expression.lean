import Lox.Proofs.Receiver.Steps

/-!
# Expressions under the monitor

The value of `this` is the receiver of the bond, and the two parts of `super` are
the parent and the receiver of the bond: the resolver takes the nearest scope of a
receiver, and the environment made for it is the one that the bond is about.
-/

namespace Lox
namespace Lexical

open Environments (getAt_of_place)

variable {l : Locals} {allowed : String → Prop} {sc : Scene} {bond : Bond} {Γ : List Frame}

/-!
# What is found at a distance
-/

theorem getAt_succ {s : Environments} {e outer : EnvId} (houter : s.enclosing e = some outer)
    (depth : Nat) (name : String) : s.getAt e (depth + 1) name = s.getAt outer depth name := by
  unfold Environments.getAt
  rw [Environments.place_succ houter]

theorem exists_receiver (hfits : Fits l allowed sc) {e : EnvId} {depth : Nat}
    (hchain : Chain sc.stage e Γ) (htied : Tied sc bond e) (hwithin : NamesWithin Γ depth)
    (hthis : Γ[depth]? = some .this) :
    ∃ i, sc.machine.environments.getAt e depth "this" = .ok (.object i) ∧
      bond.receiver = some i ∧
      (Γ[depth + 1]? = some .super →
        ∃ c, sc.machine.environments.getAt e (depth + 1) "super" = .ok (.cls c) ∧
          bond.parent = some c) := by
  induction depth generalizing e Γ with
  | zero =>
      cases Γ with
      | nil => cases hthis
      | cons frame Γ =>
          cases hthis
          rcases hchain with ⟨hkind, _, outer, houter, hrest⟩
          change sc.kinds e = .this at hkind
          change sc.machine.environments.enclosing e = some outer at houter
          cases htied with
          | globals _ => exact absurd rfl (ne_globals_of_enclosing hfits houter)
          | super _ hother =>
              rw [hkind] at hother
              cases hother
          | names hother _ _ =>
              rw [hkind] at hother
              cases hother
          | @this _ other i _ hother _ hvalue hreceiver hparent =>
              cases hother.symm.trans houter
              refine ⟨i, getAt_of_place rfl hvalue, hreceiver, ?_⟩
              intro hsuper
              cases Γ with
              | nil => cases hsuper
              | cons next Γ =>
                  cases hsuper
                  rcases hparent hrest.1 with ⟨c, hc, hbond⟩
                  refine ⟨c, ?_, hbond⟩
                  rw [getAt_succ houter]
                  exact getAt_of_place rfl hc
  | succ depth ih =>
      cases Γ with
      | nil => cases hthis
      | cons frame Γ =>
          rcases hchain with ⟨hkind, _, outer, houter, hrest⟩
          change sc.kinds e = frame.kind at hkind
          change sc.machine.environments.enclosing e = some outer at houter
          unfold NamesWithin at hwithin
          rw [List.take_succ_cons] at hwithin
          rcases hwithin frame List.mem_cons_self with ⟨naming, bound, rfl⟩
          have hinner : NamesWithin Γ depth :=
            fun other hother => hwithin other (List.mem_cons_of_mem _ hother)
          cases htied with
          | globals _ => exact absurd rfl (ne_globals_of_enclosing hfits houter)
          | super _ hother =>
              rw [hkind] at hother
              cases hother
          | this hother _ _ _ _ _ =>
              rw [hkind] at hother
              cases hother
          | names _ hother htied =>
              cases hother.symm.trans houter
              rcases ih hrest htied hinner hthis with ⟨i, hvalue, hreceiver, hparent⟩
              refine ⟨i, (getAt_succ houter depth _).trans hvalue, hreceiver, ?_⟩
              intro hsuper
              rcases hparent hsuper with ⟨c, hc, hbond⟩
              exact ⟨c, (getAt_succ houter (depth + 1) _).trans hc, hbond⟩

/-!
# References
-/

theorem follows_lookup {r : Reference} (hat : At sc bond Γ)
    (hrefers : Refers (anyTokens l) Γ true r r) :
    Follows l allowed sc (Eval.lookup r) (Monitor.lift (Eval.lookup r))
      fun sc₁ => Sound (anyTokens l) sc₁.stage :=
  .quiet (agree_lookup hat.here hrefers) (quiet_lookup r _)

theorem follows_this {keyword : Reference} {depth : Nat} (hat : At sc bond Γ)
    (hsees : (anyTokens l).sees keyword.node (some depth)) (hkeyword : keyword.name.lexeme = "this")
    (hwithin : NamesWithin Γ depth) (hthis : Γ[depth]? = some .this) :
    Follows l allowed sc (Eval.lookup keyword)
      (do
        let value ← Monitor.lift (Eval.lookup keyword)
        Monitor.expect (bond.this? = some value)
        pure value)
      fun sc₁ => Sound (anyTokens l) sc₁.stage := by
  intro hfits
  rcases exists_receiver hfits hat.here hat.tied hwithin hthis with ⟨i, hvalue, hreceiver, _⟩
  have hagree : Agree (anyTokens l) sc.stage (Eval.lookup keyword) (Eval.lookup keyword)
      fun _ value => value = .object i := by
    apply Agree.get
    intro hrelated
    rw [(hrelated.sees hsees).depth?_eq, (hrelated.sees' hsees).depth?_eq, hkeyword]
    exact agree_ofLookup hvalue hvalue rfl
  refine ((Follows.quiet hagree (quiet_lookup _ _)).expect ?_) hfits
  intro sc₁ value _ hobject
  rw [hobject]
  constructor
  · simp [Bond.this?, hreceiver]
  · exact sound_of_not_function fun _ => Value.noConfusion

/-!
# Methods
-/

theorem tied_bound (hfits : Fits l allowed sc) {f : FunctionId} {closure : Closure}
    (hclosure : sc.machine.functions[f]? = some closure) (i : InstanceId) :
    Tied (sc.create .this closure.env [("this", .object i)])
      ⟨some i, (sc.monitored.origin f).parent⟩ sc.machine.environments.size := by
  have hlater := later_create sc .this closure.env [("this", .object i)]
  have hlt : closure.env < sc.machine.environments.size :=
    (hfits.tied f closure hclosure).lt_size
  refine .this (if_pos rfl) ?_ (Nat.lt_of_lt_of_le hlt hlater.grows.size) ?_ rfl ?_
  · show (sc.machine.environments.create (some closure.env) _).enclosing _ = _
    rw [Environments.enclosing_create, if_pos rfl]
  · show ((sc.machine.environments.create (some closure.env) _).values _).get? "this" = _
    rw [Environments.values_create, if_pos rfl]
    rfl
  · exact hfits.parent_later hlater hclosure

structure BoundTo (l : Locals) (sc sc₁ : Scene) (f : FunctionId) (i : InstanceId)
    (bound : FunctionId) : Prop where
  alike : AlikeId (anyTokens l) sc₁.stage false bound
  receiver : (sc₁.monitored.origin bound).bond.receiver = some i
  closure : ∃ (closure : Closure) (e : EnvId), sc.machine.functions[f]? = some closure ∧
    sc₁.machine.functions[bound]? = some { closure with env := e }

theorem BoundTo.arity {sc₁ : Scene} {f bound : FunctionId} {i : InstanceId}
    (hbound : BoundTo l sc sc₁ f i bound) :
    sc₁.machine.functionArity bound = sc.machine.functionArity f := by
  rcases hbound.closure with ⟨closure, e, hold, hnew⟩
  unfold Machine.functionArity
  rw [hold, hnew]

theorem follows_bindMethod {f : FunctionId} (hf : AlikeId (anyTokens l) sc.stage true f)
    (i : InstanceId) :
    Follows l allowed sc (Eval.bindMethod f (.object i)) (Monitor.bindMethod f i)
      fun sc₁ => BoundTo l sc sc₁ f i := by
  intro hfits
  rcases hf with ⟨closure, closure', hleft, hright, halike⟩
  cases hleft.symm.trans hright
  change sc.machine.functions[f]? = some closure at hleft
  let bound : Closure := { closure with env := sc.machine.environments.size }
  let inner := sc.create .this closure.env [("this", .object i)]
  let origin : Provenance :=
    { sc.monitored.origin f with bond := ⟨some i, (sc.monitored.origin f).parent⟩ }
  have hplain : Eval.bindMethod f (.object i) sc.machine =
      .ok sc.machine.functions.size (inner.addFunction bound origin).machine := by
    rw [Eval.bindMethod, Eval.get_bind, hleft]
    rfl
  have hmonitored : Monitor.bindMethod f i sc.monitored =
      .ok sc.machine.functions.size (inner.addFunction bound origin).monitored := by
    unfold Monitor.bindMethod
    show EStateM.bind (Monitor.lift (Eval.bindMethod f (.object i))) _ sc.monitored = _
    have hmachine : sc.monitored.machine = sc.machine := rfl
    simp only [EStateM.bind, Monitor.lift, hmachine, hplain]
    rfl
  have hthis : AlikeEnvironment (anyTokens l) sc.stage ⟨[("this", .object i)], some closure.env⟩
      ⟨[("this", .object i)], some closure.env⟩ .this :=
    ⟨.object i, rfl, rfl, sound_of_not_function fun _ => Value.noConfusion⟩
  have hinner : Fits l allowed inner := hfits.create hthis
  have hfits₁ : Fits l allowed (inner.addFunction bound origin) := by
    apply hinner.addFunction (tied_bound hfits hleft i)
    · intro hsuper
      have hkind : inner.kinds sc.machine.environments.size = .this := if_pos rfl
      rw [hkind] at hsuper
      cases hsuper
    · exact hfits.initialises f closure hleft
  rw [hplain, hmonitored]
  refine .ok ((later_create sc .this closure.env _).trans (later_addFunction inner bound origin))
    hfits₁ ⟨alikeId_bound halike rfl, ?_, closure, bound.env, hleft, ?_⟩
  · have horigin : (inner.addFunction bound origin).monitored.origin sc.machine.functions.size =
        origin := origin_addFunction hinner bound origin
    rw [horigin]
  · show (sc.machine.functions.push bound)[sc.machine.functions.size]? = some bound
    rw [Array.getElem?_push, if_pos rfl]

theorem follows_bound {f : FunctionId} (hf : AlikeId (anyTokens l) sc.stage true f)
    (i : InstanceId) :
    Follows l allowed sc (Value.function <$> Eval.bindMethod f (.object i))
      (Value.function <$> Monitor.bindMethod f i) fun sc₁ => Sound (anyTokens l) sc₁.stage := by
  apply Follows.map
  apply (follows_bindMethod hf i).imp
  intro sc₁ bound _ hbound
  exact sound_of_alikeId hbound.alike

theorem follows_getProperty (i : InstanceId) (name : Token) :
    Follows l allowed sc (Eval.getProperty i name) (Monitor.getProperty i name)
      fun sc₁ => Sound (anyTokens l) sc₁.stage := by
  apply Follows.get
  intro hfits
  have hmachine : sc.monitored.machine = sc.machine := rfl
  simp only [hmachine]
  cases hobject : sc.machine.instances[i]? with
  | none => exact .fail _ _
  | some object =>
      cases hfield : object.fields.get? name.lexeme with
      | some value =>
          have hsound : Sound (anyTokens l) sc.stage value :=
            hfits.related.fields i object hobject _ (mem_of_lookup hfield)
          simp only [hfield]
          exact .pure hsound
      | none =>
          simp only [hfield]
          cases hmethod : sc.machine.findMethod object.cls name.lexeme with
          | none => exact .fail _ _
          | some f => exact follows_bound (alikeId_of_findMethod hfits.related hmethod) i

theorem follows_superMethod {keyword : Reference} {method : Token} {depth : Nat}
    (hat : At sc bond Γ) (hsees : (anyTokens l).sees keyword.node (some (depth + 1)))
    (hwithin : NamesWithin Γ depth) (hthis : Γ[depth]? = some .this)
    (hsuper : Γ[depth + 1]? = some .super) :
    Follows l allowed sc (Eval.superMethod keyword method)
      (Monitor.superMethod bond keyword method)
      fun sc₁ => Sound (anyTokens l) sc₁.stage := by
  intro hfits
  rcases exists_receiver hfits hat.here hat.tied hwithin hthis with
    ⟨i, hvalue, hreceiver, hparent⟩
  rcases hparent hsuper with ⟨c, hc, hbond⟩
  have hagree : Agree (anyTokens l) sc.stage (Eval.superParts keyword) (Eval.superParts keyword)
      fun _ parts => parts = (.cls c, .object i) := by
    apply Agree.get
    intro hrelated
    have hparent : sc.stage.left.environments.getAt sc.stage.left.current (depth + 1) "super" =
        .ok (.cls c) := hc
    have hreceiver : sc.stage.left.environments.getAt sc.stage.left.current depth "this" =
        .ok (.object i) := hvalue
    have hright : sc.stage.right = sc.stage.left := rfl
    rw [hright, (hrelated.sees hsees).depth?_eq]
    simp only [hparent, Nat.add_sub_cancel, hreceiver]
    exact Agree.pure rfl
  refine (Follows.quiet hagree (quiet_superParts _ _)).bind ?_ hfits
  rintro sc₁ _ hlater rfl
  simp only [hreceiver, hbond, decide_true, Monitor.expect, if_true, pure_bind]
  apply Follows.get
  intro hfits₁
  have hmachine : sc₁.monitored.machine = sc₁.machine := rfl
  rw [hmachine]
  cases hfound : sc₁.machine.findMethod c method.lexeme with
  | none => exact .fail _ _
  | some f => exact follows_bound (alikeId_of_findMethod hfits₁.related hfound) i

/-!
# What is assumed of the parts
-/

def EvaluatesFollow (l : Locals) (allowed : String → Prop) (evaluate : Expr → Eval Value)
    (evaluate' : Bond → Expr → Monitor Value) : Prop :=
  ∀ (sc : Scene) (bond : Bond) (Γ : List Frame) (e : Expr), At sc bond Γ →
    AlikeExpr (anyTokens l) Γ e e →
    Follows l allowed sc (evaluate e) (evaluate' bond e) fun sc₁ => Sound (anyTokens l) sc₁.stage

def CallsFollow (l : Locals) (allowed : String → Prop) (call : Callable → List Value → Eval Value)
    (call' : Callable → List Value → Monitor Value) : Prop :=
  ∀ (sc : Scene) (f : Callable) (arguments : List Value), SoundCallable (anyTokens l) sc.stage f →
    sc.machine.arity f = .ok arguments.length →
    (∀ value ∈ arguments, Sound (anyTokens l) sc.stage value) →
    Follows l allowed sc (call f arguments) (call' f arguments) fun sc₁ =>
      Sound (anyTokens l) sc₁.stage

section

variable {evaluate : Expr → Eval Value} {evaluate' : Bond → Expr → Monitor Value}
variable {call : Callable → List Value → Eval Value}
variable {call' : Callable → List Value → Monitor Value}

theorem follows_evaluateAll (hevaluate : EvaluatesFollow l allowed evaluate evaluate')
    {es : List Expr} (hat : At sc bond Γ) (halike : AlikeExprs (anyTokens l) Γ es es) :
    Follows l allowed sc (Eval.evaluateAll evaluate es) (Monitor.evaluateAll (evaluate' bond) es)
      fun sc₁ values => ∀ value ∈ values, Sound (anyTokens l) sc₁.stage value := by
  induction es generalizing sc with
  | nil => exact .pure fun _ hvalue => by cases hvalue
  | cons e es ih =>
      cases halike with
      | cons he hes =>
          refine (hevaluate sc bond Γ e hat he).bind ?_
          intro sc₁ value hlater hvalue
          refine (ih (hat.later hlater) hes).bind ?_
          intro sc₂ values hlater₂ hvalues
          apply Follows.pure
          intro other hother
          rcases List.mem_cons.mp hother with rfl | hother
          · exact hvalue.mono hlater₂.grows.toExtends
          · exact hvalues other hother

theorem follows_invoke (hcall : CallsFollow l allowed call call') (paren : Token) {callee : Value}
    {arguments : List Value} (hcallee : Sound (anyTokens l) sc.stage callee)
    (harguments : ∀ value ∈ arguments, Sound (anyTokens l) sc.stage value) :
    Follows l allowed sc (Eval.invoke call (Eval.fail paren) callee arguments)
      (Monitor.invoke call' paren callee arguments) fun sc₁ => Sound (anyTokens l) sc₁.stage := by
  unfold Eval.invoke Monitor.invoke
  cases hf : callee.callable? with
  | none => exact .fail _ _
  | some f =>
      have hsound := soundCallable_of_callable? hcallee hf
      apply Follows.get
      intro hfits
      rcases arity_eq hfits.related hsound with ⟨arity, hleft, _⟩
      change sc.machine.arity f = .ok arity at hleft
      have hmachine : sc.monitored.machine = sc.machine := rfl
      simp only [hmachine, hleft]
      show Follows l allowed sc (if arguments.length = arity then _ else _)
        (if arguments.length = arity then _ else _) _
      by_cases hlength : arguments.length = arity
      · rw [if_pos hlength, if_pos hlength]
        exact hcall sc f arguments hsound (hlength ▸ hleft) harguments
      · rw [if_neg hlength, if_neg hlength]
        exact .fail _ _

theorem follows_ofExcept {operator : Token} {result : Except Stop Value}
    (halike : OperatorAlike operator operator result result) :
    Follows l allowed sc (Eval.ofExcept result) (Monitor.lift (Eval.ofExcept result))
      fun sc₁ => Sound (anyTokens l) sc₁.stage :=
  .quiet (agree_ofExcept trivial halike) (Quiet.ofExcept result _)

theorem follows_exprStep (hevaluate : EvaluatesFollow l allowed evaluate evaluate')
    (hcall : CallsFollow l allowed call call') {e : Expr} (hat : At sc bond Γ)
    (halike : AlikeExpr (anyTokens l) Γ e e) :
    Follows l allowed sc (Eval.exprStep evaluate call e)
      (Monitor.exprStep bond (evaluate' bond) call' e) fun sc₁ =>
        Sound (anyTokens l) sc₁.stage := by
  cases halike with
  | assign htarget hvalue =>
      refine (hevaluate sc bond Γ _ hat hvalue).bind ?_
      intro sc₁ value hlater hsound
      refine (follows_assign (hat.later hlater) htarget hsound).bind ?_
      intro sc₂ _ hlater₂ _
      exact .pure (hsound.mono hlater₂.grows.toExtends)
  | binary hknown hoperator hleft hright =>
      refine (hevaluate sc bond Γ _ hat hleft).bind ?_
      intro sc₁ left hlater _
      refine (hevaluate sc₁ bond Γ _ (hat.later hlater) hright).bind ?_
      intro sc₂ right _ _
      exact follows_ofExcept (binary_alike rfl hknown left right)
  | @call callee _ paren _ _ _ _ hcallee harguments =>
      refine (hevaluate sc bond Γ _ hat hcallee).bind ?_
      intro sc₁ value hlater hsound
      refine (follows_evaluateAll hevaluate (hat.later hlater) harguments).bind ?_
      intro sc₂ values hlater₂ hvalues
      exact follows_invoke hcall paren (hsound.mono hlater₂.grows.toExtends) hvalues
  | conditional hcondition hthen helse =>
      refine (hevaluate sc bond Γ _ hat hcondition).bind ?_
      intro sc₁ condition hlater _
      cases condition.isTruthy with
      | true => exact hevaluate sc₁ bond Γ _ (hat.later hlater) hthen
      | false => exact hevaluate sc₁ bond Γ _ (hat.later hlater) helse
  | get _ hobject =>
      refine (hevaluate sc bond Γ _ hat hobject).bind ?_
      intro sc₁ object _ _
      cases object with
      | object i => exact follows_getProperty i _
      | _ => exact .fail _ _
  | grouping hinner => exact hevaluate sc bond Γ _ hat hinner
  | literal value =>
      refine .pure (sound_of_not_function ?_)
      cases value <;> exact fun _ => Value.noConfusion
  | @logical _ _ _ _ operator _ _ hleft hright =>
      refine (hevaluate sc bond Γ _ hat hleft).bind ?_
      intro sc₁ left hlater hsound
      cases Eval.shortCircuits operator left with
      | true => exact .pure hsound
      | false => exact hevaluate sc₁ bond Γ _ (hat.later hlater) hright
  | set _ hobject hvalue =>
      refine (hevaluate sc bond Γ _ hat hobject).bind ?_
      intro sc₁ object hlater _
      cases object with
      | object i =>
          refine (hevaluate sc₁ bond Γ _ (hat.later hlater) hvalue).bind ?_
          intro sc₂ value hlater₂ hsound
          refine (Follows.quiet (agree_setField i _ hsound) rfl).bind ?_
          intro sc₃ _ hlater₃ _
          exact .pure (hsound.mono hlater₃.grows.toExtends)
      | _ => exact .fail _ _
  | superRef hsees _ hwithin hthis hsuper _ =>
      exact follows_superMethod hat hsees hwithin hthis hsuper
  | thisRef hsees _ hkeyword _ hwithin hthis => exact follows_this hat hsees hkeyword hwithin hthis
  | unary hknown hoperator hright =>
      refine (hevaluate sc bond Γ _ hat hright).bind ?_
      intro sc₁ right _ _
      exact follows_ofExcept (unary_alike rfl hknown right)
  | var hname => exact follows_lookup hat hname

end

end Lexical
end Lox
