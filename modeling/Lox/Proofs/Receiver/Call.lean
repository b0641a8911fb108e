import Lox.Proofs.Receiver.Statement

/-!
# Calls under the monitor

The body of a function is run with the bond that was recorded for it, in an
environment that is tied to this bond, whoever makes the call.  So the value of a
call of a bound initialiser is the receiver of its bond, and the knot can be tied:
from a scene that fits, a program is executed under the monitor as it is without.
-/

namespace Lox
namespace Lexical

open Environments (getAt_of_place)

variable {l : Locals} {allowed : String → Prop} {sc : Scene} {bond : Bond} {Γ : List Frame}

/-!
# Initialisers
-/

/-- The environment of a receiver that is tied to a bond holds the receiver of the bond. -/
theorem Tied.exists_receiver {e : EnvId} (hfits : Fits l allowed sc) (htied : Tied sc bond e)
    (hkind : sc.kinds e = .this) :
    ∃ i, (sc.machine.environments.values e).get? "this" = some (.object i) ∧
      bond.receiver = some i := by
  cases htied with
  | globals _ =>
      have hglobals : sc.kinds Machine.globals = .names .same := hfits.related.globals
      rw [hglobals] at hkind
      cases hkind
  | super _ hother =>
      rw [hkind] at hother
      cases hother
  | names hother _ _ =>
      rw [hkind] at hother
      cases hother
  | this _ _ _ hvalue hreceiver _ => exact ⟨_, hvalue, hreceiver⟩

theorem follows_callResult {closure : Closure} {completion : Completion}
    (halike : AlikeClosure (anyTokens l) sc.stage false closure closure)
    (htied : Tied sc bond closure.env) (hreturns : Returns (anyTokens l) true sc.stage completion) :
    Follows l allowed sc (Eval.callResult closure completion)
      (Monitor.lift (Eval.callResult closure completion)) fun sc₁ value =>
        Sound (anyTokens l) sc₁.stage value ∧
          (closure.isInitialiser = true → bond.this? = some value) := by
  intro hfits
  have hquiet := quiet_callResult closure completion sc.machine
  by_cases hinit : closure.isInitialiser = true
  · rcases htied.exists_receiver hfits (halike.receiver rfl hinit) with ⟨i, hvalue, hreceiver⟩
    have hagree : Agree (anyTokens l) sc.stage (Eval.callResult closure completion)
        (Eval.callResult closure completion) fun _ value => value = .object i := by
      unfold Eval.callResult
      rw [if_pos hinit]
      apply Agree.get
      intro _
      exact agree_ofLookup (getAt_of_place rfl hvalue) (getAt_of_place rfl hvalue) rfl
    refine ((Follows.quiet hagree hquiet).imp ?_) hfits
    rintro sc₁ _ _ rfl
    refine ⟨sound_of_not_function fun _ => Value.noConfusion, fun _ => ?_⟩
    simp [Bond.this?, hreceiver]
  · refine ((Follows.quiet (agree_callResult halike hreturns) hquiet).imp ?_) hfits
    intro sc₁ value _ hsound
    exact ⟨hsound, fun h => absurd h hinit⟩

/-!
# Functions
-/

section

variable {execute : Stmt → Eval Completion} {execute' : Bond → Stmt → Monitor Completion}

theorem follows_callFunction (hexecute : ExecutesFollow l allowed execute execute') {f : FunctionId}
    {arguments : List Value} (hf : AlikeId (anyTokens l) sc.stage false f)
    (harity : sc.machine.functionArity f = .ok arguments.length)
    (harguments : ∀ value ∈ arguments, Sound (anyTokens l) sc.stage value) :
    Follows l allowed sc (Eval.callFunction execute f arguments)
      (Monitor.callFunction execute' f arguments) fun sc₁ value =>
        Sound (anyTokens l) sc₁.stage value ∧
          ∀ closure, sc.machine.functions[f]? = some closure → closure.isInitialiser = true →
            (sc.monitored.origin f).bond.this? = some value := by
  rcases hf with ⟨closure, closure', hleft, hright, halike⟩
  cases hleft.symm.trans hright
  change sc.machine.functions[f]? = some closure at hleft
  rcases halike.body with ⟨Γ, hchain, hfunction⟩
  unfold Machine.functionArity at harity
  simp only [hleft, halike.flaw] at harity
  injection harity with hlength
  apply Follows.get
  intro hfits
  have hmachine : sc.monitored.machine = sc.machine := rfl
  simp only [hmachine, hleft]
  have htied := hfits.tied f closure hleft
  have horigin := hfits.initialises f closure hleft
  generalize sc.monitored.origin f = origin at htied horigin ⊢
  generalize hbody : closure.function = function at hfunction hlength
  cases hfunction with
  | @mk _ name _ naming params _ body _ _ hparams hstmts =>
      have hvalues : AlikeEnvironment (anyTokens l) sc.stage
          ⟨Eval.parameters params arguments, some closure.env⟩
          ⟨Eval.parameters params arguments, some closure.env⟩ (.names naming) :=
        ⟨alike_bindParameters .nil hparams,
          sound_bindParameters (fun entry hentry => by cases hentry) harguments⟩
      apply (follows_newEnvironment hvalues).bind
      rintro _ _ hlater₁ ⟨rfl, rfl⟩
      have hinside : Chain
          (sc.create (.names naming) closure.env (Eval.parameters params arguments)).stage
          sc.machine.environments.size (.names naming (· ∈ params.map Token.lexeme) :: Γ) :=
        chain_create (.names naming _) _ _ hchain
          (fun name hname => binds_bindParameters hlength.symm (Or.inr hname))
      apply (follows_executeBlock hexecute hinside (tied_create _ htied) hstmts).bind
      intro sc₂ completion hlater₂ hreturns
      have hextends := (hlater₁.trans hlater₂).grows.toExtends
      apply (follows_callResult (halike.mono hextends) (htied.mono hextends) hreturns).expect
      rintro sc₃ value _ ⟨hsound, hvalue⟩
      refine ⟨?_, hsound, ?_⟩
      · cases hinit : origin.initialises closure with
        | false => rfl
        | true => simp [hvalue (horigin hinit)]
      · intro other hother hinit
        cases hother
        exact hvalue hinit

/-!
# Classes
-/

theorem isInitialiser_of_findMethod (hfits : Fits l allowed sc) {c : ClassId} {f : FunctionId}
    {closure : Closure} (hfound : sc.machine.findMethod c initName = some f)
    (hclosure : sc.machine.functions[f]? = some closure) : closure.isInitialiser = true := by
  rcases Machine.exists_class_of_findMethod (fun _ _ _ _ _ _ => trivial) trivial hfound with
    ⟨c', cls, _, hcls, hentry⟩
  rcases hfits.initialisers c' cls hcls f hentry with ⟨other, hother, hinit⟩
  cases hother.symm.trans hclosure
  exact hinit

theorem follows_callStep (hexecute : ExecutesFollow l allowed execute execute') :
    CallsFollow l allowed (Eval.callStep execute) (Monitor.callStep execute') := by
  intro sc f arguments hf harity harguments
  cases f with
  | native id =>
      intro hfits
      have hsame := fabric_callNative hfits.related.plain id arguments
      exact Follows.quiet (agree_callNative id harguments) hsame hfits
  | function f =>
      apply (follows_callFunction hexecute hf harity harguments).imp
      rintro sc₁ value _ ⟨hsound, _⟩
      exact hsound
  | cls c =>
      apply (Follows.quiet (agree_newInstance c) rfl).bind
      intro sc₁ i hlater₁ hstage
      have hobject : ∀ {sc₂ : Scene}, Sound (anyTokens l) sc₂.stage (.object i) :=
        sound_of_not_function fun _ => Value.noConfusion
      have hmachine₁ : sc₁.machine = (sc.stage.addInstance c).left := congrArg Stage.left hstage
      have harity₁ : sc₁.machine.arity (.cls c) = .ok arguments.length := by
        have hclasses : (sc.stage.addInstance c).left.classes = sc.machine.classes := rfl
        rw [← harity, hmachine₁]
        unfold Machine.arity
        simp only [Machine.findMethod_congr hclasses]
        rfl
      apply Follows.get
      intro hfits
      have hmachine : sc₁.monitored.machine = sc₁.machine := rfl
      rw [hmachine]
      unfold Machine.arity at harity₁
      cases hmethod : sc₁.machine.findMethod c initName with
      | none => exact .pure hobject
      | some f =>
          simp only [hmethod] at harity₁
          apply (follows_bindMethod (alikeId_of_findMethod hfits.related hmethod) i).bind
          intro sc₂ bound hlater₂ hbound
          have hextends := (hlater₁.trans hlater₂).grows.toExtends
          have hcall := follows_callFunction hexecute hbound.alike (hbound.arity.trans harity₁)
            fun value hvalue => (harguments value hvalue).mono hextends
          apply hcall.bind
          rintro sc₃ value _ ⟨_, hvalue⟩
          rcases hbound.closure with ⟨closure, e, hold, hnew⟩
          have hinit : closure.isInitialiser = true :=
            isInitialiser_of_findMethod hfits hmethod hold
          have hthis := hvalue _ hnew hinit
          unfold Bond.this? at hthis
          rw [hbound.receiver] at hthis
          cases hthis
          simp only [Monitor.expect, decide_true, if_true, pure_bind]
          exact .pure hobject

end

/-!
# The knot
-/

theorem runs_follow (l : Locals) (allowed : String → Prop) (n : Nat) :
    EvaluatesFollow l allowed (Eval.evaluate n) (Monitor.evaluate n) ∧
      ExecutesFollow l allowed (Eval.execute n) (Monitor.execute n) ∧
      CallsFollow l allowed (Eval.call n) (Monitor.call n) := by
  induction n with
  | zero =>
      refine ⟨?_, ?_, ?_⟩
      · intro sc bond Γ e _ _
        rw [Eval.evaluate, Monitor.evaluate]
        exact .throw .outOfFuel
      · intro sc bond inFunction Γ s _ _ _
        rw [Eval.execute, Monitor.execute]
        exact .throw .outOfFuel
      · intro sc f arguments _ _ _
        rw [Eval.call, Monitor.call]
        exact .throw .outOfFuel
  | succ n ih =>
      rcases ih with ⟨hevaluate, hexecute, hcall⟩
      refine ⟨?_, ?_, ?_⟩
      · intro sc bond Γ e hat halike
        rw [Eval.evaluate, Monitor.evaluate]
        exact follows_exprStep hevaluate hcall hat halike
      · intro sc bond inFunction Γ s hat halike hpermits
        rw [Eval.execute, Monitor.execute]
        exact follows_stmtStep hevaluate hexecute hat halike hpermits
      · intro sc f arguments hf harity harguments
        rw [Eval.call, Monitor.call]
        exact follows_callStep hexecute sc f arguments hf harity harguments

theorem follows_interpret (n : Nat) {program : List Stmt} (hhere : Here sc.stage [])
    (halike : AlikeStmts (anyTokens l) false [] program program)
    (hpermits : Permits allowed [] program) :
    Follows l allowed sc (Eval.interpret n program) (Monitor.interpret n program)
      fun _ completion => completion = .normal := by
  have hat : At sc {} [] := by
    constructor
    · exact hhere
    · have hcurrent : sc.machine.current = Machine.globals := hhere.1
      rw [hcurrent]
      exact .globals (hcurrent ▸ hhere.2)
  apply (follows_executeAll (runs_follow l allowed n).2.1 hat halike hpermits).imp
  intro sc₁ completion _ hreturns
  cases completion with
  | normal => rfl
  | returned value => cases (hreturns value rfl).1

end Lexical
end Lox
