import Lox.Proofs.Lexical.Statement
import Lox.Proofs.Lexical.Watch

/-!
# Alike programs run alike

Alike functions are called alike, and so the knot can be tied: by induction on
the bound on the depth of evaluation, alike programs that start from related
machines end in the same way, without a defect, and leave related machines.
-/

namespace Lox
namespace Lexical

open Environments (getAt_of_place)

variable {sides : Sides} {st : Stage} {Γ : List Frame}

/-!
# Parameters
-/

section

variable {naming : Naming} {params params' : List Token} {arguments : List Value}

def bindParameters (bindings : Bindings) (params : List Token) (arguments : List Value) :
    Bindings :=
  (params.zip arguments).foldl
    (fun bindings (param, argument) => bindings.insert param.lexeme argument) bindings

theorem alike_bindParameters {bindings bindings' : Bindings}
    (hbindings : AlikeBindings naming bindings bindings')
    (hparams : List.Forall₂ (fun p p' => naming.pairs p.lexeme p'.lexeme) params params') :
    AlikeBindings naming (bindParameters bindings params arguments)
      (bindParameters bindings' params' arguments) := by
  induction hparams generalizing bindings bindings' arguments with
  | nil => exact hbindings
  | cons hparam _ ih =>
      cases arguments with
      | nil => exact hbindings
      | cons argument arguments => exact ih (hbindings.insert hparam argument)

theorem sound_bindParameters {bindings : Bindings}
    (hbindings : ∀ entry ∈ bindings, Sound sides st entry.2)
    (harguments : ∀ value ∈ arguments, Sound sides st value) :
    ∀ entry ∈ bindParameters bindings params arguments, Sound sides st entry.2 := by
  induction params generalizing bindings arguments with
  | nil => exact hbindings
  | cons param params ih =>
      cases arguments with
      | nil => exact hbindings
      | cons argument arguments =>
          refine ih ?_ fun value hvalue => harguments value (List.mem_cons_of_mem _ hvalue)
          intro entry hentry
          rcases Bindings.mem_insert hentry with rfl | hentry
          · exact harguments argument List.mem_cons_self
          · exact hbindings entry hentry

theorem binds_bindParameters {bindings : Bindings} {name : String}
    (hlength : arguments.length = params.length)
    (hname : bindings.binds name = true ∨ name ∈ params.map Token.lexeme) :
    (bindParameters bindings params arguments).binds name = true := by
  induction params generalizing bindings arguments with
  | nil =>
      rcases hname with hname | hname
      · exact hname
      · cases hname
  | cons param params ih =>
      cases arguments with
      | nil => cases hlength
      | cons argument arguments =>
          refine ih (Nat.succ.inj hlength) ?_
          rw [Bindings.binds_insert]
          rw [List.map_cons, List.mem_cons] at hname
          rcases hname with hbound | heq | hlater
          · exact Or.inl (Or.inr hbound)
          · exact Or.inl (Or.inl heq)
          · exact Or.inr hlater

end

/-!
# Calls
-/

theorem agree_callResult {closure closure' : Closure} {completion : Completion}
    (halike : AlikeClosure sides st false closure closure')
    (hreturns : Returns sides true st completion) :
    Agree sides st (Eval.callResult closure completion) (Eval.callResult closure' completion)
      (Sound sides) := by
  unfold Eval.callResult
  rw [halike.isInitialiser, halike.env]
  by_cases hinit : closure.isInitialiser = true
  · rw [if_pos hinit]
    apply Agree.get
    intro hrelated
    rcases halike.body with ⟨Γ, hchain, _⟩
    rcases get?_this hrelated hchain.lt_size (halike.receiver rfl hinit) with
      ⟨value, hleft, hright, hsound⟩
    exact agree_ofLookup (getAt_of_place rfl hleft) (getAt_of_place rfl hright) hsound
  · rw [if_neg hinit]
    cases completion with
    | normal => exact Agree.pure (sound_of_not_function fun _ => Value.noConfusion)
    | returned value => exact Agree.pure (hreturns value rfl).2

theorem agree_callFunction {execute execute' : Stmt → Eval Completion}
    (hexecute : ExecutesAlike sides execute execute') {f : FunctionId} {arguments : List Value}
    (hf : AlikeId sides st false f)
    (harity : st.left.functionArity f = .ok arguments.length)
    (harguments : ∀ value ∈ arguments, Sound sides st value) :
    Agree sides st (Eval.callFunction execute f arguments)
      (Eval.callFunction execute' f arguments) (Sound sides) := by
  rcases hf with ⟨closure, closure', hleft, hright, halike⟩
  rcases halike.body with ⟨Γ, hchain, hfunction⟩
  unfold Machine.functionArity at harity
  simp only [hleft, halike.flaw] at harity
  injection harity with hlength
  apply Agree.get
  intro hrelated
  simp only [hleft, hright]
  rw [halike.env]
  generalize hbody : closure.function = function at hfunction hlength
  generalize hbody' : closure'.function = function' at hfunction
  cases hfunction with
  | @mk _ name name' naming params params' body body' _ hparams hstmts =>
      have hvalues : AlikeEnvironment sides st
          ⟨Eval.parameters params arguments, some closure.env⟩
          ⟨Eval.parameters params' arguments, some closure.env⟩ (.names naming) :=
        ⟨alike_bindParameters .nil hparams,
          sound_bindParameters (fun entry hentry => by cases hentry) harguments⟩
      refine Agree.bind (agree_newEnvironment hvalues) ?_
      rintro _ _ hgrows₁ ⟨rfl, rfl⟩
      have hinside := chain_create (.names naming (· ∈ params.map Token.lexeme))
        (Eval.parameters params arguments) (Eval.parameters params' arguments) hchain
        (fun name hname => binds_bindParameters hlength.symm (Or.inr hname))
      refine Agree.bind (agree_executeBlock hexecute hinside hstmts) ?_
      intro st₂ completion hgrows₂ hreturns
      exact agree_callResult (halike.mono (hgrows₁.trans hgrows₂).toExtends) hreturns

theorem agree_callStep {execute execute' : Stmt → Eval Completion}
    (hexecute : ExecutesAlike sides execute execute') :
    CallsAlike sides (Eval.callStep execute) (Eval.callStep execute') := by
  intro st f arguments hf harity harguments
  cases f with
  | native id => exact agree_callNative id harguments
  | function f => exact agree_callFunction hexecute hf harity harguments
  | cls c =>
      refine Agree.bind (agree_newInstance c) ?_
      rintro _ i hgrows₁ rfl
      have hobject : ∀ {st₁ : Stage}, Sound sides st₁ (.object i) :=
        sound_of_not_function fun _ => Value.noConfusion
      apply Agree.get
      intro hrelated
      rw [Machine.findMethod_congr hrelated.classes]
      unfold Machine.arity at harity
      have hclasses : (st.addInstance c).left.classes = st.left.classes := rfl
      have hsame := Machine.findMethod_congr hclasses c initName
      rw [hsame]
      cases hmethod : st.left.findMethod c initName with
      | none => exact Agree.pure hobject
      | some f =>
          simp only [hmethod] at harity
          rw [hmethod] at hsame
          have hf₁ := alikeId_of_findMethod hrelated hsame
          refine Agree.bind (agree_bindMethod hf₁ hobject) ?_
          rintro st₂ bound hgrows₂ ⟨hbound, hboundArity⟩
          have hextends := (hgrows₁.trans hgrows₂).toExtends
          refine Agree.bind (agree_callFunction hexecute hbound (hboundArity.trans harity)
            fun value hvalue => (harguments value hvalue).mono hextends) ?_
          intro st₃ _ _ _
          exact Agree.pure hobject

/-!
# The knot
-/

section

variable {watch watch' : Expr → Eval Unit}

def WatchesAlike (sides : Sides) (watch watch' : Expr → Eval Unit) : Prop :=
  ∀ (st : Stage) (Γ : List Frame) (e e' : Expr), Here st Γ → AlikeExpr sides Γ e e' →
    Agree sides st (watch e) (watch' e') fun _ _ => True

theorem runs_alike (hwatch : WatchesAlike sides watch watch') (n : Nat) :
    EvaluatesAlike sides (Eval.evaluateWith watch n) (Eval.evaluateWith watch' n) ∧
      ExecutesAlike sides (Eval.executeWith watch n) (Eval.executeWith watch' n) ∧
      CallsAlike sides (Eval.callWith watch n) (Eval.callWith watch' n) := by
  induction n with
  | zero =>
      refine ⟨?_, ?_, ?_⟩
      · intro st Γ e e' _ _
        rw [Eval.evaluateWith, Eval.evaluateWith]
        exact Agree.throw_outOfFuel
      · intro st inFunction Γ s s' _ _
        rw [Eval.executeWith, Eval.executeWith]
        exact Agree.throw_outOfFuel
      · intro st f arguments _ _ _
        rw [Eval.callWith, Eval.callWith]
        exact Agree.throw_outOfFuel
  | succ n ih =>
      rcases ih with ⟨hevaluate, hexecute, hcall⟩
      refine ⟨?_, ?_, ?_⟩
      · intro st Γ e e' hhere halike
        rw [Eval.evaluateWith, Eval.evaluateWith]
        refine Agree.bind (hwatch st Γ e e' hhere halike) ?_
        intro st₁ _ hgrows _
        exact agree_exprStep hevaluate hcall (hhere.mono hgrows) halike
      · intro st inFunction Γ s s' hhere halike
        rw [Eval.executeWith, Eval.executeWith]
        exact agree_stmtStep hevaluate hexecute hhere halike
      · intro st f arguments hf harity harguments
        rw [Eval.callWith, Eval.callWith]
        exact agree_callStep hexecute st f arguments hf harity harguments

/-- Alike programs at the top level end alike, and not with a `return`. -/
theorem agree_interpretWith (hwatch : WatchesAlike sides watch watch') (n : Nat)
    {program program' : List Stmt} (hhere : Here st [])
    (halike : AlikeStmts sides false [] program program') :
    Agree sides st (Eval.interpretWith watch n program) (Eval.interpretWith watch' n program')
      fun _ completion => completion = .normal := by
  refine (agree_executeAll (runs_alike hwatch n).2.1 hhere halike).imp ?_
  intro st₁ completion _ hreturns
  cases completion with
  | normal => rfl
  | returned value => cases (hreturns value rfl).1

theorem agree_interpret (n : Nat) {program program' : List Stmt} (hhere : Here st [])
    (halike : AlikeStmts sides false [] program program') :
    Agree sides st (Eval.interpret n program) (Eval.interpret n program')
      fun _ completion => completion = .normal := by
  have hwatch : WatchesAlike sides (fun _ => pure ()) (fun _ => pure ()) :=
    fun _ _ _ _ _ _ => Agree.pure trivial
  rw [← Eval.interpretWith_pure, ← Eval.interpretWith_pure]
  exact agree_interpretWith hwatch n hhere halike

end

/-!
# The names of alike expressions are bound
-/

theorem bindsAt_of_getAt {s : Environments} {e : EnvId} {depth : Nat} {name : String}
    {value : Value} (hvalue : s.getAt e depth name = .ok value) :
    s.bindsAt e depth name = true := by
  unfold Environments.getAt at hvalue
  unfold Environments.bindsAt
  cases hplace : s.place e depth with
  | error fault =>
      rw [hplace] at hvalue
      cases hvalue
  | ok target =>
      simp only [hplace] at hvalue
      cases hfound : (s.values target).get? name with
      | none =>
          rw [hfound] at hvalue
          cases hvalue
      | some found =>
          simp only [Bindings.binds, hfound]
          rfl

theorem namesBound_of_alike {e e' : Expr} (hrelated : Related sides st) (hhere : Here st Γ)
    (halike : AlikeExpr sides Γ e e') :
    Eval.namesBound st.left e = true ∧ Eval.namesBound st.right e' = true := by
  have hcurrent := hrelated.current
  cases halike with
  | var hrefers =>
      rw [Eval.namesBound, Eval.namesBound]
      cases hrefers with
      | global hsees hsees' hlexeme hname =>
          rw [(hrelated.sees hsees).depth?_eq, (hrelated.sees' hsees').depth?_eq]
          exact ⟨rfl, rfl⟩
      | «local» hsees hsees' hframe hname hbound =>
          rw [(hrelated.sees hsees).depth?_eq, (hrelated.sees' hsees').depth?_eq]
          rcases getAt_of_names hrelated hhere hframe hname (hbound rfl) with
            ⟨value, hleft, hright, _⟩
          rw [← hcurrent] at hright
          exact ⟨bindsAt_of_getAt hleft, bindsAt_of_getAt hright⟩
  | thisRef hsees hsees' hkeyword hkeyword' _ hframe =>
      rw [Eval.namesBound, Eval.namesBound]
      rw [(hrelated.sees hsees).depth?_eq, (hrelated.sees' hsees').depth?_eq]
      rcases getAt_of_this hrelated hhere hframe with ⟨value, hleft, hright, _⟩
      rw [← hcurrent] at hright
      rw [← hkeyword] at hleft
      rw [← hkeyword'] at hright
      exact ⟨bindsAt_of_getAt hleft, bindsAt_of_getAt hright⟩
  | superRef hsees hsees' _ hthis hsuper hmethod =>
      rw [Eval.namesBound, Eval.namesBound]
      rw [(hrelated.sees hsees).depth?_eq, (hrelated.sees' hsees').depth?_eq]
      rcases getAt_of_this hrelated hhere hthis with ⟨value, hleft, hright, _⟩
      rcases getAt_of_super hrelated hhere hsuper with ⟨c, hleft', hright'⟩
      rw [← hcurrent] at hright hright'
      simp only [Bool.and_eq_true]
      exact ⟨⟨bindsAt_of_getAt hleft', bindsAt_of_getAt hleft⟩,
        bindsAt_of_getAt hright', bindsAt_of_getAt hright⟩
  | _ => exact ⟨rfl, rfl⟩

theorem watchesAlike_watchNames : WatchesAlike sides Eval.watchNames Eval.watchNames := by
  intro st Γ e e' hhere halike
  apply Agree.get
  intro hrelated
  rcases namesBound_of_alike hrelated hhere halike with ⟨hleft, hright⟩
  rw [hleft, hright]
  exact Agree.pure trivial

end Lexical
end Lox
