import Lox.Proofs.Heap.Current
import Lox.Proofs.Return.Unwinding

/-!
# The way to a `return` statement

Statements return exactly if execution gets to a `return` statement in them, through
blocks, branches and rounds of loops, with everything on the way there completing
normally.  The way does not depend on what comes behind: on later statements, on the
next test of a loop, or on the increment of a counting loop.  The machine they leave is
the one on which the value was found, back in the environment at hand.

So a call of a function gives the value at the end of such a way, or `nil` if its body
completes normally; a call of an initialiser gives its receiver in both cases.
-/

namespace Lox

namespace Stmt

def inner? : Stmt → Option (List Stmt)
  | .block body => some body
  | .misfit (.node .block [body]) => body.items?.map Form.stmts
  | _ => none

def returned? : Stmt → Option (Option Expr)
  | .ret _ value => some value
  | .misfit (.node .ret [_, value]) => some (value.optional Form.expr)
  | _ => none

end Stmt

def Machine.enter (m : Machine) (outer : EnvId) (values : Bindings) : Machine :=
  { m with
    environments := m.environments.create (some outer) values
    current := m.environments.size }

namespace Eval

/-- What a statement executes next, and where; for a loop that is another round and the loop. -/
inductive Opens (n : Nat) : Stmt → Machine → List Stmt → Machine → Prop where
  | block {s : Stmt} {body : List Stmt} {m : Machine} :
      s.inner? = some body → Opens n s m body (m.enter m.current [])
  | thenBranch {condition : Expr} {thenBranch : Stmt} {elseBranch : Option Stmt} {test : Value}
      {m m₁ : Machine} :
      evaluate n condition m = .ok test m₁ → test.isTruthy = true →
      Opens n (.ifElse condition thenBranch elseBranch) m [thenBranch] m₁
  | elseBranch {condition : Expr} {thenBranch elseBranch : Stmt} {test : Value}
      {m m₁ : Machine} :
      evaluate n condition m = .ok test m₁ → test.isTruthy = false →
      Opens n (.ifElse condition thenBranch (some elseBranch)) m [elseBranch] m₁
  | round {condition : Expr} {body : Stmt} {test : Value} {m m₁ : Machine} :
      evaluate n condition m = .ok test m₁ → test.isTruthy = true →
      Opens n (.whileLoop condition body) m [body, .whileLoop condition body] m₁

/-- The way to a `return` statement, with its value and the machine on which that is found. -/
inductive Returns : Nat → List Stmt → Machine → Value → Machine → Prop where
  | here {n : Nat} {s : Stmt} {ss : List Stmt} {returned : Option Expr} {value : Value}
      {m m' : Machine} :
      s.returned? = some returned → optional (evaluate n) returned m = .ok value m' →
      Returns (n + 1) (s :: ss) m value m'
  | inside {n : Nat} {s : Stmt} {ss inner : List Stmt} {value : Value} {m m₁ m' : Machine} :
      Opens n s m inner m₁ → Returns n inner m₁ value m' → Returns (n + 1) (s :: ss) m value m'
  | behind {n : Nat} {s : Stmt} {ss : List Stmt} {value : Value} {m m₁ m' : Machine} :
      execute n s m = .ok .normal m₁ → Returns n ss m₁ value m' → Returns n (s :: ss) m value m'

/-!
# Sequences
-/

theorem seenFrom_eq_ok {result : EStateM.Result Stop Machine α} {e : EnvId} {value : α}
    {m' : Machine} (hseen : seenFrom e result = .ok value m') :
    ∃ m₁, result = .ok value m₁ ∧ m' = { m₁ with current := e } := by
  cases result with
  | ok value m₁ =>
      cases hseen
      exact ⟨m₁, rfl, rfl⟩
  | error stop m₁ => cases hseen

theorem executeAll_normal {execute : Stmt → Eval Completion} {s : Stmt} {ss : List Stmt}
    {m m₁ : Machine} (hs : execute s m = .ok .normal m₁) :
    executeAll execute (s :: ss) m = executeAll execute ss m₁ := bind_of_ok hs

theorem executeAll_returned {execute : Stmt → Eval Completion} {s : Stmt} {ss : List Stmt}
    {value : Value} {m m₁ : Machine} (hs : execute s m = .ok (.returned value) m₁) :
    executeAll execute (s :: ss) m = .ok (.returned value) m₁ := bind_of_ok hs

theorem current_executeAll_of_ok {n : Nat} {ss : List Stmt} {completion : Completion}
    {m m' : Machine} (hends : executeAll (execute n) ss m = .ok completion m') :
    m'.current = m.current := by
  induction ss generalizing m with
  | nil =>
      cases hends
      rfl
  | cons s ss ih =>
      rcases exists_of_bind_ok hends with ⟨first, m₁, hs, hrest⟩
      rw [← current_execute_of_ok hs]
      cases first with
      | normal => exact ih hrest
      | returned value =>
          cases hrest
          rfl

theorem executeAll_singleton (execute : Stmt → Eval Completion) (s : Stmt) :
    executeAll execute [s] = execute s := by
  apply Eq.trans (b := execute s >>= pure)
  · apply bind_congr
    intro completion
    cases completion with
    | normal => rfl
    | returned value => rfl
  · exact bind_pure _

/-!
# One statement
-/

theorem within_eq_seenFrom (e : EnvId) (p : Eval α) (m : Machine) :
    within e p m = seenFrom m.current (p { m with current := e }) := by
  unfold within
  cases p { m with current := e } with
  | ok value m' => rfl
  | error stop m' => rfl

theorem stmtStep_block {evaluate : Expr → Eval Value} {execute : Stmt → Eval Completion} {s : Stmt}
    {body : List Stmt} (hinner : s.inner? = some body) (m : Machine) :
    stmtStep evaluate execute s m =
      seenFrom m.current (executeAll execute body (m.enter m.current [])) := by
  unfold Stmt.inner? at hinner
  split at hinner
  · cases hinner
    exact within_eq_seenFrom _ _ _
  · next body =>
      cases hitems : body.items? with
      | none =>
          rw [hitems] at hinner
          cases hinner
      | some items =>
          rw [hitems] at hinner
          cases hinner
          rw [stmtStep, misfitStmt, hitems]
          exact within_eq_seenFrom _ _ _
  · cases hinner

theorem execute_returned {n : Nat} {s : Stmt} {returned : Option Expr}
    (hreturned : s.returned? = some returned) :
    execute (n + 1) s = optional (evaluate n) returned >>= fun value => pure (.returned value) := by
  rw [execute]
  unfold Stmt.returned? at hreturned
  split at hreturned
  · cases hreturned
    rfl
  · cases hreturned
    rfl
  · cases hreturned

theorem Opens.execute_ok_iff {n : Nat} {s : Stmt} {inner : List Stmt} {m m₁ : Machine}
    (hopens : Opens n s m inner m₁) (completion : Completion) (m' : Machine) :
    execute (n + 1) s m = .ok completion m' ↔
      ∃ m₂, executeAll (execute n) inner m₁ = .ok completion m₂ ∧
        m' = { m₂ with current := m.current } := by
  -- A test ends in the environment in which it began, so there is none to come back to.
  have hback : ∀ {condition : Expr} {test : Value}, evaluate n condition m = .ok test m₁ →
      execute (n + 1) s m = executeAll (execute n) inner m₁ →
      (execute (n + 1) s m = .ok completion m' ↔
        ∃ m₂, executeAll (execute n) inner m₁ = .ok completion m₂ ∧
          m' = { m₂ with current := m.current }) := by
    intro condition test htest hsame
    have hcurrent : ∀ {m₂}, executeAll (execute n) inner m₁ = .ok completion m₂ →
        { m₂ with current := m.current } = m₂ := by
      intro m₂ hends
      rw [← current_of_ok (restores_evaluate n condition) htest,
        ← current_executeAll_of_ok hends]
    rw [hsame]
    constructor
    · intro hends
      exact ⟨m', hends, (hcurrent hends).symm⟩
    · rintro ⟨m₂, hends, rfl⟩
      rw [hcurrent hends]
      exact hends
  cases hopens with
  | block hinner =>
      rw [execute, stmtStep_block hinner m]
      constructor
      · exact seenFrom_eq_ok
      · rintro ⟨m₂, hends, rfl⟩
        rw [hends]
        rfl
  | @thenBranch condition _ _ _ _ _ htest htruthy =>
      apply hback htest
      rw [execute, executeAll_singleton]
      show (evaluate n condition >>= _) m = _
      rw [bind_of_ok htest, if_pos htruthy]
  | elseBranch htest hfalsy =>
      apply hback htest
      rw [execute, executeAll_singleton, stmtStep, bind_of_ok htest,
        if_neg (Bool.not_eq_true _ ▸ hfalsy)]
  | @round condition body _ _ _ htest htruthy =>
      apply hback htest
      rw [execute, stmtStep, bind_of_ok htest, if_pos htruthy]
      apply congrFun
      apply bind_congr
      intro completion
      cases completion with
      | normal => exact (executeAll_singleton _ _).symm
      | returned value => rfl

def Passes (p : Eval Completion) : Prop := ∀ m value m', p m ≠ .ok (.returned value) m'

namespace Passes

theorem normal : Passes (pure .normal) := by
  intro m value m' hends
  cases hends

theorem defect (d : Defect) : Passes (Eval.defect d) := by
  intro m value m' hends
  cases hends

theorem bind {p : Eval α} {next : α → Eval Completion} (hnext : ∀ value, Passes (next value)) :
    Passes (p >>= next) := by
  intro m value m' hends
  rcases exists_of_bind_ok hends with ⟨first, m₁, _, hrest⟩
  exact hnext first m₁ value m' hrest

end Passes

theorem misfit_cases (evaluate : Expr → Eval Value) (execute : Stmt → Eval Completion)
    (form : Form) :
    (∃ returned, (Stmt.misfit form).returned? = some returned) ∨
      (∃ body, (Stmt.misfit form).inner? = some body) ∨
      Passes (misfitStmt evaluate execute form) := by
  unfold misfitStmt
  split
  · next body =>
      cases hitems : body.items? with
      | some items => exact Or.inr (Or.inl ⟨Form.stmts items, by simp [Stmt.inner?, hitems]⟩)
      | none => exact Or.inr (Or.inr (.defect _))
  · exact Or.inr (Or.inr (.bind fun _ => .normal))
  · next name params body =>
      cases name.token? with
      | some token =>
          exact Or.inr (Or.inr (.bind fun _ => .bind fun _ => .bind fun _ => .normal))
      | none => exact Or.inr (Or.inr (.defect _))
  · exact Or.inl ⟨_, rfl⟩
  · exact Or.inr (Or.inr (.bind fun _ => .defect _))
  · exact Or.inr (Or.inr (.defect _))

theorem returned_or_opens {n : Nat} {s : Stmt} {value : Value} {m m' : Machine}
    (hends : execute (n + 1) s m = .ok (.returned value) m') :
    (∃ returned, s.returned? = some returned) ∨ ∃ inner m₁, Opens n s m inner m₁ := by
  rw [execute] at hends
  have hpasses : ¬ Passes (stmtStep (evaluate n) (execute n) s) :=
    fun hpasses => hpasses m value m' hends
  cases s with
  | block body => exact Or.inr ⟨body, _, .block rfl⟩
  | ret keyword value => exact Or.inl ⟨value, rfl⟩
  | classDecl name parent methods => exact absurd (.bind fun _ => .normal) hpasses
  | expression inner => exact absurd (.bind fun _ => .normal) hpasses
  | funDecl f =>
      exact absurd (.bind fun _ => .bind fun _ => .bind fun _ => .normal) hpasses
  | print inner => exact absurd (.bind fun _ => .bind fun _ => .normal) hpasses
  | varDecl name initial => exact absurd (.bind fun _ => .bind fun _ => .normal) hpasses
  | ifElse condition thenBranch elseBranch =>
      rcases exists_of_bind_ok hends with ⟨test, m₁, htest, hnext⟩
      cases htruthy : test.isTruthy with
      | true => exact Or.inr ⟨_, m₁, .thenBranch htest htruthy⟩
      | false =>
          cases elseBranch with
          | some s => exact Or.inr ⟨_, m₁, .elseBranch htest htruthy⟩
          | none =>
              rw [htruthy] at hnext
              exact absurd hnext (Passes.normal _ _ _)
  | whileLoop condition body =>
      rcases exists_of_bind_ok hends with ⟨test, m₁, htest, hnext⟩
      cases htruthy : test.isTruthy with
      | true => exact Or.inr ⟨_, m₁, .round htest htruthy⟩
      | false =>
          rw [htruthy] at hnext
          exact absurd hnext (Passes.normal _ _ _)
  | misfit form =>
      rcases misfit_cases (evaluate n) (execute n) form with hreturned | ⟨body, hinner⟩ | hform
      · exact Or.inl hreturned
      · exact Or.inr ⟨body, _, .block hinner⟩
      · exact absurd hform hpasses

/-!
# Whole runs
-/

theorem optional_current {n : Nat} {returned : Option Expr} {value : Value} {m m' : Machine}
    (hvalue : optional (evaluate n) returned m = .ok value m') :
    { m' with current := m.current } = m' := by
  have hcurrent : m'.current = m.current := by
    cases returned with
    | none =>
        cases hvalue
        rfl
    | some e =>
        change evaluate n e m = _ at hvalue
        exact current_of_ok (restores_evaluate n e) hvalue
  rw [← hcurrent]

theorem Returns.executeAll_eq {n : Nat} {ss : List Stmt} {value : Value} {m m' : Machine}
    (hreturns : Returns n ss m value m') :
    executeAll (execute n) ss m = .ok (.returned value) { m' with current := m.current } := by
  induction hreturns with
  | here hreturned hvalue =>
      apply executeAll_returned
      rw [execute_returned hreturned, bind_of_ok hvalue, optional_current hvalue]
      rfl
  | inside hopens _ ih =>
      apply executeAll_returned
      exact (hopens.execute_ok_iff _ _).mpr ⟨_, ih, rfl⟩
  | @behind n s _ _ m m₁ _ hs _ ih =>
      rw [executeAll_normal hs, ih, current_execute_of_ok hs]

/-- Statements that return have a way to a `return` statement in them. -/
theorem exists_returns {n : Nat} {ss : List Stmt} {value : Value} {m m' : Machine}
    (hends : executeAll (execute n) ss m = .ok (.returned value) m') :
    ∃ m₁, Returns n ss m value m₁ := by
  -- What a statement opens has less depth left; what stands behind it is a shorter list.
  induction n generalizing ss m m' with
  | zero =>
      cases ss with
      | nil => cases hends
      | cons s ss =>
          rcases exists_of_bind_ok hends with ⟨completion, m₁, hs, _⟩
          rw [execute] at hs
          cases hs
  | succ n ih =>
      induction ss generalizing m with
      | nil => cases hends
      | cons s ss ihTail =>
          rcases exists_of_bind_ok hends with ⟨completion, m₁, hs, hrest⟩
          cases completion with
          | normal =>
              rcases ihTail hrest with ⟨m₂, hreturns⟩
              exact ⟨m₂, .behind hs hreturns⟩
          | returned first =>
              cases hrest
              rcases returned_or_opens hs with ⟨returned, hreturned⟩ | ⟨inner, m₂, hopens⟩
              · rw [execute_returned hreturned] at hs
                rcases exists_of_bind_ok hs with ⟨value, m₂, hvalue, hsame⟩
                cases hsame
                exact ⟨_, .here hreturned hvalue⟩
              · rcases (hopens.execute_ok_iff _ _).mp hs with ⟨m₃, hinner, _⟩
                rcases ih hinner with ⟨m₄, hreturns⟩
                exact ⟨m₄, .inside hopens hreturns⟩

theorem executeAll_returned_iff (n : Nat) (ss : List Stmt) (m : Machine) (value : Value)
    (m' : Machine) :
    executeAll (execute n) ss m = .ok (.returned value) m' ↔
      ∃ m₁, Returns n ss m value m₁ ∧ m' = { m₁ with current := m.current } := by
  constructor
  · intro hends
    rcases exists_returns hends with ⟨m₁, hreturns⟩
    rw [hreturns.executeAll_eq] at hends
    cases hends
    exact ⟨m₁, hreturns, rfl⟩
  · rintro ⟨m₁, hreturns, rfl⟩
    exact hreturns.executeAll_eq

/-!
# Calls
-/

/-- How the body of a function ends, on a machine in the environment of its parameters. -/
inductive Gives (n : Nat) (closure : Closure) (m : Machine) : Value → Machine → Prop where
  | nothing {m' : Machine} :
      closure.isInitialiser = false →
      executeAll (execute n) closure.function.body m = .ok .normal m' →
      Gives n closure m .nil m'
  | value {value : Value} {m' : Machine} :
      closure.isInitialiser = false → Returns n closure.function.body m value m' →
      Gives n closure m value m'
  | receiver {completion : Completion} {value : Value} {m' : Machine} :
      closure.isInitialiser = true →
      executeAll (execute n) closure.function.body m = .ok completion m' →
      m'.environments.getAt closure.env 0 "this" = .ok value →
      Gives n closure m value m'

theorem callFunction_ok_iff {n : Nat} {f : FunctionId} {closure : Closure} {m : Machine}
    (hclosure : m.functions[f]? = some closure) (arguments : List Value) (value : Value)
    (m' : Machine) :
    callFunction (execute n) f arguments m = .ok value m' ↔
      ∃ completion m₁, executeAll (execute n) closure.function.body
          (m.enter closure.env (parameters closure.function.params arguments)) =
            .ok completion m₁ ∧
        callResult closure completion { m₁ with current := m.current } = .ok value m' := by
  let m₀ : Machine := { m with
    environments := m.environments.create (some closure.env)
      (parameters closure.function.params arguments) }
  have hcall : callFunction (execute n) f arguments m =
      (executeBlock (execute n) closure.function.body m.environments.size >>=
        callResult closure) m₀ := by
    unfold callFunction
    rw [get_bind, hclosure]
    rfl
  have hblock : executeBlock (execute n) closure.function.body m.environments.size m₀ =
      seenFrom m.current (executeAll (execute n) closure.function.body
        (m.enter closure.env (parameters closure.function.params arguments))) :=
    within_eq_seenFrom _ _ _
  rw [hcall]
  constructor
  · intro hends
    rcases exists_of_bind_ok hends with ⟨completion, m₁, hinside, hresult⟩
    rcases seenFrom_eq_ok (hblock.symm.trans hinside) with ⟨m₂, hbody, rfl⟩
    exact ⟨completion, m₂, hbody, hresult⟩
  · rintro ⟨completion, m₁, hbody, hresult⟩
    rw [hbody] at hblock
    rw [bind_of_ok hblock]
    exact hresult

def valueOf : Completion → Value
  | .normal => .nil
  | .returned value => value

theorem callResult_of_initialiser {closure : Closure} (hinit : closure.isInitialiser = true)
    (completion : Completion) (m : Machine) :
    callResult closure completion m = ofLookup (m.environments.getAt closure.env 0 "this") m := by
  unfold callResult
  rw [if_pos hinit]
  rfl

theorem callResult_of_not_initialiser {closure : Closure} (hinit : closure.isInitialiser = false)
    (completion : Completion) (m : Machine) :
    callResult closure completion m = .ok (valueOf completion) m := by
  unfold callResult
  rw [if_neg (Bool.not_eq_true _ ▸ hinit)]
  cases completion with
  | normal => rfl
  | returned value => rfl

theorem call_function_iff {n : Nat} {f : FunctionId} {closure : Closure} {m : Machine}
    (hclosure : m.functions[f]? = some closure) (arguments : List Value) (value : Value)
    (m' : Machine) :
    call (n + 1) (.function f) arguments m = .ok value m' ↔
      ∃ m₁, Gives n closure
          (m.enter closure.env (parameters closure.function.params arguments)) value m₁ ∧
        m' = { m₁ with current := m.current } := by
  rw [call]
  show callFunction (execute n) f arguments m = _ ↔ _
  rw [callFunction_ok_iff hclosure]
  constructor
  · rintro ⟨completion, m₁, hbody, hresult⟩
    cases hinit : closure.isInitialiser with
    | true =>
        rw [callResult_of_initialiser hinit] at hresult
        cases hthis : m₁.environments.getAt closure.env 0 "this" with
        | error fault =>
            simp only [hthis] at hresult
            cases hresult
        | ok receiver =>
            simp only [hthis] at hresult
            cases hresult
            exact ⟨m₁, .receiver hinit hbody hthis, rfl⟩
    | false =>
        rw [callResult_of_not_initialiser hinit] at hresult
        cases completion with
        | normal =>
            cases hresult
            exact ⟨m₁, .nothing hinit hbody, rfl⟩
        | returned result =>
            cases hresult
            rcases (executeAll_returned_iff _ _ _ _ _).mp hbody with ⟨m₂, hreturns, rfl⟩
            exact ⟨m₂, .value hinit hreturns, rfl⟩
  · rintro ⟨m₁, hgives, rfl⟩
    cases hgives with
    | nothing hinit hbody =>
        refine ⟨.normal, m₁, hbody, ?_⟩
        exact callResult_of_not_initialiser hinit _ _
    | value hinit hreturns =>
        refine ⟨.returned value, _, hreturns.executeAll_eq, ?_⟩
        exact callResult_of_not_initialiser hinit _ _
    | @receiver completion _ _ hinit hbody hthis =>
        refine ⟨completion, m₁, hbody, ?_⟩
        rw [callResult_of_initialiser hinit]
        simp only [hthis]
        rfl

/-- A call of a class gives the instance it makes, however the initialiser returned. -/
theorem call_class {n : Nat} {c : ClassId} {arguments : List Value} {value : Value}
    {m m' : Machine} (hends : call n (.cls c) arguments m = .ok value m') :
    value = .object m.instances.size := by
  cases n with
  | zero =>
      rw [call] at hends
      cases hends
  | succ n =>
      rw [call] at hends
      rcases exists_of_bind_ok hends with ⟨i, m₁, hinstance, hrest⟩
      cases hinstance
      rcases exists_of_bind_ok hrest with ⟨m₂, m₃, _, hfound⟩
      cases hmethod : m₂.findMethod c initName with
      | none =>
          rw [hmethod] at hfound
          cases hfound
          rfl
      | some f =>
          rw [hmethod] at hfound
          rcases exists_of_bind_ok hfound with ⟨_, _, _, hcall⟩
          rcases exists_of_bind_ok hcall with ⟨_, _, _, hvalue⟩
          cases hvalue
          rfl

/-- Binding a method makes a function whose environment holds the receiver. -/
theorem bindMethod_receiver {f : FunctionId} {closure : Closure} {m : Machine}
    (hclosure : m.functions[f]? = some closure) (receiver : Value) :
    ∃ bound m', bindMethod f receiver m = .ok bound m' ∧
      ∃ e, m'.functions[bound]? = some { closure with env := e } ∧
        m'.environments.getAt e 0 "this" = .ok receiver := by
  let e := m.environments.size
  let bound := { closure with env := e }
  let m' : Machine := { m with
    environments := m.environments.create (some closure.env) [("this", receiver)]
    functions := m.functions.push bound }
  have hbind : bindMethod f receiver m = .ok m.functions.size m' := by
    unfold bindMethod
    rw [get_bind, hclosure]
    rfl
  refine ⟨m.functions.size, m', hbind, e, ?_, ?_⟩
  · exact Array.getElem?_push_size
  · have hvalue : (m'.environments.values e).get? "this" = some receiver := by
      show Bindings.get? (Environments.values (m.environments.create _ _) m.environments.size) _ = _
      rw [Environments.values_create, if_pos rfl]
      rfl
    exact Environments.getAt_of_place rfl hvalue

/-!
# The two ways of execution
-/

/--
Returning is leaving the call around at once.  From every machine, expressions, calls,
statements and programs do the same as under unwinding, with the same machine at the end and
the same stop if there is one; a program that a `return` statement ends, ends quietly, and a
session does not notice.

Statements return exactly if there is a way to a `return` statement in them, and they leave the
machine on which its value was found, so nothing behind it is executed or tested.  A call of a
function gives the value at the end of the way, `nil` if the body completes normally, and the
receiver if the function is an initialiser, which is in the environment that binding made.  A
call of a class gives the instance.
-/
theorem return_unwinds (n : Nat) (m : Machine) :
    (∀ e, Unwinding.evaluate n e m = evaluate n e m) ∧
      (∀ f arguments, Unwinding.call n f arguments m = call n f arguments m) ∧
      (∀ s, Unwinding.execute n s m = Unwinding.outcome (execute n s m)) ∧
      (∀ program, Unwinding.interpret n program m = (interpret n program >>= fun _ => pure ()) m) ∧
      (∀ (s : Session) program, s.execute n program =
        s.perform (Unwinding.interpret n program >>= fun _ => pure .normal)) ∧
      (∀ ss value m', executeAll (execute n) ss m = .ok (.returned value) m' ↔
        ∃ m₁, Returns n ss m value m₁ ∧ m' = { m₁ with current := m.current }) ∧
      (∀ f closure, m.functions[f]? = some closure →
        (∀ arguments value m', call (n + 1) (.function f) arguments m = .ok value m' ↔
          ∃ m₁, Gives n closure
              (m.enter closure.env (parameters closure.function.params arguments)) value m₁ ∧
            m' = { m₁ with current := m.current }) ∧
        ∀ receiver, ∃ bound m', bindMethod f receiver m = .ok bound m' ∧
          ∃ e, m'.functions[bound]? = some { closure with env := e } ∧
            m'.environments.getAt e 0 "this" = .ok receiver) ∧
      ∀ c arguments value m', call n (.cls c) arguments m = .ok value m' →
        value = .object m.instances.size := by
  rcases Unwinding.agrees_evaluation n with ⟨hevaluate, hexecute, hcall⟩
  constructor
  · exact fun e => congrFun (hevaluate e) m
  constructor
  · exact fun f arguments => congrFun (hcall f arguments) m
  constructor
  · exact fun s => hexecute s m
  constructor
  · exact fun program => congrFun (Unwinding.interpret_eq n program) m
  constructor
  · exact fun s program => Unwinding.execute_eq_perform s n program
  constructor
  · exact fun ss value m' => executeAll_returned_iff n ss m value m'
  constructor
  · intro f closure hclosure
    constructor
    · exact fun arguments value m' => call_function_iff hclosure arguments value m'
    · exact fun receiver => bindMethod_receiver hclosure receiver
  · exact fun c arguments value m' hends => call_class hends

/-- The function returns out of a block in a branch in two loops, before anything is printed. -/
theorem return_unwinds_nested :
    let s := (Session.start (steadyClock 0)).run 20
      "fun f(x) { for (;; g()) { while (true) { if (x) { return x; } } print x; } }"
    ∃ closure m', s.machine.functions[0]? = some closure ∧ m'.output = #[] ∧
      Gives 20 closure
        (s.machine.enter closure.env (parameters closure.function.params [.bool true]))
        (.bool true) m' := by
  intro s
  have hclosure : (s.machine.functions[0]?).isSome = true := by decide +kernel
  rcases Option.isSome_iff_exists.mp hclosure with ⟨closure, hclosure⟩
  have hvalue : EStateM.run' (call 21 (.function 0) [.bool true]) s.machine =
      some (.bool true) := by
    decide +kernel
  have houtput : (state (call 21 (.function 0) [.bool true] s.machine)).output = #[] := by
    decide +kernel
  unfold EStateM.run' EStateM.run at hvalue
  cases hcall : call 21 (.function 0) [.bool true] s.machine with
  | error stop m' =>
      rw [hcall] at hvalue
      cases hvalue
  | ok value m' =>
      rw [hcall] at hvalue houtput
      cases hvalue
      have hways := (return_unwinds 20 s.machine).2.2.2.2.2.2.1 0 closure hclosure
      rcases (hways.1 _ _ _).mp hcall with ⟨m₁, hgives, rfl⟩
      exact ⟨closure, m₁, hclosure, houtput, hgives⟩

end Eval
end Lox
