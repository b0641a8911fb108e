import Lox.Proofs.Evaluate.Class
import Lox.Proofs.Grammar.WellFormed
import Lox.Proofs.Session.Steps

/-!
# The environment at hand

Whatever is evaluated, and however it ends, the environment at hand is the same
afterwards.  Blocks and calls put it aside and take it back.  A class declaration
goes to the environment of its methods and comes back along the link, so it has
to get there: what stands in the place of a method must not fail.  Functions do
not, and misfits are asked about only where no block is around them.

A call does not depend on the environment at hand: from two environments it gives
the same and does the same to everything else.
-/

namespace Lox
namespace Eval

/-!
# Calls from other environments
-/

/-- How a computation ends, seen from another environment. -/
def seenFrom (e : EnvId) : EStateM.Result Stop Machine α → EStateM.Result Stop Machine α
  | .ok value m => .ok value { m with current := e }
  | .error stop m => .error stop { m with current := e }

def Blind (p : Eval α) : Prop :=
  ∀ (m : Machine) (e : EnvId), p { m with current := e } = seenFrom e (p m)

namespace Blind

theorem pure (value : α) : Blind (Pure.pure value) := fun _ _ => rfl

theorem bind {p : Eval α} {next : α → Eval β} (hp : Blind p) (hnext : ∀ value, Blind (next value)) :
    Blind (p >>= next) := by
  intro m e
  show EStateM.bind p next { m with current := e } = seenFrom e (EStateM.bind p next m)
  unfold EStateM.bind
  rw [hp m e]
  cases p m with
  | error stop m' => rfl
  | ok value m' => exact hnext value m' e

/-- What is looked at in the machine does not depend on the environment at hand. -/
theorem afterGet {next : Machine → Eval α} (hnext : ∀ m, Blind (next m))
    (hsame : ∀ (m : Machine) (e : EnvId), next { m with current := e } = next m) :
    Blind (MonadState.get >>= next) := by
  intro m e
  show next { m with current := e } { m with current := e } = seenFrom e (next m m)
  rw [hsame m e]
  exact hnext m m e

theorem within (inner : EnvId) (p : Eval α) : Blind (Eval.within inner p) := by
  intro m e
  show (Eval.within inner p { m with current := e }) = seenFrom e (Eval.within inner p m)
  unfold Eval.within
  simp only
  cases p { m with current := inner } with
  | ok value m' => rfl
  | error stop m' => rfl

theorem onHeap (p : EStateM Stop Heap α) : Blind (Eval.onHeap p) := by
  intro m e
  unfold Eval.onHeap
  dsimp only
  cases p m.toHeap with
  | ok value heap => rfl
  | error stop heap => rfl

theorem ofLookup (found : Except LookupFault α) : Blind (Eval.ofLookup found) := by
  cases found with
  | ok value => exact pure value
  | error fault => exact fun _ _ => rfl

end Blind

theorem blind_bindMethod (f : FunctionId) (receiver : Value) : Blind (bindMethod f receiver) := by
  apply Blind.afterGet
  · intro m
    split
    · exact .pure _
    · apply Blind.bind fun _ _ => rfl
      intro e
      exact fun _ _ => rfl
  · exact fun _ _ => rfl

theorem blind_callResult (closure : Closure) (completion : Completion) :
    Blind (callResult closure completion) := by
  unfold callResult
  split
  · apply Blind.afterGet
    · exact fun _ => .ofLookup _
    · exact fun _ _ => rfl
  · cases completion with
    | returned value => exact .pure value
    | normal => exact .pure Value.nil

theorem blind_callFunction (execute : Stmt → Eval Completion) (f : FunctionId)
    (arguments : List Value) : Blind (callFunction execute f arguments) := by
  apply Blind.afterGet
  · intro m
    split
    · exact .pure _
    · apply Blind.bind fun _ _ => rfl
      intro e
      apply (Blind.within e _).bind
      intro completion
      exact blind_callResult _ completion
  · exact fun _ _ => rfl

theorem blind_callNative (id : NativeId) (arguments : List Value) :
    Blind (callNative id arguments) := by
  apply Blind.afterGet
  · intro m
    split
    · exact .pure _
    · exact .onHeap _
  · exact fun _ _ => rfl

theorem blind_callStep (execute : Stmt → Eval Completion) (f : Callable)
    (arguments : List Value) : Blind (callStep execute f arguments) := by
  cases f with
  | native id => exact blind_callNative id arguments
  | function f => exact blind_callFunction execute f arguments
  | cls c =>
      apply Blind.bind fun _ _ => rfl
      intro i
      apply Blind.afterGet
      · intro m
        split
        · exact .pure _
        · apply (blind_bindMethod _ _).bind
          intro f
          apply (blind_callFunction execute f arguments).bind
          intro _
          exact .pure _
      · intro m e
        have hclasses : { m with current := e }.classes = m.classes := rfl
        rw [Machine.findMethod_congr hclasses]

theorem blind_call (n : Nat) (f : Callable) (arguments : List Value) :
    Blind (call n f arguments) := by
  cases n with
  | zero =>
      rw [call]
      exact fun _ _ => rfl
  | succ n =>
      rw [call]
      exact blind_callStep (execute n) f arguments

/-!
# Coming back
-/

/-- A computation that comes back to the environment at hand, however it ends. -/
def Restores (p : Eval α) : Prop := ∀ m, (state (p m)).current = m.current

theorem Blind.restores {p : Eval α} (hp : Blind p) : Restores p := by
  intro m
  have hsame := hp m m.current
  show (state (p { m with current := m.current })).current = m.current
  rw [hsame]
  cases p m with
  | ok value m' => rfl
  | error stop m' => rfl

namespace Restores

theorem pure (value : α) : Restores (Pure.pure value) := fun _ => rfl

theorem throw (stop : Stop) : Restores (MonadExcept.throw stop : Eval α) := fun _ => rfl

theorem fail (token : Token) (cause : RuntimeCause) : Restores (Eval.fail token cause : Eval α) :=
  throw _

theorem defect (d : Defect) : Restores (Eval.defect d : Eval α) := throw _

theorem bind {p : Eval α} {next : α → Eval β} (hp : Restores p)
    (hnext : ∀ value, Restores (next value)) : Restores (p >>= next) := by
  intro m
  have hm := hp m
  show (state (EStateM.bind p next m)).current = m.current
  unfold EStateM.bind
  cases hresult : p m with
  | error stop m₁ =>
      rw [hresult] at hm
      exact hm
  | ok value m₁ =>
      rw [hresult] at hm
      exact (hnext value m₁).trans hm

theorem afterGet {next : Machine → Eval α} (hnext : ∀ m, Restores (next m)) :
    Restores (MonadState.get >>= next) := fun m => hnext m m

theorem map {p : Eval α} (hp : Restores p) (f : α → β) : Restores (f <$> p) :=
  hp.bind fun _ => pure _

theorem within (e : EnvId) (p : Eval α) : Restores (Eval.within e p) := (Blind.within e p).restores

theorem ofExcept (found : Except Stop α) : Restores (Eval.ofExcept found) := by
  cases found with
  | ok value => exact pure value
  | error stop => exact throw stop

theorem ofLookup (found : Except LookupFault α) : Restores (Eval.ofLookup found) :=
  (Blind.ofLookup found).restores

theorem ofRuntimeError (found : Except RuntimeError α) :
    Restores (Eval.ofRuntimeError found) := by
  cases found with
  | ok value => exact pure value
  | error e => exact throw _

theorem ofDefect (found : Except Defect α) : Restores (Eval.ofDefect found) := by
  cases found with
  | ok value => exact pure value
  | error d => exact throw _

end Restores

theorem restores_lookup (r : Reference) : Restores (lookup r) := by
  apply Restores.afterGet
  intro m
  split
  · exact .ofLookup _
  · exact .ofRuntimeError _

theorem restores_assignFrom (e : EnvId) (name : Token) (value : Value) :
    Restores (assignFrom e name value) := by
  intro m
  unfold assignFrom
  split <;> rfl

theorem restores_assign (r : Reference) (value : Value) : Restores (assign r value) := by
  apply Restores.afterGet
  intro m
  split
  · intro m
    unfold assignLocal
    split <;> rfl
  · exact restores_assignFrom _ _ _

theorem restores_getProperty (i : InstanceId) (name : Token) : Restores (getProperty i name) := by
  apply Restores.afterGet
  intro m
  split
  · exact .fail _ _
  · split
    · exact .pure _
    · split
      · exact (blind_bindMethod _ _).restores.map _
      · exact .fail _ _

theorem restores_superParts (keyword : Reference) : Restores (superParts keyword) := by
  apply Restores.afterGet
  intro m
  split
  · exact .defect _
  · exact (Restores.ofLookup _).bind fun _ => (Restores.ofLookup _).bind fun _ => .pure _

theorem restores_superMethod (keyword : Reference) (method : Token) :
    Restores (superMethod keyword method) := by
  apply (restores_superParts keyword).bind
  rintro ⟨parent, receiver⟩
  cases parent with
  | cls c =>
      apply Restores.afterGet
      intro m
      split
      · exact (blind_bindMethod _ _).restores.map _
      · exact .fail _ _
  | _ => exact .defect _

/-!
# Expressions
-/

section

variable {evaluate : Expr → Eval Value} (hevaluate : ∀ e, Restores (evaluate e))

include hevaluate

theorem restores_evaluateAll (es : List Expr) : Restores (evaluateAll evaluate es) := by
  induction es with
  | nil => exact .pure _
  | cons e es ih => exact (hevaluate e).bind fun _ => ih.bind fun _ => .pure _

theorem restores_discard (form : Form) : Restores (discard evaluate form) :=
  (hevaluate _).bind fun _ => .pure _

theorem restores_argumentForms (arguments : Form) :
    Restores (argumentForms evaluate arguments) := by
  unfold argumentForms
  split
  · exact restores_evaluateAll hevaluate _
  · exact .defect _

omit hevaluate in
theorem restores_refuseAt (paren : Form) (cause : RuntimeCause) :
    Restores (refuseAt paren cause) := by
  unfold refuseAt
  split
  · exact .fail _ _
  · exact .defect _

variable {call : Callable → List Value → Eval Value}
variable (hcall : ∀ f arguments, Restores (call f arguments))

include hcall

omit hevaluate in
theorem restores_invoke {refuse : RuntimeCause → Eval Value}
    (hrefuse : ∀ cause, Restores (refuse cause)) (callee : Value) (arguments : List Value) :
    Restores (invoke call refuse callee arguments) := by
  unfold invoke
  split
  · exact hrefuse _
  · apply Restores.afterGet
    intro m
    apply (Restores.ofDefect _).bind
    intro expected
    split
    · exact hcall _ _
    · exact hrefuse _

theorem restores_misfitExpr (form : Form) : Restores (misfitExpr evaluate call form) := by
  have hdiscard := restores_discard hevaluate
  unfold misfitExpr
  split
  · exact (hdiscard _).bind fun _ => .defect _
  · exact (hdiscard _).bind fun _ => (hdiscard _).bind fun _ => .defect _
  · exact (hevaluate _).bind fun _ => (restores_argumentForms hevaluate _).bind fun _ =>
      restores_invoke hcall (restores_refuseAt _) _ _
  · exact (hdiscard _).bind fun _ => .defect _
  · exact (hdiscard _).bind fun _ => .defect _
  · apply (hevaluate _).bind
    intro object
    cases object with
    | object i => exact (hdiscard _).bind fun _ => .defect _
    | _ => exact .defect _
  · exact (restores_superParts _).bind fun _ => .defect _
  · exact .defect _
  · exact .defect _
  · exact .defect _
  · exact (hdiscard _).bind fun _ => .defect _
  · exact .defect _

theorem restores_exprStep (e : Expr) : Restores (exprStep evaluate call e) := by
  cases e with
  | assign target value =>
      exact (hevaluate value).bind fun _ => (restores_assign _ _).bind fun _ => .pure _
  | binary left operator right =>
      exact (hevaluate left).bind fun _ => (hevaluate right).bind fun _ => .ofExcept _
  | call callee paren arguments =>
      exact (hevaluate callee).bind fun _ => (restores_evaluateAll hevaluate arguments).bind
        fun _ => restores_invoke hcall (.fail paren) _ _
  | conditional condition thenBranch elseBranch =>
      apply (hevaluate condition).bind
      intro value
      split
      · exact hevaluate thenBranch
      · exact hevaluate elseBranch
  | get object name =>
      apply (hevaluate object).bind
      intro value
      cases value with
      | object i => exact restores_getProperty i name
      | _ => exact .fail _ _
  | grouping inner => exact hevaluate inner
  | literal value => exact .pure _
  | logical left operator right =>
      apply (hevaluate left).bind
      intro value
      split
      · exact .pure _
      · exact hevaluate right
  | set object name value =>
      apply (hevaluate object).bind
      intro target
      cases target with
      | object i =>
          exact (hevaluate value).bind fun _ => Restores.bind (fun _ => rfl) fun _ => .pure _
      | _ => exact .fail _ _
  | superRef keyword method => exact restores_superMethod keyword method
  | thisRef keyword => exact restores_lookup keyword
  | unary operator right => exact (hevaluate right).bind fun _ => .ofExcept _
  | var name => exact restores_lookup name
  | misfit form => exact restores_misfitExpr hevaluate hcall form

end

theorem restores_evaluate (n : Nat) (e : Expr) : Restores (evaluate n e) := by
  induction n generalizing e with
  | zero =>
      rw [evaluate]
      exact .throw _
  | succ n ih =>
      rw [evaluate]
      exact restores_exprStep ih (fun f arguments => (blind_call n f arguments).restores) e

end Eval

/-!
# Statements
-/

/-- Where no block is around it, nothing but a function stands in the place of a method. -/
def Stmt.WellKinded : Stmt → Prop
  | .ifElse _ thenBranch none => thenBranch.WellKinded
  | .ifElse _ thenBranch (some elseBranch) => thenBranch.WellKinded ∧ elseBranch.WellKinded
  | .whileLoop _ body => body.WellKinded
  | .misfit (.node .classDecl _) => False
  | _ => True

theorem Form.exists_classDecl_of_not_wellKinded (form : Form)
    (hkind : ¬ (Stmt.misfit form).WellKinded) : ∃ fields, form = .node .classDecl fields := by
  cases form with
  | node kind fields =>
      cases kind with
      | classDecl => exact ⟨fields, rfl⟩
      | _ => simp [Stmt.WellKinded] at hkind
  | _ => simp [Stmt.WellKinded] at hkind

theorem Stmt.wellKinded_numbered {p : Token → Prop} (k : NodeId) :
    (s : Stmt) → s.WellFormed p → (s.numbered k).WellKinded
  | .ifElse _ thenBranch none, h => by
      rw [Stmt.WellFormed] at h
      rw [Stmt.numbered, Stmt.WellKinded]
      exact thenBranch.wellKinded_numbered _ h.2.2
  | .ifElse _ thenBranch (some elseBranch), h => by
      rw [Stmt.WellFormed] at h
      rw [Stmt.numbered, Stmt.WellKinded]
      exact ⟨thenBranch.wellKinded_numbered _ h.2.1.2, elseBranch.wellKinded_numbered _ h.2.2.2⟩
  | .whileLoop _ body, h => by
      rw [Stmt.WellFormed] at h
      rw [Stmt.numbered, Stmt.WellKinded]
      exact body.wellKinded_numbered _ h.2.2
  | .misfit _, h => by
      rw [Stmt.WellFormed] at h
      exact h.elim
  | .block _, _ | .classDecl _ _ _, _ | .expression _, _ | .funDecl _, _ | .print _, _
  | .ret _ _, _ | .varDecl _ _, _ => by
      rw [Stmt.numbered]
      simp [Stmt.WellKinded]

theorem Stmt.wellKinded_allNumbered {p : Token → Prop} {program : List Stmt}
    (hprogram : Stmt.AllWellFormed p program) (k : NodeId) :
    ∀ s ∈ Stmt.allNumbered k program, s.WellKinded := by
  induction program generalizing k with
  | nil => exact fun _ hs => absurd hs List.not_mem_nil
  | cons s program ih =>
      rw [Stmt.AllWellFormed] at hprogram
      rw [Stmt.allNumbered]
      intro other hother
      rcases List.mem_cons.mp hother with rfl | hother
      · exact s.wellKinded_numbered k hprogram.1
      · exact ih hprogram.2 _ other hother

namespace Eval

theorem restores_executeAll {execute : Stmt → Eval Completion} {ss : List Stmt}
    (hexecute : ∀ s ∈ ss, Restores (execute s)) : Restores (executeAll execute ss) := by
  induction ss with
  | nil => exact .pure _
  | cons s ss ih =>
      apply (hexecute s List.mem_cons_self).bind
      intro completion
      cases completion with
      | normal => exact ih fun s hs => hexecute s (List.mem_cons_of_mem _ hs)
      | returned value => exact .pure _

/-- A block opens an environment and comes back from it, whatever stands in it. -/
theorem restores_block (execute : Stmt → Eval Completion) (body : List Stmt) :
    Restores (do executeBlock execute body (← newEnvironment (← get).current [])) :=
  .afterGet fun _ => Restores.bind (fun _ => rfl) fun e => .within e _

theorem restores_classWithin (name : Token) (parent : Option ClassId) (methods : Eval MethodTable) :
    Restores (classWithin name parent methods) := by
  apply Restores.bind fun _ => rfl
  intro _
  have hopened : Restores (methodEnvironment parent) := by
    cases parent with
    | none => exact fun _ => rfl
    | some c => exact fun _ => rfl
  exact hopened.bind fun e => (Restores.within e methods).bind fun _ =>
    Restores.bind (fun _ => rfl) fun _ => .afterGet fun _ => restores_assignFrom _ _ _

section

variable {evaluate : Expr → Eval Value} (hevaluate : ∀ e, Restores (evaluate e))

include hevaluate

theorem restores_declareClass (name : Token) (parent : Option Reference)
    (methods : List Function) : Restores (declareClass evaluate name parent methods) := by
  rw [declareClass_eq]
  have hparent : Restores (superclass evaluate parent) := by
    cases parent with
    | none => exact .pure _
    | some r =>
        apply (hevaluate (.var r)).bind
        intro value
        cases value with
        | cls c => exact .pure _
        | _ => exact .fail _ _
  exact hparent.bind fun parent => restores_classWithin name parent _

theorem restores_optional (e : Option Expr) : Restores (optional evaluate e) := by
  cases e with
  | none => exact .pure _
  | some e => exact hevaluate e

theorem restores_misfitStmt (execute : Stmt → Eval Completion) {form : Form}
    (hkind : (Stmt.misfit form).WellKinded) : Restores (misfitStmt evaluate execute form) := by
  unfold misfitStmt
  split
  · split
    · exact restores_block execute _
    · exact .defect _
  · simp [Stmt.WellKinded] at hkind
  · split
    · exact .afterGet fun _ => Restores.bind (fun _ => rfl) fun _ =>
        Restores.bind (fun _ => rfl) fun _ => .pure _
    · exact .defect _
  · exact (restores_optional hevaluate _).bind fun _ => .pure _
  · exact (restores_optional hevaluate _).bind fun _ => .defect _
  · exact .defect _

variable {execute : Stmt → Eval Completion}
variable (hexecute : ∀ s, s.WellKinded → Restores (execute s))

include hexecute

theorem restores_stmtStep {s : Stmt} (hkind : s.WellKinded) :
    Restores (stmtStep evaluate execute s) := by
  cases s with
  | block body => exact restores_block execute body
  | classDecl name parent methods =>
      exact (restores_declareClass hevaluate name parent methods).bind fun _ => .pure _
  | expression inner => exact (hevaluate inner).bind fun _ => .pure _
  | funDecl f =>
      exact .afterGet fun _ => Restores.bind (fun _ => rfl) fun _ =>
        Restores.bind (fun _ => rfl) fun _ => .pure _
  | ifElse condition thenBranch elseBranch =>
      apply (hevaluate condition).bind
      intro value
      cases elseBranch with
      | none =>
          rw [Stmt.WellKinded] at hkind
          split
          · exact hexecute thenBranch hkind
          · exact .pure _
      | some elseBranch =>
          rw [Stmt.WellKinded] at hkind
          split
          · exact hexecute thenBranch hkind.1
          · exact hexecute elseBranch hkind.2
  | print inner =>
      exact (hevaluate inner).bind fun _ => Restores.bind (fun _ => rfl) fun _ => .pure _
  | ret keyword value => exact (restores_optional hevaluate value).bind fun _ => .pure _
  | varDecl name initial =>
      exact (restores_optional hevaluate initial).bind fun _ =>
        Restores.bind (fun _ => rfl) fun _ => .pure _
  | whileLoop condition body =>
      apply (hevaluate condition).bind
      intro value
      split
      · have hbody := hkind
        rw [Stmt.WellKinded] at hbody
        apply (hexecute body hbody).bind
        intro completion
        cases completion with
        | normal => exact hexecute (.whileLoop condition body) hkind
        | returned value => exact .pure _
      · exact .pure _
  | misfit form => exact restores_misfitStmt hevaluate execute hkind

end

theorem restores_execute (n : Nat) {s : Stmt} (hkind : s.WellKinded) : Restores (execute n s) := by
  induction n generalizing s with
  | zero =>
      rw [execute]
      exact .throw _
  | succ n ih =>
      rw [execute]
      exact restores_stmtStep (restores_evaluate n) (fun _ => ih) hkind

theorem restores_interpret (n : Nat) {program : List Stmt} (hkinds : ∀ s ∈ program, s.WellKinded) :
    Restores (interpret n program) :=
  restores_executeAll fun s hs => restores_execute n (hkinds s hs)

/-!
# Misfits that complete

A misfit class declaration that completes has found its way back too.
-/

theorem current_of_ok {p : Eval α} (hp : Restores p) {value : α} {m m' : Machine}
    (hends : p m = .ok value m') : m'.current = m.current := by
  have hcurrent := hp m
  rw [hends] at hcurrent
  exact hcurrent

theorem ofMethod_cases (method : Form) :
    (∃ loose, Loose.ofMethod method = pure loose) ∨
      ∃ d, Loose.ofMethod method = (defect d : Eval Loose) := by
  unfold Loose.ofMethod
  split
  · exact Or.inl ⟨_, rfl⟩
  · exact Or.inl ⟨_, rfl⟩
  · exact Or.inr ⟨_, rfl⟩

theorem makeMethods_of_ok {methods : List Form} {table table' : MethodTable} {m m' : Machine}
    (hends : makeMethods Loose.ofMethod methods table m = .ok table' m') :
    ∃ functions, m' = { m with functions } := by
  induction methods generalizing table m with
  | nil =>
      cases hends
      exact ⟨_, rfl⟩
  | cons method methods ih =>
      rcases exists_of_bind_ok hends with ⟨loose, m₁, hread, hrest⟩
      rcases ofMethod_cases method with ⟨_, hmethod⟩ | ⟨_, hmethod⟩
      · rw [hmethod] at hread
        cases hread
        let closure := loose.closure m.current loose.function.isInitialiser
        exact ih (m := { m with functions := m.functions.push closure }) hrest
      · rw [hmethod] at hread
        cases hread

theorem looseMethods_of_ok {methods : Form} {table : MethodTable} {m m' : Machine}
    (hends : looseMethods methods m = .ok table m') : ∃ functions, m' = { m with functions } := by
  unfold looseMethods at hends
  cases hitems : methods.items? with
  | some items =>
      rw [hitems] at hends
      exact makeMethods_of_ok hends
  | none =>
      rw [hitems] at hends
      cases hends

theorem current_looseClass {evaluate : Expr → Eval Value} (hevaluate : ∀ e, Restores (evaluate e))
    {name parent methods : Form} {m m' : Machine}
    (hends : looseClass evaluate name parent methods m = .ok () m') : m'.current = m.current := by
  have hparent : Restores (looseSuperclass evaluate parent) := by
    unfold looseSuperclass
    split
    · exact .pure _
    · apply (hevaluate _).bind
      intro value
      split
      · exact .pure _
      · split
        · exact .fail _ _
        · exact .defect _
  rcases exists_of_bind_ok hends with ⟨parent, m₁, hfound, hbuild⟩
  rw [← current_of_ok hparent hfound]
  cases hname : name.token? with
  | none =>
      rw [hname] at hbuild
      cases hbuild
  | some name =>
      rw [hname] at hbuild
      rcases exists_of_bind_ok hbuild with ⟨_, m₂, hdefine, hbuild⟩
      rcases exists_of_bind_ok hbuild with ⟨_, m₃, henter, hbuild⟩
      rcases exists_of_bind_ok hbuild with ⟨table, m₄, hmethods, hbuild⟩
      rcases exists_of_bind_ok hbuild with ⟨c, m₅, hclass, hbuild⟩
      rcases exists_of_bind_ok hbuild with ⟨_, m₆, hleave, hassign⟩
      rcases looseMethods_of_ok hmethods with ⟨functions, rfl⟩
      have hassigned : m'.current = m₆.current := by
        rcases exists_of_bind_ok hassign with ⟨_, _, hget, hassign⟩
        cases hget
        exact current_of_ok (restores_assignFrom _ _ _) hassign
      rw [hassigned]
      cases hdefine
      cases hclass
      cases parent with
      | none =>
          cases henter
          cases hleave
          rfl
      | some c =>
          cases henter
          change leave _ = _ at hleave
          unfold leave at hleave
          dsimp only at hleave
          rw [Environments.enclosing_create, if_pos rfl] at hleave
          cases hleave
          rfl

/-- A statement that completes ends in the environment in which it began. -/
theorem current_execute_of_ok {n : Nat} {s : Stmt} {completion : Completion} {m m' : Machine}
    (hends : execute n s m = .ok completion m') : m'.current = m.current := by
  induction n generalizing s completion m m' with
  | zero =>
      rw [execute] at hends
      cases hends
  | succ n ih =>
      by_cases hkind : s.WellKinded
      · exact current_of_ok (restores_execute (n + 1) hkind) hends
      rw [execute] at hends
      cases s with
      | ifElse condition thenBranch elseBranch =>
          rcases exists_of_bind_ok hends with ⟨test, m₁, htest, hbranch⟩
          rw [← current_of_ok (restores_evaluate n condition) htest]
          split at hbranch
          · exact ih hbranch
          · cases elseBranch with
            | none =>
                cases hbranch
                rfl
            | some elseBranch => exact ih hbranch
      | whileLoop condition body =>
          rcases exists_of_bind_ok hends with ⟨test, m₁, htest, hround⟩
          rw [← current_of_ok (restores_evaluate n condition) htest]
          split at hround
          · rcases exists_of_bind_ok hround with ⟨first, m₂, hbody, hrest⟩
            rw [← ih hbody]
            cases first with
            | normal => exact ih hrest
            | returned value =>
                cases hrest
                rfl
          · cases hround
            rfl
      | misfit form =>
          rcases form.exists_classDecl_of_not_wellKinded hkind with ⟨fields, rfl⟩
          rcases fields with _ | ⟨name, _ | ⟨parent, _ | ⟨methods, _ | ⟨_, _⟩⟩⟩⟩
          · cases hends
          · cases hends
          · cases hends
          · rcases exists_of_bind_ok hends with ⟨_, m₁, hclass, hends⟩
            cases hends
            exact current_looseClass (restores_evaluate n) hclass
          · cases hends
      | _ => simp [Stmt.WellKinded] at hkind

/--
Every tree leaves the environment at hand as it was, whether it completes, returns, or stops with
an error or a defect; so a session is at its globals between any two steps.  Trees in which
something else stands in the place of a method do so if they complete.  A call from another
environment ends in the same way, and its machine differs in the environment at hand only.
-/
theorem current_restored_unseen (n : Nat) (m : Machine) :
    (∀ e, (state (evaluate n e m)).current = m.current) ∧
      (∀ s : Stmt, s.WellKinded → (state (execute n s m)).current = m.current) ∧
      (∀ s completion m', execute n s m = .ok completion m' → m'.current = m.current) ∧
      (∀ body e, (state (executeBlock (execute n) body e m)).current = m.current) ∧
      (∀ program : List Stmt, (∀ s ∈ program, s.WellKinded) →
        (state (interpret n program m)).current = m.current) ∧
      (∀ flags clock steps,
        ((Session.startWith flags clock).takeAll steps).machine.current = Machine.globals) ∧
      ∀ f arguments e,
        call n f arguments { m with current := e } = seenFrom e (call n f arguments m) := by
  constructor
  · exact fun e => restores_evaluate n e m
  constructor
  · exact fun s hkind => restores_execute n hkind m
  constructor
  · exact fun s completion m' => current_execute_of_ok
  constructor
  · exact fun body e => Restores.within e _ m
  constructor
  · exact fun program hkinds => restores_interpret n hkinds m
  constructor
  · intro flags clock steps
    apply Session.holds_takeAll fun m => m.current = Machine.globals
    · exact fun _ => rfl
    · exact fun _ _ hm => hm
    · intro m n source program hcompile hm
      have hkinds := Stmt.wellKinded_allNumbered
        (Grammar.program_wellFormed (compile_eq_some.mp hcompile).2.1 (p := fun _ => True)
          fun _ _ => trivial) m.locals.size
      exact (restores_interpret n hkinds (m.load program)).trans hm
    · exact fun _ _ _ hm => hm
  · exact fun f arguments => blind_call n f arguments m

/-- A subclass is declared in a block; the environment of its methods is new. -/
theorem current_restored_unseen_subclass :
    let a : Token := ⟨.identifier, "A", .nil, 1⟩
    let b : Token := ⟨.identifier, "B", .nil, 1⟩
    let s : Stmt := .classDecl b (some ⟨a, 0⟩) [⟨⟨.identifier, "f", .nil, 1⟩, [], []⟩]
    let m : Machine := { Machine.initial (steadyClock 0) with
      environments := ⟨#[⟨[("A", .cls 0)], none⟩, ⟨[], some 0⟩]⟩
      classes := #[⟨"A", none, []⟩]
      current := 1 }
    let m' := state (execute 5 s m)
    s.WellKinded ∧ m'.functions.map Closure.env = #[2] ∧ m'.current = 1 := by
  intro a b s m m'
  have hkind : s.WellKinded := by simp [s, Stmt.WellKinded]
  exact ⟨hkind, by decide +kernel, (current_restored_unseen 5 m).2.1 s hkind⟩

-- Without a function in the place of the method, nothing leads back from the new environment.
example :
    let a : Token := ⟨.identifier, "A", .nil, 1⟩
    let b : Token := ⟨.identifier, "B", .nil, 1⟩
    let s : Stmt := .misfit (.node .classDecl
      [.token b 0, .node .var [.token a 0], .row [.absent]])
    let m : Machine := { Machine.initial (steadyClock 0) with
      environments := ⟨#[⟨[("A", .cls 0)], none⟩, ⟨[], some 0⟩]⟩
      classes := #[⟨"A", none, []⟩]
      current := 1 }
    (state (execute 5 s m)).current = 2 := by
  decide +kernel

end Eval
end Lox
