import Lox.Proofs.Heap.Discipline
import Lox.Proofs.Lexical.Watch

/-!
# Evaluation keeps disciplines

If the parts of a tree keep a discipline, so does the tree; hence evaluation to
any depth does.  A tree is evaluated in an environment that is known.  A call
does not use the environment at hand: it needs to know the callable and the
arguments only.

The parts may be evaluated in two ways.  If these do the same on all machines
that keep the discipline, so do the two ways to evaluate the tree.
-/

namespace Lox

namespace Discipline

variable (D : Discipline)

def AllKnown (values : List Value) (m : Machine) : Prop := ∀ value ∈ values, D.Known value m

def Completed (completion : Completion) (m : Machine) : Prop :=
  ∀ value, completion = .returned value → D.Known value m

variable {D}

theorem AllKnown.mono {values : List Value} {m m' : Machine} (hvalues : D.AllKnown values m)
    (hknows : ∀ p, D.knows m p → D.knows m' p) : D.AllKnown values m' :=
  fun value hvalue => (hvalues value hvalue).mono hknows

theorem completed_normal {m : Machine} : D.Completed .normal m := fun _ hvalue => nomatch hvalue

theorem completed_returned {value : Value} {m : Machine} (hvalue : D.Known value m) :
    D.Completed (.returned value) m := by
  intro returned hreturned
  cases hreturned
  exact hvalue

end Discipline

namespace Eval

/-- Two ways to evaluate, execute and call that do the same and keep a discipline. -/
def EvaluateTracks (D : Discipline) (evaluate evaluate' : Expr → Eval Value) : Prop :=
  ∀ (m : Machine) (e : Expr), D.Ready m → Tracks D m (evaluate e) (evaluate' e) D.Known

def ExecuteTracks (D : Discipline) (execute execute' : Stmt → Eval Completion) : Prop :=
  ∀ (m : Machine) (s : Stmt), D.Ready m → Tracks D m (execute s) (execute' s) D.Completed

def CallTracks (D : Discipline) (call call' : Callable → List Value → Eval Value) : Prop :=
  ∀ (m : Machine) (f : Callable) (arguments : List Value), D.fits m →
    (∀ p, f.cell? = some p → D.knows m p) → D.AllKnown arguments m →
    Tracks D m (call f arguments) (call' f arguments) D.Known

variable {D : Discipline} {m : Machine}

/-!
# Expressions
-/

theorem known_binary {operator : Token} {left right value : Value}
    (hvalue : Operator.binary operator left right = .ok value) : D.Known value m := by
  apply Discipline.known_of_no_cell
  unfold Operator.binary Operator.plus Operator.arithmetic Operator.fail at hvalue
  split at hvalue
  · cases hvalue
    rfl
  · cases hvalue
    rfl
  · split at hvalue <;> cases hvalue <;> rfl
  · split at hvalue
    · split at hvalue <;> cases hvalue <;> rfl
    · cases hvalue

theorem known_unary {operator : Token} {right value : Value}
    (hvalue : Operator.unary operator right = .ok value) : D.Known value m := by
  apply Discipline.known_of_no_cell
  unfold Operator.unary Operator.fail at hvalue
  split at hvalue
  · cases hvalue
    rfl
  · split at hvalue <;> cases hvalue
    rfl
  · cases hvalue

theorem known_ofLiteral (value : Literal) : D.Known (.ofLiteral value) m := by
  apply Discipline.known_of_no_cell
  cases value <;> rfl

section

variable {evaluate evaluate' : Expr → Eval Value} {execute execute' : Stmt → Eval Completion}
variable {call call' : Callable → List Value → Eval Value}

section

variable (hevaluate : EvaluateTracks D evaluate evaluate')

include hevaluate

theorem tracks_evaluateAll (hm : D.Ready m) (es : List Expr) :
    Tracks D m (evaluateAll evaluate es) (evaluateAll evaluate' es) D.AllKnown := by
  induction es generalizing m with
  | nil => exact .pure hm.fits fun _ hvalue => nomatch hvalue
  | cons e es ih =>
      apply (hevaluate m e hm).bind
      intro value m₁ h₁ hvalue
      apply (ih (hm.later h₁)).bind
      intro values m₂ h₂ hvalues
      apply Tracks.pure h₂.fits
      exact List.forall_mem_cons.mpr ⟨hvalue.mono h₂.knows, hvalues⟩

theorem tracks_optional (hm : D.Ready m) (value : Option Expr) :
    Tracks D m (optional evaluate value) (optional evaluate' value) D.Known := by
  cases value with
  | none => exact .pure hm.fits (Discipline.known_of_no_cell rfl)
  | some e => exact hevaluate m e hm

theorem tracks_discard (hm : D.Ready m) (form : Form) :
    Tracks D m (discard evaluate form) (discard evaluate' form) anything := by
  apply (hevaluate m form.expr hm).bind
  intro value m₁ h₁ _
  exact .pure h₁.fits trivial

theorem tracks_discard_then {post : α → Machine → Prop} (hm : D.Ready m) (form : Form)
    {next next' : Eval α} (hnext : ∀ m', D.Ready m' → Tracks D m' next next' post) :
    Tracks D m (discard evaluate form >>= fun _ => next)
      (discard evaluate' form >>= fun _ => next') post := by
  apply (tracks_discard hevaluate hm form).bind
  intro _ m₁ h₁ _
  exact hnext m₁ (hm.later h₁)

theorem tracks_argumentForms (hm : D.Ready m) (arguments : Form) :
    Tracks D m (argumentForms evaluate arguments) (argumentForms evaluate' arguments)
      D.AllKnown := by
  unfold argumentForms
  split
  · exact tracks_evaluateAll hevaluate hm _
  · exact .defect hm.fits _

end

theorem keeps_refuseAt (hm : D.fits m) (paren : Form) (cause : RuntimeCause) :
    Keeps D m (refuseAt paren cause) D.Known := by
  unfold refuseAt
  split
  · exact .fail hm _ _
  · exact .defect hm _

theorem tracks_invoke (hcall : CallTracks D call call') {refuse : RuntimeCause → Eval Value}
    {callee : Value} {arguments : List Value} (hm : D.fits m)
    (hrefuse : ∀ m', D.fits m' → ∀ cause, Keeps D m' (refuse cause) D.Known)
    (hcallee : D.Known callee m) (harguments : D.AllKnown arguments m) :
    Tracks D m (invoke call refuse callee arguments) (invoke call' refuse callee arguments)
      D.Known := by
  unfold invoke
  split
  · exact (hrefuse m hm _).tracks
  · next f hf =>
      apply Tracks.afterGet
      apply (Keeps.ofDefect hm).tracks.bind
      intro expected m₁ h₁ _
      split
      · apply hcall m₁ f arguments h₁.fits
        · intro p hp
          rw [Callable.cell?_of_callable? hf] at hp
          exact h₁.knows p (hcallee p hp)
        · exact harguments.mono h₁.knows
      · exact (hrefuse m₁ h₁.fits _).tracks

variable (hD : D.Kept)

include hD

theorem tracks_misfitExpr (hevaluate : EvaluateTracks D evaluate evaluate')
    (hcall : CallTracks D call call') (hm : D.Ready m) (form : Form) :
    Tracks D m (misfitExpr evaluate call form) (misfitExpr evaluate' call' form) D.Known := by
  have hstop : ∀ m', D.Ready m' →
      Tracks D m' (defect .noToken : Eval Value) (defect .noToken) D.Known :=
    fun m' hm' => .defect hm'.fits _
  unfold misfitExpr
  split
  · exact tracks_discard_then hevaluate hm _ hstop
  · apply tracks_discard_then hevaluate hm
    intro m₁ hm₁
    exact tracks_discard_then hevaluate hm₁ _ hstop
  · apply (hevaluate m _ hm).bind
    intro callee m₁ h₁ hcallee
    apply (tracks_argumentForms hevaluate (hm.later h₁) _).bind
    intro arguments m₂ h₂ harguments
    apply tracks_invoke hcall h₂.fits _ (hcallee.mono h₂.knows) harguments
    intro m' hm' cause
    exact keeps_refuseAt hm' _ cause
  · exact tracks_discard_then hevaluate hm _ hstop
  · exact tracks_discard_then hevaluate hm _ hstop
  · apply (hevaluate m _ hm).bind
    intro object m₁ h₁ _
    split
    · exact tracks_discard_then hevaluate (hm.later h₁) _ hstop
    · exact hstop m₁ (hm.later h₁)
  · apply (keeps_superParts hD hm _).tracks.bind
    intro parts m₁ h₁ _
    exact hstop m₁ (hm.later h₁)
  · exact .defect hm.fits _
  · exact hstop m hm
  · exact hstop m hm
  · exact tracks_discard_then hevaluate hm _ hstop
  · exact .defect hm.fits _

theorem tracks_exprStep (hevaluate : EvaluateTracks D evaluate evaluate')
    (hcall : CallTracks D call call') (hm : D.Ready m) (e : Expr) :
    Tracks D m (exprStep evaluate call e) (exprStep evaluate' call' e) D.Known := by
  cases e with
  | assign target value =>
      apply (hevaluate m value hm).bind
      intro value m₁ h₁ hvalue
      apply (keeps_assign hD (hm.later h₁) hvalue).tracks.bind
      intro _ m₂ h₂ _
      exact .pure h₂.fits (hvalue.mono h₂.knows)
  | binary left operator right =>
      apply (hevaluate m left hm).bind
      intro left m₁ h₁ _
      apply (hevaluate m₁ right (hm.later h₁)).bind
      intro right m₂ h₂ _
      exact (Keeps.ofExcept h₂.fits fun value hvalue => known_binary hvalue).tracks
  | call callee paren arguments =>
      apply (hevaluate m callee hm).bind
      intro callee m₁ h₁ hcallee
      apply (tracks_evaluateAll hevaluate (hm.later h₁) arguments).bind
      intro arguments m₂ h₂ harguments
      apply tracks_invoke hcall h₂.fits _ (hcallee.mono h₂.knows) harguments
      intro m' hm' cause
      exact .fail hm' paren cause
  | conditional condition thenBranch elseBranch =>
      apply (hevaluate m condition hm).bind
      intro condition m₁ h₁ _
      split
      · exact hevaluate m₁ thenBranch (hm.later h₁)
      · exact hevaluate m₁ elseBranch (hm.later h₁)
  | get object name =>
      apply (hevaluate m object hm).bind
      intro object m₁ h₁ hobject
      split
      · exact (keeps_getProperty hD h₁.fits (hobject _ rfl)).tracks
      · exact .fail h₁.fits _ _
  | grouping inner => exact hevaluate m inner hm
  | literal value => exact .pure hm.fits (known_ofLiteral value)
  | logical left operator right =>
      apply (hevaluate m left hm).bind
      intro left m₁ h₁ hleft
      split
      · exact .pure h₁.fits hleft
      · exact hevaluate m₁ right (hm.later h₁)
  | set object name value =>
      apply (hevaluate m object hm).bind
      intro object m₁ h₁ hobject
      split
      · apply (hevaluate m₁ value (hm.later h₁)).bind
        intro value m₂ h₂ hvalue
        apply (keeps_setField hD h₂.fits (h₂.knows _ (hobject _ rfl)) hvalue).tracks.bind
        intro _ m₃ h₃ _
        exact .pure h₃.fits (hvalue.mono h₃.knows)
      · exact .fail h₁.fits _ _
  | superRef keyword method => exact (keeps_superMethod hD hm keyword method).tracks
  | thisRef keyword => exact (keeps_lookup hD hm keyword).tracks
  | unary operator right =>
      apply (hevaluate m right hm).bind
      intro right m₁ h₁ _
      exact (Keeps.ofExcept h₁.fits fun value hvalue => known_unary hvalue).tracks
  | var name => exact (keeps_lookup hD hm name).tracks
  | misfit form => exact tracks_misfitExpr hD hevaluate hcall hm form

/-!
# Statements
-/

omit hD in
theorem tracks_executeAll (hexecute : ExecuteTracks D execute execute') (hm : D.Ready m)
    (ss : List Stmt) :
    Tracks D m (executeAll execute ss) (executeAll execute' ss) D.Completed := by
  induction ss generalizing m with
  | nil => exact .pure hm.fits Discipline.completed_normal
  | cons s ss ih =>
      apply (hexecute m s hm).bind
      intro completion m₁ h₁ hcompletion
      split
      · exact ih (hm.later h₁)
      · exact .pure h₁.fits hcompletion

theorem tracks_executeBlock (hexecute : ExecuteTracks D execute execute') {e : EnvId}
    (hm : D.fits m) (he : D.knows m (.env e)) (body : List Stmt) :
    Tracks D m (executeBlock execute body e) (executeBlock execute' body e) D.Completed := by
  apply Tracks.within hD hm
  · intro completion m₁ m₂ hknows hcompletion value hvalue
    exact (hcompletion value hvalue).mono hknows
  · intro henter
    apply tracks_executeAll hexecute
    exact ⟨henter.fits, henter.knows _ he⟩

theorem tracks_block (hexecute : ExecuteTracks D execute execute') (hm : D.Ready m)
    (body : List Stmt) :
    Tracks D m (newEnvironment m.current [] >>= executeBlock execute body)
      (newEnvironment m.current [] >>= executeBlock execute' body) D.Completed := by
  have hempty : ∀ entry ∈ ([] : Bindings), D.Known entry.2 m := fun _ hentry => nomatch hentry
  apply (keeps_newEnvironment hD hm.fits hm.current hempty).tracks.bind
  intro e m₁ h₁ he
  exact tracks_executeBlock hD hexecute h₁.fits he body

theorem keeps_declareFunction {closure : Closure} (hm : D.Ready m)
    (henv : closure.env = m.current) (name : String) :
    Keeps D m (do
      let id ← newFunction closure
      defineHere name (.function id)
      pure .normal) D.Completed := by
  apply (keeps_newFunction hD hm.fits (henv ▸ hm.current)).bind
  intro id m₁ h₁ hid
  apply (keeps_defineHere hD (hm.later h₁) (Discipline.known_of_cell? rfl hid)).bind
  intro _ m₂ h₂ _
  exact .pure h₂.fits Discipline.completed_normal

/-!
## Classes
-/

def ParentKnown (D : Discipline) (parent : Option ClassId) (m : Machine) : Prop :=
  ∀ c, parent = some c → D.knows m (.cls c)

def TableKnown (D : Discipline) (table : MethodTable) (m : Machine) : Prop :=
  ∀ entry ∈ table, D.knows m (.function entry.2)

omit hD in
theorem parentKnown_none : ParentKnown D none m := fun _ hc => nomatch hc

omit hD in
theorem parentKnown_some {c : ClassId} (hc : D.Known (.cls c) m) : ParentKnown D (some c) m := by
  intro c' hc'
  cases hc'
  exact hc _ rfl

omit hD in
theorem tracks_superclass (hevaluate : EvaluateTracks D evaluate evaluate') (hm : D.Ready m)
    (parent : Option Reference) :
    Tracks D m (superclass evaluate parent) (superclass evaluate' parent) (ParentKnown D) := by
  cases parent with
  | none => exact .pure hm.fits parentKnown_none
  | some name =>
      apply (hevaluate m (.var name) hm).bind
      intro value m₁ h₁ hvalue
      split
      · exact .pure h₁.fits (parentKnown_some hvalue)
      · exact .fail h₁.fits _ _

omit hD in
theorem tracks_looseSuperclass (hevaluate : EvaluateTracks D evaluate evaluate') (hm : D.Ready m)
    (parent : Form) :
    Tracks D m (looseSuperclass evaluate parent) (looseSuperclass evaluate' parent)
      (ParentKnown D) := by
  unfold looseSuperclass
  split
  · exact .pure hm.fits parentKnown_none
  · apply (hevaluate m parent.expr hm).bind
    intro value m₁ h₁ hvalue
    split
    · exact .pure h₁.fits (parentKnown_some hvalue)
    · split
      · exact .fail h₁.fits _ _
      · exact .defect h₁.fits _

theorem keeps_enterClass {parent : Option ClassId} (hm : D.Ready m)
    (hparent : ParentKnown D parent m) : Keeps D m (enterClass parent) anything := by
  cases parent with
  | none => exact .pure hm.fits trivial
  | some c =>
      apply Keeps.afterGet
      have hsuper : ∀ entry ∈ [("super", Value.cls c)], D.Known entry.2 m := by
        intro entry hentry
        rw [List.mem_singleton.mp hentry]
        exact Discipline.known_of_cell? rfl (hparent c rfl)
      apply (keeps_newEnvironment hD hm.fits hm.current hsuper).bind
      intro e m₁ h₁ he
      have henter : D.Advances m₁ { m₁ with current := e } :=
        hD.aside h₁.fits ⟨rfl, rfl, rfl, rfl⟩ rfl rfl
      exact ⟨⟨henter, fun _ => henter.knows _ he⟩, trivial⟩

theorem keeps_leaveClass {parent : Option ClassId} (hm : D.Ready m) :
    Keeps D m (leaveClass parent) anything := by
  cases parent with
  | none => exact .pure hm.fits trivial
  | some c =>
      show Ends D m anything (leave m)
      unfold leave
      cases houter : m.environments.enclosing m.current with
      | none => exact .refl hm.fits
      | some outer =>
          have hknown : D.knows m (.env outer) :=
            hD.closed hm.fits _ _ hm.current (.enclosing houter)
          have hleave : D.Advances m { m with current := outer } :=
            hD.aside hm.fits ⟨rfl, rfl, rfl, rfl⟩ rfl rfl
          exact ⟨⟨hleave, fun _ => hleave.knows _ hknown⟩, trivial⟩

theorem keeps_makeMethods {read : α → Eval Loose}
    (hread : ∀ m method, D.Ready m → Keeps D m (read method) anything) {methods : List α}
    {table : MethodTable} (hm : D.Ready m) (htable : TableKnown D table m) :
    Keeps D m (makeMethods read methods table) (TableKnown D) := by
  induction methods generalizing m table with
  | nil => exact .pure hm.fits htable
  | cons method rest ih =>
      apply (hread m method hm).bind
      intro loose m₁ h₁ _
      apply Keeps.afterGet
      have hm₁ := hm.later h₁
      apply (keeps_newFunction hD hm₁.fits hm₁.current).bind
      intro id m₂ h₂ hid
      apply ih (hm₁.later h₂)
      intro entry hentry
      rcases List.mem_cons.mp hentry with rfl | hentry
      · exact hid
      · exact (h₁.trans h₂).knows _ (htable entry hentry)

theorem keeps_buildClass {name : Token} {parent : Option ClassId} {methods : Eval MethodTable}
    (hm : D.Ready m) (hparent : ParentKnown D parent m)
    (hmethods : ∀ m, D.Ready m → Keeps D m methods (TableKnown D)) :
    Keeps D m (buildClass name parent methods) anything := by
  apply (keeps_defineHere hD hm (Discipline.known_of_no_cell rfl)).bind
  intro _ m₁ h₁ _
  have hm₁ := hm.later h₁
  apply (keeps_enterClass hD hm₁ fun c hc => h₁.knows _ (hparent c hc)).bind
  intro _ m₂ h₂ _
  have hm₂ := hm₁.later h₂
  apply (hmethods m₂ hm₂).bind
  intro table m₃ h₃ htable
  have hclass : Keeps D m₃ (newClass ⟨name.lexeme, parent, table⟩) fun c m' =>
      D.knows m' (.cls c) := by
    apply keeps_newClass hD h₃.fits
    · intro c hc
      exact ((h₁.trans h₂).trans h₃).knows _ (hparent c hc)
    · exact htable
  apply hclass.bind
  intro c m₄ h₄ hc
  have hm₄ := (hm₂.later h₃).later h₄
  apply (keeps_leaveClass hD hm₄).bind
  intro _ m₅ h₅ _
  have hm₅ := hm₄.later h₅
  apply Keeps.afterGet
  exact keeps_assignFrom hD hm₅.fits hm₅.current
    (Discipline.known_of_cell? rfl (h₅.knows _ hc))

omit hD in
theorem tableKnown_nil : TableKnown D [] m := fun _ hentry => nomatch hentry

theorem tracks_declareClass (hevaluate : EvaluateTracks D evaluate evaluate') (hm : D.Ready m)
    (name : Token) (parent : Option Reference) (methods : List Function) :
    Tracks D m (declareClass evaluate name parent methods)
      (declareClass evaluate' name parent methods) anything := by
  apply (tracks_superclass hevaluate hm parent).bind
  intro parent m₁ h₁ hparent
  apply Keeps.tracks
  apply keeps_buildClass hD (hm.later h₁) hparent
  intro m hm
  apply keeps_makeMethods hD _ hm tableKnown_nil
  intro m f hm
  exact .pure hm.fits trivial

theorem keeps_looseMethods (methods : Form) (hm : D.Ready m) :
    Keeps D m (looseMethods methods) (TableKnown D) := by
  unfold looseMethods
  split
  · apply keeps_makeMethods hD _ hm tableKnown_nil
    intro m method hm
    unfold Loose.ofMethod
    split
    · exact .pure hm.fits trivial
    · exact .pure hm.fits trivial
    · exact .defect hm.fits _
  · exact .defect hm.fits _

theorem tracks_looseClass (hevaluate : EvaluateTracks D evaluate evaluate') (hm : D.Ready m)
    (name parent methods : Form) :
    Tracks D m (looseClass evaluate name parent methods)
      (looseClass evaluate' name parent methods) anything := by
  apply (tracks_looseSuperclass hevaluate hm parent).bind
  intro parent m₁ h₁ hparent
  split
  · apply Keeps.tracks
    exact keeps_buildClass hD (hm.later h₁) hparent fun m hm => keeps_looseMethods hD methods hm
  · exact .defect h₁.fits _

/-!
## One step
-/

theorem tracks_misfitStmt (hevaluate : EvaluateTracks D evaluate evaluate')
    (hexecute : ExecuteTracks D execute execute') (hm : D.Ready m) (form : Form) :
    Tracks D m (misfitStmt evaluate execute form) (misfitStmt evaluate' execute' form)
      D.Completed := by
  unfold misfitStmt
  split
  · split
    · apply Tracks.afterGet
      exact tracks_block hD hexecute hm _
    · exact .defect hm.fits _
  · apply (tracks_looseClass hD hevaluate hm _ _ _).bind
    intro _ m₁ h₁ _
    exact .pure h₁.fits Discipline.completed_normal
  · split
    · apply Keeps.tracks
      apply Keeps.afterGet
      exact keeps_declareFunction hD hm rfl _
    · exact .defect hm.fits _
  · apply (tracks_optional hevaluate hm _).bind
    intro value m₁ h₁ hvalue
    exact .pure h₁.fits (Discipline.completed_returned hvalue)
  · apply (tracks_optional hevaluate hm _).bind
    intro value m₁ h₁ _
    exact .defect h₁.fits _
  · exact .defect hm.fits _

theorem tracks_stmtStep (hevaluate : EvaluateTracks D evaluate evaluate')
    (hexecute : ExecuteTracks D execute execute') (hm : D.Ready m) (s : Stmt) :
    Tracks D m (stmtStep evaluate execute s) (stmtStep evaluate' execute' s) D.Completed := by
  cases s with
  | block body =>
      apply Tracks.afterGet
      exact tracks_block hD hexecute hm body
  | classDecl name parent methods =>
      apply (tracks_declareClass hD hevaluate hm name parent methods).bind
      intro _ m₁ h₁ _
      exact .pure h₁.fits Discipline.completed_normal
  | expression inner =>
      apply (hevaluate m inner hm).bind
      intro _ m₁ h₁ _
      exact .pure h₁.fits Discipline.completed_normal
  | funDecl f =>
      apply Keeps.tracks
      apply Keeps.afterGet
      exact keeps_declareFunction hD hm rfl _
  | ifElse condition thenBranch elseBranch =>
      apply (hevaluate m condition hm).bind
      intro condition m₁ h₁ _
      split
      · exact hexecute m₁ thenBranch (hm.later h₁)
      · split
        · exact hexecute m₁ _ (hm.later h₁)
        · exact .pure h₁.fits Discipline.completed_normal
  | print inner =>
      apply (hevaluate m inner hm).bind
      intro value m₁ h₁ _
      apply (keeps_emit hD h₁.fits value).tracks.bind
      intro _ m₂ h₂ _
      exact .pure h₂.fits Discipline.completed_normal
  | ret keyword value =>
      apply (tracks_optional hevaluate hm value).bind
      intro value m₁ h₁ hvalue
      exact .pure h₁.fits (Discipline.completed_returned hvalue)
  | varDecl name initial =>
      apply (tracks_optional hevaluate hm initial).bind
      intro value m₁ h₁ hvalue
      apply (keeps_defineHere hD (hm.later h₁) hvalue).tracks.bind
      intro _ m₂ h₂ _
      exact .pure h₂.fits Discipline.completed_normal
  | whileLoop condition body =>
      apply (hevaluate m condition hm).bind
      intro condition m₁ h₁ _
      have hm₁ := hm.later h₁
      split
      · apply (hexecute m₁ body hm₁).bind
        intro completion m₂ h₂ hcompletion
        split
        · exact hexecute m₂ _ (hm₁.later h₂)
        · exact .pure h₂.fits hcompletion
      · exact .pure h₁.fits Discipline.completed_normal
  | misfit form => exact tracks_misfitStmt hD hevaluate hexecute hm form

/-!
# Calls
-/

omit hD in
theorem known_parameters {params : List Token} {arguments : List Value}
    (harguments : D.AllKnown arguments m) :
    ∀ entry ∈ parameters params arguments, D.Known entry.2 m := by
  unfold parameters
  apply List.foldlRecOn 
    (motive := fun (bindings : Bindings) => ∀ entry ∈ bindings, D.Known entry.2 m)
  · exact fun _ hentry => nomatch hentry
  · intro bindings hbindings pair hpair entry hentry
    rcases Bindings.mem_insert hentry with hnew | hold
    · rw [hnew]
      exact harguments pair.2 (List.of_mem_zip hpair).2
    · exact hbindings entry hold

theorem keeps_callResult {closure : Closure} {completion : Completion} (hm : D.fits m)
    (henv : D.knows m (.env closure.env)) (hcompletion : D.Completed completion m) :
    Keeps D m (callResult closure completion) D.Known := by
  unfold callResult
  split
  · apply Keeps.afterGet
    apply Keeps.ofLookup hm
    intro value hvalue
    exact known_getAt hD hm henv hvalue
  · cases completion with
    | normal => exact .pure hm (Discipline.known_of_no_cell rfl)
    | returned value => exact .pure hm (hcompletion value rfl)

theorem tracks_callFunction (hexecute : ExecuteTracks D execute execute') {f : FunctionId}
    {arguments : List Value} (hm : D.fits m) (hf : D.knows m (.function f))
    (harguments : D.AllKnown arguments m) :
    Tracks D m (callFunction execute f arguments) (callFunction execute' f arguments)
      D.Known := by
  apply Tracks.afterGet
  split
  · exact .pure hm (Discipline.known_of_no_cell rfl)
  · next closure hclosure =>
      have henv : D.knows m (.env closure.env) := hD.closed hm _ _ hf (.closure hclosure)
      apply (keeps_newEnvironment hD hm henv (known_parameters harguments)).tracks.bind
      intro e m₁ h₁ he
      apply (tracks_executeBlock hD hexecute h₁.fits he closure.function.body).bind
      intro completion m₂ h₂ hcompletion
      exact (keeps_callResult hD h₂.fits ((h₁.trans h₂).knows _ henv) hcompletion).tracks

theorem tracks_callStep (hexecute : ExecuteTracks D execute execute') :
    CallTracks D (callStep execute) (callStep execute') := by
  intro m f arguments hm hf harguments
  cases f with
  | native id => exact (keeps_callNative hD hm harguments).tracks
  | function f => exact tracks_callFunction hD hexecute hm (hf _ rfl) harguments
  | cls c =>
      have hc : D.knows m (.cls c) := hf _ rfl
      apply (keeps_newInstance hD hm hc).tracks.bind
      intro i m₁ h₁ hi
      have hobject : D.Known (.object i) m₁ := Discipline.known_of_cell? rfl hi
      apply Tracks.afterGet
      split
      · exact .pure h₁.fits hobject
      · next f hfound =>
          have hf : D.knows m₁ (.function f) :=
            (hD.closed h₁.fits).findMethod (h₁.knows _ hc) hfound
          apply (keeps_bindMethod hD h₁.fits hf hobject).tracks.bind
          intro g m₂ h₂ hg
          have hargs := harguments.mono (h₁.trans h₂).knows
          apply (tracks_callFunction hD hexecute h₂.fits hg hargs).bind
          intro _ m₃ h₃ _
          exact .pure h₃.fits (hobject.mono (h₂.trans h₃).knows)

end

/-!
# Evaluation
-/

/--
By induction on the depth: each of the three uses the others at a smaller depth.  The first
way stops to look at every expression, where it finds nothing to do.
-/
theorem tracks_evaluation (hD : D.Kept) {watch : Expr → Eval Unit}
    (hwatch : ∀ m e, D.Ready m → watch e m = .ok () m) (n : Nat) :
    EvaluateTracks D (evaluateWith watch n) (evaluate n) ∧
      ExecuteTracks D (executeWith watch n) (execute n) ∧
      CallTracks D (callWith watch n) (call n) := by
  induction n with
  | zero =>
      constructor
      · intro m e hm
        exact (Keeps.throw hm.fits _).tracks
      · constructor
        · intro m s hm
          exact (Keeps.throw hm.fits _).tracks
        · intro m f arguments hm _ _
          exact (Keeps.throw hm _).tracks
  | succ n ih =>
      rcases ih with ⟨hevaluate, hexecute, hcall⟩
      constructor
      · intro m e hm
        have hstep := tracks_exprStep hD hevaluate hcall hm e
        constructor
        · rw [evaluateWith, evaluate, ← hstep.same]
          show EStateM.bind (watch e) _ m = _
          unfold EStateM.bind
          rw [hwatch m e hm]
        · rw [evaluate]
          exact hstep.keeps
      · constructor
        · intro m s hm
          rw [executeWith, execute]
          exact tracks_stmtStep hD hevaluate hexecute hm s
        · intro m f arguments
          rw [callWith, call]
          exact tracks_callStep hD hexecute m f arguments

theorem keeps_evaluation (hD : D.Kept) (n : Nat) :
    (∀ m e, D.Ready m → Keeps D m (evaluate n e) D.Known) ∧
      (∀ m s, D.Ready m → Keeps D m (execute n s) D.Completed) ∧
      ∀ m f arguments, D.fits m → (∀ p, f.cell? = some p → D.knows m p) →
        D.AllKnown arguments m → Keeps D m (call n f arguments) D.Known := by
  have hpass : ∀ m (e : Expr), D.Ready m → (fun _ => pure () : Expr → Eval Unit) e m = .ok () m :=
    fun _ _ _ => rfl
  rcases tracks_evaluation hD hpass n with ⟨hevaluate, hexecute, hcall⟩
  constructor
  · intro m e hm
    exact (hevaluate m e hm).keeps
  · constructor
    · intro m s hm
      exact (hexecute m s hm).keeps
    · intro m f arguments hm hf harguments
      exact (hcall m f arguments hm hf harguments).keeps

theorem executeTracks_execute (hD : D.Kept) (n : Nat) : ExecuteTracks D (execute n) (execute n) :=
  fun m s hm => ((keeps_evaluation hD n).2.1 m s hm).tracks

theorem keeps_interpret (hD : D.Kept) (n : Nat) (program : List Stmt) {m : Machine}
    (hm : D.Ready m) : Keeps D m (interpret n program) D.Completed :=
  (tracks_executeAll (executeTracks_execute hD n) hm program).keeps

/-- No program changes the native functions or what is known of nodes. -/
theorem still_interpret (n : Nat) (program : List Stmt) (m : Machine) :
    (state (interpret n program m)).natives = m.natives ∧
      (state (interpret n program m)).locals = m.locals :=
  (keeps_interpret (Discipline.still_kept m.natives m.locals) n program
    ⟨⟨rfl, rfl⟩, trivial⟩).later.fits

end Eval
end Lox
