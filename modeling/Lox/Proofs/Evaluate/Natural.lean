import Lox.Evaluate
import Lox.Proofs.Machine
import Lox.Proofs.Syntax.Form

/-!
# Evaluation looks at kinds and texts only

Of a token, evaluation looks at the kind and the text; the token as a whole is
only passed on, to errors and to the functions that are made.  Of the number of
a node it looks at the distance that is known for it.  So evaluation commutes
with every relabelling that keeps kinds and texts, if the distances follow.

Functions hold trees.  Two machines are therefore compared that differ by the
relabelling of their functions, of whose parameters only the texts count, and by
the tables of distances.  Native functions can look at anything, so they are
asked to ignore the relabelling too.
-/

namespace Lox

structure KeepsMeaning (g : Relabelling) : Prop where
  kind : ∀ token, (g token).kind = token.kind
  lexeme : ∀ token, (g token).lexeme = token.lexeme

def Stop.relabel (g : Relabelling) : Stop → Stop
  | .error e => .error ⟨g e.token, e.cause⟩
  | .defect d => .defect (d.relabel g)
  | .outOfFuel => .outOfFuel

theorem Stop.relabel_relabel (g h : Relabelling) (stop : Stop) :
    (stop.relabel g).relabel h = stop.relabel (h.comp g) := by
  cases stop with
  | error e => rfl
  | defect d => exact congrArg Stop.defect (d.relabel_relabel g h)
  | outOfFuel => rfl

section

variable (g : Relabelling)

structure Function.Relabelled (f f' : Function) : Prop where
  name : f'.name = g f.name
  params : f'.params.map Token.lexeme = f.params.map Token.lexeme
  body : f'.body = Stmt.relabels g f.body

structure Closure.Relabelled (closure closure' : Closure) : Prop where
  function : Function.Relabelled g closure.function closure'.function
  env : closure'.env = closure.env
  isInitialiser : closure'.isInitialiser = closure.isInitialiser
  flaw : closure'.flaw = closure.flaw.map (Defect.relabel g)

/-- Function by function, the second machine has relabelled trees. -/
structure RelabelledFunctions (fs fs' : Array Closure) : Prop where
  size : fs'.size = fs.size
  closure : ∀ f : FunctionId, Option.Rel (Closure.Relabelled g) fs[f]? fs'[f]?

def Heap.Relabelled (heap heap' : Heap) : Prop :=
  ∃ fs, heap' = { heap with functions := fs } ∧ RelabelledFunctions g heap.functions fs

/-- A node has the distance that its new number has in the second table. -/
def Locals.Relabelled (l l' : Locals) : Prop :=
  ∀ node, l'.depth? (g.node node) = l.depth? node

/-- Computations that end in the same way, with related values and states. -/
inductive Eval.Relabelled (alike : σ → σ → Prop) (related : α → β → Prop) :
    EStateM.Result Stop σ α → EStateM.Result Stop σ β → Prop where
  | ok {value : α} {value' : β} {s s' : σ} :
      related value value' → alike s s' → Relabelled alike related (.ok value s) (.ok value' s')
  | error {stop : Stop} {s s' : σ} :
      alike s s' → Relabelled alike related (.error stop s) (.error (stop.relabel g) s')

end

/-- A native function does the same when the trees of functions are relabelled. -/
def Native.Ignores (g : Relabelling) (native : Native) : Prop :=
  ∀ arguments heap heap', heap.Relabelled g heap' →
    Eval.Relabelled g (Heap.Relabelled g) Eq (native.action arguments heap)
      (native.action arguments heap')

theorem Native.ignores_clock (g : Relabelling) : Native.clock.Ignores g := by
  rintro arguments heap _ ⟨fs, rfl, hfs⟩
  exact .ok rfl ⟨fs, rfl, hfs⟩

section

variable (g : Relabelling)

/-- All else on the two machines is the same. -/
def Machine.Relabelled (m m' : Machine) : Prop :=
  ∃ fs l, m' = { m with functions := fs, locals := l } ∧ RelabelledFunctions g m.functions fs ∧
    m.locals.Relabelled g l ∧ ∀ native ∈ m.natives, native.Ignores g

/-- The second computation does on relabelled trees what the first one does. -/
def Eval.Natural (related : α → β → Prop) (p : Eval α) (p' : Eval β) : Prop :=
  ∀ m m', m.Relabelled g m' → Relabelled g (Machine.Relabelled g) related (p m) (p' m')

end

theorem Function.relabelled_relabel {g : Relabelling} (hg : KeepsMeaning g) (f : Function) :
    Function.Relabelled g f (f.relabel g) := by
  rcases f with ⟨name, params, body⟩
  rw [Function.relabel]
  exact ⟨rfl, by simp [Function.comp_def, hg.lexeme], rfl⟩

theorem RelabelledFunctions.push {g : Relabelling} {fs fs' : Array Closure}
    {closure closure' : Closure} (hfs : RelabelledFunctions g fs fs')
    (hclosure : closure.Relabelled g closure') :
    RelabelledFunctions g (fs.push closure) (fs'.push closure') where
  size := by rw [Array.size_push, Array.size_push, hfs.size]
  closure f := by
    rw [Array.getElem?_push, Array.getElem?_push, hfs.size]
    split
    · exact .some hclosure
    · exact hfs.closure f

namespace Eval
namespace Natural

variable {g : Relabelling} {related : α → β → Prop}

theorem pure {value : α} {value' : β} (hvalue : related value value') :
    Natural g related (Pure.pure value) (Pure.pure value') := fun _ _ hm => .ok hvalue hm

theorem throw {stop stop' : Stop} (hstop : stop' = stop.relabel g) :
    Natural g related (MonadExcept.throw stop : Eval α) (MonadExcept.throw stop' : Eval β) := by
  intro m m' hm
  rw [hstop]
  exact .error hm

theorem get : Natural g (Machine.Relabelled g) (MonadState.get : Eval Machine) MonadState.get :=
  fun _ _ hm => .ok hm hm

theorem bind {after : γ → δ → Prop} {p : Eval α} {p' : Eval β} {next : α → Eval γ}
    {next' : β → Eval δ} (hp : Natural g related p p')
    (hnext : ∀ value value', related value value' →
      Natural g after (next value) (next' value')) :
    Natural g after (p >>= next) (p' >>= next') := by
  intro m m' hm
  show Relabelled g (Machine.Relabelled g) after (EStateM.bind p next m) (EStateM.bind p' next' m')
  unfold EStateM.bind
  have hends := hp m m' hm
  generalize p m = result, p' m' = result' at hends
  cases hends with
  | ok hvalue hm₁ => exact hnext _ _ hvalue _ _ hm₁
  | error hm₁ => exact .error hm₁

theorem andThen {after : γ → δ → Prop} {p p' : Eval α} {next : α → Eval γ}
    {next' : α → Eval δ} (hp : Natural g Eq p p')
    (hnext : ∀ value, Natural g after (next value) (next' value)) :
    Natural g after (p >>= next) (p' >>= next') :=
  hp.bind fun value _ hvalue => hvalue ▸ hnext value

theorem within {p : Eval α} {p' : Eval β} (hp : Natural g related p p') (e : EnvId) :
    Natural g related (Eval.within e p) (Eval.within e p') := by
  rintro m _ ⟨fs, l, rfl, hfs, hrest⟩
  unfold Eval.within
  have hends := hp { m with current := e } { m with functions := fs, locals := l, current := e }
    ⟨fs, l, rfl, hfs, hrest⟩
  generalize p _ = result, p' _ = result' at hends
  cases hends with
  | ok hvalue hm₁ =>
      rcases hm₁ with ⟨fs₁, l₁, rfl, hfs₁, hrest₁⟩
      exact .ok hvalue ⟨fs₁, l₁, rfl, hfs₁, hrest₁⟩
  | error hm₁ =>
      rcases hm₁ with ⟨fs₁, l₁, rfl, hfs₁, hrest₁⟩
      exact .error ⟨fs₁, l₁, rfl, hfs₁, hrest₁⟩

theorem fail (token : Token) (cause : RuntimeCause) :
    Natural g related (Eval.fail token cause : Eval α) (Eval.fail (g token) cause : Eval β) :=
  throw rfl

theorem defect {d d' : Defect} (hdefect : d' = d.relabel g) :
    Natural g related (Eval.defect d : Eval α) (Eval.defect d' : Eval β) :=
  throw (congrArg Stop.defect hdefect)

theorem ofExcept {found found' : Except Stop α}
    (hfound : found' = found.mapError (Stop.relabel g)) :
    Natural g Eq (Eval.ofExcept found) (Eval.ofExcept found') := by
  subst hfound
  cases found with
  | ok value => exact pure rfl
  | error stop => exact throw rfl

theorem ofLookup (found : Except LookupFault α) :
    Natural g Eq (Eval.ofLookup found) (Eval.ofLookup found) := by
  cases found with
  | ok value => exact pure rfl
  | error fault => exact throw rfl

theorem ofDefect {found found' : Except Defect α}
    (hfound : found' = found.mapError (Defect.relabel g)) :
    Natural g Eq (Eval.ofDefect found) (Eval.ofDefect found') := by
  subst hfound
  cases found with
  | ok value => exact pure rfl
  | error d => exact throw rfl

end Natural

/-!
# Single steps
-/

section

variable {g : Relabelling}

theorem natural_newEnvironment (enclosing : EnvId) (values : Bindings) :
    Natural g Eq (newEnvironment enclosing values) (newEnvironment enclosing values) := by
  rintro m _ ⟨fs, l, rfl, hfs, hrest⟩
  exact .ok rfl ⟨fs, l, rfl, hfs, hrest⟩

theorem natural_defineHere (name : String) (value : Value) :
    Natural g Eq (defineHere name value) (defineHere name value) := by
  rintro m _ ⟨fs, l, rfl, hfs, hrest⟩
  exact .ok rfl ⟨fs, l, rfl, hfs, hrest⟩

theorem natural_newFunction {closure closure' : Closure}
    (hclosure : closure.Relabelled g closure') :
    Natural g Eq (newFunction closure) (newFunction closure') := by
  rintro m _ ⟨fs, l, rfl, hfs, hrest⟩
  exact .ok hfs.size.symm ⟨fs.push closure', l, rfl, hfs.push hclosure, hrest⟩

theorem natural_newClass (cls : Class) : Natural g Eq (newClass cls) (newClass cls) := by
  rintro m _ ⟨fs, l, rfl, hfs, hrest⟩
  exact .ok rfl ⟨fs, l, rfl, hfs, hrest⟩

theorem natural_newInstance (c : ClassId) : Natural g Eq (newInstance c) (newInstance c) := by
  rintro m _ ⟨fs, l, rfl, hfs, hrest⟩
  exact .ok rfl ⟨fs, l, rfl, hfs, hrest⟩

theorem natural_setField (i : InstanceId) (name : String) (value : Value) :
    Natural g Eq (setField i name value) (setField i name value) := by
  rintro m _ ⟨fs, l, rfl, hfs, hrest⟩
  exact .ok rfl ⟨fs, l, rfl, hfs, hrest⟩

theorem natural_bindMethod (f : FunctionId) (receiver : Value) :
    Natural g Eq (bindMethod f receiver) (bindMethod f receiver) := by
  refine .bind .get fun m _ hm => ?_
  obtain ⟨fs, l, rfl, hfs, hrest⟩ := hm
  have hclosure := hfs.closure f
  dsimp only
  generalize m.functions[f]? = found, fs[f]? = found' at hclosure
  cases hclosure with
  | none => exact .pure rfl
  | some hclosure =>
      dsimp only
      rw [hclosure.env]
      refine .andThen (natural_newEnvironment _ _) fun e => ?_
      exact natural_newFunction { hclosure with env := rfl }

theorem findMethod_relabelled {m m' : Machine} (hm : m.Relabelled g m') (c : ClassId)
    (name : String) : m'.findMethod c name = m.findMethod c name := by
  obtain ⟨fs, l, rfl, _, hrest⟩ := hm
  refine Machine.findMethod_congr ?_ c name
  rfl

theorem print_relabelled (hg : KeepsMeaning g) {m m' : Machine} (hm : m.Relabelled g m')
    (value : Value) : m'.print value = m.print value := by
  obtain ⟨fs, l, rfl, hfs, hrest⟩ := hm
  cases value with
  | function f =>
      have hclosure := hfs.closure f
      unfold Machine.print
      dsimp only
      generalize m.functions[f]? = found, fs[f]? = found' at hclosure
      cases hclosure with
      | none => rfl
      | some hclosure => simp only [hclosure.function.name, hg.lexeme]
  | _ => rfl

theorem natural_emit (hg : KeepsMeaning g) (value : Value) :
    Natural g Eq (emit value) (emit value) := by
  intro m m' hm
  have hline := print_relabelled hg hm value
  obtain ⟨fs, l, rfl, hfs, hrest⟩ := hm
  refine .ok rfl ⟨fs, l, ?_, hfs, hrest⟩
  simp only [hline]

theorem arity_relabelled {m m' : Machine} (hm : m.Relabelled g m') (f : Callable) :
    m'.arity f = (m.arity f).mapError (Defect.relabel g) := by
  have hmethod := findMethod_relabelled hm
  obtain ⟨fs, l, rfl, hfs, hrest⟩ := hm
  have hfunction : ∀ f, Machine.functionArity { m with functions := fs, locals := l } f =
      (m.functionArity f).mapError (Defect.relabel g) := by
    intro f
    have hclosure := hfs.closure f
    unfold Machine.functionArity
    dsimp only
    generalize m.functions[f]? = found, fs[f]? = found' at hclosure
    cases hclosure with
    | none => rfl
    | @some closure closure' hclosure =>
        have hlength := congrArg List.length hclosure.function.params
        rw [List.length_map, List.length_map] at hlength
        dsimp only
        rw [hclosure.flaw, hlength]
        cases closure.flaw <;> rfl
  cases f with
  | native id =>
      show Machine.arity m (.native id) = _
      unfold Machine.arity
      dsimp only
      cases m.natives[id]? <;> rfl
  | function f => exact hfunction f
  | cls c =>
      unfold Machine.arity
      dsimp only
      rw [hmethod]
      cases m.findMethod c initName with
      | none => rfl
      | some f => exact hfunction f

variable (hg : KeepsMeaning g)

include hg

theorem natural_lookup (r : Reference) : Natural g Eq (lookup r) (lookup (r.relabel g)) := by
  refine .bind .get fun m _ hm => ?_
  obtain ⟨fs, l, rfl, _, hlocals, _⟩ := hm
  dsimp only [Reference.relabel]
  rw [hg.lexeme, hlocals]
  cases m.locals.depth? r.node with
  | some depth => exact .ofLookup _
  | none =>
      dsimp only [Environments.get]
      rw [hg.lexeme]
      cases m.environments.get? Machine.globals r.name.lexeme with
      | some value => exact .pure rfl
      | none => exact .throw rfl

theorem natural_assignFrom (e : EnvId) (name : Token) (value : Value) :
    Natural g Eq (assignFrom e name value) (assignFrom e (g name) value) := by
  rintro m _ ⟨fs, l, rfl, hfs, hrest⟩
  unfold assignFrom Environments.assign Environments.assign?
  rw [hg.lexeme]
  dsimp only
  cases m.environments.holder? e name.lexeme with
  | none => exact .error ⟨fs, l, rfl, hfs, hrest⟩
  | some target => exact .ok rfl ⟨fs, l, rfl, hfs, hrest⟩

theorem natural_assign (r : Reference) (value : Value) :
    Natural g Eq (assign r value) (assign (r.relabel g) value) := by
  refine .bind .get fun m _ hm => ?_
  obtain ⟨fs, l, rfl, _, hlocals, _⟩ := hm
  dsimp only [Reference.relabel]
  rw [hg.lexeme, hlocals]
  cases m.locals.depth? r.node with
  | none => exact natural_assignFrom hg _ _ _
  | some depth =>
      rintro m _ ⟨fs, l, rfl, hfs, hrest⟩
      dsimp only [assignLocal, Environments.assignAt]
      cases m.environments.place m.current depth with
      | error fault => exact .error ⟨fs, l, rfl, hfs, hrest⟩
      | ok target => exact .ok rfl ⟨fs, l, rfl, hfs, hrest⟩

theorem natural_getProperty (i : InstanceId) (name : Token) :
    Natural g Eq (getProperty i name) (getProperty i (g name)) := by
  refine .bind .get fun m _ hm => ?_
  have hmethod := findMethod_relabelled hm
  obtain ⟨fs, l, rfl, _, hrest⟩ := hm
  dsimp only
  rw [hg.lexeme]
  cases m.instances[i]? with
  | none => exact .fail _ _
  | some object =>
      dsimp only
      cases object.fields.get? name.lexeme with
      | some value => exact .pure rfl
      | none =>
          dsimp only
          rw [hmethod]
          cases m.findMethod object.cls name.lexeme with
          | some f => exact .andThen (natural_bindMethod f _) fun f => .pure rfl
          | none => exact .fail _ _

omit hg in
theorem natural_superParts (keyword : Reference) :
    Natural g Eq (superParts keyword) (superParts (keyword.relabel g)) := by
  refine .bind .get fun m _ hm => ?_
  obtain ⟨fs, l, rfl, _, hlocals, _⟩ := hm
  dsimp only [Reference.relabel]
  rw [hlocals]
  cases m.locals.depth? keyword.node with
  | none => exact .defect rfl
  | some depth =>
      exact .andThen (.ofLookup _) fun parent => .andThen (.ofLookup _) fun receiver => .pure rfl

theorem natural_superMethod (keyword : Reference) (method : Token) :
    Natural g Eq (superMethod keyword method) (superMethod (keyword.relabel g) (g method)) := by
  refine .andThen (natural_superParts keyword) ?_
  rintro ⟨parent, receiver⟩
  cases parent with
  | cls c =>
      refine .bind .get fun m _ hm => ?_
      rw [findMethod_relabelled hm, hg.lexeme]
      cases m.findMethod c method.lexeme with
      | some f => exact .andThen (natural_bindMethod f receiver) fun f => .pure rfl
      | none => exact .fail _ _
  | _ => exact .defect rfl

end

/-!
# Operators
-/

section

variable {g : Relabelling} (hg : KeepsMeaning g)

include hg

theorem binary_relabel (operator : Token) (left right : Value) :
    Operator.binary (g operator) left right =
      (Operator.binary operator left right).mapError (Stop.relabel g) := by
  unfold Operator.binary Operator.arithmetic Operator.plus
  rw [hg.kind, hg.lexeme]
  split
  · rfl
  · rfl
  · split <;> rfl
  · split
    · split <;> rfl
    · rfl

theorem unary_relabel (operator : Token) (right : Value) :
    Operator.unary (g operator) right =
      (Operator.unary operator right).mapError (Stop.relabel g) := by
  unfold Operator.unary
  rw [hg.kind, hg.lexeme]
  split
  · rfl
  · split <;> rfl
  · rfl

end

/-!
# Expressions
-/

section

variable {g : Relabelling} {evaluate evaluate' : Expr → Eval Value}
variable {call call' : Callable → List Value → Eval Value}

theorem natural_invoke (hcall : ∀ f arguments, Natural g Eq (call f arguments) (call' f arguments))
    {refuse refuse' : RuntimeCause → Eval Value}
    (hrefuse : ∀ cause, Natural g Eq (refuse cause) (refuse' cause)) (callee : Value)
    (arguments : List Value) :
    Natural g Eq (invoke call refuse callee arguments) (invoke call' refuse' callee arguments) := by
  unfold invoke
  cases callee.callable? with
  | none => exact hrefuse _
  | some f =>
      refine .bind .get fun m m' hm => ?_
      refine .andThen (.ofDefect (arity_relabelled hm f)) fun expected => ?_
      split
      · exact hcall f arguments
      · exact hrefuse _

theorem natural_refuseAt (paren : Form) (cause : RuntimeCause) :
    Natural g Eq (refuseAt paren cause) (refuseAt (paren.relabel g) cause) := by
  unfold refuseAt
  rw [Form.token?_relabel]
  cases paren.token? with
  | some token => exact .fail token cause
  | none => exact .defect rfl

variable (hevaluate : ∀ e, Natural g Eq (evaluate e) (evaluate' (e.relabel g)))

include hevaluate

theorem natural_evaluateAll (es : List Expr) :
    Natural g Eq (evaluateAll evaluate es) (evaluateAll evaluate' (Expr.relabels g es)) := by
  induction es with
  | nil => exact .pure rfl
  | cons e es ih =>
      rw [Expr.relabels]
      exact .andThen (hevaluate e) fun value => .andThen ih fun values => .pure rfl

theorem natural_evaluateForm (form : Form) :
    Natural g Eq (evaluate form.expr) (evaluate' (form.relabel g).expr) := by
  rw [Form.expr_relabel]
  exact hevaluate _

theorem natural_discard (form : Form) :
    Natural g Eq (discard evaluate form) (discard evaluate' (form.relabel g)) :=
  .andThen (natural_evaluateForm hevaluate form) fun _ => .pure rfl

theorem natural_argumentForms (arguments : Form) :
    Natural g Eq (argumentForms evaluate arguments)
      (argumentForms evaluate' (arguments.relabel g)) := by
  unfold argumentForms
  rw [Form.items?_relabel, Form.sort_relabel]
  cases arguments.items? with
  | none => exact .defect rfl
  | some items =>
      dsimp only [Option.map_some]
      rw [Form.exprs_relabel]
      exact natural_evaluateAll hevaluate _

variable (hcall : ∀ f arguments, Natural g Eq (call f arguments) (call' f arguments))

include hcall

theorem natural_misfitExpr (form : Form) :
    Natural g Eq (misfitExpr evaluate call form) (misfitExpr evaluate' call' (form.relabel g)) := by
  have hdiscard := natural_discard hevaluate
  rw [misfitExpr.eq_def evaluate']
  split
  case h_1 hrelabel =>
    obtain ⟨_, value, rfl, _, rfl⟩ := Form.node_of_relabel_two hrelabel
    exact .andThen (hdiscard value) fun _ => .defect rfl
  case h_2 hrelabel =>
    obtain ⟨left, _, right, rfl, rfl, _, rfl⟩ := Form.node_of_relabel_three hrelabel
    exact .andThen (hdiscard left) fun _ => .andThen (hdiscard right) fun _ => .defect rfl
  case h_3 hrelabel =>
    obtain ⟨callee, paren, arguments, rfl, rfl, rfl, rfl⟩ := Form.node_of_relabel_three hrelabel
    refine .andThen (natural_evaluateForm hevaluate callee) fun callee => ?_
    refine .andThen (natural_argumentForms hevaluate arguments) fun arguments => ?_
    exact natural_invoke hcall (natural_refuseAt paren) callee arguments
  case h_4 hrelabel =>
    obtain ⟨object, _, rfl, rfl, _⟩ := Form.node_of_relabel_two hrelabel
    exact .andThen (hdiscard object) fun _ => .defect rfl
  case h_5 hrelabel =>
    obtain ⟨left, _, _, rfl, rfl, _, _⟩ := Form.node_of_relabel_three hrelabel
    exact .andThen (hdiscard left) fun _ => .defect rfl
  case h_6 hrelabel =>
    obtain ⟨object, _, value, rfl, rfl, _, rfl⟩ := Form.node_of_relabel_three hrelabel
    refine .andThen (natural_evaluateForm hevaluate object) fun object => ?_
    cases object with
    | object i => exact .andThen (hdiscard value) fun _ => .defect rfl
    | _ => exact .defect rfl
  case h_7 hrelabel =>
    obtain ⟨keyword, _, rfl, hkeyword, _⟩ := Form.node_of_relabel_two hrelabel
    obtain ⟨t, k, rfl, rfl, rfl⟩ := Form.relabel_eq_token.mp hkeyword
    exact .andThen (natural_superParts ⟨t, k⟩) fun _ => .defect rfl
  case h_8 hsuper hrelabel =>
    obtain ⟨fields, rfl, rfl⟩ := Form.relabel_eq_node.mp hrelabel
    rw [misfitExpr]
    · exact .defect rfl
    · rintro keyword depth method rfl
      exact hsuper _ _ _ rfl
  case h_9 hrelabel =>
    obtain ⟨fields, rfl, _⟩ := Form.relabel_eq_node.mp hrelabel
    exact .defect rfl
  case h_10 hrelabel =>
    obtain ⟨fields, rfl, _⟩ := Form.relabel_eq_node.mp hrelabel
    exact .defect rfl
  case h_11 hrelabel =>
    obtain ⟨_, right, rfl, _, rfl⟩ := Form.node_of_relabel_two hrelabel
    exact .andThen (hdiscard right) fun _ => .defect rfl
  case h_12 hassign hbinary hcalls hget hlogical hset hsuper hsupers hthis hvar hunary =>
    -- A form that is evaluated up to some point is so whatever its tokens are.
    have hrelabel : ∀ {f : Form}, form = f → form.relabel g = f.relabel g := congrArg _
    rw [misfitExpr]
    · exact .defect rfl
    · exact fun _ _ hform => hassign _ _ (hrelabel hform)
    · exact fun _ _ _ hform => hbinary _ _ _ (hrelabel hform)
    · exact fun _ _ _ hform => hcalls _ _ _ (hrelabel hform)
    · exact fun _ _ hform => hget _ _ (hrelabel hform)
    · exact fun _ _ _ hform => hlogical _ _ _ (hrelabel hform)
    · exact fun _ _ _ hform => hset _ _ _ (hrelabel hform)
    · exact fun _ _ _ hform => hsuper _ _ _ (hrelabel hform)
    · exact fun _ hform => hsupers _ (hrelabel hform)
    · exact fun _ hform => hthis _ (hrelabel hform)
    · exact fun _ hform => hvar _ (hrelabel hform)
    · exact fun _ _ hform => hunary _ _ (hrelabel hform)

variable (hg : KeepsMeaning g)

include hg

theorem natural_exprStep (e : Expr) :
    Natural g Eq (exprStep evaluate call e) (exprStep evaluate' call' (e.relabel g)) := by
  cases e with
  | assign target value =>
      rw [Expr.relabel]
      exact .andThen (hevaluate value) fun value =>
        .andThen (natural_assign hg target value) fun _ => .pure rfl
  | binary left operator right =>
      rw [Expr.relabel]
      exact .andThen (hevaluate left) fun left => .andThen (hevaluate right) fun right =>
        .ofExcept (binary_relabel hg operator left right)
  | call callee paren arguments =>
      rw [Expr.relabel]
      refine .andThen (hevaluate callee) fun callee => ?_
      refine .andThen (natural_evaluateAll hevaluate arguments) fun arguments => ?_
      exact natural_invoke hcall (.fail paren) callee arguments
  | conditional condition thenBranch elseBranch =>
      rw [Expr.relabel]
      refine .andThen (hevaluate condition) fun value => ?_
      split
      · exact hevaluate thenBranch
      · exact hevaluate elseBranch
  | get object name =>
      rw [Expr.relabel]
      refine .andThen (hevaluate object) fun value => ?_
      cases value with
      | object i => exact natural_getProperty hg i name
      | _ => exact .fail name _
  | grouping inner =>
      rw [Expr.relabel]
      exact hevaluate inner
  | literal value =>
      rw [Expr.relabel]
      exact .pure rfl
  | logical left operator right =>
      rw [Expr.relabel]
      refine .andThen (hevaluate left) fun value => ?_
      rw [show shortCircuits (g operator) value = shortCircuits operator value by
        rw [shortCircuits, shortCircuits, hg.kind]]
      split
      · exact .pure rfl
      · exact hevaluate right
  | set object name value =>
      rw [Expr.relabel]
      refine .andThen (hevaluate object) fun target => ?_
      cases target with
      | object i =>
          dsimp only
          rw [hg.lexeme]
          exact .andThen (hevaluate value) fun value =>
            .andThen (natural_setField i _ value) fun _ => .pure rfl
      | _ => exact .fail name _
  | superRef keyword method =>
      rw [Expr.relabel]
      exact natural_superMethod hg keyword method
  | thisRef keyword =>
      rw [Expr.relabel]
      exact natural_lookup hg keyword
  | unary operator right =>
      rw [Expr.relabel]
      exact .andThen (hevaluate right) fun right => .ofExcept (unary_relabel hg operator right)
  | var name =>
      rw [Expr.relabel]
      exact natural_lookup hg name
  | misfit form =>
      rw [Expr.relabel]
      exact natural_misfitExpr hevaluate hcall form

end

end Eval
end Lox
