import Mathlib.Data.List.Forall2
import Lox.Proofs.Evaluate.Natural

/-!
# Programs run alike under relabelling

Statements and calls commute with every relabelling that keeps kinds and texts,
and so, by induction on the bound on the depth of evaluation, do whole programs.
-/

namespace Lox
namespace Eval

variable {g : Relabelling}

/-!
# Declarations
-/

/-- Functions as they were declared, of which the second one is relabelled. -/
structure Loose.Relabelled (g : Relabelling) (loose loose' : Loose) : Prop where
  function : Function.Relabelled g loose.function loose'.function
  flaw : loose'.flaw = loose.flaw.map (Defect.relabel g)

theorem Loose.Relabelled.closure {loose loose' : Loose} (hloose : loose.Relabelled g loose')
    (e : EnvId) (isInitialiser : Bool) :
    Closure.Relabelled g (loose.closure e isInitialiser) (loose'.closure e isInitialiser) :=
  ⟨hloose.function, rfl, rfl, hloose.flaw⟩

theorem body_relabel (form : Form) :
    Loose.body (form.relabel g) = Stmt.relabels g (Loose.body form) := by
  unfold Loose.body
  rw [Form.items?_relabel]
  cases form.items? with
  | some items => exact Form.stmts_relabel g items
  | none => simp only [Option.map_none, Stmt.relabels, Stmt.relabel, Form.relabel, Form.relabels]

section

variable (hg : KeepsMeaning g)

include hg

theorem relabelled_ofParts (name : Token) (params body : Form) :
    (Loose.ofParts name params body).Relabelled g
      (Loose.ofParts (g name) (params.relabel g) (body.relabel g)) := by
  unfold Loose.ofParts
  rw [Form.items?_relabel, Form.sort_relabel, body_relabel]
  cases params.items? with
  | none =>
      dsimp only [Option.map_none]
      exact ⟨⟨rfl, rfl, by rw [Stmt.relabels]⟩, rfl⟩
  | some items =>
      dsimp only [Option.map_some]
      rw [Form.mapM_token?_relabels]
      cases items.mapM Form.token? with
      | some tokens => exact ⟨⟨rfl, by simp [Function.comp_def, hg.lexeme], rfl⟩, rfl⟩
      | none =>
          refine ⟨⟨rfl, ?_, ?_⟩, rfl⟩
          · -- what is no token stays the token that stands for it
            simp only [Option.map_none, Form.relabels_eq_map, List.map_map]
            refine List.map_congr_left fun param _ => ?_
            simp only [Function.comp_apply, Form.token?_relabel]
            cases param.token? with
            | some token => exact hg.lexeme token
            | none => rfl
          · simp [nameless, Stmt.relabels, Stmt.relabel, Form.relabel, Form.relabels, Form.absent]

omit hg in
theorem ofMethod_nameless {method : Form} (hname : method.nameToken? = none) :
    Loose.ofMethod method = defect .noToken := by
  unfold Loose.ofMethod
  rw [hname]

omit hg in
theorem ofMethod_other {method : Form} {name : Token} (hname : method.nameToken? = some name)
    (hother : ∀ a b c, method ≠ .node .funDecl [a, b, c]) :
    Loose.ofMethod method = pure ⟨⟨name, [], []⟩, some .noToken⟩ := by
  unfold Loose.ofMethod
  rw [hname]
  split
  · exact absurd rfl (hother _ _ _)
  · next hsame _ =>
      injection hsame with hsame
      rw [hsame]
  · next hsame => cases hsame

theorem natural_ofMethod (method : Form) :
    Natural g (Loose.Relabelled g) (Loose.ofMethod method) (Loose.ofMethod (method.relabel g)) := by
  have hname' := Form.nameToken?_relabel g method
  cases hname : method.nameToken? with
  | none =>
      rw [hname] at hname'
      rw [ofMethod_nameless hname, ofMethod_nameless hname']
      exact .defect rfl
  | some name =>
      rw [hname] at hname'
      by_cases hshape : ∃ a params body, method = .node .funDecl [a, params, body]
      · obtain ⟨a, params, body, rfl⟩ := hshape
        unfold Loose.ofMethod
        rw [hname, hname']
        exact .pure (relabelled_ofParts hg name params body)
      · rw [ofMethod_other hname fun a b c hmethod => hshape ⟨a, b, c, hmethod⟩,
          ofMethod_other hname' ?_]
        · exact .pure ⟨⟨rfl, rfl, by rw [Stmt.relabels]⟩, rfl⟩
        · intro a b c hrelabel
          obtain ⟨a', b', c', rfl, _⟩ := Form.node_of_relabel_three hrelabel
          exact hshape ⟨a', b', c', rfl⟩

theorem natural_makeMethods {read : α → Eval Loose} {read' : β → Eval Loose} {methods : List α}
    {methods' : List β}
    (hmethods : List.Forall₂ (fun method method' =>
      Natural g (Loose.Relabelled g) (read method) (read' method')) methods methods')
    (table : MethodTable) :
    Natural g Eq (makeMethods read methods table) (makeMethods read' methods' table) := by
  induction hmethods generalizing table with
  | nil => exact .pure rfl
  | cons hmethod _ ih =>
      refine .bind hmethod fun loose loose' hloose => .bind .get fun m _ hm => ?_
      obtain ⟨fs, l, rfl, _, _⟩ := hm
      have hname := hloose.function.name
      rw [Function.isInitialiser, Function.isInitialiser, hname, hg.lexeme]
      exact .andThen (natural_newFunction (hloose.closure _ _)) fun id => ih _

omit hg in
theorem natural_enterClass (parent : Option ClassId) :
    Natural g Eq (enterClass parent) (enterClass parent) := by
  cases parent with
  | none => exact .pure rfl
  | some c =>
      refine .bind .get fun m _ hm => ?_
      obtain ⟨fs, l, rfl, _, _⟩ := hm
      refine .andThen (natural_newEnvironment _ _) fun e => ?_
      rintro m _ ⟨fs, l, rfl, hfs, hrest⟩
      exact .ok rfl ⟨fs, l, rfl, hfs, hrest⟩

omit hg in
theorem natural_leaveClass (parent : Option ClassId) :
    Natural g Eq (leaveClass parent) (leaveClass parent) := by
  cases parent with
  | none => exact .pure rfl
  | some c =>
      rintro m _ ⟨fs, l, rfl, hfs, hrest⟩
      dsimp only [leaveClass, leave]
      cases m.environments.enclosing m.current with
      | none => exact .error ⟨fs, l, rfl, hfs, hrest⟩
      | some outer => exact .ok rfl ⟨fs, l, rfl, hfs, hrest⟩

theorem natural_buildClass (name : Token) (parent : Option ClassId)
    {methods methods' : Eval MethodTable} (hmethods : Natural g Eq methods methods') :
    Natural g Eq (buildClass name parent methods) (buildClass (g name) parent methods') := by
  unfold buildClass
  rw [hg.lexeme]
  refine .andThen (natural_defineHere _ _) fun _ => ?_
  refine .andThen (natural_enterClass parent) fun _ => .andThen hmethods fun table => ?_
  refine .andThen (natural_newClass _) fun c => ?_
  refine .andThen (natural_leaveClass parent) fun _ => .bind .get fun m _ hm => ?_
  obtain ⟨fs, l, rfl, _, _⟩ := hm
  exact natural_assignFrom hg _ name _

end

/-!
# Statements
-/

section

variable {evaluate evaluate' : Expr → Eval Value} {execute execute' : Stmt → Eval Completion}

theorem natural_executeAll (hexecute : ∀ s, Natural g Eq (execute s) (execute' (s.relabel g)))
    (ss : List Stmt) :
    Natural g Eq (executeAll execute ss) (executeAll execute' (Stmt.relabels g ss)) := by
  induction ss with
  | nil =>
      rw [Stmt.relabels]
      exact .pure rfl
  | cons s ss ih =>
      rw [Stmt.relabels]
      refine .andThen (hexecute s) fun completion => ?_
      cases completion with
      | normal => exact ih
      | returned value => exact .pure rfl

theorem natural_innerBlock (hexecute : ∀ s, Natural g Eq (execute s) (execute' (s.relabel g)))
    (body : List Stmt) :
    Natural g Eq (do executeBlock execute body (← newEnvironment (← get).current []))
      (do executeBlock execute' (Stmt.relabels g body) (← newEnvironment (← get).current [])) := by
  refine .bind .get fun m _ hm => ?_
  obtain ⟨fs, l, rfl, _, _⟩ := hm
  refine .andThen (natural_newEnvironment _ _) fun e => ?_
  exact (natural_executeAll hexecute body).within e

/-- A function that is made in the current environment and bound to its name. -/
theorem natural_bindFunction (hg : KeepsMeaning g) (name : Token)
    {closure closure' : EnvId → Closure}
    (hclosure : ∀ e, (closure e).Relabelled g (closure' e)) :
    Natural g Eq
      (do
        let id ← newFunction (closure (← get).current)
        defineHere name.lexeme (.function id)
        pure Completion.normal)
      (do
        let id ← newFunction (closure' (← get).current)
        defineHere (g name).lexeme (.function id)
        pure Completion.normal) := by
  rw [hg.lexeme]
  refine .bind .get fun m _ hm => ?_
  obtain ⟨fs, l, rfl, _, _⟩ := hm
  refine .andThen (natural_newFunction (hclosure _)) fun id => ?_
  exact .andThen (natural_defineHere _ _) fun _ => .pure rfl

variable (hevaluate : ∀ e, Natural g Eq (evaluate e) (evaluate' (e.relabel g)))

include hevaluate

theorem natural_optional (value : Option Expr) :
    Natural g Eq (optional evaluate value) (optional evaluate' (value.map (Expr.relabel g))) := by
  cases value with
  | none => exact .pure rfl
  | some e => exact hevaluate e

theorem natural_optionalForm (form : Form) :
    Natural g Eq (optional evaluate (form.optional Form.expr))
      (optional evaluate' ((form.relabel g).optional Form.expr)) := by
  rw [Form.optional_relabel]
  exact natural_optional hevaluate _

theorem natural_superclass (parent : Option Reference) :
    Natural g Eq (superclass evaluate parent)
      (superclass evaluate' (parent.map (Reference.relabel g))) := by
  cases parent with
  | none => exact .pure rfl
  | some name =>
      refine .andThen (hevaluate (.var name)) fun value => ?_
      cases value with
      | cls c => exact .pure rfl
      | _ => exact .fail name.name _

theorem natural_looseSuperclass (parent : Form) :
    Natural g Eq (looseSuperclass evaluate parent)
      (looseSuperclass evaluate' (parent.relabel g)) := by
  unfold looseSuperclass
  rw [Form.isAbsent_relabel, Form.nameToken?_relabel]
  split
  · exact .pure rfl
  · refine .andThen (natural_evaluateForm hevaluate parent) fun value => ?_
    cases value with
    | cls c => exact .pure rfl
    | _ =>
        dsimp only
        cases parent.nameToken? with
        | some name => exact .fail name _
        | none => exact .defect rfl

variable (hg : KeepsMeaning g)

include hg

theorem natural_declareClass (name : Token) (parent : Option Reference) (methods : List Function) :
    Natural g Eq (declareClass evaluate name parent methods)
      (declareClass evaluate' (g name) (parent.map (Reference.relabel g))
        (Function.relabels g methods)) := by
  refine .andThen (natural_superclass hevaluate parent) fun parent => ?_
  refine natural_buildClass hg name parent (natural_makeMethods hg ?_ [])
  rw [Function.relabels_eq_map, List.forall₂_map_right_iff]
  exact List.forall₂_same.mpr fun f _ => .pure ⟨Function.relabelled_relabel hg f, rfl⟩

theorem natural_looseClass (name parent methods : Form) :
    Natural g Eq (looseClass evaluate name parent methods)
      (looseClass evaluate' (name.relabel g) (parent.relabel g) (methods.relabel g)) := by
  unfold looseClass
  rw [Form.token?_relabel]
  refine .andThen (natural_looseSuperclass hevaluate parent) fun parent => ?_
  cases name.token? with
  | none => exact .defect rfl
  | some name =>
      refine natural_buildClass hg name parent ?_
      unfold looseMethods
      rw [Form.items?_relabel, Form.sort_relabel]
      cases methods.items? with
      | none => exact .defect rfl
      | some items =>
          dsimp only [Option.map_some]
          refine natural_makeMethods hg ?_ []
          rw [Form.relabels_eq_map, List.forall₂_map_right_iff]
          exact List.forall₂_same.mpr fun method _ => natural_ofMethod hg method

variable (hexecute : ∀ s, Natural g Eq (execute s) (execute' (s.relabel g)))

include hexecute

theorem natural_misfitStmt (form : Form) :
    Natural g Eq (misfitStmt evaluate execute form)
      (misfitStmt evaluate' execute' (form.relabel g)) := by
  rw [misfitStmt.eq_def evaluate']
  split
  case h_1 hrelabel =>
    obtain ⟨body, rfl, rfl⟩ := Form.node_of_relabel_one hrelabel
    rw [misfitStmt, Form.items?_relabel, Form.sort_relabel]
    cases body.items? with
    | none => exact .defect rfl
    | some items =>
        dsimp only [Option.map_some]
        rw [Form.stmts_relabel]
        exact natural_innerBlock hexecute _
  case h_2 hrelabel =>
    obtain ⟨name, parent, methods, rfl, rfl, rfl, rfl⟩ := Form.node_of_relabel_three hrelabel
    exact .andThen (natural_looseClass hevaluate hg name parent methods) fun _ => .pure rfl
  case h_3 hrelabel =>
    obtain ⟨name, params, body, rfl, rfl, rfl, rfl⟩ := Form.node_of_relabel_three hrelabel
    rw [misfitStmt, Form.token?_relabel]
    cases name.token? with
    | none => exact .defect rfl
    | some name =>
        exact natural_bindFunction hg name fun e =>
          (relabelled_ofParts hg name params body).closure e _
  case h_4 hrelabel =>
    obtain ⟨_, value, rfl, _, rfl⟩ := Form.node_of_relabel_two hrelabel
    exact .andThen (natural_optionalForm hevaluate value) fun _ => .pure rfl
  case h_5 hrelabel =>
    obtain ⟨_, initial, rfl, _, rfl⟩ := Form.node_of_relabel_two hrelabel
    exact .andThen (natural_optionalForm hevaluate initial) fun _ => .defect rfl
  case h_6 hblock hclass hfun hret hvar =>
    have hrelabel : ∀ {f : Form}, form = f → form.relabel g = f.relabel g := congrArg _
    rw [misfitStmt]
    · exact .defect rfl
    · exact fun _ hform => hblock _ (hrelabel hform)
    · exact fun _ _ _ hform => hclass _ _ _ (hrelabel hform)
    · exact fun _ _ _ hform => hfun _ _ _ (hrelabel hform)
    · exact fun _ _ hform => hret _ _ (hrelabel hform)
    · exact fun _ _ hform => hvar _ _ (hrelabel hform)

theorem natural_stmtStep (s : Stmt) :
    Natural g Eq (stmtStep evaluate execute s) (stmtStep evaluate' execute' (s.relabel g)) := by
  cases s with
  | block body =>
      rw [Stmt.relabel]
      exact natural_innerBlock hexecute body
  | classDecl name parent methods =>
      rw [Stmt.relabel]
      exact .andThen (natural_declareClass hevaluate hg name parent methods) fun _ => .pure rfl
  | expression inner =>
      rw [Stmt.relabel]
      exact .andThen (hevaluate inner) fun _ => .pure rfl
  | funDecl f =>
      rw [Stmt.relabel]
      have hf := Function.relabelled_relabel hg f
      have hclosure : ∀ e, Closure.Relabelled g ⟨f, e, false, none⟩ ⟨f.relabel g, e, false, none⟩ :=
        fun e => ⟨hf, rfl, rfl, rfl⟩
      unfold stmtStep
      dsimp only
      rw [hf.name]
      exact natural_bindFunction hg f.name hclosure
  | ifElse condition thenBranch elseBranch =>
      cases elseBranch with
      | none =>
          rw [Stmt.relabel]
          refine .andThen (hevaluate condition) fun value => ?_
          split
          · exact hexecute thenBranch
          · exact .pure rfl
      | some elseBranch =>
          rw [Stmt.relabel]
          refine .andThen (hevaluate condition) fun value => ?_
          split
          · exact hexecute thenBranch
          · exact hexecute elseBranch
  | print inner =>
      rw [Stmt.relabel]
      exact .andThen (hevaluate inner) fun value =>
        .andThen (natural_emit hg value) fun _ => .pure rfl
  | ret keyword value =>
      rw [Stmt.relabel]
      exact .andThen (natural_optional hevaluate value) fun _ => .pure rfl
  | varDecl name initial =>
      rw [Stmt.relabel]
      refine .andThen (natural_optional hevaluate initial) fun value => ?_
      rw [hg.lexeme]
      exact .andThen (natural_defineHere _ _) fun _ => .pure rfl
  | whileLoop condition body =>
      have hloop := hexecute (.whileLoop condition body)
      rw [Stmt.relabel] at hloop ⊢
      refine .andThen (hevaluate condition) fun value => ?_
      split
      · refine .andThen (hexecute body) fun completion => ?_
        cases completion with
        | normal => exact hloop
        | returned value => exact .pure rfl
      · exact .pure rfl
  | misfit form =>
      rw [Stmt.relabel]
      exact natural_misfitStmt hevaluate hg hexecute form

end

/-!
# Calls
-/

theorem parameters_congr {params params' : List Token}
    (hparams : params'.map Token.lexeme = params.map Token.lexeme) (arguments : List Value) :
    parameters params' arguments = parameters params arguments := by
  have htexts : ∀ params : List Token, parameters params arguments =
      ((params.map Token.lexeme).zip arguments).foldl
        (fun bindings entry => Bindings.insert bindings entry.1 entry.2) [] := by
    intro params
    rw [List.zip_map_left, List.foldl_map]
    rfl
  rw [htexts, htexts, hparams]

section

variable {execute execute' : Stmt → Eval Completion}
variable (hexecute : ∀ s, Natural g Eq (execute s) (execute' (s.relabel g)))

include hexecute

theorem natural_callFunction (f : FunctionId) (arguments : List Value) :
    Natural g Eq (callFunction execute f arguments) (callFunction execute' f arguments) := by
  refine .bind .get fun m _ hm => ?_
  obtain ⟨fs, l, rfl, hfs, _⟩ := hm
  have hclosure := hfs.closure f
  dsimp only
  generalize m.functions[f]? = found, fs[f]? = found' at hclosure
  cases hclosure with
  | none => exact .pure rfl
  | @some closure closure' hclosure =>
      dsimp only
      rw [hclosure.env, hclosure.function.body, parameters_congr hclosure.function.params]
      refine .andThen (natural_newEnvironment _ _) fun e => ?_
      refine .andThen ((natural_executeAll hexecute _).within e) fun completion => ?_
      unfold callResult
      rw [hclosure.isInitialiser, hclosure.env]
      split
      · refine .bind .get fun m _ hm => ?_
        obtain ⟨fs, l, rfl, _, _⟩ := hm
        exact .ofLookup _
      · cases completion with
        | returned value => exact .pure rfl
        | normal => exact .pure rfl

omit hexecute in
theorem natural_onHeap {native : Native} (hnative : native.Ignores g) (arguments : List Value) :
    Natural g Eq (onHeap (native.action arguments)) (onHeap (native.action arguments)) := by
  rintro m _ ⟨fs, l, rfl, hfs, hrest⟩
  have hends := hnative arguments m.toHeap { m.toHeap with functions := fs } ⟨fs, rfl, hfs⟩
  dsimp only [onHeap]
  generalize native.action arguments m.toHeap = result,
    native.action arguments { m.toHeap with functions := fs } = result' at hends
  cases hends with
  | ok hvalue hheap =>
      obtain ⟨fs₁, rfl, hfs₁⟩ := hheap
      exact .ok hvalue ⟨fs₁, l, rfl, hfs₁, hrest⟩
  | error hheap =>
      obtain ⟨fs₁, rfl, hfs₁⟩ := hheap
      exact .error ⟨fs₁, l, rfl, hfs₁, hrest⟩

omit hexecute in
theorem natural_callNative (id : NativeId) (arguments : List Value) :
    Natural g Eq (callNative id arguments) (callNative id arguments) := by
  refine .bind .get fun m _ hm => ?_
  obtain ⟨fs, l, rfl, _, _, hnatives⟩ := hm
  dsimp only
  cases hnative : m.natives[id]? with
  | none => exact .pure rfl
  | some native =>
      exact natural_onHeap (hnatives native (Array.mem_of_getElem? hnative)) arguments

theorem natural_callStep (f : Callable) (arguments : List Value) :
    Natural g Eq (callStep execute f arguments) (callStep execute' f arguments) := by
  cases f with
  | native id => exact natural_callNative id arguments
  | function f => exact natural_callFunction hexecute f arguments
  | cls c =>
      refine .andThen (natural_newInstance c) fun i => .bind .get fun m m' hm => ?_
      rw [findMethod_relabelled hm]
      cases m.findMethod c initName with
      | none => exact .pure rfl
      | some f =>
          refine .andThen (natural_bindMethod f _) fun f => ?_
          exact .andThen (natural_callFunction hexecute f arguments) fun _ => .pure rfl

end

/-!
# Programs
-/

section

variable (hg : KeepsMeaning g)

include hg

theorem natural_evaluate_execute_call (n : Nat) :
    (∀ e, Natural g Eq (evaluate n e) (evaluate n (e.relabel g))) ∧
      (∀ s, Natural g Eq (execute n s) (execute n (s.relabel g))) ∧
      ∀ f arguments, Natural g Eq (call n f arguments) (call n f arguments) := by
  induction n with
  | zero => exact ⟨fun _ => .throw rfl, fun _ => .throw rfl, fun _ _ => .throw rfl⟩
  | succ n ih =>
      obtain ⟨hevaluate, hexecute, hcall⟩ := ih
      refine ⟨fun e => ?_, fun s => ?_, fun f arguments => ?_⟩
      · exact natural_exprStep hevaluate hcall hg e
      · exact natural_stmtStep hevaluate hg hexecute s
      · exact natural_callStep hexecute f arguments

theorem natural_interpret (n : Nat) (program : List Stmt) :
    Natural g Eq (interpret n program) (interpret n (Stmt.relabels g program)) :=
  natural_executeAll (natural_evaluate_execute_call hg n).2.1 program

end

end Eval
end Lox
