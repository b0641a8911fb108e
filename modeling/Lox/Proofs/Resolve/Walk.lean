import Lox.Proofs.Resolve
import Lox.Proofs.Syntax.Position

/-!
# The resolver as a walk over nodes

The resolver does the same with every node: it looks for a broken rule, goes
through the parts, and looks up the name of a reference.  Nodes differ in what
they do to the scopes and to the context, on the way in and on the way out.
-/

namespace Lox
namespace Node

def context (ctx : Context) : Node → Context
  | stmt (.classDecl _ superclass _) =>
      { ctx with cls := if superclass.isSome then .subclass else .plain }
  | function method f =>
      { ctx with function := if method then Resolve.methodKind f else .function }
  | _ => ctx

def enter (S : Scopes) : Node → Scopes
  | stmt (.block _) => [] :: S
  | stmt (.classDecl name _ _) => S.finished name.lexeme
  | stmt (.funDecl f) => S.finished f.name.lexeme
  | stmt (.varDecl name _) => S.mark name.lexeme false
  | function _ _ => [] :: S
  | parameter name => S.finished name.lexeme
  | thisScope _ => [("this", true)] :: S
  | superScope _ => [("super", true)] :: S
  | _ => S

def leave (S : Scopes) : Node → Scopes
  | stmt (.block _) => S.tail
  | stmt (.varDecl name _) => S.mark name.lexeme true
  | function _ _ => S.tail
  | thisScope _ => S.tail
  | superScope _ => S.tail
  | _ => S

def violation? (ctx : Context) (S : Scopes) : Node → Option (Token × Violation)
  | stmt (.classDecl name _ _) =>
      if S.declaredHere name.lexeme then some (name, .alreadyDeclared) else none
  | stmt (.funDecl f) =>
      if S.declaredHere f.name.lexeme then some (f.name, .alreadyDeclared) else none
  | stmt (.ret keyword value) =>
      if ctx.function = .none then some (keyword, .returnAtTopLevel)
      else if value.isSome ∧ ctx.function = .initialiser then some (keyword, .returnFromInitialiser)
      else none
  | stmt (.varDecl name _) =>
      if S.declaredHere name.lexeme then some (name, .alreadyDeclared) else none
  | expr (.superRef keyword _) =>
      if ctx.cls = .none then some (keyword.name, .superOutsideClass)
      else if ctx.cls = .plain then some (keyword.name, .superWithoutSuperclass)
      else none
  | expr (.thisRef keyword) =>
      if ctx.cls = .none then some (keyword.name, .thisOutsideClass) else none
  | expr (.var r) =>
      if S.unfinishedHere r.name.lexeme then some (r.name, .readInOwnInitialiser) else none
  | parameter name =>
      if S.declaredHere name.lexeme then some (name, .alreadyDeclared) else none
  | clause cls parent =>
      if cls.lexeme = parent.name.lexeme then some (parent.name, .inheritsFromItself) else none
  | _ => none

def violations (ctx : Context) (S : Scopes) (node : Node) : List Finding :=
  ((node.violation? ctx S).map fun broken => .violation broken.1 broken.2).toList

/-- The keyword `this` outside every class is not looked up. -/
def Idle (ctx : Context) (kind : ReferenceKind) : Prop := kind = .this ∧ ctx.cls = .none

instance (ctx : Context) (kind : ReferenceKind) : Decidable (Idle ctx kind) :=
  inferInstanceAs (Decidable (_ ∧ _))

def lookups (ctx : Context) (S : Scopes) (node : Node) : List Finding :=
  node.reference?.elim [] fun r =>
    if Idle ctx r.1 then [] else (Resolve.reference r.1 r.2 S).findings

/-- What nodes do to scopes: nothing, open one, declare a name, or declare a variable. -/
inductive Effect : Node → Prop where
  | quiet {node : Node} : node.opens = false → node.declared? = none →
      (∀ S, node.enter S = S) → (∀ S, node.leave S = S) → Effect node
  | opening {node : Node} : node.opens = true → node.declared? = none →
      (∀ S, node.enter S = node.given.map (·, true) :: S) → (∀ S, node.leave S = S.tail) →
      Effect node
  | declaring {node : Node} {name : Token} : node.opens = false → node.declared? = some name →
      (∀ initial, node ≠ stmt (.varDecl name initial)) →
      (∀ S, node.enter S = S.finished name.lexeme) → (∀ S, node.leave S = S) → Effect node
  | initialising {name : Token} {initial : Option Expr} : Effect (stmt (.varDecl name initial))

theorem effect (node : Node) : node.Effect := by
  cases node with
  | stmt s =>
      cases s with
      | block body => exact .opening rfl rfl (fun _ => rfl) (fun _ => rfl)
      | classDecl name superclass methods =>
          exact .declaring rfl rfl nofun (fun _ => rfl) (fun _ => rfl)
      | funDecl f => exact .declaring rfl rfl nofun (fun _ => rfl) (fun _ => rfl)
      | varDecl name initial => exact .initialising
      | _ => exact .quiet rfl rfl (fun _ => rfl) (fun _ => rfl)
  | function isMethod f => exact .opening rfl rfl (fun _ => rfl) (fun _ => rfl)
  | thisScope methods => exact .opening rfl rfl (fun _ => rfl) (fun _ => rfl)
  | superScope methods => exact .opening rfl rfl (fun _ => rfl) (fun _ => rfl)
  | parameter name => exact .declaring rfl rfl nofun (fun _ => rfl) (fun _ => rfl)
  | _ => exact .quiet rfl rfl (fun _ => rfl) (fun _ => rfl)

end Node

inductive Walk : Context → Scopes → List Node → Scopes → List Finding → Prop where
  | nil {ctx : Context} {S : Scopes} : Walk ctx S [] S []
  | cons {ctx : Context} {S T U : Scopes} {node : Node} {nodes : List Node}
      {inner outer : List Finding} :
      Walk (node.context ctx) (node.enter S) node.parts T inner →
      Walk ctx (node.leave T) nodes U outer →
      Walk ctx S (node :: nodes) U
        (node.violations ctx S ++ (inner ++ (node.lookups ctx S ++ outer)))

namespace Walk

variable {ctx : Context} {S T U : Scopes}

theorem append {nodes nodes' : List Node} {findings findings' : List Finding}
    (hfirst : Walk ctx S nodes T findings) (hsecond : Walk ctx T nodes' U findings') :
    Walk ctx S (nodes ++ nodes') U (findings ++ findings') := by
  induction hfirst with
  | nil => exact hsecond
  | cons hinner _ _ ih =>
      have hcons := cons hinner (ih hsecond)
      simpa using hcons

theorem single {node : Node} {inner findings : List Finding}
    (hinner : Walk (node.context ctx) (node.enter S) node.parts T inner)
    (hleave : node.leave T = U)
    (hfindings : findings = node.violations ctx S ++ (inner ++ node.lookups ctx S)) :
    Walk ctx S [node] U findings := by
  have hcons := cons hinner nil
  rw [hleave, List.append_nil] at hcons
  rw [hfindings]
  exact hcons

theorem plain {node : Node} {findings : List Finding} (hrule : node.violation? ctx S = none)
    (hnode : node.reference? = none)
    (hinner : Walk (node.context ctx) (node.enter S) node.parts T findings)
    (hleave : node.leave T = U) : Walk ctx S [node] U findings := by
  apply single hinner hleave
  simp [Node.violations, Node.lookups, hrule, hnode]

theorem tail_eq {nodes : List Node} {findings : List Finding}
    (hwalk : Walk ctx S nodes U findings) : U.tail = S.tail := by
  have tail_mark : ∀ (S : Scopes) (name : String) (b : Bool), (S.mark name b).tail = S.tail := by
    intro S name b
    cases S <;> rfl
  induction hwalk with
  | nil => rfl
  | @cons ctx S T U node _ _ _ _ _ ihinner ihouter =>
      rw [ihouter]
      cases node.effect with
      | quiet _ _ henter hleave => rw [hleave, ihinner, henter]
      | opening _ _ henter hleave =>
          rw [hleave, ihinner, henter]
          rfl
      | declaring _ _ _ henter hleave =>
          rw [hleave, ihinner, henter, Scopes.finished, tail_mark, tail_mark]
      | initialising =>
          simp only [Node.leave, Node.enter, tail_mark] at ihinner ⊢
          exact ihinner

end Walk

/-!
# The resolver walks
-/

namespace Resolve

variable {ctx : Context} {S : Scopes}

theorem declare_findings (name : Token) :
    (declare name S).findings =
      ((if S.declaredHere name.lexeme then some (name, Violation.alreadyDeclared) else none).map
        fun broken => Finding.violation broken.1 broken.2).toList := by
  cases hdeclared : S.declaredHere name.lexeme <;> simp [declare, require_apply, mark, hdeclared]

theorem checkReturn_findings (keyword : Token) (hasValue : Bool) :
    (checkReturn ctx keyword hasValue S).findings =
      ((if ctx.function = .none then some (keyword, Violation.returnAtTopLevel)
        else if hasValue ∧ ctx.function = .initialiser then
          some (keyword, Violation.returnFromInitialiser)
        else none).map fun broken => Finding.violation broken.1 broken.2).toList := by
  rcases ctx with ⟨kind, _⟩
  cases kind <;> cases hasValue <;> simp [checkReturn, require_apply]

theorem walk_var (ctx : Context) (S : Scopes) (r : Reference) :
    Walk ctx S [.expr (.var r)] S (variableReference r S).findings := by
  apply Walk.single Walk.nil rfl
  cases hunfinished : S.unfinishedHere r.name.lexeme <;>
    simp [variableReference, require_apply, hunfinished, Node.violations, Node.violation?,
      Node.lookups, Node.reference?, Node.Idle]

theorem walk_thisRef (ctx : Context) (S : Scopes) (keyword : Reference) :
    Walk ctx S [.expr (.thisRef keyword)] S (thisReference ctx keyword S).findings := by
  rcases ctx with ⟨_, cls⟩
  apply Walk.single Walk.nil rfl
  cases cls <;>
    simp [thisReference, Node.violations, Node.violation?, Node.lookups, Node.reference?,
      Node.Idle]

theorem walk_superRef (ctx : Context) (S : Scopes) (keyword : Reference) (method : Token) :
    Walk ctx S [.expr (.superRef keyword method)] S (superReference ctx keyword S).findings := by
  rcases ctx with ⟨_, cls⟩
  apply Walk.single Walk.nil rfl
  cases cls <;>
    simp [superReference, Node.violations, Node.violation?, Node.lookups, Node.reference?,
      Node.Idle]

mutual

theorem walk_expr (ctx : Context) (S : Scopes) : (e : Expr) →
    Walk ctx S [.expr e] S (expr leave ctx e S).findings
  | .assign target value => by
      rw [expr_assign]
      exact .single (walk_expr ctx S value) rfl rfl
  | .binary left _ right => by
      rw [expr_binary]
      exact .plain rfl rfl ((walk_expr ctx S left).append (walk_expr ctx S right)) rfl
  | .call callee _ arguments => by
      rw [expr_call]
      exact .plain rfl rfl ((walk_expr ctx S callee).append (walk_exprs ctx S arguments)) rfl
  | .conditional condition thenBranch elseBranch => by
      rw [expr_conditional]
      exact .plain rfl rfl ((walk_expr ctx S condition).append
        ((walk_expr ctx S thenBranch).append (walk_expr ctx S elseBranch))) rfl
  | .get object _ => by
      rw [expr_get]
      exact .plain rfl rfl (walk_expr ctx S object) rfl
  | .grouping inner => by
      rw [expr_grouping]
      exact .plain rfl rfl (walk_expr ctx S inner) rfl
  | .literal _ => .plain rfl rfl .nil rfl
  | .logical left _ right => by
      rw [expr_logical]
      exact .plain rfl rfl ((walk_expr ctx S left).append (walk_expr ctx S right)) rfl
  | .set object _ value => by
      rw [expr_set]
      exact .plain rfl rfl ((walk_expr ctx S value).append (walk_expr ctx S object)) rfl
  | .superRef keyword method => by
      rw [expr_superRef]
      exact walk_superRef ctx S keyword method
  | .thisRef keyword => by
      rw [expr_thisRef]
      exact walk_thisRef ctx S keyword
  | .unary _ right => by
      rw [expr_unary]
      exact .plain rfl rfl (walk_expr ctx S right) rfl
  | .var r => by
      rw [expr_var]
      exact walk_var ctx S r
  | .misfit _ => .plain rfl rfl .nil rfl

theorem walk_exprs (ctx : Context) (S : Scopes) : (es : List Expr) →
    Walk ctx S (es.map .expr) S (exprs leave ctx es S).findings
  | [] => .nil
  | e :: es => by
      rw [exprs_cons]
      exact (walk_expr ctx S e).append (walk_exprs ctx S es)

end

theorem walk_optionalExpr (ctx : Context) (S : Scopes) (value : Option Expr) :
    Walk ctx S (value.map .expr).toList S (optionalExpr leave ctx value S).findings := by
  cases value with
  | none => exact .nil
  | some e => simpa [optionalExpr] using walk_expr ctx S e

theorem walk_superclass (ctx : Context) (S : Scopes) (name : Token) (parent : Reference) :
    Walk ctx S [.clause name parent] S (superclass name (some parent) S).findings := by
  refine .single (walk_var ctx S parent) rfl ?_
  by_cases hsame : name.lexeme = parent.name.lexeme <;>
    simp [superclass, require_apply, Node.violations, Node.violation?, Node.lookups,
      Node.reference?, hsame]

theorem walk_params (ctx : Context) (params : List Token) (S : Scopes) :
    Walk ctx S (params.map .parameter) (declareAll params S).scopes
      (declareAll params S).findings := by
  induction params generalizing S with
  | nil => exact .nil
  | cons name params ih =>
      have hname : Walk ctx S [.parameter name] (S.finished name.lexeme)
          (declare name S).findings :=
        .single .nil rfl ((declare_findings name).trans (List.append_nil _).symm)
      have hall := hname.append (ih (S.finished name.lexeme))
      simpa [declareAll, Scopes.finished] using hall

/-- A declaration is looked for in the scope, and then its parts are gone through. -/
theorem walk_declaration {node : Node} {name : Token} {T U : Scopes} {findings : List Finding}
    (hnode : node.violation? ctx S =
      if S.declaredHere name.lexeme then some (name, .alreadyDeclared) else none)
    (hreference : node.reference? = none)
    (hinner : Walk (node.context ctx) (node.enter S) node.parts T findings)
    (hleave : node.leave T = U) :
    Walk ctx S [node] U ((declare name S).findings ++ findings) := by
  apply Walk.single hinner hleave
  rw [Node.violations, hnode, declare_findings]
  simp [Node.lookups, hreference]

theorem walk_thisScope {methods : List Function} {findings : List Finding}
    (hmethods : Walk ctx ([("this", true)] :: S) (methods.map (.function true))
      ([("this", true)] :: S) findings) :
    Walk ctx S [.thisScope methods] S findings :=
  .plain rfl rfl hmethods rfl

theorem walk_superScope {methods : List Function} {findings : List Finding}
    (hthis : Walk ctx ([("super", true)] :: S) [.thisScope methods] ([("super", true)] :: S)
      findings) :
    Walk ctx S [.superScope methods] S findings :=
  .plain rfl rfl hthis rfl

mutual

theorem walk_stmt (ctx : Context) (S : Scopes) : (s : Stmt) →
    Walk ctx S [.stmt s] (stmt leave ctx s S).scopes (stmt leave ctx s S).findings
  | .block body => by
      have hbody := walk_stmts ctx ([] :: S) body
      rw [stmt_block]
      exact .plain rfl rfl hbody hbody.tail_eq
  | .classDecl name none methods => by
      rw [stmt_classDecl]
      exact walk_declaration rfl rfl (walk_thisScope (walk_functions _ _ methods)) rfl
  | .classDecl name (some parent) methods => by
      rw [stmt_classDecl]
      have hmethods := walk_functions { ctx with cls := .subclass }
        ((S.finished name.lexeme).aroundMethods true) methods
      exact walk_declaration rfl rfl
        ((walk_superclass _ _ name parent).append (walk_superScope (walk_thisScope hmethods))) rfl
  | .expression inner => by
      rw [stmt_expression, expr_scopes]
      exact .plain rfl rfl (walk_expr ctx S inner) rfl
  | .funDecl f => by
      rw [stmt_funDecl]
      exact walk_declaration rfl rfl (walk_function ctx _ false f) rfl
  | .ifElse condition thenBranch none => by
      rw [stmt_ifThen]
      exact .plain rfl rfl ((walk_expr ctx S condition).append (walk_stmt ctx S thenBranch)) rfl
  | .ifElse condition thenBranch (some elseBranch) => by
      rw [stmt_ifElse rfl]
      exact .plain rfl rfl ((walk_expr ctx S condition).append
        ((walk_stmt ctx S thenBranch).append (walk_stmt ctx _ elseBranch))) rfl
  | .print inner => by
      rw [stmt_print, expr_scopes]
      exact .plain rfl rfl (walk_expr ctx S inner) rfl
  | .ret keyword value => by
      rw [stmt_ret]
      refine .single (walk_optionalExpr ctx S value) rfl ?_
      rw [checkReturn_findings]
      simp [Node.violations, Node.violation?, Node.lookups, Node.reference?]
  | .varDecl name initial => by
      rw [stmt_varDecl]
      exact walk_declaration rfl rfl (walk_optionalExpr ctx _ initial) rfl
  | .whileLoop condition body => by
      rw [stmt_whileLoop]
      exact .plain rfl rfl ((walk_expr ctx S condition).append (walk_stmt ctx S body)) rfl
  | .misfit _ => .plain rfl rfl .nil rfl

theorem walk_stmts (ctx : Context) (S : Scopes) : (ss : List Stmt) →
    Walk ctx S (ss.map .stmt) (stmts leave ctx ss S).scopes (stmts leave ctx ss S).findings
  | [] => .nil
  | s :: ss => by
      rw [stmts_cons rfl]
      exact (walk_stmt ctx S s).append (walk_stmts ctx _ ss)

theorem walk_function (ctx : Context) (S : Scopes) (method : Bool) : (f : Function) →
    Walk ctx S [.function method f] S
      (function leave ctx (if method then methodKind f else .function) f S).findings
  | ⟨name, params, body⟩ => by
      rw [function_mk rfl]
      have hinner := (walk_params
        { ctx with function := if method then methodKind ⟨name, params, body⟩ else .function }
        params ([] :: S)).append (walk_stmts _ _ body)
      exact .plain rfl rfl hinner hinner.tail_eq

theorem walk_functions (ctx : Context) (S : Scopes) : (fs : List Function) →
    Walk ctx S (fs.map (.function true)) S (functions leave ctx fs S).findings
  | [] => .nil
  | f :: fs => by
      rw [functions_cons]
      exact (walk_function ctx S true f).append (walk_functions ctx S fs)

end

end Resolve

theorem walk_resolve (program : List Stmt) :
    Walk {} [] (Node.program program).parts (resolve program).scopes (resolve program).findings :=
  Resolve.walk_stmts {} [] program

end Lox
