import Lox.Resolve

/-!
# The resolver, form by form

What the resolver does with each form of tree, as one equation, where misfits are
left alone.  Expressions leave the scopes as they are; a statement changes the
innermost scope only.
-/

namespace Lox
namespace Scopes

def finished (S : Scopes) (name : String) : Scopes := (S.mark name false).mark name true

def aroundMethods (S : Scopes) (subclass : Bool) : Scopes :=
  [("this", true)] :: if subclass then [("super", true)] :: S else S

end Scopes

/-!
# Findings
-/

namespace Finding

def violation? : Finding → Option (Token × Violation)
  | violation token rule => some (token, rule)
  | _ => none

theorem diagnostic?_eq_map (finding : Finding) :
    finding.diagnostic? = finding.violation?.map fun broken => .atToken broken.1 broken.2 := by
  cases finding <;> rfl

/-- What was found breaks no rule, and it is what is seen at the nodes. -/
def Seen (sees : NodeId → Option Nat → Prop) : Finding → Prop
  | .violation _ _ => False
  | .local node distance => sees node (some distance.depth)
  | .global node _ => sees node none
  | .defect _ => False

end Finding

namespace Resolve

/-- Findings without violations. -/
def Silent (findings : List Finding) : Prop := ∀ finding ∈ findings, finding.diagnostic? = none

@[simp]
theorem silent_nil : Silent [] := by
  intro finding hfinding
  cases hfinding

@[simp]
theorem silent_append {first second : List Finding} :
    Silent (first ++ second) ↔ Silent first ∧ Silent second := by
  simp only [Silent, List.mem_append, or_imp, forall_and]

@[simp]
theorem silent_cons {finding : Finding} {findings : List Finding} :
    Silent (finding :: findings) ↔ finding.diagnostic? = none ∧ Silent findings := by
  simp only [Silent, List.mem_cons, or_imp, forall_and, forall_eq]

def Seen (sees : NodeId → Option Nat → Prop) (findings : List Finding) : Prop :=
  ∀ finding ∈ findings, finding.Seen sees

@[simp]
theorem seen_append {sees : NodeId → Option Nat → Prop} {first second : List Finding} :
    Seen sees (first ++ second) ↔ Seen sees first ∧ Seen sees second := by
  simp only [Seen, List.mem_append, or_imp, forall_and]

theorem Seen.silent {sees : NodeId → Option Nat → Prop} {findings : List Finding}
    (hseen : Seen sees findings) : Silent findings := by
  intro finding hfinding
  have hfound := hseen finding hfinding
  cases finding with
  | violation token rule => cases hfound
  | defect d => cases hfound
  | _ => rfl

theorem silent_iff_diagnostics {r : Resolution α} :
    Silent r.findings ↔ r.diagnostics = [] := by
  rw [Resolution.diagnostics, List.filterMap_eq_nil_iff]
  rfl

@[simp]
theorem bind_apply (p : Resolve α) (next : α → Resolve β) (S : Scopes) :
    (p >>= next) S =
      ⟨(next (p S).value (p S).scopes).value, (next (p S).value (p S).scopes).scopes,
        (p S).findings ++ (next (p S).value (p S).scopes).findings⟩ := rfl

@[simp]
theorem ok_apply (value : α) (S : Scopes) : ok value S = ⟨value, S, []⟩ := rfl

@[simp]
theorem note_apply (finding : Finding) (S : Scopes) : note finding S = ⟨(), S, [finding]⟩ := rfl

@[simp]
theorem scopes_apply (S : Scopes) : scopes S = ⟨S, S, []⟩ := rfl

theorem require_apply (allowed : Bool) (token : Token) (rule : Violation) (S : Scopes) :
    require allowed token rule S =
      ⟨(), S, if allowed then [] else [.violation token rule]⟩ := by
  cases allowed <;> rfl

@[simp]
theorem silent_require {allowed : Bool} {token : Token} {rule : Violation} {S : Scopes} :
    Silent (require allowed token rule S).findings ↔ allowed = true := by
  cases allowed <;> simp [require_apply, Finding.diagnostic?]

@[simp]
theorem reference_apply (kind : ReferenceKind) (r : Reference) (S : Scopes) :
    (reference kind r S).scopes = S ∧ Silent (reference kind r S).findings := by
  cases hdepth : S.depth? r.name.lexeme <;>
    simp [reference, hdepth, Finding.diagnostic?]

theorem seen_reference {sees : NodeId → Option Nat → Prop} {kind : ReferenceKind} {r : Reference}
    {S : Scopes} :
    Seen sees (reference kind r S).findings ↔ sees r.node (S.depth? r.name.lexeme) := by
  cases hdepth : S.depth? r.name.lexeme <;>
    simp [reference, hdepth, Seen, Finding.Seen]

/-!
# Expressions leave the scopes alone
-/

@[simp]
theorem variableReference_scopes (r : Reference) (S : Scopes) :
    (variableReference r S).scopes = S := by
  simp [variableReference, require_apply]

theorem silent_variableReference {r : Reference} {S : Scopes} :
    Silent (variableReference r S).findings ↔
      S.unfinishedHere r.name.lexeme = false := by
  cases hunfinished : S.unfinishedHere r.name.lexeme <;>
    simp [variableReference, require_apply, hunfinished, Finding.diagnostic?]

theorem sees_of_variableReference {sees : NodeId → Option Nat → Prop} {r : Reference} {S : Scopes}
    (hseen : Seen sees (variableReference r S).findings) :
    sees r.node (S.depth? r.name.lexeme) := by
  simp only [variableReference, bind_apply, scopes_apply, require_apply, seen_append] at hseen
  exact seen_reference.mp hseen.2.2

@[simp]
theorem thisReference_scopes (ctx : Context) (r : Reference) (S : Scopes) :
    (thisReference ctx r S).scopes = S := by
  rcases ctx with ⟨_, _ | _ | _⟩ <;> simp [thisReference]

@[simp]
theorem superReference_scopes (ctx : Context) (r : Reference) (S : Scopes) :
    (superReference ctx r S).scopes = S := by
  rcases ctx with ⟨_, _ | _ | _⟩ <;> simp [superReference]

mutual

@[simp]
theorem expr_scopes (ctx : Context) (S : Scopes) :
    (e : Expr) → (expr leave ctx e S).scopes = S
  | .assign _ value => by simp [expr, expr_scopes ctx S value]
  | .binary left _ right => by simp [expr, expr_scopes ctx S left, expr_scopes ctx S right]
  | .call callee _ arguments => by
      simp [expr, expr_scopes ctx S callee, exprs_scopes ctx S arguments]
  | .conditional condition thenBranch elseBranch => by
      simp [expr, expr_scopes ctx S condition, expr_scopes ctx S thenBranch,
        expr_scopes ctx S elseBranch]
  | .get object _ => by simp [expr, expr_scopes ctx S object]
  | .grouping inner => by simp [expr, expr_scopes ctx S inner]
  | .literal _ => by simp [expr]
  | .logical left _ right => by simp [expr, expr_scopes ctx S left, expr_scopes ctx S right]
  | .set object _ value => by simp [expr, expr_scopes ctx S object, expr_scopes ctx S value]
  | .superRef _ _ => by simp [expr]
  | .thisRef _ => by simp [expr]
  | .unary _ right => by simp [expr, expr_scopes ctx S right]
  | .var _ => by simp [expr]
  | .misfit _ => by simp [expr, leave]

@[simp]
theorem exprs_scopes (ctx : Context) (S : Scopes) :
    (es : List Expr) → (exprs leave ctx es S).scopes = S
  | [] => rfl
  | e :: es => by simp [exprs, expr_scopes ctx S e, exprs_scopes ctx S es]

end

@[simp]
theorem optionalExpr_scopes (ctx : Context) (S : Scopes) (value : Option Expr) :
    (optionalExpr leave ctx value S).scopes = S := by
  cases value <;> simp [optionalExpr]

/-!
# One equation for each form
-/

section

variable {ctx : Context} {S : Scopes}

theorem expr_assign {target : Reference} {value : Expr} :
    expr leave ctx (.assign target value) S =
      ⟨(), S, (expr leave ctx value S).findings ++ (reference .assign target S).findings⟩ := by
  simp [expr]

theorem expr_binary {left right : Expr} {operator : Token} :
    expr leave ctx (.binary left operator right) S =
      ⟨(), S, (expr leave ctx left S).findings ++ (expr leave ctx right S).findings⟩ := by
  simp [expr]

theorem expr_call {callee : Expr} {paren : Token} {arguments : List Expr} :
    expr leave ctx (.call callee paren arguments) S =
      ⟨(), S, (expr leave ctx callee S).findings ++ (exprs leave ctx arguments S).findings⟩ := by
  simp [expr]

theorem expr_conditional {condition thenBranch elseBranch : Expr} :
    expr leave ctx (.conditional condition thenBranch elseBranch) S =
      ⟨(), S, (expr leave ctx condition S).findings ++ ((expr leave ctx thenBranch S).findings ++
          (expr leave ctx elseBranch S).findings)⟩ := by
  simp [expr]

theorem expr_get {object : Expr} {name : Token} :
    expr leave ctx (.get object name) S = expr leave ctx object S := by rw [expr]

theorem expr_grouping {inner : Expr} :
    expr leave ctx (.grouping inner) S = expr leave ctx inner S := by rw [expr]

theorem expr_logical {left right : Expr} {operator : Token} :
    expr leave ctx (.logical left operator right) S =
      ⟨(), S, (expr leave ctx left S).findings ++ (expr leave ctx right S).findings⟩ := by
  simp [expr]

theorem expr_set {object value : Expr} {name : Token} :
    expr leave ctx (.set object name value) S =
      ⟨(), S, (expr leave ctx value S).findings ++ (expr leave ctx object S).findings⟩ := by
  simp [expr]

theorem expr_superRef {keyword : Reference} {method : Token} :
    expr leave ctx (.superRef keyword method) S = superReference ctx keyword S := by rw [expr]

theorem expr_thisRef {keyword : Reference} :
    expr leave ctx (.thisRef keyword) S = thisReference ctx keyword S := by rw [expr]

theorem expr_unary {operator : Token} {right : Expr} :
    expr leave ctx (.unary operator right) S = expr leave ctx right S := by rw [expr]

theorem expr_var {name : Reference} :
    expr leave ctx (.var name) S = variableReference name S := by rw [expr]

theorem exprs_cons {e : Expr} {es : List Expr} :
    exprs leave ctx (e :: es) S =
      ⟨(), S, (expr leave ctx e S).findings ++ (exprs leave ctx es S).findings⟩ := by
  simp [exprs]

end

/-!
# Statements leave the outer scopes alone
-/

@[simp]
theorem declare_scopes (name : Token) (S : Scopes) :
    (declare name S).scopes = S.mark name.lexeme false := by
  simp [declare, require_apply, mark]

@[simp]
theorem define_apply (name : Token) (S : Scopes) :
    define name S = ⟨(), S.mark name.lexeme true, []⟩ := rfl

@[simp]
theorem superclass_scopes (name : Token) (parent : Option Reference) (S : Scopes) :
    (superclass name parent S).scopes = S := by
  cases parent <;> simp [superclass, require_apply]

@[simp]
theorem checkReturn_scopes (ctx : Context) (keyword : Token) (hasValue : Bool) (S : Scopes) :
    (checkReturn ctx keyword hasValue S).scopes = S := by
  simp [checkReturn, require_apply]

theorem silent_checkReturn {ctx : Context} {keyword : Token} {hasValue : Bool} {S : Scopes} :
    Silent (checkReturn ctx keyword hasValue S).findings ↔
      (ctx.function != .none) = true ∧ (!(hasValue && ctx.function == .initialiser)) = true := by
  simp only [checkReturn, bind_apply, silent_append, silent_require]

theorem declareAll_tail (params : List Token) (scope : Scope) (S : Scopes) :
    ∃ scope', (declareAll params (scope :: S)).scopes = scope' :: S := by
  induction params generalizing scope with
  | nil => exact ⟨scope, rfl⟩
  | cons name names ih => simpa [declareAll, Scopes.mark] using ih _

mutual

theorem stmt_tail (ctx : Context) (scope : Scope) (S : Scopes) :
    (s : Stmt) → ∃ scope', (stmt leave ctx s (scope :: S)).scopes = scope' :: S
  | .block body => by
      rcases stmts_tail ctx [] (scope :: S) body with ⟨scope', hbody⟩
      exact ⟨scope, by simp [stmt, within, hbody]⟩
  | .classDecl name parent methods => by
      have hmethods := fun kind T => functions_scopes { ctx with cls := kind } T methods
      refine ⟨(name.lexeme, true) :: (name.lexeme, false) :: scope, ?_⟩
      cases hparent : parent.isSome <;>
        simp [stmt, classScopes, within, hmethods, hparent, Scopes.mark]
  | .expression _ => ⟨scope, by simp [stmt]⟩
  | .funDecl f => by
      refine ⟨(f.name.lexeme, true) :: (f.name.lexeme, false) :: scope, ?_⟩
      simp [stmt, function_scopes ctx, Scopes.mark]
  | .ifElse _ thenBranch elseBranch => by
      rcases stmt_tail ctx scope S thenBranch with ⟨scope', hthen⟩
      rcases optionalStmt_tail ctx scope' S elseBranch with ⟨scope'', helse⟩
      exact ⟨scope'', by simp [stmt, hthen, helse]⟩
  | .print _ => ⟨scope, by simp [stmt]⟩
  | .ret _ _ => ⟨scope, by simp [stmt]⟩
  | .varDecl name _ => ⟨(name.lexeme, true) :: (name.lexeme, false) :: scope, by
      simp [stmt, Scopes.mark]⟩
  | .whileLoop _ body => by
      rcases stmt_tail ctx scope S body with ⟨scope', hbody⟩
      exact ⟨scope', by simp [stmt, hbody]⟩
  | .misfit _ => ⟨scope, by simp [stmt, leave]⟩

theorem optionalStmt_tail (ctx : Context) (scope : Scope) (S : Scopes) :
    (s : Option Stmt) → ∃ scope', (optionalStmt leave ctx s (scope :: S)).scopes = scope' :: S
  | none => ⟨scope, rfl⟩
  | some s => by
      rcases stmt_tail ctx scope S s with ⟨scope', hs⟩
      exact ⟨scope', by simp [optionalStmt, hs]⟩

theorem stmts_tail (ctx : Context) (scope : Scope) (S : Scopes) :
    (ss : List Stmt) → ∃ scope', (stmts leave ctx ss (scope :: S)).scopes = scope' :: S
  | [] => ⟨scope, by simp [stmts]⟩
  | s :: ss => by
      rcases stmt_tail ctx scope S s with ⟨scope', hs⟩
      rcases stmts_tail ctx scope' S ss with ⟨scope'', hss⟩
      exact ⟨scope'', by simp [stmts, hs, hss]⟩

@[simp]
theorem function_scopes (ctx : Context) (kind : FunctionKind) (S : Scopes) :
    (f : Function) → (function leave ctx kind f S).scopes = S
  | ⟨_, params, body⟩ => by
      rcases declareAll_tail params [] S with ⟨scope, hparams⟩
      rcases stmts_tail { ctx with function := kind } scope S body with ⟨scope', hbody⟩
      simp [function, within, hparams, hbody]

@[simp]
theorem functions_scopes (ctx : Context) (S : Scopes) :
    (fs : List Function) → (functions leave ctx fs S).scopes = S
  | [] => by simp [functions]
  | f :: fs => by simp [functions, function_scopes ctx, functions_scopes ctx S fs]

end

/-!
# One equation for each form
-/

section

variable {ctx : Context} {S : Scopes}

theorem stmt_block {body : List Stmt} :
    stmt leave ctx (.block body) S =
      ⟨(), S, (stmts leave ctx body ([] :: S)).findings⟩ := by
  rcases stmts_tail ctx [] S body with ⟨scope, hbody⟩
  simp [stmt, within, hbody]

theorem stmt_classDecl {name : Token} {parent : Option Reference} {methods : List Function} :
    stmt leave ctx (.classDecl name parent methods) S =
      ⟨(), S.finished name.lexeme,
        (declare name S).findings ++ ((superclass name parent (S.finished name.lexeme)).findings ++
          (functions leave { ctx with cls := if parent.isSome then .subclass else .plain } methods
            ((S.finished name.lexeme).aroundMethods parent.isSome)).findings)⟩ := by
  cases hparent : parent.isSome <;>
    simp [stmt, classScopes, within, hparent, Scopes.finished, Scopes.aroundMethods]

theorem stmt_expression {inner : Expr} :
    stmt leave ctx (.expression inner) S = expr leave ctx inner S := by rw [stmt]

theorem stmt_funDecl {f : Function} :
    stmt leave ctx (.funDecl f) S =
      ⟨(), S.finished f.name.lexeme,
        (declare f.name S).findings ++
          (function leave ctx .function f (S.finished f.name.lexeme)).findings⟩ := by
  simp [stmt, Scopes.finished]

theorem stmt_ifThen {condition : Expr} {thenBranch : Stmt} :
    stmt leave ctx (.ifElse condition thenBranch none) S =
      ⟨(), (stmt leave ctx thenBranch S).scopes,
        (expr leave ctx condition S).findings ++ (stmt leave ctx thenBranch S).findings⟩ := by
  simp [stmt, optionalStmt]

theorem stmt_ifElse {condition : Expr} {thenBranch elseBranch : Stmt} {T : Scopes}
    (hthen : (stmt leave ctx thenBranch S).scopes = T) :
    stmt leave ctx (.ifElse condition thenBranch (some elseBranch)) S =
      ⟨(), (stmt leave ctx elseBranch T).scopes,
        (expr leave ctx condition S).findings ++ ((stmt leave ctx thenBranch S).findings ++
          (stmt leave ctx elseBranch T).findings)⟩ := by
  simp [stmt, optionalStmt, hthen]

theorem stmt_print {inner : Expr} :
    stmt leave ctx (.print inner) S = expr leave ctx inner S := by rw [stmt]

theorem stmt_ret {keyword : Token} {value : Option Expr} :
    stmt leave ctx (.ret keyword value) S =
      ⟨(), S, (checkReturn ctx keyword value.isSome S).findings ++
          (optionalExpr leave ctx value S).findings⟩ := by
  simp [stmt]

theorem stmt_varDecl {name : Token} {initial : Option Expr} :
    stmt leave ctx (.varDecl name initial) S =
      ⟨(), S.finished name.lexeme,
        (declare name S).findings ++
          (optionalExpr leave ctx initial (S.mark name.lexeme false)).findings⟩ := by
  simp [stmt, Scopes.finished]

theorem stmt_whileLoop {condition : Expr} {body : Stmt} :
    stmt leave ctx (.whileLoop condition body) S =
      ⟨(), (stmt leave ctx body S).scopes,
        (expr leave ctx condition S).findings ++ (stmt leave ctx body S).findings⟩ := by
  simp [stmt]

theorem stmts_cons {s : Stmt} {ss : List Stmt} {T : Scopes}
    (hs : (stmt leave ctx s S).scopes = T) :
    stmts leave ctx (s :: ss) S =
      ⟨(), (stmts leave ctx ss T).scopes,
        (stmt leave ctx s S).findings ++ (stmts leave ctx ss T).findings⟩ := by
  simp [stmts, hs]

theorem function_mk {kind : FunctionKind} {name : Token} {params : List Token}
    {body : List Stmt} {T : Scopes} (hparams : (declareAll params ([] :: S)).scopes = T) :
    function leave ctx kind ⟨name, params, body⟩ S =
      ⟨(), S, (declareAll params ([] :: S)).findings ++
          (stmts leave { ctx with function := kind } body T).findings⟩ := by
  have hscopes := function_scopes ctx kind S ⟨name, params, body⟩
  simp only [function, within, bind_apply, hparams] at hscopes ⊢
  rw [hscopes]

theorem functions_cons {f : Function} {fs : List Function} :
    functions leave ctx (f :: fs) S =
      ⟨(), S, (function leave ctx (methodKind f) f S).findings ++
          (functions leave ctx fs S).findings⟩ := by
  simp [functions]

end

/-!
# Programs one after the other

Outside every scope no declaration is remembered, so a program is resolved
without regard to what stands in front of it.
-/

mutual

theorem stmt_outside (ctx : Context) : (s : Stmt) → (stmt leave ctx s []).scopes = []
  | .block body => by rw [stmt_block]
  | .classDecl name parent methods => by
      rw [stmt_classDecl]
      rfl
  | .expression inner => by rw [stmt_expression, expr_scopes]
  | .funDecl f => by
      rw [stmt_funDecl]
      rfl
  | .ifElse _ thenBranch elseBranch => by
      simp [stmt, stmt_outside ctx thenBranch, optionalStmt_outside ctx elseBranch]
  | .print inner => by rw [stmt_print, expr_scopes]
  | .ret keyword value => by rw [stmt_ret]
  | .varDecl name initial => by
      rw [stmt_varDecl]
      rfl
  | .whileLoop condition body => by
      rw [stmt_whileLoop]
      exact stmt_outside ctx body
  | .misfit _ => by simp [stmt, leave]

theorem optionalStmt_outside (ctx : Context) :
    (s : Option Stmt) → (optionalStmt leave ctx s []).scopes = []
  | none => rfl
  | some s => by simp [optionalStmt, stmt_outside ctx s]

end

theorem stmts_outside_append (ctx : Context) (first second : List Stmt) :
    stmts leave ctx (first ++ second) [] =
      ⟨(), (stmts leave ctx second []).scopes,
        (stmts leave ctx first []).findings ++ (stmts leave ctx second []).findings⟩ := by
  induction first with
  | nil => simp [stmts]
  | cons s first ih =>
      have hs := stmt_outside ctx s
      rw [List.cons_append, stmts_cons hs, stmts_cons hs, ih, List.append_assoc]

end Resolve

theorem findings_resolve_append (first second : List Stmt) :
    (resolve (first ++ second)).findings =
      (resolve first).findings ++ (resolve second).findings := by
  unfold resolve
  rw [Resolve.stmts_outside_append]

end Lox
