import Lox.Parse.Statement
import Lox.Proofs.Syntax.Relabel

/-!
# Parsing does not look at texts and lines

The parser decides by the kinds of tokens alone, and takes a constant from its
token.  So it commutes with every relabelling of tokens that keeps these: the
trees, the reports and the tokens left are relabelled.
-/

namespace Lox

/-- A relabelling that keeps kinds and constants. -/
structure KeepsSyntax (g : Token → Token) : Prop where
  kind : ∀ token, (g token).kind = token.kind
  literal : ∀ token, token.kind = .number ∨ token.kind = .string →
    (g token).literal = token.literal

namespace Parser

def relabelled (g : Token → Token) (f : α → β) (parsed : Parsed α) : Parsed β :=
  ⟨parsed.reports.map fun r => ⟨r.token.map g, r.violation⟩, parsed.result.map f,
    parsed.rest.map g⟩

/-- The second parser does on relabelled tokens what the first one does. -/
def Natural (g : Token → Token) (f : α → β) (p : Parser α) (p' : Parser β) : Prop :=
  ∀ ts, p' (ts.map g) = relabelled g f (p ts)

namespace Natural

variable {g : Token → Token}

theorem ok (f : α → β) (value : α) : Natural g f (Parser.ok value) (Parser.ok (f value)) := by
  intro ts
  rfl

theorem giveUp (f : α → β) : Natural g f Parser.giveUp Parser.giveUp := by
  intro ts
  rfl

theorem fail (f : α → β) (violation : Violation) :
    Natural g f (Parser.fail violation) (Parser.fail violation) := by
  intro ts
  cases ts <;> rfl

theorem reportHere (violation : Violation) :
    Natural g id (Parser.reportHere violation) (Parser.reportHere violation) := by
  intro ts
  cases ts <;> rfl

theorem reportAt (token : Token) (violation : Violation) :
    Natural g id (Parser.reportAt token violation) (Parser.reportAt (g token) violation) := by
  intro ts
  rfl

theorem bind {f : α → β} {h : γ → δ} {p : Parser α} {p' : Parser β} {next : α → Parser γ}
    {next' : β → Parser δ} (hp : Natural g f p p')
    (hnext : ∀ value, Natural g h (next value) (next' (f value))) :
    Natural g h (p >>= next) (p' >>= next') := by
  intro ts
  show andThen p' next' (ts.map g) = relabelled g h (andThen p next ts)
  unfold andThen
  rw [hp ts]
  cases hresult : (p ts).result with
  | none => simp only [relabelled, hresult, Option.map_none]
  | some value =>
      have hrest := hnext value (p ts).rest
      simp only [relabelled, hresult, Option.map_some] at hrest ⊢
      rw [hrest, List.map_append]

theorem map {f : α → β} {h : γ → δ} {p : Parser α} {p' : Parser β} {k : α → γ} {k' : β → δ}
    (hp : Natural g f p p') (hk : ∀ value, k' (f value) = h (k value)) :
    Natural g h (k <$> p) (k' <$> p') := by
  refine bind hp ?_
  intro value
  show Natural g h (Parser.ok (k value)) (Parser.ok (k' (f value)))
  rw [hk]
  exact ok h (k value)

section

variable (hg : KeepsSyntax g)

include hg

theorem peek : Natural g id Parser.peek Parser.peek := by
  intro ts
  cases ts with
  | nil => rfl
  | cons token ts => simp [Parser.peek, relabelled, hg.kind]

theorem accept (kinds : List TokenKind) :
    Natural g (Option.map g) (Parser.accept kinds) (Parser.accept kinds) := by
  intro ts
  cases ts with
  | nil => rfl
  | cons token ts =>
      rw [List.map_cons, Parser.accept, Parser.accept, hg.kind]
      by_cases hkind : token.kind ∈ kinds
      · rw [if_pos hkind, if_pos hkind]
        rfl
      · rw [if_neg hkind, if_neg hkind]
        rfl

theorem expect (kind : TokenKind) (what : String) :
    Natural g g (Parser.expect kind what) (Parser.expect kind what) := by
  refine bind (accept hg [kind]) ?_
  intro token?
  cases token? with
  | none => exact fail g _
  | some token => exact ok g token

theorem unlessNext {f : α → β} (kind : TokenKind) {p : Parser α} {p' : Parser β}
    (hp : Natural g f p p') :
    Natural g (Option.map f) (Parser.unlessNext kind p) (Parser.unlessNext kind p') := by
  refine bind (peek hg) ?_
  intro kind?
  by_cases hkind : kind? = some kind
  · simp only [id_eq, if_pos hkind]
    exact ok (Option.map f) none
  · simp only [id_eq, if_neg hkind]
    exact map hp fun _ => rfl

theorem moreItems {f : α → β} {item : Parser α} {item' : Parser β} (hitem : Natural g f item item')
    (what : String) (n count : Nat) :
    Natural g (List.map f) (Parser.moreItems item what n count)
      (Parser.moreItems item' what n count) := by
  induction n generalizing count with
  | zero => exact giveUp _
  | succ n ih =>
      refine bind (accept hg [.comma]) ?_
      intro comma?
      cases comma? with
      | none => exact ok (List.map f) []
      | some comma =>
          have hitems : Natural g (List.map f)
              (do
                let first ← item
                let rest ← Parser.moreItems item what n (count + 1)
                Parser.ok (first :: rest))
              (do
                let first ← item'
                let rest ← Parser.moreItems item' what n (count + 1)
                Parser.ok (first :: rest)) :=
            bind hitem fun first => bind (ih (count + 1)) fun rest =>
              ok (List.map f) (first :: rest)
          by_cases hcount : maxArguments ≤ count
          · simp only [Option.map_some, if_pos hcount]
            exact bind (reportHere _) fun _ => hitems
          · simp only [Option.map_some, if_neg hcount]
            exact hitems

theorem items {f : α → β} {item : Parser α} {item' : Parser β} (hitem : Natural g f item item')
    (what : String) (n : Nat) :
    Natural g (List.map f) (Parser.items item what n) (Parser.items item' what n) := by
  refine bind (peek hg) ?_
  intro kind?
  by_cases hkind : kind? = some .rightParen
  · simp only [id_eq, if_pos hkind]
    exact ok (List.map f) []
  · simp only [id_eq, if_neg hkind]
    exact bind hitem fun first => bind (moreItems hg hitem what n 1) fun rest =>
      ok (List.map f) (first :: rest)

end

end Natural

/-!
# Expressions
-/

theorem natural_assigned (g : Token → Token) (equals : Token) (target value : Expr) :
    Natural g (Expr.relabel g) (assigned equals target value)
      (assigned (g equals) (target.relabel g) (value.relabel g)) := by
  cases target with
  | var name => exact .ok (Expr.relabel g) (.assign name value)
  | get object name => exact .ok (Expr.relabel g) (.set object name value)
  | _ => exact .bind (.reportAt equals _) fun _ => .ok (Expr.relabel g) _

theorem natural_stmt {g : Token → Token} {s s' : Stmt} (hs : s.relabel g = s') :
    Natural g (Stmt.relabel g) (ok s) (ok s') := by
  rw [← hs]
  exact .ok (Stmt.relabel g) s

section

variable {g : Token → Token} (hg : KeepsSyntax g)

include hg

theorem natural_superAccess (keyword : Token) :
    Natural g (Expr.relabel g) (superAccess keyword) (superAccess (g keyword)) :=
  .bind (.expect hg _ _) fun _ => .bind (.expect hg _ _) fun _ => .ok (Expr.relabel g) _

theorem natural_primary {expression : Parser Expr}
    (hexpression : Natural g (Expr.relabel g) expression expression) :
    Natural g (Expr.relabel g) (primary expression) (primary expression) := by
  have hparen : Natural g (Expr.relabel g) (parenthesised expression)
      (parenthesised expression) :=
    .bind hexpression fun _ => .bind (.expect hg _ _) fun _ => .ok (Expr.relabel g) _
  intro ts
  cases ts with
  | nil => rfl
  | cons token ts =>
      rw [List.map_cons, primary, primary, hg.kind]
      cases hkind : token.kind with
      | kwSuper => exact natural_superAccess hg token ts
      | leftParen => exact hparen ts
      | number =>
          rw [hg.literal token (Or.inl hkind)]
          rfl
      | string =>
          rw [hg.literal token (Or.inr hkind)]
          rfl
      | _ => rfl

theorem natural_suffixes {expression : Parser Expr}
    (hexpression : Natural g (Expr.relabel g) expression expression) (n : Nat) (inner : Expr) :
    Natural g (Expr.relabel g) (suffixes expression n inner)
      (suffixes expression n (inner.relabel g)) := by
  induction n generalizing inner with
  | zero => exact .giveUp _
  | succ n ih =>
      refine .bind (.accept hg _) ?_
      intro token?
      cases token? with
      | none => exact .ok (Expr.relabel g) inner
      | some token =>
          simp only [Option.map_some, hg.kind]
          by_cases hkind : token.kind = .leftParen
          · rw [if_pos hkind, if_pos hkind]
            refine .bind (.items hg hexpression _ _) ?_
            intro arguments
            refine .bind (.expect hg _ _) ?_
            intro paren
            have hnext := ih (.call inner paren arguments)
            rw [Expr.relabel, Expr.relabels_eq_map] at hnext
            exact hnext
          · rw [if_neg hkind, if_neg hkind]
            refine .bind (.expect hg _ _) ?_
            intro name
            have hnext := ih (.get inner name)
            rw [Expr.relabel] at hnext
            exact hnext

theorem natural_unary {operand : Parser Expr}
    (hoperand : Natural g (Expr.relabel g) operand operand) (n : Nat) :
    Natural g (Expr.relabel g) (unary operand n) (unary operand n) := by
  induction n with
  | zero => exact .giveUp _
  | succ n ih =>
      refine .bind (.accept hg _) ?_
      intro operator?
      cases operator? with
      | none => exact hoperand
      | some operator => exact .bind ih fun right => .ok (Expr.relabel g) (.unary operator right)

theorem natural_chain {operand : Parser Expr} {kinds : List TokenKind}
    {node : Expr → Token → Expr → Expr}
    (hoperand : Natural g (Expr.relabel g) operand operand)
    (hnode : ∀ left operator right, (node left operator right).relabel g =
      node (left.relabel g) (g operator) (right.relabel g)) (n : Nat) :
    Natural g (Expr.relabel g) (chain operand kinds node n) (chain operand kinds node n) := by
  have hrest : ∀ (n : Nat) (left : Expr), Natural g (Expr.relabel g)
      (chainRest operand kinds node n left) (chainRest operand kinds node n (left.relabel g)) := by
    intro n
    induction n with
    | zero =>
        intro left
        exact .giveUp _
    | succ n ih =>
        intro left
        refine .bind (.accept hg _) ?_
        intro operator?
        cases operator? with
        | none => exact .ok (Expr.relabel g) left
        | some operator =>
            refine .bind hoperand ?_
            intro right
            have hnext := ih (node left operator right)
            rw [hnode] at hnext
            exact hnext
  exact .bind hoperand fun left => hrest n left

theorem natural_logicOr {expression : Parser Expr}
    (hexpression : Natural g (Expr.relabel g) expression expression) (n : Nat) :
    Natural g (Expr.relabel g) (logicOr n expression) (logicOr n expression) := by
  have hbinary : ∀ left operator right, (Expr.binary left operator right).relabel g =
      .binary (left.relabel g) (g operator) (right.relabel g) := by
    intro left operator right
    rw [Expr.relabel]
  have hlogical : ∀ left operator right, (Expr.logical left operator right).relabel g =
      .logical (left.relabel g) (g operator) (right.relabel g) := by
    intro left operator right
    rw [Expr.relabel]
  have hcall : Natural g (Expr.relabel g) (call n expression) (call n expression) :=
    .bind (natural_primary hg hexpression) fun inner => natural_suffixes hg hexpression n inner
  have hfactor : Natural g (Expr.relabel g) (factor n expression) (factor n expression) :=
    natural_chain hg (natural_unary hg hcall n) hbinary n
  have hterm : Natural g (Expr.relabel g) (term n expression) (term n expression) :=
    natural_chain hg hfactor hbinary n
  have hcomparison : Natural g (Expr.relabel g) (comparison n expression)
      (comparison n expression) := natural_chain hg hterm hbinary n
  have hequality : Natural g (Expr.relabel g) (equality n expression) (equality n expression) :=
    natural_chain hg hcomparison hbinary n
  have hternary : Natural g (Expr.relabel g) (ternary n expression) (ternary n expression) := by
    refine .bind hequality ?_
    intro condition
    refine .bind (.accept hg _) ?_
    intro question?
    cases question? with
    | none => exact .ok (Expr.relabel g) condition
    | some question =>
        exact .bind hexpression fun thenBranch => .bind (.expect hg _ _) fun _ =>
          .bind hexpression fun elseBranch =>
            .ok (Expr.relabel g) (.conditional condition thenBranch elseBranch)
  exact natural_chain hg (natural_chain hg hternary hlogical n) hlogical n

theorem natural_expression (n : Nat) :
    Natural g (Expr.relabel g) (expression n) (expression n) := by
  induction n with
  | zero => exact .giveUp _
  | succ n ih =>
      refine .bind (natural_logicOr hg ih (n + 1)) ?_
      intro target
      refine .bind (.accept hg _) ?_
      intro equals?
      cases equals? with
      | none => exact .ok (Expr.relabel g) target
      | some equals => exact .bind ih fun value => natural_assigned g equals target value

/-!
# Statements
-/

theorem natural_endingIn {form : Expr → Stmt}
    (hform : ∀ e, (form e).relabel g = form (e.relabel g)) (what : String) (n : Nat) :
    Natural g (Stmt.relabel g) (endingIn form what n) (endingIn form what n) :=
  .bind (natural_expression hg n) fun _ => .bind (.expect hg _ _) fun _ =>
    natural_stmt (hform _)

theorem natural_expressionStatement (n : Nat) :
    Natural g (Stmt.relabel g) (expressionStatement n) (expressionStatement n) :=
  natural_endingIn hg (fun _ => by rw [Stmt.relabel]) _ n

theorem natural_returnStatement (n : Nat) (keyword : Token) :
    Natural g (Stmt.relabel g) (returnStatement n keyword) (returnStatement n (g keyword)) :=
  .bind (.unlessNext hg _ (natural_expression hg n)) fun _ => .bind (.expect hg _ _) fun _ =>
    natural_stmt (by rw [Stmt.relabel])

theorem natural_varDeclaration (n : Nat) :
    Natural g (Stmt.relabel g) (varDeclaration n) (varDeclaration n) := by
  refine .bind (.expect hg _ _) ?_
  intro name
  have hrest : ∀ initial : Option Expr, Natural g (Stmt.relabel g)
      (do
        let _ ← expect .semicolon "';' after variable declaration"
        ok (.varDecl name initial))
      (do
        let _ ← expect .semicolon "';' after variable declaration"
        ok (.varDecl (g name) (initial.map (Expr.relabel g)))) :=
    fun _ => .bind (.expect hg _ _) fun _ => natural_stmt (by rw [Stmt.relabel])
  refine .bind (.accept hg _) ?_
  intro equals?
  cases equals? with
  | none => exact .bind (.ok (Option.map (Expr.relabel g)) none) hrest
  | some equals => exact .bind (.map (natural_expression hg n) fun _ => rfl) hrest

theorem natural_firstClause (n : Nat) :
    Natural g (Option.map (Stmt.relabel g)) (firstClause n) (firstClause n) := by
  refine .bind (.accept hg _) ?_
  intro token?
  cases token? with
  | none => exact .map (natural_expressionStatement hg n) fun _ => rfl
  | some token =>
      simp only [Option.map_some, hg.kind]
      by_cases hkind : token.kind = .semicolon
      · rw [if_pos hkind]
        exact .ok (Option.map (Stmt.relabel g)) none
      · rw [if_neg hkind]
        exact .map (natural_varDeclaration hg n) fun _ => rfl

section

variable {statement : Parser Stmt} (hstatement : Natural g (Stmt.relabel g) statement statement)

include hstatement

theorem natural_forStatement (n : Nat) :
    Natural g (Stmt.relabel g) (forStatement n statement) (forStatement n statement) := by
  refine .bind (.expect hg _ _) fun _ => .bind (natural_firstClause hg n) fun first => ?_
  refine .bind (.unlessNext hg _ (natural_expression hg n)) fun condition => ?_
  refine .bind (.expect hg _ _) fun _ => ?_
  refine .bind (.unlessNext hg _ (natural_expression hg n)) fun increment => ?_
  refine .bind (.expect hg _ _) fun _ => .bind hstatement fun body => ?_
  exact natural_stmt (Stmt.relabel_forLoop g first condition increment body)

theorem natural_ifStatement (n : Nat) :
    Natural g (Stmt.relabel g) (ifStatement n statement) (ifStatement n statement) := by
  refine .bind (.expect hg _ _) fun _ => .bind (natural_expression hg n) fun condition => ?_
  refine .bind (.expect hg _ _) fun _ => .bind hstatement fun thenBranch => ?_
  refine .bind (.accept hg _) ?_
  intro otherwise?
  cases otherwise? with
  | none => exact natural_stmt (by rw [Stmt.relabel])
  | some otherwise =>
      exact .bind hstatement fun elseBranch => natural_stmt (by rw [Stmt.relabel])

theorem natural_whileStatement (n : Nat) :
    Natural g (Stmt.relabel g) (whileStatement n statement) (whileStatement n statement) := by
  refine .bind (.expect hg _ _) fun _ => .bind (natural_expression hg n) fun condition => ?_
  refine .bind (.expect hg _ _) fun _ => .bind hstatement fun body => ?_
  exact natural_stmt (by rw [Stmt.relabel])

end

section

variable {declaration : Parser (Option Stmt)}
  (hdeclaration : Natural g (Option.map (Stmt.relabel g)) declaration declaration)

include hdeclaration

theorem natural_declarations (n : Nat) :
    Natural g (List.map (Stmt.relabel g)) (declarations declaration n)
      (declarations declaration n) := by
  induction n with
  | zero => exact .giveUp _
  | succ n ih =>
      refine .bind (.peek hg) ?_
      intro kind?
      have hmore : Natural g (List.map (Stmt.relabel g))
          (do
            let first ← declaration
            let rest ← declarations declaration n
            ok (first.toList ++ rest))
          (do
            let first ← declaration
            let rest ← declarations declaration n
            ok (first.toList ++ rest)) := by
        refine .bind hdeclaration fun first => .bind ih fun rest => ?_
        have hok := Natural.ok (g := g) (List.map (Stmt.relabel g)) (first.toList ++ rest)
        rw [List.map_append] at hok
        cases first <;> exact hok
      cases kind? with
      | none => exact .ok (List.map (Stmt.relabel g)) []
      | some kind =>
          cases kind <;> first | exact hmore | exact .ok (List.map (Stmt.relabel g)) []

theorem natural_blockBody (n : Nat) :
    Natural g (List.map (Stmt.relabel g)) (blockBody n declaration) (blockBody n declaration) :=
  .bind (natural_declarations hg hdeclaration n) fun _ => .bind (.expect hg _ _) fun _ =>
    .ok (List.map (Stmt.relabel g)) _

theorem natural_function (n : Nat) (what : String) :
    Natural g (Function.relabel g) (function n declaration what) (function n declaration what) := by
  refine .bind (.expect hg _ _) fun name => .bind (.expect hg _ _) fun _ => ?_
  refine .bind (.items hg (.expect hg _ _) _ n) fun params => .bind (.expect hg _ _) fun _ => ?_
  refine .bind (.expect hg _ _) fun _ => .bind (natural_blockBody hg hdeclaration n) fun body => ?_
  have hok := Natural.ok (g := g) (Function.relabel g) ⟨name, params, body⟩
  rw [Function.relabel, Stmt.relabels_eq_map] at hok
  exact hok

theorem natural_methods (n : Nat) :
    Natural g (List.map (Function.relabel g)) (methods declaration n) (methods declaration n) := by
  induction n with
  | zero => exact .giveUp _
  | succ n ih =>
      refine .bind (.peek hg) ?_
      intro kind?
      have hmore : Natural g (List.map (Function.relabel g))
          (do
            let first ← function n declaration "method"
            let rest ← methods declaration n
            ok (first :: rest))
          (do
            let first ← function n declaration "method"
            let rest ← methods declaration n
            ok (first :: rest)) :=
        .bind (natural_function hg hdeclaration n _) fun first => .bind ih fun rest =>
          .ok (List.map (Function.relabel g)) (first :: rest)
      cases kind? with
      | none => exact .ok (List.map (Function.relabel g)) []
      | some kind =>
          cases kind <;> first | exact hmore | exact .ok (List.map (Function.relabel g)) []

theorem natural_classDeclaration (n : Nat) :
    Natural g (Stmt.relabel g) (classDeclaration n declaration)
      (classDeclaration n declaration) := by
  have hsuperclass : Natural g (Option.map (Reference.relabel g)) superclass superclass := by
    refine .bind (.accept hg _) ?_
    intro less?
    cases less? with
    | none => exact .ok (Option.map (Reference.relabel g)) none
    | some less =>
        exact .bind (.expect hg _ _) fun name =>
          .ok (Option.map (Reference.relabel g)) (some ⟨name, 0⟩)
  refine .bind (.expect hg _ _) fun name => .bind hsuperclass fun parent => ?_
  refine .bind (.expect hg _ _) fun _ => .bind (natural_methods hg hdeclaration n) fun members => ?_
  refine .bind (.expect hg _ _) fun _ => ?_
  exact natural_stmt (by rw [Stmt.relabel, Function.relabels_eq_map])

theorem natural_anyStatement {statement : Parser Stmt}
    (hstatement : Natural g (Stmt.relabel g) statement statement) (n : Nat) :
    Natural g (Stmt.relabel g) (anyStatement n statement declaration)
      (anyStatement n statement declaration) := by
  refine .bind (.accept hg _) ?_
  intro token?
  cases token? with
  | none => exact natural_expressionStatement hg n
  | some token =>
      simp only [Option.map_some, hg.kind]
      have hblock : Natural g (Stmt.relabel g) (.block <$> blockBody n declaration)
          (.block <$> blockBody n declaration) :=
        .map (natural_blockBody hg hdeclaration n) fun body => by
          rw [Stmt.relabel, Stmt.relabels_eq_map]
      cases token.kind with
      | kwFor => exact natural_forStatement hg hstatement n
      | kwIf => exact natural_ifStatement hg hstatement n
      | kwPrint => exact natural_endingIn hg (fun _ => by rw [Stmt.relabel]) _ n
      | kwReturn => exact natural_returnStatement hg n token
      | kwWhile => exact natural_whileStatement hg hstatement n
      | _ => exact hblock

theorem natural_anyDeclaration {statement : Parser Stmt}
    (hstatement : Natural g (Stmt.relabel g) statement statement) (n : Nat) :
    Natural g (Stmt.relabel g) (anyDeclaration n statement declaration)
      (anyDeclaration n statement declaration) := by
  refine .bind (.accept hg _) ?_
  intro token?
  cases token? with
  | none => exact natural_anyStatement hg hdeclaration hstatement n
  | some token =>
      simp only [Option.map_some, hg.kind]
      have hfunction : Natural g (Stmt.relabel g) (.funDecl <$> function n declaration "function")
          (.funDecl <$> function n declaration "function") :=
        .map (natural_function hg hdeclaration n _) fun f => by rw [Stmt.relabel]
      cases token.kind with
      | kwClass => exact natural_classDeclaration hg hdeclaration n
      | kwFun => exact hfunction
      | _ => exact natural_varDeclaration hg n

end

/-!
# Recovery and programs
-/

theorem synchronize_map (ts : List Token) :
    synchronize (ts.map g) = (synchronize ts).map g := by
  have hboundary : ∀ (last : Token) (ts : List Token),
      boundary (g last) (ts.map g) = (boundary last ts).map g := by
    intro last ts
    induction ts generalizing last with
    | nil => rfl
    | cons token ts ih =>
        rw [List.map_cons, boundary, boundary, hg.kind, hg.kind]
        by_cases hstop : last.kind = .semicolon ∨ token.kind.startsStatement = true
        · rw [if_pos hstop, if_pos hstop]
          rfl
        · rw [if_neg hstop, if_neg hstop]
          exact ih token
  cases ts with
  | nil => rfl
  | cons token ts => exact hboundary token ts

theorem natural_recovering {f : α → β} {p : Parser α} {p' : Parser β} (hp : Natural g f p p') :
    Natural g (Option.map f) (recovering p) (recovering p') := by
  intro ts
  unfold recovering
  rw [hp ts]
  cases hresult : (p ts).result with
  | none => simp only [relabelled, hresult, Option.map_none, Option.map_some, synchronize_map hg]
  | some value => simp only [relabelled, hresult, Option.map_some]

theorem natural_statement_declaration (n : Nat) :
    Natural g (Stmt.relabel g) (statement n) (statement n) ∧
      Natural g (Option.map (Stmt.relabel g)) (declaration n) (declaration n) := by
  induction n with
  | zero => exact ⟨.giveUp _, .giveUp _⟩
  | succ n ih =>
      rcases ih with ⟨hstatement, hdeclaration⟩
      constructor
      · rw [statement]
        exact natural_anyStatement hg hdeclaration hstatement (n + 1)
      · rw [declaration]
        exact natural_recovering hg (natural_anyDeclaration hg hdeclaration hstatement (n + 1))

theorem natural_program {declaration : Parser (Option Stmt)}
    (hdeclaration : Natural g (Option.map (Stmt.relabel g)) declaration declaration) (n : Nat) :
    Natural g (List.map (Stmt.relabel g)) (program declaration n) (program declaration n) := by
  induction n with
  | zero => exact .giveUp _
  | succ n ih =>
      refine .bind (.peek hg) ?_
      intro kind?
      cases kind? with
      | none => exact .ok (List.map (Stmt.relabel g)) []
      | some kind =>
          refine .bind hdeclaration fun first => .bind ih fun rest => ?_
          have hok := Natural.ok (g := g) (List.map (Stmt.relabel g)) (first.toList ++ rest)
          rw [List.map_append] at hok
          cases first <;> exact hok

end

end Parser

theorem parse_map {g : Token → Token} (hg : KeepsSyntax g) (ts : List Token) :
    parse (ts.map g) = Parser.relabelled g (List.map (Stmt.relabel g)) (parse ts) := by
  unfold parse
  rw [List.length_map]
  exact Parser.natural_program hg (Parser.natural_statement_declaration hg _).2 _ ts

end Lox
