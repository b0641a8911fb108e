import Lox.Proofs.Grammar

/-!
# First tokens and following tokens

With which tokens a phrase can start, and which tokens behind an expression
would be read as part of it.  One token is enough to tell.
-/

namespace Lox

namespace TokenKind

/-- The rank of the level at which a token goes on with an expression in front of it. -/
def continuesAt : TokenKind → Nat
  | leftParen | dot => Grammar.Level.call.rank
  | slash | star => Grammar.Level.factor.rank
  | minus | plus => Grammar.Level.term.rank
  | greater | greaterEqual | less | lessEqual => Grammar.Level.comparison.rank
  | bangEqual | equalEqual => Grammar.Level.equality.rank
  | question => Grammar.Level.ternary.rank
  | kwAnd => Grammar.Level.logicAnd.rank
  | kwOr => Grammar.Level.logicOr.rank
  | equal => Grammar.Level.assignment.rank
  | _ => Grammar.Level.assignment.rank + 1

def startsExpression : TokenKind → Bool
  | leftParen | minus | bang | identifier | string | number
  | kwFalse | kwNil | kwSuper | kwThis | kwTrue => true
  | _ => false

def opensStatement : TokenKind → Bool
  | kwFor | kwIf | kwPrint | kwReturn | kwWhile | leftBrace => true
  | kind => kind.startsExpression

def opensDeclaration : TokenKind → Bool
  | kwClass | kwFun | kwVar => true
  | kind => kind.opensStatement

theorem opensStatement_of_startsExpression {kind : TokenKind}
    (hkind : kind.startsExpression = true) : kind.opensStatement = true := by
  cases kind <;> first | rfl | cases hkind

theorem opensDeclaration_of_opensStatement {kind : TokenKind}
    (hkind : kind.opensStatement = true) : kind.opensDeclaration = true := by
  cases kind <;> first | rfl | cases hkind

end TokenKind

namespace Grammar

def Level.continuers : Level → List TokenKind
  | .call => [.leftParen, .dot]
  | .ternary => [.question]
  | .assignment => [.equal]
  | level => level.operators

theorem Level.continuesAt_of_mem_continuers {level : Level} {kind : TokenKind}
    (hkind : kind ∈ level.continuers) : kind.continuesAt = level.rank := by
  cases level <;>
    simp only [continuers, operators, List.mem_cons, List.not_mem_nil, or_false] at hkind
  all_goals
    rcases hkind with rfl | rfl | rfl | rfl <;> rfl

theorem Level.mem_continuers_of_operators {level : Level} {kind : TokenKind}
    (hkind : kind ∈ level.operators) : kind ∈ level.continuers := by
  cases level <;> first | exact hkind | cases hkind

theorem Level.mem_continuers {level : Level} {kind : TokenKind}
    (hkind : kind.continuesAt = level.rank) : kind ∈ level.continuers := by
  cases level <;> cases kind <;> first | exact absurd hkind (by decide) | decide

/-- How far an expression extends: past a conditional, as far as any expression. -/
def reach (level : Level) (tree : Expr) : Nat :=
  if tree.endsInConditional then Level.assignment.rank else level.rank

/-- The next token does not go on with the expression in front of it. -/
def Stops (level : Level) (tree : Expr) (rest : List Token) : Prop :=
  ∀ token ∈ rest.head?, reach level tree < token.kind.continuesAt

theorem reach_le_assignment (level : Level) (tree : Expr) :
    reach level tree ≤ Level.assignment.rank := by
  unfold reach
  split
  · exact Nat.le_refl _
  · exact level.rank_le_assignment

theorem rank_le_reach (level : Level) (tree : Expr) : level.rank ≤ reach level tree := by
  unfold reach
  split
  · exact level.rank_le_assignment
  · exact Nat.le_refl _

theorem reach_mono {tighter level : Level} (hrank : tighter.rank ≤ level.rank) (tree : Expr) :
    reach tighter tree ≤ reach level tree := by
  unfold reach
  split
  · exact Nat.le_refl _
  · exact hrank

theorem stops_assignment {rest : List Token}
    (hrest : ∀ token ∈ rest.head?, Level.assignment.rank < token.kind.continuesAt)
    (level : Level) (tree : Expr) : Stops level tree rest :=
  fun token htoken => Nat.lt_of_le_of_lt (reach_le_assignment level tree) (hrest token htoken)

theorem Stops.tighter {level tighter : Level} {tree : Expr} {rest : List Token}
    (hstops : Stops level tree rest) (hbelow : level.below = some tighter) :
    Stops tighter tree rest := by
  intro token htoken
  have hrank : tighter.rank ≤ level.rank := by
    rw [Level.rank_of_below hbelow]
    exact Nat.le_succ _
  exact Nat.lt_of_le_of_lt (reach_mono hrank tree) (hstops token htoken)

theorem Stops.looser {level tighter : Level} {tree : Expr} {rest : List Token}
    (hstops : Stops tighter tree rest) (hbelow : level.below = some tighter)
    (hrest : ∀ token ∈ rest.head?, token.kind ∉ level.continuers) : Stops level tree rest := by
  intro token htoken
  have htighter := hstops token htoken
  have hne : token.kind.continuesAt ≠ level.rank :=
    fun heq => hrest token htoken (Level.mem_continuers heq)
  have hrank := Level.rank_of_below hbelow
  cases hopen : tree.endsInConditional with
  | true =>
      simp only [reach, hopen, if_true] at htighter ⊢
      exact htighter
  | false =>
      simp only [reach, hopen, Bool.false_eq_true, if_false] at htighter ⊢
      omega

theorem Stops.node {level tighter : Level} {right : Expr} {rest : List Token}
    (hstops : Stops tighter right rest) (left : Expr) (operator : Token) :
    Stops tighter (level.node left operator right) rest := by
  intro token htoken
  have hright := hstops token htoken
  cases hnode : (level.node left operator right).endsInConditional with
  | true =>
      simp only [reach, hnode, level.endsInConditional_of_node hnode] at hright ⊢
      exact hright
  | false =>
      simp only [reach, hnode, Bool.false_eq_true, if_false]
      exact Nat.lt_of_le_of_lt (rank_le_reach tighter right) hright

theorem stops_assignment_iff {tree other : Expr} {rest : List Token} :
    Stops .assignment tree rest ↔ Stops .assignment other rest := by
  simp [Stops, reach]

theorem Stops.closed {level tighter : Level} {tree : Expr} {token : Token} {rest : List Token}
    (hstops : Stops tighter tree (token :: rest)) (hkind : token.kind ∈ level.operators) :
    tree.endsInConditional = false := by
  have hreach := hstops token rfl
  rw [Level.continuesAt_of_mem_continuers (Level.mem_continuers_of_operators hkind)] at hreach
  cases hopen : tree.endsInConditional with
  | false => rfl
  | true =>
      simp only [reach, hopen, if_true] at hreach
      exact absurd level.rank_le_assignment (Nat.not_le_of_lt hreach)

/-!
# First tokens
-/

theorem startsExpression_of_constant {token : Token} {value : Literal}
    (hconstant : token.constant? = some value) : token.kind.startsExpression = true := by
  unfold Token.constant? at hconstant
  split at hconstant
  case h_6 => cases hconstant
  all_goals
    rename_i hkind
    rw [hkind]
    rfl

theorem derives_head {greedy : Bool} {phrase : Phrase} {ts : List Token}
    (hderives : Derives greedy phrase ts) :
    ∃ token rest, ts = token :: rest ∧ token.kind.startsExpression = true := by
  induction hderives with
  | constant hconstant => exact ⟨_, _, rfl, startsExpression_of_constant hconstant⟩
  | this hkind | super hkind _ _ | name hkind | grouping hkind _ _ _ | assign hkind _ _ _ =>
      exact ⟨_, _, rfl, by rw [hkind]; rfl⟩
  | lift _ _ ih | lastArgument _ ih => exact ih
  | unary hkind _ _ =>
      refine ⟨_, _, rfl, ?_⟩
      rcases hkind with hkind | hkind <;> rw [hkind] <;> rfl
  | emptyCall _ _ _ ih | property _ _ _ ih =>
      rcases ih with ⟨token, rest, rfl, htoken⟩
      exact ⟨token, _, rfl, htoken⟩
  | call _ _ _ _ _ ih _ | chain _ _ _ _ _ ih _ | conditional _ _ _ _ _ ih _ _
  | set _ _ _ _ _ ih _ | moreArguments _ _ _ ih _ =>
      rcases ih with ⟨token, rest, rfl, htoken⟩
      exact ⟨token, _, rfl, htoken⟩

theorem derives_ne_nil {greedy : Bool} {phrase : Phrase} {ts : List Token}
    (hderives : Derives greedy phrase ts) : ts ≠ [] := by
  rcases derives_head hderives with ⟨token, rest, rfl, _⟩
  exact List.cons_ne_nil token rest

theorem derives_length_pos {greedy : Bool} {phrase : Phrase} {ts : List Token}
    (hderives : Derives greedy phrase ts) : 0 < ts.length :=
  List.length_pos_iff.mpr (derives_ne_nil hderives)

theorem derives_head_call {greedy : Bool} {phrase : Phrase} {ts : List Token}
    (hderives : Derives greedy phrase ts) :
    ∀ {level : Level} {tree : Expr}, phrase = .expr level tree →
      level.rank ≤ Level.call.rank →
      ∃ token rest, ts = token :: rest ∧ token.kind ≠ .bang ∧ token.kind ≠ .minus := by
  induction hderives with
  | @constant token value hconstant =>
      intro _ _ _ _
      refine ⟨token, [], rfl, ?_, ?_⟩ <;>
        · intro hkind
          simp [Token.constant?, hkind] at hconstant
  | this hkind | super hkind | name hkind | grouping hkind =>
      intro _ _ _ _
      exact ⟨_, _, rfl, by simp [hkind], by simp [hkind]⟩
  | @lift level' tighter tree' ts' hbelow htree ih =>
      intro level tree hphrase hrank
      cases hphrase
      rw [Level.rank_of_below hbelow] at hrank
      exact ih rfl (Nat.le_of_succ_le hrank)
  | emptyCall _ _ _ ih | property _ _ _ ih =>
      intro level tree hphrase hrank
      cases hphrase
      rcases ih rfl (Nat.le_refl _) with ⟨token, rest, rfl, htoken⟩
      exact ⟨token, _, rfl, htoken⟩
  | call _ _ _ _ _ ih _ =>
      intro level tree hphrase hrank
      cases hphrase
      rcases ih rfl (Nat.le_refl _) with ⟨token, rest, rfl, htoken⟩
      exact ⟨token, _, rfl, htoken⟩
  | @chain level' _ _ _ _ _ _ _ hoperator _ _ _ _ _ =>
      intro level tree hphrase hrank
      cases hphrase
      cases level' <;> first | exact absurd hrank (by decide) | cases hoperator
  | unary | conditional | assign | set =>
      intro level tree hphrase hrank
      cases hphrase
      exact absurd hrank (by decide)
  | lastArgument | moreArguments =>
      intro level tree hphrase
      cases hphrase

/-- Only from the conditional level on can an expression end in a conditional. -/
theorem derives_closed {greedy : Bool} {phrase : Phrase} {ts : List Token}
    (hderives : Derives greedy phrase ts) :
    ∀ {level : Level} {tree : Expr}, phrase = .expr level tree →
      level.rank < Level.ternary.rank → tree.endsInConditional = false := by
  induction hderives with
  | @lift level' tighter tree' ts' hbelow htree ih =>
      intro level tree hphrase hrank
      cases hphrase
      rw [Level.rank_of_below hbelow] at hrank
      exact ih rfl (Nat.lt_of_succ_lt hrank)
  | @chain level' tighter operator left right ts us hbelow _ _ _ _ _ _ =>
      intro level tree hphrase hrank
      cases hphrase
      cases level' <;> first | rfl | exact absurd hrank (by decide)
  | conditional =>
      intro level tree hphrase hrank
      cases hphrase
      exact absurd hrank (by decide)
  | lastArgument | moreArguments =>
      intro level tree hphrase
      cases hphrase
  | _ =>
      intro level tree hphrase _
      cases hphrase
      rfl

theorem reach_node {greedy : Bool} {level tighter : Level} {right : Expr} {us : List Token}
    {operator : Token} (hbelow : level.below = some tighter)
    (hoperator : operator.kind ∈ level.operators)
    (hright : Derives greedy (.expr tighter right) us) (left : Expr) :
    reach tighter (level.node left operator right) = reach tighter right := by
  cases level <;> cases hbelow <;> first
    | rfl
    | simp [reach, Level.node, Expr.endsInConditional, derives_closed hright rfl (by decide)]
    | cases hoperator

/-!
# Trees that can be assigned to
-/

theorem derives_var {greedy : Bool} {level : Level} {target : Reference} {ts : List Token}
    (hderives : Derives greedy (.expr level (.var target)) ts) :
    ∃ name, ts = [name] ∧ target = ⟨name, 0⟩ ∧ name.kind = .identifier := by
  generalize hphrase : Phrase.expr level (.var target) = phrase at hderives
  induction hderives generalizing level with
  | name hname =>
      cases hphrase
      exact ⟨_, rfl, rfl, hname⟩
  | lift _ _ ih =>
      cases hphrase
      exact ih rfl
  | @chain level' _ _ _ _ _ _ _ _ _ _ _ _ _ => cases level' <;> cases hphrase
  | _ => cases hphrase

theorem derives_get {greedy : Bool} {level : Level} {object : Expr} {name : Token}
    {ts : List Token} (hderives : Derives greedy (.expr level (.get object name)) ts) :
    ∃ dot us, ts = us ++ [dot, name] ∧ dot.kind = .dot ∧ name.kind = .identifier ∧
      Derives greedy (.expr .call object) us := by
  generalize hphrase : Phrase.expr level (.get object name) = phrase at hderives
  induction hderives generalizing level with
  | property hdot hname hobject =>
      cases hphrase
      exact ⟨_, _, rfl, hdot, hname, hobject⟩
  | lift _ _ ih =>
      cases hphrase
      exact ih rfl
  | @chain level' _ _ _ _ _ _ _ _ _ _ _ _ _ => cases level' <;> cases hphrase
  | _ => cases hphrase

/-!
# Arguments
-/

theorem separated_length_pos {α : Type} {item : α → List Token → Prop} {trees : List α}
    {ts : List Token} (hseparated : Separated item trees ts) : 0 < trees.length := by
  cases hseparated <;> exact Nat.succ_pos _

theorem arguments_of_separated {greedy : Bool} {trees : List Expr} {ts : List Token}
    (hseparated : Separated (Expression greedy) trees ts) :
    Derives greedy (.arguments trees) ts := by
  induction hseparated with
  | last htree => exact .lastArgument htree
  | more hcomma htree _ ih => exact .moreArguments hcomma htree ih

/-!
# First tokens of statements
-/

/-- Which tokens a phrase starts with; a list of phrases may be empty. -/
def StartsWell : StmtPhrase → List Token → Prop
  | .statement _ _, ts => ∃ token rest, ts = token :: rest ∧ token.kind.opensStatement = true
  | .declaration _ _, ts => ∃ token rest, ts = token :: rest ∧ token.kind.opensDeclaration = true
  | .declarations _, ts => ∀ token ∈ ts.head?, token.kind.opensDeclaration = true
  | .function _, ts => ∃ token rest, ts = token :: rest ∧ token.kind = .identifier
  | .methods _, ts => ∀ token ∈ ts.head?, token.kind = .identifier

theorem stmtDerives_startsWell {greedy : Bool} {phrase : StmtPhrase} {ts : List Token}
    (hderives : StmtDerives greedy phrase ts) : StartsWell phrase ts := by
  induction hderives with
  | expression _ hinner =>
      rcases derives_head hinner with ⟨token, rest, rfl, htoken⟩
      exact ⟨token, _, rfl, TokenKind.opensStatement_of_startsExpression htoken⟩
  | print hkind | ret hkind | block hkind | whileLoop hkind | forLoop hkind | ifThen hkind
  | ifElse hkind =>
      exact ⟨_, _, rfl, by rw [hkind]; rfl⟩
  | statement _ ih =>
      rcases ih with ⟨token, rest, rfl, htoken⟩
      exact ⟨token, rest, rfl, TokenKind.opensDeclaration_of_opensStatement htoken⟩
  | varDecl hkind | funDecl hkind | classDecl hkind => exact ⟨_, _, rfl, by rw [hkind]; rfl⟩
  | noDeclarations | noMethods =>
      intro token htoken
      cases htoken
  | function hkind => exact ⟨_, _, rfl, hkind⟩
  | moreDeclarations _ _ ih _ | moreMethods _ _ ih _ =>
      rcases ih with ⟨token, rest, rfl, hkind⟩
      intro token' htoken'
      cases htoken'
      exact hkind

theorem declaration_ne_nil {greedy isOpen : Bool} {tree : Stmt} {ts : List Token}
    (hderives : StmtDerives greedy (.declaration isOpen tree) ts) : ts ≠ [] := by
  rcases stmtDerives_startsWell hderives with ⟨token, rest, rfl, _⟩
  exact List.cons_ne_nil token rest

/-- The next token is no `else` that an open statement in front of it would take. -/
def StopsElse (isOpen : Bool) (rest : List Token) : Prop :=
  isOpen = true → ∀ token ∈ rest.head?, token.kind ≠ .kwElse

end Grammar
end Lox
