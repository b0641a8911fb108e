import Lox.Proofs.Grammar.Follow
import Lox.Proofs.Parse.Reads

/-!
# A silent parser reads phrases of the grammar

If a parser reports nothing, then it has read a greedy derivation of its result,
and the next token does not go on with what was read.  The bound on the depth is
large enough whenever it exceeds the number of tokens.
-/

namespace Lox
namespace Parser

open Grammar

def ReadsLevel (level : Level) (p : Parser Expr) (ts : List Token) : Prop :=
  p.Reads ts fun tree rest =>
    ∃ us, ts = us ++ rest ∧ Derives true (.expr level tree) us ∧ Stops level tree rest

theorem Reads.of_eq {p : Parser α} {q : Parser α} {ts us : List Token}
    {Q : α → List Token → Prop} (heq : p ts = q us) (hq : q.Reads us Q) : p.Reads ts Q := by
  unfold Reads
  rw [heq]
  exact hq

/-!
# Primary expressions
-/

section

variable (expression : Parser Expr) {token : Token} (rest : List Token)

theorem primary_constant {value : Literal} (hvalue : token.constant? = some value) :
    primary expression (token :: rest) = ⟨[], some (.literal value), rest⟩ := by
  unfold Token.constant? at hvalue
  split at hvalue
  case h_6 => cases hvalue
  all_goals
    rename_i hkind
    cases hvalue
    simp only [primary, hkind]
    rfl

theorem primary_this (hkind : token.kind = .kwThis) :
    primary expression (token :: rest) = ⟨[], some (.thisRef ⟨token, 0⟩), rest⟩ := by
  simp only [primary, hkind]
  rfl

theorem primary_name (hkind : token.kind = .identifier) :
    primary expression (token :: rest) = ⟨[], some (.var ⟨token, 0⟩), rest⟩ := by
  simp only [primary, hkind]
  rfl

theorem primary_super (hkind : token.kind = .kwSuper) :
    primary expression (token :: rest) = superAccess token rest := by
  simp only [primary, hkind]

theorem primary_paren (hkind : token.kind = .leftParen) :
    primary expression (token :: rest) = parenthesised expression rest := by
  simp only [primary, hkind]

theorem primary_other (hconstant : token.constant? = none)
    (hkind : token.kind ∉ [.kwThis, .identifier, .kwSuper, .leftParen]) :
    primary expression (token :: rest) = fail (.expected "expression") (token :: rest) := by
  unfold primary
  cases hother : token.kind <;> simp_all [Token.constant?]

end

theorem stops_primary {tree : Expr} (hclosed : tree.endsInConditional = false)
    (rest : List Token) : Stops .primary tree rest := by
  intro token _
  have hpos : 0 < token.kind.continuesAt := by
    cases token.kind <;> decide
  simpa [reach, hclosed, Level.rank] using hpos

section

variable {n : Nat} {expression : Parser Expr}

theorem primary_reads
    (hexpression : ∀ ts : List Token, ts.length < n → ReadsLevel .assignment expression ts)
    (ts : List Token) (hlength : ts.length ≤ n) : ReadsLevel .primary (primary expression) ts := by
  cases ts with
  | nil => exact Reads.of_eq rfl Reads.fail
  | cons token rest =>
      cases hconstant : token.constant? with
      | some value =>
          refine Reads.of_eq (primary_constant expression rest hconstant) (Reads.ok ?_)
          exact ⟨[token], rfl, .constant hconstant, stops_primary rfl rest⟩
      | none =>
          cases hkind : token.kind
          case kwThis =>
              refine Reads.of_eq (primary_this expression rest hkind) (Reads.ok ?_)
              exact ⟨[token], rfl, .this hkind, stops_primary rfl rest⟩
          case identifier =>
              refine Reads.of_eq (primary_name expression rest hkind) (Reads.ok ?_)
              exact ⟨[token], rfl, .name hkind, stops_primary rfl rest⟩
          case kwSuper =>
              apply Reads.of_eq (primary_super expression rest hkind)
              refine Reads.bind (Reads.expect fun dot rest' hrest hdot => ?_)
              refine Reads.bind (Reads.expect fun method rest'' hrest' hmethod => ?_)
              subst hrest hrest'
              refine Reads.ok ⟨[token, dot, method], rfl, .super hkind hdot hmethod, ?_⟩
              exact stops_primary rfl rest''
          case leftParen =>
              apply Reads.of_eq (primary_paren expression rest hkind)
              refine Reads.bind ((hexpression rest hlength).imp ?_)
              rintro inner rest' ⟨us, rfl, hinner, _⟩
              refine Reads.bind (Reads.expect fun right rest'' hrest hright => ?_)
              subst hrest
              refine Reads.ok ⟨token :: us ++ [right], by simp, .grouping hkind hright hinner, ?_⟩
              exact stops_primary rfl rest''
          all_goals
            exact Reads.of_eq (primary_other expression rest hconstant (by simp [hkind])) Reads.fail

/-!
# Calls and prefix operators
-/

theorem suffixes_reads
    (hexpression : ∀ ts : List Token, ts.length < n → ReadsLevel .assignment expression ts)
    (bound : Nat) :
    ∀ (inner : Expr) (us ts : List Token), ts.length < bound → ts.length ≤ n →
      Derives true (.expr .call inner) us →
      (suffixes expression bound inner).Reads ts fun tree rest =>
        ∃ vs, us ++ ts = vs ++ rest ∧ Derives true (.expr .call tree) vs ∧
          Stops .call tree rest := by
  induction bound with
  | zero =>
      intro _ _ ts hbound
      exact absurd hbound (Nat.not_lt_zero _)
  | succ bound ih =>
      intro inner us ts hbound hlength hinner
      apply Reads.bind
      apply Reads.accept
      · intro hnext
        have hstops := (stops_primary (derives_closed hinner rfl (by decide)) ts).looser
          (show Level.call.below = some .primary from rfl) hnext
        exact Reads.ok ⟨us, rfl, hinner, hstops⟩
      · intro token ts' hts hkind
        subst hts
        simp only [List.length_cons] at hbound hlength
        by_cases hleft : token.kind = .leftParen
        · simp only [if_pos hleft]
          apply Reads.bind
          have hitem : ReadsItem n expression (Expression true) := by
            intro ts hts
            refine (hexpression ts hts).imp ?_
            rintro tree rest ⟨us, hus, htree, _⟩
            exact ⟨us, hus, derives_ne_nil htree, htree⟩
          refine (items_reads hitem _ bound ts' (by omega) (by omega)).imp ?_
          rintro arguments ts'' (⟨rfl, rfl⟩ | ⟨vs, rfl, harguments, hcount⟩)
          · refine Reads.bind (Reads.expect fun right rest hrest hright => ?_)
            subst hrest
            simp only [List.length_cons] at hbound hlength
            refine (ih _ _ rest (by omega) (by omega) (.emptyCall hleft hright hinner)).imp ?_
            rintro tree rest' ⟨ws, hws, htree, hstops⟩
            exact ⟨ws, by simpa using hws, htree, hstops⟩
          · refine Reads.bind (Reads.expect fun right rest hrest hright => ?_)
            subst hrest
            simp only [List.length_append, List.length_cons] at hbound hlength
            refine (ih _ _ rest (by omega) (by omega) (.call hleft hright hcount hinner
              (arguments_of_separated harguments))).imp ?_
            rintro tree rest' ⟨ws, hws, htree, hstops⟩
            exact ⟨ws, by simpa using hws, htree, hstops⟩
        · have hdot : token.kind = .dot := by simpa [hleft] using hkind
          simp only [if_neg hleft]
          refine Reads.bind (Reads.expect fun name rest hrest hname => ?_)
          subst hrest
          simp only [List.length_cons] at hbound hlength
          refine (ih _ _ rest (by omega) (by omega) (.property hdot hname hinner)).imp ?_
          rintro tree rest' ⟨ws, hws, htree, hstops⟩
          exact ⟨ws, by simpa using hws, htree, hstops⟩

theorem call_reads
    (hexpression : ∀ ts : List Token, ts.length < n → ReadsLevel .assignment expression ts)
    (ts : List Token) (hlength : ts.length ≤ n) :
    ReadsLevel .call (call (n + 1) expression) ts := by
  refine Reads.bind ((primary_reads hexpression ts hlength).imp ?_)
  rintro inner ts' ⟨us, rfl, hinner, _⟩
  simp only [List.length_append] at hlength
  exact suffixes_reads hexpression (n + 1) inner us ts' (by omega) (by omega)
    (.lift rfl hinner)

theorem unary_reads {operand : Parser Expr}
    (hoperand : ∀ ts : List Token, ts.length ≤ n → ReadsLevel .call operand ts) (bound : Nat) :
    ∀ ts : List Token, ts.length < bound → ts.length ≤ n →
      ReadsLevel .unary (unary operand bound) ts := by
  induction bound with
  | zero =>
      intro ts hbound
      exact absurd hbound (Nat.not_lt_zero _)
  | succ bound ih =>
      intro ts hbound hlength
      apply Reads.bind
      apply Reads.accept
      · intro _
        refine (hoperand ts hlength).imp ?_
        rintro tree rest ⟨us, rfl, htree, hstops⟩
        refine ⟨us, rfl, .lift rfl htree, hstops.looser rfl ?_⟩
        intro _ _ hmem
        cases hmem
      · intro operator ts' hts hkind
        subst hts
        simp only [List.length_cons] at hbound hlength
        refine Reads.bind ((ih ts' (by omega) (by omega)).imp ?_)
        rintro right rest ⟨us, rfl, hright, hstops⟩
        refine Reads.ok ⟨operator :: us, rfl, .unary (by simpa using hkind) hright, ?_⟩
        have hclosed := derives_closed hright rfl (by decide)
        simpa [Stops, reach, hclosed, Expr.endsInConditional] using hstops

/-!
# Chains of operators
-/

theorem chainRest_reads {level tighter : Level} (hbelow : level.below = some tighter)
    (hcontinuers : level.continuers = level.operators) {operand : Parser Expr}
    (hoperand : ∀ ts : List Token, ts.length ≤ n → ReadsLevel tighter operand ts) (bound : Nat) :
    ∀ (left : Expr) (us ts : List Token), ts.length < bound → ts.length ≤ n →
      Derives true (.expr level left) us → Stops tighter left ts →
      (chainRest operand level.operators level.node bound left).Reads ts fun tree rest =>
        ∃ vs, us ++ ts = vs ++ rest ∧ Derives true (.expr level tree) vs ∧
          Stops level tree rest := by
  induction bound with
  | zero =>
      intro _ _ ts hbound
      exact absurd hbound (Nat.not_lt_zero _)
  | succ bound ih =>
      intro left us ts hbound hlength hleft hstops
      apply Reads.bind
      apply Reads.accept
      · intro hnext
        rw [← hcontinuers] at hnext
        exact Reads.ok ⟨us, rfl, hleft, hstops.looser hbelow hnext⟩
      · intro operator ts' hts hkind
        subst hts
        simp only [List.length_cons] at hbound hlength
        refine Reads.bind ((hoperand ts' (by omega)).imp ?_)
        rintro right ts'' ⟨vs, rfl, hright, hstopsRight⟩
        simp only [List.length_append] at hbound hlength
        have hchain := Derives.chain hbelow hkind (fun _ => hstops.closed hkind) hleft hright
        refine (ih _ _ ts'' (by omega) (by omega) hchain (hstopsRight.node left operator)).imp ?_
        rintro tree rest ⟨ws, hws, htree, hstopsTree⟩
        exact ⟨ws, by simpa using hws, htree, hstopsTree⟩

theorem chain_reads {level tighter : Level} (hbelow : level.below = some tighter)
    (hcontinuers : level.continuers = level.operators) {operand : Parser Expr}
    (hoperand : ∀ ts : List Token, ts.length ≤ n → ReadsLevel tighter operand ts)
    (ts : List Token) (hlength : ts.length ≤ n) :
    ReadsLevel level (chain operand level.operators level.node (n + 1)) ts := by
  refine Reads.bind ((hoperand ts hlength).imp ?_)
  rintro left ts' ⟨us, rfl, hleft, hstops⟩
  simp only [List.length_append] at hlength
  exact chainRest_reads hbelow hcontinuers hoperand (n + 1) left us ts' (by omega) (by omega)
    (.lift hbelow hleft) hstops

/-!
# The levels of expressions
-/

section

variable (hexpression : ∀ ts : List Token, ts.length < n → ReadsLevel .assignment expression ts)
include hexpression

theorem equality_reads (ts : List Token) (hlength : ts.length ≤ n) :
    ReadsLevel .equality (equality (n + 1) expression) ts := by
  have hunary : ∀ ts : List Token, ts.length ≤ n →
      ReadsLevel .unary (unary (call (n + 1) expression) (n + 1)) ts := fun ts hts =>
    unary_reads (call_reads hexpression) (n + 1) ts (Nat.lt_succ_of_le hts) hts
  have hfactor : ∀ ts : List Token, ts.length ≤ n →
      ReadsLevel .factor (factor (n + 1) expression) ts := chain_reads rfl rfl hunary
  have hterm : ∀ ts : List Token, ts.length ≤ n →
      ReadsLevel .term (term (n + 1) expression) ts := chain_reads rfl rfl hfactor
  have hcomparison : ∀ ts : List Token, ts.length ≤ n →
      ReadsLevel .comparison (comparison (n + 1) expression) ts := chain_reads rfl rfl hterm
  exact chain_reads (show Level.equality.below = some .comparison from rfl) rfl hcomparison
    ts hlength

theorem ternary_reads (ts : List Token) (hlength : ts.length ≤ n) :
    ReadsLevel .ternary (ternary (n + 1) expression) ts := by
  refine Reads.bind ((equality_reads hexpression ts hlength).imp ?_)
  rintro condition ts' ⟨us, rfl, hcondition, hstops⟩
  simp only [List.length_append] at hlength
  apply Reads.bind
  apply Reads.accept
  · intro hnext
    exact Reads.ok ⟨us, rfl, .lift rfl hcondition, hstops.looser rfl hnext⟩
  · intro question ts'' hts hquestion
    subst hts
    simp only [List.length_cons] at hlength
    refine Reads.bind ((hexpression ts'' (by omega)).imp ?_)
    rintro thenBranch rest ⟨vs, rfl, hthen, _⟩
    refine Reads.bind (Reads.expect fun colon rest' hrest hcolon => ?_)
    subst hrest
    simp only [List.length_append, List.length_cons] at hlength
    refine Reads.bind ((hexpression rest' (by omega)).imp ?_)
    rintro elseBranch rest'' ⟨ws, rfl, helse, hstopsElse⟩
    have hconditional := Derives.conditional (by simpa using hquestion) hcolon hcondition
      hthen helse
    refine Reads.ok ⟨_, by simp, hconditional, ?_⟩
    simpa [Stops, reach, Expr.endsInConditional] using hstopsElse

theorem logicOr_reads (ts : List Token) (hlength : ts.length ≤ n) :
    ReadsLevel .logicOr (logicOr (n + 1) expression) ts := by
  have hand : ∀ ts : List Token, ts.length ≤ n →
      ReadsLevel .logicAnd (logicAnd (n + 1) expression) ts :=
    chain_reads rfl rfl (ternary_reads hexpression)
  exact chain_reads (show Level.logicOr.below = some .logicAnd from rfl) rfl hand ts hlength

theorem assignment_reads (ts : List Token) (hlength : ts.length ≤ n) :
    ReadsLevel .assignment (assignment (n + 1) expression) ts := by
  refine Reads.bind ((logicOr_reads hexpression ts hlength).imp ?_)
  rintro target ts' ⟨us, rfl, htarget, hstops⟩
  simp only [List.length_append] at hlength
  apply Reads.bind
  apply Reads.accept
  · intro hnext
    exact Reads.ok ⟨us, rfl, .lift rfl htarget, hstops.looser rfl hnext⟩
  · intro equals ts'' hts hequals
    subst hts
    have hequals : equals.kind = .equal := by simpa using hequals
    simp only [List.length_cons] at hlength
    refine Reads.bind ((hexpression ts'' (by omega)).imp ?_)
    rintro value rest ⟨vs, rfl, hvalue, hstopsValue⟩
    -- Only a name and a property are taken as targets; any other target is reported.
    cases target
    case var reference =>
        rcases derives_var htarget with ⟨name, rfl, rfl, hname⟩
        exact Reads.ok ⟨_, by simp, .assign hname hequals hvalue,
          stops_assignment_iff.mp hstopsValue⟩
    case get object name =>
        rcases derives_get htarget with ⟨dot, ws, rfl, hdot, hname, hobject⟩
        exact Reads.ok ⟨_, by simp, .set hdot hname hequals hobject hvalue,
          stops_assignment_iff.mp hstopsValue⟩
    all_goals exact Reads.bind Reads.reportAt

end

end

/-- The bound on the depth of an expression suffices if it exceeds the number of tokens. -/
theorem expression_reads (n : Nat) :
    ∀ ts : List Token, ts.length < n → ReadsLevel .assignment (expression n) ts := by
  induction n with
  | zero =>
      intro ts hlength
      exact absurd hlength (Nat.not_lt_zero _)
  | succ n ih =>
      intro ts hlength
      exact assignment_reads ih ts (Nat.le_of_lt_succ hlength)

end Parser

/-- A single expression without reports has been read as a greedy derivation from all its tokens. -/
theorem expression_of_silent {ts : List Token} (hsilent : (parseExpression ts).reports = []) :
    ∃ tree, parseExpression ts = ⟨[], some tree, []⟩ ∧ Grammar.Expression true tree ts := by
  have hreads : Parser.Reads (fun _ => parseExpression ts) ts fun tree rest =>
      rest = [] ∧ Grammar.Expression true tree ts := by
    apply Parser.Reads.bind
    apply (Parser.expression_reads (ts.length + 1) ts (Nat.lt_succ_self _)).imp
    rintro tree rest ⟨us, hts, htree, _⟩
    apply Parser.Reads.bind
    apply Parser.Reads.peek
    cases rest with
    | nil =>
        rw [List.append_nil] at hts
        exact Parser.Reads.ok ⟨rfl, hts ▸ htree⟩
    | cons token rest => exact Parser.Reads.bind Parser.Reads.fail
  rcases hreads hsilent with ⟨tree, rest, hparse, rfl, htree⟩
  exact ⟨tree, hparse, htree⟩

end Lox
