import Lox.Proofs.Parse.Sound
import Lox.Proofs.Syntax.Fresh

/-!
# Steady parsers

A parser is steady on a list of tokens if it leaves a suffix of them and gives
up only with a report.  Two parsers are compared at once: they are the same
parser with two bounds on its depth, or with and without somebody watching it.
The bounds do not matter as long as they exceed the number of tokens, because
between two nested calls at least one token is taken.
-/

namespace Lox
namespace Parser

/-- A suffix of `ts` is left, and there is a result that satisfies `Q`, or else a report. -/
inductive Settles (ts : List Token) (Q : α → List Token → Prop) : Parsed α → Prop where
  | result {reports : List Report} {value : α} {rest : List Token} :
      rest <:+ ts → Q value rest → Settles ts Q ⟨reports, some value, rest⟩
  | failure {reports : List Report} {rest : List Token} :
      rest <:+ ts → reports ≠ [] → Settles ts Q ⟨reports, none, rest⟩

/-- Two parsers do the same, and settle. -/
def Steady (p q : Parser α) (ts : List Token) (Q : α → List Token → Prop) : Prop :=
  p ts = q ts ∧ Settles ts Q (p ts)

/-!
# Combinators
-/

section

variable {p q : Parser α} {next next' : α → Parser β} {ts rest : List Token}
  {reports : List Report} {value : α}

theorem Settles.prepend {Q : α → List Token → Prop} {parsed : Parsed α}
    (hparsed : Settles rest Q parsed) (hsuffix : rest <:+ ts) (reports : List Report) :
    Settles ts Q ⟨reports ++ parsed.reports, parsed.result, parsed.rest⟩ := by
  cases hparsed with
  | result hrest hQ => exact .result (hrest.trans hsuffix) hQ
  | failure hrest hreports =>
      exact .failure (hrest.trans hsuffix) (List.append_ne_nil_of_right_ne_nil _ hreports)

theorem Settles.bind {P : α → List Token → Prop} {Q : β → List Token → Prop}
    (hp : Settles ts P (p ts))
    (hnext : ∀ value rest, rest <:+ ts → P value rest → Settles rest Q (next value rest)) :
    Settles ts Q ((p >>= next) ts) := by
  generalize hparsed : p ts = parsed at hp
  cases hp with
  | @result reports value rest hsuffix hvalue =>
      rw [bind_of_some hparsed]
      exact (hnext value rest hsuffix hvalue).prepend hsuffix reports
  | failure hsuffix hreports =>
      rw [bind_of_none hparsed]
      exact .failure hsuffix hreports

theorem Steady.bind {P : α → List Token → Prop} {Q : β → List Token → Prop}
    (hp : Steady p q ts P)
    (hnext : ∀ value rest, rest <:+ ts → P value rest →
      Steady (next value) (next' value) rest Q) :
    Steady (p >>= next) (q >>= next') ts Q := by
  constructor
  · rcases hp with ⟨hsame, hsettles⟩
    generalize hparsed : p ts = parsed at hsame hsettles
    cases hsettles with
    | @result reports value rest hsuffix hvalue =>
        rw [bind_of_some hparsed, bind_of_some hsame.symm, (hnext value rest hsuffix hvalue).1]
    | failure _ _ => rw [bind_of_none hparsed, bind_of_none hsame.symm]
  · exact hp.2.bind fun value rest hsuffix hvalue => (hnext value rest hsuffix hvalue).2

theorem Steady.imp {P Q : α → List Token → Prop} (hp : Steady p q ts P)
    (hPQ : ∀ value rest, rest <:+ ts → P value rest → Q value rest) : Steady p q ts Q := by
  rcases hp with ⟨hsame, hsettles⟩
  constructor
  · exact hsame
  · generalize p ts = parsed at hsettles
    cases hsettles with
    | result hsuffix hvalue => exact .result hsuffix (hPQ _ _ hsuffix hvalue)
    | failure hsuffix hreports => exact .failure hsuffix hreports

theorem Steady.ok {Q : α → List Token → Prop} (hQ : Q value ts) :
    Steady (Parser.ok value) (Parser.ok value) ts Q :=
  ⟨rfl, .result (List.suffix_refl ts) hQ⟩

theorem Steady.map {Q : β → List Token → Prop} {f : α → β}
    (hp : Steady p q ts fun value rest => Q (f value) rest) : Steady (f <$> p) (f <$> q) ts Q :=
  Steady.bind hp fun _ _ _ hQ => Steady.ok hQ

theorem Steady.fail {Q : α → List Token → Prop} {violation : Violation} :
    Steady (Parser.fail violation : Parser α) (Parser.fail violation) ts Q :=
  ⟨rfl, .failure (List.suffix_refl ts) (List.cons_ne_nil _ _)⟩

theorem Steady.reportHere {Q : Unit → List Token → Prop} {violation : Violation} (hQ : Q () ts) :
    Steady (Parser.reportHere violation) (Parser.reportHere violation) ts Q :=
  ⟨rfl, .result (List.suffix_refl ts) hQ⟩

theorem Steady.reportAt {Q : Unit → List Token → Prop} {token : Token} {violation : Violation}
    (hQ : Q () ts) :
    Steady (Parser.reportAt token violation) (Parser.reportAt token violation) ts Q :=
  ⟨rfl, .result (List.suffix_refl ts) hQ⟩

theorem Steady.behind {Q : α → List Token → Prop} {p' q' : Parser α} {token : Token}
    (hp : p (token :: ts) = p' ts) (hq : q (token :: ts) = q' ts) (hsteady : Steady p' q' ts Q) :
    Steady p q (token :: ts) Q := by
  rw [Steady, hp, hq]
  exact ⟨hsteady.1, hsteady.2.prepend (List.suffix_cons token ts) []⟩

theorem Steady.peek {next next' : Option TokenKind → Parser β} {Q : β → List Token → Prop}
    (hnext : Steady (next (ts.head?.map Token.kind)) (next' (ts.head?.map Token.kind)) ts Q) :
    Steady (Parser.peek >>= next) (Parser.peek >>= next') ts Q := by
  rw [Steady, bind_of_result (peek_result ts), bind_of_result (peek_result ts)]
  exact hnext

theorem Steady.accept {next next' : Option Token → Parser β} {Q : β → List Token → Prop}
    {kinds : List TokenKind} (hnone : Steady (next none) (next' none) ts Q)
    (hsome : ∀ token rest, ts = token :: rest → token.kind ∈ kinds →
      Steady (next (some token)) (next' (some token)) rest Q) :
    Steady (Parser.accept kinds >>= next) (Parser.accept kinds >>= next') ts Q := by
  rcases head_cases kinds ts with hother | ⟨token, rest, rfl, hkind⟩
  · rw [Steady, bind_of_result (accept_of_not_mem hother),
      bind_of_result (accept_of_not_mem hother)]
    exact hnone
  · apply Steady.behind (bind_of_result (accept_of_mem rest hkind))
      (bind_of_result (accept_of_mem rest hkind))
    exact hsome token rest rfl hkind

theorem Steady.expect {next next' : Token → Parser β} {Q : β → List Token → Prop}
    {kind : TokenKind} {what : String}
    (hnext : ∀ token rest, ts = token :: rest → Steady (next token) (next' token) rest Q) :
    Steady (Parser.expect kind what >>= next) (Parser.expect kind what >>= next') ts Q := by
  have hexpect : Steady (Parser.expect kind what) (Parser.expect kind what) ts
      fun token rest => ts = token :: rest := by
    apply Steady.accept
    · exact Steady.fail
    · intro token rest hts _
      exact Steady.ok hts
  apply Steady.bind hexpect
  intro token rest _ hts
  exact hnext token rest hts

end

/-!
# Parsers that take a token
-/

/-- Steady on fewer than `k` tokens, of which at least one is taken for a good result. -/
def Alike (k : Nat) (good : α → Prop) (p q : Parser α) : Prop :=
  ∀ ts : List Token, ts.length < k →
    Steady p q ts fun value rest => rest.length < ts.length ∧ good value

section

variable {k : Nat} {good : α → Prop} {p q : Parser α}

theorem steady_unlessNext (kind : TokenKind) (hp : Alike k good p q) {ts : List Token}
    (hlength : ts.length < k) :
    Steady (unlessNext kind p) (unlessNext kind q) ts fun value _ => ∀ v ∈ value, good v := by
  apply Steady.peek
  by_cases hkind : ts.head?.map Token.kind = some kind
  · simp only [if_pos hkind]
    exact Steady.ok nofun
  · simp only [if_neg hkind]
    apply Steady.map
    apply (hp ts hlength).imp
    rintro value rest _ ⟨_, hgood⟩ v hv
    cases hv
    exact hgood

theorem steady_moreItems (hp : Alike k good p q) (what : String) (n : Nat) :
    ∀ (m count : Nat) (ts : List Token), ts.length < n → ts.length < m → ts.length ≤ k →
      Steady (moreItems p what n count) (moreItems q what m count) ts
        fun values _ => ∀ v ∈ values, good v := by
  induction n with
  | zero =>
      intro _ _ ts hn
      exact absurd hn (Nat.not_lt_zero _)
  | succ n ih =>
      intro m count ts hn hm hk
      cases m with
      | zero => exact absurd hm (Nat.not_lt_zero _)
      | succ m =>
          apply Steady.accept
          · exact Steady.ok nofun
          · intro comma ts' hts _
            subst hts
            simp only [List.length_cons] at hn hm hk
            have hitems : Steady
                (do
                  let first ← p
                  let rest ← moreItems p what n (count + 1)
                  ok (first :: rest) : Parser (List α))
                (do
                  let first ← q
                  let rest ← moreItems q what m (count + 1)
                  ok (first :: rest) : Parser (List α)) ts' fun values _ =>
                  ∀ v ∈ values, good v := by
              apply Steady.bind (hp ts' (by omega))
              rintro first rest _ ⟨hshorter, hfirst⟩
              apply Steady.bind (ih m (count + 1) rest (by omega) (by omega) (by omega))
              intro values _ _ hvalues
              exact Steady.ok (List.forall_mem_cons.mpr ⟨hfirst, hvalues⟩)
            by_cases hcount : maxArguments ≤ count
            · simp only [if_pos hcount]
              apply Steady.bind (Steady.reportHere (Q := fun _ rest => rest = ts') rfl)
              rintro _ rest _ rfl
              exact hitems
            · simp only [if_neg hcount]
              exact hitems

theorem steady_items (hp : Alike k good p q) (what : String) {n m : Nat} {ts : List Token}
    (hn : ts.length ≤ n) (hm : ts.length ≤ m) (hk : ts.length < k) :
    Steady (items p what n) (items q what m) ts fun values _ => ∀ v ∈ values, good v := by
  apply Steady.peek
  by_cases hnext : ts.head?.map Token.kind = some .rightParen
  · simp only [if_pos hnext]
    exact Steady.ok nofun
  · simp only [if_neg hnext]
    apply Steady.bind (hp ts hk)
    rintro first rest _ ⟨hshorter, hfirst⟩
    apply Steady.bind (steady_moreItems hp what n m 1 rest (by omega) (by omega) (by omega))
    intro values _ _ hvalues
    exact Steady.ok (List.forall_mem_cons.mpr ⟨hfirst, hvalues⟩)

end

/-!
# The levels of expressions
-/

theorem allFresh_of_forall {es : List Expr} (hes : ∀ e ∈ es, e.Fresh) : Expr.AllFresh es := by
  induction es with
  | nil => trivial
  | cons e es ih =>
      rw [List.forall_mem_cons] at hes
      exact ⟨hes.1, ih hes.2⟩

section

variable {k n m : Nat} {inner inner' : Parser Expr}

theorem alike_primary (hinner : Alike k Expr.Fresh inner inner') :
    Alike (k + 1) Expr.Fresh (primary inner) (primary inner') := by
  intro ts hlength
  cases ts with
  | nil => exact ⟨rfl, .failure (List.suffix_refl _) (List.cons_ne_nil _ _)⟩
  | cons token rest =>
      have hrest : rest.length < k := Nat.lt_of_succ_lt_succ hlength
      have hok : ∀ {tree : Expr}, tree.Fresh → Steady (ok tree) (ok tree) rest
          fun value rest' => rest'.length < (token :: rest).length ∧ value.Fresh :=
        fun hfresh => Steady.ok ⟨Nat.lt_succ_self _, hfresh⟩
      cases hconstant : token.constant? with
      | some value =>
          exact Steady.behind (primary_constant inner rest hconstant)
            (primary_constant inner' rest hconstant) (hok trivial)
      | none =>
          cases hkind : token.kind
          case kwThis =>
              exact Steady.behind (primary_this inner rest hkind)
                (primary_this inner' rest hkind) (hok rfl)
          case identifier =>
              exact Steady.behind (primary_name inner rest hkind)
                (primary_name inner' rest hkind) (hok rfl)
          case kwSuper =>
              apply Steady.behind (primary_super inner rest hkind)
                (primary_super inner' rest hkind)
              apply Steady.expect
              intro dot ts₁ hts₁
              apply Steady.expect
              intro method ts₂ hts₂
              subst hts₁ hts₂
              apply Steady.ok
              constructor
              · simp only [List.length_cons]
                omega
              · exact rfl
          case leftParen =>
              apply Steady.behind (primary_paren inner rest hkind)
                (primary_paren inner' rest hkind)
              apply Steady.bind (hinner rest hrest)
              rintro tree ts₁ _ ⟨hshorter, htree⟩
              apply Steady.expect
              intro right ts₂ hts₂
              subst hts₂
              simp only [List.length_cons] at hshorter
              apply Steady.ok
              constructor
              · simp only [List.length_cons]
                omega
              · exact htree
          all_goals
            rw [Steady, primary_other inner rest hconstant (by simp [hkind]),
              primary_other inner' rest hconstant (by simp [hkind])]
            exact Steady.fail

theorem steady_suffixes (hinner : Alike k Expr.Fresh inner inner') (n : Nat) :
    ∀ (m : Nat) (tree : Expr) (ts : List Token), ts.length < n → ts.length < m → ts.length ≤ k →
      tree.Fresh →
      Steady (suffixes inner n tree) (suffixes inner' m tree) ts fun value _ => value.Fresh := by
  induction n with
  | zero =>
      intro _ _ ts hn
      exact absurd hn (Nat.not_lt_zero _)
  | succ n ih =>
      intro m tree ts hn hm hk htree
      cases m with
      | zero => exact absurd hm (Nat.not_lt_zero _)
      | succ m =>
          apply Steady.accept
          · exact Steady.ok htree
          · intro token ts₁ hts₁ _
            subst hts₁
            simp only [List.length_cons] at hn hm hk
            by_cases hleft : token.kind = .leftParen
            · simp only [if_pos hleft]
              apply Steady.bind
                (steady_items hinner "arguments" (by omega) (by omega) (by omega))
              intro arguments ts₂ hsuffix harguments
              have hle := hsuffix.length_le
              apply Steady.expect
              intro paren ts₃ hts₃
              subst hts₃
              simp only [List.length_cons] at hle
              exact ih m _ ts₃ (by omega) (by omega) (by omega)
                ⟨htree, allFresh_of_forall harguments⟩
            · simp only [if_neg hleft]
              apply Steady.expect
              intro name ts₂ hts₂
              subst hts₂
              simp only [List.length_cons] at hn hm hk
              exact ih m _ ts₂ (by omega) (by omega) (by omega) htree

theorem alike_call (hinner : Alike k Expr.Fresh inner inner') (hn : k < n) (hm : k < m) :
    Alike (k + 1) Expr.Fresh (call n inner) (call m inner') := by
  intro ts hlength
  apply Steady.bind (alike_primary hinner ts hlength)
  rintro tree rest _ ⟨hshorter, htree⟩
  apply (steady_suffixes hinner n m tree rest (by omega) (by omega) (by omega) htree).imp
  intro value rest' hsuffix hvalue
  have hle := hsuffix.length_le
  exact ⟨by omega, hvalue⟩

theorem steady_unary {operand operand' : Parser Expr}
    (hoperand : Alike (k + 1) Expr.Fresh operand operand') (n : Nat) :
    ∀ (m : Nat) (ts : List Token), ts.length < n → ts.length < m → ts.length < k + 1 →
      Steady (unary operand n) (unary operand' m) ts
        fun value rest => rest.length < ts.length ∧ value.Fresh := by
  induction n with
  | zero =>
      intro _ ts hn
      exact absurd hn (Nat.not_lt_zero _)
  | succ n ih =>
      intro m ts hn hm hk
      cases m with
      | zero => exact absurd hm (Nat.not_lt_zero _)
      | succ m =>
          apply Steady.accept
          · exact hoperand ts hk
          · intro operator ts₁ hts₁ _
            subst hts₁
            simp only [List.length_cons] at hn hm hk
            apply Steady.bind (ih m ts₁ (by omega) (by omega) (by omega))
            rintro right rest _ ⟨hshorter, hright⟩
            apply Steady.ok
            constructor
            · simp only [List.length_cons]
              omega
            · exact hright

theorem alike_unary {operand operand' : Parser Expr}
    (hoperand : Alike (k + 1) Expr.Fresh operand operand') (hn : k < n) (hm : k < m) :
    Alike (k + 1) Expr.Fresh (unary operand n) (unary operand' m) := by
  intro ts hlength
  exact steady_unary hoperand n m ts (by omega) (by omega) hlength

section

variable {operand operand' : Parser Expr} {node : Expr → Token → Expr → Expr}
  (hoperand : Alike (k + 1) Expr.Fresh operand operand')
  (hnode : ∀ left operator right, left.Fresh → right.Fresh → (node left operator right).Fresh)

include hoperand hnode

theorem steady_chainRest (kinds : List TokenKind) (n : Nat) :
    ∀ (m : Nat) (left : Expr) (ts : List Token), ts.length < n → ts.length < m →
      ts.length < k + 1 → left.Fresh →
      Steady (chainRest operand kinds node n left) (chainRest operand' kinds node m left) ts
        fun value _ => value.Fresh := by
  induction n with
  | zero =>
      intro _ _ ts hn
      exact absurd hn (Nat.not_lt_zero _)
  | succ n ih =>
      intro m left ts hn hm hk hleft
      cases m with
      | zero => exact absurd hm (Nat.not_lt_zero _)
      | succ m =>
          apply Steady.accept
          · exact Steady.ok hleft
          · intro operator ts₁ hts₁ _
            subst hts₁
            simp only [List.length_cons] at hn hm hk
            apply Steady.bind (hoperand ts₁ (by omega))
            rintro right rest _ ⟨hshorter, hright⟩
            exact ih m _ rest (by omega) (by omega) (by omega) (hnode _ _ _ hleft hright)

theorem alike_chain (kinds : List TokenKind) (hn : k < n) (hm : k < m) :
    Alike (k + 1) Expr.Fresh (chain operand kinds node n) (chain operand' kinds node m) := by
  intro ts hlength
  apply Steady.bind (hoperand ts hlength)
  rintro left rest _ ⟨hshorter, hleft⟩
  apply (steady_chainRest hoperand hnode kinds n m left rest (by omega) (by omega) (by omega)
    hleft).imp
  intro value rest' hsuffix hvalue
  have hle := hsuffix.length_le
  exact ⟨by omega, hvalue⟩

end

section

variable (hinner : Alike k Expr.Fresh inner inner') (hn : k < n) (hm : k < m)
include hinner hn hm

theorem alike_equality : Alike (k + 1) Expr.Fresh (equality n inner) (equality m inner') := by
  have hbinary : ∀ left operator right, left.Fresh → right.Fresh →
      (Expr.binary left operator right).Fresh := fun _ _ _ hleft hright => ⟨hleft, hright⟩
  have hunary := alike_unary (alike_call hinner hn hm) hn hm
  have hfactor := alike_chain hunary hbinary [.slash, .star] hn hm
  have hterm := alike_chain hfactor hbinary [.minus, .plus] hn hm
  have hcomparison :=
    alike_chain hterm hbinary [.greater, .greaterEqual, .less, .lessEqual] hn hm
  exact alike_chain hcomparison hbinary [.bangEqual, .equalEqual] hn hm

theorem alike_ternary : Alike (k + 1) Expr.Fresh (ternary n inner) (ternary m inner') := by
  intro ts hlength
  apply Steady.bind (alike_equality hinner hn hm ts hlength)
  rintro condition ts₁ _ ⟨hshorter, hcondition⟩
  apply Steady.accept
  · exact Steady.ok ⟨hshorter, hcondition⟩
  · intro question ts₂ hts₂ _
    subst hts₂
    simp only [List.length_cons] at hshorter
    apply Steady.bind (hinner ts₂ (by omega))
    rintro thenBranch ts₃ _ ⟨hshorter', hthen⟩
    apply Steady.expect
    intro colon ts₄ hts₄
    subst hts₄
    simp only [List.length_cons] at hshorter'
    apply Steady.bind (hinner ts₄ (by omega))
    rintro elseBranch rest _ ⟨hshorter'', helse⟩
    apply Steady.ok
    exact ⟨by omega, hcondition, hthen, helse⟩

theorem alike_logicOr : Alike (k + 1) Expr.Fresh (logicOr n inner) (logicOr m inner') := by
  have hlogical : ∀ left operator right, left.Fresh → right.Fresh →
      (Expr.logical left operator right).Fresh := fun _ _ _ hleft hright => ⟨hleft, hright⟩
  have hand := alike_chain (alike_ternary hinner hn hm) hlogical [.kwAnd] hn hm
  exact alike_chain hand hlogical [.kwOr] hn hm

theorem alike_assignment : Alike (k + 1) Expr.Fresh (assignment n inner) (assignment m inner') := by
  intro ts hlength
  apply Steady.bind (alike_logicOr hinner hn hm ts hlength)
  rintro target ts₁ _ ⟨hshorter, htarget⟩
  apply Steady.accept
  · exact Steady.ok ⟨hshorter, htarget⟩
  · intro equals ts₂ hts₂ _
    subst hts₂
    simp only [List.length_cons] at hshorter
    apply Steady.bind (hinner ts₂ (by omega))
    rintro value rest _ ⟨hshorter', hvalue⟩
    have hrest : rest.length < ts.length := by omega
    -- A target that is reported stands for the whole assignment.
    cases target
    case var name => exact Steady.ok ⟨hrest, htarget, hvalue⟩
    case get object name => exact Steady.ok ⟨hrest, htarget, hvalue⟩
    all_goals
      apply Steady.bind (Steady.reportAt (Q := fun _ rest' => rest' = rest) rfl)
      rintro _ _ _ rfl
      exact Steady.ok ⟨hrest, htarget⟩

end

end

/-- Two bounds on the depth of an expression are alike if both suffice. -/
theorem alike_expression (k : Nat) :
    ∀ n m : Nat, k ≤ n → k ≤ m → Alike k Expr.Fresh (expression n) (expression m) := by
  induction k with
  | zero =>
      intro n m _ _ ts hlength
      exact absurd hlength (Nat.not_lt_zero _)
  | succ k ih =>
      intro n m hn hm
      cases n with
      | zero => exact absurd hn (Nat.not_succ_le_zero _)
      | succ n =>
          cases m with
          | zero => exact absurd hm (Nat.not_succ_le_zero _)
          | succ m =>
              have hinner := ih n m (Nat.le_of_succ_le_succ hn) (Nat.le_of_succ_le_succ hm)
              exact alike_assignment hinner hn hm

end Parser
end Lox
