import Lox.Proofs.Parse.Steady

/-!
# The parser copes with every list of tokens

Whatever the tokens are, the parser of programs reads them all and has a result.
A declaration is dropped only after a report, and every call of the parser of
declarations takes a token.  This is checked at each call, however deep it is in
blocks, functions and classes: a parser that is watched, and that returns an
arbitrary alarm from the first call that fails the check, does the same.
-/

namespace Lox
namespace Parser

/-!
# Watching declarations
-/

/--
Whether a call of the parser of declarations has moved on: it did not give up, it
left fewer of its tokens, and it reported something if it dropped its declaration.
-/
def proceeds (ts : List Token) (parsed : Parsed (Option Stmt)) : Bool :=
  parsed.result.isSome && decide (parsed.rest <:+ ts) &&
    decide (parsed.rest.length < ts.length) &&
    (parsed.result.join.isSome || !parsed.reports.isEmpty)

/-- Watch the calls of a parser of declarations, except at the end of the input. -/
def watch (alarm : Parsed (Option Stmt)) (p : Parser (Option Stmt)) : Parser (Option Stmt) :=
  fun ts => if ts = [] ∨ proceeds ts (p ts) then p ts else alarm

section

variable (alarm : Parsed (Option Stmt))

mutual

/-- The parser of statements, with all declarations in it watched. -/
def watchedStatement : Nat → Parser Stmt
  | 0 => giveUp
  | n + 1 => anyStatement (n + 1) (watchedStatement n) (watchedDeclaration n)

def watchedDeclaration : Nat → Parser (Option Stmt)
  | 0 => fun _ => alarm
  | n + 1 =>
      watch alarm (recovering (anyDeclaration (n + 1) (watchedStatement n) (watchedDeclaration n)))

end

end

/-!
# Recovery
-/

theorem boundary_suffix (last : Token) (ts : List Token) : boundary last ts <:+ ts := by
  induction ts generalizing last with
  | nil => exact List.suffix_refl _
  | cons token ts ih =>
      rw [boundary]
      split
      · exact List.suffix_refl _
      · exact (ih token).trans (List.suffix_cons token ts)

theorem synchronize_suffix (ts : List Token) : synchronize ts <:+ ts := by
  cases ts with
  | nil => exact List.suffix_refl _
  | cons token ts => exact (boundary_suffix token ts).trans (List.suffix_cons token ts)

theorem length_synchronize_lt {ts : List Token} (hne : ts ≠ []) :
    (synchronize ts).length < ts.length := by
  cases ts with
  | nil => exact absurd rfl hne
  | cons token ts => exact Nat.lt_succ_of_le (boundary_suffix token ts).length_le

theorem exists_of_proceeds {ts : List Token} {parsed : Parsed (Option Stmt)}
    (hproceeds : proceeds ts parsed = true) :
    ∃ reports value rest, parsed = ⟨reports, some value, rest⟩ ∧ rest <:+ ts ∧
      rest.length < ts.length := by
  rcases parsed with ⟨reports, result, rest⟩
  simp only [proceeds, Bool.and_eq_true, decide_eq_true_eq] at hproceeds
  rcases hproceeds with ⟨⟨⟨hresult, hsuffix⟩, hshorter⟩, _⟩
  rcases Option.isSome_iff_exists.mp hresult with ⟨value, rfl⟩
  exact ⟨reports, value, rest, rfl, hsuffix, hshorter⟩

/-- Parsers of declarations that do the same where there is a token, and move on. -/
def AlikeDeclaration (k : Nat) (p q : Parser (Option Stmt)) : Prop :=
  ∀ ts : List Token, ts ≠ [] → ts.length < k →
    p ts = q ts ∧ proceeds ts (p ts) = true ∧ ∀ s ∈ (p ts).result.join, s.Fresh

theorem AlikeDeclaration.steady {k : Nat} {p q : Parser (Option Stmt)}
    (halike : AlikeDeclaration k p q) {ts : List Token} (hne : ts ≠ []) (hlength : ts.length < k) :
    Steady p q ts fun value rest => rest.length < ts.length ∧ ∀ s ∈ value, s.Fresh := by
  rcases halike ts hne hlength with ⟨hsame, hproceeds, hfresh⟩
  rcases exists_of_proceeds hproceeds with ⟨reports, value, rest, hparsed, hsuffix, hshorter⟩
  rw [hparsed] at hfresh
  rw [Steady, hparsed]
  exact ⟨hparsed.symm.trans hsame, .result hsuffix ⟨hshorter, hfresh⟩⟩

/-- A declaration that is dropped has been reported, and dropping it moves on. -/
theorem alikeDeclaration_recovering {k : Nat} {p q : Parser Stmt} (hp : Alike k Stmt.Fresh p q) :
    AlikeDeclaration k (recovering p) (recovering q) := by
  intro ts hne hlength
  rcases hp ts hlength with ⟨hsame, hsettles⟩
  unfold recovering
  rw [← hsame]
  generalize p ts = parsed at hsettles
  cases hsettles with
  | result hsuffix hvalue =>
      refine ⟨rfl, by simp [proceeds, hsuffix, hvalue.1], ?_⟩
      intro s hs
      cases hs
      exact hvalue.2
  | @failure reports rest hsuffix hreports =>
      have hsynchronized := (synchronize_suffix rest).trans hsuffix
      have hshorter : (synchronize rest).length < ts.length := by
        cases rest with
        | nil => exact List.length_pos_iff.mpr hne
        | cons token rest =>
            exact Nat.lt_of_lt_of_le (length_synchronize_lt (List.cons_ne_nil _ _))
              hsuffix.length_le
      exact ⟨rfl, by simp [proceeds, hsynchronized, hshorter, hreports], nofun⟩

/-- Where a parser of declarations moves on, watching it changes nothing. -/
theorem AlikeDeclaration.watch {k : Nat} {p q : Parser (Option Stmt)}
    (halike : AlikeDeclaration k p q) (alarm : Parsed (Option Stmt)) :
    AlikeDeclaration k (Parser.watch alarm p) q := by
  intro ts hne hlength
  have hwatch : Parser.watch alarm p ts = p ts :=
    if_pos (Or.inr (halike ts hne hlength).2.1)
  rw [hwatch]
  exact halike ts hne hlength

/-!
# Simple statements
-/

section

variable {k n m : Nat} (hn : k ≤ n) (hm : k ≤ m)
include hn hm

theorem alike_endingIn {form : Expr → Stmt} (hform : ∀ e, e.Fresh → (form e).Fresh)
    (what : String) : Alike k Stmt.Fresh (endingIn form what n) (endingIn form what m) := by
  intro ts hlength
  apply Steady.bind (alike_expression k n m hn hm ts hlength)
  rintro inner rest _ ⟨hshorter, hinner⟩
  apply Steady.expect
  intro semicolon rest' hrest
  subst hrest
  exact Steady.ok ⟨Nat.lt_of_succ_lt hshorter, hform inner hinner⟩

theorem alike_expressionStatement :
    Alike k Stmt.Fresh (expressionStatement n) (expressionStatement m) :=
  alike_endingIn hn hm (fun _ => id) _

theorem alike_returnStatement (keyword : Token) :
    Alike k Stmt.Fresh (returnStatement n keyword) (returnStatement m keyword) := by
  intro ts hlength
  apply Steady.bind (steady_unlessNext .semicolon (alike_expression k n m hn hm) hlength)
  intro value rest hsuffix hvalue
  apply Steady.expect
  intro semicolon rest' hrest
  subst hrest
  exact Steady.ok ⟨Nat.lt_of_lt_of_le (Nat.lt_succ_self _) hsuffix.length_le, hvalue⟩

theorem alike_varDeclaration : Alike k Stmt.Fresh (varDeclaration n) (varDeclaration m) := by
  intro ts hlength
  apply Steady.expect
  intro name ts₁ hts₁
  subst hts₁
  simp only [List.length_cons] at hlength
  apply Steady.accept
  · apply Steady.bind (Steady.ok (Q := fun value rest => value = none ∧ rest = ts₁) ⟨rfl, rfl⟩)
    rintro _ _ _ ⟨rfl, rfl⟩
    apply Steady.expect
    intro semicolon rest hrest
    subst hrest
    apply Steady.ok
    constructor
    · simp only [List.length_cons]
      omega
    · exact nofun
  · intro equals ts₂ hts₂ _
    subst hts₂
    simp only [List.length_cons] at hlength
    have hinitial : Steady (some <$> expression n) (some <$> expression m) ts₂
        fun value rest => rest.length < ts₂.length ∧ ∀ e ∈ value, Expr.Fresh e := by
      apply Steady.map
      apply (alike_expression k n m hn hm ts₂ (by omega)).imp
      rintro initial rest _ ⟨hshorter, hfresh⟩
      refine ⟨hshorter, ?_⟩
      intro e he
      cases he
      exact hfresh
    apply Steady.bind hinitial
    rintro initial rest _ ⟨hshorter, hfresh⟩
    apply Steady.expect
    intro semicolon rest' hrest
    subst hrest
    simp only [List.length_cons] at hshorter
    apply Steady.ok
    constructor
    · simp only [List.length_cons]
      omega
    · exact hfresh

theorem steady_firstClause {ts : List Token} (hlength : ts.length < k) :
    Steady (firstClause n) (firstClause m) ts fun first _ => ∀ s ∈ first, Stmt.Fresh s := by
  have hsome : ∀ {s : Stmt}, s.Fresh → ∀ s' ∈ some s, Stmt.Fresh s' := by
    intro s hs s' hs'
    cases hs'
    exact hs
  apply Steady.accept
  · apply Steady.map
    apply (alike_expressionStatement hn hm ts hlength).imp
    rintro s _ _ ⟨_, hs⟩
    exact hsome hs
  · intro token ts₁ hts₁ _
    subst hts₁
    by_cases hsemicolon : token.kind = .semicolon
    · simp only [if_pos hsemicolon]
      exact Steady.ok nofun
    · simp only [if_neg hsemicolon]
      apply Steady.map
      apply (alike_varDeclaration hn hm ts₁ (Nat.lt_of_succ_lt hlength)).imp
      rintro s _ _ ⟨_, hs⟩
      exact hsome hs

end

theorem steady_superclass (ts : List Token) :
    Steady superclass superclass ts fun parent _ => ∀ r ∈ parent, Reference.Fresh r := by
  apply Steady.accept
  · exact Steady.ok nofun
  · intro less ts₁ _ _
    apply Steady.expect
    intro name ts₂ _
    apply Steady.ok
    intro r hr
    cases hr
    rfl

theorem steady_parameters {n m : Nat} {ts : List Token} (hn : ts.length ≤ n)
    (hm : ts.length ≤ m) :
    Steady (items (expect .identifier "parameter name") "parameters" n)
      (items (expect .identifier "parameter name") "parameters" m) ts fun _ _ => True := by
  have hitem : Alike (ts.length + 1) (fun _ : Token => True) (expect .identifier "parameter name")
      (expect .identifier "parameter name") := by
    intro us _
    apply Steady.accept
    · exact Steady.fail
    · intro name rest hus _
      subst hus
      exact Steady.ok ⟨Nat.lt_succ_self _, trivial⟩
  apply (steady_items hitem "parameters" hn hm (Nat.lt_succ_self _)).imp
  intro _ _ _ _
  trivial

/-!
# Blocks, functions and classes
-/

section

variable {k : Nat} {declaration declaration' : Parser (Option Stmt)}
  (hdeclaration : AlikeDeclaration k declaration declaration')
include hdeclaration

theorem steady_declarations (n : Nat) :
    ∀ (m : Nat) (ts : List Token), ts.length < n → ts.length < m → ts.length < k →
      Steady (declarations declaration n) (declarations declaration' m) ts
        fun trees _ => Stmt.AllFresh trees := by
  induction n with
  | zero =>
      intro _ ts hn
      exact absurd hn (Nat.not_lt_zero _)
  | succ n ih =>
      intro m ts hn hm hk
      cases m with
      | zero => exact absurd hm (Nat.not_lt_zero _)
      | succ m =>
          apply Steady.peek
          split
          · exact Steady.ok trivial
          · exact Steady.ok trivial
          · next hnext =>
              have hne : ts ≠ [] := by
                rintro rfl
                cases hnext
              apply Steady.bind (hdeclaration.steady hne hk)
              rintro first rest _ ⟨hshorter, hfirst⟩
              apply Steady.bind (ih m rest (by omega) (by omega) (by omega))
              intro trees rest' _ htrees
              apply Steady.ok
              cases first with
              | none => exact htrees
              | some s => exact ⟨hfirst s rfl, htrees⟩

theorem steady_blockBody {n m : Nat} {ts : List Token} (hn : ts.length < n) (hm : ts.length < m)
    (hk : ts.length < k) :
    Steady (blockBody n declaration) (blockBody m declaration') ts
      fun trees rest => rest.length < ts.length ∧ Stmt.AllFresh trees := by
  apply Steady.bind (steady_declarations hdeclaration n m ts hn hm hk)
  intro trees rest hsuffix htrees
  apply Steady.expect
  intro right rest' hrest
  subst hrest
  exact Steady.ok ⟨Nat.lt_of_lt_of_le (Nat.lt_succ_self _) hsuffix.length_le, htrees⟩

theorem steady_function (what : String) {n m : Nat} {ts : List Token} (hn : ts.length < n)
    (hm : ts.length < m) (hk : ts.length ≤ k) :
    Steady (function n declaration what) (function m declaration' what) ts
      fun f rest => rest.length < ts.length ∧ f.Fresh := by
  apply Steady.expect
  intro name ts₁ hts₁
  subst hts₁
  apply Steady.expect
  intro left ts₂ hts₂
  subst hts₂
  simp only [List.length_cons] at hn hm hk
  apply Steady.bind (steady_parameters (by omega) (by omega))
  intro params ts₃ hsuffix _
  have hle := hsuffix.length_le
  apply Steady.expect
  intro right ts₄ hts₄
  subst hts₄
  apply Steady.expect
  intro opening ts₅ hts₅
  subst hts₅
  simp only [List.length_cons] at hle
  apply Steady.bind (steady_blockBody hdeclaration (by omega) (by omega) (by omega))
  rintro body rest _ ⟨hshorter, hbody⟩
  apply Steady.ok
  constructor
  · simp only [List.length_cons]
    omega
  · exact hbody

/-- The parser of methods passes on its bound less one, but a class has more than one token. -/
theorem steady_methods (n : Nat) :
    ∀ (m : Nat) (ts : List Token), ts.length + 1 < n → ts.length + 1 < m → ts.length ≤ k →
      Steady (methods declaration n) (methods declaration' m) ts
        fun fs _ => Function.AllFresh fs := by
  induction n with
  | zero =>
      intro _ ts hn
      exact absurd hn (Nat.not_lt_zero _)
  | succ n ih =>
      intro m ts hn hm hk
      cases m with
      | zero => exact absurd hm (Nat.not_lt_zero _)
      | succ m =>
          apply Steady.peek
          split
          · exact Steady.ok trivial
          · exact Steady.ok trivial
          · apply Steady.bind (steady_function hdeclaration "method" (by omega) (by omega) hk)
            rintro first rest _ ⟨hshorter, hfirst⟩
            apply Steady.bind (ih m rest (by omega) (by omega) (by omega))
            intro fs _ _ hfs
            exact Steady.ok ⟨hfirst, hfs⟩

theorem alike_classDeclaration {n m : Nat} (hn : k < n) (hm : k < m) :
    Alike k Stmt.Fresh (classDeclaration n declaration) (classDeclaration m declaration') := by
  intro ts hlength
  apply Steady.expect
  intro name ts₁ hts₁
  subst hts₁
  apply Steady.bind (steady_superclass ts₁)
  intro parent ts₂ hsuffix hparent
  have hle := hsuffix.length_le
  apply Steady.expect
  intro left ts₃ hts₃
  subst hts₃
  simp only [List.length_cons] at hlength hle
  apply Steady.bind
    (steady_methods hdeclaration n m ts₃ (by omega) (by omega) (by omega))
  intro members ts₄ hsuffix' hmembers
  have hle' := hsuffix'.length_le
  apply Steady.expect
  intro right rest hrest
  subst hrest
  simp only [List.length_cons] at hle'
  apply Steady.ok
  constructor
  · simp only [List.length_cons]
    omega
  · exact ⟨hparent, hmembers⟩

end

/-!
# Statements with parts
-/

section

variable {k n m : Nat} {statement statement' : Parser Stmt}
  (hstatement : Alike k Stmt.Fresh statement statement') (hn : k ≤ n) (hm : k ≤ m)
include hstatement hn hm

theorem alike_forStatement :
    Alike k Stmt.Fresh (forStatement n statement) (forStatement m statement') := by
  intro ts hlength
  apply Steady.expect
  intro left ts₁ hts₁
  subst hts₁
  simp only [List.length_cons] at hlength
  apply Steady.bind (steady_firstClause hn hm (by omega))
  intro first ts₂ hsuffix₂ hfirst
  have hle₂ := hsuffix₂.length_le
  apply Steady.bind
    (steady_unlessNext .semicolon (alike_expression k n m hn hm) (by omega))
  intro condition ts₃ hsuffix₃ hcondition
  have hle₃ := hsuffix₃.length_le
  apply Steady.expect
  intro semicolon ts₄ hts₄
  subst hts₄
  simp only [List.length_cons] at hle₃
  apply Steady.bind
    (steady_unlessNext .rightParen (alike_expression k n m hn hm) (by omega))
  intro increment ts₅ hsuffix₅ hincrement
  have hle₅ := hsuffix₅.length_le
  apply Steady.expect
  intro right ts₆ hts₆
  subst hts₆
  simp only [List.length_cons] at hle₅
  apply Steady.bind (hstatement ts₆ (by omega))
  rintro body rest _ ⟨hshorter, hbody⟩
  apply Steady.ok
  constructor
  · simp only [List.length_cons]
    omega
  · exact Stmt.forLoop_fresh hfirst hcondition hincrement hbody

theorem alike_ifStatement :
    Alike k Stmt.Fresh (ifStatement n statement) (ifStatement m statement') := by
  intro ts hlength
  apply Steady.expect
  intro left ts₁ hts₁
  subst hts₁
  simp only [List.length_cons] at hlength
  apply Steady.bind (alike_expression k n m hn hm ts₁ (by omega))
  rintro condition ts₂ _ ⟨hshorter₂, hcondition⟩
  apply Steady.expect
  intro right ts₃ hts₃
  subst hts₃
  simp only [List.length_cons] at hshorter₂
  apply Steady.bind (hstatement ts₃ (by omega))
  rintro thenBranch ts₄ _ ⟨hshorter₄, hthen⟩
  apply Steady.accept
  · apply Steady.ok
    constructor
    · simp only [List.length_cons]
      omega
    · exact ⟨hcondition, hthen⟩
  · intro otherwise ts₅ hts₅ _
    subst hts₅
    simp only [List.length_cons] at hshorter₄
    apply Steady.bind (hstatement ts₅ (by omega))
    rintro elseBranch rest _ ⟨hshorter, helse⟩
    apply Steady.ok
    constructor
    · simp only [List.length_cons]
      omega
    · exact ⟨hcondition, hthen, helse⟩

theorem alike_whileStatement :
    Alike k Stmt.Fresh (whileStatement n statement) (whileStatement m statement') := by
  intro ts hlength
  apply Steady.expect
  intro left ts₁ hts₁
  subst hts₁
  simp only [List.length_cons] at hlength
  apply Steady.bind (alike_expression k n m hn hm ts₁ (by omega))
  rintro condition ts₂ _ ⟨hshorter₂, hcondition⟩
  apply Steady.expect
  intro right ts₃ hts₃
  subst hts₃
  simp only [List.length_cons] at hshorter₂
  apply Steady.bind (hstatement ts₃ (by omega))
  rintro body rest _ ⟨hshorter, hbody⟩
  apply Steady.ok
  constructor
  · simp only [List.length_cons]
    omega
  · exact ⟨hcondition, hbody⟩

end

/-!
# Any statement and any declaration
-/

section

variable {k n m : Nat} {statement statement' : Parser Stmt}
  {declaration declaration' : Parser (Option Stmt)}
  (hstatement : Alike k Stmt.Fresh statement statement')
  (hdeclaration : AlikeDeclaration k declaration declaration') (hn : k < n) (hm : k < m)
include hstatement hdeclaration hn hm

theorem alike_anyStatement :
    Alike (k + 1) Stmt.Fresh (anyStatement n statement declaration)
      (anyStatement m statement' declaration') := by
  intro ts hlength
  apply Steady.accept
  · exact alike_expressionStatement (show k + 1 ≤ n from hn) (show k + 1 ≤ m from hm) ts hlength
  · intro token rest hts hkind
    subst hts
    have hrest : rest.length < k := Nat.lt_of_succ_lt_succ hlength
    have hlater : ∀ {p q : Parser Stmt}, Alike k Stmt.Fresh p q → Steady p q rest
        fun value rest' => rest'.length < (token :: rest).length ∧ value.Fresh := by
      intro p q hpq
      apply (hpq rest hrest).imp
      rintro value rest' _ ⟨hshorter, hfresh⟩
      exact ⟨Nat.lt_succ_of_lt hshorter, hfresh⟩
    have hle : k ≤ n := Nat.le_of_lt hn
    have hle' : k ≤ m := Nat.le_of_lt hm
    simp only [List.mem_cons, List.not_mem_nil, or_false] at hkind
    rcases hkind with hkind | hkind | hkind | hkind | hkind | hkind <;> simp only [hkind]
    · exact hlater (alike_forStatement hstatement hle hle')
    · exact hlater (alike_ifStatement hstatement hle hle')
    · exact hlater (alike_endingIn hle hle' (fun _ => id) _)
    · exact hlater (alike_returnStatement hle hle' token)
    · exact hlater (alike_whileStatement hstatement hle hle')
    · apply Steady.map
      apply (steady_blockBody hdeclaration (by omega) (by omega) hrest).imp
      rintro body rest' _ ⟨hshorter, hbody⟩
      exact ⟨Nat.lt_succ_of_lt hshorter, hbody⟩

theorem alike_anyDeclaration :
    Alike (k + 1) Stmt.Fresh (anyDeclaration n statement declaration)
      (anyDeclaration m statement' declaration') := by
  intro ts hlength
  apply Steady.accept
  · exact alike_anyStatement hstatement hdeclaration hn hm ts hlength
  · intro token rest hts hkind
    subst hts
    have hrest : rest.length < k := Nat.lt_of_succ_lt_succ hlength
    have hle : k ≤ n := Nat.le_of_lt hn
    have hle' : k ≤ m := Nat.le_of_lt hm
    simp only [List.mem_cons, List.not_mem_nil, or_false] at hkind
    rcases hkind with hkind | hkind | hkind <;> simp only [hkind]
    · apply (alike_classDeclaration hdeclaration hn hm rest hrest).imp
      rintro s rest' _ ⟨hshorter, hs⟩
      exact ⟨Nat.lt_succ_of_lt hshorter, hs⟩
    · apply Steady.map
      apply (steady_function hdeclaration "function" (by omega) (by omega) (by omega)).imp
      rintro f rest' _ ⟨hshorter, hf⟩
      exact ⟨Nat.lt_succ_of_lt hshorter, hf⟩
    · apply (alike_varDeclaration hle hle' rest hrest).imp
      rintro s rest' _ ⟨hshorter, hs⟩
      exact ⟨Nat.lt_succ_of_lt hshorter, hs⟩

end

/-- Watched and not watched, with any bounds that suffice, the parsers are alike. -/
theorem alike_watched (alarm : Parsed (Option Stmt)) (k : Nat) :
    ∀ n m : Nat, k ≤ n → k ≤ m →
      Alike k Stmt.Fresh (watchedStatement alarm n) (statement m) ∧
        AlikeDeclaration k (watchedDeclaration alarm n) (declaration m) := by
  induction k with
  | zero =>
      intro n m _ _
      constructor
      · intro ts hlength
        exact absurd hlength (Nat.not_lt_zero _)
      · intro ts _ hlength
        exact absurd hlength (Nat.not_lt_zero _)
  | succ k ih =>
      intro n m hn hm
      cases n with
      | zero => exact absurd hn (Nat.not_succ_le_zero _)
      | succ n =>
          cases m with
          | zero => exact absurd hm (Nat.not_succ_le_zero _)
          | succ m =>
              rcases ih n m (Nat.le_of_succ_le_succ hn) (Nat.le_of_succ_le_succ hm) with
                ⟨hstatement, hdeclaration⟩
              constructor
              · exact alike_anyStatement hstatement hdeclaration hn hm
              · have hany := alike_anyDeclaration hstatement hdeclaration hn hm
                exact (alikeDeclaration_recovering hany).watch alarm

theorem program_result {k : Nat} {declaration declaration' : Parser (Option Stmt)}
    (hdeclaration : AlikeDeclaration k declaration declaration') (n : Nat) :
    ∀ (m : Nat) (ts : List Token), ts.length < n → ts.length < m → ts.length < k →
      ∃ reports trees, program declaration n ts = ⟨reports, some trees, []⟩ ∧
        program declaration' m ts = ⟨reports, some trees, []⟩ ∧ Stmt.AllFresh trees := by
  induction n with
  | zero =>
      intro _ ts hn
      exact absurd hn (Nat.not_lt_zero _)
  | succ n ih =>
      intro m ts hn hm hk
      cases m with
      | zero => exact absurd hm (Nat.not_lt_zero _)
      | succ m =>
          cases ts with
          | nil => exact ⟨[], [], rfl, rfl, trivial⟩
          | cons token ts =>
              rcases hdeclaration (token :: ts) (List.cons_ne_nil _ _) hk with
                ⟨hsame, hproceeds, hfresh⟩
              rcases exists_of_proceeds hproceeds with
                ⟨reports, first, rest, hfirst, _, hshorter⟩
              rcases ih m rest (by omega) (by omega) (by omega) with
                ⟨reports', trees, hleft, hright, htrees⟩
              rw [hfirst] at hsame hfresh
              refine ⟨reports ++ reports', first.toList ++ trees, ?_, ?_, ?_⟩
              · rw [program, bind_of_result (peek_result _)]
                simp only [List.head?_cons, Option.map_some]
                rw [bind_of_some hfirst, bind_of_some hleft]
                simp [ok]
              · rw [program, bind_of_result (peek_result _)]
                simp only [List.head?_cons, Option.map_some]
                rw [bind_of_some hsame.symm, bind_of_some hright]
                simp [ok]
              · cases first with
                | none => exact htrees
                | some s => exact ⟨hfresh s rfl, htrees⟩

theorem proceeds_declaration {n : Nat} {ts : List Token} (hne : ts ≠ []) (hlength : ts.length < n) :
    proceeds ts (declaration n ts) = true := by
  rcases (alike_watched ⟨[], none, []⟩ n n n (Nat.le_refl n) (Nat.le_refl n)).2 ts hne hlength with
    ⟨hsame, hproceeds, _⟩
  rw [← hsame]
  exact hproceeds

end Parser

/-- A single expression takes up all tokens, or something is reported. -/
theorem settles_parseExpression (tokens : List Token) :
    Parser.Settles tokens (fun _ rest => rest = []) (parseExpression tokens) := by
  have hinner := Parser.alike_expression (tokens.length + 1) _ _ (Nat.le_refl _) (Nat.le_refl _)
    tokens (Nat.lt_succ_self _)
  apply hinner.2.bind
  intro inner rest _ _
  rw [Parser.bind_of_result (Parser.peek_result rest)]
  cases rest with
  | nil => exact .result (List.suffix_refl _) rfl
  | cons token rest => exact .failure (List.suffix_refl _) (List.cons_ne_nil _ _)

theorem program_watched {tokens : List Token} {n : Nat} (alarm : Parsed (Option Stmt))
    (hlength : tokens.length < n) :
    ∃ reports program,
      Parser.program (Parser.watchedDeclaration alarm n) n tokens = ⟨reports, some program, []⟩ ∧
        parse tokens = ⟨reports, some program, []⟩ ∧ Stmt.AllFresh program := by
  have halike := Parser.alike_watched alarm (tokens.length + 1) n (tokens.length + 1) hlength
    (Nat.le_refl _)
  exact Parser.program_result halike.2 n (tokens.length + 1) tokens hlength
    (Nat.lt_succ_self _) (Nat.lt_succ_self _)

theorem parse_fresh (tokens : List Token) :
    ∃ program, (parse tokens).result = some program ∧ (parse tokens).rest = [] ∧
      Stmt.AllFresh program := by
  rcases program_watched ⟨[], none, []⟩ (Nat.lt_succ_self tokens.length) with
    ⟨reports, program, _, hparse, hfresh⟩
  rw [hparse]
  exact ⟨program, rfl, rfl, hfresh⟩

/--
The parser copes with every list of tokens.  A program is read to the end, and
no statement of the result is missing.  Every call of the parser of declarations
moves on, and watching all of them, with any bound that exceeds the number of
tokens, gives the same whatever the alarm is.  An expression is missing only if
something has been reported.
-/
theorem parse_total (tokens : List Token) :
    (∃ program, (parse tokens).result = some program ∧ (parse tokens).rest = [] ∧
      Stmt.AllFresh program) ∧
    (∀ n ts, ts ≠ [] → ts.length < n → Parser.proceeds ts (Parser.declaration n ts) = true) ∧
    (∀ n alarm, tokens.length < n →
      Parser.program (Parser.watchedDeclaration alarm n) n tokens = parse tokens) ∧
    (∀ n, tokens.length < n →
      Parser.expression n tokens = Parser.expression (tokens.length + 1) tokens) ∧
    ((parseExpression tokens).result = none → (parseExpression tokens).reports ≠ []) := by
  refine ⟨?_, ?_, ?_, ?_, ?_⟩
  · exact parse_fresh tokens
  · intro n ts hne hlength
    exact Parser.proceeds_declaration hne hlength
  · intro n alarm hlength
    rcases program_watched alarm hlength with ⟨reports, program, hprogram, hparse, _⟩
    exact hprogram.trans hparse.symm
  · intro n hlength
    exact (Parser.alike_expression (tokens.length + 1) n _ hlength (Nat.le_refl _) tokens
      (Nat.lt_succ_self _)).1
  · intro hnone
    have hsettles := settles_parseExpression tokens
    generalize parseExpression tokens = parsed at hsettles hnone
    cases hsettles with
    | result _ _ => cases hnone
    | failure _ hreports => exact hreports

end Lox
