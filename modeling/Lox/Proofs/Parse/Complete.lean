import Lox.Proofs.Parse.Sound

/-!
# The parser finds every greedy derivation

If a list of tokens starts with a greedy derivation of an expression, and the
next token does not go on with it, then the parser of its level reads exactly
that derivation and reports nothing.

A chain is derived from the left, but its parser reads the first operand and
then goes on from operator to operator.  So for the levels that are read in a
loop a second statement is carried along: after reading the chain the parser is
back in its loop, with the tree so far.
-/

namespace Lox

open Grammar

namespace Grammar.Level

def isLoop : Level → Bool
  | .primary | .unary | .ternary | .assignment => false
  | _ => true

end Grammar.Level

namespace Parser

def levelParser (n : Nat) (expression : Parser Expr) : Level → Parser Expr
  | .primary => primary expression
  | .call => call n expression
  | .unary => unary (call n expression) n
  | .factor => factor n expression
  | .term => term n expression
  | .comparison => comparison n expression
  | .equality => equality n expression
  | .ternary => ternary n expression
  | .logicAnd => logicAnd n expression
  | .logicOr => logicOr n expression
  | .assignment => assignment n expression

def resume (n : Nat) (level : Level) (bound : Nat) (tree : Expr) : Parser Expr :=
  match level, level.below with
  | .call, _ => suffixes (expression n) bound tree
  | level, some tighter =>
      chainRest (levelParser (n + 1) (expression n) tighter) level.operators level.node bound tree
  | _, none => ok tree

theorem levelParser_of_loop {level tighter : Level} (hbelow : level.below = some tighter)
    (hloop : level.isLoop = true) (n : Nat) :
    levelParser (n + 1) (expression n) level =
      levelParser (n + 1) (expression n) tighter >>= resume n level (n + 1) := by
  cases level <;> cases hbelow <;> first | rfl | cases hloop

structure Completes (level : Level) (tree : Expr) (ts : List Token) : Prop where
  derives : Derives true (.expr level tree) ts
  whole : ∀ (n : Nat) (rest : List Token), (ts ++ rest).length ≤ n → Stops level tree rest →
    levelParser (n + 1) (expression n) level (ts ++ rest) = ⟨[], some tree, rest⟩
  loop : level.isLoop = true → ∀ (n : Nat) (rest : List Token), (ts ++ rest).length ≤ n →
    (∀ tighter, level.below = some tighter → Stops tighter tree rest) →
    ∃ bound, rest.length < bound ∧
      levelParser (n + 1) (expression n) level (ts ++ rest) = resume n level bound tree rest

theorem Completes.expression {tree : Expr} {ts : List Token}
    (htree : Completes .assignment tree ts) {n : Nat} {rest : List Token}
    (hlength : (ts ++ rest).length < n) (hstops : Stops .assignment tree rest) :
    Parser.expression n (ts ++ rest) = ⟨[], some tree, rest⟩ := by
  cases n with
  | zero => exact absurd hlength (Nat.not_lt_zero _)
  | succ n => exact htree.whole n rest (Nat.le_of_lt_succ hlength) hstops

/-!
# Items between commas
-/

section

variable {n : Nat} {p : Parser α} {item : α → List Token → Prop}

/-- A parser that finds items in front of a comma or a closing parenthesis. -/
def FindsItem (n : Nat) (p : Parser α) (item : α → List Token → Prop) : Prop :=
  ∀ {tree : α} {us rest : List Token} {next : Token}, item tree us →
    next.kind = .comma ∨ next.kind = .rightParen → (us ++ next :: rest).length < n →
    p (us ++ next :: rest) = ⟨[], some tree, next :: rest⟩

theorem moreItems_of_paren {bound count : Nat} {what : String} {right : Token}
    {rest : List Token} (hright : right.kind = .rightParen) (hbound : 0 < bound) :
    moreItems p what bound count (right :: rest) = ⟨[], some [], right :: rest⟩ := by
  cases bound with
  | zero => cases hbound
  | succ bound =>
      have hnext : accept [.comma] (right :: rest) = ⟨[], some none, right :: rest⟩ :=
        accept_of_not_mem (by simp [hright])
      unfold moreItems
      rw [bind_of_result hnext]
      rfl

theorem moreItems_of_comma {bound count : Nat} {what : String} {comma : Token}
    {ts : List Token} (hcomma : comma.kind = .comma) (hcount : count < maxArguments) :
    moreItems p what (bound + 1) count (comma :: ts) =
      (do
        let first ← p
        let rest ← moreItems p what bound (count + 1)
        ok (first :: rest) : Parser (List α)) ts := by
  rw [moreItems, bind_of_result (accept_of_mem ts (by simp [hcomma]))]
  simp only [if_neg (Nat.not_le_of_lt hcount)]

theorem items_of_paren {bound : Nat} {what : String} {right : Token} {rest : List Token}
    (hright : right.kind = .rightParen) :
    items p what bound (right :: rest) = ⟨[], some [], right :: rest⟩ := by
  rw [items, bind_of_result (peek_result _)]
  simp only [List.head?_cons, Option.map_some, hright, if_true]
  rfl

theorem items_of_item {bound : Nat} {what : String} {token : Token} {ts : List Token}
    (htoken : token.kind ≠ .rightParen) :
    items p what bound (token :: ts) =
      (do
        let first ← p
        let rest ← moreItems p what bound 1
        ok (first :: rest) : Parser (List α)) (token :: ts) := by
  have hne : ¬ some token.kind = some .rightParen := by simpa using htoken
  rw [items, bind_of_result (peek_result _), List.head?_cons, Option.map_some, if_neg hne]

theorem items_complete (hp : FindsItem n p item) (what : String) {trees : List α}
    {ts : List Token} (hitems : Separated item trees ts) :
    ∀ (bound count : Nat) (right : Token) (rest : List Token), right.kind = .rightParen →
      (ts ++ right :: rest).length < n → (ts ++ right :: rest).length ≤ bound →
      count + trees.length ≤ maxArguments + 1 →
      (do
        let first ← p
        let rest ← moreItems p what bound count
        ok (first :: rest) : Parser (List α)) (ts ++ right :: rest) =
        ⟨[], some trees, right :: rest⟩ := by
  induction hitems with
  | last htree =>
      intro bound count right rest hright hlength hbound _
      have hpos : 0 < bound := by
        simp only [List.length_append, List.length_cons] at hbound
        omega
      rw [bind_of_result (hp htree (Or.inr hright) hlength),
        bind_of_result (moreItems_of_paren hright hpos)]
      rfl
  | @more comma tree trees ts us hcomma htree htrees ih =>
      intro bound count right rest hright hlength hbound hcount
      have hpos := separated_length_pos htrees
      have happend : ts ++ comma :: us ++ right :: rest = ts ++ comma :: (us ++ right :: rest) := by
        simp
      rw [happend] at hlength hbound ⊢
      rw [bind_of_result (hp htree (Or.inl hcomma) hlength)]
      simp only [List.length_append, List.length_cons] at hlength hbound hcount ih
      cases bound with
      | zero => omega
      | succ bound =>
          have hfound := ih bound (count + 1) right rest hright (by omega) (by omega) (by omega)
          have hmore : moreItems p what (bound + 1) count (comma :: (us ++ right :: rest)) =
              ⟨[], some trees, right :: rest⟩ := by
            rw [moreItems_of_comma hcomma (by omega)]
            exact hfound
          rw [bind_of_result hmore]
          rfl

end

/-!
# Loops
-/

theorem not_mem_continuers {level : Level} {tree : Expr} {rest : List Token}
    (hstops : Stops level tree rest) {token : Token} (htoken : token ∈ rest.head?) :
    token.kind ∉ level.continuers := by
  intro hmem
  have hrank : token.kind.continuesAt = level.rank := Level.continuesAt_of_mem_continuers hmem
  exact absurd (rank_le_reach level tree) (Nat.not_le_of_lt (hrank ▸ hstops token htoken))

theorem resume_of_stops {level : Level} (hloop : level.isLoop = true) {tree : Expr}
    {rest : List Token} (hstops : Stops level tree rest) {n bound : Nat} (hbound : 0 < bound) :
    resume n level bound tree rest = ⟨[], some tree, rest⟩ := by
  have hnext : ∀ token ∈ rest.head?, token.kind ∉ level.continuers :=
    fun _ htoken => not_mem_continuers hstops htoken
  cases bound with
  | zero => cases hbound
  | succ bound =>
      cases level <;> first | exact bind_of_result (accept_of_not_mem hnext) | cases hloop

theorem resume_chain {level tighter : Level} (hbelow : level.below = some tighter)
    {operator : Token} (hoperator : operator.kind ∈ level.operators) {right : Expr}
    {n bound : Nat} {left : Expr} {ts rest : List Token}
    (hright : levelParser (n + 1) (expression n) tighter ts = ⟨[], some right, rest⟩) :
    resume n level (bound + 1) left (operator :: ts) =
      resume n level bound (level.node left operator right) rest := by
  have haccept := accept_of_mem ts hoperator
  cases level <;> cases hbelow <;> first
    | exact (bind_of_result haccept).trans (bind_of_result hright)
    | cases hoperator

/-- What is found in a loop is found as a whole when nothing goes on with it. -/
theorem Completes.of_loop {level : Level} (hloop : level.isLoop = true) {tree : Expr}
    {ts : List Token} (hderives : Derives true (.expr level tree) ts)
    (hfound : ∀ (n : Nat) (rest : List Token), (ts ++ rest).length ≤ n →
      (∀ tighter, level.below = some tighter → Stops tighter tree rest) →
      ∃ bound, rest.length < bound ∧
        levelParser (n + 1) (Parser.expression n) level (ts ++ rest) =
          resume n level bound tree rest) : Completes level tree ts where
  derives := hderives
  loop := fun _ => hfound
  whole := by
    intro n rest hlength hstops
    rcases hfound n rest hlength (fun tighter hbelow => hstops.tighter hbelow) with
      ⟨bound, hbound, heq⟩
    rw [heq]
    exact resume_of_stops hloop hstops (Nat.zero_lt_of_lt hbound)

/-!
# Looser levels
-/

theorem Completes.lift_loop {level tighter : Level} (hbelow : level.below = some tighter)
    (hloop : level.isLoop = true) {tree : Expr} {ts : List Token}
    (htree : Completes tighter tree ts) : Completes level tree ts := by
  refine Completes.of_loop hloop (.lift hbelow htree.derives) ?_
  intro n rest hlength hstops
  refine ⟨n + 1, ?_, ?_⟩
  · simp only [List.length_append] at hlength
    omega
  · rw [levelParser_of_loop hbelow hloop]
    exact bind_of_result (htree.whole n rest hlength (hstops tighter hbelow))

theorem Completes.lift_unary {tree : Expr} {ts : List Token} (htree : Completes .call tree ts) :
    Completes .unary tree ts where
  derives := .lift rfl htree.derives
  loop := fun hloop => by cases hloop
  whole := by
    intro n rest hlength hstops
    rcases derives_head_call htree.derives rfl (Nat.le_refl _) with ⟨token, us, rfl, hbang, hminus⟩
    have hnext : accept [.bang, .minus] (token :: us ++ rest) =
        ⟨[], some none, token :: us ++ rest⟩ := accept_of_not_mem (by simp [hbang, hminus])
    exact (bind_of_result hnext).trans (htree.whole n rest hlength (hstops.tighter rfl))

theorem Completes.lift_ternary {tree : Expr} {ts : List Token}
    (htree : Completes .equality tree ts) : Completes .ternary tree ts where
  derives := .lift rfl htree.derives
  loop := fun hloop => by cases hloop
  whole := by
    intro n rest hlength hstops
    have hnext : accept [.question] rest = ⟨[], some none, rest⟩ :=
      accept_of_not_mem fun token htoken => not_mem_continuers hstops htoken
    exact (bind_of_result (htree.whole n rest hlength (hstops.tighter rfl))).trans
      (bind_of_result hnext)

theorem Completes.lift_assignment {tree : Expr} {ts : List Token}
    (htree : Completes .logicOr tree ts) : Completes .assignment tree ts where
  derives := .lift rfl htree.derives
  loop := fun hloop => by cases hloop
  whole := by
    intro n rest hlength hstops
    have hnext : accept [.equal] rest = ⟨[], some none, rest⟩ :=
      accept_of_not_mem fun token htoken => not_mem_continuers hstops htoken
    exact (bind_of_result (htree.whole n rest hlength (hstops.tighter rfl))).trans
      (bind_of_result hnext)

theorem Completes.lift {level tighter : Level} (hbelow : level.below = some tighter)
    {tree : Expr} {ts : List Token} (htree : Completes tighter tree ts) :
    Completes level tree ts := by
  cases hloop : level.isLoop with
  | true => exact htree.lift_loop hbelow hloop
  | false =>
      cases level <;> cases hbelow <;> first
        | exact htree.lift_unary
        | exact htree.lift_ternary
        | exact htree.lift_assignment
        | cases hloop

theorem Completes.logicOr {tree : Expr} {ts : List Token} (htree : Completes .call tree ts) :
    Completes .logicOr tree ts := by
  have hunary : Completes .unary tree ts := htree.lift rfl
  have hfactor : Completes .factor tree ts := hunary.lift rfl
  have hterm : Completes .term tree ts := hfactor.lift rfl
  have hcomparison : Completes .comparison tree ts := hterm.lift rfl
  have hequality : Completes .equality tree ts := hcomparison.lift rfl
  have hternary : Completes .ternary tree ts := hequality.lift rfl
  have hand : Completes .logicAnd tree ts := hternary.lift rfl
  exact hand.lift rfl

/-!
# Primary expressions
-/

theorem Completes.of_primary {tree : Expr} {ts : List Token}
    (hderives : Derives true (.expr .primary tree) ts)
    (hfound : ∀ (n : Nat) (rest : List Token), (ts ++ rest).length ≤ n →
      primary (Parser.expression n) (ts ++ rest) = ⟨[], some tree, rest⟩) :
    Completes .primary tree ts where
  derives := hderives
  loop := fun hloop => by cases hloop
  whole := fun n rest hlength _ => hfound n rest hlength

theorem completes_constant {token : Token} {value : Literal}
    (hvalue : token.constant? = some value) : Completes .primary (.literal value) [token] :=
  .of_primary (.constant hvalue) fun _ rest _ => primary_constant _ rest hvalue

theorem completes_this {keyword : Token} (hkeyword : keyword.kind = .kwThis) :
    Completes .primary (.thisRef ⟨keyword, 0⟩) [keyword] :=
  .of_primary (.this hkeyword) fun _ rest _ => primary_this _ rest hkeyword

theorem completes_name {name : Token} (hname : name.kind = .identifier) :
    Completes .primary (.var ⟨name, 0⟩) [name] :=
  .of_primary (.name hname) fun _ rest _ => primary_name _ rest hname

theorem completes_super {keyword dot method : Token} (hkeyword : keyword.kind = .kwSuper)
    (hdot : dot.kind = .dot) (hmethod : method.kind = .identifier) :
    Completes .primary (.superRef ⟨keyword, 0⟩ method) [keyword, dot, method] := by
  refine .of_primary (.super hkeyword hdot hmethod) fun n rest _ => ?_
  refine (primary_super _ _ hkeyword).trans ?_
  exact (bind_of_result (expect_of_kind _ _ hdot)).trans
    (bind_of_result (expect_of_kind _ _ hmethod))

theorem stops_of_rightParen {right : Token} (hright : right.kind = .rightParen)
    (rest : List Token) (level : Level) (tree : Expr) : Stops level tree (right :: rest) := by
  apply stops_assignment
  intro token htoken
  cases htoken
  rw [hright]
  decide

theorem completes_grouping {left right : Token} {inner : Expr} {ts : List Token}
    (hleft : left.kind = .leftParen) (hright : right.kind = .rightParen)
    (hinner : Completes .assignment inner ts) :
    Completes .primary (.grouping inner) (left :: ts ++ [right]) := by
  refine .of_primary (.grouping hleft hright hinner.derives) fun n rest hlength => ?_
  have happend : left :: ts ++ [right] ++ rest = left :: (ts ++ right :: rest) := by simp
  rw [happend] at hlength ⊢
  refine (primary_paren _ _ hleft).trans ?_
  have hfound : Parser.expression n (ts ++ right :: rest) = ⟨[], some inner, right :: rest⟩ :=
    hinner.expression hlength (stops_of_rightParen hright rest _ _)
  exact (bind_of_result hfound).trans (bind_of_result (expect_of_kind _ _ hright))

/-!
# Calls
-/

theorem suffixes_of_paren {n bound : Nat} {inner : Expr} {left : Token}
    (hleft : left.kind = .leftParen) (ts : List Token) :
    suffixes (expression n) (bound + 1) inner (left :: ts) =
      (do
        let arguments ← items (expression n) "arguments" bound
        let paren ← expect .rightParen "')' after arguments"
        suffixes (expression n) bound (.call inner paren arguments) : Parser Expr) ts := by
  rw [suffixes, bind_of_result (accept_of_mem ts (by simp [hleft]))]
  simp only [hleft, if_true]

theorem suffixes_of_dot {n bound : Nat} {inner : Expr} {dot name : Token}
    (hdot : dot.kind = .dot) (hname : name.kind = .identifier) (ts : List Token) :
    suffixes (expression n) (bound + 1) inner (dot :: name :: ts) =
      suffixes (expression n) bound (.get inner name) ts := by
  rw [suffixes, bind_of_result (accept_of_mem (name :: ts) (by simp [hdot]))]
  simp only [hdot, reduceCtorEq, if_false]
  exact bind_of_result (expect_of_kind _ _ hname)

theorem Completes.suffix {callee tree : Expr} {ts us : List Token}
    (hcallee : Completes .call callee ts)
    (hderives : Derives true (.expr .call tree) (ts ++ us))
    (hsuffix : ∀ (n bound : Nat) (rest : List Token), (us ++ rest).length < n →
      (us ++ rest).length ≤ bound →
      suffixes (Parser.expression n) (bound + 1) callee (us ++ rest) =
        suffixes (Parser.expression n) bound tree rest)
    (hne : us ≠ []) : Completes .call tree (ts ++ us) := by
  refine Completes.of_loop rfl hderives ?_
  intro n rest hlength _
  have hclosed := derives_closed hcallee.derives rfl (by decide)
  have hpos := derives_length_pos hcallee.derives
  have hpos' := List.length_pos_iff.mpr hne
  rw [List.append_assoc] at hlength ⊢
  rcases hcallee.loop rfl n (us ++ rest) hlength (by
    intro tighter hbelow
    cases hbelow
    exact stops_primary hclosed _) with ⟨bound, hbound, heq⟩
  rw [heq]
  simp only [List.length_append] at hlength hbound
  cases bound with
  | zero => exact absurd hbound (Nat.not_lt_zero _)
  | succ bound =>
      refine ⟨bound, by omega, ?_⟩
      apply hsuffix n bound rest <;>
        · simp only [List.length_append]
          omega

theorem completes_emptyCall {left right : Token} {callee : Expr} {ts : List Token}
    (hleft : left.kind = .leftParen) (hright : right.kind = .rightParen)
    (hcallee : Completes .call callee ts) :
    Completes .call (.call callee right []) (ts ++ [left, right]) := by
  refine hcallee.suffix (.emptyCall hleft hright hcallee.derives) ?_ (List.cons_ne_nil _ _)
  intro n bound rest _ _
  exact (suffixes_of_paren hleft _).trans ((bind_of_result (items_of_paren hright)).trans
    (bind_of_result (expect_of_kind _ _ hright)))

theorem findsItem_expression (n : Nat) :
    FindsItem n (expression n) (Completes .assignment) := by
  intro tree us rest next htree hnext hlength
  refine htree.expression hlength (stops_assignment ?_ _ _)
  intro token htoken
  cases htoken
  rcases hnext with hnext | hnext <;> rw [hnext] <;> decide

theorem completes_call {left right : Token} {callee : Expr} {arguments : List Expr}
    {ts us : List Token} (hleft : left.kind = .leftParen) (hright : right.kind = .rightParen)
    (hcount : arguments.length ≤ maxArguments) (hcallee : Completes .call callee ts)
    (harguments : Separated (Completes .assignment) arguments us)
    (hderives : Derives true (.arguments arguments) us) :
    Completes .call (.call callee right arguments) (ts ++ left :: us ++ [right]) := by
  have hcall := Derives.call hleft hright hcount hcallee.derives hderives
  rw [List.append_assoc] at hcall ⊢
  refine hcallee.suffix hcall ?_ (List.cons_ne_nil _ _)
  intro n bound rest hlength hbound
  have happend : left :: us ++ [right] ++ rest = left :: (us ++ right :: rest) := by simp
  rw [happend] at hlength hbound ⊢
  simp only [List.length_cons] at hlength hbound
  have hitems : items (expression n) "arguments" bound (us ++ right :: rest) =
      ⟨[], some arguments, right :: rest⟩ := by
    rcases derives_head hderives with ⟨token, us', rfl, htoken⟩
    have hne : token.kind ≠ .rightParen := by
      intro hkind
      rw [hkind] at htoken
      cases htoken
    refine (items_of_item hne).trans ?_
    exact items_complete (findsItem_expression n) _ harguments bound 1 right rest hright
      (by omega) (by omega) (by omega)
  exact (suffixes_of_paren hleft _).trans ((bind_of_result hitems).trans
    (bind_of_result (expect_of_kind _ _ hright)))

theorem completes_property {dot name : Token} {object : Expr} {ts : List Token}
    (hdot : dot.kind = .dot) (hname : name.kind = .identifier)
    (hobject : Completes .call object ts) :
    Completes .call (.get object name) (ts ++ [dot, name]) := by
  refine hobject.suffix (.property hdot hname hobject.derives) ?_ (List.cons_ne_nil _ _)
  intro n bound rest _ _
  exact suffixes_of_dot hdot hname rest

/-!
# Operators, conditionals and assignments
-/

/-- The bound on prefix operators does not matter if it exceeds the number of tokens. -/
theorem unary_bound_irrelevant (operand : Parser Expr) (bound : Nat) :
    ∀ (bound' : Nat) (ts : List Token), ts.length < bound → ts.length < bound' →
      unary operand bound ts = unary operand bound' ts := by
  induction bound with
  | zero =>
      intro _ ts hbound
      exact absurd hbound (Nat.not_lt_zero _)
  | succ bound ih =>
      intro bound' ts hbound hbound'
      cases bound' with
      | zero => exact absurd hbound' (Nat.not_lt_zero _)
      | succ bound' =>
          rcases head_cases [.bang, .minus] ts with hnext | ⟨token, rest, rfl, hmem⟩
          · rw [unary, unary, bind_of_result (accept_of_not_mem hnext),
              bind_of_result (accept_of_not_mem hnext)]
          · have hih := ih bound' rest (Nat.lt_of_succ_lt_succ hbound)
              (Nat.lt_of_succ_lt_succ hbound')
            rw [unary, unary, bind_of_result (accept_of_mem rest hmem),
              bind_of_result (accept_of_mem rest hmem)]
            show andThen _ _ rest = andThen _ _ rest
            simp only [andThen, hih]

theorem completes_unary {operator : Token} {operand : Expr} {ts : List Token}
    (hoperator : operator.kind = .bang ∨ operator.kind = .minus)
    (hoperand : Completes .unary operand ts) :
    Completes .unary (.unary operator operand) (operator :: ts) where
  derives := .unary hoperator hoperand.derives
  loop := fun hloop => by cases hloop
  whole := by
    intro n rest hlength hstops
    simp only [List.cons_append, List.length_cons] at hlength
    have hclosed := derives_closed hoperand.derives rfl (by decide)
    have hstops' : Stops .unary operand rest := by
      simpa [Stops, reach, hclosed, Expr.endsInConditional] using hstops
    have hfound := hoperand.whole n rest (by omega) hstops'
    have hbound := unary_bound_irrelevant (call (n + 1) (expression n)) (n + 1) n (ts ++ rest)
      (by omega) (by omega)
    have haccept := accept_of_mem (ts ++ rest)
      (show operator.kind ∈ [.bang, .minus] by simpa using hoperator)
    exact (bind_of_result haccept).trans (bind_of_result (hbound.symm.trans hfound))

theorem completes_chain {level tighter : Level} {operator : Token} {left right : Expr}
    {ts us : List Token} (hbelow : level.below = some tighter)
    (hoperator : operator.kind ∈ level.operators) (hclosed : left.endsInConditional = false)
    (hleft : Completes level left ts) (hright : Completes tighter right us) :
    Completes level (level.node left operator right) (ts ++ operator :: us) := by
  have hloop : level.isLoop = true := by
    cases level <;> first | rfl | cases hoperator
  refine .of_loop hloop (.chain hbelow hoperator (fun _ => hclosed) hleft.derives hright.derives) ?_
  intro n rest hlength hstops
  have happend : ts ++ operator :: us ++ rest = ts ++ operator :: (us ++ rest) := by simp
  rw [happend] at hlength ⊢
  have hstopsLeft : ∀ below, level.below = some below →
      Stops below left (operator :: (us ++ rest)) := by
    intro below hbelow' token htoken
    cases htoken
    rw [Level.continuesAt_of_mem_continuers (Level.mem_continuers_of_operators hoperator),
      Level.rank_of_below hbelow']
    simp [reach, hclosed]
  rcases hleft.loop hloop n (operator :: (us ++ rest)) hlength hstopsLeft with
    ⟨bound, hbound, heq⟩
  rw [heq]
  simp only [List.length_append, List.length_cons] at hlength hbound
  cases bound with
  | zero => exact absurd hbound (Nat.not_lt_zero _)
  | succ bound =>
      have hstopsRight : Stops tighter right rest := by
        have hnode := hstops tighter hbelow
        rwa [Stops, reach_node hbelow hoperator hright.derives] at hnode
      refine ⟨bound, by omega, resume_chain hbelow hoperator ?_⟩
      refine hright.whole n rest ?_ hstopsRight
      simp only [List.length_append]
      omega

theorem completes_conditional {question colon : Token} {condition thenBranch elseBranch : Expr}
    {ts us vs : List Token} (hquestion : question.kind = .question) (hcolon : colon.kind = .colon)
    (hcondition : Completes .equality condition ts)
    (hthen : Completes .assignment thenBranch us)
    (helse : Completes .assignment elseBranch vs) :
    Completes .ternary (.conditional condition thenBranch elseBranch)
      (ts ++ question :: us ++ colon :: vs) where
  derives := .conditional hquestion hcolon hcondition.derives hthen.derives helse.derives
  loop := fun hloop => by cases hloop
  whole := by
    intro n rest hlength hstops
    have happend : ts ++ question :: us ++ colon :: vs ++ rest =
        ts ++ question :: (us ++ colon :: (vs ++ rest)) := by simp
    rw [happend] at hlength ⊢
    have hclosed := derives_closed hcondition.derives rfl (by decide)
    have hstopsCondition : Stops .equality condition
        (question :: (us ++ colon :: (vs ++ rest))) := by
      intro token htoken
      cases htoken
      rw [hquestion]
      simp [reach, hclosed, TokenKind.continuesAt, Level.rank]
    have hstopsThen : Stops .assignment thenBranch (colon :: (vs ++ rest)) := by
      apply stops_assignment
      intro token htoken
      cases htoken
      rw [hcolon]
      decide
    have hstopsElse : Stops .assignment elseBranch rest := by
      simpa [Stops, reach, Expr.endsInConditional] using hstops
    have hfoundCondition := hcondition.whole n _ hlength hstopsCondition
    simp only [List.length_append, List.length_cons] at hlength
    have hfoundThen : expression n (us ++ colon :: (vs ++ rest)) =
        ⟨[], some thenBranch, colon :: (vs ++ rest)⟩ := by
      refine hthen.expression ?_ hstopsThen
      simp only [List.length_append, List.length_cons]
      omega
    have hfoundElse : expression n (vs ++ rest) = ⟨[], some elseBranch, rest⟩ := by
      refine helse.expression ?_ hstopsElse
      simp only [List.length_append]
      omega
    have haccept := accept_of_mem (us ++ colon :: (vs ++ rest))
      (show question.kind ∈ [.question] by simp [hquestion])
    calc levelParser (n + 1) (expression n) .ternary
          (ts ++ question :: (us ++ colon :: (vs ++ rest)))
        = _ := bind_of_result hfoundCondition
      _ = _ := bind_of_result haccept
      _ = _ := bind_of_result hfoundThen
      _ = _ := bind_of_result (expect_of_kind _ _ hcolon)
      _ = _ := bind_of_result hfoundElse

/-- The target of an assignment is found first, and turned into the assignment afterwards. -/
theorem Completes.assigned {target value tree : Expr} {equals : Token} {ts us : List Token}
    (hequals : equals.kind = .equal) (htarget : Completes .call target ts)
    (hvalue : Completes .assignment value us)
    (hderives : Derives true (.expr .assignment tree) (ts ++ equals :: us))
    (htree : ∀ rest, assigned equals target value rest = ⟨[], some tree, rest⟩) :
    Completes .assignment tree (ts ++ equals :: us) where
  derives := hderives
  loop := fun hloop => by cases hloop
  whole := by
    intro n rest hlength hstops
    have happend : ts ++ equals :: us ++ rest = ts ++ equals :: (us ++ rest) := by simp
    rw [happend] at hlength ⊢
    have hclosed := derives_closed htarget.derives rfl (by decide)
    have hstopsTarget : Stops .logicOr target (equals :: (us ++ rest)) := by
      intro token htoken
      cases htoken
      rw [hequals]
      simp [reach, hclosed, TokenKind.continuesAt, Level.rank]
    have hfoundTarget := htarget.logicOr.whole n _ hlength hstopsTarget
    simp only [List.length_append, List.length_cons] at hlength
    have hfoundValue : Parser.expression n (us ++ rest) = ⟨[], some value, rest⟩ := by
      refine hvalue.expression ?_ (stops_assignment_iff.mp hstops)
      simp only [List.length_append]
      omega
    have haccept := accept_of_mem (us ++ rest)
      (show equals.kind ∈ [.equal] by simp [hequals])
    calc levelParser (n + 1) (Parser.expression n) .assignment (ts ++ equals :: (us ++ rest))
        = _ := bind_of_result hfoundTarget
      _ = _ := bind_of_result haccept
      _ = _ := bind_of_result hfoundValue
      _ = _ := htree rest

def Found : Phrase → List Token → Prop
  | .expr level tree, ts => Completes level tree ts
  | .arguments trees, ts => Separated (Completes .assignment) trees ts

theorem found_of_derives {phrase : Phrase} {ts : List Token}
    (hderives : Derives true phrase ts) : Found phrase ts := by
  induction hderives with
  | constant hvalue => exact completes_constant hvalue
  | this hkeyword => exact completes_this hkeyword
  | super hkeyword hdot hmethod => exact completes_super hkeyword hdot hmethod
  | name hname => exact completes_name hname
  | grouping hleft hright _ ih => exact completes_grouping hleft hright ih
  | lift hbelow _ ih => exact Completes.lift hbelow ih
  | emptyCall hleft hright _ ih => exact completes_emptyCall hleft hright ih
  | call hleft hright hcount _ harguments ihCallee ihArguments =>
      exact completes_call hleft hright hcount ihCallee ihArguments harguments
  | property hdot hname _ ih => exact completes_property hdot hname ih
  | unary hoperator _ ih => exact completes_unary hoperator ih
  | chain hbelow hoperator hclosed _ _ ihLeft ihRight =>
      exact completes_chain hbelow hoperator (hclosed rfl) ihLeft ihRight
  | conditional hquestion hcolon _ _ _ ihCondition ihThen ihElse =>
      exact completes_conditional hquestion hcolon ihCondition ihThen ihElse
  | @assign name equals value ts hname hequals hvalue ih =>
      have htarget : Completes .call (.var ⟨name, 0⟩) [name] := (completes_name hname).lift rfl
      exact htarget.assigned hequals ih (.assign hname hequals hvalue) fun _ => rfl
  | @set dot name equals object value ts us hdot hname hequals hobject hvalue ihObject ihValue =>
      have htarget := completes_property hdot hname ihObject
      have hset := Derives.set hdot hname hequals hobject hvalue
      have happend : ts ++ dot :: name :: equals :: us = ts ++ [dot, name] ++ equals :: us := by
        simp
      rw [happend] at hset ⊢
      exact htarget.assigned hequals ihValue hset fun _ => rfl
  | lastArgument _ ih => exact .last ih
  | moreArguments hcomma _ _ ihArgument ihArguments => exact .more hcomma ihArgument ihArguments

/-- The parser finds a greedy derivation of an expression in front of any token that ends it. -/
theorem expression_complete {tree : Expr} {ts rest : List Token} {n : Nat}
    (htree : Expression true tree ts) (hlength : (ts ++ rest).length < n)
    (hrest : ∀ token ∈ rest.head?, Level.assignment.rank < token.kind.continuesAt) :
    expression n (ts ++ rest) = ⟨[], some tree, rest⟩ :=
  Completes.expression (found_of_derives htree) hlength (stops_assignment hrest _ _)

end Parser
end Lox
