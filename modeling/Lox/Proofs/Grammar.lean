import Lox.Parse.Statement

/-!
# The grammar

What the parser should accept, written as derivations: a phrase of the grammar
is derived from a list of tokens, and the phrase carries its tree.  The levels
of expressions are ordered from the tightest to the loosest, and the operators
of one level form chains that group to the left.

The grammar is ambiguous in two places.  An `else` may belong to any of the
open `if` statements before it, and behind the last branch of a conditional
expression an `and` or an `or` may belong to that branch or to the expression
around it.  The parameter `greedy` of the derivations decides both: if it is
set, an `else` belongs to the nearest `if`, and the last branch of a conditional
extends as far as it can.
-/

namespace Lox
namespace Grammar

/-!
# Levels of expressions
-/

inductive Level where
  | primary | call | unary | factor | term | comparison | equality
  | ternary | logicAnd | logicOr | assignment
deriving DecidableEq, Repr

namespace Level

def below : Level → Option Level
  | primary => none
  | call => some primary
  | unary => some call
  | factor => some unary
  | term => some factor
  | comparison => some term
  | equality => some comparison
  | ternary => some equality
  | logicAnd => some ternary
  | logicOr => some logicAnd
  | assignment => some logicOr

def rank : Level → Nat
  | primary => 0
  | call => 1
  | unary => 2
  | factor => 3
  | term => 4
  | comparison => 5
  | equality => 6
  | ternary => 7
  | logicAnd => 8
  | logicOr => 9
  | assignment => 10

def operators : Level → List TokenKind
  | factor => [.slash, .star]
  | term => [.minus, .plus]
  | comparison => [.greater, .greaterEqual, .less, .lessEqual]
  | equality => [.bangEqual, .equalEqual]
  | logicAnd => [.kwAnd]
  | logicOr => [.kwOr]
  | _ => []

def node : Level → Expr → Token → Expr → Expr
  | logicAnd | logicOr => .logical
  | _ => .binary

theorem rank_of_below {level tighter : Level} (hbelow : level.below = some tighter) :
    level.rank = tighter.rank + 1 := by
  cases level <;> cases hbelow <;> rfl

theorem rank_le_assignment (level : Level) : level.rank ≤ assignment.rank := by
  cases level <;> decide

theorem eq_of_rank_eq {first second : Level} (hrank : first.rank = second.rank) :
    first = second := by
  cases first <;> cases second <;> first | rfl | cases hrank

end Level
end Grammar

/-!
# Open expressions
-/

/-- Whether an expression ends in the last branch of a conditional. -/
def Expr.endsInConditional : Expr → Bool
  | .conditional _ _ _ => true
  | .logical _ _ right => right.endsInConditional
  | _ => false

def Token.constant? (token : Token) : Option Literal :=
  match token.kind with
  | .kwFalse => some (.bool false)
  | .kwTrue => some (.bool true)
  | .kwNil => some .nil
  | .number | .string => some token.literal
  | _ => none

namespace Grammar

theorem Level.endsInConditional_of_node (level : Level) {left right : Expr} {operator : Token}
    (hopen : (level.node left operator right).endsInConditional = true) :
    right.endsInConditional = true := by
  cases level <;> first | exact hopen | cases hopen

/-!
# Expressions
-/

inductive Phrase where
  | expr (level : Level) (tree : Expr)
  | arguments (trees : List Expr)

inductive Derives (greedy : Bool) : Phrase → List Token → Prop where
  | constant {token : Token} {value : Literal} :
      token.constant? = some value →
      Derives greedy (.expr .primary (.literal value)) [token]
  | this {keyword : Token} :
      keyword.kind = .kwThis →
      Derives greedy (.expr .primary (.thisRef ⟨keyword, 0⟩)) [keyword]
  | super {keyword dot method : Token} :
      keyword.kind = .kwSuper → dot.kind = .dot → method.kind = .identifier →
      Derives greedy (.expr .primary (.superRef ⟨keyword, 0⟩ method)) [keyword, dot, method]
  | name {name : Token} :
      name.kind = .identifier →
      Derives greedy (.expr .primary (.var ⟨name, 0⟩)) [name]
  | grouping {left right : Token} {inner : Expr} {ts : List Token} :
      left.kind = .leftParen → right.kind = .rightParen →
      Derives greedy (.expr .assignment inner) ts →
      Derives greedy (.expr .primary (.grouping inner)) (left :: ts ++ [right])
  | lift {level tighter : Level} {tree : Expr} {ts : List Token} :
      level.below = some tighter →
      Derives greedy (.expr tighter tree) ts →
      Derives greedy (.expr level tree) ts
  | emptyCall {left right : Token} {callee : Expr} {ts : List Token} :
      left.kind = .leftParen → right.kind = .rightParen →
      Derives greedy (.expr .call callee) ts →
      Derives greedy (.expr .call (.call callee right [])) (ts ++ [left, right])
  | call {left right : Token} {callee : Expr} {arguments : List Expr} {ts us : List Token} :
      left.kind = .leftParen → right.kind = .rightParen →
      arguments.length ≤ maxArguments →
      Derives greedy (.expr .call callee) ts →
      Derives greedy (.arguments arguments) us →
      Derives greedy (.expr .call (.call callee right arguments)) (ts ++ left :: us ++ [right])
  | property {dot name : Token} {object : Expr} {ts : List Token} :
      dot.kind = .dot → name.kind = .identifier →
      Derives greedy (.expr .call object) ts →
      Derives greedy (.expr .call (.get object name)) (ts ++ [dot, name])
  | unary {operator : Token} {operand : Expr} {ts : List Token} :
      operator.kind = .bang ∨ operator.kind = .minus →
      Derives greedy (.expr .unary operand) ts →
      Derives greedy (.expr .unary (.unary operator operand)) (operator :: ts)
  | chain {level tighter : Level} {operator : Token} {left right : Expr} {ts us : List Token} :
      level.below = some tighter → operator.kind ∈ level.operators →
      (greedy = true → left.endsInConditional = false) →
      Derives greedy (.expr level left) ts →
      Derives greedy (.expr tighter right) us →
      Derives greedy (.expr level (level.node left operator right)) (ts ++ operator :: us)
  | conditional {question colon : Token} {condition thenBranch elseBranch : Expr}
      {ts us vs : List Token} :
      question.kind = .question → colon.kind = .colon →
      Derives greedy (.expr .equality condition) ts →
      Derives greedy (.expr .assignment thenBranch) us →
      Derives greedy (.expr .assignment elseBranch) vs →
      Derives greedy (.expr .ternary (.conditional condition thenBranch elseBranch))
        (ts ++ question :: us ++ colon :: vs)
  | assign {name equals : Token} {value : Expr} {ts : List Token} :
      name.kind = .identifier → equals.kind = .equal →
      Derives greedy (.expr .assignment value) ts →
      Derives greedy (.expr .assignment (.assign ⟨name, 0⟩ value)) (name :: equals :: ts)
  | set {dot name equals : Token} {object value : Expr} {ts us : List Token} :
      dot.kind = .dot → name.kind = .identifier → equals.kind = .equal →
      Derives greedy (.expr .call object) ts →
      Derives greedy (.expr .assignment value) us →
      Derives greedy (.expr .assignment (.set object name value))
        (ts ++ dot :: name :: equals :: us)
  | lastArgument {argument : Expr} {ts : List Token} :
      Derives greedy (.expr .assignment argument) ts →
      Derives greedy (.arguments [argument]) ts
  | moreArguments {comma : Token} {argument : Expr} {arguments : List Expr}
      {ts us : List Token} :
      comma.kind = .comma →
      Derives greedy (.expr .assignment argument) ts →
      Derives greedy (.arguments arguments) us →
      Derives greedy (.arguments (argument :: arguments)) (ts ++ comma :: us)

abbrev Expression (greedy : Bool) (tree : Expr) (ts : List Token) : Prop :=
  Derives greedy (.expr .assignment tree) ts

/-!
# Parts of statements
-/

inductive Separated {α : Type} (item : α → List Token → Prop) :
    List α → List Token → Prop where
  | last {tree : α} {ts : List Token} : item tree ts → Separated item [tree] ts
  | more {comma : Token} {tree : α} {trees : List α} {ts us : List Token} :
      comma.kind = .comma → item tree ts → Separated item trees us →
      Separated item (tree :: trees) (ts ++ comma :: us)

inductive Optional (greedy : Bool) : Option Expr → List Token → Prop where
  | missing : Optional greedy none []
  | present {tree : Expr} {ts : List Token} :
      Expression greedy tree ts → Optional greedy (some tree) ts

inductive Variable (greedy : Bool) : Stmt → List Token → Prop where
  | plain {name semicolon : Token} :
      name.kind = .identifier → semicolon.kind = .semicolon →
      Variable greedy (.varDecl name none) [name, semicolon]
  | initialised {name equals semicolon : Token} {initial : Expr} {ts : List Token} :
      name.kind = .identifier → equals.kind = .equal → semicolon.kind = .semicolon →
      Expression greedy initial ts →
      Variable greedy (.varDecl name (some initial)) (name :: equals :: ts ++ [semicolon])

inductive FirstClause (greedy : Bool) : Option Stmt → List Token → Prop where
  | missing {semicolon : Token} :
      semicolon.kind = .semicolon → FirstClause greedy none [semicolon]
  | declaration {keyword : Token} {tree : Stmt} {ts : List Token} :
      keyword.kind = .kwVar → Variable greedy tree ts →
      FirstClause greedy (some tree) (keyword :: ts)
  | expression {semicolon : Token} {tree : Expr} {ts : List Token} :
      semicolon.kind = .semicolon → Expression greedy tree ts →
      FirstClause greedy (some (.expression tree)) (ts ++ [semicolon])

def Identifier (name : Token) (ts : List Token) : Prop :=
  name.kind = .identifier ∧ ts = [name]

inductive Parameters : List Token → List Token → Prop where
  | none : Parameters [] []
  | some {names ts : List Token} :
      names.length ≤ maxArguments → Separated Identifier names ts → Parameters names ts

inductive Superclass : Option Reference → List Token → Prop where
  | missing : Superclass none []
  | present {less name : Token} :
      less.kind = .less → name.kind = .identifier →
      Superclass (some ⟨name, 0⟩) [less, name]

/-!
# Statements

A statement is open if it ends in an `if` without `else`, so that an `else`
behind it would belong to it.
-/

inductive StmtPhrase where
  | statement (isOpen : Bool) (tree : Stmt)
  | declaration (isOpen : Bool) (tree : Stmt)
  | declarations (trees : List Stmt)
  | function (tree : Function)
  | methods (trees : List Function)

inductive StmtDerives (greedy : Bool) : StmtPhrase → List Token → Prop where
  | expression {semicolon : Token} {inner : Expr} {ts : List Token} :
      semicolon.kind = .semicolon → Expression greedy inner ts →
      StmtDerives greedy (.statement false (.expression inner)) (ts ++ [semicolon])
  | print {keyword semicolon : Token} {inner : Expr} {ts : List Token} :
      keyword.kind = .kwPrint → semicolon.kind = .semicolon → Expression greedy inner ts →
      StmtDerives greedy (.statement false (.print inner)) (keyword :: ts ++ [semicolon])
  | ret {keyword semicolon : Token} {value : Option Expr} {ts : List Token} :
      keyword.kind = .kwReturn → semicolon.kind = .semicolon → Optional greedy value ts →
      StmtDerives greedy (.statement false (.ret keyword value)) (keyword :: ts ++ [semicolon])
  | block {left right : Token} {body : List Stmt} {ts : List Token} :
      left.kind = .leftBrace → right.kind = .rightBrace →
      StmtDerives greedy (.declarations body) ts →
      StmtDerives greedy (.statement false (.block body)) (left :: ts ++ [right])
  | whileLoop {keyword left right : Token} {condition : Expr} {isOpen : Bool} {body : Stmt}
      {ts us : List Token} :
      keyword.kind = .kwWhile → left.kind = .leftParen → right.kind = .rightParen →
      Expression greedy condition ts →
      StmtDerives greedy (.statement isOpen body) us →
      StmtDerives greedy (.statement isOpen (.whileLoop condition body))
        (keyword :: left :: ts ++ right :: us)
  | forLoop {keyword left semicolon right : Token} {first : Option Stmt}
      {condition increment : Option Expr} {isOpen : Bool} {body : Stmt}
      {ts us vs ws : List Token} :
      keyword.kind = .kwFor → left.kind = .leftParen → semicolon.kind = .semicolon →
      right.kind = .rightParen →
      FirstClause greedy first ts → Optional greedy condition us →
      Optional greedy increment vs →
      StmtDerives greedy (.statement isOpen body) ws →
      StmtDerives greedy (.statement isOpen (.forLoop first condition increment body))
        (keyword :: left :: ts ++ us ++ semicolon :: vs ++ right :: ws)
  | ifThen {keyword left right : Token} {condition : Expr} {isOpen : Bool} {thenBranch : Stmt}
      {ts us : List Token} :
      keyword.kind = .kwIf → left.kind = .leftParen → right.kind = .rightParen →
      Expression greedy condition ts →
      StmtDerives greedy (.statement isOpen thenBranch) us →
      StmtDerives greedy (.statement true (.ifElse condition thenBranch none))
        (keyword :: left :: ts ++ right :: us)
  | ifElse {keyword left right otherwise : Token} {condition : Expr} {thenOpen isOpen : Bool}
      {thenBranch elseBranch : Stmt} {ts us vs : List Token} :
      keyword.kind = .kwIf → left.kind = .leftParen → right.kind = .rightParen →
      otherwise.kind = .kwElse →
      (greedy = true → thenOpen = false) →
      Expression greedy condition ts →
      StmtDerives greedy (.statement thenOpen thenBranch) us →
      StmtDerives greedy (.statement isOpen elseBranch) vs →
      StmtDerives greedy (.statement isOpen (.ifElse condition thenBranch (some elseBranch)))
        (keyword :: left :: ts ++ right :: us ++ otherwise :: vs)
  | statement {isOpen : Bool} {tree : Stmt} {ts : List Token} :
      StmtDerives greedy (.statement isOpen tree) ts →
      StmtDerives greedy (.declaration isOpen tree) ts
  | varDecl {keyword : Token} {tree : Stmt} {ts : List Token} :
      keyword.kind = .kwVar → Variable greedy tree ts →
      StmtDerives greedy (.declaration false tree) (keyword :: ts)
  | funDecl {keyword : Token} {function : Function} {ts : List Token} :
      keyword.kind = .kwFun → StmtDerives greedy (.function function) ts →
      StmtDerives greedy (.declaration false (.funDecl function)) (keyword :: ts)
  | classDecl {keyword name left right : Token} {parent : Option Reference}
      {methods : List Function} {ts us : List Token} :
      keyword.kind = .kwClass → name.kind = .identifier →
      left.kind = .leftBrace → right.kind = .rightBrace →
      Superclass parent ts →
      StmtDerives greedy (.methods methods) us →
      StmtDerives greedy (.declaration false (.classDecl name parent methods))
        (keyword :: name :: ts ++ left :: us ++ [right])
  | noDeclarations : StmtDerives greedy (.declarations []) []
  | moreDeclarations {isOpen : Bool} {tree : Stmt} {trees : List Stmt} {ts us : List Token} :
      StmtDerives greedy (.declaration isOpen tree) ts →
      StmtDerives greedy (.declarations trees) us →
      StmtDerives greedy (.declarations (tree :: trees)) (ts ++ us)
  | function {name left right opening closing : Token} {params : List Token} {body : List Stmt}
      {ts us : List Token} :
      name.kind = .identifier → left.kind = .leftParen → right.kind = .rightParen →
      opening.kind = .leftBrace → closing.kind = .rightBrace →
      Parameters params ts →
      StmtDerives greedy (.declarations body) us →
      StmtDerives greedy (.function ⟨name, params, body⟩)
        (name :: left :: ts ++ right :: opening :: us ++ [closing])
  | noMethods : StmtDerives greedy (.methods []) []
  | moreMethods {tree : Function} {trees : List Function} {ts us : List Token} :
      StmtDerives greedy (.function tree) ts →
      StmtDerives greedy (.methods trees) us →
      StmtDerives greedy (.methods (tree :: trees)) (ts ++ us)

abbrev Program (greedy : Bool) (trees : List Stmt) (ts : List Token) : Prop :=
  StmtDerives greedy (.declarations trees) ts

end Grammar
end Lox
