import Lox.Parse.Basic

/-!
# Parsing expressions

One function for each level of the grammar, from the tightest to the loosest:

* primary: constants, names, `this`, `super.name`, parentheses
* call: a primary followed by argument lists and properties
* unary: `!` and `-`
* factor, term, comparison, equality: binary operators, grouped to the left
* ternary: `condition ? expression : expression`
* logic and, logic or: grouped to the left
* assignment: grouped to the right

Every level is built over the parser of nested expressions.  Between two nested
expressions at least one token is taken, so the number of tokens bounds their
depth and the length of every chain; `expression` counts that bound down.
-/

namespace Lox
namespace Parser

def parenthesised (expression : Parser Expr) : Parser Expr := do
  let inner ← expression
  let _ ← expect .rightParen "')' after expression"
  ok (.grouping inner)

def superAccess (keyword : Token) : Parser Expr := do
  let _ ← expect .dot "'.' after 'super'"
  let method ← expect .identifier "superclass method name"
  ok (.superRef ⟨keyword, 0⟩ method)

def primary (expression : Parser Expr) : Parser Expr
  | [] => fail (.expected "expression") []
  | token :: rest =>
      match token.kind with
      | .kwFalse => ok (.literal (.bool false)) rest
      | .kwTrue => ok (.literal (.bool true)) rest
      | .kwNil => ok (.literal .nil) rest
      | .number | .string => ok (.literal token.literal) rest
      | .kwSuper => superAccess token rest
      | .kwThis => ok (.thisRef ⟨token, 0⟩) rest
      | .identifier => ok (.var ⟨token, 0⟩) rest
      | .leftParen => parenthesised expression rest
      | _ => fail (.expected "expression") (token :: rest)

def suffixes (expression : Parser Expr) : Nat → Expr → Parser Expr
  | 0, _ => giveUp
  | n + 1, inner => do
      match ← accept [.leftParen, .dot] with
      | none => ok inner
      | some token =>
          if token.kind = .leftParen then
            let arguments ← items expression "arguments" n
            let paren ← expect .rightParen "')' after arguments"
            suffixes expression n (.call inner paren arguments)
          else
            let name ← expect .identifier "property name after '.'"
            suffixes expression n (.get inner name)

def call (n : Nat) (expression : Parser Expr) : Parser Expr := do
  let inner ← primary expression
  suffixes expression n inner

def unary (operand : Parser Expr) : Nat → Parser Expr
  | 0 => giveUp
  | n + 1 => do
      match ← accept [.bang, .minus] with
      | none => operand
      | some operator =>
          let right ← unary operand n
          ok (.unary operator right)

/-- Operators of one level and their right operands, behind a left operand. -/
def chainRest (operand : Parser Expr) (kinds : List TokenKind)
    (node : Expr → Token → Expr → Expr) : Nat → Expr → Parser Expr
  | 0, _ => giveUp
  | n + 1, left => do
      match ← accept kinds with
      | none => ok left
      | some operator =>
          let right ← operand
          chainRest operand kinds node n (node left operator right)

def chain (operand : Parser Expr) (kinds : List TokenKind)
    (node : Expr → Token → Expr → Expr) (n : Nat) : Parser Expr := do
  let left ← operand
  chainRest operand kinds node n left

def factor (n : Nat) (expression : Parser Expr) : Parser Expr :=
  chain (unary (call n expression) n) [.slash, .star] .binary n

def term (n : Nat) (expression : Parser Expr) : Parser Expr :=
  chain (factor n expression) [.minus, .plus] .binary n

def comparison (n : Nat) (expression : Parser Expr) : Parser Expr :=
  chain (term n expression) [.greater, .greaterEqual, .less, .lessEqual] .binary n

def equality (n : Nat) (expression : Parser Expr) : Parser Expr :=
  chain (comparison n expression) [.bangEqual, .equalEqual] .binary n

def ternary (n : Nat) (expression : Parser Expr) : Parser Expr := do
  let condition ← equality n expression
  match ← accept [.question] with
  | none => ok condition
  | some _ =>
      let thenBranch ← expression
      let _ ← expect .colon "':' in conditional expression"
      let elseBranch ← expression
      ok (.conditional condition thenBranch elseBranch)

def logicAnd (n : Nat) (expression : Parser Expr) : Parser Expr :=
  chain (ternary n expression) [.kwAnd] .logical n

def logicOr (n : Nat) (expression : Parser Expr) : Parser Expr :=
  chain (logicAnd n expression) [.kwOr] .logical n

/-- A name or a property can be assigned to; any other target is reported and stands for itself. -/
def assigned (equals : Token) (target value : Expr) : Parser Expr :=
  match target with
  | .var name => ok (.assign name value)
  | .get object name => ok (.set object name value)
  | other => do
      reportAt equals .invalidAssignmentTarget
      ok other

def assignment (n : Nat) (expression : Parser Expr) : Parser Expr := do
  let target ← logicOr n expression
  match ← accept [.equal] with
  | none => ok target
  | some equals =>
      let value ← expression
      assigned equals target value

def expression : Nat → Parser Expr
  | 0 => giveUp
  | n + 1 => assignment (n + 1) (expression n)

end Parser

def parseExpression (tokens : List Token) : Parsed Expr :=
  let whole : Parser Expr := do
    let inner ← Parser.expression (tokens.length + 1)
    if (← Parser.peek).isSome then
      Parser.fail (.expected "end of expression")
    Parser.ok inner
  whole tokens

end Lox
