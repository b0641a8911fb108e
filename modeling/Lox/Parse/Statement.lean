import Lox.Parse.Expression

/-!
# Parsing statements

A declaration introduces a class, a function or a variable, or is a statement.
A declaration that cannot be read is dropped after its report, and parsing goes
on at the next statement boundary (`synchronize`), so that one mistake does not
hide the rest of the program.

As for expressions, the functions are built over the parsers of nested
statements, and the number of tokens bounds the nesting.
-/

namespace Lox
namespace TokenKind

def startsStatement : TokenKind → Bool
  | kwClass | kwFun | kwVar | kwFor | kwIf | kwWhile | kwPrint | kwReturn => true
  | _ => false

end TokenKind

namespace Parser

/-!
## Recovery
-/

/-- The tokens from the next boundary on, when `last` was skipped just before. -/
def boundary (last : Token) : List Token → List Token
  | [] => []
  | token :: rest =>
      if last.kind = .semicolon ∨ token.kind.startsStatement then token :: rest
      else boundary token rest

/-- Skip a token, and then everything up to a boundary: after a semicolon or before a keyword. -/
def synchronize : List Token → List Token
  | [] => []
  | token :: rest => boundary token rest

/-- Turn giving up into a missing result, behind which parsing goes on. -/
def recovering (p : Parser α) : Parser (Option α) := fun tokens =>
  let tried := p tokens
  match tried.result with
  | some value => ⟨tried.reports, some (some value), tried.rest⟩
  | none => ⟨tried.reports, some none, synchronize tried.rest⟩

/-!
## Simple statements
-/

def endingIn (form : Expr → Stmt) (what : String) (n : Nat) : Parser Stmt := do
  let inner ← expression n
  let _ ← expect .semicolon what
  ok (form inner)

def expressionStatement : Nat → Parser Stmt := endingIn .expression "';' after expression"

def printStatement : Nat → Parser Stmt := endingIn .print "';' after value"

def returnStatement (n : Nat) (keyword : Token) : Parser Stmt := do
  let value ← unlessNext .semicolon (expression n)
  let _ ← expect .semicolon "';' after return value"
  ok (.ret keyword value)

def varDeclaration (n : Nat) : Parser Stmt := do
  let name ← expect .identifier "variable name"
  let initial ←
    match ← accept [.equal] with
    | none => ok none
    | some _ => some <$> expression n
  let _ ← expect .semicolon "';' after variable declaration"
  ok (.varDecl name initial)

/-!
## Statements with parts
-/

/-- The declarations up to a closing brace or the end, without the dropped ones. -/
def declarations (declaration : Parser (Option Stmt)) : Nat → Parser (List Stmt)
  | 0 => giveUp
  | n + 1 => do
      match ← peek with
      | none | some .rightBrace => ok []
      | some _ =>
          let first ← declaration
          let rest ← declarations declaration n
          ok (first.toList ++ rest)

def blockBody (n : Nat) (declaration : Parser (Option Stmt)) : Parser (List Stmt) := do
  let body ← declarations declaration n
  let _ ← expect .rightBrace "'\x7d' after block"
  ok body

def function (n : Nat) (declaration : Parser (Option Stmt)) (what : String) :
    Parser Function := do
  let name ← expect .identifier s!"{what} name"
  let _ ← expect .leftParen s!"'(' after {what} name"
  let params ← items (expect .identifier "parameter name") "parameters" n
  let _ ← expect .rightParen "')' after parameters"
  let _ ← expect .leftBrace s!"'\x7b' before {what} body"
  let body ← blockBody n declaration
  ok ⟨name, params, body⟩

def methods (declaration : Parser (Option Stmt)) : Nat → Parser (List Function)
  | 0 => giveUp
  | n + 1 => do
      match ← peek with
      | none | some .rightBrace => ok []
      | some _ =>
          let first ← function n declaration "method"
          let rest ← methods declaration n
          ok (first :: rest)

def superclass : Parser (Option Reference) := do
  match ← accept [.less] with
  | none => ok none
  | some _ =>
      let name ← expect .identifier "superclass name"
      ok (some ⟨name, 0⟩)

def classDeclaration (n : Nat) (declaration : Parser (Option Stmt)) : Parser Stmt := do
  let name ← expect .identifier "class name"
  let parent ← superclass
  let _ ← expect .leftBrace "'\x7b' before class body"
  let members ← methods declaration n
  let _ ← expect .rightBrace "'\x7d' after class body"
  ok (.classDecl name parent members)

def firstClause (n : Nat) : Parser (Option Stmt) := do
  match ← accept [.semicolon, .kwVar] with
  | none => some <$> expressionStatement n
  | some token => if token.kind = .semicolon then ok none else some <$> varDeclaration n

def forStatement (n : Nat) (statement : Parser Stmt) : Parser Stmt := do
  let _ ← expect .leftParen "'(' after 'for'"
  let first ← firstClause n
  let condition ← unlessNext .semicolon (expression n)
  let _ ← expect .semicolon "';' after loop condition"
  let increment ← unlessNext .rightParen (expression n)
  let _ ← expect .rightParen "')' after for clauses"
  let body ← statement
  ok (.forLoop first condition increment body)

def ifStatement (n : Nat) (statement : Parser Stmt) : Parser Stmt := do
  let _ ← expect .leftParen "'(' after 'if'"
  let condition ← expression n
  let _ ← expect .rightParen "')' after if condition"
  let thenBranch ← statement
  match ← accept [.kwElse] with
  | none => ok (.ifElse condition thenBranch none)
  | some _ =>
      let elseBranch ← statement
      ok (.ifElse condition thenBranch (some elseBranch))

def whileStatement (n : Nat) (statement : Parser Stmt) : Parser Stmt := do
  let _ ← expect .leftParen "'(' after 'while'"
  let condition ← expression n
  let _ ← expect .rightParen "')' after condition"
  let body ← statement
  ok (.whileLoop condition body)

def anyStatement (n : Nat) (statement : Parser Stmt) (declaration : Parser (Option Stmt)) :
    Parser Stmt := do
  match ← accept [.kwFor, .kwIf, .kwPrint, .kwReturn, .kwWhile, .leftBrace] with
  | none => expressionStatement n
  | some token =>
      match token.kind with
      | .kwFor => forStatement n statement
      | .kwIf => ifStatement n statement
      | .kwPrint => printStatement n
      | .kwReturn => returnStatement n token
      | .kwWhile => whileStatement n statement
      | _ => .block <$> blockBody n declaration

def anyDeclaration (n : Nat) (statement : Parser Stmt) (declaration : Parser (Option Stmt)) :
    Parser Stmt := do
  match ← accept [.kwClass, .kwFun, .kwVar] with
  | none => anyStatement n statement declaration
  | some token =>
      match token.kind with
      | .kwClass => classDeclaration n declaration
      | .kwFun => .funDecl <$> function n declaration "function"
      | _ => varDeclaration n

mutual

def statement : Nat → Parser Stmt
  | 0 => giveUp
  | n + 1 => anyStatement (n + 1) (statement n) (declaration n)

/-- A declaration of fewer than `n` tokens; nothing if it had to be dropped. -/
def declaration : Nat → Parser (Option Stmt)
  | 0 => giveUp
  | n + 1 => recovering (anyDeclaration (n + 1) (statement n) (declaration n))

end

def program (declaration : Parser (Option Stmt)) : Nat → Parser (List Stmt)
  | 0 => giveUp
  | n + 1 => do
      match ← peek with
      | none => ok []
      | some _ =>
          let first ← declaration
          let rest ← program declaration n
          ok (first.toList ++ rest)

end Parser

def parse (tokens : List Token) : Parsed (List Stmt) :=
  let n := tokens.length + 1
  Parser.program (Parser.declaration n) n tokens

end Lox
