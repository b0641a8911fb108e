import Lox.Token

/-!
# Diagnostics

What is reported about a program before it runs.  A diagnostic names its line,
the place on that line, and the rule that is broken; the wording of every rule
is in `Violation.message`.
-/

namespace Lox

inductive Violation where
  | unexpectedCharacter
  | unterminatedString
  | expected (what : String)
  | tooMany (what : String)
  | invalidAssignmentTarget
  | returnAtTopLevel
  | returnFromInitialiser
  | thisOutsideClass
  | superOutsideClass
  | superWithoutSuperclass
  | inheritsFromItself
  | alreadyDeclared
  | readInOwnInitialiser
deriving DecidableEq, Repr

/-- A call has at most this many arguments, and a function this many parameters. -/
def maxArguments : Nat := 255

namespace Violation

def message : Violation → String
  | unexpectedCharacter => "Unexpected character."
  | unterminatedString => "Unterminated string."
  | expected what => s!"Expected {what}."
  | tooMany what => s!"Can't have more than {maxArguments} {what}."
  | invalidAssignmentTarget => "Invalid assignment target."
  | returnAtTopLevel => "Can't return from top-level code."
  | returnFromInitialiser => "Can't return from an initialiser."
  | thisOutsideClass => "Can't use 'this' outside of a class."
  | superOutsideClass => "Can't use 'super' outside of a class."
  | superWithoutSuperclass => "Can't use 'super' in a class with no superclass."
  | inheritsFromItself => "A class can't inherit from itself."
  | alreadyDeclared => "Already a variable with this name in this scope."
  | readInOwnInitialiser => "Can't read local variable in its own initialiser."

end Violation

inductive Place where
  | unnamed
  | atEnd
  | atLexeme (lexeme : String)
deriving DecidableEq, Repr

namespace Place

def text : Place → String
  | unnamed => ""
  | atEnd => " at end"
  | atLexeme lexeme => s!" at '{lexeme}'"

def ofToken (token : Token) : Place :=
  if token.kind = .eof then atEnd else atLexeme token.lexeme

end Place

structure Diagnostic where
  line : Nat
  place : Place
  violation : Violation
deriving DecidableEq, Repr

namespace Diagnostic

def atLine (line : Nat) (violation : Violation) : Diagnostic :=
  ⟨line, .unnamed, violation⟩

def atToken (token : Token) (violation : Violation) : Diagnostic :=
  ⟨token.line, Place.ofToken token, violation⟩

def message (d : Diagnostic) : String := d.violation.message

end Diagnostic
end Lox
