import Lox.Defect
import Lox.Value

/-!
# How a run ends early

A runtime error is the fault of the program that runs, and is reported with the
line of a token.  A run also stops at a defect of its tree, or when the bound on
the depth of evaluation is reached.
-/

namespace Lox

inductive RuntimeCause where
  | undefinedVariable (name : String)
  | undefinedProperty (name : String)
  | propertyOfNonInstance
  | fieldOfNonInstance
  | notCallable
  | wrongArgumentCount (expected given : Nat)
  | operandNotNumber
  | operandsNotNumbers
  | operandsNotAddable (left right : ValueKind)
  | superclassNotClass
deriving DecidableEq, Repr

namespace RuntimeCause

def message : RuntimeCause → String
  | undefinedVariable name => s!"Undefined variable '{name}'."
  | undefinedProperty name => s!"Undefined property '{name}'."
  | propertyOfNonInstance => "Only instances can have properties."
  | fieldOfNonInstance => "Only instances can have fields."
  | notCallable => "Can only call functions and classes."
  | wrongArgumentCount expected given => s!"Expected {expected} arguments but got {given}."
  | operandNotNumber => "Operand must be a number."
  | operandsNotNumbers => "Operands must be numbers."
  | operandsNotAddable left right =>
      s!"Operands must be two numbers or two strings. Left is {left.name}, right is {right.name}."
  | superclassNotClass => "Superclass must be a class."

end RuntimeCause

structure RuntimeError where
  token : Token
  cause : RuntimeCause
deriving DecidableEq, Repr

namespace RuntimeError

def message (e : RuntimeError) : String := e.cause.message

def line (e : RuntimeError) : Nat := e.token.line

end RuntimeError

inductive Stop where
  | error (error : RuntimeError)
  | defect (defect : Defect)
  | outOfFuel

end Lox
