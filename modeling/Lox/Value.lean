import Lox.Token.Text

/-!
# Values

What an expression evaluates to.  Functions, classes, instances and native
functions are known by their place in the machine, so two of them are equal
exactly when they are the same object.
-/

namespace Lox

abbrev EnvId := Nat

abbrev FunctionId := Nat

abbrev ClassId := Nat

abbrev InstanceId := Nat

abbrev NativeId := Nat

inductive Value where
  | nil
  | bool (value : Bool)
  | number (value : Number)
  | text (value : String)
  | native (id : NativeId)
  | function (id : FunctionId)
  | cls (id : ClassId)
  | object (id : InstanceId)
deriving DecidableEq, Repr

inductive ValueKind where
  | nil | boolean | number | string | function | cls | object
deriving DecidableEq, Repr

namespace ValueKind

def name : ValueKind → String
  | nil => "nil"
  | boolean => "boolean"
  | number => "number"
  | string => "string"
  | function => "function"
  | cls => "class"
  | object => "instance"

end ValueKind

inductive Callable where
  | native (id : NativeId)
  | function (id : FunctionId)
  | cls (id : ClassId)
deriving DecidableEq, Repr

namespace Value

def ofLiteral : Literal → Value
  | .nil => nil
  | .bool b => bool b
  | .number x => number x
  | .text s => text s

def kind : Value → ValueKind
  | nil => .nil
  | bool _ => .boolean
  | number _ => .number
  | text _ => .string
  | native _ | function _ => .function
  | cls _ => .cls
  | object _ => .object

def callable? : Value → Option Callable
  | native id => some (.native id)
  | function id => some (.function id)
  | cls id => some (.cls id)
  | _ => none

def sort : Value → String
  | nil => "NoneType"
  | bool _ => "bool"
  | number _ => "float"
  | text _ => "str"
  | native _ => "NativeFunction"
  | function _ => "LoxFunction"
  | cls _ => "LoxClass"
  | object _ => "LoxInstance"

/-- A number, or a boolean counted as zero or one. -/
def count? : Value → Option Number
  | number x => some x
  | bool b => some (.ofNat b.toNat)
  | _ => none

/-- Everything is true except `nil` and `false`. -/
def isTruthy : Value → Bool
  | nil => false
  | bool b => b
  | _ => true

def isNumber : Value → Bool
  | number _ => true
  | _ => false

def equals : Value → Value → Bool
  | number x, number y => x.same y
  | left, right => left == right

end Value
end Lox
