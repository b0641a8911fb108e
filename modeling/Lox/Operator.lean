import Lox.RuntimeError

/-!
# Operators

The unary and binary operators on values.  An operator is a token, and its kind
decides what it does.
-/

namespace Lox
namespace Operator

def fail (operator : Token) (cause : RuntimeCause) : Except Stop α :=
  .error (.error ⟨operator, cause⟩)

def plus (operator : Token) : Value → Value → Except Stop Value
  | .number x, .number y => .ok (.number (x.add y))
  | .text s, .text t => .ok (.text (s ++ t))
  | left, right => fail operator (.operandsNotAddable left.kind right.kind)

def arithmetic (operator : Token) (x y : Number) : Except Stop Value :=
  match operator.kind with
  | .greater => .ok (.bool (y.lt x))
  | .greaterEqual => .ok (.bool (y.le x))
  | .less => .ok (.bool (x.lt y))
  | .lessEqual => .ok (.bool (x.le y))
  | .minus => .ok (.number (x.sub y))
  | .slash => .ok (.number (x.div y))
  | .star => .ok (.number (x.mul y))
  | _ => .error (.defect (.unknownBinary operator.lexeme))

def binary (operator : Token) (left right : Value) : Except Stop Value :=
  match operator.kind with
  | .bangEqual => .ok (.bool !(left.equals right))
  | .equalEqual => .ok (.bool (left.equals right))
  | .plus => plus operator left right
  | _ =>
      match left, right with
      | .number x, .number y => arithmetic operator x y
      | _, _ => fail operator .operandsNotNumbers

def unary (operator : Token) (right : Value) : Except Stop Value :=
  match operator.kind with
  | .bang => .ok (.bool !right.isTruthy)
  | .minus =>
      match right with
      | .number x => .ok (.number x.neg)
      | _ => fail operator .operandNotNumber
  | _ => .error (.defect (.unknownUnary operator.lexeme))

/-- Division of any two values; what is neither a number nor a boolean cannot be divided. -/
def divide (left right : Value) : Except Defect Value :=
  match left.count?, right.count? with
  | some x, some y => .ok (.number (x.div y))
  | none, some y =>
      if y.same (.ofNat 0) then .error (.noNumber left.sort)
      else .error (.noQuotient left.sort right.sort)
  | _, none => .error (.noQuotient left.sort right.sort)

end Operator
end Lox
