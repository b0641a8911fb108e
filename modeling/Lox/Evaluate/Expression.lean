import Lox.Evaluate.Basic
import Lox.Syntax.Form

/-!
# Evaluating expressions

`exprStep` says what one expression does, given how its parts are evaluated and
how callables are called.
-/

namespace Lox
namespace Eval

def evaluateAll (evaluate : Expr → Eval Value) : List Expr → Eval (List Value)
  | [] => pure []
  | e :: es => do
      let value ← evaluate e
      let values ← evaluateAll evaluate es
      pure (value :: values)

/-- Call a value with arguments, if it can be called with that many. -/
@[inline] def invoke (call : Callable → List Value → Eval Value)
    (refuse : RuntimeCause → Eval Value) (callee : Value) (arguments : List Value) :
    Eval Value := do
  match callee.callable? with
  | none => refuse .notCallable
  | some f =>
      let expected ← ofDefect ((← get).arity f)
      if arguments.length = expected then
        call f arguments
      else
        refuse (.wrongArgumentCount expected arguments.length)

/-- Whether the left operand of a logical operator already decides it. -/
def shortCircuits (operator : Token) (left : Value) : Bool :=
  if operator.kind = .kwOr then left.isTruthy else !left.isTruthy

/-!
## Misfits

A form that is no expression stops the evaluation.  An expression with a field
of the wrong kind is evaluated up to the point where the field is needed.
-/

def discard (evaluate : Expr → Eval Value) (form : Form) : Eval Unit := do
  let _ ← evaluate form.expr
  pure ()

def argumentForms (evaluate : Expr → Eval Value) (arguments : Form) : Eval (List Value) :=
  match arguments.items? with
  | some items => evaluateAll evaluate (Form.exprs items)
  | none => defect (.noItems arguments.sort)

/-- A call that cannot be refused at a token is a defect when it is refused. -/
def refuseAt (paren : Form) (cause : RuntimeCause) : Eval Value :=
  match paren.token? with
  | some token => fail token cause
  | none => defect .noToken

def misfitExpr (evaluate : Expr → Eval Value) (call : Callable → List Value → Eval Value) :
    Form → Eval Value
  | .node .assign [_, value] => do
      discard evaluate value
      defect .noToken
  | .node .binary [left, _, right] => do
      discard evaluate left
      discard evaluate right
      defect .noToken
  | .node .call [callee, paren, arguments] => do
      let callee ← evaluate callee.expr
      let arguments ← argumentForms evaluate arguments
      invoke call (refuseAt paren) callee arguments
  | .node .get [object, _] => do
      discard evaluate object
      defect .noToken
  | .node .logical [left, _, _] => do
      discard evaluate left
      defect .noToken
  | .node .set [object, _, value] => do
      match ← evaluate object.expr with
      | .object _ => discard evaluate value
      | _ => pure ()
      defect .noToken
  | .node .superRef [.token keyword node, _] => do
      let _ ← superParts ⟨keyword, node⟩
      defect .noToken
  | .node .superRef _ => defect .superWithoutDistance
  | .node .thisRef _ | .node .var _ => defect .noToken
  | .node .unary [_, right] => do
      discard evaluate right
      defect .noToken
  | form => defect (.unknownExpression form)

/-!
## One step
-/

/-- What an expression does, given how its parts are evaluated and how callables are called. -/
@[inline] def exprStep (evaluate : Expr → Eval Value)
    (call : Callable → List Value → Eval Value) : Expr → Eval Value
  | .assign target value => do
      let value ← evaluate value
      assign target value
      pure value
  | .binary left operator right => do
      let left ← evaluate left
      let right ← evaluate right
      ofExcept (Operator.binary operator left right)
  | .call callee paren arguments => do
      let callee ← evaluate callee
      let arguments ← evaluateAll evaluate arguments
      invoke call (fail paren) callee arguments
  | .conditional condition thenBranch elseBranch => do
      if (← evaluate condition).isTruthy then
        evaluate thenBranch
      else
        evaluate elseBranch
  | .get object name => do
      match ← evaluate object with
      | .object i => getProperty i name
      | _ => fail name .propertyOfNonInstance
  | .grouping inner => evaluate inner
  | .literal value => pure (.ofLiteral value)
  | .logical left operator right => do
      let left ← evaluate left
      if shortCircuits operator left then
        pure left
      else
        evaluate right
  | .set object name value => do
      match ← evaluate object with
      | .object i => do
          let value ← evaluate value
          setField i name.lexeme value
          pure value
      | _ => fail name .fieldOfNonInstance
  | .superRef keyword method => superMethod keyword method
  | .thisRef keyword => lookup keyword
  | .unary operator right => do
      let right ← evaluate right
      ofExcept (Operator.unary operator right)
  | .var name => lookup name
  | .misfit form => misfitExpr evaluate call form

end Eval
end Lox
