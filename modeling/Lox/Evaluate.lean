import Lox.Evaluate.Statement

/-!
# Evaluation

`exprStep`, `stmtStep` and `callStep` say what one construct does, given how its
parts are evaluated.  `evaluate`, `execute` and `call` tie the knot; their first
argument bounds the depth of evaluation, so that they are total.
-/

namespace Lox
namespace Eval

/-!
## Calls
-/

def parameters (params : List Token) (arguments : List Value) : Bindings :=
  (params.zip arguments).foldl
    (fun bindings (param, argument) => bindings.insert param.lexeme argument) []

/-- What a call yields: an initialiser its receiver, any other function what it returned. -/
def callResult (closure : Closure) : Completion → Eval Value
  | completion =>
      if closure.isInitialiser then do
        let m ← get
        ofLookup (m.environments.getAt closure.env 0 "this")
      else
        match completion with
        | .returned value => pure value
        | .normal => pure .nil

/-- Run the body of a function in an environment inside that of its closure. -/
@[inline] def callFunction (execute : Stmt → Eval Completion) (f : FunctionId)
    (arguments : List Value) : Eval Value := do
  match (← get).functions[f]? with
  | none => pure .nil
  | some closure =>
      let e ← newEnvironment closure.env (parameters closure.function.params arguments)
      let completion ← executeBlock execute closure.function.body e
      callResult closure completion

@[inline] def onHeap (p : EStateM Stop Heap α) : Eval α := fun m =>
  match p m.toHeap with
  | .ok value heap => .ok value { m with toHeap := heap }
  | .error stop heap => .error stop { m with toHeap := heap }

def callNative (id : NativeId) (arguments : List Value) : Eval Value := do
  match (← get).natives[id]? with
  | none => pure .nil
  | some native => onHeap (native.action arguments)

@[inline] def callStep (execute : Stmt → Eval Completion) : Callable → List Value → Eval Value
  | .native id, arguments => callNative id arguments
  | .function f, arguments => callFunction execute f arguments
  | .cls c, arguments => do
      let i ← newInstance c
      match (← get).findMethod c initName with
      | none => pure (.object i)
      | some f => do
          let f ← bindMethod f (.object i)
          let _ ← callFunction execute f arguments
          pure (.object i)

mutual

def evaluate : Nat → Expr → Eval Value
  | 0, _ => throw .outOfFuel
  | n + 1, e => exprStep (evaluate n) (call n) e

def execute : Nat → Stmt → Eval Completion
  | 0, _ => throw .outOfFuel
  | n + 1, s => stmtStep (evaluate n) (execute n) s

def call : Nat → Callable → List Value → Eval Value
  | 0, _, _ => throw .outOfFuel
  | n + 1, f, arguments => callStep (execute n) f arguments

end

/-- Execute a program; a `return` statement outside every function ends it. -/
def interpret (n : Nat) (program : List Stmt) : Eval Completion := executeAll (execute n) program

end Eval
end Lox
