import Lox.Resolve
import Lox.Syntax.Form

/-!
# Resolving misfits

The resolver asks a part what it is, and not where it stands: a statement in the
place of an expression is resolved like any statement, and items one by one.  In
a node with a field of the wrong kind, the parts that fit are resolved; a name
that is no token is a defect as soon as it is needed.  At the top level a
declaration does not need its name.
-/

namespace Lox
namespace Resolve

def fault (defect : Defect) : Resolve Unit := note (.defect defect)

def each (part : Form → Resolve Unit) : List Form → Resolve Unit
  | [] => ok ()
  | f :: fs => do
      part f
      each part fs

def declareForm (name : Form) : Resolve Unit := do
  match name.token? with
  | some token => declare token
  | none => if (← scopes).isEmpty then ok () else fault .noToken

def defineForm (name : Form) : Resolve Unit := do
  match name.token? with
  | some token => define token
  | none => if (← scopes).isEmpty then ok () else fault .noToken

def declareForms : List Form → Resolve Unit
  | [] => ok ()
  | name :: names => do
      declareForm name
      defineForm name
      declareForms names

section

variable (part : Context → Form → Resolve Unit)

def functionForm (ctx : Context) (kind : FunctionKind) : Form → Resolve Unit
  | .node .funDecl [_, params, body] => within [] do
      match params.items? with
      | some items => declareForms items
      | none => fault (.noItems params.sort)
      part { ctx with function := kind } body
  | _ => fault .noToken

/-- A method; it needs a name. -/
def methodForm (ctx : Context) (method : Form) : Resolve Unit :=
  match method.nameToken? with
  | some name =>
      functionForm part ctx (if name.lexeme == initName then .initialiser else .method) method
  | none => fault .noToken

/-- The superclass clause of a class; both names are needed to tell them apart. -/
def superclassForm (ctx : Context) (name parent : Form) : Resolve Unit := do
  if parent.isAbsent then
    ok ()
  else
    match name.token?, parent.nameToken? with
    | some own, some other => require (own.lexeme != other.lexeme) other .inheritsFromItself
    | _, _ => fault .noToken
    part { ctx with cls := .subclass } parent

def methodForms (ctx : Context) (subclass : Bool) (methods : Form) : Resolve Unit := do
  let kind := if subclass then ClassKind.subclass else .plain
  match methods.items? with
  | some items => classScopes subclass (each (methodForm part { ctx with cls := kind }) items)
  | none => fault (.noItems methods.sort)

def returnForm (ctx : Context) (value : Form) : Resolve Unit := do
  if ctx.function = .none then
    fault .noToken
  if value.isAbsent then
    ok ()
  else
    if ctx.function = .initialiser then
      fault .noToken
    part ctx value

def fields (ctx : Context) : NodeKind → List Form → Resolve Unit
  | .assign, [_, value] => do
      part ctx value
      fault .noToken
  | .binary, [left, _, right]
  | .logical, [left, _, right] => do
      part ctx left
      part ctx right
  | .call, [callee, _, arguments] => do
      part ctx callee
      part ctx arguments
  | .get, [object, _] => part ctx object
  | .set, [object, _, value] => do
      part ctx value
      part ctx object
  | .superRef, [.token keyword node, _] => superReference ctx ⟨keyword, node⟩
  | .unary, [_, right] => part ctx right
  | .literal, [_] => ok ()
  | .block, [body] => within [] (part ctx body)
  | .classDecl, [name, parent, methods] => do
      declareForm name
      defineForm name
      superclassForm part ctx name parent
      methodForms part ctx (!parent.isAbsent) methods
  | .funDecl, [name, params, body] => do
      declareForm name
      defineForm name
      functionForm part ctx .function (.node .funDecl [name, params, body])
  | .ret, [_, value] => returnForm part ctx value
  | .varDecl, [name, initial] => do
      declareForm name
      if initial.isAbsent then ok () else part ctx initial
      defineForm name
  | _, _ => fault .noToken

end

/-- Resolve any form; `n` bounds the depth at which there are misfits inside misfits. -/
def form : Nat → Context → Form → Resolve Unit
  | 0, _, _ => ok ()
  | n + 1, ctx, f =>
      match f with
      | .row items | .list items => each (form n ctx) items
      | .node kind parts =>
          if kind.isStatement then
            match f.stmt with
            | .misfit _ => fields (form n) ctx kind parts
            | s => stmt (form n) ctx s
          else
            match f.expr with
            | .misfit _ => fields (form n) ctx kind parts
            | e => expr (form n) ctx e
      | _ => fault (.unknownExpression f)

end Resolve

def resolveForm (program : Form) : Resolution Unit := Resolve.form program.size {} program []

end Lox
