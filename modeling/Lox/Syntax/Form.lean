import Lox.Syntax

/-!
# Trees and their forms

Every tree has a form (`Expr.form`, `Stmt.form`), and every form is read as a
tree (`Form.expr`, `Form.stmt`).  A node whose fields do not fit its kind, or
that is of the wrong family for its place, is read as a misfit.
-/

namespace Lox

/-!
## The form of a tree
-/

namespace Reference

def form (r : Reference) : Form := .token r.name r.node

def varForm (r : Reference) : Form := .node .var [r.form]

end Reference

namespace Form

def plain (t : Token) : Form := token t 0

end Form

mutual

def Expr.form : Expr → Form
  | .assign target value => .node .assign [target.form, value.form]
  | .binary left operator right => .node .binary [left.form, .plain operator, right.form]
  | .call callee paren arguments =>
      .node .call [callee.form, .plain paren, .row (Expr.forms arguments)]
  | .conditional condition thenBranch elseBranch =>
      .node .conditional [condition.form, thenBranch.form, elseBranch.form]
  | .get object name => .node .get [object.form, .plain name]
  | .grouping inner => .node .grouping [inner.form]
  | .literal value => .node .literal [.constant value]
  | .logical left operator right => .node .logical [left.form, .plain operator, right.form]
  | .set object name value => .node .set [object.form, .plain name, value.form]
  | .superRef keyword method => .node .superRef [keyword.form, .plain method]
  | .thisRef keyword => .node .thisRef [keyword.form]
  | .unary operator right => .node .unary [.plain operator, right.form]
  | .var name => name.varForm
  | .misfit form => form

def Expr.forms : List Expr → List Form
  | [] => []
  | e :: es => e.form :: Expr.forms es

end

namespace Form

def ofExpr? (e : Option Expr) : Form := (e.map Expr.form).getD absent

end Form

mutual

def Stmt.form : Stmt → Form
  | .block body => .node .block [.row (Stmt.forms body)]
  | .classDecl name superclass methods =>
      .node .classDecl
        [.plain name, (superclass.map Reference.varForm).getD .absent,
          .row (Function.forms methods)]
  | .expression inner => .node .expression [inner.form]
  | .funDecl function => function.form
  | .ifElse condition thenBranch none =>
      .node .ifElse [condition.form, thenBranch.form, .absent]
  | .ifElse condition thenBranch (some elseBranch) =>
      .node .ifElse [condition.form, thenBranch.form, elseBranch.form]
  | .print inner => .node .print [inner.form]
  | .ret keyword value => .node .ret [.plain keyword, .ofExpr? value]
  | .varDecl name initial => .node .varDecl [.plain name, .ofExpr? initial]
  | .whileLoop condition body => .node .whileLoop [condition.form, body.form]
  | .misfit form => form

def Stmt.forms : List Stmt → List Form
  | [] => []
  | s :: ss => s.form :: Stmt.forms ss

def Function.form : Function → Form
  | ⟨name, params, body⟩ =>
      .node .funDecl [.plain name, .tokens params, .row (Stmt.forms body)]

def Function.forms : List Function → List Form
  | [] => []
  | f :: fs => f.form :: Function.forms fs

end

/-!
## The tree of a form
-/

namespace Form

def tokens? : Form → Option (List Token)
  | row fields => fields.mapM token?
  | _ => none

mutual

def expr : Form → Expr
  | node .assign [.token name k, value] => .assign ⟨name, k⟩ value.expr
  | node .binary [left, .token operator _, right] => .binary left.expr operator right.expr
  | node .call [callee, .token paren _, .row arguments] =>
      .call callee.expr paren (exprs arguments)
  | node .conditional [condition, thenBranch, elseBranch] =>
      .conditional condition.expr thenBranch.expr elseBranch.expr
  | node .get [object, .token name _] => .get object.expr name
  | node .grouping [inner] => .grouping inner.expr
  | node .literal [.constant value] => .literal value
  | node .logical [left, .token operator _, right] => .logical left.expr operator right.expr
  | node .set [object, .token name _, value] => .set object.expr name value.expr
  | node .superRef [.token keyword k, .token method _] => .superRef ⟨keyword, k⟩ method
  | node .thisRef [.token keyword k] => .thisRef ⟨keyword, k⟩
  | node .unary [.token operator _, right] => .unary operator right.expr
  | node .var [.token name k] => .var ⟨name, k⟩
  | form => .misfit form

def exprs : List Form → List Expr
  | [] => []
  | f :: fs => f.expr :: exprs fs

end

def optional (read : Form → α) (form : Form) : Option α :=
  if form.isAbsent then none else some (read form)

def superclass? : Form → Option (Option Reference)
  | constant .nil => some none
  | node .var [.token name k] => some (some ⟨name, k⟩)
  | _ => none

mutual

def stmt : Form → Stmt
  | node .block [.row body] => .block (stmts body)
  | node .classDecl [.token name k, superclass, .row methods] =>
      match superclass.superclass?, functions? methods with
      | some superclass, some methods => .classDecl name superclass methods
      | _, _ => .misfit (node .classDecl [.token name k, superclass, .row methods])
  | node .expression [inner] => .expression inner.expr
  | node .funDecl [.token name k, params, .row body] =>
      match params.tokens? with
      | some tokens => .funDecl ⟨name, tokens, stmts body⟩
      | none => .misfit (node .funDecl [.token name k, params, .row body])
  | node .ifElse [condition, thenBranch, .constant .nil] =>
      .ifElse condition.expr thenBranch.stmt none
  | node .ifElse [condition, thenBranch, elseBranch] =>
      .ifElse condition.expr thenBranch.stmt (some elseBranch.stmt)
  | node .print [inner] => .print inner.expr
  | node .ret [.token keyword _, value] => .ret keyword (value.optional expr)
  | node .varDecl [.token name _, initial] => .varDecl name (initial.optional expr)
  | node .whileLoop [condition, body] => .whileLoop condition.expr body.stmt
  | form => .misfit form

def stmts : List Form → List Stmt
  | [] => []
  | f :: fs => f.stmt :: stmts fs

def functions? : List Form → Option (List Function)
  | [] => some []
  | node .funDecl [.token name _, params, .row body] :: fs =>
      return ⟨name, ← params.tokens?, stmts body⟩ :: (← functions? fs)
  | _ => none

end

end Form

end Lox
