import Lox.Form

/-!
# Syntax trees

Expressions and statements.  Trees come from the parser or are built by hand,
so an operator is a token of any kind, and in the place of an expression or a
statement there may be a `misfit`: a form that is none.  The parser makes no
misfits.  A name that is looked up when the program runs is a `Reference`.  Two
nodes with the same name are told apart by their numbers, under which the
machine keeps how many scopes out the names are bound.
-/

namespace Lox

/-- An occurrence of a name.  The parser leaves the number of the node open. -/
structure Reference where
  name : Token
  node : NodeId := 0
deriving DecidableEq, Repr

inductive Expr where
  | assign (target : Reference) (value : Expr)
  | binary (left : Expr) (operator : Token) (right : Expr)
  | call (callee : Expr) (paren : Token) (arguments : List Expr)
  | conditional (condition thenBranch elseBranch : Expr)
  | get (object : Expr) (name : Token)
  | grouping (inner : Expr)
  | literal (value : Literal)
  | logical (left : Expr) (operator : Token) (right : Expr)
  | set (object : Expr) (name : Token) (value : Expr)
  | superRef (keyword : Reference) (method : Token)
  | thisRef (keyword : Reference)
  | unary (operator : Token) (right : Expr)
  | var (name : Reference)
  | misfit (form : Form)

mutual

inductive Stmt where
  | block (body : List Stmt)
  | classDecl (name : Token) (superclass : Option Reference) (methods : List Function)
  | expression (inner : Expr)
  | funDecl (function : Function)
  | ifElse (condition : Expr) (thenBranch : Stmt) (elseBranch : Option Stmt)
  | print (inner : Expr)
  | ret (keyword : Token) (value : Option Expr)
  | varDecl (name : Token) (initial : Option Expr)
  | whileLoop (condition : Expr) (body : Stmt)
  | misfit (form : Form)

structure Function where
  name : Token
  params : List Token
  body : List Stmt

end

namespace Stmt

/--
A counting loop, written with the other statements: the increment follows the
body in a block, a missing condition is true, and the first clause opens a
block around the loop.
-/
def forLoop (first : Option Stmt) (condition increment : Option Expr) (body : Stmt) : Stmt :=
  let body :=
    match increment with
    | none => body
    | some step => block [body, expression step]
  let loop := whileLoop (condition.getD (.literal (.bool true))) body
  match first with
  | none => loop
  | some start => block [start, loop]

end Stmt

def initName : String := "init"

namespace Function

def isInitialiser (f : Function) : Bool := f.name.lexeme == initName

end Function
end Lox
