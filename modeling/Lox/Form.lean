import Lox.Token

/-!
# Forms

The general shape of a syntax tree: a node has a kind and fields, and a field
is a node, a token, a constant, or a row of these.  A form says nothing about
which fields fit which kind, so a tree that is built by hand can be any form.
A missing part is the constant `nil`.
-/

namespace Lox

abbrev NodeId := Nat

inductive NodeKind where
  | assign | binary | call | conditional | get | grouping | literal | logical
  | set | superRef | thisRef | unary | var
  | block | classDecl | expression | funDecl | ifElse | print | ret | varDecl | whileLoop
deriving DecidableEq, Repr

namespace NodeKind

def signatures : List (NodeKind × String × List String) :=
  [(assign, "Assign", ["name", "value"]),
   (binary, "Binary", ["left", "operator", "right"]),
   (call, "Call", ["callee", "paren", "arguments"]),
   (conditional, "Conditional", ["condition", "then_branch", "else_branch"]),
   (get, "Get", ["object", "name"]),
   (grouping, "Grouping", ["expression"]),
   (literal, "Literal", ["value"]),
   (logical, "Logical", ["left", "operator", "right"]),
   (set, "Set", ["object", "name", "value"]),
   (superRef, "Super", ["keyword", "method"]),
   (thisRef, "This", ["keyword"]),
   (unary, "Unary", ["operator", "right"]),
   (var, "Variable", ["name"]),
   (block, "Block", ["statements"]),
   (classDecl, "Class", ["name", "superclass", "methods"]),
   (expression, "Expression", ["expression"]),
   (funDecl, "Function", ["name", "params", "body"]),
   (ifElse, "If", ["condition", "then_branch", "else_branch"]),
   (print, "Print", ["expression"]),
   (ret, "Return", ["keyword", "value"]),
   (varDecl, "Var", ["name", "initializer"]),
   (whileLoop, "While", ["condition", "body"])]

def signature (kind : NodeKind) : String × List String :=
  (signatures.lookup kind).getD ("", [])

def title (kind : NodeKind) : String := kind.signature.1

def fieldNames (kind : NodeKind) : List String := kind.signature.2

def isStatement : NodeKind → Bool
  | block | classDecl | expression | funDecl | ifElse | print | ret | varDecl | whileLoop => true
  | _ => false

def family (kind : NodeKind) : String := if kind.isStatement then "Stmt" else "Expr"

def label (kind : NodeKind) : String := kind.family ++ "." ++ kind.title

def ofLabel? (label : String) : Option NodeKind :=
  (signatures.find? (fun entry => entry.1.label == label)).map Prod.fst

end NodeKind

inductive Form where
  | node (kind : NodeKind) (fields : List Form)
  /-- A token; if it is the name in a node that is looked up, with the number of the node. -/
  | token (token : Token) (number : NodeId)
  | constant (value : Literal)
  /-- Items that are a field of a node. -/
  | row (items : List Form)
  /-- Items by themselves. -/
  | list (items : List Form)

namespace Form

/-- Items by themselves become a row when they are put into a node. -/
def settle : Form → Form
  | list items => row items
  | form => form

def make (kind : NodeKind) (fields : List Form) : Form := node kind (fields.map settle)

def tokens (ts : List Token) : Form := row (ts.map fun t => token t 0)

def absent : Form := constant .nil

def isAbsent : Form → Bool
  | constant .nil => true
  | _ => false

def token? : Form → Option Token
  | token t _ => some t
  | _ => none

/-- The parts one after the other; those of a text are its characters. -/
def items? : Form → Option (List Form)
  | row items | list items => some items
  | constant (.text s) => some (s.toList.map fun c => constant (.text (String.singleton c)))
  | _ => none

def nameToken? : Form → Option Token
  | node kind fields => ((kind.fieldNames.zip fields).lookup "name").bind token?
  | _ => none

def sort : Form → String
  | node kind _ => kind.title
  | token _ _ => "Token"
  | constant .nil => "NoneType"
  | constant (.bool _) => "bool"
  | constant (.number _) => "float"
  | constant (.text _) => "str"
  | row _ => "tuple"
  | list _ => "list"

mutual

def size : Form → Nat
  | node _ fields => sizes fields + 1
  | row items | list items => sizes items + 1
  | token _ _ | constant _ => 1

def sizes : List Form → Nat
  | [] => 0
  | f :: fs => size f + sizes fs

end

/-!
## The number of fields
-/

structure WrongArity where
  kind : NodeKind
  given : Nat
deriving DecidableEq, Repr

namespace WrongArity

def message (e : WrongArity) : String :=
  s!"{e.kind.title}.__init__() takes {e.kind.fieldNames.length} positional arguments " ++
    s!"but {e.given} were given"

end WrongArity

mutual

/-- The first node, parts before the whole, whose number of fields is wrong. -/
def wrongArity? : Form → Option WrongArity
  | node kind fields =>
      (wrongArities? fields).or
        (if fields.length = kind.fieldNames.length then none else some ⟨kind, fields.length⟩)
  | row items | list items => wrongArities? items
  | token _ _ | constant _ => none

def wrongArities? : List Form → Option WrongArity
  | [] => none
  | f :: fs => (wrongArity? f).or (wrongArities? fs)

end

mutual

def preorder : Form → List NodeKind
  | node kind fields => kind :: preorders fields
  | row items | list items => preorders items
  | token _ _ | constant _ => []

def preorders : List Form → List NodeKind
  | [] => []
  | f :: fs => preorder f ++ preorders fs

end

end Form
end Lox
