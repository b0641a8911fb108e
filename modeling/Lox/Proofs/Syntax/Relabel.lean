import Lox.Defect
import Lox.Syntax

/-!
# Relabelling trees

A tree with a function applied to all its tokens and another one to the numbers
of its nodes, also in its misfits.  The kinds of nodes stay.
-/

namespace Lox

namespace Token

def moved (line : Token → Nat) (t : Token) : Token := { t with line := line t }

def withoutLine : Token → Token := moved fun _ => 0

end Token

/-- What is done to the tokens of a tree and to the numbers of its nodes. -/
structure Relabelling where
  token : Token → Token := id
  node : NodeId → NodeId := id

instance : CoeFun Relabelling fun _ => Token → Token := ⟨Relabelling.token⟩

instance : Coe (Token → Token) Relabelling := ⟨fun g => { token := g }⟩

/-- First the second relabelling, then the first one. -/
def Relabelling.comp (h g : Relabelling) : Relabelling := ⟨h ∘ g, h.node ∘ g.node⟩

section

variable (g : Relabelling)

mutual

def Form.relabel : Form → Form
  | .node kind fields => .node kind (Form.relabels fields)
  | .token t k => .token (g t) (g.node k)
  | .constant value => .constant value
  | .row items => .row (Form.relabels items)
  | .list items => .list (Form.relabels items)

def Form.relabels : List Form → List Form
  | [] => []
  | f :: fs => f.relabel :: Form.relabels fs

end

def Defect.relabel : Defect → Defect
  | .unknownExpression form => .unknownExpression (form.relabel g)
  | .unknownStatement form => .unknownStatement (form.relabel g)
  | other => other

namespace Reference

def relabel (r : Reference) : Reference := ⟨g r.name, g.node r.node⟩

end Reference

mutual

def Expr.relabel : Expr → Expr
  | .assign target value => .assign (target.relabel g) value.relabel
  | .binary left operator right => .binary left.relabel (g operator) right.relabel
  | .call callee paren arguments => .call callee.relabel (g paren) (Expr.relabels arguments)
  | .conditional condition thenBranch elseBranch =>
      .conditional condition.relabel thenBranch.relabel elseBranch.relabel
  | .get object name => .get object.relabel (g name)
  | .grouping inner => .grouping inner.relabel
  | .literal value => .literal value
  | .logical left operator right => .logical left.relabel (g operator) right.relabel
  | .set object name value => .set object.relabel (g name) value.relabel
  | .superRef keyword method => .superRef (keyword.relabel g) (g method)
  | .thisRef keyword => .thisRef (keyword.relabel g)
  | .unary operator right => .unary (g operator) right.relabel
  | .var name => .var (name.relabel g)
  | .misfit form => .misfit (form.relabel g)

def Expr.relabels : List Expr → List Expr
  | [] => []
  | e :: es => e.relabel :: Expr.relabels es

end

mutual

def Stmt.relabel : Stmt → Stmt
  | .block body => .block (Stmt.relabels body)
  | .classDecl name superclass methods =>
      .classDecl (g name) (superclass.map (Reference.relabel g)) (Function.relabels methods)
  | .expression inner => .expression (inner.relabel g)
  | .funDecl function => .funDecl function.relabel
  | .ifElse condition thenBranch none => .ifElse (condition.relabel g) thenBranch.relabel none
  | .ifElse condition thenBranch (some elseBranch) =>
      .ifElse (condition.relabel g) thenBranch.relabel (some elseBranch.relabel)
  | .print inner => .print (inner.relabel g)
  | .ret keyword value => .ret (g keyword) (value.map (Expr.relabel g))
  | .varDecl name initial => .varDecl (g name) (initial.map (Expr.relabel g))
  | .whileLoop condition body => .whileLoop (condition.relabel g) body.relabel
  | .misfit form => .misfit (form.relabel g)

def Stmt.relabels : List Stmt → List Stmt
  | [] => []
  | s :: ss => s.relabel :: Stmt.relabels ss

def Function.relabel : Function → Function
  | ⟨name, params, body⟩ => ⟨g name, params.map g, Stmt.relabels body⟩

def Function.relabels : List Function → List Function
  | [] => []
  | f :: fs => f.relabel :: Function.relabels fs

end

theorem Form.relabels_eq_map (fs : List Form) : Form.relabels g fs = fs.map (Form.relabel g) := by
  induction fs with
  | nil => rfl
  | cons f fs ih => rw [Form.relabels, List.map_cons, ih]

mutual

theorem Form.relabel_relabel (h : Relabelling) :
    (f : Form) → (f.relabel g).relabel h = f.relabel (h.comp g)
  | .node kind fields => by
      rw [Form.relabel, Form.relabel, Form.relabel, Form.relabels_relabels h fields]
  | .token _ _ => rfl
  | .constant _ => rfl
  | .row items => by
      rw [Form.relabel, Form.relabel, Form.relabel, Form.relabels_relabels h items]
  | .list items => by
      rw [Form.relabel, Form.relabel, Form.relabel, Form.relabels_relabels h items]

theorem Form.relabels_relabels (h : Relabelling) :
    (fs : List Form) → Form.relabels h (Form.relabels g fs) = Form.relabels (h.comp g) fs
  | [] => rfl
  | f :: fs => by
      rw [Form.relabels, Form.relabels, Form.relabels, f.relabel_relabel h,
        Form.relabels_relabels h fs]

end

theorem Defect.relabel_relabel (h : Relabelling) (d : Defect) :
    (d.relabel g).relabel h = d.relabel (h.comp g) := by
  cases d with
  | unknownExpression form => exact congrArg _ (form.relabel_relabel g h)
  | unknownStatement form => exact congrArg _ (form.relabel_relabel g h)
  | _ => rfl

theorem Expr.relabels_eq_map (es : List Expr) : Expr.relabels g es = es.map (Expr.relabel g) := by
  induction es with
  | nil => rfl
  | cons e es ih => rw [Expr.relabels, List.map_cons, ih]

theorem Function.relabels_eq_map (fs : List Function) :
    Function.relabels g fs = fs.map (Function.relabel g) := by
  induction fs with
  | nil => rw [Function.relabels, List.map_nil]
  | cons f fs ih => rw [Function.relabels, List.map_cons, ih]

theorem Stmt.relabels_eq_map (ss : List Stmt) : Stmt.relabels g ss = ss.map (Stmt.relabel g) := by
  induction ss with
  | nil => rw [Stmt.relabels, List.map_nil]
  | cons s ss ih => rw [Stmt.relabels, List.map_cons, ih]

theorem Stmt.relabel_forLoop (first : Option Stmt) (condition increment : Option Expr)
    (body : Stmt) :
    (Stmt.forLoop first condition increment body).relabel g =
      Stmt.forLoop (first.map (Stmt.relabel g)) (condition.map (Expr.relabel g))
        (increment.map (Expr.relabel g)) (body.relabel g) := by
  cases first <;> cases condition <;> cases increment <;>
    simp [Stmt.forLoop, Stmt.relabel, Stmt.relabels, Expr.relabel]

end

end Lox
