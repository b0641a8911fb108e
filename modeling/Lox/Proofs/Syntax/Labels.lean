import Lox.Machine
import Lox.Proofs.Syntax.Relabel

/-!
# The tokens of a tree

A tree whose tokens all stay the same under a relabelling that keeps numbers is
itself not changed.
A machine holds the tokens in the trees of its functions.
-/

namespace Lox

mutual

def Form.labels : Form → List Token
  | .node _ fields => Form.allLabels fields
  | .token t _ => [t]
  | .constant _ => []
  | .row items => Form.allLabels items
  | .list items => Form.allLabels items

def Form.allLabels : List Form → List Token
  | [] => []
  | f :: fs => f.labels ++ Form.allLabels fs

end

def Defect.labels : Defect → List Token
  | .unknownExpression form => form.labels
  | .unknownStatement form => form.labels
  | _ => []

mutual

def Expr.labels : Expr → List Token
  | .assign target value => target.name :: value.labels
  | .binary left operator right => left.labels ++ operator :: right.labels
  | .call callee paren arguments => callee.labels ++ paren :: Expr.allLabels arguments
  | .conditional condition thenBranch elseBranch =>
      condition.labels ++ (thenBranch.labels ++ elseBranch.labels)
  | .get object name => name :: object.labels
  | .grouping inner => inner.labels
  | .literal _ => []
  | .logical left operator right => left.labels ++ operator :: right.labels
  | .set object name value => object.labels ++ name :: value.labels
  | .superRef keyword method => [keyword.name, method]
  | .thisRef keyword => [keyword.name]
  | .unary operator right => operator :: right.labels
  | .var name => [name.name]
  | .misfit form => form.labels

def Expr.allLabels : List Expr → List Token
  | [] => []
  | e :: es => e.labels ++ Expr.allLabels es

end

def Expr.optionalLabels (e : Option Expr) : List Token := (e.map Expr.labels).getD []

mutual

def Stmt.labels : Stmt → List Token
  | .block body => Stmt.allLabels body
  | .classDecl name superclass methods =>
      name :: ((superclass.map Reference.name).toList ++ Function.allLabels methods)
  | .expression inner => inner.labels
  | .funDecl function => function.labels
  | .ifElse condition thenBranch none => condition.labels ++ thenBranch.labels
  | .ifElse condition thenBranch (some elseBranch) =>
      condition.labels ++ (thenBranch.labels ++ elseBranch.labels)
  | .print inner => inner.labels
  | .ret keyword value => keyword :: Expr.optionalLabels value
  | .varDecl name initial => name :: Expr.optionalLabels initial
  | .whileLoop condition body => condition.labels ++ body.labels
  | .misfit form => form.labels

def Stmt.allLabels : List Stmt → List Token
  | [] => []
  | s :: ss => s.labels ++ Stmt.allLabels ss

def Function.labels : Function → List Token
  | ⟨name, params, body⟩ => name :: (params ++ Stmt.allLabels body)

def Function.allLabels : List Function → List Token
  | [] => []
  | f :: fs => f.labels ++ Function.allLabels fs

end

def Closure.labels (closure : Closure) : List Token :=
  closure.function.labels ++ (closure.flaw.map Defect.labels).getD []

def Machine.labels (m : Machine) : List Token := m.functions.toList.flatMap Closure.labels

theorem exists_line_bound (lines : Nat) (ts : List Token) :
    ∃ bound, lines ≤ bound ∧ ∀ t ∈ ts, t.line ≤ bound := by
  induction ts with
  | nil => exact ⟨lines, Nat.le_refl _, by simp⟩
  | cons t ts ih =>
      rcases ih with ⟨bound, hlines, hbound⟩
      refine ⟨max bound t.line, Nat.le_trans hlines (Nat.le_max_left _ _), ?_⟩
      intro u hu
      rcases List.mem_cons.mp hu with rfl | hu
      · exact Nat.le_max_right _ _
      · exact Nat.le_trans (hbound u hu) (Nat.le_max_left _ _)

/-!
# Trees that are not changed
-/

section

variable {g : Relabelling}

mutual

theorem Form.relabel_eq_self (hg : ∀ k, g.node k = k) :
    (f : Form) → (∀ t ∈ f.labels, g t = t) → f.relabel g = f
  | .node _ fields, h => by rw [Form.relabel, Form.relabels_eq_self hg fields h]
  | .token t _, h => by rw [Form.relabel, h t (by simp [Form.labels]), hg]
  | .constant _, _ => rfl
  | .row items, h => by rw [Form.relabel, Form.relabels_eq_self hg items h]
  | .list items, h => by rw [Form.relabel, Form.relabels_eq_self hg items h]

theorem Form.relabels_eq_self (hg : ∀ k, g.node k = k) :
    (fs : List Form) → (∀ t ∈ Form.allLabels fs, g t = t) → Form.relabels g fs = fs
  | [], _ => rfl
  | f :: fs, h => by
      simp only [Form.allLabels, List.forall_mem_append] at h
      rw [Form.relabels, f.relabel_eq_self hg h.1, Form.relabels_eq_self hg fs h.2]

end

theorem Defect.relabel_eq_self (hg : ∀ k, g.node k = k) (d : Defect)
    (h : ∀ t ∈ d.labels, g t = t) : d.relabel g = d := by
  cases d with
  | unknownExpression form => exact congrArg _ (form.relabel_eq_self hg h)
  | unknownStatement form => exact congrArg _ (form.relabel_eq_self hg h)
  | _ => rfl

theorem Reference.relabel_eq_self (hg : ∀ k, g.node k = k) (r : Reference)
    (h : g r.name = r.name) : r.relabel g = r := by
  rw [Reference.relabel, h, hg]

mutual

theorem Expr.relabel_eq_self (hg : ∀ k, g.node k = k) :
    (e : Expr) → (∀ t ∈ e.labels, g t = t) → e.relabel g = e
  | .assign target value, h => by
      simp only [Expr.labels, List.forall_mem_cons] at h
      rw [Expr.relabel, target.relabel_eq_self hg h.1, value.relabel_eq_self hg h.2]
  | .binary left operator right, h => by
      simp only [Expr.labels, List.forall_mem_cons, List.forall_mem_append] at h
      rw [Expr.relabel, left.relabel_eq_self hg h.1, h.2.1, right.relabel_eq_self hg h.2.2]
  | .call callee paren arguments, h => by
      simp only [Expr.labels, List.forall_mem_cons, List.forall_mem_append] at h
      rw [Expr.relabel, callee.relabel_eq_self hg h.1, h.2.1,
        Expr.relabels_eq_self hg arguments h.2.2]
  | .conditional condition thenBranch elseBranch, h => by
      simp only [Expr.labels, List.forall_mem_append] at h
      rw [Expr.relabel, condition.relabel_eq_self hg h.1, thenBranch.relabel_eq_self hg h.2.1,
        elseBranch.relabel_eq_self hg h.2.2]
  | .get object name, h => by
      simp only [Expr.labels, List.forall_mem_cons] at h
      rw [Expr.relabel, object.relabel_eq_self hg h.2, h.1]
  | .grouping inner, h => by rw [Expr.relabel, inner.relabel_eq_self hg h]
  | .literal _, _ => rfl
  | .logical left operator right, h => by
      simp only [Expr.labels, List.forall_mem_cons, List.forall_mem_append] at h
      rw [Expr.relabel, left.relabel_eq_self hg h.1, h.2.1, right.relabel_eq_self hg h.2.2]
  | .set object name value, h => by
      simp only [Expr.labels, List.forall_mem_cons, List.forall_mem_append] at h
      rw [Expr.relabel, object.relabel_eq_self hg h.1, h.2.1, value.relabel_eq_self hg h.2.2]
  | .superRef keyword method, h => by
      simp only [Expr.labels, List.forall_mem_cons] at h
      rw [Expr.relabel, keyword.relabel_eq_self hg h.1, h.2.1]
  | .thisRef keyword, h => by
      rw [Expr.relabel, keyword.relabel_eq_self hg (h _ (by simp [Expr.labels]))]
  | .unary operator right, h => by
      simp only [Expr.labels, List.forall_mem_cons] at h
      rw [Expr.relabel, h.1, right.relabel_eq_self hg h.2]
  | .var name, h => by rw [Expr.relabel, name.relabel_eq_self hg (h _ (by simp [Expr.labels]))]
  | .misfit form, h => by rw [Expr.relabel, form.relabel_eq_self hg h]

theorem Expr.relabels_eq_self (hg : ∀ k, g.node k = k) :
    (es : List Expr) → (∀ t ∈ Expr.allLabels es, g t = t) → Expr.relabels g es = es
  | [], _ => rfl
  | e :: es, h => by
      simp only [Expr.allLabels, List.forall_mem_append] at h
      rw [Expr.relabels, e.relabel_eq_self hg h.1, Expr.relabels_eq_self hg es h.2]

end

theorem Expr.map_relabel_eq_self (hg : ∀ k, g.node k = k) (e : Option Expr)
    (h : ∀ t ∈ Expr.optionalLabels e, g t = t) :
    e.map (Expr.relabel g) = e := by
  cases e with
  | none => rfl
  | some e => exact congrArg some (e.relabel_eq_self hg h)

mutual

theorem Stmt.relabel_eq_self (hg : ∀ k, g.node k = k) :
    (s : Stmt) → (∀ t ∈ s.labels, g t = t) → s.relabel g = s
  | .block body, h => by
      rw [Stmt.labels] at h
      rw [Stmt.relabel, Stmt.relabels_eq_self hg body h]
  | .classDecl name superclass methods, h => by
      simp only [Stmt.labels, List.forall_mem_cons, List.forall_mem_append] at h
      have hsuperclass : superclass.map (Reference.relabel g) = superclass := by
        cases superclass with
        | none => rfl
        | some r => exact congrArg some (r.relabel_eq_self hg (h.2.1 _ (by simp)))
      rw [Stmt.relabel, h.1, hsuperclass, Function.relabels_eq_self hg methods h.2.2]
  | .expression inner, h => by
      rw [Stmt.labels] at h
      rw [Stmt.relabel, inner.relabel_eq_self hg h]
  | .funDecl function, h => by
      rw [Stmt.labels] at h
      rw [Stmt.relabel, function.relabel_eq_self hg h]
  | .ifElse condition thenBranch none, h => by
      simp only [Stmt.labels, List.forall_mem_append] at h
      rw [Stmt.relabel, condition.relabel_eq_self hg h.1, thenBranch.relabel_eq_self hg h.2]
  | .ifElse condition thenBranch (some elseBranch), h => by
      simp only [Stmt.labels, List.forall_mem_append] at h
      rw [Stmt.relabel, condition.relabel_eq_self hg h.1, thenBranch.relabel_eq_self hg h.2.1,
        elseBranch.relabel_eq_self hg h.2.2]
  | .print inner, h => by
      rw [Stmt.labels] at h
      rw [Stmt.relabel, inner.relabel_eq_self hg h]
  | .ret keyword value, h => by
      simp only [Stmt.labels, List.forall_mem_cons] at h
      rw [Stmt.relabel, h.1, Expr.map_relabel_eq_self hg value h.2]
  | .varDecl name initial, h => by
      simp only [Stmt.labels, List.forall_mem_cons] at h
      rw [Stmt.relabel, h.1, Expr.map_relabel_eq_self hg initial h.2]
  | .whileLoop condition body, h => by
      simp only [Stmt.labels, List.forall_mem_append] at h
      rw [Stmt.relabel, condition.relabel_eq_self hg h.1, body.relabel_eq_self hg h.2]
  | .misfit form, h => by
      rw [Stmt.labels] at h
      rw [Stmt.relabel, form.relabel_eq_self hg h]

theorem Stmt.relabels_eq_self (hg : ∀ k, g.node k = k) :
    (ss : List Stmt) → (∀ t ∈ Stmt.allLabels ss, g t = t) → Stmt.relabels g ss = ss
  | [], _ => by rw [Stmt.relabels]
  | s :: ss, h => by
      simp only [Stmt.allLabels, List.forall_mem_append] at h
      rw [Stmt.relabels, s.relabel_eq_self hg h.1, Stmt.relabels_eq_self hg ss h.2]

theorem Function.relabel_eq_self (hg : ∀ k, g.node k = k) :
    (f : Function) → (∀ t ∈ f.labels, g t = t) → f.relabel g = f
  | ⟨name, params, body⟩, h => by
      simp only [Function.labels, List.forall_mem_cons, List.forall_mem_append] at h
      rw [Function.relabel, h.1, List.map_congr_left h.2.1, List.map_id',
        Stmt.relabels_eq_self hg body h.2.2]

theorem Function.relabels_eq_self (hg : ∀ k, g.node k = k) :
    (fs : List Function) → (∀ t ∈ Function.allLabels fs, g t = t) → Function.relabels g fs = fs
  | [], _ => by rw [Function.relabels]
  | f :: fs, h => by
      simp only [Function.allLabels, List.forall_mem_append] at h
      rw [Function.relabels, f.relabel_eq_self hg h.1, Function.relabels_eq_self hg fs h.2]

end

end

theorem Defect.relabel_id (d : Defect) : d.relabel (id : Token → Token) = d :=
  d.relabel_eq_self (fun _ => rfl) fun _ _ => rfl

theorem Stmt.relabels_id (ss : List Stmt) : Stmt.relabels (id : Token → Token) ss = ss :=
  Stmt.relabels_eq_self (fun _ => rfl) ss fun _ _ => rfl

end Lox
