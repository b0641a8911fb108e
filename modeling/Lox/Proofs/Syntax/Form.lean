import Lox.Proofs.Syntax.Relabel
import Lox.Syntax.Form

/-!
# Reading relabelled forms

How a form is read as a tree depends on its kinds and on the places of its
tokens, not on the tokens.  So reading commutes with every relabelling, also
where the form is a misfit.
-/

namespace Lox
namespace Form

section

variable {g : Relabelling}

/-!
# Shapes

A relabelled form has the shape of the form it comes from.
-/

theorem relabel_eq_node {f : Form} {kind : NodeKind} {fields : List Form} :
    f.relabel g = .node kind fields ↔
      ∃ fields', f = .node kind fields' ∧ relabels g fields' = fields := by
  cases f <;> simp [relabel, and_assoc]

theorem relabel_eq_token {f : Form} {t : Token} {k : NodeId} :
    f.relabel g = .token t k ↔ ∃ t' k', f = .token t' k' ∧ g t' = t ∧ g.node k' = k := by
  cases f <;> simp [relabel, and_assoc]

theorem relabel_eq_constant {f : Form} {value : Literal} :
    f.relabel g = .constant value ↔ f = .constant value := by
  cases f <;> simp [relabel]

theorem relabel_eq_row {f : Form} {items : List Form} :
    f.relabel g = .row items ↔ ∃ items', f = .row items' ∧ relabels g items' = items := by
  cases f <;> simp [relabel]

theorem relabels_eq_nil {fs : List Form} : relabels g fs = [] ↔ fs = [] := by
  cases fs <;> simp [relabels]

theorem relabels_eq_cons {fs : List Form} {f' : Form} {fs' : List Form} :
    relabels g fs = f' :: fs' ↔
      ∃ f rest, fs = f :: rest ∧ f.relabel g = f' ∧ relabels g rest = fs' := by
  cases fs <;> simp [relabels, and_assoc]

section

variable {f a b c : Form} {kind : NodeKind}

theorem node_of_relabel_one (hrelabel : f.relabel g = .node kind [a]) :
    ∃ a', f = .node kind [a'] ∧ a'.relabel g = a := by
  simp only [relabel_eq_node, relabels_eq_cons, relabels_eq_nil] at hrelabel
  obtain ⟨_, rfl, a', _, rfl, ha, rfl⟩ := hrelabel
  exact ⟨a', rfl, ha⟩

theorem node_of_relabel_two (hrelabel : f.relabel g = .node kind [a, b]) :
    ∃ a' b', f = .node kind [a', b'] ∧ a'.relabel g = a ∧ b'.relabel g = b := by
  simp only [relabel_eq_node, relabels_eq_cons, relabels_eq_nil] at hrelabel
  obtain ⟨_, rfl, a', _, rfl, ha, b', _, rfl, hb, rfl⟩ := hrelabel
  exact ⟨a', b', rfl, ha, hb⟩

theorem node_of_relabel_three (hrelabel : f.relabel g = .node kind [a, b, c]) :
    ∃ a' b' c', f = .node kind [a', b', c'] ∧
      a'.relabel g = a ∧ b'.relabel g = b ∧ c'.relabel g = c := by
  simp only [relabel_eq_node, relabels_eq_cons, relabels_eq_nil] at hrelabel
  obtain ⟨_, rfl, a', _, rfl, ha, b', _, rfl, hb, c', _, rfl, hc, rfl⟩ := hrelabel
  exact ⟨a', b', c', rfl, ha, hb, hc⟩

end

end

/-!
# Parts
-/

section

variable (g : Relabelling)

theorem isAbsent_relabel (f : Form) : (f.relabel g).isAbsent = f.isAbsent := by
  cases f <;> rfl

theorem sort_relabel (f : Form) : (f.relabel g).sort = f.sort := by
  cases f <;> rfl

theorem token?_relabel (f : Form) : (f.relabel g).token? = f.token?.map g := by
  cases f <;> rfl

theorem items?_relabel (f : Form) : (f.relabel g).items? = f.items?.map (relabels g) := by
  cases f with
  | constant value =>
      cases value with
      | text s => simp [relabel, items?, relabels_eq_map, Function.comp_def]
      | _ => rfl
  | _ => rfl

theorem lookup_zip_relabels (names : List String) (fields : List Form) (name : String) :
    (names.zip (relabels g fields)).lookup name =
      ((names.zip fields).lookup name).map (relabel g) := by
  induction names generalizing fields with
  | nil => rfl
  | cons other names ih =>
      cases fields with
      | nil => rfl
      | cons f fields =>
          rw [relabels, List.zip_cons_cons, List.zip_cons_cons, List.lookup_cons, List.lookup_cons]
          split
          · rfl
          · exact ih fields

theorem nameToken?_relabel (f : Form) : (f.relabel g).nameToken? = f.nameToken?.map g := by
  cases f with
  | node kind fields =>
      rw [relabel, nameToken?, nameToken?, lookup_zip_relabels]
      cases (kind.fieldNames.zip fields).lookup "name" with
      | none => rfl
      | some field => exact token?_relabel g field
  | _ => rfl

theorem mapM_token?_relabels (fields : List Form) :
    (relabels g fields).mapM token? = (fields.mapM token?).map (List.map g) := by
  induction fields with
  | nil => rfl
  | cons f fields ih =>
      rw [relabels, List.mapM_cons, List.mapM_cons, token?_relabel, ih]
      cases f.token? <;> cases fields.mapM token? <;> rfl

theorem tokens?_relabel (f : Form) : (f.relabel g).tokens? = f.tokens?.map (List.map g) := by
  cases f with
  | row fields => exact mapM_token?_relabels g fields
  | _ => rfl

theorem superclass?_relabel (f : Form) :
    (f.relabel g).superclass? = f.superclass?.map (Option.map (Reference.relabel g)) := by
  cases f with
  | constant value => cases value <;> rfl
  | node kind fields =>
      cases kind with
      | var =>
          rcases fields with _ | ⟨name, _ | ⟨_, _⟩⟩
          · rfl
          · cases name <;> rfl
          · cases name <;> rfl
      | _ => rfl
  | _ => rfl

end

/-!
# Expressions
-/

theorem expr_misfit_relabel {g : Relabelling} {f : Form} (hf : f.expr = .misfit f) :
    (f.relabel g).expr = .misfit (f.relabel g) := by
  rw [expr.eq_def]
  split
  case h_14 => rfl
  -- If the relabelled form fits, then so does the form itself.
  all_goals
    rename_i hrelabel
    simp only [relabel_eq_node, relabel_eq_token, relabel_eq_constant, relabel_eq_row,
      relabels_eq_cons, relabels_eq_nil] at hrelabel
    grind [expr]

theorem expr_and_exprs_relabel (g : Relabelling) :
    (∀ f : Form, (f.relabel g).expr = f.expr.relabel g) ∧
      ∀ fs, exprs (relabels g fs) = Expr.relabels g (exprs fs) := by
  apply expr.mutual_induct
  case case14 =>
    intro f
    intros
    have hmisfit : f.expr = .misfit f := by rw [expr] <;> assumption
    rw [expr_misfit_relabel hmisfit, hmisfit, Expr.relabel]
  all_goals
    intros
    simp only [relabel, relabels, expr, exprs, Expr.relabel, Expr.relabels, Reference.relabel, *]

variable (g : Relabelling)

theorem expr_relabel (f : Form) : (f.relabel g).expr = f.expr.relabel g :=
  (expr_and_exprs_relabel g).1 f

theorem exprs_relabel (fs : List Form) : exprs (relabels g fs) = Expr.relabels g (exprs fs) :=
  (expr_and_exprs_relabel g).2 fs

theorem optional_relabel (f : Form) :
    (f.relabel g).optional expr = (f.optional expr).map (Expr.relabel g) := by
  rw [optional, optional, isAbsent_relabel, expr_relabel]
  split <;> rfl

/-!
# Statements

A class or function declaration can also be a misfit because of what its parts
are read as, so these two are left out here.
-/

theorem stmt_misfit_relabel {f : Form} (hf : f.stmt = .misfit f)
    (hclass : ∀ name k superclass methods,
      f = .node .classDecl [.token name k, superclass, .row methods] → False)
    (hfun : ∀ name k params body,
      f = .node .funDecl [.token name k, params, .row body] → False) :
    (f.relabel g).stmt = .misfit (f.relabel g) := by
  rw [stmt.eq_def]
  split
  case h_11 => rfl
  all_goals
    rename_i hrelabel
    simp only [relabel_eq_node, relabel_eq_token, relabel_eq_constant, relabel_eq_row,
      relabels_eq_cons, relabels_eq_nil] at hrelabel
  case h_2 =>
    obtain ⟨_, hf, _, _, rfl, ⟨_, _, rfl, _⟩, _, _, rfl, _, _, _, rfl, ⟨_, rfl, _⟩, rfl⟩ :=
      hrelabel
    exact absurd hf (hclass _ _ _ _)
  case h_4 =>
    obtain ⟨_, hf, _, _, rfl, ⟨_, _, rfl, _⟩, _, _, rfl, _, _, _, rfl, ⟨_, rfl, _⟩, rfl⟩ :=
      hrelabel
    exact absurd hf (hfun _ _ _ _)
  all_goals grind [stmt]

theorem functions?_none_relabel {fs : List Form} (hnil : fs = [] → False)
    (hfun : ∀ name k params body rest,
      fs = .node .funDecl [.token name k, params, .row body] :: rest → False) :
    functions? (relabels g fs) = none := by
  rw [functions?.eq_def]
  split
  case h_3 => rfl
  all_goals
    rename_i hrelabel
    simp only [relabel_eq_node, relabel_eq_token, relabel_eq_row, relabels_eq_cons,
      relabels_eq_nil] at hrelabel
  · exact absurd hrelabel hnil
  · obtain ⟨_, _, hf, ⟨_, rfl, _, _, rfl, ⟨_, _, rfl, _⟩, _, _, rfl, _, _, _, rfl,
      ⟨_, rfl, _⟩, rfl⟩, _⟩ := hrelabel
    exact absurd hf (hfun _ _ _ _ _)

theorem stmt_and_stmts_relabel :
    (∀ f : Form, (f.relabel g).stmt = f.stmt.relabel g) ∧
      (∀ fs, functions? (relabels g fs) = (functions? fs).map (Function.relabels g)) ∧
      ∀ fs, stmts (relabels g fs) = Stmt.relabels g (stmts fs) := by
  apply stmt.mutual_induct
  case case2 =>
    intro name k parent methods superclass functions hfunctions hparent ih
    simp [relabel, relabels, stmt, Stmt.relabel, superclass?_relabel, ih, hparent, hfunctions]
  case case3 =>
    intro name k parent methods hmisfit ih
    simp only [relabel, relabels, stmt, superclass?_relabel, ih]
    cases hparent : parent.superclass? <;> cases hmethods : functions? methods <;>
      simp only [Option.map_none, Option.map_some, Stmt.relabel, relabel, relabels]
    exact (hmisfit _ _ hparent hmethods).elim
  case case5 =>
    intro name k params body tokens htokens ih
    simp [relabel, relabels, stmt, Stmt.relabel, Function.relabel, tokens?_relabel, htokens, ih]
  case case6 =>
    intro name k params body htokens
    simp [relabel, relabels, stmt, Stmt.relabel, tokens?_relabel, htokens]
  case case8 =>
    intro condition thenBranch elseBranch helse ihthen ihelse
    have helse' : elseBranch.relabel g = .constant .nil → False := by rwa [relabel_eq_constant]
    simp [relabel, relabels, stmt, Stmt.relabel, expr_relabel, *]
  case case13 =>
    intro f
    intros
    have hmisfit : f.stmt = .misfit f := by rw [stmt] <;> assumption
    rw [stmt_misfit_relabel g hmisfit ‹_› ‹_›, hmisfit, Stmt.relabel]
  case case15 =>
    intro name k params body fs ih ihbody
    simp only [relabel, relabels, functions?, tokens?_relabel, ih, ihbody]
    cases params.tokens? <;> cases functions? fs <;> simp [Function.relabels, Function.relabel]
  case case16 =>
    intro fs hnil hfun
    have hnone : functions? fs = none := by rw [functions?] <;> assumption
    rw [functions?_none_relabel g hnil hfun, hnone, Option.map_none]
  all_goals
    intros
    simp only [relabel, relabels, stmt, stmts, functions?, Stmt.relabel, Stmt.relabels,
      Function.relabels, expr_relabel, optional_relabel, Option.map_some, *]

theorem stmts_relabel (fs : List Form) : stmts (relabels g fs) = Stmt.relabels g (stmts fs) :=
  (stmt_and_stmts_relabel g).2.2 fs

end Form
end Lox
