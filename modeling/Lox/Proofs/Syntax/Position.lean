import Lox.Scope

/-!
# Nodes and positions

A program as a tree of nodes.  Besides statements and expressions, its nodes are
functions and their parameters, the superclass clause of a class, and the scopes
of `this` and `super` around the methods.  The parts of a node are listed in the
order in which the resolver comes to them.

A position is written from the inside out: the index of a node among the parts
of a larger one, and then the position of the larger one.
-/

namespace Lox

def Expr.operands : Expr → List Expr
  | .assign _ value => [value]
  | .binary left _ right => [left, right]
  | .call callee _ arguments => callee :: arguments
  | .conditional condition thenBranch elseBranch => [condition, thenBranch, elseBranch]
  | .get object _ => [object]
  | .grouping inner => [inner]
  | .literal _ => []
  | .logical left _ right => [left, right]
  | .set object _ value => [value, object]
  | .superRef _ _ => []
  | .thisRef _ => []
  | .unary _ right => [right]
  | .var _ => []
  | .misfit _ => []

inductive Node where
  | program (body : List Stmt)
  | stmt (s : Stmt)
  | expr (e : Expr)
  | function (method : Bool) (f : Function)
  | parameter (name : Token)
  | clause (cls : Token) (parent : Reference)
  | thisScope (methods : List Function)
  | superScope (methods : List Function)

namespace Node

def parts : Node → List Node
  | program body => body.map stmt
  | stmt (.block body) => body.map stmt
  | stmt (.classDecl _ none methods) => [thisScope methods]
  | stmt (.classDecl name (some parent) methods) => [clause name parent, superScope methods]
  | stmt (.expression inner) => [expr inner]
  | stmt (.funDecl f) => [function false f]
  | stmt (.ifElse condition thenBranch elseBranch) =>
      expr condition :: stmt thenBranch :: (elseBranch.map stmt).toList
  | stmt (.print inner) => [expr inner]
  | stmt (.ret _ value) => (value.map expr).toList
  | stmt (.varDecl _ initial) => (initial.map expr).toList
  | stmt (.whileLoop condition body) => [expr condition, stmt body]
  | stmt (.misfit _) => []
  | expr e => e.operands.map expr
  | function _ f => f.params.map parameter ++ f.body.map stmt
  | parameter _ => []
  | clause _ parent => [expr (.var parent)]
  | thisScope methods => methods.map (function true)
  | superScope methods => [thisScope methods]

def opens : Node → Bool
  | stmt (.block _) => true
  | function _ _ => true
  | thisScope _ => true
  | superScope _ => true
  | _ => false

def given : Node → List String
  | thisScope _ => ["this"]
  | superScope _ => ["super"]
  | _ => []

def declared? : Node → Option Token
  | stmt (.classDecl name _ _) => some name
  | stmt (.funDecl f) => some f.name
  | stmt (.varDecl name _) => some name
  | parameter name => some name
  | _ => none

def reference? : Node → Option (ReferenceKind × Reference)
  | expr (.assign target _) => some (.assign, target)
  | expr (.superRef keyword _) => some (.super, keyword)
  | expr (.thisRef keyword) => some (.this, keyword)
  | expr (.var name) => some (.variable, name)
  | _ => none

def function? : Node → Option (Bool × Function)
  | function method f => some (method, f)
  | _ => none

def class? : Node → Option (Option Reference)
  | stmt (.classDecl _ superclass _) => some superclass
  | _ => none

end Node

/-!
# Positions
-/

abbrev Position := List Nat

namespace Position

/-- The order in which the resolver comes to nodes: a node before its parts, and these in turn. -/
def Precedes (p q : Position) : Prop := p.reverse < q.reverse

/-- The node at the second position is a part of the first one, or a part of a part of it. -/
def Encloses (q : Position) : Position → Prop
  | [] => False
  | _ :: whole => q <:+ whole

/-- A position in one of the parts of a node, from the part with the given index on. -/
def From (whole : Position) (i : Nat) (p : Position) : Prop :=
  ∃ inner j, i ≤ j ∧ p = inner ++ j :: whole

theorem append_cons_lt_append_cons {i j : Nat} (hlt : i < j) (l s t : List Nat) :
    l ++ i :: s < l ++ j :: t := by
  induction l with
  | nil => exact List.cons_lt_cons_iff.mpr (Or.inl hlt)
  | cons a l ih => exact List.cons_lt_cons_iff.mpr (Or.inr ⟨rfl, ih⟩)

theorem not_append_lt (l : List Nat) {s : List Nat} : ¬ l ++ s < l := by
  induction l with
  | nil => exact List.not_lt_nil _
  | cons a l ih =>
      intro hlt
      rcases List.cons_lt_cons_iff.mp hlt with hlt | ⟨_, hlt⟩
      · exact Nat.lt_irrefl a hlt
      · exact ih hlt

theorem lt_append_cons (l s : List Nat) {i : Nat} : l < l ++ i :: s := by
  induction l with
  | nil => exact List.nil_lt_cons i s
  | cons a l ih => exact List.cons_lt_cons_iff.mpr (Or.inr ⟨rfl, ih⟩)

theorem lt_concat {l m : List Nat} {j : Nat} :
    l < m ++ [j] ↔ l < m ∨ l = m ∨ ∃ i s, i < j ∧ l = m ++ i :: s := by
  induction m generalizing l with
  | nil =>
      cases l with
      | nil => simp
      | cons a l => simp [List.cons_lt_cons_iff]
  | cons b m ih =>
      cases l with
      | nil => simp
      | cons a l =>
          simp only [List.cons_append, List.cons_lt_cons_iff, ih, List.cons.injEq]
          constructor
          · rintro (hlt | ⟨rfl, hlt | rfl | ⟨i, s, hi, rfl⟩⟩)
            · exact Or.inl (Or.inl hlt)
            · exact Or.inl (Or.inr ⟨rfl, hlt⟩)
            · exact Or.inr (Or.inl ⟨rfl, rfl⟩)
            · exact Or.inr (Or.inr ⟨i, s, hi, rfl, rfl⟩)
          · rintro ((hlt | ⟨rfl, hlt⟩) | ⟨rfl, rfl⟩ | ⟨i, s, hi, rfl, rfl⟩)
            · exact Or.inl hlt
            · exact Or.inr ⟨rfl, Or.inl hlt⟩
            · exact Or.inr ⟨rfl, Or.inr (Or.inl rfl)⟩
            · exact Or.inr ⟨rfl, Or.inr (Or.inr ⟨i, s, hi, rfl⟩)⟩

/-- What comes before a part: what comes before the whole, the whole, and the parts in front. -/
theorem precedes_cons {p q : Position} {j : Nat} :
    Precedes p (j :: q) ↔
      Precedes p q ∨ p = q ∨ ∃ inner i, i < j ∧ p = inner ++ i :: q := by
  rw [Precedes, List.reverse_cons, lt_concat, List.reverse_inj]
  refine or_congr Iff.rfl (or_congr Iff.rfl ?_)
  constructor
  · rintro ⟨i, s, hi, hp⟩
    refine ⟨s.reverse, i, hi, ?_⟩
    rw [← List.reverse_reverse p, hp]
    simp
  · rintro ⟨inner, i, hi, rfl⟩
    exact ⟨i, inner.reverse, hi, by simp⟩

theorem precedes_first {p q : Position} : Precedes p (0 :: q) ↔ Precedes p q ∨ p = q := by
  simp [precedes_cons]

/-- What comes before the next part: what comes before this one, and all that is in it. -/
theorem precedes_next {p whole : Position} {i : Nat} :
    Precedes p ((i + 1) :: whole) ↔ Precedes p (i :: whole) ∨ i :: whole <:+ p := by
  simp only [precedes_cons, Nat.lt_succ_iff_lt_or_eq]
  constructor
  · rintro (hp | hp | ⟨inner, j, hj | rfl, rfl⟩)
    · exact Or.inl (Or.inl hp)
    · exact Or.inl (Or.inr (Or.inl hp))
    · exact Or.inl (Or.inr (Or.inr ⟨inner, j, hj, rfl⟩))
    · exact Or.inr ⟨inner, rfl⟩
  · rintro ((hp | hp | ⟨inner, j, hj, rfl⟩) | ⟨inner, rfl⟩)
    · exact Or.inl hp
    · exact Or.inr (Or.inl hp)
    · exact Or.inr (Or.inr ⟨inner, j, Or.inl hj, rfl⟩)
    · exact Or.inr (Or.inr ⟨inner, i, Or.inr rfl, rfl⟩)

theorem precedes_of_lt {i j : Nat} (hlt : i < j) (inner inner' whole : Position) :
    Precedes (inner ++ i :: whole) (inner' ++ j :: whole) := by
  simp only [Precedes, List.reverse_append, List.reverse_cons, List.append_assoc,
    List.singleton_append]
  exact append_cons_lt_append_cons hlt _ _ _

theorem not_precedes_append {inner p : Position} : ¬ Precedes (inner ++ p) p := by
  rw [Precedes, List.reverse_append]
  exact not_append_lt p.reverse

theorem not_precedes_self (p : Position) : ¬ Precedes p p := List.lt_irrefl p.reverse

/-!
# Positions inside and outside
-/

theorem encloses_cons {p q : Position} {j : Nat} :
    Encloses q (j :: p) ↔ q = p ∨ Encloses q p := by
  cases p with
  | nil => simp [Encloses]
  | cons i whole => exact List.suffix_cons_iff

theorem suffix_iff {p q : Position} : q <:+ p ↔ p = q ∨ Encloses q p := by
  cases p with
  | nil => simp [Encloses, eq_comm]
  | cons i whole => rw [List.suffix_cons_iff, eq_comm, Encloses]

theorem encloses_iff {p q : Position} :
    Encloses q p ↔ ∃ inner j, p = inner ++ j :: q := by
  induction p with
  | nil => simp [Encloses]
  | cons i p ih =>
      rw [encloses_cons, ih]
      constructor
      · rintro (rfl | ⟨inner, j, rfl⟩)
        · exact ⟨[], i, rfl⟩
        · exact ⟨i :: inner, j, rfl⟩
      · rintro ⟨inner, j, hp⟩
        cases inner with
        | nil =>
            cases hp
            exact Or.inl rfl
        | cons k inner =>
            cases hp
            exact Or.inr ⟨inner, j, rfl⟩

theorem precedes_of_encloses {p q : Position} (hencloses : Encloses q p) : Precedes q p := by
  rcases encloses_iff.mp hencloses with ⟨inner, j, rfl⟩
  simp only [Precedes, List.reverse_append, List.reverse_cons, List.append_assoc,
    List.singleton_append]
  exact lt_append_cons _ _

theorem not_encloses_of_suffix {p q : Position} (hsuffix : p <:+ q) : ¬ Encloses q p := by
  intro hencloses
  rcases encloses_iff.mp hencloses with ⟨inner, j, rfl⟩
  have hlength := hsuffix.length_le
  simp at hlength
  omega

theorem from_iff {p whole : Position} {i : Nat} :
    From whole i p ↔ p = i :: whole ∨ From (i :: whole) 0 p ∨ From whole (i + 1) p := by
  constructor
  · rintro ⟨inner, j, hj, rfl⟩
    rcases Nat.eq_or_lt_of_le hj with rfl | hj
    · rcases suffix_iff.mp (List.suffix_append inner (i :: whole)) with hp | hencloses
      · exact Or.inl hp
      · rcases encloses_iff.mp hencloses with ⟨inner', k, hp⟩
        exact Or.inr (Or.inl ⟨inner', k, Nat.zero_le k, hp⟩)
    · exact Or.inr (Or.inr ⟨inner, j, hj, rfl⟩)
  · rintro (rfl | ⟨inner, j, _, rfl⟩ | ⟨inner, j, hj, rfl⟩)
    · exact ⟨[], i, Nat.le_refl i, rfl⟩
    · exact ⟨inner ++ [j], i, Nat.le_refl i, by simp⟩
    · exact ⟨inner, j, Nat.le_of_succ_le hj, rfl⟩

theorem encloses_of_from {p whole : Position} {i : Nat} (hfrom : From whole i p) :
    Encloses whole p := by
  rcases hfrom with ⟨inner, j, _, rfl⟩
  exact encloses_iff.mpr ⟨inner, j, rfl⟩

theorem eq_nil_or_from (p : Position) : p = [] ∨ From [] 0 p := by
  rcases List.eq_nil_or_concat p with rfl | ⟨inner, j, rfl⟩
  · exact Or.inl rfl
  · exact Or.inr ⟨inner, j, Nat.zero_le j, List.concat_eq_append⟩

theorem precedes_of_from {p q whole : Position} {i : Nat} (hp : i :: whole <:+ p)
    (hq : From whole (i + 1) q) : Precedes p q := by
  rcases hp with ⟨inner, rfl⟩
  rcases hq with ⟨inner', j, hj, rfl⟩
  exact precedes_of_lt hj inner inner' whole

end Position

/-!
# Nodes at positions
-/

namespace Node

open Position

def at? (root : Node) : Position → Option Node
  | [] => some root
  | i :: whole => (root.at? whole).bind fun node => node.parts[i]?

def opensAt (root : Node) (p : Position) : Bool := (root.at? p).any opens

/-- The positions of the scopes around a position, from the inside out. -/
def scopesAround (root : Node) : Position → List Position
  | [] => []
  | _ :: whole =>
      if root.opensAt whole then whole :: root.scopesAround whole else root.scopesAround whole

/-- The nearest node around a position that is of the sort asked for. -/
def nearest? (root : Node) (sort? : Node → Option α) : Position → Option α
  | [] => none
  | _ :: whole => ((root.at? whole).bind sort?).or (root.nearest? sort? whole)

variable {root : Node}

theorem exists_at?_of_suffix {p q : Position} {node : Node} (hnode : root.at? p = some node)
    (hsuffix : q <:+ p) : ∃ whole, root.at? q = some whole := by
  rcases hsuffix with ⟨inner, rfl⟩
  induction inner generalizing node with
  | nil => exact ⟨node, hnode⟩
  | cons i inner ih =>
      rcases Option.bind_eq_some_iff.mp hnode with ⟨whole, hwhole, _⟩
      exact ih hwhole

theorem lt_length_parts {whole : Position} {i : Nat} {node part : Node}
    (hnode : root.at? whole = some node) (hpart : root.at? (i :: whole) = some part) :
    i < node.parts.length := by
  simp only [at?, hnode, Option.bind_some] at hpart
  exact (List.getElem?_eq_some_iff.mp hpart).1

theorem encloses_of_mem_scopesAround {p q : Position} (hq : q ∈ root.scopesAround p) :
    Encloses q p := by
  induction p with
  | nil => cases hq
  | cons i whole ih =>
      rw [encloses_cons]
      rw [scopesAround] at hq
      split at hq
      · rcases List.mem_cons.mp hq with rfl | hq
        · exact Or.inl rfl
        · exact Or.inr (ih hq)
      · exact Or.inr (ih hq)

/-- The nearest scope lies inside every other scope around a position. -/
theorem suffix_of_head?_scopesAround {p q r : Position} (hopens : root.opensAt q = true)
    (hencloses : Encloses q p) (hhead : (root.scopesAround p).head? = some r) : q <:+ r := by
  induction p with
  | nil => cases hencloses
  | cons i whole ih =>
      rw [scopesAround] at hhead
      rcases encloses_cons.mp hencloses with rfl | hencloses
      · rw [if_pos hopens] at hhead
        cases hhead
        exact List.suffix_rfl
      · split at hhead
        · cases hhead
          rcases encloses_iff.mp hencloses with ⟨inner, j, rfl⟩
          exact ⟨inner ++ [j], by simp⟩
        · exact ih hencloses hhead

theorem at?_inside_expr {p : Position} {e : Expr} (hexpr : root.at? p = some (expr e))
    {inner : Position} {node : Node} (hnode : root.at? (inner ++ p) = some node) :
    ∃ e, node = expr e := by
  induction inner generalizing node with
  | nil =>
      rw [List.nil_append, hexpr] at hnode
      cases hnode
      exact ⟨e, rfl⟩
  | cons i inner ih =>
      rcases Option.bind_eq_some_iff.mp hnode with ⟨whole, hwhole, hpart⟩
      rcases ih hwhole with ⟨e', rfl⟩
      rcases List.mem_map.mp (List.mem_of_getElem? hpart) with ⟨e'', _, rfl⟩
      exact ⟨e'', rfl⟩

theorem at?_inside_varDecl {p q : Position} {name : Token} {initial : Option Expr}
    (hdecl : root.at? q = some (stmt (.varDecl name initial))) (hencloses : Encloses q p)
    {node : Node} (hnode : root.at? p = some node) : ∃ e, node = expr e := by
  rcases encloses_iff.mp hencloses with ⟨inner, j, rfl⟩
  have hsuffix : j :: q <:+ inner ++ j :: q := List.suffix_append inner _
  rcases exists_at?_of_suffix hnode hsuffix with ⟨part, hpart⟩
  have hmem : part ∈ (initial.map expr).toList := by
    simp only [at?, hdecl, Option.bind_some] at hpart
    exact List.mem_of_getElem? hpart
  cases initial with
  | none => cases hmem
  | some e =>
      cases List.mem_singleton.mp hmem
      exact at?_inside_expr hpart hnode

end Node
end Lox
