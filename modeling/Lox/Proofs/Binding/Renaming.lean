import Lox.Proofs.Binding.Statement
import Lox.Proofs.Parse.Natural
import Lox.Proofs.Scan.Rename

/-!
# Renaming locals

Two names of a source that look the same can belong to different declarations.
To tell them apart every name is made to carry its place, which is the number of
tokens in front of it; the walk over the program then says for every place what
stands there.

A renaming of locals writes a new name at the declaration of every local variable
and at exactly the references that the resolver binds to it.  If the new names
are fresh, all names are treated well.
-/

namespace Lox

/-!
# Names with places
-/

namespace Token

/-- A name that carries its place, where a number or string has its constant. -/
def placed (place : Nat) (t : Token) : Token :=
  if t.kind = .identifier then { t with literal := .text (String.ofList (.replicate place '.')) }
  else t

def place (t : Token) : Nat :=
  match t.literal with
  | .text marks => marks.length
  | _ => 0

def unplaced (t : Token) : Token :=
  if t.kind = .identifier then { t with literal := .nil } else t

def rewritten (names : Nat → String) (t : Token) : Token := t.unplaced.renamed (names t.place)

end Token

/-- The tokens of a source; its names carry their places. -/
def placedTokens (source : String) : List Token :=
  (scan source).tokens.zipIdx.map fun entry => entry.1.placed entry.2

namespace Binding

/-!
# What stands at each place
-/

def Visit.localName? : Visit → Option Token
  | .declare δ _ => if δ.isVariable then some δ.name else none
  | _ => none

/-- A reference to a local, with the name in the declaration that the resolver binds it to. -/
def Visit.bindings : Visit → List (Token × Token)
  | .refer name (some depth) layers =>
      ((layers[depth]?.elim [] Layer.declared).filter (·.name.lexeme == name.lexeme)).map
        fun δ => (name, δ.name)
  | _ => []

/-- A name that is neither a local variable nor refers to a local. -/
def Visit.other? : Visit → Option Token
  | .declare δ _ => if δ.isVariable then none else some δ.name
  | .refer name none _ => some name
  | .refer _ (some _) _ => none
  | .keep name => some name

/-- All names of a program, with the distances that the resolver finds. -/
def programVisits (program : List Stmt) : List Visit :=
  stmtsVisits (Locals.ofProgram program).depth? [] (Stmt.allNumbered 0 program)

def sourceVisits (source : String) : List Visit :=
  programVisits ((parse (placedTokens source)).result.getD [])

/-- The names in the declarations of local variables and parameters. -/
def localVariables (source : String) : List Token :=
  (sourceVisits source).filterMap Visit.localName?

/--
A renaming of locals.  It gives each local variable a name of its own, which does
not occur in the source, and the same name to all references to that variable.
The other names of the source are kept.
-/
structure RenamesLocals (source : String) (names : Nat → String) : Prop where
  isName : Segment.AllNames names (scan source).tokens.zipIdx
  fresh : ∀ t ∈ localVariables source, ∀ u ∈ (scan source).tokens, u.lexeme ≠ names t.place
  own : ∀ t ∈ localVariables source, ∀ u ∈ localVariables source,
    names t.place = names u.place → t = u
  bound : ∀ entry ∈ (sourceVisits source).flatMap Visit.bindings,
    names entry.1.place = names entry.2.place
  kept : ∀ t ∈ (sourceVisits source).filterMap Visit.other?, names t.place = t.lexeme

theorem renamesLocals_iff {source : String} {names : Nat → String} :
    RenamesLocals source names ↔
      Segment.AllNames names (scan source).tokens.zipIdx ∧
      (∀ t ∈ localVariables source, ∀ u ∈ (scan source).tokens, u.lexeme ≠ names t.place) ∧
      (∀ t ∈ localVariables source, ∀ u ∈ localVariables source,
        names t.place = names u.place → t = u) ∧
      (∀ entry ∈ (sourceVisits source).flatMap Visit.bindings,
        names entry.1.place = names entry.2.place) ∧
      ∀ t ∈ (sourceVisits source).filterMap Visit.other?, names t.place = t.lexeme := by
  constructor
  · intro h
    exact ⟨h.isName, h.fresh, h.own, h.bound, h.kept⟩
  · intro ⟨hisName, hfresh, hown, hbound, hkept⟩
    exact ⟨hisName, hfresh, hown, hbound, hkept⟩

instance (source : String) (names : Nat → String) : Decidable (RenamesLocals source names) :=
  decidable_of_iff _ renamesLocals_iff.symm

end Binding

/-!
# Taking the places away
-/

namespace Token

variable {t : Token}

theorem place_placed (ht : t.kind = .identifier) (k : Nat) : (t.placed k).place = k := by
  simp [placed, place, ht, ← String.length_toList]

theorem kind_placed (k : Nat) : (t.placed k).kind = t.kind := by
  unfold placed
  split <;> rfl

theorem lexeme_placed (k : Nat) : (t.placed k).lexeme = t.lexeme := by
  unfold placed
  split <;> rfl

theorem unplaced_placed (ht : t.kind = .identifier → t.literal = .nil) (k : Nat) :
    (t.placed k).unplaced = t := by
  by_cases hkind : t.kind = .identifier
  · rw [placed, if_pos hkind, unplaced, if_pos hkind, ← ht hkind]
  · simp [placed, unplaced, hkind]

theorem rewritten_placed (ht : t.kind = .identifier → t.literal = .nil) (names : Nat → String)
    (k : Nat) : (t.placed k).rewritten names = t.renamed (names k) := by
  rw [rewritten, unplaced_placed ht]
  by_cases hkind : t.kind = .identifier
  · rw [place_placed hkind]
  · simp [renamed, hkind]

theorem kind_unplaced (t : Token) : t.unplaced.kind = t.kind := by
  unfold unplaced
  split <;> rfl

theorem lexeme_unplaced (t : Token) : t.unplaced.lexeme = t.lexeme := by
  unfold unplaced
  split <;> rfl

theorem line_unplaced (t : Token) : t.unplaced.line = t.line := by
  unfold unplaced
  split <;> rfl

theorem kind_rewritten (names : Nat → String) (t : Token) : (t.rewritten names).kind = t.kind := by
  rw [rewritten, renamed]
  split <;> exact kind_unplaced t

theorem line_rewritten (names : Nat → String) (t : Token) : (t.rewritten names).line = t.line := by
  rw [rewritten, renamed]
  split <;> exact line_unplaced t

theorem lexeme_rewritten (names : Nat → String) (t : Token) :
    (t.rewritten names).lexeme = if t.kind = .identifier then names t.place else t.lexeme := by
  rw [rewritten, renamed, kind_unplaced]
  split
  · rfl
  · exact lexeme_unplaced t

theorem keepsSyntax_unplaced : KeepsSyntax unplaced := by
  refine ⟨kind_unplaced, ?_⟩
  intro t ht
  rw [unplaced, if_neg]
  intro hkind
  rw [hkind] at ht
  simp at ht

theorem keepsSyntax_rewritten (names : Nat → String) : KeepsSyntax (rewritten names) := by
  refine ⟨kind_rewritten names, ?_⟩
  intro t ht
  have hliteral : (t.rewritten names).literal = t.unplaced.literal := by
    rw [rewritten, renamed]
    split <;> rfl
  rw [hliteral]
  exact keepsSyntax_unplaced.literal t ht

end Token

theorem exists_of_mem_placedTokens {source : String} {t : Token} (ht : t ∈ placedTokens source) :
    ∃ u k, (u, k) ∈ (scan source).tokens.zipIdx ∧ u ∈ (scan source).tokens ∧ t = u.placed k := by
  rcases List.mem_map.mp ht with ⟨⟨u, k⟩, hentry, rfl⟩
  exact ⟨u, k, hentry, List.fst_mem_of_mem_zipIdx hentry, rfl⟩

section

variable {source : String}

theorem literal_of_mem_zipIdx {entry : Token × Nat} (hentry : entry ∈ (scan source).tokens.zipIdx)
    (hkind : entry.1.kind = .identifier) : entry.1.literal = .nil := by
  apply (word_of_mem_scan (List.fst_mem_of_mem_zipIdx hentry) _).2
  rw [hkind]
  rfl

theorem map_unplaced_placedTokens :
    (placedTokens source).map Token.unplaced = (scan source).tokens := by
  have hfst : (scan source).tokens.zipIdx.map Prod.fst = (scan source).tokens :=
    List.zipIdx_map_fst 0 _
  rw [placedTokens, List.map_map]
  refine Eq.trans ?_ hfst
  apply List.map_congr_left
  intro entry hentry
  exact Token.unplaced_placed (literal_of_mem_zipIdx hentry) _

theorem map_rewritten_placedTokens (names : Nat → String) :
    (placedTokens source).map (Token.rewritten names) =
      (scan source).tokens.zipIdx.map fun entry => entry.1.renamed (names entry.2) := by
  rw [placedTokens, List.map_map]
  apply List.map_congr_left
  intro entry hentry
  exact Token.rewritten_placed (literal_of_mem_zipIdx hentry) _ _

end

namespace Binding

/-!
# Renamed names are treated well
-/

section

variable {source : String} {names : Nat → String} (hnames : RenamesLocals source names)

include hnames

theorem RenamesLocals.lexeme_kept {name : Token} (hname : name.kind = .identifier)
    (hother : name ∈ (sourceVisits source).filterMap Visit.other?) :
    (name.rewritten names).lexeme = name.lexeme := by
  rw [Token.lexeme_rewritten, if_pos hname]
  exact hnames.kept name hother

theorem RenamesLocals.lexeme_not_variable {δ : Declaration}
    (hδ : Visited δ (sourceVisits source)) (hvariable : δ.isVariable = false)
    (hkind : δ.name.kind = .identifier) :
    (δ.name.rewritten names).lexeme = δ.name.lexeme := by
  rcases hδ with ⟨earlier, hδ⟩
  apply hnames.lexeme_kept hkind
  exact List.mem_filterMap.mpr ⟨_, hδ, by simp [Visit.other?, hvariable]⟩

omit hnames in
theorem mem_localVariables {δ : Declaration} (hδ : Visited δ (sourceVisits source))
    (hvariable : δ.isVariable = true) : δ.name ∈ localVariables source := by
  rcases hδ with ⟨earlier, hδ⟩
  exact List.mem_filterMap.mpr ⟨_, hδ, by simp [Visit.localName?, hvariable]⟩

theorem RenamesLocals.lexeme_of_eq {δ : Declaration} (hδ : Visited δ (sourceVisits source))
    (hkind : δ.name.kind = .identifier) {u : Token} (hu : u ∈ placedTokens source)
    (heq : (δ.name.rewritten names).lexeme = u.lexeme) : δ.name.lexeme = u.lexeme := by
  cases hvariable : δ.isVariable with
  | true =>
      rcases exists_of_mem_placedTokens hu with ⟨v, k, _, hv, rfl⟩
      rw [Token.lexeme_rewritten, if_pos hkind, Token.lexeme_placed] at heq
      exact absurd heq.symm (hnames.fresh _ (mem_localVariables hδ hvariable) v hv)
  | false =>
      rw [← heq]
      exact (hnames.lexeme_not_variable hδ hvariable hkind).symm

theorem RenamesLocals.lexeme_of_rewritten_eq {δ ε : Declaration}
    (hδ : Visited δ (sourceVisits source)) (hε : Visited ε (sourceVisits source))
    (hnamed : δ.name.Named (· ∈ placedTokens source))
    (hnamed' : ε.name.Named (· ∈ placedTokens source))
    (heq : (δ.name.rewritten names).lexeme = (ε.name.rewritten names).lexeme) :
    δ.name.lexeme = ε.name.lexeme := by
  cases hvariable : δ.isVariable with
  | false =>
      rw [hnames.lexeme_not_variable hδ hvariable hnamed.1] at heq
      exact (hnames.lexeme_of_eq hε hnamed'.1 hnamed.2 heq.symm).symm
  | true =>
      cases hvariable' : ε.isVariable with
      | false =>
          rw [hnames.lexeme_not_variable hε hvariable' hnamed'.1] at heq
          exact hnames.lexeme_of_eq hδ hnamed.1 hnamed'.2 heq
      | true =>
          rw [Token.lexeme_rewritten, Token.lexeme_rewritten, if_pos hnamed.1,
            if_pos hnamed'.1] at heq
          rw [hnames.own _ (mem_localVariables hδ hvariable) _ (mem_localVariables hε hvariable')
            heq]

theorem RenamesLocals.allGood :
    AllGood (· ∈ placedTokens source) (Token.rewritten names) (sourceVisits source) := by
  intro visit hvisit
  -- what is known at a name was visited, since nothing is known at the start
  have hvisited : ∀ δ ∈ visit.known, Visited δ (sourceVisits source) := by
    intro δ hδ
    rcases closed_stmts _ [] _ visit hvisit δ hδ with hnone | hvisited
    · cases hnone
    · exact hvisited
  have hother : ∀ name ∈ visit.other?,
      name ∈ (sourceVisits source).filterMap Visit.other? :=
    fun name hname => List.mem_filterMap.mpr ⟨visit, hvisit, hname⟩
  match visit with
  | .declare δ earlier =>
      intro hnamed hearlier hnew
      have hδ := hvisited δ List.mem_cons_self
      constructor
      · intro ε hε heq
        have hε' := hvisited ε (List.mem_cons_of_mem _ hε)
        exact hnew ε hε (hnames.lexeme_of_rewritten_eq hε' hδ (hearlier ε hε) hnamed heq)
      · intro hvariable
        exact hnames.lexeme_not_variable hδ hvariable hnamed.1
  | .refer name none Δ =>
      intro hnamed hlayers hundeclared
      have hkept := hnames.lexeme_kept hnamed.1 (hother name rfl)
      refine ⟨hkept, ?_⟩
      intro layer hlayer δ hδ heq
      rw [hkept] at heq
      have hδ' := hvisited δ (List.mem_flatMap.mpr ⟨layer, hlayer, hδ⟩)
      exact hundeclared layer hlayer δ hδ
        (hnames.lexeme_of_eq hδ' (hlayers layer hlayer δ hδ).1 hnamed.2 heq)
  | .refer name (some depth) Δ =>
      intro hnamed hlayers hundeclared layer hlayer δ hδ hsame
      have hlayer' : layer ∈ Δ := List.mem_of_getElem? hlayer
      have hδ' := hvisited δ (List.mem_flatMap.mpr ⟨layer, hlayer', hδ⟩)
      have hnamed' := hlayers layer hlayer' δ hδ
      have hbinding : (name, δ.name) ∈ (sourceVisits source).flatMap Visit.bindings := by
        refine List.mem_flatMap.mpr ⟨_, hvisit, ?_⟩
        simp only [Visit.bindings, hlayer, Option.elim_some]
        exact List.mem_map.mpr ⟨δ, List.mem_filter.mpr ⟨hδ, beq_iff_eq.mpr hsame⟩, rfl⟩
      have hbound : (name.rewritten names).lexeme = (δ.name.rewritten names).lexeme := by
        rw [Token.lexeme_rewritten, Token.lexeme_rewritten, if_pos hnamed.1, if_pos hnamed'.1]
        exact hnames.bound _ hbinding
      refine ⟨hbound, ?_⟩
      intro nearer hnearer ε hε heq
      have hnearer' : nearer ∈ Δ := List.mem_of_mem_take hnearer
      have hε' := hvisited ε (List.mem_flatMap.mpr ⟨nearer, hnearer', hε⟩)
      have hlexeme := hnames.lexeme_of_rewritten_eq hε' hδ' (hlayers nearer hnearer' ε hε) hnamed'
        (heq.trans hbound)
      exact hundeclared nearer hnearer ε hε (hlexeme.trans hsame)
  | .keep name =>
      by_cases hkind : name.kind = .identifier
      · exact hnames.lexeme_kept hkind (hother name rfl)
      · show (name.rewritten names).lexeme = name.lexeme
        rw [Token.lexeme_rewritten, if_neg hkind]

end

end Binding

end Lox
