import Lox.Proofs.Parse.Total
import Lox.Proofs.Resolve.Table

/-!
# Distances in a program

After resolving, the table gives every reference of a program the distance that
the positions of scopes and declarations give it, and the list of distances has
one entry for each of these references.
-/

namespace Lox

open Position

section

variable (program : List Stmt)

theorem entries_resolve :
    ∃ entries : List (Position × Distance),
      (resolve program).distances = entries.map Prod.snd ∧ (entries.map Prod.fst).Nodup ∧
        ∀ p entry, (p, entry) ∈ entries ↔ (Node.program program).Entry p entry := by
  rcases located_resolve program with ⟨located, hfindings, hbefore, hmem⟩
  refine ⟨pick Finding.distance? located, ?_, ?_, ?_⟩
  · rw [map_snd_pick, hfindings]
    rfl
  · rw [List.Nodup, List.pairwise_map]
    apply pairwise_pick hbefore
    rintro p q finding finding' hentry _ hfirst rfl
    rcases hfirst with hprecedes | ⟨_, hencloses | ⟨_, hloud⟩⟩
    · exact not_precedes_self p hprecedes
    · exact not_encloses_of_suffix List.suffix_rfl hencloses
    · cases finding with
      | violation _ _ => cases hentry
      | _ => exact hloud rfl
  · intro p entry
    rw [mem_pick]
    constructor
    · rintro ⟨finding, hfound, hentry⟩
      cases finding with
      | «local» node distance =>
          cases hentry
          exact ((hmem _ _).mp hfound).2
      | _ => cases hentry
    · intro hentry
      rcases hentry.1.1 with ⟨r, hreference, _⟩
      have hnumber : (Node.program program).numberAt? p = some r.node := by
        rw [Node.numberAt?, hreference]
        rfl
      exact ⟨.local r.node entry, (hmem _ _).mpr ⟨hnumber, hentry⟩, rfl⟩

end

section

variable {program : List Stmt} {p : Position} {kind : ReferenceKind} {r : Reference}

/-- The distance that the table gives a reference is the one that its position gives it. -/
theorem depth?_learn (l : Locals)
    (hreference : (Node.program (Stmt.allNumbered l.size program)).referenceAt? p =
      some (kind, r)) (d : Nat) :
    (l.learn (Stmt.allPlaces program)
        (resolve (Stmt.allNumbered l.size program)).findings).depth? r.node = some d ↔
      (Node.program (Stmt.allNumbered l.size program)).Entry p ⟨kind, r.name, d⟩ := by
  have hrising := rising_resolve l.size program
  have hnumber : (Node.program (Stmt.allNumbered l.size program)).numberAt? p = some r.node := by
    rw [Node.numberAt?, hreference]
    rfl
  -- what was found at this node was found at this position
  have hfound : ∀ entry, .local r.node entry ∈
      (resolve (Stmt.allNumbered l.size program)).findings ↔
        (Node.program (Stmt.allNumbered l.size program)).Entry p entry := by
    intro entry
    rw [mem_findings_iff]
    constructor
    · rintro ⟨q, hnumber', hentry⟩
      rw [Node.numberAt?_injective hnumber hnumber']
      exact hentry
    · intro hentry
      exact ⟨p, hnumber, hentry⟩
  constructor
  · intro hdepth
    by_cases hmem : ∃ entry, .local r.node entry ∈
        (resolve (Stmt.allNumbered l.size program)).findings
    · rcases hmem with ⟨entry, hmem⟩
      have htells := Locals.Tells.depth?_eq
        ⟨_, Locals.cells_learn_local hrising hmem, rfl⟩
      rw [hdepth] at htells
      have hentry := (hfound entry).mp hmem
      rcases hentry.1.1 with ⟨r', hreference', hname⟩
      cases hreference.symm.trans hreference'
      rcases entry with ⟨kind, name, depth⟩
      cases htells
      cases hname
      exact hentry
    · have hbounds := Node.numberAt?_bounds hnumber
      have htells := Locals.Tells.depth?_eq
        ⟨_, Locals.cells_learn_none hbounds.1 hbounds.2 (not_exists.mp hmem), rfl⟩
      rw [hdepth] at htells
      cases htells
  · intro hentry
    exact Locals.Tells.depth?_eq ⟨_, Locals.cells_learn_local hrising ((hfound _).mpr hentry), rfl⟩

end

/--
When the table has learnt of a parsed program, it gives every reference of it its
distance, as the scopes and the declarations around it tell, and older nodes keep
theirs.  The list of distances gets one entry for each reference that has a
distance, and no others.
-/
theorem resolve_distances_lexical (tokens : List Token) (l : Locals) :
    ∃ trees, (parse tokens).result = some trees ∧
      let program := Stmt.allNumbered l.size trees
      let behind := l.learn (Stmt.allPlaces trees) (resolve program).findings
      (∀ p kind r, (Node.program program).referenceAt? p = some (kind, r) →
        ∀ d, behind.depth? r.node = some d ↔
          (Node.program program).Entry p ⟨kind, r.name, d⟩) ∧
      (∀ node < l.size, behind.depth? node = l.depth? node) ∧
      ∃ entries : List (Position × Distance),
        behind.distances = l.distances ++ entries.map Prod.snd ∧ (entries.map Prod.fst).Nodup ∧
          ∀ p entry, (p, entry) ∈ entries ↔ (Node.program program).Entry p entry := by
  rcases parse_fresh tokens with ⟨trees, hparse, _, _⟩
  have hrising := rising_resolve l.size trees
  rcases entries_resolve (Stmt.allNumbered l.size trees) with ⟨entries, hentries, hnodup, hmem⟩
  refine ⟨trees, hparse, ?_, ?_, entries, ?_, hnodup, hmem⟩
  · intro p kind r hreference
    exact depth?_learn l hreference
  · intro node hlt
    rw [Locals.depth?, Locals.depth?, Locals.cells_learn_of_lt hrising hlt]
  · rw [Locals.distances_learn l hrising, ← hentries]
    rfl

end Lox
