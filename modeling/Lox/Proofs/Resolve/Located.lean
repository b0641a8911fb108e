import Lox.Proofs.Resolve.Findings

/-!
# What the resolver finds in a program

A walk over a program comes to every position once.  So its findings are those of
all positions, each of them once: broken rules are found on the way in, and
references are looked up on the way out.
-/

namespace Lox

open Position

/-!
# Walking over the parts of a node
-/

namespace Node

/-- Nodes that are the parts of the node at a position, from the part with the given index on. -/
def Stands (root : Node) (whole : Position) (i : Nat) (nodes : List Node) : Prop :=
  ∃ node, root.at? whole = some node ∧ node.parts.drop i = nodes

variable {root : Node} {whole : Position} {i : Nat}

namespace Stands

variable {node : Node} {nodes : List Node}

theorem at? (hstands : root.Stands whole i (node :: nodes)) :
    root.at? (i :: whole) = some node := by
  rcases hstands with ⟨parent, hparent, hparts⟩
  rw [Node.at?, hparent, Option.bind_some, ← List.head?_drop, hparts]
  rfl

theorem next (hstands : root.Stands whole i (node :: nodes)) : root.Stands whole (i + 1) nodes := by
  rcases hstands with ⟨parent, hparent, hparts⟩
  refine ⟨parent, hparent, ?_⟩
  rw [← List.tail_drop, hparts]
  rfl

theorem inner (hstands : root.Stands whole i (node :: nodes)) :
    root.Stands (i :: whole) 0 node.parts :=
  ⟨node, hstands.at?, rfl⟩

theorem at?_eq_none {p : Position} (hstands : root.Stands whole i []) (hfrom : From whole i p) :
    root.at? p = none := by
  rcases hstands with ⟨parent, hparent, hparts⟩
  rcases hfrom with ⟨inner, j, hj, rfl⟩
  rw [Option.eq_none_iff_forall_ne_some]
  intro node hnode
  rcases exists_at?_of_suffix hnode (List.suffix_append inner _) with ⟨part, hpart⟩
  have hlt := lt_length_parts hparent hpart
  have hle := List.drop_eq_nil_iff.mp hparts
  omega

end Stands
end Node

namespace Walk

variable {root : Node} {ctx : Context} {S T U : Scopes} {nodes : List Node}
  {findings : List Finding}

/-- A walk keeps to the scopes and the context of the positions it comes to. -/
theorem sees (hwalk : Walk ctx S nodes U findings) :
    ∀ {whole : Position} {i : Nat}, root.Stands whole i nodes → root.Sees (i :: whole) ctx S →
      root.Sees ((i + nodes.length) :: whole) ctx U := by
  induction hwalk with
  | nil =>
      intro whole i _ hsees
      exact hsees
  | @cons ctx S T U node nodes _ _ hinner _ ihinner ihouter =>
      intro whole i hstands hsees
      have hend := ihinner hstands.inner (hsees.enter hstands.at?)
      rw [Nat.zero_add] at hend
      have hnext := hsees.leave hstands.at? hend hinner.tail_eq
      have houter := ihouter hstands.next hnext
      rw [List.length_cons, Nat.add_comm nodes.length, ← Nat.add_assoc]
      exact houter

theorem sees_next {node : Node} {nodes : List Node} {whole : Position} {i : Nat}
    (hinner : Walk (node.context ctx) (node.enter S) node.parts T findings)
    (hstands : root.Stands whole i (node :: nodes)) (hsees : root.Sees (i :: whole) ctx S) :
    root.Sees ((i + 1) :: whole) ctx (node.leave T) := by
  have hend := hinner.sees hstands.inner (hsees.enter hstands.at?)
  rw [Nat.zero_add] at hend
  exact hsees.leave hstands.at? hend hinner.tail_eq

end Walk

/-!
# Findings in order
-/

/--
One finding comes before another: its node comes first, or the second one is
found on the way out of a node and the first one in it or on the way in.
-/
def Before (a b : Position × Finding) : Prop :=
  Precedes a.1 b.1 ∨ b.2.diagnostic? = none ∧
    (Encloses b.1 a.1 ∨ a.1 = b.1 ∧ a.2.diagnostic? ≠ none)

theorem mem_map_at {p q : Position} {finding : Finding} {findings : List Finding} :
    (p, finding) ∈ findings.map (q, ·) ↔ p = q ∧ finding ∈ findings := by
  simp [eq_comm, and_comm]

theorem pairwise_at {R : Position × Finding → Position × Finding → Prop} {p : Position}
    {findings : List Finding} (hlength : findings.length ≤ 1) :
    (findings.map (p, ·)).Pairwise R := by
  rcases findings with _ | ⟨finding, _ | ⟨_, _⟩⟩
  · exact .nil
  · exact List.pairwise_singleton _ _
  · simp at hlength

/-- On the way in to a node, in its parts, on the way out, and behind it: in this order. -/
theorem pairwise_before {whole : Position} {i : Nat} {loud silent : List Finding}
    {inside behind : List (Position × Finding)}
    (hloud : loud.length ≤ 1 ∧ ∀ finding ∈ loud, finding.diagnostic? ≠ none)
    (hsilent : silent.length ≤ 1 ∧ ∀ finding ∈ silent, finding.diagnostic? = none)
    (hinside : inside.Pairwise Before ∧ ∀ found ∈ inside, From (i :: whole) 0 found.1)
    (hbehind : behind.Pairwise Before ∧ ∀ found ∈ behind, From whole (i + 1) found.1) :
    (loud.map (i :: whole, ·) ++ (inside ++ (silent.map (i :: whole, ·) ++ behind))).Pairwise
      Before := by
  rw [List.pairwise_append, List.pairwise_append, List.pairwise_append]
  refine ⟨pairwise_at hloud.1, ⟨hinside.1, ⟨pairwise_at hsilent.1, hbehind.1, ?_⟩, ?_⟩, ?_⟩
  · rintro ⟨p, finding⟩ hfirst found hfound
    rcases mem_map_at.mp hfirst with ⟨rfl, _⟩
    exact Or.inl (precedes_of_from List.suffix_rfl (hbehind.2 found hfound))
  · rintro found hfound ⟨q, finding⟩ hsecond
    have hencloses := encloses_of_from (hinside.2 found hfound)
    rcases List.mem_append.mp hsecond with hsecond | hsecond
    · rcases mem_map_at.mp hsecond with ⟨rfl, hfinding⟩
      exact Or.inr ⟨hsilent.2 finding hfinding, Or.inl hencloses⟩
    · exact Or.inl (precedes_of_from (suffix_iff.mpr (Or.inr hencloses)) (hbehind.2 _ hsecond))
  · rintro ⟨p, finding⟩ hfirst ⟨q, finding'⟩ hsecond
    rcases mem_map_at.mp hfirst with ⟨rfl, hfinding⟩
    rcases List.mem_append.mp hsecond with hsecond | hsecond
    · exact Or.inl (precedes_of_encloses (encloses_of_from (hinside.2 _ hsecond)))
    · rcases List.mem_append.mp hsecond with hsecond | hsecond
      · rcases mem_map_at.mp hsecond with ⟨rfl, hfinding'⟩
        exact Or.inr ⟨hsilent.2 finding' hfinding', Or.inr ⟨rfl, hloud.2 finding hfinding⟩⟩
      · exact Or.inl (precedes_of_from List.suffix_rfl (hbehind.2 _ hsecond))

namespace Walk

variable {root : Node} {ctx : Context} {S T U : Scopes} {nodes : List Node}
  {findings : List Finding}

/-- A walk finds what is to be found at the positions it comes to, in order. -/
theorem located (hwalk : Walk ctx S nodes U findings) :
    ∀ {whole : Position} {i : Nat}, root.Stands whole i nodes → root.Sees (i :: whole) ctx S →
      ∃ located : List (Position × Finding), located.map Prod.snd = findings ∧
        located.Pairwise Before ∧
        ∀ p finding, (p, finding) ∈ located ↔ From whole i p ∧ root.Finds p finding := by
  induction hwalk with
  | nil =>
      intro whole i hstands _
      refine ⟨[], rfl, .nil, ?_⟩
      intro p finding
      simp only [List.not_mem_nil, false_iff]
      rintro ⟨hfrom, hfinds⟩
      rcases Node.exists_at?_of_finds hfinds with ⟨node, hnode⟩
      rw [hstands.at?_eq_none hfrom] at hnode
      cases hnode
  | @cons ctx S T U node nodes _ _ hinner _ ihinner ihouter =>
      intro whole i hstands hsees
      have hnode := hstands.at?
      rcases ihinner hstands.inner (hsees.enter hnode) with ⟨inside, rfl, hinside, hmemInside⟩
      rcases ihouter hstands.next (hinner.sees_next hstands hsees) with
        ⟨behind, rfl, hbehind, hmemBehind⟩
      refine ⟨(node.violations ctx S).map (i :: whole, ·) ++ (inside ++
        ((node.lookups ctx S).map (i :: whole, ·) ++ behind)), ?_, ?_, ?_⟩
      · simp [Function.comp_def]
      · apply pairwise_before
        · exact ⟨Node.length_violations,
            fun _ hfinding => ((hsees.mem_violations hnode).mp hfinding).1⟩
        · exact ⟨Node.length_lookups, fun _ hfinding => ((hsees.mem_lookups hnode).mp hfinding).1⟩
        · exact ⟨hinside, fun _ hfound => ((hmemInside _ _).mp hfound).1⟩
        · exact ⟨hbehind, fun _ hfound => ((hmemBehind _ _).mp hfound).1⟩
      · intro p finding
        have hfroms : From whole i p ↔ _ := from_iff
        rw [List.mem_append, List.mem_append, List.mem_append, mem_map_at, mem_map_at, hmemInside,
          hmemBehind, hsees.mem_violations hnode, hsees.mem_lookups hnode, hfroms]
        constructor
        · rintro (⟨rfl, _, hfinds⟩ | ⟨hfrom, hfinds⟩ | ⟨rfl, _, hfinds⟩ | ⟨hfrom, hfinds⟩)
          · exact ⟨Or.inl rfl, hfinds⟩
          · exact ⟨Or.inr (Or.inl hfrom), hfinds⟩
          · exact ⟨Or.inl rfl, hfinds⟩
          · exact ⟨Or.inr (Or.inr hfrom), hfinds⟩
        · rintro ⟨rfl | hfrom | hfrom, hfinds⟩
          · by_cases hsilent : finding.diagnostic? = none
            · exact Or.inr (Or.inr (Or.inl ⟨rfl, hsilent, hfinds⟩))
            · exact Or.inl ⟨rfl, hsilent, hfinds⟩
          · exact Or.inr (Or.inl ⟨hfrom, hfinds⟩)
          · exact Or.inr (Or.inr (Or.inr ⟨hfrom, hfinds⟩))

end Walk

/-!
# Programs
-/

section

variable (program : List Stmt)

theorem stands_program : (Node.program program).Stands [] 0 (Node.program program).parts :=
  ⟨_, rfl, rfl⟩

theorem sees_program : (Node.program program).Sees [] {} [] := by
  refine ⟨.nil, ?_, rfl, rfl⟩
  intro name
  constructor
  · nofun
  · rintro ⟨q, token, initial, hencloses, _⟩
    cases hencloses

theorem located_resolve :
    ∃ located : List (Position × Finding), located.map Prod.snd = (resolve program).findings ∧
      located.Pairwise Before ∧
      ∀ p finding, (p, finding) ∈ located ↔ (Node.program program).Finds p finding := by
  have hsees := sees_program program
  rcases (walk_resolve program).located (stands_program program) (hsees.enter rfl) with
    ⟨located, hfindings, hbefore, hmem⟩
  refine ⟨located, hfindings, hbefore, ?_⟩
  intro p finding
  rw [hmem, and_iff_right_iff_imp]
  intro hfinds
  rcases eq_nil_or_from p with rfl | hfrom
  · by_cases hsilent : finding.diagnostic? = none
    · have hlookup := (hsees.mem_lookups rfl).mpr ⟨hsilent, hfinds⟩
      cases hlookup
    · have hviolation := (hsees.mem_violations rfl).mpr ⟨hsilent, hfinds⟩
      cases hviolation
  · exact hfrom

end

/-!
# Diagnostics and distances
-/

def pick (sort? : Finding → Option α) (located : List (Position × Finding)) :
    List (Position × α) :=
  located.filterMap fun found => (sort? found.2).map (found.1, ·)

section

variable {sort? : Finding → Option α} {located : List (Position × Finding)}

theorem map_snd_pick :
    (pick sort? located).map Prod.snd = (located.map Prod.snd).filterMap sort? := by
  rw [pick, List.map_filterMap, List.filterMap_map]
  apply List.filterMap_congr
  intro found _
  cases hsort : sort? found.2 <;> simp [hsort]

theorem mem_pick {p : Position} {a : α} :
    (p, a) ∈ pick sort? located ↔ ∃ finding, (p, finding) ∈ located ∧ sort? finding = some a := by
  simp [pick, List.mem_filterMap]

theorem pairwise_pick {R : Position → Position → Prop} (hbefore : located.Pairwise Before)
    (horder : ∀ {p q finding finding'}, (sort? finding).isSome → (sort? finding').isSome →
      Before (p, finding) (q, finding') → R p q) :
    (pick sort? located).Pairwise fun a b => R a.1 b.1 := by
  apply List.Pairwise.filterMap _ _ hbefore
  intro first second hfirst a ha b hb
  rcases Option.map_eq_some_iff.mp ha with ⟨_, hsort, rfl⟩
  rcases Option.map_eq_some_iff.mp hb with ⟨_, hsort', rfl⟩
  exact horder (Option.isSome_of_mem hsort) (Option.isSome_of_mem hsort') hfirst

end

/--
The diagnostics of a program are its broken rules, one by one and in the order in
which the resolver comes to them.
-/
theorem resolve_diagnostics_exact (program : List Stmt) :
    ∃ broken : List (Position × Token × Violation),
      (resolve program).diagnostics = broken.map (fun b => .atToken b.2.1 b.2.2) ∧
        broken.Pairwise (fun b b' => Precedes b.1 b'.1) ∧
        ∀ p token rule, (p, token, rule) ∈ broken ↔ (Node.program program).Breaks p token rule := by
  rcases located_resolve program with ⟨located, hfindings, hbefore, hmem⟩
  refine ⟨pick Finding.violation? located, ?_, ?_, ?_⟩
  · calc (resolve program).diagnostics
        = (located.map Prod.snd).filterMap Finding.diagnostic? := by
          rw [hfindings]
          rfl
      _ = ((located.map Prod.snd).filterMap Finding.violation?).map
            fun broken => .atToken broken.1 broken.2 := by
          rw [List.map_filterMap, funext Finding.diagnostic?_eq_map]
      _ = (pick Finding.violation? located).map fun b => .atToken b.2.1 b.2.2 := by
          rw [← map_snd_pick, List.map_map]
          rfl
  · apply pairwise_pick hbefore
    intro p q finding finding' _ hbroken hfirst
    rcases hfirst with hprecedes | ⟨hsilent, _⟩
    · exact hprecedes
    · rw [Finding.diagnostic?_eq_map, Option.map_eq_none_iff] at hsilent
      rw [hsilent] at hbroken
      cases hbroken
  · intro p token rule
    rw [mem_pick]
    constructor
    · rintro ⟨finding, hfound, hbroken⟩
      cases finding with
      | violation token rule =>
          cases hbroken
          exact (hmem _ _).mp hfound
      | _ => cases hbroken
    · intro hbreaks
      exact ⟨.violation token rule, (hmem _ _).mpr hbreaks, rfl⟩

end Lox
