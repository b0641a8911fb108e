import Mathlib.Data.List.Forall2
import Lox.Proofs.Resolve.Walk

/-!
# The scopes at a position

What a scope holds is said here by positions alone: the names declared in it
before the position from which one looks.  The resolver instead carries a stack
of scopes through the program.  At every position the two agree, and so do the
context and the function and class around the position.
-/

namespace Lox
namespace Node

open Position

variable (root : Node)

def declaredAt? (p : Position) : Option Token := (root.at? p).bind declared?

/-- Before the resolver comes to `p`, a name is declared in the scope at `q`. -/
def Declares (p q : Position) (name : String) : Prop :=
  ∃ r token, root.declaredAt? r = some token ∧ token.lexeme = name ∧
    (root.scopesAround r).head? = some q ∧ Precedes r p

def Binds (p q : Position) (name : String) : Prop :=
  (∃ node, root.at? q = some node ∧ name ∈ node.given) ∨ root.Declares p q name

/-- How many scopes lie between a position and the nearest scope that has a name. -/
def Distant (p : Position) (name : String) (distance : Nat) : Prop :=
  ∃ between q beyond, root.scopesAround p = between ++ q :: beyond ∧ root.Binds p q name ∧
    (∀ r ∈ between, ¬ root.Binds p r name) ∧ between.length = distance

def InInitialiser (p : Position) (name : String) : Prop :=
  ∃ q token initial, Encloses q p ∧ root.at? q = some (stmt (.varDecl token initial)) ∧
    root.scopesAround q ≠ [] ∧ token.lexeme = name

end Node

def FunctionKind.of : Option (Bool × Function) → FunctionKind
  | .none => .none
  | some (isMethod, f) => if isMethod then Resolve.methodKind f else .function

def ClassKind.of : Option (Option Reference) → ClassKind
  | .none => .none
  | some superclass => if superclass.isSome then .subclass else .plain

namespace Node

open Position

def Holds (binds : Position → String → Prop) (positions : List Position) (S : Scopes) : Prop :=
  List.Forall₂ (fun q scope => ∀ name, Scope.declares scope name = true ↔ binds q name) positions S

/-- The scopes and the context of the resolver are those of the position. -/
structure Sees (root : Node) (p : Position) (ctx : Context) (S : Scopes) : Prop where
  scopes : Holds (root.Binds p) (root.scopesAround p) S
  unfinished : ∀ name, S.unfinishedHere name = true ↔ root.InInitialiser p name
  function : ctx.function = .of (root.nearest? function? p)
  cls : ctx.cls = .of (root.nearest? class? p)

variable {root : Node}

/-!
# Declarations before a position
-/

theorem not_declares_self (p : Position) (name : String) : ¬ root.Declares p p name := by
  rintro ⟨r, token, _, _, hhead, hprecedes⟩
  have hencloses := encloses_of_mem_scopesAround (List.mem_of_head? hhead)
  rcases suffix_iff.mpr (Or.inr hencloses) with ⟨inner, rfl⟩
  exact not_precedes_append hprecedes

theorem declares_first {p q : Position} {name : String} {node : Node}
    (hnode : root.at? p = some node) :
    root.Declares (0 :: p) q name ↔ root.Declares p q name ∨
      ∃ token, node.declared? = some token ∧ token.lexeme = name ∧
        (root.scopesAround p).head? = some q := by
  constructor
  · rintro ⟨r, token, hdeclared, hname, hhead, hprecedes⟩
    rcases precedes_first.mp hprecedes with hprecedes | rfl
    · exact Or.inl ⟨r, token, hdeclared, hname, hhead, hprecedes⟩
    · refine Or.inr ⟨token, ?_, hname, hhead⟩
      simpa [declaredAt?, hnode] using hdeclared
  · rintro (⟨r, token, hdeclared, hname, hhead, hprecedes⟩ | ⟨token, hdeclared, hname, hhead⟩)
    · exact ⟨r, token, hdeclared, hname, hhead, precedes_first.mpr (Or.inl hprecedes)⟩
    · refine ⟨p, token, ?_, hname, hhead, precedes_first.mpr (Or.inr rfl)⟩
      simpa [declaredAt?, hnode] using hdeclared

theorem precedes_end {r whole : Position} {i : Nat} {node other : Node}
    (hnode : root.at? (i :: whole) = some node) (hr : root.at? r = some other) :
    Precedes r (node.parts.length :: i :: whole) ↔ Precedes r ((i + 1) :: whole) := by
  rw [precedes_cons, precedes_next]
  refine or_congr Iff.rfl ?_
  constructor
  · rintro (rfl | ⟨inner, j, _, rfl⟩)
    · exact List.suffix_rfl
    · exact ⟨inner ++ [j], by simp⟩
  · intro hsuffix
    rcases suffix_iff.mp hsuffix with rfl | hencloses
    · exact Or.inl rfl
    · rcases encloses_iff.mp hencloses with ⟨inner, j, rfl⟩
      rcases exists_at?_of_suffix hr (List.suffix_append inner _) with ⟨part, hpart⟩
      exact Or.inr ⟨inner, j, lt_length_parts hnode hpart, rfl⟩

theorem binds_first {p q : Position} {name : String} {node : Node}
    (hnode : root.at? p = some node) :
    root.Binds (0 :: p) q name ↔ root.Binds p q name ∨
      ∃ token, node.declared? = some token ∧ token.lexeme = name ∧
        (root.scopesAround p).head? = some q := by
  rw [Binds, Binds, declares_first hnode, or_assoc]

theorem binds_declared {p q : Position} {i : Nat} {token : Token} {node : Node}
    (hnode : root.at? p = some node) (hdeclared : node.declared? = some token)
    (hhead : q ∈ (root.scopesAround p).head?) : root.Binds (i :: p) q token.lexeme := by
  refine Or.inr ⟨p, token, ?_, rfl, hhead, precedes_cons.mpr (Or.inr (Or.inl rfl))⟩
  rw [declaredAt?, hnode]
  exact hdeclared

theorem declares_end {q whole : Position} {i : Nat} {name : String} {node : Node}
    (hnode : root.at? (i :: whole) = some node) :
    root.Declares (node.parts.length :: i :: whole) q name ↔
      root.Declares ((i + 1) :: whole) q name := by
  refine exists_congr fun r => exists_congr fun token => ?_
  refine and_congr_right fun hdeclared => and_congr_right fun _ => and_congr_right fun _ => ?_
  rcases Option.bind_eq_some_iff.mp hdeclared with ⟨other, hother, _⟩
  exact precedes_end hnode hother

theorem binds_end {q whole : Position} {i : Nat} {name : String} {node : Node}
    (hnode : root.at? (i :: whole) = some node) :
    root.Binds (node.parts.length :: i :: whole) q name ↔ root.Binds ((i + 1) :: whole) q name :=
  or_congr Iff.rfl (declares_end hnode)

theorem opensAt_of {p : Position} {node : Node} {b : Bool} (hnode : root.at? p = some node)
    (hopens : node.opens = b) : root.opensAt p = b := by
  rw [opensAt, hnode]
  exact hopens

/-- What is declared inside a scope is not declared in the scopes around it. -/
theorem declares_past {q whole : Position} {i : Nat} {name : String} {node : Node}
    (hnode : root.at? (i :: whole) = some node) (hopens : node.opens = true)
    (hdeclared : node.declared? = none) (hq : q ∈ root.scopesAround (i :: whole)) :
    root.Declares ((i + 1) :: whole) q name ↔ root.Declares (i :: whole) q name := by
  constructor
  · rintro ⟨r, token, hr, hname, hhead, hprecedes⟩
    rcases precedes_next.mp hprecedes with hprecedes | hsuffix
    · exact ⟨r, token, hr, hname, hhead, hprecedes⟩
    · exfalso
      rcases suffix_iff.mp hsuffix with rfl | hencloses
      · simp [declaredAt?, hnode, hdeclared] at hr
      · have hinside := suffix_of_head?_scopesAround (opensAt_of hnode hopens) hencloses hhead
        exact not_encloses_of_suffix hinside (encloses_of_mem_scopesAround hq)
  · rintro ⟨r, token, hr, hname, hhead, hprecedes⟩
    exact ⟨r, token, hr, hname, hhead, precedes_next.mpr (Or.inl hprecedes)⟩

theorem inInitialiser_cons {p : Position} {i : Nat} {name : String} {node : Node}
    (hnode : root.at? p = some node) :
    root.InInitialiser (i :: p) name ↔ root.InInitialiser p name ∨
      ∃ token initial, node = stmt (.varDecl token initial) ∧ root.scopesAround p ≠ [] ∧
        token.lexeme = name := by
  constructor
  · rintro ⟨q, token, initial, hencloses, hdecl, hlocal, hname⟩
    rcases encloses_cons.mp hencloses with rfl | hencloses
    · rw [hnode] at hdecl
      cases hdecl
      exact Or.inr ⟨token, initial, rfl, hlocal, hname⟩
    · exact Or.inl ⟨q, token, initial, hencloses, hdecl, hlocal, hname⟩
  · rintro (⟨q, token, initial, hencloses, hdecl, hlocal, hname⟩ |
      ⟨token, initial, rfl, hlocal, hname⟩)
    · exact ⟨q, token, initial, encloses_cons.mpr (Or.inr hencloses), hdecl, hlocal, hname⟩
    · exact ⟨p, token, initial, encloses_cons.mpr (Or.inl rfl), hnode, hlocal, hname⟩

theorem inInitialiser_part {p : Position} {i : Nat} {name : String} {node : Node}
    (hnode : root.at? p = some node)
    (hvariable : ∀ token initial, node ≠ stmt (.varDecl token initial)) :
    root.InInitialiser (i :: p) name ↔ root.InInitialiser p name := by
  rw [inInitialiser_cons hnode, or_iff_left]
  rintro ⟨token, initial, hdecl, _⟩
  exact hvariable token initial hdecl

theorem not_inInitialiser {p : Position} {name : String} {node : Node}
    (hnode : root.at? p = some node) (hexpr : ∀ e, node ≠ expr e) :
    ¬ root.InInitialiser p name := by
  rintro ⟨q, token, initial, hencloses, hdecl, _, _⟩
  rcases at?_inside_varDecl hdecl hencloses hnode with ⟨e, rfl⟩
  exact hexpr e rfl

theorem not_expr_of_declared {node : Node} {token : Token}
    (hdeclared : node.declared? = some token) :
    ∀ e, node ≠ expr e := by
  rintro e rfl
  cases hdeclared

theorem scopesAround_of_cons {p q : Position} {rest : List Position}
    (hscopes : root.scopesAround p = q :: rest) : rest = root.scopesAround q := by
  induction p with
  | nil => cases hscopes
  | cons i whole ih =>
      rw [scopesAround] at hscopes
      split at hscopes
      · cases hscopes
        rfl
      · exact ih hscopes

/-!
# One scope more, and one name more
-/

theorem Holds.congr {binds binds' : Position → String → Prop} {positions : List Position}
    {S : Scopes} (hholds : Holds binds positions S)
    (hsame : ∀ q ∈ positions, ∀ name, binds' q name ↔ binds q name) :
    Holds binds' positions S := by
  induction hholds with
  | nil => exact .nil
  | cons hscope _ ih =>
      apply List.Forall₂.cons
      · intro name
        rw [hscope, hsame _ List.mem_cons_self]
      · apply ih
        intro q hq
        exact hsame q (List.mem_cons_of_mem _ hq)

theorem declares_cons {scope : Scope} {name other : String} {b : Bool} :
    Scope.declares ((name, b) :: scope) other = true ↔
      Scope.declares scope other = true ∨ other = name := by
  by_cases hname : other = name
  · simp [Scope.declares, Scope.mark?, hname]
  · simp [Scope.declares, Scope.mark?, List.lookup_cons, beq_eq_false_iff_ne.mpr hname, hname]

theorem Holds.mark {binds binds' : Position → String → Prop} {positions : List Position}
    {S : Scopes} {name : String} {b : Bool} (hholds : Holds binds positions S)
    (hhead : ∀ q ∈ positions.head?, ∀ other, binds' q other ↔ binds q other ∨ other = name)
    (htail : ∀ q ∈ positions.tail, ∀ other, binds' q other ↔ binds q other) :
    Holds binds' positions (S.mark name b) := by
  cases hholds with
  | nil => exact .nil
  | cons hscope hrest =>
      apply List.Forall₂.cons
      · intro other
        rw [declares_cons, hscope, hhead _ rfl]
      · exact Holds.congr hrest htail

theorem Holds.remark {binds : Position → String → Prop} {positions : List Position}
    {S : Scopes} {name : String} {b : Bool} (hholds : Holds binds positions S)
    (hname : ∀ q ∈ positions.head?, binds q name) : Holds binds positions (S.mark name b) := by
  apply hholds.mark
  · intro q hq other
    rw [iff_self_or]
    rintro rfl
    exact hname q hq
  · intro q _ other
    rfl

theorem Holds.depth?_eq_some {binds : Position → String → Prop} {positions : List Position}
    {S : Scopes} {name : String} {depth : Nat} (hholds : Holds binds positions S) :
    S.depth? name = some depth ↔ ∃ between q beyond, positions = between ++ q :: beyond ∧
      binds q name ∧ (∀ r ∈ between, ¬ binds r name) ∧ between.length = depth := by
  induction hholds generalizing depth with
  | nil => simp [Scopes.depth?]
  | @cons q scope positions S hscope _ ih =>
      rw [Scopes.depth?, List.findIdx?_cons]
      by_cases hhere : binds q name
      · rw [if_pos ((hscope name).mpr hhere)]
        constructor
        · intro hdepth
          cases hdepth
          exact ⟨[], q, positions, rfl, hhere, nofun, rfl⟩
        · rintro ⟨between, r, beyond, hpositions, _, hnot, rfl⟩
          cases between with
          | nil => rfl
          | cons first between =>
              cases hpositions
              exact absurd hhere (hnot q List.mem_cons_self)
      · rw [if_neg (fun h => hhere ((hscope name).mp h)), Option.map_eq_some_iff]
        constructor
        · rintro ⟨k, hk, rfl⟩
          rcases ih.mp hk with ⟨between, r, beyond, rfl, hr, hnot, rfl⟩
          refine ⟨q :: between, r, beyond, rfl, hr, ?_, rfl⟩
          exact List.forall_mem_cons.mpr ⟨hhere, hnot⟩
        · rintro ⟨between, r, beyond, hpositions, hr, hnot, rfl⟩
          cases between with
          | nil =>
              cases hpositions
              exact absurd hr hhere
          | cons first between =>
              cases hpositions
              have hrest := (List.forall_mem_cons.mp hnot).2
              exact ⟨between.length, ih.mpr ⟨between, r, beyond, rfl, hr, hrest, rfl⟩, rfl⟩

theorem unfinishedHere_mark {S : Scopes} {name other : String} {b : Bool} :
    (S.mark name b).unfinishedHere other = true ↔
      (if other = name then S ≠ [] ∧ b = false else S.unfinishedHere other = true) := by
  cases S with
  | nil => simp [Scopes.mark, Scopes.unfinishedHere]
  | cons scope outer =>
      by_cases hname : other = name
      · cases b <;> simp [Scopes.mark, Scopes.unfinishedHere, Scope.mark?, hname]
      · simp [Scopes.mark, Scopes.unfinishedHere, Scope.mark?, List.lookup_cons,
          beq_eq_false_iff_ne.mpr hname, hname]

theorem unfinishedHere_finished {S : Scopes} {name other : String} :
    (S.finished name).unfinishedHere other = true ↔
      other ≠ name ∧ S.unfinishedHere other = true := by
  rw [Scopes.finished, unfinishedHere_mark, unfinishedHere_mark]
  by_cases hname : other = name <;> simp [hname]

theorem mark?_given (names : List String) (name : String) :
    Scope.mark? (names.map (·, true)) name = if name ∈ names then some true else none := by
  induction names with
  | nil => rfl
  | cons first names ih =>
      by_cases hname : name = first
      · simp [Scope.mark?, hname]
      · rw [Scope.mark?] at ih
        simp [Scope.mark?, List.lookup_cons, beq_eq_false_iff_ne.mpr hname, hname, ih]

/-!
# On the way in
-/

theorem nearest?_cons {sort? : Node → Option α} {p : Position} {i : Nat} {node : Node}
    (hnode : root.at? p = some node) :
    root.nearest? sort? (i :: p) = (sort? node).or (root.nearest? sort? p) := by
  rw [nearest?, hnode]
  rfl

theorem context_function {ctx : Context} {node : Node} {around : Option (Bool × Function)}
    (hctx : ctx.function = .of around) :
    (node.context ctx).function = .of (node.function?.or around) := by
  cases node with
  | function isMethod f => rfl
  | stmt s => cases s <;> exact hctx
  | _ => exact hctx

theorem context_cls {ctx : Context} {node : Node} {around : Option (Option Reference)}
    (hctx : ctx.cls = .of around) : (node.context ctx).cls = .of (node.class?.or around) := by
  cases node with
  | stmt s =>
      cases s with
      | classDecl name superclass methods => rfl
      | _ => exact hctx
  | _ => exact hctx

namespace Sees

variable {p whole : Position} {i : Nat} {ctx : Context} {S T : Scopes} {node : Node}

theorem not_unfinished (hsees : root.Sees p ctx S) (hnode : root.at? p = some node)
    (hexpr : ∀ e, node ≠ expr e) (name : String) : S.unfinishedHere name = false := by
  rw [← Bool.not_eq_true, hsees.unfinished]
  exact not_inInitialiser hnode hexpr

theorem holds_opened (hsees : root.Sees p ctx S) (hnode : root.at? p = some node)
    (hopens : node.opens = true) (hdeclared : node.declared? = none) :
    Holds (root.Binds (0 :: p)) (root.scopesAround (0 :: p))
      (node.given.map (·, true) :: S) := by
  have hbinds : ∀ q other, root.Binds (0 :: p) q other ↔ root.Binds p q other := by
    intro q other
    simp [binds_first hnode, hdeclared]
  rw [scopesAround, if_pos (opensAt_of hnode hopens)]
  apply List.Forall₂.cons
  · intro other
    have hgiven : root.Binds p p other ↔ other ∈ node.given := by
      simp [Binds, not_declares_self, hnode]
    rw [hbinds, hgiven, Scope.declares, mark?_given]
    split <;> simp_all
  · exact hsees.scopes.congr fun q _ other => hbinds q other

theorem holds_declared {name : Token} {b : Bool} (hsees : root.Sees p ctx S)
    (hnode : root.at? p = some node) (hdeclared : node.declared? = some name) :
    Holds (root.Binds (0 :: p)) (root.scopesAround p) (S.mark name.lexeme b) := by
  have hbinds : ∀ q other, root.Binds (0 :: p) q other ↔
      root.Binds p q other ∨ other = name.lexeme ∧ (root.scopesAround p).head? = some q := by
    intro q other
    simp [binds_first hnode, hdeclared, eq_comm]
  apply hsees.scopes.mark
  · intro q hq other
    rw [hbinds, and_iff_left (Option.mem_def.mp hq)]
  · intro q hq other
    rw [hbinds, or_iff_left]
    rintro ⟨_, hhead⟩
    -- The scopes further out are those around the innermost one.
    have hcons := List.eq_cons_of_mem_head? hhead
    rw [scopesAround_of_cons hcons] at hq
    exact not_encloses_of_suffix List.suffix_rfl (encloses_of_mem_scopesAround hq)

theorem enter (hsees : root.Sees p ctx S) (hnode : root.at? p = some node) :
    root.Sees (0 :: p) (node.context ctx) (node.enter S) := by
  have hfunction : (node.context ctx).function = .of (root.nearest? function? (0 :: p)) := by
    rw [nearest?_cons hnode]
    exact context_function hsees.function
  have hcls : (node.context ctx).cls = .of (root.nearest? class? (0 :: p)) := by
    rw [nearest?_cons hnode]
    exact context_cls hsees.cls
  have hsame : node.opens = false → root.scopesAround (0 :: p) = root.scopesAround p := by
    intro hopens
    rw [scopesAround, opensAt_of hnode hopens]
    rfl
  cases node.effect with
  | quiet hopens hdeclared henter _ =>
      rw [henter]
      refine ⟨?_, ?_, hfunction, hcls⟩
      · rw [hsame hopens]
        apply hsees.scopes.congr
        intro q _ other
        simp [binds_first hnode, hdeclared]
      · intro other
        rw [hsees.unfinished, inInitialiser_part hnode]
        rintro token initial rfl
        cases hdeclared
  | opening hopens hdeclared henter _ =>
      rw [henter]
      refine ⟨hsees.holds_opened hnode hopens hdeclared, ?_, hfunction, hcls⟩
      intro other
      have hnot : ¬ root.InInitialiser (0 :: p) other := by
        rw [inInitialiser_part hnode]
        · apply not_inInitialiser hnode
          rintro e rfl
          cases hopens
        · rintro token initial rfl
          cases hdeclared
      simp only [hnot, iff_false, Scopes.unfinishedHere, mark?_given]
      split <;> simp
  | declaring hopens hdeclared hvariable henter _ =>
      have hexpr := not_expr_of_declared hdeclared
      rw [henter]
      refine ⟨?_, ?_, hfunction, hcls⟩
      · rw [hsame hopens]
        exact (hsees.holds_declared hnode hdeclared).remark fun q hq =>
          binds_declared hnode hdeclared hq
      · intro other
        have hnot : ¬ root.InInitialiser (0 :: p) other := by
          rw [inInitialiser_part hnode]
          · exact not_inInitialiser hnode hexpr
          · rintro token initial rfl
            cases hdeclared
            exact hvariable initial rfl
        simp [unfinishedHere_finished, hsees.not_unfinished hnode hexpr, hnot]
  | @initialising name initial =>
      refine ⟨?_, ?_, hfunction, hcls⟩
      · rw [hsame rfl]
        exact hsees.holds_declared hnode rfl
      · intro other
        have hexpr : ∀ e, stmt (.varDecl name initial) ≠ expr e := not_expr_of_declared rfl
        have hlocal : root.scopesAround p ≠ [] ↔ S ≠ [] := by
          rw [Ne, Ne, ← List.length_eq_zero_iff, ← List.length_eq_zero_iff, hsees.scopes.length_eq]
        have hinside : root.InInitialiser (0 :: p) other ↔ S ≠ [] ∧ other = name.lexeme := by
          simp [inInitialiser_cons hnode, not_inInitialiser hnode hexpr, hlocal, eq_comm]
        rw [hinside, Node.enter, unfinishedHere_mark, hsees.not_unfinished hnode hexpr]
        split <;> simp_all

theorem leave (hsees : root.Sees (i :: whole) ctx S)
    (hnode : root.at? (i :: whole) = some node)
    (hinner : root.Sees (node.parts.length :: i :: whole) (node.context ctx) T)
    (htail : T.tail = (node.enter S).tail) :
    root.Sees ((i + 1) :: whole) ctx (node.leave T) := by
  have hsame : node.opens = false →
      root.scopesAround (node.parts.length :: i :: whole) =
        root.scopesAround ((i + 1) :: whole) := by
    intro hopens
    rw [scopesAround, opensAt_of hnode hopens]
    rfl
  have hholds : node.opens = false →
      Holds (root.Binds ((i + 1) :: whole)) (root.scopesAround ((i + 1) :: whole)) T := by
    intro hopens
    rw [← hsame hopens]
    exact hinner.scopes.congr fun q _ other => (binds_end hnode).symm
  -- The positions around do not change from one part to the next.
  have hinside : ∀ other, root.InInitialiser ((i + 1) :: whole) other ↔
      root.InInitialiser (i :: whole) other := fun _ => Iff.rfl
  cases node.effect with
  | quiet hopens hdeclared _ hleave =>
      rw [hleave]
      refine ⟨hholds hopens, ?_, hsees.function, hsees.cls⟩
      intro other
      rw [hinner.unfinished, hinside, inInitialiser_part hnode]
      rintro token initial rfl
      cases hdeclared
  | opening hopens hdeclared henter hleave =>
      have hback : T.tail = S := by
        rw [htail, henter]
        rfl
      rw [hleave, hback]
      refine ⟨?_, hsees.unfinished, hsees.function, hsees.cls⟩
      apply hsees.scopes.congr
      intro q hq other
      exact or_congr Iff.rfl (declares_past hnode hopens hdeclared hq)
  | declaring hopens hdeclared hvariable _ hleave =>
      rw [hleave]
      refine ⟨hholds hopens, ?_, hsees.function, hsees.cls⟩
      intro other
      rw [hinner.unfinished, hinside, inInitialiser_part hnode]
      rintro token initial rfl
      cases hdeclared
      exact hvariable initial rfl
  | initialising =>
      refine ⟨?_, ?_, hsees.function, hsees.cls⟩
      · exact (hholds rfl).remark fun q hq =>
          (binds_end hnode).mp (binds_declared hnode rfl hq)
      · intro other
        rw [hinside, Node.leave, unfinishedHere_mark]
        split
        · simp [not_inInitialiser hnode (not_expr_of_declared rfl)]
        · rw [hinner.unfinished, inInitialiser_cons hnode, or_iff_left]
          rintro ⟨token, initial', htoken, _, hname⟩
          cases htoken
          exact absurd hname.symm ‹_›

end Sees

end Node
end Lox
