import Lox.Proofs.Resolve.Scopes

/-!
# Findings at positions

The rules of the language, said of the position of a node and of what stands
around it, and the findings of the resolver: it finds at each position what is
to be found there, the broken rules in the order of the program.
-/

namespace Lox
namespace Node

open Position

variable (root : Node)

def referenceAt? (p : Position) : Option (ReferenceKind × Reference) :=
  (root.at? p).bind reference?

def numberAt? (p : Position) : Option NodeId := (root.referenceAt? p).map fun r => r.2.node

inductive Breaks (p : Position) : Token → Violation → Prop where
  | returnAtTopLevel {keyword : Token} {value : Option Expr} :
      root.at? p = some (stmt (.ret keyword value)) → root.nearest? function? p = none →
      Breaks p keyword .returnAtTopLevel
  | returnFromInitialiser {keyword : Token} {value : Expr} {f : Function} :
      root.at? p = some (stmt (.ret keyword (some value))) →
      root.nearest? function? p = some (true, f) → f.name.lexeme = initName →
      Breaks p keyword .returnFromInitialiser
  | thisOutsideClass {keyword : Reference} :
      root.at? p = some (expr (.thisRef keyword)) → root.nearest? class? p = none →
      Breaks p keyword.name .thisOutsideClass
  | superOutsideClass {keyword : Reference} {method : Token} :
      root.at? p = some (expr (.superRef keyword method)) → root.nearest? class? p = none →
      Breaks p keyword.name .superOutsideClass
  | superWithoutSuperclass {keyword : Reference} {method : Token} :
      root.at? p = some (expr (.superRef keyword method)) →
      root.nearest? class? p = some none →
      Breaks p keyword.name .superWithoutSuperclass
  | inheritsFromItself {cls : Token} {parent : Reference} :
      root.at? p = some (clause cls parent) → cls.lexeme = parent.name.lexeme →
      Breaks p parent.name .inheritsFromItself
  | alreadyDeclared {name : Token} {q : Position} :
      root.declaredAt? p = some name → (root.scopesAround p).head? = some q →
      root.Declares p q name.lexeme →
      Breaks p name .alreadyDeclared
  | readInOwnInitialiser {r : Reference} :
      root.at? p = some (expr (.var r)) → root.InInitialiser p r.name.lexeme →
      Breaks p r.name .readInOwnInitialiser

/-- A reference that is looked up: every one but a `this` outside all classes. -/
def LooksUp (p : Position) (kind : ReferenceKind) (name : Token) : Prop :=
  (∃ r, root.referenceAt? p = some (kind, r) ∧ r.name = name) ∧
    (kind = .this → root.nearest? class? p ≠ none)

def Entry (p : Position) (entry : Distance) : Prop :=
  root.LooksUp p entry.kind entry.name ∧ root.Distant p entry.name.lexeme entry.depth

def Finds (p : Position) : Finding → Prop
  | .violation token rule => root.Breaks p token rule
  | .local node entry => root.numberAt? p = some node ∧ root.Entry p entry
  | .global node name => root.numberAt? p = some node ∧
      (∃ kind, root.LooksUp p kind name) ∧ ∀ d, ¬ root.Distant p name.lexeme d
  | .defect _ => False

end Node

/-!
# Kinds of functions and classes
-/

theorem FunctionKind.of_eq_none {around : Option (Bool × Function)} :
    FunctionKind.of around = .none ↔ around = .none := by
  rcases around with _ | ⟨_ | _, f⟩
  · simp [FunctionKind.of]
  · simp [FunctionKind.of]
  · cases hinit : f.isInitialiser <;> simp [FunctionKind.of, Resolve.methodKind, hinit]

theorem FunctionKind.of_eq_initialiser {around : Option (Bool × Function)} :
    FunctionKind.of around = .initialiser ↔
      ∃ f, around = some (true, f) ∧ f.name.lexeme = initName := by
  rcases around with _ | ⟨_ | _, f⟩
  · simp [FunctionKind.of]
  · simp [FunctionKind.of]
  · by_cases hinit : f.name.lexeme = initName <;>
      simp [FunctionKind.of, Resolve.methodKind, Function.isInitialiser, hinit]

theorem ClassKind.of_eq_none {around : Option (Option Reference)} :
    ClassKind.of around = .none ↔ around = .none := by
  rcases around with _ | _ | _ <;> simp [ClassKind.of]

theorem ClassKind.of_eq_plain {around : Option (Option Reference)} :
    ClassKind.of around = .plain ↔ around = some .none := by
  rcases around with _ | _ | _ <;> simp [ClassKind.of]

/-!
# What the resolver finds at a node
-/

namespace Node

open Position

variable {root : Node} {p : Position} {ctx : Context} {S : Scopes} {node : Node}

theorem violation?_of_declared {name : Token} (hdeclared : node.declared? = some name) :
    node.violation? ctx S =
      if S.declaredHere name.lexeme then some (name, .alreadyDeclared) else none := by
  cases node with
  | stmt s =>
      cases s with
      | classDecl _ _ _ | funDecl _ | varDecl _ _ =>
          cases hdeclared
          rfl
      | _ => cases hdeclared
  | parameter _ =>
      cases hdeclared
      rfl
  | _ => cases hdeclared

/-- The parts of a scope with given names are scopes, and declare nothing in it. -/
theorem opens_of_given {part : Node} (hgiven : node.given ≠ []) (hpart : part ∈ node.parts) :
    part.opens = true ∧ part.declared? = none := by
  cases node with
  | thisScope methods =>
      rcases List.mem_map.mp hpart with ⟨f, _, rfl⟩
      exact ⟨rfl, rfl⟩
  | superScope methods =>
      cases List.mem_singleton.mp hpart
      exact ⟨rfl, rfl⟩
  | _ => exact absurd rfl hgiven

theorem given_of_declared {q : Position} {token : Token} {around : Node}
    (hnode : root.at? p = some node) (hdeclared : node.declared? = some token)
    (hhead : (root.scopesAround p).head? = some q) (haround : root.at? q = some around) :
    around.given = [] := by
  by_contra hgiven
  rcases encloses_iff.mp (encloses_of_mem_scopesAround (List.mem_of_head? hhead)) with
    ⟨inner, j, rfl⟩
  have hsuffix : j :: q <:+ inner ++ j :: q := List.suffix_append inner _
  rcases exists_at?_of_suffix hnode hsuffix with ⟨part, hpart⟩
  have hmem : part ∈ around.parts := by
    simp only [at?, haround, Option.bind_some] at hpart
    exact List.mem_of_getElem? hpart
  rcases opens_of_given hgiven hmem with ⟨hopens, hnone⟩
  rcases suffix_iff.mp hsuffix with heq | hencloses
  · rw [heq, hpart] at hnode
    cases hnode
    rw [hnone] at hdeclared
    cases hdeclared
  · have hinside := suffix_of_head?_scopesAround (opensAt_of hpart hopens) hencloses hhead
    exact absurd hinside.length_le (by simp)

theorem mem_reference_findings {kind : ReferenceKind} {r : Reference} {finding : Finding} :
    finding ∈ (Resolve.reference kind r S).findings ↔
      (∃ d, S.depth? r.name.lexeme = some d ∧ finding = .local r.node ⟨kind, r.name, d⟩) ∨
        S.depth? r.name.lexeme = none ∧ finding = .global r.node r.name := by
  cases hdepth : S.depth? r.name.lexeme <;> simp [Resolve.reference, hdepth]

namespace Sees

theorem declaredHere_iff {token : Token} {name : String} (hsees : root.Sees p ctx S)
    (hnode : root.at? p = some node) (hdeclared : node.declared? = some token) :
    S.declaredHere name = true ↔
      ∃ q, (root.scopesAround p).head? = some q ∧ root.Declares p q name := by
  have hscopes := hsees.scopes
  cases hpositions : root.scopesAround p with
  | nil =>
      rw [hpositions] at hscopes
      cases hscopes
      simp [Scopes.declaredHere]
  | cons q rest =>
      rw [hpositions] at hscopes
      cases hscopes with
      | cons hscope _ =>
          have hgiven : ¬ ∃ around, root.at? q = some around ∧ name ∈ around.given := by
            rintro ⟨around, haround, hname⟩
            rw [given_of_declared hnode hdeclared (by rw [hpositions]; rfl) haround] at hname
            cases hname
          rw [Scopes.declaredHere, hscope, Binds, or_iff_right hgiven]
          simp

theorem breaks_of_violation? {token : Token} {rule : Violation} (hsees : root.Sees p ctx S)
    (hnode : root.at? p = some node) (hdeclared : ¬ ∃ name, node.declared? = some name)
    (hbroken : node.violation? ctx S = some (token, rule)) : root.Breaks p token rule := by
  cases node with
  | stmt s =>
      cases s with
      | ret keyword value =>
          rw [violation?] at hbroken
          split at hbroken
          · rename_i hfunction
            cases hbroken
            exact .returnAtTopLevel hnode (FunctionKind.of_eq_none.mp (hsees.function ▸ hfunction))
          · split at hbroken
            · rename_i hinitialiser
              cases hbroken
              rcases Option.isSome_iff_exists.mp hinitialiser.1 with ⟨e, rfl⟩
              rcases FunctionKind.of_eq_initialiser.mp (hsees.function ▸ hinitialiser.2) with
                ⟨f, hfunction, hinit⟩
              exact .returnFromInitialiser hnode hfunction hinit
            · cases hbroken
      | classDecl _ _ _ | funDecl _ | varDecl _ _ => exact absurd ⟨_, rfl⟩ hdeclared
      | _ => cases hbroken
  | expr e =>
      cases e with
      | superRef keyword method =>
          rw [violation?] at hbroken
          split at hbroken
          · rename_i hcls
            cases hbroken
            exact .superOutsideClass hnode (ClassKind.of_eq_none.mp (hsees.cls ▸ hcls))
          · split at hbroken
            · rename_i hcls
              cases hbroken
              exact .superWithoutSuperclass hnode (ClassKind.of_eq_plain.mp (hsees.cls ▸ hcls))
            · cases hbroken
      | thisRef keyword =>
          rw [violation?] at hbroken
          split at hbroken
          · rename_i hcls
            cases hbroken
            exact .thisOutsideClass hnode (ClassKind.of_eq_none.mp (hsees.cls ▸ hcls))
          · cases hbroken
      | var r =>
          rw [violation?] at hbroken
          split at hbroken
          · rename_i hunfinished
            cases hbroken
            exact .readInOwnInitialiser hnode ((hsees.unfinished _).mp hunfinished)
          · cases hbroken
      | _ => cases hbroken
  | clause cls parent =>
      rw [violation?] at hbroken
      split at hbroken
      · rename_i hname
        cases hbroken
        exact .inheritsFromItself hnode hname
      · cases hbroken
  | parameter _ => exact absurd ⟨_, rfl⟩ hdeclared
  | _ => cases hbroken

theorem violation?_eq_some {token : Token} {rule : Violation} (hsees : root.Sees p ctx S)
    (hnode : root.at? p = some node) :
    node.violation? ctx S = some (token, rule) ↔ root.Breaks p token rule := by
  constructor
  · intro hbroken
    by_cases hdeclared : ∃ name, node.declared? = some name
    · rcases hdeclared with ⟨name, hdeclared⟩
      rw [violation?_of_declared hdeclared] at hbroken
      split at hbroken
      · cases hbroken
        rename_i hhere
        rcases (hsees.declaredHere_iff hnode hdeclared).mp hhere with ⟨q, hhead, hdeclares⟩
        refine .alreadyDeclared ?_ hhead hdeclares
        rw [declaredAt?, hnode]
        exact hdeclared
      · cases hbroken
    · exact hsees.breaks_of_violation? hnode hdeclared hbroken
  · intro hbreaks
    cases hbreaks with
    | returnAtTopLevel hat hfunction =>
        cases hnode.symm.trans hat
        have hctx := hsees.function.trans (FunctionKind.of_eq_none.mpr hfunction)
        simp [violation?, hctx]
    | returnFromInitialiser hat hfunction hinit =>
        cases hnode.symm.trans hat
        have hctx := hsees.function.trans (FunctionKind.of_eq_initialiser.mpr ⟨_, hfunction, hinit⟩)
        simp [violation?, hctx]
    | thisOutsideClass hat hcls =>
        cases hnode.symm.trans hat
        have hctx := hsees.cls.trans (ClassKind.of_eq_none.mpr hcls)
        simp [violation?, hctx]
    | superOutsideClass hat hcls =>
        cases hnode.symm.trans hat
        have hctx := hsees.cls.trans (ClassKind.of_eq_none.mpr hcls)
        simp [violation?, hctx]
    | superWithoutSuperclass hat hcls =>
        cases hnode.symm.trans hat
        have hctx := hsees.cls.trans (ClassKind.of_eq_plain.mpr hcls)
        simp [violation?, hctx]
    | inheritsFromItself hat hname =>
        cases hnode.symm.trans hat
        simp [violation?, hname]
    | alreadyDeclared hdeclared hhead hdeclares =>
        simp only [declaredAt?, hnode, Option.bind_some] at hdeclared
        have hhere := (hsees.declaredHere_iff hnode hdeclared).mpr ⟨_, hhead, hdeclares⟩
        rw [violation?_of_declared hdeclared, if_pos hhere]
    | readInOwnInitialiser hat hinside =>
        cases hnode.symm.trans hat
        simp [violation?, (hsees.unfinished _).mpr hinside]

theorem mem_violations {finding : Finding} (hsees : root.Sees p ctx S)
    (hnode : root.at? p = some node) :
    finding ∈ node.violations ctx S ↔ finding.diagnostic? ≠ none ∧ root.Finds p finding := by
  rw [violations, Option.mem_toList, Option.map_eq_some_iff]
  constructor
  · rintro ⟨broken, hbroken, rfl⟩
    exact ⟨nofun, (hsees.violation?_eq_some hnode).mp hbroken⟩
  · rintro ⟨hloud, hfinds⟩
    rcases finding with ⟨token, rule⟩ | _ | _ | _
    · exact ⟨(token, rule), (hsees.violation?_eq_some hnode).mpr hfinds, rfl⟩
    · exact absurd rfl hloud
    · exact absurd rfl hloud
    · exact absurd rfl hloud

theorem looksUp_iff {kind kind' : ReferenceKind} {r : Reference} {name : Token}
    (hsees : root.Sees p ctx S) (hnode : root.at? p = some node)
    (hreference : node.reference? = some (kind, r)) :
    root.LooksUp p kind' name ↔ kind = kind' ∧ r.name = name ∧ ¬ Idle ctx kind := by
  have hat : root.referenceAt? p = some (kind, r) := by
    rw [referenceAt?, hnode]
    exact hreference
  rw [LooksUp, hat, Idle, hsees.cls, ClassKind.of_eq_none]
  constructor
  · rintro ⟨⟨r', hr', hname⟩, hclass⟩
    cases hr'
    exact ⟨rfl, hname, fun hidle => hclass hidle.1 hidle.2⟩
  · rintro ⟨rfl, hname, hidle⟩
    exact ⟨⟨r, rfl, hname⟩, fun hthis hnone => hidle ⟨hthis, hnone⟩⟩

theorem mem_lookups {finding : Finding} (hsees : root.Sees p ctx S)
    (hnode : root.at? p = some node) :
    finding ∈ node.lookups ctx S ↔ finding.diagnostic? = none ∧ root.Finds p finding := by
  have hdistant : ∀ {name d}, S.depth? name = some d ↔ root.Distant p name d :=
    hsees.scopes.depth?_eq_some
  cases hreference : node.reference? with
  | none =>
      have hnot : ∀ kind name, ¬ root.LooksUp p kind name := by
        rintro kind name ⟨⟨r, hr, _⟩, _⟩
        simp [referenceAt?, hnode, hreference] at hr
      cases finding <;> simp [lookups, hreference, Finds, Entry, hnot, Finding.diagnostic?]
  | some found =>
      rcases found with ⟨kind, r⟩
      have hlooksUp : ∀ kind' name, root.LooksUp p kind' name ↔
          kind = kind' ∧ r.name = name ∧ ¬ Idle ctx kind :=
        fun _ _ => hsees.looksUp_iff hnode hreference
      by_cases hidle : Idle ctx kind
      · cases finding <;>
          simp [lookups, hreference, Finds, Entry, hlooksUp, hidle, Finding.diagnostic?]
      · have hnumber : root.numberAt? p = some r.node := by
          simp [numberAt?, referenceAt?, hnode, hreference]
        have hfound : node.lookups ctx S = (Resolve.reference kind r S).findings := by
          simp [lookups, hreference, hidle]
        rw [hfound, mem_reference_findings]
        constructor
        · rintro (⟨d, hd, rfl⟩ | ⟨hd, rfl⟩)
          · exact ⟨rfl, hnumber, (hlooksUp _ _).mpr ⟨rfl, rfl, hidle⟩, hdistant.mp hd⟩
          · refine ⟨rfl, hnumber, ⟨kind, (hlooksUp _ _).mpr ⟨rfl, rfl, hidle⟩⟩, ?_⟩
            intro d hdistance
            rw [hdistant.mpr hdistance] at hd
            cases hd
        · rintro ⟨hsilent, hfinds⟩
          rcases finding with ⟨token, rule⟩ | ⟨number, kind', name, d⟩ | ⟨number, name⟩ | defect
          · cases hsilent
          · rcases hfinds with ⟨hat, hlooks, hdistance⟩
            cases hnumber.symm.trans hat
            rcases (hlooksUp _ _).mp hlooks with ⟨rfl, rfl, _⟩
            exact Or.inl ⟨d, hdistant.mpr hdistance, rfl⟩
          · rcases hfinds with ⟨hat, ⟨kind', hlooks⟩, hnone⟩
            cases hnumber.symm.trans hat
            rcases (hlooksUp _ _).mp hlooks with ⟨rfl, rfl, _⟩
            refine Or.inr ⟨?_, rfl⟩
            exact Option.eq_none_iff_forall_ne_some.mpr fun d hd => hnone d (hdistant.mp hd)
          · cases hfinds

end Sees

theorem exists_at?_of_finds {finding : Finding} (hfinds : root.Finds p finding) :
    ∃ node, root.at? p = some node := by
  have hbind : ∀ {α : Type} {f : Node → Option α} {a : α}, (root.at? p).bind f = some a →
      ∃ node, root.at? p = some node := by
    intro α f a hsome
    rcases Option.bind_eq_some_iff.mp hsome with ⟨node, hnode, _⟩
    exact ⟨node, hnode⟩
  rcases finding with ⟨token, rule⟩ | ⟨node, entry⟩ | ⟨node, name⟩ | defect
  · cases hfinds with
    | alreadyDeclared hdeclared _ _ => exact hbind hdeclared
    | returnAtTopLevel hat _
    | returnFromInitialiser hat _ _
    | thisOutsideClass hat _
    | superOutsideClass hat _
    | superWithoutSuperclass hat _
    | inheritsFromItself hat _
    | readInOwnInitialiser hat _ => exact ⟨_, hat⟩
  · rcases hfinds with ⟨_, ⟨⟨r, hreference, _⟩, _⟩, _⟩
    exact hbind hreference
  · rcases hfinds with ⟨_, ⟨kind, ⟨r, hreference, _⟩, _⟩, _⟩
    exact hbind hreference
  · cases hfinds

theorem length_violations : (node.violations ctx S).length ≤ 1 := by
  rw [violations]
  exact Option.length_toList_le

theorem length_lookups : (node.lookups ctx S).length ≤ 1 := by
  rw [lookups]
  rcases node.reference? with _ | ⟨kind, r⟩
  · exact Nat.zero_le 1
  · by_cases hidle : Idle ctx kind
    · simp [hidle]
    · cases hdepth : S.depth? r.name.lexeme <;> simp [hidle, Resolve.reference, hdepth]

end Node
end Lox
