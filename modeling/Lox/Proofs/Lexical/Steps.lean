import Lox.Proofs.Lexical.Agree
import Lox.Proofs.Machine

/-!
# Single steps of two machines

What one step on environments, functions, classes and instances does to a stage.
Each step keeps the machines related and lets the stage grow.
-/

namespace Lox

namespace Lexical

theorem AlikeBindings.get? {naming : Naming} {values values' : Bindings} {name name' : String}
    (halike : AlikeBindings naming values values') (hname : naming.pairs name name') :
    values'.get? name' = values.get? name := by
  induction halike with
  | nil => rfl
  | @cons entry entry' rest rest' hentry _ ih =>
      have hiff := naming.one_to_one hname hentry.1
      rw [Bindings.get?_cons, Bindings.get?_cons, ih, hentry.2]
      by_cases heq : name = entry.1
      · rw [if_pos heq, if_pos (hiff.mp heq)]
      · rw [if_neg heq, if_neg fun heq' => heq (hiff.mpr heq')]

theorem AlikeBindings.insert {naming : Naming} {values values' : Bindings} {name name' : String}
    (halike : AlikeBindings naming values values') (hname : naming.pairs name name')
    (value : Value) :
    AlikeBindings naming (values.insert name value) (values'.insert name' value) := by
  induction halike with
  | nil => exact .cons ⟨hname, rfl⟩ .nil
  | @cons entry entry' rest rest' hentry hrest ih =>
      have hiff := naming.one_to_one hentry.1 hname
      unfold Bindings.insert
      by_cases heq : entry.1 = name
      · rw [if_pos heq, if_pos (hiff.mp heq)]
        exact .cons ⟨hname, rfl⟩ hrest
      · rw [if_neg heq, if_neg fun heq' => heq (hiff.mpr heq')]
        exact .cons hentry ih

/-!
# Steps on environments
-/

namespace Stage

def define (st : Stage) (e : EnvId) (name name' : String) (value : Value) : Stage :=
  { st with
    left := { st.left with environments := st.left.environments.define e name value }
    right := { st.right with environments := st.right.environments.define e name' value } }

def create (st : Stage) (kind : EnvKind) (outer : EnvId) (values values' : Bindings) : Stage :=
  { st with
    kinds := fun e => if e = st.left.environments.size then kind else st.kinds e
    left := { st.left with environments := st.left.environments.create (some outer) values }
    right := { st.right with environments := st.right.environments.create (some outer) values' } }

end Stage

section

variable {sides : Sides} {st : Stage}

theorem grows_define {e : EnvId} {naming : Naming} (hkind : st.kinds e = .names naming)
    (name name' : String) (value : Value) : Grows st (st.define e name name' value) where
  lead := rfl
  current := rfl
  size := Nat.le_of_eq (Environments.size_define _ _ _ _).symm
  kinds _ _ := rfl
  enclosing k _ := Environments.enclosing_define _ e k name value
  binds k _ hbinds := Environments.binds_define _ e k hbinds
  fixed k _ hfixed := by
    apply Environments.values_define_ne
    intro hk
    exact hfixed naming (hk ▸ hkind)
  functions _ _ hclosure := hclosure
  functions' _ _ hclosure := hclosure

theorem Related.define {e : EnvId} {naming : Naming} {name name' : String} {value : Value}
    (hrelated : Related sides st) (hkind : st.kinds e = .names naming)
    (hname : naming.pairs name name')
    (hvalue : Sound sides (st.define e name name' value) value) :
    Related sides (st.define e name name' value) := by
  have hgrows := grows_define hkind name name' value
  refine { hrelated with
    globals_lt := Nat.lt_of_lt_of_le hrelated.globals_lt hgrows.size
    size := ?_, enclosing := ?_, environments := ?_
    methods := hrelated.methods_mono hgrows.toExtends rfl
    fields := hrelated.fields_mono hgrows.toExtends rfl }
  · show (st.right.environments.define e name' value).size = _
    rw [Environments.size_define, hrelated.size]
    exact (Environments.size_define _ _ _ _).symm
  · intro k
    show (st.right.environments.define e name' value).enclosing k = _
    rw [Environments.enclosing_define, hrelated.enclosing]
    exact (Environments.enclosing_define _ e k name value).symm
  · intro k env env' henv henv'
    change (st.left.environments.define e name value).all[k]? = some env at henv
    change (st.right.environments.define e name' value).all[k]? = some env' at henv'
    rw [Environments.getElem?_define] at henv henv'
    by_cases he : e = k
    · rw [if_pos he] at henv henv'
      rcases Option.map_eq_some_iff.mp henv with ⟨old, hold, rfl⟩
      rcases Option.map_eq_some_iff.mp henv' with ⟨old', hold', rfl⟩
      have halike := hrelated.environments k old old' hold hold'
      show AlikeEnvironment sides _ _ _ (st.kinds k)
      rw [← he, hkind] at halike ⊢
      refine ⟨halike.1.insert hname value, ?_⟩
      intro entry hentry
      rcases Bindings.mem_insert hentry with rfl | hentry
      · exact hvalue
      · exact (halike.2 entry hentry).mono hgrows.toExtends
    · rw [if_neg he] at henv henv'
      exact (hrelated.environments k env env' henv henv').mono hgrows.toExtends

theorem grows_create (st : Stage) (kind : EnvKind) (outer : EnvId) (values values' : Bindings) :
    Grows st (st.create kind outer values values') where
  lead := rfl
  current := rfl
  size := Nat.le_trans (Nat.le_succ _) (Nat.le_of_eq (Environments.size_create _ _ _).symm)
  kinds e he := if_neg (Nat.ne_of_lt he)
  enclosing e he := by
    show (st.left.environments.create (some outer) values).enclosing e = _
    rw [Environments.enclosing_create, if_neg (Nat.ne_of_lt he)]
  binds e name hbinds := by
    show ((st.left.environments.create (some outer) values).values e).binds name = true
    rw [Environments.values_create]
    by_cases he : e = st.left.environments.size
    · have hnone : st.left.environments.all[e]? = none :=
        Array.getElem?_eq_none (Nat.le_of_eq he.symm)
      unfold Environments.values at hbinds
      rw [hnone] at hbinds
      cases hbinds
    · rw [if_neg he]
      exact hbinds
  fixed e he _ := by
    show (st.left.environments.create (some outer) values).values e = _
    rw [Environments.values_create, if_neg (Nat.ne_of_lt he)]
  functions _ _ hclosure := hclosure
  functions' _ _ hclosure := hclosure

theorem Related.create {kind : EnvKind} {outer : EnvId} {values values' : Bindings}
    (hrelated : Related sides st)
    (halike : AlikeEnvironment sides st ⟨values, some outer⟩ ⟨values', some outer⟩ kind) :
    Related sides (st.create kind outer values values') := by
  have hgrows := grows_create st kind outer values values'
  have hsize := hrelated.size
  refine { hrelated with
    globals := ?_, globals_lt := Nat.lt_of_lt_of_le hrelated.globals_lt hgrows.size
    size := ?_, enclosing := ?_, environments := ?_
    methods := hrelated.methods_mono hgrows.toExtends rfl
    fields := hrelated.fields_mono hgrows.toExtends rfl }
  · rw [hgrows.kinds _ hrelated.globals_lt]
    exact hrelated.globals
  · show (st.right.environments.create (some outer) values').size = _
    rw [Environments.size_create, hsize]
    exact (Environments.size_create _ _ _).symm
  · intro k
    show (st.right.environments.create (some outer) values').enclosing k =
      (st.left.environments.create (some outer) values).enclosing k
    rw [Environments.enclosing_create, Environments.enclosing_create, hsize,
      hrelated.enclosing]
  · intro k env env' henv henv'
    change (st.left.environments.create (some outer) values).all[k]? = some env at henv
    change (st.right.environments.create (some outer) values').all[k]? = some env' at henv'
    rw [Environments.getElem?_create] at henv henv'
    rw [hsize] at henv'
    show AlikeEnvironment sides _ _ _
      (if k = st.left.environments.size then kind else st.kinds k)
    by_cases hk : k = st.left.environments.size
    · rw [if_pos hk] at henv henv' ⊢
      cases henv
      cases henv'
      exact halike.mono hgrows.toExtends
    · rw [if_neg hk] at henv henv' ⊢
      exact (hrelated.environments k env env' henv henv').mono hgrows.toExtends

/-!
# Frames around the current environment
-/

theorem chain_create {outer : EnvId} {Γ : List Frame} (frame : Frame) (values values' : Bindings)
    (hchain : Chain st outer Γ)
    (hbound : ∀ name, frame.Bound name → values.binds name = true) :
    Chain (st.create frame.kind outer values values') st.left.environments.size (frame :: Γ) := by
  refine ⟨if_pos rfl, ?_, outer, ?_, hchain.mono (grows_create _ _ _ _ _).toExtends⟩
  · intro name hname
    show ((st.left.environments.create (some outer) values).values _).binds name = true
    rw [Environments.values_create, if_pos rfl]
    exact hbound name hname
  · show (st.left.environments.create (some outer) values).enclosing _ = _
    rw [Environments.enclosing_create, if_pos rfl]

theorem chain_define {e : EnvId} {Γ : List Frame} {naming : Naming} (name name' : String)
    (value : Value) (hchain : Chain st e Γ) (hkind : st.kinds e = .names naming) :
    Chain (st.define e name name' value) e (bind name Γ) := by
  have hgrown := hchain.mono (grows_define hkind name name' value).toExtends
  cases Γ with
  | nil => exact hgrown
  | cons frame Γ =>
      cases frame with
      | names naming bound =>
          rcases hgrown with ⟨hkind, hbound, houter⟩
          refine ⟨hkind, ?_, houter⟩
          intro other hother
          rcases hother with rfl | hother
          · exact Environments.binds_define_self _ e value hchain.lt_size
          · exact hbound other hother
      | this => exact hgrown
      | super => exact hgrown

/-- The naming of the environment in which a declaration binds its name. -/
theorem exists_naming {e : EnvId} {Γ : List Frame} {name name' : String}
    (hrelated : Related sides st) (hchain : Chain st e Γ) (hname : Declares name name' Γ) :
    ∃ naming, st.kinds e = .names naming ∧ naming.pairs name name' := by
  cases Γ with
  | nil => exact ⟨.same, hchain.1 ▸ hrelated.globals, hname.symm⟩
  | cons frame Γ =>
      cases frame with
      | names naming bound => exact ⟨naming, hchain.1, hname⟩
      | this => cases hname
      | super => cases hname

end

/-- The frames around the place where both machines are. -/
def Here (st : Stage) (Γ : List Frame) : Prop := Chain st st.left.current Γ

theorem Here.mono {st st₁ : Stage} {Γ : List Frame} (hgrows : Grows st st₁) (hhere : Here st Γ) :
    Here st₁ Γ := by
  unfold Here
  rw [hgrows.current]
  exact Chain.mono hgrows.toExtends hhere

section

variable {sides : Sides} {st : Stage}

theorem agree_newEnvironment {outer : EnvId} {kind : EnvKind} {values values' : Bindings}
    (halike : AlikeEnvironment sides st ⟨values, some outer⟩ ⟨values', some outer⟩ kind) :
    Agree sides st (Eval.newEnvironment outer values) (Eval.newEnvironment outer values')
      fun st₁ e => st₁ = st.create kind outer values values' ∧
        e = st.left.environments.size := by
  intro hrelated
  have hright : Eval.newEnvironment outer values' st.right =
      .ok st.left.environments.size (st.create kind outer values values').right := by
    rw [← hrelated.size]
    rfl
  rw [hright]
  exact .ok (grows_create _ _ _ _ _) (hrelated.create halike) ⟨rfl, rfl⟩

/-- A function may be sound only once its own name is bound, so that is when the value has to be. -/
theorem agree_defineHere {Γ : List Frame} {name name' : String} {value : Value}
    (hhere : Here st Γ) (hname : Declares name name' Γ)
    (hvalue : Grows st (st.define st.left.current name name' value) →
      Sound sides (st.define st.left.current name name' value) value) :
    Agree sides st (Eval.defineHere name value) (Eval.defineHere name' value)
      fun st₁ _ => Here st₁ (bind name Γ) ∧
        (st₁.left.environments.values st₁.left.current).binds name = true := by
  intro hrelated
  have hright : Eval.defineHere name' value st.right =
      .ok () (st.define st.left.current name name' value).right := by
    rw [← hrelated.current]
    rfl
  rcases exists_naming hrelated hhere hname with ⟨naming, hkind, hpair⟩
  have hgrows := grows_define hkind name name' value
  rw [hright]
  exact .ok hgrows (hrelated.define hkind hpair (hvalue hgrows))
    ⟨chain_define name name' value hhere hkind,
      Environments.binds_define_self _ _ value hhere.lt_size⟩

end

namespace Stage

def enter (st : Stage) (e : EnvId) : Stage :=
  { st with left := { st.left with current := e }, right := { st.right with current := e } }

end Stage

section

variable {sides : Sides} {st : Stage}

theorem extends_enter (st : Stage) (e : EnvId) : Extends st (st.enter e) := { Extends.refl st with }

theorem Related.enter (hrelated : Related sides st) (e : EnvId) :
    Related sides (st.enter e) := by
  have hextends := extends_enter st e
  exact { hrelated with
    current := rfl
    environments := hrelated.environments_mono hextends rfl rfl rfl
    methods := hrelated.methods_mono hextends rfl
    fields := hrelated.fields_mono hextends rfl }

theorem agree_within {p p' : Eval α} {e : EnvId} {post post' : Stage → α → Prop}
    (hp : Agree sides (st.enter e) p p' post)
    (hpost : ∀ (st₁ : Stage) (value : α), post st₁ value →
      post' (st₁.enter st.left.current) value) :
    Agree sides st (Eval.within e p) (Eval.within e p') post' := by
  intro hrelated
  have hends := hp (hrelated.enter e)
  have hback : ∀ {st₁ : Stage}, Grows (st.enter e) st₁ → Grows st (st₁.enter st.left.current) :=
    fun hgrows => ⟨((extends_enter st e).trans hgrows.toExtends).trans (extends_enter _ _), rfl,
      hgrows.lead⟩
  unfold Eval.within
  rw [hrelated.current]
  change Ends sides (st.enter e) post (p { st.left with current := e })
    (p' { st.right with current := e }) at hends
  generalize p { st.left with current := e } = result at hends ⊢
  generalize p' { st.right with current := e } = result' at hends ⊢
  cases hends with
  | ok hgrows hrelated₁ hvalue =>
      exact .ok (hback hgrows) (hrelated₁.enter st.left.current) (hpost _ _ hvalue)
  | error hgrows hrelated₁ htoken =>
      exact .error (hback hgrows) (hrelated₁.enter st.left.current) htoken
  | outOfFuel hgrows hrelated₁ =>
      exact .outOfFuel (hback hgrows) (hrelated₁.enter st.left.current)
  | native hgrows hrelated₁ hstop =>
      exact .native (hback hgrows) (hrelated₁.enter st.left.current) hstop

end

end Lexical
end Lox
