import Lox.Proofs.Machine

/-!
# Environments as a shared store

Environments are made and changed one operation at a time.  Whatever the
operations were, the walking operations and the distance operations agree: the
nearest environment that binds a name is found by both, a write through one of
its holders is seen by all others, and nothing else can be told apart from before.
-/

namespace Lox
namespace Environments

/-!
# Histories
-/

inductive Operation where
  | create (enclosing : Option EnvId)
  | define (e : EnvId) (name : String) (value : Value)
  | assign (e : EnvId) (name : Token) (value : Value)
  | assignAt (e : EnvId) (distance : Nat) (name : String) (value : Value)

def Operation.subject? : Operation → Option EnvId
  | .create enclosing => enclosing
  | .define e _ _ | .assign e _ _ | .assignAt e _ _ _ => some e

/-- The store behind an operation.  An operation that fails changes nothing. -/
def perform (s : Environments) : Operation → Environments
  | .create enclosing => s.create enclosing []
  | .define e name value => s.define e name value
  | .assign e name value => (s.assign e name value).toOption.getD s
  | .assignAt e distance name value => (s.assignAt e distance name value).toOption.getD s

/-- A store that is made by operations, each on an environment that is there. -/
inductive Built : Environments → Prop where
  | empty : Built {}
  | step {s : Environments} {operation : Operation} :
      Built s → (∀ e ∈ operation.subject?, e < s.size) → Built (s.perform operation)

/-!
# Nearest environments
-/

/-- The links lead in so many steps from one environment to another. -/
inductive Encloses (s : Environments) : Nat → EnvId → EnvId → Prop where
  | here {e : EnvId} : Encloses s 0 e e
  | outwards {d : Nat} {e outer target : EnvId} :
      s.enclosing e = some outer → Encloses s d outer target → Encloses s (d + 1) e target

/-- The least number of steps to an environment that binds a name, and that environment. -/
structure Nearest (s : Environments) (e : EnvId) (name : String) (d : Nat) (target : EnvId) :
    Prop where
  encloses : s.Encloses d e target
  binds : (s.values target).binds name = true
  least : ∀ d' < d, ∀ other, s.Encloses d' e other → (s.values other).binds name = false

/-- What is left by a write to a name in an environment that binds it. -/
structure Assigned (s s' : Environments) (target : EnvId) (name : String) (value : Value) :
    Prop where
  /-- Everyone who finds the name there sees the new value. -/
  seen : ∀ (e : EnvId) (d : Nat) (token : Token), token.lexeme = name →
    s.Nearest e name d target → s'.get e token = .ok value
  seenAt : ∀ (e : EnvId) (d : Nat), s.Encloses d e target → s'.getAt e d name = .ok value
  /-- Every other lookup is as before. -/
  unseen : ∀ (e : EnvId) (token : Token),
    (token.lexeme = name → ∀ d, ¬ s.Nearest e name d target) → s'.get e token = s.get e token
  unseenAt : ∀ (e : EnvId) (d : Nat) (other : String),
    (other = name → ¬ s.Encloses d e target) → s'.getAt e d other = s.getAt e d other
  names : ∀ (e : EnvId) (other : String),
    (s'.values e).binds other = (s.values e).binds other
  links : ∀ e : EnvId, s'.enclosing e = s.enclosing e
  size : s'.size = s.size

/-!
# What operations do
-/

section

variable {s : Environments}

theorem assign?_cases (s : Environments) (e : EnvId) (name : String) (value : Value) :
    s.assign? e name value = none ∨
      ∃ target, s.assign? e name value = some (s.define target name value) := by
  unfold assign?
  cases s.holder? e name with
  | none => exact Or.inl rfl
  | some target => exact Or.inr ⟨target, rfl⟩

theorem assignAt_cases (s : Environments) (e : EnvId) (d : Nat) (name : String) (value : Value) :
    (∃ fault, s.assignAt e d name value = .error fault) ∨
      ∃ target, s.assignAt e d name value = .ok (s.define target name value) := by
  unfold assignAt
  cases s.place e d with
  | error fault => exact Or.inl ⟨fault, rfl⟩
  | ok target => exact Or.inr ⟨target, rfl⟩

/-- An operation makes an environment, writes one binding, or does nothing. -/
theorem perform_cases (s : Environments) (operation : Operation) :
    (∃ outer, operation.subject? = outer ∧ s.perform operation = s.create outer []) ∨
      (∃ e name value, s.perform operation = s.define e name value) ∨
      s.perform operation = s := by
  cases operation with
  | create outer => exact Or.inl ⟨outer, rfl, rfl⟩
  | define e name value => exact Or.inr (Or.inl ⟨e, name, value, rfl⟩)
  | assign e name value =>
      rw [perform, assign]
      rcases assign?_cases s e name.lexeme value with hnone | ⟨target, hsome⟩
      · rw [hnone]
        exact Or.inr (Or.inr rfl)
      · rw [hsome]
        exact Or.inr (Or.inl ⟨target, name.lexeme, value, rfl⟩)
  | assignAt e d name value =>
      rw [perform]
      rcases assignAt_cases s e d name value with ⟨fault, herror⟩ | ⟨target, hok⟩
      · rw [herror]
        exact Or.inr (Or.inr rfl)
      · rw [hok]
        exact Or.inr (Or.inl ⟨target, name, value, rfl⟩)

theorem Built.linksBack (hs : s.Built) : s.LinksBack := by
  induction hs with
  | empty =>
      intro e outer houter
      cases houter
  | @step s operation _ hsubject ih =>
      rcases perform_cases s operation with ⟨outer, houter, hs'⟩ | ⟨e, name, value, hs'⟩ | hs'
      · rw [hs']
        exact ih.create (houter ▸ hsubject) []
      · rw [hs']
        exact ih.define e name value
      · rw [hs']
        exact ih

/-!
# Both ways lead to the nearest environment
-/

theorem place_of_encloses {d : Nat} {e target : EnvId} (hencloses : s.Encloses d e target) :
    s.place e d = .ok target := by
  induction hencloses with
  | here => rfl
  | outwards houter _ ih => rw [place_succ houter, ih]

theorem encloses_of_place {d : Nat} {e target : EnvId} (hplace : s.place e d = .ok target) :
    s.Encloses d e target := by
  induction d generalizing e with
  | zero =>
      cases hplace
      exact .here
  | succ d ih =>
      cases houter : s.enclosing e with
      | none =>
          unfold place ancestor at hplace
          rw [outwards, houter] at hplace
          cases d <;> cases hplace
      | some outer =>
          rw [place_succ houter] at hplace
          exact .outwards houter (ih hplace)

theorem Nearest.holder? (hs : s.LinksBack) {e target : EnvId} {name : String} {d : Nat}
    (hnearest : s.Nearest e name d target) : s.holder? e name = some target := by
  rcases hnearest with ⟨hencloses, hbinds, hleast⟩
  induction hencloses with
  | here => rw [Environments.holder?, if_pos hbinds]
  | @outwards d e outer target houter _ ih =>
      have hhere : (s.values e).binds name = false := hleast 0 (Nat.succ_pos d) e .here
      have hless : outer < e := hs e outer houter
      have hrest : s.holder? outer name = some target := by
        apply ih hbinds
        intro d' hd' other hother
        exact hleast (d' + 1) (Nat.succ_lt_succ hd') other (.outwards houter hother)
      rw [Environments.holder?, hhere, houter]
      simp [hless, hrest]

theorem exists_nearest_of_holder? {e target : EnvId} {name : String}
    (hholder : s.holder? e name = some target) : ∃ d, s.Nearest e name d target := by
  induction e using Nat.strongRecOn with
  | ind e ih =>
      rw [Environments.holder?] at hholder
      cases hhere : (s.values e).binds name with
      | true =>
          rw [hhere] at hholder
          cases hholder
          refine ⟨0, .here, hhere, ?_⟩
          intro d' hd'
          exact absurd hd' (Nat.not_lt_zero d')
      | false =>
          rw [hhere] at hholder
          cases houter : s.enclosing e with
          | none =>
              simp [houter] at hholder
          | some outer =>
              simp only [houter, Bool.false_eq_true, if_false] at hholder
              by_cases hless : outer < e
              · rw [if_pos hless] at hholder
                rcases ih outer hless hholder with ⟨d, hencloses, hbinds, hleast⟩
                refine ⟨d + 1, .outwards houter hencloses, hbinds, ?_⟩
                intro d' hd' other hother
                cases hother with
                | here => exact hhere
                | outwards houter' hother =>
                    rw [houter] at houter'
                    cases houter'
                    exact hleast _ (Nat.lt_of_succ_lt_succ hd') other hother
              · rw [if_neg hless] at hholder
                cases hholder

theorem holder?_eq_none {e : EnvId} {name : String}
    (hnowhere : ∀ d target, s.Encloses d e target → (s.values target).binds name = false) :
    s.holder? e name = none := by
  cases hholder : s.holder? e name with
  | none => rfl
  | some target =>
      rcases exists_nearest_of_holder? hholder with ⟨d, hencloses, hbinds, _⟩
      rw [hnowhere d target hencloses] at hbinds
      cases hbinds

/-!
# What a write leaves
-/

section

variable {s' : Environments}

theorem place_congr (hlinks : ∀ k, s'.enclosing k = s.enclosing k) (e : EnvId) (d : Nat) :
    s'.place e d = s.place e d := by
  have houtwards : ∀ d place, s'.outwards d place = s.outwards d place := by
    intro d
    induction d with
    | zero => exact fun _ => rfl
    | succ d ih =>
        intro place
        cases place with
        | none => rfl
        | some e => rw [outwards, outwards, hlinks, ih]
  unfold place ancestor
  rw [houtwards]

theorem holder?_congr (hlinks : ∀ k, s'.enclosing k = s.enclosing k)
    (hnames : ∀ k other, (s'.values k).binds other = (s.values k).binds other) (e : EnvId)
    (name : String) : s'.holder? e name = s.holder? e name := by
  induction e using Nat.strongRecOn with
  | ind e ih =>
      rw [Environments.holder?, Environments.holder?, hnames, hlinks]
      cases s.enclosing e with
      | none => rfl
      | some outer =>
          by_cases hless : outer < e
          · simp only [if_pos hless, ih outer hless]
          · simp only [if_neg hless]

end

theorem get?_values_define (s : Environments) {target : EnvId} (htarget : target < s.size)
    (name : String) (value : Value) (e : EnvId) (other : String) :
    ((s.define target name value).values e).get? other =
      if target = e ∧ other = name then some value else (s.values e).get? other := by
  by_cases he : target = e
  · subst he
    unfold values
    rw [getElem?_define, if_pos rfl, Array.getElem?_eq_getElem htarget]
    simp only [Option.map_some, Bindings.get?_insert, true_and]
  · rw [values_define_ne s target e he, if_neg fun hboth => he hboth.1]

/-- A write to a bound name is seen by those who find it there, and by nobody else. -/
theorem assigned_define (hs : s.LinksBack) {target : EnvId} {name : String}
    (hbinds : (s.values target).binds name = true) (value : Value) :
    s.Assigned (s.define target name value) target name value := by
  have hread := get?_values_define s (lt_size_of_binds hbinds) name value
  have hlinks : ∀ e, (s.define target name value).enclosing e = s.enclosing e :=
    fun e => enclosing_define s target e name value
  have hnames : ∀ e other,
      ((s.define target name value).values e).binds other = (s.values e).binds other := by
    intro e other
    unfold Bindings.binds
    rw [hread]
    by_cases hsame : target = e ∧ other = name
    · rw [if_pos hsame]
      rcases hsame with ⟨rfl, rfl⟩
      exact hbinds.symm
    · rw [if_neg hsame]
  have hholder := holder?_congr hlinks hnames
  have hplace := place_congr hlinks
  constructor
  case seen =>
    intro e d token htoken hnearest
    unfold get get?
    rw [htoken, hholder, hnearest.holder? hs]
    simp only [hread, and_self, if_true]
  case seenAt =>
    intro e d hencloses
    apply getAt_of_place ((hplace e d).trans (place_of_encloses hencloses))
    rw [hread, if_pos ⟨rfl, rfl⟩]
  case unseen =>
    intro e token hother
    unfold get get?
    rw [hholder]
    cases hfound : s.holder? e token.lexeme with
    | none => rfl
    | some found =>
        have hdiffers : ¬ (target = found ∧ token.lexeme = name) := by
          intro hboth
          rcases hboth with ⟨rfl, htoken⟩
          rw [htoken] at hfound
          rcases exists_nearest_of_holder? hfound with ⟨d, hnearest⟩
          exact hother htoken d hnearest
        simp only [hread, if_neg hdiffers]
  case unseenAt =>
    intro e d other hother
    unfold getAt
    rw [hplace]
    cases hfound : s.place e d with
    | error fault => rfl
    | ok found =>
        have hdiffers : ¬ (target = found ∧ other = name) := by
          intro hboth
          rcases hboth with ⟨rfl, hname⟩
          exact hother hname (encloses_of_place hfound)
        simp only [hread, if_neg hdiffers]
  case names => exact hnames
  case links => exact hlinks
  case size => exact size_define s target name value

theorem get_of_holder? {e target : EnvId} {name : Token}
    (hholder : s.holder? e name.lexeme = some target)
    (hbinds : (s.values target).binds name.lexeme = true) :
    ∃ value, (s.values target).get? name.lexeme = some value ∧ s.get e name = .ok value := by
  rcases Option.isSome_iff_exists.mp hbinds with ⟨value, hvalue⟩
  refine ⟨value, hvalue, ?_⟩
  unfold get get?
  simp only [hholder, hvalue]

end

/--
The walking operations are the distance operations at the least distance at which
the name is bound.  A write is seen through every environment from which the name
is found at the same place, and changes no other lookup and no set of names.  If
the name is bound at no distance, both walking operations are errors, and nothing
changes.
-/
theorem walking_at_least_distance {s : Environments} (hs : s.Built) (e : EnvId) (name : Token) :
    (∀ d target, s.Nearest e name.lexeme d target →
      (∃ value, s.get e name = .ok value ∧ s.getAt e d name.lexeme = .ok value) ∧
      ∀ value, ∃ s', s.assign e name value = .ok s' ∧
        s.assignAt e d name.lexeme value = .ok s' ∧
        s.Assigned s' target name.lexeme value) ∧
    ((∀ d target, s.Encloses d e target → (s.values target).binds name.lexeme = false) →
      s.get e name = .error ⟨name, .undefinedVariable name.lexeme⟩ ∧
      ∀ value, s.assign e name value = .error ⟨name, .undefinedVariable name.lexeme⟩ ∧
        s.perform (.assign e name value) = s) ∧
    RuntimeError.message ⟨name, .undefinedVariable name.lexeme⟩ =
      "Undefined variable '" ++ name.lexeme ++ "'." := by
  have hback := hs.linksBack
  refine ⟨?_, ?_, rfl⟩
  · intro d target hnearest
    have hholder := hnearest.holder? hback
    have hplace := place_of_encloses hnearest.encloses
    rcases get_of_holder? hholder hnearest.binds with ⟨value, hvalue, hget⟩
    refine ⟨⟨value, hget, getAt_of_place hplace hvalue⟩, ?_⟩
    intro value
    refine ⟨s.define target name.lexeme value, ?_, ?_, assigned_define hback hnearest.binds value⟩
    · unfold assign assign?
      simp only [hholder]
    · unfold assignAt
      simp only [hplace]
  · intro hnowhere
    have hholder := holder?_eq_none hnowhere
    have hassign : ∀ value,
        s.assign e name value = .error ⟨name, .undefinedVariable name.lexeme⟩ := by
      intro value
      unfold assign assign?
      simp only [hholder]
    constructor
    · unfold get get?
      simp only [hholder]
    · intro value
      refine ⟨hassign value, ?_⟩
      rw [perform, hassign]
      rfl

/--
A write through an inner environment is seen from the one around it, but not where it
is hidden.
-/
theorem walking_at_least_distance_shared :
    let x : Token := ⟨.identifier, "x", .nil, 1⟩
    let s := [.create none, .define 0 "x" .nil, .create (some 0), .create (some 0),
      .define 2 "x" (.bool true)].foldl perform {}
    s.Nearest 1 "x" 1 0 ∧ s.Nearest 2 "x" 0 2 ∧
      ∃ s', s.assign 1 x (.text "new") = .ok s' ∧ s.assignAt 1 1 "x" (.text "new") = .ok s' ∧
        s'.get 0 x = .ok (.text "new") ∧ s'.get 2 x = s.get 2 x := by
  intro x s
  have hbuilt : s.Built := by
    simp only [s, List.foldl_cons, List.foldl_nil]
    apply Built.step _ (by decide)
    apply Built.step _ (by decide)
    apply Built.step _ (by decide)
    apply Built.step _ (by decide)
    exact Built.step .empty (by decide)
  have hhere : ∀ e, (s.values e).binds "x" = true → s.Nearest e "x" 0 e :=
    fun e hbinds => ⟨.here, hbinds, fun d hd => absurd hd (Nat.not_lt_zero d)⟩
  have houter : s.Nearest 0 "x" 0 0 := hhere 0 (by decide)
  have hhidden : s.Nearest 2 "x" 0 2 := hhere 2 (by decide)
  have hinner : s.Nearest 1 "x" 1 0 := by
    refine ⟨.outwards (by decide) .here, by decide, ?_⟩
    intro d hd other hother
    cases Nat.lt_one_iff.mp hd
    cases hother
    decide
  rcases ((walking_at_least_distance hbuilt 1 x).1 1 0 hinner).2 (.text "new") with
    ⟨s', hassign, hassignAt, hassigned⟩
  refine ⟨hinner, hhidden, s', hassign, hassignAt, hassigned.seen 0 0 x rfl houter, ?_⟩
  apply hassigned.unseen
  intro _ d hnearest
  have hsame := (hnearest.holder? hbuilt.linksBack).symm.trans (hhidden.holder? hbuilt.linksBack)
  cases hsame

end Environments

end Lox
