import Lox.Proofs.Lexical.Steps

/-!
# Names are found at their distances

The frames around a place tell what is found at a distance from it: the
environment exists on both machines, it was made for the frame at that position,
and the names that the frame has for certain are bound in it.  So alike
references find the same value, and neither fails.
-/

namespace Lox

namespace Lexical

open Environments (getAt_of_place)

variable {sides : Sides} {st : Stage}

theorem exists_place (hrelated : Related sides st) {Γ : List Frame} {frame : Frame} {e : EnvId}
    {depth : Nat} (hchain : Chain st e Γ) (hframe : Γ[depth]? = some frame) :
    ∃ target, st.left.environments.place e depth = .ok target ∧
      st.right.environments.place e depth = .ok target ∧
      target < st.left.environments.size ∧ st.kinds target = frame.kind ∧
      ∀ name, frame.Bound name → (st.left.environments.values target).binds name = true := by
  induction depth generalizing e Γ with
  | zero =>
      cases Γ with
      | nil => cases hframe
      | cons first Γ =>
          cases hframe
          exact ⟨e, rfl, rfl, hchain.lt_size, hchain.1, hchain.2.1⟩
  | succ depth ih =>
      cases Γ with
      | nil => cases hframe
      | cons first Γ =>
          rcases hchain with ⟨_, _, outer, houter, hrest⟩
          have houter' := (hrelated.enclosing e).trans houter
          rw [Environments.place_succ houter, Environments.place_succ houter']
          exact ih hrest hframe

theorem exists_environments (hrelated : Related sides st) {e : EnvId}
    (he : e < st.left.environments.size) :
    ∃ env env', st.left.environments.all[e]? = some env ∧
      st.right.environments.all[e]? = some env' ∧
      AlikeEnvironment sides st env env' (st.kinds e) := by
  have henv := Array.getElem?_eq_getElem he
  have he' : e < st.right.environments.all.size := Nat.lt_of_lt_of_eq he hrelated.size.symm
  have henv' := Array.getElem?_eq_getElem he'
  exact ⟨_, _, henv, henv', hrelated.environments e _ _ henv henv'⟩

/-- A name of one machine and the paired name of the other are bound to the same value. -/
theorem get?_of_pairs (hrelated : Related sides st) {e : EnvId} {naming : Naming}
    {name name' : String} (he : e < st.left.environments.size)
    (hkind : st.kinds e = .names naming) (hname : naming.pairs name name') :
    (st.right.environments.values e).get? name' = (st.left.environments.values e).get? name ∧
      ∀ value, (st.left.environments.values e).get? name = some value →
        Sound sides st value := by
  rcases exists_environments hrelated he with ⟨env, env', henv, henv', halike⟩
  rw [hkind] at halike
  rw [Environments.values_of_getElem? henv, Environments.values_of_getElem? henv']
  refine ⟨halike.1.get? hname, ?_⟩
  intro value hvalue
  exact halike.2 _ (mem_of_lookup hvalue)

theorem getAt_of_names (hrelated : Related sides st) {Γ : List Frame} {e : EnvId} {depth : Nat}
    {naming : Naming} {bound : String → Prop} {name name' : String} (hchain : Chain st e Γ)
    (hframe : Γ[depth]? = some (.names naming bound)) (hname : naming.pairs name name')
    (hbound : bound name) :
    ∃ value, st.left.environments.getAt e depth name = .ok value ∧
      st.right.environments.getAt e depth name' = .ok value ∧ Sound sides st value := by
  rcases exists_place hrelated hchain hframe with ⟨target, hleft, hright, hlt, hkind, hbinds⟩
  rcases get?_of_pairs hrelated hlt hkind hname with ⟨hsame, hsound⟩
  rcases Option.isSome_iff_exists.mp (hbinds name hbound) with ⟨value, hvalue⟩
  exact ⟨value, getAt_of_place hleft hvalue, getAt_of_place hright (hsame.trans hvalue),
    hsound value hvalue⟩

theorem get?_this (hrelated : Related sides st) {e : EnvId}
    (he : e < st.left.environments.size) (hkind : st.kinds e = .this) :
    ∃ value, (st.left.environments.values e).get? "this" = some value ∧
      (st.right.environments.values e).get? "this" = some value ∧ Sound sides st value := by
  rcases exists_environments hrelated he with ⟨env, env', henv, henv', halike⟩
  rw [hkind] at halike
  rcases halike with ⟨value, hvalues, hvalues', hsound⟩
  rw [Environments.values_of_getElem? henv, Environments.values_of_getElem? henv', hvalues,
    hvalues']
  exact ⟨value, rfl, rfl, hsound⟩

theorem getAt_of_this (hrelated : Related sides st) {Γ : List Frame} {e : EnvId} {depth : Nat}
    (hchain : Chain st e Γ) (hframe : Γ[depth]? = some .this) :
    ∃ value, st.left.environments.getAt e depth "this" = .ok value ∧
      st.right.environments.getAt e depth "this" = .ok value ∧ Sound sides st value := by
  rcases exists_place hrelated hchain hframe with ⟨target, hleft, hright, hlt, hkind, _⟩
  rcases get?_this hrelated hlt hkind with ⟨value, hvalue, hvalue', hsound⟩
  exact ⟨value, getAt_of_place hleft hvalue, getAt_of_place hright hvalue', hsound⟩

theorem getAt_of_super (hrelated : Related sides st) {Γ : List Frame} {e : EnvId} {depth : Nat}
    (hchain : Chain st e Γ) (hframe : Γ[depth]? = some .super) :
    ∃ c, st.left.environments.getAt e depth "super" = .ok (.cls c) ∧
      st.right.environments.getAt e depth "super" = .ok (.cls c) := by
  rcases exists_place hrelated hchain hframe with ⟨target, hleft, hright, hlt, hkind, _⟩
  rcases exists_environments hrelated hlt with ⟨env, env', henv, henv', halike⟩
  rw [hkind] at halike
  rcases halike with ⟨c, hvalues, hvalues'⟩
  refine ⟨c, getAt_of_place hleft ?_, getAt_of_place hright ?_⟩
  · rw [Environments.values_of_getElem? henv, hvalues]
    rfl
  · rw [Environments.values_of_getElem? henv', hvalues']
    rfl

/-!
# Reading and assigning
-/

theorem agree_ofLookup {α : Type} {post : Stage → α → Prop} {found found' : Except LookupFault α}
    {value : α} (hleft : found = .ok value) (hright : found' = .ok value)
    (hpost : post st value) :
    Agree sides st (Eval.ofLookup found) (Eval.ofLookup found') post := by
  rw [hleft, hright]
  exact Agree.pure hpost

theorem agree_lookup {Γ : List Frame} {r r' : Reference} (hhere : Here st Γ)
    (hrefers : Refers sides Γ true r r') :
    Agree sides st (Eval.lookup r) (Eval.lookup r') (Sound sides) := by
  apply Agree.get
  intro hrelated
  cases hrefers with
  | global hsees hsees' hlexeme hname =>
      rcases get?_of_pairs hrelated hrelated.globals_lt hrelated.globals
        (show Naming.same.pairs r.name.lexeme r'.name.lexeme from hlexeme.symm) with
        ⟨hsame, hsound⟩
      rw [(hrelated.sees hsees).depth?_eq, (hrelated.sees' hsees').depth?_eq]
      simp only [Environments.get, Environments.get?_globals, hsame]
      cases hvalue : (st.left.environments.values Machine.globals).get? r.name.lexeme with
      | none =>
          simp only [hlexeme]
          exact Agree.fail hname _
      | some value => exact Agree.pure (hsound value hvalue)
  | «local» hsees hsees' hframe hname hbound =>
      rcases getAt_of_names hrelated hhere hframe hname (hbound rfl) with
        ⟨value, hleft, hright, hsound⟩
      rw [← hrelated.current] at hright
      rw [(hrelated.sees hsees).depth?_eq, (hrelated.sees' hsees').depth?_eq]
      exact agree_ofLookup hleft hright hsound

theorem agree_lookup_this {Γ : List Frame} {keyword keyword' : Reference} {depth : Nat}
    (hhere : Here st Γ) (hsees : sides.sees keyword.node (some depth))
    (hsees' : sides.sees' keyword'.node (some depth)) (hkeyword : keyword.name.lexeme = "this")
    (hkeyword' : keyword'.name.lexeme = "this") (hframe : Γ[depth]? = some .this) :
    Agree sides st (Eval.lookup keyword) (Eval.lookup keyword') (Sound sides) := by
  apply Agree.get
  intro hrelated
  rcases getAt_of_this hrelated hhere hframe with ⟨value, hleft, hright, hsound⟩
  rw [← hrelated.current] at hright
  rw [(hrelated.sees hsees).depth?_eq, (hrelated.sees' hsees').depth?_eq, hkeyword, hkeyword']
  exact agree_ofLookup hleft hright hsound

theorem agree_assignLocal {Γ : List Frame} {depth : Nat} {naming : Naming} {bound : String → Prop}
    {name name' : String} {value : Value} (hhere : Here st Γ)
    (hframe : Γ[depth]? = some (.names naming bound)) (hname : naming.pairs name name')
    (hvalue : Sound sides st value) :
    Agree sides st (Eval.assignLocal depth name value) (Eval.assignLocal depth name' value)
      fun _ _ => True := by
  intro hrelated
  rcases exists_place hrelated hhere hframe with ⟨target, hleft, hright, _, hkind, _⟩
  rw [← hrelated.current] at hright
  have hgrows := grows_define hkind name name' value
  unfold Eval.assignLocal Environments.assignAt
  rw [hleft, hright]
  exact .ok hgrows (hrelated.define hkind hname (hvalue.mono hgrows.toExtends)) trivial

theorem agree_assignGlobal {name name' : Token} {value : Value}
    (hlexeme : name'.lexeme = name.lexeme) (hname : sides.related name name')
    (hvalue : Sound sides st value) :
    Agree sides st (Eval.assignFrom Machine.globals name value)
      (Eval.assignFrom Machine.globals name' value) fun _ _ => True := by
  intro hrelated
  rcases get?_of_pairs hrelated hrelated.globals_lt hrelated.globals
    (show Naming.same.pairs name.lexeme name'.lexeme from hlexeme.symm) with ⟨hsame, _⟩
  have hbinds : (st.right.environments.values Machine.globals).binds name'.lexeme =
      (st.left.environments.values Machine.globals).binds name.lexeme := by
    unfold Bindings.binds
    rw [hsame]
  unfold Eval.assignFrom Environments.assign Environments.assign?
  rw [Environments.holder?_globals, Environments.holder?_globals, hbinds]
  cases (st.left.environments.values Machine.globals).binds name.lexeme with
  | false =>
      simp only [hlexeme]
      exact .error (Grows.refl st) hrelated hname
  | true =>
      have hgrows := grows_define hrelated.globals name.lexeme name'.lexeme value
      exact .ok hgrows
        (hrelated.define hrelated.globals hlexeme.symm (hvalue.mono hgrows.toExtends)) trivial

theorem agree_assign {Γ : List Frame} {target target' : Reference} {value : Value}
    (hhere : Here st Γ) (hrefers : Refers sides Γ false target target')
    (hvalue : Sound sides st value) :
    Agree sides st (Eval.assign target value) (Eval.assign target' value)
      fun _ _ => True := by
  apply Agree.get
  intro hrelated
  cases hrefers with
  | global hsees hsees' hlexeme hname =>
      rw [(hrelated.sees hsees).depth?_eq, (hrelated.sees' hsees').depth?_eq]
      exact agree_assignGlobal hlexeme hname hvalue
  | «local» hsees hsees' hframe hname _ =>
      rw [(hrelated.sees hsees).depth?_eq, (hrelated.sees' hsees').depth?_eq]
      exact agree_assignLocal hhere hframe hname hvalue

theorem agree_assignHere {Γ : List Frame} {name name' : Token} {value : Value} (hhere : Here st Γ)
    (hname : Declares name.lexeme name'.lexeme Γ)
    (hbinds : (st.left.environments.values st.left.current).binds name.lexeme = true)
    (hvalue : Sound sides st value) :
    Agree sides st (Eval.assignFrom st.left.current name value)
      (Eval.assignFrom st.left.current name' value) fun _ _ => True := by
  intro hrelated
  rcases exists_naming hrelated hhere hname with ⟨naming, hkind, hpair⟩
  have hbinds' : (st.right.environments.values st.left.current).binds name'.lexeme = true := by
    unfold Bindings.binds at hbinds ⊢
    rw [(get?_of_pairs hrelated hhere.lt_size hkind hpair).1]
    exact hbinds
  have hgrows := grows_define hkind name.lexeme name'.lexeme value
  unfold Eval.assignFrom
  rw [Environments.assign_of_binds hbinds, Environments.assign_of_binds hbinds']
  exact .ok hgrows (hrelated.define hkind hpair (hvalue.mono hgrows.toExtends)) trivial

end Lexical
end Lox
