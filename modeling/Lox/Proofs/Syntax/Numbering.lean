import Lox.Proofs.Syntax.Form
import Lox.Syntax.Numbering

/-!
# Numbered programs

Numbers follow the shape of a tree alone, so a relabelled tree has as many nodes
as before, and the statements behind a program get the numbers behind its own.  A
relabelling that sends the numbers of a tree to others, one after the other, is
the same as another numbering.
-/

namespace Lox

section

variable (g : Relabelling)

mutual

theorem Form.places_relabel : (f : Form) → (f.relabel g).places = f.places
  | .node _ fields => by rw [Form.relabel, Form.places, Form.places, Form.allPlaces_relabels fields]
  | .token _ _ => rfl
  | .constant _ => rfl
  | .row items => by rw [Form.relabel, Form.places, Form.places, Form.allPlaces_relabels items]
  | .list items => by rw [Form.relabel, Form.places, Form.places, Form.allPlaces_relabels items]

theorem Form.allPlaces_relabels :
    (fs : List Form) → Form.allPlaces (Form.relabels g fs) = Form.allPlaces fs
  | [] => rfl
  | f :: fs => by
      rw [Form.relabels, Form.allPlaces, Form.allPlaces, f.places_relabel,
        Form.allPlaces_relabels fs]

end

mutual

@[simp]
theorem Expr.places_relabel : (e : Expr) → (e.relabel g).places = e.places
  | .assign _ value => by rw [Expr.relabel, Expr.places, Expr.places, value.places_relabel]
  | .binary left _ right
  | .logical left _ right => by
      rw [Expr.relabel, Expr.places, Expr.places, left.places_relabel, right.places_relabel]
  | .call callee _ arguments => by
      rw [Expr.relabel, Expr.places, Expr.places, callee.places_relabel,
        Expr.allPlaces_relabels arguments]
  | .conditional condition thenBranch elseBranch => by
      rw [Expr.relabel, Expr.places, Expr.places, condition.places_relabel,
        thenBranch.places_relabel, elseBranch.places_relabel]
  | .get object _ => by rw [Expr.relabel, Expr.places, Expr.places, object.places_relabel]
  | .grouping inner => by rw [Expr.relabel, Expr.places, Expr.places, inner.places_relabel]
  | .literal _ | .superRef _ _ | .thisRef _ | .var _ => rfl
  | .set object _ value => by
      rw [Expr.relabel, Expr.places, Expr.places, object.places_relabel, value.places_relabel]
  | .unary _ right => by rw [Expr.relabel, Expr.places, Expr.places, right.places_relabel]
  | .misfit form => by rw [Expr.relabel, Expr.places, Expr.places, form.places_relabel]

@[simp]
theorem Expr.allPlaces_relabels :
    (es : List Expr) → Expr.allPlaces (Expr.relabels g es) = Expr.allPlaces es
  | [] => rfl
  | e :: es => by
      rw [Expr.relabels, Expr.allPlaces, Expr.allPlaces, e.places_relabel,
        Expr.allPlaces_relabels es]

end

@[simp]
theorem Expr.optionalPlaces_relabel (value : Option Expr) :
    Expr.optionalPlaces (value.map (Expr.relabel g)) = Expr.optionalPlaces value := by
  cases value with
  | none => rfl
  | some e => exact e.places_relabel g

@[simp]
theorem Reference.optionalPlaces_relabel (parent : Option Reference) :
    Reference.optionalPlaces (parent.map (Reference.relabel g)) =
      Reference.optionalPlaces parent := by
  cases parent <;> rfl

mutual

@[simp]
theorem Stmt.places_relabel : (s : Stmt) → (s.relabel g).places = s.places
  | .block body => by simp [Stmt.relabel, Stmt.places, Stmt.allPlaces_relabels body]
  | .classDecl _ _ methods => by
      simp [Stmt.relabel, Stmt.places, Function.allPlaces_relabels methods]
  | .expression _ | .print _ | .ret _ _ | .varDecl _ _ => by simp [Stmt.relabel, Stmt.places]
  | .funDecl f => by simp [Stmt.relabel, Stmt.places, f.places_relabel]
  | .ifElse _ thenBranch none => by simp [Stmt.relabel, Stmt.places, thenBranch.places_relabel]
  | .ifElse _ thenBranch (some elseBranch) => by
      simp [Stmt.relabel, Stmt.places, thenBranch.places_relabel, elseBranch.places_relabel]
  | .whileLoop _ body => by simp [Stmt.relabel, Stmt.places, body.places_relabel]
  | .misfit form => by simp [Stmt.relabel, Stmt.places, form.places_relabel]

@[simp]
theorem Stmt.allPlaces_relabels :
    (ss : List Stmt) → Stmt.allPlaces (Stmt.relabels g ss) = Stmt.allPlaces ss
  | [] => by rw [Stmt.relabels]
  | s :: ss => by
      rw [Stmt.relabels, Stmt.allPlaces, Stmt.allPlaces, s.places_relabel,
        Stmt.allPlaces_relabels ss]

@[simp]
theorem Function.places_relabel : (f : Function) → (f.relabel g).places = f.places
  | ⟨_, _, body⟩ => by
      rw [Function.relabel, Function.places, Function.places, Stmt.allPlaces_relabels body]

@[simp]
theorem Function.allPlaces_relabels :
    (fs : List Function) → Function.allPlaces (Function.relabels g fs) = Function.allPlaces fs
  | [] => by rw [Function.relabels]
  | f :: fs => by
      rw [Function.relabels, Function.allPlaces, Function.allPlaces, f.places_relabel,
        Function.allPlaces_relabels fs]

end

end

theorem Stmt.allNumbered_append (k : NodeId) (first second : List Stmt) :
    Stmt.allNumbered k (first ++ second) =
      Stmt.allNumbered k first ++ Stmt.allNumbered (k + Stmt.allPlaces first) second := by
  induction first generalizing k with
  | nil => rw [List.nil_append, Stmt.allNumbered, Stmt.allPlaces, List.nil_append, Nat.add_zero]
  | cons s ss ih =>
      rw [List.cons_append, Stmt.allNumbered, Stmt.allNumbered, Stmt.allPlaces, ih, Nat.add_assoc,
        List.cons_append]

/-!
# Sending numbers to others
-/

namespace Relabelling

/-- The numbers from `k` on go to those from `k'` on. -/
def Sends (g : Relabelling) (k k' : Nat) (count : Nat) : Prop :=
  ∀ i < count, g.node (k + i) = k' + i

theorem Sends.split {g : Relabelling} {k k' count more : Nat}
    (hsends : g.Sends k k' (count + more)) :
    g.Sends k k' count ∧ g.Sends (k + count) (k' + count) more := by
  constructor
  · intro i hi
    exact hsends i (Nat.lt_add_right more hi)
  · intro i hi
    rw [Nat.add_assoc, Nat.add_assoc]
    exact hsends (count + i) (Nat.add_lt_add_left hi count)

end Relabelling

section

variable {g : Relabelling}

theorem Reference.relabel_numbered {k k' : Nat} (hsends : g.Sends k k' 1) (r : Reference) :
    (r.numbered k).relabel g = (r.relabel g.token).numbered k' := by
  have hnode := hsends 0 Nat.one_pos
  rw [Nat.add_zero, Nat.add_zero] at hnode
  dsimp only [Reference.numbered, Reference.relabel]
  rw [hnode]

/-- Shapes that are numbered in an order of their own are so whatever their tokens are. -/
theorem Form.relabel_numbered_and :
    (∀ (k : NodeId) (f : Form) {k' : Nat}, g.Sends k k' f.places →
      (f.numbered k).relabel g = (f.relabel g.token).numbered k') ∧
    ∀ (k : NodeId) (fs : List Form) {k' : Nat}, g.Sends k k' (Form.allPlaces fs) →
      Form.relabels g (Form.allNumbered k fs) = Form.allNumbered k' (Form.relabels g.token fs) := by
  apply Form.numbered.mutual_induct
  case case1 =>
    intro k name value ihname ihvalue k' hsends
    rw [Form.places, Form.allPlaces, Form.allPlaces, Form.allPlaces, Nat.add_zero,
      Nat.add_comm] at hsends
    obtain ⟨hvalue, hname⟩ := hsends.split
    simp only [Form.numbered, Form.relabel, Form.relabels, ihname hname, ihvalue hvalue,
      Form.places_relabel]
  case case2 =>
    intro k object name value afterValue ihobject ihname ihvalue k' hsends
    rw [Form.places, Form.allPlaces, Form.allPlaces, Form.allPlaces, Form.allPlaces,
      Nat.add_zero, ← Nat.add_assoc, Nat.add_comm, ← Nat.add_assoc] at hsends
    obtain ⟨hboth, hname⟩ := hsends.split
    obtain ⟨hvalue, hobject⟩ := hboth.split
    rw [← Nat.add_assoc, ← Nat.add_assoc] at hname
    have hobject' := ihobject hobject
    have hname' := ihname hname
    simp only [afterValue] at hobject' hname'
    simp only [Form.numbered, Form.relabel, Form.relabels, hobject', hname', ihvalue hvalue,
      Form.places_relabel]
  case case3 =>
    intro k kind fields hassign hset ih k' hsends
    rw [Form.numbered, Form.relabel, Form.relabel, Form.numbered, ih hsends]
    · intro name value hkind hfields
      simp only [Form.relabels_eq_cons, Form.relabels_eq_nil] at hfields
      obtain ⟨_, _, rfl, _, _, _, rfl, _, rfl⟩ := hfields
      exact hassign _ _ hkind rfl
    · intro object name value hkind hfields
      simp only [Form.relabels_eq_cons, Form.relabels_eq_nil] at hfields
      obtain ⟨_, _, rfl, _, _, _, rfl, _, _, _, rfl, _, rfl⟩ := hfields
      exact hset _ _ _ hkind rfl
    · exact hassign
    · exact hset
  case case6 =>
    intro k t number k' hsends
    have hnode := hsends 0 Nat.one_pos
    rw [Nat.add_zero, Nat.add_zero] at hnode
    simp only [Form.numbered, Form.relabel, hnode]
  case case9 =>
    intro k f fs ihf ihfs k' hsends
    obtain ⟨hfirst, hrest⟩ := hsends.split
    rw [Form.allNumbered, Form.relabels, Form.relabels, Form.allNumbered, ihf hfirst, ihfs hrest,
      f.places_relabel]
  case case4 | case5 =>
    intro k items ih k' hsends
    rw [Form.numbered, Form.relabel, Form.relabel, Form.numbered, ih hsends]
  all_goals
    intros
    rfl

mutual

theorem Expr.relabel_numbered : (e : Expr) → {k k' : Nat} → g.Sends k k' e.places →
    (e.numbered k).relabel g = (e.relabel g.token).numbered k'
  | .assign target value, _, _, h => by
      obtain ⟨hvalue, htarget⟩ := h.split
      rw [Expr.numbered, Expr.relabel, Expr.relabel, Expr.numbered, value.relabel_numbered hvalue,
        target.relabel_numbered htarget, value.places_relabel]
  | .binary left _ right, _, _, h
  | .logical left _ right, _, _, h => by
      obtain ⟨hleft, hright⟩ := h.split
      rw [Expr.numbered, Expr.relabel, Expr.relabel, Expr.numbered, left.relabel_numbered hleft,
        right.relabel_numbered hright, left.places_relabel]
  | .call callee _ arguments, _, _, h => by
      obtain ⟨hcallee, harguments⟩ := h.split
      rw [Expr.numbered, Expr.relabel, Expr.relabel, Expr.numbered,
        callee.relabel_numbered hcallee, Expr.relabels_allNumbered arguments harguments,
        callee.places_relabel]
  | .conditional condition thenBranch elseBranch, _, _, h => by
      obtain ⟨hboth, helse⟩ := h.split
      obtain ⟨hcondition, hthen⟩ := hboth.split
      rw [← Nat.add_assoc, ← Nat.add_assoc] at helse
      rw [Expr.numbered, Expr.relabel, Expr.relabel, Expr.numbered,
        condition.relabel_numbered hcondition, thenBranch.relabel_numbered hthen,
        elseBranch.relabel_numbered helse, condition.places_relabel, thenBranch.places_relabel]
  | .get object _, _, _, h => by
      rw [Expr.numbered, Expr.relabel, Expr.relabel, Expr.numbered, object.relabel_numbered h]
  | .grouping inner, _, _, h => by
      rw [Expr.numbered, Expr.relabel, Expr.relabel, Expr.numbered, inner.relabel_numbered h]
  | .literal _, _, _, _ => rfl
  | .set object _ value, _, _, h => by
      obtain ⟨hvalue, hobject⟩ := h.split
      rw [Expr.numbered, Expr.relabel, Expr.relabel, Expr.numbered, value.relabel_numbered hvalue,
        object.relabel_numbered hobject, value.places_relabel]
  | .superRef keyword _, _, _, h => by
      rw [Expr.numbered, Expr.relabel, Expr.relabel, Expr.numbered, keyword.relabel_numbered h]
  | .thisRef keyword, _, _, h => by
      rw [Expr.numbered, Expr.relabel, Expr.relabel, Expr.numbered, keyword.relabel_numbered h]
  | .unary _ right, _, _, h => by
      rw [Expr.numbered, Expr.relabel, Expr.relabel, Expr.numbered, right.relabel_numbered h]
  | .var name, _, _, h => by
      rw [Expr.numbered, Expr.relabel, Expr.relabel, Expr.numbered, name.relabel_numbered h]
  | .misfit form, _, _, h => by
      rw [Expr.numbered, Expr.relabel, Expr.relabel, Expr.numbered,
        Form.relabel_numbered_and.1 _ form h]

theorem Expr.relabels_allNumbered : (es : List Expr) → {k k' : Nat} →
    g.Sends k k' (Expr.allPlaces es) →
    Expr.relabels g (Expr.allNumbered k es) = Expr.allNumbered k' (Expr.relabels g.token es)
  | [], _, _, _ => rfl
  | e :: es, _, _, h => by
      obtain ⟨hfirst, hrest⟩ := h.split
      rw [Expr.allNumbered, Expr.relabels, Expr.relabels, Expr.allNumbered,
        e.relabel_numbered hfirst, Expr.relabels_allNumbered es hrest, e.places_relabel]

end

theorem Expr.map_relabel_optionalNumbered (value : Option Expr) {k k' : Nat}
    (hsends : g.Sends k k' (Expr.optionalPlaces value)) :
    (Expr.optionalNumbered k value).map (Expr.relabel g) =
      Expr.optionalNumbered k' (value.map (Expr.relabel g.token)) := by
  cases value with
  | none => rfl
  | some e => exact congrArg some (e.relabel_numbered hsends)

theorem Reference.map_relabel_optionalNumbered (parent : Option Reference) {k k' : Nat}
    (hsends : g.Sends k k' (Reference.optionalPlaces parent)) :
    (Reference.optionalNumbered k parent).map (Reference.relabel g) =
      Reference.optionalNumbered k' (parent.map (Reference.relabel g.token)) := by
  cases parent with
  | none => rfl
  | some r => exact congrArg some (r.relabel_numbered hsends)

mutual

theorem Stmt.relabel_numbered : (s : Stmt) → {k k' : Nat} → g.Sends k k' s.places →
    (s.numbered k).relabel g = (s.relabel g.token).numbered k'
  | .block body, _, _, h => by
      rw [Stmt.places] at h
      rw [Stmt.numbered, Stmt.relabel, Stmt.relabel, Stmt.numbered,
        Stmt.relabels_allNumbered body h]
  | .classDecl _ parent methods, _, _, h => by
      rw [Stmt.places] at h
      obtain ⟨hparent, hmethods⟩ := h.split
      rw [Stmt.numbered, Stmt.relabel, Stmt.relabel, Stmt.numbered,
        Reference.map_relabel_optionalNumbered parent hparent,
        Function.relabels_allNumbered methods hmethods, Reference.optionalPlaces_relabel]
  | .expression inner, _, _, h | .print inner, _, _, h => by
      rw [Stmt.places] at h
      rw [Stmt.numbered, Stmt.relabel, Stmt.relabel, Stmt.numbered, inner.relabel_numbered h]
  | .funDecl f, _, _, h => by
      rw [Stmt.places] at h
      rw [Stmt.numbered, Stmt.relabel, Stmt.relabel, Stmt.numbered, f.relabel_numbered h]
  | .ifElse condition thenBranch none, _, _, h => by
      rw [Stmt.places] at h
      obtain ⟨hcondition, hthen⟩ := h.split
      rw [Stmt.numbered, Stmt.relabel, Stmt.relabel, Stmt.numbered,
        condition.relabel_numbered hcondition, thenBranch.relabel_numbered hthen,
        condition.places_relabel]
  | .ifElse condition thenBranch (some elseBranch), _, _, h => by
      rw [Stmt.places] at h
      obtain ⟨hboth, helse⟩ := h.split
      obtain ⟨hcondition, hthen⟩ := hboth.split
      rw [← Nat.add_assoc, ← Nat.add_assoc] at helse
      rw [Stmt.numbered, Stmt.relabel, Stmt.relabel, Stmt.numbered,
        condition.relabel_numbered hcondition, thenBranch.relabel_numbered hthen,
        elseBranch.relabel_numbered helse, condition.places_relabel, thenBranch.places_relabel]
  | .ret _ value, _, _, h | .varDecl _ value, _, _, h => by
      rw [Stmt.places] at h
      rw [Stmt.numbered, Stmt.relabel, Stmt.relabel, Stmt.numbered,
        Expr.map_relabel_optionalNumbered value h]
  | .whileLoop condition body, _, _, h => by
      rw [Stmt.places] at h
      obtain ⟨hcondition, hbody⟩ := h.split
      rw [Stmt.numbered, Stmt.relabel, Stmt.relabel, Stmt.numbered,
        condition.relabel_numbered hcondition, body.relabel_numbered hbody,
        condition.places_relabel]
  | .misfit form, _, _, h => by
      rw [Stmt.places] at h
      rw [Stmt.numbered, Stmt.relabel, Stmt.relabel, Stmt.numbered,
        Form.relabel_numbered_and.1 _ form h]

theorem Stmt.relabels_allNumbered : (ss : List Stmt) → {k k' : Nat} →
    g.Sends k k' (Stmt.allPlaces ss) →
    Stmt.relabels g (Stmt.allNumbered k ss) = Stmt.allNumbered k' (Stmt.relabels g.token ss)
  | [], _, _, _ => by
      rw [Stmt.allNumbered, Stmt.relabels, Stmt.relabels, Stmt.allNumbered]
  | s :: ss, _, _, h => by
      rw [Stmt.allPlaces] at h
      obtain ⟨hfirst, hrest⟩ := h.split
      rw [Stmt.allNumbered, Stmt.relabels, Stmt.relabels, Stmt.allNumbered,
        s.relabel_numbered hfirst, Stmt.relabels_allNumbered ss hrest, s.places_relabel]

theorem Function.relabel_numbered : (f : Function) → {k k' : Nat} → g.Sends k k' f.places →
    (f.numbered k).relabel g = (f.relabel g.token).numbered k'
  | ⟨_, _, body⟩, _, _, h => by
      rw [Function.places] at h
      rw [Function.numbered, Function.relabel, Function.relabel, Function.numbered,
        Stmt.relabels_allNumbered body h]

theorem Function.relabels_allNumbered : (fs : List Function) → {k k' : Nat} →
    g.Sends k k' (Function.allPlaces fs) →
    Function.relabels g (Function.allNumbered k fs) =
      Function.allNumbered k' (Function.relabels g.token fs)
  | [], _, _, _ => by
      rw [Function.allNumbered, Function.relabels, Function.relabels, Function.allNumbered]
  | f :: fs, _, _, h => by
      rw [Function.allPlaces] at h
      obtain ⟨hfirst, hrest⟩ := h.split
      rw [Function.allNumbered, Function.relabels, Function.relabels, Function.allNumbered,
        f.relabel_numbered hfirst, Function.relabels_allNumbered fs hrest, f.places_relabel]

end

end

/-!
# What numbers leave alone
-/

section

variable (k : NodeId)

theorem Reference.isSome_optionalNumbered (parent : Option Reference) :
    (Reference.optionalNumbered k parent).isSome = parent.isSome := by
  cases parent <;> rfl

theorem Expr.isSome_optionalNumbered (value : Option Expr) :
    (Expr.optionalNumbered k value).isSome = value.isSome := by
  cases value <;> rfl

theorem Function.name_numbered (f : Function) : (f.numbered k).name = f.name := by
  rcases f with ⟨name, params, body⟩
  rw [Function.numbered]

end

end Lox
