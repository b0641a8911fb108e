import Lox.Proofs.Lexical.Stage

/-!
# Computations that agree

Two computations agree at a stage if they end in the same way: both with the
same result, both with the same runtime error at related tokens, both because
the bound on the depth of evaluation is reached, or both because a native
function stops them.  Neither of them ends in a defect of its own.  The machines
they leave form a later stage.
-/

namespace Lox
namespace Lexical

variable (sides : Sides)

inductive Ends (st : Stage) (post : Stage → α → Prop) :
    EStateM.Result Stop Machine α → EStateM.Result Stop Machine α → Prop where
  | ok {st₁ : Stage} {value : α} :
      Grows st st₁ → Related sides st₁ → post st₁ value →
      Ends st post (.ok value st₁.left) (.ok value st₁.right)
  | error {st₁ : Stage} {token token' : Token} {cause : RuntimeCause} :
      Grows st st₁ → Related sides st₁ → sides.related token token' →
      Ends st post (.error (.error ⟨token, cause⟩) st₁.left)
        (.error (.error ⟨token', cause⟩) st₁.right)
  | outOfFuel {st₁ : Stage} :
      Grows st st₁ → Related sides st₁ →
      Ends st post (.error .outOfFuel st₁.left) (.error .outOfFuel st₁.right)
  | native {st₁ : Stage} {stop : Stop} :
      Grows st st₁ → Related sides st₁ → sides.stops stop →
      Ends st post (.error stop st₁.left) (.error stop st₁.right)

/-- From related machines the two computations end alike, and their result satisfies `post`. -/
def Agree (st : Stage) (p p' : Eval α) (post : Stage → α → Prop) : Prop :=
  Related sides st → Ends sides st post (p st.left) (p' st.right)

variable {sides} {st : Stage}

theorem Ends.since {st₁ : Stage} {post : Stage → α → Prop}
    {result result' : EStateM.Result Stop Machine α} (hgrows : Grows st st₁)
    (hends : Ends sides st₁ post result result') : Ends sides st post result result' := by
  cases hends with
  | ok hgrows₁ hrelated hpost => exact .ok (hgrows.trans hgrows₁) hrelated hpost
  | error hgrows₁ hrelated htoken => exact .error (hgrows.trans hgrows₁) hrelated htoken
  | outOfFuel hgrows₁ hrelated => exact .outOfFuel (hgrows.trans hgrows₁) hrelated
  | native hgrows₁ hrelated hstop => exact .native (hgrows.trans hgrows₁) hrelated hstop

namespace Agree

theorem pure {post : Stage → α → Prop} {value : α} (hpost : post st value) :
    Agree sides st (Pure.pure value) (Pure.pure value) post := by
  intro hrelated
  exact .ok (Grows.refl st) hrelated hpost

theorem fail {post : Stage → α → Prop} {token token' : Token} (htoken : sides.related token token')
    (cause : RuntimeCause) :
    Agree sides st (Eval.fail token cause) (Eval.fail token' cause) post := by
  intro hrelated
  exact .error (Grows.refl st) hrelated htoken

theorem throw_outOfFuel {post : Stage → α → Prop} :
    Agree sides st (throw .outOfFuel) (throw .outOfFuel) post := by
  intro hrelated
  exact .outOfFuel (Grows.refl st) hrelated

/-- Computations in sequence; the second ones start at the stage that the first ones leave. -/
theorem bind {p p' : Eval α} {f f' : α → Eval β} {mid : Stage → α → Prop}
    {post : Stage → β → Prop} (hp : Agree sides st p p' mid)
    (hf : ∀ (st₁ : Stage) (value : α), Grows st st₁ → mid st₁ value →
      Agree sides st₁ (f value) (f' value) post) :
    Agree sides st (p >>= f) (p' >>= f') post := by
  intro hrelated
  have hends := hp hrelated
  show Ends sides st post (EStateM.bind p f st.left) (EStateM.bind p' f' st.right)
  unfold EStateM.bind
  generalize p st.left = result at hends
  generalize p' st.right = result' at hends
  cases hends with
  | ok hgrows hrelated₁ hmid => exact (hf _ _ hgrows hmid hrelated₁).since hgrows
  | error hgrows hrelated₁ htoken => exact .error hgrows hrelated₁ htoken
  | outOfFuel hgrows hrelated₁ => exact .outOfFuel hgrows hrelated₁
  | native hgrows hrelated₁ hstop => exact .native hgrows hrelated₁ hstop

theorem imp {p p' : Eval α} {post post' : Stage → α → Prop} (hp : Agree sides st p p' post)
    (himp : ∀ (st₁ : Stage) (value : α), Grows st st₁ → post st₁ value → post' st₁ value) :
    Agree sides st p p' post' := by
  intro hrelated
  have hends := hp hrelated
  generalize p st.left = result at hends ⊢
  generalize p' st.right = result' at hends ⊢
  cases hends with
  | ok hgrows hrelated₁ hpost => exact .ok hgrows hrelated₁ (himp _ _ hgrows hpost)
  | error hgrows hrelated₁ htoken => exact .error hgrows hrelated₁ htoken
  | outOfFuel hgrows hrelated₁ => exact .outOfFuel hgrows hrelated₁
  | native hgrows hrelated₁ hstop => exact .native hgrows hrelated₁ hstop

theorem map {p p' : Eval α} {f : α → β} {post : Stage → β → Prop}
    (hp : Agree sides st p p' fun st₁ value => post st₁ (f value)) :
    Agree sides st (f <$> p) (f <$> p') post :=
  bind hp fun _ _ _ hpost => pure hpost

theorem get {f f' : Machine → Eval α} {post : Stage → α → Prop}
    (hf : Related sides st → Agree sides st (f st.left) (f' st.right) post) :
    Agree sides st (MonadState.get >>= f) (MonadState.get >>= f') post := by
  intro hrelated
  exact hf hrelated hrelated

end Agree

end Lexical
end Lox
