import Lox.Proofs.Lexical.Simulation
import Lox.Proofs.Session.Run

/-!
# What is seen of alike executions

Two computations that end alike print the same lines, up to the lines that the
right machine had printed before; they leave the same globals, as far as these
can be seen; and they stop for the same reason, at related tokens.
-/

namespace Lox

namespace Lexical

variable {sides : Sides}

structure AlikeError (related : Token → Token → Prop) (e e' : RuntimeError) : Prop where
  token : related e.token e'.token
  cause : e'.cause = e.cause

/-- Results that look alike, where `lead` was printed before the right one. -/
structure SeenAlike (related : Token → Token → Prop) (lead : Array String)
    (result result' : EStateM.Result Stop Machine α) : Prop where
  output : (Eval.state result').output = lead ++ (Eval.state result).output
  globals : (Eval.state result').shownGlobals = (Eval.state result).shownGlobals
  error : Option.Rel (AlikeError related) (Eval.error? result) (Eval.error? result')
  timeout : Eval.isTimeout result' = Eval.isTimeout result

/-- Environments whose names are paired with themselves bind the same. -/
theorem AlikeBindings.eq_of_same {values values' : Bindings}
    (halike : AlikeBindings .same values values') : values' = values := by
  induction halike with
  | nil => rfl
  | cons hentry _ ih => rw [ih, Prod.ext hentry.1.symm hentry.2]

theorem shownGlobals_eq {st : Stage} (hrelated : Related sides st) :
    st.right.shownGlobals = st.left.shownGlobals := by
  rcases exists_environments hrelated hrelated.globals_lt with ⟨env, env', henv, henv', halike⟩
  rw [hrelated.globals] at halike
  have hvalues := Environments.values_of_getElem? henv
  have hvalues' := Environments.values_of_getElem? henv'
  rw [halike.1.eq_of_same, ← hvalues] at hvalues'
  unfold Machine.shownGlobals Machine.globalBindings
  rw [hvalues', hvalues]
  apply List.map_congr_left
  rintro ⟨name, value⟩ hentry
  have hsound := halike.2 _ (List.mem_mergeSort.mp hentry)
  show (name, value.kind, st.right.print value) = _
  rw [print_eq hrelated hsound]

theorem Ends.seenAlike {st : Stage} {post : Stage → α → Prop}
    {result result' : EStateM.Result Stop Machine α}
    (hends : Ends sides st post result result') (hstops : ∀ stop, ¬ sides.stops stop) :
    SeenAlike sides.related st.lead result result' := by
  cases hends with
  | ok hgrows hrelated _ =>
      rw [← hgrows.lead]
      exact ⟨hrelated.output, shownGlobals_eq hrelated, .none, rfl⟩
  | error hgrows hrelated htoken =>
      rw [← hgrows.lead]
      exact ⟨hrelated.output, shownGlobals_eq hrelated, .some ⟨htoken, rfl⟩, rfl⟩
  | outOfFuel hgrows hrelated =>
      rw [← hgrows.lead]
      exact ⟨hrelated.output, shownGlobals_eq hrelated, .none, rfl⟩
  | native _ _ hstop => exact absurd hstop (hstops _)

end Lexical
end Lox
