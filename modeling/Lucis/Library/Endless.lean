import Mathlib.Computability.StateTransition

/-!
Runs of a transition function that do not end. Where states of some kind come back to
that kind in one step or more, no run from one of them ends, whatever lies in between.
-/

namespace Endless

open Relation StateTransition

universe u

variable {State : Type u} {step : State → Option State} {again : State → Prop} {s : State}

def Bound (step : State → Option State) (again : State → Prop) (s : State) : Prop :=
  ∃ turn, Reaches step s turn ∧ again turn

variable (turns : ∀ s, again s → ∃ turn, Reaches₁ step s turn ∧ again turn)
include turns

theorem bound_of_turns
    (bound : Bound step again s) : ∃ next, step s = some next ∧ Bound step again next := by
  obtain ⟨turn, reached, holds⟩ := bound
  have later : ∃ turn, Reaches₁ step s turn ∧ again turn := by
    obtain ⟨after, onward, still⟩ := turns turn holds
    exact ⟨after, TransGen.trans_right reached onward, still⟩
  obtain ⟨after, onward, still⟩ := later
  obtain ⟨next, stepped, rest⟩ := TransGen.head'_iff.1 onward
  exact ⟨next, stepped, after, rest, still⟩

theorem endless
    (holds : again s) (last : State) : last ∉ eval step s := by
  intro ends
  obtain ⟨reached, stopped⟩ := mem_eval.1 ends
  have bound : Bound step again last := by
    clear stopped ends
    induction reached with
    | refl => exact ⟨s, .refl, holds⟩
    | tail _ stepped ih =>
      obtain ⟨next, same, bound⟩ := bound_of_turns turns ih
      obtain rfl : next = _ := Option.some.inj (same.symm.trans stepped)
      exact bound
  obtain ⟨next, stepped, _⟩ := bound_of_turns turns bound
  exact absurd (stopped.symm.trans stepped) nofun

end Endless
