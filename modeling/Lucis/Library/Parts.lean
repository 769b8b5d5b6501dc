import Mathlib.Data.List.Basic
import Mathlib.Order.WellFounded

/-!
Things made of parts, by a table that gives each its own. Where no chain of parts goes on
for ever, what a thing amounts to can be computed from its parts. The rules are about
tables in which one thing is given new parts.
-/

namespace Parts

variable {Node α : Type} (parts : Node → List Node)

def Part (part whole : Node) : Prop := part ∈ parts whole

abbrev Inside : Node → Node → Prop := Relation.ReflTransGen (Part parts)

abbrev Grounded : Prop := WellFounded (Part parts)

section Recursion

variable {parts}

theorem grounded_of_size (size : Node → Nat)
    (smaller : ∀ node, ∀ part ∈ parts node, size part < size node) : Grounded parts :=
  Subrelation.wf (fun {part whole} (inside : part ∈ parts whole) => smaller whole part inside)
    (measure size).wf

theorem Grounded.not_inside (grounded : Grounded parts) {part whole : Node}
    (direct : part ∈ parts whole) : ¬ Inside parts whole part := by
  intro inside
  have looped : Relation.TransGen (Part parts) whole whole := .tail' inside direct
  exact grounded.transGen.irrefl.irrefl whole looped

end Recursion

section Updates

variable [DecidableEq Node] {parts} {node : Node} {new : List Node}

theorem part_update_ne {part whole : Node} (other : whole ≠ node) :
    Part (Function.update parts node new) part whole ↔ Part parts part whole := by
  unfold Part
  rw [Function.update_of_ne other]

theorem inside_update {whole : Node} (inside : Inside parts node whole) :
    Inside (Function.update parts node new) node whole := by
  induction inside with
  | refl => exact .refl
  | @tail middle whole _ direct ih =>
    by_cases same : whole = node
    · subst same
      exact .refl
    · exact ih.tail ((part_update_ne same).2 direct)

theorem acc_update (grounded : Grounded parts) {whole : Node}
    (outside : ¬ Inside parts node whole) : Acc (Part (Function.update parts node new)) whole := by
  induction whole using grounded.induction with
  | _ whole ih =>
    have other : whole ≠ node := by
      rintro rfl
      exact outside .refl
    constructor
    intro part direct
    rw [part_update_ne other] at direct
    exact ih part direct fun inside => outside (inside.tail direct)

theorem grounded_update_iff (grounded : Grounded parts) :
    Grounded (Function.update parts node new) ↔ ∀ part ∈ new, ¬ Inside parts node part := by
  constructor
  · intro after part member inside
    have direct : part ∈ Function.update parts node new node := by
      rw [Function.update_self]
      exact member
    exact after.not_inside direct (inside_update inside)
  · intro outside
    have here : Acc (Part (Function.update parts node new)) node := by
      constructor
      intro part direct
      unfold Part at direct
      rw [Function.update_self] at direct
      exact acc_update grounded (outside part direct)
    constructor
    intro whole
    induction whole using grounded.induction with
    | _ whole ih =>
      by_cases same : whole = node
      · rw [same]
        exact here
      · constructor
        intro part direct
        exact ih part ((part_update_ne same).1 direct)

end Updates

end Parts
