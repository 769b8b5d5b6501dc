import Mathlib.Data.List.Basic

/-!
What happens to one name of a shared map of bindings while it is bound, taken out and
marked: the entry that is left, and when it is the entry that was there. A mark keeps the
binding and is made once.
-/

namespace Bindings

variable {α : Type}

inductive Event (α : Type) where
  | bound (entry : α)
  | erased
  | marked

def play (mark : α → α) (entry : Option α) : Event α → Option α
  | .bound other => some other
  | .erased => none
  | .marked => entry.map mark

def replay (mark : α → α) (events : List (Event α)) (entry : Option α) : Option α :=
  events.foldl (play mark) entry

def Marks (events : List (Event α)) : Prop := ∀ event ∈ events, event = .marked

/-- The entry is the one that the last binding or erasure leaves, or there is none of them and
no mark to be made. -/
inductive Restored (mark : α → α) (events : List (Event α)) (entry : Option α) : Prop
  | marks (only : Marks events) (still : events ≠ [] → ∀ a, entry = some a → mark a = a)
  | erased (front back : List (Event α)) (split : events = front ++ .erased :: back)
      (only : Marks back) (absent : entry = none)
  | bound (front : List (Event α)) (a : α) (back : List (Event α))
      (split : events = front ++ .bound a :: back) (only : Marks back)
      (same : entry = some (if back.isEmpty then a else mark a))

section Replay

variable {mark : α → α}

@[simp]
theorem replay_append (first second : List (Event α)) (entry : Option α) :
    replay mark (first ++ second) entry = replay mark second (replay mark first entry) :=
  List.foldl_append

theorem replay_marks (once : ∀ a, mark (mark a) = mark a) (events : List (Event α))
    (only : Marks events) (entry : Option α) :
    replay mark events entry = if events.isEmpty then entry else entry.map mark := by
  induction events generalizing entry with
  | nil => rfl
  | cons event rest ih =>
    have first : event = .marked := only event (.head _)
    have others : Marks rest := fun event member => only event (.tail _ member)
    subst first
    show replay mark rest (entry.map mark) = entry.map mark
    rw [ih others]
    cases rest with
    | nil => rfl
    | cons second rest =>
      cases entry with
      | none => rfl
      | some a => simp [once a]

theorem split_last (events : List (Event α)) :
    Marks events ∨ ∃ front event back, events = front ++ event :: back ∧ event ≠ .marked ∧
      Marks back := by
  induction events with
  | nil =>
    left
    intro event member
    cases member
  | cons event rest ih =>
    rcases ih with only | ⟨front, last, back, split, other, only⟩
    · by_cases first : event = .marked
      · left
        intro other member
        rcases List.mem_cons.1 member with same | later
        · exact same.trans first
        · exact only other later
      · exact .inr ⟨[], event, rest, rfl, first, only⟩
    · exact .inr ⟨event :: front, last, back, by rw [split]; rfl, other, only⟩

theorem replay_eq_iff (once : ∀ a, mark (mark a) = mark a) (events : List (Event α))
    (entry : Option α) : replay mark events entry = entry ↔ Restored mark events entry := by
  -- behind the last event that is no mark, marks are made once or there is none
  constructor
  · intro same
    rcases split_last events with only | ⟨front, event, back, split, other, only⟩
    · apply Restored.marks only
      intro some_event a present
      rw [replay_marks once events only, present] at same
      have full : events.isEmpty = false := by
        cases events with
        | nil => exact absurd rfl some_event
        | cons event rest => rfl
      rw [full] at same
      exact Option.some.inj same
    · have left : replay mark events entry =
          replay mark back (play mark (replay mark front entry) event) := by
        rw [split, replay_append]
        rfl
      rw [same, replay_marks once back only] at left
      cases event with
      | bound a =>
        apply Restored.bound front a back split only
        rw [left]
        cases back <;> rfl
      | erased =>
        apply Restored.erased front back split only
        rw [left]
        cases back <;> rfl
      | marked => exact absurd rfl other
  · intro restored
    cases restored with
    | marks only still =>
      rw [replay_marks once events only]
      cases events with
      | nil => rfl
      | cons event rest =>
        cases entry with
        | none => rfl
        | some a => exact congrArg some (still (List.cons_ne_nil _ _) a rfl)
    | erased front back split only absent =>
      rw [split, replay_append]
      show replay mark back none = entry
      rw [replay_marks once back only, absent]
      cases back <;> rfl
    | bound front a back split only same =>
      rw [split, replay_append]
      show replay mark back (some a) = entry
      rw [replay_marks once back only, same]
      cases back <;> rfl

end Replay

end Bindings
