import Mathlib.Data.List.Basic

/-!
Recursion over a state that is cut off at a depth. Where a step leaves less to be done for the
calls below it, what is proved of one step holds of the whole descent, and the cut is never
met.
-/

namespace Descent

open List

universe u v

variable {N : Type u} {S : Type v}

def descend (step : (N → S → S) → N → S → S) : Nat → N → S → S
  | 0 => fun _ s => s
  | depth + 1 => step (descend step depth)

def each (visit : N → S → S) (nodes : List N) (s : S) : S :=
  nodes.foldl (fun s n => visit n s) s

section Rules

variable {step : (N → S → S) → N → S → S} (left : S → Nat)

/-- `left` bounds the calls that may still nest. -/
theorem descend_spec (Spec : N → S → S → Prop) (nothing : ∀ n s, left s = 0 → Spec n s s)
    (one : ∀ visit bound, (∀ n s, left s ≤ bound → Spec n s (visit n s)) →
      ∀ n s, left s ≤ bound + 1 → Spec n s (step visit n s))
    (depth : Nat) (n : N) (s : S) (enough : left s ≤ depth) :
    Spec n s (descend step depth n s) := by
  -- one step has the calls that are a level deeper as its visits
  induction depth generalizing n s with
  | zero => exact nothing n s (Nat.le_zero.1 enough)
  | succ depth ih => exact one (descend step depth) depth ih n s enough

theorem descend_enough (shrinks : ∀ depth n s, left (descend step depth n s) ≤ left s)
    (nothing : ∀ visit n s, left s = 0 → step visit n s = s)
    (agree : ∀ f g bound, (∀ n s, left (f n s) ≤ left s) → (∀ n s, left s ≤ bound → f n s = g n s) →
      ∀ n s, left s ≤ bound + 1 → step f n s = step g n s)
    (depth : Nat) (n : N) (s : S) (enough : left s ≤ depth) :
    descend step (depth + 1) n s = descend step depth n s := by
  induction depth generalizing n s with
  | zero => exact nothing _ n s (Nat.le_zero.1 enough)
  | succ depth ih => exact agree _ _ depth (shrinks (depth + 1)) ih n s enough

end Rules

section Each

theorem each_rel {R : S → S → Prop} (refl : ∀ s, R s s)
    (trans : ∀ {a b c}, R a b → R b c → R a c) (visit : N → S → S) (nodes : List N) (s : S)
    (one : ∀ n ∈ nodes, ∀ t, R s t → R t (visit n t)) : R s (each visit nodes s) := by
  induction nodes generalizing s with
  | nil => exact refl s
  | cons n rest ih =>
    have first : R s (visit n s) := one n (.head _) s (refl s)
    refine trans first (ih (visit n s) ?_)
    intro m member t later
    exact one m (mem_cons_of_mem n member) t (trans first later)

theorem each_agree {f g : N → S → S} {left : S → Nat} {bound : Nat}
    (shrinks : ∀ n s, left (f n s) ≤ left s)
    (same : ∀ n s, left s ≤ bound → f n s = g n s) (nodes : List N) (s : S)
    (enough : left s ≤ bound) : each f nodes s = each g nodes s := by
  induction nodes generalizing s with
  | nil => rfl
  | cons n rest ih =>
    have first : f n s = g n s := same n s enough
    have later := ih (f n s) (Nat.le_trans (shrinks n s) enough)
    unfold each at later ⊢
    rw [foldl_cons, foldl_cons, ← first]
    exact later

end Each

section Measure

theorem countP_lt {α : Type u} {before after : α → Bool} {l : List α} {a : α} (member : a ∈ l)
    (fewer : ∀ x, after x = true → before x = true) (was : before a = true)
    (gone : after a = false) : l.countP after < l.countP before := by
  rcases append_of_mem member with ⟨front, back, rfl⟩
  have front_le : front.countP after ≤ front.countP before :=
    countP_mono_left fun x _ => fewer x
  have back_le : back.countP after ≤ back.countP before :=
    countP_mono_left fun x _ => fewer x
  simp only [countP_append, countP_cons, was, gone, if_true, Bool.false_eq_true, if_false]
  omega

end Measure

end Descent
