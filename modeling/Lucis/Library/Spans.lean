import Mathlib.Algebra.Order.BigOperators.Group.List
import Mathlib.Algebra.Order.Group.Nat
import Mathlib.Algebra.Ring.Nat

/-!
Spans laid end to end: each begins where the one before it ends.
-/

namespace Spans

open List

variable {α : Type} (offset width : α → Nat)

def Chain : Nat → List α → Nat → Prop
  | start, [], stop => start = stop
  | start, x :: rest, stop => offset x = start ∧ Chain (start + width x) rest stop

variable {offset width}

variable {xs : List α} {start stop : Nat}

variable (chain : Chain offset width start xs stop)
include chain

theorem chain_stop :
    stop = start + (xs.map width).sum := by
  induction xs generalizing start with
  | nil => exact chain.symm
  | cons x rest ih =>
    rw [ih chain.2, map_cons, sum_cons, add_assoc]

theorem chain_within :
    ∀ x ∈ xs, start ≤ offset x ∧ offset x + width x ≤ stop := by
  induction xs generalizing start with
  | nil =>
    intro x member
    cases member
  | cons head rest ih =>
    intro x member
    rcases mem_cons.1 member with rfl | later
    · have stop_eq := chain_stop chain.2
      have offset_eq := chain.1
      omega
    · have inside := ih chain.2 x later
      omega

theorem chain_disjoint :
    xs.Pairwise fun x y => offset x + width x ≤ offset y := by
  induction xs generalizing start with
  | nil => exact List.Pairwise.nil
  | cons x rest ih =>
    refine List.Pairwise.cons ?_ (ih chain.2)
    intro y member
    rw [chain.1]
    exact (chain_within chain.2 y member).1

theorem chain_last
    (some : xs ≠ []) : ∃ x ∈ xs, offset x + width x = stop := by
  induction xs generalizing start with
  | nil => exact absurd rfl some
  | cons head rest ih =>
    cases rest with
    | nil =>
      refine ⟨head, .head _, ?_⟩
      rw [chain.1]
      exact chain.2
    | cons next rest =>
      rcases ih chain.2 (cons_ne_nil _ _) with ⟨x, member, last⟩
      exact ⟨x, .tail _ member, last⟩

omit chain

theorem widths_eq {narrow wide : α → Nat} (below : ∀ x ∈ xs, narrow x ≤ wide x)
    (same : (xs.map narrow).sum = (xs.map wide).sum) : ∀ x ∈ xs, narrow x = wide x := by
  induction xs with
  | nil =>
    intro x member
    cases member
  | cons head rest ih =>
    have tail_below : ∀ x ∈ rest, narrow x ≤ wide x := fun x member =>
      below x (.tail _ member)
    have head_below := below head (.head _)
    have tail_sums := sum_le_sum tail_below
    simp only [map_cons, sum_cons] at same
    intro x member
    rcases mem_cons.1 member with rfl | later
    · omega
    · exact ih tail_below (by omega) x later

end Spans
