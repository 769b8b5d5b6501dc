import Mathlib.Data.Nat.Basic

/-!
Intervals of natural numbers up to a limit, with the arithmetic that gives up where
a bound would pass the limit. An interval carries that it is one, so what an
operation returns is never empty and never beyond the limit; the `mem` lemmas say
that no operation loses a value.
-/

structure NatInterval (limit : Nat) where
  lo : Nat
  hi : Nat
  ordered : lo ≤ hi
  bounded : hi ≤ limit

namespace NatInterval

variable {limit : Nat}

def Mem (n : Nat) (a : NatInterval limit) : Prop := a.lo ≤ n ∧ n ≤ a.hi

def single (n : Nat) (bounded : n ≤ limit) : NatInterval limit := ⟨n, n, Nat.le_refl n, bounded⟩

theorem mem_single (n : Nat) (bounded : n ≤ limit) : Mem n (single n bounded) :=
  ⟨le_refl n, le_refl n⟩

def add (a b : NatInterval limit) : Option (NatInterval limit) :=
  if limit - b.lo < a.lo then none
  else if overflow : limit - b.hi < a.hi then none
  else some ⟨a.lo + b.lo, a.hi + b.hi, Nat.add_le_add a.ordered b.ordered,
    Nat.add_le_of_le_sub b.bounded (Nat.le_of_not_lt overflow)⟩

theorem sub_le_sub {a b c d : Nat} (larger : a ≤ b) (smaller : c ≤ d) : a - d ≤ b - c :=
  le_trans (Nat.sub_le_sub_right larger d) (Nat.sub_le_sub_left smaller b)

def sub (a b : NatInterval limit) : Option (NatInterval limit) :=
  if a.lo < b.hi then none
  else some ⟨a.lo - b.hi, a.hi - b.lo, sub_le_sub a.ordered b.ordered,
    Nat.le_trans (Nat.sub_le a.hi b.lo) a.bounded⟩

theorem mul_le_limit {a b : Nat} (fits : ¬(0 < a ∧ limit / a < b)) : a * b ≤ limit := by
  rcases Nat.eq_zero_or_pos a with rfl | positive
  · simp
  · have quotient : b ≤ limit / a := by
      by_contra beyond
      exact fits ⟨positive, Nat.lt_of_not_le beyond⟩
    exact le_trans (Nat.mul_le_mul_left a quotient) (Nat.mul_div_le limit a)

def mul (a b : NatInterval limit) : Option (NatInterval limit) :=
  if 0 < a.lo ∧ limit / a.lo < b.lo then none
  else if overflow : 0 < a.hi ∧ limit / a.hi < b.hi then none
  else some ⟨a.lo * b.lo, a.hi * b.hi, Nat.mul_le_mul a.ordered b.ordered, mul_le_limit overflow⟩

theorem mem_add {a b c : NatInterval limit} (sum : add a b = some c) {m n : Nat} (left : Mem m a)
    (right : Mem n b) : Mem (m + n) c := by
  unfold add at sum
  split at sum
  · cases sum
  · split at sum
    · cases sum
    · cases sum
      exact ⟨Nat.add_le_add left.1 right.1, Nat.add_le_add left.2 right.2⟩

theorem mem_sub {a b c : NatInterval limit} (difference : sub a b = some c) {m n : Nat} (left : Mem m a)
    (right : Mem n b) : n ≤ m ∧ Mem (m - n) c := by
  unfold sub at difference
  split at difference
  · cases difference
  · next above =>
      cases difference
      have order : b.hi ≤ a.lo := Nat.le_of_not_lt above
      exact ⟨le_trans right.2 (le_trans order left.1), sub_le_sub left.1 right.2,
        sub_le_sub left.2 right.1⟩

theorem mem_mul {a b c : NatInterval limit} (product : mul a b = some c) {m n : Nat} (left : Mem m a)
    (right : Mem n b) : Mem (m * n) c := by
  unfold mul at product
  split at product
  · cases product
  · split at product
    · cases product
    · cases product
      exact ⟨Nat.mul_le_mul left.1 right.1, Nat.mul_le_mul left.2 right.2⟩

end NatInterval
