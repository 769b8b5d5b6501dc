import Mathlib.Data.Nat.Digits.Lemmas

/-!
Numbers written as lists of digits, the first digit the greatest, in any base; what
reading only the first digits, or reading in another base, does to the number.
-/

namespace Numerals

open List

def numeral (base : Nat) (digits : List Nat) : Nat :=
  digits.foldl (fun value d => value * base + d) 0

theorem foldl_numeral (base start : Nat) (digits : List Nat) :
    digits.foldl (fun value d => value * base + d) start =
      start * base ^ digits.length + numeral base digits := by
  induction digits generalizing start with
  | nil => simp [numeral]
  | cons d rest ih =>
    rw [foldl_cons, ih, numeral, numeral, foldl_cons, ih (0 * base + d), numeral,
      length_cons, pow_succ]
    ring

theorem numeral_append (base : Nat) (first rest : List Nat) :
    numeral base (first ++ rest) = numeral base first * base ^ rest.length + numeral base rest := by
  rw [numeral, foldl_append, foldl_numeral]
  rfl

theorem numeral_concat (base : Nat) (digits : List Nat) (d : Nat) :
    numeral base (digits ++ [d]) = numeral base digits * base + d := by
  rw [numeral_append, length_singleton, Nat.pow_one]
  simp [numeral]

variable {base : Nat}

theorem numeral_prefix_le (pos : 0 < base) (first rest : List Nat) :
    numeral base first ≤ numeral base (first ++ rest) := by
  rw [numeral_append]
  have grows : numeral base first * 1 ≤ numeral base first * base ^ rest.length :=
    Nat.mul_le_mul_left _ (Nat.pow_pos pos)
  omega

theorem numeral_prefix_eq_iff (large : 1 < base) (first rest : List Nat) :
    numeral base first = numeral base (first ++ rest) ↔
      rest = [] ∨ numeral base (first ++ rest) = 0 := by
  constructor
  · intro same
    by_cases none : rest = []
    · exact .inl none
    · right
      rw [numeral_append] at same ⊢
      have grows : 1 < base ^ rest.length :=
        Nat.one_lt_pow (fun zero => none (length_eq_zero_iff.1 zero)) large
      have twice : numeral base first * 2 ≤ numeral base first * base ^ rest.length :=
        Nat.mul_le_mul_left _ grows
      omega
  · rintro (rfl | zero)
    · rw [append_nil]
    · have below := numeral_prefix_le (lt_trans Nat.one_pos large) first rest
      rw [zero] at below ⊢
      exact Nat.le_zero.1 below

variable {digits : List Nat}

theorem digit_le_numeral (pos : 0 < base) {d : Nat}
    (member : d ∈ digits) : d ≤ numeral base digits := by
  induction digits using List.reverseRecOn with
  | nil => cases member
  | append_singleton digits last ih =>
    rw [numeral_concat]
    rcases mem_append.1 member with before | same
    · have grows := Nat.le_mul_of_pos_right (numeral base digits) pos
      have below := ih before
      omega
    · rw [mem_singleton.1 same]
      exact Nat.le_add_left last _

variable {small : Nat}

theorem numeral_base_le (le : small ≤ base) (digits : List Nat) :
    numeral small digits ≤ numeral base digits := by
  induction digits using List.reverseRecOn with
  | nil => exact le_rfl
  | append_singleton digits d ih =>
    rw [numeral_concat, numeral_concat]
    exact Nat.add_le_add_right (Nat.mul_le_mul ih le) d

theorem numeral_base_eq_iff (pos : 0 < small) (lt : small < base)
    (valid : ∀ d ∈ digits, d < small) :
    numeral small digits = numeral base digits ↔ numeral base digits < small := by
  induction digits using List.reverseRecOn with
  | nil => exact ⟨fun _ => pos, fun _ => rfl⟩
  | append_singleton digits d _ =>
    have below := numeral_base_le (le_of_lt lt) digits
    have last : d < small := valid d (by simp)
    rw [numeral_concat, numeral_concat, Nat.add_right_cancel_iff]
    cases before : numeral base digits with
    | zero =>
      rw [before] at below
      simp [Nat.le_zero.1 below, last]
    | succ n =>
      rw [before] at below
      have bound : numeral small digits * small ≤ (n + 1) * small := Nat.mul_le_mul_right _ below
      have strict : (n + 1) * small < (n + 1) * base := Nat.mul_lt_mul_of_pos_left lt n.succ_pos
      have large : base ≤ (n + 1) * base := Nat.le_mul_of_pos_left base n.succ_pos
      constructor
      · intro same
        exact absurd strict (Nat.not_lt_of_le (same ▸ bound))
      · intro small_number
        omega

section Writing

structure Writes (base : Nat) (digits : List Nat) (n : Nat) : Prop where
  valid : ∀ d ∈ digits, d < base
  value : numeral base digits = n
  leading : digits = [0] ∨ ∃ d rest, digits = d :: rest ∧ d ≠ 0

theorem numeral_reverse (base : Nat) (digits : List Nat) :
    numeral base digits.reverse = Nat.ofDigits base digits := by
  induction digits with
  | nil => rfl
  | cons d digits ih =>
    rw [reverse_cons, numeral_concat, ih, Nat.ofDigits_cons]
    ring

theorem writes_digits {base n : Nat} (large : 1 < base) (pos : n ≠ 0) :
    Writes base (Nat.digits base n).reverse n := by
  have some : Nat.digits base n ≠ [] := Nat.digits_ne_nil_iff_ne_zero.2 pos
  constructor
  · intro d member
    exact Nat.digits_lt_base large (mem_reverse.1 member)
  · rw [numeral_reverse, Nat.ofDigits_digits]
  · right
    have last := Nat.getLast_digit_ne_zero base pos
    have split := dropLast_append_getLast some
    rw [← split, reverse_append, reverse_singleton, singleton_append]
    exact ⟨_, _, rfl, last⟩

theorem writes_zero {base : Nat} (pos : 0 < base) : Writes base [0] 0 where
  valid := by
    intro d member
    rwa [mem_singleton.1 member]
  value := by simp [numeral]
  leading := .inl rfl

end Writing

end Numerals
