import Mathlib.Algebra.Field.ZMod
import Mathlib.Algebra.Polynomial.Div
import Mathlib.RingTheory.Polynomial.Basic
import Mathlib.Tactic.LinearCombination

/-!
Shift registers of reflected cyclic codes over the field of two elements. Bit 0 of a
register is its highest coefficient, so that a shift to the right multiplies by `X` and
what falls out is taken back in through the taps. A register fed with the bits of a
message holds the remainder of the message polynomial. Several steps at once split into
those of the low bits and a shift of the high ones.
-/

namespace ReflectedCode

variable {w : Nat}

def bitStep (taps r : BitVec w) : BitVec w :=
  if r.getLsbD 0 then taps ^^^ (r >>> 1) else r >>> 1

def bitSteps (taps : BitVec w) : Nat → BitVec w → BitVec w
  | 0, r => r
  | n + 1, r => bitSteps taps n (bitStep taps r)

section Linear

variable (taps : BitVec w)

theorem bitStep_xor (r s : BitVec w) :
    bitStep taps (r ^^^ s) = bitStep taps r ^^^ bitStep taps s := by
  unfold bitStep
  rw [BitVec.ushiftRight_xor_distrib, BitVec.getLsbD_xor]
  cases r.getLsbD 0 <;> cases s.getLsbD 0
  · rfl
  · simp only [Bool.false_xor, if_true, Bool.false_eq_true, if_false]
    ac_rfl
  · simp only [Bool.xor_false, if_true, Bool.false_eq_true, if_false]
    ac_rfl
  · -- the taps cancel
    have cancel : taps ^^^ (r >>> 1) ^^^ (taps ^^^ (s >>> 1)) =
        taps ^^^ taps ^^^ (r >>> 1 ^^^ s >>> 1) := by ac_rfl
    simp [cancel]

variable (n : Nat)

theorem bitSteps_xor (r s : BitVec w) :
    bitSteps taps n (r ^^^ s) = bitSteps taps n r ^^^ bitSteps taps n s := by
  induction n generalizing r s with
  | zero => rfl
  | succ n ih => simp only [bitSteps, bitStep_xor, ih]

theorem bitSteps_clear (r : BitVec w) (clear : ∀ i < n, r.getLsbD i = false) :
    bitSteps taps n r = r >>> n := by
  induction n generalizing r with
  | zero => simp [bitSteps]
  | succ n ih =>
    have first : bitStep taps r = r >>> 1 := by simp [bitStep, clear 0 (by omega)]
    rw [bitSteps, first, ih]
    · rw [← BitVec.shiftRight_add, add_comm]
    · intro i small
      simpa [add_comm] using clear (1 + i) (by omega)

/-- The bits below place `n`. -/
def low (n : Nat) (r : BitVec w) : BitVec w := (r.setWidth n).setWidth w

theorem getLsbD_low (r : BitVec w) (i : Nat) :
    (low n r).getLsbD i = (decide (i < n) && r.getLsbD i) := by
  rw [low, BitVec.getLsbD_setWidth, BitVec.getLsbD_setWidth]
  by_cases inside : i < w
  · simp [inside]
  · simp [inside, BitVec.getLsbD_of_ge r i (by omega)]

theorem bitSteps_split (r : BitVec w) :
    bitSteps taps n r = bitSteps taps n (low n r) ^^^ (r >>> n) := by
  have high_clear : ∀ i < n, (r ^^^ low n r).getLsbD i = false := by
    intro i small
    simp [getLsbD_low, small]
  have high_shift : (r ^^^ low n r) >>> n = r >>> n := by
    apply BitVec.eq_of_getLsbD_eq
    intro i _
    simp [getLsbD_low]
  have parts : low n r ^^^ (r ^^^ low n r) = r := by
    rw [BitVec.xor_comm r, ← BitVec.xor_assoc, BitVec.xor_self, BitVec.zero_xor]
  calc
    bitSteps taps n r = bitSteps taps n (low n r ^^^ (r ^^^ low n r)) := by rw [parts]
    _ = bitSteps taps n (low n r) ^^^ bitSteps taps n (r ^^^ low n r) := bitSteps_xor taps n _ _
    _ = bitSteps taps n (low n r) ^^^ (r >>> n) := by
        rw [bitSteps_clear taps n _ high_clear, high_shift]

end Linear

section Feeding

variable (taps : BitVec w)

def feed (r : BitVec w) (bit : Bool) : BitVec w :=
  bitStep taps (r ^^^ (BitVec.ofBool bit).setWidth w)

def packed : List Bool → BitVec w
  | [] => 0
  | bit :: rest => (packed rest <<< 1) ^^^ (BitVec.ofBool bit).setWidth w

theorem getLsbD_ofBool (bit : Bool) (i : Nat) :
    ((BitVec.ofBool bit).setWidth w).getLsbD i = (decide (i < w) && (decide (i = 0) && bit)) := by
  rw [BitVec.getLsbD_setWidth]
  cases i with
  | zero => simp
  | succ i => simp

variable (bits : List Bool)

theorem getLsbD_packed (i : Nat) :
    (packed bits : BitVec w).getLsbD i = (decide (i < w) && bits.getD i false) := by
  induction bits generalizing i with
  | nil => simp [packed]
  | cons bit rest ih =>
    rw [packed, BitVec.getLsbD_xor, BitVec.getLsbD_shiftLeft, getLsbD_ofBool]
    cases i with
    | zero => simp
    | succ i =>
      by_cases inside : i + 1 < w
      · have earlier : i < w := by omega
        simpa [inside, earlier] using ih i
      · simp [inside]

theorem foldl_feed (short : bits.length ≤ w) (r : BitVec w) :
    bits.foldl (feed taps) r = bitSteps taps bits.length (r ^^^ packed bits) := by
  induction bits generalizing r with
  | nil => simp [bitSteps, packed]
  | cons bit rest ih =>
    rw [List.length_cons] at short
    have back : bitStep taps (packed rest <<< 1) = packed rest := by
      have clear : (packed rest <<< 1 : BitVec w).getLsbD 0 = false := by simp
      apply BitVec.eq_of_getLsbD_eq
      intro i inside
      rw [bitStep, clear]
      by_cases last : i + 1 < w
      · simp [add_comm 1, last, inside]
      · -- the word is full here, and its last place is past the bits
        have past : rest.length ≤ i := by omega
        simp [getLsbD_packed, last, add_comm 1, List.getElem?_eq_none past]
    have entered : r ^^^ packed (bit :: rest) =
        (r ^^^ (BitVec.ofBool bit).setWidth w) ^^^ (packed rest <<< 1) := by
      rw [packed]
      ac_rfl
    rw [List.foldl_cons, ih (by omega), List.length_cons, bitSteps, entered, bitStep_xor, back,
      feed]

end Feeding

noncomputable section Polynomials

open Polynomial

/-- A register as a polynomial: bit `i` is the coefficient at `w - 1 - i`. -/
def poly (r : BitVec w) : (ZMod 2)[X] :=
  ∑ i ∈ Finset.range w, if r.getLsbD i then X ^ (w - 1 - i) else 0

def generator (taps : BitVec w) : (ZMod 2)[X] := X ^ w + poly taps

def message : List Bool → (ZMod 2)[X]
  | [] => 0
  | bit :: rest => (if bit then X ^ rest.length else 0) + message rest

theorem poly_xor (r s : BitVec w) : poly (r ^^^ s) = poly r + poly s := by
  simp only [poly, ← Finset.sum_add_distrib]
  apply Finset.sum_congr rfl
  intro i _
  rw [BitVec.getLsbD_xor]
  cases r.getLsbD i <;> cases s.getLsbD i
  · simp
  · simp
  · simp
  · simp [CharTwo.add_self_eq_zero]

theorem degree_poly (r : BitVec w) : (poly r).degree < w := by
  rw [← mem_degreeLT]
  apply Submodule.sum_mem
  intro i member
  rw [Finset.mem_range] at member
  split
  · rw [mem_degreeLT]
    calc
      (X ^ (w - 1 - i) : (ZMod 2)[X]).degree ≤ (w - 1 - i : Nat) := degree_X_pow_le _
      _ < w := by exact_mod_cast (by omega : w - 1 - i < w)
  · exact Submodule.zero_mem _

variable (taps : BitVec w)

theorem generator_monic : (generator taps).Monic :=
  monic_X_pow_add (degree_poly taps)

theorem generator_degree : (generator taps).degree = w :=
  (degree_add_eq_left_of_degree_lt
    (by rw [degree_X_pow]; exact degree_poly taps)).trans (degree_X_pow w)

theorem poly_mod (r : BitVec w) : poly r %ₘ generator taps = poly r := by
  rw [modByMonic_eq_self_iff (generator_monic taps), generator_degree]
  exact degree_poly r

theorem poly_shift (r : BitVec w) (positive : 0 < w) :
    X * poly r = (if r.getLsbD 0 then X ^ w else 0) + poly (r >>> 1) := by
  rcases Nat.exists_eq_add_of_lt positive with ⟨n, width⟩
  have width : w = n + 1 := by omega
  subst width
  have last : (r >>> 1).getLsbD n = false := by
    simp
  rw [poly, poly, Finset.sum_range_succ', Finset.sum_range_succ, last, mul_add, Finset.mul_sum,
    add_comm]
  congr 1
  · split
    · rw [Nat.sub_zero, Nat.add_sub_cancel, pow_succ, mul_comm]
    · rw [mul_zero]
  · rw [if_neg Bool.false_ne_true, add_zero]
    apply Finset.sum_congr rfl
    intro i member
    rw [Finset.mem_range] at member
    rw [BitVec.getLsbD_ushiftRight, add_comm 1 i, mul_ite, mul_zero]
    have exponent : n + 1 - 1 - i = n + 1 - 1 - (i + 1) + 1 := by omega
    rw [exponent, pow_succ, mul_comm]

theorem poly_bitStep (r : BitVec w) (positive : 0 < w) :
    poly (bitStep taps r) = X * poly r + if r.getLsbD 0 then generator taps else 0 := by
  rw [poly_shift r positive, bitStep]
  split
  · rw [poly_xor, generator]
    -- twice the leading coefficient is nothing
    have twice := CharTwo.add_self_eq_zero (X ^ w : (ZMod 2)[X])
    linear_combination -twice
  · simp

theorem poly_bit (bit : Bool) (positive : 0 < w) :
    poly ((BitVec.ofBool bit).setWidth w) = if bit then X ^ (w - 1) else 0 := by
  rw [poly, Finset.sum_eq_single 0]
  · cases bit <;> simp [positive]
  · intro i _ other
    simp [other]
  · intro outside
    simp [positive] at outside

/-- Feeding a bit multiplies by `X` and adds the bit at `X ^ w`, up to the generator. -/
theorem poly_feed (r : BitVec w) (bit : Bool) (positive : 0 < w) : generator taps ∣
      poly (feed taps r bit) - (X * poly r + if bit then X ^ w else 0) := by
  have entered : X * (if bit then X ^ (w - 1) else 0) =
      (if bit then X ^ w else 0 : (ZMod 2)[X]) := by
    cases bit
    · simp
    · simpa using mul_pow_sub_one (ne_of_gt positive) (X : (ZMod 2)[X])
  rw [feed, poly_bitStep taps _ positive, poly_xor, poly_bit bit positive, mul_add, entered,
    add_sub_cancel_left]
  split
  · exact dvd_rfl
  · exact dvd_zero _

theorem poly_run (positive : 0 < w) (bits : List Bool) (r : BitVec w) :
    poly (bits.foldl (feed taps) r) =
      (X ^ bits.length * poly r + X ^ w * message bits) %ₘ generator taps := by
  induction bits generalizing r with
  | nil => simp [message, poly_mod]
  | cons bit rest ih =>
    rw [List.foldl_cons, ih]
    apply modByMonic_eq_of_dvd_sub (generator_monic taps)
    rcases poly_feed taps r bit positive with ⟨quotient, fed⟩
    rw [sub_eq_iff_eq_add] at fed
    rw [fed, List.length_cons, message]
    refine ⟨X ^ rest.length * quotient, ?_⟩
    cases bit
    · simp only [Bool.false_eq_true, if_false]
      ring
    · simp only [if_true]
      ring

end Polynomials

end ReflectedCode
