import Mathlib.Algebra.Ring.Nat
import Mathlib.Data.List.Basic

/-!
Padding of messages to whole blocks: a mark behind the message, the least number of
zeros, and the length of the message in a field of fixed size at the end of the last
block. The encoding of the length is a parameter; below the bound it has to be
injective. Bytes of a number are here too, lowest or highest first.
-/

namespace BlockPadding

open List

section Bytes

/-- The lowest `width` bytes of a number, the lowest first. -/
def littleEndian : Nat → Nat → List UInt8
  | 0, _ => []
  | width + 1, n => UInt8.ofNat n :: littleEndian width (n / 256)

def bigEndian (width n : Nat) : List UInt8 := (littleEndian width n).reverse

theorem littleEndian_length (width n : Nat) : (littleEndian width n).length = width := by
  induction width generalizing n with
  | zero => rfl
  | succ width ih => rw [littleEndian, length_cons, ih]

theorem bigEndian_length (width n : Nat) : (bigEndian width n).length = width := by
  rw [bigEndian, length_reverse, littleEndian_length]

theorem bigEndian_succ (width n : Nat) :
    bigEndian (width + 1) n = bigEndian width (n / 256) ++ [UInt8.ofNat n] := by
  rw [bigEndian, littleEndian, reverse_cons, bigEndian]

theorem littleEndian_injective {width m n : Nat} (m_lt : m < 256 ^ width) (n_lt : n < 256 ^ width)
    (same : littleEndian width m = littleEndian width n) : m = n := by
  induction width generalizing m n with
  | zero =>
    rw [Nat.pow_zero] at m_lt n_lt
    omega
  | succ width ih =>
    rw [pow_succ, mul_comm] at m_lt n_lt
    rw [littleEndian, littleEndian, List.cons.injEq] at same
    have low := congrArg UInt8.toNat same.1
    have high := ih (Nat.div_lt_of_lt_mul m_lt) (Nat.div_lt_of_lt_mul n_lt) same.2
    simp only [UInt8.toNat_ofNat'] at low
    omega

theorem bigEndian_injective {width m n : Nat} (m_lt : m < 256 ^ width) (n_lt : n < 256 ^ width)
    (same : bigEndian width m = bigEndian width n) : m = n :=
  littleEndian_injective m_lt n_lt (reverse_injective same)

theorem bigEndian_wider (extra width n : Nat) (small : n < 256 ^ width) :
    bigEndian (extra + width) n = List.replicate extra 0 ++ bigEndian width n := by
  induction width generalizing n with
  | zero =>
    have zero : n = 0 := by simpa using small
    subst zero
    induction extra with
    | zero => rfl
    | succ extra ih =>
      rw [add_zero] at ih ⊢
      rw [bigEndian_succ, Nat.zero_div, ih, replicate_succ']
      simp [bigEndian, littleEndian]
  | succ width ih =>
    rw [pow_succ, mul_comm] at small
    rw [← add_assoc, bigEndian_succ, ih _ (Nat.div_lt_of_lt_mul small), bigEndian_succ,
      append_assoc]

theorem bigEndian_eq_map (width n : Nat) :
    bigEndian width n = (List.range width).map fun i => UInt8.ofNat (n / 256 ^ (width - 1 - i)) := by
  induction width generalizing n with
  | zero => rfl
  | succ width ih =>
    rw [bigEndian_succ, ih, range_succ, map_append]
    congr 1
    · apply map_congr_left
      intro i member
      rw [mem_range] at member
      have exponent : width + 1 - 1 - i = width - 1 - i + 1 := by omega
      rw [exponent, pow_succ, mul_comm, Nat.div_div_eq_div_mul]
    · simp

end Bytes

/-- How messages are padded: blocks of `block` bytes, the last `field` of them for the length. -/
structure Scheme where
  block : Nat
  field : Nat
  mark : UInt8
  encode : Nat → List UInt8
  encode_length : ∀ n, (encode n).length = field
  field_lt : field < block

namespace Scheme

variable (scheme : Scheme)

/-- How many zeros stand behind the mark of a message of `n` bytes. -/
def zeros (n : Nat) : Nat :=
  (scheme.block - (n + 1 + scheme.field) % scheme.block) % scheme.block

def pad (message : List UInt8) : List UInt8 :=
  message ++ scheme.mark :: List.replicate (scheme.zeros message.length) 0 ++
    scheme.encode message.length

def blocks (bytes : List UInt8) : List (List UInt8) :=
  (List.range (bytes.length / scheme.block)).map fun i =>
    (bytes.drop (i * scheme.block)).take scheme.block

variable (message : List UInt8)

theorem pad_length : (scheme.pad message).length =
      message.length + 1 + scheme.zeros message.length + scheme.field := by
  simp only [pad, length_append, length_cons, length_replicate, scheme.encode_length]
  omega

theorem fills_iff (n more : Nat) :
    scheme.block ∣ n + 1 + more + scheme.field ↔ more % scheme.block = scheme.zeros n := by
  have positive : 0 < scheme.block := Nat.zero_lt_of_lt scheme.field_lt
  have remainder := Nat.mod_lt (n + 1 + scheme.field) positive
  have rearranged : n + 1 + more + scheme.field = n + 1 + scheme.field + more := by omega
  rw [Nat.dvd_iff_mod_eq_zero, rearranged, Nat.add_mod, zeros]
  have small := Nat.mod_lt more positive
  -- `filled` of the last block is taken, or all of it
  generalize (n + 1 + scheme.field) % scheme.block = filled at remainder ⊢
  generalize more % scheme.block = rest at small ⊢
  rcases Nat.eq_zero_or_pos filled with none | some
  · subst none
    rw [zero_add, Nat.mod_eq_of_lt small, Nat.sub_zero, Nat.mod_self]
  · rw [Nat.mod_eq_of_lt (by omega : scheme.block - filled < scheme.block)]
    rcases Nat.lt_or_ge (filled + rest) scheme.block with short | full
    · rw [Nat.mod_eq_of_lt short]
      omega
    · rw [Nat.mod_eq_sub_mod full, Nat.mod_eq_of_lt (by omega)]
      omega

theorem zeros_lt (n : Nat) : scheme.zeros n < scheme.block :=
  Nat.mod_lt _ (Nat.zero_lt_of_lt scheme.field_lt)

theorem pad_whole : scheme.block ∣ (scheme.pad message).length := by
  rw [pad_length, fills_iff, Nat.mod_eq_of_lt (scheme.zeros_lt _)]

theorem zeros_least {n more : Nat} (fills : scheme.block ∣ n + 1 + more + scheme.field) :
    scheme.zeros n ≤ more :=
  ((scheme.fills_iff n more).1 fills) ▸ Nat.mod_le _ _

theorem pad_injective {bound : Nat}
    (apart : ∀ m < bound, ∀ n < bound, scheme.encode m = scheme.encode n → m = n)
    {message other : List UInt8} (short : message.length < bound) (short' : other.length < bound)
    (same : scheme.pad message = scheme.pad other) : message = other := by
  -- the fields are of one size, so they tell the lengths apart first
  have tails : scheme.encode message.length = scheme.encode other.length := by
    refine (append_inj' same ?_).2
    rw [scheme.encode_length, scheme.encode_length]
  have lengths := apart _ short _ short' tails
  rw [pad, pad, append_assoc, append_assoc] at same
  exact (append_inj same lengths).1

end Scheme

end BlockPadding
