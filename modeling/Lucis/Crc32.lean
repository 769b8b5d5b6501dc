import Lucis.Library.ReflectedCode

/-!
`lucis_crc32Bytes` of builtins/hash/hash.c. The table is a static of the function,
filled by the first call and read by all later ones, so a call takes the statics and
gives them back. A read outside the table is a fault (`none`). The register is the
one of a reflected code whose taps are the constant of the inner loop.
-/

namespace Lucis.Crc32

open ReflectedCode List

/-- `c = (c & 1) ? (0xEDB88320u ^ (c >> 1)) : (c >> 1)` -/
def bitLoop : Nat → UInt32 → UInt32
  | 0, c => c
  | k + 1, c => bitLoop k (if c &&& 1 ≠ 0 then (0xEDB88320 : UInt32) ^^^ (c >>> 1) else c >>> 1)

structure Statics where
  table : List UInt32
  inited : Bool

def Statics.initial : Statics := ⟨List.replicate 256 0, false⟩

def fillTable : List UInt32 :=
  (List.range 256).map fun i => bitLoop 8 (UInt32.ofNat i)

def tableStep (table : List UInt32) (crc : UInt32) (byte : UInt8) : Option UInt32 :=
  (table[((crc ^^^ byte.toUInt32) &&& 0xFF).toNat]?).map (· ^^^ (crc >>> 8))

def lucisCrc32Bytes (s : Statics) (data : List UInt8) : Option UInt32 × Statics :=
  let s := if s.inited then s else ⟨fillTable, true⟩
  ((data.foldlM (tableStep s.table) 0xFFFFFFFF).map (· ^^^ 0xFFFFFFFF), s)

def calls : Statics → List (List UInt8) → List (Option UInt32)
  | _, [] => []
  | s, data :: rest =>
    (lucisCrc32Bytes s data).1 :: calls (lucisCrc32Bytes s data).2 rest

def bitwise (data : List UInt8) : UInt32 :=
  (data.foldl (fun crc byte => bitLoop 8 (crc ^^^ byte.toUInt32)) 0xFFFFFFFF) ^^^ 0xFFFFFFFF

section Steps

def taps : BitVec 32 := 0xEDB88320

theorem bitLoop_bits (k : Nat) (c : UInt32) :
    (bitLoop k c).toBitVec = bitSteps taps k c.toBitVec := by
  induction k generalizing c with
  | zero => rfl
  | succ k ih =>
    have bottom : c &&& 1 ≠ 0 ↔ c.toBitVec.getLsbD 0 = true := by
      have masked : (c &&& 1).toBitVec = (BitVec.ofBool (c.toBitVec.getLsbD 0)).setWidth 32 :=
        (UInt32.toBitVec_and c 1).trans BitVec.and_one_eq_setWidth_ofBool_getLsbD
      rw [ne_eq, ← UInt32.toBitVec_inj, masked]
      cases c.toBitVec.getLsbD 0 <;> decide
    rw [bitLoop, ih, bitSteps, bitStep]
    congr 1
    by_cases set : c.toBitVec.getLsbD 0 = true
    · rw [if_pos (bottom.2 set), if_pos set]
      rfl
    · rw [if_neg (mt bottom.1 set), if_neg set]
      rfl

theorem tableStep_eq (crc : UInt32) (byte : UInt8) :
    tableStep fillTable crc byte = some (bitLoop 8 (crc ^^^ byte.toUInt32)) := by
  -- the index is the low byte of what the eight steps start with
  have small : ((crc ^^^ byte.toUInt32) &&& 0xFF).toNat < 256 := by
    rw [UInt32.toNat_and]
    exact lt_of_le_of_lt Nat.and_le_right (by decide)
  have entry : fillTable[((crc ^^^ byte.toUInt32) &&& 0xFF).toNat]? =
      some (bitLoop 8 ((crc ^^^ byte.toUInt32) &&& 0xFF)) := by
    rw [fillTable, getElem?_map, getElem?_range small, Option.map_some, UInt32.ofNat_toNat]
  have masked : ((crc ^^^ byte.toUInt32) &&& 0xFF).toBitVec =
      low 8 (crc ^^^ byte.toUInt32).toBitVec := by
    apply BitVec.eq_of_getLsbD_eq
    intro i inside
    have mask : (0xFF#32).getLsbD i = decide (i < 8) := by
      rw [show (0xFF#32) = BitVec.ofNat 32 (2 ^ 8 - 1) by rfl, BitVec.getLsbD_ofNat,
        Nat.testBit_two_pow_sub_one]
      simp [inside]
    rw [getLsbD_low, UInt32.toBitVec_and, BitVec.getLsbD_and]
    exact (congrArg (_ && ·) mask).trans (Bool.and_comm _ _)
  -- the byte does not reach the bits that are shifted in
  have shifted : (crc ^^^ byte.toUInt32).toBitVec >>> 8 = crc.toBitVec >>> 8 := by
    apply BitVec.eq_of_getLsbD_eq
    intro i _
    simp
  rw [tableStep, entry, Option.map_some, Option.some.injEq, ← UInt32.toBitVec_inj]
  calc
    (bitLoop 8 ((crc ^^^ byte.toUInt32) &&& 0xFF) ^^^ (crc >>> 8)).toBitVec =
        bitSteps taps 8 (low 8 (crc ^^^ byte.toUInt32).toBitVec) ^^^ (crc.toBitVec >>> 8) := by
      rw [UInt32.toBitVec_xor, bitLoop_bits, masked]
      rfl
    _ = (bitLoop 8 (crc ^^^ byte.toUInt32)).toBitVec := by
      rw [← shifted, ← bitSteps_split, bitLoop_bits]

theorem tableSteps_eq (data : List UInt8) (crc : UInt32) : data.foldlM (tableStep fillTable) crc =
      some (data.foldl (fun crc byte => bitLoop 8 (crc ^^^ byte.toUInt32)) crc) := by
  induction data generalizing crc with
  | nil => rfl
  | cons byte rest ih =>
    rw [foldlM_cons, tableStep_eq, foldl_cons]
    exact ih _

def Ready (s : Statics) : Prop := s.inited = true → s.table = fillTable

theorem lucisCrc32Bytes_ready {s : Statics} (ready : Ready s) (data : List UInt8) :
    (lucisCrc32Bytes s data).1 = some (bitwise data) ∧ Ready (lucisCrc32Bytes s data).2 := by
  have table : (if s.inited then s else ⟨fillTable, true⟩ : Statics).table = fillTable := by
    split
    · next started => exact ready started
    · rfl
  constructor
  · simp only [lucisCrc32Bytes, table, tableSteps_eq]
    rfl
  · intro _
    exact table

theorem calls_ready {s : Statics} (ready : Ready s) (requests : List (List UInt8)) :
    calls s requests = requests.map fun data => some (bitwise data) := by
  induction requests generalizing s with
  | nil => rfl
  | cons data rest ih =>
    rcases lucisCrc32Bytes_ready ready data with ⟨result, ready'⟩
    rw [calls, result, ih ready', map_cons]

end Steps

section Remainder

open Polynomial

def bitsOf (byte : UInt8) : List Bool := (List.range 8).map byte.toBitVec.getLsbD

theorem packed_bitsOf (byte : UInt8) : packed (bitsOf byte) = byte.toUInt32.toBitVec := by
  apply BitVec.eq_of_getLsbD_eq
  intro i inside
  rw [getLsbD_packed]
  by_cases small : i < 8
  · simp [bitsOf, small, inside]
  · have past : byte.toBitVec.getLsbD i = false := BitVec.getLsbD_of_ge _ _ (by omega)
    simp [bitsOf, small, past]

theorem feed_byte (byte : UInt8) (crc : UInt32) : (bitsOf byte).foldl (feed taps) crc.toBitVec =
      (bitLoop 8 (crc ^^^ byte.toUInt32)).toBitVec := by
  have count : (bitsOf byte).length = 8 := by simp [bitsOf]
  rw [foldl_feed taps _ (by rw [count]; decide), count, packed_bitsOf, bitLoop_bits]
  rfl

theorem feed_bytes (data : List UInt8) (crc : UInt32) :
    (data.flatMap bitsOf).foldl (feed taps) crc.toBitVec =
      (data.foldl (fun crc byte => bitLoop 8 (crc ^^^ byte.toUInt32)) crc).toBitVec := by
  induction data generalizing crc with
  | nil => rfl
  | cons byte rest ih => rw [flatMap_cons, foldl_append, feed_byte, ih, foldl_cons]

theorem poly_bitwise (data : List UInt8) : poly (bitwise data).toBitVec =
      (X ^ (8 * data.length) * poly (BitVec.allOnes 32) +
          X ^ 32 * message (data.flatMap bitsOf)) %ₘ generator taps + poly (BitVec.allOnes 32) := by
  have length : (data.flatMap bitsOf).length = 8 * data.length := by
    simp [length_flatMap, bitsOf, mul_comm]
  have run := poly_run taps (by decide) (data.flatMap bitsOf) (BitVec.allOnes 32)
  have start : (BitVec.allOnes 32) = (0xFFFFFFFF : UInt32).toBitVec := by decide
  rw [length] at run
  rw [bitwise, UInt32.toBitVec_xor, poly_xor, ← feed_bytes, ← start, run]

end Remainder

/-- Every call gives the bitwise CRC-32 of its bytes, in any sequence of calls; that is
the remainder of the message polynomial; and one look at the table is eight bit steps. -/
theorem crc32_exact :
    (∀ requests, calls .initial requests = requests.map fun data => some (bitwise data)) ∧
    (∀ data, poly (bitwise data).toBitVec =
      (Polynomial.X ^ (8 * data.length) * poly (BitVec.allOnes 32) +
          Polynomial.X ^ 32 * message (data.flatMap bitsOf)) %ₘ generator taps +
        poly (BitVec.allOnes 32)) ∧
    ∀ crc byte, tableStep fillTable crc byte = some (bitLoop 8 (crc ^^^ byte.toUInt32)) := by
  constructor
  · exact calls_ready (fun started => by cases started)
  · constructor
    · exact poly_bitwise
    · exact tableStep_eq

/-- The check value of the standard: the digits 1 to 9. -/
example : bitwise [0x31, 0x32, 0x33, 0x34, 0x35, 0x36, 0x37, 0x38, 0x39] = 0xCBF43926 := by
  decide +kernel

end Lucis.Crc32
