import Lucis.Base64

/-!
The decoder of encoding/encoding.c on any text, base64 or not: the length it
computes, the block it stores to, and the vector made of the result.
-/

namespace Lucis.Base64

open Memory

/-- What the caller's header holds; `freed` is the block given to `free`, which is none when
the text is the literal of a refused request. -/
structure VecResult where
  block : Option OutBlock
  len : Nat
  cap : Nat
  freed : Option OutBlock

/-- `lucis_base64DecodeVec`; `none` is a store outside a block. -/
def lucisBase64DecodeVec (heap : Nat → Bool) (s : List UInt8) : Option VecResult := do
  let decoded ← lucisBase64DecodeStr heap s
  let len := decoded.text.length
  let buf ← if heap len then ((OutBlock.fresh len).putAll decoded.text).map some else some none
  some ⟨buf, len, len, decoded.block⟩

/-- The output length does not go below zero, every store is inside the block, and what comes
back is no longer than three bytes for each group. -/
structure DecodeSafe (heap : Nat → Bool) (s : List UInt8) : Prop where
  no_underflow : padding s ≤ s.length / 4 * 3
  text : ∃ result, lucisBase64DecodeStr heap s = some result ∧
    result.text.length ≤ 3 * (s.length / 4)
  bytes : ∃ result, lucisBase64DecodeVec heap s = some result ∧
    result.len ≤ 3 * (s.length / 4)

section Safety
variable {s : List UInt8}

theorem padding_le_two (s : List UInt8) : padding s ≤ 2 := by
  unfold padding
  split <;> split <;> omega

theorem padding_le_iff : padding s ≤ s.length / 4 * 3 ↔ 4 ≤ s.length ∨ padding s = 0 := by
  have most := padding_le_two s
  omega

theorem decodedLen_eq (small : s.length < 2 ^ 63) (enough : padding s ≤ s.length / 4 * 3) :
    decodedLen s = s.length / 4 * 3 - padding s := by
  rw [decodedLen, Nat.sub_add_comm enough, sizeT, Nat.add_mod_right]
  exact Nat.mod_eq_of_lt (by omega)

theorem decode_bounded (heap : Nat → Bool) (small : s.length < 2 ^ 63)
    (enough : padding s ≤ s.length / 4 * 3) : ∃ result, lucisBase64DecodeStr heap s = some result ∧
      result.text.length ≤ s.length / 4 * 3 - padding s := by
  generalize len_eq : s.length / 4 * 3 - padding s = len
  have outLen : decodedLen s = len := (decodedLen_eq small enough).trans len_eq
  have request : sizeT (len + 1) = len + 1 := sizeT_of_lt (by omega)
  by_cases served : heap (len + 1) = true
  · rcases decodeLoop_writes s len (.fresh (len + 1)) (by simp [OutBlock.fresh])
      (by simp [OutBlock.fresh]) with ⟨out, stored, size, written⟩
    have below : out.written.length ≤ len := by
      rw [written]
      exact List.length_take_le _ _
    have room : out.written.length < out.size := by
      rw [size]
      exact Nat.lt_succ_of_le below
    rcases put_fits out 0 room with ⟨ended, closed, _⟩
    refine ⟨⟨out.written, some ended⟩, ?_, below⟩
    simp only [lucisBase64DecodeStr, outLen, request, served, if_true, stored,
      Option.bind_eq_bind, Option.bind_some, closed]
  · refine ⟨⟨[], none⟩, ?_, Nat.zero_le _⟩
    simp only [lucisBase64DecodeStr, outLen, request, if_neg served]

theorem decodeVec_copies {heap : Nat → Bool} {decoded}
    (ran : lucisBase64DecodeStr heap s = some decoded) :
    ∃ result, lucisBase64DecodeVec heap s = some result ∧ result.len = decoded.text.length := by
  rw [lucisBase64DecodeVec, ran, Option.bind_eq_bind, Option.bind_some]
  by_cases served : heap decoded.text.length = true
  · rcases fresh_fits decoded.text decoded.text.length (le_rfl) with ⟨buf, filled, _⟩
    rw [if_pos served, filled]
    exact ⟨_, rfl, rfl⟩
  · rw [if_neg served]
    exact ⟨_, rfl, rfl⟩

end Safety

/-- Decoding is safe exactly on the texts that have four characters or do not end in padding:
on a shorter one the padding is taken off a quotient that is zero. -/
theorem decode_safe_iff (heap : Nat → Bool) (s : Bytes) :
    DecodeSafe heap s.data ↔ 4 ≤ s.data.length ∨ padding s.data = 0 := by
  rw [← padding_le_iff]
  constructor
  · exact fun safe => safe.no_underflow
  · intro enough
    rcases decode_bounded heap s.addressable enough with ⟨decoded, ran, short⟩
    rcases decodeVec_copies ran with ⟨result, copied, len⟩
    exact ⟨enough, ⟨decoded, ran, by omega⟩, ⟨result, copied, by omega⟩⟩

/-- The text `=`: the length is 2^64 - 1, the request 0 bytes, and the terminator is stored at
index 0. -/
theorem decode_single_pad :
    decodedLen [61] = 2 ^ 64 - 1 ∧
      lucisBase64DecodeStr (fun bytes => decide (bytes < 2 ^ 63)) [61] = none ∧
      ¬DecodeSafe (fun bytes => decide (bytes < 2 ^ 63)) [61] := by
  have stored : lucisBase64DecodeStr (fun bytes => decide (bytes < 2 ^ 63)) [61] = none := by
    decide
  refine ⟨by decide, stored, ?_⟩
  intro safe
  rcases safe.text with ⟨result, ran, _⟩
  rw [stored] at ran
  cases ran

end Lucis.Base64
