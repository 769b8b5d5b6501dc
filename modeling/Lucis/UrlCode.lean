import Lucis.Base64

/-!
URL coding of encoding/encoding.c, in the C locale. The encoder fills a raw
block and copies it to a string block; the decoder reads its text by index, and
a read outside the text or a store outside a block is a fault (`none`). The
decoder of the model also answers which piece of the text each iteration
consumed. A refused request gives the empty text, as in the source.
-/

namespace Lucis.UrlCode

open Memory List Option
open Base64 (EncodingResult)

def percent : UInt8 := 37
def plus : UInt8 := 43
def space : UInt8 := 32

section Encode

/-- `isalnum` of the C locale -/
def isAlnum (c : UInt8) : Bool :=
  (48 ≤ c && c ≤ 57) || (65 ≤ c && c ≤ 90) || (97 ≤ c && c ≤ 122)

def isUnreserved (c : UInt8) : Bool :=
  isAlnum c || c == 45 || c == 95 || c == 46 || c == 126

def hexUpper : List UInt8 :=
  [48, 49, 50, 51, 52, 53, 54, 55, 56, 57, 65, 66, 67, 68, 69, 70]

def hexDigit (value : Nat) : UInt8 := hexUpper.getD value 0

def encodeByte (c : UInt8) : List UInt8 :=
  if isUnreserved c then [c]
  else [percent, hexDigit (c.toNat >>> 4), hexDigit (c.toNat &&& 0x0F)]

def encodeLoop : List UInt8 → OutBlock → Option OutBlock
  | [], raw => some raw
  | c :: rest, raw => (raw.putAll (encodeByte c)).bind (encodeLoop rest)

/-- `s_len * 3 + 1` -/
def rawSize (length : Nat) : Nat := sizeT (length * 3 + 1)

/-- `lucis_urlEncode`; `none` is a store outside a block. -/
def lucisUrlEncode (heap : Nat → Bool) (s : List UInt8) : Option EncodingResult :=
  if heap (rawSize s.length) then do
    let raw ← encodeLoop s (.fresh (rawSize s.length))
    let ended ← raw.put 0
    let size := sizeT (raw.written.length + 1)
    if heap size then do
      let out ← (OutBlock.fresh size).putAll ended.written
      some ⟨raw.written, some out⟩
    else some ⟨[], none⟩
  else some ⟨[], none⟩

end Encode

section Decode

def hexVal (c : UInt8) : Int :=
  if 48 ≤ c ∧ c ≤ 57 then c.toNat - 48
  else if 65 ≤ c ∧ c ≤ 70 then c.toNat - 65 + 10
  else if 97 ≤ c ∧ c ≤ 102 then c.toNat - 97 + 10
  else -1

inductive Chunk where
  | escape (high low : UInt8)
  | single (c : UInt8)
  deriving DecidableEq

def Chunk.bytes : Chunk → List UInt8
  | escape high low => [percent, high, low]
  | single c => [c]

def Chunk.decoded : Chunk → UInt8
  | escape high low => UInt8.ofNat ((hexVal high).toNat <<< 4 ||| (hexVal low).toNat)
  | single c => if c = plus then space else c

/-- The reads of the iteration at index `i`. -/
def decodeStep (s : List UInt8) (i : Nat) : Option Chunk := do
  let c ← load s i
  if c = percent ∧ sizeT (i + 2) < s.length then
    let high ← load s (i + 1)
    let low ← load s (i + 2)
    if 0 ≤ hexVal high ∧ 0 ≤ hexVal low then some (.escape high low) else some (.single c)
  else some (.single c)

/-- Each iteration advances by at least one, so `s_len` of them are enough. -/
def decodeLoop (s : List UInt8) : Nat → Nat → OutBlock → Option (OutBlock × List Chunk)
  | 0, i, out => if i < s.length then none else some (out, [])
  | fuel + 1, i, out =>
    if i < s.length then do
      let chunk ← decodeStep s i
      let out ← out.put chunk.decoded
      let (out, chunks) ← decodeLoop s fuel (i + chunk.bytes.length) out
      some (out, chunk :: chunks)
    else some (out, [])

/-- `lucis_urlDecode`, with the chunks its iterations consumed. -/
def lucisUrlDecode (heap : Nat → Bool) (s : List UInt8) :
    Option (EncodingResult × List Chunk) :=
  let size := sizeT (s.length + 1)
  if heap size then do
    let (out, chunks) ← decodeLoop s s.length 0 (.fresh size)
    let ended ← out.put 0
    some (⟨out.written, some ended⟩, chunks)
  else some (⟨[], none⟩, [])

end Decode

/-- Unreserved characters and `%XX` triples with upper-case digits. -/
def Chunk.Encoded : Chunk → Prop
  | escape high low => high ∈ hexUpper ∧ low ∈ hexUpper
  | single c => isUnreserved c = true

section EncodeFacts

def chunkOf (c : UInt8) : Chunk :=
  if isUnreserved c then .single c
  else .escape (hexDigit (c.toNat >>> 4)) (hexDigit (c.toNat &&& 0x0F))

variable (c : UInt8)

theorem chunkOf_bytes : (chunkOf c).bytes = encodeByte c := by
  unfold chunkOf encodeByte
  split <;> rfl

theorem hexDigit_spec (value : Nat) (small : value < 16) :
    hexDigit value ∈ hexUpper ∧ hexVal (hexDigit value) = value := by
  have all : ∀ v : Fin 16, hexDigit v ∈ hexUpper ∧ hexVal (hexDigit v) = (v : Nat) := by decide
  exact all ⟨value, small⟩

theorem high_small : c.toNat >>> 4 < 16 := by
  rw [Nat.shiftRight_eq_div_pow]
  exact Nat.div_lt_of_lt_mul c.toNat_lt

theorem low_small : c.toNat &&& 0x0F < 16 :=
  Nat.and_lt_two_pow _ (by decide : 0x0F < 2 ^ 4)

theorem chunkOf_encoded : (chunkOf c).Encoded := by
  unfold chunkOf
  split
  · assumption
  · exact ⟨(hexDigit_spec _ (high_small c)).1, (hexDigit_spec _ (low_small c)).1⟩

theorem unreserved_plain (unreserved : isUnreserved c = true) :
    c ≠ percent ∧ c ≠ plus := by
  constructor
  · rintro rfl
    exact absurd unreserved (by decide)
  · rintro rfl
    exact absurd unreserved (by decide)

theorem chunkOf_decoded : (chunkOf c).decoded = c := by
  unfold chunkOf
  split
  case isTrue unreserved => exact if_neg (unreserved_plain c unreserved).2
  case isFalse =>
    simp only [Chunk.decoded, (hexDigit_spec _ (high_small c)).2,
      (hexDigit_spec _ (low_small c)).2, Int.toNat_natCast]
    apply UInt8.toNat_inj.mp
    have halves : c.toNat >>> 4 <<< 4 ||| c.toNat &&& 0x0F = c.toNat := by
      rw [← Nat.shiftLeft_add_eq_or_of_lt (low_small c), Nat.shiftRight_eq_div_pow,
        Nat.shiftLeft_eq, Nat.and_two_pow_sub_one_eq_mod _ 4]
      exact Nat.div_add_mod' _ _
    rw [halves, UInt8.ofNat_toNat]

theorem encodeByte_length : 1 ≤ (encodeByte c).length ∧ (encodeByte c).length ≤ 3 := by
  unfold encodeByte
  split <;> simp

variable (s : List UInt8)

theorem encoded_length : s.length ≤ (s.flatMap encodeByte).length ∧
      (s.flatMap encodeByte).length ≤ 3 * s.length := by
  induction s with
  | nil => simp
  | cons c s ih =>
    have one := encodeByte_length c
    simp only [flatMap_cons, length_append, length_cons]
    omega

theorem encodeLoop_eq (raw : OutBlock) :
    encodeLoop s raw = raw.putAll (s.flatMap encodeByte) := by
  induction s generalizing raw with
  | nil => rfl
  | cons c s ih =>
    rw [encodeLoop, flatMap_cons, putAll_append]
    congr 1
    funext next
    exact ih next

theorem chunks_bytes :
    (s.map chunkOf).flatMap Chunk.bytes = s.flatMap encodeByte := by
  induction s with
  | nil => rfl
  | cons c s ih => simp only [map_cons, flatMap_cons, chunkOf_bytes, ih]

theorem chunks_decoded : (s.map chunkOf).map Chunk.decoded = s := by
  rw [List.map_map]
  exact (map_congr_left fun c _ => chunkOf_decoded c).trans (List.map_id s)

end EncodeFacts

section DecodeFacts

theorem chunk_bytes_pos (chunk : Chunk) : 0 < chunk.bytes.length := by
  cases chunk <;> exact Nat.succ_pos _

variable (s : List UInt8) (i : Nat)

theorem load_drop (offset : Nat) : load s (i + offset) = (s.drop i)[offset]? := by
  rw [load, getElem?_drop]

/-- The look-ahead `i + 2 < s_len` says that two more bytes follow. -/
theorem lookAhead_iff (short : s.length + 1 < 2 ^ 64) (inside : i < s.length) :
    sizeT (i + 2) < s.length ↔ ∃ c high low rest, s.drop i = c :: high :: low :: rest := by
  rw [sizeT_of_lt (by omega)]
  have remaining : (s.drop i).length = s.length - i := length_drop
  constructor
  · intro ahead
    rcases pieces : s.drop i with - | ⟨c, - | ⟨high, - | ⟨low, rest⟩⟩⟩
    · simp [pieces] at remaining; omega
    · simp [pieces] at remaining; omega
    · simp [pieces] at remaining; omega
    · exact ⟨c, high, low, rest, rfl⟩
  · rintro ⟨c, high, low, rest, pieces⟩
    simp [pieces] at remaining
    omega

theorem decodeStep_spec (short : s.length + 1 < 2 ^ 64) (inside : i < s.length) :
    ∃ chunk, decodeStep s i = some chunk ∧ ∃ rest, s.drop i = chunk.bytes ++ rest := by
  have first := load_drop s i 0
  have second := load_drop s i 1
  have third := load_drop s i 2
  have start : s.drop i = s[i] :: s.drop (i + 1) := drop_eq_getElem_cons inside
  rw [add_zero, start, getElem?_cons_zero] at first
  by_cases escape : s[i] = percent ∧ sizeT (i + 2) < s.length
  · rcases (lookAhead_iff s i short inside).1 escape.2 with ⟨c, high, low, rest, pieces⟩
    rw [pieces] at second third
    simp only [getElem?_cons_succ, getElem?_cons_zero] at second third
    by_cases digits : 0 ≤ hexVal high ∧ 0 ≤ hexVal low
    · refine ⟨.escape high low, ?_, rest, ?_⟩
      · simp only [decodeStep, first, second, third, bind_eq_bind, bind_some,
          if_pos escape, if_pos digits]
      · rw [start] at pieces
        rw [start, (List.cons.inj pieces).2, escape.1]
        rfl
    · refine ⟨.single s[i], ?_, _, start⟩
      simp only [decodeStep, first, second, third, bind_eq_bind, bind_some,
        if_pos escape, if_neg digits]
  · refine ⟨.single s[i], ?_, _, start⟩
    simp only [decodeStep, first, bind_eq_bind, bind_some, if_neg escape]

theorem drop_consumed {s front rest : List UInt8} {i : Nat} (pieces : s.drop i = front ++ rest) :
    s.drop (i + front.length) = rest := by
  rw [← drop_drop, pieces, drop_left]

theorem decodeLoop_spec (short : s.length + 1 < 2 ^ 64) (fuel i : Nat)
    (out : OutBlock) (enough : s.length ≤ i + fuel)
    (room : out.written.length + (s.length - i) ≤ out.size) :
    ∃ next chunks, decodeLoop s fuel i out = some (next, chunks) ∧
      chunks.flatMap Chunk.bytes = s.drop i ∧ Wrote out (chunks.map Chunk.decoded) next := by
  induction fuel generalizing i out with
  | zero =>
    have ended : ¬ i < s.length := by omega
    refine ⟨out, [], if_neg ended, ?_, rfl, by simp⟩
    exact (drop_of_length_le (not_lt.1 ended)).symm
  | succ fuel ih =>
    by_cases inside : i < s.length
    · rcases decodeStep_spec s i short inside with ⟨chunk, stepped, rest, pieces⟩
      rcases put_fits out chunk.decoded (by omega) with ⟨middle, stored, wrote⟩
      have advanced := chunk_bytes_pos chunk
      have room' : middle.written.length + (s.length - (i + chunk.bytes.length)) ≤
          middle.size := by
        rw [wrote.size_eq, wrote.written_eq, length_append, length_singleton]
        omega
      rcases ih (i + chunk.bytes.length) middle (by omega) room' with
        ⟨next, chunks, looped, consumed, wrote'⟩
      refine ⟨next, chunk :: chunks, ?_, ?_, ?_, ?_⟩
      · rw [decodeLoop, if_pos inside, stepped]
        simp only [bind_eq_bind, bind_some, stored, looped]
      · rw [flatMap_cons, consumed, drop_consumed pieces, pieces]
      · rw [wrote'.size_eq, wrote.size_eq]
      · rw [wrote'.written_eq, wrote.written_eq, append_assoc, map_cons, singleton_append]
    · refine ⟨out, [], ?_, ?_, rfl, by simp⟩
      · rw [decodeLoop, if_neg inside]
      · exact (drop_of_length_le (not_lt.1 inside)).symm

theorem chunks_length (chunks : List Chunk) :
    chunks.length ≤ (chunks.flatMap Chunk.bytes).length := by
  induction chunks with
  | nil => exact le_rfl
  | cons chunk chunks ih =>
    have one := chunk_bytes_pos chunk
    simp only [flatMap_cons, length_append, length_cons]
    omega

theorem decodeStep_chunkOf (rest : List UInt8) (i : Nat) (c : UInt8)
    (short : s.length + 1 < 2 ^ 64) (pieces : s.drop i = (chunkOf c).bytes ++ rest) :
    decodeStep s i = some (chunkOf c) := by
  have inside : i < s.length := by
    by_contra outside
    rw [drop_of_length_le (not_lt.1 outside)] at pieces
    have := congrArg List.length pieces
    have := chunk_bytes_pos (chunkOf c)
    simp at *
    omega
  have first := load_drop s i 0
  have second := load_drop s i 1
  have third := load_drop s i 2
  rw [pieces] at first second third
  rw [add_zero] at first
  unfold chunkOf at *
  split at pieces
  case isTrue unreserved =>
    have plain : ¬ (c = percent ∧ sizeT (i + 2) < s.length) := by
      exact fun escape => (unreserved_plain c unreserved).1 escape.1
    simp only [if_pos unreserved, Chunk.bytes, cons_append, getElem?_cons_zero] at first
    simp only [decodeStep, first, bind_eq_bind, bind_some, if_neg plain, if_pos unreserved]
  case isFalse reserved =>
    have ahead := (lookAhead_iff s i short inside).2 ⟨_, _, _, _, pieces⟩
    have digit (value : Nat) (small : value < 16) : (0 : Int) ≤ hexVal (hexDigit value) := by
      rw [(hexDigit_spec value small).2]
      exact Int.natCast_nonneg value
    have digits := And.intro (digit _ (high_small c)) (digit _ (low_small c))
    simp only [if_neg reserved, Chunk.bytes, cons_append, getElem?_cons_zero,
      getElem?_cons_succ] at first second third
    simp only [decodeStep, first, second, third, bind_eq_bind, bind_some, true_and,
      if_pos ahead, if_pos digits, if_neg reserved]

theorem decodeLoop_chunks (short : s.length + 1 < 2 ^ 64) (source : List UInt8)
    (fuel i : Nat) (out next : OutBlock) (chunks : List Chunk)
    (pieces : s.drop i = (source.map chunkOf).flatMap Chunk.bytes)
    (looped : decodeLoop s fuel i out = some (next, chunks)) : chunks = source.map chunkOf := by
  induction source generalizing fuel i out next chunks with
  | nil =>
    have ended : ¬ i < s.length := not_lt.2 (drop_eq_nil_iff.1 pieces)
    cases fuel with
    | zero =>
      rw [decodeLoop, if_neg ended] at looped
      cases looped
      rfl
    | succ fuel =>
      rw [decodeLoop, if_neg ended] at looped
      cases looped
      rfl
  | cons c source ih =>
    rw [map_cons, flatMap_cons] at pieces
    have stepped := decodeStep_chunkOf s _ i c short pieces
    have inside : i < s.length := by
      by_contra outside
      rw [drop_of_length_le (not_lt.1 outside)] at pieces
      have := chunk_bytes_pos (chunkOf c)
      simp_all
    cases fuel with
    | zero => simp [decodeLoop, inside] at looped
    | succ fuel =>
      rw [decodeLoop, if_pos inside, stepped] at looped
      simp only [bind_eq_bind, bind_some, bind_eq_some_iff,
        Option.some.injEq, Prod.mk.injEq] at looped
      rcases looped with ⟨middle, _, ⟨last, others⟩, rest, _, rfl⟩
      rw [ih fuel _ middle last others (drop_consumed pieces) rest, map_cons]

end DecodeFacts

section Coding

variable (heap : Nat → Bool)

/-- The encoded text fits its block, is made of unreserved characters and triples, and decodes to
the string. -/
def RoundTrips (s : List UInt8) : Prop :=
  ∃ (chunks : List Chunk) (out : OutBlock),
    lucisUrlEncode heap s = some ⟨chunks.flatMap Chunk.bytes, some out⟩ ∧
    (chunks.flatMap Chunk.bytes).length + 1 ≤ 3 * s.length + 1 ∧
    (∀ chunk ∈ chunks, chunk.Encoded) ∧
    ∃ block consumed, lucisUrlDecode heap (chunks.flatMap Chunk.bytes) =
      some (⟨s, some block⟩, consumed)

def Decodes (t : List UInt8) : Prop :=
  ∃ chunks block, lucisUrlDecode heap t = some (⟨chunks.map Chunk.decoded, some block⟩, chunks) ∧
    chunks.flatMap Chunk.bytes = t ∧ (chunks.map Chunk.decoded).length ≤ t.length

variable (s : List UInt8)

theorem encode_fits (small : 3 * s.length + 1 < 2 ^ 64) (raw : heap (rawSize s.length) = true)
    (string : heap ((s.flatMap encodeByte).length + 1) = true) :
    ∃ out, lucisUrlEncode heap s = some ⟨s.flatMap encodeByte, some out⟩ := by
  have size : rawSize s.length = 3 * s.length + 1 := by
    rw [rawSize, mul_comm, sizeT_of_lt small]
  have bound := (encoded_length s).2
  rcases fresh_fits (s.flatMap encodeByte) (rawSize s.length) (by omega) with
    ⟨filled, looped, size_eq, written_eq⟩
  rcases put_fits filled 0 (by rw [size_eq, written_eq, size]; omega) with ⟨ended, stored, wrote⟩
  have copySize : sizeT ((s.flatMap encodeByte).length + 1) = (s.flatMap encodeByte).length + 1 :=
    sizeT_of_lt (by omega)
  have copied : ended.written.length ≤ (s.flatMap encodeByte).length + 1 := by
    rw [wrote.written_eq, written_eq, length_append, length_singleton]
  rcases fresh_fits ended.written _ copied with ⟨out, copied, _⟩
  refine ⟨out, ?_⟩
  rw [lucisUrlEncode, if_pos raw, encodeLoop_eq, looped]
  simp only [bind_eq_bind, bind_some, stored, written_eq, copySize, if_pos string, copied]

theorem encode_overflows (addressable : s.length < 2 ^ 63)
    (large : 2 ^ 64 ≤ 3 * s.length + 1) (raw : heap (rawSize s.length) = true) :
    lucisUrlEncode heap s = none := by
  have size : rawSize s.length + 2 ^ 64 = 3 * s.length + 1 := by
    rw [rawSize, sizeT]; omega
  have bound := (encoded_length s).1
  by_cases fits : (s.flatMap encodeByte).length ≤ rawSize s.length
  · rcases fresh_fits (s.flatMap encodeByte) (rawSize s.length) fits with
      ⟨filled, looped, size_eq, written_eq⟩
    have full : ¬ filled.written.length < filled.size := by
      rw [size_eq, written_eq]; omega
    rw [lucisUrlEncode, if_pos raw, encodeLoop_eq, looped]
    simp only [bind_eq_bind, bind_some, OutBlock.put, dif_neg full, bind_none]
  · have overflow := putAll_overflows (s.flatMap encodeByte) (.fresh (rawSize s.length))
      (by simpa [OutBlock.fresh] using fits)
    rw [lucisUrlEncode, if_pos raw, encodeLoop_eq, overflow]
    rfl

theorem decode_result (t : List UInt8) (short : t.length + 1 < 2 ^ 64)
    (served : heap (t.length + 1) = true) :
    ∃ chunks block next, decodeLoop t t.length 0 (.fresh (t.length + 1)) = some (next, chunks) ∧
      lucisUrlDecode heap t = some (⟨chunks.map Chunk.decoded, some block⟩, chunks) ∧
      chunks.flatMap Chunk.bytes = t := by
  rcases decodeLoop_spec t short t.length 0 (.fresh (t.length + 1)) (by omega)
    (by simp only [OutBlock.fresh, length_nil]; omega) with
    ⟨next, chunks, looped, consumed, wrote⟩
  rw [drop_zero] at consumed
  have count : chunks.length ≤ t.length := consumed ▸ chunks_length chunks
  have written_eq : next.written = chunks.map Chunk.decoded := wrote.written_eq
  have room : next.written.length < next.size := by
    rw [written_eq, length_map, wrote.size_eq]
    exact Nat.lt_succ_of_le count
  rcases put_fits next 0 room with ⟨ended, stored, _⟩
  refine ⟨chunks, ended, next, looped, ?_, consumed⟩
  rw [lucisUrlDecode, sizeT_of_lt short, if_pos served]
  simp only [looped, bind_eq_bind, bind_some, stored, written_eq]

/-- Encoding and decoding again gives every string back exactly when the size of the encoder's
block is a size_t; the decoder is right on every text. -/
theorem url_coding_iff :
    (∀ s : Bytes, heap (rawSize s.data.length) = true →
      heap ((s.data.flatMap encodeByte).length + 1) = true →
      (RoundTrips heap s.data ↔ 3 * s.data.length + 1 < 2 ^ 64)) ∧
    ∀ t : Bytes, heap (t.data.length + 1) = true → Decodes heap t.data := by
  constructor
  · intro s raw string
    constructor
    · rintro ⟨chunks, out, encoded, _⟩
      by_contra large
      rw [encode_overflows heap s.data s.addressable (not_lt.mp large) raw] at encoded
      cases encoded
    · intro small
      have bound := (encoded_length s.data).2
      rcases encode_fits heap s.data small raw string with ⟨out, encoded⟩
      rcases decode_result heap (s.data.flatMap encodeByte) (by omega) string with
        ⟨chunks, block, next, looped, decoded, _⟩
      have short : (s.data.flatMap encodeByte).length + 1 < 2 ^ 64 := by omega
      have same := decodeLoop_chunks _ short s.data _ 0 _ next chunks (chunks_bytes s.data).symm
        looped
      rw [same, chunks_decoded] at decoded
      refine ⟨s.data.map chunkOf, out, ?_, ?_, ?_, block, s.data.map chunkOf, ?_⟩
      · rw [chunks_bytes, encoded]
      · rw [chunks_bytes]
        exact Nat.succ_le_succ bound
      · intro chunk member
        rcases List.mem_map.mp member with ⟨c, _, rfl⟩
        exact chunkOf_encoded c
      · rw [chunks_bytes, decoded]
  · intro t served
    have addressable := t.addressable
    rcases decode_result heap t.data (by omega) served with
      ⟨chunks, block, next, _, decoded, consumed⟩
    refine ⟨chunks, block, decoded, consumed, ?_⟩
    rw [length_map]
    exact consumed ▸ chunks_length chunks

end Coding

/-- `a b` and the truncated escape `%4`. -/
theorem url_coding_iff_escape :
    (RoundTrips (fun _ => true) [97, 32, 98] ↔ 3 * 3 + 1 < 2 ^ 64) ∧
      Decodes (fun _ => true) [37, 52] :=
  ⟨(url_coding_iff fun _ => true).1 ⟨[97, 32, 98], by decide⟩ rfl rfl,
    (url_coding_iff fun _ => true).2 ⟨[37, 52], by decide⟩ rfl⟩

/-- `3 * 6148914691236517205 + 1` is 2^64: the block has no byte. -/
theorem long_string_overflows :
    ∃ s : Bytes, s.data.length = 6148914691236517205 ∧
      lucisUrlEncode (fun _ => true) s.data = none ∧ ¬ RoundTrips (fun _ => true) s.data := by
  have length : (List.replicate 6148914691236517205 (33 : UInt8)).length =
      6148914691236517205 := length_replicate
  refine ⟨⟨List.replicate 6148914691236517205 33, by rw [length]; decide⟩, length, ?_, ?_⟩
  · exact encode_overflows _ _ (by rw [length]; decide) (by rw [length]; decide) rfl
  · rintro ⟨chunks, out, encoded, _⟩
    rw [encode_overflows _ _ (by rw [length]; decide) (by rw [length]; decide) rfl] at encoded
    cases encoded

end Lucis.UrlCode
