import Mathlib.Tactic.Ring
import Lucis.Memory

/-!
Base64 of encoding/encoding.c. A text is read front to back, so the list handed
on by a loop is the part of the text from index i; characters are bytes. The
block the result is written to has the size the code requests, and a refused
request gives the empty text, as in the source.
-/

namespace Lucis.Base64

open Memory List Option

def equalSign : UInt8 := 61

def b64EncTable : List UInt8 :=
  [65, 66, 67, 68, 69, 70, 71, 72, 73, 74, 75, 76, 77, 78, 79, 80,
   81, 82, 83, 84, 85, 86, 87, 88, 89, 90, 97, 98, 99, 100, 101, 102,
   103, 104, 105, 106, 107, 108, 109, 110, 111, 112, 113, 114, 115, 116, 117, 118,
   119, 120, 121, 122, 48, 49, 50, 51, 52, 53, 54, 55, 56, 57, 43, 47]

def encChar (value : Nat) : UInt8 := b64EncTable.getD value 0

/-- `b64_dec_table`: entries the initializer does not name are zero. -/
def b64DecTable (c : UInt8) : Nat :=
  if 65 ≤ c ∧ c ≤ 90 then c.toNat - 65
  else if 97 ≤ c ∧ c ≤ 122 then c.toNat - 97 + 26
  else if 48 ≤ c ∧ c ≤ 57 then c.toNat - 48 + 52
  else if c = 43 then 62
  else if c = 47 then 63
  else 0

/-- What both functions return: the text, and the block it lies in when
`lucis_allocString` served the request. -/
structure EncodingResult where
  text : List UInt8
  block : Option OutBlock

section Encode

def encodeTriple (a b c : UInt8) : List UInt8 :=
  let triple := a.toNat <<< 16 ||| b.toNat <<< 8 ||| c.toNat
  [encChar (triple >>> 18 &&& 0x3F), encChar (triple >>> 12 &&& 0x3F),
    encChar (triple >>> 6 &&& 0x3F), encChar (triple &&& 0x3F)]

/-- The branch `i < s_len` behind the loop; `second` is `s[i + 1]` if it exists. -/
def encodeTail (a : UInt8) (second : Option UInt8) : List UInt8 :=
  let triple := a.toNat <<< 16
  let triple := match second with
    | some b => triple ||| b.toNat <<< 8
    | none => triple
  [encChar (triple >>> 18 &&& 0x3F), encChar (triple >>> 12 &&& 0x3F),
    match second with
    | some _ => encChar (triple >>> 6 &&& 0x3F)
    | none => equalSign,
    equalSign]

def encodeLoop : List UInt8 → OutBlock → Option OutBlock
  | a :: b :: c :: rest, out => (out.putAll (encodeTriple a b c)).bind (encodeLoop rest)
  | [a, b], out => out.putAll (encodeTail a (some b))
  | [a], out => out.putAll (encodeTail a none)
  | [], out => some out

def encodedLen (length : Nat) : Nat := sizeT (4 * (sizeT (length + 2) / 3))

/-- `lucis_base64EncodeStr`; `none` is a store outside the block. -/
def lucisBase64EncodeStr (heap : Nat → Bool) (s : List UInt8) : Option EncodingResult :=
  let size := sizeT (encodedLen s.length + 1)
  if heap size then do
    let out ← encodeLoop s (.fresh size)
    let ended ← out.put 0
    some ⟨out.written, some ended⟩
  else some ⟨[], none⟩

end Encode

section Decode

def padding (s : List UInt8) : Nat :=
  (if 1 ≤ s.length ∧ s[s.length - 1]? = some equalSign then 1 else 0) +
    (if 2 ≤ s.length ∧ s[s.length - 2]? = some equalSign then 1 else 0)

def decodeQuad (a b c d : UInt8) : List UInt8 :=
  let triple := b64DecTable a <<< 18 ||| b64DecTable b <<< 12 ||| b64DecTable c <<< 6 |||
    b64DecTable d
  [UInt8.ofNat (triple >>> 16 &&& 0xFF), UInt8.ofNat (triple >>> 8 &&& 0xFF),
    UInt8.ofNat (triple &&& 0xFF)]

/-- `if (j < out_len) out[j++] = byte;` -/
def putBelow (outLen : Nat) (out : OutBlock) (byte : UInt8) : Option OutBlock :=
  if out.written.length < outLen then out.put byte else some out

def decodeLoop (outLen : Nat) : List UInt8 → OutBlock → Option OutBlock
  | a :: b :: c :: d :: rest, out =>
    ((decodeQuad a b c d).foldlM (putBelow outLen) out).bind (decodeLoop outLen rest)
  | _, out => some out

def decodedLen (s : List UInt8) : Nat := sizeT (s.length / 4 * 3 + 2 ^ 64 - padding s)

/-- `lucis_base64DecodeStr`; `none` is a store outside the block. -/
def lucisBase64DecodeStr (heap : Nat → Bool) (s : List UInt8) : Option EncodingResult :=
  let outLen := decodedLen s
  let size := sizeT (outLen + 1)
  if heap size then do
    let out ← decodeLoop outLen s (.fresh size)
    let ended ← out.put 0
    some ⟨out.written, some ended⟩
  else some ⟨[], none⟩

end Decode

/-- Canonical padded text: groups of four alphabet characters, the last of which
may end in one or two `=` whose unused bits are zero. -/
inductive Canonical : List UInt8 → Prop where
  | done : Canonical []
  | group {a b c d : UInt8} {rest : List UInt8} (first : a ∈ b64EncTable)
      (second : b ∈ b64EncTable) (third : c ∈ b64EncTable) (fourth : d ∈ b64EncTable)
      (others : Canonical rest) : Canonical (a :: b :: c :: d :: rest)
  | onePad {a b c : UInt8} (first : a ∈ b64EncTable) (second : b ∈ b64EncTable)
      (third : c ∈ b64EncTable) (zeros : b64EncTable.idxOf c % 4 = 0) :
      Canonical [a, b, c, equalSign]
  | twoPads {a b : UInt8} (first : a ∈ b64EncTable) (second : b ∈ b64EncTable)
      (zeros : b64EncTable.idxOf b % 16 = 0) : Canonical [a, b, equalSign, equalSign]

section Tables

variable (value : Nat)

theorem decTable_encChar (small : value < 64) :
    b64DecTable (encChar value) = value := by
  have all : ∀ v : Fin 64, b64DecTable (encChar v) = v := by decide
  exact all ⟨value, small⟩

theorem encChar_ne_equalSign (small : value < 64) : encChar value ≠ equalSign := by
  have all : ∀ v : Fin 64, encChar v ≠ equalSign := by decide
  exact all ⟨value, small⟩

set_option maxRecDepth 4096 in
theorem alphabet_spec (c : UInt8) (member : c ∈ b64EncTable) :
    b64DecTable c < 64 ∧ encChar (b64DecTable c) = c ∧ b64DecTable c = b64EncTable.idxOf c ∧
      c ≠ equalSign := by
  have all : ∀ c ∈ b64EncTable, b64DecTable c < 64 ∧ encChar (b64DecTable c) = c ∧
      b64DecTable c = b64EncTable.idxOf c ∧ c ≠ equalSign := by decide
  exact all c member

end Tables

section Bits

theorem or_eq_add (high low bits : Nat) (small : low < 2 ^ bits) :
    high <<< bits ||| low = high * 2 ^ bits + low := by
  rw [← Nat.shiftLeft_add_eq_or_of_lt small, Nat.shiftLeft_eq]

theorem pack_triple {a b c : Nat} (hb : b < 256) (hc : c < 256) :
    a <<< 16 ||| b <<< 8 ||| c = a * 65536 + b * 256 + c := by
  have middle : b <<< 8 < 2 ^ 16 := by rw [Nat.shiftLeft_eq]; omega
  have low : c < 2 ^ 8 := by omega
  have joined : a * 2 ^ 16 + b * 2 ^ 8 = (a * 256 + b) <<< 8 := by rw [Nat.shiftLeft_eq]; omega
  rw [or_eq_add a _ 16 middle, Nat.shiftLeft_eq, joined, or_eq_add _ c 8 low]
  ring

theorem pack_quad {a b c d : Nat} (hb : b < 64) (hc : c < 64) (hd : d < 64) :
    a <<< 18 ||| b <<< 12 ||| c <<< 6 ||| d = a * 262144 + b * 4096 + c * 64 + d := by
  have second : b <<< 12 < 2 ^ 18 := by rw [Nat.shiftLeft_eq]; omega
  have third : c <<< 6 < 2 ^ 12 := by rw [Nat.shiftLeft_eq]; omega
  have low : d < 2 ^ 6 := by omega
  have two : a * 2 ^ 18 + b * 2 ^ 12 = (a * 64 + b) <<< 12 := by rw [Nat.shiftLeft_eq]; omega
  have three : (a * 64 + b) * 2 ^ 12 + c * 2 ^ 6 = (a * 4096 + b * 64 + c) <<< 6 := by
    rw [Nat.shiftLeft_eq]; ring
  rw [or_eq_add a _ 18 second, Nat.shiftLeft_eq, two, or_eq_add _ _ 12 third, Nat.shiftLeft_eq,
    three, or_eq_add _ d 6 low]
  ring

theorem sextet (value shift : Nat) : value >>> shift &&& 0x3F = value / 2 ^ shift % 64 := by
  rw [Nat.shiftRight_eq_div_pow]
  exact Nat.and_two_pow_sub_one_eq_mod _ 6

theorem octet (value shift : Nat) : value >>> shift &&& 0xFF = value / 2 ^ shift % 256 := by
  rw [Nat.shiftRight_eq_div_pow]
  exact Nat.and_two_pow_sub_one_eq_mod _ 8

theorem encodeTriple_eq (a b c : UInt8) : encodeTriple a b c =
      [encChar (a.toNat / 4), encChar (a.toNat % 4 * 16 + b.toNat / 16),
        encChar (b.toNat % 16 * 4 + c.toNat / 64), encChar (c.toNat % 64)] := by
  have ha := a.toNat_lt
  have hb := b.toNat_lt
  have hc := c.toNat_lt
  have last := sextet (a.toNat * 65536 + b.toNat * 256 + c.toNat) 0
  simp only [Nat.shiftRight_zero] at last
  simp only [encodeTriple, pack_triple hb hc, sextet, last, List.cons.injEq, and_true]
  constructor
  · congr 1
    omega
  · constructor
    · congr 1
      omega
    · constructor <;> congr 1 <;> omega

theorem decodeQuad_eq (a b c d : UInt8) (ha : b64DecTable a < 64) (hb : b64DecTable b < 64)
    (hc : b64DecTable c < 64) (hd : b64DecTable d < 64) : decodeQuad a b c d =
      [UInt8.ofNat (b64DecTable a * 4 + b64DecTable b / 16),
        UInt8.ofNat (b64DecTable b % 16 * 16 + b64DecTable c / 4),
        UInt8.ofNat (b64DecTable c % 4 * 64 + b64DecTable d)] := by
  have last := octet (b64DecTable a * 262144 + b64DecTable b * 4096 + b64DecTable c * 64 +
    b64DecTable d) 0
  simp only [Nat.shiftRight_zero] at last
  simp only [decodeQuad, pack_quad hb hc hd, octet, last, List.cons.injEq, and_true]
  constructor
  · congr 1
    omega
  · constructor <;> congr 1 <;> omega

end Bits

section Groups

theorem toNat_octet (value : Nat) (small : value < 256) : (UInt8.ofNat value).toNat = value :=
  UInt8.toNat_ofNat_of_lt' small

theorem decode_sextets (a b c : UInt8) :
    decodeQuad (encChar (a.toNat / 4)) (encChar (a.toNat % 4 * 16 + b.toNat / 16))
      (encChar (b.toNat % 16 * 4 + c.toNat / 64)) (encChar (c.toNat % 64)) = [a, b, c] := by
  have ha := a.toNat_lt
  have hb := b.toNat_lt
  have hc := c.toNat_lt
  have first := decTable_encChar (a.toNat / 4) (by omega)
  have second := decTable_encChar (a.toNat % 4 * 16 + b.toNat / 16) (by omega)
  have third := decTable_encChar (b.toNat % 16 * 4 + c.toNat / 64) (by omega)
  have fourth := decTable_encChar (c.toNat % 64) (by omega)
  rw [decodeQuad_eq _ _ _ _ (by omega) (by omega) (by omega) (by omega), first, second, third,
    fourth]
  have top : a.toNat / 4 * 4 + (a.toNat % 4 * 16 + b.toNat / 16) / 16 = a.toNat := by omega
  have middle : (a.toNat % 4 * 16 + b.toNat / 16) % 16 * 16 +
      (b.toNat % 16 * 4 + c.toNat / 64) / 4 = b.toNat := by omega
  have bottom : (b.toNat % 16 * 4 + c.toNat / 64) % 4 * 64 + c.toNat % 64 = c.toNat := by omega
  rw [top, middle, bottom, UInt8.ofNat_toNat, UInt8.ofNat_toNat, UInt8.ofNat_toNat]

theorem encode_decoded (w x y z : UInt8) (hw : w ∈ b64EncTable) (hx : x ∈ b64EncTable)
    (hy : y ∈ b64EncTable) (hz : z ∈ b64EncTable) :
    ∃ p q r, decodeQuad w x y z = [p, q, r] ∧ encodeTriple p q r = [w, x, y, z] ∧
      q.toNat = b64DecTable x % 16 * 16 + b64DecTable y / 4 ∧
      r.toNat = b64DecTable y % 4 * 64 + b64DecTable z := by
  rcases alphabet_spec w hw with ⟨smallW, backW, _⟩
  rcases alphabet_spec x hx with ⟨smallX, backX, _⟩
  rcases alphabet_spec y hy with ⟨smallY, backY, _⟩
  rcases alphabet_spec z hz with ⟨smallZ, backZ, _⟩
  have top := toNat_octet (b64DecTable w * 4 + b64DecTable x / 16) (by omega)
  have middle := toNat_octet (b64DecTable x % 16 * 16 + b64DecTable y / 4) (by omega)
  have bottom := toNat_octet (b64DecTable y % 4 * 64 + b64DecTable z) (by omega)
  refine ⟨_, _, _, decodeQuad_eq w x y z smallW smallX smallY smallZ, ?_, middle, bottom⟩
  rw [encodeTriple_eq, top, middle, bottom]
  have one : (b64DecTable w * 4 + b64DecTable x / 16) / 4 = b64DecTable w := by omega
  have two : (b64DecTable w * 4 + b64DecTable x / 16) % 4 * 16 +
      (b64DecTable x % 16 * 16 + b64DecTable y / 4) / 16 = b64DecTable x := by omega
  have three : (b64DecTable x % 16 * 16 + b64DecTable y / 4) % 16 * 4 +
      (b64DecTable y % 4 * 64 + b64DecTable z) / 64 = b64DecTable y := by omega
  have four : (b64DecTable y % 4 * 64 + b64DecTable z) % 64 = b64DecTable z := by omega
  rw [one, two, three, four, backW, backX, backY, backZ]

/-- `=` decodes as the character of value zero. -/
theorem decodeQuad_pad (w x y : UInt8) : decodeQuad w x y equalSign = decodeQuad w x y (encChar 0) ∧
      decodeQuad w x equalSign equalSign = decodeQuad w x (encChar 0) (encChar 0) := by
  constructor <;> rfl

theorem encodeTail_two (a b : UInt8) :
    encodeTail a (some b) = [encChar (a.toNat / 4), encChar (a.toNat % 4 * 16 + b.toNat / 16),
      encChar (b.toNat % 16 * 4), equalSign] := by
  have full := encodeTriple_eq a b 0
  simp only [encodeTriple, UInt8.toNat_zero, Nat.or_zero, Nat.zero_div, add_zero,
    List.cons.injEq] at full
  rw [← full.1, ← full.2.1, ← full.2.2.1]
  rfl

theorem encodeTail_one (a : UInt8) :
    encodeTail a none = [encChar (a.toNat / 4), encChar (a.toNat % 4 * 16), equalSign,
      equalSign] := by
  have full := encodeTriple_eq a 0 0
  simp only [encodeTriple, UInt8.toNat_zero, Nat.or_zero, Nat.zero_div, add_zero,
    Nat.zero_shiftLeft, List.cons.injEq] at full
  rw [← full.1, ← full.2.1]
  rfl

end Groups

section Texts

def encodeText : List UInt8 → List UInt8
  | a :: b :: c :: rest => encodeTriple a b c ++ encodeText rest
  | [a, b] => encodeTail a (some b)
  | [a] => encodeTail a none
  | [] => []

/-- What the decoder would write without the bound `out_len`. -/
def decodeText : List UInt8 → List UInt8
  | a :: b :: c :: d :: rest => decodeQuad a b c d ++ decodeText rest
  | _ => []

variable (s : List UInt8)

theorem encodeLoop_writes (out : OutBlock) :
    encodeLoop s out = out.putAll (encodeText s) := by
  induction s using encodeText.induct generalizing out with
  | case1 a b c rest ih =>
    rw [encodeLoop, encodeText, putAll_append]
    congr 1
    funext next
    exact ih next
  | case2 a b => rfl
  | case3 a => rfl
  | case4 => rfl

theorem padding_behind (front back : List UInt8) (long : 2 ≤ back.length) :
    padding (front ++ back) = padding back := by
  have last : front.length + back.length - 1 - front.length = back.length - 1 := by omega
  have previous : front.length + back.length - 2 - front.length = back.length - 2 := by omega
  unfold padding
  rw [length_append, getElem?_append_right (by omega), last,
    getElem?_append_right (by omega), previous]
  have one : 1 ≤ front.length + back.length ↔ 1 ≤ back.length := by omega
  have two : 2 ≤ front.length + back.length ↔ 2 ≤ back.length := by omega
  simp only [one, two]

theorem padding_quad (a b c d : UInt8) : padding [a, b, c, d] =
      (if d = equalSign then 1 else 0) + (if c = equalSign then 1 else 0) := by
  simp [padding]

/-- A group without `=` in front of whole groups does not change the padding. -/
theorem padding_group {a b c d : UInt8} {back : List UInt8} (plain : c ≠ equalSign)
    (plain' : d ≠ equalSign) (whole : 4 ∣ back.length) :
    padding (a :: b :: c :: d :: back) = padding back := by
  rcases back with - | ⟨e, back⟩
  · rw [padding_quad, if_neg plain', if_neg plain]
    rfl
  · apply padding_behind [a, b, c, d]
    rw [length_cons] at whole ⊢
    omega

theorem encodeText_length : (encodeText s).length = 4 * ((s.length + 2) / 3) := by
  induction s using encodeText.induct with
  | case1 a b c rest ih =>
    simp only [encodeText, encodeTriple, length_append, length_cons, length_nil, ih]
    omega
  | case2 a b => simp [encodeText, encodeTail_two]
  | case3 a => simp [encodeText, encodeTail_one]
  | case4 => rfl

/-- An encoded triple has no `=`. -/
theorem padding_triple (a b c : UInt8) {back : List UInt8} (whole : 4 ∣ back.length) :
    padding (encodeTriple a b c ++ back) = padding back := by
  have _ := b.toNat_lt
  have hc := c.toNat_lt
  rw [encodeTriple_eq]
  apply padding_group _ _ whole
  · exact encChar_ne_equalSign _ (by omega)
  · exact encChar_ne_equalSign _ (by omega)

theorem encodeText_padding :
    s.length + padding (encodeText s) = 3 * ((s.length + 2) / 3) := by
  induction s using encodeText.induct with
  | case1 a b c rest ih =>
    have group := padding_triple a b c ⟨_, encodeText_length rest⟩
    simp only [encodeText, group, length_cons]
    omega
  | case2 a b =>
    have _ := b.toNat_lt
    have plain := encChar_ne_equalSign (b.toNat % 16 * 4) (by omega)
    simp [encodeText, encodeTail_two, padding_quad, plain]
  | case3 a => simp [encodeText, encodeTail_one, padding_quad]
  | case4 => rfl

/-- Decoding an encoded text gives the bytes back, with a zero for each `=`. -/
theorem decodeText_encodeText :
    decodeText (encodeText s) = s ++ List.replicate (padding (encodeText s)) 0 := by
  induction s using encodeText.induct with
  | case1 a b c rest ih =>
    have group := padding_triple a b c ⟨_, encodeText_length rest⟩
    rw [encodeText, group, encodeTriple_eq]
    simp only [cons_append, nil_append, decodeText, decode_sextets, ih]
  | case2 a b =>
    have _ := b.toNat_lt
    have plain := encChar_ne_equalSign (b.toNat % 16 * 4) (by omega)
    have bytes := decode_sextets a b 0
    simp only [UInt8.toNat_zero, Nat.zero_div, add_zero, Nat.zero_mod] at bytes
    simp only [encodeText, encodeTail_two, decodeText, (decodeQuad_pad _ _ _).1, bytes,
      padding_quad, plain, if_true, if_false, append_nil]
    rfl
  | case3 a =>
    have bytes := decode_sextets a 0 0
    simp only [UInt8.toNat_zero, Nat.zero_div, add_zero, Nat.zero_mod, zero_mul] at bytes
    simp only [encodeText, encodeTail_one, decodeText, (decodeQuad_pad _ _ 0).2, bytes,
      padding_quad, if_true, append_nil]
    rfl
  | case4 => rfl

theorem canonical_spec (t : List UInt8) (canonical : Canonical t) :
    ∃ s, decodeText t = s ++ List.replicate (padding t) 0 ∧ encodeText s = t := by
  induction canonical with
  | done => exact ⟨[], rfl, rfl⟩
  | @group w x y z rest hw hx hy hz _ ih =>
    rcases ih with ⟨s, decoded, encoded⟩
    rcases encode_decoded w x y z hw hx hy hz with ⟨p, q, r, bytes, back, _⟩
    have whole : 4 ∣ rest.length := ⟨_, encoded ▸ encodeText_length s⟩
    have group := padding_triple p q r whole
    rw [back] at group
    apply Exists.intro (p :: q :: r :: s)
    constructor
    · rw [decodeText, bytes, decoded]
      simp only [cons_append, nil_append] at group ⊢
      rw [group]
    · rw [encodeText, back, encoded]
      rfl
  | @onePad w x y hw hx hy zeros =>
    rcases alphabet_spec y hy with ⟨_, _, value, plain⟩
    rcases encode_decoded w x y (encChar 0) hw hx hy (by decide) with
      ⟨p, q, r, bytes, back, _, low⟩
    have none_left : r = 0 := by
      apply UInt8.toNat_inj.mp
      rw [low, value, zeros, decTable_encChar 0 (by omega)]
      rfl
    subst none_left
    apply Exists.intro [p, q]
    constructor
    · rw [decodeText, (decodeQuad_pad _ _ _).1, bytes, padding_quad, if_pos rfl, if_neg plain]
      rfl
    · rw [encodeTriple_eq] at back
      simp only [UInt8.toNat_zero, Nat.zero_div, add_zero, List.cons.injEq] at back
      rw [encodeText, encodeTail_two, back.1, back.2.1, back.2.2.1]
  | @twoPads w x hw hx zeros =>
    rcases alphabet_spec x hx with ⟨_, _, value, _⟩
    rcases encode_decoded w x (encChar 0) (encChar 0) hw hx (by decide) (by decide) with
      ⟨p, q, r, bytes, back, middle, low⟩
    have nothing : b64DecTable (encChar 0) = 0 := rfl
    have none_left : q = 0 ∧ r = 0 := by
      rw [value, zeros, nothing] at middle
      rw [nothing] at low
      exact ⟨UInt8.toNat_inj.1 middle, UInt8.toNat_inj.1 low⟩
    rcases none_left with ⟨rfl, rfl⟩
    apply Exists.intro [p]
    constructor
    · rw [decodeText, (decodeQuad_pad _ _ 0).2, bytes, padding_quad, if_pos rfl]
      rfl
    · rw [encodeTriple_eq] at back
      simp only [UInt8.toNat_zero, Nat.zero_div, add_zero, List.cons.injEq] at back
      rw [encodeText, encodeTail_one, back.1, back.2.1]

end Texts

section RoundTrip

theorem putBelow_writes (bytes : List UInt8) (outLen : Nat) (out : OutBlock)
    (below : out.written.length ≤ outLen) (room : outLen ≤ out.size) :
    ∃ next, bytes.foldlM (putBelow outLen) out = some next ∧ next.size = out.size ∧
      next.written = (out.written ++ bytes).take outLen := by
  induction bytes generalizing out with
  | nil =>
    refine ⟨out, rfl, rfl, ?_⟩
    rw [append_nil, take_of_length_le below]
  | cons byte bytes ih =>
    by_cases more : out.written.length < outLen
    · rcases put_fits out byte (by omega) with ⟨middle, stored, wrote⟩
      have below' : middle.written.length ≤ outLen := by
        rw [wrote.written_eq, length_append, length_singleton]
        omega
      rcases ih middle below' (by rw [wrote.size_eq]; exact room) with ⟨next, rest, size, written⟩
      refine ⟨next, ?_, by rw [size, wrote.size_eq], ?_⟩
      · rw [foldlM_cons, putBelow, if_pos more, stored]
        exact rest
      · rw [written, wrote.written_eq, append_assoc, singleton_append]
    · rcases ih out below room with ⟨next, rest, size, written⟩
      refine ⟨next, ?_, size, ?_⟩
      · rw [foldlM_cons, putBelow, if_neg more]
        exact rest
      · have full : out.written.length = outLen := by omega
        rw [written, ← full, take_left, take_left]

theorem take_take_append (front back : List UInt8) (count : Nat) :
    (front.take count ++ back).take count = (front ++ back).take count := by
  rw [take_append, take_append, take_take, Nat.min_self, length_take]
  congr 2
  omega

theorem decodeLoop_writes (s : List UInt8) (outLen : Nat) (out : OutBlock)
    (below : out.written.length ≤ outLen) (room : outLen ≤ out.size) :
    ∃ next, decodeLoop outLen s out = some next ∧ next.size = out.size ∧
      next.written = (out.written ++ decodeText s).take outLen := by
  induction s using decodeText.induct generalizing out with
  | case1 a b c d rest ih =>
    rcases putBelow_writes (decodeQuad a b c d) outLen out below room with
      ⟨middle, stored, size, written⟩
    have below' : middle.written.length ≤ outLen := by
      rw [written]
      exact length_take_le _ _
    rcases ih middle below' (by rw [size]; exact room) with ⟨next, later, size', written'⟩
    refine ⟨next, ?_, by rw [size', size], ?_⟩
    · rw [decodeLoop, stored, bind_some, later]
    · rw [written', written, decodeText, take_take_append, append_assoc]
  | case2 s short =>
    have nothing : decodeText s = [] := by rw [decodeText]; exact short
    have stops : decodeLoop outLen s out = some out := by rw [decodeLoop]; exact short
    refine ⟨out, stops, rfl, ?_⟩
    rw [nothing, append_nil, take_of_length_le below]

theorem encodedLen_small {length : Nat} (small : length < 2 ^ 63) :
    encodedLen length = 4 * ((length + 2) / 3) ∧
      sizeT (encodedLen length + 1) = encodedLen length + 1 := by
  have inner : sizeT (length + 2) = length + 2 := sizeT_of_lt (by omega)
  have outer : encodedLen length = 4 * ((length + 2) / 3) := by
    rw [encodedLen, inner]
    exact sizeT_of_lt (by omega)
  constructor
  · exact outer
  · apply sizeT_of_lt
    omega

variable (heap : Nat → Bool)

theorem encode_fills (s : Bytes) (served : heap (encodedLen s.data.length + 1) = true) :
    ∃ block, lucisBase64EncodeStr heap s.data = some ⟨encodeText s.data, some block⟩ ∧
      block.size = encodedLen s.data.length + 1 ∧ block.written.length = block.size := by
  rcases encodedLen_small s.addressable with ⟨len, request⟩
  have text := encodeText_length s.data
  rcases putAll_fits (encodeText s.data) (.fresh (encodedLen s.data.length + 1))
    (by simp only [OutBlock.fresh, length_nil]; omega) with ⟨out, stored, wrote⟩
  have written := wrote.written_eq
  have size := wrote.size_eq
  simp only [OutBlock.fresh, nil_append] at written size
  rcases put_fits out 0 (by rw [written, size]; omega) with ⟨ended, closed, wrote'⟩
  apply Exists.intro ended
  constructor
  · simp only [lucisBase64EncodeStr, request, served, if_true, encodeLoop_writes, stored,
      bind_eq_bind, bind_some, closed, written]
  · constructor
    · rw [wrote'.size_eq, size]
    · rw [wrote'.size_eq, wrote'.written_eq, size, written, length_append, length_singleton]
      omega

theorem decodedLen_of_length {s t : List UInt8} (small : t.length < 2 ^ 64)
    (size : s.length + padding t = t.length / 4 * 3) : decodedLen t = s.length := by
  have wrapped : t.length / 4 * 3 + 2 ^ 64 - padding t = s.length + 2 ^ 64 := by omega
  rw [decodedLen, wrapped, sizeT, Nat.add_mod_right]
  exact Nat.mod_eq_of_lt (by omega)

theorem decode_result (s t : List UInt8) (small : t.length < 2 ^ 64)
    (size : s.length + padding t = t.length / 4 * 3)
    (decoded : decodeText t = s ++ List.replicate (padding t) 0)
    (served : heap (s.length + 1) = true) :
    ∃ block, lucisBase64DecodeStr heap t = some ⟨s, some block⟩ := by
  have outLen := decodedLen_of_length small size
  have request : sizeT (s.length + 1) = s.length + 1 := sizeT_of_lt (by omega)
  rcases decodeLoop_writes t s.length (.fresh (s.length + 1))
    (by simp [OutBlock.fresh]) (by simp [OutBlock.fresh]) with ⟨out, stored, size', written⟩
  simp only [OutBlock.fresh, nil_append, decoded, take_left] at written size'
  rcases put_fits out 0 (by rw [written, size']; omega) with ⟨ended, closed, _⟩
  apply Exists.intro ended
  simp only [lucisBase64DecodeStr, outLen, request, served, if_true, stored, bind_eq_bind,
    bind_some, closed, written]

/-- Both round trips, for every byte string and every canonical text, whenever
malloc serves the requests of the two calls. -/
theorem base64_round_trips (heap : Nat → Bool) :
    (∀ s : Bytes, heap (encodedLen s.data.length + 1) = true → heap (s.data.length + 1) = true →
      ∃ text block out, lucisBase64EncodeStr heap s.data = some ⟨text, some block⟩ ∧
        block.written.length = block.size ∧ text.length = 4 * ((s.data.length + 2) / 3) ∧
        lucisBase64DecodeStr heap text = some ⟨s.data, some out⟩) ∧
    (∀ t : Bytes, Canonical t.data → heap (decodedLen t.data + 1) = true →
      heap (t.data.length + 1) = true →
      ∃ s out block, lucisBase64DecodeStr heap t.data = some ⟨s, some out⟩ ∧
        lucisBase64EncodeStr heap s = some ⟨t.data, some block⟩ ∧
        block.written.length = block.size) := by
  constructor
  · intro s served served'
    rcases encode_fills heap s served with ⟨block, encoded, _, full⟩
    have length := encodeText_length s.data
    have padded := encodeText_padding s.data
    have small := s.addressable
    rcases decode_result heap s.data (encodeText s.data) (by omega) (by omega)
      (decodeText_encodeText s.data) served' with ⟨out, decoded⟩
    exact ⟨encodeText s.data, block, out, encoded, full, length, decoded⟩
  · intro t canonical served served'
    rcases canonical_spec t.data canonical with ⟨s, decoded, encoded⟩
    have length := encoded ▸ encodeText_length s
    have padded := encoded ▸ encodeText_padding s
    have small := t.addressable
    have outLen := decodedLen_of_length (s := s) (t := t.data) (by omega) (by omega)
    rw [outLen] at served
    rcases decode_result heap s t.data (by omega) (by omega) decoded served with ⟨out, result⟩
    have short : s.length < 2 ^ 63 := by omega
    have request := (encodedLen_small short).1
    rcases encode_fills heap ⟨s, by omega⟩ (by rw [request, ← length]; exact served') with
      ⟨block, again, _, full⟩
    simp only [encoded] at again
    exact ⟨s, out, block, result, again, full⟩

/-- `Ma` and `TWE=`. -/
theorem base64_round_trips_ma :
    (∃ text block out, lucisBase64EncodeStr (fun _ => true) [77, 97] = some ⟨text, some block⟩ ∧
      block.written.length = block.size ∧ text.length = 4 * ((2 + 2) / 3) ∧
      lucisBase64DecodeStr (fun _ => true) text = some ⟨[77, 97], some out⟩) ∧
    (∃ s out block, lucisBase64DecodeStr (fun _ => true) [84, 87, 69, 61] = some ⟨s, some out⟩ ∧
      lucisBase64EncodeStr (fun _ => true) s = some ⟨[84, 87, 69, 61], some block⟩ ∧
      block.written.length = block.size) :=
  ⟨(base64_round_trips fun _ => true).1 ⟨[77, 97], by decide⟩ rfl rfl,
    (base64_round_trips fun _ => true).2 ⟨[84, 87, 69, 61], by decide⟩
      (.onePad (by decide) (by decide) (by decide) (by decide)) rfl rfl⟩

end RoundTrip

end Lucis.Base64
