import Mathlib.Data.Nat.Digits.Lemmas
import Lucis.Library.Cells

/-!
`toString` and `join` of vectors of int128, uint128 and intinf: three formatters that
write at most what they are told fits but return how long the text is, and the loops
that move a position through a growing buffer by what they return. A store outside
the buffer is a fault (`none`). Signed arithmetic wraps, as compilers emit it, and
requests for the buffer itself are served.
-/

namespace Lucis.VecText
open Cells List Option

abbrev Buffer := Block UInt8

/-- `(int)cap` -/
def int (cap : Nat) : Int := (BitVec.ofNat 32 cap).toInt

/-- `(int)cap - 1`: a formatter stores no character at this index or behind it. -/
def limit (cap : Nat) : Int := (BitVec.ofNat 32 cap - 1).toInt

def digit (value : Nat) : UInt8 := UInt8.ofNat (48 + value)

/-- `while (val > 0 && pos < fuel) tmp[pos++] = '0' + (char)(val % 10)`, for any number
that `divide` divides by ten. -/
def collect {Number : Type} (isZero : Number → Bool) (divide : Number → Number × Nat) :
    Nat → Number → List UInt8
  | 0, _ => []
  | fuel + 1, val =>
    if isZero val then [] else
      digit (divide val).2 :: collect isZero divide fuel (divide val).1

/-- `for (…; written < limit; …) buf[written++] = …`, where `buf` points to `start`. -/
def putChars (limit : Int) (start : Nat) : List UInt8 → Buffer → Nat → Option (Buffer × Nat)
  | [], buf, written => some (buf, written)
  | char :: chars, buf, written =>
    if (written : Int) < limit then
      (write buf (start + written) char).bind fun buf =>
        putChars limit start chars buf (written + 1)
    else some (buf, written)

/-- `if (written < (int)cap) buf[written] = '\0'` -/
def putEnd (start cap : Nat) (buf : Buffer) (written : Nat) : Option Buffer :=
  if (written : Int) < int cap then write buf (start + written) 0 else some buf

def divide_u128 (val : BitVec 128) : BitVec 128 × Nat := (val / 10, (val % 10).toNat)

def u128_to_buf (val : BitVec 128) (buf : Buffer) (start cap : Nat) : Option (Buffer × Nat) :=
  if cap = 0 then some (buf, 0)
  else if val = 0 then do
    let buf ← write buf start '0'.toUInt8
    let buf ← if 1 < cap then write buf (start + 1) 0 else some buf
    some (buf, 1)
  else do
    let tmp := collect (· == 0) divide_u128 39 val
    let (buf, written) ← putChars (limit cap) start tmp.reverse buf 0
    let buf ← putEnd start cap buf written
    some (buf, tmp.length)

def i128_to_buf (val : BitVec 128) (buf : Buffer) (start cap : Nat) : Option (Buffer × Nat) :=
  if cap = 0 then some (buf, 0)
  else if val = 0 then do
    let buf ← write buf start '0'.toUInt8
    let buf ← if 1 < cap then write buf (start + 1) 0 else some buf
    some (buf, 1)
  else do
    let neg := val.slt 0
    let abs_val := if neg then -val else val
    let tmp := collect (· == 0) divide_u128 39 abs_val
    let (buf, buf_idx) ← putChars (limit cap) start (if neg then ['-'.toUInt8] else []) buf 0
    let (buf, buf_idx) ← putChars (limit cap) start tmp.reverse buf buf_idx
    let buf ← putEnd start cap buf buf_idx
    some (buf, if neg then tmp.length + 1 else tmp.length)

structure Int256 where
  lo : BitVec 128
  hi : BitVec 128
deriving DecidableEq

/-- `memcpy(digits, &val, 32)`: four words, the lowest first. -/
def Int256.words (val : Int256) : List (BitVec 64) :=
  [val.lo.setWidth 64, (val.lo >>> 64).setWidth 64, val.hi.setWidth 64,
    (val.hi >>> 64).setWidth 64]

def div256_by_10 : List (BitVec 64) → List (BitVec 64) × Nat
  | [] => ([], 0)
  | n :: higher =>
    let (quotient, rem) := div256_by_10 higher
    let temp := rem * 2 ^ 64 + n.toNat
    (BitVec.ofNat 64 (temp / 10) :: quotient, temp % 10)

def is_zero_256 (n : List (BitVec 64)) : Bool := n.all (· == 0)

def negate_256 : List (BitVec 64) → BitVec 64 → List (BitVec 64)
  | [], _ => []
  | old :: higher, carry =>
    (~~~old + carry) :: negate_256 higher (if carry = 1 ∧ old = 0 then 1 else 0)

def iinf_to_buf (val : Int256) (buf : Buffer) (start cap : Nat) : Option (Buffer × Nat) :=
  if cap = 0 then some (buf, 0)
  else if is_zero_256 val.words then do
    let buf ← if 1 < cap then do
        let buf ← write buf start '0'.toUInt8
        write buf (start + 1) 0
      else some buf
    some (buf, 1)
  else do
    let neg := val.hi.slt 0
    let digits := if neg then negate_256 val.words 1 else val.words
    let tmp := collect is_zero_256 div256_by_10 79 digits
    let (buf, written) ← putChars (limit cap) start (if neg then ['-'.toUInt8] else []) buf 0
    let (buf, written) ← putChars (limit cap) start tmp.reverse buf written
    let buf ← putEnd start cap buf written
    some (buf, if neg then tmp.length + 1 else tmp.length)

/-- `cap - pos` in size_t; blocks are smaller than the address space, so it wraps
only when `pos` has passed `cap`. -/
def room (cap pos : Nat) : Nat := if pos ≤ cap then cap - pos else 2 ^ 64 - (pos - cap)

/-- `while (cap - pos < need) { cap *= 2; buf = realloc(buf, cap); }`; a block that is not
empty grows in each of the `fuel` turns. -/
def growBy (need : Nat) : Nat → Buffer → Nat → Buffer
  | 0, buf, _ => buf
  | fuel + 1, buf, pos =>
    if room buf.length pos < need then growBy need fuel (resize buf (buf.length * 2)) pos
    else buf

def grow (need : Nat) (buf : Buffer) (pos : Nat) : Buffer := growBy need (pos + need) buf pos

section Loops
variable {Elem : Type} (FMT_FN : Elem → Buffer → Nat → Nat → Option (Buffer × Nat))

/-- The loop of both functions; `separate` runs before every element but the first. -/
def appendAll (separate : Buffer → Nat → Option (Buffer × Nat)) :
    Nat → List Elem → Buffer → Nat → Option (Buffer × Nat)
  | _, [], buf, pos => some (buf, pos)
  | i, d :: rest, buf, pos => do
      let (buf, pos) ← if 0 < i then separate buf pos else some (buf, pos)
      let buf := grow 40 buf pos
      let (buf, chars) ← FMT_FN d buf pos (room buf.length pos)
      appendAll separate (i + 1) rest buf (pos + chars)

def comma (buf : Buffer) (pos : Nat) : Option (Buffer × Nat) := do
  let buf ← writeAll [','.toUInt8, ' '.toUInt8] buf pos
  some (buf, pos + 2)

def separator (sep : List UInt8) (buf : Buffer) (pos : Nat) : Option (Buffer × Nat) := do
  let buf := grow (sep.length + 1) buf pos
  let buf ← writeAll sep buf pos
  some (buf, pos + sep.length)

/-- A string, and whether storing its terminator went past the block it was copied to. -/
structure Made where
  text : Buffer
  overrun : Bool
deriving DecidableEq

/-- `lucis_allocString(pos)` gives a block of `pos` bytes, if it is `served`; then the text
is copied and `_t[pos] = '\0'` stored. Else the string stays where it was built. -/
def finish (served : Bool) (buf : Buffer) (pos : Nat) : Option Made :=
  if served then
    (copy (List.replicate pos none) buf pos).map fun t => ⟨t.take pos, decide (t.length ≤ pos)⟩
  else some ⟨buf.take pos, false⟩

def toString_128 (served : Bool) (v : List Elem) : Option Made :=
  if v = [] then some ⟨['['.toUInt8, ']'.toUInt8].map some, false⟩
  else do
    let buf := resize [] 64
    let buf ← write buf 0 '['.toUInt8
    let (buf, pos) ← appendAll FMT_FN comma 0 v buf 1
    let buf := if buf.length ≤ pos + 1 then resize buf (pos + 2) else buf
    let buf ← write buf pos ']'.toUInt8
    let buf ← write buf (pos + 1) 0
    finish served buf (pos + 1)

def join_128 (served : Bool) (v : List Elem) (sep : List UInt8) : Option Made :=
  if v = [] then some ⟨[], false⟩
  else do
    let (buf, pos) ← appendAll FMT_FN (separator sep) 0 v (resize [] 64) 0
    let buf ← write buf pos 0
    finish served buf pos

end Loops

def lucis_vec_toString_i128 := toString_128 i128_to_buf
def lucis_vec_toString_u128 := toString_128 u128_to_buf
def lucis_vec_toString_iinf := toString_128 iinf_to_buf
def lucis_vec_join_i128 := join_128 i128_to_buf
def lucis_vec_join_u128 := join_128 u128_to_buf
def lucis_vec_join_iinf := join_128 iinf_to_buf

def decimalNat (n : Nat) : List UInt8 :=
  if n = 0 then [digit 0] else ((Nat.digits 10 n).map digit).reverse

def decimal (value : Int) : List UInt8 :=
  if value < 0 then '-'.toUInt8 :: decimalNat value.natAbs else decimalNat value.natAbs

/-- The capacity when an element is formatted at `pos`: the first in 64, 128, … that
leaves the 40 bytes the loop asks for. -/
def capacity (pos : Nat) : Nat := 2 ^ max 6 (Nat.clog 2 (pos + 40))

/-- The formatter stores the whole text of a value in `cap` bytes. -/
def Fits (cap : Nat) (value : Int) : Prop :=
  value = 0 ∨ ((decimal value).length : Int) ≤ limit cap

/-- Where each text begins, it fits behind; and where the separator is stored without
asking for room, it ends within the capacity the element before it had. -/
def Roomy (gap : Nat) (unasked : Bool) : Nat → List Int → Prop
  | _, [] => True
  | pos, value :: rest =>
    Fits (capacity pos - pos) value ∧
      (unasked = true → rest ≠ [] → pos + (decimal value).length + gap ≤ capacity pos) ∧
      Roomy gap unasked (pos + (decimal value).length + gap) rest

example : decimal (-10) = "-10".toList.map Char.toUInt8 := by decide

section Digits

theorem collect_digits {Number : Type} (isZero : Number → Bool)
    (divide : Number → Number × Nat) (value : Number → Nat)
    (zero : ∀ n, isZero n = true ↔ value n = 0)
    (divides : ∀ n, value (divide n).1 = value n / 10 ∧ (divide n).2 = value n % 10)
    (fuel : Nat) (n : Number) (short : value n < 10 ^ fuel) :
    collect isZero divide fuel n = (Nat.digits 10 (value n)).map digit := by
  induction fuel generalizing n with
  | zero =>
    have none : value n = 0 := by simpa using short
    rw [none, collect]
    rfl
  | succ fuel ih =>
    rw [collect]
    by_cases none : value n = 0
    · rw [if_pos ((zero n).2 none), none]
      rfl
    · have smaller : value (divide n).1 < 10 ^ fuel := by
        rw [(divides n).1]
        exact Nat.div_lt_of_lt_mul (by rw [pow_succ] at short; omega)
      rw [if_neg (fun is_zero => none ((zero n).1 is_zero)), ih _ smaller, (divides n).1,
        (divides n).2, Nat.digits_def' (by decide) (Nat.pos_of_ne_zero none), map_cons]

theorem collect_u128 (val : BitVec 128) :
    collect (· == 0) divide_u128 39 val = (Nat.digits 10 val.toNat).map digit := by
  have bound := val.isLt
  refine collect_digits _ _ BitVec.toNat (fun n => ?_) (fun n => ?_) 39 val (by omega)
  · rw [beq_iff_eq, ← BitVec.toNat_inj]
    rfl
  · exact ⟨by simp [divide_u128], by simp [divide_u128]⟩

def wordsValue : List (BitVec 64) → Nat
  | [] => 0
  | n :: higher => n.toNat + 2 ^ 64 * wordsValue higher

variable (n : List (BitVec 64))

theorem is_zero_256_iff : is_zero_256 n = true ↔ wordsValue n = 0 := by
  induction n with
  | nil => exact ⟨fun _ => rfl, fun _ => rfl⟩
  | cons word higher ih =>
    have head : (word == 0) = true ↔ word.toNat = 0 := by
      rw [beq_iff_eq, ← BitVec.toNat_inj]
      rfl
    rw [is_zero_256, all_cons, Bool.and_eq_true, head, wordsValue]
    rw [is_zero_256] at ih
    rw [ih]
    omega

theorem div256_by_10_value :
    wordsValue (div256_by_10 n).1 = wordsValue n / 10 ∧ (div256_by_10 n).2 = wordsValue n % 10 := by
  induction n with
  | nil => exact ⟨rfl, rfl⟩
  | cons word higher ih =>
    have small := word.isLt
    rcases split : div256_by_10 higher with ⟨quotient, rem⟩
    rw [split] at ih
    simp only [div256_by_10, split, wordsValue, BitVec.toNat_ofNat, ih.1, ih.2]
    omega

theorem wordsValue_lt : wordsValue n < 2 ^ (64 * n.length) := by
  induction n with
  | nil => exact Nat.one_pos
  | cons word higher ih =>
    have small := word.isLt
    have scale : 2 ^ (64 * (word :: higher).length) = 2 ^ 64 * 2 ^ (64 * higher.length) := by
      rw [length_cons, mul_add, add_comm, Nat.pow_add]
    rw [wordsValue, scale]
    omega

theorem negate_256_value :
    wordsValue (negate_256 n 0) + wordsValue n + 1 = 2 ^ (64 * n.length) ∧
      wordsValue (negate_256 n 1) = (2 ^ (64 * n.length) - wordsValue n) % 2 ^ (64 * n.length) := by
  induction n with
  | nil => exact ⟨rfl, rfl⟩
  | cons word higher ih =>
    have small := word.isLt
    have bound := wordsValue_lt higher
    have scale : 2 ^ (64 * (word :: higher).length) = 2 ^ 64 * 2 ^ (64 * higher.length) := by
      rw [length_cons, mul_add, add_comm, Nat.pow_add]
    have flipped : (~~~word).toNat = 2 ^ 64 - 1 - word.toNat := BitVec.toNat_not
    rcases ih with ⟨complement, negated⟩
    rw [scale]
    constructor
    · have same : ~~~word + 0 = ~~~word := BitVec.add_zero _
      rw [negate_256, if_neg (by simp), wordsValue, wordsValue, same, flipped]
      omega
    · by_cases zero : word = 0
      · -- the carry goes on through a word that is zero
        rw [negate_256, if_pos ⟨rfl, zero⟩, wordsValue, negated, zero, wordsValue]
        have none : (~~~(0 : BitVec 64) + 1).toNat = 0 := rfl
        have empty : (0 : BitVec 64).toNat = 0 := rfl
        rw [none, empty, zero_add, zero_add, ← Nat.mul_sub, Nat.mul_mod_mul_left]
      · have nonzero : word.toNat ≠ 0 := fun none => zero (BitVec.eq_of_toNat_eq none)
        have stops : (~~~word + 1).toNat = 2 ^ 64 - word.toNat := by
          rw [BitVec.toNat_add, flipped]
          have one : (1 : BitVec 64).toNat = 1 := rfl
          omega
        rw [negate_256, if_neg (fun both => zero both.2), wordsValue, stops, wordsValue,
          Nat.mod_eq_of_lt (by omega)]
        omega

variable (val : Int256)

theorem length_words : val.words.length = 4 := rfl

theorem length_negate_256 (carry : BitVec 64) :
    (negate_256 n carry).length = n.length := by
  induction n generalizing carry with
  | nil => rfl
  | cons word higher ih => rw [negate_256, length_cons, ih, length_cons]

theorem words_value :
    wordsValue val.words = val.lo.toNat + 2 ^ 128 * val.hi.toNat := by
  have low := val.lo.isLt
  have high := val.hi.isLt
  simp only [Int256.words, wordsValue, BitVec.toNat_setWidth, BitVec.toNat_ushiftRight,
    Nat.shiftRight_eq_div_pow]
  omega

theorem collect_iinf (four : n.length = 4) :
    collect is_zero_256 div256_by_10 79 n = (Nat.digits 10 (wordsValue n)).map digit := by
  have bound := wordsValue_lt n
  rw [four] at bound
  exact collect_digits _ _ wordsValue is_zero_256_iff div256_by_10_value 79 n (by omega)

end Digits

section Formatters

/-- The text behind `start` as far as `cap` allows, and a terminator if there is room. -/
def printed (text : List UInt8) (buf : Buffer) (start cap : Nat) : Option (Buffer × Nat) := do
  let (buf, written) ← putChars (limit cap) start text buf 0
  let buf ← putEnd start cap buf written
  some (buf, text.length)

def printedZero (buf : Buffer) (start : Nat) : Option (Buffer × Nat) := do
  let buf ← writeAll [digit 0, 0] buf start
  some (buf, 1)

def Prints (fmt : Buffer → Nat → Nat → Option (Buffer × Nat)) (value : Int) : Prop :=
  ∀ buf start cap, 1 < cap → fmt buf start cap =
    if value = 0 then printedZero buf start else printed (decimal value) buf start cap

theorem putChars_append (limit : Int) (start : Nat) (first rest : List UInt8) (buf : Buffer)
    (written : Nat) : putChars limit start (first ++ rest) buf written =
      (putChars limit start first buf written).bind fun out =>
        putChars limit start rest out.1 out.2 := by
  induction first generalizing buf written with
  | nil => rfl
  | cons char chars ih =>
    rw [cons_append, putChars, putChars]
    by_cases more : (written : Int) < limit
    · rw [if_pos more, if_pos more, bind_assoc]
      exact congrArg _ (funext fun buf => ih buf (written + 1))
    · -- once the limit is met nothing more is stored
      rw [if_neg more, if_neg more, bind_some]
      cases rest with
      | nil => rfl
      | cons next rest => exact (if_neg more).symm

theorem prints_zero (buf : Buffer) (start cap : Nat) (wide : 1 < cap) :
    (do let buf ← write buf start '0'.toUInt8
        let buf ← if 1 < cap then write buf (start + 1) 0 else some buf
        some (buf, 1)) = printedZero buf start := by
  simp only [if_pos wide, printedZero, writeAll, bind_assoc, bind_eq_bind, bind_some]
  rfl

theorem prints_signed (neg : Bool) (digits : List UInt8) (buf : Buffer) (start cap : Nat) :
    (do let (buf, written) ← putChars (limit cap) start (if neg then ['-'.toUInt8] else []) buf 0
        let (buf, written) ← putChars (limit cap) start digits buf written
        let buf ← putEnd start cap buf written
        some (buf, if neg then digits.length + 1 else digits.length)) =
      printed (if neg then '-'.toUInt8 :: digits else digits) buf start cap := by
  have joined : (if neg then '-'.toUInt8 :: digits else digits) =
      (if neg then ['-'.toUInt8] else []) ++ digits := by cases neg <;> rfl
  have sized : (if neg then digits.length + 1 else digits.length) =
      (if neg then '-'.toUInt8 :: digits else digits).length := by cases neg <;> rfl
  rw [printed, sized, joined, putChars_append]
  simp only [bind_eq_bind, bind_assoc]

theorem decimalNat_pos (n : Nat) (pos : n ≠ 0) :
    decimalNat n = ((Nat.digits 10 n).map digit).reverse := if_neg pos

def value_u128 (val : BitVec 128) : Int := val.toNat
def value_i128 (val : BitVec 128) : Int := val.toInt
def value_iinf (val : Int256) : Int := val.hi.toInt * 2 ^ 128 + val.lo.toNat

variable (val : BitVec 128)

theorem u128_to_buf_prints : Prints (u128_to_buf val) (value_u128 val) := by
  intro buf start cap wide
  have zero_iff : val = 0 ↔ value_u128 val = 0 := by
    rw [value_u128, Int.natCast_eq_zero, ← BitVec.toNat_inj]
    rfl
  rw [u128_to_buf, if_neg (by omega)]
  by_cases zero : val = 0
  · rw [if_pos zero, if_pos (zero_iff.1 zero)]
    exact prints_zero buf start cap wide
  · have pos : val.toNat ≠ 0 := fun none => zero (BitVec.eq_of_toNat_eq none)
    have text : decimal (value_u128 val) = ((Nat.digits 10 val.toNat).map digit).reverse := by
      rw [value_u128, decimal, if_neg (by omega), Int.natAbs_natCast, decimalNat_pos _ pos]
    rw [if_neg zero, if_neg (fun none => zero (zero_iff.2 none)), collect_u128, text, printed,
      length_reverse]

theorem decimal_signed (value : Int) (magnitude : Nat) (nonzero : value ≠ 0)
    (same : magnitude = value.natAbs) : decimal value = (if decide (value < 0) then
      '-'.toUInt8 :: ((Nat.digits 10 magnitude).map digit).reverse
      else ((Nat.digits 10 magnitude).map digit).reverse) := by
  have pos : value.natAbs ≠ 0 := Int.natAbs_ne_zero.2 nonzero
  rw [decimal, decimalNat_pos _ pos, same]
  by_cases neg : value < 0
  · rw [if_pos neg, if_pos (decide_eq_true neg)]
  · rw [if_neg neg, if_neg (by simpa using neg)]

theorem i128_magnitude :
    (if val.slt 0 then -val else val).toNat = (value_i128 val).natAbs := by
  have bound := val.isLt
  have signed := BitVec.toInt_eq_toNat_cond val
  have sign : val.slt 0 = decide (value_i128 val < 0) := rfl
  rw [sign, value_i128]
  by_cases neg : val.toInt < 0
  · rw [if_pos (decide_eq_true neg), BitVec.toNat_neg]
    split at signed <;> omega
  · rw [if_neg (by simpa using neg)]
    split at signed <;> omega

theorem i128_to_buf_prints : Prints (i128_to_buf val) (value_i128 val) := by
  intro buf start cap wide
  have zero_iff : val = 0 ↔ value_i128 val = 0 := by
    rw [value_i128, ← BitVec.toInt_inj]
    rfl
  rw [i128_to_buf, if_neg (by omega)]
  by_cases zero : val = 0
  · rw [if_pos zero, if_pos (zero_iff.1 zero)]
    exact prints_zero buf start cap wide
  · have nonzero : value_i128 val ≠ 0 := fun none => zero (zero_iff.2 none)
    have sign : val.slt 0 = decide (value_i128 val < 0) := rfl
    rw [if_neg zero, if_neg nonzero, decimal_signed _ _ nonzero (i128_magnitude val), ← sign,
      ← prints_signed, ← collect_u128]
    simp only [length_reverse]

variable (val : Int256)

theorem iinf_magnitude :
    wordsValue (if val.hi.slt 0 then negate_256 val.words 1 else val.words) =
      (value_iinf val).natAbs := by
  have low := val.lo.isLt
  have high := val.hi.isLt
  have signed := BitVec.toInt_eq_toNat_cond val.hi
  have sign : val.hi.slt 0 = decide (val.hi.toInt < 0) := rfl
  have negated := (negate_256_value val.words).2
  rw [length_words, words_value] at negated
  rw [sign, value_iinf]
  by_cases neg : val.hi.toInt < 0
  · rw [if_pos (decide_eq_true neg), negated]
    split at signed <;> omega
  · rw [if_neg (by simpa using neg), words_value]
    split at signed <;> omega

theorem iinf_to_buf_prints : Prints (iinf_to_buf val) (value_iinf val) := by
  intro buf start cap wide
  have low := val.lo.isLt
  have signed := BitVec.toInt_eq_toNat_cond val.hi
  have zero_iff : is_zero_256 val.words = true ↔ value_iinf val = 0 := by
    rw [is_zero_256_iff, words_value, value_iinf]
    split at signed <;> omega
  rw [iinf_to_buf, if_neg (by omega)]
  by_cases zero : is_zero_256 val.words = true
  · rw [if_pos zero, if_pos (zero_iff.1 zero), ← prints_zero buf start cap wide]
    simp only [if_pos wide, bind_eq_bind]
  · have nonzero : value_iinf val ≠ 0 := fun none => zero (zero_iff.2 none)
    have sign : val.hi.slt 0 = decide (value_iinf val < 0) := by
      have same : val.hi.slt 0 = decide (val.hi.toInt < 0) := rfl
      rw [same, value_iinf, decide_eq_decide]
      omega
    have four : (if val.hi.slt 0 then negate_256 val.words 1 else val.words).length = 4 := by
      split
      · rw [length_negate_256, length_words]
      · exact length_words val
    rw [if_neg zero, if_neg nonzero, decimal_signed _ _ nonzero (iinf_magnitude val), ← sign,
      ← prints_signed, ← collect_iinf _ four]
    simp only [length_reverse]

end Formatters

section Cells

/-- `out` is `buf` with the first `count` characters of `text` stored from `start` on;
behind them nothing but a terminator was stored. -/
structure Stored (text : List UInt8) (count start : Nat) (buf out : Buffer) : Prop where
  grows : buf.length ≤ out.length
  below : ∀ j < start, read out j = read buf j
  chars : ∀ k < count, read out (start + k) = text[k]?
  behind : ∀ j, start + count ≤ j → read out j = read buf j ∨ read out j = some 0

def Shows (text : List UInt8) (buf : Buffer) : Prop := ∀ j < text.length, read buf j = text[j]?

structure Holds (text : List UInt8) (buf : Buffer) : Prop where
  shows : Shows text buf
  clean : ∀ j, text.length ≤ j → read buf j = none ∨ read buf j = some 0

variable {buf out : Buffer} {text more : List UInt8}

theorem Shows.below (shows : Shows (text ++ more) out)
    (below : ∀ j < text.length, read out j = read buf j) : Shows text buf := by
  intro j inside
  have whole := shows j (by rw [length_append]; omega)
  rw [← below j inside, whole, getElem?_append_left inside]

theorem Holds.stored (holds : Holds text buf)
    (stored : Stored more more.length text.length buf out) : Holds (text ++ more) out := by
  constructor
  · intro j inside
    rw [length_append] at inside
    by_cases old : j < text.length
    · rw [stored.below j old, holds.shows j old, getElem?_append_left old]
    · have char := stored.chars (j - text.length) (by omega)
      rw [Nat.add_sub_cancel' (by omega)] at char
      rw [char, getElem?_append_right (by omega)]
  · intro j outside
    rw [length_append] at outside
    rcases stored.behind j outside with same | ended
    · rw [same]
      exact holds.clean j (by omega)
    · exact .inr ended

theorem Holds.cut {count : Nat}
    (holds : Holds text buf) (stored : Stored more count text.length buf out)
    (short : count < more.length) (printable : ∀ c ∈ more, c ≠ 0) : ¬ Shows (text ++ more) out := by
  intro shows
  have char := shows (text.length + count) (by rw [length_append]; omega)
  rw [getElem?_append_right (by omega), Nat.add_sub_cancel_left, getElem?_eq_getElem short] at char
  have visible := printable _ (getElem_mem short)
  have kept : read out (text.length + count) = none ∨ read out (text.length + count) = some 0 := by
    rcases stored.behind _ (le_rfl) with same | ended
    · rw [same]
      exact holds.clean _ (by omega)
    · exact .inr ended
  rcases kept with absent | ended
  · rw [absent] at char
    cases char
  · rw [ended] at char
    exact visible (Option.some.inj char).symm

theorem limit_le (cap : Nat) (wide : 0 < cap) : limit cap ≤ (cap : Int) - 1 := by
  have _ : cap % 2 ^ 32 < 2 ^ 32 := Nat.mod_lt _ (by decide)
  have _ := Nat.mod_le cap (2 ^ 32)
  rw [limit, BitVec.toInt_eq_toNat_cond, BitVec.toNat_sub, BitVec.toNat_ofNat]
  have one : (1 : BitVec 32).toNat = 1 := rfl
  rw [one]
  split <;> omega

theorem putChars_eq (limit : Int) (start : Nat) (text : List UInt8) (buf : Buffer) (written : Nat) :
    putChars limit start text buf written =
      (writeAll (text.take (limit - written).toNat) buf (start + written)).map fun out =>
        (out, written + (text.take (limit - written).toNat).length) := by
  induction text generalizing buf written with
  | nil => rw [take_nil]; rfl
  | cons char chars ih =>
    rw [putChars]
    by_cases more : (written : Int) < limit
    · have count : (limit - written).toNat = (limit - (written + 1 : Nat)).toNat + 1 := by omega
      rw [if_pos more, count, take_succ_cons, writeAll, Option.map_bind]
      refine congrArg _ (funext fun buf => ?_)
      rw [ih buf (written + 1), length_cons, add_assoc, add_assoc, add_comm 1]
      rfl
    · have count : (limit - written).toNat = 0 := by omega
      rw [if_neg more, count]
      rfl

/-- How many characters of a text of this length are stored in `cap` bytes. -/
def visible (cap : Nat) (length : Nat) : Nat := min (limit cap).toNat length

theorem visible_eq (text : List UInt8) (cap : Nat) :
    (text.take (limit cap - (0 : Nat)).toNat).length = visible cap text.length := by
  rw [length_take, visible]
  simp

variable {start cap : Nat}

theorem putEnd_stored {written : Nat} (ended : putEnd start cap buf written = some out) :
    out.length = buf.length ∧
      ∀ j, read out j = read buf j ∨ j = start + written ∧ read out j = some 0 := by
  rw [putEnd] at ended
  split at ended
  · refine ⟨write_length ended, fun j => ?_⟩
    rw [read_write ended]
    split
    · exact .inr ⟨by assumption, rfl⟩
    · exact .inl rfl
  · rw [Option.some.inj ended]
    exact ⟨rfl, fun j => .inl rfl⟩

variable {chars : Nat}

theorem printed_stored (ran : printed text buf start cap = some (out, chars)) :
    chars = text.length ∧ out.length = buf.length ∧
      Stored text (visible cap text.length) start buf out := by
  simp only [printed, putChars_eq, bind_eq_bind, map_eq_some_iff,
    bind_eq_some_iff, Option.some.injEq, Prod.mk.injEq] at ran
  rcases ran with ⟨_, ⟨middle, wrote, rfl⟩, out', ended, rfl, rfl⟩
  have count := visible_eq text cap
  have cells := read_writeAll wrote
  obtain ⟨kept, behind⟩ := putEnd_stored ended
  simp only [add_zero, zero_add, count] at cells behind
  rw [writeAll_length wrote] at kept
  refine ⟨rfl, kept, le_of_eq kept.symm, fun j before => ?_, fun k inside => ?_,
    fun j after => ?_⟩
  · rcases behind j with same | ⟨here, _⟩
    · rw [same, cells, if_neg (by omega)]
    · omega
  · rcases behind (start + k) with same | ⟨here, _⟩
    · rw [same, cells, if_pos (by omega), Nat.add_sub_cancel_left, getElem?_take_of_lt]
      rw [visible] at inside
      omega
    · omega
  · rcases behind j with same | ⟨_, terminator⟩
    · rw [same, cells, if_neg (by omega)]
      exact .inl rfl
    · exact .inr terminator

theorem printedZero_stored (ran : printedZero buf start = some (out, chars)) :
    chars = 1 ∧ out.length = buf.length ∧ Stored [digit 0] 1 start buf out := by
  simp only [printedZero, bind_eq_bind, bind_eq_some_iff, Option.some.injEq, Prod.mk.injEq] at ran
  rcases ran with ⟨out', wrote, rfl, rfl⟩
  have cells := read_writeAll wrote
  have kept := writeAll_length wrote
  refine ⟨rfl, kept, le_of_eq kept.symm, fun j before => ?_, fun k inside => ?_,
    fun j after => ?_⟩
  · rw [cells, if_neg (by omega)]
  · have first : k = 0 := by omega
    rw [cells, first, if_pos (by simp)]
    simp
  · rw [cells]
    split
    · have second : j - start = 1 := by simp at *; omega
      rw [second]
      exact .inr rfl
    · exact .inl rfl

/-- How many characters of a value's text are stored in `cap` bytes. -/
def shown (cap : Nat) (value : Int) : Nat :=
  if value = 0 then 1 else visible cap (decimal value).length

theorem decimalNat_length_pos (n : Nat) : 0 < (decimalNat n).length := by
  by_cases zero : n = 0
  · rw [zero]
    exact Nat.one_pos
  · rw [decimalNat_pos n zero, length_reverse, length_map]
    exact length_pos_iff.2 (Nat.digits_ne_nil_iff_ne_zero.2 zero)

variable (value : Int)

theorem decimal_length_pos : 0 < (decimal value).length := by
  rw [decimal]
  split
  · exact Nat.succ_pos _
  · exact decimalNat_length_pos _

theorem decimalNat_printable (n : Nat) : ∀ c ∈ decimalNat n, c ≠ 0 := by
  have visible : ∀ d < 10, digit d ≠ 0 := by decide
  intro c member
  by_cases zero : n = 0
  · rw [zero] at member
    rw [mem_singleton.1 member]
    exact visible 0 (by decide)
  · rw [decimalNat_pos n zero, mem_reverse, List.mem_map] at member
    rcases member with ⟨d, digits, rfl⟩
    exact visible d (Nat.digits_lt_base (by decide) digits)

theorem decimal_printable : ∀ c ∈ decimal value, c ≠ 0 := by
  rw [decimal]
  split
  · intro c member
    rcases mem_cons.1 member with sign | rest
    · rw [sign]
      decide
    · exact decimalNat_printable _ c rest
  · exact decimalNat_printable _

theorem shown_eq_iff (cap : Nat) (value : Int) :
    shown cap value = (decimal value).length ↔ Fits cap value := by
  by_cases zero : value = 0
  · simp [shown, Fits, zero, decimal, decimalNat]
  · have pos := decimal_length_pos value
    rw [shown, if_neg zero, Fits, visible]
    constructor
    · intro whole
      exact .inr (by omega)
    · rintro (none | fits)
      · exact absurd none zero
      · omega

variable {fmt : Buffer → Nat → Nat → Option (Buffer × Nat)} {value : Int}

theorem prints_stored
    (prints : Prints fmt value) (wide : 1 < cap) (ran : fmt buf start cap = some (out, chars)) :
    chars = (decimal value).length ∧ out.length = buf.length ∧
      Stored (decimal value) (shown cap value) start buf out := by
  rw [prints buf start cap wide] at ran
  by_cases zero : value = 0
  · rw [if_pos zero] at ran
    rw [shown, if_pos zero, zero]
    exact printedZero_stored ran
  · rw [if_neg zero] at ran
    rw [shown, if_neg zero]
    exact printed_stored ran

theorem prints_runs (prints : Prints fmt value) (buf : Buffer) (start cap : Nat) (wide : 1 < cap)
    (inside : start + cap ≤ buf.length) (fits : Fits cap value) :
    ∃ out, fmt buf start cap = some (out, (decimal value).length) ∧
      (decimal value).length < cap := by
  rw [prints buf start cap wide]
  by_cases zero : value = 0
  · rcases writeAll_fits [digit 0, 0] buf start (by simp; omega) with ⟨out, wrote⟩
    refine ⟨out, ?_, by rw [zero]; exact wide⟩
    rw [if_pos zero, zero, printedZero, wrote]
    rfl
  · have bound := limit_le cap (by omega)
    have short : ((decimal value).length : Int) ≤ limit cap := fits.resolve_left zero
    have all : (decimal value).take (limit cap - (0 : Nat)).toNat = decimal value :=
      take_of_length_le (by omega)
    rcases writeAll_fits (decimal value) buf start (by omega) with ⟨middle, wrote⟩
    have ended : ∃ out, putEnd start cap middle (0 + (decimal value).length) = some out := by
      rw [putEnd]
      split
      · exact ⟨_, if_pos (by rw [writeAll_length wrote]; omega)⟩
      · exact ⟨_, rfl⟩
    rcases ended with ⟨out, ended⟩
    refine ⟨out, ?_, by omega⟩
    simp only [if_neg zero, printed, putChars_eq, all, add_zero, wrote, map_some,
      bind_eq_bind, bind_some, ended]

end Cells

section Growing

theorem read_growBy (need fuel : Nat) (buf : Buffer) (pos j : Nat) :
    read (growBy need fuel buf pos) j = read buf j := by
  induction fuel generalizing buf with
  | zero => rfl
  | succ fuel ih =>
    rw [growBy]
    split
    · rw [ih, read_resize buf _ (by omega)]
    · rfl

theorem growBy_grows (need fuel : Nat) (buf : Buffer) (pos : Nat) :
    buf.length ≤ (growBy need fuel buf pos).length := by
  induction fuel generalizing buf with
  | zero => exact le_rfl
  | succ fuel ih =>
    rw [growBy]
    split
    · have next := ih (resize buf (buf.length * 2))
      rw [length_resize] at next
      omega
    · exact le_rfl

theorem growBy_room (need fuel : Nat) (buf : Buffer) (pos : Nat) (nonempty : 0 < buf.length)
    (enough : pos + need ≤ fuel + buf.length) :
    need ≤ room (growBy need fuel buf pos).length pos := by
  induction fuel generalizing buf with
  | zero =>
    rw [growBy, room, if_pos (by omega)]
    omega
  | succ fuel ih =>
    rw [growBy]
    split
    · exact ih _ (by rw [length_resize]; omega) (by rw [length_resize]; omega)
    · omega

theorem growBy_length (need fuel k : Nat) (buf : Buffer) (pos : Nat)
    (level : buf.length = 2 ^ k) (inside : pos ≤ buf.length)
    (enough : pos + need ≤ fuel + buf.length) :
    (growBy need fuel buf pos).length = 2 ^ max k (Nat.clog 2 (pos + need)) := by
  induction fuel generalizing buf k with
  | zero =>
    have low : Nat.clog 2 (pos + need) ≤ k := Nat.clog_le_of_le_pow (by omega)
    rw [growBy, Nat.max_eq_left low, level]
  | succ fuel ih =>
    have pos_length : 0 < buf.length := level ▸ Nat.two_pow_pos k
    rw [growBy, room, if_pos inside]
    split
    · have high : k < Nat.clog 2 (pos + need) :=
        (Nat.lt_clog_iff_pow_lt Nat.one_lt_two).2 (by omega)
      have doubled : (resize buf (buf.length * 2)).length = 2 ^ (k + 1) := by
        rw [length_resize, level, pow_succ]
      rw [ih (k + 1) _ doubled (by rw [length_resize]; omega) (by rw [length_resize]; omega),
        Nat.max_eq_right high, Nat.max_eq_right (le_of_lt high)]
    · have low : Nat.clog 2 (pos + need) ≤ k := Nat.clog_le_of_le_pow (by omega)
      rw [Nat.max_eq_left low, level]

/-- The capacity is one of 64, 128, … and no more than formatting at `pos` asks for. -/
structure Level (pos : Nat) (buf : Buffer) : Prop where
  power : ∃ k, buf.length = 2 ^ k ∧ 6 ≤ k ∧ k ≤ max 6 (Nat.clog 2 (pos + 40))
  inside : pos ≤ buf.length

variable {buf : Buffer} {pos : Nat}

theorem Level.grow_length (level : Level pos buf) : (grow 40 buf pos).length = capacity pos := by
  rcases level.power with ⟨k, length, low, high⟩
  have same : max k (Nat.clog 2 (pos + 40)) = max 6 (Nat.clog 2 (pos + 40)) := by omega
  rw [grow, growBy_length 40 _ k buf pos length level.inside (by omega), capacity, same]

theorem capacity_room (pos : Nat) : pos + 40 ≤ capacity pos := by
  have bound := Nat.le_pow_clog (Nat.one_lt_two) (pos + 40)
  have grows : 2 ^ Nat.clog 2 (pos + 40) ≤ capacity pos :=
    Nat.pow_le_pow_right Nat.two_pos (le_max_right _ _)
  omega

theorem Level.nonempty (level : Level pos buf) : 0 < buf.length := by
  rcases level.power with ⟨k, power, _⟩
  exact power ▸ Nat.two_pow_pos k

theorem Level.grow_room (level : Level pos buf) :
    room (grow 40 buf pos).length pos = capacity pos - pos := by
  have space := capacity_room pos
  rw [level.grow_length, room, if_pos (by omega)]

theorem level_capacity {next : Nat} (length : buf.length = capacity pos)
    (ahead : pos ≤ next) (inside : next ≤ buf.length) : Level next buf := by
  have monotone : Nat.clog 2 (pos + 40) ≤ Nat.clog 2 (next + 40) :=
    Nat.clog_mono_right 2 (by omega)
  exact ⟨⟨_, length, le_max_left _ _, by omega⟩, inside⟩

theorem Stored.of_grow {text : List UInt8} {count start need : Nat} {out : Buffer}
    (stored : Stored text count start (grow need buf pos) out) :
    Stored text count start buf out := by
  have kept := read_growBy need (pos + need) buf pos
  refine ⟨le_trans (growBy_grows _ _ _ _) stored.grows, fun j before => ?_, stored.chars,
    fun j after => ?_⟩
  · rw [stored.below j before, grow, kept]
  · rcases stored.behind j after with same | ended
    · rw [same, grow, kept]
      exact .inl rfl
    · exact .inr ended

end Growing

section Runs
variable {Elem : Type} {FMT_FN : Elem → Buffer → Nat → Nat → Option (Buffer × Nat)}
  {value : Elem → Int}

def element (FMT_FN : Elem → Buffer → Nat → Nat → Option (Buffer × Nat)) (d : Elem)
    (buf : Buffer) (pos : Nat) : Option (Buffer × Nat) :=
  FMT_FN d (grow 40 buf pos) pos (room (grow 40 buf pos).length pos)

variable {buf out : Buffer} {pos : Nat}

variable (prints : ∀ d, Prints (FMT_FN d) (value d))
include prints

variable {chars : Nat} {d : Elem}

theorem element_stored
    (nonempty : 0 < buf.length) (ran : element FMT_FN d buf pos = some (out, chars)) :
    chars = (decimal (value d)).length ∧ out.length = (grow 40 buf pos).length ∧
      Stored (decimal (value d)) (shown (room (grow 40 buf pos).length pos) (value d)) pos
        buf out := by
  have wide := growBy_room 40 (pos + 40) buf pos nonempty (by omega)
  have ⟨count, length, stored⟩ := prints_stored (prints d) (by rw [grow]; omega) ran
  exact ⟨count, length, stored.of_grow⟩

variable {text more : List UInt8}

theorem element_runs (d : Elem) (holds : Holds text buf) (level : Level text.length buf)
    (fits : Fits (capacity text.length - text.length) (value d)) :
    ∃ out, element FMT_FN d buf text.length = some (out, (decimal (value d)).length) ∧
      Holds (text ++ decimal (value d)) out ∧ out.length = capacity text.length ∧
      (text ++ decimal (value d)).length < out.length ∧
      Level (text ++ decimal (value d)).length out := by
  have length := level.grow_length
  have space := capacity_room text.length
  have given := level.grow_room
  have ran := prints_runs (prints d) (grow 40 buf text.length) text.length
    (capacity text.length - text.length) (by omega) (by omega) fits
  rcases ran with ⟨out, ran, short⟩
  rw [← given] at ran fits
  have ⟨_, kept, stored⟩ := element_stored prints level.nonempty ran
  rw [(shown_eq_iff _ _).2 fits] at stored
  rw [length] at kept
  have inside : (text ++ decimal (value d)).length < out.length := by
    rw [length_append]
    omega
  exact ⟨out, ran, holds.stored stored, kept, inside,
    level_capacity kept (prefix_append _ _).length_le (le_of_lt inside)⟩

theorem element_needs (holds : Holds text buf)
    (level : Level text.length buf) (ran : element FMT_FN d buf text.length = some (out, chars))
    (shows : Shows (text ++ decimal (value d)) out) :
    Fits (capacity text.length - text.length) (value d) := by
  have given := level.grow_room
  have ⟨_, _, stored⟩ := element_stored prints level.nonempty ran
  rw [given] at stored
  by_contra misfit
  have most : shown (capacity text.length - text.length) (value d) <
      (decimal (value d)).length := by
    refine Nat.lt_of_le_of_ne ?_ (fun whole => misfit ((shown_eq_iff _ _).1 whole))
    have some_char := decimal_length_pos (value d)
    rw [shown]
    split
    · exact some_char
    · exact Nat.min_le_right _ _
  exact holds.cut stored most (decimal_printable _) shows

/-- What the loop needs of the step that stores the separator `gap`: with `unasked` it
stores without asking for room. -/
structure Separates (gap : List UInt8) (unasked : Bool)
    (separate : Buffer → Nat → Option (Buffer × Nat)) : Prop where
  stored : ∀ {buf pos out next}, separate buf pos = some (out, next) →
    next = pos + gap.length ∧ Stored gap gap.length pos buf out
  runs : ∀ {buf pos}, Level pos buf → (unasked = true → pos + gap.length ≤ buf.length) →
    ∃ out, separate buf pos = some (out, pos + gap.length) ∧ Level (pos + gap.length) out
  needs : ∀ {buf pos out next}, Level pos buf → separate buf pos = some (out, next) →
    Level next out ∧ (unasked = true → pos + gap.length ≤ buf.length)

omit prints in
theorem writeAll_stored {values : List UInt8}
    (wrote : writeAll values buf pos = some out) : Stored values values.length pos buf out := by
  have cells := read_writeAll wrote
  refine ⟨le_of_eq (writeAll_length wrote).symm, fun j before => ?_, fun k inside => ?_,
    fun j after => .inl ?_⟩
  · rw [cells, if_neg (by omega)]
  · rw [cells, if_pos (by omega), Nat.add_sub_cancel_left]
  · rw [cells, if_neg (by omega)]

omit prints in
theorem Level.ahead {next : Nat} (level : Level pos buf)
    (length : out.length = buf.length) (ahead : pos ≤ next) (inside : next ≤ buf.length) :
    Level next out := by
  rcases level.power with ⟨k, power, low, high⟩
  have monotone : Nat.clog 2 (pos + 40) ≤ Nat.clog 2 (next + 40) :=
    Nat.clog_mono_right 2 (by omega)
  exact ⟨⟨k, length.trans power, low, by omega⟩, by omega⟩

omit prints in
theorem comma_separates : Separates [','.toUInt8, ' '.toUInt8] true comma := by
  have split {buf : Buffer} {pos : Nat} {out : Buffer} {next : Nat}
      (ran : comma buf pos = some (out, next)) :
      next = pos + 2 ∧ writeAll [','.toUInt8, ' '.toUInt8] buf pos = some out := by
    simp only [comma, bind_eq_bind, bind_eq_some_iff, Option.some.injEq, Prod.mk.injEq] at ran
    rcases ran with ⟨_, wrote, rfl, rfl⟩
    exact ⟨rfl, wrote⟩
  constructor
  · intro buf pos out next ran
    exact ⟨(split ran).1, writeAll_stored (split ran).2⟩
  · intro buf pos level space
    have bound : pos + 2 ≤ buf.length := space rfl
    rcases writeAll_fits [','.toUInt8, ' '.toUInt8] buf pos bound with ⟨out, wrote⟩
    refine ⟨out, ?_, level.ahead (writeAll_length wrote) (le_self_add) bound⟩
    rw [comma, wrote]
    rfl
  · intro buf pos out next level ran
    have bound := writeAll_within (split ran).2 (cons_ne_nil _ _)
    rw [(split ran).1]
    exact ⟨level.ahead (writeAll_length (split ran).2) (le_self_add) bound,
      fun _ => bound⟩

omit prints in
theorem Level.separator (level : Level pos buf) (sep : List UInt8) :
    Level (pos + sep.length) (grow (sep.length + 1) buf pos) := by
  rcases level.power with ⟨k, power, low, high⟩
  have length := growBy_length (sep.length + 1) (pos + (sep.length + 1)) k buf pos power
    level.inside (by omega)
  have fits := Nat.le_pow_clog Nat.one_lt_two (pos + (sep.length + 1))
  have grown : 2 ^ Nat.clog 2 (pos + (sep.length + 1)) ≤
      (grow (sep.length + 1) buf pos).length := by
    rw [grow, length]
    exact Nat.pow_le_pow_right Nat.two_pos (le_max_right _ _)
  have kept : Nat.clog 2 (pos + 40) ≤ Nat.clog 2 (pos + sep.length + 40) :=
    Nat.clog_mono_right 2 (by omega)
  have asked : Nat.clog 2 (pos + (sep.length + 1)) ≤ Nat.clog 2 (pos + sep.length + 40) :=
    Nat.clog_mono_right 2 (by omega)
  exact ⟨⟨_, length, by omega, by omega⟩, by omega⟩

omit prints in
theorem separator_separates (sep : List UInt8) : Separates sep false (separator sep) := by
  have split {buf : Buffer} {pos : Nat} {out : Buffer} {next : Nat}
      (ran : separator sep buf pos = some (out, next)) :
      next = pos + sep.length ∧ writeAll sep (grow (sep.length + 1) buf pos) pos = some out := by
    simp only [separator, bind_eq_bind, bind_eq_some_iff, Option.some.injEq, Prod.mk.injEq] at ran
    rcases ran with ⟨_, wrote, rfl, rfl⟩
    exact ⟨rfl, wrote⟩
  constructor
  · intro buf pos out next ran
    exact ⟨(split ran).1, (writeAll_stored (split ran).2).of_grow⟩
  · intro buf pos level _
    have next := level.separator sep
    rcases writeAll_fits sep (grow (sep.length + 1) buf pos) pos next.inside with ⟨out, wrote⟩
    refine ⟨out, ?_, next.ahead (writeAll_length wrote) (le_rfl) next.inside⟩
    simp only [separator, wrote, bind_eq_bind, bind_some]
  · intro buf pos out next level ran
    have grown := level.separator sep
    rw [(split ran).1]
    exact ⟨grown.ahead (writeAll_length (split ran).2) (le_rfl) grown.inside,
      fun absurd => by cases absurd⟩

def spread (gap : List UInt8) : List Int → List UInt8
  | [] => []
  | value :: rest => gap ++ decimal value ++ spread gap rest

variable {gap : List UInt8} {unasked : Bool} {separate : Buffer → Nat → Option (Buffer × Nat)}

omit prints in
theorem appendAll_first (d : Elem) (rest : List Elem) (buf : Buffer) (pos : Nat) :
    appendAll FMT_FN separate 0 (d :: rest) buf pos = (element FMT_FN d buf pos).bind fun out =>
        appendAll FMT_FN separate 1 rest out.1 (pos + out.2) := rfl

omit prints in
theorem appendAll_next (i : Nat) (d : Elem) (rest : List Elem) (buf : Buffer) (pos : Nat) :
    appendAll FMT_FN separate (i + 1) (d :: rest) buf pos = (separate buf pos).bind fun gapped =>
        (element FMT_FN d gapped.1 gapped.2).bind fun out =>
          appendAll FMT_FN separate (i + 2) rest out.1 (gapped.2 + out.2) := by
  rw [appendAll, if_pos (Nat.succ_pos i)]
  rfl

variable {last i : Nat}

variable (separates : Separates gap unasked separate)
include separates

variable (rest : List Elem)

theorem appendAll_keeps (nonempty : 0 < buf.length)
    (ran : appendAll FMT_FN separate (i + 1) rest buf pos = some (out, last)) :
    ∀ j < pos, read out j = read buf j := by
  induction rest generalizing i buf pos with
  | nil =>
    simp only [appendAll, Option.some.injEq, Prod.mk.injEq] at ran
    rw [ran.1]
    exact fun j _ => rfl
  | cons d rest ih =>
    rw [appendAll_next, bind_eq_some_iff] at ran
    rcases ran with ⟨⟨gapped, next⟩, first, ran⟩
    rw [bind_eq_some_iff] at ran
    rcases ran with ⟨⟨stored, chars⟩, second, ran⟩
    have ⟨moved, gapped_stored⟩ := separates.stored first
    have gapped_nonempty := lt_of_lt_of_le nonempty gapped_stored.grows
    have ⟨_, _, text_stored⟩ := element_stored prints gapped_nonempty second
    have kept := ih (lt_of_lt_of_le gapped_nonempty text_stored.grows) ran
    intro j before
    simp only at moved kept text_stored
    rw [kept j (by omega), text_stored.below j (by omega), gapped_stored.below j before]

/-- What the end shows, the buffer showed behind the element, which was stored whole. -/
theorem element_shown {rest : List Elem} {stored : Buffer}
    (holds : Holds text buf) (level : Level text.length buf)
    (first : element FMT_FN d buf text.length = some (stored, chars))
    (ran : appendAll FMT_FN separate (i + 1) rest stored (text.length + chars) = some (out, last))
    (shows : Shows (text ++ decimal (value d) ++ more) out) :
    Fits (capacity text.length - text.length) (value d) ∧ chars = (decimal (value d)).length ∧
      Holds (text ++ decimal (value d)) stored ∧ stored.length = capacity text.length ∧
      Level (text ++ decimal (value d)).length stored := by
  have ⟨count, _, text_stored⟩ := element_stored prints level.nonempty first
  have stored_nonempty := lt_of_lt_of_le level.nonempty text_stored.grows
  rw [count, ← length_append] at ran
  have kept := appendAll_keeps prints separates rest stored_nonempty ran
  have fits := element_needs prints holds level first (shows.below kept)
  rcases element_runs prints d holds level fits with
    ⟨stored', again, stored_holds, length, _, stored_level⟩
  obtain rfl : stored' = stored := by
    rw [again] at first
    exact (Prod.mk.inj (Option.some.inj first)).1
  exact ⟨fits, count, stored_holds, length, stored_level⟩

theorem rest_runs
    (holds : Holds text buf) (level : Level text.length buf) (inside : text.length < buf.length)
    (space : unasked = true → rest.map value ≠ [] → text.length + gap.length ≤ buf.length)
    (roomy : Roomy gap.length unasked (text.length + gap.length) (rest.map value)) :
    ∃ out, appendAll FMT_FN separate (i + 1) rest buf text.length =
        some (out, (text ++ spread gap (rest.map value)).length) ∧
      Holds (text ++ spread gap (rest.map value)) out ∧
      (text ++ spread gap (rest.map value)).length < out.length := by
  induction rest generalizing i text buf with
  | nil => exact ⟨buf, by simp [appendAll, spread], by simpa [spread] using holds,
      by simpa [spread] using inside⟩
  | cons d rest ih =>
    rw [map_cons, Roomy] at roomy
    rcases roomy with ⟨fits, ahead, roomy⟩
    rcases separates.runs level (fun asked => space asked (cons_ne_nil _ _)) with
      ⟨gapped, first, gapped_level⟩
    have gapped_holds := holds.stored (separates.stored first).2
    rw [← length_append] at first gapped_level fits ahead roomy
    rcases element_runs prints d gapped_holds gapped_level fits with
      ⟨stored, second, stored_holds, length, short, stored_level⟩
    rw [← length_append] at ahead roomy
    rcases ih (i := i + 1) stored_holds stored_level short (by rw [length]; exact ahead) roomy with
      ⟨out, ran, done, last⟩
    have joined : text ++ spread gap ((d :: rest).map value) =
        text ++ gap ++ decimal (value d) ++ spread gap (rest.map value) := by
      simp [spread]
    rw [joined]
    refine ⟨out, ?_, done, last⟩
    simp only [appendAll_next, first, bind_some, second, ← length_append]
    exact ran

theorem rest_needs (holds : Holds text buf) (level : Level text.length buf)
    (ran : appendAll FMT_FN separate (i + 1) rest buf text.length = some (out, last))
    (shows : Shows (text ++ spread gap (rest.map value)) out) :
    (unasked = true → rest.map value ≠ [] → text.length + gap.length ≤ buf.length) ∧
      Roomy gap.length unasked (text.length + gap.length) (rest.map value) := by
  induction rest generalizing i text buf with
  | nil => exact ⟨fun _ absurd => absurd rfl |>.elim, trivial⟩
  | cons d rest ih =>
    rw [appendAll_next, bind_eq_some_iff] at ran
    rcases ran with ⟨⟨gapped, next⟩, first, ran⟩
    rw [bind_eq_some_iff] at ran
    rcases ran with ⟨⟨stored, chars⟩, second, ran⟩
    have joined : text ++ spread gap ((d :: rest).map value) =
        text ++ gap ++ decimal (value d) ++ spread gap (rest.map value) := by
      simp [spread]
    rw [joined] at shows
    have ⟨moved, gapped_stored⟩ := separates.stored first
    have ⟨gapped_level, space⟩ := separates.needs level first
    have gapped_holds := holds.stored gapped_stored
    rw [← length_append] at moved
    simp only [moved] at ran second gapped_level
    have ⟨fits, count, stored_holds, length, stored_level⟩ :=
      element_shown prints separates gapped_holds gapped_level second ran shows
    simp only [count, ← length_append] at ran
    have ⟨ahead, roomy⟩ := ih stored_holds stored_level ran shows
    rw [length] at ahead
    rw [length_append, length_append] at ahead roomy
    rw [length_append] at fits
    exact ⟨fun asked _ => space asked, fits, ahead, roomy⟩

theorem all_run (d : Elem) (rest : List Elem)
    (holds : Holds text buf) (level : Level text.length buf)
    (roomy : Roomy gap.length unasked text.length ((d :: rest).map value)) :
    ∃ out, appendAll FMT_FN separate 0 (d :: rest) buf text.length =
        some (out, (text ++ (decimal (value d) ++ spread gap (rest.map value))).length) ∧
      Shows (text ++ (decimal (value d) ++ spread gap (rest.map value))) out ∧
      (text ++ (decimal (value d) ++ spread gap (rest.map value))).length < out.length := by
  rw [map_cons, Roomy] at roomy
  rcases roomy with ⟨fits, ahead, roomy⟩
  rcases element_runs prints d holds level fits with
    ⟨stored, first, stored_holds, length, short, next⟩
  rw [← length_append] at ahead roomy
  rw [← length] at ahead
  rcases rest_runs prints separates rest (i := 0) stored_holds next short ahead roomy with
    ⟨out, ran, done, last⟩
  rw [append_assoc] at ran done last
  refine ⟨out, ?_, done.shows, last⟩
  simp only [appendAll_first, first, bind_some, ← length_append]
  exact ran

theorem all_need (d : Elem) (rest : List Elem)
    (holds : Holds text buf) (level : Level text.length buf)
    (ran : appendAll FMT_FN separate 0 (d :: rest) buf text.length = some (out, last))
    (shows : Shows (text ++ (decimal (value d) ++ spread gap (rest.map value))) out) :
    Roomy gap.length unasked text.length ((d :: rest).map value) := by
  rw [appendAll_first, bind_eq_some_iff] at ran
  rcases ran with ⟨⟨stored, chars⟩, first, ran⟩
  rw [← append_assoc] at shows
  have ⟨fits, count, stored_holds, length, stored_level⟩ :=
    element_shown prints separates holds level first ran shows
  simp only [count, ← length_append] at ran
  have ⟨ahead, roomy⟩ := rest_needs prints separates rest stored_holds stored_level ran shows
  rw [length, length_append] at ahead
  rw [length_append] at roomy
  exact ⟨fits, ahead, roomy⟩

end Runs

section Results

def joined (sep : List UInt8) (values : List Int) : List UInt8 :=
  List.intercalate sep (values.map decimal)

def bracketed (values : List Int) : List UInt8 :=
  '['.toUInt8 :: joined [','.toUInt8, ' '.toUInt8] values ++ [']'.toUInt8]

theorem joined_cons (sep : List UInt8) (value : Int) (rest : List Int) :
    joined sep (value :: rest) = decimal value ++ spread sep rest := by
  induction rest generalizing value with
  | nil => simp [joined, spread]
  | cons next rest ih =>
    have step : joined sep (value :: next :: rest) =
        decimal value ++ (sep ++ joined sep (next :: rest)) := by
      simp [joined, List.intercalate]
    rw [step, ih, spread, append_assoc]

variable {buf : Buffer}

theorem take_eq_iff {text : List UInt8} (inside : text.length ≤ buf.length) :
    buf.take text.length = text.map some ↔ Shows text buf := by
  constructor
  · intro same j below
    have cell := congrArg (·[j]?) same
    simp only [getElem?_take_of_lt below, getElem?_map] at cell
    rw [Cells.read, cell, getElem?_eq_getElem below]
    rfl
  · intro shows
    apply ext_getElem
    · rw [length_take, length_map]
      omega
    · intro j _ right
      rw [length_map] at right
      have cell := shows j right
      rw [Cells.read, getElem?_eq_getElem (by omega), getElem?_eq_getElem right] at cell
      rw [getElem_take, getElem_map]
      exact cell

variable {pos : Nat}

variable (served : Bool)

theorem finish_eq (inside : pos ≤ buf.length) :
    finish served buf pos = some ⟨buf.take pos, served⟩ := by
  rw [finish]
  cases served with
  | false => rfl
  | true =>
    have copied : copy (List.replicate pos none) buf pos = some (buf.take pos) := by
      rw [copy, if_pos ⟨inside, by rw [length_replicate]⟩, drop_of_length_le
        (by rw [length_replicate]), append_nil]
    have length : (buf.take pos).length = pos := by rw [length_take]; omega
    rw [if_pos rfl, copied, map_some, length, take_of_length_le (by omega)]
    simp

theorem fresh_read (size j : Nat) : read (resize ([] : Buffer) size) j = none := by
  rw [read_resize _ _ (Nat.zero_le _), Cells.read, getElem?_nil]
  rfl

theorem fresh_level (length : buf.length = 64) (inside : pos ≤ 64) : Level pos buf :=
  ⟨⟨6, length, le_rfl, le_max_left _ _⟩, by omega⟩

variable {Elem : Type} {FMT_FN : Elem → Buffer → Nat → Nat → Option (Buffer × Nat)}
  {value : Elem → Int}

/-- What `toString` does behind the loop. -/
def close (served : Bool) (out : Buffer) (last : Nat) : Option Made := do
  let buf := if out.length ≤ last + 1 then resize out (last + 2) else out
  let buf ← write buf last ']'.toUInt8
  let buf ← write buf (last + 1) 0
  finish served buf (last + 1)

variable (out : Buffer) (last : Nat)

theorem close_eq :
    ∃ buf, close served out last = some ⟨buf.take (last + 1), served⟩ ∧
      last + 1 < buf.length ∧ read buf last = some ']'.toUInt8 ∧
      ∀ j < last, read buf j = read out j := by
  have grown : ∃ wide : Buffer, (if out.length ≤ last + 1 then resize out (last + 2) else out) =
      wide ∧ last + 1 < wide.length ∧ ∀ j, read wide j = read out j := by
    split
    · exact ⟨_, rfl, by rw [length_resize]; omega, read_resize out _ (by omega)⟩
    · exact ⟨out, rfl, by omega, fun _ => rfl⟩
  rcases grown with ⟨wide, same, room, kept⟩
  have bracket : write wide last ']'.toUInt8 = some (wide.set last (some ']'.toUInt8)) :=
    if_pos (by omega)
  have terminator : write (wide.set last (some ']'.toUInt8)) (last + 1) 0 =
      some ((wide.set last (some ']'.toUInt8)).set (last + 1) (some 0)) :=
    if_pos (by rw [length_set]; exact room)
  refine ⟨(wide.set last (some ']'.toUInt8)).set (last + 1) (some 0), ?_, ?_, ?_, ?_⟩
  · rw [close, same]
    simp only [bracket, terminator, bind_eq_bind, bind_some]
    exact finish_eq served (by rw [length_set, length_set]; omega)
  · rw [length_set, length_set]
    exact room
  · rw [read_write terminator, if_neg (by omega), read_write bracket, if_pos rfl]
  · intro j before
    rw [read_write terminator, if_neg (by omega), read_write bracket, if_neg (by omega), kept]

variable (text : List UInt8)

theorem close_text :
    (close served out last).map Made.text = some ((text ++ [']'.toUInt8]).map some) ↔
      last = text.length ∧ Shows text out := by
  rcases close_eq served out last with ⟨buf, closing, room, bracket, kept⟩
  rw [closing, map_some, Option.some.injEq]
  constructor
  · intro same
    have count := congrArg List.length same
    rw [length_map, length_append, length_singleton, length_take,
      Nat.min_eq_left (le_of_lt room), Nat.add_right_cancel_iff] at count
    have whole : (text ++ [']'.toUInt8]).length = last + 1 := by simp [count]
    rw [← whole, take_eq_iff (by omega)] at same
    exact ⟨count, Shows.below same (fun j before => kept j (count ▸ before))⟩
  · rintro ⟨count, shows⟩
    have whole : (text ++ [']'.toUInt8]).length = last + 1 := by simp [count]
    rw [← whole, take_eq_iff (by omega)]
    intro j inside
    by_cases before : j < last
    · rw [kept j before, shows j (count ▸ before), getElem?_append_left (count ▸ before)]
    · have here : j = last := by omega
      rw [here, bracket, getElem?_append_right (by omega), count, Nat.sub_self]
      rfl

theorem terminate_text :
    ((write out last 0).bind fun buf => finish served buf last).map Made.text =
        some (text.map some) ↔ last = text.length ∧ last < out.length ∧ Shows text out := by
  by_cases inside : last < out.length
  · have terminator : write out last 0 = some (out.set last (some 0)) := if_pos inside
    have kept : ∀ j < last, read (out.set last (some 0)) j = read out j := by
      intro j before
      rw [read_write terminator, if_neg (by omega)]
    have length : (out.set last (some 0)).length = out.length := length_set
    rw [terminator, bind_some, finish_eq served (by omega), map_some, Option.some.injEq]
    constructor
    · intro same
      have count := congrArg List.length same
      rw [length_map, length_take, Nat.min_eq_left (by omega)] at count
      subst count
      rw [take_eq_iff (by omega)] at same
      refine ⟨rfl, inside, fun j before => ?_⟩
      rw [← kept j before]
      exact same j before
    · rintro ⟨count, _, shows⟩
      subst count
      rw [take_eq_iff (by omega)]
      intro j before
      rw [kept j before]
      exact shows j before
  · have fault : write out last 0 = none := if_neg inside
    rw [fault]
    constructor
    · intro none
      cases none
    · intro both
      exact absurd both.2.1 inside

theorem opened : ∃ buf : Buffer, write (resize [] 64) 0 '['.toUInt8 = some buf ∧
    Holds ['['.toUInt8] buf ∧ Level 1 buf := by
  have stored : write (resize ([] : Buffer) 64) 0 '['.toUInt8 =
      some ((resize [] 64).set 0 (some '['.toUInt8)) := rfl
  refine ⟨_, stored, ⟨fun j inside => ?_, fun j outside => .inl ?_⟩,
    fresh_level rfl (by decide)⟩
  · have first : j = 0 := by simpa using inside
    rw [first, read_write stored, if_pos rfl]
    rfl
  · rw [length_singleton] at outside
    rw [read_write stored, if_neg (by omega), fresh_read]

theorem toString_cons {start : Buffer} (first : write (resize [] 64) 0 '['.toUInt8 = some start)
    (served : Bool) (d : Elem) (rest : List Elem) :
    toString_128 FMT_FN served (d :: rest) =
      (appendAll FMT_FN comma 0 (d :: rest) start 1).bind fun out =>
        close served out.1 out.2 := by
  rw [toString_128, if_neg (cons_ne_nil _ _)]
  simp only [first, bind_eq_bind, bind_some]
  rfl

theorem join_cons (d : Elem) (rest : List Elem) (sep : List UInt8) :
    join_128 FMT_FN served (d :: rest) sep =
      (appendAll FMT_FN (separator sep) 0 (d :: rest) (resize [] 64) 0).bind fun out =>
        (write out.1 out.2 0).bind fun buf => finish served buf out.2 := by
  rw [join_128, if_neg (cons_ne_nil _ _)]
  rfl

theorem toString_128_iff (prints : ∀ d, Prints (FMT_FN d) (value d)) (served : Bool)
    (v : List Elem) : (toString_128 FMT_FN served v).map Made.text =
        some ((bracketed (v.map value)).map some) ↔ Roomy 2 true 1 (v.map value) := by
  cases v with
  | nil => exact ⟨fun _ => trivial, fun _ => rfl⟩
  | cons d rest =>
    rcases opened with ⟨start, first, holds, level⟩
    have text : bracketed ((d :: rest).map value) =
        (['['.toUInt8] ++ (decimal (value d) ++
          spread [','.toUInt8, ' '.toUInt8] (rest.map value))) ++ [']'.toUInt8] := by
      rw [bracketed, map_cons, joined_cons]
      rfl
    rw [toString_cons first, text]
    constructor
    · intro whole
      rw [Option.map_bind, bind_eq_some_iff] at whole
      rcases whole with ⟨⟨out, last⟩, ran, closed⟩
      have ⟨_, shows⟩ := (close_text served out last _).1 closed
      have needed := all_need prints comma_separates d rest holds level ran shows
      exact needed
    · intro roomy
      rcases all_run prints comma_separates d rest holds level roomy with
        ⟨out, ran, shows, _⟩
      rw [length_singleton] at ran
      rw [ran, bind_some]
      exact (close_text served out _ _).2 ⟨rfl, shows⟩

theorem join_128_iff (prints : ∀ d, Prints (FMT_FN d) (value d)) (served : Bool)
    (v : List Elem) (sep : List UInt8) : (join_128 FMT_FN served v sep).map Made.text =
        some ((joined sep (v.map value)).map some) ↔ Roomy sep.length false 0 (v.map value) := by
  cases v with
  | nil => exact ⟨fun _ => trivial, fun _ => rfl⟩
  | cons d rest =>
    have holds : Holds [] (resize ([] : Buffer) 64) :=
      ⟨fun j absurd => (Nat.not_lt_zero j absurd).elim, fun j _ => .inl (fresh_read 64 j)⟩
    have level : Level 0 (resize ([] : Buffer) 64) := fresh_level rfl (Nat.zero_le _)
    rw [join_cons, map_cons, joined_cons]
    constructor
    · intro whole
      rw [Option.map_bind, bind_eq_some_iff] at whole
      rcases whole with ⟨⟨out, last⟩, ran, ended⟩
      have ⟨_, _, shows⟩ := (terminate_text served out last _).1 ended
      rw [← nil_append (decimal (value d) ++ _)] at shows
      have needed := all_need prints (separator_separates sep) d rest holds level ran shows
      exact needed
    · intro roomy
      rcases all_run prints (separator_separates sep) d rest holds level roomy with
        ⟨out, ran, shows, inside⟩
      rw [length_nil, nil_append] at ran
      rw [ran, bind_some]
      exact (terminate_text served out _ _).2 ⟨rfl, inside, shows⟩

theorem terminator_overruns {served : Bool} {v : List Elem} {sep : List UInt8} {made : Made}
    (some_elem : v ≠ [])
    (ran : toString_128 FMT_FN served v = some made ∨ join_128 FMT_FN served v sep = some made) :
    made.overrun = served := by
  cases v with
  | nil => exact absurd rfl some_elem
  | cons d rest =>
    rcases ran with ran | ran
    · rcases opened with ⟨start, first, _, _⟩
      rw [toString_cons first, bind_eq_some_iff] at ran
      rcases ran with ⟨⟨out, last⟩, _, closed⟩
      rcases close_eq served out last with ⟨buf, closing, _⟩
      rw [closing] at closed
      rw [← Option.some.inj closed]
    · rw [join_cons, bind_eq_some_iff] at ran
      rcases ran with ⟨⟨out, last⟩, _, ended⟩
      rw [bind_eq_some_iff] at ended
      rcases ended with ⟨buf, terminator, copied⟩
      have inside := (write_some terminator).1
      rw [finish_eq served (by rw [write_length terminator]; exact le_of_lt inside)] at copied
      rw [← Option.some.inj copied]

end Results

inductive Kind where
  | i128 | u128 | iinf
deriving DecidableEq

def Kind.Elem : Kind → Type
  | .i128 | .u128 => BitVec 128
  | .iinf => Int256

def Kind.value : (kind : Kind) → kind.Elem → Int
  | .i128 => value_i128
  | .u128 => value_u128
  | .iinf => value_iinf

def Kind.toString : (kind : Kind) → Bool → List kind.Elem → Option Made
  | .i128 => lucis_vec_toString_i128
  | .u128 => lucis_vec_toString_u128
  | .iinf => lucis_vec_toString_iinf

def Kind.join : (kind : Kind) → Bool → List kind.Elem → List UInt8 → Option Made
  | .i128 => lucis_vec_join_i128
  | .u128 => lucis_vec_join_u128
  | .iinf => lucis_vec_join_iinf

/-- A vector is rendered exactly, without a store outside the buffer, just when every text
fits behind the position it begins at. -/
theorem rendered_iff_roomy (kind : Kind) (served : Bool) (v : List kind.Elem) (sep : List UInt8) :
    ((kind.toString served v).map Made.text =
        some ((bracketed (v.map kind.value)).map some) ↔
      Roomy 2 true 1 (v.map kind.value)) ∧
    ((kind.join served v sep).map Made.text =
        some ((joined sep (v.map kind.value)).map some) ↔
      Roomy sep.length false 0 (v.map kind.value)) := by
  cases kind with
  | i128 => exact ⟨toString_128_iff i128_to_buf_prints served v,
      join_128_iff i128_to_buf_prints served v sep⟩
  | u128 => exact ⟨toString_128_iff u128_to_buf_prints served v,
      join_128_iff u128_to_buf_prints served v sep⟩
  | iinf => exact ⟨toString_128_iff iinf_to_buf_prints served v,
      join_128_iff iinf_to_buf_prints served v sep⟩

/-- The second element needs 40 characters and finds 40 bytes: its last digit is lost. -/
theorem last_digit_lost : ¬ ∀ (kind : Kind) (served : Bool) (v : List kind.Elem),
    (kind.toString served v).map Made.text =
      some ((bracketed (v.map kind.value)).map some) := by
  intro all
  have one := all .i128 true [BitVec.ofNat 128 (10 ^ 20), -BitVec.ofNat 128 (10 ^ 38)]
  revert one
  decide +kernel

end Lucis.VecText
