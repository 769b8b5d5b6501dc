import Lucis.Library.LexicalPath
import Lucis.Library.Numerals
import Lucis.SubstringSearch
import Lucis.VecText

/-!
Integers as text: itoaRadix and toBinary of conv/conv.c, commas and fmtBin of fmt/fmt.c, and
parseIntRadix of string/string.c. The four writers fill a buffer of fixed size from its end;
a store in front of the buffer is a fault (`none`). What lucis_allocString refuses makes
them return NULL.
-/

namespace Lucis.IntegerText

open Memory List Option
open SubstringSearch
open Numerals

section Model

/-- A buffer on the stack whose last bytes are written; `p` and `pos` point to the first of
them. -/
structure BackBlock where
  size : Nat
  written : List UInt8
  within : written.length ≤ size

/-- `*(--p) = byte` -/
def BackBlock.put (buf : BackBlock) (byte : UInt8) : Option BackBlock :=
  if room : buf.written.length < buf.size then some ⟨buf.size, byte :: buf.written, room⟩
  else none

/-- `char buf[size]` with a terminator in its last byte. -/
def terminated (size : Nat) : Option BackBlock :=
  BackBlock.put ⟨size, [], Nat.zero_le _⟩ 0

/-- `lucis_conv_str_result` and `lucis_fmt_str_result`; the pointer may be NULL. -/
structure TextResult where
  ptr : Option (List UInt8)
  len : Nat

/-- `make_result` of conv.c, with a terminator behind the text. -/
def convResult (heap : Nat → Bool) (buf : List UInt8) (len : Nat) : Option TextResult :=
  match malloc heap (sizeT (len + 1)) with
  | none => some ⟨none, 0⟩
  | some out => do
      let out ← out.putAll (← slice buf 0 len)
      let res ← finish len out
      some ⟨some res.written, len⟩

/-- `make_result` of fmt.c, without one. -/
def fmtResult (heap : Nat → Bool) (src : List UInt8) (len : Nat) : Option TextResult :=
  if len = 0 then some ⟨some [], 0⟩
  else
    match malloc heap len with
    | none => some ⟨none, 0⟩
    | some buf => do
        let buf ← buf.putAll (← slice src 0 len)
        some ⟨some buf.written, len⟩

/-- `"0123456789abcdefghijklmnopqrstuvwxyz"` -/
def digits : List UInt8 :=
  [48, 49, 50, 51, 52, 53, 54, 55, 56, 57, 97, 98, 99, 100, 101, 102, 103, 104, 105, 106, 107,
   108, 109, 110, 111, 112, 113, 114, 115, 116, 117, 118, 119, 120, 121, 122]

def minus : UInt8 := 45
def plus : UInt8 := 43
def zero : UInt8 := 48

def magnitude (value : Int64) : UInt64 :=
  if value < 0 then (-(value + 1)).toUInt64 + 1 else value.toUInt64

/-- `if (negative) *(--p) = '-'` -/
def putSign (value : Int64) (buf : BackBlock) : Option BackBlock :=
  if value < 0 then buf.put minus else some buf

/-- `while (uval > 0)`; 64 turns are enough in every base. -/
def radixLoop (radix : Nat) : Nat → Nat → BackBlock → Option BackBlock
  | 0, uval, p => if 0 < uval then none else some p
  | turns + 1, uval, p =>
    if 0 < uval then do
      let digit ← load digits (uval % radix)
      (p.put digit).bind (radixLoop radix turns (uval / radix))
    else some p

def lucisItoaRadix (heap : Nat → Bool) (value : Int64) (radix : UInt32) : Option TextResult :=
  if radix < 2 ∨ 36 < radix then convResult heap [zero] 1
  else do
    let uval := (magnitude value).toNat
    let p ← terminated 66
    let p ← (if uval = 0 then p.put zero else radixLoop radix.toNat 64 uval p)
    let p ← putSign value p
    convResult heap p.written (p.written.length - 1)

def binaryLoop : Nat → Nat → BackBlock → Option BackBlock
  | 0, v, p => if 0 < v then none else some p
  | turns + 1, v, p =>
    if 0 < v then
      (p.put (if v &&& 1 ≠ 0 then 49 else 48)).bind (binaryLoop turns (v >>> 1))
    else some p

def lucisToBinary (heap : Nat → Bool) (value : UInt64) : Option TextResult :=
  if value = 0 then convResult heap [zero] 1
  else do
    let p ← terminated 65
    let p ← binaryLoop 64 value.toNat p
    convResult heap p.written (p.written.length - 1)

def lucisFmtBin (heap : Nat → Bool) (val : UInt64) : Option TextResult :=
  if val = 0 then fmtResult heap [48, 98, 48] 3
  else do
    let tmp ← terminated 67
    let tmp ← binaryLoop 64 val.toNat tmp
    let tmp ← tmp.put 98
    let tmp ← tmp.put zero
    fmtResult heap tmp.written (tmp.written.length - 1)

def comma : UInt8 := 44

def commasLoop : Nat → Nat → Nat → BackBlock → Option BackBlock
  | 0, uval, _, tmp => if 0 < uval then none else some tmp
  | turns + 1, uval, digits, tmp =>
    if 0 < uval then do
      let tmp ← (if 0 < digits ∧ digits % 3 = 0 then tmp.put comma else some tmp)
      let tmp ← tmp.put (VecText.digit (uval % 10))
      commasLoop turns (uval / 10) (digits + 1) tmp
    else some tmp

def lucisCommas (heap : Nat → Bool) (val : Int64) : Option TextResult := do
  let uval := (magnitude val).toNat
  let tmp ← terminated 32
  let tmp ← (if uval = 0 then tmp.put zero else commasLoop 64 uval 0 tmp)
  let tmp ← putSign val tmp
  fmtResult heap tmp.written (tmp.written.length - 1)

end Model

section Parsing

def isSpace (c : UInt8) : Bool := c == 32 || (9 ≤ c && c ≤ 13)

def digitValue (c : UInt8) : Nat :=
  if 48 ≤ c ∧ c ≤ 57 then c.toNat - 48
  else if 97 ≤ c ∧ c ≤ 122 then c.toNat - 97 + 10
  else if 65 ≤ c ∧ c ≤ 90 then c.toNat - 65 + 10
  else 36

/-- Base 0 is told by the first characters, and `0x` before a hexadecimal digit is skipped. -/
def splitBase (s : List UInt8) (base : Nat) : List UInt8 × Nat :=
  match s with
  | 48 :: x :: d :: rest =>
    if (x = 120 ∨ x = 88) ∧ digitValue d < 16 ∧ (base = 0 ∨ base = 16) then (d :: rest, 16)
    else (s, if base = 0 then 8 else base)
  | 48 :: _ => (s, if base = 0 then 8 else base)
  | _ => (s, if base = 0 then 10 else base)

def splitSign : List UInt8 → Bool × List UInt8
  | 45 :: rest => (true, rest)
  | 43 :: rest => (false, rest)
  | s => (false, s)

def saturate (value : Int) : Int := max (-2 ^ 63) (min value (2 ^ 63 - 1))

/-- `strtoll(s, NULL, base)` as its specification has it; 0 for a base there is not. -/
def strtoll (s : List UInt8) (base : Int) : Int :=
  if base < 0 ∨ base = 1 ∨ 36 < base then 0
  else
    let (negative, s) := splitSign (s.dropWhile isSpace)
    let (s, base) := splitBase s base.toNat
    let value : Int := numeral base ((s.takeWhile fun c => digitValue c < base).map digitValue)
    saturate (if negative then -value else value)

def lucisParseIntRadix (heap : Nat → Bool) (s : List UInt8) (radix : UInt32) : Option Int := do
  let tmp ← copyOf heap s 0 s.length
  some (strtoll ((tmp.written ++ [0]).takeWhile (· ≠ 0)) radix.toInt32.toInt)

end Parsing

section Buffers
variable {heap : Nat → Bool} {buf : BackBlock}

/-- `out` is `before` with `bytes` written in front of what it held. -/
structure Filled (before : BackBlock) (bytes : List UInt8) (out : BackBlock) : Prop where
  size_eq : out.size = before.size
  written_eq : out.written = bytes ++ before.written

theorem put_filled (byte : UInt8) (room : buf.written.length < buf.size) :
    ∃ next, buf.put byte = some next ∧ Filled buf [byte] next :=
  ⟨_, dif_pos room, rfl, rfl⟩

theorem Filled.trans {middle out : BackBlock} {front back : List UInt8}
    (first : Filled buf back middle) (second : Filled middle front out) :
    Filled buf (front ++ back) out where
  size_eq := second.size_eq.trans first.size_eq
  written_eq := by rw [second.written_eq, first.written_eq, append_assoc]

theorem Filled.length_eq {bytes : List UInt8} {out : BackBlock} (filled : Filled buf bytes out) :
    out.written.length = bytes.length + buf.written.length := by
  rw [filled.written_eq, length_append]

theorem terminated_filled {size : Nat} (pos : 0 < size) :
    ∃ buf, terminated size = some buf ∧ buf.size = size ∧ buf.written = [0] :=
  ⟨_, dif_pos pos, rfl, rfl⟩

/-- What a request for `size` bytes makes of a text. -/
def made (heap : Nat → Bool) (size : Nat) (text : List UInt8) : TextResult :=
  if heap size then ⟨some text, text.length⟩ else ⟨none, 0⟩

theorem slice_front (text rest : List UInt8) : slice (text ++ rest) 0 text.length = some text := by
  rw [slice, if_pos (by rw [length_append]; omega), drop_zero, take_left]

variable (heap : Nat → Bool)

theorem convResult_eq (text rest : List UInt8) (small : text.length + 1 < 2 ^ 64) :
    convResult heap (text ++ rest) text.length = some (made heap (text.length + 1) text) := by
  obtain ⟨out, stored, size_eq, written_eq⟩ := fresh_fits text (text.length + 1) (Nat.le_succ _)
  have kept : out.written.set text.length 0 = text := by
    rw [written_eq, set_eq_of_length_le (le_rfl)]
  rw [convResult, sizeT_of_lt small, malloc, made]
  split
  · next refused =>
      split at refused
      · cases refused
      · next unserved => rw [if_neg unserved]
  · next served =>
      split at served
      · next request =>
          cases served
          simp only [slice_front, stored, finish, size_eq, kept, bind_eq_bind,
            bind_some, if_pos (lt_add_one _), if_pos request]
      · cases served

theorem fmtResult_eq (text rest : List UInt8) (some : text ≠ []) :
    fmtResult heap (text ++ rest) text.length = .some (made heap text.length text) := by
  obtain ⟨out, stored, _, written_eq⟩ := fresh_fits text text.length (le_rfl)
  rw [fmtResult, if_neg (mt length_eq_zero_iff.1 some), malloc, made]
  split
  · next refused =>
      split at refused
      · cases refused
      · next unserved => rw [if_neg unserved]
  · next served =>
      split at served
      · next request =>
          cases served
          simp only [slice_front, stored, written_eq, bind_eq_bind, bind_some, if_pos request]
      · cases served

end Buffers

section Digits

def digitChar (d : Nat) : UInt8 := digits.getD d 0

theorem digit_spec {d : Nat} (small : d < 36) :
    load digits d = some (digitChar d) ∧ digitValue (digitChar d) = d ∧
      isSpace (digitChar d) = false ∧ digitChar d ≠ minus ∧ digitChar d ≠ plus ∧
      digitChar d ≠ 0 := by
  have all : ∀ d < 36, load digits d = some (digitChar d) ∧ digitValue (digitChar d) = d ∧
      isSpace (digitChar d) = false ∧ digitChar d ≠ minus ∧ digitChar d ≠ plus ∧
      digitChar d ≠ 0 := by decide
  exact all d small

theorem digitChar_decimal {d : Nat} (small : d < 10) : digitChar d = VecText.digit d := by
  have all : ∀ d < 10, digitChar d = VecText.digit d := by decide
  exact all d small

def spelled (base n : Nat) : List UInt8 := ((Nat.digits base n).map digitChar).reverse

theorem spelled_zero (base : Nat) (p : BackBlock) : Filled p (spelled base 0) p where
  size_eq := rfl
  written_eq := by rw [spelled, Nat.digits_zero]; rfl

theorem spelled_step {base n : Nat} (large : 1 < base) (pos : 0 < n) :
    spelled base n = spelled base (n / base) ++ [digitChar (n % base)] := by
  rw [spelled, Nat.digits_def' large pos, map_cons, reverse_cons, spelled]

theorem spelled_length {base n count : Nat} (large : 1 < base) (small : n < base ^ count) :
    (spelled base n).length ≤ count := by
  rw [spelled, length_reverse, length_map]
  exact (Nat.digits_length_le_iff large n).2 small

theorem radixLoop_writes {radix : Nat} (large : 1 < radix) (bound : radix ≤ 36) (turns v : Nat)
    (p : BackBlock) (enough : v < radix ^ turns)
    (room : (spelled radix v).length + p.written.length ≤ p.size) :
    ∃ next, radixLoop radix turns v p = some next ∧ Filled p (spelled radix v) next := by
  induction turns generalizing v p with
  | zero =>
    have none : v = 0 := by simpa using enough
    subst none
    exact ⟨p, rfl, spelled_zero radix p⟩
  | succ turns ih =>
    rw [radixLoop]
    by_cases pos : 0 < v
    · have below := Nat.mod_lt v (lt_trans Nat.one_pos large)
      have step := spelled_step large pos
      have lengths := congrArg List.length step
      rw [length_append, length_singleton] at lengths
      obtain ⟨middle, stored, filled⟩ :=
        @put_filled p (digitChar (v % radix)) (by omega)
      have more := filled.length_eq
      rw [length_singleton] at more
      obtain ⟨next, ran, filled'⟩ := ih (v / radix) middle
        (Nat.div_lt_of_lt_mul (by rwa [Nat.pow_succ'] at enough))
        (by rw [filled.size_eq]; omega)
      refine ⟨next, ?_, ?_⟩
      · rw [if_pos pos, (digit_spec (lt_of_lt_of_le below bound)).1]
        simp only [bind_eq_bind, bind_some, stored, ran]
      · rw [step]
        exact filled.trans filled'
    · have none : v = 0 := by omega
      subst none
      exact ⟨p, if_neg pos, spelled_zero radix p⟩

theorem binaryLoop_eq (turns v : Nat) (p : BackBlock) :
    binaryLoop turns v p = radixLoop 2 turns v p := by
  induction turns generalizing v p with
  | zero => rfl
  | succ turns ih =>
    have digit : load digits (v % 2) = some (if v &&& 1 ≠ 0 then 49 else 48) := by
      rw [Nat.and_one_is_mod]
      rcases Nat.mod_two_eq_zero_or_one v with even | odd
      · rw [even]; rfl
      · rw [odd]; rfl
    have half : v >>> 1 = v / 2 := Nat.shiftRight_one v
    rw [binaryLoop, radixLoop, digit, half]
    simp only [bind_eq_bind, bind_some]
    congr 2
    funext next
    exact ih _ _

end Digits

section Radix

variable (value : Int64)

theorem negative_iff : value < 0 ↔ value.toInt < 0 := Int64.lt_iff_toInt_lt

theorem magnitude_eq : (magnitude value).toNat = value.toInt.natAbs := by
  have bound := value.toBitVec.isLt
  have signed := BitVec.toInt_eq_toNat_cond value.toBitVec
  have whole : value.toInt = value.toBitVec.toInt := rfl
  rw [magnitude]
  by_cases negative : value < 0
  · have negated : ((-(value + 1)).toUInt64 + 1).toBitVec = -value.toBitVec := by
      rw [UInt64.toBitVec_add, Int64.toBitVec_toUInt64, Int64.toBitVec_neg, Int64.toBitVec_add]
      have one : UInt64.toBitVec 1 = 1#64 := rfl
      have one' : Int64.toBitVec 1 = 1#64 := rfl
      rw [one, one']
      rw [BitVec.neg_add, BitVec.sub_add_cancel]
    have below := (negative_iff value).1 negative
    rw [if_pos negative, ← UInt64.toNat_toBitVec, negated, BitVec.toNat_neg, whole]
    rw [whole] at below
    split at signed <;> omega
  · have above := mt (negative_iff value).2 negative
    have same : value.toUInt64.toNat = value.toBitVec.toNat := rfl
    rw [if_neg negative, same, whole]
    rw [whole] at above
    split at signed <;> omega

def signText (value : Int64) : List UInt8 := if value < 0 then [minus] else []

theorem signText_length : (signText value).length ≤ 1 := by
  rw [signText]
  split <;> simp

theorem putSign_filled {value : Int64} {buf : BackBlock} (room : buf.written.length < buf.size) :
    ∃ next, putSign value buf = some next ∧ Filled buf (signText value) next := by
  rw [putSign, signText]
  split
  · exact put_filled minus room
  · exact ⟨buf, rfl, rfl, rfl⟩

def numberText (base n : Nat) : List UInt8 := if n = 0 then [zero] else spelled base n

theorem numberText_writes {base : Nat} (large : 1 < base) (n : Nat) :
    ∃ ds, Writes base ds n ∧ numberText base n = ds.map digitChar := by
  rw [numberText]
  by_cases none : n = 0
  · subst none
    exact ⟨[0], writes_zero (lt_trans Nat.one_pos large), if_pos rfl⟩
  · refine ⟨_, writes_digits large none, ?_⟩
    rw [if_neg none, spelled, map_reverse]

theorem numberText_length {base n count : Nat} (large : 1 < base) (small : n < base ^ count)
    (pos : 0 < count) : (numberText base n).length ≤ count := by
  rw [numberText]
  split
  · exact pos
  · exact spelled_length large small

theorem number_filled {radix n : Nat} {p : BackBlock} (large : 1 < radix) (bound : radix ≤ 36)
    (enough : n < radix ^ 64) (room : 64 + p.written.length ≤ p.size) :
    ∃ next, (if n = 0 then p.put zero else radixLoop radix 64 n p) = some next ∧
      Filled p (numberText radix n) next := by
  rw [numberText]
  by_cases none : n = 0
  · rw [if_pos none, if_pos none]
    exact put_filled zero (by omega)
  · have short := spelled_length large enough
    rw [if_neg none, if_neg none]
    exact radixLoop_writes large bound 64 n p enough (by omega)

theorem abs_small : value.toInt.natAbs < 2 ^ 64 := by
  rw [← magnitude_eq]
  exact (magnitude value).toNat_lt

theorem lucisItoaRadix_eq (heap : Nat → Bool) (value : Int64) {radix : UInt32} (low : 2 ≤ radix)
    (high : radix ≤ 36) : lucisItoaRadix heap value radix =
      some (made heap ((signText value ++ numberText radix.toNat value.toInt.natAbs).length + 1)
        (signText value ++ numberText radix.toNat value.toInt.natAbs)) := by
  have large : 1 < radix.toNat := UInt32.le_iff_toNat_le.1 low
  have bound : radix.toNat ≤ 36 := UInt32.le_iff_toNat_le.1 high
  have inside : ¬(radix < 2 ∨ 36 < radix) := by
    rw [UInt32.lt_iff_toNat_lt, UInt32.lt_iff_toNat_lt]
    have two : UInt32.toNat 2 = 2 := rfl
    have most : UInt32.toNat 36 = 36 := rfl
    omega
  have enough : value.toInt.natAbs < radix.toNat ^ 64 :=
    lt_of_lt_of_le (abs_small value) (Nat.pow_le_pow_left large 64)
  have short := numberText_length large enough (by decide)
  obtain ⟨p, ended, size_eq, written_eq⟩ := @terminated_filled 66 (by decide)
  have held : p.written.length = 1 := by rw [written_eq]; rfl
  obtain ⟨middle, wrote, number⟩ := @number_filled _ _ p large bound enough (by omega)
  have count := number.length_eq
  obtain ⟨next, signed, sign⟩ := @putSign_filled value middle (by rw [number.size_eq]; omega)
  have whole := number.trans sign
  rw [lucisItoaRadix, if_neg inside, magnitude_eq, ended]
  simp only [bind_eq_bind, bind_some, wrote, signed]
  rw [whole.written_eq, written_eq, length_append, length_singleton, Nat.add_sub_cancel,
    convResult_eq]
  have sign_length := signText_length value
  rw [length_append]
  omega

end Radix

section Reading

theorem takeWhile_all {p} {s : List UInt8} (all : ∀ c ∈ s, p c = true)
    (rest : List UInt8) (stops : rest.takeWhile p = []) : (s ++ rest).takeWhile p = s := by
  induction s with
  | nil => exact stops
  | cons c s ih =>
    rw [cons_append, takeWhile_cons_of_pos (all c mem_cons_self),
      ih fun c member => all c (.tail _ member)]

variable {base : Nat}

theorem splitBase_other {c : UInt8} (other : c ≠ 48) (rest : List UInt8)
    (pos : 0 < base) : splitBase (c :: rest) base = (c :: rest, base) := by
  rw [splitBase, if_neg (Nat.pos_iff_ne_zero.1 pos)]
  · intro x d rest' same
    exact other (List.cons.inj same).1
  · intro rest' same
    exact other (List.cons.inj same).1

variable {ds : List Nat} {n : Nat}

/-- A text with no zero in front has no `0x` to skip. -/
theorem splitBase_text (pos : 0 < base) (bound : base ≤ 36)
    (writes : Writes base ds n) : splitBase (ds.map digitChar) base = (ds.map digitChar, base) := by
  rcases writes.leading with single | ⟨d, rest, rfl, nonzero⟩
  · rw [single]
    show ([digitChar 0], if base = 0 then 8 else base) = ([digitChar 0], base)
    rw [if_neg (Nat.pos_iff_ne_zero.1 pos)]
  · have below := lt_of_lt_of_le (writes.valid d (.head _)) bound
    have other : digitChar d ≠ 48 := by
      intro same
      have value := (digit_spec below).2.1
      rw [same] at value
      exact nonzero value.symm
    rw [map_cons, splitBase_other other _ pos]

theorem splitSign_other {c : UInt8} (no_minus : c ≠ minus) (no_plus : c ≠ plus)
    (rest : List UInt8) : splitSign (c :: rest) = (false, c :: rest) := by
  rw [splitSign]
  · intro rest' same
    exact no_minus (List.cons.inj same).1
  · intro rest' same
    exact no_plus (List.cons.inj same).1

theorem writes_some (writes : Writes base ds n) : ∃ d rest, ds = d :: rest := by
  rcases writes.leading with single | ⟨d, rest, split, _⟩
  · exact ⟨0, [], single⟩
  · exact ⟨d, rest, split⟩

theorem signed_text (bound : base ≤ 36) (value : Int64) (writes : Writes base ds n) :
    splitSign ((signText value ++ ds.map digitChar).dropWhile isSpace) =
      (decide (value < 0), ds.map digitChar) := by
  rw [signText]
  by_cases negative : value < 0
  · rw [if_pos negative, singleton_append, dropWhile_cons_of_neg (by decide),
      decide_eq_true negative]
    rfl
  · obtain ⟨d, rest, rfl⟩ := writes_some writes
    have below := lt_of_lt_of_le (writes.valid d (.head _)) bound
    obtain ⟨_, _, no_space, no_minus, no_plus, _⟩ := digit_spec below
    rw [if_neg negative, nil_append, map_cons,
      dropWhile_cons_of_neg (by rw [no_space]; nofun), splitSign_other no_minus no_plus,
      decide_eq_false negative]

theorem read_digits (bound : base ≤ 36) (writes : Writes base ds n) :
    numeral base (((ds.map digitChar).takeWhile fun c => digitValue c < base).map digitValue) =
      n := by
  have back : ∀ d ∈ ds, digitValue (digitChar d) = d := fun d member =>
    (digit_spec (lt_of_lt_of_le (writes.valid d member) bound)).2.1
  have all : ∀ c ∈ ds.map digitChar, decide (digitValue c < base) = true := by
    intro c member
    obtain ⟨d, inside, rfl⟩ := List.mem_map.1 member
    rw [back d inside]
    exact decide_eq_true (writes.valid d inside)
  have taken := takeWhile_all all [] rfl
  rw [append_nil] at taken
  have same : ds.map (digitValue ∘ digitChar) = ds.map id := map_congr_left back
  rw [taken, List.map_map, same, List.map_id, writes.value]

/-- `strtoll` reads back what the writer wrote. -/
theorem strtoll_text (value : Int64) (large : 2 ≤ base)
    (bound : base ≤ 36) (writes : Writes base ds value.toInt.natAbs) :
    strtoll (signText value ++ ds.map digitChar) base = value.toInt := by
  have valid : ¬((base : Int) < 0 ∨ (base : Int) = 1 ∨ 36 < (base : Int)) := by omega
  have least := value.le_toInt
  have most := value.toInt_lt
  rw [strtoll, if_neg valid, signed_text bound value writes]
  dsimp only
  rw [Int.toNat_natCast, splitBase_text (by omega) bound writes]
  dsimp only
  rw [read_digits bound writes]
  by_cases negative : value < 0
  · have below := (negative_iff value).1 negative
    rw [decide_eq_true negative, if_pos rfl, saturate]
    omega
  · have above := mt (negative_iff value).2 negative
    rw [decide_eq_false negative, if_neg (by simp), saturate]
    omega

end Reading

section Commas

def grouped : Nat → List UInt8 → List UInt8
  | _, [] => []
  | k, c :: cs => (if 0 < k ∧ k % 3 = 0 then [comma, c] else [c]) ++ grouped (k + 1) cs

theorem grouped_shift {k : Nat} (pos : 0 < k) (cs : List UInt8) :
    grouped (k + 3) cs = grouped k cs := by
  induction cs generalizing k with
  | nil => rfl
  | cons c cs ih =>
    have again : 0 < k + 3 ∧ (k + 3) % 3 = 0 ↔ 0 < k ∧ k % 3 = 0 := by omega
    rw [grouped, grouped, if_congr again rfl rfl, ← ih (Nat.succ_pos k)]

variable {cs : List UInt8}

theorem grouped_three (more : cs ≠ []) : grouped 3 cs = comma :: grouped 0 cs := by
  cases cs with
  | nil => exact absurd rfl more
  | cons c cs =>
    have shifted : grouped 4 cs = grouped 1 cs := grouped_shift Nat.one_pos cs
    rw [grouped, grouped, if_pos (by decide), if_neg (by decide), shifted]
    rfl

theorem grouped_cons (a b c : UInt8) (cs : List UInt8) :
    grouped 0 (a :: b :: c :: cs) = a :: b :: c :: if cs = [] then [] else comma :: grouped 0 cs := by
  by_cases none : cs = []
  · rw [if_pos none, none]
    rfl
  · rw [if_neg none, ← grouped_three none]
    rfl

theorem threes_induction {P : List UInt8 → Prop} (nil : P []) (one : ∀ a, P [a])
    (two : ∀ a b, P [a, b]) (more : ∀ a b c cs, P cs → P (a :: b :: c :: cs))
    (cs : List UInt8) : P cs := by
  induction counted : cs.length using Nat.strongRecOn generalizing cs with
  | ind count ih =>
    match cs with
    | [] => exact nil
    | [a] => exact one a
    | [a, b] => exact two a b
    | a :: b :: c :: cs =>
      exact more a b c cs (ih cs.length (by rw [← counted]; simp; omega) cs rfl)

theorem grouped_length (cs : List UInt8) : 3 * (grouped 0 cs).length ≤ 4 * cs.length := by
  induction cs using threes_induction with
  | nil => exact le_rfl
  | one a => exact Nat.le_of_ble_eq_true rfl
  | two a b => exact Nat.le_of_ble_eq_true rfl
  | more a b c cs ih =>
    rw [grouped_cons]
    split
    · simp
      omega
    · simp only [length_cons]
      omega

theorem grouped_filter (plain : ∀ c ∈ cs, c ≠ comma) (k : Nat) :
    (grouped k cs).filter (· ≠ comma) = cs := by
  induction cs generalizing k with
  | nil => rfl
  | cons c cs ih =>
    have other := plain c (.head _)
    rw [grouped, filter_append, ih (fun c member => plain c (mem_cons_of_mem _ member))]
    split
    · simp [other]
    · simp [other]

structure Groups (first : List UInt8) (rest : List (List UInt8)) : Prop where
  some : 1 ≤ first.length
  few : first.length ≤ 3
  three : ∀ group ∈ rest, group.length = 3

theorem grouped_groups (some : cs ≠ []) :
    ∃ first rest, (grouped 0 cs).reverse = [comma].intercalate (first :: rest) ∧
      Groups first rest ∧ (first :: rest).flatten = cs.reverse := by
  induction cs using threes_induction with
  | nil => exact absurd rfl some
  | one a =>
    refine ⟨[a], [], ?_, ⟨by simp, by simp, by simp⟩, by simp⟩
    rw [intercalate_singleton]
    rfl
  | two a b =>
    refine ⟨[b, a], [], ?_, ⟨by simp, by simp, by simp⟩, by simp⟩
    rw [intercalate_singleton]
    rfl
  | more a b c cs ih =>
    rw [grouped_cons]
    by_cases none : cs = []
    · refine ⟨[c, b, a], [], ?_, ⟨by simp, by simp, by simp⟩, by simp [none]⟩
      rw [if_pos none, intercalate_singleton]
      rfl
    · obtain ⟨first, rest, joined, groups, whole⟩ := ih none
      refine ⟨first, rest ++ [[c, b, a]], ?_, ⟨groups.some, groups.few, ?_⟩, ?_⟩
      · have cut := @LexicalPath.intercalate_append _ comma (first :: rest) [[c, b, a]]
          (cons_ne_nil _ _) (cons_ne_nil _ _)
        rw [cons_append] at cut
        rw [cut, intercalate_singleton, ← joined, if_neg none]
        simp
      · intro group member
        rcases mem_append.1 member with before | last
        · exact groups.three group before
        · rw [mem_singleton.1 last]
          rfl
      · rw [← cons_append, flatten_append, whole]
        simp

def low (n : Nat) : List UInt8 := (Nat.digits 10 n).map digitChar

theorem commasLoop_writes (turns v k : Nat) (tmp : BackBlock) (enough : v < 10 ^ turns)
    (room : (grouped k (low v)).length + tmp.written.length ≤ tmp.size) :
    ∃ next, commasLoop turns v k tmp = some next ∧ Filled tmp (grouped k (low v)).reverse next := by
  induction turns generalizing v k tmp with
  | zero =>
    have none : v = 0 := by simpa using enough
    subst none
    exact ⟨tmp, rfl, rfl, rfl⟩
  | succ turns ih =>
    by_cases pos : 0 < v
    · have below := Nat.mod_lt v (Nat.succ_pos 9)
      have step : low v = digitChar (v % 10) :: low (v / 10) := by
        rw [low, Nat.digits_def' (by decide) pos, map_cons, low]
      rw [step, grouped, length_append] at room
      rw [step, grouped, reverse_append]
      have separated : ∃ middle,
          (if 0 < k ∧ k % 3 = 0 then tmp.put comma else some tmp) = some middle ∧
            Filled tmp (if 0 < k ∧ k % 3 = 0 then [comma] else []) middle := by
        split
        · next group =>
            rw [if_pos group, length_cons, length_singleton] at room
            exact put_filled comma (by omega)
        · exact ⟨tmp, rfl, rfl, rfl⟩
      obtain ⟨first, put, filled⟩ := separated
      have count := filled.length_eq
      obtain ⟨second, put', filled'⟩ :=
        @put_filled first (digitChar (v % 10)) (by
          rw [filled.size_eq]
          split at room <;> split at count <;> simp at room count <;> omega)
      have both := filled.trans filled'
      have front : [digitChar (v % 10)] ++ (if 0 < k ∧ k % 3 = 0 then [comma] else []) =
          (if 0 < k ∧ k % 3 = 0 then [comma, digitChar (v % 10)]
            else [digitChar (v % 10)]).reverse := by
        split <;> rfl
      rw [front] at both
      have count' := both.length_eq
      rw [length_reverse] at count'
      obtain ⟨next, ran, filled''⟩ := ih (v / 10) (k + 1) second
        (Nat.div_lt_of_lt_mul (by rwa [Nat.pow_succ'] at enough))
        (by rw [both.size_eq]; omega)
      refine ⟨next, ?_, both.trans filled''⟩
      rw [commasLoop, if_pos pos, ← digitChar_decimal below]
      simp only [bind_eq_bind, put, bind_some, put', ran]
    · have none : v = 0 := by omega
      subst none
      exact ⟨tmp, by rw [commasLoop, if_neg pos], rfl, rfl⟩

theorem decimal_eq (value : Int64) :
    VecText.decimal value.toInt = signText value ++ numberText 10 value.toInt.natAbs := by
  have number (n : Nat) : VecText.decimalNat n = numberText 10 n := by
    rw [VecText.decimalNat, numberText, spelled]
    split
    · rfl
    · congr 1
      apply map_congr_left
      intro d member
      exact (digitChar_decimal (Nat.digits_lt_base (by decide) member)).symm
  rw [VecText.decimal, signText, number]
  by_cases negative : value < 0
  · rw [if_pos negative, if_pos ((negative_iff value).1 negative)]
    rfl
  · rw [if_neg negative, if_neg (mt (negative_iff value).2 negative), nil_append]

/-- A digit has the bytes of `0` to `9`. -/
def IsDigit (c : UInt8) : Prop := 48 ≤ c ∧ c ≤ 57

theorem low_digit {n : Nat} {c : UInt8} (member : c ∈ low n) : IsDigit c ∧ c ≠ comma := by
  obtain ⟨d, inside, rfl⟩ := List.mem_map.1 member
  have all : ∀ d < 10, (48 ≤ digitChar d ∧ digitChar d ≤ 57) ∧ digitChar d ≠ comma := by decide
  exact all d (Nat.digits_lt_base (by decide) inside)

def commaText (n : Nat) : List UInt8 := if n = 0 then [zero] else (grouped 0 (low n)).reverse

variable (n : Nat)

theorem commaText_groups :
    ∃ first rest, commaText n = [comma].intercalate (first :: rest) ∧ Groups first rest ∧
      ∀ group ∈ first :: rest, ∀ c ∈ group, IsDigit c := by
  rw [commaText]
  by_cases none : n = 0
  · refine ⟨[zero], [], ?_, ⟨by simp, by simp, by simp⟩, ?_⟩
    · rw [if_pos none, intercalate_singleton]
    · intro group member c inside
      rw [mem_singleton.1 member] at inside
      rw [mem_singleton.1 inside]
      exact ⟨by decide, by decide⟩
  · have some : low n ≠ [] := by
      rw [low]
      exact mt map_eq_nil_iff.1 (Nat.digits_ne_nil_iff_ne_zero.2 none)
    obtain ⟨first, rest, joined, groups, whole⟩ := grouped_groups some
    refine ⟨first, rest, by rw [if_neg none, joined], groups, fun group member c inside => ?_⟩
    have here : c ∈ (low n).reverse := whole ▸ mem_flatten_of_mem member inside
    exact (low_digit (mem_reverse.1 here)).1

theorem commaText_filter : (commaText n).filter (· ≠ comma) = numberText 10 n := by
  rw [commaText, numberText]
  split
  · rfl
  · rw [filter_reverse, grouped_filter (fun c member => (low_digit member).2), spelled, low]

theorem commaText_some : commaText n ≠ [] := by
  intro nothing
  have digits := commaText_filter n
  rw [nothing] at digits
  obtain ⟨ds, writes, text⟩ := numberText_writes (show 1 < 10 by decide) n
  obtain ⟨d, rest, rfl⟩ := writes_some writes
  rw [text] at digits
  cases digits

theorem commaText_length {n : Nat} (small : n < 10 ^ 19) : (commaText n).length ≤ 25 := by
  rw [commaText]
  split
  · decide
  · have digits : (low n).length ≤ 19 := by
      rw [low, length_map]
      exact (Nat.digits_length_le_iff (by decide) n).2 small
    have groups := grouped_length (low n)
    rw [length_reverse]
    omega

theorem lucisCommas_eq (heap : Nat → Bool) (val : Int64) : lucisCommas heap val =
      some (made heap (signText val ++ commaText val.toInt.natAbs).length
        (signText val ++ commaText val.toInt.natAbs)) := by
  have least := val.le_toInt
  have most := val.toInt_lt
  have short : (commaText val.toInt.natAbs).length ≤ 25 := commaText_length (by omega)
  obtain ⟨tmp, ended, size_eq, written_eq⟩ := @terminated_filled 32 (by decide)
  have held : tmp.written.length = 1 := by rw [written_eq]; rfl
  have number : ∃ middle, (if val.toInt.natAbs = 0 then tmp.put zero
      else commasLoop 64 val.toInt.natAbs 0 tmp) = some middle ∧
        Filled tmp (commaText val.toInt.natAbs) middle := by
    rw [commaText] at short ⊢
    by_cases none : val.toInt.natAbs = 0
    · rw [if_pos none, if_pos none]
      exact put_filled zero (by omega)
    · rw [if_neg none, length_reverse] at short
      rw [if_neg none, if_neg none]
      exact commasLoop_writes 64 _ 0 tmp (by omega) (by omega)
  obtain ⟨middle, wrote, number⟩ := number
  have count := number.length_eq
  obtain ⟨next, signed, sign⟩ := @putSign_filled val middle (by rw [number.size_eq]; omega)
  have whole := number.trans sign
  have some : signText val ++ commaText val.toInt.natAbs ≠ [] := by
    intro nothing
    exact commaText_some _ (append_eq_nil_iff.1 nothing).2
  rw [lucisCommas, magnitude_eq, ended]
  simp only [bind_eq_bind, bind_some, wrote, signed]
  rw [whole.written_eq, written_eq, length_append, length_singleton, Nat.add_sub_cancel,
    fmtResult_eq heap _ _ some]

end Commas

section Binary

theorem binary_filled {n size : Nat} (pos : 0 < n) (small : n < 2 ^ 64) {p : BackBlock}
    (size_eq : p.size = size) (held : p.written.length = 1) (room : 65 ≤ size) :
    ∃ next, binaryLoop 64 n p = some next ∧ Filled p (numberText 2 n) next := by
  have short := spelled_length (show 1 < 2 by decide) small
  rw [binaryLoop_eq, numberText, if_neg (by omega)]
  exact radixLoop_writes (by decide) (by decide) 64 n p small (by omega)

variable (heap : Nat → Bool)

theorem lucisToBinary_eq (value : UInt64) :
    lucisToBinary heap value = some (made heap ((numberText 2 value.toNat).length + 1)
      (numberText 2 value.toNat)) := by
  have small : value.toNat < 2 ^ 64 := value.toNat_lt
  have short := numberText_length (show 1 < 2 by decide) small (by decide)
  rw [lucisToBinary]
  by_cases none : value = 0
  · subst none
    exact convResult_eq heap [zero] [] (by decide)
  · have pos : 0 < value.toNat := Nat.pos_of_ne_zero fun same => none (UInt64.toNat_inj.1 same)
    obtain ⟨p, ended, size_eq, written_eq⟩ := @terminated_filled 65 (by decide)
    obtain ⟨next, ran, filled⟩ :=
      binary_filled pos small size_eq (by rw [written_eq]; rfl) (le_refl 65)
    rw [if_neg none, ended]
    simp only [bind_eq_bind, bind_some, ran]
    rw [filled.written_eq, written_eq, length_append, length_singleton,
      Nat.add_sub_cancel, convResult_eq heap _ _ (by omega)]

theorem lucisFmtBin_eq (val : UInt64) :
    lucisFmtBin heap val = some (made heap ([48, 98] ++ numberText 2 val.toNat).length
      ([48, 98] ++ numberText 2 val.toNat)) := by
  have small : val.toNat < 2 ^ 64 := val.toNat_lt
  have short := numberText_length (show 1 < 2 by decide) small (by decide)
  rw [lucisFmtBin]
  by_cases none : val = 0
  · subst none
    exact fmtResult_eq heap [48, 98, 48] [] (by decide)
  · have pos : 0 < val.toNat := Nat.pos_of_ne_zero fun same => none (UInt64.toNat_inj.1 same)
    obtain ⟨tmp, ended, size_eq, written_eq⟩ := @terminated_filled 67 (by decide)
    have held : tmp.written.length = 1 := by rw [written_eq]; rfl
    obtain ⟨first, ran, filled⟩ := binary_filled pos small size_eq held (by decide)
    have count := filled.length_eq
    obtain ⟨second, put, filled'⟩ := @put_filled first 98 (by rw [filled.size_eq]; omega)
    have both := filled.trans filled'
    have count' := both.length_eq
    rw [length_append, length_singleton] at count'
    obtain ⟨third, put', filled''⟩ := @put_filled second zero (by rw [both.size_eq]; omega)
    have whole := both.trans filled''
    have text : [zero] ++ ([98] ++ numberText 2 val.toNat) = [48, 98] ++ numberText 2 val.toNat :=
      rfl
    rw [if_neg none, ended]
    simp only [bind_eq_bind, bind_some, ran, put, put']
    rw [whole.written_eq, written_eq, text, length_append, length_singleton,
      Nat.add_sub_cancel, fmtResult_eq heap _ _ (by simp)]

end Binary

section Laws

/-- itoaRadix writes the value's digits behind its sign, and parseIntRadix reads them back. -/
def RadixExact (heap : Nat → Bool) (value : Int64) (radix : UInt32) : Prop :=
  ∃ ds, Writes radix.toNat ds value.toInt.natAbs ∧
    lucisItoaRadix heap value radix =
      some (made heap ((signText value ++ ds.map digitChar).length + 1)
        (signText value ++ ds.map digitChar)) ∧
    (heap ((signText value ++ ds.map digitChar).length + 1) = true →
      lucisParseIntRadix heap (signText value ++ ds.map digitChar) radix = some value.toInt)

/-- commas writes groups of digits behind the sign, and without the commas they are the decimal
text. -/
def CommasExact (heap : Nat → Bool) (val : Int64) : Prop :=
  ∃ first rest text, text = signText val ++ [comma].intercalate (first :: rest) ∧
    lucisCommas heap val = some (made heap text.length text) ∧
    text.filter (· ≠ comma) = VecText.decimal val.toInt ∧ Groups first rest ∧
    ∀ group ∈ first :: rest, ∀ c ∈ group, IsDigit c

/-- Both writers of binary digits write those of the value, fmtBin behind `0b`. -/
def BinaryExact (heap : Nat → Bool) (value : UInt64) : Prop :=
  ∃ ds, Writes 2 ds value.toNat ∧
    lucisToBinary heap value = some (made heap ((ds.map digitChar).length + 1) (ds.map digitChar)) ∧
    lucisFmtBin heap value =
      some (made heap ([48, 98] ++ ds.map digitChar).length ([48, 98] ++ ds.map digitChar))

theorem parse_text {heap : Nat → Bool} {radix : UInt32} {ds : List Nat} (value : Int64)
    (low : 2 ≤ radix) (high : radix ≤ 36) (writes : Writes radix.toNat ds value.toInt.natAbs)
    (short : (signText value ++ ds.map digitChar).length < 2 ^ 63)
    (served : heap ((signText value ++ ds.map digitChar).length + 1) = true) :
    lucisParseIntRadix heap (signText value ++ ds.map digitChar) radix = some value.toInt := by
  have large : 1 < radix.toNat := UInt32.le_iff_toNat_le.1 low
  have bound : radix.toNat ≤ 36 := UInt32.le_iff_toNat_le.1 high
  have base : radix.toInt32.toInt = radix.toNat := by
    have whole : radix.toInt32.toInt = radix.toBitVec.toInt := rfl
    have same : radix.toBitVec.toNat = radix.toNat := rfl
    rw [whole, BitVec.toInt_eq_toNat_cond, same, if_pos (by omega)]
  have plain : ∀ c ∈ signText value ++ ds.map digitChar, decide (c ≠ 0) = true := by
    intro c member
    rcases mem_append.1 member with sign | digit
    · rw [signText] at sign
      split at sign
      · rw [mem_singleton.1 sign]
        decide
      · cases sign
    · obtain ⟨d, inside, rfl⟩ := List.mem_map.1 digit
      have below := lt_of_lt_of_le (writes.valid d inside) bound
      exact decide_eq_true (digit_spec below).2.2.2.2.2
  have copied := copyOf_eq heap (le_of_eq (zero_add
    (signText value ++ ds.map digitChar).length)) short
  rw [drop_zero, take_length, storeText_fits (by omega) served] at copied
  rw [lucisParseIntRadix, copied]
  simp only [bind_eq_bind, bind_some]
  rw [takeWhile_all plain [0] rfl, base, strtoll_text value large bound writes]

/-- Integers become text and come back, inside the buffers, for every value and radix. -/
theorem integers_exact (heap : Nat → Bool) (value : Int64) (number : UInt64) (radix : UInt32)
    (low : 2 ≤ radix) (high : radix ≤ 36) :
    RadixExact heap value radix ∧ CommasExact heap value ∧ BinaryExact heap number := by
  have large : 1 < radix.toNat := UInt32.le_iff_toNat_le.mp low
  refine ⟨?_, ?_, ?_⟩
  · obtain ⟨ds, writes, text⟩ := numberText_writes large value.toInt.natAbs
    have short := @numberText_length _ _ 64 large
      (Nat.lt_of_lt_of_le (abs_small value) (Nat.pow_le_pow_left large 64)) (by decide)
    have sign := signText_length value
    have written := lucisItoaRadix_eq heap value low high
    rw [text] at written short
    exact ⟨ds, writes, written, parse_text value low high writes (by
      rw [length_append]
      omega)⟩
  · obtain ⟨first, rest, joined, groups, digits⟩ := commaText_groups value.toInt.natAbs
    have sign : (signText value).filter (· ≠ comma) = signText value := by
      rw [signText]
      split <;> rfl
    refine ⟨first, rest, signText value ++ commaText value.toInt.natAbs, by rw [joined],
      lucisCommas_eq heap value, ?_, groups, digits⟩
    rw [filter_append, sign, commaText_filter, decimal_eq]
  · obtain ⟨ds, writes, text⟩ := numberText_writes (show 1 < 2 by decide) number.toNat
    refine ⟨ds, writes, ?_, ?_⟩
    · rw [← text]
      exact lucisToBinary_eq heap number
    · rw [← text]
      exact lucisFmtBin_eq heap number

theorem integers_exact_least :
    RadixExact (fun _ => true) Int64.minValue 36 ∧ CommasExact (fun _ => true) Int64.minValue ∧
      BinaryExact (fun _ => true) 6 :=
  integers_exact (fun _ => true) Int64.minValue 6 36 (by decide) (by decide)

end Laws

end Lucis.IntegerText
