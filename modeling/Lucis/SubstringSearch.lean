import Mathlib.Algebra.Ring.Int.Defs
import Mathlib.Order.Bounds.Defs
import Lucis.Library.Occurrences
import Lucis.Memory

/-!
The substring functions of string/string.c. Each is written with its own loop, as the
source has them; a read outside the text, a store outside a block and a store through
a pointer that malloc refused are faults (`none`). Where a loop runs by a count of
turns, the text's length is enough of them: an index past the text is either outside
the loop's bound or outside the text.
-/

namespace Lucis.SubstringSearch

open Memory List Option
open Occurrences

section Search

/-- `memcmp(s + i, sub, subLen) == 0`; all compared bytes have to lie inside `s`. -/
def memcmp (s : List UInt8) (i : Nat) (sub : List UInt8) : Option Bool :=
  if i + sub.length ≤ s.length then some ((s.drop i).take sub.length == sub) else none

/-- `i <= sLen - subLen` -/
def upToLast (s sub : List UInt8) (i : Nat) : Bool :=
  decide (i ≤ subT s.length sub.length)

/-- `i + delimLen <= sLen` -/
def fitsAt (s delim : List UInt8) (i : Nat) : Bool :=
  decide (sizeT (i + delim.length) ≤ s.length)

/-- `for (i = ..; inRange i; i++)` up to the first index that matches. -/
def scanUp (s sub : List UInt8) (inRange : Nat → Bool) : Nat → Nat → Option (Option Nat)
  | 0, i => if inRange i then none else some none
  | turns + 1, i =>
    if inRange i then do
      if ← memcmp s i sub then some (some i) else scanUp s sub inRange turns (i + 1)
    else some none

/-- `for (i = ..; ; i--)`, which ends behind index 0. -/
def scanDown (s sub : List UInt8) : Nat → Option (Option Nat)
  | 0 => do
      if ← memcmp s 0 sub then some (some 0) else some none
  | i + 1 => do
      if ← memcmp s (i + 1) sub then some (some (i + 1)) else scanDown s sub i

/-- `(int64_t)n` -/
def toInt64 (n : Nat) : Int := if n < 2 ^ 63 then n else n - 2 ^ 64

def position : Option Nat → Int
  | some i => toInt64 i
  | none => -1

def lucisContains (s sub : List UInt8) : Option Bool :=
  if sub.length = 0 then some true
  else if s.length < sub.length then some false
  else (scanUp s sub (upToLast s sub) (s.length + 1) 0).map Option.isSome

def lucisIndexOf (s sub : List UInt8) : Option Int :=
  if sub.length = 0 then some 0
  else if s.length < sub.length then some (-1)
  else (scanUp s sub (upToLast s sub) (s.length + 1) 0).map position

def lucisLastIndexOf (s sub : List UInt8) : Option Int :=
  if sub.length = 0 then some (toInt64 s.length)
  else if s.length < sub.length then some (-1)
  else (scanDown s sub (subT s.length sub.length)).map position

/-- The counting loop, which stands in `lucis_count` and again in `lucis_replace`. -/
def countLoop (s sub : List UInt8) : Nat → Nat → Nat → Option Nat
  | 0, i, count => if upToLast s sub i then none else some count
  | turns + 1, i, count =>
    if upToLast s sub i then do
      if ← memcmp s i sub then countLoop s sub turns (i + sub.length) (count + 1)
      else countLoop s sub turns (i + 1) count
    else some count

def lucisCount (s sub : List UInt8) : Option Nat :=
  if sub.length = 0 then some 0
  else if s.length < sub.length then some 0
  else countLoop s sub (s.length + 1) 0 0

end Search

section Texts

/-- `lucis_str_result`: what was stored into the block, and the length reported for it. -/
structure StrResult where
  written : List UInt8
  len : Nat
  deriving DecidableEq

def malloc (heap : Nat → Bool) (size : Nat) : Option OutBlock :=
  if heap size then some (.fresh size) else none

/-- `buf[len] = '\0'; return (lucis_str_result){ buf, len };` -/
def finish (len : Nat) (buf : OutBlock) : Option StrResult :=
  if len < buf.size then some ⟨buf.written.set len 0, len⟩ else none

/-- The bytes that `memcpy(.., s + start, len)` reads. -/
def slice (s : List UInt8) (start len : Nat) : Option (List UInt8) :=
  if start + len ≤ s.length then some ((s.drop start).take len) else none

/-- A new block with `len` bytes of `s` and a terminator. -/
def copyOf (heap : Nat → Bool) (s : List UInt8) (start len : Nat) : Option StrResult := do
  let buf ← malloc heap (sizeT (len + 1))
  let buf ← buf.putAll (← slice s start len)
  finish len buf

/-- `i <= sLen - oldLen && memcmp(s + i, old, oldLen) == 0` -/
def matchesAt (s old : List UInt8) (i : Nat) : Option Bool :=
  if upToLast s old i then memcmp s i old else some false

/-- The second pass of `lucis_replace`. -/
def replaceLoop (s old rep : List UInt8) : Nat → Nat → OutBlock → Option OutBlock
  | 0, i, buf => if i < s.length then none else some buf
  | turns + 1, i, buf =>
    if i < s.length then do
      if ← matchesAt s old i then
        (buf.putAll rep).bind (replaceLoop s old rep turns (i + old.length))
      else
        (buf.put (← load s i)).bind (replaceLoop s old rep turns (i + 1))
    else some buf

/-- `sLen + cnt * (repLen - oldLen)` -/
def replacedLen (s old rep : List UInt8) (cnt : Nat) : Nat :=
  sizeT (s.length + sizeT (cnt * subT rep.length old.length))

/-- The first pass has no guard for a pattern longer than the text, as the other
functions do. -/
def lucisReplace (heap : Nat → Bool) (s old rep : List UInt8) : Option StrResult :=
  if old.length = 0 then copyOf heap s 0 s.length
  else do
    let cnt ← countLoop s old (s.length + 1) 0 0
    if cnt = 0 then copyOf heap s 0 s.length
    else
      let newLen := replacedLen s old rep cnt
      let buf ← malloc heap (sizeT (newLen + 1))
      let buf ← replaceLoop s old rep s.length 0 buf
      finish newLen buf

end Texts

section Parts

/-- The array of `lucis_split`: its elements, its capacity and the bytes of its block. -/
structure PartArray where
  parts : List (List UInt8)
  cap : Nat
  bytes : Nat

/-- `sizeof(str_elem)` -/
def elemSize : Nat := 16

/-- malloc and realloc of the array, `cap * sizeof(str_elem)`. -/
def allocate (heap : Nat → Bool) (parts : List (List UInt8)) (cap : Nat) : Option PartArray :=
  if heap (sizeT (cap * elemSize)) then some ⟨parts, cap, sizeT (cap * elemSize)⟩ else none

/-- `if (count == cap) { cap *= 2; arr = realloc(..); }` -/
def PartArray.grow (heap : Nat → Bool) (arr : PartArray) : Option PartArray :=
  if arr.parts.length = arr.cap then allocate heap arr.parts (sizeT (arr.cap * 2))
  else some arr

def PartArray.push (heap : Nat → Bool) (arr : PartArray) (part : List UInt8) :
    Option PartArray := do
  let arr ← arr.grow heap
  if (arr.parts.length + 1) * elemSize ≤ arr.bytes then
    some { arr with parts := arr.parts ++ [part] }
  else none

def addPart (heap : Nat → Bool) (s : List UInt8) (start len : Nat) (arr : PartArray) :
    Option PartArray := do
  let part ← copyOf heap s start len
  arr.push heap part.written

def charLoop (heap : Nat → Bool) (s : List UInt8) : Nat → Nat → PartArray → Option PartArray
  | 0, i, arr => if i < s.length then none else some arr
  | turns + 1, i, arr =>
    if i < s.length then (addPart heap s i 1 arr).bind (charLoop heap s turns (i + 1))
    else some arr

def splitLoop (heap : Nat → Bool) (s delim : List UInt8) :
    Nat → Nat → PartArray → Option PartArray
  | 0, start, arr => if start ≤ s.length then none else some arr
  | turns + 1, start, arr =>
    if start ≤ s.length then do
      match ← scanUp s delim (fitsAt s delim) (s.length + 1) start with
      | some found =>
        (addPart heap s start (found - start) arr).bind
          (splitLoop heap s delim turns (found + delim.length))
      | none => addPart heap s start (s.length - start) arr
    else some arr

def lucisSplit (heap : Nat → Bool) (s delim : List UInt8) : Option PartArray := do
  let arr ← allocate heap [] 8
  if delim.length = 0 then charLoop heap s s.length 0 arr
  else splitLoop heap s delim (s.length + 1) 0 arr

def totalLoop (sep : List UInt8) : Nat → List (List UInt8) → Nat → Nat
  | _, [], total => total
  | i, part :: rest, total =>
    let added := sizeT (total + part.length)
    totalLoop sep (i + 1) rest (if 0 < i then sizeT (added + sep.length) else added)

/-- `if (i > 0 && sepLen > 0) memcpy(buf + pos, sep, sepLen)` -/
def putSeparator (sep : List UInt8) (i : Nat) (buf : OutBlock) : Option OutBlock :=
  if 0 < i ∧ 0 < sep.length then buf.putAll sep else some buf

def joinLoop (sep : List UInt8) : Nat → List (List UInt8) → OutBlock → Option OutBlock
  | _, [], buf => some buf
  | i, part :: rest, buf => do
      let buf ← putSeparator sep i buf
      let buf ← buf.putAll part
      joinLoop sep (i + 1) rest buf

def lucisJoinVec (heap : Nat → Bool) (parts : List (List UInt8)) (sep : List UInt8) :
    Option StrResult :=
  if parts.length = 0 then (malloc heap 1).bind (finish 0)
  else do
    let total := totalLoop sep 0 parts 0
    let buf ← malloc heap (sizeT (total + 1))
    let buf ← joinLoop sep 0 parts buf
    finish total buf

end Parts

section SearchFacts

variable {s sub : List UInt8} {i : Nat}

theorem memcmp_inside (inside : i + sub.length ≤ s.length) :
    memcmp s i sub = some (decide (OccursAt sub s i)) := by
  have same : ((s.drop i).take sub.length == sub) = decide (OccursAt sub s i) := by
    rw [Bool.eq_iff_iff, beq_iff_eq, decide_eq_true_iff, OccursAt, prefix_iff_eq_take]
    exact eq_comm
  rw [memcmp, if_pos inside, same]

theorem upToLast_iff (short : sub.length ≤ s.length) (i : Nat) :
    upToLast s sub i = true ↔ i + sub.length ≤ s.length := by
  rw [upToLast, decide_eq_true_iff, subT_of_le short]
  omega

theorem fitsAt_iff (text : s.length < 2 ^ 63) (pattern : sub.length < 2 ^ 63)
    (inside : i ≤ s.length) : fitsAt s sub i = true ↔ i + sub.length ≤ s.length := by
  rw [fitsAt, decide_eq_true_iff, sizeT_of_lt (by omega)]

/-- What a search upwards from `i` has to answer. -/
def FirstFrom (sub s : List UInt8) (i : Nat) : Option Nat → Prop
  | some j => i ≤ j ∧ OccursAt sub s j ∧ ∀ k, i ≤ k → k < j → ¬OccursAt sub s k
  | none => ∀ k, i ≤ k → ¬OccursAt sub s k

/-- What a search downwards from `i` has to answer. -/
def LastUpTo (sub s : List UInt8) (i : Nat) : Option Nat → Prop
  | some j => j ≤ i ∧ OccursAt sub s j ∧ ∀ k, j < k → k ≤ i → ¬OccursAt sub s k
  | none => ∀ k, k ≤ i → ¬OccursAt sub s k

variable {found : Option Nat}

theorem FirstFrom.later (absent : ¬OccursAt sub s i)
    (rest : FirstFrom sub s (i + 1) found) : FirstFrom sub s i found := by
  have split : ∀ k, i ≤ k → k = i ∨ i + 1 ≤ k := by omega
  cases found with
  | none =>
    intro k from_i
    rcases split k from_i with same | later
    · rwa [same]
    · exact rest k later
  | some j =>
    refine ⟨Nat.le_of_succ_le rest.1, rest.2.1, ?_⟩
    intro k from_i before
    rcases split k from_i with same | later
    · rwa [same]
    · exact rest.2.2 k later before

theorem LastUpTo.earlier (absent : ¬OccursAt sub s (i + 1))
    (rest : LastUpTo sub s i found) : LastUpTo sub s (i + 1) found := by
  have split : ∀ k, k ≤ i + 1 → k = i + 1 ∨ k ≤ i := by omega
  cases found with
  | none =>
    intro k upTo
    rcases split k upTo with same | earlier
    · rwa [same]
    · exact rest k earlier
  | some j =>
    refine ⟨Nat.le_succ_of_le rest.1, rest.2.1, ?_⟩
    intro k behind upTo
    rcases split k upTo with same | earlier
    · rwa [same]
    · exact rest.2.2 k behind earlier

theorem scanUp_first {inRange : Nat → Bool} (nonempty : sub ≠ [])
    (ranged : ∀ i ≤ s.length, inRange i = true ↔ i + sub.length ≤ s.length)
    (turns i : Nat) (inside : i ≤ s.length) (enough : s.length < i + turns) :
    ∃ found, scanUp s sub inRange turns i = some found ∧ FirstFrom sub s i found := by
  induction turns generalizing i with
  | zero => omega
  | succ turns ih =>
    rw [scanUp]
    by_cases fits : i + sub.length ≤ s.length
    · rw [if_pos ((ranged i inside).2 fits), memcmp_inside fits]
      by_cases here : OccursAt sub s i
      · refine ⟨some i, by simp [here], le_refl i, here, ?_⟩
        intro k from_i before
        omega
      · have positive := length_pos_iff.2 nonempty
        obtain ⟨found, scanned, first⟩ := ih (i + 1) (by omega) (by omega)
        exact ⟨found, by simp [here, scanned], first.later here⟩
    · rw [if_neg (mt (ranged i inside).1 fits)]
      refine ⟨none, rfl, ?_⟩
      intro k from_i occurs
      have := occurs.inside nonempty
      omega

theorem scanDown_last (i : Nat) (fits : i + sub.length ≤ s.length) :
    ∃ found, scanDown s sub i = some found ∧ LastUpTo sub s i found := by
  induction i with
  | zero =>
    rw [scanDown, memcmp_inside fits]
    by_cases here : OccursAt sub s 0
    · refine ⟨some 0, by simp [here], le_refl 0, here, ?_⟩
      intro k behind upTo
      omega
    · refine ⟨none, by simp [here], ?_⟩
      intro k upTo
      rwa [Nat.le_zero.1 upTo]
  | succ i ih =>
    rw [scanDown, memcmp_inside fits]
    by_cases here : OccursAt sub s (i + 1)
    · refine ⟨some (i + 1), by simp [here], le_rfl, here, ?_⟩
      intro k behind upTo
      omega
    · obtain ⟨found, scanned, last⟩ := ih (by omega)
      exact ⟨found, by simp [here, scanned], last.earlier here⟩

theorem pieces_from_none {start : Nat} (none : FirstFrom sub s start none) :
    pieces sub (s.drop start) = [s.drop start] := by
  apply pieces_of_none
  intro i occurs
  exact none (start + i) (Nat.le_add_right _ _) (OccursAt.drop_iff.mp occurs)

theorem pieces_from_some {start j : Nat} (nonempty : sub ≠ [])
    (first : FirstFrom sub s start (some j)) : pieces sub (s.drop start) =
      (s.drop start).take (j - start) :: pieces sub (s.drop (j + sub.length)) := by
  obtain ⟨behind, occurs, before⟩ := first
  have here : OccursAt sub (s.drop start) (j - start) := by
    rw [OccursAt.drop_iff, Nat.add_sub_cancel' behind]
    exact occurs
  rw [pieces_of_first nonempty here, drop_drop, ← add_assoc, Nat.add_sub_cancel' behind]
  intro i sooner earlier
  exact before (start + i) (Nat.le_add_right _ _) (by omega) (OccursAt.drop_iff.mp earlier)

theorem matchesAt_eq (nonempty : sub ≠ []) (short : sub.length ≤ s.length) (i : Nat) :
    matchesAt s sub i = some (decide (OccursAt sub s i)) := by
  rw [matchesAt]
  by_cases fits : i + sub.length ≤ s.length
  · rw [if_pos ((upToLast_iff short i).2 fits), memcmp_inside fits]
  · have absent : ¬OccursAt sub s i := fun occurs => fits (occurs.inside nonempty)
    rw [if_neg (mt (upToLast_iff short i).1 fits), decide_eq_false absent]

theorem countLoop_counts (nonempty : sub ≠ []) (short : sub.length ≤ s.length)
    (turns i count : Nat) (inside : i ≤ s.length) (enough : s.length < i + turns) :
    countLoop s sub turns i count = some (count + occurrences sub (s.drop i)) := by
  induction turns generalizing i count with
  | zero => omega
  | succ turns ih =>
    have positive := length_pos_iff.2 nonempty
    rw [countLoop]
    by_cases fits : i + sub.length ≤ s.length
    · rw [if_pos ((upToLast_iff short i).2 fits), memcmp_inside fits]
      by_cases here : OccursAt sub s i
      · have parts := pieces_drop_match nonempty here
        rw [occurrences_eq parts, length_pieces]
        simp only [here, decide_true, bind_eq_bind, bind_some, if_true]
        rw [ih (i + sub.length) (count + 1) fits (by omega), add_assoc, add_comm 1]
      · have parts := pieces_drop_skip (by omega) here
        simp only [here, decide_false, bind_eq_bind, bind_some, Bool.false_eq_true, if_false]
        rw [ih (i + 1) count (by omega) (by omega), occurrences, occurrences, parts,
          length_modifyHead]
    · -- Behind the last index nothing is left to count.
      have parts := pieces_drop_late nonempty (Nat.not_le.1 fits)
      rw [if_neg (mt (upToLast_iff short i).1 fits), occurrences_eq parts, length_nil,
        add_zero]

end SearchFacts

section TextFacts

theorem sizeT_sizeT_add (a b : Nat) : sizeT (sizeT a + b) = sizeT (a + b) :=
  Nat.mod_add_mod a (2 ^ 64) b

theorem sizeT_add_sizeT (a b : Nat) : sizeT (a + sizeT b) = sizeT (a + b) :=
  Nat.add_mod_mod a b (2 ^ 64)

def storeText (heap : Nat → Bool) (bytes : List UInt8) : Option StrResult := do
  let buf ← malloc heap (sizeT (bytes.length + 1))
  let buf ← buf.putAll bytes
  finish (sizeT bytes.length) buf

variable {bytes : List UInt8}

theorem storeText_fits {heap : Nat → Bool}
    (small : bytes.length + 1 < 2 ^ 64) (served : heap (bytes.length + 1) = true) :
    storeText heap bytes = some ⟨bytes, bytes.length⟩ := by
  obtain ⟨buf, stored, size_eq, written_eq⟩ :=
    fresh_fits bytes (bytes.length + 1) (Nat.le_succ _)
  have room : bytes.length < buf.size := by
    rw [size_eq]
    exact Nat.lt_succ_self _
  have kept : buf.written.set bytes.length 0 = bytes := by
    rw [written_eq, set_eq_of_length_le (le_rfl)]
  rw [storeText, sizeT_of_lt small, sizeT_of_lt (Nat.lt_of_succ_lt small), malloc, if_pos served]
  simp only [bind_eq_bind, bind_some, stored, finish, if_pos room, kept]

variable (heap : Nat → Bool)

theorem storeText_overflows (large : 2 ^ 64 ≤ bytes.length + 1) : storeText heap bytes = none := by
  have short : sizeT (bytes.length + 1) < bytes.length := by
    have below : sizeT (bytes.length + 1) < 2 ^ 64 := Nat.mod_lt _ (by decide)
    have split := Nat.mod_add_div (bytes.length + 1) (2 ^ 64)
    have wraps : 1 ≤ (bytes.length + 1) / 2 ^ 64 := (Nat.one_le_div_iff (by decide)).2 large
    rw [sizeT] at *
    omega
  rw [storeText, malloc]
  split
  · rw [bind_eq_bind, bind_some, putAll_overflows]
    · rfl
    · rw [OutBlock.fresh, length_nil, zero_add]
      exact short
  · rfl

theorem copyOf_eq {s : List UInt8} {start len : Nat}
    (inside : start + len ≤ s.length) (small : s.length < 2 ^ 63) :
    copyOf heap s start len = storeText heap ((s.drop start).take len) := by
  have length_eq : ((s.drop start).take len).length = len := by
    rw [length_take, length_drop]
    omega
  rw [copyOf, storeText, slice, if_pos inside, length_eq, sizeT_of_lt (by omega : len < 2 ^ 64)]
  rfl

theorem replaceLoop_eq {s old : List UInt8} (rep : List UInt8) (nonempty : old ≠ [])
    (short : old.length ≤ s.length) (turns i : Nat) (buf : OutBlock)
    (enough : s.length ≤ i + turns) : replaceLoop s old rep turns i buf =
      buf.putAll (rep.intercalate (pieces old (s.drop i))) := by
  have done : ∀ (i : Nat) (buf : OutBlock), s.length ≤ i →
      buf.putAll (rep.intercalate (pieces old (s.drop i))) = some buf := by
    intro i buf past
    rw [drop_eq_nil_of_le past, pieces_nil, intercalate_singleton, OutBlock.putAll]
  induction turns generalizing i buf with
  | zero => rw [replaceLoop, if_neg (by omega), done i buf enough]
  | succ turns ih =>
    rw [replaceLoop]
    by_cases inside : i < s.length
    · rw [if_pos inside, matchesAt_eq nonempty short, bind_eq_bind, bind_some]
      by_cases here : OccursAt old s i
      · have positive := length_pos_iff.2 nonempty
        rw [if_pos (decide_eq_true here), pieces_drop_match nonempty here,
          intercalate_cons_of_ne_nil (pieces_ne_nil _ _), nil_append, putAll_append]
        congr 1
        funext next
        exact ih (i + old.length) next (by omega)
      · rw [if_neg (by simpa using here), pieces_drop_skip inside here,
          intercalate_modifyHead _ _ _ (pieces_ne_nil _ _), load,
          getElem?_eq_getElem inside, bind_eq_bind, bind_some, OutBlock.putAll]
        congr 1
        funext next
        exact ih (i + 1) next (by omega)
    · rw [if_neg inside, done i buf (Nat.not_lt.1 inside)]

theorem replacedLen_eq {s old rep : List UInt8} (nonempty : old ≠ [])
    (pattern : old.length < 2 ^ 63) : replacedLen s old rep (occurrences old s) =
      sizeT (rep.intercalate (pieces old s)).length := by
  have balance := length_replaced nonempty rep s
  generalize occurrences old s = cnt at balance ⊢
  generalize (rep.intercalate (pieces old s)).length = len at balance ⊢
  rw [replacedLen, sizeT_add_sizeT]
  by_cases grows : old.length ≤ rep.length
  · obtain ⟨more, longer⟩ := Nat.exists_eq_add_of_le grows
    rw [subT_of_le grows]
    rw [longer, mul_add] at balance
    rw [longer, Nat.add_sub_cancel_left]
    congr 1
    omega
  · obtain ⟨less, shorter⟩ := Nat.exists_eq_add_of_le (Nat.le_of_not_le grows)
    obtain ⟨gap, wrapped⟩ := Nat.exists_eq_add_of_le (Nat.le_of_lt_succ (by omega : less < 2 ^ 64 + 1))
    have difference : subT rep.length old.length = gap := by
      rw [subT, if_neg grows]
      omega
    have sum : s.length + cnt * gap = len + cnt * 2 ^ 64 := by
      rw [shorter, mul_add] at balance
      rw [wrapped, mul_add]
      omega
    rw [difference, sum]
    exact Nat.add_mul_mod_self_right len cnt (2 ^ 64)

theorem lucisReplace_eq {s old rep : List UInt8} (nonempty : old ≠ [])
    (short : old.length ≤ s.length) (text : s.length < 2 ^ 63) (pattern : old.length < 2 ^ 63) :
    lucisReplace heap s old rep = storeText heap (rep.intercalate (pieces old s)) := by
  have counted : countLoop s old (s.length + 1) 0 0 = some (occurrences old s) := by
    rw [countLoop_counts nonempty short _ _ _ (Nat.zero_le _) (by omega), Nat.zero_add, drop_zero]
  rw [lucisReplace, if_neg (mt length_eq_zero_iff.mp nonempty), counted, bind_eq_bind, bind_some]
  by_cases unmatched : occurrences old s = 0
  · have whole : rep.intercalate (pieces old s) = s := by
      obtain ⟨piece, single⟩ := length_eq_one_iff.mp
        (by rw [length_pieces, unmatched] : (pieces old s).length = 1)
      have restored := intercalate_pieces nonempty s
      rw [single, intercalate_singleton] at restored ⊢
      exact restored
    rw [if_pos unmatched, copyOf_eq heap (by omega) text, whole, drop_zero, take_length]
  · rw [if_neg unmatched, replacedLen_eq nonempty pattern, storeText]
    simp only [sizeT_sizeT_add]
    congr 1
    funext buf
    rw [replaceLoop_eq rep nonempty short _ _ _ (by omega), drop_zero]

variable (sep : List UInt8) (parts : List (List UInt8))

theorem joinLoop_rest (i : Nat) (buf : OutBlock) :
    joinLoop sep (i + 1) parts buf = buf.putAll (parts.map (sep ++ ·)).flatten := by
  induction parts generalizing i buf with
  | nil => rfl
  | cons part rest ih =>
    have separated : putSeparator sep (i + 1) buf = buf.putAll sep := by
      cases sep with
      | nil => rfl
      | cons c sep => exact if_pos ⟨Nat.succ_pos i, Nat.succ_pos _⟩
    rw [joinLoop, separated, map_cons, flatten_cons, putAll_append, putAll_append,
      bind_eq_bind, bind_assoc]
    congr 1
    funext next
    congr 1
    funext next
    exact ih (i + 1) next

variable (first : List UInt8) (rest : List (List UInt8))

theorem joinLoop_eq (buf : OutBlock) :
    joinLoop sep 0 (first :: rest) buf = buf.putAll (sep.intercalate (first :: rest)) := by
  rw [joinLoop, putSeparator, if_neg (fun both => lt_irrefl 0 both.1), intercalate_cons_eq,
    putAll_append, bind_eq_bind, bind_some]
  congr 1
  funext next
  exact joinLoop_rest sep rest 0 next

theorem totalLoop_rest (i total : Nat) :
    totalLoop sep (i + 1) parts (sizeT total) =
      sizeT (total + (parts.map (sep ++ ·)).flatten.length) := by
  induction parts generalizing i total with
  | nil => rfl
  | cons part rest ih =>
    have added : sizeT (sizeT (sizeT total + part.length) + sep.length) =
        sizeT (total + part.length + sep.length) := by
      rw [sizeT_sizeT_add, add_assoc, sizeT_sizeT_add, add_assoc]
    rw [totalLoop, if_pos (Nat.succ_pos i), added, ih, map_cons, flatten_cons,
      length_append, length_append]
    congr 1
    omega

theorem totalLoop_eq :
    totalLoop sep 0 (first :: rest) 0 = sizeT (sep.intercalate (first :: rest)).length := by
  rw [totalLoop, if_neg (lt_irrefl 0), totalLoop_rest, intercalate_cons_eq,
    length_append, zero_add]

theorem lucisJoinVec_eq (sep : List UInt8) (nonempty : parts ≠ []) :
    lucisJoinVec heap parts sep = storeText heap (sep.intercalate parts) := by
  cases parts with
  | nil => exact absurd rfl nonempty
  | cons first rest =>
    rw [lucisJoinVec, if_neg (by simp), storeText, totalLoop_eq]
    simp only [sizeT_sizeT_add]
    congr 1
    funext buf
    rw [joinLoop_eq]

end TextFacts

section PartFacts

def pushAll (heap : Nat → Bool) : PartArray → List (List UInt8) → Option PartArray
  | arr, [] => some arr
  | arr, part :: rest => (arr.push heap part).bind fun arr => pushAll heap arr rest

variable {heap : Nat → Bool}

theorem addPart_eq {s : List UInt8} (start len : Nat) (arr : PartArray)
    (inside : start + len ≤ s.length) (text : s.length < 2 ^ 63)
    (served : heap (((s.drop start).take len).length + 1) = true) :
    addPart heap s start len arr = arr.push heap ((s.drop start).take len) := by
  have small : ((s.drop start).take len).length + 1 < 2 ^ 64 := by
    rw [length_take]
    omega
  rw [addPart, copyOf_eq heap inside text, storeText_fits small served]
  rfl

theorem splitLoop_eq {s delim : List UInt8} (nonempty : delim ≠ [])
    (text : s.length < 2 ^ 63) (pattern : delim.length < 2 ^ 63) (turns start : Nat)
    (arr : PartArray) (inside : start ≤ s.length) (enough : s.length < start + turns)
    (served : ∀ part ∈ pieces delim (s.drop start), heap (part.length + 1) = true) :
    splitLoop heap s delim turns start arr = pushAll heap arr (pieces delim (s.drop start)) := by
  induction turns generalizing start arr with
  | zero => omega
  | succ turns ih =>
    obtain ⟨found, scanned, first⟩ := scanUp_first nonempty
      (fun i within => fitsAt_iff text pattern within) (s.length + 1) start inside (by omega)
    rw [splitLoop, if_pos inside, scanned]
    cases found with
    | none =>
      have parts := pieces_from_none first
      have whole : (s.drop start).take (s.length - start) = s.drop start := by
        rw [← length_drop, take_length]
      rw [parts] at served ⊢
      have part := addPart_eq start (s.length - start) arr (by omega) text
        (by rw [whole]; exact served _ (mem_singleton_self _))
      rw [whole] at part
      simp only [bind_eq_bind, bind_some, part, pushAll, bind_fun_some]
    | some j =>
      have parts := pieces_from_some nonempty first
      obtain ⟨behind, occurs, before⟩ := first
      have fits := occurs.inside nonempty
      have positive := length_pos_iff.2 nonempty
      rw [parts] at served ⊢
      have part := addPart_eq start (j - start) arr (by omega) text
        (served _ (.head _))
      simp only [bind_eq_bind, bind_some, part, pushAll]
      congr 1
      funext next
      exact ih (j + delim.length) next fits (by omega)
        fun part member => served part (.tail _ member)

structure Doubled (doublings : Nat) (arr : PartArray) : Prop where
  small : doublings ≤ 56
  cap_eq : arr.cap = 8 * 2 ^ doublings
  bytes_eq : arr.bytes = arr.cap * elemSize
  room : arr.parts.length ≤ arr.cap

/-- malloc serves the capacities that an array of `count` elements grows through. -/
def ArrayServed (heap : Nat → Bool) (count : Nat) : Prop :=
  ∀ doublings, doublings = 0 ∨ 8 * 2 ^ doublings < 2 * count →
    heap (sizeT (8 * 2 ^ doublings * elemSize)) = true

variable {doublings : Nat}

theorem capacity_le (small : doublings ≤ 56) : 8 * 2 ^ doublings ≤ 2 ^ 59 := by
  have power : 2 ^ doublings ≤ 2 ^ 56 := Nat.pow_le_pow_right (by decide) small
  omega

theorem capacity_lt (small : doublings < 56) : 8 * 2 ^ doublings < 2 ^ 59 := by
  have power : 2 ^ doublings < 2 ^ 56 := Nat.pow_lt_pow_right (by decide) small
  omega

variable {arr : PartArray}

theorem Doubled.count_le (doubled : Doubled doublings arr) : arr.parts.length ≤ 2 ^ 59 := by
  have capacity := capacity_le doubled.small
  rw [← doubled.cap_eq] at capacity
  exact le_trans doubled.room capacity

theorem grow_fits (doubled : Doubled doublings arr) (below : arr.parts.length < 2 ^ 59)
    (served : ArrayServed heap (arr.parts.length + 1)) :
    ∃ next after, arr.grow heap = some next ∧ Doubled after next ∧
      next.parts = arr.parts ∧ arr.parts.length < next.cap := by
  rw [PartArray.grow]
  by_cases full : arr.parts.length = arr.cap
  · have capacity : arr.parts.length = 8 * 2 ^ doublings := full.trans doubled.cap_eq
    have more : doublings < 56 := by
      by_contra most
      have same : doublings = 56 := le_antisymm doubled.small (Nat.not_lt.1 most)
      rw [same] at capacity
      omega
    have _ := capacity_lt more
    have twice : sizeT (arr.cap * 2) = 8 * 2 ^ (doublings + 1) := by
      rw [doubled.cap_eq, sizeT_of_lt (by omega), pow_succ]
      omega
    have request : heap (sizeT (8 * 2 ^ (doublings + 1) * elemSize)) = true := by
      apply served (doublings + 1)
      right
      rw [pow_succ]
      omega
    have bytes : sizeT (8 * 2 ^ (doublings + 1) * elemSize) =
        8 * 2 ^ (doublings + 1) * elemSize := by
      apply sizeT_of_lt
      rw [pow_succ, elemSize]
      omega
    rw [if_pos full, twice, allocate, if_pos request, bytes]
    have free : arr.parts.length < 8 * 2 ^ (doublings + 1) := by
      have positive := Nat.two_pow_pos doublings
      rw [capacity, pow_succ]
      omega
    exact ⟨_, doublings + 1, rfl, ⟨more, rfl, rfl, le_of_lt free⟩, rfl, free⟩
  · have free : arr.parts.length < arr.cap := Nat.lt_of_le_of_ne doubled.room full
    exact ⟨arr, doublings, if_neg full, doubled, rfl, free⟩

theorem push_fits
    (part : List UInt8) (doubled : Doubled doublings arr) (below : arr.parts.length < 2 ^ 59)
    (served : ArrayServed heap (arr.parts.length + 1)) :
    ∃ next after, arr.push heap part = some next ∧ Doubled after next ∧
      next.parts = arr.parts ++ [part] := by
  obtain ⟨middle, after, grown, doubled', kept, free⟩ := grow_fits doubled below served
  have inside : (middle.parts.length + 1) * elemSize ≤ middle.bytes := by
    rw [doubled'.bytes_eq, kept]
    exact Nat.mul_le_mul_right _ free
  refine ⟨{ middle with parts := middle.parts ++ [part] }, after, ?_, ?_, by rw [kept]⟩
  · rw [PartArray.push, grown, bind_eq_bind, bind_some, if_pos inside]
  · refine ⟨doubled'.small, doubled'.cap_eq, doubled'.bytes_eq, ?_⟩
    rw [length_append, kept]
    exact free

theorem push_full (heap : Nat → Bool) (part : List UInt8)
    (doubled : Doubled doublings arr) (full : arr.parts.length = 2 ^ 59) :
    arr.push heap part = none := by
  have capacity : arr.cap = 2 ^ 59 := by
    have upper := capacity_le doubled.small
    rw [← doubled.cap_eq] at upper
    exact le_antisymm upper (by rw [← full]; exact doubled.room)
  rw [PartArray.push, PartArray.grow, if_pos (full.trans capacity.symm), capacity, allocate]
  split
  · have noBytes : sizeT (sizeT (2 ^ 59 * 2) * elemSize) = 0 := by decide
    rw [bind_eq_bind, bind_some, noBytes, if_neg]
    exact Nat.not_le.2 (Nat.mul_pos (Nat.succ_pos _) (by decide))
  · rfl

variable (parts : List (List UInt8))

theorem pushAll_fits (doubled : Doubled doublings arr)
    (below : arr.parts.length + parts.length ≤ 2 ^ 59)
    (served : ArrayServed heap (arr.parts.length + parts.length)) :
    ∃ next, pushAll heap arr parts = some next ∧ next.parts = arr.parts ++ parts := by
  induction parts generalizing arr doublings with
  | nil => exact ⟨arr, rfl, (append_nil _).symm⟩
  | cons part rest ih =>
    rw [length_cons] at below served
    have served' : ArrayServed heap (arr.parts.length + 1) := by
      intro doublings needed
      exact served doublings (needed.imp_right fun less => by omega)
    obtain ⟨middle, after, pushed, doubled', added⟩ :=
      push_fits part doubled (by omega) served'
    have counted : middle.parts.length + rest.length = arr.parts.length + (rest.length + 1) := by
      rw [added, length_append, length_singleton]
      omega
    obtain ⟨next, run, appended⟩ := ih doubled' (by omega) (by rwa [counted])
    refine ⟨next, ?_, ?_⟩
    · rw [pushAll, pushed, bind_some, run]
    · rw [appended, added, append_assoc, singleton_append]

theorem pushAll_full (doubled : Doubled doublings arr)
    (above : 2 ^ 59 < arr.parts.length + parts.length)
    (served : ArrayServed heap (arr.parts.length + parts.length)) :
    pushAll heap arr parts = none := by
  induction parts generalizing arr doublings with
  | nil => exact absurd doubled.count_le (Nat.not_le.2 above)
  | cons part rest ih =>
    rw [length_cons] at above served
    rw [pushAll]
    by_cases full : arr.parts.length = 2 ^ 59
    · rw [push_full heap part doubled full]
      rfl
    · have served' : ArrayServed heap (arr.parts.length + 1) := by
        intro doublings needed
        exact served doublings (needed.imp_right fun less => by omega)
      obtain ⟨middle, after, pushed, doubled', added⟩ :=
        push_fits part doubled (Nat.lt_of_le_of_ne doubled.count_le full) served'
      have counted :
          middle.parts.length + rest.length = arr.parts.length + (rest.length + 1) := by
        rw [added, length_append, length_singleton]
        omega
      rw [pushed, bind_some, ih doubled' (by omega) (by rwa [counted])]

end PartFacts

section Family

structure Served (heap : Nat → Bool) (s sub rep : List UInt8) : Prop where
  array : ArrayServed heap (pieces sub s).length
  parts : ∀ part ∈ pieces sub s, heap (part.length + 1) = true
  text : heap (sizeT ((rep.intercalate (pieces sub s)).length + 1)) = true

structure Agreement (s sub : List UInt8) (found : Bool) (first last : Int) (count : Nat)
    (parts : List (List UInt8)) (replaced joined : StrResult) : Prop where
  found_iff_occurs : found = true ↔ ∃ i, OccursAt sub s i
  found_iff_first : found = true ↔ 0 ≤ first
  found_iff_last : found = true ↔ 0 ≤ last
  least : 0 ≤ first → IsLeast {i | OccursAt sub s i} first.toNat
  greatest : 0 ≤ last → IsGreatest {i | OccursAt sub s i} last.toNat
  count_eq : count + 1 = parts.length
  replaced_eq : replaced = joined
  length_eq : replaced.len = replaced.written.length

/-- All of the functions answer, without an access outside the text or a block, and
their answers agree. -/
def Agrees (heap : Nat → Bool) (s sub rep : List UInt8) : Prop :=
  ∃ found first last count arr replaced joined,
    lucisContains s sub = some found ∧ lucisIndexOf s sub = some first ∧
    lucisLastIndexOf s sub = some last ∧ lucisCount s sub = some count ∧
    lucisSplit heap s sub = some arr ∧ lucisReplace heap s sub rep = some replaced ∧
    lucisJoinVec heap arr.parts rep = some joined ∧
    Agreement s sub found first last count arr.parts replaced joined

/-- The pattern is no longer than the text, the array of the parts and the replaced text
have a size in size_t. -/
structure InBounds (s sub rep : List UInt8) : Prop where
  short : sub.length ≤ s.length
  few : occurrences sub s < 2 ^ 59
  small : s.length + occurrences sub s * rep.length + 1 <
    2 ^ 64 + occurrences sub s * sub.length

variable {heap : Nat → Bool} {s sub : List UInt8}

theorem position_some {i : Nat} (small : i < 2 ^ 63) : position (some i) = i :=
  if_pos small

variable (nonempty : sub ≠ [])
include nonempty

variable {found : Option Nat}

variable (text : s.length < 2 ^ 63)
include text

theorem FirstFrom.answers
    (first : FirstFrom sub s 0 found) : (found.isSome = true ↔ ∃ i, OccursAt sub s i) ∧
    (found.isSome = true ↔ 0 ≤ position found) ∧
    (0 ≤ position found → IsLeast {i | OccursAt sub s i} (position found).toNat) := by
  cases found with
  | none =>
    refine ⟨⟨nofun, ?_⟩, ⟨nofun, nofun⟩, nofun⟩
    rintro ⟨i, occurs⟩
    exact absurd occurs (first i (Nat.zero_le i))
  | some j =>
    obtain ⟨_, occurs, before⟩ := first
    have inside := occurs.inside nonempty
    rw [position_some (by omega), Int.toNat_natCast]
    refine ⟨⟨fun _ => ⟨j, occurs⟩, fun _ => rfl⟩, ⟨fun _ => Int.natCast_nonneg j, fun _ => rfl⟩,
      fun _ => ⟨occurs, ?_⟩⟩
    intro k earlier
    by_contra below
    exact before k (Nat.zero_le k) (Nat.not_le.mp below) earlier

theorem LastUpTo.answers (last : LastUpTo sub s (s.length - sub.length) found) :
    (found.isSome = true ↔ ∃ i, OccursAt sub s i) ∧ (found.isSome = true ↔ 0 ≤ position found) ∧
    (0 ≤ position found → IsGreatest {i | OccursAt sub s i} (position found).toNat) := by
  have upTo : ∀ i, OccursAt sub s i → i ≤ s.length - sub.length := fun i occurs =>
    Nat.le_sub_of_add_le (occurs.inside nonempty)
  cases found with
  | none =>
    refine ⟨⟨nofun, ?_⟩, ⟨nofun, nofun⟩, nofun⟩
    rintro ⟨i, occurs⟩
    exact absurd occurs (last i (upTo i occurs))
  | some j =>
    obtain ⟨_, occurs, behind⟩ := last
    have inside := occurs.inside nonempty
    rw [position_some (by omega), Int.toNat_natCast]
    refine ⟨⟨fun _ => ⟨j, occurs⟩, fun _ => rfl⟩, ⟨fun _ => Int.natCast_nonneg j, fun _ => rfl⟩,
      fun _ => ⟨occurs, ?_⟩⟩
    intro k later
    by_contra above
    exact behind k (Nat.not_le.1 above) (upTo k later) later

omit nonempty in
omit text in
/-- Without its guard the first pass of `lucis_replace` reads past a text that is shorter
than the pattern. -/
theorem lucisReplace_short (heap : Nat → Bool) (rep : List UInt8)
    (longer : s.length < sub.length) : lucisReplace heap s sub rep = none := by
  have outside : memcmp s 0 sub = none := if_neg (by omega)
  have counted : countLoop s sub (s.length + 1) 0 0 = none := by
    have inRange : upToLast s sub 0 = true := decide_eq_true (Nat.zero_le _)
    rw [countLoop, if_pos inRange, outside]
    rfl
  rw [lucisReplace, if_neg (by omega), counted]
  rfl

variable (pattern : sub.length < 2 ^ 63)
include pattern

theorem lucisSplit_eq (array : ArrayServed heap (pieces sub s).length)
    (parts : ∀ part ∈ pieces sub s, heap (part.length + 1) = true) :
    ∃ arr, Doubled 0 arr ∧ arr.parts = [] ∧
      lucisSplit heap s sub = pushAll heap arr (pieces sub s) := by
  refine ⟨⟨[], 8, 8 * elemSize⟩, ⟨by omega, rfl, rfl, Nat.zero_le _⟩, rfl, ?_⟩
  have loop : splitLoop heap s sub (s.length + 1) 0 ⟨[], 8, 8 * elemSize⟩ =
      pushAll heap ⟨[], 8, 8 * elemSize⟩ (pieces sub s) := by
    rw [splitLoop_eq nonempty text pattern _ _ _ (Nat.zero_le _) (by omega)
      (by rwa [drop_zero]), drop_zero]
  have request : heap (sizeT (8 * elemSize)) = true := array 0 (.inl rfl)
  rw [lucisSplit, allocate, if_pos request, bind_eq_bind, bind_some,
    if_neg (mt length_eq_zero_iff.1 nonempty)]
  exact loop

theorem lucisSplit_fits (array : ArrayServed heap (pieces sub s).length)
    (parts : ∀ part ∈ pieces sub s, heap (part.length + 1) = true)
    (few : (pieces sub s).length ≤ 2 ^ 59) :
    ∃ arr, lucisSplit heap s sub = some arr ∧ arr.parts = pieces sub s := by
  obtain ⟨start, doubled, empty, split⟩ := lucisSplit_eq nonempty text pattern array parts
  have count : start.parts.length + (pieces sub s).length = (pieces sub s).length := by
    rw [empty, length_nil, zero_add]
  obtain ⟨arr, run, collected⟩ :=
    pushAll_fits (pieces sub s) doubled (by rwa [count]) (by rwa [count])
  refine ⟨arr, by rw [split, run], ?_⟩
  rw [collected, empty, nil_append]

theorem lucisSplit_full (array : ArrayServed heap (pieces sub s).length)
    (parts : ∀ part ∈ pieces sub s, heap (part.length + 1) = true)
    (many : 2 ^ 59 < (pieces sub s).length) : lucisSplit heap s sub = none := by
  obtain ⟨start, doubled, empty, split⟩ := lucisSplit_eq nonempty text pattern array parts
  have count : start.parts.length + (pieces sub s).length = (pieces sub s).length := by
    rw [empty, length_nil, zero_add]
  rw [split, pushAll_full (pieces sub s) doubled (by rwa [count]) (by rwa [count])]

theorem agrees_of_inBounds {rep : List UInt8} (served : Served heap s sub rep)
    (bounds : InBounds s sub rep) : Agrees heap s sub rep := by
  have notEmpty : sub.length ≠ 0 := mt length_eq_zero_iff.1 nonempty
  have notLonger : ¬s.length < sub.length := Nat.not_lt.2 bounds.short
  obtain ⟨up, scannedUp, first⟩ := scanUp_first nonempty
    (fun i _ => upToLast_iff bounds.short i) (s.length + 1) 0 (Nat.zero_le _) (by omega)
  obtain ⟨down, scannedDown, last⟩ : ∃ found,
      scanDown s sub (subT s.length sub.length) = some found ∧
      LastUpTo sub s (s.length - sub.length) found := by
    rw [subT_of_le bounds.short]
    exact scanDown_last _ (Nat.le_of_eq (Nat.sub_add_cancel bounds.short))
  have counted := countLoop_counts nonempty bounds.short (s.length + 1) 0 0 (Nat.zero_le _)
    (by omega)
  rw [zero_add, drop_zero] at counted
  have pieceCount := length_pieces sub s
  obtain ⟨arr, split, parts⟩ := lucisSplit_fits nonempty text pattern served.array served.parts
    (by have := bounds.few; omega)
  have small : (rep.intercalate (pieces sub s)).length + 1 < 2 ^ 64 := by
    have balance := length_replaced nonempty rep s
    have := bounds.small
    omega
  have stored := storeText_fits small (by rw [← sizeT_of_lt small]; exact served.text)
  have replaced : lucisReplace heap s sub rep = storeText heap (rep.intercalate (pieces sub s)) :=
    lucisReplace_eq heap nonempty bounds.short text pattern
  have joined := lucisJoinVec_eq heap (pieces sub s) rep (pieces_ne_nil sub s)
  rw [stored] at replaced joined
  obtain ⟨foundIff, foundUp, least⟩ := first.answers nonempty text
  obtain ⟨lastIff, foundDown, greatest⟩ := last.answers nonempty text
  refine ⟨up.isSome, position up, position down, occurrences sub s, arr, _, _, ?_, ?_, ?_, ?_,
    split, replaced, by rw [parts]; exact joined, ?_⟩
  · rw [lucisContains, if_neg notEmpty, if_neg notLonger, scannedUp, map_some]
  · rw [lucisIndexOf, if_neg notEmpty, if_neg notLonger, scannedUp, map_some]
  · rw [lucisLastIndexOf, if_neg notEmpty, if_neg notLonger, scannedDown, map_some]
  · rw [lucisCount, if_neg notEmpty, if_neg notLonger, counted]
  · exact {
      found_iff_occurs := foundIff
      found_iff_first := foundUp
      found_iff_last := foundIff.trans (lastIff.symm.trans foundDown)
      least := least
      greatest := greatest
      count_eq := by rw [parts, pieceCount]
      replaced_eq := rfl
      length_eq := rfl }

omit pattern

omit text

omit nonempty

/-- The substring functions agree on every text and non-empty pattern where the pattern
is no longer than the text and the sizes fit; only there, as `lucis_replace` scans past
the text for a longer pattern and the sizes of the array and the text wrap. -/
theorem family_agrees_iff (heap : Nat → Bool) (s sub rep : Bytes) (nonempty : sub.data ≠ [])
    (served : Served heap s.data sub.data rep.data) :
    Agrees heap s.data sub.data rep.data ↔ InBounds s.data sub.data rep.data := by
  constructor
  · rintro ⟨_, _, _, _, arr, replaced, _, _, _, _, _, split, run, _, _⟩
    have short : sub.data.length ≤ s.data.length := by
      by_contra longer
      rw [lucisReplace_short heap rep.data (Nat.not_le.mp longer)] at run
      cases run
    have few : occurrences sub.data s.data < 2 ^ 59 := by
      by_contra many
      have above : 2 ^ 59 < (pieces sub.data s.data).length := by
        rw [length_pieces]
        omega
      rw [lucisSplit_full nonempty s.addressable sub.addressable served.array served.parts
        above] at split
      cases split
    refine ⟨short, few, ?_⟩
    by_contra large
    have balance := length_replaced nonempty rep.data s.data
    rw [lucisReplace_eq heap nonempty short s.addressable sub.addressable,
      storeText_overflows heap (by omega)] at run
    cases run
  · exact agrees_of_inBounds nonempty s.addressable sub.addressable served

/-- In `aba` the pattern `a` occurs twice. -/
theorem family_agrees_aba :
    Agrees (fun _ => true) [97, 98, 97] [97] [120, 121] := by
  have served : Served (fun _ => true) [97, 98, 97] [97] [120, 121] :=
    ⟨fun _ _ => rfl, fun _ _ => rfl, rfl⟩
  have twice : occurrences ([97] : List UInt8) [97, 98, 97] = 2 := by
    simp [occurrences, pieces]
  refine (family_agrees_iff (fun _ => true) ⟨[97, 98, 97], by decide⟩ ⟨[97], by decide⟩
    ⟨[120, 121], by decide⟩ (by decide) served).mpr ⟨by decide, ?_, ?_⟩
  · rw [twice]
    decide
  · rw [twice]
    decide

/-- `replace("a", "ab", "x")` compares two bytes at the only byte of the text. -/
theorem longer_pattern_reads_outside :
    lucisReplace (fun _ => true) [97] [97, 98] [120] = none ∧
      ¬Agrees (fun _ => true) [97] [97, 98] [120] := by
  have outside : lucisReplace (fun _ => true) [97] [97, 98] [120] = none := by decide
  refine ⟨outside, ?_⟩
  rintro ⟨_, _, _, _, _, _, _, _, _, _, _, _, run, _, _⟩
  rw [outside] at run
  cases run

end Family

end Lucis.SubstringSearch
