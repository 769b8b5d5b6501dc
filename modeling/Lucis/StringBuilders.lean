import Lucis.SubstringSearch

/-!
The functions of string/string.c that build a text from sizes and positions: repeat, padLeft,
padRight, substring, slice, strInsert, strRemove and concat. Sizes are computed in size_t; a
read outside the source, a store outside the block and a store through a pointer that malloc
refused are faults (`none`). Each function stores from the front of its block to the back.
-/

namespace Lucis.StringBuilders

open Memory List Option
open SubstringSearch

section Model

def repeatLoop (s : List UInt8) : Nat → OutBlock → Option OutBlock
  | 0, buf => some buf
  | n + 1, buf => (buf.putAll s).bind (repeatLoop s n)

def lucisRepeat (heap : Nat → Bool) (s : List UInt8) (n : Nat) : Option StrResult := do
  let newLen := sizeT (s.length * n)
  let buf ← malloc heap (sizeT (newLen + 1))
  let buf ← repeatLoop s n buf
  finish newLen buf

def lucisPadLeft (heap : Nat → Bool) (s : List UInt8) (width : Nat) (fill : UInt8) :
    Option StrResult :=
  if width ≤ s.length then copyOf heap s 0 s.length
  else do
    let buf ← malloc heap (sizeT (width + 1))
    let pad := subT width s.length
    let buf ← buf.putAll (List.replicate pad fill)
    let buf ← buf.putAll s
    finish width buf

def lucisPadRight (heap : Nat → Bool) (s : List UInt8) (width : Nat) (fill : UInt8) :
    Option StrResult :=
  if width ≤ s.length then copyOf heap s 0 s.length
  else do
    let buf ← malloc heap (sizeT (width + 1))
    let buf ← buf.putAll s
    let buf ← buf.putAll (List.replicate (subT width s.length) fill)
    finish width buf

/-- `buf = malloc(1); buf[0] = '\0';` -/
def noText (heap : Nat → Bool) : Option StrResult := (malloc heap 1).bind (finish 0)

def lucisSubstring (heap : Nat → Bool) (s : List UInt8) (start length : Nat) :
    Option StrResult :=
  if s.length ≤ start then noText heap
  else
    let length := if s.length < sizeT (start + length) then subT s.length start else length
    copyOf heap s start length

/-- Negative indices count from the end. No sum leaves int64, as no text has 2^63 bytes. -/
def fromEnd (s : List UInt8) (index : Int64) : Int :=
  if index < 0 then s.length + index.toInt else index.toInt

def lucisSlice (heap : Nat → Bool) (s : List UInt8) (start stop : Int64) : Option StrResult :=
  let start := fromEnd s start
  let stop := fromEnd s stop
  let start := if start < 0 then 0 else start
  let stop := if (s.length : Int) < stop then (s.length : Int) else stop
  if stop ≤ start then noText heap
  else copyOf heap s start.toNat (stop - start).toNat

/-- `return (lucis_str_result){ "", 0 };` -/
def failed : StrResult := ⟨[], 0⟩

def lucisStrInsert (heap : Nat → Bool) (s : List UInt8) (pos : Nat) (ins : List UInt8) :
    Option StrResult :=
  let pos := if s.length < pos then s.length else pos
  let newLen := sizeT (s.length + ins.length)
  match malloc heap (sizeT (newLen + 1)) with
  | none => some failed
  | some buf => do
      let buf ← buf.putAll (← slice s 0 pos)
      let buf ← buf.putAll ins
      let buf ← buf.putAll (← slice s pos (subT s.length pos))
      finish newLen buf

/-- The pointer `s + start + count` is computed modulo 2^64, as the machine does. -/
def lucisStrRemove (heap : Nat → Bool) (s : List UInt8) (start count : Nat) :
    Option StrResult :=
  if s.length ≤ start then some ⟨s, s.length⟩
  else
    let count := if s.length < sizeT (start + count) then subT s.length start else count
    let newLen := subT s.length count
    match malloc heap (sizeT (newLen + 1)) with
    | none => some failed
    | some buf => do
        let buf ← buf.putAll (← slice s 0 start)
        let buf ← buf.putAll (← slice s (sizeT (start + count)) (subT (subT s.length start) count))
        finish newLen buf

def lucisConcat (heap : Nat → Bool) (a b : List UInt8) : Option StrResult :=
  let newLen := sizeT (a.length + b.length)
  match malloc heap (sizeT (newLen + 1)) with
  | none => some failed
  | some buf => do
      let buf ← buf.putAll a
      let buf ← buf.putAll b
      finish newLen buf

end Model

section Calls

inductive Call where
  | repeat (s : Bytes) (n : UInt64)
  | padLeft (s : Bytes) (width : UInt64) (fill : UInt8)
  | padRight (s : Bytes) (width : UInt64) (fill : UInt8)
  | substring (s : Bytes) (start length : UInt64)
  | slice (s : Bytes) (start stop : Int64)
  | strInsert (s : Bytes) (pos : UInt64) (ins : Bytes)
  | strRemove (s : Bytes) (start count : UInt64)
  | concat (a b : Bytes)

def Call.run (heap : Nat → Bool) : Call → Option StrResult
  | .repeat s n => lucisRepeat heap s.data n.toNat
  | .padLeft s width fill => lucisPadLeft heap s.data width.toNat fill
  | .padRight s width fill => lucisPadRight heap s.data width.toNat fill
  | .substring s start length => lucisSubstring heap s.data start.toNat length.toNat
  | .slice s start stop => lucisSlice heap s.data start stop
  | .strInsert s pos ins => lucisStrInsert heap s.data pos.toNat ins.data
  | .strRemove s start count => lucisStrRemove heap s.data start.toNat count.toNat
  | .concat a b => lucisConcat heap a.data b.data

def Call.result : Call → List UInt8
  | .repeat s n => (List.replicate n.toNat s.data).flatten
  | .padLeft s width fill => List.replicate (width.toNat - s.data.length) fill ++ s.data
  | .padRight s width fill => s.data ++ List.replicate (width.toNat - s.data.length) fill
  | .substring s start length => (s.data.drop start.toNat).take length.toNat
  | .slice s start stop =>
    (s.data.take (fromEnd s.data stop).toNat).drop (fromEnd s.data start).toNat
  | .strInsert s pos ins => s.data.take pos.toNat ++ ins.data ++ s.data.drop pos.toNat
  | .strRemove s start count =>
    s.data.take start.toNat ++ s.data.drop (start.toNat + count.toNat)
  | .concat a b => a.data ++ b.data

/-- The call stays inside its block and its source, and returns the text it is for, or fails
because a request was refused. -/
def Call.Exact (heap : Nat → Bool) (call : Call) : Prop :=
  ∃ res, call.run heap = some res ∧
    (res = ⟨call.result, call.result.length⟩ ∨
      res = failed ∧ ∃ size < 2 ^ 64, heap size = false)

/-- What the sizes and the allocator have to be. concat and strInsert ask malloc for the result
of every call; strRemove wraps only at counts that reach past 2^64, unless malloc refuses what
it then asks for. -/
def Call.Fits (heap : Nat → Bool) : Call → Prop
  | .repeat s n =>
    s.data.length * n.toNat + 1 < 2 ^ 64 ∧ heap (s.data.length * n.toNat + 1) = true
  | .padLeft s width _ | .padRight s width _ =>
    (width.toNat ≤ s.data.length ∨ width.toNat + 1 < 2 ^ 64) ∧
      heap (max width.toNat s.data.length + 1) = true
  | .substring s start length =>
    (s.data.length ≤ start.toNat ∨ start.toNat + length.toNat < 2 ^ 64) ∧
      heap (min length.toNat (s.data.length - start.toNat) + 1) = true
  | .slice s start stop =>
    heap (min (fromEnd s.data stop).toNat s.data.length - (fromEnd s.data start).toNat + 1) =
      true
  | .strInsert _ _ _ | .concat _ _ => True
  | .strRemove s start count =>
    s.data.length ≤ start.toNat ∨ start.toNat + count.toNat < 2 ^ 64 ∨
      heap (s.data.length + 2 ^ 64 - count.toNat + 1) = false

end Calls

section Stores
variable {heap : Nat → Bool} {s bytes : List UInt8}

theorem storeText_refused (refused : heap (sizeT (bytes.length + 1)) = false) :
    storeText heap bytes = none := by
  rw [storeText, malloc, if_neg (by rw [refused]; exact Bool.false_ne_true)]
  rfl

theorem storeText_served {res : StrResult} (stored : storeText heap bytes = some res) :
    bytes.length + 1 < 2 ^ 64 ∧ heap (bytes.length + 1) = true := by
  by_cases small : bytes.length + 1 < 2 ^ 64
  · refine ⟨small, ?_⟩
    by_contra unserved
    rw [storeText_refused (by rw [sizeT_of_lt small]; exact Bool.eq_false_iff.2 unserved)]
      at stored
    cases stored
  · rw [storeText_overflows heap (Nat.not_lt.1 small)] at stored
    cases stored

variable {call : Call}

theorem exact_store_iff (run : call.run heap = storeText heap call.result) :
    call.Exact heap ↔ call.result.length + 1 < 2 ^ 64 ∧ heap (call.result.length + 1) = true := by
  rw [Call.Exact, run]
  constructor
  · rintro ⟨res, stored, _⟩
    exact storeText_served stored
  · rintro ⟨small, served⟩
    exact ⟨_, storeText_fits small served, .inl rfl⟩

theorem not_exact (run : call.run heap = none) : ¬call.Exact heap := by
  rintro ⟨res, returned, _⟩
  rw [run] at returned
  cases returned

def guarded (heap : Nat → Bool) (bytes : List UInt8) : Option StrResult :=
  match malloc heap (sizeT (bytes.length + 1)) with
  | none => some failed
  | some buf => do
      let buf ← buf.putAll bytes
      finish (sizeT bytes.length) buf

theorem exact_guarded (small : call.result.length + 1 < 2 ^ 64)
    (run : call.run heap = guarded heap call.result) : call.Exact heap := by
  rw [Call.Exact, run, guarded, sizeT_of_lt small]
  cases served : heap (call.result.length + 1) with
  | false =>
    rw [malloc, if_neg (by rw [served]; exact Bool.false_ne_true)]
    exact ⟨failed, rfl, .inr ⟨rfl, _, small, served⟩⟩
  | true =>
    have stored := storeText_fits small served
    rw [storeText, sizeT_of_lt small] at stored
    rw [malloc, if_pos served] at stored ⊢
    exact ⟨_, stored, .inl rfl⟩

theorem noText_eq : noText heap = storeText heap [] := by
  rw [noText, storeText]
  rfl

theorem repeatLoop_eq (n : Nat) (buf : OutBlock) :
    repeatLoop s n buf = buf.putAll (List.replicate n s).flatten := by
  induction n generalizing buf with
  | zero => rfl
  | succ n ih =>
    rw [repeatLoop, replicate_succ, flatten_cons, putAll_append]
    congr 1
    funext next
    exact ih next

theorem lucisRepeat_eq (n : Nat) :
    lucisRepeat heap s n = storeText heap (List.replicate n s).flatten := by
  have length_eq : (List.replicate n s).flatten.length = s.length * n := by
    simp [mul_comm]
  rw [lucisRepeat, storeText, length_eq]
  simp only [sizeT_sizeT_add, repeatLoop_eq]

variable (text : s.length < 2 ^ 63)
include text

theorem copyOf_whole : copyOf heap s 0 s.length = storeText heap s := by
  rw [copyOf_eq heap (le_of_eq (zero_add _)) text, drop_zero, take_length]

omit text in
theorem copyOf_outside {start len : Nat} (outside : s.length < start + len) :
    copyOf heap s start len = none := by
  rw [copyOf, slice, if_neg (Nat.not_le.2 outside)]
  cases malloc heap (sizeT (len + 1)) with
  | none => rfl
  | some buf => rfl

variable {width : Nat}

theorem lucisPadLeft_eq (small : width < 2 ^ 64)
    (fill : UInt8) : lucisPadLeft heap s width fill =
      storeText heap (List.replicate (width - s.length) fill ++ s) := by
  rw [lucisPadLeft]
  split
  · next short =>
      rw [Nat.sub_eq_zero_of_le short, replicate_zero, nil_append, copyOf_whole text]
  · next wide =>
      have length_eq : (List.replicate (width - s.length) fill ++ s).length = width := by
        rw [length_append, length_replicate]
        omega
      rw [storeText, length_eq, subT_of_le (by omega), sizeT_of_lt small]
      simp only [putAll_append, bind_eq_bind, bind_assoc]

theorem lucisPadRight_eq (small : width < 2 ^ 64)
    (fill : UInt8) : lucisPadRight heap s width fill =
      storeText heap (s ++ List.replicate (width - s.length) fill) := by
  rw [lucisPadRight]
  split
  · next short =>
      rw [Nat.sub_eq_zero_of_le short, replicate_zero, append_nil, copyOf_whole text]
  · next wide =>
      have length_eq : (s ++ List.replicate (width - s.length) fill).length = width := by
        rw [length_append, length_replicate]
        omega
      rw [storeText, length_eq, subT_of_le (by omega), sizeT_of_lt small]
      simp only [putAll_append, bind_eq_bind, bind_assoc]

theorem lucisSubstring_eq {start length : Nat}
    (small : s.length ≤ start ∨ start + length < 2 ^ 64) :
    lucisSubstring heap s start length = storeText heap ((s.drop start).take length) := by
  rw [lucisSubstring]
  split
  · next past => rw [drop_eq_nil_of_le past, take_nil, noText_eq]
  · next inside =>
      have sum := small.resolve_left inside
      rw [sizeT_of_lt sum, subT_of_le (by omega)]
      dsimp only
      split
      · next more =>
          have rest := length_drop (i := start) (l := s)
          rw [copyOf_eq heap (by omega) text, take_of_length_le (le_of_eq rest),
            take_of_length_le (by omega)]
      · rw [copyOf_eq heap (by omega) text]

theorem lucisSubstring_wraps {start length : Nat}
    (inside : start < s.length) (second : length < 2 ^ 64) (wraps : 2 ^ 64 ≤ start + length) :
    lucisSubstring heap s start length = none := by
  have wrapped : sizeT (start + length) = start + length - 2 ^ 64 := by
    rw [sizeT]
    omega
  rw [lucisSubstring, if_neg (by omega), wrapped]
  dsimp only
  rw [if_neg (by omega), copyOf_outside]
  omega

omit text in
theorem length_sliced (a b : Nat) : ((s.take b).drop a).length = min b s.length - a := by
  rw [length_drop, length_take]

theorem lucisSlice_eq (start stop : Int64) :
    lucisSlice heap s start stop =
      storeText heap ((s.take (fromEnd s stop).toNat).drop (fromEnd s start).toNat) := by
  generalize first : fromEnd s start = a
  generalize last : fromEnd s stop = b
  have cut : s.take b.toNat =
      s.take (if (s.length : Int) < b then (s.length : Int) else b).toNat := by
    split
    · rw [Int.toNat_natCast, take_length, take_of_length_le (by omega)]
    · rfl
  rw [lucisSlice, first, last, cut]
  generalize lower : (if a < 0 then 0 else a) = start'
  generalize upper : (if (s.length : Int) < b then (s.length : Int) else b) = stop'
  have low : start'.toNat = a.toNat ∧ 0 ≤ start' := by
    rw [← lower]
    split <;> omega
  have inside : stop' ≤ s.length := by
    rw [← upper]
    split <;> omega
  rw [← low.1]
  split
  · next empty =>
      have nothing : (s.take stop'.toNat).drop start'.toNat = [] := by
        rw [drop_eq_nil_iff, length_take]
        omega
      rw [nothing, noText_eq]
  · next some =>
      rw [copyOf_eq heap (by omega) text, drop_take]
      congr 2
      omega

omit text in
theorem guarded_concat {front back : List UInt8} :
    (match malloc heap (sizeT ((front ++ back).length + 1)) with
      | none => some failed
      | some buf => do
          let buf ← buf.putAll front
          let buf ← buf.putAll back
          finish (sizeT (front ++ back).length) buf) = guarded heap (front ++ back) := by
  rw [guarded]
  cases malloc heap (sizeT ((front ++ back).length + 1)) with
  | none => rfl
  | some buf => simp only [putAll_append, bind_eq_bind, bind_assoc]

omit text in
theorem lucisConcat_eq (a b : List UInt8) : lucisConcat heap a b = guarded heap (a ++ b) := by
  rw [lucisConcat, ← guarded_concat, length_append]
  simp only [sizeT_sizeT_add]

omit text in
theorem lucisStrInsert_eq (pos : Nat) (ins : List UInt8) :
    lucisStrInsert heap s pos ins = guarded heap (s.take pos ++ ins ++ s.drop pos) := by
  have length_eq : (s.take pos ++ ins ++ s.drop pos).length = s.length + ins.length := by
    rw [length_append, length_append, length_take, length_drop]
    omega
  generalize place : (if s.length < pos then s.length else pos) = at'
  have inside : at' ≤ s.length := by
    rw [← place]
    split <;> omega
  have front : s.take pos = s.take at' := by
    rw [← place]
    split
    · rw [take_length, take_of_length_le (by omega)]
    · rfl
  have back : s.drop pos = s.drop at' := by
    rw [← place]
    split
    · rw [drop_length, drop_eq_nil_of_le (by omega)]
    · rfl
  have first : slice s 0 at' = some (s.take at') := by
    rw [slice, if_pos (by omega), drop_zero]
  have second : slice s at' (s.length - at') = some (s.drop at') := by
    rw [slice, if_pos (by omega), ← length_drop, take_length]
  rw [lucisStrInsert, guarded, length_eq, place]
  rw [subT_of_le inside, sizeT_sizeT_add]
  cases malloc heap (sizeT (s.length + ins.length + 1)) with
  | none => rfl
  | some buf =>
    simp only [first, second, front, back, putAll_append, bind_eq_bind, bind_some, bind_assoc]

omit text in
/-- The sizes of strRemove, wrapped or not: what is kept behind begins at `kept`. -/
theorem removed_sizes {len start count cut kept : Nat} (text : len < 2 ^ 63)
    (inside : start < len) (small : count < 2 ^ 64)
    (cut_eq : (if len < sizeT (start + count) then subT len start else count) = cut)
    (kept_eq : sizeT (start + cut) = kept) : kept ≤ len ∧ subT (subT len start) cut = len - kept ∧
      subT len cut = start + (len - kept) ∧
      (kept = sizeT (start + count) ∨ kept = len ∧ len ≤ sizeT (start + count)) := by
  rw [subT_of_le (le_of_lt inside)] at *
  rw [sizeT] at *
  rw [subT, subT]
  split at cut_eq
  · split <;> split <;> omega
  · split <;> split <;> omega

theorem lucisStrRemove_eq {start count : Nat}
    (inside : start < s.length) (small : count < 2 ^ 64) : lucisStrRemove heap s start count =
      guarded heap (s.take start ++ s.drop (sizeT (start + count))) := by
  generalize cut_eq : (if s.length < sizeT (start + count) then subT s.length start
    else count) = cut
  generalize kept_eq : sizeT (start + cut) = kept
  obtain ⟨within, tail_eq, new_eq, place⟩ := removed_sizes text inside small cut_eq kept_eq
  have same : s.drop kept = s.drop (sizeT (start + count)) := by
    rcases place with same | ⟨whole, past⟩
    · rw [same]
    · rw [whole, drop_length, drop_eq_nil_of_le past]
  have length_eq : (s.take start ++ s.drop (sizeT (start + count))).length =
      start + (s.length - kept) := by
    rw [← same, length_append, length_take, length_drop, Nat.min_eq_left (le_of_lt inside)]
  have first : slice s 0 start = some (s.take start) := by
    rw [slice, if_pos (by omega), drop_zero]
  have second : slice s kept (s.length - kept) = some (s.drop (sizeT (start + count))) := by
    rw [slice, if_pos (by omega), ← length_drop, take_length, same]
  have new_small : sizeT (start + (s.length - kept)) = start + (s.length - kept) :=
    sizeT_of_lt (by omega)
  rw [lucisStrRemove, if_neg (by omega), cut_eq, guarded, length_eq]
  dsimp only
  rw [new_eq, tail_eq, kept_eq, new_small, first, second]
  cases malloc heap (sizeT (start + (s.length - kept) + 1)) with
  | none => rfl
  | some buf =>
    simp only [putAll_append, bind_eq_bind, bind_some, bind_assoc]

end Stores

section Exactness

variable {heap : Nat → Bool} {bytes : List UInt8}

theorem guarded_served (small : bytes.length + 1 < 2 ^ 64)
    (served : heap (bytes.length + 1) = true) :
    guarded heap bytes = some ⟨bytes, bytes.length⟩ := by
  have stored := storeText_fits small served
  rw [storeText, sizeT_of_lt small, malloc, if_pos served] at stored
  rw [guarded, sizeT_of_lt small, malloc, if_pos served]
  exact stored

theorem guarded_refused (small : bytes.length + 1 < 2 ^ 64)
    (refused : heap (bytes.length + 1) = false) : guarded heap bytes = some failed := by
  rw [guarded, sizeT_of_lt small, malloc, if_neg (by rw [refused]; exact Bool.false_ne_true)]

theorem padded_length (s : List UInt8) (width : Nat) (fill : UInt8) :
    (List.replicate (width - s.length) fill ++ s).length = max width s.length := by
  rw [length_append, length_replicate]
  omega

theorem padded_fits_iff {s : List UInt8} (text : s.length < 2 ^ 63) (width : Nat) :
    max width s.length + 1 < 2 ^ 64 ↔ width ≤ s.length ∨ width + 1 < 2 ^ 64 := by
  omega

/-- A count that wraps keeps bytes in front of `start` a second time. -/
theorem strRemove_wraps_iff {s : Bytes} {start count : UInt64}
    (inside : start.toNat < s.data.length) (wraps : 2 ^ 64 ≤ start.toNat + count.toNat) :
    Call.Exact heap (.strRemove s start count) ↔
      heap (s.data.length + 2 ^ 64 - count.toNat + 1) = false := by
  have text := s.addressable
  have small : count.toNat < 2 ^ 64 := count.toNat_lt
  have wrapped : sizeT (start.toNat + count.toNat) = start.toNat + count.toNat - 2 ^ 64 := by
    rw [sizeT]
    omega
  have run : Call.run heap (.strRemove s start count) =
      guarded heap (s.data.take start.toNat ++
        s.data.drop (start.toNat + count.toNat - 2 ^ 64)) := by
    rw [← wrapped]
    exact lucisStrRemove_eq text inside small
  have length_eq : (s.data.take start.toNat ++
      s.data.drop (start.toNat + count.toNat - 2 ^ 64)).length =
        s.data.length + 2 ^ 64 - count.toNat := by
    rw [length_append, length_take, length_drop]
    omega
  have short : (Call.result (.strRemove s start count)).length = start.toNat := by
    rw [Call.result, length_append, length_take, length_drop]
    omega
  rw [Call.Exact, run]
  cases served : heap (s.data.length + 2 ^ 64 - count.toNat + 1) with
  | false =>
    rw [guarded_refused (by omega) (by rwa [length_eq])]
    exact iff_of_true ⟨failed, rfl, .inr ⟨rfl, _, by omega, served⟩⟩ rfl
  | true =>
    rw [guarded_served (by omega) (by rwa [length_eq])]
    refine iff_of_false ?_ Bool.false_ne_true.symm
    rintro ⟨res, returned, right⟩
    cases returned
    rcases right with same | ⟨same, _⟩
    · have lengths := congrArg StrResult.len same
      rw [length_eq, short] at lengths
      dsimp only at lengths
      omega
    · have lengths := congrArg StrResult.len same
      rw [length_eq] at lengths
      dsimp only [failed] at lengths
      omega

/-- Each builder is exact under its own condition, and under no other. -/
theorem builders_exact_iff (heap : Nat → Bool) (call : Call) :
    call.Exact heap ↔ call.Fits heap := by
  cases call with
  | «repeat» s n =>
    have length_eq : (Call.result (.repeat s n)).length = s.data.length * n.toNat := by
      simp [Call.result, Nat.mul_comm]
    rw [@exact_store_iff heap (.repeat s n) (lucisRepeat_eq n.toNat), length_eq, Call.Fits]
  | padLeft s width fill =>
    have length_eq := padded_length s.data width.toNat fill
    rw [@exact_store_iff heap (.padLeft s width fill)
      (lucisPadLeft_eq s.addressable width.toNat_lt fill), Call.result, length_eq,
      padded_fits_iff s.addressable, Call.Fits]
  | padRight s width fill =>
    have length_eq := padded_length s.data width.toNat fill
    rw [length_append, Nat.add_comm, ← length_append] at length_eq
    rw [@exact_store_iff heap (.padRight s width fill)
      (lucisPadRight_eq s.addressable width.toNat_lt fill), Call.result, length_eq,
      padded_fits_iff s.addressable, Call.Fits]
  | substring s start length =>
    have text := s.addressable
    have length_eq : (Call.result (.substring s start length)).length =
        min length.toNat (s.data.length - start.toNat) := by
      rw [Call.result, length_take, length_drop]
    rw [Call.Fits]
    by_cases small : s.data.length ≤ start.toNat ∨ start.toNat + length.toNat < 2 ^ 64
    · rw [@exact_store_iff heap (.substring s start length) (lucisSubstring_eq text small),
        length_eq]
      exact and_congr_left' (iff_of_true (by omega) small)
    · have wraps : Call.run heap (.substring s start length) = none :=
        lucisSubstring_wraps text (by omega) length.toNat_lt (by omega)
      exact iff_of_false (not_exact wraps) fun both => small both.1
  | slice s start stop =>
    have text := s.addressable
    have length_eq : (Call.result (.slice s start stop)).length =
        min (fromEnd s.data stop).toNat s.data.length - (fromEnd s.data start).toNat :=
      length_sliced _ _
    rw [@exact_store_iff heap (.slice s start stop) (lucisSlice_eq text start stop), length_eq,
      Call.Fits]
    exact and_iff_right (by omega)
  | strInsert s pos ins =>
    have text := s.addressable
    have other := ins.addressable
    refine iff_of_true (exact_guarded ?_ (lucisStrInsert_eq pos.toNat ins.data)) trivial
    rw [Call.result, length_append, length_append, length_take, length_drop]
    omega
  | strRemove s start count =>
    have text := s.addressable
    rw [Call.Fits]
    by_cases past : s.data.length ≤ start.toNat
    · refine iff_of_true ?_ (.inl past)
      have whole : Call.result (.strRemove s start count) = s.data := by
        rw [Call.result, take_of_length_le past, drop_eq_nil_of_le (by omega), append_nil]
      exact ⟨_, if_pos past, .inl (by rw [whole])⟩
    · by_cases small : start.toNat + count.toNat < 2 ^ 64
      · refine iff_of_true (exact_guarded ?_ ?_) (.inr (.inl small))
        · rw [Call.result, length_append, length_take, length_drop]
          omega
        · have run := @lucisStrRemove_eq heap _ text _ _ (Nat.not_le.mp past) count.toNat_lt
          rw [sizeT_of_lt small] at run
          exact run
      · rw [strRemove_wraps_iff (Nat.not_le.mp past) (Nat.not_lt.mp small)]
        exact ⟨fun refused => .inr (.inr refused), fun any =>
          (any.resolve_left past).resolve_left small⟩
  | concat a b =>
    have first := a.addressable
    have second := b.addressable
    refine iff_of_true (exact_guarded ?_ (lucisConcat_eq a.data b.data)) trivial
    rw [Call.result, length_append]
    omega

/-- To remove all but the first byte of `abc`, as "to the end", repeats bytes instead; the same
arguments of substring read and store outside. -/
theorem toTheEnd_wraps :
    lucisStrRemove (fun _ => true) [97, 98, 99] 1 (2 ^ 64 - 1) = some ⟨[97, 97, 98, 99], 4⟩ ∧
      lucisSubstring (fun _ => true) [97, 98, 99] 1 (2 ^ 64 - 1) = none ∧
      ¬Call.Exact (fun _ => true) (.strRemove ⟨[97, 98, 99], by decide⟩ 1 (-1)) := by
  have removed : lucisStrRemove (fun _ => true) [97, 98, 99] 1 (2 ^ 64 - 1) =
      some ⟨[97, 97, 98, 99], 4⟩ := by decide
  refine ⟨removed, by decide, ?_⟩
  rintro ⟨res, returned, right⟩
  have run : Call.run (fun _ => true) (.strRemove ⟨[97, 98, 99], by decide⟩ 1 (-1)) =
      some ⟨[97, 97, 98, 99], 4⟩ := removed
  rw [run] at returned
  cases returned
  rcases right with same | ⟨same, _⟩
  · cases congrArg StrResult.len same
  · cases congrArg StrResult.len same

end Exactness

end Lucis.StringBuilders
