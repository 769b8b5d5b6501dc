import Lucis.SubstringSearch

/-!
lucis_split and lucis_splitN of string/string.c against lucis_joinVec. Both
splitters come to a list of parts that they push one after the other; what the
parts are is said on lists, for the empty delimiter too, where the two differ.
-/

namespace Lucis.SubstringSearch

open Memory List Option
open Occurrences

section Loops

/-- The loop of `lucis_splitN`, which ends with the start of the remainder. Each turn adds a
part, so `maxParts` turns are enough. -/
def splitNLoop (heap : Nat → Bool) (s delim : List UInt8) (maxParts : Nat) :
    Nat → Nat → PartArray → Option (Nat × PartArray)
  | 0, start, arr =>
    if start ≤ s.length ∧ arr.parts.length < maxParts - 1 then none else some (start, arr)
  | turns + 1, start, arr =>
    if start ≤ s.length ∧ arr.parts.length < maxParts - 1 then do
      match ← scanUp s delim (fitsAt s delim) (s.length + 1) start with
      | some found =>
        (addPart heap s start (found - start) arr).bind
          (splitNLoop heap s delim maxParts turns (found + delim.length))
      | none => some (start, arr)
    else some (start, arr)

def lucisSplitN (heap : Nat → Bool) (s delim : List UInt8) (maxParts : Nat) :
    Option PartArray :=
  if maxParts = 0 then some ⟨[], 0, 0⟩
  else do
    let arr ← allocate heap [] (if maxParts < 8 then maxParts else 8)
    let (start, arr) ← splitNLoop heap s delim maxParts maxParts 0 arr
    addPart heap s start (subT s.length start) arr

/-- What `lucis_split` makes of a text. -/
def partsOf (s delim : List UInt8) : List (List UInt8) :=
  if delim = [] then s.map fun c => [c] else pieces delim s

/-- What `lucis_splitN` makes of it: with no delimiter, empty parts and the whole text. -/
def partsUpTo (s delim : List UInt8) (maxParts : Nat) : List (List UInt8) :=
  if delim = [] then List.replicate (maxParts - 1) [] ++ [s]
  else limited delim (maxParts - 1) (pieces delim s)

end Loops

section LoopFacts
variable {heap : Nat → Bool} {s delim : List UInt8}

theorem charLoop_eq (text : s.length < 2 ^ 63) (served : s ≠ [] → heap 2 = true)
    (turns i : Nat) (arr : PartArray) (enough : s.length ≤ i + turns) :
    charLoop heap s turns i arr = pushAll heap arr ((s.drop i).map fun c => [c]) := by
  have done : ∀ (i : Nat) (arr : PartArray), s.length ≤ i →
      pushAll heap arr ((s.drop i).map fun c => [c]) = some arr := by
    intro i arr past
    rw [drop_eq_nil_of_le past, map_nil, pushAll]
  induction turns generalizing i arr with
  | zero => rw [charLoop, if_neg (by omega), done i arr enough]
  | succ turns ih =>
    rw [charLoop]
    by_cases inside : i < s.length
    · have single : (s.drop i).take 1 = [s[i]] := by
        rw [drop_eq_getElem_cons inside, take_succ_cons, take_zero]
      have present : s ≠ [] := length_pos_iff.1 (Nat.zero_lt_of_lt inside)
      rw [if_pos inside, addPart_eq i 1 arr inside text (by rw [single]; exact served present),
        single, drop_eq_getElem_cons inside, map_cons, pushAll]
      congr 1
      funext next
      exact ih (i + 1) next (by omega)
    · rw [if_neg inside, done i arr (Nat.not_lt.1 inside)]

theorem push_parts {arr next : PartArray} {part : List UInt8}
    (pushed : arr.push heap part = some next) : next.parts = arr.parts ++ [part] := by
  rw [PartArray.push] at pushed
  cases grown : arr.grow heap with
  | none => rw [grown] at pushed; cases pushed
  | some middle =>
    have kept : middle.parts = arr.parts := by
      rw [PartArray.grow, allocate] at grown
      split at grown
      · split at grown
        · cases grown; rfl
        · cases grown
      · cases grown; rfl
    rw [grown, bind_eq_bind, bind_some] at pushed
    split at pushed
    · cases pushed
      rw [kept]
    · cases pushed

def splitNRest (heap : Nat → Bool) (s : List UInt8) : Nat × PartArray → Option PartArray
  | (start, arr) => addPart heap s start (subT s.length start) arr

theorem splitNRest_eq {start : Nat} (arr : PartArray) (inside : start ≤ s.length)
    (text : s.length < 2 ^ 63) (served : heap ((s.drop start).length + 1) = true) :
    splitNRest heap s (start, arr) = arr.push heap (s.drop start) := by
  have whole : (s.drop start).take (s.length - start) = s.drop start := by
    rw [← length_drop, take_length]
  rw [splitNRest, subT_of_le inside,
    addPart_eq start _ arr (by omega) text (by rw [whole]; exact served), whole]

theorem splitNLoop_eq (nonempty : delim ≠ []) (text : s.length < 2 ^ 63)
    (pattern : delim.length < 2 ^ 63) (maxParts turns more start : Nat) (arr : PartArray)
    (inside : start ≤ s.length) (enough : more < turns)
    (left : arr.parts.length + more = maxParts - 1)
    (served : ∀ part ∈ limited delim more (pieces delim (s.drop start)),
      heap (part.length + 1) = true) :
    (splitNLoop heap s delim maxParts turns start arr).bind (splitNRest heap s) =
      pushAll heap arr (limited delim more (pieces delim (s.drop start))) := by
  induction more generalizing turns start arr with
  | zero =>
    have full : ¬(start ≤ s.length ∧ arr.parts.length < maxParts - 1) := by omega
    obtain ⟨turns, rfl⟩ : ∃ before, turns = before + 1 := ⟨turns - 1, by omega⟩
    have rest : limited delim 0 (pieces delim (s.drop start)) = [s.drop start] := by
      rw [limited_zero delim (pieces_ne_nil _ _), intercalate_pieces nonempty]
    rw [rest] at served ⊢
    rw [splitNLoop, if_neg full, bind_some,
      splitNRest_eq arr inside text (served _ (mem_singleton_self _)), pushAll]
    simp only [pushAll, bind_fun_some]
  | succ more ih =>
    obtain ⟨turns, rfl⟩ : ∃ before, turns = before + 1 := ⟨turns - 1, by omega⟩
    obtain ⟨found, scanned, first⟩ := scanUp_first nonempty
      (fun i within => fitsAt_iff text pattern within) (s.length + 1) start inside (by omega)
    rw [splitNLoop, if_pos ⟨inside, by omega⟩, scanned]
    cases found with
    | none =>
      have parts := pieces_from_none first
      rw [parts] at served ⊢
      have rest : limited delim (more + 1) [s.drop start] = [s.drop start] :=
        limited_eq delim (by simp)
      rw [rest] at served ⊢
      simp only [bind_eq_bind, bind_some, pushAll, bind_fun_some]
      exact splitNRest_eq arr inside text (served _ (mem_singleton_self _))
    | some j =>
      have fits := first.2.1.inside nonempty
      have parts := pieces_from_some nonempty first
      rw [parts, limited] at served ⊢
      have part := addPart_eq start (j - start) arr (by have := first.1; omega) text
        (served _ (.head _))
      simp only [bind_eq_bind, bind_some, part, pushAll, bind_assoc]
      apply Option.bind_congr
      intro next pushed
      refine ih turns (j + delim.length) next fits (by omega) ?_
        fun part member => served part (.tail _ member)
      rw [push_parts pushed, length_append, length_singleton]
      omega

theorem splitNLoop_empty (text : s.length < 2 ^ 63) (maxParts turns more start : Nat)
    (arr : PartArray) (inside : start ≤ s.length) (enough : more < turns)
    (left : arr.parts.length + more = maxParts - 1)
    (served : ∀ part ∈ List.replicate more [] ++ [s.drop start], heap (part.length + 1) = true) :
    (splitNLoop heap s [] maxParts turns start arr).bind (splitNRest heap s) =
      pushAll heap arr (List.replicate more [] ++ [s.drop start]) := by
  induction more generalizing turns arr with
  | zero =>
    have full : ¬(start ≤ s.length ∧ arr.parts.length < maxParts - 1) := by omega
    obtain ⟨turns, rfl⟩ : ∃ before, turns = before + 1 := ⟨turns - 1, by omega⟩
    rw [splitNLoop, if_neg full, bind_some,
      splitNRest_eq arr inside text (served _ (mem_singleton_self _))]
    simp only [replicate_zero, nil_append, pushAll, bind_fun_some]
  | succ more ih =>
    obtain ⟨turns, rfl⟩ : ∃ before, turns = before + 1 := ⟨turns - 1, by omega⟩
    have fits : fitsAt s [] start = true :=
      (fitsAt_iff text (by decide) inside).2 inside
    have scanned : scanUp s [] (fitsAt s []) (s.length + 1) start = some (some start) := by
      rw [scanUp, if_pos fits, memcmp_inside (show start + 0 ≤ s.length from inside),
        decide_eq_true (show OccursAt [] s start from nil_prefix)]
      rfl
    have part := addPart_eq start 0 arr inside text
      (by rw [take_zero]; exact served [] (.head _))
    rw [take_zero] at part
    rw [splitNLoop, if_pos ⟨inside, by omega⟩, scanned, replicate_succ, cons_append, pushAll]
    simp only [bind_eq_bind, bind_some, Nat.sub_self, part, bind_assoc, length_nil, add_zero]
    apply Option.bind_congr
    intro next pushed
    refine ih turns next (by omega) ?_ fun part member =>
      served part (.tail _ member)
    rw [push_parts pushed, length_append, length_singleton]
    omega

theorem pushAll_small (arr : PartArray) (parts : List (List UInt8))
    (bytes_eq : arr.bytes = arr.cap * elemSize) (room : arr.parts.length + parts.length ≤ arr.cap) :
    pushAll heap arr parts = some { arr with parts := arr.parts ++ parts } := by
  induction parts generalizing arr with
  | nil => rw [pushAll, append_nil]
  | cons part rest ih =>
    rw [length_cons] at room
    have free : arr.parts.length ≠ arr.cap := by omega
    have inside : (arr.parts.length + 1) * elemSize ≤ arr.bytes := by
      rw [bytes_eq]
      exact Nat.mul_le_mul_right _ (by omega)
    have left : (arr.parts ++ [part]).length + rest.length ≤ arr.cap := by
      rw [length_append, length_singleton]
      omega
    have run := ih { arr with parts := arr.parts ++ [part] } bytes_eq left
    rw [pushAll, PartArray.push, PartArray.grow, if_neg free, bind_eq_bind,
      bind_some, if_pos inside, bind_some, run, append_assoc,
      singleton_append]

end LoopFacts

section Laws

theorem length_partsUpTo (s delim : List UInt8) {maxParts : Nat} (pos : 1 ≤ maxParts) :
    (partsUpTo s delim maxParts).length ≤ maxParts := by
  rw [partsUpTo]
  split
  · rw [length_append, length_replicate, length_singleton]
    omega
  · have counted := length_limited_le delim (maxParts - 1) (pieces delim s)
    omega

/-- malloc serves what split, splitN and joinVec ask for on one text: the arrays with their
growth, each part, and the text put together. It serves nothing above PTRDIFF_MAX. -/
structure SplitServed (heap : Nat → Bool) (s delim : List UInt8) (maxParts : Nat) : Prop where
  limit : ∀ bytes, heap bytes = true → bytes < 2 ^ 63
  array : ArrayServed heap (partsOf s delim).length
  first : heap (sizeT ((if maxParts < 8 then maxParts else 8) * elemSize)) = true
  arrayN : ArrayServed heap (partsUpTo s delim maxParts).length
  parts : ∀ part ∈ partsOf s delim, heap (part.length + 1) = true
  partsN : ∀ part ∈ partsUpTo s delim maxParts, heap (part.length + 1) = true
  text : heap (s.length + 1) = true

/-- Both splitters answer, with every element stored inside the array, and joining gives the
text back; splitN keeps its bound, cuts at delimiters and is split where the bound allows. -/
def SplitLaws (heap : Nat → Bool) (s delim : List UInt8) (maxParts : Nat) : Prop :=
  ∃ arr arrN, lucisSplit heap s delim = some arr ∧
    lucisSplitN heap s delim maxParts = some arrN ∧
    lucisJoinVec heap arr.parts delim = some ⟨s, s.length⟩ ∧
    lucisJoinVec heap arrN.parts delim = some ⟨s, s.length⟩ ∧
    arrN.parts.length ≤ maxParts ∧
    (delim ≠ [] → ∀ part ∈ arrN.parts.dropLast, ∀ i, ¬OccursAt delim part i) ∧
    (arr.parts.length ≤ maxParts → arrN.parts = arr.parts)

variable {heap : Nat → Bool} {s delim : List UInt8} {maxParts : Nat}

theorem few_of_served {count : Nat} (limit : ∀ bytes, heap bytes = true → bytes < 2 ^ 63)
    (array : ArrayServed heap count) : count ≤ 2 ^ 58 := by
  by_contra many
  have request := limit _ (array 56 (.inr (by omega)))
  exact absurd request (by decide)

variable (text : s.length < 2 ^ 63)
include text

theorem lucisSplit_parts (pattern : delim.length < 2 ^ 63)
    (served : SplitServed heap s delim maxParts) :
    ∃ arr, lucisSplit heap s delim = some arr ∧ arr.parts = partsOf s delim := by
  have few := few_of_served served.limit served.array
  by_cases empty : delim = []
  · subst empty
    have parts_eq : partsOf s [] = s.map fun c => [c] := if_pos rfl
    have request : heap (sizeT (8 * elemSize)) = true := served.array 0 (.inl rfl)
    have two : s ≠ [] → heap 2 = true := fun present => by
      rcases exists_mem_of_ne_nil s present with ⟨c, member⟩
      exact served.parts [c] (parts_eq ▸ List.mem_map_of_mem member)
    have loop := charLoop_eq text two s.length 0 ⟨[], 8, 8 * elemSize⟩ (by omega)
    rw [drop_zero, ← parts_eq] at loop
    have start : Doubled 0 ⟨[], 8, 8 * elemSize⟩ := ⟨by omega, rfl, rfl, Nat.zero_le _⟩
    obtain ⟨arr, run, collected⟩ := @pushAll_fits heap 0 _ (partsOf s []) start
      (by rw [length_nil]; omega) (by rw [length_nil, zero_add]; exact served.array)
    refine ⟨arr, ?_, collected⟩
    rw [lucisSplit, allocate, if_pos request, bind_eq_bind, bind_some, if_pos length_nil]
    exact loop.trans run
  · have parts_eq : partsOf s delim = pieces delim s := if_neg empty
    have array := served.array
    have parts := served.parts
    rw [parts_eq] at few array parts ⊢
    exact lucisSplit_fits empty text pattern array parts (by omega)

theorem lucisSplitN_parts (pattern : delim.length < 2 ^ 63)
    (pos : 1 ≤ maxParts) (served : SplitServed heap s delim maxParts) :
    ∃ arr, lucisSplitN heap s delim maxParts = some arr ∧
      arr.parts = partsUpTo s delim maxParts := by
  have few := few_of_served served.limit served.arrayN
  have bound : (partsUpTo s delim maxParts).length ≤ maxParts := length_partsUpTo s delim pos
  generalize cap_eq : (if maxParts < 8 then maxParts else 8) = cap at *
  have first := served.first
  rw [cap_eq] at first
  have bytes : sizeT (cap * elemSize) = cap * elemSize :=
    sizeT_of_lt (by rw [elemSize]; split at cap_eq <;> omega)
  have loop : (splitNLoop heap s delim maxParts maxParts 0 ⟨[], cap, cap * elemSize⟩).bind
      (splitNRest heap s) =
        pushAll heap ⟨[], cap, cap * elemSize⟩ (partsUpTo s delim maxParts) := by
    by_cases empty : delim = []
    · have parts_eq : partsUpTo s delim maxParts = List.replicate (maxParts - 1) [] ++ [s] :=
        if_pos empty
      have parts := served.partsN
      rw [parts_eq] at parts ⊢
      subst empty
      have run := splitNLoop_empty text maxParts maxParts (maxParts - 1) 0
        ⟨[], cap, cap * elemSize⟩ (Nat.zero_le _) (by omega) (Nat.zero_add _)
        (by rw [drop_zero]; exact parts)
      rwa [drop_zero] at run
    · have parts_eq : partsUpTo s delim maxParts =
          limited delim (maxParts - 1) (pieces delim s) := if_neg empty
      have parts := served.partsN
      rw [parts_eq] at parts ⊢
      have run := splitNLoop_eq empty text pattern maxParts maxParts (maxParts - 1) 0
        ⟨[], cap, cap * elemSize⟩ (Nat.zero_le _) (by omega) (Nat.zero_add _)
        (by rw [drop_zero]; exact parts)
      rwa [drop_zero] at run
  have stored : ∃ arr, pushAll heap ⟨[], cap, cap * elemSize⟩ (partsUpTo s delim maxParts) =
      some arr ∧ arr.parts = partsUpTo s delim maxParts := by
    by_cases small : maxParts < 8
    · rw [if_pos small] at cap_eq
      subst cap_eq
      exact ⟨_, pushAll_small _ _ rfl (by simpa using bound), nil_append _⟩
    · rw [if_neg small] at cap_eq
      subst cap_eq
      have start : Doubled 0 ⟨[], 8, 8 * elemSize⟩ := ⟨by omega, rfl, rfl, Nat.zero_le _⟩
      exact pushAll_fits _ start (by rw [length_nil]; omega)
        (by rw [length_nil, zero_add]; exact served.arrayN)
  rcases stored with ⟨arr, run, collected⟩
  refine ⟨arr, ?_, collected⟩
  rw [lucisSplitN, if_neg (by omega), cap_eq, allocate, if_pos first, bytes, bind_eq_bind,
    bind_some]
  exact loop.trans run

theorem lucisJoinVec_text {parts}
    (served : heap (s.length + 1) = true) (joined : delim.intercalate parts = s) :
    lucisJoinVec heap parts delim = some ⟨s, s.length⟩ := by
  by_cases empty : parts = []
  · subst empty joined
    have request : heap 1 = true := served
    rw [lucisJoinVec, if_pos length_nil, malloc, if_pos request]
    rfl
  · rw [lucisJoinVec_eq heap parts delim empty, joined, storeText_fits (by omega) served]

omit text

theorem intercalate_partsOf : delim.intercalate (partsOf s delim) = s := by
  rw [partsOf]
  split
  · next empty =>
      rw [empty, intercalate_empty]
      induction s with
      | nil => rfl
      | cons c rest ih => rw [map_cons, flatten_cons, ih, singleton_append]
  · next nonempty => exact intercalate_pieces nonempty s

theorem intercalate_partsUpTo : delim.intercalate (partsUpTo s delim maxParts) = s := by
  rw [partsUpTo]
  split
  · next empty =>
      rw [empty, intercalate_empty, flatten_append, flatten_replicate_nil]
      simp
  · next nonempty => rw [intercalate_limited, intercalate_pieces nonempty]

theorem same_parts_iff (pos : 1 ≤ maxParts) :
    ((partsOf s delim).length ≤ maxParts → partsUpTo s delim maxParts = partsOf s delim) ↔
      delim ≠ [] ∨ maxParts < s.length ∨ maxParts = 1 ∧ s.length = 1 := by
  by_cases empty : delim = []
  · rw [partsOf, partsUpTo, if_pos empty, if_pos empty, length_map]
    constructor
    · intro same
      by_cases more : maxParts < s.length
      · exact .inr (.inl more)
      · have agree := same (Nat.not_lt.1 more)
        have lengths := congrArg List.length agree
        rw [length_append, length_replicate, length_singleton, length_map] at lengths
        have single : maxParts = 1 := by
          by_contra several
          obtain ⟨before, rfl⟩ : ∃ before, maxParts = before + 2 := ⟨maxParts - 2, by omega⟩
          cases s with
          | nil => cases lengths
          | cons c rest => cases agree
        exact .inr (.inr ⟨single, by omega⟩)
    · rintro (nonempty | more | ⟨rfl, single⟩)
      · exact absurd empty nonempty
      · exact fun few => absurd few (Nat.not_le.2 more)
      · intro _
        rcases length_eq_one_iff.1 single with ⟨c, rfl⟩
        rfl
  · rw [partsOf, partsUpTo, if_neg empty, if_neg empty]
    exact iff_of_true (fun few => limited_eq delim (by omega)) (.inl empty)

/-- The laws hold exactly where the delimiter is not empty, or the bound is below the number of
characters, or there is one character and one part: with an empty delimiter split takes the
text apart into characters and splitN into empty parts and the text. -/
theorem split_laws_iff (heap : Nat → Bool) (s delim : Bytes) (maxParts : Nat)
    (pos : 1 ≤ maxParts) (served : SplitServed heap s.data delim.data maxParts) :
    SplitLaws heap s.data delim.data maxParts ↔
      delim.data ≠ [] ∨ maxParts < s.data.length ∨ maxParts = 1 ∧ s.data.length = 1 := by
  rcases lucisSplit_parts s.addressable delim.addressable served with ⟨arr, split, parts⟩
  rcases lucisSplitN_parts s.addressable delim.addressable pos served with
    ⟨arrN, splitN, partsN⟩
  have text := served.text
  rw [← same_parts_iff pos]
  constructor
  · rintro ⟨arr', arrN', split', splitN', _, _, _, _, same⟩
    rw [split] at split'
    rw [splitN] at splitN'
    cases split'
    cases splitN'
    rwa [parts, partsN] at same
  · intro same
    refine ⟨arr, arrN, split, splitN, ?_⟩
    rw [parts, partsN]
    refine ⟨lucisJoinVec_text s.addressable text intercalate_partsOf,
      lucisJoinVec_text s.addressable text intercalate_partsUpTo, length_partsUpTo _ _ pos,
      fun nonempty part member => ?_, same⟩
    rw [partsUpTo, if_neg nonempty] at member
    exact pieces_clean nonempty s.data part (mem_dropLast_limited _ _ _ part member)

def served63 (bytes : Nat) : Bool := bytes < 2 ^ 63

theorem split_laws_comma :
    SplitLaws served63 [97, 44, 98] [44] 2 := by
  have parts : partsOf ([97, 44, 98] : List UInt8) [44] = [[97], [98]] := by
    simp [partsOf, pieces]
  have partsN : partsUpTo ([97, 44, 98] : List UInt8) [44] 2 = [[97], [98]] := by
    simp [partsUpTo, pieces, limited]
  have array : ArrayServed served63 2 := by
    rintro doublings (rfl | less)
    · decide
    · have positive := Nat.two_pow_pos doublings
      omega
  refine (split_laws_iff served63 ⟨[97, 44, 98], by decide⟩
    ⟨[44], by decide⟩ 2 (by decide) ?_).mpr (.inl (by decide))
  exact {
    limit := fun bytes served => of_decide_eq_true served
    array := by rw [parts]; exact array
    first := by decide
    arrayN := by rw [partsN]; exact array
    parts := by rw [parts]; decide
    partsN := by rw [partsN]; decide
    text := by decide }

/-- With no delimiter and at most two parts, split makes `a`, `b` of `ab`, splitN nothing and
`ab`. -/
theorem empty_delimiter_differs :
    (lucisSplit served63 [97, 98] []).map PartArray.parts = some [[97], [98]] ∧
      (lucisSplitN served63 [97, 98] [] 2).map PartArray.parts = some [[], [97, 98]] ∧
      ¬SplitLaws served63 [97, 98] [] 2 := by
  have split : (lucisSplit served63 [97, 98] []).map PartArray.parts =
      some [[97], [98]] := by decide
  have splitN : (lucisSplitN served63 [97, 98] [] 2).map PartArray.parts =
      some [[], [97, 98]] := by decide
  refine ⟨split, splitN, ?_⟩
  rintro ⟨arr, arrN, made, madeN, _, _, _, _, same⟩
  rw [made, map_some, Option.some.injEq] at split
  rw [madeN, map_some, Option.some.injEq] at splitN
  rw [split, splitN] at same
  exact absurd (same (by decide)) (by decide)

end Laws

end Lucis.SubstringSearch
