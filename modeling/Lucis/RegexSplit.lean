import Lucis.RegexVec

/-!
What regexSplit keeps of a text. Its loop steps over one byte behind a match that ends
where it was looked for, and puts that byte into no part; `regex_replace_impl` has the same
step and copies the byte.
-/

namespace Lucis.Regex

open Memory List Option
open SubstringSearch
open Matching

section Parts
variable {heap : Nat → Bool} {re : Matcher UInt8} {s : List UInt8} {arr : RegexVec}

theorem add_parts {next : RegexVec} {ptr : List UInt8} {len : Nat}
    (added : arr.add heap ptr len = some next) : next.slots.parts = arr.slots.parts ++ [ptr] := by
  rw [RegexVec.add, map_eq_some_iff] at added
  obtain ⟨slots, pushed, rfl⟩ := added
  exact push_parts pushed

theorem collect_gaps (served : ∀ length ≤ s.length, heap (length + 1) = true)
    (seen : s ≠ [] ∨ re.run s = none) (left : visible 0 s ≠ [] ∨ arr.slots.parts.length = 0) :
    (collect heap re (keepPart heap) partOf [[]] s arr).bind
        (fun exit => addRest heap exit.1 exit.2) = appendAll heap arr (gaps 0 re s) := by
  induction s using search_induction generalizing arr with
  | step s ih =>
    have room := length_visible_le 0 s
    cases here : re.run (visible 0 s) with
    | none =>
      rw [collect_none here, gaps_none here, bind_some, addRest, if_pos left,
        if_pos (served _ room), appendAll_cons]
      simp only [appendAll_nil, bind_fun_some]
    | some range =>
      have bounds := re.inside here
      have present : s ≠ [] := by
        rintro rfl
        have never := seen.resolve_left (not_not_intro rfl)
        exact absurd (here.symm.trans never) (some_ne_none _)
      have kept : keepPart heap range = true := served _ (by omega)
      have shorter := length_after_lt present range.2
      rw [collect_some here, if_neg present, if_pos kept, gaps_some here, appendAll_cons,
        bind_assoc]
      apply Option.bind_congr
      intro next _
      by_cases unseen : visible 0 (after s range.2) = []
      · rw [if_pos unseen, if_pos unseen, bind_map, appendAll_cons]
        simp only [appendAll_nil, bind_fun_some, length_nil]
        cases last : next.add heap [] 0 with
        | none => rfl
        | some final =>
          have nothing :
              ¬(visible 0 (after s range.2) ≠ [] ∨ final.slots.parts.length = 0) := by
            rw [add_parts last, length_append, length_singleton]
            rintro (left | none)
            · exact left unseen
            · omega
          rw [bind_some]
          exact if_neg nothing
      · rw [if_neg unseen, if_neg unseen]
        exact ih present range.2 (fun length short => served length (by omega))
          (.inl (ne_nil_of_visible unseen)) (.inl unseen)

end Parts

section Keeps

/-- malloc serves the copies of pattern and text, every part, and the array with its growth.
It serves nothing above PTRDIFF_MAX. -/
structure SplitServed (heap : Nat → Bool) (regcomp : List UInt8 → Option (Matcher UInt8))
    (text pat : List UInt8) : Prop where
  limit : ∀ bytes, heap bytes = true → bytes < 2 ^ 63
  pattern : heap (pat.length + 1) = true
  parts : ∀ length ≤ text.length, heap (length + 1) = true
  single : heap elemSize = true
  array : ∀ re, regcomp (visible 0 pat) = some re → ArrayServed heap (gaps 0 re text).length

def matchedBy (regcomp : List UInt8 → Option (Matcher UInt8)) (text pat : List UInt8) :
    List (List UInt8) :=
  match regcomp (visible 0 pat) with
  | none => []
  | some re => found 0 re text

/-- Parts and matched substrings, one after the other, make the text, and each part has the
length that is reported for it. -/
def SplitKeeps (heap : Nat → Bool) (regcomp : List UInt8 → Option (Matcher UInt8))
    (text pat : List UInt8) : Prop :=
  ∃ arr, lucisRegexSplit heap regcomp text pat = some arr ∧
    weave arr.slots.parts (matchedBy regcomp text pat) = text ∧
    arr.lens = arr.slots.parts.map List.length

variable {heap : Nat → Bool} {regcomp : List UInt8 → Option (Matcher UInt8)}
  {re : Matcher UInt8} {text pat : List UInt8}

theorem wholeText_eq (served : SplitServed heap regcomp text pat) :
    wholeText heap text = some ⟨⟨[text], 1, elemSize⟩, [text.length]⟩ := by
  have request := served.parts text.length (le_rfl)
  have small := served.limit _ request
  have copied := copyOf_eq heap (le_of_eq (zero_add text.length)) (by omega)
  rw [drop_zero, take_length, storeText_fits (by omega) request] at copied
  have element : sizeT elemSize = elemSize := sizeT_of_lt (by decide)
  rw [wholeText, copied, element, sizeT_of_lt (by omega), if_pos ⟨served.single, request⟩]
  rfl

theorem split_gaps (served : SplitServed heap regcomp text pat)
    (compiled : regcomp (visible 0 pat) = some re) (seen : text ≠ [] ∨ re.run text = none) :
    ∃ arr, lucisRegexSplit heap regcomp text pat = some arr ∧
      arr.slots.parts = gaps 0 re text ∧ arr.lens = (gaps 0 re text).map List.length := by
  obtain ⟨arr, added, parts, lens⟩ := appendAll_fits served.limit (served.array re compiled)
  refine ⟨arr, ?_, parts, lens⟩
  rw [split_eq served.limit served.pattern (served.parts _ (le_rfl))
    (served.array re compiled 0 (.inl rfl)) compiled,
    collect_gaps served.parts seen (.inr rfl), added]

/-- Nothing is lost exactly when no match that the loop finds ends where it was looked for. -/
theorem split_keeps_iff (heap : Nat → Bool) (regcomp : List UInt8 → Option (Matcher UInt8))
    (text pat : List UInt8) (plain : 0 ∉ text) (served : SplitServed heap regcomp text pat) :
    SplitKeeps heap regcomp text pat ↔
      ∀ re, regcomp (visible 0 pat) = some re → 0 ∉ ends 0 re text := by
  cases compiled : regcomp (visible 0 pat) with
  | none =>
    refine iff_of_true ⟨⟨⟨[text], 1, elemSize⟩, [text.length]⟩, ?_, ?_, rfl⟩
      (fun _ impossible => absurd impossible (by nofun))
    · rw [lucisRegexSplit, duplicate_served served.limit served.pattern,
        duplicate_served served.limit (served.parts _ (Nat.le_refl _))]
      simp only [bind_eq_bind, bind_some, visible_terminated, compiled]
      exact wholeText_eq served
    · rw [matchedBy, compiled]
      simp [weave]
  | some re =>
    have matched : matchedBy regcomp text pat = found 0 re text := by
      rw [matchedBy, compiled]
    by_cases seen : text ≠ [] ∨ re.run text = none
    · obtain ⟨arr, split, parts, lens⟩ := split_gaps served compiled seen
      constructor
      · rintro ⟨arr', split', whole, _⟩ _ ⟨⟩
        rw [split] at split'
        cases split'
        rw [matched, parts] at whole
        exact (weave_eq_iff plain seen).mp whole
      · intro onward
        refine ⟨arr, split, ?_, by rw [lens, parts]⟩
        rw [matched, parts]
        exact (weave_eq_iff plain seen).mpr (onward re rfl)
    · -- the empty text with a match, which the cursor passes
      rw [not_or, not_not] at seen
      obtain ⟨rfl, matches_empty⟩ := seen
      obtain ⟨range, here⟩ := ne_none_iff_exists'.mp matches_empty
      have past : lucisRegexSplit heap regcomp [] pat = none := by
        rw [split_eq served.limit served.pattern (served.parts _ (Nat.le_refl _))
          (served.array re compiled 0 (.inl rfl)) compiled, collect_past]
        · rfl
        · rw [searches_last here (.inl rfl)]
          exact ⟨range, mem_singleton_self _⟩
      have start : range.2 = 0 := Nat.le_zero.mp (re.inside here).2
      refine iff_of_false ?_ fun onward => onward re rfl ?_
      · rintro ⟨arr, split, _⟩
        rw [past] at split
        cases split
      · rw [ends_some here, start]
        exact .head _

theorem split_keeps_comma :
    SplitKeeps served63 (fun _ => some (oneByte 44)) [97, 44, 98] [44] := by
  have first : (oneByte 44).run (visible 0 [97, 44, 98]) = some (1, 2) := by decide
  have second : (oneByte 44).run (visible 0 (after [97, 44, 98] 2)) = none := by decide
  have left : visible 0 (after ([97, 44, 98] : List UInt8) 2) ≠ [] := by decide
  refine (split_keeps_iff served63 _ [97, 44, 98] [44] (by decide) ?_).mpr ?_
  · exact {
      limit := fun bytes served => of_decide_eq_true served
      pattern := by decide
      parts := by decide
      single := by decide
      array := by
        rintro _ ⟨⟩
        rw [gaps_some first, if_neg left, gaps_none second]
        exact served63_array (by decide) }
  · rintro _ ⟨⟩
    rw [ends_some first, if_neg left, ends_none second]
    decide

/-- `x*` takes `a` into two empty parts and one empty match: the byte is in none of them. -/
theorem starred_loses_byte :
    (lucisRegexSplit served63 (fun _ => some (starred 120)) [97] [120, 42]).map
        (fun arr => arr.slots.parts) = some [[], []] ∧
      matchedBy (fun _ => some (starred 120)) [97] [120, 42] = [[]] ∧
      ¬SplitKeeps served63 (fun _ => some (starred 120)) [97] [120, 42] := by
  have parts : (lucisRegexSplit served63 (fun _ => some (starred 120)) [97] [120, 42]).map
      (fun arr => arr.slots.parts) = some [[], []] := by decide
  have here : (starred 120).run (visible 0 [97]) = some (0, 0) := by decide
  have matched : matchedBy (fun _ => some (starred 120)) [97] [120, 42] = [[]] := by
    have last : visible 0 (after ([97] : List UInt8) 0) = [] := by decide
    have unfolded : matchedBy (fun _ => some (starred 120)) [97] [120, 42] =
        found 0 (starred 120) [97] := rfl
    rw [unfolded, found_some here, if_pos last]
    rfl
  refine ⟨parts, matched, ?_⟩
  rintro ⟨arr, split, whole, _⟩
  rw [split, map_some, Option.some.injEq] at parts
  rw [parts, matched] at whole
  exact absurd whole (by decide)

end Keeps

end Lucis.Regex
