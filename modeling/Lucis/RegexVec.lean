import Lucis.Library.Matching
import Lucis.SplitJoin

/-!
regexFindAll and regexSplit of regex/regex.c. `regexec` is a parameter: a compiled pattern
is any matcher that answers a range of the C string it is given. The cursor moves over a
copy of the text with its terminator; a read behind the terminator is a fault (`none`), as
is a store outside the array. Each turn searches once and moves the cursor on, so one turn
more than the text is long is enough.
-/

namespace Lucis.Regex

open Memory Option
open List hiding after
open SubstringSearch
open Matching
export Matching (Matcher)

section Model

/-- What `strlen` and `regexec` read of a block from `cursor` on. -/
def cstring (block : List UInt8) (cursor : Nat) : Option (List UInt8) :=
  if cursor < block.length then some (visible 0 (block.drop cursor)) else none

/-- `regexec(&re, cursor, 1, &match, 0)` -/
def regexec (re : Matcher UInt8) (block : List UInt8) (cursor : Nat) :
    Option (Option (Nat × Nat)) :=
  (cstring block cursor).map re.run

/-- The array of both functions: the bytes behind each pointer, and each reported length. -/
structure RegexVec where
  slots : PartArray
  lens : List Nat

/-- `if (count == cap) {..} arr[count].ptr = ptr; arr[count].len = len; count++;` -/
def RegexVec.add (heap : Nat → Bool) (arr : RegexVec) (ptr : List UInt8) (len : Nat) :
    Option RegexVec :=
  (arr.slots.push heap ptr).map fun slots => ⟨slots, arr.lens ++ [len]⟩

/-- `out->ptr = NULL; out->len = 0; out->cap = 0;` -/
def RegexVec.empty : RegexVec := ⟨⟨[], 0, 0⟩, []⟩

/-- `malloc(size)` and the copy of a C string into it, with its terminator. -/
def duplicate (heap : Nat → Bool) (s : List UInt8) : Option (List UInt8) :=
  (copyOf heap s 0 s.length).map fun copy => copy.written ++ [0]

/-- `cursor += match.rm_eo > 0 ? match.rm_eo : 1` -/
def stepOver (cursor eo : Nat) : Nat := cursor + if 0 < eo then eo else 1

/-- `cursor += match.rm_eo; if (match.rm_eo == 0) cursor++;` -/
def stepBehind (cursor eo : Nat) : Nat :=
  if eo = 0 then cursor + eo + 1 else cursor + eo

def findAllLoop (heap : Nat → Bool) (re : Matcher UInt8) (ttmp : List UInt8) :
    Nat → Nat → RegexVec → Option RegexVec
  | 0, _, _ => none
  | turns + 1, cursor, arr => do
      match ← regexec re ttmp cursor with
      | none => some arr
      | some (so, eo) =>
        let mLen := subT eo so
        if heap (sizeT (mLen + 1)) then
          let copy ← copyOf heap ttmp (cursor + so) mLen
          let arr ← arr.add heap copy.written mLen
          let cursor := stepBehind cursor eo
          if (← load ttmp cursor) = 0 then some arr
          else findAllLoop heap re ttmp turns cursor arr
        else findAllLoop heap re ttmp turns (stepOver cursor eo) arr

def lucisRegexFindAll (heap : Nat → Bool) (regcomp : List UInt8 → Option (Matcher UInt8))
    (text pat : List UInt8) : Option RegexVec := do
  let ptmp ← duplicate heap pat
  let ttmp ← duplicate heap text
  match regcomp (visible 0 ptmp) with
  | none => some .empty
  | some re =>
    let arr ← allocate heap [] 8
    findAllLoop heap re ttmp (text.length + 1) 0 ⟨arr, []⟩

def splitLoop (heap : Nat → Bool) (re : Matcher UInt8) (ttmp : List UInt8) :
    Nat → Nat → RegexVec → Option (Nat × RegexVec)
  | 0, _, _ => none
  | turns + 1, cursor, arr => do
      match ← regexec re ttmp cursor with
      | none => some (cursor, arr)
      | some (so, eo) =>
        let partLen := so
        if heap (sizeT (partLen + 1)) then
          let part ← copyOf heap ttmp cursor partLen
          let arr ← arr.add heap part.written partLen
          let cursor := stepBehind cursor eo
          if (← load ttmp cursor) = 0 then
            -- an empty text, or the literal where malloc refused one
            let arr ← arr.add heap [] 0
            some (cursor, arr)
          else splitLoop heap re ttmp turns cursor arr
        else splitLoop heap re ttmp turns (stepOver cursor eo) arr

def addRemaining (heap : Nat → Bool) (ttmp : List UInt8) :
    Nat × RegexVec → Option RegexVec
  | (cursor, arr) => do
      if (← load ttmp cursor) ≠ 0 ∨ arr.slots.parts.length = 0 then
        let remLen := (← cstring ttmp cursor).length
        if heap (sizeT (remLen + 1)) then
          let rem ← copyOf heap ttmp cursor remLen
          arr.add heap rem.written remLen
        else
          -- malloc is asked for the same size once more; the literal keeps the length
          arr.add heap [] remLen
      else some arr

def wholeText (heap : Nat → Bool) (text : List UInt8) : Option RegexVec :=
  if heap (sizeT elemSize) ∧ heap (sizeT (text.length + 1)) then do
    let copy ← copyOf heap text 0 text.length
    some ⟨⟨[copy.written], 1, elemSize⟩, [text.length]⟩
  else some .empty

def lucisRegexSplit (heap : Nat → Bool) (regcomp : List UInt8 → Option (Matcher UInt8))
    (text pat : List UInt8) : Option RegexVec := do
  let ptmp ← duplicate heap pat
  let ttmp ← duplicate heap text
  match regcomp (visible 0 ptmp) with
  | none => wholeText heap text
  | some re =>
    let arr ← allocate heap [] 8
    let exit ← splitLoop heap re ttmp (text.length + 1) 0 ⟨arr, []⟩
    addRemaining heap ttmp exit

end Model

section BlockFacts
variable {text : List UInt8} {cursor eo : Nat}

theorem cstring_inside (inside : cursor ≤ text.length) :
    cstring (text ++ [0]) cursor = some (visible 0 (text.drop cursor)) := by
  have short : cursor < (text ++ [0]).length := by
    rw [length_append, length_singleton]
    omega
  rw [cstring, if_pos short, drop_append_of_le_length inside, visible_terminated]

variable (re : Matcher UInt8)

theorem regexec_inside (inside : cursor ≤ text.length) :
    regexec re (text ++ [0]) cursor = some (re.run (visible 0 (text.drop cursor))) := by
  rw [regexec, cstring_inside inside, map_some]

theorem regexec_outside (outside : text.length < cursor) :
    regexec re (text ++ [0]) cursor = none := by
  have long : ¬cursor < (text ++ [0]).length := by
    rw [length_append, length_singleton]
    omega
  rw [regexec, cstring, if_neg long, map_none]

theorem load_inside_block (inside : cursor ≤ text.length) :
    load (text ++ [0]) cursor = some ((text.drop cursor).headD 0) := by
  rw [load]
  rcases Nat.lt_or_eq_of_le inside with less | rfl
  · rw [getElem?_append_left less, getElem?_eq_getElem less, drop_eq_getElem_cons less, headD_cons]
  · rw [getElem?_append_right (le_rfl), drop_length, Nat.sub_self]
    rfl

theorem load_outside_block (outside : text.length < cursor) : load (text ++ [0]) cursor = none := by
  rw [load, getElem?_eq_none]
  rw [length_append, length_singleton]
  omega

theorem stepOver_eq (cursor eo : Nat) : stepOver cursor eo = stepBehind cursor eo := by
  rw [stepOver, stepBehind]
  split <;> split <;> omega

theorem lt_stepBehind (cursor eo : Nat) : cursor < stepBehind cursor eo := by
  rw [stepBehind]
  split <;> omega

theorem drop_stepBehind (cursor eo : Nat) :
    text.drop (stepBehind cursor eo) = after (text.drop cursor) eo := by
  rw [stepBehind, after]
  split
  · next start => rw [start, drop_drop, add_zero]
  · rw [drop_drop]

theorem stepBehind_le (inside : text.drop cursor ≠ []) (ends : eo ≤ (text.drop cursor).length) :
    stepBehind cursor eo ≤ text.length := by
  have left := length_pos_iff.2 inside
  rw [length_drop] at left ends
  rw [stepBehind]
  split <;> omega

end BlockFacts

section LoopFacts
variable {heap : Nat → Bool} {re : Matcher UInt8} {text s : List UInt8}

def appendAll (heap : Nat → Bool) (arr : RegexVec) (parts : List (List UInt8)) :
    Option RegexVec :=
  (pushAll heap arr.slots parts).map fun slots => ⟨slots, arr.lens ++ parts.map List.length⟩

variable (arr : RegexVec)

theorem appendAll_nil : appendAll heap arr [] = some arr := by
  rw [appendAll, pushAll, map_some, map_nil, append_nil]

theorem appendAll_cons (part : List UInt8) (parts : List (List UInt8)) :
    appendAll heap arr (part :: parts) =
      (arr.add heap part part.length).bind fun arr => appendAll heap arr parts := by
  rw [appendAll, pushAll, RegexVec.add]
  cases arr.slots.push heap part with
  | none => rfl
  | some slots =>
    rw [bind_some, map_some, bind_some, appendAll, map_cons, append_assoc, singleton_append]

/-- Both loops on the text that is left: `piece` is what a turn adds, `last` what is added
where the text ends behind a match. -/
def collect (heap : Nat → Bool) (re : Matcher UInt8) (keep : Nat × Nat → Bool)
    (piece : List UInt8 → Nat × Nat → List UInt8) (last : List (List UInt8))
    (s : List UInt8) (arr : RegexVec) : Option (List UInt8 × RegexVec) :=
  match re.run (visible 0 s) with
  | none => some (s, arr)
  | some range =>
    if _ended : s = [] then none
    else if keep range then
      (arr.add heap (piece s range) (piece s range).length).bind fun arr =>
        if visible 0 (after s range.2) = [] then
          (appendAll heap arr last).map fun arr => (after s range.2, arr)
        else collect heap re keep piece last (after s range.2) arr
    else collect heap re keep piece last (after s range.2) arr
termination_by s.length
decreasing_by
  · exact length_after_lt _ended _
  · exact length_after_lt _ended _

variable {keep : Nat × Nat → Bool} {piece : List UInt8 → Nat × Nat → List UInt8}
  {last : List (List UInt8)} {arr : RegexVec}

theorem collect_none (absent : re.run (visible 0 s) = none) :
    collect heap re keep piece last s arr = some (s, arr) := by
  rw [collect, absent]

variable {range : Nat × Nat}

theorem collect_some (here : re.run (visible 0 s) = some range) :
    collect heap re keep piece last s arr =
      if s = [] then none
      else if keep range then
        (arr.add heap (piece s range) (piece s range).length).bind fun arr =>
          if visible 0 (after s range.2) = [] then
            (appendAll heap arr last).map fun arr => (after s range.2, arr)
          else collect heap re keep piece last (after s range.2) arr
      else collect heap re keep piece last (after s range.2) arr := by
  rw [collect, here]
  simp only [dite_eq_ite]

theorem collect_past (reached : ∃ range, ([], range) ∈ searches 0 re keep s) :
    collect heap re keep piece last s arr = none := by
  induction s using search_induction generalizing arr with
  | step s ih =>
    obtain ⟨range, member⟩ := reached
    cases here : re.run (visible 0 s) with
    | none =>
      rw [searches_none here] at member
      exact absurd member not_mem_nil
    | some found =>
      rw [collect_some here]
      by_cases ended : s = []
      · rw [if_pos ended]
      · rw [if_neg ended]
        have later (onward : keep found = true → visible 0 (after s found.2) ≠ [])
            (arr : RegexVec) :
            collect heap re keep piece last (after s found.2) arr = none := by
          rw [searches_more here ended onward] at member
          rcases mem_cons.1 member with same | member
          · exact absurd (congrArg Prod.fst same).symm ended
          · exact ih ended found.2 ⟨range, member⟩
        split
        · next kept =>
            by_cases unseen : visible 0 (after s found.2) = []
            · rw [searches_last here (.inr ⟨kept, unseen⟩)] at member
              exact absurd (congrArg Prod.fst (mem_singleton.1 member)).symm ended
            · simp only [if_neg unseen, later fun _ => unseen, bind_fun_none]
        · next refused => exact later (fun kept => absurd kept refused) arr

theorem collect_inside (keep : Nat × Nat → Bool) (piece : List UInt8 → Nat × Nat → List UInt8)
    (last : List (List UInt8)) (ahead : ¬∃ range, ([], range) ∈ searches 0 re keep s) :
    ∃ rest parts, (∀ arr, collect heap re keep piece last s arr =
        (appendAll heap arr parts).map fun arr => (rest, arr)) ∧
      (parts.length ≤ (searches 0 re keep s).length ∨ visible 0 rest = [] ∧ parts ≠ [] ∧
          parts.length ≤ (searches 0 re keep s).length + last.length) := by
  induction s using search_induction with
  | step s ih =>
    cases here : re.run (visible 0 s) with
    | none =>
      refine ⟨s, [], fun arr => ?_, .inl (Nat.zero_le _)⟩
      rw [collect_none here, appendAll_nil, map_some]
    | some found =>
      have present : s ≠ [] := by
        rintro rfl
        apply ahead
        rw [searches_last here (.inl rfl)]
        exact ⟨found, mem_singleton_self _⟩
      by_cases onward : keep found = true → visible 0 (after s found.2) ≠ []
      · rw [searches_more here present onward] at ahead ⊢
        obtain ⟨rest, parts, run, counted⟩ := ih present found.2 fun ⟨range, member⟩ =>
          ahead ⟨range, .tail _ member⟩
        rw [length_cons]
        cases kept : keep found with
        | true =>
          refine ⟨rest, piece s found :: parts, fun arr => ?_, ?_⟩
          · rw [collect_some here, if_neg present, if_pos kept, appendAll_cons, Option.map_bind]
            simp only [if_neg (onward kept), run]
            rfl
          · rw [length_cons]
            rcases counted with few | ⟨unseen, _, few⟩
            · exact .inl (by omega)
            · exact .inr ⟨unseen, cons_ne_nil _ _, by omega⟩
        | false =>
          refine ⟨rest, parts, fun arr => ?_, ?_⟩
          · rw [collect_some here, if_neg present, if_neg (by rw [kept]; nofun), run]
          · rcases counted with few | ⟨unseen, some, few⟩
            · exact .inl (by omega)
            · exact .inr ⟨unseen, some, by omega⟩
      · rw [Classical.not_imp, not_not] at onward
        obtain ⟨kept, unseen⟩ := onward
        rw [searches_last here (.inr ⟨kept, unseen⟩)]
        refine ⟨after s found.2, piece s found :: last, fun arr => ?_,
          .inr ⟨unseen, cons_ne_nil _ _, ?_⟩⟩
        · rw [collect_some here, if_neg present, if_pos kept, appendAll_cons, Option.map_bind]
          simp only [if_pos unseen]
          rfl
        · rw [length_cons, length_singleton]
          omega

theorem length_seen_le (text : List UInt8) (cursor : Nat) :
    (visible 0 (text.drop cursor)).length ≤ text.length - cursor := by
  rw [← length_drop]
  exact length_visible_le 0 _

variable {cursor : Nat}

theorem range_bytes {so eo : Nat} (inside : cursor ≤ text.length)
    (ends : eo ≤ (visible 0 (text.drop cursor)).length) :
    ((text ++ [0]).drop (cursor + so)).take (eo - so) =
      ((visible 0 (text.drop cursor)).take eo).drop so := by
  have front : visible 0 (text.drop cursor) <+: text.drop cursor ++ [0] :=
    (List.takeWhile_prefix _).trans (prefix_append _ _)
  have taken : (text.drop cursor ++ [0]).take eo = (visible 0 (text.drop cursor)).take eo := by
    obtain ⟨rest, whole⟩ := front
    rw [← whole, take_append_of_le_length ends]
  rw [← taken, drop_take, ← drop_drop, drop_append_of_le_length inside]

variable (small : text.length + 1 < 2 ^ 63)
include small

theorem copy_range {so eo : Nat} (inside : cursor ≤ text.length) (order : so ≤ eo)
    (ends : eo ≤ (visible 0 (text.drop cursor)).length) (served : heap (eo - so + 1) = true) :
    copyOf heap (text ++ [0]) (cursor + so) (eo - so) =
      some ⟨((visible 0 (text.drop cursor)).take eo).drop so, eo - so⟩ := by
  have seen := length_seen_le text cursor
  have length_eq : (((visible 0 (text.drop cursor)).take eo).drop so).length = eo - so := by
    rw [length_drop, length_take, Nat.min_eq_left ends]
  have long : (text ++ [0]).length = text.length + 1 := by
    rw [length_append, length_singleton]
  rw [copyOf_eq heap (by omega) (by omega), range_bytes inside ends,
    storeText_fits (by omega) (by rwa [length_eq]), length_eq]

def keepMatch (heap : Nat → Bool) (range : Nat × Nat) : Bool := heap (range.2 - range.1 + 1)

def matchOf (s : List UInt8) (range : Nat × Nat) : List UInt8 :=
  ((visible 0 s).take range.2).drop range.1

def keepPart (heap : Nat → Bool) (range : Nat × Nat) : Bool := heap (range.1 + 1)

def partOf (s : List UInt8) (range : Nat × Nat) : List UInt8 := (visible 0 s).take range.1

omit small in
theorem findAllLoop_outside (outside : text.length < cursor) (turns : Nat)
    (arr : RegexVec) : findAllLoop heap re (text ++ [0]) turns cursor arr = none := by
  cases turns with
  | zero => rfl
  | succ turns =>
    rw [findAllLoop, regexec_outside re outside]
    rfl

theorem findAllLoop_turn
    (inside : cursor ≤ text.length) (here : re.run (visible 0 (text.drop cursor)) = some range)
    (turns : Nat) (arr : RegexVec) : findAllLoop heap re (text ++ [0]) (turns + 1) cursor arr =
      if keepMatch heap range then
        (arr.add heap (matchOf (text.drop cursor) range)
            (matchOf (text.drop cursor) range).length).bind fun arr =>
          (load (text ++ [0]) (stepBehind cursor range.2)).bind fun byte =>
            if byte = 0 then some arr
            else findAllLoop heap re (text ++ [0]) turns (stepBehind cursor range.2) arr
      else findAllLoop heap re (text ++ [0]) turns (stepBehind cursor range.2) arr := by
  obtain ⟨so, eo⟩ := range
  have bounds := re.inside here
  have seen := length_seen_le text cursor
  have request : sizeT (subT eo so + 1) = eo - so + 1 := by
    rw [subT_of_le bounds.1, sizeT_of_lt (by omega)]
  have length_eq : (matchOf (text.drop cursor) (so, eo)).length = eo - so := by
    rw [matchOf, length_drop, length_take, Nat.min_eq_left bounds.2]
  have keep_eq : keepMatch heap (so, eo) = heap (eo - so + 1) := rfl
  rw [findAllLoop, regexec_inside re inside, here]
  dsimp only [bind_eq_bind, bind_some]
  rw [request, subT_of_le bounds.1, stepOver_eq, length_eq, keep_eq]
  by_cases served : heap (eo - so + 1) = true
  · rw [if_pos served, if_pos served, copy_range small inside bounds.1 bounds.2 served]
    rfl
  · rw [if_neg served, if_neg served]

omit small in
theorem load_next (present : text.drop cursor ≠ [])
    (here : re.run (visible 0 (text.drop cursor)) = some range) :
    stepBehind cursor range.2 ≤ text.length ∧
      ∃ byte, load (text ++ [0]) (stepBehind cursor range.2) = some byte ∧
        (byte = 0 ↔ visible 0 (after (text.drop cursor) range.2) = []) := by
  have ends := le_trans (re.inside here).2 (length_visible_le 0 _)
  have inside := stepBehind_le present ends
  refine ⟨inside, _, load_inside_block inside, ?_⟩
  rw [drop_stepBehind]
  exact headD_eq_iff

theorem findAllLoop_eq (turns cursor : Nat) (arr : RegexVec)
    (inside : cursor ≤ text.length) (enough : text.length < cursor + turns) :
    findAllLoop heap re (text ++ [0]) turns cursor arr =
      (collect heap re (keepMatch heap) matchOf [] (text.drop cursor) arr).map Prod.snd := by
  induction turns generalizing cursor arr with
  | zero => omega
  | succ turns ih =>
    cases here : re.run (visible 0 (text.drop cursor)) with
    | none =>
      rw [findAllLoop, regexec_inside re inside, here, collect_none here]
      rfl
    | some range =>
      have onward := lt_stepBehind cursor range.2
      rw [findAllLoop_turn small inside here, collect_some here]
      by_cases ended : text.drop cursor = []
      · -- the cursor is at the terminator, and the step goes behind it
        have last : text.length ≤ cursor := drop_eq_nil_iff.1 ended
        have outside : text.length < stepBehind cursor range.2 := by omega
        rw [if_pos ended, findAllLoop_outside outside]
        simp only [load_outside_block outside, bind_none, bind_fun_none, ite_self, map_none]
      · obtain ⟨within, byte, read, zero_iff⟩ := load_next ended here
        have rest (arr : RegexVec) := ih (stepBehind cursor range.2) arr within (by omega)
        rw [drop_stepBehind] at rest
        rw [if_neg ended]
        simp only [read, bind_some, zero_iff, rest, appendAll_nil, map_some]
        split
        · rw [Option.map_bind]
          congr 1
          funext arr
          dsimp only [Function.comp]
          split <;> rfl
        · rfl

omit small in
theorem splitLoop_outside (outside : text.length < cursor) (turns : Nat)
    (arr : RegexVec) : splitLoop heap re (text ++ [0]) turns cursor arr = none := by
  cases turns with
  | zero => rfl
  | succ turns =>
    rw [splitLoop, regexec_outside re outside]
    rfl

theorem splitLoop_turn
    (inside : cursor ≤ text.length) (here : re.run (visible 0 (text.drop cursor)) = some range)
    (turns : Nat) (arr : RegexVec) : splitLoop heap re (text ++ [0]) (turns + 1) cursor arr =
      if keepPart heap range then
        (arr.add heap (partOf (text.drop cursor) range)
            (partOf (text.drop cursor) range).length).bind fun arr =>
          (load (text ++ [0]) (stepBehind cursor range.2)).bind fun byte =>
            if byte = 0 then
              (arr.add heap [] 0).map fun arr => (stepBehind cursor range.2, arr)
            else splitLoop heap re (text ++ [0]) turns (stepBehind cursor range.2) arr
      else splitLoop heap re (text ++ [0]) turns (stepBehind cursor range.2) arr := by
  obtain ⟨so, eo⟩ := range
  have bounds := re.inside here
  have within := le_trans bounds.1 bounds.2
  have seen := length_seen_le text cursor
  have request : sizeT (so + 1) = so + 1 := sizeT_of_lt (by omega)
  have length_eq : (partOf (text.drop cursor) (so, eo)).length = so := by
    rw [partOf, length_take, Nat.min_eq_left within]
  have keep_eq : keepPart heap (so, eo) = heap (so + 1) := rfl
  rw [splitLoop, regexec_inside re inside, here]
  dsimp only [bind_eq_bind, bind_some]
  rw [request, stepOver_eq, length_eq, keep_eq]
  by_cases served : heap (so + 1) = true
  · have copied := copy_range small inside (Nat.zero_le so) within served
    rw [Nat.add_zero, Nat.sub_zero, drop_zero] at copied
    rw [if_pos served, if_pos served, copied]
    simp only [bind_some, partOf, map_eq_bind]
    rfl
  · rw [if_neg served, if_neg served]

def addRest (heap : Nat → Bool) (rest : List UInt8) (arr : RegexVec) : Option RegexVec :=
  if visible 0 rest ≠ [] ∨ arr.slots.parts.length = 0 then
    arr.add heap (if heap ((visible 0 rest).length + 1) then visible 0 rest else [])
      (visible 0 rest).length
  else some arr

theorem addRemaining_eq (inside : cursor ≤ text.length) (arr : RegexVec) :
    addRemaining heap (text ++ [0]) (cursor, arr) = addRest heap (text.drop cursor) arr := by
  have seen := length_seen_le text cursor
  have request : sizeT ((visible 0 (text.drop cursor)).length + 1) =
      (visible 0 (text.drop cursor)).length + 1 := sizeT_of_lt (by omega)
  rw [addRemaining, load_inside_block inside, cstring_inside inside, addRest]
  simp only [bind_eq_bind, bind_some, ne_eq, headD_eq_iff, request]
  split
  · split
    · next served =>
        have copied := copy_range small inside (Nat.zero_le _) (Nat.le_refl _) served
        rw [Nat.add_zero, Nat.sub_zero, drop_zero, take_length] at copied
        rw [copied]
        rfl
    · rfl
  · rfl

theorem splitLoop_eq (turns cursor : Nat) (arr : RegexVec)
    (inside : cursor ≤ text.length) (enough : text.length < cursor + turns) :
    (splitLoop heap re (text ++ [0]) turns cursor arr).bind (addRemaining heap (text ++ [0])) =
      (collect heap re (keepPart heap) partOf [[]] (text.drop cursor) arr).bind
        fun exit => addRest heap exit.1 exit.2 := by
  induction turns generalizing cursor arr with
  | zero => omega
  | succ turns ih =>
    cases here : re.run (visible 0 (text.drop cursor)) with
    | none =>
      rw [splitLoop, regexec_inside re inside, here, collect_none here]
      exact addRemaining_eq small inside arr
    | some range =>
      have onward := lt_stepBehind cursor range.2
      rw [splitLoop_turn small inside here, collect_some here]
      by_cases ended : text.drop cursor = []
      · have last : text.length ≤ cursor := drop_eq_nil_iff.1 ended
        have outside : text.length < stepBehind cursor range.2 := by omega
        rw [if_pos ended, splitLoop_outside outside]
        simp only [load_outside_block outside, bind_none, bind_fun_none, ite_self]
      · obtain ⟨within, byte, read, zero_iff⟩ := load_next ended here
        have rest (arr : RegexVec) := ih (stepBehind cursor range.2) arr within (by omega)
        have stop (arr : RegexVec) :
            addRemaining heap (text ++ [0]) (stepBehind cursor range.2, arr) =
              addRest heap (text.drop (stepBehind cursor range.2)) arr :=
          addRemaining_eq small within arr
        rw [drop_stepBehind] at rest stop
        rw [if_neg ended]
        simp only [read, bind_some, zero_iff]
        by_cases served : keepPart heap range = true
        · rw [if_pos served, if_pos served, bind_assoc, bind_assoc]
          congr 1
          funext arr
          by_cases unseen : visible 0 (after (text.drop cursor) range.2) = []
          · rw [if_pos unseen, if_pos unseen, appendAll_cons]
            simp only [appendAll_nil, bind_fun_some, bind_map, length_nil]
            congr 1
            funext arr
            exact stop arr
          · rw [if_neg unseen, if_neg unseen, rest]
        · rw [if_neg served, if_neg served, rest]

end LoopFacts

section ArrayFacts
variable {heap : Nat → Bool}

theorem served_mono {few many : Nat} (le : few ≤ many) (served : ArrayServed heap many) :
    ArrayServed heap few := by
  rintro doublings (first | less)
  · exact served doublings (.inl first)
  · exact served doublings (.inr (by omega))

theorem pushAll_append (arr : PartArray) (front back : List (List UInt8)) :
    pushAll heap arr (front ++ back) =
      (pushAll heap arr front).bind fun arr => pushAll heap arr back := by
  induction front generalizing arr with
  | nil => rfl
  | cons part front ih =>
    rw [cons_append, pushAll, pushAll, bind_assoc]
    congr 1
    funext next
    exact ih next

def initial : RegexVec := ⟨⟨[], 8, 8 * elemSize⟩, []⟩

variable (limit : ∀ bytes, heap bytes = true → bytes < 2 ^ 63)
include limit

theorem appendAll_fits {parts} (served : ArrayServed heap parts.length) :
    ∃ arr, appendAll heap initial parts = some arr ∧ arr.slots.parts = parts ∧
      arr.lens = parts.map List.length := by
  have few := few_of_served limit served
  have start : Doubled 0 initial.slots := ⟨by omega, rfl, rfl, Nat.zero_le _⟩
  have none : initial.slots.parts.length = 0 := rfl
  obtain ⟨slots, run, collected⟩ :=
    pushAll_fits parts start (by rw [none]; omega) (by rwa [none, zero_add])
  refine ⟨⟨slots, initial.lens ++ parts.map List.length⟩, ?_, collected, rfl⟩
  rw [appendAll, run, map_some]

theorem appendAll_room {parts}
    (served : ArrayServed heap (parts.length + 1)) (ptr : List UInt8) (len : Nat) :
    ∃ arr, appendAll heap initial parts = some arr ∧ arr.slots.parts = parts ∧
      (arr.add heap ptr len).isSome := by
  obtain ⟨arr, run, collected, _⟩ := appendAll_fits limit (served_mono (Nat.le_succ _) served)
  refine ⟨arr, run, collected, ?_⟩
  obtain ⟨more, whole, _⟩ := @appendAll_fits heap limit (parts ++ [ptr]) (by
    rwa [length_append, length_singleton])
  rw [appendAll, pushAll_append] at whole
  rw [appendAll, map_eq_some_iff] at run
  obtain ⟨slots, pushed, rfl⟩ := run
  rw [pushed, bind_some, pushAll] at whole
  rw [RegexVec.add, isSome_map]
  cases last : slots.push heap ptr with
  | none =>
    rw [last] at whole
    cases whole
  | some next => rfl

end ArrayFacts

section Cursor

def EndsKept (re : Matcher UInt8) (keep : Nat × Nat → Bool) (text : List UInt8) : Prop :=
  ∀ step ∈ searches 0 re keep text, after step.1 step.2.2 = [] → keep step.2 = true

/-- malloc serves what neither function asks about: the copies of pattern and text, and the
array with its growth. It serves nothing above PTRDIFF_MAX. -/
structure LoopsServed (heap : Nat → Bool) (regcomp : List UInt8 → Option (Matcher UInt8))
    (text pat : List UInt8) : Prop where
  limit : ∀ bytes, heap bytes = true → bytes < 2 ^ 63
  pattern : heap (pat.length + 1) = true
  copy : heap (text.length + 1) = true
  found : ∀ re, regcomp (visible 0 pat) = some re →
    ArrayServed heap (searches 0 re (keepMatch heap) text).length
  parts : ∀ re, regcomp (visible 0 pat) = some re →
    ArrayServed heap ((searches 0 re (keepPart heap) text).length + 1)

def CursorInside (heap : Nat → Bool) (regcomp : List UInt8 → Option (Matcher UInt8))
    (text pat : List UInt8) : Prop :=
  (lucisRegexFindAll heap regcomp text pat).isSome ∧ (lucisRegexSplit heap regcomp text pat).isSome

variable {heap : Nat → Bool} {regcomp : List UInt8 → Option (Matcher UInt8)}
  {re : Matcher UInt8} {text pat : List UInt8}

variable (limit : ∀ bytes, heap bytes = true → bytes < 2 ^ 63)
include limit

theorem duplicate_served {s : List UInt8}
    (served : heap (s.length + 1) = true) : duplicate heap s = some (s ++ [0]) := by
  have small := limit _ served
  have copied := copyOf_eq heap (le_of_eq (zero_add s.length)) (by omega)
  rw [drop_zero, take_length, storeText_fits (by omega) served] at copied
  rw [duplicate, copied, map_some]

theorem findAll_eq (pattern : heap (pat.length + 1) = true) (copy : heap (text.length + 1) = true)
    (array : heap (sizeT (8 * elemSize)) = true) (compiled : regcomp (visible 0 pat) = some re) :
    lucisRegexFindAll heap regcomp text pat =
      (collect heap re (keepMatch heap) matchOf [] text initial).map Prod.snd := by
  rw [lucisRegexFindAll, duplicate_served limit pattern, duplicate_served limit copy]
  simp only [bind_eq_bind, bind_some, visible_terminated, compiled, allocate, if_pos array]
  exact findAllLoop_eq (limit _ copy) _ 0 _ (Nat.zero_le _) (by omega)

theorem split_eq (pattern : heap (pat.length + 1) = true) (copy : heap (text.length + 1) = true)
    (array : heap (sizeT (8 * elemSize)) = true) (compiled : regcomp (visible 0 pat) = some re) :
    lucisRegexSplit heap regcomp text pat =
      (collect heap re (keepPart heap) partOf [[]] text initial).bind
        fun exit => addRest heap exit.1 exit.2 := by
  rw [lucisRegexSplit, duplicate_served limit pattern, duplicate_served limit copy]
  simp only [bind_eq_bind, bind_some, visible_terminated, compiled, allocate, if_pos array]
  exact splitLoop_eq (limit _ copy) _ 0 _ (Nat.zero_le _) (by omega)

omit limit

theorem findAll_isSome_iff (served : LoopsServed heap regcomp text pat)
    (compiled : regcomp (visible 0 pat) = some re) :
    (lucisRegexFindAll heap regcomp text pat).isSome ↔
      ¬∃ range, ([], range) ∈ searches 0 re (keepMatch heap) text := by
  rw [findAll_eq served.limit served.pattern served.copy
    (served.found re compiled 0 (.inl rfl)) compiled, isSome_map]
  by_cases reached : ∃ range, ([], range) ∈ searches 0 re (keepMatch heap) text
  · rw [collect_past reached]
    exact iff_of_false (by simp) (not_not_intro reached)
  · obtain ⟨rest, parts, run, counted⟩ :=
      @collect_inside heap re text (keepMatch heap) matchOf [] reached
    have few : parts.length ≤ (searches 0 re (keepMatch heap) text).length := by
      rcases counted with few | ⟨_, _, few⟩
      · exact few
      · exact few
    obtain ⟨arr, added, _⟩ :=
      appendAll_fits served.limit (served_mono few (served.found re compiled))
    rw [run, added]
    exact iff_of_true rfl reached

theorem split_isSome_iff (served : LoopsServed heap regcomp text pat)
    (compiled : regcomp (visible 0 pat) = some re) :
    (lucisRegexSplit heap regcomp text pat).isSome ↔
      ¬∃ range, ([], range) ∈ searches 0 re (keepPart heap) text := by
  rw [split_eq served.limit served.pattern served.copy
    (served.parts re compiled 0 (.inl rfl)) compiled]
  by_cases reached : ∃ range, ([], range) ∈ searches 0 re (keepPart heap) text
  · rw [collect_past reached]
    exact iff_of_false (by simp) (not_not_intro reached)
  · obtain ⟨rest, parts, run, counted⟩ :=
      @collect_inside heap re text (keepPart heap) partOf [[]] reached
    have array := served.parts re compiled
    refine iff_of_true ?_ reached
    rw [run]
    rcases counted with few | ⟨unseen, some, few⟩
    · obtain ⟨arr, added, _, room⟩ := appendAll_room served.limit
        (served_mono (Nat.succ_le_succ few) array)
        (if heap ((visible 0 rest).length + 1) then visible 0 rest else []) (visible 0 rest).length
      rw [added, map_some, bind_some, addRest]
      split
      · exact room
      · rfl
    · -- the loop broke off at a terminator, and nothing remains
      obtain ⟨arr, added, collected, _⟩ :=
        appendAll_fits served.limit (served_mono few array)
      have counted : ¬(visible 0 rest ≠ [] ∨ arr.slots.parts.length = 0) := by
        rw [collected]
        rintro (left | none)
        · exact left unseen
        · exact some (length_eq_zero_iff.1 none)
      rw [added, map_some, bind_some, addRest, if_neg counted]
      rfl

theorem no_end_iff {keep} : (¬∃ range, ([], range) ∈ searches 0 re keep text) ↔
      re.run [] = none ∨ text ≠ [] ∧ EndsKept re keep text := by
  rw [search_end_iff, not_and_or, not_not, not_or]
  refine or_congr_right (and_congr_right fun _ => ?_)
  constructor
  · intro nowhere step member ended
    by_contra refused
    exact nowhere ⟨step, member, Bool.eq_false_iff.2 refused, ended⟩
  · rintro kept ⟨step, member, refused, ended⟩
    rw [kept step member ended] at refused
    cases refused

theorem wholeText_isSome (small : text.length + 1 < 2 ^ 63) : (wholeText heap text).isSome := by
  rw [wholeText]
  split
  · next both =>
      have request := both.2
      rw [sizeT_of_lt (by omega)] at request
      have copied := copyOf_eq heap (le_of_eq (zero_add text.length)) (by omega)
      rw [drop_zero, take_length, storeText_fits (by omega) request] at copied
      rw [copied]
      rfl
  · rfl

/-- The cursor stays inside exactly when the pattern, if it compiles, does not match the empty
text, or the text is not empty and every match that ends it is kept. -/
theorem cursor_inside_iff (heap : Nat → Bool) (regcomp : List UInt8 → Option (Matcher UInt8))
    (text pat : Bytes) (served : LoopsServed heap regcomp text.data pat.data) :
    CursorInside heap regcomp text.data pat.data ↔
      ∀ re, regcomp (visible 0 pat.data) = some re → re.run [] = none ∨
        text.data ≠ [] ∧ EndsKept re (keepMatch heap) text.data ∧
          EndsKept re (keepPart heap) text.data := by
  rw [CursorInside]
  cases compiled : regcomp (visible 0 pat.data) with
  | none =>
    refine iff_of_true ⟨?_, ?_⟩ (fun _ impossible => absurd impossible (by nofun))
    · rw [lucisRegexFindAll, duplicate_served served.limit served.pattern,
        duplicate_served served.limit served.copy]
      simp only [bind_eq_bind, bind_some, visible_terminated, compiled]
      rfl
    · rw [lucisRegexSplit, duplicate_served served.limit served.pattern,
        duplicate_served served.limit served.copy]
      simp only [bind_eq_bind, bind_some, visible_terminated, compiled]
      exact wholeText_isSome (served.limit _ served.copy)
  | some re =>
    rw [findAll_isSome_iff served compiled, split_isSome_iff served compiled, no_end_iff,
      no_end_iff]
    constructor
    · rintro ⟨found, parts⟩ same ⟨⟩
      rcases found with never | ⟨present, kept⟩
      · exact .inl never
      · exact parts.imp_right fun both => ⟨present, kept, both.2⟩
    · intro condition
      rcases condition re rfl with never | ⟨present, kept, keptParts⟩
      · exact ⟨.inl never, .inl never⟩
      · exact ⟨.inr ⟨present, kept⟩, .inr ⟨present, keptParts⟩⟩

def oneByte (c : UInt8) : Matcher UInt8 where
  run s := if s.idxOf c < s.length then some (s.idxOf c, s.idxOf c + 1) else none
  inside := by
    intro s so eo here
    split at here
    · cases here
      omega
    · cases here

def starred (c : UInt8) : Matcher UInt8 where
  run s := some (0, (s.takeWhile (· = c)).length)
  inside := by
    intro s so eo here
    cases here
    exact ⟨Nat.zero_le _, (List.takeWhile_prefix _).length_le⟩

theorem served63_array {count : Nat} (few : count ≤ 4) : ArrayServed served63 count := by
  rintro doublings (rfl | less)
  · decide
  · have positive := Nat.two_pow_pos doublings
    omega

theorem searches_comma (keep : Nat × Nat → Bool) :
    searches 0 (oneByte 44) keep [97, 44, 98] = [([97, 44, 98], 1, 2)] := by
  have first : (oneByte 44).run (visible 0 [97, 44, 98]) = some (1, 2) := by decide
  have second : (oneByte 44).run (visible 0 (after [97, 44, 98] 2)) = none := by decide
  rw [searches_more first (by decide) (fun _ => by decide), searches_none second]

theorem cursor_inside_comma :
    CursorInside served63 (fun _ => some (oneByte 44)) [97, 44, 98] [44] := by
  refine (cursor_inside_iff served63 _ ⟨[97, 44, 98], by decide⟩ ⟨[44], by decide⟩ ?_).mpr ?_
  · exact {
      limit := fun bytes served => of_decide_eq_true served
      pattern := by decide
      copy := by decide
      found := by
        rintro _ ⟨⟩
        rw [searches_comma]
        exact served63_array (by decide)
      parts := by
        rintro _ ⟨⟩
        rw [searches_comma]
        exact served63_array (by decide) }
  · rintro _ ⟨⟩
    exact .inl (by decide)

/-- On the empty text a pattern such as `x*` matches at the terminator, and the cursor goes
behind it in both functions. -/
theorem empty_text_past :
    (lucisRegexFindAll served63 (fun _ => some (starred 120)) [] [120, 42]).isSome = false ∧
      (lucisRegexSplit served63 (fun _ => some (starred 120)) [] [120, 42]).isSome = false ∧
      ¬CursorInside served63 (fun _ => some (starred 120)) [] [120, 42] := by
  have found : (lucisRegexFindAll served63 (fun _ => some (starred 120)) [] [120, 42]).isSome =
      false := by decide
  have parts : (lucisRegexSplit served63 (fun _ => some (starred 120)) [] [120, 42]).isSome =
      false := by decide
  refine ⟨found, parts, fun inside => ?_⟩
  rw [CursorInside, found] at inside
  cases inside.1

end Cursor

end Lucis.Regex
