import Lucis.RegexVec

/-!
regex_replace_impl of regex/regex.c. Sizes are computed in size_t, as in the source; a store
outside the buffer and a read outside the copied text are faults (`none`). What malloc or
realloc refuses makes the call return nothing, which is an answer and no fault.
-/

namespace Lucis.Regex

open Memory List Option
open SubstringSearch
open Matching

section Model

/-- `lucis_regex_str_result`; the pointer is NULL where nothing is returned. -/
structure RegexStr where
  ptr : Option (List UInt8)
  len : Nat
  deriving DecidableEq

/-- `{NULL, 0}` -/
def RegexStr.empty : RegexStr := ⟨none, 0⟩

/-- `make_cstr`: NULL (`some none`) where malloc refuses. -/
def makeCstr (heap : Nat → Bool) (s : List UInt8) : Option (Option (List UInt8)) :=
  if heap (sizeT (s.length + 1)) then (duplicate heap s).map some else some none

theorem cut_within (buf : OutBlock) (size : Nat) : (buf.written.take size).length ≤ size :=
  length_take_le size buf.written

/-- `realloc(buf, size)`, which keeps what fits; `none` is NULL. -/
def realloc (heap : Nat → Bool) (buf : OutBlock) (size : Nat) : Option OutBlock :=
  if heap size then some ⟨size, buf.written.take size, cut_within buf size⟩ else none

/-- `if (needed > cap) {..}`, where `cap` is the size of the block. -/
def ensure (heap : Nat → Bool) (needed cap : Nat) (buf : OutBlock) : Option OutBlock :=
  if buf.size < needed then realloc heap buf cap else some buf

/-- `memcpy(buf + pos, ..)`. Only a block that realloc made too small does not reach to `pos`. -/
def putAt (buf : OutBlock) (pos : Nat) (bytes : List UInt8) : Option OutBlock :=
  if pos = buf.written.length then buf.putAll bytes else none

structure ReplaceState where
  buf : OutBlock
  pos : Nat
  cursor : Nat
  remaining : Nat

/-- The body of the loop for one match: whether the loop goes on, and the state it leaves;
`some none` where realloc refused. -/
def replaceTurn (heap : Nat → Bool) (ctext rep : List UInt8) (all : Bool) (so eo : Nat)
    (st : ReplaceState) : Option (Option (Bool × ReplaceState)) :=
  let before := so
  let mlen := subT eo so
  let needed := sizeT (st.pos + before + rep.length + st.remaining + 1)
  match ensure heap needed (sizeT (needed * 2)) st.buf with
  | none => some none
  | some buf => do
      let buf ← putAt buf st.pos (← slice ctext st.cursor before)
      let pos := sizeT (st.pos + before)
      let buf ← putAt buf pos rep
      let pos := sizeT (pos + rep.length)
      let cursor := st.cursor + eo
      let remaining := subT st.remaining eo
      if mlen = 0 then
        if 0 < remaining then
          let buf ← putAt buf pos [← load ctext cursor]
          some (some (all, ⟨buf, sizeT (pos + 1), cursor + 1, remaining - 1⟩))
        else some (some (false, ⟨buf, pos, cursor, remaining⟩))
      else some (some (all, ⟨buf, pos, cursor, remaining⟩))

def replaceLoop (heap : Nat → Bool) (re : Matcher UInt8) (ctext rep : List UInt8) (all : Bool) :
    Nat → ReplaceState → Option (Option ReplaceState)
  | 0, _ => none
  | turns + 1, st => do
      match ← regexec re ctext st.cursor with
      | none => some (some st)
      | some (so, eo) =>
        match ← replaceTurn heap ctext rep all so eo st with
        | none => some none
        | some (true, st) => replaceLoop heap re ctext rep all turns st
        | some (false, st) => some (some st)

/-- "Copy into tracked memory"; a block that malloc refuses leaves the buffer as it is. -/
def track (heap : Nat → Bool) (buf : OutBlock) (pos : Nat) : Option RegexStr :=
  match malloc heap pos with
  | none => some ⟨some buf.written, pos⟩
  | some tracked => do
      let tracked ← tracked.putAll (← slice buf.written 0 pos)
      some ⟨some tracked.written, pos⟩

def finishReplace (heap : Nat → Bool) (ctext : List UInt8) (st : ReplaceState) :
    Option RegexStr :=
  if 0 < st.remaining then
    let needed := sizeT (st.pos + st.remaining)
    match ensure heap needed needed st.buf with
    | none => some .empty
    | some buf => do
        let buf ← putAt buf st.pos (← slice ctext st.cursor st.remaining)
        track heap buf (sizeT (st.pos + st.remaining))
  else track heap st.buf st.pos

def regexReplaceImpl (heap : Nat → Bool) (regcomp : List UInt8 → Option (Matcher UInt8))
    (text pat rep : List UInt8) (all : Bool) : Option RegexStr := do
  match ← makeCstr heap text, ← makeCstr heap pat with
  | some ctext, some cpat =>
    match regcomp (visible 0 cpat) with
    | none => some .empty
    | some re =>
      let cap := sizeT (text.length + sizeT (rep.length * 4) + 64)
      match malloc heap cap with
      | none => some .empty
      | some buf => do
          match ← replaceLoop heap re ctext rep all (text.length + 1)
            ⟨buf, 0, 0, text.length⟩ with
          | none => some .empty
          | some st => finishReplace heap ctext st
  | _, _ => some .empty

end Model

section Turn
variable {heap : Nat → Bool} {text rep done rest : List UInt8} {st : ReplaceState}

/-- `done` is written and `rest` is left of the text. -/
structure Progress (text done rest : List UInt8) (st : ReplaceState) : Prop where
  written_eq : st.buf.written = done
  pos_eq : st.pos = done.length
  inside : st.cursor ≤ text.length
  rest_eq : text.drop st.cursor = rest
  remaining_eq : st.remaining = rest.length

theorem ensure_cases (heap : Nat → Bool) {needed cap : Nat} (buf : OutBlock)
    (enough : needed ≤ cap) : ensure heap needed cap buf = none ∧ heap cap = false ∨
      ∃ next, ensure heap needed cap buf = some next ∧ next.written = buf.written ∧
        needed ≤ next.size := by
  rw [ensure]
  by_cases full : buf.size < needed
  · rw [if_pos full, realloc]
    cases served : heap cap with
    | false => exact .inl ⟨if_neg (by simp), rfl⟩
    | true =>
      have kept : buf.written.take cap = buf.written :=
        take_of_length_le (by have := buf.within; omega)
      exact .inr ⟨_, if_pos rfl, kept, enough⟩
  · rw [if_neg full]
    exact .inr ⟨buf, rfl, rfl, Nat.not_lt.1 full⟩

theorem putAt_fits {buf : OutBlock} {pos : Nat} {bytes : List UInt8}
    (here : pos = buf.written.length) (room : pos + bytes.length ≤ buf.size) :
    ∃ next, putAt buf pos bytes = some next ∧ next.size = buf.size ∧
      next.written = buf.written ++ bytes := by
  obtain ⟨next, stored, size_eq, written_eq⟩ := putAll_fits bytes buf (by rwa [← here])
  exact ⟨next, by rw [putAt, if_pos here, stored], size_eq, written_eq⟩

theorem slice_copy {text : List UInt8} {cursor len : Nat} (inside : cursor ≤ text.length)
    (ends : len ≤ (text.drop cursor).length) :
    slice (text ++ [0]) cursor len = some ((text.drop cursor).take len) := by
  rw [length_drop] at ends
  have within : cursor + len ≤ (text ++ [0]).length := by
    rw [length_append]
    omega
  rw [slice, if_pos within, drop_append_of_le_length inside,
    take_append_of_le_length (by rwa [length_drop])]

theorem turn_writes {buf : OutBlock} {so : Nat} (written_eq : buf.written = done)
    (ends : so ≤ rest.length) (room : done.length + so + rep.length ≤ buf.size) :
    ∃ first second, putAt buf done.length (rest.take so) = some first ∧
      putAt first (done.length + so) rep = some second ∧ second.size = buf.size ∧
      second.written = done ++ (rest.take so ++ rep) ∧
      second.written.length = done.length + so + rep.length := by
  have front_length : (rest.take so).length = so := by
    rw [length_take, Nat.min_eq_left ends]
  obtain ⟨first, stored, size_first, written_first⟩ :=
    @putAt_fits buf done.length (rest.take so) (by rw [written_eq]) (by rw [front_length]; omega)
  have length_first : first.written.length = done.length + so := by
    rw [written_first, written_eq, length_append, front_length]
  obtain ⟨second, stored', size_second, written_second⟩ :=
    @putAt_fits first (done.length + so) rep length_first.symm (by omega)
  refine ⟨first, second, stored, stored', size_second.trans size_first, ?_, ?_⟩
  · rw [written_second, written_first, written_eq, append_assoc]
  · rw [written_second, length_append, length_first]

theorem replaceTurn_does (all : Bool) {so eo : Nat} (progress : Progress text done rest st)
    (order : so ≤ eo) (ends : eo ≤ rest.length)
    (fits : done.length + so + rep.length + rest.length + 1 < 2 ^ 63) :
    replaceTurn heap (text ++ [0]) rep all so eo st = some none ∧
        heap ((done.length + so + rep.length + rest.length + 1) * 2) = false ∨
      ∃ next, replaceTurn heap (text ++ [0]) rep all so eo st =
          some (some (decide (all = true ∧ (so = eo → rest.drop eo ≠ [])), next)) ∧
        Progress text (done ++ ((Cut.of rest so eo).front ++ rep ++ (Cut.of rest so eo).stepped))
          (behind rest so eo) next := by
  obtain ⟨written_eq, pos_eq, inside, rest_eq, remaining_eq⟩ := progress
  have bound : st.cursor + rest.length = text.length := by
    rw [← rest_eq, length_drop]
    omega
  have cursor_le : st.cursor + eo ≤ text.length := by omega
  have dropped : text.drop (st.cursor + eo) = rest.drop eo := by
    rw [← rest_eq, drop_drop]
  have needed_eq : sizeT (st.pos + so + rep.length + st.remaining + 1) =
      done.length + so + rep.length + rest.length + 1 := by
    rw [pos_eq, remaining_eq, sizeT_of_lt (by omega)]
  have twice : sizeT ((done.length + so + rep.length + rest.length + 1) * 2) =
      (done.length + so + rep.length + rest.length + 1) * 2 := sizeT_of_lt (by omega)
  have copied : slice (text ++ [0]) st.cursor so = some (rest.take so) := by
    rw [slice_copy inside (by rw [rest_eq]; omega), rest_eq]
  rw [replaceTurn]
  dsimp only
  rw [needed_eq, twice]
  have more : done.length + so + rep.length + rest.length + 1 ≤
      (done.length + so + rep.length + rest.length + 1) * 2 := by omega
  -- realloc refuses the doubled size, or the block has room for the whole turn
  rcases ensure_cases heap st.buf more with ⟨ensured, refused⟩ | ⟨buf, ensured, kept, room⟩
  · rw [ensured]
    exact .inl ⟨rfl, refused⟩
  · obtain ⟨first, second, stored, stored', size_eq, content, length_eq⟩ :=
      @turn_writes rep done rest buf so (kept.trans written_eq) (by omega) (by omega)
    right
    rw [ensured]
    simp only [bind_eq_bind, bind_some, copied, stored, pos_eq, remaining_eq,
      sizeT_of_lt (show done.length + so < 2 ^ 64 by omega), stored', subT_of_le order,
      sizeT_of_lt (show done.length + so + rep.length < 2 ^ 64 by omega), subT_of_le ends]
    have plain (none : (Cut.of rest so eo).stepped = []) : second.written =
        done ++ ((Cut.of rest so eo).front ++ rep ++ (Cut.of rest so eo).stepped) := by
      rw [none, append_nil, content]
      rfl
    by_cases empty : so = eo
    · rw [if_pos (by omega)]
      by_cases more : rest.drop eo = []
      · -- the match is empty and at the end, where nothing is stepped over
        have last : ¬0 < rest.length - eo := by
          rw [← length_drop, more]
          exact lt_irrefl 0
        have halt : decide (all = true ∧ (so = eo → rest.drop eo ≠ [])) = false :=
          decide_eq_false fun both => both.2 empty more
        have written := plain (by rw [Cut.of, if_pos empty, more, take_nil])
        have rest_behind : behind rest so eo = rest.drop eo := by
          rw [behind, if_pos empty, ← drop_drop, more, drop_nil]
        rw [if_neg last, halt, rest_behind]
        exact ⟨_, rfl, written, by rw [← written, length_eq], cursor_le, dropped,
          by rw [length_drop]⟩
      · have left : 0 < rest.length - eo := by
          rw [← length_drop]
          exact length_pos_iff.2 more
        have go : decide (all = true ∧ (so = eo → rest.drop eo ≠ [])) = all := by
          simp [more]
        have read := load_inside_block cursor_le
        obtain ⟨third, stepped, _, written_third⟩ :=
          @putAt_fits second (done.length + so + rep.length) [(rest.drop eo).headD 0]
            length_eq.symm (by rw [length_singleton]; omega)
        have written : third.written =
            done ++ ((Cut.of rest so eo).front ++ rep ++ (Cut.of rest so eo).stepped) := by
          have single : (Cut.of rest so eo).stepped = [(rest.drop eo).headD 0] := by
            rw [Cut.of, if_pos empty]
            cases ahead : rest.drop eo with
            | nil => exact absurd ahead more
            | cons byte later => rfl
          rw [written_third, content, single, append_assoc]
          rfl
        have rest_behind : behind rest so eo = rest.drop (eo + 1) := if_pos empty
        rw [dropped] at read
        rw [if_pos left, read, bind_some, stepped, bind_some, go, rest_behind,
          sizeT_of_lt (by omega)]
        refine ⟨_, rfl, written, ?_, ?_, ?_, ?_⟩
        · rw [← written, written_third, length_append, length_eq, length_singleton]
        · show st.cursor + eo + 1 ≤ text.length
          omega
        · show text.drop (st.cursor + eo + 1) = _
          rw [← drop_drop, dropped, drop_drop]
        · rw [length_drop]
          exact Nat.sub_sub _ _ _
    · have go : decide (all = true ∧ (so = eo → rest.drop eo ≠ [])) = all := by
        simp [empty]
      have written := plain (by rw [Cut.of, if_neg empty])
      have rest_behind : behind rest so eo = rest.drop eo := if_neg empty
      rw [if_neg (by omega), go, rest_behind]
      exact ⟨_, rfl, written, by rw [← written, length_eq], cursor_le, dropped, by rw [length_drop]⟩

end Turn

section Run
variable {heap : Nat → Bool} {re : Matcher UInt8} {all : Bool} {text rep done rest : List UInt8}
  {st : ReplaceState}

/-- `needed` at a match: the bytes written when the pieces in front of it are, those of its own
piece, the replacement, the text left to search and one more. -/
def neededAt (rep : List UInt8) (done : Nat) (front : List (Cut UInt8)) (cut : Cut UInt8)
    (rest : List UInt8) : Nat :=
  done + (fill (fun _ => rep) front).length + cut.front.length + rep.length + rest.length + 1

/-- At each match, the bytes needed are below 2^63. -/
def Fits (rep : List UInt8) (done : Nat) (pieces : List (Cut UInt8) × List UInt8) : Prop :=
  ∀ front cut back, pieces.1 = front ++ cut :: back →
    neededAt rep done front cut (fill id (cut :: back) ++ pieces.2) < 2 ^ 63

/-- The sizes to which the matches let the buffer grow. -/
def Grown (rep : List UInt8) (done : Nat) (pieces : List (Cut UInt8) × List UInt8) (size : Nat) :
    Prop :=
  ∃ front cut back, pieces.1 = front ++ cut :: back ∧
    size = neededAt rep done front cut (fill id (cut :: back) ++ pieces.2) * 2

def Refused (heap : Nat → Bool) (sizes : Nat → Prop) : Prop := ∃ size, sizes size ∧ heap size = false

theorem neededAt_cons (rep : List UInt8) (done : Nat) (cut next : Cut UInt8)
    (front : List (Cut UInt8)) (rest : List UInt8) : neededAt rep done (cut :: front) next rest =
      neededAt rep (done + (cut.front ++ rep ++ cut.stepped).length) front next rest := by
  rw [neededAt, neededAt, fill_cons, length_append]
  omega

theorem Fits.tail {cut : Cut UInt8} {back} {left : List UInt8} {length : Nat}
    (fits : Fits rep length (cut :: back, left)) :
    Fits rep (length + (cut.front ++ rep ++ cut.stepped).length) (back, left) := by
  intro front next later split
  rw [← neededAt_cons]
  exact fits (cut :: front) next later (congrArg (cut :: ·) split)

theorem Refused.behind {cut : Cut UInt8} {back} {left : List UInt8} {length : Nat}
    (refused : Refused heap (Grown rep (length + (cut.front ++ rep ++ cut.stepped).length)
      (back, left))) : Refused heap (Grown rep length (cut :: back, left)) := by
  obtain ⟨_, ⟨front, next, later, split, rfl⟩, served⟩ := refused
  rw [← neededAt_cons] at served
  exact ⟨_, ⟨cut :: front, next, later, congrArg (cut :: ·) split, rfl⟩, served⟩

theorem replaceLoop_does (turns : Nat) (progress : Progress text done rest st)
    (plain : 0 ∉ rest) (enough : rest.length < turns) (room : done.length + rest.length < 2 ^ 63)
    (fits : Fits rep done.length (cuts re all rest)) :
    replaceLoop heap re (text ++ [0]) rep all turns st = some none ∧
        Refused heap (Grown rep done.length (cuts re all rest)) ∨
      ∃ next, replaceLoop heap re (text ++ [0]) rep all turns st = some (some next) ∧
        Progress text (done ++ fill (fun _ => rep) (cuts re all rest).1) (cuts re all rest).2 next ∧
        (done ++ fill (fun _ => rep) (cuts re all rest).1).length +
          (cuts re all rest).2.length < 2 ^ 63 := by
  induction turns generalizing st done rest with
  | zero => omega
  | succ turns ih =>
    have read := regexec_inside re progress.inside
    rw [progress.rest_eq, visible_eq plain] at read
    cases here : re.run rest with
    | none =>
      right
      rw [cuts_none here, replaceLoop, read, here, fill, flatMap_nil, append_nil]
      exact ⟨st, rfl, progress, room⟩
    | some range =>
      obtain ⟨so, eo⟩ := range
      have bounds := re.inside here
      have front_length : (Cut.of rest so eo).front.length = so := by
        rw [Cut.of, length_take, Nat.min_eq_left (le_trans bounds.1 bounds.2)]
      -- what this turn needs is what `Fits` and `Grown` say of the first piece
      obtain ⟨back, first⟩ := @cuts_head UInt8 re all rest so eo here
      have head_eq : neededAt rep done.length [] (Cut.of rest so eo)
          (fill id (Cut.of rest so eo :: back) ++ (cuts re all rest).2) =
            done.length + so + rep.length + rest.length + 1 := by
        rw [← first, fill_cuts, neededAt, front_length]
        rfl
      have head : done.length + so + rep.length + rest.length + 1 < 2 ^ 63 :=
        head_eq ▸ fits [] _ back first
      rw [replaceLoop, read, here]
      dsimp only [bind_eq_bind, bind_some]
      rcases @replaceTurn_does heap text rep done rest st all so eo progress bounds.1 bounds.2
        head with ⟨stopped, refused⟩ | ⟨next, went, progress'⟩
      · rw [stopped]
        exact .inl ⟨rfl, _, ⟨[], _, back, first, rfl⟩, by rw [head_eq, refused]⟩
      · have whole := congrArg List.length (cut_behind (s := rest) bounds.1)
        simp only [length_append, front_length] at whole
        have room' : (done ++ ((Cut.of rest so eo).front ++ rep ++
            (Cut.of rest so eo).stepped)).length + (behind rest so eo).length < 2 ^ 63 := by
          simp only [length_append, front_length]
          omega
        rw [cuts_some here] at fits ⊢
        rw [went]
        by_cases go : all = true ∧ (so = eo → rest.drop eo ≠ [])
        · have shorter := length_behind_lt bounds.1 bounds.2 go.2
          rw [if_pos go] at fits
          have later := ih progress' (fun member => plain (behind_subset rest so eo member))
            (by omega) room' (by rw [length_append]; exact fits.tail)
          rw [if_pos go, decide_eq_true go, fill_cons, ← append_assoc]
          refine later.imp_left (And.imp_right fun refused => ?_)
          rw [length_append] at refused
          exact refused.behind
        · right
          rw [if_neg go, decide_eq_false go, fill_cons, fill, flatMap_nil, append_nil]
          exact ⟨next, rfl, progress', room'⟩

theorem track_eq {buf : OutBlock} {pos : Nat} (pos_eq : pos = buf.written.length) :
    track heap buf pos = some ⟨some buf.written, pos⟩ := by
  have whole : slice buf.written 0 pos = some buf.written := by
    rw [slice, if_pos (by omega), pos_eq, drop_zero, take_length]
  obtain ⟨tracked, stored, _, written_eq⟩ := fresh_fits buf.written pos (le_of_eq pos_eq.symm)
  rw [track, malloc]
  split
  · next _ => rfl
  · next served =>
      split at served
      · cases served
        simp only [whole, bind_eq_bind, bind_some, stored, written_eq]
      · cases served

theorem finishReplace_does (progress : Progress text done rest st)
    (room : done.length + rest.length < 2 ^ 63) :
    finishReplace heap (text ++ [0]) st = some .empty ∧
        heap (done.length + rest.length) = false ∨
      finishReplace heap (text ++ [0]) st = some ⟨some (done ++ rest), (done ++ rest).length⟩ := by
  obtain ⟨written_eq, pos_eq, inside, rest_eq, remaining_eq⟩ := progress
  have needed_eq : sizeT (st.pos + st.remaining) = done.length + rest.length := by
    rw [pos_eq, remaining_eq, sizeT_of_lt (by omega)]
  rw [finishReplace]
  by_cases more : 0 < st.remaining
  · rw [if_pos more, needed_eq]
    dsimp only
    rcases ensure_cases heap st.buf (le_refl (done.length + rest.length)) with
      ⟨ensured, refused⟩ | ⟨buf, ensured, kept, fits⟩
    · rw [ensured]
      exact .inl ⟨rfl, refused⟩
    · have copied : slice (text ++ [0]) st.cursor rest.length = some rest := by
        rw [slice_copy inside (le_of_eq (by rw [rest_eq])), rest_eq, take_length]
      obtain ⟨next, stored, _, content⟩ :=
        @putAt_fits buf st.pos rest (by rw [pos_eq, kept, written_eq]) (by rw [pos_eq]; exact fits)
      have written : next.written = done ++ rest := by rw [content, kept, written_eq]
      right
      rw [ensured, remaining_eq]
      simp only [bind_eq_bind, bind_some, copied, stored]
      rw [track_eq (by rw [written, length_append]), written, length_append]
  · have nothing : rest = [] := length_eq_zero_iff.1 (by omega)
    right
    rw [if_neg more, nothing, append_nil, track_eq (by rw [written_eq, pos_eq]), written_eq, pos_eq]

end Run

section Replaces

def replaced (re : Matcher UInt8) (all : Bool) (rep text : List UInt8) : List UInt8 :=
  fill (fun _ => rep) (cuts re all text).1 ++ (cuts re all text).2

/-- What the call asks of malloc and realloc: its copies of the text and of the pattern, the
buffer, what that grows to at a match and what it grows to for the rest of the text. -/
def Asked (re : Matcher UInt8) (all : Bool) (text pat rep : List UInt8) (size : Nat) : Prop :=
  size = text.length + 1 ∨ size = pat.length + 1 ∨
    size = sizeT (text.length + sizeT (rep.length * 4) + 64) ∨
    Grown rep 0 (cuts re all text) size ∨ size = (replaced re all rep text).length

/-- The call returns, with every store inside the buffer: the text with its matches replaced,
which keeps every other byte, or nothing where one of its requests is refused. -/
def Replaces (heap : Nat → Bool) (regcomp : List UInt8 → Option (Matcher UInt8))
    (text pat rep : List UInt8) (all : Bool) : Prop :=
  ∃ res, regexReplaceImpl heap regcomp text pat rep all = some res ∧
    ∀ re, regcomp (visible 0 pat) = some re →
      (res = ⟨some (replaced re all rep text), (replaced re all rep text).length⟩ ∨
        res = .empty ∧ Refused heap (Asked re all text pat rep)) ∧
      fill id (cuts re all text).1 ++ (cuts re all text).2 = text ∧
      (all = false → (cuts re all text).1 = (cuts re true text).1.take 1)

theorem makeCstr_cases (heap : Nat → Bool) {s : List UInt8} (small : s.length < 2 ^ 63) :
    makeCstr heap s = some none ∧ heap (s.length + 1) = false ∨ makeCstr heap s = some (some (s ++ [0])) := by
  rw [makeCstr, sizeT_of_lt (by omega)]
  cases served : heap (s.length + 1) with
  | false => exact .inl ⟨if_neg (by simp), rfl⟩
  | true =>
    have copied := copyOf_eq heap (le_of_eq (zero_add s.length)) small
    rw [drop_zero, take_length, storeText_fits (by omega) served] at copied
    rw [if_pos rfl, duplicate, copied]
    exact .inr rfl

theorem regexReplaceImpl_run {heap : Nat → Bool} {regcomp}
    {re} {text pat : List UInt8} (rep : List UInt8) (all : Bool)
    (small : text.length < 2 ^ 63) (plain : 0 ∉ text) (fits : Fits rep 0 (cuts re all text))
    (ctext : makeCstr heap text = some (some (text ++ [0])))
    (cpat : makeCstr heap pat = some (some (pat ++ [0])))
    (compiled : regcomp (visible 0 pat) = some re) :
    regexReplaceImpl heap regcomp text pat rep all = some .empty ∧
        Refused heap (Asked re all text pat rep) ∨
      regexReplaceImpl heap regcomp text pat rep all =
        some ⟨some (replaced re all rep text), (replaced re all rep text).length⟩ := by
  rw [regexReplaceImpl, ctext, cpat]
  simp only [bind_eq_bind, bind_some, visible_terminated, compiled, malloc]
  generalize same : sizeT (text.length + sizeT (rep.length * 4) + 64) = cap
  cases served : heap cap with
  | false => exact .inl ⟨by simp, cap, .inr (.inr (.inl same.symm)), served⟩
  | true =>
    rw [if_pos rfl]
    dsimp only
    have start : Progress text [] text ⟨.fresh cap, 0, 0, text.length⟩ :=
      ⟨rfl, rfl, Nat.zero_le _, rfl, rfl⟩
    rcases replaceLoop_does (text.length + 1) start plain (Nat.lt_succ_self _)
      (by rw [length_nil]; omega) fits with
      ⟨stopped, size, grown, refused⟩ | ⟨st, ran, progress, room⟩
    · rw [stopped]
      exact .inl ⟨rfl, size, .inr (.inr (.inr (.inl grown))), refused⟩
    · rw [ran]
      refine (finishReplace_does progress room).imp_left (And.imp_right fun refused => ?_)
      rw [← length_append] at refused
      exact ⟨_, .inr (.inr (.inr (.inr rfl))), refused⟩

/-- The call does what it should as long as no match is found where twice the bytes needed
wrap in size_t. -/
theorem replaces_of_fits (heap : Nat → Bool) (regcomp : List UInt8 → Option (Matcher UInt8))
    (text pat rep : Bytes) (all : Bool) (plain : 0 ∉ text.data)
    (fits : ∀ re, regcomp (visible 0 pat.data) = some re →
      Fits rep.data 0 (cuts re all text.data)) :
    Replaces heap regcomp text.data pat.data rep.data all := by
  have lost (re : Matcher UInt8) : fill id (cuts re all text.data).1 ++
        (cuts re all text.data).2 = text.data ∧
      (all = false → (cuts re all text.data).1 = (cuts re true text.data).1.take 1) := by
    refine ⟨fill_cuts, ?_⟩
    rintro rfl
    exact cuts_first
  have nothing (refused : ∀ re, Refused heap (Asked re all text.data pat.data rep.data))
      (returned : regexReplaceImpl heap regcomp text.data pat.data rep.data all = some .empty) :
      Replaces heap regcomp text.data pat.data rep.data all :=
    ⟨_, returned, fun re _ => ⟨.inr ⟨rfl, refused re⟩, lost re⟩⟩
  rcases makeCstr_cases heap text.addressable with ⟨ctext, refused⟩ | ctext
  · apply nothing fun _ => ⟨_, .inl rfl, refused⟩
    rcases makeCstr_cases heap pat.addressable with ⟨cpat, _⟩ | cpat
    · rw [regexReplaceImpl, ctext, cpat]
      rfl
    · rw [regexReplaceImpl, ctext, cpat]
      rfl
  · rcases makeCstr_cases heap pat.addressable with ⟨cpat, refused⟩ | cpat
    · apply nothing fun _ => ⟨_, .inr (.inl rfl), refused⟩
      rw [regexReplaceImpl, ctext, cpat]
      rfl
    · cases compiled : regcomp (visible 0 pat.data) with
      | none =>
        refine ⟨.empty, ?_, fun re same => absurd (compiled.symm.trans same) (by nofun)⟩
        rw [regexReplaceImpl, ctext, cpat]
        simp only [bind_eq_bind, bind_some, visible_terminated, compiled]
      | some re =>
        have ran := regexReplaceImpl_run rep.data all text.addressable plain (fits re compiled)
          ctext cpat compiled
        rcases ran with ⟨returned, refused⟩ | returned
        · refine ⟨_, returned, fun other same => ?_⟩
          rw [compiled] at same
          cases same
          exact ⟨.inr ⟨rfl, refused⟩, lost re⟩
        · refine ⟨_, returned, fun other same => ?_⟩
          rw [compiled] at same
          cases same
          exact ⟨.inl rfl, lost re⟩

theorem replaces_dash :
    regexReplaceImpl served63 (fun _ => some (oneByte 45)) [97, 45, 98] [45] [43] true =
      some ⟨some [97, 43, 98], 3⟩ := by
  have first : (oneByte 45).run [97, 45, 98] = some (1, 2) := by decide
  have second : (oneByte 45).run (behind [97, 45, 98] 1 2) = none := by decide
  have pieces : cuts (oneByte 45) true [97, 45, 98] = ([.of [97, 45, 98] 1 2], [98]) := by
    rw [cuts_some first, if_pos (by decide), cuts_none second]
    rfl
  have whole : replaced (oneByte 45) true [43] [97, 45, 98] = [97, 43, 98] := by
    rw [replaced, pieces]
    rfl
  have needed {front cut back} (split : [Cut.of [97, 45, 98] 1 2] = front ++ cut :: back) :
      neededAt [43] 0 front cut (fill id (cut :: back) ++ [98]) = 6 := by
    cases front with
    | nil =>
      cases split
      rfl
    | cons _ front => exact absurd (List.cons.inj split).2 (by simp)
  have served : ¬Refused served63 (Asked (oneByte 45) true [97, 45, 98] [45] [43]) := by
    rintro ⟨size, asked, refused⟩
    rw [Asked, whole, pieces] at asked
    rcases asked with rfl | rfl | rfl | ⟨front, cut, back, split, rfl⟩ | rfl
    · exact absurd refused (by decide)
    · exact absurd refused (by decide)
    · exact absurd refused (by decide)
    · rw [needed split] at refused
      exact absurd refused (by decide)
    · exact absurd refused (by decide)
  obtain ⟨res, returned, answer⟩ := replaces_of_fits served63 (fun _ => some (oneByte 45))
    ⟨[97, 45, 98], by decide⟩ ⟨[45], by decide⟩ ⟨[43], by decide⟩ true (by decide)
    (by
      rintro _ ⟨⟩ front cut back split
      rw [pieces] at split ⊢
      rw [needed split]
      decide)
  rcases (answer _ rfl).1 with rfl | ⟨_, refused⟩
  · rw [returned, whole]
    rfl
  · exact absurd refused served

theorem long_turn {rep : List UInt8} (long : rep.length = 2 ^ 63 - 1) :
    replaceTurn served63 [97, 0] rep true 0 1 ⟨.fresh 61, 0, 0, 1⟩ = none := by
  have needed : sizeT (0 + 0 + rep.length + 1 + 1) = 2 ^ 63 + 1 := by
    rw [long]
    decide
  have grown : ensure served63 (2 ^ 63 + 1) (sizeT ((2 ^ 63 + 1) * 2)) (.fresh 61) =
      some (.fresh 2) := by
    have cap : sizeT ((2 ^ 63 + 1) * 2) = 2 := by decide
    have size : (OutBlock.fresh 61).size = 61 := rfl
    rw [cap, ensure, size, if_pos (by omega), realloc, if_pos (by decide)]
    rfl
  have read : slice [97, 0] 0 0 = some [] := rfl
  have front : putAt (.fresh 2) 0 [] = some (.fresh 2) := rfl
  have full : putAt (.fresh 2) (sizeT (0 + 0)) rep = none := by
    have size : (OutBlock.fresh 2).size = 2 := rfl
    have written : (OutBlock.fresh 2).written.length = 0 := rfl
    have start : sizeT (0 + 0) = (OutBlock.fresh 2).written.length := rfl
    rw [putAt, if_pos start, putAll_overflows]
    rw [size, written, long]
    omega
  rw [replaceTurn]
  dsimp only
  rw [needed, grown]
  simp only [read, front, bind_eq_bind, bind_some]
  rw [full]
  rfl

theorem long_run {rep : List UInt8} (long : rep.length = 2 ^ 63 - 1) :
    regexReplaceImpl served63 (fun _ => some (oneByte 97)) [97] [97] rep true = none := by
  have copied : makeCstr served63 [97] = some (some [97, 0]) := by decide
  have here : regexec (oneByte 97) [97, 0] 0 = some (some (0, 1)) := by decide
  have cap : sizeT (1 + sizeT (rep.length * 4) + 64) = 61 := by
    rw [long]
    decide
  rw [regexReplaceImpl, copied]
  dsimp only [bind_eq_bind, bind_some, length_singleton]
  rw [cap, malloc, if_pos (by decide)]
  dsimp only
  rw [replaceLoop, here]
  dsimp only [bind_eq_bind, bind_some]
  rw [long_turn long]
  rfl

theorem long_replacement_overflows :
    regexReplaceImpl served63 (fun _ => some (oneByte 97)) [97] [97]
        (List.replicate (2 ^ 63 - 1) 0) true = none ∧
      ¬Replaces served63 (fun _ => some (oneByte 97)) [97] [97]
        (List.replicate (2 ^ 63 - 1) 0) true := by
  have overflows := long_run (@length_replicate UInt8 (2 ^ 63 - 1) 0)
  refine ⟨overflows, ?_⟩
  rintro ⟨res, returned, _⟩
  exact some_ne_none res (returned.symm.trans overflows)

end Replaces

end Lucis.Regex
