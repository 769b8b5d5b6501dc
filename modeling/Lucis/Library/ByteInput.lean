import Mathlib.Data.List.Basic

/-!
A stream that is delivered in pieces, and the two calls that read it: one takes as many elements
as it is asked for, the other a line. Both go on reading until they have them or the stream ends,
so what they return depends on the stream and not on its delivery.
-/

namespace ByteInput

open List

variable {α : Type}

abbrev Source (α : Type) := List (List α)

def getc : Source α → Option (α × Source α)
  | [] => none
  | [] :: later => getc later
  | (c :: chunk) :: later => some (c, chunk :: later)

def fread : Nat → Source α → List α × Source α
  | _, [] => ([], [])
  | n, chunk :: later =>
    if n ≤ chunk.length then (chunk.take n, chunk.drop n :: later)
    else
      let (more, left) := fread (n - chunk.length) later
      (chunk ++ more, left)

/-- At most `room` elements, and none behind the one that ends the line. -/
def fgets (ends : α → Bool) : Nat → Source α → List α × Source α
  | 0, source => ([], source)
  | room + 1, source =>
    match getc source with
    | none => ([], [])
    | some (c, source) =>
      if ends c then ([c], source)
      else
        let (more, left) := fgets ends room source
        (c :: more, left)

/-- The lines of a stream, cut where they leave the room; `left` more elements fit in the first. -/
def lines (ends : α → Bool) (room : Nat) : Nat → List α → List (List α)
  | _, [] => []
  | 0, c :: rest => [c] :: lines ends room room rest
  | left + 1, c :: rest =>
    if ends c then [c] :: lines ends room room rest
    else
      match lines ends room left rest with
      | [] => [[c]]
      | line :: later => (c :: line) :: later

theorem getc_cases (source : Source α) : (getc source = none ∧ source.flatten = []) ∨
      ∃ c left, getc source = some (c, left) ∧ source.flatten = c :: left.flatten := by
  induction source with
  | nil => exact .inl ⟨rfl, rfl⟩
  | cons chunk later ih =>
    cases chunk with
    | nil => exact ih
    | cons c chunk => exact .inr ⟨c, chunk :: later, rfl, rfl⟩

theorem fread_flatten (n : Nat) (source : Source α) : (fread n source).1 = source.flatten.take n ∧
      (fread n source).2.flatten = source.flatten.drop n := by
  induction source generalizing n with
  | nil => exact ⟨take_nil.symm, drop_nil.symm⟩
  | cons chunk later ih =>
    by_cases inside : n ≤ chunk.length
    · rw [fread, if_pos inside, flatten_cons, take_append_of_le_length inside,
        drop_append_of_le_length inside]
      exact ⟨rfl, rfl⟩
    · rcases ih (n - chunk.length) with ⟨taken, left⟩
      have past : chunk.length ≤ n := Nat.le_of_not_le inside
      rw [fread, if_neg inside, flatten_cons, take_append, drop_append,
        take_of_length_le past, drop_of_length_le past, ← taken, ← left]
      exact ⟨rfl, rfl⟩

variable (ends : α → Bool) (room left : Nat) (stream : List α)

theorem lines_flatten :
    (lines ends room left stream).flatten = stream := by
  induction stream generalizing left with
  | nil => cases left <;> rfl
  | cons c rest ih =>
    cases left with
    | zero => rw [lines, flatten_cons, ih, singleton_append]
    | succ left =>
      rw [lines]
      by_cases last : ends c = true
      · rw [if_pos last, flatten_cons, ih, singleton_append]
      · rw [if_neg last]
        have whole := ih left
        cases found : lines ends room left rest with
        | nil =>
          rw [found] at whole
          rw [← whole]
          rfl
        | cons line later =>
          rw [found] at whole
          change c :: (line :: later).flatten = _
          rw [whole]

theorem fgets_append (n : Nat) (source : Source α) :
    (fgets ends n source).1 ++ (fgets ends n source).2.flatten = source.flatten := by
  induction n generalizing source with
  | zero => rfl
  | succ n ih =>
    rw [fgets]
    rcases getc_cases source with ⟨stopped, empty⟩ | ⟨c, left, got, whole⟩
    · rw [stopped, empty]
      rfl
    · rw [got, whole]
      by_cases last : ends c = true
      · simp only [if_pos last, singleton_append]
      · simp only [if_neg last, cons_append, ih left]

variable {source : Source α}

theorem fgets_nil (n : Nat) (empty : source.flatten = []) :
    (fgets ends n source).1 = [] := by
  have whole := fgets_append ends n source
  rw [empty] at whole
  exact (append_eq_nil_iff.1 whole).1

theorem fgets_shorter {ends : α → Bool} {n : Nat} (some_read : (fgets ends n source).1 ≠ []) :
    (fgets ends n source).2.flatten.length < source.flatten.length := by
  have whole := congrArg List.length (fgets_append ends n source)
  have read := length_pos_iff.2 some_read
  rw [length_append] at whole
  omega

theorem fread_shorter {n : Nat} (some_read : (fread n source).1 ≠ []) :
    (fread n source).2.flatten.length < source.flatten.length := by
  have read := length_pos_iff.2 some_read
  rw [(fread_flatten n source).1, length_take] at read
  rw [(fread_flatten n source).2, length_drop]
  omega

theorem fgets_lines (n : Nat) (more : source.flatten ≠ []) : (fgets ends (n + 1) source).1 ≠ [] ∧
      lines ends room n source.flatten = (fgets ends (n + 1) source).1 ::
        lines ends room room (fgets ends (n + 1) source).2.flatten := by
  induction n generalizing source with
  | zero =>
    rcases getc_cases source with ⟨_, empty⟩ | ⟨c, left, got, whole⟩
    · exact absurd empty more
    · rw [fgets, got, whole, lines]
      by_cases last : ends c = true
      · simp only [if_pos last]
        exact ⟨cons_ne_nil _ _, trivial⟩
      · simp only [if_neg last, fgets]
        exact ⟨cons_ne_nil _ _, trivial⟩
  | succ n ih =>
    rcases getc_cases source with ⟨_, empty⟩ | ⟨c, left, got, whole⟩
    · exact absurd empty more
    · rw [fgets, got, whole, lines]
      by_cases last : ends c = true
      · simp only [if_pos last]
        exact ⟨cons_ne_nil _ _, trivial⟩
      · simp only [if_neg last]
        refine ⟨cons_ne_nil _ _, ?_⟩
        by_cases rest : left.flatten = []
        · have after := fgets_append ends (n + 1) left
          rw [rest] at after
          rw [rest, (append_eq_nil_iff.1 after).1, (append_eq_nil_iff.1 after).2]
          rfl
        · rw [(ih rest).2]

theorem lines_length {line : List α}
    {later} (cut : lines ends room left stream = line :: later) :
    line.length ≤ left + 1 ∧ ∀ other ∈ later, other.length ≤ room + 1 := by
  induction stream generalizing left line later with
  | nil => cases left <;> cases cut
  | cons c rest ih =>
    have others (more : ∀ other ∈ lines ends room room rest, other.length ≤ room + 1)
        (alone : [c] :: lines ends room room rest = line :: later) :
        line.length ≤ left + 1 ∧ ∀ other ∈ later, other.length ≤ room + 1 := by
      cases alone
      exact ⟨Nat.le_add_left 1 left, more⟩
    have fresh : ∀ other ∈ lines ends room room rest, other.length ≤ room + 1 := by
      cases found : lines ends room room rest with
      | nil => exact nofun
      | cons first following =>
        intro other member
        rcases mem_cons.1 member with rfl | member
        · exact (ih room found).1
        · exact (ih room found).2 other member
    cases left with
    | zero => exact others fresh cut
    | succ left =>
      rw [lines] at cut
      by_cases last : ends c = true
      · rw [if_pos last] at cut
        exact others fresh cut
      · rw [if_neg last] at cut
        cases found : lines ends room left rest with
        | nil =>
          rw [found] at cut
          cases cut
          exact ⟨Nat.le_add_left 1 _, nofun⟩
        | cons first following =>
          rw [found] at cut
          cases cut
          rcases ih left found with ⟨short, shorts⟩
          exact ⟨Nat.succ_le_succ short, shorts⟩

theorem lines_le :
    ∀ line ∈ lines ends room room stream, line.length ≤ room + 1 := by
  cases cut : lines ends room room stream with
  | nil => exact nofun
  | cons first following =>
    intro line member
    rcases mem_cons.1 member with rfl | member
    · exact (lines_length ends room room stream cut).1
    · exact (lines_length ends room room stream cut).2 line member

theorem lines_single (c : α) (rest : List α)
    (short : rest.length ≤ left) (plain : ∀ x ∈ c :: rest, ends x = false) :
    lines ends room left (c :: rest) = [c :: rest] := by
  induction rest generalizing c left with
  | nil =>
    cases left with
    | zero => rfl
    | succ left => rw [lines, plain c (mem_singleton_self c)]; cases left <;> rfl
  | cons d rest ih =>
    cases left with
    | zero => cases short
    | succ left =>
      have following := ih left d (Nat.le_of_succ_le_succ short)
        fun x member => plain x (mem_cons_of_mem c member)
      rw [lines, plain c mem_cons_self, following]
      rfl

end ByteInput
