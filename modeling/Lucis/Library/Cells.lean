import Mathlib.Data.List.Induction

/-!
Typed cells of a memory block. Reading a cell that was never written, and
touching an index outside the block, fails. Each operation is described on a
block that is cut where the operation works, so that a caller only has to
say how its data lies in the block.
-/

namespace Cells

open List Option

universe u

variable {Value : Type u}

abbrev Block (Value : Type u) := List (Option Value)

def read (block : Block Value) (index : Nat) : Option Value :=
  (block[index]?).join

def write (block : Block Value) (index : Nat) (value : Value) : Option (Block Value) :=
  if index < block.length then some (block.set index (some value)) else none

def swap (block : Block Value) (i j : Nat) : Option (Block Value) := do
  let tmp ← read block i
  let other ← read block j
  let block ← write block i other
  write block j tmp

/-- Exchanges the cells from both ends of `i … j` until the indices meet. -/
def reverseBetween (block : Block Value) (i j : Nat) : Option (Block Value) :=
  if i < j then
    (swap block i j).bind fun block => reverseBetween block (i + 1) (j - 1)
  else some block
termination_by j - i

def fill (value : Value) : Nat → Block Value → Nat → Option (Block Value)
  | 0, block, _ => some block
  | count + 1, block, index =>
    (write block index value).bind fun block => fill value count block (index + 1)

def move (block : Block Value) (target source count : Nat) : Option (Block Value) :=
  if source + count ≤ block.length ∧ target + count ≤ block.length then
    some (block.take target ++ (block.drop source).take count ++ block.drop (target + count))
  else none

/-- The first `count` cells of `source`, written over those of `target`. -/
def copy (target source : Block Value) (count : Nat) : Option (Block Value) :=
  if count ≤ source.length ∧ count ≤ target.length then
    some (source.take count ++ target.drop count)
  else none

/-- A block of `size` cells that keeps what fits of the old one. -/
def resize (block : Block Value) (size : Nat) : Block Value :=
  block.take size ++ List.replicate (size - block.length) none

def writeAll : List Value → Block Value → Nat → Option (Block Value)
  | [], block, _ => some block
  | value :: values, block, index =>
    (write block index value).bind fun block => writeAll values block (index + 1)

variable (front back : Block Value) (value : Value)

theorem read_at :
    read (front ++ some value :: back) front.length = some value := by
  simp [read]

variable (block : Block Value)

theorem read_outside (index : Nat) (outside : block.length ≤ index) :
    read block index = none := by
  simp [read, getElem?_eq_none outside]

theorem write_at (old : Option Value) (value : Value) :
    write (front ++ old :: back) front.length value = some (front ++ some value :: back) := by
  simp [write]

variable (values : List Value) (spare : Block Value)

theorem read_map (index : Nat) (inside : index < values.length) :
    read (values.map some ++ spare) index = some values[index] := by
  simp [read, getElem?_append_left, inside]

theorem write_map (index : Nat) (value : Value)
    (inside : index < values.length) : write (values.map some ++ spare) index value =
      some ((values.set index value).map some ++ spare) := by
  have present : index < (values.map some ++ spare).length := by
    rw [length_append, length_map]
    exact Nat.lt_add_right _ inside
  rw [write, if_pos present, set_append_left _ _ (by simpa using inside), ← map_set]

theorem swap_map (i j : Nat)
    (left : i < values.length) (right : j < values.length) : swap (values.map some ++ spare) i j =
      some (((values.set i values[j]).set j values[i]).map some ++ spare) := by
  have right' : j < (values.set i values[j]).length := by simpa using right
  simp only [swap, read_map values spare i left, read_map values spare j right,
    write_map values spare i _ left, write_map _ spare j _ right', bind_eq_bind,
    bind_some]

theorem swap_ends (inner back : Block Value) (first last : Value) :
    swap (front ++ (some first :: (inner ++ some last :: back))) front.length
        (front.length + inner.length + 1) =
      some (front ++ (some last :: (inner ++ some first :: back))) := by
  have low : read (front ++ (some first :: (inner ++ some last :: back))) front.length =
      some first := read_at front _ first
  have high : read (front ++ (some first :: (inner ++ some last :: back)))
      (front.length + inner.length + 1) = some last := by
    simpa [Nat.add_assoc, Nat.add_comm] using
      read_at (front ++ some first :: inner) back last
  have store := write_at front (inner ++ some last :: back) (some first) last
  have store' : write (front ++ (some last :: (inner ++ some last :: back)))
      (front.length + inner.length + 1) first =
        some (front ++ (some last :: (inner ++ some first :: back))) := by
    simpa [Nat.add_assoc, Nat.add_comm] using
      write_at (front ++ some last :: inner) back (some last) first
  simp [swap, low, high, store, store']

/-- In-place reversal of the segment between `front` and `back`. -/
theorem reverseBetween_segment (segment : List Value) (front back : Block Value) :
    reverseBetween (front ++ segment.map some ++ back) front.length
        (front.length + segment.length - 1) = some (front ++ segment.reverse.map some ++ back) := by
  -- the segment loses its two ends in each iteration
  induction segment using List.bidirectionalRec generalizing front back with
  | nil =>
    rw [reverseBetween, if_neg (by simp)]
    rfl
  | singleton value =>
    rw [reverseBetween, if_neg (by simp)]
    rfl
  | cons_append first inner last ih =>
    have started : front.length < front.length + inner.length + 1 := by omega
    have bound : front.length + (first :: (inner ++ [last])).length - 1 =
        front.length + inner.length + 1 := by simp; omega
    have exchanged := swap_ends front (inner.map some) back first last
    have rest := ih (front ++ [some last]) (some first :: back)
    have next : front.length + inner.length + 1 - 1 =
        (front ++ [some last]).length + inner.length - 1 := by simp
    rw [length_map] at exchanged
    rw [bound, reverseBetween, if_pos started, next]
    simp only [map_cons, map_append, map_nil, append_assoc,
      List.cons_append, nil_append, exchanged, bind_some, reverse_append,
      reverse_cons, reverse_nil, length_append, length_singleton] at rest ⊢
    exact rest

theorem fill_segment (old front back : Block Value) :
    fill value old.length (front ++ old ++ back) front.length =
      some (front ++ (List.replicate old.length value).map some ++ back) := by
  induction old generalizing front with
  | nil => simp [fill]
  | cons cell old ih =>
    have stored := write_at front (old ++ back) cell value
    have rest := ih (front ++ [some value])
    simp only [length_append, length_singleton, append_assoc,
      List.cons_append, nil_append] at stored rest
    simp only [length_cons, fill, append_assoc, List.cons_append, stored,
      bind_some, rest, replicate_succ, map_cons]

variable (rest : Block Value)

/-- Moving the cells behind `front` one place up and writing the gap. -/
theorem open_gap (spare : Option Value) (value : Value) :
    ((move (front ++ back ++ spare :: rest) (front.length + 1) front.length back.length).bind
        fun block => write block front.length value) =
      some (front ++ some value :: back ++ rest) := by
  have sized : (front ++ back ++ spare :: rest).length =
      front.length + back.length + 1 + rest.length := by simp; omega
  rw [move, if_pos ⟨by omega, by omega⟩, bind_some]
  -- what stands in the gap before the write does not matter
  have gap : ∃ cell, (front ++ back ++ spare :: rest).take (front.length + 1) =
      front ++ [cell] := by
    cases back with
    | nil => exact ⟨spare, by simp [take_append, take_of_length_le]⟩
    | cons cell back => exact ⟨cell, by simp [take_append, take_of_length_le]⟩
  rcases gap with ⟨cell, gap⟩
  have middle : ((front ++ back ++ spare :: rest).drop front.length).take back.length = back := by
    simp
  have behind : (front ++ back ++ spare :: rest).drop (front.length + 1 + back.length) = rest := by
    have cut : front.length + 1 + back.length = (front ++ back ++ [spare]).length := by
      simp; omega
    have whole : front ++ back ++ spare :: rest = (front ++ back ++ [spare]) ++ rest := by simp
    rw [cut, whole, drop_left]
  rw [gap, middle, behind]
  have stored := write_at front (back ++ rest) cell value
  simpa using stored

theorem close_gap (cell : Option Value) :
    ∃ spare, move (front ++ cell :: back ++ rest) front.length (front.length + 1) back.length =
      some (front ++ back ++ spare :: rest) := by
  have sized : (front ++ cell :: back ++ rest).length =
      front.length + back.length + 1 + rest.length := by simp; omega
  have middle : ((front ++ cell :: back ++ rest).drop (front.length + 1)).take back.length =
      back := by
    have whole : front ++ cell :: back ++ rest = (front ++ [cell]) ++ (back ++ rest) := by simp
    have cut : front.length + 1 = (front ++ [cell]).length := by simp
    rw [whole, cut, drop_left, take_left]
  have behind : ∃ spare, (front ++ cell :: back ++ rest).drop (front.length + back.length) =
      spare :: rest := by
    have whole : front ++ cell :: back ++ rest = front ++ (cell :: back ++ rest) := by simp
    rw [whole, drop_append, drop_of_length_le (by omega), nil_append, Nat.add_sub_cancel_left]
    rcases eq_nil_or_concat (cell :: back) with absurd | ⟨init, spare, split⟩
    · cases absurd
    · have short : back.length = init.length := by
        have := congrArg List.length split
        simpa using this
      exact ⟨spare, by rw [split, short, concat_eq_append]; simp⟩
  rcases behind with ⟨spare, behind⟩
  refine ⟨spare, ?_⟩
  rw [move, if_pos ⟨by omega, by omega⟩, middle, behind]
  simp

variable (size : Nat)

theorem resize_grow (larger : block.length ≤ size) :
    resize block size = block ++ List.replicate (size - block.length) none := by
  rw [resize, take_of_length_le larger]

theorem resize_keep : resize (front ++ back) front.length = front := by
  simp [resize]

theorem read_resize (larger : block.length ≤ size)
    (index : Nat) : read (resize block size) index = read block index := by
  rw [resize_grow block size larger, read, read]
  by_cases inside : index < block.length
  · rw [getElem?_append_left inside]
  · have outside : block[index]? = none := getElem?_eq_none (by omega)
    rw [getElem?_append_right (by omega), getElem?_replicate, outside]
    split <;> rfl

theorem length_resize : (resize block size).length = size := by
  rw [resize, length_append, length_take, length_replicate]
  omega

variable {block out : Block Value} {index : Nat} {value : Value}

variable (stored : write block index value = some out)
include stored

theorem write_some :
    index < block.length ∧ out = block.set index (some value) := by
  rw [write] at stored
  split at stored
  · exact ⟨by assumption, (Option.some.inj stored).symm⟩
  · cases stored

theorem read_write (other : Nat) :
    read out other = if other = index then some value else read block other := by
  have ⟨inside, same⟩ := write_some stored
  rw [same, read, read, getElem?_set]
  by_cases here : index = other
  · simp [here, here ▸ inside]
  · simp [here, Ne.symm here]

theorem write_length : out.length = block.length := by
  rw [(write_some stored).2, length_set]

omit stored

variable {values : List Value}

theorem writeAll_length
    (stored : writeAll values block index = some out) : out.length = block.length := by
  induction values generalizing block index with
  | nil => rw [Option.some.inj stored]
  | cons value values ih =>
    rw [writeAll, bind_eq_some_iff] at stored
    rcases stored with ⟨middle, first, rest⟩
    rw [ih rest, write_length first]

theorem read_writeAll (stored : writeAll values block index = some out) (other : Nat) :
    read out other = if index ≤ other ∧ other < index + values.length
      then values[other - index]? else read block other := by
  induction values generalizing block index with
  | nil =>
    rw [Option.some.inj stored, if_neg (by simp)]
  | cons value values ih =>
    rw [writeAll, bind_eq_some_iff] at stored
    rcases stored with ⟨middle, first, rest⟩
    rw [ih rest, read_write first, length_cons]
    rcases Nat.lt_trichotomy other index with before | here | behind
    · rw [if_neg (by omega), if_neg (by omega), if_neg (by omega)]
    · subst here
      rw [if_neg (by omega), if_pos rfl, if_pos (by omega), Nat.sub_self]
      rfl
    · have shift : other - index = other - (index + 1) + 1 := by omega
      by_cases inside : other < index + 1 + values.length
      · rw [if_pos ⟨behind, inside⟩, if_pos (by omega), shift, getElem?_cons_succ]
      · rw [if_neg (by omega), if_neg (by omega), if_neg (by omega)]

theorem writeAll_fits (values : List Value) (block : Block Value) (index : Nat)
    (room : index + values.length ≤ block.length) :
    ∃ out, writeAll values block index = some out := by
  induction values generalizing block index with
  | nil => exact ⟨block, rfl⟩
  | cons value values ih =>
    rw [length_cons] at room
    have first : write block index value = some (block.set index (some value)) :=
      if_pos (by omega)
    rw [writeAll, first, bind_some]
    exact ih _ _ (by rw [length_set]; omega)

theorem writeAll_within
    (stored : writeAll values block index = some out) (some_value : values ≠ []) :
    index + values.length ≤ block.length := by
  induction values generalizing block index with
  | nil => exact absurd rfl some_value
  | cons value values ih =>
    rw [writeAll, bind_eq_some_iff] at stored
    rcases stored with ⟨middle, first, rest⟩
    have inside := (write_some first).1
    cases values with
    | nil => exact inside
    | cons next values =>
      have bound := ih rest (cons_ne_nil _ _)
      rw [write_length first] at bound
      rw [length_cons]
      omega

end Cells
