import Lucis.Library.Cells
import Mathlib.Data.Nat.ModEq

/-!
A sequence laid round a block of cells: it begins at the head and goes on at the first
cell behind the last one. Each operation on the ring is one lemma on what it holds.
-/

namespace Ring

open List

open Cells (Block)

universe u

variable {Value : Type u} {cells : Block Value} {head : Nat} {value : Value} {values : List Value}

structure Holds (cells : Block Value) (head : Nat) (values : List Value) : Prop where
  fits : values.length ≤ cells.length
  cell : ∀ i, (inside : i < values.length) →
    cells[(head + i) % cells.length]? = some (some values[i])

theorem place_ne {size i j : Nat} (head : Nat) (before : i < j) (inside : j < size) :
    (head + i) % size ≠ (head + j) % size := by
  intro same
  have places : i ≡ j [MOD size] := Nat.ModEq.add_left_cancel' head same
  exact ne_of_lt before (places.eq_of_lt_of_lt (before.trans inside) inside)

theorem holds_nil (cells : Block Value) (head : Nat) : Holds cells head [] :=
  ⟨Nat.zero_le _, fun _ inside => absurd inside (Nat.not_lt_zero _)⟩

theorem Holds.push (holds : Holds cells head values) (room : values.length < cells.length)
    (value : Value) : Holds (cells.set ((head + values.length) % cells.length) (some value)) head
      (values ++ [value]) := by
  have exists_place : (head + values.length) % cells.length < cells.length :=
    Nat.mod_lt _ (Nat.zero_lt_of_lt room)
  refine ⟨by rw [length_append, length_set, length_singleton]; exact room, fun i inside => ?_⟩
  rw [length_append, length_singleton] at inside
  rw [length_set]
  rcases Nat.lt_succ_iff_lt_or_eq.1 inside with before | rfl
  · rw [getElem?_set_ne (place_ne head before room).symm, holds.cell i before,
      getElem_append_left before]
  · rw [getElem?_set_self exists_place, getElem_concat_length rfl]

theorem Holds.front (holds : Holds cells head (value :: values)) (inside : head < cells.length) :
    cells[head]? = some (some value) := by
  have first := holds.cell 0 (Nat.zero_lt_succ _)
  rwa [add_zero, Nat.mod_eq_of_lt inside] at first

theorem Holds.pop (holds : Holds cells head (value :: values)) :
    Holds cells ((head + 1) % cells.length) values := by
  refine ⟨(Nat.le_succ _).trans holds.fits, fun i inside => ?_⟩
  have later := holds.cell (i + 1) (Nat.succ_lt_succ inside)
  rw [getElem_cons_succ] at later
  rw [Nat.mod_add_mod, add_assoc, add_comm 1 i, later]

theorem holds_straight (values : List Value) (spare : Block Value) :
    Holds (values.map some ++ spare) 0 values := by
  have sized : values.length ≤ (values.map some ++ spare).length := by
    rw [length_append, length_map]
    exact Nat.le_add_right _ _
  refine ⟨sized, fun i inside => ?_⟩
  have mapped : i < (values.map some).length := by rwa [length_map]
  rw [zero_add, Nat.mod_eq_of_lt (inside.trans_le sized), getElem?_append_left mapped,
    getElem?_map, getElem?_eq_getElem inside, Option.map_some]

end Ring
