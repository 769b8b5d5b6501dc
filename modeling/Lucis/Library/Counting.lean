import Mathlib.Computability.StateTransition

/-!
Loops that go by a counter: a test before each turn, a body that may do what it likes with the
world and with the counter, and a step to the next one. The run records the counters that the body
is entered with, so that what a loop visits is a list.
-/

namespace Counting

open Relation StateTransition List

variable {World Index : Type}

structure State (World Index : Type) where
  world : World
  index : Index
  entries : List Index

structure Loop (World Index : Type) where
  test : Index → Bool
  body : World → Index → World × Index
  next : Index → Index

namespace Loop

variable (l : Loop World Index)

def step (s : State World Index) : Option (State World Index) :=
  if l.test s.index then
    some ⟨(l.body s.world s.index).1, l.next (l.body s.world s.index).2, s.entries ++ [s.index]⟩
  else none

def Visits : World → Index → List Index → Prop
  | _, index, [] => l.test index = false
  | world, index, i :: rest => l.test index = true ∧ index = i ∧
      Visits (l.body world index).1 (l.next (l.body world index).2) rest

def after (world : World) (visited : List Index) : World :=
  visited.foldl (fun world index => (l.body world index).1) world

variable {l} {world : World} {index : Index} {s last : State World Index}

theorem entries_kept (reached : Reaches l.step s last) : s.entries <+: last.entries := by
  induction reached with
  | refl => exact prefix_rfl
  | tail _ stepped ih =>
    rw [Option.mem_def, step] at stepped
    split at stepped
    · cases stepped
      exact ih.trans (prefix_append _ _)
    · cases stepped

theorem eval_step {next} (stepped : l.step s = some next) :
    eval l.step s = eval l.step next :=
  reaches_eval (ReflTransGen.single stepped)

theorem visits_of_eval {visited entries : List Index}
    (ends : last ∈ eval l.step ⟨world, index, entries⟩) (recorded : last.entries = entries ++ visited) :
    l.Visits world index visited := by
  induction visited generalizing world index entries with
  | nil =>
    cases tested : l.test index with
    | false => exact tested
    | true =>
      -- One more turn would have been recorded.
      have stepped : l.step ⟨world, index, entries⟩ = some ⟨_, _, entries ++ [index]⟩ := if_pos tested
      rw [eval_step stepped] at ends
      have kept := (entries_kept (mem_eval.1 ends).1).length_le
      rw [recorded] at kept
      simp at kept
  | cons i rest ih =>
    cases tested : l.test index with
    | false =>
      have stopped : l.step ⟨world, index, entries⟩ = none := if_neg (by simp [tested])
      have same : last = ⟨world, index, entries⟩ :=
        Part.mem_unique ends (mem_eval.2 ⟨.refl, stopped⟩)
      rw [same] at recorded
      simp at recorded
    | true =>
      have stepped : l.step ⟨world, index, entries⟩ = some ⟨_, _, entries ++ [index]⟩ := if_pos tested
      rw [eval_step stepped] at ends
      have kept := entries_kept (mem_eval.1 ends).1
      rw [recorded, prefix_append_right_inj] at kept
      obtain rfl : index = i := by simpa using kept
      refine ⟨tested, rfl, ih ends ?_⟩
      rw [recorded, append_assoc, singleton_append]

theorem eval_of_visits {visited entries : List Index} (visits : l.Visits world index visited) :
    ∃ last ∈ eval l.step ⟨world, index, entries⟩,
      last.entries = entries ++ visited ∧ last.world = l.after world visited := by
  induction visited generalizing world index entries with
  | nil =>
    have left : l.test index = false := visits
    have stopped : l.step ⟨world, index, entries⟩ = none := if_neg (by simp [left])
    exact ⟨_, mem_eval.2 ⟨.refl, stopped⟩, (append_nil _).symm, rfl⟩
  | cons i rest ih =>
    obtain ⟨tested, rfl, later⟩ := visits
    have stepped : l.step ⟨world, index, entries⟩ = some ⟨_, _, entries ++ [index]⟩ := if_pos tested
    obtain ⟨last, ends, recorded, reached⟩ := ih later
    rw [← eval_step stepped] at ends
    refine ⟨last, ends, ?_, reached⟩
    rw [recorded, append_assoc, singleton_append]

end Loop

end Counting
