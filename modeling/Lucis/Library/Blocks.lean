import Mathlib.Data.List.Nodup

/-!
Blocks of a heap. An address can be given out again when its block is released, so each
block carries the number of the request that made it; releasing what is not a block is
undefined (`none`). The allocator may answer every request as it likes, also by refusing
it, as long as it gives no address that is in use.
-/

namespace Blocks

open List

abbrev Addr := Nat

structure Block where
  addr : Addr
  serial : Nat
  deriving DecidableEq

structure Heap where
  live : List Block
  released : List Nat
  requests : Nat
  deriving DecidableEq

structure Allocator where
  choose : List Addr → Nat → Option Addr
  unused : ∀ inUse request addr, choose inUse request = some addr → addr ∉ inUse

def Heap.empty : Heap := ⟨[], [], 0⟩

def Heap.addrs (heap : Heap) : List Addr := heap.live.map Block.addr

def allocate (alloc : Allocator) (heap : Heap) : Option Addr × Heap :=
  match alloc.choose heap.addrs heap.requests with
  | some addr =>
    (some addr,
      ⟨⟨addr, heap.requests⟩ :: heap.live, heap.released, heap.requests + 1⟩)
  | none => (none, ⟨heap.live, heap.released, heap.requests + 1⟩)

def release (addr : Addr) (heap : Heap) : Option Heap :=
  (heap.live.find? (·.addr = addr)).map fun block =>
    ⟨heap.live.filter (·.addr ≠ addr), block.serial :: heap.released, heap.requests⟩

def reallocate (alloc : Allocator) (addr : Addr) (heap : Heap) : Option (Option Addr × Heap) :=
  (release addr heap).map fun freed =>
    match allocate alloc freed with
    | (some moved, after) => (some moved, after)
    | (none, _) => (none, ⟨heap.live, heap.released, heap.requests + 1⟩)

structure WellFormed (heap : Heap) : Prop where
  addrs : heap.addrs.Nodup
  serials : (heap.live.map Block.serial ++ heap.released).Nodup
  counted : ∀ serial ∈ heap.live.map Block.serial ++ heap.released, serial < heap.requests

theorem WellFormed.empty : WellFormed .empty :=
  ⟨nodup_nil, nodup_nil, nofun⟩

theorem WellFormed.once {heap : Heap} (ok : WellFormed heap) : heap.released.Nodup :=
  (nodup_append.1 ok.serials).2.1

section Allocate

variable {alloc : Allocator} {heap after : Heap}

theorem allocate_cases (alloc : Allocator) (heap : Heap) :
    (∃ addr, addr ∉ heap.addrs ∧ allocate alloc heap =
      (some addr, ⟨⟨addr, heap.requests⟩ :: heap.live, heap.released, heap.requests + 1⟩)) ∨
    allocate alloc heap = (none, ⟨heap.live, heap.released, heap.requests + 1⟩) := by
  rw [allocate]
  cases chosen : alloc.choose heap.addrs heap.requests with
  | none => exact .inr rfl
  | some addr => exact .inl ⟨addr, alloc.unused _ _ _ chosen, rfl⟩

theorem WellFormed.later {released : List Nat} {live : List Block} {requests : Nat}
    (ok : WellFormed ⟨live, released, requests⟩) : WellFormed ⟨live, released, requests + 1⟩ :=
  ⟨ok.addrs, ok.serials, fun serial member => Nat.lt_succ_of_lt (ok.counted serial member)⟩

theorem WellFormed.allocate (ok : WellFormed heap) (alloc : Allocator) :
    WellFormed (allocate alloc heap).2 := by
  rcases allocate_cases alloc heap with ⟨addr, unused, result⟩ | result
  · rw [result]
    have unnumbered : heap.requests ∉ heap.live.map Block.serial ++ heap.released := fun member =>
      Nat.lt_irrefl _ (ok.counted _ member)
    refine ⟨nodup_cons.mpr ⟨unused, ok.addrs⟩, nodup_cons.mpr ⟨unnumbered, ok.serials⟩, ?_⟩
    intro serial member
    rcases mem_cons.1 member with same | member
    · rw [same]
      exact Nat.lt_succ_self _
    · exact Nat.lt_succ_of_lt (ok.counted serial member)
  · rw [result]
    exact ok.later

theorem allocate_addrs (alloc : Allocator) (heap : Heap) :
    heap.addrs ⊆ (Blocks.allocate alloc heap).2.addrs := by
  intro addr member
  rcases allocate_cases alloc heap with ⟨_, _, result⟩ | result
  · rw [result]
    exact .tail _ member
  · rw [result]
    exact member

end Allocate

section Release

variable {heap after : Heap} {addr : Addr}

theorem release_isSome (member : addr ∈ heap.addrs) : ∃ after, release addr heap = some after := by
  obtain ⟨block, live, same⟩ := List.mem_map.1 member
  have found : (heap.live.find? (·.addr = addr)).isSome := by
    rw [find?_isSome]
    exact ⟨block, live, by simpa using same⟩
  obtain ⟨first, located⟩ := Option.isSome_iff_exists.1 found
  exact ⟨_, by rw [release, located, Option.map_some]⟩

variable (released : release addr heap = some after)
include released

theorem release_cases :
    ∃ block ∈ heap.live, block.addr = addr ∧
      after = ⟨heap.live.filter (·.addr ≠ addr), block.serial :: heap.released, heap.requests⟩ := by
  rw [release] at released
  obtain ⟨block, located, result⟩ := Option.map_eq_some_iff.1 released
  have same : block.addr = addr := by simpa using find?_some located
  exact ⟨block, mem_of_find?_eq_some located, same, result.symm⟩

theorem mem_addrs_release (other : Addr) :
    other ∈ after.addrs ↔ other ∈ heap.addrs ∧ other ≠ addr := by
  obtain ⟨block, _, _, rfl⟩ := release_cases released
  simp only [Heap.addrs, List.mem_map, mem_filter, ne_eq, decide_not,
    Bool.not_eq_eq_eq_not, Bool.not_true, decide_eq_false_iff_not]
  constructor
  · rintro ⟨kept, ⟨live, different⟩, rfl⟩
    exact ⟨⟨kept, live, rfl⟩, different⟩
  · rintro ⟨⟨kept, live, rfl⟩, different⟩
    exact ⟨kept, ⟨live, different⟩, rfl⟩

omit released

theorem WellFormed.release (ok : WellFormed heap) (released : release addr heap = some after) :
    WellFormed after := by
  obtain ⟨block, live, same, rfl⟩ := release_cases released
  have kept : (heap.live.filter (·.addr ≠ addr)).Sublist heap.live := filter_sublist
  obtain ⟨serials, once, apart⟩ := nodup_append.1 ok.serials
  have number : block.serial ∈ heap.live.map Block.serial := List.mem_map_of_mem live
  refine ⟨ok.addrs.sublist (kept.map Block.addr), ?_, ?_⟩
  · apply nodup_append.mpr
    refine ⟨serials.sublist (kept.map Block.serial), nodup_cons.2 ⟨?_, once⟩, ?_⟩
    · intro already
      exact apart _ number _ already rfl
    · intro serial member other earlier equal
      obtain ⟨left, remains, rfl⟩ := List.mem_map.1 member
      rcases mem_cons.1 earlier with rfl | earlier
      · have one := inj_on_of_nodup_map serials (kept.subset remains) live equal
        have different : left.addr ≠ addr := by simpa using (mem_filter.1 remains).2
        exact different (by rw [one, same])
      · exact apart _ (List.mem_map_of_mem (kept.subset remains)) _ earlier equal
  · intro serial member
    apply ok.counted
    rcases mem_append.1 member with member | member
    · exact mem_append_left _ ((kept.map Block.serial).subset member)
    · rcases mem_cons.1 member with rfl | member
      · exact mem_append_left _ number
      · exact mem_append_right _ member

end Release

section Reallocate

variable {alloc : Allocator} {heap after : Heap} {addr : Addr} {answer : Option Addr}

theorem reallocate_cases (answered : reallocate alloc addr heap = some (answer, after)) :
    addr ∈ heap.addrs ∧
    ((∃ moved freed, release addr heap = some freed ∧ moved ∉ freed.addrs ∧ answer = some moved ∧
        after = (allocate alloc freed).2 ∧ after.addrs = moved :: freed.addrs) ∨
      (answer = none ∧ after = ⟨heap.live, heap.released, heap.requests + 1⟩)) := by
  obtain ⟨freed, released, result⟩ := Option.map_eq_some_iff.1 answered
  obtain ⟨block, live, same, _⟩ := release_cases released
  refine ⟨List.mem_map.2 ⟨block, live, same⟩, ?_⟩
  rcases allocate_cases alloc freed with ⟨moved, unused, given⟩ | refused
  · left
    rw [given] at result
    cases result
    exact ⟨moved, freed, released, unused, rfl, by rw [given], rfl⟩
  · right
    rw [refused] at result
    cases result
    exact ⟨rfl, rfl⟩

theorem WellFormed.reallocate (ok : WellFormed heap)
    (answered : reallocate alloc addr heap = some (answer, after)) : WellFormed after := by
  rcases (reallocate_cases answered).2 with ⟨moved, freed, released, _, _, rfl, _⟩ | ⟨_, rfl⟩
  · exact (ok.release released).allocate alloc
  · exact ok.later

end Reallocate

end Blocks
