import Lucis.Library.Blocks
import Lucis.Library.Programs

/-!
The owned-allocation list of string/string.c and five functions of the runtime modules that
allocate through it, one for each way in which they do. A runtime call is a program over six actions: the C library's malloc,
realloc and free, and the tracked ones that string.c puts in their place. Sizes and
the bytes stored are left out; what they decide in a call is its parameter.
-/

namespace Lucis.OwnedRegistry

open Blocks List Option
open Programs
open Programs.Prog (perform)

section Registry

/-- `lucis_owned_node`, at its own address. -/
structure Node where
  addr : Addr
  ptr : Addr
  deriving DecidableEq

/-- The heap and the list behind `lucis_owned_head`. -/
structure State where
  heap : Heap
  owned : List Node
  deriving DecidableEq

inductive Pointer where
  | null
  | literal
  | block (addr : Addr)
  deriving DecidableEq

def Pointer.ofAnswer : Option Addr → Pointer
  | some addr => block addr
  | none => null

def lucisOwnedTrackPtr (alloc : Blocks.Allocator) (ptr : Option Addr) (s : State) : State :=
  match ptr with
  | none => s
  | some p =>
    match allocate alloc s.heap with
    | (some node, heap) => ⟨heap, ⟨node, p⟩ :: s.owned⟩
    | (none, heap) => ⟨heap, s.owned⟩

/-- The loop of `lucis_owned_untrack_ptr`, which reads each node up to the one it
unlinks; reading a node that is no block any more is a fault. -/
def unlink (heap : Heap) (ptr : Pointer) : List Node → Option (Option (Node × List Node))
  | [] => some none
  | node :: rest =>
    if node.addr ∈ heap.addrs then
      if Pointer.block node.ptr = ptr then some (some (node, rest))
      else (unlink heap ptr rest).map (Option.map fun (dead, rest) => (dead, node :: rest))
    else none

def lucisOwnedUntrackPtr (ptr : Pointer) (s : State) : Option (Bool × State) := do
  match ← unlink s.heap ptr s.owned with
  | some (dead, rest) =>
    let heap ← release dead.addr s.heap
    some (true, ⟨heap, rest⟩)
  | none => some (false, s)

/-- `lucis_sys_realloc` -/
def sysRealloc (alloc : Blocks.Allocator) (old : Pointer) (heap : Heap) :
    Option (Option Addr × Heap) :=
  match old with
  | .null => some (allocate alloc heap)
  | .literal => none
  | .block addr => reallocate alloc addr heap

/-- `lucis_sys_free` -/
def sysFree (ptr : Pointer) (heap : Heap) : Option Heap :=
  match ptr with
  | .null => some heap
  | .literal => none
  | .block addr => release addr heap

def lucisTrackedMalloc (alloc : Blocks.Allocator) (s : State) : Option Addr × State :=
  let (ptr, heap) := allocate alloc s.heap
  (ptr, lucisOwnedTrackPtr alloc ptr ⟨heap, s.owned⟩)

def retrack (alloc : Blocks.Allocator) (old : Pointer) (new : Option Addr) (s : State) : State :=
  match new, old with
  | none, .block addr => lucisOwnedTrackPtr alloc (some addr) s
  | _, _ => lucisOwnedTrackPtr alloc new s

def lucisTrackedRealloc (alloc : Blocks.Allocator) (old : Pointer) (s : State) :
    Option (Option Addr × State) :=
  if old = .null then some (lucisTrackedMalloc alloc s)
  else do
    let (wasOwned, s) ← lucisOwnedUntrackPtr old s
    let (new, heap) ← sysRealloc alloc old s.heap
    if wasOwned then some (new, retrack alloc old new ⟨heap, s.owned⟩)
    else some (new, ⟨heap, s.owned⟩)

def lucisTrackedFree (ptr : Pointer) (s : State) : Option State :=
  if ptr = .null then some s
  else do
    let (wasOwned, s) ← lucisOwnedUntrackPtr ptr s
    if wasOwned then (sysFree ptr s.heap).map fun heap => ⟨heap, s.owned⟩
    else some s

end Registry

section Calls

inductive Action where
  | malloc
  | realloc (old : Pointer)
  | free (ptr : Pointer)
  | trackedMalloc
  | trackedRealloc (old : Pointer)
  | trackedFree (ptr : Pointer)

def step (alloc : Blocks.Allocator) : Action → State → Option (Pointer × State)
  | .malloc, s =>
    let (ptr, heap) := allocate alloc s.heap
    some (.ofAnswer ptr, ⟨heap, s.owned⟩)
  | .realloc old, s =>
    (sysRealloc alloc old s.heap).map fun (ptr, heap) => (.ofAnswer ptr, ⟨heap, s.owned⟩)
  | .free ptr, s => (sysFree ptr s.heap).map fun heap => (.null, ⟨heap, s.owned⟩)
  | .trackedMalloc, s =>
    let (ptr, s) := lucisTrackedMalloc alloc s
    some (.ofAnswer ptr, s)
  | .trackedRealloc old, s =>
    (lucisTrackedRealloc alloc old s).map fun (ptr, s) => (.ofAnswer ptr, s)
  | .trackedFree ptr, s => (lucisTrackedFree ptr s).map fun s => (.null, s)

abbrev Runtime (α : Type) := Prog Action Pointer α

def start : State := ⟨.empty, []⟩

/-! string/string.c: `malloc`, `realloc` and `free` are the tracked ones there. -/

def lucisAllocString : Runtime Pointer := perform .trackedMalloc

def lucisFreeStr (ptr : Pointer) : Runtime Unit :=
  if ptr = .null then pure ()
  else do
    let _ ← perform (.trackedFree ptr)
    pure ()

def lucisToUpper : Runtime Pointer := perform .trackedMalloc

/-! The other modules call the C library, and `lucis_allocString` for their texts. -/

def lucisBase64DecodeStr : Runtime Pointer := do
  let out ← lucisAllocString
  pure (if out = .null then .literal else out)

def lucisBase64DecodeVec : Runtime Pointer := do
  let decoded ← lucisBase64DecodeStr
  let buf ← perform .malloc
  let _ ← perform (.free decoded)
  pure buf

end Calls

section Registered

def held (owned : List Node) : List Addr := owned.flatMap fun node => [node.addr, node.ptr]

structure Registered (s : State) : Prop where
  heap : WellFormed s.heap
  distinct : (held s.owned).Nodup
  live : held s.owned ⊆ s.heap.addrs

theorem Registered.start : Registered start :=
  ⟨.empty, nodup_nil, nil_subset _⟩

theorem held_cons (node : Node) (owned : List Node) :
    held (node :: owned) = node.addr :: node.ptr :: held owned := rfl

theorem held_append (front back : List Node) : held (front ++ back) = held front ++ held back :=
  flatMap_append

variable {addr : Addr}

theorem mem_held {owned : List Node} :
    addr ∈ held owned ↔ ∃ node ∈ owned, addr = node.addr ∨ addr = node.ptr := by
  simp [held, mem_flatMap]

theorem held_middle_perm (front : List Node) (dead : Node) (back : List Node) :
    (held (front ++ dead :: back)).Perm (dead.addr :: dead.ptr :: held (front ++ back)) := by
  rw [held_append, held_append, held_cons]
  exact perm_middle.trans (List.Perm.cons _ perm_middle)

variable {alloc : Blocks.Allocator} {s : State} {heap : Heap}

theorem Registered.withHeap (ok : Registered s) (wellFormed : WellFormed heap)
    (live : held s.owned ⊆ heap.addrs) : Registered ⟨heap, s.owned⟩ :=
  ⟨wellFormed, ok.distinct, live⟩

theorem Registered.allocate (ok : Registered s) (alloc : Blocks.Allocator) :
    Registered ⟨(allocate alloc s.heap).2, s.owned⟩ :=
  ok.withHeap (ok.heap.allocate alloc)
    (List.Subset.trans ok.live (allocate_addrs alloc s.heap))

theorem Registered.release (ok : Registered s)
    (free : addr ∉ held s.owned) (released : release addr s.heap = some heap) :
    Registered ⟨heap, s.owned⟩ := by
  apply ok.withHeap (ok.heap.release released)
  intro other member
  rw [mem_addrs_release released]
  refine ⟨ok.live member, ?_⟩
  rintro rfl
  exact free member

theorem Registered.track (ok : Registered s) {ptr : Addr} (live : ptr ∈ s.heap.addrs)
    (free : ptr ∉ held s.owned) : Registered (lucisOwnedTrackPtr alloc (some ptr) s) := by
  have allocated := ok.allocate alloc
  have grown := allocate_addrs alloc s.heap
  rcases allocate_cases alloc s.heap with ⟨node, unused, result⟩ | result
  · rw [result] at allocated grown
    rw [lucisOwnedTrackPtr, result]
    have nodeFree : node ∉ held s.owned := fun member => unused (ok.live member)
    have different : node ≠ ptr := by
      rintro rfl
      exact unused live
    refine ⟨allocated.heap, ?_, ?_⟩
    · rw [held_cons]
      refine nodup_cons.2 ⟨?_, nodup_cons.2 ⟨free, ok.distinct⟩⟩
      intro member
      rcases mem_cons.1 member with same | member
      · exact different same
      · exact nodeFree member
    · intro addr member
      rw [held_cons] at member
      rcases mem_cons.1 member with rfl | member
      · exact .head _
      · rcases mem_cons.1 member with rfl | member
        · exact grown live
        · exact allocated.live member
  · rw [result] at allocated
    rw [lucisOwnedTrackPtr, result]
    exact allocated

theorem unlink_cases (ptr : Pointer) (owned : List Node)
    (live : ∀ node ∈ owned, node.addr ∈ heap.addrs) :
    (unlink heap ptr owned = some none ∧ ∀ node ∈ owned, Pointer.block node.ptr ≠ ptr) ∨
    ∃ front dead back, owned = front ++ dead :: back ∧ Pointer.block dead.ptr = ptr ∧
      unlink heap ptr owned = some (some (dead, front ++ back)) := by
  induction owned with
  | nil => exact .inl ⟨rfl, nofun⟩
  | cons node rest ih =>
    rw [unlink, if_pos (live node mem_cons_self)]
    by_cases same : Pointer.block node.ptr = ptr
    · rw [if_pos same]
      exact .inr ⟨[], node, rest, rfl, same, rfl⟩
    · rw [if_neg same]
      rcases ih fun other member => live other (.tail _ member) with
        ⟨ended, absent⟩ | ⟨front, dead, back, split, found, unlinked⟩
      · left
        rw [ended]
        refine ⟨rfl, ?_⟩
        intro other member
        rcases mem_cons.1 member with rfl | member
        · exact same
        · exact absent other member
      · right
        rw [unlinked]
        exact ⟨node :: front, dead, back, by rw [split, cons_append], found, rfl⟩

def Spares (s after : State) : Prop :=
  ∀ addr ∈ s.heap.addrs, addr ∉ held s.owned →
    addr ∈ after.heap.addrs ∧ addr ∉ held after.owned

theorem Registered.untrack (ok : Registered s) (ptr : Pointer) :
    (lucisOwnedUntrackPtr ptr s = some (false, s) ∧
      ∀ node ∈ s.owned, Pointer.block node.ptr ≠ ptr) ∨
    ∃ addr after, ptr = .block addr ∧ (∃ node ∈ s.owned, node.ptr = addr) ∧
      lucisOwnedUntrackPtr ptr s = some (true, after) ∧ Registered after ∧
      addr ∈ after.heap.addrs ∧ addr ∉ held after.owned ∧ Spares s after := by
  rcases unlink_cases ptr s.owned fun node member =>
      ok.live (mem_held.2 ⟨node, member, .inl rfl⟩) with
    ⟨ended, absent⟩ | ⟨front, dead, back, split, found, unlinked⟩
  · left
    rw [lucisOwnedUntrackPtr, ended]
    exact ⟨rfl, absent⟩
  · right
    have parts : (dead.addr :: dead.ptr :: held (front ++ back)).Nodup := by
      rw [← (held_middle_perm front dead back).nodup_iff, ← split]
      exact ok.distinct
    have inHeap : dead.addr :: dead.ptr :: held (front ++ back) ⊆ s.heap.addrs := by
      apply List.Subset.trans (held_middle_perm front dead back).symm.subset
      rw [← split]
      exact ok.live
    obtain ⟨nodeApart, rest⟩ := nodup_cons.1 parts
    obtain ⟨ptrApart, others⟩ := nodup_cons.1 rest
    obtain ⟨heap, released⟩ := release_isSome (inHeap (.head _))
    have listed : dead ∈ s.owned := by
      rw [split]
      exact mem_append_right _ (.head _)
    refine ⟨dead.ptr, ⟨heap, front ++ back⟩, found.symm, ⟨dead, listed, rfl⟩, ?_,
      ⟨ok.heap.release released, others, ?_⟩, ?_, ptrApart, ?_⟩
    · simp only [lucisOwnedUntrackPtr, unlinked, bind_eq_bind, bind_some, released]
    · intro addr member
      rw [mem_addrs_release released]
      refine ⟨inHeap (.tail _ (.tail _ member)), ?_⟩
      rintro rfl
      exact nodeApart (.tail _ member)
    · rw [mem_addrs_release released]
      refine ⟨inHeap (.tail _ (.head _)), ?_⟩
      intro same
      apply nodeApart
      rw [← same]
      exact .head _
    · intro addr isLive notHeld
      have fewer : ∀ other ∈ dead.addr :: held (front ++ back), other ∈ held s.owned := by
        intro other member
        rw [split]
        apply (held_middle_perm front dead back).symm.subset
        rcases mem_cons.1 member with rfl | member
        · exact .head _
        · exact .tail _ (.tail _ member)
      constructor
      · rw [mem_addrs_release released]
        exact ⟨isLive, fun same => notHeld (fewer _ (same ▸ (.head _)))⟩
      · exact fun member => notHeld (fewer _ (.tail _ member))

end Registered

section Steps

variable {alloc : Blocks.Allocator} {s after : State}

def Stays (alloc : Blocks.Allocator) (addr : Addr) (heap : Heap) : Prop :=
  ∀ moved after, reallocate alloc addr heap = some (some moved, after) → moved = addr

/-- The C library's free and realloc take no block from the list: neither a pointer it
holds nor one of its nodes. -/
def Harmless (alloc : Blocks.Allocator) : Action → State → Prop
  | .free (.block addr), s => addr ∉ held s.owned
  | .realloc (.block addr), s => addr ∈ held s.owned → Stays alloc addr s.heap
  | .trackedRealloc (.block addr), s =>
    addr ∈ s.owned.map Node.addr → Stays alloc addr s.heap
  | _, _ => True

variable {answer : Option Addr}

variable {heap : Heap}

theorem Registered.reallocate (ok : Registered s) {addr : Addr}
    (answered : reallocate alloc addr s.heap = some (answer, heap))
    (kept : addr ∈ held s.owned → Stays alloc addr s.heap) : Registered ⟨heap, s.owned⟩ := by
  apply ok.withHeap (ok.heap.reallocate answered)
  rcases (reallocate_cases answered).2 with ⟨moved, freed, released, _, rfl, _, addrs⟩ | ⟨_, rfl⟩
  · intro other member
    rw [addrs]
    by_cases same : other = addr
    · subst same
      rw [kept member moved heap answered]
      exact .head _
    · have left := (mem_addrs_release released other).2 ⟨ok.live member, same⟩
      exact .tail _ left
  · exact ok.live

variable {old : Pointer}

theorem Registered.sysRealloc (ok : Registered s)
    (answered : sysRealloc alloc old s.heap = some (answer, heap))
    (kept : ∀ addr, old = .block addr → addr ∈ held s.owned → Stays alloc addr s.heap) :
    Registered ⟨heap, s.owned⟩ := by
  cases old with
  | null =>
    have served : Blocks.allocate alloc s.heap = (answer, heap) := Option.some.inj answered
    have allocated := ok.allocate alloc
    rwa [served] at allocated
  | literal => cases answered
  | block addr => exact ok.reallocate answered (kept addr rfl)

theorem Registered.trackedMalloc (ok : Registered s) :
    Registered (lucisTrackedMalloc alloc s).2 := by
  have allocated := ok.allocate alloc
  rw [lucisTrackedMalloc]
  rcases allocate_cases alloc s.heap with ⟨addr, unused, result⟩ | result
  · rw [result] at allocated ⊢
    exact allocated.track (.head _) fun member => unused (ok.live member)
  · rw [result] at allocated ⊢
    exact allocated

theorem Registered.trackedRealloc (ok : Registered s)
    (kept : Harmless alloc (.trackedRealloc old) s)
    (answered : lucisTrackedRealloc alloc old s = some (answer, after)) : Registered after := by
  rw [lucisTrackedRealloc] at answered
  by_cases none : old = .null
  · rw [if_pos none] at answered
    cases answered
    exact ok.trackedMalloc
  · rw [if_neg none] at answered
    rcases ok.untrack old with ⟨unlisted, absent⟩ | ⟨addr, middle, rfl, _, listed, ok', live, free, _⟩
    · rw [unlisted, bind_eq_bind, bind_some] at answered
      obtain ⟨⟨new, heap⟩, resized, result⟩ := bind_eq_some_iff.1 answered
      cases result
      apply ok.sysRealloc resized
      rintro addr rfl member
      obtain ⟨node, inList, same | same⟩ := mem_held.1 member
      · exact kept (List.mem_map.2 ⟨node, inList, same.symm⟩)
      · exact absurd (by rw [same]) (absent node inList)
    · rw [listed, bind_eq_bind, bind_some] at answered
      obtain ⟨⟨new, heap⟩, resized, result⟩ := bind_eq_some_iff.1 answered
      have resized : Blocks.reallocate alloc addr middle.heap = some (new, heap) := resized
      have moved := ok'.reallocate resized fun member => absurd member free
      cases result
      rcases (reallocate_cases resized).2 with ⟨place, freed, released, unused, rfl, _, addrs⟩ | ⟨rfl, same⟩
      · apply moved.track
        · rw [addrs]
          exact .head _
        · intro member
          apply unused
          rw [mem_addrs_release released]
          refine ⟨ok'.live member, ?_⟩
          rintro rfl
          exact free member
      · refine moved.track ?_ free
        rw [same]
        exact live

theorem Registered.trackedFree (ok : Registered s) (ptr : Pointer) :
    ∃ after, lucisTrackedFree ptr s = some after ∧ Registered after ∧ Spares s after := by
  have same : Spares s s := fun _ live free => ⟨live, free⟩
  by_cases none : ptr = .null
  · exact ⟨s, if_pos none, ok, same⟩
  · rcases ok.untrack ptr with
      ⟨unlisted, _⟩ | ⟨addr, middle, rfl, ⟨node, inList, rfl⟩, listed, ok', live, free, spared⟩
    · refine ⟨s, ?_, ok, same⟩
      rw [lucisTrackedFree, if_neg none, unlisted]
      rfl
    · obtain ⟨heap, released⟩ := release_isSome live
      refine ⟨⟨heap, middle.owned⟩, ?_, ok'.release free released, ?_⟩
      · rw [lucisTrackedFree, if_neg none, listed]
        simp only [bind_eq_bind, bind_some, sysFree, released, map_some, if_true]
      · intro other isLive notHeld
        obtain ⟨stillLive, stillFree⟩ := spared other isLive notHeld
        refine ⟨(mem_addrs_release released other).2 ⟨stillLive, ?_⟩, stillFree⟩
        rintro rfl
        exact notHeld (mem_held.2 ⟨node, inList, .inr rfl⟩)

theorem step_registered (action : Action) {answer : Pointer} (harmless : Harmless alloc action s)
    (ok : Registered s) (stepped : step alloc action s = some (answer, after)) :
    Registered after := by
  cases action with
  | malloc =>
    cases stepped
    exact ok.allocate alloc
  | realloc old =>
    obtain ⟨⟨new, heap⟩, resized, result⟩ := map_eq_some_iff.1 stepped
    cases result
    apply ok.sysRealloc resized
    rintro addr rfl
    exact harmless
  | free ptr =>
    obtain ⟨heap, released, result⟩ := map_eq_some_iff.1 stepped
    cases result
    cases ptr with
    | null =>
      cases released
      exact ok
    | literal => cases released
    | block addr => exact ok.release harmless released
  | trackedMalloc =>
    cases stepped
    exact ok.trackedMalloc
  | trackedRealloc old =>
    obtain ⟨⟨new, last⟩, resized, result⟩ := map_eq_some_iff.1 stepped
    cases result
    exact ok.trackedRealloc harmless resized
  | trackedFree ptr =>
    obtain ⟨last, freed, ok', _⟩ := ok.trackedFree ptr
    obtain ⟨other, ran, result⟩ := map_eq_some_iff.1 stepped
    cases result
    rw [freed] at ran
    cases ran
    exact ok'

end Steps

section Callers

variable {alloc : Blocks.Allocator} {s : State} {mine : List Addr} {α : Type}

structure Own (mine : List Addr) (s : State) : Prop where
  registered : Registered s
  distinct : mine.Nodup
  live : mine ⊆ s.heap.addrs
  free : ∀ addr ∈ mine, addr ∉ held s.owned

abbrev Careful (alloc : Blocks.Allocator) (call : Runtime α) (s : State) : Prop :=
  Guarded (step alloc) (Harmless alloc) call s

theorem Own.none (ok : Registered s) : Own [] s :=
  ⟨ok, nodup_nil, nil_subset _, nofun⟩

theorem Own.spared (own : Own mine s) {after : State} (ok : Registered after)
    (spared : Spares s after) : Own mine after :=
  ⟨ok, own.distinct, fun addr member => (spared addr (own.live member) (own.free addr member)).1,
    fun addr member => (spared addr (own.live member) (own.free addr member)).2⟩

theorem trackedMalloc_spares (alloc : Blocks.Allocator) (s : State) :
    Spares s (lucisTrackedMalloc alloc s).2 := by
  intro addr live free
  rw [lucisTrackedMalloc]
  rcases allocate_cases alloc s.heap with ⟨ptr, unused, result⟩ | result
  · rw [result]
    have different : addr ≠ ptr := by
      rintro rfl
      exact unused live
    rcases allocate_cases alloc (Blocks.allocate alloc s.heap).2 with ⟨node, unused', result'⟩ | result'
    · rw [result] at unused' result'
      simp only [lucisOwnedTrackPtr, result']
      have inHeap : addr ∈ ptr :: s.heap.addrs := .tail _ live
      refine ⟨.tail _ inHeap, ?_⟩
      rw [held_cons]
      intro member
      rcases mem_cons.1 member with rfl | member
      · exact unused' inHeap
      · rcases mem_cons.1 member with rfl | member
        · exact different rfl
        · exact free member
    · rw [result] at result'
      simp only [lucisOwnedTrackPtr, result']
      exact ⟨.tail _ live, free⟩
  · rw [result]
    exact ⟨live, free⟩

variable {rest : Pointer → Runtime α}

theorem Own.trackedMalloc (own : Own mine s)
    (later : ∀ ptr after, Own mine after → Careful alloc (rest ptr) after) :
    Careful alloc (perform .trackedMalloc >>= rest) s := by
  refine ⟨trivial, ?_⟩
  intro answer after stepped
  cases stepped
  exact later _ _ (own.spared own.registered.trackedMalloc (trackedMalloc_spares alloc s))

theorem Own.trackedFree (own : Own mine s) (ptr : Pointer)
    (later : ∀ after, Own mine after → Careful alloc (rest .null) after) :
    Careful alloc (perform (.trackedFree ptr) >>= rest) s := by
  refine ⟨trivial, ?_⟩
  intro answer after stepped
  obtain ⟨last, freed, ok, spared⟩ := own.registered.trackedFree ptr
  rw [step, freed] at stepped
  cases stepped
  exact later _ (own.spared ok spared)

theorem Own.freeStr (own : Own mine s) (ptr : Pointer) {rest : Unit → Runtime α}
    (later : ∀ after, Own mine after → Careful alloc (rest ()) after) :
    Careful alloc (lucisFreeStr ptr >>= rest) s := by
  rw [lucisFreeStr]
  by_cases none : ptr = .null
  · rw [if_pos none]
    exact later s own
  · rw [if_neg none]
    exact own.trackedFree ptr later

def freeTimes (ptr : Pointer) : Nat → Runtime Unit
  | 0 => pure ()
  | count + 1 => do
      lucisFreeStr ptr
      freeTimes ptr count

theorem freeTimes_careful (ok : Registered s) (ptr : Pointer) (count : Nat) :
    Careful alloc (freeTimes ptr count) s := by
  induction count generalizing s with
  | zero => trivial
  | succ count ih =>
    apply (Own.none ok).freeStr
    intro after own
    exact ih own.registered

end Callers

section Runs

variable {alloc : Blocks.Allocator} {α : Type} {s : State}

theorem freeStr_runs (alloc : Blocks.Allocator) (ok : Registered s) (ptr : Pointer) :
    ∃ after, run (step alloc) (lucisFreeStr ptr) s = some ((), after) ∧ Registered after := by
  rw [lucisFreeStr]
  by_cases none : ptr = .null
  · rw [if_pos none]
    exact ⟨s, rfl, ok⟩
  · rw [if_neg none]
    obtain ⟨after, freed, ok', _⟩ := ok.trackedFree ptr
    refine ⟨after, ?_, ok'⟩
    have stepped : step alloc (.trackedFree ptr) s = some (.null, after) := by
      rw [step, freed, map_some]
    show (step alloc (.trackedFree ptr) s).bind _ = _
    rw [stepped]
    rfl

theorem freeTimes_runs (alloc : Blocks.Allocator) (ptr : Pointer) (count : Nat) (ok : Registered s) :
    ∃ after, run (step alloc) (freeTimes ptr count) s = some ((), after) ∧ Registered after := by
  induction count generalizing s with
  | zero => exact ⟨s, rfl, ok⟩
  | succ count ih =>
    obtain ⟨middle, freed, ok'⟩ := freeStr_runs alloc ok ptr
    obtain ⟨after, rest, ok''⟩ := ih ok'
    refine ⟨after, ?_, ok''⟩
    show run (step alloc) ((lucisFreeStr ptr).bind fun _ => freeTimes ptr count) s = _
    rw [run_bind, freed]
    exact rest

structure OwnedOnce (s : State) : Prop where
  live : ∀ node ∈ s.owned, node.ptr ∈ s.heap.addrs
  once : (s.owned.map Node.ptr).Nodup

theorem Registered.ownedOnce (ok : Registered s) : OwnedOnce s := by
  constructor
  · intro node member
    exact ok.live (mem_held.2 ⟨node, member, .inr rfl⟩)
  · refine List.Nodup.sublist ?_ ok.distinct
    induction s.owned with
    | nil => exact List.Sublist.slnil
    | cons node rest ih =>
      rw [held_cons, map_cons]
      exact (ih.cons_cons node.ptr).cons node.addr

/-- Whatever calls the runtime makes: as long as the C library's free and realloc take no
block from the list, the list is right in every state between two actions, no block has
been released twice, and freeing a text any number of times from there releases none
twice. -/
theorem registry_sound (alloc : Blocks.Allocator) (client : Runtime α)
    (harmless : Guarded (step alloc) (Harmless alloc) client start) {s : State}
    (reached : Reaches (step alloc) client start s) :
    OwnedOnce s ∧ s.heap.released.Nodup ∧
    ∀ ptr count, ∃ after, run (step alloc) (freeTimes ptr count) s = some ((), after) ∧
      after.heap.released.Nodup := by
  have ok := reached.invariant (fun action _ _ _ => step_registered action) harmless .start
  refine ⟨ok.ownedOnce, ok.heap.once, ?_⟩
  intro ptr count
  obtain ⟨after, ran, ok'⟩ := freeTimes_runs alloc ptr count ok
  exact ⟨after, ran, ok'.heap.once⟩

def lowest : Blocks.Allocator where
  choose inUse _ := (List.range (inUse.length + 1)).find? fun addr => decide (addr ∉ inUse)
  unused inUse _ addr chosen := by simpa using List.find?_some chosen

def textFreedTwice : Runtime Unit := do
  let text ← lucisToUpper
  freeTimes text 2

theorem registry_sound_text :
    ∃ s, OwnedOnce s ∧ s.heap.released = [0, 1] ∧
      ∀ ptr count, ∃ after, run (step lowest) (freeTimes ptr count) s = some ((), after) ∧
        after.heap.released.Nodup := by
  have harmless : Careful lowest textFreedTwice start := by
    apply (Own.none .start).trackedMalloc
    intro text after own
    exact freeTimes_careful own.registered text 2
  have ran : run (step lowest) textFreedTwice start = some ((), ⟨⟨[], [0, 1], 2⟩, []⟩) := by
    decide
  obtain ⟨once, _, again⟩ := registry_sound lowest textFreedTwice harmless (run_reaches _ ran)
  exact ⟨_, once, rfl, again⟩

/-- A vector of bytes is decoded, and then a text is made: the text gets the address of the
decoder's block, which the list still has. -/
def decodeThenText : Runtime Unit := do
  let _ ← lucisBase64DecodeVec
  let _ ← lucisToUpper
  pure ()

theorem decoded_block_listed_twice :
    ∃ s, Reaches (step lowest) decodeThenText start s ∧ ¬OwnedOnce s ∧
      run (step lowest) (freeTimes (.block 0) 2) s = none := by
  have ran : run (step lowest) decodeThenText start =
      some ((), ⟨⟨[⟨3, 4⟩, ⟨0, 3⟩, ⟨2, 2⟩, ⟨1, 1⟩], [0], 5⟩, [⟨3, 0⟩, ⟨1, 0⟩]⟩) := by
    decide
  refine ⟨_, run_reaches _ ran, ?_, by decide⟩
  intro ok
  exact absurd ok.once (by decide)

end Runs

end Lucis.OwnedRegistry
