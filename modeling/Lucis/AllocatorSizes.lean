import Lucis.Allocator
import Lucis.FreeListRuns
import Lucis.Pool

/-!
The size arithmetic of the three allocators: for which arguments a request is served with what
was asked for, or refused with nothing changed. Each tests its bound on a word that has wrapped.
-/

namespace Lucis

open ByteMemory List

namespace Pool

section Sizes

variable {memory : Memory} {buf blockSize blockCount i : Nat}

def blockAt (buf blockSize i : Nat) : Nat := FreeList.usize (buf + FreeList.usize (i * blockSize))

def CreateKept (memory : Memory) (buf blockSize blockCount : Nat) : Prop :=
  (∃ message, create memory buf blockSize blockCount = .error message) ∨
    (∀ i < blockCount, buf ≤ blockAt buf (clamp blockSize) i ∧
      blockAt buf (clamp blockSize) i + clamp blockSize ≤ buf + totalSize blockSize blockCount) ∧
    ∀ i < blockCount, ∀ j < blockCount, i ≠ j →
      ¬Region.Shares ⟨blockAt buf (clamp blockSize) i, clamp blockSize⟩
        ⟨blockAt buf (clamp blockSize) j, clamp blockSize⟩

theorem blocks_inside (placed : buf + clamp blockSize * blockCount < 2 ^ 64) (below : i < blockCount) :
    blockAt buf (clamp blockSize) i = buf + i * clamp blockSize ∧
      buf + i * clamp blockSize + clamp blockSize ≤ buf + clamp blockSize * blockCount := by
  have ends : buf + i * clamp blockSize + clamp blockSize ≤
      buf + clamp blockSize * blockCount := by
    rw [mul_comm (clamp blockSize)]
    exact slot_apart below
  exact ⟨curr_eq (by omega), ends⟩

theorem block_outside (wraps : 2 ^ 64 ≤ clamp blockSize * blockCount)
    (placed : buf + totalSize blockSize blockCount < 2 ^ 64) :
    ∃ i < blockCount, buf + totalSize blockSize blockCount <
      blockAt buf (clamp blockSize) i + clamp blockSize := by
  have large := clamp_le blockSize
  have total : totalSize blockSize blockCount < 2 ^ 64 := Nat.mod_lt _ (by decide)
  -- the last block that begins in the buffer
  refine ⟨totalSize blockSize blockCount / clamp blockSize, ?_, ?_⟩
  · rw [Nat.div_lt_iff_lt_mul (by omega), mul_comm]
    exact total.trans_le wraps
  · have start := Nat.div_mul_le_self (totalSize blockSize blockCount) (clamp blockSize)
    have next := Nat.lt_div_mul_add (a := totalSize blockSize blockCount) (b := clamp blockSize)
      (by omega)
    rw [blockAt, curr_eq (by omega)]
    omega

theorem create_kept_iff (placed : buf + totalSize blockSize blockCount < 2 ^ 64) :
    CreateKept memory buf blockSize blockCount ↔
      buf = 0 ∨ clamp blockSize * blockCount < 2 ^ 64 := by
  by_cases null : buf = 0
  · exact iff_of_true (.inl ⟨_, if_pos null⟩) (.inl null)
  constructor
  · rintro (⟨message, refused⟩ | ⟨inside, _⟩)
    · rw [create, if_neg null] at refused
      cases refused
    · by_contra wraps
      rcases block_outside (Nat.le_of_not_lt (not_or.1 wraps).2) placed with ⟨i, below, past⟩
      exact absurd (inside i below).2 (Nat.not_le.2 past)
  · rintro (refused | fits)
    · exact absurd refused null
    · have placed' := placed
      rw [totalSize, FreeList.usize_of_lt fits] at placed'
      refine .inr ⟨fun i below => ?_, fun i below j below' differs => ?_⟩
      · rw [totalSize, FreeList.usize_of_lt fits, (blocks_inside placed' below).1]
        exact ⟨le_self_add, (blocks_inside placed' below).2⟩
      · rw [(blocks_inside placed' below).1, (blocks_inside placed' below').1]
        refine Region.Apart.not_shares ?_
        rcases Nat.lt_or_gt_of_ne differs with before | after
        · exact .inl (slot_apart before)
        · exact .inr (slot_apart after)

end Sizes

end Pool

namespace FreeList

section Sizes

variable {w : World} {free : List Region} {size : Nat}

/-- Null and nothing changed, or a region of the size in the buffer, which shares no byte with
those given out; the search ends. -/
def AllocKept (w : World) (size : Nat) : Prop :=
  ∃ fuel ptr state, FreeList.alloc fuel w.state size = some (ptr, state) ∧
    (ptr = 0 ∧ state = w.state ∨
      ptr ≠ 0 ∧ w.state.self.buffer ≤ ptr ∧
        ptr + size ≤ w.state.self.buffer + w.state.self.capacity ∧
          ∀ g ∈ w.grants, ¬Region.Shares ⟨ptr, size⟩ ⟨g.ptr, g.size⟩)

def AllocFits (w : World) (size : Nat) : Prop :=
  size + flHdr < 2 ^ 64 ∨ w.state.self.head = 0

variable (sound : Sound w free)
include sound

theorem Sound.alloc_large (large : w.state.self.capacity < size)
    (fits : size + flHdr < 2 ^ 64) {fuel : Nat} (more : free.length < fuel) :
    FreeList.alloc fuel w.state size = some (0, w.state) := by
  have zero : size ≠ 0 := ne_of_gt (Nat.zero_lt_of_lt large)
  have needed : usize (size + flHdr) = size + flHdr := usize_of_lt fits
  rcases walk_links (fun curr => decide (size + flHdr ≤ blockSize w.state.memory curr))
    sound.links (fun r member => (sound.headed member).2) more 0 with
    ⟨front, back, rfl, walked, _, stopped⟩
  cases back with
  | nil => simp [FreeList.alloc, zero, needed, walked, headFrom]
  | cons r back =>
    have room := of_decide_eq_true (stopped r rfl)
    rw [links_size sound.links r (by simp)] at room
    have inside := sound.listed r (by simp)
    simp only [Region.stop] at inside
    omega

omit sound in
theorem alloc_empty (empty : w.state.self.head = 0) (fuel : Nat) :
    FreeList.alloc (fuel + 1) w.state size = some (0, w.state) := by
  unfold FreeList.alloc
  split
  · rfl
  · change Option.map _ (walk _ _ (fuel + 1) 0 w.state.self.head) = _
    rw [empty, walk, if_pos (.inl rfl)]
    rfl

omit sound in
theorem Sound.alloc_wraps {r : Region} {rest} (sound : Sound w (r :: rest))
    (word : size < 2 ^ 64) (wraps : 2 ^ 64 ≤ size + flHdr) {fuel ptr : Nat} {state : State}
    (done : FreeList.alloc fuel w.state size = some (ptr, state)) : ptr = r.start + flHdr := by
  have positive : size ≠ 0 := by
    simp only [flHdr] at wraps
    omega
  have needed : usize (size + flHdr) < flHdr := by
    rw [usize, Nat.mod_eq_sub_mod wraps, Nat.mod_eq_of_lt] <;> simp only [flHdr] at wraps ⊢ <;> omega
  have headed := sound.headed (.head _)
  rcases sound.links with ⟨first, size_eq, _⟩
  rw [FreeList.alloc, if_neg positive] at done
  rcases Option.map_eq_some_iff.1 done with ⟨⟨prev, curr⟩, walked, given⟩
  cases fuel with
  | zero => cases walked
  | succ fuel =>
    rw [first] at size_eq
    have stops : usize (size + flHdr) ≤ blockSize w.state.memory r.start := by omega
    rw [walk, first, if_pos (.inr (decide_eq_true stops))] at walked
    cases walked
    change (if r.start = 0 then _ else _) = _ at given
    rw [if_neg headed.2] at given
    exact (congrArg Prod.fst given).symm

theorem Sound.grant_inside {g : Grant} (member : g ∈ w.grants) :
    Region.Inside ⟨g.ptr, g.size⟩ (g.block w.state.memory) := by
  have granted := sound.granted g member
  have start := sound.block_start member
  simp only [Region.Inside, Region.stop] at granted ⊢
  omega

theorem Sound.alloc_kept (small : size ≤ w.state.self.capacity) :
    AllocKept w size := by
  rcases sound.alloc_enough size small (Nat.lt_succ_self free.length) with
    ⟨refused, _⟩ | ⟨front, r, back, state, rfl, nonzero, fits, given, links, taken, kept, same⟩
  · exact ⟨_, 0, w.state, refused, .inl ⟨rfl, rfl⟩⟩
  · have after := sound.alloc nonzero fits links taken kept same.1 same.2
    have granted := after.granted _ (.head _)
    have inside := after.grant_inside (.head _)
    have nonnull := sound.nonnull
    refine ⟨_, _, state, given, .inr ⟨?_, ?_, ?_, fun g member shares => ?_⟩⟩
    · exact ne_of_gt (Nat.add_pos_right _ (by decide))
    · rw [same.1] at granted
      exact (le_self_add).trans granted.1
    · rw [← same.1, ← same.2]
      exact inside.2.trans granted.2.2.1
    · have apart := (pairwise_cons.1 after.distinct).1 g member
      have other := after.grant_inside (.tail _ member)
      exact apart.not_shares ((shares.of_inside inside).symm.of_inside other).symm

theorem Sound.alloc_kept_iff (word : size < 2 ^ 64) :
    AllocKept w size ↔ AllocFits w size := by
  constructor
  · rintro ⟨fuel, ptr, state, done, kept⟩
    by_contra wraps
    rcases not_or.1 wraps with ⟨large, nonempty⟩
    cases free with
    | nil => exact nonempty sound.links
    | cons r rest =>
      have wraps := Nat.le_of_not_lt large
      have given := sound.alloc_wraps word wraps done
      have listed := sound.listed r (.head _)
      have placed := sound.placed
      have nonnull := sound.nonnull
      rcases kept with ⟨null, _⟩ | ⟨_, _, ends, _⟩ <;> omega
  · intro fits
    by_cases small : size ≤ w.state.self.capacity
    · exact sound.alloc_kept small
    · rcases fits with fits | empty
      · exact ⟨_, 0, w.state, sound.alloc_large (Nat.lt_of_not_le small) fits
          (Nat.lt_succ_self _), .inl ⟨rfl, rfl⟩⟩
      · exact ⟨1, 0, w.state, alloc_empty empty 0, .inl ⟨rfl, rfl⟩⟩

/-- Calls as in `Allowed`, but for any size that fits. -/
def SizedAllowed (w : World) : Call → Prop
  | .alloc size => size < 2 ^ 64 ∧ AllocFits w size
  | .free ptr => Allowed w (.free ptr)
  | .write addr byte => Allowed w (.write addr byte)

inductive SizedRun : World → Prop
  | create {memory : Memory} {buf size : Nat} {state : State}
      (created : FreeList.create memory buf size = .ok state)
      (placed : buf + size ≤ 2 ^ 64) (half : size < 2 ^ 63) : SizedRun ⟨state, []⟩
  | call {w w' : World} {call : Call} (run : SizedRun w) (allowed : SizedAllowed w call)
      (does : Does w call w') : SizedRun w'

theorem Sound.large_does {w' : World} (large : w.state.self.capacity < size)
    (fits : AllocFits w size) (does : Does w (.alloc size) w') : w' = w := by
  cases does with
  | @alloc fuel _ ptr state done =>
    have done' := alloc_mono done (le_max_left fuel (free.length + 1))
    have refused : FreeList.alloc (max fuel (free.length + 1)) w.state size = some (0, w.state) := by
      rcases fits with fits | empty
      · exact sound.alloc_large large fits (le_max_right fuel (free.length + 1))
      · exact alloc_mono (alloc_empty empty 0) (by omega)
    rw [refused] at done'
    cases done'
    rfl

omit sound

theorem sized_sound (run : SizedRun w) : ∃ free, Sound w free := by
  induction run with
  | create created placed half => exact ⟨_, sound_create created placed half⟩
  | @call w w' call _ allowed does ih =>
    rcases ih with ⟨free, sound⟩
    cases call with
    | alloc size =>
      by_cases small : size ≤ w.state.self.capacity
      · exact @sound_step _ _ (.alloc size) _ sound small does
      · rw [sound.large_does (Nat.lt_of_not_le small) allowed.2 does]
        exact ⟨free, sound⟩
    | free ptr => exact @sound_step _ _ (.free ptr) _ sound allowed does
    | write addr byte => exact @sound_step _ _ (.write addr byte) _ sound allowed does

end Sizes

end FreeList

namespace Allocator

/-- Each of the four keeps what it promises exactly when its sums and products are words: in
every run of an arena or a free list whose calls so far fit, and for every pool created. -/
theorem sizes_kept_iff (arena : World) (list : FreeList.World) (run : Run arena)
    (sized : FreeList.SizedRun list) :
    (∀ call, Documented arena call → (Kept arena call ↔ Fits arena call)) ∧
    (∀ memory buf blockSize blockCount, buf + Pool.totalSize blockSize blockCount < 2 ^ 64 →
      (Pool.CreateKept memory buf blockSize blockCount ↔
        buf = 0 ∨ Pool.clamp blockSize * blockCount < 2 ^ 64)) ∧
    ∀ size, size < 2 ^ 64 → (FreeList.AllocKept list size ↔ FreeList.AllocFits list size) := by
  refine ⟨fun call documented => run_kept_iff run call documented,
    fun memory buf blockSize blockCount placed => Pool.create_kept_iff placed, ?_⟩
  intro size word
  rcases FreeList.sized_sound sized with ⟨free, sound⟩
  exact sound.alloc_kept_iff word

/-- A region is grown in place, a pool made and a block of a free list taken. -/
theorem sizes_kept_iff_served :
    Kept (perform ⟨⟨⟨4096, 16, 0⟩, fun _ => 0⟩, []⟩ (.alloc 8)) (.realloc 4096 8 12) ∧
      Pool.CreateKept (fun _ => 0) 4096 16 2 ∧
      ∀ state, FreeList.create (fun _ => 0) 4096 64 = .ok state →
        FreeList.AllocKept ⟨state, []⟩ 8 := by
  have created := @Run.create (fun _ => 0) 4096 16 _ rfl (by decide)
  have given := @Run.call _ (.alloc 8) created (by decide : 8 < 2 ^ 64) (by decide : 0 + 8 < 2 ^ 64)
  have list := @FreeList.SizedRun.create (fun _ => 0) 4096 64 _ rfl (by decide) (by decide)
  have ⟨regions, pools, _⟩ := sizes_kept_iff _ _ given list
  refine ⟨(regions (.realloc 4096 8 12) ⟨by decide, .inr ⟨by decide, .head _⟩⟩).mpr ?_,
    (pools _ _ _ _ (by decide)).mpr (.inr (by decide)), fun state made => ?_⟩
  · exact .inl (by decide : 8 + 12 < 2 ^ 64)
  · have served := sizes_kept_iff _ _ given (.create made (by decide) (by decide))
    exact (served.2.2 8 (by decide)).mpr (.inl (by decide))

/-- Behind 8 bytes of an arena of 16, a request for all but 8 bytes of the address space wraps to
zero and is served. -/
theorem huge_request_served :
    ¬∀ w, Run w → ∀ call, Documented w call → Kept w call := by
  intro kept
  have created := @Run.create (fun _ => 0) 4096 16 _ rfl (by decide)
  have given := @Run.call _ (.alloc 8) created (by decide : 8 < 2 ^ 64) (by decide : 0 + 8 < 2 ^ 64)
  have word : 2 ^ 64 - 8 < 2 ^ 64 := by decide
  have fits := (run_kept_iff given (.alloc (2 ^ 64 - 8)) word).mp (kept _ given _ word)
  exact absurd fits (by decide : ¬8 + (2 ^ 64 - 8) < 2 ^ 64)

end Allocator

end Lucis
