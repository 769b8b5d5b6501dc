import Lucis.FreeList

/-!
The arena allocator of the standard library. It hands out the buffer from front to back; each
bound is tested on a sum that wraps, so a request close to 2^64 passes. The regions handed out
since the last reset are recorded beside it.
-/

namespace Lucis

open ByteMemory List
open FreeList (usize usize_of_lt)

structure Allocator where
  buffer : Nat
  capacity : Nat
  offset : Nat

namespace Allocator

structure State where
  self : Allocator
  memory : Memory

section Source

/-- `buf` is the answer to a request for `size` bytes, null when it is refused; the test for a
negative `size` never holds of a usize. -/
def create (memory : Memory) (buf size : Nat) : Except String State :=
  if buf = 0 then .error "An error ocurred while creating allocation!"
  else .ok ⟨⟨buf, size, 0⟩, memory⟩

def alloc (s : State) (size : Nat) : Nat × State :=
  if s.self.capacity < usize (s.self.offset + size) then (0, s)
  else (usize (s.self.buffer + s.self.offset),
    { s with self := { s.self with offset := usize (s.self.offset + size) } })

def reset (s : State) : State := { s with self := { s.self with offset := 0 } }

/-- The way out of `realloc` that copies to a new block. -/
def reallocCopy (s : State) (ptr oldSize newSize : Nat) : Nat × State :=
  let (newPtr, s) := alloc s newSize
  if newPtr = 0 then (0, s)
  else (newPtr, { s with memory := copy s.memory newPtr ptr oldSize })

def realloc (s : State) (ptr oldSize newSize : Nat) : Nat × State :=
  if ptr = 0 then alloc s newSize
  else if newSize = 0 then (0, s)
  else if newSize ≤ oldSize then (ptr, s)
  else
    let extra := newSize - oldSize
    if usize (ptr + oldSize) = usize (s.self.buffer + s.self.offset) ∧
        usize (s.self.offset + extra) ≤ s.self.capacity then
      (ptr, { s with self := { s.self with offset := usize (s.self.offset + extra) } })
    else reallocCopy s ptr oldSize newSize

end Source

structure World where
  state : State
  used : List Region

inductive Call where
  | alloc (size : Nat)
  | realloc (ptr oldSize newSize : Nat)
  | reset
  | write (addr : Nat) (byte : UInt8)

def Documented (w : World) : Call → Prop
  | .alloc size => size < 2 ^ 64
  | .realloc ptr oldSize newSize =>
    newSize < 2 ^ 64 ∧ (ptr = 0 ∨ ptr ≠ 0 ∧ ⟨ptr, oldSize⟩ ∈ w.used)
  | .reset => True
  | .write _ _ => True

def others (w : World) (ptr oldSize : Nat) : List Region :=
  if ptr = 0 then w.used else w.used.erase ⟨ptr, oldSize⟩

/-- A region that is resized where it is is replaced; one that is copied is not freed. -/
def perform (w : World) : Call → World
  | .alloc size =>
    let (ptr, state) := alloc w.state size
    ⟨state, if ptr = 0 then w.used else ⟨ptr, size⟩ :: w.used⟩
  | .realloc ptr oldSize newSize =>
    let (newPtr, state) := realloc w.state ptr oldSize newSize
    ⟨state, if newPtr = 0 then w.used
      else if newPtr = ptr then ⟨ptr, newSize⟩ :: w.used.erase ⟨ptr, oldSize⟩
      else ⟨newPtr, newSize⟩ :: w.used⟩
  | .reset => ⟨reset w.state, []⟩
  | .write addr byte => ⟨{ w.state with memory := poke w.state.memory addr byte }, w.used⟩

/-- Null and nothing changed, or a region of the size inside the buffer that shares no byte with
the regions given. -/
def Serves (s : State) (answer : Nat × State) (size : Nat) (rs : List Region) : Prop :=
  answer = (0, s) ∨
    (answer.1 ≠ 0 ∧ s.self.buffer ≤ answer.1 ∧
      answer.1 + size ≤ s.self.buffer + s.self.capacity ∧
        ∀ r ∈ rs, ¬Region.Shares ⟨answer.1, size⟩ r)

def Kept (w : World) : Call → Prop
  | .alloc size => Serves w.state (alloc w.state size) size w.used
  | .realloc ptr oldSize newSize =>
    let answer := realloc w.state ptr oldSize newSize
    Serves w.state answer newSize (others w ptr oldSize) ∧
      (ptr ≠ 0 → answer.1 ≠ 0 →
        ∀ i < oldSize, answer.2.memory (answer.1 + i) = w.state.memory (ptr + i))
  | .reset => True
  | .write _ _ => True

def Fits (w : World) : Call → Prop
  | .alloc size => w.state.self.offset + size < 2 ^ 64
  | .realloc ptr oldSize newSize =>
    w.state.self.offset + newSize < 2 ^ 64 ∨
      ptr ≠ 0 ∧ (newSize ≤ oldSize ∨
        ptr + oldSize = w.state.self.buffer + w.state.self.offset ∧
          w.state.self.offset + (newSize - oldSize) ≤ w.state.self.capacity)
  | .reset => True
  | .write _ _ => True

/-- Runs in which every call is documented and fits, on a buffer whose end is an address. -/
inductive Run : World → Prop
  | create {memory : Memory} {buf size : Nat} {state : State}
      (created : Allocator.create memory buf size = .ok state) (placed : buf + size < 2 ^ 64) :
      Run ⟨state, []⟩
  | call {w : World} {call : Call} (run : Run w) (documented : Documented w call)
      (fits : Fits w call) : Run (perform w call)

structure Sound (w : World) : Prop where
  nonnull : w.state.self.buffer ≠ 0
  placed : w.state.self.buffer + w.state.self.capacity < 2 ^ 64
  within : w.state.self.offset ≤ w.state.self.capacity
  below : ∀ r ∈ w.used, w.state.self.buffer ≤ r.start ∧
    r.stop ≤ w.state.self.buffer + w.state.self.offset
  distinct : w.used.Pairwise fun r q => ¬Region.Shares r q

section Steps

open Region

variable {w : World} {ptr oldSize newSize size : Nat}

theorem Sound.top (sound : Sound w) :
    usize (w.state.self.buffer + w.state.self.offset) = w.state.self.buffer + w.state.self.offset := by
  have placed := sound.placed
  have within := sound.within
  exact usize_of_lt (by omega)

theorem Sound.alloc_fits (sound : Sound w) (fits : w.state.self.offset + size < 2 ^ 64) :
    (w.state.self.capacity < w.state.self.offset + size ∧ alloc w.state size = (0, w.state)) ∨
      (w.state.self.offset + size ≤ w.state.self.capacity ∧
        alloc w.state size = (w.state.self.buffer + w.state.self.offset,
          { w.state with self := { w.state.self with offset := w.state.self.offset + size } })) := by
  rw [alloc, usize_of_lt fits, sound.top]
  split
  · next full => exact .inl ⟨full, rfl⟩
  · next room => exact .inr ⟨Nat.le_of_not_lt room, rfl⟩

theorem Sound.alloc_wraps (sound : Sound w) (word : size < 2 ^ 64)
    (wraps : 2 ^ 64 ≤ w.state.self.offset + size) :
    (alloc w.state size).1 = w.state.self.buffer + w.state.self.offset := by
  have placed := sound.placed
  have within := sound.within
  have wrapped : usize (w.state.self.offset + size) = w.state.self.offset + size - 2 ^ 64 := by
    rw [usize, Nat.mod_eq_sub_mod wraps, Nat.mod_eq_of_lt (by omega)]
  rw [alloc, wrapped, if_neg (by omega), sound.top]

theorem Sound.fresh (sound : Sound w) {r : Region} (member : r ∈ w.used) (size : Nat) :
    ¬Shares ⟨w.state.self.buffer + w.state.self.offset, size⟩ r :=
  Apart.not_shares (.inr (sound.below r member).2)

theorem Sound.alloc_serves (sound : Sound w) (fits : w.state.self.offset + size < 2 ^ 64) :
    Serves w.state (alloc w.state size) size w.used := by
  rcases sound.alloc_fits fits with ⟨_, refused⟩ | ⟨room, given⟩
  · exact .inl refused
  · have nonnull := sound.nonnull
    rw [given]
    exact .inr ⟨by omega, le_self_add, by omega, fun r member => sound.fresh member size⟩

theorem Sound.not_serves (sound : Sound w) {answer} {rs}
    (inside : w.state.self.buffer ≤ answer.1)
    (long : w.state.self.buffer + w.state.self.capacity < answer.1 + size) :
    ¬Serves w.state answer size rs := by
  have nonnull := sound.nonnull
  rintro (refused | ⟨_, _, ends, _⟩)
  · rw [refused] at inside
    omega
  · omega

theorem Sound.alloc_kept_iff (sound : Sound w) (word : size < 2 ^ 64) :
    Kept w (.alloc size) ↔ Fits w (.alloc size) := by
  have placed := sound.placed
  refine ⟨fun kept => ?_, sound.alloc_serves⟩
  by_contra wraps
  have given := sound.alloc_wraps word (Nat.le_of_not_lt wraps)
  refine sound.not_serves (given ▸ le_self_add) ?_ kept
  have wraps := Nat.le_of_not_lt wraps
  omega

def State.bumped (s : State) (offset : Nat) (memory : Memory) : State :=
  ⟨{ s.self with offset }, memory⟩

theorem Sound.copy_fits (sound : Sound w) (fits : w.state.self.offset + newSize < 2 ^ 64) :
    (w.state.self.capacity < w.state.self.offset + newSize ∧
        reallocCopy w.state ptr oldSize newSize = (0, w.state)) ∨
      (w.state.self.offset + newSize ≤ w.state.self.capacity ∧
        reallocCopy w.state ptr oldSize newSize = (w.state.self.buffer + w.state.self.offset,
          w.state.bumped (w.state.self.offset + newSize)
            (copy w.state.memory (w.state.self.buffer + w.state.self.offset) ptr oldSize))) := by
  have nonnull := sound.nonnull
  rcases sound.alloc_fits fits with ⟨full, refused⟩ | ⟨room, given⟩
  · exact .inl ⟨full, by simp only [reallocCopy, refused, if_pos]⟩
  · refine .inr ⟨room, ?_⟩
    rw [reallocCopy, given]
    exact if_neg (by omega)

theorem Sound.copy_wraps (sound : Sound w) (word : newSize < 2 ^ 64)
    (wraps : 2 ^ 64 ≤ w.state.self.offset + newSize) :
    (reallocCopy w.state ptr oldSize newSize).1 = w.state.self.buffer + w.state.self.offset := by
  have _ := sound.nonnull
  have given := sound.alloc_wraps word wraps
  rw [reallocCopy]
  cases answer : alloc w.state newSize with
  | mk newPtr state =>
    rw [answer] at given
    change (if newPtr = 0 then _ else _ : Nat × State).1 = _
    rw [if_neg (by omega)]
    exact given

theorem Sound.end_eq (sound : Sound w) (member : ⟨ptr, oldSize⟩ ∈ w.used) :
    ptr + oldSize ≤ w.state.self.buffer + w.state.self.offset ∧ usize (ptr + oldSize) = ptr + oldSize := by
  have below := (sound.below _ member).2
  have placed := sound.placed
  have within := sound.within
  simp only [stop] at below
  exact ⟨below, usize_of_lt (by omega)⟩

theorem Sound.realloc_grows (sound : Sound w) (nonnull : ptr ≠ 0)
    (member : ⟨ptr, oldSize⟩ ∈ w.used) (grows : oldSize < newSize) :
    realloc w.state ptr oldSize newSize =
      if ptr + oldSize = w.state.self.buffer + w.state.self.offset ∧
          usize (w.state.self.offset + (newSize - oldSize)) ≤ w.state.self.capacity then
        (ptr, w.state.bumped (usize (w.state.self.offset + (newSize - oldSize))) w.state.memory)
      else reallocCopy w.state ptr oldSize newSize := by
  rw [realloc, if_neg nonnull, if_neg (ne_of_gt (Nat.zero_lt_of_lt grows)),
    if_neg (Nat.not_le.2 grows), (sound.end_eq member).2, sound.top]
  rfl

inductive Resized (w : World) (ptr oldSize newSize : Nat) : Nat × State → Prop
  | refused : Resized w ptr oldSize newSize (0, w.state)
  | shrunk (nonnull : ptr ≠ 0) (member : ⟨ptr, oldSize⟩ ∈ w.used) (shorter : newSize ≤ oldSize) :
      Resized w ptr oldSize newSize (ptr, w.state)
  | grown (nonnull : ptr ≠ 0) (member : ⟨ptr, oldSize⟩ ∈ w.used) (longer : oldSize < newSize)
      (last : ptr + oldSize = w.state.self.buffer + w.state.self.offset)
      (room : w.state.self.offset + (newSize - oldSize) ≤ w.state.self.capacity) :
      Resized w ptr oldSize newSize
        (ptr, w.state.bumped (w.state.self.offset + (newSize - oldSize)) w.state.memory)
  | moved {memory : Memory} (elsewhere : ptr ≠ w.state.self.buffer + w.state.self.offset)
      (room : w.state.self.offset + newSize ≤ w.state.self.capacity)
      (copied : ptr ≠ 0 → ∀ i < oldSize,
        memory (w.state.self.buffer + w.state.self.offset + i) = w.state.memory (ptr + i)) :
      Resized w ptr oldSize newSize (w.state.self.buffer + w.state.self.offset,
        w.state.bumped (w.state.self.offset + newSize) memory)

theorem Sound.realloc_fits (sound : Sound w)
    (documented : Documented w (.realloc ptr oldSize newSize))
    (fits : Fits w (.realloc ptr oldSize newSize)) :
    Resized w ptr oldSize newSize (realloc w.state ptr oldSize newSize) := by
  have _ := sound.within
  have placed := sound.placed
  rcases documented with ⟨_, rfl | ⟨nonnull, member⟩⟩
  · have fits : w.state.self.offset + newSize < 2 ^ 64 :=
      fits.resolve_right fun inPlace => inPlace.1 rfl
    have null := sound.nonnull
    rw [realloc, if_pos rfl]
    rcases sound.alloc_fits fits with ⟨_, refused⟩ | ⟨room, given⟩
    · rw [refused]
      exact .refused
    · rw [given]
      exact .moved (by omega) room fun nonnull => absurd rfl nonnull
  · by_cases shorter : newSize ≤ oldSize
    · rw [realloc, if_neg nonnull, if_pos shorter]
      split
      · exact .refused
      · exact .shrunk nonnull member shorter
    · have longer := Nat.lt_of_not_le shorter
      have ends := (sound.end_eq member).1
      rw [sound.realloc_grows nonnull member longer]
      by_cases last : ptr + oldSize = w.state.self.buffer + w.state.self.offset ∧
          w.state.self.offset + (newSize - oldSize) ≤ w.state.self.capacity
      · have small : usize (w.state.self.offset + (newSize - oldSize)) =
            w.state.self.offset + (newSize - oldSize) := usize_of_lt (by omega)
        rw [small, if_pos last]
        exact .grown nonnull member longer last.1 last.2
      · have fits : w.state.self.offset + newSize < 2 ^ 64 :=
          fits.resolve_right fun inPlace => inPlace.2.elim shorter last
        have small : usize (w.state.self.offset + (newSize - oldSize)) =
            w.state.self.offset + (newSize - oldSize) := usize_of_lt (by omega)
        rw [small, if_neg last]
        rcases sound.copy_fits fits with ⟨_, refused⟩ | ⟨room, given⟩
        · rw [refused]
          exact .refused
        · rw [given]
          refine .moved (fun same => last ⟨by omega, by omega⟩) room fun _ i inside => ?_
          exact copy_inside _ _ _ inside

theorem Sound.used_erase (sound : Sound w) (member : ⟨ptr, oldSize⟩ ∈ w.used) :
    ∀ r ∈ w.used.erase ⟨ptr, oldSize⟩, ¬Shares ⟨ptr, oldSize⟩ r := by
  have split := (perm_cons_erase member).pairwise sound.distinct fun apart shares =>
    apart shares.symm
  exact (pairwise_cons.1 split).1

theorem Sound.resized_apart (sound : Sound w) (member : ⟨ptr, oldSize⟩ ∈ w.used)
    (fits : newSize ≤ oldSize ∨ ptr + oldSize = w.state.self.buffer + w.state.self.offset) :
    ∀ r ∈ w.used.erase ⟨ptr, oldSize⟩, ¬Shares ⟨ptr, newSize⟩ r := by
  rintro r other ⟨x, start, ends, start', ends'⟩
  have below := (sound.below r (mem_of_mem_erase other)).2
  refine sound.used_erase member r other ⟨x, start, ?_, start', ends'⟩
  simp only [stop] at ends ends' below start' ⊢
  omega

theorem Sound.realloc_kept (sound : Sound w)
    (documented : Documented w (.realloc ptr oldSize newSize))
    (fits : Fits w (.realloc ptr oldSize newSize)) : Kept w (.realloc ptr oldSize newSize) := by
  have resized := sound.realloc_fits documented fits
  have buffer := sound.nonnull
  simp only [Kept]
  generalize realloc w.state ptr oldSize newSize = answer at resized
  cases resized with
  | refused => exact ⟨.inl rfl, fun _ given => absurd rfl given⟩
  | shrunk nonnull member shorter =>
    have inside := sound.below _ member
    have within := sound.within
    simp only [stop] at inside
    refine ⟨.inr ⟨nonnull, inside.1, by omega, ?_⟩, fun _ _ i _ => rfl⟩
    rw [others, if_neg nonnull]
    exact sound.resized_apart member (.inl shorter)
  | grown nonnull member longer last room =>
    have inside := (sound.below _ member).1
    refine ⟨.inr ⟨nonnull, inside, by omega, ?_⟩, fun _ _ i _ => rfl⟩
    rw [others, if_neg nonnull]
    exact sound.resized_apart member (.inr last)
  | moved elsewhere room copied =>
    refine ⟨.inr ⟨by omega, le_self_add, by omega, fun r other => ?_⟩,
      fun nonnull _ => copied nonnull⟩
    refine sound.fresh ?_ newSize
    unfold others at other
    split at other
    · exact other
    · exact mem_of_mem_erase other

theorem Sound.realloc_kept_iff (sound : Sound w)
    (documented : Documented w (.realloc ptr oldSize newSize)) :
    Kept w (.realloc ptr oldSize newSize) ↔ Fits w (.realloc ptr oldSize newSize) := by
  refine ⟨fun kept => ?_, sound.realloc_kept documented⟩
  have placed := sound.placed
  have _ := sound.within
  by_contra wraps
  rcases not_or.1 wraps with ⟨large, moves⟩
  have large := Nat.le_of_not_lt large
  have word := documented.1
  rcases documented.2 with rfl | ⟨nonnull, member⟩
  · have given := sound.alloc_wraps word large
    refine sound.not_serves ?_ ?_ kept.1
    · rw [realloc, if_pos rfl, given]
      exact le_self_add
    · rw [realloc, if_pos rfl, given]
      omega
  · rcases not_or.1 (not_and.1 moves nonnull) with ⟨longer, full⟩
    have longer := Nat.lt_of_not_le longer
    have inside := (sound.below _ member).1
    have resized := sound.realloc_grows nonnull member longer
    split at resized
    · next last =>
        -- the sum is past the capacity, so it has passed the test by wrapping
        have past : 2 ^ 64 ≤ w.state.self.offset + (newSize - oldSize) := by
          by_contra small
          have small := Nat.lt_of_not_le small
          rw [usize_of_lt small] at last
          exact full last
        refine sound.not_serves ?_ ?_ kept.1
        · rw [resized]
          exact inside
        · rw [resized]
          have _ := last.1
          change _ < ptr + newSize
          omega
    · refine sound.not_serves ?_ ?_ kept.1
      · rw [resized, sound.copy_wraps word large]
        exact le_self_add
      · rw [resized, sound.copy_wraps word large]
        omega

theorem sound_create {memory : Memory} {buf : Nat} {state : State}
    (created : create memory buf size = .ok state) (placed : buf + size < 2 ^ 64) :
    Sound ⟨state, []⟩ := by
  unfold create at created
  split at created
  · cases created
  · next nonnull =>
      cases created
      exact ⟨nonnull, placed, Nat.zero_le _, nofun, .nil⟩

theorem Sound.push (sound : Sound w) (room : w.state.self.offset + size ≤ w.state.self.capacity)
    (memory : Memory) : Sound ⟨w.state.bumped (w.state.self.offset + size) memory,
      ⟨w.state.self.buffer + w.state.self.offset, size⟩ :: w.used⟩ := by
  refine ⟨sound.nonnull, sound.placed, room, ?_, ?_⟩
  · refine forall_mem_cons.2 ⟨⟨le_self_add, (add_assoc _ _ _).le⟩, ?_⟩
    intro r member
    have below := sound.below r member
    exact ⟨below.1, below.2.trans (Nat.add_le_add_left (Nat.le_add_right _ _) _)⟩
  · exact pairwise_cons.mpr ⟨fun r member => sound.fresh member size, sound.distinct⟩

theorem Sound.alloc_sound (sound : Sound w) (fits : w.state.self.offset + size < 2 ^ 64) :
    Sound (perform w (.alloc size)) := by
  have nonnull : w.state.self.buffer + w.state.self.offset ≠ 0 := by
    have buffer := sound.nonnull
    omega
  rcases sound.alloc_fits fits with ⟨_, refused⟩ | ⟨room, given⟩
  · rw [perform, refused]
    exact sound
  · rw [perform, given]
    simp only [if_neg nonnull]
    exact sound.push room w.state.memory

theorem Sound.replace (sound : Sound w) (member : ⟨ptr, oldSize⟩ ∈ w.used) {offset : Nat}
    {memory : Memory} (up : w.state.self.offset ≤ offset) (room : offset ≤ w.state.self.capacity)
    (ends : ptr + newSize ≤ w.state.self.buffer + offset)
    (apart : ∀ r ∈ w.used.erase ⟨ptr, oldSize⟩, ¬Shares ⟨ptr, newSize⟩ r) :
    Sound ⟨w.state.bumped offset memory, ⟨ptr, newSize⟩ :: w.used.erase ⟨ptr, oldSize⟩⟩ := by
  refine ⟨sound.nonnull, sound.placed, room, ?_, ?_⟩
  · refine forall_mem_cons.2 ⟨⟨(sound.below _ member).1, ends⟩, fun r other => ?_⟩
    have below := sound.below r (mem_of_mem_erase other)
    exact ⟨below.1, below.2.trans (Nat.add_le_add_left up _)⟩
  · exact pairwise_cons.mpr ⟨apart, sound.distinct.sublist (erase_sublist)⟩

theorem Sound.realloc_sound (sound : Sound w)
    (documented : Documented w (.realloc ptr oldSize newSize))
    (fits : Fits w (.realloc ptr oldSize newSize)) :
    Sound (perform w (.realloc ptr oldSize newSize)) := by
  have resized := sound.realloc_fits documented fits
  have buffer := sound.nonnull
  simp only [perform]
  generalize realloc w.state ptr oldSize newSize = answer at resized
  cases resized with
  | refused => exact sound
  | shrunk nonnull member shorter =>
    have inside := (sound.below _ member).2
    simp only [stop] at inside
    rw [if_neg nonnull, if_pos rfl]
    exact @Sound.replace w ptr oldSize newSize sound member w.state.self.offset w.state.memory
      (le_rfl) sound.within (by omega) (sound.resized_apart member (.inl shorter))
  | grown nonnull member longer last room =>
    rw [if_neg nonnull, if_pos rfl]
    exact sound.replace member (le_self_add) room (by omega)
      (sound.resized_apart member (.inr last))
  | moved elsewhere room copied =>
    rw [if_neg (by omega), if_neg elsewhere.symm]
    exact sound.push room _

theorem Sound.perform_sound (sound : Sound w) {call : Call} (documented : Documented w call)
    (fits : Fits w call) : Sound (perform w call) := by
  cases call with
  | alloc size => exact sound.alloc_sound fits
  | realloc ptr oldSize newSize => exact sound.realloc_sound documented fits
  | reset => exact ⟨sound.nonnull, sound.placed, Nat.zero_le _,
      nofun, .nil⟩
  | write addr byte => exact ⟨sound.nonnull, sound.placed, sound.within, sound.below, sound.distinct⟩

theorem run_sound (run : Run w) : Sound w := by
  induction run with
  | create created placed => exact sound_create created placed
  | call _ documented fits ih => exact ih.perform_sound documented fits

theorem run_kept_iff (run : Run w) (call : Call) (documented : Documented w call) :
    Kept w call ↔ Fits w call := by
  have sound := run_sound run
  cases call with
  | alloc size => exact sound.alloc_kept_iff documented
  | realloc ptr oldSize newSize => exact sound.realloc_kept_iff documented
  | reset => exact Iff.rfl
  | write addr byte => exact Iff.rfl

end Steps

end Allocator

end Lucis
