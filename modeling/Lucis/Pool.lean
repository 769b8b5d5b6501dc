import Lucis.FreeList
import Mathlib.Data.List.Nodup

/-!
The pool allocator of the standard library: blocks of one size, the free ones threaded through
their own first words. A counter beside the list decides whether there is a block to give. The
owner of a block writes all over it.
-/

namespace Lucis

open ByteMemory List
open FreeList (usize usize_of_lt)

structure Pool where
  buffer : Nat
  blockSize : Nat
  blockCount : Nat
  freeCount : Nat
  freeList : Nat

namespace Pool

structure State where
  self : Pool
  memory : Memory

section Source

def clamp (blockSize : Nat) : Nat := if blockSize < 8 then 8 else blockSize

/-- What `create` asks the system for. -/
def totalSize (blockSize blockCount : Nat) : Nat := usize (clamp blockSize * blockCount)

/-- What is left of the loop that links each block to the next one, and the last to null. -/
def thread (buf blockSize : Nat) : Nat → Nat → Nat → Memory → Memory
  | 0, _, prev, memory => if prev ≠ 0 then store memory 8 prev 0 else memory
  | rounds + 1, i, prev, memory =>
    let curr := usize (buf + usize (i * blockSize))
    let memory := if prev ≠ 0 then store memory 8 prev curr else memory
    thread buf blockSize rounds (i + 1) curr memory

/-- `buf` is the answer to a request for `totalSize` bytes, null when it is refused. -/
def create (memory : Memory) (buf blockSize blockCount : Nat) : Except String State :=
  if buf = 0 then .error "An error ocurred while creating pool!"
  else .ok ⟨⟨buf, clamp blockSize, blockCount, blockCount, buf⟩,
    thread buf (clamp blockSize) blockCount 0 0 memory⟩

def alloc (s : State) : Nat × State :=
  if s.self.freeCount = 0 ∨ s.self.freeList = 0 then (0, s)
  else (s.self.freeList, { s with self := { s.self with
    freeList := load s.memory 8 s.self.freeList, freeCount := s.self.freeCount - 1 } })

def free (s : State) (ptr : Nat) : State :=
  if ptr = 0 then s
  else ⟨{ s.self with freeList := ptr, freeCount := usize (s.self.freeCount + 1) },
    store s.memory 8 ptr s.self.freeList⟩

def remaining (s : State) : Nat := s.self.freeCount

end Source

def slots (buf blockSize blockCount : Nat) : List Nat :=
  (List.range blockCount).map fun i => buf + i * blockSize

def Threaded (memory : Memory) : Nat → List Nat → Prop
  | first, [] => first = 0
  | first, block :: rest => first = block ∧ Threaded memory (load memory 8 block) rest

section Threading

variable {memory memory' : Memory} {first buf blockSize i j : Nat} {blocks : List Nat}

theorem Threaded.kept (threaded : Threaded memory first blocks)
    (same : ∀ block ∈ blocks, ∀ x, block ≤ x → x < block + 8 → memory' x = memory x) :
    Threaded memory' first blocks := by
  induction blocks generalizing first with
  | nil => exact threaded
  | cons block rest ih =>
    rcases threaded with ⟨here, later⟩
    have word : load memory' 8 block = load memory 8 block :=
      load_congr (same block (.head _))
    refine ⟨here, ?_⟩
    rw [word]
    exact ih later fun other member => same other (mem_cons_of_mem block member)

theorem Threaded.first_lt (threaded : Threaded memory first blocks)
    (low : ∀ block ∈ blocks, block < 2 ^ 64) : first < 2 ^ 64 := by
  cases blocks with
  | nil => exact lt_of_eq_of_lt threaded (by decide)
  | cons block rest => exact threaded.1 ▸ low block (.head _)

theorem clamp_le (blockSize : Nat) : 8 ≤ clamp blockSize := by
  unfold clamp
  split <;> omega

theorem slot_step (buf blockSize i : Nat) :
    buf + (i + 1) * blockSize = buf + i * blockSize + blockSize := by
  rw [Nat.succ_mul, add_assoc]

theorem slot_apart (before : i < j) : buf + i * blockSize + blockSize ≤ buf + j * blockSize := by
  rw [← slot_step]
  exact Nat.add_le_add_left (Nat.mul_le_mul_right _ before) _

theorem curr_eq (bound : buf + i * blockSize < 2 ^ 64) :
    usize (buf + usize (i * blockSize)) = buf + i * blockSize := by
  rw [usize_of_lt (n := i * blockSize) (by omega), usize_of_lt bound]

/-- The rest of the loop threads the blocks from `prev` on and leaves what is below it. -/
theorem thread_spec (large : 8 ≤ blockSize) (nonnull : buf ≠ 0) (rounds i : Nat) (memory : Memory)
    (bound : buf + (i + 1 + rounds) * blockSize ≤ 2 ^ 64) :
    Threaded (thread buf blockSize rounds (i + 1) (buf + i * blockSize) memory)
        (buf + i * blockSize) ((List.range' i (rounds + 1)).map fun i => buf + i * blockSize) ∧
      ∀ x, x < buf + i * blockSize →
        thread buf blockSize rounds (i + 1) (buf + i * blockSize) memory x = memory x := by
  have present : buf + i * blockSize ≠ 0 := by omega
  induction rounds generalizing i memory with
  | zero =>
    rw [thread, if_pos present]
    exact ⟨⟨rfl, load_store_of_lt memory _ (by decide)⟩,
      fun x below => store_outside memory 0 (.inl below)⟩
  | succ rounds ih =>
    have more : i + 1 + (rounds + 1) = i + 1 + 1 + rounds := by omega
    rw [more] at bound
    have ends : buf + (i + 1) * blockSize + blockSize ≤ 2 ^ 64 := by
      rw [← slot_step]
      exact (Nat.add_le_add_left (Nat.mul_le_mul_right _ (Nat.le_add_right _ _)) _).trans bound
    have low : buf + (i + 1) * blockSize < 2 ^ 64 := by omega
    have after := slot_step buf blockSize i
    rw [thread, curr_eq low, if_pos present]
    rcases ih (i + 1) (store memory 8 (buf + i * blockSize) (buf + (i + 1) * blockSize)) bound
      (by omega) with ⟨threaded, kept⟩
    refine ⟨?_, fun x below => ?_⟩
    · have word : load (thread buf blockSize rounds (i + 1 + 1) (buf + (i + 1) * blockSize)
          (store memory 8 (buf + i * blockSize) (buf + (i + 1) * blockSize))) 8
            (buf + i * blockSize) = buf + (i + 1) * blockSize := by
        rw [load_congr fun x above below => kept x (by omega)]
        exact load_store_of_lt memory _ low
      rw [range'_succ, map_cons]
      refine ⟨rfl, ?_⟩
      rw [word]
      exact threaded
    · rw [kept x (by omega)]
      exact store_outside memory _ (.inl below)

theorem threaded_create {blockCount : Nat} (large : 8 ≤ blockSize) (nonnull : buf ≠ 0)
    (some : 0 < blockCount) (bound : buf + blockSize * blockCount ≤ 2 ^ 64) (memory : Memory) :
    Threaded (thread buf blockSize blockCount 0 0 memory) buf (slots buf blockSize blockCount) := by
  obtain ⟨rounds, rfl⟩ := Nat.exists_eq_succ_of_ne_zero (ne_of_gt some)
  have low : buf + 0 * blockSize < 2 ^ 64 := by
    have := Nat.le_mul_of_pos_right blockSize some
    omega
  have whole := (thread_spec large nonnull rounds 0 memory (by
    rw [zero_add, add_comm 1 rounds, mul_comm]
    exact bound)).1
  rw [thread, if_neg (fun null => null rfl), curr_eq low, slots, range_eq_range']
  rw [zero_mul, add_zero] at whole ⊢
  exact whole

end Threading

structure World where
  state : State
  outstanding : List Nat

inductive Call where
  | alloc
  | free (ptr : Nat)
  | write (addr : Nat) (byte : UInt8)

/-- Blocks that are freed are held, and what is written lies in a block that is held or outside
the buffer. -/
def Allowed (w : World) : Call → Prop
  | .alloc => True
  | .free ptr => ptr ∈ w.outstanding
  | .write addr _ => (∃ block ∈ w.outstanding, block ≤ addr ∧ addr < block + w.state.self.blockSize) ∨
      addr < w.state.self.buffer ∨
        w.state.self.buffer + w.state.self.blockSize * w.state.self.blockCount ≤ addr

def perform (w : World) : Call → World
  | .alloc =>
    let (block, state) := alloc w.state
    ⟨state, if block = 0 then w.outstanding else block :: w.outstanding⟩
  | .free ptr => ⟨free w.state ptr, w.outstanding.erase ptr⟩
  | .write addr byte =>
    ⟨{ w.state with memory := poke w.state.memory addr byte }, w.outstanding⟩

/-- Pools whose size does not overflow, in a buffer that lies in the address space, after any
calls. -/
inductive Run : World → Prop
  | create {memory : Memory} {buf blockSize blockCount : Nat} {state : State}
      (created : Pool.create memory buf blockSize blockCount = .ok state)
      (fits : clamp blockSize * blockCount < 2 ^ 64)
      (placed : buf + totalSize blockSize blockCount ≤ 2 ^ 64) : Run ⟨state, []⟩
  | call {w : World} {call : Call} (run : Run w) (allowed : Allowed w call) : Run (perform w call)

/-- The blocks held and the free ones, in the order of the list, are those of the buffer; a pool
without any has its list begin at the buffer, where the counter does not let it be read. -/
structure Sound (w : World) (free : List Nat) : Prop where
  nonnull : w.state.self.buffer ≠ 0
  large : 8 ≤ w.state.self.blockSize
  placed : w.state.self.buffer + w.state.self.blockSize * w.state.self.blockCount ≤ 2 ^ 64
  parts : (w.outstanding ++ free).Perm
    (slots w.state.self.buffer w.state.self.blockSize w.state.self.blockCount)
  counted : w.state.self.freeCount = free.length
  threaded : 0 < w.state.self.blockCount → Threaded w.state.memory w.state.self.freeList free

section Slots

variable {buf blockSize blockCount a b : Nat}

theorem mem_slots : a ∈ slots buf blockSize blockCount ↔ ∃ i < blockCount, a = buf + i * blockSize := by
  simp only [slots, List.mem_map, mem_range, eq_comm]

theorem slots_apart (first : a ∈ slots buf blockSize blockCount)
    (second : b ∈ slots buf blockSize blockCount) (differs : a ≠ b) :
    a + blockSize ≤ b ∨ b + blockSize ≤ a := by
  rcases mem_slots.1 first with ⟨i, _, rfl⟩
  rcases mem_slots.1 second with ⟨j, _, rfl⟩
  rcases Nat.lt_trichotomy i j with before | rfl | after
  · exact .inl (slot_apart before)
  · exact absurd rfl differs
  · exact .inr (slot_apart after)

theorem slots_nodup (positive : 0 < blockSize) : (slots buf blockSize blockCount).Nodup := by
  refine List.Nodup.map (fun i j same => ?_) nodup_range
  exact Nat.eq_of_mul_eq_mul_right positive (Nat.add_left_cancel same)

theorem slot_inside (member : a ∈ slots buf blockSize blockCount) :
    buf ≤ a ∧ a + blockSize ≤ buf + blockSize * blockCount := by
  rcases mem_slots.1 member with ⟨i, below, rfl⟩
  refine ⟨le_self_add, ?_⟩
  rw [mul_comm blockSize]
  exact slot_apart below

theorem length_slots (buf blockSize blockCount : Nat) :
    (slots buf blockSize blockCount).length = blockCount := by
  rw [slots, length_map, length_range]

end Slots

section Steps

variable {w : World} {frees rest : List Nat} {block ptr addr : Nat} {byte : UInt8}

variable (sound : Sound w frees)
include sound

theorem Sound.total :
    w.outstanding.length + frees.length = w.state.self.blockCount := by
  rw [← length_append, sound.parts.length_eq, length_slots]

theorem Sound.nodup : (w.outstanding ++ frees).Nodup :=
  sound.parts.nodup_iff.2 (slots_nodup (Nat.zero_lt_of_lt sound.large))

theorem Sound.slot_held (member : block ∈ w.outstanding) :
    block ∈ slots w.state.self.buffer w.state.self.blockSize w.state.self.blockCount :=
  sound.parts.mem_iff.1 (mem_append_left _ member)

theorem Sound.slot_free (member : block ∈ frees) :
    block ∈ slots w.state.self.buffer w.state.self.blockSize w.state.self.blockCount :=
  sound.parts.mem_iff.1 (mem_append_right _ member)

theorem Sound.low (member : block ∈ frees) : block < 2 ^ 64 := by
  have inside := slot_inside (sound.slot_free member)
  have placed := sound.placed
  have large := sound.large
  omega

omit sound in
theorem sound_create {memory : Memory} {buf blockSize blockCount : Nat} {state : State}
    (created : create memory buf blockSize blockCount = .ok state)
    (fits : clamp blockSize * blockCount < 2 ^ 64)
    (placed : buf + totalSize blockSize blockCount ≤ 2 ^ 64) :
    Sound ⟨state, []⟩ (slots buf (clamp blockSize) blockCount) := by
  rw [totalSize, usize_of_lt fits] at placed
  unfold create at created
  split at created
  · cases created
  · next nonnull =>
      cases created
      exact ⟨nonnull, clamp_le blockSize, placed, List.Perm.refl _,
        (length_slots _ _ _).symm, fun some =>
          threaded_create (clamp_le blockSize) nonnull some placed memory⟩

omit sound in
theorem alloc_nil (sound : Sound w []) : alloc w.state = (0, w.state) :=
  if_pos (.inl sound.counted)

omit sound in
theorem alloc_cons (sound : Sound w (block :: rest)) :
    block ≠ 0 ∧ ∃ state, alloc w.state = (block, state) ∧ Sound ⟨state, block :: w.outstanding⟩ rest := by
  have member := sound.slot_free (mem_cons_self (l := rest) (a := block))
  have nonnull : block ≠ 0 := by
    have inside := slot_inside member
    have buffer := sound.nonnull
    omega
  have blocks : 0 < w.state.self.blockCount := by
    have total := sound.total
    rw [length_cons] at total
    omega
  rcases sound.threaded blocks with ⟨first, later⟩
  have counted : w.state.self.freeCount = rest.length + 1 := sound.counted
  have goes : ¬(w.state.self.freeCount = 0 ∨ w.state.self.freeList = 0) := by
    rw [counted, first]
    exact not_or.2 ⟨Nat.succ_ne_zero _, nonnull⟩
  have given : alloc w.state = (block, { w.state with self := { w.state.self with
      freeList := load w.state.memory 8 block, freeCount := w.state.self.freeCount - 1 } }) := by
    rw [alloc, if_neg goes, first]
  refine ⟨nonnull, _, given, sound.nonnull, sound.large, sound.placed,
    perm_middle.symm.trans sound.parts, ?_, fun _ => later⟩
  change w.state.self.freeCount - 1 = rest.length
  rw [counted, Nat.add_sub_cancel]

theorem free_sound (held : ptr ∈ w.outstanding) :
    Sound ⟨free w.state ptr, w.outstanding.erase ptr⟩ (ptr :: frees) := by
  have slot := sound.slot_held held
  have inside := slot_inside slot
  have buffer := sound.nonnull
  have large := sound.large
  have total := sound.total
  have some : 0 < w.outstanding.length := length_pos_of_mem held
  have placed := sound.placed
  have count : w.state.self.blockCount ≤ w.state.self.blockSize * w.state.self.blockCount :=
    Nat.le_mul_of_pos_left _ (Nat.zero_lt_of_lt large)
  have freed : free w.state ptr = ⟨{ w.state.self with
      freeList := ptr, freeCount := usize (w.state.self.freeCount + 1) },
        store w.state.memory 8 ptr w.state.self.freeList⟩ := if_neg (by omega)
  have counted := sound.counted
  rw [freed]
  refine ⟨buffer, large, placed, ?_, ?_, fun blocks => ⟨rfl, ?_⟩⟩
  · exact (perm_middle.trans ((perm_cons_erase held).symm.append_right frees)).trans
      sound.parts
  · change usize (w.state.self.freeCount + 1) = frees.length + 1
    rw [counted, usize_of_lt (by omega)]
  · have threaded := sound.threaded blocks
    change Threaded (store w.state.memory 8 ptr w.state.self.freeList)
      (load (store w.state.memory 8 ptr w.state.self.freeList) 8 ptr) frees
    rw [load_store_of_lt _ _ (threaded.first_lt fun block member => sound.low member)]
    refine threaded.kept fun block member x above below => store_outside _ _ ?_
    have differs : ptr ≠ block := (nodup_append.1 sound.nodup).2.2 ptr held block member
    have apart := slots_apart slot (sound.slot_free member) differs
    omega

theorem write_sound (allowed : Allowed w (.write addr byte)) :
    Sound ⟨{ w.state with memory := poke w.state.memory addr byte }, w.outstanding⟩ frees := by
  refine ⟨sound.nonnull, sound.large, sound.placed, sound.parts, sound.counted, fun blocks => ?_⟩
  refine (sound.threaded blocks).kept fun block member x above below => poke_other ?_
  have slot := sound.slot_free member
  have inside := slot_inside slot
  have large := sound.large
  rcases allowed with ⟨held, listed, start, stop⟩ | outside
  · have differs : held ≠ block := (nodup_append.1 sound.nodup).2.2 held listed block member
    have apart := slots_apart (sound.slot_held listed) slot differs
    omega
  · omega

theorem perform_sound {call : Call} (allowed : Allowed w call) :
    ∃ frees', Sound (perform w call) frees' := by
  cases call with
  | alloc =>
    cases frees with
    | nil =>
      refine ⟨[], ?_⟩
      rw [perform, alloc_nil sound]
      exact sound
    | cons block rest =>
      rcases alloc_cons sound with ⟨nonnull, state, given, after⟩
      refine ⟨rest, ?_⟩
      rw [perform, given]
      simpa only [if_neg nonnull] using after
  | free ptr => exact ⟨ptr :: frees, free_sound sound allowed⟩
  | write addr byte => exact ⟨frees, write_sound sound allowed⟩

end Steps

theorem run_sound {w : World} (run : Run w) : ∃ frees, Sound w frees := by
  induction run with
  | create created fits placed => exact ⟨_, sound_create created fits placed⟩
  | call _ allowed ih =>
    rcases ih with ⟨frees, sound⟩
    exact perform_sound sound allowed

structure Pooled (w : World) : Prop where
  /-- No block is held twice, and the next one is not held. -/
  distinct : w.outstanding.Nodup
  fresh : (alloc w.state).1 ∉ w.outstanding
  slot : ∀ block ∈ w.outstanding, ∃ i < w.state.self.blockCount,
    block = w.state.self.buffer + i * w.state.self.blockSize
  inside : ∀ block ∈ w.outstanding, block + w.state.self.blockSize ≤
    w.state.self.buffer + w.state.self.blockSize * w.state.self.blockCount
  remaining_eq : remaining w.state + w.outstanding.length = w.state.self.blockCount
  exhausted : (alloc w.state).1 = 0 ↔ w.outstanding.length = w.state.self.blockCount
  /-- The list comes to null without passing a block twice, or one that is held. -/
  list : 0 < w.state.self.blockCount → ∃ frees,
    Threaded w.state.memory w.state.self.freeList frees ∧ (w.outstanding ++ frees).Nodup ∧
      remaining w.state = frees.length ∧
        ∀ block ∈ frees, ∃ i < w.state.self.blockCount,
          block = w.state.self.buffer + i * w.state.self.blockSize

theorem Sound.pooled {w : World} {frees : List Nat} (sound : Sound w frees) : Pooled w where
  distinct := (nodup_append.1 sound.nodup).1
  fresh := by
    cases frees with
    | nil =>
      rw [alloc_nil sound]
      intro held
      have inside := slot_inside (sound.slot_held held)
      have buffer := sound.nonnull
      omega
    | cons block rest =>
      rcases alloc_cons sound with ⟨_, state, given, _⟩
      rw [given]
      intro held
      exact (nodup_append.1 sound.nodup).2.2 block held block (.head _) rfl
  slot block held := mem_slots.1 (sound.slot_held held)
  inside block held := (slot_inside (sound.slot_held held)).2
  remaining_eq := by
    rw [remaining, sound.counted, add_comm]
    exact sound.total
  exhausted := by
    have total := sound.total
    cases frees with
    | nil =>
      rw [alloc_nil sound]
      exact iff_of_true rfl total
    | cons block rest =>
      rcases alloc_cons sound with ⟨nonnull, state, given, _⟩
      rw [given]
      rw [length_cons] at total
      exact iff_of_false nonnull (by omega)
  list blocks := ⟨frees, sound.threaded blocks, sound.nodup, sound.counted,
    fun _ free => mem_slots.1 (sound.slot_free free)⟩

/-- In every run of a pool whose size does not overflow. -/
theorem pool_sound (w : World) (run : Run w) : Pooled w := by
  rcases run_sound run with ⟨frees, sound⟩
  exact sound.pooled

/-- A pool of two blocks; the owner of the first one writes over the word that linked it. -/
theorem pool_sound_overwritten :
    Pooled ([.alloc, .write 4096 255, .alloc, .free 4096].foldl perform
      ⟨⟨⟨4096, 16, 2, 2, 4096⟩, thread 4096 16 2 0 0 fun _ => 0⟩, []⟩) := by
  have created := @Run.create (fun _ => 0) 4096 16 2 _ rfl (by decide) (by decide)
  have first := @Run.call _ .alloc created trivial
  have written := @Run.call _ (.write 4096 255) first (.inl ⟨4096, .head _, by decide⟩)
  have second := @Run.call _ .alloc written trivial
  exact pool_sound _ (@Run.call _ (.free 4096) second (.tail _ (.head _)))

end Pool

end Lucis
