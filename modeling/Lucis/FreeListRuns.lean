import Lucis.FreeList

/-!
Runs of the free-list allocator: the blocks on its list and the blocks given out, under any
calls of `alloc` and `free` and whatever is written into the blocks between them. What is
given out stays apart; the memory is conserved as long as no block is freed that has none
before it in the list.
-/

namespace Lucis

open ByteMemory List Option

namespace FreeList

open Region

/-- What `alloc` has returned, with the size it was asked for. -/
structure Grant where
  ptr : Nat
  size : Nat

def Grant.block (memory : Memory) (g : Grant) : Region :=
  ⟨g.ptr - flHdr, blockSize memory (g.ptr - flHdr)⟩

structure World where
  state : State
  grants : List Grant

inductive Call where
  | alloc (size : Nat)
  | free (ptr : Nat)
  | write (addr : Nat) (byte : UInt8)

def Allowed (w : World) : Call → Prop
  | .alloc size => size ≤ w.state.self.capacity
  | .free ptr => ∃ g ∈ w.grants, g.ptr = ptr
  | .write addr _ => ∃ g ∈ w.grants, g.ptr ≤ addr ∧ addr < g.ptr + g.size

inductive Does : World → Call → World → Prop
  | alloc {w : World} {fuel size ptr : Nat} {state : State}
      (done : FreeList.alloc fuel w.state size = some (ptr, state)) :
      Does w (.alloc size) ⟨state, if ptr = 0 then w.grants else ⟨ptr, size⟩ :: w.grants⟩
  | free {w : World} {fuel ptr : Nat} {state : State}
      (done : FreeList.free fuel w.state ptr = some state) :
      Does w (.free ptr) ⟨state, w.grants.filter (·.ptr ≠ ptr)⟩
  | write {w : World} {addr : Nat} {byte : UInt8} :
      Does w (.write addr byte)
        ⟨{ w.state with memory := poke w.state.memory addr byte }, w.grants⟩

/-- A run, with the calls it has made and the worlds it has made them in, the latest first. The
system gives out no memory beyond the address space, and none of half of it. -/
inductive Run : List (World × Call) → World → Prop
  | create {memory : Memory} {buf size : Nat} {state : State}
      (created : FreeList.create memory buf size = .ok state)
      (placed : buf + size ≤ 2 ^ 64) (half : size < 2 ^ 63) : Run [] ⟨state, []⟩
  | call {steps : List (World × Call)} {w w' : World} {call : Call} (run : Run steps w)
      (allowed : Allowed w call) (does : Does w call w') : Run ((w, call) :: steps) w'

structure Sound (w : World) (free : List Region) : Prop where
  nonnull : w.state.self.buffer ≠ 0
  placed : w.state.self.buffer + w.state.self.capacity ≤ 2 ^ 64
  half : w.state.self.capacity < 2 ^ 63
  enough : flHdr + 8 ≤ w.state.self.capacity
  links : Links w.state.memory w.state.self.head free 0
  ordered : Ordered free
  listed : ∀ r ∈ free, w.state.self.buffer ≤ r.start ∧
    r.stop ≤ w.state.self.buffer + w.state.self.capacity ∧ flHdr < r.size
  granted : ∀ g ∈ w.grants, w.state.self.buffer + flHdr ≤ g.ptr ∧ 0 < g.size ∧
    (g.block w.state.memory).stop ≤ w.state.self.buffer + w.state.self.capacity ∧
      flHdr + g.size ≤ (g.block w.state.memory).size
  apart : ∀ g ∈ w.grants, ∀ r ∈ free, Apart (g.block w.state.memory) r
  distinct : w.grants.Pairwise fun g h =>
    Apart (g.block w.state.memory) (h.block w.state.memory)

variable {w w' : World} {call : Call} {free free' : List Region} {g : Grant}

variable {memory : Memory} {state : State}

theorem create_self {buf size : Nat}
    (created : create memory buf size = .ok state) : state.self = ⟨buf, size, buf⟩ := by
  unfold create at created
  split at created
  · cases created
  · split at created
    · cases created
    · cases created
      rfl

theorem sound_create {buf size : Nat}
    (created : create memory buf size = .ok state) (placed : buf + size ≤ 2 ^ 64)
    (half : size < 2 ^ 63) : Sound ⟨state, []⟩ [⟨buf, size⟩] := by
  unfold create at created
  split at created
  · cases created
  · next large =>
      split at created
      · cases created
      · next nonnull =>
          cases created
          have fits : size < 2 ^ 64 := lt_trans half (by decide)
          refine ⟨nonnull, placed, half, Nat.le_of_not_lt large, ⟨rfl, ?_, ?_⟩, ?_, ?_, nofun,
            nofun, List.Pairwise.nil⟩
          · rw [blockSize_setNext _ (.inl rfl), blockSize_setSize _ fits]
          · exact nextOf_setNext _ (by decide)
          · exact pairwise_singleton _ _
          · intro r member
            rw [mem_singleton.1 member]
            exact ⟨le_rfl, le_rfl,
              lt_of_lt_of_le (by decide) (Nat.le_of_not_lt large)⟩

variable {rs : List Region}

theorem Grant.block_kept {memory' : Memory}
    (kept : KeptOutside rs memory memory') (apart : ∀ r ∈ rs, Apart (header (g.block memory)) r) :
    g.block memory' = g.block memory := by
  have same : blockSize memory' (g.ptr - flHdr) = blockSize memory (g.ptr - flHdr) := by
    refine load_congr fun x above below => kept x fun r written => ?_
    have away := apart r written
    simp only [Apart, header, Grant.block, Region.stop, flHdr] at away above below ⊢
    omega
  simp only [Grant.block, same]

theorem links_size {first stop : Nat}
    (links : Links memory first rs stop) : ∀ r ∈ rs, blockSize memory r.start = r.size := by
  induction rs generalizing first with
  | nil => nofun
  | cons r rest ih =>
    rcases links with ⟨rfl, size, later⟩
    exact forall_mem_cons.2 ⟨size, ih later⟩

variable {needed : Nat} {r : Region}

theorem mem_parts {q : Region} (fits : needed ≤ r.size) (positive : 0 < needed)
    (member : q ∈ (parts r needed).2) :
    r.start < q.start ∧ (parts r needed).1.stop = q.start ∧ q.stop = r.stop ∧ flHdr < q.size := by
  unfold parts at member ⊢
  split at member
  · next room =>
      rw [if_pos room, mem_singleton.1 member]
      refine ⟨Nat.lt_add_of_pos_right positive, rfl, ?_, ?_⟩
      · change r.start + needed + (r.size - needed) = r.start + r.size
        omega
      · change flHdr < r.size - needed
        omega
  · cases member

theorem ordered_parts {front back}
    (ordered : Ordered (front ++ r :: back)) (fits : needed ≤ r.size) (positive : 0 < needed) :
    Ordered (front ++ (parts r needed).1 :: ((parts r needed).2 ++ back)) := by
  rcases ordered_append.1 ordered with ⟨first, last, across⟩
  rcases ordered_cons.1 last with ⟨behind, later⟩
  rcases parts_inside fits with ⟨start, _, inside⟩
  have left : ∀ q ∈ (parts r needed).2, r.start ≤ q.start ∧ q.stop = r.stop ∧
      Before (parts r needed).1 q := fun q member => by
    have facts := mem_parts fits positive member
    exact ⟨le_of_lt facts.1, facts.2.2.1, le_of_eq facts.2.1⟩
  have rest : Ordered ((parts r needed).2 ++ back) := by
    refine ordered_append.2 ⟨?_, later, fun q member s after => ?_⟩
    · unfold parts
      split
      · exact pairwise_singleton _ _
      · exact List.Pairwise.nil
    · exact (le_of_eq (left q member).2.1).trans (behind s after)
  refine ordered_append.2 ⟨first, ordered_cons.2 ⟨fun q member => ?_, rest⟩, ?_⟩
  · rcases mem_append.1 member with taken | after
    · exact (left q taken).2.2
    · exact inside.2.trans (behind q after)
  · intro q member s after
    have before := across q member r (.head _)
    rcases mem_cons.1 after with rfl | after
    · exact before.trans (le_of_eq start.symm)
    · rcases mem_append.1 after with taken | after
      · exact before.trans (left s taken).1
      · exact across q member s (mem_cons_of_mem r after)

theorem take_links {self : FreeList} {front back}
    (links : Links memory self.head (front ++ r :: back) 0) (ordered : Ordered (front ++ r :: back))
    (headed : ∀ q ∈ front ++ r :: back, flHdr ≤ q.size ∧ q.start ≠ 0) (large : flHdr ≤ needed)
    (fits : needed ≤ r.size) (bound : r.stop ≤ 2 ^ 64) (small : needed + flHdr + 8 < 2 ^ 64) :
    let s := unlink ⟨self, split memory r.start needed⟩ (lastFrom 0 front) r.start
    Links s.memory s.self.head (front ++ ((parts r needed).2 ++ back)) 0 ∧
      blockSize s.memory r.start = (parts r needed).1.size ∧
      KeptOutside (front ++ r :: back) memory s.memory ∧
      s.self.buffer = self.buffer ∧ s.self.capacity = self.capacity := by
  have positive : 0 < needed := lt_of_lt_of_le (by decide) large
  have across := (ordered_append.1 ordered).2.2
  have behind := (ordered_cons.1 (ordered_append.1 ordered).2.1).1
  rcases links_append.1 links with ⟨mid, reached, later⟩
  obtain rfl : mid = r.start := later.1
  rcases parts_inside fits with ⟨start, enough, inside⟩
  have kept : KeptOutside [r] memory (split memory r.start needed) :=
    kept_split later.2.1 large fits small
  have parted : Links (split memory r.start needed) self.head
      (front ++ (parts r needed).1 :: ((parts r needed).2 ++ back)) 0 := by
    refine links_append.2 ⟨r.start, links_kept reached kept fun q member s only => ?_, ?_⟩
    · rw [mem_singleton.1 only]
      exact (header_before (across q member r (.head _))
        (headed q (mem_append_left _ member)).1).1
    · exact split_links large fits bound small later behind
  have headed' : ∀ q ∈ front ++ (parts r needed).1 :: ((parts r needed).2 ++ back),
      flHdr ≤ q.size ∧ q.start ≠ 0 := by
    intro q member
    rcases mem_append.1 member with early | member
    · exact headed q (mem_append_left _ early)
    · rcases mem_cons.1 member with rfl | member
      · exact ⟨large.trans enough, start ▸ (headed r (by simp)).2⟩
      · rcases mem_append.1 member with left | after
        · have facts := mem_parts fits positive left
          exact ⟨le_of_lt facts.2.2.2, Nat.ne_zero_of_lt facts.1⟩
        · exact headed q (by simp [after])
  have taken := unlink_links parted (ordered_parts ordered fits positive) headed'
  rw [start] at taken
  rcases taken with ⟨links', size, kept', same⟩
  refine ⟨links', size, ?_, same⟩
  refine (kept.weaken fun q only => ?_).trans (kept'.weaken fun q member => ?_)
  · exact ⟨r, by simp, mem_singleton.1 only ▸ Inside.refl r⟩
  · rcases mem_append.1 member with early | only
    · exact ⟨q, mem_append_left _ early, Inside.refl q⟩
    · exact ⟨r, by simp, mem_singleton.1 only ▸ inside⟩

section Facts

variable (sound : Sound w free)

include sound

variable {r : Region}

theorem Sound.headed (member : r ∈ free) : flHdr ≤ r.size ∧ r.start ≠ 0 := by
  have listed := sound.listed r member
  have nonnull := sound.nonnull
  omega

theorem Sound.bound (member : r ∈ free) : r.stop ≤ 2 ^ 64 :=
  (sound.listed r member).2.1.trans sound.placed

theorem Sound.grant_headed (member : g ∈ w.grants) : flHdr ≤ (g.block w.state.memory).size := by
  have granted := sound.granted g member
  omega

theorem Sound.alloc_enough (size : Nat) {fuel : Nat} (allowed : size ≤ w.state.self.capacity)
    (more : free.length < fuel) : (alloc fuel w.state size = some (0, w.state) ∧
      (size ≠ 0 → ∀ r ∈ free, r.size < size + flHdr)) ∨
    ∃ front r back state, free = front ++ r :: back ∧ size ≠ 0 ∧ size + flHdr ≤ r.size ∧
      alloc fuel w.state size = some (r.start + flHdr, state) ∧ Links state.memory state.self.head
        (front ++ ((parts r (size + flHdr)).2 ++ back)) 0 ∧
      blockSize state.memory r.start = (parts r (size + flHdr)).1.size ∧
      KeptOutside free w.state.memory state.memory ∧
      state.self.buffer = w.state.self.buffer ∧ state.self.capacity = w.state.self.capacity := by
  by_cases zero : size = 0
  · exact .inl ⟨if_pos zero, fun some => absurd zero some⟩
  have half := sound.half
  have needed : usize (size + flHdr) = size + flHdr := usize_of_lt (by simp only [flHdr]; omega)
  rcases walk_links (fun curr => decide (size + flHdr ≤ blockSize w.state.memory curr))
    sound.links (fun r member => (sound.headed member).2) more 0 with
    ⟨front, back, rfl, walked, passed, stopped⟩
  have sizes := links_size sound.links
  cases back with
  | nil =>
    refine .inl ⟨?_, fun _ r member => ?_⟩
    · simp [alloc, zero, needed, walked, headFrom]
    · have small := passed r (by simpa using member)
      rw [sizes r member] at small
      exact Nat.lt_of_not_le (of_decide_eq_false small)
  | cons r back =>
    have fits : size + flHdr ≤ r.size := by
      have large := of_decide_eq_true (stopped r rfl)
      rwa [sizes r (by simp)] at large
    have taken := take_links sound.links sound.ordered (fun q member => sound.headed member)
      (Nat.le_add_left flHdr size) fits (sound.bound (by simp))
      (by simp only [flHdr]; omega)
    refine .inr ⟨front, r, back, _, rfl, zero, fits, ?_, taken⟩
    have some : r.start ≠ 0 := (sound.headed (by simp)).2
    simp [alloc, zero, needed, walked, headFrom, some]

variable {memory : Memory}

theorem Sound.blocks_kept (kept : KeptOutside free w.state.memory memory)
    (member : g ∈ w.grants) : g.block memory = g.block w.state.memory :=
  Grant.block_kept kept fun r listed => ((sound.apart g member r listed).symm.inside
    (header_inside (sound.grant_headed member))).symm

theorem Sound.keep {grants : List Grant} (fewer : grants.Sublist w.grants)
    (blocks : ∀ h ∈ grants, h.block memory = h.block w.state.memory)
    (links : Links memory w.state.self.head free' 0) (ordered : Ordered free')
    (listed : ∀ r ∈ free', w.state.self.buffer ≤ r.start ∧
      r.stop ≤ w.state.self.buffer + w.state.self.capacity ∧ flHdr < r.size)
    (apart : ∀ h ∈ grants, ∀ r ∈ free', Apart (h.block w.state.memory) r) :
    Sound ⟨{ w.state with memory := memory }, grants⟩ free' := by
  constructor
  · exact sound.nonnull
  · exact sound.placed
  · exact sound.half
  · exact sound.enough
  · exact links
  · exact ordered
  · exact listed
  · intro h later
    rw [blocks h later]
    exact sound.granted h (fewer.subset later)
  · intro h later
    rw [blocks h later]
    exact apart h later
  · refine (sound.distinct.sublist fewer).imp_of_mem fun one other apart => ?_
    rw [blocks _ one, blocks _ other]
    exact apart

end Facts

section Alloc

variable {front back : List Region} {r : Region} {state : State} {size : Nat}

theorem Sound.alloc (sound : Sound w (front ++ r :: back)) (some : size ≠ 0)
    (fits : size + flHdr ≤ r.size) (links : Links state.memory state.self.head
      (front ++ ((parts r (size + flHdr)).2 ++ back)) 0)
    (taken : blockSize state.memory r.start = (parts r (size + flHdr)).1.size)
    (kept : KeptOutside (front ++ r :: back) w.state.memory state.memory)
    (buffer : state.self.buffer = w.state.self.buffer)
    (capacity : state.self.capacity = w.state.self.capacity) :
    Sound ⟨state, ⟨r.start + flHdr, size⟩ :: w.grants⟩
      (front ++ ((parts r (size + flHdr)).2 ++ back)) := by
  have positive : 0 < size + flHdr := Nat.add_pos_right size (by decide)
  rcases parts_inside fits with ⟨start, enough, inside⟩
  have ordered := ordered_parts sound.ordered fits positive
  rcases ordered_append.1 ordered with ⟨early, later, across⟩
  rcases ordered_cons.1 later with ⟨behind, rest⟩
  have listed := sound.listed r (by simp)
  have block : Grant.block state.memory ⟨r.start + flHdr, size⟩ = (parts r (size + flHdr)).1 := by
    rw [Grant.block, Nat.add_sub_cancel, taken, ← start]
  have blocks : ∀ g ∈ w.grants, g.block state.memory = g.block w.state.memory :=
    fun g member => sound.blocks_kept kept member
  have old : ∀ q ∈ front ++ ((parts r (size + flHdr)).2 ++ back),
      (q ∈ front ++ r :: back) ∨ (q.Inside r ∧ flHdr < q.size) := by
    intro q member
    rcases mem_append.1 member with before | member
    · exact .inl (mem_append_left _ before)
    · rcases mem_append.1 member with left | after
      · have facts := mem_parts fits positive left
        exact .inr ⟨⟨le_of_lt facts.1, le_of_eq facts.2.2.1⟩, facts.2.2.2⟩
      · exact .inl (by simp [after])
  constructor
  · exact buffer ▸ sound.nonnull
  · exact buffer ▸ capacity ▸ sound.placed
  · exact capacity ▸ sound.half
  · exact capacity ▸ sound.enough
  · exact links
  · refine ordered_append.2 ⟨early, rest, fun q member s after => ?_⟩
    exact across q member s (.tail _ after)
  · intro q member
    rw [buffer, capacity]
    rcases old q member with before | ⟨within, large⟩
    · exact sound.listed q before
    · exact ⟨listed.1.trans within.1, within.2.trans listed.2.1, large⟩
  · refine forall_mem_cons.2 ⟨?_, fun g member => ?_⟩
    · rw [block, buffer, capacity]
      refine ⟨Nat.add_le_add_right listed.1 _, Nat.pos_of_ne_zero some, ?_, ?_⟩
      · exact inside.2.trans listed.2.1
      · exact add_comm size flHdr ▸ enough
    · rw [blocks g member, buffer, capacity]
      exact sound.granted g member
  · refine forall_mem_cons.2 ⟨fun q member => ?_, fun g member q listed => ?_⟩
    · rw [block]
      rcases mem_append.1 member with before | after
      · exact .inr (across q before _ (.head _))
      · exact .inl (behind q after)
    · rw [blocks g member]
      rcases old q listed with before | ⟨within, _⟩
      · exact sound.apart g member q before
      · exact (sound.apart g member r (by simp)).inside within
  · refine pairwise_cons.2 ⟨fun g member => ?_, ?_⟩
    · rw [block, blocks g member]
      exact ((sound.apart g member r (by simp)).inside inside).symm
    · refine sound.distinct.imp_of_mem fun one other apart => ?_
      rw [blocks _ one, blocks _ other]
      exact apart

end Alloc

section Free

variable (sound : Sound w free) (member : g ∈ w.grants)

include sound member

theorem Sound.grant_nonempty : 0 < (g.block w.state.memory).size := by
  have granted := sound.granted g member
  omega

theorem Sound.block_start : (g.block w.state.memory).start + flHdr = g.ptr :=
  Nat.sub_add_cancel (le_trans (le_add_self) (sound.granted g member).1)

variable {fuel : Nat}

theorem Sound.free_enough (more : free.length < fuel) :
    ∃ front back, free = front ++ back ∧ Ordered (front ++ g.block w.state.memory :: back) ∧
      (∀ q ∈ front, q.start < (g.block w.state.memory).start) ∧
      (∀ q ∈ back.head?, (g.block w.state.memory).start ≤ q.start) ∧
      FreeList.free fuel w.state g.ptr = some { w.state with
        memory := linkIn w.state.memory (lastFrom 0 front) (g.block w.state.memory).start
          (headFrom back) } := by
  rcases walk_links (fun curr => decide (¬ curr < g.ptr - flHdr)) sound.links
    (fun r listed => (sound.headed listed).2) more 0 with
    ⟨front, back, rfl, walked, passed, stopped⟩
  have below : ∀ q ∈ front, q.start < g.ptr - flHdr := by
    intro q early
    have passed := of_decide_eq_false (passed q early)
    exact not_not.1 passed
  have above : ∀ q ∈ back.head?, g.ptr - flHdr ≤ q.start := by
    intro q late
    have stopped := of_decide_eq_true (stopped q late)
    exact Nat.le_of_not_lt stopped
  have behind : ∀ q ∈ back, g.ptr - flHdr ≤ q.start := by
    cases back with
    | nil => nofun
    | cons r rest =>
      have first := above r rfl
      refine forall_mem_cons.2 ⟨first, fun q late => ?_⟩
      have before := (ordered_cons.1 (ordered_append.1 sound.ordered).2.1).1 q late
      exact first.trans ((le_self_add).trans before)
  have nonnull : g.ptr ≠ 0 := by
    have start := sound.block_start member
    simp only [flHdr] at start
    omega
  refine ⟨front, back, rfl, ?_, below, above, ?_⟩
  · refine ordered_insert sound.ordered (sound.grant_nonempty member) (fun q listed => ?_)
      (sound.apart g member) below behind
    exact Nat.zero_lt_of_lt (sound.listed q listed).2.2
  · simp only [FreeList.free, if_neg nonnull, walked, map_some]
    rfl

theorem Sound.block_apart {h : Grant} (other : h ∈ w.grants) (differs : h.ptr ≠ g.ptr) :
    Apart (h.block w.state.memory) (g.block w.state.memory) := by
  have symm : Std.Symm fun g h : Grant => Apart (g.block w.state.memory) (h.block w.state.memory) :=
    ⟨fun _ _ => Apart.symm⟩
  exact sound.distinct.forall other member fun same => differs (same ▸ rfl)

variable {written : List Region} {memory : Memory}

theorem Sound.rest_kept (kept : KeptOutside written w.state.memory memory)
    (within : ∀ q ∈ written, (∃ r ∈ free, q.Inside r) ∨ q.Inside (g.block w.state.memory)) :
    ∀ h ∈ w.grants.filter (·.ptr ≠ g.ptr), h.block memory = h.block w.state.memory := by
  intro h later
  have differs : h.ptr ≠ g.ptr := by simpa using (mem_filter.1 later).2
  have old := (mem_filter.1 later).1
  refine Grant.block_kept kept fun q written => ?_
  have inside := header_inside (sound.grant_headed old)
  rcases within q written with ⟨r, listed, part⟩ | part
  · exact (((sound.apart h old r listed).inside part).symm.inside inside).symm
  · exact (((sound.block_apart member old differs).inside part).symm.inside inside).symm

theorem Sound.freed (kept : KeptOutside written w.state.memory memory)
    (within : ∀ q ∈ written, (∃ r ∈ free, q.Inside r) ∨ q.Inside (g.block w.state.memory))
    (links : Links memory w.state.self.head free' 0) (ordered : Ordered free')
    (listed : ∀ r ∈ free', w.state.self.buffer ≤ r.start ∧
      r.stop ≤ w.state.self.buffer + w.state.self.capacity ∧ flHdr < r.size)
    (apart : ∀ s : Region, 0 < s.size → (∀ r ∈ free, Apart s r) →
      Apart s (g.block w.state.memory) → ∀ r ∈ free', Apart s r) :
    Sound ⟨{ w.state with memory := memory }, w.grants.filter (·.ptr ≠ g.ptr)⟩ free' := by
  have rest : ∀ h ∈ w.grants.filter (·.ptr ≠ g.ptr), h ∈ w.grants ∧ h.ptr ≠ g.ptr :=
    fun h later => by simpa using mem_filter.1 later
  refine sound.keep filter_sublist (sound.rest_kept member kept within) links ordered listed ?_
  intro h later
  rcases rest h later with ⟨old, differs⟩
  exact apart _ (sound.grant_nonempty old) (sound.apart h old) (sound.block_apart member old differs)

theorem Sound.free_cases (more : free.length < fuel) :
    ∃ memory written, FreeList.free fuel w.state g.ptr = some { w.state with memory := memory } ∧
      KeptOutside written w.state.memory memory ∧
      (∀ q ∈ written, (∃ r ∈ free, q = header r) ∨ q = header (g.block w.state.memory)) ∧
      ((∀ q ∈ free.head?, (g.block w.state.memory).start ≤ q.start) ∧
          Sound ⟨{ w.state with memory := memory }, w.grants.filter (·.ptr ≠ g.ptr)⟩ free ∨
        ∃ init p back, free = (init ++ [p]) ++ back ∧
          (∀ q ∈ init ++ [p], q.start < (g.block w.state.memory).start) ∧
          Ordered ((init ++ [p]) ++ g.block w.state.memory :: back) ∧
          Sound ⟨{ w.state with memory := memory }, w.grants.filter (·.ptr ≠ g.ptr)⟩
            (init ++ join p (join (g.block w.state.memory) back))) := by
  rcases sound.free_enough member more with ⟨front, back, rfl, ordered, below, above, done⟩
  have headed := header_inside (sound.grant_headed member)
  rcases eq_nil_or_concat front with rfl | ⟨init, p, rfl⟩
  · have kept := linkIn_alone w.state.memory (g.block w.state.memory) (headFrom back)
    refine ⟨_, _, done, kept, fun q only => .inr (mem_singleton.1 only), .inl ⟨above, ?_⟩⟩
    refine sound.freed member kept (fun q only => .inr ?_) ?_ sound.ordered sound.listed
      fun s _ apart _ => apart
    · rw [mem_singleton.1 only]
      exact headed
    · refine links_kept sound.links kept fun r listed q only => ?_
      rw [mem_singleton.1 only]
      exact (((sound.apart g member r listed).symm.inside headed).symm.inside
        (header_inside (sound.headed listed).1)).symm
  · simp only [concat_eq_append, lastFrom_append] at *
    have granted := sound.granted g member
    have start := sound.block_start member
    have whole : ∀ q ∈ (init ++ [p]) ++ g.block w.state.memory :: back,
        w.state.self.buffer ≤ q.start ∧
          q.stop ≤ w.state.self.buffer + w.state.self.capacity ∧ flHdr < q.size := by
      intro q listed
      rcases mem_append.1 listed with early | late
      · exact sound.listed q (mem_append_left back early)
      · rcases mem_cons.1 late with rfl | late
        · exact ⟨by omega, granted.2.2.1, by omega⟩
        · exact sound.listed q (mem_append_right _ late)
    have nonnull := sound.nonnull
    have placed := sound.placed
    rcases linkIn_links ordered
      (fun q listed => ⟨le_of_lt (whole q listed).2.2, by have := whole q listed; omega⟩)
      (fun q listed => (whole q listed).2.1.trans placed) sound.links rfl with ⟨links, kept⟩
    refine ⟨_, _, done, kept, fun q only => ?_,
      .inr ⟨init, p, back, rfl, below, ordered, ?_⟩⟩
    · rcases mem_pair.1 only with rfl | rfl
      · exact .inl ⟨p, by simp, rfl⟩
      · exact .inr rfl
    · refine sound.freed member kept (fun q only => ?_) links
        (ordered_append_join (append_assoc init [p] _ ▸ ordered_append_join ordered))
        (twice_forall (joins_within _ _ _) whole) fun s some each block => ?_
      · rcases mem_pair.1 only with rfl | rfl
        · exact .inl ⟨p, by simp, header_inside (sound.headed (by simp)).1⟩
        · exact .inr headed
      · refine twice_forall (joins_apart some) fun q listed => ?_
        rcases mem_append.1 listed with early | late
        · exact each q (mem_append_left back early)
        · rcases mem_cons.1 late with rfl | late
          · exact block
          · exact each q (mem_append_right _ late)

end Free

section Steps

theorem alloc_mono {fuel fuel' size : Nat} {s : State} {out}
    (done : alloc fuel s size = some out) (more : fuel ≤ fuel') :
    alloc fuel' s size = some out := by
  unfold alloc at done ⊢
  split at done
  · next zero => rw [if_pos zero, done]
  · next some =>
      rcases map_eq_some_iff.1 done with ⟨place, walked, rfl⟩
      rw [if_neg some]
      exact map_eq_some_iff.2 ⟨place, walk_mono walked more, rfl⟩

theorem free_mono {fuel fuel' ptr : Nat} {s s' : State} (done : FreeList.free fuel s ptr = some s')
    (more : fuel ≤ fuel') : FreeList.free fuel' s ptr = some s' := by
  unfold FreeList.free at done ⊢
  split at done
  · next null => rw [if_pos null, done]
  · next some =>
      rcases map_eq_some_iff.1 done with ⟨place, walked, rfl⟩
      rw [if_neg some]
      exact map_eq_some_iff.2 ⟨place, walk_mono walked more, rfl⟩

variable (sound : Sound w free)

include sound

theorem Sound.alloc_does {size : Nat} (allowed : Allowed w (.alloc size))
    (does : Does w (.alloc size) w') : (w' = w ∧ (size ≠ 0 → ∀ r ∈ free, r.size < size + flHdr)) ∨
    ∃ front r back, free = front ++ r :: back ∧ size + flHdr ≤ r.size ∧
      w'.grants = ⟨r.start + flHdr, size⟩ :: w.grants ∧
      Grant.block w'.state.memory ⟨r.start + flHdr, size⟩ = (parts r (size + flHdr)).1 ∧
      KeptOutside free w.state.memory w'.state.memory ∧
      w'.state.self.capacity = w.state.self.capacity ∧
      Sound w' (front ++ ((parts r (size + flHdr)).2 ++ back)) := by
  cases does with
  | @alloc fuel _ ptr state done =>
    have done' := alloc_mono done (le_max_left fuel (free.length + 1))
    rcases sound.alloc_enough size allowed (le_max_right fuel (free.length + 1)) with
      ⟨refused, small⟩ |
        ⟨front, r, back, state', rfl, some, fits, given, links, taken, kept, same⟩
    · rw [refused] at done'
      cases done'
      exact .inl ⟨rfl, small⟩
    · rw [given] at done'
      cases done'
      have nonnull : r.start + flHdr ≠ 0 := ne_of_gt (Nat.add_pos_right _ (by decide))
      rw [if_neg nonnull]
      refine .inr ⟨front, r, back, rfl, fits, rfl, ?_, kept, same.2,
        sound.alloc some fits links taken kept same.1 same.2⟩
      rw [Grant.block, Nat.add_sub_cancel, taken, ← (parts_inside fits).1]

theorem Sound.free_does (member : g ∈ w.grants) (does : Does w (.free g.ptr) w') :
    w'.grants = w.grants.filter (·.ptr ≠ g.ptr) ∧ w'.state.self = w.state.self ∧
    (∀ h ∈ w.grants.filter (·.ptr ≠ g.ptr), h.block w'.state.memory = h.block w.state.memory) ∧
    (∃ written, KeptOutside written w.state.memory w'.state.memory ∧
      ∀ q ∈ written, (∃ r ∈ free, q = header r) ∨ q = header (g.block w.state.memory)) ∧
    ((∀ q ∈ free.head?, (g.block w.state.memory).start ≤ q.start) ∧ Sound w' free ∨
      ∃ init p back, free = (init ++ [p]) ++ back ∧
        (∀ q ∈ init ++ [p], q.start < (g.block w.state.memory).start) ∧
        Ordered ((init ++ [p]) ++ g.block w.state.memory :: back) ∧
        Sound w' (init ++ join p (join (g.block w.state.memory) back))) := by
  cases does with
  | @free fuel _ state done =>
    have done' := free_mono done (le_max_left fuel (free.length + 1))
    rcases sound.free_cases member (le_max_right fuel (free.length + 1)) with
      ⟨memory, written, given, kept, within, way⟩
    rw [given] at done'
    cases done'
    refine ⟨rfl, rfl, sound.rest_kept member kept fun q only => ?_, ⟨written, kept, within⟩, way⟩
    rcases within q only with ⟨r, listed, rfl⟩ | rfl
    · exact .inl ⟨r, listed, header_inside (sound.headed listed).1⟩
    · exact .inr (header_inside (sound.grant_headed member))

theorem Sound.write_does {addr : Nat} {byte : UInt8} (allowed : Allowed w (.write addr byte))
    (does : Does w (.write addr byte) w') :
    Sound w' free ∧ w'.grants = w.grants ∧ w'.state.self = w.state.self ∧
      ∀ g ∈ w.grants, g.block w'.state.memory = g.block w.state.memory := by
  cases does with
  | write =>
    rcases allowed with ⟨g, member, low, high⟩
    have granted := sound.granted g member
    have start := sound.block_start member
    have kept : KeptOutside [⟨addr, 1⟩] w.state.memory (poke w.state.memory addr byte) := by
      intro x outside
      have away := outside _ (.head _)
      simp only [Region.stop] at away
      exact poke_other (by omega)
    have room : Inside ⟨addr, 1⟩ (g.block w.state.memory) := by
      simp only [Inside, Region.stop] at granted start ⊢
      omega
    have lists : ∀ r ∈ free, ∀ q ∈ [⟨addr, 1⟩], Apart (header r) q := by
      intro r listed q only
      rw [mem_singleton.1 only]
      have away := (sound.apart g member r listed).symm.inside room
      exact (away.symm.inside (header_inside (sound.headed listed).1)).symm
    have blocks : ∀ h ∈ w.grants, h.block (poke w.state.memory addr byte) =
        h.block w.state.memory := by
      intro h other
      refine Grant.block_kept kept fun q only => ?_
      rw [mem_singleton.1 only]
      by_cases same : h.ptr = g.ptr
      · refine .inl ?_
        have start' := sound.block_start other
        simp only [header, Region.stop]
        omega
      · have away := (sound.block_apart member other same).inside room
        exact (away.symm.inside (header_inside (sound.grant_headed other))).symm
    have links := links_kept sound.links kept lists
    exact ⟨sound.keep (List.Sublist.refl _) blocks links sound.ordered sound.listed sound.apart,
      rfl, rfl, blocks⟩

end Steps

section Reached

def Lists (s : State) (free : List Region) : Prop :=
  Links s.memory s.self.head free 0 ∧ ∀ r ∈ free, r.start ≠ 0

theorem links_unique {memory : Memory} {first : Nat} {rs qs}
    (one : Links memory first rs 0) (other : Links memory first qs 0)
    (nonnull : ∀ r ∈ rs, r.start ≠ 0) (nonnull' : ∀ q ∈ qs, q.start ≠ 0) : rs = qs := by
  induction rs generalizing first qs with
  | nil =>
    cases qs with
    | nil => rfl
    | cons q rest => exact absurd (other.1.symm.trans one) (nonnull' q (.head _))
  | cons r rest ih =>
    cases qs with
    | nil => exact absurd (one.1.symm.trans other) (nonnull r (.head _))
    | cons q rest' =>
      rcases one with ⟨rfl, size, later⟩
      rcases other with ⟨start, size', later'⟩
      have same := ih later later' (fun s member => nonnull s (mem_cons_of_mem r member))
        fun s member => nonnull' s (mem_cons_of_mem q member)
      cases r
      cases q
      cases start
      cases size.symm.trans size'
      rw [same]

theorem Sound.lists (sound : Sound w free) : Lists w.state free :=
  ⟨sound.links, fun _ listed => (sound.headed listed).2⟩

theorem Lists.unique {s : State} (one : Lists s free) (other : Lists s free') : free = free' :=
  links_unique one.1 other.1 one.2 other.2

variable {steps : List (World × Call)}

theorem sound_step (sound : Sound w free) (allowed : Allowed w call) (does : Does w call w') :
    ∃ free', Sound w' free' := by
  cases call with
  | alloc size =>
    rcases sound.alloc_does allowed does with ⟨rfl, _⟩ | ⟨_, _, _, _, _, _, _, _, _, sound'⟩
    · exact ⟨free, sound⟩
    · exact ⟨_, sound'⟩
  | free ptr =>
    rcases allowed with ⟨g, member, rfl⟩
    rcases (sound.free_does member does).2.2.2.2 with ⟨_, sound'⟩ | ⟨_, _, _, _, _, _, sound'⟩
    · exact ⟨_, sound'⟩
    · exact ⟨_, sound'⟩
  | write addr byte => exact ⟨free, (sound.write_does allowed does).1⟩

theorem sound_run (run : Run steps w) : ∃ free, Sound w free := by
  induction run with
  | create created placed half => exact ⟨_, sound_create created placed half⟩
  | call _ allowed does ih =>
    rcases ih with ⟨free, sound⟩
    exact sound_step sound allowed does

end Reached

section Overlap

/-- Every block given out has the room it was asked for behind its header, inside the buffer, and
lies apart from the others and from the blocks of the list. -/
structure Separate (w : World) : Prop where
  room : ∀ g ∈ w.grants, w.state.self.buffer ≤ (g.block w.state.memory).start ∧
    (g.block w.state.memory).start + flHdr = g.ptr ∧
    g.ptr + g.size ≤ (g.block w.state.memory).stop ∧
    (g.block w.state.memory).stop ≤ w.state.self.buffer + w.state.self.capacity
  distinct : w.grants.Pairwise fun g h =>
    Apart (g.block w.state.memory) (h.block w.state.memory)
  listed : ∃ free, Lists w.state free ∧
    ∀ g ∈ w.grants, ∀ r ∈ free, Apart (g.block w.state.memory) r

def Call.Own : Call → Prop
  | .write _ _ => False
  | _ => True

def Untouched (w w' : World) : Prop :=
  ∀ g ∈ w.grants, ∀ x, g.ptr ≤ x → x < g.ptr + g.size → w'.state.memory x = w.state.memory x

theorem Sound.separate (sound : Sound w free) : Separate w := by
  refine ⟨fun g member => ?_, sound.distinct, free, sound.lists, sound.apart⟩
  have granted := sound.granted g member
  have start := sound.block_start member
  simp only [Region.stop] at granted ⊢
  omega

theorem Sound.ends (sound : Sound w free) (allowed : Allowed w call) : ∃ w', Does w call w' := by
  cases call with
  | alloc size =>
    rcases sound.alloc_enough size allowed (Nat.lt_succ_self free.length) with
      ⟨refused, _⟩ | ⟨_, _, _, _, _, _, _, given, _⟩
    · exact ⟨_, .alloc refused⟩
    · exact ⟨_, .alloc given⟩
  | free ptr =>
    rcases allowed with ⟨g, member, rfl⟩
    rcases sound.free_cases member (Nat.lt_succ_self free.length) with ⟨_, _, given, _⟩
    exact ⟨_, .free given⟩
  | write addr byte => exact ⟨_, .write⟩

theorem Sound.untouched (sound : Sound w free) (allowed : Allowed w call) (own : call.Own)
    (does : Does w call w') : Untouched w w' := by
  intro g member x low high
  have granted := sound.granted g member
  have start := sound.block_start member
  cases call with
  | alloc size =>
    rcases sound.alloc_does allowed does with ⟨rfl, _⟩ | ⟨_, _, _, _, _, _, _, kept, _⟩
    · rfl
    · refine kept x fun r listed => ?_
      have away := sound.apart g member r listed
      simp only [Apart, Region.stop] at away granted ⊢
      omega
  | free ptr =>
    rcases allowed with ⟨h, freed, rfl⟩
    rcases (sound.free_does freed does).2.2.2.1 with ⟨written, kept, within⟩
    refine kept x fun q only => ?_
    rcases within q only with ⟨r, listed, rfl⟩ | rfl
    · have away := sound.apart g member r listed
      have _ := (sound.headed listed).1
      simp only [Apart, header, Region.stop] at away granted ⊢
      omega
    · by_cases same : g.ptr = h.ptr
      · have start' := sound.block_start freed
        simp only [header, Region.stop]
        omega
      · have away := sound.block_apart freed member same
        have _ := sound.grant_headed freed
        simp only [Apart, header, Region.stop] at away granted ⊢
        omega
  | write addr byte => cases own

/-- In every run what is given out stays apart, every call comes to its end, and none changes
what is given out. -/
theorem never_overlaps {steps : List (World × Call)} (run : Run steps w) :
    Separate w ∧ ∀ call, Allowed w call → (∃ w', Does w call w') ∧
      ∀ w', Does w call w' → call.Own → Untouched w w' := by
  rcases sound_run run with ⟨free, sound⟩
  refine ⟨sound.separate, fun call allowed => ⟨sound.ends allowed, fun w' does own => ?_⟩⟩
  exact sound.untouched allowed own does

def room : World :=
  ⟨⟨⟨4096, 64, 4096⟩, setNext (setSize (fun _ => 0) 4096 64) 4096 0⟩, []⟩

def taken : World :=
  ⟨unlink ⟨room.state.self, split room.state.memory 4096 24⟩ 0 4096, [⟨4112, 8⟩]⟩

theorem taken_run : Run [(room, .alloc 8)] taken := by
  have created : Run [] room :=
    @Run.create (fun _ => 0) 4096 64 _ rfl (by decide) (by decide)
  have given : Does room (.alloc 8) taken := @Does.alloc room 1 8 4112 taken.state rfl
  have fits : Allowed room (.alloc 8) := Nat.le_of_ble_eq_true rfl
  exact .call created fits given

theorem never_overlaps_taken :
    Separate taken ∧ ∀ call, Allowed taken call → (∃ w', Does taken call w') ∧
      ∀ w', Does taken call w' → call.Own → Untouched taken w' :=
  never_overlaps taken_run

end Overlap

section Conservation

/-- The list is in address order with a gap behind each block, all sizes together are the
capacity, and with nothing given out the largest request is met again. -/
def Conserves (w : World) : Prop :=
  ∃ free, Lists w.state free ∧ free.Pairwise (fun r q => r.start < q.start) ∧
    (∀ r ∈ free, ∀ q ∈ free, r.stop ≠ q.start) ∧
    total free + total (w.grants.map (Grant.block w.state.memory)) = w.state.self.capacity ∧
    (w.grants = [] → ∃ fuel ptr state,
      alloc fuel w.state (w.state.self.capacity - flHdr) = some (ptr, state) ∧ ptr ≠ 0)

def Linked (w : World) : Call → Prop
  | .free ptr => w.state.self.head ≠ 0 ∧ w.state.self.head < ptr - flHdr
  | _ => True

structure Balanced (w : World) (free : List Region) : Prop where
  sound : Sound w free
  gapped : Gapped free
  full : total free + total (w.grants.map (Grant.block w.state.memory)) = w.state.self.capacity

variable {needed : Nat} {r : Region}

theorem total_parts (fits : needed ≤ r.size) :
    (parts r needed).1.size + total (parts r needed).2 = r.size := by
  unfold parts
  split
  · simp only [total_cons, total_nil]
    omega
  · simp

theorem gapped_parts {front back}
    (ordered : Ordered (front ++ r :: back)) (gapped : Gapped (front ++ r :: back))
    (fits : needed ≤ r.size) (positive : 0 < needed) :
    Gapped (front ++ ((parts r needed).2 ++ back)) := by
  rcases ordered_append.1 ordered with ⟨_, last, across⟩
  have behind := (ordered_cons.1 last).1
  rcases isChain_append.1 gapped with ⟨early, late, _⟩
  unfold parts
  split
  · next room =>
      refine isChain_append.2 ⟨early, ?_, fun q member s head => ?_⟩
      · cases back with
        | nil => exact List.IsChain.singleton _
        | cons s rest =>
          rcases isChain_cons_cons.1 late with ⟨gap, later⟩
          refine isChain_cons_cons.2 ⟨?_, later⟩
          simp only [Region.stop] at gap ⊢
          omega
      · cases head
        have before := across q (mem_of_getLast? member) r (.head _)
        simp only [Before] at before
        exact ne_of_lt (lt_of_le_of_lt before (Nat.lt_add_of_pos_right positive))
  · refine isChain_append.2 ⟨early, ?_, fun q member s head => ?_⟩
    · exact (isChain_cons.1 late).2
    · have before := across q (mem_of_getLast? member) r (.head _)
      have after := behind s (mem_of_head? head)
      simp only [Before, Region.stop] at before after ⊢
      omega

theorem total_filter {grants : List Grant} (distinct : grants.Pairwise fun g h => g.ptr ≠ h.ptr)
    (member : g ∈ grants) (block : Grant → Region) : total (grants.map block) =
      (block g).size + total ((grants.filter (·.ptr ≠ g.ptr)).map block) := by
  induction grants with
  | nil => cases member
  | cons h rest ih =>
    rcases pairwise_cons.1 distinct with ⟨differs, distinct⟩
    rw [map_cons, total_cons]
    rcases mem_cons.1 member with rfl | member
    · have all : rest.filter (·.ptr ≠ g.ptr) = rest :=
        filter_eq_self.2 fun x later => decide_eq_true (differs x later).symm
      rw [filter_cons_of_neg (by simp), all]
    · rw [filter_cons_of_pos (by simpa using differs g member), map_cons, total_cons,
        ih distinct member]
      omega

theorem Sound.pointers (sound : Sound w free) : w.grants.Pairwise fun g h => g.ptr ≠ h.ptr := by
  refine sound.distinct.imp_of_mem fun {g h} one _ apart same => ?_
  have some := sound.grant_nonempty one
  have block : h.block w.state.memory = g.block w.state.memory := by
    simp only [Grant.block, same]
  rw [block] at apart
  simp only [Apart, Region.stop] at apart
  omega

theorem Balanced.conserves (balanced : Balanced w free) : Conserves w := by
  rcases balanced with ⟨sound, gapped, full⟩
  have positive : ∀ r ∈ free, 0 < r.size := fun r listed =>
    Nat.zero_lt_of_lt (sound.listed r listed).2.2
  have starts : free.Pairwise fun r q => r.start < q.start := by
    refine sound.ordered.imp_of_mem fun {r q} one _ before => ?_
    have some := positive r one
    simp only [Before, Region.stop] at before
    omega
  refine ⟨free, sound.lists, starts, stop_ne_start sound.ordered gapped positive, full, ?_⟩
  · intro none
    have enough := sound.enough
    rw [none, map_nil, total_nil, add_zero] at full
    have single : free = [⟨w.state.self.buffer, w.state.self.capacity⟩] := by
      have whole := single_of_total sound.ordered gapped w.state.self.buffer
        (w.state.self.buffer + w.state.self.capacity)
        (fun r listed => ⟨(sound.listed r listed).1, (sound.listed r listed).2.1⟩)
        (Nat.lt_add_of_pos_right (by omega)) (by omega)
      rwa [Nat.add_sub_cancel_left] at whole
    rcases sound.alloc_enough (w.state.self.capacity - flHdr) (Nat.sub_le _ _)
      (Nat.lt_succ_self _) with ⟨_, small⟩ | ⟨_, r, _, state, _, _, _, given, _⟩
    · have none := small (by omega) _ (single ▸ mem_cons_self)
      simp only at none
      omega
    · exact ⟨_, _, _, given, ne_of_gt (Nat.add_pos_right _ (by decide))⟩

theorem Balanced.step (balanced : Balanced w free) (allowed : Allowed w call)
    (does : Does w call w') (linked : Linked w call) : ∃ free', Balanced w' free' := by
  rcases balanced with ⟨sound, gapped, full⟩
  cases call with
  | alloc size =>
    rcases sound.alloc_does allowed does with
      ⟨rfl, _⟩ | ⟨front, r, back, rfl, fits, grants, block, kept, capacity, sound'⟩
    · exact ⟨free, sound, gapped, full⟩
    · refine ⟨_, sound', ?_, ?_⟩
      · exact gapped_parts sound.ordered gapped fits (Nat.add_pos_right _ (by decide))
      · have parted := total_parts fits
        have others : w.grants.map (Grant.block w'.state.memory) =
            w.grants.map (Grant.block w.state.memory) :=
          map_congr_left fun g member => sound.blocks_kept kept member
        rw [grants, map_cons, total_cons, block, others, capacity, ← full]
        simp only [total_append, total_cons]
        omega
  | free ptr =>
    rcases allowed with ⟨g, member, rfl⟩
    rcases sound.free_does member does with ⟨grants, self, others, _, way⟩
    rcases way with ⟨above, _⟩ | ⟨init, p, back, rfl, _, _, sound'⟩
    · -- The head itself begins below the block, which has nothing listed before it.
      cases free with
      | nil => exact absurd sound.links linked.1
      | cons r rest =>
        have first := above r rfl
        rw [← sound.links.1] at first
        exact absurd linked.2 (Nat.not_lt.2 first)
    · refine ⟨_, sound', ?_, ?_⟩
      · rcases isChain_append.1 gapped with ⟨early, late, _⟩
        exact gapped_append_join early (gapped_join late)
      · have freed := total_filter sound.pointers member (Grant.block w.state.memory)
        rw [grants, map_congr_left others, self, ← full, freed]
        simp only [total_append, total_cons, total_join, total_nil]
        omega
  | write addr byte =>
    rcases sound.write_does allowed does with ⟨sound', grants, self, blocks⟩
    refine ⟨free, sound', gapped, ?_⟩
    rw [grants, self, map_congr_left blocks]
    exact full

theorem Balanced.lost (balanced : Balanced w free) (allowed : Allowed w call)
    (does : Does w call w') (unlinked : ¬ Linked w call) : ¬ Conserves w' := by
  rcases balanced with ⟨sound, gapped, full⟩
  cases call with
  | alloc size => exact absurd trivial unlinked
  | write addr byte => exact absurd trivial unlinked
  | free ptr =>
    rcases allowed with ⟨g, member, rfl⟩
    rcases sound.free_does member does with ⟨grants, self, others, _, way⟩
    rcases way with ⟨_, sound'⟩ | ⟨init, p, back, rfl, below, _⟩
    · rintro ⟨free', lists, _, _, full', _⟩
      have freed := total_filter sound.pointers member (Grant.block w.state.memory)
      have some := sound.grant_nonempty member
      rw [grants, map_congr_left others, self, ← sound'.lists.unique lists] at full'
      omega
    · refine absurd ?_ unlinked
      have nonnull : ∀ q ∈ init ++ [p], q.start ≠ 0 := fun q early =>
        (sound.headed (mem_append_left back early)).2
      have head := links_headFrom sound.links
      simp only [Linked, head]
      cases init with
      | nil => exact ⟨nonnull p (by simp), below p (by simp)⟩
      | cons q rest => exact ⟨nonnull q (by simp), below q (by simp)⟩

variable {steps : List (World × Call)}

theorem balanced_run (run : Run steps w) (linked : ∀ step ∈ steps, Linked step.1 step.2) :
    ∃ free, Balanced w free := by
  induction run with
  | create created placed half =>
    have sound := sound_create created placed half
    refine ⟨_, sound, List.IsChain.singleton _, ?_⟩
    rw [create_self created]
    rfl
  | call _ allowed does ih =>
    rcases forall_mem_cons.1 linked with ⟨here, before⟩
    rcases ih before with ⟨free, balanced⟩
    exact balanced.step allowed does here

/-- A run conserves the memory in all its states just when every block it frees has one before
it in the list. -/
theorem conserves_iff_linked (run : Run steps w) :
    (Conserves w ∧ ∀ step ∈ steps, Conserves step.1) ↔ ∀ step ∈ steps, Linked step.1 step.2 := by
  induction run with
  | create created placed half =>
    rcases balanced_run (.create created placed half) nofun with ⟨free, balanced⟩
    exact ⟨fun _ => nofun, fun _ => ⟨balanced.conserves, nofun⟩⟩
  | call run allowed does ih =>
    constructor
    · rintro ⟨conserves, before⟩
      rcases forall_mem_cons.mp before with ⟨here, before⟩
      have linked := ih.mp ⟨here, before⟩
      rcases balanced_run run linked with ⟨free, balanced⟩
      refine forall_mem_cons.mpr ⟨?_, linked⟩
      by_contra unlinked
      exact balanced.lost allowed does unlinked conserves
    · intro linked
      rcases balanced_run (.call run allowed does) linked with ⟨free, balanced⟩
      have before := ih.mpr (forall_mem_cons.mp linked).2
      exact ⟨balanced.conserves, forall_mem_cons.mpr before⟩

def tight : World :=
  ⟨⟨⟨4096, 24, 4096⟩, setNext (setSize (fun _ => 0) 4096 24) 4096 0⟩, []⟩

def whole : World :=
  ⟨⟨⟨4096, 24, 0⟩, setNext tight.state.memory 4096 0⟩, [⟨4112, 8⟩]⟩

def lost : World :=
  ⟨⟨⟨4096, 24, 0⟩, setNext whole.state.memory 4096 0⟩, []⟩

theorem lost_run : Run [(whole, .free 4112), (tight, .alloc 8)] lost := by
  have created : Run [] tight :=
    @Run.create (fun _ => 0) 4096 24 _ rfl (by decide) (by decide)
  have given : Does tight (.alloc 8) whole :=
    @Does.alloc tight 2 8 4112 whole.state rfl
  have freed : Does whole (.free 4112) lost :=
    @Does.free whole 1 4112 lost.state rfl
  have fits : Allowed tight (.alloc 8) := Nat.le_of_ble_eq_true rfl
  exact .call (.call created fits given) ⟨⟨4112, 8⟩, .head _, rfl⟩ freed

theorem conserves_iff_linked_lost :
    (Conserves lost ∧ ∀ step ∈ [(whole, Call.free 4112), (tight, .alloc 8)], Conserves step.1) ↔
      ∀ step ∈ [(whole, Call.free 4112), (tight, .alloc 8)], Linked step.1 step.2 :=
  conserves_iff_linked lost_run

/-- Everything has been freed, and the list is empty. -/
theorem freed_block_lost :
    Run [(whole, .free 4112), (tight, .alloc 8)] lost ∧ ¬ Conserves lost := by
  refine ⟨lost_run, ?_⟩
  rintro ⟨free, lists, _, _, full, _⟩
  have none : Lists lost.state [] := ⟨rfl, nofun⟩
  have same : [] = free := none.unique lists
  rw [← same] at full
  cases full

end Conservation

end FreeList

end Lucis
