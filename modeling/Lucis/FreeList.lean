import Lucis.Library.ByteMemory
import Lucis.Library.Regions

/-!
The free-list allocator of the standard library. A block begins with its size and, while it
is free, with the address of the next free block; both are words in the buffer itself, at
whatever address the sizes before them lead to. Pointers stay in the buffer, `usize`
arithmetic wraps.
-/

namespace Lucis

open ByteMemory List

structure FreeList where
  buffer : Nat
  capacity : Nat
  head : Nat

namespace FreeList

structure State where
  self : FreeList
  memory : Memory

def flHdr : Nat := 16

def flNxOff : Nat := 8

def usize (n : Nat) : Nat := n % 2 ^ 64

section Source

def blockSize (memory : Memory) (blk : Nat) : Nat := load memory 8 blk

def nextOf (memory : Memory) (blk : Nat) : Nat := load memory 8 (blk + flNxOff)

def setSize (memory : Memory) (blk size : Nat) : Memory := store memory 8 blk size

def setNext (memory : Memory) (blk next : Nat) : Memory := store memory 8 (blk + flNxOff) next

/-- `buf` is what the system's allocator answers, null when it refuses. -/
def create (memory : Memory) (buf size : Nat) : Except String State :=
  if size < flHdr + 8 then .error "Buffer too small for free list allocator"
  else if buf = 0 then .error "An error ocurred while creating free list!"
  else .ok ⟨⟨buf, size, buf⟩, setNext (setSize memory buf size) buf 0⟩

/-- Both loops: they end at null or where the body leaves them; `none` when the fuel runs out. -/
def walk (memory : Memory) (stop : Nat → Bool) : Nat → Nat → Nat → Option (Nat × Nat)
  | 0, _, _ => none
  | fuel + 1, prev, curr =>
    if curr = 0 ∨ stop curr then some (prev, curr)
    else walk memory stop fuel curr (nextOf memory curr)

def split (memory : Memory) (curr needed : Nat) : Memory :=
  let bsz := blockSize memory curr
  if usize (needed + flHdr + 8) ≤ bsz then
    let memory := setSize memory curr needed
    let nxt := curr + needed
    let memory := setSize memory nxt (bsz - needed)
    let memory := setNext memory nxt (nextOf memory curr)
    setNext memory curr nxt
  else memory

def unlink (s : State) (prev curr : Nat) : State :=
  let next := nextOf s.memory curr
  let s := if prev ≠ 0 then { s with memory := setNext s.memory prev next }
    else { s with self := { s.self with head := next } }
  { s with memory := setNext s.memory curr 0 }

def alloc (fuel : Nat) (s : State) (size : Nat) : Option (Nat × State) :=
  if size = 0 then some (0, s)
  else
    let needed := usize (size + flHdr)
    (walk s.memory (fun curr => needed ≤ blockSize s.memory curr) fuel 0 s.self.head).map
      fun (prev, curr) =>
        if curr = 0 then (0, s)
        else (curr + flHdr, unlink { s with memory := split s.memory curr needed } prev curr)

def absorb (memory : Memory) (blk nxt : Nat) : Memory :=
  let memory := setSize memory blk (usize (blockSize memory blk + blockSize memory nxt))
  setNext memory blk (nextOf memory nxt)

/-- A block with nothing before it is linked to the next one, but nothing is linked to it. -/
def linkIn (memory : Memory) (prev blk curr : Nat) : Memory :=
  let memory := setNext memory blk curr
  let memory := if prev ≠ 0 then setNext memory prev blk else memory
  let nxt := nextOf memory blk
  let memory :=
    if nxt ≠ 0 ∧ blk + blockSize memory blk = nxt then absorb memory blk nxt else memory
  if prev ≠ 0 ∧ prev + blockSize memory prev = blk then absorb memory prev blk else memory

def free (fuel : Nat) (s : State) (ptr : Nat) : Option State :=
  if ptr = 0 then some s
  else
    let blk := ptr - flHdr
    (walk s.memory (fun curr => ¬ curr < blk) fuel 0 s.self.head).map
      fun (prev, curr) => { s with memory := linkIn s.memory prev blk curr }

end Source

section Links

open Region

def Links (memory : Memory) : Nat → List Region → Nat → Prop
  | first, [], stop => first = stop
  | first, r :: rest, stop =>
    first = r.start ∧ blockSize memory first = r.size ∧
      Links memory (nextOf memory first) rest stop

def header (r : Region) : Region := ⟨r.start, flHdr⟩

def KeptOutside (rs : List Region) (memory memory' : Memory) : Prop :=
  ∀ x, (∀ r ∈ rs, x < r.start ∨ r.stop ≤ x) → memory' x = memory x

variable {memory memory' memory'' : Memory} {r p q : Region} {front back rest rs : List Region}
  {first stop mid next : Nat}

theorem KeptOutside.refl (rs : List Region) (memory : Memory) : KeptOutside rs memory memory :=
  fun _ _ => rfl

theorem KeptOutside.trans (one : KeptOutside rs memory memory')
    (other : KeptOutside rs memory' memory'') : KeptOutside rs memory memory'' :=
  fun x outside => (other x outside).trans (one x outside)

theorem KeptOutside.weaken (kept : KeptOutside rs memory memory') {rs'}
    (covered : ∀ r ∈ rs, ∃ q ∈ rs', r.Inside q) : KeptOutside rs' memory memory' := by
  intro x outside
  refine kept x fun r member => ?_
  rcases covered r member with ⟨q, later, inside⟩
  rcases outside q later with before | after
  · exact .inl (lt_of_lt_of_le before inside.1)
  · exact .inr (le_trans inside.2 after)

theorem kept_setSize (memory : Memory) (size : Nat) {blk : Nat} (low : r.start ≤ blk)
    (high : blk + flHdr ≤ r.stop) : KeptOutside [r] memory (setSize memory blk size) := by
  intro x outside
  have away := outside r (.head _)
  simp only [flHdr] at high
  exact store_outside memory size (by omega)

theorem kept_setNext (memory : Memory) (next : Nat) {blk : Nat} (low : r.start ≤ blk)
    (high : blk + flHdr ≤ r.stop) : KeptOutside [r] memory (setNext memory blk next) := by
  intro x outside
  have away := outside r (.head _)
  simp only [flHdr] at high
  exact store_outside memory next (by simp only [flNxOff]; omega)

section Words

variable (memory) {blk other size : Nat}

theorem nextOf_lt : nextOf memory blk < 2 ^ 64 := load_lt memory 8 (blk + flNxOff)

theorem blockSize_setSize (fits : size < 2 ^ 64) : blockSize (setSize memory blk size) blk = size :=
  load_store_of_lt memory blk fits

theorem nextOf_setNext (fits : next < 2 ^ 64) : nextOf (setNext memory blk next) blk = next :=
  load_store_of_lt memory (blk + flNxOff) fits

variable (apart : blk = other ∨ blk + flHdr ≤ other ∨ other + flHdr ≤ blk)
include apart

theorem blockSize_setNext :
    blockSize (setNext memory blk next) other = blockSize memory other :=
  load_store_apart memory next (by simp only [flNxOff, flHdr] at apart ⊢; omega)

theorem nextOf_setSize :
    nextOf (setSize memory blk size) other = nextOf memory other :=
  load_store_apart memory size (by simp only [flNxOff, flHdr] at apart ⊢; omega)

omit apart

theorem blockSize_setSize_apart (apart : blk + flHdr ≤ other ∨ other + flHdr ≤ blk) :
    blockSize (setSize memory blk size) other = blockSize memory other :=
  load_store_apart memory size (by simp only [flHdr] at apart; omega)

theorem nextOf_setNext_apart (apart : blk + flHdr ≤ other ∨ other + flHdr ≤ blk) :
    nextOf (setNext memory blk next) other = nextOf memory other :=
  load_store_apart memory next (by simp only [flNxOff, flHdr] at apart ⊢; omega)

end Words

theorem links_append : Links memory first (front ++ back) stop ↔
    ∃ mid, Links memory first front mid ∧ Links memory mid back stop := by
  induction front generalizing first with
  | nil => simp [Links]
  | cons r front ih =>
    simp only [cons_append, Links, ih]
    constructor
    · rintro ⟨start, size, mid, reached, later⟩
      exact ⟨mid, ⟨start, size, reached⟩, later⟩
    · rintro ⟨mid, ⟨start, size, reached⟩, later⟩
      exact ⟨start, size, mid, reached, later⟩

theorem links_kept {written} (links : Links memory first rs stop)
    (kept : KeptOutside written memory memory')
    (apart : ∀ r ∈ rs, ∀ q ∈ written, Apart (header r) q) : Links memory' first rs stop := by
  induction rs generalizing first with
  | nil => exact links
  | cons r rest ih =>
    rcases links with ⟨rfl, size, later⟩
    have same : ∀ x, r.start ≤ x → x < r.start + flHdr → memory' x = memory x := by
      intro x above below
      refine kept x fun q member => ?_
      have away := apart r (.head _) q member
      simp only [Apart, header, Region.stop] at away ⊢
      omega
    have size_eq : blockSize memory' r.start = blockSize memory r.start :=
      load_congr fun x above below => same x above (by simp only [flHdr]; omega)
    have next_eq : nextOf memory' r.start = nextOf memory r.start :=
      load_congr fun x above below => by
        simp only [flNxOff, flHdr] at above below same
        exact same x (by omega) (by omega)
    refine ⟨rfl, size_eq.trans size, ?_⟩
    rw [next_eq]
    exact ih later fun q member => apart q (mem_cons_of_mem r member)

theorem links_setNext (links : Links memory first (front ++ [p]) stop)
    (apart : ∀ r ∈ front, Apart (header r) (header p)) (fits : next < 2 ^ 64) :
    Links (setNext memory p.start next) first (front ++ [p]) next := by
  rcases links_append.1 links with ⟨mid, reached, rfl, size, _⟩
  refine links_append.2 ⟨p.start, ?_, rfl, ?_, ?_⟩
  · refine links_kept reached
      (kept_setNext (r := header p) memory next (le_rfl) (le_rfl))
      fun r member q written => ?_
    rw [mem_singleton.1 written]
    exact apart r member
  · rw [blockSize_setNext memory (.inl rfl), size]
  · exact nextOf_setNext memory fits

def lastFrom (prev : Nat) : List Region → Nat
  | [] => prev
  | r :: rest => lastFrom r.start rest

def headFrom : List Region → Nat
  | [] => 0
  | r :: _ => r.start

@[simp] theorem lastFrom_append (prev : Nat) (front : List Region) (p : Region) :
    lastFrom prev (front ++ [p]) = p.start := by
  induction front generalizing prev with
  | nil => rfl
  | cons r _ ih => exact ih r.start

theorem links_headFrom (links : Links memory first rs 0) : first = headFrom rs := by
  cases rs with
  | nil => exact links
  | cons r rest => exact links.1

theorem walk_links (leave : Nat → Bool) (links : Links memory first rs 0)
    (nonnull : ∀ r ∈ rs, r.start ≠ 0) {fuel : Nat} (enough : rs.length < fuel) (prev : Nat) :
    ∃ front back, rs = front ++ back ∧
      walk memory leave fuel prev first = some (lastFrom prev front, headFrom back) ∧
      (∀ r ∈ front, leave r.start = false) ∧ ∀ r ∈ back.head?, leave r.start = true := by
  induction rs generalizing first prev fuel with
  | nil =>
    obtain rfl : first = 0 := links
    obtain ⟨fuel, rfl⟩ := Nat.exists_eq_succ_of_ne_zero (ne_of_gt enough)
    refine ⟨[], [], rfl, ?_, nofun, nofun⟩
    rw [walk, if_pos (.inl rfl)]
    rfl
  | cons r rest ih =>
    rcases links with ⟨rfl, size, later⟩
    obtain ⟨fuel, rfl⟩ := Nat.exists_eq_succ_of_ne_zero (ne_of_gt (Nat.zero_lt_of_lt enough))
    have here := nonnull r (.head _)
    by_cases leaves : leave r.start = true
    · refine ⟨[], r :: rest, rfl, ?_, nofun, ?_⟩
      · rw [walk, if_pos (.inr leaves)]
        rfl
      · rintro _ ⟨⟩
        exact leaves
    · rcases ih later (fun q member => nonnull q (mem_cons_of_mem r member))
        (Nat.lt_of_succ_lt_succ enough) r.start with ⟨front, back, rfl, walked, passed, stopped⟩
      refine ⟨r :: front, back, rfl, ?_, ?_, stopped⟩
      · rw [walk, if_neg (by simp [here, leaves])]
        exact walked
      · intro q member
        rcases mem_cons.1 member with rfl | member
        · exact Bool.not_eq_true _ ▸ leaves
        · exact passed q member

theorem walk_mono {leave : Nat → Bool} {fuel fuel' prev curr : Nat} {out : Nat × Nat}
    (walked : walk memory leave fuel prev curr = some out) (more : fuel ≤ fuel') :
    walk memory leave fuel' prev curr = some out := by
  induction fuel generalizing prev curr fuel' with
  | zero => cases walked
  | succ fuel ih =>
    obtain ⟨fuel', rfl⟩ := Nat.exists_eq_add_of_le more
    rw [Nat.succ_add, walk]
    rw [walk] at walked
    split at walked
    · next stops => rw [if_pos stops, walked]
    · next goes =>
        rw [if_neg goes]
        exact ih walked (Nat.le_add_right fuel fuel')

end Links

section Steps

open Region

variable {memory memory' : Memory} {r p b : Region} {front back rest : List Region}
  {first stop : Nat}

def parts (r : Region) (needed : Nat) : Region × List Region :=
  if needed + flHdr + 8 ≤ r.size then
    (⟨r.start, needed⟩, [⟨r.start + needed, r.size - needed⟩])
  else (r, [])

theorem parts_inside {needed : Nat} (fits : needed ≤ r.size) :
    (parts r needed).1.start = r.start ∧ needed ≤ (parts r needed).1.size ∧
      (parts r needed).1.Inside r := by
  unfold parts
  split
  · exact ⟨rfl, Nat.le_refl _, Nat.le_refl _, Nat.add_le_add_left fits _⟩
  · exact ⟨rfl, fits, Inside.refl r⟩

theorem usize_of_lt {n : Nat} (fits : n < 2 ^ 64) : usize n = n := Nat.mod_eq_of_lt fits

theorem header_inside (headed : flHdr ≤ r.size) : (header r).Inside r :=
  ⟨Nat.le_refl _, Nat.add_le_add_left headed _⟩

section Split

variable {needed : Nat} (size : blockSize memory r.start = r.size) (headed : flHdr ≤ needed)
  (fits : needed ≤ r.size) (bound : r.stop ≤ 2 ^ 64) (small : needed + flHdr + 8 < 2 ^ 64)

include size headed fits small in
theorem kept_split : KeptOutside [r] memory (split memory r.start needed) := by
  simp only [split, usize_of_lt small, size]
  split
  · next room =>
      have high : r.start + flHdr ≤ r.stop := Nat.add_le_add_left (headed.trans fits) _
      have low' : r.start ≤ r.start + needed := Nat.le_add_right _ _
      have high' : r.start + needed + flHdr ≤ r.stop := by
        simp only [Region.stop]
        omega
      have sized := kept_setSize memory needed (le_refl r.start) high
      have rest := sized.trans (kept_setSize _ (r.size - needed) low' high')
      exact (rest.trans (kept_setNext _ _ low' high')).trans
        (kept_setNext _ (r.start + needed) (le_refl r.start) high)
  · exact KeptOutside.refl _ memory

include headed fits bound small in
theorem split_links (links : Links memory r.start (r :: back) stop)
    (behind : ∀ q ∈ back, Before r q) : Links (split memory r.start needed) r.start
      ((parts r needed).1 :: (parts r needed).2 ++ back) stop := by
  rcases links with ⟨_, size, later⟩
  have kept := kept_split size headed fits small
  have later' : Links (split memory r.start needed) (nextOf memory r.start) back stop := by
    refine links_kept later kept fun q member s written => ?_
    rw [mem_singleton.1 written]
    exact .inr (behind q member)
  revert later'
  simp only [split, parts, usize_of_lt small, size]
  split
  · next room =>
      intro later'
      have word : r.size < 2 ^ 64 := size ▸ load_lt memory 8 _
      simp only [Region.stop] at bound
      -- The two headers lie apart, the second one `needed` bytes behind the first.
      have apart : r.start + flHdr ≤ r.start + needed := Nat.add_le_add_left headed _
      have next_eq : nextOf (setSize (setSize memory r.start needed) (r.start + needed)
          (r.size - needed)) r.start = nextOf memory r.start := by
        rw [nextOf_setSize _ (.inr (.inr apart)), nextOf_setSize _ (.inl rfl)]
      rw [next_eq] at later' ⊢
      refine ⟨rfl, ?_, ?_, ?_, ?_⟩
      · rw [blockSize_setNext _ (.inl rfl), blockSize_setNext _ (.inr (.inr apart)),
          blockSize_setSize_apart _ (.inr apart), blockSize_setSize _ (by omega)]
      · exact nextOf_setNext _ (by omega)
      · rw [nextOf_setNext _ (by omega), blockSize_setNext _ (.inr (.inl apart)),
          blockSize_setNext _ (.inl rfl), blockSize_setSize _ (by omega)]
      · rw [nextOf_setNext _ (by omega), nextOf_setNext_apart _ (.inl apart),
          nextOf_setNext _ (nextOf_lt memory)]
        exact later'
  · intro later'
    exact ⟨rfl, size, later'⟩

end Split

theorem header_before (before : Before r p) (headed : flHdr ≤ r.size) :
    Apart (header r) p ∧ Apart p (header r) := by
  have inside := (header_inside headed).2.trans before
  exact ⟨.inl inside, .inr inside⟩

theorem header_after (before : Before p r) : Apart (header r) p ∧ Apart p (header r) :=
  ⟨.inr before, .inl before⟩

section Unlink

variable {self : FreeList}

theorem unlink_links (links : Links memory self.head (front ++ r :: rest) 0)
    (ordered : Ordered (front ++ r :: rest))
    (headed : ∀ q ∈ front ++ r :: rest, flHdr ≤ q.size ∧ q.start ≠ 0) :
    let s := unlink ⟨self, memory⟩ (lastFrom 0 front) r.start
    Links s.memory s.self.head (front ++ rest) 0 ∧ blockSize s.memory r.start = r.size ∧
      KeptOutside (front ++ [r]) memory s.memory ∧
      s.self.buffer = self.buffer ∧ s.self.capacity = self.capacity := by
  rcases ordered_append.1 ordered with ⟨first_ordered, last_ordered, across⟩
  have behind := (ordered_cons.1 last_ordered).1
  have large : flHdr ≤ r.size := (headed r (mem_append_right _ (.head _))).1
  rcases links_append.1 links with ⟨mid, reached, rfl, size, later⟩
  have cleared : ∀ memory : Memory, KeptOutside [r] memory (setNext memory r.start 0) :=
    fun memory => kept_setNext memory 0 (Nat.le_refl _) (Nat.add_le_add_left large _)
  have rest_apart : ∀ q ∈ rest, ∀ s ∈ [r], Apart (header q) s := fun q member s written =>
    mem_singleton.1 written ▸ (header_after (behind q member)).1
  rcases eq_nil_or_concat front with rfl | ⟨init, p, rfl⟩
  · have head : unlink ⟨self, memory⟩ (lastFrom 0 []) r.start =
        ⟨{ self with head := nextOf memory r.start }, setNext memory r.start 0⟩ := by
      simp only [unlink, lastFrom, ne_eq, not_true_eq_false, if_false]
    simp only [head]
    refine ⟨?_, ?_, cleared memory, trivial, trivial⟩
    · exact links_kept later (cleared memory) rest_apart
    · exact (blockSize_setNext memory (.inl rfl)).trans size
  · simp only [concat_eq_append] at *
    have nonnull : p.start ≠ 0 := (headed p (by simp)).2
    have large' : flHdr ≤ p.size := (headed p (by simp)).1
    have before : Before p r := across p (by simp) r (.head _)
    have init_before : ∀ q ∈ init, Before q p := fun q member =>
      (ordered_append.1 first_ordered).2.2 q member p (.head _)
    have init_headed : ∀ q ∈ init, flHdr ≤ q.size := fun q member => (headed q (by simp [member])).1
    have led : KeptOutside [p] memory (setNext memory p.start (nextOf memory r.start)) :=
      kept_setNext memory _ (Nat.le_refl _) (Nat.add_le_add_left large' _)
    simp only [unlink, lastFrom_append, if_pos nonnull]
    refine ⟨links_append.2 ⟨nextOf memory r.start, ?_, ?_⟩, ?_, ?_, trivial, trivial⟩
    · refine links_kept (links_setNext reached (fun q member => ?_) (nextOf_lt memory))
        (cleared _) fun q member s written => ?_
      · exact (header_before (init_before q member) (init_headed q member)).1.inside
          (header_inside large')
      · rw [mem_singleton.1 written]
        have away := across q member r (.head _)
        refine (header_before away ?_).1
        exact (headed q (mem_append_left _ member)).1
    · refine links_kept (links_kept later led fun q member s written => ?_) (cleared _) rest_apart
      rw [mem_singleton.1 written]
      exact (header_after (across p (by simp) q (mem_cons_of_mem r member))).1
    · have apart : p.start + flHdr ≤ r.start := (header_inside large').2.trans before
      rw [blockSize_setNext _ (.inl rfl), blockSize_setNext _ (.inr (.inl apart)), size]
    · refine (led.weaken fun q member => ?_).trans ((cleared _).weaken fun q member => ?_)
      · exact ⟨p, by simp, mem_singleton.1 member ▸ Inside.refl p⟩
      · exact ⟨r, by simp, mem_singleton.1 member ▸ Inside.refl r⟩

end Unlink

section Merge

def merge (memory : Memory) (blk : Nat) : Memory :=
  let nxt := nextOf memory blk
  if nxt ≠ 0 ∧ blk + blockSize memory blk = nxt then absorb memory blk nxt else memory

theorem kept_absorb (memory : Memory) (r : Region) (nxt : Nat) :
    KeptOutside [header r] memory (absorb memory r.start nxt) :=
  (kept_setSize (r := header r) memory _ (le_rfl) (le_rfl)).trans
    (kept_setNext (r := header r) _ _ (le_rfl) (le_rfl))

theorem kept_merge (memory : Memory) (r : Region) :
    KeptOutside [header r] memory (merge memory r.start) := by
  simp only [merge]
  split
  · exact kept_absorb memory r _
  · exact KeptOutside.refl _ memory

theorem absorb_links {q : Region} (links : Links memory r.start (r :: q :: rest) stop)
    (ordered : Ordered (r :: q :: rest)) (headed : flHdr ≤ r.size) (touch : r.stop = q.start)
    (fits : r.size + q.size < 2 ^ 64) :
    Links (absorb memory r.start q.start) r.start (⟨r.start, r.size + q.size⟩ :: rest) stop := by
  rcases links with ⟨_, size, start, size', later⟩
  rw [start] at size' later
  rcases ordered_cons.1 ordered with ⟨before, _⟩
  have apart : r.start + flHdr ≤ q.start := (header_inside headed).2.trans (le_of_eq touch)
  have kept := kept_absorb memory r q.start
  refine ⟨rfl, ?_, ?_⟩
  · rw [absorb, size, size', usize_of_lt fits, blockSize_setNext _ (.inl rfl),
      blockSize_setSize _ fits]
  · have next_eq : nextOf (absorb memory r.start q.start) r.start = nextOf memory q.start := by
      rw [absorb, nextOf_setNext _ (nextOf_lt _), nextOf_setSize _ (.inr (.inl apart))]
    rw [next_eq]
    refine links_kept later kept fun s member written only => ?_
    rw [mem_singleton.1 only]
    exact (header_after (before s (mem_cons_of_mem q member))).1.inside (header_inside headed)

theorem merge_links (links : Links memory r.start (r :: rest) 0) (ordered : Ordered (r :: rest))
    (headed : flHdr ≤ r.size) (nonnull : ∀ q ∈ r :: rest, q.start ≠ 0)
    (bound : ∀ q ∈ r :: rest, q.stop ≤ 2 ^ 64) :
    Links (merge memory r.start) r.start (join r rest) 0 := by
  have size := links.2.1
  cases rest with
  | nil =>
    have last : nextOf memory r.start = 0 := links.2.2
    rw [merge, if_neg (by simp [last])]
    exact links
  | cons q rest =>
    have next : nextOf memory r.start = q.start := links.2.2.1
    have some := nonnull q (by simp)
    rw [merge, next, size, join]
    by_cases touch : r.stop = q.start
    · have high := bound q (by simp)
      have low := nonnull r (.head _)
      rw [if_pos ⟨some, touch⟩, if_pos touch]
      exact absorb_links links ordered headed touch (by simp only [Region.stop] at *; omega)
    · rw [if_neg fun both => touch both.2, if_neg touch]
      exact links

end Merge

section Insert

section Twice

variable {init : List Region}

theorem twice_forall {P} (joins : Joins P)
    (each : ∀ q ∈ (init ++ [p]) ++ b :: back, P q) : ∀ q ∈ init ++ join p (join b back), P q :=
  forall_append_join joins
    (append_assoc init [p] _ ▸ forall_append_join joins each)

end Twice

theorem linkIn_eq (memory : Memory) (prev blk curr : Nat) : linkIn memory prev blk curr =
      let memory := setNext memory blk curr
      let memory := merge (if prev ≠ 0 then setNext memory prev blk else memory) blk
      if prev ≠ 0 ∧ prev + blockSize memory prev = blk then absorb memory prev blk else memory :=
  rfl

theorem linkIn_alone (memory : Memory) (b : Region) (curr : Nat) :
    KeptOutside [header b] memory (linkIn memory 0 b.start curr) := by
  simp only [linkIn_eq, ne_eq, not_true_eq_false, false_and, if_false]
  exact (kept_setNext (r := header b) memory curr (le_rfl) (le_rfl)).trans
    (kept_merge _ b)

theorem KeptOutside.left (kept : KeptOutside [header p] memory memory') :
    KeptOutside [header p, header b] memory memory' :=
  kept.weaken fun q only =>
    ⟨header p, by simp, mem_singleton.1 only ▸ Inside.refl (header p)⟩

theorem KeptOutside.right (kept : KeptOutside [header b] memory memory') :
    KeptOutside [header p, header b] memory memory' :=
  kept.weaken fun q only =>
    ⟨header b, by simp, mem_singleton.1 only ▸ Inside.refl (header b)⟩

section Behind

variable {init : List Region} (ordered : Ordered ((init ++ [p]) ++ b :: back))
  (headed : ∀ q ∈ (init ++ [p]) ++ b :: back, flHdr ≤ q.size ∧ q.start ≠ 0)
  (bound : ∀ q ∈ (init ++ [p]) ++ b :: back, q.stop ≤ 2 ^ 64)

include ordered headed in
theorem header_apart : ∀ s ∈ init ++ [p], Apart (header s) (header b) := fun s member =>
  (header_before ((ordered_append.1 ordered).2.2 s member b (.head _))
    (headed s (mem_append_left _ member)).1).1.inside (header_inside (headed b (by simp)).1)

include ordered headed bound in
theorem linked_links (links : Links memory first ((init ++ [p]) ++ back) 0)
    (size : blockSize memory b.start = b.size) :
    let memory' := setNext (setNext memory b.start (headFrom back)) p.start b.start
    Links memory' first (init ++ [p]) b.start ∧ Links memory' b.start (b :: back) 0 ∧
      KeptOutside [header p, header b] memory memory' := by
  rcases ordered_append.1 ordered with ⟨first_ordered, last_ordered, across⟩
  have large_p := (headed p (by simp)).1
  have large_b := (headed b (by simp)).1
  have behind := (ordered_cons.1 last_ordered).1
  have fits : ∀ q ∈ (init ++ [p]) ++ b :: back, q.start < 2 ^ 64 := fun q member => by
    have stop_le := bound q member
    have large := (headed q member).1
    simp only [Region.stop, flHdr] at stop_le large
    omega
  have head_fits : headFrom back < 2 ^ 64 := by
    cases back with
    | nil => decide
    | cons q rest => exact fits q (by simp)
  rcases links_append.1 links with ⟨mid, reached, later⟩
  obtain rfl := links_headFrom later
  have one := kept_setNext (r := header b) memory (headFrom back) (le_rfl) (le_rfl)
  have two := kept_setNext (r := header p) (setNext memory b.start (headFrom back)) b.start
    (le_rfl) (le_rfl)
  have _ : Before p b := across p (by simp) b (.head _)
  refine ⟨?_, ?_, ?_⟩
  · refine links_setNext (links_kept reached one fun s member q only => ?_) (fun s member => ?_)
      (fits b (by simp))
    · exact mem_singleton.1 only ▸ header_apart ordered headed s member
    · have earlier := (ordered_append.1 first_ordered).2.2 s member p (.head _)
      exact (header_before earlier (headed s (by simp [member])).1).1.inside (header_inside large_p)
  · refine links_kept ⟨rfl, (blockSize_setNext _ (.inl rfl)).trans size, ?_⟩ two
      fun s member q only => ?_
    · rw [nextOf_setNext _ head_fits]
      refine links_kept later one fun q member s only => ?_
      rw [mem_singleton.1 only]
      exact (header_after (behind q member)).1.inside (header_inside large_b)
    · rw [mem_singleton.1 only]
      exact (header_after (across p (by simp) s member)).1.inside (header_inside large_p)
  · exact one.right.trans two.left

include ordered headed bound in
theorem merged_links (reached : Links memory first (init ++ [p]) b.start)
    (block : Links memory b.start (b :: back) 0) :
    let memory' := merge (merge memory b.start) p.start
    Links memory' first (init ++ join p (join b back)) 0 ∧
      KeptOutside [header p, header b] memory memory' := by
  rcases ordered_append.1 ordered with ⟨first_ordered, last_ordered, _⟩
  have large_p := (headed p (by simp)).1
  have large_b := (headed b (by simp)).1
  have one := kept_merge memory b
  have two := kept_merge (merge memory b.start) p
  have joined : Links (merge memory b.start) b.start (join b back) 0 :=
    merge_links block last_ordered large_b (fun q member => (headed q (by simp [member])).2)
      (fun q member => bound q (by simp [member]))
  have reached' : Links (merge memory b.start) first (init ++ [p]) b.start :=
    links_kept reached one fun s member q only =>
      mem_singleton.1 only ▸ header_apart ordered headed s member
  rcases links_append.1 reached' with ⟨mid, early, rfl, size, next⟩
  refine ⟨links_append.2 ⟨p.start, ?_, ?_⟩, ?_⟩
  · refine links_kept early two fun s member q only => ?_
    rw [mem_singleton.1 only]
    have earlier := (ordered_append.1 first_ordered).2.2 s member p (.head _)
    exact (header_before earlier (headed s (by simp [member])).1).1.inside (header_inside large_p)
  · have ordered' : Ordered (p :: join b back) :=
      (ordered_append.1 (append_assoc init [p] _ ▸ ordered_append_join ordered)).2.1
    have nonnull : ∀ q ∈ p :: join b back, q.start ≠ 0 := by
      refine forall_mem_cons.2 ⟨(headed p (by simp)).2, ?_⟩
      exact forall_join (fun q member => (headed q (by simp [member])).2)
        fun _ _ _ => (headed b (by simp)).2
    have bound' : ∀ q ∈ p :: join b back, q.stop ≤ 2 ^ 64 := by
      refine forall_mem_cons.2 ⟨bound p (by simp), ?_⟩
      refine forall_join (fun q member => bound q (by simp [member])) fun q member touch => ?_
      have stop_le := bound q (by simp [member])
      simp only [Region.stop] at touch stop_le ⊢
      omega
    have chained : Links (merge memory b.start) p.start (p :: join b back) 0 := by
      refine ⟨rfl, size, ?_⟩
      rw [show nextOf (merge memory b.start) p.start = b.start from next]
      exact joined
    exact merge_links chained ordered' large_p nonnull bound'
  · exact one.right.trans two.left

include ordered headed bound in
theorem linkIn_links (links : Links memory first ((init ++ [p]) ++ back) 0)
    (size : blockSize memory b.start = b.size) :
    let memory' := linkIn memory p.start b.start (headFrom back)
    Links memory' first (init ++ join p (join b back)) 0 ∧
      KeptOutside [header p, header b] memory memory' := by
  have nonnull_p := (headed p (by simp)).2
  have nonnull_b := (headed b (by simp)).2
  rcases linked_links ordered headed bound links size with ⟨reached, block, kept⟩
  rcases merged_links ordered headed bound reached block with ⟨links', kept'⟩
  have _ := (headed b (by simp)).1
  have next : nextOf (merge (setNext (setNext memory b.start (headFrom back)) p.start b.start)
      b.start) p.start = b.start := by
    have reached' := links_kept reached (kept_merge _ b) fun s member q only =>
      mem_singleton.1 only ▸ header_apart ordered headed s member
    rcases links_append.1 reached' with ⟨mid, _, rfl, _, next⟩
    exact next
  have same : linkIn memory p.start b.start (headFrom back) =
      merge (merge (setNext (setNext memory b.start (headFrom back)) p.start b.start) b.start)
        p.start := by
    simp only [linkIn_eq, if_pos nonnull_p]
    rw [merge.eq_1 _ p.start, next]
    simp [nonnull_p, nonnull_b]
  rw [same]
  exact ⟨links', kept.trans kept'⟩

end Behind

end Insert

end Steps

end FreeList

end Lucis
