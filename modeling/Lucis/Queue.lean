import Lucis.Library.Refinement
import Lucis.Library.Ring
import Lucis.Memory

/-!
The queue of the standard library's container module: a ring buffer that grows when it is
full. A call that touches a cell outside the buffer or takes a remainder by zero is at
fault; one that asks for memory the system does not have ends the process.
-/

namespace Lucis

open List

open Cells (Block)
open Lucis.Memory (sizeT sizeT_of_lt subT subT_of_le)

variable {T : Type}

/-- The cells behind `data`; a null `data` has none. -/
structure Queue (T : Type) where
  data : Block T
  head : Nat
  len : Nat
  cap : Nat

namespace Queue

inductive Stop where
  /-- `lucis_alloc` prints a message and calls `exit(1)`. -/
  | exits
  | faults
  deriving DecidableEq

/-- `sizeof(T)`, and which requests malloc serves. -/
structure Platform where
  sizeofT : Nat
  serves : Nat → Bool

section Source

/-- `a % b` on usize -/
def remainder (a b : Nat) : Except Stop Nat :=
  if b = 0 then .error .faults else .ok (a % b)

/-- The value of a cell, which is indeterminate (`none`) before it is written. -/
def fetch (data : Block T) (index : Nat) : Except Stop (Option T) :=
  if inside : index < data.length then .ok data[index] else .error .faults

def put (data : Block T) (index : Nat) (value : Option T) : Except Stop (Block T) :=
  if index < data.length then .ok (data.set index value) else .error .faults

def cellsIn (platform : Platform) (count : Nat) : Nat :=
  if platform.sizeofT = 0 then count
  else sizeT (count * platform.sizeofT) / platform.sizeofT

/-- `alloc(count * sizeof(T)) as *T` -/
def allocCells (platform : Platform) (count : Nat) : Except Stop (Block T) :=
  let bytes := sizeT (count * platform.sizeofT)
  if bytes = 0 ∨ platform.serves bytes then .ok (List.replicate (cellsIn platform count) none)
  else .error .exits

def new : Queue T := ⟨[], 0, 0, 0⟩

/-- What is left of `for usize i in 0..self.len`. -/
def copyFrom (q : Queue T) : Nat → Nat → Block T → Except Stop (Block T)
  | 0, _, newData => .ok newData
  | rounds + 1, i, newData => do
      let index ← remainder (sizeT (q.head + i)) q.cap
      let value ← fetch q.data index
      let newData ← put newData i value
      copyFrom q rounds (i + 1) newData

def grownCap (cap : Nat) : Nat := if cap = 0 then 4 else sizeT (cap * 2)

def grow (platform : Platform) (q : Queue T) : Except Stop (Queue T) := do
  let newData ← allocCells platform (grownCap q.cap)
  let newData ← copyFrom q q.len 0 newData
  return ⟨newData, 0, q.len, grownCap q.cap⟩

def enqueue (platform : Platform) (q : Queue T) (value : T) : Except Stop (Queue T) := do
  let q ← if q.cap ≤ q.len then grow platform q else .ok q
  let index ← remainder (sizeT (q.head + q.len)) q.cap
  let data ← put q.data index (some value)
  return ⟨data, q.head, sizeT (q.len + 1), q.cap⟩

def dequeue (q : Queue T) : Except Stop (Option T × Queue T) := do
  let val ← fetch q.data q.head
  let head ← remainder (sizeT (q.head + 1)) q.cap
  return (val, ⟨q.data, head, subT q.len 1, q.cap⟩)

def peek (q : Queue T) : Except Stop (Option T) := fetch q.data q.head

def clear (q : Queue T) : Queue T := { q with len := 0 }

end Source

inductive Call (T : Type) where
  | enqueue (value : T)
  | dequeue
  | peek
  | clear
  | grow

inductive Reply (T : Type) where
  | done
  | value (val : Option T)
  | stopped (stop : Stop)

def perform (platform : Platform) (q : Queue T) : Call T → Except Stop (Reply T × Queue T)
  | .enqueue value => (enqueue platform q value).map fun q => (.done, q)
  | .dequeue => (dequeue q).map fun (val, q) => (.value val, q)
  | .peek => (peek q).map fun val => (.value val, q)
  | .clear => .ok (.done, clear q)
  | .grow => (grow platform q).map fun q => (.done, q)

def step (platform : Platform) : Except Stop (Queue T) → Call T → Except Stop (Queue T) × Reply T
  | .error stop, _ => (.error stop, .stopped stop)
  | .ok q, call =>
    match perform platform q call with
    | .ok (reply, q) => (.ok q, reply)
    | .error stop => (.error stop, .stopped stop)

/-- The mathematical queue, and how many values there is room for. -/
structure Fifo (T : Type) where
  values : List T
  room : Nat

namespace Fifo

def doubled (room : Nat) : Nat := if room = 0 then 4 else room * 2

def Asks (fifo : Fifo T) : Call T → Prop
  | .enqueue _ => fifo.room ≤ fifo.values.length
  | .grow => True
  | _ => False

instance (fifo : Fifo T) : DecidablePred fifo.Asks
  | .enqueue _ => inferInstanceAs (Decidable (fifo.room ≤ fifo.values.length))
  | .grow => .isTrue trivial
  | .dequeue | .peek | .clear => .isFalse id

/-- malloc does not serve the request for a buffer of `count` elements. -/
def Denies (platform : Platform) (count : Nat) : Prop :=
  0 < count * platform.sizeofT ∧ platform.serves (count * platform.sizeofT) = false

instance (platform : Platform) : DecidablePred (Denies platform) :=
  fun _ => inferInstanceAs (Decidable (_ ∧ _))

def Refused (platform : Platform) (fifo : Fifo T) (call : Call T) : Prop :=
  fifo.Asks call ∧ Denies platform (doubled fifo.room)

instance (platform : Platform) (fifo : Fifo T) : DecidablePred (fifo.Refused platform) :=
  fun _ => inferInstanceAs (Decidable (_ ∧ _))

def after (fifo : Fifo T) (call : Call T) : Fifo T where
  values := match call with
    | .enqueue value => fifo.values ++ [value]
    | .dequeue => fifo.values.tail
    | .peek | .grow => fifo.values
    | .clear => []
  room := if fifo.Asks call then doubled fifo.room else fifo.room

end Fifo

def Answers (values : List T) (call : Call T) (reply : Reply T) : Prop :=
  match call with
  | .dequeue => reply = .value values.head?
  | .peek => values ≠ [] → reply = .value values.head?
  | _ => reply = .done

/-- A process has ended (`none`) from the first call on whose request is refused. -/
def fifo (platform : Platform) : Refinement.Spec (Call T) (Reply T) (Option (Fifo T)) where
  next
    | none, _ => none
    | some fifo, call => if fifo.Refused platform call then none else some (fifo.after call)
  answers
    | none, _, reply => reply = .stopped .exits
    | some fifo, call, reply =>
      (fifo.Refused platform call ∧ reply = .stopped .exits) ∨
        (¬fifo.Refused platform call ∧ Answers fifo.values call reply)

def CapacityFits (platform : Platform) (cap : Nat) : Prop :=
  Fifo.doubled cap < 2 ^ 64 ∧ Fifo.doubled cap * platform.sizeofT < 2 ^ 64

/-- The cells from the head on, round the buffer, are the values of the mathematical queue. -/
structure Refines (q : Queue T) (values : List T) : Prop where
  block : q.data.length = q.cap
  doubled : q.cap = 0 ∨ ∃ k, k ≤ 63 ∧ q.cap = 2 ^ k
  head_lt : 0 < q.cap → q.head < q.cap
  len_eq : q.len = values.length
  ring : Ring.Holds q.data q.head values

section Steps

variable {platform : Platform} {q : Queue T} {values : List T} {value : T}

theorem remainder_ok {a b : Nat} (pos : 0 < b) : remainder a b = .ok (a % b) :=
  if_neg (ne_of_gt pos)

theorem fetch_ok {data : Block T} {index : Nat} {value : Option T}
    (present : data[index]? = some value) : fetch data index = .ok value := by
  rcases List.getElem?_eq_some_iff.1 present with ⟨inside, same⟩
  rw [fetch, dif_pos inside, same]

theorem put_ok {data : Block T} {index : Nat} (inside : index < data.length) (value : Option T) :
    put data index value = .ok (data.set index value) := if_pos inside

variable (refines : Refines q values)
include refines

theorem Refines.len_le : q.len ≤ q.cap := by
  rw [refines.len_eq, ← refines.block]
  exact refines.ring.fits

theorem Refines.cap_le : q.cap ≤ 2 ^ 63 := by
  rcases refines.doubled with zero | ⟨k, small, power⟩
  · omega
  · rw [power]
    exact Nat.pow_le_pow_right (by decide) small

theorem Refines.place (pos : 0 < q.cap) {i : Nat} (le : i ≤ q.cap) :
    sizeT (q.head + i) = q.head + i := by
  have bound := refines.cap_le
  have head := refines.head_lt pos
  exact sizeT_of_lt (by omega)

omit refines in
theorem allocCells_fits {count : Nat} (fits : count * platform.sizeofT < 2 ^ 64) :
    (allocCells platform count : Except Stop (Block T)) =
      if Fifo.Denies platform count then .error .exits else .ok (List.replicate count none) := by
  have cells : cellsIn platform count = count := by
    unfold cellsIn
    split
    · rfl
    · next positive =>
        rw [sizeT_of_lt fits, Nat.mul_div_cancel _ (Nat.pos_of_ne_zero positive)]
  rw [allocCells, cells, sizeT_of_lt fits]
  by_cases empty : count * platform.sizeofT = 0
  · rw [if_pos (.inl empty), if_neg fun refused => refused.1.ne' empty]
  · have pos := Nat.pos_of_ne_zero empty
    by_cases served : platform.serves (count * platform.sizeofT) = true
    · rw [if_pos (.inr served), if_neg fun denied => by cases served.symm.trans denied.2]
    · rw [if_neg (not_or.2 ⟨empty, served⟩), if_pos ⟨pos, Bool.eq_false_iff.2 served⟩]

/-- After `i` rounds the new buffer begins with the first `i` values. -/
theorem copyFrom_ok {size : Nat} (room : values.length ≤ size) :
    ∀ rounds i, i + rounds = values.length →
      copyFrom q rounds i ((values.take i).map some ++ List.replicate (size - i) none) =
        .ok (values.map some ++ List.replicate (size - values.length) none) := by
  intro rounds
  induction rounds with
  | zero =>
    rintro i rfl
    rw [copyFrom, take_length]
  | succ rounds ih =>
    intro i total
    have inside : i < values.length := by omega
    have below : i < q.cap := by rw [← refines.len_eq] at inside; exact inside.trans_le refines.len_le
    have pos : 0 < q.cap := Nat.zero_lt_of_lt below
    have present := refines.ring.cell i inside
    rw [refines.block] at present
    have spare : List.replicate (size - i) (none : Option T) =
        none :: List.replicate (size - (i + 1)) none := by
      rw [← replicate_succ]
      congr 1
      omega
    have front : ((values.take i).map some).length = i := by
      rw [length_map, length_take, Nat.min_eq_left inside.le]
    have stored : put ((values.take i).map some ++ List.replicate (size - i) none) i
        (some values[i]) =
          .ok ((values.take (i + 1)).map some ++ List.replicate (size - (i + 1)) none) := by
      rw [put_ok (by rw [length_append, front, length_replicate]; omega), spare,
        set_append_right _ _ front.le, front, Nat.sub_self, set_cons_zero,
        take_add_one, getElem?_eq_getElem inside, map_append, append_assoc]
      rfl
    rw [copyFrom, refines.place pos below.le, remainder_ok pos]
    change (fetch q.data ((q.head + i) % q.cap) >>= _) = _
    rw [fetch_ok present]
    change (put _ i (some values[i]) >>= _) = _
    rw [stored]
    exact ih (i + 1) (by omega)

omit refines in
theorem grownCap_fits {cap : Nat} (fits : CapacityFits platform cap) :
    grownCap cap = Fifo.doubled cap := by
  have small := fits.1
  unfold grownCap
  unfold Fifo.doubled at small ⊢
  split
  · rfl
  · next positive =>
      rw [if_neg positive] at small
      exact sizeT_of_lt small

theorem grownCap_power (fits : CapacityFits platform q.cap) :
    ∃ k, k ≤ 63 ∧ grownCap q.cap = 2 ^ k := by
  have small := fits.1
  rw [grownCap_fits fits]
  unfold Fifo.doubled at small ⊢
  rcases refines.doubled with zero | ⟨k, le, power⟩
  · exact ⟨2, by decide, by rw [if_pos zero]; rfl⟩
  · have positive : q.cap ≠ 0 := power ▸ ne_of_gt (Nat.two_pow_pos k)
    rw [if_neg positive, power, ← pow_succ] at small
    rw [if_neg positive, power, ← pow_succ]
    exact ⟨k + 1, Nat.lt_succ_iff.1 ((Nat.pow_lt_pow_iff_right (by decide)).1 small), rfl⟩

theorem grow_refines (fits : CapacityFits platform q.cap) :
    (Fifo.Denies platform (Fifo.doubled q.cap) ∧ grow platform q = .error .exits) ∨
      (¬Fifo.Denies platform (Fifo.doubled q.cap) ∧ ∃ q', grow platform q = .ok q' ∧
        Refines q' values ∧ q'.len < q'.cap ∧ q'.cap = Fifo.doubled q.cap) := by
  have grown := grownCap_fits fits
  have bytes := fits.2
  rw [← grown] at bytes ⊢
  have below : q.len < grownCap q.cap := by
    have le := refines.len_le
    rw [grown, Fifo.doubled]
    split <;> omega
  have asked := allocCells_fits (T := T) bytes
  by_cases denied : Fifo.Denies platform (grownCap q.cap)
  · exact .inl ⟨denied, by rw [grow, asked, if_pos denied]; rfl⟩
  · right
    have room : values.length ≤ grownCap q.cap := refines.len_eq ▸ below.le
    have copied := copyFrom_ok refines room q.len 0 (by rw [zero_add, refines.len_eq])
    rw [take_zero, map_nil, nil_append, Nat.sub_zero] at copied
    have sized : (values.map some ++
        List.replicate (grownCap q.cap - values.length) (none : Option T)).length =
          grownCap q.cap := by
      rw [length_append, length_map, length_replicate]
      omega
    have after : grow platform q = .ok ⟨values.map some ++
        List.replicate (grownCap q.cap - values.length) none, 0, q.len, grownCap q.cap⟩ := by
      rw [grow, asked, if_neg denied]
      change (copyFrom q q.len 0 _ >>= _) = _
      rw [copied]
      rfl
    exact ⟨denied, _, after, ⟨sized, .inr (grownCap_power refines fits), id, refines.len_eq,
      Ring.holds_straight values _⟩, below, rfl⟩

theorem put_refines (room : q.len < q.cap) (value : T) :
    ∃ data, put q.data ((q.head + q.len) % q.cap) (some value) = .ok data ∧
      Refines ⟨data, q.head, sizeT (q.len + 1), q.cap⟩ (values ++ [value]) := by
  have pos : 0 < q.cap := Nat.zero_lt_of_lt room
  have pushed := refines.ring.push (by rwa [refines.block, ← refines.len_eq]) value
  rw [refines.block, ← refines.len_eq] at pushed
  have small : q.len + 1 < 2 ^ 64 :=
    lt_of_le_of_lt (room.trans_le refines.cap_le) (by decide)
  have inside : (q.head + q.len) % q.cap < q.data.length := by
    rw [refines.block]
    exact Nat.mod_lt _ pos
  refine ⟨_, put_ok inside _, ?_, refines.doubled, refines.head_lt, ?_, pushed⟩
  · rw [length_set, refines.block]
  · rw [sizeT_of_lt small, length_append, length_singleton, refines.len_eq]

theorem enqueue_refines (fits : q.cap ≤ q.len → CapacityFits platform q.cap) (value : T) :
    ((q.cap ≤ q.len ∧ Fifo.Denies platform (Fifo.doubled q.cap)) ∧
        enqueue platform q value = .error .exits) ∨
      (¬(q.cap ≤ q.len ∧ Fifo.Denies platform (Fifo.doubled q.cap)) ∧
        ∃ q', enqueue platform q value = .ok q' ∧ Refines q' (values ++ [value]) ∧
          q'.cap = if q.cap ≤ q.len then Fifo.doubled q.cap else q.cap) := by
  have roomy {q : Queue T} (refines : Refines q values) (room : q.len < q.cap) :
      ∃ q', (do
        let index ← remainder (sizeT (q.head + q.len)) q.cap
        let data ← put q.data index (some value)
        return (⟨data, q.head, sizeT (q.len + 1), q.cap⟩ : Queue T)) = .ok q' ∧
          Refines q' (values ++ [value]) ∧ q'.cap = q.cap := by
    rcases put_refines refines room value with ⟨data, stored, after⟩
    have pos : 0 < q.cap := Nat.zero_lt_of_lt room
    refine ⟨_, ?_, after, rfl⟩
    rw [refines.place pos refines.len_le, remainder_ok pos]
    change (put _ _ _ >>= _) = _
    rw [stored]
    rfl
  -- only a full queue asks for memory, and behind the growth there is room
  by_cases full : q.cap ≤ q.len
  · rcases grow_refines refines (fits full) with
      ⟨denied, stopped⟩ | ⟨served, grown, done, kept, room, cap⟩
    · exact .inl ⟨⟨full, denied⟩, by rw [enqueue, if_pos full, stopped]; rfl⟩
    · rcases roomy kept room with ⟨q', stored, after, same⟩
      refine .inr ⟨fun refused => served refused.2, q', ?_, after, ?_⟩
      · rw [enqueue, if_pos full, done]
        exact stored
      · rw [if_pos full, same, cap]
  · rcases roomy refines (Nat.not_le.1 full) with ⟨q', stored, after, same⟩
    refine .inr ⟨fun refused => full refused.1, q', ?_, after, ?_⟩
    · rw [enqueue, if_neg full]
      exact stored
    · rw [if_neg full, same]

omit refines in
theorem dequeue_refines (refines : Refines q (value :: values)) :
    ∃ q', dequeue q = .ok (some value, q') ∧ Refines q' values ∧ q'.cap = q.cap := by
  have pos : 0 < q.cap := by
    rw [← refines.block]
    exact (Nat.zero_lt_succ _).trans_le refines.ring.fits
  have head := refines.head_lt pos
  have popped := refines.ring.pop
  rw [refines.block] at popped
  refine ⟨⟨q.data, (q.head + 1) % q.cap, subT q.len 1, q.cap⟩, ?_, ⟨refines.block,
    refines.doubled, fun pos => Nat.mod_lt _ pos, ?_, popped⟩, rfl⟩
  · rw [dequeue, fetch_ok (refines.ring.front (refines.block ▸ head))]
    change (remainder _ q.cap >>= _) = _
    rw [refines.place pos pos, remainder_ok pos]
    rfl
  · change subT q.len 1 = values.length
    rw [refines.len_eq, length_cons, subT_of_le (Nat.le_add_left 1 _)]
    rfl

theorem peek_refines (pos : 0 < q.cap) :
    ∃ val, peek q = .ok val ∧ (values ≠ [] → val = values.head?) := by
  have inside : q.head < q.data.length := refines.block ▸ refines.head_lt pos
  refine ⟨_, dif_pos inside, fun nonempty => ?_⟩
  rcases exists_cons_of_ne_nil nonempty with ⟨value, rest, rfl⟩
  have front := refines.ring.front inside
  rw [getElem?_eq_getElem inside] at front
  exact Option.some.inj front

end Steps

/-- `dequeue` on non-empty queues, and no capacity that overflows; `peek` where `peekable`. -/
def Allowed (platform : Platform) (peekable : Queue T → Prop) :
    Except Stop (Queue T) → Call T → Prop
  | .error _, _ => True
  | .ok q, .enqueue _ => q.cap ≤ q.len → CapacityFits platform q.cap
  | .ok q, .dequeue => 0 < q.len
  | .ok q, .peek => peekable q
  | .ok _, .clear => True
  | .ok q, .grow => CapacityFits platform q.cap

instance (platform : Platform) (cap : Nat) : Decidable (CapacityFits platform cap) :=
  inferInstanceAs (Decidable (_ ∧ _))

instance (platform : Platform) (peekable : Queue T → Prop) [DecidablePred peekable] :
    ∀ machine call, Decidable (Allowed platform peekable machine call)
  | .error _, _ => .isTrue trivial
  | .ok q, .enqueue _ => inferInstanceAs (Decidable (q.cap ≤ q.len → CapacityFits platform q.cap))
  | .ok q, .dequeue => inferInstanceAs (Decidable (0 < q.len))
  | .ok q, .peek => inferInstanceAs (Decidable (peekable q))
  | .ok _, .clear => .isTrue trivial
  | .ok q, .grow => inferInstanceAs (Decidable (CapacityFits platform q.cap))

/-- The process runs just as long as the mathematical one does. -/
def Stores : Except Stop (Queue T) → Option (Fifo T) → Prop
  | .ok q, some fifo => Refines q fifo.values ∧ q.cap = fifo.room
  | .error stop, none => stop = .exits
  | _, _ => False

variable {platform : Platform}

theorem new_refines : Refines (new : Queue T) [] :=
  ⟨rfl, .inl rfl, fun pos => absurd pos (lt_irrefl 0), rfl, Ring.holds_nil _ _⟩

theorem perform_refines {q : Queue T} {f : Fifo T} {call : Call T} (refines : Refines q f.values)
    (cap : q.cap = f.room) (allowed : Allowed platform (fun q => 0 < q.cap) (.ok q) call) :
    (f.Refused platform call ∧ perform platform q call = .error .exits) ∨
      (¬f.Refused platform call ∧ ∃ reply q', perform platform q call = .ok (reply, q') ∧
        Answers f.values call reply ∧ Refines q' (f.after call).values ∧
          q'.cap = (f.after call).room) := by
  rcases f with ⟨values, room⟩
  obtain rfl : q.cap = room := cap
  cases call with
  | enqueue value =>
    have added := enqueue_refines refines allowed value
    rw [refines.len_eq] at added
    rcases added with ⟨refused, stopped⟩ | ⟨served, q', done, after, cap⟩
    · exact .inl ⟨refused, by rw [perform, stopped]; rfl⟩
    · exact .inr ⟨served, .done, q', by rw [perform, done]; rfl, rfl, after, cap⟩
  | dequeue =>
    have nonempty : 0 < values.length := refines.len_eq ▸ allowed
    rcases exists_cons_of_length_pos nonempty with ⟨value, rest, rfl⟩
    rcases dequeue_refines refines with ⟨q', done, after, cap⟩
    exact .inr ⟨And.left, .value (some value), q', by rw [perform, done]; rfl, rfl, after, cap⟩
  | peek =>
    rcases peek_refines refines allowed with ⟨val, done, front⟩
    exact .inr ⟨And.left, .value val, q, by rw [perform, done]; rfl,
      fun nonempty => congrArg Reply.value (front nonempty), refines, rfl⟩
  | clear => exact .inr ⟨And.left, .done, clear q, rfl, rfl,
      ⟨refines.block, refines.doubled, refines.head_lt, rfl, Ring.holds_nil _ _⟩, rfl⟩
  | grow =>
    rcases grow_refines refines allowed with ⟨denied, stopped⟩ | ⟨served, q', done, after, _, cap⟩
    · exact .inl ⟨⟨trivial, denied⟩, by rw [perform, stopped]; rfl⟩
    · exact .inr ⟨fun refused => served refused.2, .done, q', by rw [perform, done]; rfl, rfl,
        after, cap⟩

theorem step_simulates :
    Refinement.Simulation (fifo platform) (step platform) (Allowed platform fun q => 0 < q.cap)
      (Stores (T := T)) := by
  rintro (stop | q) (_ | f) call stored allowed
  · obtain rfl : stop = .exits := stored
    exact ⟨rfl, rfl⟩
  · exact absurd stored id
  · exact absurd stored id
  · rcases perform_refines stored.1 stored.2 allowed with
      ⟨refused, stopped⟩ | ⟨served, reply, q', done, answers, after⟩
    · rw [step, stopped]
      refine ⟨.inl ⟨refused, rfl⟩, ?_⟩
      change Stores (.error .exits) (if f.Refused platform call then none else _)
      rw [if_pos refused]
      rfl
    · rw [step, done]
      refine ⟨.inr ⟨served, answers⟩, ?_⟩
      change Stores (.ok q') (if f.Refused platform call then none else some (f.after call))
      rw [if_neg served]
      exact after

/-- A run in which `peek` is called on queues with a buffer is one of the mathematical queue,
and so is each state that it reaches. -/
theorem queue_runs_refine (platform : Platform) (calls : List (Call T))
    (allowed : Refinement.Guarded (Allowed platform fun q => 0 < q.cap) (step platform) (.ok new)
      calls) :
    Refinement.Agrees (fifo platform) (step platform) (.ok new) (some ⟨[], 0⟩) calls ∧
      ∀ front, front <+: calls →
        Stores (Refinement.run (step platform) (.ok new) front)
          (front.foldl (fifo platform).next (some ⟨[], 0⟩)) := by
  refine ⟨Refinement.agrees_of_simulation step_simulates calls _ _ ⟨new_refines, rfl⟩ allowed, ?_⟩
  intro front begins
  exact Refinement.related_of_simulation step_simulates front _ _ ⟨new_refines, rfl⟩
    (Refinement.guarded_prefix allowed begins)

/-- Four elements fill the first buffer, one leaves, the next one goes where it was, and malloc
refuses the buffer for eight. -/
theorem queue_runs_refine_wrapped :
    let platform : Platform := ⟨8, fun bytes => bytes < 64⟩
    let calls : List (Call Nat) := [.enqueue 1, .enqueue 2, .enqueue 3, .enqueue 4, .dequeue,
      .enqueue 5, .peek, .enqueue 6, .clear]
    Refinement.Agrees (fifo platform) (step platform) (.ok new) (some ⟨[], 0⟩) calls ∧
      ∀ front, front <+: calls →
        Stores (Refinement.run (step platform) (.ok new) front)
          (front.foldl (fifo platform).next (some ⟨[], 0⟩)) :=
  queue_runs_refine _ _ (by decide)

/-- Without a buffer `peek` reads the cell at index zero. -/
theorem peek_new_faults :
    ¬∀ (platform : Platform) (calls : List (Call Nat)),
      Refinement.Guarded (Allowed platform fun _ => True) (step platform) (.ok new) calls →
        Stores (Refinement.run (step platform) (.ok new) calls)
          (calls.foldl (fifo platform).next (some ⟨[], 0⟩)) := by
  intro stores
  exact stores ⟨8, fun _ => true⟩ [.peek] ⟨trivial, trivial⟩

end Queue

end Lucis
