import Mathlib.Data.List.Basic

/-!
The pool of exception frames of builtins/error/error.c. A frame is told apart by its storage: a
slot of the pool, or a block that calloc has given.
-/

namespace Lucis.ErrorFrames

open List

inductive Frame where
  | pool (index : Int)
  | heap (block : Nat)
  | null
  deriving DecidableEq

section Model

def ehPoolSize : Int := 16

/-- What `lucis_eh_alloc` returns and leaves in `eh_pool_used`, where calloc would give `answer`. -/
def lucisEhAlloc (answer : Option Nat) (used : Int) : Frame × Int :=
  if used < ehPoolSize then (.pool used, used + 1)
  else
    match answer with
    | some block => (.heap block, used)
    | none => (.null, used)

/-- `lucis_eh_free`, which does not look at the slot it is given. -/
def lucisEhFree (frame : Frame) (used : Int) : Int :=
  match frame with
  | .pool index => if 0 ≤ index ∧ index < ehPoolSize then used - 1 else used
  | .heap _ => used
  | .null => used

/-- The counter, the frames that were handed out and may yet be freed, the youngest first, and
those that are never freed because an older one was. -/
structure World where
  used : Int
  frames : List Frame
  abandoned : List Frame
  deriving DecidableEq

def World.live (w : World) : List Frame := w.frames ++ w.abandoned

inductive Call where
  | alloc (answer : Option Nat)
  /-- of the frame that has so many younger ones -/
  | free (younger : Nat)

def step (w : World) : Call → Option World
  | .alloc answer =>
    if ∀ block ∈ answer, Frame.heap block ∉ w.live then
      let given := lucisEhAlloc answer w.used
      some ⟨given.2, given.1 :: w.frames, w.abandoned⟩
    else none
  | .free younger =>
    match w.frames.drop younger with
    | [] => none
    | frame :: older =>
      some ⟨lucisEhFree frame w.used, older, w.frames.take younger ++ w.abandoned⟩

def start : World := ⟨0, [], []⟩

variable {used : Int}

theorem alloc_room (room : used < ehPoolSize) (answer : Option Nat) :
    lucisEhAlloc answer used = (.pool used, used + 1) := if_pos room

theorem alloc_full (full : ¬ used < ehPoolSize) (answer : Option Nat) :
    lucisEhAlloc answer used = ((answer.map Frame.heap).getD .null, used) := by
  rw [lucisEhAlloc.eq_def, if_neg full]
  cases answer <;> rfl

end Model

/-- The counter is in its range, and a frame handed out now is none that is still live. -/
structure Sound (w : World) : Prop where
  counter : 0 ≤ w.used ∧ w.used ≤ ehPoolSize
  apart : ∀ answer : Option Nat, (∀ block ∈ answer, Frame.heap block ∉ w.live) →
    (lucisEhAlloc answer w.used).1 ≠ .null → (lucisEhAlloc answer w.used).1 ∉ w.live

def Frame.isPool : Frame → Bool
  | .pool _ => true
  | _ => false

/-- Where a frame of the pool is freed, every younger one of the pool was freed before. -/
def Nested (w : World) (younger : Nat) : Prop :=
  ∀ index, w.frames[younger]? = some (.pool index) →
    ∀ frame ∈ w.frames.take younger, frame.isPool = false

section Invariant

def slots : Nat → List Frame
  | 0 => []
  | n + 1 => .pool n :: slots n

theorem mem_slots {n : Nat} {frame : Frame} :
    frame ∈ slots n ↔ ∃ index : Nat, index < n ∧ frame = .pool index := by
  induction n with
  | zero => simp [slots]
  | succ n ih =>
    rw [slots, mem_cons, ih]
    constructor
    · rintro (rfl | ⟨index, below, rfl⟩)
      · exact ⟨n, Nat.lt_succ_self n, rfl⟩
      · exact ⟨index, Nat.lt_succ_of_lt below, rfl⟩
    · rintro ⟨index, below, rfl⟩
      rcases Nat.lt_succ_iff_lt_or_eq.1 below with below | rfl
      · exact .inr ⟨index, below, rfl⟩
      · exact .inl rfl

structure Stacked (w : World) (front : List Frame) (n : Nat) : Prop where
  used : w.used = n
  few : n ≤ 16
  frames : w.frames = front ++ slots n
  outside : ∀ frame ∈ front ++ w.abandoned, frame.isPool = false
  full : front ≠ [] → n = 16

variable {w w' : World} {front : List Frame} {n : Nat}

variable (stacked : Stacked w front n)
include stacked

theorem Stacked.sound : Sound w := by
  have used := stacked.used
  have few := stacked.few
  refine ⟨by rw [ehPoolSize]; omega, ?_⟩
  intro answer given nonnull
  by_cases room : w.used < ehPoolSize
  · rw [alloc_room room, World.live, stacked.frames, append_assoc]
    intro member
    rcases mem_append.1 member with outside | member
    · exact absurd (stacked.outside _ (mem_append_left _ outside)) (by simp [Frame.isPool])
    · rcases mem_append.1 member with slot | outside
      · rcases mem_slots.1 slot with ⟨index, below, same⟩
        have same := Frame.pool.inj same
        omega
      · exact absurd (stacked.outside _ (mem_append_right _ outside)) (by simp [Frame.isPool])
  · rw [alloc_full room] at nonnull ⊢
    cases answer with
    | none => exact absurd rfl nonnull
    | some block => exact given block rfl

theorem Stacked.alloc {answer : Option Nat}
    (stepped : step w (.alloc answer) = some w') : ∃ front' n', Stacked w' front' n' := by
  have used := stacked.used
  have few := stacked.few
  rw [step] at stepped
  split at stepped
  next =>
    cases stepped
    by_cases room : w.used < ehPoolSize
    · rw [alloc_room room]
      rw [ehPoolSize] at room
      have empty : front = [] := by
        by_contra nonempty
        have := stacked.full nonempty
        omega
      subst empty
      refine ⟨[], n + 1, by simp [used], by omega, ?_, stacked.outside, fun contrary => ?_⟩
      · rw [stacked.frames, used]
        rfl
      · exact absurd rfl contrary
    · rw [alloc_full room]
      have full : n = 16 := by
        rw [ehPoolSize] at room
        omega
      have outside : ((answer.map Frame.heap).getD .null).isPool = false := by
        cases answer <;> rfl
      exact ⟨(answer.map Frame.heap).getD .null :: front, n, used, few, by simp [stacked.frames],
        forall_mem_cons.2 ⟨outside, stacked.outside⟩, fun _ => full⟩
  next => cases stepped

theorem Stacked.freed {younger : Nat} (stepped : step w (.free younger) = some w') :
    (∃ frame older, front = front.take younger ++ frame :: older ∧ frame.isPool = false ∧
      w' = ⟨w.used, older ++ slots n, front.take younger ++ w.abandoned⟩) ∨
    ∃ m index, n = m + 1 ∧ w.frames[younger]? = some (.pool index) ∧ w'.used = m ∧
      ((younger = front.length ∧ w' = ⟨m, slots m, front ++ w.abandoned⟩) ∨
        .pool m ∈ w.frames.take younger ∧ .pool m ∈ w'.live) := by
  rw [step] at stepped
  split at stepped
  next => cases stepped
  next frame older rest =>
    cases stepped
    rw [stacked.frames] at rest ⊢
    by_cases inFront : younger < front.length
    · left
      rw [drop_append_of_le_length (by omega)] at rest
      cases dropped : front.drop younger with
      | nil =>
        have short := drop_eq_nil_iff.1 dropped
        omega
      | cons first later =>
        rw [dropped, cons_append] at rest
        cases rest
        have split := take_append_drop younger front
        rw [dropped] at split
        have heap : frame.isPool = false := by
          apply stacked.outside
          rw [← split]
          simp
        refine ⟨frame, later, split.symm, heap, ?_⟩
        rw [take_append_of_le_length (by omega)]
        cases frame with
        | pool index => cases heap
        | heap block => rfl
        | null => rfl
    · right
      have behind : front.length ≤ younger := by omega
      rw [drop_append, drop_eq_nil_of_le behind, nil_append] at rest
      have listed : frame ∈ slots n :=
        mem_of_mem_drop (rest ▸ mem_cons_self)
      rcases mem_slots.1 listed with ⟨index, below, rfl⟩
      obtain ⟨m, rfl⟩ : ∃ m, n = m + 1 := ⟨n - 1, by omega⟩
      have few := stacked.few
      have used : lucisEhFree (.pool index) w.used = m := by
        rw [lucisEhFree, if_pos (by rw [ehPoolSize]; omega), stacked.used]
        omega
      refine ⟨m, index, rfl, ?_, used, ?_⟩
      · rw [getElem?_append_right behind, ← head?_drop, rest]
        rfl
      · rcases Nat.eq_or_lt_of_le behind with rfl | later
        · left
          rw [Nat.sub_self, drop_zero, slots] at rest
          cases rest
          rw [used, take_left]
          exact ⟨rfl, rfl⟩
        · right
          have inside : Frame.pool m ∈ (front ++ slots (m + 1)).take younger := by
            rw [take_append]
            apply mem_append_right
            obtain ⟨k, more⟩ : ∃ k, younger - front.length = k + 1 :=
              ⟨younger - front.length - 1, by omega⟩
            rw [more, slots, take_succ_cons]
            exact .head _
          exact ⟨inside, mem_append_right _ (mem_append_left _ inside)⟩

theorem Stacked.free {younger : Nat} (nested : Nested w younger)
    (stepped : step w (.free younger) = some w') : ∃ front' n', Stacked w' front' n' := by
  rcases stacked.freed stepped with ⟨frame, older, split, _, rfl⟩ |
    ⟨m, index, rfl, freed, used, ⟨_, rfl⟩ | ⟨inside, _⟩⟩
  · refine ⟨older, n, stacked.used, stacked.few, rfl, ?_, fun _ => stacked.full ?_⟩
    · intro other member
      apply stacked.outside
      rw [split]
      simp only [mem_append, mem_cons] at member ⊢
      tauto
    · rw [split]
      simp
  · have few := stacked.few
    exact ⟨[], m, rfl, by omega, rfl, stacked.outside, fun contrary => absurd rfl contrary⟩
  · exact absurd (nested index freed _ inside) (by simp [Frame.isPool])

theorem Stacked.not_sound {younger : Nat}
    (unnested : ¬ Nested w younger) (stepped : step w (.free younger) = some w') : ¬ Sound w' := by
  intro sound
  apply unnested
  have few := stacked.few
  rcases stacked.freed stepped with ⟨frame, older, split, heap, rfl⟩ |
    ⟨m, index, rfl, _, used, ⟨last, rfl⟩ | ⟨_, live⟩⟩
  · intro index freed
    have place : w.frames[younger]? = some frame := by
      have long : younger ≤ front.length := by
        have sizes := congrArg List.length split
        simp at sizes
        omega
      rw [stacked.frames, split]
      simp [length_take, Nat.min_eq_left long]
    rw [freed] at place
    cases place
    cases heap
  · intro _ _ frame member
    rw [stacked.frames, last, take_left] at member
    exact stacked.outside _ (mem_append_left _ member)
  · have room : (m : Int) < ehPoolSize := by rw [ehPoolSize]; omega
    have handed := sound.apart none (by simp)
    rw [lucisEhAlloc, used, if_pos room] at handed
    exact absurd live (handed (by simp))

end Invariant

section Runs

def SoundAlong : World → List Call → Prop
  | w, [] => Sound w
  | w, call :: rest => Sound w ∧ ∀ after, step w call = some after → SoundAlong after rest

def NestedAlong : World → List Call → Prop
  | _, [] => True
  | w, call :: rest => ∀ after, step w call = some after →
    (∀ younger, call = .free younger → Nested w younger) ∧ NestedAlong after rest

variable {w : World} {front : List Frame} {n : Nat}

theorem SoundAlong.now {calls : List Call} (along : SoundAlong w calls) : Sound w := by
  cases calls with
  | nil => exact along
  | cons call rest => exact along.1

theorem Stacked.along (stacked : Stacked w front n) (calls : List Call) :
    SoundAlong w calls ↔ NestedAlong w calls := by
  induction calls generalizing w front n with
  | nil => exact iff_of_true stacked.sound trivial
  | cons call rest ih =>
    rw [SoundAlong, NestedAlong, and_iff_right stacked.sound]
    refine forall_congr' fun after => forall_congr' fun stepped => ?_
    cases call with
    | alloc answer =>
      have ⟨_, _, stacked'⟩ := stacked.alloc stepped
      rw [ih stacked']
      exact (and_iff_right fun _ contrary => by cases contrary).symm
    | free younger =>
      have freed : (∀ other, Call.free younger = .free other → Nested w other) ↔
          Nested w younger :=
        ⟨fun all => all younger rfl, fun nested _ same => Call.free.inj same ▸ nested⟩
      rw [freed]
      by_cases nested : Nested w younger
      · have ⟨_, _, stacked'⟩ := stacked.free nested stepped
        rw [ih stacked', and_iff_right nested]
      · exact iff_of_false (fun along => stacked.not_sound nested stepped along.now)
          fun both => nested both.1

/-- Every frame handed out is apart from the live ones, and the counter in its range, just when
no frame of the pool is freed before a younger one. -/
theorem frames_apart_iff (calls : List Call) :
    SoundAlong start calls ↔ NestedAlong start calls := by
  have stacked : Stacked start [] 0 :=
    ⟨rfl, by omega, rfl, by simp [start], fun contrary => absurd rfl contrary⟩
  exact stacked.along calls

/-- Of two frames the younger one is never freed: its slot is handed out again. -/
theorem live_slot_handed_out : ¬ SoundAlong start [.alloc none, .alloc none, .free 1] := by
  intro along
  have sound := (((along.2 _ rfl).2 _ rfl).2 _ rfl).apart none (by simp) (by decide)
  exact sound (by decide)

end Runs

end Lucis.ErrorFrames
