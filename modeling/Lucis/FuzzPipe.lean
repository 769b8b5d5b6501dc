import Mathlib.Data.List.Basic
import Mathlib.Logic.Relation

/-!
One execution of `runOne` in fuzz/fuzz_runner.c as two processes and the pipe
between them. The child writes its output and exits, or dies of a signal, its
own or the alarm of the interval timer. The parent reaps the child first and
reads the pipe afterwards. The pipe is a FIFO of `cap` bytes; one write or read
moves any chunk that fits. What the target computes is its output, in bytes,
stdio buffers included.
-/

namespace Lucis.FuzzPipe

open List

inductive ParentPhase where
  | waiting
  | draining
  | closed
  deriving DecidableEq

inductive ChildPhase where
  | running
  | exited
  | killed (sig : Nat)
  deriving DecidableEq

def sigAlrm : Nat := 14

/-- `char buf[4096]`, the most one `read` of the parent returns. -/
def readSize : Nat := 4096

structure Exec where
  parent : ParentPhase
  child : ChildPhase
  /-- what the child has still to write -/
  pending : List UInt8
  pipe : List UInt8
  /-- `out->output` -/
  output : List UInt8
  deriving DecidableEq

def start (text : List UInt8) : Exec :=
  ⟨.waiting, .running, text, [], []⟩

inductive Step (cap timeoutMs : Nat) : Exec → Exec → Prop where
  | write (s : Exec) (chunk rest : List UInt8) (running : s.child = .running)
      (next : s.pending = chunk ++ rest) (some_bytes : chunk ≠ [])
      (room : s.pipe.length + chunk.length ≤ cap) :
      Step cap timeoutMs s { s with pending := rest, pipe := s.pipe ++ chunk }
  | exit (s : Exec) (running : s.child = .running) (written : s.pending = []) :
      Step cap timeoutMs s { s with child := .exited }
  | crash (s : Exec) (sig : Nat) (running : s.child = .running) (own : sig ≠ sigAlrm) :
      Step cap timeoutMs s { s with child := .killed sig }
  | alarm (s : Exec) (running : s.child = .running) (armed : 0 < timeoutMs) :
      Step cap timeoutMs s { s with child := .killed sigAlrm }
  | reap (s : Exec) (waiting : s.parent = .waiting) (dead : s.child ≠ .running) :
      Step cap timeoutMs s { s with parent := .draining }
  | read (s : Exec) (chunk rest : List UInt8) (draining : s.parent = .draining)
      (front : s.pipe = chunk ++ rest) (some_bytes : chunk ≠ [])
      (fits : chunk.length ≤ readSize) :
      Step cap timeoutMs s { s with pipe := rest, output := s.output ++ chunk }
  | close (s : Exec) (draining : s.parent = .draining) (drained : s.pipe = []) :
      Step cap timeoutMs s { s with parent := .closed }

def Reachable (cap timeoutMs : Nat) (text : List UInt8) (s : Exec) : Prop :=
  Relation.ReflTransGen (Step cap timeoutMs) (start text) s

/-- The child has bytes to write and no room for them while the parent sits in `waitpid`. -/
def Blocked (cap : Nat) (s : Exec) : Prop :=
  s.parent = .waiting ∧ s.child = .running ∧ s.pending ≠ [] ∧ s.pipe.length = cap

structure Flow (text : List UInt8) (s : Exec) : Prop where
  bytes : s.output ++ s.pipe ++ s.pending = text
  unread : s.parent = .waiting → s.output = []
  drained : s.parent = .closed → s.pipe = []
  dead : s.parent ≠ .waiting → s.child ≠ .running
  written : s.child = .exited → s.pending = []

section Flow

variable {cap timeoutMs : Nat} {text : List UInt8} {s t : Exec}

theorem flow_start (text : List UInt8) : Flow text (start text) where
  bytes := rfl
  unread := fun _ => rfl
  drained := by simp [start]
  dead := by simp [start]
  written := by simp [start]

theorem flow_step (flow : Flow text s) (step : Step cap timeoutMs s t) : Flow text t := by
  cases step with
  | write chunk rest running next _ _ =>
    have waiting : s.parent = .waiting := by
      by_contra moved
      exact flow.dead moved running
    constructor
    · have bytes := flow.bytes
      rw [next] at bytes
      simpa using bytes
    · exact flow.unread
    · intro closed
      rw [waiting] at closed
      cases closed
    · exact flow.dead
    · intro exited
      rw [running] at exited
      cases exited
  | exit running written =>
    constructor
    · exact flow.bytes
    · exact flow.unread
    · exact flow.drained
    · intro _ running'
      cases running'
    · exact fun _ => written
  | crash sig running own =>
    constructor
    · exact flow.bytes
    · exact flow.unread
    · exact flow.drained
    · intro _ running'
      cases running'
    · intro exited
      cases exited
  | alarm running armed =>
    constructor
    · exact flow.bytes
    · exact flow.unread
    · exact flow.drained
    · intro _ running'
      cases running'
    · intro exited
      cases exited
  | reap waiting dead =>
    constructor
    · exact flow.bytes
    · intro still
      cases still
    · intro closed
      cases closed
    · exact fun _ => dead
    · exact flow.written
  | read chunk rest draining front _ _ =>
    constructor
    · have bytes := flow.bytes
      rw [front] at bytes
      simpa using bytes
    · intro waiting
      rw [draining] at waiting
      cases waiting
    · intro closed
      rw [draining] at closed
      cases closed
    · exact flow.dead
    · exact flow.written
  | close draining drained =>
    constructor
    · exact flow.bytes
    · intro waiting
      cases waiting
    · exact fun _ => drained
    · intro _
      apply flow.dead
      rw [draining]
      simp
    · exact flow.written

theorem flow_reachable (reach : Reachable cap timeoutMs text s) : Flow text s := by
  induction reach with
  | refl => exact flow_start text
  | tail _ step ih => exact flow_step ih step

theorem fills (cap timeoutMs : Nat) (front rest : List UInt8) (fits : front.length ≤ cap) :
    Reachable cap timeoutMs (front ++ rest) ⟨.waiting, .running, rest, front, []⟩ := by
  rcases front with - | ⟨byte, front⟩
  · exact .refl
  · apply Relation.ReflTransGen.single
    exact Step.write (start (byte :: front ++ rest)) (byte :: front) rest rfl rfl (by simp)
      (by simpa [start] using fits)

theorem fills_blocked (cap timeoutMs : Nat) (text : List UInt8) (large : cap < text.length) :
    ∃ s, Reachable cap timeoutMs text s ∧ Blocked cap s := by
  have filled := fills cap timeoutMs (text.take cap) (text.drop cap)
    (by rw [length_take]; omega)
  rw [take_append_drop] at filled
  refine ⟨_, filled, rfl, rfl, ?_, ?_⟩
  · intro none_left
    have short := congrArg List.length none_left
    rw [length_drop, length_nil] at short
    omega
  · rw [length_take]
    omega

/-- No reachable state has the child blocked exactly when its whole output fits the pipe. -/
theorem never_blocked_iff (cap timeoutMs : Nat) (text : List UInt8) :
    (∀ s, Reachable cap timeoutMs text s → ¬ Blocked cap s) ↔ text.length ≤ cap := by
  constructor
  · intro never
    by_contra large
    rcases fills_blocked cap timeoutMs text (by omega) with ⟨s, reach, blocked⟩
    exact never s reach blocked
  · rintro fits s reach ⟨waiting, _, more, full⟩
    have flow := flow_reachable reach
    have bytes := congrArg List.length flow.bytes
    rw [flow.unread waiting, nil_append, length_append, full] at bytes
    have some_left := length_pos_iff.mpr more
    omega

/-- The pipe capacity of Linux and a target that prints one byte more. -/
theorem large_output_blocks :
    ¬ ∀ text s, Reachable 65536 1000 text s → ¬ Blocked 65536 s := by
  intro never
  rcases fills_blocked 65536 1000 (List.replicate 65537 65) (by rw [length_replicate]; omega)
    with ⟨s, reach, blocked⟩
  exact never _ s reach blocked

end Flow

end Lucis.FuzzPipe
