import Lucis.Library.ByteInput
import Lucis.Memory
import Mathlib.Data.List.TakeWhile

/-!
The functions of the runtime that read a whole stream into a block that grows: `lucis_system` of
log/log.c, `lucis_execOutput` of process/process.c and `lucis_readAll` of io/io.c. `cap` is the
size of the block and `len` how much of it is written. A store outside a block is a fault (`none`).
-/

namespace Lucis.CapturedOutput

open ByteInput List Option
open Memory

/-- Whether a call's request is served, by its number in the call and its size; no object is larger
than PTRDIFF_MAX. -/
structure Heap where
  serves : Nat → Nat → Bool
  bounded : ∀ n size, serves n size = true → size < 2 ^ 63

structure Reply where
  bytes : List UInt8
  len : Nat
  refused : Bool

section Model

/-- `"", 0` or `NULL, 0` -/
def nothing (refused : Bool) : Reply := ⟨[], 0, refused⟩

theorem take_within (written : List UInt8) (size : Nat) : (written.take size).length ≤ size :=
  length_take_le size written

def regrown (buf : OutBlock) (size : Nat) : OutBlock :=
  ⟨size, buf.written.take size, take_within buf.written size⟩

def terminated (bytes : List UInt8) : Option OutBlock :=
  ((OutBlock.fresh (sizeT (bytes.length + 1))).putAll bytes).bind fun out => out.put 0

/-- What `strlen` measures of a line. -/
def textOf (line : List UInt8) : List UInt8 := line.takeWhile (· ≠ 0)

def isNewline (c : UInt8) : Bool := c == 10

/-- The body of the loop of `lucis_system`, and what follows it. -/
def append (heap : Heap) (n : Nat) (buf : OutBlock) (text : List UInt8)
    (next : Nat → OutBlock → Option Reply) : Option Reply :=
  if buf.size ≤ buf.written.length + text.length then
    let cap := sizeT (buf.size * 2)
    if heap.serves n cap then
      ((OutBlock.fresh cap).putAll buf.written).bind fun newBuf =>
        (newBuf.putAll text).bind (next (n + 1))
    else some (nothing true)
  else (buf.putAll text).bind (next n)

/-- `buf[len] = '\0'` -/
def closeText (buf : OutBlock) : Option Reply :=
  (buf.put 0).map fun _ => ⟨buf.written, buf.written.length, false⟩

def systemLoop (heap : Heap) (n : Nat) (buf : OutBlock) (fp : Source UInt8) : Option Reply :=
  if (fgets isNewline 4095 fp).1 = [] then closeText buf
  else
    append heap n buf (textOf (fgets isNewline 4095 fp).1) fun n buf =>
      systemLoop heap n buf (fgets isNewline 4095 fp).2
  termination_by fp.flatten.length
  decreasing_by exact fgets_shorter ‹_›

/-- `fp` is what popen returns for the command. -/
def lucisSystem (heap : Heap) (cmd : Bytes) (fp : Option (Source UInt8)) : Option Reply :=
  if heap.serves 0 (sizeT (cmd.data.length + 1)) then
    (terminated cmd.data).bind fun _ =>
      match fp with
      | none => some (nothing false)
      | some fp =>
        if heap.serves 1 1024 then systemLoop heap 2 (.fresh 1024) fp else some (nothing true)
  else some (nothing true)

/-- The loop that stands in `lucis_execOutput` and again in `lucis_readAll`: whether the block could
not grow, the number of the next request, and the block. -/
def readLoop (heap : Heap) (n : Nat) (buf : OutBlock) (fp : Source UInt8) :
    Option (Bool × Nat × OutBlock) :=
  if (fread (buf.size - buf.written.length) fp).1 = [] then some (false, n, buf)
  else
    (buf.putAll (fread (buf.size - buf.written.length) fp).1).bind fun filled =>
      if filled.written.length = filled.size then
        let cap := sizeT (filled.size * 2)
        if heap.serves n cap then
          readLoop heap (n + 1) (regrown filled cap)
            (fread (buf.size - buf.written.length) fp).2
        else some (true, n + 1, filled)
      else readLoop heap n filled (fread (buf.size - buf.written.length) fp).2
  termination_by fp.flatten.length
  decreasing_by all_goals exact fread_shorter ‹_›

def lucisExecOutput (heap : Heap) (cmd : Bytes) (fp : Option (Source UInt8)) : Option Reply :=
  if heap.serves 0 (sizeT (cmd.data.length + 1)) then
    (terminated cmd.data).bind fun _ =>
      match fp with
      | none => some (nothing false)
      | some fp =>
        if heap.serves 1 4096 then
          (readLoop heap 2 (.fresh 4096) fp).bind fun (refused, n, buf) =>
            let len := buf.written.length
            if refused then some (nothing true)
            else if heap.serves n (sizeT (len + 1)) then
              (terminated buf.written).map fun _ => ⟨buf.written, len, false⟩
            else if heap.serves (n + 1) (sizeT (len + 1)) then
              ((regrown buf (sizeT (len + 1))).put 0).map fun _ => ⟨buf.written, len, true⟩
            else some ⟨[], len, true⟩
        else some (nothing true)
  else some (nothing true)

def lucisReadAll (heap : Heap) (stdin : Source UInt8) : Option Reply :=
  if heap.serves 0 4096 then
    (readLoop heap 1 (.fresh 4096) stdin).bind fun (refused, n, raw) =>
      let len := raw.written.length
      (raw.put 0).bind fun _ =>
        if heap.serves n (sizeT (len + 1)) then
          (terminated raw.written).map fun _ => ⟨raw.written, len, refused⟩
        else some ⟨[], len, true⟩
  else some (nothing true)

/-- No store is outside its block, and the reply is the stream unless a request was refused. -/
def Captured (stream : List UInt8) (run : Option Reply) : Prop :=
  ∃ reply, run = some reply ∧
    (reply.refused = false → reply.bytes = stream ∧ reply.len = stream.length)

end Model

section Blocks

variable {heap : Heap} {buf : OutBlock} {bytes : List UInt8}

theorem sizeT_double {heap : Heap} {n size : Nat} (served : heap.serves n size = true) :
    sizeT (size * 2) = 2 * size := by
  have small := heap.bounded n size served
  rw [sizeT_of_lt (by omega), mul_comm]

theorem terminated_fits (small : bytes.length < 2 ^ 63) : ∃ out, terminated bytes = some out := by
  rcases fresh_fits bytes (bytes.length + 1) (Nat.le_succ _) with ⟨out, filled, size, written⟩
  have room : out.written.length < out.size := by
    rw [size, written]
    exact Nat.lt_succ_self _
  rcases put_fits out 0 room with ⟨closed, stored, _⟩
  refine ⟨closed, ?_⟩
  rw [terminated, sizeT_of_lt (by omega), filled, bind_some, stored]

def Refused (heap : Heap) (n cap total : Nat) : Prop :=
  ∃ j, cap * 2 ^ j ≤ total ∧ heap.serves (n + j) (cap * 2 ^ (j + 1)) = false

theorem refused_served {n cap total : Nat} (served : heap.serves n (2 * cap) = true) :
    Refused heap n cap total ↔ Refused heap (n + 1) (2 * cap) total := by
  have double (j : Nat) : 2 * cap * 2 ^ j = cap * 2 ^ (j + 1) := by
    rw [pow_succ, mul_comm 2 cap, mul_assoc, mul_comm 2]
  constructor
  · rintro ⟨j, reached, refuses⟩
    cases j with
    | zero =>
      rw [add_zero, zero_add, Nat.pow_one, mul_comm, served] at refuses
      cases refuses
    | succ j =>
      refine ⟨j, (double j).symm ▸ reached, ?_⟩
      rw [double, Nat.add_right_comm]
      exact refuses
  · rintro ⟨j, reached, refuses⟩
    refine ⟨j + 1, double j ▸ reached, ?_⟩
    rw [double, Nat.add_right_comm] at refuses
    exact refuses

theorem refused_now {n cap total : Nat} (reached : cap ≤ total)
    (refuses : heap.serves n (2 * cap) = false) : Refused heap n cap total := by
  refine ⟨0, ?_, ?_⟩
  · rw [Nat.pow_zero, mul_one]
    exact reached
  · rw [zero_add, Nat.pow_one, mul_comm]
    exact refuses

theorem not_refused {n cap total : Nat} (below : total < cap) : ¬Refused heap n cap total := by
  rintro ⟨j, reached, _⟩
  have more : cap * 1 ≤ cap * 2 ^ j := Nat.mul_le_mul_left cap Nat.one_le_two_pow
  omega

end Blocks

section Reads

variable {heap : Heap}

/-- What the loop over `fread` comes to. -/
structure Read (heap : Heap) (n : Nat) (buf : OutBlock) (stream : List UInt8)
    (answer : Bool × Nat × OutBlock) : Prop where
  refused_iff : answer.1 = true ↔ Refused heap n buf.size (buf.written.length + stream.length)
  full : answer.1 = true → answer.2.2.written.length = answer.2.2.size
  whole : answer.1 = false → answer.2.2.written = buf.written ++ stream
  room : answer.1 = false → answer.2.2.written.length < answer.2.2.size
  small : answer.2.2.size < 2 ^ 63

theorem readLoop_read (n m : Nat) (buf : OutBlock) (fp : Source UInt8)
    (room : buf.written.length < buf.size) (served : heap.serves m buf.size = true) :
    ∃ answer, readLoop heap n buf fp = some answer ∧ Read heap n buf fp.flatten answer := by
  induction left_bytes : fp.flatten.length using Nat.strong_induction_on generalizing n m buf fp with
  | _ bytes ih =>
    subst left_bytes
    have taken := (fread_flatten (buf.size - buf.written.length) fp).1
    have left := (fread_flatten (buf.size - buf.written.length) fp).2
    by_cases ended : (fread (buf.size - buf.written.length) fp).1 = []
    · have empty : fp.flatten = [] := by
        rw [taken] at ended
        rcases take_eq_nil_iff.1 ended with none_left | empty
        · omega
        · exact empty
      refine ⟨(false, n, buf), by rw [readLoop, if_pos ended], ?_⟩
      rw [empty]
      exact {
        refused_iff := iff_of_false Bool.false_ne_true (not_refused room)
        full := fun contrary => absurd contrary Bool.false_ne_true
        whole := fun _ => (append_nil _).symm
        room := fun _ => room
        small := heap.bounded m _ served }
    · have shorter := fread_shorter ended
      have whole : (fread (buf.size - buf.written.length) fp).1 ++
          (fread (buf.size - buf.written.length) fp).2.flatten = fp.flatten := by
        rw [taken, left, take_append_drop]
      have fits : buf.written.length + (fread (buf.size - buf.written.length) fp).1.length ≤
          buf.size := by
        rw [taken, length_take]
        omega
      rcases putAll_fits _ buf fits with ⟨filled, stored, wrote⟩
      have total : filled.written.length +
          (fread (buf.size - buf.written.length) fp).2.flatten.length =
            buf.written.length + fp.flatten.length := by
        rw [wrote.written_eq, ← whole, length_append, length_append, add_assoc]
      have same : filled.size = buf.size := wrote.size_eq
      rw [readLoop, if_neg ended, stored, bind_some]
      by_cases full : filled.written.length = filled.size
      · have double : sizeT (filled.size * 2) = 2 * buf.size := by
          rw [same, sizeT_double served]
        simp only [if_pos full, double]
        by_cases grows : heap.serves n (2 * buf.size) = true
        · rw [if_pos grows]
          have kept : (regrown filled (2 * buf.size)).written = filled.written :=
            take_of_length_le (filled.within.trans (by omega))
          rcases ih _ shorter (n + 1) n (regrown filled (2 * buf.size)) _
            (by rw [kept, full, same]; change buf.size < 2 * buf.size; omega) grows rfl with
            ⟨answer, ran, read⟩
          refine ⟨answer, ran, ?_⟩
          have refused_iff := read.refused_iff
          have whole' := read.whole
          rw [kept] at refused_iff whole'
          rw [total] at refused_iff
          rw [wrote.written_eq, append_assoc, whole] at whole'
          exact {
            refused_iff := refused_iff.trans (refused_served grows).symm
            full := read.full
            whole := whole'
            room := read.room
            small := read.small }
        · have refuses := Bool.eq_false_iff.2 grows
          rw [if_neg grows]
          exact ⟨_, rfl, {
            refused_iff := iff_of_true rfl (refused_now (by omega) refuses)
            full := fun _ => full
            whole := fun contrary => absurd contrary Bool.noConfusion
            room := fun contrary => absurd contrary Bool.noConfusion
            small := same ▸ heap.bounded m _ served }⟩
      · rw [if_neg full]
        have below : filled.written.length < filled.size := lt_of_le_of_ne filled.within full
        rcases ih _ shorter n m filled _ below (same.symm ▸ served) rfl with ⟨answer, ran, read⟩
        have refused_iff := read.refused_iff
        have whole' := read.whole
        rw [total, same] at refused_iff
        rw [wrote.written_eq, append_assoc, whole] at whole'
        exact ⟨answer, ran, {
          refused_iff := refused_iff
          full := read.full
          whole := whole'
          room := read.room
          small := read.small }⟩

theorem captured_nothing (stream : List UInt8) : Captured stream (some (nothing true)) :=
  ⟨_, rfl, fun contrary => absurd contrary Bool.noConfusion⟩

theorem captured_refused {stream : List UInt8} {reply : Reply} (refused : reply.refused = true) :
    Captured stream (some reply) :=
  ⟨reply, rfl, fun contrary => absurd (refused.symm.trans contrary) Bool.noConfusion⟩

variable (heap : Heap)

theorem execOutput_captured (cmd : Bytes) (fp : Source UInt8) :
    Captured fp.flatten (lucisExecOutput heap cmd (some fp)) := by
  rcases terminated_fits cmd.addressable with ⟨ccmd, copied⟩
  by_cases command : heap.serves 0 (sizeT (cmd.data.length + 1)) = true
  · rw [lucisExecOutput, if_pos command, copied, bind_some]
    by_cases first : heap.serves 1 4096 = true
    · rcases readLoop_read 2 1 (.fresh 4096) fp (by decide) first with ⟨⟨refused, n, buf⟩, ran, read⟩
      simp only [if_pos first, ran, bind_some]
      cases refused with
      | true => exact captured_nothing _
      | false =>
        have whole : buf.written = fp.flatten := read.whole rfl
        have room : buf.written.length < buf.size := read.room rfl
        have small : buf.size < 2 ^ 63 := read.small
        rcases @terminated_fits buf.written (by omega) with ⟨tracked, moved⟩
        rw [if_neg Bool.false_ne_true, moved, sizeT_of_lt (by omega)]
        by_cases tracks : heap.serves n (buf.written.length + 1) = true
        · rw [if_pos tracks]
          exact ⟨_, rfl, fun _ => ⟨whole, congrArg List.length whole⟩⟩
        · rw [if_neg tracks]
          by_cases shrinks : heap.serves (n + 1) (buf.written.length + 1) = true
          · have inside : (regrown buf (buf.written.length + 1)).written.length <
                (regrown buf (buf.written.length + 1)).size := by
              change (buf.written.take _).length < buf.written.length + 1
              rw [length_take]
              omega
            rcases put_fits _ 0 inside with ⟨closed, stored, _⟩
            rw [if_pos shrinks, stored]
            exact captured_refused rfl
          · rw [if_neg shrinks]
            exact captured_refused rfl
    · simp only [if_neg first]
      exact captured_nothing _
  · rw [lucisExecOutput, if_neg command]
    exact captured_nothing _

theorem put_full {buf : OutBlock} (byte : UInt8) (full : buf.size ≤ buf.written.length) :
    buf.put byte = none :=
  dif_neg (Nat.not_lt.2 full)

theorem readAll_captured_iff (stdin : Source UInt8) :
    Captured stdin.flatten (lucisReadAll heap stdin) ↔
      ¬(heap.serves 0 4096 = true ∧ Refused heap 1 4096 stdin.flatten.length) := by
  by_cases first : heap.serves 0 4096 = true
  · rcases readLoop_read 1 0 (.fresh 4096) stdin (by decide) first with ⟨⟨refused, n, raw⟩, ran, read⟩
    have refused_iff : refused = true ↔ Refused heap 1 4096 stdin.flatten.length := by
      have stated := read.refused_iff
      rw [show (OutBlock.fresh 4096).written.length = 0 from rfl, zero_add] at stated
      exact stated
    rw [lucisReadAll, if_pos first, ran, bind_some, ← refused_iff]
    cases refused with
    | true =>
      have full : raw.written.length = raw.size := read.full rfl
      simp only [put_full 0 (le_of_eq full.symm)]
      apply iff_of_false
      · rintro ⟨_, contrary, _⟩
        cases contrary
      · exact fun possible => possible ⟨first, trivial⟩
    | false =>
      have whole : raw.written = stdin.flatten := read.whole rfl
      have room : raw.written.length < raw.size := read.room rfl
      have small : raw.size < 2 ^ 63 := read.small
      rcases @terminated_fits raw.written (by omega) with ⟨tracked, moved⟩
      rcases put_fits raw 0 room with ⟨closed, stored, _⟩
      apply iff_of_true
      · simp only [stored, moved, bind_some]
        by_cases tracks : heap.serves n (sizeT (raw.written.length + 1)) = true
        · rw [if_pos tracks]
          exact ⟨_, rfl, fun _ => ⟨whole, congrArg List.length whole⟩⟩
        · rw [if_neg tracks]
          exact captured_refused rfl
      · exact fun contrary => absurd contrary.2 Bool.false_ne_true
  · rw [lucisReadAll, if_neg first]
    exact iff_of_true (captured_nothing _) (fun contrary => first contrary.1)

end Reads

section Lines

def totals (len : Nat) : List Nat → List Nat
  | [] => []
  | size :: sizes => (len + size) :: totals (len + size) sizes

/-- The doublings that a text goes through have room for it, as far as the heap serves them. -/
def Roomy (heap : Heap) : Nat → Nat → Nat → List Nat → Prop
  | _, cap, len, [] => len < cap
  | n, cap, _, total :: later =>
    if cap ≤ total then
      heap.serves n (2 * cap) = true → total ≤ 2 * cap ∧ Roomy heap (n + 1) (2 * cap) total later
    else Roomy heap n cap total later

/-- The total that comes to `cap` first is less than its double; it is the double at most when
another line follows. -/
def Stays (cap : Nat) (sums : List Nat) : Prop :=
  ∀ total later, sums.dropWhile (· < cap) = total :: later →
    total < 2 * cap ∨ total = 2 * cap ∧ later ≠ []

def LinesFit (heap : Heap) (sums : List Nat) : Prop :=
  heap.serves 2 2048 = true → Stays 1024 sums ∧
    (heap.serves 3 4096 = true → Stays 2048 (sums.dropWhile (· < 1024)).tail)

def Climbs (len : Nat) (sums : List Nat) : Prop :=
  (len :: sums).IsChain fun a b => a ≤ b ∧ b ≤ a + 4095

variable {heap : Heap} {n cap len : Nat} {sums : List Nat}

variable {later : List Nat} {total : Nat}

theorem Climbs.cons_iff :
    Climbs len (total :: later) ↔ (len ≤ total ∧ total ≤ len + 4095) ∧ Climbs total later :=
  isChain_cons_cons

variable (climbs : Climbs len sums)
include climbs

/-- Where the totals go on from the one that comes to `cap`. -/
theorem Climbs.dropWhile
    (crossed : sums.dropWhile (· < cap) = total :: later) : cap ≤ total ∧ Climbs total later := by
  induction sums generalizing len with
  | nil => cases crossed
  | cons first rest ih =>
    rcases Climbs.cons_iff.1 climbs with ⟨_, climbs⟩
    by_cases below : first < cap
    · rw [dropWhile_cons_of_pos (by simpa using below)] at crossed
      exact ih climbs crossed
    · rw [dropWhile_cons_of_neg (by simpa using below)] at crossed
      cases crossed
      exact ⟨Nat.not_lt.1 below, climbs⟩

theorem roomy_iff (fits : len ≤ cap) :
    Roomy heap n cap len sums ↔ (len < cap ∨ len = cap ∧ sums ≠ []) ∧
      ∀ total later, sums.dropWhile (· < cap) = total :: later → heap.serves n (2 * cap) = true →
          total ≤ 2 * cap ∧ Roomy heap (n + 1) (2 * cap) total later := by
  induction sums generalizing len with
  | nil =>
    rw [Roomy]
    constructor
    · exact fun below => ⟨.inl below, fun _ _ none_left => by cases none_left⟩
    · rintro ⟨below | ⟨_, contrary⟩, _⟩
      · exact below
      · exact absurd rfl contrary
  | cons first rest ih =>
    rcases Climbs.cons_iff.1 climbs with ⟨⟨_, _⟩, climbs⟩
    have here : len < cap ∨ len = cap ∧ first :: rest ≠ [] :=
      (Nat.lt_or_eq_of_le fits).imp_right fun same => ⟨same, cons_ne_nil _ _⟩
    rw [Roomy]
    by_cases reached : cap ≤ first
    · rw [if_pos reached, dropWhile_cons_of_neg (by simpa using reached)]
      constructor
      · intro roomy
        refine ⟨here, ?_⟩
        rintro _ _ ⟨⟩
        exact roomy
      · exact fun roomy => roomy.2 first rest rfl
    · have below : first < cap := Nat.not_le.1 reached
      rw [if_neg reached, dropWhile_cons_of_pos (by simpa using below), ih climbs (le_of_lt below)]
      exact and_congr_left fun _ => iff_of_true (.inl below) here

theorem roomy_large (large : 4096 ≤ cap) (fits : len ≤ cap) :
    Roomy heap n cap len sums ↔ len < cap ∨ len = cap ∧ sums ≠ [] := by
  induction sums generalizing n cap len with
  | nil =>
    rw [Roomy]
    exact (or_iff_left fun contrary => contrary.2 rfl).symm
  | cons first rest ih =>
    rcases Climbs.cons_iff.1 climbs with ⟨⟨_, near⟩, climbs⟩
    apply iff_of_true
    · rw [Roomy]
      by_cases reached : cap ≤ first
      · rw [if_pos reached]
        have room : first < 2 * cap := by omega
        have fits := le_of_lt room
        exact fun _ => ⟨fits, (ih climbs (by omega) fits).2 (.inl room)⟩
      · rw [if_neg reached]
        have below : first < cap := Nat.not_le.1 reached
        exact (ih climbs large (le_of_lt below)).2 (.inl below)
    · exact (Nat.lt_or_eq_of_le fits).imp_right fun same => ⟨same, cons_ne_nil _ _⟩

theorem roomy_last :
    len ≤ 4096 ∧ Roomy heap n 4096 len sums ↔ len < 4096 ∨ len = 4096 ∧ sums ≠ [] := by
  constructor
  · rintro ⟨fits, roomy⟩
    exact (roomy_large climbs (le_rfl) fits).1 roomy
  · intro room
    have fits : len ≤ 4096 := room.elim le_of_lt fun same => le_of_eq same.1
    exact ⟨fits, (roomy_large climbs (le_rfl) fits).2 room⟩

omit climbs

theorem roomy_iff_linesFit (climbs : Climbs 0 sums) :
    Roomy heap 2 1024 0 sums ↔ LinesFit heap sums := by
  rw [roomy_iff climbs (Nat.zero_le _)]
  constructor
  · rintro ⟨_, roomy⟩ served
    constructor
    · intro total later crossed
      rcases climbs.dropWhile crossed with ⟨_, climbs⟩
      rcases roomy total later crossed served with ⟨fits, roomy⟩
      exact ((roomy_iff climbs fits).1 roomy).1
    · intro served' total' later' crossed'
      cases crossed : sums.dropWhile (· < 1024) with
      | nil =>
        rw [crossed] at crossed'
        cases crossed'
      | cons total later =>
        rw [crossed] at crossed'
        rcases climbs.dropWhile crossed with ⟨_, climbs⟩
        rcases roomy total later crossed served with ⟨fits, roomy⟩
        have next := ((roomy_iff climbs fits).1 roomy).2 total' later' crossed' served'
        exact (roomy_last (climbs.dropWhile crossed').2).1 next
  · intro fit
    refine ⟨.inl (by decide), fun total later crossed served => ?_⟩
    rcases climbs.dropWhile crossed with ⟨_, climbs⟩
    rcases fit served with ⟨stays, after⟩
    have room := stays total later crossed
    have fits : total ≤ 2 * 1024 := room.elim le_of_lt fun same => le_of_eq same.1
    refine ⟨fits, (roomy_iff climbs fits).2 ⟨room, fun total' later' crossed' served' => ?_⟩⟩
    have stays' := after served'
    rw [crossed] at stays'
    exact (roomy_last (climbs.dropWhile crossed').2).2 (stays' total' later' crossed')

end Lines

section System

variable {heap : Heap}

/-- `lucis_system` behind the first request, with the texts of its lines. -/
def appendAll (heap : Heap) : Nat → OutBlock → List (List UInt8) → Option Reply
  | _, buf, [] => closeText buf
  | n, buf, text :: texts => append heap n buf text fun n buf => appendAll heap n buf texts

/-- What `fgets` returns of a stream, up to the first NUL each. -/
def lineTexts (stream : List UInt8) : List (List UInt8) :=
  (lines isNewline 4094 4094 stream).map textOf

variable (n : Nat) (buf : OutBlock) (fp : Source UInt8)

theorem systemLoop_eq :
    systemLoop heap n buf fp = appendAll heap n buf (lineTexts fp.flatten) := by
  induction left_bytes : fp.flatten.length using Nat.strong_induction_on generalizing n buf fp with
  | _ bytes ih =>
    subst left_bytes
    rw [systemLoop]
    by_cases ended : fp.flatten = []
    · rw [if_pos (fgets_nil isNewline 4095 ended), ended]
      rfl
    · rcases fgets_lines isNewline 4094 4094 ended with ⟨some_read, cut⟩
      rw [if_neg some_read, lineTexts, cut, map_cons, appendAll]
      congr 1
      funext n buf
      exact ih _ (fgets_shorter some_read) n buf _ rfl

theorem putAll_next {buf : OutBlock} {text : List UInt8} {next : OutBlock → Option Reply}
    (fits : buf.written.length + text.length ≤ buf.size) :
    ∃ filled, filled.size = buf.size ∧ filled.written = buf.written ++ text ∧
      (buf.putAll text).bind next = next filled := by
  rcases putAll_fits text buf fits with ⟨filled, stored, wrote⟩
  exact ⟨filled, wrote.size_eq, wrote.written_eq, by rw [stored, bind_some]⟩

theorem append_cases (m : Nat) (buf : OutBlock) (text : List UInt8)
    (next : Nat → OutBlock → Option Reply) (served : heap.serves m buf.size = true) :
    (buf.written.length + text.length < buf.size ∧ ∃ filled, filled.size = buf.size ∧
      filled.written = buf.written ++ text ∧ append heap n buf text next = next n filled) ∨
    (buf.size ≤ buf.written.length + text.length ∧ heap.serves n (2 * buf.size) = false ∧
      append heap n buf text next = some (nothing true)) ∨
    (buf.size ≤ buf.written.length + text.length ∧ heap.serves n (2 * buf.size) = true ∧
      2 * buf.size < buf.written.length + text.length ∧ append heap n buf text next = none) ∨
    (buf.size ≤ buf.written.length + text.length ∧ heap.serves n (2 * buf.size) = true ∧
      buf.written.length + text.length ≤ 2 * buf.size ∧ ∃ filled, filled.size = 2 * buf.size ∧
        filled.written = buf.written ++ text ∧
          append heap n buf text next = next (n + 1) filled) := by
  have within := buf.within
  by_cases reached : buf.size ≤ buf.written.length + text.length
  · rw [append, if_pos reached]
    simp only [sizeT_double served]
    by_cases grows : heap.serves n (2 * buf.size) = true
    · rcases fresh_fits buf.written (2 * buf.size) (by omega) with ⟨moved, copied, size, written⟩
      rw [if_pos grows, copied, bind_some]
      by_cases fits : buf.written.length + text.length ≤ 2 * buf.size
      · rcases @putAll_next moved text (next (n + 1)) (by rw [size, written]; exact fits) with
          ⟨filled, same, wrote, ran⟩
        exact .inr (.inr (.inr ⟨reached, grows, fits, filled, same.trans size,
          by rw [wrote, written], ran⟩))
      · have past : moved.size < moved.written.length + text.length := by
          rw [size, written]
          exact Nat.not_le.1 fits
        rw [putAll_overflows text moved past]
        exact .inr (.inr (.inl ⟨reached, grows, Nat.not_le.1 fits, rfl⟩))
    · rw [if_neg grows]
      exact .inr (.inl ⟨reached, Bool.eq_false_iff.2 grows, rfl⟩)
  · have room : buf.written.length + text.length < buf.size := Nat.not_le.1 reached
    rw [append, if_neg reached]
    rcases @putAll_next buf text (next n) (le_of_lt room) with ⟨filled, same, wrote, ran⟩
    exact .inl ⟨room, filled, same, wrote, ran⟩

def RoomFor (heap : Heap) (n : Nat) (buf : OutBlock) (texts : List (List UInt8)) : Prop :=
  Roomy heap n buf.size buf.written.length (totals buf.written.length (texts.map List.length))

section RoomFor

variable {n : Nat} {buf filled : OutBlock} {text : List UInt8} {texts : List (List UInt8)}

theorem roomFor_below (room : buf.written.length + text.length < buf.size)
    (same : filled.size = buf.size) (wrote : filled.written = buf.written ++ text) :
    RoomFor heap n buf (text :: texts) ↔ RoomFor heap n filled texts := by
  rw [RoomFor, RoomFor, map_cons, totals, Roomy, if_neg (Nat.not_le.2 room), same, wrote,
    length_append]

variable (reached : buf.size ≤ buf.written.length + text.length)
include reached

theorem roomFor_doubled
    (grows : heap.serves n (2 * buf.size) = true) :
    RoomFor heap n buf (text :: texts) ↔ buf.written.length + text.length ≤ 2 * buf.size ∧
      Roomy heap (n + 1) (2 * buf.size) (buf.written.length + text.length)
        (totals (buf.written.length + text.length) (texts.map List.length)) := by
  rw [RoomFor, map_cons, totals, Roomy, if_pos reached]
  exact forall_prop_of_true grows

theorem roomFor_refused
    (refuses : heap.serves n (2 * buf.size) = false) : RoomFor heap n buf (text :: texts) := by
  rw [RoomFor, map_cons, totals, Roomy, if_pos reached, refuses]
  exact fun contrary => absurd contrary Bool.false_ne_true

end RoomFor

structure Appended (heap : Heap) (n size : Nat) (whole : List UInt8) (reply : Reply) : Prop where
  refused_iff : reply.refused = true ↔ Refused heap n size whole.length
  exact_text : reply.refused = false → reply.bytes = whole ∧ reply.len = whole.length

theorem closeText_spec : (RoomFor heap n buf [] ∧
      ∃ reply, closeText buf = some reply ∧ Appended heap n buf.size buf.written reply) ∨
    (¬RoomFor heap n buf [] ∧ closeText buf = none) := by
  by_cases room : buf.written.length < buf.size
  · rcases put_fits buf 0 room with ⟨closed, stored, _⟩
    refine .inl ⟨room, ⟨buf.written, buf.written.length, false⟩, by rw [closeText, stored]; rfl, ?_⟩
    exact ⟨iff_of_false Bool.false_ne_true (not_refused room), fun _ => ⟨rfl, rfl⟩⟩
  · exact .inr ⟨room, by rw [closeText, put_full 0 (Nat.not_lt.1 room)]; rfl⟩

theorem appendAll_spec (texts : List (List UInt8)) (n m : Nat) (buf : OutBlock)
    (served : heap.serves m buf.size = true) :
    (RoomFor heap n buf texts ∧ ∃ reply, appendAll heap n buf texts = some reply ∧
      Appended heap n buf.size (buf.written ++ texts.flatten) reply) ∨
    (¬RoomFor heap n buf texts ∧ appendAll heap n buf texts = none) := by
  induction texts generalizing n m buf with
  | nil =>
    rw [flatten_nil, append_nil]
    exact closeText_spec n buf
  | cons text texts ih =>
    rw [flatten_cons, ← append_assoc]
    rcases append_cases n m buf text (fun n buf => appendAll heap n buf texts) served with
      ⟨room, filled, same, wrote, ran⟩ | ⟨reached, refuses, ran⟩ |
        ⟨reached, grows, past, ran⟩ | ⟨reached, grows, fits, filled, same, wrote, ran⟩
    · rw [appendAll, ran, roomFor_below room same wrote, ← wrote, ← same]
      exact ih n m filled (same ▸ served)
    · left
      refine ⟨roomFor_refused reached refuses, _, ran, ?_, ?_⟩
      · apply iff_of_true rfl
        apply refused_now _ refuses
        rw [length_append, length_append]
        omega
      · exact fun contrary => absurd contrary Bool.noConfusion
    · right
      refine ⟨?_, ran⟩
      rw [roomFor_doubled reached grows]
      exact fun roomy => absurd roomy.1 (Nat.not_le.2 past)
    · have next := ih (n + 1) n filled (same ▸ grows)
      have roomy_iff : RoomFor heap n buf (text :: texts) ↔ RoomFor heap (n + 1) filled texts := by
        rw [roomFor_doubled reached grows, RoomFor, same, wrote, length_append]
        exact and_iff_right fits
      rw [appendAll, ran, roomy_iff, ← wrote]
      refine next.imp_left fun ⟨roomy, reply, rest, appended⟩ => ⟨roomy, reply, rest, ?_⟩
      refine ⟨?_, appended.exact_text⟩
      rw [refused_served grows, ← same]
      exact appended.refused_iff

variable (line : List UInt8)

theorem textOf_length_le : (textOf line).length ≤ line.length :=
  (List.takeWhile_prefix _).length_le

theorem textOf_eq_iff : textOf line = line ↔ (0 : UInt8) ∉ line := by
  rw [textOf, takeWhile_eq_self_iff]
  constructor
  · exact fun plain member => by simpa using plain 0 member
  · intro plain c member
    have differs : c ≠ 0 := fun same => plain (same ▸ member)
    simpa using differs

variable (ls : List (List UInt8))

theorem texts_flatten_length_le :
    (ls.map textOf).flatten.length ≤ ls.flatten.length := by
  induction ls with
  | nil => exact le_rfl
  | cons line ls ih =>
    rw [map_cons, flatten_cons, flatten_cons, length_append, length_append]
    exact Nat.add_le_add (textOf_length_le line) ih

theorem texts_flatten_eq_iff :
    (ls.map textOf).flatten = ls.flatten ↔ (0 : UInt8) ∉ ls.flatten := by
  induction ls with
  | nil => exact iff_of_true rfl not_mem_nil
  | cons line ls ih =>
    rw [map_cons, flatten_cons, flatten_cons, mem_append, not_or, ← textOf_eq_iff, ← ih]
    constructor
    · intro same
      have sizes := congrArg List.length same
      rw [length_append, length_append] at sizes
      have short := textOf_length_le line
      have shorts := texts_flatten_length_le ls
      exact append_inj same (by omega)
    · rintro ⟨here, rest⟩
      rw [here, rest]

variable (stream : List UInt8)

theorem lineTexts_flatten_iff :
    (lineTexts stream).flatten = stream ↔ (0 : UInt8) ∉ stream := by
  have whole := lines_flatten isNewline 4094 4094 stream
  have plain := texts_flatten_eq_iff (lines isNewline 4094 4094 stream)
  rw [whole] at plain
  exact plain

def lineTotals (stream : List UInt8) : List Nat := totals 0 ((lineTexts stream).map List.length)

theorem climbs_totals (sizes : List Nat) (short : ∀ size ∈ sizes, size ≤ 4095) (len : Nat) :
    Climbs len (totals len sizes) := by
  induction sizes generalizing len with
  | nil => exact List.IsChain.singleton len
  | cons size sizes ih =>
    apply Climbs.cons_iff.mpr
    have here := short size (.head _)
    exact ⟨by omega, ih (fun other member => short other (.tail _ member)) _⟩

theorem climbs_lineTotals : Climbs 0 (lineTotals stream) := by
  apply climbs_totals
  intro size member
  rcases List.mem_map.1 member with ⟨text, found, rfl⟩
  unfold lineTexts at found
  rcases List.mem_map.1 found with ⟨line, cut, rfl⟩
  exact (textOf_length_le line).trans (lines_le isNewline 4094 stream line cut)

/-- What the call stores fits its blocks, and what it leaves out is a refused request's. -/
def SystemFits (heap : Heap) (stream : List UInt8) : Prop :=
  LinesFit heap (lineTotals stream) ∧
    (Refused heap 2 1024 (lineTexts stream).flatten.length ∨ (0 : UInt8) ∉ stream)

theorem systemLoop_captured_iff (first : heap.serves 1 1024 = true) :
    Captured fp.flatten (systemLoop heap 2 (.fresh 1024) fp) ↔ SystemFits heap fp.flatten := by
  have roomy_iff : RoomFor heap 2 (.fresh 1024) (lineTexts fp.flatten) ↔
      LinesFit heap (lineTotals fp.flatten) :=
    roomy_iff_linesFit (climbs_lineTotals fp.flatten)
  rw [systemLoop_eq, SystemFits, ← roomy_iff]
  rcases appendAll_spec (lineTexts fp.flatten) 2 1 (.fresh 1024) first with
    ⟨roomy, reply, ran, refused_iff, whole⟩ | ⟨tight, ran⟩
  · rw [show (OutBlock.fresh 1024).written = [] from rfl, nil_append] at refused_iff whole
    change _ ↔ Refused heap 2 1024 _ at refused_iff
    rw [ran, ← refused_iff, ← lineTexts_flatten_iff]
    constructor
    · rintro ⟨_, ⟨⟩, exact_text⟩
      refine ⟨roomy, ?_⟩
      cases refused : reply.refused with
      | true => exact .inl rfl
      | false => exact .inr ((whole refused).1.symm.trans (exact_text refused).1)
    · rintro ⟨_, refused | plain⟩
      · exact captured_refused refused
      · rw [plain] at whole
        exact ⟨reply, rfl, whole⟩
  · apply iff_of_false
    · rintro ⟨_, contrary, _⟩
      rw [ran] at contrary
      cases contrary
    · exact fun fits => tight fits.1

theorem system_captured_iff (heap : Heap) (cmd : Bytes) (fp : Source UInt8) :
    Captured fp.flatten (lucisSystem heap cmd (some fp)) ↔
      (heap.serves 0 (cmd.data.length + 1) = true → heap.serves 1 1024 = true →
        SystemFits heap fp.flatten) := by
  rcases terminated_fits cmd.addressable with ⟨cmdNull, copied⟩
  have small := cmd.addressable
  rw [lucisSystem, sizeT_of_lt (by omega)]
  by_cases command : heap.serves 0 (cmd.data.length + 1) = true
  · simp only [if_pos command, copied, bind_some]
    by_cases first : heap.serves 1 1024 = true
    · simp only [if_pos first]
      rw [systemLoop_captured_iff fp first]
      exact ⟨fun fits _ _ => fits, fun fits => fits command first⟩
    · simp only [if_neg first]
      exact iff_of_true (captured_nothing _) fun _ served => absurd served first
  · rw [if_neg command]
    exact iff_of_true (captured_nothing _) fun served => absurd served command

end System

/-- For every command output, every way it is delivered and every answer of the heap:
`lucis_execOutput` stores inside its blocks and returns the output unless a request is refused;
`lucis_readAll` does when no doubling of its block is refused; `lucis_system` does when no line
takes the text past a doubling and no byte is NUL, up to the first request that is refused. -/
theorem captured_iff (heap : Heap) (cmd : Bytes) (fp : Source UInt8) :
    Captured fp.flatten (lucisExecOutput heap cmd (some fp)) ∧
      (Captured fp.flatten (lucisReadAll heap fp) ↔
        ¬(heap.serves 0 4096 = true ∧ Refused heap 1 4096 fp.flatten.length)) ∧
      (Captured fp.flatten (lucisSystem heap cmd (some fp)) ↔
        (heap.serves 0 (cmd.data.length + 1) = true → heap.serves 1 1024 = true →
          SystemFits heap fp.flatten)) :=
  ⟨execOutput_captured heap cmd fp, readAll_captured_iff heap fp, system_captured_iff heap cmd fp⟩

theorem below_bounded (_ size : Nat) (below : decide (size < 2 ^ 63) = true) : size < 2 ^ 63 :=
  of_decide_eq_true below

def generous : Heap := ⟨fun _ size => decide (size < 2 ^ 63), below_bounded⟩

theorem no_bytes : ([] : List UInt8).length < 2 ^ 63 := Nat.two_pow_pos 63

def longLine : Source UInt8 := [List.replicate 3000 97]

/-- A first line of 3000 bytes does not fit the block of 2048 that it is stored to. -/
theorem long_line_overflows : ¬Captured longLine.flatten
    (lucisSystem generous ⟨[], no_bytes⟩ (some longLine)) := by
  intro captured
  have fits := (system_captured_iff _ _ _).mp captured rfl rfl
  have one : longLine.flatten = 97 :: List.replicate 2999 97 := append_nil _
  have plain : ∀ x ∈ 97 :: List.replicate 2999 (97 : UInt8), isNewline x = false := by
    intro x member
    rcases mem_cons.mp member with rfl | member
    · rfl
    · rw [(mem_replicate.mp member).2]
      rfl
  have short : (List.replicate 2999 (97 : UInt8)).length ≤ 4094 := by
    rw [length_replicate]
    decide
  have cut := lines_single isNewline 4094 4094 97 (List.replicate 2999 97) short plain
  have whole : textOf (97 :: List.replicate 2999 97) = 97 :: List.replicate 2999 97 := by
    apply (textOf_eq_iff _).mpr
    intro member
    rcases mem_cons.mp member with contrary | member
    · cases contrary
    · cases (mem_replicate.mp member).2
  have sums : lineTotals longLine.flatten = [3000] := by
    rw [one, lineTotals, lineTexts, cut, map_singleton, whole, map_singleton,
      length_cons, length_replicate]
    rfl
  have stays := (fits.1 rfl).1
  rw [sums] at stays
  rcases stays 3000 [] rfl with contrary | contrary
  · exact absurd contrary (by decide)
  · exact contrary.2 rfl

end Lucis.CapturedOutput
