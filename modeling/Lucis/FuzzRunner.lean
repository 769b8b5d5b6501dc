import Mathlib.Data.Finset.Basic
import Lucis.FuzzMutators
import Lucis.FuzzPipe

/-!
The fuzz loop of fuzz/fuzz_runner.c: executions, crash minimization, the
deterministic and growth stages and the havoc stage. The target is an arbitrary
function of the number of executions so far and the bytes it is given, so it
may behave differently each time. Random words are an arbitrary sequence.

The runner's own files and small allocations are taken to succeed: a failed one
only drops a store. Statistics, log texts and the verbose echo are left out.
`log` is a ghost: one record for each call of `runOneAndHandle`.
-/

namespace Lucis.FuzzRunner

open FuzzMutators FuzzPipe List

def maxQueue : Nat := 8192

def maxMutPerBase : Nat := 256

inductive Status where
  | exited (code : Nat)
  | signaled (sig : Nat)

/-- What one call of `runOne` meets: whether pipe and fork work, how the child
ends, what it prints, the coverage bytes it sets, and whether a stop signal
reaches the runner meanwhile. -/
structure Reply where
  started : Bool
  status : Status
  output : List UInt8
  bitmap : Finset Nat
  interrupted : Bool

abbrev Target := Nat → List UInt8 → Reply

structure ExecResult where
  finished : Bool
  exitCode : Nat
  termSig : Nat
  output : List UInt8
  newCoverage : Bool

inductive Stage where
  | deterministic
  | growth
  | havoc
  deriving DecidableEq

inductive Sink where
  | queue
  | corpus
  | crash
  deriving DecidableEq

/-- One call of `runOneAndHandle(len)` with `g_inputLen = inputLen`. -/
structure Execution where
  stage : Stage
  inputLen : Nat
  len : Nat
  out : ExecResult
  dispatched : Option (List UInt8)
  recorded : List (Sink × List UInt8)

structure Fuzz where
  input : List UInt8
  inputLen : Nat
  rng : Rng
  queue : List (List UInt8)
  detDone : Nat → Bool
  total : Finset Nat
  runs : Nat
  crashes : Nat
  timeouts : Nat
  interesting : Nat
  stop : Bool
  execs : Nat
  log : List Execution

section Execute

variable (target : Target)

/-- The bytes `lucis_fuzz_dispatch` is called with. -/
def dispatchInput (s : Fuzz) : List UInt8 := s.input.take s.inputLen

def runOne (s : Fuzz) : ExecResult × Fuzz :=
  let reply := target s.execs (dispatchInput s)
  let s := { s with execs := s.execs + 1, stop := s.stop || reply.interrupted }
  if reply.started then
    let newCoverage := decide (¬ reply.bitmap ⊆ s.total)
    let s := { s with total := s.total ∪ reply.bitmap }
    match reply.status with
    | .exited code => (⟨true, code, 0, reply.output, newCoverage⟩, s)
    | .signaled sig => (⟨false, 0, sig, reply.output, newCoverage⟩, s)
  else (⟨false, 0, 0, [], false⟩, s)

/-- `memcpy(g_input, data, len)` -/
def memcpyInput (data : List UInt8) (s : Fuzz) : Fuzz :=
  { s with input := data ++ s.input.drop data.length }

def reproduces (data : List UInt8) (wantSig : Nat) (s : Fuzz) : Bool × Fuzz :=
  let savedLen := s.inputLen
  let s := { memcpyInput data s with inputLen := data.length }
  let run := runOne target s
  (!run.1.finished && run.1.termSig == wantSig, { run.2 with inputLen := savedLen })

structure Minimized where
  buf : List UInt8
  reductions : Nat
  changed : Bool
  state : Fuzz

/-- The loop over `pos`; `buf` holds the `cur` bytes still there. A block is
never empty, because `pos < cur` and the step is positive. -/
def minimizeScan (sig step : Nat) (positive : 0 < step) (buf : List UInt8)
    (pos reductions : Nat) (changed : Bool) (s : Fuzz) : Minimized :=
  if inside : pos < buf.length then
    let stop := min (pos + step) buf.length
    if buf.length - (stop - pos) = 0 then
      minimizeScan sig step positive buf stop reductions changed s
    else
      let tmp := buf.take pos ++ buf.drop stop
      let run := reproduces target tmp sig s
      if run.1 then minimizeScan sig step positive tmp pos (reductions + 1) true run.2
      else minimizeScan sig step positive buf stop reductions changed run.2
  else ⟨buf, reductions, changed, s⟩
termination_by buf.length - pos
decreasing_by
  · omega
  · simp only [List.length_append, List.length_take, List.length_drop]
    omega
  · omega

theorem minimizeScan_shrinks (sig step : Nat) (positive : 0 < step) (buf : List UInt8)
    (pos reductions : Nat) (changed : Bool) (s : Fuzz) :
    let out := minimizeScan target sig step positive buf pos reductions changed s
    out.buf.length ≤ buf.length ∧
      (out.changed = true → changed = true ∨ out.buf.length < buf.length) := by
  fun_induction minimizeScan target sig step positive buf pos reductions changed s with
  | case1 _ _ _ _ s _ _ _ ih => exact ih
  | case2 buf pos reductions changed s inside stop _ tmp run _ ih =>
    have shorter : tmp.length < buf.length := by
      simp only [tmp, length_append, length_take, length_drop]
      omega
    constructor
    · exact ih.1.trans (le_of_lt shorter)
    · intro _
      exact .inr (lt_of_le_of_lt ih.1 shorter)
  | case3 _ _ _ _ s _ _ _ _ _ _ ih => exact ih
  | case4 buf _ reductions changed s _ =>
    constructor
    · exact le_rfl
    · exact .inl

/-- `while (changed)` -/
def minimizePasses (sig step : Nat) (positive : 0 < step) (buf : List UInt8)
    (reductions : Nat) (s : Fuzz) : Minimized :=
  let out := minimizeScan target sig step positive buf 0 reductions false s
  if _ : out.changed = true then
    minimizePasses sig step positive out.buf out.reductions out.state
  else out
termination_by buf.length
decreasing_by
  have shrunk := (minimizeScan_shrinks target sig step positive buf 0 reductions false s).2 ‹_›
  simpa using shrunk

def minimizeSteps (sig step : Nat) (buf : List UInt8) (reductions : Nat) (s : Fuzz) : Minimized :=
  if positive : 0 < step then
    let out := minimizePasses target sig step positive buf reductions s
    minimizeSteps sig (step / 2) out.buf out.reductions out.state
  else ⟨buf, reductions, false, s⟩
termination_by step
decreasing_by omega

/-- The two mallocs are taken to succeed; a refused one gives up, or passes over a candidate. -/
def minimize (data : List UInt8) (sig : Nat) (s : Fuzz) : Minimized :=
  minimizeSteps target sig (data.length / 2) data 0 s

def queuePush (data : List UInt8) (s : Fuzz) : Fuzz :=
  if s.queue.length ≥ maxQueue then s else { s with queue := s.queue ++ [data] }

/-- `g_crashes += 1; if (g_crashes >= 10) g_stop = 1;` -/
def countCrash (s : Fuzz) : Fuzz :=
  { s with crashes := s.crashes + 1, stop := s.stop || decide (s.crashes + 1 ≥ 10) }

def onExecDone (data : List UInt8) (out : ExecResult) (s : Fuzz) :
    List (Sink × List UInt8) × Fuzz :=
  if out.termSig ≠ 0 then
    if out.termSig = sigAlrm then ([], { s with timeouts := s.timeouts + 1 })
    else
      ([(.crash, data)], countCrash (minimize target data out.termSig s).state)
  else if out.newCoverage && out.finished then
    let queued := if s.queue.length ≥ maxQueue then [] else [(Sink.queue, data)]
    let s := queuePush data s
    (queued ++ [(.corpus, data)], { s with interesting := s.interesting + 1 })
  else ([], s)

/-- Runs the target with the first `g_inputLen` bytes and keeps the first `len`. -/
def runOneAndHandle (stage : Stage) (len : Nat) (s : Fuzz) : Fuzz :=
  let started := (target s.execs (dispatchInput s)).started
  let run := runOne target s
  let after := { run.2 with runs := run.2.runs + 1 }
  let done := onExecDone target (after.input.take len) run.1 after
  { done.2 with
    log := done.2.log ++
      [⟨stage, s.inputLen, len, run.1, if started then some (dispatchInput s) else none, done.1⟩] }

end Execute

section Stages

variable (target : Target)

/-- The single-byte edits of the deterministic stage, in order: bit flips, small
deltas of both signs, interesting values. -/
def deterministicEdits : List (UInt8 → UInt8) :=
  (List.range 8).map (fun bit old => old ^^^ UInt8.ofNat (1 <<< bit)) ++
    (List.range 35).flatMap (fun step =>
      [fun old => UInt8.ofInt (old.toNat - (step + 1)),
        fun old => UInt8.ofInt (old.toNat + (step + 1))]) ++
    interesting8.map fun v _ => v

def growthBytes : List UInt8 := [0x00, 0xFF, 0x41, 0x52]

/-- One edit of the byte at `pos` in a fresh copy of the seed. -/
def perturb (seed : List UInt8) (pos : Nat) (edit : UInt8 → UInt8) (s : Fuzz) : Fuzz :=
  let s := memcpyInput seed s
  let s := { s with input := s.input.set pos (edit (s.input.getD pos 0)) }
  runOneAndHandle target .deterministic seed.length s

def grow (seed : List UInt8) (v : UInt8) (s : Fuzz) : Fuzz :=
  let s := memcpyInput seed s
  let s := { s with input := s.input.set seed.length v }
  runOneAndHandle target .growth (seed.length + 1) s

def deterministicStage (seed : List UInt8) (s : Fuzz) : Fuzz :=
  let s := (List.range seed.length).foldl
    (fun s pos => deterministicEdits.foldl (fun s edit => perturb target seed pos edit s) s) s
  if seed.length + 1 < fuzzMaxInput then growthBytes.foldl (fun s v => grow target seed v s) s
  else s

def havocOnce (seed : List UInt8) (s : Fuzz) : Option Fuzz :=
  let s := { memcpyInput seed s with inputLen := seed.length }
  (mutateHavoc s.queue s.input s.inputLen s.rng).map fun m =>
    runOneAndHandle target .havoc m.len { s with input := m.buf, rng := m.rng, inputLen := m.len }

def havocStage (seed : List UInt8) : Nat → Fuzz → Option Fuzz
  | 0, s => some s
  | left + 1, s =>
    if s.stop then some s else (havocOnce target seed s).bind (havocStage seed left)

/-- The body of the fuzz loop. `iter % g_queueCount` faults on an empty queue. -/
def fuzzTurn (iter : Nat) (s : Fuzz) : Option Fuzz :=
  if s.queue = [] then none
  else
    let base := iter % s.queue.length
    let seed := s.queue.getD base []
    let s :=
      if s.detDone base then s
      else
        deterministicStage target seed
          { s with detDone := fun entry => entry == base || s.detDone entry }
    havocStage target seed maxMutPerBase s

/-- At most `turns` turns of the fuzz loop; `maxIters = 0` is no budget. -/
def fuzzLoop (maxIters : Nat) : Nat → Nat → Fuzz → Option Fuzz
  | 0, _, s => some s
  | turns + 1, iter, s =>
    if s.stop || (maxIters != 0 && decide (maxIters ≤ s.runs)) then some s
    else (fuzzTurn target iter s).bind (fuzzLoop maxIters turns (iter + 1))

def fuzzStart (rng : Rng) (files : List (List UInt8)) : Fuzz where
  input := List.replicate fuzzMaxInput 0
  inputLen := 0
  rng := rng
  queue :=
    let seeds := (files.map fun file => file.take fuzzMaxInput).take maxQueue
    if seeds = [] then [[0]] else seeds
  detDone := fun _ => false
  total := ∅
  runs := 0
  crashes := 0
  timeouts := 0
  interesting := 0
  stop := false
  execs := 0
  log := []

end Stages

/-! Fidelity: what is executed and what is kept. -/

def Faithful (e : Execution) : Prop :=
  ∀ kept ∈ e.recorded, e.dispatched = some kept.2

/-- The outcomes `onExecDone` stores an input for. -/
def stored (out : ExecResult) : Bool :=
  if out.termSig ≠ 0 then decide (out.termSig ≠ sigAlrm) else out.newCoverage && out.finished

/-- The execution started with `g_inputLen` at the length it is handled with,
or its outcome is one that keeps nothing. -/
def InStep (e : Execution) : Prop :=
  e.inputLen = e.len ∨ stored e.out = false

structure Sized (s : Fuzz) : Prop where
  input_size : s.input.length = fuzzMaxInput
  inputLen_le : s.inputLen ≤ fuzzMaxInput
  populated : s.queue ≠ []
  entries : ∀ entry ∈ s.queue, entry.length ≤ fuzzMaxInput

/-- What an execution outside `runOneAndHandle` leaves alone. -/
structure Kept (s t : Fuzz) : Prop where
  inputLen_eq : t.inputLen = s.inputLen
  input_size : t.input.length = s.input.length
  queue_eq : t.queue = s.queue
  log_eq : t.log = s.log

section Frames

variable (target : Target) {s t u : Fuzz}

theorem kept_trans (first : Kept s t) (second : Kept t u) : Kept s u where
  inputLen_eq := second.inputLen_eq.trans first.inputLen_eq
  input_size := second.input_size.trans first.input_size
  queue_eq := second.queue_eq.trans first.queue_eq
  log_eq := second.log_eq.trans first.log_eq

theorem kept_sized (kept : Kept s t) (sized : Sized s) : Sized t where
  input_size := kept.input_size.trans sized.input_size
  inputLen_le := kept.inputLen_eq ▸ sized.inputLen_le
  populated := kept.queue_eq ▸ sized.populated
  entries := kept.queue_eq ▸ sized.entries

variable (s : Fuzz)

theorem runOne_kept : Kept s (runOne target s).2 := by
  unfold runOne
  by_cases started : (target s.execs (dispatchInput s)).started = true
  · simp only [started, if_true]
    cases (target s.execs (dispatchInput s)).status <;> exact ⟨rfl, rfl, rfl, rfl⟩
  · simp only [started, if_false, Bool.false_eq_true]
    exact ⟨rfl, rfl, rfl, rfl⟩

theorem runOne_input : (runOne target s).2.input = s.input := by
  unfold runOne
  by_cases started : (target s.execs (dispatchInput s)).started = true
  · simp only [started, if_true]
    cases (target s.execs (dispatchInput s)).status <;> rfl
  · simp only [started, if_false, Bool.false_eq_true]

theorem runOne_unstarted (failed : (target s.execs (dispatchInput s)).started = false) :
    stored (runOne target s).1 = false := by
  simp [runOne, failed, stored]

variable (data : List UInt8)

theorem memcpyInput_size (s : Fuzz) (fits : data.length ≤ s.input.length) :
    (memcpyInput data s).input.length = s.input.length := by
  simp only [memcpyInput, length_append, length_drop]
  omega

theorem reproduces_kept (sig : Nat) (s : Fuzz)
    (fits : data.length ≤ s.input.length) : Kept s (reproduces target data sig s).2 := by
  have run := runOne_kept target
    { memcpyInput data s with inputLen := data.length }
  constructor
  · rfl
  · exact run.input_size.trans (memcpyInput_size data s fits)
  · exact run.queue_eq
  · exact run.log_eq

theorem minimizeScan_kept (sig step : Nat) (positive : 0 < step) (buf : List UInt8)
    (pos reductions : Nat) (changed : Bool) (s : Fuzz) (fits : buf.length ≤ s.input.length) :
    Kept s (minimizeScan target sig step positive buf pos reductions changed s).state := by
  fun_induction minimizeScan target sig step positive buf pos reductions changed s with
  | case1 buf _ _ _ s _ _ _ ih => exact ih fits
  | case2 buf pos reductions _ s inside stop _ tmp run _ ih =>
    have shorter : tmp.length ≤ buf.length := by
      simp only [tmp, length_append, length_take, length_drop]
      omega
    have kept := reproduces_kept target tmp sig s (by omega)
    exact kept_trans kept (ih (by rw [kept.input_size]; omega))
  | case3 buf pos reductions changed s inside stop _ tmp run _ ih =>
    have shorter : tmp.length ≤ buf.length := by
      simp only [tmp, length_append, length_take, length_drop]
      omega
    have kept := reproduces_kept target tmp sig s (by omega)
    exact kept_trans kept (ih (by rw [kept.input_size]; omega))
  | case4 buf _ reductions changed s _ => exact ⟨rfl, rfl, rfl, rfl⟩

theorem minimizePasses_kept (sig step : Nat) (positive : 0 < step) (buf : List UInt8)
    (reductions : Nat) (s : Fuzz) (fits : buf.length ≤ s.input.length) :
    Kept s (minimizePasses target sig step positive buf reductions s).state ∧
      (minimizePasses target sig step positive buf reductions s).buf.length ≤ buf.length := by
  fun_induction minimizePasses target sig step positive buf reductions s with
  | case1 buf reductions s out _ ih =>
    have kept := minimizeScan_kept target sig step positive buf 0 reductions false s fits
    have shrunk := (minimizeScan_shrinks target sig step positive buf 0 reductions false s).1
    have rest := ih (by rw [kept.input_size]; exact shrunk.trans fits)
    exact ⟨kept_trans kept rest.1, rest.2.trans shrunk⟩
  | case2 buf reductions s out _ =>
    exact ⟨minimizeScan_kept target sig step positive buf 0 reductions false s fits,
      (minimizeScan_shrinks target sig step positive buf 0 reductions false s).1⟩

theorem minimizeSteps_kept (sig step : Nat) (buf : List UInt8) (reductions : Nat) (s : Fuzz)
    (fits : buf.length ≤ s.input.length) :
    Kept s (minimizeSteps target sig step buf reductions s).state := by
  fun_induction minimizeSteps target sig step buf reductions s with
  | case1 step buf reductions s positive out ih =>
    have pass := minimizePasses_kept target sig step positive buf reductions s fits
    exact kept_trans pass.1 (ih (by rw [pass.1.input_size]; exact pass.2.trans fits))
  | case2 _ buf reductions s _ => exact ⟨rfl, rfl, rfl, rfl⟩

end Frames

section Handle

variable (target : Target) {s : Fuzz}

variable (data : List UInt8) (out : ExecResult)

theorem onExecDone_recorded (s : Fuzz) :
    (∀ kept ∈ (onExecDone target data out s).1, kept.2 = data) ∧
      ((onExecDone target data out s).1 = [] ↔ stored out = false) := by
  unfold onExecDone stored
  by_cases died : out.termSig ≠ 0
  · by_cases timeout : out.termSig = sigAlrm
    · simp only [if_pos died, if_pos timeout]
      simp [timeout]
    · simp only [if_pos died, if_neg timeout]
      simp [timeout]
  · simp only [if_neg died]
    cases fresh : out.newCoverage && out.finished with
    | false => simp
    | true =>
      simp only [if_true]
      split <;> simp

theorem queuePush_entries (sized : Sized s)
    (fits : data.length ≤ fuzzMaxInput) : Sized (queuePush data s) := by
  unfold queuePush
  split
  · exact sized
  · constructor
    · exact sized.input_size
    · exact sized.inputLen_le
    · simp
    · intro entry member
      rcases mem_append.1 member with old | new
      · exact sized.entries entry old
      · rw [mem_singleton.1 new]
        exact fits

theorem onExecDone_sized (sized : Sized s)
    (fits : data.length ≤ fuzzMaxInput) : Sized (onExecDone target data out s).2 ∧
      (onExecDone target data out s).2.inputLen = s.inputLen ∧
      (onExecDone target data out s).2.log = s.log := by
  unfold onExecDone
  by_cases died : out.termSig ≠ 0
  · by_cases timeout : out.termSig = sigAlrm
    · rw [if_pos died, if_pos timeout]
      exact ⟨⟨sized.input_size, sized.inputLen_le, sized.populated, sized.entries⟩, rfl, rfl⟩
    · have kept : Kept s (minimize target data out.termSig s).state :=
        minimizeSteps_kept target _ _ data 0 s (by rw [sized.input_size]; exact fits)
      have sized' := kept_sized kept sized
      rw [if_pos died, if_neg timeout]
      exact ⟨⟨sized'.input_size, sized'.inputLen_le, sized'.populated, sized'.entries⟩,
        kept.inputLen_eq, kept.log_eq⟩
  · have pushed := queuePush_entries data sized fits
    have frame : (queuePush data s).inputLen = s.inputLen ∧ (queuePush data s).log = s.log := by
      unfold queuePush
      split <;> exact ⟨rfl, rfl⟩
    rw [if_neg died]
    split
    · exact ⟨⟨pushed.input_size, pushed.inputLen_le, pushed.populated, pushed.entries⟩, frame⟩
    · exact ⟨sized, rfl, rfl⟩

theorem faithful_iff (e : Execution) (input : List UInt8) (size : input.length = fuzzMaxInput)
    (inputLen_le : e.inputLen ≤ fuzzMaxInput) (len_le : e.len ≤ fuzzMaxInput)
    (data : ∀ kept ∈ e.recorded, kept.2 = input.take e.len)
    (nothing : e.recorded = [] ↔ stored e.out = false)
    (ran : stored e.out = true → e.dispatched = some (input.take e.inputLen)) :
    Faithful e ↔ InStep e := by
  cases kind : stored e.out with
  | false =>
    have empty := nothing.2 kind
    simp [Faithful, InStep, empty, kind]
  | true =>
    have called := ran kind
    rcases records : e.recorded with - | ⟨first, rest⟩
    · rw [nothing.1 records] at kind
      cases kind
    · constructor
      · intro faithful
        have same := faithful first (by rw [records]; exact .head _)
        rw [called, data first (by rw [records]; exact .head _)] at same
        have lengths := congrArg List.length (Option.some.inj same)
        rw [length_take, length_take, size] at lengths
        exact .inl (by omega)
      · rintro (equal | dropped)
        · intro kept member
          rw [called, data kept member, equal]
        · rw [kind] at dropped
          cases dropped

theorem handle_spec (stage : Stage) {len : Nat} (sized : Sized s) (fits : len ≤ fuzzMaxInput) :
    ∃ e, (runOneAndHandle target stage len s).log = s.log ++ [e] ∧ e.stage = stage ∧
      e.inputLen = s.inputLen ∧ e.len = len ∧ e.out = (runOne target s).1 ∧
      (Faithful e ↔ InStep e) ∧ Sized (runOneAndHandle target stage len s) := by
  have kept := runOne_kept target s
  have ran := kept_sized kept sized
  have counted : Sized { (runOne target s).2 with runs := (runOne target s).2.runs + 1 } :=
    ⟨ran.input_size, ran.inputLen_le, ran.populated, ran.entries⟩
  have short : ((runOne target s).2.input.take len).length ≤ fuzzMaxInput :=
    (length_take_le _ _).trans fits
  have done := onExecDone_sized target ((runOne target s).2.input.take len)
    (runOne target s).1 counted short
  refine ⟨_, congrArg (· ++ [_]) (done.2.2.trans kept.log_eq), rfl, rfl, rfl, rfl, ?_, ?_⟩
  · have recorded := onExecDone_recorded target ((runOne target s).2.input.take len)
      (runOne target s).1 { (runOne target s).2 with runs := (runOne target s).2.runs + 1 }
    apply faithful_iff _ s.input sized.input_size sized.inputLen_le fits
    · intro entry member
      rw [recorded.1 entry member, runOne_input target]
    · exact recorded.2
    · intro kind
      cases started : (target s.execs (dispatchInput s)).started with
      | false =>
        rw [runOne_unstarted target s started] at kind
        cases kind
      | true => rfl
  · exact ⟨done.1.input_size, done.1.inputLen_le, done.1.populated, done.1.entries⟩

end Handle

/-- Every record so far is faithful exactly when it was in step, and those of
the havoc stage are in step. The log begins with `first`. -/
structure Checked (first : List Execution) (s : Fuzz) : Prop where
  sized : Sized s
  records : ∀ e ∈ s.log, (Faithful e ↔ InStep e) ∧ (e.stage = .havoc → e.inputLen = e.len)
  begins : first <+: s.log

section Runs

variable (target : Target) {s : Fuzz} {first : List Execution}

variable (checked : Checked first s)
include checked

theorem handle_checked (stage : Stage) {len : Nat}
    (fits : len ≤ fuzzMaxInput) (synced : stage = .havoc → s.inputLen = len) :
    Checked first (runOneAndHandle target stage len s) := by
  rcases handle_spec target stage checked.sized fits with
    ⟨e, logged, staged, inputLen, length, _, exact_when, sized⟩
  constructor
  · exact sized
  · intro record member
    rw [logged] at member
    rcases mem_append.1 member with old | new
    · exact checked.records record old
    · rw [mem_singleton.1 new]
      constructor
      · exact exact_when
      · intro havoc
        rw [inputLen, length]
        exact synced (staged.symm.trans havoc)
  · rw [logged]
    exact checked.begins.trans (prefix_append _ _)

variable (seed : List UInt8)

theorem seeded_checked (pos : Nat) (v : UInt8) (fits : seed.length ≤ fuzzMaxInput) :
    Checked first { memcpyInput seed s with input := (memcpyInput seed s).input.set pos v } := by
  have size := memcpyInput_size seed s (by rw [checked.sized.input_size]; exact fits)
  constructor
  · constructor
    · simp only [length_set]
      exact size.trans checked.sized.input_size
    · exact checked.sized.inputLen_le
    · exact checked.sized.populated
    · exact checked.sized.entries
  · exact checked.records
  · exact checked.begins

variable (fits : seed.length ≤ fuzzMaxInput)
include fits

theorem perturb_checked (pos : Nat) (edit : UInt8 → UInt8) :
    Checked first (perturb target seed pos edit s) := by
  apply handle_checked target (seeded_checked checked seed pos _ fits) .deterministic fits
  intro other
  cases other

theorem edits_checked (pos : Nat) (edits : List (UInt8 → UInt8)) :
    Checked first (edits.foldl (fun s edit => perturb target seed pos edit s) s) := by
  apply List.foldlRecOn _ _ checked
  intro s checked edit _
  exact perturb_checked target checked seed fits pos edit

theorem positions_checked (positions : List Nat) : Checked first (positions.foldl
      (fun s pos => deterministicEdits.foldl (fun s edit => perturb target seed pos edit s) s) s) := by
  apply List.foldlRecOn _ _ checked
  intro s checked pos _
  exact edits_checked target checked seed fits pos _

theorem growth_checked :
    Checked first (if seed.length + 1 < fuzzMaxInput
      then growthBytes.foldl (fun s v => grow target seed v s) s else s) := by
  split
  · rename_i room
    apply List.foldlRecOn _ _ checked
    intro s checked v _
    apply handle_checked target (seeded_checked checked seed seed.length v fits) .growth (by omega)
    intro other
    cases other
  · exact checked

theorem deterministicStage_checked : Checked first (deterministicStage target seed s) :=
  growth_checked target (positions_checked target checked seed fits _) seed fits

omit fits in
theorem deterministicStage_first (v : UInt8) (rest : List UInt8)
    (fits : (v :: rest).length ≤ fuzzMaxInput) :
    ∃ e, Checked (s.log ++ [e]) (deterministicStage target (v :: rest) s) ∧
      e.inputLen = s.inputLen ∧ e.len = rest.length + 1 ∧ (Faithful e ↔ InStep e) ∧
      ∃ seeded, e.out = (runOne target seeded).1 ∧ seeded.total = s.total := by
  have seeded := seeded_checked checked (v :: rest) 0
    ((fun old => old ^^^ UInt8.ofNat (1 <<< 0)) ((memcpyInput (v :: rest) s).input.getD 0 0)) fits
  rcases handle_spec target .deterministic seeded.sized fits with
    ⟨e, logged, _, inputLen, length, out, exact_when, _⟩
  have after := perturb_checked target checked (v :: rest) fits 0
    (fun old => old ^^^ UInt8.ofNat (1 <<< 0))
  have started : Checked (s.log ++ [e]) (perturb target (v :: rest) 0
      (fun old => old ^^^ UInt8.ofNat (1 <<< 0)) s) :=
    ⟨after.sized, after.records, logged ▸ prefix_rfl⟩
  refine ⟨e, ?_, inputLen, length, exact_when, _, out, rfl⟩
  have edited := edits_checked target started (v :: rest) fits 0 deterministicEdits.tail
  have moved := positions_checked target edited (v :: rest) fits
    ((List.range rest.length).map Nat.succ)
  have whole := growth_checked target moved (v :: rest) fits
  have head_first : ∀ edits : List (UInt8 → UInt8),
      edits.head? = some (fun old => old ^^^ UInt8.ofNat (1 <<< 0)) →
      edits.foldl (fun s edit => perturb target (v :: rest) 0 edit s) s =
        edits.tail.foldl (fun s edit => perturb target (v :: rest) 0 edit s)
          (perturb target (v :: rest) 0 (fun old => old ^^^ UInt8.ofNat (1 <<< 0)) s) := by
    intro edits head
    cases edits with
    | nil => cases head
    | cons edit more => cases head; rfl
  rw [← head_first deterministicEdits rfl] at whole
  simpa only [deterministicStage, length_cons, range_succ_eq_map, foldl_cons]
    using whole

theorem havocOnce_checked :
    ∃ t, havocOnce target seed s = some t ∧ Checked first t := by
  have size := memcpyInput_size seed s (by rw [checked.sized.input_size]; exact fits)
  rcases mutateHavoc_safe s.queue (memcpyInput seed s).input seed.length s.rng
    (size.trans checked.sized.input_size) fits with ⟨m, mutated, bounds⟩
  have ready : Checked first { s with input := m.buf, rng := m.rng, inputLen := m.len } := by
    constructor
    · exact ⟨bounds.buf_size, bounds.len_le, checked.sized.populated, checked.sized.entries⟩
    · exact checked.records
    · exact checked.begins
  apply Exists.intro (runOneAndHandle target .havoc m.len
    { s with input := m.buf, rng := m.rng, inputLen := m.len })
  constructor
  · have drawn : mutateHavoc s.queue (memcpyInput seed s).input seed.length s.rng = some m := mutated
    simp only [havocOnce, memcpyInput] at drawn ⊢
    rw [drawn]
    rfl
  · exact handle_checked target ready .havoc bounds.len_le (fun _ => rfl)

theorem havocStage_checked (left : Nat) :
    ∃ t, havocStage target seed left s = some t ∧ Checked first t := by
  induction left generalizing s with
  | zero => exact ⟨s, rfl, checked⟩
  | succ left ih =>
    rw [havocStage]
    split
    · exact ⟨s, rfl, checked⟩
    · rcases havocOnce_checked target checked seed fits with ⟨next, stepped, checked'⟩
      rw [stepped, Option.bind_some]
      exact ih checked'

omit fits

theorem fuzzTurn_checked (iter : Nat) : ∃ t, fuzzTurn target iter s = some t ∧ Checked first t := by
  have populated := checked.sized.populated
  have inside : iter % s.queue.length < s.queue.length :=
    Nat.mod_lt _ (length_pos_iff.2 populated)
  have fits : (s.queue.getD (iter % s.queue.length) []).length ≤ fuzzMaxInput := by
    rw [getD_eq_getElem?_getD, getElem?_eq_getElem inside, Option.getD_some]
    exact checked.sized.entries _ (getElem_mem inside)
  rw [fuzzTurn, if_neg populated]
  apply havocStage_checked target _ _ fits
  split
  · exact checked
  · apply deterministicStage_checked target _ _ fits
    exact ⟨⟨checked.sized.input_size, checked.sized.inputLen_le, populated, checked.sized.entries⟩,
      checked.records, checked.begins⟩

theorem fuzzLoop_checked (maxIters turns iter : Nat) :
    ∃ t, fuzzLoop target maxIters turns iter s = some t ∧ Checked first t := by
  induction turns generalizing s iter with
  | zero => exact ⟨s, rfl, checked⟩
  | succ turns ih =>
    rw [fuzzLoop]
    split
    · exact ⟨s, rfl, checked⟩
    · rcases fuzzTurn_checked target checked iter with ⟨next, turned, checked'⟩
      rw [turned, Option.bind_some]
      exact ih checked' (iter + 1)

omit checked

theorem fuzzStart_checked (rng : Rng) (files : List (List UInt8)) :
    Checked [] (fuzzStart rng files) := by
  constructor
  · constructor
    · exact length_replicate
    · exact Nat.zero_le _
    · simp only [fuzzStart]
      split <;> simp_all
    · intro entry member
      simp only [fuzzStart] at member
      split at member
      · rw [mem_singleton.1 member]
        decide
      · rcases List.mem_map.1 (mem_of_mem_take member) with ⟨file, _, rfl⟩
        exact length_take_le _ _
  · intro e member
    cases member
  · exact nil_prefix

/-- In every run of the fuzz loop the bytes kept for each execution are the ones
the target was called with, exactly when every execution of the deterministic
and growth stages was in step. -/
theorem fuzz_faithful_iff (target : Target) (rng : Rng) (files : List (List UInt8))
    (maxIters turns : Nat) :
    ∃ s, fuzzLoop target maxIters turns 0 (fuzzStart rng files) = some s ∧
      ((∀ e ∈ s.log, Faithful e) ↔ ∀ e ∈ s.log, e.stage ≠ .havoc → InStep e) := by
  rcases fuzzLoop_checked target (fuzzStart_checked rng files) maxIters turns 0 with
    ⟨s, finished, checked⟩
  refine ⟨s, finished, ?_⟩
  constructor
  · intro faithful e member _
    exact (checked.records e member).1.mp (faithful e member)
  · intro steps e member
    rcases checked.records e member with ⟨exact_when, synced⟩
    apply exact_when.mpr
    by_cases havoc : e.stage = .havoc
    · exact .inl (synced havoc)
    · exact steps e member havoc

def steadyTarget : Target := fun _ _ => ⟨true, .exited 0, [], {1}, false⟩

theorem runOne_steady (s : Fuzz) (fresh : s.total = ∅) :
    stored (runOne steadyTarget s).1 = true := by
  simp [runOne, steadyTarget, stored, fresh]

/-- The first execution of a run over a corpus of one one-byte file: the target
gets no bytes at all, and one byte is kept. -/
theorem fuzz_keeps_other_bytes :
    ¬ ∀ (target : Target) (rng : Rng) (files : List (List UInt8)) (maxIters turns : Nat) (s : Fuzz),
      fuzzLoop target maxIters turns 0 (fuzzStart rng files) = some s →
      ∀ e ∈ s.log, Faithful e := by
  intro faithful
  have start := fuzzStart_checked (fun _ => 0) [[97]]
  have queue : (fuzzStart (fun _ => 0) [[97]]).queue = [[97]] := rfl
  generalize entry : fuzzStart (fun _ => 0) [[97]] = s at start queue
  have marked : Checked [] { s with detDone := fun entry => entry == 0 || s.detDone entry } :=
    ⟨⟨start.sized.input_size, start.sized.inputLen_le, start.sized.populated,
      start.sized.entries⟩, start.records, start.begins⟩
  rcases deterministicStage_first steadyTarget marked 97 [] (by decide) with
    ⟨e, checked, inputLen, length, exact_when, seeded, out, total⟩
  rcases havocStage_checked steadyTarget checked [97] (by decide) maxMutPerBase with
    ⟨t, havoc, checked'⟩
  have todo : s.detDone 0 = false := by rw [← entry]; rfl
  have running : s.stop = false := by rw [← entry]; rfl
  have turned : fuzzTurn steadyTarget 0 s = some t := by
    rw [fuzzTurn, if_neg start.sized.populated]
    simp only [queue, length_singleton, Nat.zero_mod, getD_cons_zero, todo,
      Bool.false_eq_true, if_false]
    rw [queue] at havoc
    exact havoc
  have finished : fuzzLoop steadyTarget 0 1 0 (fuzzStart (fun _ => 0) [[97]]) = some t := by
    rw [entry, fuzzLoop, turned, running]
    rfl
  have member : e ∈ t.log := checked'.begins.subset (by simp)
  have steps := exact_when.mp (faithful _ _ _ _ _ t finished e member)
  rcases steps with same | dropped
  · rw [inputLen, length] at same
    have fresh : s.inputLen = 0 := by rw [← entry]; rfl
    simp [fresh] at same
  · have nothing : s.total = ∅ := by rw [← entry]; rfl
    rw [out, runOne_steady seeded (total.trans nothing)] at dropped
    cases dropped

end Runs

end Lucis.FuzzRunner
