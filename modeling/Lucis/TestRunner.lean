import Lucis.Library.Interleaving
import Mathlib.Data.List.Count
import Mathlib.Data.List.Range

/-!
builtins/test/test_runner.c: the harness process, the test processes it forks and
the pipes between them. A process and its pipe are named by the slot they belong to.
The harness is a program of system calls; its static variables are a record it hands
on. A test writes its text and exits, or dies of a signal at any moment; a pipe is a
FIFO of `cap` bytes. Allocations succeed, no signal interrupts the harness, and colour
is left out of what it prints. The harness waits for its own children only, each once,
and there `waitpid` does not fail; `reapOne` is modelled for the failure as well.
-/

namespace Lucis.TestRunner

open Programs
open Programs.Prog (perform)

def maxCapturedOutput : Nat := 16 * 1024

/-- `char buf[4096]` of `reapOne`. -/
def readSize : Nat := 4096

def sigIll : Nat := 4
def sigAbrt : Nat := 6
def sigBus : Nat := 7
def sigFpe : Nat := 8
def sigKill : Nat := 9
def sigSegv : Nat := 11
def sigAlrm : Nat := 14

inductive OutcomeKind where
  | pass
  | fail
  | skip
  deriving DecidableEq

structure SlotResult where
  kind : OutcomeKind
  detail : String
  output : List UInt8

structure TestSlot where
  name : String
  skipReason : String
  skip : Bool
  expectFail : Bool
  timeoutMs : Int
  running : Bool
  result : SlotResult

/-- What `calloc` leaves in a slot. -/
def TestSlot.zero : TestSlot := ⟨"", "", false, false, 0, false, ⟨.pass, "", []⟩⟩

structure Runner where
  slots : Nat → TestSlot
  total : Nat
  jobs : Int
  verbose : Bool
  passed : Nat
  failed : Nat
  skipped : Nat
  nextToReport : Nat
  runningCount : Int

/-- The arguments of `lucis_test_run` besides the index; the body is the test process. -/
structure Test where
  displayName : Option String
  skip : Bool
  skipReason : Option String
  expectFail : Bool
  timeoutMs : Int

inductive Line where
  | header (total : Nat)
  | echo (bytes : List UInt8)
  | status (tag : OutcomeKind) (name detail : String)
  | summary (passed failed skipped : Nat)
  deriving DecidableEq

/-- A status of `waitpid`: exited, signalled or neither. -/
inductive Status where
  | exited (code : Nat)
  | signaled (sig : Nat)
  | other
  deriving DecidableEq

inductive Syscall where
  | pipe (slot : Nat)
  | fork (slot : Nat)
  | waitpid (slot : Nat) (blocking : Bool)
  /-- the reads of a capture pipe until one returns nothing -/
  | drain (slot : Nat)
  | print (line : Line)
  deriving DecidableEq

inductive Reply where
  | done
  | error
  /-- `waitpid` returned 0 -/
  | still
  | status (status : Status)
  | chunks (read : List (List UInt8))

def Runner.setSlot (r : Runner) (index : Nat) (slot : TestSlot) : Runner :=
  { r with slots := Function.update r.slots index slot }

def Runner.advance (r : Runner) : Runner :=
  { r with nextToReport := r.nextToReport + 1 }

def appendOutput (slot : TestSlot) (buf : List UInt8) : TestSlot :=
  if buf.length = 0 then slot
  else
    let used := slot.result.output.length
    if used ≥ maxCapturedOutput then slot
    else
      let room := maxCapturedOutput - used
      let take := if buf.length < room then buf.length else room
      { slot with result.output := slot.result.output ++ buf.take take }

/-- `spawnJob`: 0 or -1. -/
def spawnJob (index : Nat) (r : Runner) : Prog Syscall Reply (Int × Runner) := do
  match ← perform (.pipe index) with
  | .done =>
    match ← perform (.fork index) with
    | .done => pure (0, r.setSlot index { r.slots index with running := true })
    | _ => pure (-1, r)
  | _ => pure (-1, r)

def sigName (sig : Nat) : String :=
  if sig = sigSegv then "SIGSEGV"
  else if sig = sigAbrt then "SIGABRT"
  else if sig = sigIll then "SIGILL"
  else if sig = sigFpe then "SIGFPE"
  else if sig = sigBus then "SIGBUS"
  else if sig = sigKill then "SIGKILL"
  else "signal"

/-- `childFailed` and the detail of the raw outcome. -/
def rawOutcome (timeoutMs : Int) : Status → Bool × String
  | .exited code => if code = 0 then (false, "") else (true, "exit code " ++ toString code)
  | .signaled sig =>
    if sig = sigAlrm then (true, "timed out after " ++ toString timeoutMs ++ " ms")
    else (true, "crashed (" ++ sigName sig ++ ")")
  | .other => (true, "unknown termination")

/-- The end of `reapOne`: the outcome, after the expected failure is turned around. -/
def decode (slot : TestSlot) (status : Status) : OutcomeKind × String :=
  let (childFailed, detail) := rawOutcome slot.timeoutMs status
  if slot.expectFail then
    if childFailed then (.pass, "") else (.fail, "expected failure but passed")
  else if childFailed then (.fail, detail)
  else (.pass, detail)

def chunksOf : Reply → List (List UInt8)
  | .chunks read => read
  | _ => []

/-- The `status` of `reapOne`, which is 0 until `waitpid` fills it. -/
def statusOf : Reply → Status
  | .status status => status
  | _ => .exited 0

/-- What `reapOne` leaves in the slot of a child that is gone. -/
def settle (slot : TestSlot) (status : Status) (read : List (List UInt8)) : TestSlot :=
  let slot := read.foldl appendOutput { slot with running := false }
  let (kind, detail) := decode slot status
  { slot with result.kind := kind, result.detail := detail }

def reapOne (index : Nat) (blocking : Bool) (r : Runner) : Prog Syscall Reply (Bool × Runner) :=
  if (r.slots index).running then do
    match ← perform (.waitpid index blocking), blocking with
    | .still, false => pure (false, r)
    | waited, _ =>
      let reply ← perform (.drain index)
      let slot := settle (r.slots index) (statusOf waited) (chunksOf reply)
      pure (true, { r.setSlot index slot with runningCount := r.runningCount - 1 })
  else pure (true, r)

def echoOutput (result : SlotResult) : Prog Syscall Reply Unit :=
  if result.output = [] then pure ()
  else do
    let _ ← perform (.print (.echo result.output))
    pure ()

def reportOne (index : Nat) (r : Runner) : Prog Syscall Reply Runner := do
  let slot := r.slots index
  if slot.skip then
    let _ ← perform (.print (.status .skip slot.name slot.skipReason))
    pure { r.setSlot index { slot with result.kind := .skip } with skipped := r.skipped + 1 }
  else if slot.result.kind = .pass then
    let _ ← (if r.verbose then echoOutput slot.result else pure ())
    let _ ← perform (.print (.status .pass slot.name ""))
    pure { r with passed := r.passed + 1 }
  else
    let _ ← (if !r.verbose then echoOutput slot.result else pure ())
    let _ ← perform (.print (.status .fail slot.name slot.result.detail))
    pure { r with failed := r.failed + 1 }

/-- The sweep of `reapThrough` over the `left` slots from `index` on. -/
def sweep : (left : Nat) → (index : Nat) → Runner → Prog Syscall Reply Runner
  | 0, _, r => pure r
  | left + 1, index, r =>
    if r.runningCount > 0 then
      if (r.slots index).running then do
        let (_, r) ← reapOne index false r
        sweep left (index + 1) r
      else sweep left (index + 1) r
    else pure r

/-- The loop of `reapThrough`, for at most `left` rounds. -/
def reapRounds : (left : Nat) → (index : Nat) → Runner → Prog Syscall Reply Runner
  | 0, _, r => pure r
  | left + 1, index, r =>
    if r.nextToReport ≤ index ∧ r.nextToReport < r.total then
      if (r.slots r.nextToReport).skip then do
        let r ← reportOne r.nextToReport r
        reapRounds left index r.advance
      else if !(r.slots r.nextToReport).running then pure r
      else do
        let r ← sweep (r.total - r.nextToReport) r.nextToReport r
        let (_, r) ← (if (r.slots r.nextToReport).running then reapOne r.nextToReport true r
          else pure (true, r))
        let r ← reportOne r.nextToReport r
        reapRounds left index r.advance
    else pure r

/-- Each round reports a slot, so the guard of the loop fails when the rounds are over. -/
def reapThrough (index : Nat) (r : Runner) : Prog Syscall Reply Runner :=
  reapRounds (index + 1 - r.nextToReport) index r

def reportRounds : (left : Nat) → (index : Nat) → Runner → Prog Syscall Reply Runner
  | 0, _, r => pure r
  | left + 1, index, r =>
    if r.nextToReport ≤ index ∧ r.nextToReport < r.total then
      if !(r.slots r.nextToReport).skip && (r.slots r.nextToReport).running then pure r
      else do
        let r ← reportOne r.nextToReport r
        reportRounds left index r.advance
    else pure r

def reportThrough (index : Nat) (r : Runner) : Prog Syscall Reply Runner :=
  reportRounds (index + 1 - r.nextToReport) index r

/-- `lucis_test_begin` in a fresh process, where the counters are zero. -/
def lucis_test_begin (total jobs : Int) (verbose : Bool) :
    Prog Syscall Reply (Int × Runner) := do
  let total := if total < 0 then 0 else total
  let jobs := if jobs < 1 then 1 else jobs
  let jobs := if jobs > total then total else jobs
  let jobs := if jobs < 1 then 1 else jobs
  let _ ← (if total > 0 then perform (.print (.header total.toNat)) else pure .done)
  pure (0, ⟨fun _ => .zero, total.toNat, jobs, verbose, 0, 0, 0, 0, 0⟩)

def filled (slot : TestSlot) (test : Test) : TestSlot :=
  { slot with
    name := test.displayName.getD "test"
    skipReason := test.skipReason.getD ""
    skip := test.skip
    expectFail := test.expectFail
    timeoutMs := test.timeoutMs }

def lucis_test_run (index : Nat) (test : Test) (r : Runner) :
    Prog Syscall Reply (Int × Runner) := do
  if index ≥ r.total then pure (1, r)
  else
    let r := r.setSlot index (filled (r.slots index) test)
    if (r.slots index).skip then
      let r ← reportThrough index r
      pure (0, r)
    else
      let (spawned, r) ← spawnJob index r
      if spawned ≠ 0 then
        let slot := r.slots index
        let r := r.setSlot index
          { slot with result.kind := .fail, result.detail := "harness error (fork failed)" }
        let r ← reportThrough index r
        pure (0, r)
      else
        let r := { r with runningCount := r.runningCount + 1 }
        if r.jobs = 1 then
          let r ← reapThrough index r
          pure (0, r)
        else if r.runningCount ≥ r.jobs then
          let r ← reapThrough index r
          pure (0, r)
        else pure (0, r)

/-- The loop of `lucis_test_end` over the `left` slots not reported yet. -/
def reapRest : (left : Nat) → Runner → Prog Syscall Reply Runner
  | 0, r => pure r
  | left + 1, r => do
      let slot := r.slots r.nextToReport
      let (_, r) ← (if !slot.skip && slot.running then reapOne r.nextToReport true r
        else pure (true, r))
      let r ← reportOne r.nextToReport r
      reapRest left r.advance

def lucis_test_end (r : Runner) : Prog Syscall Reply (Int × Runner) := do
  let r ← reapRest (r.total - r.nextToReport) r
  let _ ← (if r.total > 0 then perform (.print (.summary r.passed r.failed r.skipped))
    else pure .done)
  pure (if r.failed > 0 then 1 else 0, r)

/-- The calls of the generated `main`, from the one for test `index` on. -/
def runTests : (index : Nat) → List Test → Runner → Prog Syscall Reply Runner
  | _, [], r => pure r
  | index, test :: rest, r => do
      let (_, r) ← lucis_test_run index test r
      runTests (index + 1) rest r

def testMain (tests : List Test) (jobs : Int) (verbose : Bool) :
    Prog Syscall Reply (Int × Runner) := do
  let (_, r) ← lucis_test_begin tests.length jobs verbose
  let r ← runTests 0 tests r
  lucis_test_end r

/-! The kernel and the test processes. -/

inductive Phase where
  | running
  | dead (status : Status)
  deriving DecidableEq

structure Child where
  phase : Phase
  /-- what the test has still to write -/
  pending : List UInt8
  /-- what it has written -/
  written : List UInt8
  pipe : List UInt8
  reaped : Bool
  deriving DecidableEq

structure Os where
  children : Nat → Option Child
  stdout : List Line
  /-- the slots whose `pipe` or `fork` failed -/
  refused : List Nat

def Os.start : Os := ⟨fun _ => none, [], []⟩

def Os.setChild (os : Os) (slot : Nat) (child : Child) : Os :=
  { os with children := Function.update os.children slot (some child) }

def Os.refuse (os : Os) (slot : Nat) : Os :=
  { os with refused := slot :: os.refused }

/-- The process of a test that will write `text`. -/
def Child.forked (text : List UInt8) : Child := ⟨.running, text, [], [], false⟩

/-- What one system call answers and leaves behind; `text` says what each test writes. -/
inductive Performs (text : Nat → List UInt8) : Syscall → Os → Reply → Os → Prop where
  | pipe (slot os) : Performs text (.pipe slot) os .done os
  | noPipe (slot os) : Performs text (.pipe slot) os .error (os.refuse slot)
  | fork (slot os) : Performs text (.fork slot) os .done (os.setChild slot (.forked (text slot)))
  | noFork (slot os) : Performs text (.fork slot) os .error (os.refuse slot)
  | waitpid (slot blocking os child status) (found : os.children slot = some child)
      (dead : child.phase = .dead status) (unreaped : child.reaped = false) :
      Performs text (.waitpid slot blocking) os (.status status)
        (os.setChild slot { child with reaped := true })
  | wnohang (slot os child) (found : os.children slot = some child)
      (running : child.phase = .running) :
      Performs text (.waitpid slot false) os .still os
  | drain (slot os child read) (found : os.children slot = some child)
      (dead : child.phase ≠ .running) (all : read.flatten = child.pipe)
      (some_bytes : ∀ chunk ∈ read, chunk ≠ []) (fits : ∀ chunk ∈ read, chunk.length ≤ readSize) :
      Performs text (.drain slot) os (.chunks read) (os.setChild slot { child with pipe := [] })
  | print (line os) :
      Performs text (.print line) os .done { os with stdout := os.stdout ++ [line] }

inductive ChildStep (cap : Nat) : Child → Child → Prop where
  | write (child chunk rest) (running : child.phase = .running)
      (next : child.pending = chunk ++ rest) (some_bytes : chunk ≠ [])
      (room : child.pipe.length + chunk.length ≤ cap) :
      ChildStep cap child { child with
        pending := rest, written := child.written ++ chunk, pipe := child.pipe ++ chunk }
  | exit (child code) (running : child.phase = .running) (all : child.pending = []) :
      ChildStep cap child { child with phase := .dead (.exited code) }
  | crash (child sig) (running : child.phase = .running) :
      ChildStep cap child { child with phase := .dead (.signaled sig) }

inductive Drift (cap : Nat) : Os → Os → Prop where
  | child (os slot child after) (found : os.children slot = some child)
      (step : ChildStep cap child after) : Drift cap os (os.setChild slot after)

def world (cap : Nat) (text : Nat → List UInt8) : World Syscall Reply Os :=
  ⟨Performs text, Drift cap⟩

end Lucis.TestRunner
