import Lucis.FuzzRunner

/-!
Executions of the fuzz loop against its budget `--iters` and its stop flag. The loop
tests both in front of a turn and the flag in front of a havoc iteration; the
deterministic stage and `minimize` test neither. What a run does to the flag and the
counters is the list of its events, in order.
-/

namespace Lucis.FuzzBudget

open FuzzRunner FuzzMutators FuzzPipe List

inductive Event where
  /-- `runOne` starts; `interrupted` if a stop signal is handled meanwhile -/
  | started (interrupted : Bool)
  /-- `g_runs += 1` -/
  | counted
  /-- `g_crashes += 1; if (g_crashes >= 10) g_stop = 1;` -/
  | crashed
  deriving DecidableEq

structure Flags where
  runs : Nat
  crashes : Nat
  stop : Bool

def play (f : Flags) : Event → Flags
  | .started interrupted => { f with stop := f.stop || interrupted }
  | .counted => { f with runs := f.runs + 1 }
  | .crashed => { f with crashes := f.crashes + 1, stop := f.stop || decide (f.crashes + 1 ≥ 10) }

/-- At most `N` executions are counted, and none starts once the flag is set. -/
def Orderly (N : Nat) : Flags → List Event → Prop
  | f, [] => f.runs ≤ N
  | f, event :: events =>
    f.runs ≤ N ∧ (∀ interrupted, event = .started interrupted → f.stop = false) ∧
      Orderly N (play f event) events

/-- Before the last execution starts no signal arrives, and fewer than ten crashes are
recorded. -/
def Undisturbed (crashes : Nat) (events : List Event) : Prop :=
  ∀ front interrupted back, events = front ++ .started interrupted :: back →
    Event.started true ∉ front ∧ crashes + front.count .crashed < 10

section Flags

variable {N : Nat} {f : Flags}

def Flags.Sound (f : Flags) : Prop := 10 ≤ f.crashes → f.stop = true

theorem play_sound (sound : f.Sound) (event : Event) : (play f event).Sound := by
  cases event with
  | started interrupted =>
    intro ten
    simp only [play, sound ten, Bool.true_or]
  | counted => exact sound
  | crashed =>
    intro ten
    have reached : decide (f.crashes + 1 ≥ 10) = true := decide_eq_true ten
    simp only [play, reached, Bool.or_true]

variable (events : List Event)
include events

theorem plays_sound (sound : f.Sound) : (events.foldl play f).Sound := by
  induction events generalizing f with
  | nil => exact sound
  | cons event _ ih => exact ih (play_sound sound event)

theorem plays_runs (f : Flags) :
    (events.foldl play f).runs = f.runs + events.count .counted := by
  induction events generalizing f with
  | nil => rfl
  | cons event events ih =>
    rw [foldl_cons, ih, count_cons]
    cases event with
    | started interrupted => simp [play]
    | counted => simp only [play, beq_self_eq_true, if_true]; omega
    | crashed => simp [play]

omit events in
theorem orderly_append (first second : List Event) (f : Flags) :
    Orderly N f (first ++ second) ↔ Orderly N f first ∧ Orderly N (first.foldl play f) second := by
  induction first generalizing f with
  | nil =>
    simp only [nil_append, Orderly, foldl_nil]
    constructor
    · intro orderly
      refine ⟨?_, orderly⟩
      cases second with
      | nil => exact orderly
      | cons event events => exact orderly.1
    · exact And.right
  | cons event first ih =>
    rw [cons_append, Orderly, Orderly, ih, foldl_cons, and_assoc, and_assoc]

theorem plays_stop (stop : f.stop = true) :
    (events.foldl play f).stop = true := by
  induction events generalizing f with
  | nil => exact stop
  | cons event _ ih =>
    apply ih
    cases event <;> simp [play, stop]

theorem plays_clear_iff (sound : f.Sound) (clear : f.stop = false) :
    (events.foldl play f).stop = false ↔
      Event.started true ∉ events ∧ f.crashes + events.count .crashed < 10 := by
  induction events generalizing f with
  | nil =>
    have few : f.crashes < 10 := by
      by_contra many
      rw [sound (by omega)] at clear
      cases clear
    simp [clear, few]
  | cons event events ih =>
    have sound' := play_sound sound event
    rw [foldl_cons]
    cases event with
    | started interrupted =>
      cases interrupted with
      | false =>
        rw [ih sound' (by simp [play, clear])]
        simp [play]
      | true =>
        have stopped := plays_stop (f := play f (.started true)) events (by simp [play])
        simp [stopped]
    | counted =>
      rw [ih sound' (by simp [play, clear])]
      simp [play]
    | crashed =>
      rw [count_cons_self]
      by_cases tenth : f.crashes + 1 ≥ 10
      · have stopped := plays_stop (f := play f .crashed) events (by simp [play, tenth])
        simp only [stopped, Bool.true_eq_false, false_iff, not_and]
        omega
      · rw [ih sound' (by simp [play, clear, tenth])]
        simp only [play, mem_cons, reduceCtorEq, false_or]
        rw [add_assoc, add_comm 1]

theorem orderly_iff_clear (f : Flags) :
    Orderly N f events ↔ (events.foldl play f).runs ≤ N ∧
      ∀ front interrupted back, events = front ++ .started interrupted :: back →
        (front.foldl play f).stop = false := by
  induction events generalizing f with
  | nil => simp [Orderly]
  | cons event events ih =>
    rw [Orderly, ih, foldl_cons]
    constructor
    · rintro ⟨_, here, runs, later⟩
      refine ⟨runs, ?_⟩
      intro front interrupted back split
      cases front with
      | nil =>
        cases split
        exact here interrupted rfl
      | cons first front =>
        cases split
        exact later front interrupted back rfl
    · rintro ⟨runs, clear⟩
      refine ⟨?_, ?_, runs, ?_⟩
      · -- counters do not go down
        have grown := plays_runs (event :: events) f
        rw [foldl_cons] at grown
        omega
      · intro interrupted same
        exact clear [] interrupted events (by rw [same]; rfl)
      · intro front interrupted back split
        exact clear (event :: front) interrupted back (by rw [split]; rfl)

theorem orderly_iff (sound : f.Sound) (clear : f.stop = false) :
    Orderly N f events ↔ f.runs + events.count .counted ≤ N ∧ Undisturbed f.crashes events := by
  rw [orderly_iff_clear, plays_runs]
  constructor
  · rintro ⟨runs, each⟩
    refine ⟨runs, ?_⟩
    intro front interrupted back split
    exact (plays_clear_iff front sound clear).1 (each front interrupted back split)
  · rintro ⟨runs, quiet⟩
    refine ⟨runs, ?_⟩
    intro front interrupted back split
    exact (plays_clear_iff front sound clear).2 (quiet front interrupted back split)

end Flags

/-! The events of the runner's functions, each beside the function it follows. -/

section Events

variable (target : Target)

/-- The execution that `runOne` starts. -/
def runOneEvent (s : Fuzz) : Event :=
  .started (target s.execs (dispatchInput s)).interrupted

def reproducesEvent (data : List UInt8) (s : Fuzz) : Event :=
  runOneEvent target { memcpyInput data s with inputLen := data.length }

def minimizeScanEvents (sig step : Nat) (positive : 0 < step) (buf : List UInt8) (pos : Nat)
    (s : Fuzz) : List Event :=
  if _ : pos < buf.length then
    let stop := min (pos + step) buf.length
    if buf.length - (stop - pos) = 0 then minimizeScanEvents sig step positive buf stop s
    else
      let tmp := buf.take pos ++ buf.drop stop
      let run := reproduces target tmp sig s
      reproducesEvent target tmp s ::
        if run.1 then minimizeScanEvents sig step positive tmp pos run.2
        else minimizeScanEvents sig step positive buf stop run.2
  else []
termination_by buf.length - pos
decreasing_by
  · omega
  · simp only [List.length_append, List.length_take, List.length_drop]
    omega
  · omega

def minimizePassesEvents (sig step : Nat) (positive : 0 < step) (buf : List UInt8)
    (reductions : Nat) (s : Fuzz) : List Event :=
  let out := minimizeScan target sig step positive buf 0 reductions false s
  minimizeScanEvents target sig step positive buf 0 s ++
    if _ : out.changed = true then
      minimizePassesEvents sig step positive out.buf out.reductions out.state
    else []
termination_by buf.length
decreasing_by
  have shrunk := (minimizeScan_shrinks target sig step positive buf 0 reductions false s).2 ‹_›
  simpa using shrunk

def minimizeStepsEvents (sig step : Nat) (buf : List UInt8) (reductions : Nat) (s : Fuzz) :
    List Event :=
  if positive : 0 < step then
    let out := minimizePasses target sig step positive buf reductions s
    minimizePassesEvents target sig step positive buf reductions s ++
      minimizeStepsEvents sig (step / 2) out.buf out.reductions out.state
  else []
termination_by step
decreasing_by omega

def minimizeEvents (data : List UInt8) (sig : Nat) (s : Fuzz) : List Event :=
  minimizeStepsEvents target sig (data.length / 2) data 0 s

def onExecDoneEvents (data : List UInt8) (out : ExecResult) (s : Fuzz) : List Event :=
  if out.termSig ≠ 0 ∧ out.termSig ≠ sigAlrm then
    minimizeEvents target data out.termSig s ++ [.crashed]
  else []

def handleEvents (len : Nat) (s : Fuzz) : List Event :=
  let run := runOne target s
  let after := { run.2 with runs := run.2.runs + 1 }
  [runOneEvent target s, .counted] ++ onExecDoneEvents target (after.input.take len) run.1 after

def perturbEvents (seed : List UInt8) (pos : Nat) (edit : UInt8 → UInt8) (s : Fuzz) :
    List Event :=
  let s := memcpyInput seed s
  handleEvents target seed.length { s with input := s.input.set pos (edit (s.input.getD pos 0)) }

def growEvents (seed : List UInt8) (v : UInt8) (s : Fuzz) : List Event :=
  let s := memcpyInput seed s
  handleEvents target (seed.length + 1) { s with input := s.input.set seed.length v }

def loopEvents {α : Type} (run : Fuzz → α → Fuzz) (events : Fuzz → α → List Event) :
    List α → Fuzz → List Event
  | [], _ => []
  | x :: rest, s => events s x ++ loopEvents run events rest (run s x)

def deterministicEvents (seed : List UInt8) (s : Fuzz) : List Event :=
  let edits (s : Fuzz) (pos : Nat) : Fuzz :=
    deterministicEdits.foldl (fun s edit => perturb target seed pos edit s) s
  loopEvents edits
      (fun s pos => loopEvents (fun s edit => perturb target seed pos edit s)
        (fun s edit => perturbEvents target seed pos edit s) deterministicEdits s)
      (List.range seed.length) s ++
    if seed.length + 1 < fuzzMaxInput then
      loopEvents (fun s v => grow target seed v s) (fun s v => growEvents target seed v s)
        growthBytes ((List.range seed.length).foldl edits s)
    else []

def havocEvents (seed : List UInt8) (s : Fuzz) : List Event :=
  let s := { memcpyInput seed s with inputLen := seed.length }
  match mutateHavoc s.queue s.input s.inputLen s.rng with
  | none => []
  | some m => handleEvents target m.len { s with input := m.buf, rng := m.rng, inputLen := m.len }

end Events

def flags (s : Fuzz) : Flags := ⟨s.runs, s.crashes, s.stop⟩

def Leads (s t : Fuzz) (events : List Event) : Prop :=
  flags t = events.foldl play (flags s)

section Leads

variable (target : Target) {s t u : Fuzz} {first second : List Event}

theorem Leads.trans (left : Leads s t first) (right : Leads t u second) :
    Leads s u (first ++ second) := by
  rw [Leads, foldl_append, ← left]
  exact right

theorem runOne_leads (s : Fuzz) : Leads s (runOne target s).2 [runOneEvent target s] := by
  unfold runOne
  by_cases started : (target s.execs (dispatchInput s)).started = true
  · simp only [started, if_true]
    cases (target s.execs (dispatchInput s)).status <;> rfl
  · simp only [started, if_false, Bool.false_eq_true]
    rfl

variable (data : List UInt8)

theorem reproduces_leads (sig : Nat) (s : Fuzz) :
    Leads s (reproduces target data sig s).2 [reproducesEvent target data s] :=
  runOne_leads target { memcpyInput data s with inputLen := data.length }

theorem minimizeScanEvents_part {sig step : Nat} {positive : 0 < step} {buf : List UInt8}
    {pos : Nat} {s : Fuzz} (inside : pos < buf.length)
    (part : buf.length - (min (pos + step) buf.length - pos) ≠ 0) :
    minimizeScanEvents target sig step positive buf pos s =
      let stop := min (pos + step) buf.length
      let tmp := buf.take pos ++ buf.drop stop
      let run := reproduces target tmp sig s
      [reproducesEvent target tmp s] ++
        if run.1 then minimizeScanEvents target sig step positive tmp pos run.2
        else minimizeScanEvents target sig step positive buf stop run.2 := by
  rw [minimizeScanEvents, dif_pos inside, if_neg part]
  rfl

theorem minimizeScan_leads (sig step : Nat) (positive : 0 < step) (buf : List UInt8)
    (pos reductions : Nat) (changed : Bool) (s : Fuzz) :
    Leads s (minimizeScan target sig step positive buf pos reductions changed s).state
      (minimizeScanEvents target sig step positive buf pos s) := by
  fun_induction minimizeScan target sig step positive buf pos reductions changed s with
  | case1 buf pos reductions changed s inside stop whole ih =>
    rw [minimizeScanEvents, dif_pos inside, if_pos whole]
    exact ih
  | case2 buf pos reductions changed s inside _ part tmp run same ih =>
    rw [minimizeScanEvents_part target inside part]
    dsimp only
    rw [if_pos same]
    exact (reproduces_leads target tmp sig s).trans ih
  | case3 buf pos reductions changed s inside stop part tmp run other ih =>
    rw [minimizeScanEvents_part target inside part]
    dsimp only
    rw [if_neg other]
    exact (reproduces_leads target tmp sig s).trans ih
  | case4 buf pos reductions changed s outside =>
    rw [minimizeScanEvents, dif_neg outside]
    rfl

theorem minimizePasses_leads (sig step : Nat) (positive : 0 < step) (buf : List UInt8)
    (reductions : Nat) (s : Fuzz) :
    Leads s (minimizePasses target sig step positive buf reductions s).state
      (minimizePassesEvents target sig step positive buf reductions s) := by
  fun_induction minimizePasses target sig step positive buf reductions s with
  | case1 buf reductions s out again ih =>
    rw [minimizePassesEvents, dif_pos again]
    exact (minimizeScan_leads target sig step positive buf 0 reductions false s).trans ih
  | case2 buf reductions s out steady =>
    rw [minimizePassesEvents, dif_neg steady, append_nil]
    exact minimizeScan_leads target sig step positive buf 0 reductions false s

theorem minimizeSteps_leads (sig step : Nat) (buf : List UInt8) (reductions : Nat) (s : Fuzz) :
    Leads s (minimizeSteps target sig step buf reductions s).state
      (minimizeStepsEvents target sig step buf reductions s) := by
  fun_induction minimizeSteps target sig step buf reductions s with
  | case1 step buf reductions s positive out ih =>
    rw [minimizeStepsEvents, dif_pos positive]
    exact (minimizePasses_leads target sig step positive buf reductions s).trans ih
  | case2 step buf reductions s done =>
    rw [minimizeStepsEvents, dif_neg done]
    rfl

theorem onExecDone_leads (out : ExecResult) (s : Fuzz) :
    Leads s (onExecDone target data out s).2 (onExecDoneEvents target data out s) := by
  unfold onExecDone onExecDoneEvents
  by_cases died : out.termSig ≠ 0
  · by_cases timeout : out.termSig = sigAlrm
    · rw [if_pos died, if_pos timeout, if_neg (fun both => both.2 timeout)]
      rfl
    · rw [if_pos died, if_neg timeout, if_pos ⟨died, timeout⟩]
      exact (minimizeSteps_leads target out.termSig (data.length / 2) data 0 s).trans rfl
  · have quiet : ¬ (out.termSig ≠ 0 ∧ out.termSig ≠ sigAlrm) := fun both => died both.1
    rw [if_neg died, if_neg quiet]
    split
    · -- the queue is no part of the flags
      unfold queuePush
      split <;> rfl
    · rfl

theorem handle_leads (stage : Stage) (len : Nat) (s : Fuzz) :
    Leads s (runOneAndHandle target stage len s) (handleEvents target len s) := by
  have ran : Leads s { (runOne target s).2 with runs := (runOne target s).2.runs + 1 }
      [runOneEvent target s, .counted] := by
    have counted : Leads (runOne target s).2
        { (runOne target s).2 with runs := (runOne target s).2.runs + 1 } [.counted] := rfl
    exact (runOne_leads target s).trans counted
  exact ran.trans (onExecDone_leads target _ _ _)

variable (seed : List UInt8)

theorem perturb_leads (pos : Nat) (edit : UInt8 → UInt8) (s : Fuzz) :
    Leads s (perturb target seed pos edit s) (perturbEvents target seed pos edit s) :=
  handle_leads target _ _ _

theorem grow_leads (v : UInt8) (s : Fuzz) :
    Leads s (grow target seed v s) (growEvents target seed v s) :=
  handle_leads target _ _ _

theorem loop_leads {α : Type} {run} {events}
    (each : ∀ s x, Leads s (run s x) (events s x)) (entries : List α) (s : Fuzz) :
    Leads s (entries.foldl run s) (loopEvents run events entries s) := by
  induction entries generalizing s with
  | nil => rfl
  | cons x entries ih => exact (each s x).trans (ih (run s x))

theorem deterministic_leads (s : Fuzz) :
    Leads s (deterministicStage target seed s) (deterministicEvents target seed s) := by
  unfold deterministicStage deterministicEvents
  have positions := loop_leads
    (fun s pos => loop_leads (fun s edit => perturb_leads target seed pos edit s) deterministicEdits s)
    (List.range seed.length) s
  by_cases room : seed.length + 1 < fuzzMaxInput
  · simp only [if_pos room]
    exact positions.trans (loop_leads (fun s v => grow_leads target seed v s) growthBytes _)
  · simp only [if_neg room, append_nil]
    exact positions

theorem havoc_leads {s t : Fuzz} (turned : havocOnce target seed s = some t) :
    Leads s t (havocEvents target seed s) := by
  unfold havocOnce at turned
  rcases Option.map_eq_some_iff.1 turned with ⟨m, mutated, rfl⟩
  unfold havocEvents
  simp only [mutated]
  exact handle_leads target _ _ _

end Leads

/-! How many executions are counted. -/

section Counts

variable (target : Target)

theorem minimizeScan_uncounted (sig step : Nat) (positive : 0 < step) (buf : List UInt8) (pos : Nat)
    (s : Fuzz) : Event.counted ∉ minimizeScanEvents target sig step positive buf pos s := by
  fun_induction minimizeScanEvents target sig step positive buf pos s with
  | case1 _ _ s _ _ _ ih => exact ih
  | case2 buf pos s _ stop _ tmp run shorter kept =>
    simp only [mem_cons, not_or]
    refine ⟨Event.noConfusion, ?_⟩
    split
    · exact shorter
    · exact kept
  | case3 _ _ s _ => exact not_mem_nil

theorem minimizePasses_uncounted (sig step : Nat) (positive : 0 < step) (buf : List UInt8)
    (reductions : Nat) (s : Fuzz) :
    Event.counted ∉ minimizePassesEvents target sig step positive buf reductions s := by
  fun_induction minimizePassesEvents target sig step positive buf reductions s with
  | case1 buf reductions s out ih =>
    simp only [mem_append, not_or]
    refine ⟨minimizeScan_uncounted target sig step positive buf 0 s, ?_⟩
    split
    · rename_i again
      exact ih again
    · exact not_mem_nil

/-- The executions of `minimize` are not counted. -/
theorem minimizeSteps_uncounted (sig step : Nat) (buf : List UInt8) (reductions : Nat) (s : Fuzz) :
    Event.counted ∉ minimizeStepsEvents target sig step buf reductions s := by
  fun_induction minimizeStepsEvents target sig step buf reductions s with
  | case1 step buf reductions s positive out ih =>
    simp only [mem_append, not_or]
    exact ⟨minimizePasses_uncounted target sig step positive buf reductions s, ih⟩
  | case2 _ _ _ s _ => exact not_mem_nil

theorem handle_counts (len : Nat) (s : Fuzz) : (handleEvents target len s).count .counted = 1 := by
  have kept : ∀ data out s, (onExecDoneEvents target data out s).count .counted = 0 := by
    intro data out s
    unfold onExecDoneEvents
    split
    · have minimized := minimizeSteps_uncounted target out.termSig (data.length / 2) data 0 s
      simp [minimizeEvents, count_append, count_eq_zero.2 minimized]
    · rfl
  simp [handleEvents, kept, runOneEvent]

theorem loop_counts {α : Type} {run} {events} {k : Nat}
    (each : ∀ s x, (events s x).count .counted = k) (entries : List α) (s : Fuzz) :
    (loopEvents run events entries s).count .counted = entries.length * k := by
  induction entries generalizing s with
  | nil => simp [loopEvents]
  | cons x entries ih =>
    rw [loopEvents, count_append, each, ih, length_cons, Nat.succ_mul, add_comm]

def deterministicCount (len : Nat) : Nat :=
  len * deterministicEdits.length + if len + 1 < fuzzMaxInput then growthBytes.length else 0

example : deterministicCount 1 = 87 := by decide

variable (seed : List UInt8)

theorem deterministic_counts (s : Fuzz) :
    (deterministicEvents target seed s).count .counted = deterministicCount seed.length := by
  have positions : ∀ run : Fuzz → Nat → Fuzz,
      (loopEvents run
        (fun s pos => loopEvents (fun s edit => perturb target seed pos edit s)
          (fun s edit => perturbEvents target seed pos edit s) deterministicEdits s)
        (List.range seed.length) s).count .counted = seed.length * deterministicEdits.length := by
    intro run
    rw [loop_counts (k := deterministicEdits.length), length_range]
    intro s pos
    rw [loop_counts (k := 1), mul_one]
    exact fun s edit => handle_counts target _ _
  have growth : ∀ s, (loopEvents (fun s v => grow target seed v s)
      (fun s v => growEvents target seed v s) growthBytes s).count .counted = growthBytes.length := by
    intro s
    rw [loop_counts (k := 1), mul_one]
    exact fun s v => handle_counts target _ _
  unfold deterministicEvents deterministicCount
  rw [count_append, positions]
  split
  · rw [growth]
  · rfl

theorem havoc_counts {s t : Fuzz} (turned : havocOnce target seed s = some t) :
    (havocEvents target seed s).count .counted = 1 := by
  unfold havocOnce at turned
  rcases Option.map_eq_some_iff.1 turned with ⟨m, mutated, _⟩
  unfold havocEvents
  simp only [mutated]
  exact handle_counts target _ _

end Counts

/-! A run is a sequence of deterministic stages and havoc iterations. -/

inductive Step where
  | deterministic (seed : List UInt8) (before : Fuzz)
  | havoc (seed : List UInt8) (before : Fuzz)

namespace Step

def before : Step → Fuzz
  | .deterministic _ s => s
  | .havoc _ s => s

def events (target : Target) : Step → List Event
  | .deterministic seed s => deterministicEvents target seed s
  | .havoc seed s => havocEvents target seed s

def executions : Step → Nat
  | .deterministic seed _ => deterministicCount seed.length
  | .havoc _ _ => 1

/-- The step's executions are left in the budget, and up to its last execution no signal
arrives and fewer than ten crashes are recorded. -/
structure Meets (target : Target) (N : Nat) (step : Step) : Prop where
  budget : step.before.runs + step.executions ≤ N
  undisturbed : Undisturbed step.before.crashes (step.events target)

end Step

section Runs

variable (target : Target)

def havocSteps (seed : List UInt8) : Nat → Fuzz → List Step
  | 0, _ => []
  | left + 1, s =>
    if s.stop then []
    else
      match havocOnce target seed s with
      | none => []
      | some t => .havoc seed s :: havocSteps seed left t

def turnSteps (iter : Nat) (s : Fuzz) : List Step :=
  if s.queue = [] then []
  else
    let base := iter % s.queue.length
    let seed := s.queue.getD base []
    if s.detDone base then havocSteps target seed maxMutPerBase s
    else
      let s := { s with detDone := fun entry => entry == base || s.detDone entry }
      .deterministic seed s ::
        havocSteps target seed maxMutPerBase (deterministicStage target seed s)

def fuzzSteps (maxIters : Nat) : Nat → Nat → Fuzz → List Step
  | 0, _, _ => []
  | turns + 1, iter, s =>
    if s.stop || (maxIters != 0 && decide (maxIters ≤ s.runs)) then []
    else
      turnSteps target iter s ++
        match fuzzTurn target iter s with
        | none => []
        | some t => fuzzSteps maxIters turns (iter + 1) t

end Runs

section Exact

variable {target : Target} {N : Nat} {s t u : Fuzz}

/-- The steps lead from one state to the other, and keep to the budget and the flag just
if each of them meets its condition. -/
structure Exact (target : Target) (N : Nat) (s t : Fuzz) (steps : List Step) : Prop where
  leads : Leads s t (steps.flatMap (Step.events target))
  orderly : s.runs ≤ N → (Orderly N (flags s) (steps.flatMap (Step.events target)) ↔
    ∀ step ∈ steps, step.Meets target N)

theorem Exact.nil : Exact target N s s [] where
  leads := rfl
  orderly within := by simpa [Orderly, flags] using within

theorem Exact.append {first second : List Step} (left : Exact target N s t first)
    (right : Exact target N t u second) : Exact target N s u (first ++ second) where
  leads := by
    rw [flatMap_append]
    exact left.leads.trans right.leads
  orderly within := by
    rw [flatMap_append, orderly_append, ← left.leads, left.orderly within, forall_mem_append]
    -- the first part leaves the budget in place
    have kept (met : ∀ step ∈ first, step.Meets target N) : t.runs ≤ N := by
      have runs := ((orderly_iff_clear _ _).1 ((left.orderly within).2 met)).1
      rw [← left.leads] at runs
      exact runs
    exact and_congr_right fun met => right.orderly (kept met)

theorem Exact.step (step : Step) (sound : (flags step.before).Sound)
    (clear : step.before.stop = false) (leads : Leads step.before t (step.events target))
    (counts : (step.events target).count .counted = step.executions) :
    Exact target N step.before t [step] where
  leads := by simpa using leads
  orderly _ := by
    simp only [flatMap_cons, flatMap_nil, append_nil, mem_singleton, forall_eq]
    rw [orderly_iff _ sound clear, counts]
    exact ⟨fun both => ⟨both.1, both.2⟩, fun met => ⟨met.budget, met.undisturbed⟩⟩

theorem Exact.sound {steps : List Step} (run : Exact target N s t steps)
    (sound : (flags s).Sound) : (flags t).Sound := by
  rw [run.leads]
  exact plays_sound _ sound

theorem havocStage_exact (seed : List UInt8) (left : Nat) (sound : (flags s).Sound)
    (ran : havocStage target seed left s = some t) :
    Exact target N s t (havocSteps target seed left s) := by
  induction left generalizing s with
  | zero =>
    cases ran
    exact .nil
  | succ left ih =>
    rw [havocStage] at ran
    rw [havocSteps]
    cases stop : s.stop with
    | true =>
      rw [stop] at ran
      cases ran
      exact .nil
    | false =>
      simp only [stop, Bool.false_eq_true, if_false] at ran ⊢
      rcases Option.bind_eq_some_iff.1 ran with ⟨next, turned, rest⟩
      simp only [turned]
      have one : Exact target N s next [.havoc seed s] :=
        Exact.step (.havoc seed s) sound stop (havoc_leads target seed turned)
          (havoc_counts target seed turned)
      exact one.append (ih (one.sound sound) rest)

theorem fuzzTurn_exact (iter : Nat) (sound : (flags s).Sound) (clear : s.stop = false)
    (ran : fuzzTurn target iter s = some t) : Exact target N s t (turnSteps target iter s) := by
  unfold fuzzTurn at ran
  unfold turnSteps
  by_cases empty : s.queue = []
  · rw [if_pos empty] at ran
    cases ran
  · rw [if_neg empty] at ran ⊢
    simp only at ran ⊢
    generalize s.queue.getD (iter % s.queue.length) [] = seed at ran ⊢
    cases done : s.detDone (iter % s.queue.length) with
    | true =>
      simp only [done, if_true] at ran ⊢
      exact havocStage_exact seed maxMutPerBase sound ran
    | false =>
      simp only [done, Bool.false_eq_true, if_false] at ran ⊢
      generalize marked : { s with detDone := fun entry =>
        entry == iter % s.queue.length || s.detDone entry } = m at ran ⊢
      -- marking the base as done leaves the flags alone
      have same : flags m = flags s := by rw [← marked]; rfl
      have clear' : m.stop = false := by rw [← marked]; exact clear
      have stage : Exact target N m (deterministicStage target seed m) [.deterministic seed m] :=
        Exact.step (.deterministic seed m) (same ▸ sound) clear'
          (deterministic_leads target seed m) (deterministic_counts target seed m)
      have whole := stage.append
        (havocStage_exact seed maxMutPerBase (stage.sound (same ▸ sound)) ran)
      constructor
      · rw [Leads, ← same]
        exact whole.leads
      · intro within
        rw [← same]
        exact whole.orderly (by rw [← marked]; exact within)

theorem fuzzLoop_exact (turns iter : Nat) (sound : (flags s).Sound)
    (ran : fuzzLoop target N turns iter s = some t) :
    Exact target N s t (fuzzSteps target N turns iter s) := by
  induction turns generalizing s iter with
  | zero =>
    cases ran
    exact .nil
  | succ turns ih =>
    rw [fuzzLoop] at ran
    rw [fuzzSteps]
    by_cases spent : (s.stop || (N != 0 && decide (N ≤ s.runs))) = true
    · rw [if_pos spent] at ran ⊢
      cases ran
      exact .nil
    · rw [if_neg spent] at ran ⊢
      rcases Option.bind_eq_some_iff.1 ran with ⟨next, turned, rest⟩
      have clear : s.stop = false := by
        cases stop : s.stop with
        | true => simp [stop] at spent
        | false => rfl
      have turn : Exact target N s next (turnSteps target iter s) :=
        fuzzTurn_exact iter sound clear turned
      simp only [turned]
      exact turn.append (ih (iter + 1) (turn.sound sound) rest)

theorem fuzzStart_sound (rng : Rng) (files : List (List UInt8)) :
    (flags (fuzzStart rng files)).Sound := by
  intro ten
  simp [flags, fuzzStart] at ten

end Exact

/-- A run of the fuzz loop keeps to its budget and starts nothing once the flag is set, just
if its deterministic stages and havoc iterations all meet their conditions. -/
theorem budget_iff (target : Target) (rng : Rng) (files : List (List UInt8)) (maxIters turns : Nat) :
    let start := fuzzStart rng files
    let steps := fuzzSteps target maxIters turns 0 start
    let events := steps.flatMap (Step.events target)
    ∃ s, fuzzLoop target maxIters turns 0 start = some s ∧ flags s = events.foldl play (flags start) ∧
      (Orderly maxIters (flags start) events ↔ ∀ step ∈ steps, step.Meets target maxIters) := by
  rcases fuzzLoop_checked target (fuzzStart_checked rng files) maxIters turns 0 with ⟨s, ran, _⟩
  have run := fuzzLoop_exact turns 0 (fuzzStart_sound rng files) ran
  exact ⟨s, ran, run.leads, run.orderly (Nat.zero_le _)⟩

def interruptedTarget : Target := fun _ _ => ⟨true, .exited 0, [], ∅, true⟩

/-- The events of a run over a corpus of one one-byte file, with a budget of `N`. -/
def shortEvents (target : Target) (N : Nat) : List Event :=
  (fuzzSteps target N 1 0 (fuzzStart (fun _ => 0) [[97]])).flatMap (Step.events target)

theorem shortEvents_first (target : Target) (N : Nat) : ∃ s rest, flags s = ⟨0, 0, false⟩ ∧
      shortEvents target N = deterministicEvents target [97] s ++ rest := by
  unfold shortEvents
  have queue : (fuzzStart (fun _ => 0) [[97]]).queue = [[97]] := rfl
  have todo : (fuzzStart (fun _ => 0) [[97]]).detDone 0 = false := rfl
  have fresh : flags (fuzzStart (fun _ => 0) [[97]]) = ⟨0, 0, false⟩ := rfl
  generalize fuzzStart (fun _ => 0) [[97]] = s at queue todo fresh ⊢
  rcases Flags.mk.injEq _ _ _ _ _ _ ▸ fresh with ⟨runs, _, stop⟩
  have running : ¬ (s.stop || (N != 0 && decide (N ≤ s.runs))) = true := by
    simp only [stop, runs, Bool.false_or]
    simp only [Nat.le_zero, Bool.and_eq_true, bne_iff_ne, decide_eq_true_eq]
    exact fun both => both.1 both.2
  have turn := turnSteps.eq_def target 0 s
  simp only [queue, cons_ne_nil, if_false, length_singleton, Nat.zero_mod,
    getD_cons_zero, todo, Bool.false_eq_true] at turn
  rw [fuzzSteps, if_neg running, turn, cons_append, flatMap_cons]
  exact ⟨{ s with queue := [[97]], detDone := fun entry => entry == 0 || s.detDone entry }, _,
    fresh, rfl⟩

theorem deterministic_interrupted (s : Fuzz) :
    ∃ later, deterministicEvents interruptedTarget [97] s =
      [.started true, .counted] ++ .started true :: later := by
  have handled : ∀ len s, handleEvents interruptedTarget len s = [.started true, .counted] := by
    intro len s
    simp [handleEvents, runOneEvent, onExecDoneEvents, runOne, interruptedTarget]
  have edits : deterministicEdits = deterministicEdits.head (by decide) ::
      deterministicEdits.tail.head (by decide) :: deterministicEdits.tail.tail := rfl
  have split := deterministicEvents.eq_def interruptedTarget [97] s
  rw [edits] at split
  simp only [length_cons, length_nil, zero_add, range_one, loopEvents,
    perturbEvents, handled, append_assoc] at split
  exact ⟨_, split⟩

/-- A budget of one execution: the deterministic stage counts 87. A stop signal during the
first execution: the deterministic stage starts the others all the same. -/
theorem budget_ignored :
    ¬ Orderly 1 (flags (fuzzStart (fun _ => 0) [[97]])) (shortEvents steadyTarget 1) ∧
    ¬ Orderly 1000 (flags (fuzzStart (fun _ => 0) [[97]])) (shortEvents interruptedTarget 1000) := by
  have fresh : flags (fuzzStart (fun _ => 0) [[97]]) = ⟨0, 0, false⟩ := rfl
  rw [fresh]
  constructor
  · intro orderly
    rcases shortEvents_first steadyTarget 1 with ⟨s, rest, _, events⟩
    rw [events, orderly_append, orderly_iff_clear, plays_runs, deterministic_counts] at orderly
    have counted : deterministicCount 1 = 87 := by decide
    simp [counted] at orderly
  · intro orderly
    rcases shortEvents_first interruptedTarget 1000 with ⟨s, rest, _, events⟩
    rw [events, orderly_append] at orderly
    -- the flag is set when the second execution starts
    rcases deterministic_interrupted s with ⟨later, split⟩
    have clear := ((orderly_iff_clear _ _).mp orderly.1).2 [.started true, .counted] true _ split
    cases clear

end Lucis.FuzzBudget
