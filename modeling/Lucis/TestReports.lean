import Lucis.TestRunner
import Mathlib.Algebra.Order.BigOperators.Group.Finset
import Mathlib.Data.Finset.Card

/-!
The accounting of the test harness. `Sound` ties the variables of the harness to the
processes and to what has been printed; every procedure keeps it under any interleaving
with the children, and the actions it allows report the tests in order.
-/

namespace Lucis.TestRunner

open Programs List Option
open Programs.Prog (perform)
open Programs.World

/-! What a test should be reported as. -/

def nameOf (test : Test) : String := test.displayName.getD "test"

/-- Skipped where flagged, failed without a process, and passed where the process exited
with 0, the other way round for an expected failure. -/
def outcome (test : Test) (child : Option Child) : OutcomeKind :=
  if test.skip then .skip
  else
    match child with
    | none => .fail
    | some child =>
      if decide (child.phase = .dead (.exited 0)) = test.expectFail then .fail else .pass

def Line.report : Line → Option (OutcomeKind × String)
  | .status tag name _ => some (tag, name)
  | _ => none

def reported (stdout : List Line) : List (OutcomeKind × String) := stdout.filterMap Line.report

def reports (test : Nat → Test) (os : Os) (count : Nat) : List (OutcomeKind × String) :=
  (List.range count).map fun i => (outcome (test i) (os.children i), nameOf (test i))

def Done (child : Option Child) : Prop :=
  ∀ c, child = some c → c.reaped = true ∧ c.phase ≠ .running

/-- Test `i` has no child just if its `pipe` or `fork` failed. -/
def Tried (test : Nat → Test) (os : Os) (i : Nat) : Prop :=
  (test i).skip = false → (os.children i = none ↔ i ∈ os.refused)

def Reports (test : Nat → Test) (total : Nat) : Syscall → Os → Prop
  | .pipe _, _ | .fork _, _ => False
  | .waitpid i _, os => ∃ child, os.children i = some child ∧ child.reaped = false
  | .drain i, os => ∃ child, os.children i = some child ∧ child.phase ≠ .running
  | .print (.status tag name _), os =>
    let next := (reported os.stdout).length
    next < total ∧ tag = outcome (test next) (os.children next) ∧ name = nameOf (test next) ∧
      Done (os.children next) ∧ Tried test os next
  | _, _ => True

def AllowedFor (test : Nat → Test) (total index : Nat) (call : Syscall) (os : Os) : Prop :=
  Reports test total call os ∨
    (call = .pipe index ∨ call = .fork index) ∧ index ∉ os.refused ∧
      (reported os.stdout).length ≤ index ∧ index < total ∧ (test index).skip = false

def Allowed (test : Nat → Test) (total : Nat) (call : Syscall) (os : Os) : Prop :=
  ∃ index, AllowedFor test total index call os

/-! The invariant of the harness. -/

structure SlotSound (test : Test) (slot : TestSlot) (child : Option Child) : Prop where
  arguments : slot.name = nameOf test ∧ slot.skip = test.skip ∧ slot.expectFail = test.expectFail
  skipped : test.skip = true → slot.running = false ∧ child = none
  running : slot.running = true → slot.result.output = [] ∧
    ∃ c, child = some c ∧ c.reaped = false ∧ c.pipe = c.written
  kind : test.skip = false → slot.running = false → slot.result.kind = outcome test child
  reaped : slot.running = false → ∀ c, child = some c →
    c.reaped = true ∧ c.phase ≠ .running ∧ slot.result.output = c.written.take maxCapturedOutput

/-- The slots below `count` whose child is not reaped. -/
def Runner.inFlight (r : Runner) (count : Nat) : Finset Nat :=
  (Finset.range count).filter fun i => (r.slots i).running = true

/-- The harness after the calls for the first `count` tests. -/
structure Sound (test : Nat → Test) (total count : Nat) (r : Runner) (os : Os) : Prop where
  size : r.total = total
  count_le : count ≤ total
  next_le : r.nextToReport ≤ count
  slots : ∀ i < count, SlotSound (test i) (r.slots i) (os.children i)
  fresh : ∀ i, count ≤ i → r.slots i = .zero ∧ os.children i = none ∧ i ∉ os.refused
  tried : ∀ i < count, Tried test os i
  finished : ∀ i < r.nextToReport, (r.slots i).running = false
  inFlight : r.runningCount = (r.inFlight count).card
  lines : reported os.stdout = reports test os r.nextToReport
  passed : r.passed = (reported os.stdout).countP fun report => report.1 = .pass
  failed : r.failed = (reported os.stdout).countP fun report => report.1 = .fail
  skipped : r.skipped = (reported os.stdout).countP fun report => report.1 = .skip

structure Later (r after : Runner) : Prop where
  jobs : after.jobs = r.jobs
  next : r.nextToReport ≤ after.nextToReport
  running : ∀ i, (after.slots i).running = true → (r.slots i).running = true

theorem Later.refl (r : Runner) : Later r r := ⟨rfl, le_rfl, fun _ h => h⟩

theorem Later.trans {a b c : Runner} (one : Later a b) (two : Later b c) : Later a c :=
  ⟨two.jobs.trans one.jobs, one.next.trans two.next, fun i still => one.running i (two.running i still)⟩

section Children

variable {cap : Nat} {text : Nat → List UInt8} {test : Nat → Test} {total count : Nat}
  {r : Runner} {os : Os}

@[simp] theorem setChild_same (os : Os) (i : Nat) (child : Child) :
    (os.setChild i child).children i = some child := Function.update_self ..

variable {i : Nat}

theorem setChild_other {j : Nat} (other : j ≠ i) (os : Os) (child : Child) :
    (os.setChild i child).children j = os.children j := Function.update_of_ne other ..

@[simp] theorem setChild_stdout (os : Os) (i : Nat) (child : Child) :
    (os.setChild i child).stdout = os.stdout := rfl

@[simp] theorem setSlot_same (r : Runner) (i : Nat) (slot : TestSlot) :
    (r.setSlot i slot).slots i = slot := Function.update_self ..

theorem setSlot_other {j : Nat} (other : j ≠ i) (r : Runner) (slot : TestSlot) :
    (r.setSlot i slot).slots j = r.slots j := Function.update_of_ne other ..

variable {after child : Child}

theorem childStep_moves (step : ChildStep cap child after) :
    child.phase = .running ∧ after.reaped = child.reaped ∧
      (child.pipe = child.written → after.pipe = after.written) := by
  cases step with
  | write chunk rest running next _ _ =>
    refine ⟨running, rfl, ?_⟩
    intro same
    change child.pipe ++ chunk = child.written ++ chunk
    rw [same]
  | exit code running all => exact ⟨running, rfl, id⟩
  | crash sig running => exact ⟨running, rfl, id⟩

theorem reports_congr {after : Os} {n : Nat}
    (same : ∀ i < n, outcome (test i) (after.children i) = outcome (test i) (os.children i)) :
    reports test after n = reports test os n := by
  apply map_congr_left
  intro i member
  rw [same i (mem_range.1 member)]

variable {slot : TestSlot}

theorem SlotSound.childStep {t : Test}
    (sound : SlotSound t slot (some child)) (step : ChildStep cap child after) :
    slot.running = true ∧ SlotSound t slot (some after) := by
  obtain ⟨moving, same_reaped, same_pipe⟩ := childStep_moves step
  have running : slot.running = true := by
    by_contra stopped
    exact (sound.reaped (by simpa using stopped) child rfl).2.1 moving
  obtain ⟨empty, c, found, unreaped, piped⟩ := sound.running running
  cases found
  refine ⟨running, sound.arguments, ?_, ?_, ?_, ?_⟩
  · intro flagged
    have stopped := (sound.skipped flagged).1
    rw [running] at stopped
    cases stopped
  · exact fun _ => ⟨empty, after, rfl, same_reaped.trans unreaped, same_pipe piped⟩
  · intro _ stopped
    rw [running] at stopped
    cases stopped
  · intro stopped
    rw [running] at stopped
    cases stopped

def Os.putChild (os : Os) (i : Nat) (child : Option Child) : Os :=
  { os with children := Function.update os.children i child }

variable (sound : Sound test total count r os)
include sound

theorem Sound.put {after : Nat} {child} {refused : List Nat} (left : Int)
    (grown : count ≤ after ∧ i < after ∧ ∀ j < after, j ≠ i → j < count) (room : after ≤ total)
    (there : SlotSound (test i) slot child) (stopped : i < r.nextToReport → slot.running = false ∧
      outcome (test i) child = outcome (test i) (os.children i))
    (flight : left = ((r.setSlot i slot).inFlight after).card)
    (tried : (test i).skip = false → (child = none ↔ i ∈ refused))
    (others_tried : ∀ j, j ≠ i → (j ∈ refused ↔ j ∈ os.refused)) :
    Sound test total after { r.setSlot i slot with runningCount := left }
      { os.putChild i child with refused := refused } := by
  obtain ⟨more, known, others_known⟩ := grown
  have this_slot : ({ r.setSlot i slot with runningCount := left } : Runner).slots i = slot :=
    setSlot_same r i slot
  have others {j : Nat} (other : j ≠ i) :
      ({ r.setSlot i slot with runningCount := left } : Runner).slots j = r.slots j :=
    setSlot_other other r slot
  have this_child : ({ os.putChild i child with refused := refused } : Os).children i = child :=
    Function.update_self ..
  have other_children {j : Nat} (other : j ≠ i) :
      ({ os.putChild i child with refused := refused } : Os).children j = os.children j :=
    Function.update_of_ne other ..
  constructor
  · exact sound.size
  · exact room
  · exact sound.next_le.trans more
  · intro j below
    by_cases same : j = i
    · subst same
      rw [this_slot, this_child]
      exact there
    · rw [others same, other_children same]
      exact sound.slots j (others_known j below same)
  · intro j beyond
    have other : j ≠ i := by omega
    rw [others other, other_children other, others_tried j other]
    exact sound.fresh j (more.trans beyond)
  · intro j below
    unfold Tried
    by_cases same : j = i
    · subst same
      rw [this_child]
      exact tried
    · rw [other_children same, others_tried j same]
      exact sound.tried j (others_known j below same)
  · intro j below
    by_cases same : j = i
    · subst same
      rw [this_slot]
      exact (stopped below).1
    · rw [others same]
      exact sound.finished j below
  · exact flight
  · change reported os.stdout = _
    rw [sound.lines]
    symm
    apply reports_congr
    intro j below
    by_cases same : j = i
    · subst same
      rw [this_child]
      exact (stopped below).2
    · rw [other_children same]
  · exact sound.passed
  · exact sound.failed
  · exact sound.skipped

theorem Sound.known
    (found : os.children i = some child) : i < count := by
  by_contra beyond
  have none_there := (sound.fresh i (by omega)).2.1
  rw [found] at none_there
  cases none_there

theorem Sound.change (left : Int) (found : os.children i = some child)
    (there : SlotSound (test i) slot (some after)) (stopped : i < r.nextToReport → slot.running = false ∧
      outcome (test i) (some after) = outcome (test i) (os.children i))
    (flight : left = ((r.setSlot i slot).inFlight count).card) :
    Sound test total count { r.setSlot i slot with runningCount := left } (os.setChild i after) := by
  have known := sound.known found
  refine sound.put left ⟨le_rfl, known, fun _ below _ => below⟩ sound.count_le there stopped flight
    (fun plain => ?_) fun _ _ => .rfl
  have tried := sound.tried i known plain
  rw [found] at tried
  exact iff_of_false (some_ne_none _) fun refused => some_ne_none _ (tried.2 refused)

omit sound in
theorem setSlot_self (r : Runner) (i : Nat) : r.setSlot i (r.slots i) = r := by
  rw [Runner.setSlot, Function.update_eq_self]

theorem Sound.changeChild (found : os.children i = some child)
    (there : SlotSound (test i) (r.slots i) (some after))
    (same : i < r.nextToReport → outcome (test i) (some after) = outcome (test i) (os.children i)) :
    Sound test total count r (os.setChild i after) := by
  have changed := sound.change r.runningCount found there
    (fun below => ⟨sound.finished i below, same below⟩)
    (by rw [setSlot_self]; exact sound.inFlight)
  rwa [setSlot_self] at changed

theorem Sound.slot_known
    (running : (r.slots i).running = true) : i < count := by
  by_contra beyond
  rw [(sound.fresh i (by omega)).1] at running
  cases running

omit sound

theorem sound_stable (test : Nat → Test) (total count : Nat) (r : Runner) :
    (world cap text).Stable (Sound test total count r) := by
  intro os after sound drifted
  obtain ⟨slot, child, moved, found, step⟩ := drifted
  have here := sound.slots slot (sound.known found)
  rw [found] at here
  obtain ⟨running, there⟩ := here.childStep step
  apply sound.changeChild found there
  intro below
  have stopped := sound.finished slot below
  rw [running] at stopped
  cases stopped

end Children

section Output

theorem appendOutput_eq (slot : TestSlot) (buf : List UInt8)
    (bounded : slot.result.output.length ≤ maxCapturedOutput) : appendOutput slot buf =
      { slot with result.output := (slot.result.output ++ buf).take maxCapturedOutput } := by
  unfold appendOutput
  rw [take_append, take_of_length_le bounded]
  by_cases empty : buf.length = 0
  · rw [if_pos empty, length_eq_zero_iff.1 empty, take_nil, append_nil]
  · rw [if_neg empty]
    by_cases full : slot.result.output.length ≥ maxCapturedOutput
    · have no_room : maxCapturedOutput - slot.result.output.length = 0 := by omega
      simp only [if_pos full, no_room, take_zero, append_nil]
    · simp only [if_neg full]
      split
      · next fits =>
          rw [take_of_length_le le_rfl, take_of_length_le fits.le]
      · rfl

theorem take_take_append (n : Nat) (front back : List UInt8) :
    (front.take n ++ back).take n = (front ++ back).take n := by
  have room : n - min n front.length = n - front.length := by omega
  rw [take_append, take_append, take_take, Nat.min_self, length_take, room]

theorem foldl_appendOutput (read : List (List UInt8)) (slot : TestSlot)
    (bounded : slot.result.output.length ≤ maxCapturedOutput) : read.foldl appendOutput slot =
      { slot with
        result.output := (slot.result.output ++ read.flatten).take maxCapturedOutput } := by
  induction read generalizing slot with
  | nil =>
    rw [foldl_nil, flatten_nil, append_nil, take_of_length_le bounded]
  | cons buf rest ih =>
    rw [foldl_cons, appendOutput_eq slot buf bounded,
      ih _ (by rw [length_take]; exact Nat.min_le_left ..)]
    simp only [flatten_cons, take_take_append, append_assoc]

variable {slot : TestSlot}

theorem settle_eq (empty : slot.result.output = []) (status : Status)
    (read : List (List UInt8)) : settle slot status read =
      { slot with
        running := false
        result := ⟨(decode slot status).1, (decode slot status).2,
          read.flatten.take maxCapturedOutput⟩ } := by
  have all := foldl_appendOutput read { slot with running := false } (by simp [empty])
  simp only [settle, all, empty, nil_append]
  rfl

theorem decode_outcome {t : Test} {child : Child} {status : Status}
    (plain : t.skip = false) (same : slot.expectFail = t.expectFail)
    (dead : child.phase = .dead status) : (decode slot status).1 = outcome t (some child) := by
  unfold outcome decode
  simp only [plain, ← same, dead]
  cases expected : slot.expectFail <;> cases status with
  | exited code =>
    by_cases zero : code = 0 <;> simp [rawOutcome, zero]
  | signaled sig =>
    by_cases alarm : sig = sigAlrm <;> simp [rawOutcome, alarm]
  | other => simp [rawOutcome]

end Output

section Reap

variable {cap : Nat} {text : Nat → List UInt8} {test : Nat → Test} {total count i : Nat}
  {r : Runner} {os : Os}

def Runner.reap (r : Runner) (i : Nat) (status : Status) (read : List (List UInt8)) : Runner :=
  { r.setSlot i (settle (r.slots i) status read) with runningCount := r.runningCount - 1 }

variable {slot : TestSlot}

theorem inFlight_erase (stopped : slot.running = false) (r : Runner)
    (i count : Nat) : (r.setSlot i slot).inFlight count = (r.inFlight count).erase i := by
  ext j
  simp only [Runner.inFlight, Finset.mem_filter, Finset.mem_erase]
  by_cases same : j = i
  · subst same
    simp [stopped]
  · rw [setSlot_other same]
    simp [same]

theorem later_setSlot (r : Runner) (i : Nat) (stopped : slot.running = false)
    (left : Int) : Later r { r.setSlot i slot with runningCount := left } := by
  refine ⟨rfl, le_rfl, fun j still => ?_⟩
  by_cases same : j = i
  · subst same
    rw [show ({ r.setSlot j slot with runningCount := left } : Runner).slots j = slot from
      setSlot_same r j slot, stopped] at still
    cases still
  · exact (congrArg TestSlot.running (setSlot_other same r slot)).symm.trans still

variable {child : Child}

theorem sound_reap (sound : Sound test total count r os)
    (running : (r.slots i).running = true) {status : Status}
    (found : os.children i = some child) (dead : child.phase = .dead status) :
    Sound test total count (r.reap i status [child.written])
      (os.setChild i { child with reaped := true }) := by
  have known := sound.known found
  have slot := sound.slots i known
  have empty := (slot.running running).1
  have plain : (test i).skip = false := by
    by_contra flagged
    have stopped := (slot.skipped (by simpa using flagged)).1
    rw [running] at stopped
    cases stopped
  have settled := settle_eq empty status [child.written]
  have stopped : (settle (r.slots i) status [child.written]).running = false := by rw [settled]
  apply sound.change (r.runningCount - 1) found
  · rw [settled]
    refine ⟨slot.arguments, ?_, ?_, ?_, ?_⟩
    · intro flagged
      rw [plain] at flagged
      cases flagged
    · intro still
      cases still
    · intro _ _
      exact decode_outcome plain slot.arguments.2.2 dead
    · rintro _ _ ⟨⟩
      refine ⟨rfl, ?_, by simp⟩
      change child.phase ≠ .running
      rw [dead]
      exact Phase.noConfusion
  · intro below
    have finished := sound.finished i below
    rw [running] at finished
    cases finished
  · have member : i ∈ r.inFlight count :=
      Finset.mem_filter.2 ⟨Finset.mem_range.2 known, running⟩
    have some_running := Finset.card_pos.2 ⟨i, member⟩
    rw [inFlight_erase stopped, Finset.card_erase_of_mem member, sound.inFlight]
    omega

theorem sound_emptied (sound : Sound test total count r os)
    (found : os.children i = some child) (gone : child.reaped = true) (rest : List UInt8) :
    Sound test total count r (os.setChild i { child with pipe := rest }) := by
  have slot := sound.slots i (sound.known found)
  rw [found] at slot
  apply sound.changeChild found
  · refine ⟨slot.arguments, ?_, ?_, slot.kind, ?_⟩
    · intro flagged
      cases (slot.skipped flagged).2
    · intro still
      obtain ⟨_, c, same_child, unreaped, _⟩ := slot.running still
      cases same_child
      rw [gone] at unreaped
      cases unreaped
    · rintro stopped _ ⟨⟩
      exact slot.reaped stopped child rfl
  · intro _
    rw [found]
    rfl

/-- The child of the slot is reaped and `text` waits in its pipe. -/
def Gone (i : Nat) (status : Status) (text : List UInt8) (os : Os) : Prop :=
  ∃ child, os.children i = some child ∧ child.phase = .dead status ∧ child.reaped = true ∧
    child.pipe = text

theorem gone_stable (i : Nat) (status : Status) (left : List UInt8) :
    (world cap text).Stable (Gone i status left) := by
  rintro os after ⟨child, found, dead, reaped, piped⟩ ⟨slot, other, moved, there, step⟩
  have different : i ≠ slot := by
    rintro rfl
    rw [found] at there
    cases there
    have running := (childStep_moves step).1
    rw [dead] at running
    cases running
  exact ⟨child, by rw [setChild_other different, found], dead, reaped, piped⟩

theorem reap_congr {read other} (empty : (r.slots i).result.output = [])
    (status : Status) (same : read.flatten = other.flatten) :
    r.reap i status read = r.reap i status other := by
  unfold Runner.reap
  rw [settle_eq empty, settle_eq empty, same]

def Onward (test : Nat → Test) (total count : Nat) (r after : Runner) (os : Os) : Prop :=
  Sound test total count after os ∧ Later r after

theorem onward_stable (test : Nat → Test) (total count : Nat) (r after : Runner) :
    (world cap text).Stable (Onward test total count r after) := by
  rintro os later ⟨sound, onward⟩ drifted
  exact ⟨sound_stable test total count after os later sound drifted, onward⟩

theorem stable_and_const {holds : Os → Prop} {fact : Prop} (stable : (world cap text).Stable holds) :
    (world cap text).Stable fun os => holds os ∧ fact :=
  fun os after both drifted => ⟨stable os after both.1 drifted, both.2⟩

theorem ensures_reapOne (sound : Sound test total count r os)
    (running : (r.slots i).running = true) (blocking : Bool) :
    (world cap text).Ensures (Reports test total) (reapOne i blocking r)
      (fun result os => Onward test total count r result.2 os ∧
        result.2.nextToReport = r.nextToReport ∧
        (blocking = true → (result.2.slots i).running = false)) os := by
  unfold reapOne
  rw [if_pos running]
  apply ensures_perform (sound_stable test total count r) sound
  intro middle here
  constructor
  · obtain ⟨_, c, found, unreaped, _⟩ := (here.slots i (here.slot_known running)).running running
    exact ⟨c, found, unreaped⟩
  intro reply after performed
  cases performed with
  | waitpid _ _ _ child status found dead unreaped =>
    have slot := here.slots i (here.known found)
    obtain ⟨empty, c, same_child, _, piped⟩ := slot.running running
    rw [found] at same_child
    cases same_child
    have reaped := sound_reap here running found dead
    have stable : (world cap text).Stable fun os => Gone i status child.written os ∧
        Sound test total count (r.reap i status [child.written]) os :=
      (gone_stable i status child.written).and (sound_stable test total count _)
    have gone : Gone i status child.written (middle.setChild i { child with reaped := true }) :=
      ⟨_, setChild_same .., dead, rfl, piped⟩
    dsimp only
    apply ensures_perform stable ⟨gone, reaped⟩
    rintro middle ⟨⟨gone, there, was_dead, was_reaped, rest⟩, sound⟩
    refine ⟨⟨gone, there, by rw [was_dead]; exact Phase.noConfusion⟩, ?_⟩
    intro reply after performed
    cases performed with
    | drain _ _ other read found _ all _ _ =>
      rw [there] at found
      cases found
      have same := reap_congr empty status
        (show read.flatten = [child.written].flatten by rw [all, rest]; simp)
      apply ensures_pure
      · exact stable_and_const (onward_stable test total count r _)
      · change Onward test total count r (r.reap i status read) _ ∧ _ ∧ _
        have stopped : (settle (r.slots i) status read).running = false := by
          rw [settle_eq empty]
        refine ⟨⟨?_, later_setSlot r i stopped _⟩, rfl, ?_⟩
        · rw [same]
          exact sound_emptied sound there was_reaped []
        · intro _
          exact (congrArg TestSlot.running (setSlot_same r i _)).trans stopped
  | wnohang _ _ child found still =>
    apply ensures_pure
    · exact stable_and_const (onward_stable test total count r _)
    · exact ⟨⟨here, .refl r⟩, rfl, by simp⟩

end Reap

section Report

variable {cap : Nat} {text : Nat → List UInt8} {test : Nat → Test} {total count : Nat}
  {r : Runner} {os : Os}

theorem reported_append (stdout : List Line) (line : Line) :
    reported (stdout ++ [line]) = reported stdout ++ line.report.toList := by
  rw [reported, filterMap_append]
  cases line <;> rfl

theorem Sound.reported_length (sound : Sound test total count r os) :
    (reported os.stdout).length = r.nextToReport := by
  rw [sound.lines, reports, length_map, length_range]

theorem Sound.print {line : Line} (sound : Sound test total count r os)
    (plain : line.report = none) :
    Sound test total count r { os with stdout := os.stdout ++ [line] } := by
  have same : reported (os.stdout ++ [line]) = reported os.stdout := by
    rw [reported_append, plain, toList_none, append_nil]
  refine { sound with lines := ?_, passed := ?_, failed := ?_, skipped := ?_ }
  · exact same.trans sound.lines
  · rw [same, sound.passed]
  · rw [same, sound.failed]
  · rw [same, sound.skipped]

variable {tag : OutcomeKind} {name : String}

theorem Sound.report {detail : String} {p f s : Nat}
    (sound : Sound test total count r os) (below : r.nextToReport < count)
    (stopped : (r.slots r.nextToReport).running = false)
    (own : tag = outcome (test r.nextToReport) (os.children r.nextToReport))
    (named : name = nameOf (test r.nextToReport))
    (passed : p = r.passed + if tag = .pass then 1 else 0)
    (failed : f = r.failed + if tag = .fail then 1 else 0)
    (skipped : s = r.skipped + if tag = .skip then 1 else 0) :
    Sound test total count { r with passed := p, failed := f, skipped := s }.advance
      { os with stdout := os.stdout ++ [.status tag name detail] } := by
  have one_more : reported (os.stdout ++ [.status tag name detail]) =
      reported os.stdout ++ [(tag, name)] := reported_append ..
  constructor
  · exact sound.size
  · exact sound.count_le
  · exact below
  · exact sound.slots
  · exact sound.fresh
  · exact sound.tried
  · intro i reported_now
    rcases Nat.lt_succ_iff_lt_or_eq.1 reported_now with before | rfl
    · exact sound.finished i before
    · exact stopped
  · exact sound.inFlight
  · change reported (os.stdout ++ _) = reports test os (r.nextToReport + 1)
    rw [one_more, sound.lines, own, named, reports, reports, range_succ, map_append]
    rfl
  · change p = List.countP _ (reported (os.stdout ++ _))
    rw [one_more, countP_append, ← sound.passed, passed, countP_singleton]
    simp
  · change f = List.countP _ (reported (os.stdout ++ _))
    rw [one_more, countP_append, ← sound.failed, failed, countP_singleton]
    simp
  · change s = List.countP _ (reported (os.stdout ++ _))
    rw [one_more, countP_append, ← sound.skipped, skipped, countP_singleton]
    simp

def TestSlot.mark (slot : TestSlot) (kind : OutcomeKind) : TestSlot :=
  { slot with result.kind := kind }

theorem mark_running (r : Runner) (i j : Nat) (kind : OutcomeKind) :
    ((r.setSlot i ((r.slots i).mark kind)).slots j).running = (r.slots j).running := by
  by_cases same : j = i
  · subst same
    rw [setSlot_same]
    rfl
  · rw [setSlot_other same]

theorem Sound.mark (sound : Sound test total count r os) {i : Nat} (below : i < count)
    (flagged : (r.slots i).skip = true) (kind : OutcomeKind) :
    Sound test total count (r.setSlot i ((r.slots i).mark kind)) os := by
  have slot := sound.slots i below
  have skip : (test i).skip = true := slot.arguments.2.1.symm.trans flagged
  have stopped := (slot.skipped skip).1
  have same_child : os.putChild i (os.children i) = os := by
    rw [Os.putChild, Function.update_eq_self]
  have same_flight : (r.setSlot i ((r.slots i).mark kind)).inFlight count = r.inFlight count := by
    ext j
    simp only [Runner.inFlight, Finset.mem_filter, mark_running]
  have there : SlotSound (test i) ((r.slots i).mark kind) (os.children i) := by
    refine ⟨slot.arguments, slot.skipped, slot.running, ?_, slot.reaped⟩
    intro plain
    rw [skip] at plain
    cases plain
  have marked := sound.put r.runningCount ⟨le_rfl, below, fun _ h _ => h⟩ sound.count_le there
    (fun _ => ⟨stopped, rfl⟩) (by rw [same_flight]; exact sound.inFlight) (sound.tried i below)
    fun _ _ => .rfl
  rwa [same_child] at marked

structure SameFlight (r after : Runner) : Prop where
  next : after.nextToReport = r.nextToReport
  count : after.runningCount = r.runningCount
  running : ∀ i, (after.slots i).running = (r.slots i).running

theorem ensures_echo (sound : Sound test total count r os) (loud : Bool) (result : SlotResult) :
    (world cap text).Ensures (Reports test total) (if loud then echoOutput result else pure ())
      (fun _ os => Sound test total count r os) os := by
  by_cases printed : loud = true ∧ result.output ≠ []
  · rw [if_pos printed.1, echoOutput, if_neg printed.2]
    apply ensures_perform (sound_stable test total count r) sound
    intro middle here
    refine ⟨trivial, ?_⟩
    intro reply after performed
    cases performed
    exact ensures_pure (sound_stable test total count r) (here.print rfl)
  · have quiet : (if loud then echoOutput result else pure ()) =
        (pure () : Prog Syscall Reply Unit) := by
      cases loud with
      | false => rfl
      | true =>
        have empty : result.output = [] := by
          by_contra more
          exact printed ⟨rfl, more⟩
        rw [if_pos rfl, echoOutput, if_pos empty]
    rw [quiet]
    exact ensures_pure (sound_stable test total count r) sound

theorem ensures_status {p f s : Nat} (detail : String)
    (sound : Sound test total count r os) (below : r.nextToReport < count)
    (stopped : (r.slots r.nextToReport).running = false)
    (own : ∀ middle, Sound test total count r middle →
      tag = outcome (test r.nextToReport) (middle.children r.nextToReport))
    (named : name = nameOf (test r.nextToReport))
    (passed : p = r.passed + if tag = .pass then 1 else 0)
    (failed : f = r.failed + if tag = .fail then 1 else 0)
    (skipped : s = r.skipped + if tag = .skip then 1 else 0) :
    (world cap text).Ensures (Reports test total)
      (perform (.print (.status tag name detail)) >>= fun _ =>
        pure { r with passed := p, failed := f, skipped := s })
      (fun after os => Onward test total count r after.advance os ∧ SameFlight r after) os := by
  apply ensures_perform (sound_stable test total count r) sound
  intro middle here
  constructor
  · change _ ∧ _ ∧ _ ∧ _
    rw [here.reported_length]
    refine ⟨below.trans_le here.count_le, own middle here, named, fun child found => ?_,
      here.tried _ below⟩
    have reaped := (here.slots _ below).reaped stopped child found
    exact ⟨reaped.1, reaped.2.1⟩
  · intro reply after performed
    cases performed
    apply ensures_pure
    · exact stable_and_const (onward_stable test total count r _)
    · refine ⟨⟨?_, rfl, Nat.le_succ _, fun i still => still⟩, rfl, rfl, fun _ => rfl⟩
      exact here.report below stopped (own middle here) named passed failed skipped

theorem outcome_plain {t : Test} (plain : t.skip = false) (child : Option Child) :
    outcome t child = .pass ∨ outcome t child = .fail := by
  unfold outcome
  rw [plain]
  cases child with
  | none => exact .inr rfl
  | some child =>
    simp only [Bool.false_eq_true, if_false]
    split
    · exact .inr rfl
    · exact .inl rfl

theorem ensures_reportOne (sound : Sound test total count r os) (below : r.nextToReport < count)
    (stopped : (r.slots r.nextToReport).running = false) :
    (world cap text).Ensures (Reports test total) (reportOne r.nextToReport r)
      (fun after os => Onward test total count r after.advance os ∧ SameFlight r after) os := by
  have slot := sound.slots _ below
  unfold reportOne
  dsimp only
  by_cases flagged : (r.slots r.nextToReport).skip = true
  · have skip : (test r.nextToReport).skip = true := slot.arguments.2.1.symm.trans flagged
    have own (child : Option Child) : OutcomeKind.skip = outcome (test r.nextToReport) child := by
      simp only [outcome, if_pos skip]
    rw [if_pos flagged]
    -- the line is printed first and the slot marked after it, which no one can tell
    have marked := sound.mark below flagged .skip
    have same_running (i : Nat) := mark_running r r.nextToReport i .skip
    refine (ensures_status (r.slots r.nextToReport).skipReason marked below
      ((same_running _).trans stopped) (fun _ _ => own _) slot.arguments.1 rfl rfl rfl).weaken ?_
    rintro after os ⟨⟨there, jobs, next, running⟩, same⟩
    refine ⟨⟨there, jobs, next, ?_⟩, same.next, same.count, ?_⟩
    · exact fun i still => (same_running i).symm.trans (running i still)
    · exact fun i => (same.running i).trans (same_running i)
  · have plain : (test r.nextToReport).skip = false := by
      rw [← slot.arguments.2.1]
      simpa using flagged
    have kind (middle : Os) (here : Sound test total count r middle) :
        (r.slots r.nextToReport).result.kind =
          outcome (test r.nextToReport) (middle.children r.nextToReport) :=
      (here.slots _ below).kind plain stopped
    rw [if_neg flagged]
    by_cases passing : (r.slots r.nextToReport).result.kind = .pass
    · rw [if_pos passing]
      apply ensures_bind
      apply (ensures_echo sound r.verbose _).weaken
      intro _ middle here
      exact ensures_status _ here below stopped
        (fun later there => passing.symm.trans (kind later there)) slot.arguments.1 rfl rfl rfl
    · rw [if_neg passing]
      apply ensures_bind
      apply (ensures_echo sound (!r.verbose) _).weaken
      intro _ middle here
      refine ensures_status _ here below stopped (fun later there => ?_) slot.arguments.1 rfl rfl rfl
      have other := kind later there
      rcases outcome_plain plain (later.children r.nextToReport) with pass | fail
      · exact absurd (other.trans pass) passing
      · exact fail.symm

end Report

section Rounds

variable {cap : Nat} {text : Nat → List UInt8} {test : Nat → Test} {total count index : Nat}
  {r : Runner} {os : Os}

theorem ensures_same {fact : Runner → Prop} (sound : Sound test total count r os) (holds : fact r) :
    (world cap text).Ensures (Reports test total) (pure r)
      (fun after os => Onward test total count r after os ∧ fact after) os :=
  ensures_pure (stable_and_const (onward_stable test total count r r)) ⟨⟨sound, .refl r⟩, holds⟩

variable (left : Nat)

theorem ensures_sweep (index : Nat) (sound : Sound test total count r os) :
    (world cap text).Ensures (Reports test total) (sweep left index r)
      (fun after os => Onward test total count r after os ∧
        after.nextToReport = r.nextToReport) os := by
  induction left generalizing index r os with
  | zero => exact ensures_same sound rfl
  | succ left ih =>
    rw [sweep]
    by_cases some_running : r.runningCount > 0
    · rw [if_pos some_running]
      by_cases running : (r.slots index).running = true
      · rw [if_pos running]
        apply ensures_bind
        apply (ensures_reapOne sound running false).weaken
        rintro ⟨_, reaped⟩ middle ⟨⟨here, later⟩, same, _⟩
        apply (ih (index + 1) here).weaken
        rintro after os ⟨⟨there, further⟩, next⟩
        exact ⟨⟨there, later.trans further⟩, next.trans same⟩
      · rw [if_neg running]
        exact ih (index + 1) sound
    · rw [if_neg some_running]
      exact ensures_same sound rfl

theorem ensures_reapHead (sound : Sound test total count r os) :
    (world cap text).Ensures (Reports test total)
      (if (r.slots r.nextToReport).running then reapOne r.nextToReport true r else pure (true, r))
      (fun result os => Onward test total count r result.2 os ∧
        result.2.nextToReport = r.nextToReport ∧
        (result.2.slots r.nextToReport).running = false) os := by
  by_cases running : (r.slots r.nextToReport).running = true
  · rw [if_pos running]
    apply (ensures_reapOne sound running true).weaken
    rintro ⟨_, reaped⟩ middle ⟨onward, next, stopped⟩
    exact ⟨onward, next, stopped rfl⟩
  · rw [if_neg running]
    exact ensures_pure (stable_and_const (onward_stable test total count r r))
      ⟨⟨sound, .refl r⟩, rfl, by simpa using running⟩

/-- `head` is the first test from `next` on that is not skipped. -/
structure HeadAt (test : Nat → Test) (next head : Nat) : Prop where
  from_next : next ≤ head
  plain : (test head).skip = false
  before : ∀ j, next ≤ j → j < head → (test j).skip = true

theorem HeadAt.here {next head : Nat} (at_head : HeadAt test next head)
    (plain : (test next).skip = false) : head = next := by
  by_contra other
  have flagged := at_head.before next le_rfl (by have := at_head.from_next; omega)
  rw [plain] at flagged
  cases flagged

theorem HeadAt.advance {next head : Nat} (at_head : HeadAt test next head)
    (flagged : (test next).skip = true) : HeadAt test (next + 1) head := by
  refine ⟨?_, at_head.plain, fun j from_next below => at_head.before j (by omega) below⟩
  by_contra same
  have here : head = next := by have := at_head.from_next; omega
  have plain := at_head.plain
  rw [here, flagged] at plain
  cases plain

/-- `reapThrough` gets past a head that runs, and does nothing past one that does not. -/
def PastHead (test : Nat → Test) (index : Nat) (r after : Runner) : Prop :=
  ∀ head ≤ index, HeadAt test r.nextToReport head →
    ((r.slots head).running = true → head < after.nextToReport) ∧
    ((r.slots head).running = false → after.runningCount = r.runningCount)

theorem ensures_reapRounds (sound : Sound test total count r os)
    (known : index < count) (enough : index < r.nextToReport + left) :
    (world cap text).Ensures (Reports test total) (reapRounds left index r)
      (fun after os => Onward test total count r after os ∧ PastHead test index r after) os := by
  induction left generalizing r os with
  | zero =>
    refine ensures_same sound fun head below at_head => ?_
    have from_next := at_head.from_next
    omega
  | succ left ih =>
    rw [reapRounds]
    -- each round reports the next test, so the rounds that are left reach `index`
    by_cases more : r.nextToReport ≤ index ∧ r.nextToReport < r.total
    · have below : r.nextToReport < count := by omega
      have slot := sound.slots _ below
      rw [if_pos more]
      by_cases flagged : (r.slots r.nextToReport).skip = true
      · have skip : (test r.nextToReport).skip = true := slot.arguments.2.1.symm.trans flagged
        rw [if_pos flagged]
        apply ensures_bind
        apply (ensures_reportOne sound below (slot.skipped skip).1).weaken
        rintro middle os ⟨⟨here, later⟩, same⟩
        have next : middle.advance.nextToReport = r.nextToReport + 1 :=
          congrArg (· + 1) same.next
        apply (ih here (by rw [next]; omega)).weaken
        rintro after os ⟨⟨there, further⟩, past⟩
        refine ⟨⟨there, later.trans further⟩, fun head to_index at_head => ?_⟩
        have on := past head to_index (by rw [next]; exact at_head.advance skip)
        constructor
        · exact fun running => on.1 ((same.running head).trans running)
        · exact fun stopped => (on.2 ((same.running head).trans stopped)).trans same.count
      · have plain : (test r.nextToReport).skip = false := by
          rw [← slot.arguments.2.1]
          simpa using flagged
        rw [if_neg flagged]
        cases running : (r.slots r.nextToReport).running with
        | false =>
          refine ensures_same sound fun head _ at_head => ⟨fun still => ?_, fun _ => rfl⟩
          rw [at_head.here plain, running] at still
          cases still
        | true =>
          simp only [Bool.not_true, Bool.false_eq_true, if_false]
          apply ensures_bind
          apply (ensures_sweep _ _ sound).weaken
          rintro swept os ⟨⟨here, later⟩, same⟩
          have _ : swept.nextToReport < count := by omega
          apply ensures_bind
          apply (ensures_reapHead here).weaken
          rintro ⟨_, reaped⟩ os ⟨⟨there, further⟩, next, stopped⟩
          dsimp only at there further next stopped
          rw [← next] at stopped
          apply ensures_bind
          apply (ensures_reportOne there (by omega) stopped).weaken
          rintro middle os ⟨⟨at_last, on⟩, still⟩
          have one_on : middle.advance.nextToReport = r.nextToReport + 1 := by
            change middle.nextToReport + 1 = _
            rw [still.next, next, same]
          apply (ih at_last (by rw [one_on]; omega)).weaken
          rintro after os ⟨⟨finally_, rest⟩, _⟩
          refine ⟨⟨finally_, ((later.trans further).trans on).trans rest⟩, ?_⟩
          intro head _ at_head
          rw [at_head.here plain, running]
          have passed := rest.next
          exact ⟨fun _ => by omega, Bool.noConfusion⟩
    · rw [if_neg more]
      refine ensures_same sound fun head to_index at_head => ?_
      have from_next := at_head.from_next
      have size := sound.size
      have count_le := sound.count_le
      omega

theorem ensures_reportRounds (sound : Sound test total count r os) (known : index < count) :
    (world cap text).Ensures (Reports test total) (reportRounds left index r)
      (fun after os => Onward test total count r after os ∧
        after.runningCount = r.runningCount) os := by
  induction left generalizing r os with
  | zero => exact ensures_same sound rfl
  | succ left ih =>
    rw [reportRounds]
    by_cases more : r.nextToReport ≤ index ∧ r.nextToReport < r.total
    · have below : r.nextToReport < count := by omega
      have slot := sound.slots _ below
      rw [if_pos more]
      cases waits : !(r.slots r.nextToReport).skip && (r.slots r.nextToReport).running with
      | true => exact ensures_same sound rfl
      | false =>
        have stopped : (r.slots r.nextToReport).running = false := by
          cases flagged : (r.slots r.nextToReport).skip with
          | true => exact (slot.skipped (slot.arguments.2.1.symm.trans flagged)).1
          | false => simpa [flagged] using waits
        apply ensures_bind
        apply (ensures_reportOne sound below stopped).weaken
        rintro middle os ⟨⟨here, later⟩, same⟩
        apply (ih here).weaken
        rintro after os ⟨⟨there, further⟩, kept⟩
        exact ⟨⟨there, later.trans further⟩, kept.trans same.count⟩
    · rw [if_neg more]
      exact ensures_same sound rfl

theorem ensures_reapRest (sound : Sound test total total r os)
    (all : r.nextToReport + left = total) :
    (world cap text).Ensures (Reports test total) (reapRest left r)
      (fun after os => Onward test total total r after os ∧ after.nextToReport = total) os := by
  induction left generalizing r os with
  | zero => exact ensures_same sound all
  | succ left ih =>
    rw [reapRest]
    have slot := sound.slots _ (show r.nextToReport < total by omega)
    have same_head : (!(r.slots r.nextToReport).skip && (r.slots r.nextToReport).running) =
        (r.slots r.nextToReport).running := by
      cases flagged : (r.slots r.nextToReport).skip with
      | false => rfl
      | true =>
        rw [(slot.skipped (slot.arguments.2.1.symm.trans flagged)).1]
        rfl
    rw [same_head]
    apply ensures_bind
    apply (ensures_reapHead sound).weaken
    rintro ⟨_, reaped⟩ os ⟨⟨there, further⟩, next, stopped⟩
    dsimp only at there further next stopped
    rw [← next] at stopped
    apply ensures_bind
    have below : reaped.nextToReport < total := by omega
    apply (ensures_reportOne there below stopped).weaken
    rintro middle os ⟨⟨here, on⟩, still⟩
    have one_on : middle.advance.nextToReport = r.nextToReport + 1 := by
      change middle.nextToReport + 1 = _
      rw [still.next, next]
    apply (ih here (by omega)).weaken
    rintro after os ⟨⟨finally_, rest⟩, done⟩
    exact ⟨⟨finally_, (further.trans on).trans rest⟩, done⟩

end Rounds

section Calls

variable {cap : Nat} {text : Nat → List UInt8} {test : Nat → Test} {total count : Nat}
  {r : Runner} {os : Os} {slot : TestSlot}

theorem Sound.enter {refused : List Nat} (sound : Sound test total count r os)
    (room : count < total) (there : SlotSound (test count) slot none)
    (stopped : slot.running = false) (tried : (test count).skip = false → count ∈ refused)
    (others : ∀ i, i ≠ count → (i ∈ refused ↔ i ∈ os.refused)) :
    Sound test total (count + 1) (r.setSlot count slot) { os with refused := refused } := by
  have same_child : os.putChild count none = os := by
    rw [Os.putChild, ← (sound.fresh count le_rfl).2.1, Function.update_eq_self]
  have same_flight : (r.setSlot count slot).inFlight (count + 1) = r.inFlight count := by
    rw [inFlight_erase stopped]
    ext j
    simp only [Runner.inFlight, Finset.mem_erase, Finset.mem_filter, Finset.mem_range]
    constructor
    · rintro ⟨other, below, running⟩
      exact ⟨by omega, running⟩
    · rintro ⟨below, running⟩
      exact ⟨by omega, by omega, running⟩
  have entered := sound.put r.runningCount ⟨by omega, by omega, fun _ _ _ => by omega⟩ room there
    (fun below => absurd sound.next_le (by omega)) (by rw [same_flight]; exact sound.inFlight)
    (fun plain => iff_of_true rfl (tried plain)) others
  rwa [same_child] at entered

theorem Sound.spawn (sound : Sound test total count r os) (room : count < total) (child : Child)
    (there : SlotSound (test count) slot (some child)) (running : slot.running = true) :
    Sound test total (count + 1) { r.setSlot count slot with runningCount := r.runningCount + 1 }
      (os.setChild count child) := by
  have flight : (r.setSlot count slot).inFlight (count + 1) = insert count (r.inFlight count) := by
    ext j
    simp only [Runner.inFlight, Finset.mem_insert, Finset.mem_filter, Finset.mem_range]
    by_cases same : j = count
    · subst same
      simp [running]
    · rw [setSlot_other same]
      simp only [same, false_or]
      constructor
      · exact fun both => ⟨by omega, both.2⟩
      · exact fun both => ⟨by omega, both.2⟩
  have fresh : count ∉ r.inFlight count := by simp [Runner.inFlight]
  exact sound.put _ ⟨by omega, by omega, fun _ _ _ => by omega⟩ room there
    (fun below => absurd sound.next_le (by omega))
    (by rw [flight, Finset.card_insert_of_notMem fresh, sound.inFlight]; push_cast; rfl)
    (fun _ => iff_of_false (some_ne_none child) (sound.fresh count le_rfl).2.2) fun _ _ => .rfl

theorem setSlot_setSlot (r : Runner) (i : Nat) (one two : TestSlot) :
    (r.setSlot i one).setSlot i two = r.setSlot i two := by
  rw [Runner.setSlot, Runner.setSlot, Function.update_idem]
  rfl

variable (i : Nat)

theorem forked_stable : (world cap text).Stable fun os => os.children i ≠ none := by
  rintro os after forked ⟨slot, child, moved, found, step⟩
  by_cases same : i = slot
  · subst same
    rw [setChild_same]
    exact some_ne_none moved
  · rw [setChild_other same]
    exact forked

theorem unforked_stable : (world cap text).Stable fun os => os.children i = none := by
  rintro os after unforked ⟨slot, child, moved, found, step⟩
  rw [setChild_other]
  · exact unforked
  · rintro rfl
    rw [unforked] at found
    cases found

/-- What `spawnJob` answers for the next test, and what it leaves. -/
inductive Spawned (test : Nat → Test) (total count : Nat) (r : Runner) (slot : TestSlot) :
    Int × Runner → Os → Prop
  | child {after : Os} (sound : Sound test total (count + 1)
      { r.setSlot count { slot with running := true } with
        runningCount := r.runningCount + 1 } after) (forked : after.children count ≠ none) :
      Spawned test total count r slot (0, r.setSlot count { slot with running := true }) after
  | error {after : Os} (sound : ∀ entered, SlotSound (test count) entered none →
      entered.running = false → Sound test total (count + 1) (r.setSlot count entered) after)
      (unforked : after.children count = none) :
      Spawned test total count r slot (-1, r.setSlot count slot) after

theorem spawned_stable (result : Int × Runner) :
    (world cap text).Stable (Spawned test total count r slot result) := by
  intro os after spawned drifted
  cases spawned with
  | child sound forked =>
    exact .child (sound_stable test total _ _ os after sound drifted)
      (forked_stable count os after forked drifted)
  | error sound unforked =>
    exact .error
      (fun entered there stopped => sound_stable test total _ _ os after (sound entered there stopped)
        drifted)
      (unforked_stable count os after unforked drifted)

theorem ensures_spawnJob (sound : Sound test total count r os)
    (room : count < total) (named : slot.name = nameOf (test count) ∧ slot.skip = (test count).skip ∧
      slot.expectFail = (test count).expectFail)
    (plain : (test count).skip = false) (empty : slot.result.output = []) :
    (world cap text).Ensures (AllowedFor test total count) (spawnJob count (r.setSlot count slot))
      (Spawned test total count r slot) os := by
  have refused {middle : Os} (here : Sound test total count r middle) :
      Spawned test total count r slot (-1, r.setSlot count slot) (middle.refuse count) := by
    refine .error (fun entered there stopped => ?_) (here.fresh count le_rfl).2.1
    apply here.enter room there stopped
    · exact fun _ => mem_cons_self
    · exact fun i other => by simp [other]
  have allowed {middle : Os} (here : Sound test total count r middle) (call : Syscall)
      (own : call = .pipe count ∨ call = .fork count) :
      AllowedFor test total count call middle := by
    refine .inr ⟨own, (here.fresh count le_rfl).2.2, ?_, room, plain⟩
    rw [here.reported_length]
    exact here.next_le
  unfold spawnJob
  apply ensures_perform (sound_stable test total count r) sound
  intro middle here
  refine ⟨allowed here _ (.inl rfl), ?_⟩
  intro reply after performed
  cases performed with
  | noPipe => exact ensures_pure (spawned_stable _) (refused here)
  | pipe =>
    dsimp only
    apply ensures_perform (sound_stable test total count r) here
    intro middle here
    refine ⟨allowed here _ (.inr rfl), ?_⟩
    intro reply after performed
    cases performed with
    | noFork => exact ensures_pure (spawned_stable _) (refused here)
    | fork =>
      have there : SlotSound (test count) { slot with running := true }
          (some (.forked (text count))) := by
        refine ⟨named, ?_, fun _ => ⟨empty, _, rfl, rfl, rfl⟩, ?_, ?_⟩
        · intro flagged
          rw [plain] at flagged
          cases flagged
        · exact fun _ stopped => by cases stopped
        · exact fun stopped => by cases stopped
      dsimp only
      rw [setSlot_same, setSlot_setSlot]
      apply ensures_pure (spawned_stable _)
      apply Spawned.child (here.spawn room _ there rfl)
      rw [setChild_same]
      exact some_ne_none _

structure Called (test : Nat → Test) (total count : Nat) (r after : Runner) (os : Os) : Prop where
  sound : Sound test total (count + 1) after os
  jobs : after.jobs = r.jobs
  one_more : after.runningCount ≤ r.runningCount + 1
  unforked : os.children count = none → after.runningCount = r.runningCount
  free : os.children count ≠ none → r.jobs ≠ 1 ∧ r.runningCount + 1 < r.jobs →
    after.runningCount = r.runningCount + 1
  head : os.children count ≠ none → r.jobs = 1 ∨ r.jobs ≤ r.runningCount + 1 →
    ∀ head ≤ count, HeadAt test r.nextToReport head →
      (head = count ∨ (r.slots head).running = true → after.runningCount ≤ r.runningCount) ∧
      (head ≠ count → (r.slots head).running = false →
        after.runningCount = r.runningCount + 1)

theorem called_stable (after : Runner) :
    (world cap text).Stable (Called test total count r after) := by
  intro os later called drifted
  have forked (there : later.children count ≠ none) : os.children count ≠ none :=
    fun unforked => there (unforked_stable count os later unforked drifted)
  have unforked (there : later.children count = none) : os.children count = none := by
    by_contra forked
    exact forked_stable count os later forked drifted there
  exact ⟨sound_stable test total _ after os later called.sound drifted, called.jobs,
    called.one_more, fun there => called.unforked (unforked there), fun there => called.free (forked there),
    fun there => called.head (forked there)⟩

variable (call : Syscall)

theorem unforked_kept (os : Os) (reply : Reply) (after : Os)
    (quiet : Reports test total call os) (unforked : os.children i = none)
    (performed : (world cap text).perform call os reply after) : after.children i = none := by
  cases performed with
  | pipe | noPipe | noFork | wnohang | print => exact unforked
  | fork => cases quiet
  | waitpid slot _ _ child status found _ _ | drain slot _ child _ found _ _ _ _ =>
    rw [setChild_other]
    · exact unforked
    · rintro rfl
      rw [unforked] at found
      cases found

theorem forked_kept (os : Os) (reply : Reply) (after : Os) (forked : os.children i ≠ none)
    (performed : Performs text call os reply after) : after.children i ≠ none := by
  cases performed with
  | pipe | noPipe | noFork | wnohang | print => exact forked
  | fork slot | waitpid slot | drain slot =>
    by_cases same : i = slot
    · subst same
      rw [setChild_same]
      exact some_ne_none _
    · rw [setChild_other same]
      exact forked

variable {after : Runner}

theorem Later.subset (onward : Later r after) : after.inFlight count ⊆ r.inFlight count := by
  intro i member
  obtain ⟨below, still⟩ := Finset.mem_filter.1 member
  exact Finset.mem_filter.2 ⟨below, onward.running i still⟩

variable {later : Os}

theorem Later.atMost (onward : Later r after)
    (before : Sound test total count r os) (there : Sound test total count after later) :
    after.runningCount ≤ r.runningCount := by
  rw [there.inFlight, before.inFlight]
  exact_mod_cast Finset.card_le_card onward.subset

theorem Later.fewer {head : Nat} (onward : Later r after)
    (before : Sound test total count r os) (there : Sound test total count after later)
    (running : (r.slots head).running = true) (past : head < after.nextToReport) :
    after.runningCount < r.runningCount := by
  have known : head < count := past.trans_le there.next_le
  have subset : after.inFlight count ⊂ r.inFlight count := by
    rw [Finset.ssubset_iff_of_subset onward.subset]
    refine ⟨head, Finset.mem_filter.2 ⟨Finset.mem_range.2 known, running⟩, ?_⟩
    intro member
    have still := (Finset.mem_filter.1 member).2
    rw [there.finished head past] at still
    cases still
  rw [there.inFlight, before.inFlight]
  exact_mod_cast Finset.card_lt_card subset

variable {prog : Prog Syscall Reply α} {post : α → Os → Prop} {α : Type}

theorem allowed_of_reports
    {index : Nat} (ensured : (world cap text).Ensures (Reports test total) prog post os) :
    (world cap text).Ensures (AllowedFor test total index) prog post os :=
  ensured.allow fun _ _ quiet => .inl quiet

theorem allowed_of_call
    (index : Nat) (ensured : (world cap text).Ensures (AllowedFor test total index) prog post os) :
    (world cap text).Ensures (Allowed test total) prog post os :=
  ensured.allow fun _ _ allowed => ⟨index, allowed⟩

theorem ensures_reportNew {entered : Runner} (sound : Sound test total (count + 1) entered os)
    (unforked : os.children count = none) (jobs : entered.jobs = r.jobs)
    (flight : entered.runningCount = r.runningCount) :
    (world cap text).Ensures (AllowedFor test total count)
      (reportThrough count entered >>= fun r => pure ((0 : Int), r))
      (fun result os => Called test total count r result.2 os) os := by
  apply ensures_bind
  refine (allowed_of_reports ((ensures_reportRounds _ sound (Nat.lt_succ_self count)).frame
    (unforked_kept count) (unforked_stable count) unforked)).weaken ?_
  rintro after os ⟨⟨⟨there, onward⟩, same⟩, still⟩
  apply ensures_pure
  · exact called_stable after
  · have kept : after.runningCount = r.runningCount := same.trans flight
    exact ⟨there, onward.jobs.trans jobs, by dsimp only; omega, fun _ => kept,
      fun forked => absurd still forked, fun forked => absurd still forked⟩

theorem ensures_reapNew (sound : Sound test total (count + 1)
      { r.setSlot count { slot with running := true } with
        runningCount := r.runningCount + 1 } os)
    (forked : os.children count ≠ none) (full : r.jobs = 1 ∨ r.jobs ≤ r.runningCount + 1) :
    (world cap text).Ensures (AllowedFor test total count)
      (reapThrough count
        { r.setSlot count { slot with running := true } with
          runningCount := r.runningCount + 1 } >>= fun r => pure ((0 : Int), r))
      (fun result os => Called test total count r result.2 os) os := by
  apply ensures_bind
  refine (allowed_of_reports ((ensures_reapRounds _ sound (Nat.lt_succ_self count)
    (by omega)).frame
    (fun call os reply after _ => forked_kept count call os reply after) (forked_stable count)
    forked)).weaken ?_
  rintro after later ⟨⟨⟨there, onward⟩, past⟩, still⟩
  apply ensures_pure
  · exact called_stable after
  · refine ⟨there, onward.jobs, onward.atMost sound there, fun unforked => absurd unforked still,
      ?_, ?_⟩
    · rintro _ ⟨many, room⟩
      omega
    · intro _ _ head below at_head
      obtain ⟨runs, stopped⟩ := past head below at_head
      constructor
      · intro running
        have head_runs : (({ r.setSlot count { slot with running := true } with
            runningCount := r.runningCount + 1 } : Runner).slots head).running = true := by
          by_cases same : head = count
          · subst same
            exact congrArg TestSlot.running (setSlot_same ..)
          · rcases running with here | before
            · exact absurd here same
            · exact (congrArg TestSlot.running (setSlot_other same ..)).trans before
        have fewer := onward.fewer sound there head_runs (runs head_runs)
        exact Int.lt_add_one_iff.1 fewer
      · intro other quiet
        exact stopped ((congrArg TestSlot.running (setSlot_other other ..)).trans quiet)

theorem ensures_run (sound : Sound test total count r os) (room : count < total) :
    (world cap text).Ensures (AllowedFor test total count) (lucis_test_run count (test count) r)
      (fun result os => Called test total count r result.2 os) os := by
  have inside : ¬ count ≥ r.total := by
    rw [sound.size]
    omega
  have fresh := sound.fresh count le_rfl
  unfold lucis_test_run
  rw [if_neg inside]
  simp only [setSlot_same, fresh.1]
  have arguments : (filled .zero (test count)).skip = (test count).skip := rfl
  rw [arguments]
  by_cases flagged : (test count).skip = true
  · rw [if_pos flagged]
    have there : SlotSound (test count) (filled .zero (test count)) none := by
      refine ⟨⟨rfl, rfl, rfl⟩, fun _ => ⟨rfl, rfl⟩, ?_, ?_, ?_⟩
      · exact fun running => by cases running
      · intro plain
        rw [flagged] at plain
        cases plain
      · exact fun _ c none_there => by cases none_there
    have entered : Sound test total (count + 1) (r.setSlot count (filled .zero (test count))) os :=
      sound.enter room there rfl (fun plain => by simp [flagged] at plain) fun _ _ => .rfl
    exact ensures_reportNew entered fresh.2.1 rfl rfl
  · rw [if_neg flagged]
    have plain : (test count).skip = false := by simpa using flagged
    apply ensures_bind
    apply (ensures_spawnJob sound room ⟨rfl, rfl, rfl⟩ plain rfl).weaken
    intro result os spawned
    cases spawned with
    | error sound unforked =>
      have there : SlotSound (test count)
          { filled .zero (test count) with
            result := ⟨.fail, "harness error (fork failed)", []⟩ } none := by
        refine ⟨⟨rfl, rfl, rfl⟩, fun _ => ⟨rfl, rfl⟩, ?_, ?_, ?_⟩
        · exact fun running => by cases running
        · intro _ _
          simp only [outcome, plain]
          rfl
        · exact fun _ c none_there => by cases none_there
      simp only [setSlot_same, setSlot_setSlot]
      exact ensures_reportNew (sound _ there rfl) unforked rfl rfl
    | child sound forked =>
      have spawned : ¬ (0 : Int) ≠ 0 := by simp
      simp only [if_neg spawned]
      have jobs (slot : TestSlot) : (r.setSlot count slot).jobs = r.jobs := rfl
      have flight (slot : TestSlot) :
          (r.setSlot count slot).runningCount = r.runningCount := rfl
      simp only [jobs, flight]
      split
      · next one => exact ensures_reapNew sound forked (.inl one)
      · next several =>
        split
        · next full => exact ensures_reapNew sound forked (.inr full)
        · next room =>
          apply ensures_pure
          · exact called_stable _
          · refine ⟨sound, rfl, le_rfl, fun unforked => absurd unforked forked, fun _ _ => rfl, ?_⟩
            rintro _ (one | full)
            · exact absurd one several
            · exact absurd full room

end Calls

section End

variable {cap : Nat} {text : Nat → List UInt8} {test : Nat → Test} {total slot : Nat} {os after : Os}

/-- The steps a child may take. -/
def stepsLeft : Option Child → Nat
  | some child => if child.phase = .running then child.pending.length + 1 else 0
  | none => 0

variable {child moved : Child}

theorem childStep_left (step : ChildStep cap child moved) :
    stepsLeft (some moved) < stepsLeft (some child) := by
  have running := (childStep_moves step).1
  cases step with
  | write chunk rest _ next some_bytes _ =>
    have shorter := length_pos_iff.2 some_bytes
    simp only [stepsLeft, if_pos running, next, length_append]
    omega
  | exit | crash => simp [stepsLeft, running]

/-- No slot from `count` on has a child. -/
def Few (count : Nat) (os : Os) : Prop := ∀ i, count ≤ i → os.children i = none

theorem Few.drift {count : Nat} (few : Few count os) (drifted : Drift cap os after) :
    Few count after ∧ ((Finset.range count).sum fun i => stepsLeft (after.children i)) <
      (Finset.range count).sum fun i => stepsLeft (os.children i) := by
  obtain ⟨slot, child, moved, found, step⟩ := drifted
  have inside : slot < count := by
    by_contra beyond
    rw [few slot (Nat.not_lt.1 beyond)] at found
    cases found
  constructor
  · intro i from_count
    rw [setChild_other (by omega)]
    exact few i from_count
  · apply Finset.sum_lt_sum
    · intro i _
      by_cases same : i = slot
      · subst same
        rw [setChild_same, found]
        exact (childStep_left step).le
      · rw [setChild_other same]
    · refine ⟨slot, Finset.mem_range.2 inside, ?_⟩
      rw [setChild_same, found]
      exact childStep_left step

theorem Few.rests {count : Nat} (few : Few count os) :
    Acc (fun after before => Drift cap before after) os := by
  generalize size : ((Finset.range count).sum fun i => stepsLeft (os.children i)) = left
  induction left using Nat.strong_induction_on generalizing os with
  | _ left ih =>
    subst size
    constructor
    intro after drifted
    obtain ⟨still, fewer⟩ := few.drift drifted
    exact ih _ fewer still rfl

theorem Few.put {count : Nat} (few : Few count os) (slot : Nat) (child : Child) :
    Few (max count (slot + 1)) (os.setChild slot child) := by
  intro i beyond
  rw [setChild_other (by omega)]
  exact few i (by omega)

/-- Beside children that write finite texts every program of system calls ends. -/
theorem calls_end {α : Type} (cap : Nat) (text : Nat → List UInt8) (prog : Prog Syscall Reply α) :
    Ends (world cap text) (prog, Os.start) := by
  have acts (call : Syscall) (os : Os) (reply : Reply) (after : Os) (some_few : ∃ count, Few count os)
      (performed : (world cap text).perform call os reply after) : ∃ count, Few count after := by
    obtain ⟨count, few⟩ := some_few
    cases performed with
    | pipe | noPipe | noFork | wnohang | print => exact ⟨count, few⟩
    | fork slot | waitpid slot | drain slot => exact ⟨_, few.put slot _⟩
  have drifts : (world cap text).Stable fun os => ∃ count, Few count os := by
    rintro os after ⟨count, few⟩ drifted
    exact ⟨count, (few.drift drifted).1⟩
  have rests (os : Os) (some_few : ∃ count, Few count os) :
      Acc (fun after before => (world cap text).drift before after) os := by
    obtain ⟨count, few⟩ := some_few
    exact few.rests
  exact ends_of_rests acts drifts rests prog ⟨0, fun _ _ => rfl⟩

theorem drain_answers (found : os.children slot = some child) (gone : child.phase ≠ .running) :
    ∃ read, Performs text (.drain slot) os (.chunks read)
      (os.setChild slot { child with pipe := [] }) := by
  refine ⟨child.pipe.map fun byte => [byte], .drain slot os child _ found gone ?_ ?_ ?_⟩
  · induction child.pipe with
    | nil => rfl
    | cons byte rest ih => simpa using ih
  · simp
  · simp [readSize]

/-- The harness is never without a step: a child it waits for can at least die. -/
theorem goes_on {α : Type} {call : Syscall} {next : Reply → Prog Syscall Reply α}
    (allowed : Allowed test total call os) :
    ∃ state, (world cap text).Step (.act call next, os) state := by
  cases call with
  | pipe slot => exact ⟨_, .act (.pipe slot os)⟩
  | fork slot => exact ⟨_, .act (.fork slot os)⟩
  | print line => exact ⟨_, .act (.print line os)⟩
  | drain slot =>
    obtain ⟨_, ⟨child, found, gone⟩ | ⟨same | same, _⟩⟩ := allowed
    · obtain ⟨read, performed⟩ := drain_answers found gone
      exact ⟨_, .act performed⟩
    · cases same
    · cases same
  | waitpid slot blocking =>
    obtain ⟨_, ⟨child, found, unreaped⟩ | ⟨same | same, _⟩⟩ := allowed
    · cases phase : child.phase with
      | running => exact ⟨_, .drift (.child os slot child _ found (.crash child sigKill phase))⟩
      | dead status => exact ⟨_, .act (.waitpid slot blocking os child status found phase unreaped)⟩
    · cases same
    · cases same

end End

section Main

variable {cap : Nat} {text : Nat → List UInt8} {test : Nat → Test} {total : Nat}
  {r : Runner} {os : Os}

/-- The jobs of a harness that was asked for `jobs`. -/
def jobsFor (total : Nat) (jobs : Int) : Int := max 1 (min (max 1 jobs) total)

theorem sound_begin (test : Nat → Test) (total : Nat) (jobs : Int) (verbose : Bool)
    (quiet : reported os.stdout = []) (childless : ∀ i, os.children i = none)
    (untried : os.refused = []) :
    Sound test total 0 ⟨fun _ => .zero, total, jobs, verbose, 0, 0, 0, 0, 0⟩ os := by
  refine ⟨rfl, Nat.zero_le _, le_rfl, ?_, fun i _ => ⟨rfl, childless i, ?_⟩, ?_, ?_, rfl, quiet,
    ?_, ?_, ?_⟩
  · exact fun i below => absurd below (Nat.not_lt_zero i)
  · simp [untried]
  · exact fun i below => absurd below (Nat.not_lt_zero i)
  · exact fun i below => absurd below (Nat.not_lt_zero i)
  · rw [quiet]
    rfl
  · rw [quiet]
    rfl
  · rw [quiet]
    rfl

theorem begin_eq (total : Nat) (jobs : Int) (verbose : Bool) : lucis_test_begin total jobs verbose =
      (if (total : Int) > 0 then perform (.print (.header total)) else pure .done) >>= fun _ =>
        pure (0, ⟨fun _ => .zero, total, jobsFor total jobs, verbose, 0, 0, 0, 0, 0⟩) := by
  have plain : ¬ (total : Int) < 0 := by omega
  have clamped : (if (if (if jobs < 1 then 1 else jobs) > (total : Int) then (total : Int)
      else if jobs < 1 then 1 else jobs) < 1 then 1
      else if (if jobs < 1 then 1 else jobs) > (total : Int) then (total : Int)
      else if jobs < 1 then 1 else jobs) = jobsFor total jobs := by
    unfold jobsFor
    split_ifs <;> omega
  unfold lucis_test_begin
  simp only [if_neg plain, clamped, Int.toNat_natCast]

theorem ensures_begin (test : Nat → Test) (total : Nat) (jobs : Int) (verbose : Bool) :
    (world cap text).Ensures (Allowed test total) (lucis_test_begin total jobs verbose)
      (fun result os => Sound test total 0 result.2 os ∧ result.2.jobs = jobsFor total jobs)
      Os.start := by
  rw [begin_eq]
  have fresh : Sound test total 0
      ⟨fun _ => .zero, total, jobsFor total jobs, verbose, 0, 0, 0, 0, 0⟩ Os.start :=
    sound_begin test total _ verbose rfl (fun _ => rfl) rfl
  have finish {os : Os} (sound : Sound test total 0
      ⟨fun _ => .zero, total, jobsFor total jobs, verbose, 0, 0, 0, 0, 0⟩ os) :
      (world cap text).Ensures (Allowed test total)
        (pure ((0 : Int), (⟨fun _ => .zero, total, jobsFor total jobs, verbose, 0, 0, 0, 0, 0⟩ :
          Runner)))
        (fun result os => Sound test total 0 result.2 os ∧ result.2.jobs = jobsFor total jobs) os := by
    apply ensures_pure
    · exact stable_and_const (sound_stable test total 0 _)
    · exact ⟨sound, rfl⟩
  by_cases some_tests : (total : Int) > 0
  · rw [if_pos some_tests]
    apply ensures_perform (sound_stable test total 0 _) fresh
    intro middle here
    refine ⟨⟨0, .inl trivial⟩, ?_⟩
    intro reply after performed
    cases performed
    exact finish (here.print rfl)
  · rw [if_neg some_tests]
    exact finish fresh

variable (tests : List Test)

theorem ensures_runTests (index : Nat)
    (sound : Sound test total index r os) (all : index + tests.length = total)
    (named : ∀ j (h : j < tests.length), test (index + j) = tests[j]) :
    (world cap text).Ensures (Allowed test total) (runTests index tests r)
      (Sound test total total) os := by
  induction tests generalizing index r os with
  | nil =>
    have done : index = total := all
    subst done
    apply ensures_pure
    · exact sound_stable test index index r
    · exact sound
  | cons head rest ih =>
    rw [length_cons] at all
    rw [runTests, ← show test index = head from named 0 (by simp)]
    apply ensures_bind
    apply (allowed_of_call _ (ensures_run sound (by omega))).weaken
    intro result os called
    apply ih (index + 1) called.sound (by omega)
    intro j below
    have shifted := named (j + 1) (by simpa using below)
    rw [show index + 1 + j = index + (j + 1) by omega]
    simpa using shifted

structure Ended (test : Nat → Test) (total : Nat) (result : Int × Runner) (os : Os) : Prop where
  sound : Sound test total total result.2 os
  all : result.2.nextToReport = total
  answer : result.1 = if result.2.failed > 0 then 1 else 0

theorem ensures_end (sound : Sound test total total r os) :
    (world cap text).Ensures (Allowed test total) (lucis_test_end r) (Ended test total) os := by
  unfold lucis_test_end
  apply ensures_bind
  have left : r.nextToReport + (r.total - r.nextToReport) = total := by
    have size := sound.size
    have next_le := sound.next_le
    omega
  apply (allowed_of_call 0 (allowed_of_reports (ensures_reapRest _ sound left))).weaken
  rintro after os ⟨⟨there, _⟩, all⟩
  have finish {os : Os} (there : Sound test total total after os) :
      (world cap text).Ensures (Allowed test total)
        (pure (if after.failed > 0 then (1 : Int) else 0, after)) (Ended test total) os := by
    apply ensures_pure
    · exact fun os after ended drifted =>
        ⟨sound_stable test total total _ os after ended.sound drifted, ended.all, ended.answer⟩
    · exact ⟨there, all, rfl⟩
  by_cases some_tests : after.total > 0
  · rw [if_pos some_tests]
    apply ensures_perform (sound_stable test total total after) there
    intro middle here
    refine ⟨⟨0, .inl trivial⟩, ?_⟩
    intro reply later performed
    cases performed
    exact finish (here.print rfl)
  · rw [if_neg some_tests]
    exact finish there

def testAt (tests : List Test) (i : Nat) : Test :=
  tests.getD i ⟨none, false, none, false, 0⟩

theorem ensures_main (jobs : Int) (verbose : Bool) :
    (world cap text).Ensures (Allowed (testAt tests) tests.length) (testMain tests jobs verbose)
      (Ended (testAt tests) tests.length) Os.start := by
  unfold testMain
  apply ensures_bind
  apply (ensures_begin (testAt tests) tests.length jobs verbose).weaken
  rintro ⟨_, r⟩ os ⟨sound, _⟩
  apply ensures_bind
  have named : ∀ j (h : j < tests.length), testAt tests (0 + j) = tests[j] := by
    intro j below
    simp [testAt, below]
  apply (ensures_runTests tests 0 sound (Nat.zero_add _) named).weaken
  intro r os sound
  exact ensures_end sound

/-- What has been printed at any time: the outcomes of the first tests, in order, whose
children are reaped. -/
def Orderly (test : Nat → Test) (total : Nat) (os : Os) : Prop :=
  ∃ count ≤ total, reported os.stdout = reports test os count ∧
    ∀ i < count, Done (os.children i) ∧ Tried test os i

theorem orderly_kept {test : Nat → Test} {total : Nat} {call : Syscall} {os after : Os}
    {reply : Reply} (allowed : Allowed test total call os) (orderly : Orderly test total os)
    (performed : (world cap text).perform call os reply after) : Orderly test total after := by
  obtain ⟨count, below, lines, done⟩ := orderly
  have length : (reported os.stdout).length = count := by
    rw [lines, reports, length_map, length_range]
  -- a child changes that was not reported, or one that keeps its outcome
  have changed {slot : Nat} {child : Child}
      (kept : slot < count → os.children slot ≠ none ∧ Done (some child) ∧
        outcome (test slot) (some child) = outcome (test slot) (os.children slot)) :
      Orderly test total (os.setChild slot child) := by
    refine ⟨count, below, ?_, ?_⟩
    · rw [setChild_stdout, lines]
      symm
      apply reports_congr
      intro i reported_i
      by_cases same : i = slot
      · subst same
        rw [setChild_same]
        exact (kept reported_i).2.2
      · rw [setChild_other same]
    · intro i reported_i
      unfold Tried
      by_cases same : i = slot
      · subst same
        obtain ⟨forked, gone, _⟩ := kept reported_i
        rw [setChild_same]
        refine ⟨gone, fun plain => iff_of_false (some_ne_none child) fun refused => ?_⟩
        exact forked (((done i reported_i).2 plain).2 refused)
      · rw [setChild_other same]
        exact done i reported_i
  -- a test is forked after those that were reported
  have late {slot : Nat} (tries : call = .pipe slot ∨ call = .fork slot) : count ≤ slot := by
    obtain ⟨index, quiet | ⟨own, _, later, _⟩⟩ := allowed
    · rcases tries with rfl | rfl <;> cases quiet
    · rcases tries with rfl | rfl <;> rcases own with same | same <;> cases same <;> omega
  have refused {slot : Nat} (late : count ≤ slot) : Orderly test total (os.refuse slot) := by
    refine ⟨count, below, lines, fun i early => ⟨(done i early).1, fun plain => ?_⟩⟩
    have other : i ≠ slot := by omega
    have tried := (done i early).2 plain
    simpa [Os.refuse, other] using tried
  cases performed with
  | pipe | wnohang => exact ⟨count, below, lines, done⟩
  | noPipe slot => exact refused (late (.inl rfl))
  | noFork slot => exact refused (late (.inr rfl))
  | fork slot =>
    apply changed
    intro early
    exact absurd (late (.inr rfl)) (Nat.not_le.2 early)
  | waitpid slot _ _ child status found dead unreaped =>
    apply changed
    intro early
    have reaped := ((done slot early).1 child found).1
    rw [unreaped] at reaped
    cases reaped
  | drain slot _ child read found =>
    apply changed
    intro early
    rw [found]
    refine ⟨some_ne_none child, ?_, rfl⟩
    rintro _ ⟨⟩
    exact (done slot early).1 child found
  | print line =>
    cases plain : line.report with
    | none =>
      refine ⟨count, below, ?_, done⟩
      rw [reported_append, plain, toList_none, append_nil, lines]
      rfl
    | some report =>
      obtain ⟨tag, name, detail, rfl⟩ : ∃ tag name detail, line = .status tag name detail := by
        cases line with
        | status tag name detail => exact ⟨tag, name, detail, rfl⟩
        | header | echo | summary => cases plain
      rcases allowed with ⟨_, ⟨next, own, named, gone⟩ | ⟨same, _⟩⟩
      · rw [length] at next own named gone
        refine ⟨count + 1, next, ?_, ?_⟩
        · rw [reported_append, lines, own, named, reports, reports, range_succ, map_append]
          rfl
        · intro i reported_i
          rcases Nat.lt_succ_iff_lt_or_eq.1 reported_i with before | rfl
          · exact done i before
          · exact gone
      · rcases same with same | same <;> cases same

theorem orderly_stable (test : Nat → Test) (total : Nat) :
    (world cap text).Stable (Orderly test total) := by
  rintro os after ⟨count, below, lines, done⟩ ⟨slot, child, moved, found, step⟩
  have running := (childStep_moves step).1
  have other {i : Nat} (early : i < count) : i ≠ slot := by
    rintro rfl
    exact ((done i early).1 child found).2 running
  refine ⟨count, below, ?_, ?_⟩
  · rw [setChild_stdout, lines]
    symm
    apply reports_congr
    intro i early
    rw [setChild_other (other early)]
  · intro i early
    unfold Tried
    rw [setChild_other (other early)]
    exact done i early

def earned (tests : List Test) (os : Os) : List (OutcomeKind × String) :=
  tests.mapIdx fun i test => (outcome test (os.children i), nameOf test)

theorem reports_earned (os : Os) {count : Nat} (below : count ≤ tests.length) :
    reports (testAt tests) os count = (earned tests os).take count := by
  apply ext_getElem
  · simp [reports, earned, below]
  · intro i left right
    have inside : i < count := by simpa [reports] using left
    simp [reports, earned, testAt, show i < tests.length by omega]

theorem countP_three (lines : List (OutcomeKind × String)) :
    (lines.countP fun line => line.1 = .pass) + (lines.countP fun line => line.1 = .fail) +
      (lines.countP fun line => line.1 = .skip) = lines.length := by
  induction lines with
  | nil => rfl
  | cons line rest ih =>
    obtain ⟨tag, name⟩ := line
    simp only [countP_cons, length_cons]
    cases tag <;> simp <;> omega

/-- The accounting of the harness, for every interleaving with its children. Every run comes to
its end. At any time the first tests are reported, in index order and with their own
outcomes, their children are reaped, and those without a child could not be forked; in the
end all are reported, the three counters add up, and the answer tells of a failure. -/
theorem reports_exact (cap : Nat) (text : Nat → List UInt8) (tests : List Test) (jobs : Int)
    (verbose : Bool) :
    Ends (world cap text) (testMain tests jobs verbose, Os.start) ∧
    (∀ prog os, (world cap text).Steps (testMain tests jobs verbose, Os.start) (prog, os) →
      ((∃ result, prog = .pure result) ∨ ∃ state, (world cap text).Step (prog, os) state) ∧
      ∃ count ≤ tests.length, reported os.stdout = (earned tests os).take count ∧
        ∀ i < count, (∀ child, os.children i = some child → child.reaped = true) ∧
          Tried (testAt tests) os i) ∧
    (∀ answer r os,
      (world cap text).Steps (testMain tests jobs verbose, Os.start) (.pure (answer, r), os) →
      reported os.stdout = earned tests os ∧
        r.passed = ((earned tests os).countP fun report => report.1 = .pass) ∧
        r.failed = ((earned tests os).countP fun report => report.1 = .fail) ∧
        r.skipped = ((earned tests os).countP fun report => report.1 = .skip) ∧
        r.passed + r.failed + r.skipped = tests.length ∧
        (answer ≠ 0 ↔ ∃ i, ∃ known : i < tests.length,
          outcome tests[i] (os.children i) = .fail)) := by
  have ensured : (world cap text).Ensures (Allowed (testAt tests) tests.length)
      (testMain tests jobs verbose) (Ended (testAt tests) tests.length) Os.start :=
    ensures_main tests jobs verbose
  refine ⟨calls_end cap text _, ?_, ?_⟩
  · intro prog os steps
    constructor
    · cases prog with
      | pure result => exact .inl ⟨result, rfl⟩
      | act call next => exact .inr (goes_on (ensured.guarded steps))
    have start : Orderly (testAt tests) tests.length Os.start :=
      ⟨0, Nat.zero_le _, rfl, fun i early => absurd early (Nat.not_lt_zero i)⟩
    obtain ⟨count, below, lines, done⟩ := ensured.invariant
      (fun _ _ _ _ allowed orderly performed => orderly_kept allowed orderly performed)
      (orderly_stable _ _) start steps
    refine ⟨count, below, ?_, fun i early => ⟨fun child found => ?_, (done i early).2⟩⟩
    · rw [lines, reports_earned tests os below]
    · exact ((done i early).1 child found).1
  · intro answer r os steps
    obtain ⟨sound, all, answered⟩ := ensured.result steps
    dsimp only at sound all answered
    have lines : reported os.stdout = earned tests os := by
      rw [sound.lines, all, reports_earned tests os le_rfl, take_of_length_le]
      simp [earned]
    have size : (earned tests os).length = tests.length := by simp [earned]
    have passed := sound.passed
    have failed := sound.failed
    have skipped := sound.skipped
    rw [lines] at passed failed skipped
    refine ⟨lines, passed, failed, skipped, ?_, ?_⟩
    · rw [passed, failed, skipped, countP_three, size]
    · have some_failed : answer ≠ 0 ↔ 0 < r.failed := by
        rw [answered]
        split <;> simp_all
      rw [some_failed, failed, countP_pos_iff]
      simp only [earned, mem_mapIdx, decide_eq_true_eq]
      constructor
      · rintro ⟨_, ⟨i, known, rfl⟩, fails⟩
        exact ⟨i, known, fails⟩
      · rintro ⟨i, known, fails⟩
        exact ⟨_, ⟨i, known, rfl⟩, fails⟩

end Main

end Lucis.TestRunner
