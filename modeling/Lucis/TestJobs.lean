import Lucis.TestReports

/-!
How many test processes run at once. A call that fills the last job reaps through its
own test, which stops at the first test that is not skipped if that one is finished
and not reported; the sweep of an earlier call leaves such tests behind.
-/

namespace Lucis.TestRunner

open Programs
open Programs.World

structure Session (cap : Nat) (text : Nat → List UInt8) (tests : List Test) (jobs : Int)
    (verbose : Bool) (rs : Nat → Runner) (es : Nat → Os) (calls : Nat) : Prop where
  known : calls ≤ tests.length
  begins : ∃ answer, (world cap text).Steps
    (lucis_test_begin tests.length jobs verbose, Os.start) (.pure (answer, rs 0), es 0)
  runs : ∀ k < calls, ∃ answer, (world cap text).Steps
    (lucis_test_run k (testAt tests k) (rs k), es k) (.pure (answer, rs (k + 1)), es (k + 1))

/-- The call for test `k` filled the last job with its own child. -/
def FillsLast (jobs : Int) (rs : Nat → Runner) (es : Nat → Os) (k : Nat) : Prop :=
  (es (k + 1)).children k ≠ none ∧ jobs ≤ (rs k).runningCount + 1

/-- The oldest test that is not skipped and not reported still runs, if there is one. -/
def HeadRuns (test : Nat → Test) (r : Runner) (count : Nat) : Prop :=
  ∀ head < count, HeadAt test r.nextToReport head → (r.slots head).running = true

def unreaped : Option Child → Bool
  | some child => !child.reaped
  | none => false

def Os.inFlight (os : Os) (total : Nat) : Finset Nat :=
  (Finset.range total).filter fun i => unreaped (os.children i) = true

section Bound

variable {cap : Nat} {text : Nat → List UInt8} {tests : List Test} {jobs : Int} {verbose : Bool}
  {rs : Nat → Runner} {es : Nat → Os} {calls k : Nat}

variable (session : Session cap text tests jobs verbose rs es calls)
include session

theorem Session.sound
    (below : k ≤ calls) : Sound (testAt tests) tests.length k (rs k) (es k) ∧
      (rs k).jobs = jobsFor tests.length jobs := by
  induction k with
  | zero =>
    obtain ⟨answer, steps⟩ := session.begins
    exact (ensures_begin (testAt tests) tests.length jobs verbose).result steps
  | succ k ih =>
    obtain ⟨sound, same_jobs⟩ := ih (by omega)
    obtain ⟨answer, steps⟩ := session.runs k (by omega)
    have called := (ensures_run sound (by have := session.known; omega)).result steps
    exact ⟨called.sound, called.jobs.trans same_jobs⟩

theorem Session.called (below : k < calls) :
    Called (testAt tests) tests.length k (rs k) (rs (k + 1)) (es (k + 1)) := by
  obtain ⟨sound, _⟩ := session.sound below.le
  obtain ⟨answer, steps⟩ := session.runs k below
  exact (ensures_run sound (by have := session.known; omega)).result steps

variable {test : Nat → Test}

omit session in
theorem exists_head {next : Nat} (plain : (test k).skip = false)
    (from_next : next ≤ k) : ∃ head ≤ k, HeadAt test next head := by
  induction k using Nat.strong_induction_on with
  | _ k ih =>
    by_cases earlier : ∃ j, next ≤ j ∧ j < k ∧ (test j).skip = false
    · obtain ⟨j, later, before, other⟩ := earlier
      obtain ⟨head, to_j, at_head⟩ := ih j before other later
      exact ⟨head, by omega, at_head⟩
    · refine ⟨k, le_rfl, from_next, plain, fun j later before => ?_⟩
      by_contra unflagged
      exact earlier ⟨j, later, before, by simpa using unflagged⟩

theorem Session.step (positive : 1 ≤ jobs) (below : k < calls) (bound : (rs k).runningCount < jobs)
    (ready : FillsLast jobs rs es k → HeadRuns (testAt tests) (rs k) k) :
    (rs (k + 1)).runningCount < jobs := by
  obtain ⟨sound, same_jobs⟩ := session.sound below.le
  have called := session.called below
  have _ := session.known
  by_cases forked : (es (k + 1)).children k = none
  · rw [called.unforked forked]
    exact bound
  · by_cases room : (rs k).runningCount + 1 < jobs
    · exact called.one_more.trans_lt room
    · have heads := ready ⟨forked, by omega⟩
      have plain : (testAt tests k).skip = false := by
        by_contra flagged
        exact forked ((called.sound.slots k (by omega)).skipped (by simpa using flagged)).2
      obtain ⟨head, to_k, at_head⟩ := exists_head plain sound.next_le
      have full : (rs k).jobs = 1 ∨ (rs k).jobs ≤ (rs k).runningCount + 1 := by
        right
        rw [same_jobs, jobsFor]
        omega
      have fewer := (called.head forked full head to_k at_head).1 (by
        rcases Nat.lt_or_eq_of_le to_k with before | here
        · exact .inr (heads head before at_head)
        · exact .inl here)
      omega

variable {os : Os}

omit session in
theorem Sound.unreaped_inFlight {total count : Nat} {r : Runner}
    (sound : Sound test total count r os) {i : Nat} (there : unreaped (os.children i) = true) :
    i ∈ r.inFlight count := by
  cases found : os.children i with
  | none =>
    rw [found] at there
    cases there
  | some child =>
    have known := sound.known found
    refine Finset.mem_filter.2 ⟨Finset.mem_range.2 known, ?_⟩
    by_contra stopped
    have reaped := ((sound.slots i known).reaped (by simpa using stopped) child found).1
    rw [found, unreaped, reaped] at there
    cases there

def OneMore (before : Os) (k : Nat) (os : Os) : Prop :=
  ∀ i, unreaped (os.children i) = true → i = k ∨ unreaped (before.children i) = true

omit session in
theorem oneMore_kept {total : Nat} {before after : Os} {call : Syscall}
    {reply : Reply} (allowed : AllowedFor test total k call os) (holds : OneMore before k os)
    (performed : (world cap text).perform call os reply after) : OneMore before k after := by
  have changed {slot : Nat} {child : Child}
      (known : child.reaped = false → slot = k ∨ unreaped (os.children slot) = true) :
      OneMore before k (os.setChild slot child) := by
    intro i there
    by_cases same : i = slot
    · subst same
      rw [setChild_same] at there
      rcases known (by simpa [unreaped] using there) with here | earlier
      · exact .inl here
      · exact holds i earlier
    · rw [setChild_other same] at there
      exact holds i there
  cases performed with
  | pipe | noPipe | noFork | wnohang | print => exact holds
  | fork slot =>
    apply changed
    intro _
    rcases allowed with quiet | ⟨same | same, _⟩
    · cases quiet
    · cases same
    · cases same
      exact .inl rfl
  | waitpid slot _ _ child status found dead unreaped' =>
    apply changed
    intro reaped
    cases reaped
  | drain slot _ child read found =>
    apply changed
    intro still
    right
    rw [found, unreaped]
    simpa using still

omit session in
theorem oneMore_stable (before : Os) (k : Nat) : (world cap text).Stable (OneMore before k) := by
  rintro os after holds ⟨slot, child, moved, found, step⟩ i there
  by_cases same : i = slot
  · subst same
    rw [setChild_same] at there
    apply holds
    rw [found]
    simpa [unreaped, (childStep_moves step).2.1] using there
  · rw [setChild_other same] at there
    exact holds i there

theorem Session.inFlight_le (below : k < calls) (bound : (rs k).runningCount < jobs)
    {prog}
    (steps : (world cap text).Steps (lucis_test_run k (testAt tests k) (rs k), es k) (prog, os)) :
    ((os.inFlight tests.length).card : Int) ≤ jobs := by
  obtain ⟨sound, _⟩ := session.sound below.le
  have ensured : (world cap text).Ensures (AllowedFor (testAt tests) tests.length k)
      (lucis_test_run k (testAt tests k) (rs k)) _ (es k) :=
    ensures_run sound (by have := session.known; omega)
  have held : OneMore (es k) k os := ensured.invariant
    (fun _ _ _ _ allowed holds performed => oneMore_kept allowed holds performed)
    (oneMore_stable _ _) (fun _ there => .inr there) steps
  have subset : os.inFlight tests.length ⊆ insert k ((rs k).inFlight k) := by
    intro i member
    rcases held i (Finset.mem_filter.1 member).2 with here | before
    · exact Finset.mem_insert.2 (.inl here)
    · exact Finset.mem_insert.2 (.inr (sound.unreaped_inFlight before))
  have size := (Finset.card_le_card subset).trans (Finset.card_insert_le ..)
  have count := sound.inFlight
  omega

omit session

/-- The bound on the jobs holds along a run just if, at each call that fills the last job,
the oldest unreported test that is not skipped still runs. -/
theorem below_jobs_iff (positive : 1 ≤ jobs)
    (session : Session cap text tests jobs verbose rs es calls) :
    ((∀ k ≤ calls, (rs k).runningCount < jobs) ∧
      ∀ k < calls, ∀ prog os,
        (world cap text).Steps (lucis_test_run k (testAt tests k) (rs k), es k) (prog, os) →
          ((os.inFlight tests.length).card : Int) ≤ jobs) ↔
    ∀ k < calls, FillsLast jobs rs es k → HeadRuns (testAt tests) (rs k) k := by
  constructor
  · rintro ⟨bound, _⟩ k below ⟨forked, full⟩ head before at_head
    have known := session.known
    have called := session.called below
    have same_jobs := (session.sound below.le).2
    by_contra stopped
    have one_more := (called.head forked (by rw [same_jobs, jobsFor]; omega) head before.le
      at_head).2 before.ne (by simpa using stopped)
    have above := bound (k + 1) below
    omega
  · intro ready
    have bound : ∀ k ≤ calls, (rs k).runningCount < jobs := by
      intro k
      induction k with
      | zero =>
        intro _
        have count := (session.sound (Nat.zero_le calls)).1.inFlight
        have none_there : (rs 0).inFlight 0 = ∅ := rfl
        rw [none_there, Finset.card_empty] at count
        omega
      | succ k ih => exact fun below => session.step positive below (ih (by omega)) (ready k below)
    exact ⟨bound, fun k below prog os steps => session.inFlight_le below (bound k below.le) steps⟩

end Bound

section Play

variable {cap : Nat} {text : Nat → List UInt8}

inductive Move where
  | exit (slot code : Nat)
  | go (ok : Bool)

def answer (text : Nat → List UInt8) (ok : Bool) (call : Syscall) (os : Os) : Option (Reply × Os) :=
  match call, ok with
  | .pipe _, true => some (.done, os)
  | .pipe slot, false => some (.error, os.refuse slot)
  | .fork slot, true => some (.done, os.setChild slot (.forked (text slot)))
  | .fork slot, false => some (.error, os.refuse slot)
  | .waitpid slot blocking, ok =>
    match os.children slot with
    | none => none
    | some child =>
      match child.phase, child.reaped, ok, blocking with
      | .dead status, false, true, _ =>
        some (.status status, os.setChild slot { child with reaped := true })
      | .running, _, false, false => some (.still, os)
      | _, _, _, _ => none
  | .drain slot, _ =>
    match os.children slot with
    | none => none
    | some child =>
      if child.phase ≠ .running ∧ child.pipe = [] then
        some (.chunks [], os.setChild slot { child with pipe := [] })
      else none
  | .print line, _ => some (.done, { os with stdout := os.stdout ++ [line] })

theorem answer_performs {ok : Bool} {call : Syscall} {os after : Os} {reply : Reply}
    (answered : answer text ok call os = some (reply, after)) : Performs text call os reply after := by
  cases call with
  | pipe slot | fork slot => cases ok <;> cases answered <;> constructor
  | print line => cases ok <;> cases answered <;> constructor
  | waitpid slot blocking =>
    cases found : os.children slot with
    | none => simp [answer, found] at answered
    | some child =>
      simp only [answer, found] at answered
      split at answered
      · next status dead unreaped =>
        cases answered
        exact .waitpid slot _ os child status found dead unreaped
      · next running =>
        cases answered
        exact .wnohang slot os child found running
      · cases answered
  | drain slot =>
    cases found : os.children slot with
    | none => simp [answer, found] at answered
    | some child =>
      simp only [answer, found] at answered
      split at answered
      · next drained =>
        cases answered
        exact .drain slot os child [] found drained.1 drained.2.symm
          (fun _ none_there => by cases none_there) (fun _ none_there => by cases none_there)
      · cases answered

def play {α : Type} (text : Nat → List UInt8) :
    List Move → Prog Syscall Reply α × Os → Option (Prog Syscall Reply α × Os)
  | [], state => some state
  | .exit slot code :: rest, (prog, os) =>
    match os.children slot with
    | none => none
    | some child =>
      if child.phase = .running ∧ child.pending = [] then
        play text rest (prog, os.setChild slot { child with phase := .dead (.exited code) })
      else none
  | .go _ :: _, (.pure _, _) => none
  | .go ok :: rest, (.act call next, os) =>
    match answer text ok call os with
    | none => none
    | some (reply, os) => play text rest (next reply, os)

theorem play_steps {α : Type} (moves : List Move) {state last : Prog Syscall Reply α × Os}
    (played : play text moves state = some last) : (world cap text).Steps state last := by
  induction moves generalizing state with
  | nil =>
    cases played
    exact .refl
  | cons move rest ih =>
    obtain ⟨prog, os⟩ := state
    cases move with
    | exit slot code =>
      rw [play] at played
      cases found : os.children slot with
      | none => simp [found] at played
      | some child =>
        simp only [found] at played
        split at played
        · next exits =>
          refine .head (.drift ?_) (ih played)
          exact .child os slot child _ found (.exit child code exits.1 exits.2)
        · cases played
    | go ok =>
      cases prog with
      | pure result => cases played
      | act call next =>
        rw [play] at played
        cases answered : answer text ok call os with
        | none => simp [answered] at played
        | some reply =>
          simp only [answered] at played
          exact .head (.act (answer_performs answered)) (ih played)

theorem runs_of_steps (tests : List Test) (index : Nat) {r last : Runner} {os final : Os}
    (steps : (world cap text).Steps (runTests index tests r, os) (.pure last, final)) :
    ∃ (rs : Nat → Runner) (es : Nat → Os), rs 0 = r ∧ es 0 = os ∧ rs tests.length = last ∧
      ∀ k (below : k < tests.length), ∃ answer, (world cap text).Steps
        (lucis_test_run (index + k) tests[k] (rs k), es k)
        (.pure (answer, rs (k + 1)), es (k + 1)) := by
  induction tests generalizing index r os with
  | nil =>
    refine ⟨fun _ => last, fun _ => os, ?_, rfl, rfl, fun k below => by cases below⟩
    have stays : (world cap text).Ensures (fun _ _ => True) (runTests index [] r)
        (fun result _ => r = result) os := ensures_pure (fun _ _ same _ => same) rfl
    exact (stays.result steps).symm
  | cons test rest ih =>
    rw [runTests] at steps
    obtain ⟨⟨answer, middle⟩, between, first, later⟩ := steps_bind steps
    obtain ⟨rs, es, rfl, rfl, at_last, runs⟩ := ih (index + 1) later
    refine ⟨fun k => k.casesOn r rs, fun k => k.casesOn os es, rfl, rfl, at_last, ?_⟩
    intro k below
    cases k with
    | zero => exact ⟨answer, first⟩
    | succ k =>
      have there := runs k (by simpa using below)
      rw [show index + 1 + k = index + (k + 1) by omega] at there
      simpa using there

def plainTest : Test := ⟨none, false, none, false, 0⟩

def fourCalls : Prog Syscall Reply Runner := do
  let (_, r) ← lucis_test_begin 4 2 false
  runTests 0 (List.replicate 4 plainTest) r

def fourCallsSchedule : List Move :=
  [.go true, .go true, .go true,
    .go true, .go true, .go false, .exit 1 0, .go true, .go true, .exit 0 0, .go true, .go true,
    .go true, .go true, .go true, .go true, .go true]

theorem four_calls : ∃ (rs : Nat → Runner) (es : Nat → Os),
    Session 65536 (fun _ => []) (List.replicate 4 plainTest) 2 false rs es 4 ∧
      (rs 4).runningCount = 2 := by
  have ends : ((play (fun _ => []) fourCallsSchedule (fourCalls, Os.start)).map
      fun state => match state.1 with
        | .pure r => some r.runningCount
        | .act _ _ => none) = some (some 2) := by decide
  obtain ⟨⟨prog, os⟩, played, count⟩ := Option.map_eq_some_iff.1 ends
  cases prog with
  | act call next => cases count
  | pure last =>
    have steps : (world 65536 fun _ => []).Steps (fourCalls, Os.start) (.pure last, os) :=
      play_steps fourCallsSchedule played
    obtain ⟨⟨answer, r⟩, middle, begins, later⟩ := steps_bind steps
    obtain ⟨rs, es, rfl, rfl, rfl, runs⟩ := runs_of_steps _ 0 later
    refine ⟨rs, es, ⟨by decide, ⟨answer, begins⟩, fun k below => ?_⟩, ?_⟩
    · have there := runs k (by simpa using below)
      rw [Nat.zero_add] at there
      simpa [testAt, below] using there
    · simpa using count

/-- With two jobs two children are left after the fourth call. -/
theorem jobs_not_bounded :
    ¬ ∀ cap text tests jobs verbose rs es calls, 1 ≤ jobs →
      Session cap text tests jobs verbose rs es calls →
      ∀ k ≤ calls, (rs k).runningCount < jobs := by
  intro bounded
  obtain ⟨rs, es, session, count⟩ := four_calls
  have below := bounded _ _ _ _ _ rs es 4 (by decide) session 4 le_rfl
  rw [count] at below
  exact absurd below (by decide)

/-- A run to which the law applies, with a call whose head does not run. -/
theorem head_not_running : ∃ (rs : Nat → Runner) (es : Nat → Os),
    ¬ ∀ k < 4, FillsLast 2 rs es k →
      HeadRuns (testAt (List.replicate 4 plainTest)) (rs k) k := by
  obtain ⟨rs, es, session, count⟩ := four_calls
  refine ⟨rs, es, fun ready => ?_⟩
  have below := ((below_jobs_iff (by decide) session).mpr ready).1 4 le_rfl
  rw [count] at below
  exact absurd below (by decide)

end Play

end Lucis.TestRunner
