import Lucis.TestReports

/-!
What the harness captures of its tests. A child that writes more than its pipe holds
cannot end before the pipe is read, and the pipe is read after the child is reaped.
-/

namespace Lucis.TestRunner

open Programs List
open Programs.World

def Stuck (cap : Nat) (call : Syscall) (os : Os) : Prop :=
  ∃ i child, call = .waitpid i true ∧ os.children i = some child ∧
    child.phase = .running ∧ child.pending ≠ [] ∧ child.pipe.length = cap

def Deadlocked {α : Type} (cap : Nat) (state : Prog Syscall Reply α × Os) : Prop :=
  ∃ call next, state.1 = .act call next ∧ Stuck cap call state.2

structure Writes (text : List UInt8) (child : Child) : Prop where
  whole : child.written ++ child.pending = text
  piped : child.phase = .running → child.pipe = child.written
  ended : ∀ code, child.phase = .dead (.exited code) → child.pending = []

def Filled (tests : List Test) (text : Nat → List UInt8) (os : Os) : Prop :=
  ∀ i child, os.children i = some child →
    i < tests.length ∧ (testAt tests i).skip = false ∧ Writes (text i) child

section Filled

variable {cap : Nat} {text : Nat → List UInt8} {tests : List Test} {os after : Os}

variable {child : Child} {left : List UInt8}

theorem Writes.step {moved : Child} (writes : Writes left child)
    (step : ChildStep cap child moved) : Writes left moved := by
  cases step with
  | write chunk rest running next _ _ =>
    have whole := writes.whole
    rw [next, ← append_assoc] at whole
    refine ⟨whole, fun _ => ?_, fun code dead => ?_⟩
    · change child.pipe ++ chunk = child.written ++ chunk
      rw [writes.piped running]
    · exact absurd (running.symm.trans dead) Phase.noConfusion
  | exit code running all =>
    exact ⟨writes.whole, Phase.noConfusion, fun _ _ => all⟩
  | crash sig running =>
    exact ⟨writes.whole, Phase.noConfusion, fun _ dead => nomatch dead⟩

theorem Filled.put (filled : Filled tests text os) {slot : Nat}
    (fits : slot < tests.length ∧ (testAt tests slot).skip = false ∧ Writes (text slot) child) :
    Filled tests text (os.setChild slot child) := by
  intro i c found
  by_cases same : i = slot
  · subst same
    rw [setChild_same] at found
    cases found
    exact fits
  · rw [setChild_other same] at found
    exact filled i c found

theorem filled_kept {call : Syscall} {reply : Reply}
    (allowed : Allowed (testAt tests) tests.length call os) (filled : Filled tests text os)
    (performed : (world cap text).perform call os reply after) : Filled tests text after := by
  cases performed with
  | pipe | noPipe | noFork | wnohang | print => exact filled
  | fork slot =>
    rcases allowed with ⟨_, quiet | ⟨same | same, _, _, known, plain⟩⟩
    · cases quiet
    · cases same
    · cases same
      exact filled.put ⟨known, plain, rfl, fun _ => rfl, fun _ dead => by cases dead⟩
  | waitpid slot _ _ child status found dead _ =>
    obtain ⟨known, plain, writes⟩ := filled slot child found
    exact filled.put ⟨known, plain, writes.whole, writes.piped, writes.ended⟩
  | drain slot _ child read found dead =>
    obtain ⟨known, plain, writes⟩ := filled slot child found
    exact filled.put ⟨known, plain, writes.whole, fun running => absurd running dead,
      writes.ended⟩

theorem filled_stable (tests : List Test) (text : Nat → List UInt8) :
    (world cap text).Stable (Filled tests text) := by
  rintro os after filled ⟨slot, child, moved, found, step⟩
  obtain ⟨known, plain, writes⟩ := filled slot child found
  exact filled.put ⟨known, plain, writes.step step⟩

theorem Writes.not_blocked (writes : Writes left child)
    (fits : left.length ≤ cap) (running : child.phase = .running) (more : child.pending ≠ []) :
    child.pipe.length ≠ cap := by
  intro full
  have whole := congrArg List.length writes.whole
  rw [length_append, ← writes.piped running, full] at whole
  have some_left := length_pos_iff.2 more
  omega

end Filled

section Schedule

variable {cap : Nat} {text : Nat → List UInt8} {tests : List Test} {os after : Os}

def calm (cap : Nat) (text : Nat → List UInt8) : World Syscall Reply Os :=
  ⟨fun call os reply after => Performs text call os reply after ∧ reply ≠ .error, Drift cap⟩

theorem calm_within (cap : Nat) (text : Nat → List UInt8) :
    Within (calm cap text) (world cap text) :=
  ⟨fun _ _ _ _ performed => performed.1, rfl⟩

theorem setChild_setChild (os : Os) (i : Nat) (one two : Child) :
    (os.setChild i one).setChild i two = os.setChild i two := by
  rw [Os.setChild, Os.setChild, Function.update_idem]
  rfl

variable {i : Nat}

theorem writes_front {front back : List UInt8}
    (found : os.children i = some (.forked (front ++ back))) (room : front.length ≤ cap) :
    (calm cap text).Drifts os (os.setChild i ⟨.running, back, front, front, false⟩) := by
  cases front with
  | nil =>
    have same : os.setChild i ⟨.running, back, [], [], false⟩ = os := by
      have unchanged : some (⟨.running, back, [], [], false⟩ : Child) = os.children i := found.symm
      rw [Os.setChild, unchanged, Function.update_eq_self]
    rw [same]
    exact .refl
  | cons byte rest =>
    apply Relation.ReflTransGen.single
    exact .child os i _ _ found
      (.write _ (byte :: rest) back rfl rfl (cons_ne_nil _ _) (by simpa [Child.forked] using room))

theorem runs_out (found : os.children i = some (.forked (text i))) (fits : (text i).length ≤ cap) :
    (calm cap text).Drifts os (os.setChild i ⟨.dead (.exited 0), [], text i, text i, false⟩) := by
  have written : (calm cap text).Drifts os (os.setChild i ⟨.running, [], text i, text i, false⟩) :=
    writes_front (by rw [found, append_nil]) fits
  apply written.tail
  have exits : ChildStep cap ⟨.running, [], text i, text i, false⟩ _ := .exit _ 0 rfl rfl
  have drifted := Drift.child _ i _ _ (setChild_same os i _) exits
  rwa [setChild_setChild] at drifted

def Lazy (cap : Nat) (text : Nat → List UInt8) (os : Os) : Prop :=
  ∀ i child, os.children i = some child →
    child = .forked (text i) ∨ child.phase ≠ .running ∧ (text i).length ≤ cap

variable {child : Child}

theorem Lazy.put (lazy : Lazy cap text os) {slot : Nat}
    (fits : child = .forked (text slot) ∨ child.phase ≠ .running ∧ (text slot).length ≤ cap) :
    Lazy cap text (os.setChild slot child) := by
  intro i c found
  by_cases same : i = slot
  · subst same
    rw [setChild_same] at found
    cases found
    exact fits
  · rw [setChild_other same] at found
    exact lazy i c found

theorem Lazy.reaps (lazy : Lazy cap text os) {blocking : Bool}
    (found : os.children i = some child) (gone : child.phase ≠ .running)
    (unreaped : child.reaped = false) (fits : (text i).length ≤ cap) :
    ∃ reply after, (calm cap text).perform (.waitpid i blocking) os reply after ∧
      Lazy cap text after := by
  cases dead : child.phase with
  | running => exact absurd dead gone
  | dead status =>
    refine ⟨_, _, ⟨.waitpid i blocking os child status found dead unreaped, Reply.noConfusion⟩, ?_⟩
    exact lazy.put (.inr ⟨gone, fits⟩)

variable {test : Nat → Test} {total : Nat}

theorem lazy_goes_on (call : Syscall) (os : Os)
    (allowed : Allowed test total call os) (lazy : Lazy cap text os) :
    ∃ middle, (calm cap text).Drifts os middle ∧ (Stuck cap call middle ∨
      ∃ reply after, (calm cap text).perform call middle reply after ∧ Lazy cap text after) := by
  cases call with
  | pipe slot => exact ⟨os, .refl, .inr ⟨_, _, ⟨.pipe slot os, Reply.noConfusion⟩, lazy⟩⟩
  | fork slot =>
    exact ⟨os, .refl, .inr ⟨_, _, ⟨.fork slot os, Reply.noConfusion⟩, lazy.put (.inl rfl)⟩⟩
  | print line => exact ⟨os, .refl, .inr ⟨_, _, ⟨.print line os, Reply.noConfusion⟩, lazy⟩⟩
  | drain slot =>
    obtain ⟨_, ⟨child, found, dead⟩ | ⟨same | same, _⟩⟩ := allowed
    · have fits : (text slot).length ≤ cap := by
        rcases lazy slot child found with forked | gone
        · rw [forked] at dead
          exact absurd rfl dead
        · exact gone.2
      obtain ⟨read, performed⟩ := drain_answers found dead
      exact ⟨os, .refl, .inr ⟨_, _, ⟨performed, Reply.noConfusion⟩, lazy.put (.inr ⟨dead, fits⟩)⟩⟩
    · cases same
    · cases same
  | waitpid slot blocking =>
    obtain ⟨_, ⟨child, found, unreaped⟩ | ⟨same | same, _⟩⟩ := allowed
    · rcases lazy slot child found with forked | ⟨gone, fits⟩
      · subst forked
        cases blocking with
        | false =>
          exact ⟨os, .refl, .inr ⟨_, _,
            ⟨.wnohang slot os _ found rfl, Reply.noConfusion⟩, lazy⟩⟩
        | true =>
          by_cases fits : (text slot).length ≤ cap
          · refine ⟨_, runs_out found fits, .inr ?_⟩
            have there : Lazy cap text
                (os.setChild slot ⟨.dead (.exited 0), [], text slot, text slot, false⟩) :=
              lazy.put (.inr ⟨Phase.noConfusion, fits⟩)
            exact there.reaps (setChild_same ..) Phase.noConfusion rfl fits
          · -- the front of the text fills the pipe
            have filled : (calm cap text).Drifts os (os.setChild slot ⟨.running,
                (text slot).drop cap, (text slot).take cap, (text slot).take cap, false⟩) :=
              writes_front (by rw [found, take_append_drop]) (length_take_le ..)
            refine ⟨_, filled, .inl ⟨slot, _, rfl, setChild_same .., rfl, ?_, ?_⟩⟩
            · exact fun none_left => by
                have short := congrArg List.length none_left
                simp only [length_drop, length_nil] at short
                omega
            · simp only [length_take]
              omega
      · exact ⟨os, .refl, .inr (lazy.reaps found gone unreaped fits)⟩
    · cases same
    · cases same

def Unrefused (os : Os) : Prop := os.refused = []

theorem unrefused_kept {call : Syscall} {reply : Reply} (quiet : Unrefused os)
    (performed : (calm cap text).perform call os reply after) : Unrefused after := by
  obtain ⟨performed, succeeds⟩ := performed
  cases performed with
  | noPipe | noFork => exact absurd rfl succeeds
  | pipe | fork | waitpid | wnohang | drain | print => exact quiet

theorem unrefused_stable : (calm cap text).Stable Unrefused := by
  rintro os after quiet ⟨slot, child, moved, found, step⟩
  exact quiet

end Schedule

section Capture

variable {cap : Nat} {text : Nat → List UInt8} {tests : List Test}

theorem deadlock_reachable (cap : Nat) (text : Nat → List UInt8) {i : Nat} (jobs : Int)
    (verbose : Bool) (known : i < tests.length)
    (plain : tests[i].skip = false) (large : cap < (text i).length) :
    ∃ prog os, (world cap text).Steps (testMain tests jobs verbose, Os.start) (prog, os) ∧
      Deadlocked cap (prog, os) := by
  have here : testAt tests i = tests[i] := by simp [testAt, known]
  have ensured : (calm cap text).Ensures (Allowed (testAt tests) tests.length)
      (testMain tests jobs verbose) (Ended (testAt tests) tests.length) Os.start :=
    (calm_within cap text).ensures (ensures_main tests jobs verbose)
  have start : Lazy cap text Os.start := fun i child none_there => by cases none_there
  rcases ends_or_stuck lazy_goes_on _ ensured start with
    ⟨call, next, os, steps, stuck⟩ | ⟨result, os, steps, lazy⟩
  · exact ⟨_, os, (calm_within cap text).steps steps, call, next, rfl, stuck⟩
  · -- every test was forked and reaped, so the text of each fitted
    have quiet : Unrefused os := ensured.invariant
      (fun _ _ _ _ _ quiet performed => unrefused_kept quiet performed) unrefused_stable rfl steps
    obtain ⟨sound, all, _⟩ := ensured.result steps
    have forked : os.children i ≠ none := by
      intro unforked
      have refused := (sound.tried i known (by rw [here, plain])).1 unforked
      rw [quiet] at refused
      cases refused
    obtain ⟨child, found⟩ := Option.ne_none_iff_exists'.1 forked
    have stopped := sound.finished i (by rw [all]; exact known)
    have gone := ((sound.slots i known).reaped stopped child found).2.1
    rcases lazy i child found with fresh | ⟨_, fits⟩
    · rw [fresh] at gone
      exact absurd rfl gone
    · omega

/-- The harness never waits for a child that waits for it just if every test that is not
skipped writes no more than its pipe holds. It keeps the first 16 KiB of what each child
wrote, which is the whole text if the child exited. -/
theorem capture_iff (cap : Nat) (text : Nat → List UInt8) (tests : List Test) (jobs : Int)
    (verbose : Bool) :
    ((∀ prog os, (world cap text).Steps (testMain tests jobs verbose, Os.start) (prog, os) →
        ¬ Deadlocked cap (prog, os)) ∧
      ∀ answer r os,
        (world cap text).Steps (testMain tests jobs verbose, Os.start) (.pure (answer, r), os) →
        ∀ i child, os.children i = some child →
          (r.slots i).result.output = child.written.take maxCapturedOutput ∧
          ∀ code, child.phase = .dead (.exited code) → child.written = text i) ↔
    ∀ i (known : i < tests.length), tests[i].skip = false → (text i).length ≤ cap := by
  have ensured : (world cap text).Ensures (Allowed (testAt tests) tests.length)
      (testMain tests jobs verbose) (Ended (testAt tests) tests.length) Os.start :=
    ensures_main tests jobs verbose
  have filled {prog : Prog Syscall Reply (Int × Runner)} {os : Os}
      (steps : (world cap text).Steps (testMain tests jobs verbose, Os.start) (prog, os)) :
      Filled tests text os :=
    ensured.invariant (fun _ _ _ _ allowed holds performed => filled_kept allowed holds performed)
      (filled_stable tests text) (fun i child none_there => by cases none_there) steps
  constructor
  · rintro ⟨never, _⟩ i known plain
    by_contra large
    obtain ⟨prog, os, steps, deadlocked⟩ :=
      deadlock_reachable cap text jobs verbose known plain (Nat.lt_of_not_le large)
    exact never prog os steps deadlocked
  · intro fits
    constructor
    · rintro prog os steps ⟨call, next, rfl, i, child, rfl, found, running, more, full⟩
      obtain ⟨known, plain, writes⟩ := filled steps i child found
      have room := fits i known (by simpa [testAt, known] using plain)
      exact writes.not_blocked room running more full
    · intro answer r os steps i child found
      obtain ⟨known, _, writes⟩ := filled steps i child found
      obtain ⟨sound, all, _⟩ := ensured.result steps
      dsimp only at sound all
      have stopped := sound.finished i (by rw [all]; exact known)
      refine ⟨((sound.slots i known).reaped stopped child found).2.2, fun code exited => ?_⟩
      rw [← writes.whole, writes.ended code exited, append_nil]

/-- One test, and one byte more than a pipe of Linux holds. -/
theorem large_output_deadlocks :
    ¬ ∀ cap text tests jobs verbose prog os,
      (world cap text).Steps (testMain tests jobs verbose, Os.start) (prog, os) →
        ¬ Deadlocked cap (prog, os) := by
  intro never
  have one : (0 : Nat) < [(⟨none, false, none, false, 0⟩ : Test)].length := Nat.one_pos
  obtain ⟨prog, os, steps, deadlocked⟩ := deadlock_reachable 65536
    (fun _ => List.replicate 65537 46) 1 false one rfl (by rw [length_replicate]; omega)
  exact never _ _ _ _ _ prog os steps deadlocked

end Capture

end Lucis.TestRunner
