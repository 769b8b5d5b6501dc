import Lucis.ErrorFlow

/-!
The mutexes along every path of what is emitted for a function and for those it calls: a
`lock` block that is left only at its end releases what it acquired once, and nothing
that the path does not hold. A block that itself ends in a jump has its unlock behind the jump, and
is no module.
-/

namespace Lucis.LockBalance

open Flow ErrorFlow List

section Invariant

/-- No `lock` block is left but at its end. -/
def Meets (event : Event) : Prop := event ≠ .lockLeft

def Kept (event : Event) : Prop := event ≠ .unheld ∧ event ≠ .unreleased

structure Still (begins s : State) : Prop where
  held : s.held = begins.held
  locks : s.locks = begins.locks

/-- Inside of a `try` a piece may be left to where the arms meet. -/
def left (arm : Prop) (begins : State) : Way → State → Prop
  | .joined, s => arm ∧ Still begins s
  | .exited, _ => True
  | .cut, _ => True
  | _, s => Still begins s

abbrev KeepsLocks (program : List Emitted) (depth : Nat) (arm : Prop) (code : Emitted) : Prop :=
  Keeps (step program depth) Meets Kept Still (left arm) code

theorem jumping (arm : Prop) : Jumping Still (left arm) where
  jumps := by
    intro way jump begins s
    cases way with
    | brk => exact Iff.rfl
    | cont => exact Iff.rfl
    | returned => exact Iff.rfl
    | _ => exact absurd jump (by decide)
  joined := fun _ _ ends => ends.2

theorem silent : ∀ e ∈ ([] : List Event), Kept e := fun _ member => absurd member not_mem_nil

theorem left_iff {arm : Prop} {way : Way} (leaving : way ∈ Way.leaving) (begins s : State) :
    left arm begins way s ↔ Still begins s := by
  cases way with
  | brk => exact Iff.rfl
  | cont => exact Iff.rfl
  | returned => exact Iff.rfl
  | thrown => exact Iff.rfl
  | _ => exact absurd leaving (by decide)

end Invariant

section Pieces

variable {program : List Emitted} {depth : Nat} {arm : Prop} {block last handler : Emitted}

theorem keeps_arm (keeps : KeepsLocks program depth False block) :
    KeepsLocks program depth arm block := by
  intro begins
  apply (keeps begins).weaken fun _ still => still
  intro out s ends
  cases out with
  | none => exact ends
  | some way =>
    cases way with
    | joined => exact ends.1.elim
    | _ => exact ends

variable {way : Way}

theorem keeps_leaving (leaving : way ∈ Way.leaving) :
    KeepsLocks program depth arm (.leave way) :=
  fun begins => (triple_leave way).weaken (fun s => (left_iff leaving begins s).mpr) fun _ _ ends => ends

theorem keeps_join : KeepsLocks program depth True (.leave .joined) :=
  fun _ => (triple_leave Way.joined).weaken (fun _ still => ⟨trivial, still⟩) fun _ _ ends => ends

theorem keeps_handled (leaving : way ∈ Way.leaving)
    (keeps : KeepsLocks program depth arm block) (handles : KeepsLocks program depth arm handler) :
    KeepsLocks program depth arm (.handle way block handler) := by
  intro begins
  apply triple_handle (keeps begins)
  · exact (handles begins).weaken (fun s => (left_iff leaving begins s).mp) fun _ _ ends => ends
  · exact fun _ _ _ ends => ends

variable {ways : List Way}

theorem keeps_onLeaving (keeps : KeepsLocks program depth arm block)
    (does : KeepsLocks program depth arm last) (leaving : ∀ way ∈ ways, way ∈ Way.leaving) :
    KeepsLocks program depth arm (block.onLeaving last ways) := by
  induction ways with
  | nil => exact keeps
  | cons way rest ih =>
    have here := leaving way (.head _)
    have inner := ih fun other member => leaving other (mem_cons_of_mem way member)
    exact keeps_handled here inner (keeps_seq does (keeps_leaving here))

theorem keeps_around (keeps : KeepsLocks program depth arm block)
    (does : KeepsLocks program depth arm last) (leaving : ∀ way ∈ ways, way ∈ Way.leaving) :
    KeepsLocks program depth arm (block.around last ways) := by
  induction ways with
  | nil => exact keeps_seq keeps does
  | cons way rest ih =>
    have here := leaving way (.head _)
    have inner := ih fun other member => leaving other (mem_cons_of_mem way member)
    exact keeps_handled here inner (keeps_seq does (keeps_leaving here))

-- Behind the block where the arms meet, nothing is left to go there.
theorem arms_meet (keeps : KeepsLocks program depth True block) :
    KeepsLocks program depth False (.handle .joined block .skip) := by
  intro begins
  apply triple_handle (keeps begins)
  · exact triple_skip.weaken (fun s ends => ends.2) fun _ _ ends => ends
  · intro out s other ends
    cases out with
    | none => exact ends
    | some way =>
      cases way with
      | joined => exact absurd rfl other
      | _ => exact ends

variable {action : Act}

theorem base_frames {s s' : State} {events : List Event} {out : Option Way}
    (frames : action.onMutex = false) (stepped : base action s events out s') :
    (∀ e ∈ events, Kept e) ∧ out ≠ some .joined ∧ s'.held = s.held ∧ s'.locks = s.locks := by
  cases stepped with
  | lock => cases frames
  | unlock _ _ => cases frames
  | unlock_unheld _ _ => cases frames
  | leaveLock _ _ => cases frames
  | leaveLock_unreleased _ _ => cases frames
  | lockLeft => cases frames
  | land_stray _ _ => exact ⟨by simp [Kept], by decide, rfl, rfl⟩
  | leaveTry_unbalanced _ _ => exact ⟨by simp [Kept], by decide, rfl, rfl⟩
  | tryLeft => exact ⟨by simp [Kept], by decide, rfl, rfl⟩
  | _ => exact ⟨silent, by decide, rfl, rfl⟩

theorem keeps_act (other : action ≠ .call) (frames : action.onMutex = false) :
    KeepsLocks program depth arm (.act action) := by
  intro begins
  apply triple_act
  intro s events out s' still stepped _
  obtain ⟨kept, apart, held, locks⟩ := base_frames frames (step_base other stepped)
  have again : Still begins s' := ⟨held.trans still.held, locks.trans still.locks⟩
  refine ⟨kept, ?_⟩
  cases out with
  | none => exact again
  | some way =>
    cases way with
    | joined => exact absurd rfl apart
    | exited => trivial
    | cut => trivial
    | _ => exact again

end Pieces

section Constructs

variable {program : List Emitted} {depth : Nat} {arm : Prop} {block expr fallback : Emitted}

theorem keeps_mark {ways : List Way} (keeps : KeepsLocks program depth arm block)
    (leaving : ∀ way ∈ ways, way ∈ Way.leaving) : KeepsLocks program depth arm (markTry block ways) :=
  keeps_onLeaving keeps (keeps_act (by decide) rfl) leaving

theorem keeps_inTry (finallyClause : Bool) (keeps : KeepsLocks program depth arm block) :
    KeepsLocks program depth arm (inTry finallyClause block) :=
  keeps_seq (keeps_act (by simp) rfl)
    (keeps_around keeps (keeps_act (by decide) rfl) fun _ member => member)

theorem keeps_popFree : KeepsLocks program depth arm popFree :=
  keeps_seq (keeps_act (by decide) rfl) (keeps_act (by decide) rfl)

theorem keeps_rethrow : KeepsLocks program depth arm rethrow := by
  have turn : KeepsLocks program depth arm
      (.handle .thrown (.seq (.act .push) (.act .throw)) (.seq (.act .land) (.act .pop))) :=
    keeps_handled (by decide) (keeps_seq (keeps_act (by decide) rfl) (keeps_act (by decide) rfl))
      (keeps_seq (keeps_act (by decide) rfl) (keeps_act (by decide) rfl))
  intro begins
  apply triple_loop
  apply (turn begins).weaken fun _ still => still
  intro out s ends
  cases out with
  | none => exact ends
  | some way => exact ends

variable {clauses : List Emitted}

theorem keeps_catchChecks (keep : ∀ clause ∈ clauses, KeepsLocks program depth False clause) :
    KeepsLocks program depth True (emitCatchChecks clauses) := by
  induction clauses with
  | nil => exact keeps_rethrow
  | cons clause rest ih =>
    have here : KeepsLocks program depth True (markTry clause Way.leaving) :=
      keeps_mark (keeps_arm (keep clause (.head _))) fun _ member => member
    exact keeps_either (keeps_seq here keeps_join)
      (ih fun other member => keep other (mem_cons_of_mem clause member))

theorem keeps_tryCatch {finallyClause : Bool} {finallyBlock : Emitted}
    (keeps : KeepsLocks program depth False block)
    (keep : ∀ clause ∈ clauses, KeepsLocks program depth False clause)
    (finishes : KeepsLocks program depth False finallyBlock) :
    KeepsLocks program depth False (tryCatchCode block clauses finallyClause finallyBlock) := by
  have pops : ∀ {arm}, KeepsLocks program depth arm (.act .pop) := keeps_act (by decide) rfl
  have lands : KeepsLocks program depth True (.act .land) := keeps_act (by decide) rfl
  have marked : KeepsLocks program depth True (markTry block Way.jumps) :=
    keeps_mark (keeps_arm keeps) (by decide)
  have thrown : Way.thrown ∈ Way.leaving := by decide
  have tried := keeps_handled thrown marked (keeps_seq lands (keeps_seq pops (keeps_catchChecks keep)))
  have joined := arms_meet (keeps_seq tried pops)
  have finished : KeepsLocks program depth False
      (if finallyClause then .seq (.act .finish) (markTry finallyBlock Way.leaving) else .skip) := by
    cases finallyClause with
    | true => exact keeps_seq (keeps_act (by decide) rfl) (keeps_mark finishes fun _ member => member)
    | false => exact keeps_skip
  exact keeps_inTry finallyClause (keeps_seq (keeps_act (by decide) rfl)
    (keeps_seq joined (keeps_seq finished (keeps_act (by decide) rfl))))

theorem keeps_tryExpr {isUnwrapEnum : Bool} (keeps : KeepsLocks program depth False expr)
    (falls : KeepsLocks program depth False fallback) :
    KeepsLocks program depth False (tryExprCode isUnwrapEnum expr fallback) := by
  have lands : KeepsLocks program depth True (.act .land) := keeps_act (by decide) rfl
  have caught := keeps_seq lands (keeps_seq keeps_popFree (keeps_seq (keeps_arm falls) keeps_join))
  have normal : KeepsLocks program depth True
      (if isUnwrapEnum then .either popFree (.seq popFree fallback) else popFree) := by
    cases isUnwrapEnum with
    | true => exact keeps_either keeps_popFree (keeps_seq keeps_popFree (keeps_arm falls))
    | false => exact keeps_popFree
  have marked : KeepsLocks program depth True (markTry expr Way.jumps) :=
    keeps_mark (keeps_arm keeps) (by decide)
  have thrown : Way.thrown ∈ Way.leaving := by decide
  have tried := keeps_handled thrown marked caught
  exact keeps_inTry false (keeps_seq (keeps_act (by decide) rfl) (arms_meet (keeps_seq tried normal)))

end Constructs

section Locks

variable {program : List Emitted} {depth : Nat} {begins : State} {inside : Lock}
  {held : List Mutex} {block : Emitted}

/-- Control is in a `lock` block that was entered from a state. -/
structure Within (begins : State) (inside : Lock) (held : List Mutex) (s : State) : Prop where
  entry : inside.entry = begins.held
  locks : s.locks = inside :: begins.locks
  held : s.held = held

abbrev Runs (program : List Emitted) (depth : Nat) (pre : State → Prop) (code : Emitted)
    (post : Option Way → State → Prop) : Prop :=
  Triple (step program depth) Meets Kept pre code post

def Comes (here : State → Prop) (out : Option Way) (s : State) : Prop :=
  out.elim (here s) fun way => way = .exited ∨ way = .cut

theorem comes_seq {pre between here} {first rest : Emitted}
    (starts : Runs program depth pre first (Comes between))
    (goes : Runs program depth between rest (Comes here)) :
    Runs program depth pre (.seq first rest) (Comes here) :=
  triple_seq starts goes fun _ _ stops => stops

variable {s : State}

theorem Within.found (within : Within begins inside held s) {innermost : Lock}
    {rest : List Lock} (here : s.locks = innermost :: rest) :
    inside = innermost ∧ begins.locks = rest :=
  List.cons.inj (within.locks.symm.trans here)

theorem comes_lock (still : Still begins s) :
    Runs program depth (fun x => x = s) (.act .lock) (Comes fun x => ∃ mutex,
      Within begins ⟨mutex, begins.held⟩ (mutex :: begins.held) x) := by
  apply triple_act
  rintro _ events out s' rfl stepped _
  have stepped := step_base (by decide) stepped
  cases stepped with
  | cut => exact ⟨silent, .inr rfl⟩
  | @lock _ mutex =>
    refine ⟨silent, mutex, rfl, ?_, ?_⟩
    · rw [still.held, still.locks]
    · rw [still.held]

theorem comes_unlock :
    Runs program depth (Within begins inside (inside.mutex :: begins.held)) (.act .unlock)
      (Comes (Within begins inside begins.held)) := by
  apply triple_act
  intro s events out s' within stepped _
  have stepped := step_base (by decide) stepped
  cases stepped with
  | cut => exact ⟨silent, .inr rfl⟩
  | unlock here _ =>
    obtain ⟨rfl, _⟩ := within.found here
    refine ⟨silent, within.entry, within.locks, ?_⟩
    rw [within.held]
    exact erase_cons_head inside.mutex begins.held
  | unlock_unheld here unheld =>
    obtain ⟨rfl, _⟩ := within.found here
    rw [within.held] at unheld
    exact absurd (.head _) unheld

theorem comes_leaveLock : Runs program depth (Within begins inside begins.held) (.act .leaveLock)
      (Comes (Still begins)) := by
  apply triple_act
  intro s events out s' within stepped _
  have stepped := step_base (by decide) stepped
  cases stepped with
  | cut => exact ⟨silent, .inr rfl⟩
  | leaveLock here _ =>
    obtain ⟨_, rfl⟩ := within.found here
    exact ⟨silent, within.held, rfl⟩
  | leaveLock_unreleased here unreleased =>
    obtain ⟨rfl, _⟩ := within.found here
    exact absurd (within.held.trans within.entry.symm) unreleased

theorem comes_block (keeps : KeepsLocks program depth False block) :
    Runs program depth (Within begins inside held) (block.onLeaving (.act .lockLeft) Way.leaving)
      (Comes (Within begins inside held)) := by
  apply triple_each
  intro s within
  have runs : Runs program depth (fun x => x = s) block (Ends Still (left False) s) :=
    (keeps s).weaken (fun x same => by rw [same]; exact ⟨rfl, rfl⟩) fun _ _ ends => ends
  -- the unlocking is a slip wherever a way leaves the block, so no way gets past it
  have stops : ∀ way ∈ Way.leaving,
      Runs program depth (Ends Still (left False) s (some way)) (.act .lockLeft) fun out x =>
        out.elim False fun other =>
          other ∉ Way.leaving ∧ Ends Still (left False) s (some other) x := by
    intro way _
    apply triple_act
    intro x events out x' _ stepped meets
    have stepped := step_base (by decide) stepped
    cases stepped with
    | cut => exact ⟨silent, by decide, trivial⟩
    | lockLeft => exact absurd rfl (meets .lockLeft (.head _))
  apply (triple_onLeaving runs stops).weaken (fun _ same => same)
  rintro out x ⟨apart, ends⟩
  cases out with
  | none => exact ⟨within.entry, ends.locks.trans within.locks, ends.held.trans within.held⟩
  | some way =>
    cases way with
    | joined => exact ends.1.elim
    | exited => exact .inl rfl
    | cut => exact .inr rfl
    | brk => exact absurd rfl (apart .brk (by decide))
    | cont => exact absurd rfl (apart .cont (by decide))
    | returned => exact absurd rfl (apart .returned (by decide))
    | thrown => exact absurd rfl (apart .thrown (by decide))

theorem keeps_lock (keeps : KeepsLocks program depth False block) :
    KeepsLocks program depth False (lockCode block) := by
  intro begins
  have stopped : ∀ way s, way = .exited ∨ way = .cut → left False begins way s := by
    rintro way s (rfl | rfl)
    · trivial
    · trivial
  apply triple_each
  intro s still
  apply triple_seq (comes_lock still)
  · apply triple_each
    rintro s ⟨mutex, within⟩
    have body : Runs program depth (fun x => x = s)
        (.seq (block.onLeaving (.act .lockLeft) Way.leaving) (.act .unlock))
        (Comes (Within begins ⟨mutex, begins.held⟩ begins.held)) :=
      (comes_seq (comes_block keeps) comes_unlock).weaken
        (fun x same => by rw [same]; exact within) fun _ _ comes => comes
    apply triple_around body
    · apply comes_leaveLock.weaken fun _ here => here
      intro own x comes
      cases own with
      | none => exact comes
      | some way =>
        refine ⟨?_, stopped way x comes⟩
        rcases comes with rfl | rfl <;> decide
    · intro way member
      apply triple_never
      rintro x (rfl | rfl)
      · exact absurd member (by decide)
      · exact absurd member (by decide)
    · exact fun way x _ stops => stopped way x stops
    · decide
  · exact fun way x stops => stopped way x stops

end Locks

/-- In every run, also of what is called, whose `lock` blocks are all left at their end, each of them
releases what it acquired, and nothing else is released. -/
theorem locks_balanced {functions : List Function} {function : Function} {depth : Nat}
    {events : List Event} {out : Option Way} {s : State}
    (run : Exec (step (emitted functions) depth) (visitFunction function) .start events out s)
    (meets : ∀ e ∈ events, e ≠ .lockLeft) : ∀ e ∈ events, e ≠ .unheld ∧ e ≠ .unreleased := by
  have keeps : KeepsLocks (emitted functions) depth False (visitFunction function) := by
    apply function_keeps (jumping False) fun _ _ _ => trivial
    intro depth calls
    exact ⟨jumping False, calls, keeps_act (by decide) rfl, fun _ => keeps_lock,
      fun _ _ _ _ => keeps_tryCatch, fun _ _ _ => keeps_tryExpr⟩
  exact (keeps .start .start events out s ⟨rfl, rfl⟩ run meets).1

section Examples

/-- `lock(mtx) { f(); }` -/
def locking : Function := ⟨false, [.lockStmt [.call]]⟩

/-- `lock(mtx) { if c { ret; } }` -/
def returning : Function := ⟨false, [.lockStmt [.ifStmt [.returnStmt] []]]⟩

abbrev steps : Step Act Way State Event := step (emitted [locking, returning]) 1

theorem locking_balanced :
    ∃ events s, Exec steps (visitFunction locking) .start events none s ∧
      ∀ e ∈ events, e ≠ .unheld ∧ e ≠ .unreleased := by
  let locked : State := { State.start with held := [3], locks := [⟨3, []⟩] }
  let unlocked : State := { locked with held := [] }
  have locks : steps .lock .start [] none locked := .inl .lock
  have calls : steps .call locked [] none locked := .inl .call
  have unlocks : steps .unlock locked [] none unlocked :=
    .inl (@base.unlock locked ⟨3, []⟩ [] rfl (by decide))
  have leaves : steps .leaveLock unlocked [] none { unlocked with locks := [] } :=
    .inl (.leaveLock rfl rfl)
  have block : Exec steps ((visitStmts false [.call]).onLeaving (.act .lockLeft) Way.leaving) locked _
      none locked := exec_onLeaving (.seq (.act calls) .skip) (by decide)
  have run : Exec steps (visitFunction locking) .start _ none _ :=
    .seq (.seq (.act locks) (exec_around Way.leaving (.seq block (.act unlocks)) (.act leaves))) .skip
  exact ⟨_, _, run, locks_balanced run (by simp)⟩

/-- The mutex is held still where the function has returned. -/
theorem returning_holds :
    ∃ events s, Exec steps (visitFunction returning) .start events (some .returned) s ∧
      .unreleased ∈ events ∧ s.held = [3] := by
  let locked : State := { State.start with held := [3], locks := [⟨3, []⟩] }
  have locks : steps .lock .start [] none locked := .inl .lock
  have marks : steps .lockLeft locked [.lockLeft] none locked := .inl .lockLeft
  have leaves : steps .leaveLock locked [.unreleased] none { locked with locks := [] } :=
    .inl (@base.leaveLock_unreleased locked ⟨3, []⟩ [] rfl (by decide))
  have block : Exec steps ((visitStmts false [.ifStmt [.returnStmt] []]).onLeaving (.act .lockLeft) Way.leaving)
      locked [.lockLeft] (some .returned) locked :=
    .passes (.passes (.handled (.passes (.seq_leaves (.first (.seq_leaves .leave))) (by decide))
      (.seq (.act marks) .leave)) (by decide)) (by decide)
  have run : Exec steps (visitFunction returning) .start _ (some .returned) _ :=
    .seq_leaves (.seq (.act locks) (.passes (.passes (.handled (.passes (.seq_leaves (.seq_leaves block))
      (by decide)) (.seq (.act leaves) .leave)) (by decide)) (by decide)))
  exact ⟨_, _, run, by simp, rfl⟩

end Examples

end Lucis.LockBalance
