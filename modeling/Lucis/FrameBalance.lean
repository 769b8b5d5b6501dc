import Lucis.ErrorFlow

/-!
The handler stack along every path of what is emitted for a function and for those it
calls: a `try` that is left only at its end, or by the jump to its own frame, pushes,
pops and frees that frame once and leaves the stack as it was.
-/

namespace Lucis.FrameBalance

open Flow ErrorFlow List

section Invariant

/-- No `try` statement, and no expression of a `try`, is left by a jump, nor a clause or a `finally`
block by a `throw`. -/
def Meets (event : Event) : Prop := event ≠ .tryLeft

/-- A jump to a frame comes to the construct that pushed it, and every construct is left balanced. -/
def Kept (event : Event) : Prop := event ≠ .stray ∧ event ≠ .unbalanced

structure Still (begins s : State) : Prop where
  stack : s.stack = begins.stack
  tries : s.tries = begins.tries
  later : begins.next ≤ s.next
  made : ∀ op ∈ s.log, op.frame < s.next
  log : ∀ frame < begins.next, s.ops frame = begins.ops frame

def left (begins : State) : Way → State → Prop
  | .thrown, s => Still begins s ∧ s.stack.head? = some s.landing
  | .joined, _ => False
  | .exited, _ => True
  | .cut, _ => True
  | _, s => Still begins s

abbrev KeepsFrames (program : Step Act Way State Event) (code : Emitted) : Prop :=
  Keeps program Meets Kept Still left code

/-- Control is in a construct that was entered from a state; `ops` is what was done with its frame. -/
structure Within (begins : State) (inside : Try) (stack : List Frame) (ops : List Op) (s : State) :
    Prop where
  entry : inside.entry = begins.stack
  tries : s.tries = inside :: begins.tries
  stack : s.stack = stack
  later : begins.next ≤ inside.frame
  earlier : inside.frame < s.next
  made : ∀ op ∈ s.log, op.frame < s.next
  log : ∀ frame < begins.next, s.ops frame = begins.ops frame
  own : s.ops inside.frame = ops

variable {begins s s' : State} {inside : Try} {stack stack' : List Frame} {ops : List Op}

theorem jumping : Jumping Still left where
  jumps := by
    intro way jump begins s
    cases way with
    | brk => exact Iff.rfl
    | cont => exact Iff.rfl
    | returned => exact Iff.rfl
    | _ => exact absurd jump (by decide)
  joined := fun _ _ impossible => impossible.elim

variable (within : Within begins inside stack ops s)
include within

theorem Within.still (still : Still s s') :
    Within begins inside stack ops s' where
  entry := within.entry
  tries := still.tries.trans within.tries
  stack := still.stack.trans within.stack
  later := within.later
  earlier := Nat.lt_of_lt_of_le within.earlier still.later
  made := still.made
  log := by
    intro frame earlier
    have below := Nat.lt_of_lt_of_le (Nat.lt_of_lt_of_le earlier within.later)
      (Nat.le_of_lt within.earlier)
    exact (still.log frame below).trans (within.log frame earlier)
  own := (still.log inside.frame within.earlier).trans within.own

theorem Within.itself : Still s s :=
  ⟨rfl, rfl, Nat.le_refl _, within.made, fun _ _ => rfl⟩

omit within in
theorem ops_cons (s : State) (stack : List Frame) (op : Op) (frame : Frame) :
    { s with stack := stack, log := op :: s.log }.ops frame =
      if op.frame = frame then op :: s.ops frame else s.ops frame := by
  rw [State.ops, State.ops, filter_cons]
  simp only [decide_eq_true_eq]

theorem Within.does {op : Op} (own : op.frame = inside.frame) (stack' : List Frame) :
    Within begins inside stack' (op :: ops) { s with stack := stack', log := op :: s.log } where
  entry := within.entry
  tries := within.tries
  stack := rfl
  later := within.later
  earlier := within.earlier
  made := by
    intro other member
    rcases mem_cons.1 member with rfl | before
    · rw [own]
      exact within.earlier
    · exact within.made other before
  log := by
    intro frame earlier
    have apart : op.frame ≠ frame := by
      rw [own]
      exact Nat.ne_of_gt (Nat.lt_of_lt_of_le earlier within.later)
    rw [ops_cons, if_neg apart]
    exact within.log frame earlier
  own := by
    rw [ops_cons, if_pos own, within.own]

omit within in
theorem Still.enters (still : Still begins s) (finallyClause : Bool) :
    Within begins ⟨s.next, s.stack, finallyClause⟩ begins.stack []
      { s with next := s.next + 1, tries := ⟨s.next, s.stack, finallyClause⟩ :: s.tries } where
  entry := still.stack
  tries := congrArg _ still.tries
  stack := still.stack
  later := still.later
  earlier := Nat.lt_succ_self _
  made := fun op member => Nat.lt_succ_of_lt (still.made op member)
  log := still.log
  own := by
    apply filter_eq_nil_iff.mpr
    intro op member same
    have before := still.made op member
    rw [of_decide_eq_true same] at before
    exact Nat.lt_irrefl _ before

theorem Within.found {innermost : Try} {rest : List Try}
    (here : s.tries = innermost :: rest) : inside = innermost ∧ begins.tries = rest :=
  List.cons.inj (within.tries.symm.trans here)

def complete (inside : Try) : List Op :=
  let unfinished : List Op := [.popped inside.frame, .pushed inside.frame]
  .freed inside.frame :: if inside.finallyClause then .finished inside.frame :: unfinished else unfinished

theorem Within.count {op : Op}
    (own : op.frame = inside.frame) : s.log.count op = ops.count op := by
  rw [← within.own, State.ops]
  exact (count_filter (by rw [own]; exact decide_eq_true rfl)).symm

omit within

theorem Within.balanced (within : Within begins inside begins.stack (complete inside) s) :
    s.Balanced inside where
  stack := within.stack.trans within.entry.symm
  pushed := by
    rw [within.count rfl]
    cases finallyClause : inside.finallyClause <;> simp [complete, finallyClause]
  popped := by
    rw [within.count rfl]
    cases finallyClause : inside.finallyClause <;> simp [complete, finallyClause]
  freed := by
    rw [within.count rfl]
    cases finallyClause : inside.finallyClause <;> simp [complete, finallyClause]
  finished := by
    intro finallyClause
    rw [within.count rfl]
    simp [complete, finallyClause]

theorem Within.leaves (within : Within begins inside begins.stack ops s) :
    Still begins { s with tries := begins.tries } :=
  ⟨within.stack, rfl, Nat.le_of_lt (Nat.lt_of_le_of_lt within.later within.earlier), within.made,
    within.log⟩

end Invariant

section Arms

variable {program : List Emitted} {depth : Nat} {begins : State} {inside : Try}
  {stack stack' : List Frame} {ops ops' : List Op} {pre here join : State → Prop}

def Comes (here join : State → Prop) : Option Way → State → Prop
  | none, s => here s
  | some .joined, s => join s
  | some .exited, _ => True
  | some .cut, _ => True
  | some _, _ => False

abbrev Runs (program : List Emitted) (depth : Nat) (pre : State → Prop) (code : Emitted)
    (post : Option Way → State → Prop) : Prop :=
  Triple (step program depth) Meets Kept pre code post

theorem silent : ∀ e ∈ ([] : List Event), Kept e := fun _ member => absurd member not_mem_nil

theorem comes_seq {between} {first rest : Emitted}
    (begins : Runs program depth pre first (Comes between join))
    (goes : Runs program depth between rest (Comes here join)) :
    Runs program depth pre (.seq first rest) (Comes here join) :=
  triple_seq begins goes fun way s ends => by cases way <;> exact ends

theorem comes_joined {body : Emitted} (runs : Runs program depth pre body (Comes here here)) :
    Runs program depth pre (.handle .joined body .skip) (Comes here fun _ => False) := by
  apply triple_handle runs
  · exact triple_skip.weaken (fun _ ends => ends) fun _ _ ends => ends
  · intro out s other ends
    cases out with
    | none => exact ends
    | some way =>
      cases way with
      | joined => exact absurd rfl other
      | _ => exact ends

theorem Comes.weaken {here' join'} {out : Option Way} {s : State}
    (ends : Comes here join out s) (more : ∀ s, here s → here' s) (joins : ∀ s, join s → join' s) :
    Comes here' join' out s := by
  cases out with
  | none => exact more s ends
  | some way =>
    cases way with
    | joined => exact joins s ends
    | _ => exact ends

theorem comes_act {action : Act} (other : action ≠ .call)
    (each : ∀ s events out s', pre s → base action s events out s' → out ≠ some .cut →
      (∀ e ∈ events, Kept e) ∧ out = none ∧ here s')
    (cut : ∀ s events s', pre s → base action s events (some .cut) s' → ∀ e ∈ events, Kept e) :
    Runs program depth pre (.act action) (Comes here join) := by
  apply triple_act
  intro s events out s' holds stepped _
  have stepped := step_base other stepped
  by_cases same : out = some .cut
  · subst same
    exact ⟨cut s events s' holds stepped, trivial⟩
  · obtain ⟨kept, rfl, ends⟩ := each s events out s' holds stepped same
    exact ⟨kept, ends⟩

theorem comes_push : Runs program depth (Within begins inside begins.stack ops) (.act .push)
      (Comes (Within begins inside (inside.frame :: begins.stack) (.pushed inside.frame :: ops))
        join) := by
  apply comes_act (by decide)
  · intro s events out s' within stepped uncut
    cases stepped with
    | cut => exact absurd rfl uncut
    | push here =>
      obtain ⟨rfl, _⟩ := within.found here
      rw [within.stack]
      exact ⟨silent, rfl, within.does rfl _⟩
  · intro s events s' _ stepped
    cases stepped
    exact silent

theorem comes_pop :
    Runs program depth (Within begins inside (inside.frame :: begins.stack) ops) (.act .pop)
      (Comes (Within begins inside begins.stack (.popped inside.frame :: ops)) join) := by
  apply comes_act (by decide)
  · intro s events out s' within stepped uncut
    cases stepped with
    | cut => exact absurd rfl uncut
    | pop top =>
      obtain ⟨rfl, rfl⟩ := List.cons.inj (top.symm.trans within.stack)
      exact ⟨silent, rfl, within.does rfl _⟩
    | pop_nothing empty =>
      rw [within.stack] at empty
      cases empty
  · intro s events s' _ stepped
    cases stepped
    exact silent

theorem comes_finish : Runs program depth (Within begins inside stack ops) (.act .finish)
      (Comes (Within begins inside stack (.finished inside.frame :: ops)) join) := by
  apply comes_act (by decide)
  · intro s events out s' within stepped uncut
    cases stepped with
    | cut => exact absurd rfl uncut
    | finish here =>
      obtain ⟨rfl, _⟩ := within.found here
      rw [← within.stack]
      exact ⟨silent, rfl, within.does rfl _⟩
  · intro s events s' _ stepped
    cases stepped
    exact silent

theorem comes_free : Runs program depth (Within begins inside stack ops) (.act .free)
      (Comes (Within begins inside stack (.freed inside.frame :: ops)) join) := by
  apply comes_act (by decide)
  · intro s events out s' within stepped uncut
    cases stepped with
    | cut => exact absurd rfl uncut
    | free here =>
      obtain ⟨rfl, _⟩ := within.found here
      rw [← within.stack]
      exact ⟨silent, rfl, within.does rfl _⟩
  · intro s events s' _ stepped
    cases stepped
    exact silent

-- The frame on the top is the one of the construct, where what was thrown comes to it.
theorem comes_land :
    Runs program depth (fun s => Within begins inside (inside.frame :: stack) ops s ∧
      s.stack.head? = some s.landing) (.act .land)
      (Comes (Within begins inside (inside.frame :: stack) ops) join) := by
  have landed : ∀ s, Within begins inside (inside.frame :: stack) ops s ∧
      s.stack.head? = some s.landing → s.landing = inside.frame := by
    rintro s ⟨within, top⟩
    rw [within.stack] at top
    exact (Option.some.inj top).symm
  apply comes_act (by decide)
  · intro s events out s' holds stepped uncut
    cases stepped with
    | cut => exact absurd rfl uncut
    | land here same => exact ⟨silent, rfl, holds.1⟩
    | land_stray here other => exact absurd rfl uncut
  · intro s events s' holds stepped
    cases stepped with
    | cut => exact silent
    | land_stray here other =>
      obtain ⟨rfl, _⟩ := holds.1.found here
      exact absurd (landed s holds) other

theorem comes_leaveTry {s : State} (within : Within begins inside begins.stack (complete inside) s) :
    Runs program depth (fun x => x = s) (.act .leaveTry)
      (Comes (fun x => x = { s with tries := begins.tries }) join) := by
  apply comes_act (by decide)
  · rintro _ events out s' rfl stepped uncut
    cases stepped with
    | cut => exact absurd rfl uncut
    | leaveTry here _ =>
      obtain ⟨_, rfl⟩ := within.found here
      exact ⟨silent, rfl, rfl⟩
    | leaveTry_unbalanced here unbalanced =>
      obtain ⟨rfl, _⟩ := within.found here
      exact absurd within.balanced unbalanced
  · rintro _ events s' rfl stepped
    cases stepped
    exact silent

end Arms

section Constructs

variable {program : List Emitted} {depth : Nat} {begins : State} {inside : Try}
  {stack : List Frame} {ops : List Op} {join : State → Prop} {block : Emitted}

def Inside (begins : State) (inside : Try) (stack : List Frame) (ops : List Op) (way : Way)
    (s : State) : Prop :=
  match way with
  | .thrown => Within begins inside stack ops s ∧ s.stack.head? = some s.landing
  | .joined => False
  | .exited => True
  | .cut => True
  | _ => Within begins inside stack ops s

abbrev BlockEnds (begins : State) (inside : Try) (stack : List Frame) (ops : List Op)
    (out : Option Way) (s : State) : Prop :=
  out.elim (Within begins inside stack ops s) fun way => Inside begins inside stack ops way s

theorem runs_block (keeps : KeepsFrames (step program depth) block) :
    Runs program depth (Within begins inside stack ops) block (BlockEnds begins inside stack ops) := by
  apply triple_each
  intro s within
  apply (keeps s).weaken
  · rintro _ rfl
    exact within.itself
  · intro out s' ends
    cases out with
    | none => exact within.still ends
    | some way =>
      cases way with
      | thrown => exact ⟨within.still ends.1, ends.2⟩
      | joined => exact ends
      | exited => trivial
      | cut => trivial
      | _ => exact within.still ends

theorem runs_marked {ways : List Way} (listed : ∀ way ∈ ways, way ∈ Way.leaving)
    (keeps : KeepsFrames (step program depth) block) :
    Runs program depth (Within begins inside stack ops) (markTry block ways) fun out s =>
      (∀ way ∈ ways, out ≠ some way) ∧ BlockEnds begins inside stack ops out s := by
  apply triple_onLeaving (runs_block keeps)
  intro way _
  apply triple_act
  intro s events out s' _ stepped meets
  have stepped := step_base (by decide) stepped
  cases stepped with
  | cut =>
    refine ⟨silent, fun again => ?_, trivial⟩
    exact absurd (listed .cut again) (by decide)
  | tryLeft => exact absurd rfl (meets .tryLeft (.head _))

/-- A clause or a `finally` block comes to its end. -/
theorem comes_marked (keeps : KeepsFrames (step program depth) block) :
    Runs program depth (Within begins inside stack ops) (markTry block Way.leaving)
      (Comes (Within begins inside stack ops) join) := by
  apply (runs_marked (fun _ member => member) keeps).weaken fun _ within => within
  rintro out s ⟨apart, ends⟩
  cases out with
  | none => exact ends
  | some way =>
    cases way with
    | joined => exact ends.elim
    | exited => trivial
    | cut => trivial
    | brk => exact absurd rfl (apart .brk (by decide))
    | cont => exact absurd rfl (apart .cont (by decide))
    | returned => exact absurd rfl (apart .returned (by decide))
    | thrown => exact absurd rfl (apart .thrown (by decide))

/-- The end of a `throw` that jumps. -/
def Throws (here : State → Prop) : Option Way → State → Prop
  | some .thrown, s => here s ∧ s.stack.head? = some s.landing
  | some .exited, _ => True
  | some .cut, _ => True
  | _, _ => False

theorem runs_throw :
    Runs program depth (Within begins inside (inside.frame :: stack) ops) (.act .throw)
      (Throws (Within begins inside (inside.frame :: stack) ops)) := by
  apply triple_act
  intro s events out s' within stepped _
  have stepped := step_base (by decide) stepped
  cases stepped with
  | cut => exact ⟨silent, trivial⟩
  | throw top =>
    refine ⟨silent, within.still ?_, ?_⟩
    · exact ⟨rfl, rfl, Nat.le_refl _, within.made, fun _ _ => rfl⟩
    · rw [top]
      rfl
  | throw_unhandled empty =>
    rw [within.stack] at empty
    cases empty

-- The frame is pushed and popped again and again: control does not come behind it.
theorem comes_rethrow : Runs program depth (Within begins inside begins.stack ops) rethrow
      (Comes (fun _ => False) join) := by
  have turns : Runs program depth (fun s => ∃ ops, Within begins inside begins.stack ops s)
      (.handle .thrown (.seq (.act .push) (.act .throw)) (.seq (.act .land) (.act .pop)))
      (Comes (fun s => ∃ ops, Within begins inside begins.stack ops s) join) := by
    apply triple_each
    rintro s ⟨ops, within⟩
    have throws : Runs program depth (Within begins inside begins.stack ops)
        (.seq (.act .push) (.act .throw))
        (Throws (Within begins inside (inside.frame :: begins.stack) (.pushed inside.frame :: ops))) := by
      have pushes : Runs program depth (Within begins inside begins.stack ops) (.act .push)
          (Comes (Within begins inside (inside.frame :: begins.stack) (.pushed inside.frame :: ops))
            fun _ => False) := comes_push
      apply triple_seq pushes runs_throw
      intro way s ends
      cases way with
      | exited => trivial
      | cut => trivial
      | _ => exact ends.elim
    have pops : Runs program depth (fun s => Within begins inside (inside.frame :: begins.stack)
        (.pushed inside.frame :: ops) s ∧ s.stack.head? = some s.landing)
        (.seq (.act .land) (.act .pop))
        (Comes (Within begins inside begins.stack (.popped inside.frame :: .pushed inside.frame :: ops))
          join) := comes_seq comes_land comes_pop
    have here : ∀ s', s' = s → Within begins inside begins.stack ops s' := by
      rintro _ rfl
      exact within
    apply triple_handle (throws.weaken here fun _ _ ends => ends)
    · exact pops.weaken (fun _ holds => holds) fun _ _ ends =>
        ends.weaken (fun s still => ⟨_, still⟩) fun _ joins => joins
    · intro out s other ends
      cases out with
      | none => exact ends.elim
      | some way =>
        cases way with
        | thrown => exact absurd rfl other
        | exited => trivial
        | cut => trivial
        | _ => exact ends.elim
  have looped : Runs program depth (fun s => ∃ ops, Within begins inside begins.stack ops s) rethrow
      (Comes (fun _ => False) join) := by
    apply triple_loop
    apply turns.weaken (fun _ holds => holds)
    intro out s ends
    cases out with
    | none => exact ends
    | some way => cases way <;> exact ends
  exact looped.weaken (fun s within => ⟨ops, within⟩) fun _ _ ends => ends

variable {clauses : List Emitted}

theorem comes_catchChecks (keep : ∀ clause ∈ clauses, KeepsFrames (step program depth) clause) :
    Runs program depth (Within begins inside begins.stack ops) (emitCatchChecks clauses)
      (Comes (fun _ => False) (Within begins inside begins.stack ops)) := by
  induction clauses with
  | nil => exact comes_rethrow
  | cons clause rest ih =>
    have joins : Runs program depth (Within begins inside begins.stack ops) (.leave .joined)
        (Comes (fun _ => False) (Within begins inside begins.stack ops)) :=
      (triple_leave Way.joined).weaken (fun _ within => within) fun _ _ ends => ends
    apply triple_either (comes_seq (comes_marked (keep clause (.head _))) joins)
    exact ih fun other member => keep other (mem_cons_of_mem clause member)

variable {s : State}

theorem comes_enterTry (still : Still begins s) (finallyClause : Bool) :
    Runs program depth (fun x => x = s) (.act (.enterTry finallyClause))
      (Comes (Within begins ⟨s.next, s.stack, finallyClause⟩ begins.stack []) fun _ => False) := by
  apply comes_act (by simp)
  · rintro _ events out s' rfl stepped uncut
    cases stepped with
    | cut => exact absurd rfl uncut
    | enterTry => exact ⟨silent, rfl, still.enters finallyClause⟩
  · rintro _ events s' rfl stepped
    cases stepped
    exact silent

variable {out : Option Way}

theorem runs_leaveTry (listed : ∀ way, out = some way → way ∈ Way.leaving) :
    Closes (step program depth) Meets Kept Way.leaving (.act .leaveTry)
      (BlockEnds begins inside begins.stack (complete inside)) (Ends Still left begins) out := by
  have leaves : ∀ s, Within begins inside begins.stack (complete inside) s →
      Ends Still left begins out { s with tries := begins.tries } →
      Runs program depth (fun x => x = s) (.act .leaveTry) fun own x =>
        own.elim (Ends Still left begins out x) fun way =>
          way ∉ Way.leaving ∧ Ends Still left begins (some way) x := by
    intro s within ends
    have comes : Runs program depth (fun x => x = s) (.act .leaveTry)
        (Comes (fun x => x = { s with tries := begins.tries }) fun _ => False) :=
      comes_leaveTry within
    apply comes.weaken fun _ same => same
    intro own x comes
    cases own with
    | none =>
      obtain rfl : x = { s with tries := begins.tries } := comes
      exact ends
    | some way =>
      cases way with
      | exited => exact ⟨by decide, trivial⟩
      | cut => exact ⟨by decide, trivial⟩
      | _ => exact comes.elim
  apply triple_each
  intro s ends
  cases out with
  | none => exact leaves s ends ends.leaves
  | some way =>
    cases way with
    | thrown => exact leaves s ends.1 ⟨ends.1.leaves, ends.2⟩
    | joined => exact ends.elim
    | exited => exact absurd (listed .exited rfl) (by decide)
    | cut => exact absurd (listed .cut rfl) (by decide)
    | _ => exact leaves s ends ends.leaves

-- A body that makes the construct complete on every way out of it.
theorem keeps_inTry {finallyClause : Bool} {body : Emitted}
    (runs : ∀ begins inside, inside.finallyClause = finallyClause →
      Runs program depth (Within begins inside begins.stack []) body
        (BlockEnds begins inside begins.stack (complete inside))) :
    KeepsFrames (step program depth) (inTry finallyClause body) := by
  intro begins
  apply triple_each
  intro s still
  apply triple_seq (comes_enterTry still finallyClause)
  · apply triple_around (runs begins _ rfl) (runs_leaveTry nofun)
    · intro way member
      apply runs_leaveTry
      intro other same
      rwa [← Option.some.inj same]
    · intro way s apart ends
      cases way with
      | joined => exact ends
      | exited => trivial
      | cut => trivial
      | _ => exact absurd (by decide) apart
    · decide
  · intro way s ends
    cases way with
    | exited => trivial
    | cut => trivial
    | _ => exact ends.elim

theorem blockEnds_of_comes {here} (comes : Comes here (fun _ => False) out s)
    (more : here s → Within begins inside stack ops s) : BlockEnds begins inside stack ops out s := by
  cases out with
  | none => exact more comes
  | some way =>
    cases way with
    | exited => trivial
    | cut => trivial
    | _ => exact comes.elim

/-- What is thrown in the block comes to the dispatch, and both arms come to the `finally` block with
the frame popped. -/
theorem comes_tried (keeps : KeepsFrames (step program depth) block)
    (keep : ∀ clause ∈ clauses, KeepsFrames (step program depth) clause) :
    Runs program depth (Within begins inside (inside.frame :: begins.stack) ops)
      (.handle .joined (.seq (.handle .thrown (markTry block Way.jumps)
        (.seq (.act .land) (.seq (.act .pop) (emitCatchChecks clauses)))) (.act .pop)) .skip)
      (Comes (Within begins inside begins.stack (.popped inside.frame :: ops)) fun _ => False) := by
  have dispatch : Runs program depth (fun s => Within begins inside (inside.frame :: begins.stack) ops s ∧
      s.stack.head? = some s.landing) (.seq (.act .land) (.seq (.act .pop) (emitCatchChecks clauses)))
      (Comes (fun _ => False) (Within begins inside begins.stack (.popped inside.frame :: ops))) :=
    comes_seq comes_land (comes_seq comes_pop (comes_catchChecks keep))
  have tried : Runs program depth (Within begins inside (inside.frame :: begins.stack) ops)
      (.handle .thrown (markTry block Way.jumps)
        (.seq (.act .land) (.seq (.act .pop) (emitCatchChecks clauses))))
      (Comes (Within begins inside (inside.frame :: begins.stack) ops)
        (Within begins inside begins.stack (.popped inside.frame :: ops))) := by
    apply triple_handle (runs_marked (by decide) keeps)
    · apply dispatch.weaken
      · exact fun s ends => ends.2
      · exact fun _ _ ends => ends.weaken (fun _ impossible => impossible.elim) fun _ joins => joins
    · rintro out s other ⟨apart, ends⟩
      cases out with
      | none => exact ends
      | some way =>
        cases way with
        | thrown => exact absurd rfl other
        | joined => exact ends.elim
        | exited => trivial
        | cut => trivial
        | brk => exact absurd rfl (apart .brk (by decide))
        | cont => exact absurd rfl (apart .cont (by decide))
        | returned => exact absurd rfl (apart .returned (by decide))
  exact comes_joined (comes_seq tried comes_pop)

theorem keeps_tryCatch {finallyClause : Bool} {finallyBlock : Emitted}
    (keeps : KeepsFrames (step program depth) block)
    (keep : ∀ clause ∈ clauses, KeepsFrames (step program depth) clause)
    (finishes : KeepsFrames (step program depth) finallyBlock) :
    KeepsFrames (step program depth) (tryCatchCode block clauses finallyClause finallyBlock) := by
  apply keeps_inTry
  intro begins inside clause
  have finished : Runs program depth
      (Within begins inside begins.stack [.popped inside.frame, .pushed inside.frame])
      (.seq (if finallyClause then .seq (.act .finish) (markTry finallyBlock Way.leaving) else .skip)
        (.act .free))
      (Comes (Within begins inside begins.stack (complete inside)) fun _ => False) := by
    rw [complete, clause]
    cases finallyClause with
    | true => exact comes_seq (comes_seq comes_finish (comes_marked finishes)) comes_free
    | false => exact comes_seq (triple_skip.weaken (fun _ holds => holds) fun _ _ ends => ends) comes_free
  have whole := comes_seq comes_push (comes_seq (comes_tried keeps keep) finished)
  exact whole.weaken (fun _ within => within) fun _ _ comes => blockEnds_of_comes comes id

def ArmEnds (begins : State) (inside : Try) (stack : List Frame) (ops : List Op) (out : Option Way)
    (s : State) : Prop :=
  (out = some .joined → Within begins inside stack ops s) ∧
    (out ≠ some .joined → BlockEnds begins inside stack ops out s)

theorem BlockEnds.arm (ends : BlockEnds begins inside stack ops out s) :
    ArmEnds begins inside stack ops out s := by
  refine ⟨fun same => ?_, fun _ => ends⟩
  subst same
  exact ends.elim

variable {pre : State → Prop}

theorem comes_then {between} {post}
    {first rest : Emitted} (starts : Runs program depth pre first (Comes between fun _ => False))
    (goes : Runs program depth between rest post) (exited : ∀ s, post (some .exited) s)
    (cut : ∀ s, post (some .cut) s) : Runs program depth pre (.seq first rest) post := by
  apply triple_seq starts goes
  intro way s comes
  cases way with
  | exited => exact exited s
  | cut => exact cut s
  | _ => exact comes.elim

theorem arm_stopped {way : Way} (stopped : way = .exited ∨ way = .cut) (s : State) :
    ArmEnds begins inside stack ops (some way) s := by
  rcases stopped with rfl | rfl
  · exact ⟨nofun, fun _ => trivial⟩
  · exact ⟨nofun, fun _ => trivial⟩

theorem arm_comes {code : Emitted}
    (runs : Runs program depth pre code (Comes (Within begins inside stack ops) fun _ => False)) :
    Runs program depth pre code (ArmEnds begins inside stack ops) :=
  runs.weaken (fun _ holds => holds) fun _ _ comes => (blockEnds_of_comes comes id).arm

theorem arm_block (keeps : KeepsFrames (step program depth) block) :
    Runs program depth (Within begins inside stack ops) block (ArmEnds begins inside stack ops) :=
  (runs_block keeps).weaken (fun _ within => within) fun _ _ ends => ends.arm

theorem runs_arms {body : Emitted}
    (runs : Runs program depth pre body (ArmEnds begins inside stack ops)) :
    Runs program depth pre (.handle .joined body .skip) (BlockEnds begins inside stack ops) := by
  apply triple_handle runs
  · exact triple_skip.weaken (fun s ends => ends.1 rfl) fun _ _ ends => ends
  · exact fun out s other ends => ends.2 other

abbrev pushedOnce (inside : Try) : List Op := [.pushed inside.frame]

abbrev freedOnce (inside : Try) : List Op :=
  [.freed inside.frame, .popped inside.frame, .pushed inside.frame]

theorem comes_popFree :
    Runs program depth (Within begins inside (inside.frame :: begins.stack) (pushedOnce inside))
      popFree (Comes (Within begins inside begins.stack (freedOnce inside)) fun _ => False) :=
  comes_seq comes_pop comes_free

variable {fallback : Emitted}

theorem runs_normal (isUnwrapEnum : Bool) (falls : KeepsFrames (step program depth) fallback) :
    Runs program depth (Within begins inside (inside.frame :: begins.stack) (pushedOnce inside))
      (if isUnwrapEnum then .either popFree (.seq popFree fallback) else popFree)
      (ArmEnds begins inside begins.stack (freedOnce inside)) := by
  cases isUnwrapEnum with
  | true =>
    apply triple_either (arm_comes comes_popFree)
    apply comes_then comes_popFree (arm_block falls)
    · exact arm_stopped (.inl rfl)
    · exact arm_stopped (.inr rfl)
  | false => exact arm_comes comes_popFree

def Caught (begins : State) (inside : Try) (out : Option Way) (s : State) : Prop :=
  out ≠ none ∧ ArmEnds begins inside begins.stack (freedOnce inside) out s

theorem runs_caught (falls : KeepsFrames (step program depth) fallback) :
    Runs program depth (fun s => Within begins inside (inside.frame :: begins.stack)
        (pushedOnce inside) s ∧ s.stack.head? = some s.landing)
      (.seq (.act .land) (.seq popFree (.seq fallback (.leave .joined)))) (Caught begins inside) := by
  have exited : ∀ s, Caught begins inside (some .exited) s := fun s => ⟨nofun, arm_stopped (.inl rfl) s⟩
  have cut : ∀ s, Caught begins inside (some .cut) s := fun s => ⟨nofun, arm_stopped (.inr rfl) s⟩
  have joins : Runs program depth (Within begins inside begins.stack (freedOnce inside))
      (.seq fallback (.leave .joined)) (Caught begins inside) := by
    apply triple_seq (arm_block falls) _ fun _ _ ends => ⟨nofun, ends⟩
    apply (triple_leave Way.joined).weaken _ fun _ _ ends => ends
    exact fun s ends => ⟨nofun, fun _ => ends.2 nofun, fun other => absurd rfl other⟩
  exact comes_then comes_land (comes_then comes_popFree joins exited cut) exited cut

theorem keeps_tryExpr {isUnwrapEnum : Bool} {expr : Emitted}
    (keeps : KeepsFrames (step program depth) expr)
    (falls : KeepsFrames (step program depth) fallback) :
    KeepsFrames (step program depth) (tryExprCode isUnwrapEnum expr fallback) := by
  apply keeps_inTry
  intro begins inside clause
  have whole : complete inside = freedOnce inside := by
    rw [complete, clause]
    rfl
  rw [whole]
  have tried : Runs program depth
      (Within begins inside (inside.frame :: begins.stack) (pushedOnce inside))
      (.handle .thrown (markTry expr Way.jumps) (.seq (.act .land) (.seq popFree
        (.seq fallback (.leave .joined))))) fun out s =>
      (out = none → Within begins inside (inside.frame :: begins.stack) (pushedOnce inside) s) ∧
        (out ≠ none → ArmEnds begins inside begins.stack (freedOnce inside) out s) := by
    apply triple_handle (runs_marked (by decide) keeps)
    · apply (runs_caught falls).weaken (fun s ends => ends.2)
      exact fun out s ends => ⟨fun same => absurd same ends.1, fun _ => ends.2⟩
    · rintro out s other ⟨apart, ends⟩
      cases out with
      | none => exact ⟨fun _ => ends, fun some_way => absurd rfl some_way⟩
      | some way =>
        refine ⟨nofun, fun _ => ?_⟩
        cases way with
        | thrown => exact absurd rfl other
        | joined => exact ends.elim
        | exited => exact arm_stopped (.inl rfl) s
        | cut => exact arm_stopped (.inr rfl) s
        | brk => exact absurd rfl (apart .brk (by decide))
        | cont => exact absurd rfl (apart .cont (by decide))
        | returned => exact absurd rfl (apart .returned (by decide))
  have arms := triple_seq tried ((runs_normal isUnwrapEnum falls).weaken
    (fun s ends => ends.1 rfl) fun _ _ ends => ends) fun _ _ ends => ends.2 nofun
  exact comes_then comes_push (runs_arms arms) (fun _ => trivial) fun _ => trivial

structure Inert (action : Act) : Prop where
  other : action ≠ .call
  does : ∀ s events out s', base action s events out s' → (∀ e ∈ events, Kept e) ∧
    (out = none ∨ out = some .cut) ∧ ∃ held locks, s' = { s with held := held, locks := locks }

variable {action : Act}

theorem inert (mutex : action.onMutex = true) : Inert action := by
  refine ⟨fun same => ?_, fun s events out s' stepped => ?_⟩
  · subst same
    cases mutex
  · cases stepped with
    | cut => exact ⟨silent, .inr rfl, _, _, rfl⟩
    | lock => exact ⟨silent, .inl rfl, _, _, rfl⟩
    | unlock _ _ => exact ⟨silent, .inl rfl, _, _, rfl⟩
    | unlock_unheld _ _ => exact ⟨by simp [Kept], .inl rfl, _, _, rfl⟩
    | leaveLock _ _ => exact ⟨silent, .inl rfl, _, _, rfl⟩
    | leaveLock_unreleased _ _ => exact ⟨by simp [Kept], .inl rfl, _, _, rfl⟩
    | lockLeft => exact ⟨by simp [Kept], .inl rfl, _, _, rfl⟩
    | _ => cases mutex

theorem Inert.ends (inert : Inert action) :
    Runs program depth (Ends Still left begins out) (.act action) fun own s =>
      own.elim (Ends Still left begins out s) fun way => way = .cut := by
  apply triple_act
  intro s events own s' ends stepped _
  obtain ⟨kept, stops, held, locks, rfl⟩ := inert.does s events own s' (step_base inert.other stepped)
  refine ⟨kept, ?_⟩
  rcases stops with rfl | rfl
  · have still : Still begins s → Still begins { s with held := held, locks := locks } :=
      fun still => ⟨still.stack, still.tries, still.later, still.made, still.log⟩
    cases out with
    | none => exact still ends
    | some way =>
      cases way with
      | thrown => exact ⟨still ends.1, ends.2⟩
      | joined => exact ends
      | exited => trivial
      | cut => trivial
      | _ => exact still ends
  · rfl

theorem Inert.keeps (inert : Inert action) : KeepsFrames (step program depth) (.act action) := by
  intro begins
  have acts : Runs program depth (Ends Still left begins none) (.act action) _ := inert.ends
  apply acts.weaken fun _ still => still
  intro own s ends
  cases own with
  | none => exact ends
  | some way =>
    obtain rfl : way = .cut := ends
    trivial

theorem Inert.around (inert : Inert action) (keeps : KeepsFrames (step program depth) block) :
    KeepsFrames (step program depth) (block.around (.act action) Way.leaving) := by
  intro begins
  have closes : ∀ out, Closes (step program depth) Meets Kept Way.leaving (.act action)
      (Ends Still left begins) (Ends Still left begins) out := by
    intro out
    apply inert.ends.weaken fun _ ends => ends
    intro own s ends
    cases own with
    | none => exact ends
    | some way =>
      obtain rfl : way = .cut := ends
      exact ⟨by decide, trivial⟩
  apply triple_around (keeps begins) (closes none)
  · exact fun way _ => closes (some way)
  · exact fun _ _ _ ends => ends
  · decide

theorem Inert.onLeaving (inert : Inert action)
    (keeps : KeepsFrames (step program depth) block) (ways : List Way) :
    KeepsFrames (step program depth) (block.onLeaving (.act action) ways) := by
  induction ways with
  | nil => exact keeps
  | cons way rest ih =>
    intro begins
    apply triple_handle (ih begins)
    · have leaves : Runs program depth (Ends Still left begins (some way)) (.leave way)
          (Ends Still left begins) :=
        (triple_leave way).weaken (fun _ ends => ends) fun _ _ ends => ends
      apply triple_seq inert.ends leaves
      intro own s ends
      obtain rfl : own = .cut := ends
      trivial
    · exact fun _ _ _ ends => ends

theorem keeps_lock (keeps : KeepsFrames (step program depth) block) :
    KeepsFrames (step program depth) (lockCode block) :=
  keeps_seq (inert rfl).keeps ((inert rfl).around
    (keeps_seq ((inert rfl).onLeaving keeps Way.leaving) (inert rfl).keeps))

theorem keeps_throw : KeepsFrames (step program depth) (.act .throw) := by
  intro begins
  apply triple_act
  intro s events out s' still stepped _
  have stepped := step_base (by decide) stepped
  cases stepped with
  | cut => exact ⟨silent, trivial⟩
  | throw top =>
    refine ⟨silent, ⟨still.stack, still.tries, still.later, still.made, still.log⟩, ?_⟩
    rw [top]
    rfl
  | throw_unhandled _ => exact ⟨silent, trivial⟩

/-- In every run, also of what is called, whose constructs are all left as is asked, a jump to a frame
comes to the construct that pushed it, and each construct is left balanced. -/
theorem frames_balanced {functions : List Function} {function : Function} {depth : Nat}
    {events : List Event} {out : Option Way} {s : State}
    (run : Exec (step (emitted functions) depth) (visitFunction function) .start events out s)
    (meets : ∀ e ∈ events, e ≠ .tryLeft) : ∀ e ∈ events, e ≠ .stray ∧ e ≠ .unbalanced := by
  have keeps : KeepsFrames (step (emitted functions) depth) (visitFunction function) := by
    apply function_keeps jumping fun _ _ _ => trivial
    intro depth calls
    exact ⟨jumping, calls, keeps_throw, fun _ => keeps_lock, fun _ _ _ _ => keeps_tryCatch,
      fun _ _ _ => keeps_tryExpr⟩
  have starts : Still .start .start :=
    ⟨rfl, rfl, Nat.le_refl _, fun op member => absurd member not_mem_nil, fun _ _ => rfl⟩
  exact (keeps .start .start events out s starts run meets).1

end Constructs

section Examples

/-- `throw Error { message: "" };` -/
def throwing : Function := ⟨false, [.throwStmt]⟩

/-- `try { f(); } catch (Error e) {} finally { f(); }` -/
def catching : Function := ⟨false, [.tryCatchStmt [.call] [] [] true [.call]]⟩

/-- `try { ret; } catch (Error e) {}` -/
def returning : Function := ⟨false, [.tryCatchStmt [.returnStmt] [] [] false []]⟩

abbrev steps : Step Act Way State Event := step (emitted [catching, throwing, returning]) 1

/-- The call in the block throws, and the one in the `finally` block comes back. -/
theorem catching_balanced :
    ∃ events s, Exec steps (visitFunction catching) .start events none s ∧
      ∀ e ∈ events, e ≠ .stray ∧ e ≠ .unbalanced := by
  let entered : State := { State.start with next := 1, tries := [⟨0, [], true⟩] }
  let pushed : State := { entered with stack := [0], log := [.pushed 0] }
  let popped : State := { entered with log := [.popped 0, .pushed 0] }
  let finished : State := { popped with log := [.finished 0, .popped 0, .pushed 0] }
  let freed : State := { finished with log := .freed 0 :: finished.log }
  have enters : steps (.enterTry true) .start [] none entered := .inl .enterTry
  have pushes : steps .push entered [] none pushed := .inl (@base.push entered ⟨0, [], true⟩ [] rfl)
  have throws : steps .call pushed [] (some .thrown) pushed :=
    .inr ⟨rfl, visitFunction throwing, by simp [emitted], some .thrown,
      .seq_leaves (.act (base.throw rfl)), rfl⟩
  have lands : steps .land pushed [] none pushed := .inl (.land rfl rfl)
  have pops : steps .pop pushed [] none popped := .inl (.pop rfl)
  have finishes : steps .finish popped [] none finished :=
    .inl (@base.finish popped ⟨0, [], true⟩ [] rfl)
  have calls : steps .call finished [] none finished := .inl .call
  have frees : steps .free finished [] none freed :=
    .inl (@base.free finished ⟨0, [], true⟩ [] rfl)
  have leaves : steps .leaveTry freed [] none { freed with tries := [] } :=
    .inl (.leaveTry rfl ⟨rfl, rfl, rfl, rfl, fun _ => rfl⟩)
  have block : Exec steps (markTry (visitStmts false [.call]) Way.jumps) pushed [] (some .thrown)
      pushed := exec_onLeaving (.seq_leaves (.act throws)) (by decide)
  have clause : Exec steps (emitCatchChecks [visitStmts false []]) popped [] (some .joined) popped :=
    .first (.seq (exec_onLeaving .skip (by decide)) .leave)
  have tried := Exec.handled block (.seq (.act lands) (.seq (.act pops) clause))
  have joined : Exec steps (.handle .joined (.seq _ (.act .pop)) .skip) pushed _ none popped :=
    .handled (.seq_leaves tried) .skip
  have last : Exec steps (.seq (.act .finish) (markTry (visitStmts false [.call]) Way.leaving)) popped
      _ none finished := .seq (.act finishes) (exec_onLeaving (.seq (.act calls) .skip) (by decide))
  have body := Exec.seq (.act pushes) (.seq joined (.seq last (.act frees)))
  have run : Exec steps (visitFunction catching) .start _ none _ :=
    .seq (.seq (.act enters) (exec_around Way.leaving body (.act leaves))) .skip
  exact ⟨_, _, run, frames_balanced run (by simp)⟩

/-- The frame of the `try` is on the stack still where the function has returned. -/
theorem returning_leaks :
    ∃ events s, Exec steps (visitFunction returning) .start events (some .returned) s ∧
      .unbalanced ∈ events ∧ s.stack = [0] ∧ Op.freed 0 ∉ s.log := by
  let entered : State := { State.start with next := 1, tries := [⟨0, [], false⟩] }
  let pushed : State := { entered with stack := [0], log := [.pushed 0] }
  have enters : steps (.enterTry false) .start [] none entered := .inl .enterTry
  have pushes : steps .push entered [] none pushed :=
    .inl (@base.push entered ⟨0, [], false⟩ [] rfl)
  have marks : steps .tryLeft pushed [.tryLeft] none pushed := .inl .tryLeft
  have leaves : steps .leaveTry pushed [.unbalanced] none { pushed with tries := [] } := by
    refine .inl (.leaveTry_unbalanced rfl fun balanced => ?_)
    exact absurd balanced.stack (by decide)
  have block : Exec steps (markTry (visitStmts false [.returnStmt]) Way.jumps) pushed [.tryLeft]
      (some .returned) pushed :=
    .passes (.passes (.handled (.seq_leaves .leave) (.seq (.act marks) .leave)) (by decide))
      (by decide)
  have run : Exec steps (visitFunction returning) .start _ (some .returned) _ :=
    .seq_leaves (.seq (.act enters) (.passes (.passes (.handled (.passes (.seq_leaves
      (.seq (.act pushes) (.seq_leaves (.passes (.seq_leaves (.passes block (by decide)))
        (by decide))))) (by decide)) (.seq (.act leaves) .leave)) (by decide)) (by decide)))
  exact ⟨_, _, run, by simp, rfl, by decide⟩

end Examples

end Lucis.FrameBalance
