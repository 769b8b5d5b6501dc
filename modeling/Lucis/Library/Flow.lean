import Mathlib.Logic.Basic

/-!
Structured commands that can be left in several ways, over any actions. A run ends
with `none`, at the end of the command, or with the way in which it was left. What
happens on a run is told by its events; a triple speaks of the runs whose events all
meet an assumption, and says that they keep a guarantee besides the postcondition.
-/

namespace Flow

open List

variable {Act Way State Event : Type}

/-- A `loop` is left only by a way of its body; `handle` goes on with the handler where the body
is left in the way that it handles. -/
inductive Code (Act Way : Type) where
  | act (action : Act)
  | skip
  | leave (way : Way)
  | seq (first rest : Code Act Way)
  | either (first second : Code Act Way)
  | loop (body : Code Act Way)
  | handle (way : Way) (body handler : Code Act Way)

abbrev Step (Act Way State Event : Type) := Act → State → List Event → Option Way → State → Prop

variable (step : Step Act Way State Event)

inductive Exec : Code Act Way → State → List Event → Option Way → State → Prop
  | act {action s events out s'} (stepped : step action s events out s') :
      Exec (.act action) s events out s'
  | skip {s} : Exec .skip s [] none s
  | leave {way s} : Exec (.leave way) s [] (some way) s
  | seq {first rest s events s' events' out s''} (begins : Exec first s events none s')
      (goes : Exec rest s' events' out s'') : Exec (.seq first rest) s (events ++ events') out s''
  | seq_leaves {first rest s events way s'} (begins : Exec first s events (some way) s') :
      Exec (.seq first rest) s events (some way) s'
  | first {first second s events out s'} (run : Exec first s events out s') :
      Exec (.either first second) s events out s'
  | second {first second s events out s'} (run : Exec second s events out s') :
      Exec (.either first second) s events out s'
  | turn {body s events s' events' out s''} (begins : Exec body s events none s')
      (goes : Exec (.loop body) s' events' out s'') : Exec (.loop body) s (events ++ events') out s''
  | turn_leaves {body s events way s'} (run : Exec body s events (some way) s') :
      Exec (.loop body) s events (some way) s'
  | handled {way body handler s events s' events' out s''} (run : Exec body s events (some way) s')
      (goes : Exec handler s' events' out s'') :
      Exec (.handle way body handler) s (events ++ events') out s''
  | passes {way body handler s events out s'} (run : Exec body s events out s')
      (other : out ≠ some way) : Exec (.handle way body handler) s events out s'

/-- The runs from `pre` whose events are as assumed have only events as guaranteed, and end as
`post` says. -/
def Triple (assumed guaranteed : Event → Prop) (pre : State → Prop) (code : Code Act Way)
    (post : Option Way → State → Prop) : Prop :=
  ∀ s events out s', pre s → Exec step code s events out s' → (∀ e ∈ events, assumed e) →
    (∀ e ∈ events, guaranteed e) ∧ post out s'

variable {step} {assumed guaranteed : Event → Prop} {pre : State → Prop}
  {first rest body handler code : Code Act Way} {post : Option Way → State → Prop}

theorem Triple.weaken {pre'} {post'}
    (triple : Triple step assumed guaranteed pre code post) (before : ∀ s, pre' s → pre s)
    (after : ∀ out s, post out s → post' out s) :
    Triple step assumed guaranteed pre' code post' := by
  intro s events out s' holds run meets
  obtain ⟨kept, ends⟩ := triple s events out s' (before s holds) run meets
  exact ⟨kept, after out s' ends⟩

-- A triple may be shown for one state after the other.
theorem triple_each (each : ∀ s, pre s → Triple step assumed guaranteed (fun s' => s' = s) code post) :
    Triple step assumed guaranteed pre code post :=
  fun s events out s' holds run meets => each s holds s events out s' rfl run meets

theorem triple_never (never : ∀ s, ¬pre s) : Triple step assumed guaranteed pre code post :=
  fun s _ _ _ holds => absurd holds (never s)

theorem triple_skip : Triple step assumed guaranteed (post none) .skip post := by
  intro s events out s' holds run meets
  cases run
  exact ⟨fun e member => absurd member not_mem_nil, holds⟩

theorem triple_leave (way : Way) :
    Triple step assumed guaranteed (post (some way)) (.leave way) post := by
  intro s events out s' holds run meets
  cases run
  exact ⟨fun e member => absurd member not_mem_nil, holds⟩

theorem triple_act {action : Act}
    (each : ∀ s events out s', pre s → step action s events out s' → (∀ e ∈ events, assumed e) →
      (∀ e ∈ events, guaranteed e) ∧ post out s') :
    Triple step assumed guaranteed pre (.act action) post := by
  intro s events out s' holds run meets
  cases run with
  | act stepped => exact each s events out s' holds stepped meets

variable {between : Option Way → State → Prop}

theorem triple_seq (begins : Triple step assumed guaranteed pre first between)
    (goes : Triple step assumed guaranteed (between none) rest post)
    (leaves : ∀ way s, between (some way) s → post (some way) s) :
    Triple step assumed guaranteed pre (.seq first rest) post := by
  intro s events out s' holds run meets
  cases run with
  | seq early late =>
    obtain ⟨meets_early, meets_late⟩ := forall_mem_append.1 meets
    obtain ⟨kept_early, middle⟩ := begins _ _ _ _ holds early meets_early
    obtain ⟨kept_late, ends⟩ := goes _ _ _ _ middle late meets_late
    exact ⟨forall_mem_append.2 ⟨kept_early, kept_late⟩, ends⟩
  | seq_leaves early =>
    obtain ⟨kept, ends⟩ := begins _ _ _ _ holds early meets
    exact ⟨kept, leaves _ _ ends⟩

theorem triple_either (one : Triple step assumed guaranteed pre first post)
    (two : Triple step assumed guaranteed pre rest post) :
    Triple step assumed guaranteed pre (.either first rest) post := by
  intro s events out s' holds run meets
  cases run with
  | first run => exact one _ _ _ _ holds run meets
  | second run => exact two _ _ _ _ holds run meets

/-- The loop rule, with `pre` for the invariant: a loop does not come to its own end. -/
theorem triple_loop
    (turn : Triple step assumed guaranteed pre body fun out s => out.elim (pre s) fun way =>
      post (some way) s) : Triple step assumed guaranteed pre (.loop body) post := by
  intro s events out s' holds run
  generalize looped : Code.loop body = code at run
  induction run with
  | turn begins goes _ ih =>
    cases looped
    intro meets
    obtain ⟨meets_early, meets_late⟩ := forall_mem_append.1 meets
    obtain ⟨kept_early, again⟩ := turn _ _ _ _ holds begins meets_early
    obtain ⟨kept_late, ends⟩ := ih again rfl meets_late
    exact ⟨forall_mem_append.2 ⟨kept_early, kept_late⟩, ends⟩
  | turn_leaves run _ =>
    cases looped
    intro meets
    exact turn _ _ _ _ holds run meets
  | _ => cases looped

theorem triple_handle {way : Way} (runs : Triple step assumed guaranteed pre body between)
    (goes : Triple step assumed guaranteed (between (some way)) handler post)
    (passes : ∀ out s, out ≠ some way → between out s → post out s) :
    Triple step assumed guaranteed pre (.handle way body handler) post := by
  intro s events out s' holds run meets
  cases run with
  | handled early late =>
    obtain ⟨meets_early, meets_late⟩ := forall_mem_append.1 meets
    obtain ⟨kept_early, middle⟩ := runs _ _ _ _ holds early meets_early
    obtain ⟨kept_late, ends⟩ := goes _ _ _ _ middle late meets_late
    exact ⟨forall_mem_append.2 ⟨kept_early, kept_late⟩, ends⟩
  | passes run other =>
    obtain ⟨kept, ends⟩ := runs _ _ _ _ holds run meets
    exact ⟨kept, passes _ _ other ends⟩

section Around

/-- The body, and then `last` however the body is left in one of the ways; it goes on in that way. -/
def Code.around (body last : Code Act Way) : List Way → Code Act Way
  | [] => .seq body last
  | way :: ways => .handle way (body.around last ways) (.seq last (.leave way))

variable {last : Code Act Way} {between : Option Way → State → Prop} {all ways : List Way}

/-- Where so far only `ways` have been gone round: an end is one behind `last`, or the body's. -/
def Gone (all ways : List Way) (between post : Option Way → State → Prop) (out : Option Way)
    (s : State) : Prop :=
  out.elim (post none s) fun way =>
    post (some way) s ∧ (way ∉ all ∨ way ∈ ways) ∨ between (some way) s ∧ way ∉ ways

/-- What `last` does behind one end of the body; it may end in a way of its own, which is none of
those gone round. -/
def Closes (step : Step Act Way State Event) (assumed guaranteed : Event → Prop) (all : List Way)
    (last : Code Act Way) (between post : Option Way → State → Prop) (out : Option Way) : Prop :=
  Triple step assumed guaranteed (between out) last fun own s =>
    own.elim (post out s) fun way => way ∉ all ∧ post (some way) s

variable (runs : Triple step assumed guaranteed pre body between)
include runs

theorem triple_gone
    (ends : Closes step assumed guaranteed all last between post none)
    (closes : ∀ way ∈ all, Closes step assumed guaranteed all last between post (some way))
    (distinct : ways.Nodup) (listed : ∀ way ∈ ways, way ∈ all) :
    Triple step assumed guaranteed pre (body.around last ways) (Gone all ways between post) := by
  induction ways with
  | nil =>
    refine triple_seq (runs.weaken (fun _ holds => holds) fun out s holds => ?_) (ends.weaken
      (fun _ holds => holds) fun own s holds => ?_) fun way s holds => .inr ⟨holds, not_mem_nil⟩
    · exact holds
    · cases own with
      | none => exact holds
      | some way => exact .inl ⟨holds.2, .inl holds.1⟩
  | cons way ways ih =>
    obtain ⟨fresh, distinct⟩ := nodup_cons.1 distinct
    have here : way ∈ all := listed way (.head _)
    have inner := ih distinct fun other member => listed other (mem_cons_of_mem way member)
    apply triple_handle inner
    · have from_body : ∀ s, Gone all ways between post (some way) s → between (some way) s := by
        intro s gone
        rcases gone with ⟨_, unlisted | again⟩ | ⟨holds, _⟩
        · exact absurd here unlisted
        · exact absurd again fresh
        · exact holds
      have closed := (closes way here).weaken from_body fun _ _ holds => holds
      refine triple_seq closed ((triple_leave way).weaken (fun s holds => ?_) fun _ _ holds =>
        holds) fun other s holds => .inl ⟨holds.2, .inl holds.1⟩
      exact .inl ⟨holds, .inr (.head _)⟩
    · intro out s other gone
      cases out with
      | none => exact gone
      | some left =>
        rcases gone with ⟨holds, apart | member⟩ | ⟨holds, apart⟩
        · exact .inl ⟨holds, .inl apart⟩
        · exact .inl ⟨holds, .inr (mem_cons_of_mem way member)⟩
        · refine .inr ⟨holds, fun member => ?_⟩
          rcases mem_cons.1 member with same | member
          · exact other (congrArg some same)
          · exact apart member

/-- The rule of what is done on every way out: `last` takes the end of the body to the same end of
the whole. -/
theorem triple_around
    (ends : Closes step assumed guaranteed ways last between post none)
    (closes : ∀ way ∈ ways, Closes step assumed guaranteed ways last between post (some way))
    (passes : ∀ way s, way ∉ ways → between (some way) s → post (some way) s)
    (distinct : ways.Nodup) : Triple step assumed guaranteed pre (body.around last ways) post := by
  apply (triple_gone runs ends closes distinct fun _ member => member).weaken fun _ holds => holds
  intro out s gone
  cases out with
  | none => exact gone
  | some way =>
    rcases gone with ⟨holds, _⟩ | ⟨holds, apart⟩
    · exact holds
    · exact passes way s apart holds

omit runs

theorem exec_around (ways : List Way) {s s' s'' : State} {events events' : List Event}
    (run : Exec step body s events none s') (ends : Exec step last s' events' none s'') :
    Exec step (body.around last ways) s (events ++ events') none s'' := by
  induction ways with
  | nil => exact .seq run ends
  | cons way rest ih => exact .passes ih nofun

end Around

section Leaving

/-- `last` is done where the body is left in one of the ways, and not at its end. -/
def Code.onLeaving (body last : Code Act Way) : List Way → Code Act Way
  | [] => body
  | way :: ways => .handle way (body.onLeaving last ways) (.seq last (.leave way))

variable {last : Code Act Way} {between : Option Way → State → Prop} {ways : List Way}

/-- Where `last` never comes to its end, the body is not left in these ways. -/
theorem triple_onLeaving (runs : Triple step assumed guaranteed pre body between)
    (stops : ∀ way ∈ ways, Triple step assumed guaranteed (between (some way)) last fun out s =>
      out.elim False fun other => other ∉ ways ∧ between (some other) s) :
    Triple step assumed guaranteed pre (body.onLeaving last ways) fun out s =>
      (∀ way ∈ ways, out ≠ some way) ∧ between out s := by
  have each : ∀ some_ways, (∀ way ∈ some_ways, way ∈ ways) →
      Triple step assumed guaranteed pre (body.onLeaving last some_ways) fun out s =>
        (∀ way ∈ some_ways, out ≠ some way) ∧ between out s := by
    intro some_ways listed
    induction some_ways with
    | nil => exact runs.weaken (fun _ holds => holds) fun out s ends =>
      ⟨fun way member => absurd member not_mem_nil, ends⟩
    | cons way rest ih =>
      have inner := ih fun other member => listed other (mem_cons_of_mem way member)
      have here := listed way (.head _)
      apply triple_handle inner
      · have stopped : Triple step assumed guaranteed
            (fun s => (∀ other ∈ rest, some way ≠ some other) ∧ between (some way) s) last _ :=
          (stops way here).weaken (fun s ends => ends.2) fun _ _ ends => ends
        apply triple_seq stopped (triple_never fun s impossible => impossible)
        rintro other s ⟨unlisted, ends⟩
        refine ⟨fun listed_way member same => unlisted ?_, ends⟩
        rw [Option.some.inj same]
        exact listed listed_way member
      · rintro out s other ⟨apart, ends⟩
        refine ⟨fun listed_way member => ?_, ends⟩
        rcases mem_cons.1 member with rfl | later
        · exact other
        · exact apart listed_way later
  exact each ways fun way member => member

theorem exec_onLeaving {s s' : State} {events : List Event} {out : Option Way}
    (run : Exec step body s events out s') (apart : ∀ way ∈ ways, out ≠ some way) :
    Exec step (body.onLeaving last ways) s events out s' := by
  induction ways with
  | nil => exact run
  | cons way rest ih =>
    have inner := ih fun other member => apart other (mem_cons_of_mem way member)
    exact .passes inner (apart way (.head _))

end Leaving

section Loops

inductive Test where
  | before
  | behind
  | never

/-- A loop that `brk` leaves, and in which `cont` comes to the end of the block. -/
def Code.looping (brk cont : Way) (block : Code Act Way) : Test → Code Act Way
  | .before => .handle brk (.loop (.either (.leave brk) (.handle cont block .skip))) .skip
  | .behind => .handle brk (.loop (.seq (.handle cont block .skip) (.either .skip (.leave brk)))) .skip
  | .never => .handle brk (.loop (.handle cont block .skip)) .skip

variable {brk cont : Way} {block : Code Act Way} {within : Option Way → State → Prop}

def Turned (cont : Way) (pre : State → Prop) (within : Option Way → State → Prop)
    (out : Option Way) (s : State) : Prop :=
  out.elim (pre s) fun way => way ≠ cont ∧ within (some way) s

theorem triple_turn (runs : Triple step assumed guaranteed pre block within)
    (again : ∀ s, within none s → pre s) (continues : ∀ s, within (some cont) s → pre s) :
    Triple step assumed guaranteed pre (.handle cont block .skip) (Turned cont pre within) := by
  apply triple_handle runs
  · exact triple_skip.weaken continues fun _ _ ends => ends
  · intro out s other ends
    cases out with
    | none => exact again s ends
    | some way => exact ⟨fun same => other (congrArg some same), ends⟩

theorem triple_untilBreak (turns : Triple step assumed guaranteed pre body (Turned cont pre within))
    (done : ∀ s, within (some brk) s → post none s)
    (passes : ∀ way s, way ≠ brk → way ≠ cont → within (some way) s → post (some way) s) :
    Triple step assumed guaranteed pre (.handle brk (.loop body) .skip) post := by
  have looped : Triple step assumed guaranteed pre (.loop body) fun out s =>
      ∃ way, out = some way ∧ way ≠ cont ∧ within out s := by
    apply triple_loop
    apply turns.weaken (fun _ holds => holds)
    intro out s turned
    cases out with
    | none => exact turned
    | some way => exact ⟨way, rfl, turned⟩
  apply triple_handle looped
  · apply triple_skip.weaken _ fun _ _ ends => ends
    rintro s ⟨way, _, _, ends⟩
    exact done s ends
  · rintro out s other ⟨way, rfl, apart, ends⟩
    exact passes way s (fun same => other (congrArg some same)) apart ends

/-- The rule of the loops, with `pre` for the invariant. -/
theorem triple_looping (test : Test) (apart : brk ≠ cont)
    (runs : Triple step assumed guaranteed pre block within)
    (again : ∀ s, within none s → pre s) (continues : ∀ s, within (some cont) s → pre s)
    (leaves : ∀ s, pre s → within (some brk) s) (done : ∀ s, within (some brk) s → post none s)
    (passes : ∀ way s, way ≠ brk → way ≠ cont → within (some way) s → post (some way) s) :
    Triple step assumed guaranteed pre (block.looping brk cont test) post := by
  have turns := triple_turn runs again continues
  have ends : Triple step assumed guaranteed pre (.leave brk) (Turned cont pre within) :=
    (triple_leave brk).weaken (fun s holds => ⟨apart, leaves s holds⟩) fun _ _ turned => turned
  have goes_on : Triple step assumed guaranteed pre .skip (Turned cont pre within) :=
    triple_skip.weaken (fun _ holds => holds) fun _ _ turned => turned
  cases test with
  | before => exact triple_untilBreak (triple_either ends turns) done passes
  | behind =>
    apply triple_untilBreak _ done passes
    exact triple_seq turns (triple_either goes_on ends) fun _ _ turned => turned
  | never => exact triple_untilBreak turns done passes

end Loops

end Flow
