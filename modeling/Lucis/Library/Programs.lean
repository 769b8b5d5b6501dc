import Mathlib.Data.Set.Finite.Basic

/-!
Programs that act on a machine one action at a time and go on with the answer. An
action that the machine does not define (`none`) ends the run. A guard is a condition
on an action and the state it meets; the rules carry an invariant along the guarded
actions of a run and take guarded programs together.
-/

namespace Programs

variable {Act Answer State α β : Type}

inductive Prog (Act Answer α : Type) where
  | pure (result : α)
  | act (action : Act) (next : Answer → Prog Act Answer α)

namespace Prog

def bind : Prog Act Answer α → (α → Prog Act Answer β) → Prog Act Answer β
  | .pure result, rest => rest result
  | .act action next, rest => .act action fun answer => (next answer).bind rest

instance : Monad (Prog Act Answer) where
  pure := Prog.pure
  bind := Prog.bind

def perform (action : Act) : Prog Act Answer Answer := .act action .pure

end Prog

open Prog

variable (step : Act → State → Option (Answer × State))

def run : Prog Act Answer α → State → Option (α × State)
  | .pure result, state => some (result, state)
  | .act action next, state =>
    (step action state).bind fun (answer, state) => run (next answer) state

inductive Reaches : Prog Act Answer α → State → State → Prop
  | here {prog state} : Reaches prog state state
  | act {action next state answer middle last} (stepped : step action state = some (answer, middle))
      (later : Reaches (next answer) middle last) : Reaches (.act action next) state last

def Guarded (guard : Act → State → Prop) : Prog Act Answer α → State → Prop
  | .pure _, _ => True
  | .act action next, state =>
    guard action state ∧
    ∀ answer after, step action state = some (answer, after) →
      Guarded guard (next answer) after

variable {step} {guard : Act → State → Prop} {inv : State → Prop}

theorem Reaches.invariant (kept : ∀ action state answer after, guard action state → inv state →
      step action state = some (answer, after) → inv after)
    {prog : Prog Act Answer α} {state last : State} (reached : Reaches step prog state last)
    (guarded : Guarded step guard prog state) (holds : inv state) : inv last := by
  induction reached with
  | here => exact holds
  | act stepped _ ih =>
    obtain ⟨meets, rest⟩ := guarded
    exact ih (rest _ _ stepped) (kept _ _ _ _ meets holds stepped)

theorem guarded_of_invariant (needed : ∀ action state, inv state →
      (∀ answer after, step action state = some (answer, after) → inv after) → guard action state)
    (prog : Prog Act Answer α) (state : State)
    (along : ∀ last, Reaches step prog state last → inv last) : Guarded step guard prog state := by
  induction prog generalizing state with
  | pure result => trivial
  | act action next ih =>
    constructor
    · apply needed action state (along state .here)
      intro answer after stepped
      exact along after (.act stepped .here)
    · intro answer after stepped
      apply ih answer after
      intro last later
      exact along last (.act stepped later)

theorem run_bind (prog : Prog Act Answer α) (rest : α → Prog Act Answer β) (state : State) :
    run step (prog.bind rest) state =
      (run step prog state).bind fun result => run step (rest result.1) result.2 := by
  induction prog generalizing state with
  | pure result => rfl
  | act action next ih =>
    rw [Prog.bind, run, run]
    cases step action state with
    | none => rfl
    | some stepped => exact ih stepped.1 stepped.2

variable {result : α} {prog : Prog Act Answer α} {state last : State}

theorem run_reaches (prog : Prog Act Answer α)
    (ran : run step prog state = some (result, last)) : Reaches step prog state last := by
  induction prog generalizing state with
  | pure other =>
    cases ran
    exact .here
  | act action next ih =>
    rw [run] at ran
    obtain ⟨⟨answer, middle⟩, stepped, rest⟩ := Option.bind_eq_some_iff.1 ran
    exact .act stepped (ih answer rest)

/-- The run comes to an end in the postcondition, and every action of it is defined and
guarded. -/
def Ends (step : Act → State → Option (Answer × State)) (guard : Act → State → Prop) :
    Prog Act Answer α → State → (α → State → Prop) → Prop
  | .pure result, state, post => post result state
  | .act action next, state, post =>
    guard action state ∧ ∃ answer after, step action state = some (answer, after) ∧
      Ends step guard (next answer) after post

variable {post : α → State → Prop}

theorem Ends.run (ends : Ends step guard prog state post) :
    ∃ result after, run step prog state = some (result, after) ∧ post result after := by
  induction prog generalizing state with
  | pure result => exact ⟨result, state, rfl, ends⟩
  | act action next ih =>
    obtain ⟨_, answer, middle, stepped, rest⟩ := ends
    obtain ⟨result, after, ran, holds⟩ := ih answer rest
    refine ⟨result, after, ?_, holds⟩
    rw [Programs.run, stepped]
    exact ran

theorem Ends.guarded (ends : Ends step guard prog state post) : Guarded step guard prog state := by
  induction prog generalizing state with
  | pure result => trivial
  | act action next ih =>
    obtain ⟨meets, answer, middle, stepped, rest⟩ := ends
    refine ⟨meets, ?_⟩
    intro answer' after stepped'
    -- the machine has one answer
    rw [stepped] at stepped'
    cases stepped'
    exact ih answer rest

theorem Ends.bind {rest : α → Prog Act Answer β}
    {middle : α → State → Prop} {post : β → State → Prop}
    (first : Ends step guard prog state middle)
    (second : ∀ result after, middle result after → Ends step guard (rest result) after post) :
    Ends step guard (prog.bind rest) state post := by
  induction prog generalizing state with
  | pure result => exact second result state first
  | act action next ih =>
    obtain ⟨meets, answer, after, stepped, later⟩ := first
    exact ⟨meets, answer, after, stepped, ih answer later⟩

/-- The run comes to this action in this state. -/
inductive Comes (step : Act → State → Option (Answer × State)) :
    Prog Act Answer α → State → Act → State → Prop
  | here {action next state} : Comes step (.act action next) state action state
  | later {action next state answer middle other last}
      (stepped : step action state = some (answer, middle))
      (then_ : Comes step (next answer) middle other last) :
      Comes step (.act action next) state other last

/-- An action that the program can come to, whichever admitted answers it is given before. -/
inductive Performs (admits : Act → Answer → Prop) : Prog Act Answer α → Act → Prop
  | here {action next} : Performs admits (.act action next) action
  | later {action next answer other} (admitted : admits action answer)
      (then_ : Performs admits (next answer) other) : Performs admits (.act action next) other

variable {action : Act}

theorem Comes.performs {admits} (comes : Comes step prog state action last)
    (each : ∀ action s answer after, step action s = some (answer, after) → admits action answer) :
    Performs admits prog action := by
  induction comes with
  | here => exact .here
  | later stepped _ ih => exact .later (each _ _ _ _ stepped) ih

variable {grows : State → State → Prop} {good : State → Prop}

/-- The rule for coming to an end: where the machine answers every action the run comes to,
the run ends. `good` is kept by these steps. -/
theorem run_ends (prog : Prog Act Answer α)
    (each : ∀ action s, Comes step prog state action s → good s →
      ∃ answer after, step action s = some (answer, after) ∧ good after)
    (start : good state) :
    ∃ result after, run step prog state = some (result, after) ∧ good after := by
  induction prog generalizing state with
  | pure result => exact ⟨result, state, rfl, start⟩
  | act action next ih =>
    obtain ⟨answer, middle, stepped, still⟩ := each action state .here start
    obtain ⟨result, after, ran, held⟩ := ih answer
      (fun other s comes => each other s (.later stepped comes)) still
    refine ⟨result, after, ?_, held⟩
    rw [run, stepped]
    exact ran

/-- A run that ends comes to finitely many actions, and the machine answers each of them. -/
theorem run_comes (ran : (run step prog state).isSome) :
    {at_ : Act × State | Comes step prog state at_.1 at_.2}.Finite ∧
      ∀ action s, Comes step prog state action s → (step action s).isSome := by
  induction prog generalizing state with
  | pure result =>
    constructor
    · apply Set.finite_empty.subset
      rintro at_ comes
      cases comes
    · intro action s comes
      cases comes
  | act action next ih =>
    rw [run] at ran
    cases stepped : step action state with
    | none =>
      rw [stepped] at ran
      cases ran
    | some answered =>
      rw [stepped] at ran
      obtain ⟨finite, defined⟩ := ih answered.1 ran
      constructor
      · apply (finite.insert (action, state)).subset
        rintro ⟨other, s⟩ comes
        cases comes with
        | here => exact .inl rfl
        | later stepped' comes =>
          rw [stepped] at stepped'
          cases stepped'
          exact .inr comes
      · intro other s comes
        cases comes with
        | here => exact Option.isSome_iff_exists.2 ⟨answered, stepped⟩
        | later stepped' comes =>
          rw [stepped] at stepped'
          cases stepped'
          exact defined other s comes

/-- Two machines that never give different answers. -/
def Agree (step step' : Act → State → Option (Answer × State)) : Prop :=
  ∀ action s x y, step action s = some x → step' action s = some y → x = y

variable {step' : Act → State → Option (Answer × State)}

theorem Agree.run (agree : Agree step step') {prog : Prog Act Answer α} {x y : α × State}
    (first : run step prog state = some x) (second : Programs.run step' prog state = some y) :
    x = y := by
  induction prog generalizing state with
  | pure result =>
    cases first
    cases second
    rfl
  | act action next ih =>
    rw [Programs.run] at first second
    obtain ⟨answer, stepped, later⟩ := Option.bind_eq_some_iff.1 first
    obtain ⟨answer', stepped', later'⟩ := Option.bind_eq_some_iff.1 second
    cases agree action state _ _ stepped stepped'
    exact ih answer.1 later later'

theorem Agree.comes (agree : Agree step step') (ran : (Programs.run step prog state).isSome)
    (comes : Comes step' prog state action last) : Comes step prog state action last := by
  induction comes with
  | here => exact .here
  | @later action next state answer middle _ _ stepped' _ ih =>
    rw [Programs.run] at ran
    cases stepped : step action state with
    | none =>
      rw [stepped] at ran
      cases ran
    | some answered =>
      cases agree action state _ _ stepped stepped'
      rw [stepped] at ran
      exact .later stepped (ih ran)

variable {after : State}

theorem run_follows (refl : ∀ s, grows s s) (trans : ∀ s t u, grows s t → grows t u → grows s u)
    (each : ∀ action s answer after, step action s = some (answer, after) → grows s after)
    (prog : Prog Act Answer α)
    (ran : run step prog state = some (result, after)) : grows state after := by
  induction prog generalizing state with
  | pure other =>
    cases ran
    exact refl _
  | act action next ih =>
    rw [run] at ran
    obtain ⟨⟨answer, middle⟩, stepped, rest⟩ := Option.bind_eq_some_iff.1 ran
    exact trans _ _ _ (each action _ answer middle stepped) (ih answer rest)

/-! Programs under an oracle, which gives the answers without a state. -/

def answered (oracle : Act → Answer) : Prog Act Answer α → α
  | .pure result => result
  | .act action next => answered oracle (next (oracle action))

theorem answered_bind (oracle : Act → Answer) (prog : Prog Act Answer α)
    (rest : α → Prog Act Answer β) :
    answered oracle (prog.bind rest) = answered oracle (rest (answered oracle prog)) := by
  induction prog with
  | pure result => rfl
  | act action _ ih => exact ih (oracle action)

end Programs
