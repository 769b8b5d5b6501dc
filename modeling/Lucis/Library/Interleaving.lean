import Lucis.Library.Programs
import Mathlib.Logic.Relation

/-!
A program beside an environment that also moves on its own, as a process beside its
children and the kernel. The program acts on the environment one action at a time and
goes on with one of the answers the action may have there; between two actions the
environment drifts any number of steps. A program ensures a postcondition under a guard
when each action meets the guard where it is taken, wherever the environment drifts.
-/

namespace Programs

variable {Act Answer Env α β : Type}

/-- What an action may answer and leave behind, and how the environment moves by itself. -/
structure World (Act Answer Env : Type) where
  perform : Act → Env → Answer → Env → Prop
  drift : Env → Env → Prop

namespace World

variable (world : World Act Answer Env)

inductive Step : Prog Act Answer α × Env → Prog Act Answer α × Env → Prop
  | act {action next env answer after} (performed : world.perform action env answer after) :
      Step (.act action next, env) (next answer, after)
  | drift {prog env after} (drifted : world.drift env after) : Step (prog, env) (prog, after)

def Steps : Prog Act Answer α × Env → Prog Act Answer α × Env → Prop :=
  Relation.ReflTransGen (Step world)

def Drifts : Env → Env → Prop :=
  Relation.ReflTransGen world.drift

def Stable (holds : Env → Prop) : Prop :=
  ∀ env after, holds env → world.drift env after → holds after

def Ensures (guard : Act → Env → Prop) :
    Prog Act Answer α → (α → Env → Prop) → Env → Prop
  | .pure result, post, env => ∀ after, Drifts world env after → post result after
  | .act action next, post, env =>
    ∀ middle, Drifts world env middle → guard action middle ∧
      ∀ answer after, world.perform action middle answer after →
        Ensures guard (next answer) post after

variable {world} {guard : Act → Env → Prop} {post : α → Env → Prop} {env after : Env}

theorem Stable.drifts {holds : Env → Prop} (stable : world.Stable holds)
    (drifted : world.Drifts env after) (here : holds env) : holds after := by
  induction drifted with
  | refl => exact here
  | tail _ step ih => exact stable _ _ ih step

theorem Stable.and {first second : Env → Prop} (one : world.Stable first)
    (two : world.Stable second) : world.Stable fun env => first env ∧ second env :=
  fun env after both step => ⟨one env after both.1 step, two env after both.2 step⟩

variable {prog : Prog Act Answer α}

variable (ensured : world.Ensures guard prog post env)
include ensured

theorem Ensures.drift
    (drifted : world.drift env after) : world.Ensures guard prog post after := by
  cases prog with
  | pure result => exact fun last later => ensured last (later.head drifted)
  | act action next => exact fun middle later => ensured middle (later.head drifted)

theorem Ensures.weaken {other}
    (weaker : ∀ result after, post result after → other result after) :
    world.Ensures guard prog other env := by
  induction prog generalizing env with
  | pure result => exact fun after drifted => weaker _ _ (ensured after drifted)
  | act action next ih =>
    intro middle drifted
    obtain ⟨meets, rest⟩ := ensured middle drifted
    exact ⟨meets, fun answer after performed => ih answer (rest answer after performed)⟩

theorem Ensures.allow {wider}
    (allowed : ∀ action middle, guard action middle → wider action middle) :
    world.Ensures wider prog post env := by
  induction prog generalizing env with
  | pure result => exact ensured
  | act action next ih =>
    intro middle drifted
    obtain ⟨meets, rest⟩ := ensured middle drifted
    exact ⟨allowed _ _ meets, fun answer after performed => ih answer (rest answer after performed)⟩

theorem Ensures.frame {kept : Env → Prop}
    (acts : ∀ action env answer after, guard action env → kept env →
      world.perform action env answer after → kept after)
    (drifts : world.Stable kept) (holds : kept env) :
    world.Ensures guard prog (fun result after => post result after ∧ kept after) env := by
  induction prog generalizing env with
  | pure result => exact fun after drifted => ⟨ensured after drifted, drifts.drifts drifted holds⟩
  | act action next ih =>
    intro middle drifted
    obtain ⟨meets, rest⟩ := ensured middle drifted
    refine ⟨meets, fun answer after performed => ih answer (rest answer after performed) ?_⟩
    exact acts _ _ _ _ meets (drifts.drifts drifted holds) performed

/-! The rules of the logic. -/

omit ensured in
theorem ensures_pure {result : α} (stable : world.Stable (post result))
    (holds : post result env) : world.Ensures guard (.pure result) post env :=
  fun _ drifted => stable.drifts drifted holds

variable {next : Answer → Prog Act Answer α} {action : Act} {pre : Env → Prop}

omit ensured in
theorem ensures_act (stable : world.Stable pre) (holds : pre env)
    (each : ∀ middle, pre middle → guard action middle ∧
      ∀ answer after, world.perform action middle answer after →
        world.Ensures guard (next answer) post after) :
    world.Ensures guard (.act action next) post env :=
  fun _ drifted => each _ (stable.drifts drifted holds)

omit ensured in
theorem ensures_perform {rest}
    (stable : world.Stable pre) (holds : pre env)
    (each : ∀ middle, pre middle → guard action middle ∧
      ∀ answer after, world.perform action middle answer after →
        world.Ensures guard (rest answer) post after) :
    world.Ensures guard (Prog.perform action >>= rest) post env :=
  ensures_act stable holds each

variable {rest : α → Prog Act Answer β}

omit ensured in
theorem ensures_bind {last} (first : world.Ensures guard prog
      (fun result middle => world.Ensures guard (rest result) last middle) env) :
    world.Ensures guard (prog >>= rest) last env := by
  change world.Ensures guard (prog.bind rest) last env
  induction prog generalizing env with
  | pure result => exact first env .refl
  | act action next ih =>
    intro middle drifted
    obtain ⟨meets, later⟩ := first middle drifted
    exact ⟨meets, fun answer after performed => ih answer (later answer after performed)⟩

/-! What the logic says about runs. -/

variable {later : Prog Act Answer α}

theorem Ensures.steps
    (steps : world.Steps (prog, env) (later, after)) : world.Ensures guard later post after := by
  generalize from_eq : (prog, env) = source at steps
  generalize to_eq : (later, after) = target at steps
  induction steps generalizing later after with
  | refl =>
    rw [← from_eq] at to_eq
    cases to_eq
    exact ensured
  | tail _ step ih =>
    cases step with
    | act performed =>
      cases to_eq
      exact ((ih rfl) _ .refl).2 _ _ performed
    | drift drifted =>
      cases to_eq
      exact (ih rfl).drift drifted

theorem Ensures.result {result : α}
    (steps : world.Steps (prog, env) (.pure result, after)) : post result after :=
  ensured.steps steps after .refl

theorem Ensures.guarded
    (steps : world.Steps (prog, env) (.act action next, after)) : guard action after :=
  (ensured.steps steps after .refl).1

omit ensured

theorem Ensures.invariant {inv : Env → Prop}
    (acts : ∀ action env answer after, guard action env → inv env →
      world.perform action env answer after → inv after)
    (drifts : world.Stable inv) (ensured : world.Ensures guard prog post env) (holds : inv env)
    (steps : world.Steps (prog, env) (later, after)) : inv after := by
  generalize from_eq : (prog, env) = source at steps
  generalize to_eq : (later, after) = target at steps
  induction steps generalizing later after with
  | refl =>
    rw [← from_eq] at to_eq
    cases to_eq
    exact holds
  | tail before step ih =>
    cases step with
    | act performed =>
      cases to_eq
      subst from_eq
      exact acts _ _ _ _ (ensured.guarded before) (ih rfl) performed
    | drift drifted =>
      cases to_eq
      exact drifts _ _ (ih rfl) drifted

theorem steps_bind {result : β} (steps : world.Steps (prog >>= rest, env) (.pure result, after)) :
    ∃ value middle, world.Steps (prog, env) (.pure value, middle) ∧
      world.Steps (rest value, middle) (.pure result, after) := by
  change world.Steps (prog.bind rest, env) _ at steps
  generalize from_eq : (prog.bind rest, env) = source at steps
  induction steps using Relation.ReflTransGen.head_induction_on generalizing prog env with
  | refl =>
    cases prog with
    | pure value =>
      obtain ⟨same, rfl⟩ := Prod.mk.inj from_eq
      exact ⟨value, _, .refl, by rw [← same]; exact .refl⟩
    | act action next => cases from_eq
  | head step later ih =>
    cases step with
    | @act action next env answer middle performed =>
      cases prog with
      | pure value =>
        obtain ⟨same, rfl⟩ := Prod.mk.inj from_eq
        refine ⟨value, _, .refl, ?_⟩
        change rest value = _ at same
        rw [same]
        exact .head (.act performed) later
      | act first follow =>
        obtain ⟨same, rfl⟩ := Prod.mk.inj from_eq
        cases same
        obtain ⟨value, last, reached, finish⟩ := ih rfl
        exact ⟨value, last, .head (.act performed) reached, finish⟩
    | @drift other env middle drifted =>
      obtain ⟨rfl, rfl⟩ := Prod.mk.inj from_eq
      obtain ⟨value, last, reached, finish⟩ := ih rfl
      exact ⟨value, last, .head (.drift drifted) reached, finish⟩

theorem Drifts.steps (prog : Prog Act Answer α) (drifted : world.Drifts env after) :
    world.Steps (prog, env) (prog, after) := by
  induction drifted with
  | refl => exact .refl
  | tail _ step ih => exact ih.tail (.drift step)

/-- The rule for coming to an end: where each guarded action that does not get `stuck` can
be answered, some run ends or gets stuck. -/
theorem ends_or_stuck {good : Env → Prop} {stuck : Act → Env → Prop}
    (each : ∀ action env, guard action env → good env → ∃ middle, world.Drifts env middle ∧
      (stuck action middle ∨ ∃ answer after, world.perform action middle answer after ∧ good after))
    (prog : Prog Act Answer α) (ensured : world.Ensures guard prog post env) (start : good env) :
    (∃ action next after, world.Steps (prog, env) (.act action next, after) ∧ stuck action after) ∨
      ∃ result after, world.Steps (prog, env) (.pure result, after) ∧ good after := by
  induction prog generalizing env with
  | pure result => exact .inr ⟨result, env, .refl, start⟩
  | act action next ih =>
    obtain ⟨middle, drifted, ends⟩ := each action env (ensured env .refl).1 start
    have here := drifted.steps (.act action next)
    rcases ends with halts | ⟨answer, after, performed, goes_on⟩
    · exact .inl ⟨action, next, middle, here, halts⟩
    · have entered := here.tail (.act performed)
      rcases ih answer ((ensured middle drifted).2 answer after performed) goes_on with
        ⟨last, follow, there, reached, halts⟩ | ⟨result, there, reached, fine⟩
      · exact .inl ⟨last, follow, there, entered.trans reached, halts⟩
      · exact .inr ⟨result, there, entered.trans reached, fine⟩

/-! Coming to an end. -/

/-- No run from `state` goes on for ever. -/
def Ends (world : World Act Answer Env) (state : Prog Act Answer α × Env) : Prop :=
  Acc (fun after before => Step world before after) state

/-- A program ends beside an environment that comes to rest whatever the program did to it. -/
theorem ends_of_rests {kept : Env → Prop}
    (acts : ∀ action env answer after, kept env → world.perform action env answer after → kept after)
    (drifts : world.Stable kept)
    (rests : ∀ env, kept env → Acc (fun after before => world.drift before after) env)
    (prog : Prog Act Answer α) (here : kept env) : Ends world (prog, env) := by
  induction prog generalizing env with
  | pure result =>
    have rest := rests env here
    clear here
    induction rest with
    | intro env _ ih =>
      constructor
      rintro _ (_ | drifted)
      exact ih _ drifted
  | act action next each =>
    have rest := rests env here
    induction rest with
    | intro env _ ih =>
      constructor
      rintro _ (performed | drifted)
      · exact each _ (acts _ _ _ _ here performed)
      · exact ih _ drifted (drifts _ _ here drifted)

/-! A world that answers in fewer ways, and drifts in as many. -/

/-- Every answer of `world` is one of `wider`. -/
structure Within (world wider : World Act Answer Env) : Prop where
  performs : ∀ action env answer after, world.perform action env answer after →
    wider.perform action env answer after
  drifts : world.drift = wider.drift

variable {wider : World Act Answer Env}

theorem Within.steps (within : Within world wider)
    {source target : Prog Act Answer α × Env} (steps : world.Steps source target) :
    wider.Steps source target := by
  induction steps with
  | refl => exact .refl
  | tail _ step ih =>
    cases step with
    | act performed => exact ih.tail (.act (within.performs _ _ _ _ performed))
    | drift drifted => exact ih.tail (.drift (within.drifts ▸ drifted))

theorem Within.ensures (within : Within world wider) (ensured : wider.Ensures guard prog post env) :
    world.Ensures guard prog post env := by
  have drifts {source target : Env} (drifted : world.Drifts source target) :
      wider.Drifts source target := by
    rw [Drifts, ← within.drifts]
    exact drifted
  induction prog generalizing env with
  | pure result => exact fun after drifted => ensured after (drifts drifted)
  | act action next ih =>
    intro middle drifted
    obtain ⟨meets, rest⟩ := ensured middle (drifts drifted)
    exact ⟨meets, fun answer after performed =>
      ih answer (rest answer after (within.performs _ _ _ _ performed))⟩

end World

end Programs
