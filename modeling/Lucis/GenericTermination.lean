import Mathlib.Data.Set.Finite.Lattice
import Lucis.Generics

/-!
When the instantiators come back. Two things stop their recursion: an error on the way, and
a mangled name that is already there or in progress. So what counts is how many names come
up along the calls that are made with the answers given so far; those that could come up with
any answers are known from the templates and the request alone, and may be more.
-/

namespace Lucis.GenericTermination

open Programs List
open TypeSpec (Name Ref)
open Generics

section Requests

variable (p : Program)

structure Begins (r : Request) (s : State) (t : Template) : Prop where
  known : p.templates r.kind r.base = some t
  fits : r.args.length = t.typeParams.length
  missing : s.cached r = none
  outside : r.mangledName ∉ s.instantiatingGenerics
  satisfied : t.satisfied r.typeArgs = true

/-- What the instance `r` begun in `s` does, and in which tables: first for its `required`
types and then, once these are all there, for the uses in its body and methods. -/
inductive Does (step : Action → State → Option (Option Ref × State)) (t : Template)
    (r : Request) (s : State) : Action → State → Prop
  | required {action last} (comes : Comes step (p.required t r) (s.enter r) action last) :
      Does step t r s action last
  | used {types middle type action last}
      (resolved : run step (p.required t r) (s.enter r) = some (types, middle))
      (made : types.bind r.instantiated = some type)
      (comes : Comes step (p.used (t.inner r) t.uses) (registered t r type middle) action last) :
      Does step t r s action last

abbrev Call := Request × State

/-- The call that is made next, the calls before it having come back. -/
def Asks (c c' : Call) : Prop :=
  ∃ t, Begins p c.1 c.2 t ∧ ∃ fuel action, action.request = some c'.1 ∧
    Does p (act (instantiateGeneric p fuel)) t c.1 c.2 action c'.2

def key (r : Request) : Bool × Name := (r.kind = .func, r.mangledName)

/-- The names that come up when `r` is instantiated in `s`. -/
def namesAsked (r : Request) (s : State) : Set (Bool × Name) :=
  {k | ∃ c, Relation.ReflTransGen (Asks p) (r, s) c ∧ key c.1 = k}

def Named (r : Request) (answer : Option Ref) : Prop :=
  r.kind ≠ .func → ∀ type, answer = some type →
    type.name = r.mangledName ∨ (r.kind = .struct ∧ type = .registry "int32")

def answers : Action → Option Ref → Prop
  | .instantiate kind base args, answer => Named ⟨kind, base, args⟩ answer
  | _, answer => answer = none

def MayAsk (r r' : Request) : Prop :=
  ∃ t, p.templates r.kind r.base = some t ∧ ∃ action : Action, action.request = some r' ∧
    (Performs answers (p.required t r) action ∨ Performs answers (p.used (t.inner r) t.uses) action)

def FinitelyMany (r : Request) : Prop :=
  {k | ∃ r', Relation.ReflTransGen (MayAsk p) r r' ∧ key r' = k}.Finite

end Requests

section Growth

def listed (s : State) : Bool × Name → Prop
  | (true, name) => (s.functions name).isSome
  | (false, name) => (∃ type ∈ s.dynamicTypes, type.name = name) ∨ (s.typeRegistry name).isSome

def settled (s : State) (k : Bool × Name) : Prop :=
  k.2 ∈ s.instantiatingGenerics ∨ listed s k

structure Grows (s s' : State) : Prop where
  dynamicTypes : ∀ type ∈ s.dynamicTypes, type ∈ s'.dynamicTypes
  typeRegistry : ∀ name, (s.typeRegistry name).isSome → (s'.typeRegistry name).isSome
  functions : ∀ name, (s.functions name).isSome → (s'.functions name).isSome
  running : ∀ name ∈ s.instantiatingGenerics, name ∈ s'.instantiatingGenerics

variable (s : State)

theorem Grows.refl : Grows s s :=
  ⟨fun _ there => there, fun _ there => there, fun _ there => there, fun _ there => there⟩

theorem Grows.trans {s t u : State} (first : Grows s t) (second : Grows t u) : Grows s u where
  dynamicTypes := fun type there => second.dynamicTypes type (first.dynamicTypes type there)
  typeRegistry := fun name there => second.typeRegistry name (first.typeRegistry name there)
  functions := fun name there => second.functions name (first.functions name there)
  running := fun name there => second.running name (first.running name there)

variable {k : Bool × Name}

theorem Grows.listed {s s' : State} (grows : Grows s s') (before : listed s k) : listed s' k := by
  rcases k with ⟨func, name⟩
  cases func with
  | true => exact grows.functions name before
  | false =>
    rcases before with ⟨type, there, named⟩ | registered
    · exact .inl ⟨type, grows.dynamicTypes type there, named⟩
    · exact .inr (grows.typeRegistry name registered)

theorem Grows.settled {s s' : State} (grows : Grows s s')
    (before : settled s k) : settled s' k := by
  rcases before with running | there
  · exact .inl (grows.running k.2 running)
  · exact .inr (grows.listed there)

theorem update_isSome {α : Type} {table} {name other : Name} {entry : α}
    (there : (table other).isSome) : (update table name (some entry) other).isSome := by
  by_cases same : other = name
  · rw [same, update_self]
    rfl
  · rwa [update_ne same]

theorem grows_dynamicType (type : Ref) : Grows s (s.dynamicType type) where
  dynamicTypes := fun _ there => mem_append_left _ there
  typeRegistry := fun _ there => there
  functions := fun _ there => there
  running := fun _ there => there

variable (r : Request)

theorem grows_enter : Grows s (s.enter r) := by
  unfold State.enter
  constructor
  · split <;> exact fun _ there => there
  · split
    · exact fun _ there => there
    · exact fun _ there => update_isSome there
  · split <;> exact fun _ there => there
  · split <;> exact fun _ there => .tail _ there

theorem grows_register (ret : Ref) : Grows s (s.register r ret) := by
  unfold State.register
  constructor
  · split <;> exact fun _ there => there
  · split
    · exact fun _ there => there
    · exact fun _ there => update_isSome there
  · split
    · exact fun _ there => update_isSome there
    · exact fun _ there => there
  · split <;> exact fun _ there => there

theorem Grows.leave {s s' : State} {r : Request} (grows : Grows s s')
    (outside : r.mangledName ∉ s.instantiatingGenerics) : Grows s (s'.leave r) where
  dynamicTypes := grows.dynamicTypes
  typeRegistry := grows.typeRegistry
  functions := grows.functions
  running := by
    intro name there
    apply mem_filter.mpr
    refine ⟨grows.running name there, ?_⟩
    have other : name ≠ r.mangledName := by
      rintro rfl
      exact outside there
    simpa using other

end Growth

section Stopping
variable {r : Request}

theorem key_func (func : r.kind = .func) : key r = (true, r.mangledName) := by
  simp [key, func]

theorem key_type (type : r.kind ≠ .func) : key r = (false, r.mangledName) := by
  simp [key, type]

variable (s : State)

theorem settled_enter (r : Request) : settled (s.enter r) (key r) := by
  left
  unfold State.enter
  split <;> exact .head _

theorem listed_register (r : Request) (ret : Ref) :
    listed (s.register r ret) (key r) := by
  by_cases func : r.kind = .func
  · rw [key_func func]
    simp [listed, State.register, func, State.registerFunction]
  · rw [key_type func]
    right
    unfold State.register
    split
    · next is_func => exact absurd is_func func
    · simp [State.registerType]

variable {s : State}

theorem not_listed (missing : s.cached r = none) : ¬ listed s (key r) := by
  by_cases func : r.kind = .func
  · rw [key_func func]
    intro there
    simp [State.cached, func, show (s.functions r.mangledName).isSome from there] at missing
  · rw [key_type func]
    unfold State.cached at missing
    split at missing
    · next is_func => exact absurd is_func func
    · split at missing
      · cases missing
      · next none_named =>
        split at missing
        · cases missing
        · next absent =>
          rintro (⟨type, there, named⟩ | registered)
          · simpa [named] using find?_eq_none.1 none_named type there
          · exact absent registered

theorem not_settled (missing : s.cached r = none)
    (outside : r.mangledName ∉ s.instantiatingGenerics) : ¬ settled s (key r) := by
  rintro (running | there)
  · exact outside running
  · exact not_listed missing there

theorem registered_grows {middle : State} {t : Template} {type : Ref}
    (grows : Grows s middle) (outside : r.mangledName ∉ s.instantiatingGenerics) :
    Grows s (registered t r type middle) ∧ settled (registered t r type middle) (key r) := by
  have added := grows.trans (grows_register middle r type)
  have there := listed_register middle r type
  unfold registered
  split
  · exact ⟨added.leave outside, .inr there⟩
  · exact ⟨added, .inr there⟩

end Stopping

section Counting

open Classical in
noncomputable def left (F : Finset (Bool × Name)) (s : State) : Nat :=
  (F.filter fun k => ¬ settled s k).card

variable {F : Finset (Bool × Name)}

theorem left_lt {s s' : State} {k} (inside : k ∈ F) (before : ¬ settled s k)
    (grows : Grows s s') (after : settled s' k) : left F s' < left F s := by
  classical
  apply Finset.card_lt_card
  rw [Finset.ssubset_iff_of_subset]
  · refine ⟨k, Finset.mem_filter.2 ⟨inside, before⟩, ?_⟩
    intro there
    exact (Finset.mem_filter.1 there).2 after
  · intro other there
    rcases Finset.mem_filter.1 there with ⟨listed, open_⟩
    exact Finset.mem_filter.2 ⟨listed, fun closed => open_ (grows.settled closed)⟩

end Counting

section Ending

variable {p : Program} {F : Finset (Bool × Name)} {s : State} {r : Request}

theorem cached_answer {slot : Slot} (found : s.cached r = some slot) : Named r (s.result slot) := by
  intro type_request type given
  left
  unfold State.cached at found
  split at found
  · next is_func => exact absurd is_func type_request
  · split at found
    · next dynamic first =>
      cases found
      cases given
      simpa using find?_some first
    · split at found
      · cases found
        cases given
        rfl
      · cases found

theorem running_answer (s : State) (r : Request) : Named r ((s.running r).bind s.result) := by
  intro _ type given
  right
  unfold State.running at given
  split at given
  · next struct =>
    split at given
    · cases given
      exact ⟨struct, rfl⟩
    · cases given
  · cases given

theorem built_answer (r : Request) (types : Option (List (Ref × Nat))) :
    Named r (types.bind r.instantiated) := by
  intro type_request type given
  left
  rcases Option.bind_eq_some_iff.1 given with ⟨found, -, made⟩
  unfold Request.instantiated at made
  split at made
  · next is_func => exact absurd is_func type_request
  · cases made
    rfl

theorem named_answer {fuel : Nat} {out : Option Ref} {after : State}
    (ran : instantiateGeneric p fuel r s = some (out, after)) : Named r out := by
  have nothing : Named r none := by
    intro _ type given
    cases given
  cases fuel with
  | zero => cases ran
  | succ fuel =>
    cases instantiate_outcome ran with
    | unknown => exact nothing
    | arity => exact nothing
    | refused => exact nothing
    | cached _ _ _ slot found => exact cached_answer found
    | running => exact running_answer s r
    | built t _ _ _ _ _ _ _ made =>
      rcases build_cases made with ⟨types, middle, -, ended⟩
      rcases ended with ⟨-, rfl, -⟩ | ⟨type, last, same, -, rfl, -⟩
      · exact nothing
      · rw [← same]
        exact built_answer r types

theorem act_answers {fuel : Nat} {action : Action} {answer : Option Ref} {after : State}
    (stepped : act (instantiateGeneric p fuel) action s = some (answer, after)) :
    answers action answer := by
  cases action with
  | instantiate kind base args => exact named_answer stepped
  | call base args =>
    rcases Option.map_eq_some_iff.1 stepped with ⟨result, -, same⟩
    cases same
    rfl
  | dynamicType type =>
    cases stepped
    rfl

theorem Asks.may {c c' : Call} (asks : Asks p c c') : MayAsk p c.1 c'.1 := by
  rcases asks with ⟨t, begins, fuel, action, asked, does⟩
  refine ⟨t, begins.known, action, asked, ?_⟩
  cases does with
  | required comes => exact .inl (comes.performs fun _ _ _ _ => act_answers)
  | used _ _ comes => exact .inr (comes.performs fun _ _ _ _ => act_answers)

theorem FinitelyMany.asked (finite : FinitelyMany p r) (s : State) : (namesAsked p r s).Finite := by
  apply finite.subset
  rintro k ⟨c, reached, rfl⟩
  exact ⟨c.1, reached.lift Prod.fst fun _ _ => Asks.may, rfl⟩

variable {t : Template} {fuel : Nat}

/-- An instance is either answered at once, or begun. -/
theorem instantiate_cases (p : Program) (r : Request) (s : State) :
    (¬ (∃ t, Begins p r s t) ∧
      ∃ out, ∀ fuel, instantiateGeneric p (fuel + 1) r s = some (out, s)) ∨
    ∃ t, Begins p r s t ∧ ∀ fuel, instantiateGeneric p (fuel + 1) r s =
      p.build (act (instantiateGeneric p fuel)) t r s := by
  by_cases begun : ∃ t, Begins p r s t
  · right
    rcases begun with ⟨t, begins⟩
    refine ⟨t, begins, fun fuel => ?_⟩
    rw [instantiateGeneric, begins.known]
    simp [begins.fits, begins.missing, begins.outside, begins.satisfied]
  · left
    refine ⟨begun, ?_⟩
    cases known : p.templates r.kind r.base with
    | none => exact ⟨none, fun fuel => by simp [instantiateGeneric, known]⟩
    | some t =>
      by_cases fits : r.args.length = t.typeParams.length
      · cases found : s.cached r with
        | some slot =>
          exact ⟨s.result slot, fun fuel => by simp [instantiateGeneric, known, fits, found]⟩
        | none =>
          by_cases inside : r.mangledName ∈ s.instantiatingGenerics
          · exact ⟨(s.running r).bind s.result,
              fun fuel => by simp [instantiateGeneric, known, fits, found, inside]⟩
          · have refused : t.satisfied r.typeArgs = false := by
              by_contra other
              exact begun ⟨t, known, fits, found, inside, by simpa using other⟩
            exact ⟨none,
              fun fuel => by simp [instantiateGeneric, known, fits, found, inside, refused]⟩
      · exact ⟨none, fun fuel => by simp [instantiateGeneric, known, fits]⟩

/-- The tables inside an instance begun in `s`. -/
structure Inside (s : State) (r : Request) (middle : State) : Prop where
  grows : Grows s middle
  there : settled middle (key r)

theorem Inside.follows {middle after : State} (inside : Inside s r middle)
    (grows : Grows middle after) : Inside s r after :=
  ⟨inside.grows.trans grows, grows.settled inside.there⟩

theorem act_ends (begins : Begins p r s t)
    (inner : ∀ r' middle, Asks p (r, s) (r', middle) → Inside s r middle →
      ∃ out after, instantiateGeneric p fuel r' middle = some (out, after) ∧ Grows middle after)
    {action : Action} {middle : State}
    (does : Does p (act (instantiateGeneric p fuel)) t r s action middle)
    (inside : Inside s r middle) :
    ∃ answer after, act (instantiateGeneric p fuel) action middle = some (answer, after) ∧
      Inside s r after := by
  cases action with
  | instantiate kind base args =>
    rcases inner ⟨kind, base, args⟩ middle ⟨t, begins, fuel, _, rfl, does⟩ inside with
      ⟨out, after, ran, grown⟩
    exact ⟨out, after, ran, inside.follows grown⟩
  | call base args =>
    rcases inner ⟨.func, base, args⟩ middle ⟨t, begins, fuel, _, rfl, does⟩ inside with
      ⟨out, after, ran, grown⟩
    refine ⟨none, after, ?_, inside.follows grown⟩
    simp [act, ran]
  | dynamicType type => exact ⟨none, _, rfl, inside.follows (grows_dynamicType middle type)⟩

/-- An instance comes to an end where everything done inside it does. -/
theorem build_ends {step} (outside : r.mangledName ∉ s.instantiatingGenerics)
    (each : ∀ action middle, Does p step t r s action middle → Inside s r middle →
      ∃ answer after, step action middle = some (answer, after) ∧ Inside s r after) :
    ∃ out after, p.build step t r s = some (out, after) ∧ Grows s after := by
  rcases run_ends (p.required t r) (fun action middle comes => each action middle (.required comes))
    ⟨grows_enter s r, settled_enter s r⟩ with ⟨types, middle, resolved, inside⟩
  unfold Program.build
  simp only [resolved, Option.bind_eq_bind, Option.bind_some]
  cases made : types.bind r.instantiated with
  | none => exact ⟨none, middle.leave r, rfl, inside.grows.leave outside⟩
  | some type =>
    have good : Grows s (registered t r type middle) ∧
        settled (registered t r type middle) (key r) := registered_grows inside.grows outside
    rcases run_ends (p.used (t.inner r) t.uses)
      (fun action middle comes => each action middle (.used resolved made comes))
      ⟨good.1, good.2⟩ with ⟨⟨⟩, last, used, later⟩
    refine ⟨some type, last.leave r, ?_, later.grows.leave outside⟩
    simp [used]

theorem instantiate_ends {c : Call}
    (names : ∀ c', Relation.ReflTransGen (Asks p) c c' → key c'.1 ∈ F) (fuel : Nat)
    (reached : Relation.ReflTransGen (Asks p) c (r, s)) (enough : left F s < fuel) :
    ∃ out after, instantiateGeneric p fuel r s = some (out, after) ∧ Grows s after := by
  induction fuel generalizing r s with
  | zero => exact absurd enough (Nat.not_lt_zero _)
  | succ fuel ih =>
    rcases instantiate_cases p r s with ⟨-, out, answered⟩ | ⟨t, begins, building⟩
    · exact ⟨out, s, answered fuel, .refl s⟩
    · rw [building fuel]
      apply build_ends begins.outside
      intro action middle does inside
      apply act_ends begins ?_ does inside
      intro r' middle asked inside
      apply ih (reached.tail asked)
      have fewer := left_lt (names _ reached) (not_settled begins.missing begins.outside)
        inside.grows inside.there
      omega

end Ending

section Calls

variable {p : Program} {t : Template} {r : Request} {s : State}

theorem act_agrees {fuel fuel' : Nat} (same : ∀ r s x y, instantiateGeneric p fuel r s = some x →
      instantiateGeneric p fuel' r s = some y → x = y) :
    Agree (act (instantiateGeneric p fuel)) (act (instantiateGeneric p fuel')) := by
  intro action s x y first second
  cases action with
  | instantiate kind base args => exact same _ s x y first second
  | call base args =>
    rcases Option.map_eq_some_iff.1 first with ⟨x, ran, rfl⟩
    rcases Option.map_eq_some_iff.1 second with ⟨y, ran', rfl⟩
    rw [same _ s x y ran ran']
  | dynamicType type =>
    cases first
    cases second
    rfl

theorem build_agrees {step step'} (agree : Agree step step') {x y : Option Ref × State}
    (first : p.build step t r s = some x) (second : p.build step' t r s = some y) : x = y := by
  rcases build_cases first with ⟨types, middle, resolved, ended⟩
  rcases build_cases second with ⟨types', middle', resolved', ended'⟩
  cases agree.run resolved resolved'
  rcases ended with ⟨failed, out, after⟩ | ⟨type, last, made, used, out, after⟩
  · rcases ended' with ⟨-, out', after'⟩ | ⟨type', -, made', -⟩
    · exact Prod.ext (out.trans out'.symm) (after.trans after'.symm)
    · rw [failed] at made'
      cases made'
  · rcases ended' with ⟨failed', -⟩ | ⟨type', last', made', used', out', after'⟩
    · rw [made] at failed'
      cases failed'
    · rw [made] at made'
      cases made'
      cases agree.run used used'
      exact Prod.ext (out.trans out'.symm) (after.trans after'.symm)

theorem instantiate_agrees {fuel fuel' : Nat} {x y : Option Ref × State}
    (first : instantiateGeneric p fuel r s = some x)
    (second : instantiateGeneric p fuel' r s = some y) : x = y := by
  induction fuel generalizing fuel' r s x y with
  | zero => cases first
  | succ fuel ih =>
    cases fuel' with
    | zero => cases second
    | succ fuel' =>
      rcases instantiate_cases p r s with ⟨-, out, answered⟩ | ⟨t, -, building⟩
      · rw [answered] at first second
        rw [← Option.some.inj first, ← Option.some.inj second]
      · rw [building] at first second
        exact build_agrees (act_agrees fun _ _ _ _ => ih) first second

theorem fuel_agrees (p : Program) (fuel fuel' : Nat) :
    Agree (act (instantiateGeneric p fuel)) (act (instantiateGeneric p fuel')) :=
  act_agrees fun _ _ _ _ => instantiate_agrees

/-- An instance that comes back has done finitely many things, and each of them came back. -/
theorem does_finite {fuel : Nat}
    (built : (p.build (act (instantiateGeneric p fuel)) t r s).isSome) :
    {at_ : Action × State |
        ∃ fuel', Does p (act (instantiateGeneric p fuel')) t r s at_.1 at_.2}.Finite ∧
      ∀ fuel' action middle, Does p (act (instantiateGeneric p fuel')) t r s action middle →
        (act (instantiateGeneric p fuel) action middle).isSome := by
  rcases Option.isSome_iff_exists.1 built with ⟨⟨out, after⟩, built⟩
  rcases build_cases built with ⟨types, middle, resolved, ended⟩
  have ran := Option.isSome_iff_exists.2 ⟨_, resolved⟩
  rcases run_comes ran with ⟨finite, defined⟩
  have later : ∀ type, types.bind r.instantiated = some type →
      (run (act (instantiateGeneric p fuel)) (p.used (t.inner r) t.uses)
        (registered t r type middle)).isSome := by
    intro type made
    rcases ended with ⟨failed, -⟩ | ⟨type', last, made', used, -⟩
    · rw [failed] at made
      cases made
    · rw [made'] at made
      cases made
      exact Option.isSome_iff_exists.2 ⟨_, used⟩
  have agree := fuel_agrees p fuel
  -- what is done with other fuel is done with this fuel too
  have same : ∀ fuel' action s', Does p (act (instantiateGeneric p fuel')) t r s action s' →
      Comes (act (instantiateGeneric p fuel)) (p.required t r) (s.enter r) action s' ∨
      ∃ type, types.bind r.instantiated = some type ∧
        Comes (act (instantiateGeneric p fuel)) (p.used (t.inner r) t.uses)
          (registered t r type middle) action s' := by
    intro fuel' action s' does
    cases does with
    | required comes => exact .inl ((agree fuel').comes ran comes)
    | used resolved' made comes =>
      cases (agree fuel').run resolved resolved'
      exact .inr ⟨_, made, (agree fuel').comes (later _ made) comes⟩
  constructor
  · cases made : types.bind r.instantiated with
    | none =>
      apply finite.subset
      rintro ⟨action, s'⟩ ⟨fuel', does⟩
      rcases same fuel' action s' does with early | ⟨type, some_type, -⟩
      · exact early
      · rw [made] at some_type
        cases some_type
    | some type =>
      apply (finite.union (run_comes (later type made)).1).subset
      rintro ⟨action, s'⟩ ⟨fuel', does⟩
      rcases same fuel' action s' does with early | ⟨type', some_type, late⟩
      · exact .inl early
      · rw [made] at some_type
        cases some_type
        exact .inr late
  · intro fuel' action s' does
    rcases same fuel' action s' does with early | ⟨type, made, late⟩
    · exact defined action s' early
    · exact (run_comes (later type made)).2 action s' late

theorem act_request {action : Action} {r' : Request} {fuel : Nat}
    (asked : action.request = some r') (answered : (act (instantiateGeneric p fuel) action s).isSome) :
    (instantiateGeneric p fuel r' s).isSome := by
  cases action with
  | instantiate kind base args =>
    cases asked
    exact answered
  | call base args =>
    cases asked
    simpa [act] using answered
  | dynamicType type => cases asked

theorem asked_finite {fuel : Nat} (begins : Begins p r s t)
    (built : (p.build (act (instantiateGeneric p fuel)) t r s).isSome) :
    {c | Asks p (r, s) c}.Finite ∧
      ∀ c, Asks p (r, s) c → (instantiateGeneric p fuel c.1 c.2).isSome := by
  rcases does_finite built with ⟨finite, defined⟩
  have known : ∀ c, Asks p (r, s) c → ∃ fuel' action, action.request = some c.1 ∧
      Does p (act (instantiateGeneric p fuel')) t r s action c.2 := by
    rintro c ⟨t', begins', asked⟩
    have same := begins'.known
    simp only [begins.known, Option.some.injEq] at same
    rwa [← same] at asked
  constructor
  · have made := finite.image fun at_ => at_.1.request.map fun r' => (r', at_.2)
    apply (made.preimage (Option.some_injective Call).injOn).subset
    intro c asks
    rcases known c asks with ⟨fuel', action, request, does⟩
    refine ⟨(action, c.2), ⟨fuel', does⟩, ?_⟩
    simp [request]
  · intro c asks
    rcases known c asks with ⟨fuel', action, request, does⟩
    exact act_request request (defined fuel' action c.2 does)

theorem calls_finite {fuel : Nat} (ran : (instantiateGeneric p fuel r s).isSome) :
    {c | Relation.ReflTransGen (Asks p) (r, s) c}.Finite := by
  induction fuel generalizing r s with
  | zero => cases ran
  | succ fuel ih =>
    rcases instantiate_cases p r s with ⟨idle, -⟩ | ⟨t, begins, building⟩
    · apply (Set.finite_singleton (r, s)).subset
      intro c reached
      rcases reached.cases_head with rfl | ⟨next, ⟨t, begins, -⟩, -⟩
      · rfl
      · exact absurd ⟨t, begins⟩ idle
    · rw [building] at ran
      rcases asked_finite begins ran with ⟨finite, answered⟩
      have below := Set.Finite.biUnion finite fun c asks => ih (answered c asks)
      apply (below.insert (r, s)).subset
      intro c reached
      rcases reached.cases_head with rfl | ⟨next, asks, later⟩
      · exact .inl rfl
      · exact .inr (Set.mem_biUnion asks later)

/-- An instantiation comes back if and only if finitely many names come up, as they do where
only finitely many can. -/
theorem instantiation_ends (p : Program) (r : Request) (s : State) :
    ((∃ fuel out after, instantiateGeneric p fuel r s = some (out, after)) ↔
      (namesAsked p r s).Finite) ∧
    (FinitelyMany p r → (namesAsked p r s).Finite) := by
  refine ⟨⟨?_, ?_⟩, fun finite => finite.asked s⟩
  · rintro ⟨fuel, out, after, ran⟩
    have finite := calls_finite (Option.isSome_iff_exists.2 ⟨_, ran⟩)
    apply (finite.image fun c => key c.1).subset
    rintro k ⟨c, reached, rfl⟩
    exact ⟨c, reached, rfl⟩
  · intro finite
    have names : ∀ c, Relation.ReflTransGen (Asks p) (r, s) c → key c.1 ∈ finite.toFinset := by
      intro c reached
      exact finite.mem_toFinset.2 ⟨c, reached, rfl⟩
    rcases instantiate_ends names _ .refl (Nat.lt_succ_self (left finite.toFinset s)) with
      ⟨out, after, ran, -⟩
    exact ⟨_, out, after, ran⟩

end Calls

section Examples

open TypeSpec (Spec mangleGenericName)

def noTables : State := ⟨[], fun _ => none, fun _ => none, []⟩

def structTemplate (typeParams : List Name) (fields : List Spec) : Template :=
  ⟨typeParams, fun _ => true, fields, false, []⟩

/-- A program with generic structs and `int32`. -/
def structs (fieldsOf : Name → Option (List Name × List Spec)) : Program where
  env :=
    { lookup := fun name => if name = "int32" then some "int32" else none
      isExtended := fun _ => false
      extArity := fun _ => none
      imported := fun _ => false
      exported := id
      template := fun _ => none
      instantiates := fun _ _ => false }
  templates := fun kind name =>
    if kind = .struct then (fieldsOf name).map fun made => structTemplate made.1 made.2 else none

/-- `struct Node<T> { T value; *Node<T> next; }` -/
def nodeFields : List Spec := [.base "T", .pointer (.generic "Node" [.base "T"])]

def nodeOfInt : Request := ⟨.struct, "Node", [(.registry "int32", 0)]⟩

/-- `struct G<T> { *G<G<T>> next; }` -/
def growingFields : List Spec := [.pointer (.generic "G" [.generic "G" [.base "T"]])]

def growing : Program := structs fun name => if name = "G" then some (["T"], growingFields) else none

/-- `int32` in `n` layers of `G`. -/
def layered : Nat → Ref
  | 0 => .registry "int32"
  | n + 1 => .registry (mangleGenericName "G" [layered n])

def growingRequest (n : Nat) : Request := ⟨.struct, "G", [(layered n, 0)]⟩

variable (n : Nat)

/-- The tables in which the request for `n` layers is made, inside all those before it. -/
def growingTables : Nat → State
  | 0 => noTables
  | n + 1 => (growingTables n).enter (growingRequest n)

theorem layered_length : (layered n).name.length = 5 + 3 * n := by
  induction n with
  | zero => rfl
  | succ n ih =>
    have joint : "G__".length = 3 := rfl
    have longer : (layered (n + 1)).name.length = "G__".length + (layered n).name.length := by
      simp [layered, Ref.name, mangleGenericName]
    rw [longer, joint, ih]
    omega

theorem growing_mangled : (growingRequest n).mangledName = (layered (n + 1)).name :=
  rfl

theorem growing_name_injective {n m : Nat}
    (same : (growingRequest n).mangledName = (growingRequest m).mangledName) : n = m := by
  have lengths := congrArg String.length same
  rw [growing_mangled, growing_mangled, layered_length, layered_length] at lengths
  omega

theorem growingTables_names : (growingTables n).dynamicTypes = [] ∧
    (∀ name, ((growingTables n).typeRegistry name).isSome →
      ∃ m < n, name = (growingRequest m).mangledName) ∧
    ∀ name ∈ (growingTables n).instantiatingGenerics,
      ∃ m < n, name = (growingRequest m).mangledName := by
  induction n with
  | zero => simp [growingTables, noTables]
  | succ n ih =>
    rcases ih with ⟨dynamic, registry, running⟩
    have longer : ∀ name, (∃ m < n, name = (growingRequest m).mangledName) →
        ∃ m < n + 1, name = (growingRequest m).mangledName :=
      fun _ ⟨m, below, same⟩ => ⟨m, Nat.lt_succ_of_lt below, same⟩
    have entered : growingTables (n + 1) = (growingTables n).enter (growingRequest n) := rfl
    refine ⟨?_, ?_, ?_⟩
    · rw [entered, enter_dynamicTypes, dynamic]
    · intro name there
      by_cases here : name = (growingRequest n).mangledName
      · exact ⟨n, Nat.lt_succ_self n, here⟩
      · rw [entered, enter_type struct_not_func] at there
        simp only [State.registerType, update_ne here] at there
        exact longer name (registry name there)
    · intro name there
      rw [entered, enter_running] at there
      rcases mem_cons.1 there with here | before
      · exact ⟨n, Nat.lt_succ_self n, here⟩
      · exact longer name (running name before)

theorem growing_cached {s : State} (dynamic : s.dynamicTypes = []) :
    s.cached (growingRequest n) =
      if (s.typeRegistry (growingRequest n).mangledName).isSome
        then some (.registered (growingRequest n).mangledName) else none := by
  unfold State.cached
  rw [dynamic]
  rfl

theorem growing_fresh : Begins growing (growingRequest n) (growingTables n)
    (structTemplate ["T"] growingFields) := by
  rcases growingTables_names n with ⟨dynamic, registry, running⟩
  have apart : ¬ ∃ m < n, (growingRequest n).mangledName = (growingRequest m).mangledName := by
    rintro ⟨m, below, same⟩
    exact absurd (growing_name_injective same) (Nat.ne_of_gt below)
  have absent : ((growingTables n).typeRegistry (growingRequest n).mangledName).isSome = false := by
    simpa using fun there => apart (registry _ there)
  refine ⟨rfl, rfl, ?_, fun there => apart (running _ there), rfl⟩
  rw [growing_cached n dynamic, absent]
  rfl

theorem growing_found : instantiateGeneric growing 1 (growingRequest n) (growingTables (n + 1)) =
    some (some (layered (n + 1)), growingTables (n + 1)) := by
  have known : growing.templates (growingRequest n).kind (growingRequest n).base =
      some (structTemplate ["T"] growingFields) := rfl
  have entered : growingTables (n + 1) = (growingTables n).enter (growingRequest n) := rfl
  have there : ((growingTables (n + 1)).typeRegistry (growingRequest n).mangledName).isSome := by
    rw [entered, enter_type struct_not_func]
    simp [State.registerType]
  rw [instantiateGeneric, known, growing_cached n (growingTables_names (n + 1)).1, if_pos there]
  rfl

/-- `G<T>` itself is found, and the next layer is asked for. -/
theorem growing_asks : Asks growing (growingRequest n, growingTables n)
    (growingRequest (n + 1), growingTables (n + 1)) := by
  refine ⟨_, growing_fresh n, 1, .instantiate ⟨.struct, by decide⟩ "G" [(layered (n + 1), 0)], rfl,
    .required ?_⟩
  exact .later (growing_found n) .here

theorem growing_reaches : Relation.ReflTransGen (Asks growing) (growingRequest 0, noTables)
    (growingRequest n, growingTables n) := by
  induction n with
  | zero => exact .refl
  | succ n ih => exact ih.tail (growing_asks n)

/-- However much fuel there is, `G<int32>` uses it up. -/
theorem growing_never_ends :
    ¬ ∃ fuel out after,
      instantiateGeneric growing fuel (growingRequest 0) noTables = some (out, after) := by
  rintro ⟨fuel, out, after, ran⟩
  have finite := calls_finite (Option.isSome_iff_exists.2 ⟨_, ran⟩)
  refine Set.infinite_of_injective_forall_mem (f := fun n => (growingRequest n, growingTables n))
    ?_ growing_reaches finite
  intro n m same
  exact growing_name_injective (congrArg (fun c => c.1.mangledName) same)

/-- With a field of two type parameters given one before it, `G<int32>` ends there. -/
def stopping : Program := structs fun name =>
  if name = "G" then some (["T"], .generic "H" [.base "T"] :: growingFields)
  else if name = "H" then some (["A", "B"], [.base "A", .base "B"])
  else none

example : {c | Relation.ReflTransGen (Asks stopping) (growingRequest 0, noTables) c}.Finite :=
  @calls_finite stopping (growingRequest 0) noTables 2 rfl

def node : Program := structs fun name => if name = "Node" then some (["T"], nodeFields) else none

theorem node_required : ∃ next, node.required (structTemplate ["T"] nodeFields) nodeOfInt =
      .act (.instantiate ⟨.struct, nofun⟩ "Node" [(.registry "int32", 0)]) next ∧
    next none = .pure none ∧ ∀ type, next (some type) = .act (.dynamicType (.pointer type)) fun _ =>
        .pure (some [(.registry "int32", 0), (.pointer type, 0)]) :=
  ⟨_, rfl, rfl, fun _ => rfl⟩

theorem node_asks {r : Request} (asks : MayAsk node nodeOfInt r) : r = nodeOfInt := by
  rcases asks with ⟨t, known, action, asked, performed⟩
  cases known
  rcases performed with required | used
  · rcases node_required with ⟨next, program, failed, made⟩
    change Performs answers (node.required (structTemplate ["T"] nodeFields) nodeOfInt) action at required
    rw [program] at required
    cases required with
    | here =>
      cases asked
      rfl
    | @later _ _ answer _ _ rest =>
      cases answer with
      | none =>
        rw [failed] at rest
        cases rest
      | some type =>
        rw [made] at rest
        cases rest with
        | here => cases asked
        | later _ last => cases last
  · cases used

theorem node_reached {r : Request}
    (reached : Relation.ReflTransGen (MayAsk node) nodeOfInt r) : r = nodeOfInt := by
  induction reached with
  | refl => rfl
  | tail _ asks ih =>
    rw [ih] at asks
    exact node_asks asks

theorem node_finite : FinitelyMany node nodeOfInt := by
  apply (Set.finite_singleton (key nodeOfInt)).subset
  rintro k ⟨r, reached, rfl⟩
  rw [node_reached reached]
  rfl

/-- The list node has finitely many names, and comes back. -/
theorem instantiation_ends_node : (namesAsked node nodeOfInt noTables).Finite ∧
    ∃ fuel out after, instantiateGeneric node fuel nodeOfInt noTables = some (out, after) :=
  have finite := (instantiation_ends node nodeOfInt noTables).2 node_finite
  ⟨finite, (instantiation_ends node nodeOfInt noTables).1.2 finite⟩

end Examples

end Lucis.GenericTermination
