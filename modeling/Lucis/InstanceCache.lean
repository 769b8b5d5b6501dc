import Mathlib.Data.Set.Basic
import Lucis.Generics

/-!
Whose instance an instantiator returns. A run of the checker is told by what it does to
the tables: declarations and new dynamic types, the calls of the instantiators, and what
the innermost open call does next. Anything may happen inside a call.
-/

namespace Lucis.InstanceCache

open TypeSpec (Name Ref)
open Generics List

inductive Event where
  | dynamicType (type : Ref)
  | typeDeclared (name : Name)
  | functionDeclared (name : Name) (ret : Ref)
  | requested (r : Request)
  | registered (ret : Ref)
  | duplicateField
  | finished

/-- `calls` are the open calls, the innermost first, each with whether it has registered
its instance; `returned` is every pointer that an instantiator has given out. -/
structure Run where
  tables : State
  calls : List (Request × Bool)
  returned : List (Request × Slot)

def Run.initial : Run := ⟨⟨[], fun _ => none, fun _ => none, []⟩, [], []⟩

def home (r : Request) : Slot :=
  match r.kind with
  | .func => .function r.mangledName
  | _ => .registered r.mangledName

section Runs

-- `fits`: the number of arguments is right; `satisfied`: their constraints hold

variable (fits satisfied : Request → Bool)

def Run.request (run : Run) (r : Request) : Run :=
  if !fits r then run
  else
    match run.tables.cached r with
    | some slot => { run with returned := run.returned ++ [(r, slot)] }
    | none =>
      if r.mangledName ∈ run.tables.instantiatingGenerics then
        { run with returned := run.returned ++ ((run.tables.running r).toList.map ((r, ·))) }
      else if !satisfied r then run
      else { run with tables := run.tables.enter r, calls := (r, false) :: run.calls }

def Run.step (run : Run) : Event → Run
  | .dynamicType type => { run with tables := run.tables.dynamicType type }
  | .typeDeclared name => { run with tables := run.tables.registerType name .declaration }
  | .functionDeclared name ret =>
    { run with tables := run.tables.registerFunction name .declaration ret }
  | .requested r => run.request fits satisfied r
  | .registered ret =>
    match run.calls with
    | [] => run
    | (r, _) :: rest => { run with tables := run.tables.register r ret, calls := (r, true) :: rest }
  | .duplicateField =>
    match run.calls with
    | [] => run
    | (r, _) :: _ => { run with tables := run.tables.leave r }
  | .finished =>
    match run.calls with
    | [] => run
    | (r, done) :: rest =>
      { tables := run.tables.leave r
        calls := rest
        returned := if done then run.returned ++ [(r, home r)] else run.returned }

def Run.after (run : Run) (events : List Event) : Run :=
  events.foldl (Run.step fits satisfied) run

end Runs

/-- Every pointer given out leads to the instance it was asked for, and no two different
requests were given one pointer. -/
structure Sound (run : Run) : Prop where
  own : ∀ answer ∈ run.returned, run.tables.origin answer.2 = some (.template answer.1)
  injective : ∀ answer ∈ run.returned, ∀ answer' ∈ run.returned,
    answer.2 = answer'.2 → answer.1 = answer'.1

/-- What a program declares and what it asks for: the names of its types, dynamic and
builtin ones included, the names of its functions, and its requests. -/
structure Vocabulary where
  types : Set Name
  functions : Set Name
  requests : Set Request
  builtin : "int32" ∈ types

def Vocabulary.Declares (V : Vocabulary) : Slot → Prop
  | .dynamicType type => type.name ∈ V.types
  | .registered name => name ∈ V.types
  | .function name => name ∈ V.functions

def Event.Of (V : Vocabulary) : Event → Prop
  | .dynamicType type => type.name ∈ V.types
  | .typeDeclared name => name ∈ V.types
  | .functionDeclared name _ => name ∈ V.functions
  | .requested r => r ∈ V.requests
  | _ => True

/-- The mangled names keep apart what the vocabulary keeps apart. A function's signature is
resolved while its own name is in progress and not yet registered, so a struct of that
name is in its way too. -/
structure Vocabulary.Apart (V : Vocabulary) (fits satisfied : Request → Bool) : Prop where
  declared : ∀ r ∈ V.requests, fits r = true → ¬ V.Declares (home r)
  instances : ∀ r ∈ V.requests, ∀ r' ∈ V.requests, fits r = true → satisfied r = true →
    fits r' = true → home r = home r' → r = r'
  signatures : ∀ f ∈ V.requests, ∀ r ∈ V.requests, fits f = true → satisfied f = true →
    fits r = true → f.kind = .func → r.kind = .struct → f.mangledName ≠ r.mangledName

section Tables
variable {r : Request}

theorem home_func (func : r.kind = .func) : home r = .function r.mangledName := by
  simp [home, func]

theorem home_type (type : r.kind ≠ .func) : home r = .registered r.mangledName := by
  unfold home
  split
  · next func => exact absurd func type
  · rfl

variable {s : State} {slot : Slot}

variable {origin : Origin} {name : Name}

theorem origin_registerType_ne (distinct : slot ≠ .registered name) :
    (s.registerType name origin).origin slot = s.origin slot := by
  cases slot with
  | dynamicType type => rfl
  | function other => rfl
  | registered other =>
    have apart : other ≠ name := by
      rintro rfl
      exact distinct rfl
    exact update_ne apart

theorem origin_registerFunction_ne {ret : Ref} (distinct : slot ≠ .function name) :
    (s.registerFunction name origin ret).origin slot = s.origin slot := by
  cases slot with
  | dynamicType type => rfl
  | registered other => rfl
  | function other =>
    have apart : other ≠ name := by
      rintro rfl
      exact distinct rfl
    exact congrArg (Option.map Prod.fst) (update_ne apart)

@[simp] theorem origin_registerType_self (s : State) (name : Name) (origin : Origin) :
    (s.registerType name origin).origin (.registered name) = some origin :=
  update_self ..

@[simp] theorem origin_registerFunction_self (s : State) (name : Name) (origin : Origin)
    (ret : Ref) : (s.registerFunction name origin ret).origin (.function name) = some origin := by
  simp [State.origin, State.registerFunction]

theorem origin_register (s : State) (r : Request) (ret : Ref) :
    (s.register r ret).origin (home r) = some (.template r) ∧
      ∀ slot, slot ≠ home r → (s.register r ret).origin slot = s.origin slot := by
  by_cases func : r.kind = .func
  · rw [register_func func, home_func func]
    exact ⟨origin_registerFunction_self .., fun _ => origin_registerFunction_ne⟩
  · rw [register_type func, home_type func]
    exact ⟨origin_registerType_self .., fun _ => origin_registerType_ne⟩

theorem origin_enter_func (func : r.kind = .func) (slot : Slot) :
    (s.enter r).origin slot = s.origin slot := by
  rw [enter_func func]
  cases slot <;> rfl

theorem origin_enter_type (type : r.kind ≠ .func) :
    (s.enter r).origin (home r) = some (.template r) ∧
      ∀ slot, slot ≠ home r → (s.enter r).origin slot = s.origin slot := by
  rw [enter_type type, home_type type]
  exact ⟨origin_registerType_self .., fun _ => origin_registerType_ne⟩

theorem leave_origin (s : State) (r : Request) (slot : Slot) :
    (s.leave r).origin slot = s.origin slot := by
  cases slot <;> rfl

theorem cached_some (found : s.cached r = some slot) :
    (∃ type ∈ s.dynamicTypes, type.name = r.mangledName ∧ slot = .dynamicType type ∧
      r.kind ≠ .func) ∨ (slot = home r ∧ (s.origin (home r)).isSome) := by
  by_cases func : r.kind = .func
  · right
    simp only [State.cached, func] at found
    split at found
    · next present =>
      cases found
      rw [home_func func]
      exact ⟨rfl, by simpa [State.origin] using present⟩
    · cases found
  · rw [home_type func]
    unfold State.cached at found
    split at found
    · next is_func => exact absurd is_func func
    · split at found
      · next type first =>
        cases found
        have named := find?_some first
        exact .inl ⟨type, mem_of_find?_eq_some first, by simpa using named, rfl, func⟩
      · split at found
        · next present =>
          cases found
          exact .inr ⟨rfl, present⟩
        · cases found

theorem cached_none (missing : s.cached r = none) : s.origin (home r) = none := by
  by_cases func : r.kind = .func
  · simp only [State.cached, func] at missing
    split at missing
    · cases missing
    · next absent => simpa [home_func func, State.origin] using absent
  · rw [home_type func]
    unfold State.cached at missing
    split at missing
    · next is_func => exact absurd is_func func
    · split at missing
      · cases missing
      · split at missing
        · cases missing
        · next absent => simpa [State.origin] using absent

theorem cached_home (plain : s.dynamicTypes = [])
    (present : (s.origin (home r)).isSome) : s.cached r = some (home r) := by
  by_cases func : r.kind = .func
  · rw [home_func func] at present ⊢
    simp only [State.cached, func]
    exact if_pos (by simpa [State.origin] using present)
  · rw [home_type func] at present ⊢
    unfold State.cached
    split
    · next is_func => exact absurd is_func func
    · rw [plain]
      exact if_pos present

end Tables

section Soundness

variable {V : Vocabulary} {fits satisfied : Request → Bool}

def Admitted (V : Vocabulary) (fits satisfied : Request → Bool) (r : Request) : Prop :=
  r ∈ V.requests ∧ fits r = true ∧ satisfied r = true

abbrev Standing (s : State) (r : Request) : Prop := s.origin (home r) = some (.template r)

structure Kept (V : Vocabulary) (fits satisfied : Request → Bool) (run : Run) : Prop where
  dynamic : ∀ type ∈ run.tables.dynamicTypes, type.name ∈ V.types
  declared : ∀ r, run.tables.origin (home r) = some .declaration → V.Declares (home r)
  instances : ∀ r r', run.tables.origin (home r) = some (.template r') →
    Admitted V fits satisfied r' ∧ home r' = home r
  running : ∀ name ∈ run.tables.instantiatingGenerics, ∃ r, Admitted V fits satisfied r ∧
    r.mangledName = name ∧ (r.kind ≠ .func → Standing run.tables r)
  calls : ∀ call ∈ run.calls, Admitted V fits satisfied call.1 ∧
    (call.2 = true ∨ call.1.kind ≠ .func → Standing run.tables call.1)
  returned : ∀ answer ∈ run.returned, answer.1 ∈ V.requests ∧ fits answer.1 = true ∧
    answer.2 = home answer.1 ∧ Standing run.tables answer.1

variable {run : Run}

variable (kept : Kept V fits satisfied run)
include kept

theorem Kept.sound : Sound run where
  own := by
    intro answer given
    rcases kept.returned answer given with ⟨-, -, place, standing⟩
    rw [place]
    exact standing
  injective := by
    intro answer given answer' given' same
    rcases kept.returned answer given with ⟨-, -, place, standing⟩
    rcases kept.returned answer' given' with ⟨-, -, place', standing'⟩
    rw [place, place'] at same
    rw [Standing, same, standing'] at standing
    exact (Origin.template.inj (Option.some.inj standing)).symm

omit kept in
theorem kept_initial : Kept V fits satisfied .initial where
  dynamic := by simp [Run.initial]
  declared := by
    intro r absurdly
    unfold home at absurdly
    split at absurdly <;> simp [Run.initial, State.origin] at absurdly
  instances := by
    intro r r' absurdly
    unfold home at absurdly
    split at absurdly <;> simp [Run.initial, State.origin] at absurdly
  running := by simp [Run.initial]
  calls := by simp [Run.initial]
  returned := by simp [Run.initial]

inductive Change (V : Vocabulary) (fits satisfied : Request → Bool) (s s' : State) : Prop where
  | none (same : ∀ slot, s'.origin slot = s.origin slot)
  | declaration (slot : Slot) (written : s'.origin slot = some .declaration)
      (frame : ∀ other, other ≠ slot → s'.origin other = s.origin other) (known : V.Declares slot)
  | instantiated (r : Request) (admitted : Admitted V fits satisfied r)
      (written : s'.origin (home r) = some (.template r))
      (frame : ∀ other, other ≠ home r → s'.origin other = s.origin other)

variable {r : Request} {s s' : State}

omit kept in
theorem Change.standing (apart : V.Apart fits satisfied)
    (change : Change V fits satisfied s s') (asked : r ∈ V.requests)
    (fit : fits r = true) (standing : Standing s r) : Standing s' r := by
  cases change with
  | none same => exact (same _).trans standing
  | declaration slot written frame known =>
    apply (frame (home r) _).trans standing
    rintro rfl
    exact apart.declared r asked fit known
  | instantiated r' admitted written frame =>
    by_cases same : home r' = home r
    · have equal := apart.instances r' admitted.1 r asked admitted.2.1 admitted.2.2 fit same
      rw [← equal]
      exact written
    · exact (frame (home r) (Ne.symm same)).trans standing

omit kept in
theorem Change.declared (change : Change V fits satisfied s s')
    (before : ∀ r, s.origin (home r) = some .declaration → V.Declares (home r)) (r : Request)
    (now : s'.origin (home r) = some .declaration) : V.Declares (home r) := by
  cases change with
  | none same => exact before r ((same _).symm.trans now)
  | declaration slot written frame known =>
    by_cases here : home r = slot
    · rw [here]
      exact known
    · exact before r ((frame _ here).symm.trans now)
  | instantiated r' admitted written frame =>
    by_cases here : home r = home r'
    · rw [here, written] at now
      cases now
    · exact before r ((frame _ here).symm.trans now)

omit kept in
theorem Change.instances (change : Change V fits satisfied s s')
    (before : ∀ r r', s.origin (home r) = some (.template r') →
      Admitted V fits satisfied r' ∧ home r' = home r) (r r' : Request)
    (now : s'.origin (home r) = some (.template r')) :
    Admitted V fits satisfied r' ∧ home r' = home r := by
  cases change with
  | none same => exact before r r' ((same _).symm.trans now)
  | declaration slot written frame known =>
    by_cases here : home r = slot
    · rw [here, written] at now
      cases now
    · exact before r r' ((frame _ here).symm.trans now)
  | instantiated r'' admitted written frame =>
    by_cases here : home r = home r''
    · rw [here, written] at now
      cases now
      exact ⟨admitted, here.symm⟩
    · exact before r r' ((frame _ here).symm.trans now)

theorem Kept.changed (apart : V.Apart fits satisfied) (change : Change V fits satisfied run.tables s)
    (dynamic : ∀ type ∈ s.dynamicTypes, type.name ∈ V.types)
    (running : ∀ name ∈ s.instantiatingGenerics, name ∈ run.tables.instantiatingGenerics ∨
      ∃ r, Admitted V fits satisfied r ∧ r.mangledName = name ∧ (r.kind ≠ .func → Standing s r)) :
    Kept V fits satisfied { run with tables := s } where
  dynamic := dynamic
  declared := change.declared kept.declared
  instances := change.instances kept.instances
  running := by
    intro name open_name
    rcases running name open_name with before | new
    · rcases kept.running name before with ⟨r, admitted, named, standing⟩
      refine ⟨r, admitted, named, ?_⟩
      intro type
      exact change.standing apart admitted.1 admitted.2.1 (standing type)
    · exact new
  calls := by
    intro call open_call
    rcases kept.calls call open_call with ⟨admitted, standing⟩
    refine ⟨admitted, ?_⟩
    intro there
    exact change.standing apart admitted.1 admitted.2.1 (standing there)
  returned := by
    intro answer given
    rcases kept.returned answer given with ⟨asked, fit, place, standing⟩
    exact ⟨asked, fit, place, change.standing apart asked fit standing⟩

theorem Kept.give
    (asked : r ∈ V.requests) (fit : fits r = true) (standing : Standing run.tables r) :
    Kept V fits satisfied { run with returned := run.returned ++ [(r, home r)] } where
  dynamic := kept.dynamic
  declared := kept.declared
  instances := kept.instances
  running := kept.running
  calls := kept.calls
  returned := by
    intro answer given
    rcases mem_append.1 given with before | new
    · exact kept.returned answer before
    · rw [mem_singleton] at new
      subst new
      exact ⟨asked, fit, rfl, standing⟩

variable (apart : V.Apart fits satisfied)
include apart

theorem Kept.finds (asked : r ∈ V.requests)
    (fit : fits r = true) {slot : Slot} (found : run.tables.cached r = some slot) :
    slot = home r ∧ Standing run.tables r := by
  rcases cached_some found with ⟨type, there, named, -, type_request⟩ | ⟨place, present⟩
  · have declared : V.Declares (home r) := by
      rw [home_type type_request, ← named]
      exact kept.dynamic type there
    exact absurd declared (apart.declared r asked fit)
  · refine ⟨place, ?_⟩
    rcases Option.isSome_iff_exists.1 present with ⟨origin, entry⟩
    cases origin with
    | declaration => exact absurd (kept.declared r entry) (apart.declared r asked fit)
    | template r' =>
      rcases kept.instances r r' entry with ⟨admitted, same⟩
      have equal := apart.instances r' admitted.1 r asked admitted.2.1 admitted.2.2 fit same
      rw [Standing, entry, equal]

theorem Kept.not_running (asked : r ∈ V.requests)
    (fit : fits r = true) (missing : run.tables.cached r = none)
    (running : r.mangledName ∈ run.tables.instantiatingGenerics) : run.tables.running r = none := by
  by_cases struct : r.kind = .struct
  · rcases kept.running r.mangledName running with ⟨r', admitted, named, standing⟩
    by_cases func : r'.kind = .func
    · exact absurd named
        (apart.signatures r' admitted.1 r asked admitted.2.1 admitted.2.2 fit func struct)
    · have same : home r' = home r := by
        rw [home_type func, home_type (by simp [struct]), named]
      have there := standing func
      rw [Standing, same, cached_none missing] at there
      cases there
  · unfold State.running
    split
    · next is_struct => exact absurd is_struct struct
    · rfl

theorem Kept.enter (admitted : Admitted V fits satisfied r) :
    Kept V fits satisfied
      { run with tables := run.tables.enter r, calls := (r, false) :: run.calls } := by
  have standing : r.kind ≠ .func → Standing (run.tables.enter r) r :=
    fun type => (origin_enter_type type).1
  have change : Change V fits satisfied run.tables (run.tables.enter r) := by
    by_cases func : r.kind = .func
    · exact .none (origin_enter_func func)
    · exact .instantiated r admitted (origin_enter_type func).1 (origin_enter_type func).2
  have entered : Kept V fits satisfied { run with tables := run.tables.enter r } := by
    apply kept.changed apart change
    · rw [enter_dynamicTypes]
      exact kept.dynamic
    · intro name running
      rw [enter_running] at running
      rcases mem_cons.1 running with rfl | before
      · exact .inr ⟨r, admitted, rfl, standing⟩
      · exact .inl before
  refine { entered with calls := ?_ }
  intro call there
  rcases mem_cons.1 there with rfl | before
  · refine ⟨admitted, ?_⟩
    rintro (done | type)
    · cases done
    · exact standing type
  · exact entered.calls call before

theorem Kept.request (asked : r ∈ V.requests) :
    Kept V fits satisfied (run.request fits satisfied r) := by
  unfold Run.request
  split
  · exact kept
  · next fit =>
    have fit : fits r = true := by simpa using fit
    split
    · next slot found =>
      rcases kept.finds apart asked fit found with ⟨place, standing⟩
      rw [place]
      exact kept.give asked fit standing
    · next missing =>
      split
      · next running =>
        rw [kept.not_running apart asked fit missing running]
        simpa using kept
      · split
        · exact kept
        · next sat =>
          have admitted : Admitted V fits satisfied r := ⟨asked, fit, by simpa using sat⟩
          exact kept.enter apart admitted

theorem Kept.leave (r : Request) :
    Kept V fits satisfied { run with tables := run.tables.leave r } := by
  apply kept.changed apart (.none (leave_origin run.tables r))
  · exact kept.dynamic
  · intro name running
    exact .inl (mem_of_mem_filter running)

theorem Kept.step {event : Event} (listed : event.Of V) :
    Kept V fits satisfied (run.step fits satisfied event) := by
  cases event with
  | dynamicType type =>
    apply kept.changed apart (.none _)
    · intro other there
      rcases mem_append.1 there with before | new
      · exact kept.dynamic other before
      · rw [mem_singleton.1 new]
        exact listed
    · exact fun _ running => .inl running
    · intro slot
      cases slot <;> rfl
  | typeDeclared name =>
    apply kept.changed apart (.declaration (.registered name)
      (origin_registerType_self ..) (fun _ => origin_registerType_ne) listed)
    · exact kept.dynamic
    · exact fun _ running => .inl running
  | functionDeclared name ret =>
    apply kept.changed apart (.declaration (.function name)
      (origin_registerFunction_self ..) (fun _ => origin_registerFunction_ne) listed)
    · exact kept.dynamic
    · exact fun _ running => .inl running
  | requested r => exact kept.request apart listed
  | registered ret =>
    rcases opened : run.calls with - | ⟨⟨r, done⟩, rest⟩
    · simpa [Run.step, opened] using kept
    · simp only [Run.step, opened]
      have admitted := (kept.calls (r, done) (by simp [opened])).1
      have standing := origin_register run.tables r ret
      have registered : Kept V fits satisfied
          { run with tables := run.tables.register r ret } := by
        apply kept.changed apart (.instantiated r admitted standing.1 standing.2)
        · rw [register_dynamicTypes]
          exact kept.dynamic
        · rw [register_running]
          exact fun _ running => .inl running
      refine { registered with calls := ?_ }
      intro call there
      rcases mem_cons.1 there with rfl | before
      · exact ⟨admitted, fun _ => standing.1⟩
      · exact registered.calls call (by simp [opened, before])
  | duplicateField =>
    rcases opened : run.calls with - | ⟨⟨r, done⟩, rest⟩
    · simpa [Run.step, opened] using kept
    · have left := kept.leave apart r
      simpa [Run.step, opened] using left
  | finished =>
    rcases opened : run.calls with - | ⟨⟨r, done⟩, rest⟩
    · simpa [Run.step, opened] using kept
    · have left := kept.leave apart r
      rcases left.calls (r, done) (by simp [opened]) with ⟨admitted, standing⟩
      have closed : Kept V fits satisfied
          { run with tables := run.tables.leave r, calls := rest } :=
        { left with calls := fun call there => left.calls call (by simp [opened, there]) }
      cases done with
      | false => simpa [Run.step, opened] using closed
      | true =>
        have given := closed.give admitted.1 admitted.2.1 (standing (.inl rfl))
        simpa [Run.step, opened] using given

theorem Kept.after (events : List Event) (listed : ∀ event ∈ events, event.Of V) :
    Kept V fits satisfied (run.after fits satisfied events) := by
  induction events generalizing run with
  | nil => exact kept
  | cons event events ih =>
    exact ih (kept.step apart (listed event (.head _)))
      (fun later there => listed later (mem_cons_of_mem event there))

omit kept

omit apart

theorem request_found (fit : fits r = true)
    (plain : run.tables.dynamicTypes = []) (present : (run.tables.origin (home r)).isSome) :
    run.request fits satisfied r = { run with returned := run.returned ++ [(r, home r)] } := by
  simp [Run.request, fit, cached_home plain present]

theorem request_fresh (fit : fits r = true) (sat : satisfied r = true)
    (missing : run.tables.cached r = none)
    (idle : r.mangledName ∉ run.tables.instantiatingGenerics) : run.request fits satisfied r =
      { run with tables := run.tables.enter r, calls := (r, false) :: run.calls } := by
  simp [Run.request, fit, sat, missing, idle]

theorem initial_missing (r : Request) : Run.initial.tables.cached r = none := by
  unfold State.cached
  split <;> rfl

theorem request_int32 (fit : fits r = true) (struct : r.kind = .struct)
    (plain : run.tables.dynamicTypes = [])
    (int32 : run.tables.origin (.registered "int32") = some .declaration)
    (only : ∀ name, name ≠ "int32" → run.tables.origin (.registered name) = none)
    (running : r.mangledName ∈ run.tables.instantiatingGenerics) : run.request fits satisfied r =
      { run with returned := run.returned ++ [(r, .registered "int32")] } := by
  have place : home r = .registered r.mangledName := home_type (by simp [struct])
  by_cases named : r.mangledName = "int32"
  · rw [named] at place
    rw [request_found fit plain (by rw [place, int32]; rfl), place]
  · have absent := only r.mangledName named
    have missing : run.tables.cached r = none := by
      simp only [State.origin] at absent
      simp [State.cached, struct, plain, absent]
    simp only [State.origin] at int32
    simp [Run.request, fit, missing, running, State.running, struct, int32]

theorem declared_unsound (asked : r ∈ V.requests) (fit : fits r = true)
    (taken : V.Declares (home r)) : ∃ events, (∀ event ∈ events, event.Of V) ∧
      ¬ Sound (Run.initial.after fits satisfied events) := by
  by_cases func : r.kind = .func
  · rw [home_func func] at taken
    refine ⟨[.functionDeclared r.mangledName (.registry "int32"), .requested r], ?_, ?_⟩
    · simpa [Event.Of] using ⟨taken, asked⟩
    · intro sound
      have there : (Run.initial.tables.registerFunction r.mangledName .declaration
          (.registry "int32")).origin (home r) = some .declaration := by
        rw [home_func func]
        exact origin_registerFunction_self ..
      have own := sound.own (r, home r)
      simp only [Run.after, foldl_cons, foldl_nil, Run.step] at own
      rw [request_found fit rfl (by rw [there]; rfl)] at own
      have origin := own (by simp)
      rw [there] at origin
      cases origin
  · rw [home_type func] at taken
    refine ⟨[.typeDeclared r.mangledName, .requested r], ?_, ?_⟩
    · simpa [Event.Of] using ⟨taken, asked⟩
    · intro sound
      have there : (Run.initial.tables.registerType r.mangledName .declaration).origin
          (home r) = some .declaration := by
        rw [home_type func]
        exact origin_registerType_self ..
      have own := sound.own (r, home r)
      simp only [Run.after, foldl_cons, foldl_nil, Run.step] at own
      rw [request_found fit rfl (by rw [there]; rfl)] at own
      have origin := own (by simp)
      rw [there] at origin
      cases origin

theorem shared_unsound {r' : Request} (fit : fits r = true) (sat : satisfied r = true)
    (fit' : fits r' = true) (same : home r = home r') (distinct : r ≠ r') :
    ¬ Sound (Run.initial.after fits satisfied
      [.requested r, .registered (.registry "int32"), .requested r']) := by
  intro sound
  have there := (origin_register (Run.initial.tables.enter r) r (.registry "int32")).1
  have own := sound.own (r', home r')
  simp only [Run.after, foldl_cons, foldl_nil, Run.step] at own
  rw [request_fresh fit sat (initial_missing r) (by simp [Run.initial])] at own
  rw [request_found fit' ?_ (by rw [← same, there]; rfl)] at own
  · have origin := own (by simp)
    rw [← same, there] at origin
    exact distinct (Origin.template.inj (Option.some.inj origin))
  · rw [register_dynamicTypes, enter_dynamicTypes]
    rfl

/-- A function whose signature names the struct of its own name gets `int32`. -/
theorem signature_unsound {f : Request} (asked : f ∈ V.requests) (asked' : r ∈ V.requests)
    (fit : fits f = true) (sat : satisfied f = true) (fit' : fits r = true)
    (func : f.kind = .func) (struct : r.kind = .struct) (same : f.mangledName = r.mangledName) :
    ∃ events, (∀ event ∈ events, event.Of V) ∧
      ¬ Sound (Run.initial.after fits satisfied events) := by
  refine ⟨[.typeDeclared "int32", .requested f, .requested r], ?_, ?_⟩
  · simpa [Event.Of] using ⟨V.builtin, asked, asked'⟩
  · intro sound
    have missing : (Run.initial.tables.registerType "int32" .declaration).cached f = none := by
      simp [State.cached, func, State.registerType, Run.initial]
    have own := sound.own (r, .registered "int32")
    simp only [Run.after, foldl_cons, foldl_nil, Run.step] at own
    rw [request_fresh fit sat missing (by simp [Run.initial, State.registerType])] at own
    have there : ((Run.initial.tables.registerType "int32" .declaration).enter f).origin
        (.registered "int32") = some .declaration := by
      rw [origin_enter_func func]
      exact origin_registerType_self ..
    have plain : ((Run.initial.tables.registerType "int32" .declaration).enter f).dynamicTypes =
        [] := by
      rw [enter_dynamicTypes]
      rfl
    have only : ∀ name, name ≠ "int32" →
        ((Run.initial.tables.registerType "int32" .declaration).enter f).origin
          (.registered name) = none := by
      intro name other
      rw [origin_enter_func func, origin_registerType_ne (by simpa using other)]
      rfl
    have running : r.mangledName ∈
        ((Run.initial.tables.registerType "int32" .declaration).enter f).instantiatingGenerics := by
      rw [enter_running, same]
      exact .head _
    rw [request_int32 fit' struct plain there only running] at own
    have origin := own (by simp)
    rw [there] at origin
    cases origin

theorem sound_iff_apart (V : Vocabulary) (fits satisfied : Request → Bool) :
    (∀ events, (∀ event ∈ events, event.Of V) →
        Sound (Run.initial.after fits satisfied events)) ↔
      V.Apart fits satisfied := by
  constructor
  · intro sound
    refine ⟨?_, ?_, ?_⟩
    · intro r asked fit taken
      rcases declared_unsound asked fit taken with ⟨events, listed, unsound⟩
      exact unsound (sound events listed)
    · intro r asked r' asked' fit sat fit' same
      by_contra distinct
      apply shared_unsound fit sat fit' same distinct
      apply sound
      simpa [Event.Of] using ⟨asked, asked'⟩
    · intro f asked r asked' fit sat fit' func struct same
      rcases signature_unsound asked asked' fit sat fit' func struct same with
        ⟨events, listed, unsound⟩
      exact unsound (sound events listed)
  · intro apart events listed
    exact (kept_initial.after apart events listed).sound

end Soundness

section Example

/-! `struct Box<T>`: two arrays of `int32` and one `int32` make the same box. -/

def boxFits (r : Request) : Bool := r.args.length == 1

def boxOf (dims : Nat) : Request := ⟨.struct, "Box", [(.registry "int32", dims)]⟩

/-- `Box<[3]int32>` is made first, and then returned for `Box<int32>`. -/
theorem box_instance_shared :
    ¬ Sound (Run.initial.after boxFits (fun _ => true)
      [.requested (boxOf 1), .registered (.registry "int32"), .requested (boxOf 0)]) := by
  have same : home (boxOf 1) = home (boxOf 0) := rfl
  apply shared_unsound rfl rfl rfl same
  simp [boxOf]

end Example

section Simulation

/-! The recursive instantiators do nothing but such steps. -/

variable (p : Program)

def fits (r : Request) : Bool :=
  match p.templates r.kind r.base with
  | some t => r.args.length == t.typeParams.length
  | none => false

def satisfied (r : Request) : Bool :=
  match p.templates r.kind r.base with
  | some t => t.satisfied r.typeArgs
  | none => false

def Simulates (p : Program) (s s' : State) : Prop :=
  ∀ calls returned, ∃ events more,
    Run.after (fits p) (satisfied p) ⟨s, calls, returned⟩ events = ⟨s', calls, returned ++ more⟩

variable {p}

theorem Simulates.refl (s : State) : Simulates p s s :=
  fun calls returned => ⟨[], [], by simp [Run.after]⟩

theorem Simulates.trans {s t u : State} (first : Simulates p s t) (second : Simulates p t u) :
    Simulates p s u := by
  intro calls returned
  rcases first calls returned with ⟨events, more, reached⟩
  rcases second calls (returned ++ more) with ⟨events', more', reached'⟩
  refine ⟨events ++ events', more ++ more', ?_⟩
  rw [Run.after, foldl_append]
  rw [Run.after] at reached reached'
  rw [reached, reached', append_assoc]

theorem Simulates.event {s s' : State} (event : Event)
    (stepped : ∀ calls returned, Run.step (fits p) (satisfied p) ⟨s, calls, returned⟩ event =
      ⟨s', calls, returned⟩) : Simulates p s s' :=
  fun calls returned => ⟨[event], [], by simpa [Run.after] using stepped calls returned⟩

variable {out : Option Ref} {r : Request}

theorem build_simulated {step}
    (each : ∀ action s answer s', step action s = some (answer, s') → Simulates p s s')
    {t : Template} {s s' : State}
    (built : p.build step t r s = some (out, s')) (calls : List (Request × Bool))
    (returned : List (Request × Slot)) :
    ∃ events more, Run.after (fits p) (satisfied p) ⟨s.enter r, (r, false) :: calls, returned⟩
        events = ⟨s', calls, returned ++ more⟩ ∧ (out.isSome → ∃ slot, (r, slot) ∈ more) := by
  rcases build_cases built with ⟨types, middle, resolved, ended⟩
  rcases Programs.run_follows .refl (fun _ _ _ => .trans) each _ resolved ((r, false) :: calls)
    returned with ⟨events, more, reached⟩
  rcases ended with ⟨-, rfl, rfl⟩ | ⟨type, last, -, used, rfl, rfl⟩
  · refine ⟨events ++ [.finished], more, ?_, by simp⟩
    rw [Run.after, foldl_append]
    rw [Run.after] at reached
    rw [reached]
    rfl
  · have later : Simulates p (registered t r type middle) last :=
      Programs.run_follows .refl (fun _ _ _ => .trans) each _ used
    rcases later ((r, true) :: calls) (returned ++ more) with ⟨events', more', reached'⟩
    have marks : ∃ marks, Run.after (fits p) (satisfied p)
        ⟨middle, (r, false) :: calls, returned ++ more⟩ marks =
          ⟨registered t r type middle, (r, true) :: calls, returned ++ more⟩ := by
      unfold registered
      split
      · exact ⟨[.registered type, .duplicateField], rfl⟩
      · exact ⟨[.registered type], rfl⟩
    rcases marks with ⟨marks, marked⟩
    refine ⟨events ++ marks ++ events' ++ [.finished], more ++ more' ++ [(r, home r)], ?_, ?_⟩
    · rw [Run.after] at reached reached' marked ⊢
      rw [foldl_append, foldl_append, foldl_append, reached, marked, reached']
      simp [Run.step]
    · exact fun _ => ⟨home r, by simp⟩

theorem instantiate_simulated (fuel : Nat) {s s' : State}
    (ran : instantiateGeneric p fuel r s = some (out, s')) (calls : List (Request × Bool))
    (returned : List (Request × Slot)) :
    ∃ events more, Run.after (fits p) (satisfied p) ⟨s, calls, returned⟩ events =
        ⟨s', calls, returned ++ more⟩ ∧ (out.isSome → ∃ slot, (r, slot) ∈ more) := by
  induction fuel generalizing r s s' out calls returned with
  | zero => cases ran
  | succ fuel ih =>
    have each : ∀ action s answer s',
        act (instantiateGeneric p fuel) action s = some (answer, s') → Simulates p s s' := by
      intro action s answer s' stepped
      cases action with
      | instantiate kind base args =>
        intro calls returned
        rcases ih stepped calls returned with ⟨events, more, reached, -⟩
        exact ⟨events, more, reached⟩
      | call base args =>
        intro calls returned
        rcases Option.map_eq_some_iff.1 stepped with ⟨result, ran, same⟩
        cases same
        rcases ih ran calls returned with ⟨events, more, reached, -⟩
        exact ⟨events, more, reached⟩
      | dynamicType type =>
        cases stepped
        exact .event (.dynamicType type) fun _ _ => rfl
    cases instantiate_outcome ran with
    | unknown missing => exact ⟨[], [], by simp [Run.after], by simp⟩
    | arity t known differs => exact ⟨[], [], by simp [Run.after], by simp⟩
    | refused t known same missing outside unsatisfied => exact ⟨[], [], by simp [Run.after], by simp⟩
    | cached t known same slot found =>
      refine ⟨[.requested r], [(r, slot)], ?_, fun _ => ⟨slot, by simp⟩⟩
      simp [Run.after, Run.step, Run.request, fits, known, same, found]
    | running t known same missing inside =>
      refine ⟨[.requested r], (s.running r).toList.map ((r, ·)), ?_, ?_⟩
      · simp [Run.after, Run.step, Run.request, fits, known, same, missing, inside]
      · intro given
        cases result : s.running r with
        | none => simp [result] at given
        | some slot => exact ⟨slot, by simp⟩
    | built t known same missing outside sat out s' made =>
      rcases build_simulated each made calls returned with ⟨events, more, reached, given⟩
      refine ⟨.requested r :: events, more, ?_, given⟩
      rw [Run.after, foldl_cons]
      rw [Run.after] at reached
      simp only [Run.step]
      rw [request_fresh _ _ missing outside]
      · exact reached
      · simp [fits, known, same]
      · simp [satisfied, known, sat]

end Simulation

end Lucis.InstanceCache
