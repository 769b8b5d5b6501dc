import Mathlib.Data.List.Count
import Mathlib.Order.WellFounded
import Lucis.Library.Descent

/-!
The structs of other files on their way into the registry: `checkStructDecl`, the types that
`resolveTypeSpec` registers when they are asked for, and the dependency walk over field types of
checkers/Checker_driver.cpp. Of a type there are the names of its fields; a declaration that is
no struct, as a union or an enum, is one without a parent. Templates, import aliases and what
is attached to a type are left out. Each function is told by what it leaves alone and by what
it registers.
-/

namespace Lucis.StructRegistration

open List

open Descent (descend each)

section Declarations

variable (Name : Type)

/-- `mentions` are the named types that its type is built from, in their order. -/
structure Field where
  name : Name
  mentions : List Name
  active : Bool

structure StructDecl where
  parent : Option Name
  fields : List (Field Name)
  inCurrentFile : Bool

/-- The symbols of all modules. `plain` are the types that need no declaration. -/
structure ModuleRegistry where
  symbols : List (Name × StructDecl Name)
  plain : Name → Bool

structure TypeInfo where
  fields : List Name
  fromDependencyWalk : Bool

/-- `registered` and `refused`, with the latest first, are the declarations that
`checkStructDecl` has registered and those it has met with "already defined". -/
structure State where
  types : Name → Option (TypeInfo Name)
  seenDeps : List Name
  registered : List Name
  refused : List Name

end Declarations

variable {Name : Type} [DecidableEq Name]

def StructDecl.mentions (d : StructDecl Name) : List Name := d.fields.flatMap Field.mentions

def ModuleRegistry.findSymbol (r : ModuleRegistry Name) (n : Name) : Option (StructDecl Name) :=
  r.symbols.lookup n

def ModuleRegistry.parent (r : ModuleRegistry Name) (n : Name) : Option Name :=
  (r.findSymbol n).bind StructDecl.parent

def ModuleRegistry.names (r : ModuleRegistry Name) : List Name := r.symbols.map Prod.fst

def State.filled (s : State Name) (n : Name) : Bool :=
  (s.types n).any fun info => !info.fields.isEmpty

def State.present (s : State Name) (n : Name) : Bool := (s.types n).isSome

def State.registerType (s : State Name) (n : Name) (info : TypeInfo Name) : State Name :=
  { s with types := Function.update s.types n (some info) }

section Checking

variable (r : ModuleRegistry Name)

def resolveNames (resolve : Name → State Name → State Name) :
    List Name → State Name → State Name × Bool
  | [], s => (s, true)
  | m :: rest, s =>
    let s := resolve m s
    if r.plain m || s.present m then resolveNames resolve rest s else (s, false)

/-- The loop over the fields, with those of the parent before; none when a type is unknown. -/
def checkFields (resolve : Name → State Name → State Name) :
    List (Field Name) → List Name → State Name → State Name × Option (List Name)
  | [], fields, s => (s, some fields)
  | field :: rest, fields, s =>
    if field.active then
      match resolveNames r resolve field.mentions s with
      | (s, true) =>
        checkFields resolve rest
          (if field.name ∈ fields then fields else fields ++ [field.name]) s
      | (s, false) => (s, none)
    else checkFields resolve rest fields s

/-- `checkStructDecl` behind the test of the entry there is: the parent, the fields, the entry. -/
def defineStruct (resolve : Name → State Name → State Name) (registeringImported : Bool)
    (n : Name) (d : StructDecl Name) (s : State Name) : State Name :=
  let inherited : State Name × Option (List Name) :=
    match d.parent with
    | none => (s, some [])
    | some p =>
      let s := resolve p s
      (s, (s.types p).map TypeInfo.fields)
  match inherited with
  | (s, none) => s
  | (s, some fields) =>
    match checkFields r resolve d.fields fields s with
    | (s, none) => s
    | (s, some fields) =>
      { s.registerType n ⟨fields, registeringImported⟩ with registered := n :: s.registered }

def checkStructWith (resolve : Name → State Name → State Name) (registeringImported : Bool)
    (n : Name) (d : StructDecl Name) (s : State Name) : State Name :=
  match s.types n with
  | some existing =>
    if existing.fields.isEmpty || existing.fromDependencyWalk then
      defineStruct r resolve registeringImported n d s
    else { s with refused := n :: s.refused }
  | none =>
    defineStruct r resolve registeringImported n d
      (s.registerType n ⟨[], registeringImported⟩)

/-- The lookup of a name, and `ensureExternalTypeRegistered` when it fails. -/
def resolveStep (resolve : Name → State Name → State Name) (n : Name) (s : State Name) :
    State Name :=
  if r.plain n || s.present n then s
  else
    match r.findSymbol n with
    | some d => if d.inCurrentFile then s else checkStructWith r resolve true n d s
    | none => s

def resolveTypeSpec : Name → State Name → State Name :=
  descend (resolveStep r) r.symbols.length

def checkStructDecl (registeringImported : Bool) (n : Name) (d : StructDecl Name)
    (s : State Name) : State Name :=
  checkStructWith r (resolveTypeSpec r) registeringImported n d s

end Checking

section Walk

variable (r : ModuleRegistry Name)

/-- The parent of a struct that the walk has come to, unless a walk has come to it itself. -/
def preResolveParent (ensure : Name → State Name → State Name) (d : StructDecl Name)
    (s : State Name) : State Name :=
  match d.parent with
  | none => s
  | some p =>
    let s := resolveTypeSpec r p s
    if s.present p && p ∉ s.seenDeps then
      match r.findSymbol p with
      | some parent => checkStructDecl r true p parent (each ensure parent.mentions s)
      | none => s
    else s

def ensureStep (ensure : Name → State Name → State Name) (n : Name) (s : State Name) :
    State Name :=
  match r.findSymbol n with
  | none => s
  | some d =>
    if d.inCurrentFile || s.filled n || n ∈ s.seenDeps then s
    else
      checkStructDecl r true n d
        (preResolveParent r ensure d
          (each ensure d.mentions { s with seenDeps := n :: s.seenDeps }))

/-- A call nests in another only when that one has put a name into `seenDeps`. -/
def ensureTypeDependencyFromSpec : Name → State Name → State Name :=
  descend (ensureStep r) r.symbols.length

end Walk

section Entries

variable {s : State Name} {n m : Name} {info : TypeInfo Name}

@[simp]
theorem registerType_present :
    (s.registerType n info).present m = (decide (m = n) || s.present m) := by
  by_cases same : m = n
  · simp [State.registerType, State.present, same]
  · simp [State.registerType, State.present, same]

@[simp]
theorem registerType_filled :
    (s.registerType n info).filled m = if m = n then !info.fields.isEmpty else s.filled m := by
  by_cases same : m = n
  · simp [State.registerType, State.filled, same]
  · simp [State.registerType, State.filled, same]

omit [DecidableEq Name] in
theorem present_of_filled (filled : s.filled n = true) : s.present n = true := by
  unfold State.filled at filled
  unfold State.present
  cases found : s.types n with
  | none => simp [found] at filled
  | some info => rfl

omit [DecidableEq Name] in
theorem ne_of_absent (absent : s.present n = false) (there : s.present m = true) : m ≠ n := by
  rintro rfl
  rw [absent] at there
  cases there

variable {r : ModuleRegistry Name} {d : StructDecl Name}

theorem parent_of_found (found : r.findSymbol n = some d) : r.parent n = d.parent := by
  unfold ModuleRegistry.parent
  rw [found]
  rfl

theorem mem_names (found : r.findSymbol n = some d) :
    n ∈ r.names := by
  unfold ModuleRegistry.findSymbol at found
  unfold ModuleRegistry.names
  generalize r.symbols = symbols at found ⊢
  induction symbols with
  | nil => cases found
  | cons symbol rest ih =>
    rw [lookup_cons] at found
    rw [map_cons]
    by_cases same : n = symbol.1
    · rw [same]
      exact .head _
    · have other : (n == symbol.1) = false := beq_eq_false_iff_ne.2 same
      rw [other] at found
      exact .tail _ (ih found)

omit [DecidableEq Name] in
theorem countP_names_le (r : ModuleRegistry Name) (p : Name → Bool) :
    r.names.countP p ≤ r.symbols.length := by
  have few : r.names.countP p ≤ r.names.length := countP_le_length
  unfold ModuleRegistry.names at few
  rwa [length_map] at few

end Entries

section Invariant

variable (r : ModuleRegistry Name) (listed : List Name)

def Reachable (s : State Name) (n : Name) : Prop :=
  s.present n = true ∨ ∃ d, r.findSymbol n = some d ∧ d.inCurrentFile = false ∧ r.plain n = false

def Resolvable (s : State Name) : Prop :=
  ∀ n d, r.findSymbol n = some d →
    (∀ p, d.parent = some p → Reachable r s p) ∧
      ∀ field ∈ d.fields, field.active = true → ∀ m ∈ field.mentions,
        r.plain m = true ∨ Reachable r s m

def ParentsFirst : List Name → Prop
  | [] => True
  | n :: earlier =>
    (n ∈ listed → ∀ p, r.parent n = some p → (r.findSymbol p).isSome → p ∈ earlier) ∧
      ParentsFirst earlier

structure Core (s : State Name) : Prop where
  present : ∀ n ∈ listed, s.present n = true
  filled_registered : ∀ n, (r.findSymbol n).isSome → s.filled n = true → n ∈ s.registered
  once : ∀ n ∈ listed, s.registered.count n ≤ 1
  first : ParentsFirst r listed s.registered
  unrefused : ∀ n ∈ listed, n ∉ s.refused
  -- where the fields of an entry come from, so that it is not emptied again
  grounded : ∀ n d, r.findSymbol n = some d → s.filled n = true →
    (∃ field ∈ d.fields, field.active = true) ∨ ∃ p, d.parent = some p ∧ s.filled p = true
  external : ∀ n ∈ s.seenDeps, ∀ d, r.findSymbol n = some d → d.inCurrentFile = false
  resolvable : Resolvable r s

/-- From one state to a later one, when no walk is under way in between: `brought` are the names
that walks may have come to. -/
structure Moves (brought : Name → Prop) (s t : State Name) : Prop where
  present : ∀ n, s.present n = true → t.present n = true
  filled : ∀ n, s.filled n = true → t.filled n = true
  registered : ∀ n ∈ s.registered, n ∈ t.registered
  seen : ∀ n ∈ s.seenDeps, n ∈ t.seenDeps
  news : ∀ n ∈ listed, n ∈ t.registered → n ∈ s.registered ∨ n ∉ s.seenDeps ∧ n ∈ t.seenDeps
  done : ∀ n ∈ t.seenDeps, n ∈ s.seenDeps ∨ n ∈ t.registered
  walked : ∀ n ∈ t.seenDeps, n ∈ s.seenDeps ∨ brought n
  settled : ∀ n, t.present n = true → s.present n = true ∨ n ∈ t.registered

end Invariant

section Moving

variable {r : ModuleRegistry Name} {listed : List Name} {brought : Name → Prop}
  {s t u : State Name}

omit [DecidableEq Name] in
theorem Moves.refl (s : State Name) : Moves listed brought s s where
  present _ there := there
  filled _ there := there
  registered _ there := there
  seen _ there := there
  news _ _ there := .inl there
  done _ there := .inl there
  walked _ there := .inl there
  settled _ there := .inl there

omit [DecidableEq Name] in
theorem Moves.trans (first : Moves listed brought s t) (second : Moves listed brought t u) :
    Moves listed brought s u where
  present n there := second.present n (first.present n there)
  filled n there := second.filled n (first.filled n there)
  registered n there := second.registered n (first.registered n there)
  seen n there := second.seen n (first.seen n there)
  news n member there := by
    rcases second.news n member there with before | ⟨unseen, seen⟩
    · rcases first.news n member before with earlier | ⟨unseen, seen⟩
      · exact .inl earlier
      · exact .inr ⟨unseen, second.seen n seen⟩
    · exact .inr ⟨fun earlier => unseen (first.seen n earlier), seen⟩
  done n there := by
    rcases second.done n there with before | registered
    · rcases first.done n before with earlier | registered
      · exact .inl earlier
      · exact .inr (second.registered n registered)
    · exact .inr registered
  walked n there := by
    rcases second.walked n there with before | walked
    · exact first.walked n before
    · exact .inr walked
  settled n there := by
    rcases second.settled n there with before | registered
    · rcases first.settled n before with earlier | registered
      · exact .inl earlier
      · exact .inr (second.registered n registered)
    · exact .inr registered

omit [DecidableEq Name] in
theorem Moves.weaken {more} (weaker : ∀ n, brought n → more n)
    (moves : Moves listed brought s t) : Moves listed more s t :=
  { moves with walked := fun n there => (moves.walked n there).imp_right (weaker n) }

variable {n : Name}

variable (present : ∀ n, s.present n = true → t.present n = true)
include present

theorem Reachable.mono
    (reachable : Reachable r s n) : Reachable r t n :=
  reachable.imp_left (present n)

theorem Resolvable.mono
    (resolvable : Resolvable r s) : Resolvable r t := by
  intro n d found
  rcases resolvable n d found with ⟨parent, fields⟩
  refine ⟨fun p inherits => (parent p inherits).mono present, ?_⟩
  intro field member active m mentioned
  exact (fields field member active m mentioned).imp_right (Reachable.mono present)

omit present

theorem Core.skeleton (imported : Bool) (core : Core r listed s)
    (missing : s.present n = false) : Core r listed (s.registerType n ⟨[], imported⟩) := by
  have present (m : Name) (there : s.present m = true) :
      (s.registerType n ⟨[], imported⟩).present m = true := by
    simp [there]
  have unfilled (m : Name) (filled : (s.registerType n ⟨[], imported⟩).filled m = true) :
      s.filled m = true := by
    by_cases same : m = n
    · simp [same] at filled
    · simpa [same] using filled
  have filled (m : Name) (there : s.filled m = true) :
      (s.registerType n ⟨[], imported⟩).filled m = true := by
    have other := ne_of_absent missing (present_of_filled there)
    simpa [other] using there
  exact {
    present := fun m member => present m (core.present m member)
    filled_registered := fun m declared there => core.filled_registered m declared (unfilled m there)
    once := core.once
    first := core.first
    unrefused := core.unrefused
    grounded := by
      intro m d found there
      rcases core.grounded m d found (unfilled m there) with own | ⟨p, inherits, above⟩
      · exact .inl own
      · exact .inr ⟨p, inherits, filled p above⟩
    external := core.external
    resolvable := core.resolvable.mono present }

theorem Core.register {d} (info : TypeInfo Name)
    (core : Core r listed s) (found : r.findSymbol n = some d) (there : s.present n = true)
    (fresh : n ∈ listed → n ∉ s.registered)
    (ready : n ∈ listed → ∀ p, r.parent n = some p → (r.findSymbol p).isSome → p ∈ s.registered)
    (keeps : s.filled n = true → info.fields ≠ []) (source : info.fields ≠ [] →
      (∃ field ∈ d.fields, field.active = true) ∨ ∃ p, d.parent = some p ∧ s.filled p = true) :
    Core r listed { s.registerType n info with registered := n :: s.registered } ∧
      ∀ m, s.filled m = true → (s.registerType n info).filled m = true := by
  have filled (m : Name) (before : s.filled m = true) : (s.registerType n info).filled m = true := by
    by_cases same : m = n
    · subst same
      simpa using keeps before
    · simpa [same] using before
  have present (m : Name) (before : s.present m = true) :
      (s.registerType n info).present m = true := by
    simp [before]
  refine ⟨?_, filled⟩
  exact {
    present := fun m member => present m (core.present m member)
    filled_registered := by
      intro m declared now
      by_cases same : m = n
      · rw [same]
        exact .head _
      · have before : s.filled m = true := by
          have now : (s.registerType n info).filled m = true := now
          simpa [same] using now
        exact .tail _ (core.filled_registered m declared before)
    once := by
      intro m member
      by_cases same : m = n
      · subst same
        have none_before := count_eq_zero.2 (fresh member)
        simp [none_before]
      · rw [count_cons_of_ne (Ne.symm same)]
        exact core.once m member
    first := ⟨ready, core.first⟩
    unrefused := core.unrefused
    grounded := by
      intro m d' found' now
      by_cases same : m = n
      · subst same
        cases found.symm.trans found'
        have now : (s.registerType m info).filled m = true := now
        rcases source (by simpa using now) with own | ⟨p, inherits, above⟩
        · exact .inl own
        · exact .inr ⟨p, inherits, filled p above⟩
      · have before : s.filled m = true := by
          have now : (s.registerType n info).filled m = true := now
          simpa [same] using now
        rcases core.grounded m d' found' before with own | ⟨p, inherits, above⟩
        · exact .inl own
        · exact .inr ⟨p, inherits, filled p above⟩
    external := core.external
    resolvable := core.resolvable.mono present }

theorem ParentsFirst.before {names : List Name} (first : ParentsFirst r listed names) {p : Name}
    (member : n ∈ listed) (inherits : r.parent n = some p) (declared : (r.findSymbol p).isSome)
    (there : n ∈ names) : ∃ later earlier, names = later ++ n :: earlier ∧ p ∈ earlier := by
  induction names with
  | nil => cases there
  | cons m rest ih =>
    by_cases same : n = m
    · subst same
      exact ⟨[], rest, rfl, first.1 member p inherits declared⟩
    · rcases ih first.2 (mem_of_ne_of_mem same there) with ⟨later, earlier, split, above⟩
      exact ⟨m :: later, earlier, by rw [split]; rfl, above⟩

end Moving

section CheckingSpec

variable {r : ModuleRegistry Name} {listed : List Name}

structure Lazily (listed : List Name) (s t : State Name) : Prop
    extends Moves listed (fun _ => False) s t where
  kept : ∀ n, s.present n = true → t.types n = s.types n

omit [DecidableEq Name] in
theorem Lazily.refl (s : State Name) : Lazily listed s s :=
  ⟨Moves.refl s, fun _ _ => rfl⟩

variable {s t u : State Name}

omit [DecidableEq Name] in
theorem Lazily.trans (first : Lazily listed s t) (second : Lazily listed t u) : Lazily listed s u :=
  ⟨first.toMoves.trans second.toMoves, fun n there =>
    (second.kept n (first.present n there)).trans (first.kept n there)⟩

variable {n : Name}

omit [DecidableEq Name] in
theorem Lazily.seenDeps (lazily : Lazily listed s t) (seen : n ∈ t.seenDeps) : n ∈ s.seenDeps :=
  (lazily.walked n seen).resolve_right id

omit [DecidableEq Name] in
theorem Lazily.before (lazily : Lazily listed s t)
    (member : n ∈ listed) (later : n ∈ t.registered) : n ∈ s.registered := by
  rcases lazily.news n member later with before | ⟨unseen, seen⟩
  · exact before
  · exact absurd (lazily.seenDeps seen) unseen

def Resolves (r : ModuleRegistry Name) (listed : List Name) (n : Name) (s t : State Name) : Prop :=
  Core r listed s →
    Core r listed t ∧ Lazily listed s t ∧ (Reachable r s n → t.present n = true)

def missing (r : ModuleRegistry Name) (s : State Name) : Nat :=
  r.names.countP fun n => !s.present n

omit [DecidableEq Name] in
theorem missing_le (present : ∀ n, s.present n = true → t.present n = true) :
    missing r t ≤ missing r s := by
  apply countP_mono_left
  intro n _ absent
  by_contra there
  simp only [Bool.not_eq_true, Bool.not_eq_false'] at there
  simp [present n there] at absent

variable {resolve : Name → State Name → State Name} {bound : Nat}
  (inner : ∀ n s, missing r s ≤ bound → Resolves r listed n s (resolve n s))

include inner

theorem resolveNames_spec (names : List Name) (core : Core r listed s) (small : missing r s ≤ bound)
    (known : ∀ m ∈ names, r.plain m = true ∨ Reachable r s m) :
    ∃ t, resolveNames r resolve names s = (t, true) ∧ Core r listed t ∧ Lazily listed s t := by
  induction names generalizing s with
  | nil => exact ⟨s, rfl, core, Lazily.refl s⟩
  | cons m rest ih =>
    rcases inner m s small core with ⟨core', lazily, found⟩
    have resolved : (r.plain m || (resolve m s).present m) = true := by
      rcases known m (.head _) with plain | reachable
      · simp [plain]
      · simp [found reachable]
    have small' := le_trans (missing_le lazily.present) small
    rcases ih core' small' fun m' member =>
        (known m' (mem_cons_of_mem m member)).imp_right (Reachable.mono lazily.present)
      with ⟨t, result, last, later⟩
    refine ⟨t, ?_, last, lazily.trans later⟩
    rw [resolveNames, if_pos resolved, result]

theorem checkFields_spec (fields : List (Field Name)) (before : List Name)
    (core : Core r listed s) (small : missing r s ≤ bound)
    (known : ∀ field ∈ fields, field.active = true → ∀ m ∈ field.mentions,
      r.plain m = true ∨ Reachable r s m) :
    ∃ t all, checkFields r resolve fields before s = (t, some all) ∧ Core r listed t ∧
      Lazily listed s t ∧ (all ≠ [] ↔ before ≠ [] ∨ ∃ field ∈ fields, field.active = true) := by
  induction fields generalizing before s with
  | nil => exact ⟨s, before, rfl, core, Lazily.refl s, by simp⟩
  | cons field rest ih =>
    by_cases active : field.active = true
    · rcases resolveNames_spec inner field.mentions core small
        (known field (.head _) active) with ⟨u, names, core', lazily⟩
      rcases ih (if field.name ∈ before then before else before ++ [field.name]) core'
          (le_trans (missing_le lazily.present) small)
          (fun other member active m mentioned =>
            (known other (mem_cons_of_mem field member) active m mentioned).imp_right
              (Reachable.mono lazily.present))
        with ⟨t, all, result, last, later, full⟩
      refine ⟨t, all, ?_, last, lazily.trans later, ?_⟩
      · rw [checkFields, if_pos active, names]
        exact result
      · have grown : (if field.name ∈ before then before else before ++ [field.name]) ≠ [] := by
          split
          · next member => exact ne_nil_of_mem member
          · simp
        exact iff_of_true (full.2 (.inl grown))
          (.inr ⟨field, .head _, active⟩)
    · rcases ih before core small
          (fun other member => known other (mem_cons_of_mem field member))
        with ⟨t, all, result, last, later, full⟩
      refine ⟨t, all, ?_, last, later, ?_⟩
      · rw [checkFields, if_neg active]
        exact result
      · rw [full]
        simp [active]

/-- What a call of `checkStructDecl` comes to: only its own entry and missing ones change. -/
structure Checked (r : ModuleRegistry Name) (listed : List Name) (n : Name) (s t : State Name) :
    Prop where
  core : Core r listed t
  present : ∀ m, s.present m = true → t.present m = true
  filled : ∀ m, s.filled m = true → t.filled m = true
  registered : ∀ m ∈ s.registered, m ∈ t.registered
  seenDeps : ∀ m, m ∈ t.seenDeps ↔ m ∈ s.seenDeps
  news : ∀ m ∈ listed, m ∈ t.registered → m ∈ s.registered ∨ m = n
  settled : ∀ m, t.present m = true → s.present m = true ∨ m ∈ t.registered
  itself : n ∈ t.registered
  entered : t.present n = true
  kept : ∀ m, m ≠ n → s.present m = true → t.types m = s.types m

variable {brought : Name → Prop}

omit inner in
theorem Checked.moves
    (checked : Checked r listed n s t) (unlisted : n ∉ listed) : Moves listed brought s t where
  present := checked.present
  filled := checked.filled
  registered := checked.registered
  seen m := (checked.seenDeps m).mpr
  news m member later := by
    rcases checked.news m member later with before | same
    · exact .inl before
    · exact absurd (same ▸ member) unlisted
  done m later := .inl ((checked.seenDeps m).1 later)
  walked m later := .inl ((checked.seenDeps m).1 later)
  settled := checked.settled

omit inner in
/-- A walk that comes to a name puts it into `seenDeps`, and registers it in the end. -/
theorem Checked.moves_from (checked : Checked r listed n t u)
    (inside : Moves listed brought { s with seenDeps := n :: s.seenDeps } t)
    (fresh : n ∉ s.seenDeps) (here : brought n) : Moves listed brought s u where
  present m before := checked.present m (inside.present m before)
  filled m before := checked.filled m (inside.filled m before)
  registered m before := checked.registered m (inside.registered m before)
  seen m before := (checked.seenDeps m).2 (inside.seen m (mem_cons_of_mem n before))
  news m member now := by
    rcases checked.news m member now with before | same
    · rcases inside.news m member before with earlier | ⟨unseen, seen⟩
      · exact .inl earlier
      · exact .inr ⟨fun earlier => unseen (mem_cons_of_mem n earlier),
          (checked.seenDeps m).2 seen⟩
    · subst same
      exact .inr ⟨fresh, (checked.seenDeps m).2 (inside.seen m (.head _))⟩
  done m now := by
    rcases inside.done m ((checked.seenDeps m).1 now) with before | registered
    · rcases mem_cons.1 before with same | earlier
      · exact .inr (same ▸ checked.itself)
      · exact .inl earlier
    · exact .inr (checked.registered m registered)
  walked m now := by
    rcases inside.walked m ((checked.seenDeps m).1 now) with before | brought
    · rcases mem_cons.1 before with same | earlier
      · exact .inr (same ▸ here)
      · exact .inl earlier
    · exact .inr brought
  settled m now := by
    rcases checked.settled m now with before | registered
    · exact (inside.settled m before).imp_right (checked.registered m)
    · exact .inr registered

variable {d : StructDecl Name}

theorem inherited_spec (core : Core r listed s)
    (small : missing r s ≤ bound) (parent : ∀ p, d.parent = some p → Reachable r s p) : ∃ t before,
      (match d.parent with
        | none => (s, some [])
        | some p => (resolve p s, ((resolve p s).types p).map TypeInfo.fields)) =
          (t, some before) ∧ Core r listed t ∧ Lazily listed s t ∧
        (∀ p, d.parent = some p → t.present p = true) ∧
        (before ≠ [] ↔ ∃ p, d.parent = some p ∧ t.filled p = true) := by
  cases inherits : d.parent with
  | none => exact ⟨s, [], rfl, core, Lazily.refl s, by simp⟩
  | some p =>
    rcases inner p s small core with ⟨core', lazily, resolved⟩
    have present := resolved (parent p inherits)
    cases entry : (resolve p s).types p with
    | none => simp [State.present, entry] at present
    | some info =>
      refine ⟨resolve p s, info.fields, by simp [entry], core', lazily, ?_⟩
      simp [State.filled, State.present, entry]

omit inner in
theorem Checked.of_entry {info} (lazily : Lazily listed s t)
    (entered : Core r listed { t.registerType n info with registered := n :: t.registered } ∧
      ∀ m, t.filled m = true → (t.registerType n info).filled m = true) :
    Checked r listed n s { t.registerType n info with registered := n :: t.registered } where
  core := entered.1
  present m before := by
    have later : (t.registerType n info).present m = true := by simp [lazily.present m before]
    exact later
  filled m before := entered.2 m (lazily.filled m before)
  registered m before := mem_cons_of_mem n (lazily.registered m before)
  seenDeps m := ⟨lazily.seenDeps, lazily.seen m⟩
  news m member later := by
    rcases mem_cons.1 later with same | before
    · exact .inr same
    · exact .inl (lazily.before member before)
  settled m later := by
    have later : (t.registerType n info).present m = true := later
    rw [registerType_present, Bool.or_eq_true, decide_eq_true_eq] at later
    rcases later with same | before
    · exact .inr (same ▸ (.head _))
    · exact (lazily.settled m before).imp_right (mem_cons_of_mem n)
  itself := (.head _)
  entered := by
    have now : (t.registerType n info).present n = true := by simp
    exact now
  kept m other before := by
    have same : (t.registerType n info).types m = t.types m := Function.update_of_ne other _ _
    exact same.trans (lazily.kept m before)

theorem defineStruct_spec (imported : Bool)
    (core : Core r listed s) (small : missing r s ≤ bound) (found : r.findSymbol n = some d)
    (there : s.present n = true) (fresh : n ∈ listed → n ∉ s.registered)
    (ready : n ∈ listed → ∀ p, r.parent n = some p → (r.findSymbol p).isSome → p ∈ s.registered) :
    Checked r listed n s (defineStruct r resolve imported n d s) := by
  rcases core.resolvable n d found with ⟨parent, fields⟩
  rcases inherited_spec inner core small parent with
    ⟨u, before, inherited, core', above, present, source⟩
  rcases checkFields_spec inner d.fields before core'
      (le_trans (missing_le above.present) small)
      (fun field member active m mentioned =>
        (fields field member active m mentioned).imp_right (Reachable.mono above.present))
    with ⟨v, all, collected, core'', below, full⟩
  have result : defineStruct r resolve imported n d s =
      { v.registerType n ⟨all, imported⟩ with registered := n :: v.registered } := by
    unfold defineStruct
    simp only [inherited, collected]
  have lazily : Lazily listed s v := above.trans below
  have grounded : all ≠ [] ↔ (∃ field ∈ d.fields, field.active = true) ∨
      ∃ p, d.parent = some p ∧ v.filled p = true := by
    rw [full, source, or_comm]
    apply or_congr_right
    constructor
    · rintro ⟨p, inherits, filled⟩
      exact ⟨p, inherits, below.filled p filled⟩
    · -- the lookups of the fields leave the parent's entry alone
      rintro ⟨p, inherits, filled⟩
      refine ⟨p, inherits, ?_⟩
      unfold State.filled at filled ⊢
      rw [← below.kept p (present p inherits)]
      exact filled
  have registered := core''.register ⟨all, imported⟩ found (lazily.present n there)
    (fun member later => fresh member (lazily.before member later))
    (fun member p inherits declared => lazily.registered p (ready member p inherits declared))
    (fun filled => grounded.2 (core''.grounded n d found filled)) grounded.mp
  rw [result]
  exact Checked.of_entry lazily registered

theorem checkStructWith_spec (imported : Bool)
    (core : Core r listed s) (small : s.present n = true → missing r s ≤ bound)
    (smaller : missing r s ≤ bound + 1) (found : r.findSymbol n = some d)
    (fresh : n ∈ listed → n ∉ s.registered)
    (ready : n ∈ listed → ∀ p, r.parent n = some p → (r.findSymbol p).isSome → p ∈ s.registered) :
    Checked r listed n s (checkStructWith r resolve imported n d s) := by
  have declared : (r.findSymbol n).isSome := by rw [found]; rfl
  unfold checkStructWith
  cases entry : s.types n with
  | some existing =>
    have there : s.present n = true := by simp [State.present, entry]
    simp only
    split
    · exact defineStruct_spec inner imported core (small there) found there fresh ready
    · next full =>
        have filled : s.filled n = true := by
          simp only [Bool.or_eq_true, not_or, Bool.not_eq_true] at full
          simp [State.filled, entry, full.1]
        have before := core.filled_registered n declared filled
        exact {
          core :=
            { core with
              unrefused := by
                intro m member refused
                rcases mem_cons.1 refused with same | refused
                · subst same
                  exact fresh member before
                · exact core.unrefused m member refused }
          present := fun _ => id
          filled := fun _ => id
          registered := fun _ => id
          seenDeps := fun _ => Iff.rfl
          news := fun _ _ => .inl
          settled := fun _ => .inl
          itself := before
          entered := there
          kept := fun _ _ _ => rfl }
  | none =>
    have absent : s.present n = false := by simp [State.present, entry]
    have entered : missing r (s.registerType n ⟨[], imported⟩) < missing r s :=
      Descent.countP_lt (mem_names found) (by simp) (by simp [absent]) (by simp)
    have checked := defineStruct_spec inner imported (core.skeleton imported absent)
      (by omega) found (by simp) fresh ready
    exact { checked with
      present := fun m before => checked.present m (by simp [before])
      filled := by
        intro m before
        apply checked.filled
        simpa [ne_of_absent absent (present_of_filled before)] using before
      settled := by
        intro m later
        rcases checked.settled m later with before | registered
        · rw [registerType_present, Bool.or_eq_true, decide_eq_true_eq] at before
          rcases before with same | before
          · exact .inr (same ▸ checked.itself)
          · exact .inl before
        · exact .inr registered
      kept := by
        intro m different before
        refine (checked.kept m different (by simp [before])).trans ?_
        exact Function.update_of_ne different _ _ }

end CheckingSpec

section Lookup

variable {r : ModuleRegistry Name} {listed : List Name}

omit [DecidableEq Name] in
theorem missing_le_symbols (s : State Name) : missing r s ≤ r.symbols.length :=
  countP_names_le r _

theorem resolveTypeSpec_spec (n : Name) (s : State Name) :
    Resolves r listed n s (resolveTypeSpec r n s) := by
  refine Descent.descend_spec (missing r) (Resolves r listed) ?_ ?_ _ n s (missing_le_symbols s)
  · intro n s none_missing core
    refine ⟨core, Lazily.refl s, ?_⟩
    rintro (there | ⟨d, found, _⟩)
    · exact there
    · have there := countP_eq_zero.1 none_missing n (mem_names found)
      simpa using there
  · intro visit bound inner n s small core
    unfold resolveStep
    split
    · next known =>
        refine ⟨core, Lazily.refl s, ?_⟩
        rintro (there | ⟨d, _, _, declared⟩)
        · exact there
        · simpa [declared] using known
    · next unknown =>
        simp only [Bool.or_eq_true, not_or, Bool.not_eq_true] at unknown
        have absent : s.present n = false := unknown.2
        cases found : r.findSymbol n with
        | none =>
          refine ⟨core, Lazily.refl s, ?_⟩
          rintro (there | ⟨d, declared, _⟩)
          · rw [absent] at there
            cases there
          · rw [found] at declared
            cases declared
        | some d =>
          simp only
          split
          · next here =>
              refine ⟨core, Lazily.refl s, ?_⟩
              rintro (there | ⟨d', declared, elsewhere, _⟩)
              · rw [absent] at there
                cases there
              · cases found.symm.trans declared
                rw [here] at elsewhere
                cases elsewhere
          · -- a missing name is not listed, so nothing is asked of it
            have unlisted : n ∉ listed := by
              intro member
              rw [core.present n member] at absent
              cases absent
            have checked := checkStructWith_spec inner true core (by simp [absent]) small found
              (fun member => absurd member unlisted) (fun member => absurd member unlisted)
            exact ⟨checked.core, ⟨checked.moves unlisted,
              fun m before => checked.kept m (ne_of_absent absent before) before⟩,
              fun _ => checked.entered⟩

theorem checkStructDecl_spec {n : Name} {d} (imported : Bool) {s : State Name}
    (core : Core r listed s) (found : r.findSymbol n = some d)
    (fresh : n ∈ listed → n ∉ s.registered)
    (ready : n ∈ listed → ∀ p, r.parent n = some p → (r.findSymbol p).isSome → p ∈ s.registered) :
    Checked r listed n s (checkStructDecl r imported n d s) :=
  checkStructWith_spec (fun n s _ => resolveTypeSpec_spec n s) imported core
    (fun _ => missing_le_symbols s) (Nat.le_succ_of_le (missing_le_symbols s)) found fresh ready

end Lookup

section WalkSpec

variable (r : ModuleRegistry Name) (listed : List Name)

def Open (s : State Name) (n : Name) : Prop :=
  ∃ d, r.findSymbol n = some d ∧ d.inCurrentFile = false ∧ s.filled n = false ∧ n ∉ s.seenDeps

/-- What the walk over the fields of a struct comes to: along the types that are mentioned, and
by the fields of a parent that is not listed. -/
inductive Brought (s : State Name) (n : Name) : Name → Prop
  | mention {d t} (found : r.findSymbol n = some d) (mentioned : t ∈ d.mentions)
      (unknown : Open r s t) : Brought s n t
  | next {m d t} (earlier : Brought s n m) (found : r.findSymbol m = some d)
      (mentioned : t ∈ d.mentions) (unknown : Open r s t) : Brought s n t
  | parent {m p d t} (earlier : Brought s n m) (inherits : r.parent m = some p)
      (unlisted : p ∉ listed) (found : r.findSymbol p = some d) (mentioned : t ∈ d.mentions)
      (unknown : Open r s t) : Brought s n t

structure Sound (s : State Name) : Prop extends Core r listed s where
  walked : ∀ n ∈ s.seenDeps, n ∈ s.registered
  others : ∀ n d, r.findSymbol n = some d → d.inCurrentFile = false → n ∉ listed →
    s.present n = true → n ∈ s.registered

/-- No walk from a struct registers a listed one again, or meets a listed parent that was not
walked to. -/
def Harmless (s : State Name) (n : Name) : Prop :=
  ∀ t, Brought r listed s n t →
    (t ∈ listed → t ∉ s.registered) ∧ ∀ p ∈ listed, r.parent t = some p → p ∈ s.seenDeps

/-- A moment in the walks of a visit that began in `start`. -/
structure Under (start s : State Name) : Prop extends Core r listed s where
  presentFrom : ∀ n, start.present n = true → s.present n = true
  filledFrom : ∀ n, start.filled n = true → s.filled n = true
  registeredFrom : ∀ n ∈ start.registered, n ∈ s.registered
  seenFrom : ∀ n ∈ start.seenDeps, n ∈ s.seenDeps
  newsFrom : ∀ n ∈ listed, n ∈ s.registered → n ∈ start.registered ∨ n ∈ s.seenDeps

def unseen (s : State Name) : Nat := r.names.countP fun n => decide (n ∉ s.seenDeps)

variable {r listed} {start s t : State Name} {root : Name}

theorem unseen_le (seen : ∀ n ∈ s.seenDeps, n ∈ t.seenDeps) : unseen r t ≤ unseen r s := by
  apply countP_mono_left
  intro n _ absent
  simp only [decide_eq_true_eq] at absent ⊢
  exact fun before => absent (seen n before)

theorem unseen_le_symbols (s : State Name) : unseen r s ≤ r.symbols.length :=
  countP_names_le r _

variable {n : Name}

variable (under : Under r listed start s)
include under

theorem Under.open_start (unknown : Open r s n) :
    Open r start n := by
  rcases unknown with ⟨d, found, elsewhere, empty, fresh⟩
  refine ⟨d, found, elsewhere, ?_, fun before => fresh (under.seenFrom n before)⟩
  by_contra filled
  rw [Bool.not_eq_false] at filled
  rw [under.filledFrom n filled] at empty
  cases empty

theorem Under.later {brought}
    (core : Core r listed t) (moves : Moves listed brought s t) : Under r listed start t where
  toCore := core
  presentFrom n before := moves.present n (under.presentFrom n before)
  filledFrom n before := moves.filled n (under.filledFrom n before)
  registeredFrom n before := moves.registered n (under.registeredFrom n before)
  seenFrom n before := moves.seen n (under.seenFrom n before)
  newsFrom n member now := by
    rcases moves.news n member now with before | ⟨_, seen⟩
    · exact (under.newsFrom n member before).imp_right (moves.seen n)
    · exact .inr seen

variable {d : StructDecl Name}

theorem Under.enter
    (found : r.findSymbol n = some d) (elsewhere : d.inCurrentFile = false) :
    Under r listed start { s with seenDeps := n :: s.seenDeps } where
  toCore :=
    { under.toCore with
      external := by
        intro m seen d' found'
        rcases mem_cons.1 seen with same | before
        · subst same
          cases found.symm.trans found'
          exact elsewhere
        · exact under.external m before d' found' }
  presentFrom := under.presentFrom
  filledFrom := under.filledFrom
  registeredFrom := under.registeredFrom
  seenFrom n before := .tail _ (under.seenFrom n before)
  newsFrom n member now := (under.newsFrom n member now).imp_right (mem_cons_of_mem _)

omit under

def Walks (r : ModuleRegistry Name) (listed : List Name) (start : State Name) (root n : Name)
    (s t : State Name) : Prop :=
  Under r listed start s → (Open r s n → Brought r listed start root n) →
    Core r listed t ∧ Moves listed (Brought r listed start root) s t

variable {ensure : Name → State Name → State Name} {bound : Nat}

theorem each_walks (inner : ∀ n s, unseen r s ≤ bound → Walks r listed start root n s (ensure n s))
    (names : List Name) (expected : ∀ m ∈ names, Open r start m → Brought r listed start root m)
    (under : Under r listed start s) (small : unseen r s ≤ bound) :
    Core r listed (each ensure names s) ∧
      Moves listed (Brought r listed start root) s (each ensure names s) := by
  have both := Descent.each_rel
    (R := fun a b => Under r listed start a ∧ unseen r a ≤ bound →
      Core r listed b ∧ Moves listed (Brought r listed start root) a b)
    (fun a given => ⟨given.1.toCore, Moves.refl a⟩) ?_ ensure names s ?_
  · exact both ⟨under, small⟩
  · intro a b c first second given
    rcases first given with ⟨core, moves⟩
    rcases second ⟨given.1.later core moves,
      le_trans (unseen_le moves.seen) given.2⟩ with ⟨core', moves'⟩
    exact ⟨core', moves.trans moves'⟩
  · intro m member a _ given
    exact inner m a given.2 given.1 fun unknown =>
      expected m member (given.1.open_start unknown)

variable (sound : Sound r listed start)
include sound

theorem Sound.registered_parent
    (parents : ∀ n ∈ listed, ∀ p, r.parent n = some p → start.present p = true)
    (harmless : Harmless r listed start root) {p : Name}
    (expected : Brought r listed start root n) (member : n ∈ listed)
    (inherits : r.parent n = some p) {pd} (declared : r.findSymbol p = some pd)
    (elsewhere : pd.inCurrentFile = false) : p ∈ start.registered := by
  by_cases listed_parent : p ∈ listed
  · exact sound.walked p ((harmless n expected).2 p listed_parent inherits)
  · exact sound.others p pd declared elsewhere listed_parent (parents n member p inherits)

theorem preResolveParent_spec
    (parents : ∀ n ∈ listed, ∀ p, r.parent n = some p → start.present p = true)
    (harmless : Harmless r listed start root)
    (inner : ∀ n s, unseen r s ≤ bound → Walks r listed start root n s (ensure n s))
    (found : r.findSymbol n = some d)
    (expected : Brought r listed start root n) (under : Under r listed start s)
    (small : unseen r s ≤ bound) : Core r listed (preResolveParent r ensure d s) ∧
      Moves listed (Brought r listed start root) s (preResolveParent r ensure d s) ∧
      (n ∈ listed → ∀ p, r.parent n = some p → (r.findSymbol p).isSome →
        p ∈ (preResolveParent r ensure d s).registered) := by
  have parent_eq := parent_of_found found
  unfold preResolveParent
  cases inherits : d.parent with
  | none =>
    refine ⟨under.toCore, Moves.refl s, ?_⟩
    intro _ p other
    rw [parent_eq, inherits] at other
    cases other
  | some p =>
    rcases resolveTypeSpec_spec p s under.toCore with ⟨core, lazily, resolved⟩
    have moved : Moves listed (Brought r listed start root) s (resolveTypeSpec r p s) :=
      lazily.toMoves.weaken fun _ => False.elim
    have there := resolved ((under.resolvable n d found).1 p inherits)
    have under' := under.later core moved
    simp only [there, Bool.true_and]
    split
    · next fresh =>
        simp only [decide_eq_true_eq] at fresh
        -- a listed parent was walked to before
        have unlisted : p ∉ listed := by
          intro member
          have before := (harmless n expected).2 p member (parent_eq.trans inherits)
          exact fresh (under'.seenFrom p before)
        cases declared : r.findSymbol p with
        | none =>
          refine ⟨core, moved, ?_⟩
          intro _ q other declared'
          cases (parent_eq.trans inherits).symm.trans other
          rw [declared] at declared'
          cases declared'
        | some pd =>
          rcases each_walks inner pd.mentions
            (fun m member unknown => Brought.parent expected (parent_eq.trans inherits) unlisted
              declared member unknown)
            under' (le_trans (unseen_le moved.seen) small) with ⟨core', moved'⟩
          have checked := checkStructDecl_spec true core' declared
            (fun member => absurd member unlisted) (fun member => absurd member unlisted)
          refine ⟨checked.core, moved.trans (moved'.trans (checked.moves unlisted)), ?_⟩
          intro _ q other _
          cases (parent_eq.trans inherits).symm.trans other
          exact checked.itself
    · next seen =>
        simp only [decide_eq_true_eq, not_not] at seen
        refine ⟨core, moved, ?_⟩
        intro member q other declared
        cases (parent_eq.trans inherits).symm.trans other
        rcases Option.isSome_iff_exists.1 declared with ⟨pd, declared⟩
        exact under'.registeredFrom p (sound.registered_parent parents harmless expected member
          other declared (core.external p seen pd declared))

theorem ensureTypeDependencyFromSpec_spec
    (parents : ∀ n ∈ listed, ∀ p, r.parent n = some p → start.present p = true)
    (harmless : Harmless r listed start root) (n : Name) (s : State Name) :
    Walks r listed start root n s (ensureTypeDependencyFromSpec r n s) := by
  refine Descent.descend_spec (unseen r) (Walks r listed start root) ?_ ?_ _ n s
    (unseen_le_symbols s)
  · intro n s _ under _
    exact ⟨under.toCore, Moves.refl s⟩
  · intro ensure bound inner n s small under expected
    unfold ensureStep
    cases found : r.findSymbol n with
    | none => exact ⟨under.toCore, Moves.refl s⟩
    | some d =>
      simp only
      split
      · exact ⟨under.toCore, Moves.refl s⟩
      · next closed =>
          simp only [Bool.or_eq_true, decide_eq_true_eq, not_or, Bool.not_eq_true] at closed
          rcases closed with ⟨⟨elsewhere, empty⟩, fresh⟩
          have here := expected ⟨d, found, elsewhere, empty, fresh⟩
          have entered := under.enter found elsewhere
          have fewer : unseen r { s with seenDeps := n :: s.seenDeps } < unseen r s :=
            Descent.countP_lt (mem_names found) (by simp) (by simp [fresh]) (by simp)
          rcases each_walks inner d.mentions
              (fun m member unknown => Brought.next here found member unknown) entered (by omega)
            with ⟨core₁, moves₁⟩
          rcases preResolveParent_spec sound parents harmless inner found here
              (entered.later core₁ moves₁)
              (le_trans (unseen_le moves₁.seen) (by omega))
            with ⟨core₂, moves₂, parent⟩
          have inside := moves₁.trans moves₂
          -- nothing below can have registered it, as its name is in `seenDeps`
          have new (member : n ∈ listed) (now : n ∈ (preResolveParent r ensure d
              (each ensure d.mentions { s with seenDeps := n :: s.seenDeps })).registered) :
              False := by
            rcases inside.news n member now with before | ⟨unseen, _⟩
            · rcases under.newsFrom n member before with earlier | seen
              · exact (harmless n here).1 member earlier
              · exact fresh seen
            · exact unseen (.head _)
          have checked := checkStructDecl_spec true core₂ found new parent
          exact ⟨checked.core, checked.moves_from inside fresh here⟩

omit sound

theorem Sound.resolve {s : State Name} (sound : Sound r listed s) (n : Name) :
    Sound r listed (resolveTypeSpec r n s) ∧ Lazily listed s (resolveTypeSpec r n s) := by
  rcases resolveTypeSpec_spec n s sound.toCore with ⟨core, lazily, _⟩
  refine ⟨⟨core, ?_, ?_⟩, lazily⟩
  · intro m seen
    exact lazily.registered m (sound.walked m (lazily.seenDeps seen))
  · intro m d found elsewhere unlisted there
    rcases lazily.settled m there with before | registered
    · exact lazily.registered m (sound.others m d found elsewhere unlisted before)
    · exact registered

end WalkSpec

/-! The depth at which the recursions are cut off is enough for them. -/

section Depth

variable {r : ModuleRegistry Name} {R : State Name → State Name → Prop}

/-- A relation between states that each assignment of `checkStructDecl` keeps to. -/
structure Frame (R : State Name → State Name → Prop) : Prop where
  refl : ∀ s, R s s
  trans : ∀ {s t u}, R s t → R t u → R s u
  entry : ∀ s n info, R s (s.registerType n info)
  registered : ∀ s names, R s { s with registered := names }
  refused : ∀ s names, R s { s with refused := names }

section Related

variable (frame : Frame R) {resolve : Name → State Name → State Name}
  (inner : ∀ n s, R s (resolve n s))

include frame inner

theorem resolveNames_rel (names : List Name) (s : State Name) :
    R s (resolveNames r resolve names s).1 := by
  induction names generalizing s with
  | nil => exact frame.refl s
  | cons m rest ih =>
    rw [resolveNames]
    split
    · exact frame.trans (inner m s) (ih _)
    · exact inner m s

theorem checkFields_rel (fields : List (Field Name)) (before : List Name) (s : State Name) :
    R s (checkFields r resolve fields before s).1 := by
  induction fields generalizing before s with
  | nil => exact frame.refl s
  | cons field rest ih =>
    rw [checkFields]
    split
    · have names := resolveNames_rel (r := r) frame inner field.mentions s
      split
      · next resolved =>
          rw [resolved] at names
          exact frame.trans names (ih _ _)
      · next resolved =>
          rw [resolved] at names
          exact names
    · exact ih before s

theorem defineStruct_rel (imported : Bool) (n : Name) (d : StructDecl Name) (s : State Name) :
    R s (defineStruct r resolve imported n d s) := by
  have rest (u : State Name) (before : List Name) (above : R s u) :
      R s (match checkFields r resolve d.fields before u with
        | (v, none) => v
        | (v, some fields) =>
          { v.registerType n ⟨fields, imported⟩ with registered := n :: v.registered }) := by
    have fields := checkFields_rel (r := r) frame inner d.fields before u
    split
    · next checked =>
        rw [checked] at fields
        exact frame.trans above fields
    · next checked =>
        rw [checked] at fields
        exact frame.trans above (frame.trans fields
          (frame.trans (frame.entry _ n _) (frame.registered _ _)))
  unfold defineStruct
  cases d.parent with
  | none => exact rest s [] (frame.refl s)
  | some p =>
    simp only
    cases (resolve p s).types p with
    | none => exact inner p s
    | some info => exact rest _ info.fields (inner p s)

theorem checkStructWith_rel (imported : Bool) (n : Name) (d : StructDecl Name) (s : State Name) :
    R s (checkStructWith r resolve imported n d s) := by
  unfold checkStructWith
  split
  · split
    · exact defineStruct_rel frame inner imported n d s
    · exact frame.refused s _
  · exact frame.trans (frame.entry s n _) (defineStruct_rel frame inner imported n d _)

theorem resolveStep_rel (n : Name) (s : State Name) : R s (resolveStep r resolve n s) := by
  unfold resolveStep
  split
  · exact frame.refl s
  · split
    · split
      · exact frame.refl s
      · exact checkStructWith_rel frame inner true n _ s
    · exact frame.refl s

end Related

theorem descend_rel (frame : Frame R) (depth : Nat) (n : Name) (s : State Name) :
    R s (descend (resolveStep r) depth n s) :=
  Descent.descend_spec (fun _ => 0) (fun _ s t => R s t) (fun _ s _ => frame.refl s)
    (fun _ _ inner n s _ => resolveStep_rel frame (fun n s => inner n s (Nat.zero_le _)) n s)
    depth n s (Nat.zero_le _)

theorem missing_frame : Frame fun s t => missing r t ≤ missing r s where
  refl _ := le_rfl
  trans first second := le_trans second first
  entry s n info := missing_le fun m there => by simp [there]
  registered _ _ := le_rfl
  refused _ _ := le_rfl

theorem unseen_frame : Frame fun s t => unseen r t ≤ unseen r s where
  refl _ := le_rfl
  trans first second := le_trans second first
  entry _ _ _ := le_rfl
  registered _ _ := le_rfl
  refused _ _ := le_rfl

section Agreeing

variable {f g : Name → State Name → State Name} {bound : Nat}
  (shrinks : ∀ n s, missing r (f n s) ≤ missing r s)
  (same : ∀ n s, missing r s ≤ bound → f n s = g n s)

include shrinks same

omit [DecidableEq Name] in
theorem resolveNames_agree (names : List Name) (s : State Name) (small : missing r s ≤ bound) :
    resolveNames r f names s = resolveNames r g names s := by
  induction names generalizing s with
  | nil => rfl
  | cons m rest ih =>
    rw [resolveNames, resolveNames, ← same m s small, ih _ (le_trans (shrinks m s) small)]

theorem checkFields_agree (fields : List (Field Name)) (before : List Name) (s : State Name)
    (small : missing r s ≤ bound) :
    checkFields r f fields before s = checkFields r g fields before s := by
  induction fields generalizing before s with
  | nil => rfl
  | cons field rest ih =>
    have names := resolveNames_rel (r := r) missing_frame shrinks field.mentions s
    rw [checkFields, checkFields, ← resolveNames_agree shrinks same field.mentions s small,
      ih before s small]
    split
    · split
      · next resolved =>
          rw [resolved] at names
          exact ih _ _ (le_trans names small)
      · rfl
    · rfl

theorem defineStruct_agree (imported : Bool) (n : Name) (d : StructDecl Name) (s : State Name)
    (small : missing r s ≤ bound) :
    defineStruct r f imported n d s = defineStruct r g imported n d s := by
  unfold defineStruct
  cases d.parent with
  | none =>
    simp only
    rw [checkFields_agree shrinks same d.fields [] s small]
  | some p =>
    simp only
    rw [← same p s small]
    cases (f p s).types p with
    | none => rfl
    | some info =>
      simp only [Option.map_some]
      rw [checkFields_agree shrinks same d.fields info.fields _ (le_trans (shrinks p s) small)]

theorem resolveStep_agree (n : Name) (s : State Name) (small : missing r s ≤ bound + 1) :
    resolveStep r f n s = resolveStep r g n s := by
  unfold resolveStep
  split
  · rfl
  · next unknown =>
      simp only [Bool.or_eq_true, not_or, Bool.not_eq_true] at unknown
      cases found : r.findSymbol n with
      | none => rfl
      | some d =>
        simp only
        split
        · rfl
        · -- the name gets its entry first
          have entry : s.types n = none := by
            simpa [State.present] using unknown.2
          have entered : missing r (s.registerType n ⟨[], true⟩) < missing r s :=
            Descent.countP_lt (mem_names found) (by simp) (by simp [unknown.2]) (by simp)
          unfold checkStructWith
          rw [entry]
          exact defineStruct_agree shrinks same true n d _ (by omega)

end Agreeing

theorem resolveTypeSpec_enough (more : Nat) (n : Name) (s : State Name) :
    descend (resolveStep r) (r.symbols.length + more) n s = resolveTypeSpec r n s := by
  induction more with
  | zero => rfl
  | succ more ih =>
    rw [← ih]
    refine Descent.descend_enough (missing r) (descend_rel missing_frame) ?_
      (fun f g bound shrinks same => resolveStep_agree shrinks same) _ n s
      (Nat.le_add_right_of_le (missing_le_symbols s))
    intro visit n s none_missing
    unfold resolveStep
    split
    · rfl
    · next unknown =>
        cases found : r.findSymbol n with
        | none => rfl
        | some d =>
          have there := countP_eq_zero.1 none_missing n (mem_names found)
          simp only [Bool.not_eq_true', Bool.not_eq_false] at there
          simp [there] at unknown

section Walking

variable {f g : Name → State Name → State Name} {bound : Nat}

theorem checkStructDecl_unseen (imported : Bool) (n : Name) (d : StructDecl Name)
    (s : State Name) : unseen r (checkStructDecl r imported n d s) ≤ unseen r s :=
  checkStructWith_rel (r := r) unseen_frame (descend_rel unseen_frame _) imported n d s

variable (shrinks : ∀ n s, unseen r (f n s) ≤ unseen r s)
include shrinks

theorem each_unseen (names : List Name) (s : State Name) : unseen r (each f names s) ≤ unseen r s :=
  Descent.each_rel (R := fun s t => unseen r t ≤ unseen r s) (fun _ => le_rfl)
    (fun first second => le_trans second first) f names s fun n _ t _ => shrinks n t

theorem preResolveParent_unseen (d : StructDecl Name) (s : State Name) :
    unseen r (preResolveParent r f d s) ≤ unseen r s := by
  unfold preResolveParent
  cases d.parent with
  | none => exact le_rfl
  | some p =>
    have resolved : unseen r (resolveTypeSpec r p s) ≤ unseen r s :=
      descend_rel unseen_frame r.symbols.length p s
    simp only
    split
    · cases r.findSymbol p with
      | none => exact resolved
      | some parent =>
        exact le_trans (checkStructDecl_unseen true p parent _)
          (le_trans (each_unseen shrinks parent.mentions _) resolved)
    · exact resolved

theorem ensureStep_unseen (n : Name)
    (s : State Name) : unseen r (ensureStep r f n s) ≤ unseen r s := by
  unfold ensureStep
  cases r.findSymbol n with
  | none => exact le_rfl
  | some d =>
    simp only
    split
    · exact le_rfl
    · have entered : unseen r { s with seenDeps := n :: s.seenDeps } ≤ unseen r s :=
        unseen_le fun m before => mem_cons_of_mem n before
      exact le_trans (checkStructDecl_unseen true n d _)
        (le_trans (preResolveParent_unseen shrinks d _)
          (le_trans (each_unseen shrinks d.mentions _) entered))

variable (same : ∀ n s, unseen r s ≤ bound → f n s = g n s)
include same

theorem preResolveParent_agree (d : StructDecl Name) (s : State Name)
    (small : unseen r s ≤ bound) : preResolveParent r f d s = preResolveParent r g d s := by
  unfold preResolveParent
  cases d.parent with
  | none => rfl
  | some p =>
    have resolved : unseen r (resolveTypeSpec r p s) ≤ unseen r s :=
      descend_rel unseen_frame r.symbols.length p s
    simp only
    split
    · cases r.findSymbol p with
      | none => rfl
      | some parent =>
        simp only
        rw [Descent.each_agree shrinks same parent.mentions _ (le_trans resolved small)]
    · rfl

theorem ensureStep_agree (n : Name) (s : State Name)
    (small : unseen r s ≤ bound + 1) : ensureStep r f n s = ensureStep r g n s := by
  unfold ensureStep
  cases found : r.findSymbol n with
  | none => rfl
  | some d =>
    simp only
    split
    · rfl
    · next closed =>
        simp only [Bool.or_eq_true, decide_eq_true_eq, not_or] at closed
        have entered : unseen r { s with seenDeps := n :: s.seenDeps } < unseen r s :=
          Descent.countP_lt (mem_names found) (by simp) (by simp [closed.2]) (by simp)
        have few : unseen r { s with seenDeps := n :: s.seenDeps } ≤ bound := by omega
        rw [preResolveParent_agree shrinks same d _
            (le_trans (each_unseen shrinks d.mentions _) few),
          Descent.each_agree shrinks same d.mentions _ few]

omit same

omit shrinks

theorem ensureTypeDependencyFromSpec_enough (more : Nat) (n : Name) (s : State Name) :
    descend (ensureStep r) (r.symbols.length + more) n s = ensureTypeDependencyFromSpec r n s := by
  have shrinks (depth : Nat) (n : Name) (s : State Name) :
      unseen r (descend (ensureStep r) depth n s) ≤ unseen r s :=
    Descent.descend_spec (fun _ => 0) (fun _ s t => unseen r t ≤ unseen r s)
      (fun _ _ _ => Nat.le_refl _)
      (fun _ _ inner n s _ => ensureStep_unseen (fun n s => inner n s (Nat.zero_le _)) n s)
      depth n s (Nat.zero_le _)
  induction more with
  | zero => rfl
  | succ more ih =>
    rw [← ih]
    refine Descent.descend_enough (unseen r) shrinks ?_
      (fun f g bound shrinks same => ensureStep_agree shrinks same) _ n s
      (Nat.le_add_right_of_le (unseen_le_symbols s))
    intro visit n s all_seen
    unfold ensureStep
    cases found : r.findSymbol n with
    | none => rfl
    | some d =>
      have seen := countP_eq_zero.1 all_seen n (mem_names found)
      simp only [decide_eq_true_eq, not_not] at seen
      simp [seen]

end Walking

end Depth

end Lucis.StructRegistration
