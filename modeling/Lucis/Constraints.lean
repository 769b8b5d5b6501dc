import Lucis.InstanceCache
import Lucis.Traits

/-!
The constraints on type parameters, checkers/Checker_generic.cpp: how one is resolved, what
satisfies it, and where the instantiators and `inferGenericTypeArgs` ask. A run is told as in
`InstanceCache`, with the constraints of an open call checked one after the other: resolving
one may load the module of a trait, and anything may happen before it is there.
-/

namespace Lucis.Constraints

open TypeSpec (Name Ref)
open Generics List
open Traits (TypeKind TraitInfo typeSatisfiesTrait)
open InstanceCache (home)

section Checks

/-- `typeParam` of the grammar: the identifiers behind the colon are joined by `+`. -/
structure TypeParam where
  name : Name
  constraints : List Name

/-- `typeParamList` of the grammar has a parameter at least. -/
structure TypeParamList where
  first : TypeParam
  rest : List TypeParam

def TypeParamList.typeParam (params : TypeParamList) : List TypeParam :=
  params.first :: params.rest

/-- A constraint on the kind of a type: its two spellings, what the error asks for, and the
kinds it accepts. -/
structure KindConstraint where
  name : Name
  spelling : Name
  wanted : String
  accepts : TypeKind → Bool

def kindConstraints : List KindConstraint :=
  [⟨"numeric", "Numeric", "numeric",
      fun kind => kind = .integer true ∨ kind = .integer false ∨ kind = .float⟩,
    ⟨"integer", "Integer", "an integer",
      fun kind => kind = .integer true ∨ kind = .integer false⟩,
    ⟨"float", "Float", "a float", fun kind => kind = .float⟩,
    ⟨"signed", "Signed", "a signed integer", fun kind => kind = .integer true⟩,
    ⟨"unsigned", "Unsigned", "an unsigned integer", fun kind => kind = .integer false⟩,
    ⟨"bool", "Bool", "a bool", fun kind => kind = .bool⟩,
    ⟨"string", "String", "a string", fun kind => kind = .string⟩]

def kindConstraint (name : Name) : Option KindConstraint :=
  kindConstraints.find? fun entry => name = entry.name ∨ name = entry.spelling

/-- A resolved constraint; `isTrait` tells `TypeKind::Trait`. -/
structure Constraint where
  name : Name
  isTrait : Bool

def unknownConstraint (name : Name) : String := "unknown type constraint '" ++ name ++ "'"

-- `canonical`: `importedSymbolName`, the exported name behind an import alias

variable (c : Traits.Checker) (canonical : Name → Name)
  (s : Traits.State) (types : Name → Option Origin)

/-- The errors, and the constraint; `nullptr`, for `any` and for what is unknown, is `none`. -/
def resolveTypeParamConstraint (name : Name) : List String × Option Constraint :=
  if name = "any" ∨ name = "Any" then ([], none)
  else
    match kindConstraint name with
    | some entry => ([], some ⟨entry.name, false⟩)
    | none =>
      if (s.traits name).isSome then ([], some ⟨name, true⟩)
      else
        match s.traits (canonical name) with
        | some trait => ([], some ⟨trait.name, true⟩)
        | none =>
          if (types name).isSome then ([], some ⟨name, false⟩)
          else ([unknownConstraint name], none)

def typeSatisfiesTraitConstraint (type : Ref) (trait : TraitInfo) (paramName : Name) :
    List String × Bool :=
  match trait.builtinValidator with
  | some validator =>
    if validator (c.typeKind type) then ([], true)
    else (["type '" ++ type.name ++ "' does not satisfy '" ++ trait.name ++
      "' constraint for parameter '" ++ paramName ++ "'"], false)
  | none =>
    if typeSatisfiesTrait c s type trait then ([], true)
    else (["type '" ++ type.name ++ "' does not implement trait '" ++ trait.name ++
      "' (required by parameter '" ++ paramName ++ "')"], false)

def satisfiesConstraint (typeArg : Ref) (paramName : Name) :
    Option Constraint → List String × Bool
  | none => ([], true)
  | some constraint =>
    match kindConstraints.find? (·.name = constraint.name) with
    | some entry =>
      if entry.accepts (c.typeKind typeArg) then ([], true)
      else (["type argument for '" ++ paramName ++ "' must be " ++ entry.wanted ++
        ", got '" ++ typeArg.name ++ "'"], false)
    | none =>
      if constraint.isTrait then
        match s.traits constraint.name with
        | none => (["unknown trait constraint '" ++ constraint.name ++ "'"], false)
        | some trait => typeSatisfiesTraitConstraint c s typeArg trait paramName
      else ([], true)

/-- What all five loops do for a parameter: `IDENTIFIER(1)` is the first constraint. -/
def checkTypeParam (param : TypeParam) (typeArg : Ref) : List String × Bool :=
  match param.constraints with
  | [] => ([], true)
  | first :: _ =>
    let (unresolved, constraint) := resolveTypeParamConstraint canonical s types first
    let (unsatisfied, holds) := satisfiesConstraint c s typeArg param.name constraint
    (unresolved ++ unsatisfied, holds)

/-- The end of `inferGenericTypeArgs`, where the formal parameters have been gone through. -/
def inferredTypeArgs (inferred : Name → Option Ref) (displayName : Name) :
    List TypeParam → List String × Option (List Ref)
  | [] => ([], some [])
  | param :: rest =>
    match inferred param.name with
    | none => (["cannot infer generic type parameter '" ++ param.name ++ "' for '" ++
        displayName ++ "'"], none)
    | some typeArg =>
      match checkTypeParam c canonical s types param typeArg with
      | (errors, false) => (errors, none)
      | (errors, true) =>
        let (more, typeArgs) := inferredTypeArgs inferred displayName rest
        (errors ++ more, typeArgs.map (typeArg :: ·))

end Checks

section Runs

structure Program where
  checker : Traits.Checker
  canonical : Name → Name
  templates : TemplateKind → Name → Option TypeParamList

/-- How far an open call is: with its constraints, with its skeleton, or with its instance. -/
inductive Progress where
  | checked (params : Nat)
  | entered
  | registered

/-- `calls` are the open calls, the innermost first; `returned` is every pointer that an
instantiator has given out. -/
structure Run where
  tables : State
  traits : Traits.State
  calls : List (Request × Progress)
  returned : List (Request × Slot)
  errors : List String

def Run.initial : Run := ⟨⟨[], fun _ => none, fun _ => none, []⟩, .initial, [], [], []⟩

inductive Event where
  | dynamicType (type : Ref)
  | typeDeclared (name : Name)
  | functionDeclared (name : Name) (ret : Ref)
  | traits (declaration : Traits.Declaration)
  | inferred (params : TypeParamList) (inferred : Name → Option Ref) (displayName : Name)
  | requested (r : Request)
  | checked
  | registered (ret : Ref)
  | duplicateField
  | finished

variable (p : Program)

def Program.arguments (r : Request) : List (TypeParam × Ref) :=
  match p.templates r.kind r.base with
  | some params => params.typeParam.zip r.typeArgs
  | none => []

def Run.checkTypeParam (run : Run) (param : TypeParam) (typeArg : Ref) : List String × Bool :=
  Constraints.checkTypeParam p.checker p.canonical run.traits run.tables.typeRegistry param typeArg

def noun : TemplateKind → String
  | .struct => "struct"
  | .union => "union"
  | .enum => "enum"
  | .func => "function"

def recursiveInstantiation (r : Request) : List String :=
  match r.kind with
  | .struct => []
  | .func => ["recursive generic function instantiation detected for '" ++ r.mangledName ++ "'"]
  | _ => ["recursive generic instantiation detected for '" ++ r.mangledName ++ "'"]

def mark (s : State) (r : Request) : State :=
  { s with instantiatingGenerics := r.mangledName :: s.instantiatingGenerics }

def skeleton (s : State) (r : Request) : State :=
  match r.kind with
  | .func => s
  | _ => s.registerType r.mangledName (.template r)

def Run.begin (run : Run) (r : Request) : Run :=
  { run with tables := mark run.tables r, calls := (r, .checked 0) :: run.calls }

def Run.request (run : Run) (r : Request) : Run :=
  match p.templates r.kind r.base with
  | none => run
  | some params =>
    if r.args.length ≠ params.typeParam.length then
      { run with errors := run.errors ++ ["generic " ++ noun r.kind ++ " '" ++ r.base ++
          "' expects " ++ toString params.typeParam.length ++ " type parameter(s), got " ++
          toString r.args.length] }
    else
      match run.tables.cached r with
      | some slot => { run with returned := run.returned ++ [(r, slot)] }
      | none =>
        if r.mangledName ∈ run.tables.instantiatingGenerics then
          { run with
            returned := run.returned ++ ((run.tables.running r).toList.map ((r, ·)))
            errors := run.errors ++ recursiveInstantiation r }
        else run.begin r

def Run.check (run : Run) : Run :=
  match run.calls with
  | (r, .checked done) :: rest =>
    match (p.arguments r)[done]? with
    | some (param, typeArg) =>
      let (errors, holds) := run.checkTypeParam p param typeArg
      if holds then
        { run with calls := (r, .checked (done + 1)) :: rest, errors := run.errors ++ errors }
      else
        { run with
          tables := run.tables.leave r
          calls := rest
          errors := run.errors ++ errors }
    | none => { run with tables := skeleton run.tables r, calls := (r, .entered) :: rest }
  | _ => run

def Run.step (run : Run) : Event → Run
  | .dynamicType type => { run with tables := run.tables.dynamicType type }
  | .typeDeclared name => { run with tables := run.tables.registerType name .declaration }
  | .functionDeclared name ret =>
    { run with tables := run.tables.registerFunction name .declaration ret }
  | .traits declaration =>
    let (errors, traits) := Traits.check p.checker declaration run.traits
    { run with traits := traits, errors := run.errors ++ errors }
  | .inferred params inferred displayName =>
    let (errors, _) := inferredTypeArgs p.checker p.canonical run.traits
      run.tables.typeRegistry inferred displayName params.typeParam
    { run with errors := run.errors ++ errors }
  | .requested r => run.request p r
  | .checked => run.check p
  | .registered ret =>
    match run.calls with
    | (_, .checked _) :: _ => run
    | (r, _) :: rest =>
      { run with tables := run.tables.register r ret, calls := (r, .registered) :: rest }
    | [] => run
  | .duplicateField =>
    match run.calls with
    | (_, .checked _) :: _ => run
    | (r, _) :: _ => { run with tables := run.tables.leave r }
    | [] => run
  | .finished =>
    match run.calls with
    | (r, .entered) :: rest => { run with tables := run.tables.leave r, calls := rest }
    | (r, .registered) :: rest =>
      { run with
        tables := run.tables.leave r
        calls := rest
        returned := run.returned ++ [(r, home r)] }
    | _ => run

def Run.after (run : Run) (events : List Event) : Run :=
  events.foldl (Run.step p) run

end Runs

section Meaning

variable (p : Program) (run : Run)

/-- What a constraint asks of a type: a kind, an impl of the trait that the name or the alias
stands for, or to be the type of that name. -/
inductive Satisfies (typeArg : Ref) (name : Name) : Prop where
  | any (every : name = "any" ∨ name = "Any")
  | kind (entry : KindConstraint) (named : kindConstraint name = some entry)
      (accepted : entry.accepts (p.checker.typeKind typeArg) = true)
  | trait (trait : TraitInfo) (other : kindConstraint name = none)
      (named : trait.name = name ∨ trait.name = p.canonical name)
      (known : run.traits.traits trait.name = some trait)
      (implemented : typeSatisfiesTrait p.checker run.traits typeArg trait = true)
  | type (other : kindConstraint name = none) (no_trait : run.traits.traits name = none)
      (known : (run.tables.typeRegistry name).isSome) (same : typeArg = .registry name)

def Run.Instance (slot : Slot) : Prop :=
  ∃ r, run.tables.origin slot = some (.template r)

def Enforced : Prop :=
  ∀ answer ∈ run.returned, run.Instance answer.2 → ∀ entry ∈ p.arguments answer.1,
    ∀ name ∈ entry.1.constraints, Satisfies p run entry.2 name

def NamesType (name : Name) : Prop :=
  kindConstraint name = none ∧ (run.tables.typeRegistry name).isSome

def FirstSatisfied (param : TypeParam) (typeArg : Ref) : Prop :=
  ∀ name, param.constraints.head? = some name → ¬ NamesType run name →
    unknownConstraint name ∉ run.errors → Satisfies p run typeArg name

def FirstEnforced : Prop :=
  ∀ answer ∈ run.returned, run.Instance answer.2 → ∀ entry ∈ p.arguments answer.1,
    FirstSatisfied p run entry.1 entry.2

def Fits (r : Request) : Prop :=
  ∃ params, p.templates r.kind r.base = some params ∧ r.args.length = params.typeParam.length

def Distinct (asked : Request → Prop) : Prop :=
  ∀ r r', asked r → asked r' → Fits p r → Fits p r' → home r = home r' →
    r.kind = r'.kind ∧ r.base = r'.base ∧ r.typeArgs = r'.typeArgs

end Meaning

section Growth

variable {p : Program}

structure Grows (run run' : Run) : Prop where
  types : ∀ name, (run.tables.typeRegistry name).isSome → (run'.tables.typeRegistry name).isSome
  traits : ∀ name trait, run.traits.traits name = some trait →
    run'.traits.traits name = some trait
  impls : ∀ name type, (run.traits.findImpl name type).isSome →
    (run'.traits.findImpl name type).isSome
  errors : ∀ error ∈ run.errors, error ∈ run'.errors

theorem Grows.of_types {run run' : Run} (types : ∀ name, (run.tables.typeRegistry name).isSome →
      (run'.tables.typeRegistry name).isSome)
    (traits : run'.traits = run.traits) (errors : ∀ error ∈ run.errors, error ∈ run'.errors) :
    Grows run run' where
  types := types
  traits := by simp [traits]
  impls := by simp [traits]
  errors := errors

variable {trait : TraitInfo}

variable {typeArg : Ref}

theorem typeSatisfiesTrait_grows {run run' : Run} (grows : Grows run run')
    (implemented : typeSatisfiesTrait p.checker run.traits typeArg trait = true) :
    typeSatisfiesTrait p.checker run'.traits typeArg trait = true := by
  unfold typeSatisfiesTrait at implemented ⊢
  split at implemented
  · exact implemented
  · exact grows.impls _ _ implemented

theorem FirstSatisfied.grows {run run' : Run} (grows : Grows run run') {param : TypeParam}
    (satisfied : FirstSatisfied p run param typeArg) :
    FirstSatisfied p run' param typeArg := by
  intro name first no_type reported
  have no_type_before : ¬ NamesType run name := by
    rintro ⟨other, known⟩
    exact no_type ⟨other, grows.types name known⟩
  have unreported : unknownConstraint name ∉ run.errors :=
    fun before => reported (grows.errors _ before)
  cases satisfied name first no_type_before unreported with
  | any every => exact .any every
  | kind entry named accepted => exact .kind entry named accepted
  | trait trait other named known implemented =>
    exact .trait trait other named (grows.traits _ _ known)
      (typeSatisfiesTrait_grows grows implemented)
  | type other no_trait known same => exact absurd ⟨other, known⟩ no_type_before

variable (s : State)

theorem registerType_types (entry name : Name) (origin : Origin)
    (known : (s.typeRegistry name).isSome) :
    ((s.registerType entry origin).typeRegistry name).isSome := by
  by_cases same : name = entry
  · simp [State.registerType, update, same]
  · simpa [State.registerType, update, same] using known

variable (r : Request)

theorem register_types (ret : Ref) (name : Name)
    (known : (s.typeRegistry name).isSome) : ((s.register r ret).typeRegistry name).isSome := by
  unfold State.register
  split
  · exact known
  · exact registerType_types s _ name _ known

theorem skeleton_types (name : Name)
    (known : (s.typeRegistry name).isSome) : ((skeleton s r).typeRegistry name).isSome := by
  unfold skeleton
  split
  · exact known
  · exact registerType_types s _ name _ known

variable {name : Name}

variable (c : Traits.Checker) (modulePath : String) (imported : Bool) (decl : Traits.TraitDecl)

theorem checkTraitDecl_traits (s : Traits.State) (known : s.traits name = some trait) :
    (Traits.checkTraitDecl c modulePath imported decl s).2.traits name = some trait := by
  unfold Traits.checkTraitDecl
  split
  · exact known
  · dsimp only
    split
    · exact known
    · next free =>
      split
      · exact known
      · rw [Traits.registered_trait]
        have other : name ≠ decl.name := by
          rintro rfl
          exact free (.inl (by simp [known]))
        rw [if_neg other]
        exact known

theorem checkTraitDecl_impls (s : Traits.State) :
    (Traits.checkTraitDecl c modulePath imported decl s).2.impls = s.impls := by
  unfold Traits.checkTraitDecl
  split
  · rfl
  · dsimp only
    split
    · rfl
    · split <;> rfl

theorem checkImplDecl_cases (decl : Traits.ImplDecl) (s : Traits.State) :
    ∃ nodes, (Traits.checkImplDecl c modulePath decl s).2 = { s with processedImplDecls := nodes } ∨
      ∃ info, (Traits.checkImplDecl c modulePath decl s).2 =
        Traits.State.registerImpl { s with processedImplDecls := nodes } info := by
  unfold Traits.checkImplDecl
  split
  · exact ⟨_, .inl rfl⟩
  · refine ⟨decl.node :: s.processedImplDecls, ?_⟩
    dsimp only
    split
    · exact .inl rfl
    · split
      · exact .inl rfl
      · split
        · exact .inl rfl
        · split
          · exact .inl rfl
          · split
            · exact .inl rfl
            · exact .inr ⟨_, rfl⟩

variable (declaration : Traits.Declaration) (s : Traits.State)

theorem check_grows :
    (∀ name trait, s.traits name = some trait →
        (Traits.check c declaration s).2.traits name = some trait) ∧
      ∀ name type, (s.findImpl name type).isSome →
        ((Traits.check c declaration s).2.findImpl name type).isSome := by
  cases declaration with
  | trait modulePath imported decl =>
    refine ⟨fun _ _ known => checkTraitDecl_traits c modulePath imported decl s known, ?_⟩
    intro name type there
    simp only [Traits.check, Traits.State.findImpl, checkTraitDecl_impls]
    exact there
  | impl modulePath decl =>
    rcases checkImplDecl_cases c modulePath decl s with ⟨nodes, same | ⟨info, same⟩⟩
    · rw [Traits.check, same]
      exact ⟨fun _ _ known => known, fun _ _ there => there⟩
    · rw [Traits.check, same]
      refine ⟨fun _ _ known => known, ?_⟩
      intro name type there
      simp only [Traits.State.findImpl, Traits.registered_impl]
      split
      · rfl
      · exact there

theorem check_named (named : ∀ name trait, s.traits name = some trait → trait.name = name)
    (known : (Traits.check c declaration s).2.traits name = some trait) : trait.name = name := by
  cases declaration with
  | trait modulePath imported decl =>
    unfold Traits.check Traits.checkTraitDecl at known
    dsimp only at known
    split at known
    · exact named name trait known
    · split at known
      · exact named name trait known
      · split at known
        · exact named name trait known
        · rw [Traits.registered_trait] at known
          split at known
          · next same =>
            cases known
            exact same.symm
          · exact named name trait known
  | impl modulePath decl =>
    rcases checkImplDecl_cases c modulePath decl s with ⟨nodes, same | ⟨info, same⟩⟩
    · rw [Traits.check, same] at known
      exact named name trait known
    · rw [Traits.check, same] at known
      exact named name trait known

end Growth

section Checking

variable {p : Program} {run : Run}

/-- The traits are found by their names, and the built-in ones are what the checker makes of
the constraints of their names. -/
structure Named (s : Traits.State) : Prop where
  own : ∀ name trait, s.traits name = some trait → trait.name = name
  builtin : ∀ entry ∈ kindConstraints, ∃ trait, s.traits entry.name = some trait ∧
    trait.builtinValidator = some entry.accepts

theorem initial_named : Named .initial where
  own := by
    intro name trait found
    rcases Option.map_eq_some_iff.1 found with ⟨entry, _, made⟩
    rw [← made]
  builtin := by
    intro entry member
    simp only [kindConstraints, mem_cons, not_mem_nil, or_false] at member
    rcases member with rfl | rfl | rfl | rfl | rfl | rfl | rfl <;> exact ⟨_, rfl, rfl⟩

variable {c : Traits.Checker} {s : Traits.State}

theorem Named.check (named : Named s)
    (declaration : Traits.Declaration) : Named (Traits.check c declaration s).2 where
  own := fun _ _ known => check_named c declaration s named.own known
  builtin := by
    intro entry member
    rcases named.builtin entry member with ⟨trait, known, validator⟩
    exact ⟨trait, (check_grows c declaration s).1 _ _ known, validator⟩

variable {name : Name}

theorem kindConstraint_own {entry} (named : kindConstraint name = some entry) :
    kindConstraints.find? (·.name = entry.name) = some entry := by
  have member := mem_of_find?_eq_some named
  simp only [kindConstraints, mem_cons, not_mem_nil, or_false] at member
  rcases member with rfl | rfl | rfl | rfl | rfl | rfl | rfl <;> rfl

variable {trait : TraitInfo} {paramName : Name}

theorem typeSatisfiesTraitConstraint_true {type : Ref}
    (holds : (typeSatisfiesTraitConstraint c s type trait paramName).2 = true) :
    typeSatisfiesTrait c s type trait = true := by
  unfold typeSatisfiesTraitConstraint at holds
  split at holds
  · next validator builtin =>
    split at holds
    · next accepted => simp [typeSatisfiesTrait, builtin, accepted]
    · cases holds
  · split at holds
    · next implemented => exact implemented
    · cases holds

variable {typeArg : Ref}

theorem satisfiesConstraint_trait (named : Named s) (known : s.traits trait.name = some trait)
    (holds : (satisfiesConstraint c s typeArg paramName (some ⟨trait.name, true⟩)).2 = true) :
    typeSatisfiesTrait c s typeArg trait = true := by
  unfold satisfiesConstraint at holds
  dsimp only at holds
  split at holds
  · next entry found =>
    -- a built-in trait under an alias
    have member := mem_of_find?_eq_some found
    have same : entry.name = trait.name := by simpa using find?_some found
    rcases named.builtin entry member with ⟨builtin, there, validator⟩
    rw [same, known] at there
    cases there
    split at holds
    · next accepted => simp [typeSatisfiesTrait, validator, accepted]
    · cases holds
  · rw [if_pos rfl, known] at holds
    exact typeSatisfiesTraitConstraint_true holds

theorem checkTypeParam_satisfied (named : Named run.traits) {param : TypeParam}
    (holds : (run.checkTypeParam p param typeArg).2 = true)
    (first : param.constraints.head? = some name) (no_type : ¬ NamesType run name)
    (reported : unknownConstraint name ∉ (run.checkTypeParam p param typeArg).1) :
    Satisfies p run typeArg name := by
  rcases constraints : param.constraints with - | ⟨head, more⟩
  · rw [constraints] at first
    cases first
  · rw [constraints] at first
    obtain rfl : head = name := by simpa using first
    simp only [Run.checkTypeParam, checkTypeParam, constraints] at holds reported
    unfold resolveTypeParamConstraint at holds reported
    by_cases every : head = "any" ∨ head = "Any"
    · exact .any every
    · rw [if_neg every] at holds reported
      split at holds
      · next entry kind =>
        dsimp only [satisfiesConstraint] at holds
        rw [kindConstraint_own kind] at holds
        dsimp only at holds
        split at holds
        · next accepted => exact .kind entry kind accepted
        · cases holds
      · next other =>
        rw [other] at reported
        dsimp only at reported
        split at holds
        · next known =>
          rcases Option.isSome_iff_exists.1 known with ⟨trait, there⟩
          have own := named.own head trait there
          rw [← own] at holds there
          exact .trait trait other (.inl own) there (satisfiesConstraint_trait named there holds)
        · next no_trait =>
          rw [if_neg no_trait] at reported
          split at holds
          · next trait there =>
            have own := named.own _ trait there
            rw [← own] at there
            exact .trait trait other (.inr own) there
              (satisfiesConstraint_trait named there holds)
          · next missing =>
            rw [missing] at reported
            dsimp only at reported
            by_cases known : (run.tables.typeRegistry head).isSome
            · exact absurd ⟨other, known⟩ no_type
            · rw [if_neg known] at reported
              simp at reported

end Checking

section Invariant

variable {p : Program} {asked : Request → Prop} {run : Run}

def Progress.behind {α : Type} (progress : Progress) (entries : List α) : List α :=
  match progress with
  | .checked done => entries.take done
  | _ => entries

structure Passed (p : Program) (asked : Request → Prop) (run : Run) (r : Request) : Prop where
  asked : asked r
  fits : Fits p r
  satisfied : ∀ entry ∈ p.arguments r, FirstSatisfied p run entry.1 entry.2

structure Called (p : Program) (asked : Request → Prop) (run : Run) (call : Request × Progress) :
    Prop where
  asked : asked call.1
  fits : Fits p call.1
  satisfied : ∀ entry ∈ call.2.behind (p.arguments call.1), FirstSatisfied p run entry.1 entry.2

structure Answered (p : Program) (asked : Request → Prop) (answer : Request × Slot) : Prop where
  asked : asked answer.1
  fits : Fits p answer.1
  place : answer.2 = home answer.1 ∨ (∃ type, answer.2 = .dynamicType type) ∨
    answer.2 = .registered "int32"

structure Kept (p : Program) (asked : Request → Prop) (run : Run) : Prop where
  named : Named run.traits
  instances : ∀ slot r, run.tables.origin slot = some (.template r) →
    slot = home r ∧ Passed p asked run r
  calls : ∀ call ∈ run.calls, Called p asked run call
  returned : ∀ answer ∈ run.returned, Answered p asked answer

theorem kept_initial : Kept p asked .initial where
  named := initial_named
  instances := by
    intro slot r entry
    cases slot <;> simp [Run.initial, State.origin] at entry
  calls := by simp [Run.initial]
  returned := by simp [Run.initial]

variable {r : Request} {run' : Run}

theorem Passed.grows (grows : Grows run run')
    (passed : Passed p asked run r) : Passed p asked run' r where
  asked := passed.asked
  fits := passed.fits
  satisfied := fun entry there => (passed.satisfied entry there).grows grows

theorem Called.grows (grows : Grows run run') {call}
    (called : Called p asked run call) : Called p asked run' call where
  asked := called.asked
  fits := called.fits
  satisfied := fun entry there => (called.satisfied entry there).grows grows

theorem Kept.changed (kept : Kept p asked run) (grows : Grows run run') (named : Named run'.traits)
    (instances : ∀ slot r, run'.tables.origin slot = some (.template r) →
      run.tables.origin slot = some (.template r) ∨ (slot = home r ∧ Passed p asked run' r))
    (calls : ∀ call ∈ run'.calls, call ∈ run.calls ∨ Called p asked run' call)
    (returned : ∀ answer ∈ run'.returned, answer ∈ run.returned ∨ Answered p asked answer) :
    Kept p asked run' where
  named := named
  instances := by
    intro slot r entry
    rcases instances slot r entry with before | new
    · rcases kept.instances slot r before with ⟨place, passed⟩
      exact ⟨place, passed.grows grows⟩
    · exact new
  calls := by
    intro call there
    rcases calls call there with before | new
    · exact (kept.calls call before).grows grows
    · exact new
  returned := by
    intro answer there
    rcases returned answer there with before | new
    · exact kept.returned answer before
    · exact new

variable {progress : Progress}

theorem Called.passed (called : Called p asked run (r, progress))
    (behind : progress.behind (p.arguments r) = p.arguments r) : Passed p asked run r where
  asked := called.asked
  fits := called.fits
  satisfied := by
    have satisfied := called.satisfied
    rw [behind] at satisfied
    exact satisfied

variable {slot : Slot} {s : State} {r' : Request}

theorem registerType_template (type : r.kind ≠ .func)
    (entry : (s.registerType r.mangledName (.template r)).origin slot = some (.template r')) :
    s.origin slot = some (.template r') ∨ (slot = home r' ∧ r' = r) := by
  by_cases here : slot = home r
  · right
    rw [here, InstanceCache.home_type type, InstanceCache.origin_registerType_self] at entry
    cases entry
    exact ⟨here, rfl⟩
  · left
    rw [InstanceCache.home_type type] at here
    rw [← entry, InstanceCache.origin_registerType_ne here]

theorem skeleton_template (entry : (skeleton s r).origin slot = some (.template r')) :
    s.origin slot = some (.template r') ∨ (slot = home r' ∧ r' = r) := by
  unfold skeleton at entry
  split at entry
  · exact .inl entry
  · next type => exact registerType_template type entry

variable {ret : Ref}

theorem register_template (entry : (s.register r ret).origin slot = some (.template r')) :
    s.origin slot = some (.template r') ∨ (slot = home r' ∧ r' = r) := by
  rcases InstanceCache.origin_register s r ret with ⟨own, others⟩
  by_cases here : slot = home r
  · right
    rw [here, own] at entry
    cases entry
    exact ⟨here, rfl⟩
  · left
    rw [← others slot here]
    exact entry

variable {name : Name}

theorem declared_template
    (entry : (s.registerType name .declaration).origin slot = some (.template r)) :
    s.origin slot = some (.template r) := by
  by_cases here : slot = .registered name
  · rw [here, InstanceCache.origin_registerType_self] at entry
    cases entry
  · rw [← entry, InstanceCache.origin_registerType_ne here]

theorem declaredFunction_template
    (entry : (s.registerFunction name .declaration ret).origin slot = some (.template r)) :
    s.origin slot = some (.template r) := by
  by_cases here : slot = .function name
  · rw [here, InstanceCache.origin_registerFunction_self] at entry
    cases entry
  · rw [← entry, InstanceCache.origin_registerFunction_ne here]

theorem running_int32 (running : s.running r = some slot) : slot = .registered "int32" := by
  unfold State.running at running
  split at running
  · split at running
    · cases running
      rfl
    · cases running
  · cases running

theorem Kept.request (kept : Kept p asked run) (wanted : asked r) :
    Kept p asked (run.request p r) := by
  unfold Run.request
  split
  · exact kept
  · next params known =>
    split
    · exact kept.changed (.of_types (fun _ there => there) rfl (fun _ => mem_append_left _))
        kept.named (fun _ _ => .inl) (fun _ => .inl) (fun _ => .inl)
    · next same =>
      have fits : Fits p r := ⟨params, known, not_not.1 same⟩
      split
      · next slot found =>
        refine kept.changed (.of_types (fun _ there => there) rfl (fun _ there => there))
          kept.named (fun _ _ => .inl) (fun _ => .inl) ?_
        intro answer given
        rcases mem_append.1 given with before | new
        · exact .inl before
        · rw [mem_singleton.1 new]
          refine .inr ⟨wanted, fits, ?_⟩
          rcases InstanceCache.cached_some found with ⟨type, -, -, place, -⟩ | ⟨place, -⟩
          · exact .inr (.inl ⟨type, place⟩)
          · exact .inl place
      · split
        · refine kept.changed
            (.of_types (fun _ there => there) rfl (fun _ => mem_append_left _))
            kept.named (fun _ _ => .inl) (fun _ => .inl) ?_
          intro answer given
          rcases mem_append.1 given with before | new
          · exact .inl before
          · rcases List.mem_map.1 new with ⟨slot, running, rfl⟩
            exact .inr ⟨wanted, fits, .inr (.inr (running_int32 (by simpa using running)))⟩
        · refine kept.changed (.of_types (fun _ there => there) rfl (fun _ there => there))
            kept.named ?_ ?_ (fun _ => .inl)
          · intro slot r' entry
            left
            rw [← entry]
            cases slot <;> rfl
          · intro call there
            rcases mem_cons.1 there with rfl | before
            · exact .inr ⟨wanted, fits, by simp [Progress.behind]⟩
            · exact .inl before

theorem Called.next {done : Nat}
    (called : Called p asked run (r, .checked done)) (grows : Grows run run') {param : TypeParam}
    {typeArg : Ref} (entry : (p.arguments r)[done]? = some (param, typeArg))
    (satisfied : FirstSatisfied p run' param typeArg) :
    Called p asked run' (r, .checked (done + 1)) where
  asked := called.asked
  fits := called.fits
  satisfied := by
    intro other there
    rw [Progress.behind, take_add_one, entry, mem_append] at there
    rcases there with before | new
    · exact (called.grows grows).satisfied other before
    · rw [Option.toList_some, mem_singleton] at new
      rw [new]
      exact satisfied

theorem leave_template (entry : (s.leave r).origin slot = some (.template r')) :
    s.origin slot = some (.template r') := by
  rw [← entry, InstanceCache.leave_origin]

theorem Kept.check (kept : Kept p asked run) : Kept p asked (run.check p) := by
  unfold Run.check
  split
  · next r done rest opened =>
    have called := kept.calls (r, .checked done) (by simp [opened])
    have inner : ∀ call ∈ rest, call ∈ run.calls := fun call there => by simp [opened, there]
    split
    · next param typeArg entry =>
      have reports : ∀ calls tables errors, tables.typeRegistry = run.tables.typeRegistry →
          Grows run { run with tables := tables, calls := calls, errors := run.errors ++ errors } :=
        fun calls tables errors same =>
          .of_types (fun name known => by simpa [same] using known) rfl
            (fun _ => mem_append_left _)
      dsimp only
      split
      · next holds =>
        have grows := reports ((r, .checked (done + 1)) :: rest) run.tables
          (run.checkTypeParam p param typeArg).1 rfl
        refine kept.changed grows kept.named (fun _ _ => .inl) ?_ (fun _ => .inl)
        intro call there
        rcases mem_cons.1 there with rfl | before
        · refine .inr (called.next grows entry ?_)
          intro name first no_type reported
          have satisfied := checkTypeParam_satisfied kept.named holds first no_type
            fun unknown => reported (mem_append_right _ unknown)
          cases satisfied with
          | any every => exact .any every
          | kind entry named accepted => exact .kind entry named accepted
          | trait trait other named known implemented =>
            exact .trait trait other named known implemented
          | type other no_trait known same => exact .type other no_trait known same
        · exact .inl (inner call before)
      · exact kept.changed (reports rest (run.tables.leave r) _ rfl) kept.named
          (fun _ _ entry => .inl (leave_template entry)) (fun call there => .inl (inner call there))
          (fun _ => .inl)
    · next finished =>
      have all : (p.arguments r).take done = p.arguments r :=
        take_of_length_le (List.getElem?_eq_none_iff.1 finished)
      have passed : Passed p asked run r := called.passed all
      have grows : Grows run
          { run with tables := skeleton run.tables r, calls := (r, .entered) :: rest } :=
        .of_types (fun name => skeleton_types run.tables r name) rfl (fun _ there => there)
      refine kept.changed grows kept.named ?_ ?_ (fun _ => .inl)
      · intro slot r' entry
        rcases skeleton_template entry with before | ⟨place, rfl⟩
        · exact .inl before
        · exact .inr ⟨place, passed.grows grows⟩
      · intro call there
        rcases mem_cons.1 there with rfl | before
        · exact .inr ⟨passed.asked, passed.fits, (passed.grows grows).satisfied⟩
        · exact .inl (inner call before)
  · exact kept

theorem Kept.registered (kept : Kept p asked run)
    {rest} (opened : run.calls = (r, progress) :: rest)
    (behind : progress.behind (p.arguments r) = p.arguments r) (ret : Ref) : Kept p asked
      { run with tables := run.tables.register r ret, calls := (r, .registered) :: rest } := by
  have passed : Passed p asked run r :=
    (kept.calls (r, progress) (by simp [opened])).passed behind
  have grows : Grows run
      { run with tables := run.tables.register r ret, calls := (r, .registered) :: rest } :=
    .of_types (fun name => register_types run.tables r ret name) rfl (fun _ there => there)
  refine kept.changed grows kept.named ?_ ?_ (fun _ => .inl)
  · intro slot r' entry
    rcases register_template entry with before | ⟨place, rfl⟩
    · exact .inl before
    · exact .inr ⟨place, passed.grows grows⟩
  · intro call there
    rcases mem_cons.1 there with rfl | before
    · exact .inr ⟨passed.asked, passed.fits, (passed.grows grows).satisfied⟩
    · exact .inl (by simp [opened, before])

theorem Kept.left (kept : Kept p asked run) (r : Request) {calls}
    {returned} (fewer : ∀ call ∈ calls, call ∈ run.calls)
    (answers : ∀ answer ∈ returned, answer ∈ run.returned ∨ Answered p asked answer) : Kept p asked
      { run with tables := run.tables.leave r, calls := calls, returned := returned } :=
  kept.changed (.of_types (fun _ known => known) rfl (fun _ there => there)) kept.named
    (fun _ _ entry => .inl (leave_template entry)) (fun call there => .inl (fewer call there))
    answers

theorem Kept.step (kept : Kept p asked run) {event : Event}
    (wanted : ∀ r, event = .requested r → asked r) : Kept p asked (run.step p event) := by
  cases event with
  | dynamicType type =>
    refine kept.changed (.of_types (fun _ known => known) rfl (fun _ there => there)) kept.named
      ?_ (fun _ => .inl) (fun _ => .inl)
    intro slot r entry
    left
    rw [← entry]
    cases slot <;> rfl
  | typeDeclared name =>
    exact kept.changed
      (.of_types (fun other => registerType_types run.tables name other _) rfl
        (fun _ there => there))
      kept.named (fun _ _ entry => .inl (declared_template entry)) (fun _ => .inl)
      (fun _ => .inl)
  | functionDeclared name ret =>
    exact kept.changed (.of_types (fun _ known => known) rfl (fun _ there => there)) kept.named
      (fun _ _ entry => .inl (declaredFunction_template entry)) (fun _ => .inl) (fun _ => .inl)
  | traits declaration =>
    rcases check_grows p.checker declaration run.traits with ⟨traits, impls⟩
    exact kept.changed ⟨fun _ known => known, traits, impls, fun _ => mem_append_left _⟩
      (kept.named.check declaration) (fun _ _ => .inl) (fun _ => .inl) (fun _ => .inl)
  | inferred params inferred displayName =>
    exact kept.changed (.of_types (fun _ known => known) rfl (fun _ => mem_append_left _))
      kept.named (fun _ _ => .inl) (fun _ => .inl) (fun _ => .inl)
  | requested r => exact kept.request (wanted r rfl)
  | checked => exact kept.check
  | registered ret =>
    rcases opened : run.calls with - | ⟨⟨r, done | - | -⟩, rest⟩
    · simpa [Run.step, opened] using kept
    · simpa [Run.step, opened] using kept
    · simpa [Run.step, opened] using kept.registered opened rfl ret
    · simpa [Run.step, opened] using kept.registered opened rfl ret
  | duplicateField =>
    have left := fun r => kept.left r (fun _ there => there) (fun _ => .inl)
    rcases opened : run.calls with - | ⟨⟨r, done | - | -⟩, rest⟩
    · simpa [Run.step, opened] using kept
    · simpa [Run.step, opened] using kept
    · simpa [Run.step, opened] using left r
    · simpa [Run.step, opened] using left r
  | finished =>
    rcases opened : run.calls with - | ⟨⟨r, done | - | -⟩, rest⟩
    · simpa [Run.step, opened] using kept
    · simpa [Run.step, opened] using kept
    · have inner : ∀ call ∈ rest, call ∈ run.calls := fun call there => by simp [opened, there]
      simpa [Run.step, opened] using kept.left r inner (fun _ => .inl)
    · have inner : ∀ call ∈ rest, call ∈ run.calls := fun call there => by simp [opened, there]
      have called := kept.calls (r, .registered) (by simp [opened])
      have answers : ∀ answer ∈ run.returned ++ [(r, home r)],
          answer ∈ run.returned ∨ Answered p asked answer := by
        intro answer given
        rcases mem_append.1 given with before | new
        · exact .inl before
        · rw [mem_singleton.1 new]
          exact .inr ⟨called.asked, called.fits, .inl rfl⟩
      simpa [Run.step, opened] using kept.left r inner answers

theorem Kept.after (kept : Kept p asked run) (events : List Event)
    (wanted : ∀ r, .requested r ∈ events → asked r) : Kept p asked (run.after p events) := by
  induction events generalizing run with
  | nil => exact kept
  | cons event events ih =>
    have stepped : Kept p asked (run.step p event) :=
      kept.step fun r same => wanted r (by simp [same])
    exact ih stepped fun r there => wanted r (mem_cons_of_mem event there)

theorem mem_mangled (base : Name) (args : List Ref) (there : '_' ∈ base.toList ∨ args ≠ []) :
    '_' ∈ (TypeSpec.mangleGenericName base args).toList := by
  induction args generalizing base with
  | nil => simpa [TypeSpec.mangleGenericName] using there
  | cons arg rest ih =>
    apply ih (base ++ "__" ++ arg.name.map TypeSpec.mangled)
    left
    simp [String.toList_append]

theorem home_ne_int32 (fits : Fits p r) : home r ≠ .registered "int32" := by
  rcases fits with ⟨params, -, same⟩
  have present : r.typeArgs ≠ [] := by
    intro none_given
    have empty : r.args = [] := by simpa [Request.typeArgs] using none_given
    simp [empty, TypeParamList.typeParam] at same
  have separated := mem_mangled r.base r.typeArgs (.inr present)
  intro place
  have named : r.mangledName = "int32" := by
    by_cases func : r.kind = .func
    · rw [InstanceCache.home_func func] at place
      cases place
    · rw [InstanceCache.home_type func] at place
      exact Slot.registered.inj place
  rw [← Request.mangledName, named] at separated
  exact absurd separated (by decide)

theorem arguments_of_same (same : r.kind = r'.kind ∧ r.base = r'.base ∧ r.typeArgs = r'.typeArgs) :
    p.arguments r = p.arguments r' := by
  rcases same with ⟨kind, base, typeArgs⟩
  simp only [Program.arguments, kind, base, typeArgs]

theorem Kept.enforced (kept : Kept p asked run) (distinct : Distinct p asked) :
    FirstEnforced p run := by
  rintro ⟨r, slot⟩ given ⟨r', entry⟩
  rcases kept.returned _ given with ⟨wanted, fits, place⟩
  rcases kept.instances _ _ entry with ⟨place', passed⟩
  dsimp only at place place'
  rcases place with own | ⟨type, dynamic⟩ | int32
  · have same := distinct r r' wanted passed.asked fits passed.fits (own.symm.trans place')
    rw [arguments_of_same same]
    exact passed.satisfied
  · rw [dynamic] at entry
    cases entry
  · exact absurd (place'.symm.trans int32) (home_ne_int32 passed.fits)

end Invariant

section Enforcement

/-- In every run, the instances that are given out satisfy the first constraint of each of
their parameters, where it is not a type and no two requests get in each other's way. -/
theorem first_constraints_enforced (p : Program) (events : List Event)
    (distinct : Distinct p fun r => .requested r ∈ events) :
    FirstEnforced p (Run.initial.after p events) :=
  (kept_initial.after events fun _ there => there).enforced distinct

end Enforcement

section Example

/-! `struct Sample<T: numeric + signed>` of a `uint32`. -/

def samples : Program where
  checker := { Traits.points with
    typeKind := fun type => .integer (type.name ≠ "uint32") }
  canonical name := name
  templates kind base :=
    if kind = .struct ∧ base = "Sample" then some ⟨⟨"T", ["numeric", "signed"]⟩, []⟩ else none

def sample : Request := ⟨.struct, "Sample", [(.registry "uint32", 0)]⟩

def sampled : List Event :=
  [.typeDeclared "uint32", .requested sample, .checked, .checked,
    .registered (.registry "Sample__uint32"), .finished]

/-- The run that gives a `Sample<uint32>` out. -/
def sampling : Run := Run.initial.after samples sampled

theorem sampled_distinct : Distinct samples fun r => .requested r ∈ sampled := by
  intro r r' wanted wanted' _ _ _
  have own : r = sample := by simpa [sampled] using wanted
  have own' : r' = sample := by simpa [sampled] using wanted'
  simp [own, own']

theorem first_constraints_enforced_sample : FirstEnforced samples sampling :=
  first_constraints_enforced samples sampled sampled_distinct

/-- The second constraint is not looked at. -/
theorem second_constraint_ignored :
    sampling.errors = [] ∧ (sample, home sample) ∈ sampling.returned ∧
      ¬ Enforced samples sampling := by
  have returned : sampling.returned = [(sample, home sample)] := rfl
  have given : (sample, home sample) ∈ sampling.returned := by
    rw [returned]
    exact mem_singleton_self _
  have made : sampling.Instance (home sample) := by
    have left : ∃ s, sampling.tables =
        (State.register s sample (.registry "Sample__uint32")).leave sample := ⟨_, rfl⟩
    rcases left with ⟨s, left⟩
    refine ⟨sample, ?_⟩
    rw [left, InstanceCache.leave_origin]
    exact (InstanceCache.origin_register s sample _).1
  refine ⟨rfl, given, ?_⟩
  intro enforced
  have satisfied := enforced _ given made (⟨"T", ["numeric", "signed"]⟩, .registry "uint32")
    (mem_singleton_self _) "signed" (by simp)
  cases satisfied with
  | any every => simp at every
  | kind entry named accepted =>
    cases named
    cases accepted
  | trait trait other => cases other
  | type other => cases other

end Example

end Lucis.Constraints
