import Lucis.GenericTypes

/-!
Traits and their impls: `checkTraitDecl`, `checkImplDecl` and `findTraitMethodImpl` of
checkers/Checker_decl.cpp over the tables of types/TraitRegistry.cpp. A declaration is met
once, by its node in the syntax tree, in the module it belongs to; the layers of a type,
which the code resolves and drops, are kept here beside it. The set
`implementedTraits` of a type and the templates of generic impls are read by nothing here.
-/

namespace Lucis.Traits

open Programs List Option
open TypeSpec (Name Spec Ref Env)
open Generics (TypeTemplateKind update resolveTypeSpecWithSubst)
open GenericTypes (kindOf value)

section Declarations

inductive TypeKind where
  | integer (isSigned : Bool)
  | float
  | bool
  | string
  | struct
  | union
  | enum
  | other
  deriving DecidableEq

/-- A type as it is written in a signature; `none` is `auto`. -/
abbrev Written := Option Spec

/-- A method has `&self`, or is static. -/
structure Method where
  name : Name
  selfReceiver : Bool
  params : List Written
  ret : Written

structure TraitDecl where
  node : Nat
  name : Name
  typeParams : Option (List Name)
  methods : List Method

structure ImplDecl where
  node : Nat
  typeParams : Option (List Name)
  trait : Spec
  type : Spec
  methods : List Method

/-- A resolved type with its layers; `none` is `nullptr`. -/
abbrev Resolved := Option (Ref × Nat)

structure TraitMethodInfo where
  name : Name
  isStatic : Bool
  paramTypes : List Resolved
  returnType : Resolved

structure TraitInfo where
  name : Name
  modulePath : String
  methods : List TraitMethodInfo
  decl : Option TraitDecl
  builtinValidator : Option (TypeKind → Bool)

structure ImplInfo where
  traitName : Name
  typeName : Name
  methodBodies : List TraitMethodInfo
  modulePath : String

/-- The rest of the checker: the types that each module sees, where `Self` is known in
`extend` blocks only, and the diagnostics of the type resolver. -/
structure Checker where
  env : String → Env
  kind : Name → TypeTemplateKind
  typeKind : Ref → TypeKind
  specError : Spec → String
  no_self : ∀ modulePath, (env modulePath).lookup "Self" = none

structure State where
  traits : Name → Option TraitInfo
  genericTraits : Name → Option TraitDecl
  impls : Name → Name → Option ImplInfo
  processedTraitDecls : List Nat
  processedImplDecls : List Nat

end Declarations

section Registry

/-- `registerBuiltinTraits` -/
def builtinTraits : List (Name × (TypeKind → Bool)) :=
  [("numeric", fun kind => kind = .integer true ∨ kind = .integer false ∨ kind = .float),
    ("integer", fun kind => kind = .integer true ∨ kind = .integer false),
    ("float", fun kind => kind = .float),
    ("signed", fun kind => kind = .integer true),
    ("unsigned", fun kind => kind = .integer false),
    ("bool", fun kind => kind = .bool),
    ("string", fun kind => kind = .string)]

def State.initial : State where
  traits name := (builtinTraits.find? (·.1 = name)).map fun entry =>
    ⟨name, "", [], none, some entry.2⟩
  genericTraits _ := none
  impls _ _ := none
  processedTraitDecls := []
  processedImplDecls := []

def State.registerTrait (s : State) (info : TraitInfo) : State :=
  { s with traits := update s.traits info.name (some info) }

def State.registerImpl (s : State) (info : ImplInfo) : State :=
  let ofTrait := update (s.impls info.traitName) info.typeName (some info)
  { s with impls := fun name => if name = info.traitName then ofTrait else s.impls name }

def State.findImpl (s : State) (traitName typeName : Name) : Option ImplInfo :=
  s.impls traitName typeName

def typeSatisfiesTrait (c : Checker) (s : State) (type : Ref) (trait : TraitInfo) : Bool :=
  match trait.builtinValidator with
  | some validator => validator (c.typeKind type)
  | none => (s.findImpl trait.name type.name).isSome

def findTraitMethodImpl (s : State) (traitName : Name) (type : Ref) (methodName : Name) :
    Option TraitMethodInfo :=
  (s.findImpl traitName type.name).bind fun impl =>
    impl.methodBodies.find? (·.name = methodName)

end Registry

section Checks

variable (c : Checker)

def resolveTypeSpec (env : Env) (spec : Spec) : Resolved := TypeSpec.resolveTypeSpec env spec

def Method.info (resolve : Spec → Resolved) (method : Method) : TraitMethodInfo where
  name := method.name
  isStatic := !method.selfReceiver
  paramTypes := method.params.map fun param => param.bind resolve
  returnType := method.ret.bind resolve

/-- The errors of the resolver along a signature; `auto` is none. -/
def Method.errors (resolve : Spec → Resolved) (method : Method) : List String :=
  (method.ret :: method.params).filterMap fun written => written.bind fun spec =>
    match resolve spec with
    | some _ => none
    | none => some (c.specError spec)

def checkTraitDecl (modulePath : String) (registeringImported : Bool) (decl : TraitDecl)
    (s : State) : List String × State :=
  if decl.node ∈ s.processedTraitDecls then ([], s)
  else
    let s := { s with processedTraitDecls := decl.node :: s.processedTraitDecls }
    if (s.traits decl.name).isSome ∨ (s.genericTraits decl.name).isSome then
      -- first-wins across modules
      (if registeringImported then [] else ["trait '" ++ decl.name ++ "' already defined"], s)
    else
      match decl.typeParams with
      | some _ => ([], { s with genericTraits := update s.genericTraits decl.name (some decl) })
      | none =>
        let resolve := resolveTypeSpec (c.env modulePath)
        (decl.methods.flatMap (Method.errors c resolve),
          s.registerTrait
            ⟨decl.name, modulePath, decl.methods.map (Method.info resolve), some decl, none⟩)

/-- The name of the type, or of the sentinel of a trait, that the trait of an impl resolves to. -/
def traitTypeName (env : Env) (s : State) : Spec → Option Name
  | .generic base args => do
      let types ← TypeSpec.resolveAll env args
      if types.isEmpty then none
      else if (env.template (env.exported base)).isNone ∧
          (s.genericTraits (env.exported base)).isSome then some (env.exported base)
      else (TypeSpec.userGeneric env base types).map Ref.name
  | .base name =>
    match resolveTypeSpec env (.base name) with
    | some (type, _) => some type.name
    | none =>
      if (s.traits name).isSome then some name
      else if (s.traits (env.exported name)).isSome then some (env.exported name)
      else none
  | spec => (resolveTypeSpec env spec).map fun result => result.1.name

def traitArgs : Spec → List Spec
  | .generic _ args => args
  | _ => []

def traitSubst (env : Env) (typeParams : List Name) (args : List Spec) : Name → Option Ref :=
  (typeParams.zip args).foldl
    (fun subst entry =>
      match resolveTypeSpec env entry.2 with
      | some (type, _) => update subst entry.1 (some type)
      | none => subst)
    fun _ => none

def traitResolver (env : Env) (template : TraitDecl) (args : List Spec) (spec : Spec) : Resolved :=
  let typeParams := template.typeParams.getD []
  if typeParams.length = args.length ∧
      args.any fun arg => (resolveTypeSpec env arg).isSome then
    value env (resolveTypeSpecWithSubst env (kindOf env c.kind) (traitSubst env typeParams args) spec)
  else resolveTypeSpec env spec

def traitMethods (env : Env) (s : State) (spec : Spec) (name : Name) :
    Option (List String × List TraitMethodInfo) :=
  match s.traits name with
  | some trait => some ([], trait.methods)
  | none =>
    (s.genericTraits name).map fun template =>
      let resolve := traitResolver c env template (traitArgs spec)
      (template.methods.flatMap (Method.errors c resolve),
        template.methods.map (Method.info resolve))

def checkImplMethods (env : Env) (traitName : Name) (expected : List TraitMethodInfo) :
    List Method → List String × List TraitMethodInfo
  | [] => ([], [])
  | method :: rest =>
    let (errors, infos) := checkImplMethods env traitName expected rest
    match expected.find? (·.name = method.name) with
    | none => (("method '" ++ method.name ++ "' not found in trait '" ++ traitName ++ "'") ::
        errors, infos)
    | some traitMethod =>
      if (!method.selfReceiver) ≠ traitMethod.isStatic then
        (("method '" ++ method.name ++ "' should be " ++
          (if traitMethod.isStatic then "static" else "instance") ++ " to match trait '" ++
          traitName ++ "'") :: errors, infos)
      else (Method.errors c (resolveTypeSpec env) method ++ errors,
        method.info (resolveTypeSpec env) :: infos)

def checkImplDecl (modulePath : String) (decl : ImplDecl) (s : State) : List String × State :=
  if decl.node ∈ s.processedImplDecls then ([], s)
  else
    let s := { s with processedImplDecls := decl.node :: s.processedImplDecls }
    let env := c.env modulePath
    match decl.typeParams with
    | some _ => ([], s)
    | none =>
      match traitTypeName env s decl.trait with
      | none => ([c.specError decl.trait, "unknown trait type in impl declaration"], s)
      | some name =>
        match traitMethods c env s decl.trait name with
        | none => (["'" ++ name ++ "' is not a trait"], s)
        | some (traitErrors, expected) =>
          match resolveTypeSpec env decl.type with
          | none => (traitErrors ++
              [c.specError decl.type, "unknown type in impl declaration"], s)
          | some (implTI, _) =>
            if c.typeKind implTI ≠ .struct ∧ c.typeKind implTI ≠ .union ∧
                c.typeKind implTI ≠ .enum then
              (traitErrors ++ ["cannot implement trait for primitive type '" ++
                implTI.name ++ "'"], s)
            else
              let (errors, infos) := checkImplMethods c env name expected decl.methods
              (traitErrors ++ errors,
                s.registerImpl ⟨name, implTI.name, infos, modulePath⟩)

end Checks

section Conformance

variable (c : Checker)

inductive Declaration where
  | trait (modulePath : String) (registeringImported : Bool) (decl : TraitDecl)
  | impl (modulePath : String) (decl : ImplDecl)

def check : Declaration → State → List String × State
  | .trait modulePath registeringImported decl, s =>
    checkTraitDecl c modulePath registeringImported decl s
  | .impl modulePath decl, s => checkImplDecl c modulePath decl s

def declare (declaration : Declaration) (s : State) : Option (Unit × State) :=
  if (check c declaration s).1 = [] then some ((), (check c declaration s).2) else none

def sequence : List Declaration → Prog Declaration Unit Unit
  | [] => .pure ()
  | declaration :: rest => .act declaration fun _ => sequence rest

/-- What a module sees where `Self` stands for a type. -/
def withSelf (env : Env) (self : Ref) : Env :=
  { env with lookup := fun name => if name = "Self" then some self.name else env.lookup name }

/-- An implementation with the receiver, the parameters and the return type that a trait
declares. -/
structure Implements (env : Env) (method : Method) (info : TraitMethodInfo) : Prop where
  receiver : info.isStatic = !method.selfReceiver
  params : info.paramTypes = method.params.map fun param => param.bind (resolveTypeSpec env)
  ret : info.returnType = method.ret.bind (resolveTypeSpec env)

/-- A type that satisfies a trait of the user has an implementation of each of its methods. -/
def Sound (s : State) : Prop :=
  ∀ name trait decl, s.traits name = some trait → trait.decl = some decl →
    ∀ type, typeSatisfiesTrait c s type trait = true →
      ∀ method ∈ decl.methods, ∃ info,
        findTraitMethodImpl s trait.name type method.name = some info ∧
        Implements (withSelf (c.env trait.modulePath) type) method info

/-- The first method of a name in an impl has the types of the method of a trait, each in its
module. -/
def Provides (methods : List Method) (env traitEnv : Env) (method : Method) : Prop :=
  ∃ provided, methods.find? (·.name = method.name) = some provided ∧
    (provided.params.map fun param => param.bind (resolveTypeSpec env)) =
      (method.params.map fun param => param.bind (resolveTypeSpec traitEnv)) ∧
    provided.ret.bind (resolveTypeSpec env) = method.ret.bind (resolveTypeSpec traitEnv)

/-- An impl of a declared trait has all its methods, and a method that the trait declares twice
has one receiver. -/
def Complete (s : State) (modulePath : String) (decl : ImplDecl) : Prop :=
  decl.node ∉ s.processedImplDecls → decl.typeParams = none →
    ∀ name trait traitDecl, traitTypeName (c.env modulePath) s decl.trait = some name →
      s.traits name = some trait → trait.decl = some traitDecl →
      ∀ method ∈ traitDecl.methods,
        Provides decl.methods (c.env modulePath) (c.env trait.modulePath) method ∧
        ∀ first, traitDecl.methods.find? (·.name = method.name) = some first →
          first.selfReceiver = method.selfReceiver

def Conforming (declaration : Declaration) (s : State) : Prop :=
  (declare c declaration s).isSome → match declaration with
    | .trait _ _ _ => True
    | .impl modulePath decl => Complete c s modulePath decl

end Conformance

section SelfTypes

variable {env : Env}

theorem lookup_withSelf (unknown : env.lookup "Self" = none) (self : Ref) {name entry : Name}
    (known : env.lookup name = some entry) : (withSelf env self).lookup name = some entry := by
  have other : name ≠ "Self" := by
    rintro rfl
    rw [unknown] at known
    cases known
  exact (if_neg other).trans known

mutual

/-- Where `Self` is unknown, what resolves does not speak of it. -/
theorem resolveFrom_withSelf (unknown : env.lookup "Self" = none) (self : Ref) (n : Nat)
    (spec : Spec) {result : Ref × Nat} (resolved : TypeSpec.resolveFrom env n spec = some result) :
    TypeSpec.resolveFrom (withSelf env self) n spec = some result := by
  match spec with
  | .array elem =>
    rw [TypeSpec.resolveFrom] at resolved ⊢
    exact resolveFrom_withSelf unknown self (n + 1) elem resolved
  | .volatile inner =>
    rw [TypeSpec.resolveFrom] at resolved ⊢
    split at resolved
    · next type dims found =>
      rw [resolveFrom_withSelf unknown self 0 inner found]
      exact resolved
    · cases resolved
  | .pointer inner =>
    rw [TypeSpec.resolveFrom] at resolved ⊢
    split at resolved
    · next type dims found =>
      rw [resolveFrom_withSelf unknown self 0 inner found]
      exact resolved
    · cases resolved
  | .function params ret =>
    rw [TypeSpec.resolveFrom] at resolved ⊢
    split at resolved
    · next type dims types found others =>
      rw [resolveFrom_withSelf unknown self 0 ret found,
        resolveAll_withSelf unknown self params others]
      exact resolved
    · cases resolved
  | .tuple elems =>
    rw [TypeSpec.resolveFrom] at resolved ⊢
    split at resolved
    · next types found =>
      rw [resolveAll_withSelf unknown self elems found]
      exact resolved
    · cases resolved
  | .builtin base args =>
    rw [TypeSpec.resolveFrom] at resolved ⊢
    split at resolved
    · next types found =>
      rw [resolveAll_withSelf unknown self args found]
      exact resolved
    · cases resolved
  | .generic base args =>
    rw [TypeSpec.resolveFrom] at resolved ⊢
    split at resolved
    · next types found =>
      rw [resolveAll_withSelf unknown self args found]
      exact resolved
    · cases resolved
  | .base name =>
    rw [TypeSpec.resolveFrom] at resolved ⊢
    split at resolved
    · next special =>
      obtain ⟨entry, known, made⟩ := map_eq_some_iff.1 resolved
      rw [if_pos special, lookup_withSelf unknown self known, ← made]
      rfl
    · next other =>
      obtain ⟨entry, known, made⟩ := map_eq_some_iff.1 resolved
      rw [if_neg other, lookup_withSelf unknown self known, ← made]
      rfl

theorem resolveAll_withSelf (unknown : env.lookup "Self" = none) (self : Ref)
    (specs : List Spec) {types : List Ref} (resolved : TypeSpec.resolveAll env specs = some types) :
    TypeSpec.resolveAll (withSelf env self) specs = some types := by
  match specs with
  | [] => exact resolved
  | spec :: rest =>
    rw [TypeSpec.resolveAll] at resolved ⊢
    split at resolved
    · next type dims types found others =>
      rw [resolveFrom_withSelf unknown self 0 spec found,
        resolveAll_withSelf unknown self rest others]
      exact resolved
    · cases resolved

end

/-- A signature whose types all resolve is the same with `Self` for a type. -/
theorem written_withSelf (unknown : env.lookup "Self" = none) (self : Ref) {written : Written}
    (resolved : ∀ spec, written = some spec → resolveTypeSpec env spec ≠ none) :
    written.bind (resolveTypeSpec (withSelf env self)) = written.bind (resolveTypeSpec env) := by
  cases written with
  | none => rfl
  | some spec =>
    obtain ⟨result, found⟩ := ne_none_iff_exists'.1 (resolved spec rfl)
    rw [bind_some, bind_some, found]
    exact resolveFrom_withSelf unknown self 0 spec found

end SelfTypes

section Steps

variable {c : Checker}

/-- The types of a signature all resolve, where `auto` is none. -/
def Method.Resolves (env : Env) (method : Method) : Prop :=
  ∀ written ∈ method.ret :: method.params, ∀ spec, written = some spec →
    resolveTypeSpec env spec ≠ none

variable {methods : List Method} {env : Env}

theorem resolves_of_errors (clean : methods.flatMap (Method.errors c (resolveTypeSpec env)) = []) :
    ∀ method ∈ methods, method.Resolves env := by
  intro method member written among spec same missing
  rw [flatMap_eq_nil_iff] at clean
  have none_left := filterMap_eq_nil_iff.1 (clean method member) written among
  rw [same, bind_some, missing] at none_left
  cases none_left

structure Registered (c : Checker) (s : State) : Prop where
  named : ∀ {name trait}, s.traits name = some trait → trait.name = name
  declared : ∀ {name trait decl}, s.traits name = some trait → trait.decl = some decl →
    trait.builtinValidator = none ∧
      trait.methods = decl.methods.map (Method.info (resolveTypeSpec (c.env trait.modulePath))) ∧
      ∀ method ∈ decl.methods, method.Resolves (c.env trait.modulePath)
  known : ∀ {name type impl}, s.impls name type = some impl →
    (s.traits name).isSome ∨ (s.genericTraits name).isSome

theorem initial_registered : Registered c .initial where
  named := by
    intro name trait found
    obtain ⟨entry, _, made⟩ := map_eq_some_iff.1 found
    rw [← made]
  declared := by
    intro name trait decl found written
    obtain ⟨entry, member, made⟩ := map_eq_some_iff.1 found
    rw [← made] at written
    cases written
  known := by
    intro name type impl found
    cases found

theorem initial_sound : Sound c .initial := by
  intro name trait decl found written
  obtain ⟨entry, member, made⟩ := map_eq_some_iff.1 found
  rw [← made] at written
  cases written

theorem traitDecl_cases {modulePath : String} {registeringImported : Bool} {decl : TraitDecl}
    {s : State} (accepted : (checkTraitDecl c modulePath registeringImported decl s).1 = []) :
    ∃ nodes, let marked : State := { s with processedTraitDecls := nodes }
      let after := (checkTraitDecl c modulePath registeringImported decl s).2
      after = marked ∨
        (s.traits decl.name = none ∧ s.genericTraits decl.name = none ∧
          (after = { marked with
              genericTraits := update s.genericTraits decl.name (some decl) } ∨
            (∀ method ∈ decl.methods, method.Resolves (c.env modulePath)) ∧
              after = marked.registerTrait ⟨decl.name, modulePath,
                decl.methods.map (Method.info (resolveTypeSpec (c.env modulePath))), some decl,
                none⟩)) := by
  unfold checkTraitDecl at accepted ⊢
  by_cases met : decl.node ∈ s.processedTraitDecls
  · rw [if_pos met]
    exact ⟨s.processedTraitDecls, .inl rfl⟩
  · rw [if_neg met] at accepted ⊢
    refine ⟨decl.node :: s.processedTraitDecls, ?_⟩
    dsimp only at accepted ⊢
    by_cases taken : (s.traits decl.name).isSome ∨ (s.genericTraits decl.name).isSome
    · rw [if_pos taken]
      exact .inl rfl
    · rw [if_neg taken] at accepted ⊢
      obtain ⟨no_trait, no_template⟩ := not_or.1 taken
      refine .inr ⟨by simpa using no_trait, by simpa using no_template, ?_⟩
      cases params : decl.typeParams with
      | some typeParams => exact .inl rfl
      | none =>
        rw [params] at accepted
        exact .inr ⟨resolves_of_errors accepted, rfl⟩

theorem checkImplMethods_clean {traitName : Name} {expected}
    (clean : (checkImplMethods c env traitName expected methods).1 = []) :
    (checkImplMethods c env traitName expected methods).2 =
        methods.map (Method.info (resolveTypeSpec env)) ∧ ∀ method ∈ methods, ∃ traitMethod,
        expected.find? (·.name = method.name) = some traitMethod ∧
        traitMethod.isStatic = !method.selfReceiver := by
  induction methods with
  | nil => exact ⟨rfl, nofun⟩
  | cons method rest ih =>
    rw [checkImplMethods] at clean ⊢
    dsimp only at clean ⊢
    split at clean
    · cases clean
    · next traitMethod found =>
      split at clean
      · cases clean
      · next same =>
        rw [if_neg same]
        obtain ⟨_, later⟩ := append_eq_nil_iff.1 clean
        obtain ⟨infos, receivers⟩ := ih later
        refine ⟨by rw [infos, map_cons], forall_mem_cons.2 ⟨?_, receivers⟩⟩
        exact ⟨traitMethod, found, (not_not.1 same).symm⟩

/-- An accepted impl changes nothing but the set of nodes, or it is registered under the name of
a trait, or of a template of traits, with all of its methods. -/
theorem implDecl_cases {modulePath : String} {decl : ImplDecl} {s : State}
    (accepted : (checkImplDecl c modulePath decl s).1 = []) :
    (∃ nodes, (checkImplDecl c modulePath decl s).2 = { s with processedImplDecls := nodes } ∧
        (decl.node ∈ s.processedImplDecls ∨ decl.typeParams ≠ none)) ∨
      decl.node ∉ s.processedImplDecls ∧ decl.typeParams = none ∧
        ∃ nodes name errors expected implTI dims,
          traitTypeName (c.env modulePath) s decl.trait = some name ∧
          traitMethods c (c.env modulePath) s decl.trait name = some (errors, expected) ∧
          resolveTypeSpec (c.env modulePath) decl.type = some (implTI, dims) ∧
          (∀ method ∈ decl.methods, ∃ traitMethod,
            expected.find? (·.name = method.name) = some traitMethod ∧
            traitMethod.isStatic = !method.selfReceiver) ∧ (checkImplDecl c modulePath decl s).2 =
            State.registerImpl { s with processedImplDecls := nodes } ⟨name, implTI.name,
              decl.methods.map (Method.info (resolveTypeSpec (c.env modulePath))), modulePath⟩ := by
  unfold checkImplDecl at accepted ⊢
  by_cases met : decl.node ∈ s.processedImplDecls
  · rw [if_pos met]
    exact .inl ⟨s.processedImplDecls, rfl, .inl met⟩
  · rw [if_neg met] at accepted ⊢
    dsimp only at accepted ⊢
    cases params : decl.typeParams with
    | some typeParams => exact .inl ⟨_, rfl, .inr (some_ne_none _)⟩
    | none =>
      rw [params] at accepted
      have same : traitTypeName (c.env modulePath)
          { s with processedImplDecls := decl.node :: s.processedImplDecls } decl.trait =
          traitTypeName (c.env modulePath) s decl.trait := by
        cases decl.trait <;> rfl
      dsimp only at accepted ⊢
      rw [same] at accepted ⊢
      split at accepted
      · cases accepted
      · next name named =>
        split at accepted
        · cases accepted
        · next errors expected methods =>
          split at accepted
          · simp at accepted
          · next implTI dims resolved =>
            split at accepted
            · simp at accepted
            · next implementable =>
              obtain ⟨_, clean⟩ := append_eq_nil_iff.1 accepted
              obtain ⟨infos, receivers⟩ := checkImplMethods_clean clean
              refine .inr ⟨met, rfl, decl.node :: s.processedImplDecls, name, errors, expected,
                implTI, dims, named, methods, resolved, receivers, ?_⟩
              rw [if_neg implementable]
              dsimp only
              rw [infos]

theorem find_info (resolve : Spec → Resolved) (methods : List Method) (name : Name) :
    (methods.map (Method.info resolve)).find? (·.name = name) =
      (methods.find? (·.name = name)).map (Method.info resolve) := by
  rw [find?_map]
  rfl

/-- What is registered of an accepted impl implements a method of the trait just if the impl
provides it; the receiver has been checked against the first method of its name. -/
theorem implemented_iff {traitEnv : Env} {traitDecl : TraitDecl}
    {method : Method} (type : Ref) (unknown : traitEnv.lookup "Self" = none)
    (resolves : method.Resolves traitEnv) (receivers : ∀ method ∈ methods, ∃ traitMethod,
      (traitDecl.methods.map (Method.info (resolveTypeSpec traitEnv))).find?
        (·.name = method.name) = some traitMethod ∧ traitMethod.isStatic = !method.selfReceiver) :
    (∃ info, (methods.map (Method.info (resolveTypeSpec env))).find? (·.name = method.name) =
        some info ∧ Implements (withSelf traitEnv type) method info) ↔
      Provides methods env traitEnv method ∧
        ∀ first, traitDecl.methods.find? (·.name = method.name) = some first →
          first.selfReceiver = method.selfReceiver := by
  have params : (method.params.map fun param =>
      param.bind (resolveTypeSpec (withSelf traitEnv type))) =
      method.params.map fun param => param.bind (resolveTypeSpec traitEnv) := by
    apply map_congr_left
    intro param member
    exact written_withSelf unknown type (resolves param (.tail _ member))
  have ret := written_withSelf unknown type (resolves method.ret (.head _))
  -- the receiver of a provided method is that of the first one of its name in the trait
  have checked : ∀ provided, methods.find? (·.name = method.name) = some provided →
      ∃ first, traitDecl.methods.find? (·.name = method.name) = some first ∧
        first.selfReceiver = provided.selfReceiver := by
    intro provided found
    have named : provided.name = method.name := by simpa using find?_some found
    obtain ⟨traitMethod, expected, same⟩ := receivers provided (mem_of_find?_eq_some found)
    rw [named, find_info] at expected
    obtain ⟨first, at_name, rfl⟩ := map_eq_some_iff.1 expected
    exact ⟨first, at_name, by simpa [Method.info] using same⟩
  rw [find_info]
  constructor
  · rintro ⟨info, found, implements⟩
    obtain ⟨provided, at_name, rfl⟩ := map_eq_some_iff.1 found
    refine ⟨⟨provided, at_name, implements.params.trans params, implements.ret.trans ret⟩, ?_⟩
    intro first expected
    obtain ⟨other, same_name, same⟩ := checked provided at_name
    rw [expected] at same_name
    cases same_name
    rw [same]
    simpa [Method.info] using implements.receiver
  · rintro ⟨⟨provided, at_name, same_params, same_ret⟩, once⟩
    obtain ⟨first, expected, same⟩ := checked provided at_name
    refine ⟨provided.info (resolveTypeSpec env), map_eq_some_iff.2 ⟨provided, at_name, rfl⟩,
      ?_, same_params.trans params.symm, same_ret.trans ret.symm⟩
    rw [Method.info, ← same, once first expected]

end Steps

section Runs

variable {c : Checker} {s : State} {declaration : Declaration} {s' : State}

theorem declare_accepted (declared : declare c declaration s = some ((), s')) :
    (check c declaration s).1 = [] ∧ s' = (check c declaration s).2 := by
  unfold declare at declared
  split at declared
  · next clean =>
    cases declared
    exact ⟨clean, rfl⟩
  · cases declared

variable {name : Name}

theorem registered_trait {info : TraitInfo} :
    (s.registerTrait info).traits name = if name = info.name then some info else s.traits name :=
  rfl

theorem registered_impl {nodes : List Nat} {info : ImplInfo} {type : Name} :
    (State.registerImpl { s with processedImplDecls := nodes } info).impls name type =
      if name = info.traitName ∧ type = info.typeName then some info else s.impls name type := by
  unfold State.registerImpl
  dsimp only
  by_cases same : name = info.traitName
  · subst same
    by_cases here : type = info.typeName
    · subst here
      rw [if_pos rfl, if_pos ⟨rfl, rfl⟩, Generics.update_self]
    · rw [if_pos rfl, if_neg fun both => here both.2, Generics.update_ne here]
  · rw [if_neg same, if_neg fun both => same both.1]

theorem traitMethods_known {env : Env} {spec : Spec} {methods}
    (found : traitMethods c env s spec name = some methods) :
    (s.traits name).isSome ∨ (s.genericTraits name).isSome := by
  unfold traitMethods at found
  cases known : s.traits name with
  | some trait => exact .inl rfl
  | none =>
    rw [known] at found
    obtain ⟨template, generic, _⟩ := map_eq_some_iff.1 found
    exact .inr (isSome_of_mem generic)

variable (registered : Registered c s)
include registered

theorem registered_kept
    (declared : declare c declaration s = some ((), s')) : Registered c s' := by
  obtain ⟨clean, rfl⟩ := declare_accepted declared
  cases declaration with
  | trait modulePath registeringImported decl =>
    obtain ⟨nodes, same | ⟨_, no_template, same | ⟨resolves, same⟩⟩⟩ :=
      traitDecl_cases clean
    · rw [check, same]
      exact ⟨registered.named, registered.declared, registered.known⟩
    · rw [check, same]
      refine ⟨registered.named, registered.declared, ?_⟩
      intro name type impl found
      rcases registered.known found with trait | template
      · exact .inl trait
      · -- a template of the name would have been in the way
        have other : name ≠ decl.name := by
          rintro rfl
          rw [no_template] at template
          cases template
        right
        dsimp only
        rw [Generics.update_ne other]
        exact template
    · rw [check, same]
      refine ⟨?_, ?_, ?_⟩
      · intro name trait found
        rw [registered_trait] at found
        split at found
        · next new =>
          cases found
          exact new.symm
        · exact registered.named found
      · intro name trait traitDecl found written
        rw [registered_trait] at found
        split at found
        · cases found
          cases written
          exact ⟨rfl, rfl, resolves⟩
        · exact registered.declared found written
      · intro name type impl found
        rcases registered.known found with trait | template
        · left
          rw [registered_trait]
          split
          · rfl
          · exact trait
        · exact .inr template
  | impl modulePath decl =>
    rcases implDecl_cases clean with ⟨nodes, same, _⟩ | ⟨_, _, nodes, name, errors, expected,
      implTI, dims, _, methods, _, _, same⟩
    · rw [check, same]
      exact ⟨registered.named, registered.declared, registered.known⟩
    · rw [check, same]
      refine ⟨registered.named, registered.declared, ?_⟩
      intro other type impl found
      rw [registered_impl] at found
      split at found
      · next here =>
        obtain ⟨rfl, _⟩ := here
        exact traitMethods_known methods
      · exact registered.known found

theorem impl_sound_iff {nodes : List Nat}
    {modulePath : String} {decl : ImplDecl} {errors}
    {expected} {trait : TraitInfo} {traitDecl : TraitDecl}
    (methods : traitMethods c (c.env modulePath) s decl.trait name = some (errors, expected))
    (receivers : ∀ method ∈ decl.methods, ∃ traitMethod,
      expected.find? (·.name = method.name) = some traitMethod ∧
      traitMethod.isStatic = !method.selfReceiver)
    (known : s.traits name = some trait) (written : trait.decl = some traitDecl)
    {type implTI : Ref} (named : type.name = implTI.name) {method : Method}
    (member : method ∈ traitDecl.methods) :
    (∃ info, findTraitMethodImpl (State.registerImpl { s with processedImplDecls := nodes }
          ⟨name, implTI.name, decl.methods.map (Method.info (resolveTypeSpec (c.env modulePath))),
            modulePath⟩) name type method.name = some info ∧
        Implements (withSelf (c.env trait.modulePath) type) method info) ↔
      Provides decl.methods (c.env modulePath) (c.env trait.modulePath) method ∧
        ∀ first, traitDecl.methods.find? (·.name = method.name) = some first →
          first.selfReceiver = method.selfReceiver := by
  obtain ⟨_, infos, resolves⟩ := registered.declared known written
  have same_methods : trait.methods = expected := by
    unfold traitMethods at methods
    rw [known] at methods
    cases methods
    rfl
  rw [← same_methods, infos] at receivers
  rw [← implemented_iff type (c.no_self trait.modulePath) (resolves method member) receivers]
  unfold findTraitMethodImpl State.findImpl
  rw [registered_impl, if_pos ⟨rfl, named⟩]
  rfl

theorem sound_kept (sound : Sound c s) (conforming : Conforming c declaration s)
    (declared : declare c declaration s = some ((), s')) : Sound c s' := by
  have accepted : (declare c declaration s).isSome := by
    rw [declared]
    rfl
  have condition := conforming accepted
  obtain ⟨clean, rfl⟩ := declare_accepted declared
  cases declaration with
  | trait modulePath registeringImported decl =>
    obtain ⟨nodes, same | ⟨no_trait, no_template, same | ⟨_, same⟩⟩⟩ :=
      traitDecl_cases clean
    · rw [check, same]
      exact sound
    · rw [check, same]
      exact sound
    · rw [check, same]
      intro name trait traitDecl found written type satisfied
      rw [registered_trait] at found
      split at found
      · -- no impl has been registered under the name of a new trait
        cases found
        obtain ⟨impl, there⟩ := isSome_iff_exists.1 satisfied
        rcases registered.known there with trait | template
        · rw [no_trait] at trait
          cases trait
        · rw [no_template] at template
          cases template
      · exact sound name trait traitDecl found written type satisfied
  | impl modulePath decl =>
    rcases implDecl_cases clean with ⟨nodes, same, _⟩ | ⟨fresh, plain, nodes, name, errors,
      expected, implTI, dims, named, methods, _, receivers, same⟩
    · rw [check, same]
      exact sound
    · rw [check, same]
      intro other trait traitDecl found written type satisfied method member
      have own := registered.named found
      obtain ⟨no_validator, _, _⟩ := registered.declared found written
      by_cases here : trait.name = name ∧ type.name = implTI.name
      · obtain ⟨rfl, same_type⟩ := here
        rw [← own] at found
        exact (impl_sound_iff registered methods receivers found written same_type member).mpr
          (condition fresh plain trait.name trait traitDecl named found written method member)
      · have before : typeSatisfiesTrait c s type trait = true := by
          unfold typeSatisfiesTrait at satisfied ⊢
          rw [no_validator] at satisfied ⊢
          unfold State.findImpl at satisfied ⊢
          dsimp only at satisfied ⊢
          rw [registered_impl, if_neg here] at satisfied
          exact satisfied
        obtain ⟨info, at_name, implements⟩ :=
          sound other trait traitDecl found written type before method member
        refine ⟨info, ?_, implements⟩
        unfold findTraitMethodImpl State.findImpl at at_name ⊢
        rw [registered_impl, if_neg here]
        exact at_name

theorem conforming_of_sound
    (after : ∀ s', declare c declaration s = some ((), s') → Sound c s') :
    Conforming c declaration s := by
  intro accepted
  obtain ⟨⟨⟨⟩, s'⟩, declared⟩ := isSome_iff_exists.1 accepted
  have sound := after s' declared
  obtain ⟨clean, rfl⟩ := declare_accepted declared
  cases declaration with
  | trait modulePath registeringImported decl => trivial
  | impl modulePath decl =>
    intro fresh plain name trait traitDecl named found written method member
    rcases implDecl_cases clean with ⟨nodes, _, met | generic⟩ | ⟨_, _, nodes, name', errors,
      expected, implTI, dims, named', methods, _, receivers, same⟩
    · exact absurd met fresh
    · exact absurd plain generic
    · rw [named] at named'
      cases named'
      have own := registered.named found
      obtain ⟨no_validator, _, _⟩ := registered.declared found written
      rw [check, same] at sound
      have satisfied : typeSatisfiesTrait c (State.registerImpl
          { s with processedImplDecls := nodes } ⟨name, implTI.name,
            decl.methods.map (Method.info (resolveTypeSpec (c.env modulePath))), modulePath⟩)
          implTI trait = true := by
        unfold typeSatisfiesTrait State.findImpl
        rw [no_validator, registered_impl, if_pos ⟨own, rfl⟩]
        rfl
      have implemented := sound name trait traitDecl found written implTI satisfied method member
      rw [own] at implemented
      exact (impl_sound_iff registered methods receivers found written rfl member).1 implemented

omit registered

theorem reached_registered {declarations : Prog Declaration Unit Unit}
    (reached : Reaches (declare c) declarations s s') (registered : Registered c s) :
    Registered c s' := by
  induction reached with
  | here => exact registered
  | act declared _ ih => exact ih (registered_kept registered declared)

/-- Along declarations that are accepted, a type that satisfies a trait implements it just where
every impl is complete. -/
theorem conformance_iff (c : Checker) (declarations : List Declaration) :
    (∀ s, Reaches (declare c) (sequence declarations) State.initial s → Sound c s) ↔
      Guarded (declare c) (Conforming c) (sequence declarations) State.initial := by
  constructor
  · intro along
    have needed : ∀ declaration s, (Registered c s ∧ Sound c s) →
        (∀ answer after, declare c declaration s = some (answer, after) →
          Registered c after ∧ Sound c after) → Conforming c declaration s := by
      rintro declaration s ⟨registered, _⟩ after
      apply conforming_of_sound registered
      intro s' declared
      exact (after () s' declared).2
    apply guarded_of_invariant needed
    intro s reached
    exact ⟨reached_registered reached initial_registered, along s reached⟩
  · intro guarded s reached
    have kept : ∀ declaration s answer after, Conforming c declaration s →
        (Registered c s ∧ Sound c s) → declare c declaration s = some (answer, after) →
        Registered c after ∧ Sound c after := by
      rintro declaration s ⟨⟩ after conforming ⟨registered, sound⟩ declared
      exact ⟨registered_kept registered declared, sound_kept registered sound conforming declared⟩
    exact (reached.invariant kept guarded ⟨initial_registered, initial_sound⟩).2

end Runs

section Examples

def points : Checker where
  env _ :=
    { lookup := fun name => if name = "Point" ∨ name = "int32" then some name else none
      isExtended := fun _ => false
      extArity := fun _ => none
      imported := fun _ => false
      exported := fun name => name
      template := fun _ => none
      instantiates := fun _ _ => false }
  kind _ := ⟨.struct, Generics.struct_not_func⟩
  typeKind type := if type.name = "Point" then .struct else .integer true
  specError _ := "unknown type"
  no_self _ := rfl

/-- `trait Shape { fn area(&self) int32; }` -/
def shape : TraitDecl := ⟨0, "Shape", none, [⟨"area", true, [], some (.base "int32")⟩]⟩

/-- `impl Shape for Point {}` -/
def pointShape : ImplDecl := ⟨1, none, .base "Shape", .base "Point", []⟩

theorem point_without_area :
    ∃ s trait, Reaches (declare points)
        (sequence [.trait "main" false shape, .impl "main" pointShape]) State.initial s ∧
      s.traits "Shape" = some trait ∧ trait.decl = some shape ∧
      typeSatisfiesTrait points s (.registry "Point") trait = true ∧
      findTraitMethodImpl s "Shape" (.registry "Point") "area" = none ∧ ¬ Sound points s := by
  refine ⟨(check points (.impl "main" pointShape)
    (check points (.trait "main" false shape) State.initial).2).2, _,
    .act rfl (.act rfl .here), rfl, rfl, rfl, rfl, ?_⟩
  intro sound
  obtain ⟨info, found, _⟩ := sound "Shape" _ shape rfl rfl (.registry "Point") rfl _
    (.head _)
  cases found

end Examples

end Lucis.Traits
