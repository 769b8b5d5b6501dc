import Lucis.TypeTemplates

/-!
The substituting resolver of checkers/Checker_generic.cpp against the plain one of
checkers/Checker_type.cpp, on every form of type specifier but `dyn`. A type is told apart as in
the model of the plain resolver; an instantiation and a lookup give what they give to either of the
two. What they resolve alike has no template of the user's under `Vec`, `Map` or `Set`, the names
that stand for `vec`, `map` and `set`.
-/

namespace Lucis.TypeSubstitution

open List Option

open TypeSpec (Name Ref tupleName collection instantiate)
open Generics (substCollection)
open Monomorph (Length)

inductive Spec where
  /-- primitive and user types, aliases, `Self`, `cstring`, `auto` -/
  | base (name : Name)
  | array (length : Length) (elem : Spec)
  | volatile (inner : Spec)
  /-- `*T`, or `T*` with the star behind -/
  | pointer (behind : Bool) (inner : Spec)
  /-- `!T` -/
  | fallible (success : Spec)
  /-- `!T:E` -/
  | fallibleWith (success error : Spec)
  | function (params : List Spec) (ret : Spec)
  | tuple (elems : List Spec)
  /-- `vec`, `map` and `set` under the names `Vec`, `Map` and `Set` -/
  | builtin (base : Name) (args : List Spec)
  /-- `Name<T, ...>` -/
  | generic (base : Name) (args : List Spec)

/-- What the resolvers ask besides: the generic traits, and which types inherit from `Error`. -/
structure Env extends TypeSpec.Env where
  traitTemplate : Name → Bool
  inheritsError : Ref → Bool

section Resolvers

variable (env : Env)

/-- The type of `!T:E`, with its error type where that resolves. -/
def fallibleType (inner : Ref) (error : Option Ref) : Option Ref :=
  error.bind fun errType =>
    if errType.name = "Error" then some (.dynamic false ("!" ++ inner.name))
    else if env.inheritsError errType then
      some (.dynamic false ("!" ++ inner.name ++ ":" ++ errType.name))
    else none

def userGeneric (base : Name) (args : List Ref) : Option Ref :=
  match env.template (env.exported base) with
  | some arity => instantiate env.toEnv (env.exported base) arity args
  | none =>
    if env.traitTemplate (env.exported base) then some (.dynamic false (env.exported base))
    else if env.imported base then collection env.toEnv base args
    else none

mutual

/-- `resolveTypeSpec`, `arrayDims` layers inside. -/
def resolveFrom (arrayDims : Nat) : Spec → Option (Ref × Nat)
  | .base name =>
    if name = "cstring" then
      (env.lookup "char").map fun entry => (.pointer (.registry entry), arrayDims)
    else (env.lookup name).map fun entry => (.registry entry, arrayDims)
  | .array length elem => if length.positive then resolveFrom (arrayDims + 1) elem else none
  | .volatile inner =>
    (resolveFrom 0 inner).map fun (type, innerDims) =>
      (.dynamic (type.extended env.toEnv) ("volatile " ++ type.name), innerDims)
  | .pointer behind inner =>
    if behind then none
    else (resolveFrom 0 inner).map fun (type, innerDims) => (.pointer type, innerDims)
  | .fallible success =>
    (resolveFrom 0 success).bind fun (type, _) =>
      (fallibleType env type ((env.lookup "Error").map .registry)).map (·, arrayDims)
  | .fallibleWith success error =>
    (resolveFrom 0 success).bind fun (type, _) =>
      (fallibleType env type ((resolveFrom 0 error).map Prod.fst)).map (·, arrayDims)
  | .function params ret =>
    (resolveFrom 0 ret).bind fun (type, _) =>
      (resolveAll params).map fun types => (.function types type, arrayDims)
  | .tuple elems =>
    (resolveAll elems).bind fun types =>
      if 2 ≤ types.length then some (.dynamic false (tupleName types), arrayDims) else none
  | .builtin base args =>
    (resolveAll args).bind fun types =>
      (collection env.toEnv base types).map (·, arrayDims)
  | .generic base args =>
    (resolveAll args).bind fun types =>
      if types.isEmpty then none else (userGeneric env base types).map (·, arrayDims)

def resolveAll : List Spec → Option (List Ref)
  | [] => some []
  | spec :: rest =>
    (resolveFrom 0 spec).bind fun (type, _) => (resolveAll rest).map (type :: ·)

end

def resolveTypeSpec (spec : Spec) : Option (Ref × Nat) := resolveFrom env 0 spec

def bareText : Spec → Option Name
  | .base name => some name
  | .volatile inner => (bareText inner).map ("volatile" ++ ·)
  | _ => none

def arrayLayers : Spec → Nat
  | .array _ elem => arrayLayers elem + 1
  | _ => 0

variable (subst : Name → Option Ref)

/-- `Name<T, ...>` once its arguments are there; `none` where the plain resolver is asked. -/
def substGeneric (base : Name) (types : List Ref) : Option (Option Ref) :=
  match env.template base with
  | some arity => some (instantiate env.toEnv base arity types)
  | none =>
    match env.extArity base with
    | some 1 => some (substCollection env.toEnv base types)
    | some 2 => some (substCollection env.toEnv base types)
    | _ => none

mutual

/-- `resolveTypeSpecWithSubst`: where it has no case, the plain resolver is asked, with the type
parameters as they stand. -/
def resolveTypeSpecWithSubst : Spec → Option (Ref × Nat)
  | .base name =>
    match subst name with
    | some arg => some (arg, 0)
    | none => resolveTypeSpec env (.base name)
  | .array _ elem =>
    (resolveTypeSpecWithSubst elem).map fun (type, _) => (type, arrayLayers elem + 1)
  | .volatile inner =>
    match (bareText (.volatile inner)).bind subst with
    | some arg => some (arg, 0)
    | none => resolveTypeSpec env (.volatile inner)
  | .pointer _ inner =>
    (resolveTypeSpecWithSubst inner).map fun (type, innerDims) => (.pointer type, innerDims)
  | .fallible success => resolveTypeSpec env (.fallible success)
  | .fallibleWith success error => resolveTypeSpec env (.fallibleWith success error)
  | .function params ret =>
    (resolveTypeSpecWithSubst ret).bind fun (type, _) =>
      (resolveAllWithSubst params).map fun types => (.function types type, 0)
  | .tuple elems => resolveTypeSpec env (.tuple elems)
  | .builtin base args =>
    (resolveAllWithSubst args).bind fun types =>
      (substGeneric env base types).elim (resolveTypeSpec env (.builtin base args))
        (Option.map (·, 0))
  | .generic base args =>
    (resolveAllWithSubst args).bind fun types =>
      (substGeneric env base types).elim (resolveTypeSpec env (.generic base args))
        (Option.map (·, 0))

def resolveAllWithSubst : List Spec → Option (List Ref)
  | [] => some []
  | spec :: rest =>
    (resolveTypeSpecWithSubst spec).bind fun (type, _) =>
      (resolveAllWithSubst rest).map (type :: ·)

end

end Resolvers

section Replacement

variable (args : Name → Option Spec)

mutual

def replaced : Spec → Spec
  | .base name => (args name).getD (.base name)
  | .array length elem => .array length (replaced elem)
  | .volatile inner => .volatile (replaced inner)
  | .pointer behind inner => .pointer behind (replaced inner)
  | .fallible success => .fallible (replaced success)
  | .fallibleWith success error => .fallibleWith (replaced success) (replaced error)
  | .function params ret => .function (replacedAll params) (replaced ret)
  | .tuple elems => .tuple (replacedAll elems)
  | .builtin base parts => .builtin base (replacedAll parts)
  | .generic base parts => .generic base (replacedAll parts)

def replacedAll : List Spec → List Spec
  | [] => []
  | spec :: rest => replaced spec :: replacedAll rest

end

/-- The layers that the plain resolver counts, from `outer` on. -/
def layers (outer : Nat) : Spec → Nat
  | .array _ elem => layers (outer + 1) elem
  | .volatile inner => layers 0 inner
  | .pointer _ inner => layers 0 inner
  | _ => outer

def substLayers : Spec → Nat
  | .array _ elem => arrayLayers elem + 1
  | .volatile inner => layers 0 inner
  | .pointer _ inner => substLayers inner
  | _ => 0

variable (env : Env)

def typeOf (spec : Spec) : Option Ref := (resolveTypeSpec env spec).map Prod.fst

def Resolves (subst : Name → Option Ref) : Prop :=
  ∀ name, (args name = none ∧ subst name = none) ∨
    ∃ spec type, args name = some spec ∧ subst name = some type ∧
      resolveTypeSpec env spec = some (type, 0)

def SameCollection (base : Name) (parts : List Spec) : Prop :=
  env.extArity base = some 1 → base = "Vec" ∨ base = "Map" ∨ base = "Set" ∨
    ∀ elem ∈ parts, ∀ type, typeOf env (replaced args elem) = some type →
      type.extended env.toEnv = false

mutual

/-- The type parameters are where the substituting resolver looks for them, and there is nothing
in the specifier that it treats in another way. -/
def Carried : Spec → Prop
  | .base _ => True
  | .array length elem => length.positive = true ∧ Carried elem
  | .pointer behind inner => behind = false ∧ Carried inner
  | .volatile inner => (bareText (.volatile inner)).bind args = none ∧ replaced args inner = inner
  | .fallible success => replaced args success = success
  | .fallibleWith success error => replaced args success = success ∧ replaced args error = error
  | .function params ret => CarriedAll params ∧ Carried ret
  | .tuple elems => replacedAll args elems = elems
  | .builtin base parts =>
    env.template base = none ∧ CarriedAll parts ∧ SameCollection args env base parts
  | .generic base parts =>
    parts ≠ [] ∧ CarriedAll parts ∧
      if (env.template base).isSome then env.exported base = base
      else if env.extArity base = some 1 ∨ env.extArity base = some 2 then
        env.template (env.exported base) = none ∧ env.traitTemplate (env.exported base) = false ∧
          env.imported base = true ∧ SameCollection args env base parts
      else replacedAll args parts = parts

def CarriedAll : List Spec → Prop
  | [] => True
  | spec :: rest => Carried spec ∧ CarriedAll rest

end

def Mirrored (spec : Spec) : Prop :=
  Carried args env spec ∧ substLayers spec = layers 0 (replaced args spec)

end Replacement

section Types

variable (env : Env)

-- the equations are derived here once, before the proofs that rewrite with them run side by side
attribute [local simp] resolveFrom resolveAll

theorem typeOf_base (name : Name) : typeOf env (.base name) =
    if name = "cstring" then (env.lookup "char").map fun entry => .pointer (.registry entry)
    else (env.lookup name).map .registry := by
  rw [typeOf, resolveTypeSpec, resolveFrom]
  split
  · rw [Option.map_map]
    rfl
  · rw [Option.map_map]
    rfl

theorem resolveFrom_eq (n : Nat) (spec : Spec) :
    resolveFrom env n spec = (typeOf env spec).map fun type => (type, layers n spec) := by
  cases spec with
  | base name =>
    rw [typeOf_base, resolveFrom]
    split <;> rw [Option.map_map] <;> rfl
  | array length elem =>
    have deeper := resolveFrom_eq (n + 1) elem
    have first := resolveFrom_eq 1 elem
    rw [typeOf, resolveTypeSpec, resolveFrom, resolveFrom, zero_add]
    by_cases positive : length.positive = true
    · rw [if_pos positive, if_pos positive, deeper, first, Option.map_map, Option.map_map]
      rfl
    · rw [if_neg positive, if_neg positive]
      rfl
  | volatile inner =>
    have part := resolveFrom_eq 0 inner
    rw [typeOf, resolveTypeSpec, resolveFrom, resolveFrom, part]
    cases typeOf env inner <;> rfl
  | pointer behind inner =>
    have part := resolveFrom_eq 0 inner
    rw [typeOf, resolveTypeSpec, resolveFrom, resolveFrom, part]
    cases behind with
    | true => rfl
    | false => cases typeOf env inner <;> rfl
  | fallible success =>
    rw [typeOf, resolveTypeSpec, resolveFrom, resolveFrom]
    cases resolveFrom env 0 success with
    | none => rfl
    | some result =>
      rcases result with ⟨type, dims⟩
      rw [bind_some, bind_some]
      dsimp only
      cases fallibleType env type _ <;> rfl
  | fallibleWith success error =>
    rw [typeOf, resolveTypeSpec, resolveFrom, resolveFrom]
    cases resolveFrom env 0 success with
    | none => rfl
    | some result =>
      rcases result with ⟨type, dims⟩
      rw [bind_some, bind_some]
      dsimp only
      cases fallibleType env type _ <;> rfl
  | function params ret =>
    rw [typeOf, resolveTypeSpec, resolveFrom, resolveFrom]
    cases resolveFrom env 0 ret with
    | none => rfl
    | some result => cases resolveAll env params <;> rfl
  | tuple elems =>
    rw [typeOf, resolveTypeSpec, resolveFrom, resolveFrom]
    cases resolveAll env elems with
    | none => rfl
    | some types =>
      rw [bind_some, bind_some]
      split <;> rfl
  | builtin base parts =>
    rw [typeOf, resolveTypeSpec, resolveFrom, resolveFrom]
    cases resolveAll env parts with
    | none => rfl
    | some types =>
      rw [bind_some, bind_some]
      cases collection env.toEnv base types <;> rfl
  | generic base parts =>
    rw [typeOf, resolveTypeSpec, resolveFrom, resolveFrom]
    cases resolveAll env parts with
    | none => rfl
    | some types =>
      rw [bind_some, bind_some]
      split
      · rfl
      · cases userGeneric env base types <;> rfl

variable (spec : Spec)

theorem resolveTypeSpec_eq :
    resolveTypeSpec env spec = (typeOf env spec).map fun type => (type, layers 0 spec) :=
  resolveFrom_eq env 0 spec

theorem typeOf_array (length : Length) (elem : Spec) :
    typeOf env (.array length elem) = if length.positive then typeOf env elem else none := by
  rw [typeOf, resolveTypeSpec, resolveFrom, zero_add]
  split
  · rw [resolveFrom_eq, Option.map_map]
    exact Option.map_id'
  · rfl

variable (inner : Spec)

theorem typeOf_pointer :
    typeOf env (.pointer false inner) = (typeOf env inner).map .pointer := by
  rw [typeOf, resolveTypeSpec, resolveFrom, if_neg Bool.false_ne_true, resolveFrom_eq]
  cases typeOf env inner <;> rfl

theorem typeOf_behind : typeOf env (.pointer true inner) = none := by
  rw [typeOf, resolveTypeSpec, resolveFrom]
  rfl

theorem typeOf_volatile :
    typeOf env (.volatile inner) = (typeOf env inner).map fun type =>
      .dynamic (type.extended env.toEnv) ("volatile " ++ type.name) := by
  rw [typeOf, resolveTypeSpec, resolveFrom, resolveFrom_eq]
  cases typeOf env inner <;> rfl

theorem typeOf_fallible (success : Spec) :
    typeOf env (.fallible success) = (typeOf env success).bind fun type =>
      fallibleType env type ((env.lookup "Error").map .registry) := by
  rw [typeOf, resolveTypeSpec, resolveFrom, resolveFrom_eq]
  cases typeOf env success with
  | none => rfl
  | some type =>
    rw [map_some, bind_some, bind_some, Option.map_map]
    exact Option.map_id'

theorem typeOf_fallibleWith (success error : Spec) :
    typeOf env (.fallibleWith success error) = (typeOf env success).bind fun type =>
      fallibleType env type (typeOf env error) := by
  rw [typeOf, resolveTypeSpec, resolveFrom, resolveFrom_eq]
  cases typeOf env success with
  | none => rfl
  | some type =>
    rw [map_some, bind_some, bind_some, Option.map_map]
    exact Option.map_id'

theorem typeOf_function (params : List Spec) (ret : Spec) :
    typeOf env (.function params ret) = (typeOf env ret).bind fun type =>
      (resolveAll env params).map fun types => .function types type := by
  rw [typeOf, resolveTypeSpec, resolveFrom, resolveFrom_eq]
  cases typeOf env ret with
  | none => rfl
  | some type =>
    rw [map_some, bind_some, bind_some, Option.map_map]
    rfl

theorem typeOf_tuple (elems : List Spec) :
    typeOf env (.tuple elems) = (resolveAll env elems).bind fun types =>
      if 2 ≤ types.length then some (.dynamic false (tupleName types)) else none := by
  rw [typeOf, resolveTypeSpec, resolveFrom]
  cases resolveAll env elems with
  | none => rfl
  | some types =>
    rw [bind_some, bind_some]
    split <;> rfl

variable (base : Name) (parts : List Spec)

theorem typeOf_builtin : typeOf env (.builtin base parts) =
      (resolveAll env parts).bind (collection env.toEnv base) := by
  rw [typeOf, resolveTypeSpec, resolveFrom]
  cases resolveAll env parts with
  | none => rfl
  | some types =>
    rw [bind_some, bind_some, Option.map_map]
    exact Option.map_id'

theorem typeOf_generic :
    typeOf env (.generic base parts) = (resolveAll env parts).bind fun types =>
      if types.isEmpty then none else userGeneric env base types := by
  rw [typeOf, resolveTypeSpec, resolveFrom]
  cases resolveAll env parts with
  | none => rfl
  | some types =>
    rw [bind_some, bind_some]
    split
    · rfl
    · rw [Option.map_map]
      exact Option.map_id'

theorem resolveAll_cons (rest : List Spec) :
    resolveAll env (spec :: rest) = (typeOf env spec).bind fun type =>
      (resolveAll env rest).map (type :: ·) := by
  rw [resolveAll, resolveFrom_eq]
  cases typeOf env spec <;> rfl

theorem resolveAll_length {specs : List Spec} {types : List Ref}
    (resolved : resolveAll env specs = some types) : types.length = specs.length := by
  induction specs generalizing types with
  | nil =>
    cases resolved
    rfl
  | cons spec rest ih =>
    rw [resolveAll_cons] at resolved
    rcases bind_eq_some_iff.1 resolved with ⟨type, _, rest_resolved⟩
    rcases map_eq_some_iff.1 rest_resolved with ⟨others, found, rfl⟩
    rw [length_cons, length_cons, ih found]

end Types

section Agreement

variable {env : Env} {args : Name → Option Spec} {subst : Name → Option Ref}

theorem Resolves.closed (resolves : Resolves args env subst) {name : Option Name}
    (other : name.bind args = none) : name.bind subst = none := by
  cases name with
  | none => rfl
  | some name =>
    rcases resolves name with ⟨_, unknown⟩ | ⟨spec, type, known, _⟩
    · exact unknown
    · exact absurd (known.symm.trans other) (some_ne_none spec)

variable {types : List Ref} {base : Name}

theorem substCollection_eq
    (same : env.extArity base = some 1 → base = "Vec" ∨ base = "Map" ∨ base = "Set" ∨
      ∀ type ∈ types, type.extended env.toEnv = false) :
    substCollection env.toEnv base types = collection env.toEnv base types := by
  by_cases single : env.extArity base = some 1 ∧ ∃ elem, types = [elem]
  · rcases single with ⟨one, elem, rfl⟩
    rw [GenericTypes.collection_single elem one, GenericTypes.substCollection_single elem one]
    by_cases extended : elem.extended env.toEnv = true
    · rw [if_pos extended, if_pos]
      refine ⟨extended, ?_⟩
      rcases same one with vec | map | set | plain
      · exact .inl vec
      · exact .inr (.inl map)
      · exact .inr (.inr set)
      · have refused := plain elem (mem_singleton_self elem)
        exact absurd (refused.symm.trans extended) Bool.false_ne_true
    · rw [if_neg extended, if_neg fun both => extended both.1]
  · exact GenericTypes.substCollection_other fun elem one types_eq => single ⟨one, elem, types_eq⟩

variable {specs : List Spec}

theorem mem_resolveAll
    (resolved : resolveAll env specs = some types) {type : Ref} (member : type ∈ types) :
    ∃ spec ∈ specs, typeOf env spec = some type := by
  induction specs generalizing types with
  | nil =>
    cases resolved
    cases member
  | cons spec rest ih =>
    rw [resolveAll_cons] at resolved
    rcases bind_eq_some_iff.1 resolved with ⟨first, head, rest_resolved⟩
    rcases map_eq_some_iff.1 rest_resolved with ⟨others, found, rfl⟩
    rcases mem_cons.1 member with rfl | member
    · exact ⟨spec, .head _, head⟩
    · rcases ih found member with ⟨other, there, typed⟩
      exact ⟨other, mem_cons_of_mem spec there, typed⟩

theorem mem_replacedAll {spec : Spec} (member : spec ∈ replacedAll args specs) :
    ∃ part ∈ specs, replaced args part = spec := by
  induction specs with
  | nil => cases member
  | cons first rest ih =>
    rcases mem_cons.1 member with rfl | member
    · exact ⟨first, .head _, rfl⟩
    · rcases ih member with ⟨part, there, same⟩
      exact ⟨part, mem_cons_of_mem first there, same⟩

variable {parts : List Spec}

theorem sameCollection_eq (same : SameCollection args env base parts)
    (resolved : resolveAll env (replacedAll args parts) = some types) :
    substCollection env.toEnv base types = collection env.toEnv base types := by
  apply substCollection_eq
  intro one
  rcases same one with vec | map | set | plain
  · exact .inl vec
  · exact .inr (.inl map)
  · exact .inr (.inr (.inl set))
  · refine .inr (.inr (.inr fun type member => ?_))
    rcases mem_resolveAll resolved member with ⟨spec, there, typed⟩
    rcases mem_replacedAll there with ⟨part, here, rfl⟩
    exact plain part here type typed

theorem replacedAll_length (specs : List Spec) :
    (replacedAll args specs).length = specs.length := by
  induction specs with
  | nil => rfl
  | cons _ rest ih => exact congrArg Nat.succ ih

theorem types_nonempty (nonempty : parts ≠ [])
    (resolved : resolveAll env (replacedAll args parts) = some types) : types.isEmpty = false := by
  have size := resolveAll_length env resolved
  rw [replacedAll_length] at size
  cases types with
  | nil => exact absurd (length_eq_zero_iff.1 size.symm) nonempty
  | cons _ _ => rfl

variable (types : List Ref)

theorem substGeneric_collection (no_template : env.template base = none)
    (arity : env.extArity base = some 1 ∨ env.extArity base = some 2) :
    substGeneric env base types = some (substCollection env.toEnv base types) := by
  rw [substGeneric, no_template]
  rcases arity with one | two
  · simp only [one]
  · simp only [two]

theorem substGeneric_left (no_template : env.template base = none)
    (arity : ¬(env.extArity base = some 1 ∨ env.extArity base = some 2)) :
    substGeneric env base types = none := by
  rw [substGeneric, no_template]
  dsimp only
  split
  · next one => exact absurd (.inl one) arity
  · next two => exact absurd (.inr two) arity
  · rfl

mutual

theorem subst_eq (resolves : Resolves args env subst) (spec : Spec)
    (carried : Carried args env spec) : resolveTypeSpecWithSubst env subst spec =
      (typeOf env (replaced args spec)).map fun type => (type, substLayers spec) := by
  cases spec with
  | base name =>
    rw [resolveTypeSpecWithSubst, replaced]
    rcases resolves name with ⟨plain, unknown⟩ | ⟨written, type, known, substituted, resolved⟩
    · rw [plain, unknown]
      exact resolveTypeSpec_eq env (.base name)
    · rw [known, substituted, getD_some, typeOf, resolved]
      rfl
  | array length elem =>
    rcases carried with ⟨positive, carried⟩
    rw [resolveTypeSpecWithSubst, subst_eq resolves elem carried, replaced, typeOf_array,
      if_pos positive, Option.map_map]
    rfl
  | volatile inner =>
    rcases carried with ⟨bare, closed⟩
    rw [resolveTypeSpecWithSubst, resolves.closed bare, replaced, closed]
    exact resolveTypeSpec_eq env (.volatile inner)
  | pointer behind inner =>
    rcases carried with ⟨rfl, carried⟩
    rw [resolveTypeSpecWithSubst, subst_eq resolves inner carried, replaced, typeOf_pointer,
      Option.map_map, Option.map_map]
    rfl
  | fallible success =>
    have closed : replaced args success = success := carried
    rw [resolveTypeSpecWithSubst, replaced, closed]
    exact resolveTypeSpec_eq env _
  | fallibleWith success error =>
    rcases carried with ⟨closed, closed'⟩
    rw [resolveTypeSpecWithSubst, replaced, closed, closed']
    exact resolveTypeSpec_eq env _
  | function params ret =>
    rcases carried with ⟨all, one⟩
    rw [resolveTypeSpecWithSubst, subst_eq resolves ret one, subst_all_eq resolves params all,
      replaced, typeOf_function]
    cases typeOf env (replaced args ret) with
    | none => rfl
    | some type =>
      rw [map_some, bind_some, bind_some, Option.map_map]
      rfl
  | tuple elems =>
    have closed : replacedAll args elems = elems := carried
    rw [resolveTypeSpecWithSubst, replaced, closed]
    exact resolveTypeSpec_eq env _
  | builtin base parts =>
    rcases carried with ⟨no_template, all, same⟩
    rw [resolveTypeSpecWithSubst, subst_all_eq resolves parts all, replaced, typeOf_builtin]
    cases resolved : resolveAll env (replacedAll args parts) with
    | none => rfl
    | some types =>
      rw [bind_some, bind_some]
      by_cases arity : env.extArity base = some 1 ∨ env.extArity base = some 2
      · rw [substGeneric_collection types no_template arity, sameCollection_eq same resolved]
        rfl
      · -- of another arity it is refused, by the plain resolver as well
        have refused (types : List Ref) : collection env.toEnv base types = none :=
          GenericTypes.collection_other types (not_or.1 arity).1 (not_or.1 arity).2
        rw [substGeneric_left types no_template arity, refused, elim_none,
          resolveTypeSpec_eq, typeOf_builtin, funext refused, bind_fun_none]
        rfl
  | generic base parts =>
    rcases carried with ⟨nonempty, all, origin⟩
    rw [resolveTypeSpecWithSubst, subst_all_eq resolves parts all, replaced, typeOf_generic]
    cases resolved : resolveAll env (replacedAll args parts) with
    | none => rfl
    | some types =>
      rw [bind_some, bind_some, types_nonempty nonempty resolved, if_neg Bool.false_ne_true]
      by_cases known : (env.template base).isSome = true
      · rw [if_pos known] at origin
        rcases isSome_iff_exists.1 known with ⟨count, template⟩
        simp only [substGeneric, userGeneric, origin, template]
        rfl
      · rw [if_neg known] at origin
        have no_template : env.template base = none := not_isSome_iff_eq_none.1 known
        by_cases arity : env.extArity base = some 1 ∨ env.extArity base = some 2
        · rw [if_pos arity] at origin
          rcases origin with ⟨exported, no_trait, imported, same⟩
          rw [substGeneric_collection types no_template arity, sameCollection_eq same resolved]
          simp only [userGeneric, exported, no_trait, imported, if_true, elim_some]
          rfl
        · rw [if_neg arity] at origin
          have some_type := types_nonempty nonempty resolved
          rw [origin] at resolved
          rw [substGeneric_left types no_template arity, elim_none, resolveTypeSpec_eq,
            typeOf_generic, resolved, bind_some, some_type, if_neg Bool.false_ne_true]
          rfl

theorem subst_all_eq (resolves : Resolves args env subst) (specs : List Spec)
    (carried : CarriedAll args env specs) :
    resolveAllWithSubst env subst specs = resolveAll env (replacedAll args specs) := by
  cases specs with
  | nil => rfl
  | cons spec rest =>
    rcases carried with ⟨one, all⟩
    rw [resolveAllWithSubst, subst_eq resolves spec one, subst_all_eq resolves rest all,
      replacedAll, resolveAll_cons]
    cases typeOf env (replaced args spec) <;> rfl

end

end Agreement

section Converse

variable {env : Env} {args : Name → Option Spec} {subst : Name → Option Ref}

/-- Each name means one thing: a type parameter is no type and no text of a qualified one, a
template goes by its own name, and an extended type is no template. -/
structure Distinct (env : Env) (args : Name → Option Spec) : Prop where
  parameter : ∀ name, args name ≠ none → typeOf env (.base name) = none
  qualified : ∀ inner, (bareText (.volatile inner)).bind args = none
  template : ∀ base, env.template base ≠ none → env.exported base = base
  extension : ∀ base, env.extArity base ≠ none →
    env.template base = none ∧ env.exported base = base ∧ env.traitTemplate base = false

mutual

theorem closed_of_resolved (distinct : Distinct env args) (spec : Spec) {type : Ref}
    (resolved : typeOf env spec = some type) : replaced args spec = spec := by
  cases spec with
  | base name =>
    rw [replaced]
    cases known : args name with
    | none => rfl
    | some written =>
      have unknown := distinct.parameter name (known ▸ some_ne_none written)
      exact absurd (resolved.symm.trans unknown) (some_ne_none type)
  | array length elem =>
    rw [typeOf_array] at resolved
    by_cases positive : length.positive = true
    · rw [if_pos positive] at resolved
      rw [replaced, closed_of_resolved distinct elem resolved]
    · rw [if_neg positive] at resolved
      cases resolved
  | volatile inner =>
    rw [typeOf_volatile] at resolved
    rcases map_eq_some_iff.1 resolved with ⟨_, inside, _⟩
    rw [replaced, closed_of_resolved distinct inner inside]
  | pointer behind inner =>
    cases behind with
    | true =>
      rw [typeOf_behind] at resolved
      cases resolved
    | false =>
      rw [typeOf_pointer] at resolved
      rcases map_eq_some_iff.1 resolved with ⟨_, inside, _⟩
      rw [replaced, closed_of_resolved distinct inner inside]
  | fallible success =>
    rw [typeOf_fallible] at resolved
    rcases bind_eq_some_iff.1 resolved with ⟨_, inside, _⟩
    rw [replaced, closed_of_resolved distinct success inside]
  | fallibleWith success error =>
    rw [typeOf_fallibleWith] at resolved
    rcases bind_eq_some_iff.1 resolved with ⟨_, inside, made⟩
    rcases bind_eq_some_iff.1 made with ⟨_, failing, _⟩
    rw [replaced, closed_of_resolved distinct success inside,
      closed_of_resolved distinct error failing]
  | function params ret =>
    rw [typeOf_function] at resolved
    rcases bind_eq_some_iff.1 resolved with ⟨_, one, made⟩
    rcases map_eq_some_iff.1 made with ⟨_, all, _⟩
    rw [replaced, closed_of_resolved distinct ret one, closed_of_all distinct params all]
  | tuple elems =>
    rw [typeOf_tuple] at resolved
    rcases bind_eq_some_iff.1 resolved with ⟨_, all, _⟩
    rw [replaced, closed_of_all distinct elems all]
  | builtin base parts =>
    rw [typeOf_builtin] at resolved
    rcases bind_eq_some_iff.1 resolved with ⟨_, all, _⟩
    rw [replaced, closed_of_all distinct parts all]
  | generic base parts =>
    rw [typeOf_generic] at resolved
    rcases bind_eq_some_iff.1 resolved with ⟨_, all, _⟩
    rw [replaced, closed_of_all distinct parts all]

theorem closed_of_all (distinct : Distinct env args) (specs : List Spec) {types : List Ref}
    (resolved : resolveAll env specs = some types) : replacedAll args specs = specs := by
  cases specs with
  | nil => rfl
  | cons spec rest =>
    rw [resolveAll_cons] at resolved
    rcases bind_eq_some_iff.1 resolved with ⟨_, one, made⟩
    rcases map_eq_some_iff.1 made with ⟨_, all, _⟩
    rw [replacedAll, closed_of_resolved distinct spec one, closed_of_all distinct rest all]

end

theorem closed_or_none (distinct : Distinct env args) (spec : Spec) :
    replaced args spec = spec ∨ resolveTypeSpec env spec = none := by
  rw [resolveTypeSpec_eq]
  cases resolved : typeOf env spec with
  | none => exact .inr rfl
  | some type => exact .inl (closed_of_resolved distinct spec resolved)

theorem sameCollection_of_made {base : Name} {parts : List Spec} {types : List Ref} {type : Ref}
    (resolved : resolveAll env (replacedAll args parts) = some types)
    (made : collection env.toEnv base types = some type) : SameCollection args env base parts := by
  intro one
  refine .inr (.inr (.inr fun elem member other typed => ?_))
  have size := resolveAll_length env resolved
  rw [replacedAll_length] at size
  cases parts with
  | nil => cases member
  | cons first rest =>
    cases types with
    | nil => cases size
    | cons found others =>
      have single : others = [] := by
        cases others with
        | nil => rfl
        | cons _ _ => simp [collection, one] at made
      subst single
      cases rest with
      | cons _ _ => cases size
      | nil =>
        have same := mem_singleton.1 member
        subst same
        rw [replacedAll, resolveAll_cons, typed] at resolved
        cases resolved
        rw [GenericTypes.collection_single other one] at made
        by_cases extended : other.extended env.toEnv = true
        · rw [if_pos extended] at made
          cases made
        · exact Bool.eq_false_iff.2 extended

mutual

theorem carried_or_none (distinct : Distinct env args) (resolves : Resolves args env subst)
    (spec : Spec) {type : Ref} (resolved : typeOf env (replaced args spec) = some type) :
    Carried args env spec ∨ resolveTypeSpecWithSubst env subst spec = none := by
  cases spec with
  | base name => exact .inl trivial
  | array length elem =>
    rw [replaced, typeOf_array] at resolved
    by_cases positive : length.positive = true
    · rw [if_pos positive] at resolved
      refine (carried_or_none distinct resolves elem resolved).imp (⟨positive, ·⟩) fun failed => ?_
      rw [resolveTypeSpecWithSubst, failed]
      rfl
    · rw [if_neg positive] at resolved
      cases resolved
  | volatile inner =>
    have bare := distinct.qualified inner
    refine (closed_or_none distinct (.volatile inner)).imp (fun closed => ⟨bare, ?_⟩)
      fun failed => ?_
    · exact Spec.volatile.inj closed
    · rw [resolveTypeSpecWithSubst, resolves.closed bare]
      exact failed
  | pointer behind inner =>
    cases behind with
    | true =>
      rw [replaced, typeOf_behind] at resolved
      cases resolved
    | false =>
      rw [replaced, typeOf_pointer] at resolved
      rcases map_eq_some_iff.1 resolved with ⟨_, inside, _⟩
      refine (carried_or_none distinct resolves inner inside).imp (⟨rfl, ·⟩) fun failed => ?_
      rw [resolveTypeSpecWithSubst, failed]
      rfl
  | fallible success =>
    refine (closed_or_none distinct (.fallible success)).imp Spec.fallible.inj fun failed => ?_
    rw [resolveTypeSpecWithSubst, failed]
  | fallibleWith success error =>
    refine (closed_or_none distinct (.fallibleWith success error)).imp Spec.fallibleWith.inj
      fun failed => ?_
    rw [resolveTypeSpecWithSubst, failed]
  | function params ret =>
    rw [replaced, typeOf_function] at resolved
    rcases bind_eq_some_iff.1 resolved with ⟨_, one, made⟩
    rcases map_eq_some_iff.1 made with ⟨_, all, _⟩
    rw [resolveTypeSpecWithSubst]
    rcases carried_or_none distinct resolves ret one with carried | failed
    · rcases carried_all_or_none distinct resolves params all with carried_all | failed
      · exact .inl ⟨carried_all, carried⟩
      · rw [failed]
        exact .inr (bind_fun_none _)
    · rw [failed]
      exact .inr rfl
  | tuple elems =>
    refine (closed_or_none distinct (.tuple elems)).imp Spec.tuple.inj fun failed => ?_
    rw [resolveTypeSpecWithSubst, failed]
  | builtin base parts =>
    rw [replaced, typeOf_builtin] at resolved
    rcases bind_eq_some_iff.1 resolved with ⟨types, all, made⟩
    rw [resolveTypeSpecWithSubst]
    rcases carried_all_or_none distinct resolves parts all with carried_all | failed
    · have extended : env.extArity base ≠ none := by
        intro unknown
        have other : env.extArity base ≠ some types.length := by
          rw [unknown]
          exact (some_ne_none _).symm
        rw [GenericTypes.collection_arity env.toEnv other] at made
        cases made
      exact .inl ⟨(distinct.extension base extended).1, carried_all,
        sameCollection_of_made all made⟩
    · rw [failed]
      exact .inr rfl
  | generic base parts =>
    rw [replaced, typeOf_generic] at resolved
    rcases bind_eq_some_iff.1 resolved with ⟨types, all, made⟩
    have nonempty : parts ≠ [] := by
      rintro rfl
      cases all
      cases made
    rw [types_nonempty nonempty all, if_neg Bool.false_ne_true] at made
    rcases carried_all_or_none distinct resolves parts all with carried_all | failed
    · by_cases known : (env.template base).isSome = true
      · left
        refine ⟨nonempty, carried_all, ?_⟩
        rw [if_pos known]
        exact distinct.template base (isSome_iff_ne_none.1 known)
      · have no_template : env.template base = none := not_isSome_iff_eq_none.1 known
        by_cases arity : env.extArity base = some 1 ∨ env.extArity base = some 2
        · have extended : env.extArity base ≠ none := by
            rcases arity with one | two
            · exact one ▸ some_ne_none 1
            · exact two ▸ some_ne_none 2
          rcases distinct.extension base extended with ⟨_, exported, no_trait⟩
          simp only [userGeneric, exported, no_template, no_trait, Bool.false_eq_true,
            if_false] at made
          by_cases imported : env.imported base = true
          · rw [if_pos imported] at made
            left
            refine ⟨nonempty, carried_all, ?_⟩
            rw [if_neg known, if_pos arity, exported]
            exact ⟨no_template, no_trait, imported, sameCollection_of_made all made⟩
          · rw [if_neg imported] at made
            cases made
        · refine (closed_or_none distinct (.generic base parts)).imp (fun closed => ?_)
            fun failed => ?_
          · refine ⟨nonempty, carried_all, ?_⟩
            rw [if_neg known, if_neg arity]
            exact (Spec.generic.inj closed).2
          · rw [resolveTypeSpecWithSubst, subst_all_eq resolves parts carried_all, all,
              bind_some, substGeneric_left types no_template arity]
            exact failed
    · rw [resolveTypeSpecWithSubst, failed]
      exact .inr rfl

theorem carried_all_or_none (distinct : Distinct env args) (resolves : Resolves args env subst)
    (specs : List Spec) {types : List Ref}
    (resolved : resolveAll env (replacedAll args specs) = some types) :
    CarriedAll args env specs ∨ resolveAllWithSubst env subst specs = none := by
  cases specs with
  | nil => exact .inl trivial
  | cons spec rest =>
    rw [replacedAll, resolveAll_cons] at resolved
    rcases bind_eq_some_iff.1 resolved with ⟨_, one, made⟩
    rcases map_eq_some_iff.1 made with ⟨_, all, _⟩
    rw [resolveAllWithSubst]
    rcases carried_or_none distinct resolves spec one with carried | failed
    · rcases carried_all_or_none distinct resolves rest all with carried_all | failed
      · exact .inl ⟨carried, carried_all⟩
      · rw [failed]
        exact .inr (bind_fun_none _)
    · rw [failed]
      exact .inr rfl

end

/-- The substituting resolver gives the type and the layers of the replaced specifier where the
specifier is mirrored. Where each name means one thing and the replaced specifier resolves, it
gives them nowhere else. -/
theorem substitution_iff (env : Env) (args : Name → Option Spec) (subst : Name → Option Ref)
    (resolves : Resolves args env subst) (spec : Spec) :
    (Mirrored args env spec →
      resolveTypeSpecWithSubst env subst spec = resolveTypeSpec env (replaced args spec)) ∧
    (Distinct env args → resolveTypeSpec env (replaced args spec) ≠ none →
      (resolveTypeSpecWithSubst env subst spec = resolveTypeSpec env (replaced args spec) ↔
        Mirrored args env spec)) := by
  have enough (mirrored : Mirrored args env spec) :
      resolveTypeSpecWithSubst env subst spec = resolveTypeSpec env (replaced args spec) := by
    rw [subst_eq resolves spec mirrored.1, resolveTypeSpec_eq, mirrored.2]
  refine ⟨enough, fun distinct resolved => ⟨fun same => ?_, enough⟩⟩
  rw [resolveTypeSpec_eq] at resolved same
  cases typed : typeOf env (replaced args spec) with
  | none => exact absurd (congrArg _ typed) resolved
  | some type =>
    rcases carried_or_none distinct resolves spec typed with carried | failed
    · refine ⟨carried, ?_⟩
      rw [subst_eq resolves spec carried, typed] at same
      exact congrArg Prod.snd (Option.some.inj same)
    · rw [failed, typed] at same
      cases same

end Converse

section Instances

/-- `int32` and `Vec`, and nothing of the user's. -/
def plainEnv : Env where
  lookup name := if name = "int32" then some name else none
  isExtended _ := false
  extArity base := if base = "Vec" then some 1 else none
  imported _ := true
  exported base := base
  template _ := none
  instantiates _ _ := false
  traitTemplate _ := false
  inheritsError _ := false

def int32 : Spec := .base "int32"

/-- `T` is `int32`. -/
def intArgs (name : Name) : Option Spec := if name = "T" then some int32 else none

def intSubst (name : Name) : Option Ref := if name = "T" then some (.registry "int32") else none

theorem int_resolves : Resolves intArgs plainEnv intSubst := by
  intro name
  by_cases parameter : name = "T"
  · exact .inr ⟨int32, .registry "int32", if_pos parameter, if_pos parameter, rfl⟩
  · exact .inl ⟨if_neg parameter, if_neg parameter⟩

theorem int_distinct : Distinct plainEnv intArgs where
  parameter name known := by
    by_cases parameter : name = "T"
    · rw [parameter]
      rfl
    · exact absurd (if_neg parameter) known
  qualified inner := by
    rw [bareText]
    cases bareText inner with
    | none => rfl
    | some text =>
      have longer : "volatile" ++ text ≠ "T" := by
        intro same
        have sizes := congrArg String.length same
        rw [String.length_append] at sizes
        exact absurd sizes (by change 8 + text.length ≠ 1; omega)
      change intArgs ("volatile" ++ text) = none
      exact if_neg longer
  template _ known := absurd rfl known
  extension _ _ := ⟨rfl, rfl, rfl⟩

/-- `*T` -/
theorem substitution_iff_pointer :
    (resolveTypeSpecWithSubst plainEnv intSubst (.pointer false (.base "T")) =
        resolveTypeSpec plainEnv (.pointer false int32)) ∧
      (resolveTypeSpecWithSubst plainEnv intSubst (.pointer false (.base "T")) =
          resolveTypeSpec plainEnv (.pointer false int32) ↔
        Mirrored intArgs plainEnv (.pointer false (.base "T"))) := by
  have both := substitution_iff plainEnv intArgs intSubst int_resolves (.pointer false (.base "T"))
  exact ⟨both.1 ⟨⟨rfl, trivial⟩, rfl⟩, both.2 int_distinct (some_ne_none _)⟩

/-- `tuple<T, T>`: the plain resolver is asked for a type `T`. -/
theorem tuple_not_substituted :
    (resolveTypeSpecWithSubst plainEnv intSubst (.tuple [.base "T", .base "T"]) = none ∧
      resolveTypeSpec plainEnv (.tuple [int32, int32]) =
        some (.dynamic false "tuple<int32, int32>", 0)) ∧
      ¬∀ env args subst, Resolves args env subst → ∀ spec,
        resolveTypeSpecWithSubst env subst spec = resolveTypeSpec env (replaced args spec) := by
  have fails : resolveTypeSpecWithSubst plainEnv intSubst (.tuple [.base "T", .base "T"]) = none :=
    rfl
  have wanted : resolveTypeSpec plainEnv (.tuple [int32, int32]) =
      some (.dynamic false "tuple<int32, int32>", 0) := rfl
  refine ⟨⟨fails, wanted⟩, fun law => ?_⟩
  have same := law plainEnv intArgs intSubst int_resolves (.tuple [.base "T", .base "T"])
  rw [fails] at same
  exact some_ne_none _ (wanted.symm.trans same.symm)

end Instances

end Lucis.TypeSubstitution
