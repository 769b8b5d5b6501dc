import Mathlib.Data.List.Basic

/-!
`Checker::resolveTypeSpec` of checkers/Checker_type.cpp, which gives a type and a
number of array layers. A resolved type is told by what makes the checker take
two of them for one: registry entries and the types of `dynamicTypes_` by their
names, pointers by their pointees, function types by their parts. How many
elements a layer has is no part of the pair, and no part of a specifier here.
-/

namespace Lucis.TypeSpec

open Option

abbrev Name := String

inductive Spec where
  /-- primitive and user types, aliases, `Self`, `cstring` -/
  | base (name : Name)
  /-- `[]T`, `[N]T` -/
  | array (elem : Spec)
  | volatile (inner : Spec)
  | pointer (inner : Spec)
  | function (params : List Spec) (ret : Spec)
  | tuple (elems : List Spec)
  /-- `vec`, `map` and `set` under the names `Vec`, `Map` and `Set` -/
  | builtin (base : Name) (args : List Spec)
  /-- `Name<T, ...>` -/
  | generic (base : Name) (args : List Spec)

/-- A resolved type; `extended` is its kind, which nested collections are refused by. -/
inductive Ref where
  | registry (name : Name)
  | pointer (pointee : Ref)
  | function (params : List Ref) (ret : Ref)
  | dynamic (extended : Bool) (name : Name)

/-- What the checker knows: the registry entry behind a name, the kinds of the entries, the
extended types, and the user's templates with the entry that an instance gets its name from. -/
structure Env where
  lookup : Name → Option Name
  isExtended : Name → Bool
  extArity : Name → Option Nat
  imported : Name → Bool
  exported : Name → Name
  template : Name → Option Nat
  instantiates : Name → List Ref → Bool

section Names

mutual

def Ref.name : Ref → Name
  | .registry name => name
  | .pointer pointee => "*" ++ pointee.name
  | .function params ret => "fn(" ++ String.intercalate "," (names params) ++ ")->" ++ ret.name
  | .dynamic _ name => name

def names : List Ref → List Name
  | [] => []
  | r :: rest => r.name :: names rest

end

def mangled (c : Char) : Char :=
  if c = '<' ∨ c = '>' ∨ c = ' ' ∨ c = ',' then '_' else c

def mangleGenericName (base : Name) (args : List Ref) : Name :=
  args.foldl (fun name arg => name ++ "__" ++ arg.name.map mangled) base

def tupleName (elems : List Ref) : Name :=
  "tuple<" ++ String.intercalate ", " (names elems) ++ ">"

end Names

section Resolution

variable (env : Env)

def Ref.extended : Ref → Bool
  | .registry name => env.isExtended name
  | .dynamic extended _ => extended
  | _ => false

def collection (base : Name) (args : List Ref) : Option Ref :=
  match env.extArity base, args with
  | some 1, [elem] =>
    if elem.extended env then none
    else some (.dynamic true (base ++ "<" ++ elem.name ++ ">"))
  | some 2, [key, value] =>
    if key.extended env || value.extended env then none
    else some (.dynamic true (base ++ "<" ++ key.name ++ ", " ++ value.name ++ ">"))
  | _, _ => none

def instantiate (base : Name) (arity : Nat) (args : List Ref) : Option Ref :=
  if args.length = arity ∧ env.instantiates base args then
    some (.registry (mangleGenericName base args))
  else none

def userGeneric (base : Name) (args : List Ref) : Option Ref :=
  match env.template (env.exported base) with
  | some arity => instantiate env (env.exported base) arity args
  | none => if env.imported base then collection env base args else none

mutual

/-- The loop over the layers counts them in `arrayDims`; what stands below it takes the count
over, or puts its own in its place. -/
def resolveFrom (arrayDims : Nat) : Spec → Option (Ref × Nat)
  | .array elem => resolveFrom (arrayDims + 1) elem
  | .volatile inner =>
    match resolveFrom 0 inner with
    | some (type, innerDims) =>
      some (.dynamic (type.extended env) ("volatile " ++ type.name), innerDims)
    | none => none
  | .pointer inner =>
    match resolveFrom 0 inner with
    | some (type, innerDims) => some (.pointer type, innerDims)
    | none => none
  | .function params ret =>
    match resolveFrom 0 ret, resolveAll params with
    | some (type, _), some types => some (.function types type, arrayDims)
    | _, _ => none
  | .tuple elems =>
    match resolveAll elems with
    | some types =>
      if 2 ≤ types.length then some (.dynamic false (tupleName types), arrayDims) else none
    | none => none
  | .builtin base args =>
    match resolveAll args with
    | some types => (collection env base types).map fun type => (type, arrayDims)
    | none => none
  | .generic base args =>
    match resolveAll args with
    | some types =>
      if types.isEmpty then none
      else (userGeneric env base types).map fun type => (type, arrayDims)
    | none => none
  | .base name =>
    if name = "cstring" then
      (env.lookup "char").map fun entry => (.pointer (.registry entry), arrayDims)
    else (env.lookup name).map fun entry => (.registry entry, arrayDims)

def resolveAll : List Spec → Option (List Ref)
  | [] => some []
  | spec :: rest =>
    match resolveFrom 0 spec, resolveAll rest with
    | some (type, _), some types => some (type :: types)
    | _, _ => none

end

def resolveTypeSpec (spec : Spec) : Option (Ref × Nat) :=
  resolveFrom env 0 spec

example (elem : Spec) : resolveFrom env 0 (.array (.array elem)) = resolveFrom env 2 elem := by
  rw [resolveFrom, resolveFrom]

example : resolveAll env [] = some [] := by simp only [resolveAll]

end Resolution

section Meaning

variable (env : Env)

def baseType (name : Name) : Spec :=
  .base ((env.lookup name).getD name)

mutual

def denote : Spec → Spec
  | .array elem => .array (denote elem)
  | .volatile inner => .volatile (denote inner)
  | .pointer inner => .pointer (denote inner)
  | .function params ret => .function (denoteAll params) (denote ret)
  | .tuple elems => .tuple (denoteAll elems)
  | .builtin base args => .builtin base (denoteAll args)
  | .generic base args => .generic (env.exported base) (denoteAll args)
  | .base name => if name = "cstring" then .pointer (baseType env "char") else baseType env name

def denoteAll : List Spec → List Spec
  | [] => []
  | spec :: rest => denote spec :: denoteAll rest

end

example (spec : Spec) : denoteAll env [.array spec] = [.array (denote env spec)] := by
  simp only [denoteAll, denote]

def Determines (pair : Ref × Nat) (spec : Spec) : Prop :=
  ∀ other, resolveTypeSpec env other = some pair → denote env other = denote env spec

def InstanceName (entry : Name) : Prop :=
  ∃ base args types, resolveAll env args = some types ∧ types.isEmpty = false ∧
    userGeneric env base types = some (.registry entry)

def Plain : Spec → Prop
  | .array elem => Plain elem
  | .base name => name ≠ "cstring" ∧ ∀ entry, env.lookup name = some entry →
      ¬ InstanceName env entry
  | _ => False

end Meaning

section Layers

variable {env : Env}

variable {type : Ref}

theorem type_same (spec : Spec) {outer dims : Nat} (outer' : Nat)
    (resolved : resolveFrom env outer spec = some (type, dims)) :
    ∃ dims', resolveFrom env outer' spec = some (type, dims') := by
  match spec with
  | .array elem => exact type_same elem (outer' + 1) resolved
  | .volatile _ => exact ⟨dims, resolved⟩
  | .pointer _ => exact ⟨dims, resolved⟩
  | .function params ret =>
    simp only [resolveFrom] at resolved ⊢
    split at resolved
    · cases resolved
      exact ⟨outer', rfl⟩
    · cases resolved
  | .tuple elems =>
    simp only [resolveFrom] at resolved ⊢
    split at resolved
    · split at resolved
      · next enough =>
        cases resolved
        rw [if_pos enough]
        exact ⟨outer', rfl⟩
      · cases resolved
    · cases resolved
  | .builtin base args =>
    simp only [resolveFrom] at resolved ⊢
    split at resolved
    · rcases map_eq_some_iff.1 resolved with ⟨found, made, same⟩
      cases same
      rw [made]
      exact ⟨outer', rfl⟩
    · cases resolved
  | .generic base args =>
    simp only [resolveFrom] at resolved ⊢
    split at resolved
    · split at resolved
      · cases resolved
      · next nonempty =>
        rcases map_eq_some_iff.1 resolved with ⟨found, made, same⟩
        cases same
        rw [if_neg nonempty, made]
        exact ⟨outer', rfl⟩
    · cases resolved
  | .base name =>
    simp only [resolveFrom] at resolved ⊢
    split at resolved
    · next special =>
      rcases map_eq_some_iff.1 resolved with ⟨entry, known, same⟩
      cases same
      rw [if_pos special, known]
      exact ⟨outer', rfl⟩
    · next other =>
      rcases map_eq_some_iff.1 resolved with ⟨entry, known, same⟩
      cases same
      rw [if_neg other, known]
      exact ⟨outer', rfl⟩

theorem array_ne (spec : Spec) : Spec.array spec ≠ spec := by
  intro same
  have size := congrArg sizeOf same
  simp at size

/-- `n` layers over a specifier. -/
def layered : Nat → Spec → Spec
  | 0, spec => spec
  | n + 1, spec => .array (layered n spec)

theorem resolve_layered (n outer : Nat) (spec : Spec) :
    resolveFrom env outer (layered n spec) = resolveFrom env (outer + n) spec := by
  induction n generalizing outer with
  | zero => rfl
  | succ n ih => rw [layered, resolveFrom, ih, Nat.add_assoc, Nat.add_comm 1 n]

theorem collection_ne_registry {base entry : Name} {args : List Ref} :
    collection env base args ≠ some (.registry entry) := by
  intro made
  unfold collection at made
  split at made
  · split at made <;> simp at made
  · split at made <;> simp at made
  · cases made

theorem registry_origin {entry : Name} (spec : Spec) {outer dims : Nat}
    (resolved : resolveFrom env outer spec = some (.registry entry, dims))
    (no_instance : ¬ InstanceName env entry) :
    ∃ n, dims = outer + n ∧ denote env spec = layered n (.base entry) := by
  match spec with
  | .array elem =>
    rcases registry_origin elem resolved no_instance with ⟨n, counted, meant⟩
    refine ⟨n + 1, by omega, ?_⟩
    rw [denote, meant, layered]
  | .volatile inner =>
    simp only [resolveFrom] at resolved
    split at resolved <;> simp at resolved
  | .pointer inner =>
    simp only [resolveFrom] at resolved
    split at resolved <;> simp at resolved
  | .function params ret =>
    simp only [resolveFrom] at resolved
    split at resolved <;> simp at resolved
  | .tuple elems =>
    simp only [resolveFrom] at resolved
    split at resolved
    · split at resolved <;> simp at resolved
    · cases resolved
  | .builtin base args =>
    simp only [resolveFrom] at resolved
    split at resolved
    · rcases map_eq_some_iff.1 resolved with ⟨found, made, same⟩
      cases same
      exact absurd made collection_ne_registry
    · cases resolved
  | .generic base args =>
    simp only [resolveFrom] at resolved
    split at resolved
    · next types known =>
      split at resolved
      · cases resolved
      · next nonempty =>
        rcases map_eq_some_iff.1 resolved with ⟨found, made, same⟩
        cases same
        exact absurd ⟨base, args, types, known, by simpa using nonempty, made⟩ no_instance
    · cases resolved
  | .base name =>
    simp only [resolveFrom] at resolved
    split at resolved
    · rcases map_eq_some_iff.1 resolved with ⟨found, _, same⟩
      cases same
    · next other =>
      rcases map_eq_some_iff.1 resolved with ⟨found, known, same⟩
      cases same
      refine ⟨0, rfl, ?_⟩
      rw [denote, if_neg other, baseType, known]
      rfl

theorem plain_registry (spec : Spec) {outer dims : Nat} (plain : Plain env spec)
    (resolved : resolveFrom env outer spec = some (type, dims)) :
    ∃ entry, type = .registry entry ∧ ¬ InstanceName env entry := by
  match spec with
  | .array elem => exact plain_registry elem plain resolved
  | .base name =>
    rcases plain with ⟨other, free⟩
    simp only [resolveFrom, if_neg other] at resolved
    rcases map_eq_some_iff.1 resolved with ⟨entry, known, same⟩
    cases same
    exact ⟨entry, rfl, free entry known⟩

variable {pair : Ref × Nat}

theorem plain_determines {spec : Spec}
    (resolved : resolveTypeSpec env spec = some pair) (plain : Plain env spec) :
    Determines env pair spec := by
  intro other same
  rcases pair with ⟨type, dims⟩
  rcases plain_registry spec plain resolved with ⟨entry, rfl, free⟩
  rcases registry_origin spec resolved free with ⟨n, counted, meant⟩
  rcases registry_origin other same free with ⟨m, counted', meant'⟩
  have layers : m = n := by omega
  rw [meant, meant', layers]

variable (first : Spec) (rest : List Spec)

theorem resolveAll_array {types : List Ref}
    (resolved : resolveAll env (first :: rest) = some types) :
    resolveAll env (.array first :: rest) = some types := by
  simp only [resolveAll] at resolved ⊢
  split at resolved
  · next type dims others head tail =>
    rcases type_same first 1 head with ⟨dims', again⟩
    rw [resolveFrom, again, tail]
    exact resolved
  · cases resolved

theorem denoteAll_array_ne :
    denoteAll env (.array first :: rest) ≠ denoteAll env (first :: rest) := by
  intro same
  rw [denoteAll, denoteAll, denote] at same
  exact array_ne _ (List.cons.inj same).1

theorem collides (spec : Spec) {outer : Nat}
    (resolved : resolveFrom env outer spec = some pair) (complex : ¬ Plain env spec) :
    ∃ other, resolveFrom env outer other = some pair ∧ denote env other ≠ denote env spec := by
  match spec with
  | .array elem =>
    rcases collides elem resolved complex with ⟨other, same, differs⟩
    refine ⟨.array other, same, fun meant => differs ?_⟩
    rw [denote, denote] at meant
    exact Spec.array.inj meant
  -- the layers outside are overwritten, so one more makes no difference
  | .volatile inner =>
    refine ⟨.array (.volatile inner), resolved, ?_⟩
    rw [denote]
    exact array_ne _
  | .pointer inner =>
    refine ⟨.array (.pointer inner), resolved, ?_⟩
    rw [denote]
    exact array_ne _
  | .function params ret =>
    simp only [resolveFrom] at resolved
    split at resolved
    · next type dims types head tail =>
      rcases type_same ret 1 head with ⟨dims', again⟩
      refine ⟨.function params (.array ret), ?_, fun meant => ?_⟩
      · rw [resolveFrom, resolveFrom, again, tail]
        exact resolved
      · rw [denote, denote, denote] at meant
        exact array_ne _ (Spec.function.inj meant).2
    · cases resolved
  | .tuple elems =>
    cases elems with
    | nil => simp [resolveFrom, resolveAll] at resolved
    | cons first rest =>
      simp only [resolveFrom] at resolved
      split at resolved
      · next types known =>
        refine ⟨.tuple (.array first :: rest), ?_, fun meant => ?_⟩
        · rw [resolveFrom, resolveAll_array first rest known]
          exact resolved
        · rw [denote, denote] at meant
          exact denoteAll_array_ne first rest (Spec.tuple.inj meant)
      · cases resolved
  | .builtin base args =>
    cases args with
    | nil =>
      simp only [resolveFrom, resolveAll, map_eq_some_iff] at resolved
      rcases resolved with ⟨type, made, _⟩
      unfold collection at made
      split at made
      · simp at *
      · simp at *
      · cases made
    | cons first rest =>
      simp only [resolveFrom] at resolved
      split at resolved
      · next types known =>
        refine ⟨.builtin base (.array first :: rest), ?_, fun meant => ?_⟩
        · rw [resolveFrom, resolveAll_array first rest known]
          exact resolved
        · rw [denote, denote] at meant
          exact denoteAll_array_ne first rest (Spec.builtin.inj meant).2
      · cases resolved
  | .generic base args =>
    cases args with
    | nil => simp [resolveFrom, resolveAll] at resolved
    | cons first rest =>
      simp only [resolveFrom] at resolved
      split at resolved
      · next types known =>
        refine ⟨.generic base (.array first :: rest), ?_, fun meant => ?_⟩
        · rw [resolveFrom, resolveAll_array first rest known]
          exact resolved
        · rw [denote, denote] at meant
          exact denoteAll_array_ne first rest (Spec.generic.inj meant).2
      · cases resolved
  | .base name =>
    simp only [resolveFrom] at resolved
    split at resolved
    · next special =>
      rcases map_eq_some_iff.1 resolved with ⟨entry, known, rfl⟩
      refine ⟨.array (.pointer (layered outer (.base "char"))), ?_, fun meant => ?_⟩
      · have inner : resolveFrom env 0 (layered outer (.base "char")) =
            some (.registry entry, outer) := by
          rw [resolve_layered, Nat.zero_add, resolveFrom, if_neg (by decide), known]
          rfl
        rw [resolveFrom, resolveFrom, inner]
      · rw [denote, denote, denote, if_pos special] at meant
        cases meant
    · next other =>
      rcases map_eq_some_iff.1 resolved with ⟨entry, known, rfl⟩
      have taken : InstanceName env entry := by
        by_contra free
        apply complex
        refine ⟨other, fun found known' => ?_⟩
        rw [known] at known'
        cases known'
        exact free
      rcases taken with ⟨base, args, types, parts, nonempty, made⟩
      refine ⟨.generic base args, ?_, fun meant => ?_⟩
      · simp only [resolveFrom, parts, nonempty, made]
        rfl
      · rw [denote, denote, if_neg other, baseType] at meant
        cases meant

/-- The pair of a specifier tells its type exactly for base types under layers. -/
theorem determines_iff_plain {spec : Spec} {pair : Ref × Nat}
    (resolved : resolveTypeSpec env spec = some pair) :
    Determines env pair spec ↔ Plain env spec := by
  constructor
  · intro determines
    by_contra complex
    rcases collides spec resolved complex with ⟨other, same, differs⟩
    exact differs (determines other same)
  · exact plain_determines resolved

def builtins : Env where
  lookup name := if name = "int32" then some name else none
  isExtended _ := false
  extArity name := if name = "Vec" then some 1 else none
  imported _ := false
  exported name := name
  template _ := none
  instantiates _ _ := false

theorem vector_of_arrays_resolves :
    resolveTypeSpec builtins (.builtin "Vec" [.array (.base "int32")]) =
        resolveTypeSpec builtins (.builtin "Vec" [.base "int32"]) ∧
      (resolveTypeSpec builtins (.builtin "Vec" [.base "int32"])).isSome ∧
      denote builtins (.builtin "Vec" [.array (.base "int32")]) ≠
        denote builtins (.builtin "Vec" [.base "int32"]) := by
  refine ⟨rfl, rfl, fun meant => ?_⟩
  rw [denote, denote] at meant
  exact denoteAll_array_ne _ _ (Spec.builtin.inj meant).2

theorem vector_not_determined :
    Determines builtins (.dynamic true "Vec<int32>", 0) (.builtin "Vec" [.base "int32"]) ↔
      Plain builtins (.builtin "Vec" [.base "int32"]) :=
  determines_iff_plain rfl

end Layers

end Lucis.TypeSpec
