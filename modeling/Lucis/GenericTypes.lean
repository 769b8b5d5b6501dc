import Lucis.Generics

/-!
The two resolvers of type specifiers side by side: the substituting one on a specifier
of a template, and the plain one on that specifier with its type parameters written out.
An instantiator answers with the registered instance or not at all, as in the model of
the plain resolver. Lengths of array layers inside a specifier are positive.
-/

namespace Lucis.GenericTypes

open Programs Option
open TypeSpec (Name Spec Ref Env tupleName collection)
open Generics

section Values

variable (env : Env) (kind : Name → TypeTemplateKind) {α β : Type}

def kindOf (base : Name) : Option TypeTemplateKind :=
  (env.template base).map fun _ => kind base

def oracle : Action → Option Ref
  | .instantiate _ base args => (env.template base).bind fun arity =>
    TypeSpec.instantiate env base arity (args.map Prod.fst)
  | _ => none

def value (x : Resolution α) : Option α := answered (oracle env) x.run

@[simp] theorem value_pure (a : α) : value env (pure a) = some a := rfl

@[simp] theorem value_known (result : Option α) : value env (known result) = result := rfl

@[simp] theorem value_made (type : Ref) : value env (made type) = some type := rfl

@[simp] theorem value_instantiate (kind : TypeTemplateKind) (base : Name)
    (args : List (Ref × Nat)) :
    value env (instantiate kind base args) = (env.template base).bind fun arity =>
      TypeSpec.instantiate env base arity (args.map Prod.fst) := rfl

@[simp] theorem value_bind (x : Resolution α) (f : α → Resolution β) :
    value env (x >>= f) = (value env x).bind fun a => value env (f a) := by
  have unfolded : value env (x >>= f) =
      answered (oracle env) (x.run.bind fun result => result.elim (.pure none) fun a => (f a).run) := by
    change answered (oracle env) (x.run.bind _) = _
    congr 2
    funext result
    cases result <;> rfl
  rw [unfolded, answered_bind]
  unfold value
  cases answered (oracle env) x.run <;> rfl

@[simp] theorem value_both (x : Resolution α) (y : Resolution (List α)) : value env (OptionT.mk do
      let type ← x.run
      let types ← y.run
      return type.bind fun type => types.map (type :: ·)) =
      (value env x).bind fun a => (value env y).map (a :: ·) := by
  have unfolded : value env (OptionT.mk do
      let type ← x.run
      let types ← y.run
      return type.bind fun type => types.map (type :: ·)) =
      answered (oracle env) (x.run.bind fun type => y.run.bind fun types =>
        .pure (type.bind fun type => types.map (type :: ·))) := rfl
  rw [unfolded, answered_bind, answered_bind]
  rfl

theorem resolveAll_length {specs : List Spec} {types : List Ref}
    (resolved : TypeSpec.resolveAll env specs = some types) : types.length = specs.length := by
  induction specs generalizing types with
  | nil =>
    cases resolved
    rfl
  | cons spec rest ih =>
    rw [TypeSpec.resolveAll] at resolved
    split at resolved
    · next first others _ tail =>
      cases resolved
      rw [List.length_cons, ih tail, List.length_cons]
    · cases resolved

theorem collection_arity {base : Name} {args : List Ref}
    (differs : env.extArity base ≠ some args.length) : collection env base args = none := by
  unfold collection
  split
  · next one => exact absurd one differs
  · next two => exact absurd two differs
  · rfl

mutual

/-- The plain resolver comes to what the model of it in `TypeSpec` says. -/
theorem value_resolveFrom (n : Nat) (spec : Spec) :
    value env (resolveFrom env (kindOf env kind) n spec) = TypeSpec.resolveFrom env n spec := by
  match spec with
  | .array elem =>
    rw [resolveFrom, TypeSpec.resolveFrom]
    exact value_resolveFrom (n + 1) elem
  | .volatile inner =>
    have part := value_resolveFrom 0 inner
    simp only [resolveFrom, TypeSpec.resolveFrom, value_bind, part]
    cases TypeSpec.resolveFrom env 0 inner <;> rfl
  | .pointer inner =>
    have part := value_resolveFrom 0 inner
    simp only [resolveFrom, TypeSpec.resolveFrom, value_bind, part]
    cases TypeSpec.resolveFrom env 0 inner <;> rfl
  | .function params ret =>
    have part := value_resolveFrom 0 ret
    have parts := value_resolveAll params
    simp only [resolveFrom, TypeSpec.resolveFrom, value_bind, part, ← parts]
    cases TypeSpec.resolveFrom env 0 ret with
    | none => rfl
    | some result => cases value env (resolveAll env (kindOf env kind) params) <;> rfl
  | .tuple elems =>
    have parts := value_resolveAll elems
    simp only [resolveFrom, TypeSpec.resolveFrom, ← parts]
    split
    · next short =>
      cases known : value env (resolveAll env (kindOf env kind) elems) with
      | none => rfl
      | some types =>
        rw [known] at parts
        have size := resolveAll_length env parts.symm
        rw [map_some]
        dsimp only
        rw [if_neg (by omega)]
        rfl
    · next long =>
      rw [value_bind]
      cases known : value env (resolveAll env (kindOf env kind) elems) with
      | none => rfl
      | some types =>
        rw [known] at parts
        have size := resolveAll_length env parts.symm
        rw [map_some]
        dsimp only
        rw [if_pos (by omega)]
        rfl
  | .builtin base args =>
    have parts := value_resolveEach args
    simp only [resolveFrom, TypeSpec.resolveFrom, ← parts]
    split
    · rw [value_bind]
      cases value env (resolveEach env (kindOf env kind) args) with
      | none => rfl
      | some types =>
        simp only [bind_some, value_bind, value_known, map_some, value_made, value_pure]
        cases collection env base (types.map Prod.fst) <;> rfl
    · next differs =>
      cases known : value env (resolveEach env (kindOf env kind) args) with
      | none => rfl
      | some types =>
        rw [known] at parts
        have size := resolveAll_length env parts.symm
        rw [← size] at differs
        rw [map_some]
        dsimp only
        rw [collection_arity env differs]
        rfl
  | .generic base args =>
    have parts := value_resolveAll args
    simp only [resolveFrom, TypeSpec.resolveFrom, ← parts]
    split
    · next empty =>
      rw [List.isEmpty_iff.1 empty]
      rfl
    · next nonempty =>
      rw [value_bind]
      cases known : value env (resolveAll env (kindOf env kind) args) with
      | none => rfl
      | some types =>
        rw [known] at parts
        have size := resolveAll_length env parts.symm
        have some_type : (types.map Prod.fst).isEmpty = false := by
          cases args with
          | nil => exact absurd rfl nonempty
          | cons _ _ =>
            cases types with
            | nil => simp at size
            | cons _ _ => rfl
        simp only [bind_some, map_some, some_type, TypeSpec.userGeneric, kindOf]
        cases template : env.template (env.exported base) with
        | some arity =>
          simp only [map_some, value_bind, value_instantiate, template, bind_some, value_pure]
          cases TypeSpec.instantiate env (env.exported base) arity (types.map Prod.fst) <;> rfl
        | none =>
          simp only [map_none, value_bind, value_known, value_made, value_pure]
          cases (if env.imported base = true then collection env base (types.map Prod.fst)
            else none) <;> rfl
  | .base name =>
    simp only [resolveFrom, TypeSpec.resolveFrom]
    split
    · cases known : env.lookup "char" <;> simp
    · cases known : env.lookup name <;> simp

theorem value_resolveAll (specs : List Spec) :
    (value env (resolveAll env (kindOf env kind) specs)).map (List.map Prod.fst) =
      TypeSpec.resolveAll env specs := by
  match specs with
  | [] => rfl
  | spec :: rest =>
    have part := value_resolveFrom 0 spec
    have parts := value_resolveAll rest
    simp only [resolveAll, TypeSpec.resolveAll, value_bind, part, ← parts]
    cases TypeSpec.resolveFrom env 0 spec with
    | none => rfl
    | some result => cases value env (resolveAll env (kindOf env kind) rest) <;> rfl

theorem value_resolveEach (specs : List Spec) :
    (value env (resolveEach env (kindOf env kind) specs)).map (List.map Prod.fst) =
      TypeSpec.resolveAll env specs := by
  match specs with
  | [] => rfl
  | spec :: rest =>
    have part := value_resolveFrom 0 spec
    have parts := value_resolveEach rest
    rw [resolveEach, value_both, part, TypeSpec.resolveAll, ← parts]
    cases TypeSpec.resolveFrom env 0 spec with
    | none => rfl
    | some result => cases value env (resolveEach env (kindOf env kind) rest) <;> rfl

end

end Values

section Replacement

variable (args : Name → Option Spec)

mutual

def replaced : Spec → Spec
  | .base name => (args name).getD (.base name)
  | .array elem => .array (replaced elem)
  | .volatile inner => .volatile (replaced inner)
  | .pointer inner => .pointer (replaced inner)
  | .function params ret => .function (replacedAll params) (replaced ret)
  | .tuple elems => .tuple (replacedAll elems)
  | .builtin base parts => .builtin base (replacedAll parts)
  | .generic base parts => .generic base (replacedAll parts)

def replacedAll : List Spec → List Spec
  | [] => []
  | spec :: rest => replaced spec :: replacedAll rest

end

/-- The layers that the plain resolver counts, from `outer` on. -/
def layers (outer : Nat) : Spec → Nat
  | .array elem => layers (outer + 1) elem
  | .volatile inner => layers 0 inner
  | .pointer inner => layers 0 inner
  | _ => outer

def substLayers : Spec → Nat
  | .array elem => arrayLayers elem + 1
  | .volatile inner => layers 0 inner
  | .pointer inner => substLayers inner
  | _ => 0

variable (env : Env)

def typeOf (spec : Spec) : Option Ref := (TypeSpec.resolveTypeSpec env spec).map Prod.fst

def Resolves (subst : Name → Option Ref) : Prop :=
  ∀ name, match args name with
    | none => subst name = none
    | some spec => (typeOf env spec).isSome ∧ subst name = typeOf env spec

def SameCollection (base : Name) (parts : List Spec) : Prop :=
  env.extArity base = some 1 → base = "Vec" ∨ base = "Map" ∨ base = "Set" ∨
    ∀ elem ∈ parts, ∀ type, typeOf env (replaced args elem) = some type →
      type.extended env = false

mutual

/-- The parameters are where the substituting resolver looks for them, and nothing in the
specifier is treated by it in another way. -/
def Carried : Spec → Prop
  | .base _ => True
  | .array elem => Carried elem
  | .pointer inner => Carried inner
  | .volatile inner => (bareText (.volatile inner)).bind args = none ∧ replaced args inner = inner
  | .function params ret => CarriedAll params ∧ Carried ret
  | .tuple elems => replacedAll args elems = elems
  | .builtin base parts =>
    env.template base = none ∧ CarriedAll parts ∧ SameCollection args env base parts
  | .generic base parts =>
    parts ≠ [] ∧ CarriedAll parts ∧
      if (env.template base).isSome then env.exported base = base
      else if env.extArity base = some 1 ∨ env.extArity base = some 2 then
        env.template (env.exported base) = none ∧ env.imported base = true ∧
          SameCollection args env base parts
      else replacedAll args parts = parts

def CarriedAll : List Spec → Prop
  | [] => True
  | spec :: rest => Carried spec ∧ CarriedAll rest

end

end Replacement

section Types

variable (env : Env)

theorem resolveFrom_eq (n : Nat) (spec : Spec) :
    TypeSpec.resolveFrom env n spec = (typeOf env spec).map fun type => (type, layers n spec) := by
  match spec with
  | .array elem =>
    have deeper := resolveFrom_eq (n + 1) elem
    have first := resolveFrom_eq 1 elem
    have same : typeOf env (.array elem) = typeOf env elem := by
      rw [typeOf, TypeSpec.resolveTypeSpec, TypeSpec.resolveFrom.eq_def]
      dsimp only
      rw [first, Option.map_map]
      cases typeOf env elem <;> rfl
    rw [same, layers, ← deeper]
    rfl
  | .volatile inner =>
    have part := resolveFrom_eq 0 inner
    rw [typeOf, TypeSpec.resolveTypeSpec]
    simp only [TypeSpec.resolveFrom, part, layers]
    cases typeOf env inner <;> rfl
  | .pointer inner =>
    have part := resolveFrom_eq 0 inner
    rw [typeOf, TypeSpec.resolveTypeSpec]
    simp only [TypeSpec.resolveFrom, part, layers]
    cases typeOf env inner <;> rfl
  | .function params ret =>
    simp only [typeOf, TypeSpec.resolveTypeSpec, TypeSpec.resolveFrom, layers]
    split <;> rfl
  | .tuple elems =>
    simp only [typeOf, TypeSpec.resolveTypeSpec, TypeSpec.resolveFrom, layers]
    cases TypeSpec.resolveAll env elems with
    | none => rfl
    | some types =>
      dsimp only
      split <;> rfl
  | .builtin base parts =>
    simp only [typeOf, TypeSpec.resolveTypeSpec, TypeSpec.resolveFrom, layers]
    cases TypeSpec.resolveAll env parts with
    | none => rfl
    | some types =>
      dsimp only
      cases collection env base types <;> rfl
  | .generic base parts =>
    simp only [typeOf, TypeSpec.resolveTypeSpec, TypeSpec.resolveFrom, layers]
    cases TypeSpec.resolveAll env parts with
    | none => rfl
    | some types =>
      dsimp only
      split
      · rfl
      · cases TypeSpec.userGeneric env base types <;> rfl
  | .base name =>
    simp only [typeOf, TypeSpec.resolveTypeSpec, TypeSpec.resolveFrom, layers]
    split
    · cases env.lookup "char" <;> rfl
    · cases env.lookup name <;> rfl

theorem resolveTypeSpec_eq (spec : Spec) :
    TypeSpec.resolveTypeSpec env spec = (typeOf env spec).map fun type => (type, layers 0 spec) :=
  resolveFrom_eq env 0 spec

theorem typeOf_from (n : Nat) (spec : Spec) :
    (TypeSpec.resolveFrom env n spec).map Prod.fst = typeOf env spec := by
  rw [resolveFrom_eq, Option.map_map]
  cases typeOf env spec <;> rfl

theorem typeOf_array (elem : Spec) : typeOf env (.array elem) = typeOf env elem :=
  typeOf_from env 1 elem

theorem typeOf_pointer (inner : Spec) :
    typeOf env (.pointer inner) = (typeOf env inner).map .pointer := by
  simp only [typeOf, TypeSpec.resolveTypeSpec, TypeSpec.resolveFrom]
  cases TypeSpec.resolveFrom env 0 inner <;> rfl

theorem resolveAll_cons (spec : Spec) (rest : List Spec) :
    TypeSpec.resolveAll env (spec :: rest) = (typeOf env spec).bind fun type =>
      (TypeSpec.resolveAll env rest).map (type :: ·) := by
  simp only [typeOf, TypeSpec.resolveTypeSpec, TypeSpec.resolveAll]
  cases TypeSpec.resolveFrom env 0 spec with
  | none => rfl
  | some result => cases TypeSpec.resolveAll env rest <;> rfl

theorem typeOf_function (params : List Spec) (ret : Spec) :
    typeOf env (.function params ret) = (typeOf env ret).bind fun type =>
      (TypeSpec.resolveAll env params).map fun types => .function types type := by
  simp only [typeOf, TypeSpec.resolveTypeSpec, TypeSpec.resolveFrom]
  cases TypeSpec.resolveFrom env 0 ret with
  | none => rfl
  | some result => cases TypeSpec.resolveAll env params <;> rfl

theorem typeOf_builtin (base : Name) (parts : List Spec) : typeOf env (.builtin base parts) =
      (TypeSpec.resolveAll env parts).bind (collection env base) := by
  simp only [typeOf, TypeSpec.resolveTypeSpec, TypeSpec.resolveFrom]
  cases TypeSpec.resolveAll env parts with
  | none => rfl
  | some types =>
    dsimp only [bind_some]
    cases collection env base types <;> rfl

theorem typeOf_generic (base : Name) (parts : List Spec) :
    typeOf env (.generic base parts) = (TypeSpec.resolveAll env parts).bind fun types =>
      if types.isEmpty then none else TypeSpec.userGeneric env base types := by
  simp only [typeOf, TypeSpec.resolveTypeSpec, TypeSpec.resolveFrom]
  cases TypeSpec.resolveAll env parts with
  | none => rfl
  | some types =>
    dsimp only [bind_some]
    split
    · rfl
    · cases TypeSpec.userGeneric env base types <;> rfl

end Types

section Agreement

variable {args : Name → Option Spec} {env : Env} {base : Name}

theorem collection_single (elem : Ref) (one : env.extArity base = some 1) :
    collection env base [elem] =
      if elem.extended env then none
      else some (.dynamic true (base ++ "<" ++ elem.name ++ ">")) := by
  simp only [collection, one]

theorem substCollection_single (elem : Ref) (one : env.extArity base = some 1) :
    substCollection env base [elem] =
      if elem.extended env ∧ (base = "Vec" ∨ base = "Map" ∨ base = "Set") then none
      else some (.dynamic true (base ++ "<" ++ elem.name ++ ">")) := by
  simp only [substCollection, one]

theorem substCollection_other {types : List Ref}
    (other : ∀ elem, env.extArity base = some 1 → types ≠ [elem]) :
    substCollection env base types = collection env base types := by
  unfold substCollection collection
  cases arity : env.extArity base with
  | none => rfl
  | some size =>
    match size, types with
    | 1, [elem] => exact (other elem arity rfl).elim
    | 2, [_, _] => rfl
    | 0, _ | 1, [] | 1, _ :: _ :: _ => rfl
    | 2, [] | 2, [_] | 2, _ :: _ :: _ :: _ | _ + 3, _ => rfl

theorem same_collection {parts : List Spec} {types : List Ref}
    (same : SameCollection args env base parts)
    (resolved : TypeSpec.resolveAll env (replacedAll args parts) = some types) :
    substCollection env base types = collection env base types := by
  by_cases single : env.extArity base = some 1 ∧ ∃ elem, types = [elem]
  · obtain ⟨one, elem, rfl⟩ := single
    obtain ⟨part, rfl⟩ : ∃ part, parts = [part] := by
      have size := resolveAll_length env resolved
      match parts with
      | [part] => exact ⟨part, rfl⟩
      | [] => simp [replacedAll] at size
      | _ :: _ :: _ => simp [replacedAll] at size
    have typed : typeOf env (replaced args part) = some elem := by
      rw [replacedAll, replacedAll, resolveAll_cons, TypeSpec.resolveAll] at resolved
      cases head : typeOf env (replaced args part) with
      | none =>
        rw [head] at resolved
        cases resolved
      | some type =>
        rw [head] at resolved
        cases resolved
        rfl
    rw [collection_single elem one, substCollection_single elem one]
    by_cases extended : elem.extended env = true
    · have special : base = "Vec" ∨ base = "Map" ∨ base = "Set" := by
        rcases same one with vec | map | set | plain
        · exact .inl vec
        · exact .inr (.inl map)
        · exact .inr (.inr set)
        · have refused := plain part (.head _) elem typed
          rw [extended] at refused
          cases refused
      rw [if_pos ⟨extended, special⟩, if_pos extended]
    · rw [if_neg fun both => extended both.1, if_neg extended]
  · exact substCollection_other fun elem one types_eq => single ⟨one, elem, types_eq⟩

theorem bare_none {subst} (resolves : Resolves args env subst)
    {spec : Spec} (bare : (bareText spec).bind args = none) :
    (bareText spec).bind subst = none := by
  cases text : bareText spec with
  | none => rfl
  | some name =>
    rw [text, bind_some] at bare
    have param := resolves name
    rw [bare] at param
    exact param

theorem collection_other (types : List Ref) (one : env.extArity base ≠ some 1)
    (two : env.extArity base ≠ some 2) : collection env base types = none := by
  unfold collection
  split
  · next known => exact absurd known one
  · next known => exact absurd known two
  · rfl

variable (kind : Name → TypeTemplateKind) {subst : Name → Option Ref}

theorem value_substGeneric {types} {left}
    (no_template : env.template base = none) (same : substCollection env base (types.map Prod.fst) =
      collection env base (types.map Prod.fst))
    (failed : (∀ parts, collection env base parts = none) → value env left = none) :
    value env (match substGeneric env (kindOf env kind) base types with
      | some resolved => do
          let type ← resolved
          return (type, 0)
      | none => left) = (collection env base (types.map Prod.fst)).map fun type => (type, 0) := by
  have no_kind : kindOf env kind base = none := by rw [kindOf, no_template, map_none]
  unfold substGeneric
  rw [no_kind]
  split
  · next resolved built =>
    have collected : resolved = (do
        let type ← known (substCollection env base (types.map Prod.fst))
        made type) := by
      dsimp only at built
      split at built <;> cases built <;> rfl
    rw [collected, same, value_bind, value_bind, value_known]
    cases collection env base (types.map Prod.fst) <;> rfl
  · next unbuilt =>
    have none_made : ∀ parts, collection env base parts = none := by
      intro parts
      apply collection_other parts
      · intro one
        simp [one] at unbuilt
      · intro two
        simp [two] at unbuilt
    rw [none_made, failed none_made]
    rfl

mutual

theorem value_subst (resolves : Resolves args env subst) (spec : Spec)
    (carried : Carried args env spec) :
    value env (resolveTypeSpecWithSubst env (kindOf env kind) subst spec) =
      (typeOf env (replaced args spec)).map fun type => (type, substLayers spec) := by
  match spec with
  | .base name =>
    have param := resolves name
    rw [resolveTypeSpecWithSubst, replaced]
    cases arg : args name with
    | none =>
      rw [arg] at param
      rw [param, resolveTypeSpec, value_resolveFrom, resolveFrom_eq]
      rfl
    | some written =>
      rw [arg] at param
      obtain ⟨typed, substituted⟩ := param
      obtain ⟨type, found⟩ := isSome_iff_exists.1 typed
      rw [substituted, found, value_pure, getD_some, found]
      rfl
  | .array elem =>
    have part := value_subst resolves elem carried
    rw [resolveTypeSpecWithSubst, value_bind, part, replaced, typeOf_array]
    cases typeOf env (replaced args elem) <;> rfl
  | .pointer inner =>
    have part := value_subst resolves inner carried
    rw [resolveTypeSpecWithSubst, value_bind, part, replaced, typeOf_pointer]
    cases typeOf env (replaced args inner) <;> rfl
  | .volatile inner =>
    obtain ⟨bare, closed⟩ := carried
    rw [resolveTypeSpecWithSubst, bare_none resolves bare, resolveTypeSpec, value_resolveFrom,
      resolveFrom_eq, replaced, closed]
    rfl
  | .tuple elems =>
    have closed : replacedAll args elems = elems := carried
    rw [resolveTypeSpecWithSubst, resolveTypeSpec, value_resolveFrom, resolveFrom_eq, replaced,
      closed]
    rfl
  | .function params ret =>
    obtain ⟨all, one⟩ := carried
    have part := value_subst resolves ret one
    have parts := value_substAll resolves params all
    rw [resolveTypeSpecWithSubst, value_bind, part, replaced, typeOf_function, ← parts]
    cases typeOf env (replaced args ret) with
    | none => rfl
    | some type =>
      simp only [map_some, bind_some, value_bind, value_made, value_pure]
      cases value env (resolveAllWithSubst env (kindOf env kind) subst params) <;> rfl
  | .builtin base elems =>
    obtain ⟨no_template, all, same⟩ := carried
    have parts := value_substAll resolves elems all
    rw [resolveTypeSpecWithSubst, value_bind, replaced, typeOf_builtin, ← parts]
    cases known : value env (resolveAllWithSubst env (kindOf env kind) subst elems) with
    | none => rfl
    | some types =>
      rw [known] at parts
      rw [map_some, bind_some, bind_some]
      refine value_substGeneric kind no_template (same_collection same parts.symm) ?_
      intro none_made
      rw [resolveTypeSpec, value_resolveFrom, resolveFrom_eq, typeOf_builtin]
      cases TypeSpec.resolveAll env elems with
      | none => rfl
      | some others =>
        rw [bind_some, none_made]
        rfl
  | .generic base elems =>
    obtain ⟨nonempty, all, origin⟩ := carried
    have parts := value_substAll resolves elems all
    rw [resolveTypeSpecWithSubst, value_bind, replaced, typeOf_generic, ← parts]
    cases known : value env (resolveAllWithSubst env (kindOf env kind) subst elems) with
    | none => rfl
    | some types =>
      rw [known] at parts
      have some_type : (types.map Prod.fst).isEmpty = false := by
        have size := resolveAll_length env parts.symm
        cases elems with
        | nil => exact absurd rfl nonempty
        | cons _ _ =>
          cases types with
          | nil => simp [replacedAll] at size
          | cons _ _ => rfl
      rw [map_some, bind_some, bind_some, some_type]
      rw [if_neg Bool.false_ne_true]
      split at origin
      · next known_template =>
        obtain ⟨arity, template⟩ := isSome_iff_exists.1 known_template
        rw [TypeSpec.userGeneric, origin]
        simp only [substGeneric, kindOf, template, map_some, value_bind,
          value_instantiate, bind_some, value_pure]
        cases TypeSpec.instantiate env base arity (types.map Prod.fst) <;> rfl
      · next unknown =>
        have no_template : env.template base = none := by simpa using unknown
        split at origin
        · next arity =>
          obtain ⟨exported, imported, same⟩ := origin
          rw [TypeSpec.userGeneric, exported]
          dsimp only
          rw [if_pos imported]
          refine value_substGeneric kind no_template (same_collection same parts.symm) ?_
          intro none_made
          rw [resolveTypeSpec, value_resolveFrom, resolveFrom_eq, typeOf_generic]
          cases TypeSpec.resolveAll env elems with
          | none => rfl
          | some others =>
            rw [bind_some, TypeSpec.userGeneric, exported]
            dsimp only
            rw [if_pos imported, none_made]
            split <;> rfl
        · next arity =>
          -- left to the plain resolver as it stands, which is as it is replaced
          have no_kind : kindOf env kind base = none := by
            rw [kindOf, no_template, map_none]
          have left : substGeneric env (kindOf env kind) base types = none := by
            unfold substGeneric
            rw [no_kind]
            dsimp only
            split
            · next one => exact absurd (.inl one) arity
            · next two => exact absurd (.inr two) arity
            · rfl
          rw [origin] at parts
          rw [left]
          dsimp only
          rw [resolveTypeSpec, value_resolveFrom, resolveFrom_eq, typeOf_generic, ← parts,
            map_some, bind_some, some_type, if_neg Bool.false_ne_true]
          rfl

theorem value_substAll (resolves : Resolves args env subst) (specs : List Spec)
    (carried : CarriedAll args env specs) :
    (value env (resolveAllWithSubst env (kindOf env kind) subst specs)).map (List.map Prod.fst) =
      TypeSpec.resolveAll env (replacedAll args specs) := by
  match specs with
  | [] => rfl
  | spec :: rest =>
    obtain ⟨one, all⟩ := carried
    have part := value_subst resolves spec one
    have parts := value_substAll resolves rest all
    rw [resolveAllWithSubst, value_bind, part, replacedAll, resolveAll_cons, ← parts]
    cases typeOf env (replaced args spec) with
    | none => rfl
    | some type =>
      simp only [map_some, bind_some, value_bind, value_pure]
      cases value env (resolveAllWithSubst env (kindOf env kind) subst rest) <;> rfl

end

end Agreement

end Lucis.GenericTypes
