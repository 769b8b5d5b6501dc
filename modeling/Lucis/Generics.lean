import Lucis.Library.Programs
import Lucis.TypeSpec

/-!
Instantiation of generic templates, checkers/Checker_generic.cpp: the substituting
resolver and what the four instantiators do to the tables they share. A template
is told by the specifiers its instantiation resolves, in order; constraints on
type parameters are a predicate.

Resolvers are programs that call instantiators and add to `dynamicTypes_`. Run on the
tables, these programs and the instantiators call each other; `none` stands for a
recursion that has not come back within its fuel.
-/

namespace Lucis.Generics

open Programs
open Programs.Prog (perform)
open TypeSpec (Name Spec Ref Env mangleGenericName tupleName collection)

inductive TemplateKind where
  | struct
  | union
  | enum
  | func
  deriving DecidableEq

abbrev TypeTemplateKind := {kind : TemplateKind // kind ≠ .func}

theorem struct_not_func : TemplateKind.struct ≠ .func := nofun

/-- A call of an instantiator. The instantiators see the types of the arguments;
the array dimensions they are written with stop before the call. -/
structure Request where
  kind : TemplateKind
  base : Name
  args : List (Ref × Nat)

def Request.typeArgs (r : Request) : List Ref := r.args.map Prod.fst

def Request.mangledName (r : Request) : Name := mangleGenericName r.base r.typeArgs

inductive Origin where
  | declaration
  | template (r : Request)

inductive Slot where
  | dynamicType (type : Ref)
  | registered (name : Name)
  | function (name : Name)

structure State where
  dynamicTypes : List Ref
  typeRegistry : Name → Option Origin
  /-- with the return type, all that is asked of a function's type here -/
  functions : Name → Option (Origin × Ref)
  instantiatingGenerics : List Name

section Tables

def update {α : Type} (table : Name → α) (name : Name) (entry : α) : Name → α :=
  fun other => if other = name then entry else table other

@[simp] theorem update_self {α : Type} (table : Name → α) (name : Name) (entry : α) :
    update table name entry name = entry :=
  if_pos rfl

theorem update_ne {α : Type} {table : Name → α} {name other : Name} {entry : α}
    (distinct : other ≠ name) : update table name entry other = table other :=
  if_neg distinct

def State.dynamicType (s : State) (type : Ref) : State :=
  { s with dynamicTypes := s.dynamicTypes ++ [type] }

def State.registerType (s : State) (name : Name) (origin : Origin) : State :=
  { s with typeRegistry := update s.typeRegistry name (some origin) }

def State.registerFunction (s : State) (name : Name) (origin : Origin) (ret : Ref) : State :=
  { s with functions := update s.functions name (some (origin, ret)) }

def State.cached (s : State) (r : Request) : Option Slot :=
  match r.kind with
  | .func => if (s.functions r.mangledName).isSome then some (.function r.mangledName) else none
  | _ =>
    match s.dynamicTypes.find? fun type => type.name = r.mangledName with
    | some type => some (.dynamicType type)
    | none =>
      if (s.typeRegistry r.mangledName).isSome then some (.registered r.mangledName) else none

/-- What is returned for a name in progress: structs give `int32`, the others an error. -/
def State.running (s : State) (r : Request) : Option Slot :=
  match r.kind with
  | .struct => if (s.typeRegistry "int32").isSome then some (.registered "int32") else none
  | _ => none

def State.origin (s : State) : Slot → Option Origin
  | .dynamicType _ => some .declaration
  | .registered name => s.typeRegistry name
  | .function name => (s.functions name).map Prod.fst

def State.result (s : State) : Slot → Option Ref
  | .dynamicType type => some type
  | .registered name => some (.registry name)
  | .function name => (s.functions name).map Prod.snd

def State.enter (s : State) (r : Request) : State :=
  let marked := { s with instantiatingGenerics := r.mangledName :: s.instantiatingGenerics }
  match r.kind with
  | .func => marked
  | _ => marked.registerType r.mangledName (.template r)

/-- The instance itself; `ret` is the return type of a function. -/
def State.register (s : State) (r : Request) (ret : Ref) : State :=
  match r.kind with
  | .func => s.registerFunction r.mangledName (.template r) ret
  | _ => s.registerType r.mangledName (.template r)

def State.leave (s : State) (r : Request) : State :=
  { s with instantiatingGenerics := s.instantiatingGenerics.filter (· ≠ r.mangledName) }

variable {r : Request} {s : State}

theorem enter_type (type : r.kind ≠ .func) : s.enter r = State.registerType
      { s with instantiatingGenerics := r.mangledName :: s.instantiatingGenerics }
      r.mangledName (.template r) := by
  unfold State.enter
  split
  · next func => exact absurd func type
  · rfl

theorem enter_func (func : r.kind = .func) :
    s.enter r = { s with instantiatingGenerics := r.mangledName :: s.instantiatingGenerics } := by
  simp [State.enter, func]

theorem register_type {ret : Ref} (type : r.kind ≠ .func) :
    s.register r ret = s.registerType r.mangledName (.template r) := by
  unfold State.register
  split
  · next func => exact absurd func type
  · rfl

theorem register_func {ret : Ref} (func : r.kind = .func) :
    s.register r ret = s.registerFunction r.mangledName (.template r) ret := by
  simp [State.register, func]

theorem enter_running (s : State) (r : Request) :
    (s.enter r).instantiatingGenerics = r.mangledName :: s.instantiatingGenerics := by
  unfold State.enter
  split <;> rfl

theorem register_dynamicTypes (s : State) (r : Request) (ret : Ref) :
    (s.register r ret).dynamicTypes = s.dynamicTypes := by
  unfold State.register
  split <;> rfl

theorem register_running (s : State) (r : Request) (ret : Ref) :
    (s.register r ret).instantiatingGenerics = s.instantiatingGenerics := by
  unfold State.register
  split <;> rfl

theorem enter_dynamicTypes (s : State) (r : Request) :
    (s.enter r).dynamicTypes = s.dynamicTypes := by
  unfold State.enter
  split <;> rfl

end Tables

section Resolvers

inductive Action where
  | instantiate (kind : TypeTemplateKind) (base : Name) (args : List (Ref × Nat))
  | call (base : Name) (args : List (Ref × Nat))
  | dynamicType (type : Ref)

def Action.request : Action → Option Request
  | .instantiate kind base args => some ⟨kind, base, args⟩
  | .call base args => some ⟨.func, base, args⟩
  | .dynamicType _ => none

/-- A resolver; a request is answered by a type, or by `nullptr` after an error. Nothing
is made here of what a call in a body returns. -/
abbrev Resolution (α : Type) := OptionT (Prog Action (Option Ref)) α

def instantiate (kind : TypeTemplateKind) (base : Name) (args : List (Ref × Nat)) :
    Resolution Ref :=
  OptionT.mk (perform (.instantiate kind base args))

/-- A type that is added to `dynamicTypes_`. -/
def made (type : Ref) : Resolution Ref :=
  OptionT.mk (.act (.dynamicType type) fun _ => .pure (some type))

def known {α : Type} (result : Option α) : Resolution α :=
  OptionT.mk (.pure result)

variable (env : Env) (kindOf : Name → Option TypeTemplateKind)

mutual

/-- `resolveTypeSpec`, with what it instantiates and what it adds to `dynamicTypes_`. -/
def resolveFrom (arrayDims : Nat) : Spec → Resolution (Ref × Nat)
  | .array elem => resolveFrom (arrayDims + 1) elem
  | .volatile inner => do
      let (type, innerDims) ← resolveFrom 0 inner
      let type ← made (.dynamic (type.extended env) ("volatile " ++ type.name))
      return (type, innerDims)
  | .pointer inner => do
      let (type, innerDims) ← resolveFrom 0 inner
      let type ← made (.pointer type)
      return (type, innerDims)
  | .function params ret => do
      let (type, _) ← resolveFrom 0 ret
      let types ← resolveAll params
      let type ← made (.function (types.map Prod.fst) type)
      return (type, arrayDims)
  | .tuple elems => do
      let types ← if elems.length < 2 then failure else resolveAll elems
      let type ← made (.dynamic false (tupleName (types.map Prod.fst)))
      return (type, arrayDims)
  | .builtin base args => do
      let types ← if env.extArity base = some args.length then resolveEach args else failure
      let type ← known (collection env base (types.map Prod.fst))
      let type ← made type
      return (type, arrayDims)
  | .generic base args => do
      let types ← if args.isEmpty then failure else resolveAll args
      match kindOf (env.exported base) with
      | some kind =>
        let type ← instantiate kind (env.exported base) types
        return (type, arrayDims)
      | none =>
        let type ← known (if env.imported base then
          collection env base (types.map Prod.fst) else none)
        let type ← made type
        return (type, arrayDims)
  | .base name =>
    if name = "cstring" then do
      let entry ← known (env.lookup "char")
      let type ← made (.pointer (.registry entry))
      return (type, arrayDims)
    else do
      let entry ← known (env.lookup name)
      return (.registry entry, arrayDims)

def resolveAll : List Spec → Resolution (List (Ref × Nat))
  | [] => return []
  | spec :: rest => do
      let type ← resolveFrom 0 spec
      let types ← resolveAll rest
      return type :: types

def resolveEach : List Spec → Resolution (List (Ref × Nat))
  | [] => return []
  | spec :: rest => OptionT.mk do
      let type ← (resolveFrom 0 spec).run
      let types ← (resolveEach rest).run
      return type.bind fun type => types.map (type :: ·)

end

def resolveTypeSpec (spec : Spec) : Resolution (Ref × Nat) :=
  resolveFrom env kindOf 0 spec

/-- The text of a specifier without brackets, which is what a type parameter is compared with. -/
def bareText : Spec → Option Name
  | .base name => some name
  | .volatile inner => (bareText inner).map ("volatile" ++ ·)
  | _ => none

def arrayLayers : Spec → Nat
  | .array elem => arrayLayers elem + 1
  | _ => 0

variable (subst : Name → Option Ref)

/-- The collection rule of the substituting resolver: nothing has to be imported, and only
`Vec`, `Map` and `Set` refuse a collection as their element. -/
def substCollection (base : Name) (args : List Ref) : Option Ref :=
  match env.extArity base, args with
  | some 1, [elem] =>
    if elem.extended env ∧ (base = "Vec" ∨ base = "Map" ∨ base = "Set") then none
    else some (.dynamic true (base ++ "<" ++ elem.name ++ ">"))
  | some 2, [key, value] =>
    if key.extended env || value.extended env then none
    else some (.dynamic true (base ++ "<" ++ key.name ++ ", " ++ value.name ++ ">"))
  | _, _ => none

/-- `Name<T, ...>` once its arguments are there; `none` where the plain resolver is asked. -/
def substGeneric (base : Name) (types : List (Ref × Nat)) : Option (Resolution Ref) :=
  match kindOf base with
  | some kind => some (instantiate kind base types)
  | none =>
    match env.extArity base with
    | some 1 => some do
        let type ← known (substCollection env base (types.map Prod.fst))
        made type
    | some 2 => some do
        let type ← known (substCollection env base (types.map Prod.fst))
        made type
    | _ => none

mutual

/-- `resolveTypeSpecWithSubst`. Specifiers it has no case for, such as `volatile T` and
tuples, go to the plain resolver, type parameters in them included. -/
def resolveTypeSpecWithSubst : Spec → Resolution (Ref × Nat)
  | .base name =>
    match subst name with
    | some arg => return (arg, 0)
    | none => resolveTypeSpec env kindOf (.base name)
  | .volatile inner =>
    match (bareText (.volatile inner)).bind subst with
    | some arg => return (arg, 0)
    | none => resolveTypeSpec env kindOf (.volatile inner)
  | .pointer inner => do
      let (type, innerDims) ← resolveTypeSpecWithSubst inner
      let type ← made (.pointer type)
      return (type, innerDims)
  | .array elem => do
      let (type, _) ← resolveTypeSpecWithSubst elem
      return (type, arrayLayers elem + 1)
  | .builtin base args => do
      let types ← resolveAllWithSubst args
      match substGeneric env kindOf base types with
      | some resolved => do
          let type ← resolved
          return (type, 0)
      | none => resolveTypeSpec env kindOf (.builtin base args)
  | .generic base args => do
      let types ← resolveAllWithSubst args
      match substGeneric env kindOf base types with
      | some resolved => do
          let type ← resolved
          return (type, 0)
      | none => resolveTypeSpec env kindOf (.generic base args)
  | .function params ret => do
      let (type, _) ← resolveTypeSpecWithSubst ret
      let types ← resolveAllWithSubst params
      let type ← made (.function (types.map Prod.fst) type)
      return (type, 0)
  | .tuple elems => resolveTypeSpec env kindOf (.tuple elems)

def resolveAllWithSubst : List Spec → Resolution (List (Ref × Nat))
  | [] => return []
  | spec :: rest => do
      let type ← resolveTypeSpecWithSubst spec
      let types ← resolveAllWithSubst rest
      return type :: types

end

end Resolvers

section Instantiators

/-- What the body of a function, or the methods and the attachments of a type, ask for. The
arguments of a call are written out or inferred, here a function of the substitution. -/
inductive Use where
  | type (spec : Spec)
  | method (ret : Spec) (params : List Spec)
  | closed (spec : Spec)
  | call (base : Name) (args : (Name → Option Ref) → Option (List (Ref × Nat)))

/-- `required` are the types of the fields or payloads, or the return type of a function and
the types of its parameters: the instantiation fails with the first that does not resolve. -/
structure Template where
  typeParams : List Name
  satisfied : List Ref → Bool
  required : List Spec
  duplicateField : Bool
  uses : List Use

structure Program where
  env : Env
  templates : TemplateKind → Name → Option Template

def Program.kindOf (p : Program) (base : Name) : Option TypeTemplateKind :=
  [⟨.struct, nofun⟩, ⟨.union, nofun⟩, ⟨.enum, nofun⟩].find? fun kind =>
    (p.templates kind base).isSome

def substitution (typeParams : List Name) (typeArgs : List Ref) : Name → Option Ref :=
  (typeParams.zip typeArgs).foldl (fun subst entry => update subst entry.1 (some entry.2))
    fun _ => none

def Program.required (p : Program) (t : Template) (r : Request) :
    Prog Action (Option Ref) (Option (List (Ref × Nat))) :=
  (resolveAllWithSubst p.env p.kindOf (substitution t.typeParams r.typeArgs) t.required).run

def Program.resolveSome (p : Program) (subst : Name → Option Ref) :
    List Spec → Prog Action (Option Ref) Unit
  | [] => .pure ()
  | spec :: rest =>
    (resolveTypeSpecWithSubst p.env p.kindOf subst spec).run.bind fun _ =>
      p.resolveSome subst rest

def Program.use (p : Program) (subst : Name → Option Ref) :
    Use → Prog Action (Option Ref) Unit
  | .type spec => p.resolveSome subst [spec]
  | .method ret params =>
    (resolveTypeSpecWithSubst p.env p.kindOf subst ret).run.bind fun type =>
      p.resolveSome subst (if type.isSome then params else [])
  | .closed spec => (resolveTypeSpec p.env p.kindOf spec).run.bind fun _ => .pure ()
  | .call base args =>
    match args subst with
    | some types => .act (.call base types) fun _ => .pure ()
    | none => .pure ()

/-- What is checked behind the registered instance; a use that fails leaves an error only. -/
def Program.used (p : Program) (subst : Name → Option Ref) :
    List Use → Prog Action (Option Ref) Unit
  | [] => .pure ()
  | use :: rest => (p.use subst use).bind fun _ => p.used subst rest

/-- The result of a finished instantiation: the instance of a type, the return type of a
function, which is the first type it resolves. -/
def Request.instantiated (r : Request) (types : List (Ref × Nat)) : Option Ref :=
  match r.kind with
  | .func => types.head?.map Prod.fst
  | _ => some (.registry r.mangledName)

/-- The types that the methods of a type see: its parameters, and itself as `Self`. -/
def Template.inner (t : Template) (r : Request) : Name → Option Ref :=
  match r.kind with
  | .func => substitution t.typeParams r.typeArgs
  | _ => update (substitution t.typeParams r.typeArgs) "Self" (some (.registry r.mangledName))

def act (instantiator : Request → State → Option (Option Ref × State)) :
    Action → State → Option (Option Ref × State)
  | .instantiate kind base args, s => instantiator ⟨kind, base, args⟩ s
  | .call base args, s => (instantiator ⟨.func, base, args⟩ s).map fun result => (none, result.2)
  | .dynamicType type, s => some (none, s.dynamicType type)

/-- The tables between the types of an instance and its methods or body. A duplicate field
takes the name out of progress early. -/
def registered (t : Template) (r : Request) (type : Ref) (s : State) : State :=
  if t.duplicateField then (s.register r type).leave r else s.register r type

def Program.build (p : Program) (step : Action → State → Option (Option Ref × State))
    (t : Template) (r : Request) (s : State) : Option (Option Ref × State) := do
  let (types, s) ← run step (p.required t r) (s.enter r)
  match types.bind r.instantiated with
  | none => some (none, s.leave r)
  | some type =>
    let (_, s) ← run step (p.used (t.inner r) t.uses)
      (registered t r type s)
    some (some type, s.leave r)

/-- `instantiateGenericStruct`, `-Union`, `-Enum` and `-Func`. -/
def instantiateGeneric (p : Program) :
    Nat → Request → State → Option (Option Ref × State)
  | 0, _, _ => none
  | fuel + 1, r, s =>
    match p.templates r.kind r.base with
    | none => some (none, s)
    | some t =>
      if r.args.length ≠ t.typeParams.length then some (none, s)
      else
        match s.cached r with
        | some slot => some (s.result slot, s)
        | none =>
          if r.mangledName ∈ s.instantiatingGenerics then
            some ((s.running r).bind s.result, s)
          else if !t.satisfied r.typeArgs then some (none, s)
          else p.build (act (instantiateGeneric p fuel)) t r s

theorem build_cases {p : Program} {step}
    {t : Template} {r : Request} {s s' : State} {out : Option Ref}
    (built : p.build step t r s = some (out, s')) :
    ∃ types middle, run step (p.required t r) (s.enter r) = some (types, middle) ∧
      ((types.bind r.instantiated = none ∧ out = none ∧ s' = middle.leave r) ∨
        ∃ type last, types.bind r.instantiated = some type ∧ run step (p.used (t.inner r) t.uses)
            (registered t r type middle) = some ((), last) ∧
          out = some type ∧ s' = last.leave r) := by
  unfold Program.build at built
  obtain ⟨⟨types, middle⟩, resolved, rest⟩ := Option.bind_eq_some_iff.1 built
  refine ⟨types, middle, resolved, ?_⟩
  simp only at rest
  split at rest
  · next failed =>
    cases rest
    exact .inl ⟨failed, rfl, rfl⟩
  · next type made =>
    obtain ⟨⟨⟨⟩, last⟩, used, ended⟩ := Option.bind_eq_some_iff.1 rest
    cases ended
    exact .inr ⟨type, last, made, used, rfl, rfl⟩

inductive Outcome (p : Program) (fuel : Nat) (r : Request) (s : State) :
    Option Ref → State → Prop where
  | unknown (missing : p.templates r.kind r.base = none) : Outcome p fuel r s none s
  | arity (t : Template) (known : p.templates r.kind r.base = some t)
      (differs : r.args.length ≠ t.typeParams.length) : Outcome p fuel r s none s
  | cached (t : Template) (known : p.templates r.kind r.base = some t)
      (fits : r.args.length = t.typeParams.length) (slot : Slot)
      (found : s.cached r = some slot) : Outcome p fuel r s (s.result slot) s
  | running (t : Template) (known : p.templates r.kind r.base = some t)
      (fits : r.args.length = t.typeParams.length) (missing : s.cached r = none)
      (inside : r.mangledName ∈ s.instantiatingGenerics) :
      Outcome p fuel r s ((s.running r).bind s.result) s
  | refused (t : Template) (known : p.templates r.kind r.base = some t)
      (fits : r.args.length = t.typeParams.length) (missing : s.cached r = none)
      (outside : r.mangledName ∉ s.instantiatingGenerics)
      (unsatisfied : t.satisfied r.typeArgs = false) : Outcome p fuel r s none s
  | built (t : Template) (known : p.templates r.kind r.base = some t)
      (fits : r.args.length = t.typeParams.length) (missing : s.cached r = none)
      (outside : r.mangledName ∉ s.instantiatingGenerics)
      (satisfied : t.satisfied r.typeArgs = true) (out : Option Ref) (s' : State)
      (made : p.build (act (instantiateGeneric p fuel)) t r s = some (out, s')) :
      Outcome p fuel r s out s'

theorem instantiate_outcome {p : Program} {fuel : Nat} {r : Request} {s s' : State}
    {out : Option Ref} (ran : instantiateGeneric p (fuel + 1) r s = some (out, s')) :
    Outcome p fuel r s out s' := by
  rw [instantiateGeneric] at ran
  split at ran
  · next missing =>
    cases ran
    exact .unknown missing
  · next t known =>
    split at ran
    · next differs =>
      cases ran
      exact .arity t known differs
    · next same =>
      have fits : r.args.length = t.typeParams.length := by simpa using same
      split at ran
      · next slot found =>
        cases ran
        exact .cached t known fits slot found
      · next missing =>
        split at ran
        · next inside =>
          cases ran
          exact .running t known fits missing inside
        · next outside =>
          split at ran
          · next unsatisfied =>
            cases ran
            exact .refused t known fits missing outside (by simpa using unsatisfied)
          · next satisfied =>
            exact .built t known fits missing outside (by simpa using satisfied) out s' ran

end Instantiators

end Lucis.Generics
