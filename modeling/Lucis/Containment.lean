import Lucis.BitStruct
import Lucis.EnumDiscriminants
import Lucis.Generics
import Lucis.Library.Parts

/-!
Structs and unions on their way into the registry: `checkStructDecl` and `checkUnionDecl` of
checkers/Checker_decl.cpp, `resolveTypeSpec` and `registerExternalTypeSymbol` of
checkers/Checker_type.cpp, and the passes of checkers/Checker_driver.cpp, which meet the
declarations in an order of their own. The instantiators of generic templates, the checks of
other declarations and what is brought in with a type are programs of any kind here. A type
that is put together is told by what it is put together from.
-/

namespace Lucis.Containment

open Programs
open Programs.Prog (perform)
open TypeSpec (Name)
open Generics (TemplateKind update)
open EnumDiscriminants (FieldInfo EnumVariantInfo)

section Types

inductive Kind where
  | struct
  | union
  | enum
  | bitStruct
  | tuple
  | fallible
  | extended
  | other
  deriving DecidableEq

inductive Ref where
  | registry (name : Name)
  | volatile (inner : Ref)
  | pointer (pointee : Ref)
  | function (params : List Ref) (ret : Ref)
  | tuple (elems : List Ref)
  | fallible (success error : Ref)
  | extended (base : Name) (args : List Ref)
  | trait (name : Name)

structure TypeInfo where
  name : Name
  kind : Kind
  bitWidth : Nat
  fields : List (FieldInfo Ref)
  parentType : Option Ref
  enumVariantInfos : List (EnumVariantInfo Ref)
  bitFields : List BitStruct.BitFieldInfo
  tupleElements : List Ref
  successType : Option Ref
  errorType : Option Ref
  fromDependencyWalk : Bool

mutual

/-- The entries that a value of the type is laid out from, where `toLLVMType` goes next. -/
def Ref.held : Ref → List Name
  | .registry name => [name]
  | .volatile inner => inner.held
  | .tuple elems => allHeld elems
  | .fallible success error => success.held ++ error.held
  | _ => []

def allHeld : List Ref → List Name
  | [] => []
  | type :: rest => type.held ++ allHeld rest

end

/-- `fieldToLLVMType` begins with the type of the elements, whatever the layers. -/
def fieldsHeld (fields : List (FieldInfo Ref)) : List Name :=
  fields.flatMap fun field => field.typeInfo.held

/-- The entries below a type by value, by the branches of `toLLVMType`, with its parent. -/
def TypeInfo.held (info : TypeInfo) : List Name :=
  match info.kind with
  | .struct => fieldsHeld info.fields ++ info.parentType.toList.flatMap Ref.held
  | .union => fieldsHeld info.fields
  | .enum => info.enumVariantInfos.flatMap fun variant => fieldsHeld variant.payloadFields
  | .tuple => allHeld info.tupleElements
  | .fallible => (info.successType.toList ++ info.errorType.toList).flatMap Ref.held
  | _ => []

def skeleton (kind : Kind) (name : Name) (fromDependencyWalk : Bool) : TypeInfo where
  name := name
  kind := kind
  bitWidth := 0
  fields := []
  parentType := none
  enumVariantInfos := []
  bitFields := []
  tupleElements := []
  successType := none
  errorType := none
  fromDependencyWalk := fromDependencyWalk

def TypeInfo.unfilled (info : TypeInfo) (kind : Kind) : Bool :=
  info.kind = kind ∧ info.fields.isEmpty ∧ info.bitWidth = 0

def TypeInfo.canUpgradeSkeleton (info : TypeInfo) (kind : Kind) : Bool :=
  info.unfilled kind || info.fromDependencyWalk

/-- What `registerExternalTypeSymbol` takes for a skeleton. -/
def TypeInfo.skeletal (info : TypeInfo) : Bool :=
  info.unfilled .struct || info.unfilled .union ||
    (info.kind = .enum ∧ info.enumVariantInfos.isEmpty) ||
    (info.kind = .bitStruct ∧ info.bitFields.isEmpty)

end Types

section Source

/-- The brackets of an array layer; a constant has its value where the checker knows an integer. -/
inductive Length where
  | literal (size : Nat)
  | const (name : Name) (size : Option Int)
  | open

def Length.positive : Length → Bool
  | .literal size => 0 < size
  | .const _ size => size.any (0 < ·)
  | .open => true

/-- A type specifier; `vec`, `map` and `set` are collections named `Vec`, `Map` and `Set`. -/
inductive Spec where
  | auto
  | self
  | base (name : Name)
  | array (length : Length) (elem : Spec)
  | volatile (inner : Spec)
  | pointer (inner : Spec)
  | fallible (inner : Spec) (error : Option Spec)
  | function (params : List Spec) (ret : Spec)
  | tuple (elems : List Spec)
  | collection (base : Name) (args : List Spec)
  | generic (base : Name) (args : List Spec)

def Spec.arraySizes : Spec → List Nat
  | .array (.literal size) elem => size % 2 ^ 32 :: elem.arraySizes
  | .array _ elem => elem.arraySizes
  | _ => []

/-- `active` is `isDeclActive` of the attributes. -/
structure Field where
  active : Bool
  name : Name
  type : Spec

structure StructDecl where
  active : Bool
  name : Name
  typeParams : Option (List Name)
  parent : Option Spec
  fields : List Field

structure UnionDecl where
  active : Bool
  name : Name
  typeParams : Option (List Name)
  fields : List Field

end Source

section Machine

variable (Other : Type)

/-- What the checker remembers beside the types; `other` is all that is not asked for here. -/
structure Context where
  templates : TemplateKind → Name → Bool
  traits : Name → Bool
  genericTraits : Name → Bool
  lazyTypeResolving : List Name
  registeringImported : Bool
  currentModulePath : String
  other : Other

structure State where
  types : Name → Option TypeInfo
  context : Context Other

inductive Action where
  | get
  | registerType (info : TypeInfo)
  | set (change : Context Other → Context Other)
  | error (message : String)
  /-- the bound on the depth of the recursion is met -/
  | exhausted

abbrev Check (α : Type) := Prog (Action Other) (State Other) α

variable {Other}

def State.registerType (s : State Other) (info : TypeInfo) : State Other :=
  { s with types := update s.types info.name (some info) }

def State.set (s : State Other) (change : Context Other → Context Other) : State Other :=
  { s with context := change s.context }

def step : Action Other → State Other → Option (State Other × State Other)
  | .get, s => some (s, s)
  | .registerType info, s => some (s.registerType info, s.registerType info)
  | .set change, s => some (s.set change, s.set change)
  | .error _, _ => none
  | .exhausted, _ => none

def State.parts (s : State Other) (name : Name) : List Name :=
  (s.types name).elim [] TypeInfo.held

def get : Check Other (State Other) := perform .get

def registerType (info : TypeInfo) : Check Other Unit := do
  let _ ← perform (.registerType info)

def set (change : Context Other → Context Other) : Check Other Unit := do
  let _ ← perform (.set change)

def error (message : String) : Check Other Unit := do
  let _ ← perform (.error message)

def State.kind (s : State Other) : Ref → Kind
  | .registry name => (s.types name).elim .other TypeInfo.kind
  | .volatile inner => s.kind inner
  | .tuple _ => .tuple
  | .fallible _ _ => .fallible
  | .extended _ _ => .extended
  | _ => .other

def State.fields (s : State Other) : Ref → List (FieldInfo Ref)
  | .registry name => (s.types name).elim [] TypeInfo.fields
  | .volatile inner => s.fields inner
  | _ => []

def State.parentType (s : State Other) : Ref → Option Ref
  | .registry name => (s.types name).bind TypeInfo.parentType
  | .volatile inner => s.parentType inner
  | _ => none

/-- The loop up the parents; `none` where it does not come to an end. -/
def State.isErrorDerived (s : State Other) : Nat → Ref → Option Bool
  | 0, _ => none
  | depth + 1, type =>
    match type with
    | .registry "Error" => some true
    | _ => (s.parentType type).elim (some false) (s.isErrorDerived depth)

end Machine

section Resolution

variable {Other : Type}

inductive Decl (Other : Type) where
  | struct (decl : StructDecl)
  | union (decl : UnionDecl)
  | enum (check : Check Other Unit)
  | trait (check : Check Other Unit)
  /-- bit structs and aliases -/
  | other (check : Check Other Unit)

structure ExportedSymbol (Other : Type) where
  name : Name
  modulePath : String
  decl : Decl Other

/-- The rest of the checker. `external` finds the type that a name leads to outside the file, from
a module; `exported` is the name behind an import. -/
structure Checker (Other : Type) where
  moduleRegistry : Bool
  external : String → Name → Option (ExportedSymbol Other)
  exported : Name → Option Name
  extArity : Name → Option Nat
  imported : Name → Bool
  specError : Spec → String
  instantiate : TemplateKind → Name → List Ref → Check Other (Option Ref)
  ensureTypeSemanticAttachments : Name → String → Check Other Unit

variable (c : Checker Other) (load : Name → Check Other Unit) (depth : Nat)

def refuse {α : Type} (spec : Spec) : Check Other (Option α) := do
  error (c.specError spec)
  return none

def collection (spec : Spec) (base : Name) (args : List Ref) : Check Other (Option Ref) := do
  let s ← get
  if args.any fun arg => s.kind arg = .extended then refuse c spec
  else return some (.extended base args)

def resolveBase (name : Name) : Check Other (Option Ref) := do
  if name = "cstring" then return some (.pointer (.registry "char"))
  else
    if ((← get).types name).isNone ∧ c.moduleRegistry then load name
    let s ← get
    if (s.types name).isSome then return some (.registry name)
    else if s.context.traits name then return some (.trait name)
    else
      match c.exported name with
      | some exported =>
        if exported ≠ name ∧ (s.types exported).isSome then return some (.registry exported)
        else if exported ≠ name ∧ s.context.traits exported then return some (.trait exported)
        else refuse c (.base name)
      | none => refuse c (.base name)

def resolveGeneric (spec : Spec) (base : Name) (types : List Ref) : Check Other (Option Ref) := do
  let s ← get
  let genericBase := (c.exported base).getD base
  if s.context.templates .struct genericBase then c.instantiate .struct genericBase types
  else if s.context.templates .union genericBase then c.instantiate .union genericBase types
  else if s.context.templates .enum genericBase then c.instantiate .enum genericBase types
  else if s.context.genericTraits genericBase then return some (.trait genericBase)
  else if c.imported base ∧ types.length ≤ 2 ∧ c.extArity base = some types.length then
    collection c spec base types
  else refuse c spec

def resolveError (spec : Spec) (error : Option Ref) : Check Other (Option Ref) := do
  match error with
  | none => refuse c spec
  | some type =>
    match (← get).isErrorDerived depth type with
    | none =>
      let _ ← perform .exhausted
      return none
    | some true => return some type
    | some false => refuse c spec

mutual

def resolveFrom (arrayDims : Nat) : Spec → Check Other (Option (Ref × Nat))
  | .array length elem =>
    if length.positive then resolveFrom (arrayDims + 1) elem
    else refuse c (.array length elem)
  | .volatile inner => do
      let some (type, innerDims) ← resolveFrom 0 inner | return none
      return some (.volatile type, innerDims)
  | .pointer .auto => refuse c (.pointer .auto)
  | .pointer inner => do
      let some (type, innerDims) ← resolveFrom 0 inner | return none
      return some (.pointer type, innerDims)
  | .fallible inner none => do
      let some (success, _) ← resolveFrom 0 inner | return none
      let known := ((← get).types "Error").map fun _ => Ref.registry "Error"
      let some error ← resolveError c depth (.fallible inner none) known | return none
      return some (.fallible success error, arrayDims)
  | .fallible inner (some errorSpec) => do
      let some (success, _) ← resolveFrom 0 inner | return none
      let resolved ← resolveFrom 0 errorSpec
      let some error ← resolveError c depth (.fallible inner (some errorSpec))
        (resolved.map Prod.fst) | return none
      return some (.fallible success error, arrayDims)
  | .function params ret => do
      let some (type, _) ← resolveFrom 0 ret | return none
      let some types ← resolveAll params | return none
      return some (.function types type, arrayDims)
  | .tuple elems => do
      if elems.length < 2 then refuse c (.tuple elems)
      else
        let some types ← resolveAll elems | return none
        return some (.tuple types, arrayDims)
  | .collection base args => do
      if args.length = 0 ∨ 2 < args.length ∨ c.extArity base ≠ some args.length then
        refuse c (.collection base args)
      else
        let some types := (← resolveEach args).allSome | return none
        let some type ← collection c (.collection base args) base types | return none
        return some (type, arrayDims)
  | .generic base args => do
      if args.isEmpty then refuse c (.generic base args)
      else
        let some types ← resolveAll args | return none
        let some type ← resolveGeneric c (.generic base args) base types | return none
        return some (type, arrayDims)
  | .auto => return none
  | .self => refuse c .self
  | .base name => do
      let some type ← resolveBase c load name | return none
      return some (type, arrayDims)

def resolveAll : List Spec → Check Other (Option (List Ref))
  | [] => return some []
  | spec :: rest => do
      let some (type, _) ← resolveFrom 0 spec | return none
      let some types ← resolveAll rest | return none
      return some (type :: types)

def resolveEach : List Spec → Check Other (List (Option Ref))
  | [] => return []
  | spec :: rest => do
      let type ← resolveFrom 0 spec
      let types ← resolveEach rest
      return type.map Prod.fst :: types

end

def resolveTypeSpec (spec : Spec) : Check Other (Option (Ref × Nat)) :=
  resolveFrom c load depth 0 spec

end Resolution

section Declarations

variable {Other : Type} (c : Checker Other) (load : Name → Check Other Unit) (depth : Nat)

/-- The loop over the fields of a struct, behind those it inherits, or of a union, which keeps no
sizes; `none` where a type is unknown. -/
def checkFields (kind name : String) (arraySizes : Spec → List Nat) :
    List Field → List Name → List (FieldInfo Ref) → Check Other (Option (List (FieldInfo Ref)))
  | [], _, fields => return some fields
  | field :: rest, seen, fields => do
      if !field.active then checkFields kind name arraySizes rest seen fields
      else
        match ← resolveTypeSpec c load depth field.type with
        | none =>
          error ("unknown field type in " ++ kind ++ " '" ++ name ++ "'")
          return none
        | some (fieldTI, fieldDims) =>
          if field.name ∈ seen then
            error ("duplicate field '" ++ field.name ++ "' in " ++ kind ++ " '" ++ name ++ "'")
            checkFields kind name arraySizes rest seen fields
          else
            checkFields kind name arraySizes rest (field.name :: seen)
              (fields ++ [⟨field.name, fieldTI, fieldDims, arraySizes field.type⟩])

def checkParent : Option Spec → Check Other (Option (Option Ref × List (FieldInfo Ref)))
  | none => return some (none, [])
  | some spec => do
      let resolved ← resolveTypeSpec c load depth spec
      let s ← get
      match resolved with
      | some (parentTI, _) =>
        if s.kind parentTI = .struct then return some (some parentTI, s.fields parentTI)
        else
          error "parent type not found or is not a struct"
          return none
      | none =>
        error "parent type not found or is not a struct"
        return none

def registerTemplate (kind : TemplateKind) (text name : String) : Check Other Unit := do
  if (← get).context.templates kind name then
    error ("generic " ++ text ++ " '" ++ name ++ "' already defined")
  else
    set fun context => { context with
      templates := fun other => if other = kind then update (context.templates kind) name true
        else context.templates other }

def checkStructDecl (decl : StructDecl) : Check Other Unit := do
  if !decl.active then return ()
  else if decl.typeParams.isSome then registerTemplate .struct "struct" decl.name
  else
    let s ← get
    let existing := s.types decl.name
    if existing.any fun info => !info.canUpgradeSkeleton .struct then
      error ("type '" ++ decl.name ++ "' already defined")
    else
      let skeleton := skeleton .struct decl.name s.context.registeringImported
      if existing.isNone then registerType skeleton
      let some (parentType, inherited) ← checkParent c load depth decl.parent | return ()
      let some fields ← checkFields c load depth "struct" decl.name Spec.arraySizes decl.fields
        (inherited.map FieldInfo.name) inherited | return ()
      registerType { skeleton with parentType := parentType, fields := fields }

def checkUnionDecl (decl : UnionDecl) : Check Other Unit := do
  if !decl.active then return ()
  else if decl.typeParams.isSome then registerTemplate .union "union" decl.name
  else
    let s ← get
    if (s.types decl.name).any fun info => !info.canUpgradeSkeleton .union then
      error ("type '" ++ decl.name ++ "' already defined")
    else
      let some fields ← checkFields c load depth "union" decl.name (fun _ => []) decl.fields [] []
        | return ()
      registerType { skeleton .union decl.name s.context.registeringImported with fields := fields }

def checkDecl : Decl Other → Check Other Unit
  | .struct decl => checkStructDecl c load depth decl
  | .union decl => checkUnionDecl c load depth decl
  | .enum check => check
  | .trait check => check
  | .other check => check

def registerExternalTypeSymbol (sym : ExportedSymbol Other) : Check Other Unit := do
  let s ← get
  let known : Bool := match sym.decl with
    | .trait _ => s.context.traits sym.name
    | _ => (s.types sym.name).any fun existing => !existing.skeletal
  if s.context.templates .struct sym.name || s.context.templates .union sym.name ||
      s.context.templates .enum sym.name then return ()
  else if known then return ()
  else if sym.name ∈ s.context.lazyTypeResolving then return ()
  else
    set fun context => { context with
      lazyTypeResolving := sym.name :: context.lazyTypeResolving
      registeringImported := true
      currentModulePath :=
        if sym.modulePath = "" then context.currentModulePath else sym.modulePath }
    checkDecl c load depth sym.decl
    set fun context => { context with
      lazyTypeResolving := context.lazyTypeResolving.erase sym.name
      registeringImported := s.context.registeringImported
      currentModulePath := s.context.currentModulePath }
    match sym.decl with
    | .struct _ | .union _ | .enum _ => c.ensureTypeSemanticAttachments sym.name sym.modulePath
    | _ => return ()

end Declarations

section Passes

variable {Other : Type} (c : Checker Other)

/-- `depth` bounds how deep one type brings in another. -/
def ensureExternalTypeRegistered : Nat → Name → Check Other Unit
  | 0, _ => do let _ ← perform .exhausted
  | depth + 1, name => do
      match c.external (← get).context.currentModulePath name with
      | some sym => registerExternalTypeSymbol c (ensureExternalTypeRegistered depth) depth sym
      | none => return ()

/-- What the passes of `Checker::check` do with aggregates, and what they do besides. -/
inductive Event (Other : Type) where
  /-- the skeletons of pass 1.5 -/
  | preregister (kind : TemplateKind) (name : Name)
  /-- external and imported declarations, and those a signature depends on, which are marked -/
  | register (marked : Bool) (decl : Decl Other)
  /-- passes 2 and 3 -/
  | struct (decl : StructDecl)
  | union (decl : UnionDecl)
  | resolve (spec : Spec)
  | other (check : Check Other Unit)

variable (depth : Nat)

def preregister (kind : TemplateKind) (name : Name) : Check Other Unit := do
  let s ← get
  if (s.types name).isSome || s.context.templates kind name then return ()
  else
    match kind with
    | .struct => registerType (skeleton .struct name false)
    | .union => registerType (skeleton .union name false)
    | _ => return ()

def handle : Event Other → Check Other Unit
  | .preregister kind name => preregister kind name
  | .register marked decl => do
      let load := ensureExternalTypeRegistered c depth
      if marked then
        set fun context => { context with registeringImported := true }
        checkDecl c load depth decl
        set fun context => { context with registeringImported := false }
      else checkDecl c load depth decl
  | .struct decl => do
      let s ← get
      if decl.typeParams.isSome ∧ s.context.templates .struct decl.name then return ()
      else if (s.types decl.name).any fun existing =>
          existing.kind = .struct ∧ !existing.fields.isEmpty then return ()
      else checkStructDecl c (ensureExternalTypeRegistered c depth) depth decl
  | .union decl => do
      let s ← get
      if decl.typeParams.isSome ∧ s.context.templates .union decl.name then return ()
      else if (s.types decl.name).any fun existing =>
          existing.kind = .union ∧ !existing.fields.isEmpty then return ()
      else checkUnionDecl c (ensureExternalTypeRegistered c depth) depth decl
  | .resolve spec => do
      let _ ← resolveTypeSpec c (ensureExternalTypeRegistered c depth) depth spec
  | .other check => check

def check : List (Event Other) → Check Other Unit
  | [] => return ()
  | event :: rest => do
      handle c depth event
      check rest

def primitive (name : Name) (bitWidth : Nat) : TypeInfo :=
  { skeleton .other name false with bitWidth := bitWidth }

/-- The built-in struct, whose fields are filled in by `fail`. -/
def errorType : TypeInfo :=
  { skeleton .struct "Error" false with
    fields := [("message", "string"), ("file", "string"), ("line", "int32"), ("column", "int32"),
      ("type_id", "int64"), ("parent_type_id", "int64")].map fun field =>
        ⟨field.1, .registry field.2, 0, []⟩ }

/-- `registerBuiltins` -/
def builtins : List TypeInfo :=
  [primitive "int1" 1, primitive "int8" 8, primitive "int16" 16, primitive "int32" 32, primitive "int64" 64,
    primitive "int128" 128, primitive "intinf" 256, primitive "isize" 0, primitive "uint1" 1,
    primitive "uint8" 8, primitive "uint16" 16, primitive "uint32" 32, primitive "uint64" 64,
    primitive "uint128" 128, primitive "usize" 0, primitive "float32" 32, primitive "float64" 64,
    primitive "float80" 80, primitive "float128" 128, primitive "double" 64, primitive "bool" 1,
    primitive "char" 8, primitive "void" 0, primitive "*void" 0, primitive "string" 0,
    skeleton .extended "Mutex" false, errorType]

def State.initial (context : Context Other) : State Other where
  types name := builtins.find? (·.name = name)
  context := context

end Passes

section Containment

open Parts

variable {Other : Type} {s : State Other}

/-- The condition on an action: no part of a type that is registered is the type itself or holds
it by value already. -/
def Fits : Action Other → State Other → Prop
  | .registerType info, s => ∀ part ∈ info.held, ¬ Inside s.parts info.name part
  | _, _ => True

theorem parts_registerType (s : State Other) (info : TypeInfo) :
    (s.registerType info).parts = Function.update s.parts info.name info.held := by
  funext name
  by_cases same : name = info.name
  · subst same
    rw [Function.update_self]
    unfold State.parts State.registerType
    dsimp only
    rw [Generics.update_self]
    rfl
  · rw [Function.update_of_ne same]
    unfold State.parts State.registerType
    dsimp only
    rw [Generics.update_ne same]

theorem parts_set (s : State Other) (change : Context Other → Context Other) :
    (s.set change).parts = s.parts := rfl

/-- `Error` is over types without parts. -/
theorem grounded_initial (context : Context Other) : Grounded (State.initial context).parts := by
  apply grounded_of_size fun name => if name = "Error" then 1 else 0
  intro name part member
  have entry : name = "Error" ∧ part ≠ "Error" := by
    unfold State.parts State.initial at member
    dsimp only at member
    cases found : builtins.find? (·.name = name) with
    | none =>
      rw [found] at member
      cases member
    | some info =>
      rw [found] at member
      have named : info.name = name := by simpa using List.find?_some found
      have listed := List.mem_of_find?_eq_some found
      subst named
      have each : ∀ info ∈ builtins, ∀ part ∈ info.held, info.name = "Error" ∧ part ≠ "Error" := by
        decide
      exact each info listed part member
  simp [entry.1, entry.2]

theorem grounded_step {action : Action Other} {s after : State Other} {answer : State Other}
    (stepped : step action s = some (answer, after)) (grounded : Grounded s.parts) :
    Grounded after.parts ↔ Fits action s := by
  cases action with
  | get =>
    cases stepped
    exact iff_of_true grounded trivial
  | registerType info =>
    cases stepped
    rw [parts_registerType]
    exact grounded_update_iff grounded
  | set change =>
    cases stepped
    rw [parts_set]
    exact iff_of_true grounded trivial
  | error message => cases stepped
  | exhausted => cases stepped

/-- The by-value graph stays well founded along the passes just if every type that is registered
fits. -/
theorem finite_iff (c : Checker Other) (depth : Nat) (events : List (Event Other))
    (context : Context Other) :
    (∀ s, Reaches step (check c depth events) (State.initial context) s → Grounded s.parts) ↔
      Guarded step Fits (check c depth events) (State.initial context) := by
  constructor
  · apply guarded_of_invariant
    intro action s grounded after
    cases action with
    | registerType info => exact (grounded_step rfl grounded).mp (after _ _ rfl)
    | _ => trivial
  · intro guarded s reached
    have kept : ∀ (action : Action Other) (s answer after : State Other), Fits action s →
        Grounded s.parts → step action s = some (answer, after) → Grounded after.parts := by
      intro action s answer after fits grounded stepped
      exact (grounded_step stepped grounded).mpr fits
    exact reached.invariant kept guarded (grounded_initial context)

end Containment

section Examples

def alone : Checker Unit where
  moduleRegistry := false
  external _ _ := none
  exported _ := none
  extArity _ := none
  imported _ := false
  specError _ := "unknown type"
  instantiate _ _ _ := return none
  ensureTypeSemanticAttachments _ _ := return ()

def bare : Context Unit where
  templates _ _ := false
  traits _ := false
  genericTraits _ := false
  lazyTypeResolving := []
  registeringImported := false
  currentModulePath := ""
  other := ()

/-- `struct Node { Node next; }` -/
def node : StructDecl := ⟨true, "Node", none, none, [⟨true, "next", .base "Node"⟩]⟩

theorem node_without_end :
    ∃ s, run step (check alone 1 [.struct node]) (State.initial bare) = some ((), s) ∧
      s.parts "Node" = ["Node"] ∧ ¬ Parts.Grounded s.parts := by
  refine ⟨_, rfl, rfl, ?_⟩
  intro grounded
  have direct : "Node" ∈ ["Node"] := (.head _)
  exact grounded.not_inside direct .refl

end Examples

end Lucis.Containment
