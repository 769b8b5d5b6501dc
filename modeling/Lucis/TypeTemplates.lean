import Lucis.EnumDiscriminants
import Lucis.GenericTypes

/-!
Fields and variants, as `checkStructDecl`, `checkUnionDecl` and `checkEnumDecl` of
checkers/Checker_decl.cpp read them off a declaration and the three instantiators of
checkers/Checker_generic.cpp off a template. A type is written here with the lengths of
its outer array layers. Of an instantiation there is what follows the cache and the
constraints, up to the registered type.
-/

namespace Lucis.Monomorph

open TypeSpec (Name Spec Ref Env layered)
open Generics (TemplateKind TypeTemplateKind substitution resolveTypeSpecWithSubst)
open GenericTypes List Option
open EnumDiscriminants (VariantBody EnumVariant EnumDecl EnumPayloadKind FieldInfo EnumVariantInfo
  Context)

section Written

/-- What stands in the brackets of a layer: a literal as `stoll` reads it, a constant with its
value where the checker knows an integer for it, or nothing. -/
inductive Length where
  | literal (size : Nat)
  | const (size : Option Int)
  | open

def Length.positive : Length → Bool
  | .literal size => 0 < size
  | .const size => size.any (0 < ·)
  | .open => true

structure Written where
  lengths : List Length
  elem : Spec
  flat : ∀ inner, elem ≠ .array inner

def Written.spec (w : Written) : Spec := layered w.lengths.length w.elem

def Written.arraySizes (w : Written) : List Nat :=
  w.lengths.filterMap fun length => match length with
    | .literal size => some (size % 2 ^ 32)
    | _ => none

variable (args : Name → Option Written)

def argSpecs (name : Name) : Option Spec := (args name).map Written.spec

def argument : Spec → Option Written
  | .base name => args name
  | _ => none

theorem replaced_flat {spec : Spec} (flat : ∀ inner, spec ≠ .array inner)
    (other : argument args spec = none) (inner : Spec) :
    GenericTypes.replaced (argSpecs args) spec ≠ .array inner := by
  cases spec with
  | array elem => exact absurd rfl (flat elem)
  | base name =>
    have free : args name = none := other
    rw [GenericTypes.replaced, argSpecs, free]
    exact Spec.noConfusion
  | _ => exact Spec.noConfusion

def Written.replaced (w : Written) : Written :=
  match found : argument args w.elem with
  | some arg => ⟨w.lengths ++ arg.lengths, arg.elem, arg.flat⟩
  | none =>
    ⟨w.lengths, GenericTypes.replaced (argSpecs args) w.elem, replaced_flat args w.flat found⟩

variable {args}

theorem replaced_layered (n : Nat) (spec : Spec) :
    GenericTypes.replaced (argSpecs args) (layered n spec) =
      layered n (GenericTypes.replaced (argSpecs args) spec) := by
  induction n with
  | zero => rfl
  | succ n ih => rw [layered, layered, GenericTypes.replaced, ih]

theorem layered_add (n m : Nat) (spec : Spec) :
    layered (n + m) spec = layered n (layered m spec) := by
  induction n with
  | zero => rw [zero_add, layered]
  | succ n ih => rw [Nat.succ_add, layered, layered, ih]

theorem replaced_spec (w : Written) :
    (w.replaced args).spec = GenericTypes.replaced (argSpecs args) w.spec := by
  unfold Written.replaced Written.spec
  rw [replaced_layered]
  split
  · next arg found =>
    obtain ⟨lengths, elem, flat⟩ := w
    cases elem with
    | base name =>
      have known : args name = some arg := found
      rw [length_append, layered_add, GenericTypes.replaced, argSpecs, known]
      rfl
    | _ => cases found
  · rfl

end Written

section Context

variable (expression : Type)

/-- The rest of the checker: `taken` are the names that a declaration of the kind cannot have,
`structFields` the fields of a type that is a struct. -/
structure Checker where
  env : Env
  kind : Name → TypeTemplateKind
  template : TemplateKind → String → Bool
  taken : TemplateKind → String → Bool
  structFields : Ref → Option (List (FieldInfo Ref))
  tryEvalUSizeExpr : expression → Option UInt64

variable {expression} (c : Checker expression)

def Checker.resolve (w : Written) : Option (Ref × Nat) :=
  if w.lengths.all Length.positive then TypeSpec.resolveTypeSpec c.env w.spec else none

def Checker.resolveSubst (subst : Name → Option Ref) (w : Written) : Option (Ref × Nat) :=
  value c.env (resolveTypeSpecWithSubst c.env (kindOf c.env c.kind) subst w.spec)

end Context

section Fields

/-- `active` is `isDeclActive` of the attributes. -/
structure Field where
  active : Bool
  name : String
  type : Written

def Field.replaced (args : Name → Option Written) (field : Field) : Field :=
  { field with type := field.type.replaced args }

structure Reading where
  seen : List String
  fields : List (FieldInfo Ref)
  errors : List String

def Reading.error (s : Reading) (message : String) : Reading :=
  { s with errors := s.errors ++ [message] }

structure Reader where
  considers : Field → Bool
  resolve : Written → Option (Ref × Nat)
  arraySizes : Written → List Nat
  unresolved : String
  duplicate : String → String

/-- One turn of the loop; `false` where it returns from the whole function. -/
def readField (r : Reader) (s : Reading) (field : Field) : Reading × Bool :=
  if !r.considers field then (s, true)
  else
    match r.resolve field.type with
    | none => (s.error r.unresolved, false)
    | some (fieldTI, fieldDims) =>
      if field.name ∈ s.seen then (s.error (r.duplicate field.name), true)
      else
        ({ s with
            seen := field.name :: s.seen
            fields := s.fields ++
              [⟨field.name, fieldTI, fieldDims, r.arraySizes field.type⟩] }, true)

def readFields (r : Reader) (s : Reading) : List Field → Reading × Bool
  | [] => (s, true)
  | field :: rest =>
    match readField r s field with
    | (s, true) => readFields r s rest
    | (s, false) => (s, false)

def fieldsRead (r : Reader) (seen : List String) : List Field → Option (List (FieldInfo Ref))
  | [] => some []
  | field :: rest =>
    if !r.considers field then fieldsRead r seen rest
    else
      match r.resolve field.type with
      | none => none
      | some (fieldTI, fieldDims) =>
        if field.name ∈ seen then none
        else (fieldsRead r (field.name :: seen) rest).map fun infos =>
          ⟨field.name, fieldTI, fieldDims, r.arraySizes field.type⟩ :: infos

variable (r : Reader)

theorem readField_errors (s : Reading) (field : Field)
    (clean : (readField r s field).1.errors = []) : s.errors = [] := by
  unfold readField at clean
  split at clean
  · exact clean
  · split at clean
    · simp [Reading.error] at clean
    · split at clean
      · simp [Reading.error] at clean
      · exact clean

variable (fields : List Field)

theorem readFields_errors (s : Reading)
    (clean : (readFields r s fields).1.errors = []) : s.errors = [] := by
  induction fields generalizing s with
  | nil => exact clean
  | cons field rest ih =>
    rw [readFields] at clean
    apply readField_errors r s field
    split at clean
    · next turn =>
      rw [turn]
      exact ih _ clean
    · next turn =>
      rw [turn]
      exact clean

/-- A loop ends without an error just if `fieldsRead` has its fields. -/
theorem readFields_clean {s : Reading} (before : s.errors = []) (infos : List (FieldInfo Ref)) :
    (∃ s', readFields r s fields = (s', true) ∧ s'.errors = [] ∧ s'.fields = infos) ↔
      ∃ added, fieldsRead r s.seen fields = some added ∧ infos = s.fields ++ added := by
  induction fields generalizing s with
  | nil =>
    constructor
    · rintro ⟨s', ended, clean, rfl⟩
      cases ended
      exact ⟨[], rfl, (append_nil _).symm⟩
    · rintro ⟨added, none_added, rfl⟩
      cases none_added
      exact ⟨s, rfl, before, (append_nil _).symm⟩
  | cons field rest ih =>
    rw [readFields, fieldsRead]
    by_cases considered : r.considers field = true
    · cases resolved : r.resolve field.type with
      | none => simp [readField, considered, resolved]
      | some pair =>
        obtain ⟨fieldTI, fieldDims⟩ := pair
        by_cases twice : field.name ∈ s.seen
        · simp only [readField, considered, resolved, twice]
          constructor
          · rintro ⟨s', ended, clean, _⟩
            have late : (readFields r (s.error (r.duplicate field.name)) rest).1.errors = [] :=
              (congrArg (fun out => out.1.errors) ended).trans clean
            simpa [Reading.error] using readFields_errors r rest _ late
          · rintro ⟨added, none_added, _⟩
            cases none_added
        · simp only [readField, considered, resolved, twice]
          let info : FieldInfo Ref :=
            ⟨field.name, fieldTI, fieldDims, r.arraySizes field.type⟩
          refine (ih (s := ⟨field.name :: s.seen, s.fields ++ [info], s.errors⟩) before).trans ?_
          constructor
          · rintro ⟨added, later, rfl⟩
            refine ⟨info :: added, ?_, by simp⟩
            exact map_eq_some_iff.2 ⟨added, later, rfl⟩
          · rintro ⟨added, later, rfl⟩
            obtain ⟨others, found, rfl⟩ := map_eq_some_iff.1 later
            exact ⟨others, found, by simp [info]⟩
    · simp only [readField, considered]
      exact ih before

theorem fieldsRead_length {seen}
    {infos} (read : fieldsRead r seen fields = some infos) :
    infos.length = (fields.filter r.considers).length := by
  induction fields generalizing seen infos with
  | nil =>
    cases read
    rfl
  | cons field rest ih =>
    rw [fieldsRead] at read
    split at read
    · next off =>
      rw [filter_cons_of_neg (by simpa using off)]
      exact ih read
    · next on =>
      rw [filter_cons_of_pos (by simpa using on)]
      split at read
      · cases read
      · split at read
        · cases read
        · obtain ⟨others, found, rfl⟩ := map_eq_some_iff.1 read
          rw [length_cons, length_cons, ih found]

end Fields

section Aggregates

/-- The parts of a `TypeInfo` that its declaration decides. -/
inductive Info where
  | struct (parentType : Option Ref) (fields : List (FieldInfo Ref))
  | union (fields : List (FieldInfo Ref))
  | enum (enumVariants : List String) (enumVariantInfos : List (EnumVariantInfo Ref))

inductive Registered where
  | nothing
  | skeleton
  | generic (typeParams : List Name)
  | type (info : Info)

structure StructDecl where
  active : Bool
  name : String
  typeParams : Option (List Name)
  parent : Option Written
  fields : List Field

structure UnionDecl where
  active : Bool
  name : String
  typeParams : Option (List Name)
  fields : List Field

variable {expression : Type} (c : Checker expression)

def Checker.parent : Option Written → Option (Option Ref × List (FieldInfo Ref))
  | none => some (none, [])
  | some w => do
      let (parentTI, _) ← c.resolve w
      let fields ← c.structFields parentTI
      return (some parentTI, fields)

/-- A loop of the plain path, which leaves out what `@cfg` switches off. -/
def Checker.reader (what name : String) (arraySizes : Written → List Nat) : Reader where
  considers := Field.active
  resolve := c.resolve
  arraySizes := arraySizes
  unresolved := "unknown field type in " ++ what ++ " '" ++ name ++ "'"
  duplicate field := "duplicate field '" ++ field ++ "' in " ++ what ++ " '" ++ name ++ "'"

def Checker.structReader (name : String) : Reader := c.reader "struct" name Written.arraySizes

def Checker.unionReader (name : String) : Reader := c.reader "union" name fun _ => []

def Checker.checkStructDecl (decl : StructDecl) : List String × Registered :=
  if !decl.active then ([], .nothing)
  else
    match decl.typeParams with
    | some typeParams =>
      if c.template .struct decl.name then
        (["generic struct '" ++ decl.name ++ "' already defined"], .nothing)
      else ([], .generic typeParams)
    | none =>
      if c.taken .struct decl.name then
        (["type '" ++ decl.name ++ "' already defined"], .nothing)
      else
        match c.parent decl.parent with
        | none => (["parent type not found or is not a struct"], .skeleton)
        | some (parentTI, inherited) =>
          match readFields (c.structReader decl.name)
            ⟨inherited.map fun field => field.name, inherited, []⟩ decl.fields with
          | (s, true) => (s.errors, .type (.struct parentTI s.fields))
          | (s, false) => (s.errors, .skeleton)

def Checker.checkUnionDecl (decl : UnionDecl) : List String × Registered :=
  if !decl.active then ([], .nothing)
  else
    match decl.typeParams with
    | some typeParams =>
      if c.template .union decl.name then
        (["generic union '" ++ decl.name ++ "' already defined"], .nothing)
      else ([], .generic typeParams)
    | none =>
      if c.taken .union decl.name then
        (["type '" ++ decl.name ++ "' already defined"], .nothing)
      else
        match readFields (c.unionReader decl.name) ⟨[], [], []⟩ decl.fields with
        | (s, true) => (s.errors, .type (.union s.fields))
        | (s, false) => (s.errors, .nothing)

def Checker.genericReader (what baseName : String) (subst : Name → Option Ref) : Reader where
  considers _ := true
  resolve := c.resolveSubst subst
  arraySizes _ := []
  unresolved := "cannot resolve field type in generic " ++ what ++ " '" ++ baseName ++ "'"
  duplicate field :=
    "duplicate field '" ++ field ++ "' in generic " ++ what ++ " '" ++ baseName ++ "'"

def arityError (what baseName : String) (expected given : Nat) : String :=
  "generic " ++ what ++ " '" ++ baseName ++ "' expects " ++ toString expected ++
    " type parameter(s), got " ++ toString given

def Checker.instantiateGenericStruct (decl : StructDecl) (typeParams : List Name)
    (typeArgs : List Ref) : List String × Option Info :=
  if typeArgs.length ≠ typeParams.length then
    ([arityError "struct" decl.name typeParams.length typeArgs.length], none)
  else
    match readFields (c.genericReader "struct" decl.name (substitution typeParams typeArgs))
      ⟨[], [], []⟩ decl.fields with
    | (s, true) => (s.errors, some (.struct none s.fields))
    | (s, false) => (s.errors, none)

def Checker.instantiateGenericUnion (decl : UnionDecl) (typeParams : List Name)
    (typeArgs : List Ref) : List String × Option Info :=
  if typeArgs.length ≠ typeParams.length then
    ([arityError "union" decl.name typeParams.length typeArgs.length], none)
  else
    match readFields (c.genericReader "union" decl.name (substitution typeParams typeArgs))
      ⟨[], [], []⟩ decl.fields with
    | (s, true) => (s.errors, some (.union s.fields))
    | (s, false) => (s.errors, none)

end Aggregates

section Enums

variable {expression : Type} (c : Checker expression)

def Checker.enumContext : Context expression Written Ref where
  defined := c.taken .enum
  tryEvalUSizeExpr := c.tryEvalUSizeExpr
  resolveTypeSpec := c.resolve
  arraySizes := Written.arraySizes

def Checker.checkEnumDecl (decl : EnumDecl expression Written) : List String × Registered :=
  match EnumDiscriminants.checkEnumDecl c.enumContext decl with
  | (errors, .nothing) => (errors, .nothing)
  | (errors, .generic typeParams) => (errors, .generic typeParams)
  | (errors, .enum info) => (errors, .type (.enum info.enumVariants info.enumVariantInfos))

variable (subst : Name → Option Ref) (baseName variantName : String)

def Checker.genericPayloadField (fieldName : String) (spec : Written) :
    Except String (FieldInfo Ref) :=
  match c.resolveSubst subst spec with
  | none => .error ("cannot resolve payload type in generic enum '" ++ baseName ++ "'")
  | some (fieldTI, fieldDims) =>
    if 0 < fieldDims ∧ spec.arraySizes = [] then
      .error ("enum payload arrays must have fixed size; use '[N]T' in variant '" ++ baseName ++
        "::" ++ variantName ++ "' or switch to 'vec<T>'")
    else .ok ⟨fieldName, fieldTI, fieldDims, spec.arraySizes⟩

def Checker.genericTupleFields (i : Nat) : List Written → Except String (List (FieldInfo Ref))
  | [] => .ok []
  | spec :: rest => do
      let field ← c.genericPayloadField subst baseName variantName ("_" ++ toString i) spec
      let fields ← genericTupleFields (i + 1) rest
      return field :: fields

def Checker.genericNamedFields (fieldSeen : List String) :
    List (String × Written) → Except String (List (FieldInfo Ref))
  | [] => .ok []
  | (fieldName, spec) :: rest =>
    if fieldName ∈ fieldSeen then
      .error ("duplicate payload field '" ++ fieldName ++ "' in enum variant '" ++ baseName ++
        "::" ++ variantName ++ "'")
    else do
      let field ← c.genericPayloadField subst baseName variantName fieldName spec
      let fields ← genericNamedFields (fieldName :: fieldSeen) rest
      return field :: fields

def Checker.genericPayload :
    VariantBody expression Written → Except String (EnumPayloadKind × List (FieldInfo Ref))
  | .paren types =>
    (c.genericTupleFields subst baseName variantName 0 types).map fun fields => (.tuple, fields)
  | .brace fields =>
    (c.genericNamedFields subst baseName variantName [] fields).map fun fields => (.named, fields)
  | .bare => .ok (.unit, [])
  | .assign _ => .ok (.unit, [])

structure Variants where
  seen : List String
  enumVariants : List String
  enumVariantInfos : List (EnumVariantInfo Ref)
  errors : List String

def Variants.error (s : Variants) (message : String) : Variants :=
  { s with errors := s.errors ++ [message] }

/-- One turn: attributes other than `error` and discriminants are not looked at, and the
variants are numbered as they come. -/
def Checker.genericVariant (s : Variants) (decl : EnumVariant expression Written) :
    Variants × Bool :=
  if decl.name ∈ s.seen then
    (s.error ("duplicate enum variant '" ++ decl.name ++ "' in generic enum '" ++ baseName ++ "'"),
      true)
  else
    let named : Variants :=
      { s with seen := decl.name :: s.seen, enumVariants := s.enumVariants ++ [decl.name] }
    match c.genericPayload subst baseName decl.name decl.body with
    | .error message => (named.error message, false)
    | .ok (kind, fields) =>
      ({ named with enumVariantInfos := named.enumVariantInfos ++
          [⟨decl.name, decl.isError, UInt32.ofNat named.enumVariantInfos.length, kind,
            fields⟩] }, true)

def Checker.genericVariants (s : Variants) :
    List (EnumVariant expression Written) → Variants × Bool
  | [] => (s, true)
  | decl :: rest =>
    match c.genericVariant subst baseName s decl with
    | (s, true) => genericVariants s rest
    | (s, false) => (s, false)

def Checker.instantiateGenericEnum (decl : EnumDecl expression Written) (typeParams : List Name)
    (typeArgs : List Ref) : List String × Option Info :=
  if typeArgs.length ≠ typeParams.length then
    ([arityError "enum" decl.name typeParams.length typeArgs.length], none)
  else
    match c.genericVariants (substitution typeParams typeArgs) decl.name ⟨[], [], [], []⟩
      decl.variants with
    | (s, true) => (s.errors, some (.enum s.enumVariants s.enumVariantInfos))
    | (s, false) => (s.errors, none)

end Enums

section Variants

open EnumDiscriminants (Progress checkVariant checkVariants discriminant payload)

variable {expression : Type} (c : Checker expression) (enumName : String)

/-- The discriminant of a variant that is accepted, behind those in `given`. -/
def Checker.numbered (given : List UInt32) (next : UInt32) :
    VariantBody expression Written → Option UInt32
  | .assign value =>
    (c.tryEvalUSizeExpr value).bind fun discVal =>
      if discVal.toUInt32.toUInt64 = discVal ∧ discVal.toUInt32 ∉ given then
        some discVal.toUInt32
      else none
  | _ => some next

def Checker.variantsRead (seen : List String) (given : List UInt32) (next : UInt32) :
    List (EnumVariant expression Written) → Option (List (EnumVariantInfo Ref))
  | [] => some []
  | decl :: rest =>
    if !decl.active then variantsRead seen given next rest
    else if decl.name ∈ seen then none
    else
      match c.numbered given next decl.body,
        payload c.enumContext enumName decl.name decl.body with
      | some value, .ok (kind, fields) =>
        (variantsRead (decl.name :: seen) (given ++ [value]) (value + 1) rest).map fun infos =>
          ⟨decl.name, decl.isError, value, kind, fields⟩ :: infos
      | _, _ => none

/-- The variants of the instantiator's loop without an error, from number `i` on. -/
def Checker.genericVariantsRead (subst : Name → Option Ref) (seen : List String) (i : Nat) :
    List (EnumVariant expression Written) → Option (List (EnumVariantInfo Ref))
  | [] => some []
  | decl :: rest =>
    if decl.name ∈ seen then none
    else
      match c.genericPayload subst enumName decl.name decl.body with
      | .ok (kind, fields) =>
        (genericVariantsRead subst (decl.name :: seen) (i + 1) rest).map fun infos =>
          ⟨decl.name, decl.isError, UInt32.ofNat i, kind, fields⟩ :: infos
      | .error _ => none

variable {c enumName}

theorem numbered_iff {s} {body} {value : UInt32} :
    discriminant c.enumContext enumName s body = .ok value ↔
      c.numbered s.discriminants s.nextDiscriminant body = some value := by
  cases body with
  | assign written =>
    have evaluator : c.enumContext.tryEvalUSizeExpr written = c.tryEvalUSizeExpr written := rfl
    rw [discriminant, Checker.numbered, evaluator]
    cases c.tryEvalUSizeExpr written with
    | none => simp
    | some discVal =>
      dsimp only [bind_some]
      by_cases fits : discVal.toUInt32.toUInt64 = discVal
      · by_cases twice : discVal.toUInt32 ∈ s.discriminants
        · rw [if_neg (not_not_intro fits), if_pos twice, if_neg fun both => both.2 twice]
          simp
        · rw [if_neg (not_not_intro fits), if_neg twice, if_pos ⟨fits, twice⟩]
          rw [Except.ok.injEq, Option.some.injEq]
      · rw [if_pos fits, if_neg fun both => fits both.1]
        simp
  | _ => simp [discriminant, Checker.numbered]

variable (decls : List (EnumVariant expression Written))

/-- A plain loop ends without an error just if `variantsRead` has its variants. -/
theorem checkVariants_read {s}
    (before : s.errors = []) (names : List String) (infos : List (EnumVariantInfo Ref)) :
    (∃ s', checkVariants c.enumContext enumName s decls = (s', true) ∧ s'.errors = [] ∧
        s'.enumVariants = names ∧ s'.enumVariantInfos = infos) ↔
      ∃ added, c.variantsRead enumName s.seen s.discriminants s.nextDiscriminant decls =
          some added ∧ infos = s.enumVariantInfos ++ added ∧
        names = s.enumVariants ++ added.map fun info => info.name := by
  induction decls generalizing s with
  | nil =>
    constructor
    · rintro ⟨s', ended, clean, rfl, rfl⟩
      cases ended
      exact ⟨[], rfl, (append_nil _).symm, (append_nil _).symm⟩
    · rintro ⟨added, none_added, rfl, rfl⟩
      cases none_added
      exact ⟨s, rfl, before, (append_nil _).symm, (append_nil _).symm⟩
  | cons decl rest ih =>
    rw [checkVariants, Checker.variantsRead]
    by_cases active : decl.active = true
    · by_cases twice : decl.name ∈ s.seen
      · simp only [checkVariant, active, twice]
        constructor
        · rintro ⟨s', ended, clean, _⟩
          have late := (EnumDiscriminants.checkVariants_clean
            ((congrArg (fun out => out.1.errors) ended).trans clean)).1
          simp at late
        · rintro ⟨added, none_added, _⟩
          cases none_added
      · let named : Progress Ref :=
          { s with seen := decl.name :: s.seen, enumVariants := s.enumVariants ++ [decl.name] }
        have number (value : UInt32) :
            discriminant c.enumContext enumName named decl.body = .ok value ↔
              c.numbered s.discriminants s.nextDiscriminant decl.body = some value :=
          numbered_iff
        simp only [checkVariant, active, twice]
        cases given : discriminant c.enumContext enumName named decl.body with
        | error message =>
          have unnumbered : c.numbered s.discriminants s.nextDiscriminant decl.body = none := by
            rw [eq_none_iff_forall_ne_some]
            intro value known
            have ok := (number value).2 known
            rw [given] at ok
            cases ok
          simp only [unnumbered]
          constructor
          · rintro ⟨s', ended, clean, _⟩
            have late := (EnumDiscriminants.checkVariants_clean
              ((congrArg (fun out => out.1.errors) ended).trans clean)).1
            simp at late
          · rintro ⟨added, none_added, _⟩
            cases none_added
        | ok value =>
          simp only [(number value).1 given]
          cases read : payload c.enumContext enumName decl.name decl.body with
          | error message =>
            dsimp only
            constructor
            · rintro ⟨s', ended, _⟩
              cases ended
            · rintro ⟨added, none_added, _⟩
              cases none_added
          | ok both =>
            obtain ⟨kind, fields⟩ := both
            dsimp only
            let info : EnumVariantInfo Ref := ⟨decl.name, decl.isError, value, kind, fields⟩
            refine (ih (s := { named with
              nextDiscriminant := value + 1
              enumVariantInfos := named.enumVariantInfos ++ [info] }) before).trans ?_
            have counted : Progress.discriminants { named with
                nextDiscriminant := value + 1
                enumVariantInfos := named.enumVariantInfos ++ [info] } =
                s.discriminants ++ [value] := by
              simp [Progress.discriminants, named, info]
            rw [counted]
            constructor
            · rintro ⟨added, later, rfl, rfl⟩
              refine ⟨info :: added, map_eq_some_iff.2 ⟨added, later, rfl⟩, ?_, ?_⟩
              · simp [named]
              · simp [named, info]
            · rintro ⟨added, later, rfl, rfl⟩
              obtain ⟨others, found, rfl⟩ := map_eq_some_iff.1 later
              refine ⟨others, found, ?_, ?_⟩
              · simp [named, info]
              · simp [named]
    · simp only [checkVariant, active]
      exact ih before

variable {subst : Name → Option Ref}

variable (s : Variants)

theorem genericVariant_errors (decl : EnumVariant expression Written)
    (clean : (c.genericVariant subst enumName s decl).1.errors = []) : s.errors = [] := by
  unfold Checker.genericVariant at clean
  split at clean
  · simp [Variants.error] at clean
  · split at clean
    · simp [Variants.error] at clean
    · exact clean

theorem genericVariants_errors
    (clean : (c.genericVariants subst enumName s decls).1.errors = []) : s.errors = [] := by
  induction decls generalizing s with
  | nil => exact clean
  | cons decl rest ih =>
    rw [Checker.genericVariants] at clean
    have turn_clean : (c.genericVariant subst enumName s decl).1.errors = [] := by
      split at clean
      · next turn =>
        rw [turn]
        exact ih _ clean
      · next turn =>
        rw [turn]
        exact clean
    exact genericVariant_errors s decl turn_clean

/-- An instantiator's loop without an error has the variants of `genericVariantsRead`. -/
theorem genericVariants_read {s s' : Variants}
    (ended : c.genericVariants subst enumName s decls = (s', true)) (clean : s'.errors = []) :
    ∃ added, c.genericVariantsRead enumName subst s.seen s.enumVariantInfos.length decls =
        some added ∧ s'.enumVariantInfos = s.enumVariantInfos ++ added ∧
      s'.enumVariants = s.enumVariants ++ added.map fun info => info.name := by
  induction decls generalizing s with
  | nil =>
    cases ended
    exact ⟨[], rfl, (append_nil _).symm, (append_nil _).symm⟩
  | cons decl rest ih =>
    rw [Checker.genericVariants] at ended
    rw [Checker.genericVariantsRead]
    by_cases twice : decl.name ∈ s.seen
    · simp only [Checker.genericVariant, twice] at ended
      have late := genericVariants_errors rest _
        ((congrArg (fun out => out.1.errors) ended).trans clean)
      simp [Variants.error] at late
    · simp only [Checker.genericVariant, twice] at ended ⊢
      cases read : c.genericPayload subst enumName decl.name decl.body with
      | error message =>
        rw [read] at ended
        cases ended
      | ok both =>
        obtain ⟨kind, fields⟩ := both
        rw [read] at ended
        obtain ⟨added, later, infos, names⟩ := ih ended
        rw [length_append] at later
        refine ⟨_ :: added, map_eq_some_iff.2 ⟨added, later, rfl⟩, ?_, ?_⟩
        · simp [infos]
        · simp [names]

end Variants

end Lucis.Monomorph
