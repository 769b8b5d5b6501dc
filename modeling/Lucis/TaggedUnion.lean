import Mathlib.Data.List.MinMax
import Mathlib.Data.Prod.Lex
import Lucis.EnumDiscriminants
import Lucis.IntLiteral

/-!
The storage of unions and of enums with payloads: `checkUnionDecl` of
checkers/Checker_decl.cpp (`checkEnumDecl` is in another module) records the members
of a declaration, and `toLLVMType` of types/TypeInfo.cpp picks one of them to stand for
all. The type below the array layers of a member is told by what `toLLVMType` gives for
it; sizes and alignments are those of any data layout.
-/

namespace Lucis.TaggedUnion

open List

open EnumDiscriminants (Context EnumDecl EnumVariant EnumVariantInfo EnumInfo FieldInfo VariantBody)

open IntLiteral (Digits)

section Types

inductive LType where
  | int (bits : Nat)
  | float (bits : Nat)
  | ptr
  | array (count : Nat) (element : LType)
  | struct (fields : List LType)

/-- `getTypeAllocSize` and `getABITypeAlign` of a data layout. A struct of one field is laid out
as the field. -/
structure Layout where
  size : LType → Nat
  align : LType → Nat
  intPtr : LType
  size_single : ∀ t, size (.struct [t]) = size t
  align_single : ∀ t, align (.struct [t]) = align t

/-- An array layer: its length is a literal, or a name with the integer that is known for it. -/
inductive Dim where
  | literal (digits : Digits 10)
  | named (name : String) (value : Option Int64)

structure TypeSpec where
  dims : List Dim
  base : LType

def Dim.number : Dim → Nat
  | literal digits => digits.number
  | named _ value => (value.elim 0 Int64.toInt).toNat

def TypeSpec.declared (spec : TypeSpec) : LType :=
  spec.dims.foldr (fun dim t => .array dim.number t) spec.base

/-- The length is a positive integer; `false` also where `std::stoll` throws. -/
def Dim.resolves : Dim → Bool
  | literal digits => (ConstExpr.stoll digits.text 10).any fun size => 0 < size
  | named _ value => value.any fun size => 0 < size

def TypeSpec.resolve (spec : TypeSpec) : Option (LType × Nat) :=
  if spec.dims.all Dim.resolves then some (spec.base, spec.dims.length) else none

/-- The cast of `std::stoul`, on a text that `std::stoll` reads. -/
def Dim.arraySize : Dim → Option Nat
  | literal digits => (ConstExpr.digitsValue 10 digits.text).map fun v => v % 2 ^ 32
  -- a name is passed over
  | named _ _ => none

def TypeSpec.arraySizes (spec : TypeSpec) : List Nat := spec.dims.filterMap Dim.arraySize

end Types

section Checking

structure UnionField where
  active : Bool
  name : String
  spec : TypeSpec

structure UnionDecl where
  active : Bool
  name : String
  typeParams : Option (List String)
  fields : List UnionField

/-- The names that are taken: for an enum, for a union that is no skeleton to be filled, and for a
generic union. -/
structure Names where
  enums : String → Bool
  unions : String → Bool
  templates : String → Bool

def checkUnionFields (unionName : String) (seen : List String) (errors : List String)
    (fields : List (FieldInfo LType)) :
    List UnionField → List String × Option (List (FieldInfo LType))
  | [] => (errors, some fields)
  | field :: rest =>
    if !field.active then checkUnionFields unionName seen errors fields rest
    else
      match field.spec.resolve with
      | none => (errors ++ ["unknown field type in union '" ++ unionName ++ "'"], none)
      | some (fieldTI, fieldDims) =>
        if field.name ∈ seen then
          checkUnionFields unionName seen
            (errors ++ ["duplicate field '" ++ field.name ++ "' in union '" ++ unionName ++ "'"])
            fields rest
        else
          -- no sizes are recorded
          checkUnionFields unionName (field.name :: seen) errors
            (fields ++ [⟨field.name, fieldTI, fieldDims, []⟩]) rest

def checkUnionDecl (names : Names) (d : UnionDecl) :
    List String × Option (List (FieldInfo LType)) :=
  if !d.active then ([], none)
  else if d.typeParams.isSome then
    (if names.templates d.name then ["generic union '" ++ d.name ++ "' already defined"] else [],
      none)
  else if names.unions d.name then (["type '" ++ d.name ++ "' already defined"], none)
  else checkUnionFields d.name [] [] [] d.fields

inductive Decl (expression : Type) where
  | union (d : UnionDecl)
  | enum (d : EnumDecl expression TypeSpec)

inductive TypeInfo where
  | union (fields : List (FieldInfo LType))
  | enum (info : EnumInfo LType)

variable {expression : Type}

def enumContext (names : Names) (tryEvalUSizeExpr : expression → Option UInt64) :
    Context expression TypeSpec LType where
  defined := names.enums
  tryEvalUSizeExpr := tryEvalUSizeExpr
  resolveTypeSpec := TypeSpec.resolve
  arraySizes := TypeSpec.arraySizes

def check (names : Names) (tryEvalUSizeExpr : expression → Option UInt64) :
    Decl expression → List String × Option TypeInfo
  | .union d => ((checkUnionDecl names d).1, (checkUnionDecl names d).2.map .union)
  | .enum d =>
    match EnumDiscriminants.checkEnumDecl (enumContext names tryEvalUSizeExpr) d with
    | (errors, .enum info) => (errors, some (.enum info))
    | (errors, _) => (errors, none)

end Checking

section Lowering

variable (dl : Layout)

def fieldToLLVMType (field : FieldInfo LType) : LType :=
  if field.arrayDims = 0 then field.typeInfo
  else if field.arraySizes.isEmpty then .struct [.ptr, dl.intPtr]
  else field.arraySizes.foldr .array field.typeInfo

def buildEnumVariantPayloadType (variant : EnumVariantInfo LType) : Option LType :=
  match variant.payloadFields with
  | [] => none
  | [field] =>
    if variant.payloadKind = .tuple then some (fieldToLLVMType dl field)
    else some (.struct [fieldToLLVMType dl field])
  | fields => some (.struct (fields.map (fieldToLLVMType dl)))

def larger (largest : LType) (field : FieldInfo LType) : LType :=
  if dl.size largest < dl.size (fieldToLLVMType dl field) then fieldToLLVMType dl field else largest

def pickStorage (storageTy : Option LType) (variant : EnumVariantInfo LType) : Option LType :=
  match buildEnumVariantPayloadType dl variant with
  | none => storageTy
  | some payloadTy =>
    match storageTy with
    | none => some payloadTy
    | some best =>
      if dl.size best < dl.size payloadTy ∨
          dl.size payloadTy = dl.size best ∧ dl.align best < dl.align payloadTy then
        some payloadTy
      else some best

/-- The storage that `toLLVMType` chooses: the whole of a union, and what stands behind the tag of
an enum. -/
def storage : TypeInfo → Option LType
  | .union [] => none
  | .union (first :: rest) => some (.struct [rest.foldl (larger dl) (fieldToLLVMType dl first)])
  | .enum info => info.enumVariantInfos.foldl (pickStorage dl) none

end Lowering

section Members

variable {expression : Type}

/-- The payload of a variant, where the types of its fields are read in a given way. -/
def payloadType (read : TypeSpec → LType) : VariantBody expression TypeSpec → Option LType
  | .paren [] => none
  | .paren [spec] => some (read spec)
  | .paren specs => some (.struct (specs.map read))
  | .brace [] => none
  | .brace fields => some (.struct (fields.map fun field => read field.2))
  | .bare => none
  | .assign _ => none

def Decl.members (asUnion asEnum : TypeSpec → LType) : Decl expression → List LType
  | union d => (d.fields.filter fun field => field.active).map fun field => asUnion field.spec
  | enum d => (d.variants.filter fun variant => variant.active).filterMap fun variant =>
    payloadType asEnum variant.body

def Decl.declared (d : Decl expression) : List LType :=
  d.members TypeSpec.declared TypeSpec.declared

def TypeSpec.asUnion (dl : Layout) (spec : TypeSpec) : LType :=
  if spec.dims = [] then spec.base else .struct [.ptr, dl.intPtr]

def TypeSpec.asEnum (spec : TypeSpec) : LType := spec.arraySizes.foldr .array spec.base

def Decl.recorded (dl : Layout) (d : Decl expression) : List LType :=
  d.members (TypeSpec.asUnion dl) TypeSpec.asEnum

variable {spec : TypeSpec}

variable (dl : Layout)

theorem union_field {ti : LType} {dims : Nat} (name : String)
    (resolved : spec.resolve = some (ti, dims)) :
    fieldToLLVMType dl ⟨name, ti, dims, []⟩ = spec.asUnion dl := by
  unfold TypeSpec.resolve at resolved
  split at resolved
  · cases resolved
    simp [fieldToLLVMType, TypeSpec.asUnion, length_eq_zero_iff]
  · cases resolved

variable {fields : List UnionField} {unionName : String}

theorem checkUnionFields_errors {seen errors} {before after}
    (checked : checkUnionFields unionName seen errors before fields = ([], some after)) :
    errors = [] := by
  induction fields generalizing seen errors before with
  | nil => exact (Prod.mk.inj checked).1
  | cons field rest ih =>
    rw [checkUnionFields] at checked
    split at checked
    · exact ih checked
    · split at checked
      · cases (Prod.mk.inj checked).2
      · split at checked
        · exact absurd (ih checked) (by simp)
        · exact ih checked

theorem checkUnionFields_types {seen errors} {before after}
    (checked : checkUnionFields unionName seen errors before fields = ([], some after)) :
    after.map (fieldToLLVMType dl) = before.map (fieldToLLVMType dl) ++
      (fields.filter fun field => field.active).map fun field => field.spec.asUnion dl := by
  induction fields generalizing seen errors before with
  | nil =>
    rw [← Option.some.inj (Prod.mk.inj checked).2]
    simp
  | cons field rest ih =>
    rw [checkUnionFields] at checked
    split at checked
    · next off =>
        have skipped : field.active = false := by simpa using off
        rw [ih checked]
        simp [skipped]
    · next on =>
        have kept : field.active = true := by simpa using on
        split at checked
        · cases (Prod.mk.inj checked).2
        · next resolved =>
            split at checked
            · exact absurd (checkUnionFields_errors checked) (by simp)
            · rw [ih checked]
              simp [kept, union_field dl field.name resolved]

variable {names : Names}

theorem union_recorded {d : UnionDecl}
    {fields} (checked : checkUnionDecl names d = ([], some fields)) :
    fields.map (fieldToLLVMType dl) = Decl.recorded dl (.union d : Decl expression) := by
  unfold checkUnionDecl at checked
  split at checked
  · cases (Prod.mk.inj checked).2
  · split at checked
    · cases (Prod.mk.inj checked).2
    · split at checked
      · cases (Prod.mk.inj checked).2
      · exact checkUnionFields_types dl checked

variable {tryEvalUSizeExpr : expression → Option UInt64}

variable {enumName : String}

theorem enum_field {variant fieldName : String} {field}
    (ok : EnumDiscriminants.payloadField (enumContext names tryEvalUSizeExpr) enumName variant
      fieldName spec = .ok field) : fieldToLLVMType dl field = spec.asEnum := by
  rcases EnumDiscriminants.payloadField_ok ok with ⟨ti, dims, resolved, sized, rfl⟩
  have layers : ti = spec.base ∧ dims = spec.dims.length := by
    have known : spec.resolve = some (ti, dims) := resolved
    unfold TypeSpec.resolve at known
    split at known
    · cases known
      exact ⟨rfl, rfl⟩
    · cases known
  rcases layers with ⟨rfl, rfl⟩
  have recorded : (enumContext names tryEvalUSizeExpr).arraySizes spec = spec.arraySizes := rfl
  rw [recorded] at sized ⊢
  by_cases scalar : spec.dims = []
  · simp [fieldToLLVMType, TypeSpec.asEnum, TypeSpec.arraySizes, scalar]
  · have sizes : spec.arraySizes ≠ [] := fun none =>
      sized ⟨length_pos_iff.2 scalar, none⟩
    simp [fieldToLLVMType, TypeSpec.asEnum, scalar, sizes]

theorem enum_payload (variant : EnumVariant expression TypeSpec) (value : UInt32)
    (kind : EnumDiscriminants.EnumPayloadKind) (fields : List (FieldInfo LType))
    (ok : EnumDiscriminants.payload (enumContext names tryEvalUSizeExpr) enumName variant.name
      variant.body = .ok (kind, fields)) :
    buildEnumVariantPayloadType dl ⟨variant.name, variant.isError, value, kind, fields⟩ =
      payloadType TypeSpec.asEnum variant.body := by
  unfold EnumDiscriminants.payload at ok
  cases body : variant.body with
  | bare =>
    rw [body] at ok
    cases ok
    rfl
  | assign e =>
    rw [body] at ok
    cases ok
    rfl
  | paren specs =>
    simp only [body] at ok
    cases found : EnumDiscriminants.tupleFields (enumContext names tryEvalUSizeExpr) enumName
        variant.name 0 specs with
    | error message =>
      rw [found] at ok
      cases ok
    | ok all =>
      rw [found] at ok
      cases ok
      have types := EnumDiscriminants.tupleFields_map
        (fun _ _ _ done => enum_field dl done) found
      rcases specs with _ | ⟨spec, _ | ⟨next, rest⟩⟩
      · simp_all [buildEnumVariantPayloadType, payloadType]
      · rcases map_eq_singleton_iff.1 types with ⟨field, rfl, type⟩
        simp [buildEnumVariantPayloadType, payloadType, type]
      · rcases fields with _ | ⟨one, _ | ⟨two, others⟩⟩
        · exact absurd (congrArg List.length types) (by simp)
        · exact absurd (congrArg List.length types) (by simp)
        · simp [buildEnumVariantPayloadType, payloadType, types]
  | brace named =>
    simp only [body] at ok
    cases found : EnumDiscriminants.namedFields (enumContext names tryEvalUSizeExpr) enumName
        variant.name [] named with
    | error message =>
      rw [found] at ok
      cases ok
    | ok all =>
      rw [found] at ok
      cases ok
      have types := EnumDiscriminants.namedFields_map
        (fun _ _ _ done => enum_field dl done) found
      rcases named with _ | ⟨head, rest⟩
      · simp_all [buildEnumVariantPayloadType, payloadType]
      · rcases fields with _ | ⟨one, _ | ⟨two, others⟩⟩
        · cases types
        · simp [buildEnumVariantPayloadType, payloadType, ← types]
        · simp [buildEnumVariantPayloadType, payloadType, ← types]

theorem enum_recorded {d} {info}
    (checked : EnumDiscriminants.checkEnumDecl (enumContext names tryEvalUSizeExpr) d =
      ([], .enum info)) : info.enumVariantInfos.filterMap (buildEnumVariantPayloadType dl) =
      Decl.recorded dl (.enum d) := by
  unfold EnumDiscriminants.checkEnumDecl at checked
  split at checked
  · cases checked
  · split at checked
    · cases checked
    · split at checked
      · cases checked
      · generalize loop : EnumDiscriminants.checkVariants (enumContext names tryEvalUSizeExpr) d.name
          .initial d.variants = result at checked
        rcases result with ⟨s, _ | _⟩
        · simp at checked
        · simp only [Prod.mk.injEq, EnumDiscriminants.Registered.enum.injEq] at checked
          rcases checked with ⟨clean, rfl⟩
          exact EnumDiscriminants.checkVariants_infos (enum_payload dl) loop clean

end Members

section Picking

variable {expression : Type} (dl : Layout)

def rank (t : LType) : Lex (Nat × Nat) := toLex (dl.size t, dl.align t)

variable (fields : List (FieldInfo LType))

theorem larger_argmax (largest : LType) :
    ((fields.map (fieldToLLVMType dl)).foldl (List.argAux fun b c => dl.size c < dl.size b)
      (some largest)) = some (fields.foldl (larger dl) largest) := by
  induction fields generalizing largest with
  | nil => rfl
  | cons field rest ih =>
    rw [map_cons, foldl_cons, foldl_cons, ← ih]
    simp only [List.argAux, larger]
    split <;> rfl

theorem storage_union : storage dl (.union fields) =
      ((fields.map (fieldToLLVMType dl)).argmax dl.size).map fun t => .struct [t] := by
  cases fields with
  | nil => rfl
  | cons first rest =>
    rw [map_cons, List.argmax, foldl_cons]
    exact (congrArg (Option.map fun t => LType.struct [t]) (larger_argmax dl rest _)).symm

theorem pickStorage_argmax (infos : List (EnumVariantInfo LType)) (storageTy : Option LType) :
    infos.foldl (pickStorage dl) storageTy =
      (infos.filterMap (buildEnumVariantPayloadType dl)).foldl
        (List.argAux fun b c => rank dl c < rank dl b) storageTy := by
  induction infos generalizing storageTy with
  | nil => rfl
  | cons variant rest ih =>
    rw [foldl_cons, ih]
    cases built : buildEnumVariantPayloadType dl variant with
    | none => simp [pickStorage, built]
    | some payloadTy =>
      rw [filterMap_cons_some built, foldl_cons]
      refine congrArg (List.foldl _ · _) ?_
      cases storageTy with
      | none => simp [pickStorage, built, List.argAux]
      | some best =>
        have order : rank dl best < rank dl payloadTy ↔ dl.size best < dl.size payloadTy ∨
            dl.size payloadTy = dl.size best ∧ dl.align best < dl.align payloadTy := by
          rw [rank, rank, Prod.Lex.toLex_lt_toLex, eq_comm (a := dl.size payloadTy)]
        simp only [pickStorage, built, List.argAux, order]

theorem storage_enum (info : EnumInfo LType) : storage dl (.enum info) =
      (info.enumVariantInfos.filterMap (buildEnumVariantPayloadType dl)).argmax (rank dl) :=
  pickStorage_argmax dl info.enumVariantInfos none

def Fits (d : Decl expression) (info : TypeInfo) : Prop :=
  ∀ m ∈ d.declared, ∃ t ∈ storage dl info, dl.size m ≤ dl.size t ∧ dl.align m ≤ dl.align t

/-- The first of the largest recorded members of a union is aligned well enough, or one of the
largest payloads of an enum is. -/
def Decl.aligned (d : Decl expression) (m : LType) : Prop :=
  match d with
  | union _ => ∃ r ∈ (d.recorded dl).argmax dl.size, dl.align m ≤ dl.align r
  | enum _ => ∃ r ∈ d.recorded dl, (∀ other ∈ d.recorded dl, dl.size other ≤ dl.size r) ∧
      dl.align m ≤ dl.align r

/-- No declared member is larger than all that are recorded, nor needs an alignment that the
picked one does not have. -/
def Covered (d : Decl expression) : Prop :=
  ∀ m ∈ d.declared, (∃ r ∈ d.recorded dl, dl.size m ≤ dl.size r) ∧ d.aligned dl m

variable {dl}

theorem rank_le {s t : LType} (le : rank dl s ≤ rank dl t) :
    dl.size s ≤ dl.size t ∧ (dl.size s = dl.size t → dl.align s ≤ dl.align t) := by
  rcases Prod.Lex.toLex_le_toLex.1 le with lt | ⟨same, below⟩
  · exact ⟨le_of_lt lt, fun same => absurd same (ne_of_lt lt)⟩
  · exact ⟨le_of_eq same, fun _ => below⟩

variable {names : Names}

theorem union_fits_iff {d : UnionDecl} {fields}
    (checked : checkUnionDecl names d = ([], some fields)) :
    Fits dl (.union d : Decl expression) (.union fields) ↔
      Covered dl (.union d : Decl expression) := by
  have recorded : fields.map (fieldToLLVMType dl) = Decl.recorded dl (.union d : Decl expression) :=
    union_recorded dl checked
  refine forall₂_congr fun m _ => ?_
  rw [storage_union, recorded, Decl.aligned]
  constructor
  · rintro ⟨t, picked, size, align⟩
    rcases Option.map_eq_some_iff.1 picked with ⟨r, first, rfl⟩
    rw [dl.size_single] at size
    rw [dl.align_single] at align
    exact ⟨⟨r, argmax_mem first, size⟩, r, first, align⟩
  · rintro ⟨⟨r, member, size⟩, first, picked, align⟩
    refine ⟨.struct [first], Option.map_eq_some_iff.2 ⟨first, picked, rfl⟩, ?_, ?_⟩
    · rw [dl.size_single]
      exact le_trans size (le_of_mem_argmax member picked)
    · rw [dl.align_single]
      exact align

theorem enum_fits_iff {tryEvalUSizeExpr : expression → Option UInt64}
    {d : EnumDecl expression TypeSpec} {info : EnumInfo LType}
    (checked : EnumDiscriminants.checkEnumDecl (enumContext names tryEvalUSizeExpr) d =
      ([], .enum info)) : Fits dl (.enum d) (.enum info) ↔ Covered dl (.enum d) := by
  refine forall₂_congr fun m _ => ?_
  rw [storage_enum, enum_recorded dl checked, Decl.aligned]
  constructor
  · rintro ⟨t, picked, size, align⟩
    have among := argmax_mem picked
    refine ⟨⟨t, among, size⟩, t, among, ?_, align⟩
    intro other member
    exact (rank_le (le_of_mem_argmax member picked)).1
  · rintro ⟨⟨r, member, size⟩, s, among, largest, align⟩
    cases picked : (Decl.recorded dl (.enum d)).argmax (rank dl) with
    | none =>
      rw [argmax_eq_none.1 picked] at member
      cases member
    | some t =>
      have above := rank_le (le_of_mem_argmax among picked)
      have below := largest t (argmax_mem picked)
      refine ⟨t, rfl, le_trans size ?_, le_trans align (above.2 ?_)⟩
      · exact (rank_le (le_of_mem_argmax member picked)).1
      · exact le_antisymm above.1 below

/-- The storage of an accepted union or enum takes every member just where the recorded members
cover the declared ones. -/
theorem storage_fits_iff (dl : Layout) (names : Names)
    (tryEvalUSizeExpr : expression → Option UInt64) (d : Decl expression) (info : TypeInfo)
    (accepted : check names tryEvalUSizeExpr d = ([], some info)) :
    Fits dl d info ↔ Covered dl d := by
  cases d with
  | union d =>
    simp only [check, Prod.mk.injEq, Option.map_eq_some_iff] at accepted
    rcases accepted with ⟨clean, fields, kept, rfl⟩
    exact union_fits_iff (Prod.ext clean kept)
  | enum d =>
    rw [check] at accepted
    split at accepted
    · next errors kept checked =>
        cases accepted
        exact enum_fits_iff checked
    · cases accepted

def Dim.Plain (dim : Dim) : Prop :=
  ∃ digits, dim = .literal digits ∧ digits.plain = true ∧ digits.number < 2 ^ 32

theorem plain_arraySize {dim : Dim} (plain : dim.Plain) : dim.arraySize = some dim.number := by
  rcases plain with ⟨digits, rfl, whole, small⟩
  have all := IntLiteral.digitsValue_text (by decide) digits [] rfl
  rw [append_nil, IntLiteral.leading_plain whole] at all
  rw [Dim.arraySize, all, Option.map_some]
  exact congrArg some (Nat.mod_eq_of_lt small)

theorem asEnum_plain {spec : TypeSpec} (plain : ∀ dim ∈ spec.dims, dim.Plain) :
    spec.asEnum = spec.declared := by
  rcases spec with ⟨dims, base⟩
  simp only [TypeSpec.asEnum, TypeSpec.declared, TypeSpec.arraySizes]
  induction dims with
  | nil => rfl
  | cons dim rest ih =>
    rw [filterMap_cons_some (plain_arraySize (plain dim mem_cons_self)),
      foldr_cons, foldr_cons, ih fun d member => plain d (.tail _ member)]

def bodySpecs : VariantBody expression TypeSpec → List TypeSpec
  | .paren specs => specs
  | .brace fields => fields.map fun field => field.2
  | .bare => []
  | .assign _ => []

theorem payloadType_congr {read read' : TypeSpec → LType} {body : VariantBody expression TypeSpec}
    (same : ∀ spec ∈ bodySpecs body, read spec = read' spec) :
    payloadType read body = payloadType read' body := by
  cases body with
  | bare => rfl
  | assign e => rfl
  | paren specs =>
    have all : specs.map read = specs.map read' := map_congr_left same
    rcases specs with _ | ⟨spec, _ | ⟨next, rest⟩⟩
    · rfl
    · exact congrArg some (same spec (.head _))
    · exact congrArg (fun types => some (LType.struct types)) all
  | brace fields =>
    have all : (fields.map fun field => read field.2) = fields.map fun field => read' field.2 :=
      map_congr_left fun field member => same field.2 (List.mem_map_of_mem member)
    rcases fields with _ | ⟨field, rest⟩
    · rfl
    · exact congrArg (fun types => some (LType.struct types)) all

def Decl.Kept : Decl expression → Prop
  | union d => ∀ field ∈ d.fields, field.active = true → field.spec.dims = []
  | enum d => ∀ variant ∈ d.variants, variant.active = true →
      ∀ spec ∈ bodySpecs variant.body, ∀ dim ∈ spec.dims, dim.Plain

variable {d : Decl expression}

theorem recorded_of_kept (kept : d.Kept) : d.recorded dl = d.declared := by
  cases d with
  | union d =>
    apply map_congr_left
    intro field member
    rcases mem_filter.1 member with ⟨among, active⟩
    simp [TypeSpec.asUnion, TypeSpec.declared, kept field among active]
  | enum d =>
    apply filterMap_congr
    intro variant member
    rcases mem_filter.1 member with ⟨among, active⟩
    exact payloadType_congr fun spec inside => asEnum_plain (kept variant among active spec inside)

theorem covered_iff_aligned (kept : d.Kept) :
    Covered dl d ↔ ∀ m ∈ d.declared, d.aligned dl m := by
  refine forall₂_congr fun m member => ⟨And.right, fun aligned => ⟨⟨m, ?_, le_rfl⟩, aligned⟩⟩
  rw [recorded_of_kept kept]
  exact member

end Picking

section Target

def roundUp (n align : Nat) : Nat := (n + align - 1) / align * align

theorem roundUp_dvd (n align : Nat) : align ∣ roundUp n align := Nat.dvd_mul_left _ _

theorem roundUp_of_dvd {n align : Nat} (pos : 0 < align) (dvd : align ∣ n) :
    roundUp n align = n := by
  rcases dvd with ⟨k, rfl⟩
  have quotient : (align * k + align - 1) / align = k := by
    rw [Nat.add_sub_assoc pos, Nat.mul_add_div pos, Nat.div_eq_of_lt (Nat.sub_lt pos Nat.one_pos),
      add_zero]
  rw [roundUp, quotient, mul_comm]

def scalarBytes (bits : Nat) : Nat :=
  if bits ≤ 8 then 1 else if bits ≤ 16 then 2 else if bits ≤ 32 then 4 else if bits ≤ 64 then 8
  else 16

mutual

def sizeAlign : LType → Nat × Nat
  | .int bits => (roundUp (scalarBytes bits * ((bits + 127) / 128)) (scalarBytes bits),
      scalarBytes bits)
  | .float bits => (scalarBytes bits, scalarBytes bits)
  | .ptr => (8, 8)
  | .array count element => (count * (sizeAlign element).1, (sizeAlign element).2)
  | .struct fields => (roundUp (structEnd fields 0 1).1 (structEnd fields 0 1).2,
      (structEnd fields 0 1).2)

def structEnd : List LType → Nat → Nat → Nat × Nat
  | [], offset, align => (offset, align)
  | t :: rest, offset, align =>
    structEnd rest (roundUp offset (sizeAlign t).2 + (sizeAlign t).1) (max align (sizeAlign t).2)

end

theorem scalarBytes_pos (bits : Nat) : 0 < scalarBytes bits := by
  unfold scalarBytes
  split
  · decide
  · split
    · decide
    · split
      · decide
      · split <;> decide

theorem structEnd_pos {fields : List LType} {offset align : Nat} (pos : 0 < align) :
    0 < (structEnd fields offset align).2 := by
  induction fields generalizing offset align with
  | nil => exact pos
  | cons t _ ih => exact ih (lt_of_lt_of_le pos (le_max_left _ _))

theorem sizeAlign_dvd (t : LType) : 0 < (sizeAlign t).2 ∧ (sizeAlign t).2 ∣ (sizeAlign t).1 := by
  match t with
  | .int bits => exact ⟨scalarBytes_pos bits, roundUp_dvd _ _⟩
  | .float bits => exact ⟨scalarBytes_pos bits, Nat.dvd_refl _⟩
  | .ptr => exact ⟨by decide, Nat.dvd_refl _⟩
  | .array count element =>
    have inner := sizeAlign_dvd element
    exact ⟨inner.1, Nat.dvd_mul_left_of_dvd inner.2 count⟩
  | .struct fields => exact ⟨structEnd_pos Nat.one_pos, roundUp_dvd _ _⟩

theorem sizeAlign_single (t : LType) : sizeAlign (.struct [t]) = sizeAlign t := by
  have valid := sizeAlign_dvd t
  have start : roundUp 0 (sizeAlign t).2 = 0 := roundUp_of_dvd valid.1 (Nat.dvd_zero _)
  have align : max 1 (sizeAlign t).2 = (sizeAlign t).2 := Nat.max_eq_right valid.1
  rw [sizeAlign, structEnd, structEnd, start, align, zero_add, roundUp_of_dvd valid.1 valid.2]

def x86 : Layout where
  size t := (sizeAlign t).1
  align t := (sizeAlign t).2
  intPtr := .int 64
  size_single t := congrArg Prod.fst (sizeAlign_single t)
  align_single t := congrArg Prod.snd (sizeAlign_single t)

def noNames : Names := ⟨fun _ => false, fun _ => false, fun _ => false⟩

/-- `union Number { int64 i; float32 f; }` -/
def number : Decl Unit :=
  .union ⟨true, "Number", none, [⟨true, "i", [], .int 64⟩, ⟨true, "f", [], .float 32⟩]⟩

def numberInfo : TypeInfo := .union [⟨"i", .int 64, 0, []⟩, ⟨"f", .float 32, 0, []⟩]

theorem storage_fits_number : Fits x86 number numberInfo ↔ Covered x86 number :=
  storage_fits_iff x86 noNames (fun _ => none) number numberInfo (by rfl)

/-- `union Mixed { Rgb color; int64 n; }`, where `Rgb` is a struct of three `int32`. -/
def mixed : Decl Unit :=
  .union ⟨true, "Mixed", none,
    [⟨true, "color", [], .struct [.int 32, .int 32, .int 32]⟩, ⟨true, "n", [], .int 64⟩]⟩

/-- The larger struct is picked, and with it the alignment of `int32`. -/
theorem mixed_misaligned : ∃ info,
    check noNames (fun _ : Unit => none) mixed = ([], some info) ∧ ¬Fits x86 mixed info := by
  refine ⟨_, rfl, ?_⟩
  intro fits
  rcases fits (.int 64) (.tail _ (.head _)) with ⟨t, picked, _, align⟩
  have built : t = .struct [.struct [.int 32, .int 32, .int 32]] := (Option.some.inj picked).symm
  subst built
  exact absurd align (by decide)

end Target

end Lucis.TaggedUnion
