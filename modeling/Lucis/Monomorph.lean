import Lucis.TypeTemplates

/-!
Instances of templates against their declarations with the type parameters replaced: a
payload, a field or a variant at a time, and then whole declarations.
-/

namespace Lucis.Monomorph

open TypeSpec (Name Spec Ref Env layered)
open Generics (TemplateKind TypeTemplateKind substitution resolveTypeSpecWithSubst)
open GenericTypes List Option
open EnumDiscriminants (VariantBody EnumVariant EnumDecl EnumPayloadKind FieldInfo EnumVariantInfo
  Context)

section Payloads

open EnumDiscriminants (payload payloadField tupleFields namedFields)

variable {expression : Type} (args : Name → Option Written)

/-- Arguments for type parameters in what stands behind the name of a variant; `expressions`
replaces them in a discriminant. -/
def replacedBody (expressions : expression → expression) :
    VariantBody expression Written → VariantBody expression Written
  | .bare => .bare
  | .assign value => .assign (expressions value)
  | .paren types => .paren (types.map (Written.replaced args))
  | .brace fields => .brace (fields.map fun field => (field.1, field.2.replaced args))

def replacedVariant (expressions : expression → expression)
    (decl : EnumVariant expression Written) : EnumVariant expression Written :=
  { decl with body := replacedBody args expressions decl.body }

def payloadTypes : VariantBody expression Written → List Written
  | .paren types => types
  | .brace fields => fields.map Prod.snd
  | _ => []

variable (c : Checker expression) (subst : Name → Option Ref)

def SameType (w : Written) : Prop :=
  c.resolve (w.replaced args) = c.resolveSubst subst w ∧
    (w.replaced args).arraySizes = w.arraySizes

variable {args c subst} {enumName variantName : String}

theorem payloadField_iff {fieldName : String} {w : Written} {field}
    (read : c.genericPayloadField subst enumName variantName fieldName w = .ok field) :
    payloadField c.enumContext enumName variantName fieldName (w.replaced args) = .ok field ↔
      SameType args c subst w := by
  unfold Checker.genericPayloadField at read
  cases found : c.resolveSubst subst w with
  | none =>
    rw [found] at read
    cases read
  | some pair =>
    obtain ⟨type, dims⟩ := pair
    rw [found] at read
    dsimp only at read
    by_cases unsized : 0 < dims ∧ w.arraySizes = []
    · rw [if_pos unsized] at read
      cases read
    · rw [if_neg unsized, Except.ok.injEq] at read
      subst read
      constructor
      · intro plain
        obtain ⟨type', dims', resolved, _, same⟩ := EnumDiscriminants.payloadField_ok plain
        rw [FieldInfo.mk.injEq] at same
        obtain ⟨_, rfl, rfl, sizes⟩ := same
        exact ⟨resolved.trans found.symm, sizes.symm⟩
      · rintro ⟨resolved, sizes⟩
        have plain : c.enumContext.resolveTypeSpec (w.replaced args) = some (type, dims) :=
          resolved.trans found
        have recorded : c.enumContext.arraySizes (w.replaced args) = w.arraySizes := sizes
        unfold payloadField
        rw [plain]
        dsimp only
        rw [recorded, if_neg unsized]

theorem bind_ok {ε α β : Type} {first : Except ε α} {next} {result : β} :
    (first >>= next) = .ok result ↔ ∃ value, first = .ok value ∧ next value = .ok result := by
  cases first with
  | error message => exact ⟨nofun, nofun⟩
  | ok value => exact ⟨fun later => ⟨value, rfl, later⟩, fun ⟨_, same, later⟩ => by
      cases same
      exact later⟩

theorem map_ok {ε α β : Type} {first : Except ε α} {f : α → β} {result : β} :
    first.map f = .ok result ↔ ∃ value, first = .ok value ∧ f value = result := by
  cases first with
  | error message => exact ⟨nofun, nofun⟩
  | ok value => exact ⟨fun same => ⟨value, rfl, Except.ok.inj same⟩, fun ⟨_, same, made⟩ => by
      cases same
      exact congrArg Except.ok made⟩

variable {fields : List (FieldInfo Ref)} {i : Nat}

variable (types : List Written)

theorem tupleFields_iff
    (read : c.genericTupleFields subst enumName variantName i types = .ok fields) :
    tupleFields c.enumContext enumName variantName i (types.map (Written.replaced args)) =
        .ok fields ↔ ∀ w ∈ types, SameType args c subst w := by
  induction types generalizing i fields with
  | nil =>
    cases read
    simp [tupleFields]
  | cons w rest ih =>
    rw [Checker.genericTupleFields, bind_ok] at read
    obtain ⟨field, first, later⟩ := read
    obtain ⟨others, tail, made⟩ := bind_ok.1 later
    cases made
    rw [map_cons, tupleFields, bind_ok, forall_mem_cons, ← payloadField_iff first, ← ih tail]
    constructor
    · rintro ⟨field', plain, later'⟩
      obtain ⟨others', tail', made⟩ := bind_ok.1 later'
      cases made
      exact ⟨plain, tail'⟩
    · rintro ⟨plain, tail'⟩
      exact ⟨field, plain, bind_ok.2 ⟨others, tail', rfl⟩⟩

variable {seen : List String}

variable (named : List (String × Written))

theorem namedFields_iff
    (read : c.genericNamedFields subst enumName variantName seen named = .ok fields) :
    namedFields c.enumContext enumName variantName seen
        (named.map fun field => (field.1, field.2.replaced args)) = .ok fields ↔
      ∀ w ∈ named.map Prod.snd, SameType args c subst w := by
  induction named generalizing seen fields with
  | nil =>
    cases read
    simp [namedFields]
  | cons head rest ih =>
    obtain ⟨fieldName, w⟩ := head
    rw [Checker.genericNamedFields] at read
    by_cases twice : fieldName ∈ seen
    · rw [if_pos twice] at read
      cases read
    · rw [if_neg twice, bind_ok] at read
      obtain ⟨field, first, later⟩ := read
      obtain ⟨others, tail, made⟩ := bind_ok.1 later
      cases made
      rw [map_cons, map_cons, namedFields, if_neg twice, bind_ok,
        forall_mem_cons, ← payloadField_iff first, ← ih tail]
      constructor
      · rintro ⟨field', plain, later'⟩
        obtain ⟨others', tail', made⟩ := bind_ok.1 later'
        cases made
        exact ⟨plain, tail'⟩
      · rintro ⟨plain, tail'⟩
        exact ⟨field, plain, bind_ok.2 ⟨others, tail', rfl⟩⟩

variable {expressions : expression → expression}

theorem payload_iff {body} {kind}
    (read : c.genericPayload subst enumName variantName body = .ok (kind, fields)) :
    payload c.enumContext enumName variantName (replacedBody args expressions body) =
        .ok (kind, fields) ↔ ∀ w ∈ payloadTypes body, SameType args c subst w := by
  cases body with
  | bare =>
    cases read
    simp [replacedBody, payload, payloadTypes]
  | assign value =>
    cases read
    simp [replacedBody, payload, payloadTypes]
  | paren types =>
    rw [Checker.genericPayload, map_ok] at read
    obtain ⟨others, found, made⟩ := read
    cases made
    rw [payloadTypes, ← tupleFields_iff types found, replacedBody, payload, map_ok]
    constructor
    · rintro ⟨plain, resolved, same⟩
      cases same
      exact resolved
    · intro resolved
      exact ⟨fields, resolved, rfl⟩
  | brace named =>
    rw [Checker.genericPayload, map_ok] at read
    obtain ⟨others, found, made⟩ := read
    cases made
    rw [payloadTypes, ← namedFields_iff named found, replacedBody, payload, map_ok]
    constructor
    · rintro ⟨plain, resolved, same⟩
      cases same
      exact resolved
    · intro resolved
      exact ⟨fields, resolved, rfl⟩

def Numbered (c : Checker expression) (expressions : expression → expression) (i : Nat) :
    VariantBody expression Written → Prop
  | .assign value => c.tryEvalUSizeExpr (expressions value) = some (UInt64.ofNat i) ∧ i < 2 ^ 32
  | _ => True

/-- What comes before the variant number `i` is numbered from 0 on. -/
theorem numbered_at (args : Name → Option Written) (expressions : expression → expression) (i : Nat)
    (body : VariantBody expression Written) :
    c.numbered ((List.range i).map UInt32.ofNat) (UInt32.ofNat i)
        (replacedBody args expressions body) = some (UInt32.ofNat i) ↔
      Numbered c expressions i body := by
  cases body with
  | assign value =>
    rw [replacedBody, Checker.numbered, Numbered]
    cases known : c.tryEvalUSizeExpr (expressions value) with
    | none => simp
    | some discVal =>
      rw [bind_some, Option.some.injEq]
      constructor
      · intro accepted
        split at accepted
        · next both =>
          obtain ⟨fits, fresh⟩ := both
          rw [Option.some.injEq] at accepted
          rw [accepted] at fits fresh
          have small : i < 2 ^ 32 := by
            by_contra large
            -- in 32 bits the number would be one of an earlier variant
            apply fresh
            rw [← UInt32.ofNat_mod_size]
            apply List.mem_map_of_mem
            rw [mem_range]
            omega
          rw [UInt32.toUInt64_ofNat' small] at fits
          exact ⟨fits.symm, small⟩
        · cases accepted
      · rintro ⟨rfl, small⟩
        have fits : (UInt64.ofNat i).toUInt32.toUInt64 = UInt64.ofNat i := by
          rw [UInt64.toUInt32_ofNat' i, UInt32.toUInt64_ofNat' small]
        have fresh : (UInt64.ofNat i).toUInt32 ∉ (List.range i).map UInt32.ofNat := by
          rw [UInt64.toUInt32_ofNat' i, List.mem_map]
          rintro ⟨j, before, same⟩
          rw [mem_range] at before
          have equal := congrArg UInt32.toNat same
          rw [UInt32.toNat_ofNat_of_lt' (lt_trans before small),
            UInt32.toNat_ofNat_of_lt' small] at equal
          omega
        rw [if_pos ⟨fits, fresh⟩, UInt64.toUInt32_ofNat' i]
  | _ => exact ⟨fun _ => trivial, fun _ => rfl⟩

/-- Variants that are all active, have the numbers of their places and payloads of the same
types, from the place `i` on. -/
def VariantsMirrored (same : Written → Prop) (c : Checker expression)
    (expressions : expression → expression) (i : Nat) :
    List (EnumVariant expression Written) → Prop
  | [] => True
  | decl :: rest =>
    decl.active = true ∧ Numbered c expressions i decl.body ∧
      (∀ w ∈ payloadTypes decl.body, same w) ∧
      VariantsMirrored same c expressions (i + 1) rest

theorem variantsMirrored_congr {same same'}
    (decls : List (EnumVariant expression Written))
    (alike : ∀ decl ∈ decls, ∀ w ∈ payloadTypes decl.body, same w ↔ same' w) :
    VariantsMirrored same c expressions i decls ↔ VariantsMirrored same' c expressions i decls := by
  induction decls generalizing i with
  | nil => exact Iff.rfl
  | cons decl rest ih =>
    obtain ⟨first, others⟩ := forall_mem_cons.1 alike
    rw [VariantsMirrored, VariantsMirrored, ih others,
      forall_congr' fun w => imp_congr_right (first w)]

theorem genericTupleFields_found
    (read : c.genericTupleFields subst enumName variantName i types = .ok fields) :
    ∀ w ∈ types, c.resolveSubst subst w ≠ none := by
  induction types generalizing i fields with
  | nil => exact nofun
  | cons w rest ih =>
    rw [Checker.genericTupleFields, bind_ok] at read
    obtain ⟨field, first, later⟩ := read
    obtain ⟨others, tail, _⟩ := bind_ok.1 later
    refine forall_mem_cons.2 ⟨fun missing => ?_, ih tail⟩
    rw [Checker.genericPayloadField, missing] at first
    cases first

theorem genericNamedFields_found
    (read : c.genericNamedFields subst enumName variantName seen named = .ok fields) :
    ∀ w ∈ named.map Prod.snd, c.resolveSubst subst w ≠ none := by
  induction named generalizing seen fields with
  | nil => exact nofun
  | cons head rest ih =>
    obtain ⟨fieldName, w⟩ := head
    rw [Checker.genericNamedFields] at read
    split at read
    · cases read
    · rw [bind_ok] at read
      obtain ⟨field, first, later⟩ := read
      obtain ⟨others, tail, _⟩ := bind_ok.1 later
      refine forall_mem_cons.2 ⟨fun missing => ?_, ih tail⟩
      rw [Checker.genericPayloadField, missing] at first
      cases first

variable {infos : List (EnumVariantInfo Ref)}

variable (decls : List (EnumVariant expression Written))
include decls

variable (read : c.genericVariantsRead enumName subst seen i decls = some infos)
include read

theorem genericVariantsRead_found :
    ∀ decl ∈ decls, ∀ w ∈ payloadTypes decl.body, c.resolveSubst subst w ≠ none := by
  induction decls generalizing seen i infos with
  | nil => exact forall_mem_nil _
  | cons decl rest ih =>
    rw [Checker.genericVariantsRead] at read
    split at read
    · cases read
    · split at read
      · next kind fields found =>
        obtain ⟨others, later, _⟩ := map_eq_some_iff.1 read
        refine forall_mem_cons.2 ⟨?_, ih later⟩
        cases body : decl.body with
        | bare => exact forall_mem_nil _
        | assign value => exact forall_mem_nil _
        | paren types =>
          rw [body, Checker.genericPayload, map_ok] at found
          obtain ⟨_, tuple, _⟩ := found
          exact genericTupleFields_found types tuple
        | brace named =>
          rw [body, Checker.genericPayload, map_ok] at found
          obtain ⟨_, each, _⟩ := found
          exact genericNamedFields_found named each
      · cases read

omit read in
theorem variantsRead_length {given} {next : UInt32}
    (read : c.variantsRead enumName seen given next decls = some infos) :
    infos.length ≤ decls.length := by
  induction decls generalizing seen given next infos with
  | nil =>
    cases read
    exact le_refl 0
  | cons decl rest ih =>
    rw [Checker.variantsRead] at read
    split at read
    · exact Nat.le_succ_of_le (ih read)
    · split at read
      · cases read
      · split at read
        · obtain ⟨others, found, rfl⟩ := map_eq_some_iff.1 read
          exact Nat.succ_le_succ (ih found)
        · cases read

theorem genericVariantsRead_length :
    infos.length = decls.length := by
  induction decls generalizing seen i infos with
  | nil =>
    cases read
    rfl
  | cons decl rest ih =>
    rw [Checker.genericVariantsRead] at read
    split at read
    · cases read
    · split at read
      · obtain ⟨others, found, rfl⟩ := map_eq_some_iff.1 read
        rw [length_cons, ih found, length_cons]
      · cases read

/-- The variants of an instance are those of the replaced declaration just if that one leaves
none out, gives them the same numbers and their payloads the same types. -/
theorem variantsRead_iff :
    c.variantsRead enumName seen ((List.range i).map UInt32.ofNat) (UInt32.ofNat i)
        (decls.map (replacedVariant args expressions)) = some infos ↔
      VariantsMirrored (SameType args c subst) c expressions i decls := by
  induction decls generalizing seen i infos with
  | nil =>
    cases read
    exact ⟨fun _ => trivial, fun _ => rfl⟩
  | cons decl rest ih =>
    rw [Checker.genericVariantsRead] at read
    split at read
    · cases read
    · next fresh =>
      split at read
      · next kind fields found =>
        obtain ⟨others, later, rfl⟩ := map_eq_some_iff.1 read
        have grown : (List.range (i + 1)).map UInt32.ofNat =
            (List.range i).map UInt32.ofNat ++ [UInt32.ofNat i] := by
          rw [range_succ, map_append, map_singleton]
        have number := numbered_at (c := c) args expressions i decl.body
        have payloads : payload c.enumContext enumName decl.name
            (replacedBody args expressions decl.body) = .ok (kind, fields) ↔ _ :=
          payload_iff found
        rw [map_cons, Checker.variantsRead, VariantsMirrored, ← number, ← payloads,
          ← ih later, grown]
        have next : UInt32.ofNat (i + 1) = UInt32.ofNat i + 1 := UInt32.ofNat_add i 1
        rw [next]
        constructor
        · intro plain
          split at plain
          · -- a variant is missing, and the lists differ in length
            have short := variantsRead_length _ plain
            have full := genericVariantsRead_length rest later
            rw [length_cons, length_map] at short
            omega
          · next active =>
            rw [if_neg (show (replacedVariant args expressions decl).name ∉ seen from fresh)] at plain
            split at plain
            · next value kind' fields' number resolved =>
              obtain ⟨tail, found', same⟩ := map_eq_some_iff.1 plain
              simp only [List.cons.injEq, EnumVariantInfo.mk.injEq] at same
              obtain ⟨⟨_, _, rfl, rfl, rfl⟩, rfl⟩ := same
              exact ⟨by simpa [replacedVariant] using active, number, resolved, found'⟩
            · cases plain
        · rintro ⟨active, number, resolved, tail⟩
          have on : (replacedVariant args expressions decl).active = true := active
          have number' : c.numbered ((List.range i).map UInt32.ofNat) (UInt32.ofNat i)
              (replacedVariant args expressions decl).body = some (UInt32.ofNat i) := number
          have resolved' : EnumDiscriminants.payload c.enumContext enumName
              (replacedVariant args expressions decl).name
              (replacedVariant args expressions decl).body = .ok (kind, fields) := resolved
          rw [if_neg (by simp [on]),
            if_neg (show (replacedVariant args expressions decl).name ∉ seen from fresh),
            number', resolved']
          exact map_eq_some_iff.2 ⟨others, tail, rfl⟩
      · cases read

end Payloads

section Declarations

inductive Decl (expression : Type) where
  | struct (decl : StructDecl)
  | union (decl : UnionDecl)
  | enum (decl : EnumDecl expression Written)

variable {expression : Type}

def Decl.kind : Decl expression → TemplateKind
  | .struct _ => .struct
  | .union _ => .union
  | .enum _ => .enum

def Decl.active : Decl expression → Bool
  | .struct decl => decl.active
  | .union decl => decl.active
  | .enum decl => decl.active

def Decl.name : Decl expression → String
  | .struct decl => decl.name
  | .union decl => decl.name
  | .enum decl => decl.name

def Decl.typeParams : Decl expression → Option (List Name)
  | .struct decl => decl.typeParams
  | .union decl => decl.typeParams
  | .enum decl => decl.typeParams

def Decl.types : Decl expression → List Written
  | .struct decl => decl.fields.map Field.type
  | .union decl => decl.fields.map Field.type
  | .enum decl => decl.variants.flatMap fun variant => payloadTypes variant.body

structure Template (expression : Type) where
  decl : Decl expression
  typeParams : List Name
  active : decl.active = true
  generic : decl.typeParams = some typeParams

variable (c : Checker expression)

def Checker.checkDecl : Decl expression → List String × Registered
  | .struct decl => c.checkStructDecl decl
  | .union decl => c.checkUnionDecl decl
  | .enum decl => c.checkEnumDecl decl

def Checker.instantiateGeneric (t : Template expression) (typeArgs : List Ref) :
    List String × Option Info :=
  match t.decl with
  | .struct decl => c.instantiateGenericStruct decl t.typeParams typeArgs
  | .union decl => c.instantiateGenericUnion decl t.typeParams typeArgs
  | .enum decl => c.instantiateGenericEnum decl t.typeParams typeArgs

def written (typeParams : List Name) (args : List Written) : Name → Option Written :=
  (typeParams.zip args).foldl
    (fun args entry => Generics.update args entry.1 (some entry.2)) fun _ => none

def Decl.replaced (args : Name → Option Written) (expressions : expression → expression) :
    Decl expression → Decl expression
  | .struct decl => .struct { decl with
      typeParams := none
      parent := decl.parent.map (Written.replaced args)
      fields := decl.fields.map (Field.replaced args) }
  | .union decl => .union { decl with
      typeParams := none
      fields := decl.fields.map (Field.replaced args) }
  | .enum decl => .enum { decl with
      typeParams := none
      variants := decl.variants.map (replacedVariant args expressions) }

end Declarations

section Substitution

variable {expression : Type} (c : Checker expression)

variable {args : Name → Option Written} {subst : Name → Option Ref} {env : Env}

theorem resolves_update
    (resolves : Resolves (argSpecs args) env subst) (param : Name) {arg : Written} {type : Ref}
    (typed : typeOf env arg.spec = some type) :
    Resolves (argSpecs (Generics.update args param (some arg))) env
      (Generics.update subst param (some type)) := by
  intro name
  by_cases same : name = param
  · subst same
    rw [argSpecs, Generics.update_self, Generics.update_self]
    exact ⟨by rw [typed]; rfl, typed.symm⟩
  · rw [argSpecs, Generics.update_ne same, Generics.update_ne same]
    exact resolves name

theorem resolves_written (typeParams : List Name) {args}
    {types : List Ref} (typed : args.map (fun arg => typeOf env arg.spec) = types.map some) :
    Resolves (argSpecs (written typeParams args)) env (substitution typeParams types) := by
  have bound : ∀ (params : List Name) (args : List Written) (types : List Ref)
      (args₀ : Name → Option Written) (subst₀ : Name → Option Ref),
      args.map (fun arg => typeOf env arg.spec) = types.map some →
      Resolves (argSpecs args₀) env subst₀ →
      Resolves (argSpecs ((params.zip args).foldl
          (fun args entry => Generics.update args entry.1 (some entry.2)) args₀)) env
        ((params.zip types).foldl
          (fun subst entry => Generics.update subst entry.1 (some entry.2)) subst₀) := by
    intro params
    induction params with
    | nil => exact fun _ _ _ _ _ resolves => resolves
    | cons param rest ih =>
      intro args types args₀ subst₀ typed resolves
      cases args with
      | nil =>
        cases types with
        | nil => exact resolves
        | cons _ _ => cases typed
      | cons arg args =>
        cases types with
        | nil => cases typed
        | cons type types =>
          obtain ⟨head, tail⟩ := List.cons.inj typed
          exact ih args types _ _ tail (resolves_update resolves param head)
  exact bound typeParams args types _ _ typed fun _ => rfl

/-- The plain resolver takes the lengths, and both resolvers count the layers alike. -/
structure AlikeLayers (args : Name → Option Written) (w : Written) : Prop where
  lengths : (w.replaced args).lengths.all Length.positive = true
  layers : GenericTypes.layers 0 (w.replaced args).spec = substLayers w.spec

theorem resolve_iff {w : Written} (resolves : Resolves (argSpecs args) c.env subst)
    (carried : Carried (argSpecs args) c.env w.spec) (found : c.resolveSubst subst w ≠ none) :
    c.resolve (w.replaced args) = c.resolveSubst subst w ↔ AlikeLayers args w := by
  have same := value_subst c.kind resolves w.spec carried
  rw [← replaced_spec] at same
  rw [Checker.resolveSubst, same] at found ⊢
  rw [Checker.resolve, resolveTypeSpec_eq]
  cases typed : typeOf c.env (w.replaced args).spec with
  | none =>
    rw [typed] at found
    exact absurd rfl found
  | some type =>
    constructor
    · intro equal
      split at equal
      · next lengths =>
        simp only [map_some, Option.some.injEq, Prod.mk.injEq, true_and] at equal
        exact ⟨lengths, equal⟩
      · cases equal
    · rintro ⟨lengths, layers⟩
      rw [if_pos lengths, layers]

end Substitution

section Mirroring

variable {expression : Type} {c : Checker expression} {infos : List (FieldInfo Ref)}
  {seen : List String} {g : Reader}

/-- The fields that one reader takes up, every one of them, are what another one makes of their
replacements just if it takes them all up with the same types and sizes. -/
theorem fieldsRead_iff (p : Reader) (args : Name → Option Written)
    (all : ∀ field, g.considers field = true) (fields : List Field)
    (read : fieldsRead g seen fields = some infos) :
    fieldsRead p seen (fields.map (Field.replaced args)) = some infos ↔
      ∀ field ∈ fields, p.considers (field.replaced args) = true ∧
        p.resolve (field.type.replaced args) = g.resolve field.type ∧
        p.arraySizes (field.type.replaced args) = g.arraySizes field.type := by
  induction fields generalizing seen infos with
  | nil =>
    cases read
    simp [fieldsRead]
  | cons field rest ih =>
    have taken := all field
    cases resolved : g.resolve field.type with
    | none => simp [fieldsRead, taken, resolved] at read
    | some pair =>
      obtain ⟨fieldTI, fieldDims⟩ := pair
      by_cases twice : field.name ∈ seen
      · simp [fieldsRead, taken, resolved, twice] at read
      · simp only [fieldsRead, taken, resolved, twice, Bool.not_true, Bool.false_eq_true,
          if_false] at read
        obtain ⟨others, later, rfl⟩ := map_eq_some_iff.1 read
        rw [map_cons, fieldsRead, forall_mem_cons, ← ih later]
        constructor
        · intro plain
          split at plain
          · -- a field is missing, and the lists differ in length
            have short := fieldsRead_length p _ plain
            have full := fieldsRead_length g rest later
            rw [filter_eq_self.2 fun field _ => all field] at full
            have fewer := length_filter_le p.considers (rest.map (Field.replaced args))
            rw [length_map] at fewer
            rw [length_cons] at short
            omega
          · next considered =>
            split at plain
            · cases plain
            · next type dims found =>
              split at plain
              · cases plain
              · obtain ⟨infos, tail, same⟩ := map_eq_some_iff.1 plain
                simp only [List.cons.injEq, FieldInfo.mk.injEq] at same
                obtain ⟨⟨_, rfl, rfl, sizes⟩, rfl⟩ := same
                exact ⟨⟨by simpa using considered, found.trans resolved.symm, sizes⟩, tail⟩
        · rintro ⟨⟨considered, same, sizes⟩, tail⟩
          have found : p.resolve (field.replaced args).type = some (fieldTI, fieldDims) :=
            same.trans resolved
          have kept : (field.replaced args).name = field.name := rfl
          have recorded : p.arraySizes (field.replaced args).type = g.arraySizes field.type :=
            sizes
          simp only [considered, found, kept, twice, recorded, Bool.not_true, Bool.false_eq_true,
            if_false, tail, map_some]

theorem fieldsRead_found (all : ∀ field, g.considers field = true)
    (fields : List Field) (read : fieldsRead g seen fields = some infos) :
    ∀ field ∈ fields, g.resolve field.type ≠ none := by
  induction fields generalizing seen infos with
  | nil => exact nofun
  | cons field rest ih =>
    rw [fieldsRead, if_neg (by simp [all field])] at read
    split at read
    · cases read
    · next type dims found =>
      split at read
      · cases read
      · obtain ⟨others, later, _⟩ := map_eq_some_iff.1 read
        refine forall_mem_cons.2 ⟨?_, ih later⟩
        rw [found]
        exact some_ne_none _

/-- What the instantiators do not look at is not there: a parent, fields and variants that are
switched off, lengths of the arrays in a struct, and discriminants other than the places. The
layers come out alike, and the arguments bring no sizes along. -/
def Mirrored (c : Checker expression) (args : Name → Option Written)
    (expressions : expression → expression) : Decl expression → Prop
  | .struct decl => decl.parent = none ∧ ∀ field ∈ decl.fields,
      field.active = true ∧ AlikeLayers args field.type ∧
        (field.type.replaced args).arraySizes = []
  | .union decl => ∀ field ∈ decl.fields, field.active = true ∧ AlikeLayers args field.type
  | .enum decl => VariantsMirrored
      (fun w => AlikeLayers args w ∧ (w.replaced args).arraySizes = w.arraySizes)
      c expressions 0 decl.variants

variable {args : Name → Option Written} {subst : Name → Option Ref}

theorem readFields_iff {what genericName : String} (name : String) (arraySizes : Written → List Nat)
    (resolves : Resolves (argSpecs args) c.env subst) (fields : List Field)
    (carried : ∀ field ∈ fields, Carried (argSpecs args) c.env field.type.spec) {s : Reading}
    (ended : readFields (c.genericReader what genericName subst) ⟨[], [], []⟩ fields = (s, true))
    (clean : s.errors = []) : (∃ s', readFields (c.reader what name arraySizes) ⟨[], [], []⟩
          (fields.map (Field.replaced args)) = (s', true) ∧ s'.errors = [] ∧ s'.fields = s.fields) ↔
      ∀ field ∈ fields, field.active = true ∧ AlikeLayers args field.type ∧
        arraySizes (field.type.replaced args) = [] := by
  obtain ⟨infos, read, same⟩ := (readFields_clean (c.genericReader what genericName subst) fields
    (s := ⟨[], [], []⟩) rfl s.fields).1 ⟨s, ended, clean, rfl⟩
  rw [nil_append] at same
  rw [readFields_clean _ _ rfl]
  have found := fieldsRead_found (fun _ => rfl) fields read
  have paths := fieldsRead_iff (c.reader what name arraySizes) args (fun _ => rfl) fields read
  have exact_fields : (∃ added, fieldsRead (c.reader what name arraySizes) []
      (fields.map (Field.replaced args)) = some added ∧ s.fields = [] ++ added) ↔
      fieldsRead (c.reader what name arraySizes) [] (fields.map (Field.replaced args)) =
        some infos := by
    rw [same]
    constructor
    · rintro ⟨added, plain, rfl⟩
      exact plain
    · intro plain
      exact ⟨infos, plain, rfl⟩
  rw [exact_fields, paths]
  refine forall₂_congr fun field member => and_congr Iff.rfl (and_congr ?_ Iff.rfl)
  exact resolve_iff c resolves (carried field member) (found field member)

theorem parent_ne_none {w : Written} {inherited} :
    c.parent (some w) ≠ some (none, inherited) := by
  intro found
  rw [Checker.parent] at found
  obtain ⟨⟨parentTI, dims⟩, _, rest⟩ := bind_eq_some_iff.1 found
  obtain ⟨fields, _, same⟩ := bind_eq_some_iff.1 rest
  cases same

variable {types : List Ref} {typeParams : List Name} {made : Info}
  {expressions : expression → expression}

theorem struct_iff {decl : StructDecl} (active : decl.active = true)
    (free : c.taken .struct decl.name = false)
    (resolves : Resolves (argSpecs args) c.env (substitution typeParams types))
    (carried : ∀ field ∈ decl.fields, Carried (argSpecs args) c.env field.type.spec)
    (accepted : c.instantiateGenericStruct decl typeParams types = ([], some made)) :
    c.checkDecl (Decl.replaced args expressions (.struct decl)) = ([], .type made) ↔
      Mirrored c args expressions (.struct decl) := by
  unfold Checker.instantiateGenericStruct at accepted
  split at accepted
  · cases accepted
  · generalize loop : readFields (c.genericReader "struct" decl.name
      (substitution typeParams types)) ⟨[], [], []⟩ decl.fields = result at accepted
    obtain ⟨s, _ | _⟩ := result
    · cases (Prod.mk.inj accepted).2
    · obtain ⟨clean, rfl⟩ : s.errors = [] ∧ Info.struct none s.fields = made := by
        simpa using accepted
      have fields := readFields_iff decl.name Written.arraySizes resolves decl.fields carried loop clean
      simp only [Decl.replaced, Checker.checkDecl, Checker.checkStructDecl, active, free]
      cases parent : decl.parent with
      | none =>
        rw [Mirrored, eq_true parent, true_and, ← fields]
        have reader : c.structReader decl.name =
          c.reader "struct" decl.name Written.arraySizes := rfl
        simp only [Bool.not_true, Bool.false_eq_true, if_false, map_none, Checker.parent,
          map_nil, reader]
        generalize readFields (c.reader "struct" decl.name Written.arraySizes) ⟨[], [], []⟩
          (decl.fields.map (Field.replaced args)) = plain
        obtain ⟨s', _ | _⟩ := plain
        · simp
        · simp
      | some w =>
        constructor
        · intro plain
          simp only [map_some, Bool.not_true, Bool.false_eq_true, if_false] at plain
          split at plain
          · cases plain
          · next parentTI inherited found =>
            split at plain
            · obtain ⟨_, same⟩ := Prod.mk.inj plain
              simp only [Registered.type.injEq, Info.struct.injEq] at same
              rw [same.1] at found
              exact absurd found parent_ne_none
            · cases (Prod.mk.inj plain).2
        · rintro ⟨no_parent, _⟩
          rw [parent] at no_parent
          cases no_parent

theorem union_iff {decl : UnionDecl} (active : decl.active = true)
    (free : c.taken .union decl.name = false)
    (resolves : Resolves (argSpecs args) c.env (substitution typeParams types))
    (carried : ∀ field ∈ decl.fields, Carried (argSpecs args) c.env field.type.spec)
    (accepted : c.instantiateGenericUnion decl typeParams types = ([], some made)) :
    c.checkDecl (Decl.replaced args expressions (.union decl)) = ([], .type made) ↔
      Mirrored c args expressions (.union decl) := by
  unfold Checker.instantiateGenericUnion at accepted
  split at accepted
  · cases accepted
  · generalize loop : readFields (c.genericReader "union" decl.name
      (substitution typeParams types)) ⟨[], [], []⟩ decl.fields = result at accepted
    obtain ⟨s, _ | _⟩ := result
    · cases (Prod.mk.inj accepted).2
    · obtain ⟨clean, rfl⟩ : s.errors = [] ∧ Info.union s.fields = made := by
        simpa using accepted
      have fields := readFields_iff decl.name (fun _ => []) resolves decl.fields carried loop clean
      simp only [and_true] at fields
      simp only [Decl.replaced, Checker.checkDecl, Checker.checkUnionDecl, active, free]
      rw [Mirrored, ← fields]
      have reader : c.unionReader decl.name = c.reader "union" decl.name fun _ => [] := rfl
      simp only [Bool.not_true, Bool.false_eq_true, if_false, reader]
      generalize readFields (c.reader "union" decl.name fun _ => []) ⟨[], [], []⟩
        (decl.fields.map (Field.replaced args)) = plain
      obtain ⟨s', _ | _⟩ := plain
      · simp
      · simp

theorem enum_iff {decl} (active : decl.active = true)
    (free : c.taken .enum decl.name = false)
    (resolves : Resolves (argSpecs args) c.env (substitution typeParams types))
    (carried : ∀ variant ∈ decl.variants, ∀ w ∈ payloadTypes variant.body,
      Carried (argSpecs args) c.env w.spec)
    (accepted : c.instantiateGenericEnum decl typeParams types = ([], some made)) :
    c.checkDecl (Decl.replaced args expressions (.enum decl)) = ([], .type made) ↔
      Mirrored c args expressions (.enum decl) := by
  unfold Checker.instantiateGenericEnum at accepted
  split at accepted
  · cases accepted
  · generalize loop : c.genericVariants (substitution typeParams types) decl.name ⟨[], [], [], []⟩
      decl.variants = result at accepted
    obtain ⟨s, _ | _⟩ := result
    · cases (Prod.mk.inj accepted).2
    · obtain ⟨clean, rfl⟩ : s.errors = [] ∧
          Info.enum s.enumVariants s.enumVariantInfos = made := by
        simpa using accepted
      obtain ⟨infos, read, same, names⟩ := genericVariants_read decl.variants loop clean
      have plain : (∃ s', EnumDiscriminants.checkVariants c.enumContext decl.name .initial
            (decl.variants.map (replacedVariant args expressions)) = (s', true) ∧
          s'.errors = [] ∧ s'.enumVariants = s.enumVariants ∧
          s'.enumVariantInfos = s.enumVariantInfos) ↔ _ :=
        checkVariants_read _ rfl s.enumVariants s.enumVariantInfos
      have found := genericVariantsRead_found decl.variants read
      have paths : c.variantsRead decl.name [] [] 0
            (decl.variants.map (replacedVariant args expressions)) = some infos ↔
          VariantsMirrored (SameType args c (substitution typeParams types)) c expressions 0
            decl.variants :=
        variantsRead_iff decl.variants read
      have alike : VariantsMirrored (SameType args c (substitution typeParams types)) c expressions
          0 decl.variants ↔ Mirrored c args expressions (.enum decl) := by
        apply variantsMirrored_congr
        intro variant member w payload
        exact and_congr_left' (resolve_iff c resolves (carried variant member w payload)
          (found variant member w payload))
      rw [← alike, ← paths]
      have exact_variants : (∃ added, c.variantsRead decl.name [] [] 0
            (decl.variants.map (replacedVariant args expressions)) = some added ∧
          s.enumVariantInfos = [] ++ added ∧ s.enumVariants = [] ++ added.map fun info =>
            info.name) ↔
          c.variantsRead decl.name [] [] 0 (decl.variants.map (replacedVariant args expressions)) =
            some infos := by
        rw [same, names]
        constructor
        · rintro ⟨added, ran, rfl, _⟩
          exact ran
        · intro ran
          exact ⟨infos, ran, rfl, rfl⟩
      refine Iff.trans ?_ (plain.trans exact_variants)
      simp only [Decl.replaced, Checker.checkDecl, Checker.checkEnumDecl,
        EnumDiscriminants.checkEnumDecl, active]
      have known : c.enumContext.defined decl.name = false := free
      rw [known]
      generalize EnumDiscriminants.checkVariants c.enumContext decl.name .initial
        (decl.variants.map (replacedVariant args expressions)) = ended
      obtain ⟨s', _ | _⟩ := ended
      · simp
      · simp

/-- An instance is the type of the declaration with its type parameters replaced just where the
declaration has nothing that the instantiators leave out. -/
theorem monomorphised_iff (c : Checker expression) (t : Template expression) (args : List Written)
    (types : List Ref) (expressions : expression → expression) {made : Info}
    (free : c.taken t.decl.kind t.decl.name = false)
    (typed : args.map (fun arg => (c.resolve arg).map Prod.fst) = types.map some)
    (carried : ∀ w ∈ t.decl.types,
      Carried (argSpecs (written t.typeParams args)) c.env w.spec)
    (accepted : c.instantiateGeneric t types = ([], some made)) :
    c.checkDecl (t.decl.replaced (written t.typeParams args) expressions) = ([], .type made) ↔
      Mirrored c (written t.typeParams args) expressions t.decl := by
  have resolves : Resolves (argSpecs (written t.typeParams args)) c.env
      (substitution t.typeParams types) := by
    apply resolves_written
    rw [← typed]
    apply map_congr_left
    intro arg member
    have found : (c.resolve arg).map Prod.fst ∈ types.map some := by
      rw [← typed]
      exact List.mem_map_of_mem member
    obtain ⟨type, _, known⟩ := List.mem_map.mp found
    rw [← known]
    rw [Checker.resolve] at known
    split at known
    · exact known.symm
    · cases known
  obtain ⟨decl, typeParams, active, generic⟩ := t
  cases decl with
  | struct decl =>
    refine struct_iff active free resolves ?_ accepted
    intro field member
    exact carried field.type (List.mem_map_of_mem member)
  | union decl =>
    refine union_iff active free resolves ?_ accepted
    intro field member
    exact carried field.type (List.mem_map_of_mem member)
  | enum decl =>
    refine enum_iff active free resolves ?_ accepted
    intro variant member w payload
    exact carried w (mem_flatMap.mpr ⟨variant, member, payload⟩)

/-- A checker that knows `int32`, and no template but the one at hand. -/
def plainChecker : Checker Unit where
  env := TypeSpec.builtins
  kind _ := ⟨.struct, Generics.struct_not_func⟩
  template _ _ := false
  taken _ _ := false
  structFields _ := none
  tryEvalUSizeExpr _ := none

def int32 : Written := ⟨[], .base "int32", nofun⟩

/-- `struct Pair<T> { T first; *T second; }` -/
def pair : Template Unit where
  decl := .struct ⟨true, "Pair", some ["T"], none,
    [⟨true, "first", ⟨[], .base "T", nofun⟩⟩, ⟨true, "second", ⟨[], .pointer (.base "T"), nofun⟩⟩]⟩
  typeParams := ["T"]
  active := rfl
  generic := rfl

def pairInfo : Info :=
  .struct none [⟨"first", .registry "int32", 0, []⟩,
    ⟨"second", .pointer (.registry "int32"), 0, []⟩]

theorem pair_monomorphised :
    plainChecker.checkDecl (pair.decl.replaced (written ["T"] [int32]) id) =
        ([], .type pairInfo) ↔ Mirrored plainChecker (written ["T"] [int32]) id pair.decl :=
  monomorphised_iff plainChecker pair [int32] [.registry "int32"] id rfl rfl
    (by
      intro w member
      simp only [Decl.types, pair, map_cons, map_nil, mem_cons, not_mem_nil, or_false] at member
      rcases member with rfl | rfl
      · trivial
      · trivial)
    rfl

/-- `struct Buffer<T> { [4]T data; }` -/
def buffer : Template Unit where
  decl := .struct ⟨true, "Buffer", some ["T"], none,
    [⟨true, "data", ⟨[.literal 4], .base "T", nofun⟩⟩]⟩
  typeParams := ["T"]
  active := rfl
  generic := rfl

theorem buffer_loses_size :
    plainChecker.instantiateGeneric buffer [.registry "int32"] =
        ([], some (.struct none [⟨"data", .registry "int32", 1, []⟩])) ∧
      plainChecker.checkDecl (buffer.decl.replaced (written ["T"] [int32]) id) =
        ([], .type (.struct none [⟨"data", .registry "int32", 1, [4]⟩])) ∧
      plainChecker.checkDecl (buffer.decl.replaced (written ["T"] [int32]) id) ≠
        ([], .type (.struct none [⟨"data", .registry "int32", 1, []⟩])) := by
  have plain : plainChecker.checkDecl (buffer.decl.replaced (written ["T"] [int32]) id) =
      ([], .type (.struct none [⟨"data", .registry "int32", 1, [4]⟩])) := rfl
  refine ⟨rfl, plain, ?_⟩
  rw [plain]
  intro same
  simp at same

end Mirroring

end Lucis.Monomorph
