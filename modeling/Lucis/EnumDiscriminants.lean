import Mathlib.Algebra.Ring.Nat
import Mathlib.Data.List.Nodup

/-!
`Checker::checkEnumDecl` of checkers/Checker_decl.cpp. Expressions and type
specifiers are opaque here: the evaluator of discriminants, the type resolver
and the sizes of array layers come from the rest of the checker through
`Context`. An error is its message.
-/

namespace Lucis.EnumDiscriminants

open List

variable {expression typeSpec type : Type}

inductive VariantBody (expression typeSpec : Type) where
  | bare
  | assign (value : expression)
  | paren (types : List typeSpec)
  | brace (fields : List (String × typeSpec))

/-- `active` is `isDeclActive` of its attributes, `isError` whether they name `error`. -/
structure EnumVariant (expression typeSpec : Type) where
  active : Bool
  isError : Bool
  name : String
  body : VariantBody expression typeSpec

structure EnumDecl (expression typeSpec : Type) where
  active : Bool
  name : String
  typeParams : Option (List String)
  variants : List (EnumVariant expression typeSpec)

inductive EnumPayloadKind where
  | unit
  | tuple
  | named
  deriving DecidableEq

structure FieldInfo (type : Type) where
  name : String
  typeInfo : type
  arrayDims : Nat
  arraySizes : List Nat

structure EnumVariantInfo (type : Type) where
  name : String
  isError : Bool
  discriminant : UInt32
  payloadKind : EnumPayloadKind
  payloadFields : List (FieldInfo type)

/-- The parts of the enum's `TypeInfo` that its declaration decides. -/
structure EnumInfo (type : Type) where
  name : String
  enumVariants : List String
  enumVariantInfos : List (EnumVariantInfo type)

/-- The rest of the checker: `defined` covers the types and the generic templates. -/
structure Context (expression typeSpec type : Type) where
  defined : String → Bool
  tryEvalUSizeExpr : expression → Option UInt64
  resolveTypeSpec : typeSpec → Option (type × Nat)
  arraySizes : typeSpec → List Nat

section Payloads

variable (ctx : Context expression typeSpec type) (enumName variant : String)

def payloadField (fieldName : String) (spec : typeSpec) : Except String (FieldInfo type) :=
  match ctx.resolveTypeSpec spec with
  | none => .error ("unknown payload type in enum variant '" ++ enumName ++ "::" ++ variant ++ "'")
  | some (fieldTI, fieldDims) =>
    if 0 < fieldDims ∧ ctx.arraySizes spec = [] then
      .error ("enum payload arrays must have fixed size; use '[N]T' in variant '" ++ enumName ++
        "::" ++ variant ++ "' or switch to 'vec<T>'")
    else .ok ⟨fieldName, fieldTI, fieldDims, ctx.arraySizes spec⟩

def tupleFields (i : Nat) : List typeSpec → Except String (List (FieldInfo type))
  | [] => .ok []
  | spec :: rest => do
      let field ← payloadField ctx enumName variant ("_" ++ toString i) spec
      let fields ← tupleFields (i + 1) rest
      return field :: fields

def namedFields (fieldSeen : List String) :
    List (String × typeSpec) → Except String (List (FieldInfo type))
  | [] => .ok []
  | (fieldName, spec) :: rest =>
    if fieldName ∈ fieldSeen then
      .error ("duplicate payload field '" ++ fieldName ++ "' in enum variant '" ++ enumName ++
        "::" ++ variant ++ "'")
    else do
      let field ← payloadField ctx enumName variant fieldName spec
      let fields ← namedFields (fieldName :: fieldSeen) rest
      return field :: fields

def payload :
    VariantBody expression typeSpec → Except String (EnumPayloadKind × List (FieldInfo type))
  | .paren types => (tupleFields ctx enumName variant 0 types).map fun fields => (.tuple, fields)
  | .brace fields => (namedFields ctx enumName variant [] fields).map fun fields => (.named, fields)
  | .bare => .ok (.unit, [])
  | .assign _ => .ok (.unit, [])

variable {ctx enumName variant} {β : Type}

theorem payloadField_ok {fieldName : String} {spec : typeSpec} {field}
    (ok : payloadField ctx enumName variant fieldName spec = .ok field) :
    ∃ fieldTI fieldDims, ctx.resolveTypeSpec spec = some (fieldTI, fieldDims) ∧
      ¬(0 < fieldDims ∧ ctx.arraySizes spec = []) ∧
      field = ⟨fieldName, fieldTI, fieldDims, ctx.arraySizes spec⟩ := by
  unfold payloadField at ok
  split at ok
  · cases ok
  · next fieldTI fieldDims resolved =>
      split at ok
      · cases ok
      · next sized =>
          cases ok
          exact ⟨fieldTI, fieldDims, resolved, sized, rfl⟩

variable {fields : List (FieldInfo type)} {read : FieldInfo type → β} {want : typeSpec → β}

variable (each : ∀ fieldName spec field,
  payloadField ctx enumName variant fieldName spec = .ok field → read field = want spec)
include each

theorem tupleFields_map
    {types} {i : Nat} (ok : tupleFields ctx enumName variant i types = .ok fields) :
    fields.map read = types.map want := by
  induction types generalizing i fields with
  | nil =>
    cases ok
    rfl
  | cons spec rest ih =>
    rw [tupleFields] at ok
    cases first : payloadField ctx enumName variant ("_" ++ toString i) spec with
    | error message =>
      rw [first] at ok
      cases ok
    | ok field =>
      cases later : tupleFields ctx enumName variant (i + 1) rest with
      | error message =>
        rw [first, later] at ok
        cases ok
      | ok others =>
        rw [first, later] at ok
        cases ok
        rw [map_cons, map_cons, each _ _ _ first, ih later]

theorem namedFields_map {named} {seen}
    (ok : namedFields ctx enumName variant seen named = .ok fields) :
    fields.map read = named.map fun field => want field.2 := by
  induction named generalizing seen fields with
  | nil =>
    cases ok
    rfl
  | cons head rest ih =>
    rcases head with ⟨fieldName, spec⟩
    rw [namedFields] at ok
    split at ok
    · cases ok
    · cases first : payloadField ctx enumName variant fieldName spec with
      | error message =>
        rw [first] at ok
        cases ok
      | ok field =>
        cases later : namedFields ctx enumName variant (fieldName :: seen) rest with
        | error message =>
          rw [first, later] at ok
          cases ok
        | ok others =>
          rw [first, later] at ok
          cases ok
          rw [map_cons, map_cons, each _ _ _ first, ih later]

end Payloads

section Loop

variable (ctx : Context expression typeSpec type) (enumName : String)

structure Progress (type : Type) where
  seen : List String
  enumVariants : List String
  enumVariantInfos : List (EnumVariantInfo type)
  nextDiscriminant : UInt32
  errors : List String

def Progress.error (s : Progress type) (message : String) : Progress type :=
  { s with errors := s.errors ++ [message] }

def Progress.discriminants (s : Progress type) : List UInt32 :=
  s.enumVariantInfos.map fun info => info.discriminant

/-- The variant's discriminant; `nextDiscriminant` goes on from there in 32 bits. -/
def discriminant (s : Progress type) :
    VariantBody expression typeSpec → Except String UInt32
  | .assign value =>
    match ctx.tryEvalUSizeExpr value with
    | none => .error "enum variant discriminant must be a compile-time constant unsigned integer"
    | some discVal =>
      if discVal.toUInt32.toUInt64 ≠ discVal then
        .error "enum variant discriminant value too large"
      else if discVal.toUInt32 ∈ s.discriminants then
        .error ("duplicate enum variant discriminant " ++ toString discVal.toUInt32 ++
          " in enum '" ++ enumName ++ "'")
      else .ok discVal.toUInt32
  | _ => .ok s.nextDiscriminant

/-- One turn of the loop; `false` where it returns from the whole function. -/
def checkVariant (s : Progress type) (decl : EnumVariant expression typeSpec) :
    Progress type × Bool :=
  if !decl.active then (s, true)
  else if decl.name ∈ s.seen then
    (s.error ("duplicate enum variant '" ++ decl.name ++ "' in enum '" ++ enumName ++ "'"), true)
  else
    let named : Progress type :=
      { s with seen := decl.name :: s.seen, enumVariants := s.enumVariants ++ [decl.name] }
    match discriminant ctx enumName named decl.body with
    | .error message => (named.error message, true)
    | .ok value =>
      match payload ctx enumName decl.name decl.body with
      | .error message => (({ named with nextDiscriminant := value + 1 } : Progress type).error
          message, false)
      | .ok (kind, fields) =>
        ({ named with
            nextDiscriminant := value + 1
            enumVariantInfos := named.enumVariantInfos ++
              [⟨decl.name, decl.isError, value, kind, fields⟩] }, true)

def checkVariants (s : Progress type) :
    List (EnumVariant expression typeSpec) → Progress type × Bool
  | [] => (s, true)
  | decl :: rest =>
    match checkVariant ctx enumName s decl with
    | (s, true) => checkVariants s rest
    | (s, false) => (s, false)

end Loop

inductive Registered (type : Type) where
  | nothing
  | generic (typeParams : List String)
  | enum (info : EnumInfo type)

def Progress.initial : Progress type := ⟨[], [], [], 0, []⟩

def checkEnumDecl (ctx : Context expression typeSpec type) (decl : EnumDecl expression typeSpec) :
    List String × Registered type :=
  if !decl.active then ([], .nothing)
  else if ctx.defined decl.name then
    (["type '" ++ decl.name ++ "' already defined"], .nothing)
  else
    match decl.typeParams with
    | some typeParams => ([], .generic typeParams)
    | none =>
      match checkVariants ctx decl.name .initial decl.variants with
      | (s, true) => (s.errors, .enum ⟨decl.name, s.enumVariants, s.enumVariantInfos⟩)
      | (s, false) => (s.errors, .nothing)

section Numbering

/-! A declaration as its written discriminants, `none` where the variant has none of its own. -/

def numbers (next : UInt32) : List (Option UInt32) → List UInt32
  | [] => []
  | none :: rest => next :: numbers (next + 1) rest
  | some value :: rest => value :: numbers (value + 1) rest

def WrittenFresh (given : List UInt32) (next : UInt32) : List (Option UInt32) → Prop
  | [] => True
  | none :: rest => WrittenFresh (next :: given) (next + 1) rest
  | some value :: rest => value ∉ given ∧ WrittenFresh (value :: given) (value + 1) rest

/-- A variant without a discriminant has its predecessor's plus one, the first one 0. -/
def Successive (expected : Nat) : List (Option UInt32) → List UInt32 → Prop
  | none :: rest, value :: values =>
    value.toNat = expected ∧ Successive (value.toNat + 1) rest values
  | some _ :: rest, value :: values => Successive (value.toNat + 1) rest values
  | [], [] => True
  | _, _ => False

/-- Counting up from a written discriminant, or from 0, meets no discriminant written before
and stays in 32 bits. -/
def Clear (written : List UInt32) (next : Nat) : List (Option UInt32) → Prop
  | [] => True
  | none :: rest => next < 2 ^ 32 ∧ UInt32.ofNat next ∉ written ∧ Clear written (next + 1) rest
  | some value :: rest => Clear (value :: written) (value.toNat + 1) rest

structure Counting (written given : List UInt32) (next : Nat) : Prop where
  among : ∀ value ∈ written, value ∈ given
  rooted : ∀ value ∈ given, value ∈ written ∨ value = 0 ∨ value - 1 ∈ given
  ahead : next < 2 ^ 32 → UInt32.ofNat next ∈ given → UInt32.ofNat next ∈ written
  behind : next = 0 ∨ UInt32.ofNat next - 1 ∈ given

theorem Counting.start : Counting [] [] 0 where
  among := by simp
  rooted := by simp
  ahead := by simp
  behind := .inl rfl

theorem ofNat_succ (value : UInt32) : UInt32.ofNat (value.toNat + 1) = value + 1 := by
  simp

variable {value : UInt32}

theorem succ_ne_zero (fits : value.toNat + 1 < 2 ^ 32) : value + 1 ≠ 0 := by
  intro zero
  have carried := congrArg UInt32.toNat zero
  rw [← ofNat_succ, UInt32.toNat_ofNat_of_lt' fits] at carried
  exact Nat.succ_ne_zero _ carried

variable {given written : List UInt32} {next : Nat}

variable (counting : Counting written given next)
include counting

theorem Counting.push (fresh : value ∉ given)
    {written'} (grows : ∀ old ∈ written, old ∈ written')
    (only : ∀ new ∈ written', new ∈ written ∨ new = value)
    (origin : value ∈ written' ∨ value = 0 ∨ value - 1 ∈ given) :
    Counting written' (value :: given) (value.toNat + 1) where
  among := by
    intro new member
    rcases only new member with old | rfl
    · exact .tail _ (counting.among new old)
    · exact .head _
  rooted := by
    intro old member
    rcases mem_cons.1 member with rfl | earlier
    · rcases origin with new | zero | before
      · exact .inl new
      · exact .inr (.inl zero)
      · exact .inr (.inr (.tail _ before))
    · rcases counting.rooted old earlier with listed | zero | before
      · exact .inl (grows old listed)
      · exact .inr (.inl zero)
      · exact .inr (.inr (.tail _ before))
  ahead := by
    intro fits member
    rw [ofNat_succ] at member ⊢
    rcases mem_cons.1 member with same | earlier
    · simp at same
    · rcases counting.rooted _ earlier with listed | zero | before
      · exact grows _ listed
      · exact absurd zero (succ_ne_zero fits)
      · rw [UInt32.add_sub_cancel] at before
        exact absurd before fresh
  behind := by
    right
    rw [ofNat_succ, UInt32.add_sub_cancel]
    exact .head _

theorem Counting.count (fits : next < 2 ^ 32)
    (fresh : UInt32.ofNat next ∉ given) :
    Counting written (UInt32.ofNat next :: given) (next + 1) := by
  have origin : UInt32.ofNat next ∈ written ∨ UInt32.ofNat next = 0 ∨
      UInt32.ofNat next - 1 ∈ given := by
    rcases counting.behind with rfl | before
    · exact .inr (.inl rfl)
    · exact .inr (.inr before)
  have pushed := counting.push fresh (fun _ old => old) (fun _ new => .inl new) origin
  rwa [UInt32.toNat_ofNat_of_lt' fits] at pushed

theorem Counting.write (fresh : value ∉ given) :
    Counting (value :: written) (value :: given) (value.toNat + 1) := by
  apply counting.push fresh
  · intro old member
    exact .tail _ member
  · intro new member
    exact (mem_cons.1 member).symm
  · exact .inl (.head _)

omit counting

def Continues (given : List UInt32) (expected : Nat) (ws : List (Option UInt32))
    (values : List UInt32) : Prop :=
  (∀ value ∈ values, value ∉ given) ∧ values.Nodup ∧ Successive expected ws values

attribute [local simp] Continues Successive

variable {ws : List (Option UInt32)} {values : List UInt32} {expected : Nat}

theorem continues_none_iff :
    Continues given expected (none :: ws) (value :: values) ↔
      value ∉ given ∧ value.toNat = expected ∧
        Continues (value :: given) (value.toNat + 1) ws values := by
  simp only [Continues, Successive, nodup_cons, mem_cons, forall_eq_or_imp, not_or]
  constructor
  · rintro ⟨⟨fresh, later⟩, ⟨unique, nodup⟩, same, successive⟩
    refine ⟨fresh, same, ?_, nodup, successive⟩
    intro other member
    exact ⟨fun equal => unique (equal ▸ member), later other member⟩
  · rintro ⟨fresh, same, later, nodup, successive⟩
    refine ⟨⟨fresh, fun other member => (later other member).2⟩, ⟨?_, nodup⟩, same, successive⟩
    intro member
    exact (later value member).1 rfl

theorem continues_some_iff {written : UInt32} :
    Continues given expected (some written :: ws) (value :: values) ↔
      value ∉ given ∧ Continues (value :: given) (value.toNat + 1) ws values := by
  have counted : Continues given value.toNat (none :: ws) (value :: values) ↔
      value ∉ given ∧ value.toNat = value.toNat ∧
        Continues (value :: given) (value.toNat + 1) ws values := continues_none_iff
  rw [eq_self_iff_true, true_and] at counted
  rw [← counted]
  simp [Continues, Successive]

/-- The induction is on the variants still to come; `Counting` describes those before. -/
theorem continues_iff (ws : List (Option UInt32))
    (counting : Counting written given next) (fresh : WrittenFresh given (UInt32.ofNat next) ws) :
    Continues given next ws (numbers (UInt32.ofNat next) ws) ↔ Clear written next ws := by
  induction ws generalizing written given next with
  | nil => simp [Continues, numbers, Successive, Clear]
  | cons first rest ih =>
    cases first with
    | none =>
      rw [numbers, continues_none_iff, Clear]
      rw [WrittenFresh, ← UInt32.ofNat_one, ← UInt32.ofNat_add] at fresh
      constructor
      · rintro ⟨new, same, later⟩
        have fits : next < 2 ^ 32 := same ▸ UInt32.toNat_lt _
        have unwritten : UInt32.ofNat next ∉ written := fun old => new (counting.among _ old)
        rw [same, ← UInt32.ofNat_one, ← UInt32.ofNat_add] at later
        exact ⟨fits, unwritten, (ih (counting.count fits new) fresh).1 later⟩
      · rintro ⟨fits, unwritten, clear⟩
        have new : UInt32.ofNat next ∉ given := fun old => unwritten (counting.ahead fits old)
        have same := UInt32.toNat_ofNat_of_lt' fits
        have later := (ih (counting.count fits new) fresh).2 clear
        refine ⟨new, same, ?_⟩
        rwa [same, ← UInt32.ofNat_one, ← UInt32.ofNat_add]
    | some value =>
      rcases fresh with ⟨new, fresh⟩
      rw [← ofNat_succ] at fresh
      rw [numbers, continues_some_iff, Clear, ← ofNat_succ, ih (counting.write new) fresh]
      exact and_iff_right new

theorem numbers_continue_iff (ws : List (Option UInt32)) (fresh : WrittenFresh [] 0 ws) :
    (numbers 0 ws).Nodup ∧ Successive 0 ws (numbers 0 ws) ↔ Clear [] 0 ws := by
  rw [← continues_iff ws Counting.start fresh]
  simp [Continues]

end Numbering

section Runs

variable (ctx : Context expression typeSpec type) (enumName : String)

def written (decl : EnumVariant expression typeSpec) : Option UInt32 :=
  match decl.body with
  | .assign value => (ctx.tryEvalUSizeExpr value).map UInt64.toUInt32
  | _ => none

/-- Variants that `@cfg` switches off are no variants. -/
def writtenAll (decls : List (EnumVariant expression typeSpec)) : List (Option UInt32) :=
  (decls.filter fun decl => decl.active).map (written ctx)

@[simp] theorem error_errors (s : Progress type) (message : String) :
    (s.error message).errors = s.errors ++ [message] := rfl

variable {ctx enumName} {decl : EnumVariant expression typeSpec} {s : Progress type}

theorem discriminant_ok {value : UInt32} (ok : discriminant ctx enumName s decl.body = .ok value) :
    (written ctx decl = none ∧ value = s.nextDiscriminant) ∨
      (written ctx decl = some value ∧ value ∉ s.discriminants) := by
  unfold written
  cases body : decl.body with
  | assign e =>
    rw [body, discriminant] at ok
    cases known : ctx.tryEvalUSizeExpr e with
    | none => simp [known] at ok
    | some discVal =>
      simp only [known] at ok
      split at ok
      · cases ok
      · split at ok
        · cases ok
        · cases ok
          refine .inr ⟨?_, ‹_›⟩
          simp [known]
  | bare =>
    rw [body] at ok
    cases ok
    exact .inl ⟨rfl, rfl⟩
  | paren types =>
    rw [body] at ok
    cases ok
    exact .inl ⟨rfl, rfl⟩
  | brace fields =>
    rw [body] at ok
    cases ok
    exact .inl ⟨rfl, rfl⟩

variable (clean : (checkVariant ctx enumName s decl).1.errors = [])
include clean

theorem checkVariant_added :
    s.errors = [] ∧ ((decl.active = false ∧ checkVariant ctx enumName s decl = (s, true)) ∨
        (decl.active = true ∧ ∃ value kind fields s', checkVariant ctx enumName s decl = (s', true) ∧
          discriminant ctx enumName { s with
            seen := decl.name :: s.seen, enumVariants := s.enumVariants ++ [decl.name] }
            decl.body = .ok value ∧ payload ctx enumName decl.name decl.body = .ok (kind, fields) ∧
          s'.nextDiscriminant = value + 1 ∧ s'.enumVariantInfos = s.enumVariantInfos ++
            [⟨decl.name, decl.isError, value, kind, fields⟩])) := by
  unfold checkVariant at clean ⊢
  cases active : decl.active with
  | false =>
    simp only [active, Bool.not_false, if_true] at clean ⊢
    exact ⟨clean, .inl ⟨trivial, trivial⟩⟩
  | true =>
    simp only [active, Bool.not_true, Bool.false_eq_true, if_false] at clean ⊢
    by_cases twice : decl.name ∈ s.seen
    · simp [twice] at clean
    · simp only [twice, if_false] at clean ⊢
      cases value : discriminant ctx enumName { s with
          seen := decl.name :: s.seen, enumVariants := s.enumVariants ++ [decl.name] }
          decl.body with
      | error message => simp [value] at clean
      | ok d =>
        simp only [value] at clean ⊢
        cases found : payload ctx enumName decl.name decl.body with
        | error message => simp [found] at clean
        | ok both =>
          simp only [found] at clean ⊢
          exact ⟨clean, .inr ⟨trivial, d, both.1, both.2, _, rfl, rfl, rfl, rfl, rfl⟩⟩

theorem checkVariant_clean :
    s.errors = [] ∧ ((decl.active = false ∧ checkVariant ctx enumName s decl = (s, true)) ∨
        (decl.active = true ∧ ∃ value s', checkVariant ctx enumName s decl = (s', true) ∧
          s'.nextDiscriminant = value + 1 ∧ s'.discriminants = s.discriminants ++ [value] ∧
          ((written ctx decl = none ∧ value = s.nextDiscriminant) ∨
            (written ctx decl = some value ∧ value ∉ s.discriminants)))) := by
  rcases checkVariant_added clean with ⟨before, off | ⟨on, value, kind, fields, s', turn, known, _,
    next, added⟩⟩
  · exact ⟨before, .inl off⟩
  · refine ⟨before, .inr ⟨on, value, s', turn, next, ?_, discriminant_ok known⟩⟩
    simp [Progress.discriminants, added]

omit clean

theorem written_fresh_congr {ws} {given given'}
    {next : UInt32} (same : ∀ value, value ∈ given ↔ value ∈ given') :
    WrittenFresh given next ws ↔ WrittenFresh given' next ws := by
  induction ws generalizing given given' next with
  | nil => exact Iff.rfl
  | cons first rest ih =>
    have pushed (value : UInt32) : ∀ other, other ∈ value :: given ↔ other ∈ value :: given' := by
      intro other
      rw [mem_cons, mem_cons, same]
    cases first with
    | none => exact ih (pushed next)
    | some value => exact and_congr (not_congr (same value)) (ih (pushed value))

variable {decls : List (EnumVariant expression typeSpec)}

theorem checkVariants_clean (clean : (checkVariants ctx enumName s decls).1.errors = []) :
    s.errors = [] ∧ ∃ s', checkVariants ctx enumName s decls = (s', true) ∧
      s'.discriminants = s.discriminants ++ numbers s.nextDiscriminant (writtenAll ctx decls) ∧
      WrittenFresh s.discriminants s.nextDiscriminant (writtenAll ctx decls) := by
  induction decls generalizing s with
  | nil =>
    refine ⟨clean, s, rfl, ?_, trivial⟩
    simp [writtenAll, numbers]
  | cons decl rest ih =>
    have first_clean : (checkVariant ctx enumName s decl).1.errors = [] := by
      rw [checkVariants] at clean
      generalize checkVariant ctx enumName s decl = turn at clean
      rcases turn with ⟨s', _ | _⟩
      · exact clean
      · exact (ih clean).1
    rcases checkVariant_clean first_clean with ⟨before, ⟨off, turn⟩ |
      ⟨on, value, s', turn, next, given, numbered⟩⟩
    · have skipped : writtenAll ctx (decl :: rest) = writtenAll ctx rest := by
        simp [writtenAll, off]
      rw [checkVariants, turn] at clean
      rw [checkVariants, turn, skipped]
      exact ⟨before, (ih clean).2⟩
    · have counted : writtenAll ctx (decl :: rest) = written ctx decl :: writtenAll ctx rest := by
        simp [writtenAll, on]
      rw [checkVariants, turn] at clean
      rw [checkVariants, turn, counted]
      rcases ih clean with ⟨_, last, run, all, fresh⟩
      rw [given, next] at all fresh
      have same : ∀ other, other ∈ s.discriminants ++ [value] ↔
          other ∈ value :: s.discriminants := by
        intro other
        simp [or_comm]
      have pushed := (written_fresh_congr same).1 fresh
      refine ⟨before, last, run, ?_⟩
      rcases numbered with ⟨implicit, rfl⟩ | ⟨explicit, new⟩
      · rw [implicit]
        exact ⟨by simpa [numbers] using all, pushed⟩
      · rw [explicit]
        exact ⟨by simpa [numbers] using all, new, pushed⟩

theorem checkVariants_infos {β : Type} {read : EnumVariantInfo type → Option β}
    {want : VariantBody expression typeSpec → Option β}
    (each : ∀ (decl : EnumVariant expression typeSpec) value kind fields,
      payload ctx enumName decl.name decl.body = .ok (kind, fields) →
        read ⟨decl.name, decl.isError, value, kind, fields⟩ = want decl.body)
    {s' : Progress type}
    (ran : checkVariants ctx enumName s decls = (s', true)) (clean : s'.errors = []) :
    s'.enumVariantInfos.filterMap read = s.enumVariantInfos.filterMap read ++
      (decls.filter fun decl => decl.active).filterMap fun decl => want decl.body := by
  induction decls generalizing s with
  | nil =>
    cases ran
    simp
  | cons decl rest ih =>
    have first_clean : (checkVariant ctx enumName s decl).1.errors = [] := by
      rw [checkVariants] at ran
      generalize checkVariant ctx enumName s decl = turn at ran
      rcases turn with ⟨middle, _ | _⟩
      · cases (Prod.mk.inj ran).2
      · have later_clean : (checkVariants ctx enumName middle rest).1.errors = [] := by
          rw [show checkVariants ctx enumName middle rest = (s', true) from ran]
          exact clean
        exact (checkVariants_clean later_clean).1
    rcases checkVariant_added first_clean with ⟨_, ⟨off, turn⟩ |
      ⟨on, value, kind, fields, middle, turn, _, found, _, added⟩⟩
    · rw [checkVariants, turn] at ran
      rw [ih ran, filter_cons_of_neg (by simp [off])]
    · rw [checkVariants, turn] at ran
      rw [ih ran, added, filterMap_append, filter_cons_of_pos (by simp [on]),
        append_assoc, filterMap_cons, filterMap_nil, filterMap_cons,
        each decl value kind fields found]
      cases want decl.body <;> rfl

end Runs

section Declarations

variable {ctx : Context expression typeSpec type} {decl : EnumDecl expression typeSpec}
  {info : EnumInfo type}

def EnumInfo.discriminants (info : EnumInfo type) : List UInt32 :=
  info.enumVariantInfos.map fun variant => variant.discriminant

/-- The variants of the enum are told apart by their discriminants, and one that has none
written follows its predecessor without wrapping. -/
structure DiscriminantsSound (ctx : Context expression typeSpec type)
    (decl : EnumDecl expression typeSpec) (info : EnumInfo type) : Prop where
  distinct : info.discriminants.Nodup
  successive : Successive 0 (writtenAll ctx decl.variants) info.discriminants

theorem discriminants_mk (name : String) (s : Progress type) :
    EnumInfo.discriminants ⟨name, s.enumVariants, s.enumVariantInfos⟩ = s.discriminants := rfl

theorem accepted_numbers (accepted : checkEnumDecl ctx decl = ([], .enum info)) :
    info.discriminants = numbers 0 (writtenAll ctx decl.variants) ∧
      WrittenFresh [] 0 (writtenAll ctx decl.variants) := by
  unfold checkEnumDecl at accepted
  split at accepted
  · cases accepted
  · split at accepted
    · cases accepted
    · split at accepted
      · cases accepted
      · generalize loop : checkVariants ctx decl.name .initial decl.variants = result at accepted
        rcases result with ⟨s, _ | _⟩
        · simp at accepted
        · simp only [Prod.mk.injEq, Registered.enum.injEq] at accepted
          rcases accepted with ⟨clean, rfl⟩
          have run_clean : (checkVariants ctx decl.name .initial decl.variants).1.errors = [] := by
            rw [loop]
            exact clean
          rcases checkVariants_clean run_clean with ⟨_, last, ends, all, fresh⟩
          have same : s = last := by
            rw [loop] at ends
            exact congrArg Prod.fst ends
          subst same
          rw [discriminants_mk, all]
          exact ⟨rfl, fresh⟩

theorem discriminants_sound_iff (accepted : checkEnumDecl ctx decl = ([], .enum info)) :
    DiscriminantsSound ctx decl info ↔ Clear [] 0 (writtenAll ctx decl.variants) := by
  rcases accepted_numbers accepted with ⟨all, fresh⟩
  rw [← numbers_continue_iff _ fresh, ← all]
  constructor
  · rintro ⟨distinct, successive⟩
    exact ⟨distinct, successive⟩
  · rintro ⟨distinct, successive⟩
    exact ⟨distinct, successive⟩

/-- `enum Level { High = 1, Low = 0, Middle }` with literals for expressions. -/
def level : EnumDecl UInt64 Unit :=
  ⟨true, "Level", none,
    [⟨true, false, "High", .assign 1⟩, ⟨true, false, "Low", .assign 0⟩,
      ⟨true, false, "Middle", .bare⟩]⟩

def literals : Context UInt64 Unit Unit :=
  ⟨fun _ => false, some, fun _ => none, fun _ => []⟩

def levelInfo : EnumInfo Unit :=
  ⟨"Level", ["High", "Low", "Middle"],
    [⟨"High", false, 1, .unit, []⟩, ⟨"Low", false, 0, .unit, []⟩, ⟨"Middle", false, 1, .unit, []⟩]⟩

theorem level_collides :
    checkEnumDecl literals level = ([], .enum levelInfo) ∧
      ¬ DiscriminantsSound literals level levelInfo := by
  refine ⟨rfl, ?_⟩
  rintro ⟨distinct, _⟩
  exact absurd distinct (by decide)

theorem level_sound_iff_clear :
    DiscriminantsSound literals level levelInfo ↔ Clear [] 0 (writtenAll literals level.variants) :=
  discriminants_sound_iff rfl

end Declarations

end Lucis.EnumDiscriminants
