import Lucis.Library.Spans
import Lucis.IntLiteral

/-!
`checkBitStructDecl` of checkers/Checker_decl.cpp. `unsigned` is `UInt32`, and a type width of
0 stands for the width of a pointer. The texts of the widths are the tokens `INT_LIT`.
-/

namespace Lucis.BitStruct

open Numerals List Option

open ConstExpr (Text digitsValue)

open IntLiteral (Digits)

section Checking

/-- `TypeInfo`, as far as a backing type is asked for it. -/
structure BackType where
  name : String
  isInteger : Bool
  isSigned : Bool
  bitWidth : UInt32

/-- The backing type as written: `auto`, or what `resolveTypeSpec` makes of it. -/
inductive Backing where
  | auto
  | resolved (ty : BackType)
  | unresolved (message : String)

inductive Field where
  | padding (marker width : Digits 10)
  | named (name : String) (width : Digits 10)

structure Decl where
  active : Bool
  name : String
  backing : Backing
  fields : List Field

structure BitFieldInfo where
  name : String
  offset : UInt32
  width : UInt32
  isPadding : Bool

structure TypeInfo where
  name : String
  bitWidth : UInt32
  bitFields : List BitFieldInfo
  backingType : BackType

/-- `std::stoul`; `none` when it throws. -/
def stoul (text : Text) : Option Nat :=
  match digitsValue 10 text with
  | some v => if v < 2 ^ 64 then some v else none
  | none => none

structure Progress where
  runningOffset : UInt32
  bitFields : List BitFieldInfo
  errors : List String

def Progress.push (s : Progress) (name : String) (width : UInt32) (isPadding : Bool) : Progress :=
  { s with
    bitFields := s.bitFields ++ [⟨name, s.runningOffset, width, isPadding⟩]
    runningOffset := s.runningOffset + width }

def checkField (s : Progress) : Field → Option Progress
  | .padding _ n => (stoul n.text).map fun v => s.push "" (UInt32.ofNat v) true
  | .named name n => (stoul n.text).map fun v =>
    if UInt32.ofNat v = 0 then
      { s with errors := s.errors ++ ["bitstruct field '" ++ name ++ "' must have width > 0"] }
    else s.push name (UInt32.ofNat v) false

def checkFields (s : Progress) : List Field → Option Progress
  | [] => some s
  | field :: rest => (checkField s field).bind fun s => checkFields s rest

def autoBits (runningOffset : UInt32) : Option UInt32 :=
  if runningOffset ≤ 8 then some 8
  else if runningOffset ≤ 16 then some 16
  else if runningOffset ≤ 32 then some 32
  else if runningOffset ≤ 64 then some 64
  else if runningOffset ≤ 128 then some 128
  else none

def autoType (backBits : UInt32) : BackType := ⟨"uint" ++ toString backBits, true, false, backBits⟩

def validate (name : String) (s : Progress) (backing : BackType) (backBits : UInt32) :
    List String × Option TypeInfo :=
  if s.runningOffset > backBits then
    (s.errors ++ ["bitstruct '" ++ name ++ "' requires " ++ toString s.runningOffset ++
      " bits but backing type '" ++ backing.name ++ "' only has " ++ toString backBits ++ " bits"],
      none)
  else (s.errors, some ⟨name, backBits, s.bitFields, backing⟩)

/-- The errors and the type that is registered; `none` when a width is too large for `stoul`. -/
def checkBitStructDecl (d : Decl) : Option (List String × Option TypeInfo) :=
  if !d.active then some ([], none)
  else
    match d.backing with
    | .unresolved message => some ([message], none)
    | .resolved ty =>
      if !ty.isInteger then
        some (["bitstruct backing type must be an unsigned integer type, got '" ++ ty.name ++ "'"],
          none)
      else if ty.isSigned then
        some (["bitstruct backing type must be unsigned, got signed '" ++ ty.name ++ "'"], none)
      else (checkFields ⟨0, [], []⟩ d.fields).map fun s =>
        validate d.name s ty (if ty.bitWidth = 0 then 64 else ty.bitWidth)
    | .auto => (checkFields ⟨0, [], []⟩ d.fields).map fun s =>
      match autoBits s.runningOffset with
      | some backBits => validate d.name s (autoType backBits) backBits
      | none => (s.errors ++ ["bitstruct '" ++ d.name ++ "' requires more than 128 bits"], none)

end Checking

section Layout

def Field.name : Field → String
  | padding _ _ => ""
  | named name _ => name

def Field.width : Field → Digits 10
  | padding _ n => n
  | named _ n => n

def Field.isPadding : Field → Bool
  | padding _ _ => true
  | named _ _ => false

def Field.taken (field : Field) : UInt32 := UInt32.ofNat (numeral 10 field.width.leading)

def layout : UInt32 → List Field → List BitFieldInfo
  | _, [] => []
  | offset, field :: rest =>
    ⟨field.name, offset, field.taken, field.isPadding⟩ :: layout (offset + field.taken) rest

def offsetAfter (offset : UInt32) (fields : List Field) : UInt32 :=
  fields.foldl (fun offset field => offset + field.taken) offset

theorem stoul_digits {n : Digits 10} {v : Nat} (read : stoul n.text = some v) :
    v = numeral 10 n.leading := by
  have all := IntLiteral.digitsValue_text (by decide) n [] rfl
  rw [append_nil] at all
  simp only [stoul, all] at read
  split at read
  · exact (Option.some.inj read).symm
  · cases read

variable {s after : Progress}

theorem checkField_cases {field : Field} (ran : checkField s field = some after) :
    after = s.push field.name field.taken field.isPadding ∨
      ∃ message, after = { s with errors := s.errors ++ [message] } := by
  cases field with
  | padding marker n =>
    rcases map_eq_some_iff.1 ran with ⟨v, read, rfl⟩
    exact .inl (by rw [stoul_digits read]; rfl)
  | named name n =>
    rcases map_eq_some_iff.1 ran with ⟨v, read, result⟩
    split at result
    · exact .inr ⟨_, result.symm⟩
    · rw [stoul_digits read] at result
      exact .inl result.symm

variable {fields : List Field}

theorem checkFields_errors
    (ran : checkFields s fields = some after) (clean : after.errors = []) : s.errors = [] := by
  induction fields generalizing s with
  | nil =>
    cases ran
    exact clean
  | cons field rest ih =>
    rcases bind_eq_some_iff.1 ran with ⟨middle, first, later⟩
    have before := ih later
    rcases checkField_cases first with rfl | ⟨message, rfl⟩
    · exact before
    · exact absurd before (by simp)

theorem checkFields_layout (ran : checkFields s fields = some after) (clean : after.errors = []) :
    after.bitFields = s.bitFields ++ layout s.runningOffset fields ∧
      after.runningOffset = offsetAfter s.runningOffset fields := by
  induction fields generalizing s with
  | nil =>
    cases ran
    exact ⟨(append_nil _).symm, rfl⟩
  | cons field rest ih =>
    rcases bind_eq_some_iff.1 ran with ⟨middle, first, later⟩
    have between := checkFields_errors later clean
    rcases checkField_cases first with rfl | ⟨message, rfl⟩
    · rcases ih later with ⟨laid, stop⟩
      exact ⟨by rw [laid]; simp [Progress.push, layout], stop⟩
    · exact absurd between (by simp)

def BackType.width (pointer : UInt32) (ty : BackType) : UInt32 :=
  if ty.bitWidth = 0 then pointer else ty.bitWidth

structure Accepted (d : Decl) (info : TypeInfo) : Prop where
  fields : info.bitFields = layout 0 d.fields
  fits : offsetAfter 0 d.fields ≤ info.bitWidth
  auto : d.backing = .auto → autoBits (offsetAfter 0 d.fields) = some info.bitWidth ∧
    info.backingType = autoType info.bitWidth
  resolved : ∀ ty, d.backing = .resolved ty →
    info.backingType = ty ∧ info.bitWidth = if ty.bitWidth = 0 then 64 else ty.bitWidth
  written : ∀ message, d.backing ≠ .unresolved message

variable {info : TypeInfo}

theorem validate_accepted {name : String} {backing : BackType} {backBits : UInt32}
    (valid : validate name s backing backBits = ([], some info)) :
    s.errors = [] ∧ s.runningOffset ≤ backBits ∧ info = ⟨name, backBits, s.bitFields, backing⟩ := by
  unfold validate at valid
  split at valid
  · cases (Prod.mk.inj valid).2
  · next fits =>
      rcases Prod.mk.inj valid with ⟨clean, built⟩
      exact ⟨clean, UInt32.not_lt.1 fits, (Option.some.inj built).symm⟩

theorem checked_accepted {d : Decl}
    (checked : checkBitStructDecl d = some ([], some info)) : Accepted d info := by
  unfold checkBitStructDecl at checked
  split at checked
  · cases checked
  · split at checked
    · cases checked
    · next ty backing =>
        split at checked
        · cases checked
        · split at checked
          · cases checked
          · rcases map_eq_some_iff.1 checked with ⟨s, ran, valid⟩
            rcases validate_accepted valid with ⟨clean, fits, rfl⟩
            rcases checkFields_layout ran clean with ⟨laid, stop⟩
            exact ⟨laid, stop ▸ fits, by simp [backing], by simp [backing], by simp [backing]⟩
    · next backing =>
        rcases map_eq_some_iff.1 checked with ⟨s, ran, valid⟩
        split at valid
        · next backBits chosen =>
            rcases validate_accepted valid with ⟨clean, fits, rfl⟩
            rcases checkFields_layout ran clean with ⟨laid, stop⟩
            refine ⟨laid, stop ▸ fits, ?_, by simp [backing], by simp [backing]⟩
            intro _
            exact ⟨stop ▸ chosen, rfl⟩
        · cases (Prod.mk.inj valid).2

end Layout

section Soundness

open Spans (Chain)

def Decl.total (d : Decl) : Nat := (d.fields.map fun field => field.width.number).sum

def BitFieldInfo.start (info : BitFieldInfo) : Nat := info.offset.toNat

def BitFieldInfo.bits (info : BitFieldInfo) : Nat := info.width.toNat

/-- The layout that the declaration asks for: its fields lie in their order from bit 0 to the sum
of the widths as they are written, apart from each other and in the backing type of the target. -/
structure Sound (pointer : UInt32) (d : Decl) (info : TypeInfo) : Prop where
  ordered : info.bitFields.map (fun field => (field.name, field.isPadding)) =
    d.fields.map fun field => (field.name, field.isPadding)
  contiguous : Chain BitFieldInfo.start BitFieldInfo.bits 0 info.bitFields d.total
  disjoint : info.bitFields.Pairwise fun f g => f.start + f.bits ≤ g.start
  inside : ∀ field ∈ info.bitFields,
    field.start + field.bits ≤ (info.backingType.width pointer).toNat
  least : d.backing = .auto → info.bitWidth.toNat ∈ [8, 16, 32, 64, 128] ∧
    d.total ≤ info.bitWidth.toNat ∧
    ∀ bits ∈ [8, 16, 32, 64, 128], d.total ≤ bits → info.bitWidth.toNat ≤ bits

/-- No separator hides digits of a width, the sum does not wrap, and a backing type as wide as a
pointer is wide enough on the target. -/
def Plain (pointer : UInt32) (d : Decl) : Prop :=
  (∀ field ∈ d.fields, field.width.plain = true ∨ field.width.number = 0) ∧ d.total < 2 ^ 32 ∧
    ∀ ty, d.backing = .resolved ty → ty.bitWidth = 0 → d.total ≤ pointer.toNat

variable (offset : UInt32) (fields : List Field)

theorem layout_ordered :
    (layout offset fields).map (fun field => (field.name, field.isPadding)) =
      fields.map fun field => (field.name, field.isPadding) := by
  induction fields generalizing offset with
  | nil => rfl
  | cons field rest ih => rw [layout, map_cons, map_cons, ih]

theorem layout_bits :
    (layout offset fields).map BitFieldInfo.bits = fields.map fun field => field.taken.toNat := by
  induction fields generalizing offset with
  | nil => rfl
  | cons field rest ih =>
    rw [layout, map_cons, map_cons, ih]
    rfl

variable (field : Field)

theorem taken_le : field.taken.toNat ≤ numeral 10 field.width.leading := by
  rw [Field.taken, UInt32.toNat_ofNat']
  exact Nat.mod_le _ _

theorem taken_number_le : field.taken.toNat ≤ field.width.number :=
  le_trans (taken_le field) (IntLiteral.leading_le (by decide) field.width)

variable {field : Field}

theorem plain_of_taken (same : field.taken.toNat = field.width.number) :
    field.width.plain = true ∨ field.width.number = 0 := by
  apply (IntLiteral.leading_number_iff (by decide) field.width).mp
  apply le_antisymm (IntLiteral.leading_le (by decide) field.width)
  rw [← same]
  exact taken_le field

theorem taken_of_plain (plain : field.width.plain = true ∨ field.width.number = 0)
    (small : field.width.number < 2 ^ 32) : field.taken.toNat = field.width.number := by
  have whole : numeral 10 field.width.leading = field.width.number :=
    (IntLiteral.leading_number_iff (by decide) field.width).2 plain
  rw [Field.taken, UInt32.toNat_ofNat', whole]
  exact Nat.mod_eq_of_lt small

theorem layout_chain {fields : List Field} {offset : UInt32}
    (plain : ∀ field ∈ fields, field.width.plain = true ∨ field.width.number = 0)
    (small : offset.toNat + (fields.map fun field => field.width.number).sum < 2 ^ 32) :
    Chain BitFieldInfo.start BitFieldInfo.bits offset.toNat (layout offset fields)
        (offset.toNat + (fields.map fun field => field.width.number).sum) ∧
      (offsetAfter offset fields).toNat =
        offset.toNat + (fields.map fun field => field.width.number).sum := by
  induction fields generalizing offset with
  | nil => exact ⟨rfl, rfl⟩
  | cons field rest ih =>
    rw [map_cons, sum_cons] at small ⊢
    have taken := taken_of_plain (plain field (.head _)) (by omega)
    have next : (offset + field.taken).toNat = offset.toNat + field.width.number := by
      rw [UInt32.toNat_add, taken]
      exact Nat.mod_eq_of_lt (by omega)
    have fits : (offset + field.taken).toNat +
        (rest.map fun field => field.width.number).sum < 2 ^ 32 := by
      rw [next]
      omega
    have later := ih (fun f member => plain f (.tail _ member)) fits
    rw [next, add_assoc] at later
    refine ⟨⟨rfl, ?_⟩, later.2⟩
    rw [show BitFieldInfo.bits ⟨field.name, offset, field.taken, field.isPadding⟩ =
      field.width.number from taken]
    exact later.1

theorem autoBits_find :
    autoBits offset = [8, 16, 32, 64, 128].find? fun bits => offset ≤ bits := by
  have first (bits : UInt32) (rest : List UInt32) :
      ((bits :: rest).find? fun bits => offset ≤ bits) =
        if offset ≤ bits then some bits else rest.find? fun bits => offset ≤ bits := by
    rw [find?_cons]
    by_cases fits : offset ≤ bits <;> simp [fits]
  simp only [autoBits, first, find?_nil]

theorem autoBits_least {offset bits : UInt32} (chosen : autoBits offset = some bits) :
    bits ∈ [8, 16, 32, 64, 128] ∧ offset ≤ bits ∧
      ∀ other ∈ [8, 16, 32, 64, 128], offset ≤ other → bits ≤ other := by
  have ascending : [8, 16, 32, 64, 128].Pairwise fun a b : UInt32 => a ≤ b := by decide
  rw [autoBits_find] at chosen
  rcases find?_eq_some_iff_append.1 chosen with ⟨fits, smaller, larger, split, skipped⟩
  refine ⟨mem_of_find?_eq_some chosen, of_decide_eq_true fits, ?_⟩
  rw [split] at ascending ⊢
  intro other member other_fits
  rcases mem_append.1 member with before | behind
  · have out := skipped other before
    simp [other_fits] at out
  · rcases mem_cons.1 behind with rfl | later
    · exact UInt32.le_refl _
    · exact (pairwise_cons.1 (pairwise_append.1 ascending).2.1).1 other later

variable {info : TypeInfo} {pointer : UInt32} {d : Decl}

variable (accepted : Accepted d info)
include accepted

variable (sound : Sound pointer d info)
include sound

theorem sound_widths :
    ∀ field ∈ d.fields, field.width.plain = true ∨ field.width.number = 0 := by
  have stop := Spans.chain_stop sound.contiguous
  rw [accepted.fields, layout_bits, zero_add] at stop
  have each := Spans.widths_eq (fun field _ => taken_number_le field) stop.symm
  intro field member
  exact plain_of_taken (each field member)

theorem sound_total :
    d.total ≤ (info.backingType.width pointer).toNat := by
  cases fields : d.fields with
  | nil => simp [Decl.total, fields]
  | cons field rest =>
    have some : info.bitFields ≠ [] := by
      rw [accepted.fields, fields]
      exact cons_ne_nil _ _
    rcases Spans.chain_last sound.contiguous some with ⟨last, member, stop⟩
    rw [← stop]
    exact sound.inside last member

theorem plain_of_sound : Plain pointer d := by
  have below := sound_total accepted sound
  refine ⟨sound_widths accepted sound, lt_of_le_of_lt below (UInt32.toNat_lt _), ?_⟩
  intro ty backing narrow
  rw [(accepted.resolved ty backing).1, BackType.width, if_pos narrow] at below
  exact below

omit sound

theorem offset_inside (total : (offsetAfter 0 d.fields).toNat = d.total)
    (narrow : ∀ ty, d.backing = .resolved ty → ty.bitWidth = 0 → d.total ≤ pointer.toNat) :
    d.total ≤ (info.backingType.width pointer).toNat := by
  have fits : d.total ≤ info.bitWidth.toNat := by
    rw [← total]
    exact UInt32.le_iff_toNat_le.1 accepted.fits
  cases backing : d.backing with
  | unresolved message => exact absurd backing (accepted.written message)
  | auto =>
    rcases accepted.auto backing with ⟨chosen, built⟩
    have some_width : info.bitWidth ≠ 0 := by
      have member := (autoBits_least chosen).1
      intro zero
      rw [zero] at member
      exact absurd member (by decide)
    rw [built, BackType.width, autoType, if_neg some_width]
    exact fits
  | resolved ty =>
    rcases accepted.resolved ty backing with ⟨built, width⟩
    rw [built, BackType.width]
    split
    · next zero => exact narrow ty backing zero
    · next other =>
        rw [if_neg other] at width
        rw [← width]
        exact fits

theorem least_of_total
    (total : (offsetAfter 0 d.fields).toNat = d.total) (auto : d.backing = .auto) :
    info.bitWidth.toNat ∈ [8, 16, 32, 64, 128] ∧ d.total ≤ info.bitWidth.toNat ∧
      ∀ bits ∈ [8, 16, 32, 64, 128], d.total ≤ bits → info.bitWidth.toNat ≤ bits := by
  rcases autoBits_least (accepted.auto auto).1 with ⟨member, fits, least⟩
  have same : [8, 16, 32, 64, 128] = [8, 16, 32, 64, (128 : UInt32)].map UInt32.toNat := rfl
  rw [← total, same]
  refine ⟨List.mem_map_of_mem member, UInt32.le_iff_toNat_le.1 fits, ?_⟩
  intro bits listed wide
  rcases List.mem_map.1 listed with ⟨other, among, rfl⟩
  exact UInt32.le_iff_toNat_le.1 (least other among (UInt32.le_iff_toNat_le.2 wide))

theorem sound_of_plain (plain : Plain pointer d) : Sound pointer d info := by
  rcases plain with ⟨widths, small, narrow⟩
  have start : (0 : UInt32).toNat + d.total = d.total := zero_add _
  rcases layout_chain widths (start.symm ▸ small) with ⟨chain, stop⟩
  have total : (offsetAfter 0 d.fields).toNat = d.total := stop.trans start
  have contiguous : Chain BitFieldInfo.start BitFieldInfo.bits 0 info.bitFields d.total := by
    rw [accepted.fields, ← start]
    exact chain
  refine ⟨?_, contiguous, Spans.chain_disjoint contiguous, ?_, least_of_total accepted total⟩
  · rw [accepted.fields]
    exact layout_ordered 0 d.fields
  · intro field member
    exact le_trans (Spans.chain_within contiguous field member).2
      (offset_inside accepted total narrow)

omit accepted

/-- An accepted bitstruct has the layout it asks for exactly where its declaration is plain. -/
theorem layout_sound_iff (pointer : UInt32) (d : Decl) (info : TypeInfo)
    (accepted : checkBitStructDecl d = some ([], some info)) :
    Sound pointer d info ↔ Plain pointer d :=
  ⟨plain_of_sound (checked_accepted accepted), sound_of_plain (checked_accepted accepted)⟩

def uint (bits : UInt32) : Backing := .resolved (autoType bits)

/-- `bitstruct Control : uint16 { enable : 1; mode : 2; }` -/
def control : Decl where
  active := true
  name := "Control"
  backing := uint 16
  fields := [.named "enable" ⟨⟨'1', by decide⟩, []⟩, .named "mode" ⟨⟨'2', by decide⟩, []⟩]

def controlInfo : TypeInfo :=
  ⟨"Control", 16, [⟨"enable", 0, 1, false⟩, ⟨"mode", 1, 2, false⟩], autoType 16⟩

theorem layout_sound_control : Sound 64 control controlInfo := by
  have checked : checkBitStructDecl control = some ([], some controlInfo) := by rfl
  refine (layout_sound_iff 64 control controlInfo checked).mpr ⟨by decide, by decide, ?_⟩
  intro ty backing narrow
  cases backing
  exact absurd narrow (by decide)

/-- `bitstruct Huge : uint8 { wide : 4294967297; }` -/
def huge : Decl where
  active := true
  name := "Huge"
  backing := uint 8
  fields := [.named "wide" ⟨⟨'4', by decide⟩, [⟨'2', by decide⟩, ⟨'9', by decide⟩,
    ⟨'4', by decide⟩, ⟨'9', by decide⟩, ⟨'6', by decide⟩, ⟨'7', by decide⟩, ⟨'2', by decide⟩,
    ⟨'9', by decide⟩, ⟨'7', by decide⟩].map fun d => (false, d)⟩]

/-- The width is narrowed to 1 before it is added. -/
theorem huge_accepted : ∃ info, checkBitStructDecl huge = some ([], some info) ∧
    ∀ pointer, ¬Sound pointer huge info := by
  refine ⟨⟨"Huge", 8, [⟨"wide", 0, 1, false⟩], autoType 8⟩, by rfl, ?_⟩
  intro pointer sound
  have stop : 1 = huge.total := sound.contiguous.2
  exact absurd stop (by decide)

end Soundness

end Lucis.BitStruct
