import Lucis.BitStruct
import Lucis.IntOps
import Mathlib.Data.Int.Bitwise

/-!
The assignments to a field of a bitstruct in IRBuilder/IRGen_stmt, each a read of the backing word,
a change of it and a write. The masks are computed in the 64 bits of the host. The word is loaded
and stored at the same place, so that what is stored is a function of what was there.
-/

namespace Lucis.BitFieldWrite

open IntInstr IntOps BitStruct List Option

section Emission

def hostShl (x : UInt64) (n : UInt32) : Option UInt64 :=
  if n < 64 then some (x <<< n.toUInt64) else none

def hostMask (bf : BitFieldInfo) : Option UInt64 := (hostShl 1 bf.width).map (· - 1)

/-- `ConstantInt::get`, which fills up with zeros. -/
def constantInt (w : Nat) (v : UInt64) : BitVec w := v.toBitVec.setWidth w

/-- The builder of the instructions. An extension to a type that is narrower is outside of its
contract, and `narrowing` is what comes of it. -/
structure Builder where
  narrowing : Value → (w : Nat) → Option (BitVec w)

def Builder.createZExt (builder : Builder) (value : Value) (w : Nat) : Option (BitVec w) :=
  if value.width ≤ w then some (value.bits.setWidth w) else builder.narrowing value w

variable {w : Nat}

def clearMask (w : Nat) (bf : BitFieldInfo) : Option (BitVec w) :=
  (hostMask bf).bind fun mask => (hostShl mask bf.offset).map fun placed => constantInt w (~~~placed)

def place (bf : BitFieldInfo) (value : BitVec w) : Option (BitVec w) :=
  if bf.offset > 0 then shl value (BitVec.ofNat w bf.start) else some value

def setField (bf : BitFieldInfo) (raw value : BitVec w) : Option (BitVec w) :=
  (clearMask w bf).bind fun clear => (place bf value).map fun shifted => raw &&& clear ||| shifted

/-- What is stored by `reg.f = v`, for a bitstruct or a pointer to one. -/
def visitFieldAssignStmt (builder : Builder) (bf : BitFieldInfo) (raw : BitVec w) (rhs : Value) :
    Option (BitVec w) :=
  (builder.createZExt rhs w).bind (setField bf raw)

/-- The second copy, for `dev.reg.f = v`. -/
def visitFieldAssignChain (builder : Builder) (bf : BitFieldInfo) (raw : BitVec w) (rhs : Value) :
    Option (BitVec w) :=
  (builder.createZExt rhs w).bind (setField bf raw)

inductive Op where
  | assign
  | plus
  | minus
  | star
  | slash
  | percent
  | amp
  | pipe
  | caret
  | lshift
  | rshift
  deriving DecidableEq

def newVal : Op → BitVec w → BitVec w → Option (BitVec w)
  | .plus, cur, rhs => some (cur + rhs)
  | .minus, cur, rhs => some (cur - rhs)
  | .star, cur, rhs => some (cur * rhs)
  | .amp, cur, rhs => some (cur &&& rhs)
  | .pipe, cur, rhs => some (cur ||| rhs)
  | .caret, cur, rhs => some (cur ^^^ rhs)
  | _, _, _ => none

def curVal (bf : BitFieldInfo) (raw : BitVec w) (mask : UInt64) : Option (BitVec w) :=
  (if bf.offset > 0 then lshr raw (BitVec.ofNat w bf.start) else some raw).map
    (· &&& constantInt w mask)

def visitFieldCompoundAssignStmt (builder : Builder) (op : Op) (bf : BitFieldInfo) (raw : BitVec w)
    (rhs : Value) : Option (BitVec w) :=
  (hostMask bf).bind fun mask => (curVal bf raw mask).bind fun cur =>
    (builder.createZExt rhs w).bind fun rhsExt =>
      match newVal op cur rhsExt with
      | some value => setField bf raw value
      | none => some raw

/-- How the bitstruct is reached: as a variable or through a pointer that is one, through the fields
of a variable, or through the fields of what a variable points to. -/
inductive Path where
  | direct
  | chain
  | pointerChain
  deriving DecidableEq

/-- The walk along the fields does not know those of a bitstruct, except for one assignment: there is
a message, and nothing is stored. -/
def emitAssign (builder : Builder) (path : Path) (op : Op) (bf : BitFieldInfo) (raw : BitVec w)
    (rhs : Value) : Option (BitVec w) :=
  match path, op with
  | .direct, .assign => visitFieldAssignStmt builder bf raw rhs
  | .direct, op => visitFieldCompoundAssignStmt builder op bf raw rhs
  | .chain, .assign => visitFieldAssignChain builder bf raw rhs
  | .chain, _ => some raw
  | .pointerChain, _ => some raw

end Emission

section Law

def Op.number : Op → Int → Int → Option Int
  | .assign, _, v => some v
  | .plus, cur, v => some (cur + v)
  | .minus, cur, v => some (cur - v)
  | .star, cur, v => some (cur * v)
  | .slash, cur, v => if v = 0 then none else some (cur.tdiv v)
  | .percent, cur, v => if v = 0 then none else some (cur.tmod v)
  | .amp, cur, v => some (cur.land v)
  | .pipe, cur, v => some (cur.lor v)
  | .caret, cur, v => some (cur.xor v)
  | .lshift, cur, v => if v < 0 then none else some (cur * 2 ^ v.toNat)
  | .rshift, cur, v => if v < 0 then none else some (cur / 2 ^ v.toNat)

def bitField (info : TypeInfo) (fieldName : String) : Option BitFieldInfo :=
  info.bitFields.find? fun bf => bf.name == fieldName && !bf.isPadding

def others (info : TypeInfo) (fieldName : String) : List BitFieldInfo :=
  info.bitFields.eraseP fun bf => bf.name == fieldName && !bf.isPadding

variable {w : Nat}

def contents (bf : BitFieldInfo) (raw : BitVec w) : BitVec bf.bits :=
  raw.extractLsb' bf.start bf.bits

def Covers (bf : BitFieldInfo) (j : Nat) : Prop := bf.start ≤ j ∧ j < bf.start + bf.bits

instance (bf : BitFieldInfo) (j : Nat) : Decidable (Covers bf j) :=
  inferInstanceAs (Decidable (_ ∧ _))

structure Put (rest : List BitFieldInfo) (bf : BitFieldInfo) (raw result : BitVec w)
    (value : BitVec bf.bits) : Prop where
  put : contents bf result = value
  frame : ∀ other ∈ rest, ∀ j, Covers other j → ¬Covers bf j →
    result.getLsbD j = raw.getLsbD j

end Law

section Bits

variable {w : Nat}

variable {n : UInt32}

theorem hostShl_eq_some {x y : UInt64} :
    hostShl x n = some y ↔ n < 64 ∧ y = x <<< n.toUInt64 := by
  simp [hostShl, eq_comm]

theorem toNat_shiftLeft {x : UInt64} (small : n < 64) :
    (x <<< n.toUInt64).toNat = x.toNat <<< n.toNat % 2 ^ 64 := by
  have small : n.toNat < 64 := UInt32.lt_iff_toNat_lt.1 small
  rw [UInt64.toNat_shiftLeft, UInt32.toNat_toUInt64, Nat.mod_eq_of_lt small]

variable {bf : BitFieldInfo}

variable {mask : UInt64}

theorem hostMask_eq (defined : hostMask bf = some mask) :
    bf.width < 64 ∧ mask.toNat = 2 ^ bf.bits - 1 := by
  obtain ⟨power, shifted, rfl⟩ := map_eq_some_iff.1 defined
  obtain ⟨small, rfl⟩ := hostShl_eq_some.1 shifted
  have bits : bf.bits < 64 := UInt32.lt_iff_toNat_lt.1 small
  have below : 2 ^ bf.bits < 2 ^ 64 := Nat.pow_lt_pow_right (by decide) bits
  have power : ((1 : UInt64) <<< bf.width.toUInt64).toNat = 2 ^ bf.bits := by
    rw [toNat_shiftLeft small]
    exact (Nat.mod_eq_of_lt (by rwa [UInt64.toNat_one, Nat.one_shiftLeft])).trans (Nat.one_shiftLeft _)
  refine ⟨small, ?_⟩
  have one_le : (1 : UInt64) ≤ 1 <<< bf.width.toUInt64 := by
    rw [UInt64.le_iff_toNat_le, power]
    exact Nat.one_le_two_pow
  rw [UInt64.toNat_sub_of_le _ _ one_le, power]
  rfl

theorem hostMask_isSome (small : bf.width < 64) : ∃ mask, hostMask bf = some mask :=
  ⟨_, by rw [hostMask, hostShl, if_pos small]; rfl⟩

theorem clearMask_bits {clear : BitVec w} (defined : clearMask w bf = some clear)
    (j : Nat) : clear.getLsbD j = (decide (j < w) && decide (j < 64) && !decide (Covers bf j)) := by
  obtain ⟨mask, masked, defined⟩ := bind_eq_some_iff.1 defined
  obtain ⟨placed, shifted, rfl⟩ := map_eq_some_iff.1 defined
  obtain ⟨small, rfl⟩ := hostShl_eq_some.1 shifted
  have value := (hostMask_eq masked).2
  have bit : (mask <<< bf.offset.toUInt64).toBitVec.getLsbD j =
      (decide (j < 64) && decide (Covers bf j)) := by
    rw [← BitVec.testBit_toNat, UInt64.toNat_toBitVec, toNat_shiftLeft small, value,
      Nat.testBit_mod_two_pow, Nat.testBit_shiftLeft, Nat.testBit_two_pow_sub_one]
    simp only [Covers, BitFieldInfo.start]
    grind
  simp only [constantInt, BitVec.getLsbD_setWidth, UInt64.toBitVec_not, BitVec.getLsbD_not, bit]
  grind

theorem clearMask_isSome :
    (∃ clear, clearMask w bf = some clear) ↔ bf.width < 64 ∧ bf.offset < 64 := by
  constructor
  · rintro ⟨clear, defined⟩
    obtain ⟨mask, masked, defined⟩ := bind_eq_some_iff.1 defined
    obtain ⟨placed, shifted, rfl⟩ := map_eq_some_iff.1 defined
    exact ⟨(hostMask_eq masked).1, (hostShl_eq_some.1 shifted).1⟩
  · rintro ⟨narrow, near⟩
    obtain ⟨mask, masked⟩ := hostMask_isSome narrow
    exact ⟨_, by rw [clearMask, masked, bind_some, hostShl, if_pos near]; rfl⟩

theorem toNat_offset (inside : bf.start < w) : (BitVec.ofNat w bf.start).toNat = bf.start :=
  Nat.mod_eq_of_lt (inside.trans Nat.lt_two_pow_self)

theorem place_eq (inside : bf.start < w) (value : BitVec w) :
    place bf value = some (value <<< bf.start) := by
  rw [place]
  split
  · rw [shl, toNat_offset inside, if_pos inside]
  · next zero =>
      have zero : bf.start = 0 := by
        have none_above := UInt32.not_lt.1 zero
        simpa [BitFieldInfo.start] using UInt32.le_iff_toNat_le.1 none_above
      rw [zero, BitVec.shiftLeft_zero]

variable {value raw result : BitVec w}

theorem setField_bits (inside : bf.start < w)
    (stored : setField bf raw value = some result) (j : Nat) :
    result.getLsbD j = (raw.getLsbD j && (decide (j < 64) && !decide (Covers bf j)) ||
      (decide (j < w) && decide (bf.start ≤ j) && value.getLsbD (j - bf.start))) := by
  obtain ⟨clear, cleared, stored⟩ := bind_eq_some_iff.1 stored
  rw [place_eq inside] at stored
  obtain rfl : _ = result := Option.some.inj stored
  have behind : (!decide (j < bf.start)) = decide (bf.start ≤ j) := by grind
  simp only [BitVec.getLsbD_or, BitVec.getLsbD_and, BitVec.getLsbD_shiftLeft, clearMask_bits cleared,
    behind]
  cases bit : raw.getLsbD j
  · simp
  · have within := BitVec.lt_of_getLsbD bit
    simp [within]

theorem setField_isSome (inside : bf.start < w) :
    (∃ result, setField bf raw value = some result) ↔ bf.width < 64 ∧ bf.offset < 64 := by
  rw [← clearMask_isSome (w := w)]
  constructor
  · rintro ⟨result, stored⟩
    obtain ⟨clear, cleared, _⟩ := bind_eq_some_iff.1 stored
    exact ⟨clear, cleared⟩
  · rintro ⟨clear, cleared⟩
    exact ⟨_, by rw [setField, cleared, bind_some, place_eq inside]; rfl⟩

theorem contents_bit {i : Nat} (inside : i < bf.bits) :
    (contents bf raw).getLsbD i = raw.getLsbD (bf.start + i) := by
  simp [contents, inside]

/-- What is asked of the other fields: none has bits beyond those of the host, and no set bit of the
value comes to lie in one. -/
def Clear (rest : List BitFieldInfo) (bf : BitFieldInfo) (value : BitVec w) : Prop :=
  ∀ other ∈ rest, ∀ j < w, Covers other j → ¬Covers bf j →
    j < 64 ∧ (bf.start ≤ j → value.getLsbD (j - bf.start) = false)

instance (rest : List BitFieldInfo) (bf : BitFieldInfo) (value : BitVec w) :
    Decidable (Clear rest bf value) :=
  inferInstanceAs (Decidable (∀ other ∈ rest, ∀ j < w, Covers other j → ¬Covers bf j → _))

variable {rest : List BitFieldInfo}

theorem put_of_setField (positive : 0 < bf.bits) (inside : bf.start + bf.bits ≤ w)
    (stored : setField bf raw value = some result) (clear : Clear rest bf value) :
    Put rest bf raw result (value.setWidth bf.bits) where
  put := by
    apply BitVec.eq_of_getLsbD_eq
    intro i within
    have covered : Covers bf (bf.start + i) := ⟨by omega, by omega⟩
    rw [contents_bit within, setField_bits (by omega) stored]
    simp [covered, within, show bf.start + i < w by omega]
  frame := by
    intro other among j there apart
    rw [setField_bits (by omega) stored]
    by_cases below : j < w
    · obtain ⟨near, unset⟩ := clear other among j below there apart
      by_cases behind : bf.start ≤ j
      · simp [near, apart, unset behind]
      · simp [near, apart, behind]
    · simp [below, BitVec.getLsbD_of_ge raw j (by omega)]

variable {wanted : BitVec bf.bits}

theorem value_of_put (positive : 0 < bf.bits) (inside : bf.start + bf.bits ≤ w)
    (stored : setField bf raw value = some result) (put : Put rest bf raw result wanted) :
    value.setWidth bf.bits = wanted := by
  have clear : Clear [] bf value := nofun
  rw [← put.put, (put_of_setField positive inside stored clear).put]

def withBit (raw : BitVec w) (j : Nat) (bit : Bool) : BitVec w :=
  if bit then raw ||| BitVec.twoPow w j else raw &&& ~~~(BitVec.twoPow w j)

theorem withBit_bits (raw : BitVec w) (j : Nat) (bit : Bool) {i : Nat} (inside : i < w) :
    (withBit raw j bit).getLsbD i = if i = j then bit else raw.getLsbD i := by
  cases bit <;> simp [withBit, inside] <;> grind

variable {stored : BitVec w}

theorem clear_of_put (inside : bf.start < w) (puts : ∀ raw, contents bf raw = contents bf stored →
      ∃ result, setField bf raw value = some result ∧ Put rest bf raw result wanted) :
    Clear rest bf value := by
  intro other among j below there apart
  have changed (bit : Bool) : contents bf (withBit stored j bit) = contents bf stored := by
    apply BitVec.eq_of_getLsbD_eq
    intro i within
    have elsewhere : bf.start + i ≠ j := by
      rintro rfl
      exact apart ⟨by omega, by omega⟩
    rw [contents_bit within, contents_bit within]
    by_cases below : bf.start + i < w
    · rw [withBit_bits stored j bit below, if_neg elsewhere]
    · rw [BitVec.getLsbD_of_ge _ _ (by omega), BitVec.getLsbD_of_ge _ _ (by omega)]
  have kept (bit : Bool) : bit = (bit && (decide (j < 64) && !decide (Covers bf j)) ||
      (decide (j < w) && decide (bf.start ≤ j) && value.getLsbD (j - bf.start))) := by
    obtain ⟨result, written, put⟩ := puts _ (changed bit)
    have same := put.frame other among j there apart
    rw [setField_bits inside written, withBit_bits stored j bit below, if_pos rfl] at same
    exact same.symm
  -- A bit that is 0 shows what the value sets, and one that is 1 what the mask clears.
  have unset := kept false
  have uncleared := kept true
  simp [below] at unset uncleared
  grind

theorem setField_puts_iff (positive : 0 < bf.bits) (inside : bf.start + bf.bits ≤ w) :
    (∀ raw, contents bf raw = contents bf stored →
      ∃ result, setField bf raw value = some result ∧ Put rest bf raw result wanted) ↔
      (bf.width < 64 ∧ bf.offset < 64) ∧ value.setWidth bf.bits = wanted ∧ Clear rest bf value := by
  have within : bf.start < w := by omega
  constructor
  · intro puts
    obtain ⟨result, written, put⟩ := puts stored rfl
    exact ⟨(setField_isSome within).1 ⟨result, written⟩, value_of_put positive inside written put,
      clear_of_put within puts⟩
  · rintro ⟨host, rfl, clear⟩ raw _
    obtain ⟨result, written⟩ := (setField_isSome within).2 host
    exact ⟨result, written, put_of_setField positive inside written clear⟩

theorem curVal_eq (inside : bf.start < w) (masked : hostMask bf = some mask) :
    curVal bf raw mask = some ((contents bf raw).setWidth w) := by
  have value := (hostMask_eq masked).2
  have _ : bf.bits < 64 := UInt32.lt_iff_toNat_lt.1 (hostMask_eq masked).1
  have shifted : (if bf.offset > 0 then lshr raw (BitVec.ofNat w bf.start) else some raw) =
      some (raw >>> bf.start) := by
    split
    · rw [lshr, toNat_offset inside, if_pos inside]
    · next zero =>
        have zero : bf.start = 0 := by
          have none_above := UInt32.not_lt.1 zero
          simpa [BitFieldInfo.start] using UInt32.le_iff_toNat_le.1 none_above
        rw [zero, BitVec.ushiftRight_zero]
  rw [curVal, shifted, map_some]
  congr 1
  apply BitVec.eq_of_getLsbD_eq
  intro i within
  have bit : mask.toBitVec.getLsbD i = decide (i < bf.bits) := by
    rw [← BitVec.testBit_toNat, UInt64.toNat_toBitVec, value, Nat.testBit_two_pow_sub_one]
  simp [constantInt, bit, within, contents, Bool.and_comm]

end Bits

section Main

variable {w : Nat}

def Op.supported : Op → Bool
  | .plus | .minus | .star | .amp | .pipe | .caret => true
  | _ => false

variable {op : Op}

theorem newVal_number (known : op.supported = true) (cur rhs : BitVec w) :
    ∃ m, op.number cur.toNat rhs.toNat = some m ∧ newVal op cur rhs = some (BitVec.ofInt w m) := by
  cases op <;> simp only [Op.supported, Bool.false_eq_true] at known
  case plus => exact ⟨_, rfl, by rw [BitVec.ofInt_add]; simp [newVal]⟩
  case minus =>
    refine ⟨_, rfl, ?_⟩
    rw [Int.sub_eq_add_neg, BitVec.ofInt_add, BitVec.ofInt_neg]
    simp [newVal, BitVec.sub_eq_add_neg]
  case star => exact ⟨_, rfl, by rw [BitVec.ofInt_mul]; simp [newVal]⟩
  case amp =>
    refine ⟨_, rfl, ?_⟩
    have same : BitVec.ofInt w ((cur.toNat &&& rhs.toNat : Nat) : Int) = cur &&& rhs := by
      rw [BitVec.ofInt_natCast, ← BitVec.toNat_and, BitVec.ofNat_toNat, BitVec.setWidth_eq]
    exact congrArg some same.symm
  case pipe =>
    refine ⟨_, rfl, ?_⟩
    have same : BitVec.ofInt w ((cur.toNat ||| rhs.toNat : Nat) : Int) = cur ||| rhs := by
      rw [BitVec.ofInt_natCast, ← BitVec.toNat_or, BitVec.ofNat_toNat, BitVec.setWidth_eq]
    exact congrArg some same.symm
  case caret =>
    refine ⟨_, rfl, ?_⟩
    have same : BitVec.ofInt w ((cur.toNat ^^^ rhs.toNat : Nat) : Int) = cur ^^^ rhs := by
      rw [BitVec.ofInt_natCast, ← BitVec.toNat_xor, BitVec.ofNat_toNat, BitVec.setWidth_eq]
    exact congrArg some same.symm

theorem newVal_unsupported (unknown : op.supported = false) (cur rhs : BitVec w) :
    newVal op cur rhs = none := by
  cases op <;> first | rfl | cases unknown

/-- The operators that a statement stores the value of; after the others the field is as before. -/
def Path.stores : Path → Op → Bool
  | .direct, op => op = .assign || op.supported
  | .chain, op => op = .assign
  | .pointerChain, _ => false

/-- The mask is one of the host, the value extends to the backing type, the low bits that it and the
operator give are right, and what they give beyond the field touches no other one. -/
def Writable (builder : Builder) (rest : List BitFieldInfo) (bf : BitFieldInfo) (w : Nat) (op : Op)
    (cur : BitVec bf.bits) (rhs : Value) (n : Int) : Prop :=
  (bf.width < 64 ∧ bf.offset < 64) ∧ ∃ x, builder.createZExt rhs w = some x ∧
    ∃ m, op.number cur.toNat x.toNat = some m ∧ BitVec.ofInt bf.bits m = BitVec.ofInt bf.bits n ∧
      Clear rest bf (BitVec.ofInt w m)

def Idle (builder : Builder) (path : Path) (bf : BitFieldInfo) (w : Nat) (cur : BitVec bf.bits)
    (rhs : Value) (n : Int) : Prop :=
  (path = .direct → bf.width < 64 ∧ ∃ x, builder.createZExt rhs w = some x) ∧
    cur = BitVec.ofInt bf.bits n

variable {builder : Builder} {rest : List BitFieldInfo} {bf : BitFieldInfo} {stored : BitVec w}
  {rhs : Value} {n : Int}

/-- The statement leaves a word where the field holds `n`, whatever is in the other fields. -/
def Puts (emit : BitVec w → Option (BitVec w)) (rest : List BitFieldInfo) (bf : BitFieldInfo)
    (stored : BitVec w) (n : Int) : Prop :=
  ∀ raw, contents bf raw = contents bf stored →
    ∃ result, emit raw = some result ∧ Put rest bf raw result (BitVec.ofInt bf.bits n)

theorem puts_unchanged_iff : Puts (fun raw : BitVec w => some raw) rest bf stored n ↔
      contents bf stored = BitVec.ofInt bf.bits n := by
  constructor
  · intro puts
    obtain ⟨result, same, put⟩ := puts stored rfl
    obtain rfl : stored = result := Option.some.inj same
    exact put.put
  · intro same raw alike
    refine ⟨raw, rfl, ?_⟩
    rw [← same, ← alike]
    exact ⟨rfl, fun _ _ _ _ _ => rfl⟩

theorem puts_congr {emit other}
    (same : ∀ raw, contents bf raw = contents bf stored → emit raw = other raw) :
    Puts emit rest bf stored n ↔ Puts other rest bf stored n :=
  forall₂_congr fun raw alike => by rw [same raw alike]

theorem not_puts {emit} (undefined : emit stored = none) :
    ¬Puts emit rest bf stored n := by
  intro puts
  obtain ⟨result, written, _⟩ := puts stored rfl
  rw [undefined] at written
  cases written

theorem puts_setField_iff {x : BitVec w} {m : Int} (positive : 0 < bf.bits)
    (inside : bf.start + bf.bits ≤ w) (extended : builder.createZExt rhs w = some x)
    (computed : op.number (contents bf stored).toNat x.toNat = some m) :
    Puts (fun raw => setField bf raw (BitVec.ofInt w m)) rest bf stored n ↔
      Writable builder rest bf w op (contents bf stored) rhs n := by
  have low : (BitVec.ofInt w m).setWidth bf.bits = BitVec.ofInt bf.bits m :=
    setWidth_ofInt (by omega) m
  rw [Puts, setField_puts_iff positive inside, low]
  constructor
  · rintro ⟨host, bits, clear⟩
    exact ⟨host, x, extended, m, computed, bits, clear⟩
  · rintro ⟨host, found, again, number, recomputed, bits, clear⟩
    obtain rfl : x = found := Option.some.inj (extended.symm.trans again)
    obtain rfl : m = number := Option.some.inj (computed.symm.trans recomputed)
    exact ⟨host, bits, clear⟩

theorem puts_assign_iff (positive : 0 < bf.bits) (inside : bf.start + bf.bits ≤ w) :
    Puts (fun raw => (builder.createZExt rhs w).bind (setField bf raw)) rest bf stored n ↔
      Writable builder rest bf w .assign (contents bf stored) rhs n := by
  cases extended : builder.createZExt rhs w with
  | none =>
    refine iff_of_false (not_puts rfl) ?_
    rintro ⟨_, x, again, _⟩
    rw [extended] at again
    cases again
  | some x =>
    have whole : BitVec.ofInt w x.toNat = x := by simp
    have computed : Op.assign.number (contents bf stored).toNat x.toNat = some x.toNat := rfl
    rw [← puts_setField_iff positive inside extended computed]
    exact puts_congr fun raw _ => by rw [bind_some, whole]

theorem puts_compound_iff (positive : 0 < bf.bits) (inside : bf.start + bf.bits ≤ w) :
    Puts (fun raw => visitFieldCompoundAssignStmt builder op bf raw rhs) rest bf stored n ↔
      if op.supported then Writable builder rest bf w op (contents bf stored) rhs n
      else Idle builder .direct bf w (contents bf stored) rhs n := by
  by_cases narrow : bf.width < 64
  case neg =>
    have undefined : hostMask bf = none := by rw [hostMask, hostShl, if_neg narrow]; rfl
    refine iff_of_false (not_puts (by rw [visitFieldCompoundAssignStmt, undefined]; rfl)) ?_
    split
    · exact fun writable => narrow writable.1.1
    · exact fun idle => narrow (idle.1 rfl).1
  case pos =>
    obtain ⟨mask, masked⟩ := hostMask_isSome narrow
    have emits (raw : BitVec w) (alike : contents bf raw = contents bf stored) :
        visitFieldCompoundAssignStmt builder op bf raw rhs =
          (builder.createZExt rhs w).bind fun rhsExt =>
            match newVal op ((contents bf stored).setWidth w) rhsExt with
            | some value => setField bf raw value
            | none => some raw := by
      rw [visitFieldCompoundAssignStmt, masked, bind_some, curVal_eq (by omega) masked,
        bind_some, alike]
    rw [puts_congr emits]
    cases extended : builder.createZExt rhs w with
    | none =>
      refine iff_of_false (not_puts rfl) ?_
      split
      · rintro ⟨_, x, again, _⟩
        rw [extended] at again
        cases again
      · rintro ⟨defined, _⟩
        obtain ⟨_, x, again⟩ := defined rfl
        rw [extended] at again
        cases again
    | some x =>
      have cur : ((contents bf stored).setWidth w).toNat = (contents bf stored).toNat :=
        BitVec.toNat_setWidth_of_le (by omega)
      cases known : op.supported
      · simp only [bind_some, newVal_unsupported known, puts_unchanged_iff]
        simp [Idle, narrow, extended]
      · obtain ⟨m, computed, value⟩ := newVal_number known ((contents bf stored).setWidth w) x
        rw [cur] at computed
        simp only [bind_some, value, if_true]
        exact puts_setField_iff positive inside extended computed

theorem puts_iff (path : Path) (op : Op) (positive : 0 < bf.bits) (inside : bf.start + bf.bits ≤ w) :
    Puts (fun raw => emitAssign builder path op bf raw rhs) rest bf stored n ↔
      if path.stores op then Writable builder rest bf w op (contents bf stored) rhs n
      else Idle builder path bf w (contents bf stored) rhs n := by
  have idle (other : path ≠ .direct) :
      Puts (fun raw => some raw) rest bf stored n ↔
        Idle builder path bf w (contents bf stored) rhs n := by
    simp [puts_unchanged_iff, Idle, other]
  by_cases assigned : op = .assign
  · subst assigned
    cases path with
    | direct => exact puts_assign_iff positive inside
    | chain => exact puts_assign_iff positive inside
    | pointerChain => exact idle nofun
  · cases path with
    | direct =>
      have stores : Path.direct.stores op = op.supported := by simp [Path.stores, assigned]
      rw [stores, ← puts_compound_iff positive inside]
      exact puts_congr fun raw _ => by cases op <;> first | rfl | exact absurd rfl assigned
    | chain =>
      have stores : Path.chain.stores op = false := by simp [Path.stores, assigned]
      rw [stores, if_neg (by decide), ← idle nofun]
      exact puts_congr fun raw _ => by cases op <;> first | rfl | exact absurd rfl assigned
    | pointerChain => exact idle nofun

end Main

section Layouts

def assignField (builder : Builder) (path : Path) (op : Op) (info : TypeInfo) (fieldName : String)
    {w : Nat} (raw : BitVec w) (rhs : Value) : Option (BitVec w) :=
  match bitField info fieldName with
  | some bf => emitAssign builder path op bf raw rhs
  | none => some raw

/-- What an assignment to the field `bf` is to do, when its contents are those of `stored` and the
right-hand side is a number of a type of this sign. -/
def Lens (builder : Builder) (path : Path) (op : Op) (info : TypeInfo) (fieldName : String)
    (bf : BitFieldInfo) {w : Nat} (stored : BitVec w) (isSigned : Bool) (rhs : Value) : Prop :=
  ∀ n, op.number (contents bf stored).toNat (number isSigned rhs.bits) = some n →
    Puts (fun raw => assignField builder path op info fieldName raw rhs) (others info fieldName) bf
      stored n

def Assignable (builder : Builder) (path : Path) (op : Op) (info : TypeInfo) (fieldName : String)
    (bf : BitFieldInfo) {w : Nat} (stored : BitVec w) (isSigned : Bool) (rhs : Value) : Prop :=
  ∀ n, op.number (contents bf stored).toNat (number isSigned rhs.bits) = some n →
    if path.stores op then Writable builder (others info fieldName) bf w op (contents bf stored) rhs n
    else Idle builder path bf w (contents bf stored) rhs n

theorem checkFields_positive {fields : List Field} {s after : Progress}
    (ran : checkFields s fields = some after)
    (before : ∀ bf ∈ s.bitFields, bf.isPadding = false → bf.width ≠ 0) :
    ∀ bf ∈ after.bitFields, bf.isPadding = false → bf.width ≠ 0 := by
  induction fields generalizing s with
  | nil =>
    cases ran
    exact before
  | cons field rest ih =>
    obtain ⟨middle, first, later⟩ := bind_eq_some_iff.1 ran
    refine ih later ?_
    cases field with
    | padding marker n =>
      obtain ⟨v, _, rfl⟩ := map_eq_some_iff.1 first
      intro bf member named
      rcases mem_append.1 member with old | new
      · exact before bf old named
      · rw [mem_singleton.1 new] at named
        cases named
    | named name n =>
      obtain ⟨v, _, result⟩ := map_eq_some_iff.1 first
      split at result
      · subst result
        exact before
      · next nonzero =>
          subst result
          intro bf member named
          rcases mem_append.1 member with old | new
          · exact before bf old named
          · rw [mem_singleton.1 new]
            exact nonzero

variable {info : TypeInfo}

theorem validate_fields {name : String} {s : Progress} {backing : BackType} {backBits : UInt32}
    (valid : validate name s backing backBits = ([], some info)) :
    info.bitFields = s.bitFields := by
  rw [(validate_accepted valid).2.2]

variable {d : Decl}

theorem checked_fields (checked : checkBitStructDecl d = some ([], some info)) :
    ∃ s, checkFields ⟨0, [], []⟩ d.fields = some s ∧ info.bitFields = s.bitFields := by
  unfold checkBitStructDecl at checked
  split at checked
  · cases checked
  · split at checked
    · cases checked
    · split at checked
      · cases checked
      · split at checked
        · cases checked
        · obtain ⟨s, ran, valid⟩ := map_eq_some_iff.1 checked
          exact ⟨s, ran, validate_fields valid⟩
    · obtain ⟨s, ran, valid⟩ := map_eq_some_iff.1 checked
      split at valid
      · exact ⟨s, ran, validate_fields valid⟩
      · cases (Prod.mk.inj valid).2

theorem bitField_inside {pointer : UInt32} {fieldName : String}
    {bf : BitFieldInfo} (checked : checkBitStructDecl d = some ([], some info))
    (plain : Plain pointer d) (found : bitField info fieldName = some bf) :
    0 < bf.bits ∧ bf.start + bf.bits ≤ (info.backingType.width pointer).toNat := by
  have member := mem_of_find?_eq_some found
  have named : bf.isPadding = false := by
    have chosen := find?_some found
    simp only [Bool.and_eq_true, Bool.not_eq_true'] at chosen
    exact chosen.2
  obtain ⟨s, ran, fields⟩ := checked_fields checked
  refine ⟨?_, (sound_of_plain (checked_accepted checked) plain).inside bf member⟩
  rw [fields] at member
  have nonzero := checkFields_positive ran nofun bf member named
  exact Nat.pos_of_ne_zero fun zero => nonzero (UInt32.toNat_inj.1 zero)

/-- An assignment to a field of a bitstruct is a write of a lens exactly where the statement stores
at all, the host has the mask, and the bits that are not masked away touch no other field. -/
theorem assignField_lens_iff (builder : Builder) (path : Path) (op : Op) {info : TypeInfo}
    {fieldName : String} {bf : BitFieldInfo} {w : Nat} (found : bitField info fieldName = some bf)
    (positive : 0 < bf.bits) (inside : bf.start + bf.bits ≤ w) (stored : BitVec w)
    (isSigned : Bool) (rhs : Value) :
    Lens builder path op info fieldName bf stored isSigned rhs ↔
      Assignable builder path op info fieldName bf stored isSigned rhs := by
  refine forall₂_congr fun n _ => ?_
  rw [← puts_iff path op positive inside]
  exact puts_congr fun raw _ => by rw [assignField, found]

def strict : Builder := ⟨fun _ _ => none⟩

/-- `reg.mode = 3;` where `mode` lies in bits 1 and 2. -/
theorem assign_mode :
    Lens strict .direct .assign controlInfo "mode" ⟨"mode", 1, 2, false⟩ (0xffff : BitVec 16) false
      ⟨16, 3, false⟩ := by
  refine (assignField_lens_iff strict .direct .assign rfl (by decide) (by decide) _ _ _).mpr ?_
  intro n value
  obtain rfl : _ = n := Option.some.inj value
  exact ⟨by decide, _, rfl, _, rfl, rfl, by decide⟩

/-- `reg.enable = 2;` leaves 1 in the next field. -/
theorem assign_enable_spills :
    ¬Lens strict .direct .assign controlInfo "enable" ⟨"enable", 0, 1, false⟩ (0 : BitVec 16) false
      ⟨16, 2, false⟩ := by
  intro lens
  obtain ⟨result, written, put⟩ := lens 2 rfl 0 rfl
  have spilled := put.frame ⟨"mode", 1, 2, false⟩ (.head _) 1 (by decide) (by decide)
  obtain rfl : _ = result := Option.some.inj written
  revert spilled
  decide

end Layouts

end Lucis.BitFieldWrite
