import Lucis.IntOps

/-!
Compound assignment in IRBuilder/IRGen_stmt, which has the operators once more in the visitor of
each form of an lvalue, and the same with the binary operator. The lvalue is evaluated to the same
place in both, so what is stored is a function of what it holds and of the right-hand side.
-/

namespace Lucis.CompoundAssign

open IntInstr IntOps

section Statements

/-- The forms with a visitor of their own; a field may be one of a pointee, by `.` or by `->`. -/
inductive LValue where
  | variable
  | field
  | fieldOfPointer
  | arrow
  | arrowAny
  | deref
  deriving DecidableEq

variable {w : Nat}

/-- The switch that four of the visitors have: the divisions are signed whatever the type is. -/
def switchAssign (op : BinaryOp) (isSigned : Bool) (cur rhs : BitVec w) : Outcome w :=
  match op with
  | .addSub .plus => .value (cur + rhs)
  | .addSub .minus => .value (cur - rhs)
  | .mul .star => .value (cur * rhs)
  | .mul .slash => emitDivByZeroGuard rhs (.ofInstr (sdiv cur rhs))
  | .mul .percent => emitDivByZeroGuard rhs (.ofInstr (srem cur rhs))
  | .bitAnd => .value (cur &&& rhs)
  | .bitOr => .value (cur ||| rhs)
  | .bitXor => .value (cur ^^^ rhs)
  | .lshift => .ofInstr (shl cur rhs)
  | .rshift => .ofInstr (if isSigned then ashr cur rhs else lshr cur rhs)

def castRhs (ty : IntegerType) (rhs : Value) : BitVec ty.width :=
  IntInstr.cast ty.isSigned ty.width rhs.bits

def visitCompoundAssignStmt (op : BinaryOp) (ty : IntegerType) (cur : BitVec ty.width)
    (rhs : Value) : Outcome ty.width :=
  switchAssign op ty.isSigned cur (castRhs ty rhs)

def visitFieldCompoundAssignStmt (op : BinaryOp) (ty : IntegerType) (cur : BitVec ty.width)
    (rhs : Value) : Outcome ty.width :=
  switchAssign op ty.isSigned cur (castRhs ty rhs)

def visitDerefCompoundAssignStmt (op : BinaryOp) (ty : IntegerType) (cur : BitVec ty.width)
    (rhs : Value) : Outcome ty.width :=
  switchAssign op ty.isSigned cur (castRhs ty rhs)

/-- Here the divisions go by the type, and `->` with an index or a longer path has no guard. -/
def switchArrow (guarded : Bool) (op : BinaryOp) (isSigned : Bool) (cur rhs : BitVec w) :
    Outcome w :=
  let guard (outcome : Outcome w) := if guarded then emitDivByZeroGuard rhs outcome else outcome
  match op with
  | .addSub .plus => .value (cur + rhs)
  | .addSub .minus => .value (cur - rhs)
  | .mul .star => .value (cur * rhs)
  | .mul .slash => guard (.ofInstr (if isSigned then sdiv cur rhs else udiv cur rhs))
  | .mul .percent => guard (.ofInstr (if isSigned then srem cur rhs else urem cur rhs))
  | .bitAnd => .value (cur &&& rhs)
  | .bitOr => .value (cur ||| rhs)
  | .bitXor => .value (cur ^^^ rhs)
  | .lshift => .ofInstr (shl cur rhs)
  | .rshift => .ofInstr (if isSigned then ashr cur rhs else lshr cur rhs)

def visitArrowCompoundAssignStmt (op : BinaryOp) (ty : IntegerType) (cur : BitVec ty.width)
    (rhs : Value) : Outcome ty.width :=
  switchArrow true op ty.isSigned cur (castRhs ty rhs)

def visitArrowAnyCompoundAssignStmt (op : BinaryOp) (ty : IntegerType) (cur : BitVec ty.width)
    (rhs : Value) : Outcome ty.width :=
  switchArrow false op ty.isSigned cur (castRhs ty rhs)

/-- What `x op= e` leaves in the lvalue. -/
def compoundAssign (form : LValue) (op : BinaryOp) (ty : IntegerType) (cur : BitVec ty.width)
    (rhs : Value) : Outcome ty.width :=
  match form with
  | .variable => visitCompoundAssignStmt op ty cur rhs
  | .field => visitFieldCompoundAssignStmt op ty cur rhs
  | .fieldOfPointer => visitFieldCompoundAssignStmt op ty cur rhs
  | .arrow => visitArrowCompoundAssignStmt op ty cur rhs
  | .arrowAny => visitArrowAnyCompoundAssignStmt op ty cur rhs
  | .deref => visitDerefCompoundAssignStmt op ty cur rhs

/-- The sign that the conversion in `x = e` takes: of the type of `e` for a variable, where it is
known, and else of the target. -/
def assignSigned (form : LValue) (ty : IntegerType) (exprSigned : Bool) : Bool :=
  match form with
  | .variable => exprSigned
  | _ => ty.isSigned

/-- What `x = x op e` leaves in the lvalue; `x` on the right is a load. -/
def binaryAssign (form : LValue) (op : BinaryOp) (ty : IntegerType) (exprSigned : Bool)
    (cur : BitVec ty.width) (rhs : Value) : Outcome ty.width :=
  (visitBinaryExpr op ty.isSigned ⟨ty.width, cur, false⟩ rhs).map
    (IntInstr.cast (assignSigned form ty exprSigned) ty.width)

def Same (form : LValue) (op : BinaryOp) (ty : IntegerType) (rhs : Value) : Prop :=
  ∀ (cur : BitVec ty.width) (exprSigned : Bool),
    compoundAssign form op ty cur rhs = binaryAssign form op ty exprSigned cur rhs

end Statements

section Promotion

variable {form : LValue} {op : BinaryOp} {ty : IntegerType} {exprSigned : Bool}
  {cur : BitVec ty.width} {v : Nat} {rhs : BitVec v} {isConstant : Bool}

/-- The right-hand side is a constant of a wider type, and is given the type of the lvalue. -/
def truncates (ty : IntegerType) (rhs : Value) : Bool :=
  ty.width < rhs.width && canTruncate rhs ty.width

theorem not_truncates_narrow (narrow : v ≤ ty.width) :
    truncates ty ⟨v, rhs, isConstant⟩ = false := by
  simp [truncates, Nat.not_lt.2 narrow]

theorem intMin_unfit (wide : ty.width < v) :
    canTruncate ⟨v, BitVec.intMin v, isConstant⟩ ty.width = false := by
  have number : (BitVec.intMin v).toNat = 2 ^ (v - 1) := toNat_intMin (by omega)
  have large : 2 ^ ty.width ≤ 2 ^ (v - 1) := Nat.pow_le_pow_right (by omega) (by omega)
  simp [canTruncate, isIntN, number, Nat.not_lt.2 large]

theorem not_truncates_intMin (wide : ty.width < v) :
    truncates ty ⟨v, BitVec.intMin v, isConstant⟩ = false := by
  simp [truncates, intMin_unfit wide]

/-- What is stored of `x op e` where the operands are brought to one type. -/
def stored (form : LValue) (op : BinaryOp) (ty : IntegerType) (exprSigned : Bool) (o : Operands) :
    Outcome ty.width :=
  (visitOperands op ty.isSigned o).map
    (IntInstr.cast (assignSigned form ty exprSigned) ty.width)

theorem binaryAssign_stored (rhs : Value) : binaryAssign form op ty exprSigned cur rhs =
      stored form op ty exprSigned (promoteArithmetic ⟨ty.width, cur, false⟩ rhs) := rfl

theorem map_cast_same (isSigned : Bool) (outcome : Outcome ty.width) :
    outcome.map (IntInstr.cast isSigned ty.width) = outcome := by
  cases outcome <;> simp [Outcome.map]

theorem stored_same (lhs r : BitVec ty.width) : stored form op ty exprSigned ⟨ty.width, lhs, r⟩ =
      visitOperands op ty.isSigned ⟨ty.width, lhs, r⟩ :=
  map_cast_same _ _

theorem binaryAssign_narrow (narrow : v ≤ ty.width) :
    binaryAssign form op ty exprSigned cur ⟨v, rhs, isConstant⟩ =
      visitOperands op ty.isSigned ⟨ty.width, cur, rhs.signExtend ty.width⟩ := by
  rw [binaryAssign_stored, ← stored_same]
  congr 1
  by_cases same : ty.width = v
  · subst same
    simp [promoteArithmetic]
  · have wider : ty.width > v := by omega
    simp [promoteArithmetic, same, wider, canTruncate]

theorem binaryAssign_wide (wide : ty.width < v)
    (unfit : canTruncate ⟨v, rhs, isConstant⟩ ty.width = false) :
    binaryAssign form op ty exprSigned cur ⟨v, rhs, isConstant⟩ =
      stored form op ty exprSigned ⟨v, cur.signExtend v, rhs⟩ := by
  have apart : ty.width ≠ v := by omega
  have not_wider : ¬ty.width > v := by omega
  rw [binaryAssign_stored]
  congr 1
  simp [promoteArithmetic, apart, not_wider, unfit]

theorem binaryAssign_constant (wide : ty.width < v)
    (fits : canTruncate ⟨v, rhs, isConstant⟩ ty.width = true) :
    binaryAssign form op ty exprSigned cur ⟨v, rhs, isConstant⟩ =
      visitOperands op ty.isSigned ⟨ty.width, cur, rhs.setWidth ty.width⟩ := by
  have apart : ty.width ≠ v := by omega
  have not_wider : ¬ty.width > v := by omega
  rw [binaryAssign_stored, ← stored_same]
  congr 1
  simp [promoteArithmetic, apart, not_wider, fits, cast_of_le true rhs (by omega : ty.width ≤ v)]

theorem castRhs_signed (signed : ty.isSigned = true) :
    castRhs ty ⟨v, rhs, isConstant⟩ = rhs.signExtend ty.width := by
  simp [castRhs, IntInstr.cast, signed]

theorem castRhs_unsigned (unsigned : ty.isSigned = false) :
    castRhs ty ⟨v, rhs, isConstant⟩ = rhs.setWidth ty.width := by
  simp [castRhs, IntInstr.cast, unsigned]

theorem castRhs_wide (wide : ty.width ≤ v) :
    castRhs ty ⟨v, rhs, isConstant⟩ = rhs.setWidth ty.width :=
  cast_of_le _ _ wide

theorem castRhs_intMin (wide : ty.width < v) : castRhs ty ⟨v, BitVec.intMin v, isConstant⟩ = 0 := by
  apply BitVec.eq_of_toNat_eq
  rw [castRhs_wide (by omega), BitVec.toNat_setWidth, toNat_intMin (by omega)]
  exact (Nat.mod_eq_zero_of_dvd (Nat.pow_dvd_pow 2 (by omega))).trans (by simp)

end Promotion

section Modular

variable {w v : Nat}

def isModular : BinaryOp → Bool
  | .addSub _ => true
  | .mul .star => true
  | .bitAnd => true
  | .bitXor => true
  | .bitOr => true
  | _ => false

def modular (op : BinaryOp) (x y : BitVec w) : BitVec w :=
  match op with
  | .addSub .plus => x + y
  | .addSub .minus => x - y
  | .mul _ => x * y
  | .bitAnd => x &&& y
  | .bitXor => x ^^^ y
  | _ => x ||| y

variable (op : BinaryOp)

theorem setWidth_modular (x y : BitVec w) (fits : v ≤ w) :
    (modular op x y).setWidth v = modular op (x.setWidth v) (y.setWidth v) := by
  cases op with
  | mul op => exact BitVec.setWidth_mul x y fits
  | addSub op =>
    cases op with
    | plus => exact BitVec.setWidth_add x y fits
    | minus => exact setWidth_sub x y fits
  | lshift => exact BitVec.setWidth_or
  | rshift => exact BitVec.setWidth_or
  | bitAnd => exact BitVec.setWidth_and
  | bitXor => exact BitVec.setWidth_xor
  | bitOr => exact BitVec.setWidth_or

theorem modular_injective :
    ∃ x : BitVec w, ∀ y z, modular op x y = modular op x z → y = z := by
  cases op with
  | mul op => exact ⟨1, fun y z same => by simpa [modular] using same⟩
  | addSub op => cases op <;> exact ⟨0, fun y z same => by simpa [modular] using same⟩
  | bitAnd => exact ⟨BitVec.allOnes w, fun y z same => by simpa [modular] using same⟩
  | _ => exact ⟨0, fun y z same => by simpa [modular] using same⟩

variable {form : LValue} {op : BinaryOp} {ty : IntegerType} {exprSigned : Bool}

variable (is_modular : isModular op = true)
include is_modular

variable (cur : BitVec ty.width)

theorem compoundAssign_modular (rhs : Value) :
    compoundAssign form op ty cur rhs = .value (modular op cur (castRhs ty rhs)) := by
  cases form <;> cases op with
  | mul op => cases op <;> first | rfl | cases is_modular
  | addSub op => cases op <;> rfl
  | lshift => cases is_modular
  | rshift => cases is_modular
  | _ => rfl

theorem visitOperands_modular (isSigned : Bool) (o : Operands) :
    visitOperands op isSigned o = .value (modular op o.lhs o.rhs) := by
  cases op with
  | mul op => cases op <;> first | rfl | cases is_modular
  | addSub op => cases op <;> rfl
  | lshift => cases is_modular
  | rshift => cases is_modular
  | _ => rfl

theorem stored_modular (l r : BitVec v) (fits : ty.width ≤ v) :
    stored form op ty exprSigned ⟨v, l, r⟩ =
      .value (modular op (l.setWidth ty.width) (r.setWidth ty.width)) := by
  rw [stored, visitOperands_modular is_modular]
  exact congrArg Outcome.value ((cast_of_le _ _ fits).trans (setWidth_modular op l r fits))

theorem agree_modular_wide (rhs : BitVec v) (isConstant : Bool) (wide : ty.width < v) :
    compoundAssign form op ty cur ⟨v, rhs, isConstant⟩ =
      binaryAssign form op ty exprSigned cur ⟨v, rhs, isConstant⟩ := by
  rw [compoundAssign_modular is_modular, castRhs_wide (by omega)]
  cases fits : canTruncate ⟨v, rhs, isConstant⟩ ty.width with
  | true => rw [binaryAssign_constant wide fits, visitOperands_modular is_modular]
  | false =>
    rw [binaryAssign_wide wide fits, stored_modular is_modular _ _ (by omega),
      setWidth_signExtend cur (by omega), BitVec.signExtend_eq]

theorem agree_modular_iff (isConstant : Bool)
    (positive : 0 < v) : (∀ (rhs : BitVec v), truncates ty ⟨v, rhs, isConstant⟩ = false →
      Same form op ty ⟨v, rhs, isConstant⟩) ↔ ty.isSigned = true ∨ ty.width ≤ v := by
  constructor
  · intro agrees
    by_contra other
    obtain ⟨unsigned, _⟩ := not_or.1 other
    have unsigned : ty.isSigned = false := by simpa using unsigned
    obtain ⟨cur, injective⟩ := modular_injective (w := ty.width) op
    have same := agrees (BitVec.allOnes v) (not_truncates_narrow (by omega)) cur false
    rw [compoundAssign_modular is_modular, castRhs_unsigned unsigned,
      binaryAssign_narrow (by omega), visitOperands_modular is_modular,
      signExtend_allOnes positive] at same
    exact setWidth_allOnes_ne (by omega) (injective _ _ (Outcome.value.inj same))
  · rintro meets rhs _ cur exprSigned
    by_cases wide : ty.width < v
    · exact agree_modular_wide is_modular cur rhs isConstant wide
    · rw [compoundAssign_modular is_modular, binaryAssign_narrow (by omega),
        visitOperands_modular is_modular]
      rcases meets with signed | equal
      · rw [castRhs_signed signed]
      · obtain rfl : v = ty.width := by omega
        rw [castRhs_wide (le_rfl)]
        simp

end Modular

section Shifts

variable {form : LValue} {op : BinaryOp} {ty : IntegerType} {exprSigned : Bool} {v : Nat}

def isShift : BinaryOp → Bool
  | .lshift => true
  | .rshift => true
  | _ => false

def shift {w : Nat} (op : BinaryOp) (isSigned : Bool) (x : BitVec w) (amount : Nat) : BitVec w :=
  match op with
  | .lshift => x <<< amount
  | _ => if isSigned then x.sshiftRight amount else x >>> amount

variable (is_shift : isShift op = true)
include is_shift

theorem visitOperands_shift (isSigned : Bool) {w : Nat}
    (l r : BitVec w) : visitOperands op isSigned ⟨w, l, r⟩ =
      if r.toNat < w then .value (shift op isSigned l r.toNat) else .undefined := by
  cases op with
  | lshift => by_cases inside : r.toNat < w <;>
      simp [visitOperands, visitLshiftExpr, shl, shift, inside, Outcome.ofInstr]
  | rshift => by_cases inside : r.toNat < w <;> cases isSigned <;>
      simp [visitOperands, visitRshiftExpr, ashr, lshr, shift, inside, Outcome.ofInstr]
  | _ => cases is_shift

theorem compoundAssign_shift (cur : BitVec ty.width) (rhs : Value) :
    compoundAssign form op ty cur rhs =
      visitOperands op ty.isSigned ⟨ty.width, cur, castRhs ty rhs⟩ := by
  cases form <;> cases op with
  | lshift => rfl
  | rshift => rfl
  | _ => cases is_shift

variable (isConstant : Bool)

theorem agree_shift_narrow (narrow : v ≤ ty.width) (cur : BitVec ty.width) (rhs : BitVec v)
    (same : castRhs ty ⟨v, rhs, isConstant⟩ = rhs.signExtend ty.width ∨
      ty.width ≤ (castRhs ty ⟨v, rhs, isConstant⟩).toNat ∧
        ty.width ≤ (rhs.signExtend ty.width).toNat) :
    compoundAssign form op ty cur ⟨v, rhs, isConstant⟩ =
      binaryAssign form op ty exprSigned cur ⟨v, rhs, isConstant⟩ := by
  rw [compoundAssign_shift is_shift, binaryAssign_narrow narrow]
  rcases same with same | ⟨beyond, beyond'⟩
  · rw [same]
  · rw [visitOperands_shift is_shift, visitOperands_shift is_shift, if_neg (by omega),
      if_neg (by omega)]

theorem disagree_shift_wide (wide : ty.width < v) (cur : BitVec ty.width) :
    compoundAssign form op ty cur ⟨v, BitVec.intMin v, isConstant⟩ ≠
      binaryAssign form op ty exprSigned cur ⟨v, BitVec.intMin v, isConstant⟩ := by
  have amount : (BitVec.intMin v).toNat = 2 ^ (v - 1) := toNat_intMin (by omega)
  have beyond : v - 1 < 2 ^ (v - 1) := Nat.lt_two_pow_self
  have low : (0 : BitVec ty.width).toNat < ty.width := by simpa using ty.positive
  rw [compoundAssign_shift is_shift, binaryAssign_wide wide (intMin_unfit wide), stored,
    castRhs_intMin wide, visitOperands_shift is_shift, visitOperands_shift is_shift, if_pos low,
    if_neg (by rw [amount]; omega)]
  exact nofun

theorem agree_shift_iff (positive : 0 < v) :
    (∀ (rhs : BitVec v), truncates ty ⟨v, rhs, isConstant⟩ = false →
      Same form op ty ⟨v, rhs, isConstant⟩) ↔
      v = ty.width ∨ v < ty.width ∧ (ty.isSigned = true ∨ ty.width ≤ 2 ^ (v - 1)) := by
  constructor
  · intro agrees
    by_cases wide : ty.width < v
    · exact absurd (agrees _ (not_truncates_intMin wide) 0 false)
        (disagree_shift_wide is_shift isConstant wide 0)
    · by_contra other
      have narrow : v < ty.width := by omega
      have unsigned : ty.isSigned = false := by
        by_contra signed
        exact other (.inr ⟨narrow, .inl (by simpa using signed)⟩)
      have small : 2 ^ (v - 1) < ty.width := by
        by_contra large
        exact other (.inr ⟨narrow, .inr (by omega)⟩)
      have amount : (BitVec.intMin v).toNat = 2 ^ (v - 1) := toNat_intMin positive
      have top : (BitVec.intMin v).msb = true := by
        simp [BitVec.msb_eq_decide, amount]
      have beyond := le_signExtend_of_msb top (le_of_lt narrow)
      have below : 2 ^ v ≤ 2 ^ ty.width := Nat.pow_le_pow_right (by omega) (by omega)
      have kept : ((BitVec.intMin v).setWidth ty.width).toNat = 2 ^ (v - 1) := by
        have := (BitVec.intMin v).isLt
        rw [BitVec.toNat_setWidth, Nat.mod_eq_of_lt (by omega), amount]
      have same := agrees (BitVec.intMin v) (not_truncates_narrow (by omega)) 0 false
      rw [compoundAssign_shift is_shift, binaryAssign_narrow (by omega),
        castRhs_unsigned unsigned, visitOperands_shift is_shift, visitOperands_shift is_shift,
        if_pos (by rw [kept]; exact small), if_neg (Nat.not_lt.2 beyond)] at same
      exact absurd same nofun
  · rintro meets rhs _ cur exprSigned
    rcases meets with rfl | ⟨narrow, signed | large⟩
    · apply agree_shift_narrow is_shift isConstant (le_rfl)
      rw [castRhs_wide (le_rfl)]
      simp
    · exact agree_shift_narrow is_shift isConstant (le_of_lt narrow) cur rhs
        (.inl (castRhs_signed signed))
    · apply agree_shift_narrow is_shift isConstant (le_of_lt narrow)
      cases top : rhs.msb with
      | false =>
        have plain := BitVec.signExtend_eq_setWidth_of_msb_false (v := ty.width) top
        cases signed : ty.isSigned with
        | true => exact .inl (castRhs_signed signed)
        | false => exact .inl ((castRhs_unsigned signed).trans plain.symm)
      | true =>
        cases signed : ty.isSigned with
        | true => exact .inl (castRhs_signed signed)
        | false =>
          have half : 2 ^ (v - 1) ≤ rhs.toNat := BitVec.le_toNat_of_msb_true top
          have below : 2 ^ v ≤ 2 ^ ty.width := Nat.pow_le_pow_right (by omega) (by omega)
          have _ := rhs.isLt
          refine .inr ⟨?_, le_signExtend_of_msb top (le_of_lt narrow)⟩
          rw [castRhs_unsigned signed, BitVec.toNat_setWidth, Nat.mod_eq_of_lt (by omega)]
          omega

end Shifts

section Divisions

variable {form : LValue} {op : BinaryOp} {ty : IntegerType} {exprSigned : Bool} {v : Nat}

def isDivision : BinaryOp → Bool
  | .mul .slash => true
  | .mul .percent => true
  | _ => false

def divide {w : Nat} (op : BinaryOp) (isSigned : Bool) (x y : BitVec w) : Option (BitVec w) :=
  match op with
  | .mul .slash => if isSigned then sdiv x y else udiv x y
  | _ => if isSigned then srem x y else urem x y

variable {w : Nat}

theorem divide_zero (op : BinaryOp) (isSigned : Bool) (x : BitVec w) :
    divide op isSigned x 0 = none := by
  have none_of_zero : udiv x 0 = none ∧ sdiv x 0 = none ∧ urem x 0 = none ∧ srem x 0 = none :=
    ⟨if_pos rfl, if_pos (.inl rfl), if_pos rfl, if_pos (.inl rfl)⟩
  obtain ⟨_, _, _, remainder'⟩ := none_of_zero
  rw [divide.eq_def]
  cases isSigned <;> split <;> assumption

theorem divide_zero_left (op : BinaryOp) (isSigned : Bool) {y : BitVec w}
    (nonzero : y ≠ 0) : ∃ result, divide op isSigned 0 y = some result := by
  have least : w = 0 ∨ (0 : BitVec w) ≠ BitVec.intMin w := by
    rcases Nat.eq_zero_or_pos w with empty | positive
    · exact .inl empty
    · exact .inr (intMin_ne_zero positive).symm
  have defined : ¬(y = 0 ∨ Overflows 0 y) := by
    rintro (zero | overflows)
    · exact nonzero zero
    · rcases least with rfl | other
      · exact nonzero BitVec.of_length_zero
      · exact other overflows.1
  rw [divide.eq_def]
  cases isSigned <;> split <;>
    simp only [udiv, urem, sdiv, srem, if_neg nonzero, if_neg defined, Bool.false_eq_true, if_false,
      if_true] <;> exact ⟨_, rfl⟩

/-- The signed division is chosen by the type only where `->` is in the lvalue. -/
def divSigned (form : LValue) (ty : IntegerType) : Bool :=
  match form with
  | .arrow => ty.isSigned
  | .arrowAny => ty.isSigned
  | _ => true

variable (is_division : isDivision op = true)
include is_division

theorem visitOperands_division (isSigned : Bool) (l r : BitVec w) :
    visitOperands op isSigned ⟨w, l, r⟩ =
      emitDivByZeroGuard r (.ofInstr (divide op isSigned l r)) := by
  cases op with
  | mul op => cases op <;> first | rfl | cases is_division
  | _ => cases is_division

theorem compoundAssign_division (guarded : form ≠ .arrowAny) (cur : BitVec ty.width) (rhs : Value) :
    compoundAssign form op ty cur rhs = emitDivByZeroGuard (castRhs ty rhs)
        (.ofInstr (divide op (divSigned form ty) cur (castRhs ty rhs))) := by
  cases op with
  | mul op =>
    cases op with
    | star => cases is_division
    | _ => cases form <;> first | rfl | exact absurd rfl guarded
  | _ => cases is_division

variable (cur : BitVec ty.width)

theorem compoundAssign_unguarded (rhs : Value) :
    compoundAssign .arrowAny op ty cur rhs =
      .ofInstr (divide op ty.isSigned cur (castRhs ty rhs)) := by
  cases op with
  | mul op => cases op <;> first | rfl | cases is_division
  | _ => cases is_division

variable (isConstant : Bool)

theorem binaryAssign_zero :
    binaryAssign form op ty exprSigned cur ⟨v, 0, isConstant⟩ = .thrown := by
  have thrown : ∀ {w : Nat} (l : BitVec w), visitOperands op ty.isSigned ⟨w, l, 0⟩ = .thrown := by
    intro w l
    rw [visitOperands_division is_division]
    exact if_pos rfl
  by_cases wide : ty.width < v
  · cases fits : canTruncate ⟨v, 0, isConstant⟩ ty.width with
    | true =>
      have zero : (0 : BitVec v).setWidth ty.width = 0 := cast_zero false
      rw [binaryAssign_constant wide fits, zero, thrown]
    | false => rw [binaryAssign_wide wide fits, stored, thrown, Outcome.map]
  · have zero : (0 : BitVec v).signExtend ty.width = 0 := cast_zero true
    rw [binaryAssign_narrow (by omega), zero, thrown]

theorem disagree_unguarded :
    ∃ rhs : BitVec v, truncates ty ⟨v, rhs, isConstant⟩ = false ∧
      compoundAssign .arrowAny op ty 0 ⟨v, rhs, isConstant⟩ ≠
        binaryAssign .arrowAny op ty exprSigned 0 ⟨v, rhs, isConstant⟩ := by
  by_cases wide : ty.width < v
  · refine ⟨BitVec.intMin v, not_truncates_intMin wide, ?_⟩
    have nonzero := intMin_ne_zero (by omega : 0 < v)
    obtain ⟨result, defined⟩ := divide_zero_left op ty.isSigned nonzero
    have zero : (0 : BitVec ty.width).signExtend v = 0 := cast_zero true
    rw [compoundAssign_unguarded is_division, castRhs_intMin wide, divide_zero,
      binaryAssign_wide wide (intMin_unfit wide), stored, visitOperands_division is_division, zero,
      emitDivByZeroGuard, if_neg nonzero, defined]
    exact nofun
  · refine ⟨0, not_truncates_narrow (by omega), ?_⟩
    have zero : castRhs ty ⟨v, 0, isConstant⟩ = 0 := cast_zero ty.isSigned
    rw [compoundAssign_unguarded is_division, binaryAssign_zero is_division, zero, divide_zero]
    exact nofun

theorem disagree_division_wide (guarded : form ≠ .arrowAny)
    (isConstant : Bool) (wide : ty.width < v) (cur : BitVec ty.width) :
    compoundAssign form op ty cur ⟨v, BitVec.intMin v, isConstant⟩ ≠
      binaryAssign form op ty exprSigned cur ⟨v, BitVec.intMin v, isConstant⟩ := by
  rw [compoundAssign_division is_division guarded, binaryAssign_wide wide (intMin_unfit wide),
    stored, visitOperands_division is_division, castRhs_intMin wide, emitDivByZeroGuard, if_pos rfl,
    emitDivByZeroGuard, if_neg (intMin_ne_zero (by omega))]
  cases divide op ty.isSigned (cur.signExtend v) (BitVec.intMin v) <;> exact nofun

/-- The greatest divisor of a narrower type, and the same number: the quotient is 1 with the zeros
of the compound form, and 0 with the ones of the binary form. -/
theorem disagree_division_narrow (guarded : form ≠ .arrowAny)
    (isConstant : Bool) (unsigned : ty.isSigned = false) (narrow : v < ty.width)
    (positive : 0 < v) : compoundAssign form op ty ((BitVec.allOnes v).setWidth ty.width)
        ⟨v, BitVec.allOnes v, isConstant⟩ ≠
      binaryAssign form op ty exprSigned ((BitVec.allOnes v).setWidth ty.width)
        ⟨v, BitVec.allOnes v, isConstant⟩ := by
  generalize number : (BitVec.allOnes v).setWidth ty.width = x
  have small : x ≠ BitVec.allOnes ty.width := number ▸ setWidth_allOnes_ne narrow
  have nonzero : x ≠ 0 := by
    intro zero
    have bit := congrArg (fun y => y.getLsbD 0) (number.trans zero)
    simp [positive, ty.positive] at bit
  obtain ⟨udiv_self, sdiv_self, urem_self, srem_self⟩ := divisions_self nonzero small
  obtain ⟨udiv_ones, urem_ones⟩ := divisions_allOnes small
  rw [compoundAssign_division is_division guarded, castRhs_unsigned unsigned, number,
    binaryAssign_narrow (by omega), signExtend_allOnes positive,
    visitOperands_division is_division, unsigned, emitDivByZeroGuard, if_neg nonzero,
    emitDivByZeroGuard, if_neg (allOnes_ne_zero ty.positive)]
  cases op with
  | mul op =>
    cases op with
    | star => cases is_division
    | slash =>
      have compound : divide (.mul .slash) (divSigned form ty) x x = some 1 := by
        cases divSigned form ty <;> assumption
      have binary : divide (.mul .slash) false x (BitVec.allOnes ty.width) = some 0 := udiv_ones
      rw [compound, binary]
      exact fun same => one_ne_zero ty.positive (Outcome.value.inj same)
    | percent =>
      have compound : divide (.mul .percent) (divSigned form ty) x x = some 0 := by
        cases divSigned form ty <;> assumption
      have binary : divide (.mul .percent) false x (BitVec.allOnes ty.width) = some x := urem_ones
      rw [compound, binary]
      exact fun same => nonzero (Outcome.value.inj same).symm
  | _ => cases is_division

theorem disagree_division_same (guarded : form ≠ .arrowAny)
    (always : form ≠ .arrow) (isConstant : Bool) (unsigned : ty.isSigned = false) :
    compoundAssign form op ty (BitVec.intMin ty.width)
        ⟨ty.width, BitVec.allOnes ty.width, isConstant⟩ ≠
      binaryAssign form op ty exprSigned (BitVec.intMin ty.width)
        ⟨ty.width, BitVec.allOnes ty.width, isConstant⟩ := by
  have signed : divSigned form ty = true := by cases form <;> first | rfl | contradiction
  have ones := allOnes_ne_zero ty.positive
  obtain ⟨quotient, remainder, quotient', remainder'⟩ := divisions_overflow ty.positive
  rw [compoundAssign_division is_division guarded, castRhs_wide (le_rfl),
    binaryAssign_narrow (le_rfl), visitOperands_division is_division, signed, unsigned,
    BitVec.setWidth_eq, BitVec.signExtend_eq, emitDivByZeroGuard, if_neg ones, emitDivByZeroGuard,
    if_neg ones]
  have apart : ∀ {found : Option (BitVec ty.width)}, found ≠ none →
      Outcome.ofInstr none ≠ Outcome.ofInstr found := by
    intro found defined
    cases found with
    | none => exact absurd rfl defined
    | some bits => exact nofun
  cases op with
  | mul op =>
    cases op with
    | star => cases is_division
    | slash =>
      have compound : divide (.mul .slash) true (BitVec.intMin ty.width) _ = none := quotient
      rw [compound]
      exact apart quotient'
    | percent =>
      have compound : divide (.mul .percent) true (BitVec.intMin ty.width) _ = none := remainder
      rw [compound]
      exact apart remainder'
  | _ => cases is_division

theorem agree_division_iff (positive : 0 < v) :
    (∀ (rhs : BitVec v), truncates ty ⟨v, rhs, isConstant⟩ = false →
      Same form op ty ⟨v, rhs, isConstant⟩) ↔ form ≠ .arrowAny ∧
        (ty.isSigned = true ∧ v ≤ ty.width ∨ form = .arrow ∧ v = ty.width) := by
  constructor
  · intro agrees
    have guarded : form ≠ .arrowAny := by
      rintro rfl
      obtain ⟨rhs, kept, differ⟩ : ∃ rhs : BitVec v, _ ∧ _ :=
        disagree_unguarded is_division isConstant
      exact differ (agrees rhs kept 0 false)
    refine ⟨guarded, ?_⟩
    have narrow : ¬ty.width < v := fun wide =>
      disagree_division_wide is_division guarded isConstant wide 0
        (agrees _ (not_truncates_intMin wide) 0 false)
    cases unsigned : ty.isSigned with
    | true => exact .inl ⟨rfl, by omega⟩
    | false =>
      right
      have same : v = ty.width := by
        by_contra other
        exact disagree_division_narrow is_division guarded isConstant unsigned (by omega) positive
          (agrees _ (not_truncates_narrow (by omega)) _ false)
      subst same
      refine ⟨?_, rfl⟩
      by_contra always
      exact disagree_division_same is_division guarded always isConstant unsigned
        (agrees _ (not_truncates_narrow (le_rfl)) _ false)
  · rintro ⟨guarded, meets⟩ rhs _ cur exprSigned
    have narrow : v ≤ ty.width := by
      rcases meets with ⟨_, narrow⟩ | ⟨_, same⟩ <;> omega
    rw [compoundAssign_division is_division guarded, binaryAssign_narrow narrow,
      visitOperands_division is_division]
    rcases meets with ⟨signed, _⟩ | ⟨rfl, rfl⟩
    · have by_sign : divSigned form ty = true := by cases form <;> first | rfl | exact signed
      rw [castRhs_signed signed, by_sign, signed]
    · rw [castRhs_wide (le_rfl), BitVec.setWidth_eq, BitVec.signExtend_eq, divSigned]

end Divisions

section Main

variable {form : LValue} {op : BinaryOp}

/-- Where the two forms agree. With a right-hand side that is no narrower the operators on words do,
with one of the same type the shifts do too, and the divisions where they go by the sign. -/
def Agrees (form : LValue) (op : BinaryOp) (ty rhsTy : IntegerType) : Prop :=
  match op with
  | .mul .star | .addSub _ | .bitAnd | .bitXor | .bitOr =>
    ty.isSigned = true ∨ ty.width ≤ rhsTy.width
  | .lshift | .rshift =>
    rhsTy.width = ty.width ∨
      rhsTy.width < ty.width ∧ (ty.isSigned = true ∨ ty.width ≤ 2 ^ (rhsTy.width - 1))
  | .mul .slash | .mul .percent =>
    form ≠ .arrowAny ∧
      (ty.isSigned = true ∧ rhsTy.width ≤ ty.width ∨ form = .arrow ∧ rhsTy.width = ty.width)

theorem same_iff (form : LValue) (op : BinaryOp) (ty rhsTy : IntegerType) (isConstant : Bool) :
    (∀ (rhs : BitVec rhsTy.width), truncates ty ⟨rhsTy.width, rhs, isConstant⟩ = false →
      Same form op ty ⟨rhsTy.width, rhs, isConstant⟩) ↔ Agrees form op ty rhsTy := by
  cases op with
  | mul op =>
    cases op with
    | star => exact agree_modular_iff rfl isConstant rhsTy.positive
    | slash => exact agree_division_iff rfl isConstant rhsTy.positive
    | percent => exact agree_division_iff rfl isConstant rhsTy.positive
  | addSub op => exact agree_modular_iff rfl isConstant rhsTy.positive
  | lshift => exact agree_shift_iff rfl isConstant rhsTy.positive
  | rshift => exact agree_shift_iff rfl isConstant rhsTy.positive
  | bitAnd => exact agree_modular_iff rfl isConstant rhsTy.positive
  | bitXor => exact agree_modular_iff rfl isConstant rhsTy.positive
  | bitOr => exact agree_modular_iff rfl isConstant rhsTy.positive

theorem same_of_truncates {form : LValue} {op : BinaryOp} {ty} {v : Nat}
    {rhs : BitVec v} {isConstant : Bool} (truncated : truncates ty ⟨v, rhs, isConstant⟩ = true) :
    Same form op ty ⟨v, rhs, isConstant⟩ ↔
      Same form op ty ⟨ty.width, rhs.setWidth ty.width, isConstant⟩ := by
  obtain ⟨wide, fits⟩ : ty.width < v ∧ canTruncate ⟨v, rhs, isConstant⟩ ty.width = true := by
    simpa [truncates] using truncated
  have compound : ∀ cur, compoundAssign form op ty cur ⟨v, rhs, isConstant⟩ =
      compoundAssign form op ty cur ⟨ty.width, rhs.setWidth ty.width, isConstant⟩ := by
    intro cur
    have same : castRhs ty ⟨v, rhs, isConstant⟩ =
        castRhs ty ⟨ty.width, rhs.setWidth ty.width, isConstant⟩ := by
      rw [castRhs_wide (by omega), castRhs_wide (le_rfl), BitVec.setWidth_eq]
    cases form <;> simp only [compoundAssign, visitCompoundAssignStmt, visitFieldCompoundAssignStmt,
      visitArrowCompoundAssignStmt, visitArrowAnyCompoundAssignStmt, visitDerefCompoundAssignStmt,
      same]
  have binary : ∀ cur exprSigned, binaryAssign form op ty exprSigned cur ⟨v, rhs, isConstant⟩ =
      binaryAssign form op ty exprSigned cur
        ⟨ty.width, rhs.setWidth ty.width, isConstant⟩ := by
    intro cur exprSigned
    rw [binaryAssign_constant wide fits, binaryAssign_narrow (le_rfl), BitVec.signExtend_eq]
  exact forall_congr' fun cur => forall_congr' fun exprSigned => by rw [compound, binary]

/-- `x op= e` leaves what `x = x op e` leaves, for all values, just for these types and forms. A
constant that fits in the type of `x` has that type. -/
theorem compoundAssign_iff (form : LValue) (op : BinaryOp) (ty rhsTy : IntegerType)
    (isConstant : Bool) :
    ((∀ (rhs : BitVec rhsTy.width), truncates ty ⟨rhsTy.width, rhs, isConstant⟩ = false →
        Same form op ty ⟨rhsTy.width, rhs, isConstant⟩) ↔ Agrees form op ty rhsTy) ∧
      ((∀ (rhs : BitVec rhsTy.width), truncates ty ⟨rhsTy.width, rhs, isConstant⟩ = true →
          Same form op ty ⟨rhsTy.width, rhs, isConstant⟩) ↔
        (isConstant = true → ty.width < rhsTy.width → Agrees form op ty ty)) := by
  refine ⟨same_iff form op ty rhsTy isConstant, ?_, ?_⟩
  · intro agrees constant wide
    apply (same_iff form op ty ty isConstant).mp
    intro rhs _
    -- every word of the narrower type is a constant of the wider one that is truncated
    have fits : (rhs.setWidth rhsTy.width).toNat < 2 ^ ty.width := by
      have below : 2 ^ ty.width ≤ 2 ^ rhsTy.width := Nat.pow_le_pow_right (by omega) (by omega)
      have range := rhs.isLt
      rw [BitVec.toNat_setWidth, Nat.mod_eq_of_lt (by omega)]
      exact range
    have truncated : truncates ty ⟨rhsTy.width, rhs.setWidth rhsTy.width, isConstant⟩ = true := by
      simp only [truncates, canTruncate, isIntN, wide, constant, fits, decide_true, Bool.and_self]
    have same := (same_of_truncates truncated).mp (agrees _ truncated)
    rwa [BitVec.setWidth_setWidth_of_le rhs (by omega), BitVec.setWidth_eq] at same
  · intro meets rhs truncated
    obtain ⟨wide, constant, _⟩ : ty.width < rhsTy.width ∧ isConstant = true ∧ _ := by
      simpa [truncates, canTruncate] using truncated
    apply (same_of_truncates truncated).mpr
    exact (same_iff form op ty ty isConstant).mpr (meets constant wide) _
      (not_truncates_narrow (Nat.le_refl _))

/-- `uint32 x = 4000000000; x /= 2;` -/
theorem unsigned_division_differs :
    compoundAssign .variable (.mul .slash) ⟨32, false, by decide⟩ 4000000000#32 ⟨32, 2#32, true⟩ ≠
      binaryAssign .variable (.mul .slash) ⟨32, false, by decide⟩ false 4000000000#32
        ⟨32, 2#32, true⟩ := by
  decide +kernel

end Main

end Lucis.CompoundAssign
