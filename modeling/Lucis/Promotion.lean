import Lucis.IntOps

/-!
What `promoteArithmetic` leaves of the operands' numbers in IRBuilder/IRGen, and the sign with
which a value is extended where it is converted without a cast. The two operands have types of one
signedness, as the checker has them after its warning, or one is a literal without a suffix, whose
type is signed, beside an unsigned operand.
-/

namespace Lucis.Promotion

open IntInstr IntOps

section Comparisons

inductive RelOp where
  | lt
  | gt
  | lte
  | gte
  deriving DecidableEq

inductive EqOp where
  | eq
  | neq
  deriving DecidableEq

variable {w : Nat}

def icmp (useSignedIntCmp : Bool) (l r : BitVec w) : RelOp → Bool
  | .lt => if useSignedIntCmp then l.slt r else l.ult r
  | .gt => if useSignedIntCmp then r.slt l else r.ult l
  | .lte => if useSignedIntCmp then l.sle r else l.ule r
  | .gte => if useSignedIntCmp then r.sle l else r.ule l

/-- An `int1` is 0 or 1 here, whatever its type says. -/
def visitRelExpr (op : RelOp) (lhsSigned rhsSigned : Bool) (lhs rhs : Value) : Bool :=
  let o := promoteArithmetic lhs rhs
  icmp (if o.width = 1 then false else lhsSigned || rhsSigned) o.lhs o.rhs op

def visitEqExpr (op : EqOp) (lhs rhs : Value) : Bool :=
  let o := promoteArithmetic lhs rhs
  match op with
  | .eq => o.lhs == o.rhs
  | .neq => o.lhs != o.rhs

def RelOp.Holds (a b : Int) : RelOp → Prop
  | .lt => a < b
  | .gt => b < a
  | .lte => a ≤ b
  | .gte => b ≤ a

def EqOp.Holds (a b : Int) : EqOp → Prop
  | .eq => a = b
  | .neq => a ≠ b

instance (a b : Int) : (op : RelOp) → Decidable (op.Holds a b)
  | .lt => inferInstanceAs (Decidable (a < b))
  | .gt => inferInstanceAs (Decidable (b < a))
  | .lte => inferInstanceAs (Decidable (a ≤ b))
  | .gte => inferInstanceAs (Decidable (b ≤ a))

instance (a b : Int) : (op : EqOp) → Decidable (op.Holds a b)
  | .eq => inferInstanceAs (Decidable (a = b))
  | .neq => inferInstanceAs (Decidable (a ≠ b))

theorem icmp_number (isSigned : Bool) (l r : BitVec w) (op : RelOp) :
    icmp isSigned l r op = decide (op.Holds (number isSigned l) (number isSigned r)) := by
  rw [Bool.eq_iff_iff, decide_eq_true_iff]
  cases isSigned <;> cases op <;>
    simp [icmp, RelOp.Holds, number, BitVec.ult_iff_toNat_lt, BitVec.ule_iff_toNat_le,
      BitVec.slt_iff_toInt_lt, BitVec.sle_iff_toInt_le]

end Comparisons

section Pairs

structure Pair where
  isSigned : Bool
  lhs : Value
  rhs : Value
  positive : 0 < lhs.width ∧ 0 < rhs.width
  oneBit : isSigned = true → 1 < lhs.width ∧ 1 < rhs.width

namespace Pair

variable (p : Pair)

def left : Int := number p.isSigned p.lhs.bits

def right : Int := number p.isSigned p.rhs.bits

def widest : Nat := max p.lhs.width p.rhs.width

def wider : Value := if p.lhs.width > p.rhs.width then p.lhs else p.rhs

def narrower : Value := if p.lhs.width > p.rhs.width then p.rhs else p.lhs

/-- The operator gives `z`, modulo what the wider type holds. -/
def Produces (op : BinaryOp) (z : Int) : Prop :=
  ∃ bits, visitBinaryExpr op p.isSigned p.lhs p.rhs = .value bits ∧
    number p.isSigned bits ≡ z [ZMOD 2 ^ p.widest]

structure Preserved : Prop where
  rel : ∀ op, visitRelExpr op p.isSigned p.isSigned p.lhs p.rhs = decide (op.Holds p.left p.right)
  eq : ∀ op, visitEqExpr op p.lhs p.rhs = decide (op.Holds p.left p.right)
  plus : p.Produces (.addSub .plus) (p.left + p.right)
  minus : p.Produces (.addSub .minus) (p.left - p.right)
  star : p.Produces (.mul .star) (p.left * p.right)

/-- Modulo what the wider type holds, `z` is a number of the narrower type. -/
def Fits (z : Int) : Prop :=
  ∃ y, InRange p.isSigned p.narrower.width y ∧ y ≡ z [ZMOD 2 ^ p.widest]

/-- Where the wider operand is narrowed, no result may need its width; where the narrower one is
extended, the sign must be right. -/
def Promotable : Prop :=
  p.lhs.width = p.rhs.width ∨
    if canTruncate p.wider p.narrower.width then
      p.Fits (p.left + p.right) ∧ p.Fits (p.left - p.right) ∧ p.Fits (p.left * p.right)
    else p.isSigned = true ∨ p.narrower.bits.msb = false

/-! What the operators do is read off the operands that they are brought to. -/

variable {p : Pair} {o : Operands} {z : Int}

variable (promoted : promoteArithmetic p.lhs p.rhs = o)
include promoted

variable {bits : BitVec o.width} {op : BinaryOp}

theorem produces_iff (computed : visitOperands op p.isSigned o = .value bits) :
    p.Produces op z ↔ number p.isSigned bits ≡ z [ZMOD 2 ^ p.widest] := by
  subst promoted
  constructor
  · rintro ⟨found, emitted, produced⟩
    obtain rfl : found = bits := Outcome.value.inj (emitted.symm.trans computed)
    exact produced
  · exact fun produced => ⟨bits, computed, produced⟩

theorem preserved_of_numbers
    (left : number p.isSigned o.lhs = p.left) (right : number p.isSigned o.rhs = p.right)
    (wide : p.isSigned = true → o.width ≠ 1)
    (room : ∀ z ∈ [p.left + p.right, p.left - p.right, p.left * p.right], ∀ bits : BitVec o.width,
      number p.isSigned bits ≡ z [ZMOD 2 ^ o.width] →
      number p.isSigned bits ≡ z [ZMOD 2 ^ p.widest]) : p.Preserved := by
  constructor
  case rel =>
    intro op
    have useSigned : (if o.width = 1 then false else p.isSigned || p.isSigned) = p.isSigned := by
      cases sign : p.isSigned
      · simp
      · simp [wide sign]
    subst promoted
    rw [← left, ← right, ← icmp_number, visitRelExpr, useSigned]
  case eq =>
    intro op
    subst promoted
    rw [← left, ← right, Bool.eq_iff_iff, decide_eq_true_iff]
    cases op <;> simp [visitEqExpr, EqOp.Holds, number_inj]
  case plus =>
    refine (produces_iff promoted rfl).2 (room _ (by simp) _ ?_)
    rw [← left, ← right]
    exact number_add p.isSigned o.lhs o.rhs
  case minus =>
    refine (produces_iff promoted rfl).2 (room _ (by simp) _ ?_)
    rw [← left, ← right]
    exact number_sub p.isSigned o.lhs o.rhs
  case star =>
    refine (produces_iff promoted rfl).2 (room _ (by simp) _ ?_)
    rw [← left, ← right]
    exact number_mul p.isSigned o.lhs o.rhs

theorem fits_of_produces (narrow : o.width = p.narrower.width)
    (computed : visitOperands op p.isSigned o = .value bits) (produced : p.Produces op z) :
    p.Fits z :=
  ⟨number p.isSigned bits, narrow ▸ number_inRange p.isSigned bits,
    (produces_iff promoted computed).1 produced⟩

omit promoted in
theorem room_of_fits {w : Nat} (narrow : w = p.narrower.width) (positive : 0 < w)
    (narrower : w ≤ p.widest) (fits : p.Fits z) (bits : BitVec w)
    (computed : number p.isSigned bits ≡ z [ZMOD 2 ^ w]) :
    number p.isSigned bits ≡ z [ZMOD 2 ^ p.widest] := by
  obtain ⟨y, inside, same⟩ := fits
  rw [← narrow] at inside
  have divides : (2 : Int) ^ w ∣ 2 ^ p.widest := pow_dvd_pow 2 narrower
  have equal : number p.isSigned bits = y :=
    eq_of_inRange positive (number_inRange _ _) inside (computed.trans (same.of_dvd divides).symm)
  rwa [equal]

theorem preserved_wide (wide : o.width = p.widest)
    (left : number p.isSigned o.lhs = p.left) (right : number p.isSigned o.rhs = p.right)
    (several : p.isSigned = true → 1 < o.width) : p.Preserved := by
  refine preserved_of_numbers promoted left right (fun sign => (several sign).ne') ?_
  intro z _ bits computed
  rwa [← wide]

theorem preserved_narrow
    (narrow : o.width = p.narrower.width) (positive : 0 < o.width) (below : o.width ≤ p.widest)
    (several : p.isSigned = true → 1 < o.width)
    (numbers : p.Fits (p.left + p.right) → p.Fits (p.left - p.right) →
      number p.isSigned o.lhs = p.left ∧ number p.isSigned o.rhs = p.right) : p.Preserved ↔
      p.Fits (p.left + p.right) ∧ p.Fits (p.left - p.right) ∧ p.Fits (p.left * p.right) := by
  constructor
  · intro preserved
    exact ⟨fits_of_produces promoted narrow rfl preserved.plus,
      fits_of_produces promoted narrow rfl preserved.minus,
      fits_of_produces promoted narrow rfl preserved.star⟩
  · rintro ⟨sum, difference, product⟩
    obtain ⟨left, right⟩ := numbers sum difference
    refine preserved_of_numbers promoted left right (fun sign => (several sign).ne') ?_
    intro z asked
    simp only [List.mem_cons, List.not_mem_nil, or_false] at asked
    rcases asked with rfl | rfl | rfl
    · exact room_of_fits narrow positive below sum
    · exact room_of_fits narrow positive below difference
    · exact room_of_fits narrow positive below product

omit promoted

variable {constant : Value} {isSigned : Bool}

theorem number_truncated {n : Nat} (positive : 0 < n)
    (narrower : n < constant.width) (inside : InRange isSigned n (number isSigned constant.bits)) :
    number isSigned (IntInstr.cast true n constant.bits) = number isSigned constant.bits := by
  rw [cast_of_le true _ narrower.le]
  exact number_setWidth positive narrower.le inside

theorem constant_of_canTruncate {n : Nat}
    (narrower : n < constant.width) (fits : canTruncate constant n = true) :
    0 ≤ number isSigned constant.bits ∧ number isSigned constant.bits < 2 ^ n := by
  simp only [canTruncate, isIntN, Bool.and_eq_true, decide_eq_true_eq] at fits
  rw [number_of_lt fits.2 narrower]
  exact ⟨Int.natCast_nonneg _, by exact_mod_cast fits.2⟩

theorem preserved_same (same : p.lhs.width = p.rhs.width) : p.Preserved := by
  have promoted : promoteArithmetic p.lhs p.rhs =
      ⟨p.lhs.width, p.lhs.bits, p.rhs.bits.setWidth p.lhs.width⟩ := if_pos same
  have inside : InRange p.isSigned p.lhs.width p.right := by
    rw [same]
    exact number_inRange p.isSigned p.rhs.bits
  exact preserved_wide promoted (max_eq_left same.ge).symm rfl
    (number_setWidth p.positive.1 same.le inside) fun sign => (p.oneBit sign).1

section Left

variable (order : p.rhs.width < p.lhs.width)

include order

theorem widest_left : p.widest = p.lhs.width := max_eq_left order.le

theorem narrower_left : p.narrower = p.rhs := if_pos order

theorem truncated_left (fits : canTruncate p.lhs p.rhs.width = true) : p.Preserved ↔
      p.Fits (p.left + p.right) ∧ p.Fits (p.left - p.right) ∧ p.Fits (p.left * p.right) := by
  have promoted : promoteArithmetic p.lhs p.rhs =
      ⟨p.rhs.width, IntInstr.cast true p.rhs.width p.lhs.bits, p.rhs.bits⟩ := by
    rw [promoteArithmetic, if_neg order.ne', if_pos order, if_pos fits]
  refine preserved_narrow promoted (by rw [narrower_left order]) p.positive.2 (le_max_right _ _)
    (fun sign => (p.oneBit sign).2) ?_
  rintro ⟨x, sumIn, sum⟩ ⟨y, differenceIn, difference⟩
  rw [narrower_left order] at sumIn differenceIn
  rw [widest_left order] at sum difference
  rw [add_comm] at sum
  have inside : InRange p.isSigned p.rhs.width p.left :=
    inRange_of_sum_difference p.positive.2 order (number_inRange p.isSigned p.rhs.bits)
      (constant_of_canTruncate order fits) sumIn sum differenceIn (.inr difference)
  exact ⟨number_truncated p.positive.2 order inside, rfl⟩

theorem extended_left (kept : ¬canTruncate p.lhs p.rhs.width = true) :
    p.Preserved ↔ p.isSigned = true ∨ p.rhs.bits.msb = false := by
  have promoted : promoteArithmetic p.lhs p.rhs =
      ⟨p.lhs.width, p.lhs.bits, p.rhs.bits.signExtend p.lhs.width⟩ := by
    rw [promoteArithmetic, if_neg order.ne', if_pos order, if_neg kept]
  constructor
  · intro preserved
    by_contra wrong
    simp only [not_or, Bool.not_eq_true, Bool.not_eq_false] at wrong
    obtain ⟨unsigned, top⟩ := wrong
    have sum := (produces_iff promoted rfl).1 preserved.plus
    rw [left, right, unsigned, widest_left order] at sum
    exact sum_signExtend_ne order top p.lhs.bits sum
  · intro sign
    exact preserved_wide promoted (widest_left order).symm rfl (number_signExtend order.le sign)
      fun sign => (p.oneBit sign).1

end Left

section Right

variable (order : p.lhs.width < p.rhs.width)

include order

theorem widest_right : p.widest = p.rhs.width := max_eq_right order.le

theorem narrower_right : p.narrower = p.lhs := if_neg order.not_gt

theorem truncated_right (fits : canTruncate p.rhs p.lhs.width = true) : p.Preserved ↔
      p.Fits (p.left + p.right) ∧ p.Fits (p.left - p.right) ∧ p.Fits (p.left * p.right) := by
  have promoted : promoteArithmetic p.lhs p.rhs =
      ⟨p.lhs.width, p.lhs.bits, IntInstr.cast true p.lhs.width p.rhs.bits⟩ := by
    rw [promoteArithmetic, if_neg order.ne, if_neg order.not_gt, if_pos fits]
  refine preserved_narrow promoted (by rw [narrower_right order]) p.positive.1 (le_max_left _ _)
    (fun sign => (p.oneBit sign).1) ?_
  rintro ⟨x, sumIn, sum⟩ ⟨y, differenceIn, difference⟩
  rw [narrower_right order] at sumIn differenceIn
  rw [widest_right order] at sum difference
  have inside : InRange p.isSigned p.lhs.width p.right :=
    inRange_of_sum_difference p.positive.1 order (number_inRange p.isSigned p.lhs.bits)
      (constant_of_canTruncate order fits) sumIn sum differenceIn (.inl difference)
  exact ⟨rfl, number_truncated p.positive.1 order inside⟩

theorem extended_right (kept : ¬canTruncate p.rhs p.lhs.width = true) :
    p.Preserved ↔ p.isSigned = true ∨ p.lhs.bits.msb = false := by
  have promoted : promoteArithmetic p.lhs p.rhs =
      ⟨p.rhs.width, p.lhs.bits.signExtend p.rhs.width, p.rhs.bits⟩ := by
    rw [promoteArithmetic, if_neg order.ne, if_neg order.not_gt, if_neg kept]
  constructor
  · intro preserved
    by_contra wrong
    simp only [not_or, Bool.not_eq_true, Bool.not_eq_false] at wrong
    obtain ⟨unsigned, top⟩ := wrong
    have sum := (produces_iff promoted rfl).1 preserved.plus
    rw [BitVec.add_comm, add_comm p.left, left, right, unsigned, widest_right order] at sum
    exact sum_signExtend_ne order top p.rhs.bits sum
  · intro sign
    exact preserved_wide promoted (widest_right order).symm (number_signExtend order.le sign) rfl
      fun sign => (p.oneBit sign).2

end Right

theorem preserved_iff (p : Pair) : p.Preserved ↔ p.Promotable := by
  rw [Promotable]
  rcases lt_trichotomy p.lhs.width p.rhs.width with order | same | order
  · have wider : p.wider = p.rhs := if_neg order.not_gt
    rw [wider, narrower_right order]
    simp only [order.ne, false_or]
    split
    case isTrue fits => exact truncated_right order fits
    case isFalse kept => exact extended_right order kept
  · exact ⟨fun _ => .inl same, fun _ => preserved_same same⟩
  · have wider : p.wider = p.lhs := if_pos order
    rw [wider, narrower_left order]
    simp only [order.ne', false_or]
    split
    case isTrue fits => exact truncated_left order fits
    case isFalse kept => exact extended_left order kept

end Pair

/-! A literal has no suffix and stands beside an operand of an unsigned type; its own type is
signed. -/

structure LiteralPair where
  literalFirst : Bool
  lhs : Value
  rhs : Value
  positive : 0 < lhs.width ∧ 0 < rhs.width
  literal : let literal := if literalFirst then lhs else rhs
    literal.isConstant = true ∧ 1 < literal.width ∧ literal.bits.msb = false

namespace LiteralPair

variable (p : LiteralPair)

def left : Int := number p.literalFirst p.lhs.bits

def right : Int := number (!p.literalFirst) p.rhs.bits

def widest : Nat := max p.lhs.width p.rhs.width

/-- The type of a sum is that of the wider operand, and on equal widths that of the left one. -/
def resultSigned : Bool := if p.rhs.width ≤ p.lhs.width then p.literalFirst else !p.literalFirst

def Produces (op : BinaryOp) (z : Int) : Prop :=
  ∃ bits, visitBinaryExpr op p.literalFirst p.lhs p.rhs = .value bits ∧
    number p.resultSigned bits ≡ z [ZMOD 2 ^ p.widest]

structure Preserved : Prop where
  rel : ∀ op, visitRelExpr op p.literalFirst (!p.literalFirst) p.lhs p.rhs =
    decide (op.Holds p.left p.right)
  eq : ∀ op, visitEqExpr op p.lhs p.rhs = decide (op.Holds p.left p.right)
  plus : p.Produces (.addSub .plus) (p.left + p.right)
  minus : p.Produces (.addSub .minus) (p.left - p.right)
  star : p.Produces (.mul .star) (p.left * p.right)

/-- The width that both are brought to. -/
def common : Nat :=
  if p.lhs.width > p.rhs.width then
    if canTruncate p.lhs p.rhs.width then p.rhs.width else p.lhs.width
  else if canTruncate p.rhs p.lhs.width then p.lhs.width else p.rhs.width

def Fits (z : Int) : Prop :=
  ∃ y, InRange p.resultSigned p.common y ∧ y ≡ z [ZMOD 2 ^ p.widest]

/-- The top bit of an operand of the smaller type is clear where it is extended. The comparison is
signed: the top bits of the common type are both clear or both set, unless it has only one. No
result needs more than the common type. -/
structure Promotable : Prop where
  left : p.lhs.width < p.common → p.lhs.bits.msb = false
  right : p.rhs.width < p.common → p.rhs.bits.msb = false
  alike : p.common = 1 ∨ (p.left < 2 ^ (p.common - 1) ↔ p.right < 2 ^ (p.common - 1))
  plus : p.Fits (p.left + p.right)
  minus : p.Fits (p.left - p.right)
  star : p.Fits (p.left * p.right)

section Promoted

variable (lhs rhs : Value)

theorem promoteArithmetic_width : (promoteArithmetic lhs rhs).width =
    if lhs.width > rhs.width then if canTruncate lhs rhs.width then rhs.width else lhs.width
    else if canTruncate rhs lhs.width then lhs.width else rhs.width := by
  unfold promoteArithmetic
  split_ifs <;> first | rfl | omega

theorem toNat_signExtend_clear {v w : Nat} {x : BitVec v} (clear : x.msb = false) (le : v ≤ w) :
    (x.signExtend w).toNat = x.toNat := by
  rw [BitVec.signExtend_eq_setWidth_of_msb_false clear, BitVec.toNat_setWidth]
  exact Nat.mod_eq_of_lt (x.isLt.trans_le (Nat.pow_le_pow_right (by decide) le))

theorem toNat_truncated {constant : Value} {n : Nat} (narrower : n < constant.width)
    (fits : canTruncate constant n = true) :
    (IntInstr.cast true n constant.bits).toNat = constant.bits.toNat := by
  simp only [canTruncate, isIntN, Bool.and_eq_true, decide_eq_true_eq] at fits
  rw [cast_of_le true _ narrower.le, BitVec.toNat_setWidth, Nat.mod_eq_of_lt fits.2]

variable {lhs rhs : Value} {o : Operands} (promoted : promoteArithmetic lhs rhs = o)
include promoted

theorem promoted_lhs (clear : lhs.width < o.width → lhs.bits.msb = false) :
    o.lhs.toNat = lhs.bits.toNat := by
  unfold promoteArithmetic at promoted
  split_ifs at promoted with same wider fits fits <;> subst promoted
  · rfl
  · exact toNat_truncated wider fits
  · rfl
  · rfl
  · have narrower : lhs.width < rhs.width := by omega
    exact toNat_signExtend_clear (clear narrower) narrower.le

theorem promoted_rhs (clear : rhs.width < o.width → rhs.bits.msb = false) :
    o.rhs.toNat = rhs.bits.toNat := by
  unfold promoteArithmetic at promoted
  split_ifs at promoted with same wider fits fits <;> subst promoted
  · have small : rhs.bits.toNat < 2 ^ lhs.width := by
      rw [same]
      exact rhs.bits.isLt
    exact (BitVec.toNat_setWidth _ _).trans (Nat.mod_eq_of_lt small)
  · rfl
  · exact toNat_signExtend_clear (clear wider) wider.le
  · have narrower : lhs.width < rhs.width := by omega
    exact toNat_truncated narrower fits
  · rfl

omit promoted in
/-- The signed order is that of the numbers where the top bits are alike. -/
theorem order_iff {n : Nat} (positive : 0 < n) (x y : BitVec n) :
    ((x.toInt < y.toInt ↔ x.toNat < y.toNat) ∧ (y.toInt < x.toInt ↔ y.toNat < x.toNat)) ↔
      (x.toNat < 2 ^ (n - 1) ↔ y.toNat < 2 ^ (n - 1)) := by
  have double : 2 ^ n = 2 * 2 ^ (n - 1) := by
    rw [← pow_succ']
    congr 1
    omega
  have left := x.isLt
  have right := y.isLt
  simp only [BitVec.toInt_eq_toNat_cond]
  rw [double] at left right ⊢
  generalize 2 ^ (n - 1) = half at *
  push_cast
  split_ifs <;> omega

end Promoted

variable {p : LiteralPair} {o : Operands} {z : Int}

theorem left_eq : p.left = p.lhs.bits.toNat := by
  obtain ⟨_ | _, lhs, rhs, positive, literal⟩ := p
  · rfl
  · exact BitVec.toInt_eq_toNat_of_msb literal.2.2

theorem right_eq : p.right = p.rhs.bits.toNat := by
  obtain ⟨_ | _, lhs, rhs, positive, literal⟩ := p
  · exact BitVec.toInt_eq_toNat_of_msb literal.2.2
  · rfl

theorem common_pos (p : LiteralPair) : 0 < p.common := by
  have positive := p.positive
  unfold common
  split_ifs <;> omega

theorem common_le (p : LiteralPair) : p.common ≤ p.widest := by
  unfold common widest
  split_ifs <;> omega

section Results

variable (promoted : promoteArithmetic p.lhs p.rhs = o)
include promoted

theorem common_eq : o.width = p.common := by
  rw [← promoted, promoteArithmetic_width]
  rfl

theorem produces_iff {op : BinaryOp} {bits : BitVec o.width}
    (computed : visitOperands op p.literalFirst o = .value bits) :
    p.Produces op z ↔ number p.resultSigned bits ≡ z [ZMOD 2 ^ p.widest] := by
  subst promoted
  constructor
  · rintro ⟨found, emitted, produced⟩
    obtain rfl : found = bits := Outcome.value.inj (emitted.symm.trans computed)
    exact produced
  · exact fun produced => ⟨bits, computed, produced⟩

theorem produces_iff_fits {op : BinaryOp} {bits : BitVec o.width}
    (computed : visitOperands op p.literalFirst o = .value bits)
    (exact : number p.resultSigned bits ≡ z [ZMOD 2 ^ o.width]) :
    p.Produces op z ↔ p.Fits z := by
  have width := common_eq promoted
  rw [produces_iff promoted computed]
  constructor
  · exact fun same => ⟨_, width ▸ number_inRange p.resultSigned bits, same⟩
  · rintro ⟨y, inside, same⟩
    rw [← width] at inside
    have divides : (2 : Int) ^ o.width ∣ 2 ^ p.widest := pow_dvd_pow 2 (width ▸ common_le p)
    have equal := eq_of_inRange (width ▸ common_pos p) (number_inRange _ bits) inside
      (exact.trans (same.of_dvd divides).symm)
    rwa [equal]

theorem rel_iff (left : p.left = o.lhs.toNat) (right : p.right = o.rhs.toNat) :
    (∀ op, visitRelExpr op p.literalFirst (!p.literalFirst) p.lhs p.rhs =
        decide (op.Holds p.left p.right)) ↔
      p.common = 1 ∨ (p.left < 2 ^ (p.common - 1) ↔ p.right < 2 ^ (p.common - 1)) := by
  have width := common_eq promoted
  have positive : 0 < o.width := width ▸ common_pos p
  have computes (op : RelOp) : visitRelExpr op p.literalFirst (!p.literalFirst) p.lhs p.rhs =
      icmp (if o.width = 1 then false else true) o.lhs o.rhs op := by
    subst promoted
    rw [visitRelExpr, Bool.or_not_self]
  rw [← width, left, right]
  simp only [computes, icmp_number, decide_eq_decide]
  by_cases one : o.width = 1
  · simp [one, number]
  · rw [if_neg one, or_iff_right one]
    have order := order_iff positive o.lhs o.rhs
    refine Iff.trans ⟨fun same => ?_, fun same op => ?_⟩ (order.trans (by exact_mod_cast Iff.rfl))
    · have less : o.lhs.toInt < o.rhs.toInt ↔ (o.lhs.toNat : Int) < o.rhs.toNat := same .lt
      have more : o.rhs.toInt < o.lhs.toInt ↔ (o.rhs.toNat : Int) < o.lhs.toNat := same .gt
      exact ⟨by exact_mod_cast less, by exact_mod_cast more⟩
    · have numbers : number true o.lhs = o.lhs.toInt ∧ number true o.rhs = o.rhs.toInt := ⟨rfl, rfl⟩
      cases op <;> simp only [RelOp.Holds, numbers] <;> omega

theorem eq_kept (left : p.left = o.lhs.toNat) (right : p.right = o.rhs.toNat) (op : EqOp) :
    visitEqExpr op p.lhs p.rhs = decide (op.Holds p.left p.right) := by
  subst promoted
  rw [left, right, Bool.eq_iff_iff, decide_eq_true_iff]
  cases op <;> simp [visitEqExpr, EqOp.Holds, BitVec.toNat_inj]

/-- Where both operands keep their numbers, their order and the room for the results are left. -/
theorem preserved_kept (left : p.left = o.lhs.toNat) (right : p.right = o.rhs.toNat) :
    p.Preserved ↔
      (p.common = 1 ∨ (p.left < 2 ^ (p.common - 1) ↔ p.right < 2 ^ (p.common - 1))) ∧
        p.Fits (p.left + p.right) ∧ p.Fits (p.left - p.right) ∧ p.Fits (p.left * p.right) := by
  have numbers : number p.resultSigned o.lhs ≡ p.left [ZMOD 2 ^ o.width] ∧
      number p.resultSigned o.rhs ≡ p.right [ZMOD 2 ^ o.width] := by
    rw [left, right]
    exact ⟨number_modEq _ _, number_modEq _ _⟩
  have plus := @produces_iff_fits p o _ promoted (.addSub .plus) _ rfl
    ((number_add _ _ _).trans (numbers.1.add numbers.2))
  have minus := @produces_iff_fits p o _ promoted (.addSub .minus) _ rfl
    ((number_sub _ _ _).trans (numbers.1.sub numbers.2))
  have star := @produces_iff_fits p o _ promoted (.mul .star) _ rfl
    ((number_mul _ _ _).trans (numbers.1.mul numbers.2))
  rw [← rel_iff promoted left right, ← plus, ← minus, ← star]
  constructor
  · rintro ⟨rel, _, plus, minus, star⟩
    exact ⟨rel, plus, minus, star⟩
  · rintro ⟨rel, plus, minus, star⟩
    exact ⟨rel, eq_kept promoted left right, plus, minus, star⟩

omit promoted

/-- A sum with an operand whose set top bit is carried on is wrong. -/
theorem top_clear {narrow wide : Value} (order : narrow.width < wide.width)
    (sum : number p.resultSigned (wide.bits + narrow.bits.signExtend wide.width) ≡
      wide.bits.toNat + narrow.bits.toNat [ZMOD 2 ^ wide.width]) : narrow.bits.msb = false := by
  by_contra top
  have top : narrow.bits.msb = true := by simpa using top
  refine sum_signExtend_ne order top wide.bits ?_
  exact (number_modEq false _).trans ((number_modEq p.resultSigned _).symm.trans sum)

theorem left_clear (preserved : p.Preserved) (extended : p.lhs.width < p.common) :
    p.lhs.bits.msb = false := by
  have order : p.lhs.width < p.rhs.width := by
    unfold common at extended
    split_ifs at extended <;> omega
  have kept : ¬canTruncate p.rhs p.lhs.width = true := by
    intro fits
    rw [common, if_neg order.not_gt, if_pos fits] at extended
    exact extended.false
  have promoted : promoteArithmetic p.lhs p.rhs =
      ⟨p.rhs.width, p.lhs.bits.signExtend p.rhs.width, p.rhs.bits⟩ := by
    rw [promoteArithmetic, if_neg order.ne, if_neg order.not_gt, if_neg kept]
  have sum := (produces_iff promoted rfl).1 preserved.plus
  rw [BitVec.add_comm, add_comm p.left, left_eq, right_eq, widest, max_eq_right order.le] at sum
  exact top_clear order sum

theorem right_clear (preserved : p.Preserved) (extended : p.rhs.width < p.common) :
    p.rhs.bits.msb = false := by
  have order : p.rhs.width < p.lhs.width := by
    unfold common at extended
    split_ifs at extended <;> omega
  have kept : ¬canTruncate p.lhs p.rhs.width = true := by
    intro fits
    rw [common, if_pos order, if_pos fits] at extended
    exact extended.false
  have promoted : promoteArithmetic p.lhs p.rhs =
      ⟨p.lhs.width, p.lhs.bits, p.rhs.bits.signExtend p.lhs.width⟩ := by
    rw [promoteArithmetic, if_neg order.ne', if_pos order, if_neg kept]
  have sum := (produces_iff promoted rfl).1 preserved.plus
  rw [left_eq, right_eq, widest, max_eq_left order.le] at sum
  exact top_clear order sum

end Results

theorem preserved_iff (p : LiteralPair) : p.Preserved ↔ p.Promotable := by
  by_cases clear : (p.lhs.width < p.common → p.lhs.bits.msb = false) ∧
      (p.rhs.width < p.common → p.rhs.bits.msb = false)
  · have width := common_eq (p := p) rfl
    have left := @promoted_lhs p.lhs p.rhs _ rfl (width ▸ clear.1)
    have right := @promoted_rhs p.lhs p.rhs _ rfl (width ▸ clear.2)
    rw [preserved_kept rfl (left ▸ left_eq) (right ▸ right_eq)]
    constructor
    · rintro ⟨alike, plus, minus, star⟩
      exact ⟨clear.1, clear.2, alike, plus, minus, star⟩
    · rintro ⟨_, _, alike, plus, minus, star⟩
      exact ⟨alike, plus, minus, star⟩
  · exact iff_of_false (fun preserved => clear ⟨left_clear preserved, right_clear preserved⟩)
      fun promotable => clear ⟨promotable.left, promotable.right⟩

end LiteralPair

end Pairs

section Conversions

/-- The sign with which `CreateIntCast` is called: always one, or that of one of the types. -/
inductive SignRule where
  | always (isSigned : Bool)
  | ofSource
  | ofTarget
  deriving DecidableEq

inductive Site where
  /-- `visitVarDeclStmt`, `visitConstDecl` and the globals, through `coerceValueToType`. -/
  | declaration
  /-- `visitAssignStmt` of a name. -/
  | assignment
  | returned
  | returnedElement
  | lambdaBody
  /-- An argument of a function or of a method, also of a generic one's statics. -/
  | argument
  | tupleArgumentElement
  /-- An argument of a generic function whose types are inferred. -/
  | genericArgument
  /-- An argument that is packed for a typed variadic parameter. -/
  | variadicArgument
  /-- An argument of a value that is called, which may have captured. -/
  | indirectArgument (closure : Bool)
  /-- An argument of a method of a built-in type or of an intrinsic, which are only widened. -/
  | widenedArgument
  /-- An argument of a method of a collection. -/
  | collectionArgument
  /-- An argument of a runtime function, each of whose visitors has its own sign. -/
  | builtinArgument (isSigned : Bool)
  /-- The value of an arm of a match. -/
  | matchArm
  | tryFallback
  | structLiteralField
  | genericLiteralField
  | enumPayload
  | arrayElement
  | vecElement
  | mapKey
  | rangeBound
  /-- An index, which is unsigned only for a vector. -/
  | index (vec : Bool)
  | fieldAssign
  | arrowAssign
  | derefAssign
  /-- The element of an array that several indices lead to. -/
  | nestedElement
  deriving DecidableEq

def Site.signRule : Site → SignRule
  | .declaration => .ofSource
  | .assignment => .ofSource
  | .returned => .always true
  | .returnedElement => .always true
  | .lambdaBody => .always true
  | .argument => .always true
  | .tupleArgumentElement => .always true
  | .genericArgument => .ofSource
  | .variadicArgument => .ofTarget
  | .indirectArgument closure => if closure then .always false else .ofTarget
  | .widenedArgument => .ofTarget
  | .collectionArgument => .always false
  | .builtinArgument isSigned => .always isSigned
  | .matchArm => .always true
  | .tryFallback => .always true
  | .structLiteralField => .ofTarget
  | .genericLiteralField => .always true
  | .enumPayload => .ofTarget
  | .arrayElement => .ofTarget
  | .vecElement => .ofTarget
  | .mapKey => .ofTarget
  | .rangeBound => .ofTarget
  | .index vec => .always (!vec)
  | .fieldAssign => .ofTarget
  | .arrowAssign => .ofTarget
  | .derefAssign => .ofTarget
  | .nestedElement => .always true

def SignRule.sign (source target : IntegerType) : SignRule → Bool
  | .always isSigned => isSigned
  | .ofSource => source.isSigned
  | .ofTarget => target.isSigned

def convert (site : Site) (source target : IntegerType) (value : BitVec source.width) :
    BitVec target.width :=
  IntInstr.cast (site.signRule.sign source target) target.width value

def ConvertedBySource (site : Site) (source target : IntegerType) (value : BitVec source.width) :
    Prop :=
  convert site source target value = IntInstr.cast source.isSigned target.width value

def Convertible (site : Site) (source target : IntegerType) (value : BitVec source.width) : Prop :=
  target.width ≤ source.width ∨ site.signRule.sign source target = source.isSigned ∨
    value.msb = false

end Conversions

end Lucis.Promotion
