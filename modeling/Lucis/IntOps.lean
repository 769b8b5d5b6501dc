import Lucis.Library.IntInstr

/-!
How IRBuilder/IRGen emits the binary operators on integers: `promoteArithmetic` brings the
operands to one type, and each visitor picks the instruction. A value carries its type, the
width, and whether it is a `ConstantInt`; its signedness is in the `TypeInfo` only.
-/

namespace Lucis.IntOps

open IntInstr

section Values

structure IntegerType where
  width : Nat
  isSigned : Bool
  positive : 0 < width

structure Value where
  width : Nat
  bits : BitVec width
  isConstant : Bool

structure Operands where
  width : Nat
  lhs : BitVec width
  rhs : BitVec width

/-- What an instruction leaves: a value, the error of a guard, or nothing that is defined. -/
inductive Outcome (w : Nat) where
  | value (bits : BitVec w)
  | thrown
  | undefined
  deriving DecidableEq

variable {w v : Nat}

def Outcome.ofInstr : Option (BitVec w) → Outcome w
  | some bits => .value bits
  | none => .undefined

def Outcome.map (f : BitVec w → BitVec v) : Outcome w → Outcome v
  | .value bits => .value (f bits)
  | .thrown => .thrown
  | .undefined => .undefined

/-- `APInt::isIntN`, which takes the bits as an unsigned number. -/
def isIntN (value : Value) (bits : Nat) : Bool := value.bits.toNat < 2 ^ bits

def canTruncate (value : Value) (bits : Nat) : Bool := value.isConstant && isIntN value bits

/-- The narrower operand is extended with its sign, unless the wider one is a constant that fits. -/
def promoteArithmetic (lhs rhs : Value) : Operands :=
  if lhs.width = rhs.width then ⟨lhs.width, lhs.bits, rhs.bits.setWidth lhs.width⟩
  else if lhs.width > rhs.width then
    if canTruncate lhs rhs.width then ⟨rhs.width, IntInstr.cast true rhs.width lhs.bits, rhs.bits⟩
    else ⟨lhs.width, lhs.bits, rhs.bits.signExtend lhs.width⟩
  else
    if canTruncate rhs lhs.width then ⟨lhs.width, lhs.bits, IntInstr.cast true lhs.width rhs.bits⟩
    else ⟨rhs.width, lhs.bits.signExtend rhs.width, rhs.bits⟩

end Values

section Operators

inductive MulOp where
  | star
  | slash
  | percent
  deriving DecidableEq

inductive AddSubOp where
  | plus
  | minus
  deriving DecidableEq

inductive BinaryOp where
  | mul (op : MulOp)
  | addSub (op : AddSubOp)
  | lshift
  | rshift
  | bitAnd
  | bitXor
  | bitOr
  deriving DecidableEq

variable {w : Nat}

def emitDivByZeroGuard (divisor : BitVec w) (guarded : Outcome w) : Outcome w :=
  if divisor = 0 then .thrown else guarded

/-- `isSigned` is that of the left operand. -/
def visitMulExpr (op : MulOp) (isSigned : Bool) (l r : BitVec w) : Outcome w :=
  match op with
  | .star => .value (l * r)
  | .slash => emitDivByZeroGuard r (.ofInstr (if isSigned then sdiv l r else udiv l r))
  | .percent => emitDivByZeroGuard r (.ofInstr (if isSigned then srem l r else urem l r))

def visitAddSubExpr (op : AddSubOp) (l r : BitVec w) : Outcome w :=
  match op with
  | .plus => .value (l + r)
  | .minus => .value (l - r)

def visitLshiftExpr (l r : BitVec w) : Outcome w := .ofInstr (shl l r)

def visitRshiftExpr (isSigned : Bool) (l r : BitVec w) : Outcome w :=
  .ofInstr (if isSigned then ashr l r else lshr l r)

def visitBitAndExpr (l r : BitVec w) : Outcome w := .value (l &&& r)

def visitBitXorExpr (l r : BitVec w) : Outcome w := .value (l ^^^ r)

def visitBitOrExpr (l r : BitVec w) : Outcome w := .value (l ||| r)

def visitOperands (op : BinaryOp) (isSigned : Bool) (o : Operands) : Outcome o.width :=
  match op with
  | .mul op => visitMulExpr op isSigned o.lhs o.rhs
  | .addSub op => visitAddSubExpr op o.lhs o.rhs
  | .lshift => visitLshiftExpr o.lhs o.rhs
  | .rshift => visitRshiftExpr isSigned o.lhs o.rhs
  | .bitAnd => visitBitAndExpr o.lhs o.rhs
  | .bitXor => visitBitXorExpr o.lhs o.rhs
  | .bitOr => visitBitOrExpr o.lhs o.rhs

/-- The value of `lhs op rhs`, of the type that the operands are brought to. -/
def visitBinaryExpr (op : BinaryOp) (isSigned : Bool) (lhs rhs : Value) :
    Outcome (promoteArithmetic lhs rhs).width :=
  visitOperands op isSigned (promoteArithmetic lhs rhs)

end Operators

end Lucis.IntOps
