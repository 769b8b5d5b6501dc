import Mathlib.Data.List.ChainOfFn
import Mathlib.Data.List.OfFn
import Lucis.Library.ByteMemory

/-!
`==` and `!=` of aggregates, as visitEqExpr of IRBuilder/IRGen_expr.cpp emits them by the shapes of
the two values. Operators of the user, strings, enumerations and floating-point elements are left
out; a field of a struct is an integer or a pointer here. `usize` has the bits of a pointer.
-/

namespace Lucis.AggregateEquality
open ByteMemory List

inductive ScalarType where
  | int (bits : Nat)
  | ptr
deriving DecidableEq

inductive Scalar where
  | int (bits value : Nat)
  | ptr (addr : Nat)
deriving DecidableEq

inductive Value where
  | array (elemTy : ScalarType) (elems : List Scalar)
  | struct (fields : List Scalar)

inductive Op where
  | eq
  | neq
deriving DecidableEq

/-- What the emitted code yields, and the calls of memcmp with their two pointers and count. -/
structure Run where
  value : Bool
  memcmps : List (Nat × Nat × Nat)

section Emitted
variable (memory : Memory)

def memcmpZero (l r count : Nat) : Bool := decide (∀ k < count, memory (l + k) = memory (r + k))

def arrayEq (lhs rhs : List Scalar) : Bool :=
  (lhs.zip rhs).foldl (fun cur (lv, rv) => cur && lv = rv) true

/-- As an `i32`: widened with zeros, or cut off. -/
def intCast (bits value : Nat) : Nat := if bits ≤ 32 then value else value % 2 ^ 32

def extractFirstInt : List Scalar → Option Nat
  | .int bits value :: _ => some (intCast bits value)
  | _ => none

def Op.apply (op : Op) (equal : Bool) : Bool :=
  match op with
  | .eq => equal
  | .neq => !equal

def structEq (op : Op) (lhs rhs : List Scalar) : Run :=
  match extractFirstInt lhs, extractFirstInt rhs with
  | some ltag, some rtag => ⟨op.apply (ltag = rtag), []⟩
  | _, _ => ⟨op.apply false, []⟩

/-- The length is an `i64` here: `visitEqExpr` multiplies it by one. -/
def sliceEq (elemSizeBytes : Nat) (op : Op) (lPtr lLen rPtr rLen : Nat) : Run :=
  let byteLen := lLen * elemSizeBytes % 2 ^ 64
  ⟨op.apply (lLen = rLen && memcmpZero memory lPtr rPtr byteLen), [(lPtr, rPtr, byteLen)]⟩

/-- `elemSize` is that of the left operand's type, if it is known. There is no code where an
instruction has operands of two types, which ends in a module that is refused. -/
def visitEqExpr (elemSize : Option Nat) (op : Op) : Value → Value → Option Run
  | .array elemTy lhs, .array elemTy' rhs =>
    if lhs.length = rhs.length ∧ elemTy = elemTy' then some ⟨op.apply (arrayEq lhs rhs), []⟩
    else some ⟨op.apply false, []⟩
  | .struct [.ptr lPtr, .int lBits lLen], .struct [.ptr rPtr, .int rBits rLen] =>
    if lBits = 64 ∧ rBits = 64 then some (sliceEq memory (elemSize.getD 1) op lPtr lLen rPtr rLen)
    else none
  | .struct lhs, .struct rhs => some (structEq op lhs rhs)
  | _, _ => none

end Emitted

section Operands

/-- The aggregate types: arrays and structs of integers by their bits, slices by the bytes of an
element. -/
inductive Ty where
  | array (count bits : Nat)
  | slice (bytes : Nat)
  | struct (fields : List Nat)

structure Slice (bytes : Nat) where
  ptr : Nat
  len : Nat
  placed : ptr + len * bytes < 2 ^ 64

/-- Of the widths that the language has. -/
def allocSize (bits : Nat) : Nat := (bits + 7) / 8

/-- A parameter of an array type is a pointer and a length. -/
inductive ArrayOperand (count bits : Nat) where
  | variable (elems : Fin count → BitVec bits)
  | parameter (slice : Slice (allocSize bits))

def Operand : Ty → Type
  | .array count bits => ArrayOperand count bits
  | .slice bytes => Slice bytes
  | .struct fields => (i : Fin fields.length) → BitVec fields[i]

def elemSize : Ty → Option Nat
  | .array _ bits => some (allocSize bits)
  | .slice bytes => some bytes
  | .struct _ => none

variable (memory : Memory) (usize : Nat)

def Slice.lower {bytes : Nat} (slice : Slice bytes) : Value :=
  .struct [.ptr slice.ptr, .int usize slice.len]

def lower : (ty : Ty) → Operand ty → Value
  | .array _ bits, .variable elems =>
    .array (.int bits) (List.ofFn fun i => .int bits (elems i).toNat)
  | .array _ _, .parameter slice => slice.lower usize
  | .slice _, slice => Slice.lower usize slice
  | .struct fields, values => .struct (List.ofFn fun i => .int fields[i] (values i).toNat)

def Slice.elements {bytes : Nat} (slice : Slice bytes) : List Nat :=
  (List.range slice.len).map fun i => load memory bytes (slice.ptr + i * bytes)

/-- The elements, or the fields, that a value is made of. -/
def elements : (ty : Ty) → Operand ty → List Nat
  | .array _ _, .variable elems => List.ofFn fun i => (elems i).toNat
  | .array _ _, .parameter slice => slice.elements memory
  | .slice _, slice => Slice.elements memory slice
  | .struct _, values => List.ofFn fun i => (values i).toNat

def Slice.Storage {bytes : Nat} (slice : Slice bytes) (addr : Nat) : Prop :=
  slice.ptr ≤ addr ∧ addr < slice.ptr + slice.len * bytes

def Storage : (ty : Ty) → Operand ty → Nat → Prop
  | .array _ _, .parameter slice => slice.Storage
  | .slice _, slice => Slice.Storage slice
  | _, _ => fun _ => False

def emitted (ty : Ty) (op : Op) (x y : Operand ty) : Option Run :=
  visitEqExpr memory (elemSize ty) op (lower usize ty x) (lower usize ty y)

/-- The two operators decide structural equality, and each operand is read in its storage. -/
def Decides (ty : Ty) (x y : Operand ty) : Prop :=
  ∃ eq neq,
    emitted memory usize ty .eq x y = some eq ∧ emitted memory usize ty .neq x y = some neq ∧
    (eq.value = true ↔ elements memory ty x = elements memory ty y) ∧ neq.value = !eq.value ∧
    ∀ call ∈ eq.memcmps ++ neq.memcmps, ∀ k < call.2.2,
      Storage ty x (call.1 + k) ∧ Storage ty y (call.2.1 + k)

def Related (ty : Ty) (x y : Operand ty) : Prop :=
  ∃ eq, emitted memory usize ty .eq x y = some eq ∧ eq.value = true

def isParameter : (ty : Ty) → Operand ty → Bool
  | .array _ _, .parameter _ => true
  | _, _ => false

/-- The operands of the type that are held as `x` is. -/
def HeldAs (ty : Ty) (x : Operand ty) : Type :=
  {z : Operand ty // isParameter ty z = isParameter ty x}

def Slice.Covers {bytes : Nat} (x y : Slice bytes) : Prop :=
  usize = 64 ∧ x.len * bytes ≤ y.len * bytes

def Comparable : (ty : Ty) → Operand ty → Operand ty → Prop
  | .array _ _, .variable _, .variable _ => True
  | .array _ _, .parameter x, .parameter y => x.Covers usize y
  | .array _ _, _, _ => False
  | .slice _, x, y => Slice.Covers usize x y
  | .struct fields, x, y => ∃ first : 0 < fields.length, x = y ∨
      (x ⟨0, first⟩).toNat % 2 ^ 32 ≠ (y ⟨0, first⟩).toNat % 2 ^ 32

end Operands

section Arrays

theorem arrayEq_iff {lhs rhs} (same : lhs.length = rhs.length) :
    arrayEq lhs rhs = true ↔ lhs = rhs := by
  have step (cur : Bool) (lhs rhs : List Scalar) (same : lhs.length = rhs.length) :
      (lhs.zip rhs).foldl (fun cur (lv, rv) => cur && lv = rv) cur = true ↔
        cur = true ∧ lhs = rhs := by
    induction lhs generalizing cur rhs with
    | nil =>
      obtain rfl : rhs = [] := eq_nil_of_length_eq_zero same.symm
      simp
    | cons lv lhs ih =>
      cases rhs with
      | nil => cases same
      | cons rv rhs =>
        rw [zip_cons_cons, foldl_cons, ih _ rhs (Nat.succ.inj same)]
        simp [and_assoc]
  rw [arrayEq, step true lhs rhs same]
  simp

variable {count bits : Nat}

def scalars (elems : Fin count → BitVec bits) : List Scalar :=
  List.ofFn fun i => .int bits (elems i).toNat

theorem array_emitted (memory : Memory) (usize : Nat) (op : Op) (x y : Fin count → BitVec bits) :
    emitted memory usize (.array count bits) op (.variable x) (.variable y) =
      some ⟨op.apply (arrayEq (scalars x) (scalars y)), []⟩ :=
  if_pos ⟨by rw [length_ofFn, length_ofFn], rfl⟩

theorem arrayOf_iff (x y : Fin count → BitVec bits) : arrayEq (scalars x) (scalars y) = true ↔
    List.ofFn (fun i => (x i).toNat) = List.ofFn (fun i => (y i).toNat) := by
  rw [arrayEq_iff (by simp [scalars]), scalars, scalars, ofFn_inj, ofFn_inj, funext_iff, funext_iff]
  simp

end Arrays

section Slices
variable (memory : Memory) {usize bytes : Nat}

theorem slice_emitted (wide : usize = 64) (op : Op) (x y : Slice bytes) :
    visitEqExpr memory (some bytes) op (x.lower usize) (y.lower usize) = some
      ⟨op.apply (x.len = y.len && memcmpZero memory x.ptr y.ptr (x.len * bytes)),
        [(x.ptr, y.ptr, x.len * bytes)]⟩ := by
  have placed : x.len * bytes < 2 ^ 64 := lt_of_le_of_lt (Nat.le_add_left _ _) x.placed
  have run : visitEqExpr memory (some bytes) op (x.lower usize) (y.lower usize) =
      some (sliceEq memory bytes op x.ptr x.len y.ptr y.len) := if_pos ⟨wide, wide⟩
  rw [run, sliceEq, Nat.mod_eq_of_lt placed]

theorem slice_refused (narrow : usize ≠ 64) (op : Op) (x y : Slice bytes) :
    visitEqExpr memory (some bytes) op (x.lower usize) (y.lower usize) = none :=
  if_neg fun wide => narrow wide.1

theorem memcmpZero_iff (x y : Slice bytes) : memcmpZero memory x.ptr y.ptr (x.len * bytes) = true ↔
    ∀ i < x.len, load memory bytes (x.ptr + i * bytes) = load memory bytes (y.ptr + i * bytes) := by
  simp only [memcmpZero, decide_eq_true_eq, load_inj]
  constructor
  · intro same i inside k within
    have place : i * bytes + k < x.len * bytes :=
      calc i * bytes + k < i * bytes + bytes := Nat.add_lt_add_left within _
        _ = (i + 1) * bytes := (Nat.succ_mul i bytes).symm
        _ ≤ x.len * bytes := Nat.mul_le_mul_right bytes inside
    simpa only [Nat.add_assoc] using same _ place
  · intro same k inside
    have wide : 0 < bytes := Nat.pos_of_mul_pos_left (Nat.zero_lt_of_lt inside)
    have split : k / bytes * bytes + k % bytes = k := Nat.div_add_mod' k bytes
    have here := same (k / bytes) (Nat.div_lt_of_lt_mul (Nat.mul_comm _ _ ▸ inside))
      (k % bytes) (Nat.mod_lt k wide)
    simpa only [add_assoc, split] using here

theorem slice_elements_iff (x y : Slice bytes) :
    (x.len = y.len && memcmpZero memory x.ptr y.ptr (x.len * bytes)) = true ↔
      x.elements memory = y.elements memory := by
  rw [Bool.and_eq_true, decide_eq_true_eq, memcmpZero_iff]
  constructor
  · rintro ⟨same, each⟩
    rw [Slice.elements, Slice.elements, ← same, map_inj_left]
    simpa using each
  · intro same
    have lens : x.len = y.len := by simpa [Slice.elements] using congrArg List.length same
    rw [Slice.elements, Slice.elements, ← lens, map_inj_left] at same
    exact ⟨lens, by simpa using same⟩

theorem slice_reads (x y : Slice bytes) :
    (∀ k < x.len * bytes, x.Storage (x.ptr + k) ∧ y.Storage (y.ptr + k)) ↔
      x.len * bytes ≤ y.len * bytes := by
  constructor
  · intro stored
    by_contra longer
    have beyond := (stored (y.len * bytes) (by omega)).2.2
    omega
  · intro shorter k inside
    refine ⟨⟨?_, ?_⟩, ?_, ?_⟩ <;> omega

end Slices

section Structs

theorem intCast_eq {bits : Nat} (x : BitVec bits) : intCast bits x.toNat = x.toNat % 2 ^ 32 := by
  rw [intCast]
  split
  next narrow =>
    have below : x.toNat < 2 ^ 32 := lt_of_lt_of_le x.isLt (Nat.pow_le_pow_right (by decide) narrow)
    rw [Nat.mod_eq_of_lt below]
  next => rfl

theorem struct_emitted (memory : Memory) (usize : Nat) {bits : Nat} {fields : List Nat} (op : Op)
    (x y : Operand (.struct (bits :: fields))) :
    emitted memory usize (.struct (bits :: fields)) op x y = some
      ⟨op.apply ((x 0).toNat % 2 ^ 32 = (y 0).toNat % 2 ^ 32), []⟩ := by
  have fields_eq (z : Operand (.struct (bits :: fields))) : lower usize _ z =
      .struct (.int bits (z 0).toNat :: List.ofFn fun i : Fin fields.length =>
        .int (bits :: fields)[i.succ] (z i.succ).toNat) := congrArg Value.struct ofFn_succ
  rw [emitted, fields_eq x, fields_eq y, ← intCast_eq (x 0), ← intCast_eq (y 0)]
  rfl

theorem fields_iff {fields : List Nat} (memory : Memory) (x y : Operand (.struct fields)) :
    elements memory (.struct fields) x = elements memory (.struct fields) y ↔ x = y := by
  have values : elements memory (.struct fields) x = elements memory (.struct fields) y ↔
      (fun i => (x i).toNat) = fun i => (y i).toNat := ofFn_inj
  rw [values, funext_iff]
  simp only [BitVec.toNat_inj]
  exact funext_iff.symm

end Structs

section Equality

variable (memory : Memory) (usize : Nat) {ty : Ty} {x y : Operand ty}

section Emitted

variable {equal : Bool} {calls : List (Nat × Nat × Nat)}
variable (run : ∀ op, emitted memory usize ty op x y = some ⟨op.apply equal, calls⟩)
include run

theorem related_iff : Related memory usize ty x y ↔ equal = true := by
  simp [Related, run, Op.apply]

theorem decides_iff : Decides memory usize ty x y ↔
    (equal = true ↔ elements memory ty x = elements memory ty y) ∧
      ∀ call ∈ calls, ∀ k < call.2.2, Storage ty x (call.1 + k) ∧ Storage ty y (call.2.1 + k) := by
  simp [Decides, run, Op.apply, or_imp, forall_and]

end Emitted

theorem equivalence_of_key {α β : Type} {related : α → α → Prop} (key : α → β)
    (same : ∀ a b, related a b ↔ key a = key b) : Equivalence related where
  refl a := (same a a).2 rfl
  symm given := (same _ _).2 ((same _ _).1 given).symm
  trans given next := (same _ _).2 (((same _ _).1 given).trans ((same _ _).1 next))

/-- `==` is an equivalence on the operands held as `x` is. -/
def Lawful (ty : Ty) (x : Operand ty) : Prop :=
  Equivalence fun a b : HeldAs ty x => Related memory usize ty a.1 b.1

variable {count bits bytes : Nat}

theorem array_equality (x y : Fin count → BitVec bits) :
    Lawful memory usize (.array count bits) (.variable x) ∧
      Decides memory usize (.array count bits) (.variable x) (.variable y) := by
  constructor
  · refine equivalence_of_key (fun a => elements memory (.array count bits) a.1) ?_
    rintro ⟨a | a, held⟩ ⟨b | b, held'⟩
    · exact (related_iff memory usize fun op => array_emitted memory usize op a b).trans
        (arrayOf_iff a b)
    · cases held'
    · cases held
    · cases held
  · exact (decides_iff memory usize fun op => array_emitted memory usize op x y).2
      ⟨arrayOf_iff x y, List.forall_mem_nil _⟩

theorem slice_lawful (wide : usize = 64) (x : Slice bytes) :
    Lawful memory usize (.slice bytes) x :=
  equivalence_of_key (fun a => Slice.elements memory a.1) fun a b =>
    (@related_iff memory usize (.slice bytes) a.1 b.1 _ _ fun op =>
      slice_emitted memory wide op a.1 b.1).trans
      (slice_elements_iff memory a.1 b.1)

theorem parameter_lawful (wide : usize = 64) (x : Slice (allocSize bits)) :
    Lawful memory usize (.array count bits) (.parameter x) := by
  refine equivalence_of_key (fun a => elements memory (.array count bits) a.1) ?_
  rintro ⟨a | a, held⟩ ⟨b | b, held'⟩
  · cases held
  · cases held
  · cases held'
  · exact (@related_iff memory usize (.array count bits) (.parameter a) (.parameter b) _ _ fun op =>
      slice_emitted memory wide op a b).trans
      (slice_elements_iff memory a b)

/-- What is said of two slices, also where they are parameters of an array type. -/
theorem covers_iff {x y : Operand ty} {l r : Slice bytes}
    (run : ∀ op, emitted memory usize ty op x y =
      visitEqExpr memory (some bytes) op (l.lower usize) (r.lower usize))
    (left : elements memory ty x = l.elements memory)
    (right : elements memory ty y = r.elements memory)
    (reads : ∀ addr addr',
      Storage ty x addr ∧ Storage ty y addr' ↔ l.Storage addr ∧ r.Storage addr')
    (lawful : usize = 64 → Lawful memory usize ty x) :
    Lawful memory usize ty x ∧ Decides memory usize ty x y ↔ l.Covers usize r := by
  by_cases wide : usize = 64
  · rw [and_iff_right (lawful wide), Slice.Covers, and_iff_right wide,
      decides_iff memory usize fun op => (run op).trans (slice_emitted memory wide op l r),
      left, right, and_iff_right (slice_elements_iff memory l r), forall_mem_singleton]
    simp only [reads]
    exact slice_reads l r
  · refine iff_of_false ?_ fun covers => wide covers.1
    rintro ⟨-, eq, -, emits, -⟩
    rw [run, slice_refused memory wide] at emits
    cases emits

theorem struct_equality {bits : Nat} {fields : List Nat}
    (x y : Operand (.struct (bits :: fields))) :
    Lawful memory usize (.struct (bits :: fields)) x ∧
        Decides memory usize (.struct (bits :: fields)) x y ↔
      x = y ∨ (x 0).toNat % 2 ^ 32 ≠ (y 0).toNat % 2 ^ 32 := by
  have run (a b : Operand (.struct (bits :: fields))) (op : Op) :=
    struct_emitted memory usize op a b
  have lawful : Lawful memory usize (.struct (bits :: fields)) x :=
    equivalence_of_key (fun a => (a.1 0).toNat % 2 ^ 32) fun a b => by
      rw [related_iff memory usize (run a.1 b.1), decide_eq_true_eq]
  rw [and_iff_right lawful, decides_iff memory usize (run x y), decide_eq_true_eq, fields_iff,
    and_iff_left (List.forall_mem_nil _)]
  constructor
  · intro decided
    by_cases first : (x 0).toNat % 2 ^ 32 = (y 0).toNat % 2 ^ 32
    · exact .inl (decided.1 first)
    · exact .inr first
  · rintro (rfl | first)
    · exact iff_of_true rfl rfl
    · exact iff_of_false first fun same => first (same ▸ rfl)

theorem empty_not_decided (x y : Operand (.struct [])) :
    ¬ Decides memory usize (.struct []) x y := by
  rw [decides_iff memory usize (fun _ => rfl)]
  rintro ⟨decided, -⟩
  exact Bool.false_ne_true (decided.2 rfl)

/-- `(a, b)`, as a struct of two `int32` -/
def pair (a b : BitVec 32) : Operand (.struct [32, 32]) :=
  fun i => match i with
    | 0 => a
    | 1 => b

end Equality

end Lucis.AggregateEquality
