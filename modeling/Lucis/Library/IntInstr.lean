import Mathlib.Data.BitVec
import Mathlib.Data.Int.ModEq
import Mathlib.Tactic.Linarith

/-!
The integer instructions of a low-level language on words of any width. What leaves the
result of an instruction undefined is `none`: a division by zero or one that overflows,
and a shift by the width or more.
-/

namespace IntInstr

variable {w v n : Nat}

section Instructions

def udiv (x y : BitVec w) : Option (BitVec w) := if y = 0 then none else some (x / y)

def urem (x y : BitVec w) : Option (BitVec w) := if y = 0 then none else some (x % y)

def Overflows (x y : BitVec w) : Prop := x = BitVec.intMin w ∧ y = BitVec.allOnes w

instance (x y : BitVec w) : Decidable (Overflows x y) := inferInstanceAs (Decidable (_ ∧ _))

def sdiv (x y : BitVec w) : Option (BitVec w) :=
  if y = 0 ∨ Overflows x y then none else some (x.sdiv y)

def srem (x y : BitVec w) : Option (BitVec w) :=
  if y = 0 ∨ Overflows x y then none else some (x.srem y)

def shl (x y : BitVec w) : Option (BitVec w) :=
  if y.toNat < w then some (x <<< y.toNat) else none

def lshr (x y : BitVec w) : Option (BitVec w) :=
  if y.toNat < w then some (x >>> y.toNat) else none

def ashr (x y : BitVec w) : Option (BitVec w) :=
  if y.toNat < w then some (x.sshiftRight y.toNat) else none

/-- A cast to another width: an extension with the sign or with zeros, or a truncation. -/
def cast (isSigned : Bool) (v : Nat) (x : BitVec w) : BitVec v :=
  if isSigned then x.signExtend v else x.setWidth v

end Instructions

section Casts

@[simp] theorem cast_same (isSigned : Bool) (x : BitVec w) : cast isSigned w x = x := by
  cases isSigned <;> simp [cast]

@[simp] theorem cast_zero (isSigned : Bool) : cast isSigned v (0 : BitVec w) = 0 := by
  cases isSigned
  · exact BitVec.setWidth_zero v w
  · exact (BitVec.signExtend_eq_setWidth_of_msb_false (BitVec.msb_zero)).trans
      (BitVec.setWidth_zero v w)

theorem cast_of_le (isSigned : Bool) (x : BitVec w) (fits : v ≤ w) :
    cast isSigned v x = x.setWidth v := by
  cases isSigned
  · rfl
  · exact BitVec.signExtend_eq_setWidth_of_le x fits

theorem setWidth_signExtend (x : BitVec w) (fits : v ≤ n) :
    (x.signExtend n).setWidth v = x.signExtend v := by
  ext i inside
  simp [BitVec.getElem_signExtend, show i < n by omega]

theorem setWidth_sub (x y : BitVec w) (fits : v ≤ w) :
    (x - y).setWidth v = x.setWidth v - y.setWidth v := by
  rw [BitVec.sub_eq_add_neg, BitVec.setWidth_add _ _ fits, BitVec.setWidth_neg_of_le fits,
    ← BitVec.sub_eq_add_neg]

theorem setWidth_ofInt (fits : v ≤ w) (z : Int) :
    (BitVec.ofInt w z).setWidth v = BitVec.ofInt v z := by
  have divides : (2 : Int) ^ v ∣ 2 ^ w := pow_dvd_pow 2 fits
  have reduced (n : Nat) : (((z % (2 ^ n : Nat)).toNat : Nat) : Int) = z % 2 ^ n := by
    have nonneg : 0 ≤ z % ((2 ^ n : Nat) : Int) := Int.emod_nonneg _ (by positivity)
    rw [Int.toNat_of_nonneg nonneg]
    norm_cast
  apply BitVec.eq_of_toNat_eq
  apply Int.ofNat.inj
  rw [BitVec.toNat_setWidth, BitVec.toNat_ofInt, BitVec.toNat_ofInt]
  change ((((z % (2 ^ w : Nat)).toNat % 2 ^ v : Nat)) : Int) = ((z % (2 ^ v : Nat)).toNat : Int)
  rw [Int.natCast_mod, reduced, reduced]
  push_cast
  exact Int.emod_emod_of_dvd z divides

theorem setWidth_allOnes_ne (narrow : v < w) :
    (BitVec.allOnes v).setWidth w ≠ BitVec.allOnes w := by
  intro same
  have top := congrArg (fun x => x.getLsbD v) same
  simp [narrow] at top

theorem signExtend_allOnes (positive : 0 < v) :
    (BitVec.allOnes v).signExtend w = BitVec.allOnes w := by
  ext i inside
  simp [BitVec.getElem_signExtend, BitVec.msb_eq_getLsbD_last]
  omega

variable {x : BitVec v}

theorem toNat_signExtend_of_msb (top : x.msb = true) (fits : v ≤ w) :
    (x.signExtend w).toNat + 2 ^ v = x.toNat + 2 ^ w := by
  have below : 2 ^ v ≤ 2 ^ w := Nat.pow_le_pow_right (by omega) fits
  have range := x.isLt
  have extended : (x.signExtend w).toNat = _ := BitVec.toNat_signExtend x
  rw [top, if_pos rfl, BitVec.toNat_setWidth, Nat.mod_eq_of_lt (by omega)] at extended
  omega

theorem le_signExtend_of_msb (top : x.msb = true) (fits : v ≤ w) :
    w ≤ (x.signExtend w).toNat := by
  have half : 2 ^ (v - 1) ≤ x.toNat := BitVec.le_toNat_of_msb_true top
  have extended := toNat_signExtend_of_msb top fits
  have large : w - 1 < 2 ^ (w - 1) := Nat.lt_two_pow_self
  have below : 2 ^ (v - 1) ≤ 2 ^ (w - 1) := Nat.pow_le_pow_right (by omega) (by omega)
  cases v with
  | zero => exact absurd top (by simp [BitVec.of_length_zero])
  | succ v =>
    cases w with
    | zero => exact Nat.zero_le _
    | succ w =>
      simp only [Nat.add_sub_cancel, pow_succ] at *
      omega

theorem toNat_intMin (positive : 0 < w) : (BitVec.intMin w).toNat = 2 ^ (w - 1) := by
  have below : 2 ^ (w - 1) < 2 ^ w := Nat.pow_lt_pow_right (by omega) (by omega)
  rw [BitVec.toNat_intMin, Nat.mod_eq_of_lt below]

end Casts

section Numbers

def number (isSigned : Bool) (x : BitVec w) : Int := if isSigned then x.toInt else x.toNat

def InRange (isSigned : Bool) (w : Nat) (z : Int) : Prop :=
  if isSigned then -2 ^ (w - 1) ≤ z ∧ z < 2 ^ (w - 1) else 0 ≤ z ∧ z < 2 ^ w

instance (isSigned : Bool) (w : Nat) (z : Int) : Decidable (InRange isSigned w z) :=
  inferInstanceAs (Decidable (if isSigned then _ else _))

theorem number_inRange (isSigned : Bool) (x : BitVec w) :
    InRange isSigned w (number isSigned x) := by
  cases isSigned
  · have range := x.isLt
    simp only [InRange, number, Bool.false_eq_true, if_false]
    exact ⟨Int.natCast_nonneg _, by exact_mod_cast range⟩
  · simp only [InRange, number, if_true]
    exact ⟨BitVec.le_toInt x, BitVec.toInt_lt⟩

theorem number_modEq (isSigned : Bool) (x : BitVec w) :
    number isSigned x ≡ x.toNat [ZMOD 2 ^ w] := by
  cases isSigned
  · exact Int.ModEq.refl _
  · have reduced : number true x = Int.bmod x.toNat (2 ^ w) := BitVec.toInt_eq_toNat_bmod x
    rw [reduced, Int.ModEq]
    have := Int.bmod_emod (x := (x.toNat : Int)) (m := 2 ^ w)
    exact_mod_cast this

variable {isSigned : Bool} {x y : BitVec w}

theorem number_inj :
    number isSigned x = number isSigned y ↔ x = y := by
  cases isSigned
  · simp [number, BitVec.toNat_inj]
  · simp [number, BitVec.toInt_inj]

theorem eq_of_inRange {y z : Int} (positive : 0 < w)
    (first : InRange isSigned w y) (second : InRange isSigned w z) (same : y ≡ z [ZMOD 2 ^ w]) :
    y = z := by
  obtain ⟨k, difference⟩ := same.dvd
  have doubled : (2 : Int) ^ w = 2 ^ (w - 1) * 2 := by
    rw [← pow_succ, Nat.sub_add_cancel positive]
  have large : (0 : Int) < 2 ^ (w - 1) := pow_pos (by decide) _
  have close : -(2 ^ w : Int) < z - y ∧ z - y < 2 ^ w := by
    cases isSigned <;>
      simp only [InRange, Bool.false_eq_true, if_false, if_true] at first second <;>
      constructor <;> omega
  have unmoved : k = 0 := by
    rw [difference] at close
    nlinarith
  rw [unmoved, mul_zero] at difference
  omega

theorem inRange_of_near {y z : Int} (positive : 0 < v) (narrower : v < w)
    (inside : InRange true v y) (same : y ≡ z [ZMOD 2 ^ w])
    (near : -(3 * 2 ^ (v - 1)) < z ∧ z < 3 * 2 ^ (v - 1)) : InRange true v z := by
  obtain ⟨k, difference⟩ := same.dvd
  have large : (0 : Int) < 2 ^ (v - 1) := pow_pos (by decide) _
  have room : (4 * 2 ^ (v - 1) : Int) ≤ 2 ^ w := by
    calc (4 * 2 ^ (v - 1) : Int) = 2 ^ (v - 1 + 2) := by rw [pow_add, Int.mul_comm]; rfl
      _ ≤ 2 ^ w := pow_le_pow_right₀ (by decide) (by omega)
  simp only [InRange, if_true] at inside ⊢
  have unmoved : k = 0 := by
    have _ : -(2 ^ w : Int) < 2 ^ w * k ∧ 2 ^ w * k < 2 ^ w := by
      rw [← difference]
      constructor <;> linarith [inside.1, inside.2]
    nlinarith
  rw [unmoved, mul_zero] at difference
  have equal : z = y := by omega
  rwa [equal]

theorem inRange_of_sum_difference {a c x y : Int} (positive : 0 < v)
    (narrower : v < w) (number : InRange isSigned v a) (constant : 0 ≤ c ∧ c < 2 ^ v)
    (sumIn : InRange isSigned v x) (sum : x ≡ a + c [ZMOD 2 ^ w])
    (differenceIn : InRange isSigned v y)
    (difference : y ≡ a - c [ZMOD 2 ^ w] ∨ y ≡ c - a [ZMOD 2 ^ w]) : InRange isSigned v c := by
  cases isSigned
  · exact constant
  · have doubled : (2 : Int) ^ v = 2 ^ (v - 1) * 2 := by
      rw [← pow_succ, Nat.sub_add_cancel positive]
    simp only [InRange, if_true] at number
    have sum := inRange_of_near positive narrower sumIn sum (by constructor <;> omega)
    simp only [InRange, if_true] at sum ⊢
    rcases difference with difference | difference
    · have difference := inRange_of_near positive narrower differenceIn difference
        (by constructor <;> omega)
      simp only [InRange, if_true] at difference
      constructor <;> omega
    · have difference := inRange_of_near positive narrower differenceIn difference
        (by constructor <;> omega)
      simp only [InRange, if_true] at difference
      constructor <;> omega

theorem number_cast (isSigned : Bool) (x : BitVec v) (fits : v ≤ w) :
    number isSigned (cast isSigned w x) = number isSigned x := by
  cases isSigned
  · exact congrArg Int.ofNat (BitVec.toNat_setWidth_of_le fits)
  · exact BitVec.toInt_signExtend_of_le fits

theorem cast_eq_cast_iff {a b : Bool} {x : BitVec v} :
    cast a w x = cast b w x ↔ w ≤ v ∨ a = b ∨ x.msb = false := by
  constructor
  · intro same
    by_contra differ
    simp only [not_or, Bool.not_eq_false, not_le] at differ
    obtain ⟨wider, signs, top⟩ := differ
    have extensions : x.signExtend w = x.setWidth w := by
      cases a <;> cases b <;> simp_all [cast]
    have number := toNat_signExtend_of_msb top wider.le
    have larger : 2 ^ v < 2 ^ w := Nat.pow_lt_pow_right (by decide) wider
    rw [extensions, BitVec.toNat_setWidth_of_le wider.le] at number
    omega
  · rintro (narrower | rfl | top)
    · rw [cast_of_le a x narrower, cast_of_le b x narrower]
    · rfl
    · have extensions := BitVec.signExtend_eq_setWidth_of_msb_false top (v := w)
      cases a <;> cases b <;> simp [cast, extensions]

theorem number_setWidth (positive : 0 < v) (fits : v ≤ w)
    (inside : InRange isSigned v (number isSigned x)) :
    number isSigned (x.setWidth v) = number isSigned x := by
  refine eq_of_inRange positive (number_inRange isSigned _) inside ?_
  have divides : (2 : Int) ^ v ∣ 2 ^ w := pow_dvd_pow 2 fits
  have word : ((x.setWidth v).toNat : Int) ≡ x.toNat [ZMOD 2 ^ v] := by
    rw [BitVec.toNat_setWidth]
    push_cast
    exact Int.mod_modEq _ _
  exact (number_modEq isSigned _).trans (word.trans ((number_modEq isSigned x).of_dvd divides).symm)

theorem number_signExtend {x : BitVec v} (fits : v ≤ w)
    (sign : isSigned = true ∨ x.msb = false) : number isSigned (x.signExtend w) = number isSigned x := by
  have extensions : cast isSigned w x = cast true w x := cast_eq_cast_iff.2 (.inr sign)
  rw [← number_cast isSigned x fits, extensions]
  rfl

theorem number_of_lt (small : x.toNat < 2 ^ v) (narrower : v < w) :
    number isSigned x = x.toNat := by
  cases isSigned
  · rfl
  · have half : 2 ^ (v + 1) ≤ 2 ^ w := Nat.pow_le_pow_right (by decide) narrower
    exact BitVec.toInt_eq_toNat_of_lt (by omega)

theorem number_add (isSigned : Bool) (x y : BitVec w) :
    number isSigned (x + y) ≡ number isSigned x + number isSigned y [ZMOD 2 ^ w] := by
  have word : ((x + y).toNat : Int) ≡ x.toNat + y.toNat [ZMOD 2 ^ w] := by
    rw [BitVec.toNat_add]
    push_cast
    exact Int.mod_modEq _ _
  exact (number_modEq isSigned _).trans
    (word.trans ((number_modEq isSigned x).add (number_modEq isSigned y)).symm)

theorem number_one (isSigned : Bool) : number isSigned (1 : BitVec w) ≡ 1 [ZMOD 2 ^ w] := by
  have word : (((1 : BitVec w).toNat : Nat) : Int) ≡ 1 [ZMOD 2 ^ w] := by
    have value : (1 : BitVec w).toNat = 1 % 2 ^ w := BitVec.toNat_ofNat 1 w
    rw [value]
    push_cast
    exact Int.mod_modEq _ _
  exact (number_modEq isSigned _).trans word

theorem ofInt_number (isSigned : Bool) (x : BitVec w) : BitVec.ofInt w (number isSigned x) = x := by
  cases isSigned
  · exact (BitVec.ofInt_natCast w x.toNat).trans (by simp)
  · exact BitVec.ofInt_toInt

theorem distance_eq (ordered : number isSigned x ≤ number isSigned y) (signed : x.toInt ≤ y.toInt) :
    y.toInt - x.toInt = number isSigned y - number isSigned x := by
  cases isSigned
  · simp only [number, Bool.false_eq_true, if_false, BitVec.toInt_eq_toNat_cond] at *
    have _ := x.isLt
    have _ := y.isLt
    split at signed <;> split at signed <;> omega
  · rfl

theorem exists_number {z : Int} (positive : 0 < w) (inside : InRange isSigned w z) :
    ∃ x : BitVec w, number isSigned x = z := by
  refine ⟨BitVec.ofInt w z, eq_of_inRange positive (number_inRange _ _) inside ?_⟩
  have word : ((BitVec.ofInt w z).toNat : Int) ≡ z [ZMOD 2 ^ w] := by
    have nonneg : 0 ≤ z % ((2 ^ w : Nat) : Int) := Int.emod_nonneg _ (by positivity)
    rw [BitVec.toNat_ofInt, Int.toNat_of_nonneg nonneg]
    push_cast
    exact Int.mod_modEq _ _
  exact (number_modEq isSigned _).trans word

theorem number_succ (positive : 0 < w) (inside : InRange isSigned w (number isSigned x + 1)) :
    number isSigned (x + 1) = number isSigned x + 1 :=
  eq_of_inRange positive (number_inRange isSigned _) inside
    ((number_add isSigned x 1).trans ((number_one isSigned).add_left _))

theorem eq_of_number_succ (positive : 0 < w)
    (next : number isSigned (x + 1) = number isSigned y + 1) : x = y := by
  have sum := (number_add isSigned x 1).trans ((number_one isSigned).add_left _)
  rw [next] at sum
  have same : number isSigned y ≡ number isSigned x [ZMOD 2 ^ w] := sum.add_right_cancel' 1
  exact (number_inj.1 (eq_of_inRange positive (number_inRange _ y) (number_inRange _ x) same)).symm

theorem sum_signExtend_ne {x : BitVec v} (narrower : v < w) (top : x.msb = true) (y : BitVec w) :
    ¬number false (y + x.signExtend w) ≡ number false y + number false x [ZMOD 2 ^ w] := by
  intro sum
  have larger : 2 ^ v < 2 ^ w := Nat.pow_lt_pow_right (by decide) narrower
  have extended := toNat_signExtend_of_msb top narrower.le
  have congruent : number false (x.signExtend w) ≡ number false x [ZMOD 2 ^ w] :=
    ((number_add false y (x.signExtend w)).symm.trans sum).add_left_cancel' _
  have inside : InRange false w (number false x) := by
    have range : (x.toNat : Int) < 2 ^ w := by exact_mod_cast x.isLt.trans larger
    exact ⟨Int.natCast_nonneg _, range⟩
  have same := eq_of_inRange (by omega) (number_inRange false _) inside congruent
  have same : (x.signExtend w).toNat = x.toNat := Int.ofNat.inj same
  omega

theorem number_mul (isSigned : Bool) (x y : BitVec w) :
    number isSigned (x * y) ≡ number isSigned x * number isSigned y [ZMOD 2 ^ w] := by
  have word : ((x * y).toNat : Int) ≡ x.toNat * y.toNat [ZMOD 2 ^ w] := by
    rw [BitVec.toNat_mul]
    push_cast
    exact Int.mod_modEq _ _
  exact (number_modEq isSigned _).trans
    (word.trans ((number_modEq isSigned x).mul (number_modEq isSigned y)).symm)

theorem number_sub (isSigned : Bool) (x y : BitVec w) :
    number isSigned (x - y) ≡ number isSigned x - number isSigned y [ZMOD 2 ^ w] := by
  have sum := number_add isSigned (x - y) y
  rw [BitVec.sub_add_cancel] at sum
  have difference := sum.symm.sub_right (number isSigned y)
  rwa [add_sub_cancel_right] at difference

end Numbers

section Divisions

theorem allOnes_ne_zero (positive : 0 < w) : BitVec.allOnes w ≠ 0 := by
  intro zero
  have bit := congrArg (fun x => x.getLsbD 0) zero
  simp [positive] at bit

theorem one_ne_zero (positive : 0 < w) : (1 : BitVec w) ≠ 0 := by
  intro zero
  have bit := congrArg (fun x => x.getLsbD 0) zero
  simp [positive] at bit

theorem intMin_ne_zero (positive : 0 < w) : BitVec.intMin w ≠ 0 := by
  intro zero
  have number := toNat_intMin positive
  have large := Nat.two_pow_pos (w - 1)
  have none_left : (0 : BitVec w).toNat = 0 := by simp
  rw [zero, none_left] at number
  omega

theorem divisions_overflow (positive : 0 < w) : sdiv (BitVec.intMin w) (BitVec.allOnes w) = none ∧
      srem (BitVec.intMin w) (BitVec.allOnes w) = none ∧
      udiv (BitVec.intMin w) (BitVec.allOnes w) ≠ none ∧
      urem (BitVec.intMin w) (BitVec.allOnes w) ≠ none := by
  have ones := allOnes_ne_zero positive
  have overflows : Overflows (BitVec.intMin w) (BitVec.allOnes w) := ⟨rfl, rfl⟩
  rw [udiv, urem, if_neg ones, if_neg ones]
  exact ⟨if_pos (.inr overflows), if_pos (.inr overflows), nofun, nofun⟩

variable {x : BitVec w}

theorem divisions_self (nonzero : x ≠ 0) (small : x ≠ BitVec.allOnes w) :
    udiv x x = some 1 ∧ sdiv x x = some 1 ∧ urem x x = some 0 ∧ srem x x = some 0 := by
  have defined : ¬(x = 0 ∨ Overflows x x) := by
    rintro (zero | overflows)
    · exact nonzero zero
    · exact small overflows.2
  have undivided : (x == 0#w) = false := beq_false_of_ne nonzero
  rw [udiv, sdiv, urem, srem, if_neg nonzero, if_neg defined, if_neg nonzero, if_neg defined]
  simp [BitVec.udiv_self, BitVec.sdiv_self, undivided]

theorem divisions_allOnes (small : x ≠ BitVec.allOnes w) :
    udiv x (BitVec.allOnes w) = some 0 ∧ urem x (BitVec.allOnes w) = some x := by
  have below : x < BitVec.allOnes w := by
    have differ : x.toNat ≠ (BitVec.allOnes w).toNat := fun same => small (BitVec.eq_of_toNat_eq same)
    have range := x.isLt
    rw [BitVec.toNat_allOnes] at differ
    rw [BitVec.lt_def, BitVec.toNat_allOnes]
    omega
  have nonzero : BitVec.allOnes w ≠ 0 := by
    intro zero
    rw [zero] at below
    exact BitVec.not_lt_zero below
  have quotient : x / BitVec.allOnes w = 0#w := BitVec.udiv_eq_zero_iff_eq_zero_or_lt.2 (.inr below)
  rw [udiv, urem, if_neg nonzero, if_neg nonzero, quotient, BitVec.umod_eq_of_lt below]
  exact ⟨rfl, rfl⟩

end Divisions

end IntInstr
