import Lucis.ValueRange

/-!
`evalEnumDiscExpr` of IRBuilder/IRGen_helpers.h beside `Checker::tryEvalUSizeExpr`, which
has validated the expression. The generator looks through casts and parentheses, reads
a literal and takes 0 for everything else.
-/

namespace Lucis.EnumCodegen

open Option

open ConstExpr (Text digitsValue)
open ValueRange (Expr Locals Range suffixes usizeMax literalRange tryEvalSuffixed
  tryEvalUSizeRangeExpr)

/-- `std::stoull` on a text without its separators; `none` where it throws. -/
def stoull (text : Text) : Option Nat :=
  match digitsValue 10 (text.filter (· ≠ '_')) with
  | some v => if v ≤ usizeMax then some v else none
  | none => none

/-- `stripSuffix`: `some none` where no suffix of the list ends the text. -/
def stripSuffix (text : Text) : Option (Option Nat) :=
  match suffixes.find? fun suf => suf.length < text.length && suf.isSuffixOf text with
  | some suf => (stoull (text.take (text.length - suf.length))).map some
  | none => some none

/-- `none` where an exception leaves the function. -/
def evalEnumDiscExpr : Expr → Option Nat
  | .cast _ e => evalEnumDiscExpr e
  | .paren e => evalEnumDiscExpr e
  | .intLit digits => stoull digits.chars
  | .suffixedLit lit => (stripSuffix lit.text).map fun v => v.getD 0
  | _ => some 0

def tryEvalUSizeExpr (locals : Locals) (e : Expr) : Option Nat :=
  match tryEvalUSizeRangeExpr locals e with
  | some range => if range.lo = range.hi then some range.lo else none
  | none => none

def literal : Expr → Bool
  | .cast _ e => literal e
  | .paren e => literal e
  | .intLit _ => true
  | .suffixedLit _ => true
  | _ => false

/-- An expression that comes to 0: a sum of such, a difference of equals, a product with
such a factor; a variable or a literal that the checker knows to be 0. -/
def Vanishes (locals : Locals) : Expr → Prop
  | .cast _ e => Vanishes locals e
  | .paren e => Vanishes locals e
  | .addSub .plus _ l r => Vanishes locals l ∧ Vanishes locals r
  | .addSub .minus _ l r => ∃ v, tryEvalUSizeExpr locals l = some v ∧
      tryEvalUSizeExpr locals r = some v
  | .mul _ _ l r => Vanishes locals l ∨ Vanishes locals r
  | e => tryEvalUSizeExpr locals e = some 0

section Agreement

variable {locals : Locals} {e : Expr} {range : Range} {v : Nat}

theorem value_of_range (known : tryEvalUSizeRangeExpr locals e = some range) :
    tryEvalUSizeExpr locals e = some v ↔ range.lo = v ∧ range.hi = v := by
  rw [tryEvalUSizeExpr, known]
  simp only
  split
  · next one => rw [some_inj, ← one, and_self]
  · next several =>
      constructor
      · exact fun found => by cases found
      · rintro ⟨low, high⟩
        exact absurd (low.trans high.symm) several

theorem range_of_value (accepted : tryEvalUSizeExpr locals e = some v) :
    ∃ range, tryEvalUSizeRangeExpr locals e = some range ∧ range.lo = v ∧ range.hi = v := by
  cases known : tryEvalUSizeRangeExpr locals e with
  | none =>
    rw [tryEvalUSizeExpr, known] at accepted
    cases accepted
  | some range => exact ⟨range, rfl, (value_of_range known).1 accepted⟩

theorem zero_of_range (known : tryEvalUSizeRangeExpr locals e = some range) :
    tryEvalUSizeExpr locals e = some 0 ↔ range.hi = 0 := by
  rw [value_of_range known]
  have ordered := range.ordered
  constructor
  · exact fun both => both.2
  · exact fun high => ⟨by omega, high⟩

theorem add_bounds {a b c : Range} (sum : a.add b = some c) :
    c.lo = a.lo + b.lo ∧ c.hi = a.hi + b.hi := by
  unfold NatInterval.add at sum
  split at sum
  · cases sum
  · split at sum
    · cases sum
    · cases sum
      exact ⟨rfl, rfl⟩

theorem sub_bounds {a b c : Range} (difference : a.sub b = some c) :
    b.hi ≤ a.lo ∧ c.lo = a.lo - b.hi ∧ c.hi = a.hi - b.lo := by
  unfold NatInterval.sub at difference
  split at difference
  · cases difference
  · next fits =>
      cases difference
      exact ⟨Nat.le_of_not_lt fits, rfl, rfl⟩

theorem mul_bounds {a b c : Range} (product : a.mul b = some c) :
    c.lo = a.lo * b.lo ∧ c.hi = a.hi * b.hi := by
  unfold NatInterval.mul at product
  split at product
  · cases product
  · split at product
    · cases product
    · cases product
      exact ⟨rfl, rfl⟩

theorem vanishes_iff (known : tryEvalUSizeRangeExpr locals e = some range) :
    Vanishes locals e ↔ range.hi = 0 := by
  induction e generalizing range with
  | cast ty e ih => exact ih known
  | paren e ih => exact ih known
  | intLit digits => exact zero_of_range known
  | suffixedLit lit => exact zero_of_range known
  | ident name => exact zero_of_range known
  | other token => cases known
  | addSub op ty l r ihl ihr =>
    obtain ⟨a, left, rest⟩ := bind_eq_some_iff.1 known
    obtain ⟨b, right, result⟩ := bind_eq_some_iff.1 rest
    cases op with
    | plus =>
      have bounds := add_bounds result
      rw [Vanishes, ihl left, ihr right]
      omega
    | minus =>
      have bounds := sub_bounds result
      have ordered := a.ordered
      have other := b.ordered
      simp only [Vanishes, value_of_range left, value_of_range right]
      constructor
      · rintro ⟨v, ⟨_, high⟩, low, _⟩
        omega
      · intro zero
        exact ⟨a.lo, ⟨rfl, by omega⟩, by omega, by omega⟩
  | mul op ty l r ihl ihr =>
    cases op with
    | star =>
      obtain ⟨a, left, rest⟩ := bind_eq_some_iff.1 known
      obtain ⟨b, right, result⟩ := bind_eq_some_iff.1 rest
      rw [Vanishes, ihl left, ihr right, (mul_bounds result).2, Nat.mul_eq_zero]
    | slash => cases known
    | percent => cases known

theorem stoull_of_range {text : Text} (known : literalRange text = some range) :
    stoull text = some range.lo := by
  unfold literalRange at known
  unfold stoull
  cases digits : digitsValue 10 (text.filter (· ≠ '_')) with
  | none =>
    rw [digits] at known
    cases known
  | some v =>
    rw [digits] at known
    simp only at known ⊢
    split at known
    · next fits =>
        cases known
        exact if_pos fits
    · cases known

theorem literal_read (is_literal : literal e = true)
    (accepted : tryEvalUSizeExpr locals e = some v) : evalEnumDiscExpr e = some v := by
  induction e with
  | cast ty e ih => exact ih is_literal accepted
  | paren e ih => exact ih is_literal accepted
  | intLit digits =>
    obtain ⟨range, known, low, _⟩ := range_of_value accepted
    rw [evalEnumDiscExpr, stoull_of_range known, low]
  | suffixedLit lit =>
    obtain ⟨range, known, low, _⟩ := range_of_value accepted
    rw [tryEvalUSizeRangeExpr, tryEvalSuffixed] at known
    rw [evalEnumDiscExpr, stripSuffix]
    cases found : suffixes.find? fun suf =>
        suf.length < lit.text.length && suf.isSuffixOf lit.text with
    | none =>
      rw [found] at known
      cases known
    | some suf =>
      rw [found] at known
      simp only [stoull_of_range known, map_some, getD_some, low]
  | ident name | other token => cases is_literal
  | addSub op ty l r | mul op ty l r => cases is_literal

theorem no_literal_zero (other : literal e = false) : evalEnumDiscExpr e = some 0 := by
  induction e with
  | cast ty e ih => exact ih other
  | paren e ih => exact ih other
  | intLit digits | suffixedLit lit => cases other
  | ident name | addSub op ty l r | mul op ty l r | other token => rfl

/-- The generator gives an accepted discriminant the checker's value just if it is a
literal or comes to 0. -/
theorem discriminants_agree_iff (locals : Locals) (e : Expr) (v : Nat)
    (accepted : tryEvalUSizeExpr locals e = some v) (_ : v < 2 ^ 32) :
    evalEnumDiscExpr e = some v ↔ literal e = true ∨ Vanishes locals e := by
  obtain ⟨range, known, _, high⟩ := range_of_value accepted
  rw [vanishes_iff known, high]
  cases is_literal : literal e with
  | true => simp only [literal_read is_literal accepted, true_or]
  | false =>
    rw [no_literal_zero is_literal, some_inj]
    simp only [Bool.false_eq_true, false_or]
    exact eq_comm

def digit (c : Char) (valid : ConstExpr.digitValue c < 10) (plain : c ≠ '_') : Expr :=
  .intLit ⟨[c], ValueRange.digit_chars_valid valid, ValueRange.digit_chars_nonempty plain⟩

theorem one_digit : ConstExpr.digitValue '1' < 10 := by decide

theorem two_digit : ConstExpr.digitValue '2' < 10 := by decide

/-- `A = 1 + 2` -/
def onePlusTwo : Expr :=
  .addSub .plus ⟨32, true⟩ (digit '1' one_digit (by decide)) (digit '2' two_digit (by decide))

theorem sum_is_zero :
    ¬ ∀ locals e v, tryEvalUSizeExpr locals e = some v → v < 2 ^ 32 → evalEnumDiscExpr e = some v := by
  intro agree
  have same := agree (fun _ => none) onePlusTwo 3 (by decide) (by decide)
  exact absurd same (by decide)

theorem sum_refuted : ¬ (literal onePlusTwo = true ∨ Vanishes (fun _ => none) onePlusTwo) := by
  intro fine
  have same := (discriminants_agree_iff (fun _ => none) onePlusTwo 3 (by decide) (by decide)).mpr fine
  exact absurd same (by decide)

end Agreement

end Lucis.EnumCodegen
