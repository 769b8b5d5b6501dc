import Lucis.Library.Numerals
import Lucis.ValueRange

/-!
The integer literal tokens of the lexer grammar, and the digits that a library parser
takes from one: it stops without notice at the first character that is no digit of its
base.
-/

namespace Lucis.IntLiteral

open Numerals List Option

open ConstExpr (Text Radix digitValue digitsValue)

open ValueRange (Suffix baseOf prefixOf)

section Tokens

abbrev Digit (base : Nat) := { c : Char // digitValue c < base }

/-- `DIGITS`: a digit, and digits that a separator may stand before. -/
structure Digits (base : Nat) where
  first : Digit base
  rest : List (Bool × Digit base)

variable {base : Nat}

def piece (part : Bool × Digit base) : Text :=
  if part.1 then ['_', part.2.val] else [part.2.val]

def Digits.text (ds : Digits base) : Text := ds.first.val :: ds.rest.flatMap piece

def Digits.values (ds : Digits base) : List Nat :=
  digitValue ds.first.val :: ds.rest.map fun part => digitValue part.2.val

def Digits.number (ds : Digits base) : Nat := numeral base ds.values

def Digits.plain (ds : Digits base) : Bool := ds.rest.all fun part => !part.1

def Digits.leading (ds : Digits base) : List Nat :=
  digitValue ds.first.val ::
    (ds.rest.takeWhile fun part => !part.1).map fun part => digitValue part.2.val

/-- `INT_LIT`, `HEX_LIT`, `OCT_LIT` and `BIN_LIT`, and the suffixed tokens, where a separator may
stand before the suffix. -/
structure Token where
  radix : Radix
  upper : Bool
  digits : Digits (baseOf radix)
  suffix : Option (Bool × Suffix)

def tailText : Option (Bool × Suffix) → Text
  | none => []
  | some (separated, suffix) => (if separated then ['_'] else []) ++ suffix.text

def Token.text (t : Token) : Text := prefixOf t.upper t.radix ++ t.digits.text ++ tailText t.suffix

def Token.number (t : Token) : Nat := t.digits.number

end Tokens

section Reading

variable {base : Nat}

variable (ds : Digits base)

theorem values_lt : ∀ d ∈ ds.values, d < base := by
  intro d member
  rcases mem_cons.1 member with rfl | later
  · exact ds.first.property
  · rcases List.mem_map.1 later with ⟨part, _, rfl⟩
    exact part.2.property

theorem leading_prefix : ∃ rest, ds.values = ds.leading ++ rest := by
  refine ⟨(ds.rest.dropWhile fun part => !part.1).map fun part => digitValue part.2.val, ?_⟩
  rw [Digits.values, Digits.leading, cons_append, ← map_append, takeWhile_append_dropWhile]

variable {ds : Digits base}

theorem leading_plain (plain : ds.plain = true) : ds.leading = ds.values := by
  have all : (ds.rest.takeWhile fun part => !part.1) = ds.rest :=
    takeWhile_eq_self_iff.2 fun part member => List.all_eq_true.1 plain part member
  rw [Digits.leading, all, Digits.values]

theorem leading_ne (separated : ds.plain = false) : ds.leading ≠ ds.values := by
  intro same
  have lengths := congrArg List.length same
  simp only [Digits.leading, Digits.values, length_cons, length_map,
    Nat.add_right_cancel_iff] at lengths
  have all : (ds.rest.takeWhile fun part => !part.1) = ds.rest :=
    (List.takeWhile_prefix _).eq_of_length lengths
  have plain : ds.plain = true :=
    List.all_eq_true.2 (takeWhile_eq_self_iff.1 all)
  rw [separated] at plain
  cases plain

theorem leading_number_iff (large : 1 < base) (ds : Digits base) :
    numeral base ds.leading = ds.number ↔ ds.plain = true ∨ ds.number = 0 := by
  rcases leading_prefix ds with ⟨rest, split⟩
  rw [Digits.number, split, numeral_prefix_eq_iff large]
  cases plain : ds.plain with
  | true =>
    have none : rest = [] := by
      rw [leading_plain plain] at split
      exact append_cancel_left (split.symm.trans (append_nil _).symm)
    simp [none]
  | false =>
    have some : rest ≠ [] := by
      rintro rfl
      rw [append_nil] at split
      exact leading_ne plain split.symm
    simp [some]

theorem leading_le (pos : 0 < base) (ds : Digits base) : numeral base ds.leading ≤ ds.number := by
  rcases leading_prefix ds with ⟨rest, split⟩
  rw [Digits.number, split]
  exact numeral_prefix_le pos _ _

theorem separator_value : digitValue '_' = 36 := by decide

variable {limit : Nat}

theorem takeWhile_pieces (bound : limit ≤ 36) (tail : Text)
    (stops : tail.takeWhile (fun c => digitValue c < limit) = [])
    (parts : List (Bool × Digit base)) :
    ((parts.flatMap piece ++ tail).takeWhile fun c => digitValue c < limit).map digitValue =
      ((parts.takeWhile fun part => !part.1).map fun part => digitValue part.2.val).takeWhile
        (· < limit) := by
  induction parts with
  | nil =>
    rw [flatMap_nil, nil_append, stops]
    rfl
  | cons part rest ih =>
    rcases part with ⟨separated, d⟩
    cases separated with
    | true =>
      have out : ¬digitValue '_' < limit := by
        rw [separator_value]
        exact Nat.not_lt_of_le bound
      simp [piece, out]
    | false =>
      by_cases inside : digitValue d.val < limit
      · simpa [piece, inside] using ih
      · simp [piece, inside]

theorem takeWhile_text (bound : limit ≤ 36) (ds : Digits base) (tail : Text)
    (stops : tail.takeWhile (fun c => digitValue c < limit) = []) :
    ((ds.text ++ tail).takeWhile fun c => digitValue c < limit).map digitValue =
      ds.leading.takeWhile (· < limit) := by
  rw [Digits.text, cons_append, Digits.leading]
  by_cases inside : digitValue ds.first.val < limit
  · simp [inside, takeWhile_pieces bound tail stops]
  · simp [inside]

theorem digitsValue_eq {text : Text} (some : (text.takeWhile fun c => digitValue c < limit) ≠ []) :
    digitsValue limit text =
      Option.some (numeral limit ((text.takeWhile fun c => digitValue c < limit).map digitValue)) := by
  unfold digitsValue
  split
  · next none => exact absurd none some
  · rw [numeral, foldl_map]

theorem digitsValue_text (bound : base ≤ 36) (ds : Digits base) (tail : Text)
    (stops : tail.takeWhile (fun c => digitValue c < base) = []) :
    digitsValue base (ds.text ++ tail) = some (numeral base ds.leading) := by
  have taken := takeWhile_text bound ds tail stops
  have whole : ds.leading.takeWhile (· < base) = ds.leading := by
    apply takeWhile_eq_self_iff.mpr
    intro d member
    rcases leading_prefix ds with ⟨rest, split⟩
    have valid := values_lt ds d (split ▸ mem_append_left rest member)
    simpa using valid
  rw [whole] at taken
  rw [digitsValue_eq, taken]
  intro none
  rw [none] at taken
  exact absurd taken.symm (cons_ne_nil _ _)

end Reading

section Evaluators

inductive Reading where
  | nothing
  | value (n : Int)
  | thrown

def evaluateConstExpr (t : Token) : Reading :=
  .value (ConstExpr.intLitValue t.radix t.suffix.isSome t.text).toInt

/-- `tryEvalUSizeRangeExpr` has a branch for `INT_LIT` and for the suffixed tokens. -/
def rangeOf (t : Token) : Option ValueRange.Range :=
  match t.suffix, t.radix with
  | some _, _ => ValueRange.tryEvalSuffixed t.text
  | none, .dec => ValueRange.literalRange t.text
  | none, _ => none

/-- `tryEvalUSizeExpr`: the range of a literal is one number. -/
def tryEvalUSizeExpr (t : Token) : Reading :=
  match rangeOf t with
  | some range => if range.lo = range.hi then .value range.lo else .nothing
  | none => .nothing

/-- `ComptimeInterpreter::evalExpr` has a branch for `INT_LIT` only, and does not guard it. -/
def evalExpr (t : Token) : Reading :=
  match t.suffix, t.radix with
  | none, .dec =>
    match ConstExpr.stoll t.text 10 with
    | some v => .value v.toInt
    | none => .thrown
  | _, _ => .nothing

def Reading.Exact (number : Nat) : Reading → Prop
  | nothing => True
  | value n => n = number
  | thrown => False

@[simp] theorem exact_nothing (number : Nat) : Reading.nothing.Exact number ↔ True := Iff.rfl

@[simp] theorem exact_value (number n : Nat) : (Reading.value n).Exact number ↔ n = number :=
  Int.ofNat_inj

@[simp] theorem exact_zero (number : Nat) : (Reading.value 0).Exact number ↔ number = 0 :=
  Int.ofNat_inj.trans eq_comm

def Agree (t : Token) : Prop :=
  ∀ reading ∈ [evaluateConstExpr t, tryEvalUSizeExpr t, evalExpr t], reading.Exact t.number

end Evaluators

section Suffixes

variable (front : Text)

theorem find_suffix {suffixes : List Text} (some_front : front ≠ []) (suffix : Suffix)
    (unique : ∀ suf ∈ suffixes, suf <:+ suffix.text ∨ suffix.text <:+ suf → suf = suffix.text) :
    (suffixes.find? fun suf => suf.length < (front ++ suffix.text).length &&
        suf.isSuffixOf (front ++ suffix.text)) =
      if suffix.text ∈ suffixes then some suffix.text else none := by
  cases found : suffixes.find? fun suf => suf.length < (front ++ suffix.text).length &&
      suf.isSuffixOf (front ++ suffix.text) with
  | some suf =>
    have among := mem_of_find?_eq_some found
    have matched := find?_some found
    simp only [Bool.and_eq_true, decide_eq_true_eq, isSuffixOf_iff_suffix] at matched
    have own : suf = suffix.text := unique suf among
      (suffix_or_suffix_of_suffix matched.2 (suffix_append front suffix.text))
    subst own
    rw [if_pos among]
  | none =>
    rw [if_neg]
    intro member
    have pos := length_pos_iff.2 some_front
    apply find?_eq_none.1 found suffix.text member
    simp [pos]

theorem strip_unique (suffix : Suffix) (suf : Text) (member : suf ∈ ConstExpr.suffixes)
    (either : suf <:+ suffix.text ∨ suffix.text <:+ suf) : suf = suffix.text := by
  revert suf
  cases suffix <;> decide

theorem stripSuffix_text (some_front : front ≠ []) (suffix : Suffix) :
    ConstExpr.stripSuffix (front ++ suffix.text) =
      if suffix = .uinf then front ++ suffix.text else front := by
  unfold ConstExpr.stripSuffix
  rw [find_suffix front some_front suffix fun suf member => strip_unique suffix suf member]
  cases suffix <;> simp [ConstExpr.suffixes, Suffix.text]

/-- `tryEvalSuffixed` does not know `uinf`. -/
theorem tryEvalSuffixed_text (some_front : front ≠ []) (suffix : Suffix) :
    ValueRange.tryEvalSuffixed (front ++ suffix.text) =
      if suffix = .uinf then none else ValueRange.literalRange front := by
  unfold ValueRange.tryEvalSuffixed
  rw [find_suffix front some_front suffix fun suf member =>
    ValueRange.suffix_unique suffix suf member]
  cases suffix <;> simp [ValueRange.suffixes, Suffix.text]

end Suffixes

section Constants

def tails : List Text := [[], ['_'], ['u', 'i', 'n', 'f'], ['_', 'u', 'i', 'n', 'f']]

variable (t : Token)

theorem text_nonempty : prefixOf t.upper t.radix ++ t.digits.text ≠ [] := by
  rw [Digits.text]
  exact append_ne_nil_of_right_ne_nil _ (cons_ne_nil _ _)

theorem stripped : ∃ rest ∈ tails,
    (if t.suffix.isSome then ConstExpr.stripSuffix t.text else t.text) =
      prefixOf t.upper t.radix ++ (t.digits.text ++ rest) := by
  rcases kind : t.suffix with _ | ⟨separated, suffix⟩
  · exact ⟨[], by decide, by simp [Token.text, tailText, kind]⟩
  · have split : t.text = (prefixOf t.upper t.radix ++ t.digits.text ++
        if separated then ['_'] else []) ++ suffix.text := by
      simp [Token.text, tailText, kind]
    rw [isSome_some, if_pos rfl, split,
      stripSuffix_text _ (append_ne_nil_of_left_ne_nil (text_nonempty t) _)]
    by_cases uinf : suffix = .uinf
    · refine ⟨(if separated then ['_'] else []) ++ suffix.text, ?_, by simp [uinf]⟩
      subst uinf
      cases separated <;> decide
    · refine ⟨if separated then ['_'] else [], ?_, by simp [uinf]⟩
      cases separated <;> decide

theorem tail_stops {limit : Nat} (bound : limit ≤ 16) :
    ∀ rest ∈ tails, rest.takeWhile (fun c => digitValue c < limit) = [] := by
  intro rest member
  have values : digitValue '_' = 36 ∧ digitValue 'u' = 30 := by decide
  simp only [tails, mem_cons, not_mem_nil, or_false] at member
  rcases member with rfl | rfl | rfl | rfl <;>
    simp [values.1, values.2, le_trans bound (by decide : 16 ≤ 30),
      le_trans bound (by decide : 16 ≤ 36)]

variable {base : Nat}

theorem digit_ne_quote (bound : base ≤ 36) (d : Digit base) : d.val ≠ '\'' := by
  intro same
  have value := d.property
  rw [same, show digitValue '\'' = 36 by decide] at value
  exact absurd value (Nat.not_lt_of_le bound)

theorem text_quoteless (bound : base ≤ 36) (ds : Digits base) : ∀ c ∈ ds.text, c ≠ '\'' := by
  intro c member
  rcases mem_cons.1 member with rfl | later
  · exact digit_ne_quote bound ds.first
  · rcases mem_flatMap.1 later with ⟨⟨separated, d⟩, _, inside⟩
    cases separated with
    | true =>
      rcases mem_pair.1 inside with rfl | rfl
      · decide
      · exact digit_ne_quote bound d
    | false =>
      rw [mem_singleton.1 inside]
      exact digit_ne_quote bound d

variable {text : Text}

/-- No separator of the literals is known to `parseIntLiteral`, and a sign or prefix that it
would skip does not stand first. -/
theorem parseIntLiteral_eq {v : Nat} (quoteless : ∀ c ∈ text, c ≠ '\'')
    (head : ∀ c ∈ text.head?, ConstExpr.isPrefixChar c = false)
    (read : digitsValue (ConstExpr.splitPrefix text base).2 (ConstExpr.splitPrefix text base).1 =
      some v) (small : v < 2 ^ 63) : (ConstExpr.parseIntLiteral text base).toInt = v := by
  have clean : (text.filter fun c => !(c == '\'' && base != 16)) = text :=
    filter_eq_self.2 fun c member => by simp [quoteless c member]
  have whole : text.dropWhile ConstExpr.isPrefixChar = text := by
    cases text with
    | nil => rfl
    | cons c rest => simp [head c rfl]
  rw [ConstExpr.parseIntLiteral]
  simp only [clean, whole, ConstExpr.stoll, read, if_pos small, getD_some]
  exact Int64.toInt_ofNat_of_lt small

theorem baseOf_le (radix : Radix) : baseOf radix ≤ 16 := by cases radix <;> decide

theorem prefix_quoteless (upper : Bool) (radix : Radix) : ∀ c ∈ prefixOf upper radix, c ≠ '\'' := by
  cases radix <;> cases upper <;> simp [prefixOf]

theorem tails_quoteless : ∀ rest ∈ tails, ∀ c ∈ rest, c ≠ '\'' := by simp [tails]

variable {c : Char}

theorem decimal_head (digit : digitValue c < 10) : ConstExpr.isPrefixChar c = false := by
  rw [ConstExpr.isPrefixChar, decide_eq_false_iff_not]
  intro member
  have values : ['+', '-', 'x', 'X', 'o', 'O', 'b', 'B'].all (10 ≤ digitValue ·) = true := by decide
  exact absurd digit (Nat.not_lt_of_le (of_decide_eq_true (List.all_eq_true.1 values c member)))

theorem text_head (rest : Text) :
    ∀ c ∈ (prefixOf t.upper t.radix ++ (t.digits.text ++ rest)).head?,
      ConstExpr.isPrefixChar c = false := by
  rcases t with ⟨radix, upper, digits, suffix⟩
  intro c head
  cases radix with
  | dec =>
    simp only [prefixOf, Digits.text, nil_append, cons_append, head?_cons,
      mem_def, Option.some.injEq] at head
    rw [← head]
    exact decimal_head digits.first.property
  | hex | oct | bin =>
    simp only [prefixOf, cons_append, head?_cons, mem_def, Option.some.injEq] at head
    rw [← head]
    decide

/-- What `strtoll` reads from the text without its suffix is the constant. -/
theorem evaluateConstExpr_eq {v : Nat} (small : v < 2 ^ 63) (read : ∀ rest ∈ tails,
      let text := prefixOf t.upper t.radix ++ (t.digits.text ++ rest)
      digitsValue (ConstExpr.splitPrefix text t.radix.base).2
        (ConstExpr.splitPrefix text t.radix.base).1 = some v) : evaluateConstExpr t = .value v := by
  rcases stripped t with ⟨rest, member, same⟩
  rw [evaluateConstExpr, ConstExpr.intLitValue, same]
  refine congrArg Reading.value (parseIntLiteral_eq ?_ (text_head t rest) (read rest member) small)
  intro c inside
  rcases mem_append.1 inside with front | back
  · exact prefix_quoteless _ _ c front
  · rcases mem_append.1 back with digit | tail
    · exact text_quoteless (le_trans (baseOf_le _) (by decide)) t.digits c digit
    · exact tails_quoteless rest member c tail

theorem zero_of_value (zero : digitValue c = 0) : c = '0' := by
  unfold digitValue at zero
  split at zero
  · next range =>
      apply Char.ext
      apply UInt32.toNat_inj.mp
      have low : '0'.val.toNat ≤ c.val.toNat := range.1
      have value : c.val.toNat - '0'.val.toNat = 0 := zero
      omega
  · split at zero
    · omega
    · split at zero <;> omega

theorem second_char (bound : base ≤ 16) (parts : List (Bool × Digit base)) :
    ∀ rest ∈ tails, ∀ c ∈ (parts.flatMap piece ++ rest).head?, ¬(c = 'x' ∨ c = 'X') := by
  intro rest member c head
  cases parts with
  | nil =>
    have first : c ∈ rest.head? := head
    simp only [tails, mem_cons, not_mem_nil, or_false] at member
    rcases member with rfl | rfl | rfl | rfl <;> cases first <;> decide
  | cons part parts =>
    rcases part with ⟨separated, d⟩
    cases separated with
    | true =>
      simp only [piece, flatMap_cons, if_true, cons_append, head?_cons,
        mem_def, Option.some.injEq] at head
      rw [← head]
      decide
    | false =>
      simp only [piece, flatMap_cons, Bool.false_eq_true, if_false, cons_append,
        head?_cons, mem_def, Option.some.injEq] at head
      have value := d.property
      rintro (rfl | rfl) <;> rw [head] at value
      · exact absurd value (Nat.not_lt_of_le (le_trans bound (by decide)))
      · exact absurd value (Nat.not_lt_of_le (le_trans bound (by decide)))

theorem splitPrefix_zero (second : ∀ c ∈ text.head?, ¬(c = 'x' ∨ c = 'X')) :
    ConstExpr.splitPrefix ('0' :: text) 0 = ('0' :: text, 8) := by
  rcases text with _ | ⟨x, _ | ⟨d, rest⟩⟩
  · rfl
  · rfl
  · simp [ConstExpr.splitPrefix, second x rfl]

theorem splitPrefix_other (other : c ≠ '0') (text : Text) :
    ConstExpr.splitPrefix (c :: text) 0 = (c :: text, 10) := by
  unfold ConstExpr.splitPrefix
  split
  · next same => cases same; exact absurd rfl other
  · next same => cases same; exact absurd rfl other
  · rfl

end Constants

section Agreement

variable {upper : Bool} {suffix : Option (Bool × Suffix)} {digits : Digits (baseOf .dec)}

theorem constant_decimal (nonzero : digitValue digits.first.val ≠ 0)
    (small : numeral 10 digits.leading < 2 ^ 63) :
    evaluateConstExpr ⟨.dec, upper, digits, suffix⟩ = .value (numeral 10 digits.leading : Nat) := by
  apply evaluateConstExpr_eq _ small
  intro rest member
  have other : digits.first.val ≠ '0' := fun same => nonzero (by rw [same]; decide)
  simp only [prefixOf, nil_append, Radix.base, Digits.text, cons_append, splitPrefix_other other]
  exact digitsValue_text (by decide) digits rest (tail_stops (by decide) rest member)

/-- A leading zero has `strtoll` read the other digits as octal ones. -/
theorem constant_octal (zero : digitValue digits.first.val = 0)
    (small : numeral 8 (digits.leading.takeWhile (· < 8)) < 2 ^ 63) :
    evaluateConstExpr ⟨.dec, upper, digits, suffix⟩ =
      .value (numeral 8 (digits.leading.takeWhile (· < 8)) : Nat) := by
  apply evaluateConstExpr_eq _ small
  intro rest member
  have taken := takeWhile_text (by decide : 8 ≤ 36) digits rest (tail_stops (by decide) rest member)
  have read : digitsValue 8 (digits.text ++ rest) =
      some (numeral 8 (digits.leading.takeWhile (· < 8))) := by
    rw [← taken]
    apply digitsValue_eq
    simp [Digits.text, zero]
  simp only [prefixOf, nil_append, Radix.base, Digits.text, cons_append] at read ⊢
  rw [zero_of_value zero] at read ⊢
  rw [splitPrefix_zero (second_char (by decide) digits.rest rest member)]
  exact read

theorem constant_hex {digits} (small : numeral 16 digits.leading < 2 ^ 63) :
    evaluateConstExpr ⟨.hex, upper, digits, suffix⟩ = .value (numeral 16 digits.leading : Nat) := by
  apply evaluateConstExpr_eq _ small
  intro rest member
  have digit : digitValue digits.first.val < 16 := digits.first.property
  have split : ConstExpr.splitPrefix (prefixOf upper .hex ++ (digits.text ++ rest)) 16 =
      (digits.text ++ rest, 16) := by
    cases upper <;> simp [prefixOf, Digits.text, ConstExpr.splitPrefix, digit]
  simp only [Radix.base, split]
  exact digitsValue_text (by decide) digits rest (tail_stops (by decide) rest member)

theorem digitsValue_zero {limit : Nat} {letter : Char} (pos : 0 < limit)
    (out : ¬digitValue letter < limit) (text : Text) :
    digitsValue limit ('0' :: letter :: text) = some 0 := by
  have zero : digitValue '0' = 0 := by decide
  have taken : (('0' :: letter :: text).takeWhile fun c => digitValue c < limit) = ['0'] := by
    rw [takeWhile_cons_of_pos (by rw [zero]; exact decide_eq_true pos),
      takeWhile_cons_of_neg (by rw [decide_eq_true_eq]; exact out)]
  rw [digitsValue_eq (by rw [taken]; exact cons_ne_nil _ _), taken, map_singleton, zero]
  simp [numeral]

theorem constant_oct {digits} :
    evaluateConstExpr ⟨.oct, upper, digits, suffix⟩ = .value (0 : Nat) := by
  apply evaluateConstExpr_eq _ (by decide)
  intro rest _
  have letter : ¬digitValue (if upper then 'O' else 'o') < 8 := by cases upper <;> decide
  have split : ConstExpr.splitPrefix (prefixOf upper .oct ++ (digits.text ++ rest)) 8 =
      (prefixOf upper .oct ++ (digits.text ++ rest), 8) := by
    simp [prefixOf, Digits.text, ConstExpr.splitPrefix]
  simp only [Radix.base, split]
  exact digitsValue_zero (by decide) letter _

theorem constant_bin {digits} :
    evaluateConstExpr ⟨.bin, upper, digits, suffix⟩ = .value (0 : Nat) := by
  apply evaluateConstExpr_eq _ (by decide)
  intro rest _
  have letter : ¬digitValue (if upper then 'B' else 'b') < 2 := by cases upper <;> decide
  have split : ConstExpr.splitPrefix (prefixOf upper .bin ++ (digits.text ++ rest)) 2 =
      (prefixOf upper .bin ++ (digits.text ++ rest), 2) := by
    simp [prefixOf, Digits.text, ConstExpr.splitPrefix]
  simp only [Radix.base, split]
  exact digitsValue_zero (by decide) letter _

variable {base : Nat}

theorem digit_ne_separator (bound : base ≤ 36) (d : Digit base) : d.val ≠ '_' := by
  intro same
  have value := d.property
  rw [same, separator_value] at value
  exact absurd value (Nat.not_lt_of_le bound)

theorem filter_pieces (bound : base ≤ 36) (parts : List (Bool × Digit base)) :
    (parts.flatMap piece).filter (· ≠ '_') = parts.map fun part => part.2.val := by
  induction parts with
  | nil => rfl
  | cons part rest ih =>
    rcases part with ⟨separated, d⟩
    have digit := digit_ne_separator bound d
    rw [flatMap_cons, filter_append, ih]
    cases separated <;> simp [piece, digit]

theorem literalRange_decimal (small : digits.number < 2 ^ 63)
    {separator : Text} (member : separator ∈ [[], ['_']]) :
    ∃ fits, ValueRange.literalRange (digits.text ++ separator) =
      some (.single digits.number fits) := by
  have clean : (digits.text ++ separator).filter (· ≠ '_') =
      digits.first.val :: digits.rest.map fun part => part.2.val := by
    have nothing : separator.filter (· ≠ '_') = [] := by
      revert separator
      decide
    rw [filter_append, nothing, append_nil, Digits.text,
      filter_cons_of_pos (by simpa using digit_ne_separator (by decide) digits.first),
      filter_pieces (by decide)]
  have values : (digits.first.val :: digits.rest.map fun part => part.2.val).map digitValue =
      digits.values := by
    simp [Digits.values]
  have all : ((digits.first.val :: digits.rest.map fun part => part.2.val).takeWhile
      fun c => digitValue c < 10) = digits.first.val :: digits.rest.map fun part => part.2.val := by
    apply takeWhile_eq_self_iff.mpr
    intro c inside
    have valid := values_lt digits (digitValue c) (values ▸ List.mem_map_of_mem inside)
    exact decide_eq_true valid
  have read : digitsValue 10 ((digits.text ++ separator).filter (· ≠ '_')) =
      some digits.number := by
    rw [clean, digitsValue_eq (by rw [all]; exact cons_ne_nil _ _), all, values]
    rfl
  have fits : digits.number ≤ ValueRange.usizeMax := le_of_lt (lt_trans small (by decide))
  refine ⟨fits, ?_⟩
  simp only [ValueRange.literalRange, read, dif_pos fits]

theorem rangeOf_suffixed (radix : Radix) (digits : Digits (baseOf radix)) (separated : Bool)
    (own : Suffix) : rangeOf ⟨radix, upper, digits, some (separated, own)⟩ =
      if own = .uinf then none
      else ValueRange.literalRange
        (prefixOf upper radix ++ (digits.text ++ if separated then ['_'] else [])) := by
  have some_text : digits.text ≠ [] := cons_ne_nil _ _
  rw [← tryEvalSuffixed_text _ (append_ne_nil_of_right_ne_nil _
    (append_ne_nil_of_left_ne_nil some_text _))]
  simp [rangeOf, Token.text, tailText]

theorem range_single {t : Token} {n : Nat} {fits}
    (found : rangeOf t = some (.single n fits)) : tryEvalUSizeExpr t = .value n := by
  simp only [tryEvalUSizeExpr, found, NatInterval.single, if_true]

theorem range_decimal (small : digits.number < 2 ^ 63) :
    (tryEvalUSizeExpr ⟨.dec, upper, digits, suffix⟩).Exact digits.number := by
  cases suffix with
  | none =>
    rcases literalRange_decimal small (mem_cons_self (a := [])) with ⟨fits, range⟩
    have found : rangeOf ⟨.dec, upper, digits, none⟩ = some (.single digits.number fits) := by
      simpa [rangeOf, Token.text, prefixOf, tailText] using range
    rw [range_single found]
    rfl
  | some tail =>
    rcases tail with ⟨separated, own⟩
    have between : (if separated then ['_'] else []) ∈ [[], ['_']] := by
      cases separated <;> decide
    rcases literalRange_decimal small between with ⟨fits, range⟩
    have found : rangeOf ⟨.dec, upper, digits, some (separated, own)⟩ =
        if own = .uinf then none else some (.single digits.number fits) := by
      rw [rangeOf_suffixed, prefixOf, nil_append, range]
    by_cases uinf : own = .uinf
    · rw [if_pos uinf] at found
      simp [tryEvalUSizeExpr, found]
    · rw [if_neg uinf] at found
      rw [range_single found]
      rfl

theorem range_prefixed {radix : Radix} (other : radix ≠ .dec) {digits} :
    tryEvalUSizeExpr ⟨radix, upper, digits, suffix⟩ =
      match suffix with
      | none => .nothing
      | some (_, own) => if own = .uinf then .nothing else .value (0 : Nat) := by
  cases suffix with
  | none => cases radix with
    | dec => exact absurd rfl other
    | hex | oct | bin => rfl
  | some tail =>
    rcases tail with ⟨separated, own⟩
    have range (text : Text) : ∃ fits, ValueRange.literalRange (prefixOf upper radix ++ text) =
        some (.single 0 fits) := by
      refine ⟨Nat.zero_le _, ?_⟩
      cases radix with
      | dec => exact absurd rfl other
      | hex | oct | bin =>
        cases upper <;>
          simp [ValueRange.literalRange, prefixOf, digitsValue, digitValue]
    rcases range (digits.text ++ if separated then ['_'] else []) with ⟨fits, zero⟩
    have found : rangeOf ⟨radix, upper, digits, some (separated, own)⟩ =
        if own = .uinf then none else some (.single 0 fits) := by
      rw [rangeOf_suffixed, zero]
    by_cases uinf : own = .uinf
    · rw [if_pos uinf] at found
      subst uinf
      simp [tryEvalUSizeExpr, found]
    · rw [if_neg uinf] at found
      rw [range_single found]
      simp [uinf]

theorem evalExpr_decimal (small : numeral 10 digits.leading < 2 ^ 63) :
    evalExpr ⟨.dec, upper, digits, none⟩ = .value (numeral 10 digits.leading : Nat) := by
  have split (text : Text) : ConstExpr.splitPrefix text 10 = (text, 10) := by
    unfold ConstExpr.splitPrefix
    split <;> simp
  have read : digitsValue 10 digits.text = some (numeral 10 digits.leading) := by
    have all := digitsValue_text (by decide) digits [] rfl
    rwa [append_nil] at all
  have text : Token.text ⟨.dec, upper, digits, none⟩ = digits.text := by
    simp [Token.text, prefixOf, tailText]
  simp only [evalExpr, text, ConstExpr.stoll, split, read, if_pos small]
  exact congrArg Reading.value (Int64.toInt_ofNat_of_lt small)

theorem decimal_octal_le (digits : Digits (baseOf .dec)) :
    numeral 10 (digits.leading.takeWhile (· < 8)) ≤ numeral 10 digits.leading := by
  rcases takeWhile_prefix (p := (· < 8)) (l := digits.leading) with ⟨rest, split⟩
  calc numeral 10 (digits.leading.takeWhile (· < 8))
      ≤ numeral 10 (digits.leading.takeWhile (· < 8) ++ rest) := numeral_prefix_le (by decide) _ _
    _ = numeral 10 digits.leading := by rw [split]

theorem octal_number_iff (digits : Digits (baseOf .dec)) :
    numeral 8 (digits.leading.takeWhile (· < 8)) = digits.number ↔
      digits.number = 0 ∨ digits.plain = true ∧ digits.number < 8 := by
  have octal : ∀ d ∈ digits.leading.takeWhile (· < 8), d < 8 := by
    intro d member
    have inside := mem_takeWhile_imp (p := (· < 8)) member
    simpa using inside
  have in_leading := decimal_octal_le digits
  have in_base := numeral_base_le (show 8 ≤ 10 by decide) (digits.leading.takeWhile (· < 8))
  have in_number : numeral 10 digits.leading ≤ digits.number := leading_le (by decide) digits
  constructor
  · intro same
    have below : numeral 10 (digits.leading.takeWhile (· < 8)) < 8 :=
      (numeral_base_eq_iff (by decide) (by decide) octal).1 (by omega)
    have whole : numeral 10 digits.leading = digits.number := by omega
    rcases (leading_number_iff (by decide) digits).1 whole with plain | zero
    · exact .inr ⟨plain, by omega⟩
    · exact .inl zero
  · rintro (zero | ⟨plain, below⟩)
    · omega
    · have small : ∀ d ∈ digits.values, d < 8 := fun d member =>
        lt_of_le_of_lt (digit_le_numeral (by decide) member) below
      have all : digits.leading.takeWhile (· < 8) = digits.values := by
        rw [leading_plain plain]
        exact takeWhile_eq_self_iff.2 fun d member => decide_eq_true (small d member)
      rw [all]
      exact (numeral_base_eq_iff (by decide) (by decide) small).2 below

theorem number_ne_zero (nonzero : digitValue digits.first.val ≠ 0) : digits.number ≠ 0 := by
  intro zero
  have below : digitValue digits.first.val ≤ digits.number :=
    digit_le_numeral (by decide) (.head _)
  omega

/-- The tokens that the three readers agree on: no separator stands before a digit that counts,
no leading zero makes a decimal number octal, and behind a prefix the range evaluator must not
know the suffix. -/
def Uniform (t : Token) : Prop :=
  t.number = 0 ∨ t.digits.plain = true ∧
    match t.radix with
    | .dec => digitValue t.digits.first.val ≠ 0 ∨ t.number < 8
    | .hex => ∀ tail ∈ t.suffix, tail.2 = .uinf
    | .oct | .bin => False

/-- The tokens that `evaluateConstExpr` reads to their end, in their base. -/
def ReadWhole (t : Token) : Prop :=
  t.number = 0 ∨ t.digits.plain = true ∧
    match t.radix with
    | .dec => digitValue t.digits.first.val ≠ 0 ∨ t.number < 8
    | .hex => True
    | .oct | .bin => False

theorem leading_small {n base : Nat} (pos : 0 < base) {digits : Digits base}
    (small : digits.number < n) : numeral base digits.leading < n :=
  lt_of_le_of_lt (leading_le pos digits) small

theorem constant_iff (t : Token) (small : t.number < 2 ^ 63) :
    (evaluateConstExpr t).Exact t.number ↔ ReadWhole t := by
  rcases t with ⟨radix, upper, digits, suffix⟩
  cases radix with
  | dec =>
    by_cases zero : digitValue digits.first.val = 0
    · have octal_small : numeral 8 (digits.leading.takeWhile (· < 8)) < 2 ^ 63 := by
        have in_base := numeral_base_le (show 8 ≤ 10 by decide) (digits.leading.takeWhile (· < 8))
        have in_leading := decimal_octal_le digits
        have in_number : numeral 10 digits.leading < 2 ^ 63 := leading_small (by decide) small
        omega
      rw [constant_octal zero octal_small, ReadWhole]
      simpa [zero, Token.number] using octal_number_iff digits
    · rw [constant_decimal zero (leading_small (by decide) small), ReadWhole]
      have other := number_ne_zero zero
      have exact_iff : numeral 10 digits.leading = digits.number ↔ _ :=
        leading_number_iff (by decide) digits
      simpa [zero, Token.number, other] using exact_iff
  | hex =>
    have whole : numeral 16 digits.leading = digits.number ↔ _ :=
      leading_number_iff (by decide) digits
    rw [constant_hex (leading_small (by decide) small), ReadWhole]
    simpa [Token.number, or_comm] using whole
  | oct =>
    simp [constant_oct, ReadWhole]
  | bin =>
    simp [constant_bin, ReadWhole]

theorem agree_decimal (small : digits.number < 2 ^ 63) :
    Agree ⟨.dec, upper, digits, suffix⟩ ↔ Uniform ⟨.dec, upper, digits, suffix⟩ := by
  constructor
  · intro agree
    exact (constant_iff ⟨.dec, upper, digits, suffix⟩ small).1 (agree _ (by simp))
  · intro uniform reading member
    simp only [mem_cons, not_mem_nil, or_false] at member
    rcases member with rfl | rfl | rfl
    · exact (constant_iff ⟨.dec, upper, digits, suffix⟩ small).2 uniform
    · exact range_decimal small
    · cases suffix with
      | some _ => trivial
      | none =>
        have whole : numeral 10 digits.leading = digits.number := by
          refine (leading_number_iff (by decide) digits).2 ?_
          rcases uniform with zero | ⟨plain, _⟩
          · exact .inr zero
          · exact .inl plain
        rw [evalExpr_decimal (leading_small (by decide) small)]
        exact congrArg Int.ofNat whole

theorem agree_hex {digits} (small : digits.number < 2 ^ 63) :
    Agree ⟨.hex, upper, digits, suffix⟩ ↔ Uniform ⟨.hex, upper, digits, suffix⟩ := by
  have leading_small : numeral 16 digits.leading < 2 ^ 63 :=
    lt_of_le_of_lt (leading_le (by decide) digits) small
  have whole : numeral 16 digits.leading = digits.number ↔ _ :=
    leading_number_iff (by decide) digits
  have interpreted : evalExpr ⟨.hex, upper, digits, suffix⟩ = .nothing := by
    cases suffix <;> rfl
  simp only [Agree, forall_mem_cons, constant_hex leading_small,
    range_prefixed (show Radix.hex ≠ .dec by decide), interpreted, Uniform, Token.number]
  rcases suffix with _ | ⟨separated, own⟩
  · simp [whole, or_comm]
  · by_cases uinf : own = .uinf
    · simp [whole, or_comm, uinf]
    · simp [whole, uinf]
      omega

theorem agree_oct {digits} :
    Agree ⟨.oct, upper, digits, suffix⟩ ↔ Uniform ⟨.oct, upper, digits, suffix⟩ := by
  have interpreted : evalExpr ⟨.oct, upper, digits, suffix⟩ = .nothing := by
    cases suffix <;> rfl
  simp only [Agree, forall_mem_cons, constant_oct,
    range_prefixed (show Radix.oct ≠ .dec by decide), interpreted, Uniform, Token.number]
  rcases suffix with _ | ⟨separated, own⟩
  · simp
  · by_cases uinf : own = .uinf <;> simp [uinf]

theorem agree_bin {digits} :
    Agree ⟨.bin, upper, digits, suffix⟩ ↔ Uniform ⟨.bin, upper, digits, suffix⟩ := by
  have interpreted : evalExpr ⟨.bin, upper, digits, suffix⟩ = .nothing := by
    cases suffix <;> rfl
  simp only [Agree, forall_mem_cons, constant_bin,
    range_prefixed (show Radix.bin ≠ .dec by decide), interpreted, Uniform, Token.number]
  rcases suffix with _ | ⟨separated, own⟩
  · simp
  · by_cases uinf : own = .uinf <;> simp [uinf]

/-- The three readers agree on a token exactly where it is uniform. -/
theorem literal_agree_iff (t : Token) (small : t.number < 2 ^ 63) : Agree t ↔ Uniform t := by
  rcases t with ⟨radix, upper, digits, suffix⟩
  cases radix with
  | dec => exact agree_decimal small
  | hex => exact agree_hex small
  | oct => exact agree_oct
  | bin => exact agree_bin

/-- `1_000` -/
def thousand : Token where
  radix := .dec
  upper := false
  digits := ⟨⟨'1', by decide⟩, [(true, ⟨'0', by decide⟩), (false, ⟨'0', by decide⟩),
    (false, ⟨'0', by decide⟩)]⟩
  suffix := none

/-- `0x1F` -/
def thirtyOne : Token where
  radix := .hex
  upper := false
  digits := ⟨⟨'1', by decide⟩, [(false, ⟨'F', by decide⟩)]⟩
  suffix := none

theorem literal_agree_thirtyOne : Agree thirtyOne :=
  (literal_agree_iff thirtyOne (by decide)).mpr (.inr ⟨by decide, by intro _ member; cases member⟩)

/-- The constant evaluator and the interpreter read the 1 of `1_000`. -/
theorem thousand_differs : thousand.number = 1000 ∧ ¬Agree thousand := by
  refine ⟨by decide, ?_⟩
  intro agree
  have constant : (evaluateConstExpr thousand).Exact 1000 := agree _ (.head _)
  have read : evaluateConstExpr thousand = .value (1 : Nat) := by rfl
  rw [read, exact_value] at constant
  omega

end Agreement

end Lucis.IntLiteral
