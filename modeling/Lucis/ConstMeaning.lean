import Lucis.IntLiteral
import Lucis.StringLiteral

/-!
What `evaluateConstExpr` makes of a closed integer, boolean and string expression, against its
standard meaning: a number is what its token is written for, a string is what is emitted for it,
and every node applies its own operator.
-/

namespace Lucis.ConstMeaning

open ConstExpr

open ValueRange (baseOf prefixOf)

open IntLiteral (Token ReadWhole tailText)

open StringLiteral (visitStrLitExpr strToken Common)

open Numerals (numeral)

section Meaning

/-! The standard meaning: every node applies its own operator to the values of its operands.
A difference of strings and a ternary on a string have none. -/

def mulValue (op : MulOp) : Value → Value → Option Value
  | .int a, .int b => intMul op a b
  | _, _ => none

def addValue (op : AddOp) : Value → Value → Option Value
  | .int a, .int b => some (intAdd op a b)
  | .str a, .str b => if op = .plus then some (.str (a ++ b)) else none
  | _, _ => none

def relValue (op : RelOp) : Value → Value → Option Value
  | .int a, .int b => some (.bool (intRel op a b))
  | _, _ => none

def eqValue (op : EqOp) (a b : Value) : Option Value :=
  (sameValue a b).map (eqResult op)

def truth : Value → Option Bool
  | .bool v => some v
  | .int v => some (v ≠ 0)
  | .str _ => none

/-- The number that a token is written for: what is left of it without its prefix and separators,
up to the suffix, is read in the base of its radix. -/
def written (radix : Radix) (token : Text) : Nat :=
  let digits := (token.drop (prefixOf false radix).length).filter (· ≠ '_')
  numeral (baseOf radix) ((digits.takeWhile fun c => digitValue c < baseOf radix).map digitValue)

/-- No `Int64` is the value of a larger number; a string is the bytes that are emitted for it. -/
def meaning : Expr → Option Value
  | .intLit radix _ token =>
    if written radix token < 2 ^ 63 then some (.int (Int64.ofNat (written radix token))) else none
  | .boolLit token => some (.bool (token = ['t', 'r', 'u', 'e']))
  | .strLit token => some (.str (visitStrLitExpr token))
  | .charLit _ => none
  | .nullLit => none
  | .paren e => meaning e
  | .neg e => (meaning e).bind negValue
  | .logicalNot e => (meaning e).bind notValue
  | .bitNot e => (meaning e).bind bitNotValue
  | .mul op l r => evalBinary (meaning l) (meaning r) (mulValue op)
  | .addSub op l r => evalBinary (meaning l) (meaning r) (addValue op)
  | .rel op l r => evalBinary (meaning l) (meaning r) (relValue op)
  | .eq op l r => evalBinary (meaning l) (meaning r) (eqValue op)
  | .plain op l r => evalBinary (meaning l) (meaning r) (plainValue op)
  | .ternary c t e =>
    ((meaning c).bind truth).bind fun cond => if cond then meaning t else meaning e

/-- Of the branches of a ternary, what holds of the one that its condition leads to. -/
def Taken (cond : Option Value) (t e : Prop) : Prop :=
  match cond with
  | some v => if ConstExpr.isTrue v then t else e
  | none => True

/-- In the expression and in every one inside it that is evaluated. -/
def Everywhere (value : Expr → Option Value) (P : Expr → Prop) : Expr → Prop
  | .paren e => P (.paren e) ∧ Everywhere value P e
  | .neg e => P (.neg e) ∧ Everywhere value P e
  | .logicalNot e => P (.logicalNot e) ∧ Everywhere value P e
  | .bitNot e => P (.bitNot e) ∧ Everywhere value P e
  | .mul op l r => P (.mul op l r) ∧ Everywhere value P l ∧ Everywhere value P r
  | .addSub op l r => P (.addSub op l r) ∧ Everywhere value P l ∧ Everywhere value P r
  | .rel op l r => P (.rel op l r) ∧ Everywhere value P l ∧ Everywhere value P r
  | .eq op l r => P (.eq op l r) ∧ Everywhere value P l ∧ Everywhere value P r
  | .plain op l r => P (.plain op l r) ∧ Everywhere value P l ∧ Everywhere value P r
  | .ternary c t e => P (.ternary c t e) ∧ Everywhere value P c ∧
    Taken (value c) (Everywhere value P t) (Everywhere value P e)
  | e => P e

/-- The literals are integers, booleans and strings, as the lexer has them. -/
def Closed : Expr → Prop
  | .intLit radix suffixed token =>
    ∃ t : Token, t.radix = radix ∧ t.suffix.isSome = suffixed ∧ t.text = token
  | .boolLit token => token = ['t', 'r', 'u', 'e'] ∨ token = ['f', 'a', 'l', 's', 'e']
  | .strLit token => ∃ body, token = strToken body
  | .charLit _ => False
  | .nullLit => False
  | .paren e => Closed e
  | .neg e => Closed e
  | .logicalNot e => Closed e
  | .bitNot e => Closed e
  | .mul _ l r => Closed l ∧ Closed r
  | .addSub _ l r => Closed l ∧ Closed r
  | .rel _ l r => Closed l ∧ Closed r
  | .eq _ l r => Closed l ∧ Closed r
  | .plain _ l r => Closed l ∧ Closed r
  | .ternary c t e => Closed c ∧ Closed t ∧ Closed e

def Standard (e : Expr) : Prop :=
  ∀ v, evaluateConstExpr e = some v → meaning e = some v

/-- The operator found in the text is the node's own, or makes no difference on its operands; a
number is read whole, and a string has only the escapes that both its readers know. -/
def Recovered : Expr → Prop
  | .intLit radix suffixed token => ∃ t : Token, t.radix = radix ∧ t.suffix.isSome = suffixed ∧
      t.text = token ∧ t.number < 2 ^ 63 ∧ ReadWhole t
  | .strLit token => ∃ body, token = strToken body ∧ Common body
  | .mul op l r => ∀ a b, meaning l = some (.int a) → meaning r = some (.int b) →
      ((mulFound (getText (.mul op l r))).bind fun found => intMul found a b) = intMul op a b
  | .addSub op l r =>
    (∀ a b, meaning l = some (.int a) → meaning r = some (.int b) →
      ((addFound (getText (.addSub op l r))).map fun found => intAdd found a b) =
        some (intAdd op a b)) ∧
    ∀ a b, meaning l = some (.str a) → meaning r = some (.str b) → op = .plus
  | .rel op l r => ∀ a b, meaning l = some (.int a) → meaning r = some (.int b) →
      ((relFound (getText (.rel op l r))).any fun found => intRel found a b) = intRel op a b
  | .eq op l r => ∀ a b same, meaning l = some a → meaning r = some b →
      sameValue a b = some same → eqFound (getText (.eq op l r)) = op
  | .ternary c _ e => ∀ s, meaning c = some (.str s) → meaning e = none
  | _ => True

end Meaning

section Found

theorem own_text_found (op : MulOp) (before after : Text) :
    mulFound (before ++ op.text ++ after) ≠ none := by
  cases op <;> grind [MulOp.text, mulFound]

theorem own_addText_found (op : AddOp) (before after : Text) :
    addFound (before ++ op.text ++ after) ≠ none := by
  cases op <;> grind [AddOp.text, addFound]

theorem intMul_none {raw : Text} {op found : MulOp} {a b : Int64} (inside : op.text <:+: raw)
    (first : mulFound raw = some found) (failed : intMul found a b = none) :
    intMul op a b = none := by
  have no_star : op ≠ .star := by
    rintro rfl
    have member : '*' ∈ raw := inside.subset (by simp [MulOp.text])
    simp only [mulFound, member, if_true, Option.some.injEq] at first
    subst first
    simp [intMul] at failed
  have zero : b = 0 := by
    cases found with
    | star => simp [intMul] at failed
    | slash => simpa [intMul] using failed
    | percent => simpa [intMul] using failed
  cases op with
  | star => exact absurd rfl no_star
  | slash => simp [intMul, zero]
  | percent => simp [intMul, zero]

theorem mulText_none (op : MulOp) (before after : Text) (a b : Value)
    (failed : mulText (before ++ op.text ++ after) a b = none) : mulValue op a b = none := by
  cases a with
  | int a =>
    cases b with
    | int b =>
      have inside : op.text <:+: before ++ op.text ++ after := ⟨before, after, rfl⟩
      cases first : mulFound (before ++ op.text ++ after) with
      | none => exact absurd first (own_text_found op before after)
      | some found =>
        simp only [mulText, first, Option.bind_some] at failed
        exact intMul_none inside first failed
    | bool _ => rfl
    | str _ => rfl
  | bool _ => rfl
  | str _ => rfl

theorem addText_none (op : AddOp) (before after : Text) (a b : Value)
    (failed : addText (before ++ op.text ++ after) a b = none) : addValue op a b = none := by
  cases a with
  | int a =>
    cases b with
    | int b =>
      simp only [addText, Option.map_eq_none_iff] at failed
      exact absurd failed (own_addText_found op before after)
    | bool _ => rfl
    | str _ => rfl
  | bool _ => cases b <;> rfl
  | str a =>
    cases b with
    | int _ => rfl
    | bool _ => rfl
    | str b => simp [addText] at failed

theorem relText_none (op : RelOp) (raw : Text) (a b : Value) (failed : relText raw a b = none) :
    relValue op a b = none := by
  cases a <;> cases b <;> first | rfl | simp [relText] at failed

end Found

section Nodes

-- their equations are derived here once, before the proofs that rewrite with them run side by side
attribute [local simp] evaluateConstExpr meaning Recovered Everywhere

variable {x y : Option Value} {f g : Value → Value → Option Value}

theorem evalBinary_eq_iff :
    evalBinary x y f = evalBinary x y g ↔ ∀ a b, x = some a → y = some b → f a b = g a b := by
  cases x with
  | none => simp [evalBinary]
  | some a =>
    cases y with
    | none => simp [evalBinary]
    | some b => simp [evalBinary]

theorem evalBinary_none (keeps : ∀ a b, f a b = none → g a b = none)
    (failed : evalBinary x y f = none) : evalBinary x y g = none := by
  cases x with
  | none => rfl
  | some a =>
    cases y with
    | none => rfl
    | some b => exact keeps a b failed

variable {e : Expr}

theorem standard_iff_eq (total : evaluateConstExpr e = none → meaning e = none) :
    Standard e ↔ evaluateConstExpr e = meaning e := by
  constructor
  · intro standard
    cases value : evaluateConstExpr e with
    | none => exact (total value).symm
    | some v => exact (standard v value).symm
  · intro same v value
    rw [← same, value]

structure NodeSound (e : Expr) : Prop where
  total : evaluateConstExpr e = none → meaning e = none
  recovered : evaluateConstExpr e = meaning e ↔ Recovered e

theorem mul_sound (op : MulOp) {l r : Expr} (left : evaluateConstExpr l = meaning l)
    (right : evaluateConstExpr r = meaning r) : NodeSound (.mul op l r) where
  total := by
    simp only [evaluateConstExpr, meaning, left, right]
    exact evalBinary_none fun a b => mulText_none op (getText l) (getText r) a b
  recovered := by
    simp only [evaluateConstExpr, meaning, left, right, evalBinary_eq_iff, Recovered]
    constructor
    · intro same a b left_value right_value
      exact same (.int a) (.int b) left_value right_value
    · intro same a b left_value right_value
      cases a with
      | int a =>
        cases b with
        | int b => exact same a b left_value right_value
        | bool _ => rfl
        | str _ => rfl
      | bool _ => rfl
      | str _ => rfl

theorem addSub_sound (op : AddOp) {l r : Expr} (left : evaluateConstExpr l = meaning l)
    (right : evaluateConstExpr r = meaning r) : NodeSound (.addSub op l r) where
  total := by
    simp only [evaluateConstExpr, meaning, left, right]
    exact evalBinary_none fun a b => addText_none op (getText l) (getText r) a b
  recovered := by
    simp only [evaluateConstExpr, meaning, left, right, evalBinary_eq_iff, Recovered]
    constructor
    · intro same
      constructor
      · intro a b left_value right_value
        exact same (.int a) (.int b) left_value right_value
      · intro a b left_value right_value
        have agree := same (.str a) (.str b) left_value right_value
        by_contra minus
        simp [addText, addValue, minus] at agree
    · rintro ⟨ints, strings⟩ a b left_value right_value
      cases a with
      | int a =>
        cases b with
        | int b => exact ints a b left_value right_value
        | bool _ => rfl
        | str _ => rfl
      | bool _ => cases b <;> rfl
      | str a =>
        cases b with
        | int _ => rfl
        | bool _ => rfl
        | str b => simp [addText, addValue, strings a b left_value right_value]

theorem rel_sound (op : RelOp) {l r : Expr} (left : evaluateConstExpr l = meaning l)
    (right : evaluateConstExpr r = meaning r) : NodeSound (.rel op l r) where
  total := by
    simp only [evaluateConstExpr, meaning, left, right]
    exact evalBinary_none fun a b => relText_none op _ a b
  recovered := by
    simp only [evaluateConstExpr, meaning, left, right, evalBinary_eq_iff, Recovered]
    constructor
    · intro same a b left_value right_value
      simpa [relText, relValue] using same (.int a) (.int b) left_value right_value
    · intro same a b left_value right_value
      cases a with
      | int a =>
        cases b with
        | int b => simp [relText, relValue, same a b left_value right_value]
        | bool _ => rfl
        | str _ => rfl
      | bool _ => rfl
      | str _ => rfl

theorem eqResult_injective {op found : EqOp} {same : Bool}
    (equal : eqResult found same = eqResult op same) : found = op := by
  cases op <;> cases found <;> cases same <;> simp [eqResult] at equal ⊢

theorem eq_sound (op : EqOp) {l r : Expr} (left : evaluateConstExpr l = meaning l)
    (right : evaluateConstExpr r = meaning r) : NodeSound (.eq op l r) where
  total := by
    simp only [evaluateConstExpr, meaning, left, right]
    exact evalBinary_none fun a b failed => by
      simpa [eqText, eqValue] using failed
  recovered := by
    simp only [evaluateConstExpr, meaning, left, right, evalBinary_eq_iff, Recovered]
    constructor
    · intro agree a b same left_value right_value compared
      have result := agree a b left_value right_value
      simp only [eqText, eqValue, compared, Option.map_some, Option.some.injEq] at result
      exact eqResult_injective result
    · intro found a b left_value right_value
      cases compared : sameValue a b with
      | none => simp [eqText, eqValue, compared]
      | some same =>
        simp [eqText, eqValue, compared, found a b same left_value right_value compared]

theorem ternary_value {c t : Expr} (cond : evaluateConstExpr c = meaning c)
    (taken : Taken (meaning c) (evaluateConstExpr t = meaning t)
      (evaluateConstExpr e = meaning e)) : evaluateConstExpr (.ternary c t e) =
        (meaning c).bind fun v => if ConstExpr.isTrue v then meaning t else meaning e := by
  rw [evaluateConstExpr, cond]
  cases value : meaning c with
  | none => rfl
  | some v =>
    rw [value] at taken
    simp only [Taken, Option.bind_some] at taken ⊢
    split_ifs at taken ⊢ <;> exact taken

theorem ternary_sound {c t : Expr} (cond : evaluateConstExpr c = meaning c)
    (taken : Taken (meaning c) (evaluateConstExpr t = meaning t)
      (evaluateConstExpr e = meaning e)) : NodeSound (.ternary c t e) where
  total := by
    rw [ternary_value cond taken, meaning]
    cases meaning c with
    | none => simp
    | some v => cases v <;> simp [ConstExpr.isTrue, truth]
  recovered := by
    rw [ternary_value cond taken, meaning, Recovered]
    cases meaning c with
    | none => simp
    | some v => cases v <;> simp [ConstExpr.isTrue, truth]

theorem plain_sound (same : evaluateConstExpr e = meaning e)
    (recovered : Recovered e) : NodeSound e where
  total := by
    intro failed
    rw [← same, failed]
  recovered := ⟨fun _ => recovered, fun _ => same⟩

theorem NodeSound.standard_iff (node : NodeSound e) : Standard e ↔ Recovered e := by
  rw [standard_iff_eq node.total, node.recovered]

end Nodes

section Literals

variable (t : Token)

theorem tail_digits (radix : Radix) (tail : Option (Bool × ValueRange.Suffix)) :
    ((tailText tail).filter (· ≠ '_')).takeWhile (fun c => digitValue c < baseOf radix) = [] := by
  rcases tail with _ | ⟨separated, suffix⟩
  · rfl
  · cases separated <;> cases suffix <;> cases radix <;> decide

/-- The prefix goes, the digits stay, and the suffix starts with no digit. -/
theorem written_text : written t.radix t.text = t.number := by
  have narrow : baseOf t.radix ≤ 36 := (IntLiteral.baseOf_le t.radix).trans (by decide)
  have dropped : t.text.drop (prefixOf false t.radix).length =
      t.digits.text ++ tailText t.suffix := by
    have same : (prefixOf false t.radix).length = (prefixOf t.upper t.radix).length := by
      cases t.radix <;> rfl
    rw [same, Token.text, List.append_assoc, List.drop_left]
  let digits := t.digits.first.val :: t.digits.rest.map fun part => part.2.val
  have kept : t.digits.text.filter (· ≠ '_') = digits := by
    have first := IntLiteral.digit_ne_separator narrow t.digits.first
    rw [IntLiteral.Digits.text, List.filter_cons_of_pos (by simpa using first),
      IntLiteral.filter_pieces narrow]
  have values : digits.map digitValue = t.digits.values := by
    simp [digits, IntLiteral.Digits.values]
  have valid : ∀ c ∈ digits, decide (digitValue c < baseOf t.radix) = true := fun c inside =>
    decide_eq_true (IntLiteral.values_lt t.digits _ (values ▸ List.mem_map_of_mem inside))
  unfold written
  dsimp only
  rw [dropped, List.filter_append, kept, List.takeWhile_append_of_pos valid,
    tail_digits t.radix t.suffix, List.append_nil, values]
  rfl

theorem int_sound {radix : Radix} {suffixed : Bool} {token : Text}
    (closed : Closed (.intLit radix suffixed token)) :
    NodeSound (.intLit radix suffixed token) := by
  have exact_iff (t : Token) (small : t.number < 2 ^ 63) :
      intLitValue t.radix t.suffix.isSome t.text = Int64.ofNat t.number ↔ ReadWhole t := by
    rw [← IntLiteral.constant_iff t small, ← Int64.toInt_inj, Int64.toInt_ofNat_of_lt small]
    rfl
  refine ⟨nofun, ?_⟩
  simp only [evaluateConstExpr, meaning, Recovered]
  constructor
  · obtain ⟨t, rfl, rfl, rfl⟩ := closed
    rw [written_text]
    intro same
    split_ifs at same with small
    · exact ⟨t, rfl, rfl, rfl, small, (exact_iff t small).1 (Value.int.inj (Option.some.inj same))⟩
  · rintro ⟨t, rfl, rfl, rfl, small, whole⟩
    rw [written_text, if_pos small, (exact_iff t small).2 whole]

theorem str_sound {token : Text} (closed : Closed (.strLit token)) : NodeSound (.strLit token) := by
  have exact_iff (body : Text) :
      strLitValue (strToken body) = visitStrLitExpr (strToken body) ↔ Common body := by
    rw [StringLiteral.constant_token, StringLiteral.visitStrLitExpr_token, eq_comm]
    exact StringLiteral.decode_eq_unescape_iff body
  refine ⟨nofun, ?_⟩
  simp only [evaluateConstExpr, meaning, Recovered, Option.some.injEq, Value.str.injEq]
  constructor
  · obtain ⟨body, rfl⟩ := closed
    exact fun same => ⟨body, rfl, (exact_iff body).1 same⟩
  · rintro ⟨body, rfl, common⟩
    exact (exact_iff body).2 common

end Literals

section Trees

variable {c l r child : Expr} {e : Expr}

def TreeSound (e : Expr) : Prop :=
  (Everywhere evaluateConstExpr Standard e ↔ Everywhere meaning Recovered e) ∧
    (Everywhere meaning Recovered e → evaluateConstExpr e = meaning e)

theorem leaf_sound (node : NodeSound e)
    (standard_leaf : Everywhere evaluateConstExpr Standard e ↔ Standard e)
    (recovered_leaf : Everywhere meaning Recovered e ↔ Recovered e) : TreeSound e := by
  constructor
  · rw [standard_leaf, recovered_leaf, node.standard_iff]
  · rw [recovered_leaf, node.recovered]
    exact id

theorem unary_sound (sound : TreeSound child)
    (standard_node : Everywhere evaluateConstExpr Standard e ↔
      Standard e ∧ Everywhere evaluateConstExpr Standard child)
    (recovered_node : Everywhere meaning Recovered e ↔
      Recovered e ∧ Everywhere meaning Recovered child)
    (node : evaluateConstExpr child = meaning child → NodeSound e) : TreeSound e := by
  rcases sound with ⟨below, value⟩
  constructor
  · rw [standard_node, recovered_node, below]
    exact and_congr_left fun recovered => (node (value recovered)).standard_iff
  · rw [recovered_node]
    rintro ⟨here, recovered⟩
    exact (node (value recovered)).recovered.2 here

theorem binary_sound (left : TreeSound l) (right : TreeSound r)
    (standard_node : Everywhere evaluateConstExpr Standard e ↔ Standard e ∧
      Everywhere evaluateConstExpr Standard l ∧ Everywhere evaluateConstExpr Standard r)
    (recovered_node : Everywhere meaning Recovered e ↔
      Recovered e ∧ Everywhere meaning Recovered l ∧ Everywhere meaning Recovered r)
    (node : evaluateConstExpr l = meaning l → evaluateConstExpr r = meaning r → NodeSound e) :
    TreeSound e := by
  rcases left with ⟨below_left, left_value⟩
  rcases right with ⟨below_right, right_value⟩
  constructor
  · rw [standard_node, recovered_node, below_left, below_right]
    exact and_congr_left fun ⟨first, second⟩ =>
      (node (left_value first) (right_value second)).standard_iff
  · rw [recovered_node]
    rintro ⟨here, first, second⟩
    exact (node (left_value first) (right_value second)).recovered.2 here

theorem taken_mono {cond : Option Value} {p q p' q' : Prop} (taken : Taken cond p q)
    (first : p → p') (second : q → q') : Taken cond p' q' := by
  cases cond with
  | none => trivial
  | some v =>
    simp only [Taken] at taken ⊢
    split_ifs at taken ⊢
    · exact first taken
    · exact second taken

/-- The branch that is taken is the same by the code's value of the condition and by its meaning. -/
theorem choice_sound {t : Expr} (cond : TreeSound c) (taken : TreeSound t) (other : TreeSound e) :
    TreeSound (.ternary c t e) := by
  rcases cond with ⟨below_cond, cond_value⟩
  rcases taken with ⟨below_taken, taken_value⟩
  rcases other with ⟨below_other, other_value⟩
  have node (first : Everywhere meaning Recovered c)
      (branch : Taken (meaning c) (Everywhere meaning Recovered t)
        (Everywhere meaning Recovered e)) :
      NodeSound (.ternary c t e) :=
    ternary_sound (cond_value first) (taken_mono branch taken_value other_value)
  constructor
  · simp only [Everywhere, below_cond, below_taken, below_other]
    constructor
    · rintro ⟨standard, first, branch⟩
      rw [cond_value first] at branch
      exact ⟨(node first branch).standard_iff.1 standard, first, branch⟩
    · rintro ⟨here, first, branch⟩
      refine ⟨(node first branch).standard_iff.2 here, first, ?_⟩
      rwa [cond_value first]
  · simp only [Everywhere]
    rintro ⟨here, first, branch⟩
    exact (node first branch).recovered.2 here

theorem tree_sound (e : Expr) (closed : Closed e) : TreeSound e := by
  induction e with
  | intLit _ _ _ => exact leaf_sound (int_sound closed) Iff.rfl Iff.rfl
  | boolLit _ => exact leaf_sound (plain_sound rfl trivial) Iff.rfl Iff.rfl
  | charLit _ => exact closed.elim
  | strLit _ => exact leaf_sound (str_sound closed) Iff.rfl Iff.rfl
  | nullLit => exact closed.elim
  | paren e below =>
    refine unary_sound (below closed) Iff.rfl Iff.rfl fun value => plain_sound ?_ trivial
    exact value
  | neg e below =>
    refine unary_sound (below closed) Iff.rfl Iff.rfl fun value => plain_sound ?_ trivial
    simp only [evaluateConstExpr, meaning, value]
  | logicalNot e below =>
    refine unary_sound (below closed) Iff.rfl Iff.rfl fun value => plain_sound ?_ trivial
    simp only [evaluateConstExpr, meaning, value]
  | bitNot e below =>
    refine unary_sound (below closed) Iff.rfl Iff.rfl fun value => plain_sound ?_ trivial
    simp only [evaluateConstExpr, meaning, value]
  | mul op l r left right =>
    exact binary_sound (left closed.1) (right closed.2) Iff.rfl Iff.rfl (mul_sound op)
  | addSub op l r left right =>
    exact binary_sound (left closed.1) (right closed.2) Iff.rfl Iff.rfl (addSub_sound op)
  | rel op l r left right =>
    exact binary_sound (left closed.1) (right closed.2) Iff.rfl Iff.rfl (rel_sound op)
  | eq op l r left right =>
    exact binary_sound (left closed.1) (right closed.2) Iff.rfl Iff.rfl (eq_sound op)
  | plain op l r left right =>
    refine binary_sound (left closed.1) (right closed.2) Iff.rfl Iff.rfl fun first second =>
      plain_sound ?_ trivial
    simp only [evaluateConstExpr, meaning, first, second]
  | ternary c t e cond taken other =>
    exact choice_sound (cond closed.1) (taken closed.2.1) (other closed.2.2)

/-- Wherever it is evaluated, an expression has only its standard value. -/
theorem standard_everywhere_iff (e : Expr) (closed : Closed e) :
    Everywhere evaluateConstExpr Standard e ↔ Everywhere meaning Recovered e :=
  (tree_sound e closed).1

/-- `10 - (2 + 3)`: the plus inside the parentheses is found first. -/
def nestedDifference : Expr :=
  .addSub .minus (.intLit .dec false ['1', '0'])
    (.paren (.addSub .plus (.intLit .dec false ['2']) (.intLit .dec false ['3'])))

/-- `true ? 1 : 10 - (2 + 3)` -/
def untaken : Expr :=
  .ternary (.boolLit ['t', 'r', 'u', 'e']) (.intLit .dec false ['1']) nestedDifference

theorem untaken_standard : Everywhere evaluateConstExpr Standard untaken := by
  let one : Token := ⟨.dec, false, ⟨⟨'1', by decide⟩, []⟩, none⟩
  have closed : Closed untaken := by
    refine ⟨.inl rfl, ⟨one, rfl, rfl, rfl⟩, ?_, ?_, ?_⟩
    · exact ⟨⟨.dec, false, ⟨⟨'1', by decide⟩, [(false, ⟨'0', by decide⟩)]⟩, none⟩, rfl, rfl, rfl⟩
    · exact ⟨⟨.dec, false, ⟨⟨'2', by decide⟩, []⟩, none⟩, rfl, rfl, rfl⟩
    · exact ⟨⟨.dec, false, ⟨⟨'3', by decide⟩, []⟩, none⟩, rfl, rfl, rfl⟩
  refine (standard_everywhere_iff untaken closed).2 ⟨?_, trivial, ?_⟩
  · intro s string
    cases string
  · exact ⟨one, rfl, rfl, rfl, by decide, .inr ⟨rfl, .inl (by decide)⟩⟩

theorem difference_evaluates_to_sum :
    evaluateConstExpr nestedDifference = some (.int 15) ∧
      meaning nestedDifference = some (.int 5) ∧ ¬ Standard nestedDifference := by
  have value : evaluateConstExpr nestedDifference = some (.int 15) := rfl
  refine ⟨value, rfl, ?_⟩
  intro standard
  exact absurd (standard _ value) (by decide)

end Trees

end Lucis.ConstMeaning
