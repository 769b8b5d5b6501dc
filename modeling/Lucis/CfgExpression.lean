import Mathlib.Data.List.Infix
import Lucis.ConditionalCompilation

/-!
The predicate of an `@cfg(..)` expression, as IRBuilder/IRGen_expr.cpp evaluates it, against that
of a `#[cfg(..)]` attribute. Relational comparisons are left out; an attribute has none.
-/

namespace Lucis.ConditionalCompilation

open List Option

inductive Expr where
  | boolLit (value : Bool)
  | paren (inner : Expr)
  | logicalNot (inner : Expr)
  | logicalAnd (lhs rhs : Expr)
  | logicalOr (lhs rhs : Expr)
  /-- `==`, or `!=` -/
  | eq (equal : Bool) (lhs rhs : Expr)
  | fnCall (callee : Expr) (args : List Expr)
  | ident (name : String)
  | strLit (content : Text)
  | other (text : Text)

section Expressions

def quoted (content : Text) : Text := '"' :: content ++ ['"']

mutual

def getText : Expr → Text
  | .boolLit value => if value then ['t', 'r', 'u', 'e'] else ['f', 'a', 'l', 's', 'e']
  | .paren inner => '(' :: getText inner ++ [')']
  | .logicalNot inner => '!' :: getText inner
  | .logicalAnd lhs rhs => getText lhs ++ ['&', '&'] ++ getText rhs
  | .logicalOr lhs rhs => getText lhs ++ ['|', '|'] ++ getText rhs
  | .eq equal lhs rhs => getText lhs ++ (if equal then ['=', '='] else ['!', '=']) ++ getText rhs
  | .fnCall callee args => getText callee ++ '(' :: argsText args ++ [')']
  | .ident name => name.toList
  | .strLit content => quoted content
  | .other text => text

def argsText : List Expr → Text
  | [] => []
  | [arg] => getText arg
  | arg :: args => getText arg ++ ',' :: argsText args

end

variable (target : TargetInfo)

def getCfgTargetValue (name : String) : Option Bool :=
  if name = "debug_assertions" then some target.debug else none

def truth (value : Bool) : Text :=
  if value then ['t', 'r', 'u', 'e'] else ['f', 'a', 'l', 's', 'e']

def getCfgTargetString (name : String) : Option Text :=
  if name = "target_os" then some target.os
  else if name = "target_arch" then some target.arch
  else if name = "target_endian" then some target.endian
  else if name = "target_os_family" then some target.osFamily
  else if name = "target_triple" then some target.triple
  else if name = "unix" then some target.osFamily
  else if name = "windows" then some ['w', 'i', 'n', 'd', 'o', 'w', 's']
  else if name = "x86_64" then some ['x', '8', '6', '_', '6', '4']
  else if name = "aarch64" then some ['a', 'a', 'r', 'c', 'h', '6', '4']
  else if name = "debug" then some (truth target.debug)
  else none

def evalCfgIdentOrString : Expr → Option Text
  | .strLit content =>
    let raw := quoted content
    if 2 ≤ raw.length then some raw.tail.dropLast else some []
  | .ident name => getCfgTargetString target name
  | .boolLit value => some (truth value)
  | _ => none

def isEq (text : Text) : Bool := ['=', '='] <:+: text

mutual

def evalCfgPredicate : Expr → Bool
  | .boolLit value => value
  | .paren inner => evalCfgPredicate inner
  | .logicalNot inner => !evalCfgPredicate inner
  | .logicalAnd lhs rhs => evalCfgPredicate lhs && evalCfgPredicate rhs
  | .logicalOr lhs rhs => evalCfgPredicate lhs || evalCfgPredicate rhs
  | .eq equal lhs rhs =>
    match evalCfgIdentOrString target lhs, evalCfgIdentOrString target rhs with
    | some l, some r => if isEq (getText (.eq equal lhs rhs)) then l = r else l ≠ r
    | _, _ => true
  | .fnCall (.ident name) args =>
    if name = "all" then evalCfgAll args
    else if name = "any" then evalCfgAny args
    else if name = "not" then evalCfgNot args
    else true
  | .ident name => (getCfgTargetValue target name).getD true
  | _ => true

def evalCfgAll : List Expr → Bool
  | [] => true
  | a :: args => evalCfgPredicate a && evalCfgAll args

def evalCfgAny : List Expr → Bool
  | [] => false
  | a :: args => evalCfgPredicate a || evalCfgAny args

def evalCfgNot : List Expr → Bool
  | [a] => !evalCfgPredicate a
  | _ => true

end

end Expressions

section Forms

mutual

def attributeForm : Expr → Option AttrArg
  | .paren inner => attributeForm inner
  | .logicalNot inner => (attributeForm inner).map fun arg => .call "not" [arg]
  | .logicalAnd lhs rhs =>
    (attributeForm lhs).bind fun l => (attributeForm rhs).map fun r => .call "all" [l, r]
  | .logicalOr lhs rhs =>
    (attributeForm lhs).bind fun l => (attributeForm rhs).map fun r => .call "any" [l, r]
  | .eq equal (.ident key) (.strLit content) =>
    let compared := AttrArg.keyValue key (.strLit (quoted content))
    some (if equal then compared else .call "not" [compared])
  | .fnCall (.ident name) args =>
    if name = "all" ∨ name = "any" ∨ name = "not" then (attributeForms args).map (.call name)
    else none
  | .ident name => some (.ident name)
  | _ => none

def attributeForms : List Expr → Option (List AttrArg)
  | [] => some []
  | e :: es => (attributeForm e).bind fun arg => (attributeForms es).map (arg :: ·)

end

variable (target : TargetInfo)

/-- What the attribute form says of the target. -/
def Means (e : Expr) : Prop := ∃ arg, attributeForm e = some arg ∧ Holds target unquote arg

def MeanAll (es : List Expr) : Prop :=
  ∃ args, attributeForms es = some args ∧ HoldAll target unquote args

def MeanAny (es : List Expr) : Prop :=
  ∃ args, attributeForms es = some args ∧ HoldAny target unquote args

/-- An inequality is taken for an equality when there is `==` in its text. -/
def Mistaken (equal : Bool) (key : String) (content : Text) : Prop :=
  equal = false ∧ isEq (getText (.eq equal (.ident key) (.strLit content))) = true

/-- Without a value of its own for the key the expression has every comparison true. With one,
it goes wrong where that value is empty, as the attribute has no key equal to an empty value,
and, where the attribute has no value for the key, at that very value. -/
def ComparesAlike (equal : Bool) (key : String) (content : Text) : Prop :=
  match getCfgTargetString target key with
  | none => equal = true ↔ target.get key ≠ [] ∧ target.get key = content
  | some value =>
    Mistaken equal key content ↔ value = content ∧ (content = [] ∨ target.get key = [])

mutual

/-- In the order of evaluation, and as far as the value is open: a bare name is `debug_assertions`
or true of the target, a comparison comes out alike, and a `not` has one argument. -/
def AsAttribute : Expr → Prop
  | .paren inner => AsAttribute inner
  | .logicalNot inner => AsAttribute inner
  | .logicalAnd lhs rhs =>
    InTurn (Means target lhs) (Means target rhs) (AsAttribute lhs) (AsAttribute rhs)
  | .logicalOr lhs rhs =>
    InTurn (¬Means target lhs) (¬Means target rhs) (AsAttribute lhs) (AsAttribute rhs)
  | .eq equal (.ident key) (.strLit content) => ComparesAlike target equal key content
  | .fnCall (.ident name) args =>
    if name = "all" then AllAsAttribute args
    else if name = "any" then AnyAsAttribute args
    else NotAsAttribute args
  | .ident name => name = "debug_assertions" ∨ identHolds target name = true
  | _ => True

def AllAsAttribute : List Expr → Prop
  | [] => True
  | e :: es =>
    InTurn (Means target e) (MeanAll target es) (AsAttribute e) (AllAsAttribute es)

def AnyAsAttribute : List Expr → Prop
  | [] => True
  | e :: es =>
    InTurn (¬Means target e) (¬MeanAny target es) (AsAttribute e) (AnyAsAttribute es)

def NotAsAttribute : List Expr → Prop
  | [e] => AsAttribute e
  | _ => False

end

-- the equations are derived here once, before the proofs that rewrite with them run side by side
attribute [local simp] evalCfgPredicate evalCfgAll evalCfgAny evalCfgNot attributeForm
  attributeForms AsAttribute AllAsAttribute AnyAsAttribute NotAsAttribute

end Forms

section Agreement

variable {target : TargetInfo}

theorem unquote_quoted (content : Text) : unquote (quoted content) = content := by
  have last : (quoted content).getLast? = some '"' := getLast?_concat
  rw [unquote, last]
  simp [quoted]

theorem evalCfgIdentOrString_strLit (content : Text) :
    evalCfgIdentOrString target (.strLit content) = some content := by
  simp [evalCfgIdentOrString, quoted]

theorem debug_assertions_holds : identHolds target "debug_assertions" = target.debug := by
  cases debug : target.debug <;> simp [identHolds, TargetInfo.get, debug]

theorem ident_read (name : String) : evalCfgPredicate target (.ident name) = true ↔
    (identHolds target name = true ↔
      name = "debug_assertions" ∨ identHolds target name = true) := by
  rw [evalCfgPredicate, getCfgTargetValue]
  by_cases debug : name = "debug_assertions"
  · rw [if_pos debug, debug, debug_assertions_holds]
    simp
  · simp [debug]

/-- A key has its value in the attribute or, there, none. -/
theorem getCfgTargetString_get {key : String} {value : Text}
    (known : getCfgTargetString target key = some value) :
    value = target.get key ∨ target.get key = [] := by
  unfold getCfgTargetString at known
  split_ifs at known <;> simp_all [TargetInfo.get]

theorem isEq_eq (lhs rhs : Expr) : isEq (getText (.eq true lhs rhs)) = true := by
  rw [isEq, decide_eq_true_eq]
  exact ⟨getText lhs, getText rhs, rfl⟩

theorem eq_evaluates (equal : Bool) (key : String) (content : Text) :
    evalCfgPredicate target (.eq equal (.ident key) (.strLit content)) =
      match getCfgTargetString target key with
      | none => true
      | some value =>
        if isEq (getText (.eq equal (.ident key) (.strLit content))) then value = content
        else value ≠ content := by
  rw [evalCfgPredicate, evalCfgIdentOrString_strLit, evalCfgIdentOrString]
  cases getCfgTargetString target key <;> rfl

theorem eq_means (equal : Bool) (key : String) (content : Text) :
    Means target (.eq equal (.ident key) (.strLit content)) ↔
      (equal = true ↔ target.get key ≠ [] ∧ target.get key = content) := by
  have compared : Holds target unquote (.keyValue key (.strLit (quoted content))) ↔
      target.get key ≠ [] ∧ target.get key = content := by
    rw [Holds, valueText, unquote_quoted]
  cases equal with
  | true => simp [Means, attributeForm, compared]
  | false =>
    have negated : Means target (.eq false (.ident key) (.strLit content)) ↔
        ¬Holds target unquote (.keyValue key (.strLit (quoted content))) := by
      simp only [Means, attributeForm, Option.some.injEq, exists_eq_left']
      simp [Holds, HoldNot]
    simp [negated, compared]

theorem eq_read (equal : Bool) (key : String) (content : Text) :
    evalCfgPredicate target (.eq equal (.ident key) (.strLit content)) = true ↔
      (Means target (.eq equal (.ident key) (.strLit content)) ↔
        ComparesAlike target equal key content) := by
  rw [eq_evaluates, eq_means, ComparesAlike]
  cases known : getCfgTargetString target key with
  | none => simp
  | some value =>
    have shared := getCfgTargetString_get known
    have empty : target.get key = [] → target.get key = content → content = [] :=
      fun none same => same ▸ none
    dsimp only
    cases equal with
    | true =>
      rw [if_pos (isEq_eq _ _)]
      simp only [Mistaken, decide_eq_true_eq]
      grind
    | false =>
      unfold Mistaken
      split
      · next isEq =>
        simp only [decide_eq_true_eq, isEq]
        grind
      · next isNe =>
        simp only [decide_eq_true_eq, isNe]
        grind

variable {e : Expr} {es : List Expr} {arg : AttrArg} {args : List AttrArg}

theorem means_iff (formed : attributeForm e = some arg) :
    Means target e ↔ Holds target unquote arg := by
  simp [Means, formed]

theorem meanAll_iff (formed : attributeForms es = some args) :
    MeanAll target es ↔ HoldAll target unquote args := by
  simp [MeanAll, formed]

theorem meanAny_iff (formed : attributeForms es = some args) :
    MeanAny target es ↔ HoldAny target unquote args := by
  simp [MeanAny, formed]

theorem attributeForms_cons (formed : attributeForms (e :: es) = some args) :
    ∃ arg rest, attributeForm e = some arg ∧ attributeForms es = some rest ∧
      args = arg :: rest := by
  simp only [attributeForms, bind_eq_some_iff, map_eq_some_iff] at formed
  obtain ⟨arg, headFormed, rest, tailFormed, rfl⟩ := formed
  exact ⟨arg, rest, headFormed, tailFormed, rfl⟩

theorem fnCall_formed {args : List Expr} {name : String}
    (formed : attributeForm (.fnCall (.ident name) args) = some arg) :
    (name = "all" ∨ name = "any" ∨ name = "not") ∧
      ∃ argForms, attributeForms args = some argForms ∧ arg = .call name argForms := by
  simp only [attributeForm, ite_none_right_eq_some, map_eq_some_iff] at formed
  obtain ⟨known, argForms, argsFormed, rfl⟩ := formed
  exact ⟨known, argForms, argsFormed, rfl⟩

mutual

/-- Where a predicate is read alike it is true just when the attribute form is, elsewhere just
when that form is not. -/
theorem read_iff (e : Expr) (arg : AttrArg) (formed : attributeForm e = some arg) :
    evalCfgPredicate target e = true ↔ (Holds target unquote arg ↔ AsAttribute target e) := by
  match e with
  | .paren inner =>
    rw [attributeForm] at formed
    exact read_iff inner arg formed
  | .logicalNot inner =>
    simp only [attributeForm, map_eq_some_iff] at formed
    obtain ⟨innerArg, innerFormed, rfl⟩ := formed
    have inside := read_iff inner innerArg innerFormed
    rw [evalCfgPredicate, Bool.not_eq_true', ← Bool.not_eq_true, inside]
    simp only [Holds, HoldNot, AsAttribute]
    simp
    tauto
  | .logicalAnd lhs rhs =>
    simp only [attributeForm, bind_eq_some_iff, map_eq_some_iff] at formed
    obtain ⟨l, leftFormed, r, rightFormed, rfl⟩ := formed
    have both := and_inTurn (read_iff lhs l leftFormed) (read_iff rhs r rightFormed)
    rw [evalCfgPredicate, Bool.and_eq_true, both, AsAttribute, means_iff leftFormed,
      means_iff rightFormed]
    simp [Holds, HoldAll]
  | .logicalOr lhs rhs =>
    simp only [attributeForm, bind_eq_some_iff, map_eq_some_iff] at formed
    obtain ⟨l, leftFormed, r, rightFormed, rfl⟩ := formed
    have both := or_inTurn (read_iff lhs l leftFormed) (read_iff rhs r rightFormed)
    rw [evalCfgPredicate, Bool.or_eq_true, both, AsAttribute, means_iff leftFormed,
      means_iff rightFormed]
    simp [Holds, HoldAny]
  | .eq equal lhs rhs =>
    cases lhs with
    | ident key =>
      cases rhs with
      | strLit content => exact (eq_read equal key content).trans (iff_congr (means_iff formed) .rfl)
      | _ => simp [attributeForm] at formed
    | _ => simp [attributeForm] at formed
  | .fnCall callee args =>
    cases callee with
    | ident name =>
      obtain ⟨known, argForms, argsFormed, rfl⟩ := fnCall_formed formed
      obtain rfl | rfl | rfl := known
      · simpa [evalCfgPredicate, Holds, AsAttribute] using readAll_iff args argForms argsFormed
      · simpa [evalCfgPredicate, Holds, AsAttribute] using readAny_iff args argForms argsFormed
      · simpa [evalCfgPredicate, Holds, AsAttribute] using readNot_iff args argForms argsFormed
    | _ => simp [attributeForm] at formed
  | .ident name =>
    obtain rfl : .ident name = arg := by simpa [attributeForm] using formed
    exact ident_read name
  | .boolLit _ | .strLit _ | .other _ => simp [attributeForm] at formed

theorem readAll_iff (es : List Expr) (args : List AttrArg)
    (formed : attributeForms es = some args) :
    evalCfgAll target es = true ↔ (HoldAll target unquote args ↔ AllAsAttribute target es) := by
  match es with
  | [] =>
    obtain rfl : [] = args := by simpa [attributeForms] using formed
    simp [evalCfgAll, HoldAll, AllAsAttribute]
  | e :: es =>
    obtain ⟨arg, rest, headFormed, tailFormed, rfl⟩ := attributeForms_cons formed
    rw [evalCfgAll, Bool.and_eq_true, AllAsAttribute, means_iff headFormed,
      meanAll_iff tailFormed]
    exact and_inTurn (read_iff e arg headFormed) (readAll_iff es rest tailFormed)

theorem readAny_iff (es : List Expr) (args : List AttrArg)
    (formed : attributeForms es = some args) :
    evalCfgAny target es = true ↔ (HoldAny target unquote args ↔ AnyAsAttribute target es) := by
  match es with
  | [] =>
    obtain rfl : [] = args := by simpa [attributeForms] using formed
    simp [evalCfgAny, HoldAny, AnyAsAttribute]
  | e :: es =>
    obtain ⟨arg, rest, headFormed, tailFormed, rfl⟩ := attributeForms_cons formed
    rw [evalCfgAny, Bool.or_eq_true, AnyAsAttribute, means_iff headFormed,
      meanAny_iff tailFormed]
    exact or_inTurn (read_iff e arg headFormed) (readAny_iff es rest tailFormed)

/-- Without one argument the expression takes a `not` for true, the attribute for false. -/
theorem readNot_iff (es : List Expr) (args : List AttrArg)
    (formed : attributeForms es = some args) :
    evalCfgNot target es = true ↔ (HoldNot target unquote args ↔ NotAsAttribute target es) := by
  match es with
  | [] =>
    obtain rfl : [] = args := by simpa [attributeForms] using formed
    simp [evalCfgNot, HoldNot, NotAsAttribute]
  | [e] =>
    obtain ⟨arg, rest, headFormed, tailFormed, rfl⟩ := attributeForms_cons formed
    obtain rfl : [] = rest := by simpa [attributeForms] using tailFormed
    have inside := read_iff e arg headFormed
    rw [evalCfgNot, Bool.not_eq_true', ← Bool.not_eq_true, inside, HoldNot, NotAsAttribute]
    tauto
  | e :: e' :: es =>
    obtain ⟨arg, rest, -, tailFormed, rfl⟩ := attributeForms_cons formed
    obtain ⟨arg', rest, -, -, rfl⟩ := attributeForms_cons tailFormed
    simp [evalCfgNot, HoldNot, NotAsAttribute]

end

/-- An expression has the value of its attribute form just when it is read as the attribute is. -/
theorem expression_agrees_iff (e : Expr) (arg : AttrArg) (formed : attributeForm e = some arg) :
    evalCfgPredicate target e = evaluate target (irParseCfgAttrArg arg) ↔ AsAttribute target e := by
  rw [Bool.eq_iff_iff, irParseCfgAttrArg, evaluate_iff, read_iff e arg formed]
  tauto

/-- `target_os == "linux" || windows` -/
def linuxOrWindows : Expr :=
  .logicalOr (.eq true (.ident "target_os") (.strLit ['l', 'i', 'n', 'u', 'x'])) (.ident "windows")

/-- On Linux the fallback is not reached. -/
theorem linuxOrWindows_agrees :
    ∃ arg, attributeForm linuxOrWindows = some arg ∧ AsAttribute x8664Linux linuxOrWindows ∧
      evalCfgPredicate x8664Linux linuxOrWindows =
        evaluate x8664Linux (irParseCfgAttrArg arg) := by
  have compared : ComparesAlike x8664Linux true "target_os" ['l', 'i', 'n', 'u', 'x'] := by
    simp [ComparesAlike, Mistaken, getCfgTargetString, TargetInfo.get, x8664Linux]
  have means : Means x8664Linux (.eq true (.ident "target_os")
      (.strLit ['l', 'i', 'n', 'u', 'x'])) := by
    simp [eq_means, TargetInfo.get, x8664Linux]
  have alike : AsAttribute x8664Linux linuxOrWindows :=
    .inl ⟨compared, fun open' => absurd means open'⟩
  exact ⟨_, rfl, alike, (expression_agrees_iff linuxOrWindows _ rfl).2 alike⟩

/-- `@cfg(windows)` holds on Linux, `#[cfg(windows)]` does not. -/
theorem windows_on_linux :
    attributeForm (.ident "windows") = some (.ident "windows") ∧
      evalCfgPredicate x8664Linux (.ident "windows") = true ∧
      evaluate x8664Linux (irParseCfgAttrArg (.ident "windows")) = false :=
  ⟨rfl, by decide, by decide⟩

end Agreement

end Lucis.ConditionalCompilation
