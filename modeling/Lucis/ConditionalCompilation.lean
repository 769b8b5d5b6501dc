import Mathlib.Data.List.Basic

/-!
Conditional compilation. The module registry, the code generator and the language server each
turn the arguments of `#[cfg(..)]` into a predicate of their own and evaluate it; only the
evaluation is shared. The registry keeps the quotes of a string and looks at the first argument.
-/

namespace Lucis.ConditionalCompilation

abbrev Text := List Char

structure TargetInfo where
  os : Text
  arch : Text
  endian : Text
  pointerWidth : Nat
  osFamily : Text
  triple : Text
  debug : Bool

inductive CfgPredicate where
  | keyValue (name : String) (stringValue : Text)
  | call (name : String) (args : List CfgPredicate)
  | ident (name : String)

/-- The arguments of an attribute as the grammar has them; a string carries its quotes. -/
inductive AttrArg where
  | keyValue (name : String) (value : AttrArg)
  | call (name : String) (args : List AttrArg)
  | ident (name : String)
  | strLit (text : Text)
  | literal

/-- `args` is `none` where the attribute has no argument list. -/
structure Attribute where
  name : String
  args : Option (List AttrArg)

section Evaluation

def TargetInfo.get (target : TargetInfo) (key : String) : Text :=
  if key = "target_os" then target.os
  else if key = "target_arch" then target.arch
  else if key = "target_endian" then target.endian
  else if key = "target_pointer_width" then Nat.toDigits 10 target.pointerWidth
  else if key = "target_os_family" then target.osFamily
  else if key = "target_triple" then target.triple
  else if key = "debug_assertions" then
    if target.debug then ['t', 'r', 'u', 'e'] else ['f', 'a', 'l', 's', 'e']
  else []

def identHolds (target : TargetInfo) (name : String) : Bool :=
  if name = "unix" then target.osFamily = ['u', 'n', 'i', 'x']
  else if name = "windows" then target.os = ['w', 'i', 'n', 'd', 'o', 'w', 's']
  else if name = "x86_64" then target.arch = ['x', '8', '6', '_', '6', '4']
  else if name = "aarch64" then target.arch = ['a', 'a', 'r', 'c', 'h', '6', '4']
  else if name = "debug" then target.debug
  else
    let val := target.get name
    val ≠ [] ∧ val ≠ ['f', 'a', 'l', 's', 'e'] ∧ val ≠ ['0']

mutual

def evaluate (target : TargetInfo) : CfgPredicate → Bool
  | .keyValue name stringValue =>
    let targetVal := target.get name
    targetVal ≠ [] ∧ targetVal = stringValue
  | .ident name => identHolds target name
  | .call name args =>
    if name = "all" then evaluateAll target args
    else if name = "any" then evaluateAny target args
    else if name = "not" then evaluateNot target args
    else false

def evaluateAll (target : TargetInfo) : List CfgPredicate → Bool
  | [] => true
  | a :: args => evaluate target a && evaluateAll target args

def evaluateAny (target : TargetInfo) : List CfgPredicate → Bool
  | [] => false
  | a :: args => evaluate target a || evaluateAny target args

/-- `not` takes one argument. -/
def evaluateNot (target : TargetInfo) : List CfgPredicate → Bool
  | [a] => !evaluate target a
  | _ => false

end

end Evaluation

section Parsing

def unquote (raw : Text) : Text :=
  if 2 ≤ raw.length ∧ raw.head? = some '"' ∧ raw.getLast? = some '"' then raw.tail.dropLast
  else raw

/-- The string value of `key = value`: the first name of what is no literal, nothing of any other
literal. -/
def valueText (read : Text → Text) : AttrArg → Text
  | .strLit text => read text
  | .keyValue name _ => name.toList
  | .call name _ => name.toList
  | .ident name => name.toList
  | .literal => []

mutual

def parseCfgAttrArg (read : Text → Text) : AttrArg → CfgPredicate
  | .keyValue name value => .keyValue name (valueText read value)
  | .call name args => .call name (parseCfgAttrArgs read args)
  | .ident name => .ident name
  | .strLit _ => .ident ""
  | .literal => .ident ""

def parseCfgAttrArgs (read : Text → Text) : List AttrArg → List CfgPredicate
  | [] => []
  | arg :: args => parseCfgAttrArg read arg :: parseCfgAttrArgs read args

end

def parsePred : AttrArg → CfgPredicate := parseCfgAttrArg id

def irParseCfgAttrArg : AttrArg → CfgPredicate := parseCfgAttrArg unquote

def lspParseCfgAttrArg : AttrArg → CfgPredicate := parseCfgAttrArg unquote

def parseCfgFromAttribute (parse : AttrArg → CfgPredicate) (attr : Attribute) : CfgPredicate :=
  match attr.args with
  | none => .ident "true"
  | some [] => .ident "true"
  | some [arg] => parse arg
  | some args => .call "all" (args.map parse)

def irParseCfgFromAttribute : Attribute → CfgPredicate := parseCfgFromAttribute irParseCfgAttrArg

def lspParseCfg : Attribute → CfgPredicate := parseCfgFromAttribute lspParseCfgAttrArg

end Parsing

section Decisions

def declIsActiveForTarget (attrs : List Attribute) (target : TargetInfo) : Bool :=
  attrs.all fun a =>
    if a.name ≠ "cfg" then true
    else
      match a.args with
      | none => false
      | some [] => false
      | some (arg :: _) => evaluate target (parsePred arg)

def irDeclActive (attrs : List Attribute) (target : TargetInfo) : Bool :=
  attrs.all fun a =>
    if a.name ≠ "cfg" then true else evaluate target (irParseCfgFromAttribute a)

def declActive (attrs : List Attribute) (target : TargetInfo) : Bool :=
  attrs.all fun a => if a.name ≠ "cfg" then true else evaluate target (lspParseCfg a)

end Decisions

section Meaning

mutual

def Holds (target : TargetInfo) (read : Text → Text) : AttrArg → Prop
  | .keyValue name value => target.get name ≠ [] ∧ target.get name = valueText read value
  | .call name args =>
    name = "all" ∧ HoldAll target read args ∨ name = "any" ∧ HoldAny target read args ∨
      name = "not" ∧ HoldNot target read args
  | .ident name => identHolds target name
  | .strLit _ => False
  | .literal => False

def HoldAll (target : TargetInfo) (read : Text → Text) : List AttrArg → Prop
  | [] => True
  | arg :: args => Holds target read arg ∧ HoldAll target read args

def HoldAny (target : TargetInfo) (read : Text → Text) : List AttrArg → Prop
  | [] => False
  | arg :: args => Holds target read arg ∨ HoldAny target read args

def HoldNot (target : TargetInfo) (read : Text → Text) : List AttrArg → Prop
  | [arg] => ¬ Holds target read arg
  | _ => False

end

variable {target : TargetInfo} {read : Text → Text}

variable (target : TargetInfo)

theorem ident_empty : identHolds target "" = false := by
  simp [identHolds, TargetInfo.get]

theorem ident_true : identHolds target "true" = false := by
  simp [identHolds, TargetInfo.get]

mutual

theorem evaluate_iff (arg : AttrArg) :
    evaluate target (parseCfgAttrArg read arg) = true ↔ Holds target read arg := by
  match arg with
  | .keyValue name value =>
    simp only [parseCfgAttrArg, evaluate, Holds, decide_eq_true_eq]
  | .ident name => simp only [parseCfgAttrArg, evaluate, Holds]
  | .strLit _ => simp [parseCfgAttrArg, evaluate, Holds, ident_empty]
  | .literal => simp [parseCfgAttrArg, evaluate, Holds, ident_empty]
  | .call name args =>
    simp only [parseCfgAttrArg, evaluate, Holds]
    by_cases all : name = "all"
    · simp [all, evaluateAll_iff args]
    · by_cases any : name = "any"
      · simp [any, evaluateAny_iff args]
      · by_cases negated : name = "not"
        · simp [negated, evaluateNot_iff args]
        · simp [all, any, negated]

theorem evaluateAll_iff (args : List AttrArg) :
    evaluateAll target (parseCfgAttrArgs read args) = true ↔ HoldAll target read args := by
  match args with
  | [] => simp [parseCfgAttrArgs, evaluateAll, HoldAll]
  | arg :: args =>
    simp [parseCfgAttrArgs, evaluateAll, HoldAll, evaluate_iff arg, evaluateAll_iff args]

theorem evaluateAny_iff (args : List AttrArg) :
    evaluateAny target (parseCfgAttrArgs read args) = true ↔ HoldAny target read args := by
  match args with
  | [] => simp [parseCfgAttrArgs, evaluateAny, HoldAny]
  | arg :: args =>
    simp [parseCfgAttrArgs, evaluateAny, HoldAny, evaluate_iff arg, evaluateAny_iff args]

theorem evaluateNot_iff (args : List AttrArg) :
    evaluateNot target (parseCfgAttrArgs read args) = true ↔ HoldNot target read args := by
  match args with
  | [] => simp [parseCfgAttrArgs, evaluateNot, HoldNot]
  | [arg] =>
    have single : evaluate target (parseCfgAttrArg read arg) = true ↔ Holds target read arg :=
      evaluate_iff arg
    simp [parseCfgAttrArgs, evaluateNot, HoldNot, ← single]
  | _ :: _ :: _ => simp [parseCfgAttrArgs, evaluateNot, HoldNot]

end

/-- Whether two readings of a pair of operands come out alike. `First` and `Second` say that an
operand leaves the value of the pair open. A first operand that is read alike decides whether
the second one counts; one that is not does no harm only where the second settles the value. -/
def InTurn (First Second alike alike' : Prop) : Prop :=
  (alike ∧ (First → alike')) ∨ (¬alike ∧ (First → ¬Second) ∧ (¬First → (Second ↔ ¬alike')))

mutual

/-- Whether the quotes of its strings make no difference to an argument. -/
def ReadAlike (target : TargetInfo) : AttrArg → Prop
  | .keyValue name (.strLit text) =>
    unquote text = text ∨ target.get name = [] ∨
      (target.get name ≠ text ∧ target.get name ≠ unquote text)
  | .call name args =>
    if name = "all" then AllAlike target args
    else if name = "any" then AnyAlike target args
    else name = "not" → NotAlike target args
  | _ => True

def AllAlike (target : TargetInfo) : List AttrArg → Prop
  | [] => True
  | arg :: args =>
    InTurn (Holds target unquote arg) (HoldAll target unquote args) (ReadAlike target arg)
      (AllAlike target args)

def AnyAlike (target : TargetInfo) : List AttrArg → Prop
  | [] => True
  | arg :: args =>
    InTurn (¬Holds target unquote arg) (¬HoldAny target unquote args) (ReadAlike target arg)
      (AnyAlike target args)

def NotAlike (target : TargetInfo) : List AttrArg → Prop
  | [arg] => ReadAlike target arg
  | _ => True

end

/-- The attribute is a `cfg` with arguments that all hold. -/
def Active (target : TargetInfo) (a : Attribute) : Prop :=
  a.name = "cfg" → ∃ args, a.args = some args ∧ args ≠ [] ∧ HoldAll target unquote args

/-- The registry stops at the first argument: those behind it count as read alike where they all
hold, and matter only where the first one holds. -/
def ArgsAlike (target : TargetInfo) : Option (List AttrArg) → Prop
  | some (arg :: args) =>
    InTurn (Holds target unquote arg) (HoldAll target unquote args) (ReadAlike target arg)
      (HoldAll target unquote args)
  | _ => True

def AttrsAlike (target : TargetInfo) : List Attribute → Prop
  | [] => True
  | a :: attrs =>
    InTurn (Active target a) (∀ a ∈ attrs, Active target a)
      (a.name = "cfg" → ArgsAlike target a.args) (AttrsAlike target attrs)

end Meaning

section Agreement

variable {target : TargetInfo} {read : Text → Text}

theorem parse_map (args : List AttrArg) :
    args.map (parseCfgAttrArg read) = parseCfgAttrArgs read args := by
  induction args with
  | nil => rfl
  | cons arg args ih => rw [List.map_cons, ih, parseCfgAttrArgs]

theorem attribute_iff (a : Attribute) :
    evaluate target (parseCfgFromAttribute (parseCfgAttrArg read) a) = true ↔
      ∃ args, a.args = some args ∧ args ≠ [] ∧ HoldAll target read args := by
  rcases a with ⟨name, args⟩
  match args with
  | none => simp [parseCfgFromAttribute, evaluate, ident_true]
  | some [] => simp [parseCfgFromAttribute, evaluate, ident_true]
  | some [arg] => simp [parseCfgFromAttribute, evaluate_iff, HoldAll]
  | some (first :: second :: rest) =>
    simp only [parseCfgFromAttribute, parse_map, evaluate, if_true, evaluateAll_iff]
    simp

theorem active_iff (a : Attribute) :
    (if a.name ≠ "cfg" then true else evaluate target (irParseCfgFromAttribute a)) = true ↔
      Active target a := by
  by_cases cfg : a.name = "cfg"
  · simp only [cfg, ne_eq, not_true_eq_false, if_false, Active, true_imp_iff]
    exact attribute_iff a
  · simp [cfg, Active]

variable {a a' b b' alike alike' : Prop}

theorem and_inTurn (first : b ↔ (a ↔ alike)) (second : b' ↔ (a' ↔ alike')) :
    b ∧ b' ↔ (a ∧ a' ↔ InTurn a a' alike alike') := by
  unfold InTurn
  tauto

theorem or_inTurn (first : b ↔ (a ↔ alike)) (second : b' ↔ (a' ↔ alike')) :
    b ∨ b' ↔ (a ∨ a' ↔ InTurn (¬a) (¬a') alike alike') := by
  unfold InTurn
  tauto

theorem comparison_alike {value text other : Text} :
    (value ≠ [] ∧ value = text) ↔
      ((value ≠ [] ∧ value = other) ↔
        (other = text ∨ value = [] ∨ (value ≠ text ∧ value ≠ other))) := by
  by_cases empty : value = []
  · simp [empty]
  · by_cases same : other = text
    · simp [same]
    · by_cases here : value = text
      · simp [here, same, Ne.symm same]
      · simp [empty, here, same]

mutual

theorem holds_id_iff (arg : AttrArg) :
    Holds target id arg ↔ (Holds target unquote arg ↔ ReadAlike target arg) := by
  match arg with
  | .keyValue name value =>
    cases value with
    | strLit text => exact comparison_alike
    | _ => simp [Holds, ReadAlike, valueText]
  | .ident _ | .strLit _ | .literal => simp [Holds, ReadAlike]
  | .call name args =>
    simp only [Holds, ReadAlike]
    by_cases all : name = "all"
    · simpa [all] using holdAll_id_iff args
    · by_cases any : name = "any"
      · simpa [any] using holdAny_id_iff args
      · by_cases negated : name = "not"
        · simpa [negated] using holdNot_id_iff args
        · simp [all, any, negated]

theorem holdAll_id_iff (args : List AttrArg) :
    HoldAll target id args ↔ (HoldAll target unquote args ↔ AllAlike target args) := by
  match args with
  | [] => simp [HoldAll, AllAlike]
  | arg :: args => exact and_inTurn (holds_id_iff arg) (holdAll_id_iff args)

theorem holdAny_id_iff (args : List AttrArg) :
    HoldAny target id args ↔ (HoldAny target unquote args ↔ AnyAlike target args) := by
  match args with
  | [] => simp [HoldAny, AnyAlike]
  | arg :: args => exact or_inTurn (holds_id_iff arg) (holdAny_id_iff args)

theorem holdNot_id_iff (args : List AttrArg) :
    HoldNot target id args ↔ (HoldNot target unquote args ↔ NotAlike target args) := by
  match args with
  | [] | _ :: _ :: _ => simp [HoldNot, NotAlike]
  | [arg] =>
    have single := holds_id_iff arg
    simp only [HoldNot, NotAlike]
    tauto

end

/-- What the registry makes of one attribute. -/
theorem registry_iff (a : Attribute) :
    (if a.name ≠ "cfg" then true
      else
        match a.args with
        | none => false
        | some [] => false
        | some (arg :: _) => evaluate target (parsePred arg)) = true ↔
      (Active target a ↔ (a.name = "cfg" → ArgsAlike target a.args)) := by
  rcases a with ⟨name, args⟩
  by_cases cfg : name = "cfg"
  · match args with
    | none => simp [cfg, Active, ArgsAlike]
    | some [] => simp [cfg, Active, ArgsAlike]
    | some (arg :: args) =>
      have rest : True ↔ (HoldAll target unquote args ↔ HoldAll target unquote args) :=
        iff_of_true trivial .rfl
      simpa [cfg, Active, ArgsAlike, HoldAll, parsePred, evaluate_iff] using
        and_inTurn (holds_id_iff arg) rest
  · simp [cfg, Active]

theorem irDeclActive_iff (attrs : List Attribute) :
    irDeclActive attrs target = true ↔ ∀ a ∈ attrs, Active target a := by
  simp only [irDeclActive, List.all_eq_true, active_iff]

theorem declIsActiveForTarget_iff (attrs : List Attribute) :
    declIsActiveForTarget attrs target = true ↔
      ((∀ a ∈ attrs, Active target a) ↔ AttrsAlike target attrs) := by
  induction attrs with
  | nil => simp [declIsActiveForTarget, AttrsAlike]
  | cons a attrs ih =>
    rw [declIsActiveForTarget, List.all_cons, Bool.and_eq_true, List.forall_mem_cons, AttrsAlike]
    exact and_inTurn (registry_iff a) ih

theorem declActive_eq (attrs : List Attribute) :
    declActive attrs target = irDeclActive attrs target := rfl

/-- The three decide alike just when neither the quotes of a string nor an argument behind the
first makes a difference where the attributes, read in their order, still leave the decision
open. -/
theorem same_decision_iff (attrs : List Attribute) (target : TargetInfo) :
    (declIsActiveForTarget attrs target = irDeclActive attrs target ∧
        irDeclActive attrs target = declActive attrs target) ↔ AttrsAlike target attrs := by
  rw [declActive_eq, and_iff_left rfl, Bool.eq_iff_iff, declIsActiveForTarget_iff, irDeclActive_iff]
  tauto

def x8664Linux : TargetInfo where
  os := ['l', 'i', 'n', 'u', 'x']
  arch := ['x', '8', '6', '_', '6', '4']
  endian := ['l', 'i', 't', 't', 'l', 'e']
  pointerWidth := 64
  osFamily := ['u', 'n', 'i', 'x']
  triple := "x86_64-unknown-linux-gnu".toList
  debug := false

/-- `#[cfg(target_os = "linux")]` -/
def onLinux : List Attribute :=
  [⟨"cfg", some [.keyValue "target_os" (.strLit ['"', 'l', 'i', 'n', 'u', 'x', '"'])]⟩]

/-- On Linux the declaration is compiled, and not exported. -/
theorem compiled_not_exported :
    irDeclActive onLinux x8664Linux = true ∧ declIsActiveForTarget onLinux x8664Linux = false := by
  decide

end Agreement

end Lucis.ConditionalCompilation
