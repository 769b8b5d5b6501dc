import Mathlib.Logic.Relation

/-!
`Checker::isAssignable` of checkers/Checker_type.cpp. A `TypeInfo` is reached
through a reference, as the checker's pointers do, and carries the fields the
judgement reads or that say what its parts are; a null type, which is an unknown
one, is accepted before the judgement starts. The types that a type is made from
are there before it, while unions may refer to themselves through their fields.
-/

namespace Lucis.Assignable

inductive TypeKind where
  | integer
  | float
  | bool
  | char
  | void
  | string
  | struct
  | union
  | enum
  | pointer
  | function
  | extended
  | bitStruct
  | tuple
  | vaList
  | closure
  | fallible
  | trait
  deriving DecidableEq

structure FieldInfo (Ref : Type) where
  name : String
  typeInfo : Ref
  arrayDims : Nat

structure TypeInfo (Ref : Type) where
  name : String
  kind : TypeKind
  bitWidth : Nat := 0
  isSigned : Bool := false
  fields : List (FieldInfo Ref) := []
  parentType : Option Ref := none
  pointeeType : Option Ref := none
  returnType : Option Ref := none
  paramTypes : List Ref := []
  paramDims : List Nat := []
  isVariadic : Bool := false
  variadicElementType : Option Ref := none
  elementType : Option Ref := none
  keyType : Option Ref := none
  valueType : Option Ref := none
  successType : Option Ref := none
  errorType : Option Ref := none
  extendedKind : String := ""
  tupleElements : List Ref := []

inductive TypeInfo.MadeFrom {Ref : Type} (t : TypeInfo Ref) (part : Ref) : Prop where
  | parent (is : t.parentType = some part)
  | element (is : t.elementType = some part)
  | key (is : t.keyType = some part)
  | value (is : t.valueType = some part)
  | success (is : t.successType = some part)
  | error (is : t.errorType = some part)

structure Types (Ref : Type) where
  info : Ref → TypeInfo Ref
  age : Ref → Nat
  made : ∀ t part, (info t).MadeFrom part → age part < age t

section Cascade

variable {Ref : Type} [DecidableEq Ref] (T : Types Ref)

def width (t : TypeInfo Ref) : Nat :=
  if t.bitWidth = 0 then 64 else t.bitWidth

def integers (lhs rhs : TypeInfo Ref) : Bool :=
  lhs.kind = .integer ∧ rhs.kind = .integer ∧
    (lhs.isSigned = rhs.isSigned ∨
      (lhs.isSigned = false ∧ rhs.isSigned = true ∧ width lhs ≤ width rhs) ∨
      (rhs.isSigned = false ∧ lhs.isSigned = true ∧ width rhs ≤ width lhs))

def pointsToFunction (t : TypeInfo Ref) : Bool :=
  t.kind = .pointer ∧ t.pointeeType.any fun pointee => (T.info pointee).kind = .function

def mixed (lhs rhs : TypeInfo Ref) : Bool :=
  (lhs.kind = .enum ∧ rhs.kind = .integer) ∨ (lhs.kind = .integer ∧ rhs.kind = .enum) ∨
    (lhs.kind = .char ∧ rhs.kind = .integer) ∨ (lhs.kind = .integer ∧ rhs.kind = .char) ∨
    (pointsToFunction T lhs ∧ rhs.kind = .function) ∨
    (pointsToFunction T rhs ∧ lhs.kind = .function)

def alike (lhs rhs : TypeInfo Ref) : Bool :=
  (lhs.kind = .enum ∧ rhs.kind = .enum) ∨ (lhs.kind = .float ∧ rhs.kind = .float) ∨
    (lhs.kind = .function ∧ rhs.kind = .function)

/-- The walk up the parent chain from `ti`. -/
def inherits (lhs ti : Ref) : Bool :=
  if ti = lhs then true
  else
    match _parent : (T.info ti).parentType with
    | some up => inherits lhs up
    | none => false
termination_by T.age ti
decreasing_by exact T.made ti up (.parent _parent)

def isAssignable (lhs rhs : Ref) : Bool :=
  if lhs = rhs then true
  else if (T.info lhs).name = (T.info rhs).name then true
  else if integers (T.info lhs) (T.info rhs) then true
  else if mixed T (T.info lhs) (T.info rhs) then true
  else if alike (T.info lhs) (T.info rhs) then true
  else if (T.info lhs).kind = (T.info rhs).kind then
    if (T.info lhs).kind = .extended then
      if (T.info lhs).extendedKind ≠ (T.info rhs).extendedKind then false
      else
        (match _element : (T.info lhs).elementType, (T.info rhs).elementType with
          | some a, some b => isAssignable a b
          | _, _ => true) &&
        (match _key : (T.info lhs).keyType, (T.info rhs).keyType with
          | some a, some b => isAssignable a b
          | _, _ => true) &&
        (match _value : (T.info lhs).valueType, (T.info rhs).valueType with
          | some a, some b => isAssignable a b
          | _, _ => true)
    else true
  -- the kinds differ from here on, so the walk up the parents never starts
  else if ((T.info lhs).kind = .struct ∧ (T.info rhs).kind = .struct) ∧ inherits T lhs rhs then true
  else if (T.info lhs).kind = .fallible then
    (match _success : (T.info lhs).successType with
      | some a => isAssignable a rhs
      | none => false) ||
    (match _error : (T.info lhs).errorType with
      | some a => isAssignable a rhs
      | none => false)
  else false
termination_by T.age lhs
decreasing_by
  · exact T.made lhs a (.element _element)
  · exact T.made lhs a (.key _key)
  · exact T.made lhs a (.value _value)
  · exact T.made lhs a (.success _success)
  · exact T.made lhs a (.error _error)

end Cascade

section Judgement

variable {Ref : Type} (T : Types Ref)

/-- `lhs` is `rhs` or above it in the parent chain. -/
def Ancestor (lhs rhs : Ref) : Prop :=
  Relation.ReflTransGen (fun ti up => (T.info ti).parentType = some up) rhs lhs

/-- The values of `rhs` are values of `lhs`; within one signedness every width is accepted. -/
def Represents (lhs rhs : TypeInfo Ref) : Prop :=
  lhs.isSigned = rhs.isSigned ∨
    (lhs.isSigned = true ∧ rhs.isSigned = false ∧ width rhs < width lhs)

def TypeKind.Plain (kind : TypeKind) : Prop :=
  kind ∉ [.integer, .struct, .union, .pointer, .function, .extended, .tuple, .fallible]

/-- What assignability is to mean: one rule for each kind, parts where both types have them. -/
inductive Compatible : Ref → Ref → Prop where
  | same (t : Ref) : Compatible t t
  | between {lhs rhs : Ref} (rule : mixed T (T.info lhs) (T.info rhs) = true) : Compatible lhs rhs
  | simple {lhs rhs : Ref} (kinds : (T.info lhs).kind = (T.info rhs).kind)
      (closed : (T.info lhs).kind.Plain) : Compatible lhs rhs
  | integer {lhs rhs : Ref} (left : (T.info lhs).kind = .integer)
      (right : (T.info rhs).kind = .integer) (fits : Represents (T.info lhs) (T.info rhs)) :
      Compatible lhs rhs
  | struct {lhs rhs : Ref} (left : (T.info lhs).kind = .struct)
      (right : (T.info rhs).kind = .struct) (above : Ancestor T lhs rhs) : Compatible lhs rhs
  | union {lhs rhs : Ref} (left : (T.info lhs).kind = .union) (right : (T.info rhs).kind = .union)
      (labels : (T.info lhs).fields.map (fun f => (f.name, f.arrayDims)) =
        (T.info rhs).fields.map fun f => (f.name, f.arrayDims))
      (types : ∀ (i : Nat) (f g : FieldInfo Ref), (T.info lhs).fields[i]? = some f →
        (T.info rhs).fields[i]? = some g → Compatible f.typeInfo g.typeInfo) :
      Compatible lhs rhs
  | pointer {lhs rhs : Ref} (left : (T.info lhs).kind = .pointer)
      (right : (T.info rhs).kind = .pointer)
      (pointees : ∀ a b, (T.info lhs).pointeeType = some a → (T.info rhs).pointeeType = some b →
        Compatible a b) : Compatible lhs rhs
  | tuple {lhs rhs : Ref} (left : (T.info lhs).kind = .tuple) (right : (T.info rhs).kind = .tuple)
      (count : (T.info lhs).tupleElements.length = (T.info rhs).tupleElements.length)
      (elements : ∀ (i : Nat) (a b : Ref), (T.info lhs).tupleElements[i]? = some a →
        (T.info rhs).tupleElements[i]? = some b → Compatible a b) : Compatible lhs rhs
  | function {lhs rhs : Ref} (left : (T.info lhs).kind = .function)
      (right : (T.info rhs).kind = .function)
      (count : (T.info lhs).paramTypes.length = (T.info rhs).paramTypes.length)
      (dims : (T.info lhs).paramDims = (T.info rhs).paramDims)
      (params : ∀ (i : Nat) (a b : Ref), (T.info lhs).paramTypes[i]? = some a →
        (T.info rhs).paramTypes[i]? = some b → Compatible a b)
      (returns : ∀ a b, (T.info lhs).returnType = some a → (T.info rhs).returnType = some b →
        Compatible a b)
      (variadic : (T.info lhs).isVariadic = (T.info rhs).isVariadic)
      (rest : ∀ a b, (T.info lhs).variadicElementType = some a →
        (T.info rhs).variadicElementType = some b → Compatible a b) : Compatible lhs rhs
  | collection {lhs rhs : Ref} (left : (T.info lhs).kind = .extended)
      (right : (T.info rhs).kind = .extended)
      (base : (T.info lhs).extendedKind = (T.info rhs).extendedKind)
      (element : ∀ a b, (T.info lhs).elementType = some a → (T.info rhs).elementType = some b →
        Compatible a b)
      (key : ∀ a b, (T.info lhs).keyType = some a → (T.info rhs).keyType = some b →
        Compatible a b)
      (value : ∀ a b, (T.info lhs).valueType = some a → (T.info rhs).valueType = some b →
        Compatible a b) : Compatible lhs rhs
  | fallible {lhs rhs : Ref} (left : (T.info lhs).kind = .fallible)
      (right : (T.info rhs).kind = .fallible)
      (success : ∀ a b, (T.info lhs).successType = some a → (T.info rhs).successType = some b →
        Compatible a b)
      (error : ∀ a b, (T.info lhs).errorType = some a → (T.info rhs).errorType = some b →
        Compatible a b) : Compatible lhs rhs
  | wrapSuccess {lhs rhs a : Ref} (left : (T.info lhs).kind = .fallible)
      (success : (T.info lhs).successType = some a) (inner : Compatible a rhs) : Compatible lhs rhs
  | wrapError {lhs rhs a : Ref} (left : (T.info lhs).kind = .fallible)
      (error : (T.info lhs).errorType = some a) (inner : Compatible a rhs) : Compatible lhs rhs

def Both (ask : Ref → Ref → Prop) (left right : Option Ref) : Prop :=
  ∀ a b, left = some a → right = some b → ask a b

/-- Two collections of one base, which are compared by their parts. -/
structure Collections (lhs rhs : Ref) : Prop where
  name : (T.info lhs).name ≠ (T.info rhs).name
  left : (T.info lhs).kind = .extended
  right : (T.info rhs).kind = .extended
  base : (T.info lhs).extendedKind = (T.info rhs).extendedKind

/-- A fallible and a type that it may hold. -/
structure Wrapped (lhs rhs : Ref) : Prop where
  name : (T.info lhs).name ≠ (T.info rhs).name
  kind : (T.info lhs).kind ≠ (T.info rhs).kind
  apart : mixed T (T.info lhs) (T.info rhs) ≠ true
  fallible : (T.info lhs).kind = .fallible

/-- The pairs a comparison goes on to, where `ask` answers those before: the parts of two
collections up to the first that differs, and what a fallible holds up to the first that fits. -/
inductive Inside (ask : Ref → Ref → Prop) : Ref × Ref → Ref × Ref → Prop where
  | element {lhs rhs a b : Ref} (collections : Collections T lhs rhs)
      (left : (T.info lhs).elementType = some a) (right : (T.info rhs).elementType = some b) :
      Inside ask (lhs, rhs) (a, b)
  | key {lhs rhs a b : Ref} (collections : Collections T lhs rhs)
      (element : Both ask (T.info lhs).elementType (T.info rhs).elementType)
      (left : (T.info lhs).keyType = some a) (right : (T.info rhs).keyType = some b) :
      Inside ask (lhs, rhs) (a, b)
  | value {lhs rhs a b : Ref} (collections : Collections T lhs rhs)
      (element : Both ask (T.info lhs).elementType (T.info rhs).elementType)
      (key : Both ask (T.info lhs).keyType (T.info rhs).keyType)
      (left : (T.info lhs).valueType = some a) (right : (T.info rhs).valueType = some b) :
      Inside ask (lhs, rhs) (a, b)
  | success {lhs rhs a : Ref} (wrapped : Wrapped T lhs rhs)
      (left : (T.info lhs).successType = some a) : Inside ask (lhs, rhs) (a, rhs)
  | error {lhs rhs a : Ref} (wrapped : Wrapped T lhs rhs)
      (success : ∀ b, (T.info lhs).successType = some b → ¬ ask b rhs)
      (left : (T.info lhs).errorType = some a) : Inside ask (lhs, rhs) (a, rhs)

def Throughout (ask P : Ref → Ref → Prop) (lhs rhs : Ref) : Prop :=
  ∀ a b, Relation.ReflTransGen (Inside T ask) (lhs, rhs) (a, b) → P a b

/-- Types that are accepted unseen, by their name or by their kind, may be accepted. -/
def Distinguished (lhs rhs : Ref) : Prop :=
  ((T.info lhs).name = (T.info rhs).name ∨
    ((T.info lhs).kind = (T.info rhs).kind ∧ (T.info lhs).kind ≠ .extended)) → Compatible T lhs rhs

variable [DecidableEq Ref]

def Accepts (lhs rhs : Ref) : Prop := isAssignable T lhs rhs = true

/-- The code's answer on two types is the judgement's, for structs in both directions. -/
structure Sound (lhs rhs : Ref) : Prop where
  accepted : isAssignable T lhs rhs = true → Compatible T lhs rhs
  structs : (T.info lhs).kind = .struct → (T.info rhs).kind = .struct →
    (isAssignable T lhs rhs = true ↔ Ancestor T lhs rhs)

end Judgement

section Acceptance

variable {Ref : Type} [DecidableEq Ref] {T : Types Ref} {lhs rhs : Ref}

theorem accepts_kind (same : (T.info lhs).kind = (T.info rhs).kind)
    (closed : (T.info lhs).kind ≠ .extended) : isAssignable T lhs rhs = true := by
  rw [isAssignable]
  rw [same] at closed
  simp [same, closed]

omit [DecidableEq Ref] in
theorem integers_kind (rule : integers (T.info lhs) (T.info rhs) = true) :
    (T.info lhs).kind = (T.info rhs).kind ∧ (T.info lhs).kind ≠ .extended := by
  simp only [integers, Bool.decide_and, Bool.and_eq_true, decide_eq_true_eq] at rule
  rw [rule.1, rule.2.1]
  exact ⟨rfl, by decide⟩

omit [DecidableEq Ref] in
theorem alike_kind (rule : alike (T.info lhs) (T.info rhs) = true) :
    (T.info lhs).kind = (T.info rhs).kind ∧ (T.info lhs).kind ≠ .extended := by
  simp only [alike, decide_eq_true_eq] at rule
  rcases rule with ⟨left, right⟩ | ⟨left, right⟩ | ⟨left, right⟩
  · rw [left, right]
    exact ⟨rfl, by decide⟩
  · rw [left, right]
    exact ⟨rfl, by decide⟩
  · rw [left, right]
    exact ⟨rfl, by decide⟩

omit [DecidableEq Ref] in
/-- Where a part is missing, nothing is asked of it. -/
theorem both_iff (ask : Ref → Ref → Prop) (left right : Option Ref) {answer : Bool}
    (present : ∀ a b, left = some a → right = some b → (answer = true ↔ ask a b))
    (missing : left = none ∨ right = none → answer = true) :
    answer = true ↔ Both ask left right := by
  cases left with
  | none => simp [Both, missing]
  | some a =>
    cases right with
    | none => simp [Both, missing]
    | some b => simp [Both, present a b]

theorem collection_iff (name : (T.info lhs).name ≠ (T.info rhs).name)
    (left : (T.info lhs).kind = .extended) (right : (T.info rhs).kind = .extended) :
    Accepts T lhs rhs ↔ (T.info lhs).extendedKind = (T.info rhs).extendedKind ∧
      Both (Accepts T) (T.info lhs).elementType (T.info rhs).elementType ∧
      Both (Accepts T) (T.info lhs).keyType (T.info rhs).keyType ∧
      Both (Accepts T) (T.info lhs).valueType (T.info rhs).valueType := by
  have different : lhs ≠ rhs := fun same => name (congrArg (fun t => (T.info t).name) same)
  rw [Accepts, isAssignable]
  simp only [different, name, left, right, integers, mixed, alike, pointsToFunction, if_false,
    if_true, reduceCtorEq, false_and, and_false, or_false, decide_false,
    Bool.false_eq_true]
  by_cases base : (T.info lhs).extendedKind = (T.info rhs).extendedKind
  · rw [if_neg fun differ => differ base, Bool.and_eq_true, Bool.and_eq_true, and_assoc,
      and_iff_right base]
    refine and_congr (both_iff (Accepts T) _ _ ?_ ?_)
      (and_congr (both_iff (Accepts T) _ _ ?_ ?_) (both_iff (Accepts T) _ _ ?_ ?_))
    all_goals
      intros
      split <;> simp_all [Accepts]
  · rw [if_pos base]
    exact iff_of_false Bool.false_ne_true fun accepted => base accepted.1

theorem wrapped_iff (name : (T.info lhs).name ≠ (T.info rhs).name)
    (kind : (T.info lhs).kind ≠ (T.info rhs).kind)
    (between : mixed T (T.info lhs) (T.info rhs) ≠ true) :
    Accepts T lhs rhs ↔ (T.info lhs).kind = .fallible ∧
      ((∃ a, (T.info lhs).successType = some a ∧ Accepts T a rhs) ∨
        ∃ a, (T.info lhs).errorType = some a ∧ Accepts T a rhs) := by
  have different : lhs ≠ rhs := fun same => name (congrArg (fun t => (T.info t).name) same)
  have one : integers (T.info lhs) (T.info rhs) ≠ true := fun rule => kind (integers_kind rule).1
  have two : alike (T.info lhs) (T.info rhs) ≠ true := fun rule => kind (alike_kind rule).1
  have three : ¬ ((T.info lhs).kind = .struct ∧ (T.info rhs).kind = .struct) := by
    rintro ⟨left, right⟩
    exact kind (left.trans right.symm)
  rw [Accepts, isAssignable]
  simp only [different, name, one, between, two, kind, three, false_and, if_false,
    Bool.false_eq_true]
  by_cases fallible : (T.info lhs).kind = .fallible
  · rw [if_pos fallible, Bool.or_eq_true, and_iff_right fallible]
    refine or_congr ?_ ?_
    · split <;> simp_all [Accepts]
    · split <;> simp_all [Accepts]
  · rw [if_neg fallible]
    exact iff_of_false Bool.false_ne_true fun accepted => fallible accepted.1

end Acceptance

section Exactness

variable {Ref : Type} [DecidableEq Ref] {T : Types Ref}

/-- What may be accepted is accepted: the code errs only by accepting too much. -/
theorem accepts_of_compatible {lhs rhs : Ref} (compatible : Compatible T lhs rhs) :
    Accepts T lhs rhs := by
  have named {lhs rhs : Ref} (name : (T.info lhs).name = (T.info rhs).name) :
      Accepts T lhs rhs := by
    rw [Accepts, isAssignable]
    simp [name]
  have wrapped {lhs rhs a : Ref} (left : (T.info lhs).kind = .fallible)
      (held : (T.info lhs).successType = some a ∨ (T.info lhs).errorType = some a)
      (inner : Accepts T a rhs) : Accepts T lhs rhs := by
    by_cases name : (T.info lhs).name = (T.info rhs).name
    · exact named name
    by_cases kind : (T.info lhs).kind = (T.info rhs).kind
    · exact accepts_kind kind (by rw [left]; decide)
    have between : mixed T (T.info lhs) (T.info rhs) ≠ true := by
      simp [mixed, pointsToFunction, left]
    refine (wrapped_iff name kind between).2 ⟨left, ?_⟩
    exact held.imp (fun success => ⟨a, success, inner⟩) fun error => ⟨a, error, inner⟩
  have kinds {lhs rhs : Ref} {kind : TypeKind} (left : (T.info lhs).kind = kind)
      (right : (T.info rhs).kind = kind) (closed : kind ≠ .extended) : Accepts T lhs rhs :=
    accepts_kind (left.trans right.symm) (by rwa [left])
  induction compatible with
  | same t => exact named rfl
  | between rule =>
    rw [Accepts, isAssignable]
    simp [rule]
  | simple same closed => exact kinds same rfl fun extended => closed (by simp [same, extended])
  | integer left right _ => exact kinds left right (by decide)
  | struct left right _ => exact kinds left right (by decide)
  | union left right _ _ _ => exact kinds left right (by decide)
  | pointer left right _ _ => exact kinds left right (by decide)
  | tuple left right _ _ _ => exact kinds left right (by decide)
  | function left right _ _ _ _ _ _ _ _ _ => exact kinds left right (by decide)
  | @collection lhs rhs left right base _ _ _ element key value =>
    by_cases name : (T.info lhs).name = (T.info rhs).name
    · exact named name
    · exact (collection_iff name left right).2 ⟨base, element, key, value⟩
  | fallible left right _ _ _ _ => exact kinds left right (by decide)
  | wrapSuccess left success _ inner => exact wrapped left (.inl success) inner
  | wrapError left error _ inner => exact wrapped left (.inr error) inner

/-- Where nothing is accepted unseen that may not be, an accepted pair is compatible. The
induction is on the age of the left type, which every comparison inside lowers. -/
theorem accepted_compatible (n : Nat) :
    ∀ lhs rhs, T.age lhs < n → Throughout T (Compatible T) (Distinguished T) lhs rhs →
      Accepts T lhs rhs → Compatible T lhs rhs := by
  induction n with
  | zero => exact fun _ _ young => absurd young (Nat.not_lt_zero _)
  | succ n ih =>
    intro lhs rhs young distinguished accepted
    have here := distinguished lhs rhs .refl
    have inside : ∀ a b, Inside T (Compatible T) (lhs, rhs) (a, b) → T.age a < T.age lhs →
        Accepts T a b → Compatible T a b := by
      intro a b step older
      apply ih a b (Nat.lt_of_lt_of_le older (Nat.le_of_lt_succ young))
      intro c d below
      exact distinguished c d (.head step below)
    -- one case for each rule by which `isAssignable` takes a pair
    by_cases name : (T.info lhs).name = (T.info rhs).name
    · exact here (.inl name)
    by_cases kind : (T.info lhs).kind = (T.info rhs).kind
    · by_cases left : (T.info lhs).kind = .extended
      · have right := kind ▸ left
        obtain ⟨base, element, key, value⟩ := (collection_iff name left right).1 accepted
        have collections : Collections T lhs rhs := ⟨name, left, right, base⟩
        have element : Both (Compatible T) (T.info lhs).elementType (T.info rhs).elementType := by
          intro a b first second
          exact inside a b (.element collections first second) (T.made lhs a (.element first))
            (element a b first second)
        have key : Both (Compatible T) (T.info lhs).keyType (T.info rhs).keyType := by
          intro a b first second
          exact inside a b (.key collections element first second) (T.made lhs a (.key first))
            (key a b first second)
        refine .collection left right base element key ?_
        intro a b first second
        exact inside a b (.value collections element key first second) (T.made lhs a (.value first))
          (value a b first second)
      · exact here (.inr ⟨kind, left⟩)
    by_cases between : mixed T (T.info lhs) (T.info rhs) = true
    · exact .between between
    obtain ⟨fallible, held⟩ := (wrapped_iff name kind between).1 accepted
    have wrapped : Wrapped T lhs rhs := ⟨name, kind, between, fallible⟩
    by_cases first : ∃ a, (T.info lhs).successType = some a ∧ Accepts T a rhs
    · obtain ⟨a, success, inner⟩ := first
      exact .wrapSuccess fallible success
        (inside a rhs (.success wrapped success) (T.made lhs a (.success success)) inner)
    · obtain ⟨a, error, inner⟩ := held.resolve_left first
      have refused : ∀ b, (T.info lhs).successType = some b → ¬ Compatible T b rhs :=
        fun b success fits => first ⟨b, success, accepts_of_compatible fits⟩
      exact .wrapError fallible error
        (inside a rhs (.error wrapped refused error) (T.made lhs a (.error error)) inner)

omit [DecidableEq Ref] in
theorem compatible_struct_iff {lhs rhs : Ref} (left : (T.info lhs).kind = .struct)
    (right : (T.info rhs).kind = .struct) : Compatible T lhs rhs ↔ Ancestor T lhs rhs := by
  constructor
  · intro compatible
    cases compatible with
    | same _ => exact .refl
    | between rule => simp [mixed, pointsToFunction, left, right] at rule
    | simple _ closed => simp [TypeKind.Plain, left] at closed
    | struct _ _ above => exact above
    | integer kind _ _ => simp [left] at kind
    | union kind _ _ _ => simp [left] at kind
    | pointer kind _ _ => simp [left] at kind
    | tuple kind _ _ _ => simp [left] at kind
    | function kind _ _ _ _ _ _ _ => simp [left] at kind
    | collection kind _ _ _ _ _ => simp [left] at kind
    | fallible kind _ _ _ => simp [left] at kind
    | wrapSuccess kind _ _ => simp [left] at kind
    | wrapError kind _ _ => simp [left] at kind
  · exact .struct left right

theorem sound_of_distinguished {lhs rhs : Ref}
    (distinguished : Throughout T (Compatible T) (Distinguished T) lhs rhs) : Sound T lhs rhs := by
  have accepted := accepted_compatible (T.age lhs + 1) lhs rhs (Nat.lt_succ_self _) distinguished
  refine ⟨accepted, fun left right => ?_⟩
  rw [← compatible_struct_iff left right]
  constructor
  · exact accepted
  · intro _
    exact accepts_kind (left.trans right.symm) (by rw [left]; decide)

theorem distinguished_of_sound {lhs rhs : Ref} (sound : Sound T lhs rhs) :
    Distinguished T lhs rhs := by
  rintro (name | ⟨kind, closed⟩)
  · exact sound.accepted (by rw [isAssignable]; simp [name])
  · exact sound.accepted (accepts_kind kind closed)

omit [DecidableEq Ref] in
/-- One answerer may stand for another where the two agree on the pairs asked. -/
theorem inside_of_answers {ask other : Ref → Ref → Prop} {pair part : Ref × Ref}
    (step : Inside T ask pair part)
    (given : ∀ a b, Inside T other pair (a, b) → ask a b → other a b)
    (refused : ∀ a b, Inside T other pair (a, b) → ¬ ask a b → ¬ other a b) :
    Inside T other pair part := by
  cases step with
  | element collections left right => exact .element collections left right
  | key collections element left right =>
    have element' := fun a b first second =>
      given a b (.element collections first second) (element a b first second)
    exact .key collections element' left right
  | value collections element key left right =>
    have element' := fun a b first second =>
      given a b (.element collections first second) (element a b first second)
    have key' := fun a b first second =>
      given a b (.key collections element' first second) (key a b first second)
    exact .value collections element' key' left right
  | success wrapped left => exact .success wrapped left
  | error wrapped success left =>
    have success' := fun b held => refused b _ (.success wrapped held) (success b held)
    exact .error wrapped success' left

/-- At every pair that the comparison reaches. -/
theorem sound_iff_distinguished (lhs rhs : Ref) :
    Throughout T (Accepts T) (Sound T) lhs rhs ↔
      Throughout T (Compatible T) (Distinguished T) lhs rhs := by
  constructor
  · intro sound a b below
    suffices reached : Relation.ReflTransGen (Inside T (Accepts T)) (lhs, rhs) (a, b) from
      distinguished_of_sound (sound a b reached)
    generalize (a, b) = part at below
    induction below with
    | refl => exact .refl
    | tail _ step ih =>
      refine .tail ih (inside_of_answers step (fun _ _ _ => accepts_of_compatible) ?_)
      intro c d part refused accepted
      exact refused ((sound c d (ih.tail part)).accepted accepted)
  · intro distinguished a b below
    suffices reached : Relation.ReflTransGen (Inside T (Compatible T)) (lhs, rhs) (a, b) from
      sound_of_distinguished fun c d further => distinguished c d (reached.trans further)
    generalize (a, b) = part at below
    induction below with
    | refl => exact .refl
    | tail _ step ih =>
      refine .tail ih (inside_of_answers step ?_ fun c d _ refused compatible =>
        refused (accepts_of_compatible compatible))
      intro c d part accepted
      exact (sound_of_distinguished fun e f further =>
        distinguished e f ((ih.tail part).trans further)).accepted accepted

def strangers : Types Bool where
  info t := { name := if t then "Duck" else "Engine", kind := .struct }
  age _ := 0
  made t part made := by cases made <;> simp_all

theorem strangers_assignable :
    isAssignable strangers true false = true ∧ ¬ Sound strangers true false := by
  have accepted : isAssignable strangers true false = true := accepts_kind rfl (by decide)
  refine ⟨accepted, fun sound => ?_⟩
  have above := (sound.structs rfl rfl).mp accepted
  cases above.cases_head with
  | inl same => cases same
  | inr step => rcases step with ⟨_, parent, _⟩; cases parent

end Exactness

end Lucis.Assignable
