import Mathlib.Data.List.Basic

/-!
How structs are passed to and returned from C functions. The classifier decides on the whole
struct, by its size and by whether all it holds is of one floating-point type; the x86-64
System V rule decides for each eightbyte by the fields that reach into it.
-/

namespace Lucis.ABIInfo

section Types

inductive Floating where
  | float
  | double
  deriving DecidableEq

inductive Ty where
  | int (bits : Nat)
  | ptr
  | fp (kind : Floating)
  | array (elem : Ty) (count : Nat)
  | struct (fields : List Ty)

structure DataLayout where
  allocSize : Ty → Nat
  offset : List Ty → Nat → Nat

inductive RegTy where
  | int (bits : Nat)
  | fp (kind : Floating)
  | vector (kind : Floating) (count : Nat)
  | pair (lo hi : Nat)

inductive ABIArgInfo where
  | direct
  | coerce (ty : RegTy)
  | expand (tys : List RegTy)
  | indirect (ty : Ty)

end Types

section Source

def repeatLeaves (step : α → Option α) : Nat → α → Option α
  | 0, state => some state
  | count + 1, state => (step state).bind (repeatLeaves step count)

mutual

/-- The type of the leaves so far and their number; `none` where they are not all of one
floating-point type. -/
def collectHomogeneousFPLeaves : Ty → Option Floating × Nat → Option (Option Floating × Nat)
  | .fp kind, (leafTy, leafCount) =>
    if leafTy.getD kind = kind then some (some kind, leafCount + 1) else none
  | .array elem count, leaves =>
    if count = 0 then none
    else repeatLeaves (fun leaves => collectHomogeneousFPLeaves elem leaves) count leaves
  | .struct [], _ => none
  | .struct (field :: fields), leaves =>
    (collectHomogeneousFPLeaves field leaves).bind (collectFields fields)
  | .int _, _ => none
  | .ptr, _ => none

def collectFields : List Ty → Option Floating × Nat → Option (Option Floating × Nat)
  | [], leaves => some leaves
  | field :: fields, leaves =>
    (collectHomogeneousFPLeaves field leaves).bind (collectFields fields)

end

def isHomogeneousFPAggregate (ty : Ty) : Bool :=
  match collectHomogeneousFPLeaves ty (none, 0) with
  | some (_, leafCount) => 0 < leafCount
  | none => false

variable (dl : DataLayout)

def getSingleEightbyteFPCoerceType (fields : List Ty) : Option RegTy :=
  let size := dl.allocSize (.struct fields)
  if size = 0 ∨ 8 < size then none
  else
    match collectHomogeneousFPLeaves (.struct fields) (none, 0) with
    | some (some leafTy, leafCount) =>
      let leafSize := dl.allocSize (.fp leafTy)
      if leafCount = 0 ∨ leafSize = 0 then none
      -- Aggregates with padding are left alone.
      else if leafCount * leafSize ≠ size then none
      else if leafCount = 1 then some (.fp leafTy)
      else some (.vector leafTy leafCount)
    | _ => none

def classifyStruct (fields : List Ty) (isReturn : Bool) : ABIArgInfo :=
  let size := dl.allocSize (.struct fields)
  if size = 0 then .direct
  else
    match getSingleEightbyteFPCoerceType dl fields with
    | some fpCoerceTy => .coerce fpCoerceTy
    | none =>
      if size ≤ 16 ∧ isHomogeneousFPAggregate (.struct fields) then .direct
      else if size ≤ 8 then .coerce (.int (size * 8))
      else if size ≤ 16 then
        let hiSize := size - 8
        if isReturn then .coerce (.pair 64 (hiSize * 8))
        else .expand [.int 64, .int (hiSize * 8)]
      else .indirect (.struct fields)

def classifyReturn : Ty → ABIArgInfo
  | .struct fields => classifyStruct dl fields true
  | _ => .direct

def classifyParam : Ty → ABIArgInfo
  | .struct fields => classifyStruct dl fields false
  | _ => .direct

end Source

section Rule

inductive Class where
  | integer
  | sse
  deriving DecidableEq

structure Leaf where
  offset : Nat
  size : Nat
  cls : Class

def Leaf.Overlaps (leaf : Leaf) (k : Nat) : Prop :=
  leaf.offset < 8 * k + 8 ∧ 8 * k < leaf.offset + leaf.size

variable (dl : DataLayout)

mutual

def leaves (offset : Nat) : Ty → List Leaf
  | .int bits => [⟨offset, dl.allocSize (.int bits), .integer⟩]
  | .ptr => [⟨offset, dl.allocSize .ptr, .integer⟩]
  | .fp kind => [⟨offset, dl.allocSize (.fp kind), .sse⟩]
  | .array elem count =>
    (List.range count).flatMap fun i => leaves (offset + i * dl.allocSize elem) elem
  | .struct fields => leavesFrom offset (dl.offset fields) 0 fields

def leavesFrom (offset : Nat) (place : Nat → Nat) (index : Nat) : List Ty → List Leaf
  | [] => []
  | field :: fields =>
    leaves (offset + place index) field ++ leavesFrom offset place (index + 1) fields

end

def SystemV (ty : Ty) (k : Nat) : Class → Prop
  | .sse => ∀ leaf ∈ leaves dl 0 ty, leaf.Overlaps k → leaf.cls = .sse
  | .integer => ¬ ∀ leaf ∈ leaves dl 0 ty, leaf.Overlaps k → leaf.cls = .sse

def RegTy.classes : RegTy → List Class
  | .int _ => [.integer]
  | .fp _ => [.sse]
  | .vector _ _ => [.sse]
  | .pair _ _ => [.integer, .integer]

/-- The class of the registers in which an eightbyte goes. A struct passed as it is goes leaf by
leaf, each in a register of its own class. -/
def Passes (ty : Ty) (k : Nat) (cls : Class) : ABIArgInfo → Prop
  | .direct => ∀ leaf ∈ leaves dl 0 ty, leaf.Overlaps k → leaf.cls = cls
  | .coerce reg => reg.classes[k]? = some cls
  | .expand regs => (regs.flatMap RegTy.classes)[k]? = some cls
  | .indirect _ => False

/-- Every eightbyte goes in a register of its class, and what has more than two goes in memory. -/
def Agrees (ty : Ty) (info : ABIArgInfo) : Prop :=
  if dl.allocSize ty ≤ 16 then
    ∀ k, 8 * k < dl.allocSize ty → ∀ cls, SystemV dl ty k cls → Passes dl ty k cls info
  else info = .indirect ty

/-- Made of one floating-point type, with no empty array or struct in it. -/
inductive Only (kind : Floating) : Ty → Prop
  | fp : Only kind (.fp kind)
  | array {elem count} (some : count ≠ 0) (each : Only kind elem) : Only kind (.array elem count)
  | struct {fields} (some : fields ≠ []) (each : ∀ field ∈ fields, Only kind field) :
      Only kind (.struct fields)

end Rule

section Homogeneous

variable {kind : Floating} {leafTy leafTy' : Option Floating} {n n' : Nat}

/-- From one count of leaves to a later one, `leafTy` is kept where there is one already. -/
structure Adds (kind : Floating) (before after : Option Floating × Nat) : Prop where
  first : before.1.getD kind = kind
  same : after.1 = some kind
  more : before.2 < after.2

theorem Adds.trans {a b c : Option Floating × Nat} {kind' : Floating} (one : Adds kind a b)
    (two : Adds kind' b c) : kind' = kind ∧ Adds kind a c := by
  obtain rfl : kind' = kind := by
    have first := two.first
    rw [one.same] at first
    exact first.symm
  exact ⟨rfl, one.first, two.same, Nat.lt_trans one.more two.more⟩

theorem repeatLeaves_adds {step} (count : Nat) {a b : Option Floating × Nat}
    (each : ∀ a b, step a = some b → ∃ kind, Only kind elem ∧ Adds kind a b)
    (done : repeatLeaves step (count + 1) a = some b) : ∃ kind, Only kind elem ∧ Adds kind a b := by
  obtain ⟨c, first, rest⟩ := Option.bind_eq_some_iff.1 done
  obtain ⟨kind, only, one⟩ := each a c first
  cases count with
  | zero =>
    cases rest
    exact ⟨kind, only, one⟩
  | succ count =>
    obtain ⟨kind', _, two⟩ := repeatLeaves_adds count each rest
    obtain ⟨rfl, both⟩ := one.trans two
    exact ⟨_, only, both⟩

mutual

theorem collect_adds (ty : Ty) {a b : Option Floating × Nat}
    (collected : collectHomogeneousFPLeaves ty a = some b) :
    ∃ kind, Only kind ty ∧ Adds kind a b := by
  match ty with
  | .fp kind =>
    obtain ⟨leafTy, leafCount⟩ := a
    simp only [collectHomogeneousFPLeaves] at collected
    split at collected
    · next first =>
        cases collected
        exact ⟨kind, .fp, first, rfl, Nat.lt_succ_self _⟩
    · cases collected
  | .array elem 0 => cases collected
  | .array elem (count + 1) =>
    obtain ⟨kind, only, adds⟩ := repeatLeaves_adds count (fun _ _ => collect_adds elem) collected
    exact ⟨kind, .array (Nat.succ_ne_zero _) only, adds⟩
  | .struct [] => cases collected
  | .struct (field :: fields) =>
    obtain ⟨kind, each, adds⟩ :=
      collectFields_adds (field :: fields) (List.cons_ne_nil _ _) collected
    exact ⟨kind, .struct (List.cons_ne_nil _ _) each, adds⟩
  | .int _ => cases collected
  | .ptr => cases collected

theorem collectFields_adds (fields : List Ty) {a b : Option Floating × Nat} (some : fields ≠ [])
    (collected : collectFields fields a = Option.some b) :
    ∃ kind, (∀ ty ∈ fields, Only kind ty) ∧ Adds kind a b := by
  match fields with
  | [] => exact absurd rfl some
  | field :: fields =>
    obtain ⟨c, first, rest⟩ := Option.bind_eq_some_iff.1 collected
    obtain ⟨kind, only, one⟩ := collect_adds field first
    by_cases last : fields = []
    · subst last
      cases rest
      exact ⟨kind, List.forall_mem_singleton.2 only, one⟩
    · obtain ⟨kind', each, two⟩ := collectFields_adds fields last rest
      obtain ⟨rfl, both⟩ := one.trans two
      exact ⟨_, List.forall_mem_cons.2 ⟨only, each⟩, both⟩

end

theorem collects {ty : Ty} (only : Only kind ty) (a : Option Floating × Nat)
    (free : a.1.getD kind = kind) :
    ∃ b, collectHomogeneousFPLeaves ty a = some b ∧ b.1.getD kind = kind ∧ a.2 < b.2 := by
  induction only generalizing a with
  | fp => exact ⟨_, if_pos free, rfl, Nat.lt_succ_self _⟩
  | @array elem count some each ih =>
    have turns : ∀ n (a : Option Floating × Nat), a.1.getD kind = kind → ∃ b, repeatLeaves
        (fun leaves => collectHomogeneousFPLeaves elem leaves) n a = Option.some b ∧
          b.1.getD kind = kind ∧ a.2 + n ≤ b.2 := by
      intro n
      induction n with
      | zero => exact fun a free => ⟨a, rfl, free, Nat.le_refl _⟩
      | succ n turn =>
        intro a free
        obtain ⟨c, first, free', more⟩ := ih a free
        obtain ⟨b, rest, free'', most⟩ := turn c free'
        exact ⟨b, by rw [repeatLeaves, first, Option.bind_some, rest], free'', by omega⟩
    obtain ⟨b, done, free', most⟩ := turns count a free
    exact ⟨b, (if_neg some).trans done, free', by omega⟩
  | @struct fields some each ih =>
    have turns : ∀ (l : List Ty), l ⊆ fields → ∀ a : Option Floating × Nat, a.1.getD kind = kind →
        ∃ b, collectFields l a = Option.some b ∧ b.1.getD kind = kind ∧ a.2 + l.length ≤ b.2 := by
      intro l
      induction l with
      | nil => exact fun _ a free => ⟨a, rfl, free, Nat.le_refl _⟩
      | cons field l turn =>
        intro among a free
        obtain ⟨here, later⟩ := List.cons_subset.1 among
        obtain ⟨c, first, free', more⟩ := ih field here a free
        obtain ⟨b, rest, free'', most⟩ := turn later c free'
        refine ⟨b, by rw [collectFields, first, Option.bind_some, rest], free'', ?_⟩
        rw [List.length_cons]
        omega
    obtain ⟨b, done, free', most⟩ := turns fields (List.Subset.refl _) a free
    have positive := List.length_pos_iff.2 some
    cases fields with
    | nil => exact absurd rfl some
    | cons field rest => exact ⟨b, done, free', by omega⟩

theorem homogeneous_iff {ty : Ty} :
    isHomogeneousFPAggregate ty = true ↔ ∃ kind, Only kind ty := by
  unfold isHomogeneousFPAggregate
  constructor
  · intro homogeneous
    split at homogeneous
    · next collected =>
        obtain ⟨kind, only, _⟩ := collect_adds ty collected
        exact ⟨kind, only⟩
    · cases homogeneous
  · rintro ⟨kind, only⟩
    obtain ⟨b, collected, _, more⟩ := collects only (none, 0) rfl
    rw [collected]
    exact decide_eq_true more

end Homogeneous

section Leaves

variable {dl : DataLayout}

theorem repeatLeaves_count {α : Type} {step} {count : Nat} {state result : α}
    (done : repeatLeaves step count state = some result) (some : count ≠ 0) :
    ∃ next, step state = Option.some next := by
  cases count with
  | zero => exact absurd rfl some
  | succ count =>
    rcases Option.bind_eq_some_iff.1 done with ⟨next, stepped, _⟩
    exact ⟨next, stepped⟩

mutual

theorem leaves_sse (ty : Ty) {found found'} (offset : Nat)
    (collected : collectHomogeneousFPLeaves ty found = some found') :
    ∀ leaf ∈ leaves dl offset ty, leaf.cls = .sse := by
  match ty with
  | .fp kind =>
    intro leaf member
    rw [leaves, List.mem_singleton] at member
    rw [member]
  | .array elem count =>
    simp only [collectHomogeneousFPLeaves] at collected
    split at collected
    · cases collected
    · next some =>
        rcases repeatLeaves_count collected some with ⟨next, first⟩
        intro leaf member
        rw [leaves, List.mem_flatMap] at member
        rcases member with ⟨i, _, within⟩
        exact leaves_sse elem _ first leaf within
  | .struct [] => cases collected
  | .struct (field :: fields) =>
    rcases Option.bind_eq_some_iff.1 collected with ⟨between, first, rest⟩
    intro leaf member
    rw [leaves, leavesFrom, List.mem_append] at member
    rcases member with here | later
    · exact leaves_sse field _ first leaf here
    · exact leavesFrom_sse fields _ _ _ rest leaf later
  | .int _ => cases collected
  | .ptr => cases collected

theorem leavesFrom_sse (fields : List Ty) {found found'} (offset : Nat)
    (place : Nat → Nat) (index : Nat) (collected : collectFields fields found = some found') :
    ∀ leaf ∈ leavesFrom dl offset place index fields, leaf.cls = .sse := by
  match fields with
  | [] => nofun
  | field :: fields =>
    rcases Option.bind_eq_some_iff.1 collected with ⟨between, first, rest⟩
    intro leaf member
    rw [leavesFrom, List.mem_append] at member
    rcases member with here | later
    · exact leaves_sse field _ first leaf here
    · exact leavesFrom_sse fields _ _ _ rest leaf later

end

end Leaves

section Agreement

variable {dl : DataLayout} {fields : List Ty} {isReturn : Bool}

theorem homogeneous_sse (homogeneous : isHomogeneousFPAggregate (.struct fields) = true) :
    ∀ leaf ∈ leaves dl 0 (.struct fields), leaf.cls = .sse := by
  unfold isHomogeneousFPAggregate at homogeneous
  split at homogeneous
  · next collected => exact leaves_sse _ 0 collected
  · cases homogeneous

theorem coerced_homogeneous {reg : RegTy}
    (found : getSingleEightbyteFPCoerceType dl fields = some reg) :
    isHomogeneousFPAggregate (.struct fields) = true ∧ reg.classes = [.sse] ∧
      dl.allocSize (.struct fields) ≤ 8 := by
  simp only [getSingleEightbyteFPCoerceType] at found
  split at found
  · cases found
  · next size =>
      rw [not_or, Nat.not_lt] at size
      split at found
      · next leafTy leafCount collected =>
          have homogeneous : leafCount ≠ 0 → isHomogeneousFPAggregate (.struct fields) = true := by
            intro some
            simp only [isHomogeneousFPAggregate, collected]
            exact decide_eq_true (Nat.pos_of_ne_zero some)
          split at found
          · cases found
          · next counted =>
              rw [not_or] at counted
              split at found
              · cases found
              · split at found
                · cases found
                  exact ⟨homogeneous counted.1, rfl, size.2⟩
                · cases found
                  exact ⟨homogeneous counted.1, rfl, size.2⟩
      · cases found

theorem classifyStruct_integer (other : isHomogeneousFPAggregate (.struct fields) = false)
    (small : dl.allocSize (.struct fields) ≤ 16) {k : Nat}
    (within : 8 * k < dl.allocSize (.struct fields)) (cls : Class) :
    Passes dl (.struct fields) k cls (classifyStruct dl fields isReturn) ↔ cls = .integer := by
  have none : getSingleEightbyteFPCoerceType dl fields = none := by
    cases found : getSingleEightbyteFPCoerceType dl fields with
    | none => rfl
    | some reg =>
      have homogeneous := (coerced_homogeneous found).1
      rw [other] at homogeneous
      cases homogeneous
  have some : dl.allocSize (.struct fields) ≠ 0 := Nat.ne_zero_of_lt within
  simp only [classifyStruct, if_neg some, none, other, Bool.false_eq_true, and_false, if_false]
  split
  · next single =>
      obtain rfl : k = 0 := by omega
      simp [Passes, RegTy.classes, eq_comm]
  · next double =>
      have place : k = 0 ∨ k = 1 := by omega
      cases isReturn with
      | true => rcases place with rfl | rfl <;> simp [Passes, RegTy.classes, eq_comm]
      | false => rcases place with rfl | rfl <;> simp [Passes, RegTy.classes, eq_comm]

theorem classifyStruct_sse (homogeneous : isHomogeneousFPAggregate (.struct fields) = true)
    (small : dl.allocSize (.struct fields) ≤ 16) {k : Nat}
    (within : 8 * k < dl.allocSize (.struct fields)) :
    Passes dl (.struct fields) k .sse (classifyStruct dl fields isReturn) := by
  have some : dl.allocSize (.struct fields) ≠ 0 := Nat.ne_zero_of_lt within
  simp only [classifyStruct, if_neg some]
  cases found : getSingleEightbyteFPCoerceType dl fields with
  | some reg =>
    rcases coerced_homogeneous found with ⟨_, classes, single⟩
    obtain rfl : k = 0 := by omega
    simp only [Passes, classes]
    rfl
  | none =>
    simp only [homogeneous, small, and_self, if_true]
    exact fun leaf member _ => homogeneous_sse homogeneous leaf member

theorem classifyStruct_large (large : 16 < dl.allocSize (.struct fields)) :
    classifyStruct dl fields isReturn = .indirect (.struct fields) := by
  have none : getSingleEightbyteFPCoerceType dl fields = none := by
    rw [getSingleEightbyteFPCoerceType, if_pos (.inr (by omega))]
  simp only [classifyStruct, none]
  rw [if_neg (by omega), if_neg (by omega), if_neg (by omega), if_neg (by omega)]

theorem agrees_iff (dl : DataLayout) (fields : List Ty) (isReturn : Bool) :
    Agrees dl (.struct fields) (classifyStruct dl fields isReturn) ↔
      16 < dl.allocSize (.struct fields) ∨ isHomogeneousFPAggregate (.struct fields) = true ∨
      ∀ k, 8 * k < dl.allocSize (.struct fields) →
        ∃ leaf ∈ leaves dl 0 (.struct fields), leaf.Overlaps k ∧ leaf.cls = .integer := by
  by_cases large : 16 < dl.allocSize (.struct fields)
  · refine iff_of_true ?_ (.inl large)
    rw [Agrees, if_neg (Nat.not_le.2 large), classifyStruct_large large]
  have small := Nat.not_lt.1 large
  rw [Agrees, if_pos small]
  cases homogeneous : isHomogeneousFPAggregate (.struct fields) with
  | true =>
    refine iff_of_true (fun k within cls rule => ?_) (.inr (.inl rfl))
    have sse : ∀ leaf ∈ leaves dl 0 (.struct fields), leaf.cls = .sse :=
      homogeneous_sse homogeneous
    cases cls with
    | sse => exact classifyStruct_sse homogeneous small within
    | integer => exact absurd (fun leaf member _ => sse leaf member) rule
  | false =>
    simp only [large, Bool.false_eq_true, false_or]
    refine forall_congr' fun k => forall_congr' fun within => ?_
    simp only [classifyStruct_integer homogeneous small within]
    constructor
    · intro agrees
      by_contra none
      have only : SystemV dl (.struct fields) k .sse := by
        intro leaf member overlaps
        cases cls : leaf.cls with
        | sse => rfl
        | integer => exact absurd ⟨leaf, member, overlaps, cls⟩ none
      cases agrees .sse only
    · rintro ⟨leaf, member, overlaps, cls⟩ other rule
      cases other with
      | integer => rfl
      | sse =>
        have sse := rule leaf member overlaps
        rw [cls] at sse
        cases sse

/-- The two functions of the interface, on every struct: where they agree with the rule, and that
every eightbyte of the other small structs goes in an integer register, if none is homogeneous. -/
theorem classified_iff (dl : DataLayout) (fields : List Ty) :
    ((Agrees dl (.struct fields) (classifyParam dl (.struct fields)) ∧
        Agrees dl (.struct fields) (classifyReturn dl (.struct fields))) ↔
      16 < dl.allocSize (.struct fields) ∨ (∃ kind, Only kind (.struct fields)) ∨
      ∀ k, 8 * k < dl.allocSize (.struct fields) →
        ∃ leaf ∈ leaves dl 0 (.struct fields), leaf.Overlaps k ∧ leaf.cls = .integer) ∧
    (dl.allocSize (.struct fields) ≤ 16 → (¬∃ kind, Only kind (.struct fields)) →
      ∀ k, 8 * k < dl.allocSize (.struct fields) → ∀ cls,
        (Passes dl (.struct fields) k cls (classifyParam dl (.struct fields)) ↔ cls = .integer) ∧
        (Passes dl (.struct fields) k cls (classifyReturn dl (.struct fields)) ↔ cls = .integer)) := by
  rw [classifyParam, classifyReturn, agrees_iff, agrees_iff, and_self, homogeneous_iff]
  refine ⟨Iff.rfl, fun small other k within cls => ?_⟩
  rw [← homogeneous_iff, Bool.not_eq_true] at other
  exact ⟨classifyStruct_integer other small within cls, classifyStruct_integer other small within cls⟩

end Agreement

section Natural

def roundUp (n align : Nat) : Nat := (n + align - 1) / align * align

mutual

def alignOf : Ty → Nat
  | .int bits => (bits + 7) / 8
  | .ptr => 8
  | .fp .float => 4
  | .fp .double => 8
  | .array elem _ => alignOf elem
  | .struct fields => alignAll fields

def alignAll : List Ty → Nat
  | [] => 1
  | field :: fields => max (alignOf field) (alignAll fields)

end

mutual

def sizeIn : Ty → Nat
  | .int bits => (bits + 7) / 8
  | .ptr => 8
  | .fp .float => 4
  | .fp .double => 8
  | .array elem count => count * sizeIn elem
  | .struct fields => roundUp (endOf 0 fields) (alignAll fields)

def endOf (start : Nat) : List Ty → Nat
  | [] => start
  | field :: fields => endOf (roundUp start (alignOf field) + sizeIn field) fields

end

def offsetIn (start : Nat) : List Ty → Nat → Nat
  | [], _ => start
  | field :: _, 0 => roundUp start (alignOf field)
  | field :: fields, index + 1 =>
    offsetIn (roundUp start (alignOf field) + sizeIn field) fields index

def natural : DataLayout := ⟨sizeIn, offsetIn 0⟩

/-- A double and an integer: the double's eightbyte goes in an integer register. -/
theorem mixed_struct_disagrees :
    ¬ Agrees natural (.struct [.fp .double, .int 64])
      (classifyParam natural (.struct [.fp .double, .int 64])) := by
  intro agrees
  have first : SystemV natural (.struct [.fp .double, .int 64]) 0 .sse := by
    have laid : leaves natural 0 (.struct [.fp .double, .int 64]) =
        [⟨0, 8, .sse⟩, ⟨8, 8, .integer⟩] := rfl
    intro leaf member overlaps
    rw [laid] at member
    rcases List.mem_pair.mp member with rfl | rfl
    · rfl
    · exact absurd overlaps.1 (by decide)
  have passed := agrees 0 (by decide) .sse first
  cases passed

end Natural

end Lucis.ABIInfo
