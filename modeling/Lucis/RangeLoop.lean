import Lucis.Library.Counting
import Lucis.Promotion

/-!
The loops over ranges of integers in IRBuilder: the two forms of `visitForInStmt` that count, and
`visitListCompExpr`. A body that falls through is a function of the world and of the loop variable,
which it may assign to; the elements of a comprehension are such a function too.
-/

namespace Lucis.RangeLoop

open Counting IntInstr IntOps Promotion StateTransition List

section Loops

variable {World : Type} {w : Nat}

structure Bound where
  isSigned : Bool
  value : Value

def Bound.number (bound : Bound) : Int := IntInstr.number bound.isSigned bound.value.bits

def Bound.toVar (ty : IntegerType) (bound : Bound) : BitVec ty.width :=
  IntInstr.cast ty.isSigned ty.width bound.value.bits

/-- `cond`, `body` and `update`: the counter is stepped in the memory of the loop variable. -/
def forLoop (ty : IntegerType) (isInclusive : Bool) (endVal : BitVec ty.width)
    (body : World → BitVec ty.width → World × BitVec ty.width) : Loop World (BitVec ty.width) where
  test cur := icmp ty.isSigned cur endVal (if isInclusive then .lte else .lt)
  body := body
  next cur := cur + 1

/-- The state in which `for.cond` is entered first. -/
def entered (world : World) (startVal : BitVec w) : State World (BitVec w) := ⟨world, startVal, []⟩

/-- `for i in start..end` and `start..=end`. -/
def visitForInRange (ty : IntegerType) (isInclusive : Bool) (start stop : Bound)
    (body : World → BitVec ty.width → World × BitVec ty.width) (world : World) :
    Part (State World (BitVec ty.width)) :=
  eval (forLoop ty isInclusive (stop.toVar ty) body).step (entered world (start.toVar ty))

/-- `for i in N`. -/
def visitForInCount (ty : IntegerType) (count : Bound)
    (body : World → BitVec ty.width → World × BitVec ty.width) (world : World) :
    Part (State World (BitVec ty.width)) :=
  eval (forLoop ty false (count.toVar ty) body).step (entered world 0)

end Loops

section Ranges

/-- The first `n` integers from `a` on. -/
def integers (a : Int) : Nat → List Int
  | 0 => []
  | n + 1 => a :: integers (a + 1) n

/-- `e - s`, and one more for an inclusive range. -/
def span (isInclusive : Bool) (s e : Int) : Int := e - s + if isInclusive then 1 else 0

def rangeSize (isInclusive : Bool) (a b : Int) : Nat := (span isInclusive a b).toNat

def range (isInclusive : Bool) (a b : Int) : List Int := integers a (rangeSize isInclusive a b)

/-- The loop is left, and its body was entered once for each integer of the range, in their order. -/
def Exact (ty : IntegerType) {World : Type} (ends : Part (State World (BitVec ty.width)))
    (numbers : List Int) : Prop :=
  ∃ last ∈ ends, last.entries.map (number ty.isSigned) = numbers

end Ranges

section Counting

variable {World : Type} {ty : IntegerType} {isInclusive : Bool} {endVal : BitVec ty.width}
  {body : World → BitVec ty.width → World × BitVec ty.width}

/-- The comparison of `for.cond`, on numbers. -/
def Within (isInclusive : Bool) (n e : Int) : Prop := if isInclusive then n ≤ e else n < e

instance (n e : Int) : Decidable (Within isInclusive n e) :=
  inferInstanceAs (Decidable (if isInclusive then n ≤ e else n < e))

theorem test_iff {cur} : (forLoop ty isInclusive endVal body).test cur = true ↔
      Within isInclusive (number ty.isSigned cur) (number ty.isSigned endVal) := by
  change icmp ty.isSigned cur endVal (if isInclusive then .lte else .lt) = true ↔ _
  rw [icmp_number, decide_eq_true_iff]
  cases isInclusive <;> rfl

/-- The body leaves the variable as it was in every turn but the last, and in the last one a value
whose successor is not in the range of the loop. -/
def Steady (l : Loop World (BitVec ty.width)) : World → BitVec ty.width → Nat → Prop
  | _, _, 0 => True
  | world, v, 1 => l.test ((l.body world v).2 + 1) = false
  | world, v, n + 2 => (l.body world v).2 = v ∧ Steady l (l.body world v).1 (v + 1) (n + 1)

def Counts (l : Loop World (BitVec ty.width)) (world : World) (v : BitVec ty.width)
    (numbers : List Int) : Prop :=
  ∃ visited, visited.map (number ty.isSigned) = numbers ∧ l.Visits world v visited

variable {world : World} {v : BitVec ty.width} {l : Loop World (BitVec ty.width)}

theorem counts_nil : Counts l world v [] ↔ l.test v = false := by
  constructor
  · rintro ⟨visited, none_left, visits⟩
    obtain rfl := map_eq_nil_iff.1 none_left
    exact visits
  · exact fun left => ⟨[], rfl, left⟩

theorem counts_cons {n : Int} {rest : List Int} :
    Counts l world v (n :: rest) ↔ l.test v = true ∧ number ty.isSigned v = n ∧
      Counts l (l.body world v).1 (l.next (l.body world v).2) rest := by
  constructor
  · rintro ⟨visited, numbers, visits⟩
    obtain ⟨i, later, rfl, head, tail⟩ := map_eq_cons_iff.1 numbers
    obtain ⟨tested, rfl, onward⟩ := visits
    exact ⟨tested, head, later, tail, onward⟩
  · rintro ⟨tested, head, later, tail, onward⟩
    exact ⟨v :: later, by rw [map_cons, head, tail], tested, rfl, onward⟩

theorem exact_iff_counts
    {numbers : List Int} : Exact ty (eval l.step (entered world v)) numbers ↔ Counts l world v numbers := by
  constructor
  · rintro ⟨last, ends, recorded⟩
    exact ⟨last.entries, recorded, Loop.visits_of_eval ends (nil_append _).symm⟩
  · rintro ⟨visited, recorded, visits⟩
    obtain ⟨last, ends, entries, _⟩ := (Loop.eval_of_visits visits :
      ∃ last ∈ eval l.step ⟨world, v, []⟩, _)
    exact ⟨last, ends, by rw [entries]; exact recorded⟩

variable {a : Int}

theorem counts_integers_iff {n : Nat} :
    Counts (forLoop ty isInclusive endVal body) world v (integers a (n + 1)) ↔
      number ty.isSigned v = a ∧ Within isInclusive (a + n) (number ty.isSigned endVal) ∧
        Steady (forLoop ty isInclusive endVal body) world v (n + 1) := by
  induction n generalizing world v a with
  | zero =>
    rw [integers, counts_cons, integers, counts_nil, test_iff]
    constructor
    · rintro ⟨within, rfl, left⟩
      exact ⟨rfl, by simpa using within, left⟩
    · rintro ⟨rfl, within, left⟩
      exact ⟨by simpa using within, rfl, left⟩
  | succ n ih =>
    rw [integers, counts_cons, ih, test_iff]
    have assoc : a + 1 + n = a + (n + 1 : Nat) := by omega
    rw [assoc]
    have whole := number_inRange ty.isSigned endVal
    constructor
    · rintro ⟨_, head, next, within, steady⟩
      have same : (body world v).2 = v := eq_of_number_succ ty.positive (next.trans (by rw [head]))
      refine ⟨head, within, same, ?_⟩
      have onward : (forLoop ty isInclusive endVal body).next (body world v).2 = v + 1 := by rw [same]; rfl
      rw [← onward]
      exact steady
    · rintro ⟨rfl, within, same, steady⟩
      have inside : InRange ty.isSigned ty.width (number ty.isSigned v + 1) := by
        have start := number_inRange ty.isSigned v
        cases isInclusive <;> cases sign : ty.isSigned <;>
          simp only [Within, InRange, sign, if_true, if_false, Bool.false_eq_true] at * <;> omega
      have onward : (forLoop ty isInclusive endVal body).next
          ((forLoop ty isInclusive endVal body).body world v).2 = v + 1 := by
        rw [same]
        rfl
      rw [onward]
      refine ⟨?_, rfl, number_succ ty.positive inside, within, steady⟩
      cases isInclusive <;> simp only [Within, if_true, if_false, Bool.false_eq_true] at within ⊢ <;>
        omega

def Countable (l : Loop World (BitVec ty.width)) (isInclusive : Bool) (a b : Int)
    (startVal endVal : BitVec ty.width) (world : World) : Prop :=
  if Within isInclusive a b then
    number ty.isSigned startVal = a ∧ b ≤ number ty.isSigned endVal ∧
      Steady l world startVal (rangeSize isInclusive a b)
  else ¬Within isInclusive (number ty.isSigned startVal) (number ty.isSigned endVal)

variable {b : Int}

theorem rangeSize_empty (empty : ¬Within isInclusive a b) : rangeSize isInclusive a b = 0 := by
  cases isInclusive <;> simp only [Within, rangeSize, span, if_true, if_false, Bool.false_eq_true] at * <;> omega

theorem rangeSize_nonempty (nonempty : Within isInclusive a b) :
    rangeSize isInclusive a b = rangeSize isInclusive (a + 1) b + 1 := by
  cases isInclusive <;> simp only [Within, rangeSize, span, if_true, if_false, Bool.false_eq_true] at * <;> omega

theorem within_last {e : Int} (nonempty : Within isInclusive a b) :
    Within isInclusive (a + rangeSize isInclusive (a + 1) b) e ↔ b ≤ e := by
  cases isInclusive <;> simp only [Within, rangeSize, span, if_true, if_false, Bool.false_eq_true] at * <;> omega

variable {startVal : BitVec ty.width}

theorem counts_range_iff :
    Counts (forLoop ty isInclusive endVal body) world startVal (range isInclusive a b) ↔
      Countable (forLoop ty isInclusive endVal body) isInclusive a b startVal endVal world := by
  rw [Countable, range]
  split
  · next nonempty =>
      rw [rangeSize_nonempty nonempty, counts_integers_iff, within_last nonempty]
  · next empty =>
      rw [rangeSize_empty empty, integers, counts_nil, ← test_iff, Bool.not_eq_true]

theorem steady_iff_of_kept (kept : ∀ world v, (body world v).2 = v)
    {n : Nat} (head : number ty.isSigned v = a) (inside : InRange ty.isSigned ty.width (a + n)) :
    Steady (forLoop ty isInclusive endVal body) world v (n + 1) ↔
      ∀ x : BitVec ty.width, number ty.isSigned x = a + n →
        ¬Within isInclusive (number ty.isSigned (x + 1)) (number ty.isSigned endVal) := by
  induction n generalizing world v a with
  | zero =>
    rw [Steady, ← Bool.not_eq_true, test_iff]
    have left : ((forLoop ty isInclusive endVal body).body world v).2 = v := kept world v
    rw [left]
    constructor
    · intro out x same
      obtain rfl : x = v := number_inj.1 (by rw [same, head]; simp)
      exact out
    · exact fun out => out v (by simp [head])
  | succ n ih =>
    have assoc : a + 1 + n = a + (n + 1 : Nat) := by omega
    have next : InRange ty.isSigned ty.width (number ty.isSigned v + 1) := by
      have start := number_inRange ty.isSigned v
      rw [head] at start ⊢
      cases sign : ty.isSigned <;>
        simp only [InRange, sign, if_true, if_false, Bool.false_eq_true] at * <;> omega
    rw [Steady, ih ((number_succ ty.positive next).trans (by rw [head])) (by rwa [assoc]), assoc]
    exact and_iff_right (kept world v)

theorem countable_iff_of_kept (kept : ∀ world v, (body world v).2 = v)
    (nonempty : Within isInclusive a b) :
    Countable (forLoop ty isInclusive endVal body) isInclusive a b startVal endVal world ↔
      number ty.isSigned startVal = a ∧ number ty.isSigned endVal = b ∧
        (isInclusive = true → InRange ty.isSigned ty.width (b + 1)) := by
  rw [Countable, if_pos nonempty, rangeSize_nonempty nonempty]
  refine and_congr_right fun head => ?_
  have last := (within_last (e := number ty.isSigned endVal) nonempty)
  set m := a + rangeSize isInclusive (a + 1) b with size
  have place : m = if isInclusive then b else b - 1 := by
    cases isInclusive <;>
      simp only [Within, rangeSize, span, if_true, if_false, Bool.false_eq_true] at nonempty size ⊢ <;> omega
  have start := number_inRange ty.isSigned startVal
  have stop := number_inRange ty.isSigned endVal
  have bounded (below : b ≤ number ty.isSigned endVal) : InRange ty.isSigned ty.width m := by
    rw [head] at start
    have above : a ≤ m := by omega
    have within : m ≤ number ty.isSigned endVal := by
      cases isInclusive <;> simp only [if_true, if_false, Bool.false_eq_true] at place <;> omega
    cases sign : ty.isSigned <;>
      simp only [InRange, sign, if_true, if_false, Bool.false_eq_true] at * <;> omega
  constructor
  · rintro ⟨below, steady⟩
    obtain ⟨x, at_last⟩ := exists_number ty.positive (bounded below)
    have out := (steady_iff_of_kept kept head (bounded below)).1 steady x at_last
    have range := number_inRange ty.isSigned (x + 1)
    -- Without a successor the variable is back at the least number, which is below any end.
    have next : InRange ty.isSigned ty.width (m + 1) := by
      by_contra none_above
      have inside := bounded below
      cases isInclusive <;> cases sign : ty.isSigned <;>
        simp only [InRange, Within, sign, if_true, if_false, Bool.false_eq_true] at * <;> omega
    rw [number_succ ty.positive (by rwa [at_last]), at_last] at out
    cases isInclusive <;>
      simp only [Within, if_true, if_false, Bool.false_eq_true] at place out next ⊢
    · exact ⟨by omega, False.elim⟩
    · exact ⟨by omega, fun _ => by rwa [← place]⟩
  · rintro ⟨same, room⟩
    have below : b ≤ number ty.isSigned endVal := same.ge
    refine ⟨below, (steady_iff_of_kept kept head (bounded below)).2 ?_⟩
    intro x at_last
    have next : InRange ty.isSigned ty.width (m + 1) := by
      cases isInclusive <;> simp only [if_true, if_false, Bool.false_eq_true] at place room
      · rw [place, Int.sub_add_cancel, ← same]
        exact stop
      · rw [place]
        exact room trivial
    rw [number_succ ty.positive (by rwa [at_last]), at_last, same]
    cases isInclusive <;> simp only [Within, if_true, if_false, Bool.false_eq_true] at place ⊢ <;>
      omega

end Counting

section Comprehensions

variable {World α : Type} {w : Nat}

/-- The array that is filled: the index of the next store, and the stores with their indexes. -/
structure Filled (World α : Type) where
  world : World
  writeIdx : Nat
  stores : List (α × Nat)

/-- One turn: the value, the filter, and a store where it holds. Without a filter it always does. -/
def fill (element : World → BitVec w → World × BitVec w × Option α) (f : Filled World α)
    (v : BitVec w) : Filled World α × BitVec w :=
  match element f.world v with
  | (world, left, some x) => (⟨world, f.writeIdx + 1, f.stores ++ [(x, f.writeIdx)]⟩, left)
  | (world, left, none) => ({ f with world := world }, left)

/-- `ConstantInt::getSExtValue`, for a value that 64 bits hold. -/
def getSExtValue (x : BitVec w) : Option Int :=
  if -2 ^ 63 ≤ x.toInt ∧ x.toInt < 2 ^ 63 then some x.toInt else none

/-- What comes of a comprehension: a message and no code, a length that C++ does not define, or a
loop over an array of so many elements. -/
inductive Emitted (World α : Type) (w : Nat) where
  | rejected
  | undefined
  | loop (rangeLen : Nat) (ends : Part (State (Filled World α) (BitVec w)))

def afterFirst (element : World → BitVec w → World × BitVec w × Option α) (world : World)
    (startVal : BitVec w) : State (Filled World α) (BitVec w) :=
  ⟨(fill element ⟨world, 0, []⟩ startVal).1, startVal + 1, [startVal]⟩

inductive Bounds where
  | rejected
  | undefined
  | accepted (rangeLen : Nat)

/-- The bounds are to be constants, and in their order as `int64_t`. -/
def checkBounds (ty : IntegerType) (isInclusive : Bool) (start stop : Bound) : Bounds :=
  if start.value.isConstant && stop.value.isConstant then
    match getSExtValue (start.toVar ty), getSExtValue (stop.toVar ty) with
    | some s, some e =>
      if ¬Within isInclusive s e then .rejected
      -- The length is computed in `int64_t` too.
      else if span isInclusive s e < 2 ^ 63 then .accepted (rangeSize isInclusive s e)
      else .undefined
    | _, _ => .undefined
  else .rejected

def visitListCompExpr (ty : IntegerType) (isInclusive : Bool) (start stop : Bound)
    (element : World → BitVec ty.width → World × BitVec ty.width × Option α) (world : World) :
    Emitted World α ty.width :=
  match checkBounds ty isInclusive start stop with
  | .rejected => .rejected
  | .undefined => .undefined
  | .accepted rangeLen => .loop rangeLen
      (eval (forLoop ty isInclusive (stop.toVar ty) (fill element)).step
        (afterFirst element world (start.toVar ty)))

def collect (element : World → BitVec w → World × BitVec w × Option α) : World → List (BitVec w) → List α
  | _, [] => []
  | world, v :: rest => (element world v).2.2.toList ++ collect element (element world v).1 rest

def Comprehends (ty : IntegerType) (emitted : Emitted World α ty.width) (numbers : List Int)
    (elements : List α) : Prop :=
  match emitted with
  | .rejected => numbers = []
  | .undefined => False
  | .loop rangeLen ends => ∃ last ∈ ends, last.entries.map (number ty.isSigned) = numbers ∧
      last.world.stores = elements.zipIdx ∧ ∀ store ∈ last.world.stores, store.2 < rangeLen

variable (element : World → BitVec w → World × BitVec w × Option α)

theorem fill_eq (f : Filled World α) (v : BitVec w) : (fill element f v).1 =
      ⟨(element f.world v).1, f.writeIdx + (element f.world v).2.2.toList.length,
        f.stores ++ (element f.world v).2.2.toList.zipIdx f.writeIdx⟩ := by
  rcases made : element f.world v with ⟨world, left, x⟩
  cases x <;> simp [fill, made]

variable {isInclusive : Bool}

variable {ty : IntegerType}

theorem after_stores {endVal}
    (element : World → BitVec ty.width → World × BitVec ty.width × Option α)
    (visited : List (BitVec ty.width)) (f : Filled World α) :
    ((forLoop ty isInclusive endVal (fill element)).after f visited).stores =
      f.stores ++ (collect element f.world visited).zipIdx f.writeIdx := by
  induction visited generalizing f with
  | nil => exact (append_nil _).symm
  | cons v rest ih =>
    have turn : (forLoop ty isInclusive endVal (fill element)).after f (v :: rest) =
        (forLoop ty isInclusive endVal (fill element)).after (fill element f v).1 rest := rfl
    rw [turn, ih, fill_eq, collect, zipIdx_append, append_assoc, add_comm]

theorem collect_length (visited : List (BitVec w)) (world : World) :
    (collect element world visited).length ≤ visited.length := by
  induction visited generalizing world with
  | nil => exact le_rfl
  | cons v rest ih =>
    have one : (element world v).2.2.toList.length ≤ 1 := by
      cases (element world v).2.2 <;> simp
    have later := ih (element world v).1
    rw [collect, length_append, length_cons]
    omega

theorem integers_length (a : Int) (n : Nat) : (integers a n).length = n := by
  induction n generalizing a with
  | zero => rfl
  | succ n ih => rw [integers, length_cons, ih]

theorem rangeLen_enough {start stop : Bound} {rangeLen : Nat}
    {a b : Int} (accepted : checkBounds ty isInclusive start stop = .accepted rangeLen)
    (head : number ty.isSigned (start.toVar ty) = a)
    (below : Within isInclusive (a + 1) b → b ≤ number ty.isSigned (stop.toVar ty)) :
    rangeSize isInclusive a b ≤ rangeLen := by
  simp only [checkBounds, getSExtValue] at accepted
  split at accepted
  case isFalse => cases accepted
  case isTrue =>
    split at accepted
    case h_2 => cases accepted
    case h_1 s e first second =>
      obtain ⟨_, rfl⟩ := Option.ite_some_none_eq_some.1 first
      obtain ⟨_, rfl⟩ := Option.ite_some_none_eq_some.1 second
      split at accepted
      case isTrue => cases accepted
      case isFalse ordered =>
        split at accepted
        case isFalse => cases accepted
        case isTrue =>
          obtain rfl := Bounds.accepted.inj accepted
          have ordered := not_not.1 ordered
          have signed : (start.toVar ty).toInt ≤ (stop.toVar ty).toInt := by
            cases isInclusive <;>
              simp only [Within, if_true, if_false, Bool.false_eq_true] at ordered <;> omega
          by_cases more : Within isInclusive (a + 1) b
          · have below := below more
            have apart : number ty.isSigned (start.toVar ty) ≤ number ty.isSigned (stop.toVar ty) := by
              cases isInclusive <;>
                simp only [Within, if_true, if_false, Bool.false_eq_true] at more <;> omega
            have distance := distance_eq apart signed
            simp only [rangeSize, span]
            omega
          · cases isInclusive <;>
              simp only [Within, rangeSize, span, if_true, if_false, Bool.false_eq_true] at * <;> omega

/-- What is asked of a comprehension: that there is a loop just if the range is not empty, and that
the loop counts the range from its second number on. -/
def Comprehensible (ty : IntegerType) (isInclusive : Bool) (start stop : Bound)
    (element : World → BitVec ty.width → World × BitVec ty.width × Option α) (world : World) : Prop :=
  match checkBounds ty isInclusive start stop with
  | .rejected => ¬Within isInclusive start.number stop.number
  | .undefined => False
  | .accepted _ => Within isInclusive start.number stop.number ∧
      number ty.isSigned (start.toVar ty) = start.number ∧
      Countable (forLoop ty isInclusive (stop.toVar ty) (fill element)) isInclusive (start.number + 1)
        stop.number (start.toVar ty + 1) (stop.toVar ty) (afterFirst element world (start.toVar ty)).world

theorem range_eq_nil_iff {a b : Int} : range isInclusive a b = [] ↔ ¬Within isInclusive a b := by
  constructor
  · intro empty nonempty
    rw [range, rangeSize_nonempty nonempty, integers] at empty
    cases empty
  · intro empty
    rw [range, rangeSize_empty empty, integers]

theorem range_cons {a b : Int} (nonempty : Within isInclusive a b) :
    range isInclusive a b = a :: range isInclusive (a + 1) b := by
  rw [range, rangeSize_nonempty nonempty, integers, range]

theorem comprehends_iff (ty : IntegerType) (isInclusive : Bool) (start stop : Bound)
    (element : World → BitVec ty.width → World × BitVec ty.width × Option α) (world : World) :
    Comprehends ty (visitListCompExpr ty isInclusive start stop element world)
        (range isInclusive start.number stop.number) (collect element world
          ((range isInclusive start.number stop.number).map (BitVec.ofInt ty.width))) ↔
      Comprehensible ty isInclusive start stop element world := by
  rw [visitListCompExpr, Comprehensible]
  cases checked : checkBounds ty isInclusive start stop with
  | rejected => exact range_eq_nil_iff
  | undefined => exact Iff.rfl
  | accepted rangeLen =>
    rw [← counts_range_iff]
    constructor
    · rintro ⟨last, ends, recorded, _⟩
      obtain ⟨visited, entries⟩ := Loop.entries_kept (mem_eval.1 ends).1
      rw [← entries, map_append] at recorded
      have nonempty : Within isInclusive start.number stop.number := by
        by_contra empty
        rw [range_eq_nil_iff.2 empty] at recorded
        cases recorded
      rw [range_cons nonempty] at recorded
      obtain ⟨head, tail⟩ := List.cons.inj recorded
      exact ⟨nonempty, head, visited, tail, Loop.visits_of_eval ends entries.symm⟩
    · rintro ⟨nonempty, head, visited, tail, visits⟩
      have counted := counts_range_iff.1 ⟨visited, tail, visits⟩
      obtain ⟨last, ends, entries, filled⟩ :
          ∃ last ∈ eval _ (afterFirst element world (start.toVar ty)), _ := Loop.eval_of_visits visits
      have words : (range isInclusive start.number stop.number).map (BitVec.ofInt ty.width) =
          start.toVar ty :: visited := by
        have back : visited.map (BitVec.ofInt ty.width ∘ number ty.isSigned) = visited :=
          (map_congr_left fun v _ => ofInt_number ty.isSigned v).trans (List.map_id visited)
        rw [range_cons nonempty, map_cons, ← tail, List.map_map, back, ← head, ofInt_number]
      have stores : last.world.stores = (collect element world (start.toVar ty :: visited)).zipIdx := by
        rw [filled, after_stores, fill_eq, collect, zipIdx_append]
        rfl
      refine ⟨last, ends, ?_, by rw [stores, words], ?_⟩
      · rw [entries, map_append, tail, range_cons nonempty, ← head]
        rfl
      · intro store among
        have enough := rangeLen_enough checked head fun more => by
          rw [Countable, if_pos more] at counted
          exact counted.2.1
        have few := collect_length element (start.toVar ty :: visited) world
        have size : (start.toVar ty :: visited).length =
            rangeSize isInclusive start.number stop.number := by
          rw [← words, length_map, range, integers_length]
        rw [stores] at among
        have index := snd_lt_of_mem_zipIdx among
        omega

end Comprehensions

section Main

/-- The loops and the comprehensions over ranges are exact where the converted bounds are those of
the range, or where it stays empty by them, an inclusive one ends below the greatest number of the
type, and the body leaves the count alone. -/
theorem ranges_exact_iff {World α : Type} (ty : IntegerType) (isInclusive : Bool) (start stop : Bound)
    (body : World → BitVec ty.width → World × BitVec ty.width)
    (element : World → BitVec ty.width → World × BitVec ty.width × Option α) (world : World) :
    (Exact ty (visitForInRange ty isInclusive start stop body world)
        (range isInclusive start.number stop.number) ↔
      Countable (forLoop ty isInclusive (stop.toVar ty) body) isInclusive start.number stop.number
        (start.toVar ty) (stop.toVar ty) world) ∧
    (Exact ty (visitForInCount ty stop body world) (range false 0 stop.number) ↔
      Countable (forLoop ty false (stop.toVar ty) body) false 0 stop.number 0 (stop.toVar ty) world) ∧
    (Comprehends ty (visitListCompExpr ty isInclusive start stop element world)
        (range isInclusive start.number stop.number)
        (collect element world
          ((range isInclusive start.number stop.number).map (BitVec.ofInt ty.width))) ↔
      Comprehensible ty isInclusive start stop element world) :=
  ⟨exact_iff_counts.trans counts_range_iff, exact_iff_counts.trans counts_range_iff,
    comprehends_iff ty isInclusive start stop element world⟩

/-- `for uint8 i in 0..=255 {}` is not left. -/
theorem inclusive_maximum_endless :
    ¬Exact ⟨8, false, by decide⟩
      (visitForInRange ⟨8, false, by decide⟩ true ⟨true, ⟨32, 0, true⟩⟩ ⟨true, ⟨32, 255, true⟩⟩
        (fun (world : Unit) v => (world, v)) ()) (range true 0 255) := by
  intro left
  have counted := counts_range_iff.mp (exact_iff_counts.mp left)
  have bounds := (countable_iff_of_kept (fun _ _ => rfl) (by decide)).mp counted
  revert bounds
  decide

end Main

end Lucis.RangeLoop
