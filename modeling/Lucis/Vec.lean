import Lucis.Library.Cells
import Lucis.Library.Refinement
import Lucis.Memory
import Mathlib.Tactic.NormNum
import Mathlib.Tactic.Positivity
import Mathlib.Tactic.Ring

/-!
The numeric vec of collections/vec.c: the functions that LUCIS_VEC_IMPL expands
to for one element type, over the cells behind `ptr`. Every function answers
`none` when it touches a cell outside its block, reads a cell that was never
written, overflows an int64, or does not return. Search, comparison, sorting and
aggregation only read and are left out, as is the text form.
-/

namespace Lucis.Vec

open List Option

open Cells (Block)
open Lucis.Memory (sizeT sizeT_of_lt subT subT_of_le)

variable {T : Type}

/-- `sizeof(T)` and the allocator, which serves no request above PTRDIFF_MAX. -/
structure Platform where
  elemSize : Nat
  elemSize_pos : 0 < elemSize
  serves : Nat → Bool
  limit : ∀ bytes, serves bytes = true → bytes < 2 ^ 63

/-- `lucis_vec_header`, with the cells behind `ptr`; a null `ptr` has none. -/
structure Header (T : Type) where
  block : Block T
  len : Nat
  cap : Nat

inductive Reply (T : Type) where
  | done
  | value (val : T)
  /-- a message on stderr and `exit(1)` -/
  | exits
  deriving DecidableEq

abbrev Outcome (T : Type) := Header T × Reply T

def vecInitialCap : Nat := 8
def vecGrowthFactor : Nat := 2

section Functions

variable (platform : Platform)

/-- How many elements `count * sizeof(T)` bytes hold, the product being a size_t. -/
def cellsOf (count : Nat) : Nat :=
  sizeT (count * platform.elemSize) / platform.elemSize

/-- `realloc(ptr, count * sizeof(T))`; a request that is not served returns null. -/
def realloc (block : Block T) (count : Nat) : Block T :=
  if platform.serves (sizeT (count * platform.elemSize)) then
    Cells.resize block (cellsOf platform count)
  else []

/-- `while (newCap < needed) newCap *= 2`. After 64 doublings the size_t is zero and stays
so: a loop that has not ended by then never ends. -/
def doubleUntil (needed : Nat) : Nat → Nat → Option Nat
  | 0, newCap => if newCap < needed then none else some newCap
  | fuel + 1, newCap =>
    if newCap < needed then doubleUntil needed fuel (sizeT (newCap * vecGrowthFactor))
    else some newCap

def growthBase (cap : Nat) : Nat := if cap = 0 then vecInitialCap else cap

def vecGrow (v : Header T) (needed : Nat) : Option (Header T) :=
  if needed ≤ v.cap then some v
  else (doubleUntil needed 64 (growthBase v.cap)).map fun newCap =>
    ⟨realloc platform v.block newCap, v.len, newCap⟩

def lucisVecInit : Header T := ⟨[], 0, 0⟩

def lucisVecAt (v : Header T) (idx : Nat) : Option (Outcome T) :=
  if v.len ≤ idx then some (v, .exits)
  else (Cells.read v.block idx).map fun val => (v, .value val)

def lucisVecFirst (v : Header T) : Option (Outcome T) :=
  if v.len = 0 then some (v, .exits)
  else (Cells.read v.block 0).map fun val => (v, .value val)

def lucisVecLast (v : Header T) : Option (Outcome T) :=
  if v.len = 0 then some (v, .exits)
  else (Cells.read v.block (v.len - 1)).map fun val => (v, .value val)

def lucisVecSet (v : Header T) (idx : Nat) (val : T) : Option (Outcome T) :=
  if v.len ≤ idx then some (v, .exits)
  else (Cells.write v.block idx val).map fun block => ({ v with block }, .done)

def lucisVecPush (v : Header T) (val : T) : Option (Outcome T) := do
  let v ← vecGrow platform v (sizeT (v.len + 1))
  let block ← Cells.write v.block v.len val
  some (⟨block, v.len + 1, v.cap⟩, .done)

def lucisVecPop (v : Header T) : Option (Outcome T) :=
  if v.len = 0 then some (v, .exits)
  else (Cells.read v.block (v.len - 1)).map fun val => ({ v with len := v.len - 1 }, .value val)

def lucisVecInsert (v : Header T) (idx : Nat) (val : T) : Option (Outcome T) :=
  if v.len < idx then some (v, .exits)
  else do
    let v ← vecGrow platform v (sizeT (v.len + 1))
    let block ← Cells.move v.block (idx + 1) idx (cellsOf platform (v.len - idx))
    let block ← Cells.write block idx val
    some (⟨block, v.len + 1, v.cap⟩, .done)

def lucisVecRemoveAt (v : Header T) (idx : Nat) : Option (Outcome T) :=
  if v.len ≤ idx then some (v, .exits)
  else do
    let val ← Cells.read v.block idx
    let block ← Cells.move v.block idx (idx + 1) (cellsOf platform (v.len - idx - 1))
    some (⟨block, v.len - 1, v.cap⟩, .value val)

def lucisVecRemoveSwap (v : Header T) (idx : Nat) : Option (Outcome T) :=
  if v.len ≤ idx then some (v, .exits)
  else do
    let val ← Cells.read v.block idx
    let last ← Cells.read v.block (v.len - 1)
    let block ← Cells.write v.block idx last
    some (⟨block, v.len - 1, v.cap⟩, .value val)

def lucisVecClear (v : Header T) : Option (Outcome T) :=
  some ({ v with len := 0 }, .done)

def lucisVecFill (v : Header T) (val : T) : Option (Outcome T) :=
  (Cells.fill val v.len v.block 0).map fun block => ({ v with block }, .done)

def lucisVecSwap (v : Header T) (i j : Nat) : Option (Outcome T) :=
  if v.len ≤ i ∨ v.len ≤ j then some (v, .exits)
  else (Cells.swap v.block i j).map fun block => ({ v with block }, .done)

def lucisVecReserve (v : Header T) (cap : Nat) : Option (Outcome T) :=
  (vecGrow platform v cap).map fun v => (v, .done)

def lucisVecShrink (v : Header T) : Option (Outcome T) :=
  if v.len = 0 then some (⟨[], v.len, 0⟩, .done)
  else if v.len < v.cap then some (⟨realloc platform v.block v.len, v.len, v.len⟩, .done)
  else some (v, .done)

def lucisVecResize (v : Header T) (len : Nat) (fill : T) : Option (Outcome T) := do
  let v ← vecGrow platform v len
  let block ← Cells.fill fill (len - v.len) v.block v.len
  some (⟨block, len, v.cap⟩, .done)

def lucisVecTruncate (v : Header T) (len : Nat) : Option (Outcome T) :=
  if len < v.len then some ({ v with len }, .done) else some (v, .done)

/-- The loop bound is `len - 1` on size_t, whatever the length. -/
def lucisVecReverse (v : Header T) : Option (Outcome T) :=
  (Cells.reverseBetween v.block 0 (subT v.len 1)).map fun block => ({ v with block }, .done)

def int64 (n : Nat) : Int := if n < 2 ^ 63 then n else n - 2 ^ 64

def addInt64 (a b : Int) : Option Int :=
  if -2 ^ 63 ≤ a + b ∧ a + b < 2 ^ 63 then some (a + b) else none

def castSize (n : Int) : Nat := (n % 2 ^ 64).toNat

/-- `reverse [0..n), then [0..s), then [s..n)` -/
def rotateBlock (block : Block T) (len s : Nat) : Option (Block T) :=
  (Cells.reverseBetween block 0 (len - 1)).bind fun block =>
    (Cells.reverseBetween block 0 (subT s 1)).bind fun block =>
      Cells.reverseBetween block s (len - 1)

def lucisVecRotate (v : Header T) (steps : Int) : Option (Outcome T) :=
  if v.len ≤ 1 then some (v, .done)
  else do
    let n := int64 v.len
    let sum ← addInt64 (steps.tmod n) n
    let s := sum.tmod n
    if s = 0 then some (v, .done)
    else (rotateBlock v.block v.len (castSize s)).map fun block => ({ v with block }, .done)

/-- `src` is only read; the caller's header is a fresh one. -/
def lucisVecClone (src : Header T) : Option (Header T) :=
  if 0 < src.len then
    (Cells.copy (realloc platform [] src.len) src.block (cellsOf platform src.len)).map
      fun block => ⟨block, src.len, src.len⟩
  else some ⟨[], src.len, 0⟩

end Functions

section Machine

inductive Call (T : Type) where
  | atIndex (idx : Nat)
  | first
  | last
  | set (idx : Nat) (val : T)
  | push (val : T)
  | pop
  | insert (idx : Nat) (val : T)
  | removeAt (idx : Nat)
  | removeSwap (idx : Nat)
  | clear
  | fill (val : T)
  | swap (i j : Nat)
  | reserve (cap : Nat)
  | shrink
  | resize (len : Nat) (fill : T)
  | truncate (len : Nat)
  | reverse
  | rotate (steps : Int)

/-- A program creates vectors, empty or as a clone of an earlier one, and calls functions on them;
a vector is named by its place in the order of creation. -/
inductive Op (T : Type) where
  | init
  | clone (vec : Nat)
  | call (vec : Nat) (call : Call T)

def call (platform : Platform) (v : Header T) : Call T → Option (Outcome T)
  | .atIndex idx => lucisVecAt v idx
  | .first => lucisVecFirst v
  | .last => lucisVecLast v
  | .set idx val => lucisVecSet v idx val
  | .push val => lucisVecPush platform v val
  | .pop => lucisVecPop v
  | .insert idx val => lucisVecInsert platform v idx val
  | .removeAt idx => lucisVecRemoveAt platform v idx
  | .removeSwap idx => lucisVecRemoveSwap v idx
  | .clear => lucisVecClear v
  | .fill val => lucisVecFill v val
  | .swap i j => lucisVecSwap v i j
  | .reserve cap => lucisVecReserve platform v cap
  | .shrink => lucisVecShrink platform v
  | .resize len fill => lucisVecResize platform v len fill
  | .truncate len => lucisVecTruncate v len
  | .reverse => lucisVecReverse v
  | .rotate steps => lucisVecRotate v steps

def step (platform : Platform) (vecs : List (Header T)) :
    Op T → List (Header T) × Option (Reply T)
  | .init => (vecs ++ [lucisVecInit], some .done)
  | .clone vec =>
    match (vecs[vec]?).bind (lucisVecClone platform) with
    | some copy => (vecs ++ [copy], some .done)
    | none => (vecs, none)
  | .call vec c =>
    match (vecs[vec]?).bind fun v => call platform v c with
    | some (v, reply) => (vecs.set vec v, some reply)
    | none => (vecs, none)

end Machine

section Lists

def listCall (l : List T) : Call T → List T × Reply T
  | .atIndex idx => match l[idx]? with
      | some val => (l, .value val)
      | none => (l, .exits)
  | .first => match l.head? with
      | some val => (l, .value val)
      | none => (l, .exits)
  | .last => match l.getLast? with
      | some val => (l, .value val)
      | none => (l, .exits)
  | .set idx val => if idx < l.length then (l.set idx val, .done) else (l, .exits)
  | .push val => (l ++ [val], .done)
  | .pop => match l.getLast? with
      | some val => (l.dropLast, .value val)
      | none => (l, .exits)
  | .insert idx val =>
    if idx ≤ l.length then (l.take idx ++ val :: l.drop idx, .done) else (l, .exits)
  | .removeAt idx => match l[idx]? with
      | some val => (l.eraseIdx idx, .value val)
      | none => (l, .exits)
  | .removeSwap idx => match l[idx]?, l.getLast? with
      | some val, some last => ((l.set idx last).dropLast, .value val)
      | _, _ => (l, .exits)
  | .clear => ([], .done)
  | .fill val => (List.replicate l.length val, .done)
  | .swap i j => match l[i]?, l[j]? with
      | some left, some right => ((l.set i right).set j left, .done)
      | _, _ => (l, .exits)
  | .reserve _ => (l, .done)
  | .shrink => (l, .done)
  | .resize len fill => (l.take len ++ List.replicate (len - l.length) fill, .done)
  | .truncate len => (l.take len, .done)
  | .reverse => (l.reverse, .done)
  | .rotate steps => (l.rotateRight (steps % l.length).toNat, .done)

def lists : Refinement.Spec (Op T) (Option (Reply T)) (List (List T)) where
  next ls op := match op with
    | .init => ls ++ [[]]
    | .clone vec => ls ++ (ls[vec]?).toList
    | .call vec c => match ls[vec]? with
        | some l => ls.set vec (listCall l c).1
        | none => ls
  answers ls op reply := match op with
    | .init => reply = some .done
    | .clone vec => ∀ l, ls[vec]? = some l → reply = some .done
    | .call vec c => ∀ l, ls[vec]? = some l → reply = some (listCall l c).2

/-- The first `len` of the `cap` cells hold the list, and the block is an object. -/
structure Stores (platform : Platform) (v : Header T) (l : List T) : Prop where
  block_eq : ∃ spare, v.block = l.map some ++ spare
  len_eq : v.len = l.length
  cap_eq : v.block.length = v.cap
  addressable : v.cap * platform.elemSize < 2 ^ 63

/-- Doubling `base` reaches `needed` after `doublings` steps and not before. -/
def Doublings (base needed doublings : Nat) : Prop :=
  needed ≤ base * 2 ^ doublings ∧ ∀ fewer < doublings, base * 2 ^ fewer < needed

/-- There is room for `needed` elements, or the allocator serves the capacity that doubling
reaches. -/
def Room (platform : Platform) (v : Header T) (needed : Nat) : Prop :=
  needed ≤ v.cap ∨ ∃ doublings, Doublings (growthBase v.cap) needed doublings ∧
    platform.serves (growthBase v.cap * 2 ^ doublings * platform.elemSize) = true

/-- When a call does what it should: `reverse` has an element to reverse, the memory asked for is
served, and the rotation count fits an int64. -/
def Sound (platform : Platform) (v : Header T) : Call T → Prop
  | .push _ => Room platform v (v.len + 1)
  | .insert idx _ => idx ≤ v.len → Room platform v (v.len + 1)
  | .reserve cap => Room platform v cap
  | .resize len _ => Room platform v len
  | .shrink => 0 < v.len → v.len < v.cap → platform.serves (v.len * platform.elemSize) = true
  | .reverse => 0 < v.len
  | .rotate steps => 1 < v.len → steps.tmod v.len + v.len < 2 ^ 63
  | _ => True

def SoundOp (platform : Platform) (vecs : List (Header T)) : Op T → Prop
  | .init => True
  | .clone vec => ∀ v, vecs[vec]? = some v → 0 < v.len →
      platform.serves (v.len * platform.elemSize) = true
  | .call vec c => ∀ v, vecs[vec]? = some v → Sound platform v c

end Lists

section Shape

/-- The header whose block holds `l` in front of `spare`. -/
def holding (l : List T) (spare : Block T) : Header T :=
  ⟨l.map some ++ spare, l.length, l.length + spare.length⟩

@[simp] theorem holding_block (l : List T) (spare : Block T) :
    (holding l spare).block = l.map some ++ spare := rfl

@[simp] theorem holding_len (l : List T) (spare : Block T) : (holding l spare).len = l.length := rfl

@[simp] theorem holding_cap (l : List T) (spare : Block T) :
    (holding l spare).cap = l.length + spare.length := rfl

theorem stores_iff (platform : Platform) (v : Header T) (l : List T) :
    Stores platform v l ↔ ∃ spare, v = holding l spare ∧
      (l.length + spare.length) * platform.elemSize < 2 ^ 63 := by
  constructor
  · rintro ⟨⟨spare, block_eq⟩, len_eq, cap_eq, addressable⟩
    have sized : v.cap = l.length + spare.length := by
      rw [← cap_eq, block_eq, length_append, length_map]
    refine ⟨spare, ?_, sized ▸ addressable⟩
    cases v
    simp only [holding, Header.mk.injEq]
    exact ⟨block_eq, len_eq, sized⟩
  · rintro ⟨spare, rfl, addressable⟩
    exact ⟨⟨spare, rfl⟩, rfl, by simp [holding], addressable⟩

theorem stores_holding (platform : Platform) (l : List T) (spare : Block T)
    (addressable : (l.length + spare.length) * platform.elemSize < 2 ^ 63) :
    Stores platform (holding l spare) l :=
  (stores_iff platform _ l).2 ⟨spare, rfl, addressable⟩

variable {platform : Platform}

theorem stores_len_le_cap {v : Header T} {l : List T}
    (stores : Stores platform v l) : v.len ≤ v.cap := by
  rcases (stores_iff platform v l).1 stores with ⟨spare, rfl, _⟩
  exact le_self_add

theorem stores_init (platform : Platform) : Stores platform (lucisVecInit : Header T) [] :=
  stores_holding platform [] [] (by simp)

theorem cellsOf_eq (platform : Platform) (count : Nat)
    (addressable : count * platform.elemSize < 2 ^ 63) : cellsOf platform count = count := by
  rw [cellsOf, sizeT_of_lt (addressable.trans (by norm_num))]
  exact Nat.mul_div_cancel _ platform.elemSize_pos

theorem count_addressable {count bound : Nat} (le : count ≤ bound)
    (addressable : bound * platform.elemSize < 2 ^ 63) : count * platform.elemSize < 2 ^ 63 :=
  (Nat.mul_le_mul_right _ le).trans_lt addressable

theorem count_small {count : Nat}
    (addressable : count * platform.elemSize < 2 ^ 63) : count < 2 ^ 63 :=
  (Nat.le_mul_of_pos_right _ platform.elemSize_pos).trans_lt addressable

theorem realloc_served (platform : Platform) (block : Block T) (count : Nat)
    (served : platform.serves (count * platform.elemSize) = true) :
    realloc platform block count = Cells.resize block count := by
  have addressable := platform.limit _ served
  rw [realloc, cellsOf_eq platform count addressable,
    sizeT_of_lt (addressable.trans (by norm_num)), if_pos served]

end Shape

section Growth

theorem doubleUntil_reached (needed fuel newCap : Nat) (reached : needed ≤ newCap) :
    doubleUntil needed fuel newCap = some newCap := by
  cases fuel <;> simp [doubleUntil, Nat.not_lt.2 reached]

/-- The loop stops at the first doubling that reaches `needed`. -/
theorem doubleUntil_doublings (needed doublings : Nat) (base fuel : Nat)
    (least : Doublings base needed doublings) (enough : doublings ≤ fuel)
    (small : base * 2 ^ doublings < 2 ^ 64) :
    doubleUntil needed fuel base = some (base * 2 ^ doublings) := by
  induction doublings generalizing base fuel with
  | zero =>
    rw [pow_zero, mul_one]
    exact doubleUntil_reached needed fuel base (by simpa using least.1)
  | succ doublings ih =>
    rcases fuel with - | fuel
    · omega
    · have below : base < needed := by simpa using least.2 0 (Nat.succ_pos _)
      have split : base * 2 ^ (doublings + 1) = base * vecGrowthFactor * 2 ^ doublings := by
        rw [vecGrowthFactor]; ring
      have doubled : base * vecGrowthFactor < 2 ^ 64 := by
        refine lt_of_le_of_lt ?_ (split ▸ small)
        exact Nat.le_mul_of_pos_right _ (by positivity)
      have least' : Doublings (base * vecGrowthFactor) needed doublings := by
        refine ⟨split ▸ least.1, fun fewer lt => ?_⟩
        have := least.2 (fewer + 1) (Nat.succ_lt_succ lt)
        rw [vecGrowthFactor]
        calc base * 2 * 2 ^ fewer = base * 2 ^ (fewer + 1) := by ring
          _ < needed := this
      rw [doubleUntil, if_pos below, sizeT_of_lt doubled,
        ih _ fuel least' (Nat.le_of_succ_le_succ enough) (split ▸ small), split]

theorem growthBase_pos (cap : Nat) : 0 < growthBase cap := by
  unfold growthBase vecInitialCap
  split <;> omega

theorem resize_holding (l : List T) (spare : Block T) (newCap : Nat)
    (larger : l.length + spare.length ≤ newCap) :
    ∃ spare', (⟨Cells.resize (holding l spare).block newCap, l.length, newCap⟩ : Header T) =
      holding l spare' ∧ l.length + spare'.length = newCap := by
  have sized : (holding l spare).block.length = l.length + spare.length := by simp [holding]
  refine ⟨spare ++ List.replicate (newCap - (l.length + spare.length)) none, ?_, ?_⟩
  · rw [Cells.resize_grow _ _ (sized ▸ larger), sized, holding, holding]
    simp only [append_assoc, length_append, length_replicate, Header.mk.injEq, true_and]
    omega
  · rw [length_append, length_replicate]
    omega

theorem vecGrow_served {platform : Platform} {v : Header T} {needed doublings : Nat}
    (full : ¬needed ≤ v.cap) (least : Doublings (growthBase v.cap) needed doublings)
    (served : platform.serves (growthBase v.cap * 2 ^ doublings * platform.elemSize) = true) :
    vecGrow platform v needed =
      some ⟨Cells.resize v.block (growthBase v.cap * 2 ^ doublings), v.len,
        growthBase v.cap * 2 ^ doublings⟩ := by
  have small := count_small (platform.limit _ served)
  have enough : doublings ≤ 64 := by
    have : 2 ^ doublings < 2 ^ 64 :=
      ((Nat.le_mul_of_pos_left _ (growthBase_pos _)).trans_lt small).trans (by norm_num)
    exact ((Nat.pow_lt_pow_iff_right (by decide)).1 this).le
  rw [vecGrow, if_neg full,
    doubleUntil_doublings needed doublings _ 64 least enough (small.trans (by norm_num)),
    map_some, realloc_served platform _ _ served]

variable (platform : Platform)

theorem vecGrow_holding (l : List T) (spare : Block T) (needed : Nat)
    (addressable : (l.length + spare.length) * platform.elemSize < 2 ^ 63)
    (room : Room platform (holding l spare) needed) :
    ∃ spare', vecGrow platform (holding l spare) needed = some (holding l spare') ∧
      needed ≤ l.length + spare'.length ∧
      (l.length + spare'.length) * platform.elemSize < 2 ^ 63 := by
  by_cases fits : needed ≤ (holding l spare).cap
  · exact ⟨spare, if_pos fits, fits, addressable⟩
  · rcases room with fits' | ⟨doublings, least, served⟩
    · exact absurd fits' fits
    · have larger := (not_le.1 fits).le.trans least.1
      rcases resize_holding l spare _ larger with ⟨spare', held, sized⟩
      refine ⟨spare', ?_, sized ▸ least.1, sized ▸ platform.limit _ served⟩
      exact (vecGrow_served fits least served).trans (congrArg some held)

/-- `push` and `insert` grow by one element and find a free cell behind the list. -/
theorem vecGrow_one (l : List T) (spare : Block T)
    (addressable : (l.length + spare.length) * platform.elemSize < 2 ^ 63)
    (room : Room platform (holding l spare) (l.length + 1)) :
    ∃ old spare', vecGrow platform (holding l spare) (sizeT (l.length + 1)) =
        some (holding l (old :: spare')) ∧
      (l.length + (old :: spare').length) * platform.elemSize < 2 ^ 63 := by
  have short := count_small (count_addressable (le_self_add) addressable)
  rcases vecGrow_holding platform l spare _ addressable room with
    ⟨spare', grown, enough, addressable'⟩
  rw [sizeT_of_lt (by omega)]
  cases spare' with
  | nil => exact absurd enough (Nat.not_succ_le_self _)
  | cons old spare' => exact ⟨old, spare', grown, addressable'⟩

end Growth

section Calls

variable (platform : Platform)

/-- The call ends with `reply` and with a vector that holds `l`. -/
def Yields (result : Option (Outcome T)) (l : List T) (reply : Reply T) : Prop :=
  ∃ v, result = some (v, reply) ∧ Stores platform v l

theorem stores_replace (l l' : List T) (spare : Block T) (same : l'.length = l.length)
    (addressable : (l.length + spare.length) * platform.elemSize < 2 ^ 63) :
    Stores platform ⟨l'.map some ++ spare, l.length, l.length + spare.length⟩ l' := by
  rw [← same] at addressable ⊢
  exact stores_holding platform l' spare addressable

/-- A smaller `len` cuts the list; what is behind it stays in the block. -/
theorem stores_cut (l : List T) (spare : Block T) (len : Nat) (shorter : len ≤ l.length)
    (addressable : (l.length + spare.length) * platform.elemSize < 2 ^ 63) :
    Stores platform ⟨l.map some ++ spare, len, l.length + spare.length⟩ (l.take len) := by
  refine ⟨⟨(l.drop len).map some ++ spare, ?_⟩, ?_, ?_, addressable⟩
  · rw [← append_assoc, ← map_append, take_append_drop]
  · rw [length_take, Nat.min_eq_left shorter]
  · rw [length_append, length_map]

theorem stores_appended (l l' : List T) (old : Option T) (spare : Block T)
    (longer : l'.length = l.length + 1)
    (addressable : (l.length + (old :: spare).length) * platform.elemSize < 2 ^ 63) :
    Stores platform ⟨l'.map some ++ spare, l.length + 1, l.length + (old :: spare).length⟩ l' := by
  refine ⟨⟨spare, rfl⟩, longer.symm, ?_, addressable⟩
  simp only [length_append, length_map, longer, length_cons]
  omega

variable (v : Header T)

theorem read_yields (l : List T) (stores : Stores platform v l) (idx : Nat)
    (inside : idx < l.length) :
    Yields platform ((Cells.read v.block idx).map fun val => (v, .value val)) l
      (.value l[idx]) := by
  rcases stores.block_eq with ⟨spare, block_eq⟩
  refine ⟨v, ?_, stores⟩
  rw [block_eq, Cells.read_map l spare idx inside, map_some]

theorem at_yields (l : List T) (stores : Stores platform v l) (idx : Nat) :
    Yields platform (lucisVecAt v idx) (listCall l (.atIndex idx)).1 (listCall l (.atIndex idx)).2 := by
  by_cases outside : l.length ≤ idx
  · simp only [lucisVecAt, stores.len_eq, if_pos outside, listCall, getElem?_eq_none outside]
    exact ⟨v, rfl, stores⟩
  · simp only [lucisVecAt, stores.len_eq, if_neg outside, listCall,
      getElem?_eq_getElem (not_le.1 outside)]
    exact read_yields platform v l stores idx (not_le.1 outside)

theorem first_yields (l : List T) (stores : Stores platform v l) :
    Yields platform (lucisVecFirst v) (listCall l .first).1 (listCall l .first).2 := by
  cases l with
  | nil => exact ⟨v, if_pos stores.len_eq, stores⟩
  | cons val l =>
    have inside : 0 < (val :: l).length := Nat.succ_pos _
    rw [lucisVecFirst, stores.len_eq, if_neg inside.ne']
    exact read_yields platform v (val :: l) stores 0 inside

theorem last_yields (l : List T) (stores : Stores platform v l) :
    Yields platform (lucisVecLast v) (listCall l .last).1 (listCall l .last).2 := by
  cases l using List.reverseRecOn with
  | nil => exact ⟨v, if_pos stores.len_eq, stores⟩
  | append_singleton l val =>
    have inside : l.length < (l ++ [val]).length := by simp
    have found := read_yields platform v (l ++ [val]) stores l.length inside
    have len : v.len - 1 = l.length := by simp [stores.len_eq]
    rw [lucisVecLast, stores.len_eq, if_neg (Nat.zero_lt_of_lt inside).ne', ← stores.len_eq, len]
    simpa [listCall] using found

theorem set_yields (l : List T) (stores : Stores platform v l) (idx : Nat)
    (val : T) : Yields platform (lucisVecSet v idx val) (listCall l (.set idx val)).1
      (listCall l (.set idx val)).2 := by
  by_cases inside : idx < l.length
  · rcases (stores_iff platform v l).1 stores with ⟨spare, rfl, addressable⟩
    simp only [lucisVecSet, if_neg (not_le.2 inside), listCall, if_pos inside,
      holding, Cells.write_map l spare idx val inside, map_some]
    exact ⟨_, rfl, stores_replace platform l _ spare length_set addressable⟩
  · simp only [lucisVecSet, stores.len_eq, if_pos (not_lt.1 inside), listCall, if_neg inside]
    exact ⟨v, rfl, stores⟩

theorem push_yields (l : List T) (stores : Stores platform v l) (val : T)
    (room : Room platform v (v.len + 1)) :
    Yields platform (lucisVecPush platform v val) (l ++ [val]) .done := by
  rcases (stores_iff platform v l).1 stores with ⟨spare, rfl, addressable⟩
  rcases vecGrow_one platform l spare addressable room with ⟨old, spare', grown, addressable'⟩
  have stored := Cells.write_at (l.map some) spare' old val
  rw [length_map] at stored
  simp only [lucisVecPush, holding_len, grown, bind_eq_bind, bind_some,
    holding_block, holding_cap, stored]
  have longer : (l ++ [val]).length = l.length + 1 := length_append
  have held := stores_appended platform l _ old spare' longer addressable'
  exact ⟨_, rfl, by simpa using held⟩

theorem pop_yields (l : List T) (stores : Stores platform v l) :
    Yields platform (lucisVecPop v) (listCall l .pop).1 (listCall l .pop).2 := by
  rcases (stores_iff platform v l).1 stores with ⟨spare, rfl, addressable⟩
  cases l using List.reverseRecOn with
  | nil => exact ⟨_, if_pos rfl, stores⟩
  | append_singleton l val =>
    have inside : l.length < (l ++ [val]).length := by simp
    have len : (l ++ [val]).length - 1 = l.length := by simp
    have cut := stores_cut platform (l ++ [val]) spare l.length inside.le addressable
    rw [take_left] at cut
    simp only [lucisVecPop, holding, if_neg (Nat.zero_lt_of_lt inside).ne', len,
      Cells.read_map (l ++ [val]) spare l.length inside, map_some, listCall,
      getLast?_concat, dropLast_concat, getElem_concat_length]
    exact ⟨_, rfl, cut⟩

theorem insert_yields (l : List T) (stores : Stores platform v l) (idx : Nat)
    (val : T) (room : idx ≤ v.len → Room platform v (v.len + 1)) :
    Yields platform (lucisVecInsert platform v idx val) (listCall l (.insert idx val)).1
      (listCall l (.insert idx val)).2 := by
  by_cases inside : idx ≤ l.length
  · rcases (stores_iff platform v l).1 stores with ⟨spare, rfl, addressable⟩
    rcases vecGrow_one platform l spare addressable (room inside) with
      ⟨old, spare', grown, addressable'⟩
    have tail : cellsOf platform (l.length - idx) = (l.drop idx).length := by
      rw [length_drop]
      exact cellsOf_eq platform _
        (count_addressable ((Nat.sub_le _ _).trans (le_self_add)) addressable)
    have opened := Cells.open_gap ((l.take idx).map some) ((l.drop idx).map some) spare' old val
    simp only [length_map, length_take, Nat.min_eq_left inside, ← tail,
      ← map_append, take_append_drop] at opened
    have longer : (l.take idx ++ val :: l.drop idx).length = l.length + 1 := by
      simp; omega
    simp only [lucisVecInsert, holding_len, if_neg (not_lt.2 inside), grown,
      bind_eq_bind, bind_some, holding_block, holding_cap, listCall, if_pos inside]
    rw [← bind_assoc, opened]
    refine ⟨_, rfl, ?_⟩
    have held := stores_appended platform l _ old spare' longer addressable'
    simpa using held
  · simp only [lucisVecInsert, stores.len_eq, if_pos (not_le.1 inside), listCall, if_neg inside]
    exact ⟨v, rfl, stores⟩

theorem removeAt_yields (l : List T) (stores : Stores platform v l) (idx : Nat) :
    Yields platform (lucisVecRemoveAt platform v idx) (listCall l (.removeAt idx)).1
      (listCall l (.removeAt idx)).2 := by
  by_cases outside : l.length ≤ idx
  · simp only [lucisVecRemoveAt, stores.len_eq, if_pos outside, listCall, getElem?_eq_none outside]
    exact ⟨v, rfl, stores⟩
  · have inside := not_le.1 outside
    rcases (stores_iff platform v l).1 stores with ⟨spare, rfl, addressable⟩
    have tail : cellsOf platform (l.length - idx - 1) = (l.drop (idx + 1)).length := by
      rw [length_drop, Nat.sub_sub]
      exact cellsOf_eq platform _
        (count_addressable ((Nat.sub_le _ _).trans (le_self_add)) addressable)
    rcases Cells.close_gap ((l.take idx).map some) ((l.drop (idx + 1)).map some) spare
      (some l[idx]) with ⟨left, closed⟩
    have whole : (l.take idx).map some ++ some l[idx] :: (l.drop (idx + 1)).map some =
        l.map some := by
      rw [← map_cons, ← map_append, cons_getElem_drop_succ, take_append_drop]
    simp only [length_map, length_take, Nat.min_eq_left inside.le, ← tail, whole,
      ← map_append, ← eraseIdx_eq_take_drop_succ] at closed
    have shorter : (l.eraseIdx idx).length = l.length - 1 := length_eraseIdx_of_lt inside
    simp only [lucisVecRemoveAt, holding, if_neg outside, Cells.read_map l spare idx inside,
      closed, bind_eq_bind, bind_some, listCall, getElem?_eq_getElem inside]
    refine ⟨_, rfl, ⟨left :: spare, rfl⟩, shorter.symm, ?_, addressable⟩
    simp only [length_append, length_map, shorter, length_cons]
    omega

theorem removeSwap_yields (l : List T) (stores : Stores platform v l) (idx : Nat) :
    Yields platform (lucisVecRemoveSwap v idx) (listCall l (.removeSwap idx)).1
      (listCall l (.removeSwap idx)).2 := by
  by_cases outside : l.length ≤ idx
  · simp only [lucisVecRemoveSwap, stores.len_eq, if_pos outside, listCall,
      getElem?_eq_none outside]
    exact ⟨v, rfl, stores⟩
  · have inside := not_le.1 outside
    have final : l.length - 1 < l.length := Nat.sub_one_lt (Nat.zero_lt_of_lt inside).ne'
    rcases (stores_iff platform v l).1 stores with ⟨spare, rfl, addressable⟩
    have last : l.getLast? = some l[l.length - 1] := by
      rw [List.getLast?_eq_getElem?, getElem?_eq_getElem final]
    simp only [lucisVecRemoveSwap, holding, if_neg outside, Cells.read_map l spare idx inside,
      Cells.read_map l spare _ final, Cells.write_map l spare idx _ inside,
      bind_eq_bind, bind_some, listCall, getElem?_eq_getElem inside, last]
    have cut := stores_cut platform (l.set idx l[l.length - 1]) spare (l.length - 1)
      (by simp) (by simpa using addressable)
    rw [length_set] at cut
    refine ⟨_, rfl, ?_⟩
    rw [dropLast_eq_take, length_set]
    exact cut

theorem clear_yields (l : List T) (stores : Stores platform v l) :
    Yields platform (lucisVecClear v) ([] : List T) .done := by
  rcases (stores_iff platform v l).mp stores with ⟨spare, rfl, addressable⟩
  exact ⟨_, rfl, stores_cut platform l spare 0 (Nat.zero_le _) addressable⟩

theorem truncate_yields (l : List T) (stores : Stores platform v l) (len : Nat) :
    Yields platform (lucisVecTruncate v len) (l.take len) .done := by
  rcases (stores_iff platform v l).1 stores with ⟨spare, rfl, addressable⟩
  by_cases shorter : len < l.length
  · exact ⟨_, if_pos shorter, stores_cut platform l spare len shorter.le addressable⟩
  · rw [take_of_length_le (not_lt.1 shorter)]
    exact ⟨_, if_neg shorter, stores⟩

theorem fill_yields (l : List T) (stores : Stores platform v l) (val : T) :
    Yields platform (lucisVecFill v val) (List.replicate l.length val) .done := by
  rcases (stores_iff platform v l).1 stores with ⟨spare, rfl, addressable⟩
  have filled := Cells.fill_segment val (l.map some) [] spare
  simp only [nil_append, length_map, length_nil] at filled
  simp only [lucisVecFill, holding_len, holding_block, filled, map_some]
  exact ⟨_, rfl, stores_replace platform l _ spare length_replicate addressable⟩

theorem swap_yields (l : List T) (stores : Stores platform v l) (i j : Nat) :
    Yields platform (lucisVecSwap v i j) (listCall l (.swap i j)).1 (listCall l (.swap i j)).2 := by
  by_cases left : i < l.length
  · by_cases right : j < l.length
    · rcases (stores_iff platform v l).1 stores with ⟨spare, rfl, addressable⟩
      have inside : ¬ (l.length ≤ i ∨ l.length ≤ j) := by omega
      simp only [lucisVecSwap, holding, if_neg inside, Cells.swap_map l spare i j left right,
        map_some, listCall, getElem?_eq_getElem left, getElem?_eq_getElem right]
      exact ⟨_, rfl, stores_replace platform l _ spare (by simp) addressable⟩
    · simp only [lucisVecSwap, stores.len_eq, if_pos (Or.inr (not_lt.1 right)), listCall,
        getElem?_eq_none (not_lt.1 right)]
      cases l[i]? <;> exact ⟨v, rfl, stores⟩
  · simp only [lucisVecSwap, stores.len_eq, if_pos (Or.inl (not_lt.1 left)), listCall,
      getElem?_eq_none (not_lt.1 left)]
    exact ⟨v, rfl, stores⟩

theorem reserve_yields (l : List T) (stores : Stores platform v l) (cap : Nat)
    (room : Room platform v cap) : Yields platform (lucisVecReserve platform v cap) l .done := by
  rcases (stores_iff platform v l).1 stores with ⟨spare, rfl, addressable⟩
  rcases vecGrow_holding platform l spare cap addressable room with ⟨spare', grown, _, addressable'⟩
  refine ⟨_, ?_, stores_holding platform l spare' addressable'⟩
  rw [lucisVecReserve, grown, map_some]

theorem shrink_yields (l : List T) (stores : Stores platform v l)
    (served : 0 < v.len → v.len < v.cap → platform.serves (v.len * platform.elemSize) = true) :
    Yields platform (lucisVecShrink platform v) l .done := by
  rcases (stores_iff platform v l).1 stores with ⟨spare, rfl, addressable⟩
  cases l with
  | nil => exact ⟨_, rfl, stores_holding platform [] [] (by simp)⟩
  | cons val l =>
    have positive : 0 < (val :: l).length := Nat.succ_pos _
    by_cases loose : (holding (val :: l) spare).len < (holding (val :: l) spare).cap
    · have cut := Cells.resize_keep ((val :: l).map some) spare
      rw [length_map] at cut
      refine ⟨holding (val :: l) [], ?_, stores_holding platform _ [] ?_⟩
      · rw [lucisVecShrink, if_neg (by simp), if_pos loose,
          realloc_served platform _ _ (served positive loose), holding_block, holding_len, cut]
        simp [holding]
      · exact count_addressable (le_self_add) addressable
    · refine ⟨_, ?_, stores⟩
      rw [lucisVecShrink, if_neg (by simp), if_neg loose]

theorem resize_yields (l : List T) (stores : Stores platform v l) (len : Nat)
    (fill : T) (room : Room platform v len) : Yields platform (lucisVecResize platform v len fill)
      (l.take len ++ List.replicate (len - l.length) fill) .done := by
  rcases (stores_iff platform v l).1 stores with ⟨spare, rfl, addressable⟩
  rcases vecGrow_holding platform l spare len addressable room with
    ⟨spare', grown, enough, addressable'⟩
  simp only [lucisVecResize, grown, bind_eq_bind, bind_some, holding_block,
    holding_len, holding_cap]
  by_cases shorter : len ≤ l.length
  · rw [Nat.sub_eq_zero_of_le shorter]
    have cut := stores_cut platform l spare' len shorter addressable'
    exact ⟨_, rfl, by simpa using cut⟩
  · have longer := (not_le.1 shorter).le
    -- the new elements take the first free cells
    have split : spare' = spare'.take (len - l.length) ++ spare'.drop (len - l.length) :=
      (take_append_drop _ _).symm
    have taken : (spare'.take (len - l.length)).length = len - l.length := by
      rw [length_take]; omega
    have filled := Cells.fill_segment fill (spare'.take (len - l.length)) (l.map some)
      (spare'.drop (len - l.length))
    rw [taken, append_assoc, ← split, length_map, ← map_append] at filled
    rw [filled, take_of_length_le longer]
    refine ⟨_, rfl, ⟨_, rfl⟩, ?_, ?_, addressable'⟩
    · simp; omega
    · simp; omega

theorem reverse_yields (l : List T) (stores : Stores platform v l)
    (nonempty : 0 < v.len) : Yields platform (lucisVecReverse v) l.reverse .done := by
  rcases (stores_iff platform v l).1 stores with ⟨spare, rfl, addressable⟩
  have reversed := Cells.reverseBetween_segment l [] spare
  simp only [nil_append, length_nil, zero_add] at reversed
  rw [lucisVecReverse, subT_of_le nonempty, holding_block, holding_len, reversed, map_some]
  exact ⟨_, rfl, stores_replace platform l _ spare length_reverse addressable⟩

theorem reverse_empty (stores : Stores platform v []) : lucisVecReverse v = none := by
  rcases (stores_iff platform v []).1 stores with ⟨spare, rfl, addressable⟩
  have small := count_small (count_addressable (le_add_self) addressable)
  have started : 0 < subT (holding ([] : List T) spare).len 1 := by
    rw [holding_len, length_nil]
    decide
  have outside : Cells.read (holding ([] : List T) spare).block (subT 0 1) = none :=
    Cells.read_outside _ _ (small.le.trans (by decide))
  rw [lucisVecReverse, Cells.reverseBetween, if_pos started, Cells.swap, holding_len,
    length_nil, outside]
  simp

theorem reverse_yields_iff (l : List T) (stores : Stores platform v l) :
    Yields platform (lucisVecReverse v) l.reverse .done ↔ 0 < v.len := by
  constructor
  · rintro ⟨v', reversed, _⟩
    cases l with
    | nil =>
      rw [reverse_empty platform v stores] at reversed
      cases reversed
    | cons val l => exact stores.len_eq ▸ Nat.succ_pos _
  · exact reverse_yields platform v l stores

/-- `(steps % n + n) % n` with truncating `%` is the residue that is not negative. -/
theorem rotation_count (steps n : Int) (positive : 0 < n) :
    (steps.tmod n + n).tmod n = steps % n := by
  have above := Int.lt_tmod_of_pos steps positive
  rw [Int.tmod_eq_emod_of_nonneg (by omega), Int.add_emod_right, Int.tmod_def]
  exact Int.sub_mul_emod_self_left _ _ _

theorem rotateRight_length (l : List T) (count : Nat) :
    (l.rotateRight count).length = l.length := by
  by_cases short : l.length ≤ 1
  · rw [List.rotateRight, if_pos short]
  · rw [List.rotateRight, if_neg short]
    simp only [length_append, length_drop, length_take]
    omega

theorem rotateBlock_map (l : List T) (spare : Block T) (count : Nat) (positive : 0 < count)
    (inside : count < l.length) : rotateBlock (l.map some ++ spare) l.length count =
      some ((l.rotateRight count).map some ++ spare) := by
  have taken : (l.reverse.take count).length = count := by simp; omega
  have dropped : count + (l.reverse.drop count).length = l.length := by simp; omega
  have whole := Cells.reverseBetween_segment l [] spare
  have low := Cells.reverseBetween_segment (l.reverse.take count) []
    ((l.reverse.drop count).map some ++ spare)
  have high := Cells.reverseBetween_segment (l.reverse.drop count)
    ((l.reverse.take count).reverse.map some) spare
  rw [length_map, length_reverse, taken, dropped] at high
  rw [taken] at low
  simp only [nil_append, length_nil, zero_add] at whole low
  rw [← append_assoc, ← map_append, take_append_drop, ← append_assoc] at low
  rw [rotateBlock, whole, bind_some, subT_of_le positive, low, bind_some, high, ← map_append]
  -- the two reversed parts of the reversed list are its ends, exchanged
  rw [List.rotateRight, Nat.mod_eq_of_lt inside, if_neg (by omega), reverse_take, reverse_drop]
  simp

theorem rotate_yields (l : List T) (stores : Stores platform v l) (steps : Int)
    (fits : 1 < v.len → steps.tmod v.len + v.len < 2 ^ 63) :
    Yields platform (lucisVecRotate v steps) (l.rotateRight (steps % l.length).toNat) .done := by
  rcases (stores_iff platform v l).1 stores with ⟨spare, rfl, addressable⟩
  by_cases short : l.length ≤ 1
  · refine ⟨_, if_pos short, ?_⟩
    rw [List.rotateRight, if_pos short]
    exact stores
  · have small := count_small (count_addressable (le_self_add) addressable)
    have positive : (0 : Int) < l.length := by omega
    have cast : int64 l.length = l.length := if_pos small
    have residue := Int.emod_nonneg steps positive.ne'
    have bounded := Int.emod_lt_of_pos steps positive
    have above := Int.lt_tmod_of_pos steps positive
    have sum : addInt64 (steps.tmod l.length) l.length =
        some (steps.tmod l.length + l.length) := if_pos ⟨by omega, fits (not_le.1 short)⟩
    simp only [lucisVecRotate, holding_len, if_neg short, cast, sum, bind_eq_bind,
      bind_some, rotation_count steps _ positive, holding_block, holding_cap]
    by_cases still : steps % l.length = 0
    · rw [if_pos still, still]
      exact ⟨_, rfl, by simpa using stores⟩
    · have count : castSize (steps % l.length) = (steps % l.length).toNat := by
        rw [castSize, Int.emod_eq_of_lt residue (by omega)]
      rw [if_neg still, count, rotateBlock_map l spare _ (by omega) (by omega), map_some]
      exact ⟨_, rfl, stores_replace platform l _ spare (rotateRight_length l _) addressable⟩

theorem call_yields (l : List T) (stores : Stores platform v l) (c : Call T)
    (sound : Sound platform v c) :
    Yields platform (call platform v c) (listCall l c).1 (listCall l c).2 := by
  cases c with
  | atIndex idx => exact at_yields platform v l stores idx
  | first => exact first_yields platform v l stores
  | last => exact last_yields platform v l stores
  | set idx val => exact set_yields platform v l stores idx val
  | push val => exact push_yields platform v l stores val sound
  | pop => exact pop_yields platform v l stores
  | insert idx val => exact insert_yields platform v l stores idx val sound
  | removeAt idx => exact removeAt_yields platform v l stores idx
  | removeSwap idx => exact removeSwap_yields platform v l stores idx
  | clear => exact clear_yields platform v l stores
  | fill val => exact fill_yields platform v l stores val
  | swap i j => exact swap_yields platform v l stores i j
  | reserve cap => exact reserve_yields platform v l stores cap sound
  | shrink => exact shrink_yields platform v l stores sound
  | resize len fill => exact resize_yields platform v l stores len fill sound
  | truncate len => exact truncate_yields platform v l stores len
  | reverse => exact reverse_yields platform v l stores sound
  | rotate steps => exact rotate_yields platform v l stores steps sound

theorem clone_stores (l : List T) (stores : Stores platform v l)
    (served : 0 < v.len → platform.serves (v.len * platform.elemSize) = true) :
    ∃ copy, lucisVecClone platform v = some copy ∧ Stores platform copy l := by
  rcases (stores_iff platform v l).1 stores with ⟨spare, rfl, addressable⟩
  cases l with
  | nil => exact ⟨_, rfl, stores_holding platform [] [] (by simp)⟩
  | cons val l =>
    have positive : 0 < (holding (val :: l) spare).len := Nat.succ_pos _
    have addressable' := count_addressable (le_self_add) addressable
    have copied : Cells.copy (Cells.resize [] (val :: l).length)
        ((val :: l).map some ++ spare) (val :: l).length = some ((val :: l).map some) := by
      rw [Cells.copy, if_pos (by simp [Cells.resize])]
      simp [Cells.resize]
    refine ⟨holding (val :: l) [], ?_, stores_holding platform _ [] addressable'⟩
    rw [lucisVecClone, if_pos positive, realloc_served platform _ _ (served positive),
      holding_block, holding_len, cellsOf_eq platform _ addressable', copied, map_some]
    simp [holding]

end Calls

section Runs

open Refinement (Agrees Guarded Simulation run)

variable (platform : Platform)

def AllStore (vecs : List (Header T)) (ls : List (List T)) : Prop :=
  List.Forall₂ (Stores platform) vecs ls

theorem list_simulation :
    Simulation (lists (T := T)) (step platform) (SoundOp platform) (AllStore platform) := by
  intro vecs ls op store sound
  cases op with
  | init =>
    exact ⟨rfl, Refinement.forall₂_push store _ _ (stores_init platform)⟩
  | clone vec =>
    rcases Refinement.forall₂_lookup store vec with ⟨absent, absent'⟩ | ⟨v, l, found, found', stores⟩
    · constructor
      · intro l present
        exact nomatch absent'.symm.trans present
      · simpa [step, lists, absent, absent'] using store
    · rcases clone_stores platform v l stores (sound v found) with ⟨copy, copied, stores'⟩
      constructor
      · intro _ _
        simp only [step, found, bind_some, copied]
      · simp only [step, lists, found, found', bind_some, copied, toList_some]
        exact Refinement.forall₂_push store _ _ stores'
  | call vec c =>
    rcases Refinement.forall₂_lookup store vec with ⟨absent, absent'⟩ | ⟨v, l, found, found', stores⟩
    · constructor
      · intro l present
        exact nomatch absent'.symm.trans present
      · simpa [step, lists, absent, absent'] using store
    · rcases call_yields platform v l stores c (sound v found) with ⟨v', called, stores'⟩
      constructor
      · intro l' present
        cases found'.symm.trans present
        simp only [step, found, bind_some, called]
      · simp only [step, lists, found, found', bind_some, called]
        exact Refinement.forall₂_set store vec _ _ stores'

def Faithful (vecs : List (Header T)) (ls : List (List T)) : Prop :=
  AllStore platform vecs ls ∧ ∀ v ∈ vecs, v.len ≤ v.cap ∧ v.block.length = v.cap

theorem allStore_faithful {vecs : List (Header T)} {ls : List (List T)}
    (store : AllStore platform vecs ls) : Faithful platform vecs ls := by
  refine ⟨store, fun v member => ?_⟩
  rcases getElem?_of_mem member with ⟨index, found⟩
  rcases Refinement.forall₂_lookup store index with ⟨absent, _⟩ | ⟨v', l, found', _, stores⟩
  · rw [found] at absent
    cases absent
  · rw [found] at found'
    cases found'
    exact ⟨stores_len_le_cap stores, stores.cap_eq⟩

/-- In a program whose calls are all sound, every call replies what its list operation does (so
none leaves its block), and every vector reached stores its list within its capacity. -/
theorem vec_runs_refine (ops : List (Op T))
    (sound : Guarded (SoundOp platform) (step platform) [] ops) :
    Agrees lists (step platform) [] [] ops ∧
      ∀ front, front <+: ops →
        Faithful platform (run (step platform) [] front) (front.foldl lists.next []) := by
  have simulation := list_simulation platform (T := T)
  constructor
  · exact Refinement.agrees_of_simulation simulation ops [] [] .nil sound
  · intro front begins
    apply allStore_faithful
    exact Refinement.related_of_simulation simulation front [] [] .nil
      (Refinement.guarded_prefix sound begins)

def bytePlatform : Platform where
  elemSize := 1
  elemSize_pos := Nat.one_pos
  serves bytes := decide (bytes < 2 ^ 63)
  limit _ served := of_decide_eq_true served

theorem vec_runs_refine_pair :
    let ops : List (Op UInt8) := [.init, .call 0 (.push 7), .call 0 (.push 9), .call 0 .reverse]
    Guarded (SoundOp bytePlatform) (step bytePlatform) [] ops ∧
      Agrees lists (step bytePlatform) [] [] ops ∧
      ∀ front, front <+: ops → Faithful bytePlatform (run (step bytePlatform) [] front)
        (front.foldl lists.next []) := by
  intro ops
  have sound : Guarded (SoundOp bytePlatform) (step bytePlatform) [] ops := by
    refine ⟨trivial, ?_, ?_, ?_, trivial⟩
    · rintro v ⟨⟩
      exact .inr ⟨0, ⟨by decide, fun _ fewer => nomatch fewer⟩, by decide⟩
    · rintro v ⟨⟩
      exact .inl (by decide)
    · rintro v ⟨⟩
      exact Nat.succ_pos _
  exact ⟨sound, vec_runs_refine bytePlatform ops sound⟩

/-- `vec<uint8> v; v.reverse()` -/
theorem reverse_empty_leaves_block :
    (step bytePlatform [lucisVecInit] (.call 0 .reverse : Op UInt8)).2 = none ∧
      ¬ Agrees lists (step bytePlatform) [] [] [.init, (.call 0 .reverse : Op UInt8)] := by
  have fault : (step bytePlatform [lucisVecInit] (.call 0 .reverse : Op UInt8)).2 = none := by
    simp only [step, getElem?_cons_zero, bind_some, call,
      reverse_empty bytePlatform _ (stores_init bytePlatform)]
  refine ⟨fault, fun agrees => ?_⟩
  have reply := agrees.2.1 [] rfl
  exact nomatch fault.symm.trans reply

end Runs

end Lucis.Vec
