import Mathlib.Data.List.Basic

/-!
Strings as collections/map.c handles them: two words, and the bytes they point to. A block
of string.c's list of owned allocations can be released, and its bytes are read no more;
a pointer that is not on the list, such as a literal's, is left alone. The list is that
of `OwnedRegistry`, here with the size of each block.
-/

namespace Lucis.StringHeap

open List

/-- `lucis_map_string` -/
structure LucisMapString where
  ptr : Nat
  len : Nat
  deriving DecidableEq

/-- The bytes that may be read, and the owned blocks. -/
structure Heap where
  byte : Nat → Option UInt8
  blocks : List (Nat × Nat)

def Heap.bytes (h : Heap) : Nat → Nat → Option (List UInt8)
  | _, 0 => some []
  | addr, len + 1 => do
    let first ← h.byte addr
    let rest ← h.bytes (addr + 1) len
    some (first :: rest)

def Heap.read (h : Heap) (s : LucisMapString) : Option (List UInt8) :=
  h.bytes s.ptr s.len

/-- `lucis_freeStr`, which is the tracked `free` of string.c. -/
def lucisFreeStr (h : Heap) (s : LucisMapString) : Heap :=
  if s.ptr = 0 then h
  else
    match h.blocks.find? fun block => block.1 = s.ptr with
    | none => h
    | some block =>
      { byte := fun a => if block.1 ≤ a ∧ a < block.1 + block.2 then none else h.byte a
        blocks := h.blocks.erase block }

def freeAll (h : Heap) (strings : List LucisMapString) : Heap :=
  strings.foldl lucisFreeStr h

/-- `lucis_allocString` at `addr` and the `memcpy` of the bytes of `s` into the block. -/
def copyString (h : Heap) (s : LucisMapString) (addr : Nat) : Heap where
  byte a :=
    if addr ≤ a ∧ a < addr + max s.len 1 then
      if s.len = 0 then some 0 else h.byte (s.ptr + (a - addr))
    else h.byte a
  blocks := (addr, max s.len 1) :: h.blocks

/-- Releasing `r` takes no byte of `s` away. -/
def Apart (h : Heap) (r s : LucisMapString) : Prop :=
  ∀ block ∈ h.blocks, block.1 = r.ptr →
    s.len = 0 ∨ s.ptr + s.len ≤ block.1 ∨ block.1 + block.2 ≤ s.ptr

instance (h : Heap) (r s : LucisMapString) : Decidable (Apart h r s) :=
  inferInstanceAs (Decidable (∀ block ∈ h.blocks, block.1 = r.ptr →
    s.len = 0 ∨ s.ptr + s.len ≤ block.1 ∨ block.1 + block.2 ≤ s.ptr))

/-- A block that no one may read yet, as `malloc` gives it out. -/
def Fresh (h : Heap) (addr size : Nat) : Prop :=
  ∀ i < size, h.byte (addr + i) = none

instance (h : Heap) (addr size : Nat) : Decidable (Fresh h addr size) :=
  inferInstanceAs (Decidable (∀ i < size, h.byte (addr + i) = none))

variable {h h' : Heap} {r s : LucisMapString} {addr addr' len : Nat}

theorem bytes_eq (same : ∀ i < len, h'.byte (addr' + i) = h.byte (addr + i)) :
    h'.bytes addr' len = h.bytes addr len := by
  induction len generalizing addr addr' with
  | zero => rfl
  | succ len ih =>
    have rest : h'.bytes (addr' + 1) len = h.bytes (addr + 1) len := by
      apply ih
      intro i inside
      have next := same (i + 1) (by omega)
      rwa [Nat.add_comm i 1, ← Nat.add_assoc, ← Nat.add_assoc] at next
    have first := same 0 (by omega)
    rw [Heap.bytes, Heap.bytes, rest]
    rw [Nat.add_zero, Nat.add_zero] at first
    rw [first]

theorem byte_of_bytes (readable : (h.bytes addr len).isSome) (i : Nat) (inside : i < len) :
    (h.byte (addr + i)).isSome := by
  induction len generalizing addr i with
  | zero => omega
  | succ len ih =>
    rw [Heap.bytes] at readable
    cases first : h.byte addr with
    | none => simp [first] at readable
    | some byte =>
      cases i with
      | zero => simp [first]
      | succ i =>
        have rest : (h.bytes (addr + 1) len).isSome := by
          cases later : h.bytes (addr + 1) len with
          | none => simp [first, later] at readable
          | some _ => rfl
        have next := ih rest i (by omega)
        rwa [Nat.add_assoc, Nat.add_comm 1 i] at next

theorem free_read (apart : Apart h r s) : (lucisFreeStr h r).read s = h.read s := by
  unfold lucisFreeStr
  split
  · rfl
  · split
    · rfl
    · next block found =>
      apply bytes_eq
      intro i inside
      have at_ptr : block.1 = r.ptr := by simpa using find?_some found
      have outside := apart block (mem_of_find?_eq_some found) at_ptr
      have missed : ¬ (block.1 ≤ s.ptr + i ∧ s.ptr + i < block.1 + block.2) := by omega
      exact if_neg missed

theorem free_apart (q : LucisMapString) (apart : Apart h r s) : Apart (lucisFreeStr h q) r s := by
  unfold lucisFreeStr
  split
  · exact apart
  · split
    · exact apart
    · exact fun block member => apart block (mem_of_mem_erase member)

theorem freeAll_read {strings : List LucisMapString} (apart : ∀ r ∈ strings, Apart h r s) :
    (freeAll h strings).read s = h.read s := by
  unfold freeAll
  induction strings generalizing h with
  | nil => rfl
  | cons first rest ih =>
    rw [foldl_cons, ih fun r member => free_apart first (apart r (.tail _ member))]
    exact free_read (apart first (.head _))

theorem copy_reads (h : Heap) (s : LucisMapString) (addr : Nat) :
    (copyString h s addr).read ⟨addr, s.len⟩ = h.read s := by
  apply bytes_eq
  intro i inside
  dsimp only at inside
  have within : addr ≤ addr + i ∧ addr + i < addr + max s.len 1 := by
    have longer := Nat.le_max_left s.len 1
    omega
  have nonempty : s.len ≠ 0 := Nat.ne_zero_of_lt inside
  simp [copyString, within, nonempty]

theorem copy_keeps {t : LucisMapString} (fresh : Fresh h addr (max s.len 1))
    (readable : (h.read t).isSome) : (copyString h s addr).read t = h.read t := by
  apply bytes_eq
  intro i inside
  have held := byte_of_bytes readable i inside
  have missed : ¬ (addr ≤ t.ptr + i ∧ t.ptr + i < addr + max s.len 1) := by
    rintro ⟨low, high⟩
    have free := fresh (t.ptr + i - addr) (by omega)
    rw [Nat.add_sub_cancel' low] at free
    rw [free] at held
    cases held
  exact if_neg missed

end Lucis.StringHeap
