import Mathlib.Algebra.Ring.Nat
import Mathlib.Data.List.Basic

/-!
What the C functions of the runtime share: size_t arithmetic, the bytes of an
object, and blocks that are filled from front to back. A store outside its block
is a fault (`none`). Whether malloc serves a request is a parameter of the
functions that allocate.
-/

namespace Lucis.Memory

open List

/-- The value a size_t variable holds after an assignment of `n`. -/
def sizeT (n : Nat) : Nat := n % 2 ^ 64

theorem sizeT_of_lt {n : Nat} (small : n < 2 ^ 64) : sizeT n = n :=
  Nat.mod_eq_of_lt small

structure Bytes where
  data : List UInt8
  addressable : data.length < 2 ^ 63

structure OutBlock where
  size : Nat
  written : List UInt8
  within : written.length ≤ size

def OutBlock.fresh (size : Nat) : OutBlock :=
  ⟨size, [], Nat.zero_le _⟩

/-- `out[j++] = byte` -/
def OutBlock.put (out : OutBlock) (byte : UInt8) : Option OutBlock :=
  if room : out.written.length < out.size then
    some ⟨out.size, out.written ++ [byte], by rw [List.length_append]; exact room⟩
  else none

def OutBlock.putAll : OutBlock → List UInt8 → Option OutBlock
  | out, [] => some out
  | out, byte :: bytes => (out.put byte).bind fun out => out.putAll bytes

/-- `out` is `before` with `bytes` written behind what it held. -/
structure Wrote (before : OutBlock) (bytes : List UInt8) (out : OutBlock) : Prop where
  size_eq : out.size = before.size
  written_eq : out.written = before.written ++ bytes

theorem put_fits (out : OutBlock) (byte : UInt8) (room : out.written.length < out.size) :
    ∃ next, out.put byte = some next ∧ Wrote out [byte] next := by
  refine ⟨_, dif_pos room, ?_⟩
  exact ⟨rfl, rfl⟩

variable (bytes : List UInt8)

theorem putAll_fits (out : OutBlock) (room : out.written.length + bytes.length ≤ out.size) :
    ∃ next, out.putAll bytes = some next ∧ Wrote out bytes next := by
  induction bytes generalizing out with
  | nil => exact ⟨out, rfl, rfl, by simp⟩
  | cons byte bytes ih =>
    rw [length_cons] at room
    rcases put_fits out byte (by omega) with ⟨middle, stored, wrote⟩
    have room' : middle.written.length + bytes.length ≤ middle.size := by
      rw [wrote.written_eq, wrote.size_eq, length_append, length_singleton]
      omega
    rcases ih middle room' with ⟨next, rest, wrote'⟩
    apply Exists.intro next
    constructor
    · rw [OutBlock.putAll, stored, Option.bind_some, rest]
    · constructor
      · rw [wrote'.size_eq, wrote.size_eq]
      · rw [wrote'.written_eq, wrote.written_eq, append_assoc, singleton_append]

theorem fresh_fits (size : Nat) (room : bytes.length ≤ size) :
    ∃ next, (OutBlock.fresh size).putAll bytes = some next ∧ next.size = size ∧
      next.written = bytes := by
  rcases putAll_fits bytes (.fresh size) (by simpa [OutBlock.fresh] using room) with
    ⟨next, filled, wrote⟩
  exact ⟨next, filled, wrote.size_eq, by simpa [OutBlock.fresh] using wrote.written_eq⟩

theorem putAll_append (front back : List UInt8) (out : OutBlock) :
    out.putAll (front ++ back) = (out.putAll front).bind fun next => next.putAll back := by
  induction front generalizing out with
  | nil => rfl
  | cons byte front ih =>
    rw [cons_append, OutBlock.putAll, OutBlock.putAll, Option.bind_assoc]
    congr 1
    funext next
    exact ih next

theorem putAll_overflows (out : OutBlock)
    (full : out.size < out.written.length + bytes.length) : out.putAll bytes = none := by
  induction bytes generalizing out with
  | nil => exact absurd out.within (Nat.not_le.2 full)
  | cons byte bytes ih =>
    rw [length_cons] at full
    by_cases room : out.written.length < out.size
    · rcases put_fits out byte room with ⟨next, stored, wrote⟩
      rw [OutBlock.putAll, stored, Option.bind_some]
      apply ih
      rw [wrote.size_eq, wrote.written_eq, length_append, length_singleton]
      omega
    · rw [OutBlock.putAll, OutBlock.put, dif_neg room]
      rfl

/-! Accesses to a buffer of fixed size; outside its bounds they fault. -/

/-- `a - b` on size_t: below zero it wraps. -/
def subT (a b : Nat) : Nat := if b ≤ a then a - b else a + 2 ^ 64 - b

theorem subT_of_le {a b : Nat} (le : b ≤ a) : subT a b = a - b :=
  if_pos le

def load (buf : List UInt8) (index : Nat) : Option UInt8 := buf[index]?

def store (buf : List UInt8) (index : Nat) (byte : UInt8) : Option (List UInt8) :=
  if index < buf.length then some (buf.set index byte) else none

/-- `memcpy(buf + dst, other + src, count)`; with `other = buf` it is `memmove`. -/
def copyFrom (buf : List UInt8) (dst : Nat) (other : List UInt8) (src count : Nat) :
    Option (List UInt8) :=
  if src + count ≤ other.length ∧ dst + count ≤ buf.length then
    some (buf.take dst ++ (other.drop src).take count ++ buf.drop (dst + count))
  else none

variable (buf : List UInt8) (index : Nat)

theorem load_inside (inside : index < buf.length) :
    ∃ byte, load buf index = some byte :=
  ⟨_, getElem?_eq_getElem inside⟩

theorem store_inside (byte : UInt8) (inside : index < buf.length) :
    ∃ next, store buf index byte = some next ∧ next.length = buf.length := by
  refine ⟨_, if_pos inside, ?_⟩
  exact length_set

theorem copyFrom_inside (other : List UInt8) (dst src count : Nat)
    (source : src + count ≤ other.length) (target : dst + count ≤ buf.length) :
    ∃ next, copyFrom buf dst other src count = some next ∧ next.length = buf.length := by
  refine ⟨_, if_pos ⟨source, target⟩, ?_⟩
  simp only [length_append, length_take, length_drop]
  omega

end Lucis.Memory
