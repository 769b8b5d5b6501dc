import Mathlib.Algebra.Ring.Nat

/-!
A memory of bytes with words laid over it, the lowest byte first. A word may stand at any
address, so two words overlap unless one ends before the other begins.
-/

namespace ByteMemory

abbrev Memory := Nat → UInt8

/-- The word of `width` bytes at an address. -/
def load (memory : Memory) : Nat → Nat → Nat
  | 0, _ => 0
  | width + 1, addr => (memory addr).toNat + 256 * load memory width (addr + 1)

def poke (memory : Memory) (addr : Nat) (byte : UInt8) : Memory :=
  fun other => if other = addr then byte else memory other

def store (memory : Memory) : Nat → Nat → Nat → Memory
  | 0, _, _ => memory
  | width + 1, addr, value =>
    poke (store memory width (addr + 1) (value / 256)) addr (UInt8.ofNat value)

/-- The bytes at `source`, laid over those at `target`. -/
def copy (memory : Memory) (target source count : Nat) : Memory := fun addr =>
  if target ≤ addr ∧ addr < target + count then memory (source + (addr - target)) else memory addr

attribute [local simp] load store

variable {memory memory' : Memory} {width addr other value : Nat}

theorem copy_inside (memory : Memory) (target source : Nat) {count i : Nat} (inside : i < count) :
    copy memory target source count (target + i) = memory (source + i) := by
  rw [copy, if_pos ⟨Nat.le_add_right _ _, Nat.add_lt_add_left inside _⟩, Nat.add_sub_cancel_left]

@[simp] theorem poke_same (memory : Memory) (addr : Nat) (byte : UInt8) :
    poke memory addr byte addr = byte := if_pos rfl

theorem poke_other {byte : UInt8} (differs : other ≠ addr) :
    poke memory addr byte other = memory other := if_neg differs

theorem load_lt (memory : Memory) (width : Nat) (addr : Nat) :
    load memory width addr < 256 ^ width := by
  induction width generalizing addr with
  | zero => exact Nat.one_pos
  | succ width ih =>
    have low := (memory addr).toNat_lt
    have high := ih (addr + 1)
    rw [load, pow_succ]
    omega

theorem load_congr (same : ∀ x, addr ≤ x → x < addr + width → memory' x = memory x) :
    load memory' width addr = load memory width addr := by
  induction width generalizing addr with
  | zero => rfl
  | succ width ih =>
    have here := same addr (le_refl addr) (by omega)
    have rest : load memory' width (addr + 1) = load memory width (addr + 1) :=
      ih fun x above below => same x (by omega) (by omega)
    rw [load, load, here, rest]

theorem load_inj {addr other : Nat} : load memory width addr = load memory width other ↔
    ∀ k < width, memory (addr + k) = memory (other + k) := by
  induction width generalizing addr other with
  | zero => simp [load]
  | succ width ih =>
    have low := (memory addr).toNat_lt
    have low' := (memory other).toNat_lt
    have split : load memory (width + 1) addr = load memory (width + 1) other ↔
        memory addr = memory other ∧
          load memory width (addr + 1) = load memory width (other + 1) := by
      rw [load, load, ← UInt8.toNat_inj]
      omega
    rw [split, ih, Nat.forall_lt_succ_left]
    simp only [Nat.add_zero, Nat.add_right_comm _ 1, Nat.add_assoc]

theorem store_outside (memory : Memory) (value : Nat)
    (outside : other < addr ∨ addr + width ≤ other) :
    store memory width addr value other = memory other := by
  induction width generalizing addr value with
  | zero => rfl
  | succ width ih =>
    have elsewhere : other ≠ addr := by omega
    rw [store, poke_other elsewhere]
    exact ih (value / 256) (by omega)

theorem load_store (memory : Memory) (addr value : Nat) :
    load (store memory width addr value) width addr = value % 256 ^ width := by
  induction width generalizing addr value with
  | zero => simp [load, Nat.mod_one]
  | succ width ih =>
    have rest : load (store memory (width + 1) addr value) width (addr + 1) =
        load (store memory width (addr + 1) (value / 256)) width (addr + 1) :=
      load_congr fun x above _ => poke_other (by omega)
    have low : (UInt8.ofNat value).toNat = value % 256 := UInt8.toNat_ofNat'
    rw [load, rest, ih, store, poke_same, low, pow_succ, mul_comm (256 ^ width),
      Nat.mod_mul]

theorem load_store_of_lt (memory : Memory) (addr : Nat) (fits : value < 256 ^ width) :
    load (store memory width addr value) width addr = value := by
  rw [load_store, Nat.mod_eq_of_lt fits]

theorem load_store_apart {span : Nat} (memory : Memory) (value : Nat)
    (apart : addr + width ≤ other ∨ other + span ≤ addr) :
    load (store memory width addr value) span other = load memory span other :=
  load_congr fun x above below => store_outside memory value (by omega)

end ByteMemory
