import Lucis.Memory

/-!
The mutators of fuzz/fuzz_runner.c on the scratch buffer `g_input`. Every access
is checked against the buffer it is made in, and unsigned subtraction wraps, so
a mutator that leaves its buffer is a fault (`none`). The random numbers are an
arbitrary sequence of 64-bit words: `rng` is what `rngNext` still has to return.
-/

namespace Lucis.FuzzMutators

open Memory Option

def fuzzMaxInput : Nat := 2 ^ 16

abbrev Rng := Nat → UInt64

def rngNext (rng : Rng) : UInt64 × Rng :=
  (rng 0, fun index => rng (index + 1))

def rngBelow (n : Nat) (rng : Rng) : Nat × Rng :=
  if n = 0 then (0, rng) else ((rngNext rng).1.toNat % n, (rngNext rng).2)

structure Mutated where
  buf : List UInt8
  len : Nat
  rng : Rng

def interesting8 : List UInt8 := [0x00, 0x01, 0x7F, 0x80, 0xFF]

def interesting16 : List Nat := [0x0000, 0x0001, 0x7FFF, 0x8000, 0xFFFF]

def mutateBitFlip (m : Mutated) : Option Mutated :=
  if m.len = 0 then some { m with len := 0 }
  else
    let (pos, rng) := rngBelow m.len m.rng
    let (bit, rng) := rngBelow 8 rng
    do
      let old ← load m.buf pos
      let buf ← store m.buf pos (old ^^^ UInt8.ofNat (1 <<< bit))
      some ⟨buf, m.len, rng⟩

def mutateInteresting (m : Mutated) : Option Mutated :=
  if m.len = 0 then some { m with len := 0 }
  else
    let (pos, rng) := rngBelow m.len m.rng
    let (width, rng) := rngBelow 2 rng
    if width = 1 ∧ pos + 1 < m.len then
      let (choice, rng) := rngBelow interesting16.length rng
      let v := interesting16.getD choice 0
      do
        let buf ← store m.buf pos (UInt8.ofNat (v &&& 0xFF))
        let buf ← store buf (pos + 1) (UInt8.ofNat (v >>> 8))
        some ⟨buf, m.len, rng⟩
    else
      let (choice, rng) := rngBelow interesting8.length rng
      do
        let buf ← store m.buf pos (interesting8.getD choice 0)
        some ⟨buf, m.len, rng⟩

def mutateArith (m : Mutated) : Option Mutated :=
  if m.len = 0 then some { m with len := 0 }
  else
    let (pos, rng) := rngBelow m.len m.rng
    let (draw, rng) := rngBelow 71 rng
    let delta : Int := if (draw : Int) - 35 = 0 then 1 else (draw : Int) - 35
    do
      let old ← load m.buf pos
      let buf ← store m.buf pos (UInt8.ofInt (old.toNat + delta))
      some ⟨buf, m.len, rng⟩

def mutateInsert (m : Mutated) : Option Mutated :=
  if m.len ≥ fuzzMaxInput then some m
  else
    let (pos, rng) := rngBelow (m.len + 1) m.rng
    let (v, rng) := rngNext rng
    do
      let buf ← copyFrom m.buf (pos + 1) m.buf pos (subT m.len pos)
      let buf ← store buf pos v.toUInt8
      some ⟨buf, m.len + 1, rng⟩

/-- The two statements that close the gap of `span` bytes at `pos`. -/
def deleteSpan (m : Mutated) (pos span : Nat) : Option Mutated := do
  let buf ← copyFrom m.buf pos m.buf (pos + span) (subT (subT m.len pos) span)
  some ⟨buf, subT m.len span, m.rng⟩

def mutateDelete (m : Mutated) : Option Mutated :=
  if m.len = 0 then some { m with len := 0 }
  else
    let (pos, rng) := rngBelow m.len m.rng
    let (draw, rng) := rngBelow (subT m.len pos) rng
    deleteSpan { m with rng := rng } pos (1 + draw)

/-- The rest of `mutateSplice` once `cut` and `take` are drawn. -/
def spliceFrom (other : List UInt8) (m : Mutated) (cut take : Nat) : Option Mutated :=
  if take = 0 then some m
  else
    let (origin, rng) := rngBelow (subT other.length take + 1) m.rng
    do
      let buf ← copyFrom m.buf cut other origin take
      some ⟨buf, cut + take, rng⟩

def mutateSplice (other : List UInt8) (m : Mutated) : Option Mutated :=
  if other.length = 0 ∨ m.len = 0 then some m
  else
    let (cut, rng) := rngBelow (subT m.len 1) m.rng
    let (take, rng) := rngBelow
      (if other.length < fuzzMaxInput then other.length else fuzzMaxInput - 1) rng
    spliceFrom other { m with rng := rng } (1 + cut)
      (if 1 + cut + (1 + take) > fuzzMaxInput then subT fuzzMaxInput (1 + cut) else 1 + take)

/-- `switch (rngBelow(6))`: splicing needs a second queue entry. -/
def mutateOnceStep (queue : List (List UInt8)) (m : Mutated) : Option Mutated :=
  let (choice, rng) := rngBelow 6 m.rng
  let m := { m with rng := rng }
  match choice with
  | 0 => mutateBitFlip m
  | 1 => mutateInteresting m
  | 2 => mutateArith m
  | 3 => mutateInsert m
  | 4 => mutateDelete m
  | _ =>
    if queue.length > 1 then
      let (other, rng) := rngBelow queue.length m.rng
      queue[other]?.bind fun entry => mutateSplice entry { m with rng := rng }
    else mutateInsert m

def mutateSteps (queue : List (List UInt8)) : Nat → Mutated → Option Mutated
  | 0, m => some m
  | steps + 1, m => (mutateOnceStep queue m).bind (mutateSteps queue steps)

/-- A stack of one to sixteen mutations of the first `inputLen` bytes. -/
def mutateHavoc (queue : List (List UInt8)) (input : List UInt8) (inputLen : Nat) (rng : Rng) :
    Option Mutated :=
  let (draw, rng) := rngNext rng
  mutateSteps queue (1 + (draw &&& 15).toNat) ⟨input, inputLen, rng⟩

structure Fits (m : Mutated) : Prop where
  buf_size : m.buf.length = fuzzMaxInput
  len_le : m.len ≤ fuzzMaxInput

def Safe (result : Option Mutated) : Prop :=
  ∃ m, result = some m ∧ Fits m

section Bounds

variable (rng : Rng)

theorem rngBelow_lt {n : Nat} (positive : 0 < n) : (rngBelow n rng).1 < n := by
  rw [rngBelow, if_neg (by omega)]
  exact Nat.mod_lt _ positive

theorem rngBelow_draw {n : Nat} (positive : 0 < n) :
    ∃ draw rest, rngBelow n rng = (draw, rest) ∧ draw < n :=
  ⟨_, _, rfl, rngBelow_lt rng positive⟩

variable {m : Mutated}

theorem fits_rng (fits : Fits m) (rng : Rng) : Fits { m with rng := rng } :=
  ⟨fits.buf_size, fits.len_le⟩

theorem mutateBitFlip_safe (fits : Fits m) : Safe (mutateBitFlip m) := by
  unfold mutateBitFlip
  by_cases empty : m.len = 0
  · rw [if_pos empty]
    exact ⟨_, rfl, fits.buf_size, Nat.zero_le _⟩
  · have room := fits.buf_size ▸ fits.len_le
    rcases rngBelow_draw m.rng (Nat.pos_of_ne_zero empty) with ⟨pos, rng, drawn, inside⟩
    rcases rngBelow_draw rng (by omega : 0 < 8) with ⟨bit, rng', drawn', _⟩
    rcases load_inside m.buf pos (by omega) with ⟨old, read⟩
    rcases store_inside m.buf pos (old ^^^ UInt8.ofNat (1 <<< bit)) (by omega) with
      ⟨buf, written, size⟩
    simp only [if_neg empty, drawn, drawn', read, written, bind_eq_bind, bind_some]
    exact ⟨_, rfl, size.trans fits.buf_size, fits.len_le⟩

theorem mutateInteresting_safe (fits : Fits m) : Safe (mutateInteresting m) := by
  unfold mutateInteresting
  by_cases empty : m.len = 0
  · rw [if_pos empty]
    exact ⟨_, rfl, fits.buf_size, Nat.zero_le _⟩
  · have room := fits.buf_size ▸ fits.len_le
    rcases rngBelow_draw m.rng (Nat.pos_of_ne_zero empty) with ⟨pos, rng, drawn, inside⟩
    rcases rngBelow_draw rng (by omega : 0 < 2) with ⟨width, rng', drawn', _⟩
    by_cases wide : width = 1 ∧ pos + 1 < m.len
    · rcases rngBelow_draw rng' (by decide : 0 < interesting16.length) with ⟨choice, rest, chosen, _⟩
      rcases store_inside m.buf pos (UInt8.ofNat (interesting16.getD choice 0 &&& 0xFF))
        (by omega) with ⟨buf, written, size⟩
      rcases store_inside buf (pos + 1) (UInt8.ofNat (interesting16.getD choice 0 >>> 8))
        (by omega) with ⟨buf', written', size'⟩
      simp only [if_neg empty, drawn, drawn', if_pos wide, chosen, written, written',
        bind_eq_bind, bind_some]
      exact ⟨_, rfl, (size'.trans size).trans fits.buf_size, fits.len_le⟩
    · rcases rngBelow_draw rng' (by decide : 0 < interesting8.length) with ⟨choice, rest, chosen, _⟩
      rcases store_inside m.buf pos (interesting8.getD choice 0) (by omega) with
        ⟨buf, written, size⟩
      simp only [if_neg empty, drawn, drawn', if_neg wide, chosen, written, bind_eq_bind, bind_some]
      exact ⟨_, rfl, size.trans fits.buf_size, fits.len_le⟩

theorem mutateArith_safe (fits : Fits m) : Safe (mutateArith m) := by
  unfold mutateArith
  by_cases empty : m.len = 0
  · rw [if_pos empty]
    exact ⟨_, rfl, fits.buf_size, Nat.zero_le _⟩
  · have room := fits.buf_size ▸ fits.len_le
    rcases rngBelow_draw m.rng (Nat.pos_of_ne_zero empty) with ⟨pos, rng, drawn, inside⟩
    rcases rngBelow_draw rng (by omega : 0 < 71) with ⟨draw, rng', drawn', _⟩
    rcases load_inside m.buf pos (by omega) with ⟨old, read⟩
    rcases store_inside m.buf pos (UInt8.ofInt (old.toNat +
      if (draw : Int) - 35 = 0 then 1 else (draw : Int) - 35)) (by omega) with ⟨buf, written, size⟩
    simp only [if_neg empty, drawn, drawn', read, written, bind_eq_bind, bind_some]
    exact ⟨_, rfl, size.trans fits.buf_size, fits.len_le⟩

theorem mutateInsert_safe (fits : Fits m) : Safe (mutateInsert m) := by
  unfold mutateInsert
  by_cases full : m.len ≥ fuzzMaxInput
  · rw [if_pos full]
    exact ⟨m, rfl, fits⟩
  · have room := fits.buf_size
    rcases rngBelow_draw m.rng (Nat.succ_pos m.len) with ⟨pos, rng, drawn, inside⟩
    have tail := subT_of_le (by omega : pos ≤ m.len)
    rcases copyFrom_inside m.buf m.buf (pos + 1) pos (m.len - pos) (by omega) (by omega) with
      ⟨buf, moved, size⟩
    rcases store_inside buf pos (rngNext rng).1.toUInt8 (by omega) with ⟨buf', written, size'⟩
    simp only [if_neg full, drawn, tail, moved, written, bind_eq_bind, bind_some]
    exact ⟨_, rfl, (size'.trans size).trans room, by simp only; omega⟩

theorem deleteSpan_safe (fits : Fits m) {pos span : Nat} (inside : pos + span ≤ m.len) :
    Safe (deleteSpan m pos span) := by
  have room := fits.buf_size
  have small := fits.len_le
  have tail := subT_of_le (by omega : pos ≤ m.len)
  have rest := subT_of_le (by omega : span ≤ m.len - pos)
  have shorter := subT_of_le (by omega : span ≤ m.len)
  rcases copyFrom_inside m.buf m.buf pos (pos + span) (m.len - pos - span) (by omega) (by omega)
    with ⟨buf, moved, size⟩
  rw [deleteSpan, tail, rest, moved, shorter]
  exact ⟨_, rfl, size.trans room, by simp only; omega⟩

theorem mutateDelete_safe (fits : Fits m) : Safe (mutateDelete m) := by
  unfold mutateDelete
  by_cases empty : m.len = 0
  · rw [if_pos empty]
    exact ⟨_, rfl, fits.buf_size, Nat.zero_le _⟩
  · rcases rngBelow_draw m.rng (Nat.pos_of_ne_zero empty) with ⟨pos, rng, drawn, inside⟩
    have tail := subT_of_le (by omega : pos ≤ m.len)
    rcases rngBelow_draw rng (by omega : 0 < m.len - pos) with ⟨draw, rng', drawn', inside'⟩
    simp only [if_neg empty, drawn, tail, drawn']
    apply deleteSpan_safe (fits_rng fits rng')
    simp only
    omega

theorem spliceFrom_safe (fits : Fits m) (other : List UInt8)
    {cut take : Nat} (target : cut + take ≤ fuzzMaxInput) (source : take ≤ other.length) :
    Safe (spliceFrom other m cut take) := by
  unfold spliceFrom
  by_cases nothing : take = 0
  · rw [if_pos nothing]
    exact ⟨m, rfl, fits⟩
  · have room := fits.buf_size
    have spare := subT_of_le source
    rcases rngBelow_draw m.rng (Nat.succ_pos (other.length - take)) with
      ⟨origin, rest, chosen, inside⟩
    rcases copyFrom_inside m.buf other cut origin take (by omega) (by omega) with
      ⟨buf, moved, size⟩
    simp only [if_neg nothing, spare, chosen, moved, bind_eq_bind, bind_some]
    exact ⟨_, rfl, size.trans room, target⟩

theorem mutateSplice_safe (fits : Fits m) (other : List UInt8) : Safe (mutateSplice other m) := by
  unfold mutateSplice
  by_cases empty : other.length = 0 ∨ m.len = 0
  · rw [if_pos empty]
    exact ⟨m, rfl, fits⟩
  · have small := fits.len_le
    have wide : 1 < fuzzMaxInput := by decide
    have one := subT_of_le (by omega : 1 ≤ m.len)
    -- A text of one byte draws below zero, which consumes nothing and gives zero.
    have cutDraw : ∃ cut rng, rngBelow (m.len - 1) m.rng = (cut, rng) ∧ 1 + cut ≤ m.len := by
      by_cases single : m.len - 1 = 0
      · exact ⟨0, m.rng, by rw [rngBelow, if_pos single], by omega⟩
      · rcases rngBelow_draw m.rng (Nat.pos_of_ne_zero single) with ⟨cut, rng, drawn, inside⟩
        exact ⟨cut, rng, drawn, by omega⟩
    rcases cutDraw with ⟨cut, rng, drawn, cut_le⟩
    have takeBound : 0 < (if other.length < fuzzMaxInput then other.length
        else fuzzMaxInput - 1) := by
      split <;> omega
    rcases rngBelow_draw rng takeBound with ⟨take, rng', drawn', inside⟩
    have take_le : 1 + take ≤ other.length := by
      split at inside <;> omega
    have clipped := subT_of_le (by omega : 1 + cut ≤ fuzzMaxInput)
    simp only [if_neg empty, one, drawn, drawn', clipped]
    apply spliceFrom_safe (fits_rng fits rng') other
    · split <;> omega
    · split <;> omega

variable (queue : List (List UInt8))

theorem mutateOnceStep_safe (fits : Fits m) :
    Safe (mutateOnceStep queue m) := by
  unfold mutateOnceStep
  rcases rngBelow_draw m.rng (by omega : 0 < 6) with ⟨choice, rng, drawn, _⟩
  have fits' := fits_rng fits rng
  simp only [drawn]
  split
  · exact mutateBitFlip_safe fits'
  · exact mutateInteresting_safe fits'
  · exact mutateArith_safe fits'
  · exact mutateInsert_safe fits'
  · exact mutateDelete_safe fits'
  · split
    · rename_i several
      rcases rngBelow_draw rng (by omega : 0 < queue.length) with ⟨other, rest, chosen, inside⟩
      simp only [chosen, List.getElem?_eq_getElem inside, bind_some]
      exact mutateSplice_safe (fits_rng fits rest) _
    · exact mutateInsert_safe fits'

theorem mutateSteps_safe (steps : Nat) (fits : Fits m) :
    Safe (mutateSteps queue steps m) := by
  induction steps generalizing m with
  | zero => exact ⟨m, rfl, fits⟩
  | succ steps ih =>
    rcases mutateOnceStep_safe queue fits with ⟨next, stepped, fits'⟩
    rw [mutateSteps, stepped, bind_some]
    exact ih fits'

theorem mutateHavoc_safe (input : List UInt8) (inputLen : Nat) (rng : Rng)
    (size : input.length = fuzzMaxInput) (inside : inputLen ≤ fuzzMaxInput) :
    Safe (mutateHavoc queue input inputLen rng) :=
  mutateSteps_safe queue _ ⟨size, inside⟩

end Bounds

end Lucis.FuzzMutators
