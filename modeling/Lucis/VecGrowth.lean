import Lucis.Vec
import Mathlib.Data.Nat.ModEq

/-!
What vec_grow of collections/vec.c does for any header and any requested size.
The doubling is a size_t, so past 2^63 it wraps to zero and the loop goes on for
ever; and realloc's answer is stored without a look at it.
-/

namespace Lucis.Vec

open Lucis.Memory (sizeT sizeT_of_lt)

variable {T : Type}

def iinfPlatform (serves : Nat → Bool) (limit : ∀ bytes, serves bytes = true → bytes < 2 ^ 63) :
    Platform where
  elemSize := 32
  elemSize_pos := by decide
  serves := serves
  limit := limit

/-- The text of `vec_grow` once more, at lucis_int256_t. -/
def vecGrowIinf (serves : Nat → Bool) (limit : ∀ bytes, serves bytes = true → bytes < 2 ^ 63)
    (v : Header T) (needed : Nat) : Option (Header T) :=
  vecGrow (iinfPlatform serves limit) v needed

/-- The block holds `cap` elements, enough for the request, and begins with the old data. -/
structure Grown (platform : Platform) (v : Header T) (needed : Nat) (v' : Header T) : Prop where
  enough : needed ≤ v'.cap
  no_wrap : v'.cap * platform.elemSize < 2 ^ 64
  block_eq : v'.block = Cells.resize v.block v'.cap
  len_eq : v'.len = v.len

def Settles (platform : Platform) (grow : Header T → Nat → Option (Header T)) (v : Header T)
    (needed : Nat) : Prop :=
  ∃ v', grow v needed = some v' ∧ (Grown platform v needed v' ∨ v' = v)

section Loop
variable {needed : Nat}

theorem doubleUntil_le {fuel newCap reached : Nat}
    (ended : doubleUntil needed fuel newCap = some reached) : needed ≤ reached := by
  induction fuel generalizing newCap with
  | zero =>
    rw [doubleUntil] at ended
    split at ended
    · cases ended
    · cases ended
      omega
  | succ fuel ih =>
    rw [doubleUntil] at ended
    split at ended
    · exact ih ended
    · cases ended
      omega

theorem doubleUntil_doubled {fuel newCap reached : Nat}
    (ended : doubleUntil needed fuel newCap = some reached) (small : reached < 2 ^ 63) :
    ∃ doublings, Doublings newCap needed doublings ∧ reached = newCap * 2 ^ doublings := by
  by_cases below : newCap < needed
  · induction fuel generalizing newCap with
    | zero => rw [doubleUntil, if_pos below] at ended; cases ended
    | succ fuel ih =>
      rw [doubleUntil, if_pos below] at ended
      have requested := (doubleUntil_le ended).trans_lt small
      rw [sizeT_of_lt (by rw [vecGrowthFactor]; omega), vecGrowthFactor] at ended
      by_cases again : newCap * 2 < needed
      · rcases ih ended again with ⟨doublings, ⟨enough, least⟩, reached_eq⟩
        have shift (k : Nat) : newCap * 2 * 2 ^ k = newCap * 2 ^ (k + 1) := by
          rw [pow_succ', mul_assoc]
        refine ⟨doublings + 1, ⟨shift doublings ▸ enough, fun fewer lt => ?_⟩,
          shift doublings ▸ reached_eq⟩
        cases fewer with
        | zero => simpa using below
        | succ fewer => exact shift fewer ▸ least fewer (Nat.succ_lt_succ_iff.1 lt)
      · rw [doubleUntil_reached needed fuel _ (Nat.not_lt.1 again)] at ended
        cases ended
        refine ⟨1, ⟨by simpa using Nat.not_lt.1 again, fun fewer lt => ?_⟩, by simp⟩
        rw [Nat.lt_one_iff.1 lt]
        simpa using below
  · rw [doubleUntil_reached needed fuel newCap (Nat.not_lt.1 below)] at ended
    cases ended
    exact ⟨0, ⟨by simpa using below, fun fewer lt => absurd lt (Nat.not_lt_zero _)⟩, by simp⟩

end Loop

section Request
variable {platform : Platform} {v : Header T} {needed : Nat}

theorem served_of_realloc {block : Cells.Block T} {count : Nat} (pos : 0 < count)
    (resized : realloc platform block count = Cells.resize block count) :
    platform.serves (sizeT (count * platform.elemSize)) = true := by
  by_contra refused
  have length := congrArg List.length resized
  rw [realloc, if_neg refused, Cells.resize, List.length_nil, List.length_append,
    List.length_take, List.length_replicate] at length
  omega

theorem room_of_grown {v' : Header T} (full : ¬needed ≤ v.cap)
    (ended : vecGrow platform v needed = some v') (grown : Grown platform v needed v') :
    Room platform v needed := by
  rw [vecGrow, if_neg full, Option.map_eq_some_iff] at ended
  rcases ended with ⟨newCap, looped, rfl⟩
  have pos : 0 < newCap := (Nat.zero_le _).trans_lt ((Nat.not_le.1 full).trans_le grown.enough)
  have served := served_of_realloc pos grown.block_eq
  rw [sizeT_of_lt grown.no_wrap] at served
  rcases doubleUntil_doubled looped (count_small (platform.limit _ served)) with
    ⟨doublings, least, rfl⟩
  exact .inr ⟨doublings, least, served⟩

theorem settles_iff : Settles platform (vecGrow platform) v needed ↔ Room platform v needed := by
  constructor
  · rintro ⟨v', ended, settled⟩
    by_cases fits : needed ≤ v.cap
    · exact .inl fits
    · rcases settled with grown | rfl
      · exact room_of_grown fits ended grown
      · -- the capacity that the loop ended with is at least the request
        rw [vecGrow, if_neg fits, Option.map_eq_some_iff] at ended
        rcases ended with ⟨newCap, looped, same⟩
        rw [← same] at fits
        exact absurd (doubleUntil_le looped) fits
  · rintro (fits | ⟨doublings, least, served⟩)
    · exact ⟨v, if_pos fits, .inr rfl⟩
    · by_cases fits : needed ≤ v.cap
      · exact ⟨v, if_pos fits, .inr rfl⟩
      · have addressable := platform.limit _ served
        refine ⟨_, vecGrow_served fits least served, .inl ?_⟩
        exact ⟨least.1, addressable.trans (by norm_num), rfl, rfl⟩

end Request

/-- vec_grow settles exactly when the capacity is there or the doubled one, which is what the
request needs at least, is served as a number of bytes below 2^63. -/
theorem vecGrow_settles_iff (v : Header T) (needed : Nat) :
    (∀ platform, Settles platform (vecGrow platform) v needed ↔ Room platform v needed) ∧
      ∀ serves limit, Settles (iinfPlatform serves limit) (vecGrowIinf serves limit) v needed ↔
        Room (iinfPlatform serves limit) v needed :=
  ⟨fun _ => settles_iff, fun _ _ => settles_iff⟩

def generous : Platform where
  elemSize := 1
  elemSize_pos := by decide
  serves bytes := bytes < 2 ^ 63
  limit := bytePlatform.limit

/-- An empty vec asked for 2^63 + 1 elements doubles 8 until it is zero, and then for ever. -/
theorem vecGrow_hangs :
    ¬∀ (platform : Platform) (v : Header UInt8) (needed : Nat), v.len ≤ v.cap →
      v.cap < 2 ^ 64 → needed < 2 ^ 64 →
        Settles platform (vecGrow platform) v needed := by
  intro settles
  rcases settles generous lucisVecInit (2 ^ 63 + 1) (by decide) (by decide) (by decide) with
    ⟨v', ended, _⟩
  have stuck : vecGrow generous (lucisVecInit : Header UInt8) (2 ^ 63 + 1) = none := by
    decide +kernel
  rw [stuck] at ended
  cases ended

end Lucis.Vec
