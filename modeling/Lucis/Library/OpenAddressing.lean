import Mathlib.Data.List.Perm.Basic
import Mathlib.Data.List.Nodup
import Mathlib.Data.Nat.ModEq
import Mathlib.Tactic.Ring

/-!
Open addressing with linear probing and tombstones, over any entry type, any
key projection and any hash. `search` is the probe loop every such table runs:
it stops at an empty slot, remembers the first tombstone and gives up after
one full turn. `Wf` is the invariant behind it; the rules below say what each
slot update does to `Wf` and to the list of stored entries.
-/

namespace OpenAddressing

open List

universe u v

inductive Slot (Entry : Type u) where
  | empty
  | occupied (hash : Nat) (entry : Entry)
  | tombstone
  deriving DecidableEq

variable {Entry : Type u} {Key : Type v}

def Slot.entryOf : Slot Entry → Option Entry
  | .occupied _ entry => some entry
  | _ => none

def slotAt (slots : List (Slot Entry)) (index : Nat) : Slot Entry :=
  slots.getD index .empty

def entries (slots : List (Slot Entry)) : List Entry :=
  slots.filterMap Slot.entryOf

@[simp] theorem entries_nil : entries ([] : List (Slot Entry)) = [] := rfl

@[simp] theorem entries_empty_cons (slots : List (Slot Entry)) :
    entries (.empty :: slots) = entries slots := rfl

@[simp] theorem entries_tombstone_cons (slots : List (Slot Entry)) :
    entries (.tombstone :: slots) = entries slots := rfl

@[simp] theorem entries_occupied_cons (hash : Nat) (entry : Entry) (slots : List (Slot Entry)) :
    entries (.occupied hash entry :: slots) = entry :: entries slots := rfl

/-- Slot number `step` of the probe sequence of `hash`; `cap - 1` is the mask. -/
def probe (cap hash step : Nat) : Nat :=
  ((hash &&& (cap - 1)) + step) &&& (cap - 1)

def search (slots : List (Slot Entry)) (cap hash : Nat) (same : Entry → Bool) :
    Nat → Nat → Option Nat → Nat × Bool
  | 0, _, tomb => (tomb.getD 0, false)
  | fuel + 1, step, tomb =>
    let slot := probe cap hash step
    match slotAt slots slot with
    | .empty => (tomb.getD slot, false)
    | .tombstone => search slots cap hash same fuel (step + 1) (some (tomb.getD slot))
    | .occupied stored entry =>
      if stored == hash && same entry then (slot, true)
      else search slots cap hash same fuel (step + 1) tomb

def find (slots : List (Slot Entry)) (cap hash : Nat) (same : Entry → Bool) : Nat × Bool :=
  search slots cap hash same cap 0 none

/-- `index` is on the probe sequence of `hash`, with no empty slot before it. -/
def Reachable (slots : List (Slot Entry)) (cap hash index : Nat) : Prop :=
  ∃ step < cap, probe cap hash step = index ∧
    ∀ earlier < step, slotAt slots (probe cap hash earlier) ≠ .empty

structure Wf (key : Entry → Key) (hashOf : Key → Nat) (cap : Nat)
    (slots : List (Slot Entry)) : Prop where
  length_eq : slots.length = cap
  powerOfTwo : ∃ n, cap = 2 ^ n
  hashed : ∀ index stored entry,
    slotAt slots index = .occupied stored entry → stored = hashOf (key entry)
  reachable : ∀ index stored entry,
    slotAt slots index = .occupied stored entry → Reachable slots cap stored index
  distinct : ((entries slots).map key).Nodup

section Probe

theorem probe_mod (n hash step : Nat) :
    probe (2 ^ n) hash step = (hash % 2 ^ n + step) % 2 ^ n := by
  simp [probe, Nat.and_two_pow_sub_one_eq_mod]

variable {cap : Nat}

theorem probe_lt (pow : ∃ n, cap = 2 ^ n) (hash step : Nat) :
    probe cap hash step < cap := by
  obtain ⟨n, rfl⟩ := pow
  rw [probe_mod]
  exact Nat.mod_lt _ (Nat.two_pow_pos n)

theorem probe_covers (pow : ∃ n, cap = 2 ^ n) (hash index : Nat)
    (inside : index < cap) : ∃ step < cap, probe cap hash step = index := by
  obtain ⟨n, rfl⟩ := pow
  have home := Nat.mod_lt hash (Nat.two_pow_pos n)
  by_cases ahead : hash % 2 ^ n ≤ index
  · refine ⟨index - hash % 2 ^ n, by omega, ?_⟩
    rw [probe_mod, Nat.add_sub_cancel' ahead, Nat.mod_eq_of_lt inside]
  · refine ⟨index + 2 ^ n - hash % 2 ^ n, by omega, ?_⟩
    have wrap : hash % 2 ^ n + (index + 2 ^ n - hash % 2 ^ n) = index + 2 ^ n := by omega
    rw [probe_mod, wrap, Nat.add_mod_right, Nat.mod_eq_of_lt inside]

end Probe

section Slots

variable (slots : List (Slot Entry))
include slots

theorem slotAt_occupied (index stored : Nat) (entry : Entry) :
    slotAt slots index = .occupied stored entry ↔
      slots[index]? = some (.occupied stored entry) := by
  unfold slotAt
  rw [getD_eq_getElem?_getD]
  cases slots[index]? <;> simp

omit slots in
theorem slotAt_occupied_lt {slots} {index stored : Nat} {entry : Entry}
    (found : slotAt slots index = .occupied stored entry) : index < slots.length := by
  have some_at := (slotAt_occupied slots index stored entry).1 found
  exact (List.getElem?_eq_some_iff.1 some_at).1

theorem slotAt_set (index other : Nat) (slot : Slot Entry) (inside : index < slots.length) :
    slotAt (slots.set index slot) other = if other = index then slot else slotAt slots other := by
  unfold slotAt
  rw [getD_eq_getElem?_getD, getD_eq_getElem?_getD, getElem?_set]
  by_cases same : index = other
  · subst same
    simp [inside]
  · simp [same, Ne.symm same]

omit slots in
theorem slotAt_replicate (cap index : Nat) :
    slotAt (List.replicate cap (.empty : Slot Entry)) index = .empty := by
  unfold slotAt
  rw [getD_eq_getElem?_getD, getElem?_replicate]
  split <;> rfl

theorem mem_entries (entry : Entry) :
    entry ∈ entries slots ↔ ∃ index stored, slotAt slots index = .occupied stored entry := by
  simp only [entries, mem_filterMap]
  constructor
  · rintro ⟨slot, member, present⟩
    obtain ⟨index, at_index⟩ := mem_iff_getElem?.mp member
    cases slot with
    | occupied stored held =>
      simp only [Slot.entryOf, Option.some.injEq] at present
      subst present
      exact ⟨index, stored, (slotAt_occupied _ _ _ _).2 at_index⟩
    | empty => simp [Slot.entryOf] at present
    | tombstone => simp [Slot.entryOf] at present
  · rintro ⟨index, stored, held⟩
    have at_index := (slotAt_occupied _ _ _ _).1 held
    exact ⟨_, mem_of_getElem? at_index, rfl⟩

theorem entries_exchange (index : Nat) (inside : index < slots.length) :
    ∃ rest, (entries slots).Perm ((slotAt slots index).entryOf.toList ++ rest) ∧
      ∀ slot, (entries (slots.set index slot)).Perm (slot.entryOf.toList ++ rest) := by
  have held : slotAt slots index = slots[index] := by simp [slotAt, inside]
  have around (slot : Slot Entry) (before after : List (Slot Entry)) :
      (entries (before ++ slot :: after)).Perm
        (slot.entryOf.toList ++ (entries before ++ entries after)) := by
    have moved : (entries (before ++ slot :: after)).Perm (entries (slot :: (before ++ after))) :=
      perm_middle.filterMap _
    refine moved.trans ?_
    cases present : slot.entryOf <;> simp [entries, present]
  refine ⟨entries (slots.take index) ++ entries (slots.drop (index + 1)), ?_, fun slot => ?_⟩
  · have whole : slots = slots.take index ++ slots[index] :: slots.drop (index + 1) := by simp
    rw [held]
    conv_lhs => rw [whole]
    exact around _ _ _
  · rw [set_eq_take_append_cons_drop, if_pos inside]
    exact around _ _ _

theorem exists_free (room : (entries slots).length < slots.length) :
    ∃ index < slots.length, (slotAt slots index).entryOf = none := by
  by_contra none_free
  push Not at none_free
  have all_held : ∀ slot ∈ slots, slot.entryOf.isSome := by
    intro slot member
    obtain ⟨index, inside, rfl⟩ := mem_iff_getElem.1 member
    have held : (slots[index]).entryOf ≠ none := by
      simpa [slotAt, inside] using none_free index inside
    exact Option.isSome_iff_ne_none.2 held
  have full : (entries slots).length = slots.length := by
    rw [entries, length_filterMap_eq_countP]
    exact countP_eq_length.2 all_held
  omega

end Slots

/-- The invariant asks only for the keys of stored entries. -/
theorem wf_congr {key key' : Entry → Key} {hashOf : Key → Nat} {cap : Nat}
    {slots : List (Slot Entry)} (same : ∀ entry ∈ entries slots, key' entry = key entry)
    (wf : Wf key hashOf cap slots) : Wf key' hashOf cap slots where
  length_eq := wf.length_eq
  powerOfTwo := wf.powerOfTwo
  hashed := by
    intro index stored entry held
    rw [same entry ((mem_entries _ _).2 ⟨index, stored, held⟩)]
    exact wf.hashed index stored entry held
  reachable := wf.reachable
  distinct := by
    rw [map_congr_left same]
    exact wf.distinct

section Search

variable {key : Entry → Key} {hashOf : Key → Nat} {cap : Nat} {slots : List (Slot Entry)}

variable (wf : Wf key hashOf cap slots)
include wf

theorem wf_size : (entries slots).length ≤ cap :=
  wf.length_eq ▸ length_filterMap_le _ _

theorem wf_hashed_mem {stored : Nat} {entry : Entry}
    (member : .occupied stored entry ∈ slots) : stored = hashOf (key entry) := by
  rcases mem_iff_getElem?.mp member with ⟨index, at_index⟩
  exact wf.hashed index stored entry ((slotAt_occupied _ _ _ _).2 at_index)

/-- What the loop knows after `step` probes that did not stop it. -/
structure Passed (key : Entry → Key) (slots : List (Slot Entry)) (cap hash : Nat) (wanted : Key)
    (step : Nat) (tomb : Option Nat) : Prop where
  nonempty : ∀ earlier < step, slotAt slots (probe cap hash earlier) ≠ .empty
  others : ∀ earlier < step, ∀ stored entry,
    slotAt slots (probe cap hash earlier) = .occupied stored entry → key entry ≠ wanted
  grave : ∀ index, tomb = some index →
    slotAt slots index = .tombstone ∧ ∃ earlier < step, probe cap hash earlier = index
  noGrave : tomb = none → ∀ earlier < step, slotAt slots (probe cap hash earlier) ≠ .tombstone

omit wf in
theorem passed_start (slots : List (Slot Entry)) (hash : Nat) (wanted : Key) :
    Passed key slots cap hash wanted 0 none :=
  ⟨by simp, by simp, by simp, by simp⟩

def Vacant (slots : List (Slot Entry)) (cap hash index : Nat) : Prop :=
  index < cap ∧ (slotAt slots index).entryOf = none ∧ Reachable slots cap hash index

variable {wanted : Key} {index step : Nat}

omit wf in
theorem passed_grave_vacant (pow : ∃ n, cap = 2 ^ n) {hash : Nat}
    (bound : step ≤ cap) (passed : Passed key slots cap hash wanted step (some index)) :
    Vacant slots cap hash index := by
  obtain ⟨buried, earlier, before, at_index⟩ := passed.grave index rfl
  refine ⟨at_index ▸ probe_lt pow _ _, by rw [buried]; rfl, earlier, by omega, at_index, ?_⟩
  intro prior before_prior
  exact passed.nonempty prior (by omega)

theorem passed_absent
    {tomb : Option Nat} (passed : Passed key slots cap (hashOf wanted) wanted step tomb)
    (stop : step = cap ∨ slotAt slots (probe cap (hashOf wanted) step) = .empty) :
    ∀ entry ∈ entries slots, key entry ≠ wanted := by
  intro entry member same
  obtain ⟨index, stored, held⟩ := (mem_entries _ _).1 member
  have hash_eq := wf.hashed index stored entry held
  rw [same] at hash_eq
  subst hash_eq
  obtain ⟨at_step, inside, at_index, chain⟩ := wf.reachable index _ entry held
  by_cases early : at_step < step
  · exact passed.others at_step early _ entry (by rw [at_index]; exact held) same
  · rcases stop with full | empty
    · omega
    · by_cases now : at_step = step
      · rw [← now, at_index, held] at empty
        cases empty
      · exact chain step (by omega) empty

variable {same : Entry → Bool}

variable (decides : ∀ entry, same entry = true ↔ key entry = wanted)
include decides

theorem search_spec (fuel step : Nat) (tomb : Option Nat) (span : step + fuel = cap)
    (passed : Passed key slots cap (hashOf wanted) wanted step tomb) {hit : Bool}
    (result : search slots cap (hashOf wanted) same fuel step tomb = (index, hit)) :
    (hit = true → ∃ entry, slotAt slots index = .occupied (hashOf wanted) entry ∧
      key entry = wanted) ∧ (hit = false → (∀ entry ∈ entries slots, key entry ≠ wanted) ∧
      ((entries slots).length < cap → Vacant slots cap (hashOf wanted) index)) := by
  induction fuel generalizing step tomb with
  | zero =>
    simp only [search, Prod.mk.injEq] at result
    obtain ⟨rfl, rfl⟩ := result
    have full : step = cap := by omega
    refine ⟨by simp, fun _ => ⟨passed_absent wf passed (.inl full), fun room => ?_⟩⟩
    cases tomb with
    | some index => exact passed_grave_vacant wf.powerOfTwo (by omega) passed
    | none =>
      -- a full turn without empty slot or tombstone contradicts the free slot
      obtain ⟨free, inside, vacant⟩ := exists_free slots (wf.length_eq ▸ room)
      obtain ⟨at_step, bound, rfl⟩ :=
        probe_covers wf.powerOfTwo (hashOf wanted) free (wf.length_eq ▸ inside)
      have not_empty := passed.nonempty at_step (by omega)
      have not_grave := passed.noGrave rfl at_step (by omega)
      cases held : slotAt slots (probe cap (hashOf wanted) at_step) with
      | empty => exact absurd held not_empty
      | tombstone => exact absurd held not_grave
      | occupied stored entry => simp [held, Slot.entryOf] at vacant
  | succ fuel ih =>
    rw [search] at result
    cases held : slotAt slots (probe cap (hashOf wanted) step) with
    | empty =>
      simp only [held, Prod.mk.injEq] at result
      obtain ⟨rfl, rfl⟩ := result
      refine ⟨by simp, fun _ => ⟨passed_absent wf passed (.inr held), fun _ => ?_⟩⟩
      cases tomb with
      | some index => exact passed_grave_vacant wf.powerOfTwo (by omega) passed
      | none =>
        exact ⟨probe_lt wf.powerOfTwo _ _, by simp [held, Slot.entryOf],
          step, by omega, rfl, passed.nonempty⟩
    | tombstone =>
      simp only [held] at result
      refine ih (step + 1) _ (by omega) ⟨?_, ?_, ?_, by simp⟩ result
      · intro earlier before
        by_cases now : earlier = step
        · rw [now, held]; simp
        · exact passed.nonempty earlier (by omega)
      · intro earlier before stored entry at_earlier
        by_cases now : earlier = step
        · rw [now, held] at at_earlier; cases at_earlier
        · exact passed.others earlier (by omega) stored entry at_earlier
      · intro index first
        cases tomb with
        | none =>
          simp only [Option.getD_none, Option.some.injEq] at first
          subst first
          exact ⟨held, step, by omega, rfl⟩
        | some older =>
          simp only [Option.getD_some, Option.some.injEq] at first
          subst first
          obtain ⟨buried, earlier, before, at_index⟩ := passed.grave older rfl
          exact ⟨buried, earlier, by omega, at_index⟩
    | occupied stored entry =>
      simp only [held] at result
      by_cases hit_now : (stored == hashOf wanted && same entry) = true
      · simp only [hit_now, if_true, Prod.mk.injEq] at result
        obtain ⟨rfl, rfl⟩ := result
        simp only [Bool.and_eq_true, beq_iff_eq] at hit_now
        exact ⟨fun _ => ⟨entry, hit_now.1 ▸ held, (decides entry).1 hit_now.2⟩, by simp⟩
      · simp only [hit_now] at result
        have other : key entry ≠ wanted := by
          intro equal
          apply hit_now
          rw [wf.hashed _ _ _ held, equal]
          simp [(decides entry).2 equal]
        refine ih (step + 1) tomb (by omega) ⟨?_, ?_, ?_, ?_⟩ result
        · intro earlier before
          by_cases now : earlier = step
          · rw [now, held]; simp
          · exact passed.nonempty earlier (by omega)
        · intro earlier before stored' entry' at_earlier
          by_cases now : earlier = step
          · rw [now, held] at at_earlier
            cases at_earlier
            exact other
          · exact passed.others earlier (by omega) stored' entry' at_earlier
        · intro index buried
          obtain ⟨grave, earlier, before, at_index⟩ := passed.grave index buried
          exact ⟨grave, earlier, by omega, at_index⟩
        · intro none_yet earlier before
          by_cases now : earlier = step
          · rw [now, held]; simp
          · exact passed.noGrave none_yet earlier (by omega)

theorem find_hit (found : find slots cap (hashOf wanted) same = (index, true)) :
    ∃ entry, slotAt slots index = .occupied (hashOf wanted) entry ∧ key entry = wanted :=
  (search_spec wf decides cap 0 none (by omega) (passed_start slots _ _) found).1 rfl

theorem find_miss (missed : find slots cap (hashOf wanted) same = (index, false)) :
    (∀ entry ∈ entries slots, key entry ≠ wanted) ∧
      ((entries slots).length < cap → Vacant slots cap (hashOf wanted) index) :=
  (search_spec wf decides cap 0 none (by omega) (passed_start slots _ _) missed).2 rfl

theorem find_iff :
    (find slots cap (hashOf wanted) same).2 = true ↔ wanted ∈ (entries slots).map key := by
  rcases outcome : find slots cap (hashOf wanted) same with ⟨index, hit⟩
  cases hit with
  | true =>
    obtain ⟨entry, held, same_key⟩ := find_hit wf decides outcome
    have member := (mem_entries slots entry).2 ⟨index, _, held⟩
    simpa using ⟨entry, member, same_key⟩
  | false =>
    have absent := (find_miss wf decides outcome).1
    simpa using absent

end Search

section Updates

variable {key : Entry → Key} {hashOf : Key → Nat} {cap : Nat} {slots : List (Slot Entry)}

theorem entries_replicate (cap : Nat) :
    entries (List.replicate cap (.empty : Slot Entry)) = [] := by
  apply eq_nil_iff_forall_not_mem.mpr
  intro entry member
  obtain ⟨index, stored, held⟩ := (mem_entries _ _).1 member
  rw [slotAt_replicate] at held
  cases held

theorem wf_replicate (pow : ∃ n, cap = 2 ^ n) : Wf key hashOf cap (List.replicate cap .empty) where
  length_eq := length_replicate
  powerOfTwo := pow
  hashed := by
    intro index stored entry held
    rw [slotAt_replicate] at held
    cases held
  reachable := by
    intro index stored entry held
    rw [slotAt_replicate] at held
    cases held
  distinct := by rw [entries_replicate]; exact nodup_nil

variable {index : Nat}

/-- Writing anything but `empty` never breaks a probe chain. -/
theorem reachable_set {hash target : Nat} {slot : Slot Entry}
    (inside : target < slots.length) (solid : slot ≠ .empty)
    (reach : Reachable slots cap hash index) :
    Reachable (slots.set target slot) cap hash index := by
  obtain ⟨step, bound, at_index, chain⟩ := reach
  refine ⟨step, bound, at_index, fun earlier before => ?_⟩
  rw [slotAt_set _ _ _ _ inside]
  split
  · exact solid
  · exact chain earlier before

theorem entries_fill (hash : Nat) (entry : Entry) (inside : index < slots.length)
    (free : (slotAt slots index).entryOf = none) :
    (entries (slots.set index (.occupied hash entry))).Perm (entry :: entries slots) := by
  obtain ⟨rest, before, after⟩ := entries_exchange slots index inside
  rw [free] at before
  exact (after _).trans (before.symm.cons entry)

variable {stored : Nat} {old : Entry}

variable (held : slotAt slots index = .occupied stored old)
include held

theorem entries_overwrite :
    ∃ rest, (entries slots).Perm (old :: rest) ∧
      ∀ hash entry, (entries (slots.set index (.occupied hash entry))).Perm (entry :: rest) := by
  obtain ⟨rest, before, after⟩ := entries_exchange slots index (slotAt_occupied_lt held)
  rw [held] at before
  exact ⟨rest, before, fun hash entry => after (.occupied hash entry)⟩

theorem entries_bury :
    (entries slots).Perm (old :: entries (slots.set index .tombstone)) := by
  obtain ⟨rest, before, after⟩ := entries_exchange slots index (slotAt_occupied_lt held)
  rw [held] at before
  exact before.trans ((after .tombstone).symm.cons old)

variable (wf : Wf key hashOf cap slots)
include wf

variable {entry : Entry}

omit held in
theorem wf_fill (vacant : Vacant slots cap (hashOf (key entry)) index)
    (absent : ∀ other ∈ entries slots, key other ≠ key entry) :
    Wf key hashOf cap (slots.set index (.occupied (hashOf (key entry)) entry)) := by
  have inside : index < slots.length := wf.length_eq ▸ vacant.1
  have solid : (.occupied (hashOf (key entry)) entry : Slot Entry) ≠ .empty := by simp
  refine ⟨by rw [length_set, wf.length_eq], wf.powerOfTwo, ?_, ?_, ?_⟩
  · intro other stored held_entry held
    rw [slotAt_set _ _ _ _ inside] at held
    split at held
    · cases held; rfl
    · exact wf.hashed other stored held_entry held
  · intro other stored held_entry held
    rw [slotAt_set _ _ _ _ inside] at held
    split at held
    · rename_i same
      cases held
      rw [same]
      exact reachable_set inside solid vacant.2.2
    · exact reachable_set inside solid (wf.reachable other stored held_entry held)
  · have perm := entries_fill (hashOf (key entry)) entry inside vacant.2.1
    refine (perm.map key).nodup_iff.2 (nodup_cons.2 ⟨?_, wf.distinct⟩)
    intro member
    obtain ⟨other, stored_in, same⟩ := List.mem_map.1 member
    exact absent other stored_in same

theorem wf_overwrite (same : key entry = key old) :
    Wf key hashOf cap (slots.set index (.occupied stored entry)) := by
  have inside := slotAt_occupied_lt held
  have solid : (.occupied stored entry : Slot Entry) ≠ .empty := by simp
  refine ⟨by rw [length_set, wf.length_eq], wf.powerOfTwo, ?_, ?_, ?_⟩
  · intro other stored' entry' at_other
    rw [slotAt_set _ _ _ _ inside] at at_other
    split at at_other
    · cases at_other
      rw [same]
      exact wf.hashed index stored old held
    · exact wf.hashed other stored' entry' at_other
  · intro other stored' entry' at_other
    rw [slotAt_set _ _ _ _ inside] at at_other
    split at at_other
    · rename_i here
      cases at_other
      rw [here]
      exact reachable_set inside solid (wf.reachable index stored old held)
    · exact reachable_set inside solid (wf.reachable other stored' entry' at_other)
  · obtain ⟨rest, before, after⟩ := entries_overwrite held
    have keys := (after stored entry).map key
    rw [map_cons, same] at keys
    exact (keys.trans (before.map key).symm).nodup_iff.2 wf.distinct

theorem wf_bury :
    Wf key hashOf cap (slots.set index .tombstone) := by
  have inside := slotAt_occupied_lt held
  have solid : (.tombstone : Slot Entry) ≠ .empty := by simp
  refine ⟨by rw [length_set, wf.length_eq], wf.powerOfTwo, ?_, ?_, ?_⟩
  · intro other stored' entry' at_other
    rw [slotAt_set _ _ _ _ inside] at at_other
    split at at_other
    · cases at_other
    · exact wf.hashed other stored' entry' at_other
  · intro other stored' entry' at_other
    rw [slotAt_set _ _ _ _ inside] at at_other
    split at at_other
    · cases at_other
    · exact reachable_set inside solid (wf.reachable other stored' entry' at_other)
  · have keys := ((entries_bury held).map key).nodup_iff.1 wf.distinct
    exact (nodup_cons.1 keys).2

omit held

theorem wf_one_slot {other stored' : Nat}
    {entry' : Entry} (held : slotAt slots index = .occupied stored entry)
    (held' : slotAt slots other = .occupied stored' entry') (same : key entry = key entry') :
    index = other := by
  by_contra apart
  have distinct := ((entries_bury held).map key).nodup_iff.1 wf.distinct
  rw [map_cons, nodup_cons, same] at distinct
  have left : slotAt (slots.set index .tombstone) other = .occupied stored' entry' := by
    rw [slotAt_set _ _ _ _ (slotAt_occupied_lt held), if_neg (Ne.symm apart), held']
  have member := (mem_entries _ _).2 ⟨other, stored', left⟩
  exact distinct.1 (List.mem_map_of_mem member)

end Updates

section Rehash

variable {key : Entry → Key} {hashOf : Key → Nat}

def replaySlot (cap : Nat) (same : Entry → Entry → Bool) (slots : List (Slot Entry)) :
    Slot Entry → List (Slot Entry)
  | .occupied stored entry =>
    slots.set (find slots cap stored (same entry)).1 (.occupied stored entry)
  | _ => slots

def rehash (cap : Nat) (same : Entry → Entry → Bool) (old : List (Slot Entry)) :
    List (Slot Entry) :=
  old.foldl (replaySlot cap same) (List.replicate cap .empty)

variable {same : Entry → Entry → Bool}

theorem replay_wf (cap : Nat)
    (decides : ∀ wanted entry, same wanted entry = true ↔ key entry = key wanted)
    (old slots : List (Slot Entry))
    (hashed : ∀ stored entry, .occupied stored entry ∈ old → stored = hashOf (key entry))
    (wf : Wf key hashOf cap slots) (fresh : ((entries old ++ entries slots).map key).Nodup)
    (room : (entries old ++ entries slots).length ≤ cap) :
    Wf key hashOf cap (old.foldl (replaySlot cap same) slots) ∧
      (entries (old.foldl (replaySlot cap same) slots)).Perm (entries old ++ entries slots) := by
  induction old generalizing slots with
  | nil => exact ⟨wf, List.Perm.refl _⟩
  | cons slot old ih =>
    have tail : ∀ stored entry, .occupied stored entry ∈ old → stored = hashOf (key entry) :=
      fun stored entry member => hashed stored entry (mem_cons_of_mem slot member)
    cases slot with
    | empty => exact ih slots tail wf fresh room
    | tombstone => exact ih slots tail wf fresh room
    | occupied stored entry =>
      have hash_eq := hashed stored entry (.head _)
      subst hash_eq
      have split_keys : ((entry :: (entries old ++ entries slots)).map key).Nodup := by
        simpa using fresh
      have absent : ∀ other ∈ entries slots, key other ≠ key entry := by
        intro other member equal
        rw [map_cons, nodup_cons] at split_keys
        exact split_keys.1 (List.mem_map.2 ⟨other, by simp [member], equal⟩)
      have room' : (entries old ++ entries slots).length + 1 ≤ cap := by
        simpa [add_right_comm] using room
      rcases outcome : find slots cap (hashOf (key entry)) (same entry) with ⟨index, hit⟩
      have missed : hit = false := by
        cases hit with
        | false => rfl
        | true =>
          have member := (find_iff wf (decides entry)).1 (by rw [outcome])
          obtain ⟨other, inside, equal⟩ := List.mem_map.1 member
          exact absurd equal (absent other inside)
      subst missed
      have vacant := (find_miss wf (decides entry) outcome).2
        (by rw [length_append] at room'; omega)
      have placed := entries_fill (hashOf (key entry)) entry
        (wf.length_eq ▸ vacant.1) vacant.2.1
      have moved : (entries old ++ entries (slots.set index
          (.occupied (hashOf (key entry)) entry))).Perm
          (entry :: (entries old ++ entries slots)) :=
        (placed.append_left _).trans perm_middle
      have next := ih _ tail (wf_fill wf vacant absent)
        ((moved.map key).nodup_iff.2 split_keys)
        (by rw [moved.length_eq, length_cons]; exact room')
      simp only [foldl_cons, replaySlot, outcome]
      exact ⟨next.1, next.2.trans moved⟩

variable {slots : List (Slot Entry)} {cap : Nat}

theorem rehash_wf (newCap : Nat)
    (decides : ∀ wanted entry, same wanted entry = true ↔ key entry = key wanted)
    (wf : Wf key hashOf cap slots) (pow : ∃ n, newCap = 2 ^ n) (larger : cap ≤ newCap) :
    Wf key hashOf newCap (rehash newCap same slots) ∧
      (entries (rehash newCap same slots)).Perm (entries slots) := by
  have moved := replay_wf newCap decides slots (List.replicate newCap .empty)
    (fun _ _ => wf_hashed_mem wf) (wf_replicate pow)
    (by rw [entries_replicate, append_nil]; exact wf.distinct)
    (by rw [entries_replicate, append_nil]; exact (wf_size wf).trans larger)
  rw [entries_replicate, append_nil] at moved
  exact moved

/-- No step of a rehash writes over an occupied slot: the table built from the
slots before `index` has a free slot for the entry at `index`. -/
theorem rehash_writes_free (newCap : Nat)
    (decides : ∀ wanted entry, same wanted entry = true ↔ key entry = key wanted)
    (wf : Wf key hashOf cap slots) (pow : ∃ n, newCap = 2 ^ n) (larger : cap ≤ newCap)
    {index stored : Nat} {entry : Entry} (held : slotAt slots index = .occupied stored entry) :
    Vacant (rehash newCap same (slots.take index)) newCap stored
      (find (rehash newCap same (slots.take index)) newCap stored (same entry)).1 := by
  have inside := slotAt_occupied_lt held
  have at_index : slots[index] = .occupied stored entry := by
    simpa [slotAt, inside] using held
  have parts : entries slots =
      entries (slots.take index) ++ entry :: entries (slots.drop (index + 1)) := by
    conv_lhs => rw [← take_append_drop index slots, drop_eq_getElem_cons inside, at_index]
    simp [entries, Slot.entryOf]
  have distinct := wf.distinct
  have size := wf_size wf
  rw [parts, map_append, nodup_append] at distinct
  rw [parts, length_append, length_cons] at size
  have moved := replay_wf newCap decides (slots.take index) (List.replicate newCap .empty)
    (fun stored entry member => wf_hashed_mem wf (mem_of_mem_take member)) (wf_replicate pow)
    (by rw [entries_replicate, append_nil]; exact distinct.1)
    (by rw [entries_replicate, append_nil]; omega)
  rw [entries_replicate, append_nil] at moved
  have hash_eq := wf.hashed index stored entry held
  subst hash_eq
  rcases outcome : find (rehash newCap same (slots.take index)) newCap (hashOf (key entry))
    (same entry) with ⟨slot, hit⟩
  cases hit with
  | true =>
    have member := (find_iff moved.1 (decides entry)).1 (congrArg Prod.snd outcome)
    rw [(moved.2.map key).mem_iff] at member
    exact absurd rfl (distinct.2.2 _ member (key entry) (by simp))
  | false =>
    apply (find_miss moved.1 (decides entry) outcome).2
    rw [moved.2.length_eq]
    omega

end Rehash

end OpenAddressing
