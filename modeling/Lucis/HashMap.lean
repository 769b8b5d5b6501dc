import Mathlib.Data.Finmap
import Mathlib.Tactic.Linarith
import Lucis.Hashing
import Lucis.StringHeap
import Lucis.Library.OpenAddressing
import Lucis.Library.Refinement

/-!
The runtime map of collections/map.c. As in the set, the parallel arrays are one
list of slots whose key, value and hash are read only while the slot is
occupied, and sizes are naturals because the hash array keeps cap below 2^61.

The wrappers of the five families differ in what they do before the core: the
string-key and string-value ones probe first, release what they replace and
call the growing core only for a key that is not there. Only the raw family, to
own its keys independently, stores a copy of the key; the others store the string
they are given, and release its block with it, whoever else points there. Strings
are read from the heap at each call. The raw family has no getOrDefault and no
keys, and a get that panics ends the process: the runs below allow these calls
and go on after a panic, so they cover more.
-/

namespace Lucis.HashMap

open OpenAddressing Hashing StringHeap List Function

structure MapEntry (Key Val : Type) where
  key : Key
  val : Val
  deriving DecidableEq

structure LucisMapHeader (Key Val : Type) where
  slots : List (Slot (MapEntry Key Val))
  len : Nat
  cap : Nat
  deriving DecidableEq

/-- The keys and values whose strings one call hands to `lucis_freeStr`, in this order. -/
abbrev Released (Key Val : Type) := List (Key ⊕ Val)

def mapInitialCap : Nat := 16

section Table

variable {Key Val Content Value : Type} [DecidableEq Content]

section Core

variable (hashFn : Key → Nat) (eq : Key → Key → Bool)

def mapCoreInit : LucisMapHeader Key Val :=
  ⟨List.replicate mapInitialCap .empty, 0, mapInitialCap⟩

def mapCoreClear (m : LucisMapHeader Key Val) : LucisMapHeader Key Val :=
  { m with slots := List.replicate m.cap .empty, len := 0 }

def mapCoreFind (m : LucisMapHeader Key Val) (key : Key) (hash : Nat) : Nat × Bool :=
  find m.slots m.cap hash (fun stored => eq stored.key key)

/-- The statements that turn `slot` into a new entry. -/
def mapCoreStore (m : LucisMapHeader Key Val) (slot hash : Nat) (entry : MapEntry Key Val) :
    LucisMapHeader Key Val :=
  { m with slots := m.slots.set slot (.occupied hash entry), len := m.len + 1 }

/-- A `memcpy` into the key or value of an occupied slot; its hash stays. -/
def mapCoreOverwrite (m : LucisMapHeader Key Val) (slot : Nat)
    (update : MapEntry Key Val → MapEntry Key Val) : LucisMapHeader Key Val :=
  match slotAt m.slots slot with
  | .occupied hash old => { m with slots := m.slots.set slot (.occupied hash (update old)) }
  | _ => m

def mapCoreBury (m : LucisMapHeader Key Val) (slot : Nat) : LucisMapHeader Key Val :=
  { m with slots := m.slots.set slot .tombstone, len := m.len - 1 }

def mapCoreReinsert (m : LucisMapHeader Key Val) :
    Slot (MapEntry Key Val) → LucisMapHeader Key Val
  | .occupied h entry => mapCoreStore m (mapCoreFind eq m entry.key h).1 h entry
  | _ => m

def mapCoreGrow (m : LucisMapHeader Key Val) : LucisMapHeader Key Val :=
  let newCap := m.cap * 2
  m.slots.foldl (mapCoreReinsert eq) ⟨List.replicate newCap .empty, 0, newCap⟩

/-- `(len + 1) * MAP_LOAD_FACTOR_DEN > cap * MAP_LOAD_FACTOR_NUM` -/
def mapMustGrow (m : LucisMapHeader Key Val) : Bool :=
  decide ((m.len + 1) * 4 > m.cap * 3)

/-- The table `map_core_set` probes: grown first when the load asks for it. -/
def mapCoreRoom (m : LucisMapHeader Key Val) : LucisMapHeader Key Val :=
  if mapMustGrow m then mapCoreGrow eq m else m

def mapCoreSet (m : LucisMapHeader Key Val) (key : Key) (val : Val) : LucisMapHeader Key Val :=
  let m := mapCoreRoom eq m
  let h := hashFn key
  match mapCoreFind eq m key h with
  | (slot, true) => mapCoreOverwrite m slot fun old => { old with val := val }
  | (slot, false) => mapCoreStore m slot h ⟨key, val⟩

def mapCoreGet (m : LucisMapHeader Key Val) (key : Key) : Option Val :=
  if m.len = 0 then none
  else
    match mapCoreFind eq m key (hashFn key) with
    | (slot, true) => (slotAt m.slots slot).entryOf.map MapEntry.val
    | (_, false) => none

def mapCoreHas (m : LucisMapHeader Key Val) (key : Key) : Nat :=
  if m.len = 0 then 0
  else if (mapCoreFind eq m key (hashFn key)).2 then 1 else 0

def mapCoreRemove (m : LucisMapHeader Key Val) (key : Key) : LucisMapHeader Key Val × Nat :=
  if m.len = 0 then (m, 0)
  else
    match mapCoreFind eq m key (hashFn key) with
    | (slot, true) => (mapCoreBury m slot, 1)
    | (_, false) => (m, 0)

def lucisMapKeys (m : LucisMapHeader Key Val) : List Key :=
  (entries m.slots).map MapEntry.key

def lucisMapValues (m : LucisMapHeader Key Val) : List Val :=
  (entries m.slots).map MapEntry.val

end Core

/-- What the string wrappers do around the core, family by family: whether key
and value are strings that the map releases. -/
structure Ownership (Key Val : Type) where
  probesFirst : Bool
  ownsKey : Bool
  ownsVal : Bool
  keyPtr : Key → Nat
  sameVal : Val → Val → Bool

section Wrappers

variable (own : Ownership Key Val) (hashFn : Key → Nat) (eq : Key → Key → Bool)

/-- What a wrapper releases when `key` and `val` replace `old`. -/
def replaced (old : MapEntry Key Val) (key : Key) (val : Val) : Released Key Val :=
  (if own.ownsKey && own.keyPtr old.key != own.keyPtr key then [.inl old.key] else []) ++
    if own.ownsVal && !own.sameVal old.val val then [.inr old.val] else []

def dropped (old : MapEntry Key Val) : Released Key Val :=
  (if own.ownsKey then [.inl old.key] else []) ++ if own.ownsVal then [.inr old.val] else []

/-- `lucis_map_set_*`, in the raw family with the copied key. A string key replaces
the stored one. -/
def lucisMapSet (m : LucisMapHeader Key Val) (key : Key) (val : Val) :
    LucisMapHeader Key Val × Released Key Val :=
  if own.probesFirst then
    match mapCoreFind eq m key (hashFn key) with
    | (slot, true) =>
      (mapCoreOverwrite m slot fun old => ⟨if own.ownsKey then key else old.key, val⟩,
        match (slotAt m.slots slot).entryOf with
        | some old => replaced own old key val
        | none => [])
    | (_, false) => (mapCoreSet hashFn eq m key val, [])
  else (mapCoreSet hashFn eq m key val, [])

/-- `lucis_map_remove_*`: the core one, or the same steps with the stored
strings released before the slot becomes a tombstone. -/
def lucisMapRemove (m : LucisMapHeader Key Val) (key : Key) :
    LucisMapHeader Key Val × Nat × Released Key Val :=
  if own.probesFirst then
    if m.len = 0 then (m, 0, [])
    else
      match mapCoreFind eq m key (hashFn key) with
      | (slot, true) =>
        (mapCoreBury m slot, 1,
          match (slotAt m.slots slot).entryOf with
          | some old => dropped own old
          | none => [])
      | (_, false) => (m, 0, [])
  else
    let out := mapCoreRemove hashFn eq m key
    (out.1, out.2, [])

def lucisMapClear (m : LucisMapHeader Key Val) : LucisMapHeader Key Val × Released Key Val :=
  (mapCoreClear m, (entries m.slots).flatMap (dropped own))

end Wrappers

/-! The calls a program makes on one map, and what a finite map answers. -/

/-- `addr` is the block `lucis_allocString` returns for the copied key of the raw family. -/
inductive MapOp (Key Val : Type) where
  | init
  | set (key : Key) (val : Val) (addr : Nat)
  | get (key : Key)
  | getOrDefault (key : Key) (default : Val)
  | has (key : Key)
  | remove (key : Key)
  | clear
  | keys
  | values
  | len

/-- `panic` is the abort of `lucis_map_get_*` on a missing key. -/
inductive MapAnswer (Key Val : Type) where
  | done
  | panic
  | value (val : Val)
  | flag (value : Nat)
  | keyVec (keys : List Key)
  | valVec (vals : List Val)
  | size (value : Nat)
  deriving DecidableEq

abbrev Bindings (Content Value : Type) := Finmap fun _ : Content => Value

def Lists (bindings : Bindings Content Value) (pairs : List (Content × Value)) : Prop :=
  (pairs.map Prod.fst).Nodup ∧ ∀ c v, (c, v) ∈ pairs ↔ bindings.lookup c = some v

section Machine

variable (own : Ownership Key Val) (content : Key → Content) (hash : Content → Nat)

def sameKey (a b : Key) : Bool := decide (content a = content b)

/-- One call on the table alone, where the keys have the given contents. -/
def tableStep (m : LucisMapHeader Key Val) :
    MapOp Key Val → LucisMapHeader Key Val × MapAnswer Key Val × Released Key Val
  | .init => (mapCoreInit, .done, [])
  | .set key val _ =>
    let out := lucisMapSet own (hash ∘ content) (sameKey content) m key val
    (out.1, .done, out.2)
  | .get key =>
    (m, match mapCoreGet (hash ∘ content) (sameKey content) m key with
      | some val => .value val
      | none => .panic, [])
  | .getOrDefault key default =>
    (m, match mapCoreGet (hash ∘ content) (sameKey content) m key with
      | some val => .value val
      | none => .value default, [])
  | .has key => (m, .flag (mapCoreHas (hash ∘ content) (sameKey content) m key), [])
  | .remove key =>
    let out := lucisMapRemove own (hash ∘ content) (sameKey content) m key
    (out.1, .flag out.2.1, out.2.2)
  | .clear =>
    let out := lucisMapClear own m
    (out.1, .done, out.2)
  | .keys => (m, .keyVec (lucisMapKeys m), [])
  | .values => (m, .valVec (lucisMapValues m), [])
  | .len => (m, .size m.len, [])

end Machine

structure Represents (content : Key → Content) (value : Val → Value) (hash : Content → Nat)
    (m : LucisMapHeader Key Val) (bindings : Bindings Content Value) : Prop where
  wf : Wf (fun entry : MapEntry Key Val => content entry.key) hash m.cap m.slots
  holds : ∀ c v, bindings.lookup c = some v ↔
    ∃ entry ∈ entries m.slots, content entry.key = c ∧ value entry.val = v
  len_eq : m.len = (entries m.slots).length
  load : m.len * 4 ≤ m.cap * 3
  capMin : mapInitialCap ≤ m.cap

section Invariant

variable {content : Key → Content} {value : Val → Value} {hash : Content → Nat}
  {m : LucisMapHeader Key Val} {bindings : Bindings Content Value}

theorem sameKey_decides (content : Key → Content) (wanted : Key) (entry : MapEntry Key Val) :
    sameKey content entry.key wanted = true ↔ content entry.key = content wanted := by
  simp [sameKey]

theorem represents_init (content : Key → Content) (value : Val → Value) (hash : Content → Nat) :
    Represents content value hash (mapCoreInit : LucisMapHeader Key Val) ∅ where
  wf := wf_replicate ⟨4, rfl⟩
  holds := by simp [mapCoreInit, entries_replicate]
  len_eq := by simp [mapCoreInit, entries_replicate]
  load := by simp [mapCoreInit]
  capMin := le_rfl

variable (rep : Represents content value hash m bindings)
include rep

theorem represents_clear : Represents content value hash (mapCoreClear m) ∅ where
  wf := wf_replicate rep.wf.powerOfTwo
  holds := by simp [mapCoreClear, entries_replicate]
  len_eq := by simp [mapCoreClear, entries_replicate]
  load := by simp [mapCoreClear]
  capMin := rep.capMin

theorem bound_iff (c : Content) :
    c ∈ bindings ↔ c ∈ (entries m.slots).map fun entry => content entry.key := by
  rw [Finmap.mem_iff, List.mem_map]
  constructor
  · rintro ⟨v, found⟩
    rcases (rep.holds c v).1 found with ⟨entry, member, same, _⟩
    exact ⟨entry, member, same⟩
  · rintro ⟨entry, member, same⟩
    exact ⟨value entry.val, (rep.holds c _).2 ⟨entry, member, same, rfl⟩⟩

theorem represents_card : m.len = bindings.keys.card := by
  have same : ((entries m.slots).map fun entry => content entry.key).toFinset = bindings.keys := by
    ext c
    rw [List.mem_toFinset, ← bound_iff rep, Finmap.mem_keys]
  rw [← same, toFinset_card_of_nodup rep.wf.distinct, length_map, rep.len_eq]

theorem represents_room : (entries m.slots).length < m.cap := by
  have load := rep.load
  have capMin := rep.capMin
  simp only [mapInitialCap, rep.len_eq] at load capMin
  omega

variable (key : Key)

theorem find_bindings :
    (mapCoreFind (sameKey content) m key (hash (content key))).2 = true ↔ content key ∈ bindings :=
  (find_iff rep.wf (sameKey_decides content key)).trans (bound_iff rep _).symm

theorem absent_lookup (none_left : m.len = 0) (c : Content) : c ∉ bindings := by
  have no_entries : entries m.slots = [] := by
    rw [← length_eq_zero_iff, ← rep.len_eq, none_left]
  simp [bound_iff rep, no_entries]

omit rep in
theorem grow_slots (eq : Key → Key → Bool) (m : LucisMapHeader Key Val)
    (old : List (Slot (MapEntry Key Val))) : old.foldl (mapCoreReinsert eq) m =
      ⟨old.foldl (replaySlot m.cap (fun wanted stored => eq stored.key wanted.key)) m.slots,
        m.len + (entries old).length, m.cap⟩ := by
  induction old generalizing m with
  | nil => rfl
  | cons slot old ih =>
    cases slot with
    | empty => exact ih m
    | tombstone => exact ih m
    | occupied hash entry =>
      simp only [foldl_cons, ih, mapCoreReinsert, mapCoreStore, mapCoreFind, replaySlot,
        entries_occupied_cons, length_cons, add_assoc, add_comm]

theorem grow_represents : Represents content value hash (mapCoreGrow (sameKey content) m) bindings ∧
      mapMustGrow (mapCoreGrow (sameKey content) m) = false ∧
      (entries (mapCoreGrow (sameKey content) m).slots).Perm (entries m.slots) := by
  rcases rep.wf.powerOfTwo with ⟨n, pow⟩
  have moved := rehash_wf (m.cap * 2)
    (fun wanted entry => sameKey_decides content wanted.key entry) rep.wf
    ⟨n + 1, by rw [pow, pow_succ]⟩ (by omega)
  have grown : mapCoreGrow (sameKey content) m =
      ⟨rehash (m.cap * 2) (fun wanted stored => sameKey content stored.key wanted.key) m.slots,
        (entries m.slots).length, m.cap * 2⟩ := by
    simp [mapCoreGrow, grow_slots, rehash]
  have load := rep.load
  have capMin := rep.capMin
  simp only [rep.len_eq, mapInitialCap] at load capMin
  rw [grown]
  constructor
  · exact {
      wf := moved.1
      holds := by
        intro c v
        simp only [rep.holds, moved.2.mem_iff]
      len_eq := moved.2.length_eq.symm
      load := by simp only; omega
      capMin := by simp only [mapInitialCap]; omega }
  · constructor
    · simp only [mapMustGrow, decide_eq_false_iff_not]
      omega
    · exact moved.2

theorem room_represents : Represents content value hash (mapCoreRoom (sameKey content) m) bindings ∧
      mapMustGrow (mapCoreRoom (sameKey content) m) = false := by
  unfold mapCoreRoom
  split
  · exact ⟨(grow_represents rep).1, (grow_represents rep).2.1⟩
  · exact ⟨rep, by simpa using ‹¬ mapMustGrow m = true›⟩

variable {slot : Nat}

variable (val : Val)

theorem store_represents
    (missed : mapCoreFind (sameKey content) m key (hash (content key)) = (slot, false))
    (fits : mapMustGrow m = false) :
    Represents content value hash (mapCoreStore m slot (hash (content key)) ⟨key, val⟩)
      (bindings.insert (content key) (value val)) := by
  have spec := find_miss rep.wf (sameKey_decides content key) missed
  have vacant := spec.2 (represents_room rep)
  have placed := entries_fill (hash (content key)) (⟨key, val⟩ : MapEntry Key Val)
    (rep.wf.length_eq ▸ vacant.1) vacant.2.1
  have filled := @wf_fill _ _ _ _ _ _ slot rep.wf ⟨key, val⟩ vacant spec.1
  simp only [mapMustGrow, decide_eq_false_iff_not] at fits
  exact {
    wf := filled
    holds := by
      intro c v
      simp only [mapCoreStore, placed.mem_iff, exists_mem_cons_iff, ← rep.holds]
      by_cases same : content key = c
      · subst same
        have absent : bindings.lookup (content key) ≠ some v := by
          intro found
          rcases (rep.holds _ _).1 found with ⟨entry, member, equal, _⟩
          exact spec.1 entry member equal
        simp [absent]
      · simp [same, Finmap.lookup_insert_of_ne bindings (Ne.symm same)]
    len_eq := by
      simp only [mapCoreStore, placed.length_eq, length_cons, rep.len_eq]
    load := by simp only [mapCoreStore]; omega
    capMin := rep.capMin }

theorem overwrite_split (update : MapEntry Key Val → MapEntry Key Val)
    (found : mapCoreFind (sameKey content) m key (hash (content key)) = (slot, true)) :
    ∃ old rest, slotAt m.slots slot = .occupied (hash (content key)) old ∧
      content old.key = content key ∧ (entries m.slots).Perm (old :: rest) ∧
      (∀ entry ∈ rest, content entry.key ≠ content key) ∧
      mapCoreOverwrite m slot update =
        { m with slots := m.slots.set slot (.occupied (hash (content key)) (update old)) } ∧
      (entries (mapCoreOverwrite m slot update).slots).Perm (update old :: rest) := by
  rcases find_hit rep.wf (sameKey_decides content key) found with ⟨old, held, same⟩
  rcases entries_overwrite held with ⟨rest, before, after⟩
  have written : mapCoreOverwrite m slot update =
      { m with slots := m.slots.set slot (.occupied (hash (content key)) (update old)) } := by
    simp only [mapCoreOverwrite, held]
  refine ⟨old, rest, held, same, before, ?_, written, ?_⟩
  · -- no other entry carries the key, so the old value is nowhere left
    have distinct := (before.map fun entry => content entry.key).nodup_iff.1 rep.wf.distinct
    rw [map_cons, nodup_cons] at distinct
    intro entry member equal
    exact distinct.1 (List.mem_map.2 ⟨entry, member, equal.trans same.symm⟩)
  · rw [written]
    exact after _ _

theorem overwrite_represents (update : MapEntry Key Val → MapEntry Key Val)
    (found : mapCoreFind (sameKey content) m key (hash (content key)) = (slot, true))
    (keeps : ∀ old, content old.key = content key → content (update old).key = content key)
    (writes : ∀ old, (update old).val = val) :
    Represents content value hash (mapCoreOverwrite m slot update)
      (bindings.insert (content key) (value val)) := by
  rcases overwrite_split rep key update found with
    ⟨old, rest, held, same, before, others, written, after⟩
  have kept := keeps old same
  rw [written] at after ⊢
  exact {
    wf := wf_overwrite held rep.wf (kept.trans same.symm)
    holds := by
      intro c v
      simp only [after.mem_iff, exists_mem_cons_iff, kept, writes]
      by_cases wanted : content key = c
      · subst wanted
        constructor
        · intro equal
          exact .inl ⟨rfl, by simpa using equal⟩
        · rintro (⟨_, equal⟩ | ⟨entry, member, equal, _⟩)
          · simpa using equal
          · exact absurd equal (others entry member)
      · rw [Finmap.lookup_insert_of_ne bindings (Ne.symm wanted), rep.holds]
        simp only [before.mem_iff, exists_mem_cons_iff, same, wanted, false_and, false_or]
    len_eq := by
      simp only [after.length_eq, rep.len_eq, before.length_eq, length_cons]
    load := rep.load
    capMin := rep.capMin }

theorem bury_represents
    (found : mapCoreFind (sameKey content) m key (hash (content key)) = (slot, true)) :
    Represents content value hash (mapCoreBury m slot) (bindings.erase (content key)) := by
  rcases find_hit rep.wf (sameKey_decides content key) found with ⟨old, held, same⟩
  have split_off := entries_bury held
  have distinct := (split_off.map fun entry => content entry.key).nodup_iff.1 rep.wf.distinct
  rw [map_cons, nodup_cons] at distinct
  have load := rep.load
  exact {
    wf := wf_bury held rep.wf
    holds := by
      intro c v
      simp only [mapCoreBury]
      by_cases wanted : c = content key
      · subst wanted
        rw [Finmap.lookup_erase]
        constructor
        · intro impossible
          cases impossible
        · rintro ⟨entry, member, equal, _⟩
          exact absurd (List.mem_map.2 ⟨entry, member, equal.trans same.symm⟩) distinct.1
      · rw [Finmap.lookup_erase_ne wanted, rep.holds]
        simp only [split_off.mem_iff, exists_mem_cons_iff, same, Ne.symm wanted, false_and,
          false_or]
    len_eq := by
      simp only [mapCoreBury, rep.len_eq, split_off.length_eq, length_cons, Nat.add_sub_cancel]
    load := by simp only [mapCoreBury]; omega
    capMin := rep.capMin }

theorem core_set_represents :
    Represents content value hash (mapCoreSet (hash ∘ content) (sameKey content) m key val)
      (bindings.insert (content key) (value val)) := by
  rcases room_represents rep with ⟨rep', fits⟩
  rcases outcome : mapCoreFind (sameKey content) (mapCoreRoom (sameKey content) m) key
    (hash (content key)) with ⟨slot, hit⟩
  cases hit with
  | true =>
    simp only [mapCoreSet, comp_apply, outcome]
    exact overwrite_represents rep' key val _ outcome (fun _ same => same) (fun _ => rfl)
  | false =>
    simp only [mapCoreSet, comp_apply, outcome]
    exact store_represents rep' key val outcome fits

/-- What a core set leaves in the table: the other entries, and the new one, with the key
that was there before if there was one. -/
theorem core_set_entries {entry : MapEntry Key Val} (left : entry ∈
      entries (mapCoreSet (hash ∘ content) (sameKey content) m key val).slots) :
    (entry ∈ entries m.slots ∧ content entry.key ≠ content key) ∨
      entry = ⟨key, val⟩ ∨
      ∃ old ∈ entries m.slots, content old.key = content key ∧ entry = ⟨old.key, val⟩ := by
  rcases room_represents rep with ⟨rep', -⟩
  have moved : ∀ entry, entry ∈ entries (mapCoreRoom (sameKey content) m).slots ↔
      entry ∈ entries m.slots := by
    intro entry
    unfold mapCoreRoom
    split
    · exact (grow_represents rep).2.2.mem_iff
    · rfl
  rcases outcome : mapCoreFind (sameKey content) (mapCoreRoom (sameKey content) m) key
    (hash (content key)) with ⟨slot, hit⟩
  cases hit with
  | true =>
    simp only [mapCoreSet, comp_apply, outcome] at left
    rcases overwrite_split rep' key (fun old => { old with val := val }) outcome with
      ⟨old, rest, -, same, before, others, -, after⟩
    rcases mem_cons.1 (after.mem_iff.1 left) with rfl | member
    · have inside := (moved old).1 (before.mem_iff.2 (.head _))
      exact .inr (.inr ⟨old, inside, same, rfl⟩)
    · have inside := (moved entry).1 (before.mem_iff.2 (.tail _ member))
      exact .inl ⟨inside, others entry member⟩
  | false =>
    simp only [mapCoreSet, comp_apply, outcome, mapCoreStore] at left
    have spec := find_miss rep'.wf (sameKey_decides content key) outcome
    have vacant := spec.2 (represents_room rep')
    have placed := entries_fill (hash (content key)) (⟨key, val⟩ : MapEntry Key Val)
      (rep'.wf.length_eq ▸ vacant.1) vacant.2.1
    rcases mem_cons.1 (placed.mem_iff.1 left) with rfl | member
    · exact .inr (.inl rfl)
    · exact .inl ⟨(moved entry).1 member, spec.1 entry member⟩

variable (own : Ownership Key Val)

theorem set_represents (key : Key) (val : Val) :
    Represents content value hash (lucisMapSet own (hash ∘ content) (sameKey content) m key val).1
      (bindings.insert (content key) (value val)) := by
  simp only [lucisMapSet]
  by_cases probes : own.probesFirst = true
  · rcases outcome : mapCoreFind (sameKey content) m key (hash (content key)) with ⟨slot, hit⟩
    cases hit with
    | true =>
      simp only [probes, if_true, comp_apply, outcome]
      apply overwrite_represents rep key val _ outcome
      · intro old kept
        split
        · rfl
        · exact kept
      · intro old
        rfl
    | false =>
      simp only [probes, if_true, comp_apply, outcome]
      exact core_set_represents rep key val
  · simp only [probes, Bool.false_eq_true, if_false]
    exact core_set_represents rep key val

/-- The wrappers that own their keys put the new one in place of the old. -/
theorem set_entries {entry : MapEntry Key Val} (left : entry ∈
      entries (lucisMapSet own (hash ∘ content) (sameKey content) m key val).1.slots) :
    (entry ∈ entries m.slots ∧ content entry.key ≠ content key) ∨
      entry = ⟨key, val⟩ ∨ ((own.probesFirst && own.ownsKey) = false ∧
        ∃ old ∈ entries m.slots, entry = ⟨old.key, val⟩) := by
  simp only [lucisMapSet] at left
  by_cases probes : own.probesFirst = true
  · rcases outcome : mapCoreFind (sameKey content) m key (hash (content key)) with ⟨slot, hit⟩
    simp only [probes, if_true, comp_apply, outcome] at left
    cases hit with
    | true =>
      rcases overwrite_split rep key
        (fun old => ⟨if own.ownsKey then key else old.key, val⟩) outcome with
        ⟨old, rest, -, same, before, others, -, after⟩
      rcases mem_cons.1 (after.mem_iff.1 left) with rfl | member
      · cases owns : own.ownsKey with
        | true => exact .inr (.inl rfl)
        | false =>
          exact .inr (.inr ⟨Bool.and_false _, old, before.mem_iff.2 (.head _), rfl⟩)
      · exact .inl ⟨before.mem_iff.2 (.tail _ member), others entry member⟩
    | false =>
      have spec := find_miss rep.wf (sameKey_decides content key) outcome
      rcases core_set_entries rep key val left with other | here | ⟨old, member, same, -⟩
      · exact .inl other
      · exact .inr (.inl here)
      · exact absurd same (spec.1 old member)
  · simp only [probes, Bool.false_eq_true, if_false] at left
    rcases core_set_entries rep key val left with other | here | ⟨old, member, -, same⟩
    · exact .inl other
    · exact .inr (.inl here)
    · exact .inr (.inr ⟨by simp [probes], old, member, same⟩)

theorem set_released {r : Key ⊕ Val}
    (released : r ∈ (lucisMapSet own (hash ∘ content) (sameKey content) m key val).2) :
    ∃ old ∈ entries m.slots, content old.key = content key ∧ r ∈ replaced own old key val := by
  simp only [lucisMapSet] at released
  by_cases probes : own.probesFirst = true
  · rcases outcome : mapCoreFind (sameKey content) m key (hash (content key)) with ⟨slot, hit⟩
    simp only [probes, if_true, comp_apply, outcome] at released
    cases hit with
    | true =>
      rcases find_hit rep.wf (sameKey_decides content key) outcome with ⟨old, held, same⟩
      simp only [held, Slot.entryOf] at released
      exact ⟨old, (mem_entries _ _).2 ⟨slot, _, held⟩, same, released⟩
    | false => cases released
  · simp only [probes, Bool.false_eq_true, if_false] at released
    cases released

theorem get_represents :
    (mapCoreGet (hash ∘ content) (sameKey content) m key = none ∧
      bindings.lookup (content key) = none) ∨
    ∃ entry ∈ entries m.slots,
      mapCoreGet (hash ∘ content) (sameKey content) m key = some entry.val ∧
      bindings.lookup (content key) = some (value entry.val) := by
  by_cases none_left : m.len = 0
  · left
    exact ⟨if_pos none_left, Finmap.lookup_eq_none.2 (absent_lookup rep none_left (content key))⟩
  · have member := find_bindings rep key
    rcases outcome : mapCoreFind (sameKey content) m key (hash (content key)) with ⟨slot, hit⟩
    simp only [outcome] at member
    cases hit with
    | true =>
      right
      rcases find_hit rep.wf (sameKey_decides content key) outcome with ⟨stored, held, same⟩
      have inside := (mem_entries m.slots stored).2 ⟨slot, _, held⟩
      refine ⟨stored, inside, ?_, (rep.holds _ _).2 ⟨stored, inside, same, rfl⟩⟩
      simp only [mapCoreGet, none_left, if_false, comp_apply, outcome, held,
        Slot.entryOf, Option.map_some]
    | false =>
      left
      have absent : content key ∉ bindings := fun inside => by simpa using member.2 inside
      exact ⟨by simp [mapCoreGet, none_left, outcome], Finmap.lookup_eq_none.2 absent⟩

theorem has_represents : mapCoreHas (hash ∘ content) (sameKey content) m key =
      if content key ∈ bindings then 1 else 0 := by
  by_cases none_left : m.len = 0
  · simp [mapCoreHas, none_left, absent_lookup rep none_left]
  · simp only [mapCoreHas, none_left, if_false, comp_apply, find_bindings rep key]

omit rep in
omit [DecidableEq Content] in
theorem remove_core (hashFn : Key → Nat) (eq : Key → Key → Bool)
    (m : LucisMapHeader Key Val) (key : Key) :
    (lucisMapRemove own hashFn eq m key).1 = (mapCoreRemove hashFn eq m key).1 ∧
      (lucisMapRemove own hashFn eq m key).2.1 = (mapCoreRemove hashFn eq m key).2 := by
  unfold lucisMapRemove mapCoreRemove
  by_cases probes : own.probesFirst = true
  · by_cases none_left : m.len = 0
    · simp [probes, none_left]
    · rcases outcome : mapCoreFind eq m key (hashFn key) with ⟨slot, hit⟩
      cases hit <;> simp [probes, none_left]
  · simp [probes]

theorem remove_represents (own : Ownership Key Val) (key : Key) :
    let out := lucisMapRemove own (hash ∘ content) (sameKey content) m key
    out.2.1 = (if content key ∈ bindings then 1 else 0) ∧
      Represents content value hash out.1 (bindings.erase (content key)) := by
  have core := remove_core own (hash ∘ content) (sameKey content) m key
  simp only [core.1, core.2]
  have untouched : content key ∉ bindings → bindings.erase (content key) = bindings := by
    intro absent
    apply Finmap.ext_lookup
    intro c
    by_cases same : c = content key
    · rw [same, Finmap.lookup_erase, Finmap.lookup_eq_none.2 absent]
    · rw [Finmap.lookup_erase_ne same]
  by_cases none_left : m.len = 0
  · have absent := absent_lookup rep none_left (content key)
    simpa [mapCoreRemove, none_left, absent, untouched absent] using rep
  · have member := find_bindings rep key
    rcases outcome : mapCoreFind (sameKey content) m key (hash (content key)) with ⟨slot, hit⟩
    simp only [outcome] at member
    cases hit with
    | true =>
      have inside := member.1 rfl
      simp only [mapCoreRemove, none_left, if_false, comp_apply, outcome, inside, if_true, true_and]
      exact bury_represents rep key outcome
    | false =>
      have absent : content key ∉ bindings := fun inside => by simpa using member.2 inside
      simpa [mapCoreRemove, none_left, outcome, absent, untouched absent] using rep

theorem remove_entries (own : Ownership Key Val) {entry : MapEntry Key Val} (left : entry ∈
      entries (lucisMapRemove own (hash ∘ content) (sameKey content) m key).1.slots) :
    entry ∈ entries m.slots ∧ content entry.key ≠ content key := by
  rw [(remove_core own (hash ∘ content) (sameKey content) m key).1, mapCoreRemove] at left
  by_cases none_left : m.len = 0
  · have no_entries : entries m.slots = [] := by
      rw [← length_eq_zero_iff, ← rep.len_eq, none_left]
    rw [if_pos none_left, no_entries] at left
    cases left
  · rcases outcome : mapCoreFind (sameKey content) m key (hash (content key)) with ⟨slot, hit⟩
    simp only [none_left, if_false, comp_apply, outcome] at left
    cases hit with
    | true =>
      rcases find_hit rep.wf (sameKey_decides content key) outcome with ⟨old, held, same⟩
      have split_off := entries_bury held
      have distinct := (split_off.map fun entry => content entry.key).nodup_iff.1 rep.wf.distinct
      rw [map_cons, nodup_cons] at distinct
      refine ⟨split_off.mem_iff.2 (.tail _ left), ?_⟩
      intro equal
      exact distinct.1 (List.mem_map.2 ⟨entry, left, equal.trans same.symm⟩)
    | false =>
      exact ⟨left, (find_miss rep.wf (sameKey_decides content key) outcome).1 entry left⟩

theorem remove_released (own : Ownership Key Val) {r : Key ⊕ Val}
    (released : r ∈ (lucisMapRemove own (hash ∘ content) (sameKey content) m key).2.2) :
    ∃ old ∈ entries m.slots, content old.key = content key ∧ r ∈ dropped own old := by
  simp only [lucisMapRemove] at released
  by_cases probes : own.probesFirst = true
  · by_cases none_left : m.len = 0
    · simp [probes, none_left] at released
    · rcases outcome : mapCoreFind (sameKey content) m key (hash (content key)) with ⟨slot, hit⟩
      simp only [probes, if_true, none_left, if_false, comp_apply, outcome] at released
      cases hit with
      | true =>
        rcases find_hit rep.wf (sameKey_decides content key) outcome with ⟨old, held, same⟩
        simp only [held, Slot.entryOf] at released
        exact ⟨old, (mem_entries _ _).2 ⟨slot, _, held⟩, same, released⟩
      | false => cases released
  · simp [probes] at released

theorem represents_lists :
    Lists bindings ((entries m.slots).map fun entry => (content entry.key, value entry.val)) := by
  constructor
  · rw [List.map_map]
    exact rep.wf.distinct
  · intro c v
    rw [rep.holds, List.mem_map]
    simp only [Prod.mk.injEq]

/-- A probe for `key` ends inside the table, at a slot that is not occupied or
holds the same key. -/
def ProbeSafe (content : Key → Content) (hash : Content → Nat) (m : LucisMapHeader Key Val)
    (key : Key) : Prop :=
  let slot := (mapCoreFind (sameKey content) m key (hash (content key))).1
  slot < m.cap ∧ ∀ h stored, slotAt m.slots slot = .occupied h stored →
    content stored.key = content key

/-- Growth from `m` moves each entry to a slot of the new table that no entry
moved before it occupies. -/
def GrowthSafe (content : Key → Content) (m : LucisMapHeader Key Val) : Prop :=
  ∀ index h entry, slotAt m.slots index = .occupied h entry →
    let moved := (m.slots.take index).foldl (mapCoreReinsert (sameKey content))
      ⟨List.replicate (m.cap * 2) .empty, 0, m.cap * 2⟩
    let slot := (mapCoreFind (sameKey content) moved entry.key h).1
    slot < moved.cap ∧ (slotAt moved.slots slot).entryOf = none

theorem probe_safe : ProbeSafe content hash m key := by
  rcases outcome : mapCoreFind (sameKey content) m key (hash (content key)) with ⟨slot, hit⟩
  simp only [ProbeSafe, outcome]
  cases hit with
  | true =>
    rcases find_hit rep.wf (sameKey_decides content key) outcome with ⟨stored, held, same⟩
    constructor
    · exact rep.wf.length_eq ▸ slotAt_occupied_lt held
    · intro h other held'
      rw [held] at held'
      cases held'
      exact same
  | false =>
    have vacant := (find_miss rep.wf (sameKey_decides content key) outcome).2
      (represents_room rep)
    constructor
    · exact vacant.1
    · intro h stored held
      have free := vacant.2.1
      rw [held] at free
      cases free

theorem growth_safe : GrowthSafe content m := by
  intro index h entry held
  rcases rep.wf.powerOfTwo with ⟨n, pow⟩
  have vacant := rehash_writes_free (m.cap * 2)
    (fun wanted entry => sameKey_decides content wanted.key entry) rep.wf
    ⟨n + 1, by rw [pow, pow_succ]⟩ (by omega) held
  simp only [grow_slots, mapCoreFind]
  exact ⟨vacant.1, vacant.2.1⟩

theorem represents_one_slot {c : Content} (live : c ∈ bindings) :
    ∃! index, ∃ h entry, slotAt m.slots index = .occupied h entry ∧ content entry.key = c := by
  rw [bound_iff rep, List.mem_map] at live
  rcases live with ⟨entry, member, same⟩
  rcases (mem_entries _ _).1 member with ⟨index, h, held⟩
  apply ExistsUnique.intro index
  · exact ⟨h, entry, held, same⟩
  · rintro other ⟨h', entry', held', same'⟩
    exact wf_one_slot rep.wf held' held (same'.trans same.symm)

omit rep in
/-- The contents matter only where an entry is stored. -/
theorem Represents.congr {content' : Key → Content} {value' : Val → Value}
    (rep : Represents content value hash m bindings)
    (keys : ∀ entry ∈ entries m.slots, content' entry.key = content entry.key)
    (vals : ∀ entry ∈ entries m.slots, value' entry.val = value entry.val) :
    Represents content' value' hash m bindings where
  wf := wf_congr keys rep.wf
  holds := by
    intro c v
    rw [rep.holds]
    constructor
    · rintro ⟨entry, member, same, reads⟩
      exact ⟨entry, member, (keys entry member).trans same, (vals entry member).trans reads⟩
    · rintro ⟨entry, member, same, reads⟩
      exact ⟨entry, member, (keys entry member).symm.trans same, (vals entry member).symm.trans reads⟩
  len_eq := rep.len_eq
  load := rep.load
  capMin := rep.capMin

end Invariant

end Table

end Lucis.HashMap
