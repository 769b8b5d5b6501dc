import Mathlib.Data.Finset.Card
import Mathlib.Tactic.Linarith
import Lucis.Hashing
import Lucis.Library.OpenAddressing
import Lucis.Library.Refinement

/-!
The runtime set of collections/set.c. The three parallel arrays `states`,
`keys` and `hashes` are one list of slots; key and hash of a slot are read only
while its state is occupied. Sizes are naturals: the hash array alone takes
8 * cap bytes, so cap stays below 2^61 as long as calloc returns and none of
`(len + 1) * 4`, `cap * 3` and `cap * 2` wraps.

Elements are compared by `content` and hashed through it. The integer and raw
wrappers are the core functions; the string wrappers repeat the core with a
different order of steps, which is where growth goes wrong.
-/

namespace Lucis.HashSet

open OpenAddressing Hashing List Function

structure LucisSetHeader (Elem : Type) where
  slots : List (Slot Elem)
  len : Nat
  cap : Nat
  deriving DecidableEq

def setInitialCap : Nat := 16

section Table

variable {Elem Content : Type} [DecidableEq Content]

section Core

variable (hashFn : Elem → Nat) (eq : Elem → Elem → Bool)

def setCoreInit : LucisSetHeader Elem :=
  ⟨List.replicate setInitialCap .empty, 0, setInitialCap⟩

def setCoreClear (s : LucisSetHeader Elem) : LucisSetHeader Elem :=
  { s with slots := List.replicate s.cap .empty, len := 0 }

def setCoreFind (s : LucisSetHeader Elem) (key : Elem) (hash : Nat) : Nat × Bool :=
  find s.slots s.cap hash (fun stored => eq stored key)

/-- The five statements that store a new key in `slot`. -/
def setCoreStore (s : LucisSetHeader Elem) (slot hash : Nat) (key : Elem) : LucisSetHeader Elem :=
  { s with slots := s.slots.set slot (.occupied hash key), len := s.len + 1 }

def setCoreReinsert (s : LucisSetHeader Elem) : Slot Elem → LucisSetHeader Elem
  | .occupied h ok => setCoreStore s (setCoreFind eq s ok h).1 h ok
  | _ => s

def setCoreGrow (s : LucisSetHeader Elem) : LucisSetHeader Elem :=
  let newCap := s.cap * 2
  s.slots.foldl (setCoreReinsert eq) ⟨List.replicate newCap .empty, 0, newCap⟩

/-- `(len + 1) * SET_LOAD_FACTOR_DEN > cap * SET_LOAD_FACTOR_NUM` -/
def setMustGrow (s : LucisSetHeader Elem) : Bool :=
  decide ((s.len + 1) * 4 > s.cap * 3)

def setCoreAdd (s : LucisSetHeader Elem) (key : Elem) : LucisSetHeader Elem × Nat :=
  let s := if setMustGrow s then setCoreGrow eq s else s
  let h := hashFn key
  match setCoreFind eq s key h with
  | (_, true) => (s, 0)
  | (slot, false) => (setCoreStore s slot h key, 1)

def setCoreHas (s : LucisSetHeader Elem) (key : Elem) : Nat :=
  if s.len = 0 then 0
  else if (setCoreFind eq s key (hashFn key)).2 then 1 else 0

def setCoreRemove (s : LucisSetHeader Elem) (key : Elem) : LucisSetHeader Elem × Nat :=
  if s.len = 0 then (s, 0)
  else
    match setCoreFind eq s key (hashFn key) with
    | (slot, true) => ({ s with slots := s.slots.set slot .tombstone, len := s.len - 1 }, 1)
    | (_, false) => (s, 0)

def lucisSetValues (s : LucisSetHeader Elem) : List Elem :=
  entries s.slots

def lucisSetLen (s : LucisSetHeader Elem) : Nat := s.len

end Core

section StringWrappers

variable (hashFn : Elem → Nat) (eq : Elem → Elem → Bool) (ptr : Elem → Nat)

/-- The third component lists the strings handed to `lucis_freeStr`. The slot
comes from the table before growth and is used in the table after it. -/
def lucisSetAddStr (s : LucisSetHeader Elem) (elem : Elem) :
    LucisSetHeader Elem × Nat × List Elem :=
  let h := hashFn elem
  match setCoreFind eq s elem h with
  | (slot, true) =>
    match (slotAt s.slots slot).entryOf with
    | some stored => (s, 0, if ptr stored ≠ ptr elem then [elem] else [])
    | none => (s, 0, [])
  | (slot, false) =>
    let s := if setMustGrow s then setCoreGrow eq s else s
    (setCoreStore s slot h elem, 1, [])

def lucisSetRemoveStr (s : LucisSetHeader Elem) (elem : Elem) :
    LucisSetHeader Elem × Nat × List Elem :=
  if s.len = 0 then (s, 0, [])
  else
    match setCoreFind eq s elem (hashFn elem) with
    | (slot, true) =>
      ({ s with slots := s.slots.set slot .tombstone, len := s.len - 1 }, 1,
        (slotAt s.slots slot).entryOf.toList)
    | (_, false) => (s, 0, [])

def lucisSetClearStr (s : LucisSetHeader Elem) : LucisSetHeader Elem × List Elem :=
  (setCoreClear s, entries s.slots)

end StringWrappers

/-! The calls a program makes on one set, and what a finite set answers. -/

inductive SetOp (Elem : Type) where
  | init
  | add (elem : Elem)
  | has (elem : Elem)
  | remove (elem : Elem)
  | clear
  | values
  | len

inductive SetAnswer (Elem : Type) where
  | done
  | flag (value : Nat)
  | items (elems : List Elem)
  | size (value : Nat)
  deriving DecidableEq

def finiteSet (content : Elem → Content) :
    Refinement.Spec (SetOp Elem) (SetAnswer Elem) (Finset Content) where
  next members
    | .init | .clear => ∅
    | .add elem => insert (content elem) members
    | .remove elem => members.erase (content elem)
    | .has _ | .values | .len => members
  answers members
    | .init, answer | .clear, answer => answer = .done
    | .add elem, answer => answer = .flag (if content elem ∈ members then 0 else 1)
    | .has elem, answer => answer = .flag (if content elem ∈ members then 1 else 0)
    | .remove elem, answer => answer = .flag (if content elem ∈ members then 1 else 0)
    | .values, answer => ∃ elems, answer = .items elems ∧ (elems.map content).Nodup ∧
        ∀ c, c ∈ elems.map content ↔ c ∈ members
    | .len, answer => answer = .size members.card

inductive Wrappers where
  | core
  | string
  deriving DecidableEq

section Machine

variable (wrappers : Wrappers) (content : Elem → Content) (hash : Content → Nat)
  (ptr : Elem → Nat)

def sameElem (a b : Elem) : Bool := decide (content a = content b)

def setStep (s : LucisSetHeader Elem) : SetOp Elem → LucisSetHeader Elem × SetAnswer Elem
  | .init => (setCoreInit, .done)
  | .add elem =>
    match wrappers with
    | .core =>
      let out := setCoreAdd (hash ∘ content) (sameElem content) s elem
      (out.1, .flag out.2)
    | .string =>
      let out := lucisSetAddStr (hash ∘ content) (sameElem content) ptr s elem
      (out.1, .flag out.2.1)
  | .has elem => (s, .flag (setCoreHas (hash ∘ content) (sameElem content) s elem))
  | .remove elem =>
    match wrappers with
    | .core =>
      let out := setCoreRemove (hash ∘ content) (sameElem content) s elem
      (out.1, .flag out.2)
    | .string =>
      let out := lucisSetRemoveStr (hash ∘ content) (sameElem content) s elem
      (out.1, .flag out.2.1)
  | .clear =>
    match wrappers with
    | .core => (setCoreClear s, .done)
    | .string => ((lucisSetClearStr s).1, .done)
  | .values => (s, .items (lucisSetValues s))
  | .len => (s, .size (lucisSetLen s))

/-- The branch of `lucis_set_add_str` that stores through a stale slot is not
taken: the element is present, or the table does not have to grow. -/
def AvoidsStaleSlot (s : LucisSetHeader Elem) : SetOp Elem → Prop
  | .add elem => wrappers = .string →
      setCoreHas (hash ∘ content) (sameElem content) s elem = 1 ∨ setMustGrow s = false
  | _ => True

end Machine

structure Represents (content : Elem → Content) (hash : Content → Nat)
    (s : LucisSetHeader Elem) (members : Finset Content) : Prop where
  wf : Wf content hash s.cap s.slots
  members_eq : ∀ c, c ∈ (entries s.slots).map content ↔ c ∈ members
  len_eq : s.len = (entries s.slots).length
  load : s.len * 4 ≤ s.cap * 3
  capMin : setInitialCap ≤ s.cap

section Invariant

variable {content : Elem → Content} {hash : Content → Nat} {s : LucisSetHeader Elem}
  {members : Finset Content}

theorem sameElem_decides (content : Elem → Content) (wanted entry : Elem) :
    sameElem content entry wanted = true ↔ content entry = content wanted := by
  simp [sameElem]

omit [DecidableEq Content] in
theorem represents_init (content : Elem → Content) (hash : Content → Nat) :
    Represents content hash setCoreInit ∅ where
  wf := wf_replicate ⟨4, rfl⟩
  members_eq := by simp [setCoreInit, entries_replicate]
  len_eq := by simp [setCoreInit, entries_replicate]
  load := by simp [setCoreInit]
  capMin := le_rfl

variable (rep : Represents content hash s members)
include rep

omit [DecidableEq Content] in
theorem represents_clear : Represents content hash (setCoreClear s) ∅ where
  wf := wf_replicate rep.wf.powerOfTwo
  members_eq := by simp [setCoreClear, entries_replicate]
  len_eq := by simp [setCoreClear, entries_replicate]
  load := by simp [setCoreClear]
  capMin := rep.capMin

theorem represents_card : s.len = members.card := by
  have same : ((entries s.slots).map content).toFinset = members := by
    ext c
    rw [List.mem_toFinset, rep.members_eq]
  rw [← same, toFinset_card_of_nodup rep.wf.distinct, length_map, rep.len_eq]

omit [DecidableEq Content] in
theorem represents_room : (entries s.slots).length < s.cap := by
  have load := rep.load
  have capMin := rep.capMin
  simp only [setInitialCap, rep.len_eq] at load capMin
  omega

variable (elem : Elem)

theorem find_members :
    (setCoreFind (sameElem content) s elem (hash (content elem))).2 = true ↔
      content elem ∈ members :=
  (find_iff rep.wf (sameElem_decides content elem)).trans (rep.members_eq _)

omit rep in
theorem grow_slots (eq : Elem → Elem → Bool) (s : LucisSetHeader Elem) (old : List (Slot Elem)) :
    old.foldl (setCoreReinsert eq) s =
      ⟨old.foldl (replaySlot s.cap (fun wanted stored => eq stored wanted)) s.slots,
        s.len + (entries old).length, s.cap⟩ := by
  induction old generalizing s with
  | nil => rfl
  | cons slot old ih =>
    cases slot with
    | empty => exact ih s
    | tombstone => exact ih s
    | occupied hash entry =>
      simp only [foldl_cons, ih, setCoreReinsert, setCoreStore, setCoreFind, replaySlot,
        entries_occupied_cons, length_cons, add_assoc, add_comm]

theorem grow_represents : Represents content hash (setCoreGrow (sameElem content) s) members ∧
      setMustGrow (setCoreGrow (sameElem content) s) = false := by
  rcases rep.wf.powerOfTwo with ⟨n, pow⟩
  have moved := rehash_wf (s.cap * 2) (fun wanted entry => sameElem_decides content wanted entry)
    rep.wf ⟨n + 1, by rw [pow, pow_succ]⟩ (by omega)
  have grown : setCoreGrow (sameElem content) s =
      ⟨rehash (s.cap * 2) (fun wanted stored => sameElem content stored wanted) s.slots,
        (entries s.slots).length, s.cap * 2⟩ := by
    simp [setCoreGrow, grow_slots, rehash]
  have load := rep.load
  have capMin := rep.capMin
  simp only [rep.len_eq, setInitialCap] at load capMin
  rw [grown]
  constructor
  · exact {
      wf := moved.1
      members_eq := fun c => ((moved.2.map content).mem_iff).trans (rep.members_eq c)
      len_eq := moved.2.length_eq.symm
      load := by simp only; omega
      capMin := by simp only [setInitialCap]; omega }
  · simp only [setMustGrow, decide_eq_false_iff_not]
    omega

theorem store_represents {slot : Nat}
    (missed : setCoreFind (sameElem content) s elem (hash (content elem)) = (slot, false))
    (fits : setMustGrow s = false) :
    Represents content hash (setCoreStore s slot (hash (content elem)) elem)
      (insert (content elem) members) := by
  have spec := find_miss rep.wf (sameElem_decides content elem) missed
  have vacant := spec.2 (represents_room rep)
  have placed := entries_fill (hash (content elem)) elem
    (rep.wf.length_eq ▸ vacant.1) vacant.2.1
  simp only [setMustGrow, decide_eq_false_iff_not] at fits
  exact {
    wf := wf_fill rep.wf vacant spec.1
    members_eq := by
      intro c
      simp only [setCoreStore, (placed.map content).mem_iff, map_cons, mem_cons,
        rep.members_eq, Finset.mem_insert]
    len_eq := by
      simp only [setCoreStore, placed.length_eq, length_cons, rep.len_eq]
    load := by simp only [setCoreStore]; omega
    capMin := rep.capMin }

theorem bury_represents {slot : Nat}
    (found : setCoreFind (sameElem content) s elem (hash (content elem)) = (slot, true)) :
    Represents content hash { s with slots := s.slots.set slot .tombstone, len := s.len - 1 }
      (members.erase (content elem)) := by
  rcases find_hit rep.wf (sameElem_decides content elem) found with ⟨stored, held, same⟩
  have split_off := entries_bury held
  have keys := split_off.map content
  have distinct := keys.nodup_iff.1 rep.wf.distinct
  rw [map_cons, nodup_cons] at distinct
  have load := rep.load
  exact {
    wf := wf_bury held rep.wf
    members_eq := by
      intro c
      rw [Finset.mem_erase, ← rep.members_eq, keys.mem_iff, map_cons, mem_cons, same]
      constructor
      · intro inside
        exact ⟨fun equal => distinct.1 (same ▸ equal ▸ inside), .inr inside⟩
      · rintro ⟨other, equal | inside⟩
        · exact absurd equal other
        · exact inside
    len_eq := by
      simp only [rep.len_eq, split_off.length_eq, length_cons, Nat.add_sub_cancel]
    load := by simp only; omega
    capMin := rep.capMin }

theorem core_add_represents (elem : Elem) :
    let out := setCoreAdd (hash ∘ content) (sameElem content) s elem
    out.2 = (if content elem ∈ members then 0 else 1) ∧
      Represents content hash out.1 (insert (content elem) members) := by
  have grown : ∃ t, (if setMustGrow s then setCoreGrow (sameElem content) s else s) = t ∧
      Represents content hash t members ∧ setMustGrow t = false := by
    by_cases must : setMustGrow s = true
    · exact ⟨_, if_pos must, grow_represents rep⟩
    · exact ⟨s, if_neg must, rep, by simpa using must⟩
  rcases grown with ⟨t, chosen, rep', fits⟩
  have member := find_members rep' elem
  rcases outcome : setCoreFind (sameElem content) t elem (hash (content elem)) with ⟨slot, hit⟩
  simp only [outcome] at member
  cases hit with
  | true =>
    have inside := member.1 rfl
    simp only [setCoreAdd, chosen, comp_apply, outcome, inside, if_true, true_and]
    simpa [Finset.insert_eq_self.2 inside] using rep'
  | false =>
    have outside : content elem ∉ members := fun inside => by simpa using member.2 inside
    simp only [setCoreAdd, chosen, comp_apply, outcome, outside, if_false, true_and]
    exact store_represents rep' elem outcome fits

theorem add_str_represents (ptr : Elem → Nat)
    (elem : Elem) (safe : content elem ∈ members ∨ setMustGrow s = false) :
    let out := lucisSetAddStr (hash ∘ content) (sameElem content) ptr s elem
    out.2.1 = (if content elem ∈ members then 0 else 1) ∧
      Represents content hash out.1 (insert (content elem) members) := by
  have member := find_members rep elem
  rcases outcome : setCoreFind (sameElem content) s elem (hash (content elem)) with ⟨slot, hit⟩
  simp only [outcome] at member
  cases hit with
  | true =>
    have inside := member.1 rfl
    rcases find_hit rep.wf (sameElem_decides content elem) outcome with ⟨stored, held, _⟩
    have kept : (slotAt s.slots slot).entryOf = some stored := by simp [held, Slot.entryOf]
    simp only [lucisSetAddStr, comp_apply, outcome, kept, inside, if_true, true_and]
    simpa [Finset.insert_eq_self.2 inside] using rep
  | false =>
    have outside : content elem ∉ members := fun inside => by simpa using member.2 inside
    have fits : setMustGrow s = false := safe.resolve_left outside
    simp only [lucisSetAddStr, comp_apply, outcome, fits, outside, if_false,
      Bool.false_eq_true, true_and]
    exact store_represents rep elem outcome fits

theorem empty_outside (none_left : s.len = 0) (c : Content) : c ∉ members := by
  have card := represents_card rep
  rw [none_left] at card
  simp [Finset.card_eq_zero.1 card.symm]

theorem has_represents : setCoreHas (hash ∘ content) (sameElem content) s elem =
      if content elem ∈ members then 1 else 0 := by
  by_cases none_left : s.len = 0
  · simp [setCoreHas, none_left, empty_outside rep none_left]
  · simp only [setCoreHas, none_left, if_false, comp_apply, find_members rep elem]

theorem remove_represents (elem : Elem) :
    let out := setCoreRemove (hash ∘ content) (sameElem content) s elem
    out.2 = (if content elem ∈ members then 1 else 0) ∧
      Represents content hash out.1 (members.erase (content elem)) := by
  by_cases none_left : s.len = 0
  · have outside := empty_outside rep none_left (content elem)
    simpa [setCoreRemove, none_left, outside] using rep
  · have member := find_members rep elem
    rcases outcome : setCoreFind (sameElem content) s elem (hash (content elem)) with ⟨slot, hit⟩
    simp only [outcome] at member
    cases hit with
    | true =>
      have inside := member.1 rfl
      simp only [setCoreRemove, none_left, if_false, comp_apply, outcome, inside, if_true, true_and]
      exact bury_represents rep elem outcome
    | false =>
      have outside : content elem ∉ members := fun inside => by simpa using member.2 inside
      simpa [setCoreRemove, none_left, outcome, outside] using rep

omit rep

theorem remove_str_core (hashFn : Elem → Nat) (eq : Elem → Elem → Bool)
    (s : LucisSetHeader Elem) (elem : Elem) :
    (lucisSetRemoveStr hashFn eq s elem).1 = (setCoreRemove hashFn eq s elem).1 ∧
      (lucisSetRemoveStr hashFn eq s elem).2.1 = (setCoreRemove hashFn eq s elem).2 := by
  unfold lucisSetRemoveStr setCoreRemove
  by_cases none_left : s.len = 0
  · simp [none_left]
  · rcases outcome : setCoreFind eq s elem (hashFn elem) with ⟨slot, hit⟩
    cases hit <;> simp [none_left]

theorem set_simulation (wrappers : Wrappers) (content : Elem → Content) (hash : Content → Nat)
    (ptr : Elem → Nat) :
    Refinement.Simulation (finiteSet content) (setStep wrappers content hash ptr)
      (AvoidsStaleSlot wrappers content hash) (Represents content hash) := by
  intro s members op rep allowed
  cases op with
  | init => exact ⟨rfl, represents_init content hash⟩
  | add elem =>
    cases wrappers with
    | core =>
      have added := core_add_represents rep elem
      exact ⟨congrArg SetAnswer.flag added.1, added.2⟩
    | string =>
      have safe : content elem ∈ members ∨ setMustGrow s = false := by
        rcases allowed rfl with present | fits
        · rw [has_represents rep] at present
          exact .inl (by by_contra outside; simp [outside] at present)
        · exact .inr fits
      have added := add_str_represents rep ptr elem safe
      exact ⟨congrArg SetAnswer.flag added.1, added.2⟩
  | has elem => exact ⟨congrArg SetAnswer.flag (has_represents rep elem), rep⟩
  | remove elem =>
    have removed := remove_represents rep elem
    cases wrappers with
    | core => exact ⟨congrArg SetAnswer.flag removed.1, removed.2⟩
    | string =>
      have same := remove_str_core (hash ∘ content) (sameElem content) s elem
      simp only [setStep, finiteSet, same.1, same.2]
      exact ⟨congrArg SetAnswer.flag removed.1, removed.2⟩
  | clear => cases wrappers <;> exact ⟨rfl, represents_clear rep⟩
  | values => exact ⟨⟨_, rfl, rep.wf.distinct, rep.members_eq⟩, rep⟩
  | len => exact ⟨congrArg SetAnswer.size (represents_card rep), rep⟩

end Invariant

end Table

/-! The element families and the wrappers and hash functions they are built with. -/

inductive IntSuffix where
  | i8 | u8 | i16 | u16 | i32 | u32 | i64 | u64 | i128 | u128 | iinf | u1 | i1
  deriving DecidableEq

def IntSuffix.width : IntSuffix → Nat
  | .i8 | .u8 | .u1 | .i1 => 8
  | .i16 | .u16 => 16
  | .i32 | .u32 => 32
  | .i64 | .u64 => 64
  | .i128 | .u128 => 128
  | .iinf => 256

def IntSuffix.hashFn (suffix : IntSuffix) (key : BitVec suffix.width) : Nat :=
  match suffix with
  | .i128 | .u128 => hash16 (key.setWidth 128)
  | .iinf => hash32 (key.setWidth 256)
  | _ => hashWord key

inductive Family where
  | int (suffix : IntSuffix)
  | str
  | raw (keySize : Nat)

def Family.Elem : Family → Type
  | .int suffix => BitVec suffix.width
  | .str => LucisString
  | .raw keySize => { bytes : List UInt8 // bytes.length = keySize }

def Family.Content : Family → Type
  | .int suffix => BitVec suffix.width
  | .str => List UInt8
  | .raw keySize => { bytes : List UInt8 // bytes.length = keySize }

instance : (family : Family) → DecidableEq family.Content
  | .int suffix => inferInstanceAs (DecidableEq (BitVec suffix.width))
  | .str => inferInstanceAs (DecidableEq (List UInt8))
  | .raw keySize => inferInstanceAs (DecidableEq { bytes : List UInt8 // bytes.length = keySize })

def Family.content : (family : Family) → family.Elem → family.Content
  | .int _ => id
  | .str => LucisString.bytes
  | .raw _ => id

def Family.ptr : (family : Family) → family.Elem → Nat
  | .int _ => fun _ => 0
  | .str => LucisString.ptr
  | .raw _ => fun _ => 0

def Family.wrappers : Family → Wrappers
  | .str => .string
  | .int _ | .raw _ => .core

def Family.hashFn : (family : Family) → family.Content → Nat
  | .int suffix => suffix.hashFn
  | .str => fnv1a
  | .raw _ => fun bytes => fnv1a bytes.val

def Family.step (family : Family) (hash : family.Content → Nat) :
    LucisSetHeader family.Elem → SetOp family.Elem →
      LucisSetHeader family.Elem × SetAnswer family.Elem :=
  setStep family.wrappers family.content hash family.ptr

/-- Every run of every family, under any hash function, refines the finite set
as long as no string insertion has to grow the table. -/
theorem set_runs_refine (family : Family) (hash : family.Content → Nat)
    (ops : List (SetOp family.Elem))
    (guarded : Refinement.Guarded (AvoidsStaleSlot family.wrappers family.content hash)
      (family.step hash) setCoreInit ops) :
    Refinement.Agrees (finiteSet family.content) (family.step hash) setCoreInit ∅ ops ∧
      Represents family.content hash (Refinement.run (family.step hash) setCoreInit ops)
        (ops.foldl (finiteSet family.content).next ∅) := by
  have simulation := set_simulation family.wrappers family.content hash family.ptr
  have start := represents_init family.content hash
  constructor
  · exact Refinement.agrees_of_simulation simulation ops _ _ start guarded
  · exact Refinement.related_of_simulation simulation ops _ _ start guarded

theorem set_runs_refine_letters :
    Refinement.Agrees (finiteSet Family.str.content) (Family.str.step Family.str.hashFn)
        setCoreInit ∅ [.add ⟨8, [97]⟩, .add ⟨9, [97]⟩, .remove ⟨9, [97]⟩, .len] ∧
      Represents Family.str.content Family.str.hashFn
        (Refinement.run (Family.str.step Family.str.hashFn) setCoreInit
          [.add ⟨8, [97]⟩, .add ⟨9, [97]⟩, .remove ⟨9, [97]⟩, .len])
        ([.add ⟨8, [97]⟩, .add ⟨9, [97]⟩, .remove ⟨9, [97]⟩, .len].foldl
          (finiteSet Family.str.content).next ∅) :=
  set_runs_refine .str fnv1a [.add ⟨8, [97]⟩, .add ⟨9, [97]⟩, .remove ⟨9, [97]⟩, .len]
    ⟨fun _ => .inr rfl, fun _ => .inr rfl, trivial, trivial, trivial⟩

def letter (index : Nat) : LucisString := ⟨1000 + index, [UInt8.ofNat (97 + index)]⟩

/-- The letters `a` to `m`: the thirteenth insertion meets twelve entries in
sixteen slots, grows the table and stores `m` outside its new probe chain. -/
def thirteenLetters : List (SetOp LucisString) :=
  (List.range 13).map fun index => .add (letter index)

def strStep : LucisSetHeader LucisString → SetOp LucisString →
    LucisSetHeader LucisString × SetAnswer LucisString :=
  setStep .string LucisString.bytes fnv1a LucisString.ptr

theorem set_add_str_loses_element :
    ¬ Refinement.Agrees (finiteSet Family.str.content) (Family.str.step Family.str.hashFn)
      setCoreInit ∅ (thirteenLetters ++ [.has (letter 12)]) := by
  intro agrees
  have last : (finiteSet LucisString.bytes).answers
      (thirteenLetters.foldl (finiteSet LucisString.bytes).next ∅) (.has (letter 12))
      (strStep (Refinement.run strStep setCoreInit thirteenLetters) (.has (letter 12))).2 :=
    Refinement.agrees_last _ _ _ _ agrees
  have missed : (strStep (Refinement.run strStep setCoreInit thirteenLetters)
      (.has (letter 12))).2 = .flag 0 := by decide +kernel
  have expected : [109] ∈ thirteenLetters.foldl (finiteSet LucisString.bytes).next ∅ := by
    decide +kernel
  simp only [missed, finiteSet, SetAnswer.flag.injEq] at last
  split at last
  · cases last
  · exact ‹_ ∉ _› expected

end Lucis.HashSet
