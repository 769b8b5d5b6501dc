import Lucis.HashMap

/-!
The runtime map in its program: calls on one map, with the heap the program has at each of
them. Strings are handed over as they are, so two bindings, or a binding and the program,
can share a block, and the call that gives one of them up releases it for both: after
`m["b"] = m["a"]` and `m.remove("a")`, what `m["b"]` answers is no string any more.
-/

namespace Lucis.MapOwnership

open OpenAddressing Hashing StringHeap HashMap List

/-- How a key or a value lies in memory: the strings in it, and what they make it say. -/
structure Reading (α β : Type) where
  strings : α → List LucisMapString
  content : Heap → α → β
  decided : ∀ h h' a, (∀ t ∈ strings a, h'.read t = h.read t) → content h' a = content h a

section Machine

variable {Key Content Val Value : Type} [DecidableEq Content]

def Reading.plain (α : Type) : Reading α α where
  strings _ := []
  content _ a := a
  decided _ _ _ _ := rfl

/-- What a released byte holds is not known; nothing below depends on the empty string here. -/
def Reading.string : Reading LucisMapString (List UInt8) where
  strings s := [s]
  content h s := (h.read s).getD []
  decided h h' s same := by rw [same s (.head _)]

variable {α β : Type}

def Reading.Held (r : Reading α β) (h : Heap) (a : α) : Prop :=
  ∀ t ∈ r.strings a, (h.read t).isSome

instance (r : Reading α β) (h : Heap) (a : α) : Decidable (r.Held h a) :=
  inferInstanceAs (Decidable (∀ t ∈ r.strings a, (h.read t).isSome))

/-- `none` where a byte that has been released would be read. -/
def Reading.read (r : Reading α β) (h : Heap) (a : α) : Option β :=
  if r.Held h a then some (r.content h a) else none

theorem Reading.read_held {r : Reading α β} {h : Heap} {a : α} (held : r.Held h a) :
    r.read h a = some (r.content h a) :=
  if_pos held

theorem Reading.Held.moved {r : Reading α β} {h h' : Heap} {a : α} (held : r.Held h a)
    (same : ∀ t ∈ r.strings a, h'.read t = h.read t) : r.Held h' a := by
  intro t member
  rw [same t member]
  exact held t member

/-- The wrappers of one family. `passed` is the key that `set` goes on with, itself or a
copy in the block at an address, for which `room` bytes are asked. -/
structure Wrappers (Key Content Val Value : Type) extends Ownership Key Val where
  keys : Reading Key Content
  vals : Reading Val Value
  room : Key → Nat
  passed : Heap → Key → Nat → Heap × Key
  /-- keys that stay behind their binding are plain ones -/
  plain : (probesFirst && ownsKey) = false → ∀ key, keys.strings key = []
  passed_held : ∀ h key addr, keys.Held h key →
    keys.Held (passed h key addr).1 (passed h key addr).2 ∧
      keys.content (passed h key addr).1 (passed h key addr).2 = keys.content h key
  passed_keeps : ∀ h key addr, Fresh h addr (room key) → ∀ t, (h.read t).isSome →
    (passed h key addr).1.read t = h.read t

variable (w : Wrappers Key Content Val Value) (hash : Content → Nat)

structure MapState (Key Val : Type) where
  heap : Heap
  table : LucisMapHeader Key Val

/-- A call, and the heap as it is when the program makes it. -/
structure MapCall (Key Val : Type) where
  heap : Heap
  op : MapOp Key Val

def passedOp (heap : Heap) : MapOp Key Val → Heap × MapOp Key Val
  | .set key val addr => ((w.passed heap key addr).1, .set (w.passed heap key addr).2 val addr)
  | op => (heap, op)

def stringsOf : Key ⊕ Val → List LucisMapString
  | .inl key => w.keys.strings key
  | .inr val => w.vals.strings val

/-- What the program reads in an answer. -/
def readAnswer (heap : Heap) : MapAnswer Key Val → Option (MapAnswer Content Value)
  | .done => some .done
  | .panic => some .panic
  | .value val => (w.vals.read heap val).map .value
  | .flag value => some (.flag value)
  | .keyVec keys => (keys.mapM (w.keys.read heap)).map .keyVec
  | .valVec vals => (vals.mapM (w.vals.read heap)).map .valVec
  | .size value => some (.size value)

def mapStep (s : MapState Key Val) (call : MapCall Key Val) :
    MapState Key Val × Option (MapAnswer Content Value) :=
  let (heap, op) := passedOp w call.heap call.op
  let (table, answer, released) :=
    tableStep w.toOwnership (w.keys.content heap) hash s.table op
  let heap := freeAll heap (released.flatMap (stringsOf w))
  (⟨heap, table⟩, readAnswer w heap answer)

/-- What a call makes of a finite map from contents to contents. -/
def after (content : Key → Content) (value : Val → Value) (bindings : Bindings Content Value) :
    MapOp Key Val → Bindings Content Value
  | .init | .clear => ∅
  | .set key val _ => bindings.insert (content key) (value val)
  | .remove key => bindings.erase (content key)
  | .get _ | .getOrDefault _ _ | .has _ | .keys | .values | .len => bindings

/-- What such a map answers, the contents being read when the call is made. -/
def finiteMap : Refinement.Spec (MapCall Key Val) (Option (MapAnswer Content Value))
    (Bindings Content Value) where
  next bindings call :=
    after (w.keys.content call.heap) (w.vals.content call.heap) bindings call.op
  answers bindings call answer :=
    match call.op with
    | .init | .set _ _ _ | .clear => answer = some .done
    | .get key =>
      answer = some (match bindings.lookup (w.keys.content call.heap key) with
        | some value => .value value
        | none => .panic)
    | .getOrDefault key default =>
      answer = some (.value ((bindings.lookup (w.keys.content call.heap key)).getD
        (w.vals.content call.heap default)))
    | .has key | .remove key =>
      answer = some (.flag (if w.keys.content call.heap key ∈ bindings then 1 else 0))
    | .keys => ∃ pairs, answer = some (.keyVec (pairs.map Prod.fst)) ∧ Lists bindings pairs
    | .values => ∃ pairs, answer = some (.valVec (pairs.map Prod.snd)) ∧ Lists bindings pairs
    | .len => answer = some (.size bindings.keys.card)

/-! What keeps the strings of the table from being released or rewritten under it. -/

def entryStrings (entry : MapEntry Key Val) : List LucisMapString :=
  w.keys.strings entry.key ++ w.vals.strings entry.val

def argStrings : MapOp Key Val → List LucisMapString
  | .set key val _ => w.keys.strings key ++ w.vals.strings val
  | .getOrDefault key default => w.keys.strings key ++ w.vals.strings default
  | .get key | .has key | .remove key => w.keys.strings key
  | .init | .clear | .keys | .values | .len => []

/-- The bindings that a call replaces or takes out, by their keys. -/
def hits (content : Key → Content) : MapOp Key Val → Key → Bool
  | .set key _ _, stored | .remove key, stored => content stored = content key
  | .init, _ | .clear, _ => true
  | .get _, _ | .getOrDefault _ _, _ | .has _, _ | .keys, _ | .values, _ | .len, _ => false

/-- The keys and values that the map gives up with such a binding. -/
def givenUp (own : Ownership Key Val) : MapOp Key Val → MapEntry Key Val → Released Key Val
  | .set key val _, old => replaced own old key val
  | .remove _, old | .clear, old => dropped own old
  | .init, _ | .get _, _ | .getOrDefault _ _, _ | .has _, _ | .keys, _ | .values, _ | .len, _ => []

/-- The strings the table holds after the call: those of the other bindings, and the new ones. -/
def staying (content : Key → Content) (m : LucisMapHeader Key Val) (op : MapOp Key Val) :
    List LucisMapString :=
  (match op with
    | .set key val _ => w.keys.strings key ++ w.vals.strings val
    | _ => []) ++
  ((entries m.slots).filter fun entry => !hits content op entry.key).flatMap (entryStrings w)

def freshFor (heap : Heap) : MapOp Key Val → Prop
  | .set key _ addr => Fresh heap addr (w.room key)
  | _ => True

instance (heap : Heap) : (op : MapOp Key Val) → Decidable (freshFor w heap op)
  | .set key _ addr => inferInstanceAs (Decidable (Fresh heap addr (w.room key)))
  | .init | .get _ | .getOrDefault _ _ | .has _ | .remove _ | .clear | .keys | .values | .len =>
    .isTrue trivial

/-- The program's side of a call: it has left the strings of the table as they were, those it
passes can be read, and the block for a copied key is a new one. -/
def Passes (s : MapState Key Val) (call : MapCall Key Val) : Prop :=
  (∀ entry ∈ entries s.table.slots, ∀ t ∈ entryStrings w entry,
    call.heap.read t = s.heap.read t) ∧
  (∀ t ∈ argStrings w call.op, (call.heap.read t).isSome) ∧ freshFor w call.heap call.op

/-- No string that stays lies in the block of one that the call gives up. -/
def Unshared (s : MapState Key Val) (call : MapCall Key Val) : Prop :=
  let (heap, op) := passedOp w call.heap call.op
  ∀ old ∈ entries s.table.slots, hits (w.keys.content heap) op old.key = true →
    ∀ given ∈ givenUp w.toOwnership op old, ∀ r ∈ stringsOf w given,
      ∀ t ∈ staying w (w.keys.content heap) s.table op, Apart heap r t

def Allowed (s : MapState Key Val) (call : MapCall Key Val) : Prop :=
  Passes w s call ∧ Unshared w s call

instance (s : MapState Key Val) (call : MapCall Key Val) : Decidable (Passes w s call) :=
  inferInstanceAs (Decidable (_ ∧ _ ∧ _))

instance (s : MapState Key Val) (call : MapCall Key Val) : Decidable (Allowed w s call) :=
  inferInstanceAs (Decidable (Passes w s call ∧
    ∀ old ∈ entries s.table.slots,
      hits (w.keys.content (passedOp w call.heap call.op).1) (passedOp w call.heap call.op).2
        old.key = true →
      ∀ given ∈ givenUp w.toOwnership (passedOp w call.heap call.op).2 old,
        ∀ r ∈ stringsOf w given, ∀ t ∈ staying w (w.keys.content (passedOp w call.heap call.op).1)
          s.table (passedOp w call.heap call.op).2, Apart (passedOp w call.heap call.op).1 r t))

structure Stands (s : MapState Key Val) (bindings : Bindings Content Value) : Prop where
  represents :
    Represents (w.keys.content s.heap) (w.vals.content s.heap) hash s.table bindings
  held : ∀ entry ∈ entries s.table.slots, ∀ t ∈ entryStrings w entry, (s.heap.read t).isSome

section Steps

variable {w hash} {heap heap' : Heap} {table : LucisMapHeader Key Val}
  {bindings : Bindings Content Value}

theorem Stands.moved (stands : Stands w hash ⟨heap, table⟩ bindings)
    (same : ∀ entry ∈ entries table.slots, ∀ t ∈ entryStrings w entry,
      heap'.read t = heap.read t) : Stands w hash ⟨heap', table⟩ bindings where
  represents := by
    apply stands.represents.congr
    · intro entry member
      exact w.keys.decided heap heap' _ fun t inside =>
        same entry member t (mem_append_left _ inside)
    · intro entry member
      exact w.vals.decided heap heap' _ fun t inside =>
        same entry member t (mem_append_right _ inside)
  held := by
    intro entry member t inside
    rw [same entry member t inside]
    exact stands.held entry member t inside

theorem Stands.key_held (stands : Stands w hash ⟨heap, table⟩ bindings) {entry}
    (member : entry ∈ entries table.slots) : w.keys.Held heap entry.key :=
  fun t inside => stands.held entry member t (mem_append_left _ inside)

theorem Stands.val_held (stands : Stands w hash ⟨heap, table⟩ bindings) {entry}
    (member : entry ∈ entries table.slots) : w.vals.Held heap entry.val :=
  fun t inside => stands.held entry member t (mem_append_right _ inside)

variable {op : MapOp Key Val}

/-- The table after a call on it, and the strings it then holds. -/
theorem Stands.stepped (stands : Stands w hash ⟨heap, table⟩ bindings)
    {content : Key → Content} (same : content = w.keys.content heap)
    {entry : MapEntry Key Val}
    (left : entry ∈ entries (tableStep w.toOwnership content hash table op).1.slots) :
    ∀ t ∈ entryStrings w entry, t ∈ staying w content table op := by
  subst same
  have others : entry ∈ entries table.slots → hits (w.keys.content heap) op entry.key = false →
      ∀ t ∈ entryStrings w entry, t ∈ staying w (w.keys.content heap) table op := by
    intro member missed t inside
    apply mem_append_right
    exact mem_flatMap.2 ⟨entry, mem_filter.2 ⟨member, by simp [missed]⟩, inside⟩
  cases op with
  | init => simp [tableStep, mapCoreInit, entries_replicate] at left
  | clear => simp [tableStep, lucisMapClear, mapCoreClear, entries_replicate] at left
  | set key val addr =>
    rcases set_entries stands.represents key val w.toOwnership left with
      ⟨member, other⟩ | rfl | ⟨kept, old, -, rfl⟩
    · exact others member (by simpa [hits] using other)
    · intro t inside
      exact mem_append_left _ inside
    · intro t inside
      rw [entryStrings, w.plain kept, nil_append] at inside
      exact mem_append_left _ (mem_append_right _ inside)
  | remove key =>
    rcases remove_entries stands.represents key w.toOwnership left with ⟨member, other⟩
    exact others member (by simpa [hits] using other)
  | get key => exact others left rfl
  | getOrDefault key default => exact others left rfl
  | has key => exact others left rfl
  | keys => exact others left rfl
  | values => exact others left rfl
  | len => exact others left rfl

theorem Stands.released (stands : Stands w hash ⟨heap, table⟩ bindings) {given : Key ⊕ Val}
    (released : given ∈ (tableStep w.toOwnership (w.keys.content heap) hash table op).2.2) :
    ∃ old ∈ entries table.slots, hits (w.keys.content heap) op old.key = true ∧
      given ∈ givenUp w.toOwnership op old := by
  cases op with
  | set key val addr =>
    rcases set_released stands.represents key val w.toOwnership released with
      ⟨old, member, same, given⟩
    exact ⟨old, member, by simpa [hits] using same, given⟩
  | remove key =>
    rcases remove_released stands.represents key w.toOwnership released with
      ⟨old, member, same, given⟩
    exact ⟨old, member, by simpa [hits] using same, given⟩
  | clear =>
    rcases mem_flatMap.1 released with ⟨old, member, given⟩
    exact ⟨old, member, rfl, given⟩
  | init => cases released
  | get key => cases released
  | getOrDefault key default => cases released
  | has key => cases released
  | keys => cases released
  | values => cases released
  | len => cases released

theorem Stands.represented (stands : Stands w hash ⟨heap, table⟩ bindings) :
    Represents (w.keys.content heap) (w.vals.content heap) hash
      (tableStep w.toOwnership (w.keys.content heap) hash table op).1
      (after (w.keys.content heap) (w.vals.content heap) bindings op) := by
  have rep := stands.represents
  cases op with
  | init => exact represents_init _ _ _
  | set key val addr => exact set_represents rep w.toOwnership key val
  | remove key => exact (remove_represents rep w.toOwnership key).2
  | clear => exact represents_clear rep
  | get key => exact rep
  | getOrDefault key default => exact rep
  | has key => exact rep
  | keys => exact rep
  | values => exact rep
  | len => exact rep

/-- Handing a key over, or a copy of it, changes nothing that can be read. -/
theorem Stands.handed (stands : Stands w hash ⟨heap, table⟩ bindings)
    (readable : ∀ t ∈ argStrings w op, (heap.read t).isSome) (fresh : freshFor w heap op) :
    Stands w hash ⟨(passedOp w heap op).1, table⟩ bindings ∧
      (∀ t ∈ argStrings w (passedOp w heap op).2, ((passedOp w heap op).1.read t).isSome) ∧
      after (w.keys.content (passedOp w heap op).1) (w.vals.content (passedOp w heap op).1)
          bindings (passedOp w heap op).2 =
        after (w.keys.content heap) (w.vals.content heap) bindings op := by
  cases op with
  | set key val addr =>
    have keeps := w.passed_keeps heap key addr fresh
    have key_held : w.keys.Held heap key := fun t inside => readable t (mem_append_left _ inside)
    have val_held : w.vals.Held heap val := fun t inside => readable t (mem_append_right _ inside)
    have val_kept : ∀ t ∈ w.vals.strings val, (w.passed heap key addr).1.read t = heap.read t :=
      fun t inside => keeps t (val_held t inside)
    obtain ⟨copied, same⟩ := w.passed_held heap key addr key_held
    refine ⟨stands.moved ?_, ?_, ?_⟩
    · intro entry member t inside
      exact keeps t (stands.held entry member t inside)
    · intro t inside
      rcases mem_append.1 inside with key_string | val_string
      · exact copied t key_string
      · exact val_held.moved val_kept t val_string
    · simp only [passedOp, after]
      rw [same, w.vals.decided heap _ val val_kept]
  | init => exact ⟨stands, readable, rfl⟩
  | get key => exact ⟨stands, readable, rfl⟩
  | getOrDefault key default => exact ⟨stands, readable, rfl⟩
  | has key => exact ⟨stands, readable, rfl⟩
  | remove key => exact ⟨stands, readable, rfl⟩
  | clear => exact ⟨stands, readable, rfl⟩
  | keys => exact ⟨stands, readable, rfl⟩
  | values => exact ⟨stands, readable, rfl⟩
  | len => exact ⟨stands, readable, rfl⟩

theorem Stands.next (stands : Stands w hash ⟨heap, table⟩ bindings)
    (readable : ∀ t ∈ argStrings w op, (heap.read t).isSome)
    (apart : ∀ old ∈ entries table.slots, hits (w.keys.content heap) op old.key = true →
      ∀ given ∈ givenUp w.toOwnership op old, ∀ r ∈ stringsOf w given,
        ∀ t ∈ staying w (w.keys.content heap) table op, Apart heap r t) :
    let out := tableStep w.toOwnership (w.keys.content heap) hash table op
    Stands w hash ⟨freeAll heap (out.2.2.flatMap (stringsOf w)), out.1⟩
      (after (w.keys.content heap) (w.vals.content heap) bindings op) := by
  intro out
  have stays : ∀ entry ∈ entries out.1.slots, ∀ t ∈ entryStrings w entry,
      t ∈ staying w (w.keys.content heap) table op :=
    fun entry left => stands.stepped rfl left
  have held : ∀ t ∈ staying w (w.keys.content heap) table op, (heap.read t).isSome := by
    intro t inside
    rcases mem_append.1 inside with new | other
    · cases op with
      | set key val addr => exact readable t new
      | _ => cases new
    · rcases mem_flatMap.1 other with ⟨entry, member, string⟩
      exact stands.held entry (mem_of_mem_filter member) t string
  have before : Stands w hash ⟨heap, out.1⟩
      (after (w.keys.content heap) (w.vals.content heap) bindings op) :=
    ⟨stands.represented, fun entry left t inside => held t (stays entry left t inside)⟩
  -- what is released shares no block with what stays, so every string is read as before
  apply before.moved
  intro entry left t inside
  apply freeAll_read
  intro r released
  rcases mem_flatMap.1 released with ⟨given, member, string⟩
  rcases stands.released member with ⟨old, stored, hit, given_up⟩
  exact apart old stored hit given given_up r string t (stays entry left t inside)

theorem mapM_read {α β : Type} {r : Reading α β} {h : Heap} {as : List α}
    (held : ∀ a ∈ as, r.Held h a) : as.mapM (r.read h) = some (as.map (r.content h)) := by
  induction as with
  | nil => rfl
  | cons a rest ih =>
    rw [mapM_cons, Reading.read_held (held a (.head _)), ih fun b member => held b (.tail _ member)]
    rfl

theorem Stands.keys_read (stands : Stands w hash ⟨heap, table⟩ bindings) :
    (lucisMapKeys table).mapM (w.keys.read heap) = some (((entries table.slots).map fun entry =>
      (w.keys.content heap entry.key, w.vals.content heap entry.val)).map Prod.fst) := by
  rw [mapM_read]
  · simp [lucisMapKeys]
  · intro key inside
    rcases mem_map.1 inside with ⟨entry, member, rfl⟩
    exact stands.key_held member

theorem Stands.values_read (stands : Stands w hash ⟨heap, table⟩ bindings) :
    (lucisMapValues table).mapM (w.vals.read heap) = some (((entries table.slots).map fun entry =>
      (w.keys.content heap entry.key, w.vals.content heap entry.val)).map Prod.snd) := by
  rw [mapM_read]
  · simp [lucisMapValues]
  · intro val inside
    rcases mem_map.1 inside with ⟨entry, member, rfl⟩
    exact stands.val_held member

theorem map_simulation :
    Refinement.Simulation (finiteMap w) (mapStep w hash) (Allowed w) (Stands w hash) := by
  rintro ⟨before, table⟩ bindings ⟨heap, op⟩ stood ⟨⟨kept, readable, fresh⟩, apart⟩
  have stands : Stands w hash ⟨heap, table⟩ bindings := stood.moved kept
  have rep := stands.represents
  constructor
  · cases op with
    | init => rfl
    | set key val addr => rfl
    | clear => rfl
    | get key =>
      rcases get_represents rep key with ⟨missing, unbound⟩ | ⟨entry, member, found, bound⟩
      · simp [finiteMap, mapStep, passedOp, tableStep, missing, unbound, readAnswer]
      · simp [finiteMap, mapStep, passedOp, tableStep, found, bound, readAnswer, freeAll,
          Reading.read_held (stands.val_held member)]
    | getOrDefault key default =>
      have default_held : w.vals.Held heap default :=
        fun t inside => readable t (mem_append_right _ inside)
      rcases get_represents rep key with ⟨missing, unbound⟩ | ⟨entry, member, found, bound⟩
      · simp [finiteMap, mapStep, passedOp, tableStep, missing, unbound, readAnswer, freeAll,
          Reading.read_held default_held]
      · simp [finiteMap, mapStep, passedOp, tableStep, found, bound, readAnswer, freeAll,
          Reading.read_held (stands.val_held member)]
    | has key => exact congrArg (some ∘ MapAnswer.flag) (has_represents rep key)
    | remove key =>
      exact congrArg (some ∘ MapAnswer.flag) (remove_represents rep w.toOwnership key).1
    | keys =>
      exact ⟨_, congrArg (Option.map MapAnswer.keyVec) stands.keys_read, represents_lists rep⟩
    | values =>
      exact ⟨_, congrArg (Option.map MapAnswer.valVec) stands.values_read, represents_lists rep⟩
    | len => exact congrArg (some ∘ MapAnswer.size) (represents_card rep)
  -- the key that the wrapper goes on with reads as the one the program passed
  · rcases stands.handed readable fresh with ⟨handed, still, same⟩
    have next := handed.next still apart
    rw [same] at next
    exact next

end Steps

/-- What a table shows from outside when it stands for `bindings`. -/
structure TableFacts (s : MapState Key Val) (bindings : Bindings Content Value) : Prop where
  oneSlot : ∀ c, c ∈ bindings → ∃! index, ∃ h entry,
    slotAt s.table.slots index = .occupied h entry ∧ w.keys.read s.heap entry.key = some c
  onlyLive : ∀ index h entry, slotAt s.table.slots index = .occupied h entry →
    ∃ c v, w.keys.read s.heap entry.key = some c ∧ w.vals.read s.heap entry.val = some v ∧
      bindings.lookup c = some v
  lenOccupied : s.table.len = s.table.slots.countP fun slot => slot.entryOf.isSome
  load : s.table.len * 4 ≤ s.table.cap * 3
  capPower : ∃ n, s.table.cap = 2 ^ n
  sameOrder : ∃ pairs, (lucisMapKeys s.table).mapM (w.keys.read s.heap) = some (pairs.map Prod.fst) ∧
    (lucisMapValues s.table).mapM (w.vals.read s.heap) = some (pairs.map Prod.snd) ∧
    Lists bindings pairs
  probes : ∀ key, ProbeSafe (w.keys.content s.heap) hash s.table key ∧
    ProbeSafe (w.keys.content s.heap) hash
      (mapCoreRoom (sameKey (w.keys.content s.heap)) s.table) key
  growth : GrowthSafe (w.keys.content s.heap) s.table

variable {w hash}

theorem Stands.facts {s : MapState Key Val} {bindings : Bindings Content Value}
    (stands : Stands w hash s bindings) : TableFacts w hash s bindings := by
  rcases s with ⟨heap, table⟩
  have rep := stands.represents
  have reads : ∀ index h entry, slotAt table.slots index = .occupied h entry →
      w.keys.read heap entry.key = some (w.keys.content heap entry.key) ∧
        w.vals.read heap entry.val = some (w.vals.content heap entry.val) := by
    intro index h entry held
    have member := (mem_entries _ _).2 ⟨index, h, held⟩
    exact ⟨Reading.read_held (stands.key_held member), Reading.read_held (stands.val_held member)⟩
  constructor
  · intro c live
    rcases represents_one_slot rep live with ⟨index, ⟨h, entry, held, same⟩, only⟩
    refine ⟨index, ⟨h, entry, held, ?_⟩, ?_⟩
    · rw [(reads index h entry held).1, same]
    · rintro other ⟨h', entry', held', read⟩
      rw [(reads other h' entry' held').1] at read
      exact only other ⟨h', entry', held', Option.some.inj read⟩
  · intro index h entry held
    rcases reads index h entry held with ⟨key, val⟩
    exact ⟨_, _, key, val,
      (rep.holds _ _).2 ⟨entry, (mem_entries _ _).2 ⟨index, h, held⟩, rfl, rfl⟩⟩
  · rw [rep.len_eq, entries, length_filterMap_eq_countP]
  · exact rep.load
  · exact rep.wf.powerOfTwo
  · exact ⟨_, stands.keys_read, stands.values_read, represents_lists rep⟩
  · exact fun key => ⟨probe_safe rep key, probe_safe (room_represents rep).1 key⟩
  · exact growth_safe rep

end Machine

/-! The key and value families and the wrappers and hash functions they use. -/

section Families

inductive KeySuffix where
  | i32 | i64 | u64 | u128 | i128 | u1 | i1 | iinf
  deriving DecidableEq

def KeySuffix.width : KeySuffix → Nat
  | .u1 | .i1 => 8
  | .i32 => 32
  | .i64 | .u64 => 64
  | .u128 | .i128 => 128
  | .iinf => 256

/-- `hash_key_i64` hands the key through; the other word keys are mixed. -/
def KeySuffix.hashFn (suffix : KeySuffix) (key : BitVec suffix.width) : Nat :=
  match suffix with
  | .i64 => key.toNat
  | .u128 | .i128 => hash16 (key.setWidth 128)
  | .iinf => hash32 (key.setWidth 256)
  | .i32 | .u64 | .u1 | .i1 => hashWord key

inductive KeyFamily where
  | int (suffix : KeySuffix)
  | str

inductive ValFamily where
  | num (bits : Nat)
  | str
  | raw (valSize : Nat)

def KeyFamily.Key : KeyFamily → Type
  | .int suffix => BitVec suffix.width
  | .str => LucisMapString

def KeyFamily.Content : KeyFamily → Type
  | .int suffix => BitVec suffix.width
  | .str => List UInt8

instance : (family : KeyFamily) → DecidableEq family.Content
  | .int suffix => inferInstanceAs (DecidableEq (BitVec suffix.width))
  | .str => inferInstanceAs (DecidableEq (List UInt8))

def KeyFamily.reading : (family : KeyFamily) → Reading family.Key family.Content
  | .int suffix => .plain (BitVec suffix.width)
  | .str => .string

def KeyFamily.hashFn : (family : KeyFamily) → family.Content → Nat
  | .int suffix => suffix.hashFn
  | .str => fnv1a

def ValFamily.Val : ValFamily → Type
  | .num bits => BitVec bits
  | .str => LucisMapString
  | .raw valSize => { bytes : List UInt8 // bytes.length = valSize }

def ValFamily.Value : ValFamily → Type
  | .num bits => BitVec bits
  | .str => List UInt8
  | .raw valSize => { bytes : List UInt8 // bytes.length = valSize }

def ValFamily.reading : (family : ValFamily) → Reading family.Val family.Value
  | .num bits => .plain (BitVec bits)
  | .str => .string
  | .raw valSize => .plain { bytes : List UInt8 // bytes.length = valSize }

def KeyFamily.keyPtr : (family : KeyFamily) → family.Key → Nat
  | .int _ => fun _ => 0
  | .str => LucisMapString.ptr

/-- `old_val->ptr == val.ptr && old_val->len == val.len` -/
def ValFamily.sameVal : (family : ValFamily) → family.Val → family.Val → Bool
  | .num _ => fun _ _ => true
  | .str => fun old val => old.ptr == val.ptr && old.len == val.len
  | .raw _ => fun _ _ => true

/-- Only integer keys with plain values go straight to the core. -/
def ownership (key : KeyFamily) (val : ValFamily) : Ownership key.Key val.Val where
  probesFirst := match key, val with
    | .int _, .num _ | .int _, .raw _ => false
    | _, _ => true
  ownsKey := match key with
    | .int _ => false
    | .str => true
  ownsVal := match val with
    | .str => true
    | _ => false
  keyPtr := key.keyPtr
  sameVal := val.sameVal

/-- Only the raw family copies its key. -/
def copiesKey (key : KeyFamily) (val : ValFamily) : Bool :=
  match key, val with
  | .str, .raw _ => true
  | _, _ => false

/-- `owned_key` of `lucis_map_set_str_raw`: the same bytes in a new block. -/
def KeyFamily.copyKey : (family : KeyFamily) → Heap → family.Key → Nat → Heap × family.Key
  | .int _ => fun heap key _ => (heap, key)
  | .str => fun heap key addr => (copyString heap key addr, ⟨addr, key.len⟩)

def KeyFamily.copySize : (family : KeyFamily) → family.Key → Nat
  | .int _ => fun _ => 0
  | .str => fun key => max key.len 1

variable (family : KeyFamily) (heap : Heap) (key : family.Key) (addr : Nat)

theorem copyKey_held (held : family.reading.Held heap key) :
    family.reading.Held (family.copyKey heap key addr).1 (family.copyKey heap key addr).2 ∧
      family.reading.content (family.copyKey heap key addr).1 (family.copyKey heap key addr).2 =
        family.reading.content heap key := by
  cases family with
  | int suffix => exact ⟨held, rfl⟩
  | str =>
    have copied := copy_reads heap key addr
    constructor
    · intro t inside
      rw [mem_singleton.1 inside]
      exact (congrArg Option.isSome copied).trans (held key (.head _))
    · exact congrArg (Option.getD · []) copied

theorem copyKey_keeps (fresh : Fresh heap addr (family.copySize key)) {t : LucisMapString}
    (readable : (heap.read t).isSome) :
    (family.copyKey heap key addr).1.read t = heap.read t := by
  cases family with
  | int suffix => rfl
  | str => exact copy_keeps fresh readable

def wrappers (key : KeyFamily) (val : ValFamily) :
    Wrappers key.Key key.Content val.Val val.Value where
  toOwnership := ownership key val
  keys := key.reading
  vals := val.reading
  room stored := if copiesKey key val then key.copySize stored else 0
  passed heap stored addr :=
    if copiesKey key val then key.copyKey heap stored addr else (heap, stored)
  plain := by
    intro kept stored
    cases key with
    | int suffix => rfl
    | str => cases val <;> cases kept
  passed_held := by
    intro heap stored addr held
    split
    · exact copyKey_held key heap stored addr held
    · exact ⟨held, rfl⟩
  passed_keeps := by
    intro heap stored addr fresh t readable
    split
    · next copies =>
      rw [if_pos copies] at fresh
      exact copyKey_keeps key heap stored addr fresh readable
    · rfl

/-- Integer keys with plain values: there is no string to share. -/
theorem plain_allowed (suffix : KeySuffix) (val : ValFamily) (plain : val ≠ .str)
    (s : MapState (KeyFamily.int suffix).Key val.Val)
    (call : MapCall (KeyFamily.int suffix).Key val.Val) :
    Allowed (wrappers (.int suffix) val) s call := by
  have key_strings : ∀ key, (wrappers (.int suffix) val).keys.strings key = [] := fun _ => rfl
  have val_strings : ∀ value, (wrappers (.int suffix) val).vals.strings value = [] := by
    cases val with
    | num bits => exact fun _ => rfl
    | raw size => exact fun _ => rfl
    | str => exact absurd rfl plain
  refine ⟨⟨?_, ?_, ?_⟩, ?_⟩
  · intro entry _ t inside
    simp [entryStrings, key_strings, val_strings] at inside
  · intro t inside
    cases op : call.op <;> simp [op, argStrings, key_strings, val_strings] at inside
  · cases op : call.op with
    | set key value addr =>
      intro i below
      exact absurd below (Nat.not_lt_zero i)
    | _ => trivial
  · intro old _ _ given _ r inside
    cases given <;> simp [stringsOf, key_strings, val_strings] at inside

/-- Where no call gives up a string that shares its block with one that stays, every run of
every key and value family, under any hash function, answers as the finite map does, and
the table shows the map's bindings after each call. -/
theorem map_runs_refine (key : KeyFamily) (val : ValFamily) (hash : key.Content → Nat)
    (heap : Heap) (calls : List (MapCall key.Key val.Val))
    (allowed : Refinement.Guarded (Allowed (wrappers key val)) (mapStep (wrappers key val) hash)
      ⟨heap, mapCoreInit⟩ calls) :
    Refinement.Agrees (finiteMap (wrappers key val)) (mapStep (wrappers key val) hash)
        ⟨heap, mapCoreInit⟩ ∅ calls ∧
      ∀ front, front <+: calls → TableFacts (wrappers key val) hash
        (Refinement.run (mapStep (wrappers key val) hash) ⟨heap, mapCoreInit⟩ front)
        (front.foldl (finiteMap (wrappers key val)).next ∅) := by
  have start : Stands (wrappers key val) hash ⟨heap, mapCoreInit⟩ ∅ :=
    { represents := represents_init _ _ hash
      held := by
        intro entry member
        simp [mapCoreInit, entries_replicate] at member }
  constructor
  · exact Refinement.agrees_of_simulation map_simulation calls _ _ start allowed
  · intro front begins
    exact (Refinement.related_of_simulation map_simulation front _ _ start
      (Refinement.guarded_prefix allowed begins)).facts

/-- Literals `a` and `b`, and two owned strings. -/
def strings : Heap where
  byte a :=
    if a = 100 then some 97 else if a = 200 then some 98
    else if 300 ≤ a ∧ a < 303 then some 120
    else if 400 ≤ a ∧ a < 402 then some 121
    else none
  blocks := [(300, 3), (400, 2)]

abbrev StringCall := MapCall KeyFamily.str.Key ValFamily.str.Val

def stringCall (heap : Heap) (op : MapOp LucisMapString LucisMapString) : StringCall := ⟨heap, op⟩

/-- A value is replaced, and the binding taken out. -/
def replacing : List StringCall :=
  [stringCall strings (.set ⟨100, 1⟩ ⟨300, 3⟩ 0), stringCall strings (.set ⟨100, 1⟩ ⟨400, 2⟩ 0),
    stringCall (lucisFreeStr strings ⟨300, 3⟩) (.get ⟨100, 1⟩),
    stringCall (lucisFreeStr strings ⟨300, 3⟩) (.remove ⟨100, 1⟩)]

theorem replacing_allowed : Refinement.Guarded (Allowed (wrappers .str .str))
    (mapStep (wrappers .str .str) (KeyFamily.hashFn .str)) ⟨strings, mapCoreInit⟩ replacing := by
  decide

theorem map_runs_refine_replacing :
    Refinement.Agrees (finiteMap (wrappers .str .str))
      (mapStep (wrappers .str .str) (KeyFamily.hashFn .str)) ⟨strings, mapCoreInit⟩ ∅ replacing :=
  (map_runs_refine .str .str (KeyFamily.hashFn .str) strings replacing replacing_allowed).1

/-- `m["a"] = s; m["b"] = m["a"]; m.remove("a");` and then `m["b"]` -/
def sharing : List StringCall :=
  [stringCall strings (.set ⟨100, 1⟩ ⟨300, 3⟩ 0), stringCall strings (.set ⟨200, 1⟩ ⟨300, 3⟩ 0),
    stringCall strings (.remove ⟨100, 1⟩),
    stringCall (lucisFreeStr strings ⟨300, 3⟩) (.get ⟨200, 1⟩)]

/-- The program passes live strings only, and still reads a released one from the map. -/
theorem sharing_loses_value :
    Refinement.Guarded (Passes (wrappers .str .str))
        (mapStep (wrappers .str .str) (KeyFamily.hashFn .str)) ⟨strings, mapCoreInit⟩ sharing ∧
      ¬ Refinement.Agrees (finiteMap (wrappers .str .str))
        (mapStep (wrappers .str .str) (KeyFamily.hashFn .str)) ⟨strings, mapCoreInit⟩ ∅
        sharing := by
  constructor
  · decide
  · rintro ⟨-, -, -, answered, -⟩
    cases answered

end Families

end Lucis.MapOwnership
