import Lucis.Library.LinkedNodes
import Lucis.Queue
import Mathlib.Data.List.Nodup
import Mathlib.Data.List.Perm.Subperm

/-!
The doubly linked list of the standard library's container module. Its nodes live on a heap
that others use too; what malloc has given to the list and what the list has freed is
recorded beside it. Touching a node that is not alive is a fault, and so is freeing it.
-/

namespace Lucis

open LinkedNodes List
open Lucis.Memory (sizeT sizeT_of_lt subT subT_of_le)
open Queue (Stop)

variable {T : Type}

structure LinkedList where
  head : Nat
  tail : Nat
  len : Nat

namespace LinkedList

structure State (T : Type) where
  self : LinkedList
  heap : Heap T
  given : List Nat
  freed : List Nat

section Source

def read (heap : Heap T) (addr : Nat) : Except Stop (Node T) :=
  match heap addr with
  | some node => .ok node
  | none => .error .faults

def setPrev (heap : Heap T) (addr prev : Nat) : Except Stop (Heap T) := do
  let node ← read heap addr
  return update heap addr (some { node with prev })

def setNext (heap : Heap T) (addr next : Nat) : Except Stop (Heap T) := do
  let node ← read heap addr
  return update heap addr (some { node with next })

/-- `addr` is malloc's answer; `lucis_alloc` ends the process when it is null. -/
def alloc (s : State T) (addr : Nat) (node : Node T) : Except Stop (State T) :=
  if addr = 0 then .error .exits
  else .ok { s with heap := update s.heap addr (some node), given := addr :: s.given }

def free (s : State T) (addr : Nat) : Except Stop (State T) := do
  let _ ← read s.heap addr
  return { s with heap := update s.heap addr none, freed := addr :: s.freed }

def new (heap : Heap T) : State T := ⟨⟨0, 0, 0⟩, heap, [], []⟩

def pushFront (s : State T) (addr : Nat) (value : T) : Except Stop (State T) := do
  let s ← alloc s addr ⟨value, 0, s.self.head⟩
  if s.self.head ≠ 0 then
    let heap ← setPrev s.heap s.self.head addr
    return { s with heap, self := ⟨addr, s.self.tail, sizeT (s.self.len + 1)⟩ }
  else
    return { s with self := ⟨addr, addr, sizeT (s.self.len + 1)⟩ }

def pushBack (s : State T) (addr : Nat) (value : T) : Except Stop (State T) := do
  let s ← alloc s addr ⟨value, s.self.tail, 0⟩
  if s.self.tail ≠ 0 then
    let heap ← setNext s.heap s.self.tail addr
    return { s with heap, self := ⟨s.self.head, addr, sizeT (s.self.len + 1)⟩ }
  else
    return { s with self := ⟨addr, addr, sizeT (s.self.len + 1)⟩ }

/-- `next` becomes the head, with nothing before it. -/
def dropHead (s : State T) (next : Nat) : Except Stop (State T) :=
  if next ≠ 0 then do
    let heap ← setPrev s.heap next 0
    return { s with heap, self := ⟨next, s.self.tail, subT s.self.len 1⟩ }
  else return { s with self := ⟨next, 0, subT s.self.len 1⟩ }

def popFront (s : State T) : Except Stop (T × State T) := do
  let node ← read s.heap s.self.head
  let popped ← dropHead s node.next
  let node ← read popped.heap s.self.head
  let popped ← free popped s.self.head
  return (node.value, popped)

def dropTail (s : State T) (prev : Nat) : Except Stop (State T) :=
  if prev ≠ 0 then do
    let heap ← setNext s.heap prev 0
    return { s with heap, self := ⟨s.self.head, prev, subT s.self.len 1⟩ }
  else return { s with self := ⟨0, prev, subT s.self.len 1⟩ }

def popBack (s : State T) : Except Stop (T × State T) := do
  let node ← read s.heap s.self.tail
  let popped ← dropTail s node.prev
  let node ← read popped.heap s.self.tail
  let popped ← free popped s.self.tail
  return (node.value, popped)

/-- `while cur != null`; a loop that has not ended after `fuel` rounds is at fault here. -/
def freeAll : Nat → Nat → State T → Except Stop (State T)
  | 0, cur, s => if cur = 0 then .ok s else .error .faults
  | fuel + 1, cur, s =>
    if cur = 0 then .ok s
    else do
      let links ← read s.heap cur
      let s ← free s cur
      freeAll fuel links.next s

def clear (s : State T) : Except Stop (State T) := do
  let s ← freeAll s.self.len s.self.head s
  return { s with self := ⟨0, 0, 0⟩ }

def drop (s : State T) : Except Stop (State T) := freeAll s.self.len s.self.head s

end Source

def State.turn (s : State T) : State T :=
  ⟨⟨s.self.tail, s.self.head, s.self.len⟩, LinkedNodes.turn s.heap, s.given, s.freed⟩

@[simp] theorem turn_turn (s : State T) : s.turn.turn = s := by
  simp only [State.turn, LinkedNodes.turn_turn]

variable (heap : Heap T)

theorem read_turn (addr : Nat) :
    read (turn heap) addr = (read heap addr).map Node.turn := by
  unfold read turn
  cases heap addr <;> rfl

theorem setPrev_turn (addr prev : Nat) :
    setPrev (turn heap) addr prev = (setNext heap addr prev).map turn := by
  rw [setPrev, setNext, read_turn]
  cases read heap addr with
  | error stop => rfl
  | ok node =>
    change Except.ok _ = Except.ok _
    rw [turn_update]
    rfl

variable (s : State T)

theorem alloc_turn (addr : Nat) (node : Node T) :
    alloc s.turn addr node.turn = (alloc s addr node).map State.turn := by
  unfold alloc
  split
  · rfl
  · simp only [Except.map, State.turn, turn_update, Option.map_some]

theorem free_turn (addr : Nat) : free s.turn addr = (free s addr).map State.turn := by
  unfold free
  rw [State.turn, read_turn]
  cases read s.heap addr with
  | error stop => rfl
  | ok node =>
    change Except.ok _ = Except.ok _
    simp only [State.turn, turn_update, Option.map_none]

theorem pushFront_turn (addr : Nat) (value : T) :
    pushFront s.turn addr value = (pushBack s addr value).map State.turn := by
  unfold pushFront pushBack
  have allocated := alloc_turn s addr ⟨value, s.self.tail, 0⟩
  change alloc s.turn addr ⟨value, 0, s.turn.self.head⟩ = _ at allocated
  rw [allocated]
  cases alloc s addr ⟨value, s.self.tail, 0⟩ with
  | error stop => rfl
  | ok s =>
    change (if s.self.tail ≠ 0 then (setPrev (turn s.heap) s.self.tail addr >>= _) else _) =
      Except.map _ (if s.self.tail ≠ 0 then (setNext s.heap s.self.tail addr >>= _) else _)
    rw [setPrev_turn]
    split
    · cases setNext s.heap s.self.tail addr <;> rfl
    · rfl

theorem dropHead_turn (next : Nat) :
    dropHead s.turn next = (dropTail s next).map State.turn := by
  unfold dropHead dropTail
  change (if next ≠ 0 then (setPrev (turn s.heap) next 0 >>= _) else _) = _
  rw [setPrev_turn]
  split
  · cases setNext s.heap next 0 <;> rfl
  · rfl

theorem popFront_turn :
    popFront s.turn = (popBack s).map fun popped => (popped.1, popped.2.turn) := by
  unfold popFront popBack
  change (read (turn s.heap) s.self.tail >>= _) = _
  rw [read_turn]
  cases read s.heap s.self.tail with
  | error stop => rfl
  | ok node =>
    change (dropHead s.turn node.prev >>= _) = Except.map _ (dropTail s node.prev >>= _)
    rw [dropHead_turn]
    cases dropTail s node.prev with
    | error stop => rfl
    | ok s' =>
      change (read (turn s'.heap) s.self.tail >>= _) =
        Except.map _ (read s'.heap s.self.tail >>= _)
      rw [read_turn]
      cases read s'.heap s.self.tail with
      | error stop => rfl
      | ok node =>
        change (free s'.turn s.self.tail >>= _) = Except.map _ (free s' s.self.tail >>= _)
        rw [free_turn]
        cases free s' s.self.tail <;> rfl

structure Shape (s : State T) (nodes : List (Nat × T)) : Prop where
  linked : Linked s.heap 0 nodes 0
  head_eq : s.self.head = firstOf 0 nodes
  tail_eq : s.self.tail = lastOf 0 nodes
  len_eq : s.self.len = nodes.length
  placed : ∀ node ∈ nodes, node.1 ≠ 0 ∧ node.1 < 2 ^ 64
  distinct : (nodes.map Prod.fst).Nodup
  accounted : ∀ addr, s.given.count addr = s.freed.count addr + (nodes.map Prod.fst).count addr

section Steps

variable {s : State T} {nodes rest : List (Nat × T)} {node : Nat × T} {addr : Nat} {value : T}

theorem Shape.turn (shape : Shape s nodes) : Shape s.turn nodes.reverse := by
  refine ⟨shape.linked.turn, ?_, ?_, ?_, ?_, ?_, fun addr => ?_⟩
  · rw [← lastOf_eq_firstOf, ← shape.tail_eq]
    rfl
  · rw [lastOf_eq_firstOf, reverse_reverse, ← shape.head_eq]
    rfl
  · rw [length_reverse, ← shape.len_eq]
    rfl
  · exact fun node member => shape.placed node (mem_reverse.1 member)
  · rw [map_reverse, nodup_reverse]
    exact shape.distinct
  · rw [map_reverse, count_reverse]
    exact shape.accounted addr

theorem length_lt (placed : ∀ node ∈ nodes, node.1 ≠ 0 ∧ node.1 < 2 ^ 64)
    (distinct : (nodes.map Prod.fst).Nodup) : nodes.length < 2 ^ 64 := by
  have fresh : 0 ∉ nodes.map Prod.fst := by
    intro member
    rcases List.mem_map.1 member with ⟨node, listed, null⟩
    exact (placed node listed).1 null
  have inside : 0 :: nodes.map Prod.fst ⊆ List.range (2 ^ 64) := by
    refine cons_subset.2 ⟨mem_range.2 (by decide), fun addr member => ?_⟩
    rcases List.mem_map.1 member with ⟨node, listed, rfl⟩
    exact mem_range.2 (placed node listed).2
  have bound := (List.Nodup.subperm (nodup_cons.2 ⟨fresh, distinct⟩) inside).length_le
  rwa [length_range, length_cons, length_map] at bound

variable {links : Node T}

variable {heap : Heap T}

theorem read_ok (alive : heap addr = some links) : read heap addr = .ok links := by
  rw [read, alive]

theorem setPrev_ok (alive : heap addr = some links) (prev : Nat) :
    setPrev heap addr prev = .ok (update heap addr (some { links with prev })) := by
  rw [setPrev, read_ok alive]
  rfl

theorem free_ok (alive : s.heap addr = some links) :
    free s addr = .ok { s with heap := update s.heap addr none, freed := addr :: s.freed } := by
  rw [free, read_ok alive]
  rfl

theorem Shape.fresh (shape : Shape s nodes) (unused : s.heap addr = none) :
    addr ∉ nodes.map Prod.fst := by
  intro member
  rcases List.mem_map.1 member with ⟨node, listed, rfl⟩
  rcases shape.linked.alive node listed with ⟨links, alive, _⟩
  rw [unused] at alive
  cases alive

theorem pushFront_shape (shape : Shape s nodes) (nonnull : addr ≠ 0) (low : addr < 2 ^ 64)
    (unused : s.heap addr = none) (value : T) :
    ∃ s', pushFront s addr value = .ok s' ∧ Shape s' ((addr, value) :: nodes) := by
  have fresh := shape.fresh unused
  have placed : ∀ node ∈ (addr, value) :: nodes, node.1 ≠ 0 ∧ node.1 < 2 ^ 64 :=
    forall_mem_cons.2 ⟨⟨nonnull, low⟩, shape.placed⟩
  have distinct : (((addr, value) :: nodes).map Prod.fst).Nodup :=
    nodup_cons.2 ⟨fresh, shape.distinct⟩
  have accounted : ∀ other, (addr :: s.given).count other =
      s.freed.count other + (((addr, value) :: nodes).map Prod.fst).count other := by
    intro other
    rw [map_cons, count_cons, count_cons, shape.accounted other, add_assoc]
  have counted : sizeT (s.self.len + 1) = ((addr, value) :: nodes).length := by
    rw [shape.len_eq]
    exact sizeT_of_lt (length_lt placed distinct)
  unfold pushFront
  rw [alloc, if_neg nonnull]
  cases nodes with
  | nil =>
    have empty : s.self.head = 0 := shape.head_eq
    refine ⟨⟨⟨addr, addr, sizeT (s.self.len + 1)⟩, update s.heap addr (some ⟨value, 0, s.self.head⟩),
      addr :: s.given, s.freed⟩, ?_, ⟨?_, trivial⟩, rfl, rfl, counted, placed, distinct,
      accounted⟩
    · exact if_neg (fun differs => differs empty)
    · rw [empty]
      exact update_same _ _ _
  | cons first rest =>
    -- the old head is another node than the new one, which its `prev` comes to point to
    have head : s.self.head = first.1 := shape.head_eq
    have present := (shape.placed first (.head _)).1
    have apart : first.1 ≠ addr := fun same => fresh (same ▸ (.head _))
    have alive := shape.linked.1
    rw [← update_other s.heap (some ⟨value, 0, s.self.head⟩) apart] at alive
    refine ⟨⟨⟨addr, s.self.tail, sizeT (s.self.len + 1)⟩,
      update (update s.heap addr (some ⟨value, 0, s.self.head⟩)) first.1
        (some ⟨first.2, addr, firstOf 0 rest⟩), addr :: s.given, s.freed⟩, ?_,
      ⟨?_, update_same _ _ _, ?_⟩, rfl, shape.tail_eq, counted, placed, distinct, accounted⟩
    · change (if s.self.head ≠ 0 then (setPrev _ s.self.head addr >>= _) else _) = _
      rw [head, if_pos present, ← head, head, setPrev_ok (head ▸ alive)]
      rfl
    · refine (update_other _ _ apart.symm).trans ((update_same _ _ _).trans ?_)
      rw [head]
      rfl
    · rcases nodup_cons.1 shape.distinct with ⟨elsewhere, _⟩
      exact (shape.linked.2.update _ fun member => fresh (.tail _ member)).update _
        elsewhere

theorem popFront_shape (shape : Shape s (node :: rest)) :
    ∃ s', popFront s = .ok (node.2, s') ∧ Shape s' rest := by
  have head : s.self.head = node.1 := shape.head_eq
  have alive := shape.linked.1
  rcases nodup_cons.1 shape.distinct with ⟨elsewhere, distinct⟩
  have placed := (forall_mem_cons.1 shape.placed).2
  have accounted : ∀ addr, s.given.count addr =
      (node.1 :: s.freed).count addr + (rest.map Prod.fst).count addr := by
    intro addr
    rw [shape.accounted addr, map_cons, count_cons, count_cons]
    omega
  have counted : subT s.self.len 1 = rest.length := by
    rw [shape.len_eq, length_cons, subT_of_le (Nat.le_add_left 1 _)]
    rfl
  unfold popFront
  rw [head, read_ok alive]
  cases rest with
  | nil =>
    refine ⟨⟨⟨0, 0, subT s.self.len 1⟩, update s.heap node.1 none, s.given, node.1 :: s.freed⟩, ?_,
      trivial, rfl, rfl, counted, placed, distinct, accounted⟩
    change (read s.heap node.1 >>= _) = _
    rw [read_ok alive]
    change (free ⟨⟨0, 0, subT s.self.len 1⟩, s.heap, s.given, s.freed⟩ node.1 >>= _) = _
    rw [free, read_ok alive]
    rfl
  | cons next rest =>
    -- the next node has no `prev` any more before the head is freed
    have present := (placed next (.head _)).1
    have apart : next.1 ≠ node.1 := fun same => elsewhere (same ▸ (.head _))
    have unlinked := setPrev_ok shape.linked.2.1 0
    have kept : update s.heap next.1 (some ⟨next.2, 0, firstOf 0 rest⟩) node.1 = _ :=
      (update_other s.heap _ apart.symm).trans alive
    refine ⟨⟨⟨next.1, s.self.tail, subT s.self.len 1⟩,
      update (update s.heap next.1 (some ⟨next.2, 0, firstOf 0 rest⟩)) node.1 none, s.given,
      node.1 :: s.freed⟩, ?_, ⟨?_, ?_⟩, rfl, shape.tail_eq, counted, placed, distinct, accounted⟩
    · change (dropHead s next.1 >>= _) = _
      rw [dropHead, if_pos present, unlinked]
      change (read _ node.1 >>= _) = _
      rw [read_ok kept]
      change (free _ node.1 >>= _) = _
      rw [free_ok kept]
      rfl
    · exact (update_other _ _ apart).trans (update_same _ _ _)
    · rcases nodup_cons.1 distinct with ⟨other, _⟩
      exact (shape.linked.2.2.update _ other).update _ fun member =>
        elsewhere (.tail _ member)

theorem of_map_ok {A B : Type} {result : Except Stop A} {f : A → B} {out : B}
    (mapped : result.map f = .ok out) : ∃ a, result = .ok a ∧ f a = out := by
  cases result with
  | error stop => cases mapped
  | ok a => exact ⟨a, rfl, Except.ok.inj mapped⟩

theorem pushBack_shape (shape : Shape s nodes) (nonnull : addr ≠ 0) (low : addr < 2 ^ 64)
    (unused : s.heap addr = none) (value : T) :
    ∃ s', pushBack s addr value = .ok s' ∧ Shape s' (nodes ++ [(addr, value)]) := by
  have turned : s.turn.heap addr = none := by
    change turn s.heap addr = none
    rw [turn, unused, Option.map_none]
  rcases pushFront_shape shape.turn nonnull low turned value with ⟨back, pushed, shaped⟩
  rw [pushFront_turn] at pushed
  rcases of_map_ok pushed with ⟨s', done, rfl⟩
  have whole := shaped.turn
  rw [turn_turn, reverse_cons, reverse_reverse] at whole
  exact ⟨s', done, whole⟩

theorem popBack_shape (shape : Shape s (rest ++ [node])) :
    ∃ s', popBack s = .ok (node.2, s') ∧ Shape s' rest := by
  have turned := shape.turn
  rw [reverse_append, reverse_singleton, singleton_append] at turned
  rcases popFront_shape turned with ⟨back, popped, shaped⟩
  rw [popFront_turn] at popped
  rcases of_map_ok popped with ⟨⟨val, s'⟩, done, same⟩
  cases same
  have whole := shaped.turn
  rw [turn_turn, reverse_reverse] at whole
  exact ⟨s', done, whole⟩

theorem freeAll_ok {before : Nat} (linked : Linked s.heap before nodes 0)
    (placed : ∀ node ∈ nodes, node.1 ≠ 0 ∧ node.1 < 2 ^ 64) (distinct : (nodes.map Prod.fst).Nodup) :
    ∃ heap, freeAll nodes.length (firstOf 0 nodes) s =
        .ok { s with heap, freed := (nodes.map Prod.fst).reverse ++ s.freed } ∧
      (∀ addr, heap addr = if addr ∈ nodes.map Prod.fst then none else s.heap addr) := by
  induction nodes generalizing before s with
  | nil => exact ⟨s.heap, rfl, fun addr => (if_neg not_mem_nil).symm⟩
  | cons node rest ih =>
    rcases nodup_cons.1 distinct with ⟨elsewhere, distinct⟩
    rcases forall_mem_cons.1 placed with ⟨here, placed⟩
    rcases @ih { s with heap := update s.heap node.1 none, freed := node.1 :: s.freed } node.1
      (linked.2.update none elsewhere) placed distinct with ⟨heap, ended, dead⟩
    refine ⟨heap, ?_, fun addr => ?_⟩
    · rw [firstOf, length_cons, freeAll, if_neg here.1, read_ok linked.1]
      change (free s node.1 >>= _) = _
      rw [free_ok linked.1, map_cons, reverse_cons, append_assoc]
      exact ended
    · rw [dead addr, map_cons]
      by_cases same : addr = node.1
      · rw [same, if_neg elsewhere, if_pos mem_cons_self]
        exact update_same _ _ _
      · simp only [mem_cons, same, false_or]
        split
        · rfl
        · exact update_other _ _ same

theorem clear_shape (shape : Shape s nodes) :
    ∃ s', clear s = .ok s' ∧ Shape s' [] ∧ s'.given = s.given ∧
      s'.freed = (nodes.map Prod.fst).reverse ++ s.freed ∧
      ∀ addr, s'.heap addr = if addr ∈ nodes.map Prod.fst then none else s.heap addr := by
  rcases freeAll_ok shape.linked shape.placed shape.distinct with ⟨heap, ended, dead⟩
  refine ⟨⟨⟨0, 0, 0⟩, heap, s.given, (nodes.map Prod.fst).reverse ++ s.freed⟩, ?_, ⟨trivial, rfl,
    rfl, rfl, nofun, nodup_nil, fun addr => ?_⟩, rfl,
    rfl, dead⟩
  · rw [clear, shape.head_eq, shape.len_eq, ended]
    rfl
  · change s.given.count addr = ((nodes.map Prod.fst).reverse ++ s.freed).count addr + 0
    rw [count_append, count_reverse, shape.accounted addr, add_comm]
    rfl

end Steps

inductive Call (T : Type) where
  | pushFront (value : T) (addr : Nat)
  | pushBack (value : T) (addr : Nat)
  | popFront
  | popBack
  | clear

inductive Reply (T : Type) where
  | done
  | value (val : T)
  | stopped (stop : Stop)

def perform (s : State T) : Call T → Except Stop (Reply T × State T)
  | .pushFront value addr => (pushFront s addr value).map fun s => (.done, s)
  | .pushBack value addr => (pushBack s addr value).map fun s => (.done, s)
  | .popFront => (popFront s).map fun popped => (.value popped.1, popped.2)
  | .popBack => (popBack s).map fun popped => (.value popped.1, popped.2)
  | .clear => (clear s).map fun s => (.done, s)

def step : Except Stop (State T) → Call T → Except Stop (State T) × Reply T
  | .error stop, _ => (.error stop, .stopped stop)
  | .ok s, call =>
    match perform s call with
    | .ok (reply, s) => (.ok s, reply)
    | .error stop => (.error stop, .stopped stop)

/-- malloc has refused the node that the call asks for. -/
def Refused : Call T → Prop
  | .pushFront _ addr | .pushBack _ addr => addr = 0
  | _ => False

instance : DecidablePred (@Refused T)
  | .pushFront _ addr | .pushBack _ addr => inferInstanceAs (Decidable (addr = 0))
  | .popFront | .popBack | .clear => .isFalse id

def after (values : List T) : Call T → List T
  | .pushFront value _ => value :: values
  | .pushBack value _ => values ++ [value]
  | .popFront => values.tail
  | .popBack => values.dropLast
  | .clear => []

def Answers (values : List T) (call : Call T) (reply : Reply T) : Prop :=
  match call with
  | .popFront => ∃ val, values.head? = some val ∧ reply = .value val
  | .popBack => ∃ val, values.getLast? = some val ∧ reply = .value val
  | _ => reply = .done

/-- The mathematical deque of a process that has not ended. -/
def deque : Refinement.Spec (Call T) (Reply T) (Option (List T)) where
  next
    | none, _ => none
    | some values, call => if Refused call then none else some (after values call)
  answers
    | none, _, reply => reply = .stopped .exits
    | some values, call, reply =>
      (Refused call ∧ reply = .stopped .exits) ∨ (¬Refused call ∧ Answers values call reply)

/-- malloc answers null or the address of memory that is not in use; lists popped from have
elements. -/
def Allowed : Except Stop (State T) → Call T → Prop
  | .error _, _ => True
  | .ok s, .pushFront _ addr => addr = 0 ∨ (addr < 2 ^ 64 ∧ s.heap addr = none)
  | .ok s, .pushBack _ addr => addr = 0 ∨ (addr < 2 ^ 64 ∧ s.heap addr = none)
  | .ok s, .popFront => 0 < s.self.len
  | .ok s, .popBack => 0 < s.self.len
  | .ok _, .clear => True

instance : ∀ (machine : Except Stop (State T)) call, Decidable (Allowed machine call)
  | .error _, _ => .isTrue trivial
  | .ok s, .pushFront _ addr =>
    inferInstanceAs (Decidable (addr = 0 ∨ (addr < 2 ^ 64 ∧ s.heap addr = none)))
  | .ok s, .pushBack _ addr =>
    inferInstanceAs (Decidable (addr = 0 ∨ (addr < 2 ^ 64 ∧ s.heap addr = none)))
  | .ok s, .popFront => inferInstanceAs (Decidable (0 < s.self.len))
  | .ok s, .popBack => inferInstanceAs (Decidable (0 < s.self.len))
  | .ok _, .clear => .isTrue trivial

/-- Both ways lead through the same nodes, these hold the values, and a node that was given to
the list is on it or has been freed, once for each time it was given. -/
structure Represents (s : State T) (nodes : List Nat) (values : List T) : Prop where
  forward : follow Node.next s.heap s.self.len s.self.head = some nodes
  backward : follow Node.prev s.heap s.self.len s.self.tail = some nodes.reverse
  stored : nodes.map (fun addr => (s.heap addr).map Node.value) = values.map some
  length_eq : nodes.length = s.self.len
  head_null : s.self.head = 0 ↔ s.self.len = 0
  tail_null : s.self.tail = 0 ↔ s.self.len = 0
  distinct : nodes.Nodup
  accounted : ∀ addr, s.given.count addr = s.freed.count addr + nodes.count addr
  unreachable : ∀ addr, s.freed.count addr = s.given.count addr → addr ∉ nodes

def Frees (run : State T → Except Stop (State T)) (s : State T) (nodes : List Nat) : Prop :=
  ∃ s', run s = .ok s' ∧ s'.freed = nodes.reverse ++ s.freed ∧
    ∀ addr, s'.heap addr = if addr ∈ nodes then none else s.heap addr

/-- The process runs just as long as the mathematical one, and then its list stores the values. -/
def Stores : Except Stop (State T) → Option (List T) → Prop
  | .ok s, some values =>
    ∃ nodes, Represents s nodes values ∧ Frees clear s nodes ∧ Frees drop s nodes
  | .error stop, none => stop = .exits
  | _, _ => False

def Shaped : Except Stop (State T) → Option (List T) → Prop
  | .ok s, some values => ∃ nodes, Shape s nodes ∧ nodes.map Prod.snd = values
  | .error stop, none => stop = .exits
  | _, _ => False

variable {nodes : List (Nat × T)}

theorem firstOf_null (placed : ∀ node ∈ nodes, node.1 ≠ 0 ∧ node.1 < 2 ^ 64) :
    firstOf 0 nodes = 0 ↔ nodes.length = 0 := by
  cases nodes with
  | nil => exact iff_of_true rfl rfl
  | cons node rest => exact iff_of_false (placed node (.head _)).1 (Nat.succ_ne_zero _)

variable {s : State T}

theorem Shape.represents (shape : Shape s nodes) :
    Represents s (nodes.map Prod.fst) (nodes.map Prod.snd) where
  forward := by
    rw [shape.head_eq, shape.len_eq]
    exact shape.linked.follow_next fun node member => (shape.placed node member).1
  backward := by
    rw [shape.tail_eq, shape.len_eq]
    exact shape.linked.follow_prev fun node member => (shape.placed node member).1
  stored := by
    rw [List.map_map, List.map_map]
    refine map_congr_left fun node member => ?_
    rcases shape.linked.alive node member with ⟨links, alive, value⟩
    rw [Function.comp_apply, Function.comp_apply, alive, Option.map_some, value]
  length_eq := by rw [length_map, shape.len_eq]
  head_null := by
    rw [shape.head_eq, shape.len_eq]
    exact firstOf_null shape.placed
  tail_null := by
    have turned := firstOf_null shape.turn.placed
    rw [← lastOf_eq_firstOf, length_reverse] at turned
    rw [shape.tail_eq, shape.len_eq]
    exact turned
  distinct := shape.distinct
  accounted := shape.accounted
  unreachable addr balanced member := by
    have given := shape.accounted addr
    have listed := count_pos_iff.2 member
    omega

theorem stores_of_shaped : ∀ {machine} {values : Option (List T)},
    Shaped machine values → Stores machine values
  | .error _, none, stopped => stopped
  | .error _, some _, shaped | .ok _, none, shaped => shaped
  | .ok s, some _, shaped => by
    rcases shaped with ⟨nodes, shape, rfl⟩
    rcases clear_shape shape with ⟨s', cleared, _, _, freed, dead⟩
    rcases freeAll_ok shape.linked shape.placed shape.distinct with ⟨heap, ended, left⟩
    have dropped : Frees drop s (nodes.map Prod.fst) := by
      refine ⟨⟨s.self, heap, s.given, (nodes.map Prod.fst).reverse ++ s.freed⟩, ?_, rfl, left⟩
      rw [drop, shape.len_eq, shape.head_eq, ended]
    exact ⟨nodes.map Prod.fst, shape.represents, ⟨s', cleared, freed, dead⟩, dropped⟩

theorem perform_shape {call : Call T} (shape : Shape s nodes)
    (allowed : Allowed (.ok s) call) : (Refused call ∧ perform s call = .error .exits) ∨
      (¬Refused call ∧ ∃ reply s' nodes', perform s call = .ok (reply, s') ∧
        Answers (nodes.map Prod.snd) call reply ∧ Shape s' nodes' ∧
          nodes'.map Prod.snd = after (nodes.map Prod.snd) call) := by
  cases call with
  | pushFront value addr =>
    by_cases null : addr = 0
    · exact .inl ⟨null, by rw [perform, null]; rfl⟩
    · rcases allowed.resolve_left null with ⟨low, unused⟩
      rcases pushFront_shape shape null low unused value with ⟨s', done, shaped⟩
      exact .inr ⟨null, .done, s', _, by rw [perform, done]; rfl, rfl, shaped, rfl⟩
  | pushBack value addr =>
    by_cases null : addr = 0
    · exact .inl ⟨null, by rw [perform, null]; rfl⟩
    · rcases allowed.resolve_left null with ⟨low, unused⟩
      rcases pushBack_shape shape null low unused value with ⟨s', done, shaped⟩
      exact .inr ⟨null, .done, s', _, by rw [perform, done]; rfl, rfl, shaped, map_append⟩
  | popFront =>
    have nonempty : 0 < nodes.length := shape.len_eq ▸ allowed
    rcases exists_cons_of_length_pos nonempty with ⟨node, rest, rfl⟩
    rcases popFront_shape shape with ⟨s', done, shaped⟩
    exact .inr ⟨id, .value node.2, s', _, by rw [perform, done]; rfl, ⟨node.2, rfl, rfl⟩, shaped,
      rfl⟩
  | popBack =>
    have nonempty : nodes ≠ [] := ne_nil_of_length_pos (shape.len_eq ▸ allowed)
    rcases eq_nil_or_concat nodes with empty | ⟨rest, node, rfl⟩
    · exact absurd empty nonempty
    · rw [concat_eq_append] at shape ⊢
      rcases popBack_shape shape with ⟨s', done, shaped⟩
      refine .inr ⟨id, .value node.2, s', _, by rw [perform, done]; rfl, ⟨node.2, ?_, rfl⟩,
        shaped, ?_⟩
      · rw [map_append, map_singleton, getLast?_concat]
      · change _ = (List.map Prod.snd (rest ++ [node])).dropLast
        rw [map_append, map_singleton, dropLast_concat]
  | clear =>
    rcases clear_shape shape with ⟨s', done, shaped, _⟩
    exact .inr ⟨id, .done, s', [], by rw [perform, done]; rfl, rfl, shaped, rfl⟩

theorem step_simulates : Refinement.Simulation deque step (@Allowed T) Shaped := by
  rintro (stop | s) (_ | values) call shaped allowed
  · obtain rfl : stop = .exits := shaped
    exact ⟨rfl, rfl⟩
  · exact absurd shaped id
  · exact absurd shaped id
  · rcases shaped with ⟨nodes, shape, rfl⟩
    rcases perform_shape shape allowed with
      ⟨refused, stopped⟩ | ⟨served, reply, s', nodes', done, answers, shaped, same⟩
    · rw [step, stopped]
      refine ⟨.inl ⟨refused, rfl⟩, ?_⟩
      change Shaped (.error .exits) (if Refused call then none else _)
      rw [if_pos refused]
      rfl
    · rw [step, done]
      refine ⟨.inr ⟨served, answers⟩, ?_⟩
      change Shaped (.ok s') (if Refused call then none else some (after _ call))
      rw [if_neg served]
      exact ⟨nodes', shaped, same⟩

/-- A run of calls on a new list is one of the mathematical deque, and so is each state that it
reaches, whatever else is on the heap and wherever malloc puts the nodes; the process ends
where malloc refuses a node, and nowhere else. -/
theorem list_runs_refine (heap : Heap T) (calls : List (Call T))
    (allowed : Refinement.Guarded Allowed step (.ok (new heap)) calls) :
    Refinement.Agrees deque step (.ok (new heap)) (some []) calls ∧
      ∀ front, front <+: calls →
        Stores (Refinement.run step (.ok (new heap)) front)
          (front.foldl deque.next (some [])) := by
  have started : Shaped (.ok (new heap)) (some []) :=
    ⟨[], ⟨trivial, rfl, rfl, rfl, nofun, nodup_nil, fun _ => rfl⟩, rfl⟩
  refine ⟨Refinement.agrees_of_simulation step_simulates calls _ _ started allowed, ?_⟩
  intro front begins
  exact stores_of_shaped (Refinement.related_of_simulation step_simulates front _ _ started
    (Refinement.guarded_prefix allowed begins))

/-- An address is freed, given again and freed again. -/
theorem list_runs_refine_reused :
    Refinement.Agrees deque step (.ok (new fun _ => none)) (some [])
        [.pushFront 1 8, .pushBack 2 16, .popFront, .pushBack 3 8, .popBack, .popBack, .clear] ∧
      ∀ front, front <+: [.pushFront 1 8, .pushBack 2 16, .popFront, .pushBack 3 8, .popBack,
          .popBack, .clear] →
        Stores (Refinement.run step (.ok (new fun _ => none)) front)
          (front.foldl deque.next (some ([] : List Nat))) :=
  list_runs_refine _ _ (by decide)

end LinkedList

end Lucis
