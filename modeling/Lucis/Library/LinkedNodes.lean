import Mathlib.Data.List.Basic
import Mathlib.Data.Option.Basic

/-!
Nodes on a heap with links both ways. A heap turned round has the two links of every node
exchanged: what holds of a list from its front holds of the turned heap from its back.
-/

namespace LinkedNodes

open List Option

universe u

variable {Value : Type u}

structure Node (Value : Type u) where
  value : Value
  prev : Nat
  next : Nat

abbrev Heap (Value : Type u) := Nat → Option (Node Value)

def Node.turn (node : Node Value) : Node Value := ⟨node.value, node.next, node.prev⟩

def turn (heap : Heap Value) : Heap Value := fun addr => (heap addr).map Node.turn

def update (heap : Heap Value) (addr : Nat) (node : Option (Node Value)) : Heap Value :=
  fun other => if other = addr then node else heap other

def firstOf (stop : Nat) : List (Nat × Value) → Nat
  | [] => stop
  | node :: _ => node.1

def lastOf (start : Nat) : List (Nat × Value) → Nat
  | [] => start
  | node :: rest => lastOf node.1 rest

/-- The nodes stand one behind the other, each linked to its neighbours on both sides. -/
def Linked (heap : Heap Value) : Nat → List (Nat × Value) → Nat → Prop
  | _, [], _ => True
  | before, node :: rest, after =>
    heap node.1 = some ⟨node.2, before, firstOf after rest⟩ ∧ Linked heap node.1 rest after

/-- The addresses met on the way along one link to null; `none` at a node that is not alive and
when the way is longer than `fuel`. -/
def follow (link : Node Value → Nat) (heap : Heap Value) : Nat → Nat → Option (List Nat)
  | 0, addr => if addr = 0 then some [] else none
  | fuel + 1, addr =>
    if addr = 0 then some []
    else (heap addr).bind fun node => (follow link heap fuel (link node)).map (addr :: ·)

variable {heap heap' : Heap Value} {before after addr : Nat} {node : Option (Node Value)}
  {front back nodes : List (Nat × Value)}

@[simp] theorem turn_turn (heap : Heap Value) : turn (turn heap) = heap := by
  funext addr
  rw [turn, turn, Option.map_map]
  cases heap addr <;> rfl

@[simp] theorem update_same (heap : Heap Value) (addr : Nat) (node : Option (Node Value)) :
    update heap addr node addr = node := if_pos rfl

theorem update_other (heap : Heap Value) (node : Option (Node Value)) {other : Nat}
    (differs : other ≠ addr) : update heap addr node other = heap other := if_neg differs

theorem turn_update (heap : Heap Value) (addr : Nat) (node : Option (Node Value)) :
    turn (update heap addr node) = update (turn heap) addr (node.map Node.turn) := by
  funext other
  simp only [turn, update]
  split <;> rfl

theorem firstOf_append (stop : Nat) (front back : List (Nat × Value)) :
    firstOf stop (front ++ back) = firstOf (firstOf stop back) front := by
  cases front <;> rfl

@[simp] theorem lastOf_concat (start : Nat) (front : List (Nat × Value)) (node : Nat × Value) :
    lastOf start (front ++ [node]) = node.1 := by
  induction front generalizing start with
  | nil => rfl
  | cons first _ ih => exact ih first.1

theorem lastOf_eq_firstOf (start : Nat) (nodes : List (Nat × Value)) :
    lastOf start nodes = firstOf start nodes.reverse := by
  rcases eq_nil_or_concat nodes with rfl | ⟨front, node, rfl⟩
  · rfl
  · rw [concat_eq_append, lastOf_concat, reverse_append]
    rfl

theorem linked_append : Linked heap before (front ++ back) after ↔
    Linked heap before front (firstOf after back) ∧ Linked heap (lastOf before front) back after := by
  induction front generalizing before with
  | nil => simp [Linked, lastOf]
  | cons node front ih =>
    simp only [cons_append, Linked, ih, firstOf_append, lastOf, and_assoc]

variable (linked : Linked heap before nodes after)
include linked

theorem Linked.kept
    (same : ∀ node ∈ nodes, heap' node.1 = heap node.1) : Linked heap' before nodes after := by
  induction nodes generalizing before with
  | nil => trivial
  | cons node rest ih =>
    refine ⟨(same node (.head _)).trans linked.1, ih linked.2 fun other member => ?_⟩
    exact same other (mem_cons_of_mem node member)

theorem Linked.update (node : Option (Node Value))
    (apart : addr ∉ nodes.map Prod.fst) : Linked (update heap addr node) before nodes after := by
  refine linked.kept fun other member => update_other heap node fun same => apart ?_
  exact same ▸ List.mem_map_of_mem member

theorem Linked.turn :
    Linked (turn heap) after nodes.reverse before := by
  induction nodes generalizing before with
  | nil => trivial
  | cons node rest ih =>
    rw [reverse_cons, linked_append]
    refine ⟨ih linked.2, ?_, trivial⟩
    rw [lastOf_eq_firstOf, reverse_reverse, LinkedNodes.turn, linked.1]
    rfl

theorem Linked.alive :
    ∀ node ∈ nodes, ∃ links, heap node.1 = some links ∧ links.value = node.2 := by
  induction nodes generalizing before with
  | nil => exact nofun
  | cons node rest ih =>
    exact forall_mem_cons.2 ⟨⟨_, linked.1, rfl⟩, ih linked.2⟩

omit linked

theorem Linked.follow_next (linked : Linked heap before nodes 0)
    (nonnull : ∀ node ∈ nodes, node.1 ≠ 0) :
    follow Node.next heap nodes.length (firstOf 0 nodes) = some (nodes.map Prod.fst) := by
  induction nodes generalizing before with
  | nil => rfl
  | cons node rest ih =>
    rcases forall_mem_cons.1 nonnull with ⟨here, later⟩
    rw [firstOf, length_cons, follow, if_neg here, linked.1, bind_some,
      ih linked.2 later, map_some, map_cons]

theorem follow_turn (link : Node Value → Nat) (heap : Heap Value) (fuel addr : Nat) :
    follow link (turn heap) fuel addr = follow (fun node => link node.turn) heap fuel addr := by
  induction fuel generalizing addr with
  | zero => rw [follow, follow]
  | succ fuel ih =>
    rw [follow, follow, turn]
    split
    · rfl
    · cases heap addr with
      | none => rfl
      | some node => rw [map_some, bind_some, bind_some, ih]

theorem Linked.follow_prev (linked : Linked heap 0 nodes after)
    (nonnull : ∀ node ∈ nodes, node.1 ≠ 0) : follow Node.prev heap nodes.length (lastOf 0 nodes) =
      some (nodes.map Prod.fst).reverse := by
  have turned := linked.turn.follow_next fun node member =>
    nonnull node (mem_reverse.1 member)
  rw [follow_turn, length_reverse, ← lastOf_eq_firstOf, map_reverse] at turned
  exact turned

end LinkedNodes
