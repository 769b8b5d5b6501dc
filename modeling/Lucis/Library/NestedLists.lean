import Mathlib.Data.List.Basic

/-!
Lists nested to any depth. Such a list is rectangular when the items at each depth are
all lists of one length, or none of them is a list. That is a fact about whole depths;
it comes to a fact about neighbours, the lengths along the chain of first items.
-/

namespace NestedLists

open List

universe u

inductive Nested (α : Type u) where
  | leaf (item : α)
  | node (children : List (Nested α))

namespace Nested

variable {α : Type u}

def children : Nested α → List (Nested α)
  | leaf _ => []
  | node children => children

def isNode : Nested α → Bool
  | leaf _ => false
  | node _ => true

def level : Nat → Nested α → List (Nested α)
  | 0, t => [t]
  | d + 1, t => t.children.flatMap (level d)

def Rectangular (t : Nested α) : Prop :=
  ∀ d, ∀ s ∈ level d t, ∀ u ∈ level d t,
    s.isNode = u.isNode ∧ s.children.length = u.children.length

def spine : Nested α → List Nat
  | leaf _ => []
  | node [] => [0]
  | node (first :: rest) => (rest.length + 1) :: spine first

inductive Uniform : Nested α → Prop where
  | leaf (item : α) : Uniform (leaf item)
  | node {children : List (Nested α)} (each : ∀ c ∈ children, Uniform c)
      (same : ∀ c ∈ children, ∀ e ∈ children, spine c = spine e) : Uniform (node children)

mutual

def depth : Nested α → Nat
  | leaf _ => 0
  | node children => depths children + 1

def depths : List (Nested α) → Nat
  | [] => 0
  | c :: rest => max (depth c) (depths rest)

end

section Levels

theorem level_children {c t : Nested α} (member : c ∈ t.children) {d : Nat} {s : Nested α}
    (below : s ∈ level d c) : s ∈ level (d + 1) t :=
  mem_flatMap.2 ⟨c, member, below⟩

theorem level_succ (d : Nat) (t : Nested α) : level (d + 1) t = (level d t).flatMap children := by
  induction d generalizing t with
  | zero => simp [level]
  | succ d ih =>
    calc
      level (d + 2) t = t.children.flatMap fun c => (level d c).flatMap children := by
        rw [level]
        congr 1
        funext c
        exact ih c
      _ = (level (d + 1) t).flatMap children := by rw [level, flatMap_assoc]

theorem spine_head {s t : Nested α} (same : spine s = spine t) :
    s.isNode = t.isNode ∧ s.children.length = t.children.length := by
  rcases s with _ | ⟨_ | ⟨c, cs⟩⟩ <;> rcases t with _ | ⟨_ | ⟨e, es⟩⟩ <;>
    simp_all [spine, isNode, children]

theorem spine_first {c e : Nested α} {cs es}
    (same : spine (node (c :: cs)) = spine (node (e :: es))) : spine c = spine e := by
  simp only [spine, List.cons.injEq] at same
  exact same.2

def Alike (s t : Nested α) : Prop :=
  ∀ d, ∀ x ∈ level d s, ∀ y ∈ level d t,
    x.isNode = y.isNode ∧ x.children.length = y.children.length

theorem spine_of_alike (s t : Nested α) (alike : Alike s t) : spine s = spine t := by
  have here := alike 0 s (mem_singleton_self s) t (mem_singleton_self t)
  match s, t with
  | .leaf _, .leaf _ => rfl
  | .leaf _, .node _ => simp [isNode] at here
  | .node _, .leaf _ => simp [isNode] at here
  | .node [], .node es =>
    have none : es = [] := by simpa [children, eq_comm] using here.2
    rw [none]
  | .node (c :: cs), .node [] => simp [children] at here
  | .node (c :: cs), .node (e :: es) =>
    have first : Alike c e := fun d x below y below' =>
      alike (d + 1) x (level_children (.head _) below)
        y (level_children (.head _) below')
    have length : cs.length = es.length := by simpa [children] using here.2
    rw [spine, spine, spine_of_alike c e first, length]

theorem uniform_of_rectangular (t : Nested α) (rectangular : Rectangular t) : Uniform t := by
  match t with
  | .leaf item => exact .leaf item
  | .node cs =>
    have below : ∀ c ∈ cs, ∀ e ∈ cs, Alike c e := fun c member e member' d x inside y inside' =>
      rectangular (d + 1) x (level_children member inside) y (level_children member' inside')
    constructor
    · intro c member
      exact uniform_of_rectangular c (below c member c member)
    · intro c member e member'
      exact spine_of_alike c e (below c member e member')

theorem Uniform.level {t : Nested α} (uniform : Uniform t) (d : Nat) :
    (∀ s ∈ level d t, Uniform s) ∧ ∀ s ∈ level d t, ∀ u ∈ level d t, spine s = spine u := by
  induction d with
  | zero =>
    constructor
    · intro s member
      exact mem_singleton.1 member ▸ uniform
    · intro s member u member'
      rw [mem_singleton.1 member, mem_singleton.1 member']
  | succ d ih =>
    rw [level_succ]
    -- the items here are the children of those one depth up
    have inner : ∀ {p : Nested α}, p ∈ Nested.level d t → ∀ s ∈ p.children, Uniform s ∧
        ∀ u ∈ p.children, spine s = spine u := by
      intro p there s child
      cases ih.1 p there with
      | leaf item => cases child
      | node each same => exact ⟨each s child, fun u child' => same s child u child'⟩
    constructor
    · intro s member
      rcases mem_flatMap.1 member with ⟨p, there, child⟩
      exact (inner there s child).1
    · intro s member u member'
      rcases mem_flatMap.1 member with ⟨p, there, child⟩
      rcases mem_flatMap.1 member' with ⟨q, there', child'⟩
      have parents := ih.2 p there q there'
      rcases p with _ | ⟨_ | ⟨c, cs⟩⟩
      · cases child
      · cases child
      · rcases q with _ | ⟨_ | ⟨e, es⟩⟩
        · cases child'
        · cases child'
        · -- by way of the first children
          calc
            spine s = spine c := (inner there s child).2 c (.head _)
            _ = spine e := spine_first parents
            _ = spine u := (inner there' e (.head _)).2 u child'

theorem rectangular_iff_uniform (t : Nested α) : Rectangular t ↔ Uniform t := by
  constructor
  · exact uniform_of_rectangular t
  · intro uniform d s member u member'
    exact spine_head ((uniform.level d).2 s member u member')

end Levels

section Depths

theorem depths_same {children : List (Nested α)} {n : Nat} (some : children ≠ [])
    (same : ∀ c ∈ children, depth c = n) : depths children = n := by
  induction children with
  | nil => exact absurd rfl some
  | cons c rest ih =>
    rw [depths, same c mem_cons_self]
    by_cases last : rest = []
    · rw [last, depths, Nat.max_zero]
    · rw [ih last fun e member => same e (mem_cons_of_mem _ member), Nat.max_self]

variable {t : Nested α}

theorem Uniform.depth_eq (uniform : Uniform t) : depth t = (spine t).length := by
  induction uniform with
  | leaf item => rw [depth, spine, length_nil]
  | @node children each same ih =>
    rcases children with _ | ⟨first, rest⟩
    · simp [depth, depths, spine]
    · have all : ∀ c ∈ first :: rest, depth c = (spine first).length := by
        intro c member
        rw [ih c member, same c member first mem_cons_self]
      rw [depth, depths_same (cons_ne_nil _ _) all, spine, length_cons]

theorem Uniform.spine_length (uniform : Uniform t) {d : Nat} {s : Nested α}
    (member : s ∈ Nested.level d t) : (spine t).length = d + (spine s).length := by
  induction d generalizing t with
  | zero => rw [mem_singleton.mp member, Nat.zero_add]
  | succ d ih =>
    rcases mem_flatMap.1 member with ⟨c, child, below⟩
    cases uniform with
    | leaf item => cases child
    | @node children each same =>
      rcases children with _ | ⟨first, rest⟩
      · cases child
      · have along := ih (each c child) below
        rw [spine, length_cons, same first mem_cons_self c child, along]
        omega

theorem Uniform.leaf_depth (uniform : Uniform t) {d : Nat} {item : α}
    (member : Nested.leaf item ∈ Nested.level d t) : depth t = d := by
  rw [uniform.depth_eq, uniform.spine_length member, spine, length_nil, Nat.add_zero]

end Depths

end Nested

end NestedLists
