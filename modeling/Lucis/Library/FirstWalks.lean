import Mathlib.Data.List.Nodup
import Mathlib.Data.List.Pairwise

/-!
The order in which a breadth-first search comes to the nodes of a graph whose edges
leave a node at numbered positions. A walk lists the positions taken, the last one
first. Shorter walks come before longer ones, and among equally long ones those that
take earlier positions, compared from the start on; a search that goes through
positions in order and queues a node when it first meets it finds every node by the
first walk that leads there.
-/

namespace FirstWalks

open List

abbrev Walk := List Nat

def Before : Walk → Walk → Prop
  | _, [] => False
  | [], _ :: _ => True
  | j :: first, k :: second => Before first second ∨ (first = second ∧ j < k)

@[simp] theorem before_nil (walk : Walk) : ¬ Before walk [] := by
  cases walk <;> exact id

variable {walk : Walk}

theorem nil_before (nonempty : walk ≠ []) : Before [] walk := by
  cases walk with
  | nil => exact absurd rfl nonempty
  | cons => trivial

theorem Before.irrefl (walk : Walk) : ¬ Before walk walk := by
  induction walk with
  | nil => exact id
  | cons j walk ih =>
    rintro (earlier | ⟨_, less⟩)
    · exact ih earlier
    · exact Nat.lt_irrefl j less

theorem Before.trans {first second third : Walk} (left : Before first second)
    (right : Before second third) : Before first third := by
  induction third generalizing first second with
  | nil => exact absurd right (before_nil _)
  | cons l third ih =>
    cases second with
    | nil => exact absurd left (before_nil _)
    | cons k second =>
      cases first with
      | nil => trivial
      | cons j first =>
        rcases left with left | ⟨rfl, less⟩
        · rcases right with right | ⟨rfl, _⟩
          · exact .inl (ih left right)
          · exact .inl left
        · rcases right with right | ⟨rfl, more⟩
          · exact .inl right
          · exact .inr ⟨rfl, Nat.lt_trans less more⟩

theorem Before.trichotomy (first second : Walk) :
    Before first second ∨ first = second ∨ Before second first := by
  induction first generalizing second with
  | nil =>
    cases second with
    | nil => exact .inr (.inl rfl)
    | cons => exact .inl trivial
  | cons j first ih =>
    cases second with
    | nil => exact .inr (.inr trivial)
    | cons k second =>
      rcases ih second with earlier | rfl | later
      · exact .inl (.inl earlier)
      · rcases Nat.lt_trichotomy j k with less | rfl | more
        · exact .inl (.inr ⟨rfl, less⟩)
        · exact .inr (.inl rfl)
        · exact .inr (.inr (.inr ⟨rfl, more⟩))
      · exact .inr (.inr (.inl later))

theorem before_longer (walk : Walk) (k : Nat) : Before walk (k :: walk) := by
  induction walk generalizing k with
  | nil => trivial
  | cons j walk ih => exact .inl (ih j)

universe u

variable {Node : Type u} (next : Node → Nat → Option Node) (start : Node)

/-- The node a walk from `start` leads to; an edge may be missing. -/
def arrives : Walk → Option Node
  | [] => some start
  | j :: walk => (arrives walk).bind fun node => next node j

def First (node : Node) (walk : Walk) : Prop :=
  arrives next start walk = some node ∧
    ∀ other, arrives next start other = some node → ¬ Before other walk

variable {node : Node}

theorem First.unique {other : Walk} (first : First next start node walk)
    (second : First next start node other) : walk = other := by
  rcases Before.trichotomy walk other with earlier | same | later
  · exact absurd earlier (second.2 walk first.1)
  · exact same
  · exact absurd later (first.2 other second.1)

/-- A search at position `k` of the node `here`: the nodes of `past` are done, those of
`ahead` queued, each with the walk it was found by. -/
structure Search (past : List (Node × Walk)) (here : Node × Walk) (k : Nat)
    (ahead : List (Node × Walk)) : Prop where
  found : ∀ entry ∈ past ++ here :: ahead, First next start entry.1 entry.2
  sorted : (past ++ here :: ahead).Pairwise fun entry later => Before entry.2 later.2
  bounded : ∀ entry ∈ past ++ here :: ahead, Before entry.2 (k :: here.2)
  done : ∀ entry ∈ past, ∀ j node, next entry.1 j = some node →
    node ∈ (past ++ here :: ahead).map Prod.fst
  done_here : ∀ j < k, ∀ node, next here.1 j = some node →
    node ∈ (past ++ here :: ahead).map Prod.fst
  started : (start, []) ∈ past ++ [here]

variable {next start} {past ahead : List (Node × Walk)} {here : Node × Walk} {k : Nat}

theorem Search.initial : Search next start [] (start, []) 0 [] := by
  refine ⟨?_, pairwise_singleton _ _, ?_, by simp, by simp, by simp⟩
  · intro entry member
    rw [mem_singleton.1 member]
    exact ⟨rfl, fun other _ => before_nil other⟩
  · intro entry member
    rw [mem_singleton.1 member]
    exact nil_before (cons_ne_nil _ _)

variable (search : Search next start past here k ahead)
include search

theorem Search.earlier_done
    (before : Before walk here.2) (leads : arrives next start walk = some node) :
    ∃ found, (node, found) ∈ past := by
  induction walk generalizing node with
  | nil =>
    rw [arrives, Option.some.injEq] at leads
    rcases mem_append.1 search.started with member | same
    · exact ⟨[], leads ▸ member⟩
    · rw [← mem_singleton.1 same] at before
      exact absurd before (before_nil _)
  | cons j walk ih =>
    have ⟨middle, reached, edge⟩ := Option.bind_eq_some_iff.1 leads
    have ⟨way, through⟩ := ih (Before.trans (before_longer walk j) before) reached
    have known := search.done _ through j node edge
    rw [List.mem_map] at known
    rcases known with ⟨⟨same, found⟩, member, rfl⟩
    have first := search.found _ member
    have behind : ¬ Before here.2 found := by
      intro later
      rcases Before.trichotomy (j :: walk) found with earlier | rfl | later'
      · exact first.2 _ leads earlier
      · exact Before.irrefl _ (Before.trans before later)
      · exact Before.irrefl _ (Before.trans before (Before.trans later later'))
    have not_here : found ≠ here.2 := by
      rintro rfl
      exact first.2 _ leads before
    -- a walk before the one in hand stands before it in the sorted list
    rcases mem_append.1 member with past_member | rest
    · exact ⟨found, past_member⟩
    · rcases mem_cons.1 rest with same_entry | ahead_member
      · exact absurd (congrArg Prod.snd same_entry) not_here
      · have tail := (pairwise_append.1 search.sorted).2.1
        exact absurd ((pairwise_cons.1 tail).1 _ ahead_member) behind

theorem Search.earlier_found (before : Before walk (k :: here.2))
    (leads : arrives next start walk = some node) :
    node ∈ (past ++ here :: ahead).map Prod.fst := by
  cases walk with
  | nil =>
    rw [arrives, Option.some.injEq] at leads
    rw [← leads]
    refine List.mem_map.2 ⟨(start, []), ?_, rfl⟩
    rcases mem_append.1 search.started with member | same
    · exact mem_append_left _ member
    · rw [mem_singleton.1 same]
      simp
  | cons j walk =>
    have ⟨middle, reached, edge⟩ := Option.bind_eq_some_iff.1 leads
    rcases before with earlier | ⟨rfl, less⟩
    · have ⟨_, through⟩ := search.earlier_done earlier reached
      exact search.done _ through j node edge
    · have at_here := (search.found here (by simp)).1
      rw [at_here, Option.some.injEq] at reached
      exact search.done_here j less node (reached ▸ edge)

theorem Search.skip
    (known : ∀ node, next here.1 k = some node → node ∈ (past ++ here :: ahead).map Prod.fst) :
    Search next start past here (k + 1) ahead := by
  refine ⟨search.found, search.sorted, fun entry member => ?_, search.done, ?_, search.started⟩
  · exact Before.trans (search.bounded entry member) (.inr ⟨rfl, Nat.lt_succ_self k⟩)
  · intro j less node edge
    rcases Nat.lt_succ_iff_lt_or_eq.1 less with earlier | rfl
    · exact search.done_here j earlier node edge
    · exact known node edge

theorem Search.push (edge : next here.1 k = some node)
    (fresh : node ∉ (past ++ here :: ahead).map Prod.fst) :
    Search next start past here (k + 1) (ahead ++ [(node, k :: here.2)]) := by
  have split : past ++ here :: (ahead ++ [(node, k :: here.2)]) =
      (past ++ here :: ahead) ++ [(node, k :: here.2)] := by simp
  have leads : arrives next start (k :: here.2) = some node := by
    rw [arrives, (search.found here (by simp)).1]
    exact edge
  constructor
  · intro entry member
    rw [split, mem_append, mem_singleton] at member
    rcases member with old | rfl
    · exact search.found entry old
    · exact ⟨leads, fun other reached before => fresh (search.earlier_found before reached)⟩
  · rw [split, pairwise_append]
    refine ⟨search.sorted, pairwise_singleton _ _, fun entry member later same => ?_⟩
    rw [mem_singleton.1 same]
    exact search.bounded entry member
  · intro entry member
    rw [split, mem_append, mem_singleton] at member
    have onward : Before (k :: here.2) ((k + 1) :: here.2) := .inr ⟨rfl, Nat.lt_succ_self k⟩
    rcases member with old | rfl
    · exact Before.trans (search.bounded entry old) onward
    · exact onward
  · intro entry member j other taken
    rw [split, map_append]
    exact mem_append_left _ (search.done entry member j other taken)
  · intro j less other taken
    rw [split, map_append]
    rcases Nat.lt_succ_iff_lt_or_eq.1 less with earlier | rfl
    · exact mem_append_left _ (search.done_here j earlier other taken)
    · rw [edge, Option.some.injEq] at taken
      rw [← taken]
      exact mem_append_right _ (by simp)
  · exact search.started

omit search in
theorem Search.pop {there} (search : Search next start past here k (there :: ahead))
    (last : ∀ j, k ≤ j → next here.1 j = none) :
    Search next start (past ++ [here]) there 0 ahead := by
  have same : past ++ [here] ++ there :: ahead = past ++ here :: there :: ahead := by simp
  have tail := (pairwise_append.1 search.sorted).2.1
  have later : Before here.2 there.2 := (pairwise_cons.1 tail).1 there (by simp)
  refine ⟨same ▸ search.found, same ▸ search.sorted, ?_, ?_, by simp, ?_⟩
  · rw [same]
    intro entry member
    exact Before.trans (search.bounded entry member) (.inl later)
  · rw [same]
    intro entry member j node edge
    rcases mem_append.1 member with past_member | here_member
    · exact search.done entry past_member j node edge
    · rw [mem_singleton.1 here_member] at edge
      by_cases less : j < k
      · exact search.done_here j less node edge
      · rw [last j (by omega)] at edge
        cases edge
  · exact mem_append_left _ search.started

theorem Search.nodup : ((past ++ here :: ahead).map Prod.fst).Nodup := by
  rw [List.Nodup, pairwise_map]
  refine List.Pairwise.imp_of_mem (fun {entry later} member member' before => ?_) search.sorted
  intro same
  have first := search.found entry member
  rw [same] at first
  rw [First.unique next start first (search.found later member')] at before
  exact Before.irrefl _ before

omit search

theorem Search.complete (search : Search next start past here k [])
    (last : ∀ j, k ≤ j → next here.1 j = none)
    (leads : arrives next start walk = some node) : node ∈ (past ++ [here]).map Prod.fst := by
  induction walk generalizing node with
  | nil =>
    rw [arrives, Option.some.injEq] at leads
    exact List.mem_map.2 ⟨(start, []), search.started, leads⟩
  | cons j walk ih =>
    have ⟨middle, reached, edge⟩ := Option.bind_eq_some_iff.1 leads
    have ⟨entry, member, same⟩ := List.mem_map.1 (ih reached)
    rw [← same] at edge
    rcases mem_append.1 member with past_member | here_member
    · exact search.done entry past_member j node edge
    · rw [mem_singleton.1 here_member] at edge
      by_cases less : j < k
      · exact search.done_here j less node edge
      · rw [last j (by omega)] at edge
        cases edge

end FirstWalks
