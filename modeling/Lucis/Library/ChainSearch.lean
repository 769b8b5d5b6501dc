import Mathlib.Data.List.Perm.Subperm
import Lucis.Library.FirstWalks

/-!
A breadth-first search that carries with every node the keys of the chain that led to
it, and calls a use closed when its key stands on the chain of its node. Nodes are
visited once, so a node is known by the first chain that leads to it, and only uses
that close that chain are seen.
-/

open FirstWalks

variable {Use Key Node : Type}

/-- Nodes, their uses in order, and what a use is called and leads to. Uses of one key
lead to one node. -/
structure ChainGraph (Use Key Node : Type) where
  uses : Node → List Use
  resolve : Use → Option Node
  key : Use → Key
  entry : Node
  entryKey : Key
  faithful : ∀ {node node' : Node} {use use' : Use}, use ∈ uses node → use' ∈ uses node' →
    key use = key use' → resolve use = resolve use'

namespace ChainGraph

open List Option

structure Frontier (Key Node : Type) where
  queue : List (Node × Key × List Key)
  visited : List Node
  done : List (Node × Key)
  closed : Bool

section Run
variable [DecidableEq Key] [DecidableEq Node] (graph : ChainGraph Use Key Node)

def visit (chain : List Key) (s : Frontier Key Node) (use : Use) : Frontier Key Node :=
  match graph.resolve use with
  | none => s
  | some target =>
    if graph.key use ∈ chain then { s with closed := true }
    else if target ∈ s.visited then s
    else
      { s with
        visited := target :: s.visited
        queue := s.queue ++ [(target, graph.key use, chain ++ [graph.key use])] }

def turn (s : Frontier Key Node) : Frontier Key Node :=
  match s.queue with
  | [] => s
  | (node, key, chain) :: queue =>
    (graph.uses node).foldl (graph.visit chain)
      { s with queue := queue, done := s.done ++ [(node, key)] }

def loop : Nat → Frontier Key Node → Frontier Key Node
  | 0, s => s
  | turns + 1, s => loop turns (graph.turn s)

def start : Frontier Key Node :=
  ⟨[(graph.entry, graph.entryKey, [graph.entryKey])], [graph.entry], [], false⟩

end Run

section Walks
variable [DecidableEq Key] (graph : ChainGraph Use Key Node)

/-- The node the use at a position leads to. The entry's key stands in every chain, so a
use of that key leads nowhere. -/
def next (node : Node) (position : Nat) : Option Node :=
  (graph.uses node)[position]?.bind fun use =>
    if graph.key use = graph.entryKey then none else graph.resolve use

def destination (walk : Walk) : Option Node := arrives graph.next graph.entry walk

/-- `node` is reached, and this walk is the first that leads there. -/
def First (node : Node) (walk : Walk) : Prop := FirstWalks.First graph.next graph.entry node walk

def lastKey : Walk → Key
  | [] => graph.entryKey
  | position :: walk =>
    ((graph.destination walk).bind fun node =>
      (graph.uses node)[position]?.map graph.key).getD graph.entryKey

def chain : Walk → List Key
  | [] => [graph.entryKey]
  | position :: walk => chain walk ++ [graph.lastKey (position :: walk)]

def Closes (walk : Walk) (use : Use) : Prop :=
  (∃ target, graph.resolve use = some target) ∧ graph.key use ∈ graph.chain walk

/-- On the first chain of uses to some node, one of its own uses is called like a node that
stands on that chain. -/
def ClosesFirstChain : Prop :=
  ∃ node walk, graph.First node walk ∧ ∃ use ∈ graph.uses node, graph.Closes walk use

def Reached (node : Node) (key : Key) : Prop :=
  ∃ walk, graph.First node walk ∧ key = graph.lastKey walk

def Leads (node target : Node) : Prop :=
  ∃ use ∈ graph.uses node, graph.resolve use = some target

end Walks

section Passed

variable [DecidableEq Key] {graph : ChainGraph Use Key Node}
  {node : Node} {position : Nat} {source : Node}

theorem next_leads (edge : graph.next source position = some node) :
    ∃ use ∈ graph.uses source, (graph.uses source)[position]? = some use ∧
      graph.key use ≠ graph.entryKey ∧ graph.resolve use = some node := by
  have ⟨use, here, resolved⟩ := bind_eq_some_iff.1 edge
  split at resolved
  · cases resolved
  · exact ⟨use, mem_of_getElem? here, here, by assumption, resolved⟩

variable {walk : Walk}

theorem destination_reachable (leads : graph.destination walk = some node) :
    Relation.ReflTransGen graph.Leads graph.entry node := by
  induction walk generalizing node with
  | nil =>
    rw [destination, arrives, Option.some.injEq] at leads
    exact leads ▸ Relation.ReflTransGen.refl
  | cons position walk ih =>
    obtain ⟨source, reached, edge⟩ := bind_eq_some_iff.1 leads
    obtain ⟨use, used, _, _, resolved⟩ := next_leads edge
    exact (ih reached).tail ⟨use, used, resolved⟩

variable {use : Use}

theorem lastKey_cons (reached : graph.destination walk = some source)
    (here : (graph.uses source)[position]? = some use) :
    graph.lastKey (position :: walk) = graph.key use := by
  simp only [lastKey, reached, bind_some, here, map_some, getD_some]

theorem entry_chained (walk : Walk) : graph.entryKey ∈ graph.chain walk := by
  induction walk with
  | nil => exact mem_singleton.2 rfl
  | cons position walk ih => exact mem_append_left _ ih

theorem chain_passed (leads : graph.destination walk = some node)
    {key : Key} (member : key ∈ graph.chain walk) : key = graph.entryKey ∨
      ∃ way target, graph.destination way = some target ∧
        (way = walk ∨ Before way walk) ∧ Relation.ReflTransGen graph.Leads target node ∧
        ∃ source use, use ∈ graph.uses source ∧ graph.key use = key ∧
          graph.resolve use = some target := by
  induction walk generalizing node with
  | nil => exact .inl (mem_singleton.1 member)
  | cons position walk ih =>
    have ⟨source, reached, edge⟩ := bind_eq_some_iff.1 leads
    have ⟨use, used, here, _, resolved⟩ := next_leads edge
    rw [chain, mem_append, mem_singleton, lastKey_cons reached here] at member
    rcases member with before | last
    · rcases ih reached before with entry | ⟨way, target, arrived, order, onward, named⟩
      · exact .inl entry
      · have earlier : Before way (position :: walk) := by
          rcases order with rfl | order
          · exact before_longer way position
          · exact Before.trans order (before_longer walk position)
        exact .inr ⟨way, target, arrived, .inr earlier,
          onward.tail ⟨use, used, resolved⟩, named⟩
    · exact .inr ⟨position :: walk, node, leads, .inl rfl, Relation.ReflTransGen.refl,
        source, use, used, last.symm, resolved⟩

theorem closing_known {past ahead} {here} {k : Nat}
    (search : Search graph.next graph.entry past here k ahead)
    (at_k : (graph.uses here.1)[k]? = some use) (closes : graph.key use ∈ graph.chain here.2)
    (edge : graph.next here.1 k = some node) : node ∈ (past ++ here :: ahead).map Prod.fst := by
  rw [next, at_k, bind_some] at edge
  split at edge
  · cases edge
  next other =>
    have arrived := (search.found here (by simp)).1
    rcases chain_passed arrived closes with entry | ⟨way, target, leads, order, _, used⟩
    · exact absurd entry other
    · rcases used with ⟨source, use', member, same, resolved⟩
      have same_node := graph.faithful member (mem_of_getElem? at_k) same
      rw [resolved, edge] at same_node
      have earlier : Before way (k :: here.2) := by
        rcases order with rfl | order
        · exact before_longer here.2 k
        · exact Before.trans order (before_longer here.2 k)
      rw [← Option.some.inj same_node]
      exact search.earlier_found earlier leads

end Passed

section Search
variable [DecidableEq Key] [DecidableEq Node] {graph : ChainGraph Use Key Node}

def queued (graph : ChainGraph Use Key Node) (entry : Node × Walk) : Node × Key × List Key :=
  (entry.1, graph.lastKey entry.2, graph.chain entry.2)

def taken (graph : ChainGraph Use Key Node) (entry : Node × Walk) : Node × Key :=
  (entry.1, graph.lastKey entry.2)

/-- The state inside a turn: `here` is taken and its first `k` uses are visited. -/
structure Visiting (graph : ChainGraph Use Key Node) (past : List (Node × Walk))
    (here : Node × Walk) (k : Nat) (ahead : List (Node × Walk)) (s : Frontier Key Node) :
    Prop where
  search : Search graph.next graph.entry past here k ahead
  queue : s.queue = ahead.map graph.queued
  visited : ∀ node, node ∈ s.visited ↔ node ∈ (past ++ here :: ahead).map Prod.fst
  done : s.done = (past ++ [here]).map graph.taken
  closed : s.closed = true ↔
    (∃ e ∈ past, ∃ use ∈ graph.uses e.1, graph.Closes e.2 use) ∨
      ∃ use ∈ (graph.uses here.1).take k, graph.Closes here.2 use

variable {s : Frontier Key Node} {past : List (Node × Walk)} {here : Node × Walk}
  {ahead : List (Node × Walk)}

theorem visiting_use {k : Nat} (visiting : Visiting graph past here k ahead s) {use : Use}
    (at_k : (graph.uses here.1)[k]? = some use) : ∃ ahead', Visiting graph past here (k + 1) ahead'
      (graph.visit (graph.chain here.2) s use) := by
  have all : (graph.uses here.1).take (k + 1) = (graph.uses here.1).take k ++ [use] := by
    rw [take_add_one, at_k]
    rfl
  have next_use (P : Use → Prop) : (∃ use ∈ (graph.uses here.1).take (k + 1), P use) ↔
      (∃ use ∈ (graph.uses here.1).take k, P use) ∨ P use := by
    simp [all, or_and_right, exists_or]
  have search := visiting.search
  have closed := visiting.closed
  rw [visit]
  cases resolved : graph.resolve use with
  | none =>
    have none_next : graph.next here.1 k = none := by
      simp [next, at_k, resolved]
    have open_use : ¬ graph.Closes here.2 use := by
      rintro ⟨⟨target, found⟩, _⟩
      rw [resolved] at found
      cases found
    refine ⟨ahead, search.skip (fun node edge => ?_), visiting.queue, visiting.visited,
      visiting.done, ?_⟩
    · rw [none_next] at edge
      cases edge
    · rw [next_use, closed]
      simp only [open_use, or_false]
  | some target =>
    by_cases closes : graph.key use ∈ graph.chain here.2
    · -- nothing is queued: the node was met before
      have closing : graph.Closes here.2 use := ⟨⟨target, resolved⟩, closes⟩
      simp only [if_pos closes]
      refine ⟨ahead, search.skip (fun node edge => closing_known search at_k closes edge),
        visiting.queue, visiting.visited, visiting.done, ?_⟩
      rw [next_use]
      simp only [closing, or_true]
    · have open_use : ¬ graph.Closes here.2 use := fun closing => closes closing.2
      have other : graph.key use ≠ graph.entryKey :=
        fun same => closes (same ▸ entry_chained here.2)
      have edge : graph.next here.1 k = some target := by
        rw [next, at_k, bind_some, if_neg other, resolved]
      simp only [if_neg closes]
      by_cases known : target ∈ s.visited
      · rw [if_pos known]
        refine ⟨ahead, search.skip (fun node same => ?_), visiting.queue, visiting.visited,
          visiting.done, ?_⟩
        · rw [edge, Option.some.injEq] at same
          exact same ▸ (visiting.visited target).1 known
        · rw [next_use, closed]
          simp only [open_use, or_false]
      · rw [if_neg known]
        have fresh := fun met => known ((visiting.visited target).2 met)
        have arrived : graph.destination here.2 = some here.1 := (search.found here (by simp)).1
        refine ⟨_, search.push edge fresh, ?_, fun node => ?_, visiting.done, ?_⟩
        · simp only [map_append, map_cons, map_nil, ← visiting.queue, queued,
            chain, lastKey_cons arrived at_k]
        · have split : past ++ here :: (ahead ++ [(target, k :: here.2)]) =
              (past ++ here :: ahead) ++ [(target, k :: here.2)] := by simp
          rw [split, map_append, mem_append, ← visiting.visited, mem_cons]
          simp [or_comm]
        · rw [next_use, closed]
          simp only [open_use, or_false]

theorem visiting_uses (visiting : Visiting graph past here 0 ahead s) :
    ∃ ahead', Visiting graph past here (graph.uses here.1).length ahead'
      ((graph.uses here.1).foldl (graph.visit (graph.chain here.2)) s) := by
  have goes_on (rest before : List Use) (s : Frontier Key Node) (ahead : List (Node × Walk))
      (split : graph.uses here.1 = before ++ rest)
      (visiting : Visiting graph past here before.length ahead s) :
      ∃ ahead', Visiting graph past here (graph.uses here.1).length ahead'
        (rest.foldl (graph.visit (graph.chain here.2)) s) := by
    induction rest generalizing before s ahead with
    | nil =>
      rw [append_nil] at split
      rw [← split] at visiting
      exact ⟨ahead, visiting⟩
    | cons use rest ih =>
      have at_k : (graph.uses here.1)[before.length]? = some use := by simp [split]
      have ⟨ahead', visiting'⟩ := visiting_use visiting at_k
      have length : before.length + 1 = (before ++ [use]).length := by simp
      rw [length] at visiting'
      exact ih (before ++ [use]) _ ahead' (by simp [split]) visiting'
  exact goes_on _ [] s ahead rfl visiting

/-- The state between two turns, `here` next in the queue. -/
structure Waiting (graph : ChainGraph Use Key Node) (past : List (Node × Walk))
    (here : Node × Walk) (ahead : List (Node × Walk)) (s : Frontier Key Node) : Prop where
  search : Search graph.next graph.entry past here 0 ahead
  queue : s.queue = (here :: ahead).map graph.queued
  visited : ∀ node, node ∈ s.visited ↔ node ∈ (past ++ here :: ahead).map Prod.fst
  done : s.done = past.map graph.taken
  closed : s.closed = true ↔ ∃ e ∈ past, ∃ use ∈ graph.uses e.1, graph.Closes e.2 use

omit [DecidableEq Node] in
theorem waiting_start : Waiting graph [] (graph.entry, []) [] graph.start :=
  ⟨Search.initial, rfl, by simp [start], rfl, by simp [start]⟩

theorem waiting_turn (waiting : Waiting graph past here ahead s) :
    ∃ ahead', Visiting graph past here (graph.uses here.1).length ahead' (graph.turn s) := by
  rw [turn, waiting.queue, map_cons]
  apply visiting_uses
  refine ⟨waiting.search, rfl, waiting.visited, ?_, ?_⟩
  · simp [waiting.done, taken]
  · simpa using waiting.closed

omit [DecidableEq Node] in
theorem no_more_uses (node : Node) (position : Nat)
    (behind : (graph.uses node).length ≤ position) : graph.next node position = none := by
  rw [next, getElem?_eq_none behind]
  rfl

/-- After some turns the search waits with as many nodes behind it, or it has ended. -/
def Stage (graph : ChainGraph Use Key Node) (turns : Nat) (s : Frontier Key Node) : Prop :=
  (∃ past here ahead, Waiting graph past here ahead s ∧ past.length = turns) ∨
    ∃ past here, Visiting graph past here (graph.uses here.1).length [] s

theorem stage_turn {turns : Nat} (stage : Stage graph turns s) :
    Stage graph (turns + 1) (graph.turn s) := by
  rcases stage with ⟨past, here, ahead, waiting, length⟩ | ⟨past, here, ended⟩
  · rcases waiting_turn waiting with ⟨ahead', visiting⟩
    cases ahead' with
    | nil => exact .inr ⟨past, here, visiting⟩
    | cons there ahead' =>
      have same : past ++ [here] ++ there :: ahead' = past ++ here :: there :: ahead' := by simp
      refine .inl ⟨past ++ [here], there, ahead',
        ⟨visiting.search.pop (fun j behind => no_more_uses here.1 j behind), visiting.queue,
          same ▸ visiting.visited, visiting.done, ?_⟩, by simp [length]⟩
      rw [visiting.closed, take_length]
      simp [or_and_right, exists_or]
  · have same : graph.turn s = s := by rw [turn, ended.queue, map_nil]
    rw [same]
    exact .inr ⟨past, here, ended⟩

theorem stage_loop (turns before : Nat) (s : Frontier Key Node)
    (stage : Stage graph before s) : Stage graph (before + turns) (graph.loop turns s) := by
  induction turns generalizing before s with
  | zero => exact stage
  | succ turns ih =>
    have next_stage := ih (before + 1) _ (stage_turn stage)
    rw [Nat.add_right_comm] at next_stage
    exact next_stage

theorem stage_run (graph : ChainGraph Use Key Node) (turns : Nat) :
    Stage graph turns (graph.loop turns graph.start) := by
  have stage := stage_loop turns 0 graph.start (.inl ⟨[], _, [], waiting_start, rfl⟩)
  rwa [Nat.zero_add] at stage

structure Finished (graph : ChainGraph Use Key Node) (s : Frontier Key Node) : Prop where
  once : (s.done.map Prod.fst).Nodup
  done : ∀ node key, (node, key) ∈ s.done ↔ graph.Reached node key
  reached : ∀ node, node ∈ s.done.map Prod.fst ↔ ∃ walk, graph.destination walk = some node
  visited : ∀ node, node ∈ s.visited ↔ node ∈ s.done.map Prod.fst
  closed : s.closed = true ↔ graph.ClosesFirstChain

omit [DecidableEq Node] in
theorem visiting_finished
    (ended : Visiting graph past here (graph.uses here.1).length [] s) : Finished graph s := by
  have search := ended.search
  have last : ∀ j, (graph.uses here.1).length ≤ j → graph.next here.1 j = none :=
    no_more_uses here.1
  have known {node : Node} {walk : Walk} (first : graph.First node walk) :
      (node, walk) ∈ past ++ [here] := by
    rcases List.mem_map.1 (search.complete last first.1) with ⟨⟨_, found⟩, inside, rfl⟩
    rw [FirstWalks.First.unique _ _ first (search.found _ inside)]
    exact inside
  have nodes : s.done.map Prod.fst = (past ++ [here]).map Prod.fst := by
    rw [ended.done, List.map_map]
    rfl
  refine ⟨?_, fun node key => ⟨?_, ?_⟩, fun node => ⟨?_, ?_⟩, fun node => ?_, ?_⟩
  · rw [nodes]
    exact search.nodup
  · rw [ended.done]
    intro member
    rcases List.mem_map.1 member with ⟨entry, inside, same⟩
    rw [taken, Prod.mk.injEq] at same
    rcases same with ⟨rfl, rfl⟩
    exact ⟨entry.2, search.found entry inside, rfl⟩
  · rintro ⟨walk, first, rfl⟩
    rw [ended.done]
    exact List.mem_map.2 ⟨(node, walk), known first, rfl⟩
  · rw [nodes]
    intro member
    rcases List.mem_map.1 member with ⟨entry, inside, rfl⟩
    exact ⟨entry.2, (search.found entry inside).1⟩
  · rintro ⟨walk, leads⟩
    rw [nodes]
    exact search.complete last leads
  · rw [nodes]
    exact ended.visited node
  · rw [ended.closed, take_length]
    constructor
    · rintro (⟨entry, member, closing⟩ | closing)
      · exact ⟨entry.1, entry.2, search.found entry (mem_append_left _ member), closing⟩
      · exact ⟨here.1, here.2, search.found here (by simp), closing⟩
    · rintro ⟨node, walk, first, closing⟩
      rcases mem_append.1 (known first) with past_member | here_member
      · exact .inl ⟨(node, walk), past_member, closing⟩
      · rw [← mem_singleton.1 here_member]
        exact .inr closing

theorem ends_finished (turns : Nat) (empty : (graph.loop turns graph.start).queue = []) :
    Finished graph (graph.loop turns graph.start) := by
  rcases stage_run graph turns with ⟨past, here, ahead, waiting, _⟩ | ⟨past, here, ended⟩
  · rw [waiting.queue] at empty
    cases empty
  · exact visiting_finished ended

theorem search_ends (graph : ChainGraph Use Key Node) (nodes : List Node)
    (finite : ∀ use node, graph.resolve use = some node → node ∈ nodes) :
    (graph.loop (nodes.length + 1) graph.start).queue = [] := by
  rcases stage_run graph (nodes.length + 1) with
    ⟨past, here, ahead, waiting, length⟩ | ⟨past, here, ended⟩
  · have known : (past ++ here :: ahead).map Prod.fst ⊆ graph.entry :: nodes := by
      intro node member
      rcases List.mem_map.1 member with ⟨entry, inside, rfl⟩
      have arrived := (waiting.search.found entry inside).1
      rcases walk : entry.2 with - | ⟨position, before⟩
      · rw [walk, arrives, Option.some.injEq] at arrived
        exact arrived ▸ (.head _)
      · rw [walk] at arrived
        obtain ⟨source, _, edge⟩ := bind_eq_some_iff.1 arrived
        obtain ⟨use, _, _, _, resolved⟩ := next_leads edge
        exact .tail _ (finite _ _ resolved)
    have count := (subperm_of_subset waiting.search.nodup known).length_le
    simp only [length_map, length_append, length_cons] at count
    omega
  · rw [ended.queue, map_nil]

end Search

end ChainGraph
