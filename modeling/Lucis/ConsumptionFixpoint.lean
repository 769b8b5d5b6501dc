import Lucis.DeclarationOrder

/-!
`resolveConsumptionFixpoint` of checkers/Checker_safety.cpp, loop by loop. The map of
edges is a list of its entries in the order in which it is iterated; the map of the
consumed parameters gives a vector to some of the functions. One round over the edges
is a pass of a saturation, whatever their order, so the loop ends with what follows
from the map it began with.
-/

namespace Lucis.ConsumptionFixpoint

open List

open Ownership (Text)

structure ConsumeEdge where
  callerParamIdx : Nat
  calleeKey : Text
  calleeArgIdx : Nat

abbrev ConsumeEdges := List (Text × List ConsumeEdge)

/-- `userFunctionConsumingArgs_` -/
abbrev ConsumingArgs := Text → Option (List Nat)

def indices (args : ConsumingArgs) (f : Text) : List Nat := (args f).getD []

section Loop

def propagate (callerKey : Text) (current : ConsumingArgs × Bool) (e : ConsumeEdge) :
    ConsumingArgs × Bool :=
  match current.1 e.calleeKey with
  | none => current
  | some calleeConsumed =>
    if e.calleeArgIdx ∈ calleeConsumed then
      -- `operator[]` puts an empty vector where there was none
      let args := Function.update current.1 callerKey (some (indices current.1 callerKey))
      if e.callerParamIdx ∈ indices args callerKey then (args, current.2)
      else
        (Function.update args callerKey (some (indices args callerKey ++ [e.callerParamIdx])), true)
    else current

/-- One round of `while (changed)` -/
def sweep (edges : ConsumeEdges) (args : ConsumingArgs) : ConsumingArgs × Bool :=
  edges.foldl (fun current entry => entry.2.foldl (propagate entry.1) current) (args, false)

def entries : Saturation.Facts ConsumingArgs (Text × Nat) where
  has args entry := decide (entry.2 ∈ indices args entry.1)
  add args entry := Function.update args entry.1 (some (indices args entry.1 ++ [entry.2]))
  has_add args entry other := by
    rcases entry with ⟨f, i⟩
    rcases other with ⟨g, j⟩
    simp only [decide_eq_true_eq]
    by_cases same : g = f
    · subst same
      simp [indices]
    · simp [indices, same]

def edgeRule (callerKey : Text) (e : ConsumeEdge) : (Text × Nat) × (Text × Nat) :=
  ((e.calleeKey, e.calleeArgIdx), (callerKey, e.callerParamIdx))

def rules (edges : ConsumeEdges) : List ((Text × Nat) × (Text × Nat)) :=
  edges.flatMap fun entry => entry.2.map (edgeRule entry.1)

theorem propagate_fire (callerKey : Text) (current : ConsumingArgs × Bool) (e : ConsumeEdge) :
    propagate callerKey current e = Saturation.fire entries current (edgeRule callerKey e) := by
  cases found : current.1 e.calleeKey with
  | none => simp [propagate, Saturation.fire, entries, edgeRule, indices, found]
  | some calleeConsumed =>
    by_cases consumed : e.calleeArgIdx ∈ calleeConsumed
    · by_cases known : e.callerParamIdx ∈ indices current.1 callerKey
      · -- the vector is there, so putting it back changes nothing
        have present : current.1 callerKey = some (indices current.1 callerKey) := by
          cases vector : current.1 callerKey with
          | none => simp [indices, vector] at known
          | some is => simp [indices, vector]
        have kept : Function.update current.1 callerKey
            (some (indices current.1 callerKey)) = current.1 := by
          rw [← present, Function.update_eq_self]
        simp [propagate, Saturation.fire, entries, edgeRule, found, consumed, kept, known]
      · have present : e.calleeArgIdx ∈ indices current.1 e.calleeKey := by
          simpa [indices, found] using consumed
        have fresh : ∀ args : ConsumingArgs, indices (Function.update args callerKey
            (some (indices current.1 callerKey))) callerKey = indices current.1 callerKey := by
          simp [indices]
        simp [propagate, Saturation.fire, entries, edgeRule, found, consumed, known, present, fresh]
    · have absent : e.calleeArgIdx ∉ indices current.1 e.calleeKey := by
        simpa [indices, found] using consumed
      simp [propagate, Saturation.fire, entries, edgeRule, found, consumed, absent]

variable (edges : ConsumeEdges) (args : ConsumingArgs)

theorem sweep_pass :
    sweep edges args = Saturation.pass entries (rules edges) args := by
  unfold sweep Saturation.pass
  generalize (args, false) = current
  induction edges generalizing current with
  | nil => rfl
  | cons entry rest ih =>
    have first : entry.2.foldl (propagate entry.1) current =
        (entry.2.map (edgeRule entry.1)).foldl (Saturation.fire entries) current := by
      rw [foldl_map]
      congr 1
      funext current e
      exact propagate_fire entry.1 current e
    rw [foldl_cons, first, ih, rules, rules, flatMap_cons, foldl_append]

def resolveConsumptionFixpoint (edges : ConsumeEdges) (args : ConsumingArgs) : ConsumingArgs :=
  if (sweep edges args).2 then resolveConsumptionFixpoint edges (sweep edges args).1
  else (sweep edges args).1
termination_by Saturation.missing entries (rules edges) args
decreasing_by
  next changed =>
    rw [sweep_pass] at changed ⊢
    exact Saturation.pass_progress (rules edges) args changed

theorem resolve_saturate :
    resolveConsumptionFixpoint edges args = Saturation.saturate entries (rules edges) args := by
  fun_induction resolveConsumptionFixpoint edges args with
  | case1 args changed ih =>
    rw [ih, sweep_pass]
    rw [sweep_pass] at changed
    conv => rhs; rw [Saturation.saturate, if_pos changed]
  | case2 args unchanged =>
    rw [sweep_pass] at unchanged ⊢
    rw [Saturation.saturate, if_neg unchanged]

end Loop

section Meaning

/-- An edge: parameter `i` of the caller is passed on as argument `j` of the callee. -/
def Passes (edges : ConsumeEdges) (caller callee : Text × Nat) : Prop :=
  ∃ entry ∈ edges, ∃ e ∈ entry.2,
    caller = (entry.1, e.callerParamIdx) ∧ callee = (e.calleeKey, e.calleeArgIdx)

def Closed (edges : ConsumeEdges) (consumed : Text → Nat → Prop) : Prop :=
  ∀ caller callee, Passes edges caller callee →
    consumed callee.1 callee.2 → consumed caller.1 caller.2

variable (edges : ConsumeEdges)
include edges

theorem passes_iff (caller callee : Text × Nat) :
    Passes edges caller callee ↔ (callee, caller) ∈ rules edges := by
  simp only [Passes, rules, mem_flatMap, List.mem_map, edgeRule, Prod.mk.injEq]
  constructor
  · rintro ⟨entry, there, e, member, rfl, rfl⟩
    exact ⟨entry, there, e, member, rfl, rfl⟩
  · rintro ⟨entry, there, e, member, rfl, rfl⟩
    exact ⟨entry, there, e, member, rfl, rfl⟩

variable (args : ConsumingArgs)

theorem mem_resolve (f : Text) (i : Nat) :
    i ∈ indices (resolveConsumptionFixpoint edges args) f ↔
      Saturation.Follows (fun entry => entry.2 ∈ indices args entry.1) (rules edges) (f, i) := by
  have saturated := @Saturation.saturate_iff _ _ entries (rules edges) args (f, i)
  simpa [resolve_saturate, entries] using saturated

theorem follows_iff_chain (base : Text × Nat → Prop) (entry : Text × Nat) :
    Saturation.Follows base (rules edges) entry ↔
      ∃ last, Relation.ReflTransGen (Passes edges) entry last ∧ base last := by
  constructor
  · intro follows
    induction follows with
    | base given => exact ⟨_, .refl, given⟩
    | step rule _ ih =>
      rcases ih with ⟨last, chain, given⟩
      exact ⟨last, .head ((passes_iff edges _ _).2 rule) chain, given⟩
  · rintro ⟨last, chain, given⟩
    induction chain using Relation.ReflTransGen.head_induction_on with
    | refl => exact .base given
    | head passes _ ih => exact .step ((passes_iff edges _ _).1 passes) ih

/-- How vectors grow: behind what they held, by indices that are new and told once. A vector
that was not there is not made for nothing. -/
def Grown (args later : ConsumingArgs) : Prop :=
  ∀ f, ∃ more, indices later f = indices args f ++ more ∧ more.Nodup ∧
    (∀ i ∈ more, i ∉ indices args f) ∧ ((later f).isSome ↔ (args f).isSome ∨ more ≠ [])

theorem resolve_grown :
    Grown args (resolveConsumptionFixpoint edges args) := by
  rw [resolve_saturate]
  apply Saturation.saturate_invariant
  · rintro later ⟨g, j⟩ grown fresh f
    simp only [entries, decide_eq_false_iff_not] at fresh
    by_cases same : f = g
    · subst same
      rcases grown f with ⟨more, vector, once, new, _⟩
      rw [vector, mem_append, not_or] at fresh
      refine ⟨more ++ [j], ?_, ?_, ?_, ?_⟩
      · rw [← append_assoc, ← vector]
        simp [entries, indices]
      · exact nodup_append.2 ⟨once, nodup_singleton j, by
          rintro a member b single rfl
          exact fresh.2 (mem_singleton.1 single ▸ member)⟩
      · intro i member
        rcases mem_append.1 member with old | last
        · exact new i old
        · exact mem_singleton.1 last ▸ fresh.1
      · simp [entries]
    · rcases grown f with ⟨more, vector, once, new, some_iff⟩
      refine ⟨more, ?_, once, new, ?_⟩
      · simpa [entries, indices, same] using vector
      · simpa [entries, same] using some_iff
  · intro f
    exact ⟨[], by simp, nodup_nil, by simp, by simp⟩

/-- The result of the loop: a round that changes nothing is reached, behind as many rounds as
there are edges at most; what is consumed is what a chain of edges leads from to a parameter
consumed at first; that is the least closed map over the first one; and no index is told twice. -/
structure Resolved (edges : ConsumeEdges) (args result : ConsumingArgs) : Prop where
  ends : ∃ n ≤ (rules edges).length, (fun args => (sweep edges args).1)^[n] args = result ∧
    sweep edges result = (result, false)
  chains : ∀ f i, i ∈ indices result f ↔
    ∃ g j, Relation.ReflTransGen (Passes edges) (f, i) (g, j) ∧ j ∈ indices args g
  contains : ∀ f, indices args f ⊆ indices result f
  closed : Closed edges fun f i => i ∈ indices result f
  least : ∀ consumed : Text → Nat → Prop, (∀ f, ∀ i ∈ indices args f, consumed f i) →
    Closed edges consumed → ∀ f, ∀ i ∈ indices result f, consumed f i
  once : ∀ f, (indices args f).Nodup → (indices result f).Nodup

theorem resolved :
    Resolved edges args (resolveConsumptionFixpoint edges args) where
  ends := by
    have rounds : (fun args => (sweep edges args).1) =
        fun args => (Saturation.pass entries (rules edges) args).1 := by
      funext args
      rw [sweep_pass]
    rcases @Saturation.saturate_passes _ _ entries (rules edges) args with
      ⟨n, few, reached, quiet⟩
    rw [resolve_saturate, rounds, sweep_pass]
    exact ⟨n, Nat.le_trans few List.countP_le_length, reached, quiet⟩
  chains f i := by
    rw [mem_resolve, follows_iff_chain]
    simp only [Prod.exists]
  contains f i member := (mem_resolve edges args f i).2 (.base member)
  closed caller callee passes consumed :=
    (mem_resolve edges args _ _).mpr
      (.step ((passes_iff edges _ _).1 passes) ((mem_resolve edges args _ _).1 consumed))
  least consumed given closed f i member := by
    have follows := (mem_resolve edges args f i).1 member
    exact follows.of_closed (fun entry => consumed entry.1 entry.2) (fun entry => given entry.1 entry.2)
      fun callee caller rule => closed caller callee ((passes_iff edges _ _).2 rule)
  once f unique := by
    rcases resolve_grown edges args f with ⟨more, vector, once, new, _⟩
    rw [vector]
    exact nodup_append.2 ⟨unique, once, fun a old b fresh same => new b fresh (same ▸ old)⟩

omit edges

theorem resolve_same {edges other}
    (same : ∀ caller callee, Passes other caller callee ↔ Passes edges caller callee) (f : Text) :
    (indices (resolveConsumptionFixpoint other args) f).Perm
        (indices (resolveConsumptionFixpoint edges args) f) ∧
      (resolveConsumptionFixpoint other args f).isSome =
        (resolveConsumptionFixpoint edges args f).isSome := by
  have members : ∀ i, i ∈ indices (resolveConsumptionFixpoint other args) f ↔
      i ∈ indices (resolveConsumptionFixpoint edges args) f := by
    intro i
    have relations : Passes other = Passes edges := by
      funext caller callee
      exact propext (same caller callee)
    rw [(resolved other args).chains, (resolved edges args).chains, relations]
  rcases resolve_grown other args f with ⟨more, vector, once, new, some_iff⟩
  rcases resolve_grown edges args f with ⟨more', vector', once', new', some_iff'⟩
  -- both begin with the vector there was, and what follows are the same indices
  have added : more.Perm more' := by
    apply (perm_ext_iff_of_nodup once once').mpr
    intro i
    have equal := members i
    rw [vector, vector', mem_append, mem_append] at equal
    -- neither adds what was known before
    constructor
    · intro member
      exact (equal.1 (.inr member)).resolve_left (new i member)
    · intro member
      exact (equal.2 (.inr member)).resolve_left (new' i member)
  constructor
  · rw [vector, vector']
    exact added.append_left _
  · rw [Bool.eq_iff_iff, some_iff, some_iff', ne_eq, ne_eq, ← length_eq_zero_iff,
      added.length_eq, length_eq_zero_iff]

end Meaning

/-- For every map of edges and every map to begin with the loop ends, with the least closed map
over it, and in every order of iteration with the same one. -/
theorem fixpoint_exact (edges : ConsumeEdges) (args : ConsumingArgs) :
    Resolved edges args (resolveConsumptionFixpoint edges args) ∧
    ∀ other : ConsumeEdges, other.Perm edges → ∀ f,
      (indices (resolveConsumptionFixpoint other args) f).Perm
          (indices (resolveConsumptionFixpoint edges args) f) ∧
        (resolveConsumptionFixpoint other args f).isSome =
          (resolveConsumptionFixpoint edges args f).isSome := by
  constructor
  · exact resolved edges args
  · intro other order f
    apply resolve_same args
    intro caller callee
    simp only [Passes, order.mem_iff]

/-- Two functions that pass their parameter on to each other, in both orders. -/
theorem fixpoint_exact_cycle :
    let f : Text × List ConsumeEdge := (['f'], [⟨0, ['g'], 0⟩])
    let g : Text × List ConsumeEdge := (['g'], [⟨0, ['f'], 0⟩])
    let known : ConsumingArgs := fun name => if name = ['g'] then some [0] else none
    (indices (resolveConsumptionFixpoint [g, f] known) ['f']).Perm
      (indices (resolveConsumptionFixpoint [f, g] known) ['f']) :=
  ((fixpoint_exact _ _).2 _ (List.Perm.swap _ _ []) ['f']).1

end Lucis.ConsumptionFixpoint
