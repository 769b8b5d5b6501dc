import Mathlib.Data.List.Basic
import Mathlib.Logic.Function.Iterate

/-!
Saturation of a growing collection of facts along a finite list of implications,
pass after pass until one adds nothing. How the facts are kept is a parameter: only
a membership test and an insertion are used. What the loop ends with is exactly what
follows from the facts it started with.
-/

namespace Saturation

open List

universe u v

structure Facts (S : Type u) (A : Type v) where
  has : S → A → Bool
  add : S → A → S
  has_add : ∀ s a b, has (add s a) b = true ↔ has s b = true ∨ b = a

/-- What follows from `base` along the implications. -/
inductive Follows {A : Type v} (base : A → Prop) (rules : List (A × A)) : A → Prop where
  | base {a} (given : base a) : Follows base rules a
  | step {a b} (rule : (a, b) ∈ rules) (earlier : Follows base rules a) : Follows base rules b

variable {A : Type v}

theorem Follows.mono {base more : A → Prop} {rules} {a : A}
    (weaker : ∀ b, base b → Follows more rules b) (follows : Follows base rules a) :
    Follows more rules a := by
  induction follows with
  | base given => exact weaker _ given
  | step rule _ ih => exact .step rule ih

theorem Follows.of_closed {base : A → Prop} {rules} {a : A}
    (follows : Follows base rules a) (holds : A → Prop) (given : ∀ b, base b → holds b)
    (closed : ∀ b c, (b, c) ∈ rules → holds b → holds c) : holds a := by
  induction follows with
  | base there => exact given _ there
  | step rule _ ih => exact closed _ _ rule ih

variable {S : Type u} {A : Type v} (facts : Facts S A)

def fire (current : S × Bool) (rule : A × A) : S × Bool :=
  if facts.has current.1 rule.1 && !facts.has current.1 rule.2 then
    (facts.add current.1 rule.2, true)
  else current

def pass (rules : List (A × A)) (s : S) : S × Bool :=
  rules.foldl (fire facts) (s, false)

def missing (rules : List (A × A)) (s : S) : Nat :=
  rules.countP fun rule => !facts.has s rule.2

section Passes

variable {facts}

theorem fire_keeps (current : S × Bool) (rule : A × A) (a : A)
    (held : facts.has current.1 a = true) : facts.has (fire facts current rule).1 a = true := by
  unfold fire
  split
  · exact (facts.has_add _ _ _).2 (.inl held)
  · exact held

theorem fire_changed (current : S × Bool) (rule : A × A) (changed : current.2 = true) :
    (fire facts current rule).2 = true := by
  unfold fire
  split
  · rfl
  · exact changed

variable (rules : List (A × A))
include rules

theorem fires_keep (current : S × Bool) (a : A) (held : facts.has current.1 a = true) :
    facts.has (rules.foldl (fire facts) current).1 a = true := by
  induction rules generalizing current with
  | nil => exact held
  | cons rule _ ih => exact ih _ (fire_keeps current rule a held)

theorem fires_changed (current : S × Bool) (changed : current.2 = true) :
    (rules.foldl (fire facts) current).2 = true := by
  induction rules generalizing current with
  | nil => exact changed
  | cons rule _ ih => exact ih _ (fire_changed current rule changed)

omit rules in
theorem fires_follow (all rules : List (A × A)) (among : rules ⊆ all) (base : A → Prop)
    (current : S × Bool) (sound : ∀ a, facts.has current.1 a = true → Follows base all a) (a : A)
    (held : facts.has (rules.foldl (fire facts) current).1 a = true) : Follows base all a := by
  induction rules generalizing current with
  | nil => exact sound a held
  | cons rule rest ih =>
    refine ih (subset_of_cons_subset among) (fire facts current rule) ?_ held
    intro b there
    unfold fire at there
    split at there
    · next fires =>
        simp only [Bool.and_eq_true] at fires
        rcases (facts.has_add _ _ _).1 there with old | new
        · exact sound b old
        · rw [new]
          exact .step (among (.head _)) (sound _ fires.1)
    · exact sound b there

theorem fires_unchanged (current : S × Bool)
    (unchanged : (rules.foldl (fire facts) current).2 = false) :
    rules.foldl (fire facts) current = current ∧
      ∀ rule ∈ rules, facts.has current.1 rule.1 = true → facts.has current.1 rule.2 = true := by
  induction rules generalizing current with
  | nil => exact ⟨rfl, by simp⟩
  | cons rule rest ih =>
    rcases ih (fire facts current rule) unchanged with ⟨same, closed⟩
    have quiet : ¬(facts.has current.1 rule.1 && !facts.has current.1 rule.2) = true := by
      intro fires
      have changed : (rest.foldl (fire facts) (fire facts current rule)).2 = true :=
        fires_changed rest _ (by simp [fire, fires])
      rw [foldl_cons, changed] at unchanged
      cases unchanged
    have still : fire facts current rule = current := if_neg quiet
    rw [still] at same closed
    refine ⟨by rw [foldl_cons, still, same], ?_⟩
    intro other member
    rcases mem_cons.1 member with rfl | later
    · simpa using quiet
    · exact closed other later

theorem missing_le {s t : S} (keeps : ∀ a, facts.has s a = true → facts.has t a = true) :
    missing facts rules t ≤ missing facts rules s := by
  apply countP_mono_left
  intro rule _ gone
  by_contra held
  simp only [Bool.not_eq_true, Bool.not_eq_false'] at held
  simp [keeps _ held] at gone

theorem missing_lt {s t : S} {rule : A × A} (member : rule ∈ rules)
    (keeps : ∀ a, facts.has s a = true → facts.has t a = true)
    (before : facts.has s rule.2 = false) (after : facts.has t rule.2 = true) :
    missing facts rules t < missing facts rules s := by
  rcases append_of_mem member with ⟨front, back, rfl⟩
  have front_le : missing facts front t ≤ missing facts front s := missing_le front keeps
  have back_le : missing facts back t ≤ missing facts back s := missing_le back keeps
  simp only [missing, countP_append, countP_cons, before, after, Bool.not_false,
    Bool.not_true, if_true, Bool.false_eq_true, if_false] at front_le back_le ⊢
  omega

theorem fires_progress (current : S × Bool) (start : current.2 = false)
    (changed : (rules.foldl (fire facts) current).2 = true) :
    ∃ rule ∈ rules, facts.has current.1 rule.2 = false ∧
      facts.has (rules.foldl (fire facts) current).1 rule.2 = true := by
  induction rules generalizing current with
  | nil => simp [start] at changed
  | cons rule rest ih =>
    by_cases fires : (facts.has current.1 rule.1 && !facts.has current.1 rule.2) = true
    · have next : fire facts current rule = (facts.add current.1 rule.2, true) := if_pos fires
      simp only [Bool.and_eq_true, Bool.not_eq_true'] at fires
      refine ⟨rule, .head _, fires.2, ?_⟩
      rw [foldl_cons, next]
      exact fires_keep rest _ _ ((facts.has_add _ _ _).2 (.inr rfl))
    · have next : fire facts current rule = current := if_neg fires
      rw [foldl_cons, next] at changed ⊢
      rcases ih current start changed with ⟨other, member, before, after⟩
      exact ⟨other, .tail _ member, before, after⟩

theorem pass_progress (s : S) (changed : (pass facts rules s).2 = true) :
    missing facts rules (pass facts rules s).1 < missing facts rules s := by
  rcases fires_progress rules (s, false) rfl changed with ⟨rule, member, before, after⟩
  exact missing_lt rules member (fun a held => fires_keep rules (s, false) a held) before after

end Passes

/-- `while (changed)` -/
def saturate (rules : List (A × A)) (s : S) : S :=
  if (pass facts rules s).2 then saturate rules (pass facts rules s).1
  else (pass facts rules s).1
termination_by missing facts rules s
decreasing_by exact pass_progress rules s ‹_›

variable {facts}

variable (rules : List (A × A))

theorem saturate_iff (s : S) (a : A) :
    facts.has (saturate facts rules s) a = true ↔
      Follows (fun b => facts.has s b = true) rules a := by
  fun_induction saturate facts rules s with
  | case1 s _ ih =>
    rw [ih]
    constructor
    · exact Follows.mono fun b held =>
        fires_follow rules rules (List.Subset.refl _) _ (s, false) (fun c there => .base there) b held
    · exact Follows.mono fun b held => .base (fires_keep rules (s, false) b held)
  | case2 s unchanged =>
    rcases fires_unchanged rules (s, false) (by simpa [pass] using unchanged) with ⟨same, closed⟩
    have kept : (pass facts rules s).1 = s := congrArg Prod.fst same
    rw [kept]
    constructor
    · intro held
      exact .base held
    · intro follows
      induction follows with
      | base given => exact given
      | step rule _ ih => exact closed _ rule ih

theorem saturate_invariant {inv : S → Prop}
    (kept : ∀ s a, inv s → facts.has s a = false → inv (facts.add s a))
    (rules : List (A × A)) {s : S} (holds : inv s) : inv (saturate facts rules s) := by
  have passed : ∀ rules : List (A × A), ∀ current : S × Bool, inv current.1 →
      inv (rules.foldl (fire facts) current).1 := by
    intro rules
    induction rules with
    | nil => exact fun _ => id
    | cons rule _ ih =>
      intro current holds
      apply ih
      unfold fire
      split
      · next fires =>
          simp only [Bool.and_eq_true, Bool.not_eq_true'] at fires
          exact kept _ _ holds fires.2
      · exact holds
  fun_induction saturate facts rules s with
  | case1 s _ ih => exact ih (passed rules (s, false) holds)
  | case2 s _ => exact passed rules (s, false) holds

theorem saturate_passes (s : S) :
    ∃ n ≤ missing facts rules s, (fun s => (pass facts rules s).1)^[n] s = saturate facts rules s ∧
      pass facts rules (saturate facts rules s) = (saturate facts rules s, false) := by
  fun_induction saturate facts rules s with
  | case1 s changed ih =>
    rcases ih with ⟨n, few, reached, quiet⟩
    have progress := pass_progress rules s changed
    exact ⟨n + 1, by omega, reached, quiet⟩
  | case2 s unchanged =>
    have same := (fires_unchanged rules (s, false) (by simpa [pass] using unchanged)).1
    have still : pass facts rules s = (s, false) := same
    exact ⟨0, Nat.zero_le _, by rw [still]; rfl, by rw [still]; exact still⟩

end Saturation
