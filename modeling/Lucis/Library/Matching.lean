import Mathlib.Data.List.Basic

/-!
Repeated search in a text that ends at a terminator. A matcher is any function that
answers, for a text, at most one range inside it. The search goes on behind each match,
or one element on where the match ends at its start; what lies in front of a match is
a gap.
-/

namespace Matching

open List

universe u

variable {α : Type u}

structure Matcher (α : Type u) where
  run : List α → Option (Nat × Nat)
  inside : ∀ {s so eo}, run s = some (so, eo) → so ≤ eo ∧ eo ≤ s.length

/-- Where the search goes on behind a match that ends at `eo`. -/
def after (s : List α) (eo : Nat) : List α := if eo = 0 then s.drop 1 else s.drop eo

theorem length_after_lt {s : List α} (nonempty : s ≠ []) (eo : Nat) :
    (after s eo).length < s.length := by
  have positive := length_pos_iff.2 nonempty
  rw [after]
  split
  · rw [length_drop]
    omega
  · rw [length_drop]
    omega

theorem search_induction {P : List α → Prop}
    (step : ∀ s, (s ≠ [] → ∀ eo, P (after s eo)) → P s) (s : List α) : P s := by
  induction counted : s.length using Nat.strongRecOn generalizing s with
  | ind count ih =>
    apply step
    intro nonempty eo
    exact ih _ (counted ▸ length_after_lt nonempty eo) (after s eo) rfl

theorem after_nil (eo : Nat) : after ([] : List α) eo = [] := by
  rw [after]
  split <;> simp

theorem after_subset (s : List α) (eo : Nat) : after s eo ⊆ s := by
  rw [after]
  split
  · exact drop_subset 1 s
  · exact drop_subset eo s

theorem take_range {s : List α} {so eo : Nat} (order : so ≤ eo) :
    s.take so ++ (s.take eo).drop so = s.take eo := by
  have front : s.take so = (s.take eo).take so := by
    rw [take_take, Nat.min_eq_left order]
  rw [front, take_append_drop]

section Search
variable [DecidableEq α] (stop : α) (m : Matcher α)

def visible (s : List α) : List α := s.takeWhile (· ≠ stop)

variable {stop} in
theorem ne_nil_of_visible {s : List α} (seen : visible stop s ≠ []) : s ≠ [] := by
  rintro rfl
  exact seen rfl

theorem length_visible_le (s : List α) : (visible stop s).length ≤ s.length :=
  (List.takeWhile_prefix _).length_le

def found (s : List α) : List (List α) :=
  match m.run (visible stop s) with
  | none => []
  | some (so, eo) =>
    ((visible stop s).take eo).drop so ::
      if _more : visible stop (after s eo) ≠ [] then found (after s eo) else []
termination_by s.length
decreasing_by
  apply length_after_lt
  rintro rfl
  exact _more (by rw [after_nil]; rfl)

def gaps (s : List α) : List (List α) :=
  match m.run (visible stop s) with
  | none => [visible stop s]
  | some (so, eo) =>
    (visible stop s).take so ::
      if _more : visible stop (after s eo) ≠ [] then gaps (after s eo) else [[]]
termination_by s.length
decreasing_by
  apply length_after_lt
  rintro rfl
  exact _more (by rw [after_nil]; rfl)

def ends (s : List α) : List Nat :=
  match m.run (visible stop s) with
  | none => []
  | some (_, eo) => eo :: if _more : visible stop (after s eo) ≠ [] then ends (after s eo) else []
termination_by s.length
decreasing_by
  apply length_after_lt
  rintro rfl
  exact _more (by rw [after_nil]; rfl)

end Search

def weave : List (List α) → List (List α) → List α
  | part :: parts, between :: rest => part ++ between ++ weave parts rest
  | parts, rest => parts.flatten ++ rest.flatten

section Weaving
variable [DecidableEq α] {stop : α} {m : Matcher α} {s : List α} {so eo : Nat}

theorem found_none (absent : m.run (visible stop s) = none) : found stop m s = [] := by
  rw [found, absent]

theorem found_some (here : m.run (visible stop s) = some (so, eo)) :
    found stop m s = ((visible stop s).take eo).drop so ::
      if visible stop (after s eo) = [] then [] else found stop m (after s eo) := by
  rw [found, here]
  simp only [ne_eq, dite_eq_ite, ite_not]

theorem ends_none (absent : m.run (visible stop s) = none) : ends stop m s = [] := by
  rw [ends, absent]

theorem ends_some (here : m.run (visible stop s) = some (so, eo)) : ends stop m s =
      eo :: if visible stop (after s eo) = [] then [] else ends stop m (after s eo) := by
  rw [ends, here]
  simp only [ne_eq, dite_eq_ite, ite_not]

theorem gaps_none (absent : m.run (visible stop s) = none) : gaps stop m s = [visible stop s] := by
  rw [gaps, absent]

theorem gaps_some (here : m.run (visible stop s) = some (so, eo)) :
    gaps stop m s = (visible stop s).take so ::
      if visible stop (after s eo) = [] then [[]] else gaps stop m (after s eo) := by
  rw [gaps, here]
  simp only [ne_eq, dite_eq_ite, ite_not]

theorem visible_eq (plain : stop ∉ s) : visible stop s = s := by
  induction s with
  | nil => rfl
  | cons c s ih =>
    have other : c ≠ stop := fun same => plain (same ▸ (.head _))
    have rest := ih fun member => plain (mem_cons_of_mem c member)
    rw [visible] at rest ⊢
    rw [takeWhile_cons_of_pos (by simpa using other), rest]

theorem visible_terminated (s : List α) : visible stop (s ++ [stop]) = visible stop s := by
  induction s with
  | nil => simp [visible]
  | cons c s ih =>
    rw [visible, visible] at ih ⊢
    rw [cons_append, takeWhile_cons, takeWhile_cons, ih]

theorem headD_eq_iff : s.headD stop = stop ↔ visible stop s = [] := by
  cases s with
  | nil => exact iff_of_true rfl rfl
  | cons c s => simp [visible, takeWhile_cons]

theorem weave_step (plain : stop ∉ s) (here : m.run s = some (so, eo)) :
    weave (gaps stop m s) (found stop m s) = s.take eo ++ if after s eo = [] then []
        else weave (gaps stop m (after s eo)) (found stop m (after s eo)) := by
  have seen := visible_eq plain
  have seen' : visible stop (after s eo) = after s eo :=
    visible_eq fun member => plain (after_subset s eo member)
  rw [gaps_some (by rwa [seen]), found_some (by rwa [seen]), seen, seen', weave,
    take_range (m.inside here).1]
  split <;> simp [weave]

theorem weave_stop (plain : stop ∉ s) (absent : m.run s = none) :
    weave (gaps stop m s) (found stop m s) = s := by
  have seen := visible_eq plain
  rw [gaps_none (by rwa [seen]), found_none (by rwa [seen]), seen]
  simp [weave]

theorem length_weave_le (plain : stop ∉ s) :
    (weave (gaps stop m s) (found stop m s)).length ≤ s.length := by
  induction s using search_induction with
  | step s ih =>
    cases here : m.run s with
    | none => exact Nat.le_of_eq (congrArg List.length (weave_stop plain here))
    | some range =>
      rcases range with ⟨so, eo⟩
      have bounds := m.inside here
      rw [weave_step plain here, length_append, length_take]
      by_cases ended : after s eo = []
      · rw [if_pos ended, length_nil]
        omega
      · have nonempty : s ≠ [] := fun empty => ended (by rw [empty, after_nil])
        have rest := ih nonempty eo fun member => plain (after_subset s eo member)
        have shorter := length_after_lt nonempty eo
        have split : (after s eo).length = s.length - (if eo = 0 then 1 else eo) := by
          rw [after]
          split <;> rw [length_drop]
        rw [if_neg ended]
        split at split <;> omega

theorem weave_eq_iff (plain : stop ∉ s) (seen : s ≠ [] ∨ m.run s = none) :
    weave (gaps stop m s) (found stop m s) = s ↔ 0 ∉ ends stop m s := by
  induction s using search_induction with
  | step s ih =>
    have whole := visible_eq plain
    cases here : m.run s with
    | none =>
      rw [weave_stop plain here, ends_none (by rwa [whole])]
      exact iff_of_true rfl not_mem_nil
    | some range =>
      rcases range with ⟨so, eo⟩
      have nonempty : s ≠ [] := seen.resolve_right (by rw [here]; nofun)
      have plain' : stop ∉ after s eo := fun member => plain (after_subset s eo member)
      have whole' : visible stop (after s eo) = after s eo := visible_eq plain'
      rw [weave_step plain here, ends_some (by rwa [whole]), whole']
      by_cases onward : eo = 0
      · -- one element is stepped over, and no gap has it
        refine iff_of_false (fun same => ?_) (fun absent => absent (by simp [onward]))
        have short := length_weave_le (m := m) plain'
        have shorter := length_after_lt nonempty eo
        have lengths := congrArg List.length same
        rw [length_append, length_take] at lengths
        split at lengths
        · rw [length_nil] at lengths
          omega
        · omega
      · have cut : s.take eo ++ after s eo = s := by
          rw [after, if_neg onward, take_append_drop]
        have kept (rest : List α) : s.take eo ++ rest = s ↔ rest = after s eo := by
          constructor
          · intro same
            exact append_cancel_left (same.trans cut.symm)
          · intro same
            rw [same, cut]
        rw [kept, mem_cons, not_or]
        by_cases ended : after s eo = []
        · rw [if_pos ended, if_pos ended, ended]
          exact iff_of_true rfl ⟨fun same => onward same.symm, not_mem_nil⟩
        · rw [if_neg ended, if_neg ended, ih nonempty eo plain' (.inl ended)]
          constructor
          · intro absent
            exact ⟨fun same => onward same.symm, absent⟩
          · intro both
            exact both.2

end Weaving

section Searches
variable [DecidableEq α] (stop : α) (m : Matcher α) (keep : Nat × Nat → Bool)

/-- The searches that find a match, each with the text it was over. Whether nothing is left
to see is asked behind a match that is kept, and not behind one that is passed over. -/
def searches (s : List α) : List (List α × Nat × Nat) :=
  match m.run (visible stop s) with
  | none => []
  | some range =>
    (s, range) ::
      if _more : s ≠ [] ∧ (keep range = true → visible stop (after s range.2) ≠ []) then
        searches (after s range.2)
      else []
termination_by s.length
decreasing_by exact length_after_lt _more.1 _

variable {stop m keep} {s : List α} {range : Nat × Nat}

theorem searches_none (absent : m.run (visible stop s) = none) : searches stop m keep s = [] := by
  rw [searches, absent]

theorem searches_more (here : m.run (visible stop s) = some range) (nonempty : s ≠ [])
    (onward : keep range = true → visible stop (after s range.2) ≠ []) :
    searches stop m keep s = (s, range) :: searches stop m keep (after s range.2) := by
  rw [searches, here]
  exact congrArg _ (dif_pos ⟨nonempty, onward⟩)

theorem searches_last (here : m.run (visible stop s) = some range)
    (ended : s = [] ∨ keep range = true ∧ visible stop (after s range.2) = []) :
    searches stop m keep s = [(s, range)] := by
  rw [searches, here]
  refine congrArg _ (dif_neg ?_)
  rintro ⟨nonempty, onward⟩
  rcases ended with empty | ⟨kept, unseen⟩
  · exact nonempty empty
  · exact onward kept unseen

theorem search_end_iff : (∃ range, ([], range) ∈ searches stop m keep s) ↔
      m.run [] ≠ none ∧ (s = [] ∨
        ∃ step ∈ searches stop m keep s, keep step.2 = false ∧ after step.1 step.2.2 = []) := by
  induction s using search_induction with
  | step s ih =>
    by_cases empty : s = []
    · subst empty
      cases here : m.run (visible stop []) with
      | none =>
        rw [searches_none here]
        refine iff_of_false (fun ⟨_, member⟩ => absurd member not_mem_nil) ?_
        exact fun ⟨accepts, _⟩ => accepts here
      | some range =>
        rw [searches_last here (.inl rfl)]
        refine iff_of_true ⟨range, mem_singleton_self _⟩ ⟨?_, .inl rfl⟩
        exact fun refused => absurd (here.symm.trans refused) (by nofun)
    · cases here : m.run (visible stop s) with
      | none =>
        rw [searches_none here]
        refine iff_of_false (fun ⟨_, member⟩ => absurd member not_mem_nil) ?_
        rintro ⟨_, same | ⟨step, member, _⟩⟩
        · exact empty same
        · exact absurd member not_mem_nil
      | some range =>
        by_cases onward : keep range = true → visible stop (after s range.2) ≠ []
        · have rest := ih empty range.2
          rw [searches_more here empty onward]
          constructor
          · rintro ⟨last, member⟩
            rcases mem_cons.1 member with same | member
            · exact absurd (congrArg Prod.fst same).symm empty
            · obtain ⟨accepts, left⟩ := rest.1 ⟨last, member⟩
              refine ⟨accepts, .inr ?_⟩
              rcases left with nothing | ⟨step, member, passed⟩
              · -- nothing is left to see, so this match was passed over
                have unseen : visible stop (after s range.2) = [] := by rw [nothing]; rfl
                have passed : keep range = false :=
                  Bool.eq_false_iff.2 fun kept => onward kept unseen
                exact ⟨(s, range), .head _, passed, nothing⟩
              · exact ⟨step, .tail _ member, passed⟩
          · rintro ⟨accepts, same | ⟨step, member, passed, nothing⟩⟩
            · exact absurd same empty
            · have later : ∃ last, ([], last) ∈ searches stop m keep (after s range.2) := by
                rcases mem_cons.1 member with same | member
                · subst same
                  exact rest.2 ⟨accepts, .inl nothing⟩
                · exact rest.2 ⟨accepts, .inr ⟨step, member, passed, nothing⟩⟩
              obtain ⟨last, member⟩ := later
              exact ⟨last, .tail _ member⟩
        · rw [Classical.not_imp, not_not] at onward
          rw [searches_last here (.inr onward)]
          refine iff_of_false ?_ ?_
          · rintro ⟨last, member⟩
            exact empty (congrArg Prod.fst (mem_singleton.1 member)).symm
          · rintro ⟨_, same | ⟨step, member, passed, _⟩⟩
            · exact empty same
            · rw [mem_singleton.1 member, onward.1] at passed
              cases passed

end Searches

section Cuts

/-- A piece of a text: what is in front of a match, the match, and the element that is stepped
over behind an empty one. -/
structure Cut (α : Type u) where
  front : List α
  found : List α
  stepped : List α

def Cut.of (s : List α) (so eo : Nat) : Cut α where
  front := s.take so
  found := (s.take eo).drop so
  stepped := if so = eo then (s.drop eo).take 1 else []

def behind (s : List α) (so eo : Nat) : List α :=
  if so = eo then s.drop (eo + 1) else s.drop eo

theorem length_behind_lt {s : List α} {so eo : Nat} (order : so ≤ eo) (inside : eo ≤ s.length)
    (more : so = eo → s.drop eo ≠ []) : (behind s so eo).length < s.length := by
  rw [behind]
  split
  · next empty =>
      have left := length_pos_iff.2 (more empty)
      rw [length_drop] at left ⊢
      omega
  · rw [length_drop]
    omega

theorem behind_subset (s : List α) (so eo : Nat) : behind s so eo ⊆ s := by
  rw [behind]
  split
  · exact drop_subset (eo + 1) s
  · exact drop_subset eo s

/-- The pieces of a text up to the last match, or up to the first one, and what is left. -/
def cuts (m : Matcher α) (all : Bool) (s : List α) : List (Cut α) × List α :=
  match _found : m.run s with
  | none => ([], s)
  | some (so, eo) =>
    if _more : all = true ∧ (so = eo → s.drop eo ≠ []) then
      (.of s so eo :: (cuts m all (behind s so eo)).1, (cuts m all (behind s so eo)).2)
    else ([.of s so eo], behind s so eo)
termination_by s.length
decreasing_by exact length_behind_lt (m.inside _found).1 (m.inside _found).2 _more.2

def fill (f : List α → List α) (pieces : List (Cut α)) : List α :=
  pieces.flatMap fun cut => cut.front ++ f cut.found ++ cut.stepped

theorem fill_cons (f : List α → List α) (cut : Cut α) (pieces : List (Cut α)) :
    fill f (cut :: pieces) = cut.front ++ f cut.found ++ cut.stepped ++ fill f pieces := by
  rw [fill, flatMap_cons, fill]

variable {m : Matcher α} {all : Bool} {s : List α} {so eo : Nat}

theorem cuts_none (absent : m.run s = none) : cuts m all s = ([], s) := by
  rw [cuts]
  split
  · rfl
  · next here => rw [absent] at here; cases here

theorem cuts_some (found : m.run s = some (so, eo)) : cuts m all s =
      if all = true ∧ (so = eo → s.drop eo ≠ []) then
        (.of s so eo :: (cuts m all (behind s so eo)).1, (cuts m all (behind s so eo)).2)
      else ([.of s so eo], behind s so eo) := by
  rw [cuts]
  split
  · next here => rw [found] at here; cases here
  · next here =>
      rw [found] at here
      cases here
      rw [dite_eq_ite]

theorem cuts_head (found : m.run s = some (so, eo)) :
    ∃ back, (cuts m all s).1 = .of s so eo :: back := by
  rw [cuts_some found]
  split
  · exact ⟨_, rfl⟩
  · exact ⟨[], rfl⟩

theorem cut_behind (order : so ≤ eo) :
    (Cut.of s so eo).front ++ (Cut.of s so eo).found ++ (Cut.of s so eo).stepped ++
      behind s so eo = s := by
  rw [Cut.of, behind]
  dsimp only
  rw [take_range order]
  split
  · rw [append_assoc, ← drop_drop, take_append_drop, take_append_drop]
  · rw [append_nil, take_append_drop]

theorem fill_cuts : fill id (cuts m all s).1 ++ (cuts m all s).2 = s := by
  induction counted : s.length using Nat.strongRecOn generalizing s with
  | ind count ih =>
    cases here : m.run s with
    | none => rw [cuts_none here]; rfl
    | some range =>
      obtain ⟨so, eo⟩ := range
      have bounds := m.inside here
      have whole := cut_behind (s := s) bounds.1
      rw [cuts_some here]
      split
      · next more =>
          have shorter := length_behind_lt bounds.1 bounds.2 more.2
          have rest := ih _ (counted ▸ shorter) rfl
          rw [fill_cons, id, append_assoc _ (fill id _) _, rest, whole]
      · rw [fill_cons, id, fill, flatMap_nil, append_nil, whole]

theorem cuts_first : (cuts m false s).1 = (cuts m true s).1.take 1 := by
  cases here : m.run s with
  | none => rw [cuts_none here, cuts_none here]; rfl
  | some range =>
    rw [cuts_some here, cuts_some here, if_neg (by simp)]
    split <;> rfl

end Cuts

end Matching
