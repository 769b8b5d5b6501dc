import Mathlib.Algebra.Ring.Nat
import Mathlib.Data.List.Basic

/-!
The occurrences of a pattern in a list, taken from the left without overlap, and the
pieces between them. Put together with another list in between, the pieces are the
list with every occurrence replaced.
-/

namespace Occurrences

open List

universe u

variable {α : Type u}

/-- The pattern stands at position `i`. -/
def OccursAt (p s : List α) (i : Nat) : Prop := p <+: s.drop i

variable {p s : List α} {i : Nat}

theorem OccursAt.inside (here : OccursAt p s i) (nonempty : p ≠ []) :
    i + p.length ≤ s.length := by
  have short : p.length ≤ (s.drop i).length := here.length_le
  have positive := length_pos_iff.2 nonempty
  rw [length_drop] at short
  omega

theorem OccursAt.drop_iff {j : Nat} :
    OccursAt p (s.drop i) j ↔ OccursAt p s (i + j) := by
  rw [OccursAt, OccursAt, drop_drop]

section Joined

variable (sep first : List α) (rest : List (List α))

theorem length_intercalate :
    (sep.intercalate (first :: rest)).length =
      first.length + (rest.map List.length).sum + rest.length * sep.length := by
  induction rest generalizing first with
  | nil => simp
  | cons second rest ih =>
    rw [intercalate_cons_cons, length_append, length_append, ih second,
      map_cons, sum_cons, length_cons, Nat.succ_mul]
    omega

theorem intercalate_cons_eq :
    sep.intercalate (first :: rest) = first ++ (rest.map (sep ++ ·)).flatten := by
  induction rest generalizing first with
  | nil => simp
  | cons second rest ih =>
    rw [intercalate_cons_cons, ih second, map_cons, flatten_cons, append_assoc, append_assoc]

theorem intercalate_empty (parts : List (List α)) :
    ([] : List α).intercalate parts = parts.flatten := by
  cases parts with
  | nil => rfl
  | cons first rest =>
    rw [intercalate_cons_eq, flatten_cons]
    simp

/-- The first `count` parts, and the rest of them put together as one more. -/
def limited (sep : List α) : Nat → List (List α) → List (List α)
  | _, [] => []
  | 0, part :: rest => [sep.intercalate (part :: rest)]
  | count + 1, part :: rest => part :: limited sep count rest

variable {parts : List (List α)}

variable (count : Nat)

theorem limited_ne_nil (nonempty : parts ≠ []) : limited sep count parts ≠ [] := by
  cases parts with
  | nil => exact absurd rfl nonempty
  | cons part rest => cases count <;> exact cons_ne_nil _ _

theorem length_limited_le (parts : List (List α)) :
    (limited sep count parts).length ≤ count + 1 := by
  induction count generalizing parts with
  | zero => cases parts <;> simp [limited]
  | succ count ih =>
    cases parts with
    | nil => simp [limited]
    | cons part rest => exact Nat.succ_le_succ (ih rest)

theorem limited_eq {count : Nat}
    (few : parts.length ≤ count + 1) : limited sep count parts = parts := by
  induction count generalizing parts with
  | zero =>
    cases parts with
    | nil => rfl
    | cons part rest =>
      have single : rest = [] := length_eq_zero_iff.1 (by simpa using few)
      rw [single, limited, intercalate_singleton]
  | succ count ih =>
    cases parts with
    | nil => rfl
    | cons part rest => rw [limited, ih (by simpa using few)]

theorem limited_zero (nonempty : parts ≠ []) :
    limited sep 0 parts = [sep.intercalate parts] := by
  cases parts with
  | nil => exact absurd rfl nonempty
  | cons part rest => rfl

theorem intercalate_limited (parts : List (List α)) :
    sep.intercalate (limited sep count parts) = sep.intercalate parts := by
  induction count generalizing parts with
  | zero =>
    by_cases empty : parts = []
    · rw [empty, limited]
    · rw [limited_zero sep empty, intercalate_singleton]
  | succ count ih =>
    cases parts with
    | nil => rfl
    | cons part rest =>
      rw [limited]
      by_cases last : rest = []
      · rw [last]
        cases count <;> rfl
      · rw [intercalate_cons_of_ne_nil (limited_ne_nil sep count last), ih,
          intercalate_cons_of_ne_nil last]

theorem mem_dropLast_limited (parts : List (List α)) :
    ∀ part ∈ (limited sep count parts).dropLast, part ∈ parts := by
  induction count generalizing parts with
  | zero => cases parts <;> simp [limited]
  | succ count ih =>
    cases parts with
    | nil => simp [limited]
    | cons first rest =>
      intro part member
      rw [limited] at member
      by_cases more : limited sep count rest = []
      · rw [more] at member
        cases member
      · rw [dropLast_cons_of_ne_nil more] at member
        rcases mem_cons.1 member with rfl | behind
        · exact .head _
        · exact .tail _ (ih rest part behind)

theorem intercalate_modifyHead (c : α) (parts : List (List α)) (nonempty : parts ≠ []) :
    sep.intercalate (parts.modifyHead (c :: ·)) = c :: sep.intercalate parts := by
  cases parts with
  | nil => exact absurd rfl nonempty
  | cons first rest => rw [modifyHead_cons, intercalate_cons_cons_left]

end Joined

variable [DecidableEq α]

instance (p s : List α) (i : Nat) : Decidable (OccursAt p s i) :=
  inferInstanceAs (Decidable (p <+: s.drop i))

def pieces (p : List α) : List α → List (List α)
  | [] => [[]]
  | c :: rest =>
    if p <+: c :: rest then [] :: pieces p (rest.drop (p.length - 1))
    else (pieces p rest).modifyHead (c :: ·)
termination_by s => s.length
decreasing_by
  · rw [List.length_drop, List.length_cons]
    omega
  · exact Nat.lt_succ_self _

def occurrences (p s : List α) : Nat := (pieces p s).length - 1

theorem pieces_nil (p : List α) : pieces p [] = [[]] := by
  rw [pieces]

theorem pieces_skip {rest : List α} {c : α} (differs : ¬p <+: c :: rest) :
    pieces p (c :: rest) = (pieces p rest).modifyHead (c :: ·) := by
  rw [pieces, if_neg differs]

theorem pieces_match (nonempty : p ≠ []) (here : p <+: s) :
    pieces p s = [] :: pieces p (s.drop p.length) := by
  have positive := length_pos_iff.2 nonempty
  cases s with
  | nil => exact absurd (prefix_nil.1 here) nonempty
  | cons c rest =>
    obtain ⟨before, counted⟩ : ∃ before, p.length = before + 1 := ⟨p.length - 1, by omega⟩
    rw [pieces, if_pos here, counted, drop_succ_cons, Nat.add_sub_cancel]

theorem pieces_ne_nil (p s : List α) : pieces p s ≠ [] := by
  induction s with
  | nil =>
    rw [pieces_nil]
    exact cons_ne_nil _ _
  | cons c rest ih =>
    rw [pieces]
    split
    · exact cons_ne_nil _ _
    · intro empty
      exact ih (modifyHead_eq_nil_iff.1 empty)

theorem length_pieces (p s : List α) : (pieces p s).length = occurrences p s + 1 :=
  (Nat.sub_add_cancel (length_pos_iff.2 (pieces_ne_nil p s))).symm

variable {rest : List (List α)} {first : List α}

theorem occurrences_eq (parts : pieces p s = first :: rest) : occurrences p s = rest.length := by
  rw [occurrences, parts, length_cons, Nat.add_sub_cancel]

theorem pieces_of_none (none : ∀ i, ¬OccursAt p s i) : pieces p s = [s] := by
  induction s with
  | nil => exact pieces_nil p
  | cons c rest ih =>
    rw [pieces_skip (none 0), ih (fun i => none (i + 1)), modifyHead_cons]

theorem pieces_of_first (nonempty : p ≠ []) (here : OccursAt p s i)
    (first : ∀ j < i, ¬OccursAt p s j) :
    pieces p s = s.take i :: pieces p (s.drop (i + p.length)) := by
  induction i generalizing s with
  | zero =>
    have start : p <+: s := here
    rw [pieces_match nonempty start, take_zero, zero_add]
  | succ i ih =>
    cases s with
    | nil => exact absurd (prefix_nil.1 here) nonempty
    | cons c rest =>
      have tail := ih (s := rest) here fun j before => first (j + 1) (Nat.succ_lt_succ before)
      rw [pieces_skip (first 0 (Nat.succ_pos i)), tail, modifyHead_cons,
        take_succ_cons, Nat.add_right_comm, drop_succ_cons]

theorem pieces_drop_match (nonempty : p ≠ []) (here : OccursAt p s i) :
    pieces p (s.drop i) = [] :: pieces p (s.drop (i + p.length)) := by
  rw [pieces_match nonempty here, drop_drop]

theorem pieces_drop_skip (inside : i < s.length) (absent : ¬OccursAt p s i) :
    pieces p (s.drop i) = (pieces p (s.drop (i + 1))).modifyHead (s[i] :: ·) := by
  rw [OccursAt, drop_eq_getElem_cons inside] at absent
  rw [drop_eq_getElem_cons inside, pieces_skip absent]

theorem pieces_drop_late (nonempty : p ≠ [])
    (late : s.length < i + p.length) : pieces p (s.drop i) = [s.drop i] := by
  apply pieces_of_none
  intro j occurs
  have inside := (OccursAt.drop_iff.1 occurs).inside nonempty
  omega

theorem intercalate_pieces (nonempty : p ≠ []) (s : List α) :
    p.intercalate (pieces p s) = s := by
  induction s using pieces.induct p with
  | case1 => rw [pieces_nil, intercalate_singleton]
  | case2 c rest here ih =>
    obtain ⟨before, counted⟩ : ∃ before, p.length = before + 1 :=
      Nat.exists_eq_add_one.2 (length_pos_iff.2 nonempty)
    rw [counted, Nat.add_sub_cancel] at ih
    rw [pieces_match nonempty here, intercalate_cons_of_ne_nil (pieces_ne_nil _ _),
      nil_append, counted, drop_succ_cons, ih]
    have whole := prefix_iff_eq_append.1 here
    rwa [counted, drop_succ_cons] at whole
  | case3 c rest differs ih =>
    rw [pieces_skip differs, intercalate_modifyHead p c _ (pieces_ne_nil p rest), ih]

theorem head_prefix (nonempty : p ≠ []) (parts : pieces p s = first :: rest) : first <+: s := by
  have restored := intercalate_pieces nonempty s
  rw [parts, intercalate_cons_eq] at restored
  exact ⟨_, restored⟩

theorem pieces_clean (nonempty : p ≠ []) (s : List α) :
    ∀ piece ∈ pieces p s, ∀ i, ¬OccursAt p piece i := by
  have empty (i : Nat) : ¬OccursAt p [] i := fun occurs => by
    have inside := occurs.inside nonempty
    have positive := length_pos_iff.2 nonempty
    rw [length_nil] at inside
    omega
  induction s using pieces.induct p with
  | case1 =>
    rw [pieces_nil]
    intro piece member
    rw [mem_singleton.1 member]
    exact empty
  | case2 c rest here ih =>
    obtain ⟨before, counted⟩ : ∃ before, p.length = before + 1 :=
      Nat.exists_eq_add_one.2 (length_pos_iff.2 nonempty)
    rw [counted, Nat.add_sub_cancel] at ih
    rw [pieces_match nonempty here, counted, drop_succ_cons]
    intro piece member
    rcases mem_cons.1 member with rfl | behind
    · exact empty
    · exact ih piece behind
  | case3 c rest differs ih =>
    rw [pieces_skip differs]
    cases parts : pieces p rest with
    | nil => exact absurd parts (pieces_ne_nil p rest)
    | cons first others =>
      rw [parts] at ih
      rw [modifyHead_cons]
      intro piece member
      rcases mem_cons.1 member with rfl | behind
      · intro i occurs
        cases i with
        | zero =>
          -- the piece is a prefix of the list, so the pattern would stand at its front
          have start : c :: first <+: c :: rest :=
            cons_prefix_cons.2 ⟨rfl, head_prefix nonempty parts⟩
          exact differs (List.IsPrefix.trans occurs start)
        | succ i => exact ih first (.head _) i occurs
      · exact ih piece (.tail _ behind)

theorem length_replaced (nonempty : p ≠ []) (rep s : List α) :
    (rep.intercalate (pieces p s)).length + occurrences p s * p.length =
      s.length + occurrences p s * rep.length := by
  have restored := congrArg List.length (intercalate_pieces nonempty s)
  rcases parts : pieces p s with _ | ⟨first, rest⟩
  · exact absurd parts (pieces_ne_nil p s)
  · rw [parts, length_intercalate] at restored
    rw [occurrences_eq parts, length_intercalate, ← restored]
    omega

end Occurrences
