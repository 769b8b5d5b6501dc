import Mathlib.Algebra.Order.BigOperators.Group.List
import Mathlib.Algebra.Order.Group.Nat
import Mathlib.Algebra.Ring.Nat
import Mathlib.Data.List.Chain

/-!
Regions of an address space, listed in address order: where one more can be put in, what
joining two that touch does to the list, and when a list fills the space between two points.
-/

structure Region where
  start : Nat
  size : Nat
  deriving DecidableEq

namespace Region

open List

def stop (r : Region) : Nat := r.start + r.size

def Apart (r q : Region) : Prop := r.stop ≤ q.start ∨ q.stop ≤ r.start

def Shares (r q : Region) : Prop := ∃ x, r.start ≤ x ∧ x < r.stop ∧ q.start ≤ x ∧ x < q.stop

def Inside (r q : Region) : Prop := q.start ≤ r.start ∧ r.stop ≤ q.stop

def Before (r q : Region) : Prop := r.stop ≤ q.start

def Ordered (rs : List Region) : Prop := rs.Pairwise Before

def Gapped (rs : List Region) : Prop := rs.IsChain fun r q => r.stop ≠ q.start

def total (rs : List Region) : Nat := (rs.map size).sum

def join (r : Region) : List Region → List Region
  | [] => [r]
  | q :: rest => if r.stop = q.start then ⟨r.start, r.size + q.size⟩ :: rest else r :: q :: rest

variable {r q s : Region} {front back rest : List Region}

@[simp] theorem total_nil : total [] = 0 := rfl

@[simp] theorem total_cons (r : Region) (rest : List Region) :
    total (r :: rest) = r.size + total rest := by
  simp [total]

@[simp] theorem total_append (front back : List Region) :
    total (front ++ back) = total front + total back := by
  simp [total]

theorem Apart.symm (apart : Apart r q) : Apart q r := Or.symm apart

theorem Apart.not_shares (apart : Apart r q) : ¬Shares r q := by
  rintro ⟨x, start, stop, start', stop'⟩
  rcases apart with before | after
  · exact lt_irrefl x (stop.trans_le (before.trans start'))
  · exact lt_irrefl x (stop'.trans_le (after.trans start))

theorem Shares.symm (shares : Shares r q) : Shares q r := by
  rcases shares with ⟨x, start, stop, start', stop'⟩
  exact ⟨x, start', stop', start, stop⟩

theorem Shares.of_inside (shares : Shares s q) (inside : Inside s r) : Shares r q := by
  rcases shares with ⟨x, start, stop, others⟩
  exact ⟨x, inside.1.trans start, stop.trans_le inside.2, others⟩

theorem Apart.inside (apart : Apart r q) (inside : Inside s q) : Apart r s := by
  rcases apart with before | after
  · exact .inl (before.trans inside.1)
  · exact .inr (inside.2.trans after)

theorem Inside.refl (r : Region) : Inside r r := ⟨le_rfl, le_rfl⟩

theorem Apart.before (apart : Apart r q) (some : 0 < q.size) (first : r.start ≤ q.start) :
    Before r q := by
  rcases apart with before | after
  · exact before
  · simp only [stop] at after
    omega

theorem ordered_append : Ordered (front ++ back) ↔
      Ordered front ∧ Ordered back ∧ ∀ r ∈ front, ∀ q ∈ back, Before r q :=
  pairwise_append

theorem ordered_cons : Ordered (r :: rest) ↔ (∀ q ∈ rest, Before r q) ∧ Ordered rest :=
  pairwise_cons

theorem ordered_insert (ordered : Ordered (front ++ back)) (some : 0 < r.size)
    (nonempty : ∀ q ∈ front ++ back, 0 < q.size) (apart : ∀ q ∈ front ++ back, Apart r q)
    (below : ∀ q ∈ front, q.start < r.start) (above : ∀ q ∈ back, r.start ≤ q.start) :
    Ordered (front ++ r :: back) := by
  rcases ordered_append.1 ordered with ⟨first, last, across⟩
  have after : ∀ q ∈ back, Before r q := fun q member =>
    (apart q (mem_append_right front member)).before
      (nonempty q (mem_append_right front member)) (above q member)
  have behind : ∀ q ∈ front, Before q r := fun q member =>
    (apart q (mem_append_left back member)).symm.before some (le_of_lt (below q member))
  refine ordered_append.2 ⟨first, ordered_cons.2 ⟨after, last⟩, ?_⟩
  intro q member other later
  rcases mem_cons.1 later with rfl | later
  · exact behind q member
  · exact across q member other later

section Join

@[simp] theorem total_join (r : Region) (rest : List Region) :
    total (join r rest) = r.size + total rest := by
  cases rest with
  | nil => simp [join]
  | cons q rest =>
    simp only [join]
    split
    · simp [add_assoc]
    · simp

theorem mem_join (member : s ∈ join r rest) :
    s ∈ r :: rest ∨ ∃ q ∈ rest, r.stop = q.start ∧ s = ⟨r.start, r.size + q.size⟩ := by
  cases rest with
  | nil => exact .inl member
  | cons q rest =>
    simp only [join] at member
    split at member
    · next touch =>
        rcases mem_cons.1 member with same | later
        · exact .inr ⟨q, .head _, touch, same⟩
        · exact .inl (.tail _ (.tail _ later))
    · exact .inl member

variable {P : Region → Prop}

theorem forall_join (each : ∀ q ∈ r :: rest, P q)
    (joined : ∀ q ∈ rest, r.stop = q.start → P ⟨r.start, r.size + q.size⟩) :
    ∀ q ∈ join r rest, P q := by
  intro q member
  rcases mem_join member with same | ⟨next, later, touch, rfl⟩
  · exact each q same
  · exact joined next later touch

def Joins (P : Region → Prop) : Prop :=
  ∀ r q, r.stop = q.start → P r → P q → P ⟨r.start, r.size + q.size⟩

theorem forall_append_join (joins : Joins P)
    (each : ∀ q ∈ front ++ r :: rest, P q) : ∀ q ∈ front ++ join r rest, P q := by
  have here : P r := each r (mem_append_right front (.head _))
  intro q member
  rcases mem_append.1 member with early | late
  · exact each q (mem_append_left _ early)
  · refine forall_join (fun s listed => each s (mem_append_right front listed))
      (fun s listed touch => joins r s touch here ?_) q late
    exact each s (mem_append_right front (mem_cons_of_mem r listed))

theorem before_join (before : ∀ q ∈ r :: rest, Before s q) : ∀ q ∈ join r rest, Before s q :=
  forall_join before fun _ _ _ => before r (.head _)

theorem joins_apart (some : 0 < s.size) : Joins (Apart s) := by
  intro r q touch here there
  simp only [Apart, stop] at here there touch ⊢
  omega

theorem joins_within (lo hi least : Nat) :
    Joins fun r => lo ≤ r.start ∧ r.stop ≤ hi ∧ least < r.size := by
  intro r q touch here there
  simp only [stop] at here there touch ⊢
  omega

theorem ordered_join (ordered : Ordered (r :: rest)) : Ordered (join r rest) := by
  cases rest with
  | nil => exact ordered
  | cons q rest =>
    simp only [join]
    split
    · next touch =>
        rcases ordered_cons.1 (ordered_cons.1 ordered).2 with ⟨before, later⟩
        refine ordered_cons.2 ⟨fun s member => ?_, later⟩
        have end_eq : stop ⟨r.start, r.size + q.size⟩ = q.stop := by
          simp only [stop] at touch ⊢
          omega
        exact (le_of_eq end_eq).trans (before s member)
    · exact ordered

theorem ordered_append_join (ordered : Ordered (front ++ r :: rest)) :
    Ordered (front ++ join r rest) := by
  rcases ordered_append.1 ordered with ⟨first, last, across⟩
  exact ordered_append.2 ⟨first, ordered_join last, fun q member => before_join (across q member)⟩

theorem gapped_join (gapped : Gapped rest) : Gapped (join r rest) := by
  cases rest with
  | nil => exact List.IsChain.singleton r
  | cons q rest =>
    simp only [join]
    split
    · next touch =>
        have end_eq : stop ⟨r.start, r.size + q.size⟩ = q.stop := by
          simp only [stop] at touch ⊢
          omega
        cases rest with
        | nil => exact List.IsChain.singleton _
        | cons s rest =>
          rcases isChain_cons_cons.1 gapped with ⟨gap, later⟩
          exact isChain_cons_cons.2 ⟨fun same => gap (end_eq.symm.trans same), later⟩
    · next apart => exact isChain_cons_cons.2 ⟨apart, gapped⟩

theorem gapped_append_join (gapped : Gapped (front ++ [r])) (later : Gapped rest) :
    Gapped (front ++ join r rest) := by
  rcases isChain_append.1 gapped with ⟨first, _, across⟩
  refine isChain_append.2 ⟨first, gapped_join later, fun q last s head => ?_⟩
  have start : s.start = r.start := by
    cases rest with
    | nil => cases head; rfl
    | cons q rest =>
      simp only [join] at head
      split at head <;> (cases head; rfl)
  rw [start]
  exact across q last r rfl

end Join

variable {rs : List Region}

theorem stop_ne_start (ordered : Ordered rs) (gapped : Gapped rs)
    (positive : ∀ r ∈ rs, 0 < r.size) : ∀ r ∈ rs, ∀ q ∈ rs, r.stop ≠ q.start := by
  induction rs with
  | nil => nofun
  | cons head rest ih =>
    rcases ordered_cons.1 ordered with ⟨behind, later⟩
    rcases forall_mem_cons.1 positive with ⟨some, positive⟩
    have below : ∀ q ∈ rest, head.stop ≠ q.start := by
      cases rest with
      | nil => nofun
      | cons next rest =>
        have gap := (isChain_cons_cons.1 gapped).1
        refine forall_mem_cons.2 ⟨gap, fun q member => ?_⟩
        have first := behind next (.head _)
        have second := (ordered_cons.1 later).1 q member
        have room := positive next (.head _)
        simp only [Before, stop] at first second ⊢
        omega
    have within := ih later (isChain_cons.1 gapped).2 positive
    intro r member q member'
    rcases mem_cons.1 member with rfl | early <;>
      rcases mem_cons.1 member' with rfl | late
    · exact ne_of_gt (Nat.lt_add_of_pos_right some)
    · exact below q late
    · have after := behind r early
      simp only [Before, stop] at after ⊢
      omega
    · exact within r early q late

theorem total_le (ordered : Ordered rs) {lo hi : Nat}
    (inside : ∀ r ∈ rs, lo ≤ r.start ∧ r.stop ≤ hi) : total rs ≤ hi - lo := by
  induction rs generalizing lo with
  | nil => exact Nat.zero_le _
  | cons r rest ih =>
    rcases ordered_cons.1 ordered with ⟨before, later⟩
    have here := inside r (.head _)
    have there : total rest ≤ hi - r.stop := ih later fun q member =>
      ⟨before q member, (inside q (mem_cons_of_mem r member)).2⟩
    simp only [stop] at here there
    rw [total_cons]
    omega

theorem single_of_total (ordered : Ordered rs) (gapped : Gapped rs)
    (lo hi : Nat) (inside : ∀ r ∈ rs, lo ≤ r.start ∧ r.stop ≤ hi) (some : lo < hi) (full : total rs = hi - lo) :
    rs = [⟨lo, hi - lo⟩] := by
  cases rs with
  | nil =>
    rw [total_nil] at full
    omega
  | cons r rest =>
    have here := inside r (.head _)
    rcases ordered_cons.1 ordered with ⟨before, later⟩
    have within : ∀ q ∈ rest, q.stop ≤ hi := fun q member =>
      (inside q (mem_cons_of_mem r member)).2
    rw [total_cons] at full
    cases rest with
    | nil =>
      rw [total_nil] at full
      simp only [stop] at here
      have start_eq : r.start = lo := by omega
      have size_eq : r.size = hi - lo := by omega
      rw [← size_eq, ← start_eq]
    | cons q rest =>
      -- The rest cannot fill what is left from `q` on, as `q` begins behind a gap.
      have gap : r.stop ≠ q.start := (isChain_cons_cons.1 gapped).1
      have behind := before q (.head _)
      have fits : total (q :: rest) ≤ hi - q.start := by
        refine total_le later fun s member => ⟨?_, within s member⟩
        rcases mem_cons.1 member with rfl | member
        · exact le_rfl
        · have next := (ordered_cons.1 later).1 s member
          simp only [Before, stop] at next
          omega
      have room := within q (.head _)
      simp only [Before, stop] at here behind gap room
      omega

end Region
