import Mathlib.Data.List.Sublists
import Lucis.FuzzRunner

/-!
What `minimize` of fuzz/fuzz_runner.c makes of a crashing input, when the target does
the same with the same bytes. Each of its loops only leaves bytes out and keeps to inputs
that die as the first one did; the last pass with single bytes changed nothing, so it
tried every byte of what is left. A candidate for which malloc refuses a copy is passed over;
here none is.
-/

namespace Lucis.CrashMinimization

open FuzzRunner List

def Deterministic (target : Target) : Prop :=
  ∀ data m n, (target m data).started = (target n data).started ∧
    (target m data).status = (target n data).status

def DiesWith (target : Target) (sig : Nat) (data : List UInt8) : Prop :=
  ∀ n, (target n data).started = true ∧ (target n data).status = .signaled sig

section Loops

variable {target : Target} {sig : Nat}

theorem runOne_signaled (signal : sig ≠ 0) (s : Fuzz) :
    (!(runOne target s).1.finished && (runOne target s).1.termSig == sig) = true ↔
      (target s.execs (dispatchInput s)).started = true ∧
        (target s.execs (dispatchInput s)).status = .signaled sig := by
  unfold runOne
  by_cases started : (target s.execs (dispatchInput s)).started = true
  · simp only [started, if_true, true_and]
    cases (target s.execs (dispatchInput s)).status with
    | exited code => simp
    | signaled other => simp
  · -- nothing ran, and the result names no signal
    simp only [started, if_false, Bool.false_eq_true, false_and, iff_false]
    simp [signal.symm]

variable (deterministic : Deterministic target)
include deterministic

theorem reproduces_iff (signal : sig ≠ 0) (data : List UInt8) (s : Fuzz) :
    (reproduces target data sig s).1 = true ↔ DiesWith target sig data := by
  have given : dispatchInput { memcpyInput data s with inputLen := data.length } = data :=
    take_left' rfl
  have ran := @runOne_signaled target sig signal
    { memcpyInput data s with inputLen := data.length }
  rw [given] at ran
  constructor
  · intro same n
    have died := ran.1 same
    have alike := deterministic data n s.execs
    exact ⟨alike.1.trans died.1, alike.2.trans died.2⟩
  · intro dies
    exact ran.2 (dies s.execs)

structure Reduced (target : Target) (sig : Nat) (before after : List UInt8) : Prop where
  sublist : after.Sublist before
  nonempty : before ≠ [] → after ≠ []
  dies : DiesWith target sig before → DiesWith target sig after

omit deterministic in
theorem Reduced.refl (buf : List UInt8) : Reduced target sig buf buf :=
  ⟨List.Sublist.refl _, id, id⟩

omit deterministic in
theorem Reduced.trans {first second third : List UInt8} (left : Reduced target sig first second)
    (right : Reduced target sig second third) : Reduced target sig first third :=
  ⟨right.sublist.trans left.sublist, fun some => right.nonempty (left.nonempty some),
    fun dies => right.dies (left.dies dies)⟩

omit deterministic in
theorem reduced_block {buf : List UInt8} {pos stop : Nat} (ordered : pos ≤ stop)
    (rest : buf.length - (stop - pos) ≠ 0) (dies : DiesWith target sig (buf.take pos ++ buf.drop stop)) :
    Reduced target sig buf (buf.take pos ++ buf.drop stop) where
  sublist := by
    have parts : buf = buf.take pos ++ buf.drop pos := (take_append_drop pos buf).symm
    have later : (buf.drop stop).Sublist (buf.drop pos) := drop_sublist_drop_left buf ordered
    calc
      (buf.take pos ++ buf.drop stop).Sublist (buf.take pos ++ buf.drop pos) :=
        (List.Sublist.refl _).append later
      _ = buf := parts.symm
  nonempty some none := by
    have length := congrArg List.length none
    simp only [length_append, length_take, length_drop, length_nil] at length
    have positive := length_pos_iff.2 some
    omega
  dies _ := dies

theorem scan_reduced (signal : sig ≠ 0) (step : Nat)
    (positive : 0 < step) (buf : List UInt8) (pos reductions : Nat) (changed : Bool) (s : Fuzz) :
    Reduced target sig buf
      (minimizeScan target sig step positive buf pos reductions changed s).buf := by
  fun_induction minimizeScan target sig step positive buf pos reductions changed s with
  | case1 _ _ _ _ s _ _ _ ih => exact ih
  | case2 buf pos reductions _ s inside stop part tmp run same ih =>
    have dies := (reproduces_iff deterministic signal tmp s).1 same
    exact (reduced_block (by omega) part dies).trans ih
  | case3 _ _ _ _ s _ _ _ _ _ _ ih => exact ih
  | case4 buf _ _ _ s _ => exact .refl buf

omit deterministic in
theorem scan_changed (step : Nat) (positive : 0 < step) (buf : List UInt8) (pos reductions : Nat)
    (changed : Bool) (s : Fuzz) (flag : changed = true) :
    (minimizeScan target sig step positive buf pos reductions changed s).changed = true := by
  fun_induction minimizeScan target sig step positive buf pos reductions changed s with
  | case1 _ _ _ changed s _ _ _ ih => exact ih flag
  | case2 _ _ _ changed s _ _ _ _ _ _ ih => exact ih rfl
  | case3 _ _ _ changed s _ _ _ _ _ _ ih => exact ih flag
  | case4 _ _ _ changed s _ => exact flag

/-- No byte from `pos` on can be left out, unless there is no other. -/
def MinimalFrom (target : Target) (sig : Nat) (buf : List UInt8) (pos : Nat) : Prop :=
  buf.length = 1 ∨ ∀ i, pos ≤ i → i < buf.length → ¬ DiesWith target sig (buf.eraseIdx i)

theorem scan_minimal (signal : sig ≠ 0)
    (positive : 0 < 1) (buf : List UInt8) (pos reductions : Nat) (changed : Bool) (s : Fuzz)
    (unchanged : (minimizeScan target sig 1 positive buf pos reductions changed s).changed = false) :
    (minimizeScan target sig 1 positive buf pos reductions changed s).buf = buf ∧
      MinimalFrom target sig buf pos := by
  generalize single : 1 = step at positive unchanged
  fun_induction minimizeScan target sig step positive buf pos reductions changed s with
  | case1 buf pos reductions changed s inside stop whole ih =>
    rcases ih unchanged with ⟨same, _⟩
    subst single
    exact ⟨same, .inl (by omega)⟩
  | case2 buf pos reductions _ s _ _ _ tmp run _ _ =>
    -- the flag that this run set is still set at the end
    rw [scan_changed _ _ _ _ _ _ _ rfl] at unchanged
    cases unchanged
  | case3 buf pos reductions changed s inside stop part tmp run other ih =>
    rcases ih unchanged with ⟨same, later⟩
    subst single
    have next : stop = pos + 1 := by omega
    have without : tmp = buf.eraseIdx pos := by
      rw [eraseIdx_eq_take_drop_succ, ← next]
    refine ⟨same, ?_⟩
    rcases later with alone | later
    · exact .inl alone
    · right
      intro i from_pos small
      rcases Nat.eq_or_lt_of_le from_pos with here | beyond
      · -- this byte was tried and kept
        rw [← here, ← without, ← reproduces_iff deterministic signal tmp s]
        exact other
      · exact later i (by omega) small
  | case4 buf pos reductions changed s outside =>
    exact ⟨rfl, .inr fun i from_pos small => by omega⟩

theorem passes_reduced (signal : sig ≠ 0) (step : Nat)
    (positive : 0 < step) (buf : List UInt8) (reductions : Nat) (s : Fuzz) :
    Reduced target sig buf (minimizePasses target sig step positive buf reductions s).buf := by
  fun_induction minimizePasses target sig step positive buf reductions s with
  | case1 buf reductions s out changed ih =>
    exact (scan_reduced deterministic signal step positive buf 0 reductions false s).trans ih
  | case2 buf reductions s _ _ =>
    exact scan_reduced deterministic signal step positive buf 0 reductions false s

theorem passes_minimal (signal : sig ≠ 0) (positive : 0 < 1)
    (buf : List UInt8) (reductions : Nat) (s : Fuzz) :
    MinimalFrom target sig (minimizePasses target sig 1 positive buf reductions s).buf 0 := by
  generalize single : 1 = step at positive
  fun_induction minimizePasses target sig step positive buf reductions s with
  | case1 buf reductions s out changed ih => exact ih
  | case2 buf reductions s out unchanged =>
    subst single
    have still : out.changed = false := by simpa using unchanged
    rcases scan_minimal deterministic signal positive buf 0 reductions false s still with
      ⟨same, minimal⟩
    show MinimalFrom target sig out.buf 0
    rw [same]
    exact minimal

theorem steps_reduced (signal : sig ≠ 0) (step : Nat)
    (buf : List UInt8) (reductions : Nat) (s : Fuzz) :
    Reduced target sig buf (minimizeSteps target sig step buf reductions s).buf := by
  fun_induction minimizeSteps target sig step buf reductions s with
  | case1 step buf reductions s positive out ih =>
    exact (passes_reduced deterministic signal step positive buf reductions s).trans ih
  | case2 _ buf _ s _ => exact .refl buf

theorem steps_minimal (signal : sig ≠ 0) (step : Nat)
    (some : 0 < step) (buf : List UInt8) (reductions : Nat) (s : Fuzz) :
    MinimalFrom target sig (minimizeSteps target sig step buf reductions s).buf 0 := by
  fun_induction minimizeSteps target sig step buf reductions s with
  | case1 step buf reductions s positive out ih =>
    by_cases last : step = 1
    · subst last
      have ended := minimizeSteps.eq_def target sig (1 / 2) out.buf out.reductions out.state
      rw [dif_neg (by decide)] at ended
      rw [ended]
      exact passes_minimal deterministic signal positive buf reductions s
    · exact ih (by omega)
  | case2 step buf reductions s none => exact absurd some none

end Loops

/-- What is left of a crashing input is a subsequence of it, not empty unless the input is,
dies by the same signal, and is one byte or loses the crash with any of its bytes. -/
theorem minimized (target : Target) (deterministic : Deterministic target) (sig : Nat)
    (signal : sig ≠ 0) (data : List UInt8) (crashes : DiesWith target sig data) (s : Fuzz) :
    (minimize target data sig s).buf.Sublist data ∧
    (data ≠ [] → (minimize target data sig s).buf ≠ []) ∧
    DiesWith target sig (minimize target data sig s).buf ∧
    ((minimize target data sig s).buf.length = 1 ∨
      ∀ i < (minimize target data sig s).buf.length,
        ¬ DiesWith target sig ((minimize target data sig s).buf.eraseIdx i)) := by
  have reduced := steps_reduced deterministic signal (data.length / 2) data 0 s
  refine ⟨reduced.sublist, reduced.nonempty, reduced.dies crashes, ?_⟩
  by_cases short : data.length / 2 = 0
  · -- nothing is tried, and there is at most one byte
    have same : minimize target data sig s = ⟨data, 0, false, s⟩ := by
      rw [minimize, minimizeSteps, dif_neg (by omega)]
    rw [same]
    by_cases one : data.length = 1
    · exact .inl one
    · exact .inr fun i small => by simp only at small; omega
  · have minimal := steps_minimal deterministic signal (data.length / 2) (by omega) data 0 s
    rcases minimal with alone | every
    · exact .inl alone
    · exact .inr fun i small => every i (Nat.zero_le i) small

def abortTarget : Target := fun _ _ => ⟨true, .signaled 6, [], ∅, false⟩

theorem minimized_abort :
    (minimize abortTarget [1, 2] 6 (fuzzStart (fun _ => 0) [])).buf.Sublist [1, 2] ∧
    ([(1 : UInt8), 2] ≠ [] → (minimize abortTarget [1, 2] 6 (fuzzStart (fun _ => 0) [])).buf ≠ []) ∧
    DiesWith abortTarget 6 (minimize abortTarget [1, 2] 6 (fuzzStart (fun _ => 0) [])).buf ∧
    ((minimize abortTarget [1, 2] 6 (fuzzStart (fun _ => 0) [])).buf.length = 1 ∨
      ∀ i < (minimize abortTarget [1, 2] 6 (fuzzStart (fun _ => 0) [])).buf.length,
        ¬ DiesWith abortTarget 6
          ((minimize abortTarget [1, 2] 6 (fuzzStart (fun _ => 0) [])).buf.eraseIdx i)) :=
  minimized abortTarget (fun _ _ _ => ⟨rfl, rfl⟩) 6 (by decide) [1, 2] (fun _ => ⟨rfl, rfl⟩) _

end Lucis.CrashMinimization
