import Lucis.ComptimeScope
import Lucis.RangeLoop

/-!
The range loop of the comptime interpreter, for bodies that end without a value. Its variable is a
counter of its own, so a turn cannot disturb it; but the inclusive form steps past the last number
before it compares, and behind the greatest one there is none.
-/

namespace Lucis.Comptime

open Effects Effects.Comp

section Fuel

def Grows (α : Type) (less more : Eval α) : Prop :=
  ∀ frames, (less frames).out = .error .outOfFuel ∨ more frames = less frames

variable {α β : Type} {first : Eval α} {rest : α → Eval β} {frames : List Frame}

theorem bind_ok {frames' : List Frame} {result : α}
    {events : List Event} (ran : first frames = ⟨.ok result, frames', events⟩) :
    (first >>= rest) frames = ⟨(rest result frames').out, (rest result frames').state,
        events ++ (rest result frames').events⟩ := by
  rw [bind_apply, ran]
  rfl

theorem bind_error {reason : Stop} (stopped : (first frames).out = .error reason) :
    ((first >>= rest) frames).out = .error reason := by
  rw [bind_apply, stopped]
  rfl

theorem grows_refl (m : Eval α) : Grows α m m := fun _ => Or.inr rfl

theorem Grows.trans {second third : Eval α} (one : Grows α first second)
    (two : Grows α second third) : Grows α first third := by
  intro frames
  rcases one frames with starved | same
  · exact .inl starved
  · rcases two frames with starved | again
    · exact .inl (same ▸ starved)
    · exact .inr (again.trans same)

theorem grows_seq {first' : Eval α} {rest' : α → Eval β} (begins : Grows α first first')
    (goes : ∀ result, Grows β (rest result) (rest' result)) :
    Grows β (first >>= rest) (first' >>= rest') := by
  intro frames
  rcases begins frames with starved | same
  · exact .inl (bind_error starved)
  · rw [bind_apply, bind_apply, same]
    cases (first frames).out with
    | error reason => exact .inr rfl
    | ok result =>
      rcases goes result (first frames).state with starved | again
      · exact .inl starved
      · right
        simp only [resume, again]

theorem grows_congruence : StmtCongruence Grows where
  value result := grows_refl _
  seq := grows_seq
  assigns name v := grows_refl _
  reads name := grows_refl _
  calls bodies func args := by
    apply grows_seq (grows_refl _)
    intro _
    apply grows_seq (bodies func.block)
    intro result
    exact grows_refl _
  starved := grows_refl _
  begins stmt := grows_refl _
  compounds exprs name op e := by
    apply grows_seq (grows_refl _)
    intro frames
    apply grows_seq (grows_refl _)
    intro _
    cases holder name frames with
    | none => exact grows_refl _
    | some above =>
      apply grows_seq (exprs e)
      intro rhs
      exact grows_refl _

theorem interpreter_grows (host : Host) (fuel : Nat) :
    Interpreter.Related Grows (interpreter host fuel) (interpreter host (fuel + 1)) := by
  induction fuel with
  | zero =>
    exact {
      expr := fun _ _ => .inl rfl
      block := fun _ _ => .inl rfl
      whileLoop := fun _ _ _ => .inl rfl
      rangeLoop := fun _ _ _ _ _ _ => .inl rfl }
  | succ fuel ih =>
    exact {
      expr := grows_congruence.toCongruence.evalExpr host ih.expr ih.block ih.block
      block := grows_congruence.stmts host ih
      whileLoop := grows_congruence.whileLoop ih
      rangeLoop := grows_congruence.range ih }

def Growing (run : Nat → Eval α) : Prop := ∀ fuel, Grows α (run fuel) (run (fuel + 1))

def Finishes (run : Nat → Eval α) (frames : List Frame)
    (ending : Ending Stop (List Frame) Event α) : Prop :=
  ∃ fuel, run fuel frames = ending ∧ ending.out ≠ .error .outOfFuel

theorem Growing.le {run} (growing : Growing run) {fuel fuel' : Nat}
    (more : fuel ≤ fuel') : Grows α (run fuel) (run fuel') := by
  induction more with
  | refl => exact grows_refl _
  | step _ ih => exact ih.trans (growing _)

theorem Growing.ends {run : Nat → Eval α} (growing : Growing run)
    {ending} (ends : Finishes run frames ending) :
    (∃ enough, ∀ fuel, enough ≤ fuel → run fuel frames = ending) ∧
      ∀ fuel, (run fuel frames).out = .error .outOfFuel ∨ run fuel frames = ending := by
  rcases ends with ⟨enough, rfl, ended⟩
  have above (fuel : Nat) (more : enough ≤ fuel) : run fuel frames = run enough frames :=
    (growing.le more frames).resolve_left ended
  refine ⟨⟨enough, above⟩, fun fuel => ?_⟩
  rcases le_total enough fuel with more | less
  · exact .inr (above fuel more)
  · exact (growing.le less frames).imp_right Eq.symm

end Fuel

section Turns

variable (host : Host) (name : String) (block : List Stmt)

def blockRun (fuel : Nat) : Eval ComptimeValue := (interpreter host fuel).evalBlock block

def exprRun (e : Expr) (fuel : Nat) : Eval ComptimeValue := (interpreter host fuel).evalExpr e

def rangeRun (inclusive : Bool) (i stop : Int64) (fuel : Nat) : Eval ComptimeValue :=
  (interpreter host fuel).evalRange inclusive name i stop block

/-- `start..stop`, or `start..=stop`. -/
def rangeOf (inclusive : Bool) (start stop : Expr) : Expr :=
  if inclusive then .rangeIncl start stop else .range start stop

def forInRun (inclusive : Bool) (start stop : Expr) (fuel : Nat) : Eval ComptimeValue :=
  evalForIn (interpreter host fuel) name (rangeOf inclusive start stop) block

def Falls : Prop :=
  ∀ frames, ∃ ending, Finishes (blockRun host block) frames ending ∧ ending.out = .ok .void

def Turns : List Int64 → List Frame → Ending Stop (List Frame) Event ComptimeValue → Prop
  | [], frames, last => last = ⟨.ok .void, frames, []⟩
  | i :: rest, frames, last => ∃ turn later,
      Finishes (blockRun host block) (setTop name (.int i) frames) turn ∧ turn.out = .ok .void ∧
        Turns rest turn.state later ∧ last = ⟨later.out, later.state, turn.events ++ later.events⟩

/-- From bounds that were evaluated with these events, the loop runs the body once for each integer
of the range, in increasing order, and ends. -/
def RunsOnceEach (inclusive : Bool) (start stop : Expr) (a b : Int64)
    (frames bound : List Frame) (events : List Event) : Prop :=
  ∃ numbers last,
    numbers.map Int64.toInt = RangeLoop.range inclusive a.toInt b.toInt ∧
      Turns host name block numbers bound last ∧
        Finishes (forInRun host name block inclusive start stop) frames
          ⟨last.out, last.state, events ++ last.events⟩

variable {host name block}

theorem blockRun_growing : Growing (blockRun host block) :=
  fun fuel => (interpreter_grows host fuel).block block

theorem rangeRun_growing (inclusive : Bool) (i stop : Int64) :
    Growing (rangeRun host name block inclusive i stop) :=
  fun fuel => (interpreter_grows host fuel).rangeLoop inclusive name i stop block

theorem exprRun_growing (e : Expr) : Growing (exprRun host e) :=
  fun fuel => (interpreter_grows host fuel).expr e

variable {inclusive : Bool} {i stop : Int64} {frames : List Frame}

theorem rangeRun_done (outside : inRange inclusive i stop = false) (fuel : Nat) :
    rangeRun host name block inclusive i stop (fuel + 1) frames = ⟨.ok .void, frames, []⟩ := by
  change evalRange _ _ _ _ _ _ frames = _
  rw [evalRange, outside]
  rfl

theorem rangeRun_turn (inside : inRange inclusive i stop = true) (fuel : Nat) :
    rangeRun host name block inclusive i stop (fuel + 1) frames =
      ((blockRun host block fuel >>= fun result =>
        if result.isVoid then rangeRun host name block inclusive (i + 1) stop fuel
        else pure result) : Eval ComptimeValue) (setTop name (.int i) frames) := by
  change evalRange _ _ _ _ _ _ frames = _
  rw [evalRange, inside]
  rfl

theorem rangeRun_void (inside : inRange inclusive i stop = true) {fuel : Nat}
    {turn}
    (ran : blockRun host block fuel (setTop name (.int i) frames) = turn)
    (void : turn.out = .ok .void) : rangeRun host name block inclusive i stop (fuel + 1) frames =
      let later := rangeRun host name block inclusive (i + 1) stop fuel turn.state
      ⟨later.out, later.state, turn.events ++ later.events⟩ := by
  rw [rangeRun_turn inside, bind_apply, ran, void]
  rfl

theorem inRange_iff : inRange inclusive i stop = true ↔
    RangeLoop.Within inclusive i.toInt stop.toInt := by
  cases inclusive with
  | true => exact decide_eq_true_iff.trans Int64.le_iff_toInt_le
  | false => exact decide_eq_true_iff.trans Int64.lt_iff_toInt_lt

theorem toInt_succ (below : i.toInt < Int64.maxValue.toInt) : (i + 1).toInt = i.toInt + 1 := by
  have low := Int64.le_toInt i
  have high : Int64.maxValue.toInt = 2 ^ 63 - 1 := rfl
  rw [Int64.toInt_add]
  change (i.toInt + 1).bmod (2 ^ 64) = i.toInt + 1
  exact Int.bmod_eq_of_le_mul_two (by omega) (by omega)

theorem void_ended : (.ok .void : Except Stop ComptimeValue) ≠ .error .outOfFuel := by
  intro starved
  cases starved

theorem rangeSize_zero {a b : Int} (size : RangeLoop.rangeSize inclusive a b = 0) :
    ¬RangeLoop.Within inclusive a b := by
  unfold RangeLoop.rangeSize RangeLoop.span at size
  unfold RangeLoop.Within
  cases inclusive <;> simp at size ⊢ <;> omega

theorem rangeSize_succ {a b : Int} {n : Nat} (size : RangeLoop.rangeSize inclusive a b = n + 1) :
    RangeLoop.Within inclusive a b ∧ RangeLoop.rangeSize inclusive (a + 1) b = n := by
  unfold RangeLoop.rangeSize RangeLoop.span at size ⊢
  unfold RangeLoop.Within
  cases inclusive <;> simp at size ⊢ <;> omega

theorem rangeRun_ends (falls : Falls host block)
    (below : ∀ k : Int64, RangeLoop.Within inclusive k.toInt stop.toInt →
      k.toInt < Int64.maxValue.toInt) (n : Nat) (i : Int64) (frames : List Frame)
    (size : RangeLoop.rangeSize inclusive i.toInt stop.toInt = n) :
    ∃ numbers last, numbers.map Int64.toInt = RangeLoop.integers i.toInt n ∧
      Turns host name block numbers frames last ∧ last.out = .ok .void ∧
        Finishes (rangeRun host name block inclusive i stop) frames last := by
  induction n generalizing i frames with
  | zero =>
    have outside : inRange inclusive i stop = false := by
      rw [← Bool.not_eq_true, inRange_iff]
      exact rangeSize_zero size
    exact ⟨[], _, rfl, rfl, rfl, 1, rangeRun_done outside 0, void_ended⟩
  | succ n ih =>
    rcases rangeSize_succ size with ⟨within, size⟩
    have inside := inRange_iff.2 within
    have next := toInt_succ (below i within)
    rw [← next] at size
    rcases falls (setTop name (.int i) frames) with ⟨turn, ran, void⟩
    rcases ih (i + 1) turn.state size with ⟨numbers, later, same, turns, ended, rest⟩
    rcases (blockRun_growing.ends ran).1 with ⟨enough, runs⟩
    rcases ((rangeRun_growing _ _ _).ends rest).1 with ⟨enough', goes⟩
    refine ⟨i :: numbers, ⟨later.out, later.state, turn.events ++ later.events⟩, ?_,
      ⟨turn, later, ran, void, turns, rfl⟩, ended, max enough enough' + 1, ?_, ?_⟩
    · rw [List.map_cons, RangeLoop.integers, same, next]
    · rw [rangeRun_void inside (runs _ (le_max_left _ _)) void, goes _ (le_max_right _ _)]
    · rw [ended]
      exact void_ended

theorem rangeRun_starved (falls : Falls host block) (fuel : Nat) (i : Int64) (frames : List Frame) :
    (rangeRun host name block true i Int64.maxValue fuel frames).out = .error .outOfFuel := by
  induction fuel generalizing i frames with
  | zero => rfl
  | succ fuel ih =>
    have inside : inRange true i Int64.maxValue = true := by
      rw [inRange_iff]
      exact Int64.toInt_le i
    rcases falls (setTop name (.int i) frames) with ⟨turn, ran, void⟩
    rcases (blockRun_growing.ends ran).2 fuel with starved | same
    · rw [rangeRun_turn inside, bind_error starved]
    · rw [rangeRun_void inside same void]
      exact ih (i + 1) turn.state

theorem forInRun_eq (inclusive : Bool) (start stop : Expr) (fuel : Nat) :
    forInRun host name block inclusive start stop fuel =
      (exprRun host start fuel >>= fun first => exprRun host stop fuel >>= fun last =>
        match first, last with
        | .int i, .int j => rangeRun host name block inclusive i j fuel
        | _, _ => pure .void) := by
  cases inclusive <;> rfl

section Bounds

variable {start stop : Expr} {a b : Int64} {frames₁ frames₂ : List Frame}
  {events₁ events₂ : List Event}

theorem forInRun_bounds {fuel : Nat}
    (first : exprRun host start fuel frames = ⟨.ok (.int a), frames₁, events₁⟩)
    (second : exprRun host stop fuel frames₁ = ⟨.ok (.int b), frames₂, events₂⟩) :
    forInRun host name block inclusive start stop fuel frames =
      let last := rangeRun host name block inclusive a b fuel frames₂
      ⟨last.out, last.state, events₁ ++ events₂ ++ last.events⟩ := by
  rw [forInRun_eq, bind_ok first, bind_ok second]
  exact congrArg (Ending.mk _ _) (List.append_assoc events₁ events₂ _).symm

/-- With bounds that end as integers, and a body that ends without a value from every state: the
loop runs the body once for each integer of the range, in increasing order, and ends, unless it is
inclusive and its end is the greatest integer. -/
theorem forIn_exact_iff (host : Host) (name : String) (block : List Stmt) (falls : Falls host block)
    (inclusive : Bool) (start stop : Expr) (a b : Int64) (frames frames₁ frames₂ : List Frame)
    (events₁ events₂ : List Event)
    (first : Finishes (exprRun host start) frames ⟨.ok (.int a), frames₁, events₁⟩)
    (second : Finishes (exprRun host stop) frames₁ ⟨.ok (.int b), frames₂, events₂⟩) :
    RunsOnceEach host name block inclusive start stop a b frames frames₂ (events₁ ++ events₂) ↔
      ¬(inclusive = true ∧ b = Int64.maxValue) := by
  rcases (exprRun_growing start).ends first with ⟨⟨enough₁, begins⟩, begins'⟩
  rcases (exprRun_growing stop).ends second with ⟨⟨enough₂, goes⟩, goes'⟩
  constructor
  · rintro ⟨numbers, last, _, _, fuel, ran, ended⟩ ⟨rfl, rfl⟩
    apply ended
    rw [← ran]
    rcases begins' fuel with starved | same
    · rw [forInRun_eq, bind_error starved]
    · rcases goes' fuel with starved | again
      · rw [forInRun_eq, bind_ok same, bind_error starved]
      · rw [forInRun_bounds same again]
        exact rangeRun_starved falls fuel a frames₂
  · intro possible
    have below : ∀ k : Int64, RangeLoop.Within inclusive k.toInt b.toInt →
        k.toInt < Int64.maxValue.toInt := by
      intro k within
      have high := Int64.toInt_le b
      cases inclusive with
      | false => exact within.trans_le high
      | true =>
        have differs : b.toInt ≠ Int64.maxValue.toInt :=
          fun same => possible ⟨rfl, Int64.toInt_inj.mp same⟩
        exact lt_of_le_of_lt within (lt_of_le_of_ne high differs)
    rcases @rangeRun_ends _ name _ _ _ falls below _ a frames₂ rfl with
      ⟨numbers, last, same, turns, ended, ran⟩
    rcases ((rangeRun_growing _ _ _).ends ran).1 with ⟨enough₃, runs⟩
    refine ⟨numbers, last, same, turns, max enough₁ (max enough₂ enough₃), ?_, ?_⟩
    · rw [forInRun_bounds (begins _ (Nat.le_max_left _ _))
        (goes _ ((Nat.le_max_left _ _).trans (Nat.le_max_right _ _))),
        runs _ ((Nat.le_max_right _ _).trans (Nat.le_max_right _ _))]
    · change last.out ≠ _
      rw [ended]
      exact void_ended

theorem falls_nil (host : Host) : Falls host [] :=
  fun frames => ⟨⟨.ok .void, frames, []⟩, ⟨1, rfl, void_ended⟩, rfl⟩

theorem literal_ends (host : Host) (frames : List Frame) (v : Int64) :
    Finishes (exprRun host (.intLit v)) frames ⟨.ok (.int v), frames, []⟩ := by
  refine ⟨1, rfl, ?_⟩
  intro starved
  cases starved

/-- `for i in 3..=5 {}` -/
theorem forIn_exact_iff_small :
    RunsOnceEach silentHost "i" [] true (.intLit 3) (.intLit 5) 3 5 [callerX] [callerX] [] :=
  (forIn_exact_iff silentHost "i" [] (falls_nil _) true (.intLit 3) (.intLit 5) 3 5 [callerX]
    [callerX] [callerX] [] [] (literal_ends _ _ 3) (literal_ends _ _ 5)).mpr (by decide)

/-- `for i in 0..=9223372036854775807 {}` is not left. -/
theorem inclusive_maximum_not_left :
    ¬∀ (inclusive : Bool) (a b : Int64), RunsOnceEach silentHost "i" [] inclusive (.intLit a)
      (.intLit b) a b [callerX] [callerX] [] := by
  intro runs
  rcases runs true 0 Int64.maxValue with ⟨_, last, _, _, fuel, ran, ended⟩
  cases fuel with
  | zero => exact ended (congrArg Ending.out ran).symm
  | succ fuel =>
    have bounds : forInRun silentHost "i" [] true (.intLit 0) (.intLit Int64.maxValue) (fuel + 1)
        [callerX] = _ :=
      forInRun_bounds rfl rfl
    rw [bounds] at ran
    exact ended ((congrArg Ending.out ran).symm.trans
      (rangeRun_starved (falls_nil silentHost) (fuel + 1) 0 [callerX]))

end Bounds

end Turns

end Lucis.Comptime
