import Lucis.DeadBranch

/-!
The undefined operations of `evaluateConstExpr` in checkers/Checker_decl.cpp. One walk over the
expression is run with three kinds of arithmetic: that of the machine, where an undefined operation
ends the run; the guarded one, where it has no value; and that of the integers, where a result
must fit 64 bits. A left shift is defined for every value, as the compilers define it.
-/

namespace Lucis.ConstTraps

open ConstExpr (Text MulOp AddOp mulFound addFound)
open DeadBranch

/-- What is undefined of the operations on `int64_t`. -/
inductive Undefined where
  | overflow
  | quotient
  | shiftCount
  deriving DecidableEq

abbrev Run (V : Type) := Except Undefined (Option V)

section Walk

structure Arithmetic (V : Type) where
  const : ComptimeValue → V
  unary : UnaryOp → V → Run V
  binary : BinaryOp → Text → V → V → Run V
  isTrue : V → Bool
  asBool : V → Option Bool

variable {V : Type}

def onValue (v : Option V) (next : V → Run V) : Run V :=
  match v with
  | none => .ok none
  | some v => next v

mutual

/-- `evaluateConstExpr`; both operands are evaluated before either is looked at. -/
def run (values : Arithmetic V) (compileTimeValues : Table) : Expr → Run V
  | .literal l => .ok (l.value.map values.const)
  | .ident name => .ok ((compileTimeValues name).map values.const)
  | .paren e => run values compileTimeValues e
  | .cfg _ e => run values compileTimeValues e
  | .unary op e => (run values compileTimeValues e).bind fun v => onValue v (values.unary op)
  | .binary op l r =>
    (run values compileTimeValues l).bind fun a =>
      (run values compileTimeValues r).bind fun b =>
        onValue a fun a => onValue b (values.binary op (getText (.binary op l r)) a)
  | .ternary c t e =>
    (run values compileTimeValues c).bind fun cond =>
      onValue cond fun cond =>
        if values.isTrue cond then run values compileTimeValues t
        else run values compileTimeValues e
  | .call callee args =>
    if args.isEmpty then .ok (some (values.const (.bool true)))
    else if callee = allName then runAll values compileTimeValues args
    else if callee = anyName then runAny values compileTimeValues args
    else if callee = notName then runNot values compileTimeValues args
    else .ok none
  | .other _ folded => .ok (folded.map values.const)

def runAll (values : Arithmetic V) (compileTimeValues : Table) : List Expr → Run V
  | [] => .ok (some (values.const (.bool true)))
  | a :: rest =>
    (run values compileTimeValues a).bind fun v =>
      match v.map values.asBool with
      | none => .ok (some (values.const (.bool false)))
      | some (some true) => runAll values compileTimeValues rest
      | some (some false) => .ok (some (values.const (.bool false)))
      | some none => .ok none

def runAny (values : Arithmetic V) (compileTimeValues : Table) : List Expr → Run V
  | [] => .ok (some (values.const (.bool false)))
  | a :: rest =>
    (run values compileTimeValues a).bind fun v =>
      match v.map values.asBool with
      | none => runAny values compileTimeValues rest
      | some (some true) => .ok (some (values.const (.bool true)))
      | some (some false) => runAny values compileTimeValues rest
      | some none => .ok none

def runNot (values : Arithmetic V) (compileTimeValues : Table) : List Expr → Run V
  | [a] =>
    (run values compileTimeValues a).bind fun v =>
      match v.bind values.asBool with
      | some b => .ok (some (values.const (.bool !b)))
      | none => .ok none
  | _ => .ok none

end

end Walk

section Machine

def Fits (n : Int) : Prop := -2 ^ 63 ≤ n ∧ n < 2 ^ 63

instance (n : Int) : Decidable (Fits n) := instDecidableAnd

def negUndefined : UnaryOp → ComptimeValue → Option Undefined
  | .neg, .plain (.int v) => if v = Int64.minValue then some .overflow else none
  | _, _ => none

def mulUndefined : MulOp → Int64 → Int64 → Option Undefined
  | .star, a, b => if Fits (a.toInt * b.toInt) then none else some .overflow
  | .slash, a, b => if a = Int64.minValue ∧ b = -1 then some .quotient else none
  | .percent, a, b => if a = Int64.minValue ∧ b = -1 then some .quotient else none

def addUndefined : AddOp → Int64 → Int64 → Option Undefined
  | .plus, a, b => if Fits (a.toInt + b.toInt) then none else some .overflow
  | .minus, a, b => if Fits (a.toInt - b.toInt) then none else some .overflow

def shiftUndefined (count : Int64) : Option Undefined :=
  if 0 ≤ count ∧ count < 64 then none else some .shiftCount

def binaryUndefined (op : BinaryOp) (raw : Text) : ComptimeValue → ComptimeValue → Option Undefined
  | .plain (.int a), .plain (.int b) =>
    match op with
    | .mul _ => (mulFound raw).bind fun found => mulUndefined found a b
    | .addSub _ => (addFound raw).bind fun found => addUndefined found a b
    | .plain .lshift => shiftUndefined b
    | .plain .rshift => shiftUndefined b
    | _ => none
  | _, _ => none

def asBool : ComptimeValue → Option Bool
  | .plain (.bool v) => some v
  | _ => none

def valuesWith (undefined : Undefined → Run ComptimeValue) : Arithmetic ComptimeValue where
  const v := v
  unary op v := (negUndefined op v).elim (.ok (op.fold v)) undefined
  binary op raw a b := (binaryUndefined op raw a b).elim (.ok (op.fold raw a b)) undefined
  isTrue := DeadBranch.isTrue
  asBool := asBool

def machine : Arithmetic ComptimeValue := valuesWith .error

def guarded : Arithmetic ComptimeValue := valuesWith fun _ => .ok none

def Safe (compileTimeValues : Table) (e : Expr) : Prop :=
  run machine compileTimeValues e = run guarded compileTimeValues e

end Machine

section Integers

inductive Exact where
  | int (n : Int)
  | rest (v : ComptimeValue)

def Exact.of : ComptimeValue → Exact
  | .plain (.int v) => .int v.toInt
  | v => .rest v

def Exact.word : Exact → ComptimeValue
  | .int n => .plain (.int (Int64.ofInt n))
  | .rest v => v

/-- The result, if `n` fits 64 bits. -/
def within (n result : Int) (undefined : Undefined) : Run Exact :=
  if Fits n then .ok (some (.int result)) else .error undefined

def exactMul : MulOp → Int → Int → Run Exact
  | .star, n, m => within (n * m) (n * m) .overflow
  | .slash, n, m => if m = 0 then .ok none else within (n.tdiv m) (n.tdiv m) .quotient
  | .percent, n, m => if m = 0 then .ok none else within (n.tdiv m) (n.tmod m) .quotient

def exactAdd : AddOp → Int → Int → Run Exact
  | .plus, n, m => within (n + m) (n + m) .overflow
  | .minus, n, m => within (n - m) (n - m) .overflow

def exactPlain (op : BinaryOp) (raw : Text) (a b : Exact) : Run Exact :=
  .ok ((op.fold raw a.word b.word).map .of)

def exactShift (op : BinaryOp) (raw : Text) (n m : Int) : Run Exact :=
  if 0 ≤ m ∧ m < 64 then exactPlain op raw (.int n) (.int m) else .error .shiftCount

def exactBinary (op : BinaryOp) (raw : Text) : Exact → Exact → Run Exact
  | .int n, .int m =>
    match op with
    | .mul _ => (mulFound raw).elim (.ok none) fun found => exactMul found n m
    | .addSub _ => (addFound raw).elim (.ok none) fun found => exactAdd found n m
    | .plain .lshift => exactShift op raw n m
    | .plain .rshift => exactShift op raw n m
    | op => exactPlain op raw (.int n) (.int m)
  | a, b => exactPlain op raw a b

def exactUnary : UnaryOp → Exact → Run Exact
  | .neg, .int n => within (-n) (-n) .overflow
  | op, v => .ok ((op.fold v.word).map .of)

def integers : Arithmetic Exact where
  const := .of
  unary := exactUnary
  binary := exactBinary
  isTrue v := DeadBranch.isTrue v.word
  asBool v := asBool v.word

/-- Over the integers, each sum, difference, product, negation and quotient that the evaluation
comes to is one of 64 bits, and each shift is by less than 64. -/
def InRange (compileTimeValues : Table) (e : Expr) : Prop :=
  ∃ v, run integers compileTimeValues e = .ok v

end Integers

section Simulation

variable {V W : Type} {left : Arithmetic V} {right : Arithmetic W} {R : V → W → Prop}
  {Q : Run V → Run W → Prop}

structure Simulation (left : Arithmetic V) (right : Arithmetic W) (R : V → W → Prop)
    (Q : Run V → Run W → Prop) : Prop where
  value : ∀ {v w}, Option.Rel R v w → Q (.ok v) (.ok w)
  seq : ∀ {x y f g}, Q x y → (∀ v w, Option.Rel R v w → Q (f v) (g w)) → Q (x.bind f) (y.bind g)
  const : ∀ c, R (left.const c) (right.const c)
  unary : ∀ op {v w}, R v w → Q (left.unary op v) (right.unary op w)
  binary : ∀ op raw {v w v' w'}, R v w → R v' w' →
    Q (left.binary op raw v v') (right.binary op raw w w')
  isTrue : ∀ {v w}, R v w → left.isTrue v = right.isTrue w
  asBool : ∀ {v w}, R v w → left.asBool v = right.asBool w

variable (sim : Simulation left right R Q)
include sim

theorem Simulation.consts (c : Option ComptimeValue) :
    Q (.ok (c.map left.const)) (.ok (c.map right.const)) := by
  apply sim.value
  cases c with
  | none => exact .none
  | some c => exact .some (sim.const c)

variable {v : Option V} {w : Option W}

theorem Simulation.onValue
    {f : V → Run V} {g : W → Run W} (related : Option.Rel R v w)
    (next : ∀ v w, R v w → Q (f v) (g w)) : Q (onValue v f) (onValue w g) := by
  cases related with
  | none => exact sim.value .none
  | some related => exact next _ _ related

theorem Simulation.predicate
    (related : Option.Rel R v w) : v.map left.asBool = w.map right.asBool := by
  cases related with
  | none => rfl
  | some related => exact congrArg some (sim.asBool related)

omit sim

mutual

theorem Simulation.run (sim : Simulation left right R Q) (compileTimeValues : Table) (e : Expr) :
    Q (run left compileTimeValues e) (run right compileTimeValues e) := by
  cases e with
  | literal l =>
    rw [ConstTraps.run, ConstTraps.run]
    exact sim.consts _
  | ident name =>
    rw [ConstTraps.run, ConstTraps.run]
    exact sim.consts _
  | paren e | cfg _ e =>
    rw [ConstTraps.run, ConstTraps.run]
    exact sim.run compileTimeValues e
  | unary op e =>
    rw [ConstTraps.run, ConstTraps.run]
    apply sim.seq (sim.run compileTimeValues e)
    intro v w related
    exact sim.onValue related fun _ _ => sim.unary op
  | binary op l r =>
    rw [ConstTraps.run, ConstTraps.run]
    apply sim.seq (sim.run compileTimeValues l)
    intro a a' first
    apply sim.seq (sim.run compileTimeValues r)
    intro b b' second
    apply sim.onValue first
    intro a a' first
    exact sim.onValue second fun _ _ => sim.binary op _ first
  | ternary c t e =>
    rw [ConstTraps.run, ConstTraps.run]
    apply sim.seq (sim.run compileTimeValues c)
    intro v w related
    apply sim.onValue related
    intro cond cond' related
    rw [sim.isTrue related]
    by_cases taken : right.isTrue cond' = true
    · rw [if_pos taken, if_pos taken]
      exact sim.run compileTimeValues t
    · rw [if_neg taken, if_neg taken]
      exact sim.run compileTimeValues e
  | call callee args =>
    rw [ConstTraps.run, ConstTraps.run]
    by_cases bare : args.isEmpty = true
    · rw [if_pos bare, if_pos bare]
      exact sim.consts (some _)
    · rw [if_neg bare, if_neg bare]
      by_cases isAll : callee = allName
      · rw [if_pos isAll, if_pos isAll]
        exact sim.runAll compileTimeValues args
      · rw [if_neg isAll, if_neg isAll]
        by_cases isAny : callee = anyName
        · rw [if_pos isAny, if_pos isAny]
          exact sim.runAny compileTimeValues args
        · rw [if_neg isAny, if_neg isAny]
          by_cases isNot : callee = notName
          · rw [if_pos isNot, if_pos isNot]
            exact sim.runNot compileTimeValues args
          · rw [if_neg isNot, if_neg isNot]
            exact sim.consts none
  | other _ folded =>
    rw [ConstTraps.run, ConstTraps.run]
    exact sim.consts _

theorem Simulation.runAll (sim : Simulation left right R Q) (compileTimeValues : Table)
    (args : List Expr) :
    Q (runAll left compileTimeValues args) (runAll right compileTimeValues args) := by
  cases args with
  | nil =>
    rw [ConstTraps.runAll, ConstTraps.runAll]
    exact sim.consts (some _)
  | cons a rest =>
    rw [ConstTraps.runAll, ConstTraps.runAll]
    apply sim.seq (sim.run compileTimeValues a)
    intro v w related
    rw [sim.predicate related]
    cases w.map right.asBool with
    | none => exact sim.consts (some _)
    | some kind =>
      cases kind with
      | none => exact sim.consts none
      | some holds =>
        cases holds with
        | true => exact sim.runAll compileTimeValues rest
        | false => exact sim.consts (some _)

theorem Simulation.runAny (sim : Simulation left right R Q) (compileTimeValues : Table)
    (args : List Expr) :
    Q (runAny left compileTimeValues args) (runAny right compileTimeValues args) := by
  cases args with
  | nil =>
    rw [ConstTraps.runAny, ConstTraps.runAny]
    exact sim.consts (some _)
  | cons a rest =>
    rw [ConstTraps.runAny, ConstTraps.runAny]
    apply sim.seq (sim.run compileTimeValues a)
    intro v w related
    rw [sim.predicate related]
    cases w.map right.asBool with
    | none => exact sim.runAny compileTimeValues rest
    | some kind =>
      cases kind with
      | none => exact sim.consts none
      | some holds =>
        cases holds with
        | true => exact sim.consts (some _)
        | false => exact sim.runAny compileTimeValues rest

theorem Simulation.runNot (sim : Simulation left right R Q) (compileTimeValues : Table)
    (args : List Expr) :
    Q (runNot left compileTimeValues args) (runNot right compileTimeValues args) := by
  cases args with
  | nil =>
    unfold ConstTraps.runNot
    exact sim.consts none
  | cons a rest =>
    cases rest with
    | nil =>
      unfold ConstTraps.runNot
      apply sim.seq (sim.run compileTimeValues a)
      intro v w related
      have same : v.bind left.asBool = w.bind right.asBool := by
        cases related with
        | none => rfl
        | some related => exact sim.asBool related
      rw [same]
      cases w.bind right.asBool with
      | none => exact sim.consts none
      | some b => exact sim.consts (some _)
    | cons b rest =>
      unfold ConstTraps.runNot
      exact sim.consts none

end

end Simulation

section Model

/-- Arithmetic that wraps, as `DeadBranch.evaluateConstExpr` has it. -/
def wrapping : Arithmetic ComptimeValue :=
  { machine with
    unary := fun op v => .ok (op.fold v)
    binary := fun op raw a b => .ok (op.fold raw a b) }

mutual

theorem run_wrapping (compileTimeValues : Table) (e : Expr) :
    run wrapping compileTimeValues e = .ok (evaluateConstExpr compileTimeValues e) := by
  cases e with
  | literal l =>
    rw [run, evaluateConstExpr]
    exact congrArg Except.ok Option.map_id'
  | ident name =>
    rw [run, evaluateConstExpr]
    exact congrArg Except.ok Option.map_id'
  | paren e | cfg _ e =>
    rw [run, evaluateConstExpr]
    exact run_wrapping compileTimeValues e
  | unary op e =>
    rw [run, evaluateConstExpr, run_wrapping compileTimeValues e]
    cases evaluateConstExpr compileTimeValues e with
    | none => rfl
    | some v => rfl
  | binary op l r =>
    rw [run, evaluateConstExpr, run_wrapping compileTimeValues l, run_wrapping compileTimeValues r]
    cases evaluateConstExpr compileTimeValues l with
    | none => rfl
    | some a =>
      cases evaluateConstExpr compileTimeValues r with
      | none => rfl
      | some b => rfl
  | ternary c t e =>
    rw [run, evaluateConstExpr, run_wrapping compileTimeValues c]
    cases evaluateConstExpr compileTimeValues c with
    | none => rfl
    | some cond =>
      change (if DeadBranch.isTrue cond then _ else _) =
        Except.ok (if DeadBranch.isTrue cond then _ else _)
      rw [run_wrapping compileTimeValues t, run_wrapping compileTimeValues e, apply_ite Except.ok]
  | call callee args =>
    rw [run, evaluateConstExpr, run_all_wrapping compileTimeValues args,
      run_any_wrapping compileTimeValues args, run_not_wrapping compileTimeValues args]
    simp only [apply_ite Except.ok]
    rfl
  | other _ folded =>
    rw [run, evaluateConstExpr]
    exact congrArg Except.ok Option.map_id'

theorem run_all_wrapping (compileTimeValues : Table) (args : List Expr) :
    runAll wrapping compileTimeValues args = .ok (evaluateAll compileTimeValues args) := by
  cases args with
  | nil => rw [runAll, evaluateAll]; rfl
  | cons a rest =>
    rw [runAll, evaluateAll, run_wrapping compileTimeValues a,
      run_all_wrapping compileTimeValues rest]
    rcases evaluateConstExpr compileTimeValues a with - | (v | v | v) | v
    · rfl
    · rfl
    · cases v <;> rfl
    · rfl
    · rfl

theorem run_any_wrapping (compileTimeValues : Table) (args : List Expr) :
    runAny wrapping compileTimeValues args = .ok (evaluateAny compileTimeValues args) := by
  cases args with
  | nil => rw [runAny, evaluateAny]; rfl
  | cons a rest =>
    rw [runAny, evaluateAny, run_wrapping compileTimeValues a,
      run_any_wrapping compileTimeValues rest]
    rcases evaluateConstExpr compileTimeValues a with - | (v | v | v) | v
    · rfl
    · rfl
    · cases v <;> rfl
    · rfl
    · rfl

theorem run_not_wrapping (compileTimeValues : Table) (args : List Expr) :
    runNot wrapping compileTimeValues args = .ok (evaluateNot compileTimeValues args) := by
  cases args with
  | nil => unfold runNot evaluateNot; rfl
  | cons a rest =>
    cases rest with
    | nil =>
      unfold runNot evaluateNot
      rw [run_wrapping compileTimeValues a]
      rcases evaluateConstExpr compileTimeValues a with - | (v | v | v) | v
      all_goals rfl
    | cons b rest => unfold runNot evaluateNot; rfl

end

end Model

section Exactness

variable {V W : Type}

theorem rel_eq_iff {v w : Option V} : Option.Rel (· = ·) v w ↔ v = w := by
  constructor
  · rintro (same | _)
    · exact congrArg some same
    · rfl
  · rintro rfl
    cases v with
    | none => exact .none
    | some v => exact .some rfl

def Follows (x y : Run V) : Prop := (∃ u, x = .error u) ∨ y = x

theorem follows_seq {x y : Run V} {f g : Option V → Run W} (begins : Follows x y)
    (goes : ∀ v, Follows (f v) (g v)) : Follows (x.bind f) (y.bind g) := by
  rcases begins with ⟨u, rfl⟩ | rfl
  · exact .inl ⟨u, rfl⟩
  · cases y with
    | error u => exact .inl ⟨u, rfl⟩
    | ok v => exact goes v

theorem machine_followed {other : Arithmetic ComptimeValue} (const : other.const = id)
    (unary : ∀ op v, negUndefined op v = none → other.unary op v = .ok (op.fold v))
    (binary : ∀ op raw a b, binaryUndefined op raw a b = none →
      other.binary op raw a b = .ok (op.fold raw a b))
    (isTrue : other.isTrue = DeadBranch.isTrue) (asBool : other.asBool = ConstTraps.asBool) :
    Simulation machine other (· = ·) Follows where
  value related := Or.inr (congrArg Except.ok (rel_eq_iff.1 related).symm)
  seq begins goes := follows_seq begins fun v => goes v v (rel_eq_iff.2 rfl)
  const c := (congrFun const c).symm
  unary op v w related := by
    subst related
    change Follows ((negUndefined op v).elim _ _) _
    cases defined : negUndefined op v with
    | none => exact .inr (unary op v defined)
    | some u => exact .inl ⟨u, rfl⟩
  binary op raw v w v' w' related related' := by
    subst related related'
    change Follows ((binaryUndefined op raw v v').elim _ _) _
    cases defined : binaryUndefined op raw v v' with
    | none => exact .inr (binary op raw v v' defined)
    | some u => exact .inl ⟨u, rfl⟩
  isTrue related := by
    rw [isTrue, related]
    rfl
  asBool related := by
    rw [asBool, related]
    rfl

theorem guarded_follows : Simulation machine guarded (· = ·) Follows := by
  apply machine_followed rfl _ _ rfl rfl
  · intro op v defined
    change (negUndefined op v).elim _ _ = _
    rw [defined]
    rfl
  · intro op raw a b defined
    change (binaryUndefined op raw a b).elim _ _ = _
    rw [defined]
    rfl

def Total (x _y : Run V) : Prop := ∃ v, x = .ok v

theorem guarded_total : Simulation guarded guarded (· = ·) Total where
  value _ := ⟨_, rfl⟩
  seq begins goes := by
    rcases begins with ⟨v, rfl⟩
    exact goes v v (rel_eq_iff.2 rfl)
  const c := rfl
  unary op v w _ := by
    change ∃ x, (negUndefined op v).elim _ _ = _
    cases negUndefined op v with
    | none => exact ⟨_, rfl⟩
    | some u => exact ⟨_, rfl⟩
  binary op raw v w v' w' _ _ := by
    change ∃ x, (binaryUndefined op raw v v').elim _ _ = _
    cases binaryUndefined op raw v v' with
    | none => exact ⟨_, rfl⟩
    | some u => exact ⟨_, rfl⟩
  isTrue related := congrArg _ related
  asBool related := congrArg _ related

def Agrees (x : Run ComptimeValue) (y : Run Exact) : Prop := y = x.map (Option.map .of)

variable {v : Option ComptimeValue}

theorem agrees_ok {w}
    (related : Option.Rel (fun v w => w = Exact.of v) v w) : Agrees (.ok v) (.ok w) := by
  cases related with
  | none => rfl
  | some related => exact congrArg (fun w => Except.ok (some w)) related

theorem word_of (v : ComptimeValue) : (Exact.of v).word = v := by
  rcases v with (v | b | s) | x
  · exact congrArg (fun v => ComptimeValue.plain (.int v)) (Int64.ofInt_toInt v)
  · rfl
  · rfl
  · rfl

variable (op : BinaryOp) (raw : Text)

theorem agrees_plain (a b : ComptimeValue) (defined : binaryUndefined op raw a b = none) :
    Agrees (machine.binary op raw a b) (exactPlain op raw (.of a) (.of b)) := by
  change Agrees ((binaryUndefined op raw a b).elim _ _) _
  rw [defined, exactPlain, word_of, word_of]
  rfl

theorem fits_toInt (v : Int64) : Fits v.toInt := ⟨Int64.le_toInt v, Int64.toInt_lt v⟩

theorem bmod_fits {n : Int} (fits : Fits n) : n.bmod (2 ^ 64) = n := by
  unfold Fits at fits
  exact Int.bmod_eq_of_le_mul_two (by omega) (by omega)

variable {result : Int}

/-- An operation that is defined where `n` fits, and has the result then. -/
theorem agrees_within {n : Int} {v : Int64} {undefined : Undefined}
    (same : Fits n → v.toInt = result) :
    Agrees ((if Fits n then none else some undefined).elim (.ok (some (.plain (.int v)))) .error)
      (within n result undefined) := by
  rw [within]
  by_cases fits : Fits n
  · rw [if_pos fits, if_pos fits, ← same fits]
    rfl
  · rw [if_neg fits, if_neg fits]
    rfl

theorem quotient_fits_iff (a b : Int64) :
    Fits (a.toInt.tdiv b.toInt) ↔ ¬(a = Int64.minValue ∧ b = -1) := by
  constructor
  · rintro fits ⟨rfl, rfl⟩
    exact absurd fits (by decide)
  · intro defined
    by_cases least : a = Int64.minValue
    · rw [← Int64.toInt_div_of_ne_right a b fun minus => defined ⟨least, minus⟩]
      exact fits_toInt _
    · rw [← Int64.toInt_div_of_ne_left a b least]
      exact fits_toInt _

theorem quotientUndefined_eq (a b : Int64) :
    (if a = Int64.minValue ∧ b = -1 then some Undefined.quotient else none) =
      if Fits (a.toInt.tdiv b.toInt) then none else some Undefined.quotient := by
  by_cases undefined : a = Int64.minValue ∧ b = -1
  · rw [if_pos undefined, if_neg fun fits => (quotient_fits_iff a b).1 fits undefined]
  · rw [if_neg undefined, if_pos ((quotient_fits_iff a b).2 undefined)]

theorem agrees_quotient {a b v : Int64} (same : Fits (a.toInt.tdiv b.toInt) → v.toInt = result) :
    Agrees ((if a = Int64.minValue ∧ b = -1 then some Undefined.quotient else none).elim
        (.ok ((if b = 0 then none else some (.int v)).map .plain)) .error)
      (if b.toInt = 0 then .ok none else within (a.toInt.tdiv b.toInt) result .quotient) := by
  have zero_iff : b.toInt = 0 ↔ b = 0 := by rw [← Int64.toInt_zero, Int64.toInt_inj]
  by_cases zero : b = 0
  · subst zero
    rw [if_neg fun contrary => absurd contrary.2 (by decide), if_pos (zero_iff.2 rfl)]
    rfl
  · rw [if_neg zero, if_neg fun contrary => zero (zero_iff.1 contrary), quotientUndefined_eq]
    exact agrees_within same

theorem agrees_mul (found : MulOp) (a b : Int64) : Agrees ((mulUndefined found a b).elim
        (.ok ((ConstExpr.intMul found a b).map .plain)) .error)
      (exactMul found a.toInt b.toInt) := by
  cases found with
  | star =>
    apply agrees_within
    intro fits
    rw [Int64.toInt_mul, bmod_fits fits]
  | slash =>
    apply agrees_quotient
    intro fits
    rw [Int64.toInt_div, bmod_fits fits]
  | percent =>
    apply agrees_quotient
    intro _
    exact Int64.toInt_mod a b

theorem agrees_add (found : AddOp) (a b : Int64) : Agrees ((addUndefined found a b).elim
        (.ok (some (.plain (ConstExpr.intAdd found a b)))) .error)
      (exactAdd found a.toInt b.toInt) := by
  cases found with
  | plus =>
    apply agrees_within
    intro fits
    rw [Int64.toInt_add, bmod_fits fits]
  | minus =>
    apply agrees_within
    intro fits
    rw [Int64.toInt_sub, bmod_fits fits]

theorem agrees_shift (a b : Int64)
    (shifts : binaryUndefined op raw (.plain (.int a)) (.plain (.int b)) = shiftUndefined b) :
    Agrees (machine.binary op raw (.plain (.int a)) (.plain (.int b)))
      (exactShift op raw a.toInt b.toInt) := by
  have same : 0 ≤ b ∧ b < 64 ↔ 0 ≤ b.toInt ∧ b.toInt < 64 :=
    and_congr Int64.le_iff_toInt_le Int64.lt_iff_toInt_lt
  rw [exactShift]
  by_cases few : 0 ≤ b ∧ b < 64
  · rw [if_pos (same.1 few)]
    apply agrees_plain
    rw [shifts, shiftUndefined, if_pos few]
  · rw [if_neg (mt same.2 few)]
    change Agrees ((binaryUndefined op raw _ _).elim _ _) _
    rw [shifts, shiftUndefined, if_neg few]
    rfl

theorem agrees_ints (a b : Int64) :
    Agrees (machine.binary op raw (.plain (.int a)) (.plain (.int b)))
      (exactBinary op raw (.int a.toInt) (.int b.toInt)) := by
  cases op with
  | mul op =>
    change Agrees (((mulFound raw).bind fun found => mulUndefined found a b).elim
      (.ok (((mulFound raw).bind fun found => ConstExpr.intMul found a b).map .plain)) .error)
        ((mulFound raw).elim _ _)
    cases mulFound raw with
    | none => rfl
    | some found => exact agrees_mul found a b
  | addSub op =>
    change Agrees (((addFound raw).bind fun found => addUndefined found a b).elim
      (.ok (((addFound raw).map fun found => ConstExpr.intAdd found a b).map .plain)) .error)
        ((addFound raw).elim _ _)
    cases addFound raw with
    | none => rfl
    | some found => exact agrees_add found a b
  | rel op => exact agrees_plain _ raw (.plain (.int a)) (.plain (.int b)) rfl
  | eq op => exact agrees_plain _ raw (.plain (.int a)) (.plain (.int b)) rfl
  | plain op =>
    cases op with
    | lshift => exact agrees_shift _ raw a b rfl
    | rshift => exact agrees_shift _ raw a b rfl
    | _ => exact agrees_plain _ raw (.plain (.int a)) (.plain (.int b)) rfl

theorem agrees_binary (a b : ComptimeValue) :
    Agrees (machine.binary op raw a b) (exactBinary op raw (.of a) (.of b)) := by
  have others (defined : binaryUndefined op raw a b = none)
      (left_out : exactBinary op raw (.of a) (.of b) = exactPlain op raw (.of a) (.of b)) :
      Agrees (machine.binary op raw a b) (exactBinary op raw (.of a) (.of b)) := by
    rw [left_out]
    exact agrees_plain op raw a b defined
  rcases a with (v | v | v) | v
  · rcases b with (w | w | w) | w
    · exact agrees_ints op raw v w
    all_goals exact others rfl rfl
  all_goals exact others rfl rfl

theorem leastUndefined_eq (v : Int64) :
    (if v = Int64.minValue then some Undefined.overflow else none) =
      if Fits (-v.toInt) then none else some Undefined.overflow := by
  by_cases least : v = Int64.minValue
  · subst least
    rfl
  · have low := Int64.le_toInt v
    have high := Int64.toInt_lt v
    have differs : v.toInt ≠ -2 ^ 63 := fun same => least (Int64.toInt_inj.1 same)
    have fits : Fits (-v.toInt) := by
      unfold Fits
      omega
    rw [if_neg least, if_pos fits]

theorem agrees_unary (op : UnaryOp) (v : ComptimeValue) :
    Agrees (machine.unary op v) (exactUnary op (.of v)) := by
  have others (defined : negUndefined op v = none)
      (left_out : exactUnary op (.of v) = .ok ((op.fold (Exact.of v).word).map .of)) :
      Agrees (machine.unary op v) (exactUnary op (.of v)) := by
    change Agrees ((negUndefined op v).elim _ _) _
    rw [left_out, defined, word_of]
    rfl
  cases op with
  | neg =>
    rcases v with (v | v | v) | v
    · change Agrees ((if v = Int64.minValue then some Undefined.overflow else none).elim _ _)
        (within _ _ _)
      rw [leastUndefined_eq]
      apply agrees_within
      intro fits
      rw [Int64.toInt_neg, bmod_fits fits]
    all_goals exact others rfl rfl
  | logicalNot => exact others rfl rfl
  | bitNot => exact others rfl rfl

theorem integers_agree : Simulation machine integers (fun v w => w = Exact.of v) Agrees where
  value := agrees_ok
  seq := by
    intro x y f g begins goes
    cases begins
    cases x with
    | error u => rfl
    | ok v =>
      apply goes
      cases v with
      | none => exact .none
      | some v => exact .some rfl
  const c := rfl
  unary op v w related := by
    subst related
    exact agrees_unary op v
  binary op raw v w v' w' related related' := by
    subst related related'
    exact agrees_binary op raw v v'
  isTrue related := by
    subst related
    exact (congrArg DeadBranch.isTrue (word_of _)).symm
  asBool related := by
    subst related
    exact (congrArg asBool (word_of _)).symm

variable (compileTimeValues : Table) (e : Expr)

theorem wrapping_follows : Simulation machine wrapping (· = ·) Follows :=
  machine_followed rfl (fun _ _ _ => rfl) (fun _ _ _ _ _ => rfl) rfl rfl

theorem run_machine_value (ended : run machine compileTimeValues e = .ok v) :
    evaluateConstExpr compileTimeValues e = v := by
  rcases wrapping_follows.run compileTimeValues e with ⟨u, undefined⟩ | same
  · rw [ended] at undefined
    cases undefined
  · rw [run_wrapping, ended] at same
    cases same
    rfl

theorem safe_iff_ok : Safe compileTimeValues e ↔ ∃ v, run machine compileTimeValues e = .ok v := by
  rw [Safe]
  constructor
  · intro same
    rw [same]
    exact guarded_total.run compileTimeValues e
  · rintro ⟨v, ended⟩
    rcases guarded_follows.run compileTimeValues e with ⟨u, undefined⟩ | same
    · rw [ended] at undefined
      cases undefined
    · exact same.symm

/-- The evaluation of a constant comes to no undefined operation exactly when its value over the
integers comes about within 64 bits. -/
theorem safe_iff_inRange : Safe compileTimeValues e ↔ InRange compileTimeValues e := by
  have agrees := integers_agree.run compileTimeValues e
  rw [Agrees] at agrees
  rw [safe_iff_ok, InRange, agrees]
  cases run machine compileTimeValues e with
  | error u => exact iff_of_false (by rintro ⟨_, ⟨⟩⟩) (by rintro ⟨_, ⟨⟩⟩)
  | ok v => exact iff_of_true ⟨v, rfl⟩ ⟨_, rfl⟩

end Exactness

section Trap

def decimal (token : Text) : Expr := .literal (.int .dec false token)

/-- `-9223372036854775807 - 1` -/
def least : Expr :=
  .binary (.addSub .minus)
    (.unary .neg (decimal
      ['9', '2', '2', '3', '3', '7', '2', '0', '3', '6', '8', '5', '4', '7', '7', '5', '8', '0', '7']))
    (decimal ['1'])

/-- `(-9223372036854775807 - 1) / -1` -/
def leastQuotient : Expr :=
  .binary (.mul .slash) (.paren least) (.unary .neg (decimal ['1']))

/-- The quotient of the least integer and minus one ends the compiler. -/
theorem least_quotient_traps :
    run machine (fun _ => none) leastQuotient = .error .quotient ∧
      ¬∀ compileTimeValues e, Safe compileTimeValues e := by
  have traps : run machine (fun _ => none) leastQuotient = .error .quotient := by
    rfl
  refine ⟨traps, fun safe => ?_⟩
  rcases (safe_iff_ok _ _).mp (safe (fun _ => none) leastQuotient) with ⟨v, ended⟩
  rw [traps] at ended
  cases ended

end Trap

end Lucis.ConstTraps
