import Mathlib.Data.List.Forall2

/-!
Refinement of an abstract data type by a machine that answers each operation.
A simulation relation is checked on single steps only; the run rules carry it
to every finite sequence of operations. `Guarded` is for machines that are
correct on part of their inputs: it says that each step of a run is taken from
a state where the step is inside that part.
-/

namespace Refinement

universe u v w x

variable {Op : Type u} {Answer : Type v} {State : Type w} {Machine : Type x}

structure Spec (Op : Type u) (Answer : Type v) (State : Type w) where
  next : State → Op → State
  answers : State → Op → Answer → Prop

def run (step : Machine → Op → Machine × Answer) (machine : Machine) (ops : List Op) : Machine :=
  ops.foldl (fun current op => (step current op).1) machine

def Agrees (spec : Spec Op Answer State) (step : Machine → Op → Machine × Answer) :
    Machine → State → List Op → Prop
  | _, _, [] => True
  | machine, state, op :: rest =>
    spec.answers state op (step machine op).2 ∧
      Agrees spec step (step machine op).1 (spec.next state op) rest

def Guarded (allowed : Machine → Op → Prop) (step : Machine → Op → Machine × Answer) :
    Machine → List Op → Prop
  | _, [] => True
  | machine, op :: rest =>
    allowed machine op ∧ Guarded allowed step (step machine op).1 rest

instance Guarded.decidable {allowed : Machine → Op → Prop}
    [decided : ∀ machine op, Decidable (allowed machine op)]
    (step : Machine → Op → Machine × Answer) :
    ∀ machine ops, Decidable (Guarded allowed step machine ops)
  | _, [] => .isTrue trivial
  | machine, op :: rest =>
    @instDecidableAnd _ _ (decided machine op) (decidable step (step machine op).1 rest)

variable {allowed : Machine → Op → Prop}

variable {step : Machine → Op → Machine × Answer}

theorem guarded_prefix {machine : Machine} {ops front : List Op}
    (guarded : Guarded allowed step machine ops) (begins : front <+: ops) :
    Guarded allowed step machine front := by
  induction front generalizing machine ops with
  | nil => trivial
  | cons op front ih =>
    rcases begins with ⟨back, rfl⟩
    exact ⟨guarded.1, ih guarded.2 (List.prefix_append front back)⟩

def Simulation (spec : Spec Op Answer State) (step : Machine → Op → Machine × Answer)
    (allowed : Machine → Op → Prop) (rel : Machine → State → Prop) : Prop :=
  ∀ machine state op, rel machine state → allowed machine op →
    spec.answers state op (step machine op).2 ∧
      rel (step machine op).1 (spec.next state op)

variable {rel : Machine → State → Prop} {spec : Spec Op Answer State}

theorem agrees_of_simulation (simulation : Simulation spec step allowed rel)
    (ops : List Op) (machine : Machine) (state : State) (related : rel machine state)
    (guarded : Guarded allowed step machine ops) : Agrees spec step machine state ops := by
  induction ops generalizing machine state with
  | nil => trivial
  | cons op rest ih =>
    obtain ⟨answer, next⟩ := simulation machine state op related guarded.1
    exact ⟨answer, ih _ _ next guarded.2⟩

theorem related_of_simulation (simulation : Simulation spec step allowed rel)
    (ops : List Op) (machine : Machine) (state : State) (related : rel machine state)
    (guarded : Guarded allowed step machine ops) :
    rel (run step machine ops) (ops.foldl spec.next state) := by
  induction ops generalizing machine state with
  | nil => exact related
  | cons op rest ih =>
    exact ih _ _ (simulation machine state op related guarded.1).2 guarded.2

theorem agrees_last (ops : List Op) (op : Op) (machine : Machine) (state : State)
    (agrees : Agrees spec step machine state (ops ++ [op])) :
    spec.answers (ops.foldl spec.next state) op (step (run step machine ops) op).2 := by
  induction ops generalizing machine state with
  | nil => exact agrees.1
  | cons first rest ih => exact ih _ _ agrees.2

/-! A family of machines, one for each of several abstract states. -/

variable {machines : List Machine} {states : List State}

variable (related : List.Forall₂ rel machines states)
include related

theorem forall₂_lookup (index : Nat) :
    (machines[index]? = none ∧ states[index]? = none) ∨
      ∃ machine state, machines[index]? = some machine ∧ states[index]? = some state ∧
        rel machine state := by
  induction related generalizing index with
  | nil => exact .inl ⟨rfl, rfl⟩
  | cons head _ ih =>
    cases index with
    | zero => exact .inr ⟨_, _, rfl, rfl, head⟩
    | succ index => simpa using ih index

theorem forall₂_set (index : Nat) (machine : Machine) (state : State) (entry : rel machine state) :
    List.Forall₂ rel (machines.set index machine) (states.set index state) := by
  induction related generalizing index with
  | nil => exact .nil
  | cons head tail ih =>
    cases index with
    | zero => exact .cons entry tail
    | succ index => exact .cons head (ih index)

theorem forall₂_push (machine : Machine) (state : State) (entry : rel machine state) :
    List.Forall₂ rel (machines ++ [machine]) (states ++ [state]) :=
  List.rel_append related (.cons entry .nil)

end Refinement
