import Mathlib.Data.List.Basic

/-!
The variables in scope as a list, the innermost first. A name stands for the first
entry that has it, so an inner variable hides an outer one and gives it back, with
the value it has by then, where its scope is left.
-/

namespace Scopes

universe u v

variable {Name : Type u} {Value : Type v} [DecidableEq Name]

abbrev Env (Name : Type u) (Value : Type v) := List (Name × Value)

def read : Env Name Value → Name → Option Value
  | [], _ => none
  | (x, v) :: rest, name => if x = name then some v else read rest name

def write : Env Name Value → Name → Value → Env Name Value
  | [], _, _ => []
  | (x, v) :: rest, name, new =>
    if x = name then (x, new) :: rest else (x, v) :: write rest name new

def leaveScope (before after : Env Name Value) : Env Name Value :=
  after.drop (after.length - before.length)

def Alike (before after : Env Name Value) : Prop := before.map Prod.fst = after.map Prod.fst

variable (env : Env Name Value)

theorem read_cons_of_ne {name other : Name} (v : Value)
    (different : name ≠ other) : read ((name, v) :: env) other = read env other := if_neg different

variable (new : Value)

theorem read_write_self {env} {name : Name}
    (declared : (read env name).isSome) : read (write env name new) name = some new := by
  induction env with
  | nil => cases declared
  | cons entry rest ih =>
    rcases entry with ⟨x, v⟩
    by_cases same : x = name
    · simp [write, read, same]
    · simp only [read, if_neg same] at declared
      simp only [write, read, if_neg same]
      exact ih declared

theorem read_write_of_ne {name other : Name}
    (different : name ≠ other) : read (write env name new) other = read env other := by
  induction env with
  | nil => rfl
  | cons entry rest ih =>
    rcases entry with ⟨x, v⟩
    by_cases same : x = name
    · subst same
      simp [write, read, different]
    · simp only [write, read, if_neg same, ih]

end Scopes
