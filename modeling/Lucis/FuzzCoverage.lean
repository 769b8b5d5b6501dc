import Mathlib.Algebra.Order.BigOperators.Group.List
import Mathlib.Algebra.Order.Group.Nat
import Mathlib.Algebra.Ring.Nat
import Mathlib.Data.List.Nodup
import Mathlib.Data.List.ReduceOption

/-!
The coverage hooks of IRBuilder/IRGen_fuzz.cpp, in the program that cli/BinaryBuilder.cpp links
from all units, and the map of builtins/fuzz/fuzz_runner.c that they set.
-/

namespace Lucis.FuzzCoverage

open List

structure Func where
  name : List Char
  declaration : Bool
  /-- for each block, whether it holds an instruction that is no PHI -/
  blocks : List Bool
  kept : Bool

structure SourceUnit where
  isStdlib : Bool
  functions : List Func

section Instrumentation

def injectBlocks : List Bool → Nat → List (Option Nat) × Nat
  | [], id => ([], id)
  | first :: rest, id =>
    let (hooks, next) := injectBlocks rest (id + 1)
    ((if first then some (id &&& 0xFFFF) else none) :: hooks, next)

def passedOver (fn : Func) : Bool :=
  fn.declaration || ['l', 'u', 'c', 'i', 's', '_'].isPrefixOf fn.name

def injectFunctions : List Func → Nat → List (Func × List (Option Nat))
  | [], _ => []
  | fn :: rest, id =>
    if passedOver fn then (fn, []) :: injectFunctions rest id
    else
      let (hooks, next) := injectBlocks fn.blocks id
      (fn, hooks) :: injectFunctions rest next

def injectFuzzCoverage (unit : SourceUnit) : List (Func × List (Option Nat)) :=
  if unit.isStdlib then unit.functions.map fun fn => (fn, [])
  else injectFunctions unit.functions 0

def generate (unit : SourceUnit) : Option (List (Func × List (Option Nat))) :=
  if unit.functions.all fun fn => fn.declaration || fn.blocks.all id then
    some (injectFuzzCoverage unit)
  else none

def build (units : List SourceUnit) : Option (List Nat) :=
  (units.mapM generate).map fun modules =>
    modules.flatten.flatMap fun (fn, hooks) => if fn.kept then hooks.reduceOption else []

end Instrumentation

section Runner

def mapBits : Nat := 1 <<< 16

def lucisFuzzTrace (bitmap : Nat → Bool) (id : Nat) : Nat → Bool :=
  Function.update bitmap (id &&& (mapBits - 1)) true

variable {reports : List Nat}

def execute (run : List (Fin reports.length)) : Nat → Bool :=
  (run.map reports.get).foldl lucisFuzzTrace fun _ => false

def newCoverage (total : Nat → Bool) (run : List (Fin reports.length)) : Bool :=
  (List.range mapBits).any fun i => execute run i && !total i

/-- `g_total` after these executions. -/
def total (runs : List (List (Fin reports.length))) : Nat → Bool :=
  runs.foldl (fun total run i => total i || execute run i) fun _ => false

structure Identified (reports : List Nat) : Prop where
  distinct : reports.Nodup
  seen : ∀ (runs : List (List (Fin reports.length))) (run : List (Fin reports.length)),
    (∃ block ∈ run, ∀ earlier ∈ runs, block ∉ earlier) → newCoverage (total runs) run = true

theorem mask_small {id : Nat} (small : id < 65536) : id &&& 0xFFFF = id := by
  have mask := Nat.and_two_pow_sub_one_eq_mod id 16
  exact mask.trans (Nat.mod_eq_of_lt small)

theorem execute_iff (small : ∀ id ∈ reports, id < 65536) (run : List (Fin reports.length))
    (i : Nat) : execute run i = true ↔ ∃ block ∈ run, reports.get block = i := by
  have traced (ids : List Nat) (known : ∀ id ∈ ids, id < 65536) (map : Nat → Bool) :
      ids.foldl lucisFuzzTrace map i = true ↔ map i = true ∨ i ∈ ids := by
    induction ids generalizing map with
    | nil => simp
    | cons id rest ih =>
      have ⟨first, later⟩ := forall_mem_cons.1 known
      have cell : id &&& (mapBits - 1) = id := mask_small first
      rw [foldl_cons, ih later, lucisFuzzTrace, cell, mem_cons, Function.update_apply]
      by_cases same : i = id
      · simp [same]
      · simp [same]
  rw [execute, traced]
  · simp
  · intro id member
    rcases List.mem_map.1 member with ⟨block, _, rfl⟩
    exact small _ (List.get_mem reports block)

theorem total_iff (runs : List (List (Fin reports.length))) (i : Nat) :
    total runs i = true ↔ ∃ run ∈ runs, execute run i = true := by
  have summed (start : Nat → Bool) :
      runs.foldl (fun total run i => total i || execute run i) start i = true ↔
        start i = true ∨ ∃ run ∈ runs, execute run i = true := by
    induction runs generalizing start with
    | nil => simp
    | cons run rest ih => simp [ih, or_assoc]
  rw [total, summed]
  simp

theorem identified_of_nodup (distinct : reports.Nodup) (small : ∀ id ∈ reports, id < 65536) :
    Identified reports := by
  refine ⟨distinct, ?_⟩
  rintro runs run ⟨block, reached, fresh⟩
  rw [newCoverage, List.any_eq_true]
  refine ⟨reports.get block, mem_range.2 (small _ (List.get_mem reports block)), ?_⟩
  have set := (execute_iff small run (reports.get block)).2 ⟨block, reached, rfl⟩
  have unset : total runs (reports.get block) = false := by
    rw [← Bool.not_eq_true, total_iff]
    rintro ⟨earlier, listed, covered⟩
    rcases (execute_iff small earlier _).1 covered with ⟨other, before, same⟩
    rw [nodup_iff_injective_get.1 distinct same] at before
    exact fresh earlier listed before
  rw [set, unset]
  rfl

end Runner

section Numbering

def numbersFrom : List Func → Nat → List Nat
  | [], _ => []
  | fn :: rest, id =>
    if passedOver fn then numbersFrom rest id
    else (if fn.kept then List.range' id fn.blocks.length else []) ++
      numbersFrom rest (id + fn.blocks.length)

def numbers (unit : SourceUnit) : List Nat :=
  if unit.isStdlib then [] else numbersFrom unit.functions 0

def instrumented (unit : SourceUnit) : Nat :=
  if unit.isStdlib then 0
  else ((unit.functions.filter fun fn => !passedOver fn).map fun fn => fn.blocks.length).sum

theorem injectBlocks_all {blocks : List Bool} (whole : blocks.all id = true) (start : Nat) :
    injectBlocks blocks start = ((List.range' start blocks.length).map fun n => some (n &&& 0xFFFF),
        start + blocks.length) := by
  induction blocks generalizing start with
  | nil => rfl
  | cons first rest ih =>
    rw [all_cons, Bool.and_eq_true] at whole
    have defined : first = true := whole.1
    rw [injectBlocks, ih whole.2, length_cons, range'_succ, map_cons, add_right_comm, defined]
    rfl

def reportsOf (module : List (Func × List (Option Nat))) : List Nat :=
  module.flatMap fun (fn, hooks) => if fn.kept then hooks.reduceOption else []

variable {functions : List Func}

theorem injectFunctions_reports
    (verified : functions.all (fun fn => fn.declaration || fn.blocks.all id) = true)
    (start : Nat) : reportsOf (injectFunctions functions start) =
      (numbersFrom functions start).map (· &&& 0xFFFF) := by
  induction functions generalizing start with
  | nil => rfl
  | cons fn rest ih =>
    rw [all_cons, Bool.and_eq_true] at verified
    rw [injectFunctions, numbersFrom]
    by_cases passed : passedOver fn = true
    · rw [if_pos passed, if_pos passed, ← ih verified.2]
      simp [reportsOf]
    · rw [if_neg passed, if_neg passed]
      have defined : fn.declaration ≠ true := by
        intro declared
        exact passed (by rw [passedOver, declared, Bool.true_or])
      have whole : fn.blocks.all id = true := by simpa [defined] using verified.1
      rw [injectBlocks_all whole, map_append, ← ih verified.2]
      cases keeps : fn.kept with
      | true => simp [reportsOf, keeps, List.reduceOption, filterMap_map]
      | false => simp [reportsOf, keeps]

variable {unit : SourceUnit}

theorem generate_reports {module}
    (generated : generate unit = some module) :
    reportsOf module = (numbers unit).map (· &&& 0xFFFF) := by
  rw [generate] at generated
  split at generated
  next verified =>
    cases generated
    rw [injectFuzzCoverage, numbers]
    by_cases stdlib : unit.isStdlib = true
    · rw [if_pos stdlib, if_pos stdlib]
      simp [reportsOf, flatMap_map]
    · rw [if_neg stdlib, if_neg stdlib]
      exact injectFunctions_reports verified 0
  next => cases generated

variable {units : List SourceUnit}

theorem modules_report {modules}
    (generated : units.mapM generate = some modules) :
    reportsOf modules.flatten = (units.flatMap numbers).map (· &&& 0xFFFF) := by
  induction units generalizing modules with
  | nil =>
    cases generated
    rfl
  | cons unit rest ih =>
    rw [mapM_cons] at generated
    rcases Option.bind_eq_some_iff.1 generated with ⟨first, made, generated⟩
    rcases Option.bind_eq_some_iff.1 generated with ⟨others, later, generated⟩
    cases generated
    rw [flatten_cons, reportsOf, flatMap_append, flatMap_cons, map_append,
      ← generate_reports made, ← ih later]
    rfl

theorem build_reports {reports : List Nat} (built : build units = some reports) :
    reports = (units.flatMap numbers).map (· &&& 0xFFFF) := by
  rcases Option.map_eq_some_iff.1 built with ⟨modules, generated, rfl⟩
  exact modules_report generated

theorem mem_numbersFrom {start n : Nat}
    (member : n ∈ numbersFrom functions start) : start ≤ n ∧ n < start +
      ((functions.filter fun fn => !passedOver fn).map fun fn => fn.blocks.length).sum := by
  induction functions generalizing start with
  | nil => cases member
  | cons fn rest ih =>
    rw [numbersFrom] at member
    by_cases passed : passedOver fn = true
    · rw [if_pos passed] at member
      simpa [passed] using ih member
    · rw [if_neg passed] at member
      simp only [passed, filter_cons, Bool.not_false, if_true, map_cons, sum_cons]
      rcases mem_append.1 member with here | later
      · split at here
        · have inside := mem_range'_1.1 here
          omega
        · cases here
      · have inside := ih later
        omega

theorem numbersFrom_nodup (functions : List Func) (start : Nat) :
    (numbersFrom functions start).Nodup := by
  induction functions generalizing start with
  | nil => exact nodup_nil
  | cons fn rest ih =>
    rw [numbersFrom]
    split
    · exact ih start
    · refine nodup_append'.2 ⟨?_, ih _, ?_⟩
      · split
        · exact nodup_range'
        · exact nodup_nil
      · intro n here later
        have above := (mem_numbersFrom later).1
        split at here
        · have below := mem_range'_1.1 here
          omega
        · cases here

theorem mem_numbers {n : Nat} (member : n ∈ numbers unit) :
    n < instrumented unit := by
  rw [numbers] at member
  rw [instrumented]
  split at member
  · cases member
  next user =>
    rw [if_neg user]
    have inside := (mem_numbersFrom member).2
    omega

theorem numbers_nodup (unit : SourceUnit) : (numbers unit).Nodup := by
  rw [numbers]
  split
  · exact nodup_nil
  · exact numbersFrom_nodup _ _

/-- Every unit counts from zero: identifiers are distinct just when no two units keep blocks of
one number in the program. -/
theorem coverage_identified_iff (units : List SourceUnit) (reports : List Nat)
    (built : build units = some reports) (few : (units.map instrumented).sum ≤ 65536) :
    Identified reports ↔ units.Pairwise fun u v => ∀ n ∈ numbers u, n ∉ numbers v := by
  have small : ∀ n ∈ units.flatMap numbers, n < 65536 := by
    intro n member
    rcases mem_flatMap.mp member with ⟨unit, listed, inside⟩
    have below := mem_numbers inside
    have part := le_sum_of_mem (List.mem_map_of_mem (f := instrumented) listed)
    omega
  have same : reports = units.flatMap numbers := by
    rw [build_reports built, map_congr_left fun n member => mask_small (small n member)]
    exact List.map_id _
  subst same
  have distinct_iff : (units.flatMap numbers).Nodup ↔
      units.Pairwise fun u v => ∀ n ∈ numbers u, n ∉ numbers v := by
    rw [nodup_flatMap]
    exact and_iff_right fun unit _ => numbers_nodup unit
  exact ⟨fun identified => distinct_iff.mp identified.distinct,
    fun apart => identified_of_nodup (distinct_iff.mpr apart) small⟩

end Numbering

section Programs

/-- One function of a unit, `main`, with so many blocks. -/
def userUnit (blocks : Nat) : SourceUnit :=
  ⟨false, [⟨['m', 'a', 'i', 'n'], false, List.replicate blocks true, true⟩]⟩

/-- A unit whose own copy of a generic function's instance the linker drops: its second function
starts where the instance ends. -/
def sharingUnit : SourceUnit :=
  ⟨false, [⟨['m', 'a', 'x', '_', '_', 'i'], false, [true, true], false⟩,
    ⟨['r', 'u', 'n'], false, [true], true⟩]⟩

theorem coverage_identified_single : Identified [0, 1, 2] :=
  (coverage_identified_iff [userUnit 2, sharingUnit] [0, 1, 2] rfl (by decide)).mpr (by decide)

/-- The first blocks of two units report the same identifier. -/
theorem first_blocks_collide :
    build [userUnit 1, userUnit 1] = some [0, 0] ∧
      (([userUnit 1, userUnit 1].map instrumented).sum ≤ 65536) ∧ ¬ Identified [0, 0] := by
  refine ⟨rfl, by decide, fun identified => ?_⟩
  exact absurd identified.distinct (by decide)

end Programs

end Lucis.FuzzCoverage
