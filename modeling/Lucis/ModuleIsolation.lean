import Mathlib.Algebra.Ring.Int.Defs
import Mathlib.Algebra.Ring.Nat
import Lucis.Comptime

/-!
What code generation of one unit takes from the whole project: the integer constants, the
comptime functions and the consumed parameters of cli/LucisPipeline.cpp and
cli/BuildCommand.cpp. The pipeline checks the units in some order and merges what each
checker found into tables keyed by bare names; every unit is then generated with the same
tables. A unit is given by what its checker finds and by the lookups its generation makes, each
with what the declaration visible there has for it. The calls inside a comptime body, which the
interpreter looks up while it runs, are left out.
-/

namespace Lucis.ModuleIsolation

open Function

open Comptime (ComptimeValue FunctionDecl)

abbrev Name := String

section Tables

/-- An `unordered_map` from names. -/
abbrev Table (α : Type) := Name → Option α

variable {α : Type}

def Table.insert (table : Table α) (name : Name) (value : α) : Table α :=
  Function.update table name (some value)

def Table.merge (table : Table α) (entries : List (Name × α)) : Table α :=
  entries.foldl (fun table entry => table.insert entry.1 entry.2) table

def written (entries : List (Name × α)) (name : Name) : Option α :=
  (entries.reverse.find? fun entry => entry.1 = name).map Prod.snd

theorem merge_apply (table : Table α) (entries : List (Name × α)) (name : Name) :
    table.merge entries name = (written entries name).or (table name) := by
  induction entries generalizing table with
  | nil => rfl
  | cons entry rest ih =>
    have later : table.merge (entry :: rest) name =
        (table.insert entry.1 entry.2).merge rest name := rfl
    rw [later, ih]
    by_cases here : entry.1 = name
    · subst here
      cases found : rest.reverse.find? (fun other => decide (other.1 = entry.1)) <;>
        simp [written, found, Table.insert]
    · have kept : (table.insert entry.1 entry.2) name = table name :=
        update_of_ne (Ne.symm here) _ _
      rw [kept]
      cases found : rest.reverse.find? (fun other => decide (other.1 = name)) <;>
        simp [written, found, here]

end Tables

section Project

/-- What the checker finds in a unit. Constants are all names that its checker has a value for,
locals too; the exported ones are in the module registry. -/
structure Declarations where
  compileTimeValues : List (Name × ComptimeValue)
  userFunctionConsumingArgs : List (Name × List Nat)
  comptimeFunctions : List (Name × FunctionDecl)
  exportedConstants : List (Name × Int64)

def Declarations.none : Declarations := ⟨[], [], [], []⟩

structure Import where
  localName : Name
  modulePath : String
  exportedName : Name

inductive Answer where
  | size (value : Option Nat)
  | comptime (decl : FunctionDecl)
  | consumes (params : List Nat)
  | plain

/-- A lookup of code generation, or a declaration with an integer literal, which it stores. A
call that is no comptime call asks for the consumed parameters where it calls directly. -/
inductive Use where
  | literal (name : Name) (value : Int64)
  | dimension (initialised : Bool) (name : Name) (visible : Answer)
  | call (direct : Bool) (callee : Name) (visible : Answer)
  | resultType (callee : Name) (visible : Answer)
  | method (key : Name) (visible : Answer)

/-- What the declaration that is visible in the unit has for the lookup. -/
def Use.visible : Use → Option Answer
  | .literal _ _ => none
  | .dimension _ _ visible => some visible
  | .call _ _ visible => some visible
  | .resultType _ visible => some visible
  | .method _ visible => some visible

structure SourceUnit where
  modulePath : String
  declares : Declarations
  userImports : List Import
  /-- Local and exported names of what the standard library exports. -/
  imports : List (Name × Name)
  uses : List Use

def integers (values : List (Name × ComptimeValue)) : List (Name × Int64) :=
  values.filterMap fun entry =>
    match entry.2 with
    | .int v => some (entry.1, v)
    | _ => none

structure Tables where
  compileTimeValues : Table Int64
  userFunctionConsumingArgs : Table (List Nat)
  comptimeRegistry : Table FunctionDecl

def Tables.empty : Tables := ⟨fun _ => none, fun _ => none, fun _ => none⟩

def Tables.accumulate (tables : Tables) (unit : SourceUnit) : Tables where
  compileTimeValues := tables.compileTimeValues.merge (integers unit.declares.compileTimeValues)
  userFunctionConsumingArgs :=
    tables.userFunctionConsumingArgs.merge unit.declares.userFunctionConsumingArgs
  comptimeRegistry := tables.comptimeRegistry.merge unit.declares.comptimeFunctions

def accumulated (units : List SourceUnit) : Tables :=
  units.foldl Tables.accumulate .empty

def findSymbol (units : List SourceUnit) (modulePath : String) (name : Name) : Option Int64 :=
  (units.filter fun unit => unit.modulePath = modulePath).findSome? fun unit =>
    unit.declares.exportedConstants.lookup name

/-- `static_cast<unsigned>` -/
def toUnsigned (value : Int64) : Nat := value.toUInt64.toNat % 2 ^ 32

def dimensionOf (units : List SourceUnit) (unit : SourceUnit) (values : Table Int64)
    (initialised : Bool) (name : Name) : Option Nat :=
  match values name with
  | some value => some (toUnsigned value)
  | none =>
    if initialised then
      match unit.userImports.find? fun binding => binding.localName = name with
      | some binding =>
        ((findSymbol units binding.modulePath binding.exportedName).filter (0 < ·)).map toUnsigned
      | none => none
    else none

def calleeName (unit : SourceUnit) (callee : Name) : Name :=
  (unit.imports.lookup callee).getD callee

def consumed (tables : Tables) (key : Name) : Answer :=
  .consumes ((tables.userFunctionConsumingArgs key).getD [])

def callOf (tables : Tables) (unit : SourceUnit) (direct : Bool) (callee : Name) : Answer :=
  match tables.comptimeRegistry (calleeName unit callee) with
  | some decl => .comptime decl
  | none => if direct then consumed tables (calleeName unit callee) else .plain

def resultTypeOf (tables : Tables) (callee : Name) : Answer :=
  match tables.comptimeRegistry callee with
  | some decl => .comptime decl
  | none => .plain

/-- The answers that the generation of a unit gets, with the constants it has stored. -/
def generate (units : List SourceUnit) (unit : SourceUnit) (tables : Tables)
    (values : Table Int64) : List Use → List Answer
  | [] => []
  | .literal name value :: rest => generate units unit tables (values.insert name value) rest
  | .dimension initialised name _ :: rest =>
    .size (dimensionOf units unit values initialised name) ::
      generate units unit tables values rest
  | .call direct callee _ :: rest =>
    callOf tables unit direct callee :: generate units unit tables values rest
  | .resultType callee _ :: rest =>
    resultTypeOf tables callee :: generate units unit tables values rest
  | .method key _ :: rest => consumed tables key :: generate units unit tables values rest

def generateUnit (units : List SourceUnit) (unit : SourceUnit) : List Answer :=
  generate units unit (accumulated units) (accumulated units).compileTimeValues unit.uses

end Project

section Isolation

def SourceUnit.declaring (unit : SourceUnit) (declares : Declarations) : SourceUnit :=
  { unit with declares := declares }

/-- What is used for `m` in a project where the unit `n` declares this, between the units that
are checked before and after it. -/
def usedBy (m : SourceUnit) (before : List SourceUnit) (n : SourceUnit) (after : List SourceUnit)
    (declares : Declarations) : List Answer :=
  generateUnit (before ++ n.declaring declares :: after) m

/-- What is used for `m` is that of the declarations visible in it, whatever `n` declares. -/
def Isolated (m : SourceUnit) (before : List SourceUnit) (n : SourceUnit)
    (after : List SourceUnit) : Prop :=
  ∀ declares, usedBy m before n after declares = m.uses.filterMap Use.visible

section Last

variable {α : Type} (entries : SourceUnit → List (Name × α))

/-- What the last of the units that declare the name has for it. -/
def latest : List SourceUnit → Name → Option α
  | [], _ => none
  | unit :: rest, name => (latest rest name).or (written (entries unit) name)

end Last

/-- The last constant of the name behind `n`, or one that the unit has stored itself. -/
def constantBehind (after : List SourceUnit) (stored : Table Int64) (name : Name) : Option Int64 :=
  (stored name).or (latest (fun unit => integers unit.declares.compileTimeValues) after name)

def comptimeBehind (after : List SourceUnit) (name : Name) : Option FunctionDecl :=
  latest (fun unit => unit.declares.comptimeFunctions) after name

def consumingBehind (after : List SourceUnit) (key : Name) : Option (List Nat) :=
  latest (fun unit => unit.declares.userFunctionConsumingArgs) after key

def Settled (m : SourceUnit) (after : List SourceUnit) (stored : Table Int64) : Use → Prop
  | .literal _ _ => True
  | .dimension _ name visible =>
    ∃ v, constantBehind after stored name = some v ∧ visible = .size (some (toUnsigned v))
  | .call _ callee visible =>
    ∃ decl, comptimeBehind after (calleeName m callee) = some decl ∧ visible = .comptime decl
  | .resultType callee visible =>
    ∃ decl, comptimeBehind after callee = some decl ∧ visible = .comptime decl
  | .method key visible =>
    ∃ params, consumingBehind after key = some params ∧ visible = .consumes params

/-- Each lookup finds behind `n` what the declaration visible in `m` has. -/
def AllSettled (m : SourceUnit) (after : List SourceUnit) : Table Int64 → List Use → Prop
  | _, [] => True
  | stored, .literal name value :: rest => AllSettled m after (stored.insert name value) rest
  | stored, use :: rest => Settled m after stored use ∧ AllSettled m after stored rest

end Isolation

section Merged

variable {α : Type} (entries : SourceUnit → List (Name × α)) (units : List SourceUnit)

theorem foldl_merge (table : Table α) (name : Name) :
    units.foldl (fun table unit => table.merge (entries unit)) table name =
      (latest entries units name).or (table name) := by
  induction units generalizing table with
  | nil => rfl
  | cons unit rest ih => rw [List.foldl_cons, ih, merge_apply, latest, Option.or_assoc]

/-- In the merged table the units behind `n` come first, then `n`, then those before it. -/
theorem foldl_between (before : List SourceUnit) (n : SourceUnit) (after : List SourceUnit)
    (name : Name) :
    (before ++ n :: after).foldl (fun table unit => Table.merge table (entries unit))
        (fun _ => none) name = (latest entries after name).or
        ((written (entries n) name).or (latest entries before name)) := by
  rw [List.foldl_append, List.foldl_cons, foldl_merge, merge_apply, foldl_merge, Option.or_none]

variable (tables : Tables)

theorem accumulated_values :
    (units.foldl Tables.accumulate tables).compileTimeValues =
      units.foldl (fun table unit => table.merge (integers unit.declares.compileTimeValues))
        tables.compileTimeValues := by
  induction units generalizing tables with
  | nil => rfl
  | cons unit _ ih => exact ih (tables.accumulate unit)

theorem accumulated_consuming :
    (units.foldl Tables.accumulate tables).userFunctionConsumingArgs =
      units.foldl (fun table unit => table.merge unit.declares.userFunctionConsumingArgs)
        tables.userFunctionConsumingArgs := by
  induction units generalizing tables with
  | nil => rfl
  | cons unit _ ih => exact ih (tables.accumulate unit)

theorem accumulated_comptime :
    (units.foldl Tables.accumulate tables).comptimeRegistry =
      units.foldl (fun table unit => table.merge unit.declares.comptimeFunctions)
        tables.comptimeRegistry := by
  induction units generalizing tables with
  | nil => rfl
  | cons unit _ ih => exact ih (tables.accumulate unit)

end Merged

section Between

variable (before : List SourceUnit) (n : SourceUnit) (after : List SourceUnit)

/-- The project in which `n` declares this. -/
abbrev projectWith (declares : Declarations) : List SourceUnit :=
  before ++ n.declaring declares :: after

variable (declares : Declarations) (name : Name)

theorem values_between :
    (accumulated (projectWith before n after declares)).compileTimeValues name =
      (latest (fun unit => integers unit.declares.compileTimeValues) after name).or
        ((written (integers declares.compileTimeValues) name).or
          (latest (fun unit => integers unit.declares.compileTimeValues) before name)) :=
  (congrFun (accumulated_values _ _) name).trans (foldl_between _ before _ after name)

theorem consuming_between :
    (accumulated (projectWith before n after declares)).userFunctionConsumingArgs name =
      (latest (fun unit => unit.declares.userFunctionConsumingArgs) after name).or
        ((written declares.userFunctionConsumingArgs name).or
          (latest (fun unit => unit.declares.userFunctionConsumingArgs) before name)) :=
  (congrFun (accumulated_consuming _ _) name).trans (foldl_between _ before _ after name)

theorem comptime_between :
    (accumulated (projectWith before n after declares)).comptimeRegistry name =
      (latest (fun unit => unit.declares.comptimeFunctions) after name).or
        ((written declares.comptimeFunctions name).or
          (latest (fun unit => unit.declares.comptimeFunctions) before name)) :=
  (congrFun (accumulated_comptime _ _) name).trans (foldl_between _ before _ after name)

end Between

section Exact

variable {before : List SourceUnit} {n m : SourceUnit} {after : List SourceUnit}

variable (before n after) in
/-- The tables in a project where `n` declares this. -/
abbrev tablesWith (declares : Declarations) : Tables :=
  accumulated (projectWith before n after declares)

/-- The constants that the generation of `m` has: its own, and then those of the tables. -/
def Merged (values : Declarations → Table Int64) (before : List SourceUnit) (n : SourceUnit)
    (after : List SourceUnit) (stored : Table Int64) : Prop :=
  ∀ declares name, values declares name =
    (stored name).or ((tablesWith before n after declares).compileTimeValues name)

theorem merged_insert {values : Declarations → Table Int64} {stored : Table Int64}
    (merged : Merged values before n after stored) (name : Name) (value : Int64) :
    Merged (fun declares => (values declares).insert name value) before n after
      (stored.insert name value) := by
  intro declares other
  by_cases here : other = name
  · subst here
    simp [Table.insert]
  · simp [Table.insert, update_of_ne here, merged declares other]

variable {visible : Answer}

/-- An answer is the visible one whatever `n` says exactly where it is given behind `n`: else `n`
gives two. -/
theorem settled_iff {α : Type} (answer : Declarations → Option α → Answer) {known : α → Answer}
    (given : ∀ declares value, answer declares (some value) = known value)
    {behind earlier : Option α} {own : Declarations → Option α} (one other : Declarations)
    {first second : α} (told : own one = some first) (told' : own other = some second)
    (different : known first ≠ known second) :
    (∀ declares, answer declares (behind.or ((own declares).or earlier)) = visible) ↔
      ∃ value, behind = some value ∧ visible = known value := by
  cases behind with
  | some value =>
    simp only [Option.some_or, given, Option.some.injEq, exists_eq_left', eq_comm]
    exact ⟨fun same => same one, fun same _ => same⟩
  | none =>
    refine iff_of_false (fun same => different ?_) ?_
    · have left := same one
      have right := same other
      rw [told, Option.none_or, Option.some_or, given] at left
      rw [told', Option.none_or, Option.some_or, given] at right
      exact left.trans right.symm
    · rintro ⟨_, found, _⟩
      cases found

/-- The checker of `n` has found one constant. -/
def oneConstant (name : Name) (value : Int64) : Declarations :=
  { Declarations.none with compileTimeValues := [(name, .int value)] }

def oneComptime (name : Name) (decl : FunctionDecl) : Declarations :=
  { Declarations.none with comptimeFunctions := [(name, decl)] }

def oneConsuming (key : Name) (params : List Nat) : Declarations :=
  { Declarations.none with userFunctionConsumingArgs := [(key, params)] }

theorem written_one {α : Type} (name : Name) (value : α) :
    written [(name, value)] name = some value := by
  simp [written]

theorem emptyDecl_ne : Answer.comptime ⟨[], []⟩ ≠ .comptime ⟨[none], []⟩ := by
  intro same
  cases congrArg FunctionDecl.params (Answer.comptime.inj same)

theorem dimension_iff {values : Declarations → Table Int64} {stored : Table Int64}
    (merged : Merged values before n after stored) (initialised : Bool) (name : Name) :
    (∀ declares, .size (dimensionOf (projectWith before n after declares) m (values declares)
        initialised name) = visible) ↔
      ∃ v, constantBehind after stored name = some v ∧ visible = .size (some (toUnsigned v)) := by
  have different : Answer.size (some (toUnsigned 1)) ≠ .size (some (toUnsigned 2)) := by
    intro same
    exact absurd (Option.some.inj (Answer.size.inj same)) (by decide)
  have found (declares : Declarations) : values declares name =
      (constantBehind after stored name).or ((written (integers declares.compileTimeValues) name).or
        (latest (fun unit => integers unit.declares.compileTimeValues) before name)) := by
    rw [merged, values_between, constantBehind, Option.or_assoc]
  let answer (declares : Declarations) (value : Option Int64) : Answer :=
    .size (dimensionOf (projectWith before n after declares) m (fun _ => value) initialised name)
  have asked (declares : Declarations) : Answer.size (dimensionOf
      (projectWith before n after declares) m (values declares) initialised name) =
        answer declares (values declares name) := rfl
  simp only [asked, found]
  exact settled_iff answer (fun _ _ => rfl) (oneConstant name 1) (oneConstant name 2)
    (written_one name 1) (written_one name 2) different

theorem comptime_iff {callee : Name} (answer : Declarations → Option FunctionDecl → Answer)
    (given : ∀ declares decl, answer declares (some decl) = .comptime decl) :
    (∀ declares, answer declares ((tablesWith before n after declares).comptimeRegistry callee) =
        visible) ↔
      ∃ decl, comptimeBehind after callee = some decl ∧ visible = .comptime decl := by
  simp only [comptime_between]
  exact settled_iff answer given (oneComptime callee ⟨[], []⟩) (oneComptime callee ⟨[none], []⟩)
    (written_one _ _) (written_one _ _) emptyDecl_ne

theorem consuming_iff (key : Name) :
    (∀ declares, consumed (tablesWith before n after declares) key = visible) ↔
      ∃ params, consumingBehind after key = some params ∧ visible = .consumes params := by
  have different : Answer.consumes [0] ≠ .consumes [1] := by
    intro same
    cases Answer.consumes.inj same
  simp only [consumed, consuming_between]
  exact settled_iff (fun _ found => .consumes (found.getD [])) (fun _ _ => rfl)
    (oneConsuming key [0]) (oneConsuming key [1]) (written_one _ _) (written_one _ _) different

/-- By induction on the uses; the constants stored so far are in the invariant `Merged`. -/
theorem generate_iff (uses : List Use) (stored : Table Int64) (values : Declarations → Table Int64)
    (merged : Merged values before n after stored) :
    (∀ declares, generate (projectWith before n after declares) m
        (tablesWith before n after declares) (values declares) uses = uses.filterMap Use.visible) ↔ AllSettled m after stored uses := by
  induction uses generalizing stored values with
  | nil => exact iff_of_true (fun _ => rfl) trivial
  | cons use rest ih =>
    cases use with
    | literal name value => exact ih _ _ (merged_insert merged name value)
    | dimension initialised name visible =>
      simp only [generate, List.filterMap_cons, Use.visible, List.cons.injEq, forall_and,
        ih stored values merged, dimension_iff merged, AllSettled, Settled]
    | call direct callee visible =>
      simp only [generate, List.filterMap_cons, Use.visible, List.cons.injEq, forall_and,
        ih stored values merged, AllSettled, Settled]
      refine and_congr_left fun _ => ?_
      exact comptime_iff (fun declares found => match found with
        | some decl => .comptime decl
        | none => if direct then consumed (tablesWith before n after declares) (calleeName m callee)
          else .plain) fun _ _ => rfl
    | resultType callee visible =>
      simp only [generate, List.filterMap_cons, Use.visible, List.cons.injEq, forall_and,
        ih stored values merged, AllSettled, Settled]
      refine and_congr_left fun _ => ?_
      exact comptime_iff (fun _ found => match found with
        | some decl => .comptime decl
        | none => .plain) fun _ _ => rfl
    | method key visible =>
      simp only [generate, List.filterMap_cons, Use.visible, List.cons.injEq, forall_and,
        ih stored values merged, consuming_iff, AllSettled, Settled]

/-- A unit is isolated from `n` exactly when each of its lookups finds behind `n`, or among the
constants it stores itself, what the declaration visible in the unit has. -/
theorem isolated_iff (m : SourceUnit) (before : List SourceUnit) (n : SourceUnit)
    (after : List SourceUnit) :
    Isolated m before n after ↔ AllSettled m after (fun _ => none) m.uses :=
  generate_iff m.uses (fun _ => none)
    (fun declares => (tablesWith before n after declares).compileTimeValues) fun _ _ => rfl

/-- `const K = 2 * 2;` and an array of that size. -/
def sizedUnit : SourceUnit where
  modulePath := "app/main"
  declares := { Declarations.none with compileTimeValues := [("K", .int 4)] }
  userImports := []
  imports := []
  uses := [.dimension false "K" (.size (some 4))]

def strangerUnit : SourceUnit where
  modulePath := "lib/other"
  declares := .none
  userImports := []
  imports := []
  uses := []

/-- A local `int32 K = 9;` of a unit that is checked later becomes the size of the array. -/
theorem stranger_resizes :
    usedBy sizedUnit [sizedUnit] strangerUnit [] (oneConstant "K" 9) = [.size (some 9)] ∧
      usedBy sizedUnit [sizedUnit] strangerUnit [] .none = [.size (some 4)] := by
  constructor <;> rfl

end Exact

end Lucis.ModuleIsolation
