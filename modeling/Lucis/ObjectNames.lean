import Mathlib.Data.List.Nodup

/-!
The object files of one build: how cli/BuildCommand.cpp names them, and what they hold when the
linker takes them. C sources are compiled first, then the units, then the assembly sources. A
binary that cli/BinaryBuilder.cpp builds has the objects of its C sources only, named in the same
way, and one temporary object. Objects that the user gives are appended to the list, and left out.
-/

namespace Lucis.ObjectNames

open List

abbrev Text := List Char

structure SourceUnit where
  modulePath : Text
  filePath : Text
deriving DecidableEq

structure Project where
  buildDir : Text
  units : List SourceUnit
  visited_once : (units.map SourceUnit.filePath).Nodup
  cSourceFiles : List Text
  assemblySources : List Text

inductive Input where
  | unit (unit : SourceUnit)
  | cSource (path : Text)
  | assembly (path : Text)
deriving DecidableEq

/-- `fs::path::stem` -/
def stem (path : Text) : Text :=
  let name := (path.reverse.takeWhile (· ≠ '/')).reverse
  let front := (name.reverse.dropWhile (· ≠ '.')).reverse.dropLast
  if name = ['.', '.'] ∨ front = [] then name else front

def isSeparator (c : Char) : Prop := c = '/' ∨ c = '\\'

instance (c : Char) : Decidable (isSeparator c) := inferInstanceAs (Decidable (_ ∨ _))

def flatten (name : Text) : Text := name.map fun c => if isSeparator c then '_' else c

def SourceUnit.name (unit : SourceUnit) : Text := unit.modulePath ++ '_' :: '_' :: stem unit.filePath

def cName (path : Text) : Text := 'c' :: '_' :: '_' :: stem path

def asmName (path : Text) : Text := 'a' :: 's' :: 'm' :: '_' :: '_' :: stem path

section Build
variable (project : Project)

def objPath (name : Text) : Text := project.buildDir ++ '/' :: name ++ ['.', 'o']

def unitStem (unit : SourceUnit) : Text :=
  match project.units.find? (·.filePath = unit.filePath) with
  | some first => first.modulePath ++ '_' :: '_' :: stem unit.filePath
  | none => stem unit.filePath

def unitObjects : List (Text × Input) :=
  project.units.map fun unit => (objPath project (flatten (unitStem project unit)), .unit unit)

def cObjects : List (Text × Input) :=
  project.cSourceFiles.map fun cSrc => (objPath project (cName cSrc), .cSource cSrc)

def asmObjects : List (Text × Input) :=
  project.assemblySources.map fun asmSrc => (objPath project (asmName asmSrc), .assembly asmSrc)

def written : List (Text × Input) := cObjects project ++ unitObjects project ++ asmObjects project

def objectFiles : List (Text × Input) := unitObjects project ++ cObjects project ++ asmObjects project

def contents (path : Text) : Option Input :=
  ((written project).reverse.find? (·.1 = path)).map Prod.snd

end Build

section Apart

/-- Names that differ at most in which separator, or an underscore for it, stands at a place. -/
def Alike (name name' : Text) : Prop :=
  List.Forall₂ (fun c d => c = d ∨ (isSeparator c ∨ c = '_') ∧ (isSeparator d ∨ d = '_')) name name'

def inputs (project : Project) : List Input :=
  project.units.map Input.unit ++ project.cSourceFiles.map Input.cSource ++
    project.assemblySources.map Input.assembly

structure Apart (project : Project) : Prop where
  units : project.units.Pairwise fun u v => ¬ Alike u.name v.name
  cSources : (project.cSourceFiles.map stem).Nodup
  assembly : (project.assemblySources.map stem).Nodup
  unit_c : ∀ u ∈ project.units, ∀ path ∈ project.cSourceFiles, flatten u.name ≠ cName path
  unit_asm : ∀ u ∈ project.units, ∀ path ∈ project.assemblySources, flatten u.name ≠ asmName path

/-- Each object is linked from a file of its own, which holds the object of its input. -/
def Exact (project : Project) : Prop :=
  ((objectFiles project).map Prod.fst).Nodup ∧
    (objectFiles project).map (fun object => contents project object.1) =
      (inputs project).map some

variable {project : Project}

theorem objPath_inj {name name' : Text} :
    objPath project name = objPath project name' ↔ name = name' := by
  simp [objPath]

theorem flatten_char (c d : Char) :
    ((if isSeparator c then '_' else c) = if isSeparator d then '_' else d) ↔
      (c = d ∨ (isSeparator c ∨ c = '_') ∧ (isSeparator d ∨ d = '_')) := by
  by_cases first : isSeparator c
  · by_cases second : isSeparator d
    · simp [first, second]
    · have apart : c ≠ d := fun same => second (same ▸ first)
      simp [first, second, apart, eq_comm]
  · by_cases second : isSeparator d
    · have apart : c ≠ d := fun same => first (same ▸ second)
      simp [first, second, apart]
    · simp only [first, second, if_false, false_or]
      refine (or_iff_left_of_imp ?_).symm
      rintro ⟨rfl, rfl⟩
      rfl

theorem flatten_alike (name name' : Text) : flatten name = flatten name' ↔ Alike name name' := by
  rw [flatten, flatten, ← forall₂_eq_eq_eq, forall₂_map_left_iff, forall₂_map_right_iff, Alike]
  simp only [flatten_char]

theorem unitStem_eq {unit : SourceUnit} (listed : unit ∈ project.units) :
    unitStem project unit = unit.name := by
  cases found : project.units.find? (·.filePath = unit.filePath) with
  | none =>
    have absent := find?_eq_none.1 found unit listed
    simp at absent
  | some first =>
    have same : first.filePath = unit.filePath := by simpa using find?_some found
    have known := mem_of_find?_eq_some found
    obtain rfl := inj_on_of_nodup_map project.visited_once known listed same
    simp only [unitStem, found, SourceUnit.name]

theorem unitObjects_paths : (unitObjects project).map Prod.fst =
    project.units.map fun unit => objPath project (flatten unit.name) := by
  rw [unitObjects, List.map_map]
  exact map_congr_left fun unit listed => by simp only [Function.comp, unitStem_eq listed]

theorem cObjects_paths : (cObjects project).map Prod.fst =
    project.cSourceFiles.map fun cSrc => objPath project (cName cSrc) := by
  rw [cObjects, List.map_map]
  rfl

theorem asmObjects_paths : (asmObjects project).map Prod.fst =
    project.assemblySources.map fun asmSrc => objPath project (asmName asmSrc) := by
  rw [asmObjects, List.map_map]
  rfl

theorem nodup_units : ((unitObjects project).map Prod.fst).Nodup ↔
      project.units.Pairwise fun u v => ¬ Alike u.name v.name := by
  rw [unitObjects_paths]
  simp only [List.Nodup, pairwise_map, ne_eq, objPath_inj, flatten_alike]

theorem nodup_stems {name : Text → Text} {sources : List Text}
    (named : ∀ path path', name path = name path' ↔ stem path = stem path') :
    (sources.map fun path => objPath project (name path)).Nodup ↔ (sources.map stem).Nodup := by
  simp only [List.Nodup, pairwise_map, ne_eq, objPath_inj, named]

theorem objectFiles_nodup : ((objectFiles project).map Prod.fst).Nodup ↔ Apart project := by
  have cPaths := @nodup_stems project cName project.cSourceFiles (by simp [cName])
  have asmPaths := @nodup_stems project asmName project.assemblySources (by simp [asmName])
  have marks (path path' : Text) : cName path ≠ asmName path' := by simp [cName, asmName]
  rw [objectFiles, map_append, map_append, nodup_append, nodup_append,
    nodup_units, unitObjects_paths, cObjects_paths, asmObjects_paths, cPaths, asmPaths]
  simp only [forall_mem_append, List.forall_mem_map, ne_eq, objPath_inj, marks,
    not_false_eq_true, implies_true, and_true]
  constructor
  · rintro ⟨⟨units, cSources, unit_c⟩, assembly, unit_asm⟩
    exact ⟨units, cSources, assembly, unit_c, unit_asm⟩
  · rintro ⟨units, cSources, assembly, unit_c, unit_asm⟩
    exact ⟨⟨units, cSources, unit_c⟩, assembly, unit_asm⟩

theorem contents_written (apart : ((objectFiles project).map Prod.fst).Nodup)
    {object} (listed : object ∈ objectFiles project) :
    contents project object.1 = some object.2 := by
  have order : (written project).reverse.Perm (objectFiles project) :=
    (reverse_perm _).trans (perm_append_comm.append_right _)
  have there : object ∈ (written project).reverse := order.mem_iff.2 listed
  have once := (order.map Prod.fst).nodup_iff.2 apart
  rw [contents]
  cases found : (written project).reverse.find? (·.1 = object.1) with
  | none =>
    have absent := find?_eq_none.1 found object there
    simp at absent
  | some last =>
    have same : last.1 = object.1 := by simpa using find?_some found
    rw [inj_on_of_nodup_map once (mem_of_find?_eq_some found) there same]
    rfl

theorem objectFiles_inputs : (objectFiles project).map Prod.snd = inputs project := by
  simp [objectFiles, unitObjects, cObjects, asmObjects, inputs, Function.comp_def]

/-- Every input is linked once, from an object of its own, just when no two share a name. -/
theorem objects_apart_iff (project : Project) : Exact project ↔ Apart project := by
  rw [Exact, objectFiles_nodup, and_iff_left_iff_imp]
  intro apart
  rw [← objectFiles_inputs, List.map_map]
  exact map_congr_left fun object listed =>
    contents_written (objectFiles_nodup.2 apart) listed

def sameStem : Project where
  buildDir := ['o']
  units := []
  visited_once := List.nodup_nil
  cSourceFiles := [['x', '/', 'a', '.', 'c'], ['y', '/', 'a', '.', 'c']]
  assemblySources := []

/-- The object of `x/a.c` is lost to that of `y/a.c`, which is linked twice. -/
theorem same_stem_lost : ¬ Exact sameStem ∧
    (objectFiles sameStem).map (fun object => contents sameStem object.1) =
      [some (.cSource ['y', '/', 'a', '.', 'c']), some (.cSource ['y', '/', 'a', '.', 'c'])] := by
  refine ⟨?_, by decide⟩
  rintro ⟨once, -⟩
  exact absurd once (by decide)

end Apart

end Lucis.ObjectNames
