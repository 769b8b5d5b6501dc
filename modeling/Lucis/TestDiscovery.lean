import Mathlib.Data.Char
import Mathlib.Data.List.Infix
import Mathlib.Data.List.Lex
import Mathlib.Data.List.Nodup

/-!
The discovery of tests in cli/TestCommand.cpp, for `lucis test` without a file in a project with a
lucis.yaml: the walk over the project's directories, the groups of the entry and of each candidate,
what is selected of them, which groups run, and the exit code. What an import graph holds behind
its own file is a parameter, as are the project root of a file and the building and the ending
of a group's binary. Paths are canonical; `--list` is left out.
-/

namespace Lucis.TestDiscovery

open List Option

abbrev Text := List Char

local instance : LawfulBEq Text := inferInstance

inductive Node where
  | dir (name : Text) (entries : List Node)
  | file (name : Text) (lines : List Text)

section Walk

def isExcludedScanDir (name : Text) : Bool :=
  name.head? = some '.' || name ∈ ["node_modules".toList, "target".toList, "build".toList,
    "dist".toList, "out".toList, "bin".toList, "obj".toList]

def isConventionalTestDir (name : Text) : Bool :=
  name = "tests".toList || name = "test".toList || name = "specs".toList || name = "spec".toList ||
    name = "unit".toList

def dotTest : Text := ['.', 't', 'e', 's', 't', '.', 'l', 'c']
def underTest : Text := ['_', 't', 'e', 's', 't', '.', 'l', 'c']

/-- The source takes nine characters for the eight of `.test.lc`. -/
def isConventionalTestFile (name : Text) : Bool :=
  let dotTail := if 9 ≤ name.length then name.drop (name.length - 9) else []
  let underTail := if 8 ≤ name.length then name.drop (name.length - 8) else []
  dotTail = dotTest || underTail = underTest

def fileHasTestAttribute (lines : List Text) : Bool :=
  lines.any fun line => ['#', '[', 't', 'e', 's', 't'] <:+: line

def joined (dir name : Text) : Text := dir ++ '/' :: name

mutual

def walkEntry (dir dirName : Text) : Node → List Text
  | .dir name entries =>
    if isExcludedScanDir name then [] else walkTestCandidates (joined dir name) name entries
  | .file name lines =>
    let byDir := isConventionalTestDir dirName
    let byName := isConventionalTestFile name
    if (byDir || byName) && fileHasTestAttribute lines then [joined dir name] else []

def walkTestCandidates (dir dirName : Text) : List Node → List Text
  | [] => []
  | entry :: entries => walkEntry dir dirName entry ++ walkTestCandidates dir dirName entries

end

/-- A file with the text of the attribute, in a test directory or named by a rule, and in no
excluded directory below the first. -/
inductive Lists (named : Text → Prop) : Text → Text → List Node → Text → Prop where
  | here {dir dirName : Text} {entries : List Node} {name : Text} {lines : List Text}
      (there : .file name lines ∈ entries) (said : fileHasTestAttribute lines = true)
      (ruled : isConventionalTestDir dirName = true ∨ named name) :
      Lists named dir dirName entries (joined dir name)
  | within {dir dirName : Text} {entries : List Node} {name : Text} {inner : List Node}
      {path : Text} (there : .dir name inner ∈ entries) (scanned : isExcludedScanDir name = false)
      (inside : Lists named (joined dir name) name inner path) :
      Lists named dir dirName entries path

end Walk

section Command

structure SourceUnit where
  filePath : Text
  modulePath : Text
deriving DecidableEq

structure Func where
  file : Text
  name : Text
deriving DecidableEq

structure TestCase where
  file : Text
  modulePath : Text
  funcName : Text
  displayName : Text
deriving DecidableEq

/-- The last part of a path without its extension. -/
def withoutExtension (path : Text) : Text :=
  match path.reverse.span fun c => c ≠ '.' && c ≠ '/' with
  | (_, '.' :: before :: more) => if before = '/' then path else (before :: more).reverse
  | _ => path

/-- The path of a file below the project root, without its extension. -/
def filePathToModulePath (filePath projectRoot : Text) : Text :=
  withoutExtension ((filePath.drop projectRoot.length).dropWhile (· = '/'))

/-- The project, and of an input file the units of its import graph behind the file itself,
unless there are errors. -/
structure Project where
  rootName : Text
  entries : List Node
  inputFile : Text
  getProjectRoot : Text → Text
  imports : Text → Option (List SourceUnit)
  /-- the names and display names of the test functions of a file -/
  tests : Text → List (Text × Text)
  identifiers : ∀ file, ∀ test ∈ tests file, ':' ∉ test.1
  distinct : ∀ file, ((tests file).map Prod.fst).Nodup

def Project.root (p : Project) : Text := p.getProjectRoot p.inputFile

/-- The units of a graph, in the order in which they are loaded. -/
def Project.pipeline (p : Project) (file : Text) : Option (List SourceUnit) :=
  (p.imports file).map (⟨file, filePathToModulePath file (p.getProjectRoot file)⟩ :: ·)

structure Group where
  inputPath : Text
  units : List SourceUnit
deriving DecidableEq

structure Filters where
  includePatterns : List Text
  skipPatterns : List Text
  exact : Bool

def TestCase.func (tc : TestCase) : Func := ⟨tc.file, tc.funcName⟩

def TestCase.key (tc : TestCase) : Text := tc.modulePath ++ ':' :: ':' :: tc.funcName

def testMatches (tc : TestCase) (patterns : List Text) (exact : Bool) : Bool :=
  if patterns = [] then true
  else
    let display := if tc.displayName = [] then tc.funcName else tc.displayName
    patterns.any fun pat =>
      if exact then display = pat || tc.key = pat else pat <:+: display || pat <:+: tc.key

def Filters.keeps (filters : Filters) (tc : TestCase) : Bool :=
  testMatches tc filters.includePatterns filters.exact &&
    !(filters.skipPatterns ≠ [] && testMatches tc filters.skipPatterns filters.exact)

variable (p : Project)

def candidates : List Text :=
  (walkTestCandidates p.root p.rootName p.entries).mergeSort fun a b => a ≤ b

def discover : Option (List Group) :=
  (p.pipeline p.inputFile).bind fun units =>
    let graphed := units.map SourceUnit.filePath
    let extra := ((candidates p).filter (· ∉ graphed)).mapM fun cand =>
      (p.pipeline cand).map (Group.mk cand)
    extra.map (⟨p.inputFile, units⟩ :: ·)

def unitCases (unit : SourceUnit) : List TestCase :=
  (p.tests unit.filePath).map fun (name, display) =>
    ⟨unit.filePath, unit.modulePath, name, display⟩

def testCases (units : List SourceUnit) : List TestCase := units.flatMap (unitCases p)

def select (keeps : TestCase → Bool) : List TestCase → List Text → List TestCase × List Text
  | [], seen => ([], seen)
  | tc :: rest, seen =>
    if tc.key ∈ seen then select keeps rest seen
    else
      let (kept, seen) := select keeps rest (tc.key :: seen)
      (if keeps tc then tc :: kept else kept, seen)

def selectGroups (keeps : TestCase → Bool) : List Group → List Text → List (Group × List TestCase)
  | [], _ => []
  | g :: groups, seen =>
    let (kept, seen) := select keeps (testCases p g.units) seen
    (g, kept) :: selectGroups keeps groups seen

/-- A status of `waitpid`: exited, signalled or neither. -/
inductive Status where
  | exited (code : Fin 256)
  | signaled (signal : Fin 128)
  | other

def Status.code : Status → Nat
  | .exited code => code
  | .signaled signal => 128 + signal
  | .other => 1

/-- How the binary of a group comes out: it is not built or not forked, its end is not waited
for, or it ends. -/
inductive Ending where
  | unbuilt
  | lost
  | ended (status : Status)

variable (outcome : Group → List TestCase → Ending)

/-- The exit code, and the tests of the groups whose binary is started. -/
def runGroups : List (Group × List TestCase) → Nat → Nat × List TestCase
  | [], worst => (worst, [])
  | (g, tests) :: groups, worst =>
    if tests = [] then runGroups groups worst
    else
      match outcome g tests with
      | .unbuilt => (1, [])
      | .lost => (1, tests)
      | .ended status =>
        let (code, later) := runGroups groups (if status.code ≠ 0 then status.code else worst)
        (code, tests ++ later)

def run (filters : Filters) : Nat × List TestCase :=
  match discover p with
  | none => (1, [])
  | some groups =>
    let selected := selectGroups p filters.keeps groups []
    if selected.flatMap Prod.snd = [] then (0, []) else runGroups outcome selected 0

end Command

section Discovered
variable (p : Project)

def Named (name : Text) : Prop := dotTest <:+ name ∨ underTest <:+ name

def Candidate (named : Text → Prop) (file : Text) : Prop :=
  Lists named p.root p.rootName p.entries file

def Lies (f : Func) : Prop :=
  f.name ∈ (p.tests f.file).map Prod.fst ∧
    ((∃ units, p.pipeline p.inputFile = some units ∧ f.file ∈ units.map SourceUnit.filePath) ∨
      Candidate p Named f.file)

def cases (groups : List Group) : List TestCase := groups.flatMap fun g => testCases p g.units

def selected (keeps : TestCase → Bool) : List (Group × List TestCase) :=
  selectGroups p keeps ((discover p).getD []) []

def Once (f : Func) (tests : List TestCase) : Prop := (tests.filter (·.func = f)).length = 1

instance (f : Func) (tests : List TestCase) : Decidable (Once f tests) :=
  inferInstanceAs (Decidable (_ = _))

def Ending.Fails (ending : Ending) : Prop := ∀ status, ending = .ended status → status.code ≠ 0

/-- Each function that lies where tests are looked for is selected once, and no other; what is
selected and matches the filters runs, and nothing else does. The exit code tells whether a
group fails. -/
structure Exact (outcome : Group → List TestCase → Ending) : Prop where
  once : ∀ f, Lies p f → Once f ((selected p fun _ => true).flatMap Prod.snd)
  only : ∀ tc ∈ (selected p fun _ => true).flatMap Prod.snd, Lies p tc.func
  runs : ∀ filters : Filters, (run p outcome filters).2 =
    ((selected p fun _ => true).flatMap Prod.snd).filter filters.keeps
  exit : ∀ filters : Filters, (run p outcome filters).1 ≠ 0 ↔
    discover p = none ∨ ∃ g ∈ selected p filters.keeps, g.2 ≠ [] ∧ (outcome g.1 g.2).Fails

/-- The files that have a graph of their own. -/
def inputs : List Text :=
  p.inputFile :: (candidates p).filter fun file =>
    file ∉ ((p.pipeline p.inputFile).getD []).map SourceUnit.filePath

def Accepted : Prop := ∀ file ∈ inputs p, (p.pipeline file).isSome = true

instance : Decidable (Accepted p) :=
  inferInstanceAs (Decidable (∀ file ∈ inputs p, (p.pipeline file).isSome = true))

/-- All units in the order in which they are loaded. -/
def loaded : List SourceUnit := (inputs p).flatMap fun file => (p.pipeline file).getD []

/-- A unit of the function's file has this module path, and none that is loaded earlier has
both the path and a test of this name. -/
def First (f : Func) (modulePath : Text) : Prop :=
  ∃ front back, loaded p = front ++ ⟨f.file, modulePath⟩ :: back ∧
    f.name ∈ (p.tests f.file).map Prod.fst ∧
    ∀ unit ∈ front, unit.modulePath = modulePath → f.name ∉ (p.tests unit.filePath).map Prod.fst

/-- Every group with tests is started: each binary is built and forked, and none but the last is
lost. -/
def Unbroken (outcome : Group → List TestCase → Ending) : List (Group × List TestCase) → Prop
  | [] => True
  | (g, tests) :: groups =>
    (tests ≠ [] → outcome g tests ≠ .unbuilt ∧
      (outcome g tests = .lost → groups.flatMap Prod.snd = [])) ∧ Unbroken outcome groups

/-- No file that is looked at has errors, if there is a function to be found. Candidates named
`*.test.lc` are loaded in another way. A function to be found has one module path that is not
taken, and what has such a path is to be found. -/
structure Regular : Prop where
  accepted : ∀ f, Lies p f → Accepted p
  dotted : ∀ file, Candidate p (dotTest <:+ ·) file → p.tests file ≠ [] →
    file ∈ (loaded p).map SourceUnit.filePath
  once : ∀ f, Lies p f → f.file ∈ (loaded p).map SourceUnit.filePath →
    ∃! modulePath, First p f modulePath
  only : Accepted p → ∀ f modulePath, First p f modulePath → Lies p f

end Discovered

section Selection

variable {p : Project} (keeps : TestCase → Bool) (tests : List TestCase) (seen : List Text)

theorem select_filter :
    select keeps tests seen = ((select (fun _ => true) tests seen).1.filter keeps,
      (select (fun _ => true) tests seen).2) := by
  induction tests generalizing seen with
  | nil => rfl
  | cons tc rest ih =>
    rw [select, select]
    split
    · exact ih seen
    · rw [ih (tc.key :: seen)]
      simp [filter_cons]

theorem select_append (front back : List TestCase) (seen : List Text) :
    select keeps (front ++ back) seen =
      ((select keeps front seen).1 ++ (select keeps back (select keeps front seen).2).1,
        (select keeps back (select keeps front seen).2).2) := by
  induction front generalizing seen with
  | nil => rfl
  | cons tc front ih =>
    rw [cons_append, select, select]
    split
    · exact ih seen
    · rw [ih (tc.key :: seen)]
      dsimp only
      split <;> rfl

variable (groups : List Group)

theorem selectGroups_eq :
    (selectGroups p keeps groups seen).flatMap Prod.snd =
      (select keeps (cases p groups) seen).1 := by
  induction groups generalizing seen with
  | nil => rfl
  | cons g groups ih =>
    have parts : cases p (g :: groups) = testCases p g.units ++ cases p groups := flatMap_cons
    rw [selectGroups, flatMap_cons, ih, parts, select_append]

theorem selected_filter :
    (selected p keeps).flatMap Prod.snd =
      ((selected p fun _ => true).flatMap Prod.snd).filter keeps := by
  rw [selected, selected, selectGroups_eq, selectGroups_eq, select_filter]

variable {tc : TestCase}

theorem mem_select {tests} {seen : List Text} :
    tc ∈ (select (fun _ => true) tests seen).1 ↔
      tc.key ∉ seen ∧ tests.find? (·.key = tc.key) = some tc := by
  induction tests generalizing seen with
  | nil => simp [select]
  | cons first rest ih =>
    rw [select]
    split
    next known =>
      rw [ih]
      refine and_congr_right fun fresh => ?_
      have differs : first.key ≠ tc.key := fun same => fresh (same ▸ known)
      rw [find?_cons_of_neg (by simpa using differs)]
    next fresh =>
      dsimp only
      rw [if_pos rfl, mem_cons, ih]
      by_cases same : first.key = tc.key
      · rw [find?_cons_of_pos (by simpa using same)]
        simp [← same, fresh, eq_comm]
      · have other : tc ≠ first := fun eq => same (eq ▸ rfl)
        rw [find?_cons_of_neg (by simpa using same), mem_cons]
        simp [other, Ne.symm same]

theorem select_keys :
    ((select (fun _ => true) tests seen).1.map TestCase.key).Nodup := by
  induction tests generalizing seen with
  | nil => exact nodup_nil
  | cons first rest ih =>
    rw [select]
    split
    · exact ih seen
    · dsimp only
      rw [if_pos rfl, map_cons, nodup_cons]
      refine ⟨fun again => ?_, ih _⟩
      obtain ⟨tc, selected, same⟩ := List.mem_map.1 again
      exact (mem_select.1 selected).1 (same ▸ (.head _))

end Selection

section Loading
variable {p : Project}

theorem mapM_graphs (files : List Text) :
    files.mapM (fun file => (p.pipeline file).map (Group.mk file)) =
      if ∀ file ∈ files, (p.pipeline file).isSome = true then
        some (files.map fun file => ⟨file, (p.pipeline file).getD []⟩)
      else none := by
  induction files with
  | nil => rfl
  | cons file files ih =>
    rw [mapM_cons, ih]
    cases loads : p.pipeline file with
    | none => simp [loads]
    | some units =>
      simp only [forall_mem_cons, loads, isSome_some, true_and, map_cons, getD_some]
      split <;> rfl

theorem discover_eq : discover p = if Accepted p then
    some ((inputs p).map fun file => ⟨file, (p.pipeline file).getD []⟩) else none := by
  rw [discover]
  cases loads : p.pipeline p.inputFile with
  | none => exact (if_neg fun accepted => by simpa [loads] using accepted _ (.head _)).symm
  | some units =>
    simp only [Option.bind_some, mapM_graphs, Accepted, inputs, forall_mem_cons, loads,
      isSome_some, true_and, map_cons, getD_some]
    split <;> rfl

theorem selected_unaccepted (keeps : TestCase → Bool) (rejected : ¬Accepted p) :
    selected p keeps = [] := by
  rw [selected, discover_eq, if_neg rejected]
  rfl

variable (accepted : Accepted p)
include accepted

theorem selected_accepted (keeps : TestCase → Bool) : (selected p keeps).flatMap Prod.snd =
    (select keeps ((loaded p).flatMap (unitCases p)) []).1 := by
  rw [selected, discover_eq, if_pos accepted, getD_some, selectGroups_eq, cases, loaded]
  simp only [testCases, flatMap_map, flatMap_assoc]

omit accepted in
theorem key_injective {m m' n n' : Text} (plain : ':' ∉ n) (plain' : ':' ∉ n')
    (same : m ++ ':' :: ':' :: n = m' ++ ':' :: ':' :: n') : m = m' ∧ n = n' := by
  have behind {m n : Text} (plain : ':' ∉ n) :
      (m ++ ':' :: ':' :: n).reverse.takeWhile (· ≠ ':') = n.reverse := by
    have pass : ∀ c ∈ n.reverse, decide (c ≠ ':') = true := fun c member =>
      decide_eq_true fun colon => plain (colon ▸ mem_reverse.1 member)
    simp only [reverse_append, reverse_cons, append_assoc]
    rw [takeWhile_append_of_pos pass]
    simp
  have names : n = n' := reverse_injective (by rw [← behind (m := m) plain, same, behind plain'])
  subst names
  exact ⟨append_cancel_right same, rfl⟩

omit accepted in
theorem find?_unitCases (unit : SourceUnit) (tc : TestCase) :
    (unitCases p unit).find? (·.key = tc.key) = some tc ↔ tc ∈ unitCases p unit := by
  refine ⟨mem_of_find?_eq_some, fun listed => ?_⟩
  cases found : (unitCases p unit).find? (·.key = tc.key) with
  | none => simpa using find?_eq_none.1 found tc listed
  | some other =>
    have same : other.key = tc.key := by simpa using find?_some found
    obtain ⟨⟨name, display⟩, tested, rfl⟩ := List.mem_map.1 listed
    obtain ⟨⟨name', display'⟩, tested', rfl⟩ := List.mem_map.1 (mem_of_find?_eq_some found)
    obtain ⟨-, rfl⟩ := key_injective (p.identifiers _ _ tested') (p.identifiers _ _ tested) same
    obtain ⟨-, rfl⟩ := Prod.mk.inj
      (inj_on_of_nodup_map (p.distinct unit.filePath) tested tested' rfl)
    rfl

/-- The tests that are selected are the first ones of their name under their module path. -/
theorem first_iff {f : Func} {modulePath : Text} : First p f modulePath ↔
    ∃ tc ∈ (selected p fun _ => true).flatMap Prod.snd, tc.func = f ∧
      tc.modulePath = modulePath := by
  have listed (tc : TestCase) : tc ∈ (selected p fun _ => true).flatMap Prod.snd ↔
      ∃ front unit back, loaded p = front ++ unit :: back ∧ tc ∈ unitCases p unit ∧
        ∀ earlier ∈ front, ∀ other ∈ unitCases p earlier, other.key ≠ tc.key := by
    rw [selected_accepted accepted, mem_select, and_iff_right not_mem_nil, find?_flatMap,
      findSome?_eq_some_iff]
    simp only [find?_unitCases, find?_eq_none, decide_eq_true_eq]
  simp only [listed]
  constructor
  · rintro ⟨front, back, split, tested, fresh⟩
    obtain ⟨⟨name, display⟩, tested, same⟩ := List.mem_map.1 tested
    refine ⟨⟨f.file, modulePath, name, display⟩, ⟨front, _, back, split,
      List.mem_map.2 ⟨_, tested, rfl⟩, ?_⟩, congrArg (Func.mk f.file) same, rfl⟩
    intro earlier before other listed same'
    obtain ⟨⟨name', display'⟩, tested', rfl⟩ := List.mem_map.1 listed
    obtain ⟨path, rfl⟩ :=
      key_injective (p.identifiers _ _ tested') (p.identifiers _ _ tested) same'
    exact fresh earlier before path (List.mem_map.2 ⟨_, tested', same⟩)
  · rintro ⟨tc, ⟨front, unit, back, split, listed, fresh⟩, rfl, rfl⟩
    obtain ⟨⟨name, display⟩, tested, rfl⟩ := List.mem_map.1 listed
    refine ⟨front, back, split, List.mem_map_of_mem tested, fun earlier before path again => ?_⟩
    obtain ⟨⟨name', display'⟩, tested', same⟩ := List.mem_map.1 again
    obtain rfl : name' = name := same
    exact fresh earlier before ⟨earlier.filePath, earlier.modulePath, name', display'⟩
      (List.mem_map.2 ⟨_, tested', rfl⟩) (congrArg (· ++ ':' :: ':' :: name') path)

theorem once_iff {f : Func} :
    Once f ((selected p fun _ => true).flatMap Prod.snd) ↔ ∃! modulePath, First p f modulePath := by
  have keys : (((selected p fun _ => true).flatMap Prod.snd).map TestCase.key).Nodup := by
    rw [selected_accepted accepted]
    exact select_keys _ _
  have listed (tc : TestCase) : tc ∈ ((selected p fun _ => true).flatMap Prod.snd).filter
      (·.func = f) ↔ tc ∈ (selected p fun _ => true).flatMap Prod.snd ∧ tc.func = f := by simp
  rw [Once, length_eq_one_iff]
  constructor
  · rintro ⟨tc, alone⟩
    obtain ⟨here, function⟩ := (listed tc).1 (alone ▸ mem_singleton_self tc)
    refine ⟨tc.modulePath, (first_iff accepted).2 ⟨tc, here, function, rfl⟩, fun path first => ?_⟩
    obtain ⟨tc', here', function', rfl⟩ := (first_iff accepted).1 first
    have same := (listed tc').2 ⟨here', function'⟩
    rw [alone, mem_singleton] at same
    rw [same]
  · rintro ⟨path, first, alone⟩
    obtain ⟨tc, here, function, rfl⟩ := (first_iff accepted).1 first
    refine ⟨tc, perm_singleton.1 ?_⟩
    have distinct := (List.Nodup.of_map TestCase.key keys).filter (·.func = f)
    refine (perm_ext_iff_of_nodup distinct (nodup_singleton tc)).2 fun tc' => ?_
    rw [listed, mem_singleton]
    constructor
    · rintro ⟨here', function'⟩
      have path := alone tc'.modulePath ((first_iff accepted).2 ⟨tc', here', function', rfl⟩)
      have name : tc'.funcName = tc.funcName := congrArg Func.name (function'.trans function.symm)
      exact inj_on_of_nodup_map keys here' here (by rw [TestCase.key, TestCase.key, path, name])
    · rintro rfl
      exact ⟨here, function⟩

end Loading

section Reaching
variable {p : Project}

theorem First.loaded {f : Func} {modulePath : Text} (first : First p f modulePath) :
    f.file ∈ (loaded p).map SourceUnit.filePath := by
  obtain ⟨front, back, split, -⟩ := first
  rw [split]
  exact List.mem_map.2 ⟨_, mem_append_right _ (.head _), rfl⟩

theorem isConventionalTestFile_iff (name : Text) :
    isConventionalTestFile name = true ↔ underTest <:+ name := by
  have dotted : (if 9 ≤ name.length then name.drop (name.length - 9) else []) ≠ dotTest := by
    intro same
    have lengths := congrArg List.length same
    split at lengths
    · rw [length_drop, show dotTest.length = 8 from rfl] at lengths
      omega
    · cases lengths
  simp only [isConventionalTestFile, dotted, decide_false, Bool.false_or, decide_eq_true_eq]
  rw [suffix_iff_eq_drop, show underTest.length = 8 from rfl]
  split
  · exact eq_comm
  next short =>
    refine iff_of_false nofun fun same => ?_
    have lengths := congrArg List.length same
    rw [length_drop, show underTest.length = 8 from rfl] at lengths
    omega

theorem lists_cons {named} {dir dirName path : Text} {entry : Node}
    {entries : List Node} : Lists named dir dirName (entry :: entries) path ↔
      Lists named dir dirName [entry] path ∨ Lists named dir dirName entries path := by
  constructor
  · rintro (⟨there, said, ruled⟩ | ⟨there, scanned, inside⟩)
    · obtain rfl | later := mem_cons.1 there
      · exact .inl (.here (.head _) said ruled)
      · exact .inr (.here later said ruled)
    · obtain rfl | later := mem_cons.1 there
      · exact .inl (.within (.head _) scanned inside)
      · exact .inr (.within later scanned inside)
  · have more {few : List Node} (sub : few ⊆ entry :: entries)
        (lists : Lists named dir dirName few path) :
        Lists named dir dirName (entry :: entries) path := by
      obtain ⟨there, said, ruled⟩ | ⟨there, scanned, inside⟩ := lists
      · exact .here (sub there) said ruled
      · exact .within (sub there) scanned inside
    rintro (first | later)
    · exact more (by simp) first
    · exact more (subset_cons_self _ _) later

mutual

theorem mem_walkEntry {dir dirName path : Text} (entry : Node) :
    path ∈ walkEntry dir dirName entry ↔ Lists (underTest <:+ ·) dir dirName [entry] path := by
  match entry with
  | .dir name inner =>
    have below : Lists (underTest <:+ ·) dir dirName [.dir name inner] path ↔
        isExcludedScanDir name = false ∧
          Lists (underTest <:+ ·) (joined dir name) name inner path := by
      constructor
      · rintro (⟨there, -, -⟩ | ⟨there, scanned, inside⟩)
        · simp at there
        · obtain ⟨rfl, rfl⟩ := by simpa using there
          exact ⟨scanned, inside⟩
      · rintro ⟨scanned, inside⟩
        exact .within (.head _) scanned inside
    rw [walkEntry, below]
    cases isExcludedScanDir name with
    | true => simp
    | false => simp [mem_walkTestCandidates inner]
  | .file name lines =>
    simp only [walkEntry, mem_ite_nil_right, mem_singleton, Bool.and_eq_true,
      Bool.or_eq_true, isConventionalTestFile_iff]
    constructor
    · rintro ⟨⟨ruled, said⟩, rfl⟩
      exact .here (.head _) said ruled
    · rintro (⟨there, said, ruled⟩ | ⟨there, -, -⟩)
      · obtain ⟨rfl, rfl⟩ := by simpa using there
        exact ⟨⟨ruled, said⟩, rfl⟩
      · simp at there

theorem mem_walkTestCandidates {dir dirName path : Text} (entries : List Node) :
    path ∈ walkTestCandidates dir dirName entries ↔
      Lists (underTest <:+ ·) dir dirName entries path := by
  match entries with
  | [] =>
    refine iff_of_false (by simp [walkTestCandidates]) ?_
    rintro (⟨there, -, -⟩ | ⟨there, -, -⟩) <;> cases there
  | entry :: entries =>
    rw [walkTestCandidates, mem_append, mem_walkEntry entry, mem_walkTestCandidates entries]
    exact lists_cons.symm

end

variable {entries : List Node}

theorem lists_or {named named'} {dir dirName path : Text}
    (lists : Lists (fun name => named name ∨ named' name) dir dirName entries path) :
    Lists named dir dirName entries path ∨ Lists named' dir dirName entries path := by
  induction lists with
  | here there said ruled =>
    rcases ruled with dir | first | second
    · exact .inl (.here there said (.inl dir))
    · exact .inl (.here there said (.inr first))
    · exact .inr (.here there said (.inr second))
  | within there scanned _ ih => exact ih.imp (.within there scanned) (.within there scanned)

theorem lists_mono {named named'} (weaker : ∀ name, named name → named' name)
    {dir dirName path : Text}
    (lists : Lists named dir dirName entries path) : Lists named' dir dirName entries path := by
  induction lists with
  | here there said ruled => exact .here there said (ruled.imp_right (weaker _))
  | within there scanned _ ih => exact .within there scanned ih

theorem input_loaded {file : Text} (input : file ∈ inputs p)
    {unit : SourceUnit} (there : unit ∈ (p.pipeline file).getD []) :
    unit.filePath ∈ (loaded p).map SourceUnit.filePath :=
  List.mem_map_of_mem (mem_flatMap.2 ⟨file, input, there⟩)

theorem candidate_loaded (accepted : Accepted p) {file : Text}
    (candidate : Candidate p (underTest <:+ ·) file) :
    file ∈ (loaded p).map SourceUnit.filePath := by
  by_cases graphed : file ∈ ((p.pipeline p.inputFile).getD []).map SourceUnit.filePath
  · obtain ⟨unit, there, rfl⟩ := List.mem_map.1 graphed
    exact input_loaded (.head _) there
  · have walked : file ∈ candidates p :=
      mem_mergeSort.2 ((mem_walkTestCandidates p.entries).2 candidate)
    have input : file ∈ inputs p := .tail _ (mem_filter.2 ⟨walked, decide_eq_true graphed⟩)
    obtain ⟨units, loads⟩ := Option.isSome_iff_exists.1 (accepted file input)
    obtain ⟨behind, -, rfl⟩ := map_eq_some_iff.1 loads
    exact input_loaded input (by rw [loads]; exact .head _)

theorem lies_loaded (regular : Regular p) {f : Func} (lies : Lies p f) :
    f.file ∈ (loaded p).map SourceUnit.filePath := by
  have accepted := regular.accepted f lies
  obtain ⟨tested, ⟨units, loads, graphed⟩ | candidate⟩ := lies
  · obtain ⟨unit, there, same⟩ := List.mem_map.1 graphed
    exact same ▸ input_loaded (.head _) (by rwa [loads])
  · rcases lists_or candidate with dotted | under
    · exact regular.dotted f.file dotted (by rintro none; simp [none] at tested)
    · exact candidate_loaded accepted under

end Reaching

section Exit
variable {p : Project} (outcome : Group → List TestCase → Ending)

theorem runGroups_code (selected : List (Group × List TestCase)) (worst : Nat) :
    (runGroups outcome selected worst).1 ≠ 0 ↔ worst ≠ 0 ∨
      ∃ g ∈ selected, g.2 ≠ [] ∧ (outcome g.1 g.2).Fails := by
  induction selected generalizing worst with
  | nil => simp [runGroups]
  | cons first selected ih =>
    obtain ⟨g, tests⟩ := first
    rw [runGroups, exists_mem_cons_iff]
    split
    next empty => simp only [ih, empty, ne_eq, not_true_eq_false, false_and, false_or]
    next some =>
      cases ended : outcome g tests with
      | unbuilt | lost => simp [some, Ending.Fails]
      | ended status =>
        have own : (Ending.ended status).Fails ↔ status.code ≠ 0 := by simp [Ending.Fails]
        dsimp only
        rw [ih, own]
        by_cases failed : status.code = 0 <;> simp [some, failed]

theorem unbroken_of_empty : ∀ {groups : List (Group × List TestCase)},
    groups.flatMap Prod.snd = [] → Unbroken outcome groups
  | [], _ => trivial
  | _ :: _, empty =>
    have parts := append_eq_nil_iff.1 empty
    ⟨fun some => absurd parts.1 some, unbroken_of_empty parts.2⟩

theorem runGroups_tests (groups : List (Group × List TestCase)) (worst : Nat) :
    (runGroups outcome groups worst).2 = groups.flatMap Prod.snd ↔ Unbroken outcome groups := by
  induction groups generalizing worst with
  | nil => exact iff_of_true rfl trivial
  | cons first groups ih =>
    obtain ⟨g, tests⟩ := first
    rw [runGroups, Unbroken, flatMap_cons]
    split
    next empty => simp [ih, empty]
    next some =>
      cases ended : outcome g tests with
      | unbuilt => simp [some]
      | lost =>
        simp only [some, ne_eq, not_false_eq_true, true_imp_iff, reduceCtorEq, true_and,
          self_eq_append_right]
        exact (and_iff_left_of_imp fun empty => unbroken_of_empty outcome empty).symm
      | ended status => simp [ih]

theorem run_eq (filters : Filters) : run p outcome filters =
    if discover p = none then (1, []) else runGroups outcome (selected p filters.keeps) 0 := by
  have nothing : ∀ {groups : List (Group × List TestCase)}, groups.flatMap Prod.snd = [] →
      runGroups outcome groups 0 = (0, []) := by
    intro groups empty
    induction groups with
    | nil => rfl
    | cons first groups ih =>
      have parts := append_eq_nil_iff.1 empty
      rw [runGroups, if_pos parts.1, ih parts.2]
  rw [run, selected]
  cases discover p with
  | none => rfl
  | some groups =>
    dsimp only [getD_some]
    rw [if_neg (some_ne_none groups)]
    split
    next empty => exact (nothing empty).symm
    next => rfl

theorem run_code (filters : Filters) : (run p outcome filters).1 ≠ 0 ↔ discover p = none ∨
    ∃ g ∈ selected p filters.keeps, g.2 ≠ [] ∧ (outcome g.1 g.2).Fails := by
  rw [run_eq]
  split
  next rejected => simp [rejected]
  next accepted => rw [runGroups_code, or_iff_right accepted, or_iff_right (by simp)]

theorem run_tests (filters : Filters) : (run p outcome filters).2 =
    ((selected p fun _ => true).flatMap Prod.snd).filter filters.keeps ↔
      Unbroken outcome (selected p filters.keeps) := by
  rw [← selected_filter, run_eq]
  split
  next rejected => simp [selected, rejected, selectGroups, Unbroken]
  next => exact runGroups_tests outcome _ 0

end Exit

/-- The discovery is complete and exact just when the project is regular and, whatever the
filters, every group with tests is started. -/
theorem discovery_exact_iff (p : Project) (outcome : Group → List TestCase → Ending) :
    Exact p outcome ↔
      Regular p ∧ ∀ filters : Filters, Unbroken outcome (selected p filters.keeps) := by
  constructor
  · intro exact
    -- nothing is selected of a project that is not accepted
    have accepted (f : Func) (lies : Lies p f) : Accepted p := by
      by_contra rejected
      have once := exact.once f lies
      rw [selected_unaccepted _ rejected] at once
      cases once
    refine ⟨⟨accepted, fun file dotted tested => ?_, fun f lies _ => ?_,
      fun accepted f path first => ?_⟩, fun filters => (run_tests outcome filters).1
        (exact.runs filters)⟩
    · obtain ⟨⟨name, display⟩, listed⟩ := exists_mem_of_ne_nil _ tested
      have lies : Lies p ⟨file, name⟩ :=
        ⟨List.mem_map_of_mem listed, .inr (lists_mono (fun _ => .inl) dotted)⟩
      obtain ⟨path, first, -⟩ := (once_iff (accepted _ lies)).1 (exact.once _ lies)
      exact first.loaded
    · exact (once_iff (accepted f lies)).1 (exact.once f lies)
    · obtain ⟨tc, listed, rfl, -⟩ := (first_iff accepted).1 first
      exact exact.only tc listed
  · rintro ⟨regular, unbroken⟩
    refine ⟨fun f lies => ?_, fun tc listed => ?_,
      fun filters => (run_tests outcome filters).2 (unbroken filters), run_code outcome⟩
    · exact (once_iff (regular.accepted f lies)).2 (regular.once f lies (lies_loaded regular lies))
    · by_cases accepted : Accepted p
      · exact regular.only accepted tc.func tc.modulePath
          ((first_iff accepted).2 ⟨tc, listed, rfl, rfl⟩)
      · rw [selected_unaccepted _ accepted] at listed
        cases listed

/-- An entry without tests, and `a.test.lc` beside it. -/
def dottedProject : Project where
  rootName := ['p']
  entries := [.file ('a' :: dotTest) [['#', '[', 't', 'e', 's', 't', ']']]]
  inputFile := ['p', '/', 'm', '.', 'l', 'c']
  getProjectRoot _ := ['p']
  imports _ := some []
  tests file := if file = joined ['p'] ('a' :: dotTest) then [(['t'], [])] else []
  identifiers file test tested := by
    split at tested
    · obtain rfl := mem_singleton.1 tested
      decide
    · cases tested
  distinct file := by split <;> decide

/-- The function of `a.test.lc` is not found. -/
theorem dotted_not_found :
    ¬Exact dottedProject fun _ _ => .ended (.exited 0) := by
  intro exact
  have none : candidates dottedProject = [] := by
    rw [candidates, show walkTestCandidates _ _ dottedProject.entries = [] by decide]
    exact mergeSort_nil
  have lies : Lies dottedProject ⟨joined ['p'] ('a' :: dotTest), ['t']⟩ :=
    ⟨by decide, .inr (.here mem_cons_self (by decide) (.inr (.inl (suffix_cons _ _))))⟩
  have once := exact.once _ lies
  rw [selected, discover, none] at once
  exact absurd once (by decide)

end Lucis.TestDiscovery
