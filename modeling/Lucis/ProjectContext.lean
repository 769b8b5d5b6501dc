import Lucis.ImportTraversal

/-!
The project as the editor sees it, lsp/ProjectContext.cpp: the same search for imports,
written a second time, and a scan of the source directories for the files that are left.
A `use` declaration leads to the file of its module path only. Source positions of the
errors are left out.
-/

namespace Lucis.ProjectContext
open ModuleRegistry (Text usePathToModulePath)
open ImportTraversal List

local instance chars_lawful : LawfulBEq Text := inferInstance

structure Workspace where
  project : Project
  context : Settings
  /-- The regular files with extension `.lc` below the directory that the parts name when
  joined, by their canonical paths. -/
  listing : List Text → List File

structure ImportError where
  message : Text
  filePath : File

structure State where
  queue : List (File × Text × List Text)
  visited : List File
  units : List (File × Text)
  importErrors : List ImportError

/-- `usePath += (usePath.empty() ? "" : "::") + id->getText()` for each identifier. -/
def joinUsePath (modulePath : ModulePath) : Text :=
  (modulePath.first :: modulePath.rest).foldl
    (fun usePath id => usePath ++ ((if usePath = [] then [] else scope) ++ id.text)) []

/-- The path that `enqueueUse` looks up. -/
def usePathOf : UseDecl → Option Text
  | .useRoot name => some name.text
  | .useItem modulePath _ => some (joinUsePath modulePath)
  | .useGroup modulePath _ _ => some (joinUsePath modulePath)
  | .useEnumWildcard => none

namespace Workspace

def resolve (w : Workspace) (usePath : Text) : Option File :=
  resolveUseToFile w.project.disk w.context usePath

def entryModPath (w : Workspace) : Text :=
  replaceExtension (w.project.disk.relative w.project.inputFile w.context.projectRoot)

def scanDirs (w : Workspace) : List (List Text) :=
  [w.context.projectRoot] :: w.context.sourcePaths.map fun sp => [w.context.projectRoot, sp]

end Workspace

def enqueueUse (w : Workspace) (curPath : File) (importChain : List Text) (s : State)
    (use : UseDecl) : State :=
  match usePathOf use with
  | none => s
  | some usePath =>
    match w.resolve usePath with
    | none => s
    | some modFile =>
      let logicalPath := usePathToModulePath usePath
      if logicalPath ∈ importChain then
        { s with
          importErrors :=
            s.importErrors ++ [⟨circularMessage importChain logicalPath, curPath⟩] }
      else if modFile ∈ s.visited then s
      else
        { s with
          visited := modFile :: s.visited
          queue := s.queue ++ [(modFile, logicalPath, importChain ++ [logicalPath])] }

/-- One turn of the loop `while (!queue.empty())`. -/
def turn (w : Workspace) (s : State) : State :=
  match s.queue with
  | [] => s
  | (curPath, modPath, importChain) :: queue =>
    match (w.project.disk.parse curPath).tree with
    | none => { s with queue := queue }
    | some tree =>
      (tree.preambleDecl ++ tree.topLevelDecl).foldl (enqueueUse w curPath importChain)
        { s with queue := queue, units := s.units ++ [(curPath, modPath)] }

def loop (w : Workspace) : Nat → State → State
  | 0, s => s
  | turns + 1, s => loop w turns (turn w s)

def start (w : Workspace) : State :=
  { queue := [(w.project.inputFile, w.entryModPath, [w.entryModPath])]
    visited := [w.project.inputFile]
    units := []
    importErrors := [] }

def scanFile (w : Workspace) (s : State) (canon : File) : State :=
  if canon ∈ s.visited then s
  else
    match (w.project.disk.parse canon).tree with
    | none => s
    | some _ =>
      { s with
        visited := canon :: s.visited
        units := s.units ++
          [(canon, filePathToModulePath (w.project.disk.relative canon w.context.projectRoot))] }

def scan (w : Workspace) (s : State) : State :=
  (w.scanDirs.flatMap w.listing).foldl (scanFile w) s

/-- `buildImpl` ends with this context. -/
def Built (w : Workspace) (s : State) : Prop :=
  ∃ turns, (loop w turns (start w)).queue = [] ∧ s = scan w (loop w turns (start w))

/-- What the compiler loads the editor loads under the same module path, and both report
a circular import or neither. -/
def SeesSame (w : Workspace) : Prop :=
  ∃ compiled edited, Ends w.project compiled ∧ Built w edited ∧
    (∀ file path, (file, path) ∈ compiled.units → (file, path) ∈ edited.units) ∧
    (compiled.anyCircularImport = true ↔ edited.importErrors ≠ [])

section Simulation
variable {w : Workspace}

def editorUses (tree : Program) : List Text :=
  (tree.preambleDecl ++ tree.topLevelDecl).filterMap usePathOf

def hasTree (w : Workspace) (file : File) : Bool := (w.project.disk.parse file).tree.isSome

def uses (w : Workspace) (file : File) : List Text :=
  match (w.project.disk.parse file).tree with
  | none => []
  | some tree => editorUses tree

theorem joinUsePath_eq (modulePath : ModulePath) :
    joinUsePath modulePath = joinScope modulePath := by
  rw [joinUsePath, joinScope]
  congr 1
  funext usePath id
  split <;> simp_all

variable {usePath : Text}

theorem use_spelled {decl : UseDecl} (leads : usePathOf decl = some usePath) :
    ∃ first rest, usePath = spell first rest := by
  cases decl with
  | useRoot name =>
    rw [usePathOf, Option.some.injEq] at leads
    exact ⟨name, [], by rw [← leads, spell]; simp⟩
  | useItem modulePath name =>
    rw [usePathOf, Option.some.injEq, joinUsePath_eq, joinScope_eq] at leads
    exact ⟨_, _, leads.symm⟩
  | useGroup modulePath name names =>
    rw [usePathOf, Option.some.injEq, joinUsePath_eq, joinScope_eq] at leads
    exact ⟨_, _, leads.symm⟩
  | useEnumWildcard => cases leads

theorem uses_spelled {file : File} (member : usePath ∈ uses w file) :
    ∃ first rest, usePath = spell first rest := by
  rw [uses] at member
  split at member
  · cases member
  · rw [editorUses, mem_filterMap] at member
    rcases member with ⟨decl, _, leads⟩
    exact use_spelled leads

def editorGraph (w : Workspace) : ChainGraph Text Text File where
  uses := uses w
  resolve := w.resolve
  key := usePathToModulePath
  entry := w.project.inputFile
  entryKey := w.entryModPath
  faithful := by
    intro file file' usePath usePath' member member' same
    rcases uses_spelled member with ⟨first, rest, rfl⟩
    rcases uses_spelled member' with ⟨first', rest', rfl⟩
    rw [Workspace.resolve, Workspace.resolve, resolve_spelled, resolve_spelled, same]

structure Tracks (w : Workspace) (s : State) (t : ChainGraph.Frontier Text File) : Prop where
  queue : s.queue = t.queue
  visited : s.visited = t.visited
  units : s.units = t.done.filter fun entry => hasTree w entry.1
  circular : s.importErrors ≠ [] ↔ t.closed = true

variable {t : ChainGraph.Frontier Text File} {s : State}

theorem tracks_use (tracks : Tracks w s t)
    (curPath : File) (importChain : List Text) {decl : UseDecl}
    (leads : usePathOf decl = some usePath) : Tracks w (enqueueUse w curPath importChain s decl)
      ((editorGraph w).visit importChain t usePath) := by
  have same : (editorGraph w).resolve usePath = w.resolve usePath := rfl
  have key : (editorGraph w).key usePath = usePathToModulePath usePath := rfl
  rw [enqueueUse, ChainGraph.visit, same, key, ← tracks.visited]
  simp only [leads]
  cases w.resolve usePath with
  | none => exact tracks
  | some modFile =>
    by_cases closes : usePathToModulePath usePath ∈ importChain
    · simp only [if_pos closes]
      exact ⟨tracks.queue, rfl, tracks.units, by simp⟩
    · by_cases known : modFile ∈ s.visited
      · simp only [if_neg closes, if_pos known]
        exact tracks
      · simp only [if_neg closes, if_neg known]
        exact ⟨by rw [tracks.queue], rfl, tracks.units, tracks.circular⟩

theorem tracks_uses (tracks : Tracks w s t)
    (curPath : File) (importChain : List Text) (decls : List UseDecl) :
    Tracks w (decls.foldl (enqueueUse w curPath importChain) s)
      ((decls.filterMap usePathOf).foldl ((editorGraph w).visit importChain) t) := by
  induction decls generalizing s t with
  | nil => exact tracks
  | cons decl rest ih =>
    cases leads : usePathOf decl with
    | none =>
      have same : enqueueUse w curPath importChain s decl = s := by rw [enqueueUse, leads]
      rw [foldl_cons, same, filterMap_cons_none leads]
      exact ih tracks
    | some usePath =>
      rw [foldl_cons, filterMap_cons_some leads, foldl_cons]
      exact ih (tracks_use tracks curPath importChain leads)

theorem tracks_turn (tracks : Tracks w s t) : Tracks w (turn w s) ((editorGraph w).turn t) := by
  rw [turn, ChainGraph.turn, ← tracks.queue]
  rcases s.queue with - | ⟨⟨curPath, modPath, importChain⟩, queue⟩
  · exact tracks
  · have all : (editorGraph w).uses curPath = uses w curPath := rfl
    simp only [all, uses]
    cases tree : (w.project.disk.parse curPath).tree with
    | none =>
      have skipped : hasTree w curPath = false := by rw [hasTree, tree]; rfl
      exact ⟨rfl, tracks.visited, by simp [tracks.units, skipped], tracks.circular⟩
    | some tree' =>
      have loaded : hasTree w curPath = true := by rw [hasTree, tree]; rfl
      apply tracks_uses
      exact ⟨rfl, tracks.visited, by simp [tracks.units, loaded], tracks.circular⟩

theorem tracks_run (w : Workspace) (turns : Nat) :
    Tracks w (loop w turns (start w)) ((editorGraph w).loop turns (editorGraph w).start) := by
  have goes_on (turns : Nat) {s : State} {t : ChainGraph.Frontier Text File}
      (tracks : Tracks w s t) : Tracks w (loop w turns s) ((editorGraph w).loop turns t) := by
    induction turns generalizing s t with
    | zero => exact tracks
    | succ _ ih => exact ih (tracks_turn tracks)
  exact goes_on turns ⟨rfl, rfl, rfl, by simp [start, ChainGraph.start]⟩

/-- The module path the directory scan gives a file: its place below the project root. -/
def placePath (w : Workspace) (file : File) : Text :=
  filePathToModulePath (w.project.disk.relative file w.context.projectRoot)

theorem scan_step (s : State) (canon : File) : (scanFile w s canon).importErrors = s.importErrors ∧
      (scanFile w s canon).visited =
        (if canon ∉ s.visited ∧ hasTree w canon = true then [canon] else []) ++ s.visited ∧
      (scanFile w s canon).units = s.units ++
        if canon ∉ s.visited ∧ hasTree w canon = true then [(canon, placePath w canon)]
        else [] := by
  rw [scanFile]
  by_cases known : canon ∈ s.visited
  · simp [known]
  · cases tree : (w.project.disk.parse canon).tree with
    | none => simp [known, hasTree, tree]
    | some tree' => simp [known, hasTree, tree, placePath]

theorem scan_units (files : List File) (s : State) (file : File) (path : Text) :
    (file, path) ∈ (files.foldl (scanFile w) s).units ↔ (file, path) ∈ s.units ∨
        (file ∉ s.visited ∧ file ∈ files ∧ hasTree w file = true ∧ path = placePath w file) := by
  induction files generalizing s with
  | nil => simp
  | cons canon files ih =>
    have ⟨_, visited, units⟩ := scan_step (w := w) s canon
    rw [foldl_cons, ih, units, visited]
    by_cases fresh : canon ∉ s.visited ∧ hasTree w canon = true
    · rw [if_pos fresh, if_pos fresh]
      by_cases same : file = canon
      · subst same
        simp [fresh.1, fresh.2]
      · simp [same]
    · rw [if_neg fresh, if_neg fresh]
      by_cases same : file = canon
      · subst same
        rw [not_and, Bool.not_eq_true] at fresh
        by_cases known : file ∈ s.visited
        · simp [known]
        · simp [fresh known]
      · simp [same]

theorem scan_errors (files : List File) (s : State) :
    (files.foldl (scanFile w) s).importErrors = s.importErrors := by
  induction files generalizing s with
  | nil => rfl
  | cons canon files ih => rw [foldl_cons, ih, (scan_step s canon).1]

/-- The editor's name for a file: the module path by which its uses first reach it, or else
its place, if a directory scan comes to it. -/
def EditorNames (w : Workspace) (file : File) (path : Text) : Prop :=
  hasTree w file = true ∧
    ((editorGraph w).Reached file path ∨
      (∀ walk, (editorGraph w).destination walk ≠ some file) ∧
        file ∈ w.scanDirs.flatMap w.listing ∧ path = placePath w file)

theorem built_facts (built : Built w s) :
    (∀ file path, (file, path) ∈ s.units ↔ EditorNames w file path) ∧
      (s.importErrors ≠ [] ↔ (editorGraph w).ClosesFirstChain) := by
  rcases built with ⟨turns, empty, rfl⟩
  have tracks := tracks_run w turns
  rw [tracks.queue] at empty
  have finished := ChainGraph.ends_finished turns empty
  constructor
  · intro file path
    have unreached : file ∉ (loop w turns (start w)).visited ↔
        ∀ walk, (editorGraph w).destination walk ≠ some file := by
      rw [tracks.visited, finished.visited, finished.reached, not_exists]
    rw [scan, scan_units, unreached, tracks.units, mem_filter, finished.done, EditorNames]
    constructor
    · rintro (⟨reached, tree⟩ | ⟨fresh, listed, tree, place⟩)
      · exact ⟨tree, .inl reached⟩
      · exact ⟨tree, .inr ⟨fresh, listed, place⟩⟩
    · rintro ⟨tree, reached | ⟨fresh, listed, place⟩⟩
      · exact .inl ⟨reached, tree⟩
      · exact .inr ⟨fresh, listed, tree, place⟩
  · rw [scan, scan_errors, tracks.circular, finished.closed]

theorem context_built (w : Workspace) : ∃ s, Built w s := by
  refine ⟨_, w.project.disk.files.length + 1, ?_, rfl⟩
  rw [(tracks_run w _).queue]
  refine ChainGraph.search_ends _ w.project.disk.files (fun usePath file resolved => ?_)
  simp only [editorGraph, Workspace.resolve, resolveUseToFile, findSome?_eq_some_iff] at resolved
  rcases resolved with ⟨_, base, _, _, found, _⟩
  exact w.project.disk.located _ _ found

end Simulation

/-- The two see the same just when the first chains of their graphs name each file that the
compiler loads alike, or its place does where the editor's graph stops short of it, and a
use closes a first chain in both graphs or in neither. -/
theorem sees_same_iff (w : Workspace) :
    SeesSame w ↔
      (∀ file path, loadable w.project file = true →
        (importGraph w.project).Reached file path → EditorNames w file path) ∧
      ((importGraph w.project).ClosesFirstChain ↔ (editorGraph w).ClosesFirstChain) := by
  constructor
  · rintro ⟨compiled, edited, ends, built, loads, reports⟩
    have finished := ends_finished ends
    have ⟨units, errors⟩ := built_facts built
    refine ⟨fun file path loaded reached => ?_, ?_⟩
    · have member := (finished.units file path).mpr ⟨loaded, reached⟩
      exact (units file path).mp (loads file path member)
    · exact finished.circular.symm.trans (reports.trans errors)
  · rintro ⟨names, closes⟩
    rcases context_built w with ⟨edited, built⟩
    have ends := traversal_ends w.project
    have finished := ends_finished ends
    have ⟨units, errors⟩ := built_facts built
    refine ⟨_, edited, ends, built, fun file path member => ?_,
      finished.circular.trans (closes.trans errors.symm)⟩
    have ⟨loaded, reached⟩ := (finished.units file path).mp member
    exact (units file path).mpr (names file path loaded reached)

/-- `use lib::io;` of a module below a source path. -/
def symbolUse : Workspace where
  project :=
    { disk :=
        { locate := fun parts =>
            if parts = ["/p".toList, "src".toList, "lib/io.lc".toList] then
              some "/p/src/lib/io.lc".toList
            else none
          files := ["/p/src/lib/io.lc".toList]
          located := by
            intro parts file found
            split at found
            · simp [Option.some.inj found.symm]
            · cases found
          relative := fun file _ => file.drop 3
          parse := fun file =>
            if file = "/p/src/main.lc".toList then
              ⟨some ⟨[.useItem ⟨⟨"lib".toList, by decide, by simp⟩, []⟩
                ⟨"io".toList, by decide, by simp⟩], []⟩, false⟩
            else ⟨some ⟨[], []⟩, false⟩ }
      settings := ⟨"/p".toList, ["src".toList], []⟩
      inputFile := "/p/src/main.lc".toList }
  context := ⟨"/p".toList, ["src".toList], []⟩
  listing := fun _ => ["/p/src/main.lc".toList, "/p/src/lib/io.lc".toList]

/-- The compiler loads the module as `lib/io`; the editor looks for a module `lib` only and
takes the file from the scan, as `src/lib/io`. -/
theorem symbol_named_by_place : ¬ ∀ w, SeesSame w := by
  intro all
  rcases all symbolUse with ⟨compiled, edited, ends, built, loads, _⟩
  have there : ("/p/src/lib/io.lc".toList, "lib/io".toList) ∈
      (ImportTraversal.loop symbolUse.project (symbolUse.project.disk.files.length + 1)
        (ImportTraversal.start symbolUse.project)).units := by decide
  have missing : ("/p/src/lib/io.lc".toList, "lib/io".toList) ∉
      (scan symbolUse (loop symbolUse 2 (start symbolUse))).units := by decide
  have other : Built symbolUse (scan symbolUse (loop symbolUse 2 (start symbolUse))) :=
    ⟨2, by decide, rfl⟩
  rw [(ends_finished (traversal_ends symbolUse.project)).units, ← (ends_finished ends).units]
    at there
  rw [(built_facts other).1, ← (built_facts built).1] at missing
  exact missing (loads _ _ there)

end Lucis.ProjectContext
