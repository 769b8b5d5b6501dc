import Lucis.ModuleRegistry
import Lucis.Library.ChainSearch

/-!
The import traversal of cli/LucisPipeline.cpp: a queue of files, each with the module
path it was imported by and the chain of module paths that led to it. A file is known
by its canonical path, which is also what the commands pass as entry; what the file
system and the parser answer for a path are functions of the project.
-/

namespace Lucis.ImportTraversal

open List
open ModuleRegistry (Text usePathToModulePath)

local instance text_lawful : LawfulBEq Text := inferInstance

abbrev File := Text

structure Ident where
  text : Text
  nonempty : text ≠ []
  plain : ∀ c ∈ text, c ≠ ':' ∧ c ≠ '/'

/-- `modulePath : IDENTIFIER (SCOPE IDENTIFIER)*` -/
structure ModulePath where
  first : Ident
  rest : List Ident

/-- The forms of `useDecl`. Aliases name what is imported, not where it is. -/
inductive UseDecl where
  | useRoot (name : Ident)
  | useItem (modulePath : ModulePath) (name : Ident)
  | useGroup (modulePath : ModulePath) (name : Ident) (names : List Ident)
  | useEnumWildcard

inductive Kind where
  | Module | Symbol | EnumWildcard
deriving DecidableEq

structure UseBinding where
  kind : Kind
  modulePath : Text
  exportedName : Text

def scope : Text := [':', ':']

/-- `if (!path.empty()) path += "::"; path += id->getText();` for each identifier. -/
def joinScope (modulePath : ModulePath) : Text :=
  (modulePath.first :: modulePath.rest).foldl
    (fun path id => (if path ≠ [] then path ++ scope else path) ++ id.text) []

def parseUseDecl : UseDecl → List UseBinding
  | .useRoot name => [⟨.Module, name.text, []⟩]
  | .useItem modulePath name => [⟨.Symbol, joinScope modulePath, name.text⟩]
  | .useGroup modulePath name names =>
    (name :: names).map fun id => ⟨.Symbol, joinScope modulePath, id.text⟩
  | .useEnumWildcard => [⟨.EnumWildcard, [], []⟩]

/-- The `use` declarations of a parsed file. -/
structure Program where
  preambleDecl : List UseDecl
  topLevelDecl : List UseDecl

def candidates (b : UseBinding) : List Text :=
  match b.kind with
  | .Module => [b.modulePath]
  | .Symbol => [b.modulePath, b.modulePath ++ scope ++ b.exportedName]
  | .EnumWildcard => []

def extractUseModulePaths (tree : Program) : List Text :=
  (tree.preambleDecl ++ tree.topLevelDecl).flatMap fun decl =>
    (parseUseDecl decl).flatMap candidates

/-- The loop of `resolveUseToFile` that writes `/` for two slashes. -/
def collapsePairs : Text → Text
  | '/' :: '/' :: rest => '/' :: collapsePairs rest
  | c :: rest => c :: collapsePairs rest
  | [] => []

def modPath (useIdent : Text) : Text :=
  collapsePairs (useIdent.map fun c => if c = ':' then '/' else c)

def extension : Text := ['.', 'l', 'c']

/-- `rel.replace_extension("")`: the last name loses what stands from its last dot on,
unless that dot is its first character. -/
def replaceExtension (rel : Text) : Text :=
  let name := (rel.reverse.takeWhile (· ≠ '/')).reverse
  let stem := (name.reverse.dropWhile (· ≠ '.')).reverse.dropLast
  if stem = [] then rel else rel.take (rel.length - name.length) ++ stem

/-- `filePathToModulePath`, of the file's path relative to the project root. -/
def filePathToModulePath (rel : Text) : Text :=
  (replaceExtension rel).map fun c => if c = '\\' then '/' else c

structure ParseResult where
  /-- There is a tree also where there are errors, unless the file cannot be opened. -/
  tree : Option Program
  hasErrors : Bool

structure Disk where
  /-- The canonical path of what the parts name when joined, if it exists. -/
  locate : List Text → Option File
  files : List File
  located : ∀ parts file, locate parts = some file → file ∈ files
  /-- `fs::relative` of a file and a directory. -/
  relative : File → Text → Text
  parse : File → ParseResult

structure Settings where
  projectRoot : Text
  sourcePaths : List Text
  searchDirs : List Text

structure Project where
  disk : Disk
  settings : Settings
  inputFile : File

def Settings.searchPaths (settings : Settings) : List (List Text) :=
  [settings.projectRoot] ::
    settings.sourcePaths.map (fun sp => [settings.projectRoot, sp]) ++
      settings.searchDirs.map fun sp => [sp]

def resolveUseToFile (disk : Disk) (settings : Settings) (useIdent : Text) : Option File :=
  settings.searchPaths.findSome? fun base =>
    disk.locate (base ++ [modPath useIdent ++ extension])

namespace Project

def entryModPath (project : Project) : Text :=
  filePathToModulePath (project.disk.relative project.inputFile project.settings.projectRoot)

def resolve (project : Project) (usePath : Text) : Option File :=
  resolveUseToFile project.disk project.settings usePath

end Project

structure State where
  queue : List (File × Text × List Text)
  visited : List File
  units : List (File × Text)
  /-- The files handed to the parser, in order. -/
  parsed : List File
  errors : List Text
  anyParseError : Bool
  anyCircularImport : Bool

def circularMessage (importChain : List Text) (logicalPath : Text) : Text :=
  "circular import detected: ".toList ++ importChain.flatMap (· ++ " → ".toList) ++ logicalPath

def parseMessage (filePath : File) : Text :=
  "parse errors in '".toList ++ filePath ++ ['\'']

def visitUse (project : Project) (importChain : List Text) (s : State) (usePath : Text) : State :=
  match project.resolve usePath with
  | none => s
  | some modFile =>
    let logicalPath := usePathToModulePath usePath
    if logicalPath ∈ importChain then
      { s with
        errors := s.errors ++ [circularMessage importChain logicalPath]
        anyCircularImport := true }
    else if modFile ∈ s.visited then s
    else
      { s with
        visited := modFile :: s.visited
        queue := s.queue ++ [(modFile, logicalPath, importChain ++ [logicalPath])] }

def cleanTree (parsed : ParseResult) : Option Program :=
  if parsed.hasErrors then none else parsed.tree

/-- One turn of the loop `while (!queue.empty())`. -/
def turn (project : Project) (s : State) : State :=
  match s.queue with
  | [] => s
  | (filePath, modulePath, importChain) :: queue =>
    match cleanTree (project.disk.parse filePath) with
    | none =>
      { s with
        queue := queue
        parsed := s.parsed ++ [filePath]
        errors := s.errors ++ [parseMessage filePath]
        anyParseError := true }
    | some tree =>
      (extractUseModulePaths tree).foldl (visitUse project importChain)
        { s with
          queue := queue
          parsed := s.parsed ++ [filePath]
          units := s.units ++ [(filePath, modulePath)] }

def loop (project : Project) : Nat → State → State
  | 0, s => s
  | turns + 1, s => loop project turns (turn project s)

def start (project : Project) : State :=
  { queue := [(project.inputFile, project.entryModPath, [project.entryModPath])]
    visited := [project.inputFile]
    units := []
    parsed := []
    errors := []
    anyParseError := false
    anyCircularImport := false }

def Ends (project : Project) (s : State) : Prop :=
  ∃ turns, loop project turns (start project) = s ∧ s.queue = []

/-! The graph of files that the traversal goes through. -/

def loadable (project : Project) (file : File) : Bool :=
  (cleanTree (project.disk.parse file)).isSome

def uses (project : Project) (file : File) : List Text :=
  match cleanTree (project.disk.parse file) with
  | none => []
  | some tree => extractUseModulePaths tree

def Imports (project : Project) (file target : File) : Prop :=
  ∃ usePath ∈ uses project file, project.resolve usePath = some target

def Reachable (project : Project) (file : File) : Prop :=
  Relation.ReflTransGen (Imports project) project.inputFile file

def Cyclic (project : Project) : Prop :=
  ∃ file, Reachable project file ∧ Relation.TransGen (Imports project) file file

structure Loads (project : Project) (s : State) : Prop where
  once : s.parsed.Nodup
  reachable : ∀ file, file ∈ s.parsed ↔ Reachable project file
  units : s.units.map Prod.fst = s.parsed.filter (loadable project)

/-- The traversal ends, loads what is reachable and reports a cycle if there is one. -/
def Detects (project : Project) : Prop :=
  ∃ s, Ends project s ∧ Loads project s ∧ (s.anyCircularImport = true ↔ Cyclic project)

section Spelling

/-- Identifiers joined by `::`, and by `/`. -/
def spell (first : Ident) (rest : List Ident) : Text :=
  first.text ++ rest.flatMap fun id => scope ++ id.text

def slashed (first : Ident) (rest : List Ident) : Text :=
  first.text ++ rest.flatMap fun id => '/' :: id.text

theorem joinScope_eq (modulePath : ModulePath) :
    joinScope modulePath = spell modulePath.first modulePath.rest := by
  have goes_on (rest : List Ident) (path : Text) (nonempty : path ≠ []) :
      rest.foldl (fun path id => (if path ≠ [] then path ++ scope else path) ++ id.text) path =
        path ++ rest.flatMap fun id => scope ++ id.text := by
    induction rest generalizing path with
    | nil => simp
    | cons id rest ih =>
      rw [foldl_cons, if_pos nonempty, ih _ (by simp [nonempty])]
      simp
  rw [joinScope, foldl_cons, goes_on _ _ (by simp [modulePath.first.nonempty]), spell]
  rfl

theorem candidate_spelled {tree : Program} {usePath : Text}
    (member : usePath ∈ extractUseModulePaths tree) : ∃ first rest, usePath = spell first rest := by
  rw [extractUseModulePaths, mem_flatMap] at member
  rcases member with ⟨decl, _, member⟩
  rw [mem_flatMap] at member
  rcases member with ⟨b, binding, member⟩
  have symbol (modulePath : ModulePath) (name : Ident)
      (here : usePath ∈ candidates ⟨.Symbol, joinScope modulePath, name.text⟩) :
      ∃ first rest, usePath = spell first rest := by
    rw [candidates, mem_cons, mem_singleton] at here
    rcases here with rfl | rfl
    · exact ⟨_, _, joinScope_eq modulePath⟩
    · refine ⟨modulePath.first, modulePath.rest ++ [name], ?_⟩
      simp [joinScope_eq, spell]
  cases decl with
  | useRoot name =>
    rw [parseUseDecl, mem_singleton] at binding
    rw [binding, candidates, mem_singleton] at member
    exact ⟨name, [], by rw [member, spell]; simp⟩
  | useItem modulePath name =>
    rw [parseUseDecl, mem_singleton] at binding
    rw [binding] at member
    exact symbol modulePath name member
  | useGroup modulePath name names =>
    rw [parseUseDecl, List.mem_map] at binding
    rcases binding with ⟨id, _, rfl⟩
    exact symbol modulePath id member
  | useEnumWildcard =>
    rw [parseUseDecl, mem_singleton] at binding
    rw [binding] at member
    cases member

variable (first : Ident) (rest : List Ident)

/-- What both conversions do first: `::` becomes `//`. -/
theorem spell_slashes :
    (spell first rest).map (fun c => if c = ':' then '/' else c) =
      first.text ++ rest.flatMap fun id => '/' :: '/' :: id.text := by
  have plain (id : Ident) : id.text.map (fun c => if c = ':' then '/' else c) = id.text :=
    calc id.text.map (fun c => if c = ':' then '/' else c)
        = id.text.map fun c => c :=
          map_congr_left fun c member => if_neg (id.plain c member).1
      _ = id.text := List.map_id' _
  induction rest with
  | nil => simp [spell, plain]
  | cons id rest ih =>
    rw [spell, map_append] at ih ⊢
    rw [flatMap_cons, map_append, map_append, plain first, plain id] at *
    rw [append_cancel_left_eq] at ih
    rw [ih, flatMap_cons]
    rfl

theorem collapsePairs_plain (word rest : Text) (plain : ∀ c ∈ word, c ≠ '/') :
    collapsePairs (word ++ rest) = word ++ collapsePairs rest := by
  induction word with
  | nil => rfl
  | cons c word ih =>
    have head := plain c (by simp)
    rw [cons_append, collapsePairs, ih (fun d member => plain d (by simp [member]))]
    · rfl
    · rintro d same
      exact absurd same head

theorem modPath_spell :
    modPath (spell first rest) = slashed first rest := by
  rw [modPath, spell_slashes, collapsePairs_plain _ _ (fun c member => (first.plain c member).2),
    slashed]
  congr 1
  induction rest with
  | nil => rfl
  | cons id rest ih =>
    rw [flatMap_cons, cons_append, cons_append, collapsePairs,
      collapsePairs_plain _ _ (fun c member => (id.plain c member).2), ih]
    rfl

theorem collapse_word (word rest result : Text) (lastSlash : Bool) (nonempty : word ≠ [])
    (plain : ∀ c ∈ word, c ≠ '/') :
    (word ++ rest).foldl ModuleRegistry.collapseStep (result, lastSlash) =
      rest.foldl ModuleRegistry.collapseStep (result ++ word, false) := by
  induction word generalizing result lastSlash with
  | nil => exact absurd rfl nonempty
  | cons c word ih =>
    have head := plain c (by simp)
    rw [cons_append, foldl_cons, ModuleRegistry.collapseStep, if_neg head]
    cases word with
    | nil => rfl
    | cons d word =>
      rw [ih _ _ (cons_ne_nil _ _) (fun e member => plain e (by simp [member]))]
      simp

theorem usePathToModulePath_spell :
    usePathToModulePath (spell first rest) = slashed first rest := by
  have goes_on (rest : List Ident) (result : Text) :
      ((rest.flatMap fun id => '/' :: '/' :: id.text).foldl ModuleRegistry.collapseStep
        (result, false)).1 = result ++ rest.flatMap fun id => '/' :: id.text := by
    induction rest generalizing result with
    | nil => simp
    | cons id rest ih =>
      rw [flatMap_cons, cons_append, cons_append, foldl_cons, foldl_cons]
      have slashes : ModuleRegistry.collapseStep (ModuleRegistry.collapseStep (result, false) '/')
          '/' = (result ++ ['/'], true) := rfl
      rw [slashes, collapse_word _ _ _ _ id.nonempty (fun c member => (id.plain c member).2), ih]
      simp
  rw [usePathToModulePath, spell_slashes,
    collapse_word _ _ _ _ first.nonempty (fun c member => (first.plain c member).2), goes_on,
    slashed]
  rfl

theorem resolve_spelled (disk : Disk) (settings : Settings) (first : Ident) (rest : List Ident) :
    resolveUseToFile disk settings (spell first rest) = settings.searchPaths.findSome? fun base =>
        disk.locate (base ++ [usePathToModulePath (spell first rest) ++ extension]) := by
  rw [resolveUseToFile, modPath_spell, usePathToModulePath_spell]

theorem uses_spelled {project : Project} {file : File} {usePath : Text}
    (member : usePath ∈ uses project file) : ∃ first rest, usePath = spell first rest := by
  rw [uses] at member
  split at member
  · cases member
  · exact candidate_spelled member

end Spelling

def importGraph (project : Project) : ChainGraph Text Text File where
  uses := uses project
  resolve := project.resolve
  key := usePathToModulePath
  entry := project.inputFile
  entryKey := project.entryModPath
  faithful := by
    intro file file' usePath usePath' member member' same
    rcases uses_spelled member with ⟨first, rest, rfl⟩
    rcases uses_spelled member' with ⟨first', rest', rfl⟩
    rw [Project.resolve, Project.resolve, resolve_spelled, resolve_spelled, same]

section Simulation
variable {project : Project}

structure Tracks (project : Project) (s : State) (t : ChainGraph.Frontier Text File) : Prop where
  queue : s.queue = t.queue
  visited : s.visited = t.visited
  parsed : s.parsed = t.done.map Prod.fst
  units : s.units = t.done.filter fun entry => loadable project entry.1
  circular : s.anyCircularImport = t.closed

variable {t : ChainGraph.Frontier Text File} {s : State}

variable (tracks : Tracks project s t)
include tracks

theorem tracks_use (importChain : List Text) (usePath : Text) :
    Tracks project (visitUse project importChain s usePath)
      ((importGraph project).visit importChain t usePath) := by
  have same : (importGraph project).resolve usePath = project.resolve usePath := rfl
  have key : (importGraph project).key usePath = usePathToModulePath usePath := rfl
  rw [visitUse, ChainGraph.visit, same, key, ← tracks.visited]
  cases project.resolve usePath with
  | none => exact tracks
  | some modFile =>
    by_cases closes : usePathToModulePath usePath ∈ importChain
    · simp only [if_pos closes]
      exact ⟨tracks.queue, rfl, tracks.parsed, tracks.units, rfl⟩
    · by_cases known : modFile ∈ s.visited
      · simp only [if_neg closes, if_pos known]
        exact tracks
      · simp only [if_neg closes, if_neg known]
        exact ⟨by rw [tracks.queue], rfl, tracks.parsed, tracks.units, tracks.circular⟩

theorem tracks_uses (importChain : List Text) (usePaths : List Text) :
    Tracks project (usePaths.foldl (visitUse project importChain) s)
      (usePaths.foldl ((importGraph project).visit importChain) t) := by
  induction usePaths generalizing s t with
  | nil => exact tracks
  | cons usePath _ ih => exact ih (tracks_use tracks importChain usePath)

theorem tracks_turn :
    Tracks project (turn project s) ((importGraph project).turn t) := by
  rw [turn, ChainGraph.turn, ← tracks.queue]
  rcases s.queue with - | ⟨⟨filePath, modulePath, importChain⟩, queue⟩
  · exact tracks
  · have parsed : s.parsed ++ [filePath] = (t.done ++ [(filePath, modulePath)]).map Prod.fst := by
      rw [tracks.parsed, map_append]
      rfl
    have all : (importGraph project).uses filePath = uses project filePath := rfl
    simp only [all, uses]
    cases tree : cleanTree (project.disk.parse filePath) with
    | none =>
      have skipped : loadable project filePath = false := by rw [loadable, tree]; rfl
      refine ⟨rfl, tracks.visited, parsed, ?_, tracks.circular⟩
      simp [tracks.units, skipped]
    | some tree' =>
      have loaded : loadable project filePath = true := by rw [loadable, tree]; rfl
      apply tracks_uses
      refine ⟨rfl, tracks.visited, parsed, ?_, tracks.circular⟩
      simp [tracks.units, loaded]

omit tracks

theorem tracks_run (project : Project) (turns : Nat) :
    Tracks project (loop project turns (start project))
      ((importGraph project).loop turns (importGraph project).start) := by
  have goes_on (turns : Nat) {s : State} {t : ChainGraph.Frontier Text File}
      (tracks : Tracks project s t) :
      Tracks project (loop project turns s) ((importGraph project).loop turns t) := by
    induction turns generalizing s t with
    | zero => exact tracks
    | succ _ ih => exact ih (tracks_turn tracks)
  exact goes_on turns ⟨rfl, rfl, rfl, rfl, rfl⟩

structure Finished (project : Project) (s : State) : Prop where
  once : s.parsed.Nodup
  parsed : ∀ file, file ∈ s.parsed ↔ ∃ walk, (importGraph project).destination walk = some file
  units : ∀ file path, (file, path) ∈ s.units ↔
    loadable project file = true ∧ (importGraph project).Reached file path
  loaded : s.units.map Prod.fst = s.parsed.filter (loadable project)
  circular : s.anyCircularImport = true ↔ (importGraph project).ClosesFirstChain

theorem ends_finished (ends : Ends project s) : Finished project s := by
  rcases ends with ⟨turns, rfl, empty⟩
  have tracks := tracks_run project turns
  rw [tracks.queue] at empty
  have finished := ChainGraph.ends_finished turns empty
  refine ⟨tracks.parsed ▸ finished.once, fun file => ?_, fun file path => ?_, ?_, ?_⟩
  · rw [tracks.parsed, finished.reached]
  · rw [tracks.units, mem_filter, finished.done]
    exact and_comm
  · rw [tracks.units, tracks.parsed, List.filter_map]
    rfl
  · rw [tracks.circular, finished.closed]

theorem traversal_ends (project : Project) :
    Ends project (loop project (project.disk.files.length + 1) (start project)) := by
  refine ⟨_, rfl, ?_⟩
  rw [(tracks_run project _).queue]
  refine ChainGraph.search_ends _ project.disk.files (fun usePath file resolved => ?_)
  simp only [importGraph, Project.resolve, resolveUseToFile, findSome?_eq_some_iff] at resolved
  rcases resolved with ⟨_, base, _, _, found, _⟩
  exact project.disk.located _ _ found

end Simulation

/-- Everything reachable is reachable by uses that do not spell the module path of the entry. -/
def EntryNamed (project : Project) : Prop :=
  ∀ file, Reachable project file → ∃ walk, (importGraph project).destination walk = some file

/-- The traversal always ends; it detects what it should just when the entry's module path
hides no file, and a cycle shows on a first chain whenever there is one, and never without. -/
theorem detects_iff (project : Project) :
    Detects project ↔
      EntryNamed project ∧ (Cyclic project ↔ (importGraph project).ClosesFirstChain) := by
  constructor
  · rintro ⟨s, ends, loads, reports⟩
    have finished := ends_finished ends
    refine ⟨fun file reachable => ?_, reports.symm.trans finished.circular⟩
    exact (finished.parsed file).mp ((loads.reachable file).mpr reachable)
  · rintro ⟨named, cycles⟩
    have ends := traversal_ends project
    have finished := ends_finished ends
    refine ⟨_, ends, ⟨finished.once, fun file => ?_, finished.loaded⟩,
      finished.circular.trans cycles.symm⟩
    rw [finished.parsed]
    exact ⟨fun ⟨walk, leads⟩ => ChainGraph.destination_reachable leads, named file⟩

/-- Where the entry stands below the root under its module path, as every `.lc` file there
does, no file is hidden and no cycle is reported without one. -/
theorem located_entry (project : Project) (stands : project.disk.locate
      [project.settings.projectRoot, project.entryModPath ++ extension] = some project.inputFile) :
    EntryNamed project ∧ ((importGraph project).ClosesFirstChain → Cyclic project) := by
  have back {file : File} {usePath : Text} (member : usePath ∈ uses project file)
      (same : usePathToModulePath usePath = project.entryModPath) :
      project.resolve usePath = some project.inputFile := by
    rcases uses_spelled member with ⟨first, rest, rfl⟩
    rw [Project.resolve, resolve_spelled, same, Settings.searchPaths, cons_append,
      findSome?_cons, singleton_append, stands]
  constructor
  · intro file reachable
    induction reachable with
    | refl => exact ⟨[], rfl⟩
    | @tail source target _ imports ih =>
      rcases ih with ⟨walk, reached⟩
      rcases imports with ⟨usePath, member, resolved⟩
      by_cases same : usePathToModulePath usePath = project.entryModPath
      · rw [back member same, Option.some.injEq] at resolved
        exact ⟨[], congrArg some resolved⟩
      · rcases getElem?_of_mem member with ⟨position, here⟩
        have edge : (importGraph project).next source position = some target := by
          simp only [ChainGraph.next, importGraph, here, Option.bind_some, if_neg same, resolved]
        exact ⟨position :: walk, Option.bind_eq_some_iff.2 ⟨source, reached, edge⟩⟩
  · rintro ⟨file, walk, first, usePath, member, ⟨target, resolved⟩, named⟩
    have reachable := ChainGraph.destination_reachable first.1
    have imports : Imports project file target := ⟨usePath, member, resolved⟩
    have onward : Relation.ReflTransGen (Imports project) target file := by
      rcases ChainGraph.chain_passed first.1 named with entry | ⟨_, passed, _, _, onward, used⟩
      · rw [show (importGraph project).resolve usePath = _ from back member entry,
          Option.some.injEq] at resolved
        exact resolved ▸ reachable
      · rcases used with ⟨source, usePath', member', same, resolved'⟩
        have same_file := (importGraph project).faithful member member' same.symm
        rw [resolved, resolved'] at same_file
        exact Option.some.inj same_file ▸ onward
    exact ⟨target, reachable.tail imports, Relation.TransGen.tail' onward imports⟩

/-- The entry uses `a` and `b`, which use each other. -/
def crossing : Project where
  disk :=
    { locate := fun parts =>
        if parts = ["/p".toList, "a.lc".toList] then some "/p/a.lc".toList
        else if parts = ["/p".toList, "b.lc".toList] then some "/p/b.lc".toList
        else none
      files := ["/p/a.lc".toList, "/p/b.lc".toList]
      located := by
        intro parts file found
        split at found
        · simp [Option.some.inj found.symm]
        · split at found
          · simp [Option.some.inj found.symm]
          · cases found
      relative := fun _ _ => "e.lc".toList
      parse := fun file =>
        let a : Ident := ⟨['a'], by decide, by simp⟩
        let b : Ident := ⟨['b'], by decide, by simp⟩
        if file = "/p/a.lc".toList then ⟨some ⟨[.useRoot b], []⟩, false⟩
        else if file = "/p/b.lc".toList then ⟨some ⟨[.useRoot a], []⟩, false⟩
        else ⟨some ⟨[.useRoot a, .useRoot b], []⟩, false⟩ }
  settings := ⟨"/p".toList, [], []⟩
  inputFile := "/p/e.lc".toList

/-- Each of the two modules is first reached from the entry, and its use of the other one
is passed over because that file is visited. -/
theorem crossing_unreported : ¬ ∀ project, Detects project := by
  intro all
  rcases all crossing with ⟨s, ends, _, reports⟩
  have silent : (loop crossing (crossing.disk.files.length + 1)
      (start crossing)).anyCircularImport = false := by decide
  have same := (ends_finished ends).circular.trans
    (ends_finished (traversal_ends crossing)).circular.symm
  have entry_a : Imports crossing crossing.inputFile "/p/a.lc".toList :=
    ⟨['a'], by decide, by decide⟩
  have a_b : Imports crossing "/p/a.lc".toList "/p/b.lc".toList := ⟨['b'], by decide, by decide⟩
  have b_a : Imports crossing "/p/b.lc".toList "/p/a.lc".toList := ⟨['a'], by decide, by decide⟩
  have cyclic : Cyclic crossing :=
    ⟨_, Relation.ReflTransGen.single entry_a, (Relation.TransGen.single a_b).tail b_a⟩
  have reported := same.mp (reports.mpr cyclic)
  rw [silent] at reported
  cases reported

end Lucis.ImportTraversal
