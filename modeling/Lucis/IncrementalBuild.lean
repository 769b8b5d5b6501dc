import Lucis.ManifestRoundTrip
import Lucis.Library.Readings

/-!
The incremental builds of a project in cli/BuildCommand.cpp: what an invocation takes from its
arguments and from lucis.yaml, the build itself with the places where it stops, and the path
that links the objects of an earlier build. The front end, the C compiler, the generator of
modules and objects and the assembler are parameters. An invocation that is refused for its
arguments, or whose script fails before the build, changes nothing and links nothing: it is left
out, as are output names, messages and what is done with the linked binary. The build directory
can be written.
-/

namespace Lucis.BuildCache

open List Option
open BinaryCache (Text decimal OptimizationLevel)

section Settings

/-- The values of the arguments, `none` and the empty list where one is not given. The files they
name are canonical. -/
structure Cli where
  cwd : Text
  inputFile : Text
  target : Text
  sysroot : Text
  noStd : Bool
  debug : Bool
  opt : Option Text
  lto : Bool
  fPIC : Bool
  includes : List Text
  asmFiles : List Text
  assembler : Option Text
  assemblerArgs : List Text
  objFiles : List Text
  libFiles : List Text
  linker : Option Text
  linkerScript : Option Text
  linkerEntry : Option Text
  /-- `--entry`, which is deprecated. -/
  oldEntry : Text
  /-- Both spellings count, `--linker-nmagic` and `--nmagic`; so do those of the next two. -/
  nmagic : Bool
  omagic : Bool
  gcSections : Bool
  linkerArgs : List Text
  linkArgs : List Text
  rpath : Option Text
  link : List Text
  libPaths : List Text
  isStatic : Bool
  isShared : Bool
  strip : Bool
  printCfg : Bool
  /-- What is left behind the options, without the entry file. -/
  remaining : List Text
deriving DecidableEq

structure Config where
  nasm : Text
  ld : Text
  asmFiles : List Text
  assembler : Text
  asmFlags : List Text
  sourcePaths : List Text
  target : Text
  sysroot : Text
  optLevel : Text
  noStd : Bool
  debug : Bool
  lto : Bool
  staticLink : Bool
  isShared : Bool
  fpic : Bool
  codeModel : Text
  includePaths : List Text
  defines : List (Text × Text)
  objects : List Text
  staticLibs : List Text
  sharedLibs : List Text
  linkerProgram : Text
  linkerScript : Text
  linkerEntry : Text
  linkerLibs : List Text
  linkerLibPaths : List Text
  linkerFlags : List Text
  linkerArgs : List Text
  strip : Bool
deriving DecidableEq

structure Settings where
  cli : Cli
  config : Option Config
deriving DecidableEq

/-- `fs::path::filename` -/
def filename (path : Text) : Text := (path.reverse.takeWhile (· ≠ '/')).reverse

/-- `fs::path::parent_path` -/
def parentPath (path : Text) : Text :=
  match path.reverse.dropWhile (· ≠ '/') with
  | [] => []
  | '/' :: rest =>
    match rest.dropWhile (· = '/') with
    | [] => ['/']
    | front => front.reverse
  | _ => []

/-- The name in front of its last dot, and the rest; a dot at the start is part of the name. -/
def splitDot (name : Text) : Text × Text :=
  if name = ['.', '.'] then (name, [])
  else
    match name.reverse.dropWhile (· ≠ '.') with
    | [] => (name, [])
    | [_] => (name, [])
    | _ :: front => (front.reverse, name.drop front.length)

def stem (path : Text) : Text := (splitDot (filename path)).1

def extension (path : Text) : Text := (splitDot (filename path)).2

def isAbsolute (path : Text) : Bool := path.head? = some '/'

def joined (dir path : Text) : Text := if isAbsolute path then path else dir ++ '/' :: path

def endsWith (s suffix : Text) : Bool := suffix.isSuffixOf s

def parseOptimizationLevel (s : Text) : OptimizationLevel :=
  if s = ['0'] then .O0
  else if s = ['1'] then .O1
  else if s = ['2'] then .O2
  else if s = ['3'] then .O3
  else if s = ['s'] then .Os
  else if s = ['z'] then .Oz
  else if s = ['f', 'a', 's', 't'] then .Ofast
  else .O0

namespace Settings
variable (s : Settings)

def orConfig {α : Type} (given : Option α) (fromConfig : Config → α) (otherwise : α) : α :=
  given.getD (s.config.elim otherwise fromConfig)

def flag (given : Bool) (fromConfig : Config → Bool) : Bool :=
  given || s.config.elim false fromConfig

def text (given : Text) (fromConfig : Config → Text) : Text :=
  if given = [] then s.config.elim [] fromConfig else given

def fromConfig {α : Type} (field : Config → List α) : List α := s.config.elim [] field

def includePaths : List Text := s.fromConfig Config.includePaths ++ s.cli.includes
def sourcePaths : List Text := s.config.elim ["src/".toList] Config.sourcePaths
def noStd : Bool := s.flag s.cli.noStd Config.noStd
def emitDebugInfo : Bool := s.flag s.cli.debug Config.debug
def targetTriple : Text := s.text s.cli.target Config.target
def sysroot : Text := s.text s.cli.sysroot Config.sysroot
def codeModel : Text := s.config.elim [] Config.codeModel
def entryPoint : Text := s.cli.linkerEntry.getD s.cli.oldEntry

def userLinkerFlags : List Text :=
  if s.cli.link = [] then s.fromConfig Config.linkerLibs else s.cli.link

def optLevel : OptimizationLevel :=
  s.orConfig (s.cli.opt.map parseOptimizationLevel) (parseOptimizationLevel ·.optLevel) .O0

def useLTO : Bool := s.flag s.cli.lto Config.lto
def useStatic : Bool := s.flag s.cli.isStatic Config.staticLink
def useShared : Bool := s.flag s.cli.isShared Config.isShared

def isBareMetal : Bool :=
  s.noStd && (endsWith s.targetTriple "-none".toList || endsWith s.targetTriple "-eabi".toList)

def usePIC : Bool :=
  if s.cli.fPIC then true
  else if s.useShared then true
  else if s.useStatic then false
  else if s.isBareMetal then false
  else s.config.elim true Config.fpic

def assemblySources : List Text :=
  s.fromConfig Config.asmFiles ++ s.cli.asmFiles ++
    s.cli.remaining.filter fun arg => extension arg ∈ [".s".toList, ".asm".toList, ".S".toList]

def extraObjectFiles : List Text :=
  s.fromConfig Config.objects ++ s.fromConfig Config.staticLibs ++ s.fromConfig Config.sharedLibs ++
    s.cli.objFiles ++ s.cli.libFiles ++
    s.cli.remaining.filter fun arg => extension arg ∈ [".o".toList, ".a".toList, ".so".toList]

def assemblerChoice : Text :=
  s.orConfig s.cli.assembler (fun c => if c.assembler ≠ [] then c.assembler else c.nasm) []

def assemblerFlags : List Text :=
  if s.cli.assemblerArgs ≠ [] then s.cli.assemblerArgs else s.fromConfig Config.asmFlags

def customLinker : Text :=
  s.orConfig s.cli.linker (fun c => if c.linkerProgram ≠ [] then c.linkerProgram else c.ld) []

def isRawLd : Bool :=
  s.customLinker ≠ [] && (s.customLinker = "ld".toList || decide ("/ld".toList <:+: s.customLinker))

def libPaths : List Text :=
  s.fromConfig Config.linkerLibPaths ++ s.cli.libPaths ++
    if s.sysroot = [] then [] else [s.sysroot ++ "/lib".toList]

end Settings

end Settings

section FlagHash

def field (name value : Text) : Text := name ++ ':' :: value ++ [';']

def bit (b : Bool) : Text := if b then ['1'] else ['0']

/-- The text that `buildFlagHash` hashes. -/
def flagText (s : Settings) : Text :=
  field "input".toList s.cli.inputFile ++ s.sourcePaths.flatMap (field "src".toList) ++
    field "opt".toList (s.cli.opt.getD []) ++ field "target".toList s.targetTriple ++
    field "noStd".toList (bit s.noStd) ++ field "static".toList (bit s.useStatic) ++
    field "shared".toList (bit s.useShared) ++ field "PIC".toList (bit s.usePIC) ++
    field "LTO".toList (bit s.useLTO) ++ field "entry".toList s.entryPoint ++
    field "linkerNmagic".toList (bit s.cli.nmagic) ++
    field "linkerOmagic".toList (bit s.cli.omagic) ++
    field "ls".toList (s.cli.linkerScript.getD []) ++
    (if s.cli.linkerScript.getD [] = [] then
      s.config.elim [] fun c => field "ls_cfg".toList c.linkerScript else []) ++
    field "linker".toList s.customLinker ++
    field "strip".toList (bit (s.flag s.cli.strip Config.strip)) ++
    field "linkerGcSections".toList (bit s.cli.gcSections) ++
    s.includePaths.flatMap (field ['I']) ++ s.libPaths.flatMap (field ['L']) ++
    s.extraObjectFiles.flatMap (field ['O']) ++
    (s.fromConfig Config.defines).flatMap (fun (k, v) => field ['D'] (k ++ '=' :: v)) ++
    (s.fromConfig Config.linkerFlags).flatMap (field ['L', 'F']) ++
    (s.fromConfig Config.linkerArgs).flatMap (field ['L', 'A'])

end FlagHash

section LinkerFlags
variable (root : Text) (s : Settings)

/-- An argument of the linker, as it is passed to `ld` or through a compiler. -/
def scriptFlags (script : Text) : List Text :=
  if s.isRawLd then ["-T".toList, script] else ["-Wl,-T".toList ++ script]

def linkerScriptFlags : List Text :=
  match s.cli.linkerScript with
  | some script => scriptFlags s (joined s.cli.cwd script)
  | none =>
    match s.config.elim [] Config.linkerScript with
    | [] => []
    | script => scriptFlags s (joined root script)

def rpathFlags : List Text :=
  match s.cli.rpath with
  | none => []
  | some dir => if s.isRawLd then ["-rpath".toList, dir] else ["-Wl,-rpath,".toList ++ dir]

def finalLinkerFlags (flags : List Text) : List Text :=
  flags ++ (if s.useLTO then ["-flto".toList] else []) ++
    (if s.useStatic then ["-static".toList] else []) ++
    (if s.useShared then ["-shared".toList] else []) ++
    (if s.cli.gcSections then
      [if s.isRawLd then "--gc-sections".toList else "-Wl,--gc-sections".toList] else []) ++
    (if s.cli.nmagic then [if s.isRawLd then "-n".toList else "-Wl,-n".toList] else []) ++
    (if s.cli.omagic then [if s.isRawLd then "-N".toList else "-Wl,-N".toList] else []) ++
    linkerScriptFlags root s ++ s.cli.linkerArgs ++ s.cli.linkArgs ++
    s.fromConfig Config.linkerFlags ++ s.fromConfig Config.linkerArgs ++ rpathFlags s ++
    if s.sysroot = [] then [] else ["--sysroot=".toList ++ s.sysroot]

end LinkerFlags

section Tools

structure SourceUnit where
  filePath : Text
  modulePath : Text
deriving DecidableEq

structure Pipeline (Checked : Type) where
  units : List SourceUnit
  some_unit : units ≠ []
  cSourceFiles : List Text
  /-- The flags for the libraries of the C headers. -/
  requiredLibs : List Text
  checked : Checked

structure Options where
  cwd : Text
  inputFile : Text
  includePaths : List Text
  sourcePaths : List Text
  noStd : Bool
  emitDebugInfo : Bool
  targetTriple : Text
  sysroot : Text
  printCfg : Bool

structure CCommand where
  cwd : Text
  source : Text
  flags : List Text
  targetTriple : Text

structure AsmCommand where
  cwd : Text
  source : Text
  targetTriple : Text
  assembler : Text
  flags : List Text

structure IROptions where
  targetTriple : Text
  noStd : Bool
  emitDebugInfo : Bool
  optLevel : OptimizationLevel

structure ObjectOptions where
  pic : Bool
  targetTriple : Text
  codeModel : Text

abbrev FileReading := Reading Text (Option Int64)

/-- The tools of a build. What each makes is determined by what it is given and by the files it
reads; `none` where it fails. -/
structure Tools (Checked Module Object : Type) where
  check : Options → FileReading (Option (Pipeline Checked))
  compileCSource : CCommand → FileReading (Option Object)
  /-- The module of a unit, optimised. -/
  generate : IROptions → Pipeline Checked → SourceUnit → Option Module
  /-- The function that a module marks with `#[entry]`, empty if it marks none. -/
  entryPoint : Module → Text
  /-- The assembly files that a module's source contains, by the paths they are written to. -/
  inlineAssembly : Module → List (Text × Text)
  emitObjectFile : ObjectOptions → Module → Option Object
  compileAssembly : AsmCommand → FileReading (Option Object)
  /-- The same for a file that is written by the build itself. -/
  assembleText : AsmCommand → Text → Option Object
  /-- `std::hash` -/
  hash : Text → Nat

end Tools

section Build
variable {Checked Module Object : Type} (tools : Tools Checked Module Object) (root : Text)

structure EmitFlags where
  llvm : Bool
  asm : Bool
  bc : Bool
  obj : Bool
  bin : Bool
deriving DecidableEq

structure Emission where
  cli : EmitFlags
  config : Option EmitFlags
  recursive : Bool
  split : Bool
  /-- Whether the texts can be written. -/
  written : Bool
deriving DecidableEq

def EmitFlags.texts (flags : EmitFlags) : Bool := flags.llvm || flags.asm || flags.bc
def EmitFlags.any (flags : EmitFlags) : Bool := flags.texts || flags.obj || flags.bin

namespace Emission

def tasks (emit : Emission) : EmitFlags :=
  if emit.cli.any then emit.cli else emit.config.getD ⟨false, false, false, false, false⟩

def stops (emit : Emission) : Bool := emit.tasks.texts || emit.tasks.obj

def merges (emit : Emission) : Bool :=
  emit.tasks.obj && (!emit.tasks.texts || emit.written) && !emit.split && emit.recursive

end Emission

def buildDir : Text := root ++ "/.lucis/build".toList

def options (s : Settings) : Options where
  cwd := s.cli.cwd
  inputFile := s.cli.inputFile
  includePaths := s.includePaths
  sourcePaths := s.sourcePaths
  noStd := s.noStd
  emitDebugInfo := s.emitDebugInfo
  targetTriple := s.targetTriple
  sysroot := s.sysroot
  printCfg := s.cli.printCfg

/-- The end of `LucisPipeline::run`, which is not reached when the target's constants are
printed. -/
def linkerFlags (s : Settings) (requiredLibs : List Text) : List Text :=
  if s.cli.printCfg then []
  else
    let given := s.userLinkerFlags.map fun lf => ['-', 'l'] ++ lf
    requiredLibs.filter (fun required => required ∉ given) ++ given

def cIncFlags (s : Settings) : List Text :=
  s.includePaths.map (fun ip => ['-', 'I'] ++ ip) ++
    (if s.sysroot = [] then [] else ["--sysroot=".toList ++ s.sysroot]) ++
    (s.fromConfig Config.defines).map fun (k, v) => ['-', 'D'] ++ k ++ '=' :: v

/-- The directory of each source is added to the flags, and stays there for the next ones. -/
def cCommands (s : Settings) (flags : List Text) : List Text → List CCommand
  | [] => []
  | source :: rest =>
    let flags := flags ++ [['-', 'I'] ++ parentPath source]
    ⟨s.cli.cwd, source, flags, s.targetTriple⟩ :: cCommands s flags rest

def asmCommand (s : Settings) (source : Text) : AsmCommand :=
  ⟨s.cli.cwd, source, s.targetTriple, s.assemblerChoice, s.assemblerFlags⟩

structure Work (Checked Object : Type) where
  pipeline : Pipeline Checked
  cObjects : List (Option Object)
  asmObjects : List (Option Object)

def work (s : Settings) : FileReading (Option (Work Checked Object)) :=
  (tools.check (options s)).bind fun
    | none => .pure none
    | some pipeline =>
      (Reading.all ((cCommands s (cIncFlags s) pipeline.cSourceFiles).map
        tools.compileCSource)).bind fun cObjects =>
      (Reading.all ((s.assemblySources.map (asmCommand s)).map tools.compileAssembly)).map
        fun asmObjects => some ⟨pipeline, cObjects, asmObjects⟩

def flat (c : Char) : Char := if c = '/' ∨ c = '\\' then '_' else c

def unitStem (units : List SourceUnit) (filePath : Text) : Text :=
  let named := (units.find? fun unit => unit.filePath = filePath).elim [] fun unit =>
    unit.modulePath ++ "__".toList ++ stem unit.filePath
  (if named = [] then stem filePath else named).map flat

def objectPath (name : Text) : Text := buildDir root ++ '/' :: name ++ ".o".toList

def cObjectPath (source : Text) : Text := objectPath root ("c__".toList ++ stem source)
def asmObjectPath (source : Text) : Text := objectPath root ("asm__".toList ++ stem source)

/-- The objects of a list of jobs, up to the first that fails, and whether none does. -/
def produce : List (Text × Option Object) → List (Text × Object) × Bool
  | [] => ([], true)
  | (path, some object) :: rest => ((path, object) :: (produce rest).1, (produce rest).2)
  | (_, none) :: _ => ([], false)

namespace Work
variable (s : Settings) (w : Work Checked Object)

def modules : Option (List Module) :=
  w.pipeline.units.mapM
    (tools.generate ⟨s.targetTriple, s.noStd, s.emitDebugInfo, s.optLevel⟩ w.pipeline)

def cJobs : List (Text × Option Object) :=
  (w.pipeline.cSourceFiles.map (cObjectPath root)).zip w.cObjects

def unitJobs (modules : List Module) : List (Text × Option Object) :=
  (w.pipeline.units.map fun unit => objectPath root (unitStem w.pipeline.units unit.filePath)).zip
    (modules.map (tools.emitObjectFile ⟨s.usePIC, s.targetTriple, s.codeModel⟩))

def inlineJobs (modules : List Module) : List (Text × Option Object) :=
  let inlineFiles := modules.flatMap tools.inlineAssembly
  inlineFiles.map fun (path, text) =>
    let last := (inlineFiles.reverse.lookup path).getD text
    (asmObjectPath root path, tools.assembleText (asmCommand s path) last)

def asmJobs (modules : List Module) : List (Text × Option Object) :=
  (s.assemblySources.map (asmObjectPath root)).zip w.asmObjects ++ inlineJobs tools root s modules

end Work

/-- The entry point of the command line, of the first module that marks one, of lucis.yaml. -/
def entry (s : Settings) (modules : List Module) : Text :=
  if s.entryPoint ≠ [] then s.entryPoint
  else ((modules.map tools.entryPoint).find? (· ≠ [])).getD (s.config.elim [] Config.linkerEntry)

structure Finished where
  objectFiles : List Text
  entryPoint : Text
deriving DecidableEq

/-- The objects that a build has written when it ends, and what it goes on to link, if it was not
stopped. -/
def build (s : Settings) (emit : Emission) (w : Work Checked Object) :
    List (Text × Object) × Option Finished :=
  let c := produce (w.cJobs root)
  if c.2 then
    match w.modules tools s with
    | none => (c.1, none)
    | some modules =>
      let units := produce (w.unitJobs tools root s modules)
      if emit.stops then (if emit.merges then c.1 ++ units.1 else c.1, none)
      else if units.2 then
        let asm := produce (w.asmJobs tools root s modules)
        (c.1 ++ units.1 ++ asm.1,
          if asm.2 then
            some
              { objectFiles := units.1.map Prod.fst ++ c.1.map Prod.fst ++ asm.1.map Prod.fst ++
                  s.extraObjectFiles
                entryPoint := entry tools s modules }
          else none)
      else (c.1 ++ units.1, none)
  else (c.1, none)

end Build

section Invocation
variable {Checked Module Object : Type} (tools : Tools Checked Module Object) (root : Text)

structure State (Object : Type) where
  files : Files
  /-- The object files of the build directory. -/
  objects : List (Text × Object)
  manifest : Option Text

def flagHash (s : Settings) : Text := Nat.toDigits 10 (tools.hash (flagText s))

def filesAt (s : Settings) (files : Files) : Files := fun path => files (joined s.cli.cwd path)

inductive Way where
  | throws
  | rebuild
  | cached (saved : Saved)
deriving DecidableEq

def way (s : Settings) (emit : Emission) (st : State Object) : Way :=
  match st.manifest with
  | none => .rebuild
  | some manifest =>
    match readManifest (filesAt s st.files) manifest with
    | .error .throws => .throws
    | .error .differs => .rebuild
    | .ok saved =>
      if saved.flagHash ≠ flagHash tools s then .rebuild
      else if st.objects = [] then .rebuild
      else if emit.tasks.any then .rebuild
      else .cached saved

def put (objects : List (Text × Object)) (file : Text × Object) : List (Text × Object) :=
  file :: objects.filter fun other => other.1 ≠ file.1

def place (objects writes : List (Text × Object)) : List (Text × Object) := writes.foldl put objects

def recordOf (s : Settings) (w : Work Checked Object) : Record where
  units := w.pipeline.units.map SourceUnit.filePath
  cSourceFiles := w.pipeline.cSourceFiles
  assemblySources := s.assemblySources
  linkerFlags := linkerFlags s w.pipeline.requiredLibs
  flagHash := flagHash tools s

/-- The manifest is written when the front end is done, and the objects are appended at the end. -/
def manifestOf (s : Settings) (files : Files) (w : Work Checked Object)
    (finished : Option Finished) : Text :=
  writeManifest (filesAt s files) (recordOf tools s w) none ++
    finished.elim [] fun done => objectsLine done.objectFiles ++ ['\n']

def rebuild (s : Settings) (emit : Emission) (st : State Object) : State Object :=
  match (work tools s).run st.files with
  | none => st
  | some w =>
    let made := build tools root s emit w
    { files := st.files
      objects := place st.objects made.1
      manifest := some (manifestOf tools s st.files w made.2) }

def invoke (s : Settings) (emit : Emission) (st : State Object) : State Object :=
  match way tools s emit st with
  | .rebuild => rebuild tools root s emit st
  | .cached _ => st
  | .throws => st

/-- What the linker is given; of the object files that are not the build's own, the names only. -/
structure LinkCall (Object : Type) where
  objectFiles : List (Text × Option Object)
  flags : List Text
  libPaths : List Text
  withSanitizers : Bool
  entryPoint : Text
  noStd : Bool
  customLinker : Text
deriving DecidableEq

def linkCall (s : Settings) (objects : List (Text × Object)) (objectFiles : List Text)
    (flags : List Text) (entryPoint : Text) : LinkCall Object where
  objectFiles := objectFiles.map fun name => (name, objects.lookup name)
  flags := finalLinkerFlags root s flags
  libPaths := s.libPaths
  withSanitizers := !s.useStatic && !s.noStd
  entryPoint := entryPoint
  noStd := s.noStd
  customLinker := s.cli.linker.getD []

/-- A manifest without objects is taken for an old one: every object of the directory is
linked. -/
def cachedLink (s : Settings) (st : State Object) (saved : Saved) : LinkCall Object :=
  let cachedObjectFiles :=
    if saved.objectFiles ≠ [] then saved.objectFiles else st.objects.map Prod.fst
  linkCall root s st.objects (cachedObjectFiles ++ s.extraObjectFiles) saved.linkerFlags s.entryPoint

/-- What a full build of the same files links, `none` if it stops before. -/
def rebuildLink (s : Settings) (emit : Emission) (st : State Object) : Option (LinkCall Object) :=
  ((work tools s).run st.files).bind fun w =>
    let made := build tools root s emit w
    made.2.map fun done =>
      linkCall root s (place st.objects made.1) done.objectFiles
        (linkerFlags s w.pipeline.requiredLibs) done.entryPoint

def Exact (s : Settings) (emit : Emission) (st : State Object) : Prop :=
  ∀ saved, way tools s emit st = .cached saved →
    rebuildLink tools root s emit st = some (cachedLink root s st saved)

end Invocation

section History
variable {Checked Module Object : Type} (tools : Tools Checked Module Object) (root : Text)

inductive Event where
  | edit (path : Text) (seconds : Option Int64)
  | invocation (s : Settings) (emit : Emission)

def step (st : State Object) : Event → State Object
  | .edit path seconds => { st with files := Function.update st.files path seconds }
  | .invocation s emit => invoke tools root s emit st

variable (start : State Object)

def history : List Event → State Object
  | [] => start
  | event :: past => step tools root (history past) event

structure Builder (Checked Object : Type) where
  settings : Settings
  emission : Emission
  files : Files
  work : Work Checked Object

/-- The invocation that wrote the manifest: the latest that went past the front end. -/
def writer : List Event → Option (Builder Checked Object)
  | [] => none
  | .edit _ _ :: past => writer past
  | .invocation s emit :: past =>
    let st := history tools root start past
    match way tools s emit st, (work tools s).run st.files with
    | .rebuild, some w => some ⟨s, emit, st.files, w⟩
    | _, _ => writer past

end History

section Objects
variable {Object : Type} {objects objects' writes : List (Text × Object)} {path : Text}

theorem lookup_others {other : Text} (differs : path ≠ other) :
    (objects.filter fun file => file.1 ≠ other).lookup path = objects.lookup path := by
  induction objects with
  | nil => rfl
  | cons file rest ih =>
    by_cases same : file.1 = other
    · have elsewhere : (path == file.1) = false := beq_eq_false_iff_ne.2 (same ▸ differs)
      rw [filter_cons_of_neg (by simpa using same), ih, lookup_cons, elsewhere]
    · rw [filter_cons_of_pos (by simpa using same), lookup_cons, lookup_cons, ih]

theorem lookup_put (file : Text × Object) :
    (put objects file).lookup path = if path = file.1 then some file.2 else objects.lookup path := by
  rw [put, lookup_cons]
  by_cases here : path = file.1
  · rw [if_pos here, beq_iff_eq.2 here]
  · rw [if_neg here, beq_eq_false_iff_ne.2 here]
    exact lookup_others here

theorem lookup_place (objects writes : List (Text × Object)) (path : Text) :
    (place objects writes).lookup path = (writes.reverse.lookup path).or (objects.lookup path) := by
  induction writes generalizing objects with
  | nil => rfl
  | cons file rest ih =>
    rw [place, foldl_cons, ← place, ih, reverse_cons, lookup_append, lookup_put, lookup_cons]
    by_cases here : path = file.1
    · rw [if_pos here, beq_iff_eq.2 here]
      cases rest.reverse.lookup path <;> rfl
    · rw [if_neg here, beq_eq_false_iff_ne.2 here]
      cases rest.reverse.lookup path <;> rfl

theorem lookup_written {writes : List (Text × Object)} (written : path ∈ writes.map Prod.fst) :
    (writes.lookup path).isSome := by
  induction writes with
  | nil => cases written
  | cons file rest ih =>
    rw [lookup_cons]
    by_cases here : path = file.1
    · rw [beq_iff_eq.2 here]
      rfl
    · rw [beq_eq_false_iff_ne.2 here]
      rw [map_cons, mem_cons] at written
      exact ih (written.resolve_left here)

theorem place_written (written : path ∈ writes.map Prod.fst) :
    (place objects writes).lookup path = (place objects' writes).lookup path := by
  have there : path ∈ writes.reverse.map Prod.fst := by
    rw [map_reverse, mem_reverse]
    exact written
  rcases isSome_iff_exists.1 (lookup_written there) with ⟨object, found⟩
  rw [lookup_place, lookup_place, found, some_or, some_or]

theorem produce_nonempty {jobs : List (Text × Option Object)} (some_job : jobs ≠ [])
    (complete : (produce jobs).2 = true) : (produce jobs).1 ≠ [] := by
  match jobs with
  | [] => exact absurd rfl some_job
  | (path, some object) :: rest => exact cons_ne_nil _ _
  | (path, none) :: rest => cases complete

end Objects

section Finished
variable {Checked Module Object : Type} {tools : Tools Checked Module Object} {root : Text}
  {s : Settings} {emit : Emission} {w : Work Checked Object} {done : Finished}

theorem build_finished (finished : (build tools root s emit w).2 = some done) :
    ∃ modules, w.modules tools s = some modules ∧
      (produce (w.unitJobs tools root s modules)).2 = true ∧
      (∀ emit' : Emission, emit'.stops = false →
        build tools root s emit' w = build tools root s emit w) ∧
      (∀ name ∈ done.objectFiles, name ∈ (build tools root s emit w).1.map Prod.fst ∨
        name ∈ s.extraObjectFiles) ∧
      (∀ file ∈ (produce (w.unitJobs tools root s modules)).1, file.1 ∈ done.objectFiles) ∧
      done.entryPoint = entry tools s modules := by
  rw [build] at finished ⊢
  dsimp only at finished ⊢
  split at finished
  next cDone =>
    cases generated : w.modules tools s with
    | none =>
      rw [generated] at finished
      cases finished
    | some modules =>
      rw [generated] at finished
      dsimp only at finished
      split at finished
      next => cases finished
      next goes =>
        split at finished
        next unitsDone =>
          dsimp only at finished
          split at finished
          next asmDone =>
            have written := Option.some.inj finished
            subst written
            refine ⟨modules, rfl, unitsDone, ?_, ?_, ?_, rfl⟩
            · intro emit' goes'
              rw [build]
              simp only [cDone, generated, goes', unitsDone, asmDone, Bool.false_eq_true,
                if_false, if_true, goes]
            · intro name member
              simp only [cDone, goes, unitsDone, asmDone, Bool.false_eq_true, if_false, if_true,
                mem_append, map_append] at member ⊢
              tauto
            · intro file member
              simp only [mem_append]
              exact .inl (.inl (.inl (List.mem_map_of_mem member)))
          next => cases finished
        next => cases finished
  next => cases finished

theorem length_of_mapM {A B : Type} {f} {as : List A} {bs : List B}
    (made : as.mapM f = some bs) : bs.length = as.length := by
  induction as generalizing bs with
  | nil =>
    cases made
    rfl
  | cons a as ih =>
    rw [mapM_cons, bind_eq_bind, bind_eq_some_iff] at made
    rcases made with ⟨b, _, made⟩
    rw [bind_eq_bind, bind_eq_some_iff] at made
    rcases made with ⟨rest, later, ended⟩
    cases ended
    rw [length_cons, length_cons, ih later]

theorem Finished.some_object (finished : (build tools root s emit w).2 = some done) :
    done.objectFiles ≠ [] := by
  rcases build_finished finished with ⟨modules, generated, complete, _, _, units, _⟩
  have count : modules.length = w.pipeline.units.length := length_of_mapM generated
  have some_job : w.unitJobs tools root s modules ≠ [] := by
    intro none
    have length := congrArg List.length none
    rw [Work.unitJobs, length_zip, length_map, length_map, count, Nat.min_self] at length
    exact w.pipeline.some_unit (eq_nil_of_length_eq_zero length)
  cases made : (produce (w.unitJobs tools root s modules)).1 with
  | nil => exact absurd made (produce_nonempty some_job complete)
  | cons file rest =>
    intro none
    have there := units file (made ▸ (.head _))
    rw [none] at there
    cases there

end Finished

section Soundness
variable {Checked Module Object : Type} {tools : Tools Checked Module Object} {root : Text}
  {start st : State Object} {b : Builder Checked Object} {past : List Event} {s : Settings}
  {emit : Emission}

variable (tools root) in
structure Written (st : State Object) (b : Builder Checked Object) : Prop where
  work : (work tools b.settings).run b.files = some b.work
  manifest : st.manifest = some (manifestOf tools b.settings b.files b.work
    (build tools root b.settings b.emission b.work).2)
  objects : ∃ before, st.objects =
    place before (build tools root b.settings b.emission b.work).1

variable (tools root) in
def Describes (st : State Object) : Option (Builder Checked Object) → Prop
  | none => st.manifest = none
  | some b => Written tools root st b

variable {files : Files}

theorem describes_edit {latest}
    (describes : Describes tools root st latest) :
    Describes tools root { st with files := files } latest := by
  cases latest with
  | none => exact describes
  | some b => exact ⟨describes.work, describes.manifest, describes.objects⟩

theorem describes_step (event : Event)
    (describes : Describes tools root (history tools root start past)
      (writer tools root start past)) :
    Describes tools root (history tools root start (event :: past))
      (writer tools root start (event :: past)) := by
  cases event with
  | edit path seconds => exact describes_edit describes
  | invocation s emit =>
    simp only [history, step, writer, invoke]
    cases taken : way tools s emit (history tools root start past) with
    | throws => exact describes
    | cached saved => exact describes
    | rebuild =>
      dsimp only
      rw [rebuild]
      cases made : (work tools s).run (history tools root start past).files with
      | none => exact describes
      | some w => exact ⟨made, rfl, _, rfl⟩

theorem describes_history (fresh : start.manifest = none) :
    Describes tools root (history tools root start past) (writer tools root start past) := by
  induction past with
  | nil => exact fresh
  | cons event past ih => exact describes_step event ih

variable (tools root) in
/-- What a build relies on when it takes the path of the objects of an earlier one: that the
earlier one ran to its end; that no setting is another one that the flag hash leaves out; that each
file the earlier one read is in the manifest or unchanged; that the lines of the manifest can carry
the names; and that there are no object files beside the build's own, nor an entry point beside
that of the command line. -/
structure Kept (s : Settings) (files : Files) (b : Builder Checked Object) : Prop where
  finished : (build tools root b.settings b.emission b.work).2.isSome
  settings : flagText b.settings = flagText s → b.settings = s
  covered : ∀ path ∈ (work tools b.settings).reads b.files, files path = b.files path ∨
    (∃ seconds, b.files path = some seconds) ∧
      ∃ name ∈ (recordOf tools b.settings b.work).paths, joined b.settings.cli.cwd name = path
  carried : Carried (recordOf tools b.settings b.work)
    ((build tools root b.settings b.emission b.work).2.map Finished.objectFiles)
  no_extra : s.extraObjectFiles = []
  no_entry : s.entryPoint ≠ [] ∨ s.config.elim [] Config.linkerEntry = [] ∧
    ∀ modules, b.work.modules tools b.settings = some modules →
      ∀ m ∈ modules, tools.entryPoint m = []

theorem manifestOf_eq (s : Settings) (files : Files) (w : Work Checked Object)
    (finished : Option Finished) : manifestOf tools s files w finished =
      writeManifest (filesAt s files) (recordOf tools s w) (finished.map Finished.objectFiles) := by
  cases finished with
  | none => exact append_nil _
  | some done => exact append_objects

theorem entry_eq {modules} (given : s.entryPoint ≠ [] ∨
    s.config.elim [] Config.linkerEntry = [] ∧ ∀ m ∈ modules, tools.entryPoint m = []) :
    entry tools s modules = s.entryPoint := by
  rw [entry]
  split
  · rfl
  next absent =>
    rw [not_not] at absent
    rcases given with given | ⟨config, unmarked⟩
    · exact absurd absent given
    · have nothing : (modules.map tools.entryPoint).find? (· ≠ []) = none := by
        rw [find?_eq_none]
        intro name member
        rcases List.mem_map.1 member with ⟨m, listed, rfl⟩
        simp [unmarked m listed]
      rw [nothing, getD_none, config, absent]

theorem flagHash_inj {s s' : Settings} (same : flagHash tools s = flagHash tools s') :
    tools.hash (flagText s) = tools.hash (flagText s') := by
  have read := congrArg (fun digits => Nat.ofDigitChars 10 digits 0) same
  simpa only [flagHash, Nat.ofDigitChars_ten_toDigits] using read

theorem way_cached {saved : Saved} (taken : way tools s emit st = .cached saved) :
    (∃ manifest, st.manifest = some manifest ∧
      readManifest (filesAt s st.files) manifest = .ok saved) ∧
      saved.flagHash = flagHash tools s ∧ emit.tasks.any = false := by
  rw [way] at taken
  split at taken
  next => cases taken
  next manifest there =>
    split at taken
    next => cases taken
    next => cases taken
    next found read =>
      split at taken
      next => cases taken
      next hash =>
        split at taken
        next => cases taken
        next =>
          split at taken
          next => cases taken
          next quiet =>
            cases taken
            exact ⟨⟨manifest, there, read⟩, not_not.1 hash, Bool.eq_false_iff.2 quiet⟩

theorem linkCall_written {objects objects' writes : List (Text × Object)} {names flags : List Text}
    {entryPoint : Text} (written : ∀ name ∈ names, name ∈ writes.map Prod.fst) :
    linkCall root s (place objects writes) names flags entryPoint =
      linkCall root s (place objects' writes) names flags entryPoint := by
  have same : names.map (fun name => (name, (place objects writes).lookup name)) =
      names.map fun name => (name, (place objects' writes).lookup name) := by
    apply map_congr_left
    intro name member
    rw [@place_written _ objects objects' writes name (written name member)]
  rw [linkCall, linkCall, same]

theorem quiet_goes (quiet : emit.tasks.any = false) : emit.stops = false := by
  rw [EmitFlags.any, Bool.or_eq_false_iff] at quiet
  exact quiet.1

variable {done : Finished}

theorem written_rebuildLink (written : Written tools root st b)
    (finished : (build tools root b.settings b.emission b.work).2 = some done)
    (quiet : emit.tasks.any = false)
    (same : ∀ path ∈ (work tools b.settings).reads b.files, st.files path = b.files path) :
    rebuildLink tools root b.settings emit st = some (linkCall root b.settings
        (place st.objects (build tools root b.settings b.emission b.work).1) done.objectFiles
        (linkerFlags b.settings b.work.pipeline.requiredLibs) done.entryPoint) := by
  have again := ((work tools b.settings).agree b.files st.files same).trans written.work
  rcases build_finished finished with ⟨modules, _, _, emits, _, _, _⟩
  rw [rebuildLink, again, bind_some]
  dsimp only
  rw [emits emit (quiet_goes quiet), finished, map_some]

variable (kept : Kept tools root s files b)
include kept

theorem Kept.same_files (settings : b.settings = s)
    (stamps : ∀ name ∈ (recordOf tools b.settings b.work).paths, ∀ seconds,
      filesAt b.settings b.files name = some seconds → filesAt s files name = some seconds) :
    ∀ path ∈ (work tools b.settings).reads b.files, files path = b.files path := by
  intro path reads
  rcases kept.covered path reads with same | ⟨⟨seconds, was⟩, name, recorded, rfl⟩
  · exact same
  · have found := stamps name recorded seconds was
    rw [← settings] at found
    exact Eq.trans found was.symm

theorem Kept.names_written (settings : b.settings = s)
    (finished : (build tools root b.settings b.emission b.work).2 = some done) :
    ∀ name ∈ done.objectFiles,
      name ∈ (build tools root b.settings b.emission b.work).1.map Prod.fst := by
  obtain ⟨_, _, _, _, names, _, _⟩ := build_finished finished
  intro name member
  rcases names name member with written | extra
  · exact written
  · rw [settings, kept.no_extra] at extra
    cases extra

theorem Kept.entryPoint (settings : b.settings = s)
    (finished : (build tools root b.settings b.emission b.work).2 = some done) :
    done.entryPoint = s.entryPoint := by
  obtain ⟨modules, generated, _, _, _, _, entered⟩ := build_finished finished
  rw [entered, settings]
  apply entry_eq
  rcases kept.no_entry with given | ⟨config, unmarked⟩
  · exact .inl given
  · exact .inr ⟨config, unmarked modules generated⟩

omit kept

/-- Whatever builds, edits and failures came before: an invocation that takes the cached path
links what a full build would, if it keeps to what the build that wrote the manifest has left. -/
theorem cached_exact (tools : Tools Checked Module Object) (root : Text) (start : State Object)
    (fresh : start.manifest = none) (past : List Event) (s : Settings) (emit : Emission)
    (distinct : ∀ b ∈ writer tools root start past,
      tools.hash (flagText b.settings) = tools.hash (flagText s) →
        flagText b.settings = flagText s)
    (kept : ∀ b ∈ writer tools root start past,
      Kept tools root s (history tools root start past).files b) :
    Exact tools root s emit (history tools root start past) := by
  intro saved taken
  obtain ⟨⟨manifest, there, read⟩, hash, quiet⟩ := way_cached taken
  have describes := @describes_history _ _ _ tools root start past fresh
  cases latest : writer tools root start past with
  | none =>
    rw [latest] at describes
    exact absurd (there.symm.trans describes) (by simp)
  | some b =>
    rw [latest] at describes
    have kept := kept b latest
    have wrote := Option.some.inj (there.symm.trans describes.manifest)
    rw [wrote, manifestOf_eq] at read
    have ⟨told, stamps⟩ := read_writeManifest kept.carried (fun _ => Words.digit_of_toDigits) read
    -- the hash is that of the earlier build, so the settings are
    have settings : b.settings = s := by
      apply kept.settings
      apply distinct b latest
      apply flagHash_inj
      rw [← hash, told]
      rfl
    have same := kept.same_files settings stamps
    obtain ⟨done, finished⟩ := isSome_iff_exists.mp kept.finished
    have written := kept.names_written settings finished
    have entered := kept.entryPoint settings finished
    subst settings
    have objects : saved.objectFiles = done.objectFiles := by
      rw [told, finished]
      rfl
    have flags : saved.linkerFlags = linkerFlags b.settings b.work.pipeline.requiredLibs := by
      rw [told]
      rfl
    obtain ⟨before, stored⟩ := describes.objects
    rw [written_rebuildLink describes finished quiet same, cachedLink, objects,
      if_pos (Finished.some_object finished), kept.no_extra, append_nil, flags, entered,
      stored]
    exact congrArg some (linkCall_written written)

end Soundness

section Stale

/-- Tools for one source, whose module and object are the second it was written at. There is no
module for a source of second 2. -/
def clock : Tools (Option Int64) Int64 Int64 where
  check opts := (Reading.get opts.inputFile).map fun seconds => some
    { units := [⟨opts.inputFile, ['m']⟩]
      some_unit := by simp
      cSourceFiles := []
      requiredLibs := []
      checked := seconds }
  compileCSource _ := .pure none
  generate _ pipeline _ := if pipeline.checked = some 2 then none else pipeline.checked
  entryPoint _ := []
  inlineAssembly _ := []
  emitObjectFile _ := some
  compileAssembly _ := .pure none
  assembleText _ _ := none
  hash := List.length

/-- `lucis build /p/m.lc` -/
def bare : Settings where
  cli :=
    { cwd := ['/', 'p']
      inputFile := ['/', 'p', '/', 'm', '.', 'l', 'c']
      target := [], sysroot := [], noStd := false, debug := false, opt := none, lto := false
      fPIC := false, includes := [], asmFiles := [], assembler := none, assemblerArgs := []
      objFiles := [], libFiles := [], linker := none, linkerScript := none, linkerEntry := none
      oldEntry := [], nmagic := false, omagic := false, gcSections := false, linkerArgs := []
      linkArgs := [], rpath := none, link := [], libPaths := [], isStatic := false
      isShared := false, strip := false, printCfg := false, remaining := [] }
  config := none

def noEmit : Emission := ⟨⟨false, false, false, false, false⟩, none, false, false, true⟩

def written (seconds : Int64) : State Int64 :=
  ⟨fun path => if path = bare.cli.inputFile then some seconds else none, [], none⟩

def unitObject : Text := objectPath ['/', 'p'] "m__m".toList

theorem cached_exact_unchanged :
    way clock bare noEmit (history clock ['/', 'p'] (written 1) [.invocation bare noEmit]) =
        .cached ⟨[], [unitObject], flagHash clock bare⟩ ∧
      Exact clock ['/', 'p'] bare noEmit
        (history clock ['/', 'p'] (written 1) [.invocation bare noEmit]) := by
  refine ⟨by decide +kernel, cached_exact clock _ (written 1) rfl _ bare noEmit ?_ ?_⟩
  · intro b member
    cases member
    exact fun _ => rfl
  · intro b member
    cases member
    exact
      { finished := by decide +kernel
        settings := fun _ => rfl
        covered := fun _ _ => .inl rfl
        carried :=
          { paths := by decide +kernel
            flags := by decide +kernel
            objects := by decide +kernel }
        no_extra := rfl
        no_entry := .inr ⟨rfl, fun _ _ _ _ => rfl⟩ }

/-- The source is edited, and no module can be generated for it: the build fails, but has written
the manifest. The next build takes the object of the old source for that of the new one. -/
theorem failed_build_reused :
    ¬Exact clock ['/', 'p'] bare noEmit (history clock ['/', 'p'] (written 1)
      [.invocation bare noEmit, .edit bare.cli.inputFile (some 2), .invocation bare noEmit]) := by
  intro exact
  have taken : way clock bare noEmit (history clock ['/', 'p'] (written 1)
      [.invocation bare noEmit, .edit bare.cli.inputFile (some 2), .invocation bare noEmit]) =
      .cached ⟨[], [], flagHash clock bare⟩ := by decide +kernel
  exact absurd (exact _ taken) (by decide +kernel)

end Stale

end Lucis.BuildCache
