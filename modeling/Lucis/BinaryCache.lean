import Mathlib.Data.List.Infix

/-!
The cache of linked binaries in cli/BinaryBuilder.cpp, which run, test and fuzz share:
its key, what is linked when there is no binary under the key, and the state of the
cache over any sequence of builds. The compilers, the linker, the printer of modules
and MD5 are tools outside the repository; the printed module carries its target triple,
from which the object file is emitted.
-/

namespace Lucis.BinaryCache

open List Option

abbrev Text := List Char

inductive OptimizationLevel where
  | O0 | O1 | O2 | O3 | Os | Oz | Ofast
deriving DecidableEq

/-- `static_cast<int>(opts.optLevel)` -/
def OptimizationLevel.number : OptimizationLevel → Nat
  | .O0 => 0 | .O1 => 1 | .O2 => 2 | .O3 => 3 | .Os => 4 | .Oz => 5 | .Ofast => 6

def OptimizationLevel.argument : OptimizationLevel → Option Text
  | .O0 => none
  | .O1 => some "-O1".toList
  | .O2 => some "-O2".toList
  | .O3 => some "-O3".toList
  | .Os => some "-Os".toList
  | .Oz => some "-Oz".toList
  | .Ofast => some "-Ofast".toList

/-- The commands that build through the cache, by their `cachePrefix`. -/
inductive Stage where
  | run | test | fuzz
deriving DecidableEq

def Stage.cachePrefix : Stage → Text
  | .run => "run".toList
  | .test => "test".toList
  | .fuzz => "fuzz".toList

/-- The optimised module, printed. The printer escapes line breaks in names and strings,
and begins no line with a hash sign. -/
structure ModuleText where
  text : Text
  no_hash_line : ¬ ['\n', '#'] <:+: text

structure Library where
  path : Text
  one_line : '\n' ∉ path
  mtime : Option Int
  contents : Text

structure CSource where
  path : Text
  stem : Text
  translation : Text
deriving DecidableEq

structure Invocation where
  stage : Stage
  master : ModuleText
  library : Library
  optLevel : OptimizationLevel
  useLTO : Bool
  useClean : Bool
  linkerFlags : List Text
  cSourceFiles : List CSource
  /-- Whether `fs::rename` succeeds. -/
  renames : Bool

structure LinkInputs where
  master : Text
  optArg : Option Text
  useLTO : Bool
  cObjects : List Text
  runtime : Text
  linkerFlags : List Text
deriving DecidableEq

structure Tools where
  md5 : Text → Text
  compileCSource : CSource → Option Text
  emitObjectFile : Text → Option Text
  /-- Linking with clang, or else with gcc. -/
  linkWithCompiler : LinkInputs → Bool

def decimal (count : Int) : Text :=
  if count < 0 then '-' :: Nat.toDigits 10 count.natAbs else Nat.toDigits 10 count.natAbs

/-! What stands before the parts of the key: `\n#builtins=`, `\n#builtins_mtime=`, `\n#opt=`,
`\n#lto=1` and `\n#l=`. -/

def builtinsMark : Text := ['\n', '#', 'b', 'u', 'i', 'l', 't', 'i', 'n', 's', '=']
def mtimeMark : Text :=
  ['\n', '#', 'b', 'u', 'i', 'l', 't', 'i', 'n', 's', '_', 'm', 't', 'i', 'm', 'e', '=']
def optMark : Text := ['\n', '#', 'o', 'p', 't', '=']
def ltoMark : Text := ['\n', '#', 'l', 't', 'o', '=', '1']
def flagMark : Text := ['\n', '#', 'l', '=']

def flagLines (linkerFlags : List Text) : Text := linkerFlags.flatMap fun lf => flagMark ++ lf

def mtimeLine : Option Int → Text
  | none => []
  | some count => mtimeMark ++ decimal count

def ltoLine (useLTO : Bool) : Text := if useLTO then ltoMark else []

def cacheKeyData (inv : Invocation) : Text :=
  inv.master.text ++ builtinsMark ++ inv.library.path ++ mtimeLine inv.library.mtime ++ optMark ++
    Nat.toDigits 10 inv.optLevel.number ++ ltoLine inv.useLTO ++ flagLines inv.linkerFlags

section Build
variable (tools : Tools)

def binPath (inv : Invocation) : Text :=
  inv.stage.cachePrefix ++ "-".toList ++ tools.md5 (cacheKeyData inv) ++ ".bin".toList

def objPath (cSrc : CSource) : Text := "c__".toList ++ cSrc.stem ++ ".o".toList

def compileCSources : List CSource → List (Text × Text) → Option (List (Text × Text))
  | [], files => some files
  | cSrc :: rest, files =>
    (tools.compileCSource cSrc).bind fun object =>
      compileCSources rest ((objPath cSrc, object) :: files)

def cObjects (inv : Invocation) : Option (List Text) :=
  (compileCSources tools inv.cSourceFiles []).map fun files =>
    inv.cSourceFiles.map fun cSrc => (files.lookup (objPath cSrc)).getD []

def linkInputs (inv : Invocation) : Option LinkInputs :=
  (cObjects tools inv).map fun objects =>
    { master := inv.master.text
      optArg := inv.optLevel.argument
      useLTO := inv.useLTO
      cObjects := objects
      runtime := inv.library.contents
      linkerFlags := inv.linkerFlags }

structure Entry where
  maker : Invocation
  ownerExec : Bool

abbrev Cache := List (Text × Entry)

inductive Outcome where
  | reused (maker : Invocation)
  | built
  /-- The new binary could not be moved to its place and an old one was left there. -/
  | kept (maker : Invocation)
  | failed

def store (cache : Cache) (path : Text) (entry : Entry) : Cache :=
  (path, entry) :: cache.filter fun other => other.1 ≠ path

def produce (cache : Cache) (inv : Invocation) : Cache × Outcome :=
  match linkInputs tools inv with
  | none => (cache, .failed)
  | some inputs =>
    match tools.emitObjectFile inv.master.text with
    | none => (cache, .failed)
    | some _ =>
      if tools.linkWithCompiler inputs then
        if inv.renames then (store cache (binPath tools inv) ⟨inv, true⟩, .built)
        else
          match cache.lookup (binPath tools inv) with
          | none => (cache, .failed)
          | some old => (cache, .kept old.maker)
      else (cache, .failed)

def build (cache : Cache) (inv : Invocation) : Cache × Outcome :=
  let cache := if inv.useClean then [] else cache
  match cache.lookup (binPath tools inv) with
  | some entry => if entry.ownerExec then (cache, .reused entry.maker) else produce tools cache inv
  | none => produce tools cache inv

inductive Event where
  | build (inv : Invocation)
  | setPermissions (path : Text) (ownerExec : Bool)

def apply (cache : Cache) : Event → Cache
  | .build inv => (build tools cache inv).1
  | .setPermissions path ownerExec =>
    cache.map fun entry => if entry.1 = path then (path, ⟨entry.2.maker, ownerExec⟩) else entry

def history (events : List Event) : Cache := events.foldl (apply tools) []

end Build

section Key

theorem split_at {c : Char} {x y r s : Text} (first : c ∉ x) (second : c ∉ y)
    (same : x ++ c :: r = y ++ c :: s) : x = y ∧ r = s := by
  induction x generalizing y with
  | nil =>
    cases y with
    | nil => exact ⟨rfl, (List.cons.inj same).2⟩
    | cons d y => exact absurd (List.cons.inj same).1 (by rintro rfl; simp at second)
  | cons d x ih =>
    cases y with
    | nil => exact absurd (List.cons.inj same).1 (by rintro rfl; simp at first)
    | cons e y =>
      have ⟨head, tail⟩ := List.cons.inj same
      rw [mem_cons, not_or] at first second
      have ⟨rest, behind⟩ := ih first.2 second.2 tail
      exact ⟨by rw [head, rest], behind⟩

theorem split_hash {x y r s : Text} (first : ¬ ['\n', '#'] <:+: x)
    (second : ¬ ['\n', '#'] <:+: y) (same : x ++ '\n' :: '#' :: r = y ++ '\n' :: '#' :: s) :
    x = y ∧ r = s := by
  induction x generalizing y with
  | nil =>
    cases y with
    | nil => simpa using same
    | cons d y =>
      have ⟨head, tail⟩ := List.cons.inj same
      cases y with
      | nil => exact absurd (List.cons.inj tail).1 (by decide)
      | cons e y =>
        have hash := (List.cons.inj tail).1
        exact absurd ⟨[], y, by rw [head, hash]; rfl⟩ second
  | cons d x ih =>
    cases y with
    | nil =>
      have ⟨head, tail⟩ := List.cons.inj same
      cases x with
      | nil => exact absurd (List.cons.inj tail).1 (by decide)
      | cons e x =>
        have hash := (List.cons.inj tail).1
        exact absurd ⟨[], x, by rw [head, hash]; rfl⟩ first
    | cons e y =>
      have ⟨head, tail⟩ := List.cons.inj same
      have longer {z : Text} {c : Char} (inner : ['\n', '#'] <:+: z) :
          ['\n', '#'] <:+: c :: z := infix_cons inner
      have ⟨rest, behind⟩ := ih (fun inner => first (longer inner))
        (fun inner => second (longer inner)) tail
      exact ⟨by rw [head, rest], behind⟩

theorem decimal_one_line (count : Int) : '\n' ∉ decimal count := by
  have digits (n : Nat) : '\n' ∉ Nat.toDigits 10 n := by
    intro member
    exact absurd (Nat.isDigit_of_mem_toDigits (by decide) (by decide) member) (by decide)
  rw [decimal]
  split
  · rw [mem_cons, not_or]
    exact ⟨by decide, digits _⟩
  · exact digits _

theorem number_digit (level : OptimizationLevel) :
    Nat.toDigits 10 level.number = [Nat.digitChar level.number] := by
  cases level <;> rfl

theorem number_injective {first second : OptimizationLevel}
    (same : Nat.digitChar first.number = Nat.digitChar second.number) : first = second := by
  cases first <;> cases second <;> first | rfl | exact absurd same (by decide)

theorem mtime_split {first second : Option Int} {r s : Text}
    (same : mtimeLine first ++ (optMark ++ r) = mtimeLine second ++ (optMark ++ s)) : r = s := by
  cases first with
  | none =>
    cases second with
    | none => exact append_cancel_left same
    | some count =>
      have third : 'o' = 'b' := Option.some.inj (congrArg (·[2]?) same)
      exact absurd third (by decide)
  | some count =>
    cases second with
    | none =>
      have third : 'b' = 'o' := Option.some.inj (congrArg (·[2]?) same)
      exact absurd third (by decide)
    | some count' =>
      simp only [mtimeLine, append_assoc, append_cancel_left_eq] at same
      have ⟨_, behind⟩ := split_at (decimal_one_line count) (decimal_one_line count') same
      exact @append_cancel_left _ (optMark.drop 1) _ _ behind

theorem flag_fourth (flags : List Text) : (flagLines flags)[3]? ≠ some 't' := by
  cases flags with
  | nil => simp [flagLines]
  | cons lf rest => simp [flagLines, flagMark]

theorem lto_split {first second : Bool} {flags flags' : List Text}
    (same : ltoLine first ++ flagLines flags = ltoLine second ++ flagLines flags') :
    first = second ∧ flagLines flags = flagLines flags' := by
  cases first with
  | false =>
    cases second with
    | false => exact ⟨rfl, same⟩
    | true => exact absurd (congrArg (·[3]?) same) (flag_fourth flags)
  | true =>
    cases second with
    | false => exact absurd (congrArg (·[3]?) same).symm (flag_fourth flags')
    | true => exact ⟨rfl, append_cancel_left same⟩

theorem key_parts {a b : Invocation} (same : cacheKeyData a = cacheKeyData b) :
    a.master.text = b.master.text ∧ a.optLevel = b.optLevel ∧ a.useLTO = b.useLTO ∧
      flagLines a.linkerFlags = flagLines b.linkerFlags := by
  simp only [cacheKeyData, number_digit, append_assoc] at same
  have ⟨master, behind⟩ := split_hash a.master.no_hash_line b.master.no_hash_line same
  have library := @append_cancel_left _ (builtinsMark.drop 2) _ _ behind
  -- the path ends at the next line break, whichever line follows
  have next_line (mtime : Option Int) (r : Text) :
      ∃ line, mtimeLine mtime ++ (optMark ++ r) = '\n' :: line := by
    cases mtime with
    | none => exact ⟨_, rfl⟩
    | some count => exact ⟨_, rfl⟩
  rcases next_line a.library.mtime _ with ⟨line, first⟩
  rcases next_line b.library.mtime _ with ⟨line', second⟩
  rw [first, second] at library
  have ⟨_, lines⟩ := split_at a.library.one_line b.library.one_line library
  rw [← cons_inj_right '\n', ← first, ← second] at lines
  have options := mtime_split lines
  have ⟨level, rest⟩ := List.cons.inj options
  have ⟨lto, flags⟩ := lto_split rest
  exact ⟨master, number_injective level, lto, flags⟩

theorem digest_of_path (tools : Tools) {a b : Invocation}
    (same : binPath tools a = binPath tools b) :
    tools.md5 (cacheKeyData a) = tools.md5 (cacheKeyData b) := by
  have no_dash (stage : Stage) : '-' ∉ stage.cachePrefix := by cases stage <;> decide
  simp only [binPath, append_assoc] at same
  have ⟨_, behind⟩ := split_at (no_dash a.stage) (no_dash b.stage) same
  exact append_cancel_right behind

end Key

section Objects
variable (tools : Tools)

/-- The source whose object stands at the object path of a C source: the last one of the
same stem. -/
def linkedSource (sources : List CSource) (cSrc : CSource) : CSource :=
  (sources.reverse.find? fun other => objPath other = objPath cSrc).getD cSrc

def Invocation.linkedSources (inv : Invocation) : List CSource :=
  inv.cSourceFiles.map (linkedSource inv.cSourceFiles)

def Compiles (inv : Invocation) : Prop :=
  ∀ cSrc ∈ inv.cSourceFiles, (tools.compileCSource cSrc).isSome = true

variable {sources : List CSource}

theorem compiled_lookup {files result}
    (done : compileCSources tools sources files = some result) (path : Text) : result.lookup path =
      match sources.reverse.find? (fun other => objPath other = path) with
      | some cSrc => tools.compileCSource cSrc
      | none => files.lookup path := by
  induction sources generalizing files with
  | nil =>
    rw [compileCSources, Option.some.injEq] at done
    simp [done]
  | cons cSrc rest ih =>
    rw [compileCSources, bind_eq_some_iff] at done
    rcases done with ⟨object, compiled, done⟩
    rw [ih done, reverse_cons, find?_append]
    cases later : rest.reverse.find? (fun other => objPath other = path) with
    | some other => rfl
    | none =>
      -- no later source has this path: it is the first one's, or was there before
      by_cases here : objPath cSrc = path
      · simp [here, compiled]
      · have other : (path == objPath cSrc) = false := by simpa using Ne.symm here
        simp [here, lookup_cons, other]

theorem compiled_iff (sources : List CSource) (files : List (Text × Text)) :
    (compileCSources tools sources files).isSome = true ↔
      ∀ cSrc ∈ sources, (tools.compileCSource cSrc).isSome = true := by
  induction sources generalizing files with
  | nil => simp [compileCSources]
  | cons cSrc rest ih =>
    rw [compileCSources, forall_mem_cons]
    cases compiled : tools.compileCSource cSrc with
    | none => simp
    | some object => simpa using ih ((objPath cSrc, object) :: files)

theorem found_member {cSrc : CSource} (member : cSrc ∈ sources) :
    linkedSource sources cSrc ∈ sources ∧
      sources.reverse.find? (fun other => objPath other = objPath cSrc) =
        some (linkedSource sources cSrc) := by
  cases found : sources.reverse.find? (fun other => objPath other = objPath cSrc) with
  | none =>
    have differs := find?_eq_none.1 found cSrc (mem_reverse.2 member)
    exact absurd (decide_eq_true rfl) differs
  | some other =>
    have linked : linkedSource sources cSrc = other := by simp [linkedSource, found]
    rw [linked]
    exact ⟨mem_reverse.1 (mem_of_find?_eq_some found), rfl⟩

theorem linked_compiles {inv : Invocation} (compiles : Compiles tools inv) :
    ∀ cSrc ∈ inv.linkedSources, (tools.compileCSource cSrc).isSome = true := by
  intro linked member
  rcases List.mem_map.1 member with ⟨cSrc, present, rfl⟩
  exact compiles _ (found_member present).1

theorem c_objects (inv : Invocation) : cObjects tools inv = none ∧ ¬ Compiles tools inv ∨
      Compiles tools inv ∧ cObjects tools inv =
        some (inv.linkedSources.map fun cSrc => (tools.compileCSource cSrc).getD []) := by
  have all := compiled_iff tools inv.cSourceFiles []
  cases done : compileCSources tools inv.cSourceFiles [] with
  | none =>
    rw [done] at all
    exact .inl ⟨by rw [cObjects, done]; rfl, fun compiles => absurd (all.2 compiles) (by simp)⟩
  | some files =>
    rw [done] at all
    refine .inr ⟨all.1 rfl, ?_⟩
    rw [cObjects, done, map_some, Invocation.linkedSources, List.map_map]
    congr 1
    apply map_congr_left
    intro cSrc member
    simp only [compiled_lookup tools done, (found_member member).2, Function.comp]

end Objects

section Runs
variable (tools : Tools)

def invocations (events : List Event) : List Invocation :=
  events.filterMap fun
    | .build inv => some inv
    | .setPermissions _ _ => none

def Made (builds : List Invocation) (cache : Cache) : Prop :=
  ∀ path entry, (path, entry) ∈ cache →
    path = binPath tools entry.maker ∧ entry.maker ∈ builds ∧ Compiles tools entry.maker

variable {builds : List Invocation} {cache : Cache}

variable (made : Made tools builds cache)
include made

theorem Made.more {more}
    (included : ∀ inv ∈ builds, inv ∈ more) : Made tools more cache := by
  intro path entry member
  have ⟨named, known, compiles⟩ := made path entry member
  exact ⟨named, included _ known, compiles⟩

omit made in
theorem lookup_member {path : Text} {entry : Entry}
    (found : cache.lookup path = some entry) : (path, entry) ∈ cache := by
  induction cache with
  | nil => cases found
  | cons first rest ih =>
    rcases first with ⟨name, other⟩
    rw [lookup_cons] at found
    cases here : path == name with
    | true =>
      rw [here] at found
      rw [beq_iff_eq.1 here, Option.some.inj found]
      exact .head _
    | false =>
      rw [here] at found
      exact .tail _ (ih found)

variable {inv : Invocation}

theorem Made.store (known : inv ∈ builds) (compiles : Compiles tools inv)
    (ownerExec : Bool) : Made tools builds (store cache (binPath tools inv) ⟨inv, ownerExec⟩) := by
  intro path entry member
  rcases mem_cons.1 member with new | old
  · cases new
    exact ⟨rfl, known, compiles⟩
  · exact made path entry (mem_of_mem_filter old)

omit made in
theorem produce_cases (cache : Cache) (inv : Invocation) : (produce tools cache inv).1 = cache ∨
      Compiles tools inv ∧
        (produce tools cache inv).1 = BinaryCache.store cache (binPath tools inv) ⟨inv, true⟩ := by
  rcases c_objects tools inv with ⟨none, _⟩ | ⟨compiles, objects⟩
  · simp [produce, linkInputs, none]
  · rw [produce, linkInputs, objects, map_some]
    dsimp only
    cases tools.emitObjectFile inv.master.text with
    | none => exact .inl rfl
    | some object =>
      dsimp only
      split
      · split
        · exact .inr ⟨compiles, rfl⟩
        · cases cache.lookup (binPath tools inv) <;> exact .inl rfl
      · exact .inl rfl

theorem Made.produce (known : inv ∈ builds) :
    Made tools builds (produce tools cache inv).1 := by
  rcases produce_cases tools cache inv with same | ⟨compiles, stored⟩
  · rw [same]
    exact made
  · rw [stored]
    exact made.store tools known compiles true

theorem Made.apply
    (event : Event) : Made tools (builds ++ invocations [event]) (apply tools cache event) := by
  cases event with
  | build inv =>
    have before : Made tools (builds ++ [inv]) (if inv.useClean then [] else cache) := by
      split
      · intro path entry member
        cases member
      · exact made.more tools fun other known => mem_append_left _ known
    have known : inv ∈ builds ++ [inv] := by simp
    have after := before.produce tools known
    change Made tools (builds ++ [inv]) (build tools cache inv).1
    rw [build]
    split
    · split
      · exact before
      · exact after
    · exact after
  | setPermissions path ownerExec =>
    change Made tools (builds ++ []) _
    rw [append_nil]
    intro name entry member
    rcases List.mem_map.1 member with ⟨⟨other, old⟩, present, changed⟩
    have known := made other old present
    dsimp only at changed
    split at changed
    next here =>
      cases changed
      rw [← here]
      exact known
    next =>
      cases changed
      exact known

omit made

theorem made_history (events : List Event) :
    Made tools (invocations events) (history tools events) := by
  have run (rest : List Event) (builds : List Invocation) (cache : Cache)
      (made : Made tools builds cache) :
      Made tools (builds ++ invocations rest) (rest.foldl (BinaryCache.apply tools) cache) := by
    induction rest generalizing builds cache with
    | nil => simpa [invocations] using made
    | cons event rest ih =>
      have stepped := ih _ _ (made.apply tools event)
      rwa [append_assoc, invocations, invocations, ← filterMap_append] at stepped
  exact run events [] [] (by intro path entry member; cases member)

theorem reused_from {a b : Invocation} (reuses : (build tools cache b).2 = .reused a) :
    ∃ entry, (binPath tools b, entry) ∈ cache ∧ entry.maker = a := by
  have produced (cache : Cache) : (produce tools cache b).2 ≠ .reused a := by
    rw [BinaryCache.produce]
    split
    · simp
    · split
      · simp
      · split
        · split
          · simp
          · split <;> simp
        · simp
  rw [build] at reuses
  split at reuses
  next entry found =>
    split at reuses
    next =>
      refine ⟨entry, ?_, Outcome.reused.inj reuses⟩
      split at found
      · cases found
      · exact lookup_member found
    next => exact absurd reuses (produced _)
  next => exact absurd reuses (produced _)

end Runs

section Reuse
variable (tools : Tools)

/-- Whether the C objects, the runtime library and the flags, which the key does not
determine, are those of the other build. -/
def Unchanged (a b : Invocation) : Prop :=
  Compiles tools b ∧
    a.linkedSources.map tools.compileCSource = b.linkedSources.map tools.compileCSource ∧
    a.library.contents = b.library.contents ∧ a.linkerFlags = b.linkerFlags

theorem objects_iff {first second : List CSource}
    (compiles : ∀ cSrc ∈ first, (tools.compileCSource cSrc).isSome = true)
    (compiles' : ∀ cSrc ∈ second, (tools.compileCSource cSrc).isSome = true) :
    first.map (fun cSrc => (tools.compileCSource cSrc).getD []) =
        second.map (fun cSrc => (tools.compileCSource cSrc).getD []) ↔
      first.map tools.compileCSource = second.map tools.compileCSource := by
  have objects {sources : List CSource}
      (all : ∀ cSrc ∈ sources, (tools.compileCSource cSrc).isSome = true) :
      sources.map tools.compileCSource =
        (sources.map fun cSrc => (tools.compileCSource cSrc).getD []).map some := by
    rw [List.map_map]
    apply map_congr_left
    intro cSrc member
    rcases isSome_iff_exists.1 (all cSrc member) with ⟨object, compiled⟩
    simp [compiled]
  rw [objects compiles, objects compiles']
  exact (List.map_inj_right fun _ _ => Option.some.inj).symm

theorem inputs_iff {a b : Invocation} (compiles : Compiles tools a)
    (same : cacheKeyData a = cacheKeyData b) :
    linkInputs tools a = linkInputs tools b ↔ Unchanged tools a b := by
  have ⟨master, level, lto, _⟩ := key_parts same
  rcases c_objects tools a with ⟨_, fails⟩ | ⟨_, first⟩
  · exact absurd compiles fails
  · rcases c_objects tools b with ⟨second, fails⟩ | ⟨compiles', second⟩
    · -- the second build would stop at a C source and link nothing
      rw [linkInputs, linkInputs, first, second]
      exact iff_of_false (by simp) fun unchanged => fails unchanged.1
    · rw [linkInputs, linkInputs, first, second, map_some, map_some,
        Option.some.injEq, LinkInputs.mk.injEq, master, level, lto,
        objects_iff tools (linked_compiles tools compiles) (linked_compiles tools compiles')]
      simp [Unchanged, compiles']

theorem reused_key {events : List Event} {a b : Invocation}
    (distinct : ∀ inv ∈ invocations events, tools.md5 (cacheKeyData inv) =
      tools.md5 (cacheKeyData b) → cacheKeyData inv = cacheKeyData b)
    (reuses : (build tools (history tools events) b).2 = .reused a) :
    Compiles tools a ∧ cacheKeyData a = cacheKeyData b := by
  rcases reused_from tools reuses with ⟨entry, member, rfl⟩
  have ⟨named, known, compiles⟩ := made_history tools events _ entry member
  exact ⟨compiles, distinct _ known (digest_of_path tools named.symm)⟩

/-- After any history, a reused binary was linked from what the build would have linked
exactly when its C sources compile as they did, the runtime library reads the same and so
do the flags. -/
theorem reuse_iff (events : List Event) (a b : Invocation)
    (distinct : ∀ inv ∈ invocations events, tools.md5 (cacheKeyData inv) =
      tools.md5 (cacheKeyData b) → cacheKeyData inv = cacheKeyData b)
    (reuses : (build tools (history tools events) b).2 = .reused a) :
    linkInputs tools a = linkInputs tools b ↔ Unchanged tools a b := by
  have ⟨compiles, same⟩ := reused_key tools distinct reuses
  exact inputs_iff tools compiles same

end Reuse

section Stale

def plainTools : Tools where
  md5 := id
  compileCSource cSrc := some cSrc.translation
  emitObjectFile := some
  linkWithCompiler _ := true

/-- A program that calls a function of `answer.c`, run without optimisation. -/
def answering (translation : Text) : Invocation where
  stage := .run
  master := ⟨"declare i32 @answer()".toList, by decide⟩
  library := ⟨"libbuiltins.a".toList, by decide, none, "ar".toList⟩
  optLevel := .O0
  useLTO := false
  useClean := false
  linkerFlags := []
  cSourceFiles := [⟨"answer.c".toList, "answer".toList, translation⟩]
  renames := true

/-- The second of two runs, with the C source edited in between. -/
theorem reuse_iff_answering :
    linkInputs plainTools (answering ['1']) = linkInputs plainTools (answering ['2']) ↔
      Unchanged plainTools (answering ['1']) (answering ['2']) :=
  reuse_iff plainTools [.build (answering ['1'])] (answering ['1']) (answering ['2'])
    (fun _ _ same => same) rfl

/-- The C source is edited between two runs, and the second runs the old binary. -/
theorem edited_source_reused :
    (∀ x y, plainTools.md5 x = plainTools.md5 y → x = y) ∧
      (build plainTools (history plainTools [.build (answering ['1'])]) (answering ['2'])).2 =
        .reused (answering ['1']) ∧
      linkInputs plainTools (answering ['1']) ≠ linkInputs plainTools (answering ['2']) :=
  ⟨fun _ _ same => same, rfl, by decide⟩

end Stale

end Lucis.BinaryCache
