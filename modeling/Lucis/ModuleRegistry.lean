import Mathlib.Data.List.DropRight

/-!
Linker symbols of namespace/ModuleRegistry.cpp. A module path and a function
name are texts; every separator is one byte, so characters stand for bytes.
Only functions outside the standard library keep their plain name, and that
choice is made by the callers of `mangle`, which is not modelled here.

`spelling` is what a linker symbol keeps of a module path, said in terms of its
words; which pairs of functions share a symbol is then a question about words.
-/

namespace Lucis.ModuleRegistry

open List

abbrev Text := List Char

def mainName : Text := ['m', 'a', 'i', 'n']

/-- What `mangle` puts between the module path and the function name. -/
def joint : Text := ['_', '_']

def isSeparator (c : Char) : Bool :=
  c == '/' || c == ':' || c == '\\'

/-- One turn of the loop of `mangle`: `result` and `lastSep`. -/
def mangleStep (state : Text × Bool) (c : Char) : Text × Bool :=
  if isSeparator c then
    if state.2 then state else (state.1 ++ ['_'], true)
  else (state.1 ++ [c], false)

def popUnderscores (result : Text) : Text :=
  result.rdropWhile (· == '_')

def mangle (modulePath name : Text) : Text :=
  if name = mainName then mainName
  else popUnderscores (modulePath.foldl mangleStep ([], false)).1 ++ joint ++ name

/-- One turn of the second loop of `usePathToModulePath`: `collapsed` and `lastSlash`. -/
def collapseStep (state : Text × Bool) (c : Char) : Text × Bool :=
  if c = '/' then
    if state.2 then state else (state.1 ++ ['/'], true)
  else (state.1 ++ [c], false)

def usePathToModulePath (usePath : Text) : Text :=
  ((usePath.map fun c => if c = ':' then '/' else c).foldl collapseStep ([], false)).1

/-! The words of a module path and what a symbol shows of them. -/

def joinWords (words : List Text) : Text :=
  (words.filter (· ≠ [])).flatMap ('_' :: ·)

def spelling (modulePath : Text) : Text :=
  match modulePath.splitOnP isSeparator with
  | [] => []
  | first :: rest => popUnderscores (first ++ joinWords rest)

/-- The symbol of one function read as the symbol of another: the spelling of
the second path goes on where the first one stops, by a word that the first
name begins with. -/
def Absorbs (path name path' name' : Text) : Prop :=
  ∃ word, word ≠ [] ∧ path' = path ++ joint ++ word ∧ name = word ++ joint ++ name'

def Clash (path name path' name' : Text) : Prop :=
  (spelling path = spelling path' ∧ name = name') ∨
    Absorbs (spelling path) name (spelling path') name' ∨
    Absorbs (spelling path') name' (spelling path) name

section Loops

/-- What the loop of `mangle` appends, by recursion on the path. -/
def flattened : Bool → Text → Text
  | _, [] => []
  | lastSep, c :: path =>
    if isSeparator c then
      if lastSep then flattened true path else '_' :: flattened true path
    else c :: flattened false path

theorem mangle_loop (path result : Text) (lastSep : Bool) :
    (path.foldl mangleStep (result, lastSep)).1 = result ++ flattened lastSep path := by
  induction path generalizing result lastSep with
  | nil => simp [flattened]
  | cons c path ih =>
    rw [foldl_cons, mangleStep, flattened]
    split
    · cases lastSep <;> simp [ih]
    · simp [ih]

theorem popUnderscores_concat (result : Text) : popUnderscores (result ++ ['_']) = popUnderscores result :=
  rdropWhile_concat_pos _ _ _ rfl

theorem popUnderscores_last (result front : Text) : popUnderscores result ≠ front ++ ['_'] := by
  intro trailing
  have last := rdropWhile_last_not (· == '_') result
  simp only [popUnderscores] at trailing
  simp [trailing] at last

/-- The loop writes the words of the path, up to underscores that are popped.
After a separator the underscore is already there, so the first word counts too. -/
theorem flattened_words (path : Text) (result first : Text) (rest : List Text)
    (words : path.splitOnP isSeparator = first :: rest) :
    popUnderscores (result ++ flattened false path) =
        popUnderscores (result ++ first ++ joinWords rest) ∧
      popUnderscores (result ++ '_' :: flattened true path) =
        popUnderscores (result ++ joinWords (first :: rest)) := by
  induction path generalizing result first rest with
  | nil =>
    rw [splitOnP_nil, List.cons.injEq] at words
    rcases words with ⟨rfl, rfl⟩
    simp [flattened, joinWords, popUnderscores_concat]
  | cons c path ih =>
    rcases later : path.splitOnP isSeparator with - | ⟨next, tail⟩
    · exact absurd later (splitOnP_ne_nil _ _)
    rw [splitOnP_cons_eq_if_modifyHead, later] at words
    by_cases separator : isSeparator c = true
    · simp only [separator, if_true, List.cons.injEq] at words
      rcases words with ⟨rfl, rfl⟩
      have after := (ih result next tail later).2
      constructor
      · simpa [flattened, separator] using after
      · simpa [flattened, separator, joinWords] using after
    · simp only [separator, Bool.false_eq_true, if_false, modifyHead_cons, List.cons.injEq] at words
      rcases words with ⟨rfl, rfl⟩
      constructor
      · have inside := (ih (result ++ [c]) next tail later).1
        simpa [flattened, separator] using inside
      · have inside := (ih (result ++ ['_', c]) next tail later).1
        simpa [flattened, separator, joinWords] using inside

theorem mangle_spelling (path name : Text) (ordinary : name ≠ mainName) :
    mangle path name = spelling path ++ joint ++ name := by
  rcases words : path.splitOnP isSeparator with - | ⟨first, rest⟩
  · exact absurd words (splitOnP_ne_nil _ _)
  · have written := (flattened_words path [] first rest words).1
    simp only [mangle, if_neg ordinary, mangle_loop, spelling, words]
    simpa using written

end Loops

section Injectivity

theorem spelling_last (path front : Text) : spelling path ≠ front ++ ['_'] := by
  unfold spelling
  split
  · simp
  · exact popUnderscores_last _ _

theorem absorbs_of_prefix {path name path' name' extra : Text}
    (ends : ∀ front, path' ≠ front ++ ['_']) (longer : path' = path ++ extra)
    (names : joint ++ name = extra ++ (joint ++ name')) :
    (path = path' ∧ name = name') ∨ Absorbs path name path' name' := by
  rcases extra with - | ⟨a, - | ⟨b, word⟩⟩
  · simp only [append_nil, nil_append, append_cancel_left_eq] at longer names
    exact .inl ⟨longer.symm, names⟩
  · simp only [joint, cons_append, List.cons.injEq] at names
    rw [← names.1] at longer
    exact absurd longer (ends path)
  · simp only [joint, cons_append, nil_append, List.cons.injEq] at names
    rcases names with ⟨rfl, rfl, rest⟩
    have proper : word ≠ [] := by
      rintro rfl
      exact ends (path ++ ['_']) (by simpa using longer)
    exact .inr ⟨word, proper, by simpa [joint] using longer, by simpa [joint] using rest⟩

theorem joint_eq_iff {path name path' name' : Text} (ends : ∀ front, path ≠ front ++ ['_'])
    (ends' : ∀ front, path' ≠ front ++ ['_']) : path ++ joint ++ name = path' ++ joint ++ name' ↔
      (path = path' ∧ name = name') ∨ Absorbs path name path' name' ∨
        Absorbs path' name' path name := by
  constructor
  · intro same
    rw [append_assoc, append_assoc, append_eq_append_iff] at same
    rcases same with ⟨extra, longer, names⟩ | ⟨extra, longer, names⟩
    · rcases absorbs_of_prefix ends' longer names with equal | absorbed
      · exact .inl equal
      · exact .inr (.inl absorbed)
    · rcases absorbs_of_prefix ends longer names with equal | absorbed
      · exact .inl ⟨equal.1.symm, equal.2.symm⟩
      · exact .inr (.inr absorbed)
  · rintro (⟨rfl, rfl⟩ | ⟨word, _, rfl, rfl⟩ | ⟨word, _, rfl, rfl⟩)
    · rfl
    · simp
    · simp

/-- Two different functions get different linker symbols exactly when they do not clash. -/
theorem mangle_injective_iff (path name path' name' : Text) (ordinary : name ≠ mainName)
    (ordinary' : name' ≠ mainName) :
    ((path, name) ≠ (path', name') → mangle path name ≠ mangle path' name') ↔
      ((path, name) ≠ (path', name') → ¬ Clash path name path' name') := by
  have symbols : spelling path ++ joint ++ name = spelling path' ++ joint ++ name' ↔ _ :=
    joint_eq_iff (spelling_last path) (spelling_last path')
  rw [mangle_spelling path name ordinary, mangle_spelling path' name' ordinary']
  simp only [ne_eq, symbols, Clash]

theorem mangle_injective_iff_stdio :
    ((['s', 't', 'd', '/', 'i', 'o'], ['f']) ≠ ((['s', 't', 'd'], ['f']) : Text × Text) →
        mangle ['s', 't', 'd', '/', 'i', 'o'] ['f'] ≠ mangle ['s', 't', 'd'] ['f']) ↔
      ((['s', 't', 'd', '/', 'i', 'o'], ['f']) ≠ ((['s', 't', 'd'], ['f']) : Text × Text) →
        ¬ Clash ['s', 't', 'd', '/', 'i', 'o'] ['f'] ['s', 't', 'd'] ['f']) :=
  mangle_injective_iff ['s', 't', 'd', '/', 'i', 'o'] ['f'] ['s', 't', 'd'] ['f']
    (by decide) (by decide)

/-- `use a::b` and `use a_b` name two modules whose functions share a symbol. -/
theorem mangle_not_injective :
    ¬ ∀ path name path' name' : Text, name ≠ mainName → name' ≠ mainName →
      (path, name) ≠ (path', name') → mangle path name ≠ mangle path' name' := by
  intro injective
  have paths : (usePathToModulePath ['a', ':', ':', 'b'], ['f']) ≠
      (usePathToModulePath ['a', '_', 'b'], ['f']) := by decide
  exact injective _ _ _ _ (by decide) (by decide) paths (by decide)

end Injectivity

end Lucis.ModuleRegistry
