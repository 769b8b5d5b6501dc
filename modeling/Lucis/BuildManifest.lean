import Mathlib.Algebra.Ring.Int.Defs
import Mathlib.Algebra.Ring.Nat
import Lucis.BinaryCache
import Lucis.Library.Words

/-!
The manifest of the incremental build in cli/BuildCommand.cpp: the lines that a build writes,
and how the next one reads them. A file is known by the second it was written at, which stands
for what it holds: every edit gives a file another one.
-/

namespace Lucis.BuildCache
open BinaryCache (Text decimal)
open Words List

abbrev Files := Text → Option Int64

section Writing
variable (files : Files)

def fileLines (mark : Text) (paths : List Text) : List Text :=
  paths.filterMap fun path => (files path).map fun seconds =>
    mark ++ path ++ ' ' :: decimal seconds.toInt

def cMark : Text := ['C', ':']
def asmMark : Text := ['A', 'S', 'M', ':']
def flagsMark : Text := ['#', 'l', 'i', 'n', 'k', 'e', 'r', 'F', 'l', 'a', 'g', 's']
def hashMark : Text := ['#', 'b', 'u', 'i', 'l', 'd', 'H', 'a', 's', 'h']
def objectsMark : Text := ['#', 'o', 'b', 'j', 'e', 'c', 't', 'F', 'i', 'l', 'e', 's']

structure Record where
  units : List Text
  cSourceFiles : List Text
  assemblySources : List Text
  linkerFlags : List Text
  flagHash : Text
deriving DecidableEq

def Record.paths (record : Record) : List Text :=
  record.units ++ record.cSourceFiles ++ record.assemblySources

def headLines (record : Record) : List Text :=
  fileLines files [] record.units ++ fileLines files cMark record.cSourceFiles ++
    fileLines files asmMark record.assemblySources ++
    [flagsMark ++ spaced ' ' record.linkerFlags, hashMark ++ ' ' :: record.flagHash]

def objectsLine (objectFiles : List Text) : Text := objectsMark ++ spaced ' ' objectFiles

end Writing

section Reading

structure Saved where
  linkerFlags : List Text
  objectFiles : List Text
  flagHash : Text
deriving DecidableEq

/-- Why reading stops: a file is another one than was recorded, or `std::stoll` throws. -/
inductive Stop where
  | differs
  | throws
deriving DecidableEq

def isBlank (c : Char) : Bool := c = ' '

def isSpace (c : Char) : Bool := c ∈ [' ', '\t', '\n', '\x0b', '\x0c', '\r']

/-- `std::stoll`, `none` when it throws. -/
def stoll (s : Text) : Option Int64 :=
  match (readNumber (s.dropWhile isSpace)).1 with
  | none => none
  | some (negative, size) =>
    let value : Int := if negative then -size else size
    if -2 ^ 63 ≤ value ∧ value < 2 ^ 63 then some (Int64.ofInt value) else none

/-- `path mtime`, against the file that is there now. -/
def checkFile (files : Files) (saved : Saved) (content : Text) : Except Stop Saved :=
  match content.dropWhile (· ≠ ' ') with
  | _ :: time =>
    match stoll time with
    | some savedMtime =>
      if files (content.takeWhile (· ≠ ' ')) = some savedMtime then .ok saved
      else .error .differs
    | none => .error .throws
  | [] => .error .differs

/-- What stands behind the first colon, if it is not at the start and not a double one. -/
def prefixed (line : Text) : Option Text :=
  match line.dropWhile (· ≠ ':') with
  | _ :: content =>
    if line.takeWhile (· ≠ ':') ≠ [] ∧ content.head? ≠ some ':' then some content else none
  | [] => none

def readHeader (saved : Saved) (line : Text) : Saved :=
  if flagsMark <+: line then { saved with linkerFlags := words isBlank (line.drop 12) }
  else if hashMark <+: line then
    { saved with flagHash := if (line.drop 10).head? = some ' ' then line.drop 11 else line.drop 10 }
  else if objectsMark <+: line then { saved with objectFiles := words isBlank (line.drop 12) }
  else saved

def readLine (files : Files) (saved : Saved) (line : Text) : Except Stop Saved :=
  if line = [] then .ok saved
  else
    match prefixed line with
    | some content => checkFile files saved content
    | none =>
      if line.head? = some '#' then .ok (readHeader saved line)
      else checkFile files saved line

def readManifest (files : Files) (manifest : Text) : Except Stop Saved :=
  (lines '\n' manifest).foldlM (readLine files) ⟨[], [], []⟩

end Reading

section Names

def Plain (name : Text) : Prop :=
  name ≠ [] ∧ name.head? ≠ some '#' ∧ ∀ c ∈ name, c ≠ ' ' ∧ c ≠ '\n' ∧ c ≠ ':'

instance (name : Text) : Decidable (Plain name) :=
  -- over the characters of the name, not over all there are
  have : Decidable (∀ c ∈ name, c ≠ ' ' ∧ c ≠ '\n' ∧ c ≠ ':') := List.decidableBAll _ name
  inferInstanceAs (Decidable (_ ∧ _ ∧ _))

variable {files : Files} {saved : Saved} {name : Text}

theorem Plain.word (plain : Plain name) : Word isBlank name :=
  ⟨plain.1, fun c member => decide_eq_false (plain.2.2 c member).1⟩

theorem Plain.one_line (plain : Plain name) : '\n' ∉ name :=
  fun member => (plain.2.2 _ member).2.1 rfl

theorem decimal_chars {value : Int} {c : Char} (member : c ∈ decimal value) :
    c = '-' ∨ c.isDigit = true := by
  rw [decimal] at member
  split at member
  · rcases mem_cons.1 member with sign | digit
    · exact .inl sign
    · exact .inr (digit_of_toDigits digit)
  · exact .inr (digit_of_toDigits member)

theorem decimal_no_colon (value : Int) : ':' ∉ decimal value := by
  intro member
  rcases decimal_chars member with sign | digit
  · exact absurd sign (by decide)
  · exact absurd digit (by decide)

theorem readNumber_decimal (value : Int) :
    readNumber (decimal value) = (some (decide (value < 0), value.natAbs), []) := by
  have plain := @readNumber_toDigits value.natAbs [] (by simp)
  rw [append_nil] at plain
  rw [decimal]
  split
  next negative =>
    cases digits : Nat.toDigits 10 value.natAbs with
    | nil => exact absurd digits Nat.toDigits_ne_nil
    | cons c rest =>
      have digit : c.isDigit = true := digit_of_toDigits (digits ▸ mem_cons_self)
      rw [digits] at plain
      rw [readNumber_minus digit, plain, decide_eq_true negative]
      rfl
  next positive => rw [plain, decide_eq_false positive]

theorem stoll_decimal (seconds : Int64) : stoll (decimal seconds.toInt) = some seconds := by
  have least := seconds.le_toInt
  have most := seconds.toInt_lt
  have start : (decimal seconds.toInt).dropWhile isSpace = decimal seconds.toInt := by
    cases written : decimal seconds.toInt with
    | nil => rfl
    | cons c rest =>
      have shown : isSpace c = false := by
        rcases decimal_chars (written ▸ mem_cons_self) with sign | digit
        · rw [sign]
          rfl
        · rw [isSpace, decide_eq_false_iff_not]
          intro blank
          simp only [mem_cons, not_mem_nil, or_false] at blank
          rcases blank with rfl | rfl | rfl | rfl | rfl | rfl <;> exact absurd digit (by decide)
      rw [dropWhile_cons_of_neg (by simp [shown])]
  have value : (if decide (seconds.toInt < 0) = true then -(seconds.toInt.natAbs : Int)
      else seconds.toInt.natAbs) = seconds.toInt := by
    simp only [decide_eq_true_eq]
    split <;> omega
  rw [stoll, start, readNumber_decimal]
  dsimp only
  rw [value, if_pos ⟨least, most⟩, Int64.ofInt_toInt]

end Names

section Lines

theorem split_at_first {w : Text} {c : Char} (absent : c ∉ w) (rest : Text) :
    (w ++ c :: rest).takeWhile (· ≠ c) = w ∧ (w ++ c :: rest).dropWhile (· ≠ c) = c :: rest := by
  have all : ∀ d ∈ w, decide (d ≠ c) = true := by
    intro d member
    rw [decide_eq_true_eq]
    rintro rfl
    exact absent member
  rw [takeWhile_append_of_pos all, dropWhile_append_of_pos all]
  simp

theorem prefixed_none {line : Text} (absent : ':' ∉ line) : prefixed line = none := by
  have whole : line.dropWhile (· ≠ ':') = [] := by
    rw [dropWhile_eq_nil_iff]
    intro c member
    rw [decide_eq_true_eq]
    rintro rfl
    exact absent member
  rw [prefixed, whole]

theorem prefixed_mark {mark : Text} (absent : ':' ∉ mark) (nonempty : mark ≠ []) {content : Text}
    (single : content.head? ≠ some ':') : prefixed (mark ++ ':' :: content) = some content := by
  have ⟨before, behind⟩ := split_at_first absent content
  rw [prefixed, before, behind]
  exact if_pos ⟨nonempty, single⟩

end Lines

section Manifest

/-- What the manifest of a record holds, with the objects of a build that was finished. -/
def manifestLines (files : Files) (record : Record) (objectFiles : Option (List Text)) :
    List Text :=
  headLines files record ++ (objectFiles.map objectsLine).toList

def writeManifest (files : Files) (record : Record) (objectFiles : Option (List Text)) : Text :=
  unlines '\n' (manifestLines files record objectFiles)

structure Carried (record : Record) (objectFiles : Option (List Text)) : Prop where
  paths : ∀ path ∈ record.paths, Plain path
  flags : ∀ flag ∈ record.linkerFlags, Plain flag
  objects : ∀ names ∈ objectFiles, ∀ object ∈ names, Plain object

theorem append_objects {files : Files} {record : Record} {objectFiles : List Text} :
    writeManifest files record none ++ (objectsLine objectFiles ++ ['\n']) =
      writeManifest files record (some objectFiles) := by
  simp [writeManifest, manifestLines, unlines]

end Manifest

end Lucis.BuildCache
