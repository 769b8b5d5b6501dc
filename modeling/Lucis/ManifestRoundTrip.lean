import Lucis.BuildManifest

/-!
The manifest of cli/BuildCommand.cpp read back: an entry for each line, and which entries their
lines can carry.
-/

namespace Lucis.BuildCache
open BinaryCache (Text decimal)
open Words List Option

inductive Entry where
  | file (mark : Text) (path : Text) (seconds : Int64)
  | flags (linkerFlags : List Text)
  | hash (flagHash : Text)
  | objects (objectFiles : List Text)
  /-- another line that starts with `#` -/
  | other (line : Text)
deriving DecidableEq

section Entries

def marked (mark : Text) : Text := if mark = [] then [] else mark ++ [':']

def Entry.line : Entry → Text
  | .file mark path seconds => marked mark ++ path ++ ' ' :: decimal seconds.toInt
  | .flags linkerFlags => flagsMark ++ spaced ' ' linkerFlags
  | .hash flagHash => hashMark ++ ' ' :: flagHash
  | .objects objectFiles => objectsLine objectFiles
  | .other line => line

def fileEntries (files : Files) (mark : Text) (paths : List Text) : List Entry :=
  paths.filterMap fun path => (files path).map (.file mark path)

def entries (files : Files) (record : Record) (objectFiles : Option (List Text)) : List Entry :=
  fileEntries files [] record.units ++ fileEntries files ['C'] record.cSourceFiles ++
    fileEntries files ['A', 'S', 'M'] record.assemblySources ++
    [.flags record.linkerFlags, .hash record.flagHash] ++ (objectFiles.map .objects).toList

def parseFile (mark content : Text) : Except Stop Entry :=
  match content.dropWhile (· ≠ ' ') with
  | _ :: time =>
    match stoll time with
    | some savedMtime => .ok (.file mark (content.takeWhile (· ≠ ' ')) savedMtime)
    | none => .error .throws
  | [] => .error .differs

def parseHeader (line : Text) : Entry :=
  if flagsMark <+: line then .flags (words isBlank (line.drop 12))
  else if hashMark <+: line then
    .hash (if (line.drop 10).head? = some ' ' then line.drop 11 else line.drop 10)
  else if objectsMark <+: line then .objects (words isBlank (line.drop 12))
  else .other line

def parseLine (line : Text) : Except Stop Entry :=
  match prefixed line with
  | some content => parseFile (line.takeWhile (· ≠ ':')) content
  | none => if line.head? = some '#' then .ok (parseHeader line) else parseFile [] line

def readEntries (manifest : Text) : Except Stop (List Entry) :=
  ((lines '\n' manifest).filter (· ≠ [])).mapM parseLine

def Entry.take (files : Files) (saved : Saved) : Entry → Except Stop Saved
  | .file _ path savedMtime =>
    if files path = some savedMtime then .ok saved else .error .differs
  | .flags linkerFlags => .ok { saved with linkerFlags }
  | .hash flagHash => .ok { saved with flagHash }
  | .objects objectFiles => .ok { saved with objectFiles }
  | .other _ => .ok saved

variable {files : Files} {saved : Saved} {line : Text} {record : Record}
  {made : Option (List Text)}

theorem parseFile_take (mark content : Text) :
    (parseFile mark content).bind (Entry.take files saved) = checkFile files saved content := by
  rw [parseFile, checkFile]
  cases content.dropWhile (· ≠ ' ') with
  | nil => rfl
  | cons _ time =>
    dsimp only
    cases stoll time <;> rfl

theorem parseHeader_take :
    Entry.take files saved (parseHeader line) = .ok (readHeader saved line) := by
  rw [parseHeader, readHeader]
  split
  · rfl
  · split
    · rfl
    · split <;> rfl

theorem readLine_eq (nonempty : line ≠ []) :
    readLine files saved line = (parseLine line).bind (Entry.take files saved) := by
  rw [readLine, if_neg nonempty, parseLine]
  cases prefixed line with
  | some content => exact (parseFile_take _ content).symm
  | none =>
    dsimp only
    split
    · exact parseHeader_take.symm
    · exact (parseFile_take _ line).symm

theorem fileEntries_lines (mark : Text) (paths : List Text) :
    (fileEntries files mark paths).map Entry.line = fileLines files (marked mark) paths := by
  rw [fileEntries, fileLines, map_filterMap]
  simp only [Option.map_map]
  rfl

theorem manifestLines_eq :
    manifestLines files record made = (entries files record made).map Entry.line := by
  simp only [manifestLines, headLines, entries, map_append, fileEntries_lines]
  cases made <;> rfl

end Entries

section Legibility

def WordsKept (mark : Text) (ws : List Text) : Prop :=
  (∀ w ∈ ws, Word isBlank w ∧ '\n' ∉ w) ∧ prefixed (mark ++ spaced ' ' ws) = none

def Entry.Legible : Entry → Prop
  | .file mark path _ => ' ' ∉ path ∧ '\n' ∉ path ∧
    if mark = [] then path.head? ≠ some '#' ∧ prefixed path = none else path.head? ≠ some ':'
  | .flags linkerFlags => WordsKept flagsMark linkerFlags
  | .hash flagHash => '\n' ∉ flagHash ∧ prefixed (hashMark ++ ' ' :: flagHash) = none
  | .objects objectFiles => WordsKept objectsMark objectFiles
  | .other _ => False

def Entry.Written : Entry → Prop
  | .file mark _ _ => ':' ∉ mark ∧ '\n' ∉ mark
  | .other _ => False
  | _ => True

end Legibility

section Lines

variable {line : Text} {e : Entry} {mark content : Text}

theorem file_of_parse (parsed : parseFile mark content = .ok e) :
    ∃ seconds, e = .file mark (content.takeWhile (· ≠ ' ')) seconds := by
  rw [parseFile] at parsed
  split at parsed
  · split at parsed
    · exact ⟨_, (Except.ok.inj parsed).symm⟩
    · cases parsed
  · cases parsed

theorem parseLine_cases (parsed : parseLine line = .ok e) :
    (∃ content seconds, prefixed line = some content ∧
        e = .file (line.takeWhile (· ≠ ':')) (content.takeWhile (· ≠ ' ')) seconds) ∨
      prefixed line = none ∧ e = parseHeader line ∨
      (∃ seconds, prefixed line = none ∧ line.head? ≠ some '#' ∧
        e = .file [] (line.takeWhile (· ≠ ' ')) seconds) := by
  rw [parseLine] at parsed
  cases behind : prefixed line with
  | some content =>
    rw [behind] at parsed
    obtain ⟨seconds, rfl⟩ := file_of_parse parsed
    exact .inl ⟨content, seconds, rfl, rfl⟩
  | none =>
    rw [behind] at parsed
    dsimp only at parsed
    split at parsed
    · exact .inr (.inl ⟨rfl, (Except.ok.inj parsed).symm⟩)
    next unmarked =>
      obtain ⟨seconds, rfl⟩ := file_of_parse parsed
      exact .inr (.inr ⟨seconds, rfl, unmarked, rfl⟩)

theorem prefixed_cases (found : prefixed line = some content) :
    line.takeWhile (· ≠ ':') ≠ [] ∧ content ⊆ line := by
  rw [prefixed] at found
  split at found
  next c behind split =>
    obtain ⟨⟨nonempty, -⟩, same⟩ := ite_none_right_eq_some.1 found
    obtain rfl := Option.some.inj same
    have inside : c :: behind ⊆ line := split ▸ (dropWhile_suffix _).subset
    exact ⟨nonempty, List.Subset.trans (subset_cons_self c behind) inside⟩
  · cases found

theorem header_cases (line : Text) : (∃ ws, (∀ w ∈ ws, Word isBlank w ∧ w ⊆ line) ∧
        (parseHeader line = .flags ws ∨ parseHeader line = .objects ws)) ∨
      (∃ flagHash, flagHash ⊆ line ∧ parseHeader line = .hash flagHash) ∨
      parseHeader line = .other line := by
  have kept : ∀ w ∈ words isBlank (line.drop 12), Word isBlank w ∧ w ⊆ line :=
    fun w member =>
      ⟨words_word member, fun c inside => mem_of_mem_drop
        (splitOnP_mem (mem_filter.1 member).1 inside).1⟩
  rw [parseHeader]
  split
  · exact .inl ⟨_, kept, .inl rfl⟩
  · split
    · refine .inr (.inl ⟨_, ?_, rfl⟩)
      split <;> exact drop_subset _ _
    · split
      · exact .inl ⟨_, kept, .inr rfl⟩
      · exact .inr (.inr rfl)

variable {path : Text}

theorem header_not_file {seconds : Int64} :
    parseHeader line ≠ .file mark path seconds := by
  obtain ⟨_, -, same | same⟩ | ⟨_, -, same⟩ | same := header_cases line <;> rw [same] <;> nofun

theorem line_file {seconds : Int64} (newline : '\n' ∉ mark) :
    '\n' ∉ (Entry.file mark path seconds).line ↔ '\n' ∉ path := by
  have number : '\n' ∉ decimal seconds.toInt := BinaryCache.decimal_one_line _
  have front : '\n' ∉ marked mark := by
    rw [marked]
    split
    · exact not_mem_nil
    · simpa using newline
  simp [Entry.line, front, number]

theorem line_spaced (newline : '\n' ∉ mark) (ws : List Text) :
    '\n' ∉ mark ++ spaced ' ' ws ↔ ∀ w ∈ ws, '\n' ∉ w := by
  simp [spaced, newline]

theorem line_of_parse (nonempty : line ≠ []) (newline : '\n' ∉ line)
    (parsed : parseLine line = .ok e) : '\n' ∉ e.line ∧ e.line ≠ [] := by
  have outside {s : Text} (within : s ⊆ line) : '\n' ∉ s := fun inside => newline (within inside)
  obtain ⟨content, seconds, found, rfl⟩ | ⟨-, rfl⟩ | ⟨seconds, -, -, rfl⟩ := parseLine_cases parsed
  · have within := (prefixed_cases found).2
    refine ⟨(line_file (outside (List.takeWhile_prefix _).subset)).2 ?_, by simp [Entry.line]⟩
    exact outside (List.Subset.trans (List.takeWhile_prefix _).subset within)
  · obtain ⟨ws, kept, same⟩ | ⟨flagHash, within, same⟩ | same := header_cases line
    · have each : ∀ w ∈ ws, '\n' ∉ w := fun w at' => outside (kept w at').2
      rcases same with same | same <;> rw [same]
      · exact ⟨(line_spaced (by decide) ws).2 each, by simp [Entry.line, flagsMark]⟩
      · exact ⟨(line_spaced (by decide) ws).2 each, by simp [Entry.line, objectsLine, objectsMark]⟩
    · rw [same]
      have hash := outside within
      exact ⟨by simpa [Entry.line, hashMark] using hash, by simp [Entry.line, hashMark]⟩
    · rw [same]
      exact ⟨newline, nonempty⟩
  · have path := outside (List.takeWhile_prefix (· ≠ ' ')).subset
    exact ⟨(line_file not_mem_nil).2 path, by simp [Entry.line]⟩

theorem head_append {w rest : Text} {c : Char} (other : rest.head? ≠ some c) :
    (w ++ rest).head? = some c ↔ w.head? = some c := by
  cases w with
  | nil => simpa using other
  | cons d w => rfl

theorem prefixed_colon {w behind : Text} (absent : ':' ∉ w) :
    prefixed (w ++ ':' :: behind) = none ↔ w = [] ∨ behind.head? = some ':' := by
  have ⟨before, rest⟩ := split_at_first absent behind
  rw [prefixed, before, rest]
  simp only [ite_eq_right_iff, reduceCtorEq, imp_false, not_and_or, not_not]

theorem prefixed_append {w rest : Text} (absent : ':' ∉ rest) :
    prefixed (w ++ rest) = none ↔ prefixed w = none := by
  have other : rest.head? ≠ some ':' := fun same => absent (mem_of_mem_head? same)
  by_cases inside : ':' ∈ w
  · obtain ⟨before, behind, rfl, first⟩ := eq_append_cons_of_mem inside
    rw [append_assoc, cons_append, prefixed_colon first, prefixed_colon first, head_append other]
  · refine iff_of_true (prefixed_none ?_) (prefixed_none inside)
    rw [mem_append, not_or]
    exact ⟨inside, absent⟩

theorem number_no_colon (seconds : Int64) : ':' ∉ ' ' :: decimal seconds.toInt := by
  rw [mem_cons, not_or]
  exact ⟨by decide, decimal_no_colon _⟩

theorem parseFile_line {seconds : Int64} (blank : ' ' ∉ path) :
    parseFile mark (path ++ ' ' :: decimal seconds.toInt) = .ok (.file mark path seconds) := by
  have ⟨before, behind⟩ := split_at_first blank (decimal seconds.toInt)
  rw [parseFile, before, behind]
  simp only [stoll_decimal]

theorem blank_not_taken (taken : path = content.takeWhile (· ≠ ' ')) :
    ' ' ∉ path := by
  intro inside
  rw [taken] at inside
  have shown := mem_takeWhile_imp inside
  exact of_decide_eq_true shown rfl

theorem parse_unit_iff {seconds : Int64} :
    parseLine (path ++ ' ' :: decimal seconds.toInt) = .ok (.file [] path seconds) ↔
      ' ' ∉ path ∧ path.head? ≠ some '#' ∧ prefixed path = none := by
  have number : (' ' :: decimal seconds.toInt).head? ≠ some '#' := by simp
  rw [← @prefixed_append path _ (number_no_colon seconds), Ne, ← head_append number]
  constructor
  · intro parsed
    obtain ⟨_, _, found, same⟩ | ⟨-, same⟩ | ⟨_, alone, first, same⟩ := parseLine_cases parsed
    · injection same with marks
      exact absurd marks.symm (prefixed_cases found).1
    · exact absurd same.symm header_not_file
    · injection same with _ paths
      exact ⟨blank_not_taken paths, first, alone⟩
  · rintro ⟨blank, first, alone⟩
    rw [parseLine, alone]
    dsimp only
    rw [if_neg first, parseFile_line blank]

theorem parse_marked_iff {seconds : Int64} (nonempty : mark ≠ [])
    (colon : ':' ∉ mark) : parseLine (mark ++ ':' :: (path ++ ' ' :: decimal seconds.toInt)) =
        .ok (.file mark path seconds) ↔ ' ' ∉ path ∧ path.head? ≠ some ':' := by
  have number : (' ' :: decimal seconds.toInt).head? ≠ some ':' := by simp
  rw [Ne, ← head_append number]
  constructor
  · intro parsed
    obtain ⟨content, _, found, same⟩ | ⟨-, same⟩ | ⟨_, -, -, same⟩ := parseLine_cases parsed
    · injection same with _ paths
      refine ⟨blank_not_taken paths, fun double => ?_⟩
      have none := (prefixed_colon colon).2 (.inr double)
      rw [found] at none
      cases none
    · exact absurd same.symm header_not_file
    · injection same with marks
      exact absurd marks nonempty
  · rintro ⟨blank, single⟩
    rw [parseLine, prefixed_mark colon nonempty single, (split_at_first colon _).1]
    exact parseFile_line blank

theorem parse_words_iff {ws : List Text} (say : List Text → Entry)
    (header : parseHeader (mark ++ spaced ' ' ws) = say (words isBlank (spaced ' ' ws)))
    (first : (mark ++ spaced ' ' ws).head? = some '#')
    (told : ∀ ws', say ws = say ws' → ws = ws') (file : ∀ m p s, say ws ≠ .file m p s) :
    parseLine (mark ++ spaced ' ' ws) = .ok (say ws) ↔
      (∀ w ∈ ws, Word isBlank w) ∧ prefixed (mark ++ spaced ' ' ws) = none := by
  constructor
  · intro parsed
    obtain ⟨_, _, -, same⟩ | ⟨alone, same⟩ | ⟨_, -, -, same⟩ := parseLine_cases parsed
    · exact absurd same (file _ _ _)
    · rw [header] at same
      rw [told _ same]
      exact ⟨fun w at' => words_word at', told _ same ▸ alone⟩
    · exact absurd same (file _ _ _)
  · rintro ⟨each, alone⟩
    rw [parseLine, alone]
    dsimp only
    rw [if_pos first, header, words_spaced rfl each]

theorem parse_hash_iff {flagHash : Text} :
    parseLine (hashMark ++ ' ' :: flagHash) = .ok (.hash flagHash) ↔
      prefixed (hashMark ++ ' ' :: flagHash) = none := by
  have header : parseHeader (hashMark ++ ' ' :: flagHash) = .hash flagHash := by
    rw [parseHeader, if_neg (by simp [flagsMark, hashMark]), if_pos (prefix_append _ _)]
    rfl
  constructor
  · intro parsed
    obtain ⟨_, _, -, same⟩ | ⟨alone, -⟩ | ⟨_, -, -, same⟩ := parseLine_cases parsed
    · cases same
    · exact alone
    · cases same
  · intro alone
    rw [parseLine, alone]
    exact (if_pos rfl).trans (congrArg Except.ok header)

theorem legible_iff (written : e.Written) :
    '\n' ∉ e.line ∧ parseLine e.line = .ok e ↔ e.Legible := by
  match e with
  | .file mark path seconds =>
    rw [line_file written.2, Entry.Legible, and_left_comm (a := ' ' ∉ path)]
    refine and_congr_right fun _ => ?_
    by_cases unit : mark = []
    · subst unit
      exact parse_unit_iff
    · rw [if_neg unit, ← @parse_marked_iff mark path seconds unit written.1]
      simp [Entry.line, marked, unit]
  | .flags ws =>
    have words := @parse_words_iff flagsMark ws .flags (if_pos (prefix_append _ _)) rfl
      (fun _ => Entry.flags.inj) nofun
    rw [Entry.line, line_spaced (by decide), words, Entry.Legible, WordsKept, forall₂_and]
    tauto
  | .hash flagHash =>
    rw [Entry.Legible, ← parse_hash_iff]
    simp [Entry.line, hashMark]
  | .objects ws =>
    have header : parseHeader (objectsMark ++ spaced ' ' ws) =
        .objects (words isBlank (spaced ' ' ws)) := by
      rw [parseHeader, if_neg (by simp [flagsMark, objectsMark]),
        if_neg (by simp [hashMark, objectsMark]), if_pos (prefix_append _ _)]
      rfl
    have words := @parse_words_iff objectsMark ws .objects header rfl
      (fun _ => Entry.objects.inj) nofun
    rw [Entry.line, objectsLine, line_spaced (by decide), words, Entry.Legible, WordsKept,
      forall₂_and]
    tauto

end Lines

section RoundTrip
variable {es : List Entry} {files : Files} {record : Record} {made : Option (List Text)}

theorem mapM_ok_iff {α β ε : Type} {f : α → Except ε β} {as : List α} {bs : List β} :
    as.mapM f = .ok bs ↔ as.map f = bs.map .ok := by
  induction as generalizing bs with
  | nil => cases bs <;> simp [pure, Except.pure]
  | cons a as ih =>
    have head_rest : (a :: as).mapM f = .ok bs ↔
        ∃ b rest, f a = .ok b ∧ as.mapM f = .ok rest ∧ bs = b :: rest := by
      rw [mapM_cons]
      cases f a <;> cases as.mapM f <;> simp [bind, Except.bind, pure, Except.pure, eq_comm]
    rw [head_rest]
    cases bs with
    | nil => simp
    | cons b bs => simp [ih]

theorem written_entries : ∀ e ∈ entries files record made, e.Written := by
  have written {mark : Text} (colon : ':' ∉ mark) (newline : '\n' ∉ mark) (paths : List Text) :
      ∀ e ∈ fileEntries files mark paths, e.Written := by
    intro e member
    obtain ⟨path, -, there⟩ := mem_filterMap.1 member
    obtain ⟨seconds, -, rfl⟩ := map_eq_some_iff.1 there
    exact ⟨colon, newline⟩
  simp only [entries, forall_mem_append, forall_mem_cons]
  refine ⟨⟨⟨⟨written not_mem_nil not_mem_nil _, written (by decide) (by decide) _⟩,
    written (by decide) (by decide) _⟩, trivial, trivial, forall_mem_nil _⟩, ?_⟩
  intro e member
  obtain ⟨_, -, rfl⟩ := map_eq_some_iff.1 (mem_toList.1 member)
  exact trivial

theorem read_lines_iff : readEntries (unlines '\n' (es.map Entry.line)) = .ok es ↔
      ∀ e ∈ es, ('\n' ∉ e.line ∧ parseLine e.line = .ok e) ∧ e.line ≠ [] := by
  have lined (each : ∀ e ∈ es, '\n' ∉ e.line ∧ e.line ≠ []) :
      readEntries (unlines '\n' (es.map Entry.line)) = .ok es ↔
        ∀ e ∈ es, parseLine e.line = .ok e := by
    have read := lines_unlines (List.forall_mem_map.2 fun e at' => (each e at').1)
    have kept : (es.map Entry.line).filter (· ≠ []) = es.map Entry.line :=
      filter_eq_self.2 (List.forall_mem_map.2 fun e at' => decide_eq_true (each e at').2)
    rw [readEntries, read, filter_append, kept, filter_cons_of_neg (by simp),
      filter_nil, append_nil, mapM_ok_iff, List.map_map, map_inj_left]
    rfl
  constructor
  · intro read
    have each : ∀ e ∈ es, '\n' ∉ e.line ∧ e.line ≠ [] := by
      intro e member
      have parsed := mapM_ok_iff.1 read
      have listed : Except.ok e ∈ es.map (Except.ok (ε := Stop)) := List.mem_map_of_mem member
      rw [← parsed] at listed
      obtain ⟨line, found, parsed⟩ := List.mem_map.1 listed
      obtain ⟨found, nonempty⟩ := mem_filter.1 found
      exact line_of_parse (of_decide_eq_true nonempty) (line_solid found) parsed
    have parsed := (lined each).1 read
    exact fun e member => ⟨⟨(each e member).1, parsed e member⟩, (each e member).2⟩
  · intro each
    exact (lined fun e member => ⟨(each e member).1.1, (each e member).2⟩).2
      fun e member => (each e member).1.2

theorem line_ne_nil {e : Entry} (written : e.Written) : e.line ≠ [] := by
  match e with
  | .file _ _ _ => simp [Entry.line]
  | .flags _ => simp [Entry.line, flagsMark]
  | .hash _ => simp [Entry.line, hashMark]
  | .objects _ => simp [Entry.line, objectsLine, objectsMark]

theorem read_written_iff (written : ∀ e ∈ es, e.Written) :
    readEntries (unlines '\n' (es.map Entry.line)) = .ok es ↔ ∀ e ∈ es, e.Legible := by
  rw [read_lines_iff]
  refine forall₂_congr fun e member => ?_
  rw [legible_iff (written e member), and_iff_left (line_ne_nil (written e member))]

/-- A manifest says what was written just when each of its entries is legible. -/
theorem manifest_read_iff (files : Files) (record : Record) (made : Option (List Text)) :
    readEntries (writeManifest files record made) = .ok (entries files record made) ↔
      ∀ e ∈ entries files record made, e.Legible := by
  rw [writeManifest, manifestLines_eq, read_written_iff written_entries]

/-- `a b`, as a source file -/
def spacedUnit : Record := ⟨[['a', ' ', 'b']], [], [], [], ['7']⟩

theorem spaced_unit_throws :
    readEntries (writeManifest (fun _ => some 5) spacedUnit none) = .error .throws := by
  decide

end RoundTrip

section Reader

variable {files files' : Files} {saved saved' : Saved} {record : Record} {made : Option (List Text)}
  {es : List Entry}

theorem foldlM_parse {ls : List Text} (parsed : (ls.filter (· ≠ [])).map parseLine = es.map .ok) :
    ls.foldlM (readLine files') saved = es.foldlM (Entry.take files') saved := by
  induction ls generalizing es saved with
  | nil =>
    obtain rfl : es = [] := by simpa using parsed.symm
    rfl
  | cons line ls ih =>
    by_cases empty : line = []
    · subst empty
      rw [foldlM_cons, readLine, if_pos rfl]
      exact ih (by simpa using parsed)
    · have kept : (line :: ls).filter (· ≠ []) = line :: ls.filter (· ≠ []) :=
        filter_cons_of_pos (by simpa using empty)
      rw [kept, map_cons] at parsed
      obtain ⟨e, es, rfl⟩ := exists_cons_of_ne_nil (l := es) (by rintro rfl; cases parsed)
      obtain ⟨first, later⟩ := List.cons.inj parsed
      rw [foldlM_cons, foldlM_cons, readLine_eq empty, first]
      exact bind_congr fun _ => ih later

theorem readManifest_eq {manifest : Text} (read : readEntries manifest = .ok es) :
    readManifest files' manifest = es.foldlM (Entry.take files') ⟨[], [], []⟩ :=
  foldlM_parse (mapM_ok_iff.1 read)

variable {ws : List Text}

theorem colon_spaced (plain : ∀ w ∈ ws, Plain w) : ':' ∉ spaced ' ' ws := by
  intro member
  rcases mem_flatMap.1 member with ⟨w, listed, inside⟩
  rcases mem_cons.1 inside with same | inside
  · exact absurd same (by decide)
  · exact ((plain w listed).2.2 _ inside).2.2 rfl

variable {mark : Text}

theorem wordsKept_plain (colon : ':' ∉ mark) (plain : ∀ w ∈ ws, Plain w) : WordsKept mark ws := by
  refine ⟨fun w member => ⟨(plain w member).word, (plain w member).one_line⟩, prefixed_none ?_⟩
  rw [mem_append, not_or]
  exact ⟨colon, colon_spaced plain⟩

theorem legible_plain {path : Text} {seconds : Int64} (plain : Plain path) :
    (Entry.file mark path seconds).Legible := by
  obtain ⟨-, first, each⟩ := plain
  have colon : ':' ∉ path := fun member => (each _ member).2.2 rfl
  refine ⟨fun member => (each _ member).1 rfl, fun member => (each _ member).2.1 rfl, ?_⟩
  split
  · exact ⟨first, prefixed_none colon⟩
  · exact fun same => colon (mem_of_mem_head? same)

theorem Carried.legible (carried : Carried record made)
    (digits : ∀ c ∈ record.flagHash, c.isDigit = true) :
    ∀ e ∈ entries files record made, e.Legible := by
  obtain ⟨sources, assembly⟩ := forall_mem_append.1 carried.paths
  obtain ⟨units, cSources⟩ := forall_mem_append.1 sources
  have file (mark : Text) {paths : List Text} (plain : ∀ path ∈ paths, Plain path) :
      ∀ e ∈ fileEntries files mark paths, e.Legible := by
    intro e member
    obtain ⟨path, listed, there⟩ := mem_filterMap.1 member
    obtain ⟨seconds, -, rfl⟩ := map_eq_some_iff.1 there
    exact legible_plain (plain path listed)
  have hash : (Entry.hash record.flagHash).Legible := by
    refine ⟨fun member => absurd (digits _ member) (by decide), prefixed_none ?_⟩
    rw [mem_append, mem_cons, not_or, not_or]
    exact ⟨by decide, by decide, fun member => absurd (digits _ member) (by decide)⟩
  simp only [entries, forall_mem_append, forall_mem_cons]
  refine ⟨⟨⟨⟨file _ units, file _ cSources⟩, file _ assembly⟩,
    wordsKept_plain (by decide) carried.flags, hash, forall_mem_nil _⟩, ?_⟩
  intro e member
  obtain ⟨names, given, rfl⟩ := map_eq_some_iff.1 (mem_toList.1 member)
  exact wordsKept_plain (by decide) (carried.objects names given)

theorem take_files {paths : List Text} {rest : List Entry}
    (taken : (fileEntries files mark paths ++ rest).foldlM (Entry.take files') saved = .ok saved') :
    rest.foldlM (Entry.take files') saved = .ok saved' ∧ ∀ path ∈ paths, ∀ seconds,
      files path = some seconds → files' path = some seconds := by
  induction paths with
  | nil => exact ⟨taken, nofun⟩
  | cons path paths ih =>
    cases there : files path with
    | none =>
      rw [fileEntries, filterMap_cons_none (by rw [there]; rfl)] at taken
      have ⟨left, seen⟩ := ih taken
      refine ⟨left, forall_mem_cons.2 ⟨fun _ found => ?_, seen⟩⟩
      rw [there] at found
      cases found
    | some seconds =>
      rw [fileEntries, filterMap_cons_some (by rw [there]; rfl), cons_append,
        foldlM_cons, Entry.take] at taken
      split at taken
      next same =>
        have ⟨left, seen⟩ := ih taken
        refine ⟨left, forall_mem_cons.2 ⟨fun other found => ?_, seen⟩⟩
        rw [same, ← there, found]
      next => cases taken

theorem read_writeManifest (carried : Carried record made)
    (digits : ∀ c ∈ record.flagHash, c.isDigit = true)
    (read : readManifest files' (writeManifest files record made) = .ok saved) :
    saved = ⟨record.linkerFlags, made.getD [], record.flagHash⟩ ∧
      ∀ path ∈ record.paths, ∀ seconds, files path = some seconds → files' path = some seconds := by
  have legible : ∀ e ∈ entries files record made, e.Legible := carried.legible digits
  have whole := (read_written_iff written_entries).2 legible
  rw [writeManifest, manifestLines_eq, readManifest_eq whole] at read
  simp only [entries, append_assoc] at read
  obtain ⟨read, units⟩ := take_files read
  obtain ⟨read, cSources⟩ := take_files read
  obtain ⟨read, assembly⟩ := take_files read
  refine ⟨?_, forall_mem_append.2 ⟨forall_mem_append.2 ⟨units, cSources⟩, assembly⟩⟩
  cases made <;> exact (Except.ok.inj read).symm

end Reader

end Lucis.BuildCache
