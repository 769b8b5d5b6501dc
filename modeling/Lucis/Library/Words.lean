import Mathlib.Data.List.TakeWhile

/-!
Texts read word by word and line by line: the words of a line that was written with a
separator before each word are those that were written, whatever follows, and the lines of
a text are those that it was put together from. Numbers are read digit by digit.
-/

namespace Words

open List

section Words
variable {α : Type} (space : α → Bool)

def readWord (s : List α) : List α × List α :=
  let s := s.dropWhile space
  (s.takeWhile fun c => !space c, s.dropWhile fun c => !space c)

def words (s : List α) : List (List α) := (s.splitOnP space).filter fun w => !w.isEmpty

def spaced (sep : α) (ws : List (List α)) : List α := ws.flatMap fun w => sep :: w

def Solid (w : List α) : Prop := ∀ c ∈ w, space c = false

def Word (w : List α) : Prop := w ≠ [] ∧ Solid space w

instance (w : List α) : Decidable (Solid space w) :=
  inferInstanceAs (Decidable (∀ c ∈ w, space c = false))

instance [DecidableEq α] (w : List α) : Decidable (Word space w) :=
  inferInstanceAs (Decidable (w ≠ [] ∧ Solid space w))

variable {space}

variable {w : List α} {c : α}

theorem solid_cons :
    Solid space (c :: w) ↔ space c = false ∧ Solid space w := forall_mem_cons

theorem solid_of_takeWhile (s : List α) : Solid space (s.takeWhile fun c => !space c) := by
  intro c member
  simpa using mem_takeWhile_imp member

theorem readWord_solid (s : List α) : Solid space (readWord space s).1 := solid_of_takeWhile _

variable {s : List α}

theorem readWord_nonempty (member : c ∈ s) (seen : space c = false) :
    (readWord space s).1 ≠ [] := by
  induction s with
  | nil => cases member
  | cons d s ih =>
    cases first : space d with
    | true =>
      have later : c ∈ s := by
        rcases mem_cons.1 member with rfl | later
        · rw [seen] at first
          cases first
        · exact later
      simpa [readWord, first] using ih later
    | false => simp [readWord, first]

theorem readWord_append {rest : List α} (word : Word space w)
    (ends : ∀ c ∈ rest.head?, space c = true) : readWord space (w ++ rest) = (w, rest) := by
  rcases word with ⟨nonempty, solid⟩
  cases w with
  | nil => exact absurd rfl nonempty
  | cons c w =>
    have start : ((c :: w) ++ rest).dropWhile space = (c :: w) ++ rest := by
      simp [(solid_cons.1 solid).1]
    have all : ∀ d ∈ c :: w, (!space d) = true := fun d member => by simp [solid d member]
    have stops : rest.takeWhile (fun d => !space d) = [] ∧
        rest.dropWhile (fun d => !space d) = rest := by
      cases rest with
      | nil => exact ⟨rfl, rfl⟩
      | cons d rest =>
        have sep := ends d rfl
        simp [sep]
    rw [readWord, start, takeWhile_append_of_pos all, dropWhile_append_of_pos all,
      stops.1, stops.2, append_nil]

variable {sep : α}

variable (sepSpace : space sep = true)
include sepSpace

theorem readWord_skip (s : List α) :
    readWord space (sep :: s) = readWord space s := by
  simp [readWord, sepSpace]

omit sepSpace in
theorem spaced_cons (sep : α) (w : List α) (ws : List (List α)) :
    spaced sep (w :: ws) = sep :: (w ++ spaced sep ws) := rfl

theorem spaced_ends (ws : List (List α)) :
    ∀ c ∈ (spaced sep ws).head?, space c = true := by
  cases ws with
  | nil => simp [spaced]
  | cons w ws => simp [spaced, sepSpace]

variable {ws : List (List α)}

theorem readWord_spaced (word : Word space w) :
    readWord space (spaced sep (w :: ws)) = (w, spaced sep ws) := by
  rw [spaced_cons, readWord_skip sepSpace, readWord_append word (spaced_ends sepSpace ws)]

theorem readWord_filled (solid : ∀ w ∈ ws, Solid space w) {n : Nat}
    (count : n < (ws.filter fun w => !w.isEmpty).length) :
    (readWord space (spaced sep ws)).1 ≠ [] ∧ ∃ rest, (∀ w ∈ rest, Solid space w) ∧
      n ≤ (rest.filter fun w => !w.isEmpty).length ∧
      (readWord space (spaced sep ws)).2 = spaced sep rest := by
  induction ws with
  | nil => simp at count
  | cons w ws ih =>
    have ⟨first, later⟩ := forall_mem_cons.1 solid
    cases w with
    | nil =>
      rw [spaced_cons, readWord_skip sepSpace]
      exact ih later (by simpa using count)
    | cons c w =>
      rw [readWord_spaced sepSpace ⟨by simp, first⟩]
      have left : n ≤ (ws.filter fun w => !w.isEmpty).length := by
        rw [filter_cons_of_pos (by rfl), length_cons] at count
        exact Nat.le_of_lt_succ count
      exact ⟨by simp, ws, later, left, rfl⟩

theorem words_spaced
    (all : ∀ w ∈ ws, Word space w) : words space (spaced sep ws) = ws := by
  have behind (ws : List (List α)) (all : ∀ w ∈ ws, Word space w) :
      (spaced sep ws).splitOnP space = [] :: ws := by
    induction ws with
    | nil => simp [spaced]
    | cons w ws ih =>
      have ⟨word, later⟩ := forall_mem_cons.1 all
      have rest := ih later
      rw [spaced_cons, splitOnP_cons_eq_if_modifyHead, if_pos sepSpace]
      cases ws with
      | nil => simp [spaced, splitOnP_eq_singleton word.2]
      | cons next ws =>
        rw [spaced_cons, splitOnP_cons_eq_if_modifyHead, if_pos sepSpace] at rest
        rw [spaced_cons, splitOnP_append_cons _ _ sepSpace,
          splitOnP_eq_singleton word.2, (List.cons.inj rest).2]
        rfl
  rw [words, behind ws all]
  simpa using fun w member => (all w member).1

omit sepSpace

theorem splitOnP_mem (member : w ∈ s.splitOnP space) {d : α} (inside : d ∈ w) :
    d ∈ s ∧ space d = false := by
  induction s generalizing w with
  | nil =>
    rw [splitOnP_nil, mem_singleton] at member
    rw [member] at inside
    cases inside
  | cons c s ih =>
    rw [splitOnP_cons_eq_if_modifyHead] at member
    have later {w : List α} (member : w ∈ s.splitOnP space) (inside : d ∈ w) :=
      (ih member inside).imp_left (mem_cons_of_mem c)
    cases here : space c with
    | true =>
      rw [if_pos here] at member
      rcases mem_cons.1 member with rfl | member
      · cases inside
      · exact later member inside
    | false =>
      rw [if_neg (by simp [here])] at member
      cases parts : s.splitOnP space with
      | nil => exact absurd parts (splitOnP_ne_nil space s)
      | cons first rest =>
        rw [parts] at later member
        rcases mem_cons.1 member with rfl | member
        · rcases mem_cons.1 inside with rfl | inside
          · exact ⟨.head _, here⟩
          · exact later (.head _) inside
        · exact later (.tail _ member) inside

theorem splitOnP_solid (member : w ∈ s.splitOnP space) : Solid space w :=
  fun _ inside => (splitOnP_mem member inside).2

theorem words_word (member : w ∈ words space s) : Word space w := by
  rw [words, mem_filter] at member
  exact ⟨by simpa using member.2, splitOnP_solid member.1⟩

end Words

section Lines
variable {α : Type} [DecidableEq α] (newline : α)

def lines (text : List α) : List (List α) := text.splitOnP fun c => decide (c = newline)

def unlines (ls : List (List α)) : List α := ls.flatMap fun l => l ++ [newline]

variable {newline}

theorem line_solid {text l : List α} (member : l ∈ lines newline text) : newline ∉ l := by
  intro within
  have solid := splitOnP_solid member newline within
  simp at solid

theorem lines_unlines {ls} (all : ∀ l ∈ ls, newline ∉ l) :
    lines newline (unlines newline ls) = ls ++ [[]] := by
  induction ls with
  | nil => simp [lines, unlines]
  | cons l ls ih =>
    have ⟨first, later⟩ := forall_mem_cons.1 all
    have rest := ih later
    have shape : unlines newline (l :: ls) = l ++ newline :: unlines newline ls := by
      simp [unlines]
    have alone : ∀ c ∈ l, decide (c = newline) = false := by
      intro c member
      rw [decide_eq_false_iff_not]
      rintro rfl
      exact first member
    have split := @splitOnP_append_cons _ (fun c => decide (c = newline)) l
      (unlines newline ls) newline (decide_eq_true rfl)
    rw [shape, lines, split, splitOnP_eq_singleton alone]
    exact congrArg (l :: ·) rest

end Lines

section Numbers

def readSign : List Char → Bool × List Char
  | '-' :: s => (true, s)
  | '+' :: s => (false, s)
  | s => (false, s)

def readNumber (s : List Char) : Option (Bool × Nat) × List Char :=
  let (negative, s) := readSign s
  let digits := s.takeWhile Char.isDigit
  if digits.isEmpty then (none, [])
  else (some (negative, Nat.ofDigitChars 10 digits 0), s.dropWhile Char.isDigit)

variable {c : Char}

theorem readSign_digit (s : List Char) (digit : c.isDigit = true) :
    readSign (c :: s) = (false, c :: s) := by
  have minus : c ≠ '-' := by
    rintro rfl
    exact absurd digit (by decide)
  have plus : c ≠ '+' := by
    rintro rfl
    exact absurd digit (by decide)
  simp [readSign, minus, plus]

theorem digit_of_toDigits {n : Nat} (member : c ∈ Nat.toDigits 10 n) :
    c.isDigit = true := Nat.isDigit_of_mem_toDigits (by decide) (by decide) member

theorem readNumber_toDigits (n : Nat) {rest : List Char}
    (ends : ∀ c ∈ rest.head?, c.isDigit = false) :
    readNumber (Nat.toDigits 10 n ++ rest) = (some (false, n), rest) := by
  have all : ∀ c ∈ Nat.toDigits 10 n, c.isDigit = true := fun c => digit_of_toDigits
  have stops : rest.takeWhile Char.isDigit = [] ∧ rest.dropWhile Char.isDigit = rest := by
    cases rest with
    | nil => exact ⟨rfl, rfl⟩
    | cons c rest =>
      have other := ends c rfl
      simp [other]
  have taken : (Nat.toDigits 10 n ++ rest).takeWhile Char.isDigit = Nat.toDigits 10 n := by
    rw [takeWhile_append_of_pos all, stops.1, append_nil]
  have dropped : (Nat.toDigits 10 n ++ rest).dropWhile Char.isDigit = rest := by
    rw [dropWhile_append_of_pos all, stops.2]
  cases written : Nat.toDigits 10 n with
  | nil => exact absurd written Nat.toDigits_ne_nil
  | cons c digits =>
    have digit := all c (by rw [written]; exact .head _)
    rw [written] at taken dropped
    rw [readNumber, cons_append, readSign_digit _ digit, ← cons_append]
    dsimp only
    rw [taken, dropped, ← written, Nat.ofDigitChars_ten_toDigits, written]
    rfl

theorem readNumber_minus (digit : c.isDigit = true) (s : List Char) :
    readNumber ('-' :: c :: s) =
      ((readNumber (c :: s)).1.map fun read => (true, read.2), (readNumber (c :: s)).2) := by
  have shown : (c :: s).takeWhile Char.isDigit = c :: s.takeWhile Char.isDigit := by
    rw [takeWhile_cons_of_pos digit]
  rw [readNumber, readNumber, readSign_digit s digit, readSign]
  dsimp only
  rw [shown]
  rfl

end Numbers

end Words
