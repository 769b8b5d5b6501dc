import Mathlib.Algebra.Ring.Nat
import Mathlib.Data.List.Basic

/-!
Lexical resolution of separated paths over any alphabet with a separator and a
dot. A path denotes a location: whether it starts at the root, how many levels
it climbs above its start, and the names it then descends. Locations carry their
well-formedness, and `render` writes the one canonical path of each.
-/

namespace LexicalPath

universe u

variable {A : Type u} [DecidableEq A] (sep dot : A)

def segments : List A → List (List A)
  | [] => []
  | c :: rest =>
    if c = sep then segments rest
    else if rest.head? = none ∨ rest.head? = some sep then [c] :: segments rest
    else (segments rest).modifyHead (c :: ·)

def Proper (name : List A) : Prop :=
  name ≠ [] ∧ sep ∉ name ∧ name ≠ [dot] ∧ name ≠ [dot, dot]

instance (name : List A) : Decidable (Proper sep dot name) :=
  inferInstanceAs (Decidable (_ ∧ _ ∧ _ ∧ _))

@[ext] structure Location where
  absolute : Bool
  ups : Nat
  names : List (List A)
  rooted : absolute = true → ups = 0
  proper : ∀ name ∈ names, Proper sep dot name

variable {sep dot}

namespace Location

def start (absolute : Bool) : Location sep dot :=
  ⟨absolute, 0, [], fun _ => rfl, fun _ member => nomatch member⟩

def parent (location : Location sep dot) : Location sep dot :=
  if location.names = [] then
    if absolute : location.absolute = true then location
    else ⟨location.absolute, location.ups + 1, [], fun rooted => absurd rooted absolute,
      fun _ member => nomatch member⟩
  else { location with
    names := location.names.dropLast
    proper := fun name member => location.proper name (List.dropLast_subset _ member) }

/-- Follows one segment: `.` stays, `..` climbs, a name descends. -/
def enter (location : Location sep dot) (segment : List A) : Location sep dot :=
  if segment = [dot, dot] then location.parent
  else if proper : Proper sep dot segment then { location with
    names := location.names ++ [segment]
    proper := fun name member => by
      rcases List.mem_append.mp member with old | new
      · exact location.proper name old
      · exact List.mem_singleton.mp new ▸ proper }
  else location

def parts (location : Location sep dot) : List (List A) :=
  List.replicate location.ups [dot, dot] ++ location.names

end Location

open Location List

def isAbsolute (sep : A) (path : List A) : Bool := path.head? = some sep

variable (sep dot) in
abbrev origin (path : List A) : Location sep dot := start (isAbsolute sep path)

variable (sep dot) in
def resolve (path : List A) : Location sep dot :=
  (segments sep path).foldl enter (origin sep dot path)

def render (location : Location sep dot) : List A :=
  if location.absolute then sep :: [sep].intercalate location.parts
  else if location.parts = [] then [dot]
  else [sep].intercalate location.parts

section Segments

theorem segments_sep (rest : List A) : segments sep (sep :: rest) = segments sep rest := by
  rw [segments, if_pos rfl]

theorem segments_seps (seps rest : List A) (all : ∀ c ∈ seps, c = sep) :
    segments sep (seps ++ rest) = segments sep rest := by
  induction seps with
  | nil => rfl
  | cons c seps ih =>
    rw [all c mem_cons_self, cons_append, segments_sep]
    exact ih fun other member => all other (mem_cons_of_mem c member)

theorem segments_run (run rest : List A) (nonempty : run ≠ []) (plain : sep ∉ run)
    (ended : rest.head? = none ∨ rest.head? = some sep) :
    segments sep (run ++ rest) = run :: segments sep rest := by
  induction run with
  | nil => exact absurd rfl nonempty
  | cons c run ih =>
    have other : c ≠ sep := fun same => plain (same ▸ (.head _))
    have plain' : sep ∉ run := fun member => plain (mem_cons_of_mem c member)
    rw [cons_append, segments, if_neg other]
    cases run with
    | nil => rw [nil_append, if_pos ended]
    | cons next run =>
      have other' : next ≠ sep := fun same => plain' (same ▸ (.head _))
      rw [cons_append, head?_cons, if_neg (by simpa using other'),
        ← cons_append, ih (cons_ne_nil _ _) plain']
      rfl

theorem segments_ne_nil (c : A) (rest : List A) (other : c ≠ sep) :
    segments sep (c :: rest) ≠ [] := by
  induction rest generalizing c with
  | nil => simp [segments, other]
  | cons next rest ih =>
    rw [segments, if_neg other]
    split
    · exact cons_ne_nil _ _
    · next going =>
        have plain : next ≠ sep := by simpa using going
        exact fun empty => ih next plain (modifyHead_eq_nil_iff.1 empty)

theorem segments_append_sep (front rest : List A) :
    segments sep (front ++ sep :: rest) = segments sep front ++ segments sep rest := by
  induction front with
  | nil => exact segments_sep rest
  | cons c front ih =>
    by_cases separator : c = sep
    · rw [separator, cons_append, segments_sep, segments_sep, ih]
    · rw [cons_append, segments, if_neg separator, segments, if_neg separator, ih]
      cases front with
      | nil => simp [segments]
      | cons next front =>
        rw [cons_append, head?_cons, head?_cons]
        split
        · rfl
        · next going =>
            have plain : next ≠ sep := by simpa using going
            cases inner : segments sep (next :: front) with
            | nil => exact absurd inner (segments_ne_nil next front plain)
            | cons first others => rfl

theorem segments_append_seps (front seps : List A) (all : ∀ c ∈ seps, c = sep) :
    segments sep (front ++ seps) = segments sep front := by
  cases seps with
  | nil => rw [append_nil]
  | cons c seps =>
    have later := segments_seps seps [] fun other member =>
      all other (mem_cons_of_mem c member)
    rw [append_nil, segments] at later
    rw [all c mem_cons_self, segments_append_sep, later, append_nil]

theorem segments_intercalate (parts : List (List A))
    (plain : ∀ part ∈ parts, part ≠ [] ∧ sep ∉ part) :
    segments sep ([sep].intercalate parts) = parts := by
  induction parts with
  | nil => rfl
  | cons part parts ih =>
    have first := plain part (.head _)
    have later := ih fun part member => plain part (.tail _ member)
    cases parts with
    | nil =>
      rw [intercalate_singleton]
      simpa [segments] using segments_run part [] first.1 first.2 (.inl rfl)
    | cons next parts =>
      rw [intercalate_cons_cons, append_assoc,
        segments_run part _ first.1 first.2 (.inr rfl), singleton_append, segments_sep,
        later]

omit [DecidableEq A] in
theorem intercalate_append {front back} (first : front ≠ []) (second : back ≠ []) :
    [sep].intercalate (front ++ back) =
      [sep].intercalate front ++ sep :: [sep].intercalate back := by
  induction front with
  | nil => exact absurd rfl first
  | cons part front ih =>
    cases front with
    | nil =>
      rw [singleton_append, intercalate_cons_of_ne_nil second,
        intercalate_singleton, append_assoc, singleton_append]
    | cons next front =>
      rw [cons_append, cons_append, intercalate_cons_cons,
        intercalate_cons_cons, ← cons_append, ih (cons_ne_nil _ _)]
      simp only [append_assoc]

end Segments

section Resolution

variable (location : Location sep dot)

theorem enter_dot : location.enter [dot] = location := by
  have improper : ¬ Proper sep dot [dot] := fun proper => proper.2.2.1 rfl
  rw [enter, if_neg (by simp), dif_neg improper]

theorem enter_name (name : List A) (proper : Proper sep dot name) :
    (location.enter name).absolute = location.absolute ∧ (location.enter name).ups = location.ups ∧
      (location.enter name).names = location.names ++ [name] := by
  rw [enter, if_neg proper.2.2.2, dif_pos proper]
  exact ⟨rfl, rfl, rfl⟩

omit [DecidableEq A] in
theorem parent_named (named : location.names ≠ []) :
    location.parent.absolute = location.absolute ∧ location.parent.ups = location.ups ∧
      location.parent.names = location.names.dropLast := by
  rw [parent, if_neg named]
  exact ⟨rfl, rfl, rfl⟩

omit [DecidableEq A] in
theorem parent_relative (relative : location.absolute = false) (unnamed : location.names = []) :
    location.parent.absolute = false ∧ location.parent.ups = location.ups + 1 ∧
      location.parent.names = [] := by
  rw [parent, if_pos unnamed, dif_neg (by simp [relative])]
  exact ⟨relative, rfl, rfl⟩

omit [DecidableEq A] in
theorem parent_root (absolute : location.absolute = true)
    (unnamed : location.names = []) : location.parent = location := by
  rw [parent, if_pos unnamed, dif_pos absolute]

theorem enter_absolute (segment : List A) :
    (location.enter segment).absolute = location.absolute := by
  unfold enter parent
  split
  · split
    · split <;> rfl
    · rfl
  · split <;> rfl

theorem foldl_absolute (segments : List (List A)) (location : Location sep dot) :
    (segments.foldl enter location).absolute = location.absolute := by
  induction segments generalizing location with
  | nil => rfl
  | cons segment segments ih => rw [foldl_cons, ih, enter_absolute]

theorem foldl_names (names : List (List A)) (location : Location sep dot)
    (proper : ∀ name ∈ names, Proper sep dot name) :
    (names.foldl enter location).ups = location.ups ∧
      (names.foldl enter location).names = location.names ++ names := by
  induction names generalizing location with
  | nil => simp
  | cons name names ih =>
    have entered := enter_name location name (proper name (.head _))
    have later := ih (location.enter name)
      fun other member => proper other (.tail _ member)
    rw [foldl_cons, later.1, later.2, entered.2.1, entered.2.2, append_assoc]
    exact ⟨rfl, rfl⟩

theorem foldl_ups (count : Nat) (location : Location sep dot)
    (relative : location.absolute = false) (unnamed : location.names = []) :
    ((List.replicate count [dot, dot]).foldl enter location).ups = location.ups + count ∧
      ((List.replicate count [dot, dot]).foldl enter location).names = [] := by
  induction count generalizing location with
  | zero => exact ⟨rfl, unnamed⟩
  | succ count ih =>
    have up : location.enter [dot, dot] = location.parent := if_pos rfl
    have climbed := parent_relative location relative unnamed
    have later := ih location.parent climbed.1 climbed.2.2
    rw [replicate_succ, foldl_cons, up, later.1, later.2, climbed.2.1]
    constructor
    · omega
    · rfl

omit [DecidableEq A] in
theorem parts_plain (distinct : dot ≠ sep) :
    ∀ part ∈ location.parts, part ≠ [] ∧ sep ∉ part := by
  intro part member
  rcases mem_append.1 member with up | name
  · rw [(mem_replicate.1 up).2]
    simpa using distinct.symm
  · have proper := location.proper part name
    exact ⟨proper.1, proper.2.1⟩

theorem foldl_ups_start (climbed : Location sep dot) (folded : climbed =
      (List.replicate location.ups [dot, dot]).foldl enter (start location.absolute)) :
    climbed.ups = location.ups ∧ climbed.names = [] := by
  cases absolute : location.absolute with
  | true =>
    rw [location.rooted absolute] at folded ⊢
    rw [folded]
    exact ⟨rfl, rfl⟩
  | false =>
    rw [folded, absolute]
    simpa [start] using foldl_ups location.ups (start false : Location sep dot) rfl rfl

theorem follow_parts :
    location.parts.foldl enter (start location.absolute) = location := by
  rw [parts, foldl_append]
  generalize folded : (List.replicate location.ups [dot, dot]).foldl enter
    (start location.absolute) = climbed
  have up := foldl_ups_start location climbed folded.symm
  have named := foldl_names location.names climbed location.proper
  ext1
  · rw [foldl_absolute, ← folded, foldl_absolute]
    rfl
  · rw [named.1, up.1]
  · rw [named.2, up.2, nil_append]

omit [DecidableEq A] in
theorem head?_intercalate (part : List A) (parts : List (List A)) (nonempty : part ≠ []) :
    ([sep].intercalate (part :: parts)).head? = part.head? := by
  cases part with
  | nil => exact absurd rfl nonempty
  | cons c part =>
    cases parts with
    | nil => rw [intercalate_singleton]
    | cons next parts => rw [intercalate_cons_cons]; rfl

omit [DecidableEq A] in
theorem relative_head (distinct : dot ≠ sep)
    (nonempty : location.parts ≠ []) : ([sep].intercalate location.parts).head? ≠ some sep := by
  have plain := parts_plain location distinct
  cases parts : location.parts with
  | nil => exact absurd parts nonempty
  | cons part rest =>
    have first := plain part (parts ▸ (.head _))
    rw [head?_intercalate part rest first.1]
    exact fun head => first.2 (mem_of_head? head)

theorem resolve_render (distinct : dot ≠ sep) :
    resolve sep dot (render location) = location := by
  have plain := parts_plain location distinct
  have written := segments_intercalate location.parts plain
  have followed := follow_parts location
  unfold resolve render origin isAbsolute
  cases absolute : location.absolute with
  | true =>
    rw [absolute] at followed
    simp only [if_true, segments_sep, written, head?_cons, decide_true, followed]
  | false =>
    rw [absolute] at followed
    cases parts : location.parts with
    | nil =>
      rw [parts, foldl_nil] at followed
      have alone : segments sep [dot] = [[dot]] := by simp [segments, distinct]
      simp only [Bool.false_eq_true, if_false, if_true, alone, foldl_cons, foldl_nil,
        enter_dot, head?_cons, Option.some.injEq, distinct, decide_false, followed]
    | cons part rest =>
      have nonempty : location.parts ≠ [] := parts ▸ cons_ne_nil part rest
      have relative := relative_head location distinct nonempty
      rw [parts] at relative
      rw [parts] at followed written
      simp only [Bool.false_eq_true, if_false, reduceCtorEq, relative, decide_false, written,
        followed]

end Resolution

section Canonical

variable (sep dot) in
/-- Single separators, no `.` but the path `.` itself, `..` only in front of a relative path. -/
def Canonical (path : List A) : Prop :=
  ∃ ups names, (∀ name ∈ names, Proper sep dot name) ∧
    ((path = sep :: [sep].intercalate names ∧ ups = 0) ∨
      (path = [sep].intercalate (List.replicate ups [dot, dot] ++ names) ∧
        0 < ups + names.length ∧ path.head? ≠ some sep) ∨
      (path = [dot] ∧ ups = 0 ∧ names = []))

variable (location : Location sep dot)

theorem render_absolute (distinct : dot ≠ sep) :
    isAbsolute sep (render location) = location.absolute := by
  unfold isAbsolute render
  cases absolute : location.absolute with
  | true => simp
  | false =>
    by_cases empty : location.parts = []
    · simp [empty, distinct]
    · simp [empty, relative_head location distinct empty]

omit [DecidableEq A] in
theorem render_canonical (distinct : dot ≠ sep) :
    Canonical sep dot (render location) := by
  refine ⟨location.ups, location.names, location.proper, ?_⟩
  unfold render
  cases absolute : location.absolute with
  | true =>
    left
    have rooted := location.rooted absolute
    simp [parts, rooted]
  | false =>
    right
    by_cases empty : location.parts = []
    · right
      have none : location.ups = 0 ∧ location.names = [] := by simpa [parts] using empty
      exact ⟨by simp [empty], none⟩
    · left
      have some : 0 < location.ups + location.names.length := by
        have := length_pos_iff.2 empty
        simpa [parts] using this
      simp only [Bool.false_eq_true, if_false, empty]
      exact ⟨rfl, some, relative_head location distinct empty⟩

end Canonical

section Parts

variable (location : Location sep dot)

theorem enter_parts_name (name : List A)
    (proper : Proper sep dot name) : (location.enter name).parts = location.parts ++ [name] := by
  have entered := enter_name location name proper
  rw [parts, entered.2.1, entered.2.2, ← append_assoc]
  rfl

theorem parent_parts :
    location.parent.parts = match location.parts.getLast? with
      | some last =>
        if last ≠ [dot, dot] then location.parts.dropLast
        else if location.absolute then location.parts else location.parts ++ [[dot, dot]]
      | none => if location.absolute then location.parts else location.parts ++ [[dot, dot]] := by
  rcases named : location.names.eq_nil_or_concat with unnamed | ⟨init, last, names⟩
  · cases absolute : location.absolute with
    | true =>
      have empty : location.parts = [] := by
        simp [parts, location.rooted absolute, unnamed]
      rw [parent_root location absolute unnamed, empty]
      rfl
    | false =>
      have climbed := parent_relative location absolute unnamed
      have before : location.parts = List.replicate location.ups [dot, dot] := by
        simp [parts, unnamed]
      have after : location.parent.parts = location.parts ++ [[dot, dot]] := by
        rw [before, parts, climbed.2.1, climbed.2.2, append_nil, replicate_succ']
      rw [after]
      cases final : location.parts.getLast? with
      | none => simp
      | some last =>
        have up : last = [dot, dot] := by
          have member := mem_of_getLast? final
          rw [before] at member
          exact (mem_replicate.1 member).2
        simp [up]
  · rw [concat_eq_append] at names
    have proper := location.proper last (by simp [names])
    have shortened := parent_named location (by simp [names])
    have whole : location.parts =
        (List.replicate location.ups [dot, dot] ++ init) ++ [last] := by
      rw [parts, names, append_assoc]
    rw [whole, getLast?_concat]
    simp only [ne_eq, proper.2.2.2, not_false_eq_true, if_true, dropLast_concat]
    rw [parts, shortened.2.1, shortened.2.2, names, dropLast_concat]

end Parts

section Lengths

def cost (segments : List (List A)) : Nat := (segments.map fun segment => segment.length + 1).sum

omit [DecidableEq A] in
theorem cost_append (front back : List (List A)) : cost (front ++ back) = cost front + cost back := by
  simp [cost]

omit [DecidableEq A] in
theorem cost_dropLast (segments : List (List A)) : cost segments.dropLast ≤ cost segments := by
  rcases segments.eq_nil_or_concat with rfl | ⟨init, last, rfl⟩
  · exact le_rfl
  · rw [concat_eq_append, dropLast_concat, cost_append]
    exact Nat.le_add_right _ _

omit [DecidableEq A] in
theorem cost_modifyHead (c : A) (segments : List (List A)) :
    cost (segments.modifyHead (c :: ·)) ≤ cost segments + 1 := by
  cases segments with
  | nil => exact Nat.zero_le _
  | cons segment segments =>
    simp only [modifyHead_cons, cost, map_cons, sum_cons, length_cons]
    omega

theorem cost_segments (sep : A) (path : List A) :
    cost (segments sep path) + (if isAbsolute sep path then 1 else 0) ≤ path.length + 1 := by
  induction path with
  | nil => simp [segments, cost, isAbsolute]
  | cons c path ih =>
    by_cases separator : c = sep
    · have bound : cost (segments sep path) ≤ path.length + 1 :=
        Nat.le_trans (Nat.le_add_right _ _) ih
      simp only [segments, isAbsolute, head?_cons, separator, decide_true, if_true, length_cons]
      omega
    · have relative : isAbsolute sep (c :: path) = false := by simp [isAbsolute, separator]
      simp only [relative, Bool.false_eq_true, if_false, add_zero, length_cons]
      rw [segments, if_neg separator]
      split
      case isTrue ended =>
        rcases ended with ended | ended
        · rw [head?_eq_none_iff.1 ended]
          simp [segments, cost]
        · have absolute : isAbsolute sep path = true := by simp [isAbsolute, ended]
          rw [absolute] at ih
          simp only [cost, map_cons, sum_cons, length_singleton, if_true] at ih ⊢
          omega
      case isFalse =>
        have longer := cost_modifyHead c (segments sep path)
        omega

theorem cost_parts_enter (location : Location sep dot) (segment : List A) :
    cost (location.enter segment).parts ≤ cost location.parts + (segment.length + 1) := by
  by_cases up : segment = [dot, dot]
  · have climbed : cost (location.parts ++ [[dot, dot]]) = cost location.parts + 3 := by
      rw [cost_append]
      rfl
    have shortened := cost_dropLast location.parts
    rw [enter, if_pos up, parent_parts, up]
    simp only [length_cons, length_nil]
    split <;> split_ifs <;> omega
  · by_cases proper : Proper sep dot segment
    · rw [enter_parts_name location segment proper, cost_append]
      simp [cost]
    · rw [enter, if_neg up, dif_neg proper]
      exact Nat.le_add_right _ _

theorem cost_parts_foldl (segments : List (List A)) (location : Location sep dot) :
    cost (segments.foldl enter location).parts ≤ cost location.parts + cost segments := by
  induction segments generalizing location with
  | nil => exact le_rfl
  | cons segment segments ih =>
    have one := cost_parts_enter location segment
    have others := ih (location.enter segment)
    simp only [foldl_cons, cost, map_cons, sum_cons] at one others ⊢
    omega

omit [DecidableEq A] in
theorem intercalate_length (sep : A) (part : List A) (parts : List (List A)) :
    ([sep].intercalate (part :: parts)).length + 1 = cost (part :: parts) := by
  induction parts generalizing part with
  | nil => simp [cost]
  | cons next parts ih =>
    have later := ih next
    simp only [intercalate_cons_cons, length_append, cost, map_cons,
      sum_cons, length_singleton] at later ⊢
    omega

variable (path : List A)

theorem render_length_le (nonempty : path ≠ []) :
    (render (resolve sep dot path)).length ≤ path.length := by
  have positive := length_pos_iff.2 nonempty
  have counted := cost_segments sep path
  have kept := cost_parts_foldl (segments sep path) (origin sep dot path)
  have flag : (resolve sep dot path).absolute = isAbsolute sep path := foldl_absolute _ _
  rw [← resolve] at kept
  have none : cost (origin sep dot path).parts = 0 := rfl
  unfold render
  rw [flag]
  cases parts : (resolve sep dot path).parts with
  | nil =>
    split_ifs
    · exact positive
    · exact positive
    · contradiction
  | cons part rest =>
    have joined := intercalate_length sep part rest
    rw [parts] at kept
    split_ifs at counted ⊢
    · simp only [length_cons]
      omega
    · contradiction
    · omega

omit [DecidableEq A] in
theorem count_le_cost (segments : List (List A)) (nonempty : ∀ segment ∈ segments, segment ≠ []) :
    2 * segments.length ≤ cost segments := by
  induction segments with
  | nil => exact le_rfl
  | cons segment segments ih =>
    have first := length_pos_iff.2 (nonempty segment (.head _))
    have later := ih fun other member => nonempty other (.tail _ member)
    simp only [cost, length_cons, map_cons, sum_cons] at later ⊢
    omega

theorem parts_length_le (distinct : dot ≠ sep) (front : List (List A))
    (begins : front <+: segments sep path) :
    (front.foldl enter (origin sep dot path)).parts.length ≤ path.length := by
  rcases begins with ⟨back, whole⟩
  have counted := cost_segments sep path
  rw [← whole, cost_append] at counted
  have kept := cost_parts_foldl front (origin sep dot path)
  have none : cost (origin sep dot path).parts = 0 := rfl
  have plain := parts_plain
    (front.foldl enter (origin sep dot path)) distinct
  have counts := count_le_cost _ fun part member => (plain part member).1
  omega

end Lengths

end LexicalPath
