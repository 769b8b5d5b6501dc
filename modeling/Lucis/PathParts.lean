import Lucis.PathNormalize
import Mathlib.Data.List.Induction

/-!
The functions of path/path.c that take a path apart and put it together:
lucis_pathJoin, lucis_parent, lucis_fileName, lucis_stem, lucis_extension and
lucis_withExtension. Each runs its own loops over the text; a path has one of
four shapes, and the loops are evaluated on these.
-/

namespace Lucis.PathNormalize

open Memory List
open LexicalPath

section Functions
variable (heap : Nat → Bool)

/-- `while (end > 1 && p[end - 1] == '/') --end` -/
def trimEnd (p : List UInt8) : Nat → Nat
  | 0 => 0
  | 1 => 1
  | last + 2 => if p[last + 1]? = some slash then trimEnd p (last + 1) else last + 2

/-- `for (size_t i = len; i > stop; --i)` down to the character, whose index is the answer. -/
def findLast (c : UInt8) (stop : Nat) (p : List UInt8) : Nat → Option Nat
  | 0 => none
  | i + 1 =>
    if i + 1 ≤ stop then none
    else if p[i]? = some c then some i
    else findLast c stop p i

/-- `find_last_sep`; none is `(size_t)-1`. -/
def findLastSep (p : List UInt8) (len : Nat) : Option Nat := findLast slash 0 p len

def findLastDot (name : List UInt8) (len : Nat) : Option Nat := findLast dot 1 name len

def nameSpan (p : List UInt8) : Segment :=
  let last := trimEnd p p.length
  match findLastSep p last with
  | none => ⟨0, last⟩
  | some sep => ⟨sep + 1, last - sep - 1⟩

def lucisPathJoin (a b : List UInt8) : Option PathResult :=
  if b.head? = some slash then makeResult heap b
  else if a.length = 0 then makeResult heap b
  else if b.length = 0 then makeResult heap a
  else
    let alen := trimEnd a a.length
    let boff := advance isSlash b 0
    let total := sizeT (alen + 1 + (b.length - boff))
    if heap total then do
      let out ← (OutBlock.fresh total).putAll (a.take alen)
      let out ← out.put slash
      let out ← out.putAll (b.drop boff)
      some ⟨out.written, some out⟩
    else some ⟨[], none⟩

def lucisParent (p : List UInt8) : Option PathResult :=
  match findLastSep p (trimEnd p p.length) with
  | none => makeResult heap [dot]
  | some 0 => makeResult heap [slash]
  | some pos => makeResult heap (p.take pos)

def lucisFileName (p : List UInt8) : Option PathResult :=
  makeResult heap (slice p (nameSpan p))

def lucisStem (p : List UInt8) : Option PathResult :=
  let name := slice p (nameSpan p)
  match findLastDot name name.length with
  | some i => makeResult heap (name.take i)
  | none => makeResult heap name

def lucisExtension (p : List UInt8) : Option PathResult :=
  let name := slice p (nameSpan p)
  match findLastDot name name.length with
  | some i => makeResult heap (name.drop (i + 1))
  | none => some ⟨[], none⟩

def lucisWithExtension (p ext : List UInt8) : Option PathResult :=
  let span := nameSpan p
  let name := slice p span
  let dotPos := (findLastDot name name.length).getD name.length
  let baseLen := span.off + dotPos
  if ext.length = 0 then makeResult heap (p.take baseLen)
  else
    let hasDot : Bool := ext.head? = some dot
    let total := sizeT (baseLen + (if hasDot then 0 else 1) + ext.length)
    if heap total then do
      let out ← (OutBlock.fresh total).putAll (p.take baseLen)
      let out ← if hasDot then some out else out.put dot
      let out ← out.putAll ext
      some ⟨out.written, some out⟩
    else some ⟨[], none⟩

end Functions

section Loops
variable {p front name run : List UInt8}

theorem trimEnd_le (p : List UInt8) (last : Nat) : trimEnd p last ≤ last := by
  fun_induction trimEnd p last with
  | case1 => exact le_rfl
  | case2 => exact le_rfl
  | case3 last _ ih => exact Nat.le_succ_of_le ih
  | case4 last _ => exact le_rfl

theorem trimEnd_cut (p : List UInt8) (last : Nat) (inside : last ≤ p.length) :
    ∃ run, p.take last = p.take (trimEnd p last) ++ run ∧ (∀ c ∈ run, c = slash) ∧
      (0 < last → 0 < trimEnd p last) ∧
      (trimEnd p last ≤ 1 ∨ p[trimEnd p last - 1]? ≠ some slash) := by
  fun_induction trimEnd p last with
  | case1 => exact ⟨[], by simp, forall_mem_nil _, fun pos => pos, .inl (by decide)⟩
  | case2 => exact ⟨[], by simp, forall_mem_nil _, fun pos => pos, .inl (by decide)⟩
  | case3 last here ih =>
    rcases ih (by omega) with ⟨run, cut, all, kept, ended⟩
    have longer : p.take (last + 2) = p.take (last + 1) ++ [slash] := by
      rw [take_add_one, here]
      rfl
    refine ⟨run ++ [slash], ?_, ?_, fun _ => kept (Nat.succ_pos _), ended⟩
    · rw [longer, cut, append_assoc]
    · intro c member
      rcases mem_append.1 member with old | new
      · exact all c old
      · exact mem_singleton.1 new
  | case4 last other =>
    exact ⟨[], by simp, forall_mem_nil _, fun pos => pos, .inr other⟩

theorem trimEnd_append {last : Nat} (rest : List UInt8) (inside : last ≤ p.length) :
    trimEnd (p ++ rest) last = trimEnd p last := by
  fun_induction trimEnd p last with
  | case1 => rw [trimEnd]
  | case2 => rw [trimEnd]
  | case3 last here ih =>
    rw [trimEnd, getElem?_append_left (by omega), if_pos here, ih (by omega)]
  | case4 last other => rw [trimEnd, getElem?_append_left (by omega), if_neg other]

theorem trimEnd_run (kept : front ≠ []) (all : ∀ c ∈ run, c = slash)
    (ended : front.length = 1 ∨ front.getLast? ≠ some slash) :
    trimEnd (front ++ run) (front.length + run.length) = front.length := by
  have positive := length_pos_iff.2 kept
  induction run using List.reverseRecOn with
  | nil =>
    rw [append_nil, length_nil, add_zero]
    rcases ended with single | other
    · rw [single, trimEnd]
    · obtain ⟨before, counted⟩ : ∃ before, front.length = before + 1 :=
        ⟨front.length - 1, by omega⟩
      rw [List.getLast?_eq_getElem?, counted, Nat.add_sub_cancel] at other
      rw [counted]
      cases before with
      | zero => rw [trimEnd]
      | succ before => rw [trimEnd, if_neg other]
  | append_singleton run c ih =>
    have last : c = slash := all c (by simp)
    obtain ⟨before, counted⟩ : ∃ before, front.length + run.length = before + 1 :=
      ⟨front.length + run.length - 1, by omega⟩
    have here : (front ++ (run ++ [c]))[before + 1]? = some slash := by
      rw [← counted, ← append_assoc, ← length_append, getElem?_concat_length, last]
    have shorter : trimEnd (front ++ (run ++ [c])) (before + 1) =
        trimEnd (front ++ run) (before + 1) := by
      rw [← append_assoc]
      exact trimEnd_append [c] (by rw [length_append]; exact le_of_eq counted.symm)
    have length : front.length + (run ++ [c]).length = before + 2 := by
      rw [length_append, length_singleton, ← add_assoc, counted]
    rw [length, trimEnd, if_pos here, shorter, ← counted]
    exact ih fun other member => all other (mem_append_left _ member)

variable {stop : Nat} {c : UInt8}

theorem findLast_append {len : Nat} (rest : List UInt8) (inside : len ≤ p.length) :
    findLast c stop (p ++ rest) len = findLast c stop p len := by
  induction len with
  | zero => rfl
  | succ len ih =>
    rw [findLast, findLast, getElem?_append_left (Nat.lt_of_succ_le inside),
      ih (Nat.le_of_succ_le inside)]

theorem findLast_bounds {len i : Nat} (found : findLast c stop p len = some i) :
    stop ≤ i ∧ i < len := by
  induction len with
  | zero => cases found
  | succ len ih =>
    rw [findLast] at found
    split at found
    · cases found
    · split at found
      · cases found
        omega
      · have bounds := ih found
        omega

theorem findLast_absent (name : List UInt8)
    (absent : c ∉ name.drop stop) : findLast c stop name name.length = none := by
  induction name using List.reverseRecOn with
  | nil => rfl
  | append_singleton name last ih =>
    rw [length_append, length_singleton, findLast]
    split
    · rfl
    · next more =>
        have split : (name ++ [last]).drop stop = name.drop stop ++ [last] :=
          drop_append_of_le_length (by omega)
        rw [split, mem_append, mem_singleton, not_or] at absent
        rw [getElem?_concat_length, if_neg (fun same => absent.2 (Option.some.inj same).symm),
          findLast_append [last] (le_rfl)]
        exact ih absent.1

theorem findLast_last (name : List UInt8) (above : stop ≤ front.length) (absent : c ∉ name) :
    findLast c stop (front ++ c :: name) (front.length + 1 + name.length) = some front.length := by
  induction name using List.reverseRecOn with
  | nil =>
    rw [length_nil, add_zero, findLast, if_neg (by omega), getElem?_concat_length, if_pos rfl]
  | append_singleton name last ih =>
    rw [mem_append, mem_singleton, not_or] at absent
    have regroup : front ++ c :: (name ++ [last]) = (front ++ c :: name) ++ [last] := by simp
    have length : (front ++ c :: name).length = front.length + 1 + name.length := by
      rw [length_append, length_cons]
      omega
    rw [length_append, length_singleton, ← add_assoc, findLast, if_neg (by omega),
      regroup, ← length, getElem?_concat_length,
      if_neg (fun same => absent.2 (Option.some.inj same).symm),
      findLast_append [last] (le_rfl), length]
    exact ih absent.1

end Loops

section Shapes

inductive Shape : List UInt8 → Prop where
  | slashes (run : List UInt8) (all : ∀ c ∈ run, c = slash) : Shape run
  | plain (name run : List UInt8) (named : name ≠ []) (single : slash ∉ name)
      (all : ∀ c ∈ run, c = slash) : Shape (name ++ run)
  | nested (front name run : List UInt8) (named : name ≠ []) (single : slash ∉ name)
      (all : ∀ c ∈ run, c = slash) : Shape (front ++ slash :: (name ++ run))

theorem last_split {c : UInt8} {text : List UInt8} (member : c ∈ text) :
    ∃ front back, text = front ++ c :: back ∧ c ∉ back := by
  rcases eq_append_cons_of_mem (mem_reverse.2 member) with ⟨back, front, cut, absent⟩
  refine ⟨front.reverse, back.reverse, ?_, fun inside => absent (mem_reverse.1 inside)⟩
  rw [← reverse_reverse text, cut]
  simp

theorem shape (p : List UInt8) : Shape p := by
  induction p using List.reverseRecOn with
  | nil => exact .slashes [] (forall_mem_nil _)
  | append_singleton p c ih =>
    by_cases separator : c = slash
    · have longer {run : List UInt8} (all : ∀ d ∈ run, d = slash) :
          ∀ d ∈ run ++ [c], d = slash := by
        intro d member
        rcases mem_append.1 member with old | new
        · exact all d old
        · exact (mem_singleton.1 new).trans separator
      cases ih with
      | slashes run all => exact .slashes _ (longer all)
      | plain name run named single all =>
        rw [append_assoc]
        exact .plain name _ named single (longer all)
      | nested front name run named single all =>
        rw [append_assoc, cons_append, append_assoc]
        exact .nested front name _ named single (longer all)
    · by_cases inside : slash ∈ p
      · rcases last_split inside with ⟨front, back, rfl, absent⟩
        have single : slash ∉ back ++ [c] := by
          rw [mem_append, mem_singleton, not_or]
          exact ⟨absent, fun same => separator same.symm⟩
        have whole := Shape.nested front (back ++ [c]) [] (by simp) single
          (forall_mem_nil _)
        simpa using whole
      · have single : slash ∉ p ++ [c] := by
          rw [mem_append, mem_singleton, not_or]
          exact ⟨inside, fun same => separator same.symm⟩
        have whole := Shape.plain (p ++ [c]) [] (by simp) single (forall_mem_nil _)
        simpa using whole

end Shapes

section Texts
variable {front name run : List UInt8}

def nameOf (p : List UInt8) : List UInt8 := slice p (nameSpan p)

/-- The text that `lucis_parent` gives. -/
def parentOf (p : List UInt8) : List UInt8 :=
  match findLastSep p (trimEnd p p.length) with
  | none => [dot]
  | some 0 => [slash]
  | some pos => p.take pos

/-- The text that `lucis_stem` gives for a file name. -/
def stemOf (name : List UInt8) : List UInt8 :=
  match findLastDot name name.length with
  | some i => name.take i
  | none => name

theorem last_plain (single : slash ∉ name) : name.getLast? ≠ some slash :=
  fun last => single (mem_of_getLast? last)

theorem trimEnd_slashes (all : ∀ c ∈ run, c = slash) :
    trimEnd run run.length = if run = [] then 0 else 1 := by
  cases run with
  | nil => rfl
  | cons c run =>
    have cut := trimEnd_run (cons_ne_nil c [])
      (fun d member => all d (mem_cons_of_mem c member)) (.inl rfl)
    rw [if_neg (cons_ne_nil _ _), length_cons, add_comm]
    exact cut

theorem span_slashes (all : ∀ c ∈ run, c = slash) : nameOf run = [] := by
  rw [nameOf, nameSpan, trimEnd_slashes all]
  cases run with
  | nil => rfl
  | cons c run =>
    have first : findLastSep (c :: run) 1 = some 0 := by
      rw [all c mem_cons_self]
      rfl
    simp only [cons_ne_nil, if_false, first]
    exact take_zero

theorem parent_slashes (all : ∀ c ∈ run, c = slash) :
    parentOf run = if run = [] then [dot] else [slash] := by
  rw [parentOf, trimEnd_slashes all]
  cases run with
  | nil => rfl
  | cons c run =>
    have first : findLastSep (c :: run) 1 = some 0 := by
      rw [all c mem_cons_self]
      rfl
    simp only [cons_ne_nil, if_false, first]

theorem trimEnd_plain (named : name ≠ []) (single : slash ∉ name)
    (all : ∀ c ∈ run, c = slash) : trimEnd (name ++ run) (name ++ run).length = name.length := by
  rw [length_append]
  exact trimEnd_run named all (.inr (last_plain single))

theorem findLastSep_plain (single : slash ∉ name) :
    findLastSep (name ++ run) name.length = none := by
  rw [findLastSep, findLast_append run (le_rfl)]
  exact findLast_absent name single

theorem span_plain (named : name ≠ []) (single : slash ∉ name) (all : ∀ c ∈ run, c = slash) :
    nameSpan (name ++ run) = ⟨0, name.length⟩ := by
  rw [nameSpan, trimEnd_plain named single all]
  simp only [findLastSep_plain single]

theorem nested_regroup (front name run : List UInt8) :
    front ++ slash :: (name ++ run) = (front ++ slash :: name) ++ run := by simp

theorem trimEnd_nested (named : name ≠ []) (single : slash ∉ name) (all : ∀ c ∈ run, c = slash) :
    trimEnd (front ++ slash :: (name ++ run)) (front ++ slash :: (name ++ run)).length =
      front.length + 1 + name.length := by
  have last : (front ++ slash :: name).getLast? = name.getLast? := by
    rw [getLast?_append_of_ne_nil _ (cons_ne_nil _ _), getLast?_cons_of_ne_nil named]
  have length : (front ++ slash :: name).length = front.length + 1 + name.length := by
    rw [length_append, length_cons]
    omega
  rw [nested_regroup, @length_append _ _ run, ← length]
  exact trimEnd_run (by simp) all (.inr (last ▸ last_plain single))

theorem findLastSep_nested (single : slash ∉ name) :
    findLastSep (front ++ slash :: (name ++ run)) (front.length + 1 + name.length) =
      some front.length := by
  rw [nested_regroup, findLastSep, findLast_append run]
  · exact findLast_last name (Nat.zero_le _) single
  · rw [length_append, length_cons]
    omega

theorem span_nested (named : name ≠ []) (single : slash ∉ name) (all : ∀ c ∈ run, c = slash) :
    nameSpan (front ++ slash :: (name ++ run)) = ⟨front.length + 1, name.length⟩ := by
  rw [nameSpan, trimEnd_nested named single all]
  simp only [findLastSep_nested single, Segment.mk.injEq, true_and]
  omega

theorem parent_nested (named : name ≠ []) (single : slash ∉ name) (all : ∀ c ∈ run, c = slash) :
    parentOf (front ++ slash :: (name ++ run)) = if front = [] then [slash] else front := by
  rw [parentOf, trimEnd_nested named single all, findLastSep_nested single]
  cases front with
  | nil => rfl
  | cons c front =>
    rw [if_neg (cons_ne_nil _ _)]
    exact take_left

theorem nameOf_plain (named : name ≠ []) (single : slash ∉ name) (all : ∀ c ∈ run, c = slash) :
    nameOf (name ++ run) = name := by
  rw [nameOf, span_plain named single all]
  exact take_left

theorem nameOf_nested (named : name ≠ []) (single : slash ∉ name)
    (all : ∀ c ∈ run, c = slash) : nameOf (front ++ slash :: (name ++ run)) = name := by
  rw [nameOf, span_nested named single all, slice]
  have dropped : (front ++ slash :: (name ++ run)).drop (front.length + 1) = name ++ run := by
    rw [← drop_drop, drop_left]
    rfl
  rw [dropped]
  exact take_left

end Texts

end Lucis.PathNormalize
