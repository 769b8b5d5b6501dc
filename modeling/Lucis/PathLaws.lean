import Lucis.PathParts

/-!
How the functions that take a path apart fit those that put it together: parent
and file name against join, up to normalization, join against normalization, and
stem and extension against the file name.
-/

namespace Lucis.PathNormalize

open Memory List Option
open LexicalPath

section Results
variable {heap : Nat → Bool}

theorem makeResult_text (src : List UInt8) (served : src ≠ [] → heap src.length = true) :
    ∃ block, makeResult heap src = some ⟨src, block⟩ := by
  by_cases empty : src = []
  · exact ⟨none, by rw [empty]; rfl⟩
  · rcases makeResult_full heap src empty (served empty) with ⟨block, made, _⟩
    exact ⟨some block, made⟩

variable (p : List UInt8)

theorem lucisParent_eq : lucisParent heap p = makeResult heap (parentOf p) := by
  unfold lucisParent parentOf
  split <;> rfl

theorem lucisStem_eq : lucisStem heap p = makeResult heap (stemOf (nameOf p)) := by
  unfold lucisStem stemOf nameOf
  dsimp only
  split <;> rfl

/-- The text that `lucis_extension` gives for a file name. -/
def extensionOf (name : List UInt8) : List UInt8 :=
  match findLastDot name name.length with
  | some i => name.drop (i + 1)
  | none => []

theorem lucisExtension_eq :
    lucisExtension heap p = makeResult heap (extensionOf (nameOf p)) := by
  unfold lucisExtension extensionOf nameOf
  dsimp only
  cases findLastDot (slice p (nameSpan p)) (slice p (nameSpan p)).length <;> rfl

theorem three_writes (front middle back : List UInt8) : ∃ block, (do
      let out ← (OutBlock.fresh (front ++ (middle ++ back)).length).putAll front
      let out ← out.putAll middle
      let out ← out.putAll back
      some (⟨out.written, some out⟩ : PathResult)) = some ⟨front ++ (middle ++ back), block⟩ := by
  rcases fresh_fits (front ++ (middle ++ back)) _ (le_rfl) with ⟨out, filled, _, written⟩
  simp only [putAll_append] at filled
  refine ⟨some out, ?_⟩
  simp only [bind_eq_bind, ← bind_assoc] at filled ⊢
  rw [filled, bind_some, written]

/-- The text that `lucis_pathJoin` gives. -/
def joinOf (a b : List UInt8) : List UInt8 :=
  if b.head? = some slash ∨ a = [] then b
  else if b = [] then a
  else a.take (trimEnd a a.length) ++ slash :: b

theorem advance_start {b : List UInt8} (relative : b.head? ≠ some slash) :
    advance isSlash b 0 = 0 := by
  cases b with
  | nil => simp [advance]
  | cons c b =>
    have other : isSlash c = false := by
      simpa [isSlash] using relative
    simp [advance, other]

theorem lucisPathJoin_text {a b : List UInt8} (small : a.length + 1 + b.length < 2 ^ 64)
    (served : joinOf a b ≠ [] → heap (joinOf a b).length = true) :
    ∃ block, lucisPathJoin heap a b = some ⟨joinOf a b, block⟩ := by
  rw [lucisPathJoin]
  by_cases absolute : b.head? = some slash
  · have text : joinOf a b = b := if_pos (.inl absolute)
    rw [text] at served ⊢
    rw [if_pos absolute]
    exact makeResult_text b served
  · rw [if_neg absolute]
    by_cases emptyA : a = []
    · have text : joinOf a b = b := if_pos (.inr emptyA)
      rw [text] at served ⊢
      rw [if_pos (length_eq_zero_iff.2 emptyA)]
      exact makeResult_text b served
    · rw [if_neg (mt length_eq_zero_iff.1 emptyA)]
      have first : ¬(b.head? = some slash ∨ a = []) := not_or.2 ⟨absolute, emptyA⟩
      by_cases emptyB : b = []
      · have text : joinOf a b = a := by rw [joinOf, if_neg first, if_pos emptyB]
        rw [text] at served ⊢
        rw [if_pos (length_eq_zero_iff.2 emptyB)]
        exact makeResult_text a served
      · have text : joinOf a b = a.take (trimEnd a a.length) ++ slash :: b := by
          rw [joinOf, if_neg first, if_neg emptyB]
        have cut := trimEnd_le a a.length
        have length : (joinOf a b).length = trimEnd a a.length + 1 + b.length := by
          rw [text, length_append, length_take, length_cons]
          omega
        have total : sizeT (trimEnd a a.length + 1 + (b.length - 0)) = (joinOf a b).length := by
          rw [length, Nat.sub_zero, sizeT_of_lt (by omega)]
        rw [if_neg (mt length_eq_zero_iff.1 emptyB)]
        simp only [advance_start absolute, total, drop_zero]
        rw [if_pos (served (by rw [text]; simp)), text]
        simp only [put_eq_putAll]
        exact three_writes (a.take (trimEnd a a.length)) [slash] b

/-- What `lucis_withExtension` keeps of a path. -/
def baseOf (p : List UInt8) : List UInt8 :=
  p.take ((nameSpan p).off + (stemOf (nameOf p)).length)

/-- The text that `lucis_withExtension` gives for an extension without a dot. -/
def withExtensionOf (p ext : List UInt8) : List UInt8 := baseOf p ++ ([dot] ++ ext)

theorem dotPos_eq (name : List UInt8) :
    (findLastDot name name.length).getD name.length = (stemOf name).length := by
  rw [stemOf]
  cases found : findLastDot name name.length with
  | none => rfl
  | some i =>
    have bound := (findLast_bounds found).2
    rw [getD_some, length_take]
    omega

theorem lucisWithExtension_text {p ext : List UInt8}
    (inside : (baseOf p).length = (nameSpan p).off + (stemOf (nameOf p)).length)
    (small : (baseOf p).length + 1 + ext.length < 2 ^ 64) (present : ext ≠ []) (plain : dot ∉ ext)
    (served : heap (withExtensionOf p ext).length = true) :
    ∃ block, lucisWithExtension heap p ext = some ⟨withExtensionOf p ext, block⟩ := by
  have noDot : ext.head? ≠ some dot := fun head => plain (mem_of_head? head)
  have dotPos : (findLastDot (slice p (nameSpan p)) (slice p (nameSpan p)).length).getD
      (slice p (nameSpan p)).length = (stemOf (nameOf p)).length := dotPos_eq (nameOf p)
  have total : sizeT ((nameSpan p).off + (stemOf (nameOf p)).length + 1 + ext.length) =
      (withExtensionOf p ext).length := by
    rw [withExtensionOf, length_append, length_append, length_singleton, ← inside,
      sizeT_of_lt (by omega), add_assoc]
  unfold lucisWithExtension
  simp only [dotPos, noDot, decide_false, Bool.false_eq_true, if_false, total]
  rw [if_neg (mt length_eq_zero_iff.1 present), if_pos served]
  simp only [put_eq_putAll]
  exact three_writes (baseOf p) [dot] ext

end Results

section Names
variable {front back name : List UInt8}

theorem stemOf_dotted (nonempty : front ≠ []) (absent : dot ∉ back) :
    stemOf (front ++ dot :: back) = front ∧ extensionOf (front ++ dot :: back) = back := by
  have positive := length_pos_iff.2 nonempty
  have found : findLastDot (front ++ dot :: back) (front ++ dot :: back).length =
      some front.length := by
    rw [length_append, length_cons, add_comm back.length, ← add_assoc]
    exact findLast_last back positive absent
  rw [stemOf, extensionOf, found]
  refine ⟨take_left, ?_⟩
  dsimp only
  rw [← drop_drop, drop_left, drop_succ_cons, drop_zero]

theorem stemOf_undotted (absent : dot ∉ name.drop 1) :
    stemOf name = name ∧ extensionOf name = [] := by
  have missing : findLastDot name name.length = none := findLast_absent name absent
  rw [stemOf, extensionOf, missing]
  exact ⟨rfl, rfl⟩

theorem name_dotted (dotted : dot ∈ name.drop 1) :
    ∃ front back, name = front ++ dot :: back ∧ front ≠ [] ∧ dot ∉ back := by
  cases name with
  | nil => cases dotted
  | cons c name =>
    rcases last_split dotted with ⟨front, back, cut, absent⟩
    rw [drop_succ_cons, drop_zero] at cut
    exact ⟨c :: front, back, by rw [cut, cons_append], cons_ne_nil _ _, absent⟩

theorem stemOf_starts (name : List UInt8) : stemOf name <+: name := by
  by_cases dotted : dot ∈ name.drop 1
  · rcases name_dotted dotted with ⟨front, back, rfl, nonempty, absent⟩
    rw [(stemOf_dotted nonempty absent).1]
    exact prefix_append _ _
  · exact ⟨[], by rw [(stemOf_undotted dotted).1, append_nil]⟩

theorem stemOf_ne_nil (named : name ≠ []) : stemOf name ≠ [] := by
  by_cases dotted : dot ∈ name.drop 1
  · rcases name_dotted dotted with ⟨front, back, rfl, nonempty, absent⟩
    rwa [(stemOf_dotted nonempty absent).1]
  · rwa [(stemOf_undotted dotted).1]

theorem name_recomposed (name : List UInt8) :
    name = if dot ∈ name.drop 1 then stemOf name ++ dot :: extensionOf name
      else stemOf name := by
  split
  · next dotted =>
      rcases name_dotted dotted with ⟨front, back, rfl, nonempty, absent⟩
      rw [(stemOf_dotted nonempty absent).1, (stemOf_dotted nonempty absent).2]
  · next absent => exact (stemOf_undotted absent).1.symm

end Names

section Leads
variable {p lead name : List UInt8}

/-- A path with a file name: what stands in front of it is nothing or ends in a slash, and
slashes may follow. -/
structure Named (p lead name : List UInt8) : Prop where
  text : ∃ run, (∀ c ∈ run, c = slash) ∧ p = lead ++ (name ++ run)
  leads : lead = [] ∨ ∃ front, lead = front ++ [slash]
  named : name ≠ []
  single : slash ∉ name

theorem named_shape (p : List UInt8) (named : nameOf p ≠ []) : ∃ lead, Named p lead (nameOf p) := by
  cases shape p with
  | slashes run all => exact absurd (span_slashes all) named
  | plain name run present single all =>
    rw [nameOf_plain present single all]
    exact ⟨[], ⟨run, all, rfl⟩, .inl rfl, present, single⟩
  | nested front name run present single all =>
    rw [nameOf_nested present single all]
    exact ⟨front ++ [slash], ⟨run, all, by simp⟩, .inr ⟨front, rfl⟩, present, single⟩

namespace Named

variable (at_end : Named p lead name)
include at_end

theorem span : nameSpan p = ⟨lead.length, name.length⟩ := by
  rcases at_end with ⟨⟨run, all, rfl⟩, rfl | ⟨front, rfl⟩, named, single⟩
  · exact span_plain named single all
  · rw [append_assoc, singleton_append, span_nested named single all,
      length_append, length_singleton]

theorem name_eq : nameOf p = name := by
  rw [nameOf, at_end.span, slice]
  rcases at_end.text with ⟨run, _, rfl⟩
  rw [drop_left, take_left]

theorem parent : parentOf p =
      if lead = [] then [dot] else if lead = [slash] then [slash] else lead.dropLast := by
  rcases at_end with ⟨⟨run, all, rfl⟩, rfl | ⟨front, rfl⟩, named, single⟩
  · rw [nil_append, parentOf, trimEnd_plain named single all, findLastSep_plain single, if_pos rfl]
  · rw [append_assoc, singleton_append, parent_nested named single all,
      if_neg (by simp : front ++ [slash] ≠ []), dropLast_concat]
    cases front with
    | nil => rfl
    | cons c front => simp

theorem length_le : lead.length + name.length ≤ p.length := by
  rcases at_end.text with ⟨run, _, rfl⟩
  rw [length_append, length_append]
  omega

theorem base : baseOf p = lead ++ stemOf name := by
  rw [baseOf, at_end.span, at_end.name_eq]
  rcases at_end.text with ⟨run, _, rfl⟩
  rcases stemOf_starts name with ⟨rest, whole⟩
  rw [take_length_add_append]
  nth_rewrite 2 [← whole]
  rw [append_assoc, take_left]

theorem withExtension_eq (ext : List UInt8) :
    withExtensionOf p ext = lead ++ (stemOf name ++ dot :: ext) := by
  rw [withExtensionOf, at_end.base, append_assoc]
  rfl

theorem withExtension {ext : List UInt8} (flat : slash ∉ ext) :
    Named (withExtensionOf p ext) lead (stemOf name ++ dot :: ext) where
  text := ⟨[], forall_mem_nil _, by rw [at_end.withExtension_eq, append_nil]⟩
  leads := at_end.leads
  named := by simp
  single := by
    have stem : slash ∉ stemOf name := fun member =>
      at_end.single ((stemOf_starts name).subset member)
    rw [mem_append, mem_cons, not_or, not_or]
    exact ⟨stem, by decide, flat⟩

/-- Both requests of `lucis_withExtension` and the text it gives. -/
theorem made {heap : Nat → Bool} {ext : List UInt8}
    (small : lead.length + (stemOf name).length + 1 + ext.length < 2 ^ 64) (present : ext ≠ [])
    (undotted : dot ∉ ext) (served : heap (withExtensionOf p ext).length = true) :
    ∃ block, lucisWithExtension heap p ext = some ⟨withExtensionOf p ext, block⟩ := by
  have base_length : (baseOf p).length = lead.length + (stemOf name).length := by
    rw [at_end.base, length_append]
  exact lucisWithExtension_text (by rw [base_length, at_end.span, at_end.name_eq])
    (by rw [base_length]; exact small) present undotted served

end Named

end Leads

section Extension
variable {heap : Nat → Bool}

/-- The path with the extension put in has that extension, and the stem and the parent of the
path; putting it in again changes nothing. -/
def ReplacesExtension (heap : Nat → Bool) (p ext : List UInt8) : Prop :=
  ∃ q extension stem stem' parent parent' again,
    lucisWithExtension heap p ext = some q ∧ lucisExtension heap q.text = some extension ∧
    lucisStem heap q.text = some stem ∧ lucisStem heap p = some stem' ∧
    lucisParent heap q.text = some parent ∧ lucisParent heap p = some parent' ∧
    lucisWithExtension heap q.text ext = some again ∧
    extension.text = ext ∧ stem.text = stem'.text ∧ parent.text = parent'.text ∧
    again.text = q.text

def NameRecomposes (heap : Nat → Bool) (p : List UInt8) : Prop :=
  ∃ name stem extension, lucisFileName heap p = some name ∧ lucisStem heap p = some stem ∧
    lucisExtension heap p = some extension ∧
    name.text = if dot ∈ name.text.drop 1 then stem.text ++ dot :: extension.text
      else stem.text

theorem replaces_extension {p ext : List UInt8} (small : p.length < 2 ^ 63)
    (short : ext.length < 2 ^ 63)
    (served : ∀ size ≤ p.length + ext.length + 1, heap size = true) (named : nameOf p ≠ [])
    (present : ext ≠ []) (undotted : dot ∉ ext) (flat : slash ∉ ext) :
    ReplacesExtension heap p ext := by
  rcases named_shape p named with ⟨lead, old⟩
  generalize nameOf p = name at old
  have new := old.withExtension flat
  rcases stemOf_dotted (stemOf_ne_nil old.named) undotted with ⟨stem_eq, extension_eq⟩
  have again_eq : withExtensionOf (withExtensionOf p ext) ext = withExtensionOf p ext := by
    rw [new.withExtension_eq, stem_eq, old.withExtension_eq]
  have bound := old.length_le
  have shorter := (stemOf_starts name).length_le
  have q_length : (withExtensionOf p ext).length ≤ p.length + ext.length + 1 := by
    rw [old.withExtension_eq, length_append, length_append, length_cons]
    omega
  have parent_length : (parentOf p).length ≤ p.length + 1 := by
    rw [old.parent]
    split_ifs
    · exact Nat.succ_le_succ (Nat.zero_le _)
    · exact Nat.succ_le_succ (Nat.zero_le _)
    · rw [length_dropLast]
      omega
  have fits (text : List UInt8) (bound : text.length ≤ p.length + ext.length + 1) :
      ∃ block, makeResult heap text = some ⟨text, block⟩ :=
    makeResult_text text fun _ => served _ bound
  rcases old.made (by omega) present undotted (served _ q_length) with ⟨b1, made⟩
  rcases new.made (by rw [stem_eq]; omega) present undotted
    (served _ (by rw [again_eq]; exact q_length)) with ⟨b2, made'⟩
  rcases fits ext (by omega) with ⟨b3, extension⟩
  rcases fits (stemOf name) (by omega) with ⟨b4, stem⟩
  rcases fits (parentOf p) (by omega) with ⟨b5, parent⟩
  refine ⟨⟨withExtensionOf p ext, b1⟩, ⟨ext, b3⟩, ⟨stemOf name, b4⟩, ⟨stemOf name, b4⟩,
    ⟨parentOf p, b5⟩, ⟨parentOf p, b5⟩, ⟨_, b2⟩, made, ?_, ?_, ?_, ?_, ?_, made', rfl, rfl, rfl,
    again_eq⟩
  · rw [lucisExtension_eq, new.name_eq, extension_eq, extension]
  · rw [lucisStem_eq, new.name_eq, stem_eq, stem]
  · rw [lucisStem_eq, old.name_eq, stem]
  · rw [lucisParent_eq, new.parent, ← old.parent, parent]
  · rw [lucisParent_eq, parent]

theorem nameOf_length_le (p : List UInt8) : (nameOf p).length ≤ p.length := by
  by_cases named : nameOf p = []
  · rw [named]
    exact Nat.zero_le _
  · rcases named_shape p named with ⟨lead, at_end⟩
    have bound := at_end.length_le
    omega

theorem name_recomposes {p : List UInt8} (served : ∀ size ≤ p.length, heap size = true) :
    NameRecomposes heap p := by
  have bound := nameOf_length_le p
  have whole := name_recomposed (nameOf p)
  have fits (text : List UInt8) (shorter : text.length ≤ (nameOf p).length) :
      ∃ block, makeResult heap text = some ⟨text, block⟩ :=
    makeResult_text text fun _ => served _ (le_trans shorter bound)
  have stem_length := (stemOf_starts (nameOf p)).length_le
  have extension_length : (extensionOf (nameOf p)).length ≤ (nameOf p).length := by
    rw [extensionOf]
    split
    · rw [length_drop]
      exact Nat.sub_le _ _
    · exact Nat.zero_le _
  rcases fits (nameOf p) (Nat.le_refl _) with ⟨_, name⟩
  rcases fits (stemOf (nameOf p)) stem_length with ⟨_, stem⟩
  rcases fits (extensionOf (nameOf p)) extension_length with ⟨_, extension⟩
  exact ⟨_, _, _, name, (lucisStem_eq p).trans stem, (lucisExtension_eq p).trans extension, whole⟩

/-- The extension laws, for a path and an extension whose texts malloc serves. -/
theorem extension_laws (heap : Nat → Bool) (p ext : Bytes)
    (served : ∀ size ≤ p.data.length + ext.data.length + 1, heap size = true) :
    ((∃ name, lucisFileName heap p.data = some name ∧ name.text ≠ []) → ext.data ≠ [] →
      dot ∉ ext.data → slash ∉ ext.data → ReplacesExtension heap p.data ext.data) ∧
    NameRecomposes heap p.data := by
  constructor
  · rintro ⟨name, found, named⟩ present undotted flat
    apply replaces_extension p.addressable ext.addressable served ?_ present undotted flat
    intro nameless
    rw [lucisFileName, ← nameOf, nameless] at found
    cases found
    exact named rfl
  · exact name_recomposes fun size small => served size (by omega)

/-- `a/b.c` with the extension `d`. -/
theorem extension_laws_abcd :
    ReplacesExtension (fun size => decide (size < 2 ^ 63)) [97, 47, 98, 46, 99] [100] := by
  have served : ∀ size ≤ 7, (fun size => decide (size < 2 ^ 63)) size = true := by
    intro size small
    exact decide_eq_true (Nat.lt_of_le_of_lt small (by decide))
  have laws := extension_laws (fun size => decide (size < 2 ^ 63)) ⟨[97, 47, 98, 46, 99], by decide⟩
    ⟨[100], by decide⟩ served
  exact laws.1 ⟨⟨[98, 46, 99], some ⟨3, [98, 46, 99], by decide⟩⟩, rfl, by decide⟩ (by decide)
    (by decide) (by decide)

end Extension

section Join
variable {heap : Nat → Bool} {p a b run : List UInt8}

theorem isAbsolute_append (nonempty : a ≠ []) (rest : List UInt8) :
    isAbsolute slash (a ++ rest) = isAbsolute slash a := by
  rw [isAbsolute, isAbsolute, head?_append_of_ne_nil _ nonempty]

theorem isAbsolute_plain (named : a ≠ []) (single : slash ∉ a) (rest : List UInt8) :
    isAbsolute slash (a ++ rest) = false := by
  rw [isAbsolute_append named, isAbsolute]
  exact decide_eq_false fun head => single (mem_of_head? head)

theorem resolve_run (nonempty : a ≠ []) (all : ∀ c ∈ run, c = slash) :
    resolve slash dot (a ++ run) = resolve slash dot a := by
  rw [resolve, resolve, origin, origin, isAbsolute_append nonempty, segments_append_seps a run all]

theorem joinOf_eq (presentA : a ≠ []) (presentB : b ≠ []) (relative : b.head? ≠ some slash) :
    ∃ kept run, a = kept ++ run ∧ (∀ c ∈ run, c = slash) ∧ kept ≠ [] ∧
      joinOf a b = kept ++ slash :: b := by
  rcases trimEnd_cut a a.length (le_rfl) with ⟨run, cut, all, more, _⟩
  rw [take_length] at cut
  refine ⟨a.take (trimEnd a a.length), run, cut, all, ?_, ?_⟩
  · have positive := more (length_pos_iff.2 presentA)
    rw [ne_eq, take_eq_nil_iff, not_or]
    exact ⟨Nat.pos_iff_ne_zero.1 positive, presentA⟩
  · rw [joinOf, if_neg (not_or.2 ⟨relative, presentA⟩), if_neg presentB]

theorem resolve_joinOf (presentA : a ≠ []) (presentB : b ≠ []) (relative : b.head? ≠ some slash) :
    resolve slash dot (joinOf a b) =
      (segments slash b).foldl Location.enter (resolve slash dot a) := by
  rcases joinOf_eq presentA presentB relative with ⟨kept, run, rfl, all, nonempty, joined⟩
  rw [joined, resolve_run nonempty all, resolve, resolve, origin, origin,
    isAbsolute_append nonempty, segments_append_sep, foldl_append]

theorem resolve_dot : resolve slash dot [dot] = Location.start false := by
  have alone : segments slash [dot] = [[dot]] := by simp [segments, dot_ne_slash]
  rw [resolve, alone, foldl_cons, foldl_nil, enter_dot]
  rfl

theorem resolve_slash : resolve slash dot [slash] = Location.start true := by
  rw [resolve, segments_sep, segments]
  rfl

theorem resolve_slashes (all : ∀ c ∈ p, c = slash) :
    resolve slash dot (if p = [] then [dot] else [slash]) = resolve slash dot p := by
  cases p with
  | nil => exact resolve_dot
  | cons c run =>
    have none := segments_append_seps [] (c :: run) all
    rw [nil_append] at none
    rw [if_neg (cons_ne_nil _ _), resolve_slash, resolve, none, all c mem_cons_self]
    rfl

namespace Named
variable {lead name : List UInt8}

variable (at_end : Named p lead name)
include at_end

theorem segments_eq :
    segments slash p = segments slash lead ++ segments slash name := by
  rcases at_end with ⟨⟨run, all, rfl⟩, leads, _, _⟩
  have ended : segments slash (name ++ run) = segments slash name :=
    segments_append_seps name run all
  rcases leads with rfl | ⟨front, rfl⟩
  · rw [nil_append, ended]
    rfl
  · rw [append_assoc, singleton_append, segments_append_sep, segments_append_sep, ended,
      segments, append_nil]

theorem resolve_parent : resolve slash dot (parentOf p) =
      (segments slash lead).foldl Location.enter (origin slash dot p) := by
  rw [at_end.parent]
  rcases at_end with ⟨⟨run, _, rfl⟩, leads, named, single⟩
  rcases leads with rfl | ⟨front, rfl⟩
  · rw [if_pos rfl, resolve_dot, nil_append, origin, isAbsolute_plain named single]
    rfl
  · rw [if_neg (by simp : front ++ [slash] ≠ []), dropLast_concat, append_assoc,
      segments_append_sep, segments, append_nil]
    by_cases atRoot : front = []
    · subst atRoot
      exact resolve_slash
    · rw [if_neg (by simpa using atRoot), resolve, origin, origin, isAbsolute_append atRoot]

theorem present : parentOf p ≠ [] := by
  rw [at_end.parent]
  rcases at_end.leads with rfl | ⟨front, rfl⟩
  · exact cons_ne_nil _ _
  · rw [if_neg (by simp : front ++ [slash] ≠ []), dropLast_concat]
    by_cases atRoot : front = []
    · subst atRoot
      exact cons_ne_nil _ _
    · rwa [if_neg (by simpa using atRoot)]

end Named

theorem resolve_parent_name (p : List UInt8) :
    resolve slash dot (joinOf (parentOf p) (nameOf p)) = resolve slash dot p := by
  by_cases nameless : nameOf p = []
  · cases shape p with
    | plain name run named single all =>
      rw [nameOf_plain named single all] at nameless
      exact absurd nameless named
    | nested front name run named single all =>
      rw [nameOf_nested named single all] at nameless
      exact absurd nameless named
    | slashes _ all =>
      have alone : joinOf (if p = [] then [dot] else [slash]) [] =
          if p = [] then [dot] else [slash] := by
        split <;> rfl
      rw [nameless, parent_slashes all, alone, resolve_slashes all]
  · rcases named_shape p nameless with ⟨lead, at_end⟩
    generalize nameOf p = name at at_end
    have relative : name.head? ≠ some slash := fun head => at_end.single (mem_of_head? head)
    rw [resolve_joinOf at_end.present at_end.named relative, at_end.resolve_parent, resolve,
      at_end.segments_eq, foldl_append]

theorem joinOf_length_le (a b : List UInt8) : (joinOf a b).length ≤ a.length + 1 + b.length := by
  have cut : (a.take (trimEnd a a.length)).length ≤ a.length := length_take_le' _ _
  rw [joinOf]
  split_ifs
  · omega
  · omega
  · rw [length_append, length_cons]
    omega

theorem parts_length_le_path (p : List UInt8) :
    (parentOf p).length + (nameOf p).length ≤ p.length + 1 := by
  by_cases nameless : nameOf p = []
  · rw [nameless]
    cases shape p with
    | plain name run named single all =>
      rw [nameOf_plain named single all] at nameless
      exact absurd nameless named
    | nested front name run named single all =>
      rw [nameOf_nested named single all] at nameless
      exact absurd nameless named
    | slashes _ all =>
      rw [parent_slashes all]
      split_ifs
      · exact Nat.succ_le_succ (Nat.zero_le _)
      · exact Nat.succ_le_succ (Nat.zero_le _)
  · rcases named_shape p nameless with ⟨lead, at_end⟩
    have bound := at_end.length_le
    rw [at_end.parent]
    split_ifs
    · simp only [length_singleton]
      omega
    · simp only [length_singleton]
      omega
    · rw [length_dropLast]
      omega

def Recomposes (heap : Nat → Bool) (p : List UInt8) : Prop :=
  ∃ parent name joined norm norm', lucisParent heap p = some parent ∧
    lucisFileName heap p = some name ∧ lucisPathJoin heap parent.text name.text = some joined ∧
    lucisNormalize heap joined.text = some norm ∧ lucisNormalize heap p = some norm' ∧
    norm.text = norm'.text

/-- malloc serves the parts of a path, what they are joined to, and both normalizations. -/
structure RecomposeServed (heap : Nat → Bool) (p : List UInt8) : Prop where
  parts : ∀ size ≤ p.length + 2, heap size = true
  path : Served heap p
  joined : Served heap (joinOf (parentOf p) (nameOf p))

theorem recomposes_iff (small : p.length < 2 ^ 63) (served : RecomposeServed heap p) :
    Recomposes heap p ↔ Fits p ∧ Fits (joinOf (parentOf p) (nameOf p)) := by
  have bound := parts_length_le_path p
  have longer := joinOf_length_le (parentOf p) (nameOf p)
  rcases @makeResult_text heap (parentOf p) (fun _ => served.parts _ (by omega)) with
    ⟨b1, parent⟩
  rcases @makeResult_text heap (nameOf p) (fun _ => served.parts _ (by omega)) with
    ⟨b2, name⟩
  rcases @lucisPathJoin_text heap (parentOf p) (nameOf p) (by omega)
    (fun _ => served.parts _ (by omega)) with ⟨b3, joined⟩
  constructor
  · rintro ⟨parent', name', joined', norm, norm', made, named, together, again, whole, _⟩
    rw [lucisParent_eq, parent] at made
    rw [lucisFileName, ← nameOf, name] at named
    cases made
    cases named
    rw [joined] at together
    cases together
    constructor
    · by_contra unfit
      rw [normalize_overflows heap p unfit served.path] at whole
      cases whole
    · by_contra unfit
      rw [normalize_overflows heap _ unfit served.joined] at again
      cases again
  · rintro ⟨fits, fits'⟩
    rcases normalize_fits heap p (by omega) fits served.path with ⟨b4, whole, _⟩
    rcases normalize_fits heap _ (by omega) fits' served.joined with ⟨b5, again, _⟩
    refine ⟨_, _, _, _, _, (lucisParent_eq p).trans parent, name, joined, again, whole, ?_⟩
    exact congrArg render (resolve_parent_name p)

/-- What `lucis_normalize` leaves as it is. -/
def Normalized (heap : Nat → Bool) (p : List UInt8) : Prop :=
  ∃ block, lucisNormalize heap p = some ⟨p, some block⟩

theorem normalForm_eq (small : p.length < 2 ^ 64) (served : Served heap p)
    (normalized : Normalized heap p) : normalForm p = p := by
  rcases normalized with ⟨block, kept⟩
  have fits : Fits p := by
    by_contra unfit
    rw [normalize_overflows heap p unfit served] at kept
    cases kept
  rcases normalize_fits heap p small fits served with ⟨block', normal, _⟩
  rw [normal] at kept
  exact congrArg PathResult.text (Option.some.inj kept)

theorem normalized_of_short (short : p.length < 2 ^ 61) (served : Served heap p)
    (normal : normalForm p = p) : Normalized heap p := by
  rcases normalize_fits heap p (by omega) (fits_of_short p short) served with ⟨block, kept, _⟩
  rw [normal] at kept
  exact ⟨block, kept⟩

theorem joinOf_normal (normal : normalForm a = a) (presentA : a ≠ []) (presentB : b ≠ [])
    (relative : b.head? ≠ some slash) : joinOf a b = a ++ slash :: b := by
  rcases joinOf_eq presentA presentB relative with ⟨kept, run, cut, all, nonempty, joined⟩
  have shorter : (normalForm kept).length ≤ kept.length := render_length_le kept nonempty
  have same : normalForm kept = a := by
    rw [← normal, normalForm, normalForm, cut, resolve_run nonempty all]
  have lengths := congrArg List.length cut
  rw [same] at shorter
  rw [length_append] at lengths
  have none : run = [] := length_eq_zero_iff.1 (by omega)
  rw [joined, cut, none, append_nil]

theorem relative_names (normal : normalForm b = b) (relative : b.head? ≠ some slash)
    (notDot : b ≠ [dot]) (level : (segments slash b).head? ≠ some [dot, dot]) :
    ∃ names, names ≠ [] ∧ (∀ name ∈ names, Proper slash dot name) ∧
      b = [slash].intercalate names ∧ segments slash b = names := by
  have flag : (resolve slash dot b).absolute = false :=
    (foldl_absolute _ _).trans (decide_eq_false relative)
  have proper := (resolve slash dot b).proper
  have plain := parts_plain (resolve slash dot b) dot_ne_slash
  have text : render (resolve slash dot b) = b := normal
  rw [render, if_neg (by rw [flag]; decide)] at text
  split at text
  · exact absurd text.symm notDot
  · next nonempty =>
      have split := segments_intercalate _ plain
      rw [text] at split
      have unclimbed : (resolve slash dot b).ups = 0 := by
        by_contra climbs
        obtain ⟨before, counted⟩ := Nat.exists_eq_succ_of_ne_zero climbs
        rw [split, Location.parts, counted, replicate_succ] at level
        exact level rfl
      have names : (resolve slash dot b).parts = (resolve slash dot b).names := by
        rw [Location.parts, unclimbed]
        rfl
      rw [names] at nonempty text split
      exact ⟨_, nonempty, proper, text.symm, split⟩

theorem normalForm_joinOf (normalA : normalForm a = a) (normalB : normalForm b = b)
    (presentA : a ≠ []) (notDotA : a ≠ [dot]) (relative : b.head? ≠ some slash)
    (notDotB : b ≠ [dot]) (level : (segments slash b).head? ≠ some [dot, dot]) :
    normalForm (joinOf a b) = joinOf a b ↔ a ≠ [slash] := by
  rcases relative_names normalB relative notDotB level with
    ⟨names, nonempty, proper, text, split⟩
  have presentB : b ≠ [] := by
    rintro rfl
    exact nonempty split.symm
  have plain := parts_plain (resolve slash dot a) dot_ne_slash
  have back := segments_intercalate _ plain
  have folded := foldl_names names (resolve slash dot a) proper
  have flag := foldl_absolute names (resolve slash dot a)
  have parts : (names.foldl Location.enter (resolve slash dot a)).parts =
      (resolve slash dot a).parts ++ names := by
    rw [Location.parts, folded.1, folded.2, ← append_assoc]
    rfl
  have textA : render (resolve slash dot a) = a := normalA
  rw [joinOf_normal normalA presentA presentB relative, normalForm,
    ← joinOf_normal normalA presentA presentB relative,
    resolve_joinOf presentA presentB relative, split,
    joinOf_normal normalA presentA presentB relative]
  rw [render] at textA ⊢
  rw [flag, parts]
  cases absolute : (resolve slash dot a).absolute with
  | true =>
    rw [absolute, if_pos rfl] at textA
    rw [if_pos rfl]
    by_cases atRoot : (resolve slash dot a).parts = []
    · -- the slash of the root stands in front of the one that join adds
      rw [atRoot, intercalate_nil] at textA
      rw [atRoot, nil_append, ← text, ← textA]
      refine iff_of_false (fun same => ?_) (fun other => other rfl)
      have lengths := congrArg List.length same
      simp only [length_cons, singleton_append] at lengths
      omega
    · rw [intercalate_append atRoot nonempty, ← text, ← cons_append, textA]
      refine iff_of_true rfl fun same => ?_
      have alone := (List.cons.inj (textA.trans same)).2
      rw [alone] at back
      exact atRoot back.symm
  | false =>
    rw [absolute, if_neg (by decide)] at textA
    rw [if_neg (by decide)]
    by_cases nowhere : (resolve slash dot a).parts = []
    · rw [if_pos nowhere] at textA
      exact absurd textA.symm notDotA
    · rw [if_neg nowhere] at textA
      have some : (resolve slash dot a).parts ++ names ≠ [] := by simp [nowhere]
      rw [if_neg some, intercalate_append nowhere nonempty, ← text, textA]
      refine iff_of_true rfl fun same => ?_
      have head := relative_head (resolve slash dot a) dot_ne_slash nowhere
      rw [textA, same] at head
      exact head rfl

def JoinNormal (heap : Nat → Bool) (a b : List UInt8) : Prop :=
  ∃ joined, lucisPathJoin heap a b = some joined ∧ Normalized heap joined.text

structure JoinServed (heap : Nat → Bool) (a b : List UInt8) : Prop where
  left : Served heap a
  right : Served heap b
  joined : heap (joinOf a b).length = true
  again : Served heap (joinOf a b)

/-- What the second law asks of its paths: `a` is normal, `b` is normal, relative and does not
begin with `..`, and neither is `.`. -/
structure Joinable (heap : Nat → Bool) (a b : List UInt8) : Prop where
  left : Normalized heap a
  right : Normalized heap b
  left_ne : a ≠ [dot]
  right_ne : b ≠ [dot]
  relative : b.head? ≠ some slash
  level : (segments slash b).head? ≠ some [dot, dot]

theorem normal_ne_nil (normal : normalForm p = p) : p ≠ [] := by
  rintro rfl
  exact absurd normal (by decide)

theorem joinNormal_iff (smallA : a.length < 2 ^ 63) (smallB : b.length < 2 ^ 63)
    (served : JoinServed heap a b) (joinable : Joinable heap a b) :
    JoinNormal heap a b ↔ a ≠ [slash] ∧ Fits (joinOf a b) := by
  have normalA := normalForm_eq (by omega) served.left joinable.left
  have normalB := normalForm_eq (by omega) served.right joinable.right
  have longer := joinOf_length_le a b
  have stays := normalForm_joinOf normalA normalB (normal_ne_nil normalA) joinable.left_ne
    joinable.relative joinable.right_ne joinable.level
  rcases @lucisPathJoin_text heap a b (by omega)
    (fun _ => served.joined) with ⟨block, joined⟩
  constructor
  · rintro ⟨text, together, normalized⟩
    rw [joined] at together
    cases together
    refine ⟨stays.1 (normalForm_eq (by omega) served.again normalized), ?_⟩
    by_contra unfit
    rcases normalized with ⟨block', kept⟩
    rw [normalize_overflows heap _ unfit served.again] at kept
    cases kept
  · rintro ⟨notRoot, fits⟩
    refine ⟨_, joined, ?_⟩
    rcases normalize_fits heap _ (by omega) fits served.again with ⟨block', normal, _⟩
    rw [stays.2 notRoot] at normal
    exact ⟨block', normal⟩

/-- Parent and file name recompose every path, and join keeps normal paths normal but at the
root; both as long as the arrays of `lucis_normalize` hold the stack, which they do below 2^61
characters. -/
theorem path_laws_iff (heap : Nat → Bool) (p a b : Bytes) (served : RecomposeServed heap p.data)
    (served' : JoinServed heap a.data b.data) (joinable : Joinable heap a.data b.data) :
    (Recomposes heap p.data ↔ Fits p.data ∧ Fits (joinOf (parentOf p.data) (nameOf p.data))) ∧
      (JoinNormal heap a.data b.data ↔ a.data ≠ [slash] ∧ Fits (joinOf a.data b.data)) :=
  ⟨recomposes_iff p.addressable served,
    joinNormal_iff a.addressable b.addressable served' joinable⟩

/-- With `a/b`, `a` and `b`. -/
theorem path_laws_ab :
    (Recomposes (fun _ => true) [97, 47, 98] ↔
        Fits [97, 47, 98] ∧ Fits (joinOf (parentOf [97, 47, 98]) (nameOf [97, 47, 98]))) ∧
      (JoinNormal (fun _ => true) [97] [98] ↔ ([97] : List UInt8) ≠ [slash] ∧
        Fits (joinOf [97] [98])) := by
  have all (p : List UInt8) : Served (fun _ => true) p := ⟨rfl, rfl⟩
  exact path_laws_iff (fun _ => true) ⟨[97, 47, 98], by decide⟩ ⟨[97], by decide⟩ ⟨[98], by decide⟩
    ⟨fun _ _ => rfl, all _, all _⟩ ⟨all _, all _, rfl, all _⟩
    ⟨normalized_of_short (by decide) (all _) (by decide),
      normalized_of_short (by decide) (all _) (by decide), by decide, by decide, by decide,
      by decide⟩

/-- `/` and `x` are joined to `//x`, which is not normal. -/
theorem root_join_doubles :
    Joinable (fun _ => true) [47] [120] ∧
      (lucisPathJoin (fun _ => true) [47] [120]).map PathResult.text = some [47, 47, 120] ∧
      ¬JoinNormal (fun _ => true) [47] [120] := by
  have joinable : Joinable (fun _ => true) [47] [120] :=
    ⟨normalized_of_short (by decide) ⟨rfl, rfl⟩ (by decide),
      normalized_of_short (by decide) ⟨rfl, rfl⟩ (by decide), by decide, by decide, by decide,
      by decide⟩
  have joined : (lucisPathJoin (fun _ => true) [47] [120]).map PathResult.text =
      some [47, 47, 120] := by
    rcases @lucisPathJoin_text (fun _ => true) [47] [120] (by decide)
      (fun _ => rfl) with ⟨block, made⟩
    rw [made]
    rfl
  refine ⟨joinable, joined, ?_⟩
  rintro ⟨text, together, normalized⟩
  rw [together, map_some, Option.some.injEq] at joined
  rw [joined] at normalized
  have same := normalForm_eq (by decide) ⟨rfl, rfl⟩ normalized
  have shorter : normalForm [47, 47, 120] = [47, 120] := by decide
  rw [shorter] at same
  exact absurd same (by decide)

end Join

end Lucis.PathNormalize
