import Lucis.Library.LexicalPath
import Lucis.Memory

/-!
`lucis_normalize` of path/path.c. The two arrays that hold the offset and the
length of each kept segment are one list here, the newest segment first, with
the number of entries their blocks have; a store at or past it is a fault
(`none`), and so are copies that leave the path or the result. The C string
helpers and the queries of path.c that keep no stack are left out.
-/

namespace Lucis.PathNormalize

open Memory List Option
open LexicalPath

def slash : UInt8 := 47
def dot : UInt8 := 46

/-- `lucis_path_str_result`, with the block of the text; a null text has none. -/
structure PathResult where
  text : List UInt8
  block : Option OutBlock

structure Segment where
  off : Nat
  len : Nat

section Functions

/-- `while (i < len && test(p[i])) ++i` -/
def advance (test : UInt8 → Bool) (p : List UInt8) (i : Nat) : Nat :=
  if inside : i < p.length then
    if test p[i] then advance test p (i + 1) else i
  else i
termination_by p.length - i

def isSlash (c : UInt8) : Bool := c == slash

def isDotDot (p : List UInt8) (segment : Segment) : Bool :=
  segment.len == 2 && p[segment.off]? == some dot && p[segment.off + 1]? == some dot

/-- The entries in a block of `len * sizeof(size_t)` bytes. -/
def arrayEntries (len : Nat) : Nat := sizeT (len * 8) / 8

/-- `seg_off[nseg] = start; seg_len[nseg] = slen; ++nseg` -/
def push (entries : Nat) (segs : List Segment) (segment : Segment) : Option (List Segment) :=
  if segs.length < entries then some (segment :: segs) else none

/-- The branch for `..`: pop if possible. -/
def popDotDot (p : List UInt8) (entries : Nat) (absolute : Bool) (segs : List Segment)
    (segment : Segment) : Option (List Segment) :=
  match segs with
  | top :: rest =>
    if !isDotDot p top then some rest
    else if !absolute then push entries (top :: rest) segment else some (top :: rest)
  | [] => if !absolute then push entries [] segment else some []

def visit (p : List UInt8) (entries : Nat) (absolute : Bool) (segs : List Segment)
    (segment : Segment) : Option (List Segment) :=
  if segment.len = 1 ∧ p[segment.off]? = some dot then some segs
  else if isDotDot p segment then popDotDot p entries absolute segs segment
  else push entries segs segment

/-- Each iteration ends behind a segment, so `len` of them are enough. -/
def scan (p : List UInt8) (entries : Nat) (absolute : Bool) :
    Nat → Nat → List Segment → Option (List Segment)
  | 0, i, segs => if i < p.length then none else some segs
  | fuel + 1, i, segs =>
    if i < p.length then
      let start := advance isSlash p i
      if p.length ≤ start then some segs
      else
        let stop := advance (fun c => !isSlash c) p start
        (visit p entries absolute segs ⟨start, stop - start⟩).bind
          (scan p entries absolute fuel stop)
    else some segs

def makeResult (heap : Nat → Bool) (src : List UInt8) : Option PathResult :=
  if src.length = 0 then some ⟨[], none⟩
  else if heap src.length then
    ((OutBlock.fresh src.length).putAll src).map fun out => ⟨src, some out⟩
  else some ⟨[], none⟩

def totalLength (absolute : Bool) (first : Segment) (rest : List Segment) : Nat :=
  rest.foldl (fun total segment => sizeT (sizeT (total + 1) + segment.len))
    (sizeT ((if absolute then 1 else 0) + first.len))

/-- `memcpy(buf + pos, p + off, len)` -/
def copySegment (p : List UInt8) (segment : Segment) (out : OutBlock) : Option OutBlock :=
  if segment.off + segment.len ≤ p.length then
    out.putAll ((p.drop segment.off).take segment.len)
  else none

def copyRest (p : List UInt8) : List Segment → OutBlock → Option OutBlock
  | [], out => some out
  | segment :: rest, out => do
      let out ← out.put slash
      let out ← copySegment p segment out
      copyRest p rest out

/-- `if (absolute) buf[pos++] = '/'` -/
def startText (absolute : Bool) (out : OutBlock) : Option OutBlock :=
  if absolute then out.put slash else some out

def reconstruct (heap : Nat → Bool) (p : List UInt8) (absolute : Bool) (first : Segment)
    (rest : List Segment) : Option PathResult :=
  let total := totalLength absolute first rest
  if heap total then do
    let out ← startText absolute (.fresh total)
    let out ← copySegment p first out
    let out ← copyRest p rest out
    some ⟨out.written, some out⟩
  else some ⟨[], none⟩

def lucisNormalize (heap : Nat → Bool) (p : List UInt8) : Option PathResult :=
  if p.length = 0 then makeResult heap [dot]
  else
    let absolute := isAbsolute slash p
    if heap (sizeT (p.length * 8)) then
      (scan p (arrayEntries p.length) absolute p.length 0 []).bind fun segs =>
        match segs.reverse with
        | [] => makeResult heap (if absolute then [slash] else [dot])
        | first :: rest => reconstruct heap p absolute first rest
    else some ⟨[], none⟩

end Functions

theorem dot_ne_slash : dot ≠ slash := by decide

section Segments

def slice (p : List UInt8) (segment : Segment) : List UInt8 :=
  (p.drop segment.off).take segment.len

theorem slice_length (p : List UInt8) (segment : Segment)
    (inside : segment.off + segment.len ≤ p.length) : (slice p segment).length = segment.len := by
  rw [slice, length_take, length_drop]
  omega

theorem slice_getElem? (p : List UInt8) (segment : Segment) (index : Nat)
    (inside : index < segment.len) : (slice p segment)[index]? = p[segment.off + index]? := by
  rw [slice, getElem?_take_of_lt inside, getElem?_drop]

theorem isDot_iff (p : List UInt8) (segment : Segment)
    (inside : segment.off + segment.len ≤ p.length) :
    (segment.len = 1 ∧ p[segment.off]? = some dot) ↔ slice p segment = [dot] := by
  have length := slice_length p segment inside
  constructor
  · rintro ⟨one, first⟩
    have at0 := slice_getElem? p segment 0 (by omega)
    rw [add_zero, first] at at0
    rcases text : slice p segment with - | ⟨c, - | ⟨d, rest⟩⟩
    · simp [text] at at0
    · simpa [text] using at0
    · simp [text, one] at length
  · intro text
    have at0 := slice_getElem? p segment 0 (by rw [← length, text]; decide)
    rw [text] at length at0
    exact ⟨length.symm, at0.symm⟩

theorem isDotDot_iff (p : List UInt8) (segment : Segment)
    (inside : segment.off + segment.len ≤ p.length) :
    isDotDot p segment = true ↔ slice p segment = [dot, dot] := by
  have length := slice_length p segment inside
  simp only [isDotDot, Bool.and_eq_true, beq_iff_eq]
  constructor
  · rintro ⟨⟨two, first⟩, second⟩
    have at0 := slice_getElem? p segment 0 (by omega)
    have at1 := slice_getElem? p segment 1 (by omega)
    rw [add_zero, first] at at0
    rw [second] at at1
    rcases text : slice p segment with - | ⟨c, - | ⟨d, - | ⟨e, rest⟩⟩⟩
    · simp [text] at at0
    · simp [text] at at1
    · simp_all
    · simp [text, two] at length
  · intro text
    have at0 := slice_getElem? p segment 0 (by rw [← length, text]; decide)
    have at1 := slice_getElem? p segment 1 (by rw [← length, text]; decide)
    rw [text] at length at0 at1
    exact ⟨⟨length.symm, at0.symm⟩, at1.symm⟩

structure Represents (p : List UInt8) (segs : List Segment) (location : Location slash dot) :
    Prop where
  texts : segs.reverse.map (slice p) = location.parts
  inside : ∀ segment ∈ segs, segment.off + segment.len ≤ p.length

variable {location : Location slash dot} {p : List UInt8}

variable {segs : List Segment}

theorem represents_length
    (represents : Represents p segs location) : segs.length = location.parts.length := by
  rw [← represents.texts, length_map, length_reverse]

variable {next : Location slash dot}

theorem represents_push (represents : Represents p segs location)
    (segment : Segment) (inside : segment.off + segment.len ≤ p.length)
    (parts : next.parts = location.parts ++ [slice p segment]) :
    Represents p (segment :: segs) next := by
  constructor
  · rw [reverse_cons, map_append, represents.texts, parts]
    rfl
  · intro other member
    rcases mem_cons.1 member with rfl | old
    · exact inside
    · exact represents.inside other old

theorem represents_pop {top : Segment} {rest}
    (represents : Represents p (top :: rest) location)
    (parts : next.parts = location.parts.dropLast) : Represents p rest next := by
  constructor
  · rw [parts, ← represents.texts, reverse_cons, map_append]
    exact dropLast_concat.symm
  · exact fun other member => represents.inside other (.tail _ member)

def Follows (p : List UInt8) (entries : Nat) (result : Option (List Segment))
    (location : Location slash dot) : Prop :=
  if location.parts.length ≤ entries then
    ∃ segs, result = some segs ∧ Represents p segs location
  else result = none

theorem follows_keep (p : List UInt8) (entries : Nat) (segs : List Segment)
    (location : Location slash dot) (represents : Represents p segs location)
    (low : segs.length ≤ entries) : Follows p entries (some segs) location := by
  rw [Follows, if_pos (represents_length represents ▸ low)]
  exact ⟨segs, rfl, represents⟩

theorem follows_push (p : List UInt8) (entries : Nat) (segs : List Segment)
    (location next : Location slash dot) (represents : Represents p segs location)
    (segment : Segment) (inside : segment.off + segment.len ≤ p.length)
    (parts : next.parts = location.parts ++ [slice p segment]) :
    Follows p entries (push entries segs segment) next := by
  have pushed := represents_push represents segment inside parts
  have height : next.parts.length = segs.length + 1 := (represents_length pushed).symm
  unfold Follows push
  rw [height]
  by_cases room : segs.length < entries
  · rw [if_pos (Nat.succ_le_of_lt room), if_pos room]
    exact ⟨_, rfl, pushed⟩
  · rw [if_neg (by omega), if_neg room]

theorem popDotDot_follows (p : List UInt8) (entries : Nat) (segs : List Segment)
    (location : Location slash dot) (represents : Represents p segs location)
    (low : segs.length ≤ entries) (segment : Segment)
    (inside : segment.off + segment.len ≤ p.length) (up : slice p segment = [dot, dot]) :
    Follows p entries (popDotDot p entries location.absolute segs segment) location.parent := by
  have parts := parent_parts location
  have texts := represents.texts
  -- both ways in which `..` is kept or dropped at the bottom of the stack
  have bottom (same : location.parent.parts =
      if location.absolute then location.parts else location.parts ++ [[dot, dot]]) :
      Follows p entries (if !location.absolute then push entries segs segment else some segs)
        location.parent := by
    cases absolute : location.absolute with
    | true =>
      rw [absolute, if_pos rfl] at same
      have kept : Represents p segs location.parent := ⟨same ▸ texts, represents.inside⟩
      exact follows_keep p entries segs _ kept low
    | false =>
      rw [absolute, if_neg (by decide), ← up] at same
      exact follows_push p entries segs location _ represents segment inside same
  cases segs with
  | nil =>
    rw [← texts] at parts
    exact bottom (by simpa [← texts] using parts)
  | cons top rest =>
    have last : location.parts.getLast? = some (slice p top) := by
      rw [← texts, reverse_cons, map_append]
      exact getLast?_concat
    rw [last] at parts
    have double := isDotDot_iff p top (represents.inside top (.head _))
    rw [popDotDot]
    by_cases above : slice p top = [dot, dot]
    · rw [double.2 above]
      exact bottom (by simpa [above] using parts)
    · have single : isDotDot p top = false := by simpa using mt double.1 above
      simp only [ne_eq, above, not_false_eq_true, if_true] at parts
      rw [single]
      exact follows_keep p entries rest _ (represents_pop represents parts)
        (Nat.le_of_succ_le low)

theorem visit_follows (p : List UInt8) (entries : Nat) (segs : List Segment)
    (location : Location slash dot) (represents : Represents p segs location)
    (low : segs.length ≤ entries) (segment : Segment)
    (inside : segment.off + segment.len ≤ p.length) (nonempty : slice p segment ≠ [])
    (plain : slash ∉ slice p segment) :
    Follows p entries (visit p entries location.absolute segs segment)
      (location.enter (slice p segment)) := by
  by_cases stay : slice p segment = [dot]
  · rw [visit, if_pos ((isDot_iff p segment inside).2 stay), stay, enter_dot]
    exact follows_keep p entries segs location represents low
  · have notDot := fun single => stay ((isDot_iff p segment inside).1 single)
    by_cases up : slice p segment = [dot, dot]
    · have entered : location.enter (slice p segment) = location.parent := if_pos up
      rw [visit, if_neg notDot, if_pos ((isDotDot_iff p segment inside).2 up), entered]
      exact popDotDot_follows p entries segs location represents low segment inside up
    · have proper : Proper slash dot (slice p segment) := ⟨nonempty, plain, stay, up⟩
      have notDotDot : isDotDot p segment ≠ true :=
        fun double => up ((isDotDot_iff p segment inside).1 double)
      rw [visit, if_neg notDot, if_neg notDotDot]
      exact follows_push p entries segs location _ represents segment inside
        (enter_parts_name location _ proper)

end Segments

section Scan

theorem advance_spec (test : UInt8 → Bool) (p : List UInt8) (i : Nat) (bounded : i ≤ p.length) :
    ∃ run, p.drop i = run ++ p.drop (advance test p i) ∧ advance test p i = i + run.length ∧
      advance test p i ≤ p.length ∧ (∀ c ∈ run, test c = true) ∧
      ∀ c, (p.drop (advance test p i)).head? = some c → test c = false := by
  fun_induction advance test p i with
  | case1 i inside passed ih =>
    rcases ih inside with ⟨run, pieces, stop, within, all, ended⟩
    refine ⟨p[i] :: run, ?_, ?_, within, ?_, ended⟩
    · rw [drop_eq_getElem_cons inside, pieces, cons_append]
    · rw [stop, length_cons]
      omega
    · intro c member
      rcases mem_cons.1 member with rfl | later
      · exact passed
      · exact all c later
  | case2 i inside failed =>
    refine ⟨[], rfl, rfl, bounded, forall_mem_nil _, ?_⟩
    intro c head
    rw [drop_eq_getElem_cons inside, head?_cons, Option.some.injEq] at head
    exact head ▸ Bool.eq_false_iff.2 failed
  | case3 i outside =>
    refine ⟨[], rfl, rfl, bounded, forall_mem_nil _, ?_⟩
    intro c head
    rw [drop_of_length_le (Nat.not_lt.1 outside)] at head
    cases head

/-- The arrays have room for the stack at every point of the walk along the segments. -/
def FitsFrom (entries : Nat) (location : Location slash dot) (segments : List (List UInt8)) :
    Prop :=
  ∀ front, front <+: segments → (front.foldl Location.enter location).parts.length ≤ entries

theorem fitsFrom_cons (entries : Nat) (location : Location slash dot) (segment : List UInt8)
    (segments : List (List UInt8)) : FitsFrom entries location (segment :: segments) ↔
      location.parts.length ≤ entries ∧ FitsFrom entries (location.enter segment) segments := by
  constructor
  · intro fits
    constructor
    · exact fits [] nil_prefix
    · intro front begins
      exact fits (segment :: front) (cons_prefix_cons.2 ⟨rfl, begins⟩)
  · rintro ⟨first, later⟩ front begins
    cases front with
    | nil => exact first
    | cons head front =>
      rcases cons_prefix_cons.1 begins with ⟨rfl, shorter⟩
      exact later front shorter

def Walks (p : List UInt8) (entries : Nat) (result : Option (List Segment))
    (location : Location slash dot) (segments : List (List UInt8)) : Prop :=
  (FitsFrom entries location segments → ∃ segs, result = some segs ∧
      Represents p segs (segments.foldl Location.enter location)) ∧
    (¬ FitsFrom entries location segments → result = none)

variable (p : List UInt8)

theorem walks_nil (entries : Nat) (segs : List Segment)
    (location : Location slash dot) (represents : Represents p segs location)
    (low : segs.length ≤ entries) : Walks p entries (some segs) location [] := by
  constructor
  · exact fun _ => ⟨segs, rfl, represents⟩
  · intro unfit
    refine absurd (fun front begins => ?_) unfit
    rw [prefix_nil.1 begins]
    exact represents_length represents ▸ low

theorem walks_cons (entries : Nat) (stepped : Option (List Segment))
    (next : List Segment → Option (List Segment)) (location : Location slash dot)
    (segment : List UInt8) (segments : List (List UInt8)) (low : location.parts.length ≤ entries)
    (follows : Follows p entries stepped (location.enter segment))
    (later : ∀ segs, Represents p segs (location.enter segment) → segs.length ≤ entries →
      Walks p entries (next segs) (location.enter segment) segments) :
    Walks p entries (stepped.bind next) location (segment :: segments) := by
  rw [Walks, fitsFrom_cons]
  by_cases room : (location.enter segment).parts.length ≤ entries
  · rw [Follows, if_pos room] at follows
    rcases follows with ⟨segs, rfl, represents⟩
    have walks := later segs represents (represents_length represents ▸ room)
    constructor
    · exact fun fits => walks.1 fits.2
    · exact fun unfit => walks.2 fun fits => unfit ⟨low, fits⟩
  · rw [Follows, if_neg room] at follows
    constructor
    · exact fun fits => absurd (fits.2 [] nil_prefix) room
    · exact fun _ => by rw [follows, bind_none]

theorem scan_walks (entries fuel i : Nat) (segs : List Segment)
    (location : Location slash dot) (represents : Represents p segs location)
    (low : segs.length ≤ entries) (enough : p.length ≤ i + fuel) (bounded : i ≤ p.length) :
    Walks p entries (scan p entries location.absolute fuel i segs) location
      (segments slash (p.drop i)) := by
  induction fuel generalizing i segs location with
  | zero =>
    have ended : ¬ i < p.length := by omega
    rw [scan, if_neg ended, drop_of_length_le (Nat.not_lt.1 ended)]
    exact walks_nil p entries segs location represents low
  | succ fuel ih =>
    rw [scan]
    by_cases inside : i < p.length
    · rw [if_pos inside]
      rcases advance_spec isSlash p i bounded with
        ⟨seps, skipped, start_eq, startLe, slashes, begins⟩
      generalize advance isSlash p i = start at *
      have same : segments slash (p.drop i) = segments slash (p.drop start) := by
        rw [skipped]
        exact segments_seps seps _ fun c member => by simpa [isSlash] using slashes c member
      rw [same]
      by_cases beyond : p.length ≤ start
      · rw [drop_of_length_le beyond]
        simp only [if_pos beyond]
        exact walks_nil p entries segs location represents low
      · simp only [if_neg beyond]
        rcases advance_spec (fun c => !isSlash c) p start startLe with
          ⟨run, taken, stop_eq, stopLe, plain, ends⟩
        generalize advance (fun c => !isSlash c) p start = stop at *
        have word : slice p ⟨start, stop - start⟩ = run := by
          have count : stop - start = run.length := by omega
          rw [slice, taken, count, take_left]
        have nonempty : run ≠ [] := by
          rintro rfl
          have head : (p.drop start).head? = some p[start] := by
            rw [drop_eq_getElem_cons (by omega), head?_cons]
          have other := begins _ head
          rw [taken, nil_append] at head
          have same := ends _ head
          simp [other] at same
        have noSlash : slash ∉ run := fun member => by
          simpa [isSlash] using plain slash member
        have ended : (p.drop stop).head? = none ∨ (p.drop stop).head? = some slash := by
          cases head : (p.drop stop).head? with
          | none => exact .inl rfl
          | some c => exact .inr (by simpa [isSlash] using ends c head)
        have progress := length_pos_iff.2 nonempty
        rw [taken, segments_run run _ nonempty noSlash ended]
        rw [← word] at nonempty noSlash ⊢
        apply walks_cons
        · exact represents_length represents ▸ low
        · exact visit_follows p entries segs location represents low ⟨start, stop - start⟩
            (by simp only; omega) nonempty noSlash
        · intro segs' represents' low'
          rw [← enter_absolute location]
          exact ih stop segs' _ represents' low' (by omega) stopLe
    · rw [if_neg inside, drop_of_length_le (Nat.not_lt.1 inside)]
      exact walks_nil p entries segs location represents low

end Scan

section Output

def tail (p : List UInt8) (rest : List Segment) : List UInt8 :=
  rest.flatMap fun segment => slash :: slice p segment

theorem put_eq_putAll (out : OutBlock) (byte : UInt8) : out.put byte = out.putAll [byte] := by
  rw [OutBlock.putAll]
  cases out.put byte <;> rfl

theorem startText_eq (absolute : Bool) (out : OutBlock) :
    startText absolute out = out.putAll (if absolute then [slash] else []) := by
  cases absolute
  · rfl
  · exact put_eq_putAll out slash

variable (p : List UInt8)

theorem copySegment_eq (segment : Segment) (out : OutBlock)
    (inside : segment.off + segment.len ≤ p.length) :
    copySegment p segment out = out.putAll (slice p segment) :=
  if_pos inside

theorem copyRest_eq (rest : List Segment) (out : OutBlock)
    (inside : ∀ segment ∈ rest, segment.off + segment.len ≤ p.length) :
    copyRest p rest out = out.putAll (tail p rest) := by
  induction rest generalizing out with
  | nil => rfl
  | cons segment rest ih =>
    have here := inside segment (.head _)
    have later := fun out => ih out fun other member => inside other (.tail _ member)
    have cut : tail p (segment :: rest) = [slash] ++ (slice p segment ++ tail p rest) := by
      simp [tail]
    rw [copyRest, cut, putAll_append, put_eq_putAll]
    congr 1
    funext next
    rw [putAll_append, copySegment_eq p segment next here]
    congr 1
    funext last
    exact later last

theorem intercalate_tail (first : Segment) (rest : List Segment) :
    [slash].intercalate ((first :: rest).map (slice p)) = slice p first ++ tail p rest := by
  induction rest generalizing first with
  | nil => simp [tail]
  | cons next rest ih =>
    have later := ih next
    rw [map_cons] at later
    rw [map_cons, map_cons, intercalate_cons_cons, later]
    simp [tail]

theorem totalLength_eq (absolute : Bool) (first : Segment) (rest : List Segment)
    (inside : ∀ segment ∈ first :: rest, segment.off + segment.len ≤ p.length)
    (small : (if absolute then 1 else 0) + (slice p first ++ tail p rest).length < 2 ^ 64) :
    totalLength absolute first rest =
      (if absolute then 1 else 0) + (slice p first ++ tail p rest).length := by
  have firstLength := slice_length p first (inside first (.head _))
  rw [length_append] at small ⊢
  have loop : ∀ total, total + (tail p rest).length < 2 ^ 64 →
      rest.foldl (fun total segment => sizeT (sizeT (total + 1) + segment.len)) total =
        total + (tail p rest).length := by
    have others := fun segment member => inside segment (mem_cons_of_mem first member)
    clear small inside
    induction rest with
    | nil => exact fun total _ => rfl
    | cons segment rest ih =>
      intro total fits
      have length := slice_length p segment (others segment (.head _))
      have counted : (tail p (segment :: rest)).length =
          1 + segment.len + (tail p rest).length := by
        simp [tail, length]; omega
      rw [counted] at fits ⊢
      have separated : sizeT (total + 1) = total + 1 := sizeT_of_lt (by omega)
      rw [foldl_cons, separated, sizeT_of_lt (by omega),
        ih (fun other member => others other (.tail _ member)) _ (by omega)]
      omega
  rw [firstLength] at small ⊢
  rw [totalLength, sizeT_of_lt (by omega), loop _ (by omega), add_assoc]

end Output

section Normalize

variable (heap : Nat → Bool)

/-- The canonical path of the location `p` denotes. -/
def normalForm (p : List UInt8) : List UInt8 := render (resolve slash dot p)

def Fits (p : List UInt8) : Prop :=
  FitsFrom (arrayEntries p.length) (Location.start (isAbsolute slash p)) (segments slash p)

def Served (p : List UInt8) : Prop :=
  heap (sizeT (p.length * 8)) = true ∧ heap (normalForm p).length = true

/-- The text, canonical, of the same location, in a block it fills, and a fixed point. -/
def Normalizes (p : List UInt8) : Prop :=
  ∃ text block again, lucisNormalize heap p = some ⟨text, some block⟩ ∧
    block.written = text ∧ block.written.length = block.size ∧
    Canonical slash dot text ∧ isAbsolute slash text = isAbsolute slash p ∧
    resolve slash dot text = resolve slash dot p ∧
    lucisNormalize heap text = some ⟨text, some again⟩

theorem makeResult_full (src : List UInt8) (nonempty : src ≠ []) (served : heap src.length = true) :
    ∃ block, makeResult heap src = some ⟨src, some block⟩ ∧ block.written = src ∧
      block.written.length = block.size := by
  rcases fresh_fits src src.length (le_rfl) with ⟨block, filled, size_eq, written_eq⟩
  refine ⟨block, ?_, written_eq, by rw [written_eq, size_eq]⟩
  rw [makeResult, if_neg (by simpa using nonempty), if_pos served, filled, map_some]

variable (p : List UInt8)

theorem reconstruct_full (absolute : Bool) (first : Segment)
    (rest : List Segment) (text : List UInt8)
    (inside : ∀ segment ∈ first :: rest, segment.off + segment.len ≤ p.length)
    (written : text = (if absolute then [slash] else []) ++ (slice p first ++ tail p rest))
    (small : text.length < 2 ^ 64) (served : heap text.length = true) :
    ∃ block, reconstruct heap p absolute first rest = some ⟨text, some block⟩ ∧
      block.written = text ∧ block.written.length = block.size := by
  have length : text.length =
      (if absolute then 1 else 0) + (slice p first ++ tail p rest).length := by
    rw [written, length_append]
    cases absolute <;> rfl
  have total := totalLength_eq p absolute first rest inside (length ▸ small)
  rw [← length] at total
  rcases fresh_fits text text.length (le_rfl) with ⟨block, filled, size_eq, written_eq⟩
  refine ⟨block, ?_, written_eq, by rw [written_eq, size_eq]⟩
  have begun := fun out => startText_eq absolute out
  have copied := fun out => copySegment_eq p first out (inside first (.head _))
  have others := fun out => copyRest_eq p rest out
    fun other member => inside other (.tail _ member)
  have chain : (OutBlock.fresh text.length).putAll ((if absolute then [slash] else []) ++
      (slice p first ++ tail p rest)) = some block := by
    rw [← written]
    exact filled
  simp only [putAll_append] at chain
  rw [reconstruct, total, if_pos served]
  simp only [bind_eq_bind, begun, copied, others]
  simp only [← bind_assoc] at chain ⊢
  rw [chain, bind_some, written_eq]

theorem normalForm_stack (first : Segment) (rest : List Segment)
    (texts : (first :: rest).map (slice p) = (resolve slash dot p).parts) : normalForm p =
      (if isAbsolute slash p then [slash] else []) ++ (slice p first ++ tail p rest) := by
  have flag : (resolve slash dot p).absolute = isAbsolute slash p := foldl_absolute _ _
  rw [normalForm, render, flag, ← texts, intercalate_tail]
  cases isAbsolute slash p
  · rw [if_neg (by decide), if_neg (by simp), if_neg (by decide), nil_append]
  · rfl

theorem normalForm_empty (texts : [] = (resolve slash dot p).parts) :
    normalForm p = if isAbsolute slash p then [slash] else [dot] := by
  have flag : (resolve slash dot p).absolute = isAbsolute slash p := foldl_absolute _ _
  rw [normalForm, render, flag, ← texts]
  cases isAbsolute slash p <;> rfl

theorem scan_path : Walks p (arrayEntries p.length)
      (scan p (arrayEntries p.length) (isAbsolute slash p) p.length 0 [])
      (Location.start (isAbsolute slash p)) (segments slash p) := by
  have empty : Represents p [] (Location.start (isAbsolute slash p)) :=
    ⟨rfl, forall_mem_nil _⟩
  exact scan_walks p (arrayEntries p.length) p.length 0 [] _ empty (Nat.zero_le _)
    (Nat.le_add_left _ _) (Nat.zero_le _)

theorem normalize_fits (addressable : p.length < 2 ^ 64) (fits : Fits p)
    (served : Served heap p) : ∃ block, lucisNormalize heap p = some ⟨normalForm p, some block⟩ ∧
      block.written = normalForm p ∧ block.written.length = block.size := by
  unfold lucisNormalize
  by_cases empty : p.length = 0
  · rw [length_eq_zero_iff.1 empty] at served ⊢
    exact makeResult_full heap [dot] (cons_ne_nil _ _) served.2
  · have shorter : (render (resolve slash dot p)).length ≤ p.length :=
      render_length_le p fun none => empty (length_eq_zero_iff.2 none)
    rcases (scan_path p).1 fits with ⟨segs, scanned, represents⟩
    have texts : segs.reverse.map (slice p) = (resolve slash dot p).parts := represents.texts
    have within : ∀ segment ∈ segs.reverse, segment.off + segment.len ≤ p.length :=
      fun segment member => represents.inside segment (mem_reverse.1 member)
    simp only [if_neg empty, if_pos served.1, scanned, bind_some]
    cases stack : segs.reverse with
    | nil =>
      rw [stack] at texts
      have same := normalForm_empty p texts
      rw [Served, same] at served
      rw [same]
      exact makeResult_full heap _ (by split <;> simp) served.2
    | cons first rest =>
      rw [stack] at texts within
      exact reconstruct_full heap p _ first rest (normalForm p) within
        (normalForm_stack p first rest texts) (by rw [normalForm]; omega) served.2

theorem normalize_overflows (unfit : ¬ Fits p) (served : Served heap p) :
    lucisNormalize heap p = none := by
  have nonempty : ¬ p.length = 0 := by
    intro empty
    rw [length_eq_zero_iff.1 empty] at unfit
    apply unfit
    intro front begins
    rw [prefix_nil.1 begins]
    exact le_rfl
  simp only [lucisNormalize, if_neg nonempty, if_pos served.1, (scan_path p).2 unfit, bind_none]

theorem fits_of_short (short : p.length < 2 ^ 61) : Fits p := by
  have entries : arrayEntries p.length = p.length := by
    rw [arrayEntries, sizeT_of_lt (by omega)]
    omega
  intro front begins
  rw [entries]
  exact parts_length_le p dot_ne_slash front begins

theorem normalizes_of_fits (p : Bytes) (served : Served heap p.data)
    (served' : Served heap (normalForm p.data)) (fits : Fits p.data)
    (fits' : Fits (normalForm p.data)) : Normalizes heap p.data := by
  have small : p.data.length < 2 ^ 64 := lt_trans p.addressable (by decide)
  rcases normalize_fits heap p.data small fits served with ⟨block, once, written, full⟩
  have stable : normalForm (normalForm p.data) = normalForm p.data := by
    rw [normalForm, normalForm, resolve_render _ dot_ne_slash]
  have addressable : (normalForm p.data).length < 2 ^ 64 := by
    by_cases empty : p.data = []
    · rw [empty]
      decide
    · exact lt_of_le_of_lt (render_length_le p.data empty) small
  rcases normalize_fits heap (normalForm p.data) addressable fits' served' with ⟨again, twice, _⟩
  rw [stable] at twice
  refine ⟨normalForm p.data, block, again, once, written, full, ?_, ?_, ?_, twice⟩
  · exact render_canonical _ dot_ne_slash
  · exact (render_absolute _ dot_ne_slash).trans (foldl_absolute _ _)
  · exact resolve_render _ dot_ne_slash

/-- `lucis_normalize` does all it should exactly when the arrays hold the stack, for the path and
for its normal form. -/
theorem normalize_iff (p : Bytes) (served : Served heap p.data)
    (served' : Served heap (normalForm p.data)) :
    Normalizes heap p.data ↔ Fits p.data ∧ Fits (normalForm p.data) := by
  constructor
  · rintro ⟨text, block, again, once, _, _, _, _, same, twice⟩
    have fits : Fits p.data := by
      by_contra unfit
      rw [normalize_overflows heap p.data unfit served] at once
      cases once
    have small : p.data.length < 2 ^ 64 := Nat.lt_trans p.addressable (by decide)
    refine ⟨fits, ?_⟩
    rcases normalize_fits heap p.data small fits served with ⟨block', once', _⟩
    have text_eq : text = normalForm p.data := by
      rw [once'] at once
      cases once
      rfl
    rw [text_eq] at twice
    by_contra unfit
    rw [normalize_overflows heap _ unfit served'] at twice
    cases twice
  · rintro ⟨fits, fits'⟩
    exact normalizes_of_fits heap p served served' fits fits'

theorem unfit_name (name : List UInt8) (proper : Proper slash dot name)
    (none : arrayEntries name.length = 0) : ¬ Fits name := by
  intro fits
  have alone : segments slash name = [name] := by
    simpa [segments] using segments_run name [] proper.1 proper.2.1 (.inl rfl)
  have height := fits [name] (alone ▸ prefix_refl _)
  rw [none, foldl_cons, foldl_nil, enter_parts_name _ name proper] at height
  exact absurd height (by simp)

end Normalize

/-- `a/../b//c` -/
theorem normalize_iff_relative :
    Normalizes (fun _ => true) [97, 47, 46, 46, 47, 98, 47, 47, 99] ↔
      Fits [97, 47, 46, 46, 47, 98, 47, 47, 99] ∧
        Fits (normalForm [97, 47, 46, 46, 47, 98, 47, 47, 99]) :=
  normalize_iff (fun _ => true) ⟨[97, 47, 46, 46, 47, 98, 47, 47, 99], by decide⟩ ⟨rfl, rfl⟩
    ⟨rfl, rfl⟩

/-- A name of 2^61 characters: the arrays have no entry. -/
theorem long_name_overflows :
    ∃ p : Bytes, p.data.length = 2 ^ 61 ∧ lucisNormalize (fun _ => true) p.data = none ∧
      ¬ Normalizes (fun _ => true) p.data := by
  have length : (List.replicate (2 ^ 61) (97 : UInt8)).length = 2 ^ 61 := length_replicate
  have letter : ∀ c ∈ List.replicate (2 ^ 61) (97 : UInt8), c = 97 := fun c member =>
    (mem_replicate.mp member).2
  have proper : Proper slash dot (List.replicate (2 ^ 61) (97 : UInt8)) := by
    refine ⟨?_, ?_, ?_, ?_⟩
    · exact length_pos_iff.mp (by rw [length]; decide)
    · exact fun member => absurd (letter slash member) (by decide)
    · exact fun same => absurd (length.symm.trans (congrArg List.length same)) (by decide)
    · exact fun same => absurd (length.symm.trans (congrArg List.length same)) (by decide)
  have fault : lucisNormalize (fun _ => true) (List.replicate (2 ^ 61) (97 : UInt8)) = none :=
    normalize_overflows _ _ (unfit_name _ proper (by rw [length]; simp [arrayEntries, sizeT]))
      ⟨rfl, rfl⟩
  have addressable : (List.replicate (2 ^ 61) (97 : UInt8)).length < 2 ^ 63 := by
    rw [length]
    exact Nat.pow_lt_pow_right (by decide) (by decide)
  refine ⟨⟨List.replicate (2 ^ 61) 97, addressable⟩, length, fault, ?_⟩
  rintro ⟨text, block, again, once, _⟩
  rw [fault] at once
  cases once

end Lucis.PathNormalize
