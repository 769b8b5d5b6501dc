import Lucis.ConstExpr
import Mathlib.Data.List.TakeWhile
import Mathlib.Tactic.IntervalCases

/-!
String and C-string literals: the escapes that the emitters `visitStrLitExpr` and
`visitCStrLitExpr` of IRBuilder/IRGen_expr.cpp write, the length that
`Checker::tryGetCStringLiteralLen` counts, and the constant evaluator's string. A
character of a token or of a string is one byte. A decoder that jumps over the
characters of an escape goes on with a number of characters to skip.
-/

namespace Lucis.StringLiteral

open List

open ConstExpr (Text digitsValue splitPrefix unescape strLitValue)

section Emitters

def isHex (c : Char) : Bool := c ∈ "0123456789abcdefABCDEF".toList

def isOct (c : Char) : Bool := c ∈ "01234567".toList

def allHex (s : Text) : Bool := s ≠ [] && s.all isHex

def allOct (s : Text) : Bool := s ≠ [] && s.all isOct

/-- `static_cast<char>` -/
def byte (n : Nat) : Char := Char.ofNat (n % 256)

def utf8Encode (cp : Nat) : Text :=
  if cp ≤ 0x7F then [byte cp]
  else if cp ≤ 0x7FF then [byte (0xC0 ||| (cp >>> 6)), byte (0x80 ||| (cp &&& 0x3F))]
  else if cp ≤ 0xFFFF then
    [byte (0xE0 ||| (cp >>> 12)), byte (0x80 ||| ((cp >>> 6) &&& 0x3F)),
      byte (0x80 ||| (cp &&& 0x3F))]
  else if cp ≤ 0x10FFFF then
    [byte (0xF0 ||| (cp >>> 18)), byte (0x80 ||| ((cp >>> 12) &&& 0x3F)),
      byte (0x80 ||| ((cp >>> 6) &&& 0x3F)), byte (0x80 ||| (cp &&& 0x3F))]
  else []

def simpleEscape : Char → Option Char
  | 'n' => some '\n'
  | 'r' => some '\r'
  | 't' => some '\t'
  | '\\' => some '\\'
  | '"' => some '"'
  | '\'' => some '\''
  | 'a' => some (byte 7)
  | 'b' => some (byte 8)
  | 'f' => some (byte 12)
  | 'v' => some (byte 11)
  | 'e' => some (byte 0x1B)
  | 'E' => some (byte 0x1B)
  | '?' => some '?'
  | _ => none

/-- An escape of `width` hexadecimal digits, of which it takes all or, where the literal ends
before, none: what is emitted, and how many characters are taken. -/
def hexEscape (width : Nat) (encode : Nat → Text) (rest : Text) : Text × Nat :=
  if width ≤ rest.length then
    let hex := rest.take width
    (if allHex hex then encode ((digitsValue 16 hex).getD 0) else [], width)
  else ([], 0)

def octEscape (next : Char) (rest : Text) : Text × Nat :=
  let more := (rest.take 2).takeWhile isOct
  let oct := next :: more
  (if allOct oct then [byte ((digitsValue 8 oct).getD 0)] else [], more.length)

def escape (next : Char) (rest : Text) : Text × Nat :=
  match simpleEscape next with
  | some c => ([c], 0)
  | none =>
    if next = 'x' then hexEscape 2 (fun n => [byte n]) rest
    else if next = 'u' then hexEscape 4 utf8Encode rest
    else if next = 'U' then hexEscape 8 utf8Encode rest
    else if '0' ≤ next ∧ next ≤ '7' then octEscape next rest
    else (['\\', next], 0)

/-- The loop of both emitters, from the character after the `skip` next ones on. -/
def decode : (skip : Nat) → Text → Text
  | _, [] => []
  | skip + 1, _ :: rest => decode skip rest
  | 0, '\\' :: next :: rest =>
    let (bytes, taken) := escape next rest
    bytes ++ decode taken rest
  | 0, c :: rest => c :: decode 0 rest

def visitStrLitExpr (raw : Text) : Text :=
  decode 0 ((raw.drop 1).take (raw.length - 2))

def visitCStrLitExpr (raw : Text) : Text :=
  decode 0 ((raw.drop 2).take (raw.length - 3))

end Emitters

section Length

/-- `tryGetCStringLiteralLen` answers, or an exception of `std::stoul` leaves it. -/
inductive Len where
  | nothing
  | len (n : Nat)
  | thrown
  deriving DecidableEq

def Len.plus (n : Nat) : Len → Len
  | len m => .len (n + m)
  | other => other

/-- `std::isspace` -/
def isSpace (c : Char) : Bool := c ∈ [' ', '\t', '\n', byte 11, byte 12, '\r']

/-- `std::stoul(hex, nullptr, 16)`: blanks, a sign and `0x` before the digits. -/
def stoul16 (hex : Text) : Option Nat :=
  match hex.dropWhile isSpace with
  | '-' :: rest => (digitsValue 16 (splitPrefix rest 16).1).map fun n => (2 ^ 64 - n) % 2 ^ 64
  | '+' :: rest => digitsValue 16 (splitPrefix rest 16).1
  | rest => digitsValue 16 (splitPrefix rest 16).1

def utf8Len (cp : Nat) : Nat :=
  if cp ≤ 0x7F then 1 else if cp ≤ 0x7FF then 2 else if cp ≤ 0xFFFF then 3 else 4

/-- The `width` characters of a `\u` or a `\U`, with the closing quote where they reach it. -/
def unicodeLen (width : Nat) (rest : Text) : Len :=
  if rest.length + 2 ≤ width then .nothing
  else
    match stoul16 ((rest ++ ['"']).take width) with
    | some n => .len (utf8Len (n % 2 ^ 32))
    | none => .thrown

/-- The bytes counted for an escape, and how many characters it takes behind its first. -/
def escapeLen (next : Char) (rest : Text) : Len × Nat :=
  if next ∈ ['n', 'r', 't', '\\', '"', '\'', 'a', 'b', 'f', 'v', 'e', 'E', '?'] then (.len 1, 0)
  else if next = 'x' then (if rest = [] then .nothing else .len 1, 2)
  else if next = 'u' then (unicodeLen 4 rest, 4)
  else if next = 'U' then (unicodeLen 8 rest, 8)
  else if '0' ≤ next ∧ next ≤ '7' then (.len 1, ((rest.take 2).takeWhile isOct).length)
  else (.len 1, 0)

/-- The loop of `decodeLen` over the characters before the closing quote. -/
def countLen : (skip : Nat) → Text → Len
  | _, [] => .len 0
  | skip + 1, _ :: rest => countLen skip rest
  | 0, ['\\'] => .nothing
  | 0, '\\' :: next :: rest =>
    let (bytes, taken) := escapeLen next rest
    match bytes with
    | .len n => (countLen taken rest).plus n
    | other => other
  | 0, _ :: rest => (countLen 0 rest).plus 1

def decodeLen (tok front : Text) : Len :=
  if tok.length < front.length + 2 then .nothing
  else if !front.isPrefixOf tok then .nothing
  else if tok.getLast? ≠ some '"' then .nothing
  else countLen 0 ((tok.drop (front.length + 1)).dropLast)

inductive Expr where
  | strLit (tok : Text)
  | cStrLit (tok : Text)
  | cast (e : Expr)

def tryGetCStringLiteralLen : Expr → Len
  | .cast e => tryGetCStringLiteralLen e
  | .cStrLit tok => decodeLen tok ['c']
  | .strLit tok => decodeLen tok []

end Length

section Meaning

def strToken (body : Text) : Text := '"' :: (body ++ ['"'])

def cStrToken (body : Text) : Text := 'c' :: '"' :: (body ++ ['"'])

/-- A length that is reported is the length of the bytes, and a length or none is reported. -/
def Len.Fits (bytes : Text) : Len → Prop
  | nothing => True
  | len n => n = bytes.length
  | thrown => False

/-- `evaluateConstExpr` has a branch for strings, and none for C strings. -/
def evaluateConstExpr : Expr → Option Text
  | .strLit tok => some (strLitValue tok)
  | _ => none

inductive Kind where
  | str
  | cStr

def token (kind : Kind) (body : Text) : Expr :=
  match kind with
  | .str => .strLit (strToken body)
  | .cStr => .cStrLit (cStrToken body)

def emitted (kind : Kind) (body : Text) : Text :=
  match kind with
  | .str => visitStrLitExpr (strToken body)
  | .cStr => visitCStrLitExpr (cStrToken body)

/-- What the decoders make of a token with these characters between its quotes. -/
structure OneMeaning (kind : Kind) (body : Text) : Prop where
  same : visitStrLitExpr (strToken body) = visitCStrLitExpr (cStrToken body)
  length : (tryGetCStringLiteralLen (token kind body)).Fits (emitted kind body)
  constant : ∀ value, evaluateConstExpr (token kind body) = some value → value = emitted kind body

/-- Only the escapes that all decoders know: `\n`, `\t`, a backslash, a quote, `\?`, and a `\0`
that no other octal digit follows. -/
def Common : Text → Prop
  | '\\' :: next :: rest =>
    (next ∈ ['n', 't', '\\', '"', '\'', '?'] ∨
      next = '0' ∧ (rest.head?.all fun c => !isOct c) = true) ∧ Common rest
  | _ :: rest => Common rest
  | [] => True

/-- How many digits follow. -/
def hexWidth : Char → Option Nat
  | 'x' => some 2
  | 'u' => some 4
  | 'U' => some 8
  | _ => none

/-- The bytes that a run of digits stands for: none where they are not hexadecimal or no code
point. -/
def hexBytes (next : Char) (hex : Text) : Nat :=
  if !allHex hex then 0
  else if next = 'x' then 1
  else
    let cp := (digitsValue 16 hex).getD 0
    if cp ≤ 0x10FFFF then utf8Len cp else 0

/-- The bytes that the length has for it. -/
def hexCounted (next : Char) (hex : Text) : Option Nat :=
  if next = 'x' then some 1 else (stoul16 hex).map fun n => utf8Len (n % 2 ^ 32)

/-- The bytes that the characters stand for; an unknown escape stands for two. -/
def byteCount : (skip : Nat) → Text → Nat
  | _, [] => 0
  | skip + 1, _ :: rest => byteCount skip rest
  | 0, '\\' :: next :: rest =>
    match hexWidth next with
    | some width =>
      if rest.length < width then byteCount 0 rest
      else hexBytes next (rest.take width) + byteCount width rest
    | none =>
      if isOct next then 1 + byteCount ((rest.take 2).takeWhile isOct).length rest
      else (if (simpleEscape next).isSome then 1 else 2) + byteCount 0 rest
  | 0, _ :: rest => 1 + byteCount 0 rest

/-- The bytes that escapes stand for and those that are counted for them come out even, `extra`
being what they stood for too much up to here; or an escape at the end has no length. The
digits of the last escape may run into the closing quote. -/
def Balanced : (skip : Nat) → (extra : Int) → Text → Prop
  | _, extra, [] => extra = 0
  | skip + 1, extra, _ :: rest => Balanced skip extra rest
  | 0, _, ['\\'] => True
  | 0, extra, '\\' :: next :: rest =>
    match hexWidth next with
    | some width =>
      if rest.length + 2 ≤ width then True
      else
        match hexCounted next ((rest ++ ['"']).take width) with
        | none => False
        | some n =>
          if rest.length < width then extra + byteCount 0 rest = n
          else Balanced width (extra + hexBytes next (rest.take width) - n) rest
    | none =>
      if isOct next then Balanced ((rest.take 2).takeWhile isOct).length extra rest
      else Balanced 0 (if (simpleEscape next).isSome then extra else extra + 1) rest
  | 0, extra, _ :: rest => Balanced 0 extra rest

/-- The condition on a token of either kind. -/
def Regular : Kind → Text → Prop
  | .str, body => Common body
  | .cStr, body => Balanced 0 0 body

end Meaning

section Tokens

variable (body : Text)

theorem str_body :
    ((strToken body).drop 1).take ((strToken body).length - 2) = body := by
  simp [strToken]

theorem cStr_body :
    ((cStrToken body).drop 2).take ((cStrToken body).length - 3) = body := by
  simp [cStrToken]

theorem visitStrLitExpr_token : visitStrLitExpr (strToken body) = decode 0 body := by
  rw [visitStrLitExpr, str_body]

theorem visitCStrLitExpr_token :
    visitCStrLitExpr (cStrToken body) = decode 0 body := by
  rw [visitCStrLitExpr, cStr_body]

theorem decodeLen_token {tok front body : Text} (shape : tok = front ++ strToken body) :
    decodeLen tok front = countLen 0 body := by
  have long : ¬ tok.length < front.length + 2 := by simp [shape, strToken]
  have first : ¬ (!front.isPrefixOf tok) = true := by simp [shape]
  have last : ¬ tok.getLast? ≠ some '"' := by simp [shape, strToken, getLast?_cons]
  have inner : (tok.drop (front.length + 1)).dropLast = body := by
    simp [shape, strToken, drop_append]
  rw [decodeLen, if_neg long, if_neg first, if_neg last, inner]

theorem strLen_token :
    tryGetCStringLiteralLen (.strLit (strToken body)) = countLen 0 body :=
  decodeLen_token rfl

theorem cStrLen_token :
    tryGetCStringLiteralLen (.cStrLit (cStrToken body)) = countLen 0 body :=
  decodeLen_token rfl

theorem constant_token : strLitValue (strToken body) = unescape body := by
  simp [strLitValue, strToken]

end Tokens

section Solid

def solid (t : Text) : Nat := t.countP (· ≠ '\\')

theorem solid_append (s t : Text) : solid (s ++ t) = solid s + solid t := countP_append

variable (t : Text)

theorem solid_le_length : solid t ≤ t.length := countP_le_length

variable {c : Char}

theorem solid_cons (other : c ≠ '\\') (t : Text) : solid (c :: t) = solid t + 1 :=
  countP_cons_of_pos (by simpa using other)

theorem solid_backslash : solid ('\\' :: t) = solid t :=
  countP_cons_of_neg (by simp)

theorem solid_le_cons (c : Char) (t : Text) : solid t ≤ solid (c :: t) := by
  by_cases same : c = '\\'
  · rw [same, solid_backslash]
  · rw [solid_cons same]
    exact Nat.le_succ _

theorem decode_skip (skip : Nat) (body : Text) : decode skip body = decode 0 (body.drop skip) := by
  induction skip generalizing body with
  | zero => rfl
  | succ skip ih =>
    cases body with
    | nil => cases skip <;> rfl
    | cons c rest => exact ih rest

theorem decode_plain (plain : c ≠ '\\') (rest : Text) :
    decode 0 (c :: rest) = c :: decode 0 rest := by
  rw [decode]
  simp [plain]

theorem decode_escape (next : Char) (rest : Text) : decode 0 ('\\' :: next :: rest) =
      (escape next rest).1 ++ decode 0 (rest.drop (escape next rest).2) := by
  rw [← decode_skip]
  rfl

theorem unescape_plain (plain : c ≠ '\\') (rest : Text) :
    unescape (c :: rest) = c :: unescape rest := by
  rw [unescape]
  simp [plain]

def unescaped (c : Char) : Char :=
  if c = 'n' then '\n' else if c = 't' then '\t' else if c = '0' then Char.ofNat 0 else c

theorem unescape_escape (next : Char) (rest : Text) :
    unescape ('\\' :: next :: rest) = unescaped next :: unescape rest := rfl

theorem unescaped_solid (other : c ≠ '\\') : unescaped c ≠ '\\' := by
  unfold unescaped
  split_ifs
  · decide
  · decide
  · decide
  · exact other

theorem solid_from_anywhere {least : Nat} {body : Text} (aligned : least ≤ solid (unescape body))
    (escaped : least ≤ solid (unescape ('\\' :: body))) (front : Text) :
    least ≤ solid (unescape (front ++ body)) := by
  induction front using ConstExpr.unescape.induct with
  | case1 c rest ih => exact (ih.trans (solid_le_cons _ _))
  | case2 c rest other ih =>
    by_cases backslash : c = '\\'
    · subst backslash
      cases rest with
      | nil => exact escaped
      | cons d more => exact absurd rfl (other d more rfl)
    · rw [cons_append, unescape_plain backslash]
      exact ih.trans (solid_le_cons _ _)
  | case3 => exact aligned

theorem solid_plain_append {front : Text} (plain : ∀ c ∈ front, c ≠ '\\') (rest : Text) :
    solid (unescape (front ++ rest)) = front.length + solid (unescape rest) := by
  induction front with
  | nil => simp
  | cons c front ih =>
    have here : c ≠ '\\' := plain c (by simp)
    have there := ih fun d found => plain d (by simp [found])
    rw [cons_append, unescape_plain here, solid_cons here, there, length_cons]
    omega

theorem utf8Encode_length_le (cp : Nat) : (utf8Encode cp).length ≤ 4 := by
  unfold utf8Encode
  split_ifs <;> simp

structure Paid (bytes : Text) (taken : Nat) (rest : Text) : Prop where
  enough : bytes = [] ∨ taken ≤ rest.length
  plain : bytes = [] ∨ ∀ c ∈ rest.take taken, c ≠ '\\'
  bounded : bytes.length ≤ taken

theorem isHex_ne (hex : isHex c = true) : c ≠ '\\' := by
  rintro rfl
  exact absurd hex (by decide)

theorem isOct_ne (oct : isOct c = true) : c ≠ '\\' := by
  rintro rfl
  exact absurd oct (by decide)

theorem hexEscape_paid {width : Nat} {encode : Nat → Text}
    (short : ∀ n, (encode n).length ≤ width) (rest : Text) :
    Paid (hexEscape width encode rest).1 (hexEscape width encode rest).2 rest := by
  unfold hexEscape
  by_cases long : width ≤ rest.length
  · rw [if_pos long]
    by_cases hex : allHex (rest.take width) = true
    · have digits : ∀ c ∈ rest.take width, isHex c = true := by
        simp only [allHex, Bool.and_eq_true, List.all_eq_true] at hex
        exact hex.2
      exact ⟨.inr long, .inr fun c found => isHex_ne (digits c found), by simpa [hex] using short _⟩
    · exact ⟨.inl (by simp [hex]), .inl (by simp [hex]), by simp [hex]⟩
  · rw [if_neg long]
    exact ⟨.inl rfl, .inl rfl, Nat.zero_le _⟩

def moreOct (rest : Text) : Text := (rest.take 2).takeWhile isOct

variable (rest : Text)

theorem moreOct_take : rest.take (moreOct rest).length = moreOct rest := by
  have first : moreOct rest <+: rest :=
    (List.takeWhile_prefix _).trans (List.take_prefix 2 rest)
  exact (prefix_iff_eq_take.1 first).symm

variable {rest : Text}

theorem moreOct_nil_iff :
    moreOct rest = [] ↔ (rest.head?.all fun c => !isOct c) = true := by
  cases rest with
  | nil => simp [moreOct]
  | cons c rest => cases oct : isOct c <;> simp [moreOct, oct]

theorem octEscape_length (next : Char) (rest : Text) : (octEscape next rest).1.length ≤ 1 := by
  unfold octEscape
  dsimp only
  split_ifs <;> simp

variable {next : Char}

theorem octEscape_paid (more : moreOct rest ≠ []) :
    Paid (octEscape next rest).1 (octEscape next rest).2 rest := by
  have taken : (octEscape next rest).2 = (moreOct rest).length := rfl
  have positive : 0 < (moreOct rest).length := length_pos_iff.2 more
  refine ⟨.inr ?_, .inr ?_, (octEscape_length next rest).trans (taken ▸ positive)⟩
  · have cut := congrArg List.length (moreOct_take rest)
    rw [length_take] at cut
    omega
  · intro c found
    rw [taken, moreOct_take] at found
    exact isOct_ne (mem_takeWhile_imp found)

/-- The forms of an escape: a known character, a run of digits, one octal digit, and a pair that
is emitted as it stands. -/
inductive Form (next : Char) (rest : Text) : Prop where
  | simple (c : Char) (known : simpleEscape next = some c) (emits : escape next rest = ([c], 0))
  | wide (strange : next ∉ ['n', 't', '\\', '"', '\'', '?'])
      (run : next = '0' → moreOct rest ≠ []) (other : next ≠ '\\')
      (paid : Paid (escape next rest).1 (escape next rest).2 rest)
  | lone (oct : '0' ≤ next ∧ next ≤ '7') (alone : moreOct rest = [])
      (emits : escape next rest = ([byte ((digitsValue 8 [next]).getD 0)], 0))
  | unknown (strange : simpleEscape next = none) (other : next ≠ '0')
      (emits : escape next rest = (['\\', next], 0))

theorem notCommon_of_strange (strange : simpleEscape next = none) :
    next ∉ ['n', 't', '\\', '"', '\'', '?'] := by
  intro found
  have simple : ['n', 't', '\\', '"', '\'', '?'].all (fun c => (simpleEscape c).isSome) := by decide
  simpa [strange] using List.all_eq_true.1 simple next found

theorem isOct_iff (c : Char) : isOct c = true ↔ '0' ≤ c ∧ c ≤ '7' := by
  constructor
  · intro oct
    have digit : c ∈ "01234567".toList := by simpa [isOct] using oct
    have bounds : "01234567".toList.all (fun d => '0' ≤ d ∧ d ≤ '7') := by decide
    exact of_decide_eq_true (List.all_eq_true.1 bounds c digit)
  · rintro ⟨low, high⟩
    have lower : 48 ≤ c.toNat := low
    have upper : c.toNat ≤ 55 := high
    rw [← Char.ofNat_toNat c]
    interval_cases _ : c.toNat <;> decide

theorem octEscape_alone (oct : '0' ≤ next ∧ next ≤ '7') (alone : moreOct rest = []) :
    octEscape next rest = ([byte ((digitsValue 8 [next]).getD 0)], 0) := by
  have digit : isOct next = true := (isOct_iff next).2 oct
  have none_more : (rest.take 2).takeWhile isOct = [] := alone
  simp [octEscape, none_more, allOct, digit]

theorem escape_form (next : Char) (rest : Text) : Form next rest := by
  cases known : simpleEscape next with
  | some c => exact .simple c known (by simp [escape, known])
  | none =>
    have strange := notCommon_of_strange known
    have other : next ≠ '\\' := fun same => strange (by simp [same])
    by_cases x : next = 'x'
    · subst x
      have short (n : Nat) : [byte n].length ≤ 2 := by simp
      exact .wide strange (nomatch ·) other (hexEscape_paid short rest)
    by_cases u : next = 'u'
    · subst u
      exact .wide strange (nomatch ·) other (hexEscape_paid utf8Encode_length_le rest)
    by_cases U : next = 'U'
    · subst U
      have short (n : Nat) : (utf8Encode n).length ≤ 8 :=
        (utf8Encode_length_le n).trans (by decide)
      exact .wide strange (nomatch ·) other (hexEscape_paid short rest)
    by_cases oct : '0' ≤ next ∧ next ≤ '7'
    · have emits : escape next rest = octEscape next rest := by
        simp [escape, known, x, u, U, oct]
      by_cases alone : moreOct rest = []
      · exact .lone oct alone (emits.trans (octEscape_alone oct alone))
      · exact .wide strange (fun _ => alone) other (emits ▸ octEscape_paid alone)
    · exact .unknown known (fun zero => oct (by simp [zero])) (by simp [escape, known, x, u, U, oct])

theorem solid_paid {least : Nat} {bytes : Text} {taken : Nat} (paid : Paid bytes taken rest)
    (kept : ∀ front, least ≤ solid (unescape (front ++ rest.drop taken))) :
    solid bytes + least ≤ solid (unescape rest) := by
  have split : rest.take taken ++ rest.drop taken = rest := take_append_drop taken rest
  by_cases empty : bytes = []
  · have whole := kept (rest.take taken)
    rw [split] at whole
    simpa [empty, solid] using whole
  · have long : taken ≤ rest.length := paid.enough.resolve_left empty
    have digits := solid_plain_append (paid.plain.resolve_left empty) (rest.drop taken)
    rw [split, length_take, Nat.min_eq_left long] at digits
    have bound : solid bytes ≤ taken := (solid_le_length bytes).trans paid.bounded
    have tail := kept []
    rw [nil_append] at tail
    omega

theorem solid_escape (other : next ≠ '\\')
    (kept : ∀ taken front, solid (decode 0 (rest.drop taken)) ≤
      solid (unescape (front ++ rest.drop taken))) :
    solid (decode 0 ('\\' :: next :: rest)) ≤ solid (unescape rest) + 1 := by
  have tail : solid (decode 0 rest) ≤ solid (unescape rest) := kept 0 []
  rw [decode_escape, solid_append]
  cases escape_form next rest with
  | simple c known emits =>
    rw [emits]
    have one : solid [c] ≤ 1 := solid_le_length [c]
    exact (add_le_add one tail).trans_eq (add_comm 1 _)
  | wide strange run other paid => exact Nat.le_succ_of_le (solid_paid paid (kept _))
  | lone oct alone emits =>
    rw [emits]
    have one := solid_le_length [byte ((digitsValue 8 [next]).getD 0)]
    exact (add_le_add one tail).trans_eq (add_comm 1 _)
  | unknown strange zero emits =>
    rw [emits]
    have one : solid ['\\', next] = 1 := by
      rw [solid_backslash, solid_cons other]
      rfl
    rw [one, add_comm]
    exact Nat.succ_le_succ tail

theorem solid_decode_le (body front : Text) :
    solid (decode 0 body) ≤ solid (unescape (front ++ body)) := by
  -- The constant evaluator may take the first character for the end of an escape.
  suffices ends : solid (decode 0 body) ≤ solid (unescape body) ∧
      solid (decode 0 body) ≤ solid (unescape ('\\' :: body)) from
    solid_from_anywhere ends.1 ends.2 front
  match body with
  | [] => exact ⟨Nat.zero_le _, Nat.zero_le _⟩
  | [c] =>
    by_cases backslash : c = '\\'
    · subst backslash
      exact ⟨Nat.zero_le _, Nat.zero_le _⟩
    · rw [decode_plain backslash, unescape_plain backslash, unescape_escape,
        solid_cons backslash, solid_cons backslash, solid_cons (unescaped_solid backslash)]
      exact ⟨le_rfl, le_rfl⟩
  | c :: next :: rest =>
    by_cases plain : c ≠ '\\'
    · have tail := solid_decode_le (next :: rest) []
      rw [decode_plain plain, unescape_plain plain, unescape_escape, solid_cons plain,
        solid_cons plain, solid_cons (unescaped_solid plain)]
      exact ⟨Nat.succ_le_succ tail, Nat.succ_le_succ tail⟩
    obtain rfl : c = '\\' := not_not.1 plain
    have kept (taken : Nat) (front : Text) : solid (decode 0 (rest.drop taken)) ≤
        solid (unescape (front ++ rest.drop taken)) := solid_decode_le _ _
    by_cases backslash : next = '\\'
    · subst backslash
      have emits : decode 0 ('\\' :: '\\' :: rest) = '\\' :: decode 0 rest := rfl
      rw [emits, unescape_escape, unescape_escape, solid_backslash]
      exact ⟨(kept 0 []).trans (solid_le_cons _ _),
        (solid_decode_le rest ['\\']).trans (solid_le_cons _ _)⟩
    · have step := solid_escape backslash kept
      rw [unescape_escape, unescape_escape, unescape_plain backslash,
        solid_cons (unescaped_solid backslash)]
      have again := solid_le_cons (unescaped '\\') (next :: unescape rest)
      rw [solid_cons backslash] at again
      exact ⟨step, step.trans again⟩
termination_by body.length
decreasing_by all_goals simp_wf <;> omega

end Solid

section Decoders
variable {next : Char}

theorem decode_wide_ne {rest : Text} (other : next ≠ '\\')
    (paid : Paid (escape next rest).1 (escape next rest).2 rest) :
    decode 0 ('\\' :: next :: rest) ≠ unescape ('\\' :: next :: rest) := by
  intro same
  have fewer : solid (decode 0 ('\\' :: next :: rest)) ≤ solid (unescape rest) := by
    rw [decode_escape, solid_append]
    exact solid_paid paid fun front => solid_decode_le _ front
  rw [same, unescape_escape, solid_cons (unescaped_solid other)] at fewer
  exact Nat.not_succ_le_self _ fewer

theorem common_escape (next : Char) (rest : Text) : Common ('\\' :: next :: rest) ↔
      (next ∈ ['n', 't', '\\', '"', '\'', '?'] ∨ next = '0' ∧ moreOct rest = []) ∧ Common rest := by
  rw [Common, moreOct_nil_iff]

variable {c : Char}

theorem common_plain (plain : c ≠ '\\') (rest : Text) : Common (c :: rest) ↔ Common rest := by
  rw [Common]
  simp [plain]

theorem simpleEscape_agrees (known : simpleEscape next = some c) :
    c = unescaped next ↔ next ∈ ['n', 't', '\\', '"', '\'', '?'] := by
  unfold simpleEscape at known
  split at known <;> cases known <;> decide

theorem octal_agrees (oct : '0' ≤ next ∧ next ≤ '7') :
    byte ((digitsValue 8 [next]).getD 0) = unescaped next ↔ next = '0' := by
  have digit : next ∈ "01234567".toList := by simpa [isOct] using (isOct_iff next).2 oct
  have values : "01234567".toList.all fun d =>
      byte ((digitsValue 8 [d]).getD 0) = unescaped d ↔ d = '0' := by decide
  exact of_decide_eq_true (List.all_eq_true.1 values next digit)

theorem octal_notCommon (oct : '0' ≤ next ∧ next ≤ '7') :
    next ∉ ['n', 't', '\\', '"', '\'', '?'] := by
  have digit : next ∈ "01234567".toList := by simpa [isOct] using (isOct_iff next).2 oct
  have values : "01234567".toList.all fun d => d ∉ ['n', 't', '\\', '"', '\'', '?'] := by decide
  exact of_decide_eq_true (List.all_eq_true.1 values next digit)

theorem unescaped_ne_backslash (strange : simpleEscape next = none) : unescaped next ≠ '\\' := by
  apply unescaped_solid
  rintro rfl
  cases strange

theorem decode_eq_unescape_iff (body : Text) : decode 0 body = unescape body ↔ Common body := by
  induction body using ConstExpr.unescape.induct with
  | case1 next rest ih =>
    rw [common_escape]
    cases escape_form next rest with
    | simple c known emits =>
      have zero : next ≠ '0' := by
        rintro rfl
        cases known
      rw [decode_escape, emits, unescape_escape]
      simp [simpleEscape_agrees known, ih, zero]
    | wide strange run other paid =>
      refine iff_of_false (decode_wide_ne other paid) ?_
      rintro ⟨common | ⟨zero, alone⟩, -⟩
      · exact strange common
      · exact run zero alone
    | lone oct alone emits =>
      rw [decode_escape, emits, unescape_escape]
      simp [octal_agrees oct, octal_notCommon oct, ih, alone]
    | unknown strange zero emits =>
      have head : ¬ '\\' = unescaped next := (unescaped_ne_backslash strange).symm
      rw [decode_escape, emits, unescape_escape]
      simp [head, notCommon_of_strange strange, zero]
  | case2 c rest other ih =>
    by_cases plain : c = '\\'
    · subst plain
      cases rest with
      | nil => exact iff_of_true rfl trivial
      | cons next rest => exact absurd rfl (other next rest rfl)
    · rw [decode_plain plain, unescape_plain plain, common_plain plain, ← ih]
      simp
  | case3 => exact iff_of_true rfl trivial

theorem Len.fits_plus_one {bytes : Text} {l : Len} (c : Char) (fits : l.Fits bytes) :
    (l.plus 1).Fits (c :: bytes) := by
  cases l with
  | nothing => trivial
  | thrown => exact fits
  | len n =>
    have size : n = bytes.length := fits
    show 1 + n = bytes.length + 1
    omega

theorem escapeLen_common {rest : Text}
    (common : next ∈ ['n', 't', '\\', '"', '\'', '?'] ∨ next = '0' ∧ moreOct rest = []) :
    escapeLen next rest = (.len 1, 0) := by
  rcases common with simple | ⟨rfl, alone⟩
  · have counted : ['n', 't', '\\', '"', '\'', '?'] ⊆
        ['n', 'r', 't', '\\', '"', '\'', 'a', 'b', 'f', 'v', 'e', 'E', '?'] := by simp
    rw [escapeLen, if_pos (counted simple)]
  · have digits : (rest.take 2).takeWhile isOct = [] := alone
    simp [escapeLen, digits]

theorem countLen_plain (plain : c ≠ '\\') (rest : Text) :
    countLen 0 (c :: rest) = (countLen 0 rest).plus 1 := by
  rw [countLen]
  · simp [plain]
  · simp [plain]

theorem countLen_common {body : Text} (common : Common body) :
    (countLen 0 body).Fits (unescape body) := by
  induction body using ConstExpr.unescape.induct with
  | case1 next rest ih =>
    rw [common_escape] at common
    have counts : countLen 0 ('\\' :: next :: rest) = (countLen 0 rest).plus 1 := by
      rw [countLen, escapeLen_common common.1]
    rw [counts, unescape_escape]
    exact Len.fits_plus_one _ (ih common.2)
  | case2 c rest other ih =>
    by_cases plain : c = '\\'
    · subst plain
      cases rest with
      | nil => trivial
      | cons next rest => exact absurd rfl (other next rest rfl)
    · rw [common_plain plain] at common
      have counts : countLen 0 (c :: rest) = (countLen 0 rest).plus 1 := countLen_plain plain rest
      rw [counts, unescape_plain plain]
      exact Len.fits_plus_one _ (ih common)
  | case3 => rfl

theorem hexWidth_eq (next : Char) : hexWidth next = some 2 ∧ next = 'x' ∨
    hexWidth next = some 4 ∧ next = 'u' ∨ hexWidth next = some 8 ∧ next = 'U' ∨
      hexWidth next = none ∧ next ≠ 'x' ∧ next ≠ 'u' ∧ next ≠ 'U' := by
  unfold hexWidth
  split
  · simp
  · simp
  · simp
  · next x u U => exact .inr (.inr (.inr ⟨rfl, x, u, U⟩))

theorem utf8Encode_length (cp : Nat) :
    (utf8Encode cp).length = if cp ≤ 0x10FFFF then utf8Len cp else 0 := by
  unfold utf8Encode utf8Len
  split_ifs <;> first | rfl | omega

theorem hexEscape_length (width : Nat) (encode : Nat → Text) (rest : Text) :
    (hexEscape width encode rest).2 = (if rest.length < width then 0 else width) ∧
      (hexEscape width encode rest).1.length = if rest.length < width then 0
        else if allHex (rest.take width) then (encode ((digitsValue 16 (rest.take width)).getD 0)).length
          else 0 := by
  unfold hexEscape
  by_cases short : rest.length < width
  · rw [if_neg (Nat.not_le.2 short), if_pos short, if_pos short]
    exact ⟨rfl, rfl⟩
  · rw [if_pos (Nat.not_lt.1 short), if_neg short, if_neg short]
    refine ⟨rfl, ?_⟩
    dsimp only
    split <;> rfl

theorem escape_hex {width : Nat} (known : hexWidth next = some width) (rest : Text) :
    (escape next rest).2 = (if rest.length < width then 0 else width) ∧
      (escape next rest).1.length =
        if rest.length < width then 0 else hexBytes next (rest.take width) := by
  rcases hexWidth_eq next with ⟨same, rfl⟩ | ⟨same, rfl⟩ | ⟨same, rfl⟩ | ⟨same, -⟩
  all_goals cases known.symm.trans same
  · have lengths := hexEscape_length 2 (fun n => [byte n]) rest
    refine ⟨lengths.1, lengths.2.trans ?_⟩
    simp only [hexBytes, length_singleton]
    cases allHex (rest.take 2) <;> simp
  · have lengths := hexEscape_length 4 utf8Encode rest
    refine ⟨lengths.1, lengths.2.trans ?_⟩
    simp only [hexBytes, utf8Encode_length]
    cases allHex (rest.take 4) <;> simp
  · have lengths := hexEscape_length 8 utf8Encode rest
    refine ⟨lengths.1, lengths.2.trans ?_⟩
    simp only [hexBytes, utf8Encode_length]
    cases allHex (rest.take 8) <;> simp

theorem simpleEscape_octal (oct : isOct next = true) : simpleEscape next = none := by
  have digit : next ∈ "01234567".toList := by simpa [isOct] using oct
  have none : "01234567".toList.all fun d => simpleEscape d = none := by decide
  exact of_decide_eq_true (List.all_eq_true.1 none next digit)

theorem escape_oct (plain : hexWidth next = none) (oct : isOct next = true) (rest : Text) :
    (escape next rest).2 = (moreOct rest).length ∧ (escape next rest).1.length = 1 := by
  rcases hexWidth_eq next with ⟨same, -⟩ | ⟨same, -⟩ | ⟨same, -⟩ | ⟨-, x, u, U⟩
  all_goals try cases plain.symm.trans same
  have digits : allOct (next :: (rest.take 2).takeWhile isOct) = true := by
    simp only [allOct, all_cons, oct, Bool.true_and, Bool.and_eq_true, all_eq_true]
    exact ⟨by simp, fun c member => mem_takeWhile_imp member⟩
  simp [escape, simpleEscape_octal oct, x, u, U, (isOct_iff next).1 oct, octEscape, digits, moreOct]

theorem escape_other (plain : hexWidth next = none) (oct : isOct next = false) (rest : Text) :
    (escape next rest).2 = 0 ∧
      (escape next rest).1.length = if (simpleEscape next).isSome then 1 else 2 := by
  rcases hexWidth_eq next with ⟨same, -⟩ | ⟨same, -⟩ | ⟨same, -⟩ | ⟨-, x, u, U⟩
  all_goals try cases plain.symm.trans same
  have none : ¬('0' ≤ next ∧ next ≤ '7') := fun range => by simp [(isOct_iff next).2 range] at oct
  cases known : simpleEscape next <;> simp [escape, known, x, u, U, none]

theorem decode_length (skip : Nat) (body : Text) :
    (decode skip body).length = byteCount skip body := by
  induction skip, body using byteCount.induct with
  | case1 => simp [decode, byteCount]
  | case2 skip c rest ih => exact ih
  | case3 next rest width known short ih =>
    have form := escape_hex known rest
    rw [decode_escape, length_append, form.1, form.2, byteCount, known]
    simp [short, ih]
  | case4 next rest width known long ih =>
    have form := escape_hex known rest
    rw [decode_escape, ← decode_skip, length_append, form.1, form.2, byteCount, known]
    simp [long, ih]
  | case5 next rest plain oct ih =>
    have form := escape_oct plain oct rest
    rw [decode_escape, ← decode_skip, length_append, form.1, form.2, byteCount, plain]
    simp [oct, ih, moreOct]
  | case6 next rest plain oct ih =>
    have form := escape_other plain (Bool.eq_false_iff.2 oct) rest
    rw [decode_escape, length_append, form.1, form.2, byteCount, plain]
    simp [oct, ih]
  | case7 c rest other ih =>
    by_cases plain : c = '\\'
    · subst plain
      cases rest with
      | nil => rfl
      | cons next rest => exact absurd rfl (other next rest rfl)
    · rw [decode_plain plain, length_cons, ih, byteCount, add_comm]
      exact other

def Len.Off (extra : Int) (count : Nat) : Len → Prop
  | nothing => True
  | len n => n = count + extra
  | thrown => False

theorem escapeLen_hex {width : Nat} (known : hexWidth next = some width) (rest : Text) :
    escapeLen next rest = (if rest.length + 2 ≤ width then .nothing
      else match hexCounted next ((rest ++ ['"']).take width) with
        | some n => .len n
        | none => .thrown, width) := by
  rcases hexWidth_eq next with ⟨same, rfl⟩ | ⟨same, rfl⟩ | ⟨same, rfl⟩ | ⟨same, -⟩
  all_goals cases known.symm.trans same
  · cases rest <;> simp [escapeLen, hexCounted]
  · have differs : ('u' : Char) ≠ 'x' := by decide
    simp only [escapeLen, unicodeLen, hexCounted, if_neg differs]
    cases stoul16 ((rest ++ ['"']).take 4) <;> simp
  · have differs : ('U' : Char) ≠ 'x' := by decide
    simp only [escapeLen, unicodeLen, hexCounted, if_neg differs]
    cases stoul16 ((rest ++ ['"']).take 8) <;> simp

theorem escapeLen_other (plain : hexWidth next = none) (rest : Text) : escapeLen next rest =
    (.len 1, if isOct next then (moreOct rest).length else 0) := by
  rcases hexWidth_eq next with ⟨same, -⟩ | ⟨same, -⟩ | ⟨same, -⟩ | ⟨-, x, u, U⟩
  all_goals try cases plain.symm.trans same
  by_cases oct : isOct next = true
  · have digit : next ∈ "01234567".toList := by simpa [isOct] using oct
    have strange : "01234567".toList.all fun d =>
        d ∉ ['n', 'r', 't', '\\', '"', '\'', 'a', 'b', 'f', 'v', 'e', 'E', '?'] := by decide
    have other := of_decide_eq_true (List.all_eq_true.1 strange next digit)
    rw [escapeLen, if_neg other, if_neg x, if_neg u, if_neg U, if_pos ((isOct_iff next).1 oct),
      if_pos oct, moreOct]
  · have none : ¬('0' ≤ next ∧ next ≤ '7') := fun range => oct ((isOct_iff next).2 range)
    rw [escapeLen, if_neg x, if_neg u, if_neg U, if_neg none, if_neg oct, ite_self]

theorem countLen_past {skip : Nat} {body : Text} (long : body.length ≤ skip) :
    countLen skip body = .len 0 := by
  induction body generalizing skip with
  | nil => cases skip <;> rfl
  | cons c rest ih =>
    cases skip with
    | zero => exact absurd long (by simp)
    | succ skip => exact ih (Nat.succ_le_succ_iff.1 long)

theorem Len.plus_off (n a count : Nat) (extra : Int) (l : Len) :
    (l.plus n).Off extra (a + count) ↔ l.Off (extra + a - n) count := by
  cases l with
  | nothing | thrown => rfl
  | len m =>
    change ((n + m : Nat) : Int) = _ ↔ (m : Int) = _
    omega

theorem countLen_escape (next : Char) (rest : Text) : countLen 0 ('\\' :: next :: rest) =
    match escapeLen next rest with
    | (.len n, taken) => (countLen taken rest).plus n
    | (other, _) => other := by
  rw [countLen]
  cases escapeLen next rest with
  | mk bytes taken => cases bytes <;> rfl

theorem balanced_iff (skip : Nat) (extra : Int) (body : Text) :
    Balanced skip extra body ↔ (countLen skip body).Off extra (byteCount skip body) := by
  induction skip, extra, body using Balanced.induct with
  | case1 skip extra => simp [Balanced, byteCount, countLen, Len.Off, eq_comm]
  | case2 skip extra c rest ih => exact ih
  | case3 extra => exact .rfl
  | case4 extra next rest width known unread =>
    rw [countLen_escape, escapeLen_hex known, Balanced, known]
    simp [unread, Len.Off]
  | case5 extra next rest width known read thrown =>
    rw [countLen_escape, escapeLen_hex known, Balanced, known]
    simp [read, thrown, Len.Off]
  | case6 extra next rest width known read n counted short =>
    rw [countLen_escape, escapeLen_hex known, Balanced, known, byteCount, known]
    simp only [if_neg read, counted, if_pos short, countLen_past short.le]
    change _ ↔ ((n + 0 : Nat) : Int) = _
    omega
  | case7 extra next rest width known read n counted long ih =>
    rw [countLen_escape, escapeLen_hex known, Balanced, known, byteCount, known]
    simp only [if_neg read, counted, if_neg long, Len.plus_off, ih]
  | case8 extra next rest plain oct ih =>
    rw [countLen_escape, escapeLen_other plain, Balanced, plain, byteCount, plain]
    simp only [if_pos oct, Len.plus_off, ih, moreOct]
    simp
  | case9 extra next rest plain oct ih =>
    rw [countLen_escape, escapeLen_other plain, Balanced, plain, byteCount, plain]
    have once : extra + (2 : Nat) - (1 : Nat) = extra + 1 := by omega
    simp only [if_neg oct, Len.plus_off, ih]
    cases simpleEscape next with
    | none => exact once ▸ .rfl
    | some c => simp
  | case10 extra c rest lone pair ih =>
    have plain : c ≠ '\\' := by
      rintro rfl
      cases rest with
      | nil => exact lone rfl rfl
      | cons next rest => exact pair next rest rfl rfl
    rw [countLen_plain plain, Balanced, byteCount, Len.plus_off, ih]
    · simp
    · exact pair
    · exact lone
    · exact pair

theorem fits_iff_off (bytes : Text) (l : Len) : l.Fits bytes ↔ l.Off 0 bytes.length := by
  cases l <;> simp [Len.Fits, Len.Off]

/-- A string token has one meaning exactly when all its escapes are common ones, and a C string
token when the bytes of its escapes come out even with what is counted for them. -/
theorem one_meaning_iff (kind : Kind) (body : Text) : OneMeaning kind body ↔ Regular kind body := by
  have same : visitStrLitExpr (strToken body) = visitCStrLitExpr (cStrToken body) :=
    (visitStrLitExpr_token body).trans (visitCStrLitExpr_token body).symm
  cases kind with
  | str =>
    refine Iff.trans ⟨fun meaning => ?_, fun agree => ?_⟩ (decode_eq_unescape_iff body)
    · have constant := meaning.constant _ rfl
      rwa [constant_token, emitted, visitStrLitExpr_token, eq_comm] at constant
    · have common : Common body := (decode_eq_unescape_iff body).mp agree
      have fits : (countLen 0 body).Fits (decode 0 body) := agree ▸ countLen_common common
      refine ⟨same, ?_, ?_⟩
      · rwa [token, strLen_token, emitted, visitStrLitExpr_token]
      · rintro _ ⟨⟩
        rw [constant_token, emitted, visitStrLitExpr_token, agree]
  | cStr =>
    have length : (tryGetCStringLiteralLen (token .cStr body)).Fits (emitted .cStr body) ↔
        Balanced 0 0 body := by
      rw [token, cStrLen_token, emitted, visitCStrLitExpr_token, fits_iff_off, decode_length,
        balanced_iff]
    exact ⟨fun meaning => length.1 meaning.length,
      fun balanced => ⟨same, length.2 balanced, nofun⟩⟩

/-- Both emitters write the two bytes of `\q`; one is counted, and the constant evaluator has
one. -/
theorem unknown_escape_differs :
    visitStrLitExpr (strToken ['\\', 'q']) = ['\\', 'q'] ∧
      tryGetCStringLiteralLen (.strLit (strToken ['\\', 'q'])) = .len 1 ∧
      strLitValue (strToken ['\\', 'q']) = ['q'] ∧ ¬OneMeaning .str ['\\', 'q'] := by
  refine ⟨by decide, by decide, by decide, fun meaning => ?_⟩
  have constant := meaning.constant _ rfl
  revert constant
  decide

end Decoders

/-- `std::stoul` finds no digits in the four characters. -/
example : tryGetCStringLiteralLen (.cStrLit (cStrToken "\\uzzzz".toList)) = .thrown := by decide

example : decode 0 "a\\x41\\u00e9\\101\\q".toList =
    ['a', 'A', byte 0xC3, byte 0xA9, 'A', '\\', 'q'] := by decide

example : countLen 0 "a\\x41\\u00e9\\101\\q".toList = .len 6 := by decide

end Lucis.StringLiteral
