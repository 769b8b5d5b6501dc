import Lucis.StringLiteral
import Lucis.ValueRange

/-!
Buffer capacities of checkers/Checker_safety.cpp: `trackVarBufferFromExpr` records how many
bytes the pointer in a local points to, from the call, the literal or the other local that
it is initialized or assigned from. The capacities are 64-bit words; beside the tracker
stands what they should be, in natural numbers. Each tracked statement also records the
range of its right side, which the arguments of later calls are evaluated with.
-/

namespace Lucis.BufferCapacity

open List Function

open ConstExpr (Text AddOp MulOp)
open StringLiteral (Len)
open ValueRange (Range IntType Digits SuffixedLit usizeMax)

section Expressions

structure Token where
  text : Text
  addressable : text.length < 2 ^ 63

inductive Expr where
  | ident (name : Text)
  | paren (e : Expr)
  | cast (ty : Option IntType) (e : Expr)
  | intLit (digits : Digits 10)
  | suffixedLit (lit : SuffixedLit)
  | addSub (op : AddOp) (ty : IntType) (l r : Expr)
  | mul (op : MulOp) (ty : IntType) (l r : Expr)
  | strLit (tok : Token)
  | cStrLit (tok : Token)
  | btick (tok : Token)
  | fnCall (callee : Expr) (args : List Expr)
  | other (token : Text)

def Expr.numeric : Expr → ValueRange.Expr
  | .ident name => .ident name
  | .paren e => .paren e.numeric
  | .cast ty e => .cast ty e.numeric
  | .intLit digits => .intLit digits
  | .suffixedLit lit => .suffixedLit lit
  | .addSub op ty l r => .addSub op ty l.numeric r.numeric
  | .mul op ty l r => .mul op ty l.numeric r.numeric
  | .strLit tok => .other tok.text
  | .cStrLit tok => .other tok.text
  | .btick tok => .other tok.text
  | .fnCall _ _ => .other []
  | .other token => .other token

def btickMark : Char := Char.ofNat 0x60

def btickCount : Text → Nat
  | first :: second :: rest =>
    if first = btickMark ∧ second = btickMark then 1 + btickCount rest
    else 1 + btickCount (second :: rest)
  | short => short.length

def backtickContentLen (tok : Text) : Len :=
  match tok.dropWhile (· ≠ btickMark) with
  | [] => .nothing
  | _ :: rest =>
    match rest.reverse.dropWhile (· ≠ btickMark) with
    | [] => .nothing
    | _ :: content => .len (btickCount content.reverse)

def tryGetCStringLiteralLen : Expr → Len
  | .cast _ e => tryGetCStringLiteralLen e
  | .cStrLit tok => StringLiteral.decodeLen tok.text ['c']
  | .strLit tok => StringLiteral.decodeLen tok.text []
  | .btick tok => backtickContentLen tok.text
  | _ => .nothing

end Expressions

section Tracker

inductive TypeKind where
  | pointer
  | integer
  | other
  deriving DecidableEq

/-- `VarInfo`, as far as buffers and ranges go; no type is the null pointer. -/
structure VarInfo where
  type : Option TypeKind
  usizeRange : Option Range
  hasBufferCapacity : Bool
  bufferCapacity : UInt64
  hasKnownCStringLen : Bool
  cstringLen : UInt64
  pointerEscaped : Bool

abbrev Locals := Text → Option VarInfo

inductive Fault where
  | divisionByZero
  | thrown
  deriving DecidableEq

def ranges (locals : Locals) : ValueRange.Locals := fun name => (locals name).bind (·.usizeRange)

def tryEvalUSizeRangeExpr (locals : Locals) (e : Expr) : Option Range :=
  ValueRange.tryEvalUSizeRangeExpr (ranges locals) e.numeric

def tryEvalUSizeExpr (locals : Locals) (e : Expr) : Option UInt64 :=
  (tryEvalUSizeRangeExpr locals e).bind fun range =>
    if range.lo ≠ range.hi then none else some (UInt64.ofNat range.lo)

/-- The local and its name, which tells one `VarInfo` from another. -/
def resolveTrackedVarFromExpr (locals : Locals) : Expr → Option (Text × VarInfo)
  | .cast _ e => resolveTrackedVarFromExpr locals e
  | .ident name => (locals name).map fun vi => (name, vi)
  | _ => none

def resetTrackedBufferInfo (vi : VarInfo) : VarInfo :=
  { vi with
    hasBufferCapacity := false
    bufferCapacity := 0
    hasKnownCStringLen := false
    cstringLen := 0
    pointerEscaped := false }

def resetTrackedNumericInfo (vi : VarInfo) : VarInfo := { vi with usizeRange := none }

def copiedFrom (locals : Locals) (varName : Text) (e : Expr) : Option VarInfo :=
  (resolveTrackedVarFromExpr locals e).bind fun src =>
    if src.1 ≠ varName ∧ src.2.type = some .pointer then some src.2 else none

def calledWith (e : Expr) : Option (Text × List Expr) :=
  let probe := match e with
    | .cast _ inner => inner
    | other => other
  match probe with
  | .fnCall (.ident name) args => some (name, args)
  | _ => none

def setCapacity (vi : VarInfo) (n : UInt64) : VarInfo :=
  { vi with hasBufferCapacity := true, bufferCapacity := n }

def uint64Max : UInt64 := UInt64.ofNat usizeMax

/-- The branches for `malloc`, `calloc` and `realloc`. -/
def trackCall (locals : Locals) (vi : VarInfo) (calleeName : Text) (args : List Expr) :
    Except Fault VarInfo :=
  if calleeName = "malloc".toList then
    match args with
    | n :: _ => .ok (((tryEvalUSizeExpr locals n).map (setCapacity vi)).getD vi)
    | [] => .ok vi
  else if calleeName = "calloc".toList then
    match args with
    | count :: size :: _ =>
      match tryEvalUSizeExpr locals count, tryEvalUSizeExpr locals size with
      | some count, some size =>
        -- `*count <= max / *size`
        if size = 0 then .error .divisionByZero
        else if count ≤ uint64Max / size then .ok (setCapacity vi (count * size))
        else .ok vi
      | _, _ => .ok vi
    | _ => .ok vi
  else if calleeName = "realloc".toList then
    match args with
    | _ :: n :: _ =>
      .ok (((tryEvalUSizeExpr locals n).map fun n =>
        { setCapacity vi n with hasKnownCStringLen := false }).getD vi)
    | _ => .ok vi
  else .ok vi

/-- The new entry of the local; `locals` holds the entry that is reset already. -/
def trackedBuffer (locals : Locals) (varName : Text) (vi : VarInfo) (e : Expr) :
    Except Fault VarInfo :=
  match copiedFrom locals varName e with
  | some src =>
    .ok { vi with
      hasBufferCapacity := src.hasBufferCapacity
      bufferCapacity := src.bufferCapacity
      hasKnownCStringLen := src.hasKnownCStringLen
      cstringLen := src.cstringLen
      pointerEscaped := src.pointerEscaped }
  | none =>
    match tryGetCStringLiteralLen e with
    | .thrown => .error .thrown
    | .len cap =>
      .ok { setCapacity vi (UInt64.ofNat cap + 1) with
        hasKnownCStringLen := true
        cstringLen := UInt64.ofNat cap }
    | .nothing =>
      match calledWith e with
      | some call => trackCall locals vi call.1 call.2
      | none => .ok vi

def trackVarBufferFromExpr (locals : Locals) (varName : Text) (e : Expr)
    (declaredType : Option TypeKind) : Except Fault Locals :=
  match locals varName with
  | none => .ok locals
  | some old =>
    let vi := resetTrackedBufferInfo old
    let locals := Function.update locals varName (some vi)
    if declaredType ≠ some .pointer then .ok locals
    else
      (trackedBuffer locals varName vi e).map fun vi => Function.update locals varName (some vi)

def trackVarNumericRangeFromExpr (locals : Locals) (varName : Text) (e : Expr)
    (declaredType : Option TypeKind) : Locals :=
  match locals varName with
  | none => locals
  | some old =>
    let vi := resetTrackedNumericInfo old
    let locals := Function.update locals varName (some vi)
    if declaredType ≠ some .integer then locals
    else
      Function.update locals varName
        (some { vi with usizeRange := tryEvalUSizeRangeExpr locals e })

/-- The statements that track: a declaration with an initializer, and an assignment to a
whole variable. -/
inductive Statement where
  | varDecl (name : Text) (type : Option TypeKind) (e : Expr)
  | assign (name : Text) (e : Expr)

/-- `VarInfo vi{typeInfo, ...}` -/
def freshVar (type : Option TypeKind) : VarInfo := ⟨type, none, false, 0, false, 0, false⟩

namespace Statement

def name : Statement → Text
  | .varDecl name _ _ => name
  | .assign name _ => name

def expr : Statement → Expr
  | .varDecl _ _ e => e
  | .assign _ e => e

def entered (locals : Locals) : Statement → Locals
  | .varDecl name type _ => Function.update locals name (some (freshVar type))
  | .assign _ _ => locals

def declaredType (locals : Locals) : Statement → Option TypeKind
  | .varDecl _ type _ => type
  | .assign name _ => (locals name).bind (·.type)

end Statement

def trackStatement (locals : Locals) (s : Statement) : Except Fault Locals :=
  (trackVarBufferFromExpr (s.entered locals) s.name s.expr (s.declaredType locals)).map fun after =>
    trackVarNumericRangeFromExpr after s.name s.expr (s.declaredType locals)

def trackStatements (locals : Locals) : List Statement → Except Fault Locals
  | [] => .ok locals
  | s :: rest => (trackStatement locals s).bind fun after => trackStatements after rest

end Tracker

/-! The capacities that should be recorded. -/

section Expected

def capacity (vi : VarInfo) : Option Nat :=
  if vi.hasBufferCapacity then some vi.bufferCapacity.toNat else none

def constant (locals : Locals) (e : Expr) : Option Nat :=
  (tryEvalUSizeRangeExpr locals e).bind fun range => if range.lo = range.hi then some range.lo else none

/-- The bytes that a call allocates, where they are known and fit a `usize`. -/
def allocated (locals : Locals) (calleeName : Text) (args : List Expr) : Option Nat :=
  if calleeName = "malloc".toList then args[0]?.bind (constant locals)
  else if calleeName = "calloc".toList then
    (args[0]?.bind (constant locals)).bind fun count =>
      (args[1]?.bind (constant locals)).bind fun size =>
        if count * size ≤ usizeMax then some (count * size) else none
  else if calleeName = "realloc".toList then args[1]?.bind (constant locals)
  else none

/-- A literal has the length that is reported for it, and its terminator. -/
def expected (locals : Locals) (varName : Text) (declaredType : Option TypeKind) (e : Expr) :
    Option Nat :=
  if declaredType ≠ some .pointer then none
  else
    match copiedFrom locals varName e with
    | some src => capacity src
    | none =>
      match tryGetCStringLiteralLen e with
      | .len cap => some (cap + 1)
      | _ => (calledWith e).bind fun call => allocated locals call.1 call.2

end Expected

/-! Words. -/

section Words

theorem toNat_ofNat {n : Nat} (small : n ≤ usizeMax) : (UInt64.ofNat n).toNat = n := by
  rw [UInt64.toNat_ofNat']
  exact Nat.mod_eq_of_lt (lt_of_le_of_lt small (by decide))

theorem constant_le {locals : Locals} {e : Expr} {n : Nat} (known : constant locals e = some n) :
    n ≤ usizeMax := by
  unfold constant at known
  rcases Option.bind_eq_some_iff.1 known with ⟨range, _, single⟩
  split at single
  · cases single
    exact range.ordered.trans range.bounded
  · cases single

theorem tryEvalUSizeExpr_eq (locals : Locals) (e : Expr) :
    tryEvalUSizeExpr locals e = (constant locals e).map UInt64.ofNat := by
  unfold tryEvalUSizeExpr constant
  cases tryEvalUSizeRangeExpr locals e with
  | none => rfl
  | some range => by_cases single : range.lo = range.hi <;> simp [single]

theorem product_exact {count size : Nat} (first : count ≤ usizeMax) (second : size ≤ usizeMax)
    (positive : size ≠ 0) :
    (UInt64.ofNat count ≤ uint64Max / UInt64.ofNat size ↔ count * size ≤ usizeMax) ∧
      (count * size ≤ usizeMax →
        (UInt64.ofNat count * UInt64.ofNat size).toNat = count * size) := by
  have quotient : (uint64Max / UInt64.ofNat size).toNat = usizeMax / size := by
    rw [UInt64.toNat_div, toNat_ofNat second, uint64Max, toNat_ofNat (le_rfl)]
  constructor
  · rw [UInt64.le_iff_toNat_le, quotient, toNat_ofNat first]
    exact Nat.le_div_iff_mul_le (Nat.pos_of_ne_zero positive)
  · intro fits
    rw [UInt64.toNat_mul, toNat_ofNat first, toNat_ofNat second]
    exact Nat.mod_eq_of_lt (lt_of_le_of_lt fits (by decide))

end Words

/-! No literal counts more bytes than its token has. -/

section Lengths

theorem btickCount_le (t : Text) : btickCount t ≤ t.length := by
  fun_induction btickCount t with
  | case1 first second rest _ ih => simp only [length_cons]; omega
  | case2 first second rest _ ih => simp only [length_cons] at ih ⊢; omega
  | case3 short => exact le_rfl

variable {n : Nat}

theorem backtickContentLen_le {tok : Text} (counted : backtickContentLen tok = .len n) :
    n ≤ tok.length := by
  unfold backtickContentLen at counted
  cases after : tok.dropWhile (· ≠ btickMark) with
  | nil => rw [after] at counted; cases counted
  | cons mark rest =>
    rw [after] at counted
    simp only at counted
    have shorter : (mark :: rest).length ≤ tok.length := by
      rw [← after]
      exact (dropWhile_sublist _).length_le
    cases inner : rest.reverse.dropWhile (· ≠ btickMark) with
    | nil => rw [inner] at counted; cases counted
    | cons last content =>
      rw [inner] at counted
      cases counted
      have within : (last :: content).length ≤ rest.reverse.length := by
        rw [← inner]
        exact (dropWhile_sublist _).length_le
      have fewer := btickCount_le content.reverse
      simp only [length_cons, length_reverse] at shorter within fewer
      omega

theorem utf8Len_le (cp : Nat) : StringLiteral.utf8Len cp ≤ 4 := by
  unfold StringLiteral.utf8Len
  split
  · decide
  · split
    · decide
    · split <;> decide

/-- A `\u` or a `\U` takes at least the three characters that its longest encoding needs. -/
theorem unicodeLen_le {width : Nat} (wide : 4 ≤ width) {rest : Text}
    (counted : StringLiteral.unicodeLen width rest = .len n) : n ≤ 2 + min width rest.length := by
  unfold StringLiteral.unicodeLen at counted
  split at counted
  · cases counted
  · rename_i long
    split at counted
    · rename_i cp _
      cases counted
      have few := utf8Len_le (cp % 2 ^ 32)
      omega
    · cases counted

theorem escapeLen_le {next : Char} {rest : Text} {taken : Nat}
    (counted : StringLiteral.escapeLen next rest = (.len n, taken)) :
    n ≤ 2 + min taken rest.length := by
  unfold StringLiteral.escapeLen at counted
  split_ifs at counted with simple hex ended u U oct
  · cases counted
    omega
  · cases counted
  · cases counted
    omega
  · rcases Prod.mk.inj counted with ⟨bytes, rfl⟩
    exact unicodeLen_le (by omega) bytes
  · rcases Prod.mk.inj counted with ⟨bytes, rfl⟩
    exact unicodeLen_le (by omega) bytes
  · cases counted
    omega
  · cases counted
    omega

theorem plus_len {len : Len} {k : Nat} (counted : len.plus k = .len n) :
    ∃ m, len = .len m ∧ n = k + m := by
  cases len with
  | nothing => cases counted
  | len m =>
    cases counted
    exact ⟨m, rfl, rfl⟩
  | thrown => cases counted

theorem countLen_le {skip : Nat} {t : Text}
    (counted : StringLiteral.countLen skip t = .len n) : n ≤ t.length - skip := by
  fun_induction StringLiteral.countLen skip t generalizing n with
  | case1 skip =>
    cases counted
    exact Nat.zero_le _
  | case2 skip c rest ih =>
    have fewer := ih counted
    simp only [length_cons]
    omega
  | case3 => cases counted
  | case4 next rest taken bytes escape ih =>
    rcases plus_len counted with ⟨m, later, rfl⟩
    have here := escapeLen_le escape
    have fewer := ih later
    simp only [length_cons]
    omega
  | case5 next rest _ other named _ => exact absurd counted (named n)
  | case6 c rest _ _ ih =>
    rcases plus_len counted with ⟨m, later, rfl⟩
    have fewer := ih later
    simp only [length_cons]
    omega

theorem decodeLen_le {tok front : Text}
    (counted : StringLiteral.decodeLen tok front = .len n) : n ≤ tok.length := by
  unfold StringLiteral.decodeLen at counted
  split_ifs at counted
  have fewer := countLen_le counted
  simp only [length_dropLast, length_drop] at fewer
  omega

theorem literal_small {e : Expr} (counted : tryGetCStringLiteralLen e = .len n) : n < 2 ^ 63 := by
  fun_induction tryGetCStringLiteralLen e with
  | case1 _ e ih => exact ih counted
  | case2 tok => exact lt_of_le_of_lt (decodeLen_le counted) tok.addressable
  | case3 tok => exact lt_of_le_of_lt (decodeLen_le counted) tok.addressable
  | case4 tok => exact lt_of_le_of_lt (backtickContentLen_le counted) tok.addressable
  | case5 e => cases counted

end Lengths

section Exact

/-- A `calloc` for a pointer whose count and size are known, the size to be zero. -/
def ZeroSized (locals : Locals) (declaredType : Option TypeKind) (e : Expr) : Prop :=
  declaredType = some .pointer ∧ ∃ count size rest,
    calledWith e = some ("calloc".toList, count :: size :: rest) ∧
      (constant locals count).isSome ∧ constant locals size = some 0

structure Exact (locals after : Locals) (varName : Text) (declaredType : Option TypeKind)
    (e : Expr) : Prop where
  others : ∀ x, x ≠ varName → after x = locals x
  declared : (after varName).isSome = (locals varName).isSome
  capacity_eq : ∀ vi, after varName = some vi →
    capacity vi = expected locals varName declaredType e

theorem capacity_set {n : Nat} (small : n ≤ usizeMax) (vi : VarInfo) :
    capacity (setCapacity vi (UInt64.ofNat n)) = some n := by
  simp only [capacity, setCapacity, if_true, toNat_ofNat small]

variable {vi : VarInfo}

theorem capacity_constant (locals : Locals) (fresh : vi.hasBufferCapacity = false) (e : Expr) :
    capacity (((tryEvalUSizeExpr locals e).map (setCapacity vi)).getD vi) = constant locals e := by
  rw [tryEvalUSizeExpr_eq]
  cases known : constant locals e with
  | none => simp [capacity, fresh]
  | some n => exact capacity_set (constant_le known) vi

variable {locals : Locals}

theorem calloc_exact (fresh : vi.hasBufferCapacity = false) (count size : Expr) (rest : List Expr)
    (sized : (constant locals count).isSome → constant locals size ≠ some 0) :
    ∃ after, trackCall locals vi "calloc".toList (count :: size :: rest) = .ok after ∧
      capacity after = allocated locals "calloc".toList (count :: size :: rest) := by
  have other : "calloc".toList ≠ "malloc".toList := by decide
  unfold trackCall allocated
  simp only [if_neg other, if_true, tryEvalUSizeExpr_eq, getElem?_cons_zero,
    getElem?_cons_succ, Option.bind_some]
  -- the count is evaluated first, and the size whether or not it is known
  cases first : constant locals count with
  | none => exact ⟨vi, rfl, by simp [capacity, fresh]⟩
  | some n =>
    cases second : constant locals size with
    | none => exact ⟨vi, rfl, by simp [capacity, fresh]⟩
    | some m =>
      have positive : m ≠ 0 := by
        intro zero
        exact sized (by rw [first]; rfl) (by rw [second, zero])
      have bound := constant_le second
      have nonzero : UInt64.ofNat m ≠ 0 := by
        intro zero
        have back := congrArg UInt64.toNat zero
        rw [toNat_ofNat bound] at back
        exact positive back
      rcases product_exact (constant_le first) bound positive with ⟨test, product⟩
      simp only [Option.map_some, if_neg nonzero, test, Option.bind_some]
      by_cases fits : n * m ≤ usizeMax
      · rw [if_pos fits, if_pos fits]
        refine ⟨_, rfl, ?_⟩
        simp only [capacity, setCapacity, if_true, product fits]
      · rw [if_neg fits, if_neg fits]
        exact ⟨vi, rfl, by simp [capacity, fresh]⟩

theorem trackCall_exact (fresh : vi.hasBufferCapacity = false)
    (calleeName : Text) (args : List Expr)
    (sized : ∀ count size rest, calleeName = "calloc".toList → args = count :: size :: rest →
      (constant locals count).isSome → constant locals size ≠ some 0) :
    ∃ after, trackCall locals vi calleeName args = .ok after ∧
      capacity after = allocated locals calleeName args := by
  have empty : capacity vi = none := by simp [capacity, fresh]
  by_cases malloc : calleeName = "malloc".toList
  · unfold trackCall allocated
    rw [if_pos malloc, if_pos malloc]
    cases args with
    | nil => exact ⟨vi, rfl, empty⟩
    | cons n rest => exact ⟨_, rfl, capacity_constant _ fresh n⟩
  · by_cases calloc : calleeName = "calloc".toList
    · subst calloc
      match args with
      | [] => exact ⟨vi, rfl, empty⟩
      | [count] =>
        refine ⟨vi, rfl, ?_⟩
        rw [empty]
        cases known : constant locals count <;> simp [allocated, known]
      | count :: size :: rest =>
        exact calloc_exact fresh count size rest (sized count size rest rfl rfl)
    · unfold trackCall allocated
      simp only [if_neg malloc, if_neg calloc]
      by_cases realloc : calleeName = "realloc".toList
      · rw [if_pos realloc, if_pos realloc]
        match args with
        | [] => exact ⟨vi, rfl, empty⟩
        | [_] => exact ⟨vi, rfl, empty⟩
        | _ :: n :: rest =>
          refine ⟨_, rfl, ?_⟩
          have same := capacity_constant locals fresh n
          cases known : tryEvalUSizeExpr locals n with
          | none => simpa [known] using same
          | some m => simpa [known, capacity, setCapacity] using same
      · rw [if_neg realloc, if_neg realloc]
        exact ⟨vi, rfl, empty⟩

theorem trackedBuffer_exact (locals : Locals) (varName : Text) (vi : VarInfo) {e : Expr}
    (fresh : vi.hasBufferCapacity = false) (readable : tryGetCStringLiteralLen e ≠ .thrown)
    (sized : ¬ ZeroSized locals (some .pointer) e) :
    ∃ after, trackedBuffer locals varName vi e = .ok after ∧
      capacity after = expected locals varName (some .pointer) e := by
  unfold trackedBuffer expected
  simp only [ne_eq, not_true, if_false]
  cases copied : copiedFrom locals varName e with
  | some src => exact ⟨_, rfl, rfl⟩
  | none =>
    cases literal : tryGetCStringLiteralLen e with
    | thrown => exact absurd literal readable
    | len cap =>
      have small := literal_small literal
      have next : UInt64.ofNat cap + 1 = UInt64.ofNat (cap + 1) := (UInt64.ofNat_add cap 1).symm
      refine ⟨_, rfl, ?_⟩
      have set := capacity_set (n := cap + 1) (by unfold usizeMax; omega) vi
      rw [← next] at set
      exact set
    | nothing =>
      cases called : calledWith e with
      | none => exact ⟨vi, rfl, by simp [capacity, fresh]⟩
      | some call =>
        apply trackCall_exact fresh
        intro count size rest name args known zero
        apply sized
        refine ⟨rfl, count, size, rest, ?_, known, zero⟩
        rw [called, ← name, ← args]

variable {varName : Text} {old : VarInfo}

theorem ranges_reset (there : locals varName = some old) :
    ranges (Function.update locals varName (some (resetTrackedBufferInfo old))) = ranges locals := by
  funext name
  unfold ranges
  by_cases own : name = varName
  · subst own
    rw [Function.update_self, there]
    rfl
  · rw [update_of_ne own]

theorem constant_reset (there : locals varName = some old) (e : Expr) :
    constant (Function.update locals varName (some (resetTrackedBufferInfo old))) e =
      constant locals e := by
  unfold constant tryEvalUSizeRangeExpr
  rw [ranges_reset there]

theorem copiedFrom_update (locals : Locals) (varName : Text) (vi old : VarInfo)
    (there : locals varName = some old) (e : Expr) :
    copiedFrom (Function.update locals varName (some vi)) varName e = copiedFrom locals varName e := by
  unfold copiedFrom
  have found : ∀ e, (resolveTrackedVarFromExpr (Function.update locals varName (some vi)) e).bind
        (fun src => if src.1 ≠ varName ∧ src.2.type = some .pointer then some src.2 else none) =
      (resolveTrackedVarFromExpr locals e).bind
        fun src => if src.1 ≠ varName ∧ src.2.type = some .pointer then some src.2 else none := by
    intro e
    fun_induction resolveTrackedVarFromExpr locals e with
    | case1 _ e ih => exact ih
    | case2 name =>
      unfold resolveTrackedVarFromExpr
      by_cases own : name = varName
      · -- a copy of itself is none, whatever the entry
        subst own
        simp [there]
      · rw [update_of_ne own]
    | case3 e plain other =>
      have none : resolveTrackedVarFromExpr (Function.update locals varName (some vi)) e = none := by
        cases e <;> first | rfl | exact absurd rfl (plain _ _) | exact absurd rfl (other _)
      rw [none]
  exact found e

theorem expected_reset
    (there : locals varName = some old) (declaredType : Option TypeKind) (e : Expr) :
    expected (Function.update locals varName (some (resetTrackedBufferInfo old))) varName declaredType
      e = expected locals varName declaredType e := by
  have calls : allocated (Function.update locals varName (some (resetTrackedBufferInfo old))) =
      allocated locals := by
    funext calleeName args
    unfold allocated
    rw [funext (constant_reset there)]
  unfold expected
  rw [copiedFrom_update locals varName _ old there, calls]

theorem trackVarBufferFromExpr_exact (locals : Locals) (varName : Text) (e : Expr)
    (declaredType : Option TypeKind) (readable : tryGetCStringLiteralLen e ≠ .thrown)
    (sized : ¬ ZeroSized locals declaredType e) :
    ∃ after, trackVarBufferFromExpr locals varName e declaredType = .ok after ∧
      Exact locals after varName declaredType e := by
  unfold trackVarBufferFromExpr
  cases there : locals varName with
  | none =>
    refine ⟨locals, rfl, fun _ _ => rfl, rfl, ?_⟩
    intro vi present
    rw [there] at present
    cases present
  | some old =>
    simp only
    by_cases pointer : declaredType = some .pointer
    · subst pointer
      rw [if_neg (fun differs => differs rfl)]
      rcases trackedBuffer_exact
          (Function.update locals varName (some (resetTrackedBufferInfo old))) varName
          (resetTrackedBufferInfo old) rfl readable
          (fun zero => sized (by simpa only [ZeroSized, constant_reset there] using zero)) with
        ⟨vi, tracked, recorded⟩
      rw [tracked]
      refine ⟨Function.update _ varName (some vi), rfl, ?_, ?_, ?_⟩
      · intro x other
        rw [update_of_ne other, update_of_ne other]
      · rw [Function.update_self, there]
        rfl
      · intro found present
        rw [Function.update_self] at present
        cases present
        rw [recorded, expected_reset there]
    · rw [if_pos pointer]
      refine ⟨_, rfl, ?_, ?_, ?_⟩
      · intro x other
        rw [update_of_ne other]
      · rw [Function.update_self, there]
        rfl
      · intro found present
        rw [Function.update_self] at present
        cases present
        rw [expected, if_pos pointer]
        rfl

theorem Exact.numeric {after : Locals} {declaredType}
    {e : Expr} (recorded : Exact locals after varName declaredType e) :
    Exact locals (trackVarNumericRangeFromExpr after varName e declaredType) varName declaredType e := by
  unfold trackVarNumericRangeFromExpr
  cases there : after varName with
  | none => exact recorded
  | some vi =>
    have before := recorded.capacity_eq vi there
    have present : (locals varName).isSome = true := by
      rw [← recorded.declared, there]
      rfl
    -- an entry with another range has the same capacity
    have ranged : ∀ (l : Locals) (other : VarInfo), (∀ x, x ≠ varName → l x = after x) →
        l varName = some other → capacity other = capacity vi →
        Exact locals l varName declaredType e := by
      intro l other alike own same
      refine ⟨fun x differs => (alike x differs).trans (recorded.others x differs), ?_, ?_⟩
      · rw [own, present]
        rfl
      · intro found here
        rw [own] at here
        cases here
        exact same.trans before
    simp only
    split
    · refine ranged _ _ ?_ (Function.update_self ..) rfl
      intro x differs
      rw [update_of_ne differs]
    · refine ranged _ _ ?_ (Function.update_self ..) rfl
      intro x differs
      rw [update_of_ne differs, update_of_ne differs]

theorem trackStatement_exact (locals : Locals) (s : Statement)
    (readable : tryGetCStringLiteralLen s.expr ≠ .thrown)
    (sized : ¬ ZeroSized (s.entered locals) (s.declaredType locals) s.expr) :
    ∃ after, trackStatement locals s = .ok after ∧
      Exact (s.entered locals) after s.name (s.declaredType locals) s.expr := by
  rcases trackVarBufferFromExpr_exact (s.entered locals) s.name s.expr (s.declaredType locals)
    readable sized with ⟨after, tracked, recorded⟩
  refine ⟨_, ?_, recorded.numeric⟩
  rw [trackStatement, tracked]
  rfl

end Exact

section Programs

/-- No statement of the program comes to a `calloc` of elements without a size. -/
def NoZeroSize (locals : Locals) (program : List Statement) : Prop :=
  ∀ front s back, program = front ++ s :: back → ∀ before, trackStatements locals front = .ok before →
    ¬ ZeroSized (s.entered before) (s.declaredType before) s.expr

/-- The tracker gets through a program, and behind each statement the local has the capacity
that its right side says. -/
theorem capacities_exact (program : List Statement) (locals : Locals)
    (readable : ∀ s ∈ program, tryGetCStringLiteralLen s.expr ≠ .thrown)
    (sized : NoZeroSize locals program) :
    (∃ last, trackStatements locals program = .ok last) ∧
    ∀ front s back, program = front ++ s :: back → ∃ before after,
      trackStatements locals front = .ok before ∧ trackStatement before s = .ok after ∧
        Exact (s.entered before) after s.name (s.declaredType before) s.expr := by
  induction program generalizing locals with
  | nil =>
    refine ⟨⟨locals, rfl⟩, ?_⟩
    intro front s back split
    simp at split
  | cons first rest ih =>
    rcases trackStatement_exact locals first (readable first (.head _))
      (sized [] first rest rfl locals rfl) with ⟨next, tracked, recorded⟩
    have step : ∀ program, trackStatements locals (first :: program) =
        trackStatements next program := by
      intro program
      rw [trackStatements, tracked]
      rfl
    rcases ih next (fun s member => readable s (.tail _ member)) (by
      intro front s back split before reached
      apply sized (first :: front) s back (by rw [split]; rfl) before
      rw [step]
      exact reached) with ⟨⟨last, ended⟩, each⟩
    refine ⟨⟨last, (step rest).trans ended⟩, ?_⟩
    intro front s back split
    cases front with
    | nil =>
      cases split
      exact ⟨locals, next, rfl, tracked, recorded⟩
    | cons other front =>
      cases split
      rcases each front s back rfl with ⟨before, after, reached, here, recorded⟩
      exact ⟨before, after, (step front).trans reached, here, recorded⟩

def numeral (c : Char) (valid : ConstExpr.digitValue c < 10) (plain : c ≠ '_') : Expr :=
  .intLit (ValueRange.digit c valid plain)

theorem four_digit : ConstExpr.digitValue '4' < 10 := by decide

/-- `char* p = calloc(3, 4); char* q = p;` -/
def copyProgram : List Statement :=
  [.varDecl ['p'] (some .pointer) (.fnCall (.ident "calloc".toList)
      [numeral '3' (by decide) (by decide), numeral '4' four_digit (by decide)]),
    .varDecl ['q'] (some .pointer) (.ident ['p'])]

theorem copyProgram_sized : NoZeroSize (fun _ => none) copyProgram := by
  rintro front s back split before reached ⟨_, count, size, rest, called, _, zero⟩
  rcases front with _ | ⟨_, _ | ⟨_, front⟩⟩
  · cases split
    cases called
    cases zero
  · cases split
    cases called
  · simp [copyProgram] at split

theorem capacities_exact_copy :
    (∃ last, trackStatements (fun _ => none) copyProgram = .ok last) ∧
    ∀ front s back, copyProgram = front ++ s :: back → ∃ before after,
      trackStatements (fun _ => none) front = .ok before ∧ trackStatement before s = .ok after ∧
        Exact (s.entered before) after s.name (s.declaredType before) s.expr :=
  capacities_exact copyProgram (fun _ => none)
    (by
      intro s member
      simp only [copyProgram, mem_cons, not_mem_nil, or_false] at member
      rcases member with rfl | rfl
      · exact Len.noConfusion
      · exact Len.noConfusion)
    copyProgram_sized

/-- `"ab"` -/
def shortText : Expr := .strLit ⟨['"', 'a', 'b', '"'], by decide⟩

/-- A literal has a capacity although nothing is allocated or copied. -/
theorem literal_has_capacity :
    ¬ ∀ (locals after : Locals) (varName : Text) (e : Expr) (vi : VarInfo),
      trackVarBufferFromExpr locals varName e (some .pointer) = .ok after → after varName = some vi →
      capacity vi =
        match resolveTrackedVarFromExpr locals e with
        | some src => capacity src.2
        | none => (calledWith e).bind fun call => allocated locals call.1 call.2 := by
  intro copied
  have recorded := copied (Function.update (fun _ => none) ['p'] (some (freshVar (some .pointer)))) _
    ['p'] shortText _ rfl rfl
  cases recorded

end Programs

end Lucis.BufferCapacity
