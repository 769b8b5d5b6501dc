import Mathlib.Data.List.TakeWhile
import Lucis.ConstExpr
import Lucis.Library.NatInterval
import Lucis.Library.Scopes

/-!
Value ranges of checkers/Checker_safety.cpp: `tryEvalUSizeRangeExpr` bounds an
expression by the ranges that `locals_` holds for its variables, and a declaration
or a whole assignment records the range of its right side. The nodes of a cast and
of an operator hold the type the compiled program computes them in, a variable the
type it is stored in; `none` is a type that is no integer. A run is told beside the
ranges the checker has at each of its points; it may be cut anywhere, and which
blocks of a statement run, and how often, is left open. So is when a deferred call
and a callback of `#scope` run, which the checker looks at where it meets them.
-/

namespace Lucis.ValueRange

open List

open ConstExpr (Text Radix AddOp MulOp digitValue digitsValue)

open Scopes (read write leaveScope Alike)

section Literals

structure IntType where
  bits : Nat
  signed : Bool

def IntType.wrap (ty : IntType) (n : Int) : Int :=
  if ty.signed then n.bmod (2 ^ ty.bits) else n % (2 ^ ty.bits : Nat)

/-- The digits of a literal, with `_` between them. -/
structure Digits (base : Nat) where
  chars : Text
  valid : ∀ c ∈ chars, c = '_' ∨ digitValue c < base
  nonempty : chars.filter (· ≠ '_') ≠ []

def Digits.number {base : Nat} (d : Digits base) : Nat :=
  (d.chars.filter (· ≠ '_')).foldl (fun value c => value * base + digitValue c) 0

inductive Suffix where
  | i8 | i16 | i32 | i64 | i128 | iinf | isize
  | u8 | u16 | u32 | u64 | u128 | usize | uinf
  deriving DecidableEq

def Suffix.text : Suffix → Text
  | i8 => ['i', '8']
  | i16 => ['i', '1', '6']
  | i32 => ['i', '3', '2']
  | i64 => ['i', '6', '4']
  | i128 => ['i', '1', '2', '8']
  | iinf => ['i', 'i', 'n', 'f']
  | isize => ['i', 's', 'i', 'z', 'e']
  | u8 => ['u', '8']
  | u16 => ['u', '1', '6']
  | u32 => ['u', '3', '2']
  | u64 => ['u', '6', '4']
  | u128 => ['u', '1', '2', '8']
  | usize => ['u', 's', 'i', 'z', 'e']
  | uinf => ['u', 'i', 'n', 'f']

/-- `suffixIntWidth` -/
def Suffix.type : Suffix → IntType
  | i8 => ⟨8, true⟩
  | i16 => ⟨16, true⟩
  | i32 => ⟨32, true⟩
  | i64 => ⟨64, true⟩
  | i128 => ⟨128, true⟩
  | iinf => ⟨256, true⟩
  | isize => ⟨64, true⟩
  | u8 => ⟨8, false⟩
  | u16 => ⟨16, false⟩
  | u32 => ⟨32, false⟩
  | u64 => ⟨64, false⟩
  | u128 => ⟨128, false⟩
  | usize => ⟨64, false⟩
  | uinf => ⟨32, false⟩

def baseOf : Radix → Nat
  | .dec => 10
  | .hex => 16
  | .oct => 8
  | .bin => 2

def prefixOf (upper : Bool) : Radix → Text
  | .dec => []
  | .hex => ['0', if upper then 'X' else 'x']
  | .oct => ['0', if upper then 'O' else 'o']
  | .bin => ['0', if upper then 'B' else 'b']

structure SuffixedLit where
  radix : Radix
  upper : Bool
  digits : Digits (baseOf radix)
  underscore : Bool
  suffix : Suffix

def SuffixedLit.front (lit : SuffixedLit) : Text :=
  prefixOf lit.upper lit.radix ++ lit.digits.chars ++ if lit.underscore then ['_'] else []

def SuffixedLit.text (lit : SuffixedLit) : Text := lit.front ++ lit.suffix.text

end Literals

section Ranges

def usizeMax : Nat := 18446744073709551615

/-- The pairs of `minUSize` and `maxUSize` that are ever recorded. -/
abbrev Range := NatInterval usizeMax

/-- `std::stoull` on a text without its separators; no range where it throws. -/
def literalRange (text : Text) : Option Range :=
  match digitsValue 10 (text.filter (· ≠ '_')) with
  | some v => if fits : v ≤ usizeMax then some (.single v fits) else none
  | none => none

def suffixes : List Text :=
  [['i', '8'], ['i', '1', '6'], ['i', '3', '2'], ['i', '6', '4'], ['i', '1', '2', '8'],
    ['i', 'i', 'n', 'f'], ['i', 's', 'i', 'z', 'e'],
    ['u', '8'], ['u', '1', '6'], ['u', '3', '2'], ['u', '6', '4'], ['u', '1', '2', '8'],
    ['u', 's', 'i', 'z', 'e']]

def tryEvalSuffixed (text : Text) : Option Range :=
  match suffixes.find? fun suf => suf.length < text.length && suf.isSuffixOf text with
  | some suf => literalRange (text.take (text.length - suf.length))
  | none => none

inductive Expr where
  | intLit (digits : Digits 10)
  | suffixedLit (lit : SuffixedLit)
  | ident (name : Text)
  | paren (e : Expr)
  | cast (ty : Option IntType) (e : Expr)
  | addSub (op : AddOp) (ty : IntType) (l r : Expr)
  | mul (op : MulOp) (ty : IntType) (l r : Expr)
  | other (token : Text)

/-- `locals_`: the variables with `hasKnownUSizeRange`. -/
abbrev Locals := Text → Option Range

def tryEvalUSizeRangeExpr (locals : Locals) : Expr → Option Range
  | .intLit digits => literalRange digits.chars
  | .suffixedLit lit => tryEvalSuffixed lit.text
  | .ident name => locals name
  | .paren e => tryEvalUSizeRangeExpr locals e
  | .cast _ e => tryEvalUSizeRangeExpr locals e
  | .addSub op _ l r =>
    (tryEvalUSizeRangeExpr locals l).bind fun lhs =>
      (tryEvalUSizeRangeExpr locals r).bind fun rhs =>
        match op with
        | .plus => lhs.add rhs
        | .minus => lhs.sub rhs
  | .mul op _ l r =>
    match op with
    | .star =>
      (tryEvalUSizeRangeExpr locals l).bind fun lhs =>
        (tryEvalUSizeRangeExpr locals r).bind fun rhs => lhs.mul rhs
    | _ => none
  | .other _ => none

def trackVarNumericRangeFromExpr (locals : Locals) (name : Text) (declaredType : Option IntType)
    (e : Expr) : Locals :=
  let reset := Function.update locals name none
  if declaredType.isSome then Function.update reset name (tryEvalUSizeRangeExpr reset e) else reset

/-- What a block binds by its head: `erase` takes the name out of `locals_` behind it, a `catch`
puts back what it stood for. -/
inductive Binder where
  | nothing
  | erased (name : Text)
  | restored (name : Text)

def Binder.names : Binder → List Text
  | nothing => []
  | erased name => [name]
  | restored name => [name]

def Binder.enter (locals : Locals) : Binder → Locals
  | nothing => locals
  | erased name => Function.update locals name none
  | restored name => Function.update locals name none

def Binder.exit (locals : Locals) : Binder → Locals
  | nothing => locals
  | erased name => Function.update locals name none
  | restored _ => locals

/-- Statements, by what the walk and a run do with them. An `exprStmt` is any place where an
expression is evaluated, and `leave` any way out of the block: `return`, `throw`, `break`,
`continue` and the calls that do not come back. -/
inductive Stmt where
  | varDeclStmt (name : Text) (ty : Option IntType) (init : Option Expr)
  | constDeclStmt (name : Text) (init : Expr)
  | assignStmt (name : Text) (ty : Option IntType) (e : Expr)
  | compoundAssignStmt (name : Text) (e : Expr)
  | exprStmt (e : Expr)
  | deferStmt (e : Expr)
  | leave
  | blocks (parts : List (Binder × List Stmt))
  | scopeBlockStmt (callbacks : List Expr) (body : List Stmt)
  | inlineBlockStmt (body : List Stmt)
  | labelDef (s : Stmt)

mutual

/-- The walk stops behind such a statement. -/
def ends : Stmt → Bool
  | .leave => true
  | .inlineBlockStmt body => endsAny body
  | .labelDef s => ends s
  | _ => false

def endsAny : List Stmt → Bool
  | [] => false
  | s :: rest => ends s || endsAny rest

end

mutual

/-- The walk, as far as it is about ranges: a block leaves them as it found them, whatever is
assigned in it, and a compound assignment is not looked at. -/
def checkStmt (locals : Locals) : Stmt → Locals
  | .varDeclStmt name ty init =>
    match init with
    | some e => trackVarNumericRangeFromExpr locals name ty e
    | none => Function.update locals name none
  | .constDeclStmt _ _ => locals
  | .assignStmt name ty e => trackVarNumericRangeFromExpr locals name ty e
  | .compoundAssignStmt _ _ => locals
  | .exprStmt _ => locals
  | .deferStmt _ => locals
  | .leave => locals
  | .blocks parts => parts.foldl (fun locals part => part.1.exit locals) locals
  | .scopeBlockStmt _ _ => locals
  | .inlineBlockStmt body => checkStmts locals body
  | .labelDef s => checkStmt locals s

def checkStmts (locals : Locals) : List Stmt → Locals
  | [] => locals
  | s :: rest =>
    if ends s then checkStmt locals s else checkStmts (checkStmt locals s) rest

end

mutual

/-- The deferred expressions, each with the ranges that the walk has where it meets it; the
callbacks of `#scope` are met behind the body. -/
def deferredBy (locals : Locals) : Stmt → List (Locals × Expr)
  | .deferStmt e => [(locals, e)]
  | .blocks parts => deferredByBlocks locals parts
  | .scopeBlockStmt callbacks body =>
    deferredByStmts locals body ++ callbacks.map fun e => (checkStmts locals body, e)
  | .inlineBlockStmt body => deferredByStmts locals body
  | .labelDef s => deferredBy locals s
  | _ => []

def deferredByStmts (locals : Locals) : List Stmt → List (Locals × Expr)
  | [] => []
  | s :: rest =>
    deferredBy locals s ++ if ends s then [] else deferredByStmts (checkStmt locals s) rest

def deferredByBlocks (locals : Locals) : List (Binder × List Stmt) → List (Locals × Expr)
  | [] => []
  | (binder, body) :: rest =>
    deferredByStmts (binder.enter locals) body ++ deferredByBlocks (binder.exit locals) rest

end

end Ranges

section Running

abbrev Datum := Option Int

abbrev Env := Scopes.Env Text Datum

/-- What happens at a point: a literal is read, a number is converted to a type, where the checker
has a range or not; and variables may have been written without the checker's taking notice. -/
inductive Event where
  | literal (ranged : Bool) (radix : Radix) (number : Nat) (v : Datum)
  | converted (ranged : Bool) (exact v : Datum)
  | overlooked (locals : Locals) (env : Env)

def addInt : AddOp → Int → Int → Int
  | .plus, a, b => a + b
  | .minus, a, b => a - b

def Converts (ty : IntType) (exact v : Datum) : Prop :=
  ∀ n, exact = some n → v = some (ty.wrap n)

def exactAdd (op : AddOp) (a b : Datum) : Datum := a.bind fun x => b.map fun y => addInt op x y

def exactMul (a b : Datum) : Datum := a.bind fun x => b.map fun y => x * y

inductive Evaluates (locals : Locals) : Env → Expr → List Event → Datum → Env → Prop where
  | intLit {env digits} : Evaluates locals env (.intLit digits) [] (some (digits.number : Int)) env
  | suffixedLit {env lit v} (value : v = some (lit.suffix.type.wrap lit.digits.number)) :
      Evaluates locals env (.suffixedLit lit)
        [.literal (tryEvalUSizeRangeExpr locals (.suffixedLit lit)).isSome lit.radix
          lit.digits.number v] v env
  | ident {env name v} (value : read env name = some v) : Evaluates locals env (.ident name) [] v env
  | outer {env name v} (absent : read env name = none) : Evaluates locals env (.ident name) [] v env
  | paren {env e events v after} (inner : Evaluates locals env e events v after) :
      Evaluates locals env (.paren e) events v after
  | cast {env ty e events a v after} (inner : Evaluates locals env e events a after)
      (value : ∀ t, ty = some t → Converts t a v) :
      Evaluates locals env (.cast ty e)
        (events ++ [.converted (tryEvalUSizeRangeExpr locals (.cast ty e)).isSome a v]) v after
  | addSub {env op ty l r before events a b v middle after}
      (left : Evaluates locals env l before a middle) (right : Evaluates locals middle r events b after)
      (value : Converts ty (exactAdd op a b) v) :
      Evaluates locals env (.addSub op ty l r)
        (before ++ events ++
          [.converted (tryEvalUSizeRangeExpr locals (.addSub op ty l r)).isSome (exactAdd op a b) v])
        v after
  | mul {env op ty l r before events a b v middle after}
      (left : Evaluates locals env l before a middle) (right : Evaluates locals middle r events b after)
      (value : op = .star → Converts ty (exactMul a b) v) :
      Evaluates locals env (.mul op ty l r)
        (before ++ events ++
          [.converted (tryEvalUSizeRangeExpr locals (.mul op ty l r)).isSome (exactMul a b) v])
        v after
  | other {env token v after} (alike : Alike env after) :
      Evaluates locals env (.other token) [.overlooked locals after] v after

/-- What a run leaves behind: the events of its expressions, and the value of an expression beside
the range the checker has for it there. -/
inductive Mark where
  | event (e : Event)
  | probed (range : Option Range) (v : Datum)

inductive Node where
  | stmt (s : Stmt)
  | stmts (body : List Stmt)
  | blocks (parts : List (Binder × List Stmt))

inductive Starts : Locals → List (Binder × List Stmt) → Binder → List Stmt → Locals → Prop where
  | here {locals binder body rest} :
      Starts locals ((binder, body) :: rest) binder body (binder.enter locals)
  | later {locals first rest binder body found}
      (inside : Starts (first.1.exit locals) rest binder body found) :
      Starts locals (first :: rest) binder body found

variable (pending : List (Locals × Expr))

/-- Runs of a part of a function, whole (`true`) or left or cut somewhere (`false`), from the ranges
that the walk has where it begins; what leaves a block has no rule of its own. The pending
expressions are evaluated at any of its points. -/
inductive Runs : Node → Locals → Env → List Mark → Env → Bool → Prop where
  | cut {n locals env} : Runs n locals env [] env false
  | pending {n locals env found e events v middle marks after whole} (member : (found, e) ∈ pending)
      (value : Evaluates found env e events v middle) (others : Runs n locals middle marks after whole) :
      Runs n locals env
        (.event (.overlooked found env) :: events.map .event ++
          .probed (tryEvalUSizeRangeExpr found e) v :: .event (.overlooked locals middle) :: marks)
        after whole
  | deferStmt {locals env e} : Runs (.stmt (.deferStmt e)) locals env [] env true
  | declare {locals env name ty e events v w middle}
      (value : Evaluates locals env e events v middle) (stored : ∀ t, ty = some t → Converts t v w) :
      Runs (.stmt (.varDeclStmt name ty (some e))) locals env
        (events.map .event ++
          [.event (.converted (trackVarNumericRangeFromExpr locals name ty e name).isSome v w)])
        ((name, w) :: middle) true
  | declareBare {locals env name ty v} :
      Runs (.stmt (.varDeclStmt name ty none)) locals env [] ((name, v) :: env) true
  | constDecl {locals env name e events v middle} (value : Evaluates locals env e events v middle) :
      Runs (.stmt (.constDeclStmt name e)) locals env
        (events.map .event ++ [.event (.overlooked locals ((name, v) :: middle))])
        ((name, v) :: middle) true
  | assign {locals env name ty e events v w middle}
      (value : Evaluates locals env e events v middle) (declared : (read middle name).isSome)
      (stored : ∀ t, ty = some t → Converts t v w) :
      Runs (.stmt (.assignStmt name ty e)) locals env
        (events.map .event ++
          [.event (.converted (trackVarNumericRangeFromExpr locals name ty e name).isSome v w)])
        (write middle name w) true
  | compound {locals env name e events v w middle} (value : Evaluates locals env e events v middle) :
      Runs (.stmt (.compoundAssignStmt name e)) locals env
        (events.map .event ++ [.event (.overlooked locals (write middle name w))])
        (write middle name w) true
  | expr {locals env e events v after} (value : Evaluates locals env e events v after) :
      Runs (.stmt (.exprStmt e)) locals env
        (events.map .event ++ [.probed (tryEvalUSizeRangeExpr locals e) v]) after true
  | blocks {locals env parts marks after whole}
      (inner : Runs (.blocks parts) locals env marks after whole) :
      Runs (.stmt (.blocks parts)) locals env marks after whole
  | scopeBlock {locals env callbacks body marks middle whole}
      (inner : Runs (.stmts body) locals env marks middle whole) :
      Runs (.stmt (.scopeBlockStmt callbacks body)) locals env
        (marks ++ [.event (.overlooked locals (leaveScope env middle))]) (leaveScope env middle) whole
  | inlineBlock {locals env body marks after whole}
      (inner : Runs (.stmts body) locals env marks after whole) :
      Runs (.stmt (.inlineBlockStmt body)) locals env marks after whole
  | label {locals env s marks after whole} (inner : Runs (.stmt s) locals env marks after whole) :
      Runs (.stmt (.labelDef s)) locals env marks after whole
  | nil {locals env} : Runs (.stmts []) locals env [] env true
  | stop {locals env s rest marks after} (first : Runs (.stmt s) locals env marks after false) :
      Runs (.stmts (s :: rest)) locals env marks after false
  | seq {locals env s rest marks later middle after whole}
      (first : Runs (.stmt s) locals env marks middle true)
      (others : Runs (.stmts rest) (checkStmt locals s) middle later after whole) :
      Runs (.stmts (s :: rest)) locals env (marks ++ later) after whole
  | finish {locals env parts whole} : Runs (.blocks parts) locals env [] env whole
  -- the head is evaluated, a block runs, and its scope is left
  | body {locals env parts binder body found start bound marks later middle after inside whole}
      (starts : Starts locals parts binder body found) (alike : Alike env start)
      (binds : bound.map Prod.fst = binder.names)
      (inner : Runs (.stmts body) found (bound ++ start) marks middle inside)
      (others : Runs (.blocks parts) locals (leaveScope start middle) later after whole) :
      Runs (.blocks parts) locals env
        (.event (.overlooked locals start) :: marks ++
          .event (.overlooked locals (leaveScope start middle)) :: later) after whole

end Running

section Literals

theorem digitsValue_number {base : Nat} (d : Digits base) :
    digitsValue base (d.chars.filter (· ≠ '_')) = some d.number := by
  have digits : (d.chars.filter (· ≠ '_')).takeWhile (fun c => digitValue c < base) =
      d.chars.filter (· ≠ '_') := by
    rw [takeWhile_eq_self_iff]
    intro c member
    simp only [mem_filter, decide_eq_true_eq] at member
    rcases d.valid c member.1 with same | digit
    · exact absurd same member.2
    · exact decide_eq_true digit
  rw [digitsValue, digits]
  cases found : d.chars.filter (· ≠ '_') with
  | nil => exact absurd found d.nonempty
  | cons c rest => simp only [Digits.number, found]

variable {range : Range}

theorem literalRange_mem {text : Text} {n : Nat}
    (value : digitsValue 10 (text.filter (· ≠ '_')) = some n) (found : literalRange text = some range) :
    range.Mem n := by
  simp only [literalRange, value] at found
  split at found
  · next fits =>
      cases found
      exact NatInterval.mem_single n fits
  · cases found

theorem suffix_unique (suffix : Suffix) (suf : Text) (member : suf ∈ suffixes)
    (either : suf <:+ suffix.text ∨ suffix.text <:+ suf) : suf = suffix.text := by
  revert suf
  cases suffix <;> decide

variable (lit : SuffixedLit)

theorem tryEvalSuffixed_text
    (found : tryEvalSuffixed lit.text = some range) : literalRange lit.front = some range := by
  unfold tryEvalSuffixed at found
  split at found
  · next suf first =>
      have among := mem_of_find?_eq_some first
      have matched := find?_some first
      simp only [Bool.and_eq_true, decide_eq_true_eq, isSuffixOf_iff_suffix] at matched
      have own : suf = lit.suffix.text :=
        suffix_unique lit.suffix suf among
          (suffix_or_suffix_of_suffix matched.2 (suffix_append lit.front lit.suffix.text))
      rw [own] at found
      simpa [SuffixedLit.text] using found
  · cases found

theorem front_dec (upper underscore : Bool) (digits : Digits (baseOf .dec)) (suffix : Suffix) :
    (SuffixedLit.front ⟨.dec, upper, digits, underscore, suffix⟩).filter (· ≠ '_') =
      digits.chars.filter (· ≠ '_') := by
  cases underscore <;> simp [SuffixedLit.front, prefixOf]

/-- `stoull` stops behind the zero of a prefix. -/
theorem front_prefixed (other : lit.radix ≠ .dec) :
    digitsValue 10 (lit.front.filter (· ≠ '_')) = some 0 := by
  rcases lit with ⟨radix, upper, digits, underscore, suffix⟩
  cases radix with
  | dec => exact absurd rfl other
  | hex => cases upper <;> simp [SuffixedLit.front, prefixOf, digitsValue, digitValue]
  | oct => cases upper <;> simp [SuffixedLit.front, prefixOf, digitsValue, digitValue]
  | bin => cases upper <;> simp [SuffixedLit.front, prefixOf, digitsValue, digitValue]

theorem suffixedLit_mem (found : tryEvalSuffixed lit.text = some range)
    (plain : lit.radix = .dec ∨ lit.digits.number = 0) : range.Mem lit.digits.number := by
  have front := tryEvalSuffixed_text lit found
  by_cases radix : lit.radix = .dec
  · rcases lit with ⟨_, upper, digits, underscore, suffix⟩
    simp only at radix
    subst radix
    refine literalRange_mem ?_ front
    rw [front_dec]
    exact digitsValue_number digits
  · rcases plain with dec | zero
    · exact absurd dec radix
    · rw [zero]
      exact literalRange_mem (front_prefixed lit radix) front

end Literals

section Soundness

def Within (locals : Locals) (env : Env) : Prop :=
  ∀ name range, locals name = some range →
    ∃ n : Nat, read env name = some (some (n : Int)) ∧ range.Mem n

/-- What the checker takes for granted: a suffixed literal is decimal, or zero, and fits its type;
what is cast, computed or stored where a range is known fits the type it gets; and what it does
not look at leaves each variable in its range. -/
def Event.Meets : Event → Prop
  | .literal ranged radix number v => ranged = true → (radix = .dec ∨ number = 0) ∧ v = some (number : Int)
  | .converted ranged exact v => ranged = true → v = exact
  | .overlooked locals env => Within locals env

variable {range : Range}

theorem sum_range {op : AddOp} {m n : Nat} {lhs rhs : Range} (left : lhs.Mem m) (right : rhs.Mem n)
    (found : (match op with | .plus => lhs.add rhs | .minus => lhs.sub rhs) = some range) :
    ∃ result : Nat, addInt op m n = (result : Int) ∧ range.Mem result := by
  cases op with
  | plus => exact ⟨m + n, by simp [addInt], NatInterval.mem_add found left right⟩
  | minus =>
    rcases NatInterval.mem_sub found left right with ⟨below, mem⟩
    exact ⟨m - n, by simp [addInt, Int.ofNat_sub below], mem⟩

variable {locals : Locals} {env after : Env} {e : Expr}

theorem evaluated_range {events : List Event} {v : Datum}
    (run : Evaluates locals env e events v after) (within : Within locals env)
    (meets : ∀ event ∈ events, event.Meets) :
    Within locals after ∧ ∀ range, tryEvalUSizeRangeExpr locals e = some range →
      ∃ n : Nat, v = some (n : Int) ∧ range.Mem n := by
  induction run with
  | @intLit _ digits =>
    refine ⟨within, ?_⟩
    intro range found
    exact ⟨digits.number, rfl, literalRange_mem (digitsValue_number digits) found⟩
  | @suffixedLit _ lit _ _ =>
    refine ⟨within, ?_⟩
    intro range found
    rcases meets _ mem_cons_self (by rw [found]; rfl) with ⟨plain, value⟩
    exact ⟨lit.digits.number, value, suffixedLit_mem lit found plain⟩
  | ident value =>
    refine ⟨within, ?_⟩
    intro range found
    rcases within _ range found with ⟨n, held, mem⟩
    rw [value] at held
    exact ⟨n, Option.some.inj held, mem⟩
  | outer absent =>
    refine ⟨within, ?_⟩
    intro range found
    rcases within _ range found with ⟨n, held, _⟩
    rw [absent] at held
    cases held
  | paren _ ih => exact ih within meets
  | @cast _ _ _ _ _ _ _ _ _ ih =>
    rcases ih within fun event member => meets event (mem_append_left _ member) with
      ⟨within_after, inner⟩
    refine ⟨within_after, ?_⟩
    intro range found
    rcases inner range found with ⟨n, value, mem⟩
    have kept := meets (.converted _ _ _) (mem_append_right _ (.head _))
      (by rw [found]; rfl)
    exact ⟨n, kept.trans value, mem⟩
  | addSub _ _ _ ih_left ih_right =>
    rcases ih_left within fun event member => meets event (by simp [member]) with
      ⟨within_middle, left⟩
    rcases ih_right within_middle fun event member => meets event (by simp [member]) with
      ⟨within_after, right⟩
    refine ⟨within_after, ?_⟩
    intro range found
    have kept := meets (.converted _ _ _) (mem_append_right _ (.head _))
      (by rw [found]; rfl)
    simp only [tryEvalUSizeRangeExpr, Option.bind_eq_some_iff] at found
    rcases found with ⟨lhs, left_found, rhs, right_found, combined⟩
    rcases left lhs left_found with ⟨m, left_value, left_mem⟩
    rcases right rhs right_found with ⟨n, right_value, right_mem⟩
    rcases sum_range left_mem right_mem combined with ⟨result, exact_value, mem⟩
    rw [left_value, right_value] at kept
    exact ⟨result, by rw [kept, ← exact_value]; rfl, mem⟩
  | @mul _ op _ _ _ _ _ _ _ _ _ _ _ _ _ ih_left ih_right =>
    rcases ih_left within fun event member => meets event (by simp [member]) with
      ⟨within_middle, left⟩
    rcases ih_right within_middle fun event member => meets event (by simp [member]) with
      ⟨within_after, right⟩
    refine ⟨within_after, ?_⟩
    intro range found
    have kept := meets (.converted _ _ _) (mem_append_right _ (.head _))
      (by rw [found]; rfl)
    cases op with
    | slash => cases found
    | percent => cases found
    | star =>
      simp only [tryEvalUSizeRangeExpr, Option.bind_eq_some_iff] at found
      rcases found with ⟨lhs, left_found, rhs, right_found, combined⟩
      rcases left lhs left_found with ⟨m, left_value, left_mem⟩
      rcases right rhs right_found with ⟨n, right_value, right_mem⟩
      rw [left_value, right_value] at kept
      exact ⟨m * n, by rw [kept]; simp [exactMul], NatInterval.mem_mul combined left_mem right_mem⟩
  | other _ =>
    refine ⟨meets _ (.head _), ?_⟩
    intro range found
    cases found

theorem range_of_fewer {fewer : Locals}
    (subset : ∀ name range, fewer name = some range → locals name = some range) (e : Expr)
    (range : Range) (found : tryEvalUSizeRangeExpr fewer e = some range) :
    tryEvalUSizeRangeExpr locals e = some range := by
  induction e generalizing range with
  | intLit _ => exact found
  | suffixedLit _ => exact found
  | ident name => exact subset name range found
  | paren e ih => exact ih range found
  | cast ty e ih => exact ih range found
  | addSub op ty l r ih_left ih_right =>
    simp only [tryEvalUSizeRangeExpr, Option.bind_eq_some_iff] at found ⊢
    rcases found with ⟨lhs, left, rhs, right, combined⟩
    exact ⟨lhs, ih_left lhs left, rhs, ih_right rhs right, combined⟩
  | mul op ty l r ih_left ih_right =>
    cases op with
    | slash => cases found
    | percent => cases found
    | star =>
      simp only [tryEvalUSizeRangeExpr, Option.bind_eq_some_iff] at found ⊢
      rcases found with ⟨lhs, left, rhs, right, combined⟩
      exact ⟨lhs, ih_left lhs left, rhs, ih_right rhs right, combined⟩
  | other _ => cases found

variable {name : Text}

variable {x : Text}

theorem reset_subset (found : Function.update locals name none x = some range) :
    x ≠ name ∧ locals x = some range := by
  by_cases same : x = name
  · subst same
    simp at found
  · rw [Function.update_of_ne same] at found
    exact ⟨same, found⟩

variable {ty : Option IntType}

theorem tracked_range (found : trackVarNumericRangeFromExpr locals name ty e x = some range) :
    x = name ∧ tryEvalUSizeRangeExpr locals e = some range ∨ x ≠ name ∧ locals x = some range := by
  unfold trackVarNumericRangeFromExpr at found
  by_cases same : x = name
  · subst same
    split at found
    · rw [Function.update_self] at found
      exact .inl ⟨rfl, range_of_fewer (fun y r there => (reset_subset there).2) e range found⟩
    · simp at found
  · split at found
    · rw [Function.update_of_ne same, Function.update_of_ne same] at found
      exact .inr ⟨same, found⟩
    · exact .inr (reset_subset found)

theorem Within.start (env : Env) : Within (fun _ => none) env := by
  intro name range found
  cases found

theorem Within.track {changed : Env} {v w : Datum} (within : Within locals env)
    (value : ∀ range, tryEvalUSizeRangeExpr locals e = some range →
      ∃ n : Nat, v = some (n : Int) ∧ range.Mem n)
    (stored : (trackVarNumericRangeFromExpr locals name ty e name).isSome = true → w = v)
    (own : read changed name = some w) (others : ∀ x, x ≠ name → read changed x = read env x) :
    Within (trackVarNumericRangeFromExpr locals name ty e) changed := by
  intro x range found
  rcases tracked_range found with ⟨rfl, right⟩ | ⟨other, old⟩
  · rcases value range right with ⟨n, same, mem⟩
    refine ⟨n, ?_, mem⟩
    rw [own, stored (by rw [found]; rfl), same]
  · rcases within x range old with ⟨n, held, mem⟩
    exact ⟨n, (others x other).trans held, mem⟩

variable (binder : Binder)

theorem exit_subset (found : binder.exit locals name = some range) : locals name = some range := by
  cases binder with
  | nothing => exact found
  | erased x => exact (reset_subset found).2
  | restored x => exact found

theorem exits_subset (parts : List (Binder × List Stmt))
    (found : parts.foldl (fun locals part => part.1.exit locals) locals name = some range) :
    locals name = some range := by
  induction parts generalizing locals with
  | nil => exact found
  | cons part rest ih => exact exit_subset part.1 (ih found)

theorem enter_subset (found : binder.enter locals name = some range) :
    name ∉ binder.names ∧ locals name = some range := by
  cases binder with
  | nothing => exact ⟨by simp [Binder.names], found⟩
  | erased x => exact ⟨by simp [Binder.names, (reset_subset found).1], (reset_subset found).2⟩
  | restored x => exact ⟨by simp [Binder.names, (reset_subset found).1], (reset_subset found).2⟩

variable {parts : List (Binder × List Stmt)} {body : List Stmt} {binder : Binder} {inside : Locals}

theorem starts_subset (starts : Starts locals parts binder body inside)
    (found : inside name = some range) : name ∉ binder.names ∧ locals name = some range := by
  induction starts with
  | here => exact enter_subset _ found
  | later _ ih =>
    rcases ih found with ⟨free, outside⟩
    exact ⟨free, exit_subset _ outside⟩

theorem read_bound {bound : Env} (free : name ∉ bound.map Prod.fst) :
    read (bound ++ env) name = read env name := by
  induction bound with
  | nil => rfl
  | cons entry rest ih =>
    simp only [map_cons, mem_cons, not_or] at free
    exact (Scopes.read_cons_of_ne _ entry.2 (Ne.symm free.1)).trans (ih free.2)

theorem Starts.within (starts : Starts locals parts binder body inside)
    {start bound : Env} (within : Within locals start) (binds : bound.map Prod.fst = binder.names) :
    Within inside (bound ++ start) := by
  intro name range found
  rcases starts_subset starts found with ⟨free, outside⟩
  rw [read_bound (by rwa [binds])]
  exact within name range outside

def Mark.Meets : Mark → Prop
  | .event e => e.Meets
  | .probed _ _ => True

def Node.check (locals : Locals) : Node → Locals
  | .stmt s => checkStmt locals s
  | .stmts body => checkStmts locals body
  | .blocks parts => parts.foldl (fun locals part => part.1.exit locals) locals

/-- What the ranges owe to a run: each value that is looked at lies in its range, and the ranges
behind the run hold there. -/
structure Holds (locals : Locals) (marks : List Mark) (after : Env) (whole : Bool) : Prop where
  probed : ∀ range v, .probed (some range) v ∈ marks → ∃ n : Nat, v = some (n : Int) ∧ range.Mem n
  within : whole = true → Within locals after

theorem events_meet {events : List Event} {last : Mark}
    (meets : ∀ mark ∈ events.map .event ++ [last], mark.Meets) :
    (∀ event ∈ events, event.Meets) ∧ last.Meets :=
  ⟨fun event member => meets (.event event) (mem_append_left _ (List.mem_map_of_mem member)),
    meets last (mem_append_right _ (.head _))⟩

theorem Holds.events {events : List Event} {last : Event} (within : Within locals after) :
    Holds locals (events.map .event ++ [.event last]) after true where
  probed := by simp
  within _ := within

def Node.ends : Node → Bool
  | .stmt s => ValueRange.ends s
  | .stmts body => endsAny body
  | .blocks _ => false

variable {pending : List (Locals × Expr)}

theorem ends_of_whole {n : Node} {marks : List Mark} {whole : Bool}
    (run : Runs pending n locals env marks after whole) (ended : whole = true) : n.ends = false := by
  induction run with
  | cut => cases ended
  | pending _ _ _ ih => exact ih ended
  | inlineBlock _ ih => exact ih ended
  | label _ ih => exact ih ended
  | stop => cases ended
  | seq _ _ ih_first ih_others =>
    change (_ || _) = false
    rw [Bool.or_eq_false_iff]
    exact ⟨ih_first rfl, ih_others ended⟩
  | _ => rfl

theorem run_holds {n : Node} {marks : List Mark}
    {whole : Bool} (run : Runs pending n locals env marks after whole) (within : Within locals env)
    (meets : ∀ mark ∈ marks, mark.Meets) : Holds (n.check locals) marks after whole := by
  induction run with
  | cut => exact ⟨by simp, by simp⟩
  | deferStmt => exact ⟨by simp, fun _ => within⟩
  | pending _ value _ ih =>
    have met : Within _ _ := meets _ (.head _)
    rcases evaluated_range value met fun event member => meets (.event event)
      (mem_append_left _ (.tail _ (mem_map_of_mem member))) with ⟨_, ranged⟩
    have kept : Within _ _ := meets _ (mem_append_right _ (.tail _ (.head _)))
    have others := ih kept fun mark member =>
      meets mark (mem_append_right _ (.tail _ (.tail _ member)))
    constructor
    · intro range w member
      rcases mem_append.1 member with before | here
      · simp at before
      · rcases mem_cons.1 here with same | later
        · obtain ⟨found, rfl⟩ := Mark.probed.inj same
          exact ranged range found.symm
        · exact others.probed range w (by simpa using later)
    · exact others.within
  | declare value _ =>
    rcases events_meet meets with ⟨before, stored⟩
    rcases evaluated_range value within before with ⟨within_middle, ranged⟩
    exact .events (within_middle.track ranged stored (if_pos rfl)
      fun x other => Scopes.read_cons_of_ne _ _ (Ne.symm other))
  | @declareBare locals env name _ v =>
    refine ⟨by simp, ?_⟩
    intro _ x range found
    rcases reset_subset found with ⟨other, old⟩
    rcases within x range old with ⟨n, held, mem⟩
    exact ⟨n, (Scopes.read_cons_of_ne env v (Ne.symm other)).trans held, mem⟩
  | constDecl _ => exact .events (events_meet meets).2
  | assign value declared _ =>
    rcases events_meet meets with ⟨before, stored⟩
    rcases evaluated_range value within before with ⟨within_middle, ranged⟩
    exact .events (within_middle.track ranged stored (Scopes.read_write_self _ declared)
      fun x other => Scopes.read_write_of_ne _ _ (Ne.symm other))
  | compound _ => exact .events (events_meet meets).2
  | @expr locals _ e events v _ value =>
    rcases evaluated_range value within (events_meet meets).1 with ⟨within_after, ranged⟩
    refine ⟨?_, fun _ => within_after⟩
    intro range w member
    simp only [mem_append, List.mem_map, reduceCtorEq, and_false, exists_false, false_or,
      mem_singleton, Mark.probed.injEq] at member
    rcases member with ⟨found, rfl⟩
    exact ranged range found.symm
  | blocks _ ih => exact ih within meets
  | scopeBlock _ ih =>
    have inner := ih within fun mark member => meets mark (mem_append_left _ member)
    have left : Within _ _ := meets _ (mem_append_right _ (.head _))
    refine ⟨fun range v member => ?_, fun _ => left⟩
    exact inner.probed range v (by simpa using member)
  | inlineBlock _ ih => exact ih within meets
  | label _ ih => exact ih within meets
  | nil => exact ⟨by simp, fun _ => within⟩
  | stop _ ih => exact ⟨(ih within meets).probed, by simp⟩
  | seq first_run _ ih_first ih_others =>
    have first := ih_first within fun mark member => meets mark (mem_append_left _ member)
    have goes_on : ends _ = false := ends_of_whole first_run rfl
    have others := ih_others (first.within rfl) fun mark member =>
      meets mark (mem_append_right _ member)
    constructor
    · intro range v member
      rcases mem_append.1 member with now | later
      · exact first.probed range v now
      · exact others.probed range v later
    · rw [Node.check, checkStmts, goes_on]
      exact others.within
  | finish => exact ⟨by simp, fun _ => fun name range found =>
    within name range (exits_subset _ found)⟩
  | body starts _ binds _ _ ih_inner ih_others =>
    have entered : Within _ _ := meets _ (.head _)
    have inner := ih_inner (starts.within entered binds) fun mark member =>
      meets mark (by simp [member])
    have left : Within _ _ :=
      meets _ (mem_append_right _ (.head _))
    have others := ih_others left fun mark member => meets mark (by simp [member])
    constructor
    · intro range v member
      simp only [cons_append, mem_cons, reduceCtorEq, false_or, mem_append] at member
      rcases member with inside | later
      · exact inner.probed range v inside
      · exact others.probed range v later
    · exact others.within

def unsigned (n : Int) : Nat := (n % (2 ^ 64 : Nat)).toNat

theorem unsigned_of_le {n : Nat} (bounded : n ≤ usizeMax) : unsigned (n : Int) = n := by
  unfold unsigned usizeMax at *
  omega

/-- In a run of a body, each value that is looked at lies in the range the checker has for it. -/
def InRange (marks : List Mark) : Prop :=
  ∀ range v, .probed (some range) v ∈ marks → range.lo ≤ range.hi ∧
    ∃ n, v = some n ∧ range.lo ≤ unsigned n ∧ unsigned n ≤ range.hi

/-- In every run that keeps to what the checker takes for granted, each value that is looked at
lies in its range. -/
theorem ranges_sound (body : List Stmt) (env : Env) (marks : List Mark) (after : Env) (whole : Bool)
    (run : Runs (deferredByStmts (fun _ => none) body) (.stmts body) (fun _ => none) env marks after
      whole)
    (meets : ∀ mark ∈ marks, mark.Meets) : InRange marks := by
  intro range v member
  rcases (run_holds run (.start env) meets).probed range v member with ⟨n, value, mem⟩
  have same := unsigned_of_le (mem.2.trans range.bounded)
  exact ⟨range.ordered, n, value, by rw [same]; exact mem.1, by rw [same]; exact mem.2⟩

def usizeType : IntType := ⟨64, false⟩

variable {c : Char}

theorem digit_chars_valid (valid : digitValue c < 10) :
    ∀ other ∈ [c], other = '_' ∨ digitValue other < 10 := by
  intro other member
  rw [mem_singleton.1 member]
  exact .inr valid

theorem digit_chars_nonempty (plain : c ≠ '_') : [c].filter (· ≠ '_') ≠ [] := by
  simp [plain]

def digit (c : Char) (valid : digitValue c < 10) (plain : c ≠ '_') : Digits 10 where
  chars := [c]
  valid := digit_chars_valid valid
  nonempty := digit_chars_nonempty plain

def five : Expr := .intLit (digit '5' (by decide) (by decide))

theorem three_digit : digitValue '3' < 10 := by decide

theorem three_plain : '3' ≠ '_' := by decide

def three : Expr := .intLit (digit '3' three_digit three_plain)

/-- `usize x = 5; … x + 3 …` -/
def sumBody : List Stmt :=
  [.varDeclStmt ['x'] (some usizeType) (some five),
    .exprStmt (.addSub .plus usizeType (.ident ['x']) three)]

def fiveRange : Range := .single 5 (by decide)

def eightRange : Range := .single 8 (by decide)

theorem stores_five : ∀ t, some usizeType = some t → Converts t (some 5) (some 5) := by
  intro t same n value
  cases same
  cases value
  rfl

theorem adds_three : Converts usizeType (exactAdd .plus (some 5) (some 3)) (some 8) := by
  intro n value
  cases value
  rfl

def fiveLocals : Locals :=
  trackVarNumericRangeFromExpr (fun _ => none) ['x'] (some usizeType) five

theorem sum_run : Runs (deferredByStmts (fun _ => none) sumBody) (.stmts sumBody) (fun _ => none) []
      [.event (.converted true (some 5) (some 5)), .event (.converted true (some 8) (some 8)),
        .probed (some eightRange) (some 8)] [(['x'], some 5)] true := by
  have left : Evaluates fiveLocals [(['x'], some 5)] (.ident ['x']) [] (some 5) [(['x'], some 5)] :=
    .ident rfl
  have right : Evaluates fiveLocals [(['x'], some 5)] three [] (some 3) [(['x'], some 5)] := .intLit
  have sum := Evaluates.addSub left right adds_three
  exact .seq (.declare .intLit stores_five) (.seq (.expr sum) .nil)

theorem sum_in_range :
    InRange [.event (.converted true (some 5) (some 5)), .event (.converted true (some 8) (some 8)),
      .probed (some eightRange) (some 8)] :=
  ranges_sound sumBody [] _ [(['x'], some 5)] true sum_run (by
    intro mark member
    simp only [mem_cons, not_mem_nil, or_false] at member
    rcases member with rfl | rfl | rfl
    · exact fun _ => rfl
    · exact fun _ => rfl
    · trivial)

/-- `usize x = 5; x += 3; … x …` -/
def compoundBody : List Stmt :=
  [.varDeclStmt ['x'] (some usizeType) (some five), .compoundAssignStmt ['x'] three,
    .exprStmt (.ident ['x'])]

theorem compound_leaves_range :
    ¬ ∀ body env marks after whole, Runs (deferredByStmts (fun _ => none) body) (.stmts body)
        (fun _ => none) env marks after whole → InRange marks := by
  intro sound
  have run : Runs (deferredByStmts (fun _ => none) compoundBody) (.stmts compoundBody)
      (fun _ => none) []
      [.event (.converted true (some 5) (some 5)),
        .event (.overlooked (trackVarNumericRangeFromExpr (fun _ => none) ['x'] (some usizeType) five)
          [(['x'], some 8)]),
        .probed (some fiveRange) (some 8)] [(['x'], some 8)] true :=
    .seq (.declare .intLit stores_five)
      (.seq (.compound .intLit) (.seq (.expr (.ident rfl)) .nil))
  rcases sound compoundBody [] _ _ true run fiveRange (some 8) (by simp) with ⟨_, n, value, _, high⟩
  cases value
  exact absurd high (by decide)

end Soundness

end Lucis.ValueRange
