import Mathlib.Algebra.Ring.Int.Defs
import Mathlib.Algebra.Ring.Nat
import Mathlib.Data.List.Infix

/-!
Constant evaluation of checkers/Checker_decl.cpp on closed integer, boolean and
string expressions. A text is its bytes, each as the character of that code, and
`getText` joins the tokens of a node as the parser runtime does. Integer
arithmetic is that of the target: it wraps, and a shift takes its count modulo
64. Floats, names, `sizeof`, enum variants and the predicates of `@cfg` are left
out: they are no part of a closed expression over these three kinds.
-/

namespace Lucis.ConstExpr

abbrev Text := List Char

/-- `ComptimeValue`, as far as these expressions produce it. -/
inductive Value where
  | int (v : Int64)
  | bool (v : Bool)
  | str (v : Text)
  deriving DecidableEq

inductive MulOp where
  | star
  | slash
  | percent
  deriving DecidableEq

inductive AddOp where
  | plus
  | minus
  deriving DecidableEq

inductive RelOp where
  | lt
  | gt
  | lte
  | gte
  deriving DecidableEq

inductive EqOp where
  | eq
  | neq
  deriving DecidableEq

inductive PlainOp where
  | lshift
  | rshift
  | bitAnd
  | bitXor
  | bitOr
  | logicalAnd
  | logicalOr
  | nullCoal
  deriving DecidableEq

inductive Radix where
  | dec
  | hex
  | oct
  | bin
  deriving DecidableEq

inductive Expr where
  | intLit (radix : Radix) (suffixed : Bool) (token : Text)
  | boolLit (token : Text)
  | charLit (token : Text)
  | strLit (token : Text)
  | nullLit
  | paren (e : Expr)
  | neg (e : Expr)
  | logicalNot (e : Expr)
  | bitNot (e : Expr)
  | mul (op : MulOp) (l r : Expr)
  | addSub (op : AddOp) (l r : Expr)
  | rel (op : RelOp) (l r : Expr)
  | eq (op : EqOp) (l r : Expr)
  | plain (op : PlainOp) (l r : Expr)
  | ternary (c t e : Expr)

section Texts

def MulOp.text : MulOp → Text
  | star => ['*']
  | slash => ['/']
  | percent => ['%']

def AddOp.text : AddOp → Text
  | plus => ['+']
  | minus => ['-']

def RelOp.text : RelOp → Text
  | lt => ['<']
  | gt => ['>']
  | lte => ['<', '=']
  | gte => ['>', '=']

def EqOp.text : EqOp → Text
  | eq => ['=', '=']
  | neq => ['!', '=']

def PlainOp.text : PlainOp → Text
  | lshift => ['<', '<']
  | rshift => ['>', '>']
  | bitAnd => ['&']
  | bitXor => ['^']
  | bitOr => ['|']
  | logicalAnd => ['&', '&']
  | logicalOr => ['|', '|']
  | nullCoal => ['?', '?']

/-- `getText()`: the tokens below a node without what stands between them. -/
def getText : Expr → Text
  | .intLit _ _ token => token
  | .boolLit token => token
  | .charLit token => token
  | .strLit token => token
  | .nullLit => ['n', 'u', 'l', 'l']
  | .paren e => '(' :: getText e ++ [')']
  | .neg e => '-' :: getText e
  | .logicalNot e => '!' :: getText e
  | .bitNot e => '~' :: getText e
  | .mul op l r => getText l ++ op.text ++ getText r
  | .addSub op l r => getText l ++ op.text ++ getText r
  | .rel op l r => getText l ++ op.text ++ getText r
  | .eq op l r => getText l ++ op.text ++ getText r
  | .plain op l r => getText l ++ op.text ++ getText r
  | .ternary c t e => getText c ++ '?' :: getText t ++ ':' :: getText e

end Texts

section Literals

def digitValue (c : Char) : Nat :=
  if '0' ≤ c ∧ c ≤ '9' then c.toNat - '0'.toNat
  else if 'a' ≤ c ∧ c ≤ 'z' then c.toNat - 'a'.toNat + 10
  else if 'A' ≤ c ∧ c ≤ 'Z' then c.toNat - 'A'.toNat + 10
  else 36

/-- The digits `strtoll` takes in a base, and their value. -/
def digitsValue (base : Nat) (text : Text) : Option Nat :=
  match text.takeWhile fun c => digitValue c < base with
  | [] => none
  | digits => some (digits.foldl (fun value c => value * base + digitValue c) 0)

/-- The base 0 of `strtoll` is told by the first characters, and a `0x` before a hexadecimal
digit is skipped. -/
def splitPrefix (text : Text) (base : Nat) : Text × Nat :=
  match text with
  | '0' :: x :: d :: rest =>
    if (x = 'x' ∨ x = 'X') ∧ digitValue d < 16 ∧ (base = 0 ∨ base = 16) then (d :: rest, 16)
    else (text, if base = 0 then 8 else base)
  | '0' :: _ => (text, if base = 0 then 8 else base)
  | _ => (text, if base = 0 then 10 else base)

/-- `std::stoll` on a text without blanks and sign; `none` when it throws. -/
def stoll (text : Text) (base : Nat) : Option Int64 :=
  match digitsValue (splitPrefix text base).2 (splitPrefix text base).1 with
  | some value => if value < 2 ^ 63 then some (Int64.ofNat value) else none
  | none => none

/-- `find_first_not_of("+-xXoObB")` and the part of the text from there -/
def isPrefixChar (c : Char) : Bool :=
  c ∈ ['+', '-', 'x', 'X', 'o', 'O', 'b', 'B']

def parseIntLiteral (text : Text) (base : Nat) : Int64 :=
  let clean := text.filter fun c => !(c == '\'' && base != 16)
  (stoll (clean.dropWhile isPrefixChar) base).getD 0

def suffixes : List Text :=
  [['i', '8'], ['i', '1', '6'], ['i', '3', '2'], ['i', '6', '4'], ['i', '1', '2', '8'],
    ['i', 'i', 'n', 'f'], ['i', 's', 'i', 'z', 'e'],
    ['u', '8'], ['u', '1', '6'], ['u', '3', '2'], ['u', '6', '4'], ['u', '1', '2', '8'],
    ['u', 's', 'i', 'z', 'e'],
    ['f', '3', '2'], ['f', '6', '4'], ['f', '8', '0'], ['f', '1', '2', '8']]

def stripSuffix (text : Text) : Text :=
  match suffixes.find? fun suffix => suffix.length < text.length && suffix.isSuffixOf text with
  | some suffix => text.take (text.length - suffix.length)
  | none => text

def Radix.base : Radix → Nat
  | dec => 0
  | hex => 16
  | oct => 8
  | bin => 2

def intLitValue (radix : Radix) (suffixed : Bool) (token : Text) : Int64 :=
  parseIntLiteral (if suffixed then stripSuffix token else token) radix.base

def charLitValue (raw : Text) : Int64 :=
  match raw with
  | '\'' :: '\\' :: c :: _ =>
    if c = 'n' then 10
    else if c = 't' then 9
    else if c = '0' then 0
    else if c = '\\' then 92
    else if c = '\'' then 39
    else Int64.ofNat (c.toNat % 256)
  | ['\'', c, _] => Int64.ofNat (c.toNat % 256)
  | _ => 0

def unescape : Text → Text
  | '\\' :: c :: rest =>
    (if c = 'n' then '\n'
      else if c = 't' then '\t'
      else if c = '0' then Char.ofNat 0
      else c) :: unescape rest
  | c :: rest => c :: unescape rest
  | [] => []

def strLitValue (raw : Text) : Text :=
  if 2 ≤ raw.length then unescape (raw.drop 1).dropLast else []

end Literals

section Operators

def intMul : MulOp → Int64 → Int64 → Option Value
  | .star, a, b => some (.int (a * b))
  | .slash, a, b => if b = 0 then none else some (.int (a / b))
  | .percent, a, b => if b = 0 then none else some (.int (a % b))

def intAdd : AddOp → Int64 → Int64 → Value
  | .plus, a, b => .int (a + b)
  | .minus, a, b => .int (a - b)

def intRel : RelOp → Int64 → Int64 → Bool
  | .lt, a, b => a < b
  | .gt, a, b => a > b
  | .lte, a, b => a ≤ b
  | .gte, a, b => a ≥ b

def sameValue : Value → Value → Option Bool
  | .int a, .int b => some (a = b)
  | .bool a, .bool b => some (a = b)
  | .str a, .str b => some (a = b)
  | _, _ => none

def negValue : Value → Option Value
  | .int v => some (.int (-v))
  | _ => none

def notValue : Value → Option Value
  | .bool v => some (.bool !v)
  | .int v => some (.bool (v = 0))
  | _ => none

def bitNotValue : Value → Option Value
  | .int v => some (.int (~~~v))
  | _ => none

/-- The callbacks of `evalBinary` that look at nothing but the operands. Zero, `false` and every
string stand for null on the left of `??`. -/
def plainValue : PlainOp → Value → Value → Option Value
  | .lshift, .int a, .int b => some (.int (a <<< b))
  | .rshift, .int a, .int b => some (.int (a >>> b))
  | .bitAnd, .int a, .int b => some (.int (a &&& b))
  | .bitXor, .int a, .int b => some (.int (a ^^^ b))
  | .bitOr, .int a, .int b => some (.int (a ||| b))
  | .logicalAnd, .bool a, .bool b => some (.bool (a && b))
  | .logicalAnd, .int a, .int b => some (.bool (a ≠ 0 ∧ b ≠ 0))
  | .logicalOr, .bool a, .bool b => some (.bool (a || b))
  | .logicalOr, .int a, .int b => some (.bool (a ≠ 0 ∨ b ≠ 0))
  | .nullCoal, .int a, b => some (if a ≠ 0 then .int a else b)
  | .nullCoal, .bool a, b => some (if a then .bool a else b)
  | .nullCoal, .str _, b => some b
  | _, _, _ => none

def evalBinary (lhs rhs : Option Value) (opFn : Value → Value → Option Value) : Option Value :=
  lhs.bind fun a => rhs.bind fun b => opFn a b

def isTrue : Value → Bool
  | .bool v => v
  | .int v => v ≠ 0
  | .str _ => false

end Operators

section Evaluation

/-! The operator of four kinds of nodes is looked up in the text of the whole node. -/

def mulFound (raw : Text) : Option MulOp :=
  if '*' ∈ raw then some .star
  else if '/' ∈ raw then some .slash
  else if '%' ∈ raw then some .percent
  else none

def addFound (raw : Text) : Option AddOp :=
  if '+' ∈ raw then some .plus
  else if '-' ∈ raw then some .minus
  else none

def relFound (raw : Text) : Option RelOp :=
  if ['<', '='] <:+: raw then some .lte
  else if ['>', '='] <:+: raw then some .gte
  else if '<' ∈ raw then some .lt
  else if '>' ∈ raw then some .gt
  else none

def eqFound (raw : Text) : EqOp :=
  if ['=', '='] <:+: raw then .eq else .neq

def mulText (raw : Text) : Value → Value → Option Value
  | .int a, .int b => (mulFound raw).bind fun op => intMul op a b
  | _, _ => none

def addText (raw : Text) : Value → Value → Option Value
  | .int a, .int b => (addFound raw).map fun op => intAdd op a b
  | .str a, .str b => some (.str (a ++ b))
  | _, _ => none

def relText (raw : Text) : Value → Value → Option Value
  | .int a, .int b => some (.bool ((relFound raw).any fun op => intRel op a b))
  | _, _ => none

def eqResult (op : EqOp) (result : Bool) : Value :=
  .bool (if op = .eq then result else !result)

def eqText (raw : Text) (a b : Value) : Option Value :=
  (sameValue a b).map (eqResult (eqFound raw))

def evaluateConstExpr : Expr → Option Value
  | .intLit radix suffixed token => some (.int (intLitValue radix suffixed token))
  | .boolLit token => some (.bool (token = ['t', 'r', 'u', 'e']))
  | .charLit token => some (.int (charLitValue token))
  | .strLit token => some (.str (strLitValue token))
  | .nullLit => some (.int 0)
  | .paren e => evaluateConstExpr e
  | .neg e => (evaluateConstExpr e).bind negValue
  | .logicalNot e => (evaluateConstExpr e).bind notValue
  | .bitNot e => (evaluateConstExpr e).bind bitNotValue
  | .mul op l r =>
    evalBinary (evaluateConstExpr l) (evaluateConstExpr r) (mulText (getText (.mul op l r)))
  | .addSub op l r =>
    evalBinary (evaluateConstExpr l) (evaluateConstExpr r) (addText (getText (.addSub op l r)))
  | .rel op l r =>
    evalBinary (evaluateConstExpr l) (evaluateConstExpr r) (relText (getText (.rel op l r)))
  | .eq op l r =>
    evalBinary (evaluateConstExpr l) (evaluateConstExpr r) (eqText (getText (.eq op l r)))
  | .plain op l r => evalBinary (evaluateConstExpr l) (evaluateConstExpr r) (plainValue op)
  | .ternary c t e =>
    (evaluateConstExpr c).bind fun cond =>
      if isTrue cond then evaluateConstExpr t else evaluateConstExpr e

end Evaluation

end Lucis.ConstExpr
