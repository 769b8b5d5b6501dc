import Lucis.ConditionalCompilation
import Lucis.ConstExpr
import Lucis.Library.Scopes

/-!
Dead-branch elimination of checkers/Checker_stmt.cpp: `checkIfStmt` does not look
into a body whose condition `evaluateConstExpr` folds the wrong way, with the names
of `compileTimeValues_` taken for constants. The walk below keeps that table and
which bodies were checked; types, moves and the other duties of the checker neither
read nor write it. The blocks inside an expression, of match arms, of `catch` and of
lambdas, stand beside it. At run time any typed semantics of the operators and any
behaviour of the functions called is allowed, a run may be cut at any point, and how
often a block of an expression, a loop, a switch or a try runs is left open.
-/

namespace Lucis.DeadBranch

open List Option

open Scopes (read write leaveScope Alike)

open ConditionalCompilation (TargetInfo)

open ConstExpr (Text Radix MulOp AddOp RelOp EqOp PlainOp mulFound addFound relFound eqFound)

/-- `ComptimeValue`: the kinds of closed constant expressions, and floats. -/
inductive ComptimeValue where
  | plain (v : ConstExpr.Value)
  | float (x : Float)

abbrev ComptimeValue.bool (b : Bool) : ComptimeValue := .plain (.bool b)

inductive Literal where
  | int (radix : Radix) (suffixed : Bool) (token : Text)
  | bool (token : Text)
  | char (token : Text)
  | str (token : Text)
  | null

inductive UnaryOp where
  | neg
  | logicalNot
  | bitNot

inductive BinaryOp where
  | mul (op : MulOp)
  | addSub (op : AddOp)
  | rel (op : RelOp)
  | eq (op : EqOp)
  | plain (op : PlainOp)

/-- The last form stands for every other node, with what the evaluator makes of it: the double
of a float literal, the integer of `sizeof` or of an enum variant, or nothing. -/
inductive Expr where
  | literal (l : Literal)
  | ident (name : Text)
  | paren (e : Expr)
  /-- `@name(e)`, whose name is `cfg` -/
  | cfg (name : Text) (e : Expr)
  | unary (op : UnaryOp) (e : Expr)
  | binary (op : BinaryOp) (l r : Expr)
  | ternary (c t e : Expr)
  | call (callee : Text) (args : List Expr)
  | other (token : Text) (folded : Option ComptimeValue)

section Texts

def Literal.node : Literal → ConstExpr.Expr
  | int radix suffixed token => .intLit radix suffixed token
  | bool token => .boolLit token
  | char token => .charLit token
  | str token => .strLit token
  | null => .nullLit

def UnaryOp.text : UnaryOp → Text
  | neg => ['-']
  | logicalNot => ['!']
  | bitNot => ['~']

def BinaryOp.text : BinaryOp → Text
  | mul op => op.text
  | addSub op => op.text
  | rel op => op.text
  | eq op => op.text
  | plain op => op.text

mutual

def getText : Expr → Text
  | .literal l => ConstExpr.getText l.node
  | .ident name => name
  | .paren e => '(' :: getText e ++ [')']
  | .cfg name e => '@' :: name ++ '(' :: getText e ++ [')']
  | .unary op e => op.text ++ getText e
  | .binary op l r => getText l ++ op.text ++ getText r
  | .ternary c t e => getText c ++ '?' :: getText t ++ ':' :: getText e
  | .call callee args => callee ++ '(' :: getTexts args ++ [')']
  | .other token _ => token

def getTexts : List Expr → Text
  | [] => []
  | [e] => getText e
  | e :: rest => getText e ++ ',' :: getTexts rest

end

end Texts

section Folding

def Literal.value (l : Literal) : Option ComptimeValue :=
  (ConstExpr.evaluateConstExpr l.node).map .plain

def UnaryOp.fold : UnaryOp → ComptimeValue → Option ComptimeValue
  | neg, .plain v => (ConstExpr.negValue v).map .plain
  | neg, .float x => some (.float (-x))
  | logicalNot, .plain v => (ConstExpr.notValue v).map .plain
  | bitNot, .plain v => (ConstExpr.bitNotValue v).map .plain
  | _, .float _ => none

def floatMul : MulOp → Float → Float → Option ComptimeValue
  | .star, a, b => some (.float (a * b))
  | .slash, a, b => if b == 0 then none else some (.float (a / b))
  | .percent, _, _ => none

def floatAdd : AddOp → Float → Float → ComptimeValue
  | .plus, a, b => .float (a + b)
  | .minus, a, b => .float (a - b)

def floatRel : RelOp → Float → Float → Bool
  | .lt, a, b => a < b
  | .gt, a, b => a > b
  | .lte, a, b => a ≤ b
  | .gte, a, b => a ≥ b

/-- What the left operand of `??` must be to be the result. -/
def isSet : ComptimeValue → Bool
  | .plain (.int v) => v ≠ 0
  | .plain (.bool v) => v
  | _ => false

/-- The callbacks of `evalBinary`; `raw` is the text of the whole node. -/
def BinaryOp.fold (op : BinaryOp) (raw : Text) : ComptimeValue → ComptimeValue → Option ComptimeValue
  | .plain a, .plain b =>
    match op with
    | mul _ => (ConstExpr.mulText raw a b).map .plain
    | addSub _ => (ConstExpr.addText raw a b).map .plain
    | rel _ => (ConstExpr.relText raw a b).map .plain
    | eq _ => (ConstExpr.eqText raw a b).map .plain
    | plain op => (ConstExpr.plainValue op a b).map .plain
  | .float a, .float b =>
    match op with
    | mul _ => (mulFound raw).bind fun found => floatMul found a b
    | addSub _ => (addFound raw).map fun found => floatAdd found a b
    | rel _ => some (.bool ((relFound raw).any fun found => floatRel found a b))
    | eq _ => some (.plain (ConstExpr.eqResult (eqFound raw) (a == b)))
    | plain .nullCoal => some (.float b)
    | plain _ => none
  | a, b => if op matches plain .nullCoal then some (if isSet a then a else b) else none

def isTrue : ComptimeValue → Bool
  | .plain v => ConstExpr.isTrue v
  | .float _ => false

def allName : Text := ['a', 'l', 'l']

def anyName : Text := ['a', 'n', 'y']

def notName : Text := ['n', 'o', 't']

/-- `compileTimeValues_` -/
abbrev Table := Text → Option ComptimeValue

mutual

def evaluateConstExpr (compileTimeValues : Table) : Expr → Option ComptimeValue
  | .literal l => l.value
  | .ident name => compileTimeValues name
  | .paren e => evaluateConstExpr compileTimeValues e
  | .cfg _ e => evaluateConstExpr compileTimeValues e
  | .unary op e => (evaluateConstExpr compileTimeValues e).bind op.fold
  | .binary op l r =>
    (evaluateConstExpr compileTimeValues l).bind fun a =>
      (evaluateConstExpr compileTimeValues r).bind fun b =>
        op.fold (getText (.binary op l r)) a b
  | .ternary c t e =>
    (evaluateConstExpr compileTimeValues c).bind fun cond =>
      if isTrue cond then evaluateConstExpr compileTimeValues t
      else evaluateConstExpr compileTimeValues e
  | .call callee args =>
    -- any call without arguments is taken for a predicate that holds
    if args.isEmpty then some (.bool true)
    else if callee = allName then evaluateAll compileTimeValues args
    else if callee = anyName then evaluateAny compileTimeValues args
    else if callee = notName then evaluateNot compileTimeValues args
    else none
  | .other _ folded => folded

def evaluateAll (compileTimeValues : Table) : List Expr → Option ComptimeValue
  | [] => some (.bool true)
  | a :: rest =>
    match evaluateConstExpr compileTimeValues a with
    | none => some (.bool false)
    | some (.plain (.bool v)) =>
      if v then evaluateAll compileTimeValues rest else some (.bool false)
    | some _ => none

def evaluateAny (compileTimeValues : Table) : List Expr → Option ComptimeValue
  | [] => some (.bool false)
  | a :: rest =>
    match evaluateConstExpr compileTimeValues a with
    | none => evaluateAny compileTimeValues rest
    | some (.plain (.bool v)) =>
      if v then some (.bool true) else evaluateAny compileTimeValues rest
    | some _ => none

def evaluateNot (compileTimeValues : Table) : List Expr → Option ComptimeValue
  | [a] =>
    match evaluateConstExpr compileTimeValues a with
    | some (.plain (.bool v)) => some (.bool !v)
    | _ => none
  | _ => none

end

end Folding

section Checking

mutual

/-- Beside its operands a statement has the parts of its expressions that hold statements. -/
inductive Stmt where
  | declare (name : Text) (init : Option Expr) (inside : List Part)
  | assignStmt (name : Text) (e : Expr) (inside : List Part)
  | compoundAssignStmt (name : Text) (op : BinaryOp) (e : Expr) (inside : List Part)
  | callStmt (callee : Text) (inside : List Part)
  | exprStmt (inside : List Part)
  | leave (inside : List Part)
  | ifStmt (clauses : Clauses)
  | blocks (bodies : List (List Stmt))
  | inlineBlockStmt (body : List Stmt)
  | labelDef (s : Stmt)

/-- The clauses of an `if`, from one of them on; `pos` is where the body stands in the file. -/
inductive Clauses where
  | done
  | elseClause (pos : Nat) (body : List Stmt)
  | branch (pos : Nat) (cond : Expr) (inside : List Part) (body : List Stmt) (rest : Clauses)

/-- The parts of an expression, in the order in which `resolveExprType` comes to them, and once
more each time it does: an `@cfg`, the block of a match arm or a `catch`, the block of a lambda.
What the checker resolves in a lambda (its initializers, its expression statements and the value
it returns) has its parts beside the lambda. -/
inductive Part where
  | cfgExpr
  | block (body : List Stmt)
  | lambdaBlock (body : List Stmt)

end

def constDeclStmt (name : Text) (init : Expr) (inside : List Part) : Stmt :=
  .declare name (some init) inside

def varDeclStmt (name : Text) (init : Option Expr) (inside : List Part) : Stmt :=
  .declare name init inside

/-- `return`, `throw`, `break` and `continue` -/
def terminatorStmt (inside : List Part) : Stmt := .leave inside

/-- The one block of a `for`, `while`, `do`, `loop`, `lock`, `#scope` or naked block, with the
expressions that are resolved before and after it. -/
def blockStmt (before : List Part) (body : List Stmt) (behind : List Part) : Stmt :=
  .blocks [[.exprStmt before], body, [.exprStmt behind]]

def switchStmt (subject : List Part) (cases : List (List Part × List Stmt))
    (default : Option (List Stmt)) : Stmt :=
  .blocks ([.exprStmt subject] ::
    cases.flatMap (fun (labels, body) => [[.exprStmt labels], body]) ++ default.toList)

def tryCatchStmt (body : List Stmt) (catches : List (List Stmt))
    (finallyClause : Option (List Stmt)) : Stmt :=
  .blocks (body :: catches ++ finallyClause.toList)

/-- The parts of the statement's own expressions. -/
def Stmt.inside : Stmt → List Part
  | declare _ _ inside => inside
  | assignStmt _ _ inside => inside
  | compoundAssignStmt _ _ _ inside => inside
  | callStmt _ inside => inside
  | exprStmt inside => inside
  | leave inside => inside
  | ifStmt _ | blocks _ | inlineBlockStmt _ | labelDef _ => []

def noreturnNames : List Text :=
  [['p', 'a', 'n', 'i', 'c'], ['e', 'x', 'i', 't'],
    ['u', 'n', 'r', 'e', 'a', 'c', 'h', 'a', 'b', 'l', 'e']]

/-- What the walk over a part of the file leaves: the table, the bodies it checked, and the
conditions it folded, each with the table of that moment. -/
structure Walk where
  compileTimeValues : Table
  visited : List Nat
  tested : List (Nat × Table)
  terminated : Bool

def Walk.start (compileTimeValues : Table) : Walk := ⟨compileTimeValues, [], [], false⟩

def Walk.andThen (first second : Walk) : Walk where
  compileTimeValues := second.compileTimeValues
  visited := first.visited ++ second.visited
  tested := first.tested ++ second.tested
  terminated := second.terminated

/-- `checkBlock`: what ends a block does not end the statement around it. -/
def Walk.block (w : Walk) : Walk := { w with terminated := false }

def Walk.enter (pos : Nat) (w : Walk) : Walk := { w.block with visited := pos :: w.visited }

def Walk.test (pos : Nat) (compileTimeValues : Table) (w : Walk) : Walk :=
  { w with tested := (pos, compileTimeValues) :: w.tested }

/-- `if (cv) compileTimeValues_[name] = *cv;` -/
def store (compileTimeValues : Table) (name : Text) (cv : Option ComptimeValue) : Table :=
  fun x => if x = name then cv.or (compileTimeValues x) else compileTimeValues x

def targetConstants (info : TargetInfo) : List (Text × ComptimeValue) :=
  [("target_os".toList, .plain (.str info.os)),
    ("target_arch".toList, .plain (.str info.arch)),
    ("target_endian".toList, .plain (.str info.endian)),
    ("target_pointer_width".toList, .plain (.int (.ofNat info.pointerWidth))),
    ("target_os_family".toList, .plain (.str info.osFamily)),
    ("target_triple".toList, .plain (.str info.triple)),
    ("debug_assertions".toList, .bool info.debug)]

/-- What `resolveExprType` enters for an `@cfg`. -/
def enterTarget (info : TargetInfo) (compileTimeValues : Table) : Table :=
  if (compileTimeValues "target_os".toList).isSome then compileTimeValues
  else fun x => (((targetConstants info).find? fun entry => entry.1 = x).map Prod.snd).or
    (compileTimeValues x)

def folds (constCond : Option ComptimeValue) (value : Bool) : Bool :=
  match constCond with
  | some (.plain (.bool v)) => v == value
  | _ => false

variable (info : TargetInfo)

mutual

def checkStmt (compileTimeValues : Table) : Stmt → Walk
  | .declare name init inside =>
    let first := checkParts compileTimeValues inside
    first.andThen (.start (store first.compileTimeValues name
      (init.bind (evaluateConstExpr first.compileTimeValues))))
  | .assignStmt _ _ inside => checkParts compileTimeValues inside
  | .compoundAssignStmt _ _ _ inside => checkParts compileTimeValues inside
  | .callStmt callee inside =>
    { checkParts compileTimeValues inside with terminated := noreturnNames.contains callee }
  | .exprStmt inside => checkParts compileTimeValues inside
  | .leave inside => { checkParts compileTimeValues inside with terminated := true }
  | .ifStmt clauses => checkClauses compileTimeValues false clauses
  | .blocks bodies => checkBlocks compileTimeValues bodies
  | .inlineBlockStmt body => checkStmts compileTimeValues body
  | .labelDef s => checkStmt compileTimeValues s

def checkStmts (compileTimeValues : Table) : List Stmt → Walk
  | [] => .start compileTimeValues
  | s :: rest =>
    let first := checkStmt compileTimeValues s
    if first.terminated then first
    else first.andThen (checkStmts first.compileTimeValues rest)

/-- `checkIfStmt`, from one of its clauses on -/
def checkClauses (compileTimeValues : Table) (isConstTrue : Bool) : Clauses → Walk
  | .done => .start compileTimeValues
  | .elseClause pos body =>
    if isConstTrue then .start compileTimeValues
    else (checkStmts compileTimeValues body).enter pos
  | .branch pos cond inside body rest =>
    if isConstTrue then .start compileTimeValues
    else
      let head := checkParts compileTimeValues inside
      let constCond := evaluateConstExpr head.compileTimeValues cond
      let chosen :=
        if folds constCond false then .start head.compileTimeValues
        else (checkStmts head.compileTimeValues body).enter pos
      head.andThen ((chosen.andThen
        (checkClauses chosen.compileTimeValues (folds constCond true) rest)).test
          pos head.compileTimeValues)

def checkBlocks (compileTimeValues : Table) : List (List Stmt) → Walk
  | [] => .start compileTimeValues
  | body :: rest =>
    let first := (checkStmts compileTimeValues body).block
    first.andThen (checkBlocks first.compileTimeValues rest)

def checkPart (compileTimeValues : Table) : Part → Walk
  | .cfgExpr => .start (enterTarget info compileTimeValues)
  | .block body => (checkStmts compileTimeValues body).block
  | .lambdaBlock _ => .start compileTimeValues

def checkParts (compileTimeValues : Table) : List Part → Walk
  | [] => .start compileTimeValues
  | part :: rest =>
    let first := checkPart compileTimeValues part
    first.andThen (checkParts first.compileTimeValues rest)

end

/-- The bodies of a file's functions, in their order: the table goes from one to the next. -/
def checkFunctions (compileTimeValues : Table) (bodies : List (List Stmt)) : Walk :=
  checkBlocks info compileTimeValues bodies

end Checking

section Running

/-- A value at run time; those of the other kinds are all `none`. -/
abbrev Datum := Option ComptimeValue

abbrev Env := Scopes.Env Text Datum

/-- What the compiled program does where the types of the operands or another function decide. -/
structure Target where
  literal : Literal → Datum → Prop
  unary : UnaryOp → Datum → Datum → Prop
  binary : BinaryOp → Datum → Datum → Datum → Prop
  /-- The operators that may do without their right operand. -/
  left : PlainOp → Datum → Datum → Prop
  call : Env → Text → List Datum → Datum → Env → Prop
  other : Env → Text → Datum → Env → Prop
  /-- What IR generation makes of an `@cfg`. -/
  cfg : Expr → Datum → Prop

/-- What happens in an evaluation: a variable is read; a node gets a value, beside the one the
evaluator has for it on these operands; an operator does without its right operand; a ternary
takes a branch; a function returns, called with arguments or without; an `@cfg` has a value. -/
inductive Event where
  | read (name : Text) (v : Datum)
  | node (folded : Option ComptimeValue) (v : Datum)
  | left (op : PlainOp) (raw : Text) (a v : Datum)
  | chose (c : Datum) (taken : Bool)
  | called (callee : Text) (bare : Bool) (v : Datum)
  | cfg (e : Expr) (v : Datum)

def Decides (v : Datum) (taken : Bool) : Prop :=
  match v with
  | some (.plain (.bool b)) => taken = b
  | some (.plain (.int n)) => taken = decide (n ≠ 0)
  | _ => True

variable (target : Target)

mutual

inductive Evaluates : Env → Expr → List Event → Datum → Env → Prop where
  | literal {env l v} (value : target.literal l v) :
      Evaluates env (.literal l) [.node l.value v] v env
  | ident {env name v} (value : read env name = some v) :
      Evaluates env (.ident name) [.read name v] v env
  | paren {env e events v after} (inner : Evaluates env e events v after) :
      Evaluates env (.paren e) events v after
  | cfg {env name e v} (value : target.cfg e v) : Evaluates env (.cfg name e) [.cfg e v] v env
  | unary {env op e events a v after} (inner : Evaluates env e events a after)
      (value : target.unary op a v) :
      Evaluates env (.unary op e) (events ++ [.node (a.bind op.fold) v]) v after
  | binary {env op l r before events a b v middle after} (left : Evaluates env l before a middle)
      (right : Evaluates middle r events b after) (value : target.binary op a b v) :
      Evaluates env (.binary op l r)
        (before ++ events ++
          [.node (a.bind fun x => b.bind fun y => op.fold (getText (.binary op l r)) x y) v])
        v after
  | left {env op l r events a v after} (left : Evaluates env l events a after)
      (value : target.left op a v) :
      Evaluates env (.binary (.plain op) l r)
        (events ++ [.left op (getText (.binary (.plain op) l r)) a v]) v after
  | ternary {env c t e before events a taken v middle after}
      (cond : Evaluates env c before a middle) (decides : Decides a taken)
      (chosen : Evaluates middle (if taken then t else e) events v after) :
      Evaluates env (.ternary c t e) (before ++ .chose a taken :: events) v after
  | call {env callee args events vs v middle after}
      (values : EvaluatesAll env args events vs middle) (value : target.call middle callee vs v after) :
      Evaluates env (.call callee args) (events ++ [.called callee args.isEmpty v]) v after
  | other {env token folded v after} (value : target.other env token v after) :
      Evaluates env (.other token folded) [.node folded v] v after

inductive EvaluatesAll : Env → List Expr → List Event → List Datum → Env → Prop where
  | nil {env} : EvaluatesAll env [] [] [] env
  | cons {env e rest before events v vs middle after} (first : Evaluates env e before v middle)
      (others : EvaluatesAll middle rest events vs after) :
      EvaluatesAll env (e :: rest) (before ++ events) (v :: vs) after

end

/-- What a run leaves behind: a condition it evaluated, a body it went into, outside of the
lambdas or within one, a call that came back. -/
inductive Mark where
  | tested (pos : Nat) (cond : Expr) (events : List Event)
  | entered (outside : Bool) (pos : Nat)
  | returned (callee : Text)

/-- What is left of a mark of a lambda. -/
def Mark.within : Mark → Option Mark
  | entered _ pos => some (.entered false pos)
  | tested _ _ _ | returned _ => none

inductive Node where
  | stmt (s : Stmt)
  | stmts (body : List Stmt)
  | clauses (c : Clauses)
  | blocks (bodies : List (List Stmt))
  | parts (inside : List Part)

/-- Runs of a part of a function, whole (`true`) or left or cut somewhere (`false`); what leaves
a block has no rule of its own. -/
inductive Runs : Node → Env → List Mark → Env → Bool → Prop where
  | cut {n env} : Runs n env [] env false
  -- what the blocks of an expression do to the variables is told by the value of the expression
  | inside {env s marks later middle after ends whole}
      (parts : Runs (.parts s.inside) env marks middle ends)
      (others : Runs (.stmt s) env later after whole) : Runs (.stmt s) env (marks ++ later) after whole
  | head {env pos cond inside body rest marks later middle after ends whole}
      (parts : Runs (.parts inside) env marks middle ends)
      (others : Runs (.clauses (.branch pos cond inside body rest)) env later after whole) :
      Runs (.clauses (.branch pos cond inside body rest)) env (marks ++ later) after whole
  | declare {env name e inside events v after} (value : Evaluates target env e events v after) :
      Runs (.stmt (.declare name (some e) inside)) env [] ((name, v) :: after) true
  | declareBare {env name inside v} :
      Runs (.stmt (.declare name none inside)) env [] ((name, v) :: env) true
  | assign {env name e inside events v after} (value : Evaluates target env e events v after) :
      Runs (.stmt (.assignStmt name e inside)) env [] (write after name v) true
  | compound {env name op e inside events v after}
      (value : Evaluates target env (.binary op (.ident name) e) events v after) :
      Runs (.stmt (.compoundAssignStmt name op e inside)) env [] (write after name v) true
  | call {env callee inside after} (alike : Alike env after) :
      Runs (.stmt (.callStmt callee inside)) env [.returned callee] after true
  | expr {env inside after} (alike : Alike env after) :
      Runs (.stmt (.exprStmt inside)) env [] after true
  | ifStmt {env c marks after whole} (inner : Runs (.clauses c) env marks after whole) :
      Runs (.stmt (.ifStmt c)) env marks after whole
  | blocks {env bodies marks after whole} (inner : Runs (.blocks bodies) env marks after whole) :
      Runs (.stmt (.blocks bodies)) env marks after whole
  | inlineBlock {env body marks after whole} (inner : Runs (.stmts body) env marks after whole) :
      Runs (.stmt (.inlineBlockStmt body)) env marks after whole
  | label {env s marks after whole} (inner : Runs (.stmt s) env marks after whole) :
      Runs (.stmt (.labelDef s)) env marks after whole
  | nil {env} : Runs (.stmts []) env [] env true
  | stop {env s rest marks after} (first : Runs (.stmt s) env marks after false) :
      Runs (.stmts (s :: rest)) env marks after false
  | seq {env s rest marks later middle after whole} (first : Runs (.stmt s) env marks middle true)
      (others : Runs (.stmts rest) middle later after whole) :
      Runs (.stmts (s :: rest)) env (marks ++ later) after whole
  | done {env} : Runs (.clauses .done) env [] env true
  | elseClause {env pos body marks after whole} (inner : Runs (.stmts body) env marks after whole) :
      Runs (.clauses (.elseClause pos body)) env (.entered true pos :: marks) (leaveScope env after)
        whole
  -- an `is` condition may bind a name for the body
  | taken {env pos cond inside body rest events v bound middle marks after whole}
      (value : Evaluates target env cond events v middle) (decides : Decides v true)
      (inner : Runs (.stmts body) (bound ++ middle) marks after whole) :
      Runs (.clauses (.branch pos cond inside body rest)) env
        (.tested pos cond events :: .entered true pos :: marks) (leaveScope middle after) whole
  | passed {env pos cond inside body rest events v middle marks after whole}
      (value : Evaluates target env cond events v middle) (decides : Decides v false)
      (others : Runs (.clauses rest) middle marks after whole) :
      Runs (.clauses (.branch pos cond inside body rest)) env (.tested pos cond events :: marks)
        after whole
  -- any of the blocks, in any order and any number of times; a head may bind a variable
  | finish {env bodies whole} : Runs (.blocks bodies) env [] env whole
  | body {env bodies body start bound marks later middle after inside whole}
      (member : body ∈ bodies) (alike : Alike env start)
      (inner : Runs (.stmts body) (bound ++ start) marks middle inside)
      (others : Runs (.blocks bodies) (leaveScope start middle) later after whole) :
      Runs (.blocks bodies) env (marks ++ later) after whole
  | noPart {env ps whole} : Runs (.parts ps) env [] env whole
  | block {env ps body start bound marks later middle after ends whole}
      (member : .block body ∈ ps) (alike : Alike env start)
      (inner : Runs (.stmts body) (bound ++ start) marks middle ends)
      (others : Runs (.parts ps) env later after whole) : Runs (.parts ps) env (marks ++ later) after whole
  | lambda {env ps body start bound marks later middle after ends whole}
      (member : .lambdaBlock body ∈ ps) (alike : Alike env start)
      (inner : Runs (.stmts body) (bound ++ start) marks middle ends)
      (others : Runs (.parts ps) env later after whole) :
      Runs (.parts ps) env (marks.filterMap Mark.within ++ later) after whole

end Running

section Agreement

/-- What the evaluator takes for granted about an event of the evaluation: a name in the table
holds the value that stands there, a literal and an operator give what the evaluator has for
them, a call without arguments gives `true`, `all`, `any` and `not` are no functions, and an
`@cfg` is what the evaluator makes of it. -/
def Agrees (compileTimeValues : Table) : Event → Prop
  | .read name v => ∀ c, compileTimeValues name = some c → v = some c
  | .node folded v => ∀ c, folded = some c → v = some c
  | .left op raw a v => ∀ x y c, a = some x → BinaryOp.fold (.plain op) raw x y = some c → v = some c
  | .chose c taken => ∀ x, c = some x → taken = isTrue x
  | .called callee bare v =>
    if bare then v = some (.bool true) else callee ≠ allName ∧ callee ≠ anyName ∧ callee ≠ notName
  | .cfg e v => ∀ c, evaluateConstExpr compileTimeValues e = some c → v = some c

/-- Each condition that was folded to a `bool` is evaluated as the evaluator takes for granted, no
call of a function taken for one that never returns comes back, and no lambda goes into a body. -/
def Meets (tested : List (Nat × Table)) : Mark → Prop
  | .tested pos cond events => ∀ compileTimeValues b, (pos, compileTimeValues) ∈ tested →
      evaluateConstExpr compileTimeValues cond = some (.bool b) →
        ∀ event ∈ events, Agrees compileTimeValues event
  | .entered outside _ => outside = true
  | .returned callee => noreturnNames.contains callee = false

variable {target : Target} {compileTimeValues : Table}

theorem call_not_folded {callee : Text} {args : List Expr} (given : args.isEmpty = false)
    (free : callee ≠ allName ∧ callee ≠ anyName ∧ callee ≠ notName) :
    evaluateConstExpr compileTimeValues (.call callee args) = none := by
  simp [evaluateConstExpr, given, free]

theorem folded_value {env : Env} {e : Expr} {events : List Event} {v : Datum} {after : Env}
    (run : Evaluates target env e events v after)
    (agree : ∀ event ∈ events, Agrees compileTimeValues event) (c : ComptimeValue)
    (folded : evaluateConstExpr compileTimeValues e = some c) : v = some c := by
  match run with
  | .literal _ => exact agree _ (.head _) c folded
  | .ident _ => exact agree _ (.head _) c folded
  | .paren inner => exact folded_value inner agree c folded
  | .cfg _ => exact agree _ (.head _) c folded
  | .unary inner _ =>
    rw [evaluateConstExpr] at folded
    rcases bind_eq_some_iff.1 folded with ⟨x, operand, result⟩
    have known := folded_value inner (fun event member => agree event (by simp [member])) x operand
    exact agree (.node _ _) (mem_append_right _ (.head _)) c (by simp [known, result])
  | .binary left right _ =>
    rw [evaluateConstExpr] at folded
    rcases bind_eq_some_iff.1 folded with ⟨x, first, both⟩
    rcases bind_eq_some_iff.1 both with ⟨y, second, result⟩
    have known := folded_value left (fun event member => agree event (by simp [member])) x first
    have other := folded_value right (fun event member => agree event (by simp [member])) y second
    exact agree (.node _ _) (mem_append_right _ (.head _)) c
      (by simp [known, other, result])
  | .left left _ =>
    rw [evaluateConstExpr] at folded
    rcases bind_eq_some_iff.1 folded with ⟨x, first, both⟩
    rcases bind_eq_some_iff.1 both with ⟨y, _, result⟩
    have known := folded_value left (fun event member => agree event (by simp [member])) x first
    exact agree (.left _ _ _ _) (by simp) x y c known result
  | .ternary cond _ chosen =>
    rw [evaluateConstExpr] at folded
    rcases bind_eq_some_iff.1 folded with ⟨x, first, branch⟩
    have known := folded_value cond (fun event member => agree event (by simp [member])) x first
    have same := agree (.chose _ _) (mem_append_right _ (.head _)) x known
    refine folded_value chosen (fun event member => agree event (by simp [member])) c ?_
    rw [same]
    cases truth : isTrue x with
    | true => simpa [truth] using branch
    | false => simpa [truth] using branch
  | @Evaluates.call _ _ callee args _ _ _ _ _ _ _ =>
    have taken := agree (.called callee args.isEmpty v) (by simp)
    cases bare : args.isEmpty with
    | true =>
      simp only [Agrees, bare, if_true] at taken
      simp only [evaluateConstExpr, bare, if_true] at folded
      rw [taken, folded]
    | false =>
      simp only [Agrees, bare, Bool.false_eq_true, if_false] at taken
      rw [call_not_folded bare taken] at folded
      cases folded
  | .other _ => exact agree _ (.head _) c folded

end Agreement

section Soundness

variable {target : Target}

theorem Meets.of_subset {some_tested tested} (subset : some_tested ⊆ tested)
    {mark : Mark} (meets : Meets tested mark) : Meets some_tested mark := by
  cases mark with
  | tested pos cond events => exact fun values b member => meets values b (subset member)
  | entered _ _ => exact meets
  | returned _ => exact meets

variable {cond : Expr}

variable {after env : Env}

theorem folded_decides {compileTimeValues : Table} {tested} {pos : Nat}
    {events : List Event} {v : Datum} {taken : Bool}
    (value : Evaluates target env cond events v after) (decides : Decides v taken)
    (member : (pos, compileTimeValues) ∈ tested) (meets : Meets tested (.tested pos cond events)) :
    folds (evaluateConstExpr compileTimeValues cond) (!taken) = false := by
  cases folded : evaluateConstExpr compileTimeValues cond with
  | none => rfl
  | some c =>
    cases c with
    | float _ => rfl
    | plain w =>
      cases w with
      | int _ => rfl
      | str _ => rfl
      | bool b =>
        have known := folded_value value (meets compileTimeValues b member folded) _ folded
        subst known
        simp only [Decides] at decides
        subst decides
        simp [folds]

/-- The bodies and conditions of one walk are among those of another. -/
structure Walk.Under (part whole : Walk) : Prop where
  visited : part.visited ⊆ whole.visited
  tested : part.tested ⊆ whole.tested

section Under

variable (first second : Walk) {part w whole : Walk} (pos : Nat) (values : Table)

theorem Walk.under_left : first.Under (first.andThen second) :=
  ⟨subset_append_left _ _, subset_append_left _ _⟩

theorem Walk.under_right : second.Under (first.andThen second) :=
  ⟨subset_append_right _ _, subset_append_right _ _⟩

theorem Walk.under_block : first.Under first.block := ⟨Subset.refl _, Subset.refl _⟩

theorem Walk.under_enter : first.Under (first.enter pos) :=
  ⟨subset_cons_self _ _, Subset.refl _⟩

theorem Walk.under_test : first.Under (first.test pos values) :=
  ⟨Subset.refl _, subset_cons_self _ _⟩

theorem Walk.Under.trans (inner : part.Under w) (outer : w.Under whole) : part.Under whole :=
  ⟨List.Subset.trans inner.visited outer.visited, List.Subset.trans inner.tested outer.tested⟩

end Under

variable (info : TargetInfo)

def Node.check (compileTimeValues : Table) : Node → Walk
  | .stmt s => checkStmt info compileTimeValues s
  | .stmts body => checkStmts info compileTimeValues body
  | .clauses c => checkClauses info compileTimeValues false c
  | .blocks bodies => checkBlocks info compileTimeValues bodies
  | .parts inside => checkParts info compileTimeValues inside

/-- What the walk owes to a run: it was in each body the run went into, and it does not take for
ended what the run came to the end of. -/
structure Covers (w : Walk) (marks : List Mark) (whole : Bool) : Prop where
  visited : ∀ outside pos, .entered outside pos ∈ marks → pos ∈ w.visited
  ends : whole = true → w.terminated = false

variable {whole : Bool}

theorem Covers.nil {w : Walk} (ends : whole = true → w.terminated = false) : Covers w [] whole where
  visited := by simp
  ends := ends

theorem Covers.append {part w : Walk} {marks later : List Mark} {ends : Bool}
    (first : Covers part marks ends) (under : part.Under w) (others : Covers w later whole) :
    Covers w (marks ++ later) whole where
  visited outside pos entered := by
    rcases mem_append.1 entered with now | afterwards
    · exact under.visited (first.visited outside pos now)
    · exact others.visited outside pos afterwards
  ends := others.ends

variable (values : Table)

theorem checkClauses_terminated (values : Table) (isConstTrue : Bool) (c : Clauses) :
    (checkClauses info values isConstTrue c).terminated = false := by
  match c with
  | .done => rfl
  | .elseClause pos body => cases isConstTrue <;> rfl
  | .branch pos cond inside body rest =>
    cases isConstTrue with
    | true => rfl
    | false => exact checkClauses_terminated _ _ rest

theorem checkBlocks_terminated (bodies : List (List Stmt)) :
    (checkBlocks info values bodies).terminated = false := by
  induction bodies generalizing values with
  | nil => rfl
  | cons body _ ih => exact ih _

theorem checkParts_terminated (inside : List Part) :
    (checkParts info values inside).terminated = false := by
  induction inside generalizing values with
  | nil => rfl
  | cons part _ ih => exact ih _

theorem body_checked {bodies : List (List Stmt)} {body : List Stmt} (member : body ∈ bodies) :
    ∃ found, (checkStmts info found body).Under (checkBlocks info values bodies) := by
  induction bodies generalizing values with
  | nil => cases member
  | cons first rest ih =>
    rcases mem_cons.1 member with rfl | later
    · exact ⟨values, (Walk.under_block _).trans (Walk.under_left _ _)⟩
    · rcases ih (checkStmts info values first).block.compileTimeValues later with ⟨found, under⟩
      exact ⟨found, under.trans (Walk.under_right _ _)⟩

theorem block_checked {inside : List Part} {body : List Stmt} (member : .block body ∈ inside) :
    ∃ found, (checkStmts info found body).Under (checkParts info values inside) := by
  induction inside generalizing values with
  | nil => cases member
  | cons first rest ih =>
    rcases mem_cons.1 member with rfl | later
    · exact ⟨values, (Walk.under_block _).trans (Walk.under_left _ _)⟩
    · rcases ih (checkPart info values first).compileTimeValues later with ⟨found, under⟩
      exact ⟨found, under.trans (Walk.under_right _ _)⟩

theorem inside_checked (s : Stmt) :
    (checkParts info values s.inside).Under (checkStmt info values s) := by
  have same : (checkParts info values s.inside).Under (checkParts info values s.inside) :=
    ⟨Subset.refl _, Subset.refl _⟩
  have none_there (w : Walk) : (checkParts info values []).Under w := ⟨nil_subset _, nil_subset _⟩
  cases s with
  | declare => exact Walk.under_left _ _
  | assignStmt | compoundAssignStmt | exprStmt => exact same
  | callStmt | leave => exact ⟨Subset.refl _, Subset.refl _⟩
  | ifStmt | blocks | inlineBlockStmt | labelDef => exact none_there _

theorem checkStmts_on {s : Stmt} (rest : List Stmt)
    (on : (checkStmt info values s).terminated = false) :
    checkStmts info values (s :: rest) = (checkStmt info values s).andThen
      (checkStmts info (checkStmt info values s).compileTimeValues rest) := by
  simp [checkStmts, on]

theorem checkStmts_first (s : Stmt) (rest : List Stmt) :
    (checkStmt info values s).Under (checkStmts info values (s :: rest)) := by
  cases ended : (checkStmt info values s).terminated with
  | true => simpa [checkStmts, ended] using ⟨Subset.refl _, Subset.refl _⟩
  | false =>
    rw [checkStmts_on info values rest ended]
    exact Walk.under_left _ _

variable (pos : Nat) (inside : List Part) (body : List Stmt) (rest : Clauses)

theorem head_checked : (checkParts info values inside).Under
    (checkClauses info values false (.branch pos cond inside body rest)) :=
  Walk.under_left _ _

/-- The table with which the condition is folded. -/
def headValues : Table := (checkParts info values inside).compileTimeValues

/-- A clause whose condition was not folded to `false` has its body checked. -/
theorem checkClauses_taken
    (live : folds (evaluateConstExpr (headValues info values inside) cond) false = false) :
    pos ∈ (checkClauses info values false (.branch pos cond inside body rest)).visited ∧
      (checkStmts info (headValues info values inside) body).Under
        (checkClauses info values false (.branch pos cond inside body rest)) := by
  have walk : ∃ chosen behind : Walk,
      checkClauses info values false (.branch pos cond inside body rest) =
        (checkParts info values inside).andThen
          ((chosen.andThen behind).test pos (headValues info values inside)) ∧
      chosen = (checkStmts info (headValues info values inside) body).enter pos :=
    ⟨_, _, rfl, if_neg (by rw [← headValues, live]; exact Bool.noConfusion)⟩
  rcases walk with ⟨_, behind, walk, rfl⟩
  rw [walk]
  have entered := ((Walk.under_left ((checkStmts info (headValues info values inside) body).enter pos)
    behind).trans (Walk.under_test _ pos (headValues info values inside))).trans
      (Walk.under_right (checkParts info values inside) _)
  exact ⟨entered.visited (.head _), (Walk.under_enter _ pos).trans entered⟩

/-- A clause whose condition was not folded to `true` has the clauses behind it checked. -/
theorem checkClauses_passed
    (live : folds (evaluateConstExpr (headValues info values inside) cond) true = false) :
    ∃ found, (checkClauses info found false rest).Under
      (checkClauses info values false (.branch pos cond inside body rest)) := by
  have walk : ∃ chosen : Walk, checkClauses info values false (.branch pos cond inside body rest) =
      (checkParts info values inside).andThen ((chosen.andThen
        (checkClauses info chosen.compileTimeValues
          (folds (evaluateConstExpr (headValues info values inside) cond) true) rest)).test pos
            (headValues info values inside)) := ⟨_, rfl⟩
  rcases walk with ⟨chosen, walk⟩
  rw [walk, live]
  exact ⟨chosen.compileTimeValues, ((Walk.under_right _ _).trans (Walk.under_test _ pos _)).trans
    (Walk.under_right _ _)⟩

theorem condition_tested (cond : Expr) : (pos, headValues info values inside) ∈
    (checkClauses info values false (.branch pos cond inside body rest)).tested :=
  (Walk.under_right (checkParts info values inside) _).tested (.head _)

theorem run_covered {n : Node} {marks : List Mark}
    (run : Runs target n env marks after whole)
    (meets : ∀ mark ∈ marks, Meets (n.check info values).tested mark) :
    Covers (n.check info values) marks whole := by
  induction run generalizing values with
  | cut => exact .nil (by simp)
  | @inside _ s _ _ _ _ _ _ _ _ ih_parts ih_others =>
    have under := inside_checked info values s
    have parts := ih_parts values fun mark member =>
      (meets mark (mem_append_left _ member)).of_subset under.tested
    exact parts.append under (ih_others values fun mark member => meets mark (mem_append_right _ member))
  | @head _ at_pos cond inside body rest _ _ _ _ _ _ _ _ ih_parts ih_others =>
    have under : (checkParts info values inside).Under (checkClauses info values false
      (.branch at_pos cond inside body rest)) := head_checked info values at_pos inside body rest
    have parts := ih_parts values fun mark member =>
      (meets mark (mem_append_left _ member)).of_subset under.tested
    exact parts.append under (ih_others values fun mark member => meets mark (mem_append_right _ member))
  | declare _ => exact .nil fun _ => rfl
  | declareBare => exact .nil fun _ => rfl
  | assign _ => exact .nil fun _ => checkParts_terminated info values _
  | compound _ => exact .nil fun _ => checkParts_terminated info values _
  | call _ => exact ⟨by simp, fun _ => meets _ (.head _)⟩
  | expr _ => exact .nil fun _ => checkParts_terminated info values _
  | ifStmt _ ih => exact ih values meets
  | blocks _ ih => exact ih values meets
  | inlineBlock _ ih => exact ih values meets
  | label _ ih => exact ih values meets
  | nil => exact .nil fun _ => rfl
  | @stop _ s rest _ _ _ ih =>
    have under := checkStmts_first info values s rest
    have first := ih values fun mark member => (meets mark member).of_subset under.tested
    exact ⟨fun outside pos entered => under.visited (first.visited outside pos entered), by simp⟩
  | @seq _ s rest _ _ _ _ _ _ _ ih_first ih_others =>
    have under := checkStmts_first info values s rest
    have first := ih_first values fun mark member =>
      (meets mark (mem_append_left _ member)).of_subset under.tested
    have walk := checkStmts_on info values rest (first.ends rfl)
    have later := Walk.under_right (checkStmt info values s)
      (checkStmts info (checkStmt info values s).compileTimeValues rest)
    rw [← walk] at later
    have others := ih_others (checkStmt info values s).compileTimeValues fun mark member =>
      (meets mark (mem_append_right _ member)).of_subset later.tested
    refine first.append under ⟨fun outside pos entered => ?_, fun ended => ?_⟩
    · exact later.visited (others.visited outside pos entered)
    · change (checkStmts info values (s :: rest)).terminated = false
      rw [walk]
      exact others.ends ended
  | done => exact .nil fun _ => rfl
  | @elseClause _ at_pos body _ _ _ _ ih =>
    have inner := ih values fun mark member => meets mark (.tail _ member)
    constructor
    · intro outside pos entered
      rcases mem_cons.1 entered with here | inside
      · cases here
        exact .head _
      · exact .tail _ (inner.visited outside pos inside)
    · exact fun _ => rfl
  | @taken _ at_pos cond inside body rest _ _ _ _ _ _ _ value decides _ ih =>
    have live := folded_decides value decides
      (condition_tested info values at_pos inside body rest cond) (meets _ (.head _))
    rcases checkClauses_taken info values at_pos inside body rest live with ⟨here, under⟩
    have inner := ih (headValues info values inside) fun mark member =>
      (meets mark (by simp [member])).of_subset under.tested
    constructor
    · intro outside pos entered
      simp only [mem_cons, Mark.entered.injEq, reduceCtorEq, false_or] at entered
      rcases entered with ⟨_, rfl⟩ | within
      · exact here
      · exact under.visited (inner.visited outside pos within)
    · exact fun _ => checkClauses_terminated info values false _
  | @passed _ at_pos cond inside body rest _ _ _ _ _ _ value decides _ ih =>
    have live := folded_decides value decides
      (condition_tested info values at_pos inside body rest cond) (meets _ (.head _))
    rcases checkClauses_passed info values at_pos inside body rest live with ⟨found, under⟩
    have others := ih found fun mark member => (meets mark (.tail _ member)).of_subset under.tested
    constructor
    · intro outside pos entered
      rcases mem_cons.1 entered with here | later
      · cases here
      · exact under.visited (others.visited outside pos later)
    · exact fun _ => checkClauses_terminated info values false _
  | finish => exact .nil fun _ => checkBlocks_terminated info values _
  | body member _ _ _ ih_inner ih_others =>
    rcases body_checked info values member with ⟨found, under⟩
    have inner := ih_inner found fun mark within =>
      (meets mark (mem_append_left _ within)).of_subset under.tested
    exact inner.append under
      (ih_others values fun mark later => meets mark (mem_append_right _ later))
  | noPart => exact .nil fun _ => checkParts_terminated info values _
  | block member _ _ _ ih_inner ih_others =>
    rcases block_checked info values member with ⟨found, under⟩
    have inner := ih_inner found fun mark within =>
      (meets mark (mem_append_left _ within)).of_subset under.tested
    exact inner.append under
      (ih_others values fun mark later => meets mark (mem_append_right _ later))
  | lambda _ _ _ _ _ ih_others =>
    -- the checker was in no body of the lambda, and the run went into none
    have others := ih_others values fun mark later => meets mark (mem_append_right _ later)
    refine ⟨fun outside pos entered => ?_, others.ends⟩
    rcases mem_append.1 entered with within | later
    · have outside_lambda : outside = true := meets _ entered
      rcases mem_filterMap.1 within with ⟨mark, _, left⟩
      cases mark with
      | tested | returned => cases left
      | entered =>
        cases left
        cases outside_lambda
    · exact others.visited outside pos later

def Sound (info : TargetInfo) (target : Target) (values : Table) (bodies : List (List Stmt)) :
    Prop :=
  ∀ body ∈ bodies, ∀ env marks after whole, Runs target (.stmts body) env marks after whole →
    ∀ outside pos, .entered outside pos ∈ marks → pos ∈ (checkFunctions info values bodies).visited

/-- In every run whose conditions are evaluated as the evaluator takes for granted, and whose
lambdas go into no body, each body the run goes into was checked. -/
theorem executed_visited (info : TargetInfo) (target : Target) (values : Table)
    (bodies : List (List Stmt)) (body : List Stmt) (declared : body ∈ bodies) (env : Env)
    (marks : List Mark) (after : Env) (whole : Bool)
    (run : Runs target (.stmts body) env marks after whole)
    (meets : ∀ mark ∈ marks, Meets (checkFunctions info values bodies).tested mark) (outside : Bool)
    (pos : Nat) (entered : .entered outside pos ∈ marks) :
    pos ∈ (checkFunctions info values bodies).visited := by
  rcases body_checked info values declared with ⟨found, under⟩
  have covered := run_covered info found run fun mark member =>
    (meets mark member).of_subset under.tested
  exact under.visited (covered.visited outside pos entered)

theorem decides_bool (b : Bool) : Decides (some (.bool b)) b := rfl

def plainTarget : Target where
  literal l v := v = l.value
  unary op a v := v = a.bind op.fold
  binary op a b v := v = a.bind fun x => b.bind fun y => op.fold op.text x y
  left _ _ _ := False
  call _ _ _ _ _ := False
  other _ _ _ _ := False
  cfg _ _ := False

def linux : TargetInfo := ⟨[], [], [], 64, [], [], false⟩

def falseLit : Expr := .literal (.bool ['f', 'a', 'l', 's', 'e'])

def trueLit : Expr := .literal (.bool ['t', 'r', 'u', 'e'])

/-- `bool b = false; if b { … } else { … }` -/
def knownBody : List Stmt :=
  [varDeclStmt ['b'] (some falseLit) [],
    .ifStmt (.branch 1 (.ident ['b']) [] [.exprStmt []] (.elseClause 2 [.exprStmt []]))]

theorem known_branch_visited :
    2 ∈ (checkFunctions linux (fun _ => none) [knownBody]).visited :=
  executed_visited linux plainTarget (fun _ => none) [knownBody] knownBody mem_cons_self []
    [.tested 1 (.ident ['b']) [.read ['b'] (some (.bool false))], .entered true 2]
    [(['b'], some (.bool false))] true
    (.seq (.declare (.literal rfl))
      (.seq (.ifStmt (.passed (.ident rfl) (decides_bool false) (.elseClause (.seq (.expr rfl) .nil)))) .nil))
    (by
      intro mark member
      rcases mem_cons.mp member with rfl | later
      · intro values b tested _ event happened
        cases mem_singleton.mp tested
        cases mem_singleton.mp happened
        intro c known
        exact known
      · cases mem_singleton.mp later
        rfl)
    true 2 (by simp)

/-- `bool b = false; b = true; if b { … }` -/
def staleBody : List Stmt :=
  [varDeclStmt ['b'] (some falseLit) [], .assignStmt ['b'] trueLit [],
    .ifStmt (.branch 1 (.ident ['b']) [] [.exprStmt []] .done)]

theorem stale_branch_executed : ¬ Sound linux plainTarget (fun _ => none) [staleBody] := by
  intro sound
  have inside : Runs plainTarget (.stmts [.exprStmt []]) ([] ++ [(['b'], some (.bool true))]) []
      [(['b'], some (.bool true))] true := .seq (.expr rfl) .nil
  have run : Runs plainTarget (.stmts staleBody) []
      [.tested 1 (.ident ['b']) [.read ['b'] (some (.bool true))], .entered true 1]
      [(['b'], some (.bool true))] true :=
    .seq (.declare (.literal rfl)) (.seq (.assign (.literal rfl))
      (.seq (.ifStmt (.taken (.ident rfl) (decides_bool true) inside)) .nil))
  have visited := sound staleBody (.head _) _ _ _ _ run true 1 (by simp)
  have skipped : (checkFunctions linux (fun _ => none) [staleBody]).visited = [] := rfl
  rw [skipped] at visited
  cases visited

end Soundness

end Lucis.DeadBranch
