import Lucis.Library.Effects
import Mathlib.Data.Option.Basic

/-!
The tree-walking interpreter of comptime/ComptimeInterpreter.cpp. Each function takes the
interpreter it calls itself through, so that a run is bounded by fuel; where the fuel ends
the run stops. Besides its result a run tells the statements it begins and, for each lookup
along the frames, how many frames above the holder it passed. The builtins, the evaluator of
other constants and the arithmetic of doubles come from outside; signed overflow wraps.
-/

namespace Lucis.Comptime

open Effects Effects.Comp

section Syntax

inductive ComptimeValue where
  | void
  | int (v : Int64)
  | float (bits : UInt64)
  | bool (v : Bool)
  | string (v : String)
  | type (type : Nat)
  | list (elems : List ComptimeValue)
  | struct (fields : List (String × ComptimeValue))
  | function (decl : Nat)

def ComptimeValue.isVoid : ComptimeValue → Bool
  | .void => true
  | _ => false

inductive RelOp where
  | lt | gt | lte | gte

inductive MulOp where
  | star | slash | percent

inductive AssignOp where
  | plus | minus | star | slash | percent | amp | pipe | other

mutual

inductive Expr where
  | intLit (v : Int64)
  | floatLit (bits : UInt64)
  | boolLit (v : Bool)
  | strLit (v : String)
  | ident (name : String)
  | index (base idx : Expr)
  | fnCall (callee : Expr) (args : List Expr)
  | matchExpr (scrutinee : Expr) (arms : List Arm)
  | neg (e : Expr)
  | rel (op : RelOp) (l r : Expr)
  | eq (equal : Bool) (l r : Expr)
  | addSub (plus : Bool) (l r : Expr)
  | mul (op : MulOp) (l r : Expr)
  | bitAnd (l r : Expr)
  | logicalNot (e : Expr)
  | paren (e : Expr)
  | range (start stop : Expr)
  | rangeIncl (start stop : Expr)
  | other (token : Nat)

inductive Arm where
  | mk (patterns : List (List String)) (block : Option (List Stmt)) (exprs : List Expr)

inductive IfBody where
  | block (stmts : List Stmt)
  | statement (stmt : Stmt)

/-- An indexed assignment has its indices before the value; `destructure` is a declaration of
several names in parentheses. -/
inductive Stmt where
  | returnStmt (e : Option Expr)
  | ifStmt (cond : Expr) (body : IfBody) (elseIfs : List (Expr × IfBody))
      (elseClause : Option IfBody)
  | varDecl (declarators : List (String × Option Expr))
  | destructure (names : List String) (e : Expr)
  | assign (name : String) (exprs : List Expr)
  | compoundAssign (name : String) (op : AssignOp) (e : Expr)
  | whileStmt (cond : Expr) (block : List Stmt)
  | forIn (name : String) (iterable : Expr) (block : List Stmt)
  | exprStmt (e : Expr)
  | callStmt (name : String) (args : List Expr)
  | nakedBlock (stmts : List Stmt)

end

structure FunctionDecl where
  params : List (Option String)
  block : List Stmt

/-- What the interpreter asks for: the registries, the constant evaluator and the arithmetic of
doubles. -/
structure Host where
  builtin : String → Option (List ComptimeValue → ComptimeValue)
  registry : String → Option FunctionDecl
  constEval : Expr → Option ComptimeValue
  floatNeg : UInt64 → UInt64
  floatAdd : UInt64 → UInt64 → UInt64
  floatSub : UInt64 → UInt64 → UInt64

def bareHost (registry : String → Option FunctionDecl) : Host where
  builtin _ := none
  registry := registry
  constEval _ := none
  floatNeg := id
  floatAdd l _ := l
  floatSub l _ := l

end Syntax

section Frames

abbrev Frame := String → Option ComptimeValue

/-- Where a statement stands: nothing comes behind it in its function, something does, or it is
in the block of an arm whose value an expression needs. -/
inductive Pos where
  | last
  | inside
  | operand
  deriving DecidableEq

inductive Note where
  | yielded (v : ComptimeValue)
  | unevaluated (e : Expr)
  | taken (body : IfBody)
  | declared (later : List (String × Option Expr))
  | assigned (exprs : List Expr)
  | returned (pos : Pos) (v : ComptimeValue)

inductive Event where
  | began (stmt : Stmt)
  | found (above : Option Nat)
  | note (n : Note)

inductive Stop where
  | outOfFuel
  | returned (v : ComptimeValue)

abbrev Eval := Comp Stop (List Frame) Event

def setTop (name : String) (v : ComptimeValue) : List Frame → List Frame
  | top :: rest => Function.update top name (some v) :: rest
  | [] => []

def setLocal (name : String) (v : ComptimeValue) : Eval Unit := modify (setTop name v)

def holder (name : String) (frames : List Frame) : Option Nat :=
  frames.findIdx? fun frame => (frame name).isSome

def lookup (name : String) (frames : List Frame) : Option ComptimeValue :=
  frames.findSome? fun frame => frame name

def evalIdent (name : String) : Eval ComptimeValue := do
  let frames ← get
  emit (.found (holder name frames))
  return (lookup name frames).getD .void

def paramFrame : List (Option String) → List ComptimeValue → Frame
  | some name :: params, v :: args =>
    fun other => (paramFrame params args other).or (if other = name then some v else none)
  | none :: params, _ :: args => paramFrame params args
  | _, _ => fun _ => none

end Frames

section Expressions

variable (host : Host) (expr : Expr → Eval ComptimeValue)
  (block body : List Stmt → Eval ComptimeValue)

def evalArgs : List Expr → Eval (List ComptimeValue)
  | [] => return []
  | e :: rest => do
      let v ← expr e
      let vs ← evalArgs rest
      return v :: vs

def evaluate (func : FunctionDecl) (args : List ComptimeValue) : Eval ComptimeValue := do
  modify (paramFrame func.params args :: ·)
  let result ← body func.block
  modify List.tail
  return result

/-- The call of a declaration repeats the steps of `evaluate`. -/
def evalFnCall (callee : Expr) (args : List Expr) : Eval ComptimeValue :=
  match callee with
  | .ident name =>
    match host.builtin name with
    | some fn => do
        let vs ← evalArgs expr args
        return fn vs
    | none =>
      match host.registry name with
      | some func => do
          let vs ← evalArgs expr args
          evaluate body func vs
      | none => return .void
  | _ => return .void

def evalArmBody : Arm → Option (Eval ComptimeValue)
  | .mk _ (some b) _ => some (block b)
  | .mk _ none (e :: _) => some (expr e)
  | .mk _ none [] => none

def fieldOf (name : String) : ComptimeValue → Option ComptimeValue
  | .struct fields => fields.lookup name
  | _ => none

def evalPattern (arm : Arm) (val : ComptimeValue) : List String → Option (Eval ComptimeValue)
  | [] => evalArmBody expr block arm
  | [name] =>
    if name = "_" then evalArmBody expr block arm
    else if (fieldOf name val).isSome then evalArmBody expr block arm
    else some (do
      setLocal name val
      return val)
  | varName :: bindName :: _ =>
    (fieldOf varName val).map fun field => do
      setLocal bindName field
      (evalArmBody expr block arm).getD (return field)

def evalArm (val : ComptimeValue) : Arm → Option (Eval ComptimeValue)
  | .mk [] b es => evalArmBody expr block (.mk [] b es)
  | .mk patterns b es => patterns.findSome? (evalPattern expr block (.mk patterns b es) val)

def evalMatch (scrutinee : Expr) (arms : List Arm) : Eval ComptimeValue := do
  let val ← expr scrutinee
  (arms.findSome? (evalArm expr block val)).getD (return .void)

def evalNeg : ComptimeValue → ComptimeValue
  | .int v => .int (-v)
  | .float bits => .float (host.floatNeg bits)
  | v => v

def evalRel (op : RelOp) : ComptimeValue → ComptimeValue → ComptimeValue
  | .int l, .int r =>
    match op with
    | .lt => .bool (l < r)
    | .gt => .bool (l > r)
    | .lte => .bool (l ≤ r)
    | .gte => .bool (l ≥ r)
  | _, _ => .void

def evalEq (equal : Bool) : ComptimeValue → ComptimeValue → ComptimeValue
  | .int l, .int r => .bool (if equal then l == r else l != r)
  | _, _ => .void

def evalAddSub (plus : Bool) : ComptimeValue → ComptimeValue → ComptimeValue
  | .int l, .int r => .int (if plus then l + r else l - r)
  | .float l, .float r => .float (if plus then host.floatAdd l r else host.floatSub l r)
  | l, _ => l

def evalMul (op : MulOp) : ComptimeValue → ComptimeValue → ComptimeValue
  | .int l, .int r =>
    match op with
    | .star => .int (l * r)
    | .slash => .int (if r ≠ 0 then l / r else 0)
    | .percent => .int (if r ≠ 0 then l % r else 0)
  | l, _ => l

def evalBitAnd : ComptimeValue → ComptimeValue → ComptimeValue
  | .int l, .int r => .int (l &&& r)
  | l, _ => l

def evalNot : ComptimeValue → ComptimeValue
  | .bool v => .bool !v
  | .int v => .int (~~~v)
  | v => v

def evalIndex : ComptimeValue → ComptimeValue → ComptimeValue
  | .list elems, .int i => (elems[i.toUInt64.toNat]?).getD .void
  | _, _ => .void

def operands (l r : Expr) (op : ComptimeValue → ComptimeValue → ComptimeValue) :
    Eval ComptimeValue := do
  let l ← expr l
  let r ← expr r
  return op l r

def evalExpr : Expr → Eval ComptimeValue
  | .intLit v => return .int v
  | .floatLit bits => return .float bits
  | .boolLit v => return .bool v
  | .strLit v => return .string v
  | .ident name => evalIdent name
  | .index base idx => operands expr base idx evalIndex
  | .fnCall callee args => evalFnCall host expr body callee args
  | .matchExpr scrutinee arms => evalMatch expr block scrutinee arms
  | .neg e => do
      let v ← expr e
      return evalNeg host v
  | .rel op l r => operands expr l r (evalRel op)
  | .eq equal l r => operands expr l r (evalEq equal)
  | .addSub plus l r => operands expr l r (evalAddSub host plus)
  | .mul op l r => operands expr l r (evalMul op)
  | .bitAnd l r => operands expr l r evalBitAnd
  | .logicalNot e => do
      let v ← expr e
      return evalNot v
  | .paren e => expr e
  | e => return (host.constEval e).getD .void

end Expressions

section Congruence

structure Congruence (r : (α : Type) → Eval α → Eval α → Prop) : Prop where
  value {α : Type} (result : α) : r α (pure result) (pure result)
  seq {α β : Type} {first first' : Eval α} {rest rest' : α → Eval β} (begins : r α first first')
    (goes : ∀ result, r β (rest result) (rest' result)) : r β (first >>= rest) (first' >>= rest')
  assigns (name : String) (v : ComptimeValue) : r Unit (setLocal name v) (setLocal name v)
  reads (name : String) : r ComptimeValue (evalIdent name) (evalIdent name)
  calls {body body' : List Stmt → Eval ComptimeValue}
    (bodies : ∀ b, r ComptimeValue (body b) (body' b)) (func : FunctionDecl)
    (args : List ComptimeValue) :
    r ComptimeValue (evaluate body func args) (evaluate body' func args)

variable {r : (α : Type) → Eval α → Eval α → Prop} {expr expr' : Expr → Eval ComptimeValue}
  {block block' body body' : List Stmt → Eval ComptimeValue}

variable (congruence : Congruence r)
include congruence

theorem Congruence.evalArgs (exprs : ∀ e, r _ (expr e) (expr' e))
    (args : List Expr) : r _ (evalArgs expr args) (evalArgs expr' args) := by
  induction args with
  | nil => exact congruence.value []
  | cons e rest ih =>
    apply congruence.seq (exprs e)
    intro v
    apply congruence.seq ih
    intro vs
    exact congruence.value (v :: vs)

theorem Congruence.evalFnCall (host : Host)
    (exprs : ∀ e, r _ (expr e) (expr' e)) (bodies : ∀ b, r _ (body b) (body' b)) (callee : Expr)
    (args : List Expr) :
    r _ (evalFnCall host expr body callee args) (evalFnCall host expr' body' callee args) := by
  cases callee with
  | ident name =>
    simp only [Comptime.evalFnCall]
    cases host.builtin name with
    | some fn =>
      apply congruence.seq (congruence.evalArgs exprs args)
      intro vs
      exact congruence.value (fn vs)
    | none =>
      cases host.registry name with
      | some func =>
        apply congruence.seq (congruence.evalArgs exprs args)
        intro vs
        exact congruence.calls bodies func vs
      | none => exact congruence.value ComptimeValue.void
  | _ => exact congruence.value ComptimeValue.void

omit congruence in
theorem rel_findSome? {α β γ : Type} {related : β → γ → Prop} {f : α → Option β}
    {g : α → Option γ} (each : ∀ a, Option.Rel related (f a) (g a)) (l : List α) :
    Option.Rel related (l.findSome? f) (l.findSome? g) := by
  induction l with
  | nil => exact .none
  | cons a rest ih =>
    rw [List.findSome?_cons, List.findSome?_cons]
    match f a, g a, each a with
    | _, _, .some found => exact .some found
    | _, _, .none => exact ih

omit congruence in
theorem rel_getD {β γ : Type} {related} {o : Option β} {o' : Option γ} {d : β}
    {d' : γ} (options : Option.Rel related o o') (defaults : related d d') :
    related (o.getD d) (o'.getD d') := by
  cases options with
  | some found => exact found
  | none => exact defaults

theorem Congruence.evalMatch
    (r' : Eval ComptimeValue → Eval ComptimeValue → Prop)
    (weaker : ∀ {model code}, r _ model code → r' model code)
    (ends : ∀ {α : Type} {first first' : Eval α} {rest rest'},
      r α first first' → (∀ result, r' (rest result) (rest' result)) →
        r' (first >>= rest) (first' >>= rest'))
    (exprs : ∀ e, r _ (expr e) (expr' e)) (blocks : ∀ b, r' (block b) (block' b))
    (scrutinee : Expr) (arms : List Arm) :
    r' (evalMatch expr block scrutinee arms) (evalMatch expr' block' scrutinee arms) := by
  have value (v : ComptimeValue) : r' (pure v) (pure v) := weaker (congruence.value v)
  have armBody (arm : Arm) :
      Option.Rel r' (evalArmBody expr block arm) (evalArmBody expr' block' arm) := by
    match arm with
    | .mk _ (some b) _ => exact .some (blocks b)
    | .mk _ none (e :: _) => exact .some (weaker (exprs e))
    | .mk _ none [] => exact .none
  have pattern (arm : Arm) (val : ComptimeValue) (ids : List String) :
      Option.Rel r' (evalPattern expr block arm val ids)
        (evalPattern expr' block' arm val ids) := by
    match ids with
    | [] => exact armBody arm
    | [name] =>
      simp only [evalPattern]
      split_ifs
      · exact armBody arm
      · exact armBody arm
      · exact .some (ends (congruence.assigns name val) fun _ => value val)
    | varName :: bindName :: _ =>
      simp only [evalPattern]
      cases fieldOf varName val with
      | none => exact .none
      | some field =>
        exact .some (ends (congruence.assigns bindName field) fun _ =>
          rel_getD (armBody arm) (value field))
  have decides (val : ComptimeValue) (arm : Arm) :
      Option.Rel r' (evalArm expr block val arm) (evalArm expr' block' val arm) := by
    match arm with
    | .mk [] b es => exact armBody (.mk [] b es)
    | .mk (ids :: patterns) b es =>
      exact rel_findSome? (pattern (.mk (ids :: patterns) b es) val) (ids :: patterns)
  apply ends (exprs scrutinee)
  intro val
  exact rel_getD (rel_findSome? (decides val) arms) (value .void)

theorem Congruence.operands (exprs : ∀ e, r _ (expr e) (expr' e))
    (left right : Expr) (op : ComptimeValue → ComptimeValue → ComptimeValue) :
    r _ (operands expr left right op) (operands expr' left right op) := by
  apply congruence.seq (exprs left)
  intro l
  apply congruence.seq (exprs right)
  intro r
  exact congruence.value (op l r)

theorem Congruence.evalExpr (host : Host)
    (exprs : ∀ e, r _ (expr e) (expr' e)) (blocks : ∀ b, r _ (block b) (block' b))
    (bodies : ∀ b, r _ (body b) (body' b)) (e : Expr) :
    r _ (evalExpr host expr block body e) (evalExpr host expr' block' body' e) := by
  have mapped (e : Expr) (f : ComptimeValue → ComptimeValue) :
      r _ (expr e >>= fun v => pure (f v)) (expr' e >>= fun v => pure (f v)) :=
    congruence.seq (exprs e) fun v => congruence.value (f v)
  cases e with
  | ident name => exact congruence.reads name
  | index l r | rel op l r | eq equal l r | addSub plus l r | mul op l r | bitAnd l r =>
    exact congruence.operands exprs l r _
  | fnCall callee args => exact congruence.evalFnCall host exprs bodies callee args
  | matchExpr scrutinee arms =>
    exact congruence.evalMatch (r _) id congruence.seq exprs blocks scrutinee arms
  | neg e | logicalNot e => exact mapped e _
  | paren e => exact exprs e
  | intLit v | floatLit bits | boolLit v | strLit v | range l r | rangeIncl l r | other token =>
    exact congruence.value _

end Congruence

section Statements

/-- The functions that a run re-enters, each with less fuel. A loop is re-entered behind an
iteration; `evalRange` is the loop of `evalForIn` from a value of its variable on. -/
structure Interpreter where
  evalExpr : Expr → Eval ComptimeValue
  evalBlock : List Stmt → Eval ComptimeValue
  evalWhile : Expr → List Stmt → Eval ComptimeValue
  evalRange : (inclusive : Bool) → String → Int64 → Int64 → List Stmt → Eval ComptimeValue

variable (host : Host) (self : Interpreter)

def truth : ComptimeValue → Bool
  | .bool v => v
  | .int v => v ≠ 0
  | _ => false

def evalReturn : Option Expr → Eval ComptimeValue
  | none => return .void
  | some e => self.evalExpr e

def evalIfBody : IfBody → Eval ComptimeValue
  | .block stmts => self.evalBlock stmts
  | .statement _ => return .void

def evalElse : List (Expr × IfBody) → Option IfBody → Eval ComptimeValue
  | [], none => return .void
  | [], some body => evalIfBody self body
  | (e, body) :: rest, elseClause => do
      let cond ← self.evalExpr e
      if truth cond then evalIfBody self body else evalElse rest elseClause

def evalIf (cond : Expr) (body : IfBody) (elseIfs : List (Expr × IfBody))
    (elseClause : Option IfBody) : Eval ComptimeValue := do
  let cond ← self.evalExpr cond
  if truth cond then evalIfBody self body else evalElse self elseIfs elseClause

def evalVarDecl : List (String × Option Expr) → Eval ComptimeValue
  | (name, some e) :: _ => do
      let val ← self.evalExpr e
      setLocal name val
      return .void
  | _ => return .void

def evalAssign (name : String) : List Expr → Eval ComptimeValue
  | e :: _ => do
      let val ← self.evalExpr e
      setLocal name val
      return .void
  | [] => return .void

def compound : AssignOp → ComptimeValue → ComptimeValue → ComptimeValue
  | .plus, .int var, .int rhs => .int (var + rhs)
  | .minus, .int var, .int rhs => .int (var - rhs)
  | .star, .int var, .int rhs => .int (var * rhs)
  | .slash, .int var, .int rhs => .int (if rhs ≠ 0 then var / rhs else 0)
  | .percent, .int var, .int rhs => .int (if rhs ≠ 0 then var % rhs else 0)
  | .amp, .int var, .int rhs => .int (var &&& rhs)
  | .pipe, .int var, .int rhs => .int (var ||| rhs)
  | _, var, _ => var

def changeLocal (name : String) (change : ComptimeValue → ComptimeValue) (frame : Frame) : Frame :=
  Function.update frame name ((frame name).map change)

/-- The frame is found before the right side is evaluated, the variable is read behind it. -/
def evalCompoundAssign (name : String) (op : AssignOp) (e : Expr) : Eval ComptimeValue := do
  let frames ← get
  emit (.found (holder name frames))
  match holder name frames with
  | none => return .void
  | some above => do
      let rhs ← self.evalExpr e
      modify fun frames => frames.modify above (changeLocal name (compound op · rhs))
      return .void

def evalWhile (cond : Expr) (block : List Stmt) : Eval ComptimeValue := do
  let value ← self.evalExpr cond
  if truth value then do
    let r ← self.evalBlock block
    if r.isVoid then self.evalWhile cond block else return r
  else return .void

def inRange (inclusive : Bool) (i stop : Int64) : Bool :=
  if inclusive then i ≤ stop else i < stop

def evalRange (inclusive : Bool) (name : String) (i stop : Int64) (block : List Stmt) :
    Eval ComptimeValue :=
  if inRange inclusive i stop then do
    setLocal name (.int i)
    let result ← self.evalBlock block
    if result.isVoid then self.evalRange inclusive name (i + 1) stop block else return result
  else return .void

def evalElems (name : String) (block : List Stmt) : List ComptimeValue → Eval ComptimeValue
  | [] => return .void
  | elem :: rest => do
      setLocal name elem
      let result ← self.evalBlock block
      if result.isVoid then evalElems name block rest else return result

def evalBounds (inclusive : Bool) (name : String) (start stop : Expr) (block : List Stmt) :
    Eval ComptimeValue := do
  let start ← self.evalExpr start
  let stop ← self.evalExpr stop
  match start, stop with
  | .int i, .int j => self.evalRange inclusive name i j block
  | _, _ => return .void

def evalForIn (name : String) (iterable : Expr) (block : List Stmt) : Eval ComptimeValue :=
  match iterable with
  | .range start stop => evalBounds self false name start stop block
  | .rangeIncl start stop => evalBounds self true name start stop block
  | e => do
      let iterable ← self.evalExpr e
      match iterable with
      | .list elems => evalElems self name block elems
      | _ => return .void

def evalCallStmt (name : String) (args : List Expr) : Eval ComptimeValue :=
  match host.registry name with
  | some func => do
      let vs ← evalArgs self.evalExpr args
      evaluate self.evalBlock func vs
  | none => return .void

def evalExprStmt : Expr → Eval ComptimeValue
  | .fnCall callee args => evalFnCall host self.evalExpr self.evalBlock callee args
  | .matchExpr scrutinee arms => evalMatch self.evalExpr self.evalBlock scrutinee arms
  | _ => return .void

def evalStmt (stmt : Stmt) : Eval ComptimeValue := do
  emit (.began stmt)
  match stmt with
  | .returnStmt e => evalReturn self e
  | .ifStmt cond body elseIfs elseClause => evalIf self cond body elseIfs elseClause
  | .varDecl declarators => evalVarDecl self declarators
  | .destructure _ _ => return .void
  | .assign name exprs => evalAssign self name exprs
  | .compoundAssign name op e => evalCompoundAssign self name op e
  | .whileStmt cond block => self.evalWhile cond block
  | .forIn name iterable block => evalForIn self name iterable block
  | .exprStmt e => evalExprStmt host self e
  | .callStmt name args => evalCallStmt host self name args
  | .nakedBlock stmts => self.evalBlock stmts

def evalBlock : List Stmt → Eval ComptimeValue
  | [] => return .void
  | stmt :: rest => do
      let result ← evalStmt host self stmt
      if result.isVoid then evalBlock rest else return result

def interpreter : Nat → Interpreter
  | 0 => ⟨fun _ => stop .outOfFuel, fun _ => stop .outOfFuel, fun _ _ => stop .outOfFuel,
      fun _ _ _ _ _ => stop .outOfFuel⟩
  | fuel + 1 =>
    { evalExpr := evalExpr host (interpreter fuel).evalExpr (interpreter fuel).evalBlock
        (interpreter fuel).evalBlock
      evalBlock := evalBlock host (interpreter fuel)
      evalWhile := evalWhile (interpreter fuel)
      evalRange := evalRange (interpreter fuel) }

/-- `evaluate` from outside, on the frames that are there. -/
def call (fuel : Nat) (func : FunctionDecl) (args : List ComptimeValue) : Eval ComptimeValue :=
  evaluate (interpreter host fuel).evalBlock func args

end Statements

end Lucis.Comptime
