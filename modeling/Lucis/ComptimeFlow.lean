import Lucis.Comptime

/-!
The structured semantics of a comptime body and the interpreter beside it. Here a `return`
leaves its function and nothing else does, and every branch body runs, whatever its shape;
expressions, conditions and loops are evaluated as the interpreter does.
-/

namespace Lucis.Comptime

open Effects Effects.Comp

section Structured

structure Structured where
  expr : Expr → Eval ComptimeValue
  block : Pos → List Stmt → Eval Unit
  whileLoop : Pos → Expr → List Stmt → Eval Unit
  rangeLoop : Pos → (inclusive : Bool) → String → Int64 → Int64 → List Stmt → Eval Unit

def Pos.inner : Pos → Pos
  | .operand => .operand
  | _ => .inside

def Expr.quiet : Expr → Bool
  | .fnCall _ _ | .matchExpr _ _ => false
  | .index l r | .rel _ l r | .eq _ l r | .addSub _ l r | .mul _ l r | .bitAnd l r =>
    l.quiet && r.quiet
  | .neg e | .logicalNot e | .paren e => e.quiet
  | _ => true

def returnedValue : Stop → Option ComptimeValue
  | .returned v => some v
  | .outOfFuel => none

variable (host : Host) (sem : Structured)

def armBlock (pos : Pos) (stmts : List Stmt) : Eval ComptimeValue := do
  sem.block pos stmts
  return .void

/-- The value of a call is the one its `return` was executed with. -/
def callBody (stmts : List Stmt) : Eval ComptimeValue :=
  recover returnedValue (armBlock sem .last stmts)

def returnValue : Option Expr → Eval ComptimeValue
  | none => return .void
  | some e => sem.expr e

def execReturn (pos : Pos) (e : Option Expr) : Eval Unit := do
  let v ← returnValue sem e
  emit (.note (.returned pos v))
  stop (.returned v)

def execIfBody (pos : Pos) (body : IfBody) : Eval Unit := do
  emit (.note (.taken body))
  match body with
  | .block stmts => sem.block pos stmts
  | .statement stmt => sem.block pos [stmt]

def execElse (pos : Pos) : List (Expr × IfBody) → Option IfBody → Eval Unit
  | [], none => return
  | [], some body => execIfBody sem pos body
  | (e, body) :: rest, elseClause => do
      let cond ← sem.expr e
      if truth cond then execIfBody sem pos body else execElse pos rest elseClause

def execIf (pos : Pos) (cond : Expr) (body : IfBody) (elseIfs : List (Expr × IfBody))
    (elseClause : Option IfBody) : Eval Unit := do
  let cond ← sem.expr cond
  if truth cond then execIfBody sem pos body else execElse sem pos elseIfs elseClause

def execDeclarators : List (String × Option Expr) → Eval Unit
  | [] => return
  | (_, none) :: rest => execDeclarators rest
  | (name, some e) :: rest => do
      let val ← sem.expr e
      setLocal name val
      execDeclarators rest

def execVarDecl (declarators : List (String × Option Expr)) : Eval Unit := do
  emit (.note (.declared declarators.tail))
  execDeclarators sem declarators

def ComptimeValue.setAt : ComptimeValue → List ComptimeValue → ComptimeValue → ComptimeValue
  | _, [], new => new
  | .list elems, .int i :: rest, new =>
    .list (elems.modify i.toUInt64.toNat fun elem => elem.setAt rest new)
  | other, _, _ => other

def setElement (name : String) (values : List ComptimeValue) (frames : List Frame) : List Frame :=
  setTop name (((lookup name frames).getD .void).setAt values.dropLast
    (values.getLast?.getD .void)) frames

def execAssign (name : String) (exprs : List Expr) : Eval Unit := do
  emit (.note (.assigned exprs))
  let values ← evalArgs sem.expr exprs
  modify (setElement name values)

/-- As in the interpreter, a name that no frame holds ends the assignment before its right side is
evaluated, and with it the calls there. -/
def execCompoundAssign (name : String) (op : AssignOp) (e : Expr) : Eval Unit := do
  let frames ← get
  emit (.found (holder name frames))
  match holder name frames with
  | none => return
  | some above => do
      let rhs ← sem.expr e
      modify fun frames => frames.modify above (changeLocal name (compound op · rhs))

def execWhile (pos : Pos) (cond : Expr) (block : List Stmt) : Eval Unit := do
  let value ← sem.expr cond
  if truth value then do
    sem.block pos.inner block
    sem.whileLoop pos cond block
  else return

def execRange (pos : Pos) (inclusive : Bool) (name : String) (i stop : Int64)
    (block : List Stmt) : Eval Unit :=
  if inRange inclusive i stop then do
    setLocal name (.int i)
    sem.block pos.inner block
    sem.rangeLoop pos inclusive name (i + 1) stop block
  else return

def execElems (pos : Pos) (name : String) (block : List Stmt) : List ComptimeValue → Eval Unit
  | [] => return
  | elem :: rest => do
      setLocal name elem
      sem.block pos.inner block
      execElems pos name block rest

def execBounds (pos : Pos) (inclusive : Bool) (name : String) (start stop : Expr)
    (block : List Stmt) : Eval Unit := do
  let start ← sem.expr start
  let stop ← sem.expr stop
  match start, stop with
  | .int i, .int j => sem.rangeLoop pos inclusive name i j block
  | _, _ => return

def execForIn (pos : Pos) (name : String) (iterable : Expr) (block : List Stmt) : Eval Unit :=
  match iterable with
  | .range start stop => execBounds sem pos false name start stop block
  | .rangeIncl start stop => execBounds sem pos true name start stop block
  | e => do
      let iterable ← sem.expr e
      match iterable with
      | .list elems => execElems sem pos name block elems
      | _ => return

def execEffects (e : Expr) : Eval Unit := do
  emit (.note (.unevaluated e))
  if e.quiet then return
  else do
    let _ ← sem.expr e
    return

def dropValue (value : Eval ComptimeValue) : Eval Unit := do
  let v ← value
  emit (.note (.yielded v))

def execCallStmt (name : String) (args : List Expr) : Eval Unit :=
  match host.registry name with
  | some func => dropValue do
      let vs ← evalArgs sem.expr args
      evaluate (callBody sem) func vs
  | none => return

def execExprStmt (pos : Pos) : Expr → Eval Unit
  | .fnCall callee args => dropValue (evalFnCall host sem.expr (callBody sem) callee args)
  | .matchExpr scrutinee arms => dropValue (evalMatch sem.expr (armBlock sem pos) scrutinee arms)
  | e => execEffects sem e

def execStmt (pos : Pos) (stmt : Stmt) : Eval Unit := do
  emit (.began stmt)
  match stmt with
  | .returnStmt e => execReturn sem pos e
  | .ifStmt cond body elseIfs elseClause => execIf sem pos cond body elseIfs elseClause
  | .varDecl declarators => execVarDecl sem declarators
  | .destructure _ e => execEffects sem e
  | .assign name exprs => execAssign sem name exprs
  | .compoundAssign name op e => execCompoundAssign sem name op e
  | .whileStmt cond block => sem.whileLoop pos cond block
  | .forIn name iterable block => execForIn sem pos name iterable block
  | .exprStmt e => execExprStmt host sem pos e
  | .callStmt name args => execCallStmt host sem name args
  | .nakedBlock stmts => sem.block pos stmts

def execBlock (pos : Pos) : List Stmt → Eval Unit
  | [] => return
  | [stmt] => execStmt host sem pos stmt
  | stmt :: rest => do
      execStmt host sem pos.inner stmt
      execBlock pos rest

def structured : Nat → Structured
  | 0 => ⟨fun _ => stop .outOfFuel, fun _ _ => stop .outOfFuel, fun _ _ _ => stop .outOfFuel,
      fun _ _ _ _ _ _ => stop .outOfFuel⟩
  | fuel + 1 =>
    { expr := evalExpr host (structured fuel).expr (armBlock (structured fuel) .operand)
        (callBody (structured fuel))
      block := execBlock host (structured fuel)
      whileLoop := execWhile (structured fuel)
      rangeLoop := execRange (structured fuel) }

def structuredCall (fuel : Nat) (func : FunctionDecl) (args : List ComptimeValue) :
    Eval ComptimeValue :=
  evaluate (callBody (structured host fuel)) func args

end Structured

section Condition

/-- What a statement may do so that the interpreter goes on as the structured semantics does. -/
def Note.plain : Note → Bool
  | .yielded v => v.isVoid
  | .unevaluated e => e.quiet
  | .taken (.block _) => true
  | .taken (.statement _) => false
  | .declared later => later.all fun declarator => declarator.2.isNone
  | .assigned exprs => exprs.length == 1
  | .returned pos v => pos != .operand && (!v.isVoid || pos == .last)

def Event.plain : Event → Bool
  | .note n => n.plain
  | _ => true

def Event.shown : Event → Bool
  | .note _ => false
  | _ => true

end Condition

section Relations

abbrev Follows {α β : Type} (model : Eval α) (code : Eval β)
    (post : Post Stop Stop (List Frame) (List Frame) α β) : Prop :=
  Simulates (fun event : Event => event.plain = true) Event.shown Eq model code post

def Alike {α : Type} : Post Stop Stop (List Frame) (List Frame) α α :=
  Both (fun a s a' t => a' = a ∧ s = t) fun e s e' t => e = .outOfFuel ∧ e' = .outOfFuel ∧ s = t

/-- The interpreter gives the value of a `return` to the block around it, which it ends unless
the value is void. -/
def Leaves {α : Type} (value : α → ComptimeValue) (pos : Pos) :
    Except Stop α → Except Stop ComptimeValue → Prop
  | .ok a, .ok v => v = value a
  | .error (.returned v), .ok v' => v' = v ∧ pos ≠ .operand ∧ (v.isVoid = false ∨ pos = .last)
  | .error .outOfFuel, .error .outOfFuel => True
  | _, _ => False

def Ends {α : Type} (value : α → ComptimeValue) (pos : Pos) :
    Post Stop Stop (List Frame) (List Frame) α ComptimeValue :=
  fun out s out' t => s = t ∧ Leaves value pos out out'

abbrev Ended (pos : Pos) : Post Stop Stop (List Frame) (List Frame) Unit ComptimeValue :=
  Ends (fun _ => .void) pos

abbrev Valued (pos : Pos) : Post Stop Stop (List Frame) (List Frame) ComptimeValue ComptimeValue :=
  Ends id pos

def Starved {α β : Type} (post : Post Stop Stop (List Frame) (List Frame) α β) : Prop :=
  ∀ s, post (.error .outOfFuel) s (.error .outOfFuel) s

variable {α : Type}

theorem starved_alike : Starved (Alike (α := α)) := fun _ => ⟨rfl, rfl, rfl⟩

theorem starved_ends (value : α → ComptimeValue) (pos : Pos) :
    Starved (Ends value pos) := fun _ => ⟨rfl, trivial⟩

theorem alike_valued {pos : Pos} {out s out' t} (alike : Alike out s out' t) :
    Valued pos out s out' t := by
  cases out with
  | ok a =>
    cases out' with
    | ok a' => exact ⟨alike.2, alike.1⟩
    | error e' => exact alike.elim
  | error e =>
    cases out' with
    | ok a' => exact alike.elim
    | error e' =>
      obtain ⟨rfl, rfl, same⟩ := alike
      exact ⟨same, trivial⟩

theorem valued_operand {out s out' t} (valued : Valued .operand out s out' t) :
    Alike out s out' t := by
  obtain ⟨same, leaves⟩ := valued
  match out, out', leaves with
  | .ok a, .ok v, leaves => exact ⟨leaves, same⟩
  | .error .outOfFuel, .error .outOfFuel, _ => exact ⟨rfl, rfl, same⟩
  | .error (.returned v), .ok v', leaves => exact absurd rfl leaves.2.1

variable {α β γ δ : Type}

theorem follows_seq {model : Eval α} {code : Eval α} {rest : α → Eval γ} {rest' : α → Eval δ}
    {post} (starved : Starved post)
    (begins : Follows model code Alike) (goes : ∀ a, Follows (rest a) (rest' a) post) :
    Follows (model >>= rest) (code >>= rest') post := by
  apply simulates_seq begins
  · intro a a'
    apply simulates_of_related
    rintro s t ⟨rfl, rfl⟩
    exact (goes a').restrict fun _ _ related => related.2
  · rintro e s e' t ⟨rfl, rfl, rfl⟩
    exact starved s

variable {post : Post Stop Stop (List Frame) (List Frame) α β}

theorem follows_pure {result : α} {result' : β}
    (ends : ∀ s, post (.ok result) s (.ok result') s) : Follows (pure result) (pure result') post :=
  simulates_pure fun s _ same => same ▸ ends s

theorem follows_outOfFuel
    (starved : Starved post) : Follows (stop .outOfFuel) (stop .outOfFuel) post :=
  simulates_stop fun s _ same => same ▸ starved s

theorem follows_value (v : α) : Follows (pure v) (pure v) (Alike (α := α)) :=
  follows_pure fun _ => ⟨rfl, rfl⟩

theorem follows_modify (change : List Frame → List Frame) :
    Follows (modify change) (modify change) Alike :=
  simulates_modify fun _ _ same => ⟨rfl, same ▸ rfl⟩

theorem follows_void (pos : Pos) : Follows (pure ()) (pure .void) (Ended pos) :=
  follows_pure fun _ => ⟨rfl, rfl⟩

end Relations

section Expressions

theorem evalIdent_follows (name : String) : Follows (evalIdent name) (evalIdent name) Alike := by
  apply simulates_get
  rintro s t rfl
  apply simulates_emit rfl
  intro _
  exact simulates_pure fun _ _ now => ⟨rfl, now.1.trans now.2.symm⟩

theorem evaluate_follows {body body'}
    (bodies : ∀ b, Follows (body b) (body' b) Alike) (func : FunctionDecl)
    (args : List ComptimeValue) :
    Follows (evaluate body func args) (evaluate body' func args) Alike := by
  apply follows_seq starved_alike (follows_modify _)
  intro _
  apply follows_seq starved_alike (bodies func.block)
  intro result
  apply follows_seq starved_alike (follows_modify _)
  intro _
  exact follows_value result

theorem alike_congruence : Congruence fun _ model code => Follows model code Alike where
  value := follows_value
  seq begins goes := follows_seq starved_alike begins goes
  assigns _ _ := follows_modify _
  reads := evalIdent_follows
  calls := evaluate_follows

end Expressions

section Statements

structure Agree (sem : Structured) (interp : Interpreter) : Prop where
  expr (e : Expr) : Follows (sem.expr e) (interp.evalExpr e) Alike
  block (pos : Pos) (stmts : List Stmt) :
    Follows (sem.block pos stmts) (interp.evalBlock stmts) (Ended pos)
  whileLoop (pos : Pos) (cond : Expr) (block : List Stmt) :
    Follows (sem.whileLoop pos cond block) (interp.evalWhile cond block) (Ended pos)
  rangeLoop (pos : Pos) (inclusive : Bool) (name : String) (i stop : Int64) (block : List Stmt) :
    Follows (sem.rangeLoop pos inclusive name i stop block)
      (interp.evalRange inclusive name i stop block) (Ended pos)

theorem eq_void {v : ComptimeValue} (void : v.isVoid = true) : v = .void := by
  cases v with
  | void => rfl
  | _ => cases void

variable {sem : Structured} {interp : Interpreter}

variable (agree : Agree sem interp)
include agree

theorem armBlock_follows (pos : Pos) (stmts : List Stmt) :
    Follows (armBlock sem pos stmts) (interp.evalBlock stmts) (Valued pos) := by
  apply simulates_map (agree.block pos stmts)
  rintro out s out' t ⟨same, leaves⟩
  match out, out', leaves with
  | .ok _, .ok v, leaves => exact ⟨same, leaves⟩
  | .error (.returned v), .ok v', leaves => exact ⟨same, leaves⟩
  | .error .outOfFuel, .error .outOfFuel, _ => exact ⟨same, trivial⟩

theorem callBody_follows (stmts : List Stmt) :
    Follows (callBody sem stmts) (interp.evalBlock stmts) Alike := by
  apply simulates_recover (armBlock_follows agree .last stmts)
  rintro out s out' t ⟨same, leaves⟩
  match out, out', leaves with
  | .ok a, .ok v, leaves => exact ⟨leaves, same⟩
  | .error (.returned v), .ok v', leaves => exact ⟨leaves.1, same⟩
  | .error .outOfFuel, .error .outOfFuel, _ => exact ⟨rfl, rfl, same⟩

variable {pos : Pos}

omit agree in
theorem follows_block {model rest : Eval Unit} {code rest'}
    (begins : Follows model code (Ended pos.inner)) (goes : Follows rest rest' (Ended pos)) :
    Follows (model >>= fun _ => rest)
      (code >>= fun v => if v.isVoid then rest' else pure v) (Ended pos) := by
  apply simulates_bind begins
  intro out out'
  apply simulates_of_related
  rintro s t ⟨-, leaves⟩
  match out, out', leaves with
  | .ok _, .ok _, rfl => exact goes.restrict fun _ _ related => related.1
  | .error .outOfFuel, .error .outOfFuel, _ =>
    exact simulates_stop fun _ _ related => ⟨related.1, trivial⟩
  | .error (.returned v), .ok _, ⟨rfl, free, ends⟩ =>
    -- Inside a block the value of a return is not void, so the interpreter stops here too.
    have inner : pos.inner ≠ .last := by cases pos <;> decide
    have valued : v.isVoid = false := ends.resolve_right inner
    have outer : pos ≠ .operand := by
      rintro rfl
      exact free rfl
    simp only [resume, valued, Bool.false_eq_true, if_false]
    exact simulates_leave fun _ _ related => ⟨related.1, rfl, outer, .inl valued⟩

omit agree in
theorem dropValue_follows {model code}
    (follows : Follows model code (Valued pos)) : Follows (dropValue model) code (Ended pos) := by
  rw [← bind_pure_right code]
  apply simulates_bind follows
  intro out out'
  apply simulates_of_related
  rintro s t ⟨-, leaves⟩
  match out, out', leaves with
  | .ok a, .ok v, leaves =>
    apply simulates_last_note rfl
    intro void _ _ related
    exact ⟨related.1, leaves.trans (eq_void void)⟩
  | .error (.returned v), .ok v', leaves =>
    exact simulates_leave fun _ _ related => ⟨related.1, leaves⟩
  | .error .outOfFuel, .error .outOfFuel, _ =>
    exact simulates_stop fun _ _ related => ⟨related.1, trivial⟩

theorem execReturn_follows (pos : Pos) (e : Option Expr) :
    Follows (execReturn sem pos e) (evalReturn interp e) (Ended pos) := by
  have value : Follows (returnValue sem e) (evalReturn interp e) Alike := by
    cases e with
    | none => exact follows_value ComptimeValue.void
    | some e => exact agree.expr e
  rw [← bind_pure_right (evalReturn interp e)]
  apply follows_seq (starved_ends _ pos) value
  intro v
  apply simulates_note rfl
  intro plain
  have allowed : pos ≠ .operand ∧ (v.isVoid = false ∨ pos = .last) := by
    simpa [Event.plain, Note.plain] using plain
  exact simulates_leave fun _ _ same => ⟨same, rfl, allowed⟩

theorem execIfBody_follows (pos : Pos) (body : IfBody) :
    Follows (execIfBody sem pos body) (evalIfBody interp body) (Ended pos) := by
  apply simulates_note rfl
  intro plain
  cases body with
  | block stmts => exact agree.block pos stmts
  | statement stmt => cases plain

theorem execElse_follows (pos : Pos) (elseIfs : List (Expr × IfBody)) (elseClause : Option IfBody) :
    Follows (execElse sem pos elseIfs elseClause) (evalElse interp elseIfs elseClause)
      (Ended pos) := by
  induction elseIfs with
  | nil =>
    cases elseClause with
    | none => exact follows_void pos
    | some body => exact execIfBody_follows agree pos body
  | cons clause rest ih =>
    apply follows_seq (starved_ends _ pos) (agree.expr clause.1)
    intro cond
    cases truth cond with
    | true => exact execIfBody_follows agree pos clause.2
    | false => exact ih

theorem execIf_follows (pos : Pos) (cond : Expr) (body : IfBody)
    (elseIfs : List (Expr × IfBody)) (elseClause : Option IfBody) :
    Follows (execIf sem pos cond body elseIfs elseClause)
      (evalIf interp cond body elseIfs elseClause) (Ended pos) := by
  apply follows_seq (starved_ends _ pos) (agree.expr cond)
  intro value
  cases truth value with
  | true => exact execIfBody_follows agree pos body
  | false => exact execElse_follows agree pos elseIfs elseClause

omit agree in
theorem execDeclarators_plain {later}
    (plain : later.all (fun declarator => declarator.2.isNone) = true) :
    execDeclarators sem later = pure () := by
  induction later with
  | nil => rfl
  | cons declarator rest ih =>
    obtain ⟨name, init⟩ := declarator
    simp only [List.all_cons, Bool.and_eq_true, Option.isNone_iff_eq_none] at plain
    obtain ⟨rfl, others⟩ := plain
    exact ih others

omit agree in
theorem setLocal_follows (name : String) (v : ComptimeValue) (pos : Pos) :
    Follows (setLocal name v) (setLocal name v >>= fun _ => pure .void) (Ended pos) := by
  rw [← bind_pure_right (setLocal name v)]
  apply follows_seq (starved_ends _ pos) (follows_modify _)
  intro _
  exact follows_void pos

theorem execVarDecl_follows (pos : Pos) (declarators : List (String × Option Expr)) :
    Follows (execVarDecl sem declarators) (evalVarDecl interp declarators) (Ended pos) := by
  apply simulates_note rfl
  intro plain
  match declarators with
  | [] => exact follows_void pos
  | (name, none) :: rest =>
    rw [show execDeclarators sem ((name, none) :: rest) = pure () from execDeclarators_plain plain]
    exact follows_void pos
  | (name, some e) :: rest =>
    apply follows_seq (starved_ends _ pos) (agree.expr e)
    intro val
    rw [show execDeclarators sem rest = pure () from execDeclarators_plain plain]
    apply follows_seq (starved_ends _ pos) (follows_modify _)
    intro _
    exact follows_void pos

theorem execAssign_follows (pos : Pos) (name : String) (exprs : List Expr) :
    Follows (execAssign sem name exprs) (evalAssign interp name exprs) (Ended pos) := by
  apply simulates_note rfl
  intro plain
  match exprs with
  | [e] =>
    rw [evalArgs, bind_bind]
    apply follows_seq (starved_ends _ pos) (agree.expr e)
    intro val
    exact setLocal_follows name val pos
  | [] => cases plain
  | _ :: _ :: _ => simp [Event.plain, Note.plain] at plain

theorem execCompoundAssign_follows (pos : Pos) (name : String) (op : AssignOp) (e : Expr) :
    Follows (execCompoundAssign sem name op e) (evalCompoundAssign interp name op e)
      (Ended pos) := by
  apply simulates_get
  rintro s t rfl
  apply simulates_emit rfl
  intro _
  refine Simulates.restrict (?_ : Follows _ _ (Ended pos)) fun _ _ now => now.1.trans now.2.symm
  cases holder name s with
  | none => exact follows_void pos
  | some above =>
    apply follows_seq (starved_ends _ pos) (agree.expr e)
    intro rhs
    rw [← bind_pure_right (modify _)]
    apply follows_seq (starved_ends _ pos) (follows_modify _)
    intro _
    exact follows_void pos

theorem execWhile_follows (pos : Pos) (cond : Expr) (block : List Stmt) :
    Follows (execWhile sem pos cond block) (evalWhile interp cond block) (Ended pos) := by
  apply follows_seq (starved_ends _ pos) (agree.expr cond)
  intro value
  cases truth value with
  | true => exact follows_block (agree.block pos.inner block) (agree.whileLoop pos cond block)
  | false => exact follows_void pos

theorem iteration_follows (pos : Pos) (name : String)
    (elem : ComptimeValue) (block : List Stmt) {rest : Eval Unit} {rest'}
    (goes : Follows rest rest' (Ended pos)) : Follows (do
        setLocal name elem
        sem.block pos.inner block
        rest) (do
        setLocal name elem
        let result ← interp.evalBlock block
        if result.isVoid then rest' else return result)
      (Ended pos) := by
  apply follows_seq (starved_ends _ pos) (follows_modify _)
  intro _
  exact follows_block (agree.block pos.inner block) goes

theorem execRange_follows (pos : Pos) (inclusive : Bool)
    (name : String) (i stop : Int64) (block : List Stmt) :
    Follows (execRange sem pos inclusive name i stop block)
      (evalRange interp inclusive name i stop block) (Ended pos) := by
  unfold execRange evalRange
  cases inRange inclusive i stop with
  | true =>
    exact iteration_follows agree pos name (.int i) block
      (agree.rangeLoop pos inclusive name (i + 1) stop block)
  | false => exact follows_void pos

theorem execElems_follows (pos : Pos) (name : String)
    (block : List Stmt) (elems : List ComptimeValue) :
    Follows (execElems sem pos name block elems) (evalElems interp name block elems)
      (Ended pos) := by
  induction elems with
  | nil => exact follows_void pos
  | cons elem rest ih => exact iteration_follows agree pos name elem block ih

theorem execBounds_follows (pos : Pos) (inclusive : Bool)
    (name : String) (start stop : Expr) (block : List Stmt) :
    Follows (execBounds sem pos inclusive name start stop block)
      (evalBounds interp inclusive name start stop block) (Ended pos) := by
  apply follows_seq (starved_ends _ pos) (agree.expr start)
  intro first
  apply follows_seq (starved_ends _ pos) (agree.expr stop)
  intro last
  match first, last with
  | .int i, .int j => exact agree.rangeLoop pos inclusive name i j block
  | .int _, .void | .int _, .float _ | .int _, .bool _ | .int _, .string _ | .int _, .type _
  | .int _, .list _ | .int _, .struct _ | .int _, .function _
  | .void, _ | .float _, _ | .bool _, _ | .string _, _ | .type _, _
  | .list _, _ | .struct _, _ | .function _, _ => exact follows_void pos

theorem execForIn_follows (pos : Pos) (name : String) (iterable : Expr) (block : List Stmt) :
    Follows (execForIn sem pos name iterable block) (evalForIn interp name iterable block)
      (Ended pos) := by
  have elems (e : Expr) :
      Follows
        (sem.expr e >>= fun iterable => match iterable with
          | .list elems => execElems sem pos name block elems
          | _ => pure ())
        (interp.evalExpr e >>= fun iterable => match iterable with
          | .list elems => evalElems interp name block elems
          | _ => pure .void)
        (Ended pos) := by
    apply follows_seq (starved_ends _ pos) (agree.expr e)
    intro value
    cases value with
    | list elems => exact execElems_follows agree pos name block elems
    | _ => exact follows_void pos
  cases iterable with
  | range start stop => exact execBounds_follows agree pos false name start stop block
  | rangeIncl start stop => exact execBounds_follows agree pos true name start stop block
  | _ => exact elems _

omit agree

theorem execEffects_follows (pos : Pos) (e : Expr) :
    Follows (execEffects sem e) (pure .void) (Ended pos) := by
  apply simulates_note rfl
  intro plain
  have quiet : e.quiet = true := plain
  rw [if_pos quiet]
  exact follows_void pos

theorem execCallStmt_follows (host : Host) (agree : Agree sem interp) (pos : Pos)
    (name : String) (args : List Expr) :
    Follows (execCallStmt host sem name args) (evalCallStmt host interp name args) (Ended pos) := by
  unfold execCallStmt evalCallStmt
  cases host.registry name with
  | none => exact follows_void pos
  | some func =>
    apply dropValue_follows
    apply Simulates.weaken _ fun _ _ _ _ => alike_valued
    apply follows_seq starved_alike (alike_congruence.evalArgs agree.expr args)
    intro vs
    exact evaluate_follows (callBody_follows agree) func vs

theorem execExprStmt_follows (host : Host) (agree : Agree sem interp) (pos : Pos) (e : Expr) :
    Follows (execExprStmt host sem pos e) (evalExprStmt host interp e) (Ended pos) := by
  cases e with
  | fnCall callee args =>
    apply dropValue_follows
    apply Simulates.weaken _ fun _ _ _ _ => alike_valued
    exact alike_congruence.evalFnCall host agree.expr (callBody_follows agree) callee args
  | matchExpr scrutinee arms =>
    apply dropValue_follows
    exact alike_congruence.evalMatch (Follows · · (Valued pos))
      (·.weaken fun _ _ _ _ => alike_valued) (follows_seq (starved_ends id pos)) agree.expr
      (armBlock_follows agree pos) scrutinee arms
  | _ => exact execEffects_follows pos _

theorem execStmt_follows (host : Host) (agree : Agree sem interp) (pos : Pos) (stmt : Stmt) :
    Follows (execStmt host sem pos stmt) (evalStmt host interp stmt) (Ended pos) := by
  apply simulates_emit rfl
  intro _
  cases stmt with
  | returnStmt e => exact execReturn_follows agree pos e
  | ifStmt cond body elseIfs elseClause =>
    exact execIf_follows agree pos cond body elseIfs elseClause
  | varDecl declarators => exact execVarDecl_follows agree pos declarators
  | destructure names e => exact execEffects_follows pos e
  | assign name exprs => exact execAssign_follows agree pos name exprs
  | compoundAssign name op e => exact execCompoundAssign_follows agree pos name op e
  | whileStmt cond block => exact agree.whileLoop pos cond block
  | forIn name iterable block => exact execForIn_follows agree pos name iterable block
  | exprStmt e => exact execExprStmt_follows host agree pos e
  | callStmt name args => exact execCallStmt_follows host agree pos name args
  | nakedBlock stmts => exact agree.block pos stmts

theorem execBlock_follows (host : Host) (agree : Agree sem interp) (pos : Pos) (stmts : List Stmt) :
    Follows (execBlock host sem pos stmts) (evalBlock host interp stmts) (Ended pos) := by
  match stmts with
  | [] => exact follows_void pos
  | [stmt] =>
    have alone : evalBlock host interp [stmt] = evalStmt host interp stmt := by
      have value (v : ComptimeValue) :
          (if v.isVoid then evalBlock host interp [] else pure v : Eval ComptimeValue) = pure v := by
        cases void : v.isVoid with
        | true => exact congrArg pure (eq_void void).symm
        | false => rfl
      rw [evalBlock]
      simp only [value, bind_pure_right]
    rw [alone]
    exact execStmt_follows host agree pos stmt
  | stmt :: next :: rest =>
    exact follows_block (execStmt_follows host agree pos.inner stmt)
      (execBlock_follows host agree pos (next :: rest))

theorem structured_agree (host : Host) (fuel : Nat) :
    Agree (structured host fuel) (interpreter host fuel) := by
  induction fuel with
  | zero =>
    exact {
      expr := fun _ => follows_outOfFuel starved_alike
      block := fun pos _ => follows_outOfFuel (starved_ends _ pos)
      whileLoop := fun pos _ _ => follows_outOfFuel (starved_ends _ pos)
      rangeLoop := fun pos _ _ _ _ _ => follows_outOfFuel (starved_ends _ pos) }
  | succ fuel ih =>
    have arms (stmts : List Stmt) : Follows (armBlock (structured host fuel) .operand stmts)
        ((interpreter host fuel).evalBlock stmts) Alike :=
      (armBlock_follows ih .operand stmts).weaken fun _ _ _ _ => valued_operand
    exact {
      expr := alike_congruence.evalExpr host ih.expr arms (callBody_follows ih)
      block := execBlock_follows host ih
      whileLoop := execWhile_follows ih
      rangeLoop := execRange_follows ih }

theorem alike_eq {α : Type} {out out' : Except Stop α} {s t : List Frame}
    (alike : Alike out s out' t) : out' = out ∧ t = s := by
  cases out with
  | ok a =>
    cases out' with
    | ok a' => exact ⟨congrArg _ alike.1, alike.2.symm⟩
    | error e' => exact alike.elim
  | error e =>
    cases out' with
    | ok a' => exact alike.elim
    | error e' =>
      obtain ⟨rfl, rfl, same⟩ := alike
      exact ⟨rfl, same.symm⟩

/-- As long as the statements of a run are plain, the interpreter begins the same statements and
ends with the same value and frames, however much fuel there is. -/
theorem control_flow_faithful (host : Host) (fuel : Nat) (func : FunctionDecl)
    (args : List ComptimeValue) (frames : List Frame)
    (plain : ∀ event ∈ (structuredCall host fuel func args frames).events, event.plain = true) :
    call host fuel func args frames =
      { structuredCall host fuel func args frames with
        events := (structuredCall host fuel func args frames).events.filter Event.shown } := by
  have follows := evaluate_follows (callBody_follows (structured_agree host fuel)) func args
  have ⟨alike, events⟩ := follows frames frames rfl plain
  have ⟨out, state⟩ := alike_eq alike
  cases ends : call host fuel func args frames with
  | mk out' state' events' =>
    have unfolded : evaluate (interpreter host fuel).evalBlock func args frames =
        ⟨out', state', events'⟩ := ends
    rw [unfolded] at out state events
    rw [Ending.mk.injEq]
    exact ⟨out, state, events⟩

end Statements

section Runs

/-- `if a > b { return a; } return b;` -/
def maxDecl : FunctionDecl where
  params := [some "a", some "b"]
  block := [
    .ifStmt (.rel .gt (.ident "a") (.ident "b")) (.block [.returnStmt (some (.ident "a"))]) [] none,
    .returnStmt (some (.ident "b"))]

def maxHost : Host := bareHost fun name => if name = "max" then some maxDecl else none

/-- `int32 x = max(n, lo); return max(x, hi);` -/
def clampDecl : FunctionDecl where
  params := [some "n", some "lo", some "hi"]
  block := [
    .varDecl [("x", some (.fnCall (.ident "max") [.ident "n", .ident "lo"]))],
    .returnStmt (some (.fnCall (.ident "max") [.ident "x", .ident "hi"]))]

theorem control_flow_of_clamp :
    call maxHost 9 clampDecl [.int 3, .int 5, .int 9] [] =
      { structuredCall maxHost 9 clampDecl [.int 3, .int 5, .int 9] [] with
        events := (structuredCall maxHost 9 clampDecl [.int 3, .int 5, .int 9] []).events.filter
          Event.shown } :=
  control_flow_faithful maxHost 9 clampDecl [.int 3, .int 5, .int 9] [] (by decide)

/-- `max(3, 5); return 9;` -/
def callThenReturn : FunctionDecl where
  params := []
  block := [.callStmt "max" [.intLit 3, .intLit 5], .returnStmt (some (.intLit 9))]

/-- The call statement ends the block with the value of the call. -/
theorem call_statement_returns :
    (call maxHost 9 callThenReturn [] []).out = .ok (.int 5) ∧
      (structuredCall maxHost 9 callThenReturn [] []).out = .ok (.int 9) :=
  ⟨rfl, rfl⟩

/-- A bare return ends nothing: `return; return 1;` -/
example : (call maxHost 9 ⟨[], [.returnStmt none, .returnStmt (some (.intLit 1))]⟩ [] []).out =
    .ok (.int 1) := rfl

/-- A branch body without braces is left out: `if true return 1; return 2;` -/
example : (call maxHost 9 ⟨[], [.ifStmt (.boolLit true)
    (.statement (.returnStmt (some (.intLit 1)))) [] none, .returnStmt (some (.intLit 2))]⟩ [] []).out =
    .ok (.int 2) := rfl

end Runs

end Lucis.Comptime
