import Lucis.Comptime

/-!
The frames of the callers under a comptime call. An identifier and a compound assignment
search all frames; a call depends on its arguments alone as long as each such search ends
in the frame of its own function or finds the name in no frame.
-/

namespace Lucis.Comptime

open Effects Effects.Comp List

section Interpreted

variable {r : (α : Type) → Eval α → Eval α → Prop}

structure Interpreter.Related (r : (α : Type) → Eval α → Eval α → Prop)
    (interp interp' : Interpreter) : Prop where
  expr (e : Expr) : r _ (interp.evalExpr e) (interp'.evalExpr e)
  block (stmts : List Stmt) : r _ (interp.evalBlock stmts) (interp'.evalBlock stmts)
  whileLoop (cond : Expr) (block : List Stmt) :
    r _ (interp.evalWhile cond block) (interp'.evalWhile cond block)
  rangeLoop (inclusive : Bool) (name : String) (i stop : Int64) (block : List Stmt) :
    r _ (interp.evalRange inclusive name i stop block)
      (interp'.evalRange inclusive name i stop block)

structure StmtCongruence (r : (α : Type) → Eval α → Eval α → Prop) : Prop extends Congruence r where
  starved : r ComptimeValue (stop .outOfFuel) (stop .outOfFuel)
  begins (stmt : Stmt) : r Unit (emit (.began stmt)) (emit (.began stmt))
  compounds {interp interp' : Interpreter}
    (exprs : ∀ e, r _ (interp.evalExpr e) (interp'.evalExpr e)) (name : String) (op : AssignOp)
    (e : Expr) :
    r _ (evalCompoundAssign interp name op e) (evalCompoundAssign interp' name op e)

variable {interp interp' : Interpreter}

variable (congruence : StmtCongruence r)
include congruence

theorem StmtCongruence.void : r ComptimeValue (pure .void) (pure .void) := congruence.value _

theorem StmtCongruence.block {first first' rest rest' : Eval ComptimeValue}
    (begins : r _ first first') (goes : r _ rest rest') :
    r _ (first >>= fun v => if v.isVoid then rest else pure v)
      (first' >>= fun v => if v.isVoid then rest' else pure v) := by
  apply congruence.seq begins
  intro v
  cases v.isVoid with
  | true => exact goes
  | false => exact congruence.value v

variable (related : Interpreter.Related r interp interp')
include related

theorem StmtCongruence.ifBody
    (body : IfBody) : r _ (evalIfBody interp body) (evalIfBody interp' body) := by
  cases body with
  | block stmts => exact related.block stmts
  | statement stmt => exact congruence.void

theorem StmtCongruence.elseIfs (elseIfs : List (Expr × IfBody)) (elseClause : Option IfBody) :
    r _ (evalElse interp elseIfs elseClause) (evalElse interp' elseIfs elseClause) := by
  induction elseIfs with
  | nil =>
    cases elseClause with
    | none => exact congruence.void
    | some body => exact congruence.ifBody related body
  | cons clause rest ih =>
    apply congruence.seq (related.expr clause.1)
    intro cond
    cases truth cond with
    | true => exact congruence.ifBody related clause.2
    | false => exact ih

variable (name : String)

theorem StmtCongruence.assigned (e : Expr) : r ComptimeValue
      (do
        let val ← interp.evalExpr e
        setLocal name val
        return .void) (do
        let val ← interp'.evalExpr e
        setLocal name val
        return .void) := by
  apply congruence.seq (related.expr e)
  intro val
  apply congruence.seq (congruence.assigns name val)
  intro _
  exact congruence.void

theorem StmtCongruence.varDecl (declarators : List (String × Option Expr)) :
    r _ (evalVarDecl interp declarators) (evalVarDecl interp' declarators) := by
  match declarators with
  | [] => exact congruence.void
  | (_, none) :: _ => exact congruence.void
  | (name, some e) :: _ => exact congruence.assigned related name e

theorem StmtCongruence.assign (exprs : List Expr) :
    r _ (evalAssign interp name exprs) (evalAssign interp' name exprs) := by
  cases exprs with
  | nil => exact congruence.void
  | cons e rest => exact congruence.assigned related name e

theorem StmtCongruence.iteration
    (elem : ComptimeValue) (block : List Stmt) {rest rest' : Eval ComptimeValue}
    (goes : r _ rest rest') : r ComptimeValue (do
        setLocal name elem
        let result ← interp.evalBlock block
        if result.isVoid then rest else return result)
      (do
        setLocal name elem
        let result ← interp'.evalBlock block
        if result.isVoid then rest' else return result) := by
  apply congruence.seq (congruence.assigns name elem)
  intro _
  exact congruence.block (related.block block) goes

variable (inclusive : Bool)

theorem StmtCongruence.range (name : String) (i stop : Int64) (block : List Stmt) :
    r _ (evalRange interp inclusive name i stop block)
      (evalRange interp' inclusive name i stop block) := by
  unfold evalRange
  cases inRange inclusive i stop with
  | true =>
    exact congruence.iteration related name (.int i) block
      (related.rangeLoop inclusive name (i + 1) stop block)
  | false => exact congruence.void

theorem StmtCongruence.elems (block : List Stmt) (elems : List ComptimeValue) :
    r _ (evalElems interp name block elems) (evalElems interp' name block elems) := by
  induction elems with
  | nil => exact congruence.void
  | cons elem rest ih => exact congruence.iteration related name elem block ih

theorem StmtCongruence.bounds (name : String) (start stop : Expr) (block : List Stmt) :
    r _ (evalBounds interp inclusive name start stop block)
      (evalBounds interp' inclusive name start stop block) := by
  apply congruence.seq (related.expr start)
  intro first
  apply congruence.seq (related.expr stop)
  intro last
  split
  · exact related.rangeLoop inclusive name _ _ block
  · exact congruence.void

theorem StmtCongruence.forIn (iterable : Expr) (block : List Stmt) :
    r _ (evalForIn interp name iterable block) (evalForIn interp' name iterable block) := by
  unfold evalForIn
  split
  · exact congruence.bounds related false name _ _ block
  · exact congruence.bounds related true name _ _ block
  · apply congruence.seq (related.expr iterable)
    intro value
    split
    · exact congruence.elems related name block _
    · exact congruence.void

theorem StmtCongruence.whileLoop (cond : Expr) (block : List Stmt) :
    r _ (evalWhile interp cond block) (evalWhile interp' cond block) := by
  apply congruence.seq (related.expr cond)
  intro value
  cases truth value with
  | true => exact congruence.block (related.block block) (related.whileLoop cond block)
  | false => exact congruence.void

omit related

variable (host : Host)

theorem StmtCongruence.stmt (related : Interpreter.Related r interp interp') (stmt : Stmt) :
    r _ (evalStmt host interp stmt) (evalStmt host interp' stmt) := by
  apply congruence.seq (congruence.begins stmt)
  intro _
  cases stmt with
  | returnStmt e =>
    cases e with
    | none => exact congruence.void
    | some e => exact related.expr e
  | ifStmt cond body elseIfs elseClause =>
    apply congruence.seq (related.expr cond)
    intro value
    cases truth value with
    | true => exact congruence.ifBody related body
    | false => exact congruence.elseIfs related elseIfs elseClause
  | varDecl declarators => exact congruence.varDecl related declarators
  | destructure names e => exact congruence.void
  | assign name exprs => exact congruence.assign related name exprs
  | compoundAssign name op e => exact congruence.compounds related.expr name op e
  | whileStmt cond block => exact related.whileLoop cond block
  | forIn name iterable block => exact congruence.forIn related name iterable block
  | exprStmt e =>
    cases e with
    | fnCall callee args =>
      exact congruence.toCongruence.evalFnCall host related.expr related.block callee args
    | matchExpr scrutinee arms =>
      exact congruence.toCongruence.evalMatch (r _) id congruence.seq related.expr
        related.block scrutinee arms
    | _ => exact congruence.void
  | callStmt name args =>
    show r _ (evalCallStmt host interp name args) (evalCallStmt host interp' name args)
    unfold evalCallStmt
    cases host.registry name with
    | none => exact congruence.void
    | some func =>
      apply congruence.seq (congruence.toCongruence.evalArgs related.expr args)
      intro vs
      exact congruence.calls related.block func vs
  | nakedBlock stmts => exact related.block stmts

theorem StmtCongruence.stmts (related : Interpreter.Related r interp interp') (stmts : List Stmt) :
    r _ (evalBlock host interp stmts) (evalBlock host interp' stmts) := by
  induction stmts with
  | nil => exact congruence.void
  | cons stmt rest ih => exact congruence.block (congruence.stmt host related stmt) ih

theorem StmtCongruence.interpreter (fuel : Nat) :
    Interpreter.Related r (interpreter host fuel) (interpreter host fuel) := by
  induction fuel with
  | zero =>
    exact {
      expr := fun _ => congruence.starved
      block := fun _ => congruence.starved
      whileLoop := fun _ _ => congruence.starved
      rangeLoop := fun _ _ _ _ _ => congruence.starved }
  | succ fuel ih =>
    exact {
      expr := congruence.toCongruence.evalExpr host ih.expr ih.block ih.block
      block := congruence.stmts host ih
      whileLoop := congruence.whileLoop ih
      rangeLoop := congruence.range ih }

end Interpreted

section Callers

def Event.own : Event → Bool
  | .found (some (_ + 1)) => false
  | _ => true

/-- The frames `t` of a run of its own, with those of the callers below them. -/
def Over (callers : List Frame) (depth : Nat) (s t : List Frame) : Prop :=
  s = t ++ callers ∧ t.length = depth

def EndsOver (callers : List Frame) (depth : Nat) {α : Type} :
    Post Stop Stop (List Frame) (List Frame) α α :=
  Both (fun a s a' t => a' = a ∧ Over callers depth s t)
    fun e s e' t => e' = e ∧ s = t ++ callers

abbrev Moves (callers : List Frame) (before after : Nat) {α : Type} (m m' : Eval α) : Prop :=
  Simulates (fun event : Event => event.own = true) (fun _ => true) (Over callers before) m m'
    (EndsOver callers after)

variable {callers : List Frame} {before between after depth : Nat} {α β : Type}

theorem moves_seq {first first' : Eval α} {rest rest' : α → Eval β}
    (begins : Moves callers before between first first')
    (goes : ∀ a, Moves callers between after (rest a) (rest' a)) :
    Moves callers before after (first >>= rest) (first' >>= rest') := by
  apply simulates_seq begins
  · intro a a'
    apply simulates_of_related
    rintro s t ⟨rfl, -⟩
    exact (goes a').restrict fun _ _ related => related.2
  · exact fun _ _ _ _ halts => halts

theorem moves_modify {change}
    (kept : ∀ s t, Over callers before s t → Over callers after (change s) (change t)) :
    Moves callers before after (modify change) (modify change) :=
  simulates_modify fun s t placed => ⟨rfl, kept s t placed⟩

theorem moves_value (result : α) : Moves callers depth depth (pure result) (pure result) :=
  simulates_pure fun _ _ placed => ⟨rfl, placed⟩

theorem over_setTop (name : String) (v : ComptimeValue) (s t : List Frame)
    (placed : Over callers (depth + 1) s t) :
    Over callers (depth + 1) (setTop name v s) (setTop name v t) := by
  obtain ⟨rfl, size⟩ := placed
  cases t with
  | nil => cases size
  | cons top rest => exact ⟨rfl, size⟩

variable {name : String}

theorem holder_own {t : List Frame} (running : t ≠ [])
    (own : (Event.found (holder name (t ++ callers))).own = true) :
    holder name t = holder name (t ++ callers) ∧ lookup name t = lookup name (t ++ callers) := by
  cases t with
  | nil => exact absurd rfl running
  | cons top rest =>
    cases here : top name with
    | some v => simp [holder, lookup, findIdx?_cons, here]
    | none =>
      have nowhere : holder name ((top :: rest) ++ callers) = none := by
        cases found : holder name ((top :: rest) ++ callers) with
        | none => rfl
        | some above =>
          cases above with
          | zero => simp [holder, findIdx?_cons, here] at found
          | succ above =>
            rw [found] at own
            cases own
      have absent : ∀ frame ∈ (top :: rest) ++ callers, frame name = none := by
        simpa [holder] using nowhere
      have alone : holder name (top :: rest) = none := by
        simpa [holder] using fun frame found => absent frame (mem_append_left _ found)
      have unseen (frames : List Frame) (all : ∀ frame ∈ frames, frame name = none) :
          lookup name frames = none := by
        simpa [lookup] using all
      refine ⟨alone.trans nowhere.symm, ?_⟩
      rw [unseen _ absent, unseen _ fun frame found => absent frame (mem_append_left _ found)]

theorem search_apart {rest rest' : List Frame → Eval β}
    (goes : ∀ s t, (Event.found (holder name s)).own = true → holder name t = holder name s →
      lookup name t = lookup name s → Moves callers (depth + 1) (depth + 1) (rest s) (rest' t)) :
    Moves callers (depth + 1) (depth + 1)
      (get >>= fun frames => emit (.found (holder name frames)) >>= fun _ => rest frames)
      (get >>= fun frames => emit (.found (holder name frames)) >>= fun _ => rest' frames) := by
  apply simulates_get
  intro s t placed
  obtain ⟨rfl, size⟩ := placed
  have running : t ≠ [] := ne_nil_of_length_eq_add_one size
  by_cases own : (Event.found (holder name (t ++ callers))).own = true
  · have ⟨same_holder, same_value⟩ := holder_own running own
    rw [same_holder]
    apply simulates_emit rfl
    intro _
    apply (goes _ t own same_holder same_value).restrict
    rintro _ _ ⟨rfl, rfl⟩
    exact ⟨rfl, size⟩
  · exact fun _ _ _ told => absurd (told _ (mem_append_left _ (mem_singleton_self _))) own

theorem evalIdent_apart (name : String) :
    Moves callers (depth + 1) (depth + 1) (evalIdent name) (evalIdent name) := by
  apply search_apart
  intro s t _ _ same
  rw [same]
  exact moves_value _

theorem over_modify (change : Frame → Frame) (s t : List Frame)
    (placed : Over callers (depth + 1) s t) :
    Over callers (depth + 1) (s.modify 0 change) (t.modify 0 change) := by
  obtain ⟨rfl, size⟩ := placed
  cases t with
  | nil => cases size
  | cons top rest => exact ⟨rfl, size⟩

theorem holder_zero {frames : List Frame} {above : Nat} (found : holder name frames = some above)
    (own : (Event.found (holder name frames)).own = true) : above = 0 := by
  rw [found] at own
  cases above with
  | zero => rfl
  | succ above => cases own

theorem compound_apart {interp interp' : Interpreter}
    (exprs : ∀ e, Moves callers (depth + 1) (depth + 1) (interp.evalExpr e) (interp'.evalExpr e))
    (name : String) (op : AssignOp) (e : Expr) :
    Moves callers (depth + 1) (depth + 1) (evalCompoundAssign interp name op e)
      (evalCompoundAssign interp' name op e) := by
  apply search_apart
  intro s t own same _
  rw [same]
  cases found : holder name s with
  | none => exact moves_value ComptimeValue.void
  | some above =>
    obtain rfl : above = 0 := holder_zero found own
    apply moves_seq (exprs e)
    intro rhs
    apply moves_seq (moves_modify fun s t => over_modify _ s t)
    intro _
    exact moves_value ComptimeValue.void

theorem evaluate_apart {body body'}
    (bodies : ∀ b, Moves callers (depth + 1) (depth + 1) (body b) (body' b)) (func : FunctionDecl)
    (args : List ComptimeValue) :
    Moves callers depth depth (evaluate body func args) (evaluate body' func args) := by
  have pushes : Moves callers depth (depth + 1) (modify (paramFrame func.params args :: ·))
      (modify (paramFrame func.params args :: ·)) := by
    apply moves_modify
    rintro s t ⟨rfl, size⟩
    exact ⟨rfl, congrArg (· + 1) size⟩
  have pops : Moves callers (depth + 1) depth (modify List.tail) (modify List.tail) := by
    apply moves_modify
    rintro s t ⟨rfl, size⟩
    cases t with
    | nil => cases size
    | cons top rest => exact ⟨rfl, Nat.succ.inj size⟩
  apply moves_seq pushes
  intro _
  apply moves_seq (bodies func.block)
  intro result
  apply moves_seq pops
  intro _
  exact moves_value result

def Alone (callers : List Frame) (α : Type) (m m' : Eval α) : Prop :=
  ∀ depth, Moves callers (depth + 1) (depth + 1) m m'

theorem alone_congruence (callers : List Frame) : StmtCongruence (Alone callers) where
  value result _ := moves_value result
  seq begins goes depth := moves_seq (begins depth) fun result => goes result depth
  assigns name v _ := moves_modify fun s t => over_setTop name v s t
  reads name _ := evalIdent_apart name
  calls bodies func args depth := evaluate_apart (fun b => bodies b (depth + 1)) func args
  starved _ := simulates_stop fun _ _ placed => ⟨rfl, placed.1⟩
  begins stmt depth := by
    rw [← bind_pure_right (emit _)]
    exact simulates_emit rfl fun _ => moves_value ()
  compounds exprs name op e depth := compound_apart (fun e => exprs e depth) name op e

theorem call_over (host : Host) (fuel : Nat) (func : FunctionDecl) (args : List ComptimeValue)
    (callers : List Frame)
    (own : ∀ event ∈ (call host fuel func args callers).events, event.own = true) :
    EndsOver callers 0 (call host fuel func args callers).out (call host fuel func args callers).state
        (call host fuel func args []).out (call host fuel func args []).state ∧
      (call host fuel func args []).events = (call host fuel func args callers).events := by
  have related := (alone_congruence callers).interpreter host fuel
  have moves : Moves callers 0 0 (call host fuel func args) (call host fuel func args) :=
    evaluate_apart (fun b => related.block b 0) func args
  have ⟨ends, events⟩ := moves callers [] ⟨rfl, rfl⟩ own
  exact ⟨ends, events.trans (filter_eq_self.2 fun _ _ => rfl)⟩

end Callers

section Isolation

/-- The frames of the callers are as they were: below whatever frames a run that stopped left,
and alone behind one that ended. -/
structure Untouched (callers : List Frame) (ended : Ending Stop (List Frame) Event ComptimeValue) :
    Prop where
  below : callers <:+ ended.state
  alone : ∀ v, ended.out = .ok v → ended.state = callers

theorem endsOver_zero {out out' : Except Stop ComptimeValue} {s t callers : List Frame}
    (ends : EndsOver callers 0 out s out' t) :
    out' = out ∧ callers <:+ s ∧ ∀ v, out = .ok v → s = callers := by
  match out, out', ends with
  | .ok v, .ok v', ⟨same, placed, size⟩ =>
    have alone : s = callers := by
      rw [placed, length_eq_zero_iff.1 size, nil_append]
    exact ⟨congrArg _ same, alone ▸ suffix_refl s, fun _ _ => alone⟩
  | .error e, .error e', ⟨same, placed⟩ =>
    exact ⟨congrArg _ same, placed ▸ suffix_append t callers, fun _ ended => nomatch ended⟩

variable {host : Host} {fuel : Nat} {func : FunctionDecl} {args : List ComptimeValue}
  {callers : List Frame}

variable (own : ∀ event ∈ (call host fuel func args callers).events, event.own = true)
include own

theorem out_of_own :
    (call host fuel func args callers).out = (call host fuel func args []).out :=
  (endsOver_zero (call_over host fuel func args callers own).1).1.symm

theorem untouched_of_own :
    Untouched callers (call host fuel func args callers) := by
  have ⟨_, below, alone⟩ := endsOver_zero (call_over host fuel func args callers own).1
  exact ⟨below, alone⟩

omit own

/-- Two calls with the same arguments, from any two stacks of callers. -/
theorem calls_isolated (host : Host) (fuel : Nat) (func : FunctionDecl)
    (args : List ComptimeValue) (callers others : List Frame)
    (own : ∀ event ∈ (call host fuel func args callers).events, event.own = true)
    (own' : ∀ event ∈ (call host fuel func args others).events, event.own = true) :
    (call host fuel func args callers).out = (call host fuel func args others).out ∧
      (call host fuel func args callers).events = (call host fuel func args others).events ∧
      Untouched callers (call host fuel func args callers) ∧
      Untouched others (call host fuel func args others) := by
  have events := (call_over host fuel func args callers own).2
  have events' := (call_over host fuel func args others own').2
  exact ⟨(out_of_own own).trans (out_of_own own').symm, events.symm.trans events',
    untouched_of_own own, untouched_of_own own'⟩

def silentHost : Host := bareHost fun _ => none

/-- `int32 x = n; x += 1; return x;` -/
def initialised : FunctionDecl where
  params := [some "n"]
  block := [.varDecl [("x", some (.ident "n"))], .compoundAssign "x" .plus (.intLit 1),
    .returnStmt (some (.ident "x"))]

/-- `int32 x; x += 1; return x;` -/
def uninitialised : FunctionDecl where
  params := []
  block := [.varDecl [("x", none)], .compoundAssign "x" .plus (.intLit 1),
    .returnStmt (some (.ident "x"))]

def callerX : Frame := fun name => if name = "x" then some (.int 5) else none

theorem initialised_isolated :
    (call silentHost 9 initialised [.int 1] [callerX]).out =
        (call silentHost 9 initialised [.int 1] []).out ∧
      (call silentHost 9 initialised [.int 1] [callerX]).events =
        (call silentHost 9 initialised [.int 1] []).events ∧
      Untouched [callerX] (call silentHost 9 initialised [.int 1] [callerX]) ∧
      Untouched [] (call silentHost 9 initialised [.int 1] []) :=
  calls_isolated silentHost 9 initialised [.int 1] [callerX] [] (by decide) (by decide)

/-- Without an initialiser the variable has no entry, and the caller's is changed and read. -/
theorem caller_local_changed :
    (call silentHost 9 uninitialised [] [callerX]).out = .ok (.int 6) ∧
      (call silentHost 9 uninitialised [] []).out = .ok .void ∧
      (call silentHost 9 uninitialised [] [callerX]).state.map (· "x") = [some (.int 6)] :=
  ⟨rfl, rfl, rfl⟩

end Isolation

end Lucis.Comptime
