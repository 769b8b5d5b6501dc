import Lucis.Library.Flow

/-!
How IRBuilder/IRGen lowers `try`, `throw` and `lock` among calls, jumps and loops, over
the handler stack of builtins/error. A statement, and an expression, is what it does to
control: calls come before the jump that is made behind them, as the cleanups of
`emitAllCleanups` do, and a condition is a free choice. What decides between the clauses of a
`try` is left to choice too, except that an error which no clause has matched is not matched
later. `tries` and `locks` say which constructs control is in, and hold what the emitted
code has in its registers. A `lock` block that ends in a jump of its own is emitted with the unlock
behind that jump, which is no module; here it is a path that never comes to the unlock.
-/

namespace Lucis.ErrorFlow

open Flow

section Statements

/-- `call` may be of any function; `returnStmt` stands for `ret`, `bail` and the error path of `?`.
`switch`, `match`, the logical operators and `catch` behind an expression are nested choices. A `try`
without a clause has no terminator in its dispatch, and is no module; an expression of an unknown type
has no frame, and is a block with its fallback. -/
inductive Stmt where
  | call
  | throwStmt
  | returnStmt
  | breakStmt
  | continueStmt
  | blockStmt (block : List Stmt)
  | ifStmt (thenBody elseBody : List Stmt)
  | loopStmt (test : Test) (condition block update : List Stmt)
  | listCompExpr (element : List Stmt)
  | lockStmt (block : List Stmt)
  | tryCatchStmt (block clause : List Stmt) (clauses : List (List Stmt)) (finallyClause : Bool)
      (finallyBlock : List Stmt)
  | tryExpr (isUnwrapEnum : Bool) (expr fallback : List Stmt)

/-- A function or a lambda. `loopStack_` is not saved around the body of a lambda. -/
structure Function where
  inLoop : Bool
  block : List Stmt

end Statements

section Runtime

/-- `joined` is a branch to the block where the arms of a construct meet. -/
inductive Way where
  | brk
  | cont
  | returned
  | thrown
  | joined
  | exited
  | cut
  deriving DecidableEq

/-- The ways in which control leaves a construct, and those of them that do not go to a frame. -/
def Way.leaving : List Way := [.brk, .cont, .returned, .thrown]

def Way.jumps : List Way := [.brk, .cont, .returned]

abbrev Frame := Nat

abbrev Mutex := Nat

/-- What was done with a frame; `finished` is the beginning of a `finally` block. -/
inductive Op where
  | pushed (frame : Frame)
  | popped (frame : Frame)
  | freed (frame : Frame)
  | finished (frame : Frame)
  deriving DecidableEq

def Op.frame : Op → Frame
  | pushed frame => frame
  | popped frame => frame
  | freed frame => frame
  | finished frame => frame

/-- A `try` that control is in: `framePtr`, and the handler stack before the frame was pushed. -/
structure Try where
  frame : Frame
  entry : List Frame
  finallyClause : Bool

/-- A `lock` that control is in: `mtxVal`, and what was held before. -/
structure Lock where
  mutex : Mutex
  entry : List Mutex

/-- `stack` is the list from `eh_stack` on, and `landing` the frame of the last `longjmp`. -/
structure State where
  stack : List Frame
  next : Frame
  landing : Frame
  log : List Op
  tries : List Try
  held : List Mutex
  locks : List Lock

def State.start : State := ⟨[], 0, 0, [], [], [], []⟩

inductive Act where
  | call
  | throw
  | enterTry (finallyClause : Bool)
  | push
  | land
  | pop
  | finish
  | free
  | leaveTry
  | tryLeft
  | lock
  | unlock
  | leaveLock
  | lockLeft
  deriving DecidableEq

def Act.onMutex : Act → Bool
  | lock => true
  | unlock => true
  | leaveLock => true
  | lockLeft => true
  | _ => false

inductive Event where
  | tryLeft
  | lockLeft
  | stray
  | unbalanced
  | unheld
  | unreleased
  deriving DecidableEq

def State.ops (s : State) (frame : Frame) : List Op := s.log.filter fun op => op.frame = frame

/-- The handler stack is that of the entry, the frame was pushed, popped and freed once, and the
`finally` block was run once. -/
structure State.Balanced (s : State) (left : Try) : Prop where
  stack : s.stack = left.entry
  pushed : s.log.count (.pushed left.frame) = 1
  popped : s.log.count (.popped left.frame) = 1
  freed : s.log.count (.freed left.frame) = 1
  finished : left.finallyClause = true → s.log.count (.finished left.frame) = 1

/-- `lucis_eh_push` and the others, and what is looked at where control leaves a construct. A jump
to a frame that is not the one of the dispatch that it is said to come to is not followed. -/
inductive base : Step Act Way State Event
  | cut {action s} : base action s [] (some .cut) s
  | call {s} : base .call s [] none s
  | throw {s frame rest} (top : s.stack = frame :: rest) :
      base .throw s [] (some .thrown) { s with landing := frame }
  | throw_unhandled {s} (empty : s.stack = []) : base .throw s [] (some .exited) s
  | enterTry {finallyClause s} : base (.enterTry finallyClause) s [] none
      { s with next := s.next + 1, tries := ⟨s.next, s.stack, finallyClause⟩ :: s.tries }
  | push {s inside rest} (here : s.tries = inside :: rest) : base .push s [] none
      { s with stack := inside.frame :: s.stack, log := .pushed inside.frame :: s.log }
  | land {s inside rest} (here : s.tries = inside :: rest) (same : s.landing = inside.frame) :
      base .land s [] none s
  | land_stray {s inside rest} (here : s.tries = inside :: rest) (other : s.landing ≠ inside.frame) :
      base .land s [.stray] (some .cut) s
  | pop {s frame rest} (top : s.stack = frame :: rest) :
      base .pop s [] none { s with stack := rest, log := .popped frame :: s.log }
  | pop_nothing {s} (empty : s.stack = []) : base .pop s [] none s
  | finish {s inside rest} (here : s.tries = inside :: rest) :
      base .finish s [] none { s with log := .finished inside.frame :: s.log }
  | free {s inside rest} (here : s.tries = inside :: rest) :
      base .free s [] none { s with log := .freed inside.frame :: s.log }
  | leaveTry {s inside rest} (here : s.tries = inside :: rest) (balanced : s.Balanced inside) :
      base .leaveTry s [] none { s with tries := rest }
  | leaveTry_unbalanced {s inside rest} (here : s.tries = inside :: rest)
      (unbalanced : ¬s.Balanced inside) :
      base .leaveTry s [.unbalanced] none { s with tries := rest }
  | tryLeft {s} : base .tryLeft s [.tryLeft] none s
  | lock {s mutex} : base .lock s [] none
      { s with held := mutex :: s.held, locks := ⟨mutex, s.held⟩ :: s.locks }
  | unlock {s inside rest} (here : s.locks = inside :: rest) (holds : inside.mutex ∈ s.held) :
      base .unlock s [] none { s with held := s.held.erase inside.mutex }
  | unlock_unheld {s inside rest} (here : s.locks = inside :: rest)
      (unheld : inside.mutex ∉ s.held) : base .unlock s [.unheld] none s
  | leaveLock {s inside rest} (here : s.locks = inside :: rest) (released : s.held = inside.entry) :
      base .leaveLock s [] none { s with locks := rest }
  | leaveLock_unreleased {s inside rest} (here : s.locks = inside :: rest)
      (unreleased : s.held ≠ inside.entry) :
      base .leaveLock s [.unreleased] none { s with locks := rest }
  | lockLeft {s} : base .lockLeft s [.lockLeft] none s

abbrev Emitted := Code Act Way

/-- How a call ends where the function is left so; what branches out of it is no module. -/
def called : Option Way → Option (Option Way)
  | none => some none
  | some .returned => some none
  | some .thrown => some (some .thrown)
  | some .exited => some (some .exited)
  | some .cut => some (some .cut)
  | _ => none

def step (program : List Emitted) : Nat → Step Act Way State Event
  | 0 => base
  | depth + 1 => fun action s events out s' => base action s events out s' ∨
      action = .call ∧ ∃ code ∈ program, ∃ ended,
        Exec (step program depth) code s events ended s' ∧ called ended = some out

end Runtime

section Generator

def inTry (finallyClause : Bool) (body : Emitted) : Emitted :=
  .seq (.act (.enterTry finallyClause)) (body.around (.act .leaveTry) Way.leaving)

def markTry (body : Emitted) (ways : List Way) : Emitted := body.onLeaving (.act .tryLeft) ways

def popFree : Emitted := .seq (.act .pop) (.act .free)

/-- Where no clause matches: the frame is pushed again, and so it is the one that is jumped to. Its
clauses do not match the error at the next time either. -/
def rethrow : Emitted :=
  .loop (.handle .thrown (.seq (.act .push) (.act .throw)) (.seq (.act .land) (.act .pop)))

/-- `emitCatchCheck` for each clause. -/
def emitCatchChecks : List Emitted → Emitted
  | [] => rethrow
  | body :: rest => .either (.seq (markTry body Way.leaving) (.leave .joined)) (emitCatchChecks rest)

/-- `visitTryCatchStmt`: what is thrown in the block comes to the dispatch. -/
def tryCatchCode (block : Emitted) (clauses : List Emitted) (finallyClause : Bool)
    (finallyBlock : Emitted) : Emitted :=
  let dispatch : Emitted := .seq (.act .land) (.seq (.act .pop) (emitCatchChecks clauses))
  let tried : Emitted := .handle .thrown (markTry block Way.jumps) dispatch
  let joined : Emitted := .handle .joined (.seq tried (.act .pop)) .skip
  let finished : Emitted :=
    if finallyClause then .seq (.act .finish) (markTry finallyBlock Way.leaving) else .skip
  inTry finallyClause (.seq (.act .push) (.seq joined (.seq finished (.act .free))))

/-- `visitTryExpr`: an error variant takes the fallback too, behind the frame. -/
def tryExprCode (isUnwrapEnum : Bool) (expr fallback : Emitted) : Emitted :=
  let caught : Emitted := .seq (.act .land) (.seq popFree (.seq fallback (.leave .joined)))
  let normal : Emitted := if isUnwrapEnum then .either popFree (.seq popFree fallback) else popFree
  inTry false (.seq (.act .push)
    (.handle .joined (.seq (.handle .thrown (markTry expr Way.jumps) caught) normal) .skip))

/-- `visitLockStmt`: `lucis_mutexUnlock` is emitted behind the last statement of the block. -/
def lockCode (block : Emitted) : Emitted :=
  let body : Emitted := .seq (block.onLeaving (.act .lockLeft) Way.leaving) (.act .unlock)
  .seq (.act .lock) (body.around (.act .leaveLock) Way.leaving)

/-- A piece that a `continue` in it comes to the beginning of. -/
def retried (body : Emitted) : Emitted :=
  .handle .joined (.loop (.handle .cont (.seq body (.leave .joined)) .skip)) .skip

/-- A loop with its condition, which is asked before or behind the block, and the update of a `for`. -/
def loopCode (test : Test) (condition block update : Emitted) : Emitted :=
  let body : Emitted := match test with
    | .before => .seq (.handle .cont (.seq condition (.either (.leave .brk) block)) .skip)
        (retried update)
    | .behind => .seq (.handle .cont block .skip)
        (.seq (retried condition) (.either .skip (.leave .brk)))
    | .never => block
  body.looping .brk .cont .never

/-- A loop that is not on `loopStack_`. -/
def listCompCode (element : Emitted) : Emitted :=
  .handle .joined (.loop (.either (.leave .joined) element)) .skip

mutual

def visitStmt (inLoop : Bool) : Stmt → Emitted
  | .call => .act .call
  | .throwStmt => .act .throw
  | .returnStmt => .leave .returned
  | .breakStmt => if inLoop then .leave .brk else .skip
  | .continueStmt => if inLoop then .leave .cont else .skip
  | .blockStmt block => visitStmts inLoop block
  | .ifStmt thenBody elseBody => .either (visitStmts inLoop thenBody) (visitStmts inLoop elseBody)
  | .loopStmt test condition block update =>
    loopCode test (visitStmts true condition) (visitStmts true block) (visitStmts true update)
  | .listCompExpr element => listCompCode (visitStmts inLoop element)
  | .lockStmt block => lockCode (visitStmts inLoop block)
  | .tryCatchStmt block clause clauses finallyClause finallyBlock =>
    tryCatchCode (visitStmts inLoop block)
      (visitStmts inLoop clause :: visitClauses inLoop clauses) finallyClause
      (visitStmts inLoop finallyBlock)
  | .tryExpr isUnwrapEnum expr fallback =>
    tryExprCode isUnwrapEnum (visitStmts inLoop expr) (visitStmts inLoop fallback)

def visitStmts (inLoop : Bool) : List Stmt → Emitted
  | [] => .skip
  | stmt :: rest => .seq (visitStmt inLoop stmt) (visitStmts inLoop rest)

def visitClauses (inLoop : Bool) : List (List Stmt) → List Emitted
  | [] => []
  | block :: rest => visitStmts inLoop block :: visitClauses inLoop rest

end

def visitFunction (function : Function) : Emitted := visitStmts function.inLoop function.block

def emitted (program : List Function) : List Emitted := program.map visitFunction

end Generator

section Keeping

variable {program : Step Act Way State Event} {assumed guaranteed : Event → Prop}
  {inv : State → State → Prop} {left : State → Way → State → Prop}

def Ends (inv : State → State → Prop) (left : State → Way → State → Prop) (begins : State)
    (out : Option Way) (s : State) : Prop :=
  out.elim (inv begins s) fun way => left begins way s

def Keeps (program : Step Act Way State Event) (assumed guaranteed : Event → Prop)
    (inv : State → State → Prop) (left : State → Way → State → Prop) (code : Emitted) : Prop :=
  ∀ begins, Triple program assumed guaranteed (inv begins) code (Ends inv left begins)

structure Jumping (inv : State → State → Prop) (left : State → Way → State → Prop) : Prop where
  jumps : ∀ way ∈ Way.jumps, ∀ begins s, left begins way s ↔ inv begins s
  joined : ∀ begins s, left begins .joined s → inv begins s

def Joins (inv : State → State → Prop) (left : State → Way → State → Prop) (begins : State)
    (out : Option Way) (s : State) : Prop :=
  (out = some .joined → inv begins s) ∧ (out ≠ some .joined → Ends inv left begins out s)

theorem Ends.joins (jumping : Jumping inv left) {begins s : State} {out : Option Way}
    (ends : Ends inv left begins out s) : Joins inv left begins out s := by
  refine ⟨fun same => ?_, fun _ => ends⟩
  subst same
  exact jumping.joined begins s ends

theorem keeps_skip : Keeps program assumed guaranteed inv left .skip :=
  fun _ => triple_skip.weaken (fun _ holds => holds) fun _ _ ends => ends

variable {way : Way}

theorem keeps_leave (jumping : Jumping inv left) (jump : way ∈ Way.jumps) :
    Keeps program assumed guaranteed inv left (.leave way) :=
  fun begins => (triple_leave way).weaken (fun s holds => (jumping.jumps way jump begins s).2 holds)
    fun _ _ ends => ends

theorem keeps_seq {first rest : Emitted} (begins : Keeps program assumed guaranteed inv left first)
    (goes : Keeps program assumed guaranteed inv left rest) :
    Keeps program assumed guaranteed inv left (.seq first rest) :=
  fun s => triple_seq (begins s) (goes s) fun _ _ ends => ends

theorem keeps_either {first second : Emitted} (one : Keeps program assumed guaranteed inv left first)
    (two : Keeps program assumed guaranteed inv left second) :
    Keeps program assumed guaranteed inv left (.either first second) :=
  fun s => triple_either (one s) (two s)

variable {body : Emitted}

theorem keeps_handle (jumping : Jumping inv left) (jump : way ∈ Way.jumps)
    (keeps : Keeps program assumed guaranteed inv left body) :
    Keeps program assumed guaranteed inv left (.handle way body .skip) := by
  intro begins
  apply triple_handle (keeps begins)
  · exact triple_skip.weaken (fun s ends => (jumping.jumps way jump begins s).1 ends)
      fun _ _ ends => ends
  · exact fun _ _ _ ends => ends

theorem keeps_joined
    (joins : ∀ begins, Triple program assumed guaranteed (inv begins) body (Joins inv left begins)) :
    Keeps program assumed guaranteed inv left (.handle .joined body .skip) := by
  intro begins
  apply triple_handle (joins begins)
  · exact triple_skip.weaken (fun s ends => ends.1 rfl) fun _ _ ends => ends
  · exact fun out s other ends => ends.2 other

theorem leaves_joined (begins : State) :
    Triple program assumed guaranteed (inv begins) (.leave .joined) (Joins inv left begins) :=
  (triple_leave Way.joined).weaken
    (fun _ holds => ⟨fun _ => holds, fun other => absurd rfl other⟩) fun _ _ ends => ends

-- A turn that comes to its end is followed by another one.
theorem joins_loop {begins : State}
    (joins : Triple program assumed guaranteed (inv begins) body (Joins inv left begins)) :
    Triple program assumed guaranteed (inv begins) (.loop body) (Joins inv left begins) := by
  apply triple_loop
  apply joins.weaken (fun _ holds => holds)
  intro out s ends
  cases out with
  | none => exact ends.2 nofun
  | some way => exact ends

theorem keeps_retried (jumping : Jumping inv left)
    (keeps : Keeps program assumed guaranteed inv left body) :
    Keeps program assumed guaranteed inv left (retried body) := by
  apply keeps_joined
  intro begins
  apply joins_loop
  have turn : Triple program assumed guaranteed (inv begins) (.seq body (.leave .joined))
      (Joins inv left begins) :=
    triple_seq (keeps begins) (leaves_joined begins) fun _ _ ends => Ends.joins jumping ends
  apply triple_handle turn
  · apply triple_skip.weaken _ fun _ _ ends => ends
    intro s ends
    have again := (jumping.jumps .cont (by decide) begins s).1 (ends.2 (by decide))
    exact ⟨fun _ => again, fun _ => again⟩
  · exact fun _ _ _ ends => ends

theorem keeps_listComp (jumping : Jumping inv left) {element : Emitted}
    (keeps : Keeps program assumed guaranteed inv left element) :
    Keeps program assumed guaranteed inv left (listCompCode element) := by
  apply keeps_joined
  intro begins
  apply joins_loop
  exact triple_either (leaves_joined begins)
    ((keeps begins).weaken (fun _ holds => holds) fun _ _ ends => Ends.joins jumping ends)

theorem keeps_loop (jumping : Jumping inv left) (test : Test) {condition block update : Emitted}
    (asks : Keeps program assumed guaranteed inv left condition)
    (runs : Keeps program assumed guaranteed inv left block)
    (goes : Keeps program assumed guaranteed inv left update) :
    Keeps program assumed guaranteed inv left (loopCode test condition block update) := by
  have stops : Keeps program assumed guaranteed inv left (.leave .brk) :=
    keeps_leave jumping (by decide)
  have looped : ∀ body, Keeps program assumed guaranteed inv left body →
      Keeps program assumed guaranteed inv left (body.looping .brk .cont .never) := by
    intro body keeps begins
    have breaks := jumping.jumps .brk (by decide) begins
    apply triple_looping .never (by decide) (keeps begins)
    · exact fun _ again => again
    · exact fun s => (jumping.jumps .cont (by decide) begins s).mp
    · exact fun s => (breaks s).mpr
    · exact fun s => (breaks s).mp
    · exact fun _ _ _ _ ends => ends
  cases test with
  | before =>
    have turn := keeps_seq asks (keeps_either stops runs)
    exact looped _ (keeps_seq (keeps_handle jumping (by decide) turn) (keeps_retried jumping goes))
  | behind =>
    have asked := keeps_seq (keeps_retried jumping asks) (keeps_either keeps_skip stops)
    exact looped _ (keeps_seq (keeps_handle jumping (by decide) runs) asked)
  | never => exact looped _ runs

structure Constructs (program : Step Act Way State Event) (assumed guaranteed : Event → Prop)
    (inv : State → State → Prop) (left : State → Way → State → Prop) : Prop where
  jumping : Jumping inv left
  call : Keeps program assumed guaranteed inv left (.act .call)
  throws : Keeps program assumed guaranteed inv left (.act .throw)
  lock : ∀ block, Keeps program assumed guaranteed inv left block →
    Keeps program assumed guaranteed inv left (lockCode block)
  tryCatch : ∀ block clauses finallyClause finallyBlock,
    Keeps program assumed guaranteed inv left block →
    (∀ clause ∈ clauses, Keeps program assumed guaranteed inv left clause) →
    Keeps program assumed guaranteed inv left finallyBlock →
    Keeps program assumed guaranteed inv left (tryCatchCode block clauses finallyClause finallyBlock)
  tryExpr : ∀ isUnwrapEnum expr fallback, Keeps program assumed guaranteed inv left expr →
    Keeps program assumed guaranteed inv left fallback →
    Keeps program assumed guaranteed inv left (tryExprCode isUnwrapEnum expr fallback)

mutual

theorem stmt_keeps (constructs : Constructs program assumed guaranteed inv left) (inLoop : Bool)
    (stmt : Stmt) : Keeps program assumed guaranteed inv left (visitStmt inLoop stmt) := by
  cases stmt with
  | call => exact constructs.call
  | throwStmt => exact constructs.throws
  | returnStmt => exact keeps_leave constructs.jumping (by decide)
  | breakStmt =>
    rw [visitStmt]
    split
    · exact keeps_leave constructs.jumping (by decide)
    · exact keeps_skip
  | continueStmt =>
    rw [visitStmt]
    split
    · exact keeps_leave constructs.jumping (by decide)
    · exact keeps_skip
  | blockStmt block => exact stmts_keep constructs inLoop block
  | ifStmt thenBody elseBody =>
    exact keeps_either (stmts_keep constructs inLoop thenBody) (stmts_keep constructs inLoop elseBody)
  | loopStmt test condition block update =>
    exact keeps_loop constructs.jumping test (stmts_keep constructs true condition)
      (stmts_keep constructs true block) (stmts_keep constructs true update)
  | listCompExpr element =>
    exact keeps_listComp constructs.jumping (stmts_keep constructs inLoop element)
  | lockStmt block => exact constructs.lock _ (stmts_keep constructs inLoop block)
  | tryCatchStmt block clause clauses finallyClause finallyBlock =>
    apply constructs.tryCatch
    · exact stmts_keep constructs inLoop block
    · exact List.forall_mem_cons.mpr
        ⟨stmts_keep constructs inLoop clause, clauses_keep constructs inLoop clauses⟩
    · exact stmts_keep constructs inLoop finallyBlock
  | tryExpr isUnwrapEnum expr fallback =>
    exact constructs.tryExpr _ _ _ (stmts_keep constructs inLoop expr)
      (stmts_keep constructs inLoop fallback)

theorem stmts_keep (constructs : Constructs program assumed guaranteed inv left) (inLoop : Bool)
    (block : List Stmt) : Keeps program assumed guaranteed inv left (visitStmts inLoop block) := by
  cases block with
  | nil => exact keeps_skip
  | cons stmt rest => exact keeps_seq (stmt_keeps constructs inLoop stmt) (stmts_keep constructs inLoop rest)

theorem clauses_keep (constructs : Constructs program assumed guaranteed inv left) (inLoop : Bool)
    (clauses : List (List Stmt)) : ∀ clause ∈ visitClauses inLoop clauses,
      Keeps program assumed guaranteed inv left clause := by
  cases clauses with
  | nil => exact fun clause member => absurd member List.not_mem_nil
  | cons block rest =>
    exact List.forall_mem_cons.mpr
      ⟨stmts_keep constructs inLoop block, clauses_keep constructs inLoop rest⟩

end

end Keeping

section Calls

variable {program : List Emitted} {depth : Nat} {assumed guaranteed : Event → Prop}
  {inv : State → State → Prop} {left : State → Way → State → Prop}

variable {out : Option Way} {events : List Event}

theorem step_base {action : Act} {s s' : State}
    (other : action ≠ .call) (stepped : step program depth action s events out s') :
    base action s events out s' := by
  cases depth with
  | zero => exact stepped
  | succ depth =>
    rcases stepped with stepped | ⟨same, _⟩
    · exact stepped
    · exact absurd same other

theorem base_call {s s' : State} (stepped : base .call s events out s') :
    events = [] ∧ s' = s ∧ (out = none ∨ out = some .cut) := by
  cases stepped with
  | cut => exact ⟨rfl, rfl, .inr rfl⟩
  | call => exact ⟨rfl, rfl, .inl rfl⟩

variable (jumping : Jumping inv left)
include jumping

theorem ends_called {begins s : State} {ended : Option Way}
    (ends : Ends inv left begins ended s) (comes : called ended = some out) :
    Ends inv left begins out s := by
  cases ended with
  | none =>
    cases comes
    exact ends
  | some way =>
    cases way with
    | returned =>
      cases comes
      exact (jumping.jumps .returned (by decide) begins s).1 ends
    | brk => cases comes
    | cont => cases comes
    | joined => cases comes
    | _ =>
      cases comes
      exact ends

theorem keeps_call
    (cut : ∀ begins s, inv begins s → left begins .cut s)
    (bodies : ∀ shallower < depth, ∀ code ∈ program,
      Keeps (step program shallower) assumed guaranteed inv left code) :
    Keeps (step program depth) assumed guaranteed inv left (.act .call) := by
  intro begins
  apply triple_act
  intro s events out s' holds stepped meets
  have known : base .call s events out s' → (∀ e ∈ events, guaranteed e) ∧
      Ends inv left begins out s' := by
    intro stepped
    obtain ⟨rfl, rfl, rfl | rfl⟩ := base_call stepped
    · exact ⟨nofun, holds⟩
    · exact ⟨nofun, cut begins s' holds⟩
  cases depth with
  | zero => exact known stepped
  | succ depth =>
    rcases stepped with stepped | ⟨_, code, member, ended, run, comes⟩
    · exact known stepped
    · obtain ⟨kept, ends⟩ := bodies depth (Nat.lt_succ_self depth) code member begins s events
        ended s' holds run meets
      exact ⟨kept, ends_called jumping ends comes⟩

theorem function_keeps {functions}
    (cut : ∀ begins s, inv begins s → left begins .cut s)
    (constructs : ∀ depth, Keeps (step (emitted functions) depth) assumed guaranteed inv left
      (.act .call) → Constructs (step (emitted functions) depth) assumed guaranteed inv left)
    (depth : Nat) (function : Function) :
    Keeps (step (emitted functions) depth) assumed guaranteed inv left (visitFunction function) := by
  induction depth using Nat.strongRecOn generalizing function with
  | ind depth ih =>
    have calls : Keeps (step (emitted functions) depth) assumed guaranteed inv left
        (.act .call) := by
      apply keeps_call jumping cut
      intro shallower less code member
      obtain ⟨callee, _, rfl⟩ := List.mem_map.1 member
      exact ih shallower less callee
    exact stmts_keep (constructs depth calls) function.inLoop function.block

end Calls

end Lucis.ErrorFlow
