import Mathlib.Data.List.Basic
import Lucis.Library.Flow

/-!
How IRBuilder/IRGen lowers `defer`, `#scope` and the ways out of a body. The deferred
calls are held on `deferStack_`, which is walked once, in source order, while code is
emitted; the emitted code is run along many paths. Marks in the code say where a
defer is executed and where a scope begins and ends: nothing is emitted for them.
A `throw` leaves the function: a `try` is not among the statements, nor are block
lambdas in the arguments of a deferred call.
-/

namespace Lucis.DeferLowering

open Flow List Option

section Statements

/-- A `plain` statement has no statements in it and is not left. One that `mayThrow` is left where
its integer division finds a zero (`emitDivByZeroGuard` calls `lucis_eh_throw`) or a function it
calls throws; in a head it stands before the statement. A deferred call says if its arguments may
throw. The bodies of an `if` are those of its `else if` clauses too, and where it has an `else` the
last is that of the `else`. -/
inductive Stmt (Call : Type) where
  | plain
  | mayThrow
  | deferStmt (call : Call) (throws : Bool)
  | returnStmt
  | throwStmt
  | breakStmt
  | continueStmt
  | nakedBlockStmt (block : List (Stmt Call))
  | ifStmt (hasElse : Bool) (bodies : List (List (Stmt Call)))
  | scopeBlockStmt (callbacks : List (Call × Bool)) (block : List (Stmt Call))
  | loop (test : Test) (block : List (Stmt Call))
  | lambdaBlockExpr (block : List (Stmt Call))

/-- A `for` too: it updates where `continue` goes on. -/
abbrev Stmt.whileStmt {Call : Type} (block : List (Stmt Call)) : Stmt Call := .loop .before block

abbrev Stmt.doWhileStmt {Call : Type} (block : List (Stmt Call)) : Stmt Call := .loop .behind block

abbrev Stmt.loopStmt {Call : Type} (block : List (Stmt Call)) : Stmt Call := .loop .never block

/-- `DeferredStmt`, by which of its contexts is set; `resize` makes one where none is. -/
inductive DeferredStmt (Call : Type) where
  | call (call : Call) (throws : Bool)
  | scopeCb (call : Call) (throws : Bool)
  | unset

variable {Call : Type}

/-- What `emitOneDeferred` emits a call of. -/
def DeferredStmt.emits : DeferredStmt Call → Option Call
  | call c _ => some c
  | scopeCb c _ => some c
  | unset => none

def DeferredStmt.throws : DeferredStmt Call → Bool
  | call _ throws => throws
  | scopeCb _ throws => throws
  | unset => false

def DeferredStmt.isScopeCb : DeferredStmt Call → Bool
  | scopeCb _ _ => true
  | _ => false

end Statements

section Code

inductive Way where
  | brk
  | cont
  | returned
  | thrown
  | cut
  deriving DecidableEq

/-- The ways in which control leaves a body; a path that is `cut` is one looked at so far only. -/
def Way.leaving : List Way := [.brk, .cont, .returned, .thrown]

inductive Act (Call : Type) where
  | enter
  | exit
  | register (call : Call)
  | run (call : Call)

variable {Call : Type}

/-- The defers that were executed and have not run, the last one first, each with the number of
scopes that were open where it was executed; and the number of those that are open. -/
structure State (Call : Type) where
  pending : List (Call × Nat)
  depth : Nat

inductive Fault (Call : Type) where
  | outOfTurn (call : Call)
  | dropped

/-- A call is run in its turn if it is the one executed last of those that have not run, and a scope
is left in order if all of those executed in it have. -/
inductive step : Step (Act Call) Way (State Call) (Fault Call)
  | cut {action s} : step action s [] (some .cut) s
  | enter {s} : step .enter s [] none ⟨s.pending, s.depth + 1⟩
  | exit {s} (done : ∀ held ∈ s.pending, held.2 < s.depth) :
      step .exit s [] none ⟨s.pending, s.depth - 1⟩
  | exit_dropping {s} (left : ∃ held ∈ s.pending, s.depth ≤ held.2) :
      step .exit s [.dropped] none ⟨s.pending, s.depth - 1⟩
  | register {call s} : step (.register call) s [] none ⟨(call, s.depth) :: s.pending, s.depth⟩
  | run {call at_depth rest depth} :
      step (.run call) ⟨(call, at_depth) :: rest, depth⟩ [] none ⟨rest, depth⟩
  | run_wrong {call s} (other : ∀ at_depth rest, s.pending ≠ (call, at_depth) :: rest) :
      step (.run call) s [.outOfTurn call] none s

abbrev Emitted (Call : Type) := Code (Act Call) Way

/-- The body of a scope: a function, a naked block, a `#scope` or a body of an `if`. -/
def inScope (body : Emitted Call) : Emitted Call :=
  .seq (.act .enter) (body.around (.act .exit) Way.leaving)

/-- One of the bodies is run, or none where there is no `else`. -/
def ifCode (hasElse : Bool) : List (Emitted Call) → Emitted Call
  | [] => .skip
  | [last] => if hasElse then last else .either last .skip
  | body :: rest => .either body (ifCode hasElse rest)

end Code

section Generator

variable {Call : Type}

/-- `deferStack_`, its back at the head, and whether the block that is written to has its
terminator: `getTerminator` looks at the last instruction only. -/
structure Gen (Call : Type) where
  deferStack : List (DeferredStmt Call)
  terminated : Bool

/-- `deferStack_.resize`: what is missing is filled up at the back. -/
def resize (size : Nat) (stack : List (DeferredStmt Call)) : List (DeferredStmt Call) :=
  List.replicate (size - stack.length) .unset ++ stack.drop (stack.length - size)

def above (base : Nat) (stack : List (DeferredStmt Call)) : List (DeferredStmt Call) :=
  stack.take (stack.length - base)

/-- What may throw emits no cleanups for the case that it does. -/
def raising (throws : Bool) : Emitted Call :=
  if throws then .either (.leave .thrown) .skip else .skip

def emitOneDeferred (deferred : DeferredStmt Call) : Emitted Call :=
  match deferred.emits with
  | some call => .seq (raising deferred.throws) (.act (.run call))
  | none => .skip

/-- `emitDeferredCleanups`, over the entries that are to be emitted. -/
def emitDeferreds : List (DeferredStmt Call) → Emitted Call
  | [] => .skip
  | deferred :: rest => .seq (emitOneDeferred deferred) (emitDeferreds rest)

/-- The same with `emitScopeCallback` on `scopeCbCtx`, which it reads without a test: on an entry
that has none the compiler crashes. -/
def emitScopeCallbacks : List (DeferredStmt Call) → Option (Emitted Call)
  | [] => some .skip
  | .scopeCb call throws :: rest => do
      let later ← emitScopeCallbacks rest
      some (.seq (.seq (raising throws) (.act (.run call))) later)
  | _ :: _ => none

def registerAll : List Call → Emitted Call
  | [] => .skip
  | call :: rest => .seq (.act (.register call)) (registerAll rest)

/-- What a visit emits, the state it leaves and the functions it adds to the module. -/
structure Visit (Call : Type) where
  code : Emitted Call
  gen : Gen Call
  lambdas : List (Emitted Call)

/-- What the bodies of an `if` come to. -/
structure Bodies (Call : Type) where
  codes : List (Emitted Call)
  gen : Gen Call
  lambdas : List (Emitted Call)

/-- A loop, and a body of an `if`, is begun in a new basic block. -/
def Gen.newBlock (gen : Gen Call) : Gen Call := { gen with terminated := false }

/-- The end of a naked block and of a body of an `if`: what it pushed is emitted, unless the block
is terminated, and taken from the stack. -/
def closeBlock (base : Nat) (body : Visit Call) : Visit Call :=
  let cleanups := if body.gen.terminated then .skip else emitDeferreds (above base body.gen.deferStack)
  ⟨inScope (.seq body.code cleanups), ⟨resize base body.gen.deferStack, body.gen.terminated⟩,
    body.lambdas⟩

def scopeCleanups (base : Nat) (gen : Gen Call) : Option (Emitted Call) :=
  if gen.terminated then some .skip else emitScopeCallbacks (above base gen.deferStack)

/-- The end of a `#scope` whose callbacks were pushed at its beginning. -/
def closeScope (base : Nat) (callbacks : List (Call × Bool)) (body : Visit Call) :
    Option (Visit Call) := do
  let cleanups ← scopeCleanups base body.gen
  some ⟨inScope (.seq (.seq (registerAll (callbacks.map Prod.fst)) body.code) cleanups),
    ⟨resize base body.gen.deferStack, body.gen.terminated⟩, body.lambdas⟩

def scopeCbOf (callback : Call × Bool) : DeferredStmt Call := .scopeCb callback.1 callback.2

/-- `visitBreakStmt` and `visitContinueStmt`: without a loop on `loopStack_` nothing is emitted. -/
def jump (inLoop : Bool) (gen : Gen Call) (way : Way) : Visit Call :=
  if inLoop then ⟨.leave way, { gen with terminated := true }, []⟩ else ⟨.skip, gen, []⟩

mutual

def visitStmt (inLoop : Bool) (gen : Gen Call) : Stmt Call → Option (Visit Call)
  | .plain => some ⟨.skip, gen.newBlock, []⟩
  | .mayThrow => some ⟨raising true, gen.newBlock, []⟩
  | .deferStmt call throws =>
    some ⟨.act (.register call), { gen with deferStack := .call call throws :: gen.deferStack }, []⟩
  | .returnStmt =>
    some ⟨.seq (emitDeferreds gen.deferStack) (.leave .returned), { gen with terminated := true }, []⟩
  -- the stack is cleared for what is visited later too, and a dead block is begun
  | .throwStmt => some ⟨.seq (emitDeferreds gen.deferStack) (.leave .thrown), ⟨[], false⟩, []⟩
  | .breakStmt => some (jump inLoop gen .brk)
  | .continueStmt => some (jump inLoop gen .cont)
  | .nakedBlockStmt block => do
      let body ← visitStmts inLoop gen block
      some (closeBlock gen.deferStack.length body)
  | .ifStmt hasElse bodies => do
      let visited ← emitIfBodies inLoop gen bodies
      some ⟨ifCode hasElse visited.codes, visited.gen.newBlock, visited.lambdas⟩
  | .scopeBlockStmt callbacks block => do
      let pushed := (callbacks.map scopeCbOf).reverse ++ gen.deferStack
      let body ← visitStmts inLoop { gen with deferStack := pushed } block
      closeScope gen.deferStack.length callbacks body
  -- the stack is neither saved before the block nor emitted at its end
  | .loop test block => do
      let body ← visitStmts true gen.newBlock block
      some ⟨body.code.looping .brk .cont test, body.gen.newBlock, body.lambdas⟩
  -- a function of its own, on the stack and inside the loops of the function around it
  | .lambdaBlockExpr block => do
      let body ← visitStmts inLoop gen.newBlock block
      some ⟨.skip, ⟨body.gen.deferStack, gen.terminated⟩, inScope body.code :: body.lambdas⟩

def visitStmts (inLoop : Bool) (gen : Gen Call) : List (Stmt Call) → Option (Visit Call)
  | [] => some ⟨.skip, gen, []⟩
  | stmt :: rest => do
      let first ← visitStmt inLoop gen stmt
      let later ← visitStmts inLoop first.gen rest
      some ⟨.seq first.code later.code, later.gen, first.lambdas ++ later.lambdas⟩

/-- `emitIfBody` on the bodies of `visitIfStmt`, one after the other. -/
def emitIfBodies (inLoop : Bool) (gen : Gen Call) :
    List (List (Stmt Call)) → Option (Bodies Call)
  | [] => some ⟨[], gen, []⟩
  | block :: rest => do
      let body ← visitStmts inLoop gen.newBlock block
      let first := closeBlock gen.deferStack.length body
      let later ← emitIfBodies inLoop first.gen rest
      some ⟨first.code :: later.codes, later.gen, first.lambdas ++ later.lambdas⟩

end

/-- The body of a function and the functions that are emitted for it, its own the first. -/
def visitFunction (block : List (Stmt Call)) : Option (List (Emitted Call)) := do
  let body ← visitStmts false ⟨[], false⟩ block
  let cleanups := if body.gen.terminated then .skip else emitDeferreds body.gen.deferStack
  some (inScope (.seq body.code cleanups) :: body.lambdas)

end Generator

section Property

variable {Call : Type}

/-- On no path is a call run out of its turn or a scope left with one that has not run. -/
def Honoured (code : Emitted Call) : Prop :=
  ∀ events out s, Exec step code ⟨[], 0⟩ events out s → events = []

/-- Every function that is emitted for the body keeps its own defers, and runs no others. -/
def Faithful (block : List (Stmt Call)) : Prop :=
  ∃ emitted, visitFunction block = some emitted ∧ ∀ code ∈ emitted, Honoured code

end Property

section Discipline

variable {Call : Type}

/-- What a body has pushed since it began, and whether the block it writes to is terminated. -/
structure Held where
  calls : Nat
  callbacks : Nat
  terminated : Bool

def Held.size (held : Held) : Nat := held.calls + held.callbacks

def Held.fresh : Held := ⟨0, 0, false⟩

/-- The loop that a `break` is for: one of the function, with what is held since its block began, or
one around the lambda that the `break` is in. -/
inductive LoopAround where
  | without
  | own (held : Nat)
  | foreign

/-- What is around a body: the entries held where it begins, and those of the functions around the
lambda that it is in. -/
structure Site where
  loop : LoopAround
  outer : Nat
  captured : Nat

def LoopAround.inLoop : LoopAround → Bool
  | without => false
  | _ => true

def LoopAround.holding (more : Nat) : LoopAround → LoopAround
  | own held => own (held + more)
  | loop => loop

def LoopAround.inLambda : LoopAround → LoopAround
  | without => without
  | _ => foreign

def Site.inner (site : Site) (held : Held) : Site :=
  ⟨site.loop.holding held.size, site.outer + held.size, site.captured⟩

def Site.innerLoop (site : Site) (held : Held) : Site := { site.inner held with loop := .own 0 }

def Site.innerLambda (site : Site) (held : Held) : Site :=
  ⟨site.loop.inLambda, site.outer + held.size, site.outer + held.size⟩

def tidyJump (site : Site) (held : Held) : Option Held :=
  match site.loop with
  | .without => some held
  | .own since => if since + held.size = 0 then some { held with terminated := true } else none
  | .foreign => none

mutual

/-- A `break` or `continue` leaves no body that holds a defer, a `throw` is in no body inside of one
that does, a loop and a lambda end with what they began with, a `#scope` comes to its end with
callbacks only, a lambda neither returns nor throws where the functions around it hold any, no
deferred call may throw, and what may throw stands where its function holds none. -/
def tidyStmt (site : Site) (held : Held) : Stmt Call → Option Held
  | .plain => some { held with terminated := false }
  | .mayThrow =>
    if site.outer + held.size = site.captured then some { held with terminated := false } else none
  | .deferStmt _ throws => if throws then none else some { held with calls := held.calls + 1 }
  | .returnStmt => if site.captured = 0 then some { held with terminated := true } else none
  | .throwStmt => if site.outer = 0 then some .fresh else none
  | .breakStmt => tidyJump site held
  | .continueStmt => tidyJump site held
  | .nakedBlockStmt block => do
      let ended ← tidyStmts (site.inner held) ⟨0, 0, held.terminated⟩ block
      some { held with terminated := ended.terminated }
  | .ifStmt _ bodies =>
    if tidyBodies (site.inner held) bodies then some { held with terminated := false } else none
  | .scopeBlockStmt callbacks block => do
      let ended ← tidyStmts (site.inner held) ⟨0, callbacks.length, held.terminated⟩ block
      if (ended.terminated || ended.calls = 0) && !callbacks.any Prod.snd then
        some { held with terminated := ended.terminated }
      else none
  | .loop _ block => do
      let ended ← tidyStmts (site.innerLoop held) .fresh block
      if ended.size = 0 then some { held with terminated := false } else none
  | .lambdaBlockExpr block => do
      let ended ← tidyStmts (site.innerLambda held) .fresh block
      if ended.size = 0 then some held else none

def tidyStmts (site : Site) (held : Held) : List (Stmt Call) → Option Held
  | [] => some held
  | stmt :: rest => do
      let ended ← tidyStmt site held stmt
      tidyStmts site ended rest

def tidyBodies (site : Site) : List (List (Stmt Call)) → Bool
  | [] => true
  | block :: rest => (tidyStmts site .fresh block).isSome && tidyBodies site rest

end

def Tidy (block : List (Stmt Call)) : Prop := (tidyStmts ⟨.without, 0, 0⟩ .fresh block).isSome

instance (block : List (Stmt Call)) : Decidable (Tidy block) := inferInstanceAs (Decidable (_ = true))

end Discipline

section Runs

variable {Call : Type}

abbrev Runs (begins : State Call) (code : Emitted Call) (post : Option Way → State Call → Prop) :
    Prop :=
  Triple step (fun _ => True) (fun _ => False) (fun s => s = begins) code post

def Till (ends : State Call) (out : Option Way) (s : State Call) : Prop :=
  out.elim (s = ends) fun way => way = .cut

theorem runs_act {action : Act Call} {begins ends : State Call}
    (each : ∀ events out s, step action begins events out s → out ≠ some .cut →
      events = [] ∧ out = none ∧ s = ends) : Runs begins (.act action) (Till ends) := by
  apply triple_act
  rintro s events out s' rfl stepped -
  by_cases cut : out = some .cut
  · subst cut
    cases stepped with
    | cut => exact ⟨fun _ member => not_mem_nil member, rfl⟩
  · obtain ⟨rfl, rfl, rfl⟩ := each events out s' stepped cut
    exact ⟨fun _ member => not_mem_nil member, rfl⟩

theorem runs_enter (pending : List (Call × Nat)) (depth : Nat) :
    Runs ⟨pending, depth⟩ (.act .enter) (Till ⟨pending, depth + 1⟩) := by
  apply runs_act
  intro events out s stepped uncut
  cases stepped with
  | cut => exact absurd rfl uncut
  | enter => exact ⟨rfl, rfl, rfl⟩

theorem runs_exit {pending : List (Call × Nat)} {depth : Nat}
    (done : ∀ held ∈ pending, held.2 ≤ depth) :
    Runs ⟨pending, depth + 1⟩ (.act .exit) (Till ⟨pending, depth⟩) := by
  apply runs_act
  intro events out s stepped uncut
  cases stepped with
  | cut => exact absurd rfl uncut
  | exit _ => exact ⟨rfl, rfl, rfl⟩
  | exit_dropping left =>
    obtain ⟨held, member, late⟩ := left
    exact absurd late (Nat.not_le_of_lt (Nat.lt_succ_of_le (done held member)))

theorem runs_register (call : Call) (pending : List (Call × Nat)) (depth : Nat) :
    Runs ⟨pending, depth⟩ (.act (.register call)) (Till ⟨(call, depth) :: pending, depth⟩) := by
  apply runs_act
  intro events out s stepped uncut
  cases stepped with
  | cut => exact absurd rfl uncut
  | register => exact ⟨rfl, rfl, rfl⟩

theorem runs_run (held : Call × Nat) (pending : List (Call × Nat)) (depth : Nat) :
    Runs ⟨held :: pending, depth⟩ (.act (.run held.1)) (Till ⟨pending, depth⟩) := by
  obtain ⟨call, at_depth⟩ := held
  apply runs_act
  intro events out s stepped uncut
  cases stepped with
  | cut => exact absurd rfl uncut
  | run => exact ⟨rfl, rfl, rfl⟩
  | run_wrong other => exact absurd rfl (other at_depth pending)

theorem runs_skip (s : State Call) : Runs s .skip (Till s) :=
  triple_skip.weaken (fun _ same => same) fun _ _ ends => ends

theorem runs_seq {begins middle : State Call} {first rest}
    {post} (starts : Runs begins first (Till middle))
    (goes : Runs middle rest post) (cut : ∀ s, post (some .cut) s) :
    Runs begins (.seq first rest) post :=
  triple_seq starts goes fun way s stopped => by
    cases stopped
    exact cut s

end Runs

section Bodies

variable {Call : Type}

abbrev Stack (Call : Type) := List (DeferredStmt Call)

def Quiet (entries : Stack Call) : Prop := ∀ entry ∈ entries, entry.throws = false

def Counted (held : Held) (pushed : Stack Call) : Prop :=
  pushed.length = held.size ∧ pushed.countP DeferredStmt.isScopeCb = held.callbacks ∧ Quiet pushed

theorem quiet_nil : Quiet ([] : Stack Call) := forall_mem_nil _

theorem counted_fresh : Counted .fresh ([] : Stack Call) := ⟨rfl, rfl, quiet_nil⟩

variable {pushed : Stack Call}

variable {held : Held}

theorem counted_nil (counted : Counted held pushed) (none_held : held.size = 0) : pushed = [] :=
  eq_nil_of_length_eq_zero (counted.1.trans none_held)

/-- The calls of the entries, executed where `depth` scopes were open. -/
def own (pushed : Stack Call) (depth : Nat) : List (Call × Nat) :=
  (pushed.filterMap DeferredStmt.emits).map fun call => (call, depth)

theorem own_fst (pushed : Stack Call) (depth : Nat) :
    (own pushed depth).map Prod.fst = pushed.filterMap DeferredStmt.emits := by
  simp [own, Function.comp_def]

theorem own_depth {depth : Nat} {held : Call × Nat}
    (member : held ∈ own pushed depth) : held.2 = depth := by
  obtain ⟨call, _, rfl⟩ := List.mem_map.1 member
  rfl

structure Stands (site : Site) (base : Stack Call) : Prop where
  outer : base.length = site.outer
  captured : site.captured ≤ site.outer
  quiet : Quiet base

theorem Stands.inner {site : Site} {base : Stack Call}
    (stands : Stands site base) (counted : Counted held pushed) :
    Stands (site.inner held) (pushed ++ base) where
  outer := by
    rw [length_append, counted.1, stands.outer, Nat.add_comm]
    rfl
  captured := Nat.le_trans stands.captured (Nat.le_add_right _ _)
  quiet := forall_mem_append.2 ⟨counted.2.2, stands.quiet⟩

/-- What has not run where a body is begun: the entries below it, unless they are those of another
function; and what had not run where the block of the loop was. -/
structure Fits (site : Site) (base : Stack Call) (pending looped : List (Call × Nat)) (depth : Nat) :
    Prop where
  kept : site.captured = 0 → pending.map Prod.fst = base.filterMap DeferredStmt.emits
  captured : site.captured ≤ site.outer
  none_held : site.outer = site.captured → pending = []
  around : site.loop = .own 0 → looped = pending
  early : ∀ held ∈ pending, held.2 ≤ depth
  loop_early : ∀ held ∈ looped, held.2 ≤ depth

variable {site : Site} {held : Held} {base pushed : Stack Call} {pending looped : List (Call × Nat)}
  {depth : Nat}

variable (fits : Fits site base pending looped depth)
include fits

theorem Fits.deeper : Fits site base pending looped (depth + 1) where
  kept := fits.kept
  captured := fits.captured
  none_held := fits.none_held
  around := fits.around
  early := fun held member => Nat.le_succ_of_le (fits.early held member)
  loop_early := fun held member => Nat.le_succ_of_le (fits.loop_early held member)

theorem Fits.kept_own (captured : site.captured = 0)
    (pushed : Stack Call) : (own pushed depth ++ pending).map Prod.fst =
      (pushed ++ base).filterMap DeferredStmt.emits := by
  rw [map_append, own_fst, fits.kept captured, filterMap_append]

theorem Fits.early_own (pushed : Stack Call) :
    ∀ held ∈ own pushed depth ++ pending, held.2 ≤ depth := by
  intro held member
  rcases mem_append.mp member with here | below
  · exact Nat.le_of_eq (own_depth here)
  · exact fits.early held below

theorem Fits.nothing_held (counted : Counted held pushed)
    (same : site.outer + held.size = site.captured) :
    pushed = [] ∧ own pushed depth ++ pending = [] := by
  have captured := fits.captured
  obtain rfl := counted_nil counted (by omega)
  exact ⟨rfl, fits.none_held (by omega)⟩

theorem Fits.inner (counted : Counted held pushed) :
    Fits (site.inner held) (pushed ++ base) (own pushed depth ++ pending) looped depth where
  kept := fun captured => fits.kept_own captured pushed
  captured := Nat.le_trans fits.captured (Nat.le_add_right _ _)
  none_held := fun same => (fits.nothing_held counted same).2
  around := by
    intro around
    cases at_loop : site.loop with
    | own since =>
      simp only [Site.inner, at_loop, LoopAround.holding, LoopAround.own.injEq] at around
      obtain ⟨rfl, none_held⟩ := Nat.add_eq_zero_iff.1 around
      rw [counted_nil counted none_held]
      exact fits.around at_loop
    | without => simp [Site.inner, at_loop, LoopAround.holding] at around
    | foreign => simp [Site.inner, at_loop, LoopAround.holding] at around
  early := fits.early_own pushed
  loop_early := fits.loop_early

theorem Fits.innerLoop (counted : Counted held pushed) :
    Fits (site.innerLoop held) (pushed ++ base) (own pushed depth ++ pending)
      (own pushed depth ++ pending) depth where
  kept := fun captured => fits.kept_own captured pushed
  captured := (fits.inner counted).captured
  none_held := (fits.inner counted).none_held
  around := fun _ => rfl
  early := fits.early_own pushed
  loop_early := fits.early_own pushed

omit fits

def After (live : Prop) (pending looped : List (Call × Nat)) (depth : Nat) :
    Option Way → State Call → Prop
  | none, s => live ∧ s = ⟨pending, depth⟩
  | some .brk, s => s = ⟨looped, depth⟩
  | some .cont, s => s = ⟨looped, depth⟩
  | some .returned, s => s = ⟨[], depth⟩
  | some .thrown, s => s = ⟨[], depth⟩
  | some .cut, _ => True

variable {code : Emitted Call} {live : Prop}

theorem runs_till {begins ends : State Call}
    {post} (runs : Runs begins code (Till ends)) (holds : live)
    (at_end : ∀ s, live → s = ends → post none s) (cut : ∀ s, post (some .cut) s) :
    Runs begins code post :=
  runs.weaken (fun _ same => same) fun out s till => by
    cases out with
    | none => exact at_end s holds till
    | some way =>
      cases till
      exact cut s

theorem runs_quiet {post : Option Way → State Call → Prop} {s : State Call} {throws : Bool}
    (quiet : throws = false) (runs : Runs s code post) (cut : ∀ s, post (some .cut) s) :
    Runs s (.seq (raising throws) code) post := by
  subst quiet
  exact runs_seq (runs_skip s) runs cut

theorem emits_pending (entries : Stack Call) (first pending : List (Call × Nat)) (depth : Nat)
    (quiet : Quiet entries) (same : first.map Prod.fst = entries.filterMap DeferredStmt.emits) :
    Runs ⟨first ++ pending, depth⟩ (emitDeferreds entries) (Till ⟨pending, depth⟩) := by
  induction entries generalizing first with
  | nil =>
    obtain rfl := map_eq_nil_iff.1 same
    exact runs_skip _
  | cons entry rest ih =>
    obtain ⟨here_quiet, quiet⟩ := forall_mem_cons.1 quiet
    cases emitted : entry.emits with
    | none =>
      rw [filterMap_cons_none emitted] at same
      simp only [emitDeferreds, emitOneDeferred, emitted]
      exact runs_seq (runs_skip _) (ih first quiet same) fun _ => rfl
    | some call =>
      rw [filterMap_cons_some emitted] at same
      obtain ⟨held, later, rfl, rfl, below⟩ := map_eq_cons_iff.1 same
      simp only [emitDeferreds, emitOneDeferred, emitted]
      exact runs_seq (runs_quiet here_quiet (runs_run held _ depth) fun _ => rfl)
        (ih later quiet below) fun _ => rfl

theorem runs_inScope (early : ∀ held ∈ pending, held.2 ≤ depth)
    (loop_early : ∀ held ∈ looped, held.2 ≤ depth)
    (runs : Runs ⟨pending, depth + 1⟩ code (After live pending looped (depth + 1))) :
    Runs ⟨pending, depth⟩ (inScope code) (After live pending looped depth) := by
  have leaves : ∀ {ends : List (Call × Nat)} {post : Option Way → State Call → Prop}
      (way : Option Way), (∀ held ∈ ends, held.2 ≤ depth) → post way ⟨ends, depth⟩ →
      (∀ s, post (some .cut) s) → Runs ⟨ends, depth + 1⟩ (.act .exit) fun own s =>
        own.elim (post way s) fun left => left ∉ Way.leaving ∧ post (some left) s := by
    intro ends post way before holds cut
    apply (runs_exit before).weaken fun _ same => same
    intro out s till
    cases out with
    | none =>
      obtain rfl : s = ⟨ends, depth⟩ := till
      exact holds
    | some left =>
      obtain rfl : left = .cut := till
      exact ⟨by decide, cut s⟩
  have none_early : ∀ held ∈ ([] : List (Call × Nat)), held.2 ≤ depth :=
    nofun
  apply runs_seq (runs_enter pending depth) _ fun _ => trivial
  apply triple_around runs
  · by_cases lives : live
    · exact (leaves none early ⟨lives, rfl⟩ fun _ => trivial).weaken
        (fun s ends => ends.2) fun _ _ holds => holds
    · intro s events out s' ends
      exact absurd ends.1 lives
  · intro way member
    cases way with
    | brk => exact leaves _ loop_early rfl fun _ => trivial
    | cont => exact leaves _ loop_early rfl fun _ => trivial
    | returned => exact leaves _ none_early rfl fun _ => trivial
    | thrown => exact leaves _ none_early rfl fun _ => trivial
    | cut => exact absurd member (by decide)
  · intro way s apart ends
    cases way with
    | cut => trivial
    | _ => exact absurd (by decide) apart
  · decide

end Bodies

section Lowering

variable {Call : Type}

structure Lowered (site : Site) (base : Stack Call) (held ended : Held) (before after : Stack Call)
    (visit : Visit Call) : Prop where
  gen : visit.gen = ⟨after ++ base, ended.terminated⟩
  counted : Counted ended after
  lambdas : ∀ code ∈ visit.lambdas, Honoured code
  runs : held.terminated = false → ∃ live : Prop, (ended.terminated = true → ¬live) ∧
    ∀ pending looped depth, Fits site base pending looped depth →
      Runs ⟨own before depth ++ pending, depth⟩ visit.code
        (After live (own after depth ++ pending) looped depth)

def Lowers (site : Site) (base : Stack Call) (held ended : Held) (before : Stack Call)
    (visited : Option (Visit Call)) : Prop :=
  ∃ visit after, visited = some visit ∧ Lowered site base held ended before after visit

variable {site : Site} {base pushed : Stack Call} {held ended : Held}

theorem no_lambdas : ∀ code ∈ ([] : List (Emitted Call)), Honoured code :=
  nofun

variable {after : Stack Call} {code : Emitted Call}

theorem lowers_plainly {terminated : Bool}
    {lambdas} (counted : Counted ended after)
    (same : ended.terminated = terminated)
    (open_block : held.terminated = false → terminated = false)
    (runs : ∀ (pending : List (Call × Nat)) depth, Runs ⟨own pushed depth ++ pending, depth⟩ code
      (Till ⟨own after depth ++ pending, depth⟩)) (honoured : ∀ code ∈ lambdas, Honoured code) :
    Lowers site base held ended pushed (some ⟨code, ⟨after ++ base, terminated⟩, lambdas⟩) := by
  refine ⟨_, after, rfl, ?_⟩
  constructor
  · rw [same]
  · exact counted
  · exact honoured
  · intro unterminated
    refine ⟨True, fun closed => ?_, fun pending looped depth _ => ?_⟩
    · rw [same, open_block unterminated] at closed
      cases closed
    · exact runs_till (runs pending depth) trivial (fun _ live ends => ⟨live, ends⟩)
        fun _ => trivial

theorem lowers_defer (counted : Counted held pushed) (call : Call) :
    Lowers site base held { held with calls := held.calls + 1 } pushed (some
      ⟨.act (.register call), ⟨.call call false :: pushed ++ base, held.terminated⟩, []⟩) := by
  have still : Counted { held with calls := held.calls + 1 } (.call call false :: pushed) := by
    refine ⟨?_, ?_, forall_mem_cons.2 ⟨rfl, counted.2.2⟩⟩
    · simp only [Held.size, length_cons, counted.1]
      omega
    · rw [countP_cons_of_neg (by simp [DeferredStmt.isScopeCb])]
      exact counted.2.1
  exact lowers_plainly still rfl id (fun pending depth => runs_register call _ depth) no_lambdas

variable {post : Option Way → State Call → Prop}

variable {way : Way}

theorem runs_leave {begins ends : State Call} {first}
    (runs : Runs begins first (Till ends))
    (left : post (some way) ends) (cut : ∀ s, post (some .cut) s) :
    Runs begins (.seq first (.leave way)) post := by
  apply runs_seq runs _ cut
  apply (triple_leave way).weaken _ fun _ _ ends => ends
  rintro s rfl
  exact left

variable {looped pending : List (Call × Nat)} {depth : Nat}

theorem runs_all (fits : Fits site base pending looped depth) (stands : Stands site base)
    (counted : Counted held pushed) (captured : site.captured = 0) :
    Runs ⟨own pushed depth ++ pending, depth⟩ (emitDeferreds (pushed ++ base))
      (Till ⟨[], depth⟩) := by
  have all := emits_pending (pushed ++ base) (own pushed depth ++ pending) [] depth
    (forall_mem_append.2 ⟨counted.2.2, stands.quiet⟩) (fits.kept_own captured pushed)
  rwa [append_nil] at all

theorem lowers_return (stands : Stands site base) (counted : Counted held pushed)
    (captured : site.captured = 0) :
    Lowers site base held { held with terminated := true } pushed (some
      ⟨.seq (emitDeferreds (pushed ++ base)) (.leave .returned), ⟨pushed ++ base, true⟩, []⟩) := by
  refine ⟨_, pushed, rfl, rfl, counted, no_lambdas, fun _ => ?_⟩
  refine ⟨False, fun _ => id, fun pending looped depth fits => ?_⟩
  exact runs_leave (runs_all fits stands counted captured) rfl fun _ => trivial

/-- The stack that a `throw` clears holds nothing of what is below the body. -/
theorem lowers_throw (stands : Stands site base) (counted : Counted held pushed)
    (outer : site.outer = 0) :
    Lowers site base held .fresh pushed (some
      ⟨.seq (emitDeferreds (pushed ++ base)) (.leave .thrown), ⟨[], false⟩, []⟩) := by
  have captured : site.captured = 0 := Nat.eq_zero_of_le_zero (outer ▸ stands.captured)
  obtain rfl : base = [] := eq_nil_of_length_eq_zero (stands.outer.trans outer)
  refine ⟨_, [], rfl, rfl, counted_fresh, no_lambdas, fun _ => ?_⟩
  refine ⟨False, fun _ => id, fun pending looped depth fits => ?_⟩
  exact runs_leave (runs_all fits stands counted captured) rfl fun _ => trivial

/-- What may throw leaves nothing behind where the function holds nothing. -/
theorem lowers_raise (counted : Counted held pushed)
    (nothing : site.outer + held.size = site.captured) :
    Lowers site base held { held with terminated := false } pushed (some
      ⟨raising true, ⟨pushed ++ base, false⟩, []⟩) := by
  refine ⟨_, pushed, rfl, rfl, counted, no_lambdas, fun _ => ?_⟩
  refine ⟨True, fun closed => absurd closed Bool.false_ne_true,
    fun pending looped depth fits => ?_⟩
  have nothing_held : pushed = [] ∧ own pushed depth ++ pending = [] :=
    fits.nothing_held counted nothing
  obtain ⟨rfl, none_pending⟩ := nothing_held
  rw [none_pending]
  apply triple_either
  · apply (triple_leave Way.thrown).weaken _ fun _ _ ends => ends
    rintro s rfl
    rfl
  · exact runs_till (runs_skip _) trivial (fun _ live ends => ⟨live, ends⟩) fun _ => trivial

theorem lowers_jump (jumps : way = .brk ∨ way = .cont) (counted : Counted held pushed)
    (tidy : tidyJump site held = some ended) : Lowers site base held ended pushed
      (some (jump site.loop.inLoop ⟨pushed ++ base, held.terminated⟩ way)) := by
  cases around : site.loop with
  | without =>
    simp only [tidyJump, around, Option.some.injEq] at tidy
    subst tidy
    exact lowers_plainly counted rfl id (fun _ _ => runs_skip _) no_lambdas
  | own since =>
    simp only [tidyJump, around, ite_none_right_eq_some, Option.some.injEq] at tidy
    obtain ⟨none_held, rfl⟩ := tidy
    obtain ⟨rfl, own_none⟩ := Nat.add_eq_zero_iff.1 none_held
    refine ⟨_, pushed, rfl, rfl, counted, no_lambdas, fun _ => ?_⟩
    refine ⟨False, fun _ => id, fun pending looped depth fits => ?_⟩
    obtain rfl := counted_nil counted own_none
    obtain rfl := fits.around around
    apply (triple_leave way).weaken _ fun _ _ ends => ends
    rintro s rfl
    rcases jumps with rfl | rfl <;> exact rfl
  | foreign => simp [tidyJump, around] at tidy

theorem above_append (pushed base : Stack Call) : above base.length (pushed ++ base) = pushed := by
  simp [above]

theorem resize_append (pushed base : Stack Call) : resize base.length (pushed ++ base) = base := by
  simp [resize]

theorem runs_never {begins} (never : ∀ s, ¬begins s) :
    Triple step (fun _ => True) (fun _ => False) begins code post :=
  fun s _ _ _ holds => absurd holds (never s)

variable {live : Prop}

theorem runs_cleanups {begins : State Call} {cleanups} (quiet : Quiet after)
    (runs : Runs begins code (After live (own after depth ++ pending) looped depth))
    (cleans : live → cleanups = emitDeferreds after) :
    Runs begins (.seq code cleanups) (After live pending looped depth) := by
  apply triple_seq runs
  · by_cases lives : live
    · rw [cleans lives]
      exact (runs_till (emits_pending after _ _ _ quiet (own_fst after depth)) lives
        (fun _ live ends => ⟨live, ends⟩) fun _ => trivial).weaken
          (fun s ends => ends.2) fun _ _ ends => ends
    · exact runs_never fun s ends => lives ends.1
  · intro way s ends
    cases way <;> exact ends

variable {body : Visit Call} {start : Held}

/-- A naked block, and a body of an `if`, leaves the stack as it was. -/
theorem lowers_close (counted : Counted held pushed)
    (lowered : Lowered (site.inner held) (pushed ++ base) start ended [] after body)
    (starts : held.terminated = false → start.terminated = false) :
    Lowered site base held { held with terminated := ended.terminated } pushed pushed
      (closeBlock (pushed ++ base).length body) := by
  constructor
  · simp only [closeBlock, lowered.gen, resize_append]
  · exact counted
  · exact lowered.lambdas
  · intro unterminated
    obtain ⟨live, closed, runs⟩ := lowered.runs (starts unterminated)
    refine ⟨live, closed, fun pending looped depth fits => ?_⟩
    have inner := fits.inner counted
    apply runs_inScope inner.early inner.loop_early
    apply runs_cleanups lowered.counted.2.2 (runs _ looped (depth + 1) inner.deeper)
    intro lives
    rw [lowered.gen, if_neg fun terminated => closed terminated lives, above_append]

theorem emitScopeCallbacks_all {entries : Stack Call}
    (callbacks : ∀ entry ∈ entries, entry.isScopeCb = true) :
    emitScopeCallbacks entries = some (emitDeferreds entries) := by
  induction entries with
  | nil => rfl
  | cons entry rest ih =>
    obtain ⟨here, below⟩ := forall_mem_cons.1 callbacks
    cases entry with
    | scopeCb call throws =>
      simp only [emitScopeCallbacks, ih below]
      rfl
    | call _ _ => cases here
    | unset => cases here

variable (callbacks : List (Call × Bool))

theorem registers_all (pending : List (Call × Nat)) (depth : Nat) :
    Runs ⟨pending, depth⟩ (registerAll (callbacks.map Prod.fst))
      (Till ⟨own (callbacks.map scopeCbOf).reverse depth ++ pending, depth⟩) := by
  induction callbacks generalizing pending with
  | nil => exact runs_skip _
  | cons callback rest ih =>
    have later := ih ((callback.1, depth) :: pending)
    have same : own ((callback :: rest).map scopeCbOf).reverse depth ++ pending =
        own (rest.map scopeCbOf).reverse depth ++ (callback.1, depth) :: pending := by
      simp [own, scopeCbOf, DeferredStmt.emits]
    rw [same]
    exact runs_seq (runs_register callback.1 pending depth) later fun _ => rfl

theorem counted_callbacks (quiet : callbacks.any Prod.snd = false) (terminated : Bool) :
    Counted ⟨0, callbacks.length, terminated⟩ (callbacks.map scopeCbOf).reverse := by
  refine ⟨?_, ?_, ?_⟩
  · simp [Held.size]
  · simp [countP_map, Function.comp_def, scopeCbOf, DeferredStmt.isScopeCb]
  · intro entry member
    obtain ⟨callback, among, rfl⟩ := List.mem_map.1 (mem_reverse.1 member)
    exact eq_false_of_ne_true (any_eq_false.1 quiet callback among)

/-- A `#scope` that comes to its end has its callbacks on the stack, and nothing else. -/
theorem lowers_scope {callbacks : List (Call × Bool)}
    (counted : Counted held pushed) (tidy : ended.terminated = true ∨ ended.calls = 0)
    (lowered : Lowered (site.inner held) (pushed ++ base)
      ⟨0, callbacks.length, held.terminated⟩ ended (callbacks.map scopeCbOf).reverse after
      body) : Lowers site base held { held with terminated := ended.terminated } pushed
      (closeScope (pushed ++ base).length callbacks body) := by
  have cleanups : ∃ code, scopeCleanups (pushed ++ base).length body.gen = some code ∧
      (ended.terminated = false → code = emitDeferreds after) := by
    rw [scopeCleanups, lowered.gen]
    cases terminated : ended.terminated with
    | true => exact ⟨.skip, rfl, fun closed => absurd closed (by decide)⟩
    | false =>
      rw [terminated] at tidy
      have none_called := tidy.resolve_left (by decide)
      have all : after.countP DeferredStmt.isScopeCb = after.length := by
        rw [lowered.counted.1, lowered.counted.2.1, Held.size, none_called, Nat.zero_add]
      rw [above_append]
      exact ⟨emitDeferreds after, emitScopeCallbacks_all (countP_eq_length.1 all),
        fun _ => rfl⟩
  obtain ⟨code, emitted, cleans⟩ := cleanups
  rw [closeScope, emitted]
  refine ⟨_, pushed, rfl, ?_⟩
  constructor
  · simp only [lowered.gen, resize_append]
  · exact counted
  · exact lowered.lambdas
  · intro unterminated
    obtain ⟨live, closed, runs⟩ := lowered.runs unterminated
    refine ⟨live, closed, fun pending looped depth fits => ?_⟩
    have inner := fits.inner counted
    apply runs_inScope inner.early inner.loop_early
    apply runs_cleanups lowered.counted.2.2 (runs_seq (registers_all callbacks _ _)
      (runs _ looped (depth + 1) inner.deeper) fun _ => trivial)
    intro lives
    apply cleans
    cases terminated : ended.terminated with
    | true => exact absurd lives (closed terminated)
    | false => rfl

/-- A loop is left by `break`, with what was pending where it began. -/
theorem runs_loop {block} (test : Test)
    (runs : Runs ⟨pending, depth⟩ block (After live pending pending depth)) :
    Runs ⟨pending, depth⟩ (block.looping .brk .cont test) (After True pending looped depth) := by
  apply triple_looping test (by decide) runs
  · exact fun s ends => ends.2
  · exact fun s ends => ends
  · exact fun s begins => begins
  · exact fun s ends => ⟨trivial, ends⟩
  · intro way s not_brk not_cont ends
    cases way with
    | brk => exact absurd rfl not_brk
    | cont => exact absurd rfl not_cont
    | _ => exact ends

theorem lowers_loop {test : Test} (counted : Counted held pushed) (tidy : ended.size = 0)
    (lowered : Lowered (site.innerLoop held) (pushed ++ base) .fresh ended [] after body) :
    Lowered site base held { held with terminated := false } pushed pushed
      ⟨body.code.looping .brk .cont test, body.gen.newBlock, body.lambdas⟩ := by
  obtain rfl := counted_nil lowered.counted tidy
  constructor
  · rw [lowered.gen]
    rfl
  · exact counted
  · exact lowered.lambdas
  · intro _
    obtain ⟨live, _, runs⟩ := lowered.runs rfl
    refine ⟨True, fun closed => absurd closed Bool.false_ne_true,
      fun pending looped depth fits => ?_⟩
    exact runs_loop test (runs _ _ depth (fits.innerLoop counted))

theorem honoured_of_runs (runs : Runs ⟨[], 0⟩ code post) : Honoured code := by
  intro events out s run
  obtain ⟨faultless, _⟩ := runs _ events out s rfl run fun _ _ => trivial
  exact eq_nil_iff_forall_not_mem.2 faultless

theorem function_honoured (none_looped : looped = [])
    (runs : Runs ⟨[], 1⟩ code (After live [] looped 1)) : Honoured (inScope code) := by
  subst none_looped
  have none_early : ∀ held ∈ ([] : List (Call × Nat)), held.2 ≤ 0 :=
    nofun
  exact honoured_of_runs (runs_inScope none_early none_early runs)

theorem fits_nothing (nothing : site.captured = 0 → base = [])
    (captured : site.captured ≤ site.outer) : Fits site base [] [] depth where
  kept := by
    intro captured
    rw [nothing captured]
    rfl
  captured := captured
  none_held := fun _ => rfl
  around := fun _ => rfl
  early := nofun
  loop_early := nofun

theorem lowers_lambda (stands : Stands site base)
    (counted : Counted held pushed) (tidy : ended.size = 0)
    (lowered : Lowered (site.innerLambda held) (pushed ++ base) .fresh ended [] after body) :
    Lowers site base held held pushed (some
      ⟨.skip, ⟨body.gen.deferStack, held.terminated⟩, inScope body.code :: body.lambdas⟩) := by
  obtain rfl := counted_nil lowered.counted tidy
  have nothing : (site.innerLambda held).captured = 0 → pushed ++ base = [] := by
    intro captured
    apply eq_nil_of_length_eq_zero
    rw [length_append, counted.1, stands.outer, Nat.add_comm]
    exact captured
  have honoured : Honoured (inScope body.code) := by
    obtain ⟨live, _, runs⟩ := lowered.runs rfl
    exact function_honoured rfl (runs [] [] 1 (fits_nothing nothing (Nat.le_refl _)))
  rw [lowered.gen]
  exact lowers_plainly counted rfl id (fun _ _ => runs_skip _)
    (forall_mem_cons.2 ⟨honoured, lowered.lambdas⟩)

theorem lowers_seq {middle : Held} {first later : Visit Call} {between : Stack Call}
    (begins : Lowered site base held middle pushed between first)
    (goes : Lowered site base middle ended between after later) :
    Lowered site base held ended pushed after
      ⟨.seq first.code later.code, later.gen, first.lambdas ++ later.lambdas⟩ := by
  constructor
  · exact goes.gen
  · exact goes.counted
  · exact forall_mem_append.2 ⟨begins.lambdas, goes.lambdas⟩
  · intro unterminated
    obtain ⟨live, closed, starts⟩ := begins.runs unterminated
    by_cases lives : live
    · have unclosed : middle.terminated = false := by
        cases terminated : middle.terminated with
        | true => exact absurd lives (closed terminated)
        | false => rfl
      obtain ⟨reached, closed, ends⟩ := goes.runs unclosed
      refine ⟨reached, closed, fun pending looped depth fits => ?_⟩
      apply triple_seq (starts pending looped depth fits)
      · exact (ends pending looped depth fits).weaken (fun s ends => ends.2) fun _ _ ends => ends
      · intro way s ends
        cases way <;> exact ends
    · refine ⟨False, fun _ => id, fun pending looped depth fits => ?_⟩
      apply triple_seq (starts pending looped depth fits)
      · exact runs_never fun s ends => lives ends.1
      · intro way s ends
        cases way <;> exact ends

theorem lowers_bind {inside : Site} {below before : Stack Call} {middle : Held}
    {visited} {next}
    (first : Lowers inside below start middle before visited)
    (rest : ∀ visit after, Lowered inside below start middle before after visit →
      Lowers site base held ended pushed (next visit)) :
    Lowers site base held ended pushed (visited >>= next) := by
  obtain ⟨visit, after, rfl, lowered⟩ := first
  exact rest visit after lowered

theorem after_reached
    {out : Option Way} {s : State Call} (ends : After live pending looped depth out s) :
    After True pending looped depth out s := by
  cases out with
  | none => exact ⟨trivial, ends.2⟩
  | some way => cases way <;> exact ends

/-- The bodies of an `if`: each is left with what was held before it. -/
structure BodiesLowered (site : Site) (base pushed : Stack Call) (visited : Bodies Call) : Prop where
  gen : visited.gen.deferStack = pushed ++ base
  lambdas : ∀ code ∈ visited.lambdas, Honoured code
  runs : ∀ code ∈ visited.codes, ∀ pending looped depth, Fits site base pending looped depth →
    Runs ⟨own pushed depth ++ pending, depth⟩ code
      (After True (own pushed depth ++ pending) looped depth)

theorem bodies_cons {first : Visit Call} {later} {after : Held}
    (unterminated : held.terminated = false)
    (here : Lowered site base held after pushed pushed first)
    (rest : BodiesLowered site base pushed later) : BodiesLowered site base pushed
      ⟨first.code :: later.codes, later.gen, first.lambdas ++ later.lambdas⟩ where
  gen := rest.gen
  lambdas := forall_mem_append.2 ⟨here.lambdas, rest.lambdas⟩
  runs := by
    apply forall_mem_cons.2 ⟨_, rest.runs⟩
    intro pending looped depth fits
    obtain ⟨live, _, runs⟩ := here.runs unterminated
    exact (runs pending looped depth fits).weaken (fun _ same => same) fun _ _ => after_reached

theorem runs_if {codes} (hasElse : Bool)
    (runs : ∀ code ∈ codes, Runs ⟨pending, depth⟩ code (After True pending looped depth)) :
    Runs ⟨pending, depth⟩ (ifCode hasElse codes) (After True pending looped depth) := by
  have passes : Runs ⟨pending, depth⟩ .skip (After True pending looped depth) :=
    runs_till (runs_skip _) trivial (fun _ live ends => ⟨live, ends⟩) fun _ => trivial
  induction codes with
  | nil => exact passes
  | cons body rest ih =>
    obtain ⟨here, later⟩ := forall_mem_cons.1 runs
    cases rest with
    | nil =>
      cases hasElse with
      | true => exact here
      | false => exact triple_either here passes
    | cons next others => exact triple_either here (ih later)

theorem lowers_if {hasElse : Bool} {visited} (counted : Counted held pushed)
    (lowered : BodiesLowered site base pushed visited) :
    Lowers site base held { held with terminated := false } pushed
      (some ⟨ifCode hasElse visited.codes, visited.gen.newBlock, visited.lambdas⟩) := by
  refine ⟨_, pushed, rfl, ?_⟩
  constructor
  · simp only [Gen.newBlock, lowered.gen]
  · exact counted
  · exact lowered.lambdas
  · intro _
    refine ⟨True, fun closed => absurd closed Bool.false_ne_true,
      fun pending looped depth fits => ?_⟩
    exact runs_if hasElse fun code member => lowered.runs code member pending looped depth fits

theorem inner_inLoop (site : Site) (held : Held) :
    (site.inner held).loop.inLoop = site.loop.inLoop := by
  obtain ⟨loop, outer, captured⟩ := site
  cases loop <;> rfl

theorem innerLambda_inLoop (site : Site) (held : Held) :
    (site.innerLambda held).loop.inLoop = site.loop.inLoop := by
  obtain ⟨loop, outer, captured⟩ := site
  cases loop <;> rfl

theorem Stands.innerLambda (stands : Stands site base) (counted : Counted held pushed) :
    Stands (site.innerLambda held) (pushed ++ base) :=
  ⟨(stands.inner counted).outer, Nat.le_refl _, (stands.inner counted).quiet⟩

theorem Stands.innerLoop (stands : Stands site base) (counted : Counted held pushed) :
    Stands (site.innerLoop held) (pushed ++ base) :=
  ⟨(stands.inner counted).outer, (stands.inner counted).captured, (stands.inner counted).quiet⟩

mutual

theorem stmt_lowers (stmt : Stmt Call) (site : Site) (base pushed : Stack Call) (held ended : Held)
    (stands : Stands site base) (counted : Counted held pushed)
    (tidy : tidyStmt site held stmt = some ended) : Lowers site base held ended pushed
      (visitStmt site.loop.inLoop ⟨pushed ++ base, held.terminated⟩ stmt) := by
  cases stmt with
  | plain =>
    obtain rfl := Option.some.inj tidy
    exact lowers_plainly counted rfl (fun _ => rfl) (fun _ _ => runs_skip _) no_lambdas
  | mayThrow =>
    simp only [tidyStmt, ite_none_right_eq_some, Option.some.injEq] at tidy
    obtain ⟨nothing, rfl⟩ := tidy
    exact lowers_raise counted nothing
  | deferStmt call throws =>
    cases throws with
    | true => cases tidy
    | false =>
      obtain rfl := Option.some.inj tidy
      exact lowers_defer counted call
  | returnStmt =>
    simp only [tidyStmt, ite_none_right_eq_some, Option.some.injEq] at tidy
    obtain ⟨captured, rfl⟩ := tidy
    exact lowers_return stands counted captured
  | throwStmt =>
    simp only [tidyStmt, ite_none_right_eq_some, Option.some.injEq] at tidy
    obtain ⟨outer, rfl⟩ := tidy
    exact lowers_throw stands counted outer
  | breakStmt => exact lowers_jump (.inl rfl) counted tidy
  | continueStmt => exact lowers_jump (.inr rfl) counted tidy
  | nakedBlockStmt block =>
    simp only [tidyStmt, bind_eq_bind, bind_eq_some_iff, Option.some.injEq] at tidy
    obtain ⟨left, tidy, rfl⟩ := tidy
    have body := stmts_lowers block (site.inner held) (pushed ++ base) [] _ left
      (stands.inner counted) ⟨rfl, rfl, quiet_nil⟩ tidy
    rw [inner_inLoop] at body
    exact lowers_bind body fun visit after lowered =>
      ⟨_, pushed, rfl, lowers_close counted lowered id⟩
  | ifStmt hasElse bodies =>
    simp only [tidyStmt, ite_none_right_eq_some, Option.some.injEq] at tidy
    obtain ⟨tidy, rfl⟩ := tidy
    obtain ⟨visited, emitted, lowered⟩ := bodies_lower bodies site base pushed held
      ⟨pushed ++ base, held.terminated⟩ stands counted rfl tidy
    simp only [visitStmt, emitted]
    exact lowers_if counted lowered
  | scopeBlockStmt callbacks block =>
    simp only [tidyStmt, bind_eq_bind, bind_eq_some_iff,
      ite_none_right_eq_some, Option.some.injEq, Bool.and_eq_true, Bool.or_eq_true,
      Bool.not_eq_true', decide_eq_true_eq] at tidy
    obtain ⟨left, tidy, ⟨ends, quiet⟩, rfl⟩ := tidy
    have body := stmts_lowers block (site.inner held) (pushed ++ base) _ _ left
      (stands.inner counted) (counted_callbacks callbacks quiet held.terminated) tidy
    rw [inner_inLoop] at body
    exact lowers_bind body fun visit after lowered => lowers_scope counted ends lowered
  | loop test block =>
    simp only [tidyStmt, bind_eq_bind, bind_eq_some_iff,
      ite_none_right_eq_some, Option.some.injEq] at tidy
    obtain ⟨left, tidy, ends, rfl⟩ := tidy
    have body := stmts_lowers block (site.innerLoop held) (pushed ++ base) [] _ left
      (stands.innerLoop counted) counted_fresh tidy
    exact lowers_bind body fun visit after lowered =>
      ⟨_, pushed, rfl, lowers_loop counted ends lowered⟩
  | lambdaBlockExpr block =>
    simp only [tidyStmt, bind_eq_bind, bind_eq_some_iff,
      ite_none_right_eq_some, Option.some.injEq] at tidy
    obtain ⟨left, tidy, ends, rfl⟩ := tidy
    have body := stmts_lowers block (site.innerLambda held) (pushed ++ base) [] _ left
      (stands.innerLambda counted) counted_fresh tidy
    rw [innerLambda_inLoop] at body
    exact lowers_bind body fun visit after lowered =>
      lowers_lambda stands counted ends lowered

theorem stmts_lowers (block : List (Stmt Call)) (site : Site) (base pushed : Stack Call)
    (held ended : Held) (stands : Stands site base) (counted : Counted held pushed)
    (tidy : tidyStmts site held block = some ended) : Lowers site base held ended pushed
      (visitStmts site.loop.inLoop ⟨pushed ++ base, held.terminated⟩ block) := by
  cases block with
  | nil =>
    obtain rfl := Option.some.inj tidy
    exact lowers_plainly counted rfl id (fun _ _ => runs_skip _) no_lambdas
  | cons stmt rest =>
    simp only [tidyStmts, bind_eq_bind, bind_eq_some_iff] at tidy
    obtain ⟨middle, here, later⟩ := tidy
    apply lowers_bind (stmt_lowers stmt site base pushed held middle stands counted here)
    intro first between begins
    have goes := stmts_lowers rest site base between middle ended stands begins.counted later
    rw [begins.gen]
    exact lowers_bind goes fun visit after lowered => ⟨_, after, rfl, lowers_seq begins lowered⟩

theorem bodies_lower (bodies : List (List (Stmt Call))) (site : Site) (base pushed : Stack Call)
    (held : Held) (gen : Gen Call) (stands : Stands site base) (counted : Counted held pushed)
    (stack : gen.deferStack = pushed ++ base) (tidy : tidyBodies (site.inner held) bodies = true) :
    ∃ visited, emitIfBodies site.loop.inLoop gen bodies = some visited ∧
      BodiesLowered site base pushed visited := by
  cases bodies with
  | nil => exact ⟨_, rfl, stack, no_lambdas, nofun⟩
  | cons block rest =>
    simp only [tidyBodies, Bool.and_eq_true, isSome_iff_exists] at tidy
    obtain ⟨⟨ended, here⟩, later⟩ := tidy
    have body := stmts_lowers block (site.inner held) (pushed ++ base) [] _ ended
      (stands.inner counted) counted_fresh here
    rw [inner_inLoop] at body
    obtain ⟨visit, after, visited, lowered⟩ := body
    have here_counted : Counted { held with terminated := false } pushed := counted
    have closed := lowers_close here_counted lowered fun _ => rfl
    have same_stack : (closeBlock (pushed ++ base).length visit).gen.deferStack = pushed ++ base := by
      rw [closed.gen]
    obtain ⟨others, emitted, lower⟩ := bodies_lower rest site base pushed held _ stands counted
      same_stack later
    have found : visitStmts site.loop.inLoop gen.newBlock block = some visit := by
      rw [Gen.newBlock, stack]
      exact visited
    refine ⟨_, ?_, bodies_cons rfl closed lower⟩
    simp only [emitIfBodies, found, stack, bind_eq_bind, bind_some, emitted]

end

end Lowering

section Functions

variable {Call : Type}

theorem not_honoured_of_return {code : Emitted Call} {held : Call × Nat} {rest}
    (late : 1 ≤ held.2) (run : Exec step code ⟨[], 1⟩ [] (some .returned) ⟨held :: rest, 1⟩) :
    ¬Honoured (inScope code) := by
  intro honoured
  have dropped : step (.exit : Act Call) ⟨held :: rest, 1⟩ [.dropped] none ⟨held :: rest, 0⟩ :=
    .exit_dropping ⟨held, .head _, late⟩
  have left : Exec step (code.around (.act .exit) Way.leaving) ⟨[], 1⟩ ([] ++ ([.dropped] ++ []))
      (some .returned) ⟨held :: rest, 0⟩ := by
    refine .passes (.passes (.handled (.passes (.seq_leaves run) ?_) (.seq (.act dropped) .leave)) ?_)
      ?_ <;> decide
  have faults := honoured _ _ _ (.seq (.act .enter) left)
  cases faults

end Functions

end Lucis.DeferLowering
