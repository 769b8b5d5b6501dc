import Lucis.Ownership

/-!
The walk of checkers/Checker_stmt.cpp over one body, on the ownership that
Checker_safety.cpp keeps in `locals_`, beside the runs of that body. The tree holds
what the walk and a run do to ownership, in the order of the walk; conditions, calls
of other functions and what is thrown are left open, and a run may be cut anywhere.
Code that runs elsewhere than where it is looked at (a deferred statement, a `#scope`
callback, the body of a closure, what stands behind a condition folded wrongly) is
a move that can come at any point. Generic functions, methods and jumps of inline
assembly are left out. The flat `body` of a function is not read here.
-/

namespace Lucis.MoveCheck

open Ownership List Option Function

/-- A name that `locals_` holds for one part of the body: the variable of a `for`, a `catch` or
a comprehension, or what `is` or a match pattern binds. Afterwards the entry is erased, or the
one it replaced is put back. -/
structure Binding where
  name : Text
  vi : VarInfo
  restores : Bool

/-- How the run of a part comes to its end; with `ended` the whole run does. -/
inductive Outcome where
  | next
  | brk
  | cont
  | thrown
  | ended
  deriving DecidableEq

inductive Effect where
  | use (name : Text) (pos : Nat)
  | move (name : Text) (pos : Nat)
  | call (callee : Text) (args : List (Option Text)) (pos : Nat)

/-- The last three differ in the walk and in a run: `echo` is looked at but not run there (a
second resolution, the body of a closure), `later` is looked at before it runs, and `leak` is
what a block closure declares. -/
inductive Code where
  | effect (e : Effect)
  | declare (name : Text) (vi : VarInfo) (source : Option Text) (pos : Nat)
  | assign (name : Text) (ownership : OwnershipState) (source : Option Text) (pos : Nat)
  | seq (first rest : Code)
  | either (first second : Code)
  | block (binding : Option Binding) (body : Code)
  | bind (binding : Binding) (body : Code)
  | loop (body : Code)
  | upTo (way : Outcome) (body : Code)
  | attempt (body handlers : Code)
  | jump (way : Outcome)
  | echo (code : Code)
  | later (e : Effect)
  | leak (name : Text) (vi : VarInfo)

def Code.quiet : Code → Bool
  | declare _ _ _ _ => false
  | assign _ _ _ _ => false
  | effect _ => true
  | block _ _ => true
  | jump _ => true
  | later _ => true
  | leak _ _ => true
  | seq first rest => first.quiet && rest.quiet
  | either first second => first.quiet && second.quiet
  | attempt body handlers => body.quiet && handlers.quiet
  | bind _ body => body.quiet
  | loop body => body.quiet
  | upTo _ body => body.quiet
  | echo code => code.quiet

def Code.shaped : Code → Bool
  | seq first rest => first.shaped && rest.shaped
  | block _ body => body.shaped
  | either first second => first.quiet && second.quiet && first.shaped && second.shaped
  | attempt body handlers => body.quiet && handlers.quiet && body.shaped && handlers.shaped
  | bind _ body => body.quiet && body.shaped
  | loop body => body.quiet && body.shaped
  | upTo _ body => body.quiet && body.shaped
  | echo code => code.quiet && code.shaped
  | _ => true

abbrev Body := { code : Code // code.shaped = true }

abbrev Part := { code : Code // code.quiet = true ∧ code.shaped = true }

section Statements

def Part.body (p : Part) : Body := ⟨p.val, p.property.2⟩

def Part.ofEffect (e : Effect) : Part := ⟨.effect e, rfl, rfl⟩

def Part.jump (way : Outcome) : Part := ⟨.jump way, rfl, rfl⟩

def Part.skip : Part := .jump .next

def Part.seq (p q : Part) : Part :=
  ⟨.seq p.val q.val, by simp [Code.quiet, p.property.1, q.property.1],
    by simp [Code.shaped, p.property.2, q.property.2]⟩

def Part.either (p q : Part) : Part :=
  ⟨.either p.val q.val, by simp [Code.quiet, p.property.1, q.property.1],
    by simp [Code.shaped, p.property.1, p.property.2, q.property.1, q.property.2]⟩

def Part.bind (binding : Binding) (p : Part) : Part :=
  ⟨.bind binding p.val, by simp [Code.quiet, p.property.1],
    by simp [Code.shaped, p.property.1, p.property.2]⟩

def Part.loop (p : Part) : Part :=
  ⟨.loop p.val, by simp [Code.quiet, p.property.1],
    by simp [Code.shaped, p.property.1, p.property.2]⟩

def Part.upTo (way : Outcome) (p : Part) : Part :=
  ⟨.upTo way p.val, by simp [Code.quiet, p.property.1],
    by simp [Code.shaped, p.property.1, p.property.2]⟩

def Part.attempt (p handlers : Part) : Part :=
  ⟨.attempt p.val handlers.val, by simp [Code.quiet, p.property.1, handlers.property.1],
    by simp [Code.shaped, p.property.1, p.property.2, handlers.property.1, handlers.property.2]⟩

def Body.declare (name : Text) (vi : VarInfo) (source : Option Text) (pos : Nat) : Body :=
  ⟨.declare name vi source pos, rfl⟩

def Body.assign (name : Text) (ownership : OwnershipState) (source : Option Text) (pos : Nat) : Body :=
  ⟨.assign name ownership source pos, rfl⟩

def Body.seq (b c : Body) : Body :=
  ⟨.seq b.val c.val, by simp [Code.shaped, b.property, c.property]⟩

def inlineBlockStmt (statements : List Body) : Body := statements.foldr .seq Part.skip.body

def checkedBlock (binding : Option Binding) (b : Body) : Part :=
  ⟨.block binding b.val, rfl, b.property⟩

def nakedBlockStmt (statements : List Body) : Part :=
  checkedBlock none (inlineBlockStmt statements)

/-- The body of a loop, which `continue` comes to the end of. -/
def loopBody (binding : Option Binding) (b : Body) : Part := (checkedBlock binding b).upTo .cont

def returnStmt (expr : Part) (source : Option Text) (pos : Nat) : Part :=
  match source with
  | none => expr.seq (.jump .ended)
  | some name => (expr.seq (.ofEffect (.move name pos))).seq (.jump .ended)

/-- `rest` is what follows where the condition does not hold. -/
def ifStmt (cond : Part) (binding : Option Binding) (b : Body) (rest : Part) : Part :=
  cond.seq ((checkedBlock binding b).either rest)

def whileStmt (cond : Part) (b : Body) : Part :=
  (cond.seq (Part.either (.jump .brk) (loopBody none b))).loop.upTo .brk

def doWhileStmt (b : Body) (cond : Part) : Part :=
  ((loopBody none b).seq (cond.seq (Part.either (.jump .brk) .skip))).loop.upTo .brk

def loopStmt (b : Body) : Part := (loopBody none b).loop.upTo .brk

def forInStmt (iterable : Part) (binding : Binding) (b : Body) : Part :=
  iterable.seq ((Part.either (.jump .brk) (loopBody (some binding) b)).loop.upTo .brk)

def forClassicStmt (first : Part) (binding : Binding) (cond update : Part) (b : Body) : Part :=
  first.seq (((cond.seq (update.seq (Part.either (.jump .brk) (loopBody none b)))).loop.upTo .brk).bind
    binding)

def switchStmt (expr : Part) (cases : List (Part × Body)) (defaultClause : Part) : Part :=
  expr.seq (cases.foldr
    (fun clause rest => clause.1.seq ((checkedBlock none clause.2).either rest)) defaultClause)

def tryCatchStmt (b : Body) (catches : List (Binding × Body)) (finallyClause : Part) : Part :=
  ((checkedBlock none b).attempt (catches.foldr
    (fun clause rest => (checkedBlock (some clause.1) clause.2).either rest) (.jump .thrown))).seq
    finallyClause

end Statements

section Walk

variable (fn : Function)

def Effect.action : Effect → Action
  | use name pos => .use name pos
  | move name pos => .move name pos
  | call callee args pos => .call callee args pos

def initialization (source : Option Text) (action : Action) (pos : Nat) (s : State) : State :=
  match source with
  | none => act fn s action
  | some name => markExprAsMoved fn name pos (act fn (validateExprNotMoved name pos s) action)

def entered (binding : Option Binding) (s : State) : State :=
  match binding with
  | none => s
  | some b => { s with locals := Function.update s.locals b.name (some b.vi) }

def Binding.leave (b : Binding) (before after : Locals) : Locals :=
  Function.update after b.name (if b.restores then before b.name else none)

/-- `locals_` after a block: the saved map, without the name bound for the block. -/
def restored (binding : Option Binding) (before : Locals) : Locals :=
  match binding with
  | none => before
  | some b => b.leave before before

def check : Code → State → State
  | .effect e, s => act fn s e.action
  | .declare name vi source pos, s => initialization fn source (.declare name vi) pos s
  | .assign name ownership source pos, s => initialization fn source (.assign name ownership) pos s
  | .seq first rest, s => check rest (check first s)
  | .either first second, s => check second (check first s)
  -- what the body did to the entries of the outer variables is lost here
  | .block binding body, s =>
    { check body (entered binding s) with locals := restored binding s.locals }
  | .bind binding body, s =>
    { check body (entered (some binding) s) with
      locals := binding.leave s.locals (check body (entered (some binding) s)).locals }
  | .loop body, s => check body s
  | .upTo _ body, s => check body s
  | .attempt body handlers, s => check handlers (check body s)
  | .jump _, s => s
  | .echo code, s => check code s
  | .later e, s => act fn s e.action
  | .leak name vi, s => act fn s (.declare name vi)

def entry (globals : Locals) (s : State) : State :=
  { s with locals := entryLocals globals fn.params, errors := [] }

def Accepted (globals : Locals) (s : State) (body : Body) : Prop :=
  (check fn body.val (entry fn globals s)).errors = []

instance (globals : Locals) (s : State) (body : Body) : Decidable (Accepted fn globals s body) :=
  inferInstanceAs (Decidable (_ = _))

end Walk

section Runs

/-- A variable at run time. `owed` is a move that a deferred statement has still to make. -/
structure Var where
  tracked : Bool
  moved : Bool
  owed : Bool
  deriving DecidableEq

def Var.move (v : Var) : Var := { v with moved := true }

def Var.owe (v : Var) : Var := { v with owed := true }

def Var.settle (v : Var) : Var := { v with moved := true, owed := false }

def Var.revive (v : Var) : Var := { v with moved := false }

def Var.taken (v : Var) : Bool := v.moved || v.owed

variable (v : Var)

theorem Var.move_again : v.move.move = v.move := rfl

theorem Var.move_tracked : v.move.tracked = v.tracked := rfl

theorem Var.owe_again : v.owe.owe = v.owe := rfl

theorem Var.owe_tracked : v.owe.tracked = v.tracked := rfl

theorem Var.revive_again : v.revive.revive = v.revive := rfl

theorem Var.revive_tracked : v.revive.tracked = v.tracked := rfl

/-- The declarations of one name are told apart by when they were run; `env` is the one in scope. -/
structure Run where
  env : Text → Option Nat
  vars : Text → Nat → Var
  next : Nat

def Run.write (r : Run) (name : Text) (n : Nat) (v : Var) : Run :=
  { r with vars := Function.update r.vars name (Function.update (r.vars name) n v) }

def Run.touch (f : Var → Var) (r : Run) (name : Text) : Run :=
  match r.env name with
  | none => r
  | some n => r.write name n (f (r.vars name n))

def Run.touchAll (f : Var → Var) (names : List Text) (r : Run) : Run :=
  names.foldl (Run.touch f) r

def Run.push (r : Run) (name : Text) (vi : VarInfo) : Run :=
  { r.write name r.next ⟨vi.dropTracked, false, false⟩ with
    env := Function.update r.env name (some r.next)
    next := r.next + 1 }

def Run.entered (binding : Option Binding) (r : Run) : Run :=
  match binding with
  | none => r
  | some b => r.push b.name b.vi

def Run.back (before after : Run) : Run := { after with env := before.env }

def Run.enter (locals : Locals) : Run where
  env name := (locals name).map fun _ => 0
  vars name _ := ⟨tracked locals name, false, false⟩
  next := 1

/-- With the variable as the step finds it. `stray` is a move by code that runs elsewhere than
where it is looked at. -/
inductive Event where
  | moved (name : Text) (v : Var)
  | assigned (name : Text) (v : Var)
  | left (before after : Run)
  | stray (name : Text) (v : Var)

def moving : List Text → Run → List Event
  | [], _ => []
  | name :: rest, r =>
    (r.env name).toList.map (fun n => .moved name (r.vars name n)) ++
      moving rest (r.touch Var.move name)

def assigning (name : Text) (r : Run) : List Event :=
  (r.env name).toList.map fun n => .assigned name (r.vars name n)

/-- The variables that an effect moves; `consumed` is what the functions called really consume. -/
def Effect.moves (consumed : Text → Indices) : Effect → List Text
  | use _ _ => []
  | move name _ => [name]
  | call callee args _ => argumentsAt args (consumed callee).val

inductive Exec (consumed : Text → Indices) :
    Code → Run → List Event → Outcome → Run → Prop where
  | cut (code : Code) (r : Run) : Exec consumed code r [] .ended r
  | stray {code r events out r'} (name : Text) (n : Nat) (run : Exec consumed code r events out r') :
      Exec consumed code r (events ++ [.stray name (r'.vars name n)]) out
        (r'.write name n (r'.vars name n).settle)
  -- a function that is called can throw
  | effect (e : Effect) (r : Run) (out : Outcome) (ways : out = .next ∨ out = .thrown) :
      Exec consumed (.effect e) r (moving (e.moves consumed) r) out
        (r.touchAll Var.move (e.moves consumed))
  | declare (name : Text) (vi : VarInfo) (source : Option Text) (pos : Nat) (r : Run) :
      Exec consumed (.declare name vi source pos) r (moving source.toList r) .next
        ((r.touchAll Var.move source.toList).push name vi)
  | assign (name : Text) (ownership : OwnershipState) (source : Option Text) (pos : Nat) (r : Run) :
      Exec consumed (.assign name ownership source pos) r
        (moving source.toList r ++ assigning name (r.touchAll Var.move source.toList)) .next
        ((r.touchAll Var.move source.toList).touch Var.revive name)
  | seq {first rest r events r' events' out r''} (begins : Exec consumed first r events .next r')
      (goes : Exec consumed rest r' events' out r'') :
      Exec consumed (.seq first rest) r (events ++ events') out r''
  | seq_stops {first r events out r'} (rest : Code) (begins : Exec consumed first r events out r')
      (stops : out ≠ .next) : Exec consumed (.seq first rest) r events out r'
  | either_first {first r events out r'} (second : Code)
      (run : Exec consumed first r events out r') :
      Exec consumed (.either first second) r events out r'
  | either_second {second r events out r'} (first : Code)
      (run : Exec consumed second r events out r') :
      Exec consumed (.either first second) r events out r'
  | block {binding body r events out r'} (run : Exec consumed body (r.entered binding) events out r')
      (goes : out ≠ .ended) :
      Exec consumed (.block binding body) r (events ++ [.left r r']) out (r.back r')
  | block_ended {binding body r events r'}
      (run : Exec consumed body (r.entered binding) events .ended r') :
      Exec consumed (.block binding body) r events .ended (r.back r')
  | bind {binding body r events out r'}
      (run : Exec consumed body (r.entered (some binding)) events out r') :
      Exec consumed (.bind binding body) r events out (r.back r')
  | turn {body r events r' events' out r''} (begins : Exec consumed body r events .next r')
      (goes : Exec consumed (.loop body) r' events' out r'') :
      Exec consumed (.loop body) r (events ++ .left r r' :: events') out r''
  | turn_stops {body r events out r'} (run : Exec consumed body r events out r')
      (stops : out ≠ .next) : Exec consumed (.loop body) r events out r'
  | upTo {way body r events r'} (run : Exec consumed body r events way r') (goes : way ≠ .ended) :
      Exec consumed (.upTo way body) r events .next r'
  | upTo_passes {way body r events out r'} (run : Exec consumed body r events out r')
      (other : out ≠ way) : Exec consumed (.upTo way body) r events out r'
  | attempt {body r events out r'} (handlers : Code) (run : Exec consumed body r events out r') :
      Exec consumed (.attempt body handlers) r events out r'
  | caught {body handlers r events r' events' out r''}
      (begins : Exec consumed body r events .thrown r')
      (goes : Exec consumed handlers r' events' out r'') :
      Exec consumed (.attempt body handlers) r (events ++ events') out r''
  | jump (way : Outcome) (r : Run) : Exec consumed (.jump way) r [] way r
  | echo (code : Code) (r : Run) : Exec consumed (.echo code) r [] .next r
  | later (e : Effect) (r : Run) :
      Exec consumed (.later e) r [] .next (r.touchAll Var.owe (e.moves consumed))
  | leak (name : Text) (vi : VarInfo) (r : Run) : Exec consumed (.leak name vi) r [] .next r

def Event.Double : Event → Prop
  | moved _ v => v.tracked = true ∧ v.moved = true
  | stray _ v => v.tracked = true ∧ v.moved = true
  | _ => False

/-- What a step must keep to. At the end of a block, and between two turns of a loop, no variable
of before is newly moved, nor newly owed; an assignment revives no variable that a deferred
statement is still to move; code that runs out of its place moves only what is owed. -/
def Event.Kept : Event → Prop
  | moved _ _ => True
  | assigned _ v => v.tracked = true → v.owed = false
  | left before after => ∀ name n, n < before.next → (before.vars name n).tracked = true →
      (after.vars name n).taken = true → (before.vars name n).taken = true
  | stray _ v => v.tracked = true → v.owed = true

end Runs

section Sight

variable (fn : Function)

def Effect.Seen (consumed : Text → Indices) (s : State) : Effect → Prop
  | use _ _ => True
  | move _ _ => True
  | call callee args _ => ∀ i ∈ (consumed callee).val, ∀ name, argument args i = some name →
      tracked s.locals name = true → i ∈ (s.userFunctionConsumingArgs callee).val

def Binding.Clear (b : Binding) (s : State) : Prop :=
  b.restores = true ∨ tracked s.locals b.name = false

def nothing : Text → Indices := fun _ => ⟨[], List.nodup_nil⟩

/-- Where the walk comes to a call it knows what the callee consumes, and no entry of a tracked

variable is erased or overwritten by a name that is not declared in its scope. -/
def Seen : (Text → Indices) → Code → State → Prop
  | consumed, .effect e, s => e.Seen consumed s
  | consumed, .later e, s => e.Seen consumed s
  | _, .declare _ _ _ _, _ => True
  | _, .assign _ _ _ _, _ => True
  | consumed, .seq first rest, s => Seen consumed first s ∧ Seen consumed rest (check fn first s)
  | consumed, .either first second, s =>
    Seen consumed first s ∧ Seen consumed second (check fn first s)
  | consumed, .attempt body handlers, s =>
    Seen consumed body s ∧ Seen consumed handlers (check fn body s)
  | consumed, .block binding body, s =>
    (∀ b ∈ binding, b.Clear s) ∧ Seen consumed body (entered binding s)
  | consumed, .bind binding body, s =>
    binding.Clear s ∧ Seen consumed body (entered (some binding) s)
  | consumed, .loop body, s => Seen consumed body s
  | consumed, .upTo _ body, s => Seen consumed body s
  | _, .jump _, _ => True
  | _, .echo code, s => Seen nothing code s
  | _, .leak name _, s => tracked s.locals name = false

end Sight

section Variables

variable (f : Var → Var) (r : Run) (name : Text)

theorem touch_env : (r.touch f name).env = r.env := by
  unfold Run.touch
  cases r.env name <;> rfl

theorem touch_next : (r.touch f name).next = r.next := by
  unfold Run.touch
  cases r.env name <;> rfl

theorem write_vars (n : Nat) (v : Var) (x : Text) (m : Nat) :
    (r.write name n v).vars x m = if x = name ∧ m = n then v else r.vars x m := by
  by_cases same : x = name
  · subst same
    by_cases here : m = n
    · simp [Run.write, here]
    · simp [Run.write, here]
  · simp [Run.write, same]

variable (x : Text)

theorem touch_vars (m : Nat) : (r.touch f name).vars x m =
      if x = name ∧ r.env x = some m then f (r.vars x m) else r.vars x m := by
  unfold Run.touch
  cases found : r.env name with
  | none =>
    by_cases same : x = name
    · simp [same, found]
    · simp [same]
  | some n =>
    rw [write_vars]
    by_cases same : x = name
    · subst same
      by_cases here : m = n
      · simp [found, here]
      · have other : ¬n = m := fun equal => here equal.symm
        simp [found, here, other]
    · simp [same]

variable (names : List Text)

theorem touchAll_env (r : Run) :
    (r.touchAll f names).env = r.env := by
  induction names generalizing r with
  | nil => rfl
  | cons name rest ih =>
    rw [Run.touchAll, foldl_cons, ← Run.touchAll, ih, touch_env]

theorem touchAll_next (r : Run) :
    (r.touchAll f names).next = r.next := by
  induction names generalizing r with
  | nil => rfl
  | cons name rest ih =>
    rw [Run.touchAll, foldl_cons, ← Run.touchAll, ih, touch_next]

variable {f : Var → Var}

theorem touchAll_vars (again : ∀ v, f (f v) = f v) (names : List Text) (r : Run)
    (x : Text) (m : Nat) : (r.touchAll f names).vars x m =
      if x ∈ names ∧ r.env x = some m then f (r.vars x m) else r.vars x m := by
  induction names generalizing r with
  | nil => simp [Run.touchAll]
  | cons name rest ih =>
    rw [Run.touchAll, foldl_cons, ← Run.touchAll, ih, touch_env, touch_vars]
    by_cases same : x = name
    · subst same
      by_cases here : r.env x = some m
      · simp [here, again]
      · simp [here]
    · simp [same]

theorem touch_tracked (same : ∀ v, (f v).tracked = v.tracked) (r : Run)
    (name x : Text) (m : Nat) : ((r.touch f name).vars x m).tracked = (r.vars x m).tracked := by
  rw [touch_vars]
  split
  · exact same _
  · rfl

theorem touchAll_tracked (same : ∀ v, (f v).tracked = v.tracked)
    (names : List Text) (r : Run) (x : Text) (m : Nat) :
    ((r.touchAll f names).vars x m).tracked = (r.vars x m).tracked := by
  induction names generalizing r with
  | nil => rfl
  | cons name rest ih =>
    rw [Run.touchAll, foldl_cons, ← Run.touchAll, ih, touch_tracked same]

variable (vi : VarInfo)

theorem push_vars (m : Nat) :
    (r.push name vi).vars x m =
      if x = name ∧ m = r.next then ⟨vi.dropTracked, false, false⟩ else r.vars x m :=
  write_vars r name r.next _ x m

theorem push_env :
    (r.push name vi).env x = if x = name then some r.next else r.env x := by
  by_cases same : x = name
  · subst same
    simp [Run.push]
  · simp [Run.push, same]

variable {names : List Text} {e : Event}

theorem moving_double {r : Run} (member : e ∈ moving names r)
    (double : e.Double) : ∃ x m, r.env x = some m ∧ (r.vars x m).tracked = true ∧
      ((r.vars x m).moved = true ∧ 1 ≤ names.count x ∨ 2 ≤ names.count x) := by
  induction names generalizing r with
  | nil => cases member
  | cons name rest ih =>
    rcases mem_append.1 member with here | later
    · rcases List.mem_map.1 here with ⟨n, found, rfl⟩
      have inScope : r.env name = some n := mem_toList.1 found
      exact ⟨name, n, inScope, double.1, .inl ⟨double.2, by simp⟩⟩
    · rcases ih later with ⟨x, m, inScope, held, again⟩
      rw [touch_env] at inScope
      rw [touch_vars] at held again
      refine ⟨x, m, inScope, ?_⟩
      by_cases same : x = name
      · subst same
        simp only [inScope, and_self, if_true] at held again
        refine ⟨held, .inr ?_⟩
        rw [count_cons_self]
        rcases again with ⟨_, once⟩ | twice
        · exact Nat.succ_le_succ once
        · exact Nat.le_succ_of_le twice
      · rw [if_neg (fun both => same both.1)] at held again
        have other : ¬name = x := fun equal => same equal.symm
        exact ⟨held, by simpa [count_cons, other] using again⟩

theorem moving_kept {r : Run} (member : e ∈ moving names r) :
    e.Kept := by
  induction names generalizing r with
  | nil => cases member
  | cons name rest ih =>
    rcases mem_append.1 member with here | later
    · rcases List.mem_map.1 here with ⟨n, _, rfl⟩
      trivial
    · exact ih later

end Variables

section Reports

variable (fn : Function)

theorem use_locals (name : Text) (pos : Nat) (s : State) :
    (validateExprNotMoved name pos s).locals = s.locals := by
  unfold validateExprNotMoved
  cases s.locals name with
  | none => rfl
  | some vi =>
    simp only
    split <;> rfl

variable {s : State}

variable {pos : Nat}

theorem use_silent {name : Text} (silent : (validateExprNotMoved name pos s).errors = []) :
    s.errors = [] ∧ (tracked s.locals name = true → gone s.locals name = false) := by
  unfold validateExprNotMoved at silent
  unfold tracked gone
  cases found : s.locals name with
  | none =>
    rw [found] at silent
    exact ⟨silent, by simp⟩
  | some vi =>
    rw [found] at silent
    simp only at silent
    split at silent
    · simp at silent
    · next held =>
        refine ⟨silent, fun dropTracked => ?_⟩
        simp only [any_some] at dropTracked ⊢
        simpa [dropTracked] using held

def Effect.marks (s : State) (e : Effect) : List Text := e.moves s.userFunctionConsumingArgs

theorem effect_locals (e : Effect) (s : State) (y : Text) : (act fn s e.action).locals y =
      if y ∈ e.marks s then (s.locals y).map VarInfo.move else s.locals y := by
  cases e with
  | use name pos =>
    rw [Effect.action, act, use_locals]
    simp [Effect.marks, Effect.moves]
  | move name pos =>
    rw [Effect.action, act, mark_locals]
    by_cases same : y = name
    · subst same
      simp [Effect.marks, Effect.moves]
    · simp [Effect.marks, Effect.moves, same]
  | call callee args pos =>
    rw [Effect.action, act, call_locals, markAll_locals]
    rfl

theorem effect_silent {e : Effect} (silent : (act fn s e.action).errors = []) :
    s.errors = [] ∧ ∀ y ∈ e.marks s, tracked s.locals y = true →
      gone s.locals y = false ∧ (e.marks s).count y ≤ 1 := by
  cases e with
  | use name pos => exact ⟨(use_silent silent).1, fun y member => absurd member not_mem_nil⟩
  | move name pos =>
    rw [Effect.action, act, mark_errors, append_eq_nil_iff] at silent
    refine ⟨silent.1, fun y member held => ?_⟩
    obtain rfl := mem_singleton.1 member
    refine ⟨?_, by simp [Effect.marks, Effect.moves]⟩
    cases before : gone s.locals y with
    | false => rfl
    | true => simp [held, before] at silent
  | call callee args pos =>
    have noError : ∀ err, err ∉ (markAll fn pos
        (argumentsAt args (s.userFunctionConsumingArgs callee).val) s).errors := by
      rw [Effect.action, act, call_errors] at silent
      rw [silent]
      exact fun err => not_mem_nil
    constructor
    · refine eq_nil_iff_forall_not_mem.2 fun err member => noError err ?_
      exact (markAll_errors fn pos _ s err).2 (.inl member)
    · intro y member held
      have silentAt := noError (.doubleMove y pos)
      rw [markAll_errors] at silentAt
      have unmarked : ¬(gone s.locals y ∧ 1 ≤ (Effect.marks s (.call callee args pos)).count y ∨
          2 ≤ (Effect.marks s (.call callee args pos)).count y) :=
        fun twice => silentAt (.inr ⟨y, rfl, held, twice⟩)
      rw [not_or, not_and] at unmarked
      constructor
      · cases before : gone s.locals y with
        | false => rfl
        | true => exact absurd (one_le_count_iff.2 member) (unmarked.1 before)
      · exact Nat.le_of_lt_succ (Nat.lt_of_not_le unmarked.2)

theorem initialization_silent {source} {action : Action}
    (quiet : (act fn (source.elim s (validateExprNotMoved · pos s)) action).errors =
      (source.elim s (validateExprNotMoved · pos s)).errors)
    (silent : (initialization fn source action pos s).errors = []) :
    s.errors = [] ∧ ∀ name ∈ source, tracked s.locals name = true → gone s.locals name = false := by
  cases source with
  | none =>
    rw [Option.elim] at quiet
    exact ⟨quiet ▸ silent, fun name member => by cases member⟩
  | some name =>
    rw [Option.elim] at quiet
    rw [initialization, mark_errors, append_eq_nil_iff, quiet] at silent
    rcases use_silent silent.1 with ⟨before, held⟩
    refine ⟨before, fun x member => ?_⟩
    obtain rfl := mem_some_iff.1 member
    exact held

theorem check_silent (code : Code) (s : State) (silent : (check fn code s).errors = []) :
    s.errors = [] := by
  induction code generalizing s with
  | effect e => exact (effect_silent fn silent).1
  | later e => exact (effect_silent fn silent).1
  | declare name vi source pos => exact (initialization_silent fn rfl silent).1
  | assign name ownership source pos => exact (initialization_silent fn rfl silent).1
  | seq first rest first_ih rest_ih => exact first_ih s (rest_ih _ silent)
  | either first second first_ih second_ih => exact first_ih s (second_ih _ silent)
  | attempt body handlers body_ih handlers_ih => exact body_ih s (handlers_ih _ silent)
  | block binding body ih =>
    have before := ih (entered binding s) silent
    cases binding <;> exact before
  | bind binding body ih => exact ih (entered (some binding) s) silent
  | loop body ih => exact ih s silent
  | upTo way body ih => exact ih s silent
  | echo code ih => exact ih s silent
  | jump way => exact silent
  | leak name vi => exact silent

end Reports

section Cover

variable (fn : Function)

def Covers (locals : Locals) (r : Run) : Prop :=
  ∀ x m, r.env x = some m → (r.vars x m).tracked = true →
    tracked locals x = true ∧ ((r.vars x m).taken = true → gone locals x = true)

def Grown (before after : Locals) : Prop :=
  ∀ x, tracked before x = true →
    tracked after x = true ∧ (gone before x = true → gone after x = true)

variable {after : Locals}

theorem Grown.trans {before between : Locals} (first : Grown before between)
    (second : Grown between after) : Grown before after := by
  intro x held
  rcases first x held with ⟨heldBetween, goneBetween⟩
  rcases second x heldBetween with ⟨heldAfter, goneAfter⟩
  exact ⟨heldAfter, goneAfter ∘ goneBetween⟩

theorem Covers.grow {before : Locals} {r : Run} (covers : Covers before r)
    (grown : Grown before after) : Covers after r := by
  intro x m inScope held
  rcases covers x m inScope held with ⟨heldBefore, goneBefore⟩
  rcases grown x heldBefore with ⟨heldAfter, goneAfter⟩
  exact ⟨heldAfter, goneAfter ∘ goneBefore⟩

variable (e : Effect) (s : State) (y : Text)

theorem effect_tracked :
    tracked (act fn s e.action).locals y = tracked s.locals y := by
  unfold tracked
  rw [effect_locals]
  split
  · cases s.locals y <;> simp
  · rfl

theorem effect_gone : gone (act fn s e.action).locals y =
      (gone s.locals y || (decide (y ∈ e.marks s) && tracked s.locals y)) := by
  unfold gone tracked
  rw [effect_locals]
  by_cases marked : y ∈ e.marks s
  · cases s.locals y <;> simp [marked, move_gone]
  · simp [marked]

theorem effect_grown : Grown s.locals (act fn s e.action).locals := by
  intro x held
  rw [effect_tracked, effect_gone]
  exact ⟨held, fun before => by simp [before]⟩

variable {s : State} {b : Binding}

theorem leave_grown (clear : b.Clear s) (inner : ∀ x, x ≠ b.name → tracked s.locals x = true →
      tracked after x = true ∧ (gone s.locals x = true → gone after x = true)) :
    Grown s.locals (b.leave s.locals after) := by
  intro x held
  unfold tracked gone Binding.leave
  by_cases same : x = b.name
  · subst same
    rw [Function.update_self]
    rcases clear with restores | untracked
    · rw [if_pos restores]
      exact ⟨held, id⟩
    · rw [untracked] at held
      cases held
  · rw [update_of_ne same]
    exact inner x same held

theorem restored_grown {binding}
    (clear : ∀ b ∈ binding, b.Clear s) : Grown s.locals (restored binding s.locals) := by
  cases binding with
  | none => exact fun x held => ⟨held, id⟩
  | some b => exact leave_grown (clear b rfl) fun x _ held => ⟨held, id⟩

variable {x : Text}

theorem entered_tracked (other : x ≠ b.name) (s : State) :
    tracked (entered (some b) s).locals x = tracked s.locals x := by
  simp [tracked, entered, other]

theorem entered_gone (other : x ≠ b.name) (s : State) :
    gone (entered (some b) s).locals x = gone s.locals x := by
  simp [gone, entered, other]

variable {consumed : Text → Indices}

theorem check_grown {code : Code} (quiet : code.quiet = true)
    (seen : Seen fn consumed code s) : Grown s.locals (check fn code s).locals := by
  induction code generalizing consumed s with
  | effect e => exact effect_grown fn e s
  | later e => exact effect_grown fn e s
  | declare name vi source pos => cases quiet
  | assign name ownership source pos => cases quiet
  | seq first rest first_ih rest_ih =>
    simp only [Code.quiet, Bool.and_eq_true] at quiet
    exact (first_ih quiet.1 seen.1).trans (rest_ih quiet.2 seen.2)
  | either first second first_ih second_ih =>
    simp only [Code.quiet, Bool.and_eq_true] at quiet
    exact (first_ih quiet.1 seen.1).trans (second_ih quiet.2 seen.2)
  | attempt body handlers body_ih handlers_ih =>
    simp only [Code.quiet, Bool.and_eq_true] at quiet
    exact (body_ih quiet.1 seen.1).trans (handlers_ih quiet.2 seen.2)
  | block binding body _ => exact restored_grown seen.1
  | bind binding body ih =>
    refine leave_grown seen.1 fun x other held => ?_
    have inner := ih quiet seen.2 x
    rw [entered_tracked other, entered_gone other] at inner
    exact inner held
  | loop body ih => exact ih quiet seen
  | upTo way body ih => exact ih quiet seen
  | echo code ih => exact ih quiet seen
  | jump way => exact fun x held => ⟨held, id⟩
  | leak name vi =>
    intro x held
    have other : x ≠ name := by
      rintro rfl
      rw [seen] at held
      cases held
    have same : (check fn (.leak name vi) s).locals x = s.locals x :=
      update_of_ne other _ _
    unfold tracked gone
    rw [same]
    exact ⟨held, id⟩

theorem moves_marked {e : Effect} (seen : e.Seen consumed s)
    (held : tracked s.locals x = true) : (e.moves consumed).count x ≤ (e.marks s).count x := by
  cases e with
  | use name pos => exact Nat.le_refl _
  | move name pos => exact Nat.le_refl _
  | call callee args pos =>
    apply count_argumentsAt_le args (consumed callee).property x
    intro i there member
    exact seen i member x there held

end Cover

section Steps

def Free (names : List Text) (r : Run) : Prop :=
  ∀ x ∈ names, ∀ m, r.env x = some m → (r.vars x m).tracked = true →
    (r.vars x m).taken = false ∧ names.count x ≤ 1

/-- The scope holds variables that were declared, and what is still owed was not moved. -/
structure Steady (r : Run) : Prop where
  fresh : ∀ x m, r.env x = some m → m < r.next
  sound : ∀ x m, (r.vars x m).tracked = true → (r.vars x m).owed = true →
    (r.vars x m).moved = false

structure Trail (r r' : Run) : Prop where
  next : r.next ≤ r'.next
  tracked : ∀ x m, m < r.next → (r'.vars x m).tracked = (r.vars x m).tracked
  hidden : ∀ x m, m < r.next → r.env x ≠ some m → (r.vars x m).tracked = true →
    (r'.vars x m).taken = true → (r.vars x m).taken = true
  scope : ∀ x m, r'.env x = some m → r.env x = some m ∨ r.next ≤ m

theorem Trail.refl (r : Run) : Trail r r where
  next := Nat.le_refl _
  tracked _ _ _ := rfl
  hidden _ _ _ _ _ taken := taken
  scope _ _ inScope := .inl inScope

variable {r r' : Run}

theorem Trail.trans {r'' : Run} (first : Trail r r') (second : Trail r' r'') : Trail r r'' where
  next := Nat.le_trans first.next second.next
  tracked x m old :=
    (second.tracked x m (Nat.lt_of_lt_of_le old first.next)).trans (first.tracked x m old)
  hidden x m old other held taken := by
    have later : m < r'.next := Nat.lt_of_lt_of_le old first.next
    have still : r'.env x ≠ some m := by
      intro inScope
      rcases first.scope x m inScope with before | fresh
      · exact other before
      · exact absurd old (Nat.not_lt_of_le fresh)
    have heldLater : (r'.vars x m).tracked = true := (first.tracked x m old).trans held
    exact first.hidden x m old other held (second.hidden x m later still heldLater taken)
  scope x m inScope := by
    rcases second.scope x m inScope with before | fresh
    · exact first.scope x m before
    · exact .inr (Nat.le_trans first.next fresh)

theorem Trail.back (trail : Trail r r') : Trail r (r.back r') where
  next := trail.next
  tracked := trail.tracked
  hidden := trail.hidden
  scope _ _ inScope := .inl inScope

theorem Trail.touchAll {f : Var → Var} (again : ∀ v, f (f v) = f v)
    (same : ∀ v, (f v).tracked = v.tracked) (names : List Text) (r : Run) :
    Trail r (r.touchAll f names) where
  next := Nat.le_of_eq (touchAll_next f names r).symm
  tracked x m _ := touchAll_tracked same names r x m
  hidden x m _ other _ taken := by
    rw [touchAll_vars again, if_neg (fun both => other both.2)] at taken
    exact taken
  scope x m inScope := by
    rw [touchAll_env] at inScope
    exact .inl inScope

theorem Trail.push (r : Run) (name : Text) (vi : VarInfo) : Trail r (r.push name vi) where
  next := Nat.le_succ r.next
  tracked x m old := by
    rw [push_vars, if_neg (fun both => absurd both.2 (Nat.ne_of_lt old))]
  hidden x m old _ _ taken := by
    rw [push_vars, if_neg (fun both => absurd both.2 (Nat.ne_of_lt old))] at taken
    exact taken
  scope x m inScope := by
    rw [push_env] at inScope
    split at inScope
    · exact .inr (Nat.le_of_eq (Option.some.inj inScope))
    · exact .inl inScope

theorem Trail.entered (binding : Option Binding) (r : Run) : Trail r (r.entered binding) := by
  cases binding with
  | none => exact .refl r
  | some b => exact .push r b.name b.vi

theorem Steady.back (steady : Steady r) (after : Steady r') (trail : Trail r r') :
    Steady (r.back r') where
  fresh x m inScope := Nat.lt_of_lt_of_le (steady.fresh x m inScope) trail.next
  sound := after.sound

theorem Steady.push (steady : Steady r) (name : Text) (vi : VarInfo) : Steady (r.push name vi) where
  fresh x m inScope := by
    rw [push_env] at inScope
    split at inScope
    · exact Nat.lt_succ_of_le (Nat.le_of_eq (Option.some.inj inScope).symm)
    · exact Nat.lt_succ_of_lt (steady.fresh x m inScope)
  sound x m held owed := by
    rw [push_vars] at held owed ⊢
    split at owed
    · cases owed
    · next other =>
        rw [if_neg other] at held ⊢
        exact steady.sound x m held owed

theorem Steady.revive (steady : Steady r) (name : Text) : Steady (r.touch Var.revive name) where
  fresh x m inScope := by
    rw [touch_env] at inScope
    rw [touch_next]
    exact steady.fresh x m inScope
  sound x m held owed := by
    rw [touch_vars] at held owed ⊢
    split at owed
    · next here => rw [if_pos here, Var.revive]
    · next other =>
        rw [if_neg other] at held ⊢
        exact steady.sound x m held owed

theorem Steady.entered (steady : Steady r) (binding : Option Binding) :
    Steady (r.entered binding) := by
  cases binding with
  | none => exact steady
  | some b => exact steady.push b.name b.vi

theorem taken_false {v : Var} : v.taken = false ↔ v.moved = false ∧ v.owed = false := by
  unfold Var.taken
  rw [Bool.or_eq_false_iff]

variable {names : List Text}

theorem Free.once (free : Free names r) : ∀ e ∈ moving names r, ¬e.Double := by
  intro e member double
  rcases moving_double member double with ⟨x, m, inScope, held, again⟩
  have named : x ∈ names := by
    apply one_le_count_iff.mp
    rcases again with ⟨_, once⟩ | twice
    · exact once
    · exact Nat.le_of_succ_le twice
  rcases free x named m inScope held with ⟨untaken, once⟩
  rcases again with ⟨moved, _⟩ | twice
  · rw [(taken_false.1 untaken).1] at moved
    cases moved
  · exact absurd twice (Nat.not_le_of_lt (Nat.lt_succ_of_le once))

theorem Free.steady_move (free : Free names r) (steady : Steady r) :
    Steady (r.touchAll Var.move names) where
  fresh x m inScope := by
    rw [touchAll_env] at inScope
    rw [touchAll_next]
    exact steady.fresh x m inScope
  sound x m held owed := by
    rw [touchAll_vars Var.move_again] at held owed ⊢
    split at owed
    · next here =>
        rw [if_pos here] at held
        have untaken := (free x here.1 m here.2 held).1
        rw [Var.move, (taken_false.1 untaken).2] at owed
        cases owed
    · next other =>
        rw [if_neg other] at held ⊢
        exact steady.sound x m held owed

theorem Free.steady_owe (free : Free names r) (steady : Steady r) :
    Steady (r.touchAll Var.owe names) where
  fresh x m inScope := by
    rw [touchAll_env] at inScope
    rw [touchAll_next]
    exact steady.fresh x m inScope
  sound x m held owed := by
    rw [touchAll_vars Var.owe_again] at held owed ⊢
    split at owed
    · next here =>
        rw [if_pos here] at held ⊢
        exact (taken_false.1 (free x here.1 m here.2 held).1).1
    · next other =>
        rw [if_neg other] at held ⊢
        exact steady.sound x m held owed

end Steps

section Safety

variable (fn : Function)

/-- What is kept by a part of a run. The walk covers its end where it goes on from there. -/
structure Safe (code : Code) (s : State) (r : Run) (events : List Event) (out : Outcome)
    (r' : Run) : Prop where
  once : ∀ e ∈ events, ¬e.Double
  steady : Steady r'
  trail : Trail r r'
  scope : code.quiet = true → r'.env = r.env
  covers : out = .next ∨ code.quiet = true ∧ out ≠ .ended → Covers (check fn code s).locals r'

variable {fn} {consumed : Text → Indices} {s : State} {r : Run} {e : Effect}

theorem Effect.free (seen : e.Seen consumed s)
    (silent : (act fn s e.action).errors = []) (covers : Covers s.locals r) :
    Free (e.moves consumed) r ∧ ∀ x ∈ e.moves consumed, ∀ m, r.env x = some m →
      (r.vars x m).tracked = true → x ∈ e.marks s := by
  have marked : ∀ x ∈ e.moves consumed, tracked s.locals x = true → x ∈ e.marks s := by
    intro x named held
    apply one_le_count_iff.mp
    exact Nat.le_trans (one_le_count_iff.mpr named) (moves_marked seen held)
  constructor
  · intro x named m inScope held
    rcases covers x m inScope held with ⟨heldThere, goneThere⟩
    rcases (effect_silent fn silent).2 x (marked x named heldThere) heldThere with ⟨present, once⟩
    refine ⟨?_, Nat.le_trans (moves_marked seen heldThere) once⟩
    cases taken : (r.vars x m).taken with
    | false => rfl
    | true =>
      rw [goneThere taken] at present
      cases present
  · intro x named m inScope held
    exact marked x named (covers x m inScope held).1

theorem Effect.covers {f : Var → Var} (again : ∀ v, f (f v) = f v)
    (same : ∀ v, (f v).tracked = v.tracked)
    (seen : e.Seen consumed s) (silent : (act fn s e.action).errors = []) (covers : Covers s.locals r) :
    Covers (act fn s e.action).locals (r.touchAll f (e.moves consumed)) := by
  intro x m inScope held
  rw [touchAll_env] at inScope
  rw [effect_tracked, effect_gone]
  rw [touchAll_vars again] at held ⊢
  by_cases named : x ∈ e.moves consumed
  · rw [if_pos ⟨named, inScope⟩, same] at held
    have heldThere := (covers x m inScope held).1
    refine ⟨heldThere, fun _ => ?_⟩
    have marked := (Effect.free seen silent covers).2 x named m inScope held
    simp [marked, heldThere]
  · rw [if_neg (fun both => named both.1)] at held ⊢
    rcases covers x m inScope held with ⟨heldThere, goneThere⟩
    refine ⟨heldThere, fun taken => ?_⟩
    simp [goneThere taken]

variable {out : Outcome}

theorem safe_effect (seen : e.Seen consumed s)
    (silent : (act fn s e.action).errors = []) (covers : Covers s.locals r) (steady : Steady r) :
    Safe fn (.effect e) s r (moving (e.moves consumed) r) out
      (r.touchAll Var.move (e.moves consumed)) where
  once := (Effect.free seen silent covers).1.once
  steady := (Effect.free seen silent covers).1.steady_move steady
  trail := .touchAll Var.move_again Var.move_tracked _ r
  scope _ := touchAll_env _ _ r
  covers _ := Effect.covers Var.move_again Var.move_tracked seen silent covers

theorem safe_later (seen : e.Seen consumed s)
    (silent : (act fn s e.action).errors = []) (covers : Covers s.locals r) (steady : Steady r) :
    Safe fn (.later e) s r [] .next (r.touchAll Var.owe (e.moves consumed)) where
  once _ member := absurd member not_mem_nil
  steady := (Effect.free seen silent covers).1.steady_owe steady
  trail := .touchAll Var.owe_again Var.owe_tracked _ r
  scope _ := touchAll_env _ _ r
  covers _ := Effect.covers Var.owe_again Var.owe_tracked seen silent covers

variable {source : Option Text}

theorem source_free (covers : Covers s.locals r)
    (held : ∀ name ∈ source, tracked s.locals name = true → gone s.locals name = false) :
    Free source.toList r := by
  intro x named m inScope heldHere
  rcases covers x m inScope heldHere with ⟨heldThere, goneThere⟩
  constructor
  · cases taken : (r.vars x m).taken with
    | false => rfl
    | true =>
      have present := held x (mem_toList.1 named) heldThere
      rw [goneThere taken] at present
      cases present
  · cases source with
    | none => exact Nat.zero_le 1
    | some name =>
      rw [toList_some]
      exact count_le_length

theorem initialization_tracked (source : Option Text) (action : Action) (pos : Nat) (s : State)
    (y : Text) (before : ∀ name ∈ source, (act fn (validateExprNotMoved name pos s) action).locals =
      (act fn s action).locals) : tracked (initialization fn source action pos s).locals y =
      tracked (act fn s action).locals y := by
  cases source with
  | none => rfl
  | some name => rw [initialization, mark_tracked, before name rfl]

theorem initialization_gone (source : Option Text) (action : Action) (pos : Nat) (s : State)
    (y : Text) (before : ∀ name ∈ source, (act fn (validateExprNotMoved name pos s) action).locals =
      (act fn s action).locals) : gone (initialization fn source action pos s).locals y =
      (gone (act fn s action).locals y ||
        (decide (y ∈ source.toList) && tracked (act fn s action).locals y)) := by
  cases source with
  | none => simp [initialization]
  | some name =>
    rw [initialization, mark_gone, before name rfl]
    by_cases same : y = name
    · simp [same]
    · simp [same]

variable {pos : Nat}

theorem source_covers {action : Action}
    (before : ∀ name ∈ source, (act fn (validateExprNotMoved name pos s) action).locals =
      (act fn s action).locals)
    {x : Text} (other : (act fn s action).locals x = s.locals x) {m : Nat} (inScope : r.env x = some m)
    (covers : Covers s.locals r) (held : (r.vars x m).tracked = true) :
    tracked (initialization fn source action pos s).locals x = true ∧
      (((r.touchAll Var.move source.toList).vars x m).taken = true →
        gone (initialization fn source action pos s).locals x = true) := by
  rcases covers x m inScope held with ⟨heldThere, goneThere⟩
  have heldAfter : tracked (act fn s action).locals x = true := by
    unfold tracked
    rw [other]
    exact heldThere
  have goneAfter : gone (act fn s action).locals x = gone s.locals x := by
    unfold gone
    rw [other]
  rw [initialization_tracked source action pos s x before,
    initialization_gone source action pos s x before, heldAfter, goneAfter]
  refine ⟨rfl, fun taken => ?_⟩
  rw [touchAll_vars Var.move_again] at taken
  by_cases named : x ∈ source.toList
  · simp [named]
  · rw [if_neg (fun both => named both.1)] at taken
    simp [goneThere taken]

variable {name : Text}

variable {ownership : OwnershipState}

theorem assigned_tracked (held : tracked s.locals name = true) :
    tracked (act fn s (.assign name ownership)).locals name = true := by
  unfold tracked at held ⊢
  simp only [act, Function.update_self]
  cases found : s.locals name with
  | none => simp [found] at held
  | some vi =>
    simp only [found, any_some, map_some] at held ⊢
    rw [initialized, if_pos held]
    exact held

theorem safe_declare {vi : VarInfo}
    (silent : (check fn (.declare name vi source pos) s).errors = [])
    (covers : Covers s.locals r) (steady : Steady r) :
    Safe fn (.declare name vi source pos) s r (moving source.toList r) .next
      ((r.touchAll Var.move source.toList).push name vi) := by
  have free := source_free covers (initialization_silent fn rfl silent).2
  have before : ∀ x ∈ source, (act fn (validateExprNotMoved x pos s) (.declare name vi)).locals =
      (act fn s (.declare name vi)).locals := by
    intro x _
    simp [act, use_locals]
  constructor
  · exact free.once
  · exact (free.steady_move steady).push name vi
  · exact (Trail.touchAll Var.move_again Var.move_tracked _ r).trans (.push _ name vi)
  · intro quiet
    cases quiet
  · intro _ x m inScope held
    rw [push_env] at inScope
    rw [push_vars] at held ⊢
    by_cases same : x = name
    · subst same
      obtain rfl := Option.some.inj ((if_pos rfl).symm.trans inScope)
      simp only [and_self, if_true] at held ⊢
      constructor
      · rw [check, initialization_tracked source (.declare x vi) pos s x before]
        simpa [act, tracked] using held
      · intro taken
        cases taken
    · rw [if_neg same, touchAll_env] at inScope
      rw [if_neg (fun both => same both.1), touchAll_tracked Var.move_tracked] at held
      rw [if_neg (fun both => same both.1)]
      exact source_covers before (update_of_ne same _ _) inScope covers held

theorem safe_assign (silent : (check fn (.assign name ownership source pos) s).errors = [])
    (covers : Covers s.locals r) (steady : Steady r)
    (kept : ∀ e ∈ assigning name (r.touchAll Var.move source.toList), e.Kept) :
    Safe fn (.assign name ownership source pos) s r
      (moving source.toList r ++ assigning name (r.touchAll Var.move source.toList)) .next
      ((r.touchAll Var.move source.toList).touch Var.revive name) := by
  have free := source_free covers (initialization_silent fn rfl silent).2
  have before : ∀ x ∈ source,
      (act fn (validateExprNotMoved x pos s) (.assign name ownership)).locals =
        (act fn s (.assign name ownership)).locals := by
    intro x _
    simp [act, use_locals]
  constructor
  · intro e member
    rcases mem_append.1 member with moves | assigns
    · exact free.once e moves
    · rcases List.mem_map.1 assigns with ⟨n, _, rfl⟩
      exact id
  · exact (free.steady_move steady).revive name
  · exact (Trail.touchAll Var.move_again Var.move_tracked _ r).trans
      (.touchAll Var.revive_again Var.revive_tracked [name] _)
  · intro quiet
    cases quiet
  · intro _ x m inScope held
    rw [touch_tracked Var.revive_tracked] at held
    have heldBefore := held
    rw [touchAll_tracked Var.move_tracked] at heldBefore
    rw [touch_env] at inScope
    have inScopeBefore := inScope
    rw [touchAll_env] at inScopeBefore
    rw [touch_vars]
    by_cases same : x = name
    · subst same
      rw [if_pos ⟨rfl, inScope⟩]
      constructor
      · rw [check, initialization_tracked source (.assign x ownership) pos s x before]
        exact assigned_tracked (covers x m inScopeBefore heldBefore).1
      · intro taken
        -- an assignment that keeps to the rule finds nothing owed
        have settled : ((r.touchAll Var.move source.toList).vars x m).owed = false := by
          refine kept (.assigned x _) ?_ held
          exact List.mem_map.2 ⟨m, mem_toList.2 inScope, rfl⟩
        simp [Var.taken, Var.revive, settled] at taken
    · rw [if_neg (fun both => same both.1)]
      exact source_covers before (update_of_ne same _ _) inScopeBefore covers heldBefore

variable {events : List Event} {r' : Run}

variable {code : Code}

theorem safe_stray (safe : Safe fn code s r events out r') (name : Text) (n : Nat)
    (kept : Event.Kept (.stray name (r'.vars name n))) :
    Safe fn code s r (events ++ [.stray name (r'.vars name n)]) out
      (r'.write name n (r'.vars name n).settle) := by
  have held : ∀ x m, ((r'.write name n (r'.vars name n).settle).vars x m).tracked =
      (r'.vars x m).tracked := by
    intro x m
    rw [write_vars]
    split
    · next here =>
        rcases here with ⟨rfl, rfl⟩
        rfl
    · rfl
  have still : ∀ x m, (r'.vars x m).tracked = true →
      ((r'.write name n (r'.vars name n).settle).vars x m).taken = true →
        (r'.vars x m).taken = true := by
    intro x m heldHere taken
    rw [write_vars] at taken
    split at taken
    · next here =>
        rcases here with ⟨rfl, rfl⟩
        simp [Var.taken, kept heldHere]
    · exact taken
  constructor
  · intro e member
    rcases mem_append.1 member with before | here
    · exact safe.once e before
    · obtain rfl := mem_singleton.1 here
      rintro ⟨heldHere, moved⟩
      rw [safe.steady.sound name n heldHere (kept heldHere)] at moved
      cases moved
  · refine ⟨safe.steady.fresh, fun x m heldHere owed => ?_⟩
    rw [held] at heldHere
    rw [write_vars] at owed ⊢
    split at owed
    · cases owed
    · next other =>
        rw [if_neg other]
        exact safe.steady.sound x m heldHere owed
  · refine safe.trail.trans ⟨Nat.le_refl _, fun x m _ => held x m, fun x m _ _ => still x m, ?_⟩
    exact fun x m inScope => .inl inScope
  · exact safe.scope
  · intro goes x m inScope heldHere
    rw [held] at heldHere
    rcases safe.covers goes x m inScope heldHere with ⟨heldThere, goneThere⟩
    exact ⟨heldThere, fun taken => goneThere (still x m heldHere taken)⟩

theorem left_covers {locals : Locals} (covers : Covers locals r) (steady : Steady r)
    (trail : Trail r r') (kept : Event.Kept (.left r r')) : Covers locals (r.back r') := by
  intro x m inScope held
  have old : m < r.next := steady.fresh x m inScope
  have heldBefore : (r.vars x m).tracked = true := (trail.tracked x m old).symm.trans held
  rcases covers x m inScope heldBefore with ⟨heldThere, goneThere⟩
  exact ⟨heldThere, fun taken => goneThere (kept x m old heldBefore taken)⟩

variable {binding : Option Binding}

theorem covers_entered (covers : Covers s.locals r) :
    Covers (entered binding s).locals (r.entered binding) := by
  cases binding with
  | none => exact covers
  | some b =>
    intro x m inScope held
    rw [Run.entered, push_env] at inScope
    rw [Run.entered, push_vars] at held ⊢
    by_cases same : x = b.name
    · subst same
      obtain rfl := Option.some.inj ((if_pos rfl).symm.trans inScope)
      simp only [and_self, if_true] at held ⊢
      refine ⟨by simpa [tracked, entered] using held, fun taken => ?_⟩
      cases taken
    · rw [if_neg same] at inScope
      rw [if_neg fun both => same both.1] at held ⊢
      rw [entered_tracked same, entered_gone same]
      exact covers x m inScope held

variable {body : Code}

theorem safe_block (safe : Safe fn body (entered binding s) (r.entered binding) events out r')
    (clear : ∀ b ∈ binding, b.Clear s) (covers : Covers s.locals r) (steady : Steady r)
    (kept : Event.Kept (.left r r')) :
    Safe fn (.block binding body) s r (events ++ [.left r r']) out (r.back r') where
  once e member := by
    rcases mem_append.1 member with before | here
    · exact safe.once e before
    · obtain rfl := mem_singleton.1 here
      exact id
  steady := steady.back safe.steady ((Trail.entered binding r).trans safe.trail)
  trail := ((Trail.entered binding r).trans safe.trail).back
  scope _ := rfl
  covers _ :=
    (left_covers covers steady ((Trail.entered binding r).trans safe.trail) kept).grow
      (restored_grown clear)

theorem safe_bind {binding : Binding} (quiet : body.quiet = true)
    (safe : Safe fn body (entered (some binding) s) (r.entered (some binding)) events out r')
    (clear : binding.Clear s) (covers : Covers s.locals r) (steady : Steady r) :
    Safe fn (.bind binding body) s r events out (r.back r') := by
  have trail := (Trail.entered (some binding) r).trans safe.trail
  refine ⟨safe.once, steady.back safe.steady trail, trail.back, fun _ => rfl, ?_⟩
  intro goes x m inScope held
  have old : m < r.next := steady.fresh x m inScope
  have heldBefore : (r.vars x m).tracked = true := (trail.tracked x m old).symm.trans held
  by_cases same : x = binding.name
  · -- a variable that the binding hides: the body cannot name it
    subst same
    rcases covers _ m inScope heldBefore with ⟨heldThere, goneThere⟩
    rcases clear with restores | untracked
    · have put : (check fn (.bind binding body) s).locals binding.name = s.locals binding.name := by
        simp [check, Binding.leave, restores]
      unfold tracked at heldThere ⊢
      unfold gone at goneThere ⊢
      rw [put]
      refine ⟨heldThere, fun taken => goneThere ?_⟩
      have pushed : ((r.entered (some binding)).vars binding.name m) = r.vars binding.name m := by
        rw [Run.entered, push_vars, if_neg fun both => absurd both.2 (Nat.ne_of_lt old)]
      have hidden : (r.entered (some binding)).env binding.name ≠ some m := by
        rw [Run.entered, push_env, if_pos rfl]
        exact fun equal => absurd (Option.some.inj equal) (Nat.ne_of_gt old)
      rw [← pushed] at heldBefore ⊢
      exact safe.trail.hidden _ m (Nat.lt_succ_of_lt old) hidden heldBefore taken
    · rw [untracked] at heldThere
      cases heldThere
  · have inBody : r'.env x = some m := by
      rw [safe.scope quiet, Run.entered, push_env, if_neg same]
      exact inScope
    have after : (check fn (.bind binding body) s).locals x =
        (check fn body (entered (some binding) s)).locals x := by
      simp [check, Binding.leave, same]
    unfold tracked gone
    rw [after]
    exact safe.covers goes x m inBody held

theorem Exec.safe
    (run : Exec consumed code r events out r') (s : State) (shaped : code.shaped = true)
    (seen : Seen fn consumed code s) (silent : (check fn code s).errors = [])
    (covers : Covers s.locals r) (steady : Steady r) (kept : ∀ e ∈ events, e.Kept) :
    Safe fn code s r events out r' := by
  induction run generalizing s with
  | cut code r =>
    refine ⟨fun e member => absurd member not_mem_nil, steady, .refl r, fun _ => rfl, ?_⟩
    rintro (goes | ⟨_, goes⟩)
    · cases goes
    · exact absurd rfl goes
  | stray name n _ ih =>
    rw [forall_mem_append] at kept
    have before := ih s shaped seen silent covers steady kept.1
    exact safe_stray before name n (kept.2 _ (mem_singleton.2 rfl))
  | effect e r out _ => exact safe_effect seen silent covers steady
  | later e r => exact safe_later seen silent covers steady
  | declare name vi source pos r => exact safe_declare silent covers steady
  | assign name ownership source pos r =>
    rw [forall_mem_append] at kept
    exact safe_assign silent covers steady kept.2
  | seq _ _ begins_ih goes_ih =>
    simp only [Code.shaped, Bool.and_eq_true] at shaped
    rw [forall_mem_append] at kept
    have first := begins_ih s shaped.1 seen.1 (check_silent fn _ _ silent) covers steady kept.1
    have second := goes_ih _ shaped.2 seen.2 silent (first.covers (.inl rfl)) first.steady kept.2
    refine ⟨forall_mem_append.2 ⟨first.once, second.once⟩, second.steady,
      first.trail.trans second.trail, fun quiet => ?_, fun goes => second.covers ?_⟩
    · simp only [Code.quiet, Bool.and_eq_true] at quiet
      exact (second.scope quiet.2).trans (first.scope quiet.1)
    · simp only [Code.quiet, Bool.and_eq_true] at goes
      exact goes.imp id fun both => ⟨both.1.2, both.2⟩
  | seq_stops rest _ stops ih =>
    simp only [Code.shaped, Bool.and_eq_true] at shaped
    have first := ih s shaped.1 seen.1 (check_silent fn _ _ silent) covers steady kept
    refine ⟨first.once, first.steady, first.trail, fun quiet => ?_, fun goes => ?_⟩
    · simp only [Code.quiet, Bool.and_eq_true] at quiet
      exact first.scope quiet.1
    · rcases goes with next | ⟨quiet, running⟩
      · exact absurd next stops
      · simp only [Code.quiet, Bool.and_eq_true] at quiet
        exact (first.covers (.inr ⟨quiet.1, running⟩)).grow (check_grown fn quiet.2 seen.2)
  | either_first second _ ih =>
    simp only [Code.shaped, Bool.and_eq_true] at shaped
    rcases shaped with ⟨⟨⟨quiet, quietSecond⟩, shaped⟩, _⟩
    have first := ih s shaped seen.1 (check_silent fn _ _ silent) covers steady kept
    refine ⟨first.once, first.steady, first.trail, fun _ => first.scope quiet, fun goes => ?_⟩
    exact (first.covers (goes.imp id fun both => ⟨quiet, both.2⟩)).grow
      (check_grown fn quietSecond seen.2)
  | either_second first _ ih =>
    simp only [Code.shaped, Bool.and_eq_true] at shaped
    rcases shaped with ⟨⟨⟨quietFirst, quiet⟩, _⟩, shaped⟩
    have second := ih _ shaped seen.2 silent (covers.grow (check_grown fn quietFirst seen.1)) steady
      kept
    exact ⟨second.once, second.steady, second.trail, fun _ => second.scope quiet,
      fun goes => second.covers (goes.imp id fun both => ⟨quiet, both.2⟩)⟩
  | block _ _ ih =>
    rw [forall_mem_append] at kept
    have inner := ih (entered _ s) shaped seen.2 silent (covers_entered covers) (steady.entered _)
      kept.1
    exact safe_block inner seen.1 covers steady (kept.2 _ (mem_singleton.2 rfl))
  | @block_ended binding _ r _ _ _ ih =>
    have inner := ih (entered _ s) shaped seen.2 silent (covers_entered covers) (steady.entered _)
      kept
    have trail := (Trail.entered binding r).trans inner.trail
    refine ⟨inner.once, steady.back inner.steady trail, trail.back, fun _ => rfl, ?_⟩
    rintro (goes | ⟨_, goes⟩)
    · cases goes
    · exact absurd rfl goes
  | bind _ ih =>
    simp only [Code.shaped, Bool.and_eq_true] at shaped
    have inner := ih (entered _ s) shaped.2 seen.2 silent (covers_entered covers)
      (steady.entered _) kept
    exact safe_bind shaped.1 inner seen.1 covers steady
  | @turn body r events r' events' out r'' _ _ begins_ih goes_ih =>
    have bodyShaped := shaped
    simp only [Code.shaped, Bool.and_eq_true] at bodyShaped
    rw [forall_mem_append, forall_mem_cons] at kept
    have first := begins_ih s bodyShaped.2 seen silent covers steady kept.1
    -- the next turn begins in the scope of this one, and the walk has seen no more of it
    have again : r.back r' = r' := by
      rw [Run.back, ← first.scope bodyShaped.1]
    have start := left_covers covers steady first.trail kept.2.1
    rw [again] at start
    have others := goes_ih s shaped seen silent start first.steady kept.2.2
    refine ⟨?_, others.steady, first.trail.trans others.trail, fun quiet => ?_, others.covers⟩
    · rw [forall_mem_append, forall_mem_cons]
      exact ⟨first.once, id, others.once⟩
    · exact (others.scope quiet).trans (first.scope quiet)
  | turn_stops _ _ ih =>
    simp only [Code.shaped, Bool.and_eq_true] at shaped
    have inner := ih s shaped.2 seen silent covers steady kept
    exact ⟨inner.once, inner.steady, inner.trail, inner.scope, inner.covers⟩
  | upTo _ goes ih =>
    simp only [Code.shaped, Bool.and_eq_true] at shaped
    have inner := ih s shaped.2 seen silent covers steady kept
    exact ⟨inner.once, inner.steady, inner.trail, inner.scope,
      fun _ => inner.covers (.inr ⟨shaped.1, goes⟩)⟩
  | upTo_passes _ _ ih =>
    simp only [Code.shaped, Bool.and_eq_true] at shaped
    have inner := ih s shaped.2 seen silent covers steady kept
    exact ⟨inner.once, inner.steady, inner.trail, inner.scope, inner.covers⟩
  | attempt handlers _ ih =>
    simp only [Code.shaped, Bool.and_eq_true] at shaped
    rcases shaped with ⟨⟨⟨quiet, quietHandlers⟩, shaped⟩, _⟩
    have inner := ih s shaped seen.1 (check_silent fn _ _ silent) covers steady kept
    refine ⟨inner.once, inner.steady, inner.trail, fun _ => inner.scope quiet, fun goes => ?_⟩
    exact (inner.covers (goes.imp id fun both => ⟨quiet, both.2⟩)).grow
      (check_grown fn quietHandlers seen.2)
  | caught _ _ begins_ih goes_ih =>
    simp only [Code.shaped, Bool.and_eq_true] at shaped
    rcases shaped with ⟨⟨⟨quiet, quietHandlers⟩, shaped⟩, shapedHandlers⟩
    rw [forall_mem_append] at kept
    have first := begins_ih s shaped seen.1 (check_silent fn _ _ silent) covers steady kept.1
    have thrown := first.covers (.inr ⟨quiet, Outcome.noConfusion⟩)
    have second := goes_ih _ shapedHandlers seen.2 silent thrown first.steady kept.2
    exact ⟨forall_mem_append.2 ⟨first.once, second.once⟩, second.steady,
      first.trail.trans second.trail,
      fun _ => (second.scope quietHandlers).trans (first.scope quiet),
      fun goes => second.covers (goes.imp id fun both => ⟨quietHandlers, both.2⟩)⟩
  | jump way r =>
    exact ⟨fun e member => absurd member not_mem_nil, steady, .refl r, fun _ => rfl,
      fun _ => covers⟩
  | echo code r =>
    simp only [Code.shaped, Bool.and_eq_true] at shaped
    exact ⟨fun e member => absurd member not_mem_nil, steady, .refl r, fun _ => rfl,
      fun _ => covers.grow (check_grown fn shaped.1 seen)⟩
  | leak name vi r =>
    have quiet : (Code.leak name vi).quiet = true := rfl
    exact ⟨fun e member => absurd member not_mem_nil, steady, .refl r, fun _ => rfl,
      fun _ => covers.grow (check_grown fn quiet seen)⟩

end Safety

section Bodies

variable (locals : Locals)

theorem covers_enter : Covers locals (Run.enter locals) := by
  intro x m _ held
  refine ⟨held, fun taken => ?_⟩
  cases taken

theorem steady_enter : Steady (Run.enter locals) where
  fresh x m inScope := by
    rcases map_eq_some_iff.1 inScope with ⟨_, _, rfl⟩
    exact Nat.one_pos
  sound x m _ owed := by cases owed

/-- In a run of an accepted body whose steps keep to the rules nothing is moved twice. -/
theorem moved_once {fn : Function} {globals : Locals} {s : State} {body : Body}
    {consumed : Text → Indices} {events : List Event} {out : Outcome} {r : Run}
    (accepted : Accepted fn globals s body) (seen : Seen fn consumed body.val (entry fn globals s))
    (run : Exec consumed body.val (Run.enter (entryLocals globals fn.params)) events out r)
    (kept : ∀ e ∈ events, e.Kept) : ∀ e ∈ events, ¬e.Double :=
  (run.safe (entry fn globals s) body.property seen accepted (covers_enter _) (steady_enter _)
    kept).once

def owned : VarInfo := ⟨true, .owned⟩

def plainFn : Function := ⟨['f'], [], []⟩

def noGlobals : Locals := fun _ => none

def sourceText : Text := ['s']

/-- `string s; if c { string u; } string t = s;` -/
def moveBody : Body :=
  inlineBlockStmt [.declare sourceText owned none 0,
    (ifStmt .skip none (inlineBlockStmt [.declare ['u'] owned none 1]) .skip).body,
    .declare ['t'] owned (some sourceText) 2]

/-- `string s; { string t = s; } string u = s;` -/
def blockBody : Body :=
  inlineBlockStmt [.declare sourceText owned none 0,
    (nakedBlockStmt [.declare ['t'] owned (some sourceText) 1]).body,
    .declare ['u'] owned (some sourceText) 2]

def emptyRun : Run := Run.enter (entryLocals noGlobals plainFn.params)

/-- The branch is taken; nothing of before is moved in it. -/
theorem move_body_moves_once :
    ∃ events r, Exec nothing moveBody.val emptyRun events .next r ∧ ∀ e ∈ events, ¬e.Double := by
  have first := @Exec.declare nothing sourceText owned none 0 emptyRun
  have inner := (@Exec.declare nothing ['u'] owned none 1
    (emptyRun.push sourceText owned)).seq (.jump .next _)
  have block := @Exec.block nothing none _ _ _ _ _ inner Outcome.noConfusion
  have branch := (Exec.jump .next (emptyRun.push sourceText owned)).seq
    (.either_first (.jump .next) block)
  have last := @Exec.declare nothing ['t'] owned (some sourceText) 2
    ((emptyRun.push sourceText owned).back ((emptyRun.push sourceText owned).push ['u'] owned))
  have run := first.seq (branch.seq (last.seq (.jump .next _)))
  refine ⟨_, _, run, ?_⟩
  refine @moved_once plainFn noGlobals (.start nothing) moveBody nothing _ _ _ rfl
    ?_ run ?_
  · refine ⟨trivial, ⟨trivial, ⟨?_, trivial, trivial⟩, trivial⟩, trivial, trivial⟩
    intro b member
    cases member
  · intro e member
    simp only [mem_append, not_mem_nil, or_false, false_or, mem_singleton] at member
    rcases member with moves | (moves | rfl) | moves
    · exact moving_kept moves
    · exact moving_kept moves
    · -- the branch writes the variable that it declares
      intro name n old _ taken
      have other : ¬(name = ['u'] ∧ n = emptyRun.next + 1) :=
        fun same => absurd same.2 (Nat.ne_of_lt old)
      simpa [Run.push, Run.touchAll, Run.entered, write_vars, other] using taken
    · exact moving_kept moves

/-- The block loses the mark on `s`: a second move is accepted and made. -/
theorem block_hides_move :
    Accepted plainFn noGlobals (.start nothing) blockBody ∧
      ∃ events r, Exec nothing blockBody.val emptyRun events .next r ∧ ∃ e ∈ events, e.Double := by
  refine ⟨rfl, ?_⟩
  have first := @Exec.declare nothing sourceText owned none 0 emptyRun
  have inner := (@Exec.declare nothing ['t'] owned (some sourceText) 1
    (emptyRun.push sourceText owned)).seq (.jump .next _)
  have block := @Exec.block nothing none _ _ _ _ _ inner Outcome.noConfusion
  have last := @Exec.declare nothing ['u'] owned (some sourceText) 2
    ((emptyRun.push sourceText owned).back
      (((emptyRun.push sourceText owned).touchAll Var.move [sourceText]).push ['t'] owned))
  have run := first.seq (block.seq (last.seq (.jump .next _)))
  refine ⟨_, _, run, .moved sourceText ⟨true, true, false⟩, ?_, rfl, rfl⟩
  refine mem_append_right _ (mem_append_right _ (mem_append_left _ ?_))
  exact mem_append_left _ (mem_singleton.mpr rfl)

/-- A loop body is walked once. -/
example : Accepted plainFn noGlobals (.start nothing) (inlineBlockStmt
    [.declare sourceText owned none 0,
      (whileStmt .skip (.declare ['t'] owned (some sourceText) 1)).body]) := rfl

example : ¬Accepted plainFn noGlobals (.start nothing) (inlineBlockStmt
    [.declare sourceText owned none 0, .declare ['t'] owned (some sourceText) 1,
      .declare ['u'] owned (some sourceText) 2]) := by decide

end Bodies

end Lucis.MoveCheck
