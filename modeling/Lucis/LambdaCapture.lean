import Mathlib.Data.List.Nodup

/-!
Captures of lambda expressions, from checkers/Checker_type.cpp. The syntax keeps
what decides them: where identifiers stand below a node, which names a form
binds, and in which order `resolveExprType` goes through the operands. Types are
left out, so an expression stands for one without type errors, on which the
resolver runs to its end. Of `locals_` only the set of names matters.
-/

namespace Lucis.LambdaCapture

open List

abbrev Name := String

/-- `SPREAD` parameters are bound like others, but the checker skips them. -/
structure Param where
  name : Name
  spread : Bool

mutual

/-- The alternatives of `expression`, by the place of their operands: direct children of the
node, or below an intermediate node such as `argList`. -/
inductive Expr where
  | ident (name : Name)
  /-- literals, names of types, enum members; strings in backticks too, whose holes only
  the generator parses -/
  | leaf
  /-- operators, accesses, initializers in braces, arrays, tuples, ternaries -/
  | node (kids : List Expr)
  | fnCall (callee : Expr) (args : List Expr)
  /-- calls through `.` and `->` -/
  | methodCall (receiver : Expr) (args : List Expr)
  /-- qualified and generic calls, and bang initializers, whose entries are nodes of their own -/
  | nested (args : List Expr)
  | asm (outputs : List Name) (inputs : List Expr)
  | matchOf (scrutinee : Expr) (arms : List Arm)
  | propagate (e : Expr) (context : List Stmt)
  /-- `binds` tells whether the error has a payload, which the block sees as `it` -/
  | catchUnwrap (e : Expr) (binds : Bool) (block : List Stmt)
  | listComp (value : Expr) (var : Name) (iterable : Expr) (filter : List Expr)
  | lambda (params : List Param) (body : Expr)
  | lambdaBlock (params : List Param) (body : List Stmt)

inductive Arm where
  | expr (binds : List Name) (guard : List Expr) (body : Expr)
  | block (binds : List Name) (guard : List Expr) (body : List Stmt)

/-- Statements. A declaration of several variables stands for as many of one; `typed` tells
whether its type is written out. -/
inductive Stmt where
  | exprStmt (e : Expr)
  | ret (value : List Expr)
  | varDecl (typed : Bool) (name : Name) (init : List Expr)
  /-- a nested body with the names bound for it alone -/
  | scoped (binders : List Name) (body : List Stmt)
  /-- every other statement: the names it declares for those behind it, the names it assigns or
  calls, its expressions and its bodies -/
  | other (declares mentions : List Name) (exprs : List Expr) (bodies : List Stmt)

end

inductive Lambda where
  | expr (params : List Param) (body : Expr)
  | block (params : List Param) (body : List Stmt)

section Resolution

/-- The names in `locals_`. -/
abbrev Locals := Name → Bool

def declare (locals : Locals) (names : List Name) : Locals :=
  fun x => x ∈ names || locals x

def erase (locals : Locals) (names : List Name) : Locals :=
  fun x => !(x ∈ names) && locals x

def paramNames (params : List Param) : List Name :=
  (params.filter fun p => !p.spread).map Param.name

/-- `armBindName` is that of the last pattern that binds. -/
def armBindName (binds : List Name) : List Name :=
  binds.getLast?.toList

mutual

/-- `locals_` behind `resolveExprType`. Blocks that `checkBlock` checks, and the blocks of match
arms, give it back as it was. -/
def resolve : Expr → Locals → Locals
  | .ident _, locals => locals
  | .leaf, locals => locals
  | .node kids, locals => resolveAll kids locals
  | .fnCall callee args, locals => resolve callee (resolveAll args locals)
  | .methodCall receiver args, locals => resolveAll args (resolve receiver locals)
  | .nested args, locals => resolveAll args locals
  | .asm _ inputs, locals => resolveAll inputs locals
  | .matchOf scrutinee arms, locals => resolveArms arms (resolve scrutinee locals)
  | .propagate e _, locals => resolve e locals
  | .catchUnwrap e _ _, locals => resolve e locals
  | .listComp value var iterable filter, locals =>
    let inner := resolve value (resolveAll filter (resolve iterable (declare locals [var])))
    if locals var then declare inner [var] else erase inner [var]
  | .lambda params body, locals =>
    erase (resolve body (declare locals (paramNames params))) (paramNames params)
  | .lambdaBlock params body, locals =>
    erase (walk body (declare locals (paramNames params))) (paramNames params)

def resolveAll : List Expr → Locals → Locals
  | [], locals => locals
  | e :: rest, locals => resolveAll rest (resolve e locals)

def resolveArm : Arm → Locals → Locals
  | .expr binds guard body, locals =>
    erase (resolve body (resolveAll guard (declare locals binds))) (armBindName binds)
  | .block binds guard _, locals =>
    erase (resolveAll guard (declare locals binds)) (armBindName binds)

def resolveArms : List Arm → Locals → Locals
  | [], locals => locals
  | arm :: rest, locals => resolveArms rest (resolveArm arm locals)

/-- The walk of `resolveLambdaBlockExpr` over a block, up to its first return. -/
def walk : List Stmt → Locals → Locals
  | [], locals => locals
  | .ret value :: _, locals => resolveAll value locals
  | .varDecl typed name init :: rest, locals =>
    walk rest (if typed then resolveAll init (declare locals [name]) else locals)
  | .exprStmt e :: rest, locals => walk rest (resolve e locals)
  | .scoped _ _ :: rest, locals => walk rest locals
  | .other _ _ _ _ :: rest, locals => walk rest locals

end

end Resolution

section Collection

mutual

/-- `collectFreeVars`: only children that are expressions themselves are entered. -/
def collectFreeVars (params : List Name) : Expr → List Name → List Name
  | .ident name, freeVars => if name ∈ params then freeVars else freeVars.insert name
  | .leaf, freeVars => freeVars
  | .node kids, freeVars => collectAll params kids freeVars
  | .fnCall callee _, freeVars => collectFreeVars params callee freeVars
  | .methodCall receiver _, freeVars => collectFreeVars params receiver freeVars
  | .nested _, freeVars => freeVars
  | .asm _ _, freeVars => freeVars
  | .matchOf scrutinee _, freeVars => collectFreeVars params scrutinee freeVars
  | .propagate e _, freeVars => collectFreeVars params e freeVars
  | .catchUnwrap e _ _, freeVars => collectFreeVars params e freeVars
  | .listComp value _ iterable filter, freeVars =>
    collectAll params filter
      (collectFreeVars params iterable (collectFreeVars params value freeVars))
  | .lambda _ body, freeVars => collectFreeVars params body freeVars
  | .lambdaBlock _ _, freeVars => freeVars

def collectAll (params : List Name) : List Expr → List Name → List Name
  | [], freeVars => freeVars
  | e :: rest, freeVars => collectAll params rest (collectFreeVars params e freeVars)

end

/-- The children of a `StatementContext` that are expressions: its one child is the node of the
statement's kind, and no kind is an expression. -/
def expressionChildren : Stmt → List Expr
  | .exprStmt _ => []
  | .ret _ => []
  | .varDecl _ _ _ => []
  | .scoped _ _ => []
  | .other _ _ _ _ => []

def collectFreeVarsFromBlock (params : List Name) : List Stmt → List Name → List Name
  | [], freeVars => freeVars
  | stmt :: rest, freeVars =>
    collectFreeVarsFromBlock params rest (collectAll params (expressionChildren stmt) freeVars)

/-- The captures `resolveLambdaExpr` and `resolveLambdaBlockExpr` record. -/
def captures (locals : Locals) : Lambda → List Name
  | .expr params body =>
    (collectFreeVars (paramNames params) body []).filter
      (resolve body (declare locals (paramNames params)))
  | .block params body =>
    (collectFreeVarsFromBlock (paramNames params) body []).filter
      (walk body (declare locals (paramNames params)))

end Collection

section Occurrences

def Stmt.declares : Stmt → List Name
  | .varDecl _ name _ => [name]
  | .other declares _ _ _ => declares
  | _ => []

mutual

/-- `x` occurs free in an expression, under the scopes of the language. -/
def Free (x : Name) : Expr → Prop
  | .ident name => x = name
  | .leaf => False
  | .node kids => FreeAny x kids
  | .fnCall callee args => Free x callee ∨ FreeAny x args
  | .methodCall receiver args => Free x receiver ∨ FreeAny x args
  | .nested args => FreeAny x args
  | .asm outputs inputs => x ∈ outputs ∨ FreeAny x inputs
  | .matchOf scrutinee arms => Free x scrutinee ∨ FreeArms x arms
  | .propagate e context => Free x e ∨ FreeBlock x context
  | .catchUnwrap e binds block => Free x e ∨ (¬ (binds = true ∧ x = "it") ∧ FreeBlock x block)
  | .listComp value var iterable filter =>
    Free x iterable ∨ (x ≠ var ∧ (Free x value ∨ FreeAny x filter))
  | .lambda params body => x ∉ params.map Param.name ∧ Free x body
  | .lambdaBlock params body => x ∉ params.map Param.name ∧ FreeBlock x body

def FreeAny (x : Name) : List Expr → Prop
  | [] => False
  | e :: rest => Free x e ∨ FreeAny x rest

def FreeArm (x : Name) : Arm → Prop
  | .expr binds guard body => x ∉ binds ∧ (FreeAny x guard ∨ Free x body)
  | .block binds guard body => x ∉ binds ∧ (FreeAny x guard ∨ FreeBlock x body)

def FreeArms (x : Name) : List Arm → Prop
  | [] => False
  | arm :: rest => FreeArm x arm ∨ FreeArms x rest

def FreeStmt (x : Name) : Stmt → Prop
  | .exprStmt e => Free x e
  | .ret value => FreeAny x value
  | .varDecl _ _ init => FreeAny x init
  | .scoped binders body => x ∉ binders ∧ FreeBlock x body
  | .other _ mentions exprs bodies => x ∈ mentions ∨ FreeAny x exprs ∨ FreeBlock x bodies

def FreeBlock (x : Name) : List Stmt → Prop
  | [] => False
  | stmt :: rest => FreeStmt x stmt ∨ (x ∉ stmt.declares ∧ FreeBlock x rest)

end

mutual

/-- `x` stands where the collector comes by: below expression nodes only. -/
def Direct (x : Name) : Expr → Prop
  | .ident name => x = name
  | .leaf => False
  | .node kids => DirectAny x kids
  | .fnCall callee _ => Direct x callee
  | .methodCall receiver _ => Direct x receiver
  | .nested _ => False
  | .asm _ _ => False
  | .matchOf scrutinee _ => Direct x scrutinee
  | .propagate e _ => Direct x e
  | .catchUnwrap e _ _ => Direct x e
  | .listComp value _ iterable filter => Direct x value ∨ Direct x iterable ∨ DirectAny x filter
  | .lambda _ body => Direct x body
  | .lambdaBlock _ _ => False

def DirectAny (x : Name) : List Expr → Prop
  | [] => False
  | e :: rest => Direct x e ∨ DirectAny x rest

end

mutual

/-- What the binders inside an expression do to the name `x` in `locals_`: the last of them
leaves it in (`some true`) or takes it out (`some false`). -/
def trace (x : Name) : Expr → Option Bool
  | .ident _ => none
  | .leaf => none
  | .node kids => traceAll x kids
  | .fnCall callee args => (trace x callee).or (traceAll x args)
  | .methodCall receiver args => (traceAll x args).or (trace x receiver)
  | .nested args => traceAll x args
  | .asm _ inputs => traceAll x inputs
  | .matchOf scrutinee arms => (traceArms x arms).or (trace x scrutinee)
  | .propagate e _ => trace x e
  | .catchUnwrap e _ _ => trace x e
  | .listComp value var iterable filter =>
    if x = var then none else (trace x value).or ((traceAll x filter).or (trace x iterable))
  | .lambda params body => if x ∈ paramNames params then some false else trace x body
  | .lambdaBlock params body => if x ∈ paramNames params then some false else traceWalk x body

def traceAll (x : Name) : List Expr → Option Bool
  | [] => none
  | e :: rest => (traceAll x rest).or (trace x e)

def traceArm (x : Name) : Arm → Option Bool
  | .expr binds guard body =>
    if x ∈ armBindName binds then some false
    else (trace x body).or ((traceAll x guard).or (if x ∈ binds then some true else none))
  | .block binds guard _ =>
    if x ∈ armBindName binds then some false
    else (traceAll x guard).or (if x ∈ binds then some true else none)

def traceArms (x : Name) : List Arm → Option Bool
  | [] => none
  | arm :: rest => (traceArms x rest).or (traceArm x arm)

def traceWalk (x : Name) : List Stmt → Option Bool
  | [] => none
  | .ret value :: _ => traceAll x value
  | .varDecl typed name init :: rest =>
    (traceWalk x rest).or
      (if typed then (traceAll x init).or (if x = name then some true else none) else none)
  | .exprStmt e :: rest => (traceWalk x rest).or (trace x e)
  | .scoped _ _ :: rest => traceWalk x rest
  | .other _ _ _ _ :: rest => traceWalk x rest

end

end Occurrences

section Tracing

variable {x : Name} {locals : Locals} {names : List Name}

theorem getD_or (later earlier : Option Bool) (before : Bool) :
    (later.or earlier).getD before = later.getD (earlier.getD before) := by
  cases later <;> rfl

theorem declare_trace : declare locals names x =
      (if x ∈ names then some true else none : Option Bool).getD (locals x) := by
  by_cases member : x ∈ names <;> simp [declare, member]

theorem erase_trace {inner : Locals} {erased : List Name} {within} {before : Bool}
    (same : x ∉ erased → inner x = within.getD before) : erase inner erased x =
      (if x ∈ erased then some false else within : Option Bool).getD before := by
  by_cases member : x ∈ erased
  · simp [erase, member]
  · simp [erase, member, same member]

theorem declare_other (other : x ∉ names) : declare locals names x = locals x := by
  simp [declare, other]

mutual

theorem resolve_trace (x : Name) (e : Expr) (locals : Locals) :
    resolve e locals x = (trace x e).getD (locals x) := by
  cases e with
  | ident _ => rfl
  | leaf => rfl
  | node kids => exact resolveAll_trace x kids locals
  | fnCall callee args =>
    rw [resolve, trace, getD_or, resolve_trace x callee, resolveAll_trace x args]
  | methodCall receiver args =>
    rw [resolve, trace, getD_or, resolveAll_trace x args, resolve_trace x receiver]
  | nested args => exact resolveAll_trace x args locals
  | asm _ inputs => exact resolveAll_trace x inputs locals
  | matchOf scrutinee arms =>
    rw [resolve, trace, getD_or, resolveArms_trace x arms, resolve_trace x scrutinee]
  | propagate e _ => exact resolve_trace x e locals
  | catchUnwrap e _ _ => exact resolve_trace x e locals
  | listComp value var iterable filter =>
    simp only [resolve, trace]
    by_cases same : x = var
    · subst same
      cases held : locals x <;> simp [declare, erase]
    · have inner : resolve value (resolveAll filter (resolve iterable (declare locals [var]))) x =
          ((trace x value).or ((traceAll x filter).or (trace x iterable))).getD (locals x) := by
        rw [getD_or, getD_or, resolve_trace x value, resolveAll_trace x filter,
          resolve_trace x iterable, declare_other (by simpa using same)]
      cases held : locals var <;> simpa [declare, erase, same] using inner
  | lambda params body =>
    rw [resolve, trace]
    apply erase_trace
    intro other
    rw [resolve_trace x body, declare_other other]
  | lambdaBlock params body =>
    rw [resolve, trace]
    apply erase_trace
    intro other
    rw [walk_trace x body, declare_other other]

theorem resolveAll_trace (x : Name) (es : List Expr) (locals : Locals) :
    resolveAll es locals x = (traceAll x es).getD (locals x) := by
  cases es with
  | nil => rfl
  | cons e rest => rw [resolveAll, traceAll, getD_or, resolveAll_trace x rest, resolve_trace x e]

theorem resolveArm_trace (x : Name) (arm : Arm) (locals : Locals) :
    resolveArm arm locals x = (traceArm x arm).getD (locals x) := by
  cases arm with
  | expr binds guard body =>
    rw [resolveArm, traceArm]
    apply erase_trace
    intro _
    rw [getD_or, getD_or, resolve_trace x body, resolveAll_trace x guard, declare_trace]
  | block binds guard body =>
    rw [resolveArm, traceArm]
    apply erase_trace
    intro _
    rw [getD_or, resolveAll_trace x guard, declare_trace]

theorem resolveArms_trace (x : Name) (arms : List Arm) (locals : Locals) :
    resolveArms arms locals x = (traceArms x arms).getD (locals x) := by
  cases arms with
  | nil => rfl
  | cons arm rest =>
    rw [resolveArms, traceArms, getD_or, resolveArms_trace x rest, resolveArm_trace x arm]

theorem walk_trace (x : Name) (block : List Stmt) (locals : Locals) :
    walk block locals x = (traceWalk x block).getD (locals x) := by
  match block with
  | [] => rfl
  | .ret value :: _ =>
    rw [walk, traceWalk, resolveAll_trace x value]
  | .varDecl typed name init :: rest =>
    rw [walk, traceWalk, getD_or, walk_trace x rest]
    cases typed with
    | false => rfl
    | true =>
      rw [if_pos rfl, if_pos rfl, getD_or, resolveAll_trace x init, declare_trace]
      simp only [mem_singleton]
  | .exprStmt e :: rest =>
    rw [walk, traceWalk, getD_or, walk_trace x rest, resolve_trace x e]
  | .scoped _ _ :: rest => rw [walk, traceWalk, walk_trace x rest]
  | .other _ _ _ _ :: rest => rw [walk, traceWalk, walk_trace x rest]

end

mutual

theorem mem_collectFreeVars (params : List Name) (x : Name) (e : Expr) (freeVars : List Name) :
    x ∈ collectFreeVars params e freeVars ↔ (Direct x e ∧ x ∉ params) ∨ x ∈ freeVars := by
  cases e with
  | ident name =>
    rw [collectFreeVars, Direct]
    by_cases own : name ∈ params
    · simp only [own, if_true]
      constructor
      · exact .inr
      · rintro (⟨rfl, other⟩ | member)
        · exact absurd own other
        · exact member
    · simp only [own, if_false, mem_insert_iff]
      constructor
      · rintro (rfl | member)
        · exact .inl ⟨rfl, own⟩
        · exact .inr member
      · rintro (⟨rfl, _⟩ | member)
        · exact .inl rfl
        · exact .inr member
  | leaf => simp [collectFreeVars, Direct]
  | node kids => exact mem_collectAll params x kids freeVars
  | fnCall callee _ => exact mem_collectFreeVars params x callee freeVars
  | methodCall receiver _ => exact mem_collectFreeVars params x receiver freeVars
  | nested _ => simp [collectFreeVars, Direct]
  | asm _ _ => simp [collectFreeVars, Direct]
  | matchOf scrutinee _ => exact mem_collectFreeVars params x scrutinee freeVars
  | propagate e _ => exact mem_collectFreeVars params x e freeVars
  | catchUnwrap e _ _ => exact mem_collectFreeVars params x e freeVars
  | listComp value _ iterable filter =>
    rw [collectFreeVars, Direct, mem_collectAll params x filter,
      mem_collectFreeVars params x iterable, mem_collectFreeVars params x value]
    grind
  | lambda _ body => exact mem_collectFreeVars params x body freeVars
  | lambdaBlock _ _ => simp [collectFreeVars, Direct]

theorem mem_collectAll (params : List Name) (x : Name) (es : List Expr) (freeVars : List Name) :
    x ∈ collectAll params es freeVars ↔ (DirectAny x es ∧ x ∉ params) ∨ x ∈ freeVars := by
  cases es with
  | nil => simp [collectAll, DirectAny]
  | cons e rest =>
    rw [collectAll, DirectAny, mem_collectAll params x rest, mem_collectFreeVars params x e]
    grind

end

mutual

theorem collectFreeVars_nodup (params : List Name) (e : Expr) (freeVars : List Name)
    (nodup : freeVars.Nodup) : (collectFreeVars params e freeVars).Nodup := by
  cases e with
  | ident name =>
    rw [collectFreeVars]
    split
    · exact nodup
    · exact List.Nodup.insert nodup
  | leaf => exact nodup
  | node kids => exact collectAll_nodup params kids freeVars nodup
  | fnCall callee _ => exact collectFreeVars_nodup params callee freeVars nodup
  | methodCall receiver _ => exact collectFreeVars_nodup params receiver freeVars nodup
  | nested _ => exact nodup
  | asm _ _ => exact nodup
  | matchOf scrutinee _ => exact collectFreeVars_nodup params scrutinee freeVars nodup
  | propagate e _ => exact collectFreeVars_nodup params e freeVars nodup
  | catchUnwrap e _ _ => exact collectFreeVars_nodup params e freeVars nodup
  | listComp value _ iterable filter =>
    rw [collectFreeVars]
    have first := collectFreeVars_nodup params value freeVars nodup
    exact collectAll_nodup params filter _ (collectFreeVars_nodup params iterable _ first)
  | lambda _ body => exact collectFreeVars_nodup params body freeVars nodup
  | lambdaBlock _ _ => exact nodup

theorem collectAll_nodup (params : List Name) (es : List Expr) (freeVars : List Name)
    (nodup : freeVars.Nodup) : (collectAll params es freeVars).Nodup := by
  cases es with
  | nil => exact nodup
  | cons e rest =>
    exact collectAll_nodup params rest _ (collectFreeVars_nodup params e freeVars nodup)

end

theorem collectFreeVarsFromBlock_eq (params : List Name) (block : List Stmt)
    (freeVars : List Name) : collectFreeVarsFromBlock params block freeVars = freeVars := by
  induction block generalizing freeVars with
  | nil => rfl
  | cons stmt rest ih =>
    rw [collectFreeVarsFromBlock, ih]
    cases stmt <;> rfl

end Tracing

section Exactness

def Lambda.Free (x : Name) : Lambda → Prop
  | .expr params body => x ∉ params.map Param.name ∧ LambdaCapture.Free x body
  | .block params body => x ∉ params.map Param.name ∧ FreeBlock x body

/-- The collector sees `x` in the body and takes it for no parameter. -/
def Lambda.Seen (x : Name) : Lambda → Prop
  | .expr params body => Direct x body ∧ x ∉ paramNames params
  | .block _ _ => False

/-- `x` is in `locals_` when the body has been resolved. -/
def Lambda.Kept (locals : Locals) (x : Name) : Lambda → Prop
  | .expr _ body => (trace x body).getD (locals x) = true
  | .block _ body => (traceWalk x body).getD (locals x) = true

/-- The captures of a lambda are the locals of its scope that occur free in it, each once. -/
structure Exact (scope : Name → Prop) (lam : Lambda) (recorded : List Name) : Prop where
  once : recorded.Nodup
  free : ∀ x, x ∈ recorded ↔ scope x ∧ lam.Free x

structure Transparent (locals : Locals) (scope : Name → Prop) (lam : Lambda) : Prop where
  found : ∀ x, scope x → lam.Free x → lam.Seen x ∧ lam.Kept locals x
  bound : ∀ x, lam.Seen x → lam.Kept locals x → scope x ∧ lam.Free x

variable (locals : Locals) (lam : Lambda)

theorem mem_captures (x : Name) :
    x ∈ captures locals lam ↔ lam.Seen x ∧ lam.Kept locals x := by
  cases lam with
  | expr params body =>
    rw [captures, mem_filter, mem_collectFreeVars, resolve_trace]
    simp only [not_mem_nil, or_false, Lambda.Seen, Lambda.Kept]
    constructor
    · rintro ⟨⟨direct, other⟩, held⟩
      rw [declare_other other] at held
      exact ⟨⟨direct, other⟩, held⟩
    · rintro ⟨⟨direct, other⟩, held⟩
      rw [declare_other other]
      exact ⟨⟨direct, other⟩, held⟩
  | block params body =>
    rw [captures, collectFreeVarsFromBlock_eq]
    simp [Lambda.Seen]

theorem captures_nodup : (captures locals lam).Nodup := by
  cases lam with
  | expr params body => exact (collectFreeVars_nodup _ body [] nodup_nil).filter _
  | block params body =>
    rw [captures, collectFreeVarsFromBlock_eq]
    exact nodup_nil

theorem captures_exact_iff (locals : Locals) (scope : Name → Prop) (lam : Lambda) :
    Exact scope lam (captures locals lam) ↔ Transparent locals scope lam := by
  constructor
  · intro exact
    constructor
    · intro x local_ free
      exact (mem_captures locals lam x).mp ((exact.free x).mpr ⟨local_, free⟩)
    · intro x seen kept
      exact (exact.free x).mp ((mem_captures locals lam x).mpr ⟨seen, kept⟩)
  · intro transparent
    refine ⟨captures_nodup locals lam, fun x => ?_⟩
    rw [mem_captures]
    constructor
    · rintro ⟨seen, kept⟩
      exact transparent.bound x seen kept
    · rintro ⟨local_, free⟩
      exact transparent.found x local_ free

/-- `|int32 y| f(x)` -/
def callsWithLocal : Lambda :=
  .expr [⟨"y", false⟩] (.fnCall (.ident "f") [.ident "x"])

theorem argument_not_captured :
    captures (fun name => name == "x") callsWithLocal = [] ∧
      ¬ Exact (fun name => name = "x") callsWithLocal
        (captures (fun name => name == "x") callsWithLocal) := by
  have none : captures (fun name => name == "x") callsWithLocal = [] := by
    decide
  refine ⟨none, fun exact => ?_⟩
  have free : callsWithLocal.Free "x" := by
    simp [callsWithLocal, Lambda.Free, Free, FreeAny]
  have captured := (exact.free "x").mpr ⟨rfl, free⟩
  rw [none] at captured
  cases captured

end Exactness

end Lucis.LambdaCapture
