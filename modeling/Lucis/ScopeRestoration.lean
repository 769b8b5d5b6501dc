import Lucis.Library.Bindings

/-!
What `resolveExprType` of checkers/Checker_type.cpp leaves of `locals_`, the one map in
which lambdas, match arms, `catch` blocks and list comprehensions bind their names for a
while. Of a local its type, its dimensions and its ownership are kept. What depends on
types and registries stands in the syntax: which operands a node comes to before an
error, which of them are consumed, and whether a type is known.
-/

namespace Lucis.ScopeRestoration

open List Function

open Bindings (Event play replay Restored)

section Syntax

abbrev Name := String

inductive OwnershipState where
  | owned
  | borrowedImm
  | borrowedMut
  | moved
  | escaped
  | dropped
  deriving DecidableEq

structure VarInfo (Ty : Type) where
  type : Ty
  arrayDims : Nat
  ownership : OwnershipState

/-- `{ti, dims, {}, true, true, nullptr}` -/
def VarInfo.fresh {Ty : Type} (type : Ty) (arrayDims : Nat) : VarInfo Ty :=
  ⟨type, arrayDims, .borrowedImm⟩

/-- `type` is none when the parameter's type is unknown. -/
structure Param (Ty : Type) where
  name : Name
  spread : Bool
  type : Option (Ty × Nat)

mutual

inductive Expr (Ty : Type) where
  | ident (name : Name)
  /-- every other expression, by what the resolver does at it, in its order -/
  | node (acts : List (Act Ty))
  | matchOf (scrutinee : List (Act Ty)) (arms : List (Arm Ty))
  /-- `payload` is the type of `it`; `checkBlock` gives the locals back as they were -/
  | catchUnwrap (e : Expr Ty) (payload : Option Ty)
  | listComp (value : Expr Ty) (var : Name) (type : Option (Ty × Nat)) (iterable : Expr Ty)
      (filter : List (Expr Ty))
  | lambda (params : List (Param Ty)) (body : Expr Ty)
  | lambdaBlock (params : List (Param Ty)) (body : List (Stmt Ty))

inductive Act (Ty : Type) where
  | resolve (e : Expr Ty)
  /-- `markExprAsMoved` for a consumed argument or an owned field -/
  | move (e : Expr Ty)

/-- The names its patterns bind, with their payload types, and its guard and body, when that
is no block; a block gives the locals back. An arm that does not clean up ends the match with
an error. -/
inductive Arm (Ty : Type) where
  | mk (binds : List (Name × Ty)) (acts : List (Act Ty)) (cleans : Bool)

/-- Statements of a block lambda. A declaration of several variables stands for as many of
one. -/
inductive Stmt (Ty : Type) where
  | ret (value : List (Expr Ty))
  | varDecl (type : Option (Ty × Nat)) (name : Name) (init : List (Expr Ty))
  | exprStmt (e : Expr Ty)
  | other

end

end Syntax

section Resolution

variable {Ty : Type}

abbrev Locals (Ty : Type) := Name → Option (VarInfo Ty)

/-- `isDropTrackedType`; `tracked` is what it says of a type that is no array. -/
def isDropTracked (tracked : Ty → Bool) (vi : VarInfo Ty) : Bool :=
  tracked vi.type && vi.arrayDims == 0

def markMoved (tracked : Ty → Bool) (vi : VarInfo Ty) : VarInfo Ty :=
  if isDropTracked tracked vi && vi.ownership != .moved && vi.ownership != .dropped then
    { vi with ownership := .moved }
  else vi

def markExprAsMoved (tracked : Ty → Bool) (e : Expr Ty) (locals : Locals Ty) : Locals Ty :=
  match e with
  | .ident name => Function.update locals name ((locals name).map (markMoved tracked))
  | _ => locals

def Param.entry (p : Param Ty) : Option (VarInfo Ty) :=
  if p.spread then none else p.type.map fun t => .fresh t.1 t.2

def declareParams : List (Param Ty) → Locals Ty → Locals Ty
  | [], locals => locals
  | p :: rest, locals =>
    declareParams rest
      (match p.entry with
        | some vi => Function.update locals p.name (some vi)
        | none => locals)

def paramNames (params : List (Param Ty)) : List Name :=
  (params.filter fun p => p.entry.isSome).map Param.name

def erase (names : List Name) (locals : Locals Ty) : Locals Ty :=
  fun x => if x ∈ names then none else locals x

def restore (name : Name) (saved inner : Locals Ty) : Locals Ty :=
  Function.update inner name (saved name)

def declareBinds : List (Name × Ty) → Locals Ty → Locals Ty
  | [], locals => locals
  | bind :: rest, locals =>
    declareBinds rest (Function.update locals bind.1 (some (.fresh bind.2 0)))

/-- `armBindName` is that of the last pattern that binds. -/
def armBindName (binds : List (Name × Ty)) : List Name :=
  (binds.getLast?.map Prod.fst).toList

def declareTyped (type : Option (Ty × Nat)) (name : Name) (locals : Locals Ty) : Locals Ty :=
  match type with
  | some t => Function.update locals name (some (.fresh t.1 t.2))
  | none => locals

variable (tracked : Ty → Bool)

mutual

def resolve : Expr Ty → Locals Ty → Locals Ty
  | .ident _, locals => locals
  | .node acts, locals => performAll acts locals
  | .matchOf scrutinee arms, locals => resolveArms arms (performAll scrutinee locals)
  | .catchUnwrap e payload, locals =>
    let after := resolve e locals
    match payload with
    | some type => restore "it" after (Function.update after "it" (some (.fresh type 0)))
    | none => after
  | .listComp value var type iterable filter, locals =>
    restore var locals
      (resolve value (resolveAll filter (resolve iterable (declareTyped type var locals))))
  | .lambda params body, locals =>
    erase (paramNames params) (resolve body (declareParams params locals))
  | .lambdaBlock params body, locals =>
    erase (paramNames params) (walk body (declareParams params locals))

def resolveAll : List (Expr Ty) → Locals Ty → Locals Ty
  | [], locals => locals
  | e :: rest, locals => resolveAll rest (resolve e locals)

def perform : Act Ty → Locals Ty → Locals Ty
  | .resolve e, locals => resolve e locals
  | .move e, locals => markExprAsMoved tracked e locals

def performAll : List (Act Ty) → Locals Ty → Locals Ty
  | [], locals => locals
  | act :: rest, locals => performAll rest (perform act locals)

def resolveArm : Arm Ty → Locals Ty → Locals Ty
  | .mk binds acts cleans, locals =>
    let after := performAll acts (declareBinds binds locals)
    if cleans then erase (armBindName binds) after else after

def resolveArms : List (Arm Ty) → Locals Ty → Locals Ty
  | [], locals => locals
  | arm :: rest, locals => resolveArms rest (resolveArm arm locals)

/-- The walk of `resolveLambdaBlockExpr` up to the first return. -/
def walk : List (Stmt Ty) → Locals Ty → Locals Ty
  | [], locals => locals
  | .ret value :: _, locals => resolveAll value locals
  | .varDecl type name init :: rest, locals =>
    -- without a known type the initializer is not looked at
    walk rest (if type.isSome then resolveAll init (declareTyped type name locals) else locals)
  | .exprStmt e :: rest, locals => walk rest (resolve e locals)
  | .other :: rest, locals => walk rest locals

end

end Resolution

/-! What an expression does to one name. -/

section Events

variable {Ty : Type}

def bindEvents (x name : Name) (vi : VarInfo Ty) : List (Event (VarInfo Ty)) :=
  if x = name then [.bound vi] else []

def eraseEvents (x : Name) (names : List Name) : List (Event (VarInfo Ty)) :=
  if x ∈ names then [.erased] else []

def moveEvents (x : Name) : Expr Ty → List (Event (VarInfo Ty))
  | .ident name => if x = name then [.marked] else []
  | _ => []

def paramEvents (x : Name) (params : List (Param Ty)) : List (Event (VarInfo Ty)) :=
  params.flatMap fun p => p.entry.toList.flatMap (bindEvents x p.name)

def bindsEvents (x : Name) (binds : List (Name × Ty)) : List (Event (VarInfo Ty)) :=
  binds.flatMap fun bind => bindEvents x bind.1 (.fresh bind.2 0)

def typedEvents (x : Name) (type : Option (Ty × Nat)) (name : Name) : List (Event (VarInfo Ty)) :=
  type.toList.flatMap fun t => bindEvents x name (.fresh t.1 t.2)

mutual

def events (x : Name) : Expr Ty → List (Event (VarInfo Ty))
  | .ident _ => []
  | .node acts => actsEvents x acts
  | .matchOf scrutinee arms => actsEvents x scrutinee ++ armsEvents x arms
  | .catchUnwrap e _ => events x e
  | .listComp value var _ iterable filter =>
    if x = var then [] else events x iterable ++ allEvents x filter ++ events x value
  | .lambda params body =>
    paramEvents x params ++ events x body ++ eraseEvents x (paramNames params)
  | .lambdaBlock params body =>
    paramEvents x params ++ walkEvents x body ++ eraseEvents x (paramNames params)

def allEvents (x : Name) : List (Expr Ty) → List (Event (VarInfo Ty))
  | [] => []
  | e :: rest => events x e ++ allEvents x rest

def actEvents (x : Name) : Act Ty → List (Event (VarInfo Ty))
  | .resolve e => events x e
  | .move e => moveEvents x e

def actsEvents (x : Name) : List (Act Ty) → List (Event (VarInfo Ty))
  | [] => []
  | act :: rest => actEvents x act ++ actsEvents x rest

def armEvents (x : Name) : Arm Ty → List (Event (VarInfo Ty))
  | .mk binds acts cleans =>
    bindsEvents x binds ++ actsEvents x acts ++
      if cleans then eraseEvents x (armBindName binds) else []

def armsEvents (x : Name) : List (Arm Ty) → List (Event (VarInfo Ty))
  | [] => []
  | arm :: rest => armEvents x arm ++ armsEvents x rest

def walkEvents (x : Name) : List (Stmt Ty) → List (Event (VarInfo Ty))
  | [] => []
  | .ret value :: _ => allEvents x value
  | .varDecl type name init :: rest =>
    (if type.isSome then typedEvents x type name ++ allEvents x init else []) ++ walkEvents x rest
  | .exprStmt e :: rest => events x e ++ walkEvents x rest
  | .other :: rest => walkEvents x rest

end

end Events

section Replay

variable {Ty : Type} {tracked : Ty → Bool} {x : Name}

theorem markMoved_once (vi : VarInfo Ty) :
    markMoved tracked (markMoved tracked vi) = markMoved tracked vi := by
  unfold markMoved
  split
  · simp
  · rfl

variable (name : Name)

theorem update_replay (vi : VarInfo Ty) (locals : Locals Ty) :
    Function.update locals name (some vi) x =
      replay (markMoved tracked) (bindEvents x name vi) (locals x) := by
  unfold bindEvents
  by_cases same : x = name
  · rw [if_pos same, same, Function.update_self]
    rfl
  · rw [if_neg same, update_of_ne same]
    rfl

theorem erase_replay (names : List Name) (locals : Locals Ty) :
    erase names locals x = replay (markMoved tracked) (eraseEvents x names) (locals x) := by
  unfold erase eraseEvents
  split <;> rfl

theorem markExprAsMoved_replay (e : Expr Ty) (locals : Locals Ty) :
    markExprAsMoved tracked e locals x =
      replay (markMoved tracked) (moveEvents x e) (locals x) := by
  cases e with
  | ident name =>
    simp only [markExprAsMoved, moveEvents]
    by_cases same : x = name
    · rw [if_pos same, same, Function.update_self]
      rfl
    · rw [if_neg same, update_of_ne same]
      rfl
  | _ => rfl

theorem declareParams_replay (params : List (Param Ty)) (locals : Locals Ty) :
    declareParams params locals x =
      replay (markMoved tracked) (paramEvents x params) (locals x) := by
  induction params generalizing locals with
  | nil => rfl
  | cons p rest ih =>
    rw [declareParams, ih]
    show _ = replay (markMoved tracked)
      (p.entry.toList.flatMap (bindEvents x p.name) ++ paramEvents x rest) (locals x)
    rw [Bindings.replay_append]
    congr 1
    cases p.entry with
    | none => rfl
    | some vi =>
      simp only [Option.toList_some, flatMap_cons, flatMap_nil, append_nil]
      exact update_replay p.name vi locals

theorem declareBinds_replay (binds : List (Name × Ty)) (locals : Locals Ty) :
    declareBinds binds locals x = replay (markMoved tracked) (bindsEvents x binds) (locals x) := by
  induction binds generalizing locals with
  | nil => rfl
  | cons bind rest ih =>
    rw [declareBinds, ih]
    show _ = replay (markMoved tracked)
      (bindEvents x bind.1 (.fresh bind.2 0) ++ bindsEvents x rest) (locals x)
    rw [Bindings.replay_append, update_replay]

variable (type : Option (Ty × Nat))

theorem declareTyped_replay (locals : Locals Ty) :
    declareTyped type name locals x =
      replay (markMoved tracked) (typedEvents x type name) (locals x) := by
  cases type with
  | none => rfl
  | some t =>
    simp only [declareTyped, typedEvents, Option.toList_some, flatMap_cons, flatMap_nil, append_nil]
    exact update_replay name _ locals

theorem declareTyped_other {name : Name} (other : x ≠ name)
    (locals : Locals Ty) : declareTyped type name locals x = locals x := by
  cases type with
  | none => rfl
  | some t => exact update_of_ne other _ _

mutual

theorem resolve_replay (x : Name) (e : Expr Ty) (locals : Locals Ty) :
    resolve tracked e locals x = replay (markMoved tracked) (events x e) (locals x) := by
  match e with
  | .ident _ => rfl
  | .node acts => exact performAll_replay x acts locals
  | .matchOf scrutinee arms =>
    rw [resolve, events, Bindings.replay_append, ← performAll_replay x scrutinee]
    exact resolveArms_replay x arms _
  | .catchUnwrap e none =>
    rw [resolve, events]
    exact resolve_replay x e locals
  | .catchUnwrap e (some type) =>
    -- `it` is put back, and no other name is touched
    rw [resolve, events, ← resolve_replay x e]
    show restore "it" _ (Function.update _ "it" _) x = _
    unfold restore
    rw [update_idem, update_eq_self]
  | .listComp value var type iterable filter =>
    rw [resolve, events]
    by_cases same : x = var
    · rw [if_pos same, same]
      exact Function.update_self _ _ _
    · rw [if_neg same, Bindings.replay_append, Bindings.replay_append]
      have entered := declareTyped_other type same locals
      rw [restore, update_of_ne same, resolve_replay x value, resolveAll_replay x filter,
        resolve_replay x iterable, entered]
  | .lambda params body =>
    rw [resolve, events, Bindings.replay_append, Bindings.replay_append, ← declareParams_replay,
      ← resolve_replay x body, ← erase_replay]
  | .lambdaBlock params body =>
    rw [resolve, events, Bindings.replay_append, Bindings.replay_append, ← declareParams_replay,
      ← walk_replay x body, ← erase_replay]

theorem resolveAll_replay (x : Name) (es : List (Expr Ty)) (locals : Locals Ty) :
    resolveAll tracked es locals x = replay (markMoved tracked) (allEvents x es) (locals x) := by
  match es with
  | [] => rfl
  | e :: rest =>
    rw [resolveAll, allEvents, Bindings.replay_append, ← resolve_replay x e]
    exact resolveAll_replay x rest _

theorem perform_replay (x : Name) (act : Act Ty) (locals : Locals Ty) :
    perform tracked act locals x = replay (markMoved tracked) (actEvents x act) (locals x) := by
  match act with
  | .resolve e => exact resolve_replay x e locals
  | .move e => exact markExprAsMoved_replay e locals

theorem performAll_replay (x : Name) (acts : List (Act Ty)) (locals : Locals Ty) :
    performAll tracked acts locals x = replay (markMoved tracked) (actsEvents x acts) (locals x) := by
  match acts with
  | [] => rfl
  | act :: rest =>
    rw [performAll, actsEvents, Bindings.replay_append, ← perform_replay x act]
    exact performAll_replay x rest _

theorem resolveArm_replay (x : Name) (arm : Arm Ty) (locals : Locals Ty) :
    resolveArm tracked arm locals x = replay (markMoved tracked) (armEvents x arm) (locals x) := by
  match arm with
  | .mk binds acts cleans =>
    rw [resolveArm, armEvents, Bindings.replay_append, Bindings.replay_append,
      ← declareBinds_replay, ← performAll_replay x acts]
    cases cleans with
    | true => exact erase_replay _ _
    | false => rfl

theorem resolveArms_replay (x : Name) (arms : List (Arm Ty)) (locals : Locals Ty) :
    resolveArms tracked arms locals x = replay (markMoved tracked) (armsEvents x arms) (locals x) := by
  match arms with
  | [] => rfl
  | arm :: rest =>
    rw [resolveArms, armsEvents, Bindings.replay_append, ← resolveArm_replay x arm]
    exact resolveArms_replay x rest _

theorem walk_replay (x : Name) (body : List (Stmt Ty)) (locals : Locals Ty) :
    walk tracked body locals x = replay (markMoved tracked) (walkEvents x body) (locals x) := by
  match body with
  | [] => rfl
  | .ret value :: _ =>
    rw [walk, walkEvents]
    exact resolveAll_replay x value locals
  | .varDecl type name init :: rest =>
    rw [walk, walkEvents, Bindings.replay_append, walk_replay x rest]
    congr 1
    split
    · rw [Bindings.replay_append, ← declareTyped_replay]
      exact resolveAll_replay x init _
    · rfl
  | .exprStmt e :: rest =>
    rw [walk, walkEvents, Bindings.replay_append, ← resolve_replay x e]
    exact walk_replay x rest _
  | .other :: rest =>
    rw [walk, walkEvents]
    exact walk_replay x rest _

end

theorem lambda_param_lost {params} (bound : x ∈ paramNames params)
    (body : Expr Ty) (locals : Locals Ty) :
    resolve tracked (.lambda params body) locals x = none := by
  rw [resolve]
  exact if_pos bound

/-- Resolving gives the locals back just if, for each name, the last thing that binds it or
takes it out leaves what was there. -/
theorem resolve_restores_iff (tracked : Ty → Bool) (e : Expr Ty) (locals : Locals Ty) :
    resolve tracked e locals = locals ↔
      ∀ x, Restored (markMoved tracked) (events x e) (locals x) := by
  have each (x : Name) : resolve tracked e locals x = locals x ↔
      Restored (markMoved tracked) (events x e) (locals x) := by
    rw [resolve_replay]
    exact Bindings.replay_eq_iff markMoved_once (events x e) (locals x)
  constructor
  · intro same x
    exact (each x).mp (congrFun same x)
  · intro restored
    funext x
    exact (each x).mpr (restored x)

end Replay

section Shadowing

def outer : Locals String :=
  Function.update (fun _ => none) "x" (some (.fresh "int32" 0))

/-- After `int32 x = 5; auto f = (int32 x) => x;` there is no `x`, and a block lambda that
declares `int32 y` and returns it leaves it visible. -/
theorem lambdas_change_scope :
    resolve (fun _ => false)
        (.lambda [⟨"x", false, some ("int32", 0)⟩] (.ident "x")) outer ≠ outer ∧
      resolve (fun _ => false)
        (.lambdaBlock [] [.varDecl (some ("int32", 0)) "y" [], .ret [.ident "y"]]) outer ≠
          outer := by
  constructor
  · intro same
    have gone := congrFun same "x"
    rw [lambda_param_lost (mem_singleton.mpr rfl)] at gone
    cases gone
  · intro same
    have stays := congrFun same "y"
    simp [resolve, resolveAll, walk, declareParams, paramNames, declareTyped, erase, outer] at stays

end Shadowing

end Lucis.ScopeRestoration
