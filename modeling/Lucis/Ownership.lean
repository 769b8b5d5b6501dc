import Mathlib.Data.List.Nodup
import Mathlib.Data.List.Perm.Basic

/-!
Ownership of local variables in checkers/Checker_safety.cpp. The walk over a body is
the list of what it does to that state, in the order in which the checker comes to
it: expressions before the moves they feed, an `enter` and a `leave` where a block
saves and restores `locals_`. Which variables are drop-tracked and what an
initializer makes of a variable follow from types alone, so the list holds them; so
do the branches that are looked into. Generic functions and methods are left out.
`sites` is not in the source: it keeps for each argument what its call did.
-/

namespace Lucis.Ownership

open List Function

abbrev Text := List Char

/-- `VarInfo::OwnershipState`, without the states that are never set nor asked for. -/
inductive OwnershipState where
  | owned
  | borrowedImm
  | moved
  | dropped
  deriving DecidableEq

structure VarInfo where
  dropTracked : Bool
  ownership : OwnershipState
  deriving DecidableEq

def VarInfo.gone (vi : VarInfo) : Bool :=
  vi.ownership = .moved || vi.ownership = .dropped

abbrev Locals := Text → Option VarInfo

def tracked (locals : Locals) (name : Text) : Bool :=
  (locals name).any VarInfo.dropTracked

def gone (locals : Locals) (name : Text) : Bool :=
  (locals name).any VarInfo.gone

inductive Error where
  | useAfterMove (name : Text) (pos : Nat)
  | doubleMove (name : Text) (pos : Nat)
  deriving DecidableEq

/-- The vectors of `userFunctionConsumingArgs_`: an index is pushed once. -/
abbrev Indices := { indices : List Nat // indices.Nodup }

def Indices.push (is : Indices) (i : Nat) : Indices :=
  if fresh : i ∈ is.val then is
  else ⟨is.val ++ [i], List.nodup_append.mpr ⟨is.property, List.nodup_singleton i, by
    intro a member b single same
    rw [List.mem_singleton.mp single] at same
    exact fresh (same ▸ member)⟩⟩

theorem Indices.mem_push (is : Indices) (i j : Nat) : j ∈ (is.push i).val ↔ j ∈ is.val ∨ j = i := by
  unfold Indices.push
  split
  · next member =>
      constructor
      · exact .inl
      · rintro (old | rfl)
        · exact old
        · exact member
  · simp

structure ConsumeEdge where
  caller : Text
  callerParamIdx : Nat
  calleeKey : Text
  calleeArgIdx : Nat
  deriving DecidableEq

structure Site where
  caller : Text
  callee : Text
  argIdx : Nat
  moved : Bool

inductive Action where
  | use (name : Text) (pos : Nat)
  | move (name : Text) (pos : Nat)
  | call (callee : Text) (args : List (Option Text)) (pos : Nat)
  | declare (name : Text) (vi : VarInfo)
  | assign (name : Text) (ownership : OwnershipState)
  | erase (name : Text)
  | enter
  | leave

structure Function where
  key : Text
  params : List (Text × VarInfo)
  body : List Action

/-- `currentParamIndices_` -/
def Function.paramIdx (fn : Function) (name : Text) : Option Nat :=
  (fn.params.map Prod.fst).idxOf? name

structure State where
  locals : Locals
  saved : List Locals
  userFunctionConsumingArgs : Text → Indices
  consumeEdges : List ConsumeEdge
  errors : List Error
  sites : List Site

section Effects

def consume (key : Text) (i : Nat) (s : State) : State :=
  { s with userFunctionConsumingArgs :=
      Function.update s.userFunctionConsumingArgs key ((s.userFunctionConsumingArgs key).push i) }

/-- What `markExprAsMoved` does with an identifier; it does nothing with another expression. -/
def markExprAsMoved (fn : Function) (name : Text) (pos : Nat) (s : State) : State :=
  match s.locals name with
  | none => s
  | some vi =>
    if vi.dropTracked then
      -- recorded before the state is looked at
      let recorded :=
        match fn.paramIdx name with
        | some i => consume fn.key i s
        | none => s
      if vi.gone then { recorded with errors := recorded.errors ++ [.doubleMove name pos] }
      else { recorded with
        locals := Function.update recorded.locals name (some { vi with ownership := .moved }) }
    else s

def validateExprNotMoved (name : Text) (pos : Nat) (s : State) : State :=
  match s.locals name with
  | none => s
  | some vi =>
    if vi.dropTracked && vi.gone then { s with errors := s.errors ++ [.useAfterMove name pos] }
    else s

def argument (args : List (Option Text)) (i : Nat) : Option Text := args[i]?.join

def recordConsumeEdgeIfParam (fn : Function) (callee : Text) (s : State)
    (arg : Option Text × Nat) : State :=
  match arg.1.bind fn.paramIdx with
  | none => s
  | some p =>
    if ⟨fn.key, p, callee, arg.2⟩ ∈ s.consumeEdges then s
    else { s with consumeEdges := s.consumeEdges ++ [⟨fn.key, p, callee, arg.2⟩] }

def callSites (fn : Function) (callee : Text) (args : List (Option Text)) (s : State) : List Site :=
  args.zipIdx.filterMap fun arg => arg.1.bind fun name =>
    if tracked s.locals name then
      some ⟨fn.key, callee, arg.2, decide (arg.2 ∈ (s.userFunctionConsumingArgs callee).val)⟩
    else none

def markAll (fn : Function) (pos : Nat) (names : List Text) (s : State) : State :=
  names.foldl (fun s name => markExprAsMoved fn name pos s) s

def argumentsAt (args : List (Option Text)) (is : List Nat) : List Text :=
  is.filterMap (argument args)

/-- A call of a function of the program. A builtin one moves what its registry says: those are
`move`s of the caller. -/
def applyCallOwnershipEffects (fn : Function) (callee : Text) (args : List (Option Text)) (pos : Nat)
    (s : State) : State :=
  let marked := markAll fn pos (argumentsAt args (s.userFunctionConsumingArgs callee).val) s
  { args.zipIdx.foldl (recordConsumeEdgeIfParam fn callee) marked with
    sites := s.sites ++ callSites fn callee args s }

/-- `updateOwnershipOnInitialization` of a variable assigned as a whole -/
def initialized (ownership : OwnershipState) (vi : VarInfo) : VarInfo :=
  if vi.dropTracked then { vi with ownership := ownership } else vi

def act (fn : Function) (s : State) : Action → State
  | .use name pos => validateExprNotMoved name pos s
  | .move name pos => markExprAsMoved fn name pos s
  | .call callee args pos => applyCallOwnershipEffects fn callee args pos s
  | .declare name vi => { s with locals := Function.update s.locals name (some vi) }
  | .assign name ownership =>
    { s with locals := Function.update s.locals name ((s.locals name).map (initialized ownership)) }
  | .erase name => { s with locals := Function.update s.locals name none }
  | .enter => { s with saved := s.locals :: s.saved }
  | .leave => { s with locals := s.saved.headD s.locals, saved := s.saved.tail }

def entryLocals (globals : Locals) (params : List (Text × VarInfo)) : Locals :=
  params.foldl (fun locals param => Function.update locals param.1 (some param.2)) globals

def checkFunction (globals : Locals) (s : State) (fn : Function) : State :=
  fn.body.foldl (act fn) { s with locals := entryLocals globals fn.params, saved := [] }

def State.start (known : Text → Indices) : State where
  locals _ := none
  saved := []
  userFunctionConsumingArgs := known
  consumeEdges := []
  errors := []
  sites := []

/-- Pass 5 of `check`: the bodies in the order of the file. -/
def checkFunctions (globals : Locals) (known : Text → Indices) (functions : List Function) : State :=
  functions.foldl (checkFunction globals) (.start known)

end Effects

section Marking

def VarInfo.move (vi : VarInfo) : VarInfo :=
  if vi.dropTracked && !vi.gone then { vi with ownership := .moved } else vi

@[simp] theorem move_dropTracked (vi : VarInfo) : vi.move.dropTracked = vi.dropTracked := by
  unfold VarInfo.move
  split <;> rfl

variable (vi : VarInfo)

theorem move_gone : vi.move.gone = (vi.gone || vi.dropTracked) := by
  unfold VarInfo.move
  split
  · next held => simp_all [VarInfo.gone]
  · next held =>
      cases gone : vi.gone with
      | true => rfl
      | false =>
        cases dropTracked : vi.dropTracked with
        | true => simp [gone, dropTracked] at held
        | false => rfl

theorem move_move : vi.move.move = vi.move := by
  have still : (vi.move.dropTracked && !vi.move.gone) = false := by
    rw [move_dropTracked, move_gone]
    cases vi.dropTracked <;> simp
  rw [VarInfo.move, still]
  rfl

variable (fn : Function) (pos : Nat) (s : State) (name : Text)

theorem mark_locals : (markExprAsMoved fn name pos s).locals =
      Function.update s.locals name ((s.locals name).map VarInfo.move) := by
  unfold markExprAsMoved
  cases found : s.locals name with
  | none =>
    have same : Function.update s.locals name none = s.locals := by
      rw [← found, update_eq_self]
    exact same.symm
  | some vi =>
    cases dropTracked : vi.dropTracked with
    | false =>
      have same : vi.move = vi := by simp [VarInfo.move, dropTracked]
      simp only [dropTracked, Bool.false_eq_true, if_false, Option.map_some, same]
      rw [← found, update_eq_self]
    | true =>
      cases gone : vi.gone with
      | true =>
        have same : vi.move = vi := by simp [VarInfo.move, gone]
        simp only [dropTracked, gone, if_true, Option.map_some, same]
        rw [← found, update_eq_self]
        cases fn.paramIdx name <;> rfl
      | false =>
        have moved : vi.move = { vi with ownership := .moved } := by
          simp [VarInfo.move, dropTracked, gone]
        simp only [dropTracked, gone, if_true, Bool.false_eq_true, if_false, Option.map_some, moved]
        cases fn.paramIdx name <;> rfl

theorem mark_rest : (markExprAsMoved fn name pos s).saved = s.saved ∧
      (markExprAsMoved fn name pos s).consumeEdges = s.consumeEdges ∧
      (markExprAsMoved fn name pos s).sites = s.sites := by
  unfold markExprAsMoved
  cases s.locals name with
  | none => exact ⟨rfl, rfl, rfl⟩
  | some vi =>
    cases dropTracked : vi.dropTracked with
    | false => simp [dropTracked]
    | true =>
      cases gone : vi.gone <;> cases fn.paramIdx name <;> simp [dropTracked, gone, consume]

theorem mark_errors : (markExprAsMoved fn name pos s).errors =
      s.errors ++ if tracked s.locals name && gone s.locals name then [.doubleMove name pos]
        else [] := by
  unfold markExprAsMoved tracked Ownership.gone
  cases s.locals name with
  | none => simp
  | some vi =>
    cases dropTracked : vi.dropTracked with
    | false => simp [dropTracked]
    | true =>
      cases gone : vi.gone <;> cases fn.paramIdx name <;> simp [dropTracked, gone, consume]

theorem mem_consume (key f : Text) (i j : Nat) :
    j ∈ ((consume key i s).userFunctionConsumingArgs f).val ↔
      j ∈ (s.userFunctionConsumingArgs f).val ∨ f = key ∧ j = i := by
  by_cases same : f = key
  · subst same
    simp [consume, Indices.mem_push]
  · simp [consume, same]

theorem mem_mark (f : Text) (j : Nat) :
    j ∈ ((markExprAsMoved fn name pos s).userFunctionConsumingArgs f).val ↔
      j ∈ (s.userFunctionConsumingArgs f).val ∨
        f = fn.key ∧ tracked s.locals name ∧ fn.paramIdx name = some j := by
  unfold markExprAsMoved tracked
  cases s.locals name with
  | none => simp
  | some vi =>
    cases dropTracked : vi.dropTracked with
    | false => simp [dropTracked]
    | true =>
      cases gone : vi.gone <;> cases index : fn.paramIdx name <;>
        simp [dropTracked, gone, mem_consume, eq_comm]

end Marking

section Marks

variable (fn : Function) (pos : Nat)

theorem mark_tracked (s : State) (x y : Text) :
    tracked (markExprAsMoved fn x pos s).locals y = tracked s.locals y := by
  rw [mark_locals]
  by_cases same : y = x
  · subst same
    cases found : s.locals y <;> simp [tracked, found]
  · simp [tracked, update_of_ne same]

theorem mark_gone (s : State) (x y : Text) :
    gone (markExprAsMoved fn x pos s).locals y = (gone s.locals y || (y == x && tracked s.locals y)) := by
  rw [mark_locals]
  by_cases same : y = x
  · subst same
    cases found : s.locals y <;> simp [gone, tracked, found, move_gone]
  · simp [gone, tracked, same]

variable (names : List Text)

theorem markAll_locals (s : State) (y : Text) :
    (markAll fn pos names s).locals y =
      if y ∈ names then (s.locals y).map VarInfo.move else s.locals y := by
  induction names generalizing s with
  | nil => rfl
  | cons x rest ih =>
    rw [markAll, foldl_cons, ← markAll, ih, mark_locals]
    by_cases same : y = x
    · subst same
      cases s.locals y <;> simp [move_move]
    · simp [same]

theorem markAll_rest (s : State) : (markAll fn pos names s).saved = s.saved ∧
      (markAll fn pos names s).consumeEdges = s.consumeEdges ∧
      (markAll fn pos names s).sites = s.sites := by
  induction names generalizing s with
  | nil => exact ⟨rfl, rfl, rfl⟩
  | cons x rest ih =>
    rcases mark_rest fn pos s x with ⟨saved, edges, sites⟩
    rcases ih (markExprAsMoved fn x pos s) with ⟨saved_rest, edges_rest, sites_rest⟩
    exact ⟨saved_rest.trans saved, edges_rest.trans edges, sites_rest.trans sites⟩

theorem mem_markAll (s : State) (f : Text) (j : Nat) :
    j ∈ ((markAll fn pos names s).userFunctionConsumingArgs f).val ↔
      j ∈ (s.userFunctionConsumingArgs f).val ∨
        ∃ x ∈ names, f = fn.key ∧ tracked s.locals x ∧ fn.paramIdx x = some j := by
  induction names generalizing s with
  | nil => simp [markAll]
  | cons x rest ih =>
    rw [markAll, foldl_cons, ← markAll, ih, mem_mark]
    simp only [mark_tracked, mem_cons, exists_eq_or_imp, or_assoc]

theorem markAll_errors (s : State) (e : Error) :
    e ∈ (markAll fn pos names s).errors ↔
      e ∈ s.errors ∨ ∃ y, e = .doubleMove y pos ∧ tracked s.locals y ∧
        (gone s.locals y ∧ 1 ≤ names.count y ∨ 2 ≤ names.count y) := by
  induction names generalizing s with
  | nil => simp [markAll]
  | cons x rest ih =>
    rw [markAll, foldl_cons, ← markAll, ih, mark_errors]
    simp only [mark_tracked, mark_gone, count_cons, mem_append]
    constructor
    · rintro ((old | new) | ⟨y, rfl, held, twice⟩)
      · exact .inl old
      · split at new
        · next both =>
            simp only [Bool.and_eq_true] at both
            exact .inr ⟨x, mem_singleton.1 new, both.1, .inl ⟨both.2, by simp⟩⟩
        · cases new
      · refine .inr ⟨y, rfl, held, ?_⟩
        by_cases same : x = y
        · subst same
          simp only [beq_self_eq_true, if_true]
          rcases twice with ⟨_, more⟩ | more
          · exact .inr (by omega)
          · exact .inr (by omega)
        · have other : ¬y = x := fun equal => same equal.symm
          simpa [same, other] using twice
    · rintro (old | ⟨y, rfl, held, twice⟩)
      · exact .inl (.inl old)
      · by_cases same : x = y
        · subst same
          simp only [beq_self_eq_true, if_true] at twice
          cases before : gone s.locals x with
          | true => exact .inl (.inr (by simp [held]))
          | false =>
            simp only [before, Bool.false_eq_true, false_and, false_or] at twice
            exact .inr ⟨x, rfl, held, .inl ⟨by simp [held], by omega⟩⟩
        · have other : ¬y = x := fun equal => same equal.symm
          exact .inr ⟨y, rfl, held, by simpa [same, other] using twice⟩

end Marks

section Calls

variable (fn : Function) (callee : Text) (args : List (Option Text)) (pos : Nat)

variable (s : State) (arg : Option Text × Nat)

theorem record_eq : recordConsumeEdgeIfParam fn callee s arg =
      { s with consumeEdges := (recordConsumeEdgeIfParam fn callee s arg).consumeEdges } := by
  unfold recordConsumeEdgeIfParam
  cases arg.1.bind fn.paramIdx with
  | none => rfl
  | some p =>
    simp only
    split <;> rfl

variable (entries : List (Option Text × Nat))

theorem records_eq (s : State) :
    entries.foldl (recordConsumeEdgeIfParam fn callee) s = { s with consumeEdges :=
          (entries.foldl (recordConsumeEdgeIfParam fn callee) s).consumeEdges } := by
  induction entries generalizing s with
  | nil => rfl
  | cons arg rest ih =>
    rw [foldl_cons, ih, record_eq fn callee s arg]

variable (e : ConsumeEdge)

theorem mem_record :
    e ∈ (recordConsumeEdgeIfParam fn callee s arg).consumeEdges ↔ e ∈ s.consumeEdges ∨
        ∃ p, arg.1.bind fn.paramIdx = some p ∧ e = ⟨fn.key, p, callee, arg.2⟩ := by
  unfold recordConsumeEdgeIfParam
  cases arg.1.bind fn.paramIdx with
  | none => simp
  | some p =>
    simp only [Option.some.injEq, exists_eq_left']
    split
    · next known =>
        constructor
        · exact .inl
        · rintro (old | rfl)
          · exact old
          · exact known
    · simp

theorem mem_records (s : State) (e : ConsumeEdge) :
    e ∈ (entries.foldl (recordConsumeEdgeIfParam fn callee) s).consumeEdges ↔
      e ∈ s.consumeEdges ∨ ∃ arg ∈ entries, ∃ p, arg.1.bind fn.paramIdx = some p ∧
        e = ⟨fn.key, p, callee, arg.2⟩ := by
  induction entries generalizing s with
  | nil => simp
  | cons arg rest ih =>
    rw [foldl_cons, ih, mem_record]
    simp only [mem_cons, exists_eq_or_imp, or_assoc]

theorem call_locals : (applyCallOwnershipEffects fn callee args pos s).locals =
      (markAll fn pos (argumentsAt args (s.userFunctionConsumingArgs callee).val) s).locals := by
  rw [applyCallOwnershipEffects, records_eq]

theorem call_saved :
    (applyCallOwnershipEffects fn callee args pos s).saved = s.saved := by
  rw [applyCallOwnershipEffects, records_eq]
  exact (markAll_rest fn pos _ s).1

theorem call_errors : (applyCallOwnershipEffects fn callee args pos s).errors =
      (markAll fn pos (argumentsAt args (s.userFunctionConsumingArgs callee).val) s).errors := by
  rw [applyCallOwnershipEffects, records_eq]

theorem call_consuming :
    (applyCallOwnershipEffects fn callee args pos s).userFunctionConsumingArgs =
      (markAll fn pos (argumentsAt args (s.userFunctionConsumingArgs callee).val)
        s).userFunctionConsumingArgs := by
  rw [applyCallOwnershipEffects, records_eq]

theorem mem_call_edges :
    e ∈ (applyCallOwnershipEffects fn callee args pos s).consumeEdges ↔
      e ∈ s.consumeEdges ∨ ∃ arg ∈ args.zipIdx, ∃ p, arg.1.bind fn.paramIdx = some p ∧
        e = ⟨fn.key, p, callee, arg.2⟩ := by
  rw [applyCallOwnershipEffects]
  simp only [mem_records, (markAll_rest fn pos _ s).2.1]

theorem call_sites : (applyCallOwnershipEffects fn callee args pos s).sites =
      s.sites ++ callSites fn callee args s := rfl

theorem count_argumentsAt_le {is js : List Nat} (first : is.Nodup) (name : Text)
    (among : ∀ i, argument args i = some name → i ∈ is → i ∈ js) :
    (argumentsAt args is).count name ≤ (argumentsAt args js).count name := by
  rw [argumentsAt, argumentsAt, count_eq_countP, count_eq_countP, countP_filterMap,
    countP_filterMap, countP_eq_length_filter, countP_eq_length_filter]
  apply List.Subperm.length_le
  apply subperm_of_subset (first.filter _)
  intro i member
  rcases mem_filter.1 member with ⟨here, there⟩
  refine mem_filter.2 ⟨among i ?_ here, there⟩
  cases found : argument args i with
  | none => simp [found] at there
  | some other => simpa [found] using there

theorem count_argumentsAt {is js : List Nat} (first : is.Nodup) (second : js.Nodup) (name : Text)
    (same : ∀ i, argument args i = some name → (i ∈ is ↔ i ∈ js)) :
    (argumentsAt args is).count name = (argumentsAt args js).count name := by
  apply Nat.le_antisymm
  · exact count_argumentsAt_le args first name fun i there => (same i there).mp
  · exact count_argumentsAt_le args second name fun i there => (same i there).mpr

end Calls

end Lucis.Ownership
