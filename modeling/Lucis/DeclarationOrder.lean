import Lucis.Library.Saturation
import Lucis.Ownership

/-!
Ownership verdicts of a file whose functions stand in any order. A call moves what
its callee is known to consume when the call is checked, and that knowledge grows
from body to body; `resolveConsumptionFixpoint` completes it behind the last one.
The names a body uses do not depend on it: they are collected apart, and what every
order of the file has in common is stated in terms of them.
-/

namespace Lucis.DeclarationOrder

open Ownership List
open Option hiding or_assoc

section Fixpoint

/-- The entries of `userFunctionConsumingArgs_`. -/
def entries : Saturation.Facts (Text → Indices) (Text × Nat) where
  has consuming entry := decide (entry.2 ∈ (consuming entry.1).val)
  add consuming entry := Function.update consuming entry.1 ((consuming entry.1).push entry.2)
  has_add consuming entry other := by
    rcases entry with ⟨f, i⟩
    rcases other with ⟨g, j⟩
    by_cases same : g = f
    · subst same
      simp [Indices.mem_push]
    · simp [same]

def edgeRule (e : ConsumeEdge) : (Text × Nat) × (Text × Nat) :=
  ((e.calleeKey, e.calleeArgIdx), (e.caller, e.callerParamIdx))

def resolveConsumptionFixpoint (s : State) : Text → Indices :=
  Saturation.saturate entries (s.consumeEdges.map edgeRule) s.userFunctionConsumingArgs

end Fixpoint

section Uses

abbrev Scope := Text → Option Bool

def scopeOf (locals : Locals) : Scope := fun name => (locals name).map VarInfo.dropTracked

/-- What a body does with its variables, whatever is known of the functions it calls: those it
moves itself, the arguments that are variables, and those among them that are drop-tracked. -/
structure Uses where
  scope : Scope
  saved : List Scope
  moves : List Text
  passes : List (Text × Nat × Text)
  tracked : List (Text × Nat)

def passesOf (callee : Text) (args : List (Option Text)) : List (Text × Nat × Text) :=
  args.zipIdx.filterMap fun arg => arg.1.map fun name => (callee, arg.2, name)

def trackedOf (scope : Scope) (callee : Text) (args : List (Option Text)) : List (Text × Nat) :=
  args.zipIdx.filterMap fun arg => arg.1.bind fun name =>
    if scope name = some true then some (callee, arg.2) else none

def note (u : Uses) : Action → Uses
  | .use _ _ => u
  | .move name _ => if u.scope name = some true then { u with moves := u.moves ++ [name] } else u
  | .call callee args _ =>
    { u with
      passes := u.passes ++ passesOf callee args
      tracked := u.tracked ++ trackedOf u.scope callee args }
  | .declare name vi => { u with scope := Function.update u.scope name (some vi.dropTracked) }
  | .assign _ _ => u
  | .erase name => { u with scope := Function.update u.scope name none }
  | .enter => { u with saved := u.scope :: u.saved }
  | .leave => { u with scope := u.saved.headD u.scope, saved := u.saved.tail }

def usesOf (globals : Locals) (fn : Function) : Uses :=
  fn.body.foldl note ⟨scopeOf (entryLocals globals fn.params), [], [], [], []⟩

/-- The parameters a file's functions consume: known before, moved by the body, or passed on to a
parameter that is consumed. -/
inductive Consumed (globals : Locals) (known : Text → Indices) (functions : List Function) :
    Text → Nat → Prop where
  | known {f i} (there : i ∈ (known f).val) : Consumed globals known functions f i
  | moved {fn name i} (declared : fn ∈ functions) (moves : name ∈ (usesOf globals fn).moves)
      (index : fn.paramIdx name = some i) : Consumed globals known functions fn.key i
  | passed {fn callee j name i} (declared : fn ∈ functions)
      (passes : (callee, j, name) ∈ (usesOf globals fn).passes) (index : fn.paramIdx name = some i)
      (onward : Consumed globals known functions callee j) : Consumed globals known functions fn.key i

variable {args : List (Option Text)} {callee f : Text}

theorem mem_passesOf {i : Nat} {name : Text} :
    (f, i, name) ∈ passesOf callee args ↔ f = callee ∧ argument args i = some name := by
  simp only [passesOf, argument, mem_filterMap, Prod.exists, mk_mem_zipIdx_iff_getElem?]
  constructor
  · rintro ⟨arg, j, there, found⟩
    cases arg with
    | none => cases found
    | some x =>
      simp only [map_some, Option.some.injEq, Prod.mk.injEq] at found
      rcases found with ⟨rfl, rfl, rfl⟩
      simp [there]
  · rintro ⟨rfl, found⟩
    refine ⟨some name, i, ?_, rfl⟩
    cases there : args[i]? with
    | none => simp [there] at found
    | some arg => simpa [there] using found

theorem mem_trackedOf {scope : Scope} {i : Nat} : (f, i) ∈ trackedOf scope callee args ↔
      f = callee ∧ ∃ name, argument args i = some name ∧ scope name = some true := by
  simp only [trackedOf, argument, mem_filterMap, Prod.exists, mk_mem_zipIdx_iff_getElem?]
  constructor
  · rintro ⟨arg, j, there, found⟩
    cases arg with
    | none => cases found
    | some x =>
      simp only [bind_some, ite_none_right_eq_some, Option.some.injEq, Prod.mk.injEq] at found
      rcases found with ⟨held, rfl, rfl⟩
      exact ⟨rfl, x, by simp [there], held⟩
  · rintro ⟨rfl, name, found, held⟩
    refine ⟨some name, i, ?_, by simp [held]⟩
    cases there : args[i]? with
    | none => simp [there] at found
    | some arg => simpa [there] using found

structure Extends (u v : Uses) : Prop where
  moves : u.moves ⊆ v.moves
  passes : u.passes ⊆ v.passes
  tracked : u.tracked ⊆ v.tracked

theorem Extends.same {u v : Uses} (moves : u.moves = v.moves) (passes : u.passes = v.passes)
    (tracked : u.tracked = v.tracked) : Extends u v :=
  ⟨moves ▸ List.Subset.refl _, passes ▸ List.Subset.refl _, tracked ▸ List.Subset.refl _⟩

theorem Extends.trans {u v w : Uses} (first : Extends u v) (second : Extends v w) : Extends u w :=
  ⟨List.Subset.trans first.moves second.moves, List.Subset.trans first.passes second.passes,
    List.Subset.trans first.tracked second.tracked⟩

theorem note_extends (u : Uses) (a : Action) : Extends u (note u a) := by
  cases a with
  | move name pos =>
    simp only [note]
    split
    · exact ⟨subset_append_left _ _, List.Subset.refl _, List.Subset.refl _⟩
    · exact .same rfl rfl rfl
  | call callee args pos =>
    exact ⟨List.Subset.refl _, subset_append_left _ _, subset_append_left _ _⟩
  | use _ _ => exact .same rfl rfl rfl
  | declare _ _ => exact .same rfl rfl rfl
  | assign _ _ => exact .same rfl rfl rfl
  | erase _ => exact .same rfl rfl rfl
  | enter => exact .same rfl rfl rfl
  | leave => exact .same rfl rfl rfl

theorem notes_extend (body : List Action) (u : Uses) : Extends u (body.foldl note u) := by
  induction body generalizing u with
  | nil => exact .same rfl rfl rfl
  | cons a rest ih => exact (note_extends u a).trans (ih (note u a))

end Uses

section Walking

variable (globals : Locals) (known : Text → Indices) (functions : List Function)

/-- The walk over a body from `base` on, beside what was noted of the body so far. -/
structure Walked (fn : Function) (base : State) (u : Uses) (s : State) : Prop where
  scope : u.scope = scopeOf s.locals
  saved : u.saved = s.saved.map scopeOf
  below : ∀ f i, i ∈ (s.userFunctionConsumingArgs f).val → Consumed globals known functions f i
  keeps : ∀ f i, i ∈ (base.userFunctionConsumingArgs f).val →
    i ∈ (s.userFunctionConsumingArgs f).val
  others : ∀ f, f ≠ fn.key → ∀ i, i ∈ (s.userFunctionConsumingArgs f).val →
    i ∈ (base.userFunctionConsumingArgs f).val
  recorded : ∀ name ∈ u.moves, ∀ i, fn.paramIdx name = some i →
    i ∈ (s.userFunctionConsumingArgs fn.key).val
  edges : ∀ e, e ∈ s.consumeEdges ↔ e ∈ base.consumeEdges ∨
    ∃ callee j name p, (callee, j, name) ∈ u.passes ∧ fn.paramIdx name = some p ∧
      e = ⟨fn.key, p, callee, j⟩
  kept : base.sites ⊆ s.sites
  sites : ∀ site ∈ s.sites, site ∈ base.sites ∨ site.caller = fn.key ∧
    (site.callee, site.argIdx) ∈ u.tracked ∧
      (site.callee ≠ fn.key →
        (site.moved = true ↔ site.argIdx ∈ (base.userFunctionConsumingArgs site.callee).val))
  covered : ∀ callee i, (callee, i) ∈ u.tracked →
    ∃ moved, (⟨fn.key, callee, i, moved⟩ : Site) ∈ s.sites

variable {globals known functions}

theorem scopeOf_update (locals : Locals) (name : Text) (vi : Option VarInfo) :
    scopeOf (Function.update locals name vi) =
      Function.update (scopeOf locals) name (vi.map VarInfo.dropTracked) := by
  funext x
  by_cases same : x = name
  · subst same
    simp [scopeOf]
  · simp [scopeOf, same]

theorem scopeOf_tracked {locals : Locals} {name : Text} :
    scopeOf locals name = some true ↔ tracked locals name = true := by
  cases found : locals name <;> simp [scopeOf, tracked, found]

theorem scopeOf_mark (fn : Function) (pos : Nat) (name : Text) (s : State) :
    scopeOf (markExprAsMoved fn name pos s).locals = scopeOf s.locals := by
  rw [mark_locals, scopeOf_update]
  funext x
  by_cases same : x = name
  · subst same
    cases found : s.locals x <;> simp [scopeOf, found]
  · simp [same]

theorem scopeOf_markAll (fn : Function) (pos : Nat) (names : List Text) (s : State) :
    scopeOf (markAll fn pos names s).locals = scopeOf s.locals := by
  induction names generalizing s with
  | nil => rfl
  | cons x rest ih =>
    rw [markAll, foldl_cons, ← markAll, ih, scopeOf_mark]

variable {fn : Function} {base s : State} {u : Uses}

variable (walked : Walked globals known functions fn base u s)
include walked

theorem Walked.quiet {v : Uses} {t : State} (scope : v.scope = scopeOf t.locals)
    (saved : v.saved = t.saved.map scopeOf)
    (consuming : t.userFunctionConsumingArgs = s.userFunctionConsumingArgs)
    (edges : t.consumeEdges = s.consumeEdges) (sites : t.sites = s.sites)
    (moves : v.moves = u.moves) (passes : v.passes = u.passes) (tracked : v.tracked = u.tracked) :
    Walked globals known functions fn base v t where
  scope := scope
  saved := saved
  below := by
    rw [consuming]
    exact walked.below
  keeps := by
    rw [consuming]
    exact walked.keeps
  others := by
    rw [consuming]
    exact walked.others
  recorded := by
    rw [consuming, moves]
    exact walked.recorded
  edges := by
    rw [edges, passes]
    exact walked.edges
  kept := by
    rw [sites]
    exact walked.kept
  sites := by
    rw [sites, tracked]
    exact walked.sites
  covered := by
    rw [sites, tracked]
    exact walked.covered

omit walked in
theorem validate_rest (name : Text) (pos : Nat) (s : State) : validateExprNotMoved name pos s =
      { s with errors := (validateExprNotMoved name pos s).errors } := by
  unfold validateExprNotMoved
  cases s.locals name with
  | none => rfl
  | some vi =>
    simp only
    split <;> rfl

variable {final : Uses}

variable (declared : fn ∈ functions)
include declared

theorem walked_move
    (final_eq : final = usesOf globals fn) (name : Text) (pos : Nat)
    (within : Extends (note u (.move name pos)) final) :
    Walked globals known functions fn base (note u (.move name pos)) (markExprAsMoved fn name pos s) := by
  rcases mark_rest fn pos s name with ⟨saved, edges, sites⟩
  by_cases held : u.scope name = some true
  · have noted : note u (.move name pos) = { u with moves := u.moves ++ [name] } := if_pos held
    rw [noted] at within ⊢
    have is_tracked : tracked s.locals name = true := by
      rw [walked.scope] at held
      exact scopeOf_tracked.1 held
    constructor
    · rw [scopeOf_mark]
      exact walked.scope
    · rw [saved]
      exact walked.saved
    · intro f i member
      rcases (mem_mark fn pos s name f i).1 member with old | ⟨rfl, _, index⟩
      · exact walked.below f i old
      · refine .moved declared ?_ index
        rw [← final_eq]
        exact within.moves (by simp)
    · intro f i member
      exact (mem_mark fn pos s name f i).2 (.inl (walked.keeps f i member))
    · intro f other i member
      rcases (mem_mark fn pos s name f i).1 member with old | ⟨same, _⟩
      · exact walked.others f other i old
      · exact absurd same other
    · intro x member i index
      rcases mem_append.1 member with old | new
      · exact (mem_mark fn pos s name fn.key i).2 (.inl (walked.recorded x old i index))
      · rw [mem_singleton.1 new] at index
        exact (mem_mark fn pos s name fn.key i).2 (.inr ⟨rfl, is_tracked, index⟩)
    · rw [edges]
      exact walked.edges
    · rw [sites]
      exact walked.kept
    · rw [sites]
      exact walked.sites
    · rw [sites]
      exact walked.covered
  · have noted : note u (.move name pos) = u := if_neg held
    have untracked : tracked s.locals name = false := by
      rw [walked.scope, scopeOf_tracked] at held
      simpa using held
    have unmarked : markExprAsMoved fn name pos s = s := by
      unfold markExprAsMoved
      unfold tracked at untracked
      cases found : s.locals name with
      | none => rfl
      | some vi =>
        simp only [found, any_some] at untracked
        simp [untracked]
    rw [noted, unmarked]
    exact walked

omit declared in
omit walked in
theorem edge_passed (fn : Function) (callee : Text) (args : List (Option Text)) (e : ConsumeEdge) :
    (∃ arg ∈ args.zipIdx, ∃ p, arg.1.bind fn.paramIdx = some p ∧ e = ⟨fn.key, p, callee, arg.2⟩) ↔
      ∃ f j name p, (f, j, name) ∈ passesOf callee args ∧ fn.paramIdx name = some p ∧
        e = ⟨fn.key, p, f, j⟩ := by
  constructor
  · rintro ⟨⟨arg, j⟩, member, p, index, rfl⟩
    cases arg with
    | none => cases index
    | some name =>
      have there := mk_mem_zipIdx_iff_getElem?.mp member
      exact ⟨callee, j, name, p, mem_passesOf.2 ⟨rfl, by simp [argument, there]⟩, index, rfl⟩
  · rintro ⟨f, j, name, p, passes, index, rfl⟩
    rcases mem_passesOf.1 passes with ⟨rfl, found⟩
    refine ⟨(some name, j), mk_mem_zipIdx_iff_getElem?.mpr ?_, p, index, rfl⟩
    unfold argument at found
    cases there : args[j]? with
    | none => simp [there] at found
    | some arg => simpa [there] using found

omit declared in
omit walked in
theorem mem_callSites (fn : Function) (callee : Text) (args : List (Option Text)) (s : State)
    (site : Site) : site ∈ callSites fn callee args s ↔
      site.caller = fn.key ∧ (site.callee, site.argIdx) ∈ trackedOf (scopeOf s.locals) callee args ∧
        site.moved = decide (site.argIdx ∈ (s.userFunctionConsumingArgs callee).val) := by
  rcases site with ⟨caller, f, i, moved⟩
  dsimp only
  rw [mem_trackedOf]
  simp only [callSites, argument, mem_filterMap, Prod.exists, mk_mem_zipIdx_iff_getElem?,
    scopeOf_tracked]
  constructor
  · rintro ⟨arg, j, there, found⟩
    cases arg with
    | none => cases found
    | some x =>
      simp only [bind_some, ite_none_right_eq_some, Option.some.injEq, Site.mk.injEq] at found
      rcases found with ⟨held, rfl, rfl, rfl, rfl⟩
      exact ⟨rfl, ⟨rfl, x, by simp [there], held⟩, rfl⟩
  · rintro ⟨rfl, ⟨rfl, name, found, held⟩, decided⟩
    refine ⟨some name, i, ?_, by simp [held, decided]⟩
    cases there : args[i]? with
    | none => simp [there] at found
    | some arg => simpa [there] using found

theorem walked_call
    (final_eq : final = usesOf globals fn) (callee : Text) (args : List (Option Text)) (pos : Nat)
    (within : Extends (note u (.call callee args pos)) final) :
    Walked globals known functions fn base (note u (.call callee args pos))
      (applyCallOwnershipEffects fn callee args pos s) := by
  constructor
  · rw [call_locals, scopeOf_markAll]
    exact walked.scope
  · rw [call_saved]
    exact walked.saved
  · intro f i member
    rw [call_consuming, mem_markAll] at member
    rcases member with old | ⟨name, marked, rfl, _, index⟩
    · exact walked.below f i old
    · rcases (by simpa [argumentsAt] using marked : ∃ i ∈ _, argument args i = some name) with ⟨j, consumed, found⟩
      refine .passed declared ?_ index (walked.below callee j consumed)
      rw [← final_eq]
      exact within.passes (mem_append_right _ (mem_passesOf.2 ⟨rfl, found⟩))
  · intro f i member
    rw [call_consuming, mem_markAll]
    exact .inl (walked.keeps f i member)
  · intro f other i member
    rw [call_consuming, mem_markAll] at member
    rcases member with old | ⟨_, _, same, _⟩
    · exact walked.others f other i old
    · exact absurd same other
  · intro name member i index
    rw [call_consuming, mem_markAll]
    exact .inl (walked.recorded name member i index)
  · intro e
    rw [mem_call_edges, walked.edges, edge_passed, or_assoc]
    simp only [note, mem_append]
    constructor
    · rintro (old | ⟨f, j, name, p, passes, index, rfl⟩ | ⟨f, j, name, p, passes, index, rfl⟩)
      · exact .inl old
      · exact .inr ⟨f, j, name, p, .inl passes, index, rfl⟩
      · exact .inr ⟨f, j, name, p, .inr passes, index, rfl⟩
    · rintro (old | ⟨f, j, name, p, before | now, index, rfl⟩)
      · exact .inl old
      · exact .inr (.inl ⟨f, j, name, p, before, index, rfl⟩)
      · exact .inr (.inr ⟨f, j, name, p, now, index, rfl⟩)
  · rw [call_sites]
    exact subset_append_of_subset_left _ walked.kept
  · intro site member
    rw [call_sites] at member
    rcases mem_append.1 member with old | new
    · rcases walked.sites site old with earlier | ⟨caller, there, moved⟩
      · exact .inl earlier
      · exact .inr ⟨caller, mem_append_left _ there, moved⟩
    · rcases (mem_callSites fn callee args s site).1 new with ⟨caller, there, moved⟩
      have named : site.callee = callee := (mem_trackedOf.1 there).1
      refine .inr ⟨caller, mem_append_right _ (walked.scope ▸ there), ?_⟩
      intro other
      rw [moved, decide_eq_true_iff, ← named]
      exact ⟨walked.others _ other _, walked.keeps _ _⟩
  · intro f i member
    rcases mem_append.1 member with old | new
    · rcases walked.covered f i old with ⟨moved, there⟩
      exact ⟨moved, by rw [call_sites]; exact mem_append_left _ there⟩
    · refine ⟨decide (i ∈ (s.userFunctionConsumingArgs callee).val), ?_⟩
      rw [call_sites]
      refine mem_append_right _ ((mem_callSites fn callee args s _).2 ⟨rfl, ?_, rfl⟩)
      rw [← walked.scope]
      exact new

theorem walked_act
    (final_eq : final = usesOf globals fn) (a : Action) (within : Extends (note u a) final) :
    Walked globals known functions fn base (note u a) (act fn s a) := by
  cases a with
  | use name pos =>
    rw [act, validate_rest]
    exact walked.quiet walked.scope walked.saved rfl rfl rfl rfl rfl rfl
  | move name pos => exact walked_move walked declared final_eq name pos within
  | call callee args pos => exact walked_call walked declared final_eq callee args pos within
  | declare name vi =>
    refine walked.quiet ?_ walked.saved rfl rfl rfl rfl rfl rfl
    rw [act, scopeOf_update, ← walked.scope]
    rfl
  | assign name ownership =>
    refine walked.quiet ?_ walked.saved rfl rfl rfl rfl rfl rfl
    rw [act, scopeOf_update, walked.scope.symm]
    funext x
    by_cases same : x = name
    · subst same
      rw [note, walked.scope]
      cases found : s.locals x with
      | none => simp [scopeOf, found]
      | some vi =>
        simp only [scopeOf, found, map_some, Function.update_self, initialized]
        split <;> rfl
    · simp [note, same]
  | erase name =>
    refine walked.quiet ?_ walked.saved rfl rfl rfl rfl rfl rfl
    rw [act, scopeOf_update, ← walked.scope]
    rfl
  | enter =>
    refine walked.quiet walked.scope ?_ rfl rfl rfl rfl rfl rfl
    simp [note, act, walked.scope, walked.saved]
  | leave =>
    refine walked.quiet ?_ ?_ rfl rfl rfl rfl rfl rfl
    · simp only [note, act, walked.saved]
      cases s.saved with
      | nil => exact walked.scope
      | cons front rest => rfl
    · simp only [note, act, walked.saved]
      cases s.saved <;> rfl

omit walked

theorem walked_acts
    (final_eq : final = usesOf globals fn) (body : List Action)
    (walked : Walked globals known functions fn base u s) (within : body.foldl note u = final) :
    Walked globals known functions fn base final (body.foldl (act fn) s) := by
  induction body generalizing u s with
  | nil =>
    subst within
    exact walked
  | cons a rest ih =>
    refine ih (walked_act walked declared final_eq a ?_) within
    rw [← within]
    exact notes_extend rest (note u a)

omit declared in
theorem Walked.start (below : ∀ f i, i ∈ (base.userFunctionConsumingArgs f).val →
      Consumed globals known functions f i) : Walked globals known functions fn base
      ⟨scopeOf (entryLocals globals fn.params), [], [], [], []⟩
      { base with locals := entryLocals globals fn.params, saved := [] } where
  scope := rfl
  saved := rfl
  below := below
  keeps _ _ member := member
  others _ _ _ member := member
  recorded := by simp
  edges := by simp
  kept := List.Subset.refl _
  sites _ member := .inl member
  covered := by simp

theorem walked_function
    (below : ∀ f i, i ∈ (base.userFunctionConsumingArgs f).val →
      Consumed globals known functions f i) :
    Walked globals known functions fn base (usesOf globals fn) (checkFunction globals base fn) :=
  walked_acts declared rfl fn.body (.start below) rfl

end Walking

section Alone

/-- Two walks over a body that know different things about other functions: they agree on the
variables, on what the body consumes itself, and but for `base` on the errors. -/
structure Alike (fn : Function) (base : List Error) (s t : State) : Prop where
  locals : t.locals = s.locals
  saved : t.saved = s.saved
  errors : ∀ e, e ∈ t.errors ↔ e ∈ base ∨ e ∈ s.errors
  own : ∀ i, i ∈ (t.userFunctionConsumingArgs fn.key).val ↔
    i ∈ (s.userFunctionConsumingArgs fn.key).val

variable {fn : Function} {base : List Error} {s t : State}

variable (alike : Alike fn base s t)
include alike

theorem Alike.quiet {s' t' : State} (locals : t'.locals = s'.locals)
    (saved : t'.saved = s'.saved) (errors : s'.errors = s.errors) (errors' : t'.errors = t.errors)
    (own : s'.userFunctionConsumingArgs = s.userFunctionConsumingArgs)
    (own' : t'.userFunctionConsumingArgs = t.userFunctionConsumingArgs) : Alike fn base s' t' where
  locals := locals
  saved := saved
  errors := by
    rw [errors, errors']
    exact alike.errors
  own := by
    rw [own, own']
    exact alike.own

variable (name : Text) (pos : Nat)

theorem alike_use :
    Alike fn base (validateExprNotMoved name pos s) (validateExprNotMoved name pos t) := by
  unfold validateExprNotMoved
  rw [alike.locals]
  cases s.locals name with
  | none => exact alike
  | some vi =>
    simp only
    split
    · refine ⟨rfl, alike.saved, ?_, alike.own⟩
      intro e
      simp only [mem_append, alike.errors, or_assoc]
    · exact alike

theorem alike_move :
    Alike fn base (markExprAsMoved fn name pos s) (markExprAsMoved fn name pos t) := by
  constructor
  · rw [mark_locals, mark_locals, alike.locals]
  · rw [(mark_rest fn pos s name).1, (mark_rest fn pos t name).1, alike.saved]
  · intro e
    rw [mark_errors, mark_errors, alike.locals]
    simp only [mem_append, alike.errors, or_assoc]
  · intro i
    rw [mem_mark, mem_mark, alike.locals, alike.own]

omit alike in
theorem untracked_move {locals : Locals} {name : Text} (untracked : tracked locals name = false) :
    (locals name).map VarInfo.move = locals name := by
  cases found : locals name with
  | none => rfl
  | some vi =>
    simp only [tracked, found, any_some] at untracked
    simp [VarInfo.move, untracked]

theorem alike_call (callee : Text) (args : List (Option Text)) (pos : Nat)
    (same : ∀ i name, argument args i = some name → tracked s.locals name = true →
      (i ∈ (t.userFunctionConsumingArgs callee).val ↔
        i ∈ (s.userFunctionConsumingArgs callee).val)) :
    Alike fn base (applyCallOwnershipEffects fn callee args pos s)
      (applyCallOwnershipEffects fn callee args pos t) := by
  have counts : ∀ name, tracked s.locals name = true →
      (argumentsAt args (t.userFunctionConsumingArgs callee).val).count name =
        (argumentsAt args (s.userFunctionConsumingArgs callee).val).count name := by
    intro name held
    exact count_argumentsAt args (t.userFunctionConsumingArgs callee).property
      (s.userFunctionConsumingArgs callee).property name fun i found => same i name found held
  constructor
  · rw [call_locals, call_locals]
    funext name
    rw [markAll_locals, markAll_locals, alike.locals]
    cases held : tracked s.locals name with
    | false => rw [untracked_move held, ite_self, ite_self]
    | true =>
      have both := counts name held
      simp only [← count_pos_iff, both]
  · rw [call_saved, call_saved, alike.saved]
  · intro e
    rw [call_errors, call_errors, markAll_errors, markAll_errors, alike.errors, alike.locals, or_assoc]
    apply or_congr_right
    apply or_congr_right
    constructor
    · rintro ⟨name, error, held, twice⟩
      exact ⟨name, error, held, by rwa [← counts name held]⟩
    · rintro ⟨name, error, held, twice⟩
      exact ⟨name, error, held, by rwa [counts name held]⟩
  · intro i
    rw [call_consuming, call_consuming, mem_markAll, mem_markAll, alike.own, alike.locals]
    apply or_congr_right
    constructor
    · rintro ⟨name, marked, _, held, index⟩
      have positive := count_pos_iff.2 marked
      rw [counts name held] at positive
      exact ⟨name, count_pos_iff.1 positive, rfl, held, index⟩
    · rintro ⟨name, marked, _, held, index⟩
      have positive := count_pos_iff.2 marked
      rw [← counts name held] at positive
      exact ⟨name, count_pos_iff.1 positive, rfl, held, index⟩

theorem alike_act (a : Action) (same : ∀ callee args pos, a = .call callee args pos → ∀ i name,
      argument args i = some name → tracked s.locals name = true →
        (i ∈ (t.userFunctionConsumingArgs callee).val ↔
          i ∈ (s.userFunctionConsumingArgs callee).val)) :
    Alike fn base (act fn s a) (act fn t a) := by
  cases a with
  | use name pos => exact alike_use alike name pos
  | move name pos => exact alike_move alike name pos
  | call callee args pos => exact alike_call alike callee args pos (same callee args pos rfl)
  | declare name vi =>
    exact alike.quiet (by simp [act, alike.locals]) alike.saved rfl rfl rfl rfl
  | assign name ownership =>
    exact alike.quiet (by simp [act, alike.locals]) alike.saved rfl rfl rfl rfl
  | erase name =>
    exact alike.quiet (by simp [act, alike.locals]) alike.saved rfl rfl rfl rfl
  | enter =>
    exact alike.quiet alike.locals (by simp [act, alike.locals, alike.saved]) rfl rfl rfl rfl
  | leave =>
    exact alike.quiet (by simp [act, alike.locals, alike.saved]) (by simp [act, alike.saved])
      rfl rfl rfl rfl

end Alone

section Orders

variable (globals : Locals) (known : Text → Indices) (functions : List Function)

/-- No function passes a drop-tracked variable to a parameter that another one of the file
consumes; what is known before the first body is no matter. -/
def Settled : Prop :=
  ∀ fn ∈ functions, ∀ callee i, (callee, i) ∈ (usesOf globals fn).tracked → callee ≠ fn.key →
    Consumed globals known functions callee i → i ∈ (known callee).val

variable {globals known functions} {fn : Function} {t : State}

/-- Under `Settled` a body is checked as if it were the first of the file. -/
theorem alike_acts (declared : fn ∈ functions)
    (settled : Settled globals known functions) {errors : List Error} {first base : State}
    (untouched : first.userFunctionConsumingArgs = known)
    (knows : ∀ f i, i ∈ (known f).val → i ∈ (base.userFunctionConsumingArgs f).val)
    (consumed : ∀ f i, i ∈ (base.userFunctionConsumingArgs f).val →
      Consumed globals known functions f i) (body : List Action) {u : Uses} {s : State}
    (alone : Walked globals known functions fn first u s)
    (walked : Walked globals known functions fn base u t) (alike : Alike fn errors s t)
    (within : body.foldl note u = usesOf globals fn) :
    Alike fn errors (body.foldl (act fn) s) (body.foldl (act fn) t) := by
  induction body generalizing u s t with
  | nil => exact alike
  | cons a rest ih =>
    have noted : Extends (note u a) (usesOf globals fn) := by
      rw [← within]
      exact notes_extend rest (note u a)
    refine ih (walked_act alone declared rfl a noted) (walked_act walked declared rfl a noted) ?_
      within
    refine alike_act alike a ?_
    rintro callee args pos rfl i name found held
    by_cases same : callee = fn.key
    · subst same
      exact alike.own i
    · -- the index is consumed only if it is known from the start
      have site : (callee, i) ∈ (usesOf globals fn).tracked := by
        refine noted.tracked (mem_append_right _ (mem_trackedOf.2 ⟨rfl, name, found, ?_⟩))
        rw [alone.scope]
        exact scopeOf_tracked.2 held
      constructor
      · intro there
        have before := walked.others callee same i there
        have start := settled fn declared callee i site same (consumed callee i before)
        exact alone.keeps callee i (by rw [untouched]; exact start)
      · intro there
        have start := alone.others callee same i there
        rw [untouched] at start
        exact walked.keeps callee i (knows callee i start)

/-- What the walk over the functions in `done` leaves, whatever their order. -/
structure Checked (globals : Locals) (known : Text → Indices) (functions done : List Function)
    (t : State) : Prop where
  below : ∀ f i, i ∈ (t.userFunctionConsumingArgs f).val → Consumed globals known functions f i
  knows : ∀ f i, i ∈ (known f).val → i ∈ (t.userFunctionConsumingArgs f).val
  fresh : ∀ f, (∀ fn ∈ done, fn.key ≠ f) → ∀ i, i ∈ (t.userFunctionConsumingArgs f).val →
    i ∈ (known f).val
  recorded : ∀ fn ∈ done, ∀ name ∈ (usesOf globals fn).moves, ∀ i, fn.paramIdx name = some i →
    i ∈ (t.userFunctionConsumingArgs fn.key).val
  edges : ∀ e, e ∈ t.consumeEdges ↔ ∃ fn ∈ done, ∃ callee j name p,
    (callee, j, name) ∈ (usesOf globals fn).passes ∧ fn.paramIdx name = some p ∧
      e = ⟨fn.key, p, callee, j⟩

theorem checked_start : Checked globals known functions [] (.start known) where
  below _ _ there := .known there
  knows _ _ there := there
  fresh _ _ _ there := there
  recorded := by simp
  edges := by simp [State.start]

variable {done : List Function}

theorem checked_step (declared : fn ∈ functions)
    (checked : Checked globals known functions done t) :
    Checked globals known functions (done ++ [fn]) (checkFunction globals t fn) := by
  have walked := walked_function declared checked.below
  constructor
  · exact walked.below
  · intro f i there
    exact walked.keeps f i (checked.knows f i there)
  · intro f none i there
    have other : f ≠ fn.key := fun same => none fn (by simp) same.symm
    exact checked.fresh f (fun g member => none g (by simp [member])) i
      (walked.others f other i there)
  · intro g member name moves i index
    rcases mem_append.1 member with old | new
    · exact walked.keeps g.key i (checked.recorded g old name moves i index)
    · rw [mem_singleton.1 new] at moves index ⊢
      exact walked.recorded name moves i index
  · intro e
    rw [walked.edges, checked.edges]
    constructor
    · rintro (⟨g, member, edge⟩ | edge)
      · exact ⟨g, mem_append_left _ member, edge⟩
      · exact ⟨fn, by simp, edge⟩
    · rintro ⟨g, member, edge⟩
      rcases mem_append.1 member with old | new
      · exact .inl ⟨g, old, edge⟩
      · rw [mem_singleton.1 new] at edge
        exact .inr edge

theorem checked_all (todo done : List Function) (t : State) (declared : todo ⊆ functions)
    (checked : Checked globals known functions done t) :
    Checked globals known functions (done ++ todo) (todo.foldl (checkFunction globals) t) ∧
      t.sites ⊆ (todo.foldl (checkFunction globals) t).sites := by
  induction todo generalizing done t with
  | nil => exact ⟨by simpa using checked, List.Subset.refl _⟩
  | cons fn rest ih =>
    have first := declared (.head _)
    rcases ih (done ++ [fn]) _ (subset_of_cons_subset declared) (checked_step first checked) with
      ⟨all, kept⟩
    exact ⟨by simpa using all, List.Subset.trans (walked_function first checked.below).kept kept⟩

variable {order : List Function}

theorem fixpoint_consumed (perm : order.Perm functions) (f : Text) (i : Nat) :
    i ∈ (resolveConsumptionFixpoint (checkFunctions globals known order) f).val ↔
      Consumed globals known functions f i := by
  have checked : Checked globals known functions order (checkFunctions globals known order) :=
    (checked_all order [] _ perm.subset checked_start).1
  have saturated := @Saturation.saturate_iff _ _ entries
    ((checkFunctions globals known order).consumeEdges.map edgeRule)
    (checkFunctions globals known order).userFunctionConsumingArgs (f, i)
  simp only [entries, decide_eq_true_iff] at saturated
  rw [resolveConsumptionFixpoint]
  refine saturated.trans ?_
  clear saturated
  constructor
  · intro follows
    have sound : ∀ entry : Text × Nat, Saturation.Follows
        (fun b : Text × Nat =>
          b.2 ∈ ((checkFunctions globals known order).userFunctionConsumingArgs b.1).val)
        ((checkFunctions globals known order).consumeEdges.map edgeRule) entry →
          Consumed globals known functions entry.1 entry.2 := by
      intro entry follows
      induction follows with
      | base given => exact checked.below _ _ given
      | step rule _ ih =>
        rcases List.mem_map.1 rule with ⟨e, member, same⟩
        rcases (checked.edges e).1 member with ⟨fn, declared, callee, j, name, p, passes, index, rfl⟩
        simp only [edgeRule, Prod.mk.injEq] at same
        rcases same with ⟨rfl, rfl⟩
        exact .passed (perm.subset declared) passes index ih
    exact sound (f, i) follows
  · intro consumed
    induction consumed with
    | known there => exact .base (checked.knows _ _ there)
    | moved declared moves index =>
      exact .base (checked.recorded _ (perm.symm.subset declared) _ moves _ index)
    | passed declared passes index _ ih =>
      refine .step (List.mem_map.2 ⟨_, (checked.edges _).mpr
        ⟨_, perm.symm.subset declared, _, _, _, _, passes, index, rfl⟩, rfl⟩) ih

def alone (globals : Locals) (known : Text → Indices) (fn : Function) : State :=
  checkFunction globals (.start known) fn

/-- What the walk over the functions in `done` leaves under `Settled`. -/
structure Agreed (globals : Locals) (known : Text → Indices) (functions done : List Function)
    (t : State) : Prop where
  errors : ∀ e, e ∈ t.errors ↔ ∃ fn ∈ done, e ∈ (alone globals known fn).errors
  sites : ∀ site ∈ t.sites, site.callee ≠ site.caller →
    Consumed globals known functions site.callee site.argIdx → site.moved = true

theorem agreed_step (declared : fn ∈ functions)
    (settled : Settled globals known functions) (checked : Checked globals known functions done t)
    (agreed : Agreed globals known functions done t) (apart : ∀ g ∈ done, g.key ≠ fn.key) :
    Agreed globals known functions (done ++ [fn]) (checkFunction globals t fn) := by
  have walked := walked_function declared checked.below
  have own : ∀ i, i ∈ (t.userFunctionConsumingArgs fn.key).val ↔ i ∈ (known fn.key).val :=
    fun i => ⟨checked.fresh fn.key apart i, checked.knows fn.key i⟩
  have alike : Alike fn t.errors (alone globals known fn) (checkFunction globals t fn) :=
    alike_acts declared settled rfl checked.knows checked.below fn.body
      (Walked.start checked_start.below) (Walked.start checked.below)
      ⟨rfl, rfl, by simp [State.start], own⟩ rfl
  constructor
  · intro e
    rw [alike.errors, agreed.errors]
    constructor
    · rintro (⟨g, member, error⟩ | error)
      · exact ⟨g, mem_append_left _ member, error⟩
      · exact ⟨fn, by simp, error⟩
    · rintro ⟨g, member, error⟩
      rcases mem_append.1 member with old | new
      · exact .inl ⟨g, old, error⟩
      · rw [mem_singleton.1 new] at error
        exact .inr error
  · intro site member other consumed
    rcases walked.sites site member with old | ⟨caller, there, moved⟩
    · exact agreed.sites site old other consumed
    · rw [caller] at other
      have start := settled fn declared _ _ there other consumed
      exact (moved other).2 (checked.knows _ _ start)

theorem agreed_all (settled : Settled globals known functions) (todo done : List Function) (t : State)
    (declared : todo ⊆ functions) (keys : ((done ++ todo).map Function.key).Nodup)
    (checked : Checked globals known functions done t)
    (agreed : Agreed globals known functions done t) :
    Agreed globals known functions (done ++ todo) (todo.foldl (checkFunction globals) t) := by
  induction todo generalizing done t with
  | nil => simpa using agreed
  | cons fn rest ih =>
    have first := declared (.head _)
    have apart : ∀ g ∈ done, g.key ≠ fn.key := by
      intro g member
      rw [map_append, nodup_append] at keys
      exact keys.2.2 g.key (List.mem_map_of_mem member) fn.key (by simp)
    have all := ih (done ++ [fn]) _ (subset_of_cons_subset declared) (by simpa using keys)
      (checked_step first checked) (agreed_step first settled checked agreed apart)
    simpa using all

theorem agreed_functions (settled : Settled globals known functions)
    (declared : order ⊆ functions) (keys : (order.map Function.key).Nodup) :
    Agreed globals known functions order (checkFunctions globals known order) :=
  agreed_all settled order [] _ declared keys checked_start
    ⟨by simp [State.start], by simp [State.start]⟩

/-- In every order of the file the same errors are reported, and the call of a function whose
parameter is consumed in the end moves the argument, unless the function calls itself. -/
def OrderIndependent (globals : Locals) (known : Text → Indices) (functions : List Function) : Prop :=
  ∀ order, order.Perm functions →
    (∀ e, e ∈ (checkFunctions globals known order).errors ↔
      e ∈ (checkFunctions globals known functions).errors) ∧
    ∀ site ∈ (checkFunctions globals known order).sites, site.callee ≠ site.caller →
      site.argIdx ∈
          (resolveConsumptionFixpoint (checkFunctions globals known order) site.callee).val →
        site.moved = true

theorem first_site {rest} (declared : fn :: rest ⊆ functions)
    {callee : Text} {i : Nat} (passes : (callee, i) ∈ (usesOf globals fn).tracked)
    (other : callee ≠ fn.key) : ∃ moved, (⟨fn.key, callee, i, moved⟩ : Site) ∈
        (checkFunctions globals known (fn :: rest)).sites ∧
      (moved = true → i ∈ (known callee).val) := by
  have first := declared (.head _)
  have start : Checked globals known functions [] (.start known) := checked_start
  have walked := walked_function first start.below
  rcases walked.covered callee i passes with ⟨moved, there⟩
  rcases walked.sites _ there with old | ⟨_, _, decided⟩
  · cases old
  · have kept := (checked_all rest ([] ++ [fn]) _ (subset_of_cons_subset declared)
      (checked_step first start)).2
    exact ⟨moved, kept there, (decided other).mp⟩

theorem order_independent_iff (globals : Locals) (known : Text → Indices) (functions : List Function)
    (keys : (functions.map Function.key).Nodup) :
    OrderIndependent globals known functions ↔ Settled globals known functions := by
  constructor
  · intro independent fn declared callee i passes other consumed
    rcases append_of_mem declared with ⟨front, back, split⟩
    have perm : (fn :: (front ++ back)).Perm functions := by
      rw [split]
      exact perm_middle.symm
    rcases @first_site globals known functions fn _ perm.subset callee i passes other with ⟨moved, there, decided⟩
    apply decided
    exact (independent _ perm).2 _ there other ((fixpoint_consumed perm callee i).mpr consumed)
  · intro settled order perm
    have same := agreed_functions settled perm.subset ((perm.map Function.key).nodup_iff.mpr keys)
    have given := agreed_functions settled (List.Subset.refl functions) keys
    constructor
    · intro e
      rw [same.errors, given.errors]
      simp only [perm.mem_iff]
    · intro site member other consumed
      exact same.sites site member other ((fixpoint_consumed perm _ _).mp consumed)

/-- `fn take(string p) { string q = p; }` -/
def takeFn : Function where
  key := ['t', 'a', 'k', 'e']
  params := [(['p'], ⟨true, .borrowedImm⟩)]
  body := [.use ['p'] 1, .declare ['q'] ⟨true, .owned⟩, .move ['p'] 2]

/-- `fn main() { string s = …; take(s); take(s); }` -/
def mainFn : Function where
  key := ['m', 'a', 'i', 'n']
  params := []
  body :=
    [.declare ['s'] ⟨true, .owned⟩, .use ['s'] 3, .call ['t', 'a', 'k', 'e'] [some ['s']] 4,
      .use ['s'] 5, .call ['t', 'a', 'k', 'e'] [some ['s']] 6]

def noGlobals : Locals := fun _ => none

def nothingKnown : Text → Indices := fun _ => ⟨[], List.nodup_nil⟩

set_option maxRecDepth 4096 in
theorem verdict_depends_on_order : ¬ OrderIndependent noGlobals nothingKnown [mainFn, takeFn] := by
  intro independent
  have same := (independent [takeFn, mainFn] (.swap _ _ _)).1 (.doubleMove ['s'] 6)
  have reported : Error.doubleMove ['s'] 6 ∈
      (checkFunctions noGlobals nothingKnown [takeFn, mainFn]).errors := by decide
  have silent : (checkFunctions noGlobals nothingKnown [mainFn, takeFn]).errors = [] := by decide
  rw [silent] at same
  cases same.mp reported

/-- What `take` consumes is known from another unit. -/
def takeKnown (callee : Text) : Indices :=
  if callee = takeFn.key then ⟨[0], List.nodup_singleton 0⟩ else ⟨[], List.nodup_nil⟩

set_option maxRecDepth 4096 in
theorem takers_order_independent : OrderIndependent noGlobals takeKnown [mainFn, takeFn] :=
  (order_independent_iff noGlobals takeKnown [mainFn, takeFn] (by decide)).mpr (by
    have calls : ∀ fn ∈ [mainFn, takeFn], ∀ passed ∈ (usesOf noGlobals fn).tracked,
        passed.2 ∈ (takeKnown passed.1).val := by decide
    intro fn declared callee i passes _ _
    exact calls fn declared (callee, i) passes)

end Orders

end Lucis.DeclarationOrder
