import Lucis.Library.Flow
import Mathlib.Logic.Function.Basic

/-!
Payloads of enum variants, bound by `is` and by the arms of a match. The code generator
keeps the binding of an `is` in a pending field until an `if` takes it, and forgets the
local of the bound name behind the branch. The emitted code is run on the tags of the
values that have been tested: a payload is loaded as that of a variant, and the locals
that are found are compared with those which lexical scoping makes visible.
-/

namespace Lucis.PayloadBinding

open Flow List

section Source

abbrev Name := String

abbrev Variant := Nat

/-- `single` is a tuple payload of one field; only such a payload gets a type as a local. -/
structure Bound where
  name : Name
  single : Bool
  deriving DecidableEq

structure Binding extends Bound where
  variant : Variant
  deriving DecidableEq

/-- `E::A(_)` is a wildcard to the generator, as `_` is. -/
inductive Pattern where
  | wildcard
  | literal
  | variant (variant : Variant) (binding : Option Name)
  deriving DecidableEq

inductive Way where
  | ret | brk | cont
  deriving DecidableEq

/-- Expressions and statements as the visitor goes through them. Operands and statements stand in
sequences that end with `done`, and so do the arms of a match and the branches of an `if`, where an
`else` is `ifBody`. What else an expression does with its operands is `other`; `unconsumed` is the
`else if` behind an `if @cfg(…)` that does not hold. Lambdas are left out: each is a function of
its own, with locals of its own. -/
inductive Tree where
  | done
  | seq (first rest : Tree)
  | read (name : Name)
  | other (operands : Tree)
  | test (subject : Tree) (variant : Variant) (binding : Option Bound)
  | not (operand : Tree)
  | and (left right : Tree)
  | or (left right : Tree)
  | ternary (condition first second : Tree)
  | matching (subject arms : Tree)
  | arm (patterns : List Pattern) (body rest : Tree)
  | guarded (patterns : List Pattern) (guard body rest : Tree)
  | declare (declaration : Nat) (name : Name) (value : Tree)
  | branch (condition body rest : Tree)
  | ifBody (body : Tree)
  | unconsumed (condition body : Tree)
  | whileLoop (condition body : Tree)
  | doWhile (body condition : Tree)
  | leave (way : Way) (value : Tree)

inductive Meaning where
  | declared (declaration : Nat)
  | payload (variant : Variant)
  deriving DecidableEq

abbrev Visible := Name → Option Meaning

def Visible.bind (visible : Visible) : Option Binding → Visible
  | none => visible
  | some binding =>
    if binding.single then Function.update visible binding.name (some (.payload binding.variant))
    else visible

def Pattern.binding : Pattern → Option Binding
  | .variant tag (some name) => some ⟨⟨name, true⟩, tag⟩
  | _ => none

/-- The pattern whose payload an arm binds is the first one that binds, unless any is a wildcard. -/
def bindPattern (patterns : List Pattern) : Option Binding :=
  if Pattern.wildcard ∈ patterns then none else patterns.findSome? Pattern.binding

end Source

section Scoping

def Visible.unbind (inner outer : Visible) : Option Binding → Visible
  | none => inner
  | some binding => Function.update inner binding.name (outer binding.name)

/-- The locals behind a tree, by lexical scoping. What the block of an arm declares stays. -/
def Tree.after : Tree → Visible → Visible
  | .done, visible | .read _, visible | .ifBody _, visible => visible
  | .seq first rest, visible => rest.after (first.after visible)
  | .other operand, visible | .test operand _ _, visible | .not operand, visible
  | .leave _ operand, visible => operand.after visible
  | .and left right, visible | .or left right, visible => right.after (left.after visible)
  | .ternary condition first second, visible =>
    second.after (first.after (condition.after visible))
  | .matching subject arms, visible => arms.after (subject.after visible)
  | .arm patterns body rest, visible =>
    let inner := body.after (visible.bind (bindPattern patterns))
    rest.after (inner.unbind visible (bindPattern patterns))
  | .guarded patterns guard body rest, visible =>
    let tested := guard.after (visible.bind (bindPattern patterns))
    let inner := body.after (tested.bind (bindPattern patterns))
    rest.after (inner.unbind visible (bindPattern patterns))
  | .declare declaration name value, visible =>
    Function.update (value.after visible) name (some (.declared declaration))
  | .branch condition _ rest, visible => rest.after (condition.after visible)
  | .unconsumed condition _, visible | .whileLoop condition _, visible
  | .doWhile _ condition, visible => condition.after visible

def Tree.still : Tree → Bool
  | .done | .read _ => true
  | .test subject _ binding => binding.isNone && subject.still
  | .other operand | .not operand | .leave _ operand | .ifBody operand
  | .declare _ _ operand => operand.still
  | .seq first rest | .and first rest | .or first rest | .matching first rest
  | .arm _ first rest | .unconsumed first rest | .whileLoop first rest
  | .doWhile first rest => first.still && rest.still
  | .ternary first second third | .guarded _ first second third =>
    first.still && second.still && third.still
  | .branch _ _ _ => false

/-- The last binding test, where it has been made and holds if the condition has this value. -/
def Tree.guard : Tree → Bool → Option Binding
  | .test _ variant (some bound), true => some ⟨bound, variant⟩
  | .not operand, value => operand.guard !value
  | .and left right, true => if right.still then left.guard true else right.guard true
  | .or left right, false => if right.still then left.guard false else right.guard false
  | _, _ => none

end Scoping

section Emission

inductive Act where
  | unknown
  | negate
  | assume (value : Bool)
  | test (site : Nat) (variant : Variant)
  | take (site : Nat)
  | compare (site : Nat) (patterns : List Pattern)
  | load (site : Nat) (variant : Variant)
  | read (found wanted : Option Meaning)
  | back (found wanted : Visible)

abbrev Emitted := Code Act Way

/-- `PendingIsBinding`: the payload lies in the temporary of its test. -/
structure Pending extends Binding where
  site : Nat

structure Gen where
  locals : Visible
  pending : Option Pending
  next : Nat

def choose (yes no : Emitted) : Emitted :=
  .either (.seq (.act (.assume true)) yes) (.seq (.act (.assume false)) no)

/-- The start of a branch that takes a binding; one whose payload has no type is only taken. -/
def loadPending : Option Pending → Emitted
  | none => .skip
  | some pending => if pending.single then .act (.load pending.site pending.variant) else .skip

def loadPattern (site : Nat) : Option Binding → Emitted
  | none => .skip
  | some binding => .act (.load site binding.variant)

/-- `locals_.erase` of the bound name. -/
def Visible.erase {α : Type} (locals : Visible) (name : α → Name) : Option α → Visible
  | none => locals
  | some bound => Function.update locals (name bound) none

/-- The blocks of an arm; `rest` is the block of the next one. -/
def armCode (site : Nat) (patterns : List Pattern) (taken rest : Emitted) : Emitted :=
  if Pattern.wildcard ∈ patterns then taken
  else .seq (.act (.compare site patterns)) (choose taken rest)

def loopCode (condition body : Emitted) : Emitted :=
  Code.looping .brk .cont (.seq condition (choose body (.leave .brk))) .never

def doWhileCode (body condition : Emitted) : Emitted :=
  Code.looping .brk .cont
    (.seq (.handle .cont body .skip) (.seq condition (choose .skip (.leave .brk)))) .never

/- `scope` is what lexical scoping makes visible; the generator goes by its `locals` alone. `subject`
is the temporary of the match whose arms are visited. -/
def Tree.emit : Tree → Nat → Visible → Gen → Emitted × Gen
  | .done, _, _, gen => (.skip, gen)
  | .seq first rest, subject, scope, gen =>
    let (begins, gen) := first.emit subject scope gen
    let (goes, gen) := rest.emit subject (first.after scope) gen
    (.seq begins goes, gen)
  | .read name, _, scope, gen =>
    (.seq (.act (.read (gen.locals name) (scope name))) (.act .unknown), gen)
  | .other operands, subject, scope, gen =>
    let (evaluated, gen) := operands.emit subject scope gen
    (.seq evaluated (.act .unknown), gen)
  | .test value _ none, subject, scope, gen =>
    let (evaluated, gen) := value.emit subject scope gen
    (.seq evaluated (.act .unknown), gen)
  | .test value variant (some bound), subject, scope, gen =>
    let (evaluated, gen) := value.emit subject scope gen
    (.seq evaluated (.act (.test gen.next variant)),
      { gen with pending := some ⟨⟨bound, variant⟩, gen.next⟩, next := gen.next + 1 })
  | .not operand, subject, scope, gen =>
    let (evaluated, gen) := operand.emit subject scope gen
    (.seq evaluated (.act .negate), gen)
  | .and left right, subject, scope, gen =>
    let (begins, gen) := left.emit subject scope gen
    let (goes, gen) := right.emit subject (left.after scope) gen
    (.seq begins (choose goes .skip), gen)
  | .or left right, subject, scope, gen =>
    let (begins, gen) := left.emit subject scope gen
    let (goes, gen) := right.emit subject (left.after scope) gen
    (.seq begins (choose .skip goes), gen)
  | .ternary condition first second, subject, scope, gen =>
    let (tested, gen) := condition.emit subject scope gen
    let (yes, gen) := first.emit subject (condition.after scope) gen
    let (no, gen) := second.emit subject (first.after (condition.after scope)) gen
    (.seq tested (choose yes no), gen)
  | .matching value arms, subject, scope, gen =>
    let (evaluated, gen) := value.emit subject scope gen
    let site := gen.next
    let (chosen, gen) := arms.emit site (value.after scope) { gen with next := site + 1 }
    (.seq evaluated (.seq (.act (.take site)) (.seq chosen (.seq (.act .unknown)
      (.act (.back gen.locals (arms.after (value.after scope))))))), gen)
  | .arm patterns body rest, subject, scope, gen =>
    let binding := bindPattern patterns
    let (inner, gen) := body.emit subject (scope.bind binding)
      { gen with locals := gen.locals.bind binding }
    let behind := (body.after (scope.bind binding)).unbind scope binding
    let (others, gen) := rest.emit subject behind
      { gen with locals := gen.locals.erase (·.name) binding }
    (armCode subject patterns (.seq (loadPattern subject binding) inner) others, gen)
  | .guarded patterns guard body rest, subject, scope, gen =>
    let binding := bindPattern patterns
    let (tested, gen) := guard.emit subject (scope.bind binding)
      { gen with locals := gen.locals.bind binding }
    let within := (guard.after (scope.bind binding)).bind binding
    let (inner, gen) := body.emit subject within { gen with locals := gen.locals.bind binding }
    let behind := (body.after within).unbind scope binding
    let (others, gen) := rest.emit subject behind
      { gen with locals := gen.locals.erase (·.name) binding }
    let taken := .seq (loadPattern subject binding) inner
    (armCode subject patterns
      (.seq (loadPattern subject binding) (.seq tested (choose taken others))) others, gen)
  | .declare declaration name value, subject, scope, gen =>
    let (evaluated, gen) := value.emit subject scope gen
    (evaluated,
      { gen with locals := Function.update gen.locals name (some (.declared declaration)) })
  | .branch condition body rest, subject, scope, gen =>
    let (tested, gen) := condition.emit subject scope gen
    let taken := gen.pending
    let outer := condition.after scope
    let saved := gen.locals.bind (taken.map Pending.toBinding)
    let (inner, gen) := body.emit subject (outer.bind (condition.guard true))
      { gen with locals := saved, pending := none }
    let (others, gen) := rest.emit subject outer
      { gen with locals := saved.erase (·.name) taken }
    (.seq tested (.seq (choose (.seq (loadPending taken) inner) others)
      (.act (.back gen.locals (rest.after outer)))), gen)
  | .ifBody body, subject, scope, gen =>
    let saved := gen.locals
    let (inner, gen) := body.emit subject scope gen
    (inner, { gen with locals := saved })
  | .unconsumed condition body, subject, scope, gen =>
    let (tested, gen) := condition.emit subject scope gen
    let saved := gen.locals
    let (inner, gen) := body.emit subject (condition.after scope) gen
    (.seq tested (choose inner .skip), { gen with locals := saved })
  | .whileLoop condition body, subject, scope, gen =>
    let (tested, gen) := condition.emit subject scope gen
    let saved := gen.locals
    let (inner, gen) := body.emit subject (condition.after scope) gen
    (loopCode tested inner, { gen with locals := saved })
  | .doWhile body condition, subject, scope, gen =>
    let saved := gen.locals
    let (inner, gen) := body.emit subject scope gen
    let (tested, gen) := condition.emit subject scope { gen with locals := saved }
    (doWhileCode inner tested, gen)
  | .leave way value, subject, scope, gen =>
    let (evaluated, gen) := value.emit subject scope gen
    (.seq evaluated (.leave way), gen)

end Emission

section Execution

structure State where
  flag : Bool
  temps : Nat → Option Variant

inductive Event where
  | loaded (tag : Option Variant) (variant : Variant)
  | found (meaning wanted : Option Meaning)
  | back (locals wanted : Visible)

def Pattern.fits (tag : Option Variant) : Pattern → Prop
  | .wildcard | .literal => True
  | .variant expected _ => tag = some expected

/-- A value that is tested has any tag; what else an expression yields is not known. -/
inductive Step : Act → State → List Event → Option Way → State → Prop
  | unknown {s} (flag : Bool) : Step .unknown s [] none { s with flag }
  | negate {s} : Step .negate s [] none { s with flag := !s.flag }
  | assume {value s} (same : s.flag = value) : Step (.assume value) s [] none s
  | test {site variant s} (tag : Variant) : Step (.test site variant) s [] none
      ⟨tag = variant, Function.update s.temps site (some tag)⟩
  | take {site s} (tag : Variant) (flag : Bool) :
      Step (.take site) s [] none ⟨flag, Function.update s.temps site (some tag)⟩
  | fits {site patterns s} (fits : ∃ pattern ∈ patterns, pattern.fits (s.temps site)) :
      Step (.compare site patterns) s [] none { s with flag := true }
  | differs {site patterns s}
      (differs : ∀ pattern ∈ patterns, pattern.fits (s.temps site) → pattern = .literal) :
      Step (.compare site patterns) s [] none { s with flag := false }
  | load {site variant s} : Step (.load site variant) s [.loaded (s.temps site) variant] none s
  | read {found wanted s} : Step (.read found wanted) s [.found found wanted] none s
  | back {found wanted s} : Step (.back found wanted) s [.back found wanted] none s

/-- A payload is loaded as that of the variant whose tag the value has, and what is visible is what
lexical scoping makes visible. -/
def Event.Fine : Event → Prop
  | .loaded tag variant => tag = some variant
  | .found meaning wanted => meaning = wanted
  | .back locals wanted => locals = wanted

structure FunctionDecl where
  params : Visible
  body : Tree

def emitProgram : List FunctionDecl → Gen → List Emitted
  | [], _ => []
  | function :: rest, gen =>
    let (emitted, gen) := function.body.emit 0 function.params { gen with locals := function.params }
    emitted :: emitProgram rest gen

def Gen.start : Gen := ⟨fun _ => none, none, 1⟩

/-- Whatever a run does, it loads only payloads that are there, and finds what is visible. -/
def Guarded (program : List FunctionDecl) : Prop :=
  ∀ emitted ∈ emitProgram program .start, ∀ s events out s',
    Exec Step emitted s events out s' → ∀ event ∈ events, event.Fine

end Execution

section Condition

def Tree.waiting : Tree → Option Binding → Option Binding
  | .done, pending | .read _, pending => pending
  | .test subject _ none, pending => subject.waiting pending
  | .test _ variant (some bound), _ => some ⟨bound, variant⟩
  | .other operand, pending | .not operand, pending | .leave _ operand, pending
  | .ifBody operand, pending | .declare _ _ operand, pending => operand.waiting pending
  | .seq first rest, pending | .and first rest, pending | .or first rest, pending
  | .matching first rest, pending | .arm _ first rest, pending | .unconsumed first rest, pending
  | .whileLoop first rest, pending | .doWhile first rest, pending =>
    rest.waiting (first.waiting pending)
  | .ternary first second third, pending | .guarded _ first second third, pending =>
    third.waiting (second.waiting (first.waiting pending))
  | .branch _ body rest, _ => rest.waiting (body.waiting none)

def ArmKept (patterns : List Pattern) (visible : Visible) : Prop :=
  ∀ binding, bindPattern patterns = some binding → visible binding.name = none ∧
    ∀ pattern ∈ patterns, ∃ name, pattern = .variant binding.variant name

/-- Wherever an `if` takes a binding, it is that of a test which holds where the condition does, and
it hides no local. -/
def Tree.Kept : Tree → Visible → Option Binding → Prop
  | .done, _, _ | .read _, _, _ => True
  | .test operand _ _, visible, pending | .other operand, visible, pending
  | .not operand, visible, pending | .leave _ operand, visible, pending
  | .ifBody operand, visible, pending | .declare _ _ operand, visible, pending =>
    operand.Kept visible pending
  | .seq first rest, visible, pending | .and first rest, visible, pending
  | .or first rest, visible, pending | .matching first rest, visible, pending
  | .unconsumed first rest, visible, pending | .whileLoop first rest, visible, pending =>
    first.Kept visible pending ∧ rest.Kept (first.after visible) (first.waiting pending)
  | .doWhile body condition, visible, pending =>
    body.Kept visible pending ∧ condition.Kept visible (body.waiting pending)
  | .ternary condition first second, visible, pending =>
    condition.Kept visible pending ∧
    first.Kept (condition.after visible) (condition.waiting pending) ∧
    second.Kept (first.after (condition.after visible))
      (first.waiting (condition.waiting pending))
  | .arm patterns body rest, visible, pending =>
    let inner := body.after (visible.bind (bindPattern patterns))
    ArmKept patterns visible ∧ body.Kept (visible.bind (bindPattern patterns)) pending ∧
    rest.Kept (inner.unbind visible (bindPattern patterns)) (body.waiting pending)
  | .guarded patterns guard body rest, visible, pending =>
    let within := (guard.after (visible.bind (bindPattern patterns))).bind (bindPattern patterns)
    ArmKept patterns visible ∧ guard.Kept (visible.bind (bindPattern patterns)) pending ∧
    body.Kept within (guard.waiting pending) ∧
    rest.Kept ((body.after within).unbind visible (bindPattern patterns))
      (body.waiting (guard.waiting pending))
  | .branch condition body rest, visible, pending =>
    condition.Kept visible pending ∧
    (∀ binding, condition.waiting pending = some binding →
      condition.after visible binding.name = none ∧
      (binding.single = true → condition.guard true = some binding)) ∧
    body.Kept ((condition.after visible).bind (condition.guard true)) none ∧
    rest.Kept (condition.after visible) (body.waiting none)

/-- Each function of the program is `Kept`, with what the one before it has left to wait. -/
def KeptProgram : List FunctionDecl → Option Binding → Prop
  | [], _ => True
  | function :: rest, pending =>
    function.body.Kept function.params pending ∧
      KeptProgram rest (function.body.waiting pending)

end Condition

section Runs

abbrev Runs (pre : State → Prop) (code : Emitted) (post : Option Way → State → Prop) : Prop :=
  Triple Step (fun _ => True) Event.Fine pre code post

variable {pre : State → Prop} {post : Option Way → State → Prop} {yes no : Emitted}
  {about : (Nat → Option Variant) → Prop} {site : Nat} {variant : Variant}

theorem runs_choose (holds : Runs (fun s => pre s ∧ s.flag = true) yes post)
    (fails : Runs (fun s => pre s ∧ s.flag = false) no post) : Runs pre (choose yes no) post := by
  have assumed : ∀ value, Runs pre (.act (.assume value)) fun out s =>
      out = none ∧ pre s ∧ s.flag = value := by
    intro value
    apply triple_act
    intro s events out s' before step _
    cases step with
    | assume same => exact ⟨nofun, rfl, before, same⟩
  have taken : ∀ value branch, Runs (fun s => pre s ∧ s.flag = value) branch post →
      Runs pre (.seq (.act (.assume value)) branch) post := by
    intro value branch runs
    apply triple_seq (assumed value) (runs.weaken (fun s ends => ends.2) fun _ _ ends => ends)
    rintro way s ⟨ended, _⟩
    exact absurd ended nofun
  exact triple_either (taken true yes holds) (taken false no fails)

theorem runs_act {act : Act} (each : ∀ s events out s', pre s → Step act s events out s' →
    (∀ event ∈ events, event.Fine) ∧ out = none ∧ post none s') : Runs pre (.act act) post := by
  apply triple_act
  intro s events out s' before step _
  obtain ⟨fine, rfl, ends⟩ := each s events out s' before step
  exact ⟨fine, ends⟩

theorem runs_unknown : Runs (fun s => about s.temps) (.act .unknown) fun _ s => about s.temps := by
  apply runs_act
  intro s events out s' before step
  cases step
  exact ⟨nofun, rfl, before⟩

theorem runs_load (there : ∀ s, pre s → s.temps site = some variant) :
    Runs pre (.act (.load site variant)) fun out s => out = none ∧ pre s := by
  apply runs_act
  intro s events out s' before step
  cases step
  exact ⟨forall_mem_singleton.2 (there s before), rfl, rfl, before⟩

theorem runs_read {found wanted} (same : found = wanted) :
    Runs (fun s => about s.temps) (.act (.read found wanted)) fun _ s => about s.temps := by
  apply runs_act
  intro s events out s' before step
  cases step
  exact ⟨forall_mem_singleton.2 same, rfl, before⟩

theorem runs_back {found wanted : Visible} (same : found = wanted) :
    Runs (fun s => about s.temps) (.act (.back found wanted)) fun _ s => about s.temps := by
  apply runs_act
  intro s events out s' before step
  cases step
  exact ⟨forall_mem_singleton.2 same, rfl, before⟩

theorem runs_seq {first rest : Emitted} {between}
    (begins : Runs pre first between) (goes : Runs (between none) rest post)
    (leaves : ∀ way s, between (some way) s → post (some way) s) : Runs pre (.seq first rest) post :=
  triple_seq begins goes leaves

end Runs

section Sound

def Local (next : Nat) (about : (Nat → Option Variant) → Prop) : Prop :=
  ∀ temps temps', (∀ site < next, temps site = temps' site) → about temps → about temps'

variable {next next' site : Nat} {about : (Nat → Option Variant) → Prop}

theorem Local.mono (isLocal : Local next about) (below : next ≤ next') : Local next' about :=
  fun temps temps' same => isLocal temps temps' fun site less =>
    same site (Nat.lt_of_lt_of_le less below)

theorem Local.and {also} (isLocal : Local next about)
    (other : Local next also) : Local next fun temps => about temps ∧ also temps :=
  fun temps temps' same holds => ⟨isLocal temps temps' same holds.1, other temps temps' same holds.2⟩

theorem local_site (below : site < next) (tag : Option Variant) :
    Local next fun temps => temps site = tag :=
  fun _ _ same holds => (same site below).symm.trans holds

theorem Local.update (isLocal : Local next about) (fresh : next ≤ site) {temps}
    (tag : Option Variant) (holds : about temps) : about (Function.update temps site tag) := by
  apply isLocal temps _ _ holds
  intro other below
  rw [Function.update_of_ne (by omega)]

def Tested (tree : Tree) (final : Option Pending) (s : State) : Prop :=
  ∀ value binding pending, tree.guard value = some binding → final = some pending →
    s.flag = value → s.temps pending.site = some binding.variant

structure Ready (tree : Tree) (subject : Nat) (scope : Visible) (gen : Gen) : Prop where
  kept : tree.Kept scope (gen.pending.map Pending.toBinding)
  locals : gen.locals = scope
  placed : ∀ pending, gen.pending = some pending → pending.site < gen.next
  inside : subject < gen.next

/-- What the generator makes of a tree that is `Kept`. -/
structure Sound (tree : Tree) (subject : Nat) (scope : Visible) (gen : Gen) : Prop where
  locals : (tree.emit subject scope gen).2.locals = tree.after scope
  pending : (tree.emit subject scope gen).2.pending.map Pending.toBinding =
    tree.waiting (gen.pending.map Pending.toBinding)
  placed : ∀ pending, (tree.emit subject scope gen).2.pending = some pending →
    pending.site < (tree.emit subject scope gen).2.next
  next : gen.next ≤ (tree.emit subject scope gen).2.next
  still : tree.still = true → (tree.emit subject scope gen).2.pending = gen.pending
  guarded : ∀ value binding, tree.guard value = some binding →
    ∃ pending, (tree.emit subject scope gen).2.pending = some pending ∧ pending.toBinding = binding
  runs : ∀ about, Local gen.next about → Runs (fun s => about s.temps)
    (tree.emit subject scope gen).1 fun out s => about s.temps ∧
      (out = none → Tested tree (tree.emit subject scope gen).2.pending s)

variable {tree first rest : Tree} {subject : Nat} {scope : Visible} {gen : Gen}

theorem tested_of_none (unguarded : ∀ value, tree.guard value = none) (final : Option Pending)
    (s : State) : Tested tree final s := by
  intro value binding pending guard
  rw [unguarded value] at guard
  exact absurd guard nofun

theorem runs_untested {code : Emitted} (unguarded : ∀ value, tree.guard value = none)
    (final : Option Pending) (runs : Runs (fun s => about s.temps) code fun _ s => about s.temps) :
    Runs (fun s => about s.temps) code fun out s =>
      about s.temps ∧ (out = none → Tested tree final s) :=
  runs.weaken (fun _ before => before)
    fun _ s ends => ⟨ends, fun _ => tested_of_none unguarded final s⟩

theorem runs_leave (way : Way) :
    Runs (fun s => about s.temps) (.leave way) fun _ s => about s.temps :=
  (triple_leave way).weaken (fun _ before => before) fun _ _ ends => ends

theorem runs_either {yes no : Emitted}
    (holds : Runs (fun s => about s.temps) yes fun _ s => about s.temps)
    (fails : Runs (fun s => about s.temps) no fun _ s => about s.temps) :
    Runs (fun s => about s.temps) (choose yes no) fun _ s => about s.temps :=
  runs_choose (holds.weaken (fun _ before => before.1) fun _ _ ends => ends)
    (fails.weaken (fun _ before => before.1) fun _ _ ends => ends)

theorem runs_skip : Runs (fun s => about s.temps) .skip fun _ s => about s.temps :=
  triple_skip.weaken (fun _ before => before) fun _ _ ends => ends

theorem Sound.plain (sound : Sound tree subject scope gen) (isLocal : Local gen.next about) :
    Runs (fun s => about s.temps) (tree.emit subject scope gen).1 fun _ s => about s.temps :=
  (sound.runs about isLocal).weaken (fun _ holds => holds) fun _ _ ends => ends.1

theorem Sound.ready (sound : Sound first subject scope gen) (inside : subject < gen.next)
    (kept : rest.Kept (first.after scope) (first.waiting (gen.pending.map Pending.toBinding))) :
    Ready rest subject (first.after scope) (first.emit subject scope gen).2 where
  kept := sound.pending ▸ kept
  locals := sound.locals
  placed := sound.placed
  inside := Nat.lt_of_lt_of_le inside sound.next

/-- The parts of `Sound` where one tree is visited behind another. -/
theorem Sound.waiting (one : Sound first subject scope gen)
    (other : Sound rest subject (first.after scope) (first.emit subject scope gen).2) :
    (rest.emit subject (first.after scope) (first.emit subject scope gen).2).2.pending.map
        Pending.toBinding = rest.waiting (first.waiting (gen.pending.map Pending.toBinding)) :=
  other.pending.trans (congrArg rest.waiting one.pending)

theorem Sound.stays (one : Sound first subject scope gen)
    (other : Sound rest subject (first.after scope) (first.emit subject scope gen).2)
    (still : (first.still && rest.still) = true) :
    (rest.emit subject (first.after scope) (first.emit subject scope gen).2).2.pending =
      gen.pending := by
  obtain ⟨here, later⟩ := Bool.and_eq_true_iff.1 still
  exact (other.still later).trans (one.still here)

theorem sound_seq (one : Sound first subject scope gen)
    (other : Sound rest subject (first.after scope) (first.emit subject scope gen).2) :
    Sound (.seq first rest) subject scope gen where
  locals := other.locals
  pending := one.waiting other
  placed := other.placed
  next := Nat.le_trans one.next other.next
  still := one.stays other
  guarded := fun _ _ guard => absurd guard nofun
  runs := by
    intro about isLocal
    apply runs_untested (fun _ => rfl)
    exact runs_seq (one.plain isLocal) (other.plain (isLocal.mono one.next)) fun _ _ ends => ends

theorem sound_other (one : Sound first subject scope gen) :
    Sound (.other first) subject scope gen where
  locals := one.locals
  pending := one.pending
  placed := one.placed
  next := one.next
  still := one.still
  guarded := fun _ _ guard => absurd guard nofun
  runs := by
    intro about isLocal
    apply runs_untested (fun _ => rfl)
    exact runs_seq (one.plain isLocal) runs_unknown fun _ _ ends => ends

theorem sound_untested (one : Sound first subject scope gen) (variant : Variant) :
    Sound (.test first variant none) subject scope gen where
  locals := one.locals
  pending := one.pending
  placed := one.placed
  next := one.next
  still := one.still
  guarded := by
    intro value _ guard
    cases value <;> exact absurd guard nofun
  runs := by
    intro about isLocal
    apply runs_untested fun value => by cases value <;> rfl
    exact runs_seq (one.plain isLocal) runs_unknown fun _ _ ends => ends

theorem sound_not (one : Sound first subject scope gen) : Sound (.not first) subject scope gen where
  locals := one.locals
  pending := one.pending
  placed := one.placed
  next := one.next
  still := one.still
  guarded := fun value binding guard => one.guarded (!value) binding guard
  runs := by
    intro about isLocal
    apply runs_seq (one.runs about isLocal) _ fun way s ends => ⟨ends.1, nofun⟩
    apply runs_act
    intro s events out s' before step
    cases step
    refine ⟨nofun, rfl, before.1, fun _ => ?_⟩
    intro value binding pending guard final flag
    apply before.2 rfl (!value) binding pending guard final
    rw [← flag, Bool.not_not]

theorem sound_test (one : Sound first subject scope gen) (variant : Variant) (bound : Bound) :
    Sound (.test first variant (some bound)) subject scope gen where
  locals := one.locals
  pending := rfl
  placed := by
    rintro pending same
    obtain rfl := Option.some.inj same
    exact Nat.lt_succ_self _
  next := Nat.le_trans one.next (Nat.le_succ _)
  still := fun still => absurd still nofun
  guarded := by
    intro value binding guard
    cases value with
    | false => exact absurd guard nofun
    | true => exact ⟨_, rfl, Option.some.inj guard⟩
  runs := by
    intro about isLocal
    apply runs_seq (one.plain isLocal) _ fun way s ends => ⟨ends, nofun⟩
    apply runs_act
    intro s events out s' before step
    cases step with
    | test tag =>
      refine ⟨nofun, rfl,
        isLocal.update one.next (some tag) before, fun _ => ?_⟩
      intro value binding pending guard final flag
      obtain rfl := Option.some.inj final
      cases value with
      | false => exact absurd guard nofun
      | true =>
        obtain rfl := Option.some.inj guard
        have same : tag = variant := of_decide_eq_true flag
        rw [← same]
        exact Function.update_self _ _ _

/-- The two operands of `&&` and `||`: the second is only come to where the first has a value. -/
theorem runs_second {whole : Tree} {value : Bool} (one : Sound first subject scope gen)
    (other : Sound rest subject (first.after scope) (first.emit subject scope gen).2)
    (guard : ∀ asked, whole.guard asked = if asked = value then
      if rest.still then first.guard value else rest.guard value else none)
    (isLocal : Local gen.next about) :
    Runs (fun s => (about s.temps ∧ Tested first (first.emit subject scope gen).2.pending s) ∧
        s.flag = value) (rest.emit subject (first.after scope) (first.emit subject scope gen).2).1
      fun out s => about s.temps ∧ (out = none → Tested whole
        (rest.emit subject (first.after scope) (first.emit subject scope gen).2).2.pending s) := by
  have below := isLocal.mono one.next
  by_cases still : rest.still = true
  · cases held : first.guard value with
    | none =>
      have unguarded : ∀ asked, whole.guard asked = none := by
        intro asked
        rw [guard, held, if_pos still, ite_self]
      apply (other.plain below).weaken fun s before => before.1.1
      exact fun out s ends => ⟨ends, fun _ => tested_of_none unguarded _ s⟩
    | some binding =>
      -- the second operand leaves the payload where the test has put it
      obtain ⟨pending, final, _⟩ := one.guarded value binding held
      have there := below.and (local_site (one.placed pending final) (some binding.variant))
      apply (other.plain there).weaken
      · rintro s ⟨⟨holds, tested⟩, flag⟩
        exact ⟨holds, tested value binding pending held final flag⟩
      · rintro out s ⟨holds, payload⟩
        refine ⟨holds, fun _ asked wanted last guarded ended _ => ?_⟩
        rw [other.still still, final] at ended
        obtain rfl := Option.some.inj ended
        rw [guard, if_pos still] at guarded
        split at guarded
        · rw [held] at guarded
          obtain rfl := Option.some.inj guarded
          exact payload
        · exact absurd guarded nofun
  · apply (other.runs about below).weaken fun s before => before.1.1
    rintro out s ⟨holds, tested⟩
    refine ⟨holds, fun ends asked wanted last guarded ended flag => ?_⟩
    rw [guard, if_neg still] at guarded
    split at guarded
    next same =>
        subst same
        exact tested ends _ wanted last guarded ended flag
    next => exact absurd guarded nofun

theorem runs_short {whole : Tree} {value : Bool} {held}
    (guard : ∀ asked, whole.guard asked = if asked = value then held else none)
    (final final' : Option Pending) :
    Runs (fun s => (about s.temps ∧ Tested first final s) ∧ s.flag = !value) .skip
      fun out s => about s.temps ∧ (out = none → Tested whole final' s) := by
  apply triple_skip.weaken _ fun _ _ ends => ends
  rintro s ⟨⟨holds, _⟩, flag⟩
  refine ⟨holds, fun _ asked wanted last guarded _ asked_flag => ?_⟩
  have other : asked ≠ value := by
    rw [← asked_flag, flag]
    cases value <;> exact nofun
  rw [guard, if_neg other] at guarded
  exact absurd guarded nofun

theorem guarded_second {whole : Tree} {value asked : Bool} {binding}
    (one : Sound first subject scope gen)
    (other : Sound rest subject (first.after scope) (first.emit subject scope gen).2)
    (guard : ∀ asked, whole.guard asked = if asked = value then
      if rest.still then first.guard value else rest.guard value else none)
    (guarded : whole.guard asked = some binding) :
    ∃ pending, (rest.emit subject (first.after scope) (first.emit subject scope gen).2).2.pending =
      some pending ∧ pending.toBinding = binding := by
  rw [guard] at guarded
  split at guarded
  · split at guarded
    next still =>
      obtain ⟨pending, final, same⟩ := one.guarded value binding guarded
      exact ⟨pending, (other.still still).trans final, same⟩
    · exact other.guarded value binding guarded
  · exact absurd guarded nofun

theorem sound_and (one : Sound first subject scope gen)
    (other : Sound rest subject (first.after scope) (first.emit subject scope gen).2) :
    Sound (.and first rest) subject scope gen := by
  have guard : ∀ asked, (Tree.and first rest).guard asked = if asked = true then
      if rest.still then first.guard true else rest.guard true else none := by
    intro asked
    cases asked <;> rfl
  refine ⟨other.locals, one.waiting other, other.placed, Nat.le_trans one.next other.next,
    one.stays other, fun _ _ => guarded_second one other guard, fun about isLocal => ?_⟩
  apply runs_seq (one.runs about isLocal) _ fun way s ends => ⟨ends.1, nofun⟩
  have branches := runs_choose (runs_second one other guard isLocal) (runs_short guard _ _)
  exact branches.weaken (fun s before => ⟨before.1, before.2 rfl⟩) fun _ _ ends => ends

theorem sound_or (one : Sound first subject scope gen)
    (other : Sound rest subject (first.after scope) (first.emit subject scope gen).2) :
    Sound (.or first rest) subject scope gen := by
  have guard : ∀ asked, (Tree.or first rest).guard asked = if asked = false then
      if rest.still then first.guard false else rest.guard false else none := by
    intro asked
    cases asked <;> rfl
  refine ⟨other.locals, one.waiting other, other.placed, Nat.le_trans one.next other.next,
    one.stays other, fun _ _ => guarded_second one other guard, fun about isLocal => ?_⟩
  apply runs_seq (one.runs about isLocal) _ fun way s ends => ⟨ends.1, nofun⟩
  have branches := runs_choose (runs_short guard _ _) (runs_second one other guard isLocal)
  exact branches.weaken (fun s before => ⟨before.1, before.2 rfl⟩) fun _ _ ends => ends

theorem sound_ternary {last : Tree} (one : Sound tree subject scope gen)
    (two : Sound first subject (tree.after scope) (tree.emit subject scope gen).2)
    (three : Sound last subject (first.after (tree.after scope))
      (first.emit subject (tree.after scope) (tree.emit subject scope gen).2).2) :
    Sound (.ternary tree first last) subject scope gen where
  locals := three.locals
  pending := (two.waiting three).trans (congrArg (last.waiting ∘ first.waiting) one.pending)
  placed := three.placed
  next := Nat.le_trans one.next (Nat.le_trans two.next three.next)
  still := by
    intro still
    obtain ⟨early, later⟩ := Bool.and_eq_true_iff.1 still
    exact (three.still later).trans (one.stays two early)
  guarded := fun _ _ guard => absurd guard nofun
  runs := by
    intro about isLocal
    apply runs_untested (fun _ => rfl)
    have yes := two.plain (isLocal.mono one.next)
    have no := three.plain (isLocal.mono (Nat.le_trans one.next two.next))
    exact runs_seq (one.plain isLocal) (runs_either yes no) fun _ _ ends => ends

theorem sound_leave (one : Sound first subject scope gen) (way : Way) :
    Sound (.leave way first) subject scope gen where
  locals := one.locals
  pending := one.pending
  placed := one.placed
  next := one.next
  still := one.still
  guarded := fun _ _ guard => absurd guard nofun
  runs := by
    intro about isLocal
    apply runs_untested (fun _ => rfl)
    exact runs_seq (one.plain isLocal) (runs_leave way) fun _ _ ends => ends

theorem sound_declare (one : Sound first subject scope gen) (declaration : Nat) (name : Name) :
    Sound (.declare declaration name first) subject scope gen where
  locals := congrArg (fun locals => Function.update locals name _) one.locals
  pending := one.pending
  placed := one.placed
  next := one.next
  still := one.still
  guarded := fun _ _ guard => absurd guard nofun
  runs := by
    intro about isLocal
    exact runs_untested (fun _ => rfl) _ (one.plain isLocal)

theorem sound_ifBody (one : Sound first subject scope gen) (locals : gen.locals = scope) :
    Sound (.ifBody first) subject scope gen where
  locals := locals
  pending := one.pending
  placed := one.placed
  next := one.next
  still := one.still
  guarded := fun _ _ guard => absurd guard nofun
  runs := by
    intro about isLocal
    exact runs_untested (fun _ => rfl) _ (one.plain isLocal)

theorem sound_unconsumed (one : Sound first subject scope gen)
    (other : Sound rest subject (first.after scope) (first.emit subject scope gen).2) :
    Sound (.unconsumed first rest) subject scope gen where
  locals := one.locals
  pending := one.waiting other
  placed := other.placed
  next := Nat.le_trans one.next other.next
  still := one.stays other
  guarded := fun _ _ guard => absurd guard nofun
  runs := by
    intro about isLocal
    apply runs_untested (fun _ => rfl)
    have inner := other.plain (isLocal.mono one.next)
    exact runs_seq (one.plain isLocal) (runs_either inner runs_skip) fun _ _ ends => ends

theorem runs_turns {turn : Emitted} (runs : Runs (fun s => about s.temps) turn fun _ s => about s.temps) :
    Runs (fun s => about s.temps) (Code.looping .brk .cont turn .never) fun _ s => about s.temps :=
  triple_looping .never nofun runs (fun _ holds => holds) (fun _ holds => holds)
    (fun _ holds => holds) (fun _ holds => holds) fun _ _ _ _ holds => holds

theorem sound_while (one : Sound first subject scope gen)
    (other : Sound rest subject (first.after scope) (first.emit subject scope gen).2) :
    Sound (.whileLoop first rest) subject scope gen where
  locals := one.locals
  pending := one.waiting other
  placed := other.placed
  next := Nat.le_trans one.next other.next
  still := one.stays other
  guarded := fun _ _ guard => absurd guard nofun
  runs := by
    intro about isLocal
    apply runs_untested (fun _ => rfl)
    have body := runs_either (other.plain (isLocal.mono one.next)) (runs_leave .brk)
    exact runs_turns (runs_seq (one.plain isLocal) body fun _ _ ends => ends)

theorem sound_doWhile (one : Sound first subject scope gen) (other : Sound rest subject scope
      { (first.emit subject scope gen).2 with locals := gen.locals }) :
    Sound (.doWhile first rest) subject scope gen where
  locals := other.locals
  pending := other.pending.trans (congrArg rest.waiting one.pending)
  placed := other.placed
  next := Nat.le_trans one.next other.next
  still := by
    intro still
    obtain ⟨here, later⟩ := Bool.and_eq_true_iff.1 still
    exact (other.still later).trans (one.still here)
  guarded := fun _ _ guard => absurd guard nofun
  runs := by
    intro about isLocal
    apply runs_untested (fun _ => rfl)
    have condition := other.plain (isLocal.mono one.next)
    have body : Runs (fun s => about s.temps)
        (.handle .cont (first.emit subject scope gen).1 .skip) fun _ s => about s.temps :=
      triple_handle (one.plain isLocal) runs_skip fun _ _ _ ends => ends
    apply runs_turns
    apply runs_seq body _ fun _ _ ends => ends
    exact runs_seq condition (runs_either runs_skip (runs_leave .brk)) fun _ _ ends => ends

theorem sound_matching (one : Sound first subject scope gen)
    (other : Sound rest (first.emit subject scope gen).2.next (first.after scope)
      { (first.emit subject scope gen).2 with next := (first.emit subject scope gen).2.next + 1 }) :
    Sound (.matching first rest) subject scope gen where
  locals := other.locals
  pending := other.pending.trans (congrArg rest.waiting one.pending)
  placed := other.placed
  next := Nat.le_trans one.next (Nat.le_trans (Nat.le_succ _) other.next)
  still := by
    intro still
    obtain ⟨here, later⟩ := Bool.and_eq_true_iff.1 still
    exact (other.still later).trans (one.still here)
  guarded := fun _ _ guard => absurd guard nofun
  runs := by
    intro about isLocal
    apply runs_untested (fun _ => rfl)
    have arms := other.plain ((isLocal.mono one.next).mono (Nat.le_succ _))
    have taken : Runs (fun s => about s.temps)
        (.act (.take (first.emit subject scope gen).2.next)) fun _ s => about s.temps := by
      apply runs_act
      intro s events out s' before step
      cases step with
      | take tag flag =>
        exact ⟨nofun, rfl,
          isLocal.update one.next (some tag) before⟩
    apply runs_seq (one.plain isLocal) _ fun _ _ ends => ends
    apply runs_seq taken _ fun _ _ ends => ends
    apply runs_seq arms _ fun _ _ ends => ends
    exact runs_seq runs_unknown (runs_back other.locals) fun _ _ ends => ends

section Arms

variable {patterns : List Pattern} {taken others : Emitted}

def There (patterns : List Pattern) (subject : Nat) (temps : Nat → Option Variant) : Prop :=
  ∀ binding, bindPattern patterns = some binding → temps subject = some binding.variant

theorem local_there (patterns : List Pattern) (inside : subject < next) :
    Local next (There patterns subject) :=
  fun _ _ same there binding binds => (same subject inside).symm.trans (there binding binds)

theorem there_of_fits (kept : ArmKept patterns scope) {temps}
    (fits : ∃ pattern ∈ patterns, pattern.fits (temps subject)) : There patterns subject temps := by
  intro binding binds
  obtain ⟨pattern, member, fits⟩ := fits
  obtain ⟨name, rfl⟩ := (kept binding binds).2 pattern member
  exact fits

theorem runs_arm (kept : ArmKept patterns scope)
    (holds : Runs (fun s => about s.temps ∧ There patterns subject s.temps) taken
      fun _ s => about s.temps)
    (fails : Runs (fun s => about s.temps) others fun _ s => about s.temps) :
    Runs (fun s => about s.temps) (armCode subject patterns taken others)
      fun _ s => about s.temps := by
  unfold armCode
  split
  next wild =>
      have unbound : bindPattern patterns = none := if_pos wild
      apply holds.weaken (fun s before => ⟨before, fun binding binds => ?_⟩) fun _ _ ends => ends
      rw [unbound] at binds
      exact absurd binds nofun
  next =>
      have compared : Runs (fun s => about s.temps) (.act (.compare subject patterns)) fun _ s =>
          about s.temps ∧ (s.flag = true → There patterns subject s.temps) := by
        apply runs_act
        intro s events out s' before step
        have silent : ∀ event ∈ ([] : List Event), event.Fine :=
          nofun
        cases step with
        | fits fits => exact ⟨silent, rfl, before, fun _ => there_of_fits kept fits⟩
        | differs => exact ⟨silent, rfl, before, nofun⟩
      apply runs_seq compared _ fun _ _ ends => ends.1
      apply runs_choose
      · exact holds.weaken (fun s before => ⟨before.1.1, before.1.2 before.2⟩) fun _ _ ends => ends
      · exact fails.weaken (fun s before => before.1.1) fun _ _ ends => ends

theorem runs_pattern (about : (Nat → Option Variant) → Prop) :
    Runs (fun s => about s.temps ∧ There patterns subject s.temps)
      (loadPattern subject (bindPattern patterns))
      fun _ s => about s.temps ∧ There patterns subject s.temps := by
  cases binds : bindPattern patterns with
  | none => exact triple_skip.weaken (fun _ before => before) fun _ _ ends => ends
  | some binding =>
    apply (runs_load fun s before => before.2 binding binds).weaken fun _ before => before
    exact fun _ _ ends => ends.2

theorem erase_bound {inner outer : Visible} (kept : ArmKept patterns outer) :
    inner.erase (·.name) (bindPattern patterns) = inner.unbind outer (bindPattern patterns) := by
  cases binds : bindPattern patterns with
  | none => rfl
  | some binding => exact congrArg (Function.update inner binding.name) (kept binding binds).1.symm

abbrev Gen.behind (gen : Gen) (patterns : List Pattern) : Gen :=
  { gen with locals := gen.locals.erase (·.name) (bindPattern patterns) }

abbrev Gen.bound (gen : Gen) (patterns : List Pattern) : Gen :=
  { gen with locals := gen.locals.bind (bindPattern patterns) }

theorem sound_arm (inside : subject < gen.next) (kept : ArmKept patterns scope)
    (one : Sound first subject (scope.bind (bindPattern patterns)) (gen.bound patterns))
    (other : Sound rest subject
      ((first.after (scope.bind (bindPattern patterns))).unbind scope (bindPattern patterns))
      ((first.emit subject (scope.bind (bindPattern patterns)) (gen.bound patterns)).2.behind
        patterns)) : Sound (.arm patterns first rest) subject scope gen where
  locals := other.locals
  pending := other.pending.trans (congrArg rest.waiting one.pending)
  placed := other.placed
  next := Nat.le_trans one.next other.next
  still := by
    intro still
    obtain ⟨here, later⟩ := Bool.and_eq_true_iff.1 still
    exact (other.still later).trans (one.still here)
  guarded := fun _ _ guard => absurd guard nofun
  runs := by
    intro about isLocal
    apply runs_untested (fun _ => rfl)
    have later := other.plain (isLocal.mono one.next)
    apply runs_arm kept _ later
    apply runs_seq (runs_pattern about) _ fun _ _ ends => ends.1
    apply (one.plain (isLocal.and (local_there patterns inside))).weaken (fun _ before => before)
    exact fun _ _ ends => ends.1

theorem sound_guarded (inside : subject < gen.next) (kept : ArmKept patterns scope)
    (one : Sound tree subject (scope.bind (bindPattern patterns)) (gen.bound patterns))
    (two : Sound first subject
      ((tree.after (scope.bind (bindPattern patterns))).bind (bindPattern patterns))
      ((tree.emit subject (scope.bind (bindPattern patterns)) (gen.bound patterns)).2.bound patterns))
    (three : Sound rest subject ((first.after ((tree.after (scope.bind (bindPattern patterns))).bind
        (bindPattern patterns))).unbind scope (bindPattern patterns)) ((first.emit subject
        ((tree.after (scope.bind (bindPattern patterns))).bind (bindPattern patterns))
        ((tree.emit subject (scope.bind (bindPattern patterns)) (gen.bound patterns)).2.bound
          patterns)).2.behind patterns)) :
    Sound (.guarded patterns tree first rest) subject scope gen where
  locals := three.locals
  pending := three.pending.trans (congrArg rest.waiting
    (two.pending.trans (congrArg first.waiting one.pending)))
  placed := three.placed
  next := Nat.le_trans one.next (Nat.le_trans two.next three.next)
  still := by
    intro still
    obtain ⟨early, later⟩ := Bool.and_eq_true_iff.1 still
    obtain ⟨guarding, here⟩ := Bool.and_eq_true_iff.1 early
    exact (three.still later).trans ((two.still here).trans (one.still guarding))
  guarded := fun _ _ guard => absurd guard nofun
  runs := by
    intro about isLocal
    apply runs_untested (fun _ => rfl)
    have within := isLocal.and (local_there patterns inside)
    have condition := one.plain within
    have body := two.plain (within.mono one.next)
    have later := three.plain (isLocal.mono (Nat.le_trans one.next two.next))
    apply runs_arm kept _ later
    apply runs_seq (runs_pattern about) _ fun _ _ ends => ends.1
    apply runs_seq condition _ fun _ _ ends => ends.1
    apply runs_choose
    · have loaded := runs_seq (runs_pattern about) body fun _ _ ends => ends
      exact loaded.weaken (fun _ before => before.1) fun _ _ ends => ends.1
    · exact later.weaken (fun _ before => before.1.1) fun _ _ ends => ends

end Arms

section Branches

variable {body : Tree}

/-- The generator where an `if` has taken what waits behind its condition. -/
abbrev Gen.taking (gen : Gen) : Gen :=
  { gen with locals := gen.locals.bind (gen.pending.map Pending.toBinding), pending := none }

abbrev Gen.left (gen outer : Gen) : Gen :=
  { gen with locals := outer.taking.locals.erase (·.name) outer.pending }

/-- What an `if` may take: a binding that hides no local, and whose test holds if it is loaded. -/
def Takes (condition : Tree) (visible : Visible) (pending : Option Binding) : Prop :=
  ∀ binding, pending = some binding → visible binding.name = none ∧
    (binding.single = true → condition.guard true = some binding)

theorem taking_locals (one : Sound tree subject scope gen)
    (takes : Takes tree (tree.after scope) (tree.waiting (gen.pending.map Pending.toBinding))) :
    (tree.emit subject scope gen).2.taking.locals = (tree.after scope).bind (tree.guard true) := by
  rw [← one.pending] at takes
  change (tree.emit subject scope gen).2.locals.bind _ = _
  rw [one.locals]
  cases waits : (tree.emit subject scope gen).2.pending with
  | none =>
    cases held : tree.guard true with
    | none => rfl
    | some binding =>
      obtain ⟨pending, final, _⟩ := one.guarded true binding held
      rw [waits] at final
      exact absurd final nofun
  | some pending =>
    rw [waits] at takes
    obtain ⟨_, asked⟩ := takes pending.toBinding rfl
    by_cases single : pending.single = true
    · rw [asked single]
      rfl
    · have unloaded : (tree.after scope).bind (some pending.toBinding) = tree.after scope :=
        if_neg single
      cases held : tree.guard true with
      | none => exact unloaded
      | some binding =>
        obtain ⟨other, final, same⟩ := one.guarded true binding held
        rw [waits] at final
        obtain rfl := Option.some.inj final
        rw [← same]
        rfl

theorem erase_bind (visible : Visible) (binding : Binding) (fresh : visible binding.name = none)
    {guard} (asked : guard = none ∨ guard = some binding) :
    Function.update (visible.bind guard) binding.name none = visible := by
  have unbound : Function.update visible binding.name none = visible := by
    rw [← fresh]
    exact Function.update_eq_self _ _
  rcases asked with rfl | rfl
  · exact unbound
  · by_cases single : binding.single = true
    · have bound : visible.bind (some binding) =
          Function.update visible binding.name (some (.payload binding.variant)) := if_pos single
      rw [bound, Function.update_idem, unbound]
    · have bound : visible.bind (some binding) = visible := if_neg single
      rw [bound, unbound]

theorem left_locals (one : Sound tree subject scope gen)
    (takes : Takes tree (tree.after scope) (tree.waiting (gen.pending.map Pending.toBinding))) :
    (tree.emit subject scope gen).2.taking.locals.erase (·.name)
      (tree.emit subject scope gen).2.pending = tree.after scope := by
  have taking := taking_locals one takes
  rw [← one.pending] at takes
  cases waits : (tree.emit subject scope gen).2.pending with
  | none =>
    change (tree.emit subject scope gen).2.locals.bind _ = _
    rw [waits, one.locals]
    rfl
  | some pending =>
    rw [waits] at takes
    obtain ⟨fresh, _⟩ := takes pending.toBinding rfl
    rw [taking]
    apply erase_bind _ pending.toBinding fresh
    cases held : tree.guard true with
    | none => exact .inl rfl
    | some binding =>
      obtain ⟨other, final, same⟩ := one.guarded true binding held
      rw [waits] at final
      obtain rfl := Option.some.inj final
      exact .inr (congrArg some same.symm)

theorem runs_pending (about : (Nat → Option Variant) → Prop) (one : Sound tree subject scope gen)
    (takes : Takes tree (tree.after scope) (tree.waiting (gen.pending.map Pending.toBinding))) :
    Runs (fun s => (about s.temps ∧ Tested tree (tree.emit subject scope gen).2.pending s) ∧
      s.flag = true) (loadPending (tree.emit subject scope gen).2.pending)
      fun _ s => about s.temps := by
  rw [← one.pending] at takes
  cases waits : (tree.emit subject scope gen).2.pending with
  | none => exact runs_skip.weaken (fun _ before => before.1.1) fun _ _ ends => ends
  | some pending =>
    rw [waits] at takes
    obtain ⟨_, asked⟩ := takes pending.toBinding rfl
    by_cases single : pending.single = true
    · have loads : loadPending (some pending) = .act (.load pending.site pending.variant) :=
        if_pos single
      have there : ∀ s, (about s.temps ∧ Tested tree (some pending) s) ∧ s.flag = true →
          s.temps pending.site = some pending.variant := fun s before =>
        before.1.2 true pending.toBinding pending (asked single) rfl before.2
      rw [loads]
      exact (runs_load there).weaken (fun _ before => before) fun _ _ ends => ends.2.1.1
    · have loads : loadPending (some pending) = .skip := if_neg single
      rw [loads]
      exact runs_skip.weaken (fun _ before => before.1.1) fun _ _ ends => ends

theorem sound_branch (one : Sound tree subject scope gen)
    (takes : Takes tree (tree.after scope) (tree.waiting (gen.pending.map Pending.toBinding)))
    (two : Sound body subject ((tree.after scope).bind (tree.guard true))
      (tree.emit subject scope gen).2.taking) (three : Sound rest subject (tree.after scope)
      ((body.emit subject ((tree.after scope).bind (tree.guard true))
        (tree.emit subject scope gen).2.taking).2.left (tree.emit subject scope gen).2)) :
    Sound (.branch tree body rest) subject scope gen where
  locals := three.locals
  pending := three.pending.trans (congrArg rest.waiting two.pending)
  placed := three.placed
  next := Nat.le_trans one.next (Nat.le_trans two.next three.next)
  still := fun still => absurd still nofun
  guarded := fun _ _ guard => absurd guard nofun
  runs := by
    intro about isLocal
    have within := isLocal.mono one.next
    have loaded := runs_pending about one takes
    have taken := runs_seq loaded (two.plain within) fun _ _ ends => ends
    have other := three.plain (within.mono two.next)
    apply runs_untested (fun _ => rfl)
    apply runs_seq (one.runs about isLocal) _ fun _ _ ends => ends.1
    have branches := runs_choose taken (other.weaken (fun _ before => before.1.1) fun _ _ ends => ends)
    have back := runs_seq branches (runs_back three.locals) fun _ _ ends => ends
    exact back.weaken (fun _ before => ⟨before.1, before.2 rfl⟩) fun _ _ ends => ends

end Branches

theorem Ready.part (ready : Ready tree subject scope gen) {part : Tree}
    (kept : part.Kept scope (gen.pending.map Pending.toBinding)) : Ready part subject scope gen :=
  ⟨kept, ready.locals, ready.placed, ready.inside⟩

/-- A tree that is `Kept` is emitted soundly. The induction is on the tree. -/
theorem sound_of_ready (ready : Ready tree subject scope gen) : Sound tree subject scope gen := by
  induction tree generalizing subject scope gen with
  | done =>
    refine ⟨ready.locals, rfl, ready.placed, Nat.le_refl _, fun _ => rfl,
      fun _ _ guard => absurd guard nofun, fun about _ => ?_⟩
    exact runs_untested (fun _ => rfl) _ runs_skip
  | read name =>
    refine ⟨ready.locals, rfl, ready.placed, Nat.le_refl _, fun _ => rfl,
      fun _ _ guard => absurd guard nofun, fun about _ => ?_⟩
    have same : gen.locals name = scope name := congrFun ready.locals name
    exact runs_untested (fun _ => rfl) _
      (runs_seq (runs_read same) runs_unknown fun _ _ ends => ends)
  | seq first rest one other =>
    have first_sound := one (ready.part ready.kept.1)
    exact sound_seq first_sound (other (first_sound.ready ready.inside ready.kept.2))
  | other operands one => exact sound_other (one (ready.part ready.kept))
  | test value variant binding one =>
    have value_sound := one (ready.part ready.kept)
    cases binding with
    | none =>
      exact sound_untested value_sound variant
    | some bound => exact sound_test value_sound variant bound
  | not operand one => exact sound_not (one (ready.part ready.kept))
  | and left right one other =>
    have left_sound := one (ready.part ready.kept.1)
    exact sound_and left_sound (other (left_sound.ready ready.inside ready.kept.2))
  | or left right one other =>
    have left_sound := one (ready.part ready.kept.1)
    exact sound_or left_sound (other (left_sound.ready ready.inside ready.kept.2))
  | ternary condition first second one two three =>
    obtain ⟨kept_condition, kept_first, kept_second⟩ := ready.kept
    have tested := one (ready.part kept_condition)
    have first_ready := tested.ready ready.inside kept_first
    have yes := two first_ready
    have kept_no := kept_second
    rw [← tested.pending] at kept_no
    exact sound_ternary tested yes (three (yes.ready first_ready.inside kept_no))
  | matching value arms one other =>
    have value_sound := one (ready.part ready.kept.1)
    have arms_ready := value_sound.ready ready.inside ready.kept.2
    refine sound_matching value_sound (other ⟨arms_ready.kept, arms_ready.locals, ?_, ?_⟩)
    · exact fun pending waits => Nat.lt_succ_of_lt (arms_ready.placed pending waits)
    · exact Nat.lt_succ_self _
  | arm patterns body rest one other =>
    obtain ⟨kept, kept_body, kept_rest⟩ := ready.kept
    have body_ready : Ready body subject (scope.bind (bindPattern patterns)) (gen.bound patterns) :=
      ⟨kept_body, congrArg (Visible.bind · _) ready.locals, ready.placed, ready.inside⟩
    have body_sound := one body_ready
    refine sound_arm ready.inside kept body_sound (other ⟨?_, ?_, body_sound.placed, ?_⟩)
    · exact body_sound.pending ▸ kept_rest
    · exact (congrArg (Visible.erase · _ _) body_sound.locals).trans (erase_bound kept)
    · exact Nat.lt_of_lt_of_le ready.inside body_sound.next
  | guarded patterns guard body rest one two three =>
    obtain ⟨kept, kept_guard, kept_body, kept_rest⟩ := ready.kept
    have guard_ready : Ready guard subject (scope.bind (bindPattern patterns))
        (gen.bound patterns) :=
      ⟨kept_guard, congrArg (Visible.bind · _) ready.locals, ready.placed, ready.inside⟩
    have tested := one guard_ready
    have inside := Nat.lt_of_lt_of_le ready.inside tested.next
    have body_ready : Ready body subject
        ((guard.after (scope.bind (bindPattern patterns))).bind (bindPattern patterns))
        ((guard.emit subject (scope.bind (bindPattern patterns)) (gen.bound patterns)).2.bound
          patterns) :=
      ⟨tested.pending ▸ kept_body, congrArg (Visible.bind · _) tested.locals, tested.placed, inside⟩
    have body_sound := two body_ready
    refine sound_guarded ready.inside kept tested body_sound
      (three ⟨?_, ?_, body_sound.placed, ?_⟩)
    · have waits := body_sound.pending.trans (congrArg body.waiting tested.pending)
      exact waits ▸ kept_rest
    · exact (congrArg (Visible.erase · _ _) body_sound.locals).trans (erase_bound kept)
    · exact Nat.lt_of_lt_of_le inside body_sound.next
  | declare declaration name value one =>
    exact sound_declare (one (ready.part ready.kept)) declaration name
  | branch condition body rest one two three =>
    obtain ⟨kept_condition, takes, kept_body, kept_rest⟩ := ready.kept
    have tested := one (ready.part kept_condition)
    have inside := Nat.lt_of_lt_of_le ready.inside tested.next
    have body_ready : Ready body subject ((condition.after scope).bind (condition.guard true))
        (condition.emit subject scope gen).2.taking :=
      ⟨kept_body, taking_locals tested takes, nofun, inside⟩
    have body_sound := two body_ready
    refine sound_branch tested takes body_sound (three ⟨?_, ?_, body_sound.placed, ?_⟩)
    · exact body_sound.pending ▸ kept_rest
    · exact left_locals tested takes
    · exact Nat.lt_of_lt_of_le inside body_sound.next
  | ifBody body one => exact sound_ifBody (one (ready.part ready.kept)) ready.locals
  | unconsumed condition body one other =>
    have condition_sound := one (ready.part ready.kept.1)
    exact sound_unconsumed condition_sound
      (other (condition_sound.ready ready.inside ready.kept.2))
  | whileLoop condition body one other =>
    have condition_sound := one (ready.part ready.kept.1)
    exact sound_while condition_sound
      (other (condition_sound.ready ready.inside ready.kept.2))
  | doWhile body condition one other =>
    have body_sound := one (ready.part ready.kept.1)
    refine sound_doWhile body_sound (other ⟨?_, ready.locals, body_sound.placed, ?_⟩)
    · exact body_sound.pending ▸ ready.kept.2
    · exact Nat.lt_of_lt_of_le ready.inside body_sound.next
  | leave way value one => exact sound_leave (one (ready.part ready.kept)) way

theorem runs_program {program} (inside : 0 < gen.next)
    (placed : ∀ pending, gen.pending = some pending → pending.site < gen.next)
    (kept : KeptProgram program (gen.pending.map Pending.toBinding)) :
    ∀ emitted ∈ emitProgram program gen, Runs (fun _ => True) emitted fun _ _ => True := by
  induction program generalizing gen with
  | nil => exact nofun
  | cons function program ih =>
    have sound : Sound function.body 0 function.params { gen with locals := function.params } :=
      sound_of_ready ⟨kept.1, rfl, placed, inside⟩
    have always : Local gen.next fun _ => True := fun _ _ _ holds => holds
    refine forall_mem_cons.mpr ⟨sound.plain always, ih ?_ sound.placed ?_⟩
    · exact Nat.lt_of_lt_of_le inside sound.next
    · exact sound.pending ▸ kept.2

/-- In a program that is `Kept`, every run loads the payload of a variant only from a value with its
tag, and finds behind every branch and match what was visible before. -/
theorem payload_guarded (program : List FunctionDecl) (kept : KeptProgram program none) :
    Guarded program := by
  intro emitted member s events out s' run
  have placed : ∀ pending, Gen.start.pending = some pending → pending.site < Gen.start.next := nofun
  exact (runs_program Nat.one_pos placed kept emitted member s events out s' trivial run
    fun _ _ => trivial).1

/-- `if x is E::V(p) { … p … }`. -/
def bindsPayload : FunctionDecl where
  params := Function.update (fun _ => none) "x" (some (.declared 0))
  body := .branch (.test (.read "x") 1 (some ⟨"p", true⟩)) (.read "p") .done

theorem bindsPayload_guarded : Guarded [bindsPayload] := by
  apply payload_guarded
  refine ⟨⟨trivial, ?_, trivial, trivial⟩, trivial⟩
  rintro binding same
  obtain rfl := Option.some.inj same
  exact ⟨rfl, fun _ => rfl⟩

/-- `if !(x is E::V(p)) { }`. -/
def bindsOtherwise : FunctionDecl where
  params := bindsPayload.params
  body := .branch (.not (.test (.read "x") 1 (some ⟨"p", true⟩))) .done .done

theorem otherwise_unguarded : ¬ ∀ program, Guarded program := by
  intro guarded
  have loads := guarded [bindsOtherwise] _ mem_cons_self ⟨false, fun _ => none⟩ _ _ _
    (.seq (.seq (.seq (.seq (.act .read) (.act (.unknown false))) (.act (.test 0))) (.act .negate))
      (.seq (.first (.seq (.act (.assume rfl)) (.seq (.act .load) .skip))) (.act .back)))
  have wrong : (some 0 : Option Variant) = some 1 :=
    loads (.loaded (some 0) 1) (.tail _ (.head _))
  exact absurd wrong (by decide)

end Sound

end Lucis.PayloadBinding
