import Lucis.StructRegistration

/-!
The pending structs of checkers/Checker_driver.cpp: those of the same module and the imported
ones with their transitive parents, and the retry loop that registers them. The map is gone
through in any order, and in another one in each pass.
-/

namespace Lucis.PendingStructs

open Descent (each)
open StructRegistration List Option

variable {Name : Type} [DecidableEq Name]

section Loops

variable (r : ModuleRegistry Name)

structure Closing (Name : Type) where
  state : State Name
  pending : List Name
  added : Bool

/-- A turn of the loop that adds transitive parents; names that are not pending have none. -/
def addParent (c : Closing Name) (n : Name) : Closing Name :=
  if n ∈ c.pending then
    match r.parent n with
    | none => c
    | some p =>
      let s := resolveTypeSpec r p c.state
      if s.present p && p ∉ c.pending && (r.findSymbol p).isSome then ⟨s, p :: c.pending, true⟩
      else { c with state := s }
  else c

/-- The loop over orders of the map, one for each pass; none when it is still going on. A pass
inserts into the map that it goes through, so what it comes to once it has added is any list. -/
def addParents : List (List Name) → Closing Name → Option (Closing Name)
  | [], _ => none
  | order :: later, c =>
    let c := order.foldl (addParent r) { c with added := false }
    if c.added then addParents later c else some c

structure Work (Name : Type) where
  state : State Name
  processed : List Name
  madeProgress : Bool

def processStruct (n : Name) (d : StructDecl Name) (s : State Name) (w : Work Name) :
    Work Name where
  state := checkStructDecl r false n d (each (ensureTypeDependencyFromSpec r) d.mentions s)
  processed := n :: w.processed
  madeProgress := true

def visit (pending : List Name) (w : Work Name) (n : Name) : Work Name :=
  if n ∉ pending || n ∈ w.processed then w
  -- an entry with fields is no skeleton any more: the struct counts as done
  else if w.state.filled n then { w with processed := n :: w.processed }
  else
    match r.findSymbol n with
    | none => w
    | some d =>
      match d.parent with
      | none => processStruct r n d w.state w
      | some p =>
        let s := resolveTypeSpec r p w.state
        -- `parentTI->fields.empty()` is taken for a parent that is not registered yet
        if s.filled p then processStruct r n d s w else { w with state := s }

def retryPass (pending order : List Name) (w : Work Name) : Work Name :=
  order.foldl (visit r pending) { w with madeProgress := false }

def retry (pending : List Name) : List (List Name) → Work Name → Option (Work Name)
  | [], _ => none
  | order :: later, w =>
    let w := retryPass r pending order w
    if w.madeProgress then retry pending later w else some w

end Loops

section Turns

variable (r : ModuleRegistry Name) (listed : List Name)

/-- What makes a turn of the retry loop good. A struct without fields that is registered is a
skeleton to every test: it is not to be the struct itself, nor its parent. -/
structure Meets (s : State Name) (n : Name) : Prop where
  itself : n ∈ listed → n ∉ s.registered
  parent : ∀ p, r.parent n = some p → p ∈ s.registered ∨ r.findSymbol p = none →
    s.filled p = true
  apart : n ∈ listed → ¬Brought r listed s n n
  harmless : Harmless r listed s n

structure Closed (pending : List Name) (s : State Name) : Prop where
  sound : Sound r listed s
  listed_pending : ∀ n ∈ listed, n ∈ pending
  declared : ∀ n ∈ pending, (r.findSymbol n).isSome
  parents : ∀ n ∈ pending, ∀ p, r.parent n = some p →
    s.present p = true ∧ ((r.findSymbol p).isSome → p ∈ pending)

structure Working (pending : List Name) (w : Work Name) : Prop where
  closed : Closed r listed pending w.state
  processed : ∀ n ∈ w.processed, n ∈ w.state.registered

def Blocked (s : State Name) (n : Name) : Prop := ∃ p, r.parent n = some p ∧ s.filled p = false

variable {r listed} {pending : List Name} {w : Work Name} {s : State Name} {n : Name}

theorem resolveTypeSpec_present (there : s.present n = true) : resolveTypeSpec r n s = s := by
  unfold resolveTypeSpec
  cases r.symbols.length with
  | zero => rfl
  | succ depth =>
    show resolveStep r _ n s = s
    unfold resolveStep
    rw [there, Bool.or_true, if_pos rfl]

theorem visit_cases (closed : Closed r listed pending w.state) (n : Name) :
    (n ∉ pending ∨ n ∈ w.processed) ∧ visit r pending w n = w ∨ (n ∈ pending ∧ n ∉ w.processed ∧
      (w.state.filled n = true ∧ visit r pending w n = { w with processed := n :: w.processed } ∨
        w.state.filled n = false ∧ (Blocked r w.state n ∧ visit r pending w n = w ∨
            ∃ d, r.findSymbol n = some d ∧ (∀ p, r.parent n = some p → w.state.filled p = true) ∧
              visit r pending w n = processStruct r n d w.state w))) := by
  by_cases skipped : n ∉ pending ∨ n ∈ w.processed
  · refine .inl ⟨skipped, ?_⟩
    unfold visit
    rw [if_pos (by simpa using skipped)]
  · have skipped' := skipped
    rw [not_or, not_not] at skipped
    refine .inr ⟨skipped.1, skipped.2, ?_⟩
    unfold visit
    rw [if_neg (by simpa using skipped)]
    cases filled : w.state.filled n with
    | true => exact .inl ⟨rfl, by simp⟩
    | false =>
      refine .inr ⟨rfl, ?_⟩
      rcases isSome_iff_exists.1 (closed.declared n skipped.1) with ⟨d, found⟩
      have parent_eq := parent_of_found found
      simp only [Bool.false_eq_true, if_false, found]
      cases inherits : d.parent with
      | none =>
        refine .inr ⟨d, rfl, ?_, rfl⟩
        intro p other
        rw [parent_eq, inherits] at other
        cases other
      | some p =>
        have there := (closed.parents n skipped.1 p (parent_eq.trans inherits)).1
        simp only [resolveTypeSpec_present there]
        cases above : w.state.filled p with
        | false => exact .inl ⟨⟨p, parent_eq.trans inherits, above⟩, by simp⟩
        | true =>
          refine .inr ⟨d, rfl, ?_, by simp⟩
          intro q other
          cases (parent_eq.trans inherits).symm.trans other
          exact above

theorem processStruct_working (working : Working r listed pending w) {d}
    (found : r.findSymbol n = some d) (above : ∀ p, r.parent n = some p → w.state.filled p = true)
    (meets : Meets r listed w.state n) :
    Working r listed pending (processStruct r n d w.state w) := by
  rcases working with ⟨⟨sound, listed_pending, declared, parents⟩, processed⟩
  have start : Under r listed w.state w.state :=
    ⟨sound.toCore, fun _ => id, fun _ => id, fun _ => id, fun _ => id, fun _ _ => .inl⟩
  rcases each_walks (fun m s _ => ensureTypeDependencyFromSpec_spec sound
      (fun m member p inherits => (parents m (listed_pending m member) p inherits).1)
      meets.harmless m s)
    d.mentions (fun m mentioned unknown => Brought.mention found mentioned unknown) start
    (le_rfl) with ⟨core, moves⟩
  have new (listed_n : n ∈ listed) (now : n ∈
      (each (ensureTypeDependencyFromSpec r) d.mentions w.state).registered) : False := by
    rcases moves.news n listed_n now with before | ⟨unseen, seen⟩
    · exact meets.itself listed_n before
    · exact meets.apart listed_n ((moves.walked n seen).resolve_left unseen)
  have checked := checkStructDecl_spec false core found new fun _ p inherits known =>
    moves.registered p (sound.filled_registered p known (above p inherits))
  have present (m : Name) (before : w.state.present m = true) :=
    checked.present m (moves.present m before)
  have registered (m : Name) (before : m ∈ w.state.registered) :=
    checked.registered m (moves.registered m before)
  refine ⟨⟨⟨checked.core, ?_, ?_⟩, listed_pending, declared, ?_⟩, ?_⟩
  · intro m seen
    rcases moves.done m ((checked.seenDeps m).1 seen) with before | now
    · exact registered m (sound.walked m before)
    · exact checked.registered m now
  · intro m d' found' elsewhere unlisted there
    rcases checked.settled m there with before | now
    · rcases moves.settled m before with earlier | now
      · exact registered m (sound.others m d' found' elsewhere unlisted earlier)
      · exact checked.registered m now
    · exact now
  · intro m waiting p inherits
    exact (parents m waiting p inherits).imp_left (present p)
  · intro m now
    rcases mem_cons.1 now with same | before
    · exact same ▸ checked.itself
    · exact registered m (processed m before)

theorem visit_working (working : Working r listed pending w)
    (meets : n ∈ pending → n ∉ w.processed → w.state.filled n = false → Meets r listed w.state n) :
    Working r listed pending (visit r pending w n) := by
  rcases visit_cases working.closed n with ⟨_, same⟩ | ⟨member, unprocessed, turn⟩
  · rwa [same]
  · rcases turn with ⟨filled, marked⟩ | ⟨empty, ⟨_, same⟩ | ⟨d, found, above, processed⟩⟩
    · rw [marked]
      refine ⟨working.closed, ?_⟩
      intro m now
      rcases mem_cons.1 now with same | before
      · subst same
        exact working.closed.sound.filled_registered m (working.closed.declared m member) filled
      · exact working.processed m before
    · rwa [same]
    · rw [processed]
      exact processStruct_working working found above (meets member unprocessed empty)

end Turns

section Passes

variable (r : ModuleRegistry Name) (listed pending : List Name)

def MetPass : List Name → Work Name → Prop
  | [], _ => True
  | n :: rest, w =>
    (n ∈ pending → n ∉ w.processed → w.state.filled n = false → Meets r listed w.state n) ∧
      MetPass rest (visit r pending w n)

def MetRun : List (List Name) → Work Name → Prop
  | [], _ => True
  | order :: later, w =>
    MetPass r listed pending order { w with madeProgress := false } ∧
      ((retryPass r pending order w).madeProgress = true →
        MetRun later (retryPass r pending order w))

def unprocessed (w : Work Name) : Nat := r.names.countP fun n => decide (n ∉ w.processed)

variable {r listed pending} {w : Work Name}

variable (order : List Name)

variable (working : Working r listed pending w)
include working

variable (met : MetPass r listed pending order w)
include met

theorem pass_working :
    Working r listed pending (order.foldl (visit r pending) w) := by
  induction order generalizing w with
  | nil => exact working
  | cons n rest ih => exact ih (visit_working working met.1) met.2

omit met in
omit working in
theorem visit_processed (closed : Closed r listed pending w.state) (n : Name) :
    ∀ m ∈ w.processed, m ∈ (visit r pending w n).processed := by
  intro m before
  rcases visit_cases closed n with
    ⟨_, same⟩ | ⟨_, _, ⟨_, marked⟩ | ⟨_, ⟨_, same⟩ | ⟨d, _, _, processed⟩⟩⟩
  · rwa [same]
  · rw [marked]
    exact mem_cons_of_mem n before
  · rwa [same]
  · rw [processed]
    exact mem_cons_of_mem n before

theorem pass_processed :
    ∀ m ∈ w.processed, m ∈ (order.foldl (visit r pending) w).processed := by
  induction order generalizing w with
  | nil => exact fun _ => id
  | cons n rest ih =>
    intro m before
    exact ih (visit_working working met.1) met.2 m (visit_processed working.closed n m before)

theorem pass_progress
    (progress : (order.foldl (visit r pending) w).madeProgress = true) :
    w.madeProgress = true ∨ ∃ n ∈ pending, n ∉ w.processed ∧
      n ∈ (order.foldl (visit r pending) w).processed := by
  induction order generalizing w with
  | nil => exact .inl progress
  | cons n rest ih =>
    have working' := visit_working working met.1
    rcases ih working' met.2 progress with before | ⟨m, member, new, done⟩
    · rcases visit_cases working.closed n with
        ⟨_, same⟩ | ⟨member, new, ⟨_, marked⟩ | ⟨_, ⟨_, same⟩ | ⟨d, _, _, processed⟩⟩⟩
      · exact .inl (by rwa [same] at before)
      · exact .inl (by rwa [marked] at before)
      · exact .inl (by rwa [same] at before)
      · refine .inr ⟨n, member, new, ?_⟩
        apply pass_processed rest working' met.2
        rw [processed]
        exact .head _
    · exact .inr ⟨m, member, fun before => new (visit_processed working.closed n m before), done⟩

theorem pass_keeps_progress (progress : w.madeProgress = true) :
    (order.foldl (visit r pending) w).madeProgress = true := by
  induction order generalizing w with
  | nil => exact progress
  | cons n rest ih =>
    refine ih (visit_working working met.1) met.2 ?_
    rcases visit_cases working.closed n with
      ⟨_, same⟩ | ⟨_, _, ⟨_, marked⟩ | ⟨_, ⟨_, same⟩ | ⟨d, _, _, processed⟩⟩⟩
    · rwa [same]
    · rwa [marked]
    · rwa [same]
    · rw [processed]
      rfl

theorem pass_quiet
    (quiet : (order.foldl (visit r pending) w).madeProgress = false) :
    (order.foldl (visit r pending) w).state = w.state ∧
      ∀ n ∈ order, n ∈ pending → n ∈ (order.foldl (visit r pending) w).processed ∨
        Blocked r w.state n ∧ Meets r listed w.state n := by
  induction order generalizing w with
  | nil => exact ⟨rfl, by simp⟩
  | cons n rest ih =>
    have working' := visit_working working met.1
    rcases ih working' met.2 quiet with ⟨still, all⟩
    have turn : (visit r pending w n).state = w.state ∧
        (n ∈ pending → n ∈ (visit r pending w n).processed ∨
          Blocked r w.state n ∧ Meets r listed w.state n) := by
      rcases visit_cases working.closed n with
        ⟨skipped, same⟩ | ⟨member, new, ⟨_, marked⟩ | ⟨empty, ⟨blocked, same⟩ | ⟨d, _, _, processed⟩⟩⟩
      · rw [same]
        refine ⟨rfl, fun member => .inl ?_⟩
        exact skipped.resolve_left (not_not.2 member)
      · rw [marked]
        exact ⟨rfl, fun _ => .inl (.head _)⟩
      · rw [same]
        exact ⟨rfl, fun _ => .inr ⟨blocked, met.1 member new empty⟩⟩
      · have progress : (visit r pending w n).madeProgress = true := by
          rw [processed]
          rfl
        have kept := pass_keeps_progress rest working' met.2 progress
        rw [foldl_cons, kept] at quiet
        cases quiet
    refine ⟨still.trans turn.1, ?_⟩
    intro m member waiting
    rw [turn.1] at all
    rcases mem_cons.1 member with same | later
    · subst same
      exact (turn.2 waiting).imp_left (pass_processed rest working' met.2 m)
    · exact all m later waiting

omit met

omit working

variable (acyclic : WellFounded fun p n => r.parent n = some p)
include acyclic

theorem pass_complete {order : List Name}
    (covers : ∀ n ∈ r.names, n ∈ order) (working : Working r listed pending w)
    (met : MetPass r listed pending order w)
    (quiet : (order.foldl (visit r pending) w).madeProgress = false) :
    ∀ n ∈ pending, n ∈ (order.foldl (visit r pending) w).processed := by
  rcases pass_quiet order working met quiet with ⟨still, all⟩
  intro n
  induction n using acyclic.induction with
  | _ n ih =>
    intro member
    rcases isSome_iff_exists.1 (working.closed.declared n member) with ⟨d, found⟩
    rcases all n (covers n (mem_names found)) member with done | ⟨⟨p, inherits, empty⟩, meets⟩
    · exact done
    · have filled : w.state.filled p = true := by
        apply meets.parent p inherits
        cases declared : r.findSymbol p with
        | none => exact .inr rfl
        | some pd =>
          have waiting := (working.closed.parents n member p inherits).2 (by rw [declared]; rfl)
          have done := ih p inherits waiting
          have registered := (pass_working order working met).processed p done
          rw [still] at registered
          exact .inl registered
      rw [filled] at empty
      cases empty

theorem retry_spec
    (orders : List (List Name)) (covers : ∀ order ∈ orders, ∀ n ∈ r.names, n ∈ order)
    (working : Working r listed pending w) (met : MetRun r listed pending orders w)
    (enough : unprocessed r w < orders.length) :
    ∃ last, retry r pending orders w = some last ∧ Working r listed pending last ∧
      ∀ n ∈ pending, n ∈ last.state.registered := by
  induction orders generalizing w with
  | nil => simp at enough
  | cons order later ih =>
    have start : Working r listed pending { w with madeProgress := false } :=
      ⟨working.closed, working.processed⟩
    have after : Working r listed pending (retryPass r pending order w) :=
      pass_working order start met.1
    rw [retry]
    cases progress : (retryPass r pending order w).madeProgress with
    | false =>
      refine ⟨_, rfl, after, ?_⟩
      intro n member
      exact after.processed n (pass_complete acyclic (covers order (.head _)) start met.1
        progress n member)
    | true =>
      refine ih (fun other member => covers other (mem_cons_of_mem order member)) after
        (met.2 progress) ?_
      rcases pass_progress order start met.1 progress with impossible | ⟨n, member, new, done⟩
      · cases impossible
      · rcases isSome_iff_exists.1 (working.closed.declared n member) with ⟨d, found⟩
        have fewer : unprocessed r (retryPass r pending order w) < unprocessed r w :=
          Descent.countP_lt (mem_names found)
            (by
              intro m left
              simp only [decide_eq_true_eq] at left ⊢
              exact fun before => left (pass_processed order start met.1 m before))
            (decide_eq_true new) (decide_eq_false (not_not.2 done))
        rw [length_cons] at enough
        omega

end Passes

section Parents

variable {r : ModuleRegistry Name} {listed : List Name} {c : Closing Name}

structure Gathering (r : ModuleRegistry Name) (listed : List Name) (c : Closing Name) : Prop where
  sound : Sound r listed c.state
  listed_pending : ∀ n ∈ listed, n ∈ c.pending
  declared : ∀ n ∈ c.pending, (r.findSymbol n).isSome

theorem addParent_cases (gathering : Gathering r listed c) (n : Name) :
    (n ∉ c.pending ∨ r.parent n = none) ∧ addParent r c n = c ∨
    ∃ p, n ∈ c.pending ∧ r.parent n = some p ∧ (resolveTypeSpec r p c.state).present p = true ∧
      (p ∉ c.pending ∧ (r.findSymbol p).isSome ∧
          addParent r c n = ⟨resolveTypeSpec r p c.state, p :: c.pending, true⟩ ∨
        (p ∈ c.pending ∨ r.findSymbol p = none) ∧
          addParent r c n = { c with state := resolveTypeSpec r p c.state }) := by
  unfold addParent
  by_cases member : n ∈ c.pending
  · rw [if_pos member]
    cases inherits : r.parent n with
    | none => exact .inl ⟨.inr rfl, rfl⟩
    | some p =>
      have there : (resolveTypeSpec r p c.state).present p = true := by
        rcases isSome_iff_exists.1 (gathering.declared n member) with ⟨d, found⟩
        apply (resolveTypeSpec_spec p c.state gathering.sound.toCore).2.2
        exact (gathering.sound.resolvable n d found).1 p ((parent_of_found found).symm.trans inherits)
      refine .inr ⟨p, member, rfl, there, ?_⟩
      simp only [there, Bool.true_and]
      by_cases pending : p ∈ c.pending
      · exact .inr ⟨.inl pending, by simp [pending]⟩
      · cases declared : r.findSymbol p with
        | none => exact .inr ⟨.inr rfl, by simp⟩
        | some d => exact .inl ⟨pending, rfl, by simp [pending]⟩
  · exact .inl ⟨.inl member, if_neg member⟩

theorem addParent_gathering (gathering : Gathering r listed c) (n : Name) :
    Gathering r listed (addParent r c n) ∧
      (∀ m, c.state.present m = true → (addParent r c n).state.present m = true) ∧
      (∀ m ∈ c.pending, m ∈ (addParent r c n).pending) := by
  rcases addParent_cases gathering n with ⟨_, same⟩ | ⟨p, _, _, _, ⟨_, declared, result⟩ | ⟨_, result⟩⟩
  · rw [same]
    exact ⟨gathering, fun _ => id, fun _ => id⟩
  · rcases gathering.sound.resolve p with ⟨sound, lazily⟩
    rw [result]
    refine ⟨⟨sound, ?_, ?_⟩, lazily.present, fun m before => mem_cons_of_mem p before⟩
    · exact fun m before => mem_cons_of_mem p (gathering.listed_pending m before)
    · intro m now
      rcases mem_cons.1 now with same | before
      · rw [same]
        exact declared
      · exact gathering.declared m before
  · rcases gathering.sound.resolve p with ⟨sound, lazily⟩
    rw [result]
    exact ⟨⟨sound, gathering.listed_pending, gathering.declared⟩, lazily.present, fun _ => id⟩

variable (order : List Name)

theorem adding_gathering (gathering : Gathering r listed c) :
    Gathering r listed (order.foldl (addParent r) c) ∧
      (∀ m, c.state.present m = true → (order.foldl (addParent r) c).state.present m = true) ∧
      (∀ m ∈ c.pending, m ∈ (order.foldl (addParent r) c).pending) := by
  induction order generalizing c with
  | nil => exact ⟨gathering, fun _ => id, fun _ => id⟩
  | cons n rest ih =>
    rcases addParent_gathering gathering n with ⟨next, present, pending⟩
    rcases ih next with ⟨last, present', pending'⟩
    exact ⟨last, fun m before => present' m (present m before),
      fun m before => pending' m (pending m before)⟩

theorem adding_keeps_added (gathering : Gathering r listed c)
    (added : c.added = true) : (order.foldl (addParent r) c).added = true := by
  induction order generalizing c with
  | nil => exact added
  | cons n _ ih =>
    refine ih (addParent_gathering gathering n).1 ?_
    rcases addParent_cases gathering n with ⟨_, same⟩ | ⟨p, _, _, _, ⟨_, _, result⟩ | ⟨_, result⟩⟩
    · rwa [same]
    · rw [result]
    · rwa [result]

theorem adding_progress (gathering : Gathering r listed c)
    (added : (order.foldl (addParent r) c).added = true) :
    c.added = true ∨ ∃ p ∈ r.names, p ∉ c.pending ∧ p ∈ (order.foldl (addParent r) c).pending := by
  induction order generalizing c with
  | nil => exact .inl added
  | cons n rest ih =>
    rcases addParent_gathering gathering n with ⟨next, _, pending⟩
    rcases ih next added with before | ⟨p, member, new, now⟩
    · rcases addParent_cases gathering n with
        ⟨_, same⟩ | ⟨p, _, _, _, ⟨new, declared, result⟩ | ⟨_, result⟩⟩
      · exact .inl (by rwa [same] at before)
      · rcases isSome_iff_exists.1 declared with ⟨d, found⟩
        refine .inr ⟨p, mem_names found, new, ?_⟩
        apply (adding_gathering rest next).2.2
        rw [result]
        exact .head _
      · exact .inl (by rwa [result] at before)
    · exact .inr ⟨p, member, fun before => new (pending p before), now⟩

theorem adding_quiet (gathering : Gathering r listed c)
    (quiet : (order.foldl (addParent r) c).added = false) :
    (order.foldl (addParent r) c).pending = c.pending ∧
      ∀ n ∈ order, n ∈ c.pending → ∀ p, r.parent n = some p →
        (order.foldl (addParent r) c).state.present p = true ∧
          ((r.findSymbol p).isSome → p ∈ c.pending) := by
  induction order generalizing c with
  | nil => exact ⟨rfl, by simp⟩
  | cons n rest ih =>
    rcases addParent_gathering gathering n with ⟨next, _, _⟩
    have still : (addParent r c n).added = false := by
      by_contra added
      rw [foldl_cons, adding_keeps_added rest next (by simpa using added)] at quiet
      cases quiet
    rcases ih next quiet with ⟨same_pending, all⟩
    have turn : (addParent r c n).pending = c.pending ∧ (n ∈ c.pending →
        ∀ p, r.parent n = some p → (addParent r c n).state.present p = true ∧
          ((r.findSymbol p).isSome → p ∈ c.pending)) := by
      rcases addParent_cases gathering n with
        ⟨skipped, same⟩ | ⟨p, _, inherits, there, ⟨_, _, result⟩ | ⟨known, result⟩⟩
      · rw [same]
        refine ⟨rfl, ?_⟩
        intro member p inherits
        rcases skipped with outside | rootless
        · exact absurd member outside
        · rw [rootless] at inherits
          cases inherits
      · rw [result] at still
        cases still
      · rw [result]
        refine ⟨rfl, ?_⟩
        intro _ q other
        cases inherits.symm.trans other
        refine ⟨there, fun declared => known.resolve_right ?_⟩
        intro undeclared
        rw [undeclared] at declared
        cases declared
    rw [turn.1] at same_pending all
    refine ⟨same_pending, ?_⟩
    intro m member waiting p inherits
    rcases mem_cons.1 member with same | later
    · subst same
      exact (turn.2 waiting p inherits).imp_left ((adding_gathering rest next).2.1 p)
    · exact all m later waiting p inherits

def unadded (r : ModuleRegistry Name) (c : Closing Name) : Nat :=
  r.names.countP fun n => decide (n ∉ c.pending)

/-- The pass that adds nothing goes through the whole map. -/
def LastCovers (r : ModuleRegistry Name) : List (List Name) → Closing Name → Prop
  | [], _ => True
  | order :: later, c =>
    let c := order.foldl (addParent r) { c with added := false }
    if c.added then LastCovers r later c else ∀ n ∈ r.names, n ∈ order

theorem addParents_spec (orders : List (List Name))
    (covers : LastCovers r orders c) (gathering : Gathering r listed c)
    (enough : unadded r c < orders.length) :
    ∃ last, addParents r orders c = some last ∧ Closed r listed last.pending last.state := by
  induction orders generalizing c with
  | nil => simp at enough
  | cons order later ih =>
    have start : Gathering r listed { c with added := false } :=
      ⟨gathering.sound, gathering.listed_pending, gathering.declared⟩
    rcases adding_gathering order start with ⟨after, _, pending⟩
    rw [addParents]
    rw [LastCovers] at covers
    cases added : (order.foldl (addParent r) { c with added := false }).added with
    | false =>
      rcases adding_quiet order start added with ⟨same, all⟩
      refine ⟨_, rfl, after.sound, after.listed_pending, after.declared, ?_⟩
      intro n member p inherits
      rw [same] at member ⊢
      rcases isSome_iff_exists.1 (start.declared n member) with ⟨d, found⟩
      rw [added] at covers
      exact all n (covers n (mem_names found)) member p inherits
    | true =>
      -- one name more is pending, so fewer are left to add
      rw [added] at covers
      refine ih covers after ?_
      rcases adding_progress order start added with impossible | ⟨p, member, new, now⟩
      · cases impossible
      · have fewer : unadded r (order.foldl (addParent r) { c with added := false }) <
            unadded r c :=
          Descent.countP_lt member
            (by
              intro m left
              simp only [decide_eq_true_eq] at left ⊢
              exact fun before => left (pending m before))
            (decide_eq_true new) (decide_eq_false (not_not.2 now))
        rw [length_cons] at enough
        omega

end Parents

section Registration

variable (r : ModuleRegistry Name) (listed : List Name)

def registerPending (closing orders : List (List Name)) (s : State Name) : Option (Work Name) :=
  (addParents r closing ⟨s, listed, true⟩).bind fun c =>
    retry r c.pending orders ⟨c.state, [], true⟩

def Met (closing orders : List (List Name)) (s : State Name) : Prop :=
  ∀ c, addParents r closing ⟨s, listed, true⟩ = some c →
    MetRun r listed c.pending orders ⟨c.state, [], true⟩

variable {r listed} {n : Name}

theorem childless_parent_passed_over {pending : List Name} {w : Work Name} {p : Name}
    {d : StructDecl Name} (closed : Closed r listed pending w.state)
    (inherits : r.parent n = some p) (found : r.findSymbol p = some d) (root : d.parent = none)
    (empty : ∀ field ∈ d.fields, field.active = false) : (visit r pending w n).state = w.state := by
  have unfilled : w.state.filled p = false := by
    by_contra filled
    rcases closed.sound.grounded p d found (by simpa using filled) with
      ⟨field, member, active⟩ | ⟨above, inherits_above, _⟩
    · rw [empty field member] at active
      cases active
    · rw [root] at inherits_above
      cases inherits_above
  rcases visit_cases closed n with
    ⟨_, same⟩ | ⟨_, _, ⟨_, marked⟩ | ⟨_, ⟨_, same⟩ | ⟨_, _, above, _⟩⟩⟩
  · rw [same]
  · rw [marked]
  · rw [same]
  · rw [above p inherits] at unfilled
    cases unfilled

/-- However the maps are gone through, the loops end, and each listed struct is registered once,
behind its parent, if each turn is good. -/
theorem registered_once_behind_parents (r : ModuleRegistry Name) (listed : List Name)
    (acyclic : WellFounded fun p n => r.parent n = some p)
    (declared : ∀ n ∈ listed, (r.findSymbol n).isSome) (s : State Name) (sound : Sound r listed s)
    (closing orders : List (List Name))
    (covers : LastCovers r closing ⟨s, listed, true⟩ ∧ ∀ order ∈ orders, ∀ n ∈ r.names, n ∈ order)
    (enough : r.symbols.length < closing.length ∧ r.symbols.length < orders.length)
    (met : Met r listed closing orders s) :
    ∃ w, registerPending r listed closing orders s = some w ∧
      ∀ n ∈ listed, w.state.registered.count n = 1 ∧ n ∉ w.state.refused ∧
        ∀ p, r.parent n = some p → (r.findSymbol p).isSome →
          ∃ later earlier, w.state.registered = later ++ n :: earlier ∧ p ∈ earlier := by
  have gathering : Gathering r listed ⟨s, listed, true⟩ := ⟨sound, fun _ => id, declared⟩
  rcases addParents_spec closing covers.1 gathering
      (Nat.lt_of_le_of_lt (countP_names_le r _) enough.1) with ⟨c, gathered, closed⟩
  have working : Working r listed c.pending ⟨c.state, [], true⟩ := ⟨closed, by simp⟩
  rcases retry_spec acyclic orders covers.2 working
      (met c gathered) (Nat.lt_of_le_of_lt (countP_names_le r _) enough.2) with ⟨w, retried, last, all⟩
  refine ⟨w, ?_, ?_⟩
  · unfold registerPending
    rw [gathered]
    exact retried
  · intro n member
    have there := all n (closed.listed_pending n member)
    have sound := last.closed.sound
    refine ⟨?_, sound.unrefused n member, ?_⟩
    · exact Nat.le_antisymm (sound.once n member) (count_pos_iff.mpr there)
    · intro p inherits known
      exact sound.first.before member inherits known there

/-- The registry behind the skeletons; `known` are the structs without a declaration. -/
def skeletons (known : Name → Option (TypeInfo Name)) (names : List Name) : State Name where
  types n := if n ∈ names then some ⟨[], false⟩ else known n
  seenDeps := []
  registered := []
  refused := []

/-- `names` are the listed structs and those of the current file. -/
theorem skeletons_sound {known} {names : List Name}
    (among : ∀ n ∈ listed, n ∈ names)
    (others : ∀ n ∈ names, n ∉ listed → ∀ d, r.findSymbol n = some d → d.inCurrentFile = true)
    (undeclared : ∀ n, (r.findSymbol n).isSome → known n = none)
    (resolvable : Resolvable r (skeletons known names)) :
    Sound r listed (skeletons known names) := by
  have empty (n : Name) (declared : (r.findSymbol n).isSome) :
      (skeletons known names).filled n = false := by
    unfold State.filled skeletons
    by_cases member : n ∈ names
    · simp [member]
    · simp [member, undeclared n declared]
  exact {
    present := fun n member => by simp [State.present, skeletons, among n member]
    filled_registered := by
      intro n declared filled
      rw [empty n declared] at filled
      cases filled
    once := fun n _ => by simp [skeletons]
    first := trivial
    unrefused := fun n _ => by simp [skeletons]
    grounded := by
      intro n d found filled
      rw [empty n (by rw [found]; rfl)] at filled
      cases filled
    external := fun n seen => by simp [skeletons] at seen
    resolvable := resolvable
    walked := fun n seen => by simp [skeletons] at seen
    others := by
      intro n d found elsewhere unlisted there
      by_cases member : n ∈ names
      · rw [others n member unlisted d found] at elsewhere
        cases elsewhere
      · have absent := undeclared n (by rw [found]; rfl)
        simp [State.present, skeletons, member, absent] at there }

variable (plain : ∀ n d, r.findSymbol n = some d → ∀ m ∈ d.mentions, r.findSymbol m = none)
include plain

theorem not_brought {s : State Name} {t : Name} : ¬Brought r listed s n t := by
  have closed {m : Name} {d : StructDecl Name} (found : r.findSymbol m = some d)
      (mentioned : t ∈ d.mentions) (unknown : Open r s t) : False := by
    rcases unknown with ⟨d', declared, _⟩
    rw [plain m d found t mentioned] at declared
    cases declared
  intro brought
  cases brought with
  | mention found mentioned unknown => exact closed found mentioned unknown
  | next _ found mentioned unknown => exact closed found mentioned unknown
  | parent _ _ _ found mentioned unknown => exact closed found mentioned unknown

theorem meets_of_plain {s : State Name} (itself : n ∈ listed → n ∉ s.registered)
    (parent : ∀ p, r.parent n = some p → p ∈ s.registered ∨ r.findSymbol p = none →
      s.filled p = true) : Meets r listed s n where
  itself := itself
  parent := parent
  apart _ := not_brought plain
  harmless _ brought := absurd brought (not_brought plain)

end Registration

section Family

def family (base : List (StructRegistration.Field String)) : ModuleRegistry String where
  symbols :=
    [("Base", ⟨none, base, false⟩),
      ("Child", ⟨some "Base", [⟨"y", ["int32"], true⟩], false⟩)]
  plain n := n == "int32"

def both : List String := ["Base", "Child"]

def familyStart : State String := skeletons (fun _ => none) both

def childFirst : List (List String) := List.replicate 3 ["Child", "Base"]

theorem family_parent {base} {n p : String}
    (inherits : (family base).parent n = some p) : n = "Child" ∧ p = "Base" := by
  unfold ModuleRegistry.parent ModuleRegistry.findSymbol family at inherits
  simp only [lookup_cons, lookup_nil] at inherits
  split at inherits
  · cases inherits
  · split at inherits
    · next same =>
        cases inherits
        exact ⟨by simpa using same, rfl⟩
    · cases inherits

theorem family_declared {n : String} {d}
    (found : (family [⟨"x", ["int32"], true⟩]).findSymbol n = some d) :
    (∀ p, d.parent = some p → p = "Base") ∧ ∀ m ∈ d.mentions, m = "int32" := by
  unfold ModuleRegistry.findSymbol family at found
  simp only [lookup_cons, lookup_nil] at found
  split at found
  · cases found
    exact ⟨by simp, by decide⟩
  · split at found
    · cases found
      exact ⟨by simp, by decide⟩
    · cases found

theorem registered_once_behind_parents_family :
    ∃ w, registerPending (family [⟨"x", ["int32"], true⟩]) both childFirst childFirst familyStart =
        some w ∧
      ∀ n ∈ both, w.state.registered.count n = 1 ∧ n ∉ w.state.refused ∧
        ∀ p, (family [⟨"x", ["int32"], true⟩]).parent n = some p →
          ((family [⟨"x", ["int32"], true⟩]).findSymbol p).isSome →
          ∃ later earlier, w.state.registered = later ++ n :: earlier ∧ p ∈ earlier := by
  refine registered_once_behind_parents _ both ?_ (by decide) familyStart ?_ childFirst childFirst
    ⟨(by decide : ∀ n ∈ both, n ∈ both.reverse), by decide⟩ (by decide) ?_
  · refine Subrelation.wf ?_ (measure fun n => if n = "Child" then 1 else 0).wf
    intro p n inherits
    rcases family_parent inherits with ⟨rfl, rfl⟩
    exact Nat.zero_lt_one
  · refine skeletons_sound (fun _ => id) (fun n member unlisted => absurd member unlisted)
      (fun _ _ => rfl) ?_
    intro n d found
    rcases family_declared found with ⟨parent, mentions⟩
    refine ⟨fun p inherits => .inl (by rw [parent p inherits]; rfl), ?_⟩
    intro field member _ m mentioned
    refine .inl ?_
    rw [mentions m (mem_flatMap.mpr ⟨field, member, mentioned⟩)]
    rfl
  · intro c gathered
    have found : addParents (family [⟨"x", ["int32"], true⟩]) childFirst ⟨familyStart, both, true⟩ =
        some ⟨familyStart, both, false⟩ := rfl
    cases found.symm.trans gathered
    have turn (s : State String) (n : String) (itself : n ∉ s.registered)
        (filled : "Base" ∈ s.registered → s.filled "Base" = true) :
        Meets (family [⟨"x", ["int32"], true⟩]) both s n := by
      refine meets_of_plain
        (fun _ _ found m mentioned => by rw [(family_declared found).2 m mentioned]; rfl)
        (fun _ => itself) ?_
      intro p inherits known
      rcases family_parent inherits with ⟨rfl, rfl⟩
      exact filled (known.resolve_right (by decide))
    -- the child waits in the first pass, is registered in the second, and the third finds both
    refine ⟨⟨fun _ _ _ => turn _ _ (by decide) (by decide),
      fun _ _ _ => turn _ _ (by decide) (by decide), trivial⟩, fun _ => ?_⟩
    refine ⟨⟨fun _ _ _ => turn _ _ (by decide) (fun _ => rfl),
      fun _ left _ => absurd (by decide) left, trivial⟩, fun _ => ?_⟩
    exact ⟨⟨fun _ left _ => absurd (by decide) left, fun _ left _ => absurd (by decide) left,
      trivial⟩, fun _ => trivial⟩

/-- `struct Base {}` and `struct Child : Base { int32 y; }`: in neither order is the child
registered. -/
theorem child_of_empty_base_left_out :
    (registerPending (family []) both childFirst childFirst familyStart).map
        (fun w => w.state.registered) = some ["Base"] ∧
      (registerPending (family []) both (List.replicate 3 both) (List.replicate 3 both)
        familyStart).map (fun w => w.state.registered) = some ["Base"] :=
  ⟨rfl, rfl⟩

end Family

end Lucis.PendingStructs
