import Mathlib.Data.List.Basic

/-!
Computations over a state that may stop before their end and tell events on their way.
One computation simulates another when, from related states and as long as its events
are fine, both end alike and the other tells what can be seen of the events. The rules
follow the way computations are put together.
-/

namespace Effects

variable {Stop Stop' State State' Event α β α' β' : Type}

structure Ending (Stop State Event α : Type) where
  out : Except Stop α
  state : State
  events : List Event

/-- A computation that stops keeps the state it has reached and the events told so far. -/
def Comp (Stop State Event α : Type) := State → Ending Stop State Event α

namespace Comp

def stop (reason : Stop) : Comp Stop State Event α := fun state => ⟨.error reason, state, []⟩

def resume (out : Except Stop α) (rest : α → Comp Stop State Event β) :
    Comp Stop State Event β :=
  match out with
  | .ok result => rest result
  | .error reason => stop reason

instance : Monad (Comp Stop State Event) where
  pure result := fun state => ⟨.ok result, state, []⟩
  bind first rest := fun state =>
    let begun := first state
    let ended := resume begun.out rest begun.state
    ⟨ended.out, ended.state, begun.events ++ ended.events⟩

def emit (event : Event) : Comp Stop State Event Unit := fun state => ⟨.ok (), state, [event]⟩

def get : Comp Stop State Event State := fun state => ⟨.ok state, state, []⟩

def modify (change : State → State) : Comp Stop State Event Unit :=
  fun state => ⟨.ok (), change state, []⟩

def settle (handle : Stop → Option α) : Except Stop α → Except Stop α
  | .ok result => .ok result
  | .error reason =>
    match handle reason with
    | some result => .ok result
    | none => .error reason

def recover (handle : Stop → Option α) (comp : Comp Stop State Event α) :
    Comp Stop State Event α := fun state =>
  ⟨settle handle (comp state).out, (comp state).state, (comp state).events⟩

end Comp

open Effects.Comp List

theorem bind_apply (first : Comp Stop State Event α) (rest : α → Comp Stop State Event β)
    (state : State) : (first >>= rest) state =
      ⟨(resume (first state).out rest (first state).state).out,
        (resume (first state).out rest (first state).state).state,
        (first state).events ++ (resume (first state).out rest (first state).state).events⟩ := rfl

theorem resume_pure (out : Except Stop α) (state : State) :
    (resume out pure : Comp Stop State Event α) state = ⟨out, state, []⟩ := by
  cases out <;> rfl

theorem bind_pure_right (comp : Comp Stop State Event α) : comp >>= pure = comp := by
  funext state
  simp only [bind_apply, resume_pure, append_nil]

theorem bind_bind (comp : Comp Stop State Event α) (rest : α → Comp Stop State Event β)
    (last : β → Comp Stop State Event β') :
    comp >>= rest >>= last = comp >>= fun result => rest result >>= last := by
  funext state
  simp only [bind_apply]
  cases (comp state).out with
  | ok result => simp only [resume, bind_apply, append_assoc]
  | error reason => simp [resume, stop]

abbrev Post (Stop Stop' State State' α α' : Type) :=
  Except Stop α → State → Except Stop' α' → State' → Prop

def Both (ok : α → State → α' → State' → Prop) (halt : Stop → State → Stop' → State' → Prop) :
    Post Stop Stop' State State' α α'
  | .ok result, s, .ok result', t => ok result s result' t
  | .error reason, s, .error reason', t => halt reason s reason' t
  | _, _, _, _ => False

section Simulation

variable (fine : Event → Prop) (seen : Event → Bool)

def Simulates (pre : State → State' → Prop) (model : Comp Stop State Event α)
    (code : Comp Stop' State' Event α') (post : Post Stop Stop' State State' α α') : Prop :=
  ∀ s t, pre s t → (∀ event ∈ (model s).events, fine event) →
    post (model s).out (model s).state (code t).out (code t).state ∧
      (code t).events = (model s).events.filter seen

variable {fine seen} {pre : State → State' → Prop} {model : Comp Stop State Event α}
  {code : Comp Stop' State' Event α'} {post : Post Stop Stop' State State' α α'}

variable {post' : Post Stop Stop' State State' α α'}

theorem Simulates.weaken (simulated : Simulates fine seen pre model code post)
    (weaker : ∀ out s out' t, post out s out' t → post' out s out' t) :
    Simulates fine seen pre model code post' := by
  intro s t related told
  have ⟨ends, events⟩ := simulated s t related told
  exact ⟨weaker _ _ _ _ ends, events⟩

theorem Simulates.restrict {pre'}
    (simulated : Simulates fine seen pre model code post) (stronger : ∀ s t, pre' s t → pre s t) :
    Simulates fine seen pre' model code post :=
  fun s t related => simulated s t (stronger s t related)

theorem simulates_of_related (simulated : ∀ s t, pre s t → Simulates fine seen pre model code post) :
    Simulates fine seen pre model code post :=
  fun s t related => simulated s t related s t related

variable {result' : α'}

theorem simulates_pure {result : α} (ends : ∀ s t, pre s t → post (.ok result) s (.ok result') t) :
    Simulates fine seen pre (pure result) (pure result') post :=
  fun s t related _ => ⟨ends s t related, rfl⟩

variable {reason : Stop}

theorem simulates_stop {reason' : Stop'}
    (ends : ∀ s t, pre s t → post (.error reason) s (.error reason') t) :
    Simulates fine seen pre (stop reason) (stop reason') post :=
  fun s t related _ => ⟨ends s t related, rfl⟩

theorem simulates_leave (ends : ∀ s t, pre s t → post (.error reason) s (.ok result') t) :
    Simulates fine seen pre (stop reason) (pure result') post :=
  fun s t related _ => ⟨ends s t related, rfl⟩

theorem simulates_modify {change : State → State} {change' : State' → State'}
    {post : Post Stop Stop' State State' Unit Unit}
    (ends : ∀ s t, pre s t → post (.ok ()) (change s) (.ok ()) (change' t)) :
    Simulates fine seen pre (modify change) (modify change') post :=
  fun s t related _ => ⟨ends s t related, rfl⟩

variable {rest' : α' → Comp Stop' State' Event β'} {rest : α → Comp Stop State Event β}

theorem simulates_bind {post}
    {middle}
    (begins : Simulates fine seen pre model code middle)
    (goes : ∀ out out', Simulates fine seen (fun s t => middle out s out' t)
      (resume out rest) (resume out' rest') post) :
    Simulates fine seen pre (model >>= rest) (code >>= rest') post := by
  intro s t related told
  rw [bind_apply] at told ⊢
  have ⟨half, first⟩ := begins s t related fun event found =>
    told event (mem_append_left _ found)
  have ⟨ends, last⟩ := goes _ _ _ _ half fun event found =>
    told event (mem_append_right _ found)
  exact ⟨ends, by rw [bind_apply, filter_append, ← first, ← last]⟩

theorem simulates_seq {post}
    {ok} {halt}
    (begins : Simulates fine seen pre model code (Both ok halt))
    (goes : ∀ a a', Simulates fine seen (fun s t => ok a s a' t) (rest a) (rest' a') post)
    (halts : ∀ e s e' t, halt e s e' t → post (.error e) s (.error e') t) :
    Simulates fine seen pre (model >>= rest) (code >>= rest') post := by
  apply simulates_bind begins
  intro out out'
  cases out with
  | ok a =>
    cases out' with
    | ok a' => exact goes a a'
    | error e' => exact fun _ _ impossible => impossible.elim
  | error e =>
    cases out' with
    | ok a' => exact fun _ _ impossible => impossible.elim
    | error e' => exact simulates_stop (halts e · e' ·)

variable {rest : Unit → Comp Stop State Event α} {event : Event}

theorem simulates_note (hidden : seen event = false)
    (goes : fine event → Simulates fine seen pre (rest ()) code post) :
    Simulates fine seen pre (emit event >>= rest) code post := by
  intro s t related told
  have ⟨ends, events⟩ := goes (told event (mem_append_left _ (mem_singleton_self _))) s t
    related fun other found => told other (mem_append_right _ found)
  refine ⟨ends, events.trans ?_⟩
  show _ = ([event] ++ (rest () s).events).filter seen
  simp [hidden]

theorem simulates_last_note
    {post : Post Stop Stop' State State' Unit α'} (hidden : seen event = false)
    (ends : fine event → ∀ s t, pre s t → post (.ok ()) s (.ok result') t) :
    Simulates fine seen pre (emit event) (pure result') post := by
  intro s t related told
  refine ⟨ends (told event (mem_singleton_self _)) s t related, ?_⟩
  show [] = [event].filter seen
  simp [hidden]

theorem simulates_emit {rest'} (shown : seen event = true)
    (goes : fine event → Simulates fine seen pre (rest ()) (rest' ()) post) :
    Simulates fine seen pre (emit event >>= rest) (emit event >>= rest') post := by
  intro s t related told
  have ⟨ends, events⟩ := goes (told event (mem_append_left _ (mem_singleton_self _))) s t
    related fun other found => told other (mem_append_right _ found)
  refine ⟨ends, ?_⟩
  show [event] ++ (rest' () t).events = ([event] ++ (rest () s).events).filter seen
  simp [shown, events]

theorem simulates_get {rest}
    {rest'} (goes : ∀ s t, pre s t →
      Simulates fine seen (fun now now' => now = s ∧ now' = t) (rest s) (rest' t) post) :
    Simulates fine seen pre (get >>= rest) (get >>= rest') post :=
  fun s t related => goes s t related s t ⟨rfl, rfl⟩

theorem simulates_recover {handle}
    (simulated : Simulates fine seen pre model code post)
    (settled : ∀ out s out' t, post out s out' t → post' (settle handle out) s out' t) :
    Simulates fine seen pre (recover handle model) code post' := by
  intro s t related told
  have ⟨ends, events⟩ := simulated s t related told
  exact ⟨settled _ _ _ _ ends, events⟩

theorem simulates_map {f : α → β} {post'}
    (simulated : Simulates fine seen pre model code post)
    (ends : ∀ out s out' t, post out s out' t → post' (out.map f) s out' t) :
    Simulates fine seen pre (model >>= fun result => pure (f result)) code post' := by
  rw [← bind_pure_right code]
  apply simulates_bind simulated
  intro out out'
  have told (s : State) : (resume out (fun result => pure (f result)) s :
      Ending Stop State Event β) = ⟨out.map f, s, []⟩ := by
    cases out <;> rfl
  intro s t related _
  rw [told, resume_pure]
  exact ⟨ends out s out' t related, rfl⟩

end Simulation

end Effects
