import Lucis.FuzzMutators
import Lucis.Library.Programs

/-!
The mutators of fuzz/fuzz_runner.c as programs of what they do: random words, unsigned
subtractions, accesses to `g_input` and to the queue. A guarded run stays inside
`g_input` and the queue entry, no subtraction of it wraps, and no word is drawn below a
bound larger than the buffer or the queue. The programs compute what the mutators do.
-/

namespace Lucis.FuzzBounds

open FuzzMutators Memory Programs Option Function
open Programs.Prog (perform)

inductive Act where
  /-- `rngNext()` -/
  | next
  /-- `rngBelow(n)` -/
  | below (n : Nat)
  /-- `a - b` on size_t -/
  | sub (a b : Nat)
  | load (pos : Nat)
  | store (pos : Nat) (value : UInt8)
  /-- `memmove(buf + dst, buf + src, count)` -/
  | memmove (dst src count : Nat)
  /-- `g_queueLen[entry]` -/
  | entryLen (entry : Nat)
  /-- `memcpy(buf + dst, g_queue[entry] + src, count)` -/
  | memcpy (dst entry src count : Nat)

/-- `g_input` and the rest of the random sequence. -/
structure Scratch where
  buf : List UInt8
  rng : Rng

abbrev Mutator := Prog Act Nat Nat

def step (queue : List (List UInt8)) : Act → Scratch → Option (Nat × Scratch)
  | .next, s => some ((rngNext s.rng).1.toNat, { s with rng := (rngNext s.rng).2 })
  | .below n, s => some ((rngBelow n s.rng).1, { s with rng := (rngBelow n s.rng).2 })
  | .sub a b, s => some (subT a b, s)
  | .load pos, s => (load s.buf pos).map fun byte => (byte.toNat, s)
  | .store pos value, s => (store s.buf pos value).map fun buf => (0, { s with buf := buf })
  | .memmove dst src count, s =>
    (copyFrom s.buf dst s.buf src count).map fun buf => (0, { s with buf := buf })
  | .entryLen entry, s => queue[entry]?.map fun other => (other.length, s)
  | .memcpy dst entry src count, s =>
    queue[entry]?.bind fun other =>
      (copyFrom s.buf dst other src count).map fun buf => (0, { s with buf := buf })

/-- What each action has to meet: the accesses stay inside the buffer of `FUZZ_MAX_INPUT`
bytes and inside the entry, a subtraction does not wrap, and no bound of a draw is one that
did. -/
def Inside (queue : List (List UInt8)) : Act → Scratch → Prop
  | .next, _ => True
  | .below n, _ => n ≤ fuzzMaxInput ∨ n ≤ queue.length
  | .sub a b, _ => b ≤ a
  | .load pos, _ => pos < fuzzMaxInput
  | .store pos _, _ => pos < fuzzMaxInput
  | .memmove dst src count, _ => dst + count ≤ fuzzMaxInput ∧ src + count ≤ fuzzMaxInput
  | .entryLen entry, _ => entry < queue.length
  | .memcpy dst entry src count, _ =>
    dst + count ≤ fuzzMaxInput ∧ src + count ≤ (queue.getD entry []).length

section Mutators

def mutateBitFlip (len : Nat) : Mutator :=
  if len = 0 then pure 0
  else do
    let pos ← perform (.below len)
    let bit ← perform (.below 8)
    let old ← perform (.load pos)
    let _ ← perform (.store pos (UInt8.ofNat old ^^^ UInt8.ofNat (1 <<< bit)))
    pure len

def mutateInteresting (len : Nat) : Mutator :=
  if len = 0 then pure 0
  else do
    let pos ← perform (.below len)
    let width ← perform (.below 2)
    if width = 1 ∧ pos + 1 < len then do
      let choice ← perform (.below interesting16.length)
      let _ ← perform (.store pos (UInt8.ofNat (interesting16.getD choice 0 &&& 0xFF)))
      let _ ← perform (.store (pos + 1) (UInt8.ofNat (interesting16.getD choice 0 >>> 8)))
      pure len
    else do
      let choice ← perform (.below interesting8.length)
      let _ ← perform (.store pos (interesting8.getD choice 0))
      pure len

def mutateArith (len : Nat) : Mutator :=
  if len = 0 then pure 0
  else do
    let pos ← perform (.below len)
    let draw ← perform (.below 71)
    let old ← perform (.load pos)
    let delta : Int := if (draw : Int) - 35 = 0 then 1 else (draw : Int) - 35
    let _ ← perform (.store pos (UInt8.ofInt (old + delta)))
    pure len

def mutateInsert (len : Nat) : Mutator :=
  if len ≥ fuzzMaxInput then pure len
  else do
    let pos ← perform (.below (len + 1))
    let v ← perform .next
    let tail ← perform (.sub len pos)
    let _ ← perform (.memmove (pos + 1) pos tail)
    let _ ← perform (.store pos (UInt8.ofNat v))
    pure (len + 1)

def mutateDelete (len : Nat) : Mutator :=
  if len = 0 then pure 0
  else do
    let pos ← perform (.below len)
    let bound ← perform (.sub len pos)
    let draw ← perform (.below bound)
    let span := 1 + draw
    let tail ← perform (.sub len pos)
    let count ← perform (.sub tail span)
    let _ ← perform (.memmove pos (pos + span) count)
    perform (.sub len span)

/-- `if (cut + take > FUZZ_MAX_INPUT) take = FUZZ_MAX_INPUT - cut;` -/
def clipTake (cut take : Nat) : Mutator :=
  if cut + take > fuzzMaxInput then perform (.sub fuzzMaxInput cut) else pure take

/-- The rest of `mutateSplice` once `cut` and `take` are drawn. -/
def spliceFrom (entry otherLen len cut take : Nat) : Mutator :=
  if take = 0 then pure len
  else do
    let spare ← perform (.sub otherLen take)
    let origin ← perform (.below (spare + 1))
    let _ ← perform (.memcpy cut entry origin take)
    pure (cut + take)

/-- `otherLen` is `g_queueLen[entry]`. -/
def mutateSplice (entry otherLen len : Nat) : Mutator :=
  if otherLen = 0 ∨ len = 0 then pure len
  else do
    let bound ← perform (.sub len 1)
    let draw ← perform (.below bound)
    let cut := 1 + draw
    let draw ← perform (.below (if otherLen < fuzzMaxInput then otherLen else fuzzMaxInput - 1))
    let take ← clipTake cut (1 + draw)
    spliceFrom entry otherLen len cut take

def mutateOnceStep (queueCount len : Nat) : Mutator := do
  let choice ← perform (.below 6)
  match choice with
  | 0 => mutateBitFlip len
  | 1 => mutateInteresting len
  | 2 => mutateArith len
  | 3 => mutateInsert len
  | 4 => mutateDelete len
  | _ =>
    if queueCount > 1 then do
      let other ← perform (.below queueCount)
      let otherLen ← perform (.entryLen other)
      mutateSplice other otherLen len
    else mutateInsert len

def mutateSteps (queueCount : Nat) : Nat → Nat → Mutator
  | 0, len => pure len
  | steps + 1, len => mutateOnceStep queueCount len >>= mutateSteps queueCount steps

def mutateHavoc (queueCount inputLen : Nat) : Mutator := do
  let draw ← perform .next
  mutateSteps queueCount (1 + (draw &&& 15)) inputLen

end Mutators

/-! What the mutators return. -/

section Results

variable (queue : List (List UInt8)) {s : Scratch}

def ended (m : Mutated) : Nat × Scratch := (m.len, ⟨m.buf, m.rng⟩)

variable (action : Act)

@[simp]
theorem run_perform (rest : Nat → Mutator) :
    run (step queue) (perform action >>= rest) s =
      (step queue action s).bind fun done => run (step queue) (rest done.1) done.2 :=
  rfl

theorem run_last : run (step queue) (perform action) s = step queue action s := by
  cases stepped : step queue action s <;> simp [perform, run, stepped]

@[simp]
theorem run_pure (len : Nat) : run (step queue) (pure len) s = some (len, s) :=
  rfl

variable (m : Mutated)

theorem mutateBitFlip_eq : run (step queue) (mutateBitFlip m.len) ⟨m.buf, m.rng⟩ =
      (FuzzMutators.mutateBitFlip m).map ended := by
  unfold mutateBitFlip FuzzMutators.mutateBitFlip
  split
  · rfl
  · simp [step, ended, Option.map_bind, bind_map, comp_def]

theorem mutateInteresting_eq :
    run (step queue) (mutateInteresting m.len) ⟨m.buf, m.rng⟩ =
      (FuzzMutators.mutateInteresting m).map ended := by
  unfold mutateInteresting FuzzMutators.mutateInteresting
  split
  · rfl
  · simp only [run_perform, step, bind_some]
    split
    · simp [step, ended, Option.map_bind, bind_map, comp_def]
    · simp [step, ended, Option.map_bind, bind_map, comp_def]

theorem mutateArith_eq : run (step queue) (mutateArith m.len) ⟨m.buf, m.rng⟩ =
      (FuzzMutators.mutateArith m).map ended := by
  unfold mutateArith FuzzMutators.mutateArith
  split
  · rfl
  · simp [step, ended, Option.map_bind, bind_map, comp_def]

theorem mutateInsert_eq : run (step queue) (mutateInsert m.len) ⟨m.buf, m.rng⟩ =
      (FuzzMutators.mutateInsert m).map ended := by
  unfold mutateInsert FuzzMutators.mutateInsert
  split
  · rfl
  · simp [step, ended, Option.map_bind, bind_map, comp_def]

theorem mutateDelete_eq : run (step queue) (mutateDelete m.len) ⟨m.buf, m.rng⟩ =
      (FuzzMutators.mutateDelete m).map ended := by
  unfold mutateDelete FuzzMutators.mutateDelete
  split
  · rfl
  · simp [run_last, step, ended, deleteSpan, Option.map_bind, bind_map, comp_def]

variable {other : List UInt8} {entry : Nat}

theorem spliceFrom_eq (there : queue[entry]? = some other) (m : Mutated) (cut take : Nat) :
    run (step queue) (spliceFrom entry other.length m.len cut take) ⟨m.buf, m.rng⟩ =
      (FuzzMutators.spliceFrom other m cut take).map ended := by
  unfold spliceFrom FuzzMutators.spliceFrom
  split
  · rfl
  · simp [step, there, ended, Option.map_bind, bind_map, comp_def]

theorem mutateSplice_eq (there : queue[entry]? = some other)
    (m : Mutated) : run (step queue) (mutateSplice entry other.length m.len) ⟨m.buf, m.rng⟩ =
      (FuzzMutators.mutateSplice other m).map ended := by
  unfold mutateSplice FuzzMutators.mutateSplice
  split
  · rfl
  · simp only [run_perform, step, bind_some]
    rcases rngBelow (subT m.len 1) m.rng with ⟨cut, rng⟩
    simp only
    rcases rngBelow (if other.length < fuzzMaxInput then other.length else fuzzMaxInput - 1) rng with
      ⟨take, rng⟩
    have rest := spliceFrom_eq queue there { m with rng := rng } (1 + cut)
    simp only [clipTake]
    split
    · exact rest _
    · exact rest _

theorem mutateOnceStep_eq :
    run (step queue) (mutateOnceStep queue.length m.len) ⟨m.buf, m.rng⟩ =
      (FuzzMutators.mutateOnceStep queue m).map ended := by
  unfold mutateOnceStep FuzzMutators.mutateOnceStep
  simp only [run_perform, step, bind_some]
  rcases rngBelow 6 m.rng with ⟨choice, rng⟩
  rcases choice with _ | _ | _ | _ | _ | more
  · exact mutateBitFlip_eq queue { m with rng := rng }
  · exact mutateInteresting_eq queue { m with rng := rng }
  · exact mutateArith_eq queue { m with rng := rng }
  · exact mutateInsert_eq queue { m with rng := rng }
  · exact mutateDelete_eq queue { m with rng := rng }
  · simp only
    split
    · rcases drawn : rngBelow queue.length rng with ⟨other, rest⟩
      cases there : queue[other]? with
      | none => simp [step, drawn, there]
      | some entry =>
        have spliced := mutateSplice_eq queue there { m with rng := rest }
        simpa [step, drawn, there] using spliced
    · exact mutateInsert_eq queue { m with rng := rng }

theorem mutateSteps_eq (steps : Nat) (m : Mutated) :
    run (step queue) (mutateSteps queue.length steps m.len) ⟨m.buf, m.rng⟩ =
      (FuzzMutators.mutateSteps queue steps m).map ended := by
  induction steps generalizing m with
  | zero => rfl
  | succ steps ih =>
    have first := mutateOnceStep_eq queue m
    rw [mutateSteps, FuzzMutators.mutateSteps]
    refine (run_bind _ _ _).trans ?_
    rw [first]
    cases FuzzMutators.mutateOnceStep queue m with
    | none => rfl
    | some next => exact ih next

theorem mutateHavoc_eq (input : List UInt8) (inputLen : Nat) (rng : Rng) :
    run (step queue) (mutateHavoc queue.length inputLen) ⟨input, rng⟩ =
      (FuzzMutators.mutateHavoc queue input inputLen rng).map ended := by
  have count : ((rngNext rng).1 &&& 15).toNat = (rngNext rng).1.toNat &&& 15 := UInt64.toNat_and _ _
  have whole := mutateSteps_eq queue (1 + ((rngNext rng).1 &&& 15).toNat)
    ⟨input, inputLen, (rngNext rng).2⟩
  rw [count] at whole
  simpa only [mutateHavoc, FuzzMutators.mutateHavoc, run_perform, step, bind_some, count]
    using whole

end Results

/-! What the mutators do. -/

def Bounded (len : Nat) (s : Scratch) : Prop :=
  s.buf.length = fuzzMaxInput ∧ len ≤ fuzzMaxInput

section Rules

variable {queue : List (List UInt8)} {buf : List UInt8} {rng : Rng} {rest : Nat → Mutator}
  {post : Nat → Scratch → Prop}

abbrev Does (queue : List (List UInt8)) (prog : Mutator) (s : Scratch)
    (post : Nat → Scratch → Prop) : Prop :=
  Ends (step queue) (Inside queue) prog s post

theorem does_next (later : ∀ word rng, Does queue (rest word) ⟨buf, rng⟩ post) :
    Does queue (perform .next >>= rest) ⟨buf, rng⟩ post :=
  ⟨trivial, _, _, rfl, later _ _⟩

theorem does_below {n : Nat} (bound : n ≤ fuzzMaxInput ∨ n ≤ queue.length)
    (later : ∀ draw rng, draw < n ∨ (n = 0 ∧ draw = 0) → Does queue (rest draw) ⟨buf, rng⟩ post) :
    Does queue (perform (.below n) >>= rest) ⟨buf, rng⟩ post := by
  refine ⟨bound, _, _, rfl, later _ _ ?_⟩
  by_cases none : n = 0
  · -- nothing is drawn below zero
    right
    exact ⟨none, by rw [rngBelow, if_pos none]⟩
  · exact .inl (rngBelow_lt rng (Nat.pos_of_ne_zero none))

theorem does_last {a b : Nat} {s : Scratch} (ordered : b ≤ a) (holds : post (a - b) s) :
    Does queue (perform (.sub a b)) s post :=
  ⟨ordered, _, s, congrArg some (congrArg (·, s) (subT_of_le ordered)), holds⟩

theorem does_sub {a b : Nat} (ordered : b ≤ a) (later : Does queue (rest (a - b)) ⟨buf, rng⟩ post) :
    Does queue (perform (.sub a b) >>= rest) ⟨buf, rng⟩ post :=
  ⟨ordered, _, _, congrArg some (congrArg (·, _) (subT_of_le ordered)), later⟩

variable {pos : Nat}

variable (size : buf.length = fuzzMaxInput)
include size

theorem does_load (inside : pos < fuzzMaxInput)
    (later : ∀ byte, Does queue (rest byte) ⟨buf, rng⟩ post) :
    Does queue (perform (.load pos) >>= rest) ⟨buf, rng⟩ post := by
  rcases load_inside buf pos (size ▸ inside) with ⟨byte, read⟩
  exact ⟨inside, byte.toNat, _, by rw [step, read]; rfl, later _⟩

theorem does_store {value : UInt8} (inside : pos < fuzzMaxInput)
    (later : ∀ buf : List UInt8, buf.length = fuzzMaxInput → Does queue (rest 0) ⟨buf, rng⟩ post) :
    Does queue (perform (.store pos value) >>= rest) ⟨buf, rng⟩ post := by
  rcases store_inside buf pos value (size ▸ inside) with ⟨next, written, same⟩
  exact ⟨inside, 0, _, by rw [step, written]; rfl, later next (same.trans size)⟩

theorem does_memmove {dst src count : Nat}
    (target : dst + count ≤ fuzzMaxInput) (source : src + count ≤ fuzzMaxInput)
    (later : ∀ buf : List UInt8, buf.length = fuzzMaxInput → Does queue (rest 0) ⟨buf, rng⟩ post) :
    Does queue (perform (.memmove dst src count) >>= rest) ⟨buf, rng⟩ post := by
  rcases copyFrom_inside buf buf dst src count (size ▸ source) (size ▸ target) with
    ⟨next, moved, same⟩
  exact ⟨⟨target, source⟩, 0, _, by rw [step, moved]; rfl, later next (same.trans size)⟩

omit size in
theorem does_entryLen {entry : Nat} (there : entry < queue.length)
    (later : Does queue (rest queue[entry].length) ⟨buf, rng⟩ post) :
    Does queue (perform (.entryLen entry) >>= rest) ⟨buf, rng⟩ post :=
  ⟨there, _, _, by rw [step, List.getElem?_eq_getElem there]; rfl, later⟩

theorem does_memcpy {dst entry src count : Nat}
    (there : entry < queue.length) (target : dst + count ≤ fuzzMaxInput)
    (source : src + count ≤ queue[entry].length)
    (later : ∀ buf : List UInt8, buf.length = fuzzMaxInput → Does queue (rest 0) ⟨buf, rng⟩ post) :
    Does queue (perform (.memcpy dst entry src count) >>= rest) ⟨buf, rng⟩ post := by
  have found : queue[entry]? = some queue[entry] := List.getElem?_eq_getElem there
  rcases copyFrom_inside buf queue[entry] dst src count source (size ▸ target) with
    ⟨next, moved, same⟩
  refine ⟨⟨target, ?_⟩, 0, _, by rw [step, found, bind_some, moved]; rfl,
    later next (same.trans size)⟩
  rw [List.getD_eq_getElem?_getD, found]
  exact source

end Rules

section Mutators

variable {queue : List (List UInt8)} {buf : List UInt8} {rng : Rng} {len : Nat}

variable (size : buf.length = fuzzMaxInput)
include size

variable (small : len ≤ fuzzMaxInput)
include small

theorem mutateBitFlip_does :
    Does queue (mutateBitFlip len) ⟨buf, rng⟩ Bounded := by
  unfold mutateBitFlip
  split
  · exact ⟨size, Nat.zero_le _⟩
  · apply does_below (.inl small)
    intro pos rng inside
    apply does_below (.inl (by decide))
    intro bit rng _
    apply does_load size (by omega)
    intro old
    apply does_store size (by omega)
    intro buf size
    exact ⟨size, small⟩

theorem mutateInteresting_does :
    Does queue (mutateInteresting len) ⟨buf, rng⟩ Bounded := by
  unfold mutateInteresting
  split
  · exact ⟨size, Nat.zero_le _⟩
  · apply does_below (.inl small)
    intro pos rng inside
    apply does_below (.inl (by decide))
    intro width rng _
    split
    · rename_i wide
      apply does_below (.inl (by decide))
      intro choice rng _
      apply does_store size (by omega)
      intro buf size
      apply does_store size (by omega)
      intro buf size
      exact ⟨size, small⟩
    · apply does_below (.inl (by decide))
      intro choice rng _
      apply does_store size (by omega)
      intro buf size
      exact ⟨size, small⟩

theorem mutateArith_does :
    Does queue (mutateArith len) ⟨buf, rng⟩ Bounded := by
  unfold mutateArith
  split
  · exact ⟨size, Nat.zero_le _⟩
  · apply does_below (.inl small)
    intro pos rng inside
    apply does_below (.inl (by decide))
    intro draw rng _
    apply does_load size (by omega)
    intro old
    apply does_store size (by omega)
    intro buf size
    exact ⟨size, small⟩

theorem mutateInsert_does :
    Does queue (mutateInsert len) ⟨buf, rng⟩ Bounded := by
  unfold mutateInsert
  split
  · exact ⟨size, small⟩
  · apply does_below (.inl (by omega))
    intro pos rng inside
    apply does_next
    intro v rng
    apply does_sub (by omega)
    apply does_memmove size (by omega) (by omega)
    intro buf size
    apply does_store size (by omega)
    intro buf size
    exact ⟨size, by omega⟩

theorem mutateDelete_does :
    Does queue (mutateDelete len) ⟨buf, rng⟩ Bounded := by
  unfold mutateDelete
  split
  · exact ⟨size, Nat.zero_le _⟩
  · apply does_below (.inl small)
    intro pos rng inside
    apply does_sub (by omega)
    apply does_below (.inl (by omega))
    intro draw rng inside'
    apply does_sub (by omega)
    apply does_sub (by omega)
    apply does_memmove size (by omega) (by omega)
    intro buf size
    apply does_last (by omega)
    exact ⟨size, by omega⟩

variable {entry : Nat}

theorem spliceFrom_does
    (there : entry < queue.length) (entries : queue[entry].length ≤ fuzzMaxInput)
    {cut take : Nat} (target : cut + take ≤ fuzzMaxInput) (source : take ≤ queue[entry].length) :
    Does queue (spliceFrom entry queue[entry].length len cut take) ⟨buf, rng⟩ Bounded := by
  unfold spliceFrom
  split
  · exact ⟨size, small⟩
  · apply does_sub source
    apply does_below (.inl (by omega))
    intro origin rng inside
    apply does_memcpy size there target (by omega)
    intro buf size
    exact ⟨size, target⟩

omit small in
theorem clipTake_does {cut take : Nat} (inside : cut ≤ fuzzMaxInput) :
    Does queue (clipTake cut take) ⟨buf, rng⟩ fun clipped s =>
      s.buf.length = fuzzMaxInput ∧ cut + clipped ≤ fuzzMaxInput ∧ clipped ≤ take := by
  unfold clipTake
  split
  · apply does_last inside
    exact ⟨size, by omega, by omega⟩
  · exact ⟨size, by omega, le_rfl⟩

theorem mutateSplice_does
    (there : entry < queue.length) (entries : queue[entry].length ≤ fuzzMaxInput) :
    Does queue (mutateSplice entry queue[entry].length len) ⟨buf, rng⟩ Bounded := by
  unfold mutateSplice
  split
  · exact ⟨size, small⟩
  · apply does_sub (by omega)
    apply does_below (.inl (by omega))
    intro cut rng inside
    apply does_below (.inl (by split <;> omega))
    intro draw rng inside'
    -- the draw fits the entry; only the buffer may clip it
    have take_le : 1 + draw ≤ queue[entry].length := by split at inside' <;> omega
    refine Ends.bind (clipTake_does size (by omega)) ?_
    intro take after clipped
    exact spliceFrom_does clipped.1 small there entries clipped.2.1 (by omega)

omit small

omit size

variable (entries : ∀ entry ∈ queue, entry.length ≤ fuzzMaxInput)
include entries

theorem mutateOnceStep_does
    (size : buf.length = fuzzMaxInput) (small : len ≤ fuzzMaxInput) :
    Does queue (mutateOnceStep queue.length len) ⟨buf, rng⟩ Bounded := by
  apply does_below (.inl (by decide))
  intro choice rng _
  split
  · exact mutateBitFlip_does size small
  · exact mutateInteresting_does size small
  · exact mutateArith_does size small
  · exact mutateInsert_does size small
  · exact mutateDelete_does size small
  · split
    · apply does_below (.inr (le_rfl))
      intro other rng inside
      have there : other < queue.length := by omega
      apply does_entryLen there
      exact mutateSplice_does size small there (entries _ (List.getElem_mem there))
    · exact mutateInsert_does size small

theorem mutateSteps_does (steps : Nat)
    (size : buf.length = fuzzMaxInput) (small : len ≤ fuzzMaxInput) :
    Does queue (mutateSteps queue.length steps len) ⟨buf, rng⟩ Bounded := by
  induction steps generalizing len buf rng with
  | zero => exact ⟨size, small⟩
  | succ steps ih =>
    refine Ends.bind (mutateOnceStep_does entries size small) ?_
    -- a step ends as the next one is to begin
    intro next after bounded
    exact ih bounded.1 bounded.2

end Mutators

/-- Every chain of mutations stays inside the buffer of `FUZZ_MAX_INPUT` bytes and the
spliced entries, no subtraction wraps in front of a draw or a copy, and the length it
returns fits. -/
theorem havoc_bounded (queue : List (List UInt8)) (input : List UInt8) (inputLen : Nat) (rng : Rng)
    (size : input.length = fuzzMaxInput) (inside : inputLen ≤ fuzzMaxInput)
    (entries : ∀ entry ∈ queue, entry.length ≤ fuzzMaxInput) :
    Guarded (step queue) (Inside queue) (mutateHavoc queue.length inputLen) ⟨input, rng⟩ ∧
    ∃ m, FuzzMutators.mutateHavoc queue input inputLen rng = some m ∧
      run (step queue) (mutateHavoc queue.length inputLen) ⟨input, rng⟩ =
        some (m.len, ⟨m.buf, m.rng⟩) ∧
      m.buf.length = fuzzMaxInput ∧ m.len ≤ fuzzMaxInput := by
  have does : Does queue (mutateHavoc queue.length inputLen) ⟨input, rng⟩ Bounded := by
    apply does_next
    intro word rng
    exact mutateSteps_does entries _ size inside
  rcases does.run with ⟨len, after, ran, bounded⟩
  have same := mutateHavoc_eq queue input inputLen rng
  rw [ran] at same
  rcases map_eq_some_iff.mp same.symm with ⟨m, mutated, returned⟩
  cases returned
  exact ⟨does.guarded, m, mutated, ran, bounded.1, bounded.2⟩

/-- A buffer of zeros that holds one byte, and entries of one and two bytes. -/
theorem havoc_bounded_short :
    Guarded (step [[1], [2, 3]]) (Inside [[1], [2, 3]]) (mutateHavoc 2 1)
      ⟨List.replicate fuzzMaxInput 0, fun _ => 5⟩ ∧
    ∃ m, FuzzMutators.mutateHavoc [[1], [2, 3]] (List.replicate fuzzMaxInput 0) 1 (fun _ => 5) =
        some m ∧
      run (step [[1], [2, 3]]) (mutateHavoc 2 1) ⟨List.replicate fuzzMaxInput 0, fun _ => 5⟩ =
        some (m.len, ⟨m.buf, m.rng⟩) ∧
      m.buf.length = fuzzMaxInput ∧ m.len ≤ fuzzMaxInput :=
  havoc_bounded [[1], [2, 3]] (List.replicate fuzzMaxInput 0) 1 (fun _ => 5) List.length_replicate
    (by decide) (by decide)

end Lucis.FuzzBounds
