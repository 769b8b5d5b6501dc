import Mathlib.Data.List.Basic

/-!
Commands whose effects are known by the place where they stand. A world decides each
test, and whether an effect comes back, by what has happened so far; two commands are
the same where no world tells them apart. A command that meets no place twice does what
it does in any world also in a fixed one, which decides by the place alone.
-/

namespace Worlds

open List

variable {Site : Type}

/-- An effect comes back if the world lets it; `leave` is one that never does. -/
inductive Code (Site : Type) where
  | skip
  | effect (site : Site)
  | leave (site : Site)
  | seq (first rest : Code Site)
  | test (site : Site) (holds fails : Code Site)

structure World (Site : Type) where
  holds : Site → List Site → Bool
  returns : Site → List Site → Bool

def run (world : World Site) : Code Site → List Site → List Site × Bool
  | .skip, past => (past, true)
  | .effect site, past => (past ++ [site], world.returns site past)
  | .leave site, past => (past ++ [site], false)
  | .seq first rest, past =>
    if (run world first past).2 then run world rest (run world first past).1
    else run world first past
  | .test site holds fails, past =>
    if world.holds site past then run world holds past else run world fails past

example (world : World Site) (code : Code Site) (past : List Site) :
    run world (.seq .skip code) past = run world code past := by simp [run]

def Code.chain : List (Code Site) → Code Site := List.foldr .seq .skip

@[simp] theorem chain_nil : Code.chain ([] : List (Code Site)) = .skip := rfl

@[simp] theorem chain_cons (code : Code Site) (rest : List (Code Site)) :
    Code.chain (code :: rest) = .seq code (.chain rest) := rfl

def Same (one other : Code Site) : Prop := ∀ world past, run world one past = run world other past

def Silent (code : Code Site) : Prop := ∀ world past, run world code past = (past, true)

def Ends (code : Code Site) : Prop := ∃ world past after, run world code past = (after, true)

def Idle (code : Code Site) : Prop :=
  ∀ world past after, run world code past = (after, true) → after = past

variable {one other first rest code : Code Site} {world : World Site} {past : List Site}

theorem run_grows (world : World Site) (code : Code Site) (past : List Site) :
    past <+: (run world code past).1 := by
  induction code generalizing past with
  | skip => exact prefix_rfl
  | effect site => exact prefix_append _ _
  | leave site => exact prefix_append _ _
  | seq first rest begins goes =>
    simp only [run]
    split
    · exact (begins past).trans (goes _)
    · exact begins past
  | test site holds fails yes no =>
    simp only [run]
    split
    · exact yes past
    · exact no past

section Sameness

theorem Same.refl (code : Code Site) : Same code code := fun _ _ => rfl

theorem Same.symm (same : Same one other) : Same other one := fun world past => (same world past).symm

theorem Same.trans (same : Same one code) (again : Same code other) : Same one other :=
  fun world past => (same world past).trans (again world past)

theorem Same.seq {first' rest' : Code Site} (begins : Same first first') (goes : Same rest rest') :
    Same (.seq first rest) (.seq first' rest') := by
  intro world past
  simp only [run, begins world past, goes world _]

theorem Same.test {holds fails holds' fails' : Code Site} (site : Site) (yes : Same holds holds')
    (no : Same fails fails') : Same (.test site holds fails) (.test site holds' fails') := by
  intro world past
  simp only [run, yes world past, no world past]

theorem same_assoc (one other code : Code Site) :
    Same (.seq (.seq one other) code) (.seq one (.seq other code)) := by
  intro world past
  simp only [run]
  by_cases ends : (run world one past).2 = true
  · simp only [ends, if_true]
  · simp only [ends, Bool.false_eq_true, if_false]

theorem same_skip (code : Code Site) : Same (.seq code .skip) code := by
  intro world past
  simp only [run]
  split
  next ends => exact Prod.ext rfl ends.symm
  next => rfl

theorem same_chain {α : Type} {build build' : α → Code Site} {parts : List α}
    (each : ∀ part ∈ parts, Same (build part) (build' part)) :
    Same (.chain (parts.map build)) (.chain (parts.map build')) := by
  induction parts with
  | nil => exact .refl _
  | cons part parts ih =>
    obtain ⟨here, later⟩ := forall_mem_cons.1 each
    exact here.seq (ih later)

theorem same_chain_append (codes later : List (Code Site)) :
    Same (.chain (codes ++ later)) (.seq (.chain codes) (.chain later)) := by
  induction codes with
  | nil => exact .refl _
  | cons code codes ih => exact ((Same.refl code).seq ih).trans (same_assoc _ _ _).symm

theorem Silent.of_same (silent : Silent one) (same : Same one other) : Silent other :=
  fun world past => (same world past).symm.trans (silent world past)

end Sameness

section Without

theorem Silent.seq_left (silent : Silent first) : Same (.seq first rest) rest := by
  intro world past
  simp only [run, silent world past, if_true]

theorem Silent.seq_right (silent : Silent rest) : Same (.seq first rest) first := by
  intro world past
  simp only [run, silent world _]
  split
  next ends => exact Prod.ext rfl ends.symm
  next => rfl

theorem Silent.idle (silent : Silent code) : Idle code := by
  intro world past after ran
  exact congrArg Prod.fst (ran.symm.trans (silent world past))

theorem silent_skip : Silent (.skip : Code Site) := fun _ _ => rfl

theorem Silent.early (silent : Silent (.seq first rest)) : Silent first := by
  intro world past
  have whole := silent world past
  simp only [run] at whole
  by_cases ends : (run world first past).2 = true
  · -- what comes behind cannot take back what has happened
    simp only [ends, if_true] at whole
    have back := run_grows world rest (run world first past).1
    rw [whole] at back
    have same := (run_grows world first past).eq_of_length_le back.length_le
    exact Prod.ext same.symm ends
  · simpa only [ends, Bool.false_eq_true, if_false] using whole

theorem silent_seq : Silent (.seq first rest) ↔ Silent first ∧ Silent rest := by
  constructor
  · intro silent
    exact ⟨silent.early, silent.of_same silent.early.seq_left⟩
  · rintro ⟨here, later⟩
    exact later.of_same here.seq_left.symm

theorem silent_chain {codes : List (Code Site)} :
    Silent (.chain codes) ↔ ∀ code ∈ codes, Silent code := by
  induction codes with
  | nil => exact ⟨fun _ _ member => absurd member not_mem_nil, fun _ => silent_skip⟩
  | cons code codes ih =>
    rw [forall_mem_cons, ← ih]
    exact silent_seq

theorem Idle.again (idle : Idle code) : Same (.seq code code) code := by
  intro world past
  simp only [run]
  split
  next ends =>
      have back : (run world code past).1 = past := idle world past _ (Prod.ext rfl ends)
      rw [back]
  next => rfl

theorem same_of_ends (silent : Ends first → Silent rest) : Same (.seq first rest) first := by
  by_cases ends : Ends first
  · exact (silent ends).seq_right
  · intro world past
    have leaves : (run world first past).2 = false := by
      by_contra stays
      exact ends ⟨world, past, _, Prod.ext rfl (Bool.not_eq_false _ ▸ stays)⟩
    simp only [run, leaves]
    rfl

end Without
section Fixed

structure Fixed (Site : Type) where
  holds : Site → Bool
  returns : Site → Bool

def Fixed.toWorld (fixed : Fixed Site) : World Site where
  holds := fun site _ => fixed.holds site
  returns := fun site _ => fixed.returns site

def trace (fixed : Fixed Site) : Code Site → List Site × Bool
  | .skip => ([], true)
  | .effect site => ([site], fixed.returns site)
  | .leave site => ([site], false)
  | .seq first rest =>
    if (trace fixed first).2 then
      ((trace fixed first).1 ++ (trace fixed rest).1, (trace fixed rest).2)
    else trace fixed first
  | .test site holds fails => if fixed.holds site then trace fixed holds else trace fixed fails

theorem run_fixed (fixed : Fixed Site) (code : Code Site) (past : List Site) :
    run fixed.toWorld code past = (past ++ (trace fixed code).1, (trace fixed code).2) := by
  induction code generalizing past with
  | skip => simp only [run, trace, append_nil]
  | effect site => rfl
  | leave site => rfl
  | seq first rest begins goes =>
    simp only [run, trace, begins, goes]
    split
    · rw [append_assoc]
    · rfl
  | test site holds fails yes no =>
    simp only [run, trace, yes, no]
    -- both ask the same question
    change (if fixed.holds site then _ else _) = _
    split <;> rfl

theorem Same.traces (same : Same one other) (fixed : Fixed Site) :
    trace fixed one = trace fixed other := by
  have ran := same fixed.toWorld []
  rw [run_fixed, run_fixed] at ran
  exact ran

def names : Code Site → List Site
  | .skip => []
  | .effect site | .leave site => [site]
  | .seq first rest => names first ++ names rest
  | .test site holds fails => site :: (names holds ++ names fails)

def Linear : Code Site → Prop
  | .skip | .effect _ | .leave _ => True
  | .seq first rest => Linear first ∧ Linear rest ∧ (names first).Disjoint (names rest)
  | .test site holds fails =>
    Linear holds ∧ Linear fails ∧ site ∉ names holds ∧ site ∉ names fails

theorem names_chain_append (codes later : List (Code Site)) :
    names (.chain (codes ++ later)) = names (.chain codes) ++ names (.chain later) := by
  induction codes with
  | nil => rfl
  | cons code codes ih =>
    simp only [cons_append, chain_cons, names, ih, append_assoc]

theorem linear_chain_append {codes later : List (Code Site)} :
    Linear (.chain (codes ++ later)) ↔ Linear (.chain codes) ∧ Linear (.chain later) ∧
      (names (.chain codes)).Disjoint (names (.chain later)) := by
  induction codes with
  | nil =>
    have apart := disjoint_nil_left (names (Code.chain later))
    exact ⟨fun linear => ⟨trivial, linear, apart⟩, fun parts => parts.2.1⟩
  | cons code codes ih =>
    simp only [cons_append, chain_cons, Linear, ih, names, names_chain_append,
      disjoint_append_left, disjoint_append_right]
    tauto

theorem trace_names (fixed : Fixed Site) (code : Code Site) :
    ∀ site ∈ (trace fixed code).1, site ∈ names code := by
  induction code with
  | skip => exact nofun
  | effect site => exact fun _ member => member
  | leave site => exact fun _ member => member
  | seq first rest begins goes =>
    intro site member
    simp only [trace] at member
    split at member
    · rcases mem_append.1 member with early | late
      · exact mem_append_left _ (begins site early)
      · exact mem_append_right _ (goes site late)
    · exact mem_append_left _ (begins site member)
  | test place holds fails yes no =>
    intro site member
    simp only [trace] at member
    refine .tail _ (mem_append.2 ?_)
    split at member
    · exact .inl (yes site member)
    · exact .inr (no site member)

variable {fixed : Fixed Site}

theorem trace_congr {fixed' : Fixed Site}
    (agree : ∀ site ∈ names code, fixed.holds site = fixed'.holds site ∧
      fixed.returns site = fixed'.returns site) : trace fixed code = trace fixed' code := by
  induction code with
  | skip => rfl
  | effect site => simp only [trace, (agree site mem_cons_self).2]
  | leave site => rfl
  | seq first rest begins goes =>
    have early := begins fun site member => agree site (mem_append_left _ member)
    have late := goes fun site member => agree site (mem_append_right _ member)
    simp only [trace, early, late]
  | test site holds fails yes no =>
    have taken := yes fun place member =>
      agree place (.tail _ (mem_append_left _ member))
    have other := no fun place member =>
      agree place (.tail _ (mem_append_right _ member))
    simp only [trace, taken, other, (agree site mem_cons_self).1]

theorem trace_told (leaves : (trace fixed code).2 = false) :
    (trace fixed code).1 ≠ [] := by
  induction code with
  | skip => exact absurd leaves nofun
  | effect site => exact cons_ne_nil _ _
  | leave site => exact cons_ne_nil _ _
  | seq first rest begins goes =>
    simp only [trace] at leaves ⊢
    split
    next ends =>
        rw [if_pos ends] at leaves
        exact append_ne_nil_of_right_ne_nil _ (goes leaves)
    next stays => exact begins (Bool.not_eq_true _ ▸ stays)
  | test site holds fails yes no =>
    simp only [trace] at leaves ⊢
    split
    next taken =>
        rw [if_pos taken] at leaves
        exact yes leaves
    next taken =>
        rw [if_neg taken] at leaves
        exact no leaves

theorem trace_seq_front (fixed : Fixed Site) (first rest : Code Site) :
    (trace fixed first).1 <+: (trace fixed (.seq first rest)).1 := by
  simp only [trace]
  split
  · exact prefix_append _ _
  · exact prefix_rfl

theorem trace_seq_ended (ends : (trace fixed first).2 = true)
    (rest : Code Site) : trace fixed (.seq first rest) =
      ((trace fixed first).1 ++ (trace fixed rest).1, (trace fixed rest).2) := by
  simp only [trace, ends, if_true]

variable [DecidableEq Site]

def Fixed.join (places : List Site) (fixed fixed' : Fixed Site) : Fixed Site where
  holds := fun site => if site ∈ places then fixed.holds site else fixed'.holds site
  returns := fun site => if site ∈ places then fixed.returns site else fixed'.returns site

theorem trace_join_left (fixed fixed' : Fixed Site) (code : Code Site) :
    trace (.join (names code) fixed fixed') code = trace fixed code :=
  trace_congr fun site member => by simp only [Fixed.join, member, if_true, and_self]

theorem trace_join_right {places : List Site} (fixed fixed' : Fixed Site)
    (apart : places.Disjoint (names code)) :
    trace (.join places fixed fixed') code = trace fixed' code :=
  trace_congr fun site member => by
    have outside : site ∉ places := fun inside => apart inside member
    simp only [Fixed.join, outside, if_false, and_self]

theorem exists_fixed (linear : Linear code) (world : World Site) (past : List Site) :
    ∃ fixed, run world code past = (past ++ (trace fixed code).1, (trace fixed code).2) := by
  induction code generalizing past with
  | skip =>
    refine ⟨⟨fun _ => true, fun _ => true⟩, ?_⟩
    simp only [run, trace, append_nil]
  | effect site => exact ⟨⟨fun _ => true, fun place => world.returns place past⟩, rfl⟩
  | leave site => exact ⟨⟨fun _ => true, fun _ => true⟩, rfl⟩
  | seq first rest begins goes =>
    obtain ⟨linear_first, linear_rest, apart⟩ := linear
    obtain ⟨fixed, early⟩ := begins linear_first past
    obtain ⟨fixed', late⟩ := goes linear_rest (past ++ (trace fixed first).1)
    refine ⟨.join (names first) fixed fixed', ?_⟩
    simp only [run, trace, early, late, trace_join_left, trace_join_right _ _ apart]
    split
    · rw [append_assoc]
    · rfl
  | test site holds fails yes no =>
    obtain ⟨linear_holds, linear_fails, apart_holds, apart_fails⟩ := linear
    -- the answer that this place gets here is all that the world has to say of it
    let answer : Fixed Site := ⟨fun _ => world.holds site past, fun _ => true⟩
    have answered : ∀ fixed, (Fixed.join [site] answer fixed).holds site = world.holds site past :=
      fun _ => if_pos (.head _)
    by_cases taken : world.holds site past = true
    · obtain ⟨fixed, ran⟩ := yes linear_holds past
      refine ⟨.join [site] answer fixed, ?_⟩
      simp only [run, trace, answered, taken, if_true, ran,
        trace_join_right answer fixed (singleton_disjoint.2 apart_holds)]
    · obtain ⟨fixed, ran⟩ := no linear_fails past
      refine ⟨.join [site] answer fixed, ?_⟩
      simp only [run, trace, answered, taken, Bool.false_eq_true, if_false, ran,
        trace_join_right answer fixed (singleton_disjoint.2 apart_fails)]

end Fixed

section Told

variable [DecidableEq Site]

theorem exists_traces (apart : (names one).Disjoint (names other)) (fixed fixed' : Fixed Site) :
    ∃ joined, trace joined one = trace fixed one ∧ trace joined other = trace fixed' other :=
  ⟨.join (names one) fixed fixed', trace_join_left _ _ _, trace_join_right _ _ apart⟩

theorem exists_told (linear : Linear code) (loud : ¬ Silent code) :
    ∃ fixed, (trace fixed code).1 ≠ [] := by
  by_contra none
  apply loud
  intro world past
  obtain ⟨fixed, ran⟩ := exists_fixed linear world past
  have empty : (trace fixed code).1 = [] := by
    by_contra told
    exact none ⟨fixed, told⟩
  have ends : (trace fixed code).2 = true := by
    by_contra leaves
    exact trace_told (Bool.not_eq_true _ ▸ leaves) empty
  rw [ran, empty, ends, append_nil]

theorem exists_ending (linear : Linear code) (ends : Ends code) :
    ∃ fixed, (trace fixed code).2 = true := by
  obtain ⟨world, past, after, ran⟩ := ends
  obtain ⟨fixed, told⟩ := exists_fixed linear world past
  exact ⟨fixed, congrArg Prod.snd (told.symm.trans ran)⟩

theorem exists_busy (linear : Linear code) (busy : ¬ Idle code) :
    ∃ fixed, (trace fixed code).2 = true ∧ (trace fixed code).1 ≠ [] := by
  by_contra none
  apply busy
  intro world past after ran
  obtain ⟨fixed, told⟩ := exists_fixed linear world past
  have ends : (trace fixed code).2 = true := congrArg Prod.snd (told.symm.trans ran)
  have empty : (trace fixed code).1 = [] := by
    by_contra some
    exact none ⟨fixed, ends, some⟩
  have back : past ++ (trace fixed code).1 = after := congrArg Prod.fst (told.symm.trans ran)
  rw [← back, empty, append_nil]

variable {rest' : Code Site}

theorem Same.silent_first (same : Same (.seq one rest) (.seq other rest'))
    (linear_one : Linear one) (linear_other : Linear other)
    (apart : (names one).Disjoint (names other)) : Silent one ∨ Silent other := by
  by_contra both
  obtain ⟨loud_one, loud_other⟩ := not_or.1 both
  obtain ⟨fixed, told⟩ := exists_told linear_one loud_one
  obtain ⟨fixed', told'⟩ := exists_told linear_other loud_other
  obtain ⟨joined, trace_one, trace_other⟩ := exists_traces apart fixed fixed'
  have front := trace_seq_front joined one rest
  have front' := trace_seq_front joined other rest'
  rw [same.traces joined, trace_one] at front
  rw [trace_other] at front'
  obtain ⟨site, tail, begins⟩ := exists_cons_of_ne_nil told
  obtain ⟨site', tail', begins'⟩ := exists_cons_of_ne_nil told'
  rw [begins] at front
  rw [begins'] at front'
  obtain ⟨later, whole⟩ := front
  obtain ⟨later', whole'⟩ := front'
  have here : site = site' := (List.cons.inj (whole.trans whole'.symm)).1
  apply apart (trace_names fixed one site (begins ▸ (.head _)))
  rw [here]
  exact trace_names fixed' other site' (begins' ▸ (.head _))

theorem Same.silent_dropped (same : Same code (.seq first (.seq other rest)))
    (linear_first : Linear first) (linear_other : Linear other)
    (apart : (names first).Disjoint (names other)) (dropped : (names code).Disjoint (names other))
    (ends : Ends first) : Silent other := by
  by_contra loud
  obtain ⟨fixed, ended⟩ := exists_ending linear_first ends
  obtain ⟨fixed', told⟩ := exists_told linear_other loud
  obtain ⟨joined, trace_first, trace_other⟩ := exists_traces apart fixed fixed'
  obtain ⟨site, tail, begins⟩ := exists_cons_of_ne_nil told
  have member : site ∈ (trace fixed' other).1 := begins ▸ (.head _)
  have whole := same.traces joined
  rw [trace_seq_ended (trace_first ▸ ended)] at whole
  have later : site ∈ (trace joined (.seq other rest)).1 := by
    apply (trace_seq_front joined other rest).subset
    rwa [trace_other]
  have done : site ∈ (trace joined code).1 := by
    rw [whole]
    exact mem_append_right _ later
  exact dropped (trace_names joined code site done) (trace_names fixed' other site member)

theorem Same.idle_twice (same : Same (.seq first (.seq code (.seq code rest)))
      (.seq first (.seq code rest))) (linear_first : Linear first) (linear : Linear code)
    (apart : (names first).Disjoint (names code)) (ends : Ends first) : Idle code := by
  by_contra busy
  obtain ⟨fixed, ended⟩ := exists_ending linear_first ends
  obtain ⟨fixed', again, told⟩ := exists_busy linear busy
  obtain ⟨joined, trace_first, trace_code⟩ := exists_traces apart fixed fixed'
  have whole := congrArg (List.length ∘ Prod.fst) (same.traces joined)
  have ended_first : (trace joined first).2 = true := trace_first ▸ ended
  have ended_code : (trace joined code).2 = true := trace_code ▸ again
  simp only [trace_seq_ended ended_first, trace_seq_ended ended_code, Function.comp_apply,
    length_append, trace_code] at whole
  have some := length_pos_iff.2 told
  omega

end Told

section Orders

variable [DecidableEq Site] {last : Code Site}

variable (linear_first : Linear first)
include linear_first

theorem swap_same_iff (linear_last : Linear last)
    (apart : (names first).Disjoint (names last)) (rest : Code Site) :
    Same (.seq last (.seq first rest)) (.seq first (.seq last rest)) ↔
      Silent last ∨ Silent first := by
  constructor
  · intro same
    exact same.silent_first linear_last linear_first (disjoint_symm apart)
  · rintro (silent | silent)
    · exact silent.seq_left.trans ((Same.refl first).seq silent.seq_left).symm
    · exact ((Same.refl last).seq silent.seq_left).trans silent.seq_left.symm

theorem again_same_iff (linear_last : Linear last)
    (apart : (names first).Disjoint (names last)) (rest : Code Site) :
    Same (.seq last (.seq first (.seq last rest))) (.seq first (.seq last rest)) ↔
      (Silent last ∨ Silent first) ∧ Idle last := by
  constructor
  · intro same
    have one : Silent last ∨ Silent first :=
      same.silent_first linear_last linear_first (disjoint_symm apart)
    refine ⟨one, ?_⟩
    rcases one with silent | silent
    · exact silent.idle
    · have twice : Same (.seq last (.seq last rest)) (.seq last rest) :=
        ((Same.refl last).seq silent.seq_left.symm).trans (same.trans silent.seq_left)
      have padded : Same (.seq .skip (.seq last (.seq last rest))) (.seq .skip (.seq last rest)) :=
        (Same.refl _).seq twice
      exact padded.idle_twice trivial linear_last (disjoint_nil_left _)
        ⟨⟨fun _ _ => true, fun _ _ => true⟩, [], [], rfl⟩
  · rintro ⟨silent | silent, idle⟩
    · exact silent.seq_left
    · have front : Same (.seq last (.seq first (.seq last rest))) (.seq last (.seq last rest)) :=
        (Same.refl last).seq silent.seq_left
      have once := ((same_assoc last last rest).symm).trans (idle.again.seq (.refl rest))
      exact front.trans (once.trans silent.seq_left.symm)

theorem dropped_same_iff (linear_rest : Linear rest)
    (apart : (names first).Disjoint (names rest)) (dropped : (names code).Disjoint (names rest)) :
    Same code (.seq first rest) ↔ Same code first ∧ (Ends first → Silent rest) := by
  constructor
  · intro same
    have silent : Ends first → Silent rest := by
      have padded : Same code (.seq first (.seq rest .skip)) :=
        same.trans ((Same.refl first).seq (same_skip rest).symm)
      exact padded.silent_dropped linear_first linear_rest apart dropped
    exact ⟨same.trans (same_of_ends silent), silent⟩
  · rintro ⟨same, silent⟩
    exact same.trans (same_of_ends silent).symm

theorem skipped_same_iff {between : Code Site}
    (linear_between : Linear between) (linear_last : Linear last)
    (apart : (names first).Disjoint (names last))
    (apart_between : (names first).Disjoint (names between))
    (dropped : (names last).Disjoint (names between)) :
    Same (.seq last (.seq first .skip)) (.seq first (.seq between (.seq last .skip))) ↔
      (Silent last ∨ Silent first) ∧ (Ends first → Silent between) := by
  have without : (Ends first → Silent between) →
      Same (.seq first (.seq between (.seq last .skip))) (.seq first (.seq last .skip)) :=
    fun silent => (same_assoc _ _ _).symm.trans ((same_of_ends silent).seq (.refl _))
  constructor
  · intro same
    refine ⟨same.silent_first linear_last linear_first (disjoint_symm apart), fun ends => ?_⟩
    apply same.silent_dropped linear_first linear_between apart_between _ ends
    simp only [names, append_nil]
    exact disjoint_append_left.2 ⟨dropped, apart_between⟩
  · rintro ⟨one, silent⟩
    exact ((swap_same_iff linear_first linear_last apart .skip).2 one).trans (without silent).symm

theorem twice_same_iff (linear : Linear code)
    (apart : (names first).Disjoint (names code)) (rest : Code Site) :
    Same (.seq first (.seq code (.seq code rest))) (.seq first (.seq code rest)) ↔
      (Ends first → Idle code) := by
  constructor
  · exact fun same ends => same.idle_twice linear_first linear apart ends
  · intro idle
    by_cases ends : Ends first
    · have once : Same (.seq code (.seq code rest)) (.seq code rest) :=
        (same_assoc code code rest).symm.trans ((idle ends).again.seq (.refl rest))
      exact (Same.refl first).seq once
    · exact (same_of_ends fun some => absurd some ends).trans
        (same_of_ends fun some => absurd some ends).symm

omit linear_first

theorem branch_same_iff {site : Site} (linear : Linear (.seq first (.test site .skip rest))) :
    Same (.seq first (.test site rest rest)) (.seq first (.test site .skip rest)) ↔
      (Ends first → Silent rest) := by
  obtain ⟨linear_first, ⟨_, linear_rest, _, fresh⟩, apart⟩ := linear
  constructor
  · intro same ends
    by_contra loud
    obtain ⟨fixed, ended⟩ := exists_ending linear_first ends
    obtain ⟨fixed', told⟩ := exists_told linear_rest loud
    -- the test holds, so that the value is not asked for
    let holds : Fixed Site := .join [site] ⟨fun _ => true, fun _ => true⟩ fixed'
    have trace_rest : trace holds rest = trace fixed' rest :=
      trace_join_right _ _ (singleton_disjoint.2 fresh)
    have here : site ∉ names first := fun member => apart member (.head _)
    have apart_rest : (names first).Disjoint (names rest) := by
      intro place member inside
      exact apart member (.tail _ (mem_append_right _ inside))
    have whole := same.traces (.join (names first) fixed holds)
    have stands : (Fixed.join (names first) fixed holds).holds site = true := by
      simp only [Fixed.join, here, if_false, holds, mem_singleton, if_true]
    have ended_joined : (trace (.join (names first) fixed holds) first).2 = true := by
      rw [trace_join_left]
      exact ended
    rw [trace_seq_ended ended_joined, trace_seq_ended ended_joined] at whole
    have nothing := append_cancel_left (congrArg Prod.fst whole)
    simp only [trace, stands, if_true, trace_join_right _ _ apart_rest, trace_rest] at nothing
    exact told nothing
  · intro silent
    by_cases ends : Ends first
    · have quiet : Same rest .skip := silent ends
      exact (Same.refl first).seq (Same.test site quiet (.refl rest))
    · exact (same_of_ends fun some => absurd some ends).trans
        (same_of_ends fun some => absurd some ends).symm

end Orders

end Worlds
