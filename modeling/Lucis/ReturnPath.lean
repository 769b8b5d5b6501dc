import Lucis.ConstExpr
import Lucis.Library.Flow

/-!
`blockAlwaysReturns` of checkers/Checker_stmt.cpp, by which `checkFunction` accepts a
body, and the runs of the statements it looks at. Which branch is taken, how often a
loop turns and what is thrown is left open. An absent `finally` is an empty one, and
a `finally` is run behind a `try`, or behind a `catch`, that came to its end.
-/

namespace Lucis.ReturnPath

open Flow

open ConstExpr (Text)

section Statements

/-- An expression statement: a call of a named function, `lucis::core::trap()`, or another one. -/
inductive Callee where
  | function (name : Text)
  | trap
  | other

/-- Statements, by what the walk and a run do with them. The bodies of an `if` are those of its
`else if` clauses too; a body in braces is a `nakedBlockStmt`. The block of `blockStmt` is that of
a `lock`, an `#inline` or a `#scope`, and a `plain` statement is one without statements in it. -/
inductive Stmt where
  | returnStmt
  | throwStmt
  | bailStmt
  | callStmt (name : Text)
  | exprStmt (callee : Callee)
  | plain
  | asmGotoStmt
  | ifStmt (bodies : List Stmt)
  | ifElseStmt (bodies : List Stmt) (elseBody : Stmt)
  | forStmt (block : List Stmt)
  | whileStmt (block : List Stmt)
  | doWhileStmt (block : List Stmt)
  | loopStmt (block : List Stmt)
  | breakStmt
  | continueStmt
  | switchStmt (cases : List (List Stmt))
  | switchDefaultStmt (cases : List (List Stmt)) (default : List Stmt)
  | tryCatchStmt (block : List Stmt) (catches : List (List Stmt)) (finallyBlock : List Stmt)
  | nakedBlockStmt (block : List Stmt)
  | blockStmt (block : List Stmt)
  | labelDef (stmt : Stmt)

def panicName : Text := ['p', 'a', 'n', 'i', 'c']

def exitName : Text := ['e', 'x', 'i', 't']

def unreachableName : Text := ['u', 'n', 'r', 'e', 'a', 'c', 'h', 'a', 'b', 'l', 'e']

def isNoreturn (name : Text) : Bool :=
  name = panicName || name = exitName || name = unreachableName

def Callee.isNoreturn : Callee → Bool
  | function name => ReturnPath.isNoreturn name
  | trap => true
  | other => false

mutual

def ifBodyAlwaysReturns : Stmt → Bool
  | .nakedBlockStmt block => blockAlwaysReturns block
  | .returnStmt => true
  | .throwStmt => true
  | .bailStmt => true
  | .loopStmt block => blockAlwaysReturns block
  | .ifElseStmt bodies elseBody => ifBodiesAlwaysReturn bodies && ifBodyAlwaysReturns elseBody
  | _ => false

def ifBodiesAlwaysReturn : List Stmt → Bool
  | [] => true
  | body :: rest => ifBodyAlwaysReturns body && ifBodiesAlwaysReturn rest

def stmtAlwaysReturns : Stmt → Bool
  | .returnStmt => true
  | .throwStmt => true
  | .bailStmt => true
  | .callStmt name => isNoreturn name
  | .exprStmt callee => callee.isNoreturn
  -- a `break` in the block is not looked for
  | .loopStmt block => blockAlwaysReturns block
  | .ifElseStmt bodies elseBody => ifBodiesAlwaysReturn bodies && ifBodyAlwaysReturns elseBody
  | .switchDefaultStmt cases default => blocksAlwaysReturn cases && blockAlwaysReturns default
  | .tryCatchStmt block catches _ => blockAlwaysReturns block && blocksAlwaysReturn catches
  | _ => false

def blockAlwaysReturns : List Stmt → Bool
  | [] => false
  | stmt :: rest => stmtAlwaysReturns stmt || blockAlwaysReturns rest

def blocksAlwaysReturn : List (List Stmt) → Bool
  | [] => true
  | block :: rest => blockAlwaysReturns block && blocksAlwaysReturn rest

end

mutual

/-- `break` and `continue` stand in loops only: `loopDepth_` is not 0 where they are checked. -/
def stmtInLoops : Stmt → Bool
  | .breakStmt => false
  | .continueStmt => false
  | .ifStmt bodies => blockInLoops bodies
  | .ifElseStmt bodies elseBody => blockInLoops bodies && stmtInLoops elseBody
  | .switchStmt cases => blocksInLoops cases
  | .switchDefaultStmt cases default => blocksInLoops cases && blockInLoops default
  | .tryCatchStmt block catches finallyBlock =>
    blockInLoops block && blocksInLoops catches && blockInLoops finallyBlock
  | .nakedBlockStmt block => blockInLoops block
  | .blockStmt block => blockInLoops block
  | .labelDef stmt => stmtInLoops stmt
  | _ => true

def blockInLoops : List Stmt → Bool
  | [] => true
  | stmt :: rest => stmtInLoops stmt && blockInLoops rest

def blocksInLoops : List (List Stmt) → Bool
  | [] => true
  | block :: rest => blockInLoops block && blocksInLoops rest

end

end Statements

section Runs

inductive Way where
  | brk
  | cont
  | returned
  | thrown
  | bailed
  | stopped
  deriving DecidableEq

def Way.exits : List Way := [.returned, .thrown, .bailed, .stopped]

inductive Act where
  | evaluate
  | call (callee : Callee)
  | jump
  | loopLeft (block : List Stmt)

/-- What a run does that the walk does not reckon with: a `loop` with this block was left by a
`break` of its own, a function that is taken not to come back did, or an `asm goto` jumped. -/
inductive Event where
  | loopLeft (block : List Stmt)
  | cameBack
  | jumped

/-- An expression is evaluated, or the evaluation throws, fails or does not come back. Where an
`asm goto` jumps to is not followed: anything can come behind it. -/
inductive step : Act → Unit → List Event → Option Way → Unit → Prop
  | evaluate : step .evaluate () [] none ()
  | evaluate_leaves {action way} (exit : way ∈ [.thrown, .bailed, .stopped])
      (evaluates : ∀ block, action ≠ .loopLeft block) : step action () [] (some way) ()
  | call {callee} (plain : callee.isNoreturn = false) : step (.call callee) () [] none ()
  | call_back {name} (noreturn : isNoreturn name = true) :
      step (.call (.function name)) () [.cameBack] none ()
  | jump_not : step .jump () [] none ()
  | jump {out} : step .jump () [.jumped] out ()
  | loopLeft {block} : step (.loopLeft block) () [.loopLeft block] none ()

/-- The turns of a loop whose body `continue` comes to the end of. -/
def turn (body : Code Act Way) : Code Act Way := .handle .cont body .skip

def untilBreak (body : Code Act Way) : Code Act Way := .handle .brk (.loop body) .skip

mutual

def stmtCode : Stmt → Code Act Way
  | .returnStmt => .seq (.act .evaluate) (.leave .returned)
  | .throwStmt => .seq (.act .evaluate) (.leave .thrown)
  | .bailStmt => .seq (.act .evaluate) (.leave .bailed)
  | .callStmt name => .act (.call (.function name))
  | .exprStmt callee => .act (.call callee)
  | .plain => .act .evaluate
  | .asmGotoStmt => .act .jump
  | .ifStmt bodies => ifCode bodies .skip
  | .ifElseStmt bodies elseBody => ifCode bodies (stmtCode elseBody)
  | .forStmt block =>
    untilBreak (.seq (.act .evaluate) (.either (.leave .brk) (turn (blockCode block))))
  | .whileStmt block =>
    untilBreak (.seq (.act .evaluate) (.either (.leave .brk) (turn (blockCode block))))
  | .doWhileStmt block =>
    untilBreak (.seq (turn (blockCode block)) (.seq (.act .evaluate) (.either (.leave .brk) .skip)))
  | .loopStmt block => .seq (untilBreak (turn (blockCode block))) (.act (.loopLeft block))
  | .breakStmt => .leave .brk
  | .continueStmt => .leave .cont
  | .switchStmt cases => .seq (.act .evaluate) (choiceCode cases .skip)
  | .switchDefaultStmt cases default =>
    .seq (.act .evaluate) (choiceCode cases (blockCode default))
  -- what no clause catches is thrown again
  | .tryCatchStmt block catches finallyBlock =>
    .seq (.handle .thrown (blockCode block) (choiceCode catches (.leave .thrown)))
      (blockCode finallyBlock)
  | .nakedBlockStmt block => blockCode block
  | .blockStmt block => .seq (.act .evaluate) (blockCode block)
  | .labelDef stmt => stmtCode stmt

def ifCode : List Stmt → Code Act Way → Code Act Way
  | [], last => last
  | body :: rest, last => .seq (.act .evaluate) (.either (stmtCode body) (ifCode rest last))

def blockCode : List Stmt → Code Act Way
  | [] => .skip
  | stmt :: rest => .seq (stmtCode stmt) (blockCode rest)

def choiceCode : List (List Stmt) → Code Act Way → Code Act Way
  | [], last => last
  | block :: rest, last => .either (blockCode block) (choiceCode rest last)

end

end Runs

section Soundness

/-- A `loop` that is left is not one whose block is taken to return, no function comes back that is
taken not to, and no `asm goto` jumps. -/
def Event.Meets : Event → Prop
  | loopLeft block => blockAlwaysReturns block = false
  | cameBack => False
  | jumped => False

abbrev Ends (code : Code Act Way) (post : Option Way → Prop) : Prop :=
  Triple step Event.Meets (fun _ => True) (fun _ => True) code fun out _ => post out

abbrev Never (code : Code Act Way) : Prop := Ends code fun out => out ≠ none

theorem ends_anyhow (code : Code Act Way) : Ends code fun _ => True :=
  fun _ _ _ _ _ _ _ => ⟨fun _ _ => trivial, trivial⟩

theorem never_leave (way : Way) : Never (.leave way) :=
  (triple_leave way).weaken (fun _ _ => Option.some_ne_none way) fun _ _ other => other

theorem never_seq_first {first} (never : Never first) (rest : Code Act Way) :
    Never (.seq first rest) :=
  triple_seq never (fun _ _ _ _ absurd_end => absurd rfl absurd_end) fun _ _ other => other

theorem never_seq_rest (first : Code Act Way) {rest} (never : Never rest) :
    Never (.seq first rest) :=
  triple_seq (ends_anyhow first) never fun way _ _ => Option.some_ne_none way

theorem never_call {callee : Callee} (noreturn : callee.isNoreturn = true) :
    Never (.act (.call callee)) := by
  apply triple_act
  intro s events out s' _ stepped meets
  refine ⟨fun _ _ => trivial, ?_⟩
  cases stepped with
  | evaluate_leaves _ _ => exact Option.some_ne_none _
  | call plain =>
    rw [noreturn] at plain
    cases plain
  | call_back _ => exact absurd (meets .cameBack (.head _)) id

variable {block : List Stmt}

theorem never_loopLeft (counts : blockAlwaysReturns block = true) :
    Never (.act (.loopLeft block)) := by
  apply triple_act
  intro s events out s' _ stepped meets
  cases stepped with
  | evaluate_leaves _ evaluates => exact absurd rfl (evaluates block)
  | loopLeft =>
    have other : blockAlwaysReturns block = false := meets (.loopLeft block) (.head _)
    rw [counts] at other
    cases other

theorem never_loop (counts : blockAlwaysReturns block = true) :
    Never (stmtCode (.loopStmt block)) := by
  rw [stmtCode]
  exact never_seq_rest _ (never_loopLeft counts)

mutual

/-- A body of an `if` that counts is never run to its end. -/
theorem ifBody_never (body : Stmt) (counts : ifBodyAlwaysReturns body = true) :
    Never (stmtCode body) := by
  match body with
  | .nakedBlockStmt block =>
    rw [ifBodyAlwaysReturns] at counts
    rw [stmtCode]
    exact block_never block counts
  | .returnStmt => exact never_seq_rest _ (never_leave .returned)
  | .throwStmt => exact never_seq_rest _ (never_leave .thrown)
  | .bailStmt => exact never_seq_rest _ (never_leave .bailed)
  | .loopStmt block =>
    rw [ifBodyAlwaysReturns] at counts
    exact never_loop counts
  | .ifElseStmt bodies elseBody =>
    rw [ifBodyAlwaysReturns, Bool.and_eq_true] at counts
    rw [stmtCode]
    exact ifBodies_never bodies counts.1 (ifBody_never elseBody counts.2)

theorem ifBodies_never (bodies : List Stmt) (counts : ifBodiesAlwaysReturn bodies = true)
    {last} (never : Never last) : Never (ifCode bodies last) := by
  match bodies with
  | [] => exact never
  | body :: rest =>
    rw [ifBodiesAlwaysReturn, Bool.and_eq_true] at counts
    rw [ifCode]
    exact never_seq_rest _ (triple_either (ifBody_never body counts.1)
      (ifBodies_never rest counts.2 never))

theorem stmt_never (stmt : Stmt) (counts : stmtAlwaysReturns stmt = true) :
    Never (stmtCode stmt) := by
  match stmt with
  | .returnStmt => exact never_seq_rest _ (never_leave .returned)
  | .throwStmt => exact never_seq_rest _ (never_leave .thrown)
  | .bailStmt => exact never_seq_rest _ (never_leave .bailed)
  | .callStmt name => exact never_call counts
  | .exprStmt callee => exact never_call counts
  | .loopStmt block =>
    rw [stmtAlwaysReturns] at counts
    exact never_loop counts
  | .ifElseStmt bodies elseBody =>
    rw [stmtAlwaysReturns, Bool.and_eq_true] at counts
    rw [stmtCode]
    exact ifBodies_never bodies counts.1 (ifBody_never elseBody counts.2)
  | .switchDefaultStmt cases default =>
    rw [stmtAlwaysReturns, Bool.and_eq_true] at counts
    rw [stmtCode]
    exact never_seq_rest _ (blocks_never cases counts.1 (block_never default counts.2))
  | .tryCatchStmt block catches finallyBlock =>
    rw [stmtAlwaysReturns, Bool.and_eq_true] at counts
    rw [stmtCode]
    exact never_seq_first (triple_handle (block_never block counts.1)
      ((blocks_never catches counts.2 (never_leave .thrown)).weaken (fun _ _ => trivial)
        fun _ _ other => other) fun _ _ _ other => other) _

theorem block_never (block : List Stmt) (counts : blockAlwaysReturns block = true) :
    Never (blockCode block) := by
  match block with
  | stmt :: rest =>
    rw [blockAlwaysReturns, Bool.or_eq_true] at counts
    rw [blockCode]
    rcases counts with here | later
    · exact never_seq_first (stmt_never stmt here) _
    · exact never_seq_rest _ (block_never rest later)

theorem blocks_never (blocks : List (List Stmt)) (counts : blocksAlwaysReturn blocks = true)
    {last} (never : Never last) : Never (choiceCode blocks last) := by
  match blocks with
  | [] => exact never
  | block :: rest =>
    rw [blocksAlwaysReturn, Bool.and_eq_true] at counts
    rw [choiceCode]
    exact triple_either (block_never block counts.1) (blocks_never rest counts.2 never)

end

def Inside (out : Option Way) : Prop := out ≠ some .brk ∧ out ≠ some .cont

theorem none_ne (way : Way) : none ≠ some way := fun same => Option.some_ne_none way same.symm

theorem inside_end : Inside none := ⟨none_ne _, none_ne _⟩

variable {post : Option Way → Prop}

theorem ends_seq {first rest} (begins : Ends first post)
    (goes : Ends rest post) : Ends (.seq first rest) post :=
  triple_seq begins (goes.weaken (fun _ _ => trivial) fun _ _ ends => ends) fun _ _ ends => ends

variable {way : Way}

theorem ends_skip (ends : post none) : Ends .skip post :=
  triple_skip.weaken (fun _ _ => ends) fun _ _ ends => ends

theorem ends_leave (ends : post (some way)) :
    Ends (.leave way) post :=
  (triple_leave way).weaken (fun _ _ => ends) fun _ _ ends => ends

theorem inside_act (action : Act) : Ends (.act action) Inside := by
  apply triple_act
  intro s events out s' _ stepped meets
  refine ⟨fun _ _ => trivial, ?_⟩
  cases stepped with
  | evaluate_leaves exit _ =>
    simp only [List.mem_cons, List.not_mem_nil, or_false] at exit
    rcases exit with rfl | rfl | rfl <;> exact ⟨by decide, by decide⟩
  | jump => exact absurd (meets .jumped (.head _)) id
  | _ => exact inside_end

/-- A turn takes the `continue` of its body, whatever the body is. -/
theorem turn_continues (body : Code Act Way) : Ends (turn body) fun out => out ≠ some .cont :=
  triple_handle (ends_anyhow body) (ends_skip (none_ne _)) fun _ _ other _ => other

theorem act_continues (action : Act) : Ends (.act action) fun out => out ≠ some .cont :=
  (inside_act action).weaken (fun _ _ => trivial) fun _ _ inside => inside.2

theorem brk_continues : Ends (.leave .brk) fun out => out ≠ some .cont := ends_leave (by decide)

/-- A loop takes the `break` of its body. -/
theorem inside_untilBreak {body} (turns : Ends body fun out => out ≠ some .cont) :
    Ends (untilBreak body) Inside := by
  have looped : Ends (.loop body) fun out => out ≠ some .cont := by
    apply triple_loop
    exact turns.weaken (fun _ _ => trivial) fun out _ other => by
      cases out with
      | none => trivial
      | some way => exact other
  have handler : Ends .skip Inside := ends_skip inside_end
  exact triple_handle looped (handler.weaken (fun _ _ => trivial) fun _ _ inside => inside)
    fun _ _ other continues => ⟨other, continues⟩

mutual

theorem stmt_inside (stmt : Stmt) (closed : stmtInLoops stmt = true) :
    Ends (stmtCode stmt) Inside := by
  match stmt with
  | .returnStmt => exact ends_seq (inside_act _) (ends_leave ⟨by decide, by decide⟩)
  | .throwStmt => exact ends_seq (inside_act _) (ends_leave ⟨by decide, by decide⟩)
  | .bailStmt => exact ends_seq (inside_act _) (ends_leave ⟨by decide, by decide⟩)
  | .callStmt name => exact inside_act _
  | .exprStmt callee => exact inside_act _
  | .plain => exact inside_act _
  | .asmGotoStmt => exact inside_act _
  | .ifStmt bodies =>
    rw [stmtInLoops] at closed
    exact ifBodies_inside bodies closed (ends_skip inside_end)
  | .ifElseStmt bodies elseBody =>
    rw [stmtInLoops, Bool.and_eq_true] at closed
    exact ifBodies_inside bodies closed.1 (stmt_inside elseBody closed.2)
  | .forStmt block =>
    exact inside_untilBreak (ends_seq (act_continues _)
      (triple_either brk_continues (turn_continues _)))
  | .whileStmt block =>
    exact inside_untilBreak (ends_seq (act_continues _)
      (triple_either brk_continues (turn_continues _)))
  | .doWhileStmt block =>
    exact inside_untilBreak (ends_seq (turn_continues _)
      (ends_seq (act_continues _) (triple_either brk_continues (ends_skip (none_ne _)))))
  | .loopStmt block => exact ends_seq (inside_untilBreak (turn_continues _)) (inside_act _)
  | .switchStmt cases =>
    rw [stmtInLoops] at closed
    exact ends_seq (inside_act _) (blocks_inside cases closed (ends_skip inside_end))
  | .switchDefaultStmt cases default =>
    rw [stmtInLoops, Bool.and_eq_true] at closed
    exact ends_seq (inside_act _)
      (blocks_inside cases closed.1 (block_inside default closed.2))
  | .tryCatchStmt block catches finallyBlock =>
    rw [stmtInLoops, Bool.and_eq_true, Bool.and_eq_true] at closed
    exact ends_seq (triple_handle (block_inside block closed.1.1)
      ((blocks_inside catches closed.1.2 (ends_leave ⟨by decide, by decide⟩)).weaken
        (fun _ _ => trivial) fun _ _ ends => ends) fun _ _ _ ends => ends)
      (block_inside finallyBlock closed.2)
  | .nakedBlockStmt block =>
    rw [stmtInLoops] at closed
    exact block_inside block closed
  | .blockStmt block =>
    rw [stmtInLoops] at closed
    exact ends_seq (inside_act _) (block_inside block closed)
  | .labelDef stmt =>
    rw [stmtInLoops] at closed
    exact stmt_inside stmt closed

theorem ifBodies_inside (bodies : List Stmt) (closed : blockInLoops bodies = true)
    {last} (inside : Ends last Inside) : Ends (ifCode bodies last) Inside := by
  match bodies with
  | [] => exact inside
  | body :: rest =>
    rw [blockInLoops, Bool.and_eq_true] at closed
    exact ends_seq (inside_act _)
      (triple_either (stmt_inside body closed.1) (ifBodies_inside rest closed.2 inside))

theorem block_inside (block : List Stmt) (closed : blockInLoops block = true) :
    Ends (blockCode block) Inside := by
  match block with
  | [] => exact ends_skip inside_end
  | stmt :: rest =>
    rw [blockInLoops, Bool.and_eq_true] at closed
    exact ends_seq (stmt_inside stmt closed.1) (block_inside rest closed.2)

theorem blocks_inside (blocks : List (List Stmt)) (closed : blocksInLoops blocks = true)
    {last} (inside : Ends last Inside) : Ends (choiceCode blocks last) Inside := by
  match blocks with
  | [] => exact inside
  | block :: rest =>
    rw [blocksInLoops, Bool.and_eq_true] at closed
    exact triple_either (block_inside block closed.1) (blocks_inside rest closed.2 inside)

end

/-- Every run of an accepted block that the walk reckons with leaves the block: the function, if
no loop is around it. -/
theorem accepted_leaves (block : List Stmt) (accepted : blockAlwaysReturns block = true)
    {events : List Event} {out : Option Way} (run : Exec step (blockCode block) () events out ())
    (meets : ∀ e ∈ events, e.Meets) :
    out ≠ none ∧ (blockInLoops block = true → ∃ way ∈ Way.exits, out = some way) := by
  have left : out ≠ none := (block_never block accepted _ _ _ _ trivial run meets).2
  refine ⟨left, ?_⟩
  intro closed
  have inside : Inside out := (block_inside block closed _ _ _ _ trivial run meets).2
  cases out with
  | none => exact absurd rfl left
  | some way =>
    refine ⟨way, ?_, rfl⟩
    cases way with
    | brk => exact absurd rfl inside.1
    | cont => exact absurd rfl inside.2
    | _ => decide

/-- `{ loop { if c { continue; } return x; } }` -/
def retries : List Stmt :=
  [.loopStmt [.ifStmt [.nakedBlockStmt [.continueStmt]], .returnStmt]]

/-- One turn is taken up again by the `continue`, the next returns. -/
theorem retries_returns : Exec step (blockCode retries) () [] (some .returned) () := by
  have again : Exec step (turn (blockCode [.ifStmt [.nakedBlockStmt [.continueStmt]], .returnStmt]))
      () [] none () :=
    .handled (.seq_leaves (.seq (.act step.evaluate) (.first (.seq_leaves .leave)))) .skip
  have last : Exec step (turn (blockCode [.ifStmt [.nakedBlockStmt [.continueStmt]], .returnStmt]))
      () [] (some .returned) () :=
    .passes (.seq (.seq (.act step.evaluate) (.second .skip))
      (.seq_leaves (.seq (.act step.evaluate) .leave))) (by decide)
  exact .seq_leaves (.seq_leaves (.passes (.turn again (.turn_leaves last)) (by decide)))

theorem accepted_leaves_return :
    (some Way.returned ≠ none) ∧ (blockInLoops retries = true →
      ∃ way ∈ Way.exits, some Way.returned = some way) :=
  accepted_leaves retries (by decide) retries_returns (List.forall_mem_nil _)

/-- `{ loop { if c { break; } return x; } }` -/
def breaks : List Stmt :=
  [.loopStmt [.ifStmt [.nakedBlockStmt [.breakStmt]], .returnStmt]]

/-- The `break` comes before the `return` for which the loop is taken to return. -/
theorem breaks_falls : blockAlwaysReturns breaks = true ∧
    ∃ events, Exec step (blockCode breaks) () events none () := by
  have body : Exec step (blockCode [.ifStmt [.nakedBlockStmt [.breakStmt]], .returnStmt]) () []
      (some .brk) () :=
    .seq_leaves (.seq (.act step.evaluate) (.first (.seq_leaves .leave)))
  have looped : Exec step (turn (blockCode [.ifStmt [.nakedBlockStmt [.breakStmt]], .returnStmt]))
      () [] (some .brk) () := .passes body (by decide)
  exact ⟨by decide, _, .seq (.seq (.handled (.turn_leaves looped) .skip) (.act step.loopLeft)) .skip⟩

end Soundness

end Lucis.ReturnPath
