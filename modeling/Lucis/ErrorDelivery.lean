import Lucis.Hashing
import Lucis.Library.Endless

/-!
Which `catch` clause a thrown struct comes to: the dispatch that IRBuilder/IRGen_flow
emits for a `try`, over the handler stack of builtins/error/error.c. `setjmp` and `longjmp`
are a jump to the dispatch of the frame. A clause compares the hash of its type with two
words of the error, the hash of the thrown type and that of its parent. A type is its chain
of parents; the names of a registry are unique, so a name is a type.
-/

namespace Lucis.ErrorDelivery

open Relation StateTransition List

section Types

inductive TypeInfo where
  | root (name : String)
  | child (name : String) (parentType : TypeInfo)

def TypeInfo.name : TypeInfo → String
  | root name => name
  | child name _ => name

def TypeInfo.parentType : TypeInfo → Option TypeInfo
  | root _ => none
  | child _ parentType => some parentType

def TypeInfo.names : TypeInfo → List String
  | root name => [name]
  | child name parentType => name :: parentType.names

def isOrInheritsFrom : TypeInfo → String → Bool
  | .root own, name => own == name
  | .child own parentType, name => own == name || isOrInheritsFrom parentType name

def fnvHash (s : String) : Nat := Hashing.fnv1a s.toUTF8.toList

/-- `lucis_error`, the fields of `Error`; a struct that inherits from it begins with them. -/
structure LucisError where
  message : String
  file : String
  line : Int
  column : Int
  typeId : Nat
  parentTypeId : Nat

/-- A struct that is thrown: what it has of `Error`, and the bytes of the fields that it adds. -/
structure ErrorValue where
  error : LucisError
  own : List UInt8

/-- `catchTI`; a type that is not resolved counts as `Error`. -/
structure CatchClause where
  typeInfo : Option TypeInfo

def CatchClause.typeName (clause : CatchClause) : String :=
  match clause.typeInfo with
  | some typeInfo => typeInfo.name
  | none => "Error"

/-- A `try` statement may have no clause, only its `finally`. -/
inductive Construct where
  | tryCatchStmt (clauses : List CatchClause)
  | tryExpr

end Types

section Throwing

/-- Where a `throw` stands. -/
structure Site where
  fileName : String
  srcLine : Int
  srcCol : Int

/-- `errorVal`, as `visitThrowStmt` fills it in -/
def visitThrowStmt (site : Site) (thrown : TypeInfo) (value : ErrorValue) : ErrorValue :=
  { value with
    error :=
      { message := value.error.message
        file := if value.error.file.utf8ByteSize = 0 then site.fileName else value.error.file
        line := if value.error.line = 0 then site.srcLine else value.error.line
        column := if value.error.column = 0 then site.srcCol else value.error.column
        typeId := fnvHash thrown.name
        parentTypeId := match thrown.parentType with
          | some parentType => fnvHash parentType.name
          | none => 0 } }

end Throwing

section Dispatch

inductive Label where
  | catchBB
  | noMatch (clause : Nat)
  deriving DecidableEq

/-- What ends a block of the dispatch; a check goes to `catch.body` or to `catch.nomatch`. -/
inductive Branch where
  | check (catchHash : Nat) (clause : Nat)
  | rethrow

def emitCatchCheck (insertAt : Label) (clause : CatchClause) (ci : Nat) : Label × Branch :=
  (insertAt, .check (fnvHash clause.typeName) ci)

/-- The loop over the clauses from `ci` on; the last of several emits the rethrow. -/
def emitClauses (size : Nat) : Nat → Label → List CatchClause → List (Label × Branch)
  | _, _, [] => []
  | 0, _, clause :: rest =>
    emitCatchCheck .catchBB clause 0 :: emitClauses size 1 (.noMatch 0) rest
  | ci + 1, prevNoMatch, clause :: rest =>
    if ci + 2 < size then
      emitCatchCheck prevNoMatch clause (ci + 1) ::
        emitClauses size (ci + 2) (.noMatch (ci + 1)) rest
    else
      emitCatchCheck prevNoMatch clause (ci + 1) :: (.noMatch (ci + 1), .rethrow) ::
        emitClauses size (ci + 2) prevNoMatch rest

/-- Behind the loop a single clause gets its rethrow. Of no clause there is no branch at all. -/
def visitCatchClauses (clauses : List CatchClause) : List (Label × Branch) :=
  emitClauses clauses.length 0 .catchBB clauses ++
    if clauses.length = 1 then [(.noMatch 0, .rethrow)] else []

end Dispatch

section Runtime

/-- `lucis_eh_frame`; its `prev` is the rest of the stack, its `buf` the dispatch of its construct. -/
structure Frame where
  construct : Construct
  error : LucisError
  active : Bool

def LucisError.zero : LucisError := ⟨"", "", 0, 0, 0, 0⟩

def lucis_eh_push (frame : Frame) (stack : List Frame) : List Frame :=
  { frame with error := .zero, active := false } :: stack

def lucis_eh_pop (stack : List Frame) : List Frame := stack.tail

/-- Where control is. A dispatch has its frame in a register, and `errorVal` once it is loaded. -/
inductive Point where
  | throws (err : LucisError)
  | caught (frame : Frame)
  | branch (frame : Frame) (clauses : List CatchClause) (errorVal : LucisError) (label : Label)
  | body (frame : Frame) (clause : Nat) (errorVal : LucisError)
  | fallback (frame : Frame)
  | exited (err : LucisError)
  | unterminated
  | overrun

structure State where
  stack : List Frame
  point : Point

def lucis_eh_throw (err : LucisError) : List Frame → State
  | [] => ⟨[], .exited err⟩
  | frame :: rest =>
    let frame := { frame with error := err, active := true }
    ⟨frame :: rest, .caught frame⟩

/-- The store through `rethrow_ptr`, into the frame that was pushed last. -/
def storeError (errorVal : LucisError) : List Frame → List Frame
  | [] => []
  | top :: rest => { top with error := errorVal } :: rest

/-- `matchExact`, or `matchAsChild`. -/
def hashMatches (catchHash : Nat) (errorVal : LucisError) : Bool :=
  errorVal.typeId == catchHash || errorVal.parentTypeId == catchHash

def step (s : State) : Option State :=
  match s.point with
  | .throws err => some (lucis_eh_throw err s.stack)
  | .caught frame =>
    match frame.construct with
    | .tryCatchStmt clauses =>
      some ⟨lucis_eh_pop s.stack, .branch frame clauses frame.error .catchBB⟩
    | .tryExpr => some ⟨lucis_eh_pop s.stack, .fallback frame⟩
  | .branch frame clauses errorVal label =>
    match (visitCatchClauses clauses).lookup label with
    | none => some ⟨s.stack, .unterminated⟩
    | some (.check catchHash clause) =>
      if hashMatches catchHash errorVal then some ⟨s.stack, .body frame clause errorVal⟩
      else some ⟨s.stack, .branch frame clauses errorVal (.noMatch clause)⟩
    | some .rethrow =>
      some ⟨storeError errorVal (lucis_eh_push frame s.stack), .throws errorVal⟩
  | .body _ _ _ => none
  | .fallback _ => none
  | .exited _ => none
  | .unterminated => none
  | .overrun => none

def entered : List Construct → List Frame
  | [] => []
  | construct :: outer => lucis_eh_push ⟨construct, .zero, false⟩ (entered outer)

/-- An error is thrown where these constructs are entered, the innermost of them first. Its
`errAlloca` has the size of `Error`: the store of a struct that adds bytes runs over its end. -/
def thrown (err : ErrorValue) (nesting : List Construct) : State :=
  ⟨entered nesting, match err.own with
    | [] => .throws err.error
    | _ :: _ => .overrun⟩

end Runtime

section Delivery

def CatchClause.takes (clause : CatchClause) (typeInfo : TypeInfo) : Bool :=
  isOrInheritsFrom typeInfo clause.typeName

/-- Where the error is to arrive: in the first clause that takes it of the innermost statement
that has one, with all that was thrown, and with the constructs around that statement still
entered. A `try` expression takes every error. -/
inductive Delivers (typeInfo : TypeInfo) (err : ErrorValue) : List Construct → State → Prop
  | unhandled : Delivers typeInfo err [] ⟨[], .exited err.error⟩
  | clause {clauses outer frame ci errorVal} (same : frame.construct = .tryCatchStmt clauses)
      (first : clauses.findIdx? (fun clause => clause.takes typeInfo) = some ci)
      (whole : err = ⟨errorVal, []⟩) :
      Delivers typeInfo err (.tryCatchStmt clauses :: outer)
        ⟨entered outer, .body frame ci errorVal⟩
  | fallback {outer frame} (same : frame.construct = .tryExpr) :
      Delivers typeInfo err (.tryExpr :: outer) ⟨entered outer, .fallback frame⟩
  | outward {clauses outer s}
      (none_takes : clauses.findIdx? (fun clause => clause.takes typeInfo) = none)
      (delivers : Delivers typeInfo err outer s) :
      Delivers typeInfo err (.tryCatchStmt clauses :: outer) s

def CollisionFree (names : List String) : Prop :=
  ∀ a ∈ names, fnvHash a ≠ 0 ∧ ∀ b ∈ names, fnvHash a = fnvHash b → a = b

def Construct.clauses : Construct → List CatchClause
  | tryCatchStmt clauses => clauses
  | tryExpr => []

def namesInPlay (typeInfo : TypeInfo) (nesting : List Construct) : List String :=
  typeInfo.names ++ nesting.flatMap fun construct => construct.clauses.map (·.typeName)

def CatchClause.isNear (clause : CatchClause) (typeInfo : TypeInfo) : Prop :=
  clause.typeName = typeInfo.name ∨
    ∃ parentType, typeInfo.parentType = some parentType ∧ clause.typeName = parentType.name

def TakenAtOnce (typeInfo : TypeInfo) : List Construct → Prop
  | [] => True
  | .tryExpr :: _ => True
  | .tryCatchStmt clauses :: _ =>
    ∃ clause, clauses.find? (fun clause => clause.takes typeInfo) = some clause ∧
      clause.isNear typeInfo

end Delivery

section Checks

/-- The label of the check of a clause, and behind the last of them that of the rethrow. -/
def label : Nat → Label
  | 0 => .catchBB
  | ci + 1 => .noMatch ci

theorem label_injective {a b : Nat} (same : label a = label b) : a = b := by
  cases a <;> cases b <;> simp_all [label]

def checks : Nat → List CatchClause → List (Label × Branch)
  | _, [] => []
  | ci, clause :: rest => emitCatchCheck (label ci) clause ci :: checks (ci + 1) rest

theorem emitClauses_checks (size ci : Nat) (rest : List CatchClause)
    (sizes : ci + rest.length = size) : emitClauses size ci (label ci) rest =
      checks ci rest ++ if 1 < size ∧ rest ≠ [] then [(label size, .rethrow)] else [] := by
  induction rest generalizing ci with
  | nil =>
    cases ci <;> simp [emitClauses, checks]
  | cons clause rest ih =>
    have later := ih (ci + 1) (by simp only [length_cons] at sizes; omega)
    simp only [length_cons] at sizes
    cases ci with
    | zero =>
      have goes : emitClauses size 1 (.noMatch 0) rest = _ := later
      cases rest with
      | nil =>
        obtain rfl : size = 1 := by simpa using sizes.symm
        simp [emitClauses, checks, label]
      | cons second rest =>
        have several : 1 < size := by simp only [length_cons] at sizes; omega
        rw [emitClauses, goes]
        simp [checks, label, several]
    | succ ci =>
      have goes : emitClauses size (ci + 2) (.noMatch (ci + 1)) rest = _ := later
      have several : 1 < size := by omega
      cases rest with
      | nil =>
        obtain rfl : size = ci + 2 := by simpa using sizes.symm
        simp [emitClauses, checks, label]
      | cons next rest =>
        have middle : ci + 2 < size := by simp only [length_cons] at sizes; omega
        rw [emitClauses, if_pos middle, goes]
        simp [checks, label, several]

variable {clauses : List CatchClause}

theorem visitCatchClauses_checks (some_clause : clauses ≠ []) :
    visitCatchClauses clauses = checks 0 clauses ++ [(label clauses.length, .rethrow)] := by
  have emitted := emitClauses_checks clauses.length 0 clauses (zero_add _)
  have positive : 0 < clauses.length := length_pos_iff.2 some_clause
  rw [visitCatchClauses]
  rw [show Label.catchBB = label 0 from rfl, emitted]
  by_cases single : clauses.length = 1
  · simp [single, label]
  · have several : 1 < clauses.length := by omega
    simp [single, several, some_clause]

theorem lookup_checks (start k : Nat) (clauses : List CatchClause)
    (behind : List (Label × Branch)) : (checks start clauses ++ behind).lookup (label (start + k)) =
      match clauses[k]? with
      | some clause => some (.check (fnvHash clause.typeName) (start + k))
      | none => behind.lookup (label (start + k)) := by
  induction clauses generalizing start k with
  | nil => simp [checks]
  | cons clause rest ih =>
    cases k with
    | zero => simp [checks, emitCatchCheck]
    | succ k =>
      have apart : (label (start + (k + 1)) == label start) = false := by
        apply beq_false_of_ne
        intro same
        have := label_injective same
        omega
      have later := ih (start + 1) k
      rw [show start + 1 + k = start + (k + 1) by omega] at later
      simpa [checks, emitCatchCheck, lookup_cons, apart] using later

theorem check_at {ci : Nat} {clause} (here : clauses[ci]? = some clause) :
    (visitCatchClauses clauses).lookup (label ci) = some (.check (fnvHash clause.typeName) ci) := by
  have some_clause : clauses ≠ [] := by
    rintro rfl
    exact absurd here nofun
  have found := lookup_checks 0 ci clauses [(label clauses.length, .rethrow)]
  rw [here, zero_add] at found
  rw [visitCatchClauses_checks some_clause]
  exact found

theorem rethrow_at (some_clause : clauses ≠ []) :
    (visitCatchClauses clauses).lookup (label clauses.length) = some .rethrow := by
  have found := lookup_checks 0 clauses.length clauses [(label clauses.length, .rethrow)]
  rw [getElem?_eq_none (le_rfl), zero_add] at found
  rw [visitCatchClauses_checks some_clause, found]
  simp

end Checks

section Running

variable {stack : List Frame} {frame : Frame} {clauses : List CatchClause} {errorVal : LucisError}

theorem step_check {ci : Nat} {clause} (here : clauses[ci]? = some clause) :
    step ⟨stack, .branch frame clauses errorVal (label ci)⟩ =
      if hashMatches (fnvHash clause.typeName) errorVal then
        some ⟨stack, .body frame ci errorVal⟩
      else some ⟨stack, .branch frame clauses errorVal (label (ci + 1))⟩ := by
  simp only [step, check_at here]
  rfl

theorem passes (ci : Nat) (inside : ci ≤ clauses.length) (none_matches : ∀ j (before : j < ci),
      hashMatches (fnvHash clauses[j].typeName) errorVal = false) :
    Reaches step ⟨stack, .branch frame clauses errorVal .catchBB⟩
      ⟨stack, .branch frame clauses errorVal (label ci)⟩ := by
  induction ci with
  | zero => exact .refl
  | succ ci ih =>
    have come := ih (by omega) fun j before => none_matches j (by omega)
    have here : clauses[ci]? = some clauses[ci] := getElem?_eq_getElem (by omega)
    apply ReflTransGen.tail come
    rw [step_check here]
    simp [none_matches ci (by omega)]

theorem arrives {ci : Nat}
    (first : clauses.findIdx? (fun clause => hashMatches (fnvHash clause.typeName) errorVal) =
      some ci) : Reaches step ⟨stack, .branch frame clauses errorVal .catchBB⟩
      ⟨stack, .body frame ci errorVal⟩ := by
  obtain ⟨inside, matching, before⟩ := findIdx?_eq_some_iff_getElem.1 first
  have come : Reaches step ⟨stack, .branch frame clauses errorVal .catchBB⟩ _ :=
    passes ci (by omega) fun j earlier => by simpa using before j earlier
  have here : clauses[ci]? = some clauses[ci] := getElem?_eq_getElem inside
  apply ReflTransGen.tail come
  rw [step_check here]
  simp [matching]

theorem rethrows (some_clause : clauses ≠ []) (none_matches : ∀ clause ∈ clauses,
      hashMatches (fnvHash clause.typeName) errorVal = false) :
    Reaches step ⟨stack, .branch frame clauses errorVal .catchBB⟩
      ⟨⟨frame.construct, errorVal, false⟩ :: stack, .throws errorVal⟩ := by
  have come : Reaches step ⟨stack, .branch frame clauses errorVal .catchBB⟩ _ :=
    passes clauses.length (le_rfl) fun j inside =>
      none_matches clauses[j] (getElem_mem inside)
  apply ReflTransGen.tail come
  simp [step, rethrow_at some_clause, lucis_eh_push, storeError]

/-- `lucis_eh_throw` jumps to the dispatch of the frame on top, which pops it. -/
theorem lands (same : frame.construct = .tryCatchStmt clauses) :
    Reaches₁ step ⟨frame :: stack, .throws errorVal⟩
      ⟨stack, .branch { frame with error := errorVal, active := true } clauses errorVal
        .catchBB⟩ := by
  refine TransGen.head (b := lucis_eh_throw errorVal (frame :: stack)) rfl ?_
  apply TransGen.single
  simp [step, lucis_eh_throw, same, lucis_eh_pop]

end Running

section Ending

variable {typeInfo : TypeInfo} {site : Site} {value : ErrorValue} {err : LucisError}
  {nesting outer : List Construct} {clauses : List CatchClause}

theorem inherits_own (typeInfo : TypeInfo) : isOrInheritsFrom typeInfo typeInfo.name = true := by
  cases typeInfo <;> simp [isOrInheritsFrom, TypeInfo.name]

variable {clause : CatchClause}

theorem takes_of_near (near : clause.isNear typeInfo) : clause.takes typeInfo = true := by
  rcases near with same | ⟨parentType, parent, same⟩
  · rw [CatchClause.takes, same]
    exact inherits_own typeInfo
  · cases typeInfo with
    | root name => exact absurd parent nofun
    | child name ancestor =>
      obtain rfl : ancestor = parentType := Option.some.inj parent
      rw [CatchClause.takes, same, isOrInheritsFrom, inherits_own]
      exact Bool.or_true _

theorem name_mem (typeInfo : TypeInfo) : typeInfo.name ∈ typeInfo.names := by
  cases typeInfo <;> simp [TypeInfo.name, TypeInfo.names]

theorem parent_mem {parentType : TypeInfo} (parent : typeInfo.parentType = some parentType) :
    parentType.name ∈ typeInfo.names := by
  cases typeInfo with
  | root name => exact absurd parent nofun
  | child name ancestor =>
    obtain rfl : ancestor = parentType := Option.some.inj parent
    exact mem_cons_of_mem name (name_mem ancestor)

theorem hashMatches_iff {names} (free : CollisionFree names)
    (chain : ∀ name ∈ typeInfo.names, name ∈ names) (listed : clause.typeName ∈ names) :
    hashMatches (fnvHash clause.typeName) (visitThrowStmt site typeInfo value).error = true ↔
      clause.isNear typeInfo := by
  have own : fnvHash typeInfo.name = fnvHash clause.typeName ↔ clause.typeName = typeInfo.name :=
    ⟨fun same => ((free _ (chain _ (name_mem typeInfo))).2 _ listed same).symm,
      fun same => by rw [same]⟩
  cases parent : typeInfo.parentType with
  | none =>
    have no_parent : ¬0 = fnvHash clause.typeName := fun same => (free _ listed).1 same.symm
    simp [hashMatches, visitThrowStmt, CatchClause.isNear, parent, own, no_parent]
  | some parentType =>
    have above : fnvHash parentType.name = fnvHash clause.typeName ↔
        clause.typeName = parentType.name :=
      ⟨fun same => ((free _ (chain _ (parent_mem parent))).2 _ listed same).symm,
        fun same => by rw [same]⟩
    simp [hashMatches, visitThrowStmt, CatchClause.isNear, parent, own, above]

theorem unmatched_endless (some_clause : clauses ≠ [])
    (none_matches : ∀ clause ∈ clauses, hashMatches (fnvHash clause.typeName) err = false)
    (last : State) : last ∉ eval step (thrown ⟨err, []⟩ (.tryCatchStmt clauses :: outer)) := by
  let again : State → Prop := fun s => ∃ frame stack,
    frame.construct = .tryCatchStmt clauses ∧ s = ⟨frame :: stack, .throws err⟩
  have turns : ∀ s, again s → ∃ turn, Reaches₁ step s turn ∧ again turn := by
    rintro s ⟨frame, stack, same, rfl⟩
    refine ⟨_, ?_, ⟨frame.construct, err, false⟩, stack, same, rfl⟩
    exact (lands same).trans_left (rethrows some_clause none_matches)
  apply Endless.endless turns
  exact ⟨⟨.tryCatchStmt clauses, .zero, false⟩, entered outer, rfl, rfl⟩

theorem enters (clauses : List CatchClause) :
    Reaches₁ step (thrown ⟨err, []⟩ (.tryCatchStmt clauses :: outer))
      ⟨entered outer, .branch ⟨.tryCatchStmt clauses, err, true⟩ clauses err .catchBB⟩ := by
  have same : (Frame.mk (.tryCatchStmt clauses) .zero false).construct = .tryCatchStmt clauses := rfl
  exact lands same

theorem bare_unterminated :
    ⟨entered outer, .unterminated⟩ ∈ eval step (thrown ⟨err, []⟩ (.tryCatchStmt [] :: outer)) := by
  apply mem_eval.mpr
  refine ⟨?_, rfl⟩
  exact (enters []).to_reflTransGen.tail rfl

theorem matched_delivered {ci : Nat}
    (first : clauses.findIdx? (fun clause => hashMatches (fnvHash clause.typeName) err) = some ci) :
    ∃ frame : Frame, frame.construct = .tryCatchStmt clauses ∧ ⟨entered outer, .body frame ci err⟩ ∈
        eval step (thrown ⟨err, []⟩ (.tryCatchStmt clauses :: outer)) := by
  refine ⟨⟨.tryCatchStmt clauses, err, true⟩, rfl, mem_eval.2 ⟨?_, rfl⟩⟩
  exact (enters clauses).to_reflTransGen.trans (arrives first)

theorem Delivers.point_ne {s : State} (delivers : Delivers typeInfo value nesting s) :
    s.point ≠ .unterminated ∧ s.point ≠ .overrun := by
  induction delivers with
  | unhandled | clause _ _ _ | fallback _ => exact ⟨Point.noConfusion, Point.noConfusion⟩
  | outward _ _ ih => exact ih

theorem first_of_delivers {frame : Frame} {ci : Nat}
    (delivers : Delivers typeInfo value (.tryCatchStmt clauses :: outer)
      ⟨entered outer, .body frame ci err⟩)
    (here : clauses[ci]? = some clause) (takes : clause.takes typeInfo = true) :
    clauses.findIdx? (fun clause => clause.takes typeInfo) = some ci := by
  cases delivers with
  | clause _ first _ => exact first
  | outward none_takes _ =>
    have missed := findIdx?_eq_none_iff.1 none_takes clause (mem_of_getElem? here)
    exact absurd takes (by simp [missed])

end Ending

section Main

variable {typeInfo : TypeInfo} {nesting outer : List Construct} {clauses : List CatchClause}

theorem chain_in_play {name : String} (member : name ∈ typeInfo.names) :
    name ∈ namesInPlay typeInfo nesting :=
  mem_append_left _ member

theorem clause_in_play {clause} (member : clause ∈ clauses) :
    clause.typeName ∈ namesInPlay typeInfo (.tryCatchStmt clauses :: outer) := by
  apply mem_append_right
  simp only [flatMap_cons, Construct.clauses, mem_append, List.mem_map]
  exact .inl ⟨clause, member, rfl⟩

theorem caught_of_delivered {site : Site} {value : LucisError}
    (free : CollisionFree (namesInPlay typeInfo (.tryCatchStmt clauses :: outer))) {s : State}
    (ends : s ∈ eval step
      (thrown (visitThrowStmt site typeInfo ⟨value, []⟩) (.tryCatchStmt clauses :: outer)))
    (delivers : Delivers typeInfo (visitThrowStmt site typeInfo ⟨value, []⟩)
      (.tryCatchStmt clauses :: outer) s) :
    TakenAtOnce typeInfo (.tryCatchStmt clauses :: outer) := by
  let err := (visitThrowStmt site typeInfo ⟨value, []⟩).error
  cases first : clauses.findIdx? fun clause => hashMatches (fnvHash clause.typeName) err with
  | none =>
    have none_matches := findIdx?_eq_none_iff.1 first
    by_cases bare : clauses = []
    · subst bare
      obtain rfl := Part.mem_unique ends bare_unterminated
      exact absurd rfl delivers.point_ne.1
    · exact absurd ends (unmatched_endless bare none_matches s)
  | some ci =>
    obtain ⟨frame, _, arrived⟩ : ∃ frame : Frame, _ ∧ _ := matched_delivered first
    obtain rfl := Part.mem_unique ends arrived
    obtain ⟨inside, matching, _⟩ := findIdx?_eq_some_iff_getElem.1 first
    have here : clauses[ci]? = some clauses[ci] := getElem?_eq_getElem inside
    have near := (hashMatches_iff free (fun _ => chain_in_play)
      (clause_in_play (getElem_mem inside))).1 matching
    have leading := first_of_delivers delivers here (takes_of_near near)
    obtain ⟨_, takes, before⟩ := findIdx?_eq_some_iff_getElem.1 leading
    refine ⟨clauses[ci], find?_eq_some_iff_getElem.2 ⟨takes, ci, inside, rfl, ?_⟩, near⟩
    intro j earlier
    simpa using before j earlier

theorem delivered_of_caught {site : Site} {value : LucisError}
    (free : CollisionFree (namesInPlay typeInfo (.tryCatchStmt clauses :: outer)))
    (taken : TakenAtOnce typeInfo (.tryCatchStmt clauses :: outer)) : ∃ s ∈ eval step
        (thrown (visitThrowStmt site typeInfo ⟨value, []⟩) (.tryCatchStmt clauses :: outer)),
      Delivers typeInfo (visitThrowStmt site typeInfo ⟨value, []⟩)
        (.tryCatchStmt clauses :: outer) s := by
  let err := (visitThrowStmt site typeInfo ⟨value, []⟩).error
  obtain ⟨clause, found, near⟩ := taken
  obtain ⟨takes, ci, inside, rfl, before⟩ := find?_eq_some_iff_getElem.1 found
  have leading : clauses.findIdx? (fun clause => clause.takes typeInfo) = some ci :=
    findIdx?_eq_some_iff_getElem.2 ⟨inside, takes, fun j earlier => by
      simpa using before j earlier⟩
  have first : clauses.findIdx? (fun clause => hashMatches (fnvHash clause.typeName) err) =
      some ci := by
    apply findIdx?_eq_some_iff_getElem.mpr
    refine ⟨inside, ?_, ?_⟩
    · exact (hashMatches_iff free (fun _ => chain_in_play)
        (clause_in_play (getElem_mem inside))).2 near
    · -- what matches is near, and takes the type, and so it is not in front of the first
      intro j earlier matching
      have nearer := (hashMatches_iff free (fun _ => chain_in_play)
        (clause_in_play (getElem_mem (by omega : j < clauses.length)))).1 matching
      have missed := before j earlier
      simp [takes_of_near nearer] at missed
  obtain ⟨frame, same, arrived⟩ : ∃ frame : Frame, _ ∧ _ := matched_delivered first
  exact ⟨_, arrived, .clause same leading rfl⟩

/-- A thrown struct arrives where it is to, with its contents, just if it adds nothing to `Error`
and the innermost construct takes it, by a clause for the struct itself or for its parent; or
no construct is entered. -/
theorem delivered_iff (site : Site) (typeInfo : TypeInfo) (value : ErrorValue)
    (nesting : List Construct) (free : CollisionFree (namesInPlay typeInfo nesting)) :
    (∃ s ∈ eval step (thrown (visitThrowStmt site typeInfo value) nesting),
      Delivers typeInfo (visitThrowStmt site typeInfo value) nesting s) ↔
      value.own = [] ∧ TakenAtOnce typeInfo nesting := by
  rcases value with ⟨value, _ | ⟨byte, own⟩⟩
  · rw [and_iff_right rfl]
    match nesting with
    | [] => exact iff_of_true ⟨_, mem_eval.mpr ⟨.single rfl, rfl⟩, .unhandled⟩ trivial
    | .tryExpr :: outer =>
      let frame : Frame := ⟨.tryExpr, (visitThrowStmt site typeInfo ⟨value, []⟩).error, true⟩
      have falls_back : (⟨entered outer, .fallback frame⟩ : State) ∈
          eval step (thrown (visitThrowStmt site typeInfo ⟨value, []⟩) (.tryExpr :: outer)) :=
        mem_eval.mpr ⟨.head rfl (.single rfl), rfl⟩
      exact iff_of_true ⟨_, falls_back, .fallback rfl⟩ trivial
    | .tryCatchStmt clauses :: outer =>
      refine ⟨?_, delivered_of_caught free⟩
      rintro ⟨s, ends, delivers⟩
      exact caught_of_delivered free ends delivers
  -- fields of its own do not fit where the error is copied to
  · refine iff_of_false ?_ fun taken => cons_ne_nil _ _ taken.1
    rintro ⟨s, ends, delivers⟩
    have stays : (⟨entered nesting, .overrun⟩ : State) ∈ eval step
        (thrown (visitThrowStmt site typeInfo ⟨value, byte :: own⟩) nesting) :=
      mem_eval.2 ⟨.refl, rfl⟩
    obtain rfl := Part.mem_unique ends stays
    exact delivers.point_ne.2 rfl

instance (names : List String) : Decidable (CollisionFree names) :=
  inferInstanceAs (Decidable (∀ a ∈ names, fnvHash a ≠ 0 ∧ ∀ b ∈ names, _ → a = b))

theorem app_error_delivered :
    let app := TypeInfo.child "AppError" (.root "Error")
    let nesting := [.tryCatchStmt [⟨some (.root "Other")⟩, ⟨some (.root "Error")⟩], .tryExpr]
    let err := visitThrowStmt ⟨"main.lc", 7, 8⟩ app ⟨⟨"custom error", "", 0, 0, 0, 0⟩, []⟩
    CollisionFree (namesInPlay app nesting) ∧
      ∃ s ∈ eval step (thrown err nesting), Delivers app err nesting s := by
  have free : CollisionFree (namesInPlay (.child "AppError" (.root "Error"))
      [.tryCatchStmt [⟨some (.root "Other")⟩, ⟨some (.root "Error")⟩], .tryExpr]) := by
    decide +kernel
  refine ⟨free, (delivered_iff _ _ _ _ free).mpr ⟨rfl, ⟨some (.root "Error")⟩, rfl, ?_⟩⟩
  exact .inr ⟨.root "Error", rfl, rfl⟩

/-- The inner `try` catches `AppError` only, the outer one `Error`: an `OtherError` comes to none. -/
theorem outer_clause_missed :
    let other := TypeInfo.child "OtherError" (.root "Error")
    let app := TypeInfo.child "AppError" (.root "Error")
    let nesting := [.tryCatchStmt [⟨some app⟩], .tryCatchStmt [⟨some (.root "Error")⟩]]
    let err := visitThrowStmt ⟨"main.lc", 7, 8⟩ other ⟨⟨"custom error", "", 0, 0, 0, 0⟩, []⟩
    CollisionFree (namesInPlay other nesting) ∧
      ¬∃ s ∈ eval step (thrown err nesting), Delivers other err nesting s := by
  refine ⟨by decide +kernel, ?_⟩
  rintro ⟨s, ends, _⟩
  refine unmatched_endless (cons_ne_nil _ _) ?_ s ends
  decide +kernel

end Main

end Lucis.ErrorDelivery
