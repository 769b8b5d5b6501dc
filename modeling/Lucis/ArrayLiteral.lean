import Lucis.Library.NestedLists

/-!
Array literals in checkers/Checker_type.cpp. An expression is an array literal or
another one; how the others are resolved, with which type, diagnostics and change of the
checker's state, is a parameter, and so is `isAssignable`. A literal compares the length
of its first element with those of the others, one level deep.
-/

namespace Lucis.ArrayLiteral

open NestedLists

inductive Diagnostic (Inner : Type) where
  | elementMismatch (expected got : String)
  | sizeMismatch (expected got : Nat)
  /-- from within an element that is not an array literal -/
  | inner (d : Inner)

def Diagnostic.text {Inner : Type} (innerText : Inner → String) : Diagnostic Inner → String
  | .elementMismatch expected got =>
    "array element type mismatch: expected '" ++ expected ++ "', got '" ++ got ++ "'"
  | .sizeMismatch expected got =>
    "nested array literal size mismatch: expected " ++ toString expected ++ ", got " ++ toString got
  | .inner d => innerText d

structure Resolved (Ty Inner State : Type) where
  type : Option Ty
  diagnostics : List (Diagnostic Inner)
  state : State

structure Checker (Other Ty Inner State : Type) where
  isAssignable : Ty → Ty → Bool
  typeName : Ty → String
  resolveOther : Other → State → Option Ty × List Inner × State

variable {Other Ty Inner State : Type}

abbrev Expression (Other : Type) := Nested Other

section Resolution

variable (checker : Checker Other Ty Inner State)

def typeMismatch (firstType elemType : Option Ty) : List (Diagnostic Inner) :=
  match firstType, elemType with
  | some first, some elem =>
    if checker.isAssignable first elem then []
    else [.elementMismatch (checker.typeName first) (checker.typeName elem)]
  | _, _ => []

/-- `innerA && innerB && innerA->expression().size() != innerB->expression().size()` -/
def lengthMismatch (first elem : Expression Other) : List (Diagnostic Inner) :=
  match first, elem with
  | .node innerA, .node innerB =>
    if innerA.length = innerB.length then [] else [.sizeMismatch innerA.length innerB.length]
  | _, _ => []

mutual

def resolveExprType : Expression Other → State → Resolved Ty Inner State
  | .leaf other, s =>
    let (type, diagnostics, s) := checker.resolveOther other s
    ⟨type, diagnostics.map .inner, s⟩
  | .node [], s => ⟨none, [], s⟩
  | .node (first :: rest), s =>
    let firstOut := resolveExprType first s
    let (diagnostics, s) := resolveRest first firstOut.type rest firstOut.state
    ⟨firstOut.type, firstOut.diagnostics ++ diagnostics, s⟩

def resolveRest (first : Expression Other) (firstType : Option Ty) :
    List (Expression Other) → State → List (Diagnostic Inner) × State
  | [], s => ([], s)
  | elem :: rest, s =>
    let elemOut := resolveExprType elem s
    let (diagnostics, s) := resolveRest first firstType rest elemOut.state
    (elemOut.diagnostics ++ typeMismatch checker firstType elemOut.type ++
      lengthMismatch first elem ++ diagnostics, s)

end

mutual

def resolveArrayLitDims : Expression Other → Nat
  | .leaf _ => 1
  | .node elements => if maxInner elements > 0 then maxInner elements + 1 else 1

def maxInner : List (Expression Other) → Nat
  | [] => 0
  | .leaf _ :: rest => maxInner rest
  | .node elements :: rest => max (resolveArrayLitDims (.node elements)) (maxInner rest)

end

end Resolution

section Reports

def RaggedFree (diagnostics : List (Diagnostic Inner)) : Prop :=
  ∀ expected got, .sizeMismatch expected got ∉ diagnostics

/-- In every literal, the elements that are literals are as long as the first one is, if
that is a literal. -/
inductive FirstsAgree : Expression Other → Prop where
  | leaf (other : Other) : FirstsAgree (.leaf other)
  | empty : FirstsAgree (.node [])
  | node {first : Expression Other} {rest : List (Expression Other)} (head : FirstsAgree first)
      (each : ∀ elem ∈ rest, FirstsAgree elem)
      (sizes : ∀ elem ∈ rest, first.isNode = true → elem.isNode = true →
        first.children.length = elem.children.length) : FirstsAgree (.node (first :: rest))

/-- What that comparison leaves out: in every literal the elements are literals all or none,
and further down, past their own lengths, the lengths along their first elements agree. -/
inductive LowerAgree : Expression Other → Prop where
  | leaf (other : Other) : LowerAgree (.leaf other)
  | empty : LowerAgree (.node [])
  | node {first : Expression Other} {rest : List (Expression Other)} (head : LowerAgree first)
      (each : ∀ elem ∈ rest, LowerAgree elem)
      (kinds : ∀ elem ∈ rest, elem.isNode = first.isNode)
      (below : ∀ elem ∈ rest, (Nested.spine elem).tail = (Nested.spine first).tail) :
      LowerAgree (.node (first :: rest))

theorem raggedFree_append (first second : List (Diagnostic Inner)) :
    RaggedFree (first ++ second) ↔ RaggedFree first ∧ RaggedFree second := by
  simp only [RaggedFree, List.mem_append, not_or]
  constructor
  · intro free
    exact ⟨fun expected got => (free expected got).1, fun expected got => (free expected got).2⟩
  · rintro ⟨free, free'⟩ expected got
    exact ⟨free expected got, free' expected got⟩

theorem typeMismatch_raggedFree (checker : Checker Other Ty Inner State)
    (firstType elemType : Option Ty) : RaggedFree (typeMismatch checker firstType elemType) := by
  intro expected got member
  unfold typeMismatch at member
  split at member
  · split at member <;> simp at member
  · cases member

theorem lengthMismatch_raggedFree (first elem : Expression Other) :
    RaggedFree (lengthMismatch first elem : List (Diagnostic Inner)) ↔
      (first.isNode = true → elem.isNode = true →
        first.children.length = elem.children.length) := by
  cases first with
  | leaf other => simp [lengthMismatch, RaggedFree, Nested.isNode]
  | node innerA =>
    cases elem with
    | leaf other => simp [lengthMismatch, RaggedFree, Nested.isNode]
    | node innerB =>
      by_cases same : innerA.length = innerB.length
      · simp [lengthMismatch, RaggedFree, Nested.children, same]
      · simp [lengthMismatch, RaggedFree, Nested.isNode, Nested.children, same]

variable (checker : Checker Other Ty Inner State)

mutual

theorem resolve_raggedFree (t : Expression Other) (s : State) :
    RaggedFree (resolveExprType checker t s).diagnostics ↔ FirstsAgree t := by
  match t with
  | .leaf other =>
    constructor
    · exact fun _ => .leaf other
    · intro _ expected got member
      simp [resolveExprType] at member
  | .node [] =>
    constructor
    · exact fun _ => .empty
    · intro _ expected got member
      cases member
  | .node (first :: rest) =>
    simp only [resolveExprType, raggedFree_append]
    rw [resolve_raggedFree first s, resolveRest_raggedFree first _ rest]
    constructor
    · rintro ⟨head, others⟩
      exact .node head (fun elem member => (others elem member).1)
        fun elem member => (others elem member).2
    · intro agree
      cases agree with
      | node head each sizes => exact ⟨head, fun elem member => ⟨each elem member, sizes elem member⟩⟩

theorem resolveRest_raggedFree (first : Expression Other) (firstType : Option Ty)
    (rest : List (Expression Other)) (s : State) :
    RaggedFree (resolveRest checker first firstType rest s).1 ↔
      ∀ elem ∈ rest, FirstsAgree elem ∧ (first.isNode = true → elem.isNode = true →
        first.children.length = elem.children.length) := by
  match rest with
  | [] => simp [resolveRest, RaggedFree]
  | elem :: rest =>
    -- of what an element adds, a mismatch of types says nothing about lengths
    simp only [resolveRest, raggedFree_append, List.forall_mem_cons]
    rw [resolve_raggedFree elem s, resolveRest_raggedFree first firstType rest,
      lengthMismatch_raggedFree]
    constructor
    · rintro ⟨⟨⟨agree, _⟩, size⟩, others⟩
      exact ⟨⟨agree, size⟩, others⟩
    · rintro ⟨⟨agree, size⟩, others⟩
      exact ⟨⟨⟨agree, typeMismatch_raggedFree checker _ _⟩, size⟩, others⟩

end

end Reports

section Dimensions

mutual

theorem dims_depth (elements : List (Expression Other)) :
    resolveArrayLitDims (.node elements) = Nested.depth (.node elements) := by
  rw [resolveArrayLitDims, Nested.depth, maxInner_depths elements]
  split <;> omega

theorem maxInner_depths (elements : List (Expression Other)) :
    maxInner elements = Nested.depths elements := by
  match elements with
  | [] => rfl
  | .leaf other :: rest => rw [maxInner, Nested.depths, maxInner_depths rest, Nested.depth, Nat.zero_max]
  | .node inner :: rest => rw [maxInner, Nested.depths, maxInner_depths rest, dims_depth inner]

end

end Dimensions

/-- What is promised of a literal: it is rectangular, and every leaf stands as deep as its
dimensions say. -/
def Rectangular (elements : List (Expression Other)) : Prop :=
  Nested.Rectangular (.node elements) ∧
    ∀ d other, Nested.leaf other ∈ Nested.level d (.node elements) →
      resolveArrayLitDims (.node elements) = d

theorem rectangular_iff_uniform (elements : List (Expression Other)) :
    Rectangular elements ↔ Nested.Uniform (.node elements) := by
  constructor
  · intro rectangular
    exact (Nested.rectangular_iff_uniform _).1 rectangular.1
  · intro uniform
    refine ⟨(Nested.rectangular_iff_uniform _).2 uniform, fun d other member => ?_⟩
    rw [dims_depth]
    exact uniform.leaf_depth member

theorem spine_eq {elem first : Expression Other} (kinds : elem.isNode = first.isNode)
    (sizes : first.isNode = true → elem.isNode = true →
      first.children.length = elem.children.length)
    (below : (Nested.spine elem).tail = (Nested.spine first).tail) :
    Nested.spine elem = Nested.spine first := by
  match elem, first with
  | .leaf _, .leaf _ => rfl
  | .leaf _, .node _ => cases kinds
  | .node _, .leaf _ => cases kinds
  | .node [], .node [] => rfl
  | .node [], .node (_ :: _) => cases sizes rfl rfl
  | .node (_ :: _), .node [] => cases sizes rfl rfl
  | .node (c :: cs), .node (e :: es) =>
    have same : es.length + 1 = cs.length + 1 := sizes rfl rfl
    simp only [Nested.spine, List.tail_cons] at below ⊢
    rw [same, below]

theorem uniform_of_agree {t : Expression Other} (firsts : FirstsAgree t) (lower : LowerAgree t) :
    Nested.Uniform t := by
  induction firsts with
  | leaf other => exact .leaf other
  | empty => exact .node (List.forall_mem_nil _) (List.forall_mem_nil _)
  | @node first rest _ _ sizes head_ih each_ih =>
    cases lower with
    | node head each kinds below =>
      have same : ∀ elem ∈ rest, Nested.spine elem = Nested.spine first := fun elem member =>
        spine_eq (kinds elem member) (sizes elem member) (below elem member)
      have of_first : ∀ elem ∈ first :: rest, Nested.spine elem = Nested.spine first :=
        List.forall_mem_cons.2 ⟨rfl, same⟩
      constructor
      · exact List.forall_mem_cons.2
          ⟨head_ih head, fun elem member => each_ih elem member (each elem member)⟩
      · exact fun c member e member' => (of_first c member).trans (of_first e member').symm

theorem lower_of_uniform {t : Expression Other} (uniform : Nested.Uniform t) : LowerAgree t := by
  induction uniform with
  | leaf other => exact .leaf other
  | @node elements each same ih =>
    cases elements with
    | nil => exact .empty
    | cons first rest =>
      have of_first : ∀ elem ∈ rest, Nested.spine elem = Nested.spine first :=
        fun elem member => same elem (.tail _ member) first (.head _)
      exact .node (ih first (.head _)) (fun elem member => ih elem (.tail _ member))
        (fun elem member => (Nested.spine_head (of_first elem member)).1)
        fun elem member => congrArg List.tail (of_first elem member)

/-- A literal without a ragged error is rectangular just if what the comparison leaves out
agrees in it too: no literal mixes literals with other elements, and the lengths further
down are the same. -/
theorem rectangular_iff (checker : Checker Other Ty Inner State)
    (elements : List (Expression Other)) (s : State) :
    (RaggedFree (resolveExprType checker (.node elements) s).diagnostics → Rectangular elements) ↔
      (FirstsAgree (.node elements) → LowerAgree (.node elements)) := by
  rw [resolve_raggedFree, rectangular_iff_uniform]
  constructor
  · exact fun uniform firsts => lower_of_uniform (uniform firsts)
  · exact fun lower firsts => uniform_of_agree firsts (lower firsts)

section Deep

def plain : Checker Int Unit Unit Unit where
  isAssignable _ _ := true
  typeName _ := "int32"
  resolveOther _ s := (some (), [], s)

def item (n : Int) : Expression Int := .leaf n

/-- `[[[1], [2]], [[1, 2], [3, 4]]]` and `[[1], 2]` -/
def deep : List (Expression Int) :=
  [.node [.node [item 1], .node [item 2]], .node [.node [item 1, item 2], .node [item 3, item 4]]]

def mixed : List (Expression Int) := [.node [item 1], item 2]

/-- Ragged two levels down, or an element beside a literal: nothing is reported. -/
theorem ragged_accepted :
    (resolveExprType plain (.node deep) ()).diagnostics = [] ∧ ¬ Rectangular deep ∧
    (resolveExprType plain (.node mixed) ()).diagnostics = [] ∧ ¬ Rectangular mixed := by
  constructor
  · simp [deep, item, resolveExprType, resolveRest, typeMismatch, lengthMismatch, plain]
  · constructor
    · intro rectangular
      have lengths := rectangular.1 2 (.node [item 1]) (by simp [deep, Nested.level, Nested.children])
        (.node [item 1, item 2]) (by simp [deep, Nested.level, Nested.children])
      simp [Nested.children] at lengths
    · constructor
      · simp [mixed, item, resolveExprType, resolveRest, typeMismatch, lengthMismatch, plain]
      · intro rectangular
        have kinds := rectangular.1 1 (.node [item 1]) (by simp [mixed, Nested.level, Nested.children])
          (item 2) (by simp [mixed, Nested.level, Nested.children])
        simp [Nested.isNode, item] at kinds

end Deep

end Lucis.ArrayLiteral
