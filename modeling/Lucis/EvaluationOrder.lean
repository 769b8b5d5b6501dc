import Lucis.Library.Parts
import Lucis.Library.Worlds
import Mathlib.Data.List.ReduceOption

/-!
In which order, and how often, the emitted code evaluates the parts of a variable
declaration, of an index, of `??` and `??=`, and of the arms of a match. An expression
counts by the calls in it; every call, test and `ret` is known by its place in the
source. Each form is visited as the code generator visits it, and is compared with what
the form demands, in every world.
-/

namespace Lucis.EvaluationOrder

open Worlds Parts Relation
open List hiding chain_cons

/-- The place of a call, a test or a `ret` in the source. -/
abbrev Site := Nat

section Source

/-- How `visitIndexExpr` gets at the element, by the type of the base. A base that is only a name is
`plain`, and slices are told apart by it. -/
inductive Place where
  | opIndex | map | vec | string | pointer | variadic | namedSlice | slice | array
  | arrayField | collectionField | invalid
  deriving DecidableEq

inductive DeclKind where
  | destructuring | auto | scalar | array | extended | mutex
  deriving DecidableEq

/- `plain` is a name or a literal. An `operation` is any other form that evaluates its operands once
and in their order, and a `ternary` any that evaluates a condition and then one of two. The indexes
of a chain `a[i][j]` stand together. A pattern has no test where it is a wildcard. -/
mutual

inductive Expr where
  | plain
  | call (site : Site) (operands : List Expr)
  | operation (operands : List Expr)
  | ternary (site : Site) (condition first second : Expr)
  | index (place : Place) (base first : Expr) (others : List Expr)
  | nullCoal (site : Site) (pointer default : Expr)
  | matching (subject : Expr) (arms : List Arm)

inductive Guard where
  | absent
  | present (site : Site) (condition : Expr)

inductive Body where
  | value (expr : Expr)
  | block (statements : List Stmt)

inductive Arm where
  | arm (pattern : Option Site) (guard : Guard) (body : Body)

inductive Stmt where
  | expr (expr : Expr)
  | ret (site : Site) (value : Option Expr)
  | varDecl (kind : DeclKind) (declarators : List (Option Expr))
  | nullCoalAssign (site : Site) (target : List Expr) (value : Expr)

end

end Source

section Emitted

def visitIndexExpr {α : Type} (place : Place) (base first : α) (others : List α) : List α :=
  match place with
  | .opIndex => [others.getLastD first, base]
  | .map | .vec | .string | .pointer | .variadic | .namedSlice | .invalid => [first, base]
  | .slice | .collectionField => [first, base, first]
  | .array => first :: base :: others
  | .arrayField => first :: base :: first :: others

/-- The last initializer is computed ahead of the loop over the declarators; in the loop, only the
arrays visit it again. -/
def visitVarDeclStmt {α : Type} (kind : DeclKind) (initializers : List α) : List α :=
  match kind with
  | .destructuring | .extended => initializers
  | .mutex => []
  | .auto | .scalar => initializers.getLast?.toList ++ initializers.dropLast
  | .array => initializers.getLast?.toList ++ initializers

/-- The default is visited for its type in the branch of the pointer that is not null. -/
def visitNullCoalExpr (site : Site) (pointer fallback : Code Site) : Code Site :=
  .seq pointer (.test site fallback fallback)

def visitNullCoalAssign (site : Site) (target : List (Code Site)) (value : Code Site) : Code Site :=
  .seq (.chain target) (.test site value value)

/-- The blocks of one arm; `next` is the block of the next one. -/
def matchArm (pattern : Option Site) (guarded : Code Site → Code Site) (next : Code Site) :
    Code Site :=
  match pattern with
  | none => guarded next
  | some site => .test site (guarded next) next

mutual

def Expr.visited : Expr → Code Site
  | .plain => .skip
  | .call site operands => .seq (.chain (Expr.visitedAll operands)) (.effect site)
  | .operation operands => .chain (Expr.visitedAll operands)
  | .ternary site condition first second =>
    .seq condition.visited (.test site first.visited second.visited)
  | .index place base first others =>
    .chain (visitIndexExpr place base.visited first.visited (Expr.visitedAll others))
  | .nullCoal site pointer default => visitNullCoalExpr site pointer.visited default.visited
  | .matching subject arms => .seq subject.visited (Arm.visitedAll arms)

def Expr.visitedAll : List Expr → List (Code Site)
  | [] => []
  | expr :: rest => expr.visited :: Expr.visitedAll rest

def Expr.visitedInit : Option Expr → List (Code Site)
  | none => []
  | some expr => [expr.visited]

def Expr.visitedInits : List (Option Expr) → List (Code Site)
  | [] => []
  | declarator :: rest => Expr.visitedInit declarator ++ Expr.visitedInits rest

def Guard.visited : Guard → Code Site → Code Site → Code Site
  | .absent, body, _ => body
  | .present site condition, body, next => .seq condition.visited (.test site body next)

def Body.visited : Body → Code Site
  | .value expr => expr.visited
  | .block statements => .chain (Stmt.visitedBlock statements)

/-- The value of the last statement is visited for the result; a `ret` is then visited as well. -/
def Stmt.visitedBlock : List Stmt → List (Code Site)
  | [] => []
  | [statement] => statement.visitedValue ++ [statement.visited]
  | statement :: next :: rest => statement.visited :: Stmt.visitedBlock (next :: rest)

def Stmt.visitedValue : Stmt → List (Code Site)
  | .ret _ value => Expr.visitedInit value
  | _ => []

def Arm.visitedAll : List Arm → Code Site
  | [] => .skip
  | .arm pattern guard body :: rest =>
    matchArm pattern (guard.visited body.visited) (Arm.visitedAll rest)

def Stmt.visited : Stmt → Code Site
  | .expr expr => expr.visited
  | .ret site value => .seq (.chain (Expr.visitedInit value)) (.leave site)
  | .varDecl kind declarators => .chain (visitVarDeclStmt kind (Expr.visitedInits declarators))
  | .nullCoalAssign site target value =>
    visitNullCoalAssign site (Expr.visitedAll target) value.visited

end

end Emitted

section Demanded

/- What the language asks for: every part once, from the left to the right, and the default only
where there is no value. -/
mutual

def Expr.demanded : Expr → Code Site
  | .plain => .skip
  | .call site operands => .seq (.chain (Expr.demandedAll operands)) (.effect site)
  | .operation operands => .chain (Expr.demandedAll operands)
  | .ternary site condition first second =>
    .seq condition.demanded (.test site first.demanded second.demanded)
  | .index _ base first others =>
    .chain (base.demanded :: first.demanded :: Expr.demandedAll others)
  | .nullCoal site pointer default =>
    .seq pointer.demanded (.test site .skip default.demanded)
  | .matching subject arms => .seq subject.demanded (Arm.demandedAll arms)

def Expr.demandedAll : List Expr → List (Code Site)
  | [] => []
  | expr :: rest => expr.demanded :: Expr.demandedAll rest

def Expr.demandedInit : Option Expr → List (Code Site)
  | none => []
  | some expr => [expr.demanded]

def Expr.demandedInits : List (Option Expr) → List (Code Site)
  | [] => []
  | declarator :: rest => Expr.demandedInit declarator ++ Expr.demandedInits rest

def Guard.demanded : Guard → Code Site → Code Site → Code Site
  | .absent, body, _ => body
  | .present site condition, body, next => .seq condition.demanded (.test site body next)

def Body.demanded : Body → Code Site
  | .value expr => expr.demanded
  | .block statements => .chain (Stmt.demandedAll statements)

def Stmt.demandedAll : List Stmt → List (Code Site)
  | [] => []
  | statement :: rest => statement.demanded :: Stmt.demandedAll rest

def Arm.demandedAll : List Arm → Code Site
  | [] => .skip
  | .arm pattern guard body :: rest =>
    matchArm pattern (guard.demanded body.demanded) (Arm.demandedAll rest)

def Stmt.demanded : Stmt → Code Site
  | .expr expr => expr.demanded
  | .ret site value => .seq (.chain (Expr.demandedInit value)) (.leave site)
  | .varDecl _ declarators => .chain (Expr.demandedInits declarators)
  | .nullCoalAssign site target value =>
    .seq (.chain (Expr.demandedAll target)) (.test site .skip value.demanded)

end

end Demanded

section Forms

inductive Form where
  | expr (expr : Expr)
  | body (body : Body)
  | stmt (stmt : Stmt)

def Form.visited : Form → Code Site
  | .expr inner => inner.visited
  | .body inner => inner.visited
  | .stmt inner => inner.visited

def Form.demanded : Form → Code Site
  | .expr inner => inner.demanded
  | .body inner => inner.demanded
  | .stmt inner => inner.demanded

def Guard.parts : Guard → List Form
  | .absent => []
  | .present _ condition => [.expr condition]

def Arm.parts : Arm → List Form
  | .arm _ guard body => guard.parts ++ [.body body]

def Form.parts : Form → List Form
  | .expr .plain => []
  | .expr (.call _ operands) | .expr (.operation operands) => operands.map .expr
  | .expr (.ternary _ condition first second) => [.expr condition, .expr first, .expr second]
  | .expr (.index _ base first others) => .expr base :: .expr first :: others.map .expr
  | .expr (.nullCoal _ pointer default) => [.expr pointer, .expr default]
  | .expr (.matching subject arms) => .expr subject :: arms.flatMap Arm.parts
  | .body (.value inner) => [.expr inner]
  | .body (.block statements) => statements.map .stmt
  | .stmt (.expr inner) => [.expr inner]
  | .stmt (.ret _ value) => value.toList.map .expr
  | .stmt (.varDecl _ declarators) => declarators.reduceOption.map .expr
  | .stmt (.nullCoalAssign _ target value) => target.map .expr ++ [.expr value]

/-- The arms behind a wildcard arm are forms inside as well, though no evaluation gets there. -/
def InOrder (form : Form) : Prop :=
  ∀ part, Inside Form.parts part form → Same part.visited part.demanded

end Forms

section Kept

/-- What the index does not keep in its order, or does again, or leaves out, has no effect. -/
def IndexKept (place : Place) (base first : Code Site) (others : List (Code Site)) : Prop :=
  match place with
  | .opIndex => (Silent (others.getLastD first) ∨ Silent base) ∧
      (Ends base → ∀ index ∈ (first :: others).dropLast, Silent index)
  | .map | .vec | .string | .pointer | .variadic | .namedSlice | .invalid =>
    (Silent first ∨ Silent base) ∧ (Ends (.seq base first) → ∀ index ∈ others, Silent index)
  | .slice | .collectionField => (Silent first ∨ Silent base) ∧ Idle first ∧
      (Ends (.seq base first) → ∀ index ∈ others, Silent index)
  | .array => Silent first ∨ Silent base
  | .arrayField => (Silent first ∨ Silent base) ∧ Idle first

def VarDeclKept (kind : DeclKind) (initializers : List (Code Site)) : Prop :=
  match kind with
  | .destructuring | .extended => True
  | .mutex => ∀ code ∈ initializers, Silent code
  | .auto | .scalar => ∀ last ∈ initializers.getLast?,
      Silent last ∨ ∀ code ∈ initializers.dropLast, Silent code
  | .array => ∀ last ∈ initializers.getLast?,
      (Silent last ∨ ∀ code ∈ initializers.dropLast, Silent code) ∧ Idle last

def BlockKept (statements : List Stmt) : Prop :=
  match statements.getLast? with
  | some (.ret _ (some value)) =>
    Ends (.chain (Stmt.demandedAll statements.dropLast)) → Idle value.demanded
  | _ => True

def Form.Kept : Form → Prop
  | .expr (.index place base first others) =>
    IndexKept place base.demanded first.demanded (Expr.demandedAll others)
  | .expr (.nullCoal _ pointer default) => Ends pointer.demanded → Silent default.demanded
  | .body (.block statements) => BlockKept statements
  | .stmt (.varDecl kind declarators) => VarDeclKept kind (Expr.demandedInits declarators)
  | .stmt (.nullCoalAssign _ target value) =>
    Ends (.chain (Expr.demandedAll target)) → Silent value.demanded
  | _ => True

variable {base first : Code Site} {others initializers : List (Code Site)}

theorem operator_same_iff (linear : Linear (.chain (base :: first :: others))) :
    Same (.chain (visitIndexExpr .opIndex base first others)) (.chain (base :: first :: others)) ↔
      IndexKept .opIndex base first others := by
  obtain ⟨front, last, whole⟩ : ∃ front last, first :: others = front ++ [last] :=
    ⟨_, _, (dropLast_append_getLast (cons_ne_nil first others)).symm⟩
  have outermost : others.getLastD first = last := by
    have through : (first :: others).getLastD first = last := by
      rw [whole, getLastD_concat]
    rwa [getLastD_cons] at through
  simp only [IndexKept, visitIndexExpr, outermost, whole, dropLast_concat, ← silent_chain]
  rw [whole, chain_cons] at linear
  obtain ⟨linear_base, linear_indexes, apart⟩ := linear
  obtain ⟨linear_front, linear_last, apart_last⟩ := linear_chain_append.1 linear_indexes
  rw [names_chain_append] at apart
  obtain ⟨apart_front, apart_base⟩ := disjoint_append_right.1 apart
  have lone : names (.chain [last]) = names last := append_nil _
  rw [lone] at apart_last apart_base
  have skipped := skipped_same_iff linear_base linear_front linear_last.1 apart_base apart_front
    (disjoint_symm apart_last)
  have split : Same (.chain (base :: (front ++ [last])))
      (.seq base (.seq (.chain front) (.seq last .skip))) :=
    (Same.refl base).seq (same_chain_append front [last])
  exact ⟨fun same => skipped.1 (same.trans split), fun kept => (skipped.2 kept).trans split.symm⟩

theorem index_same_iff (place : Place) (linear : Linear (.chain (base :: first :: others))) :
    Same (.chain (visitIndexExpr place base first others)) (.chain (base :: first :: others)) ↔
      IndexKept place base first others := by
  have ⟨linear_base, ⟨linear_first, linear_others, apart_others⟩, apart⟩ := linear
  obtain ⟨apart_first, apart_base⟩ := disjoint_append_right.1 apart
  have linear_front : Linear (.seq base first) := ⟨linear_base, linear_first, apart_first⟩
  have apart_front : (names (.seq base first)).Disjoint (names (.chain others)) :=
    disjoint_append_left.2 ⟨apart_base, apart_others⟩
  -- the indices behind the first, where they are left out
  have dropped : ∀ code, (names code).Disjoint (names (.chain others)) →
      (Same code (.chain (base :: first :: others)) ↔
        Same code (.seq base (.seq first .skip)) ∧
          (Ends (.seq base first) → ∀ index ∈ others, Silent index)) := by
    intro code apart
    rw [← silent_chain]
    have apart_code := dropped_same_iff linear_front linear_others apart_front apart
    have whole : Same (.chain (base :: first :: others)) (.seq (.seq base first) (.chain others)) :=
      (same_assoc _ _ _).symm
    have front : Same (.seq base (.seq first .skip)) (.seq base first) :=
      (Same.refl base).seq (same_skip first)
    constructor
    · intro same
      obtain ⟨short, silent⟩ := apart_code.1 (same.trans whole)
      exact ⟨short.trans front.symm, silent⟩
    · rintro ⟨short, silent⟩
      exact (apart_code.2 ⟨short.trans front, silent⟩).trans whole.symm
  cases place with
  | opIndex => exact operator_same_iff linear
  | map | vec | string | pointer | variadic | namedSlice | invalid =>
    apply (dropped _ _).trans (and_congr_left fun _ =>
      swap_same_iff linear_base linear_first apart_first _)
    simp only [names, append_nil]
    exact disjoint_append_left.2 ⟨apart_others, apart_base⟩
  | slice | collectionField =>
    have kept := again_same_iff linear_base linear_first apart_first .skip
    refine (dropped _ ?_).trans ((and_congr_left fun _ => kept).trans and_assoc)
    simp only [visitIndexExpr, chain_cons, chain_nil, names, append_nil]
    exact disjoint_append_left.mpr
      ⟨apart_others, disjoint_append_left.2 ⟨apart_base, apart_others⟩⟩
  | array => exact swap_same_iff linear_base linear_first apart_first _
  | arrayField => exact again_same_iff linear_base linear_first apart_first _

theorem varDecl_same_iff (kind : DeclKind) (linear : Linear (.chain initializers)) :
    Same (.chain (visitVarDeclStmt kind initializers)) (.chain initializers) ↔
      VarDeclKept kind initializers := by
  rcases eq_nil_or_concat' initializers with none | ⟨front, last, whole⟩
  · subst none
    cases kind <;> simp [visitVarDeclStmt, VarDeclKept, Same.refl]
  subst whole
  obtain ⟨linear_front, linear_last, apart⟩ := linear_chain_append.1 linear
  have lone : names (.chain [last]) = names last := append_nil _
  rw [lone] at apart
  have split : Same (.chain (front ++ [last])) (.seq (.chain front) (.seq last .skip)) :=
    same_chain_append front [last]
  have swapped := swap_same_iff linear_front linear_last.1 apart .skip
  have again := again_same_iff linear_front linear_last.1 apart .skip
  cases kind with
  | destructuring | extended => exact iff_of_true (.refl _) trivial
  | mutex =>
    simp only [visitVarDeclStmt, VarDeclKept, ← silent_chain]
    exact ⟨fun same => silent_skip.of_same same, fun silent world past => (silent world past).symm⟩
  | auto | scalar =>
    simp only [visitVarDeclStmt, VarDeclKept, getLast?_concat, dropLast_concat,
      Option.mem_some_iff, forall_eq', ← silent_chain]
    have begun : Same (.chain (last :: front)) (.seq last (.seq (.chain front) .skip)) :=
      (Same.refl last).seq (same_skip _).symm
    rw [← swapped]
    exact ⟨fun same => begun.symm.trans (same.trans split),
      fun same => begun.trans (same.trans split.symm)⟩
  | array =>
    simp only [visitVarDeclStmt, VarDeclKept, getLast?_concat, dropLast_concat,
      Option.mem_some_iff, forall_eq', ← silent_chain]
    have begun : Same (.chain (last :: (front ++ [last])))
        (.seq last (.seq (.chain front) (.seq last .skip))) := (Same.refl last).seq split
    rw [← again]
    exact ⟨fun same => begun.symm.trans (same.trans split),
      fun same => begun.trans (same.trans split.symm)⟩

end Kept

section Compared

variable (exprs : List Expr)

theorem visitedAll_eq : Expr.visitedAll exprs = exprs.map Expr.visited := by
  induction exprs with
  | nil => rfl
  | cons expr rest ih => rw [Expr.visitedAll, ih, map_cons]

theorem demandedAll_eq : Expr.demandedAll exprs = exprs.map Expr.demanded := by
  induction exprs with
  | nil => rfl
  | cons expr rest ih => rw [Expr.demandedAll, ih, map_cons]

variable (value : Option Expr)

theorem visitedInit_eq :
    Expr.visitedInit value = value.toList.map Expr.visited := by
  cases value <;> rfl

theorem demandedInit_eq :
    Expr.demandedInit value = value.toList.map Expr.demanded := by
  cases value <;> rfl

variable (declarators : List (Option Expr))

theorem visitedInits_eq :
    Expr.visitedInits declarators = declarators.reduceOption.map Expr.visited := by
  induction declarators with
  | nil => rfl
  | cons declarator rest ih =>
    cases declarator with
    | none => exact ih
    | some expr => exact congrArg _ ih

theorem demandedInits_eq :
    Expr.demandedInits declarators = declarators.reduceOption.map Expr.demanded := by
  induction declarators with
  | nil => rfl
  | cons declarator rest ih =>
    cases declarator with
    | none => exact ih
    | some expr => exact congrArg _ ih

theorem demandedStmts_eq (statements : List Stmt) :
    Stmt.demandedAll statements = statements.map Stmt.demanded := by
  induction statements with
  | nil => rfl
  | cons statement rest ih => rw [Stmt.demandedAll, ih, map_cons]

/-- What is visited in a block is visited in its order, and the value of a last `ret` besides. -/
theorem visitedBlock_concat (front : List Stmt) (last : Stmt) :
    Stmt.visitedBlock (front ++ [last]) =
      front.map Stmt.visited ++ (last.visitedValue ++ [last.visited]) := by
  induction front with
  | nil => rfl
  | cons statement front ih =>
    cases front with
    | nil => rfl
    | cons next rest => exact congrArg (statement.visited :: ·) ih

section Children

variable {α β : Type} (visit : α → β)

theorem visitIndexExpr_map (place : Place) (base first : α) (others : List α) :
    visitIndexExpr place (visit base) (visit first) (others.map visit) =
      (visitIndexExpr place base first others).map visit := by
  cases place <;> simp only [visitIndexExpr, map_cons, map_nil, getLastD_map]

theorem visitVarDeclStmt_map (kind : DeclKind) (initializers : List α) :
    visitVarDeclStmt kind (initializers.map visit) =
      (visitVarDeclStmt kind initializers).map visit := by
  have last : (initializers.map visit).getLast?.toList = initializers.getLast?.toList.map visit := by
    rw [getLast?_map]
    cases initializers.getLast? <;> rfl
  cases kind <;> simp only [visitVarDeclStmt, last, map_append, map_dropLast, map_nil]

theorem visitIndexExpr_mem {place : Place} {base first child : α} {others : List α}
    (visited : child ∈ visitIndexExpr place base first others) : child ∈ base :: first :: others := by
  have last : others.getLastD first ∈ first :: others := getLastD_mem_cons
  cases place <;> simp only [visitIndexExpr, mem_cons, not_mem_nil, or_false] at * <;> grind

theorem visitVarDeclStmt_mem {kind : DeclKind} {child : α} {initializers : List α}
    (visited : child ∈ visitVarDeclStmt kind initializers) : child ∈ initializers := by
  have last : child ∈ initializers.getLast?.toList → child ∈ initializers := fun member =>
    mem_of_getLast? (Option.mem_toList.1 member)
  cases kind with
  | destructuring | extended => exact visited
  | mutex => exact absurd visited not_mem_nil
  | auto | scalar => exact (mem_append.1 visited).elim last fun member =>
    List.dropLast_subset _ member
  | array => exact (mem_append.1 visited).elim last id

end Children

section Parts

theorem guard_same {guard : Guard} (each : ∀ part ∈ guard.parts, Same part.visited part.demanded)
    {body body' next next' : Code Site} (same : Same body body') (later : Same next next') :
    Same (guard.visited body next) (guard.demanded body' next') := by
  cases guard with
  | absent => exact same
  | present site condition =>
    exact (each (.expr condition) (.head _)).seq (same.test site later)

theorem arms_same {arms : List Arm}
    (each : ∀ part ∈ arms.flatMap Arm.parts, Same part.visited part.demanded) :
    Same (Arm.visitedAll arms) (Arm.demandedAll arms) := by
  induction arms with
  | nil => exact .refl _
  | cons arm rest ih =>
    obtain ⟨pattern, guard, body⟩ := arm
    rw [flatMap_cons, forall_mem_append] at each
    obtain ⟨here, later⟩ := each
    obtain ⟨in_guard, in_body⟩ := forall_mem_append.1 here
    have next := ih later
    have taken := guard_same in_guard (in_body (.body body) (.head _)) next
    cases pattern with
    | none => exact taken
    | some site => exact taken.test site next

theorem block_same_iff {statements : List Stmt}
    (each : ∀ statement ∈ statements, Same statement.visited statement.demanded)
    (value : ∀ site expr, .ret site (some expr) ∈ statements → Same expr.visited expr.demanded)
    (linear : Linear (.chain (Stmt.demandedAll statements))) :
    Same (.chain (Stmt.visitedBlock statements)) (.chain (Stmt.demandedAll statements)) ↔
      BlockKept statements := by
  rcases eq_nil_or_concat' statements with none | ⟨front, last, whole⟩
  · subst none
    exact iff_of_true (.refl _) trivial
  subst whole
  rw [forall_mem_append] at each
  have early : Same (.chain (front.map Stmt.visited)) (.chain (front.map Stmt.demanded)) :=
    same_chain each.1
  have late := each.2 last (.head _)
  rw [demandedStmts_eq, map_append] at linear
  have demanded : Same (.chain (Stmt.demandedAll (front ++ [last])))
      (.seq (.chain (front.map Stmt.demanded)) (.chain [last.demanded])) := by
    rw [demandedStmts_eq, map_append]
    exact same_chain_append _ _
  have visited : Same (.chain (Stmt.visitedBlock (front ++ [last])))
      (.seq (.chain (front.map Stmt.demanded)) (.chain (last.visitedValue ++ [last.demanded]))) := by
    rw [visitedBlock_concat]
    refine (same_chain_append _ _).trans (early.seq ?_)
    refine (same_chain_append _ _).trans (.trans ?_ (same_chain_append _ _).symm)
    exact (Same.refl _).seq (late.seq (.refl _))
  have nothing_again : last.visitedValue = [] →
      Same (.chain (Stmt.visitedBlock (front ++ [last])))
        (.chain (Stmt.demandedAll (front ++ [last]))) := by
    intro none
    rw [none] at visited
    exact visited.trans demanded.symm
  simp only [BlockKept, getLast?_concat, dropLast_concat]
  cases last with
  | ret site returned =>
    cases returned with
    | none => exact iff_of_true (nothing_again rfl) trivial
    | some expr =>
      have returning : Same (.chain [(Stmt.ret site (some expr)).demanded])
          (.seq expr.demanded (.leave site)) :=
        (same_skip _).trans ((same_skip _).seq (.refl _))
      have again : Same (.chain ((Stmt.ret site (some expr)).visitedValue ++
          [(Stmt.ret site (some expr)).demanded]))
          (.seq expr.demanded (.seq expr.demanded (.leave site))) :=
        (value site expr (mem_append_right _ (.head _))).seq returning
      obtain ⟨linear_front, linear_last, apart⟩ := linear_chain_append.1 linear
      have apart_value : (names (.chain (front.map Stmt.demanded))).Disjoint
          (names expr.demanded) := fun place member inside => apart member
        (mem_append_left _ (mem_append_left _ (mem_append_left _ inside)))
      have twice := twice_same_iff linear_front linear_last.1.1.1 apart_value (.leave site)
      rw [← demandedStmts_eq front] at twice visited demanded
      refine Iff.trans ?_ twice
      have one := visited.trans ((Same.refl _).seq again)
      have other := demanded.trans ((Same.refl _).seq returning)
      exact ⟨fun same => one.symm.trans (same.trans other),
        fun same => one.trans (same.trans other.symm)⟩
  | _ => exact iff_of_true (nothing_again rfl) trivial

variable {form : Form}

/-- A form does what it demands just if it is `Kept`, where all that is inside it does. -/
theorem form_same_iff (linear : Linear form.demanded)
    (inside : ∀ part, TransGen (Part Form.parts) part form → Same part.visited part.demanded) :
    Same form.visited form.demanded ↔ form.Kept := by
  have each : ∀ part ∈ form.parts, Same part.visited part.demanded :=
    fun part member => inside part (.single member)
  cases form with
  | expr inner =>
    cases inner with
    | plain => exact iff_of_true (.refl _) trivial
    | call site operands =>
      refine iff_of_true (Same.seq ?_ (.refl _)) trivial
      rw [visitedAll_eq, demandedAll_eq]
      exact same_chain fun expr member => each (.expr expr) (List.mem_map_of_mem member)
    | operation operands =>
      refine iff_of_true ?_ trivial
      change Same (.chain (Expr.visitedAll operands)) (.chain (Expr.demandedAll operands))
      rw [visitedAll_eq, demandedAll_eq]
      exact same_chain fun expr member => each (.expr expr) (List.mem_map_of_mem member)
    | ternary site condition first second =>
      simp only [Form.parts, forall_mem_cons] at each
      obtain ⟨tested, one, other, _⟩ := each
      exact iff_of_true (Same.seq tested (one.test site other)) trivial
    | index place base first others =>
      have children : ∀ expr ∈ visitIndexExpr place base first others,
          Same expr.visited expr.demanded := by
        intro expr member
        have listed : Form.expr expr ∈ (base :: first :: others).map Form.expr :=
          List.mem_map_of_mem (visitIndexExpr_mem member)
        exact each (.expr expr) listed
      have kept := index_same_iff place linear
      have same := same_chain children
      rw [← visitIndexExpr_map, ← visitIndexExpr_map, ← visitedAll_eq, ← demandedAll_eq] at same
      exact ⟨fun whole => kept.1 (same.symm.trans whole),
        fun order => same.trans (kept.2 order)⟩
    | nullCoal site pointer default =>
      simp only [Form.parts, forall_mem_cons] at each
      obtain ⟨tested, fallback, _⟩ := each
      have kept := branch_same_iff linear
      have same : Same (Form.expr (.nullCoal site pointer default)).visited
          (visitNullCoalExpr site pointer.demanded default.demanded) :=
        Same.seq tested (Same.test site fallback fallback)
      exact ⟨fun whole => kept.1 (same.symm.trans whole),
        fun order => same.trans (kept.2 order)⟩
    | matching subject arms =>
      rw [Form.parts, forall_mem_cons] at each
      exact iff_of_true (Same.seq each.1 (arms_same each.2)) trivial
  | body inner =>
    cases inner with
    | value expr => exact iff_of_true (each (.expr expr) (.head _)) trivial
    | block statements =>
      have statements_same : ∀ statement ∈ statements,
          Same statement.visited statement.demanded := fun statement member =>
        each (.stmt statement) (List.mem_map_of_mem member)
      refine block_same_iff statements_same (fun site expr member => ?_) linear
      have returned : Part Form.parts (.expr expr) (.stmt (.ret site (some expr))) :=
        (.head _)
      exact inside (.expr expr) (.tail (.single returned) (List.mem_map_of_mem member))
  | stmt inner =>
    cases inner with
    | expr expr => exact iff_of_true (each (.expr expr) (.head _)) trivial
    | ret site value =>
      refine iff_of_true (Same.seq ?_ (.refl _)) trivial
      rw [visitedInit_eq, demandedInit_eq]
      exact same_chain fun expr member => each (.expr expr) (List.mem_map_of_mem member)
    | varDecl kind declarators =>
      have children : ∀ expr ∈ visitVarDeclStmt kind declarators.reduceOption,
          Same expr.visited expr.demanded := fun expr member =>
        each (.expr expr) (List.mem_map_of_mem (visitVarDeclStmt_mem member))
      have kept := varDecl_same_iff kind linear
      have same := same_chain children
      rw [← visitVarDeclStmt_map, ← visitVarDeclStmt_map, ← visitedInits_eq,
        ← demandedInits_eq] at same
      exact ⟨fun whole => kept.1 (same.symm.trans whole),
        fun order => same.trans (kept.2 order)⟩
    | nullCoalAssign site target value =>
      rw [Form.parts, forall_mem_append] at each
      have written := each.2 (.expr value) (.head _)
      have targets : Same (.chain (Expr.visitedAll target))
          (.chain (Expr.demandedAll target)) := by
        rw [visitedAll_eq, demandedAll_eq]
        exact same_chain fun expr member => each.1 (.expr expr) (List.mem_map_of_mem member)
      have kept := branch_same_iff linear
      have same : Same (Form.stmt (.nullCoalAssign site target value)).visited
          (visitNullCoalAssign site (Expr.demandedAll target) value.demanded) :=
        Same.seq targets (Same.test site written written)
      exact ⟨fun whole => kept.1 (same.symm.trans whole),
        fun order => same.trans (kept.2 order)⟩

variable {part : Form}

theorem size_arms {arms : List Arm} (member : part ∈ arms.flatMap Arm.parts) :
    sizeOf part < 1 + sizeOf arms := by
  obtain ⟨⟨pattern, guard, body⟩, listed, within⟩ := mem_flatMap.1 member
  have below := sizeOf_lt_of_mem listed
  cases guard <;> simp only [Arm.parts, Guard.parts, nil_append, cons_append,
    mem_cons, not_mem_nil, or_false] at within <;> grind

theorem size_exprs {exprs : List Expr} (member : part ∈ exprs.map Form.expr) :
    sizeOf part < 1 + sizeOf exprs := by
  obtain ⟨expr, listed, rfl⟩ := List.mem_map.1 member
  have below := sizeOf_lt_of_mem listed
  simp only [Form.expr.sizeOf_spec]
  omega

theorem size_part (member : part ∈ form.parts) : sizeOf part < sizeOf form := by
  cases form with
  | expr inner =>
    cases inner with
    | plain => exact absurd member not_mem_nil
    | call site operands =>
      have below := size_exprs member
      simp only [Form.expr.sizeOf_spec, Expr.call.sizeOf_spec]
      omega
    | operation operands =>
      have below := size_exprs member
      simp only [Form.expr.sizeOf_spec, Expr.operation.sizeOf_spec]
      omega
    | ternary site condition first second =>
      simp only [Form.parts, mem_cons, not_mem_nil, or_false] at member
      rcases member with rfl | rfl | rfl <;>
        simp only [Form.expr.sizeOf_spec, Expr.ternary.sizeOf_spec] <;> omega
    | index place base first others =>
      simp only [Form.parts, mem_cons] at member
      simp only [Form.expr.sizeOf_spec, Expr.index.sizeOf_spec]
      rcases member with rfl | rfl | later
      · simp only [Form.expr.sizeOf_spec]
        omega
      · simp only [Form.expr.sizeOf_spec]
        omega
      · have below := size_exprs later
        omega
    | nullCoal site pointer default =>
      simp only [Form.parts, mem_cons, not_mem_nil, or_false] at member
      rcases member with rfl | rfl <;>
        simp only [Form.expr.sizeOf_spec, Expr.nullCoal.sizeOf_spec] <;> omega
    | matching subject arms =>
      simp only [Form.parts, mem_cons] at member
      simp only [Form.expr.sizeOf_spec, Expr.matching.sizeOf_spec]
      rcases member with rfl | later
      · simp only [Form.expr.sizeOf_spec]
        omega
      · have below := size_arms later
        omega
  | body inner =>
    cases inner with
    | value expr =>
      rw [mem_singleton.1 member]
      simp only [Form.expr.sizeOf_spec, Form.body.sizeOf_spec, Body.value.sizeOf_spec]
      omega
    | block statements =>
      obtain ⟨statement, listed, rfl⟩ := List.mem_map.1 member
      have below := sizeOf_lt_of_mem listed
      simp only [Form.stmt.sizeOf_spec, Form.body.sizeOf_spec, Body.block.sizeOf_spec]
      omega
  | stmt inner =>
    cases inner with
    | expr expr =>
      rw [mem_singleton.1 member]
      simp only [Form.expr.sizeOf_spec, Form.stmt.sizeOf_spec, Stmt.expr.sizeOf_spec]
      omega
    | ret site value =>
      cases value with
      | none => exact absurd member not_mem_nil
      | some expr =>
        rw [mem_singleton.1 member]
        simp only [Form.expr.sizeOf_spec, Form.stmt.sizeOf_spec, Stmt.ret.sizeOf_spec,
          Option.some.sizeOf_spec]
        omega
    | varDecl kind declarators =>
      obtain ⟨expr, listed, rfl⟩ := List.mem_map.1 member
      have below := sizeOf_lt_of_mem (reduceOption_mem_iff.1 listed)
      simp only [Option.some.sizeOf_spec] at below
      simp only [Form.expr.sizeOf_spec, Form.stmt.sizeOf_spec, Stmt.varDecl.sizeOf_spec]
      omega
    | nullCoalAssign site target value =>
      simp only [Form.stmt.sizeOf_spec, Stmt.nullCoalAssign.sizeOf_spec]
      rcases mem_append.1 member with early | late
      · have below := size_exprs early
        omega
      · rw [mem_singleton.1 late, Form.expr.sizeOf_spec]
        omega

theorem parts_grounded : Grounded Form.parts :=
  grounded_of_size sizeOf fun _ _ => size_part

end Parts

structure Source where
  form : Form
  placed : ∀ part, Inside Form.parts part form → Linear part.demanded

/-- Emitted code evaluates in order just where every form inside is `Kept`. -/
theorem evaluated_in_order_iff (source : Source) :
    InOrder source.form ↔ ∀ form, Inside Form.parts form source.form → form.Kept := by
  constructor
  · intro ordered form inside
    refine (form_same_iff (source.placed form inside) fun part within => ?_).mp (ordered form inside)
    exact ordered part (within.to_reflTransGen.trans inside)
  · intro kept form
    induction form using parts_grounded.transGen.induction with
    | _ form ih =>
      intro inside
      refine (form_same_iff (source.placed form inside) fun part within => ?_).mpr (kept form inside)
      exact ih part within (within.to_reflTransGen.trans inside)

/-- `pointer ?? next()`. -/
def fallback : Source where
  form := .expr (.nullCoal 0 .plain (.call 1 []))
  placed := by
    intro part inside
    rcases ReflTransGen.cases_tail inside with rfl | ⟨middle, within, direct⟩
    · simp [Form.demanded, Expr.demanded, Expr.demandedAll, Linear, names]
    · simp only [Parts.Part, Form.parts, List.mem_cons, List.not_mem_nil, or_false] at direct
      rcases direct with rfl | rfl <;>
        rcases ReflTransGen.cases_tail within with rfl | ⟨_, _, deeper⟩
      · exact trivial
      · exact absurd deeper List.not_mem_nil
      · exact ⟨trivial, trivial, List.disjoint_nil_left _⟩
      · exact absurd deeper List.not_mem_nil

theorem fallback_evaluated : ¬ ∀ source : Source, InOrder source.form := by
  intro ordered
  -- the pointer is not null
  let world : World Site := ⟨fun _ _ => true, fun _ _ => true⟩
  have called : run world fallback.form.visited [] = ([1], true) := rfl
  have demanded : run world fallback.form.demanded [] = ([], true) := rfl
  have same := ordered fallback fallback.form .refl world []
  rw [called, demanded] at same
  exact absurd same nofun

end Compared

end Lucis.EvaluationOrder
