import Mathlib.Data.List.Induction
import Lucis.SemanticDB

/-!
How extend blocks come to their structs in semantic/SemanticDB.cpp, whatever the order of the
calls that declare, register and extend. Here the store has the tables that are not saved, and a
declaration has the address at which the index of a module points to it.
-/

namespace Lucis.ExtendMethods

open List Option Function

open Semantic (DeclKind MethodInfo Text)

/-- `methods` is empty where the class has none. -/
structure Decl where
  name : Text
  modulePath : Text
  kind : DeclKind
  methods : List MethodInfo

structure ForwardInfo where
  kind : DeclKind
  modulePath : Text
  loc : Nat × Nat

structure SemanticDB where
  forwardDecls : Text → Option ForwardInfo
  types : Text → Option (Nat × Decl)
  pendingExtends : Text → Option (List MethodInfo)
  modules : Text → Text → Option Nat

namespace SemanticDB

def empty : SemanticDB := ⟨fun _ => none, fun _ => none, fun _ => none, fun _ _ => none⟩

def forwardDeclare (db : SemanticDB) (name : Text) (info : ForwardInfo) : Bool × SemanticDB :=
  if (db.types name).isSome then (false, db)
  else
    match db.forwardDecls name with
    | some known => (known.kind = info.kind, db)
    | none => (true, { db with forwardDecls := Function.update db.forwardDecls name info })

def flushPendingExtends (db : SemanticDB) (decl : Decl) : Decl × SemanticDB :=
  match db.pendingExtends decl.name with
  | none => (decl, db)
  | some pending =>
    ({ decl with methods := decl.methods ++ pending },
      { db with pendingExtends := Function.update db.pendingExtends decl.name none })

def indexInModule (db : SemanticDB) (modulePath name : Text) (address : Nat) : SemanticDB :=
  if modulePath = [] then db
  else
    let names := Function.update (db.modules modulePath) name (some address)
    { db with modules := Function.update db.modules modulePath names }

def registerType (db : SemanticDB) : Option (Nat × Decl) → Bool × SemanticDB
  | none => (false, db)
  | some (address, given) =>
    if (db.types given.name).isSome then (false, db)
    else
      let flushed := if given.kind = .Struct then db.flushPendingExtends given else (given, db)
      let decl := flushed.1
      let forwardDecls := Function.update flushed.2.forwardDecls given.name none
      let db := { flushed.2 with forwardDecls := forwardDecls }
      let db := db.indexInModule given.modulePath given.name address
      (true, { db with types := Function.update db.types given.name (some (address, decl)) })

def mergeExtendMethods (db : SemanticDB) (structName : Text) (methods : List MethodInfo) :
    Bool × SemanticDB :=
  match db.types structName with
  | some (address, decl) =>
    if decl.kind ≠ .Struct then (false, db)
    else
      let decl := { decl with methods := decl.methods ++ methods }
      (true, { db with types := Function.update db.types structName (some (address, decl)) })
  | none =>
    let pending := (db.pendingExtends structName).getD [] ++ methods
    (true, { db with
      pendingExtends := Function.update db.pendingExtends structName (some pending) })

end SemanticDB

inductive Call where
  | forwardDeclare (name : Text) (info : ForwardInfo)
  | registerType (decl : Option (Nat × Decl))
  | mergeExtendMethods (structName : Text) (methods : List MethodInfo)

def call (db : SemanticDB) : Call → SemanticDB
  | .forwardDeclare name info => (db.forwardDeclare name info).2
  | .registerType decl => (db.registerType decl).2
  | .mergeExtendMethods structName methods => (db.mergeExtendMethods structName methods).2

def run (calls : List Call) : SemanticDB := calls.foldl call .empty

section Calls

def givenFor (name : Text) : Call → Option (Nat × Decl)
  | .registerType (some (address, decl)) => if decl.name = name then some (address, decl) else none
  | _ => none

def extensionFor (name : Text) : Call → List MethodInfo
  | .mergeExtendMethods structName methods => if structName = name then methods else []
  | _ => []

def registered (calls : List Call) (name : Text) : Option (Nat × Decl) :=
  calls.findSome? (givenFor name)

def extensions (calls : List Call) (name : Text) : List MethodInfo :=
  calls.flatMap (extensionFor name)

def extended (more : List MethodInfo) (given : Nat × Decl) : Nat × Decl :=
  if given.2.kind = .Struct then (given.1, { given.2 with methods := given.2.methods ++ more })
  else given

structure Tracks (calls : List Call) (db : SemanticDB) : Prop where
  types : ∀ name, db.types name = (registered calls name).map (extended (extensions calls name))
  waiting : ∀ name, registered calls name = none →
    (db.pendingExtends name).getD [] = extensions calls name
  flushed : ∀ name given, registered calls name = some given → given.2.kind = .Struct →
    db.pendingExtends name = none
  indexed : ∀ path name address, db.modules path name = some address →
    ∃ decl, db.types name = some (address, decl) ∧ decl.modulePath = path

variable {calls : List Call} {db : SemanticDB} {name : Text}

theorem registered_append (c : Call) :
    registered (calls ++ [c]) name = (registered calls name).or (givenFor name c) := by
  rw [registered, findSome?_append, registered]
  cases given : givenFor name c <;> simp [given]

theorem extensions_append (c : Call) :
    extensions (calls ++ [c]) name = extensions calls name ++ extensionFor name c := by
  simp [extensions]

theorem extended_kind (more : List MethodInfo) (given : Nat × Decl) :
    (extended more given).2.kind = given.2.kind := by
  rw [extended]
  split <;> rfl

theorem extended_home (more : List MethodInfo) (address : Nat) (given : Decl) :
    ∃ decl, extended more (address, given) = (address, decl) ∧
      decl.modulePath = given.modulePath := by
  rw [extended]
  split
  · exact ⟨_, rfl, rfl⟩
  · exact ⟨_, rfl, rfl⟩

theorem extended_more {given : Nat × Decl} (kind : given.2.kind = .Struct)
    (first more : List MethodInfo) : extended (first ++ more) given = ((extended first given).1,
      { (extended first given).2 with methods := (extended first given).2.methods ++ more }) := by
  rw [extended, extended, if_pos kind, if_pos kind, append_assoc]

theorem Tracks.unchanged {after : SemanticDB} {c : Call} (tracks : Tracks calls db)
    (types : after.types = db.types) (pending : after.pendingExtends = db.pendingExtends)
    (modules : after.modules = db.modules)
    (known : ∀ name, givenFor name c = none ∨ registered calls name ≠ none)
    (silent : ∀ name, extensionFor name c = []) : Tracks (calls ++ [c]) after := by
  have first (name : Text) : registered (calls ++ [c]) name = registered calls name := by
    rw [registered_append]
    rcases known name with none_given | before
    · rw [none_given, or_none]
    · exact or_eq_left_of_isSome (isSome_iff_ne_none.2 before)
  have methods (name : Text) : extensions (calls ++ [c]) name = extensions calls name := by
    rw [extensions_append, silent, append_nil]
  constructor
  · intro name
    rw [types, first, methods]
    exact tracks.types name
  · intro name
    rw [pending, first, methods]
    exact tracks.waiting name
  · intro name
    rw [pending, first]
    exact tracks.flushed name
  · rw [types, modules]
    exact tracks.indexed

theorem Tracks.forwardDeclare (tracks : Tracks calls db) (declared : Text) (info : ForwardInfo) :
    Tracks (calls ++ [.forwardDeclare declared info]) (db.forwardDeclare declared info).2 := by
  have same : (db.forwardDeclare declared info).2 = { db with
      forwardDecls := (db.forwardDeclare declared info).2.forwardDecls } := by
    rw [SemanticDB.forwardDeclare]
    split
    · rfl
    · split <;> rfl
  rw [same]
  exact tracks.unchanged rfl rfl rfl (fun _ => .inl rfl) fun _ => rfl

theorem Tracks.fresh (tracks : Tracks calls db) :
    db.types name = none ↔ registered calls name = none := by
  rw [tracks.types, map_eq_none_iff]

theorem flushPendingExtends_eq (db : SemanticDB) (decl : Decl) : db.flushPendingExtends decl =
      ({ decl with methods := decl.methods ++ (db.pendingExtends decl.name).getD [] },
        { db with pendingExtends := Function.update db.pendingExtends decl.name none }) := by
  rw [SemanticDB.flushPendingExtends]
  cases pending : db.pendingExtends decl.name with
  | none =>
    have kept := update_eq_self decl.name db.pendingExtends
    rw [pending] at kept
    rw [kept, getD_none, append_nil]
  | some methods => rfl

theorem indexInModule_tables (path : Text) (address : Nat) :
    (db.indexInModule path name address).types = db.types ∧
      (db.indexInModule path name address).pendingExtends = db.pendingExtends := by
  rw [SemanticDB.indexInModule]
  split <;> exact ⟨rfl, rfl⟩

theorem indexInModule_some {path path' name' : Text} {address address' : Nat}
    (found : (db.indexInModule path name address).modules path' name' = some address') :
    (path' = path ∧ name' = name ∧ address' = address) ∨
      db.modules path' name' = some address' := by
  rw [SemanticDB.indexInModule] at found
  split at found
  · exact .inr found
  · dsimp only at found
    by_cases home : path' = path
    · subst home
      rw [Function.update_self] at found
      by_cases same : name' = name
      · subst same
        rw [Function.update_self] at found
        exact .inl ⟨rfl, rfl, (Option.some.inj found).symm⟩
      · rw [update_of_ne same] at found
        exact .inr found
    · rw [update_of_ne home] at found
      exact .inr found

theorem Tracks.registers {address : Nat} {given : Decl} (tracks : Tracks calls db)
    (fresh : db.types given.name = none) :
    (db.registerType (some (address, given))).2.types = Function.update db.types given.name
        (some (extended (extensions calls given.name) (address, given))) ∧
      (db.registerType (some (address, given))).2.pendingExtends =
        (if given.kind = .Struct then Function.update db.pendingExtends given.name none
          else db.pendingExtends) ∧
      ∀ path name address', (db.registerType (some (address, given))).2.modules path name =
          some address' → (path = given.modulePath ∧ name = given.name ∧ address' = address) ∨
          db.modules path name = some address' := by
  rw [SemanticDB.registerType, if_neg (by rw [fresh]; exact Bool.false_ne_true), extended,
    flushPendingExtends_eq, tracks.waiting _ (tracks.fresh.1 fresh)]
  by_cases struct : given.kind = .Struct
  · simp only [if_pos struct, indexInModule_tables, true_and]
    exact fun path name address' => indexInModule_some
  · simp only [if_neg struct, indexInModule_tables, true_and]
    exact fun path name address' => indexInModule_some

theorem Tracks.registerType (tracks : Tracks calls db) (decl : Option (Nat × Decl)) :
    Tracks (calls ++ [.registerType decl]) (db.registerType decl).2 := by
  rcases decl with _ | ⟨address, given⟩
  · exact tracks.unchanged rfl rfl rfl (fun _ => .inl rfl) fun _ => rfl
  by_cases known : (db.types given.name).isSome = true
  · rw [SemanticDB.registerType, if_pos known]
    refine tracks.unchanged rfl rfl rfl (fun name => ?_) fun _ => rfl
    by_cases named : given.name = name
    · right
      rw [← named, ne_eq, ← tracks.fresh, ← ne_eq, ← isSome_iff_ne_none]
      exact known
    · exact .inl (if_neg named)
  have fresh : db.types given.name = none := not_isSome_iff_eq_none.1 known
  have ⟨types, pending, modules⟩ := @Tracks.registers _ _ address _ tracks fresh
  have first (name : Text) : registered (calls ++ [.registerType (some (address, given))]) name =
      if given.name = name then some (address, given) else registered calls name := by
    rw [registered_append, givenFor]
    split
    next named => rw [← named, tracks.fresh.1 fresh, none_or]
    next => rw [or_none]
  have methods (name : Text) :
      extensions (calls ++ [.registerType (some (address, given))]) name = extensions calls name := by
    rw [extensions_append, extensionFor.eq_def, append_nil]
  refine ⟨fun name => ?_, fun name => ?_, fun name before => ?_, fun path name at' found => ?_⟩
  · rw [types, first, methods]
    by_cases named : given.name = name
    · rw [if_pos named, ← named, Function.update_self]
      rfl
    · rw [if_neg named, update_of_ne (Ne.symm named)]
      exact tracks.types name
  · rw [first, methods, pending]
    intro unregistered
    by_cases named : given.name = name
    · rw [if_pos named] at unregistered
      cases unregistered
    · rw [if_neg named] at unregistered
      rw [← tracks.waiting name unregistered]
      split
      · rw [update_of_ne (Ne.symm named)]
      · rfl
  · rw [first, pending]
    by_cases named : given.name = name
    · rw [if_pos named]
      intro found struct
      cases found
      rw [if_pos struct, ← named, Function.update_self]
    · rw [if_neg named]
      intro found struct
      have flushed := tracks.flushed name before found struct
      split
      · rw [update_of_ne (Ne.symm named)]
        exact flushed
      · exact flushed
  · rw [types]
    rcases modules path name at' found with ⟨rfl, rfl, rfl⟩ | old
    · rw [Function.update_self]
      have ⟨decl, same, home⟩ := extended_home (extensions calls given.name) at' given
      exact ⟨decl, congrArg some same, home⟩
    · rcases tracks.indexed path name at' old with ⟨decl, there, home⟩
      have named : name ≠ given.name := by
        rintro rfl
        rw [fresh] at there
        cases there
      rw [update_of_ne named]
      exact ⟨decl, there, home⟩

theorem Tracks.mergeExtendMethods (tracks : Tracks calls db) (structName : Text)
    (more : List MethodInfo) : Tracks (calls ++ [.mergeExtendMethods structName more])
      (db.mergeExtendMethods structName more).2 := by
  have first (name : Text) :
      registered (calls ++ [.mergeExtendMethods structName more]) name = registered calls name := by
    rw [registered_append, givenFor.eq_def, or_none]
  have methods (name : Text) : extensions (calls ++ [.mergeExtendMethods structName more]) name =
      extensions calls name ++ if structName = name then more else [] := extensions_append _
  have others {name : Text} (named : structName ≠ name) :
      extensions (calls ++ [.mergeExtendMethods structName more]) name = extensions calls name := by
    rw [methods, if_neg named, append_nil]
  have here : extensions (calls ++ [.mergeExtendMethods structName more]) structName =
      extensions calls structName ++ more := by
    rw [methods, if_pos rfl]
  rw [SemanticDB.mergeExtendMethods]
  cases given : registered calls structName with
  | none =>
    have types := tracks.fresh.2 given
    rw [types]
    dsimp only
    refine ⟨fun name => ?_, fun name => ?_, fun name before found struct => ?_, tracks.indexed⟩
    · rw [first]
      by_cases named : structName = name
      · rw [← named, given]
        exact types
      · rw [others named]
        exact tracks.types name
    · rw [first]
      intro unregistered
      dsimp only
      by_cases named : structName = name
      · rw [← named, here, Function.update_self, ← tracks.waiting structName given]
        rfl
      · rw [others named, update_of_ne (Ne.symm named)]
        exact tracks.waiting name unregistered
    · rw [first] at found
      have named : structName ≠ name := by
        rintro rfl
        rw [given] at found
        cases found
      dsimp only
      rw [update_of_ne (Ne.symm named)]
      exact tracks.flushed name before found struct
  | some known =>
    have types := tracks.types structName
    rw [given, map_some] at types
    rw [types]
    dsimp only
    have kind := extended_kind (extensions calls structName) known
    by_cases struct : known.2.kind = .Struct
    · rw [if_neg (not_not.2 (kind.trans struct))]
      refine ⟨fun name => ?_, fun name => ?_, ?_, fun path name address found => ?_⟩
      · rw [first]
        dsimp only
        by_cases named : structName = name
        · rw [← named, here, Function.update_self, given, map_some, extended_more struct]
        · rw [others named, update_of_ne (Ne.symm named)]
          exact tracks.types name
      · rw [first]
        intro unregistered
        have named : structName ≠ name := by
          rintro rfl
          rw [given] at unregistered
          cases unregistered
        rw [others named]
        exact tracks.waiting name unregistered
      · intro name
        rw [first]
        exact tracks.flushed name
      · rcases tracks.indexed path name address found with ⟨decl, there, home⟩
        dsimp only
        by_cases named : structName = name
        · subst named
          have same := Option.some.inj (types.symm.trans there)
          have place : (extended (extensions calls structName) known).1 = address :=
            congrArg Prod.fst same
          rw [Function.update_self, place]
          exact ⟨_, rfl, (congrArg (fun entry => entry.2.modulePath) same).trans home⟩
        · rw [update_of_ne (Ne.symm named)]
          exact ⟨decl, there, home⟩
    · rw [if_pos (kind ▸ struct)]
      refine ⟨fun name => ?_, fun name => ?_, fun name => ?_, tracks.indexed⟩
      · rw [first, tracks.types]
        by_cases named : structName = name
        · rw [← named, given, map_some, map_some, extended, extended, if_neg struct, if_neg struct]
        · rw [others named]
      · rw [first]
        intro unregistered
        have named : structName ≠ name := by
          rintro rfl
          rw [given] at unregistered
          cases unregistered
        rw [others named]
        exact tracks.waiting name unregistered
      · rw [first]
        exact tracks.flushed name

theorem run_tracks (calls : List Call) : Tracks calls (run calls) := by
  induction calls using List.reverseRecOn with
  | nil =>
    refine ⟨fun _ => rfl, fun _ _ => rfl, fun _ _ absent => ?_, fun _ _ _ absent => ?_⟩
    · cases absent
    · cases absent
  | append_singleton calls c ih =>
    rw [run, foldl_append]
    cases c with
    | forwardDeclare name info => exact ih.forwardDeclare name info
    | registerType decl => exact ih.registerType decl
    | mergeExtendMethods structName methods => exact ih.mergeExtendMethods structName methods

end Calls

/-- After any calls a struct has the methods it was registered with, and behind them those of
every extend block for its name in the order of the calls; none of them is pending, and what the
index of a module points to is the registered declaration. -/
theorem extends_ordered (calls : List Call) :
    (∀ name, (run calls).types name =
      (registered calls name).map (extended (extensions calls name))) ∧
    (∀ name address decl, (run calls).types name = some (address, decl) → decl.kind = .Struct →
      (run calls).pendingExtends name = none) ∧
    ∀ path name address, (run calls).modules path name = some address →
      ∃ decl, (run calls).types name = some (address, decl) ∧ decl.modulePath = path := by
  have tracks := run_tracks calls
  refine ⟨tracks.types, fun name address decl found struct => ?_, tracks.indexed⟩
  rw [tracks.types] at found
  rcases map_eq_some_iff.mp found with ⟨given, first, same⟩
  refine tracks.flushed name given first ?_
  rw [← extended_kind, same]
  exact struct

end Lucis.ExtendMethods
