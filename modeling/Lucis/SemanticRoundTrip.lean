import Lucis.SemanticLines

/-!
What comes back of a store that was saved: loading registers its declarations again, without
what save leaves out, and the loaded store is the same exactly when that is nothing.
-/

namespace Lucis.Semantic
open Words List

section Registrations
variable {db : SemanticDB}

def Reads (ls : List Text) (registrations : List Registration) : Prop :=
  ∀ st : Loading, st.db.pendingExtends = [] →
    (ls.foldl loadLine st).db.pendingExtends = [] ∧
      flushCurrentType (ls.foldl loadLine st) =
        registrations.foldl SemanticDB.register (flushCurrentType st)

theorem Reads.append {ls ls' : List Text} {first second}
    (reads : Reads ls first) (reads' : Reads ls' second) : Reads (ls ++ ls') (first ++ second) := by
  intro st none_pending
  have ⟨pending, flushed⟩ := reads st none_pending
  have ⟨pending', flushed'⟩ := reads' _ pending
  rw [foldl_append, foldl_append, ← flushed]
  exact ⟨pending', flushed'⟩

theorem Reads.each {α : Type} {ls} {registrations}
    {xs : List α} (reads : ∀ x ∈ xs, Reads (ls x) (registrations x)) :
    Reads (xs.flatMap ls) (xs.flatMap registrations) := by
  induction xs with
  | nil => exact fun st none_pending => ⟨none_pending, rfl⟩
  | cons x xs ih =>
    have ⟨first, later⟩ := forall_mem_cons.1 reads
    exact first.append (ih later)

variable {st : Loading}

variable (none_pending : st.db.pendingExtends = [])
include none_pending

theorem flush_pending :
    (flushCurrentType st).pendingExtends = [] := by
  rw [flushCurrentType]
  split
  · exact registerType_pending none_pending _
  · exact none_pending

theorem flush_builtin (decl : Decl) :
    flushCurrentType { st with db := st.db.registerBuiltin decl } =
      (flushCurrentType st).registerBuiltin decl := by
  cases here : st.current with
  | none => simp [flushCurrentType, here]
  | some other =>
    simp only [flushCurrentType, here]
    rw [registerType_eq ((registerBuiltin_pending decl).trans none_pending),
      registerType_eq none_pending]
    simp only [SemanticDB.registerBuiltin]
    split <;> split <;> simp_all

theorem flush_function (decl : FunctionDecl) :
    flushCurrentType { st with db := st.db.registerFunction decl } =
      (flushCurrentType st).registerFunction decl := by
  cases here : st.current with
  | none => simp [flushCurrentType, here]
  | some other =>
    simp only [flushCurrentType, here]
    rw [registerType_eq ((registerFunction_pending decl).trans none_pending),
      registerType_eq none_pending]
    simp only [SemanticDB.registerFunction]
    split <;> split <;> simp_all

theorem flush_generic (tmpl : GenericTemplateDecl) :
    flushCurrentType { st with db := st.db.registerGeneric tmpl } =
      (flushCurrentType st).registerGeneric tmpl := by
  cases here : st.current with
  | none => simp [flushCurrentType, here]
  | some other =>
    simp only [flushCurrentType, here]
    rw [registerType_eq ((registerGeneric_pending tmpl).trans none_pending),
      registerType_eq none_pending]
    simp only [SemanticDB.registerGeneric]
    split <;> split <;> simp_all

omit none_pending

def comesBack : Body → Bool
  | .primitive .Integer .. => true
  | .extended .. => true
  | _ => false

theorem reads_builtin {decl : Decl} (name : Name true decl.name)
    (plain : PlainBuiltin true decl.body) :
    Reads (builtinLines decl) (if comesBack decl.body then [.builtin decl] else []) := by
  have word : Word isSpace decl.name := ⟨name.2 rfl, name.1⟩
  rcases decl with ⟨declName, body⟩
  have one (line : Text) (read : ∀ st, loadLine st line =
      { st with db := st.db.registerBuiltin ⟨declName, body⟩ }) :
      Reads [line] [.builtin ⟨declName, body⟩] := by
    intro st none_pending
    rw [foldl_cons, foldl_nil, read]
    exact ⟨(registerBuiltin_pending _).trans none_pending, flush_builtin none_pending _⟩
  have nothing : Reads [] [] := fun st none_pending => ⟨none_pending, rfl⟩
  cases body with
  | primitive kind bitWidth isSigned builtinSuffix =>
    cases kind with
    | Integer =>
      apply one
      intro st
      rw [quoted_line, loadLine_lineOf st _ (by decide) (by decide) (by decide)]
      change { st with db := st.db.registerBuiltin (readBuiltin _) } = _
      rw [readBuiltin_words bitWidth isSigned word plain.1]
    | _ => exact nothing
  | extended extendedKind cPrefix elementType keyType valueType =>
    have ⟨kindName, prefixName, noElement, noKey, noValue⟩ := plain
    apply one
    intro st
    rw [loadLine_lineOf st _ (by decide) (by decide) (by decide)]
    change { st with db := st.db.registerBuiltin (readExtended _) } = _
    rw [readExtended_words _ word ⟨kindName.2 rfl, kindName.1⟩ ⟨prefixName.2 rfl, prefixName.1⟩,
      noElement, noKey, noValue]
  | _ => exact False.elim plain

theorem reads_type {decl : Decl} (name : Name true decl.name) (plain : PlainType true decl.body) :
    Reads (typeLines decl) [.type ⟨decl.name, storedBody decl.body⟩] := by
  intro st none_pending
  have ⟨kind, read⟩ := loaded_type name plain st
  rw [read]
  exact ⟨flush_pending none_pending, rfl⟩

theorem reads_function {decl} (name : Name true decl.name)
    (plain : PlainSignature decl.signature) : Reads [functionLine decl] [.function decl] := by
  intro st none_pending
  have read : loadLine st (functionLine decl) =
      { st with db := st.db.registerFunction decl } := by
    rw [functionLine, loadLine_lineOf st _ (by decide) (by decide) (by decide)]
    change { st with db := st.db.registerFunction (readFunction _) } = _
    rw [readFunction_words name plain]
  rw [foldl_cons, foldl_nil, read]
  exact ⟨(registerFunction_pending _).trans none_pending, flush_function none_pending _⟩

theorem reads_generic {tmpl} (name : Name true tmpl.name)
    (plain : PlainGeneric tmpl) : Reads [genericLine tmpl] [.generic tmpl] := by
  intro st none_pending
  have read : loadLine st (genericLine tmpl) =
      { st with db := st.db.registerGeneric tmpl } := by
    rw [genericLine, loadLine_lineOf st _ (by decide) (by decide) (by decide)]
    change { st with db := st.db.registerGeneric (readGeneric _) } = _
    rw [readGeneric_words name plain]
  rw [foldl_cons, foldl_nil, read]
  exact ⟨(registerGeneric_pending _).trans none_pending, flush_generic none_pending _⟩

def storedRegistrations (db : SemanticDB) : List Registration :=
  (db.builtins.flatMap fun decl => if comesBack decl.body then [.builtin decl] else []) ++
    (db.types.flatMap fun decl => [.type ⟨decl.name, storedBody decl.body⟩]) ++
    (db.functions.flatMap fun decl => [.function decl]) ++
    (db.generics.flatMap fun tmpl => [.generic tmpl])

theorem load_save_registers (plain : Plain true db) :
    load (save db) = SemanticDB.registered (storedRegistrations db) := by
  have reads : Reads (db.builtins.flatMap builtinLines ++ db.types.flatMap typeLines ++
      db.functions.map functionLine ++ db.generics.map genericLine) (storedRegistrations db) := by
    rw [map_eq_flatMap, map_eq_flatMap]
    have builtins := Reads.each fun decl member =>
      reads_builtin (plain.builtins decl member).1 (plain.builtins decl member).2
    have types := Reads.each fun decl member =>
      reads_type (plain.types decl member).1 (plain.types decl member).2
    have functions := Reads.each fun decl member =>
      reads_function (plain.functions decl member).1 (plain.functions decl member).2
    have generics := Reads.each fun tmpl member =>
      reads_generic (plain.generics tmpl member).1 (plain.generics tmpl member).2
    exact ((builtins.append types).append functions).append generics
  have ⟨_, flushed⟩ := reads ⟨.empty, [], [], none⟩ rfl
  rw [load, saved_lines plain.loosen, saveLines, cons_append, foldl_cons, foldl_append]
  exact flushed

end Registrations

section Stored
variable {db : SemanticDB}

structure SemanticDB.Distinct (db : SemanticDB) : Prop where
  builtins : (db.builtins.map Decl.name).Nodup
  types : (db.types.map Decl.name).Nodup
  functions : (db.functions.map FunctionDecl.name).Nodup
  generics : (db.generics.map GenericTemplateDecl.name).Nodup

theorem nodup_concat {names : List Text} {name : Text} (distinct : names.Nodup)
    (fresh : name ∉ names) : (names ++ [name]).Nodup := by
  rw [nodup_append]
  refine ⟨distinct, by simp, ?_⟩
  intro other member last within same
  rw [mem_singleton.1 within] at same
  exact fresh (same ▸ member)

theorem addMethods_names (name : Text) (methods : List MethodInfo) (decls : List Decl) :
    (decls.map fun decl => if decl.name = name then
      (⟨decl.name, SemanticDB.addMethods methods decl.body⟩ : Decl) else decl).map Decl.name =
      decls.map Decl.name := by
  rw [List.map_map]
  apply map_congr_left
  intro decl _
  rw [Function.comp]
  split <;> rfl

theorem SemanticDB.Distinct.register (distinct : db.Distinct) (registration : Registration) :
    (db.register registration).Distinct := by
  have ⟨builtins, types, functions, generics⟩ := distinct
  cases registration with
  | type decl =>
    rw [SemanticDB.register, SemanticDB.registerType]
    split
    · exact distinct
    next fresh =>
      have names := nodup_concat types fresh
      split
      all_goals exact ⟨builtins, by simpa using names, functions, generics⟩
  | function decl =>
    rw [SemanticDB.register, SemanticDB.registerFunction]
    split
    · exact distinct
    next fresh =>
      exact ⟨builtins, types, by simpa using nodup_concat functions fresh, generics⟩
  | generic tmpl =>
    rw [SemanticDB.register, SemanticDB.registerGeneric]
    split
    · exact distinct
    next fresh =>
      exact ⟨builtins, types, functions, by simpa using nodup_concat generics fresh⟩
  | builtin decl =>
    rw [SemanticDB.register, SemanticDB.registerBuiltin]
    split
    · exact distinct
    next fresh =>
      exact ⟨by simpa using nodup_concat builtins fresh, types, functions, generics⟩
  | extend structName methods =>
    rw [SemanticDB.register, SemanticDB.mergeExtendMethods]
    split
    · exact ⟨builtins, (addMethods_names structName methods db.types).symm ▸ types, functions,
        generics⟩
    · exact ⟨builtins, types, functions, generics⟩
  | instantiate baseName typeArgs =>
    rw [SemanticDB.register, SemanticDB.instantiateGeneric]
    split
    · exact distinct
    next tmpl _ =>
      dsimp only
      split
      · exact distinct
      · split
        · exact distinct
        next fresh =>
          split
          · exact distinct
          · exact ⟨builtins, by simpa using nodup_concat types fresh, functions, generics⟩

theorem registered_distinct (registrations : List Registration) :
    (SemanticDB.registered registrations).Distinct := by
  have run (rest : List Registration) (db : SemanticDB) (distinct : db.Distinct) :
      (rest.foldl SemanticDB.register db).Distinct := by
    induction rest generalizing db with
    | nil => exact distinct
    | cons registration _ ih => exact ih _ (distinct.register registration)
  exact run registrations .empty ⟨nodup_nil, nodup_nil, nodup_nil, nodup_nil⟩

theorem added_types {decls : List Decl} (none_pending : db.pendingExtends = [])
    (distinct : ((db.types ++ decls).map Decl.name).Nodup) :
    (decls.map Registration.type).foldl SemanticDB.register db =
      { db with types := db.types ++ decls } := by
  induction decls generalizing db with
  | nil => simp
  | cons decl decls ih =>
    have fresh : decl.name ∉ db.types.map Decl.name := by
      rw [map_append, map_cons, nodup_append] at distinct
      exact fun member => distinct.2.2 _ member _ (.head _) rfl
    rw [map_cons, foldl_cons, SemanticDB.register, registerType_eq none_pending,
      if_neg fresh, @ih { db with types := db.types ++ [decl] } none_pending
        (by rwa [append_assoc, singleton_append])]
    simp

theorem added_builtins {decls : List Decl}
    (distinct : ((db.builtins ++ decls).map Decl.name).Nodup) :
    (decls.map Registration.builtin).foldl SemanticDB.register db =
      { db with builtins := db.builtins ++ decls } := by
  induction decls generalizing db with
  | nil => simp
  | cons decl decls ih =>
    have fresh : decl.name ∉ db.builtins.map Decl.name := by
      rw [map_append, map_cons, nodup_append] at distinct
      exact fun member => distinct.2.2 _ member _ (.head _) rfl
    rw [map_cons, foldl_cons, SemanticDB.register, SemanticDB.registerBuiltin,
      if_neg fresh, ih (by simpa using distinct)]
    simp

theorem added_functions {decls}
    (distinct : ((db.functions ++ decls).map FunctionDecl.name).Nodup) :
    (decls.map Registration.function).foldl SemanticDB.register db =
      { db with functions := db.functions ++ decls } := by
  induction decls generalizing db with
  | nil => simp
  | cons decl decls ih =>
    have fresh : decl.name ∉ db.functions.map FunctionDecl.name := by
      rw [map_append, map_cons, nodup_append] at distinct
      exact fun member => distinct.2.2 _ member _ (.head _) rfl
    rw [map_cons, foldl_cons, SemanticDB.register, SemanticDB.registerFunction,
      if_neg fresh, ih (by simpa using distinct)]
    simp

theorem added_generics {tmpls}
    (distinct : ((db.generics ++ tmpls).map GenericTemplateDecl.name).Nodup) :
    (tmpls.map Registration.generic).foldl SemanticDB.register db =
      { db with generics := db.generics ++ tmpls } := by
  induction tmpls generalizing db with
  | nil => simp
  | cons tmpl tmpls ih =>
    have fresh : tmpl.name ∉ db.generics.map GenericTemplateDecl.name := by
      rw [map_append, map_cons, nodup_append] at distinct
      exact fun member => distinct.2.2 _ member _ (.head _) rfl
    rw [map_cons, foldl_cons, SemanticDB.register, SemanticDB.registerGeneric,
      if_neg fresh, ih (by simpa using distinct)]
    simp

def stored (db : SemanticDB) : SemanticDB where
  builtins := db.builtins.filter fun decl => comesBack decl.body
  types := db.types.map fun decl => ⟨decl.name, storedBody decl.body⟩
  functions := db.functions
  generics := db.generics
  pendingExtends := []

theorem load_save (plain : Plain true db) (distinct : db.Distinct) :
    load (save db) = stored db := by
  have filtered : (db.builtins.flatMap fun decl =>
      if comesBack decl.body then [Registration.builtin decl] else []) =
      (stored db).builtins.map Registration.builtin := by
    rw [stored]
    induction db.builtins with
    | nil => rfl
    | cons decl rest ih =>
      dsimp only at ih ⊢
      rw [flatMap_cons, ih]
      cases comes : comesBack decl.body <;> simp [comes]
  have kept_names : ((db.builtins.filter fun decl => comesBack decl.body).map
      Decl.name).Nodup := distinct.builtins.sublist (filter_sublist.map _)
  have type_names : ((stored db).types.map Decl.name).Nodup := by
    rw [stored, List.map_map]
    exact distinct.types
  have types : db.types.map (fun decl => Registration.type ⟨decl.name, storedBody decl.body⟩) =
      (stored db).types.map Registration.type := by
    rw [stored, List.map_map]
    rfl
  -- the maps are filled one after the other
  have first : ((stored db).builtins.map Registration.builtin).foldl SemanticDB.register .empty =
      ⟨(stored db).builtins, [], [], [], []⟩ := added_builtins kept_names
  have second : ((stored db).types.map Registration.type).foldl SemanticDB.register
      ⟨(stored db).builtins, [], [], [], []⟩ =
      ⟨(stored db).builtins, (stored db).types, [], [], []⟩ := added_types rfl type_names
  have third : (db.functions.map Registration.function).foldl SemanticDB.register
      ⟨(stored db).builtins, (stored db).types, [], [], []⟩ =
      ⟨(stored db).builtins, (stored db).types, db.functions, [], []⟩ :=
    added_functions distinct.functions
  have fourth : (db.generics.map Registration.generic).foldl SemanticDB.register
      ⟨(stored db).builtins, (stored db).types, db.functions, [], []⟩ = stored db :=
    added_generics distinct.generics
  rw [load_save_registers plain, SemanticDB.registered, storedRegistrations, filtered,
    ← map_eq_flatMap, ← map_eq_flatMap, ← map_eq_flatMap, types,
    foldl_append, foldl_append, foldl_append, first, second, third, fourth]

end Stored

section RoundTrip

structure Same (a b : SemanticDB) : Prop where
  builtins : ∀ name, a.builtins.find? (fun decl => decl.name = name) =
    b.builtins.find? fun decl => decl.name = name
  types : ∀ name, a.types.find? (fun decl => decl.name = name) =
    b.types.find? fun decl => decl.name = name
  functions : ∀ name, a.functions.find? (fun decl => decl.name = name) =
    b.functions.find? fun decl => decl.name = name
  generics : ∀ name, a.generics.find? (fun tmpl => tmpl.name = name) =
    b.generics.find? fun tmpl => tmpl.name = name

structure Iterates (order db : SemanticDB) : Prop where
  builtins : order.builtins.Perm db.builtins
  types : order.types.Perm db.types
  functions : order.functions.Perm db.functions
  generics : order.generics.Perm db.generics

def AllWritten : Body → Prop
  | .struct _ _ parentName => parentName = []
  | .union fields => ∀ f ∈ fields, f.autoFill = false
  | .enum variants => ∀ v ∈ variants, ∀ f ∈ v.payloadFields, f.autoFill = false
  | _ => True

structure Kept (db : SemanticDB) : Prop where
  plain : Plain true db
  builtins : ∀ decl ∈ db.builtins, comesBack decl.body = true
  types : ∀ decl ∈ db.types, AllWritten decl.body

theorem flat_same (f : FieldInfo) : flat f = f ↔ f.autoFill = false := by
  rcases f with ⟨name, type, dims, sizes, auto⟩
  simp [flat, eq_comm]

theorem map_same {α : Type} (f : α → α) (xs : List α) : xs.map f = xs ↔ ∀ x ∈ xs, f x = x := by
  have same := @map_inj_left _ _ xs f id
  rwa [List.map_id] at same

theorem stored_iff (body : Body) : storedBody body = body ↔ AllWritten body := by
  cases body with
  | struct fields methods parentName => simp [storedBody, AllWritten, eq_comm]
  | union fields => simp [storedBody, AllWritten, map_same, flat_same]
  | enum variants =>
    have variant (v : VariantInfo) :
        flatVariant v = v ↔ ∀ f ∈ v.payloadFields, f.autoFill = false := by
      rcases v with ⟨name, discriminant, kind, fields⟩
      simp [flatVariant, map_same, flat_same]
    simp [storedBody, AllWritten, map_same, variant]
  | _ => simp [storedBody, AllWritten]

section Keyed
variable {α : Type} (key : α → Text) {xs ys : List α}

theorem find_member {x : α} (distinct : (xs.map key).Nodup) (member : x ∈ xs) :
    xs.find? (fun y => key y = key x) = some x := by
  induction xs with
  | nil => cases member
  | cons y ys ih =>
    rw [map_cons, nodup_cons] at distinct
    rcases mem_cons.1 member with rfl | later
    · simp
    · have other : key y ≠ key x := fun same =>
        distinct.1 (same ▸ List.mem_map_of_mem later)
      rw [find?_cons_of_neg (by simpa using other), ih distinct.2 later]

theorem find_perm (distinct : (xs.map key).Nodup) (perm : xs.Perm ys) (name : Text) :
    xs.find? (fun x => key x = name) = ys.find? fun x => key x = name := by
  cases found : ys.find? (fun x => key x = name) with
  | none =>
    rw [find?_eq_none] at found ⊢
    exact fun x member => found x (perm.mem_iff.1 member)
  | some y =>
    have named : key y = name := by simpa using find?_some found
    rw [← named, find_member key distinct (perm.mem_iff.2 (mem_of_find?_eq_some found))]

theorem member_of_same {x : α} (distinct : (ys.map key).Nodup)
    (same : ∀ name, xs.find? (fun y => key y = name) = ys.find? fun y => key y = name)
    (member : x ∈ ys) : x ∈ xs := by
  have found := same (key x)
  rw [find_member key distinct member] at found
  exact mem_of_find?_eq_some found

end Keyed

variable {db order : SemanticDB}

theorem same_plain {strict : Bool} {loaded : SemanticDB} (distinct : db.Distinct)
    (same : Same loaded db) (plain : Plain strict loaded) : Plain strict db :=
  ⟨fun decl member =>
      plain.builtins decl (member_of_same Decl.name distinct.builtins same.builtins member),
    fun decl member =>
      plain.types decl (member_of_same Decl.name distinct.types same.types member),
    fun decl member => plain.functions decl
      (member_of_same FunctionDecl.name distinct.functions same.functions member),
    fun tmpl member => plain.generics tmpl
      (member_of_same GenericTemplateDecl.name distinct.generics same.generics member)⟩

theorem Plain.reorder {strict : Bool} (plain : Plain strict db) (iterates : Iterates order db) :
    Plain strict order :=
  ⟨fun decl member => plain.builtins decl (iterates.builtins.mem_iff.1 member),
    fun decl member => plain.types decl (iterates.types.mem_iff.1 member),
    fun decl member => plain.functions decl (iterates.functions.mem_iff.1 member),
    fun tmpl member => plain.generics tmpl (iterates.generics.mem_iff.1 member)⟩

theorem SemanticDB.Distinct.reorder (distinct : db.Distinct) (iterates : Iterates order db) :
    order.Distinct :=
  ⟨(iterates.builtins.map _).nodup_iff.2 distinct.builtins,
    (iterates.types.map _).nodup_iff.2 distinct.types,
    (iterates.functions.map _).nodup_iff.2 distinct.functions,
    (iterates.generics.map _).nodup_iff.2 distinct.generics⟩

theorem Iterates.same (iterates : Iterates order db) (distinct : db.Distinct) : Same order db :=
  have ordered := distinct.reorder iterates
  ⟨find_perm Decl.name ordered.builtins iterates.builtins,
    find_perm Decl.name ordered.types iterates.types,
    find_perm FunctionDecl.name ordered.functions iterates.functions,
    find_perm GenericTemplateDecl.name ordered.generics iterates.generics⟩

theorem kept_stored (kept : Kept db) (iterates : Iterates order db) :
    stored order = { order with pendingExtends := [] } := by
  have builtins : order.builtins.filter (fun decl => comesBack decl.body) = order.builtins := by
    rw [filter_eq_self]
    exact fun decl member => kept.builtins decl (iterates.builtins.mem_iff.1 member)
  have types : order.types.map (fun decl => (⟨decl.name, storedBody decl.body⟩ : Decl)) =
      order.types := by
    rw [map_same]
    intro decl member
    rw [(stored_iff decl.body).2 (kept.types decl (iterates.types.mem_iff.1 member))]
  rw [stored, builtins, types]

theorem same_kept (distinct : db.Distinct) (iterates : Iterates order db)
    (same : Same (load (save order)) db) : Kept db := by
  have loose : Plain false order :=
    (same_plain distinct same (load_plain (by simp))).reorder iterates
  have plain : Plain true db := same_plain distinct same (load_save_strict loose)
  have comes := load_save (plain.reorder iterates) (distinct.reorder iterates)
  rw [comes] at same
  refine ⟨plain, ?_, ?_⟩
  · intro decl member
    have back := member_of_same Decl.name distinct.builtins same.builtins member
    exact (mem_filter.1 back).2
  · intro decl member
    have back := member_of_same Decl.name distinct.types same.types member
    rcases List.mem_map.1 back with ⟨other, present, came⟩
    -- it came back from the declaration of its own name
    have own : other = decl := by
      have found := find_member Decl.name distinct.types (iterates.types.mem_iff.1 present)
      have named : other.name = decl.name := by rw [← came]
      rw [named, find_member Decl.name distinct.types member] at found
      exact (Option.some.inj found).symm
    rw [own] at came
    have body : (⟨decl.name, storedBody decl.body⟩ : Decl).body = decl.body :=
      congrArg Decl.body came
    exact (stored_iff decl.body).1 body

/-- After any registrations and in whatever order the maps are iterated, the store that is
loaded is the one that was saved exactly when no declaration refers to another and none of the
declarations is of a kind, or holds something, that is not written or not read. -/
theorem round_trip_iff (registrations : List Registration) (order : SemanticDB)
    (iterates : Iterates order (SemanticDB.registered registrations)) :
    Same (load (save order)) (SemanticDB.registered registrations) ↔
      Kept (SemanticDB.registered registrations) := by
  have distinct := registered_distinct registrations
  constructor
  · exact same_kept distinct iterates
  · intro kept
    rw [load_save (kept.plain.reorder iterates) (distinct.reorder iterates),
      kept_stored kept iterates]
    have same := iterates.same distinct
    exact ⟨same.builtins, same.types, same.functions, same.generics⟩

def plainRegistrations : List Registration :=
  [.builtin ⟨['b'], .primitive .Integer 8 false ['u', '8']⟩,
    .type ⟨['E'], .enum [⟨['A'], 0, .Unit, []⟩]⟩,
    .generic ⟨['G'], [['T']], some ⟨['G'], .struct [] [] []⟩⟩]

theorem round_trip_plain :
    Same (load (save (SemanticDB.registered plainRegistrations)))
        (SemanticDB.registered plainRegistrations) ↔
      Kept (SemanticDB.registered plainRegistrations) :=
  round_trip_iff plainRegistrations (SemanticDB.registered plainRegistrations)
    ⟨List.Perm.refl _, List.Perm.refl _, List.Perm.refl _, List.Perm.refl _⟩

def fieldRegistrations : List Registration :=
  [.builtin ⟨['b'], .primitive .Integer 8 false ['u', '8']⟩,
    .type ⟨['P'], .struct [⟨['x'], some ['b'], 0, [], false⟩] [] []⟩]

theorem field_type_lost :
    ¬ Same (load (save (SemanticDB.registered fieldRegistrations)))
      (SemanticDB.registered fieldRegistrations) := by
  intro same
  have found := same.types ['P']
  revert found
  decide +kernel

end RoundTrip

end Lucis.Semantic
