import Lucis.SemanticDB

/-!
What every loaded store is like, whatever text it was read from: no reference, tuple element
or alias target is set, a generic has an empty pattern, and the names are single words.
-/

namespace Lucis.Semantic
open Words List

section Plain

def Name (strict : Bool) (w : Text) : Prop := Solid isSpace w ∧ (strict = true → w ≠ [])

def PlainField (strict : Bool) (f : FieldInfo) : Prop := Name strict f.name ∧ f.type = none

def PlainMethod (strict : Bool) (m : MethodInfo) : Prop :=
  Name strict m.name ∧ m.returnType = none ∧ ∀ p ∈ m.params, p = none

def PlainVariant (strict : Bool) (v : VariantInfo) : Prop :=
  Name strict v.name ∧ ∀ f ∈ v.payloadFields, PlainField strict f

def PlainBuiltin (strict : Bool) : Body → Prop
  | .primitive _ _ _ builtinSuffix => '"' ∉ builtinSuffix ∧ '\n' ∉ builtinSuffix
  | .extended extendedKind cPrefix elementType keyType valueType =>
    Name strict extendedKind ∧ Name strict cPrefix ∧
      elementType = none ∧ keyType = none ∧ valueType = none
  | _ => False

def PlainType (strict : Bool) : Body → Prop
  | .struct fields methods _ =>
    (∀ f ∈ fields, PlainField strict f) ∧ ∀ m ∈ methods, PlainMethod strict m
  | .union fields => ∀ f ∈ fields, PlainField strict f
  | .enum variants => ∀ v ∈ variants, PlainVariant strict v
  | .pointer pointeeType => pointeeType = none
  | .tuple elements => elements = []
  | .typeAlias target arraySize arraySizes => target = none ∧ arraySize = 0 ∧ arraySizes = []
  | _ => False

def PlainSignature (signature : Signature) : Prop :=
  signature.returnType = none ∧ (∀ p ∈ signature.params, p = none) ∧
    (signature.externABI = [] ∨ signature.externABI = ['C'])

def PlainGeneric (tmpl : GenericTemplateDecl) : Prop :=
  (∀ tp ∈ tmpl.typeParams, Word isSpace tp) ∧
    ∃ kind, tmpl.pattern = minimalPattern tmpl.name kind

structure Plain (strict : Bool) (db : SemanticDB) : Prop where
  builtins : ∀ decl ∈ db.builtins, Name strict decl.name ∧ PlainBuiltin strict decl.body
  types : ∀ decl ∈ db.types, Name strict decl.name ∧ PlainType strict decl.body
  functions : ∀ decl ∈ db.functions, Name strict decl.name ∧ PlainSignature decl.signature
  generics : ∀ tmpl ∈ db.generics, Name strict tmpl.name ∧ PlainGeneric tmpl

structure PlainLoading (strict : Bool) (st : Loading) : Prop where
  db : Plain strict st.db
  none_pending : st.db.pendingExtends = []
  current : ∀ decl ∈ st.current, Name strict decl.name ∧ PlainType strict decl.body
  name : Solid isSpace st.currentTypeName

def NamedAfter (directive ss : Text) : Prop :=
  directive = "VER".toList ∨ directive = ['E'] ∨
    (readWord isSpace ss).1 ≠ [] ∧
      (directive = ['X'] → (readWord isSpace (readWord isSpace ss).2).1 ≠ [] ∧
        (readWord isSpace (readWord isSpace (readWord isSpace ss).2).2).1 ≠ [])

theorem Name.loosen {w : Text} (name : Name true w) : Name false w := ⟨name.1, by simp⟩

theorem PlainField.loosen {f : FieldInfo} (plain : PlainField true f) : PlainField false f :=
  ⟨plain.1.loosen, plain.2⟩

theorem PlainBuiltin.loosen {body : Body} (plain : PlainBuiltin true body) :
    PlainBuiltin false body := by
  cases body with
  | primitive kind bitWidth isSigned builtinSuffix => exact plain
  | extended extendedKind cPrefix elementType keyType valueType =>
    exact ⟨Name.loosen plain.1, Name.loosen plain.2.1, plain.2.2⟩
  | _ => exact plain

theorem PlainType.loosen {body : Body} (plain : PlainType true body) : PlainType false body := by
  cases body with
  | struct fields methods parentName =>
    exact ⟨fun f member => PlainField.loosen (plain.1 f member),
      fun m member => ⟨(plain.2 m member).1.loosen, (plain.2 m member).2⟩⟩
  | union fields => exact fun f member => PlainField.loosen (plain f member)
  | enum variants =>
    exact fun v member => ⟨(plain v member).1.loosen,
      fun f within => PlainField.loosen ((plain v member).2 f within)⟩
  | _ => exact plain

theorem Plain.loosen {db : SemanticDB} (plain : Plain true db) : Plain false db :=
  ⟨fun decl member =>
      ⟨(plain.builtins decl member).1.loosen, (plain.builtins decl member).2.loosen⟩,
    fun decl member => ⟨(plain.types decl member).1.loosen, (plain.types decl member).2.loosen⟩,
    fun decl member => ⟨(plain.functions decl member).1.loosen, (plain.functions decl member).2⟩,
    fun tmpl member => ⟨(plain.generics tmpl member).1.loosen, (plain.generics tmpl member).2⟩⟩

end Plain

section Registering
variable {strict : Bool} {db : SemanticDB}

theorem all_appended {α : Type} {holds : α → Prop} {known : List α} {entry : α}
    (all : ∀ x ∈ known, holds x) (one : holds entry) : ∀ x ∈ known ++ [entry], holds x :=
  forall_mem_append.2 ⟨all, forall_mem_singleton.2 one⟩

variable (plain : Plain strict db)
include plain

theorem Plain.registerBuiltin {decl : Decl}
    (name : Name strict decl.name) (body : PlainBuiltin strict decl.body) :
    Plain strict (db.registerBuiltin decl) := by
  rw [SemanticDB.registerBuiltin]
  split
  · exact plain
  · constructor
    · exact all_appended plain.builtins ⟨name, body⟩
    · exact plain.types
    · exact plain.functions
    · exact plain.generics

omit plain in
theorem registerType_eq (none_pending : db.pendingExtends = []) (decl : Decl) :
    db.registerType decl =
      if decl.name ∈ db.types.map Decl.name then db
      else { db with types := db.types ++ [decl] } := by
  rw [SemanticDB.registerType, none_pending]
  split
  · rfl
  · cases decl.body.kind <;> rfl

theorem Plain.registerType {decl : Decl}
    (none_pending : db.pendingExtends = []) (name : Name strict decl.name)
    (body : PlainType strict decl.body) : Plain strict (db.registerType decl) := by
  rw [registerType_eq none_pending]
  split
  · exact plain
  · constructor
    · exact plain.builtins
    · exact all_appended plain.types ⟨name, body⟩
    · exact plain.functions
    · exact plain.generics

theorem Plain.registerFunction {decl}
    (name : Name strict decl.name) (signature : PlainSignature decl.signature) :
    Plain strict (db.registerFunction decl) := by
  rw [SemanticDB.registerFunction]
  split
  · exact plain
  · constructor
    · exact plain.builtins
    · exact plain.types
    · exact all_appended plain.functions ⟨name, signature⟩
    · exact plain.generics

theorem Plain.registerGeneric {tmpl}
    (name : Name strict tmpl.name) (generic : PlainGeneric tmpl) :
    Plain strict (db.registerGeneric tmpl) := by
  rw [SemanticDB.registerGeneric]
  split
  · exact plain
  · constructor
    · exact plain.builtins
    · exact plain.types
    · exact plain.functions
    · exact all_appended plain.generics ⟨name, generic⟩

omit plain

theorem registerBuiltin_pending (decl : Decl) :
    (db.registerBuiltin decl).pendingExtends = db.pendingExtends := by
  rw [SemanticDB.registerBuiltin]
  split <;> rfl

theorem registerType_pending (none_pending : db.pendingExtends = []) (decl : Decl) :
    (db.registerType decl).pendingExtends = [] := by
  rw [registerType_eq none_pending]
  split <;> exact none_pending

theorem registerFunction_pending (decl : FunctionDecl) :
    (db.registerFunction decl).pendingExtends = db.pendingExtends := by
  rw [SemanticDB.registerFunction]
  split <;> rfl

theorem registerGeneric_pending (tmpl : GenericTemplateDecl) :
    (db.registerGeneric tmpl).pendingExtends = db.pendingExtends := by
  rw [SemanticDB.registerGeneric]
  split <;> rfl

end Registering

section Reading
variable {strict : Bool} {ss : Text}

variable (seen : strict = true → (readWord isSpace ss).1 ≠ [])
include seen

theorem word_name : Name strict (readWord isSpace ss).1 := ⟨readWord_solid ss, seen⟩

omit seen in
theorem readSizes_keeps (fi : FieldInfo) (tokens : List Text) :
    (readSizes fi tokens).name = fi.name ∧ (readSizes fi tokens).type = fi.type := by
  induction tokens generalizing fi with
  | nil => exact ⟨rfl, rfl⟩
  | cons token rest ih =>
    rw [readSizes]
    split
    · exact ih _
    · split
      · exact ⟨rfl, rfl⟩
      · split <;> exact ih _

theorem readField_plain : PlainField strict (readField ss) := by
  have ⟨name, type⟩ := readSizes_keeps ⟨(readWord isSpace ss).1, none,
    (readUnsigned (readWord isSpace (readWord isSpace ss).2).2).1, [], false⟩
    (words isSpace (readUnsigned (readWord isSpace (readWord isSpace ss).2).2).2)
  refine ⟨?_, type⟩
  rw [readField, name]
  exact word_name seen

theorem readMethod_plain : PlainMethod strict (readMethod ss) := by
  refine ⟨word_name seen, rfl, ?_⟩
  intro p member
  rcases List.mem_map.1 member with ⟨_, _, same⟩
  exact same.symm

theorem readVariant_plain : PlainVariant strict (readVariant ss) := by
  refine ⟨word_name seen, ?_⟩
  intro f member
  cases member

omit seen

theorem readParams_plain {signature : Signature} (plain : PlainSignature signature)
    (tokens : List Text) : PlainSignature (readParams signature tokens) := by
  induction tokens generalizing signature with
  | nil => exact plain
  | cons param rest ih =>
    have ⟨returns, params, abi⟩ := plain
    rw [readParams]
    split
    · exact ih ⟨returns, params, abi⟩
    · split
      · exact ih ⟨returns, params, abi⟩
      · split
        · exact ih ⟨returns, params, .inr rfl⟩
        · exact ih ⟨returns, all_appended params rfl, abi⟩

theorem readFunction_plain (ss : Text) : PlainSignature (readFunction ss).signature :=
  readParams_plain ⟨rfl, fun _ absent => (by cases absent), .inl rfl⟩ _

theorem readBuiltin_plain (line : '\n' ∉ ss) : PlainBuiltin strict (readBuiltin ss).body := by
  have left (s : Text) (one_line : '\n' ∉ s) : '\n' ∉ (readWord isSpace s).2 := by
    intro member
    exact one_line ((dropWhile_sublist _).subset ((dropWhile_sublist _).subset member))
  have number (s : Text) (one_line : '\n' ∉ s) : '\n' ∉ (readNumber s).2 := by
    have signed : '\n' ∉ (readSign s).2 := by
      rw [readSign.eq_def]
      split
      next => exact fun member => one_line (.tail _ member)
      next => exact fun member => one_line (.tail _ member)
      next => exact one_line
    rw [readNumber]
    dsimp only
    split
    · simp
    · exact fun member => signed ((dropWhile_sublist _).subset member)
  have unsigned (s : Text) (one_line : '\n' ∉ s) : '\n' ∉ (readUnsigned s).2 := by
    have read := number (s.dropWhile isSpace) fun member =>
      one_line ((dropWhile_sublist _).subset member)
    rw [readUnsigned]
    split
    next => simp
    next same =>
      rw [same] at read
      split
      · exact read
      · simp
  have nonzero (s : Text) (one_line : '\n' ∉ s) : '\n' ∉ (readNonzero s).2 := by
    have read := number (s.dropWhile isSpace) fun member =>
      one_line ((dropWhile_sublist _).subset member)
    rw [readNonzero]
    split
    next => simp
    next same =>
      rw [same] at read
      split
      · exact read
      · simp
  have behind := nonzero _ (unsigned _ (left _ (left _ line)))
  constructor
  · intro member
    simpa using mem_takeWhile_imp member
  · intro member
    have inner := (takeWhile_sublist _).subset member
    exact behind ((dropWhile_sublist _).subset (mem_of_mem_drop inner))

end Reading

section Loading
variable {strict : Bool} {st : Loading}

theorem PlainLoading.flush (plain : PlainLoading strict st) :
    Plain strict (flushCurrentType st) ∧ (flushCurrentType st).pendingExtends = [] := by
  rw [flushCurrentType]
  split
  next decl here =>
    have ⟨name, body⟩ := plain.current decl (by rw [here]; rfl)
    exact ⟨plain.db.registerType plain.none_pending name body,
      registerType_pending plain.none_pending decl⟩
  next => exact ⟨plain.db, plain.none_pending⟩

theorem PlainLoading.change (plain : PlainLoading strict st) {f}
    (keeps : ∀ body, PlainType strict body → PlainType strict (f body)) :
    PlainLoading strict (st.change f) := by
  refine ⟨plain.db, plain.none_pending, ?_, plain.name⟩
  intro decl member
  rcases Option.map_eq_some_iff.1 member with ⟨before, here, rfl⟩
  have ⟨name, body⟩ := plain.current before here
  exact ⟨name, keeps _ body⟩

theorem startBody_plain {kind ss : Text} {body : Body} (started : startBody kind ss = some body) :
    PlainType strict body := by
  have none_of {α : Type} {P : α → Prop} : ∀ x ∈ ([] : List α), P x := fun x absent => by
    cases absent
  rw [startBody] at started
  split at started
  · cases started
    exact ⟨none_of, none_of⟩
  · split at started
    · cases started
      exact none_of
    · split at started
      · cases started
        exact none_of
      · split at started
        · cases started
          rfl
        · split at started
          · cases started
            rfl
          · split at started
            · cases started
              exact ⟨rfl, rfl, rfl⟩
            · cases started

theorem PlainLoading.startType (plain : PlainLoading strict st) {ss : Text}
    (seen : strict = true → (readWord isSpace ss).1 ≠ []) :
    PlainLoading strict (startType st ss) := by
  have solid : Solid isSpace (orElse (readWord isSpace ss).1 st.currentTypeName) := by
    rw [orElse]
    split
    · exact plain.name
    · exact readWord_solid ss
  have name : Name strict (orElse (readWord isSpace ss).1 st.currentTypeName) := by
    refine ⟨solid, ?_⟩
    intro isStrict
    rw [orElse, if_neg (seen isStrict)]
    exact seen isStrict
  have ⟨flushed, pending⟩ := plain.flush
  refine ⟨flushed, pending, ?_, solid⟩
  intro decl member
  rcases Option.map_eq_some_iff.1 member with ⟨body, started, rfl⟩
  exact ⟨name, startBody_plain started⟩

theorem addField_plain {fi : FieldInfo} (field : PlainField strict fi) (body : Body)
    (plain : PlainType strict body) : PlainType strict (addField fi body) := by
  cases body with
  | struct fields methods parentName => exact ⟨all_appended plain.1 field, plain.2⟩
  | union fields => exact all_appended plain field
  | enum variants =>
    change ∀ v ∈ addPayload fi variants, PlainVariant strict v
    change ∀ v ∈ variants, PlainVariant strict v at plain
    induction variants with
    | nil => exact plain
    | cons v rest ih =>
      have ⟨first, later⟩ := forall_mem_cons.1 plain
      cases rest with
      | nil => exact forall_mem_cons.2 ⟨⟨first.1, all_appended first.2 field⟩, later⟩
      | cons next rest => exact forall_mem_cons.2 ⟨first, ih later⟩
  | _ => exact plain

theorem addMethods_plain {mi : MethodInfo} (method : PlainMethod strict mi) (body : Body)
    (plain : PlainType strict body) : PlainType strict (SemanticDB.addMethods [mi] body) := by
  cases body with
  | struct fields methods parentName => exact ⟨plain.1, all_appended plain.2 method⟩
  | _ => exact plain

theorem addVariant_plain {vi} (variant : PlainVariant strict vi) (body : Body)
    (plain : PlainType strict body) : PlainType strict (addVariant vi body) := by
  cases body with
  | enum variants => exact all_appended plain variant
  | _ => exact plain

theorem PlainLoading.loadDirective (plain : PlainLoading strict st) {directive ss : Text}
    (one_line : '\n' ∉ ss) (named : strict = true → NamedAfter directive ss) :
    PlainLoading strict (loadDirective st directive ss) := by
  rw [Semantic.loadDirective]
  split
  · exact plain
  next ver =>
    by_cases ended : directive = ['E']
    · rw [ended]
      exact plain
    · -- every other directive reads a name first
      have seen (isStrict : strict = true) : (readWord isSpace ss).1 ≠ [] ∧
          (directive = ['X'] → (readWord isSpace (readWord isSpace ss).2).1 ≠ [] ∧
            (readWord isSpace (readWord isSpace (readWord isSpace ss).2).2).1 ≠ []) := by
        rcases named isStrict with here | here | both
        · exact absurd here ver
        · exact absurd here ended
        · exact both
      have first (isStrict : strict = true) : (readWord isSpace ss).1 ≠ [] := (seen isStrict).1
      split
      · exact ⟨plain.db.registerBuiltin (word_name first) (readBuiltin_plain one_line),
          (registerBuiltin_pending _).trans plain.none_pending, plain.current, plain.name⟩
      · split
        next here =>
          have second (isStrict : strict = true) := ((seen isStrict).2 here).1
          have third (isStrict : strict = true) := ((seen isStrict).2 here).2
          exact ⟨plain.db.registerBuiltin (word_name first)
            ⟨word_name second, word_name third, rfl, rfl, rfl⟩,
            (registerBuiltin_pending _).trans plain.none_pending, plain.current, plain.name⟩
        next =>
          split
          · exact plain.startType first
          · split
            · exact plain.change (addField_plain (readField_plain first))
            · split
              · exact plain.change (addMethods_plain (readMethod_plain first))
              · split
                · exact plain.change (addVariant_plain (readVariant_plain first))
                · split
                  · exact ⟨plain.db.registerFunction (word_name first) (readFunction_plain ss),
                      (registerFunction_pending _).trans plain.none_pending, plain.current,
                      plain.name⟩
                  · split
                    · exact ⟨plain.db.registerGeneric (word_name first) ⟨fun _ => words_word, _, rfl⟩,
                        (registerGeneric_pending _).trans plain.none_pending, plain.current,
                        plain.name⟩
                    · exact plain

def Filled (line : Text) : Prop :=
  line = [] ∨ NamedAfter (readWord isSpace line).1 (readWord isSpace line).2

theorem loaded_plain {ls : List Text} (one_line : ∀ l ∈ ls, '\n' ∉ l)
    (filled : strict = true → ∀ l ∈ ls, Filled l) (plain : PlainLoading strict st) :
    PlainLoading strict (ls.foldl loadLine st) := by
  induction ls generalizing st with
  | nil => exact plain
  | cons l ls ih =>
    have ⟨alone, later⟩ := forall_mem_cons.1 one_line
    apply ih later fun isStrict => (forall_mem_cons.1 (filled isStrict)).2
    rw [loadLine]
    split
    · exact plain
    next some_text =>
      apply plain.loadDirective
      · intro member
        exact alone
          ((dropWhile_sublist _).subset ((dropWhile_sublist _).subset member))
      · intro isStrict
        rcases filled isStrict l (.head _) with none | named
        · exact absurd (.inl none) some_text
        · exact named

theorem load_plain {text : Text} (filled : strict = true → ∀ l ∈ lines '\n' text, Filled l) :
    Plain strict (load text) := by
  have empty : Plain strict .empty := by
    constructor
    all_goals
      intro decl member
      cases member
  have start : PlainLoading strict ⟨.empty, [], [], none⟩ :=
    ⟨empty, rfl, fun _ absent => (by cases absent), fun _ absent => by cases absent⟩
  exact (loaded_plain (fun l => line_solid) filled start).flush.1

end Loading

end Lucis.Semantic
