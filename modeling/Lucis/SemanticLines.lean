import Lucis.SemanticLoading

/-!
The lines of a plain store, and what load makes of each: the names, numbers and flags that
were written are read again, and a type block leaves its type to be registered.
-/

namespace Lucis.Semantic
open Words List

section Lines

theorem sep_space : isSpace ' ' = true := rfl

variable {w : Text}

theorem newline_of_solid (solid : Solid isSpace w) : '\n' ∉ w :=
  fun member => absurd (solid _ member) (by decide)

theorem digit_solid {c : Char} (digit : c.isDigit = true) : isSpace c = false := by
  cases space : isSpace c with
  | false => rfl
  | true =>
    simp only [isSpace, Bool.or_eq_true, decide_eq_true_eq] at space
    rcases space with ((((rfl | rfl) | rfl) | rfl) | rfl) | rfl <;> exact absurd digit (by decide)

theorem unsigned_word (n : UInt32) : Word isSpace (unsignedText n) :=
  ⟨Nat.toDigits_ne_nil, fun _ member => digit_solid (digit_of_toDigits member)⟩

theorem void_word : Word isSpace (typeName none) := by decide

theorem kind_word (kind : DeclKind) : Word isSpace (declKindToStr kind) := by
  cases kind <;> decide

theorem payload_word (kind : VariantPayloadKind) : Word isSpace (variantPayloadKindToStr kind) := by
  cases kind <;> decide

variable {indent directive : Text}

theorem readWord_line {rest : Text} (blank : indent.all isSpace = true)
    (word : Word isSpace directive) (ends : ∀ c ∈ rest.head?, isSpace c = true) :
    readWord isSpace (indent ++ directive ++ rest) = (directive, rest) := by
  induction indent with
  | nil => exact readWord_append word ends
  | cons c indent ih =>
    rw [all_cons, Bool.and_eq_true] at blank
    exact (readWord_skip blank.1 _).trans (ih blank.2)

variable (ws : List Text)

theorem readWord_lineOf (blank : indent.all isSpace = true) (word : Word isSpace directive) :
    readWord isSpace (lineOf indent directive ws) = (directive, spaced ' ' ws) :=
  readWord_line blank word (spaced_ends sep_space ws)

def Written (line : Text) : Prop := '\n' ∉ line ∧ Filled line

variable {ws : List Text}

theorem one_line_of (plainIndent : '\n' ∉ indent)
    (plainDirective : '\n' ∉ directive) (inner : ∀ w ∈ ws, '\n' ∉ w) :
    '\n' ∉ lineOf indent directive ws := by
  intro member
  rcases mem_append.1 member with start | within
  · rcases mem_append.1 start with here | here
    · exact plainIndent here
    · exact plainDirective here
  · rcases mem_flatMap.1 within with ⟨w, present, here⟩
    rcases mem_cons.1 here with sep | here
    · cases sep
    · exact inner w present here

theorem written_line (blank : indent.all (fun c => c = ' ') = true) (word : Word isSpace directive)
    (other : directive ≠ ['X'])
    (inner : ∀ w ∈ ws, '\n' ∉ w) (member : w ∈ ws) (seen : Word isSpace w) :
    Written (lineOf indent directive ws) := by
  have all (c : Char) (here : c ∈ indent) : c = ' ' :=
    of_decide_eq_true (List.all_eq_true.1 blank c here)
  have spaces : indent.all isSpace = true := by
    rw [List.all_eq_true]
    intro c here
    rw [all c here]
    rfl
  have no_break : '\n' ∉ indent := fun here => absurd (all _ here) (by decide)
  refine ⟨one_line_of no_break (newline_of_solid word.2) inner, .inr ?_⟩
  rw [readWord_lineOf ws spaces word]
  refine .inr (.inr ⟨?_, fun same => absurd same other⟩)
  rcases exists_mem_of_ne_nil w seen.1 with ⟨c, within⟩
  have inside : c ∈ spaced ' ' ws :=
    mem_flatMap.2 ⟨w, member, .tail _ within⟩
  exact readWord_nonempty inside (seen.2 c within)

variable {f : FieldInfo}

variable (plain : PlainField false f)
include plain

theorem field_words :
    (∀ w ∈ fieldWords f, '\n' ∉ w) ∧ typeName none ∈ fieldWords f := by
  have ⟨name, type⟩ := plain
  rw [fieldWords, type]
  refine ⟨?_, .tail _ (.head _)⟩
  simp only [forall_mem_cons, List.forall_mem_map]
  exact ⟨newline_of_solid name.1, newline_of_solid void_word.2, newline_of_solid (unsigned_word _).2,
    fun size _ => newline_of_solid (unsigned_word size).2⟩

theorem field_written (blank : indent.all (fun c => c = ' ') = true) :
    Written (lineOf indent ['F'] (fieldWords f)) := by
  have ⟨inner, member⟩ := field_words plain
  exact written_line blank (by decide) (by decide) inner member void_word

theorem struct_field_written : Written (structFieldLine f) := by
  have ⟨inner, member⟩ := field_words plain
  refine written_line (by decide) (by decide) (by decide) ?_ (mem_append_left _ member)
    void_word
  refine forall_mem_append.2 ⟨inner, ?_⟩
  split <;> decide

omit plain

variable {params : List Ref}

theorem params_voids (all : ∀ p ∈ params, p = none) :
    params.map typeName = params.map fun _ => typeName none := by
  apply map_congr_left
  intro p member
  rw [all p member]

theorem params_inner (all : ∀ p ∈ params, p = none) :
    ∀ w ∈ params.map typeName, '\n' ∉ w := by
  intro w member
  rcases List.mem_map.1 member with ⟨p, present, rfl⟩
  rw [all p present]
  exact newline_of_solid void_word.2

theorem method_written {m : MethodInfo} (plain : PlainMethod false m) : Written (methodLine m) := by
  have ⟨name, returns, params⟩ := plain
  rw [methodLine, returns]
  refine written_line (by decide) (by decide) (by decide) ?_
    (.tail _ (.head _)) void_word
  have kind : '\n' ∉ (if m.isStatic then "static".toList else "instance".toList) := by
    cases m.isStatic <;> decide
  simp only [forall_mem_cons]
  exact ⟨newline_of_solid name.1, newline_of_solid void_word.2, kind, params_inner params⟩

theorem ended_written : Written ['E'] := ⟨by decide, Or.inr (Or.inr (Or.inl rfl))⟩

theorem variant_written {v} (plain : PlainVariant false v) :
    ∀ l ∈ variantLines v, Written l := by
  refine forall_mem_cons.2 ⟨?_, List.forall_mem_map.2 fun pf present =>
    field_written (plain.2 pf present) (by decide)⟩
  refine written_line (by decide) (by decide) (by decide) ?_
    (.tail _ (.head _)) (unsigned_word v.discriminant)
  simp only [forall_mem_cons]
  exact ⟨newline_of_solid plain.1.1, newline_of_solid (unsigned_word _).2,
    newline_of_solid (payload_word _).2, forall_mem_nil _⟩

theorem header_written {name kind : Text} {more : List Text} (solid : Solid isSpace name)
    (word : Word isSpace kind) (inner : ∀ w ∈ more, '\n' ∉ w) :
    Written (lineOf [] ['T'] (name :: kind :: more)) := by
  refine written_line (by decide) (by decide) (by decide) ?_
    (.tail _ (.head _)) word
  simp only [forall_mem_cons]
  exact ⟨newline_of_solid solid, newline_of_solid word.2, inner⟩

theorem block_written {header : Text} {inside : List Text} (first : Written header)
    (all : ∀ l ∈ inside, Written l) : ∀ l ∈ header :: (inside ++ [['E']]), Written l := by
  simp only [forall_mem_cons, forall_mem_append]
  exact ⟨first, all, ended_written, forall_mem_nil _⟩

variable {decl : Decl}

theorem type_written (name : Solid isSpace decl.name)
    (plain : PlainType false decl.body) : ∀ l ∈ typeLines decl, Written l := by
  have no_more : ∀ w ∈ ([] : List Text), '\n' ∉ w := forall_mem_nil _
  have no_lines : ∀ l ∈ ([] : List Text), Written l := forall_mem_nil _
  rcases decl with ⟨declName, body⟩
  cases body with
  | struct fields methods parentName =>
    apply block_written (header_written name (by decide) no_more)
    simp only [forall_mem_append, List.forall_mem_map]
    exact ⟨fun f present => struct_field_written (plain.1 f present),
      fun m present => method_written (plain.2 m present)⟩
  | union fields =>
    apply block_written (header_written name (by decide) no_more)
    exact List.forall_mem_map.2 fun f present => field_written (plain f present) (by decide)
  | enum variants =>
    apply block_written (header_written name (by decide) no_more)
    exact forall_mem_flatMap.2 fun v present => variant_written (plain v present)
  | pointer pointeeType =>
    rw [show pointeeType = none from plain]
    exact block_written (header_written name (by decide) (by decide)) no_lines
  | tuple elements =>
    rw [show elements = [] from plain]
    exact block_written (header_written name (by decide) no_more) no_lines
  | typeAlias target arraySize arraySizes =>
    obtain ⟨noTarget, noSize, noSizes⟩ := plain
    rw [noTarget, noSize, noSizes]
    exact block_written (header_written name (by decide) (by decide)) no_lines
  | _ => exact no_lines

theorem quoted_line (suffix : Text) :
    lineOf [] ['B'] ws ++ [' ', '"'] ++ suffix ++ ['"'] =
      lineOf [] ['B'] (ws ++ ['"' :: (suffix ++ ['"'])]) := by
  simp [lineOf, spaced]

theorem builtin_written (name : Solid isSpace decl.name)
    (plain : PlainBuiltin false decl.body) : ∀ l ∈ builtinLines decl, Written l := by
  rcases decl with ⟨declName, body⟩
  cases body with
  | primitive kind bitWidth isSigned builtinSuffix =>
    cases kind with
    | Integer =>
      intro l member
      rw [builtinLines, mem_singleton] at member
      rw [member, quoted_line]
      refine written_line (by decide) (by decide) (by decide) ?_
        (.tail _ (.head _)) (kind_word .Integer)
      have sign : '\n' ∉ (if isSigned then ['1'] else ['0']) := by cases isSigned <;> decide
      simp only [forall_mem_append, forall_mem_cons]
      refine ⟨⟨newline_of_solid name, newline_of_solid (kind_word .Integer).2,
        newline_of_solid (unsigned_word _).2, sign, forall_mem_nil _⟩, ?_, forall_mem_nil _⟩
      simpa using plain.2
    | _ => exact forall_mem_nil _
  | extended extendedKind cPrefix elementType keyType valueType =>
    obtain ⟨kindName, prefixName, noElement, noKey, noValue⟩ := plain
    intro l member
    rw [builtinLines, mem_singleton, noElement, noKey, noValue] at member
    have solid : ∀ w ∈ [declName, extendedKind, cPrefix, ['-'], ['-'], ['-']],
        Solid isSpace w := by
      simp only [forall_mem_cons]
      exact ⟨name, kindName.1, prefixName.1, by decide, by decide, by decide, forall_mem_nil _⟩
    rw [member]
    refine ⟨one_line_of (by decide) (by decide) fun w within => newline_of_solid (solid w within),
      .inr ?_⟩
    rw [readWord_lineOf _ (by decide) (by decide)]
    -- three words are read, and at least the three hyphens are there
    have count : 2 < ([declName, extendedKind, cPrefix, ['-'], ['-'], ['-']].filter
        fun w => !w.isEmpty).length := by
      change 2 < (([declName, extendedKind, cPrefix] ++ [['-'], ['-'], ['-']]).filter
        fun w => !w.isEmpty).length
      rw [filter_append, length_append]
      exact Nat.lt_of_lt_of_le (by decide) (Nat.le_add_left _ _)
    obtain ⟨first, rest, restSolid, restCount, restEq⟩ := readWord_filled sep_space solid count
    obtain ⟨second, rest', restSolid', restCount', restEq'⟩ :=
      readWord_filled sep_space restSolid restCount
    obtain ⟨third, _⟩ := readWord_filled sep_space restSolid' restCount'
    refine .inr (.inr ⟨first, fun _ => ?_⟩)
    dsimp only [Option.getD_none]
    rw [restEq, restEq']
    exact ⟨second, third⟩
  | _ => exact False.elim plain

theorem flag_words {signature : Signature}
    (abi : signature.externABI = [] ∨ signature.externABI = ['C']) :
    ∀ w ∈ flagWords signature, Word isSpace w := by
  simp only [flagWords, forall_mem_append]
  refine ⟨⟨?_, ?_⟩, ?_⟩
  · split <;> decide
  · split <;> decide
  · split
    · exact forall_mem_nil _
    next some_abi =>
      rw [abi.resolve_left some_abi]
      decide

theorem function_written {decl} (name : Solid isSpace decl.name)
    (plain : PlainSignature decl.signature) : Written (functionLine decl) := by
  have ⟨returns, params, abi⟩ := plain
  rw [functionLine, returns]
  refine written_line (by decide) (by decide) (by decide) ?_
    (.tail _ (.head _)) void_word
  simp only [forall_mem_cons, forall_mem_append]
  exact ⟨newline_of_solid name, newline_of_solid void_word.2,
    fun w here => newline_of_solid (flag_words abi w here).2, params_inner params⟩

theorem generic_written {tmpl} (name : Solid isSpace tmpl.name)
    (plain : PlainGeneric tmpl) : Written (genericLine tmpl) := by
  refine written_line (by decide) (by decide) (by decide) ?_
    (.tail _ (.head _)) (kind_word _)
  simp only [forall_mem_cons]
  exact ⟨newline_of_solid name, newline_of_solid (kind_word _).2,
    fun w member => newline_of_solid (plain.1 w member).2⟩

variable {db : SemanticDB}

theorem save_written (plain : Plain false db) : ∀ l ∈ saveLines db, Written l := by
  simp only [saveLines, forall_mem_cons, forall_mem_append, forall_mem_flatMap, List.forall_mem_map]
  refine ⟨⟨by decide, .inr (.inl (by decide))⟩, ⟨⟨?_, ?_⟩, ?_⟩, ?_⟩
  · intro decl present
    obtain ⟨name, body⟩ := plain.builtins decl present
    exact builtin_written name.1 body
  · intro decl present
    obtain ⟨name, body⟩ := plain.types decl present
    exact type_written name.1 body
  · intro decl present
    obtain ⟨name, signature⟩ := plain.functions decl present
    exact function_written name.1 signature
  · intro tmpl present
    obtain ⟨name, generic⟩ := plain.generics tmpl present
    exact generic_written name.1 generic

theorem saved_lines (plain : Plain false db) : lines '\n' (save db) = saveLines db ++ [[]] :=
  lines_unlines fun l member => (save_written plain l member).1

theorem load_save_strict (plain : Plain false db) : Plain true (load (save db)) := by
  apply load_plain
  intro _ l member
  rw [saved_lines plain] at member
  rcases mem_append.1 member with here | last
  · exact (save_written plain l here).2
  · exact .inl (mem_singleton.1 last)

end Lines

section Reread

variable {st : Loading} (ws : List Text)

theorem digits_end : ∀ c ∈ (spaced ' ' ws).head?, c.isDigit = false := by
  cases ws with
  | nil => simp [spaced]
  | cons w ws => simp [spaced]

theorem readNumber_spaced (n : Nat) (ws : List Text) :
    readNumber ((spaced ' ' (Nat.toDigits 10 n :: ws)).dropWhile isSpace) =
      (some (false, n), spaced ' ' ws) := by
  have start : (spaced ' ' (Nat.toDigits 10 n :: ws)).dropWhile isSpace =
      Nat.toDigits 10 n ++ spaced ' ' ws := by
    rw [spaced_cons, dropWhile_cons_of_pos sep_space]
    cases digits : Nat.toDigits 10 n with
    | nil => exact absurd digits Nat.toDigits_ne_nil
    | cons c rest =>
      have digit := digit_of_toDigits (n := n) (c := c) (by simp [digits])
      rw [cons_append, dropWhile_cons_of_neg (by simp [digit_solid digit])]
  rw [start, readNumber_toDigits n (digits_end ws)]

variable (n : UInt32)

theorem readUnsigned_text :
    readUnsigned (spaced ' ' (unsignedText n :: ws)) = (n, spaced ' ' ws) := by
  have small : n.toNat < 2 ^ 32 := n.toNat_lt
  rw [readUnsigned, unsignedText, readNumber_spaced]
  dsimp only
  rw [if_pos small, if_neg Bool.false_ne_true, UInt32.ofNat_toNat]

theorem readNonzero_flag (flag : Bool) (ws : List Text) :
    readNonzero (spaced ' ' ((if flag then ['1'] else ['0']) :: ws)) = (flag, spaced ' ' ws) := by
  cases flag with
  | true =>
    have read := readNumber_spaced 1 ws
    change readNumber ((spaced ' ' (['1'] :: ws)).dropWhile isSpace) = _ at read
    simp [readNonzero, read]
  | false =>
    have read := readNumber_spaced 0 ws
    change readNumber ((spaced ' ' (['0'] :: ws)).dropWhile isSpace) = _ at read
    simp [readNonzero, read]

theorem stoul_text : stoul (unsignedText n) = some n := by
  have small : n.toNat < 2 ^ 64 := lt_trans n.toNat_lt (by decide)
  have read : readNumber (Nat.toDigits 10 n.toNat ++ []) = (some (false, n.toNat), []) :=
    readNumber_toDigits n.toNat (by simp)
  rw [append_nil] at read
  rw [stoul, unsignedText, read]
  dsimp only
  rw [if_pos small, if_neg Bool.false_ne_true, UInt32.ofNat_toNat]

theorem unsigned_ne {c : Char} (letter : c.isDigit = false) (w : Text) :
    unsignedText n ≠ c :: w := by
  intro same
  have digit : c.isDigit = true := digit_of_toDigits (n := n.toNat) (by
    rw [← unsignedText, same]
    exact .head _)
  rw [letter] at digit
  cases digit

theorem readSizes_sizes (fi : FieldInfo) (sizes : List UInt32) (tail : List Text) :
    readSizes fi (sizes.map unsignedText ++ tail) =
      readSizes { fi with arraySizes := fi.arraySizes ++ sizes } tail := by
  induction sizes generalizing fi with
  | nil => simp
  | cons size sizes ih =>
    have no_auto : unsignedText size ≠ "auto".toList :=
      unsigned_ne size (c := 'a') (by decide) ['u', 't', 'o']
    have no_end : unsignedText size ≠ ['E'] := unsigned_ne size (by decide) []
    rw [map_cons, cons_append, readSizes, if_neg no_auto, if_neg no_end, stoul_text]
    dsimp only
    rw [ih, append_assoc]
    rfl

def flat (f : FieldInfo) : FieldInfo := { f with autoFill := false }

variable {f : FieldInfo}

variable (plain : PlainField true f)
include plain

theorem readField_words (tail : List Text)
    (all : ∀ w ∈ tail, Word isSpace w) :
    readField (spaced ' ' (fieldWords f ++ tail)) = readSizes (flat f) tail := by
  have ⟨name, type⟩ := plain
  have word : Word isSpace f.name := ⟨name.2 rfl, name.1⟩
  have sizes : ∀ w ∈ f.arraySizes.map unsignedText ++ tail, Word isSpace w := by
    intro w member
    rcases mem_append.1 member with here | here
    · rcases List.mem_map.1 here with ⟨size, _, rfl⟩
      exact unsigned_word size
    · exact all w here
  rw [fieldWords, type, readField]
  simp only [cons_append, readWord_spaced sep_space word,
    readWord_spaced sep_space void_word, readUnsigned_text, words_spaced sep_space sizes]
  rw [readSizes_sizes, flat]
  simp [type]

theorem readField_struct :
    readField (spaced ' ' (fieldWords f ++ if f.autoFill then ["auto".toList] else [])) = f := by
  rcases f with ⟨name, type, dims, sizes, auto⟩
  cases auto with
  | true => exact readField_words plain ["auto".toList] (by decide)
  | false => exact readField_words plain [] (by decide)

theorem readField_flat :
    readField (spaced ' ' (fieldWords f)) = flat f := by
  have read := readField_words plain [] (by decide)
  rwa [append_nil] at read

omit plain

variable {params : List Ref}

theorem words_voids (all : ∀ p ∈ params, p = none) :
    words isSpace (spaced ' ' (params.map typeName)) = params.map fun _ => typeName none := by
  rw [params_voids all]
  apply words_spaced sep_space
  intro w member
  rcases List.mem_map.1 member with ⟨_, _, rfl⟩
  exact void_word

theorem params_none (all : ∀ p ∈ params, p = none) :
    params.map (fun _ => none) = params := by
  have same : params.map (fun _ => none) = params.map id := by
    apply map_congr_left
    intro p member
    exact (all p member).symm
  rw [same, List.map_id]

theorem readMethod_words {m : MethodInfo} (plain : PlainMethod true m) :
    readMethod (spaced ' ' (m.name :: typeName m.returnType ::
      (if m.isStatic then "static".toList else "instance".toList) :: m.params.map typeName)) =
      m := by
  have ⟨name, returns, params⟩ := plain
  have word : Word isSpace m.name := ⟨name.2 rfl, name.1⟩
  have isStatic : Word isSpace (if m.isStatic then "static".toList else "instance".toList) := by
    cases m.isStatic <;> decide
  have flag : decide ((if m.isStatic then "static".toList else "instance".toList) =
      "static".toList) = m.isStatic := by
    cases m.isStatic <;> decide
  rw [readMethod, returns]
  simp only [readWord_spaced sep_space word, readWord_spaced sep_space void_word,
    readWord_spaced sep_space isStatic, words_voids params, List.map_map, Function.comp_def, flag]
  rw [params_none params, ← returns]

theorem readVariant_words {v} (plain : PlainVariant true v) :
    readVariant (spaced ' ' [v.name, unsignedText v.discriminant,
      variantPayloadKindToStr v.payloadKind]) = { v with payloadFields := [] } := by
  have word : Word isSpace v.name := ⟨plain.1.2 rfl, plain.1.1⟩
  have kind : strToVariantPayloadKind (variantPayloadKindToStr v.payloadKind) = v.payloadKind := by
    cases v.payloadKind <;> decide
  rw [readVariant]
  simp only [readWord_spaced sep_space word, readUnsigned_text,
    readWord_spaced sep_space (payload_word _), kind]

theorem readParams_voids (signature : Signature) (params : List Ref) :
    readParams signature (params.map fun _ => typeName none) =
      { signature with params := signature.params ++ params.map fun _ => none } := by
  induction params generalizing signature with
  | nil => simp [readParams]
  | cons p params ih =>
    have no_variadic : typeName none ≠ "variadic".toList := by decide
    have no_extern : typeName none ≠ "extern".toList := by decide
    have no_abi : typeName none ≠ ['C'] := by decide
    rw [map_cons, readParams, if_neg no_variadic, if_neg no_extern, if_neg no_abi, ih, append_assoc]
    rfl

theorem readParams_flags {signature : Signature}
    (abi : signature.externABI = [] ∨ signature.externABI = ['C']) (rest : List Text) :
    readParams ⟨none, [], false, false, []⟩ (flagWords signature ++ rest) =
      readParams ⟨none, [], signature.isVariadic, signature.isExtern, signature.externABI⟩
        rest := by
  rcases signature with ⟨returnType, params, isVariadic, isExtern, externABI⟩
  dsimp only at abi ⊢
  -- each of the three flags is written or not
  cases isVariadic <;> cases isExtern <;> rcases abi with rfl | rfl <;> rfl

theorem readFunction_words {decl : FunctionDecl} (name : Name true decl.name)
    (plain : PlainSignature decl.signature) :
    readFunction (spaced ' ' (decl.name :: typeName decl.signature.returnType ::
      (flagWords decl.signature ++ decl.signature.params.map typeName))) = decl := by
  have word : Word isSpace decl.name := ⟨name.2 rfl, name.1⟩
  have ⟨returns, params, abi⟩ := plain
  have all : ∀ w ∈ flagWords decl.signature ++ decl.signature.params.map typeName,
      Word isSpace w := by
    intro w member
    rcases mem_append.1 member with here | here
    · exact flag_words abi w here
    · rcases List.mem_map.1 here with ⟨p, present, rfl⟩
      rw [params p present]
      exact void_word
  rw [readFunction, returns]
  simp only [readWord_spaced sep_space word, readWord_spaced sep_space void_word,
    words_spaced sep_space all]
  rw [readParams_flags abi, params_voids params, readParams_voids, nil_append,
    params_none params, ← returns]

variable (kind : DeclKind) (genName : Text)

theorem kind_reread :
    minimalPattern genName (strToDeclKind (declKindToStr kind)) = minimalPattern genName kind := by
  cases kind <;> rfl

theorem minimalPattern_kind : minimalPattern genName
        (((minimalPattern genName kind).map fun pattern => pattern.body.kind).getD .Void) =
      minimalPattern genName kind := by
  cases kind <;> rfl

theorem readGeneric_words {tmpl} (name : Name true tmpl.name)
    (plain : PlainGeneric tmpl) : readGeneric (spaced ' ' (tmpl.name ::
      declKindToStr ((tmpl.pattern.map fun pattern => pattern.body.kind).getD .Void) ::
      tmpl.typeParams)) = tmpl := by
  have word : Word isSpace tmpl.name := ⟨name.2 rfl, name.1⟩
  have ⟨params, kind, pattern⟩ := plain
  rw [readGeneric]
  simp only [readWord_spaced sep_space word, readWord_spaced sep_space (kind_word _),
    words_spaced sep_space params, kind_reread]
  rw [pattern, minimalPattern_kind, ← pattern]

theorem readBuiltin_words {name suffix : Text} (bitWidth : UInt32) (isSigned : Bool)
    (word : Word isSpace name) (no_quote : '"' ∉ suffix) :
    readBuiltin (spaced ' ' ([name, declKindToStr .Integer, unsignedText bitWidth,
      if isSigned then ['1'] else ['0']] ++ ['"' :: (suffix ++ ['"'])])) =
      ⟨name, .primitive .Integer bitWidth isSigned suffix⟩ := by
  have kind : strToDeclKind (declKindToStr .Integer) = .Integer := by decide
  have quoted : (((spaced ' ' ['"' :: (suffix ++ ['"'])]).dropWhile isSpace).drop 1).takeWhile
      (fun c => decide (c ≠ '"')) = suffix := by
    have start : (spaced ' ' ['"' :: (suffix ++ ['"'])]).dropWhile isSpace =
        '"' :: (suffix ++ ['"']) := by
      simp [spaced, isSpace]
    have all : ∀ c ∈ suffix, decide (c ≠ '"') = true := by
      intro c member
      rw [decide_eq_true_iff]
      rintro rfl
      exact no_quote member
    rw [start, drop_one, tail_cons, takeWhile_append_of_pos all]
    simp
  rw [readBuiltin]
  simp only [cons_append, nil_append, readWord_spaced sep_space word,
    readWord_spaced sep_space (kind_word _), readUnsigned_text, readNonzero_flag, quoted, kind]

theorem readExtended_words {name extendedKind cPrefix : Text} (more : List Text)
    (word : Word isSpace name) (kindWord : Word isSpace extendedKind)
    (prefixWord : Word isSpace cPrefix) :
    readExtended (spaced ' ' (name :: extendedKind :: cPrefix :: more)) =
      ⟨name, .extended extendedKind cPrefix none none none⟩ := by
  rw [readExtended]
  simp only [readWord_spaced sep_space word, readWord_spaced sep_space kindWord,
    readWord_spaced sep_space prefixWord]

end Reread

section Blocks
variable {st : Loading}

theorem loadLine_lineOf (st : Loading) {indent directive : Text} (ws : List Text)
    (blank : indent.all isSpace = true) (word : Word isSpace directive)
    (no_comment : (indent ++ directive).head? ≠ some '#') :
    loadLine st (lineOf indent directive ws) = loadDirective st directive (spaced ' ' ws) := by
  have some_text : indent ++ directive ≠ [] := by simp [word.1]
  have no_skip : ¬ (lineOf indent directive ws = [] ∨
      (lineOf indent directive ws).head? = some '#') := by
    rw [lineOf]
    cases start : indent ++ directive with
    | nil => exact absurd start some_text
    | cons c rest =>
      rw [start] at no_comment
      simpa using no_comment
  rw [loadLine, if_neg no_skip, readWord_lineOf ws blank word]

theorem change_same {f} (same : ∀ decl ∈ st.current, f decl.body = decl.body) :
    st.change f = st := by
  rcases st with ⟨db, name, kind, current⟩
  cases current with
  | none => rfl
  | some decl => simp [Loading.change, same decl rfl]

theorem change_change (f g : Body → Body) :
    (st.change f).change g = st.change fun body => g (f body) := by
  cases here : st.current <;> simp [Loading.change, here]

theorem loaded_changes {α : Type} (line : α → Text) (f : α → Body → Body) (xs : List α)
    (each : ∀ x ∈ xs, ∀ st, loadLine st (line x) = st.change (f x)) (st : Loading) :
    (xs.map line).foldl loadLine st =
      st.change fun body => xs.foldl (fun body x => f x body) body := by
  induction xs generalizing st with
  | nil => exact (change_same fun _ _ => rfl).symm
  | cons x xs ih =>
    have ⟨first, later⟩ := forall_mem_cons.1 each
    rw [map_cons, foldl_cons, first, ih later, change_change]
    rfl

variable {f : FieldInfo}

theorem loaded_struct_field (plain : PlainField true f) (st : Loading) :
    loadLine st (structFieldLine f) = st.change (addField f) := by
  rw [structFieldLine, loadLine_lineOf st _ (by decide) (by decide) (by decide)]
  change st.change (addField (readField _)) = _
  rw [readField_struct plain]

theorem loaded_field (plain : PlainField true f) {indent : Text}
    (blank : indent.all isSpace = true) (no_comment : (indent ++ ['F']).head? ≠ some '#')
    (st : Loading) :
    loadLine st (lineOf indent ['F'] (fieldWords f)) = st.change (addField (flat f)) := by
  rw [loadLine_lineOf st _ blank (by decide) no_comment]
  change st.change (addField (readField _)) = _
  rw [readField_flat plain]

theorem loaded_method {m : MethodInfo} (plain : PlainMethod true m) (st : Loading) :
    loadLine st (methodLine m) = st.change (SemanticDB.addMethods [m]) := by
  rw [methodLine, loadLine_lineOf st _ (by decide) (by decide) (by decide)]
  change st.change (SemanticDB.addMethods [readMethod _]) = _
  rw [readMethod_words plain]

theorem loaded_ended (st : Loading) : loadLine st ['E'] = st := rfl

def flatVariant (v : VariantInfo) : VariantInfo :=
  { v with payloadFields := v.payloadFields.map flat }

theorem addPayload_last (fi : FieldInfo) (variants : List VariantInfo) (v : VariantInfo) :
    addPayload fi (variants ++ [v]) =
      variants ++ [{ v with payloadFields := v.payloadFields ++ [fi] }] := by
  induction variants with
  | nil => rfl
  | cons first rest ih =>
    cases rest with
    | nil => rfl
    | cons next rest => exact congrArg (first :: ·) ih

variable (fields : List FieldInfo)

theorem payload_fields (variants : List VariantInfo) (v : VariantInfo) :
    fields.foldl (fun body f => addField (flat f) body) (.enum (variants ++ [v])) =
      .enum (variants ++ [{ v with payloadFields := v.payloadFields ++ fields.map flat }]) := by
  induction fields generalizing v with
  | nil => simp
  | cons f fields ih =>
    rw [foldl_cons, addField, addPayload_last, ih]
    simp

theorem loaded_variant {v} (plain : PlainVariant true v) (st : Loading) :
    (variantLines v).foldl loadLine st = st.change fun body =>
      v.payloadFields.foldl (fun body f => addField (flat f) body)
        (addVariant { v with payloadFields := [] } body) := by
  rw [variantLines, foldl_cons, loadLine_lineOf st _ (by decide) (by decide) (by decide)]
  change List.foldl loadLine (st.change (addVariant (readVariant _))) _ = _
  rw [readVariant_words plain, loaded_changes _ (fun f => addField (flat f)) _
    (fun f member => loaded_field (plain.2 f member) (by decide) (by decide)), change_change]

theorem loaded_variants {variants : List VariantInfo}
    (plain : ∀ v ∈ variants, PlainVariant true v) (before : List VariantInfo)
    (here : ∃ name, st.current = some ⟨name, .enum before⟩) :
    (variants.flatMap variantLines).foldl loadLine st =
      st.change fun _ => .enum (before ++ variants.map flatVariant) := by
  induction variants generalizing st before with
  | nil =>
    rcases here with ⟨name, here⟩
    refine (change_same fun decl member => ?_).symm
    rw [Option.some.inj (here.symm.trans member).symm, map_nil, append_nil]
  | cons v variants ih =>
    have ⟨first, later⟩ := forall_mem_cons.1 plain
    rcases here with ⟨name, here⟩
    have read : (variantLines v).foldl loadLine st =
        st.change fun _ => .enum (before ++ [flatVariant v]) := by
      rw [loaded_variant first]
      simp only [Loading.change, here, Option.map_some, addVariant, payload_fields]
      rfl
    rw [flatMap_cons, foldl_append, read,
      ih later (before ++ [flatVariant v]) ⟨name, by simp [Loading.change, here]⟩,
      change_change]
    simp

variable (added : List FieldInfo)

theorem struct_fields (parentName : Text) :
    fields.foldl (fun body f => addField f body) (.struct added [] parentName) =
      .struct (added ++ fields) [] parentName := by
  induction fields generalizing added with
  | nil => simp
  | cons f fields ih =>
    rw [foldl_cons, addField, ih, append_assoc]
    rfl

theorem struct_methods (methods added : List MethodInfo) (fields : List FieldInfo)
    (parentName : Text) : methods.foldl (fun body m => SemanticDB.addMethods [m] body)
        (.struct fields added parentName) = .struct fields (added ++ methods) parentName := by
  induction methods generalizing added with
  | nil => simp
  | cons m methods ih =>
    rw [foldl_cons, SemanticDB.addMethods, ih, append_assoc]
    rfl

theorem union_fields :
    fields.foldl (fun body f => addField (flat f) body) (.union added) =
      .union (added ++ fields.map flat) := by
  induction fields generalizing added with
  | nil => simp
  | cons f fields ih =>
    rw [foldl_cons, addField, ih, append_assoc]
    rfl

def storedBody : Body → Body
  | .struct fields methods _ => .struct fields methods []
  | .union fields => .union (fields.map flat)
  | .enum variants => .enum (variants.map flatVariant)
  | body => body

theorem loaded_header (st : Loading) {name kind : Text} (more : List Text)
    (word : Word isSpace name) (kindWord : Word isSpace kind) :
    loadLine st (lineOf [] ['T'] (name :: kind :: more)) = ⟨flushCurrentType st, name, kind,
        (startBody kind (spaced ' ' more)).map fun body => ⟨name, body⟩⟩ := by
  rw [loadLine_lineOf st _ (by decide) (by decide) (by decide)]
  change startType st _ = _
  rw [startType, readWord_spaced sep_space word]
  dsimp only
  rw [readWord_spaced sep_space kindWord, orElse, orElse, if_neg word.1, if_neg kindWord.1]

theorem loaded_type {decl : Decl} (name : Name true decl.name)
    (plain : PlainType true decl.body) (st : Loading) : ∃ kind, (typeLines decl).foldl loadLine st =
      ⟨flushCurrentType st, decl.name, kind, some ⟨decl.name, storedBody decl.body⟩⟩ := by
  have word : Word isSpace decl.name := ⟨name.2 rfl, name.1⟩
  rcases decl with ⟨declName, body⟩
  cases body with
  | struct fields methods parentName =>
    refine ⟨"Struct".toList, ?_⟩
    rw [typeLines, foldl_cons, loaded_header st [] word (by decide), foldl_append, foldl_append,
      loaded_changes _ addField _ (fun f member => loaded_struct_field (plain.1 f member)),
      loaded_changes _ (fun m => SemanticDB.addMethods [m]) _
        (fun m member => loaded_method (plain.2 m member)), change_change,
      foldl_cons, foldl_nil, loaded_ended]
    change Loading.change ⟨_, _, _, some ⟨declName, .struct [] [] []⟩⟩ _ = _
    rw [Loading.change, Option.map_some, struct_fields, struct_methods]
    rfl
  | union fields =>
    refine ⟨"Union".toList, ?_⟩
    rw [typeLines, foldl_cons, loaded_header st [] word (by decide), foldl_append,
      loaded_changes _ (fun f => addField (flat f)) _
        (fun f member => loaded_field (plain f member) (by decide) (by decide)),
      foldl_cons, foldl_nil, loaded_ended]
    change Loading.change ⟨_, _, _, some ⟨declName, .union []⟩⟩ _ = _
    rw [Loading.change, Option.map_some, union_fields]
    rfl
  | enum variants =>
    refine ⟨"Enum".toList, ?_⟩
    rw [typeLines, foldl_cons, loaded_header st [] word (by decide), foldl_append,
      loaded_variants plain [] ⟨declName, rfl⟩]
    rfl
  | pointer pointeeType =>
    refine ⟨"Pointer".toList, ?_⟩
    rw [typeLines, foldl_cons, loaded_header st _ word (by decide),
      show pointeeType = none from plain]
    rfl
  | tuple elements =>
    refine ⟨"Tuple".toList, ?_⟩
    rw [typeLines, foldl_cons, loaded_header st _ word (by decide), show elements = [] from plain]
    rfl
  | typeAlias target arraySize arraySizes =>
    have ⟨noTarget, noSize, noSizes⟩ := plain
    refine ⟨"TypeAlias".toList, ?_⟩
    rw [typeLines, foldl_cons, loaded_header st _ word (by decide), noTarget, noSize, noSizes]
    rfl
  | _ => exact False.elim plain

end Blocks

end Lucis.Semantic
