import Mathlib.Algebra.Ring.Nat
import Lucis.Library.Words

/-!
The declaration store of semantic/SemanticDB.cpp: its registration operations, the text that
save writes and the store that load reads from it. A reference to a declaration is what save
reads of it, its name; forward declarations, traits, impls and intrinsics are in none of the
maps that are saved, and module paths, locations, parameter names, generic parameter lists and
the tag widths of enums are not written.
-/

namespace Lucis.Semantic
open Words

abbrev Text := List Char

local instance text_lawful : LawfulBEq Text := inferInstance

/-- `Decl*`, by the name of the declaration; null is none. -/
abbrev Ref := Option Text

inductive DeclKind where
  | Integer | Float | Bool | Char | Void | String | VAList
  | Struct | BitStruct | Union | Enum | Pointer | Function | Extended | Tuple | Fallible
  | TypeAlias | GenericTemplate | Intrinsic | Trait | Impl
deriving DecidableEq

structure FieldInfo where
  name : Text
  type : Ref
  arrayDims : UInt32
  arraySizes : List UInt32
  autoFill : Bool
deriving DecidableEq

inductive VariantPayloadKind where
  | Unit | Tuple | Named
deriving DecidableEq

structure VariantInfo where
  name : Text
  discriminant : UInt32
  payloadKind : VariantPayloadKind
  payloadFields : List FieldInfo
deriving DecidableEq

structure MethodInfo where
  name : Text
  returnType : Ref
  params : List Ref
  isStatic : Bool
deriving DecidableEq

structure Signature where
  returnType : Ref
  params : List Ref
  isVariadic : Bool
  isExtern : Bool
  externABI : Text
deriving DecidableEq

inductive Body where
  | primitive (kind : DeclKind) (bitWidth : UInt32) (isSigned : Bool) (builtinSuffix : Text)
  | extended (extendedKind cPrefix : Text) (elementType keyType valueType : Ref)
  | struct (fields : List FieldInfo) (methods : List MethodInfo) (parentName : Text)
  | union (fields : List FieldInfo)
  | enum (variants : List VariantInfo)
  | pointer (pointeeType : Ref)
  | tuple (elements : List Ref)
  | typeAlias (target : Ref) (arraySize : UInt32) (arraySizes : List UInt32)
  | function (signature : Signature)
  /-- The classes that save does not look at. -/
  | other (kind : DeclKind)
deriving DecidableEq

structure Decl where
  name : Text
  body : Body
deriving DecidableEq

structure FunctionDecl where
  name : Text
  signature : Signature
deriving DecidableEq

structure GenericTemplateDecl where
  name : Text
  typeParams : List Text
  pattern : Option Decl
deriving DecidableEq

structure SemanticDB where
  builtins : List Decl
  types : List Decl
  functions : List FunctionDecl
  generics : List GenericTemplateDecl
  pendingExtends : List (Text × List MethodInfo)

def Body.kind : Body → DeclKind
  | .primitive kind .. => kind
  | .extended .. => .Extended
  | .struct .. => .Struct
  | .union _ => .Union
  | .enum _ => .Enum
  | .pointer _ => .Pointer
  | .tuple _ => .Tuple
  | .typeAlias .. => .TypeAlias
  | .function _ => .Function
  | .other kind => kind

section Substitution

def resolve (subst : List (Text × Ref)) : Ref → Ref
  | none => none
  | some name => (subst.lookup name).getD (some name)

def substituteInFields (subst : List (Text × Ref)) (fields : List FieldInfo) : List FieldInfo :=
  fields.map fun f => { f with type := resolve subst f.type }

def substituteInMethods (subst : List (Text × Ref)) (methods : List MethodInfo) :
    List MethodInfo :=
  methods.map fun m =>
    { m with returnType := resolve subst m.returnType, params := m.params.map (resolve subst) }

def Body.substituteTypes (subst : List (Text × Ref)) : Body → Body
  | .primitive kind bitWidth isSigned builtinSuffix =>
    .primitive kind bitWidth isSigned builtinSuffix
  | .extended extendedKind cPrefix elementType keyType valueType =>
    .extended extendedKind cPrefix (resolve subst elementType) (resolve subst keyType)
      (resolve subst valueType)
  | .struct fields methods parentName =>
    .struct (substituteInFields subst fields) (substituteInMethods subst methods) parentName
  | .union fields => .union (substituteInFields subst fields)
  | .enum variants =>
    .enum (variants.map fun v =>
      { v with payloadFields := substituteInFields subst v.payloadFields })
  | .pointer pointeeType => .pointer (resolve subst pointeeType)
  | .tuple elements => .tuple (elements.map (resolve subst))
  | .typeAlias target arraySize arraySizes =>
    .typeAlias (resolve subst target) arraySize arraySizes
  | .function signature =>
    .function { signature with
      returnType := resolve subst signature.returnType
      params := signature.params.map (resolve subst) }
  | .other kind => .other kind

end Substitution

namespace SemanticDB

def empty : SemanticDB := ⟨[], [], [], [], []⟩

def addMethods (more : List MethodInfo) : Body → Body
  | .struct fields methods parentName => .struct fields (methods ++ more) parentName
  | body => body

def registerType (db : SemanticDB) (decl : Decl) : SemanticDB :=
  if decl.name ∈ db.types.map Decl.name then db
  else
    match decl.body.kind, db.pendingExtends.lookup decl.name with
    | .Struct, some pending =>
      { db with
        types := db.types ++ [⟨decl.name, addMethods pending decl.body⟩]
        pendingExtends := db.pendingExtends.filter fun entry => entry.1 ≠ decl.name }
    | _, _ => { db with types := db.types ++ [decl] }

def registerFunction (db : SemanticDB) (decl : FunctionDecl) : SemanticDB :=
  if decl.name ∈ db.functions.map FunctionDecl.name then db
  else { db with functions := db.functions ++ [decl] }

def registerGeneric (db : SemanticDB) (tmpl : GenericTemplateDecl) : SemanticDB :=
  if tmpl.name ∈ db.generics.map GenericTemplateDecl.name then db
  else { db with generics := db.generics ++ [tmpl] }

def registerBuiltin (db : SemanticDB) (decl : Decl) : SemanticDB :=
  if decl.name ∈ db.builtins.map Decl.name then db
  else { db with builtins := db.builtins ++ [decl] }

def mergeExtendMethods (db : SemanticDB) (structName : Text) (methods : List MethodInfo) :
    SemanticDB :=
  if structName ∈ db.types.map Decl.name then
    { db with
      types := db.types.map fun decl =>
        if decl.name = structName then ⟨decl.name, addMethods methods decl.body⟩ else decl }
  else
    let pending := (db.pendingExtends.lookup structName).getD []
    { db with
      pendingExtends := (structName, pending ++ methods) ::
        db.pendingExtends.filter fun entry => entry.1 ≠ structName }

def mangleGenericName (baseName : Text) (typeArgs : List Ref) : Text :=
  baseName ++ typeArgs.flatMap fun arg =>
    ['_', '_'] ++ (arg.getD []).map fun c => if c = '*' then 'P' else c

/-- A template without a pattern is not instantiated: the source would clone a null pointer. -/
def instantiateGeneric (db : SemanticDB) (baseName : Text) (typeArgs : List Ref) : SemanticDB :=
  match db.generics.find? fun tmpl => tmpl.name = baseName with
  | none => db
  | some tmpl =>
    let mangled := mangleGenericName baseName typeArgs
    if typeArgs.length ≠ tmpl.typeParams.length then db
    else if mangled ∈ db.types.map Decl.name then db
    else
      match tmpl.pattern with
      | none => db
      | some pattern =>
        -- a later parameter of the same name overwrites an earlier one
        let subst := (tmpl.typeParams.zip typeArgs).reverse
        { db with types := db.types ++ [⟨mangled, pattern.body.substituteTypes subst⟩] }

end SemanticDB

inductive Registration where
  | type (decl : Decl)
  | function (decl : FunctionDecl)
  | generic (tmpl : GenericTemplateDecl)
  | builtin (decl : Decl)
  | extend (structName : Text) (methods : List MethodInfo)
  | instantiate (baseName : Text) (typeArgs : List Ref)

def SemanticDB.register (db : SemanticDB) : Registration → SemanticDB
  | .type decl => db.registerType decl
  | .function decl => db.registerFunction decl
  | .generic tmpl => db.registerGeneric tmpl
  | .builtin decl => db.registerBuiltin decl
  | .extend structName methods => db.mergeExtendMethods structName methods
  | .instantiate baseName typeArgs => db.instantiateGeneric baseName typeArgs

def SemanticDB.registered (registrations : List Registration) : SemanticDB :=
  registrations.foldl SemanticDB.register .empty

section Save

def declKindToStr : DeclKind → Text
  | .Integer => "Integer".toList
  | .Float => "Float".toList
  | .Bool => "Bool".toList
  | .Char => "Char".toList
  | .String => "String".toList
  | .VAList => "VAList".toList
  | .Struct => "Struct".toList
  | .Union => "Union".toList
  | .Enum => "Enum".toList
  | .Pointer => "Pointer".toList
  | .Function => "Function".toList
  | .Extended => "Extended".toList
  | .Tuple => "Tuple".toList
  | .TypeAlias => "TypeAlias".toList
  | .GenericTemplate => "GenericTemplate".toList
  | .Intrinsic => "Intrinsic".toList
  | .Trait => "Trait".toList
  | .Impl => "Impl".toList
  -- Void, and the two kinds without a case
  | .Void | .BitStruct | .Fallible => "Void".toList

def variantPayloadKindToStr : VariantPayloadKind → Text
  | .Unit => "Unit".toList
  | .Tuple => "Tuple".toList
  | .Named => "Named".toList

def unsignedText (n : UInt32) : Text := Nat.toDigits 10 n.toNat

def typeName (type : Ref) : Text := type.getD "void".toList

def lineOf (indent directive : Text) (ws : List Text) : Text := indent ++ directive ++ spaced ' ' ws

def fieldWords (f : FieldInfo) : List Text :=
  f.name :: typeName f.type :: unsignedText f.arrayDims :: f.arraySizes.map unsignedText

def structFieldLine (f : FieldInfo) : Text :=
  lineOf "  ".toList ['F'] (fieldWords f ++ if f.autoFill then ["auto".toList] else [])

def methodLine (m : MethodInfo) : Text :=
  lineOf "  ".toList ['M']
    (m.name :: typeName m.returnType ::
      (if m.isStatic then "static".toList else "instance".toList) :: m.params.map typeName)

def variantLines (v : VariantInfo) : List Text :=
  lineOf "  ".toList ['V']
      [v.name, unsignedText v.discriminant, variantPayloadKindToStr v.payloadKind] ::
    v.payloadFields.map fun pf => lineOf "    ".toList ['F'] (fieldWords pf)

def builtinLines (decl : Decl) : List Text :=
  match decl.body with
  | .primitive .Integer bitWidth isSigned builtinSuffix =>
    [lineOf [] ['B'] [decl.name, declKindToStr .Integer, unsignedText bitWidth,
      if isSigned then ['1'] else ['0']] ++ [' ', '"'] ++ builtinSuffix ++ ['"']]
  | .extended extendedKind cPrefix elementType keyType valueType =>
    [lineOf [] ['X'] [decl.name, extendedKind, cPrefix, elementType.getD ['-'],
      keyType.getD ['-'], valueType.getD ['-']]]
  | .struct fields _ parentName =>
    lineOf [] ['T'] [decl.name, "Struct".toList, if parentName = [] then ['-'] else parentName] ::
      fields.map structFieldLine ++ [['E']]
  | _ => []

def typeLines (decl : Decl) : List Text :=
  match decl.body with
  | .struct fields methods _ =>
    lineOf [] ['T'] [decl.name, "Struct".toList] ::
      (fields.map structFieldLine ++ methods.map methodLine ++ [['E']])
  | .union fields =>
    lineOf [] ['T'] [decl.name, "Union".toList] ::
      ((fields.map fun f => lineOf "  ".toList ['F'] (fieldWords f)) ++ [['E']])
  | .enum variants =>
    lineOf [] ['T'] [decl.name, "Enum".toList] :: (variants.flatMap variantLines ++ [['E']])
  | .pointer pointeeType =>
    [lineOf [] ['T'] [decl.name, "Pointer".toList, typeName pointeeType], ['E']]
  | .tuple elements =>
    [lineOf [] ['T'] (decl.name :: "Tuple".toList :: elements.map typeName), ['E']]
  | .typeAlias target arraySize arraySizes =>
    [lineOf [] ['T'] (decl.name :: "TypeAlias".toList :: typeName target ::
      unsignedText arraySize :: arraySizes.map unsignedText), ['E']]
  | _ => []

def flagWords (signature : Signature) : List Text :=
  (if signature.isVariadic then ["variadic".toList] else []) ++
    (if signature.isExtern then ["extern".toList] else []) ++
    (if signature.externABI = [] then [] else [signature.externABI])

def functionLine (decl : FunctionDecl) : Text :=
  lineOf [] ['C'] (decl.name :: typeName decl.signature.returnType ::
    (flagWords decl.signature ++ decl.signature.params.map typeName))

def genericLine (tmpl : GenericTemplateDecl) : Text :=
  lineOf [] ['G'] (tmpl.name ::
    declKindToStr ((tmpl.pattern.map fun pattern => pattern.body.kind).getD .Void) ::
    tmpl.typeParams)

def saveLines (db : SemanticDB) : List Text :=
  "VER 1".toList :: (db.builtins.flatMap builtinLines ++ db.types.flatMap typeLines ++
    db.functions.map functionLine ++ db.generics.map genericLine)

def save (db : SemanticDB) : Text := unlines '\n' (saveLines db)

end Save

section Load

/-- `isspace` in the C locale. -/
def isSpace (c : Char) : Bool :=
  c = ' ' || c = '\t' || c = '\n' || c = '\x0b' || c = '\x0c' || c = '\r'

def strToDeclKind (s : Text) : DeclKind :=
  (([.Integer, .Float, .Bool, .Char, .Void, .String, .VAList, .Struct, .Union, .Enum, .Pointer,
    .Function, .Extended, .Tuple, .TypeAlias, .GenericTemplate, .Intrinsic, .Trait, .Impl] :
      List DeclKind).find? fun kind => declKindToStr kind = s).getD .Void

def strToVariantPayloadKind (s : Text) : VariantPayloadKind :=
  if s = "Tuple".toList then .Tuple else if s = "Named".toList then .Named else .Unit

/-- `ss >> n`. A stream that failed has nothing left to read. -/
def readUnsigned (ss : Text) : UInt32 × Text :=
  match readNumber (ss.dropWhile isSpace) with
  | (none, _) => (0, [])
  | (some (negative, n), rest) =>
    if n < 2 ^ 32 then (if negative then -UInt32.ofNat n else UInt32.ofNat n, rest)
    else (4294967295, [])

/-- `ss >> n` for an int, of which only its being zero is asked. -/
def readNonzero (ss : Text) : Bool × Text :=
  match readNumber (ss.dropWhile isSpace) with
  | (none, _) => (false, [])
  | (some (negative, n), rest) =>
    if n < 2 ^ 31 ∨ negative ∧ n = 2 ^ 31 then (n ≠ 0, rest) else (true, [])

/-- `static_cast<unsigned>(std::stoul(token))`, none where it throws. -/
def stoul (token : Text) : Option UInt32 :=
  match readNumber token with
  | (none, _) => none
  | (some (negative, n), _) =>
    if n < 2 ^ 64 then some (if negative then -UInt32.ofNat n else UInt32.ofNat n) else none

def readBuiltin (ss : Text) : Decl :=
  let (name, ss) := readWord isSpace ss
  let (kindStr, ss) := readWord isSpace ss
  let (bw, ss) := readUnsigned ss
  let (signd, ss) := readNonzero ss
  let suffix := ((ss.dropWhile isSpace).drop 1).takeWhile fun c => c ≠ '"'
  ⟨name, .primitive (strToDeclKind kindStr) bw signd suffix⟩

def readExtended (ss : Text) : Decl :=
  let (name, ss) := readWord isSpace ss
  let (extKind, ss) := readWord isSpace ss
  let (cPrefix, _) := readWord isSpace ss
  ⟨name, .extended extKind cPrefix none none none⟩

def readSizes (fi : FieldInfo) : List Text → FieldInfo
  | [] => fi
  | token :: rest =>
    if token = "auto".toList then readSizes { fi with autoFill := true } rest
    else if token = ['E'] then fi
    else
      match stoul token with
      | some size => readSizes { fi with arraySizes := fi.arraySizes ++ [size] } rest
      | none => readSizes fi rest

def readField (ss : Text) : FieldInfo :=
  let (fieldName, ss) := readWord isSpace ss
  let (_, ss) := readWord isSpace ss
  let (dims, ss) := readUnsigned ss
  readSizes ⟨fieldName, none, dims, [], false⟩ (words isSpace ss)

def readMethod (ss : Text) : MethodInfo :=
  let (methodName, ss) := readWord isSpace ss
  let (_, ss) := readWord isSpace ss
  let (isStaticStr, ss) := readWord isSpace ss
  ⟨methodName, none, (words isSpace ss).map fun _ => none, isStaticStr = "static".toList⟩

def readVariant (ss : Text) : VariantInfo :=
  let (varName, ss) := readWord isSpace ss
  let (disc, ss) := readUnsigned ss
  let (payloadKindStr, _) := readWord isSpace ss
  ⟨varName, disc, strToVariantPayloadKind payloadKindStr, []⟩

def readParams (signature : Signature) : List Text → Signature
  | [] => signature
  | param :: rest =>
    if param = "variadic".toList then readParams { signature with isVariadic := true } rest
    else if param = "extern".toList then readParams { signature with isExtern := true } rest
    else if param = ['C'] then readParams { signature with externABI := ['C'] } rest
    else readParams { signature with params := signature.params ++ [none] } rest

def readFunction (ss : Text) : FunctionDecl :=
  let (funcName, ss) := readWord isSpace ss
  let (_, ss) := readWord isSpace ss
  ⟨funcName, readParams ⟨none, [], false, false, []⟩ (words isSpace ss)⟩

def minimalPattern (genName : Text) : DeclKind → Option Decl
  | .Struct => some ⟨genName, .struct [] [] []⟩
  | .Union => some ⟨genName, .union []⟩
  | .Enum => some ⟨genName, .enum []⟩
  | .Function => some ⟨genName, .function ⟨none, [], false, false, []⟩⟩
  | _ => none

def readGeneric (ss : Text) : GenericTemplateDecl :=
  let (genName, ss) := readWord isSpace ss
  let (patternKind, ss) := readWord isSpace ss
  ⟨genName, words isSpace ss, minimalPattern genName (strToDeclKind patternKind)⟩

/-- The variables of the loop; at most one of the `current…` declarations is set. -/
structure Loading where
  db : SemanticDB
  currentTypeName : Text
  currentTypeKind : Text
  current : Option Decl

def flushCurrentType (st : Loading) : SemanticDB :=
  match st.current with
  | some decl => st.db.registerType decl
  | none => st.db

def startBody (currentTypeKind : Text) (ss : Text) : Option Body :=
  if currentTypeKind = "Struct".toList then
    let (parentName, _) := readWord isSpace ss
    some (.struct [] [] (if parentName = ['-'] then [] else parentName))
  else if currentTypeKind = "Union".toList then some (.union [])
  else if currentTypeKind = "Enum".toList then some (.enum [])
  else if currentTypeKind = "Pointer".toList then some (.pointer none)
  else if currentTypeKind = "Tuple".toList then some (.tuple [])
  else if currentTypeKind = "TypeAlias".toList then some (.typeAlias none 0 [])
  else none

def orElse (word before : Text) : Text := if word = [] then before else word

def startType (st : Loading) (ss : Text) : Loading :=
  let (name, ss) := readWord isSpace ss
  let (kind, ss) := readWord isSpace ss
  let currentTypeName := orElse name st.currentTypeName
  let currentTypeKind := orElse kind st.currentTypeKind
  { db := flushCurrentType st
    currentTypeName
    currentTypeKind
    current := (startBody currentTypeKind ss).map fun body => ⟨currentTypeName, body⟩ }

def addPayload (fi : FieldInfo) : List VariantInfo → List VariantInfo
  | [] => []
  | [v] => [{ v with payloadFields := v.payloadFields ++ [fi] }]
  | v :: next :: rest => v :: addPayload fi (next :: rest)

def addField (fi : FieldInfo) : Body → Body
  | .struct fields methods parentName => .struct (fields ++ [fi]) methods parentName
  | .union fields => .union (fields ++ [fi])
  | .enum variants => .enum (addPayload fi variants)
  | body => body

def addVariant (vi : VariantInfo) : Body → Body
  | .enum variants => .enum (variants ++ [vi])
  | body => body

def Loading.change (st : Loading) (f : Body → Body) : Loading :=
  { st with current := st.current.map fun decl => ⟨decl.name, f decl.body⟩ }

def loadDirective (st : Loading) (directive ss : Text) : Loading :=
  if directive = "VER".toList then st
  else if directive = ['B'] then { st with db := st.db.registerBuiltin (readBuiltin ss) }
  else if directive = ['X'] then { st with db := st.db.registerBuiltin (readExtended ss) }
  else if directive = ['T'] then startType st ss
  else if directive = ['F'] then st.change (addField (readField ss))
  else if directive = ['M'] then st.change (SemanticDB.addMethods [readMethod ss])
  else if directive = ['V'] then st.change (addVariant (readVariant ss))
  else if directive = ['E'] then st
  else if directive = ['C'] then { st with db := st.db.registerFunction (readFunction ss) }
  else if directive = ['G'] then { st with db := st.db.registerGeneric (readGeneric ss) }
  else st

def loadLine (st : Loading) (line : Text) : Loading :=
  if line = [] ∨ line.head? = some '#' then st
  else
    let (directive, ss) := readWord isSpace line
    loadDirective st directive ss

def load (text : Text) : SemanticDB :=
  flushCurrentType ((lines '\n' text).foldl loadLine ⟨.empty, [], [], none⟩)

end Load

end Lucis.Semantic
