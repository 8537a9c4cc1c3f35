import QtProtobuf.Core.Guards
import QtProtobuf.L5Generator.EnumVisibility

/-!
# The meta types of the maps

`printMetaTypesDeclaration` prints a meta type for each map field, guarded by a
macro that is named after the key type and, in the place of the value type, the
key type again. `QMap<key, value>` is the C++ type the field's alias stands for.

* `scope_type_simple`, `keyParts_injective`: the fifteen simple types by their
  names; their C++ types differ as well (`cppScalar_injective`).
* `guard_eq_iff`: two guards are one exactly if the key types are.
* `metaTypes_iff`: guards and types agree, and each type is declared once,
  exactly under `OneValueType`.
-/
namespace QtProtobuf.Generator

open Lib

/-- The types of fields with a C++ type of their own.
mirrors src/generator/templates.cpp:408-424 -/
inductive SimpleType where
  | double | float | int64 | uint64 | int32 | fixed64 | fixed32 | bool | string | bytes
  | uint32 | sfixed32 | sfixed64 | sint32 | sint64
  deriving DecidableEq

namespace SimpleType

def all : List SimpleType :=
  [double, float, int64, uint64, int32, fixed64, fixed32, bool, string, bytes, uint32, sfixed32,
    sfixed64, sint32, sint64]

theorem mem_all (t : SimpleType) : t ∈ all := by
  cases t <;> simp [all]

/-- `Templates::TypeReflection` -/
def reflection : SimpleType → Str
  | double => "double".toList
  | float => "float".toList
  | int64 => "int64".toList
  | uint64 => "uint64".toList
  | int32 => "int32".toList
  | fixed64 => "fixed64".toList
  | fixed32 => "fixed32".toList
  | bool => "bool".toList
  | string => "QString".toList
  | bytes => "QByteArray".toList
  | uint32 => "uint32".toList
  | sfixed32 => "sfixed32".toList
  | sfixed64 => "sfixed64".toList
  | sint32 => "sint32".toList
  | sint64 => "sint64".toList

end SimpleType

structure SimpleTypeMap extends TypeMap where
  qml_alias_type : Str

namespace common

/-- `Templates::QtProtobufNamespace` -/
def QtProtobufNamespace : Str := "QtProtobuf".toList

/-- mirrors src/generator/generatorcommon.cpp:188-266 -/
def produceSimpleTypeMap (type : SimpleType) : SimpleTypeMap :=
  let namespaces :=
    if type ∉ [.string, .bytes, .bool, .float, .double] then QtProtobufNamespace else []
  let name := type.reflection
  let fullName := Descriptors.qualified namespaces name
  let listName :=
    if type ∈ [.float, .double, .bool] then utils.upperCaseName name ++ "List".toList
    else name ++ "List".toList
  let fullListName :=
    if type ∉ [.string, .bytes] then QtProtobufNamespace ++ colons ++ listName else listName
  { classname := []
    type := name
    full_type := fullName
    scope_type := fullName
    list_type := listName
    full_list_type := fullListName
    scope_list_type := fullListName
    namespaces := namespaces
    scope_namespaces := namespaces
    qml_package := QtProtobufNamespace
    property_type := fullName
    property_list_type := fullListName
    getter_type :=
      if type ∈ [.int32, .fixed32, .sfixed32, .int64, .fixed64, .sfixed64] then
        "const ".toList ++ fullName
      else fullName
    setter_type := fullName
    qml_alias_type :=
      if type ∈ [.int32, .sfixed32] then "int".toList
      else if type = .fixed32 then "unsigned int".toList
      else fullName }

end common

/-- The type of the value field of a map entry. -/
inductive ValueType (M E : Type) where
  | simple (t : SimpleType) | message (m : M) | enum (e : E)
  deriving DecidableEq

def SimpleType.kind {M E : Type} : SimpleType → FieldKind M E
  | .string => .string
  | .bytes => .bytes
  | _ => .basic

def ValueType.kind {M E : Type} : ValueType M E → FieldKind M E
  | .simple t => t.kind
  | .message m => .message m
  | .enum e => .enum e

/-- A map entry has two fields, the key and the value. -/
structure MapFileSet (F M E : Type) extends LinkedFileSet F M E where
  keyType : M → SimpleType
  valueType : M → ValueType M E
  entry_fields : ∀ m, mapEntry m = true →
    fields m = [⟨(keyType m).kind, false⟩, ⟨(valueType m).kind, false⟩]

/-! ## C++ types -/

/-- `transparent<T, tag>` is a type of its own for each tag.
mirrors src/protobuf/qtprotobuftypes.h:85-181 -/
inductive CppScalar where
  | integer (bits : Nat) (signed : Bool)
  | transparent (bits : Nat) (signed : Bool) (tag : Nat)
  | double | float | bool | QString | QByteArray
  deriving DecidableEq

def cppScalar : SimpleType → CppScalar
  | .double => .double
  | .float => .float
  | .bool => .bool
  | .string => .QString
  | .bytes => .QByteArray
  | .int32 => .transparent 32 true 0
  | .int64 => .transparent 64 true 0
  | .uint32 => .integer 32 false
  | .uint64 => .integer 64 false
  | .sint32 => .integer 32 true
  | .sint64 => .integer 64 true
  | .fixed32 => .transparent 32 false 1
  | .fixed64 => .transparent 64 false 1
  | .sfixed32 => .transparent 32 true 1
  | .sfixed64 => .transparent 64 true 1

/-- The class of a message and the enum of an enum are those of the descriptor;
a Qt type is known by its name. -/
inductive CppValue (M E : Type) where
  | scalar (t : CppScalar)
  | sharedMessage (m : M)
  | sharedQtType (name : Str)
  | enum (e : E)
  deriving DecidableEq

/-- `QMap<key, value>` -/
@[ext] structure CppMap (M E : Type) where
  key : CppScalar
  value : CppValue M E
  deriving DecidableEq

/-- What the property map of a map field has for its meta type. -/
structure MapPropertyMap where
  full_type : Str
  key_type : Str
  value_type : Str
  value_list_type : Str

namespace MapFileSet

variable {F M E : Type} (D : MapFileSet F M E) (opts : GeneratorOptions)

/-- mirrors src/generator/generatorcommon.cpp:63-93 -/
def produceQtTypeMap (type : M) (scope : Option M) : TypeMap :=
  let namespaceList := common.getNamespaces (some (D.fullName type))
  let namespaces := common.getNamespacesString namespaceList colons
  let name := D.name type
  let listName := "QList<".toList ++ Descriptors.ListSuffix ++ ['>']
  { classname := []
    type := name
    full_type := name
    scope_type := name
    list_type := listName
    full_list_type := listName
    scope_list_type := listName
    namespaces := namespaces
    scope_namespaces := common.getScopeNamespacesString namespaces
      (common.getNamespacesString (common.getNamespaces (scope.map D.fullName)) colons)
    qml_package := common.getNamespacesString namespaceList ['.']
    property_type := name
    property_list_type := listName
    getter_type := name
    setter_type := name }

variable [DecidableEq M]

/-- For the value field of an entry of a map in `scope`.
mirrors src/generator/generatorcommon.cpp:280-306 -/
def produceTypeMap (type : ValueType M E) (scope : M) : TypeMap :=
  match type with
  | .message m =>
    if D.isQtType (D.file scope) m then D.produceQtTypeMap m none
    else D.produceMessageTypeMap opts m (some scope)
  | .enum e => (D.produceEnumTypeMap opts e (some scope)).toTypeMap
  | .simple t => (common.produceSimpleTypeMap t).toTypeMap

/-- For a map field with the entry type `entry`.
mirrors src/generator/generatorcommon.cpp:308-346 -/
def producePropertyMap (entry scope : M) : MapPropertyMap :=
  let keyMap := D.produceTypeMap opts (.simple (D.keyType entry)) scope
  let valueMap := D.produceTypeMap opts (D.valueType entry) scope
  { full_type := (D.produceTypeMap opts (.message entry) scope).full_type
    key_type := keyMap.scope_type
    value_type := valueMap.scope_type
    value_list_type := valueMap.scope_list_type }

/-- The macro between `#ifndef` and the end of the line.
mirrors src/generator/messagedeclarationprinter.cpp:198-205 and
src/generator/templates.cpp:269-272 -/
def mapGuard (entry scope : M) : Str :=
  let propertyMap := D.producePropertyMap opts entry scope
  let key_type_underscore := utils.replace propertyMap.key_type colons ['_']
  -- the source reads the key type here too
  let value_type_underscore := utils.replace propertyMap.key_type colons ['_']
  "Q_PROTOBUF_MAP_".toList ++ key_type_underscore ++ ['_'] ++ value_type_underscore

omit [DecidableEq M] in
/-- What `$full_type$` is an alias of in the class of `scope`.
mirrors src/generator/messagedeclarationprinter.cpp:154-161 -/
def cppMap (entry scope : M) : CppMap M E where
  key := cppScalar (D.keyType entry)
  value := match D.valueType entry with
    | .simple t => .scalar (cppScalar t)
    | .message m =>
      if D.isQtType (D.file scope) m then .sharedQtType (D.name m) else .sharedMessage m
    | .enum e => .enum e

omit [DecidableEq M] in
/-- The entry types of the map fields. -/
def mapFields (m : M) : List M :=
  (D.fields m).filterMap fun field =>
    field.messageType.filter fun entry => D.mapEntry entry

/-- The map fields, each with its message, in the order their meta types are
printed in for the messages `unit`, which are not nested. -/
def printedMaps (unit : List M) : List (M × M) :=
  (unit.flatMap fun top => classes (D.printMetaTypesDeclaration top)).flatMap fun scope =>
    (D.mapFields scope).map fun entry => (entry, scope)

/-- The guarded meta types in a translation unit. -/
def metaTypes (unit : List M) : List (GuardedBlock Str (CppMap M E)) :=
  (D.printedMaps unit).map fun map => ⟨D.mapGuard opts map.1 map.2, D.cppMap map.1 map.2⟩

variable [DecidableEq E]

/-- Guards and types tell the same maps apart, and each type of a map is declared
once. -/
structure MetaTypesDeclared (unit : List M) : Prop where
  guards : ∀ a ∈ D.metaTypes opts unit, ∀ b ∈ D.metaTypes opts unit,
    a.guard = b.guard ↔ a.content = b.content
  once : ∀ a ∈ D.metaTypes opts unit,
    ((kept [] (D.metaTypes opts unit)).map GuardedBlock.content).count a.content = 1

omit [DecidableEq E] in
/-- Maps with one key type have one value type. -/
def OneValueType (unit : List M) : Prop :=
  ∀ a ∈ D.printedMaps unit, ∀ b ∈ D.printedMaps unit,
    D.keyType a.1 = D.keyType b.1 → (D.cppMap a.1 a.2).value = (D.cppMap b.1 b.2).value

/-! ## The guards -/

theorem cppScalar_injective {s t : SimpleType} (h : cppScalar s = cppScalar t) : s = t := by
  have hnodup : (SimpleType.all.map cppScalar).Nodup := by decide
  exact List.inj_on_of_nodup_map hnodup s.mem_all t.mem_all h

/-- The parts of `scope_type`. -/
def keyParts (t : SimpleType) : List Str :=
  if t ∉ [.string, .bytes, .bool, .float, .double] then
    [common.QtProtobufNamespace, t.reflection]
  else [t.reflection]

theorem scope_type_simple (t : SimpleType) :
    (common.produceSimpleTypeMap t).scope_type = colons.intercalate (keyParts t) := by
  have hdef : (common.produceSimpleTypeMap t).scope_type = Descriptors.qualified
      (if t ∉ [.string, .bytes, .bool, .float, .double] then common.QtProtobufNamespace else [])
      t.reflection := rfl
  have hns : ∀ p ∈ [common.QtProtobufNamespace], IsIdentifier p := by decide
  rw [hdef, keyParts]
  by_cases h : t ∉ [.string, .bytes, .bool, .float, .double]
  · rw [if_pos h, if_pos h]
    have := Descriptors.qualified_intercalate hns t.reflection
    rwa [List.intercalate_singleton] at this
  · rw [if_neg h, if_neg h]
    exact Descriptors.qualified_intercalate (l := []) (by simp) t.reflection

/-- The parts are letters and digits, so neither `:` nor `_` is in them. -/
theorem isWord_keyParts {d : Char} (hd : d.isAlphanum = false) (t : SimpleType) :
    ∀ p ∈ keyParts t, IsWord d p := by
  have hall : ∀ t ∈ SimpleType.all, ∀ p ∈ keyParts t,
      p.isEmpty = false ∧ p.all Char.isAlphanum = true := by decide
  intro p hp
  obtain ⟨hne, hchars⟩ := hall t t.mem_all p hp
  refine ⟨List.isEmpty_eq_false_iff.mp hne, fun hin => ?_⟩
  simpa [hd] using List.all_eq_true.mp hchars d hin

theorem keyParts_injective {s t : SimpleType} (h : keyParts s = keyParts t) : s = t := by
  have hlast (t : SimpleType) : (keyParts t).getLast? = some t.reflection := by
    unfold keyParts
    split <;> rfl
  have hnodup : (SimpleType.all.map SimpleType.reflection).Nodup := by decide
  have := congrArg List.getLast? h
  rw [hlast, hlast] at this
  exact List.inj_on_of_nodup_map hnodup s.mem_all t.mem_all (Option.some.inj this)

theorem underscore_injective {s t : SimpleType}
    (h : ['_'].intercalate (keyParts s) = ['_'].intercalate (keyParts t)) : s = t :=
  have hsep : IsSeparator '_' ['_'] := ⟨0, rfl⟩
  keyParts_injective (hsep.intercalate_injective
    (isWord_keyParts (by decide) s) (isWord_keyParts (by decide) t) h)

variable {D opts}

omit [DecidableEq E] in
theorem mapGuard_eq (entry scope : M) : D.mapGuard opts entry scope =
    "Q_PROTOBUF_MAP_".toList ++ ['_'].intercalate (keyParts (D.keyType entry)) ++ ['_'] ++
      ['_'].intercalate (keyParts (D.keyType entry)) := by
  have hdef : D.mapGuard opts entry scope = "Q_PROTOBUF_MAP_".toList ++
      utils.replace (D.producePropertyMap opts entry scope).key_type colons ['_'] ++ ['_'] ++
      utils.replace (D.producePropertyMap opts entry scope).key_type colons ['_'] := rfl
  have hkey : (D.producePropertyMap opts entry scope).key_type =
      (common.produceSimpleTypeMap (D.keyType entry)).scope_type := by
    simp only [producePropertyMap, produceTypeMap]
  have hreplace : utils.replace (colons.intercalate (keyParts (D.keyType entry))) colons ['_'] =
      ['_'].intercalate (keyParts (D.keyType entry)) :=
    utils.replace_intercalate (isWord_keyParts (by decide) _)
  rw [hdef, hkey, scope_type_simple, hreplace]

omit [DecidableEq E] in
/-- A guard knows the key type only. -/
theorem guard_eq_iff {entry scope entry' scope' : M} :
    D.mapGuard opts entry scope = D.mapGuard opts entry' scope' ↔
      D.keyType entry = D.keyType entry' := by
  rw [mapGuard_eq, mapGuard_eq]
  constructor
  · intro h
    simp only [List.append_assoc, List.append_cancel_left_eq] at h
    have hlen := congrArg List.length h
    simp only [List.length_append] at hlen
    exact underscore_injective (List.append_inj_left h (by omega))
  · intro h
    rw [h]

omit [DecidableEq M] [DecidableEq E] in
theorem cppMap_eq_iff {entry scope entry' scope' : M} :
    D.cppMap entry scope = D.cppMap entry' scope' ↔
      D.keyType entry = D.keyType entry' ∧
        (D.cppMap entry scope).value = (D.cppMap entry' scope').value := by
  constructor
  · intro h
    exact ⟨cppScalar_injective (congrArg CppMap.key h), congrArg CppMap.value h⟩
  · intro ⟨hkey, hvalue⟩
    have : (D.cppMap entry scope).key = (D.cppMap entry' scope').key := congrArg cppScalar hkey
    exact CppMap.ext this hvalue

theorem metaTypes_iff (D : MapFileSet F M E) (opts : GeneratorOptions) (unit : List M) :
    D.MetaTypesDeclared opts unit ↔ D.OneValueType unit := by
  have hguards : (∀ a ∈ D.metaTypes opts unit, ∀ b ∈ D.metaTypes opts unit,
      a.guard = b.guard → a.content = b.content) ↔ D.OneValueType unit := by
    simp only [metaTypes, List.forall_mem_map, guard_eq_iff, cppMap_eq_iff]
    constructor
    · intro h a ha b hb hkey
      exact (h a ha b hb hkey).2
    · intro h a ha b hb hkey
      exact ⟨hkey, h a ha b hb hkey⟩
  have hfun : ∀ a ∈ D.metaTypes opts unit, ∀ b ∈ D.metaTypes opts unit,
      a.content = b.content → a.guard = b.guard := by
    simp only [metaTypes, List.forall_mem_map, guard_eq_iff, cppMap_eq_iff]
    intro a _ b _ h
    exact h.1
  constructor
  · intro h
    exact hguards.mp fun a ha b hb => (h.guards a ha b hb).mp
  · intro h
    have hinj := hguards.mpr h
    exact ⟨fun a ha b hb => ⟨hinj a ha b hb, hfun a ha b hb⟩, (kept_once_iff hfun).mpr hinj⟩

omit [DecidableEq E] in
theorem mem_printedMaps {unit : List M} {top entry : M} (h : top ∈ unit)
    (he : entry ∈ D.mapFields top) : (entry, top) ∈ D.printedMaps unit := by
  refine List.mem_flatMap.mpr ⟨top, List.mem_flatMap.mpr ⟨top, h, ?_⟩, List.mem_map_of_mem he⟩
  rw [Descriptors.classes_printMetaTypesDeclaration]
  exact List.mem_cons_self

/-! ## Two maps with one key type -/

inductive Metatype where
  | message0 | message1 | message1Opts | message4 | message4Opts
  deriving DecidableEq

open Metatype in
/-- `message Message0 { string opts = 1; }`,
`message Message1 { map<string, string> opts = 1; }` and
`message Message4 { map<string, Message0> opts = 1; }` -/
def metatypesFile : MapFileSet Unit Metatype (Fin 0) where
  package _ := []
  services _ := []
  file _ := ()
  name
    | message0 => "Message0".toList
    | message1 => "Message1".toList
    | message4 => "Message4".toList
    | message1Opts | message4Opts => "OptsEntry".toList
  fields
    | message0 => [⟨.string, false⟩]
    | message1 => [⟨.message message1Opts, true⟩]
    | message4 => [⟨.message message4Opts, true⟩]
    | message1Opts => [⟨.string, false⟩, ⟨.string, false⟩]
    | message4Opts => [⟨.string, false⟩, ⟨.message message0, false⟩]
  nestedTypes
    | message1 => [message1Opts]
    | message4 => [message4Opts]
    | _ => []
  containingType
    | message1Opts => some message1
    | message4Opts => some message4
    | _ => none
  mapEntry
    | message1Opts | message4Opts => true
    | _ => false
  depth
    | message1Opts | message4Opts => 1
    | _ => 0
  maxDepth := 2
  package_eq _ := noPackage
  name_identifier m := by cases m <;> decide
  service_identifier _ _ h := by cases h
  mem_nestedTypes m n := by cases m <;> cases n <;> decide
  distinct m := by cases m <;> decide
  file_eq _ _ _ := rfl
  depth_eq m n h := by cases m <;> cases n <;> first | rfl | cases h
  depth_lt m := by cases m <;> decide
  mapEntry_nestedTypes m h := by cases m <;> first | rfl | cases h
  mapEntry_field m h := by
    cases m with
    | message1Opts => exact ⟨message1, rfl, ⟨.message message1Opts, true⟩, by decide, rfl⟩
    | message4Opts => exact ⟨message4, rfl, ⟨.message message4Opts, true⟩, by decide, rfl⟩
    | _ => cases h
  files := [()]
  mem_files := FileSet.mem_oneFile
  fileName _ := "duplicated_metatypes.proto".toList
  dependencies _ := []
  messageTypes _ := [message0, message1, message4]
  fileEnums _ := []
  enumName e := e.elim0
  enumFile _ := ()
  enumContainingType _ := none
  messageEnums _ := []
  fileName_eq _ := ⟨"duplicated_metatypes".toList, rfl⟩
  mem_messageTypes _ m := by cases m <;> simp
  mem_fileEnums _ e := e.elim0
  mem_messageEnums _ e := e.elim0
  enumFile_eq _ e := e.elim0
  enumName_identifier e := e.elim0
  mapEntry_fields m h := by cases m <;> first | decide | cases h
  enumFullName_inj e := e.elim0
  keyType _ := .string
  valueType
    | message4Opts => .message message0
    | _ => .simple .string
  entry_fields m h := by cases m <;> first | rfl | cases h

/-- The map of `Message4` has the guard of the map of `Message1`. -/
theorem not_metaTypesDeclared_duplicated :
    ¬ metatypesFile.MetaTypesDeclared noOptions [.message0, .message1, .message4] := by
  intro h
  have h₁ : (.message1Opts, .message1) ∈
      metatypesFile.printedMaps [.message0, .message1, .message4] :=
    mem_printedMaps (by decide) (by decide)
  have h₄ : (.message4Opts, .message4) ∈
      metatypesFile.printedMaps [.message0, .message1, .message4] :=
    mem_printedMaps (by decide) (by decide)
  have hsame := (h.guards _ (List.mem_map_of_mem h₁) _ (List.mem_map_of_mem h₄)).mp
    (guard_eq_iff.mpr rfl)
  have hvalue : (metatypesFile.cppMap .message1Opts .message1).value =
      (metatypesFile.cppMap .message4Opts .message4).value := congrArg CppMap.value hsame
  have h₁ : (metatypesFile.cppMap .message1Opts .message1).value = .scalar .QString := rfl
  have h₄ : (metatypesFile.cppMap .message4Opts .message4).value =
      if metatypesFile.isQtType () .message0 then .sharedQtType (metatypesFile.name .message0)
      else .sharedMessage .message0 := rfl
  rw [h₁, h₄] at hvalue
  split at hvalue <;> cases hvalue

end MapFileSet

end QtProtobuf.Generator
