import QtProtobuf.L2Codec.RoundTrip
import QtProtobuf.L5Generator.Properties

/-!
# The generated classes under the serializer

A generated class has the meta object that the codec's model takes as given.
The deserializer reads and writes a property by its index, the serializer reads
it by its name.

* `generated_access_iff`: the field of a number has the property and the setter of
  its own member, and its getter unless that is called like a signal.
* `serializeByName_eq`: without a clash of names, the serializer that reads by
  names is `Codec.serializeMessage`, which reads by indices.
-/
namespace QtProtobuf.Generator

open Codec Wire

/-! ## Types -/

def SimpleType.scalar : SimpleType → ScalarType
  | .double => .num .double
  | .float => .num .float
  | .int64 => .num .int64
  | .uint64 => .num .uint64
  | .int32 => .num .int32
  | .fixed64 => .num .fixed64
  | .fixed32 => .num .fixed32
  | .bool => .bool
  | .string => .string
  | .bytes => .bytes
  | .uint32 => .num .uint32
  | .sfixed32 => .num .sfixed32
  | .sfixed64 => .num .sfixed64
  | .sint32 => .num .sint32
  | .sint64 => .num .sint64

section
variable {M E : Type} (qtType : M → Bool)

/-- The values of a map; `none`: a Qt type. -/
def ValueType.single : ValueType M E → Option (SingleType M)
  | .simple t => some (.scalar t.scalar)
  | .enum _ => some .enum
  | .message m => if qtType m then none else some (.message m)

/-- The type under which the serializer knows a property. `none`: the Qt types,
which have converters of their own, and the types without a handler, which are
the list of `bool` and what QML reads. -/
def PropertyType.fieldType : PropertyType M E → Option (FieldType M)
  | .value (.simple t) => some (.single (.scalar t.scalar))
  | .value (.enum _) => some (.single .enum)
  | .value (.message _) => none
  | .pointer m => some (.single (.message m))
  | .map key t => (t.single qtType).map (.map key.scalar)
  | .list (.simple t) =>
    match t.scalar with
    | .num t => some (.nums t)
    | .bool => none
    | .string => some .strings
    | .bytes => some .byteArrays
  | .list (.enum _) => some .enums
  | .list (.message m) => if qtType m then none else some (.messages m)
  | .qmlAlias _ | .qmlList _ => none

/-- A generated class all of whose fields the serializer knows, and
`propertyOrdering` as the unordered map enumerates it. -/
structure GeneratedClass (E : Type) (hasQml : Bool) extends MessageFields M E where
  types : List (FieldType M)
  types_eq : (fields.map fun f => (f.property hasQml qtType).type.fieldType qtType) = types.map some
  propertyOrdering : List (Nat × Nat × Str)
  enumerates : propertyOrdering.Perm toMessageFields.printFieldsOrdering

namespace GeneratedClass
variable {qtType} {hasQml : Bool} (c : GeneratedClass qtType E hasQml)

theorem types_length : c.types.length = c.fields.length := by
  have h := congrArg List.length c.types_eq
  simpa using h.symm

/-- A pair of `propertyOrdering` is of a field. -/
theorem mem_ordering {number index : Nat} {json_name : Str} :
    (number, index, json_name) ∈ c.propertyOrdering ↔
      ∃ i f, c.fields[i]? = some f ∧ f.number = number ∧ i + 1 = index ∧ f.json_name = json_name := by
  rw [c.enumerates.mem_iff, MessageFields.printFieldsOrdering]
  simp only [List.mem_map, Prod.exists, List.mem_zipIdx_iff_getElem?, Prod.mk.injEq]
  constructor
  · rintro ⟨f, i, hf, h⟩
    exact ⟨i, f, hf, h⟩
  · rintro ⟨i, f, hf, h⟩
    exact ⟨f, i, hf, h⟩

/-- `propertyOrdering` with the indices that `objectName` is not counted in. -/
def ordering : List (Nat × Nat) :=
  c.propertyOrdering.map fun (number, index, _) => (number, index - 1)

theorem ordering_distinct : (c.ordering.map Prod.fst).Nodup := by
  have hnumbers : c.toMessageFields.printFieldsOrdering.map Prod.fst = c.fields.map (·.number) := by
    conv_rhs => rw [← List.zipIdx_map_fst 0 c.fields, List.map_map]
    rw [MessageFields.printFieldsOrdering, List.map_map]
    rfl
  have hperm := c.enumerates.map Prod.fst
  rw [hnumbers] at hperm
  rw [ordering, List.map_map]
  exact hperm.nodup_iff.mpr c.numbers

theorem ordering_inRange : ∀ p ∈ c.ordering, 0 < p.1 ∧ p.1 < 2 ^ 29 := by
  intro p hp
  obtain ⟨⟨number, index, json_name⟩, he, rfl⟩ := List.mem_map.mp hp
  obtain ⟨i, f, hf, rfl, -⟩ := c.mem_ordering.mp he
  obtain ⟨hpos, hlt⟩ := c.inRange f (List.mem_of_getElem? hf)
  exact ⟨hpos, by omega⟩

theorem ordering_indices : (c.ordering.map Prod.snd).Perm (List.range c.types.length) := by
  have hindices : c.toMessageFields.printFieldsOrdering.map (fun e => e.2.1 - 1) =
      List.range c.fields.length := by
    rw [MessageFields.printFieldsOrdering, List.map_map, List.range_eq_range',
      ← List.zipIdx_map_snd 0 c.fields]
    rfl
  rw [ordering, List.map_map, c.types_length, ← hindices]
  exact c.enumerates.map _

/-- The meta object, without `objectName`. -/
def metaObject : MetaObject M where
  properties := c.types
  propertyOrdering := c.ordering
  distinct := c.ordering_distinct
  inRange := c.ordering_inRange
  indices := c.ordering_indices

variable {c}

theorem type_of_field {i : Nat} {f : MessageField M E} (hf : c.fields[i]? = some f) :
    ∃ t, c.types[i]? = some t ∧ (f.property hasQml qtType).type.fieldType qtType = some t := by
  have h : (c.types.map some)[i]? = some ((f.property hasQml qtType).type.fieldType qtType) := by
    rw [← c.types_eq, List.getElem?_map, hf]
    rfl
  rw [List.getElem?_map, Option.map_eq_some_iff] at h
  obtain ⟨t, ht, he⟩ := h
  exact ⟨t, ht, he.symm⟩

end GeneratedClass

end

/-- A class for QML with a number and a list of messages of its own type. -/
def countedFields : MessageFields Unit Unit where
  fields :=
    [⟨.simple .int32, .singular, 1, "count".toList, "count".toList⟩,
      ⟨.message (), .repeated, 2, "users".toList, "users".toList⟩]
  alphanum := by decide
  distinct := by decide
  numbers := by decide
  inRange := by decide

def countedClass : GeneratedClass (fun _ : Unit => false) Unit true where
  toMessageFields := countedFields
  types := [.single (.scalar (.num .int32)), .messages ()]
  types_eq := rfl
  propertyOrdering := [(2, 2, "users".toList), (1, 1, "count".toList)]
  enumerates := .swap _ _ []

/-! ## Access to the properties -/

namespace GeneratedClass
variable {M E : Type} {qtType : M → Bool} {hasQml : Bool} (c : GeneratedClass qtType E hasQml)

/-- The property that `QObject` has, without a member of the class. -/
def objectName : QProperty M E :=
  ⟨.value (.simple .string), "objectName".toList, "objectName".toList, some "setObjectName".toList⟩

/-- `staticMetaObject.property(index)` -/
def staticProperty : Nat → Option (QProperty M E)
  | 0 => some objectName
  | i + 1 => (c.printProperties hasQml qtType)[i]?

/-- `object->property(name)`: what the getter of the property that is found
returns, as a value the serializer knows the type of. -/
def propertyValue (indexOfProperty : List (QProperty M E) → Str → Option Nat)
    (members : List (Value M)) (name : Str) : Option (Value M) := do
  let i ← indexOfProperty (c.printProperties hasQml qtType) name
  let p ← (c.printProperties hasQml qtType)[i]?
  let _ ← p.type.fieldType qtType
  let member ← (c.getters hasQml qtType).lookup p.read
  members[member]?

/-- **By index.** For the number of a field, the deserializer finds a property of
the field's type, whose setter is that of the field's member; its getter returns
that member, unless the field is called like another one with `Changed` behind and
is no message. -/
theorem generated_access_iff (c : GeneratedClass qtType E hasQml) (i : Nat) (f : MessageField M E)
    (hf : c.fields[i]? = some f) :
    ∃ t p write, c.metaObject.find f.number = some (i, t) ∧ c.staticProperty (i + 1) = some p ∧
      p.type.fieldType qtType = some t ∧ p.write = some write ∧
      (c.setters hasQml qtType).lookup write = some i ∧
      (c.readCall hasQml qtType p.read = some i ↔ (f.isPureMessage qtType = true ∨
        ∀ g ∈ c.fields, f.propertyName ≠ g.propertyName ++ "Changed".toList)) := by
  obtain ⟨t, ht, htype⟩ := type_of_field hf
  obtain ⟨hread, write, hwrite, hw⟩ := f.property_accessors hasQml qtType
  have hmem : (f.number, i) ∈ c.metaObject.propertyOrdering :=
    List.mem_map.mpr ⟨_, c.mem_ordering.mpr ⟨i, f, hf, rfl, rfl, rfl⟩, rfl⟩
  refine ⟨t, _, write, MetaObject.find_of_mem hmem ht, MessageFields.printProperties_of_field hf, htype,
    hw, MessageFields.setters_lookup hf hwrite, ?_⟩
  have hsignals := c.read_mem_signals_iff hasQml qtType f
  unfold MessageFields.readCall
  by_cases hs : (f.property hasQml qtType).read ∈ c.signals
  · obtain ⟨hpure, g, hg, hname⟩ := hsignals.mp hs
    rw [if_pos (List.contains_iff_mem.mpr hs)]
    refine ⟨fun h => (by cases h), ?_⟩
    rintro (h | h)
    · rw [hpure] at h
      cases h
    · exact absurd hname (h g hg)
  · rw [if_neg (mt List.contains_iff_mem.mp hs), MessageFields.getters_lookup hf hread]
    refine ⟨fun _ => ?_, fun _ => rfl⟩
    cases hpure : f.isPureMessage qtType with
    | true => exact .inl rfl
    | false => exact .inr fun g hg hname => hs (hsignals.mpr ⟨hpure, g, hg, hname⟩)

/-- The number of a class for QML is found and can be read. -/
theorem generated_access_counted :
    ∃ t p write, countedClass.metaObject.find 1 = some (0, t) ∧ countedClass.staticProperty 1 = some p ∧
      p.type.fieldType (fun _ => false) = some t ∧ p.write = some write ∧
      (countedClass.setters true fun _ => false).lookup write = some 0 ∧
      countedClass.readCall true (fun _ => false) p.read = some 0 := by
  obtain ⟨t, p, write, hfind, hp, ht, hw, hset, hread⟩ := generated_access_iff countedClass 0 _ rfl
  refine ⟨t, p, write, hfind, hp, ht, hw, hset, hread.mpr (.inr ?_)⟩
  intro g hg
  simp only [countedClass, countedFields, List.mem_cons, List.not_mem_nil, or_false] at hg
  rcases hg with rfl | rfl <;> decide

/-- Without a clash, a field's property is read as the field's member. -/
theorem propertyValue_of_field {indexOfProperty : List (QProperty M E) → Str → Option Nat}
    (hfinds : Finds indexOfProperty) (hc : ¬ c.Clash hasQml) {i : Nat} {f : MessageField M E}
    (hf : c.fields[i]? = some f) (members : List (Value M)) :
    c.propertyValue indexOfProperty members (f.property hasQml qtType).name = members[i]? := by
  have hp : (c.printProperties hasQml qtType)[i]? = some (f.property hasQml qtType) :=
    MessageFields.printProperties_of_field hf
  obtain ⟨j, q, hj, hq, hn⟩ := hfinds _ (f.property hasQml qtType).name ⟨_, List.mem_of_getElem? hp, rfl⟩
  obtain rfl := MessageFields.name_unique hc hf hq hn
  obtain ⟨t, -, htype⟩ := type_of_field hf
  obtain ⟨hread, -⟩ := f.property_accessors hasQml qtType
  simp [propertyValue, hj, hp, htype, MessageFields.getters_lookup hf hread]

end GeneratedClass

/-! ## The serializer -/

section
variable {M E : Type} {qtType : M → Bool} {hasQml : Bool} (C : M → GeneratedClass qtType E hasQml)

/-- The schema of the generated classes. -/
def generatedSchema : Schema M := fun m => (C m).metaObject

/-- mirrors src/protobuf/qprotobufserializer.cpp:81-97 -/
def serializeByName (qt : QtCore) (indexOfProperty : List (QProperty M E) → Str → Option Nat) :
    Nat → M → List (Value M) → Option Bytes
  | 0, _, _ => none
  | n + 1, m, members =>
    appendAll (fun (fieldIndex, propertyIndex, _) => do
      let metaProperty ← (C m).staticProperty propertyIndex
      let value ← (C m).propertyValue indexOfProperty members metaProperty.name
      serializeProperty (generatedSchema C) qt (serializeByName qt indexOfProperty n) fieldIndex value)
      (C m).propertyOrdering

theorem appendAll_congr {α β : Type} {f : α → Option Bytes} {g : β → Option Bytes} {h : α → β}
    {as : List α} (hfg : ∀ a ∈ as, f a = g (h a)) : appendAll f as = appendAll g (as.map h) := by
  induction as with
  | nil => rfl
  | cons a as ih =>
    rw [List.map_cons, appendAll, appendAll, hfg a (by simp), ih fun b hb => hfg b (by simp [hb])]

/-- **By name.** If no two fields of a class clash, the serializer reads every
member and no other, at all levels. -/
theorem serializeByName_eq (C : M → GeneratedClass qtType E hasQml) (qt : QtCore)
    (indexOfProperty : List (QProperty M E) → Str → Option Nat) (hfinds : Finds indexOfProperty)
    (hc : ∀ m, ¬ (C m).Clash hasQml) (n : Nat) (m : M) (members : List (Value M)) :
    serializeByName C qt indexOfProperty n m members =
      serializeMessage (generatedSchema C) qt n m members := by
  have hlevel : serializeByName C qt indexOfProperty n = serializeMessage (generatedSchema C) qt n := by
    induction n with
    | zero => rfl
    | succ n ih =>
      funext m members
      rw [serializeByName, serializeMessage, ih]
      refine appendAll_congr fun ⟨number, index, json_name⟩ he => ?_
      obtain ⟨i, f, hf, rfl, rfl, -⟩ := (C m).mem_ordering.mp he
      have hp : (C m).staticProperty (i + 1) = some (f.property hasQml qtType) :=
        MessageFields.printProperties_of_field hf
      simp only [hp, Option.bind_eq_bind, Option.bind_some,
        (C m).propertyValue_of_field hfinds (hc m) hf members]
      rfl
  rw [hlevel]

end

theorem countedClass_not_clash : ¬ countedClass.Clash true := by
  rintro ⟨f, hf, g, hg, hlist, -, hname⟩
  simp only [countedClass, countedFields, List.mem_cons, List.not_mem_nil, or_false] at hf hg
  rcases hf with rfl | rfl
  · cases hlist
  · rcases hg with rfl | rfl <;> revert hname <;> decide

theorem serializeByName_eq_counted :
    serializeByName (fun _ : Unit => countedClass) .ascii lastIndexOfProperty 2 ()
        [.scalar (.num .int32 3), .messages []] =
      serializeMessage (generatedSchema fun _ : Unit => countedClass) .ascii 2 ()
        [.scalar (.num .int32 3), .messages []] :=
  serializeByName_eq _ .ascii _ finds_lastIndexOfProperty (fun _ => countedClass_not_clash) 2 () _

end QtProtobuf.Generator
