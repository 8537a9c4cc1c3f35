import QtProtobuf.L5Generator.Utils

/-!
# Descriptors

What protoc hands to the generator plugin: the files `F`, the messages `M` and
the enums `E`, each standing for a descriptor pointer, so that comparing two
pointers is comparing two elements. The fields of `Descriptors` that are facts
are what protoc itself checks before it runs a plugin: names are identifiers,
nested types form a tree inside one file, and a map entry is the type of a field
of the message that contains it and contains no type of its own.
-/
namespace QtProtobuf.Generator

/-- `field->type()`, with the type a message or enum field refers to. -/
inductive FieldKind (M E : Type) where
  | message (m : M) | enum (e : E) | bytes | string | basic
  deriving DecidableEq

structure FieldDescriptor (M E : Type) where
  kind : FieldKind M E
  isRepeated : Bool
  deriving DecidableEq

/-- `field->message_type()`, `none` for the null pointer. -/
def FieldDescriptor.messageType {M E : Type} (f : FieldDescriptor M E) : Option M :=
  match f.kind with
  | .message m => some m
  | _ => none

structure MethodDescriptor (M : Type) where
  name : Str
  inputType : M
  outputType : M

structure ServiceDescriptor (M : Type) where
  name : Str
  methods : List (MethodDescriptor M)

structure Descriptors (F M E : Type) where
  package : F → Str
  services : F → List (ServiceDescriptor M)
  file : M → F
  name : M → Str
  fields : M → List (FieldDescriptor M E)
  nestedTypes : M → List M
  containingType : M → Option M
  /-- `options().map_entry()` -/
  mapEntry : M → Bool
  /-- how many messages contain the message -/
  depth : M → Nat
  maxDepth : Nat
  package_eq : ∀ f, ∃ parts, (∀ p ∈ parts, IsIdentifier p) ∧
    package f = ['.'].intercalate parts
  name_identifier : ∀ m, IsIdentifier (name m)
  service_identifier : ∀ f, ∀ s ∈ services f, IsIdentifier s.name
  mem_nestedTypes : ∀ m n, n ∈ nestedTypes m ↔ containingType n = some m
  distinct : ∀ m, (nestedTypes m).Nodup
  file_eq : ∀ m n, containingType n = some m → file n = file m
  depth_eq : ∀ m n, containingType n = some m → depth n = depth m + 1
  depth_lt : ∀ m, depth m < maxDepth
  mapEntry_nestedTypes : ∀ m, mapEntry m = true → nestedTypes m = []
  mapEntry_field : ∀ n, mapEntry n = true →
    ∃ m, containingType n = some m ∧ ∃ f ∈ fields m, f.messageType = some n

/-- A file without a package. -/
theorem noPackage : ∃ parts : List Str, (∀ p ∈ parts, IsIdentifier p) ∧
    [] = ['.'].intercalate parts := ⟨[], by simp, rfl⟩

namespace Descriptors

variable {F M E : Type} (D : Descriptors F M E)

/-- `field->is_map()`: the type of the field is a map entry. -/
def isMap (f : FieldDescriptor M E) : Bool :=
  match f.messageType with
  | some m => D.mapEntry m
  | none => false

/-! ## Nested types -/

section
variable [DecidableEq M]

/-- `!field->is_map() && field->message_type() == nestedMessage` -/
def isFieldOf (nested : M) (f : FieldDescriptor M E) : Bool :=
  !D.isMap f && f.messageType == some nested

/-- The messages the callback is called with, in order.
mirrors src/generator/generatorcommon.cpp:435-451 -/
def iterateNestedMessages (m : M) : List M :=
  (D.nestedTypes m).filter fun n =>
    (D.fields m).isEmpty || (D.fields m).any (D.isFieldOf n)

/-- mirrors src/generator/generatorcommon.cpp:453-470 -/
def hasNestedMessages (m : M) : Bool :=
  if !(D.nestedTypes m).isEmpty && (D.fields m).isEmpty then true
  else (D.nestedTypes m).any fun n => (D.fields m).any (D.isFieldOf n)

/-- mirrors src/generator/generatorcommon.cpp:472-490 -/
def isNested (m : M) : Bool :=
  match D.containingType m with
  | none => false
  | some c =>
    match (D.fields c).find? (fun f => f.messageType == some m) with
    | some f => !D.isMap f
    | none => true

end

/-- `n` lies inside `m`, at any depth. -/
inductive Inside (m : M) : M → Prop where
  | nested {n : M} : D.containingType n = some m → Inside m n
  | deeper {k n : M} : Inside m k → D.containingType n = some k → Inside m n

variable {D}

theorem Inside.depth_lt {m n : M} (h : D.Inside m n) : D.depth m < D.depth n := by
  induction h with
  | nested h => have := D.depth_eq _ _ h; omega
  | deeper _ h ih => have := D.depth_eq _ _ h; omega

theorem Inside.file_eq {m n : M} (h : D.Inside m n) : D.file n = D.file m := by
  induction h with
  | nested h => exact D.file_eq _ _ h
  | deeper _ h ih => exact (D.file_eq _ _ h).trans ih

/-- Read from the outside: the type directly inside `m` first. -/
theorem Inside.head {m n : M} (h : D.Inside m n) :
    ∃ k, D.containingType k = some m ∧ (n = k ∨ D.Inside k n) := by
  induction h with
  | nested h => exact ⟨_, h, .inl rfl⟩
  | deeper _ h ih =>
    obtain ⟨k, hk, rfl | hin⟩ := ih
    · exact ⟨_, hk, .inr (.nested h)⟩
    · exact ⟨k, hk, .inr (.deeper hin h)⟩

theorem Inside.cons {m k n : M} (hk : D.containingType k = some m) (h : D.Inside k n) :
    D.Inside m n := by
  induction h with
  | nested h => exact .deeper (.nested hk) h
  | deeper _ h ih => exact .deeper ih h

/-- Of two types at one depth that contain `n`, or are it, there is one. -/
theorem eq_of_inside {a b n : M} (hd : D.depth a = D.depth b) (ha : n = a ∨ D.Inside a n)
    (hb : n = b ∨ D.Inside b n) : a = b := by
  rcases ha with rfl | ha
  · rcases hb with rfl | hb
    · rfl
    · have := hb.depth_lt; omega
  · induction ha with
    | nested h =>
      rcases hb with rfl | hb
      · have := D.depth_eq _ _ h; omega
      · cases hb with
        | nested h' => exact Option.some.inj (h.symm.trans h')
        | deeper hin h' =>
          cases h.symm.trans h'
          have := hin.depth_lt; omega
    | deeper hin h ih =>
      rcases hb with rfl | hb
      · have := hin.depth_lt; have := D.depth_eq _ _ h; omega
      · cases hb with
        | nested h' =>
          cases h.symm.trans h'
          exact ih (.inl rfl)
        | deeper hin' h' =>
          cases h.symm.trans h'
          exact ih (.inr hin')

theorem isMap_eq {n : M} {f : FieldDescriptor M E} (h : f.messageType = some n) :
    D.isMap f = D.mapEntry n := by
  simp [isMap, h]

section
variable [DecidableEq M]

@[simp] theorem isFieldOf_iff {n : M} {f : FieldDescriptor M E} :
    D.isFieldOf n f = true ↔ D.mapEntry n = false ∧ f.messageType = some n := by
  by_cases h : f.messageType = some n
  · simp [isFieldOf, isMap, h]
  · simp [isFieldOf, h]

/-- What the callback is called with: a nested type of a message without fields,
or one that a field has as its type and that is no map entry. -/
theorem mem_iterateNestedMessages {m n : M} :
    n ∈ D.iterateNestedMessages m ↔ D.containingType n = some m ∧ D.mapEntry n = false ∧
      (D.fields m = [] ∨ ∃ f ∈ D.fields m, f.messageType = some n) := by
  simp only [iterateNestedMessages, List.mem_filter, D.mem_nestedTypes, Bool.or_eq_true,
    List.isEmpty_iff, List.any_eq_true, isFieldOf_iff]
  constructor
  · rintro ⟨hc, he | ⟨f, hf, hn, ht⟩⟩
    · refine ⟨hc, ?_, .inl he⟩
      cases hn : D.mapEntry n with
      | false => rfl
      | true =>
        obtain ⟨m', hm', f, hf, -⟩ := D.mapEntry_field n hn
        cases hc.symm.trans hm'
        simp [he] at hf
    · exact ⟨hc, hn, .inr ⟨f, hf, ht⟩⟩
  · rintro ⟨hc, hn, he | ⟨f, hf, ht⟩⟩
    · exact ⟨hc, .inl he⟩
    · exact ⟨hc, .inr ⟨f, hf, hn, ht⟩⟩

/-- `hasNestedMessages` tells whether the callback is called at all. -/
theorem hasNestedMessages_iff {m : M} :
    D.hasNestedMessages m = true ↔ ∃ n, n ∈ D.iterateNestedMessages m := by
  simp only [hasNestedMessages, iterateNestedMessages, List.mem_filter]
  by_cases he : D.fields m = []
  · cases hn : D.nestedTypes m with
    | nil => simp [he]
    | cons n ns => simp [he]
  · simp [he]

theorem isNested_iff {m : M} (hm : D.mapEntry m = false) :
    D.isNested m = true ↔ D.containingType m ≠ none := by
  unfold isNested
  split
  · next h => simp [h]
  · next c h =>
    split
    · next f hf =>
      have ht : f.messageType = some m := by simpa using List.find?_some hf
      simp [h, isMap_eq ht, hm]
    · simp [h]

end

end Descriptors

end QtProtobuf.Generator
