import QtProtobuf.L5Generator.MapGuards
import QtProtobuf.L5Generator.NestedMessages

/-!
# Which handlers a program has

A serializer that comes to a type without a basic handler calls what `findHandler`
gives for it; where nothing is registered that is an empty `std::function`, and the
call throws. What is registered is up to the generated sources: each class and each
enum in a helper class puts a function on `registerFunctions()`, from static objects
in any order, and the first `qRegisterProtobufTypes` runs those that are there. The
types of Qt have a function of their own, which the application calls.

* `findHandler_run`: after any run, a type has its own handler if a function that
  registers it was run, and none otherwise.
* `cls_mem_registrars`, `gadget_mem_registrars`: the functions that the sources of a
  file set bring.
* `handlersFound_iff`: when every type that the serializers look up has a handler.
-/
namespace QtProtobuf.Generator

/-! ## Types and handlers -/

/-- What `qMetaTypeId` tells apart. `map` is the alias of a map field, `qtMap` is
`QMap<key, V>` for a type `V` of Qt, where the alias has a `QSharedPointer` of it. -/
inductive MetaType (M E : Type) where
  | pointer (m : M) | list (m : M) | enum (e : E) | enumList (e : E) | map (type : CppMap M E)
  | qtType (name : Str) | qtMap (key : CppScalar) (name : Str)
  deriving DecidableEq

inductive HandlerType where
  | ObjectHandler | ListHandler | MapHandler
  deriving DecidableEq

/-- The functions of a handler are instances of templates for the type. -/
structure SerializationHandler (M E : Type) where
  functions : MetaType M E
  type : HandlerType
  deriving DecidableEq

/-- What is registered for a type.
mirrors src/protobuf/qabstractprotobufserializer.h:286-333 and
src/qttypes/qtprotobufqttypes.cpp:278-290 -/
def MetaType.handler {M E : Type} (t : MetaType M E) : SerializationHandler M E where
  functions := t
  type :=
    match t with
    | .pointer _ | .enum _ | .qtType _ => .ObjectHandler
    | .list _ | .enumList _ => .ListHandler
    | .map _ | .qtMap _ _ => .MapHandler

/-- A function on `registerFunctions()`: `qRegisterProtobufType<m>`, or `registerTypes`
of the helper class of an enum. -/
inductive Registrar (M E : Type) where
  | cls (m : M) | gadget (e : E)
  deriving DecidableEq

/-- What `qRegisterProtobufQtTypes` registers.
mirrors src/qttypes/qtprotobufqttypes.cpp:292-317 -/
def qtTypes : List Str :=
  ["QUrl".toList, "QChar".toList, "QUuid".toList, "QTime".toList, "QDate".toList, "QDateTime".toList,
    "QDateTime".toList, "QSize".toList, "QSizeF".toList, "QPoint".toList, "QPointF".toList, "QRect".toList,
    "QRectF".toList, "QPolygon".toList, "QPolygonF".toList, "QColor".toList, "QMatrix4x4".toList,
    "QVector2D".toList, "QVector3D".toList, "QVector4D".toList, "QTransform".toList, "QQuaternion".toList,
    "QImage".toList]

/-- A file set without types in map entries, where every nested message is found
through the fields of the one around it, and without a list of a type of Qt, whose
property has no C++ type. -/
structure CompleteFileSet (F M E : Type) extends MapFileSet F M E where
  mapEntry_enums : ∀ m, mapEntry m = true → messageEnums m = []
  nested : ∀ k, toDescriptors.NestedAreFieldTypes k
  noQtLists : ∀ m, ∀ field ∈ fields m, ∀ t, field.kind = .message t → mapEntry t = false →
    toFileSet.isQtType (file m) t = true → field.isRepeated = false

namespace CompleteFileSet

variable {F M E : Type} (D : CompleteFileSet F M E)

/-- `qRegisterProtobufEnumType<e>` -/
def enumTypes (e : E) : List (MetaType M E) := [.enum e, .enumList e]

/-- `qRegisterProtobufMapType<key, value>` of a map field: a message is a `QObject`,
and its map has `QSharedPointer`s; a type of Qt is none.
mirrors src/protobuf/qabstractprotobufserializer.h:295-317 -/
def mapType (entry scope : M) : MetaType M E :=
  let type := D.cppMap entry scope
  match type.value with
  | .sharedQtType name => .qtMap type.key name
  | _ => .map type

/-- What one field adds to `registerTypes`. -/
def fieldTypes (m : M) (field : FieldDescriptor M E) : List (MetaType M E) :=
  match field.kind with
  | .enum e => if D.isLocalEnum e m then enumTypes e else []
  | .message t => if D.isMap field then [D.mapType t m] else []
  | _ => []

/-- mirrors src/generator/messagedefinitionprinter.cpp:68-89 -/
def registerTypes (m : M) : List (MetaType M E) := (D.fields m).flatMap (D.fieldTypes m)

/-- mirrors src/protobuf/qabstractprotobufserializer.h:286-293 and
src/generator/enumdefinitionprinter.cpp:47-62 -/
def registered : Registrar M E → List (MetaType M E)
  | .cls m => D.registerTypes m ++ [.pointer m, .list m]
  | .gadget e => enumTypes e

variable [DecidableEq M]

/-- The functions that the generated sources bring: in both modes each enum that is
in no message, and each class that is defined, has a static registrar.
mirrors src/generator/singlefilegenerator.cpp:145-164,
src/generator/multifilegenerator.cpp:147-148, 222-232 and
src/generator/messagedefinitionprinter.cpp:390-395 -/
def registrars : List (Registrar M E) :=
  D.files.flatMap fun f => (D.fileEnums f).map .gadget ++
    (D.messageTypes f).flatMap fun m => (classes (D.printClassDefinitionPrivate m)).map .cls

end CompleteFileSet

/-! ## Programs -/

/-- mirrors src/protobuf/qtprotobuf.cpp:57-66 and
src/protobuf/qabstractprotobufserializer.cpp:43-78 -/
structure Program (M E : Type) where
  registerFunctions : List (Registrar M E) := []
  registred : Bool := false
  registry : MetaType M E → Option (SerializationHandler M E) := fun _ => none

/-- A library with its static objects comes in, or the application calls a function. -/
inductive StartupEvent (M E : Type) where
  | load (library : List (Registrar M E))
  | qRegisterProtobufTypes
  | qRegisterProtobufQtTypes

namespace Program

variable {F M E : Type} [DecidableEq M] [DecidableEq E]

def registerHandler (p : Program M E) (t : MetaType M E) : Program M E :=
  { p with registry := Function.update p.registry t (some t.handler) }

def findHandler (p : Program M E) (t : MetaType M E) : Option (SerializationHandler M E) := p.registry t

variable (D : CompleteFileSet F M E)

/-- mirrors src/protobuf/qtprotobuf.cpp:62-103 -/
def step (p : Program M E) : StartupEvent M E → Program M E
  | .load library => { p with registerFunctions := p.registerFunctions ++ library }
  | .qRegisterProtobufTypes =>
    if p.registred then p
    else (p.registerFunctions.flatMap D.registered).foldl registerHandler { p with registred := true }
  | .qRegisterProtobufQtTypes => (qtTypes.map .qtType).foldl registerHandler p

def run (es : List (StartupEvent M E)) : Program M E := es.foldl (step D) {}

end Program

/-! ## Runs -/

section
variable {F M E : Type}

/-- What the libraries have brought. -/
def loaded (es : List (StartupEvent M E)) : List (Registrar M E) :=
  es.flatMap fun
    | .load library => library
    | .qRegisterProtobufTypes | .qRegisterProtobufQtTypes => []

/-- The function is there at the first call. -/
def Started (es : List (StartupEvent M E)) (r : Registrar M E) : Prop :=
  ∃ before after, es = before ++ .qRegisterProtobufTypes :: after ∧ .qRegisterProtobufTypes ∉ before ∧
    r ∈ loaded before

/-- No later event starts a function. -/
theorem started_append {es : List (StartupEvent M E)} {e : StartupEvent M E} {r : Registrar M E}
    (he : e ≠ .qRegisterProtobufTypes) : Started (es ++ [e]) r ↔ Started es r := by
  constructor
  · rintro ⟨before, after, heq, hfirst, hr⟩
    rcases List.eq_nil_or_concat after with rfl | ⟨after, e', rfl⟩
    · have hlast := List.append_inj_right' heq rfl
      exact absurd (List.cons.inj hlast).1 he
    · refine ⟨before, after, ?_, hfirst, hr⟩
      rw [List.concat_eq_append, ← List.cons_append, ← List.append_assoc] at heq
      exact List.append_inj_left' heq rfl
  · rintro ⟨before, after, rfl, hfirst, hr⟩
    exact ⟨before, after ++ [e], by simp, hfirst, hr⟩

theorem started_call {es : List (StartupEvent M E)} {r : Registrar M E} :
    Started (es ++ [.qRegisterProtobufTypes]) r ↔
      Started es r ∨ .qRegisterProtobufTypes ∉ es ∧ r ∈ loaded es := by
  constructor
  · rintro ⟨before, after, heq, hfirst, hr⟩
    rcases List.eq_nil_or_concat after with rfl | ⟨after, e, rfl⟩
    · cases List.append_inj_left' heq rfl
      exact .inr ⟨hfirst, hr⟩
    · refine .inl ⟨before, after, ?_, hfirst, hr⟩
      rw [List.concat_eq_append, ← List.cons_append, ← List.append_assoc] at heq
      exact List.append_inj_left' heq rfl
  · rintro (⟨before, after, rfl, hfirst, hr⟩ | ⟨hfirst, hr⟩)
    · exact ⟨before, after ++ [.qRegisterProtobufTypes], by simp, hfirst, hr⟩
    · exact ⟨es, [], rfl, hfirst, hr⟩

end

namespace Program

variable {F M E : Type} [DecidableEq M] [DecidableEq E]

theorem foldl_registerHandler (ts : List (MetaType M E)) (p : Program M E) :
    ts.foldl registerHandler p =
      { p with registry := fun t => if t ∈ ts then some t.handler else p.registry t } := by
  induction ts generalizing p with
  | nil => simp
  | cons t ts ih =>
    rw [List.foldl_cons, ih, registerHandler]
    simp only [mk.injEq, true_and]
    funext t'
    by_cases hmem : t' ∈ ts
    · simp [hmem]
    · by_cases heq : t' = t
      · simp [heq]
      · simp [hmem, heq]

/-- A function that registers the type was run. -/
def Handled (D : CompleteFileSet F M E) (es : List (StartupEvent M E)) (t : MetaType M E) : Prop :=
  (∃ r, Started es r ∧ t ∈ D.registered r) ∨ .qRegisterProtobufQtTypes ∈ es ∧ t ∈ qtTypes.map .qtType

/-- What a run of events leaves: a type's handler can be only its own. -/
structure After (D : CompleteFileSet F M E) (es : List (StartupEvent M E)) (p : Program M E) : Prop where
  registerFunctions : p.registerFunctions = loaded es
  registred : p.registred = true ↔ .qRegisterProtobufTypes ∈ es
  registry : ∀ t h, p.registry t = some h ↔ h = t.handler ∧ Handled D es t

theorem After.step {D : CompleteFileSet F M E} {es : List (StartupEvent M E)} {p : Program M E}
    (hp : After D es p) (e : StartupEvent M E) : After D (es ++ [e]) (step D p e) := by
  cases e with
  | load library =>
    refine ⟨?_, ?_, fun t h => ?_⟩
    · simp [Program.step, loaded, hp.registerFunctions]
    · simp [Program.step, hp.registred]
    · rw [Program.step, hp.registry]
      simp [Handled, started_append]
  | qRegisterProtobufTypes =>
    have hloaded : loaded (es ++ [.qRegisterProtobufTypes]) = loaded es := by simp [loaded]
    by_cases hcalled : .qRegisterProtobufTypes ∈ es
    · rw [Program.step, if_pos (hp.registred.mpr hcalled)]
      refine ⟨hloaded ▸ hp.registerFunctions, by simp [hp.registred, hcalled], fun t h => ?_⟩
      rw [hp.registry]
      simp [Handled, started_call, hcalled]
    · have hfalse : ¬ p.registred = true := fun h => hcalled (hp.registred.mp h)
      have hnone : ∀ r, ¬ Started es r := by
        rintro r ⟨before, after, rfl, -, -⟩
        simp at hcalled
      rw [Program.step, if_neg hfalse, foldl_registerHandler]
      refine ⟨hloaded ▸ hp.registerFunctions, by simp, fun t h => ?_⟩
      have hold := hp.registry t h
      simp only [Handled, started_call, hnone, hcalled, not_false_eq_true, true_and, false_or, false_and,
        exists_false, hp.registerFunctions, List.mem_flatMap, List.mem_append, List.mem_singleton,
        reduceCtorEq, or_false] at hold ⊢
      split
      · next hmem => simp [hmem, eq_comm]
      · next hmem => simp [hmem, hold]
  | qRegisterProtobufQtTypes =>
    rw [Program.step, foldl_registerHandler]
    refine ⟨?_, ?_, fun t h => ?_⟩
    · simp [loaded, hp.registerFunctions]
    · simp [hp.registred]
    · have hold := hp.registry t h
      have hstarted : ∀ r, Started (es ++ [.qRegisterProtobufQtTypes]) r ↔ Started es r := fun r =>
        started_append (by simp)
      dsimp only
      split
      · next hmem => simp [Handled, hmem, eq_comm]
      · next hmem => simp [Handled, hmem, hold, hstarted]

theorem after_run (D : CompleteFileSet F M E) (es : List (StartupEvent M E)) : After D es (run D es) := by
  induction es using List.reverseRecOn with
  | nil =>
    refine ⟨rfl, by simp [run], fun t h => ?_⟩
    have hnone : ∀ r, ¬ Started ([] : List (StartupEvent M E)) r := by
      rintro r ⟨before, after, heq, -, -⟩
      simp at heq
    simp [run, Handled, hnone]
  | append_singleton es e ih =>
    rw [run, List.foldl_append]
    exact ih.step e

/-- **The handlers of a program.** -/
theorem findHandler_run {D : CompleteFileSet F M E} {es : List (StartupEvent M E)} {t : MetaType M E}
    {h : SerializationHandler M E} : (run D es).findHandler t = some h ↔
      h = t.handler ∧ ((∃ r, Started es r ∧ t ∈ D.registered r) ∨
        .qRegisterProtobufQtTypes ∈ es ∧ t ∈ qtTypes.map .qtType) := (after_run D es).registry t h

end Program

/-! ## The functions of a file set -/

namespace CompleteFileSet

variable {F M E : Type} [DecidableEq M] {D : CompleteFileSet F M E}

omit [DecidableEq M] in
/-- A message is in a top one, or is one. -/
theorem exists_top (m : M) : ∃ top, D.containingType top = none ∧ (m = top ∨ D.Inside top m) := by
  induction hd : D.depth m using Nat.strongRecOn generalizing m with
  | ind d ih =>
    cases hc : D.containingType m with
    | none => exact ⟨m, hc, .inl rfl⟩
    | some c =>
      have hdepth := D.depth_eq c m hc
      obtain ⟨top, htop, rfl | hin⟩ := ih (D.depth c) (by omega) c rfl
      · exact ⟨c, htop, .inr (.nested hc)⟩
      · exact ⟨top, htop, .inr (.deeper hin hc)⟩

theorem cls_mem_registrars {m : M} : .cls m ∈ D.registrars ↔ D.mapEntry m = false := by
  simp only [registrars, List.mem_flatMap, List.mem_append, List.mem_map, reduceCtorEq, and_false,
    exists_false, false_or, Registrar.cls.injEq, exists_eq_right]
  constructor
  · rintro ⟨f, -, top, htop, hm⟩
    rcases Descriptors.recursion_definitions.inside_of_mem hm with rfl | ⟨-, hm⟩
    · obtain ⟨hnone, -⟩ := (D.mem_messageTypes f m).mp htop
      cases he : D.mapEntry m with
      | false => rfl
      | true =>
        obtain ⟨c, hc, -⟩ := D.mapEntry_field m he
        cases hnone.symm.trans hc
    · exact hm
  · intro hm
    obtain ⟨top, htop, hin⟩ := D.exists_top m
    refine ⟨D.file top, D.mem_files _, top, (D.mem_messageTypes _ _).mpr ⟨htop, rfl⟩, ?_⟩
    rcases hin with rfl | hin
    · exact Descriptors.recursion_definitions.mem_iff.mpr (.inl rfl)
    · exact Descriptors.recursion_definitions.mem_of_inside (fun k _ => D.nested k) hin hm

theorem gadget_mem_registrars {e : E} : .gadget e ∈ D.registrars ↔ D.enumContainingType e = none := by
  simp only [registrars, List.mem_flatMap, List.mem_append, List.mem_map, reduceCtorEq, and_false,
    exists_false, or_false, Registrar.gadget.injEq, exists_eq_right, D.mem_fileEnums]
  constructor
  · rintro ⟨f, -, hnone, -⟩
    exact hnone
  · exact fun hnone => ⟨D.enumFile e, D.mem_files _, hnone, rfl⟩

/-! ## The look-ups -/

variable (D) in
/-- The value of a map is looked up like a field that is not repeated. -/
def valueLookups (entry : M) : List (MetaType M E) :=
  match D.valueType entry with
  -- a map with values of Qt has no handler itself, so that they are not come to
  | .message t => if D.isQtType (D.file entry) t then [] else [.pointer t]
  | .enum e => [.enum e]
  | .simple _ => []

variable (D) in
/-- The types that `findHandler` is asked for, for a field of a message, enum or map
type. The others have basic handlers, which are found before, but for the list of
`bool`, which has no handler at all.
mirrors src/protobuf/qprotobufserializer.cpp:258-353 -/
def lookups (m : M) (field : FieldDescriptor M E) : List (MetaType M E) :=
  match field.kind with
  | .message t =>
    if D.isMap field then .map (D.cppMap t m) :: D.valueLookups t
    else if D.isQtType (D.file m) t then [.qtType (D.name t)]
    else if field.isRepeated then [.list t]
    else [.pointer t]
  | .enum e => if field.isRepeated then [.enumList e] else [.enum e]
  | _ => []

variable (D) in
/-- The field has the enum, or is a map with it. -/
def UsesEnum (field : FieldDescriptor M E) (e : E) : Prop :=
  field.kind = .enum e ∨ ∃ entry, field.kind = .message entry ∧ D.mapEntry entry = true ∧
    D.valueType entry = .enum e

variable (D) in
/-- What the handlers of a field's types need: each of its enums that is in a message
is the type of a field of that message; a type of Qt is one that
`qRegisterProtobufQtTypes` registers, and this was called; no map has values of Qt. -/
structure HandledField (es : List (StartupEvent M E)) (m : M) (field : FieldDescriptor M E) : Prop where
  enums : ∀ e, D.UsesEnum field e → ∀ c, D.enumContainingType e = some c →
    ∃ f ∈ D.fields c, f.kind = .enum e
  qtField : ∀ t, field.kind = .message t → D.mapEntry t = false → D.isQtType (D.file m) t = true →
    .qRegisterProtobufQtTypes ∈ es ∧ D.name t ∈ qtTypes
  qtMap : ∀ entry t, field.kind = .message entry → D.mapEntry entry = true →
    D.valueType entry = .message t → D.isQtType (D.file m) t = false

variable (D) in
/-- Some function of the file set registers the type. -/
def Registers (t : MetaType M E) : Prop := ∃ r ∈ D.registrars, t ∈ D.registered r

omit [DecidableEq M] in
theorem isLocalEnum_iff {e : E} {m : M} : D.isLocalEnum e m = true ↔ D.enumContainingType e = some m := by
  have hscope : D.isLocalEnumIn e (some m) = true ↔ ∃ s, some m = some s ∧ D.enumContainingType e = some s :=
    LinkedFileSet.isLocalEnumIn_iff
  refine hscope.trans ⟨?_, fun hc => ⟨m, rfl, hc⟩⟩
  rintro ⟨s, hs, hc⟩
  cases hs
  exact hc

theorem registers_pointer {m : M} (h : D.mapEntry m = false) :
    D.Registers (.pointer m) ∧ D.Registers (.list m) :=
  ⟨⟨.cls m, cls_mem_registrars.mpr h, by simp [registered]⟩, ⟨.cls m, cls_mem_registrars.mpr h, by simp [registered]⟩⟩

omit [DecidableEq M] in
theorem mapType_cases (entry scope : M) :
    (∃ t, D.valueType entry = .message t ∧ D.isQtType (D.file scope) t = true ∧
      (D.cppMap entry scope).value = .sharedQtType (D.name t) ∧
      D.mapType entry scope = .qtMap (D.cppMap entry scope).key (D.name t)) ∨
    ((∀ t, D.valueType entry = .message t → D.isQtType (D.file scope) t = false) ∧
      (∀ name, (D.cppMap entry scope).value ≠ .sharedQtType name) ∧
      D.mapType entry scope = .map (D.cppMap entry scope)) := by
  unfold mapType
  cases hv : D.valueType entry with
  | simple t =>
    have hvalue : (D.cppMap entry scope).value = .scalar (cppScalar t) := by simp [MapFileSet.cppMap, hv]
    exact .inr ⟨fun t h => (by cases h), fun name => (by simp [hvalue]), by simp [hvalue]⟩
  | enum e =>
    have hvalue : (D.cppMap entry scope).value = .enum e := by simp [MapFileSet.cppMap, hv]
    exact .inr ⟨fun t h => (by cases h), fun name => (by simp [hvalue]), by simp [hvalue]⟩
  | message t =>
    cases hqt : D.isQtType (D.file scope) t with
    | true =>
      have hvalue : (D.cppMap entry scope).value = .sharedQtType (D.name t) := by
        simp [MapFileSet.cppMap, hv, hqt]
      exact .inl ⟨t, rfl, hqt, hvalue, by simp [hvalue]⟩
    | false =>
      have hvalue : (D.cppMap entry scope).value = .sharedMessage t := by simp [MapFileSet.cppMap, hv, hqt]
      exact .inr ⟨fun t' h => (by cases h; exact hqt), fun name => (by simp [hvalue]), by simp [hvalue]⟩

omit [DecidableEq M] in
/-- What one field adds: the types of an enum, or of a map. -/
theorem mem_fieldTypes {m : M} {field : FieldDescriptor M E} {t : MetaType M E} :
    t ∈ D.fieldTypes m field ↔
      (∃ e, field.kind = .enum e ∧ D.isLocalEnum e m = true ∧ t ∈ enumTypes e) ∨
        ∃ entry, field.kind = .message entry ∧ D.mapEntry entry = true ∧ t = D.mapType entry m := by
  unfold fieldTypes
  cases hkind : field.kind with
  | enum e => by_cases hlocal : D.isLocalEnum e m = true <;> simp [hlocal]
  | message entry => simp [Descriptors.isMap, FieldDescriptor.messageType, hkind]
  | _ => simp

/-- The alias of a map field is registered unless its values are of Qt. -/
theorem registers_map_iff {m entry : M} {field : FieldDescriptor M E} (hm : D.mapEntry m = false)
    (hf : field ∈ D.fields m) (hkind : field.kind = .message entry) (hmap : D.mapEntry entry = true) :
    D.Registers (.map (D.cppMap entry m)) ↔
      ∀ t, D.valueType entry = .message t → D.isQtType (D.file m) t = false := by
  constructor
  · rintro ⟨r, -, htypes⟩
    have hvalue : ∀ name, (D.cppMap entry m).value ≠ .sharedQtType name := by
      cases r with
      | gadget e => simp [registered, enumTypes] at htypes
      | cls m' =>
        rcases List.mem_append.mp htypes with hfields | hclass
        · obtain ⟨f, -, hf⟩ := List.mem_flatMap.mp hfields
          rcases mem_fieldTypes.mp hf with ⟨e, -, -, he⟩ | ⟨entry', -, -, htype⟩
          · simp [enumTypes] at he
          · rcases D.mapType_cases entry' m' with ⟨t, -, -, -, hqt⟩ | ⟨-, hvalue, hown⟩
            · rw [hqt] at htype
              cases htype
            · rw [hown] at htype
              rw [MetaType.map.inj htype]
              exact hvalue
        · simp at hclass
    rcases D.mapType_cases entry m with ⟨t, -, -, hqt, -⟩ | ⟨hplain, -⟩
    · exact absurd hqt (hvalue _)
    · exact hplain
  · intro hplain
    refine ⟨.cls m, cls_mem_registrars.mpr hm, List.mem_append_left _ (List.mem_flatMap.mpr ⟨field, hf, ?_⟩)⟩
    rcases D.mapType_cases entry m with ⟨t, hv, hqt, -⟩ | ⟨-, -, hown⟩
    · rw [hplain t hv] at hqt
      cases hqt
    · exact mem_fieldTypes.mpr (.inr ⟨entry, hkind, hmap, hown.symm⟩)

theorem not_registers_qtType (name : Str) : ¬ D.Registers (.qtType name) := by
  rintro ⟨r, -, htypes⟩
  cases r with
  | gadget e => simp [registered, enumTypes] at htypes
  | cls m =>
    rcases List.mem_append.mp htypes with hfields | hclass
    · obtain ⟨f, -, hf⟩ := List.mem_flatMap.mp hfields
      rcases mem_fieldTypes.mp hf with ⟨e, -, -, he⟩ | ⟨entry, -, -, htype⟩
      · simp [enumTypes] at he
      · rcases D.mapType_cases entry m with ⟨t, -, -, -, h⟩ | ⟨-, -, h⟩
        · rw [h] at htype
          cases htype
        · rw [h] at htype
          cases htype
    · simp at hclass

/-- An enum in a message is registered through the fields of that message. -/
theorem registers_enum {e : E} {t : MetaType M E} (ht : t ∈ enumTypes e) : D.Registers t ↔
    ∀ c, D.enumContainingType e = some c → ∃ field ∈ D.fields c, field.kind = .enum e := by
  have heq : ∀ e', t ∈ enumTypes e' → e' = e := by
    intro e' ht'
    simp only [enumTypes, List.mem_cons, List.not_mem_nil, or_false] at ht ht'
    rcases ht with rfl | rfl
    · simpa [eq_comm] using ht'
    · simpa [eq_comm] using ht'
  constructor
  · rintro ⟨r, hr, htypes⟩ c hc
    cases r with
    | gadget e' =>
      cases heq e' htypes
      cases (gadget_mem_registrars.mp hr).symm.trans hc
    | cls m =>
      rcases List.mem_append.mp htypes with hfields | hclass
      · obtain ⟨field, hfield, htype⟩ := List.mem_flatMap.mp hfields
        rcases mem_fieldTypes.mp htype with ⟨e', hkind, hlocal, he'⟩ | ⟨entry, -, -, hmap⟩
        · cases heq e' he'
          cases (isLocalEnum_iff.mp hlocal).symm.trans hc
          exact ⟨field, hfield, hkind⟩
        · subst hmap
          rcases D.mapType_cases entry m with ⟨v, -, -, -, h⟩ | ⟨-, -, h⟩
          · simp [h, enumTypes] at ht
          · simp [h, enumTypes] at ht
      · simp only [enumTypes, List.mem_cons, List.not_mem_nil, or_false] at ht hclass
        rcases ht with rfl | rfl
        · simp at hclass
        · simp at hclass
  · intro h
    cases hc : D.enumContainingType e with
    | none => exact ⟨.gadget e, gadget_mem_registrars.mpr hc, ht⟩
    | some c =>
      obtain ⟨field, hfield, hkind⟩ := h c hc
      have hentry : D.mapEntry c = false := by
        cases he : D.mapEntry c with
        | false => rfl
        | true =>
          have hmem := (D.mem_messageEnums c e).mpr hc
          rw [D.mapEntry_enums c he] at hmem
          cases hmem
      refine ⟨.cls c, cls_mem_registrars.mpr hentry,
        List.mem_append_left _ (List.mem_flatMap.mpr ⟨field, hfield, ?_⟩)⟩
      exact mem_fieldTypes.mpr (.inl ⟨e, hkind, isLocalEnum_iff.mpr hc, ht⟩)

/-! ## What is found -/

/-- The functions of the file set have been run, and perhaps those of Qt's types. -/
theorem handled_iff {es : List (StartupEvent M E)} (hes : ∀ r, Started es r ↔ r ∈ D.registrars)
    (t : MetaType M E) : Program.Handled D es t ↔
      D.Registers t ∨ .qRegisterProtobufQtTypes ∈ es ∧ t ∈ qtTypes.map .qtType := by
  simp only [Program.Handled, hes, Registers]

theorem handled_value {es : List (StartupEvent M E)} (hes : ∀ r, Started es r ↔ r ∈ D.registrars) {entry : M}
    (he : D.mapEntry entry = true) : (∀ t ∈ D.valueLookups entry, Program.Handled D es t) ↔
      ∀ e, D.valueType entry = .enum e → ∀ c, D.enumContainingType e = some c →
        ∃ field ∈ D.fields c, field.kind = .enum e := by
  simp only [handled_iff hes]
  unfold valueLookups
  cases hv : D.valueType entry with
  | simple t => simp
  | enum e => simp [registers_enum (D := D) (t := .enum e) (e := e) (by simp [enumTypes])]
  | message v =>
    have hfield : (⟨.message v, false⟩ : FieldDescriptor M E) ∈ D.fields entry := by
      rw [D.entry_fields entry he, hv]
      exact List.mem_cons_of_mem _ (List.mem_singleton.mpr rfl)
    have hentry : D.mapEntry v = false := D.mapEntry_fields entry he _ hfield
    have hpointer := (registers_pointer hentry).1
    dsimp only
    split
    · simp
    · simp [hpointer]

/-- A map field: its alias, and its values. -/
theorem handled_map {es : List (StartupEvent M E)} (hes : ∀ r, Started es r ↔ r ∈ D.registrars) {m entry : M}
    {field : FieldDescriptor M E} (hm : D.mapEntry m = false) (hf : field ∈ D.fields m)
    (hkind : field.kind = .message entry) (hmap : D.mapEntry entry = true) :
    (∀ t ∈ .map (D.cppMap entry m) :: D.valueLookups entry, Program.Handled D es t) ↔
      D.HandledField es m field := by
  rw [List.forall_mem_cons, handled_value hes hmap, handled_iff hes, registers_map_iff hm hf hkind hmap]
  simp only [List.mem_map, reduceCtorEq, and_false, exists_false, or_false]
  constructor
  · rintro ⟨hqt, henums⟩
    refine ⟨fun e he => ?_, fun t ht hplain => ?_, fun entry' t he' _ hv => ?_⟩
    · rcases he with he | ⟨entry', he', -, hv⟩
      · rw [hkind] at he
        cases he
      · rw [hkind] at he'
        cases he'
        exact henums e hv
    · rw [hkind] at ht
      cases ht
      cases hmap.symm.trans hplain
    · rw [hkind] at he'
      cases he'
      exact hqt t hv
  · intro h
    exact ⟨fun t hv => h.qtMap entry t hkind hmap hv,
      fun e hv => h.enums e (.inr ⟨entry, hkind, hmap, hv⟩)⟩

/-- A field of a message type. -/
theorem handled_message {es : List (StartupEvent M E)} (hes : ∀ r, Started es r ↔ r ∈ D.registrars) {m t : M}
    {field : FieldDescriptor M E} (hkind : field.kind = .message t) (hmap : D.mapEntry t = false) :
    (∀ x ∈ if D.isQtType (D.file m) t then [.qtType (D.name t)]
        else if field.isRepeated then [.list t] else [.pointer t], Program.Handled D es x) ↔
      D.HandledField es m field := by
  simp only [handled_iff hes]
  have hboth := registers_pointer hmap
  have henum : ∀ e, ¬ D.UsesEnum field e := by
    rintro e (he | ⟨entry, he, hentry, -⟩)
    · rw [hkind] at he
      cases he
    · rw [hkind] at he
      cases he
      cases hmap.symm.trans hentry
  have hentry : ∀ entry, field.kind = .message entry → D.mapEntry entry = true → False := fun entry he h => by
    rw [hkind] at he
    cases he
    cases hmap.symm.trans h
  cases hqt : D.isQtType (D.file m) t with
  | true =>
    rw [if_pos rfl, List.forall_mem_singleton, or_iff_right (not_registers_qtType _)]
    simp only [List.mem_map, MetaType.qtType.injEq, exists_eq_right]
    constructor
    · intro h
      refine ⟨fun e he => absurd he (henum e), fun t' ht' _ _ => ?_, fun entry _ he h => (hentry entry he h).elim⟩
      rw [hkind] at ht'
      cases ht'
      exact h
    · exact fun h => h.qtField t hkind hmap hqt
  | false =>
    refine iff_of_true (fun x hx => .inl ?_) ⟨fun e he => absurd he (henum e), fun t' ht' _ h => ?_,
      fun entry _ he h => (hentry entry he h).elim⟩
    · rw [if_neg (by simp)] at hx
      split at hx
      · cases List.mem_singleton.mp hx
        exact hboth.2
      · cases List.mem_singleton.mp hx
        exact hboth.1
    · rw [hkind] at ht'
      cases ht'
      cases hqt.symm.trans h

theorem handled_lookups {es : List (StartupEvent M E)} (hes : ∀ r, Started es r ↔ r ∈ D.registrars) {m : M}
    {field : FieldDescriptor M E} (hm : D.mapEntry m = false) (hf : field ∈ D.fields m) :
    (∀ t ∈ D.lookups m field, Program.Handled D es t) ↔ D.HandledField es m field := by
  have hother : (∀ t, field.kind ≠ .message t) → (D.HandledField es m field ↔
      ∀ e, field.kind = .enum e → ∀ c, D.enumContainingType e = some c → ∃ f ∈ D.fields c, f.kind = .enum e) := by
    intro hmessage
    constructor
    · exact fun h e he => h.enums e (.inl he)
    · refine fun h => ⟨fun e he => ?_, fun t ht => absurd ht (hmessage t), fun entry t he =>
        absurd he (hmessage entry)⟩
      rcases he with he | ⟨entry, he, -⟩
      · exact h e he
      · exact absurd he (hmessage entry)
  unfold lookups
  cases hkind : field.kind with
  | message t =>
    dsimp only
    cases hmap : D.mapEntry t with
    | true =>
      have hisMap : D.isMap field = true := by simp [Descriptors.isMap, FieldDescriptor.messageType, hkind, hmap]
      rw [if_pos hisMap]
      exact handled_map hes hm hf hkind hmap
    | false =>
      have hisMap : D.isMap field = false := by simp [Descriptors.isMap, FieldDescriptor.messageType, hkind, hmap]
      rw [if_neg (by simp [hisMap])]
      exact handled_message hes hkind hmap
  | enum e =>
    have hone : D.Registers (.enum e) ↔ _ := registers_enum (List.mem_cons_self)
    have hlist : D.Registers (.enumList e) ↔ _ :=
      registers_enum (List.mem_cons_of_mem _ (List.mem_singleton.mpr rfl))
    have hplain : ∀ t, t ∈ enumTypes e → (Program.Handled D es t ↔ D.Registers t) := fun t ht => by
      rw [handled_iff hes, or_iff_left]
      rintro ⟨-, h⟩
      obtain ⟨name, -, rfl⟩ := List.mem_map.mp h
      simp [enumTypes] at ht
    rw [hother (by simp [hkind])]
    simp only [hkind, FieldKind.enum.injEq, forall_eq']
    split
    · rw [List.forall_mem_singleton, hplain _ (by simp [enumTypes]), hlist]
    · rw [List.forall_mem_singleton, hplain _ (by simp [enumTypes]), hone]
  | bytes => simp [hother, hkind]
  | string => simp [hother, hkind]
  | basic => simp [hother, hkind]

end CompleteFileSet

/-- **Every handler is found** exactly if each enum in a message that some field or map
uses is the type of a field of that message, the types of Qt among the fields have been
registered, and no map has values of Qt. -/
theorem CompleteFileSet.handlersFound_iff {F M E : Type} [DecidableEq M] [DecidableEq E]
    (D : CompleteFileSet F M E) (es : List (StartupEvent M E)) (hes : ∀ r, Started es r ↔ r ∈ D.registrars) :
    (∀ m, .cls m ∈ D.registrars → ∀ field ∈ D.fields m, ∀ t ∈ D.lookups m field,
        (Program.run D es).findHandler t = some t.handler) ↔
      ∀ m, D.mapEntry m = false → ∀ field ∈ D.fields m, D.HandledField es m field := by
  have hfound : ∀ t, (Program.run D es).findHandler t = some t.handler ↔ Program.Handled D es t := by
    intro t
    rw [Program.findHandler, (Program.after_run D es).registry]
    exact and_iff_right rfl
  constructor
  · intro h m hm field hf
    refine (handled_lookups hes hm hf).mp fun t ht => ?_
    exact (hfound t).mp (h m (cls_mem_registrars.mpr hm) field hf t ht)
  · intro h m hm field hf t ht
    have hm := cls_mem_registrars.mp hm
    exact (hfound t).mpr ((handled_lookups hes hm hf).mpr (h m hm field hf) t ht)

/-! ## An enum that other messages use -/

inductive StatusMessage where
  | order | report | byNameEntry
  deriving DecidableEq

open StatusMessage in
/-- `message Order { enum Status { New = 0; } Status status = 1; }`, or with a number in
place of the field, and
`message Report { Order.Status last = 1; map<string, Order.Status> byName = 2; }` -/
def statusFile (hasStatus : Bool) : CompleteFileSet Unit StatusMessage Unit where
  package _ := []
  services _ := []
  file _ := ()
  name
    | order => "Order".toList
    | report => "Report".toList
    | byNameEntry => "ByNameEntry".toList
  fields
    | order => [if hasStatus then ⟨.enum (), false⟩ else ⟨.basic, false⟩]
    | report => [⟨.enum (), false⟩, ⟨.message byNameEntry, true⟩]
    | byNameEntry => [⟨.string, false⟩, ⟨.enum (), false⟩]
  nestedTypes
    | report => [byNameEntry]
    | _ => []
  containingType
    | byNameEntry => some report
    | _ => none
  mapEntry m := m == byNameEntry
  depth m := if m = byNameEntry then 1 else 0
  maxDepth := 2
  package_eq _ := noPackage
  name_identifier m := by cases m <;> decide
  service_identifier _ _ h := by cases h
  mem_nestedTypes m n := by cases m <;> cases n <;> decide
  distinct m := by cases m <;> decide
  file_eq _ _ _ := rfl
  depth_eq m n h := by cases m <;> cases n <;> first | rfl | cases h
  depth_lt m := by cases m <;> decide
  mapEntry_nestedTypes m h := by cases m <;> first | rfl | cases h
  mapEntry_field m h := by
    cases m with
    | byNameEntry => exact ⟨report, rfl, ⟨.message byNameEntry, true⟩, by simp, rfl⟩
    | _ => cases h
  files := [()]
  mem_files := FileSet.mem_oneFile
  fileName _ := "status.proto".toList
  dependencies _ := []
  messageTypes _ := [order, report]
  fileEnums _ := []
  enumName _ := "Status".toList
  enumFile _ := ()
  enumContainingType _ := some order
  messageEnums
    | order => [()]
    | _ => []
  fileName_eq _ := ⟨"status".toList, rfl⟩
  mem_messageTypes _ m := by cases m <;> simp
  mem_fileEnums _ _ := by simp
  mem_messageEnums m _ := by cases m <;> simp
  enumFile_eq _ _ _ := rfl
  enumName_identifier _ := by decide
  mapEntry_fields m h := by cases hasStatus <;> cases m <;> first | decide | cases h
  enumFullName_inj _ _ _ := rfl
  keyType _ := .string
  valueType _ := .enum ()
  entry_fields m h := by cases m <;> first | rfl | cases h
  mapEntry_enums m h := by cases m <;> first | rfl | cases h
  noQtLists m field hf t hkind hentry := by
    cases hasStatus <;> cases m <;> simp at hf
    all_goals rcases hf with rfl | rfl <;> cases hkind
    all_goals cases hentry
  nested k := by
    intro _ n hn hentry
    cases k with
    | report =>
      cases List.mem_singleton.mp hn
      cases hentry
    | order => cases hn
    | byNameEntry => cases hn

/-- One library, and two calls. -/
def startup (hasStatus : Bool) : List (StartupEvent StatusMessage Unit) :=
  [.load (statusFile hasStatus).registrars, .qRegisterProtobufTypes, .qRegisterProtobufTypes]

theorem startup_started (hasStatus : Bool) (r : Registrar StatusMessage Unit) :
    Started (startup hasStatus) r ↔ r ∈ (statusFile hasStatus).registrars := by
  constructor
  · rintro ⟨before, after, heq, hfirst, hr⟩
    match before with
    | [] => cases heq
    | [_] =>
      cases heq
      simpa [loaded] using hr
    | _ :: _ :: before =>
      simp only [startup, List.cons_append, List.cons.injEq] at heq
      obtain ⟨-, rfl, -⟩ := heq
      simp at hfirst
  · intro hr
    exact ⟨[.load (statusFile hasStatus).registrars], [.qRegisterProtobufTypes], rfl, by simp,
      by simpa [loaded] using hr⟩

/-- With the field every handler is found; without it that of the enum is not. -/
theorem handlersFound_iff_status :
    (∀ m, .cls m ∈ (statusFile true).registrars → ∀ field ∈ (statusFile true).fields m,
        ∀ t ∈ (statusFile true).lookups m field,
          (Program.run (statusFile true) (startup true)).findHandler t = some t.handler) ∧
      ¬ ∀ m, .cls m ∈ (statusFile false).registrars → ∀ field ∈ (statusFile false).fields m,
        ∀ t ∈ (statusFile false).lookups m field,
          (Program.run (statusFile false) (startup false)).findHandler t = some t.handler := by
  constructor
  · refine ((statusFile true).handlersFound_iff (startup true) (startup_started true)).mpr ?_
    refine fun m _ field hf => ⟨fun e _ c hc => ?_, fun t hkind hentry => ?_, fun entry t _ _ hv => by cases hv⟩
    · cases hc
      exact ⟨⟨.enum (), false⟩, List.mem_singleton.mpr rfl, rfl⟩
    · -- the only message type of a field is the entry of the map
      cases m <;> simp [statusFile] at hf
      all_goals rcases hf with rfl | rfl <;> cases hkind
      cases hentry
  · intro h
    have hfields := ((statusFile false).handlersFound_iff (startup false) (startup_started false)).mp h
    obtain ⟨f, hf, hkind⟩ :=
      (hfields .report rfl ⟨.enum (), false⟩ List.mem_cons_self).enums () (.inl rfl) .order rfl
    cases List.mem_singleton.mp hf
    cases hkind

end QtProtobuf.Generator
