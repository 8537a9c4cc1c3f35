import QtProtobuf.L1Wire.Varint
import Mathlib.Logic.Relation

/-!
# Message types and their values

What `qRegisterProtobufTypes` registers and the generator prints: the property
types, a meta object for each message type (`MetaObject`), and the values a
property can have (`Value`). A float is its bit pattern; `none` is a null string.

* `Equal`: the generated `operator ==`.
* `Typed`: a value that a property of a type can have.
* `write`: what the generated setters leave in the property.
-/
namespace QtProtobuf.Codec

open Wire

/-! ## Types -/

/-- mirrors src/protobuf/qtprotobuftypes.h:105-181, and `float` and `double` -/
inductive NumType where
  | int32 | int64 | uint32 | uint64 | sint32 | sint64
  | fixed32 | fixed64 | sfixed32 | sfixed64 | float | double
  deriving DecidableEq, Repr

/-- Which `serializeBasic` a type selects. -/
inductive Coding where
  | plain | zigZag | fixed
  deriving DecidableEq, Repr

namespace NumType

def width : NumType → Nat
  | int32 | uint32 | sint32 | fixed32 | sfixed32 | float => 32
  | int64 | uint64 | sint64 | fixed64 | sfixed64 | double => 64

def coding : NumType → Coding
  | int32 | int64 | uint32 | uint64 => .plain
  | sint32 | sint64 => .zigZag
  | fixed32 | fixed64 | sfixed32 | sfixed64 | float | double => .fixed

def signed : NumType → Bool
  | int32 | int64 | sint32 | sint64 | sfixed32 | sfixed64 => true
  | _ => false

/-- The bit pattern of infinity; `none` for an integer. -/
def infinity : NumType → Option Nat
  | float => some 0x7f800000
  | double => some 0x7ff0000000000000
  | _ => none

/-- mirrors src/protobuf/qprotobufserializer.cpp:185-196 (the wire types) -/
def wireType (t : NumType) : WireTypes :=
  match t.coding, t.width with
  | .fixed, 32 => .fixed32
  | .fixed, _ => .fixed64
  | _, _ => .varint

theorem width_le (t : NumType) : t.width ≤ 64 := by cases t <;> decide

theorem width_eq (t : NumType) : t.width = 32 ∨ t.width = 64 := by cases t <;> decide

end NumType

inductive ScalarType where
  | num (t : NumType) | bool | string | bytes
  deriving DecidableEq, Repr

/-- The types of the properties that are neither lists nor maps; `M` is the
type of the message types. -/
inductive SingleType (M : Type) where
  | scalar (t : ScalarType) | enum | message (m : M)

inductive FieldType (M : Type) where
  | single (t : SingleType M)
  | nums (t : NumType)
  | strings
  | byteArrays
  | enums
  | messages (m : M)
  | map (key : ScalarType) (value : SingleType M)

/-- mirrors src/protobuf/qprotobufserializer.cpp:185-199 (the wire types) -/
def ScalarType.wireType : ScalarType → WireTypes
  | .num t => t.wireType
  | .bool => .varint
  | .string | .bytes => .lengthDelimited

def SingleType.wireType {M : Type} : SingleType M → WireTypes
  | .scalar t => t.wireType
  | .enum => .varint
  | .message _ => .lengthDelimited

/-- The wire type the serializer writes for a property of the type. -/
def FieldType.wireType {M : Type} : FieldType M → WireTypes
  | .single t => t.wireType
  | _ => .lengthDelimited

/-- What a message type is made of: the types of the properties by property
index, and `propertyOrdering` in the order in which the unordered map enumerates
its pairs of field number and property index. -/
structure MetaObject (M : Type) where
  properties : List (FieldType M)
  propertyOrdering : List (Nat × Nat)
  distinct : (propertyOrdering.map Prod.fst).Nodup
  inRange : ∀ p ∈ propertyOrdering, 0 < p.1 ∧ p.1 < 2 ^ 29
  indices : (propertyOrdering.map Prod.snd).Perm (List.range properties.length)

theorem fieldNumber_one : 0 < 1 ∧ 1 < 2 ^ 29 := by decide

/-- A message type with one field. -/
def MetaObject.oneField {M : Type} (fieldNumber : Nat) (h : 0 < fieldNumber ∧ fieldNumber < 2 ^ 29)
    (type : FieldType M) : MetaObject M where
  properties := [type]
  propertyOrdering := [(fieldNumber, 0)]
  distinct := by simp
  inRange p hp := by
    rw [List.mem_singleton.mp hp]
    exact h
  indices := .refl _

abbrev Schema (M : Type) := M → MetaObject M

/-- One message type, with one field of number 1. -/
def oneFieldSchema (t : FieldType Unit) : Schema Unit := fun _ => .oneField 1 fieldNumber_one t

/-- `propertyOrdering.find(fieldNumber)`, and the property. -/
def MetaObject.find {M : Type} (o : MetaObject M) (fieldNumber : Nat) : Option (Nat × FieldType M) := do
  let propertyIndex ← o.propertyOrdering.lookup fieldNumber
  let type ← o.properties[propertyIndex]?
  pure (propertyIndex, type)

theorem MetaObject.find_mem {M : Type} {o : MetaObject M} {f i : Nat} {t : FieldType M}
    (h : o.find f = some (i, t)) :
    (f, i) ∈ o.propertyOrdering ∧ o.properties[i]? = some t := by
  simp only [MetaObject.find, Option.bind_eq_bind, Option.bind_eq_some_iff, Option.pure_def,
    Option.some.injEq, Prod.mk.injEq] at h
  obtain ⟨i, hi, t, ht, rfl, rfl⟩ := h
  obtain ⟨before, after, hp, -⟩ := List.lookup_eq_some_iff.mp hi
  exact ⟨by simp [hp], ht⟩

/-! ## Values -/

inductive Scalar where
  | num (t : NumType) (v : BitVec t.width)
  | bool (v : Bool)
  | string (s : Option (List UInt16))
  | bytes (s : Option Bytes)
  deriving DecidableEq, Repr

namespace Scalar

def type : Scalar → ScalarType
  | num t _ => .num t
  | bool _ => .bool
  | string _ => .string
  | bytes _ => .bytes

/-- `operator ==` does not tell a null string from an empty one. -/
def text : Scalar → Scalar
  | string s => string (some (s.getD []))
  | bytes s => bytes (some (s.getD []))
  | v => v

/-- What `operator <` of the keys of a map compares. -/
def key : Scalar → List Int
  | num t v => [if t.signed then v.toInt else v.toNat]
  | bool v => [if v then 1 else 0]
  | string s => (s.getD []).map fun c => (c.toNat : Int)
  | bytes s => (s.getD []).map fun c => (c.toNat : Int)


theorem key_text (v : Scalar) : v.text.key = v.key := by cases v <;> rfl

end Scalar

def ScalarType.default : ScalarType → Scalar
  | .num t => .num t 0
  | .bool => .bool false
  | .string => .string none
  | .bytes => .bytes none

theorem ScalarType.default_type (t : ScalarType) : t.default.type = t := by cases t <;> rfl

/-- The value of a property. `unset`: a null pointer; `object`: the values of
the properties, by property index. -/
inductive Value (M : Type) where
  | scalar (v : Scalar)
  | enum (v : BitVec 32)
  | unset (m : M)
  | object (m : M) (fields : List (Value M))
  | nums (t : NumType) (vs : List (BitVec t.width))
  | strings (vs : List (Option (List UInt16)))
  | byteArrays (vs : List (Option Bytes))
  | enums (vs : List (BitVec 32))
  | messages (vs : List (Value M))
  | map (entries : List (Scalar × Value M))

def SingleType.default {M : Type} : SingleType M → Value M
  | .scalar t => .scalar t.default
  | .enum => .enum 0
  | .message m => .unset m

/-- mirrors src/generator/templates.cpp (PropertyDefaultInitializerTemplate,
MessagePropertyDefaultInitializerTemplate) -/
def FieldType.default {M : Type} : FieldType M → Value M
  | .single t => t.default
  | .nums t => .nums t []
  | .strings => .strings []
  | .byteArrays => .byteArrays []
  | .enums => .enums []
  | .messages _ => .messages []
  | .map _ _ => .map []

/-- The properties of `new T`. -/
def newObject {M : Type} (S : Schema M) (m : M) : List (Value M) := (S m).properties.map FieldType.default

/-! ## What the library leaves to Qt -/

/-- `QVariant::isNull` is false unless the value is a null string (Qt 5), or
always (Qt 6); a `QString` holds UTF-16 code units; an empty string has no bytes. -/
structure QtCore where
  isNull : Scalar → Bool
  toUtf8 : List UInt16 → Bytes
  fromUtf8 : Bytes → List UInt16
  isNull_text : ∀ v, isNull v = true → v = .string none ∨ v = .bytes none
  toUtf8_nil : toUtf8 [] = []
  fromUtf8_nil : fromUtf8 [] = []

/-- Qt 6 on strings of ASCII characters. -/
def QtCore.ascii : QtCore where
  isNull _ := false
  toUtf8 s := s.map fun c => UInt8.ofNat c.toNat
  fromUtf8 bytes := bytes.map fun c => UInt16.ofNat c.toNat
  isNull_text _ h := by cases h
  toUtf8_nil := rfl
  fromUtf8_nil := rfl

/-- A string that the conversion to UTF-8 and back keeps. -/
def QtCore.Survives (qt : QtCore) (s : Option (List UInt16)) : Prop :=
  qt.fromUtf8 (qt.toUtf8 (s.getD [])) = s.getD []

/-! ## Setters -/

/-- `==` of two bit patterns: by value for a floating-point type. -/
def NumType.same (t : NumType) (v w : Nat) : Bool :=
  match t.infinity with
  | none => v == w
  | some inf =>
    let magnitude (v : Nat) := v % 2 ^ (t.width - 1)
    magnitude v ≤ inf && magnitude w ≤ inf && (v == w || magnitude v == 0 && magnitude w == 0)

def NumType.negativeZero (t : NumType) (v : BitVec t.width) : Prop :=
  t.infinity.isSome ∧ v.toNat = 2 ^ (t.width - 1)

instance (t : NumType) (v : BitVec t.width) : Decidable (t.negativeZero v) :=
  inferInstanceAs (Decidable (_ ∧ _))

def Scalar.same : Scalar → Scalar → Bool
  | .num t v, .num t' w => t == t' && t.same v.toNat w.toNat
  | v, w => v.text == w.text

def sameList {α : Type} (same : α → α → Bool) (vs ws : List α) : Bool :=
  vs.length == ws.length && (vs.zip ws).all fun p => same p.1 p.2

/-- `==` of the type of the property; pointers to different objects differ. -/
def Value.same {M : Type} : Value M → Value M → Bool
  | .scalar v, .scalar w => v.same w
  | .enum v, .enum w => v == w
  | .nums t vs, .nums t' ws => t == t' && sameList t.same (vs.map BitVec.toNat) (ws.map BitVec.toNat)
  | .strings vs, .strings ws => sameList (fun s s' => s.getD [] == s'.getD []) vs ws
  | .byteArrays vs, .byteArrays ws => sameList (fun s s' => s.getD [] == s'.getD []) vs ws
  | .enums vs, .enums ws => vs == ws
  | .map es, .map es' => sameList (fun e e' => e.1.same e'.1 &&
      match e.2, e'.2 with
      | .scalar v, .scalar w => v.same w
      | .enum v, .enum w => v == w
      | _, _ => false) es es'
  | _, _ => false

/-- mirrors src/generator/templates.cpp (SetterTemplate,
SetterTemplateDefinitionComplexType, SetterPrivateTemplateDefinitionMessageType):
`if (m != value) m = value`. -/
def Value.write {M : Type} (old new : Value M) : Value M := if old.same new then old else new

/-! ## Maps -/

/-- `out[key] = value` in a `QMap`: ordered by key, and a key that is there stays. -/
def insertPair {M : Type} (k : Scalar) (v : Value M) : List (Scalar × Value M) → List (Scalar × Value M)
  | [] => [(k, v)]
  | (k', v') :: es =>
    if k.key < k'.key then (k, v) :: (k', v') :: es
    else if k'.key < k.key then (k', v') :: insertPair k v es
    else (k', v) :: es

theorem insertPair_last {M : Type} {k : Scalar} {v : Value M} {es : List (Scalar × Value M)}
    (h : ∀ e ∈ es, e.1.key < k.key) : insertPair k v es = es ++ [(k, v)] := by
  induction es with
  | nil => rfl
  | cons e es ih =>
    have he := h e List.mem_cons_self
    rw [insertPair, if_neg (List.lt_asymm he), if_pos he,
      ih fun e' he' => h e' (List.mem_cons_of_mem e he')]
    rfl

/-! ## Equality -/

variable {M : Type}

/-- mirrors src/generator/templates.cpp (EqualOperator…Template),
src/protobuf/qprotobuflazymessagepointer.h:62-76 and
src/protobuf/qtprotobuftypes.h:278-315 -/
inductive Equal (S : Schema M) : Value M → Value M → Prop
  | scalar {v w : Scalar} (h : v.text = w.text) : Equal S (.scalar v) (.scalar w)
  | enum (v : BitVec 32) : Equal S (.enum v) (.enum v)
  | unset (m : M) : Equal S (.unset m) (.unset m)
  | unset_object {m : M} {fs : List (Value M)} (h : Equal S (.object m (newObject S m)) (.object m fs)) :
    Equal S (.unset m) (.object m fs)
  | object_unset {m : M} {fs : List (Value M)} (h : Equal S (.object m fs) (.object m (newObject S m))) :
    Equal S (.object m fs) (.unset m)
  | object (m : M) {fs gs : List (Value M)} (hl : fs.length = gs.length)
    (h : ∀ (i : Nat) v w, fs[i]? = some v → gs[i]? = some w → Equal S v w) :
    Equal S (.object m fs) (.object m gs)
  | nums (t : NumType) (vs : List (BitVec t.width)) : Equal S (.nums t vs) (.nums t vs)
  | strings {vs ws : List (Option (List UInt16))} (h : vs.map (·.getD []) = ws.map (·.getD [])) :
    Equal S (.strings vs) (.strings ws)
  | byteArrays {vs ws : List (Option Bytes)} (h : vs.map (·.getD []) = ws.map (·.getD [])) :
    Equal S (.byteArrays vs) (.byteArrays ws)
  | enums (vs : List (BitVec 32)) : Equal S (.enums vs) (.enums vs)
  | messages {vs ws : List (Value M)} (hl : vs.length = ws.length)
    (h : ∀ p ∈ vs.zip ws, Equal S p.1 p.2) : Equal S (.messages vs) (.messages ws)
  | map {es es' : List (Scalar × Value M)} (hl : es.length = es'.length)
    (hk : ∀ p ∈ es.zip es', p.1.1.text = p.2.1.text)
    (hv : ∀ p ∈ es.zip es', Equal S p.1.2 p.2.2) : Equal S (.map es) (.map es')

/-- Not a negative zero; a string survives the conversions. -/
def Scalar.Kept (qt : QtCore) : Scalar → Prop
  | .num t v => ¬ t.negativeZero v
  | .string s => qt.Survives s
  | _ => True

/-- `v` is a value of a property of the type: no null pointers in lists and
maps, no negative zero, strings that survive; a map is ordered by key. -/
inductive Typed (S : Schema M) (qt : QtCore) : FieldType M → Value M → Prop
  | scalar {v : Scalar} (h : v.Kept qt) : Typed S qt (.single (.scalar v.type)) (.scalar v)
  | enum (v : BitVec 32) : Typed S qt (.single .enum) (.enum v)
  | unset (m : M) : Typed S qt (.single (.message m)) (.unset m)
  | object (m : M) {fs : List (Value M)} (hl : fs.length = (S m).properties.length)
    (h : ∀ (i : Nat) t v, (S m).properties[i]? = some t → fs[i]? = some v → Typed S qt t v) :
    Typed S qt (.single (.message m)) (.object m fs)
  | nums (t : NumType) (vs : List (BitVec t.width)) : Typed S qt (.nums t) (.nums t vs)
  | strings {vs : List (Option (List UInt16))} (h : ∀ s ∈ vs, qt.Survives s) :
    Typed S qt .strings (.strings vs)
  | byteArrays (vs : List (Option Bytes)) : Typed S qt .byteArrays (.byteArrays vs)
  | enums (vs : List (BitVec 32)) : Typed S qt .enums (.enums vs)
  | messages {m : M} {vs : List (Value M)} (hset : ∀ v ∈ vs, ∃ fs, v = .object m fs)
    (h : ∀ v ∈ vs, Typed S qt (.single (.message m)) v) : Typed S qt (.messages m) (.messages vs)
  | map {kt : ScalarType} {vt : SingleType M} {es : List (Scalar × Value M)}
    (hk : ∀ e ∈ es, e.1.type = kt ∧ e.1.Kept qt) (hv : ∀ e ∈ es, Typed S qt (.single vt) e.2)
    (hset : ∀ e ∈ es, ∀ m, e.2 ≠ .unset m)
    (hsorted : es.Pairwise fun e e' => e.1.key < e'.1.key) : Typed S qt (.map kt vt) (.map es)

/-- `m'` is the type of a singular message property of `m`. -/
def Contains (S : Schema M) (m' m : M) : Prop := .single (.message m') ∈ (S m).properties

/-- No cycle of message types through singular message fields. -/
def Acyclic (S : Schema M) : Prop := ∀ m, ¬ Relation.TransGen (Contains S) m m

end QtProtobuf.Codec
