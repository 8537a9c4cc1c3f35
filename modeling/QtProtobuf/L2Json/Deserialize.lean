import QtProtobuf.L2Codec.Deserialize
import QtProtobuf.L2Json.Serialize

/-!
# `QProtobufJsonSerializer::deserializeMessage` (`protobuf/qprotobufjsonserializer.cpp`)

A `QVariant` is an `Option`, `none` if it is invalid; it comes with the flag `ok`
of the handlers. The recursion through nested messages is by a number of levels;
`none` of a level: not enough of them, a loop that does not end, or an exception.

* `deserializeProperty_other`: a member changes the field it names only.
* `deserializeMessage_member`: what a message has read for one field.
-/
namespace QtProtobuf.Json

open Lib.Json Codec

/-! ## Numbers -/

def isAsciiSpace (c : UInt8) : Bool := c == 0x20 || (0x09 ≤ c && c ≤ 0x0d)

/-- Whether there is a minus, and what follows the sign. -/
def splitSign : Bytes → Bool × Bytes
  | [] => (false, [])
  | c :: digits =>
    if c = minus then (true, digits)
    else if c = 0x2b then (false, digits)
    else (false, c :: digits)

def signedValue (negative : Bool) (n : Nat) : Int := if negative then -n else n

/-- The integers of a type. -/
def InRange (signed : Bool) (width : Nat) (n : Int) : Prop :=
  if signed then -2 ^ (width - 1) ≤ n ∧ n < 2 ^ (width - 1) else 0 ≤ n ∧ n < 2 ^ width

instance (signed : Bool) (width : Nat) (n : Int) : Decidable (InRange signed width n) :=
  inferInstanceAs (Decidable (if signed then _ else _))

/-- `toInt`, `toUInt`, `toLongLong` and `toULongLong` of a `QByteArray`: the whole
of it is a decimal integer of the type, or the result is 0 and not `ok`. -/
def toIntegral (signed : Bool) (width : Nat) (data : Bytes) : Int × Bool :=
  let text := ((data.dropWhile isAsciiSpace).reverse.dropWhile isAsciiSpace).reverse
  let (negative, digits) := splitSign text
  let n := signedValue negative (ofDecimal digits)
  if digits ≠ [] ∧ digits.all isDigit ∧ (signed ∨ !negative) ∧ InRange signed width n then
    (n, true)
  else (0, false)

/-- The `ok` of the conversion is or-ed with the type of the token. -/
def deserializeIntegral (signed : Bool) (width : Nat) (data : Bytes) (type : JsonType) : Int × Bool :=
  let val := toIntegral signed width data
  (val.1, val.2 || type == .number)

/-- mirrors src/protobuf/qprotobufjsonserializer.cpp:199-203 -/
def deserializeInt32 : Bytes → JsonType → Int × Bool := deserializeIntegral true 32

/-- mirrors src/protobuf/qprotobufjsonserializer.cpp:205-209 -/
def deserializeUInt32 : Bytes → JsonType → Int × Bool := deserializeIntegral false 32

/-- mirrors src/protobuf/qprotobufjsonserializer.cpp:211-215 -/
def deserializeInt64 : Bytes → JsonType → Int × Bool := deserializeIntegral true 64

/-- mirrors src/protobuf/qprotobufjsonserializer.cpp:217-221 -/
def deserializeUInt64 : Bytes → JsonType → Int × Bool := deserializeIntegral false 64

/-- `"NaN"`, `"Infinity"` and `"-Infinity"` -/
def specialNumbers : List Bytes :=
  [[0x4e, 0x61, 0x4e], [0x49, 0x6e, 0x66, 0x69, 0x6e, 0x69, 0x74, 0x79],
    [0x2d, 0x49, 0x6e, 0x66, 0x69, 0x6e, 0x69, 0x74, 0x79]]

section
variable (qt : QtJson)

/-- mirrors src/protobuf/qprotobufjsonserializer.cpp:223-231 -/
def deserializeFloat (data : Bytes) (type : JsonType) : Option (BitVec 32) × Bool :=
  if data ∈ specialNumbers then (none, true)
  else
    let val := qt.toFloat data
    (some val.1, val.2 || type == .number)

/-- mirrors src/protobuf/qprotobufjsonserializer.cpp:233-241 -/
def deserializeDouble (data : Bytes) (type : JsonType) : Option (BitVec 64) × Bool :=
  if data ∈ specialNumbers then (none, true)
  else
    let val := qt.toDouble data
    (some val.1, val.2 || type == .number)

/-- An integer as the type of the handler has it. -/
def stored (w : Nat) (val : Int × Bool) : Option (BitVec w) × Bool :=
  (some (BitVec.ofInt w val.1), val.2)

/-- mirrors src/protobuf/qprotobufjsonserializer.cpp:126-137 -/
def deserializeNum : (t : NumType) → Bytes → JsonType → Option (BitVec t.width) × Bool
  | .int32, data, type | .sfixed32, data, type | .sint32, data, type =>
    stored 32 (deserializeInt32 data type)
  | .sint64, data, type | .int64, data, type | .sfixed64, data, type =>
    stored 64 (deserializeInt64 data type)
  | .uint32, data, type | .fixed32, data, type => stored 32 (deserializeUInt32 data type)
  | .uint64, data, type | .fixed64, data, type => stored 64 (deserializeUInt64 data type)
  | .float, data, type => deserializeFloat qt data type
  | .double, data, type => deserializeDouble qt data type

/-! ## Scalars -/

/-- mirrors src/protobuf/qprotobufjsonserializer.cpp:243-251 -/
def deserializeBool (data : Bytes) (type : JsonType) : Option Bool × Bool :=
  if type = .bool then (some (data == (RawValue.bool true).raw), true) else (none, false)

/-- `replace("\\\"", "\"")` -/
def replaceQuotes : List UInt16 → List UInt16
  | [] => []
  | [c] => [c]
  | c :: d :: s =>
    if c = 0x5c ∧ d = 0x22 then 0x22 :: replaceQuotes s else c :: replaceQuotes (d :: s)

/-- mirrors src/protobuf/qprotobufjsonserializer.cpp:253-261 -/
def deserializeString (data : Bytes) (type : JsonType) : Option (List UInt16) × Bool :=
  if type = .string then (some (replaceQuotes (qt.fromUtf8 data)), true) else (none, false)

/-- mirrors src/protobuf/qprotobufjsonserializer.cpp:263-271 -/
def deserializeByteArray (data : Bytes) (type : JsonType) : Option Bytes × Bool :=
  if type = .string then (some (Lib.Base64.decode data), true) else (none, false)

/-- The handlers of the types that are neither registered nor lists. -/
def deserializeScalar : ScalarType → Bytes → JsonType → Option Scalar × Bool
  | .num t, data, type => Prod.map (Option.map (.num t)) id (deserializeNum qt t data type)
  | .bool, data, type => Prod.map (Option.map .bool) id (deserializeBool data type)
  | .string, data, type =>
    Prod.map (Option.map fun s => .string (some s)) id (deserializeString qt data type)
  | .bytes, data, type =>
    Prod.map (Option.map fun s => .bytes (some s)) id (deserializeByteArray data type)

end

/-! ## Lists of scalars -/

section
variable {M : Type} (mj : MicroJson) (qt : QtJson)

/-- The elements; what an invalid value is converted to is left to `element`. -/
def deserializeElements {α : Type} (element : Bytes → JsonType → α) (data : Bytes)
    (type : JsonType) : Option (List α) × Bool :=
  if type ≠ .array then (none, false)
  else (some ((mj.parseJsonArray data).map fun arrayValue =>
    element arrayValue.value arrayValue.type), true)

/-- mirrors src/protobuf/qprotobufjsonserializer.cpp:273-295 -/
def deserializeNumList (t : NumType) (data : Bytes) (type : JsonType) :
    Option (Value M) × Bool :=
  Prod.map (Option.map (.nums t)) id <|
    deserializeElements mj (fun data type => (deserializeNum qt t data type).1.getD 0) data type

/-- mirrors src/protobuf/qprotobufjsonserializer.cpp:297-312 -/
def deserializeStringList (data : Bytes) (type : JsonType) : Option (Value M) × Bool :=
  Prod.map (Option.map .strings) id <|
    deserializeElements mj (fun data type => (deserializeString qt data type).1) data type

/-- mirrors src/protobuf/qprotobufjsonserializer.cpp:273-295 -/
def deserializeBytesList (data : Bytes) (type : JsonType) : Option (Value M) × Bool :=
  Prod.map (Option.map .byteArrays) id <|
    deserializeElements mj (fun data type => (deserializeByteArray data type).1) data type

/-! ## Registered types -/

/-- `while (it != last)`: a round gets the value so far and the bytes from `it` on. -/
def handlerLoop (round : Option (Value M) → Bytes → Option (Option (Value M) × Bytes)) :
    Nat → Option (Value M) → Bool → Bytes → Option (Option (Value M) × Bool)
  | 0, _, _, _ => none
  | n + 1, newValue, ok, it =>
    if it = [] then some (newValue, ok)
    else
      match round newValue it with
      | some (newValue, it) => handlerLoop round n newValue true it
      | none => none

/-- The rounds of a loop over `data`: every round but the last takes something. -/
def runHandler (round : Option (Value M) → Bytes → Option (Option (Value M) × Bytes)) (ok : Bool)
    (data : Bytes) : Option (Option (Value M) × Bool) :=
  handlerLoop round (data.length + 1) none ok data

variable (rec : M → Bytes → Option (List (Value M))) (e : MetaEnum)

/-- mirrors src/protobuf/qabstractprotobufserializer_p.h:246-252 -/
def enumRound (_to : Option (Value M)) (it : Bytes) : Option (Option (Value M) × Bytes) :=
  some (some (.enum ((deserializeEnum e it).setWidth 32)), [])

/-- mirrors src/protobuf/qabstractprotobufserializer_p.h:260-270 -/
def enumListRound (previous : Option (Value M)) (it : Bytes) : Option (Option (Value M) × Bytes) :=
  let enumList := (previous.map Value.toEnums).getD []
  some (some (.enums (enumList ++ (deserializeEnumList mj e it).map (·.setWidth 32))), [])

/-- mirrors src/protobuf/qabstractprotobufserializer_p.h:174-181 and
src/protobuf/qprotobufjsonserializer.cpp:392-396 -/
def objectRound (m : M) (_to : Option (Value M)) (it : Bytes) : Option (Option (Value M) × Bytes) := do
  let fields ← rec m it
  pure (some (.object m fields), [])

/-- `if (*it == bracket) ++it;` -/
def skipBracket (bracket : UInt8) (it : Bytes) : Bytes :=
  if it.head? = some bracket then it.tail else it

/-- `it += i` -/
def advance (it : Bytes) (i : Nat) : Option Bytes := if i ≤ it.length then some (it.drop i) else none

/-- mirrors src/protobuf/qabstractprotobufserializer_p.h:187-201 and
src/protobuf/qprotobufjsonserializer.cpp:416-433 -/
def listRound (m : M) (previous : Option (Value M)) (it : Bytes) :
    Option (Option (Value M) × Bytes) :=
  let list := (previous.map Value.toMessages).getD []
  let it := skipBracket openBracket it
  match mj.extractValue it closeBracket with
  | none => some (previous, [])
  | some (property, i) => do
    let fields ← rec m property.value
    let it ← advance it i
    pure (some (.messages (list ++ [.object m fields])), it)

/-- mirrors src/protobuf/qprotobufjsonserializer.cpp:314-334 for a type that is
neither a list nor a map; `ok` is what it is before. -/
def deserializeSingle (t : SingleType M) (data : Bytes) (jsonType : JsonType) (ok : Bool) :
    Option (Option (Value M) × Bool) :=
  match t with
  | .scalar t => some (Prod.map (Option.map .scalar) id (deserializeScalar qt t data jsonType))
  | .enum => runHandler (enumRound e) ok data
  | .message m => runHandler (objectRound rec m) ok data

/-- A pair of a map; the key comes from between the quotes, with the type of a
string. mirrors src/protobuf/qprotobufjsonserializer.cpp:452-477 -/
def deserializeMapPair (kt : ScalarType) (vt : SingleType M) (property : Bytes × JsonProperty) :
    Option (Scalar × Value M) := do
  let key := deserializeScalar qt kt property.1 .string
  let value ← deserializeSingle qt rec e vt property.2.value property.2.type key.2
  pure ((if key.2 then key.1 else none).getD kt.default,
    (if value.2 then value.1 else none).getD vt.default)

/-- mirrors src/protobuf/qabstractprotobufserializer_p.h:208-240 -/
def mapRound (kt : ScalarType) (vt : SingleType M) (previous : Option (Value M)) (it : Bytes) :
    Option (Option (Value M) × Bytes) :=
  let out := (previous.map Value.toMap).getD []
  let it := skipBracket openBrace it
  match mj.extractProperty it closeBrace with
  | none => some (previous, [])
  | some (property, i) => do
    let pair ← deserializeMapPair qt rec e kt vt property
    let it ← advance it i
    pure (some (.map (insertPair pair.1 pair.2 out)), it)

/-- mirrors src/protobuf/qprotobufjsonserializer.cpp:314-334; `ok` is false before. -/
def deserializeValue (type : FieldType M) (data : Bytes) (jsonType : JsonType) :
    Option (Option (Value M) × Bool) :=
  match type with
  | .single t => deserializeSingle qt rec e t data jsonType false
  | .nums t => some (deserializeNumList mj qt t data jsonType)
  | .strings => some (deserializeStringList mj qt data jsonType)
  | .byteArrays => some (deserializeBytesList mj data jsonType)
  | .enums => runHandler (enumListRound mj e) false data
  | .messages m => runHandler (listRound mj rec m) false data
  | .map kt vt => runHandler (mapRound mj qt rec e kt vt) false data

end

/-! ## Messages -/

section
variable {M : Type} (S : JsonSchema M) (mj : MicroJson) (qt : QtJson)

/-- The property index that is found for a name. -/
def findProperty (m : M) (name : Bytes) : Option Nat :=
  ((S.types m).propertyOrdering.find? fun p => S.jsonName m p.2 == qt.fromUtf8 name).map Prod.snd

/-- `metaProperty.write` -/
def writeVariant (type : FieldType M) (old : Value M) : Option (Value M) → Value M
  | some value => old.write value
  | none => if qt.resets then old.write type.default else old

/-- What is written for a member of the object; `none` inside: nothing. -/
def deserializeMember (rec : M → Bytes → Option (List (Value M))) (e : MetaEnum) (type : FieldType M)
    (old : Value M) (property : JsonProperty) : Option (Value M) :=
  if property.value = nullText ∧ property.type = .object then some (writeVariant qt type old none)
  else do
    let value ← deserializeValue mj qt rec e type property.value property.type
    pure (if value.2 then writeVariant qt type old value.1 else old)

/-- mirrors src/protobuf/qprotobufjsonserializer.cpp:336-360 (a round of the loop) -/
def deserializeProperty (rec : M → Bytes → Option (List (Value M))) (m : M) (object : List (Value M))
    (property : Bytes × JsonProperty) : Option (List (Value M)) :=
  match findProperty S qt m property.1 with
  | none => some object
  | some i => do
    let type ← (S.types m).properties[i]?
    let old ← object[i]?
    let value ← deserializeMember mj qt rec (S.metaEnum m i) type old property.2
    pure (object.set i value)

/-- mirrors src/protobuf/qprotobufjsonserializer.cpp:336-360 -/
def deserializeMessage : Nat → M → List (Value M) → Bytes → Option (List (Value M))
  | 0, _, _, _ => none
  | n + 1, m, object, data =>
    (mj.parseJsonObject data).foldlM
      (deserializeProperty S mj qt (fun m' it => deserializeMessage n m' (newObject S.types m') it) m)
      object

end

/-! ## One field -/

section
variable {M : Type} {S : JsonSchema M} {mj : MicroJson} {qt : QtJson}
  {rec : M → Bytes → Option (List (Value M))} {m : M} {i : Nat}

theorem deserializeProperty_other {object object' : List (Value M)} {property : Bytes × JsonProperty}
    (h : deserializeProperty S mj qt rec m object property = some object')
    (hi : findProperty S qt m property.1 ≠ some i) : object'[i]? = object[i]? := by
  unfold deserializeProperty at h
  split at h
  · rw [Option.some.inj h]
  · next j hj =>
    have hne : j ≠ i := fun he => hi (he ▸ hj)
    simp only [Option.bind_eq_bind, Option.bind_eq_some_iff, Option.pure_def,
      Option.some.injEq] at h
    obtain ⟨type, -, old, -, value, -, rfl⟩ := h
    exact List.getElem?_set_ne hne

theorem foldlM_other {properties : List (Bytes × JsonProperty)} {object object' : List (Value M)}
    (h : properties.foldlM (deserializeProperty S mj qt rec m) object = some object')
    (hi : ∀ p ∈ properties, findProperty S qt m p.1 ≠ some i) : object'[i]? = object[i]? := by
  induction properties generalizing object with
  | nil =>
    rw [List.foldlM_nil] at h
    rw [Option.some.inj h]
  | cons p properties ih =>
    rw [List.foldlM_cons, Option.bind_eq_bind, Option.bind_eq_some_iff] at h
    obtain ⟨between, hp, hrest⟩ := h
    rw [ih hrest fun q hq => hi q (List.mem_cons_of_mem p hq),
      deserializeProperty_other hp (hi p List.mem_cons_self)]

/-- Where one member names a field, the field has what is written for it. -/
theorem foldlM_member {properties : List (Bytes × JsonProperty)} {object object' : List (Value M)}
    (h : properties.foldlM (deserializeProperty S mj qt rec m) object = some object')
    (hnodup : (properties.map Prod.fst).Nodup) {property : Bytes × JsonProperty}
    (hmem : property ∈ properties) (hi : findProperty S qt m property.1 = some i)
    (hother : ∀ p ∈ properties, findProperty S qt m p.1 = some i → p.1 = property.1)
    {type : FieldType M} (ht : (S.types m).properties[i]? = some type) {old : Value M}
    (ho : object[i]? = some old) : ∃ value,
      deserializeMember mj qt rec (S.metaEnum m i) type old property.2 = some value ∧
        object'[i]? = some value := by
  obtain ⟨before, after, rfl⟩ := List.append_of_mem hmem
  rw [List.map_append, List.map_cons, List.nodup_append, List.nodup_cons] at hnodup
  obtain ⟨-, ⟨hafter, -⟩, hbefore⟩ := hnodup
  have hother' : ∀ p ∈ before ++ after, findProperty S qt m p.1 ≠ some i := by
    intro p hp hpi
    rcases List.mem_append.mp hp with hp | hp
    · exact hbefore p.1 (List.mem_map_of_mem hp) property.1 List.mem_cons_self
        (hother p (by simp [hp]) hpi)
    · exact hafter (hother p (by simp [hp]) hpi ▸ List.mem_map_of_mem hp)
  rw [List.foldlM_append, Option.bind_eq_bind, Option.bind_eq_some_iff] at h
  obtain ⟨first, hfirst, h⟩ := h
  rw [List.foldlM_cons, Option.bind_eq_bind, Option.bind_eq_some_iff] at h
  obtain ⟨second, hsecond, hrest⟩ := h
  have hold : first[i]? = some old :=
    (foldlM_other hfirst fun p hp => hother' p (by simp [hp])).trans ho
  have hlast := foldlM_other hrest fun p hp => hother' p (by simp [hp])
  simp only [deserializeProperty, hi, ht, hold, Option.bind_eq_bind, Option.bind_some,
    Option.bind_eq_some_iff, Option.pure_def, Option.some.injEq] at hsecond
  obtain ⟨value, hvalue, rfl⟩ := hsecond
  refine ⟨value, hvalue, ?_⟩
  rw [hlast, List.getElem?_set_self]
  exact (List.getElem?_eq_some_iff.mp hold).1

/-- The same for a JSON object that is read. -/
theorem deserializeMessage_member (hp : mj.Parses) {text : Bytes} {ms : List Member}
    (hobject : IsObject text ms) (hnodup : (ms.map Member.name).Nodup) {n : Nat}
    {object object' : List (Value M)}
    (h : deserializeMessage S mj qt (n + 1) m object text = some object') {member : Member}
    (hmem : member ∈ ms) (hi : findProperty S qt m member.name = some i)
    (hother : ∀ member' ∈ ms, findProperty S qt m member'.name = some i → member' = member)
    {type : FieldType M} (ht : (S.types m).properties[i]? = some type) {old : Value M}
    (ho : object[i]? = some old) : ∃ value,
      deserializeMember mj qt
        (fun m' it => deserializeMessage S mj qt n m' (newObject S.types m') it)
        (S.metaEnum m i) type old (reportElement member.value) = some value ∧
        object'[i]? = some value := by
  have hperm := hp.object text ms hobject hnodup
  rw [deserializeMessage] at h
  have hnames : ((mj.parseJsonObject text).map Prod.fst).Nodup := by
    have := hperm.map Prod.fst
    rw [this.nodup_iff, List.map_map]
    exact hnodup
  have hreport : reportMember member ∈ mj.parseJsonObject text :=
    hperm.mem_iff.mpr (List.mem_map_of_mem hmem)
  refine foldlM_member h hnames hreport hi (fun p hpmem hpi => ?_) ht ho
  obtain ⟨member', hmem', rfl⟩ := List.mem_map.mp (hperm.mem_iff.mp hpmem)
  rw [hother member' hmem' hpi]

end

end QtProtobuf.Json
