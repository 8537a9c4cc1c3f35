import QtProtobuf.L2Codec.Schema

/-!
# `QProtobufSerializer::deserializeMessage` (`protobuf/qprotobufserializer.cpp`)

A decoder of a message type works on a buffer of its own: the payload of a
nested message is copied first. The rounds of a loop, and the levels of nesting,
are limited by a number; the limit shows as `Stop.spent`.

`deserializeMessage` returns the events, what the object holds then, and the
exception if there was one.
-/
namespace QtProtobuf.Codec

open Lib Wire

/-! ## Basic types -/

/-- The value that lies in memory as `bytes`. -/
def ofLittleEndian : Bytes → Nat
  | [] => 0
  | c :: bytes => c.toNat + 256 * ofLittleEndian bytes

/-- mirrors src/protobuf/qprotobufserializer_p.h:332 -/
def unZigZag {w : Nat} (unsignedValue : BitVec w) : BitVec w :=
  (unsignedValue >>> 1) ^^^ (-1 * (unsignedValue &&& 1))

/-- mirrors src/protobuf/qprotobufserializer_p.h:297-345 -/
def deserializeBasic (b : Buffer) (t : NumType) : Dec (BitVec t.width) :=
  match t.coding with
  | .fixed => do
    let bytes ← Dec.take b (t.width / 8)
    pure (BitVec.ofNat t.width (ofLittleEndian bytes))
  | .plain => deserializeVarintCommon b t.width
  | .zigZag => do
    let unsignedValue ← deserializeVarintCommon b t.width
    pure (unZigZag unsignedValue)

/-- mirrors src/protobuf/qprotobufserializer_p.h:380-387 -/
def deserializeLengthDelimited (b : Buffer) : Dec Bytes := do
  let length ← deserializeVarintCommon b 32
  Dec.takeLength b length

/-- mirrors src/protobuf/qprotobufserializer_p.h:348-358 and
src/protobuf/qprotobufserializer.cpp:185-199; a `bool` is read as an `uint32`. -/
def deserializeScalar (qt : QtCore) (b : Buffer) : ScalarType → Dec Scalar
  | .num t => do
    let v ← deserializeBasic b t
    pure (.num t v)
  | .bool => do
    let v ← deserializeBasic b .uint32
    pure (.bool (v != 0))
  | .string => do
    let value ← deserializeLengthDelimited b
    pure (.string (some (qt.fromUtf8 value)))
  | .bytes => do
    let value ← deserializeLengthDelimited b
    pure (.bytes (some value))

/-- mirrors src/protobuf/qprotobufserializer_p.h:361-375 -/
def deserializeList (b : Buffer) (t : NumType) : Dec (List (BitVec t.width)) := do
  let count ← deserializeVarintCommon b 32
  let lastVarint ← Dec.plusLength count
  let it ← .get
  Traced.whileM .spent (Iter.differs lastVarint.pos)
    (fun out => do
      let v ← deserializeBasic b t
      pure (out ++ [v]))
    ((b.size - it.pos).toNat + 1) []

/-- mirrors src/protobuf/qprotobufserializer.cpp:226-255 -/
def skipSerializedFieldBytes (b : Buffer) : WireTypes → Dec Unit
  | .varint => skipVarint b
  | .fixed32 => Dec.advance 4
  | .fixed64 => Dec.advance 8
  | .lengthDelimited => do
    let length ← deserializeVarintCommon b 32
    Dec.advanceLength length
  | _ => .fail .invalidArgument

/-! ## Values -/

/-- A step of a decoding loop. -/
def stepped {α : Type} (f : Dec α) : Dec α := do
  let it ← .get
  let a ← f
  let it' ← .get
  .emit (.step it.pos it'.pos)
  pure a

namespace Value

variable {M : Type}

/-- `previousValue.value<QStringList>()` -/
def toStrings : Value M → List (Option (List UInt16))
  | strings vs => vs
  | _ => []

def toByteArrays : Value M → List (Option Bytes)
  | byteArrays vs => vs
  | _ => []

def toEnums : Value M → List (BitVec 32)
  | enums vs => vs
  | _ => []

def toMessages : Value M → List (Value M)
  | messages vs => vs
  | _ => []

def toMap : Value M → List (Scalar × Value M)
  | map entries => entries
  | _ => []

end Value

section
variable {M : Type} (S : Schema M) (qt : QtCore)

/-- What a decoder of a nested message does with a new object. -/
abbrev Nested (M : Type) := M → Bytes → List Event × Except Stop (List (Value M))

variable (rec : Nested M) (n : Nat) (b : Buffer)

/-- mirrors src/protobuf/qprotobufserializer.cpp:113-117 and
src/protobuf/qabstractprotobufserializer_p.h:176-181 -/
def deserializeObject (m : M) : Dec (Value M) := do
  let array ← deserializeLengthDelimited b
  let fields ← Traced.lift (rec m array)
  pure (.object m fields)

/-- The deserializer of a type that is neither a list nor a map: mirrors
src/protobuf/qabstractprotobufserializer_p.h:174-181, 249-256 and
src/protobuf/qprotobufserializer.cpp:167-172 (deserializeEnum). -/
def deserializeSingle : SingleType M → Dec (Value M)
  | .scalar t => do
    let v ← deserializeScalar qt b t
    pure (.scalar v)
  | .enum => do
    let intValue ← deserializeBasic b .int64
    pure (.enum (intValue.setWidth 32))
  | .message m => deserializeObject rec b m

/-- One round of the loop of `deserializeMapPair`: the result of `decodeHeader`
is not looked at. -/
def deserializeMapPart (kt : ScalarType) (vt : SingleType M) (pair : Scalar × Value M) :
    Dec (Scalar × Value M) := stepped do
  let header ← decodeHeader b
  if header.2.1 = 1 then
    let key ← deserializeScalar qt b kt
    pure (key, pair.2)
  else
    let value ← deserializeSingle qt rec b vt
    pure (pair.1, value)

/-- mirrors src/protobuf/qprotobufserializer.cpp:327-353 -/
def deserializeMapPair (kt : ScalarType) (vt : SingleType M) : Dec (Scalar × Value M) := do
  let count ← deserializeVarintCommon b 32
  let last ← Dec.plusLength count
  Traced.whileM .spent (Iter.differs last.pos) (deserializeMapPart qt rec b kt vt) n
    (kt.default, vt.default)

/-- The deserializer of the type of a property: mirrors
src/protobuf/qprotobufserializer.cpp:53-73, 174-179,
src/protobuf/qprotobufserializer_p.h:361-375 and
src/protobuf/qabstractprotobufserializer_p.h:187-274. -/
def deserializeValue (previous : Value M) : FieldType M → Dec (Value M)
  | .single t => deserializeSingle qt rec b t
  | .nums t => do
    let out ← deserializeList b t
    pure (.nums t out)
  | .strings => do
    let value ← deserializeLengthDelimited b
    pure (.strings (previous.toStrings ++ [some (qt.fromUtf8 value)]))
  | .byteArrays => do
    let value ← deserializeLengthDelimited b
    pure (.byteArrays (previous.toByteArrays ++ [some value]))
  | .enums => do
    let intList ← deserializeList b .int64
    pure (.enums (previous.toEnums ++ intList.map (·.setWidth 32)))
  | .messages m => do
    let newValue ← deserializeObject rec b m
    pure (.messages (previous.toMessages ++ [newValue]))
  | .map kt vt => do
    let pair ← deserializeMapPair qt rec n b kt vt
    pure (.map (insertPair pair.1 pair.2 previous.toMap))

/-- What follows the header: a known property is read and written, anything
else is skipped. -/
def deserializeField (m : M) (object : List (Value M)) (fieldNumber : Nat) (wireType : WireTypes) :
    Dec (List (Value M)) :=
  match (S m).find fieldNumber with
  | none => do
    skipSerializedFieldBytes b wireType
    pure object
  | some (propertyIndex, type) => do
    let previous := object.getD propertyIndex type.default
    let newPropertyValue ← deserializeValue qt rec n b previous type
    pure (object.set propertyIndex (previous.write newPropertyValue))

/-- mirrors src/protobuf/qprotobufserializer.cpp:285-325 -/
def deserializeProperty (m : M) (object : List (Value M)) : Dec (List (Value M)) := stepped do
  let header ← decodeHeader b
  if header.1 then deserializeField S qt rec n b m object header.2.1 header.2.2
  else .fail .invalidArgument

/-- `for (QProtobufSelfcheckIterator it(data); it != data.end();)` -/
def messageLoop (property : List (Value M) → Dec (List (Value M))) :
    Nat → List (Value M) → Iter → List Event × List (Value M) × Option Stop
  | 0, object, _ => ([], object, some .spent)
  | n + 1, object, it =>
    if Iter.differs b.size it then
      match (property object).run it with
      | (events, .error e) => (events, object, some e)
      | (events, .ok (object', it')) =>
        (events ++ (messageLoop property n object' it').1, (messageLoop property n object' it').2)
    else ([], object, none)

/-- An exception in a nested message passes on; its object is lost. -/
def nestedResult (r : List Event × List (Value M) × Option Stop) :
    List Event × Except Stop (List (Value M)) :=
  match r.2.2 with
  | none => (r.1, .ok r.2.1)
  | some e => (r.1, .error e)

/-- mirrors src/protobuf/qprotobufserializer.cpp:99-104; `env` is the memory
around a byte array. -/
def deserializeMessage (env : Bytes → Int → UInt8) :
    Nat → M → List (Value M) → Bytes → List Event × List (Value M) × Option Stop
  | 0, _, object, _ => ([], object, some .spent)
  | n + 1, m, object, data =>
    let b : Buffer := ⟨data, env data⟩
    messageLoop b
      (deserializeProperty S qt
        (fun m' array => nestedResult (deserializeMessage env n m' (newObject S m') array)) n b m)
      (n + 1) object (.ofBuffer b)

/-- The decoder of nested messages at level `n`. -/
def nestedMessage (env : Bytes → Int → UInt8) (n : Nat) : Nested M :=
  fun m array => nestedResult (deserializeMessage S qt env n m (newObject S m) array)

end

theorem nestedResult_append {M : Type} (events : List Event)
    (r : List Event × List (Value M) × Option Stop) :
    nestedResult (events ++ r.1, r.2) = (events ++ (nestedResult r).1, (nestedResult r).2) := by
  obtain ⟨tr, object, e⟩ := r
  cases e <;> rfl

theorem nestedResult_events {M : Type} (r : List Event × List (Value M) × Option Stop) :
    (nestedResult r).1 = r.1 := by
  obtain ⟨tr, object, e⟩ := r
  cases e <;> rfl

/-- The loop is a `while` whose object is lost with an exception. -/
theorem messageLoop_while {M : Type} (b : Buffer) (property : List (Value M) → Dec (List (Value M)))
    (n : Nat) (object : List (Value M)) (it : Iter) :
    nestedResult (messageLoop b property n object it) =
      (let r := (Traced.whileM .spent (Iter.differs b.size) property n object).run it
       (r.1, r.2.map Prod.fst)) := by
  induction n generalizing object it with
  | zero => rfl
  | succ n ih =>
    cases hc : Iter.differs b.size it with
    | false =>
      rw [messageLoop, Traced.run_while_false hc, if_neg (by rw [hc]; exact Bool.false_ne_true)]
      rfl
    | true =>
      rw [messageLoop, Traced.run_while_true hc, if_pos hc]
      cases hp : (property object).run it with
      | mk events r =>
        cases r with
        | error e =>
          rw [Traced.run_bind_error hp]
          rfl
        | ok p =>
          rw [Traced.run_bind_ok hp]
          dsimp only
          rw [nestedResult_append, ih p.1 p.2]

end QtProtobuf.Codec
