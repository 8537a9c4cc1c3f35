import QtProtobuf.Core.Bytes
import QtProtobuf.Core.Json

/-!
# microjson

The parser that `protobuf/qprotobufjsonserializer.cpp` uses is not part of the
repository. `MicroJson` has its functions, `MicroJson.Parses` says what they do
on a JSON text: every value comes out as its raw text, that of a string without
the quotes. What they do on any other text is open.
-/
namespace QtProtobuf.Json

open Lib.Json

/-- The types of `microjson::JsonType` that the serializer knows. -/
inductive JsonType where
  | number | bool | string | array | object
  deriving DecidableEq, Repr

/-- `property.type` and `property.value`, or the bytes from `property.valueBegin` on. -/
structure JsonProperty where
  type : JsonType
  value : Bytes
  deriving DecidableEq

/-- `extractValue` and `extractProperty` get the buffer from the position `i` on,
and the closing bracket; they return the new `i` too, `none` for `false`. -/
structure MicroJson where
  parseJsonObject : Bytes → List (Bytes × JsonProperty)
  parseJsonArray : Bytes → List JsonProperty
  extractValue : Bytes → UInt8 → Option (JsonProperty × Nat)
  extractProperty : Bytes → UInt8 → Option ((Bytes × JsonProperty) × Nat)

/-! ## What is reported -/

/-- `null` is an object, as `deserializeObject` has it. -/
def jsonType : Kind → JsonType
  | .null | .object => .object
  | .bool => .bool
  | .number => .number
  | .string => .string
  | .array => .array

def reportValue (i : RawValue) : JsonProperty := ⟨jsonType i.kind, i.raw⟩

def reportElement (e : Element) : JsonProperty := reportValue e.item

def reportMember (m : Member) : Bytes × JsonProperty := (m.name, reportElement m.value)

/-! ## What is assumed -/

/-- A position in an array or an object, up to its end: between two of the
`texts`, before or after a comma, or behind all. -/
def Rest (close : UInt8) (texts : List Text) (b : Bytes) : Prop :=
  texts = [] ∧ b = [] ∨
    ∃ between, (∀ c ∈ between, isSpace c = true ∨ c = comma) ∧ b = between ++ (commas texts ++ [close])

/-- `extract` reads the parts of an array or an object one after the other;
`At parts b`: it can go on at `b`, and `parts` are still to come. -/
structure Extracts {α β : Type} (valid : α → Prop) (text : α → Text) (report : α → β) (close : UInt8)
    (extract : Bytes → Option (β × Nat)) (At : List α → Bytes → Prop) : Prop where
  start : ∀ (spaces : Text) (parts : List α), Spaces spaces → (∀ a ∈ parts, valid a) →
    At parts (spaces ++ (commas (parts.map text) ++ [close]))
  rest : ∀ (parts : List α) (b : Bytes), At parts b → Rest close (parts.map text) b
  next : ∀ (a : α) (parts : List α) (b : Bytes), At (a :: parts) b →
    ∃ i, i ≤ b.length ∧ extract b = some (report a, i) ∧ At parts (b.drop i)
  done : ∀ b : Bytes, At [] b → b ≠ [] → extract b = none

/-- microjson parses every JSON text. The members of an object come in any order. -/
structure MicroJson.Parses (mj : MicroJson) : Prop where
  object : ∀ (text : Bytes) (ms : List Member), IsObject text ms → (ms.map Member.name).Nodup →
    (mj.parseJsonObject text).Perm (ms.map reportMember)
  array : ∀ (text : Bytes) (es : List Element), IsArray text es →
    mj.parseJsonArray text = es.map reportElement
  elements : ∃ At, Extracts Element.Valid Element.text reportElement closeBracket
    (fun b => mj.extractValue b closeBracket) At
  members : ∃ At, Extracts Member.Valid Member.text reportMember closeBrace
    (fun b => mj.extractProperty b closeBrace) At

end QtProtobuf.Json
