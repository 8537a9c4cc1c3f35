import QtProtobuf.L2Codec.UnsetMessages
import QtProtobuf.L2Json.Enums
import QtProtobuf.Core.Base64
import QtProtobuf.Core.Decimal

/-!
# `QProtobufJsonSerializer::serializeMessage` (`protobuf/qprotobufjsonserializer.cpp`)

The types of the properties and their values are those of `L2Codec.Schema`; the
JSON names and the enum types come in here. The recursion through nested
messages is by a number of levels; `none`: not enough of them.

* `serializeMessage_members`, `serializeMessages_elements`, `serializeMap_members`:
  what a loop over fields, elements or pairs leaves, once the commas are gone.
-/
namespace QtProtobuf.Json

open Lib.Json Codec

/-! ## Types -/

/-- The message types, with the JSON names of their properties, and the enum type
of a property that has one, both by property index. -/
structure JsonSchema (M : Type) where
  types : Schema M
  jsonName : M → Nat → List UInt16
  metaEnum : M → Nat → MetaEnum
  distinct : ∀ m, ((List.range (types m).properties.length).map (jsonName m)).Nodup

/-- Below the bit pattern of infinity, whatever the sign. -/
def isFinite (t : NumType) (v : BitVec t.width) : Bool :=
  match t.infinity with
  | none => true
  | some inf => v.toNat % 2 ^ (t.width - 1) < inf

/-- `nan`, `inf` and `-inf` -/
def specialTexts : List Bytes := [[0x6e, 0x61, 0x6e], [0x69, 0x6e, 0x66], [0x2d, 0x69, 0x6e, 0x66]]

/-- `text` is how a number is written that has the given finiteness. -/
def FloatText (finite : Bool) (text : Bytes) : Prop :=
  if finite = true then Number text else text ∈ specialTexts

theorem floatText_zero (finite : Bool) :
    FloatText finite (if finite = true then [0x30] else [0x6e, 0x61, 0x6e]) := by
  cases finite with
  | true => exact number_decimal 0
  | false => simp [FloatText, specialTexts]

/-- What is left to Qt besides: the texts of floating-point numbers, JSON numbers
for all that are finite; `resets`: `QMetaProperty::write` sets a property to its
default if it is given an invalid `QVariant` (Qt 6), or does nothing (Qt 5). -/
structure QtJson extends QtCore where
  numberFloat : BitVec 32 → Bytes
  numberDouble : BitVec 64 → Bytes
  floatToString : BitVec 32 → Bytes
  doubleToString : BitVec 64 → Bytes
  toFloat : Bytes → BitVec 32 × Bool
  toDouble : Bytes → BitVec 64 × Bool
  resets : Bool
  toUtf8_quoted : ∀ s, toUtf8 (0x22 :: (s ++ [0x22])) = 0x22 :: (toUtf8 s ++ [0x22])
  numberFloat_text : ∀ v, FloatText (isFinite .float v) (numberFloat v)
  numberDouble_text : ∀ v, FloatText (isFinite .double v) (numberDouble v)
  doubleToString_text : ∀ v, FloatText (isFinite .double v) (doubleToString v)

/-- Qt 6 on strings of ASCII characters, and with one text for all finite numbers. -/
def QtJson.ascii : QtJson where
  toQtCore := .ascii
  numberFloat v := if isFinite .float v then [0x30] else [0x6e, 0x61, 0x6e]
  numberDouble v := if isFinite .double v then [0x30] else [0x6e, 0x61, 0x6e]
  floatToString _ := [0x30]
  doubleToString v := if isFinite .double v then [0x30] else [0x6e, 0x61, 0x6e]
  toFloat _ := (0, true)
  toDouble _ := (0, true)
  resets := true
  toUtf8_quoted s := by simp [QtCore.ascii]
  numberFloat_text _ := floatText_zero _
  numberDouble_text _ := floatText_zero _
  doubleToString_text _ := floatText_zero _

/-- One message type, with one field of number 1. -/
def JsonSchema.oneField (t : FieldType Unit) (name : List UInt16) (e : MetaEnum) : JsonSchema Unit where
  types := oneFieldSchema t
  jsonName _ _ := name
  metaEnum _ _ := e
  distinct _ := List.nodup_singleton name

/-! ## Scalars -/

def toInteger (t : NumType) (v : BitVec t.width) : Int := if t.signed then v.toInt else v.toNat

section
variable {M : Type} (S : JsonSchema M) (qt : QtJson)

/-- `QString::number(value)`, in `serializeList` and `serializeDoubleList` -/
def numberText : (t : NumType) → BitVec t.width → Bytes
  | .float, v => qt.numberFloat v
  | .double, v => qt.numberDouble v
  | t, v => decimalInt (toInteger t v)

/-- `propertyValue.toString().toUtf8()` -/
def variantText : Scalar → Bytes
  | .num .float v => qt.floatToString v
  | .num .double v => qt.doubleToString v
  | .num t v => decimalInt (toInteger t v)
  | .bool b => (RawValue.bool b).raw
  | .string s => qt.toUtf8 (s.getD [])
  | .bytes s => qt.toUtf8 (qt.fromUtf8 (s.getD []))

/-- mirrors src/protobuf/qprotobufjsonserializer.cpp:54-69, 159-175 (the types
without a registered serializer) -/
def serializeScalar : Scalar → Bytes
  | .num .float v => qt.numberFloat v
  | .string s => qt.toUtf8 (0x22 :: (s.getD [] ++ [0x22]))
  | .bytes s => quoted (Lib.Base64.encode (s.getD []))
  | v => variantText qt v

/-- An integer is written in decimal, wherever it stands. -/
theorem integerTexts {t : NumType} (h : t.infinity = none) (v : BitVec t.width) :
    numberText qt t v = decimalInt (toInteger t v) ∧
      variantText qt (.num t v) = decimalInt (toInteger t v) ∧
      serializeScalar qt (.num t v) = decimalInt (toInteger t v) := by
  cases t with
  | float | double => cases h
  | _ => exact ⟨rfl, rfl, rfl⟩

/-- mirrors src/protobuf/qprotobufjsonserializer.cpp:71-96 (serializeList,
serializeDoubleList) -/
def serializeNumList (t : NumType) (vs : List (BitVec t.width)) : Bytes :=
  bracketed (vs.map (numberText qt t))

/-- mirrors src/protobuf/qprotobufjsonserializer.cpp:98-109 -/
def serializeStringList (vs : List (Option (List UInt16))) : Bytes :=
  bracketed (vs.map fun s => quoted (qt.toUtf8 (s.getD [])))

/-- mirrors src/protobuf/qprotobufjsonserializer.cpp:111-122 -/
def serializeBytesList (vs : List (Option Bytes)) : Bytes :=
  bracketed (vs.map fun s => quoted (Lib.Base64.encode (s.getD [])))

/-! ## Values -/

/-- mirrors src/protobuf/qprotobufjsonserializer.cpp:408-414, 444-450
(serializeListEnd, serializeMapEnd): `buffer` is what was appended so far. -/
def closeList (buffer : Bytes) (close : UInt8) : Bytes :=
  (if buffer.getLast? = some comma then buffer.dropLast else buffer) ++ [close]

variable (rec : M → List (Value M) → Option Bytes) (e : MetaEnum)

/-- mirrors src/protobuf/qprotobufjsonserializer.cpp:159-174 (serializeValue of a
value that is neither a list nor a map) and
src/protobuf/qabstractprotobufserializer_p.h:78-83, 148-153: the getter of an unset
message makes a default one. -/
def serializeSingle : Value M → Option Bytes
  | .scalar v => some (serializeScalar qt v)
  | .enum v => some (serializeEnum e (v.signExtend 64))
  | .unset m => rec m (newObject S.types m)
  | .object m fields => rec m fields
  | _ => none

/-- mirrors src/protobuf/qprotobufjsonserializer.cpp:403-406 and
src/protobuf/qabstractprotobufserializer_p.h:98-104: a null pointer is left out. -/
def serializeListObject : Value M → Option Bytes
  | .object m fields => do
    let text ← rec m fields
    pure (text ++ [comma])
  | _ => some []

/-- mirrors src/protobuf/qprotobufjsonserializer.cpp:439-442 -/
def serializeMapPair (key : Scalar) (value : Value M) : Option Bytes := do
  let text ← serializeSingle S qt rec e value
  pure (quote :: (variantText qt key ++ (quote :: (colon :: text))) ++ [comma])

/-- mirrors src/protobuf/qabstractprotobufserializer_p.h:118-120, 134-140 -/
def serializeMapEntry : Scalar × Value M → Option Bytes
  | (_, .unset _) => some []
  | (key, value) => serializeMapPair S qt rec e key value

/-- mirrors src/protobuf/qprotobufjsonserializer.cpp:159-174 -/
def serializeValue : Value M → Option Bytes
  | .nums t vs => some (serializeNumList qt t vs)
  | .strings vs => some (serializeStringList qt vs)
  | .byteArrays vs => some (serializeBytesList vs)
  | .enums vs => some (serializeEnumList e (vs.map (·.signExtend 64)))
  | .messages vs => do
    let parts ← appendAll (serializeListObject rec) vs
    pure (closeList (openBracket :: parts) closeBracket)
  | .map entries => do
    let parts ← appendAll (serializeMapEntry S qt rec e) entries
    pure (closeList (openBrace :: parts) closeBrace)
  | v => serializeSingle S qt rec e v

end

section
variable {M : Type} (S : JsonSchema M) (qt : QtJson)

/-- mirrors src/protobuf/qprotobufjsonserializer.cpp:176-178 -/
def serializeProperty (rec : M → List (Value M) → Option Bytes) (m : M) (i : Nat) (value : Value M) :
    Option Bytes := do
  let text ← serializeValue S qt rec (S.metaEnum m i) value
  pure (quote :: (qt.toUtf8 (S.jsonName m i) ++ (quote :: (colon :: text))))

/-- mirrors src/protobuf/qprotobufjsonserializer.cpp:180-197 (serializeObject):
the last byte of `result` is taken off, whatever it is. -/
def serializeMessage : Nat → M → List (Value M) → Option Bytes
  | 0, _, _ => none
  | n + 1, m, fields => do
    let parts ← appendAll (fun p => do
      let value ← fields[p.2]?
      let text ← serializeProperty S qt (serializeMessage n) m p.2 value
      pure (text ++ [comma])) (S.types m).propertyOrdering
    pure ((openBrace :: parts).dropLast ++ [closeBrace])

end

/-! ## Loops that append a part and a comma -/

theorem appendAll_filter {α : Type} {f : α → Option Bytes} {p : α → Bool} {as : List α}
    (h : ∀ a ∈ as, p a = false → f a = some []) : appendAll f as = appendAll f (as.filter p) := by
  induction as with
  | nil => rfl
  | cons a as ih =>
    have hrest := ih fun a' ha' => h a' (List.mem_cons_of_mem a ha')
    cases hp : p a with
    | true => simp only [List.filter_cons_of_pos hp, appendAll, hrest]
    | false =>
      rw [List.filter_cons_of_neg (by simp [hp]), appendAll, h a List.mem_cons_self hp, hrest]
      simp

/-- If every part has its text from some level on, so has the loop. -/
theorem appendAll_parts {α β : Type} {f : Nat → α → Option Bytes} (text : α → β → Bytes)
    {P : α → β → Prop} {as : List α}
    (h : ∀ a ∈ as, ∃ x N, P a x ∧ ∀ n, N ≤ n → f n a = some (text a x ++ [comma])) :
    ∃ parts : List (α × β), parts.map Prod.fst = as ∧ (∀ p ∈ parts, P p.1 p.2) ∧
      ∃ N, ∀ n, N ≤ n →
        appendAll (f n) as = some ((parts.map fun p => text p.1 p.2).flatMap (· ++ [comma])) := by
  induction as with
  | nil => exact ⟨[], rfl, by simp, 0, fun _ _ => rfl⟩
  | cons a as ih =>
    obtain ⟨x, N, hx, hN⟩ := h a List.mem_cons_self
    obtain ⟨parts, hfst, hparts, N', hN'⟩ := ih fun a' ha' => h a' (List.mem_cons_of_mem a ha')
    refine ⟨(a, x) :: parts, by simp [hfst], ?_, max N N', fun n hn => ?_⟩
    · intro p hp
      rcases List.mem_cons.mp hp with rfl | hp
      · exact hx
      · exact hparts p hp
    · have h₁ := hN n (by omega)
      have h₂ := hN' n (by omega)
      simp only [appendAll, h₁, h₂]
      simp

theorem closeList_eq {o : UInt8} (ho : o ≠ comma) (texts : List Bytes) (close : UInt8) :
    closeList (o :: texts.flatMap (· ++ [comma])) close = o :: (commas texts ++ [close]) := by
  unfold closeList
  by_cases h : texts = []
  · simp [h, ho]
  · rw [commas_concat h, ← List.cons_append, if_pos List.getLast?_concat, List.dropLast_concat]
    rfl

section
variable {M : Type} {S : JsonSchema M} {qt : QtJson}

theorem serializeValue_single {t : SingleType M} {v : Value M} (h : HasType S.types (.single t) v)
    (rec : M → List (Value M) → Option Bytes) (e : MetaEnum) :
    serializeValue S qt rec e v = serializeSingle S qt rec e v := by
  cases h <;> rfl

/-- With enough levels `text` is written for a value of a property with the enum
type `e`. -/
def WrittenAs (S : JsonSchema M) (qt : QtJson) (e : MetaEnum) (v : Value M) (text : Bytes) : Prop :=
  ∃ N, ∀ n, N ≤ n → serializeValue S qt (serializeMessage S qt n) e v = some text

/-- So it is for a message. -/
def MessageWrittenAs (S : JsonSchema M) (qt : QtJson) (m : M) (fs : List (Value M)) (text : Bytes) :
    Prop :=
  ∃ N, ∀ n, N ≤ n → serializeMessage S qt n m fs = some text

theorem MessageWrittenAs.unique {m : M} {fs : List (Value M)} {text text' : Bytes}
    (h : MessageWrittenAs S qt m fs text) (h' : MessageWrittenAs S qt m fs text') : text = text' := by
  obtain ⟨N, hN⟩ := h
  obtain ⟨N', hN'⟩ := h'
  have h₁ := hN (max N N') (Nat.le_max_left ..)
  have h₂ := hN' (max N N') (Nat.le_max_right ..)
  exact Option.some.inj (h₁.symm.trans h₂)

variable {β : Type} (text : β → Bytes)

/-- The members of a message, in the order of `propertyOrdering`. -/
theorem serializeMessage_members {m : M} {fs : List (Value M)} {P : Nat → β → Prop}
    (hne : (S.types m).properties ≠ []) (hl : fs.length = (S.types m).properties.length)
    (h : ∀ i v, fs[i]? = some v → ∃ x, P i x ∧ WrittenAs S qt (S.metaEnum m i) v (text x)) :
    ∃ members : List (Nat × β),
      members.map Prod.fst = (S.types m).propertyOrdering.map Prod.snd ∧ (∀ q ∈ members, P q.1 q.2) ∧
      MessageWrittenAs S qt m fs (openBrace ::
        (commas (members.map fun q => memberText (qt.toUtf8 (S.jsonName m q.1)) (text q.2)) ++
          [closeBrace])) := by
  let step (n : Nat) (p : Nat × Nat) : Option Bytes := do
    let value ← fs[p.2]?
    let text ← serializeProperty S qt (serializeMessage S qt n) m p.2 value
    pure (text ++ [comma])
  have hparts : ∀ p ∈ (S.types m).propertyOrdering, ∃ x N, P p.2 x ∧ ∀ n, N ≤ n →
      step n p = some (memberText (qt.toUtf8 (S.jsonName m p.2)) (text x) ++ [comma]) := by
    intro p hp
    have hi : p.2 < fs.length := hl ▸ (S.types m).index_lt hp
    obtain ⟨x, hx, N, hN⟩ := h p.2 fs[p.2] (List.getElem?_eq_getElem hi)
    refine ⟨x, N, hx, fun n hn => ?_⟩
    simp [step, List.getElem?_eq_getElem hi, serializeProperty, hN n hn, memberText]
  obtain ⟨parts, hfst, hP, N, hN⟩ := appendAll_parts
    (fun (p : Nat × Nat) x => memberText (qt.toUtf8 (S.jsonName m p.2)) (text x)) hparts
  have hne' : parts ≠ [] := by
    rintro rfl
    have hlen := (S.types m).indices.length_eq
    rw [← hfst] at hlen
    exact hne (List.length_eq_zero_iff.mp (by simpa using hlen.symm))
  refine ⟨parts.map fun q => (q.1.2, q.2), ?_, ?_, N + 1, fun n hn => ?_⟩
  · rw [← hfst]
    simp
  · intro q hq
    obtain ⟨r, hr, rfl⟩ := List.mem_map.mp hq
    exact hP r hr
  · obtain ⟨n, rfl⟩ : ∃ k, n = k + 1 := ⟨n - 1, by omega⟩
    have happ := hN n (by omega)
    rw [commas_concat (by simpa using hne')] at happ
    have hmsg : serializeMessage S qt (n + 1) m fs =
        (appendAll (step n) (S.types m).propertyOrdering >>= fun parts =>
          pure ((openBrace :: parts).dropLast ++ [closeBrace])) := rfl
    rw [hmsg, happ]
    show some _ = some _
    rw [← List.cons_append, List.dropLast_concat]
    simp [Function.comp_def]

/-- Of a message without fields only the closing brace is left. -/
theorem serializeMessage_noFields {m : M} (h : (S.types m).properties = []) (fs : List (Value M)) :
    MessageWrittenAs S qt m fs [closeBrace] := by
  have hnone : (S.types m).propertyOrdering = [] := by
    have hlen := (S.types m).indices.length_eq
    rw [h] at hlen
    exact List.length_eq_zero_iff.mp (by simpa using hlen)
  refine ⟨1, fun n hn => ?_⟩
  obtain ⟨n, rfl⟩ : ∃ k, n = k + 1 := ⟨n - 1, by omega⟩
  rw [serializeMessage, hnone]
  rfl

/-- The elements of a list of messages that are no null pointers. -/
theorem serializeMessages_elements {e : MetaEnum} {vs : List (Value M)} {P : Value M → β → Prop}
    (hobj : ∀ v ∈ vs, v.isUnset = false → ∃ m fs, v = .object m fs)
    (h : ∀ v ∈ vs, v.isUnset = false → ∃ x, P v x ∧ WrittenAs S qt e v (text x)) :
    ∃ elements : List (Value M × β),
      elements.map Prod.fst = vs.filter (!·.isUnset) ∧ (∀ q ∈ elements, P q.1 q.2) ∧
      WrittenAs S qt e (.messages vs)
        (openBracket :: (commas (elements.map fun q => text q.2) ++ [closeBracket])) := by
  have hparts : ∀ v ∈ vs.filter (!·.isUnset), ∃ x N, P v x ∧ ∀ n, N ≤ n →
      serializeListObject (serializeMessage S qt n) v = some (text x ++ [comma]) := by
    intro v hv
    obtain ⟨hv, hset⟩ := List.mem_filter.mp hv
    have hset : v.isUnset = false := by simpa using hset
    obtain ⟨x, hx, N, hN⟩ := h v hv hset
    obtain ⟨m, fs, rfl⟩ := hobj v hv hset
    refine ⟨x, N, hx, fun n hn => ?_⟩
    have hrec : serializeMessage S qt n m fs = some (text x) := hN n hn
    simp [serializeListObject, hrec]
  obtain ⟨parts, hfst, hP, N, hN⟩ := appendAll_parts (fun _ x => text x) hparts
  refine ⟨parts, hfst, hP, N, fun n hn => ?_⟩
  have hskip : ∀ v ∈ vs, (!v.isUnset) = false →
      serializeListObject (serializeMessage S qt n) v = some [] := by
    intro v _ hv
    cases v with
    | unset m => rfl
    | _ => simp [Value.isUnset] at hv
  have hfold : serializeValue S qt (serializeMessage S qt n) e (.messages vs) =
      (appendAll (serializeListObject (serializeMessage S qt n)) vs >>= fun parts =>
        pure (closeList (openBracket :: parts) closeBracket)) := rfl
  rw [hfold, appendAll_filter hskip, hN n hn]
  show some _ = some _
  rw [closeList_eq (by decide)]

/-- The pairs of a map whose values are no null pointers. -/
theorem serializeMap_members {e : MetaEnum} {es : List (Scalar × Value M)}
    {P : Scalar × Value M → β → Prop}
    (hsingle : ∀ p ∈ es, p.2.isUnset = false → ∀ rec,
      serializeValue S qt rec e p.2 = serializeSingle S qt rec e p.2)
    (h : ∀ p ∈ es, p.2.isUnset = false → ∃ x, P p x ∧ WrittenAs S qt e p.2 (text x)) :
    ∃ members : List ((Scalar × Value M) × β),
      members.map Prod.fst = es.filter (fun p => !p.2.isUnset) ∧ (∀ q ∈ members, P q.1 q.2) ∧
      WrittenAs S qt e (.map es) (openBrace ::
        (commas (members.map fun q => memberText (variantText qt q.1.1) (text q.2)) ++
          [closeBrace])) := by
  have hentry : ∀ p : Scalar × Value M, p.2.isUnset = false → ∀ rec,
      serializeMapEntry S qt rec e p = serializeMapPair S qt rec e p.1 p.2 := by
    rintro ⟨key, v⟩ hv rec
    cases v with
    | unset m => simp [Value.isUnset] at hv
    | _ => rfl
  have hparts : ∀ p ∈ es.filter (fun p => !p.2.isUnset), ∃ x N, P p x ∧ ∀ n, N ≤ n →
      serializeMapEntry S qt (serializeMessage S qt n) e p =
        some (memberText (variantText qt p.1) (text x) ++ [comma]) := by
    intro p hp
    obtain ⟨hp, hset⟩ := List.mem_filter.mp hp
    have hset : p.2.isUnset = false := by simpa using hset
    obtain ⟨x, hx, N, hN⟩ := h p hp hset
    refine ⟨x, N, hx, fun n hn => ?_⟩
    have hrec := hN n hn
    rw [hsingle p hp hset] at hrec
    simp [hentry p hset, serializeMapPair, hrec, memberText]
  obtain ⟨parts, hfst, hP, N, hN⟩ := appendAll_parts
    (fun (p : Scalar × Value M) x => memberText (variantText qt p.1) (text x)) hparts
  refine ⟨parts, hfst, hP, N, fun n hn => ?_⟩
  have hskip : ∀ p ∈ es, (!p.2.isUnset) = false →
      serializeMapEntry S qt (serializeMessage S qt n) e p = some [] := by
    rintro ⟨key, v⟩ _ hv
    cases v with
    | unset m => rfl
    | _ => simp [Value.isUnset] at hv
  have hfold : serializeValue S qt (serializeMessage S qt n) e (.map es) =
      (appendAll (serializeMapEntry S qt (serializeMessage S qt n) e) es >>= fun parts =>
        pure (closeList (openBrace :: parts) closeBrace)) := rfl
  rw [hfold, appendAll_filter hskip, hN n hn]
  show some _ = some _
  rw [closeList_eq (by decide)]

end

end QtProtobuf.Json
