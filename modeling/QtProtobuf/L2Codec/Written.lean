import QtProtobuf.L2Codec.Encoding
import QtProtobuf.L2Codec.RoundTrip

/-!
# What the serializer writes is a valid encoding

`Shared S S'` says which byte strings are an encoding for a writer with the
schema `S` that a reader with the schema `S'` can make out: a field number in
them has one type in both schemas, or the reader (or neither of them) knows it.

* `Shared.valid`: for the writer it is a valid encoding.
* `serializeMessage_shared`: what `serializeMessage` writes is one, for every
  reader that gives no known field number another type (`CompatibleSchemas`).
* `serializeMessage_valid`: so what it writes is a valid encoding.
-/
namespace QtProtobuf.Codec

open Lib Wire

/-! ## Encodings for two schemas -/

/-- A field number that both know has one type. -/
def CompatibleSchemas {M : Type} (S S' : Schema M) : Prop :=
  ∀ m f i t i' t', (S m).find f = some (i, t) → (S' m).find f = some (i', t') → t = t'

inductive Shared {M : Type} (S S' : Schema M) : Part M → Bytes → Prop
  | scalar {t : ScalarType} {bs : Bytes} (h : Payload t.wireType bs) : Shared S S' (.single (.scalar t)) bs
  | enum {bs : Bytes} (h : Payload .varint bs) : Shared S S' (.single .enum) bs
  | object {m : M} {body bs : Bytes} (hd : Delimited body bs) (h : Shared S S' (.message m) body) :
    Shared S S' (.single (.message m)) bs
  | single {t : SingleType M} {bs : Bytes} (h : Shared S S' (.single t) bs) :
    Shared S S' (.field (.single t)) bs
  | nums {t : NumType} {body bs : Bytes} (hd : Delimited body bs) (h : Packed t.wireType body) :
    Shared S S' (.field (.nums t)) bs
  | strings {bs : Bytes} (h : Payload .lengthDelimited bs) : Shared S S' (.field .strings) bs
  | byteArrays {bs : Bytes} (h : Payload .lengthDelimited bs) : Shared S S' (.field .byteArrays) bs
  | enums {body bs : Bytes} (hd : Delimited body bs) (h : Packed .varint body) :
    Shared S S' (.field .enums) bs
  | messages {m : M} {bs : Bytes} (h : Shared S S' (.single (.message m)) bs) :
    Shared S S' (.field (.messages m)) bs
  | map {kt : ScalarType} {vt : SingleType M} {body bs : Bytes} (hd : Delimited body bs)
    (h : Shared S S' (.entry kt vt) body) : Shared S S' (.field (.map kt vt)) bs
  | entryNil {kt : ScalarType} {vt : SingleType M} : Shared S S' (.entry kt vt) []
  | entryKey {kt : ScalarType} {vt : SingleType M} {hdr p bs : Bytes} (hh : IsHeader 1 kt.wireType hdr)
    (hp : Payload kt.wireType p) (h : Shared S S' (.entry kt vt) bs) :
    Shared S S' (.entry kt vt) (hdr ++ p ++ bs)
  | entryValue {kt : ScalarType} {vt : SingleType M} {hdr p bs : Bytes} (hh : IsHeader 2 vt.wireType hdr)
    (hp : Shared S S' (.single vt) p) (h : Shared S S' (.entry kt vt) bs) :
    Shared S S' (.entry kt vt) (hdr ++ p ++ bs)
  | nil {m : M} : Shared S S' (.message m) []
  | unknown {m : M} {f : Nat} {w : WireTypes} {hdr p bs : Bytes} (hh : IsHeader f w hdr)
    (hf : (S m).find f = none) (hf' : (S' m).find f = none) (hp : Payload w p)
    (h : Shared S S' (.message m) bs) : Shared S S' (.message m) (hdr ++ p ++ bs)
  | dropped {m : M} {f i : Nat} {t : FieldType M} {hdr p bs : Bytes} (hh : IsHeader f t.wireType hdr)
    (hf : (S m).find f = some (i, t)) (hf' : (S' m).find f = none) (hp : Valid S (.field t) p)
    (h : Shared S S' (.message m) bs) : Shared S S' (.message m) (hdr ++ p ++ bs)
  | known {m : M} {f i i' : Nat} {t : FieldType M} {hdr p bs : Bytes} (hh : IsHeader f t.wireType hdr)
    (hf : (S m).find f = some (i, t)) (hf' : (S' m).find f = some (i', t))
    (hp : Shared S S' (.field t) p) (h : Shared S S' (.message m) bs) :
    Shared S S' (.message m) (hdr ++ p ++ bs)

/-! ## Properties by number -/

section
variable {M : Type}

/-- A property has one field number. -/
theorem MetaObject.find_inj {o : MetaObject M} {f g i : Nat} {t u : FieldType M}
    (hf : o.find f = some (i, t)) (hg : o.find g = some (i, u)) : f = g := by
  have hnd : (o.propertyOrdering.map Prod.snd).Nodup := o.indices.nodup_iff.mpr List.nodup_range
  have he := List.inj_on_of_nodup_map hnd (find_mem hf).1 (find_mem hg).1 rfl
  exact congrArg Prod.fst he

theorem MetaObject.find_lt {o : MetaObject M} {f i : Nat} {t : FieldType M} (hf : o.find f = some (i, t)) :
    i < o.properties.length := (List.getElem?_eq_some_iff.mp (find_mem hf).2).1

end

/-! ## Basic types -/

section
variable {qt : QtCore}

theorem isHeader_encodeHeader {f : Nat} {w : WireTypes} (h0 : 0 < f) (hf : f < 2 ^ 29)
    (hw : w.known = true) : IsHeader f w (encodeHeader f w) := by
  obtain ⟨h1, h2, h3⟩ := encodeHeader_isVarint hf hw
  exact ⟨h0, hf, hw, h1, h2, h3⟩

theorem delimited_prepend {data : Bytes} (h : data.length < 2 ^ 31) :
    Delimited data (prependLengthDelimitedSize data) := by
  have hmod : data.length % 2 ^ 32 = data.length := Nat.mod_eq_of_lt (by omega)
  obtain ⟨h1, h2, h3⟩ := serializeVarintCommon_isVarint (data.length % 2 ^ 32) (by omega)
  exact ⟨_, ⟨h1, h3, h2.trans hmod⟩, h, rfl⟩

theorem payload_prepend {data : Bytes} (h : data.length < 2 ^ 31) :
    Payload .lengthDelimited (prependLengthDelimitedSize data) := .lengthDelimited (delimited_prepend h)

theorem NumType.wireType_varint {t : NumType} (h : t.coding ≠ .fixed) : t.wireType = .varint := by
  cases t <;> first | rfl | exact absurd rfl h

theorem payload_fixed {t : NumType} (hc : t.coding = .fixed) {bs : Bytes}
    (hl : bs.length = t.width / 8) : Payload t.wireType bs := by
  cases t with
  | fixed32 | sfixed32 | float => exact .fixed32 hl
  | fixed64 | sfixed64 | double => exact .fixed64 hl
  | _ => cases hc

theorem payload_unsigned {w : Nat} (hw : w ≤ 64) {v : BitVec w} (h0 : v ≠ 0) :
    Payload .varint (serializeUnsigned v.toNat) := by
  have hne : v.toNat ≠ 0 := fun h => h0 (BitVec.eq_of_toNat_eq h)
  have hlt : v.toNat < 2 ^ 64 := Nat.lt_of_lt_of_le v.isLt (Nat.pow_le_pow_right (by decide) hw)
  obtain ⟨h1, h2, h3⟩ := serializeUnsigned_isVarint v.toNat hne hlt
  exact .varint ⟨h1, h3, h2⟩

/-- A number that keeps its field index. -/
theorem payload_basic {t : NumType} {v : BitVec t.width} (h : (serializeBasic t v).2 = true) :
    Payload t.wireType (serializeBasic t v).1 := by
  unfold serializeBasic at h ⊢
  cases hc : t.coding with
  | fixed => exact payload_fixed hc (littleEndian_length _ _)
  | plain =>
    rw [hc] at h
    rw [t.wireType_varint (by rw [hc]; decide)]
    exact payload_unsigned t.width_le (by simpa using h)
  | zigZag =>
    rw [hc] at h
    rw [t.wireType_varint (by rw [hc]; decide)]
    exact payload_unsigned t.width_le (by simpa using h)

theorem payload_element (t : NumType) (v : BitVec t.width) : Payload t.wireType (serializeElement t v) := by
  unfold serializeElement
  cases hu : (serializeBasic t v).2 with
  | true =>
    have hne : (serializeBasic t v).1.isEmpty = false := by simpa using serializeBasic_ne_nil hu
    rw [hne, if_neg Bool.false_ne_true]
    exact payload_basic hu
  | false =>
    obtain ⟨-, hnil, hc⟩ := serializeBasic_unused hu
    rw [hnil, t.wireType_varint hc]
    exact .varint (v := 0) (by decide)

theorem packed_elements (t : NumType) (vs : List (BitVec t.width)) :
    Packed t.wireType (vs.flatMap (serializeElement t)) := by
  induction vs with
  | nil => exact .nil
  | cons v vs ih => exact .cons (payload_element t v) ih

/-- A scalar that keeps its field index. -/
theorem payload_scalar {v : Scalar} (h : (serializeScalar qt v).2 = true)
    (hl : (serializeScalar qt v).1.length < 2 ^ 31) :
    Payload v.type.wireType (serializeScalar qt v).1 := by
  unfold serializeScalar at h hl ⊢
  by_cases hnull : qt.isNull v = true
  · rw [if_pos hnull] at h; cases h
  · rw [if_neg hnull] at h hl ⊢
    cases v with
    | num t v => exact payload_basic h
    | bool v => exact payload_basic (t := .uint32) h
    | string s => exact payload_prepend (Nat.lt_of_le_of_lt (prepend_length _) hl)
    | bytes s => exact payload_prepend (Nat.lt_of_le_of_lt (prepend_length _) hl)

end

/-! ## Two readings of one encoding -/

section
variable {M : Type} {S S' : Schema M}

/-- For the writer it is a valid encoding. -/
theorem Shared.valid {x : Part M} {bs : Bytes} (h : Shared S S' x bs) : Valid S x bs := by
  induction h with
  | scalar h => exact .scalar h
  | enum h => exact .enum h
  | object hd _ ih => exact .object hd ih
  | single _ ih => exact .single ih
  | nums hd h => exact .nums hd h
  | strings h => exact .strings h
  | byteArrays h => exact .byteArrays h
  | enums hd h => exact .enums hd h
  | messages _ ih => exact .messages ih
  | map hd _ ih => exact .map hd ih
  | entryNil => exact .entryNil
  | entryKey hh hp _ ih => exact .entryKey hh hp ih
  | entryValue hh _ _ ihp ih => exact .entryValue hh ihp ih
  | nil => exact .nil
  | unknown hh hf _ hp _ ih => exact .unknown hh hf hp ih
  | dropped hh hf _ hp _ ih => exact .known hh hf hp ih
  | known hh hf _ _ _ ihp ih => exact .known hh hf ihp ih

/-- A payload of a field, by its wire type. -/
theorem Valid.payload {t : FieldType M} {p : Bytes} (h : Valid S (.field t) p) : Payload t.wireType p := by
  cases h with
  | single h =>
    cases h with
    | scalar h => exact h
    | enum h => exact h
    | object hd _ => exact .lengthDelimited hd
  | nums hd _ => exact .lengthDelimited hd
  | strings h => exact h
  | byteArrays h => exact h
  | enums hd _ => exact .lengthDelimited hd
  | messages h =>
    cases h with
    | object hd _ => exact .lengthDelimited hd
  | map hd _ => exact .lengthDelimited hd

theorem Shared.append {m : M} {bs cs : Bytes} (h : Shared S S' (.message m) bs)
    (hc : Shared S S' (.message m) cs) : Shared S S' (.message m) (bs ++ cs) := by
  generalize hx : Part.message m = x at h
  induction h with
  | nil =>
    cases hx
    exact hc
  | unknown hh hf hf' hp _ ih =>
    cases hx
    rw [List.append_assoc]
    exact .unknown hh hf hf' hp (ih rfl)
  | dropped hh hf hf' hp _ ih =>
    cases hx
    rw [List.append_assoc]
    exact .dropped hh hf hf' hp (ih rfl)
  | known hh hf hf' hp _ _ ih =>
    cases hx
    rw [List.append_assoc]
    exact .known hh hf hf' hp (ih rfl)
  | _ => cases hx

/-- One record of a field that the writer knows. -/
theorem CompatibleSchemas.record (hc : CompatibleSchemas S S') {m : M} {f i : Nat} {t : FieldType M}
    {hdr p : Bytes} (hh : IsHeader f t.wireType hdr) (hf : (S m).find f = some (i, t))
    (hp : Shared S S' (.field t) p) : Shared S S' (.message m) (hdr ++ p) := by
  rw [← List.append_nil (hdr ++ p)]
  cases hf' : (S' m).find f with
  | none => exact .dropped hh hf hf' hp.valid .nil
  | some q =>
    obtain ⟨i', t'⟩ := q
    obtain rfl := hc m f i t i' t' hf hf'
    exact .known hh hf hf' hp .nil

/-! ## The serializer -/

variable {qt : QtCore} {rec : M → List (Value M) → Option Bytes}

/-- The nested messages that `rec` writes are shared encodings. -/
def Writes (S S' : Schema M) (qt : QtCore) (rec : M → List (Value M) → Option Bytes) : Prop :=
  ∀ m fs data, Typed S qt (.single (.message m)) (.object m fs) → rec m fs = some data →
    data.length < 2 ^ 31 → Shared S S' (.message m) data

/-- Nothing, or one record with a payload that both can read. -/
def SingleRecord (S S' : Schema M) (t : SingleType M) (f : Nat) (bs : Bytes) : Prop :=
  bs = [] ∨ ∃ p, bs = encodeHeader f t.wireType ++ p ∧ Shared S S' (.single t) p

theorem Writes.object (hw : Writes S S' qt rec) {m : M} {fs : List (Value M)}
    (hv : Typed S qt (.single (.message m)) (.object m fs)) {f : Nat} {bs : Bytes}
    (hs : serializeObject rec f m fs = some bs) (hl : bs.length < 2 ^ 31) :
    ∃ p, bs = encodeHeader f .lengthDelimited ++ p ∧ Shared S S' (.single (.message m)) p := by
  simp only [serializeObject, Option.bind_eq_bind, Option.bind_eq_some_iff, Option.pure_def,
    Option.some.injEq] at hs
  obtain ⟨data, hd, rfl⟩ := hs
  have hle := prepend_length data
  rw [List.length_append] at hl
  have hlt : data.length < 2 ^ 31 := by omega
  exact ⟨_, rfl, .object (delimited_prepend hlt) (hw m fs data hv hd hlt)⟩

theorem Writes.single (hw : Writes S S' qt rec) {t : SingleType M} {v : Value M}
    (hv : Typed S qt (.single t) v) {f : Nat} {bs : Bytes} (hs : serializeSingle S qt rec f v = some bs)
    (hl : bs.length < 2 ^ 31) : SingleRecord S S' t f bs := by
  cases hv with
  | @scalar v hk =>
    have hs : some (withHeader f v.type.wireType (serializeScalar qt v)) = some bs := hs
    cases hs
    unfold withHeader at hl ⊢
    cases hu : (serializeScalar qt v).2 with
    | false =>
      rw [if_neg Bool.false_ne_true]
      exact .inl (serializeScalar_unused hu).2
    | true =>
      rw [hu, if_pos rfl, List.length_append] at hl
      exact .inr ⟨_, if_pos rfl, .scalar (payload_scalar hu (by omega))⟩
  | enum v =>
    have hs : some (withHeader f .varint (serializeBasic .int64 (v.signExtend 64))) = some bs := hs
    cases hs
    unfold withHeader
    cases hu : (serializeBasic .int64 (v.signExtend 64)).2 with
    | false =>
      rw [if_neg Bool.false_ne_true]
      exact .inl (serializeBasic_unused hu).2.1
    | true => exact .inr ⟨_, if_pos rfl, .enum (payload_basic (t := .int64) hu)⟩
  | unset m => exact .inr (hw.object (typed_newObject m) hs hl)
  | object m hlen h => exact .inr (hw.object (.object m hlen h) hs hl)

/-- The two parts of a map entry. -/
theorem Writes.entry (hw : Writes S S' qt rec) {key : Scalar} {vt : SingleType M} {value : Value M}
    (hv : Typed S qt (.single vt) value) {data : Bytes}
    (hd : serializeSingle S qt rec 2 value = some data)
    (hl : (withHeader 1 key.type.wireType (serializeScalar qt key) ++ data).length < 2 ^ 31) :
    Shared S S' (.entry key.type vt) (withHeader 1 key.type.wireType (serializeScalar qt key) ++ data) := by
  rw [List.length_append] at hl
  have hvalue : Shared S S' (.entry key.type vt) data := by
    rcases hw.single hv hd (by omega) with rfl | ⟨p, rfl, hp⟩
    · exact .entryNil
    · rw [← List.append_nil (encodeHeader 2 vt.wireType ++ p)]
      exact .entryValue (isHeader_encodeHeader (by decide) (by decide) vt.wireType_known) hp .entryNil
  unfold withHeader at hl ⊢
  cases hu : (serializeScalar qt key).2 with
  | false =>
    rw [if_neg Bool.false_ne_true, (serializeScalar_unused hu).2]
    exact hvalue
  | true =>
    rw [hu, if_pos rfl, List.length_append] at hl
    have hh := isHeader_encodeHeader (f := 1) (by decide) (by decide) key.type.wireType_known
    exact .entryKey hh (payload_scalar hu (by omega)) hvalue

theorem appendAll_shared {α : Type} {g : α → Option Bytes} {as : List α} {m : M} {bs : Bytes}
    (hs : appendAll g as = some bs)
    (h : ∀ a ∈ as, ∀ x, g a = some x → x.length ≤ bs.length → Shared S S' (.message m) x) :
    Shared S S' (.message m) bs := by
  induction as generalizing bs with
  | nil =>
    cases hs
    exact .nil
  | cons a as ih =>
    obtain ⟨x, xs, hx, hxs, rfl⟩ := appendAll_cons hs
    rw [List.length_append] at h
    refine (h a List.mem_cons_self x hx (by omega)).append (ih hxs fun a' ha' x' hx' hl => ?_)
    exact h a' (List.mem_cons_of_mem a ha') x' hx' (by omega)

/-- The record of a list of numbers. -/
theorem shared_list {m : M} {f : Nat} (t : NumType) (vs : List (BitVec t.width))
    (hr : ∀ p, Delimited (vs.flatMap (serializeElement t)) p →
      Shared S S' (.message m) (encodeHeader f .lengthDelimited ++ p))
    (hl : (withHeader f .lengthDelimited (serializeListType t vs)).length < 2 ^ 31) :
    Shared S S' (.message m) (withHeader f .lengthDelimited (serializeListType t vs)) := by
  unfold withHeader serializeListType at hl ⊢
  cases vs with
  | nil => exact .nil
  | cons v vs =>
    rw [List.isEmpty_cons, if_neg Bool.false_ne_true, if_pos rfl] at hl ⊢
    have hle := prepend_length ((v :: vs).flatMap (serializeElement t))
    dsimp only at hl
    rw [List.length_append] at hl
    exact hr _ (delimited_prepend (by omega))

/-- The records of a list of strings or byte arrays. -/
theorem shared_bytes {m : M} {f : Nat} {vs : List Bytes}
    (hr : ∀ p, Payload .lengthDelimited p → Shared S S' (.message m) (encodeHeader f .lengthDelimited ++ p))
    (hl : (withHeader f .lengthDelimited (serializeBytesList f vs)).length < 2 ^ 31) :
    Shared S S' (.message m) (withHeader f .lengthDelimited (serializeBytesList f vs)) := by
  have hs : appendAll (fun v => some (encodeHeader f .lengthDelimited ++ prependLengthDelimitedSize v)) vs =
      some (withHeader f .lengthDelimited (serializeBytesList f vs)) := appendAll_some _ vs
  refine appendAll_shared hs fun v _ x hx hxl => ?_
  cases hx
  have hle := prepend_length v
  rw [List.length_append] at hxl
  exact hr _ (payload_prepend (by omega))

/-- **One property.** What is written for it are records of its field. -/
theorem Writes.property (hw : Writes S S' qt rec) (hc : CompatibleSchemas S S') {m : M} {p : Nat × Nat}
    (hp : p ∈ (S m).propertyOrdering) {t : FieldType M} (ht : (S m).properties[p.2]? = some t)
    {v : Value M} (hv : Typed S qt t v) {bs : Bytes} (hs : serializeProperty S qt rec p.1 v = some bs)
    (hl : bs.length < 2 ^ 31) : Shared S S' (.message m) bs := by
  obtain ⟨h0, hf⟩ := (S m).inRange p hp
  have hfind := (S m).find_of_mem hp ht
  have hrecord : ∀ payload, Shared S S' (.field t) payload →
      Shared S S' (.message m) (encodeHeader p.1 t.wireType ++ payload) := fun payload h =>
    hc.record (isHeader_encodeHeader h0 hf t.wireType_known) hfind h
  have hsingle : ∀ {t' v'}, t = .single t' → Typed S qt (.single t') v' →
      serializeSingle S qt rec p.1 v' = some bs → Shared S S' (.message m) bs := by
    rintro t' v' rfl hv' hs'
    rcases hw.single hv' hs' hl with rfl | ⟨payload, rfl, hpay⟩
    · exact .nil
    · exact hrecord payload (.single hpay)
  cases hv with
  | scalar hk => exact hsingle rfl (.scalar hk) hs
  | enum v => exact hsingle rfl (.enum v) hs
  | unset m' => exact hsingle rfl (.unset m') hs
  | object m' hlen h => exact hsingle rfl (.object m' hlen h) hs
  | nums t vs =>
    cases hs
    exact shared_list t vs (fun q hq => hrecord q (.nums hq (packed_elements t vs))) hl
  | enums vs =>
    cases hs
    exact shared_list .int64 _ (fun q hq => hrecord q (.enums hq (packed_elements .int64 _))) hl
  | strings h =>
    cases hs
    exact shared_bytes (fun q hq => hrecord q (.strings hq)) hl
  | byteArrays vs =>
    cases hs
    exact shared_bytes (fun q hq => hrecord q (.byteArrays hq)) hl
  | @messages m' vs hset h =>
    refine appendAll_shared hs fun v hv x hx hxl => ?_
    obtain ⟨fs, rfl⟩ := hset v hv
    obtain ⟨q, rfl, hq⟩ := hw.object (h _ hv) hx (by omega)
    exact hrecord q (.messages hq)
  | @map kt vt es hk hv hset hsorted =>
    refine appendAll_shared hs fun e he x hx hxl => ?_
    obtain ⟨key, value⟩ := e
    rw [serializeMapEntry_pair (hset _ he)] at hx
    simp only [serializeMapPair, Option.bind_eq_bind, Option.bind_eq_some_iff, Option.pure_def,
      Option.some.injEq] at hx
    obtain ⟨data, hd, rfl⟩ := hx
    have hkt : key.type = kt := (hk _ he).1
    subst hkt
    have hle := prepend_length (withHeader 1 key.type.wireType (serializeScalar qt key) ++ data)
    rw [List.length_append] at hxl
    have hlt : (withHeader 1 key.type.wireType (serializeScalar qt key) ++ data).length < 2 ^ 31 := by omega
    exact hrecord _ (.map (delimited_prepend hlt) (hw.entry (hv _ he) hd hlt))

/-- **The serializer.** For every compatible reader it writes a shared encoding. -/
theorem serializeMessage_shared (hc : CompatibleSchemas S S') {levels : Nat} {m : M} {fs : List (Value M)}
    (hv : Typed S qt (.single (.message m)) (.object m fs)) {data : Bytes}
    (hs : serializeMessage S qt levels m fs = some data) (hl : data.length < 2 ^ 31) :
    Shared S S' (.message m) data := by
  induction levels generalizing m fs data with
  | zero => cases hs
  | succ levels ih =>
    have hw : Writes S S' qt (serializeMessage S qt levels) := fun m' fs' data' hv' hs' hl' =>
      ih hv' hs' hl'
    cases hv with
    | object m hlen hv =>
      refine appendAll_shared hs fun p hp x hx hxl => ?_
      simp only [Option.bind_eq_bind, Option.bind_eq_some_iff] at hx
      obtain ⟨v, hget, hx⟩ := hx
      have hi := (S m).index_lt hp
      exact hw.property hc hp (List.getElem?_eq_getElem hi)
        (hv p.2 _ v (List.getElem?_eq_getElem hi) hget) hx (by omega)

theorem CompatibleSchemas.refl (S : Schema M) : CompatibleSchemas S S := by
  intro m f i t i' t' h h'
  rw [h] at h'
  cases h'
  rfl

/-- **Well-formed output.** `serializeMessage` writes a valid encoding of every
message of an acyclic schema. -/
theorem serializeMessage_valid [Finite M] (hS : Acyclic S) {m : M} {fs : List (Value M)}
    (hv : Typed S qt (.single (.message m)) (.object m fs)) :
    ∃ data, (∃ levels, ∀ levels', levels ≤ levels' → serializeMessage S qt levels' m fs = some data) ∧
      (data.length < 2 ^ 31 → Valid S (.message m) data) := by
  obtain ⟨levels, data, hs⟩ := serializeMessage_total hS hv
  refine ⟨data, ⟨levels, fun levels' h => serializeMessage_mono h hs⟩, fun hl => ?_⟩
  exact (serializeMessage_shared (.refl S) hv hs hl).valid

end

theorem serializeMessage_valid_nested :
    ∃ data, (∃ levels, ∀ levels', levels ≤ levels' →
        serializeMessage nestedSchema .ascii levels' false nestedFields = some data) ∧
      (data.length < 2 ^ 31 → Valid nestedSchema (.message false) data) :=
  serializeMessage_valid nestedSchema_acyclic nestedFields_typed

end QtProtobuf.Codec
