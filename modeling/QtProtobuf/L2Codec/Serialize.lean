import QtProtobuf.L2Codec.Schema
import Mathlib.Data.Fintype.Card

/-!
# `QProtobufSerializer::serializeMessage` (`protobuf/qprotobufserializer.cpp`)

A serializer of a basic type returns the bytes and whether `outFieldIndex` keeps
its value (it is set to `NotUsedFieldIndex` otherwise). The recursion through
nested messages is by a number of levels; `none`: not enough of them.

* `serializeMessage_mono`: more levels do not change the result.
* `serializeMessage_total`: for an acyclic schema every value has a result.
-/
namespace QtProtobuf.Codec

open Wire

/-! ## Basic types -/

/-- mirrors src/protobuf/qprotobufserializer_p.h:407-410 -/
def prependLengthDelimitedSize (data : Bytes) : Bytes :=
  serializeVarintCommon (data.length % 2 ^ 32) ++ data

/-- The bytes of a value in memory. -/
def littleEndian : Nat → Nat → Bytes
  | 0, _ => []
  | n + 1, v => UInt8.ofNat v :: littleEndian n (v / 256)

/-- mirrors src/protobuf/qprotobufserializer_p.h:161-163 -/
def zigZag {w : Nat} (v : BitVec w) : BitVec w := (v <<< 1) ^^^ v.sshiftRight (w - 1)

/-- mirrors src/protobuf/qprotobufserializer_p.h:108-211 (serializeBasic of the
numeric types) -/
def serializeBasic (t : NumType) (v : BitVec t.width) : Bytes × Bool :=
  match t.coding with
  | .fixed => (littleEndian (t.width / 8) v.toNat, true)
  | .plain => (serializeUnsigned v.toNat, v != 0)
  | .zigZag => (serializeUnsigned (zigZag v).toNat, zigZag v != 0)

/-- mirrors src/protobuf/qprotobufserializer_p.h:214-224, 389-421
(serializeWrapper); a `bool` is read as an `uint32`. -/
def serializeScalar (qt : QtCore) (v : Scalar) : Bytes × Bool :=
  if qt.isNull v then ([], false)
  else match v with
    | .num t v => serializeBasic t v
    | .bool v => serializeBasic .uint32 (if v then 1 else 0)
    | .string s => (prependLengthDelimitedSize (qt.toUtf8 (s.getD [])), true)
    | .bytes s => (prependLengthDelimitedSize (s.getD []), true)

/-- An element of a packed list; an empty one is a zero. -/
def serializeElement (t : NumType) (v : BitVec t.width) : Bytes :=
  if (serializeBasic t v).1.isEmpty then [0] else (serializeBasic t v).1

/-- mirrors src/protobuf/qprotobufserializer_p.h:227-250 (serializeListType) -/
def serializeListType (t : NumType) (vs : List (BitVec t.width)) : Bytes × Bool :=
  if vs.isEmpty then ([], false) else (prependLengthDelimitedSize (vs.flatMap (serializeElement t)), true)

/-- mirrors src/protobuf/qprotobufserializer_p.h:252-270 and
src/protobuf/qprotobufserializer.cpp:34-52 (serializeListType of strings and byte
arrays): each element has a header of its own. -/
def serializeBytesList (f : Nat) (vs : List Bytes) : Bytes × Bool :=
  (vs.flatMap fun v => encodeHeader f .lengthDelimited ++ prependLengthDelimitedSize v, false)

/-! ## Properties -/

/-- mirrors src/protobuf/qprotobufserializer.cpp:271-277: the header is written
unless the field index is `NotUsedFieldIndex`. -/
def withHeader (f : Nat) (type : WireTypes) (result : Bytes × Bool) : Bytes :=
  if result.2 then encodeHeader f type ++ result.1 else result.1

/-- `result.append(…)` in a loop. -/
def appendAll {α : Type} (serialize : α → Option Bytes) : List α → Option Bytes
  | [] => some []
  | a :: as => do
    let result ← serialize a
    let rest ← appendAll serialize as
    pure (result ++ rest)

section
variable {M : Type} (S : Schema M) (qt : QtCore) (rec : M → List (Value M) → Option Bytes)

/-- mirrors src/protobuf/qprotobufserializer.cpp:106-111 -/
def serializeObject (f : Nat) (m : M) (fields : List (Value M)) : Option Bytes := do
  let data ← rec m fields
  pure (encodeHeader f .lengthDelimited ++ prependLengthDelimitedSize data)

/-- mirrors src/protobuf/qprotobufserializer.cpp:258-283 (serializeProperty of a
value that is neither a list nor a map), 145-154 (serializeEnum) and
src/protobuf/qabstractprotobufserializer_p.h:78-83 (serializeObject): the getter of
an unset message makes a default one. -/
def serializeSingle (f : Nat) : Value M → Option Bytes
  | .scalar v => some (withHeader f v.type.wireType (serializeScalar qt v))
  | .enum v => some (withHeader f .varint (serializeBasic .int64 (v.signExtend 64)))
  | .unset m => serializeObject rec f m (newObject S m)
  | .object m fields => serializeObject rec f m fields
  | _ => none

/-- mirrors src/protobuf/qabstractprotobufserializer_p.h:98-104: a null pointer is
left out. -/
def serializeListObject (f : Nat) : Value M → Option Bytes
  | .object m fields => serializeObject rec f m fields
  | _ => some []

/-- mirrors src/protobuf/qprotobufserializer.cpp:130-137 -/
def serializeMapPair (f : Nat) (key : Scalar) (value : Value M) : Option Bytes := do
  let data ← serializeSingle S qt rec 2 value
  pure (encodeHeader f .lengthDelimited ++
    prependLengthDelimitedSize (withHeader 1 key.type.wireType (serializeScalar qt key) ++ data))

/-- mirrors src/protobuf/qabstractprotobufserializer_p.h:118-120, 134-140 -/
def serializeMapEntry (f : Nat) : Scalar × Value M → Option Bytes
  | (_, .unset _) => some []
  | (key, value) => serializeMapPair S qt rec f key value

/-- mirrors src/protobuf/qprotobufserializer.cpp:258-283 -/
def serializeProperty (f : Nat) : Value M → Option Bytes
  | .nums t vs => some (withHeader f .lengthDelimited (serializeListType t vs))
  | .strings vs =>
    some (withHeader f .lengthDelimited (serializeBytesList f (vs.map fun s => qt.toUtf8 (s.getD []))))
  | .byteArrays vs => some (withHeader f .lengthDelimited (serializeBytesList f (vs.map (·.getD []))))
  | .enums vs =>
    some (withHeader f .lengthDelimited (serializeListType .int64 (vs.map (·.signExtend 64))))
  | .messages vs => appendAll (serializeListObject rec f) vs
  | .map entries => appendAll (serializeMapEntry S qt rec f) entries
  | v => serializeSingle S qt rec f v

/-- mirrors src/protobuf/qprotobufserializer.cpp:81-97 -/
def serializeMessage : Nat → M → List (Value M) → Option Bytes
  | 0, _, _ => none
  | n + 1, m, fields =>
    appendAll (fun p => fields[p.2]? >>= serializeProperty S qt (serializeMessage n) p.1)
      (S m).propertyOrdering

end

/-! ## More levels -/

theorem appendAll_mono {α : Type} {f g : α → Option Bytes} {as : List α}
    (h : ∀ a ∈ as, ∀ r, f a = some r → g a = some r) {r : Bytes} (hr : appendAll f as = some r) :
    appendAll g as = some r := by
  induction as generalizing r with
  | nil => exact hr
  | cons a as ih =>
    simp only [appendAll, Option.bind_eq_bind, Option.bind_eq_some_iff, Option.pure_def,
      Option.some.injEq] at hr ⊢
    obtain ⟨x, hx, xs, hxs, hr⟩ := hr
    exact ⟨x, h a List.mem_cons_self x hx, xs,
      ih (fun a' ha' => h a' (List.mem_cons_of_mem a ha')) hxs, hr⟩

theorem appendAll_cons {α : Type} {f : α → Option Bytes} {a : α} {as : List α} {r : Bytes}
    (h : appendAll f (a :: as) = some r) :
    ∃ x xs, f a = some x ∧ appendAll f as = some xs ∧ r = x ++ xs := by
  simp only [appendAll, Option.bind_eq_bind, Option.bind_eq_some_iff, Option.pure_def,
    Option.some.injEq] at h
  obtain ⟨x, hx, xs, hxs, hr⟩ := h
  exact ⟨x, xs, hx, hxs, hr.symm⟩

section
variable {M : Type} {S : Schema M} {qt : QtCore} {rec rec' : M → List (Value M) → Option Bytes}

theorem serializeObject_mono (h : ∀ m fs r, rec m fs = some r → rec' m fs = some r) {f : Nat} {m : M}
    {fs : List (Value M)} {r : Bytes} (hr : serializeObject rec f m fs = some r) :
    serializeObject rec' f m fs = some r := by
  simp only [serializeObject, Option.bind_eq_bind, Option.bind_eq_some_iff] at hr ⊢
  obtain ⟨data, hd, hr⟩ := hr
  exact ⟨data, h m fs data hd, hr⟩

theorem serializeSingle_mono (h : ∀ m fs r, rec m fs = some r → rec' m fs = some r) {f : Nat}
    {v : Value M} {r : Bytes} (hr : serializeSingle S qt rec f v = some r) :
    serializeSingle S qt rec' f v = some r := by
  cases v with
  | unset m => exact serializeObject_mono h hr
  | object m fs => exact serializeObject_mono h hr
  | _ => exact hr

theorem serializeMapEntry_mono (h : ∀ m fs r, rec m fs = some r → rec' m fs = some r) {f : Nat}
    {e : Scalar × Value M} {r : Bytes} (hr : serializeMapEntry S qt rec f e = some r) :
    serializeMapEntry S qt rec' f e = some r := by
  obtain ⟨key, value⟩ := e
  have hpair : serializeMapPair S qt rec f key value = some r →
      serializeMapPair S qt rec' f key value = some r := by
    intro hp
    simp only [serializeMapPair, Option.bind_eq_bind, Option.bind_eq_some_iff] at hp ⊢
    obtain ⟨data, hd, hp⟩ := hp
    exact ⟨data, serializeSingle_mono h hd, hp⟩
  cases value with
  | unset m => exact hr
  | _ => exact hpair hr

theorem serializeProperty_mono (h : ∀ m fs r, rec m fs = some r → rec' m fs = some r) {f : Nat}
    {v : Value M} {r : Bytes} (hr : serializeProperty S qt rec f v = some r) :
    serializeProperty S qt rec' f v = some r := by
  cases v with
  | messages vs =>
    refine appendAll_mono (fun v _ r hv => ?_) hr
    cases v with
    | object m fs => exact serializeObject_mono h hv
    | _ => exact hv
  | map es => exact appendAll_mono (fun e _ r he => serializeMapEntry_mono h he) hr
  | unset m => exact serializeObject_mono h hr
  | object m fs => exact serializeObject_mono h hr
  | _ => exact hr

theorem serializeMessage_succ {n : Nat} {m : M} {fs : List (Value M)} {r : Bytes}
    (hr : serializeMessage S qt n m fs = some r) : serializeMessage S qt (n + 1) m fs = some r := by
  induction n generalizing m fs r with
  | zero => cases hr
  | succ n ih =>
    refine appendAll_mono (fun p _ r hp => ?_) hr
    simp only [Option.bind_eq_bind, Option.bind_eq_some_iff] at hp ⊢
    obtain ⟨v, hv, hp⟩ := hp
    exact ⟨v, hv, serializeProperty_mono (fun m fs r => ih) hp⟩

/-- **More levels.** The result does not depend on their number. -/
theorem serializeMessage_mono {n n' : Nat} (hn : n ≤ n') {m : M} {fs : List (Value M)} {r : Bytes}
    (hr : serializeMessage S qt n m fs = some r) : serializeMessage S qt n' m fs = some r := by
  induction hn with
  | refl => exact hr
  | step _ ih => exact serializeMessage_succ ih

/-! ## Every value has an encoding -/

/-- With enough levels `v` is serialized under any number. -/
def Serializes (S : Schema M) (qt : QtCore) (v : Value M) : Prop :=
  ∃ n, ∀ f, ∃ r, serializeProperty S qt (serializeMessage S qt n) f v = some r

theorem Serializes.mono {v : Value M} {n n' : Nat} (hn : n ≤ n')
    (h : ∀ f, ∃ r, serializeProperty S qt (serializeMessage S qt n) f v = some r) (f : Nat) :
    ∃ r, serializeProperty S qt (serializeMessage S qt n') f v = some r := by
  obtain ⟨r, hr⟩ := h f
  exact ⟨r, serializeProperty_mono (fun m fs r => serializeMessage_mono hn) hr⟩

theorem appendAll_total {α : Type} {f : α → Option Bytes} {as : List α}
    (h : ∀ a ∈ as, ∃ r, f a = some r) : ∃ r, appendAll f as = some r := by
  induction as with
  | nil => exact ⟨[], rfl⟩
  | cons a as ih =>
    obtain ⟨x, hx⟩ := h a List.mem_cons_self
    obtain ⟨xs, hxs⟩ := ih fun a' ha' => h a' (List.mem_cons_of_mem a ha')
    exact ⟨x ++ xs, by simp only [appendAll, hx, hxs]; rfl⟩

/-- One number of levels for all the values of a list. -/
theorem Serializes.all {vs : List (Value M)} (h : ∀ v ∈ vs, Serializes S qt v) :
    ∃ n, ∀ v ∈ vs, ∀ f, ∃ r, serializeProperty S qt (serializeMessage S qt n) f v = some r := by
  induction vs with
  | nil => exact ⟨0, fun v hv => absurd hv List.not_mem_nil⟩
  | cons v vs ih =>
    obtain ⟨n, hn⟩ := h v List.mem_cons_self
    obtain ⟨n', hn'⟩ := ih fun v' hv' => h v' (List.mem_cons_of_mem v hv')
    refine ⟨max n n', fun v' hv' => ?_⟩
    cases List.mem_cons.mp hv' with
    | inl he => exact he ▸ Serializes.mono (Nat.le_max_left n n') hn
    | inr he => exact Serializes.mono (Nat.le_max_right n n') (hn' v' he)

/-- Each property index in the ordering has a property. -/
theorem MetaObject.index_lt (o : MetaObject M) {p : Nat × Nat} (hp : p ∈ o.propertyOrdering) :
    p.2 < o.properties.length :=
  List.mem_range.mp (o.indices.mem_iff.mp (List.mem_map_of_mem hp))

/-- Every property has a place in the enumeration. -/
theorem MetaObject.mem_ordering (o : MetaObject M) {i : Nat} (hi : i < o.properties.length) :
    ∃ p ∈ o.propertyOrdering, p.2 = i :=
  List.mem_map.mp (o.indices.mem_iff.mpr (List.mem_range.mpr hi))

theorem serializeMessage_of_fields {m : M} {fs : List (Value M)}
    (hl : fs.length = (S m).properties.length) (h : ∀ v ∈ fs, Serializes S qt v) :
    ∃ n r, serializeMessage S qt n m fs = some r := by
  obtain ⟨n, hn⟩ := Serializes.all h
  refine ⟨n + 1, appendAll_total fun p hp => ?_⟩
  have hi : p.2 < fs.length := hl ▸ (S m).index_lt hp
  obtain ⟨r, hr⟩ := hn fs[p.2] (List.getElem_mem hi) p.1
  exact ⟨r, by rw [List.getElem?_eq_getElem hi]; exact hr⟩

theorem serializes_object {m : M} {fs : List (Value M)}
    (h : ∃ n r, serializeMessage S qt n m fs = some r) : Serializes S qt (.object m fs) := by
  obtain ⟨n, r, hr⟩ := h
  exact ⟨n, fun f => ⟨_, by simp only [serializeProperty, serializeSingle, serializeObject, hr]; rfl⟩⟩

theorem serializes_unset {m : M} (h : ∃ n r, serializeMessage S qt n m (newObject S m) = some r) :
    Serializes S qt (.unset m) := by
  obtain ⟨n, r, hr⟩ := h
  exact ⟨n, fun f => ⟨_, by simp only [serializeProperty, serializeSingle, serializeObject, hr]; rfl⟩⟩

/-- A default value is serialized if the message it stands for is. -/
theorem serializes_default {t : FieldType M}
    (h : ∀ m, t = .single (.message m) → Serializes S qt (.unset m)) : Serializes S qt t.default := by
  cases t with
  | single t =>
    cases t with
    | scalar t => exact ⟨0, fun f => ⟨_, rfl⟩⟩
    | enum => exact ⟨0, fun f => ⟨_, rfl⟩⟩
    | message m => exact h m rfl
  | _ => exact ⟨0, fun f => ⟨_, rfl⟩⟩

/-- Without a cycle, every message type has an encoding of its default value. -/
theorem serializes_newObject [Finite M] (h : Acyclic S) (m : M) :
    ∃ n r, serializeMessage S qt n m (newObject S m) = some r := by
  have hwf : WellFounded (Relation.TransGen (Contains S)) :=
    have : Std.Irrefl (Relation.TransGen (Contains S)) := ⟨h⟩
    Finite.wellFounded_of_trans_of_irrefl _
  induction m using hwf.induction with
  | _ m ih =>
    refine serializeMessage_of_fields (List.length_map _) fun v hv => ?_
    obtain ⟨t, ht, rfl⟩ := List.mem_map.mp hv
    refine serializes_default fun m' hm' => serializes_unset (ih m' (.single ?_))
    show _ ∈ _
    rw [← hm']
    exact ht

theorem Typed.serializes [Finite M] (h : Acyclic S) {t : FieldType M} {v : Value M}
    (hv : Typed S qt t v) : Serializes S qt v := by
  induction hv with
  | unset m => exact serializes_unset (serializes_newObject h m)
  | object m hl _ ih =>
    refine serializes_object (serializeMessage_of_fields hl fun v hv => ?_)
    obtain ⟨i, hi⟩ := List.mem_iff_getElem?.mp hv
    have hlt : i < (S m).properties.length := hl ▸ (List.getElem?_eq_some_iff.mp hi).1
    exact ih i _ v (List.getElem?_eq_getElem hlt) hi
  | messages hset _ ih =>
    obtain ⟨n, hn⟩ := Serializes.all ih
    refine ⟨n, fun f => appendAll_total fun v hv => ?_⟩
    obtain ⟨fs, rfl⟩ := hset v hv
    exact hn _ hv f
  | @map kt vt es _ hv hset _ ih =>
    have hall : ∀ v ∈ es.map Prod.snd, Serializes S qt v := fun v hv => by
      obtain ⟨e, he, rfl⟩ := List.mem_map.mp hv
      exact ih e he
    obtain ⟨n, hn⟩ := Serializes.all hall
    refine ⟨n, fun f => appendAll_total fun e he => ?_⟩
    obtain ⟨key, value⟩ := e
    obtain ⟨r, hr⟩ := hn value (List.mem_map_of_mem he) 2
    have ht := hv (key, value) he
    have hs := hset (key, value) he
    cases ht with
    | scalar hk => exact ⟨_, rfl⟩
    | enum v => exact ⟨_, rfl⟩
    | unset m => exact absurd rfl (hs m)
    | object m hl _ =>
      have hr : serializeSingle S qt (serializeMessage S qt n) 2 (.object m _) = some r := hr
      exact ⟨_, by simp only [serializeMapEntry, serializeMapPair, hr]; rfl⟩
  | _ => exact ⟨0, fun f => ⟨_, rfl⟩⟩

/-- **Totality.** Every value of an acyclic schema is serialized. -/
theorem serializeMessage_total [Finite M] (h : Acyclic S) {m : M} {fs : List (Value M)}
    (hv : Typed S qt (.single (.message m)) (.object m fs)) :
    ∃ n r, serializeMessage S qt n m fs = some r := by
  obtain ⟨n, hn⟩ := hv.serializes h
  obtain ⟨r, hr⟩ := hn 1
  simp only [serializeProperty, serializeSingle, serializeObject, Option.bind_eq_bind,
    Option.bind_eq_some_iff] at hr
  obtain ⟨data, hd, _⟩ := hr
  exact ⟨n, data, hd⟩

end

end QtProtobuf.Codec
