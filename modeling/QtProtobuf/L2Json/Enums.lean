import QtProtobuf.L2Json.Scanner
import Mathlib.Data.List.Nodup

/-!
# Enum values (`protobuf/qprotobufjsonserializer.cpp:479-518`)

`serializeEnum` writes the name that `QMetaEnum::key` has at the index `value`,
`deserializeEnum` looks the name up with `QMetaEnum::keyToValue`. In a list the
name `null` stands for the first enumerator.

* `enumRoundTrip_iff`: a declared value comes back if and only if it stands at
  its own index, or is -1; one `null` that stands elsewhere does not, in a list.
-/
namespace QtProtobuf.Json

open Lib.Json

/-! ## Enum types -/

def isIdentifierChar (c : UInt8) : Bool :=
  isDigit c || (0x41 ≤ c && c ≤ 0x5a) || (0x61 ≤ c && c ≤ 0x7a) || c == 0x5f

/-- The names and values of an enum, in the order of the declaration. -/
structure MetaEnum where
  enumerators : List (Bytes × BitVec 32)
  names : (enumerators.map Prod.fst).Nodup
  values : (enumerators.map Prod.snd).Nodup
  identifiers : ∀ e ∈ enumerators, e.1 ≠ [] ∧ ∀ c ∈ e.1, isIdentifierChar c = true

namespace MetaEnum

variable (e : MetaEnum)

/-- `QMetaEnum::key` -/
def key (index : Int) : Option Bytes :=
  if 0 ≤ index then (e.enumerators[index.toNat]?).map Prod.fst else none

/-- `QMetaEnum::value` -/
def value (index : Nat) : Int :=
  match e.enumerators[index]? with
  | some enumerator => enumerator.2.toInt
  | none => -1

/-- `QMetaEnum::keyToValue` -/
def keyToValue (key : Bytes) : Int :=
  match e.enumerators.find? (·.1 == key) with
  | some enumerator => enumerator.2.toInt
  | none => -1

end MetaEnum

/-! ## The serializer -/

/-- An array: `,` is appended to each of the texts, and the last one taken off. -/
def bracketed (texts : List Bytes) : Bytes :=
  let result := openBracket :: texts.flatMap (· ++ [comma])
  (if texts.length > 0 then result.dropLast else result) ++ [closeBracket]

def quoted (text : Bytes) : Bytes := quote :: (text ++ [quote])

/-- What is appended for a `const char *`, which may be null. -/
def keyText (e : MetaEnum) (value : BitVec 64) : Bytes := (e.key (value.setWidth 32).toInt).getD []

/-- mirrors src/protobuf/qprotobufjsonserializer.cpp:479-482 -/
def serializeEnum (e : MetaEnum) (value : BitVec 64) : Bytes := quoted (keyText e value)

/-- mirrors src/protobuf/qprotobufjsonserializer.cpp:484-497 -/
def serializeEnumList (e : MetaEnum) (values : List (BitVec 64)) : Bytes :=
  bracketed (values.map fun value => quoted (keyText e value))

/-- mirrors src/protobuf/qprotobufjsonserializer.cpp:499-503 -/
def deserializeEnum (e : MetaEnum) (data : Bytes) : BitVec 64 := BitVec.ofInt 64 (e.keyToValue data)

/-- `"null"` -/
def nullText : Bytes := [0x6e, 0x75, 0x6c, 0x6c]

/-- mirrors src/protobuf/qprotobufjsonserializer.cpp:505-518 -/
def deserializeEnumList (mj : MicroJson) (e : MetaEnum) (data : Bytes) : List (BitVec 64) :=
  (mj.parseJsonArray data).map fun arrayValue =>
    BitVec.ofInt 64 (if arrayValue.value = nullText then e.value 0 else e.keyToValue arrayValue.value)

theorem bracketed_eq (texts : List Bytes) :
    bracketed texts = openBracket :: (commas texts ++ [closeBracket]) := by
  unfold bracketed
  by_cases h : texts = []
  · simp [h, commas]
  · rw [commas_concat h]
    show (if texts.length > 0 then _ else _) ++ _ = _
    rw [if_pos (List.length_pos_iff.mpr h), ← List.cons_append, List.dropLast_concat]
    rfl

/-! ## Names -/

theorem isPlain_of_isIdentifierChar {c : UInt8} (h : isIdentifierChar c = true) : isPlain c = true := by
  simp only [isIdentifierChar, isDigit, Bool.or_eq_true, Bool.and_eq_true, decide_eq_true_eq,
    beq_iff_eq, UInt8.le_iff_toNat_le] at h
  simp only [isPlain, Bool.and_eq_true, decide_eq_true_eq, bne_iff_ne, ne_eq,
    UInt8.le_iff_toNat_le, UInt8.lt_iff_toNat_lt, ← UInt8.toNat_inj, quote, backslash,
    UInt8.reduceToNat] at h ⊢
  omega

theorem keyText_chars (e : MetaEnum) (value : BitVec 64) : Chars (keyText e value) := by
  refine Chars.of_plain fun c hc => ?_
  unfold keyText MetaEnum.key at hc
  split at hc
  · cases hget : e.enumerators[(value.setWidth 32).toInt.toNat]? with
    | none =>
      rw [hget] at hc
      simp at hc
    | some enumerator =>
      rw [hget] at hc
      have hid := (e.identifiers enumerator (List.mem_of_getElem? hget)).2
      exact isPlain_of_isIdentifierChar (hid c (by simpa using hc))
  · simp at hc

/-- The array that is written, as a parser sees it. -/
theorem serializeEnumList_isArray (e : MetaEnum) (values : List (BitVec 64)) :
    IsArray (serializeEnumList e values)
      ((values.map fun value => (⟨.string, keyText e value⟩ : RawValue)).map Element.bare) := by
  have hitems : ∀ i ∈ values.map fun value => (⟨.string, keyText e value⟩ : RawValue), IsValue i := by
    intro i hi
    obtain ⟨value, -, rfl⟩ := List.mem_map.mp hi
    exact .string (keyText_chars e value)
  have := IsArray.bare hitems
  rw [serializeEnumList, bracketed_eq]
  simpa [RawValue.text, quoted, Function.comp_def] using this

/-! ## The two look-ups -/

variable {e : MetaEnum} {v : BitVec 32}

theorem MetaEnum.keyToValue_of_mem {enumerator : Bytes × BitVec 32} (h : enumerator ∈ e.enumerators) :
    e.keyToValue enumerator.1 = enumerator.2.toInt := by
  have hsome : (e.enumerators.find? (·.1 == enumerator.1)).isSome := by
    rw [List.find?_isSome]
    exact ⟨enumerator, h, by simp⟩
  obtain ⟨found, hfound⟩ := Option.isSome_iff_exists.mp hsome
  have hmem := List.mem_of_find?_eq_some hfound
  have hname : found.1 = enumerator.1 := by simpa using List.find?_some hfound
  have : found = enumerator := List.inj_on_of_nodup_map e.names hmem h hname
  rw [keyToValue, hfound, this]

theorem MetaEnum.keyToValue_nil : e.keyToValue [] = -1 := by
  have : e.enumerators.find? (·.1 == []) = none := by
    rw [List.find?_eq_none]
    intro enumerator h
    simpa using (e.identifiers enumerator h).1
  rw [keyToValue, this]

/-- What `key` finds at the index `v`: nothing out of range. -/
theorem MetaEnum.key_cases (e : MetaEnum) (v : BitVec 32) :
    (keyText e (v.signExtend 64) = [] ∧ e.key v.toInt = none) ∨
      ∃ enumerator, 0 ≤ v.toInt ∧ e.enumerators[v.toInt.toNat]? = some enumerator ∧
        keyText e (v.signExtend 64) = enumerator.1 := by
  rw [keyText, setWidth_signExtend]
  by_cases hneg : 0 ≤ v.toInt
  · cases hget : e.enumerators[v.toInt.toNat]? with
    | none => exact .inl (by simp [key, hneg, hget])
    | some enumerator => exact .inr ⟨enumerator, hneg, rfl, by simp [key, hneg, hget]⟩
  · exact .inl (by simp [key, hneg])

theorem ofInt_toInt_eq (v w : BitVec 32) : BitVec.ofInt 64 w.toInt = v.signExtend 64 ↔ w = v := by
  constructor
  · intro h
    rw [← setWidth_signExtend v, ← h]
    exact (setWidth_signExtend w).symm
  · rintro rfl
    rfl

theorem neg_one_eq (v : BitVec 32) : BitVec.ofInt 64 (-1) = v.signExtend 64 ↔ v = -1 :=
  (ofInt_toInt_eq v (-1)).trans eq_comm

/-! ## The round trip -/

/-- The name that is written for `v` gives `v` back. -/
def EnumRoundTrip (e : MetaEnum) (v : BitVec 32) : Prop :=
  ∃ name, serializeEnum e (v.signExtend 64) = quoted name ∧ deserializeEnum e name = v.signExtend 64

def EnumListRoundTrip (mj : MicroJson) (e : MetaEnum) (vs : List (BitVec 32)) : Prop :=
  deserializeEnumList mj e (serializeEnumList e (vs.map (·.signExtend 64))) = vs.map (·.signExtend 64)

namespace MetaEnum

/-- `v` stands at its own index, or is -1, which no index is. -/
def AtOwnIndex (e : MetaEnum) (v : BitVec 32) : Prop :=
  v = -1 ∨ 0 ≤ v.toInt ∧ ∃ name, e.enumerators[v.toInt.toNat]? = some (name, v)

/-- The same in a list, where `null` is the name of the first enumerator. -/
def AtOwnIndexInList (e : MetaEnum) (v : BitVec 32) : Prop :=
  v = -1 ∨ 0 ≤ v.toInt ∧ ∃ name w, e.enumerators[v.toInt.toNat]? = some (name, w) ∧
    (if name = nullText then e.value 0 = v.toInt else w = v)

end MetaEnum

theorem quoted_inj {a b : Bytes} (h : quoted a = quoted b) : a = b :=
  List.append_cancel_right (List.cons.inj h).2

/-- A value of the enum is never what an unknown name yields, but for -1. -/
theorem enumRoundTrip_one (e : MetaEnum) (v : BitVec 32) : EnumRoundTrip e v ↔ e.AtOwnIndex v := by
  have hiff : EnumRoundTrip e v ↔ deserializeEnum e (keyText e (v.signExtend 64)) = v.signExtend 64 :=
    ⟨fun ⟨name, hs, hd⟩ => quoted_inj hs ▸ hd, fun h => ⟨_, rfl, h⟩⟩
  rw [hiff, deserializeEnum]
  rcases e.key_cases v with ⟨htext, hkey⟩ | ⟨⟨name, w⟩, hpos, hget, htext⟩
  · rw [htext, e.keyToValue_nil, neg_one_eq]
    refine ⟨.inl, fun h => h.resolve_right fun ⟨hpos, name, hget⟩ => ?_⟩
    simp [MetaEnum.key, hpos, hget] at hkey
  · rw [htext, e.keyToValue_of_mem (List.mem_of_getElem? hget), ofInt_toInt_eq]
    have hne : v ≠ -1 := by
      rintro rfl
      exact absurd hpos (by decide)
    rw [MetaEnum.AtOwnIndex, or_iff_right hne]
    simp [hpos, hget]

theorem deserializeEnumList_eq {mj : MicroJson} (hp : mj.Parses) (e : MetaEnum)
    (values : List (BitVec 64)) :
    deserializeEnumList mj e (serializeEnumList e values) = values.map fun value =>
      BitVec.ofInt 64
        (if keyText e value = nullText then e.value 0 else e.keyToValue (keyText e value)) := by
  rw [deserializeEnumList, hp.array _ _ (serializeEnumList_isArray e values)]
  simp [Function.comp_def, reportElement, reportValue, Element.bare]

/-- One element of a list. -/
theorem enumElement_iff (e : MetaEnum) (v : BitVec 32) :
    BitVec.ofInt 64 (if keyText e (v.signExtend 64) = nullText then e.value 0
        else e.keyToValue (keyText e (v.signExtend 64))) = v.signExtend 64 ↔ e.AtOwnIndexInList v := by
  rcases e.key_cases v with ⟨htext, hkey⟩ | ⟨⟨name, w⟩, hpos, hget, htext⟩
  · rw [htext, if_neg (by decide), e.keyToValue_nil, neg_one_eq]
    refine ⟨.inl, fun h => h.resolve_right fun ⟨hpos, name, w, hget, _⟩ => ?_⟩
    simp [MetaEnum.key, hpos, hget] at hkey
  · have hne : v ≠ -1 := by
      rintro rfl
      exact absurd hpos (by decide)
    have hfirst : ∃ first, e.enumerators[0]? = some first := by
      have := (List.getElem?_eq_some_iff.mp hget).1
      exact ⟨_, List.getElem?_eq_getElem (Nat.zero_lt_of_lt this)⟩
    obtain ⟨first, hfirst⟩ := hfirst
    rw [htext]
    by_cases hnull : name = nullText
    · rw [if_pos hnull, MetaEnum.AtOwnIndexInList, or_iff_right hne]
      simp [MetaEnum.value, hfirst, ofInt_toInt_eq, hpos, hget, hnull, BitVec.toInt_inj]
    · rw [if_neg hnull, e.keyToValue_of_mem (List.mem_of_getElem? hget), ofInt_toInt_eq,
        MetaEnum.AtOwnIndexInList, or_iff_right hne]
      simp [hpos, hget, hnull]

/-- **Enum values in JSON.** -/
theorem enumRoundTrip_iff {mj : MicroJson} (hp : mj.Parses) (e : MetaEnum) :
    (∀ v, EnumRoundTrip e v ↔ e.AtOwnIndex v) ∧
      ∀ vs, EnumListRoundTrip mj e vs ↔ ∀ v ∈ vs, e.AtOwnIndexInList v := by
  refine ⟨enumRoundTrip_one e, fun vs => ?_⟩
  rw [EnumListRoundTrip, deserializeEnumList_eq hp, List.map_map, List.map_inj_left]
  exact forall₂_congr fun v _ => enumElement_iff e v

/-- `enum Level { LOW = 0; HIGH = value; }` -/
def levels (value : BitVec 32) (h : value ≠ 0) : MetaEnum where
  enumerators := [([0x4c, 0x4f, 0x57], 0), ([0x48, 0x49, 0x47, 0x48], value)]
  names := by simp
  values := by simpa using h.symm
  identifiers := by
    intro e he
    simp only [List.mem_cons, List.not_mem_nil, or_false] at he
    rcases he with rfl | rfl <;> exact ⟨by simp, List.all_eq_true.mp rfl⟩

theorem levels_high : (1 : BitVec 32) ≠ 0 := by decide

/-- Both values at their own index. -/
def denseLevels : MetaEnum := levels 1 levels_high

theorem enumRoundTrip_levels :
    EnumRoundTrip denseLevels 1 ∧ EnumListRoundTrip scanner denseLevels [1, 0, 1] :=
  ⟨((enumRoundTrip_iff scanner_parses _).1 1).mpr (.inr ⟨by decide, _, rfl⟩),
    ((enumRoundTrip_iff scanner_parses _).2 _).mpr (by
      intro v hv
      simp only [List.mem_cons, List.not_mem_nil, or_false] at hv
      rcases hv with rfl | rfl | rfl <;> exact .inr ⟨by decide, _, _, rfl, by decide⟩)⟩

/-- With `HIGH = 5` there is no name at the index 5. -/
theorem not_enumRoundTrip_sparse :
    5 ∈ (levels 5 (by decide)).enumerators.map Prod.snd ∧ ¬ EnumRoundTrip (levels 5 (by decide)) 5 := by
  refine ⟨by simp [levels], fun ⟨name, hs, hd⟩ => ?_⟩
  have hname : name = [] := (quoted_inj hs).symm
  rw [hname] at hd
  revert hd
  decide

end QtProtobuf.Json
