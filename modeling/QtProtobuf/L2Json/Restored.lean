import QtProtobuf.L2Codec.Decoded
import QtProtobuf.L2Json.HandlerRuns
import QtProtobuf.L2Json.Integers
import QtProtobuf.L2Json.WellFormed
import Mathlib.Algebra.Order.BigOperators.Group.List
import Mathlib.Data.List.Perm.Subperm

/-!
# What comes back for a single value

What the handlers of scalars, enums and map keys read from the texts that are
written for them. A quote is never escaped, but `\"` is read as a quote; a key is
read as a string, and a `bool` is not read from one; the name of an enum value is
looked up by index.

* `toIntegral_decimalInt`: an integer comes back.
* `replaceQuotes_cases`: a string comes back, or it is shorter.
* `exists_scalar`, `deserializeScalar_key`, `exists_enum`: the readers on what is
  written.
-/
namespace QtProtobuf.Json

open Lib.Json Codec

/-! ## Integers -/

theorem splitSign_decimal (n : Nat) : splitSign (decimal n) = (false, decimal n) := by
  obtain ⟨c, s, hcs, hc⟩ : ∃ c s, decimal n = c :: s ∧ isDigit c = true := by
    have hall := decimal_isDigit n
    cases hd : decimal n with
    | nil =>
      have := intPart_decimal n
      rw [hd] at this
      cases this
    | cons c s => exact ⟨c, s, rfl, hall c (hd ▸ List.mem_cons_self)⟩
  have hm : c ≠ minus := by
    rintro rfl
    cases hc
  have hp : c ≠ 0x2b := by
    rintro rfl
    cases hc
  rw [hcs, splitSign, if_neg hm, if_neg hp]

/-- The whole text of an integer is converted, if the type has it. -/
theorem toIntegral_decimalInt {signed : Bool} {width : Nat} {n : Int} (h : InRange signed width n) :
    toIntegral signed width (decimalInt n) = (n, true) := by
  have htrim := trimmed_of_no_spaces fun c hc =>
    isAsciiSpace_of_isNumberChar ((number_decimalInt n).chars.1 c hc)
  have hne : ∀ k, decimal k ≠ [] := fun k he => by
    have := intPart_decimal k
    rw [he] at this
    cases this
  have hall : ∀ k, (decimal k).all isDigit = true := fun k => List.all_eq_true.mpr (decimal_isDigit k)
  have hdef : toIntegral signed width (decimalInt n) =
      if (splitSign (decimalInt n)).2 ≠ [] ∧ (splitSign (decimalInt n)).2.all isDigit ∧
        (signed ∨ !(splitSign (decimalInt n)).1) ∧
        InRange signed width
          (signedValue (splitSign (decimalInt n)).1 (ofDecimal (splitSign (decimalInt n)).2)) then
        (signedValue (splitSign (decimalInt n)).1 (ofDecimal (splitSign (decimalInt n)).2), true)
      else (0, false) := by
    rw [toIntegral, htrim]
  rw [hdef]
  cases n with
  | ofNat k =>
    have hsplit : splitSign (decimalInt (.ofNat k)) = (false, decimal k) := splitSign_decimal k
    have hvalue : signedValue false (ofDecimal (decimal k)) = .ofNat k := by
      rw [ofDecimal_decimal]
      rfl
    rw [hsplit, hvalue, if_pos ⟨hne k, hall k, .inr rfl, h⟩]
  | negSucc k =>
    have hsplit : splitSign (decimalInt (.negSucc k)) = (true, decimal (k + 1)) := rfl
    have hvalue : signedValue true (ofDecimal (decimal (k + 1))) = .negSucc k := by
      rw [ofDecimal_decimal]
      rfl
    have hsigned : signed = true := by
      cases signed with
      | true => rfl
      | false => exact absurd h.1 (by omega)
    rw [hsplit]
    show (if decimal (k + 1) ≠ [] ∧ (decimal (k + 1)).all isDigit ∧ (signed ∨ !true) ∧
      InRange signed width (signedValue true (ofDecimal (decimal (k + 1)))) then
        (signedValue true (ofDecimal (decimal (k + 1))), true) else (0, false)) = _
    rw [hvalue, if_pos ⟨hne _, hall _, .inl hsigned, h⟩]

theorem inRange_toInteger (t : NumType) (v : BitVec t.width) :
    InRange t.signed t.width (toInteger t v) := by
  unfold InRange toInteger
  by_cases hs : t.signed = true
  · rw [if_pos hs, if_pos hs]
    exact ⟨BitVec.le_toInt v, BitVec.toInt_lt⟩
  · rw [if_neg hs, if_neg hs]
    exact ⟨Int.natCast_nonneg _, by exact_mod_cast v.isLt⟩

theorem ofInt_toInteger (t : NumType) (v : BitVec t.width) : BitVec.ofInt t.width (toInteger t v) = v := by
  unfold toInteger
  split
  · exact BitVec.ofInt_toInt
  · rw [BitVec.ofInt_natCast, BitVec.ofNat_toNat, BitVec.setWidth_eq]

theorem deserializeNum_decimal (qt : QtJson) {t : NumType} (hint : t.infinity = none)
    (v : BitVec t.width) (type : JsonType) :
    deserializeNum qt t (decimalInt (toInteger t v)) type = (some v, true) := by
  rw [deserializeNum_integer qt hint, deserializeIntegral,
    toIntegral_decimalInt (inRange_toInteger t v), stored, ofInt_toInteger]
  rfl

/-! ## Strings -/

/-- `\"` -/
def escapedQuote : List UInt16 := [0x5c, 0x22]

/-- A string without `\"` stays, any other gets shorter. -/
theorem replaceQuotes_cases (s : List UInt16) :
    ¬ escapedQuote <:+: s ∧ replaceQuotes s = s ∨
      escapedQuote <:+: s ∧ (replaceQuotes s).length < s.length := by
  induction s using replaceQuotes.induct with
  | case1 => exact .inl ⟨by simp [escapedQuote], rfl⟩
  | case2 c => exact .inl ⟨by simp [escapedQuote, List.infix_cons_iff], rfl⟩
  | case3 c d s hcd ih =>
    obtain ⟨rfl, rfl⟩ := hcd
    refine .inr ⟨⟨[], s, rfl⟩, ?_⟩
    have hdef : replaceQuotes (0x5c :: 0x22 :: s) = 0x22 :: replaceQuotes s := rfl
    have hle : (replaceQuotes s).length ≤ s.length := by
      rcases ih with ⟨-, h⟩ | ⟨-, h⟩
      · rw [h]
      · exact Nat.le_of_lt h
    rw [hdef]
    simp only [List.length_cons]
    omega
  | case4 c d s hne ih =>
    have hdef : replaceQuotes (c :: d :: s) = c :: replaceQuotes (d :: s) := by
      rw [replaceQuotes, if_neg hne]
    have hinfix : escapedQuote <:+: c :: d :: s ↔ escapedQuote <:+: d :: s := by
      rw [List.infix_cons_iff]
      refine or_iff_right fun h => hne ?_
      simp only [escapedQuote, List.cons_prefix_cons] at h
      exact ⟨h.1.symm, h.2.1.symm⟩
    rw [hdef, hinfix]
    rcases ih with ⟨hno, h⟩ | ⟨hyes, h⟩
    · exact .inl ⟨hno, by rw [h]⟩
    · exact .inr ⟨hyes, by simpa using h⟩

theorem replaceQuotes_iff (s : List UInt16) : s = replaceQuotes s ↔ ¬ escapedQuote <:+: s := by
  rcases replaceQuotes_cases s with ⟨hno, h⟩ | ⟨hyes, h⟩
  · simp [hno, h]
  · refine iff_of_false (fun he => ?_) (not_not.mpr hyes)
    rw [← he] at h
    exact Nat.lt_irrefl _ h

/-! ## Scalars -/

/-- A scalar type without a floating-point number. -/
def Whole : ScalarType → Prop
  | .num t => t.infinity = none
  | _ => True

/-- What is read for a scalar, and for the key of a map. -/
def readScalar : Scalar → Scalar
  | .string s => .string (some (replaceQuotes (s.getD [])))
  | v => v

def readKey : Scalar → Scalar
  | .bool _ => .bool false
  | v => readScalar v

def ScalarRestored (v : Scalar) : Prop := ∀ s, v = .string s → ¬ escapedQuote <:+: s.getD []

/-- A key that is no `true` either. -/
def KeyRestored (k : Scalar) : Prop := ScalarRestored k ∧ k ≠ .bool true

theorem readScalar_iff (v : Scalar) : v.text = (readScalar v).text ↔ ScalarRestored v := by
  unfold ScalarRestored
  cases v with
  | string s => simp [readScalar, Scalar.text, replaceQuotes_iff]
  | _ => simp [readScalar]

/-- The length of a string, and 1 for `true`. -/
def keySize : Scalar → Nat
  | .bool b => b.toNat
  | .string s => (s.getD []).length
  | _ => 0

/-- A key comes back, or it gets smaller. -/
theorem readKey_cases (k : Scalar) :
    KeyRestored k ∧ (readKey k).text = k.text ∨ ¬ KeyRestored k ∧ keySize (readKey k) < keySize k := by
  cases k with
  | bool b =>
    cases b with
    | false => exact .inl ⟨⟨fun s h => (by cases h), by simp⟩, rfl⟩
    | true => exact .inr ⟨fun h => h.2 rfl, by simp [readKey, keySize]⟩
  | string s =>
    rcases replaceQuotes_cases (s.getD []) with ⟨hno, h⟩ | ⟨hyes, h⟩
    · refine .inl ⟨⟨fun s' hs => ?_, by simp⟩, by simp [readKey, readScalar, Scalar.text, h]⟩
      cases hs
      exact hno
    · exact .inr ⟨fun hk => hk.1 s rfl hyes, by simpa [readKey, readScalar, keySize] using h⟩
  | num t v => exact .inl ⟨⟨fun s h => (by cases h), by simp⟩, rfl⟩
  | bytes s => exact .inl ⟨⟨fun s h => (by cases h), by simp⟩, rfl⟩

theorem keySize_text (k : Scalar) : keySize k.text = keySize k := by cases k <;> rfl

section
variable {qt : QtJson}

/-- The value that is written for a scalar, and what is read from it. -/
theorem exists_scalar {v : Scalar} (hw : Whole v.type) (hk : v.Kept qt.toQtCore)
    (hs : ∀ s, v = .string s → Chars (qt.toUtf8 (s.getD []))) :
    ∃ i w, IsValue i ∧ i.kind ≠ .null ∧ serializeScalar qt v = i.text ∧
      deserializeScalar qt v.type i.raw (jsonType i.kind) = (some w, true) ∧
      (v.text = w.text ↔ ScalarRestored v) := by
  cases v with
  | num t v =>
    refine ⟨⟨.number, decimalInt (toInteger t v)⟩, _, .number (number_decimalInt _), by simp,
      (integerTexts qt hw v).2.2, ?_, readScalar_iff _⟩
    show Prod.map _ _ (deserializeNum qt t (decimalInt (toInteger t v)) .number) = _
    rw [deserializeNum_decimal qt hw]
    rfl
  | bool b =>
    refine ⟨.bool b, _, .bool b, by simp [RawValue.bool], rfl, ?_, readScalar_iff _⟩
    cases b <;> rfl
  | string s =>
    refine ⟨⟨.string, qt.toUtf8 (s.getD [])⟩, _, .string (hs s rfl), by simp,
      serializeScalar_string qt s, ?_, readScalar_iff _⟩
    have hsurvives : qt.fromUtf8 (qt.toUtf8 (s.getD [])) = s.getD [] := hk
    simp [Scalar.type, deserializeScalar, deserializeString, jsonType, hsurvives, readScalar]
  | bytes s =>
    refine ⟨⟨.string, Lib.Base64.encode (s.getD [])⟩, .bytes (some (s.getD [])),
      .string (chars_base64 _), by simp, rfl, ?_, ?_⟩
    · simp [Scalar.type, deserializeScalar, deserializeByteArray, jsonType, Lib.Base64.decode_encode]
    · simp [Scalar.text, ScalarRestored]

/-- What is read for a key. -/
theorem deserializeScalar_key {k : Scalar} (hw : Whole k.type) (hbytes : k.type ≠ .bytes)
    (hk : k.Kept qt.toQtCore) :
    orDefault k.type.default (deserializeScalar qt k.type (variantText qt k) .string) = readKey k := by
  cases k with
  | num t v =>
    have hread : deserializeScalar qt (.num t) (variantText qt (.num t v)) .string =
        (some (.num t v), true) := by
      rw [(integerTexts qt hw v).2.1]
      show Prod.map _ _ (deserializeNum qt t (decimalInt (toInteger t v)) .string) = _
      rw [deserializeNum_decimal qt hw]
      rfl
    show orDefault _ (deserializeScalar qt (.num t) (variantText qt (.num t v)) .string) = _
    rw [hread]
    rfl
  | bool b => rfl
  | string s =>
    have hsurvives : qt.fromUtf8 (qt.toUtf8 (s.getD [])) = s.getD [] := hk
    simp [Scalar.type, deserializeScalar, deserializeString, variantText, hsurvives, readKey,
      readScalar, orDefault]
  | bytes s => exact absurd rfl hbytes

end

/-! ## Enum values -/

namespace MetaEnum

/-- A value at its own index; 0 also if there are no names at all. -/
def Named (e : MetaEnum) (v : BitVec 32) : Prop :=
  v = 0 ∧ e.enumerators = [] ∨ 0 ≤ v.toInt ∧ ∃ name, e.enumerators[v.toInt.toNat]? = some (name, v)

end MetaEnum

/-- What the handler leaves for the name of a value: 0 if there is none. -/
theorem exists_enum {M : Type} (e : MetaEnum) (v : BitVec 32) : ∃ w : BitVec 32,
    (∀ ok, ∃ r, runHandler (M := M) (enumRound e) ok (keyText e (v.signExtend 64)) = some r ∧
      orDefault (.enum 0) r = .enum w) ∧ (v = w ↔ e.Named v) := by
  rcases e.key_cases v with ⟨htext, hkey⟩ | ⟨⟨name, w⟩, hpos, hget, htext⟩
  · refine ⟨0, fun ok => ⟨_, by rw [htext, runHandler_nil], by cases ok <;> rfl⟩, ?_⟩
    constructor
    · rintro rfl
      refine .inl ⟨rfl, List.eq_nil_iff_length_eq_zero.mpr ?_⟩
      simpa [MetaEnum.key] using hkey
    · rintro (⟨rfl, -⟩ | ⟨hpos, name, hget⟩)
      · rfl
      · simp [MetaEnum.key, hpos, hget] at hkey
  · have hmem := List.mem_of_getElem? hget
    have hne : name ≠ [] := (e.identifiers _ hmem).1
    have hround : enumRound (M := M) e none name = some (some (.enum w), []) := by
      rw [enumRound, deserializeEnum, e.keyToValue_of_mem hmem]
      show some (some (Value.enum ((w.signExtend 64).setWidth 32)), _) = _
      rw [setWidth_signExtend]
    refine ⟨w, fun ok => ⟨_, by rw [htext, runHandler_once hne hround], rfl⟩, ?_⟩
    constructor
    · rintro rfl
      exact .inr ⟨hpos, name, hget⟩
    · rintro (⟨-, hempty⟩ | ⟨-, name', hget'⟩)
      · exact absurd hempty (List.ne_nil_of_mem hmem)
      · rw [hget] at hget'
        cases hget'
        rfl

/-! ## Maps -/

section
variable {M : Type} {S : Schema M}

theorem insertPair_fst {k : Scalar} {v : Value M} {es : List (Scalar × Value M)} {e : Scalar × Value M}
    (h : e ∈ insertPair k v es) : e.1 = k ∨ e.1 ∈ es.map Prod.fst := by
  induction es with
  | nil => exact .inl (by rw [List.mem_singleton.mp h])
  | cons e' es ih =>
    obtain ⟨k', v'⟩ := e'
    unfold insertPair at h
    rw [List.map_cons, List.mem_cons]
    split at h
    · rcases List.mem_cons.mp h with rfl | h
      · exact .inl rfl
      · exact .inr (List.mem_cons.mp (List.mem_map_of_mem h))
    · split at h
      · rcases List.mem_cons.mp h with rfl | h
        · exact .inr (.inl rfl)
        · exact (ih h).imp_right .inr
      · rcases List.mem_cons.mp h with rfl | h
        · exact .inr (.inl rfl)
        · exact .inr (.inr (List.mem_map_of_mem h))

theorem insertAll_fst {pairs out : List (Scalar × Value M)} {e : Scalar × Value M}
    (h : e ∈ insertAll pairs out) : e.1 ∈ pairs.map Prod.fst ∨ e.1 ∈ out.map Prod.fst := by
  induction pairs generalizing out with
  | nil => exact .inr (List.mem_map_of_mem h)
  | cons pair pairs ih =>
    rw [List.map_cons, List.mem_cons]
    rcases ih h with h | h
    · exact .inl (.inr h)
    · obtain ⟨e', he', hfst⟩ := List.mem_map.mp h
      rw [← hfst]
      exact (insertPair_fst he').imp_left .inl

/-- Pairs that come in the order of their keys. -/
theorem insertAll_sorted {pairs out : List (Scalar × Value M)}
    (h : (out ++ pairs).Pairwise fun e e' => e.1.key < e'.1.key) : insertAll pairs out = out ++ pairs := by
  induction pairs generalizing out with
  | nil => simp [insertAll]
  | cons pair pairs ih =>
    have hlast : insertPair pair.1 pair.2 out = out ++ [pair] := by
      refine insertPair_last fun e he => ?_
      exact (List.pairwise_append.mp h).2.2 e he pair List.mem_cons_self
    show insertAll pairs (insertPair pair.1 pair.2 out) = _
    rw [hlast, ih (by simpa using h)]
    simp

/-- A pair of the map, and what is read for it. -/
abbrev ReadPair (M : Type) := (Scalar × Value M) × Value M

def ReadPair.read (p : ReadPair M) : Scalar × Value M := (readKey p.1.1, p.2)

variable {pairs : List (ReadPair M)}

theorem insertAll_restored (hsorted : (pairs.map Prod.fst).Pairwise fun e e' => e.1.key < e'.1.key)
    (h : ∀ p ∈ pairs, KeyRestored p.1.1) : insertAll (pairs.map ReadPair.read) [] = pairs.map ReadPair.read := by
  have hkey : ∀ p ∈ pairs, (readKey p.1.1).key = p.1.1.key := by
    intro p hp
    rcases readKey_cases p.1.1 with ⟨-, htext⟩ | ⟨hno, -⟩
    · rw [← (readKey p.1.1).key_text, htext, p.1.1.key_text]
    · exact absurd (h p hp) hno
  show insertAll _ [] = [] ++ pairs.map ReadPair.read
  refine insertAll_sorted ?_
  rw [List.nil_append, List.pairwise_map]
  rw [List.pairwise_map] at hsorted
  refine hsorted.imp_of_mem fun {p q} hp hq hlt => ?_
  show (readKey p.1.1).key < (readKey q.1.1).key
  rwa [hkey p hp, hkey q hq]

/-- If the keys that are read are those of the map, none of them has changed: the
changed ones would be smaller. -/
theorem keys_restored (hsorted : (pairs.map Prod.fst).Pairwise fun e e' => e.1.key < e'.1.key)
    (h : (insertAll (pairs.map ReadPair.read) []).map (·.1.text) = pairs.map (·.1.1.text)) :
    ∀ p ∈ pairs, KeyRestored p.1.1 := by
  have hnodup : (pairs.map (·.1.1.text)).Nodup := by
    rw [List.pairwise_map] at hsorted
    rw [List.Nodup, List.pairwise_map]
    refine hsorted.imp fun {p q} hlt he => ?_
    rw [← p.1.1.key_text, he, q.1.1.key_text] at hlt
    exact List.lt_irrefl _ hlt
  have hsub : pairs.map (·.1.1.text) ⊆ pairs.map fun p => (readKey p.1.1).text := by
    intro text htext
    rw [← h] at htext
    obtain ⟨e, he, rfl⟩ := List.mem_map.mp htext
    rcases insertAll_fst he with hmem | hmem
    · rw [List.map_map] at hmem
      obtain ⟨p, hp, hkey⟩ := List.mem_map.mp hmem
      exact List.mem_map.mpr ⟨p, hp, by rw [← hkey]; rfl⟩
    · exact absurd hmem List.not_mem_nil
  have hperm : (pairs.map (·.1.1.text)).Perm (pairs.map fun p => (readKey p.1.1).text) :=
    (hnodup.subperm hsub).perm_of_length_le (by simp)
  have hsum := (hperm.map keySize).sum_eq
  simp only [List.map_map] at hsum
  intro p hp
  rcases readKey_cases p.1.1 with ⟨hyes, -⟩ | ⟨-, hlt⟩
  · exact hyes
  · have hle : ∀ q ∈ pairs, (keySize ∘ fun p => (readKey p.1.1).text) q ≤
        (keySize ∘ fun p => p.1.1.text) q := by
      intro q _
      show keySize (readKey q.1.1).text ≤ keySize q.1.1.text
      rw [keySize_text, keySize_text]
      rcases readKey_cases q.1.1 with ⟨-, htext⟩ | ⟨-, hlt⟩
      · rw [← keySize_text, htext, keySize_text]
      · exact Nat.le_of_lt hlt
    have hsmall : (keySize ∘ fun p => (readKey p.1.1).text) p < (keySize ∘ fun p => p.1.1.text) p := by
      show keySize (readKey p.1.1).text < keySize p.1.1.text
      rwa [keySize_text, keySize_text]
    exact absurd hsum (Nat.ne_of_gt (List.sum_lt_sum _ _ hle ⟨p, hp, hsmall⟩))

/-- **Maps.** -/
theorem equal_map_iff (hsorted : (pairs.map Prod.fst).Pairwise fun e e' => e.1.key < e'.1.key) :
    Equal S (.map (pairs.map Prod.fst)) (.map (insertAll (pairs.map ReadPair.read) [])) ↔
      ∀ p ∈ pairs, KeyRestored p.1.1 ∧ Equal S p.1.2 p.2 := by
  have hpairs : ∀ q, q ∈ (pairs.map Prod.fst).zip (pairs.map ReadPair.read) ↔
      ∃ p ∈ pairs, (p.1, p.read) = q := by
    intro q
    rw [List.zip_map', List.mem_map]
  constructor
  · intro h
    cases h with
    | map hl hk hv =>
      have hkeys : (insertAll (pairs.map ReadPair.read) []).map (·.1.text) = pairs.map (·.1.1.text) := by
        refine List.ext_getElem (by simpa using hl.symm) fun i h₁ h₂ => ?_
        rw [List.length_map] at h₁ h₂
        have hi : i < (pairs.map Prod.fst).length := by simpa using h₂
        have := hk ((pairs.map Prod.fst)[i], (insertAll (pairs.map ReadPair.read) [])[i])
          (List.mem_iff_getElem.mpr ⟨i, by simp; omega, by simp⟩)
        simpa using this.symm
      have hrestored := keys_restored hsorted hkeys
      rw [insertAll_restored hsorted hrestored] at hv
      exact fun p hp => ⟨hrestored p hp, hv _ ((hpairs _).mpr ⟨p, hp, rfl⟩)⟩
  · intro h
    rw [insertAll_restored hsorted fun p hp => (h p hp).1]
    refine .map (by simp) (fun q hq => ?_) fun q hq => ?_
    · obtain ⟨p, hp, rfl⟩ := (hpairs q).mp hq
      rcases readKey_cases p.1.1 with ⟨-, htext⟩ | ⟨hno, -⟩
      · exact htext.symm
      · exact absurd (h p hp).1 hno
    · obtain ⟨p, hp, rfl⟩ := (hpairs q).mp hq
      exact (h p hp).2

end

/-! ## Values -/

variable {M : Type}

/-- Strings without `\"`, keys that are no `true` either, enum values at their own
index, in every message, also those that the getters make. -/
inductive Restored (S : JsonSchema M) : MetaEnum → Value M → Prop
  | scalar {e : MetaEnum} {v : Scalar} (h : ScalarRestored v) : Restored S e (.scalar v)
  | enum {e : MetaEnum} {v : BitVec 32} (h : e.Named v) : Restored S e (.enum v)
  | unset {e : MetaEnum} {m : M} (h : Restored S e (.object m (newObject S.types m))) :
    Restored S e (.unset m)
  | object {e : MetaEnum} {m : M} {fs : List (Value M)}
    (h : ∀ i v, fs[i]? = some v → Restored S (S.metaEnum m i) v) : Restored S e (.object m fs)
  | nums (e : MetaEnum) (t : NumType) (vs : List (BitVec t.width)) : Restored S e (.nums t vs)
  | strings {e : MetaEnum} {vs : List (Option (List UInt16))}
    (h : ∀ s ∈ vs, ¬ escapedQuote <:+: s.getD []) : Restored S e (.strings vs)
  | byteArrays (e : MetaEnum) (vs : List (Option Bytes)) : Restored S e (.byteArrays vs)
  | enums {e : MetaEnum} {vs : List (BitVec 32)} (h : ∀ v ∈ vs, e.AtOwnIndexInList v) :
    Restored S e (.enums vs)
  | messages {e : MetaEnum} {vs : List (Value M)} (h : ∀ v ∈ vs, Restored S e v) :
    Restored S e (.messages vs)
  | map {e : MetaEnum} {es : List (Scalar × Value M)} (hk : ∀ p ∈ es, KeyRestored p.1)
    (h : ∀ p ∈ es, Restored S e p.2) : Restored S e (.map es)

def WholeSingle : SingleType M → Prop
  | .scalar t => Whole t
  | _ => True

/-- No floating-point numbers, and a key type that Protobuf has. -/
def WholeField : FieldType M → Prop
  | .single t => WholeSingle t
  | .nums t => t.infinity = none
  | .map kt vt => Whole kt ∧ kt ≠ .bytes ∧ WholeSingle vt
  | _ => True

/-- Every message type has a field, none has floating-point numbers, and the JSON
names are Unicode. -/
structure Regular (S : JsonSchema M) (qt : QtCore) : Prop where
  nonempty : ∀ m, (S.types m).properties ≠ []
  whole : ∀ m, ∀ t ∈ (S.types m).properties, WholeField t
  names : ∀ m i, i < (S.types m).properties.length → qt.Survives (some (S.jsonName m i))

end QtProtobuf.Json
