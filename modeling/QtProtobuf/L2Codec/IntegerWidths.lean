import QtProtobuf.L2Codec.RoundTrip
import QtProtobuf.L2Codec.Framing

/-!
# One integer in an int32, an int64 and an enum field

`serializeBasic` takes an int32 through `uint32`, an int64 and the value of an
enumerator through `uint64`. A negative integer has five bytes in the one and ten
in the others.

* `recovers`: what is written for a value is read back by a field of its type.
* `integers_compatible_iff`: the three write the same bytes, and read them back,
  if and only if no integer is negative.
-/
namespace QtProtobuf.Codec

open Wire

/-- The field types that hold a 32-bit integer as a plain varint. -/
inductive IntegerType where
  | int32 | int64 | enum
  deriving DecidableEq, Repr

namespace IntegerType

variable {M : Type}

/-- The type of a singular field. -/
def field : IntegerType → FieldType M
  | int32 => .single (.scalar (.num .int32))
  | int64 => .single (.scalar (.num .int64))
  | enum => .single .enum

/-- The field when it holds `v`. -/
def value (v : BitVec 32) : IntegerType → Value M
  | int32 => .scalar (.num .int32 v)
  | int64 => .scalar (.num .int64 (v.signExtend 64))
  | enum => .enum v

/-- The type of a packed list. -/
def listField : IntegerType → FieldType M
  | int32 => .nums .int32
  | int64 => .nums .int64
  | enum => .enums

def listValue (vs : List (BitVec 32)) : IntegerType → Value M
  | int32 => .nums .int32 vs
  | int64 => .nums .int64 (vs.map (·.signExtend 64))
  | enum => .enums vs

end IntegerType

/-- A message type with the field reads `data` into a new object as the value of the field. -/
def Recovers {M : Type} (qt : QtCore) (f : Nat) (data : Bytes) (t : FieldType M) (v : Value M) : Prop :=
  ∀ (S : Schema M) m i, (S m).find f = some (i, t) → data.length < 2 ^ 31 → ∀ env n, data.length < n →
    (deserializeMessage S qt env n m (newObject S m) data).2 = ((newObject S m).set i v, none)

/-- What is asked of fields of the three types under the number `f`: the bytes are
those of the int32 field, and each type reads them. -/
structure Compatible {M : Type} (S : Schema M) (qt : QtCore) (rec : M → List (Value M) → Option Bytes)
    (f : Nat) (field : IntegerType → FieldType M) (value : IntegerType → Value M) : Prop where
  written : ∀ t, serializeProperty S qt rec f (value t) = serializeProperty S qt rec f (value .int32)
  recovered : ∀ t data, serializeProperty S qt rec f (value .int32) = some data →
    Recovers qt f data (field t) (value t)

section
variable {M : Type} {S : Schema M} {qt : QtCore} {rec : M → List (Value M) → Option Bytes} {f : Nat}

/-! ## Reading -/

/-- A value that is equal to no other. -/
def Determined (v : Value M) : Prop := ∀ (S : Schema M) v', Equal S v v' → v' = v

theorem value_determined (v : BitVec 32) (t : IntegerType) : Determined (t.value v : Value M) := by
  have hnum : ∀ (t : NumType) (x : BitVec t.width), Determined (.scalar (.num t x) : Value M) := by
    intro t x S v' h
    cases h with
    | @scalar _ w h =>
      cases w with
      | num t' y => rw [show Scalar.num t' y = Scalar.num t x from h.symm]
      | bool => cases h
      | string => cases h
      | bytes => cases h
  cases t with
  | int32 => exact hnum _ _
  | int64 => exact hnum _ _
  | enum =>
    intro S v' h
    cases h
    rfl

theorem listValue_determined (vs : List (BitVec 32)) (t : IntegerType) :
    Determined (t.listValue vs : Value M) := by
  intro S v' h
  cases t <;> cases h <;> rfl

theorem value_typed (v : BitVec 32) (t : IntegerType) : Typed S qt t.field (t.value v) := by
  cases t with
  | int32 => exact .scalar (v := .num .int32 v) fun h => absurd h.1 (by decide)
  | int64 => exact .scalar (v := .num .int64 _) fun h => absurd h.1 (by decide)
  | enum => exact .enum v

theorem listValue_typed (vs : List (BitVec 32)) (t : IntegerType) :
    Typed S qt t.listField (t.listValue vs) := by
  cases t with
  | int32 => exact .nums .int32 vs
  | int64 => exact .nums .int64 _
  | enum => exact .enums vs

/-- What is written for a value that holds no message does not depend on the schema. -/
def SchemaFree (v : Value M) : Prop :=
  ∀ (S S' : Schema M) qt rec rec' f, serializeProperty S qt rec f v = serializeProperty S' qt rec' f v

theorem value_schemaFree (v : BitVec 32) (t : IntegerType) : SchemaFree (t.value v : Value M) := by
  intro S S' qt rec rec' f
  cases t <;> rfl

theorem listValue_schemaFree (vs : List (BitVec 32)) (t : IntegerType) :
    SchemaFree (t.listValue vs : Value M) := by
  intro S S' qt rec rec' f
  cases t <;> rfl

/-- **Reading back.** The record of a value sets the field to that value. -/
theorem recovers {t : FieldType M} {v : Value M} (ht : ∀ S, Typed S qt t v) (hd : Determined v)
    (hfree : SchemaFree v) {data : Bytes} (hs : serializeProperty S qt rec f v = some data) :
    Recovers qt f data t v := by
  intro S' m i hfind hl env n hn
  obtain ⟨n, rfl⟩ : ∃ k, n = k + 1 := ⟨n - 1, by omega⟩
  obtain ⟨hp, hi⟩ := MetaObject.find_mem hfind
  have hnone : Inverts S' qt (fun _ _ => none) (Rest.nested S' qt n) n :=
    fun _ _ _ _ h => absurd h (by simp)
  rw [hfree S S' qt rec (fun _ _ => none) f] at hs
  have hobj : (newObject S' m)[i]? = some t.default := by
    unfold newObject
    rw [List.getElem?_map, hi]
    rfl
  obtain ⟨v', hr, he⟩ := rounds_property hl hnone hp hi (ht S') hs (Nat.le_of_lt_succ hn)
    (Nat.le_refl _) hobj
  have hrun := hr.run (n := n + 1) (by rw [List.append_nil]) hn
  rw [List.append_nil, hd S' v' he] at hrun
  refine deserializeMessage_ok (t := []) ?_
  rw [Rest.message_succ]
  exact hrun

/-! ## Writing -/

theorem toNat_signExtend {v : BitVec 32} (h : 0 ≤ v.toInt) : (v.signExtend 64).toNat = v.toNat := by
  have hmsb : v.msb = false := by
    rw [BitVec.msb_eq_toInt]
    simpa using h
  rw [BitVec.toNat_signExtend, hmsb, BitVec.toNat_setWidth]
  have hv := v.isLt
  simp only [Bool.false_eq_true, if_false, Nat.add_zero]
  omega

theorem toNat_signExtend_ne {v : BitVec 32} (h : v.toInt < 0) : (v.signExtend 64).toNat ≠ v.toNat := by
  have hmsb : v.msb = true := by
    rw [BitVec.msb_eq_toInt]
    simpa using h
  rw [BitVec.toNat_signExtend, hmsb, BitVec.toNat_setWidth]
  have hv := v.isLt
  simp only [if_true]
  omega

theorem serializeBasic_plain {t : NumType} (ht : t.coding = .plain) (v : BitVec t.width) :
    serializeBasic t v = (serializeUnsigned v.toNat, v != 0) := by
  unfold serializeBasic
  rw [ht]

theorem serializeElement_plain {t : NumType} (ht : t.coding = .plain) (v : BitVec t.width) :
    IsVarint (serializeElement t v) ∧ varintValue (serializeElement t v) = v.toNat := by
  unfold serializeElement
  rw [serializeBasic_plain ht]
  by_cases h0 : v.toNat = 0
  · rw [h0]
    exact ⟨show IsVarint [0] by decide, rfl⟩
  · have hv : v.toNat < 2 ^ 64 := Nat.lt_of_lt_of_le v.isLt (Nat.pow_le_pow_right (by decide) t.width_le)
    rw [List.isEmpty_eq_false_iff.mpr (serializeUnsigned_ne_nil h0), if_neg Bool.false_ne_true]
    exact ⟨(serializeUnsigned_isVarint _ h0 hv).1, (serializeUnsigned_isVarint _ h0 hv).2.1⟩

/-- The bytes of a list of varints determine their values. -/
theorem varints_inj {α : Type} {p q : α → Bytes} {as : List α} (hp : ∀ a, IsVarint (p a))
    (hq : ∀ a, IsVarint (q a)) (h : as.flatMap p = as.flatMap q) : ∀ a ∈ as, p a = q a := by
  induction as with
  | nil => exact fun a ha => absurd ha List.not_mem_nil
  | cons a as ih =>
    rw [List.flatMap_cons, List.flatMap_cons] at h
    have hpre := (hp a).prefix_eq (hq a) h
    rw [hpre] at h
    exact List.forall_mem_cons.mpr ⟨hpre, ih (List.append_cancel_left h)⟩

theorem withHeader_inj {t : WireTypes} {p q : Bytes} (h : withHeader f t (p, true) = withHeader f t (q, true)) :
    p = q := List.append_cancel_left h

theorem serializeScalar_num (t : NumType) (v : BitVec t.width) :
    serializeScalar qt (.num t v) = serializeBasic t v := by
  have hnull : ¬ qt.isNull (.num t v) = true := fun h => by
    rcases qt.isNull_text _ h with h | h <;> cases h
  unfold serializeScalar
  rw [if_neg hnull]

/-- The three singular fields write the varint of the integer as they widen it. -/
theorem value_written (v : BitVec 32) (t : IntegerType) :
    serializeProperty S qt rec f (t.value v) =
      some (withHeader f .varint (match t with
        | .int32 => serializeBasic .int32 v
        | _ => serializeBasic .int64 (v.signExtend 64))) := by
  cases t with
  | enum => rfl
  | _ => exact congrArg (fun r => some (withHeader f .varint r)) (serializeScalar_num _ _)

theorem listValue_written (vs : List (BitVec 32)) (t : IntegerType) :
    serializeProperty S qt rec f (t.listValue vs) =
      some (withHeader f .lengthDelimited (match t with
        | .int32 => serializeListType .int32 vs
        | _ => serializeListType .int64 (vs.map (·.signExtend 64)))) := by
  cases t <;> rfl

theorem basic_widened_iff (v : BitVec 32) :
    withHeader f .varint (serializeBasic .int64 (v.signExtend 64)) =
      withHeader f .varint (serializeBasic .int32 v) ↔ 0 ≤ v.toInt := by
  have hwide : serializeBasic .int64 (v.signExtend 64) =
      (serializeUnsigned (v.signExtend 64).toNat, v.signExtend 64 != 0) := serializeBasic_plain rfl _
  have hnarrow : serializeBasic .int32 v = (serializeUnsigned v.toNat, v != 0) := serializeBasic_plain rfl _
  have hzero : v.signExtend 64 = 0 ↔ v = 0 := by
    constructor
    · intro h
      have hback := congrArg (·.setWidth 32) h
      rw [setWidth_signExtend] at hback
      exact hback
    · rintro rfl
      rfl
  have hused : (v.signExtend 64 != 0) = (v != 0) := by
    rw [Bool.eq_iff_iff, bne_iff_ne, bne_iff_ne, ne_eq, ne_eq, hzero]
  rw [hwide, hnarrow, hused]
  constructor
  · intro h
    refine Int.not_lt.mp fun hneg => toNat_signExtend_ne hneg ?_
    have h0 : v ≠ 0 := fun h0 => by
      rw [h0] at hneg
      exact absurd hneg (by decide)
    have h32 : v.toNat ≠ 0 := fun h => h0 (BitVec.eq_of_toNat_eq h)
    have h64 : (v.signExtend 64).toNat ≠ 0 := fun h => h0 (hzero.mp (BitVec.eq_of_toNat_eq h))
    rw [bne_iff_ne.mpr h0] at h
    have hv := congrArg varintValue (withHeader_inj h)
    rwa [(serializeUnsigned_isVarint _ h32 (by omega)).2.1,
      (serializeUnsigned_isVarint _ h64 (v.signExtend 64).isLt).2.1] at hv
  · intro h
    rw [toNat_signExtend h]

theorem list_widened_iff (vs : List (BitVec 32)) :
    withHeader f .lengthDelimited (serializeListType .int64 (vs.map (·.signExtend 64))) =
      withHeader f .lengthDelimited (serializeListType .int32 vs) ↔ ∀ v ∈ vs, 0 ≤ v.toInt := by
  cases vs with
  | nil => exact iff_of_true rfl fun v hv => absurd hv List.not_mem_nil
  | cons v vs =>
    have hwide : serializeListType .int64 ((v :: vs).map (·.signExtend 64)) =
        (prependLengthDelimitedSize
          ((v :: vs).flatMap fun w => serializeElement .int64 (w.signExtend 64)), true) :=
      congrArg (fun data => (prependLengthDelimitedSize data, true)) (List.flatMap_map _ _ _)
    have helement : ∀ w : BitVec 32,
        serializeElement .int64 (w.signExtend 64) = serializeElement .int32 w ↔ 0 ≤ w.toInt := by
      intro w
      constructor
      · intro h
        have hvalue := (serializeElement_plain (t := .int64) rfl (w.signExtend 64)).2
        rw [h] at hvalue
        exact Int.not_lt.mp fun hneg =>
          toNat_signExtend_ne hneg (hvalue.symm.trans (serializeElement_plain (t := .int32) rfl w).2)
      · intro h
        have hbytes : serializeUnsigned (w.signExtend 64).toNat = serializeUnsigned w.toNat := by
          rw [toNat_signExtend h]
        exact congrArg (fun bs : Bytes => if bs.isEmpty then [0] else bs) hbytes
    rw [hwide]
    show withHeader f _ (_, true) = withHeader f _
      (prependLengthDelimitedSize ((v :: vs).flatMap (serializeElement .int32)), true) ↔ _
    constructor
    · intro h w hw
      have hsizes := withHeader_inj h
      unfold prependLengthDelimitedSize at hsizes
      have hpre := (serializeVarintCommon_isVarint _ (by omega)).1.prefix_eq
        (serializeVarintCommon_isVarint _ (by omega)).1 hsizes
      rw [hpre] at hsizes
      have hwides : ∀ w : BitVec 32, IsVarint (serializeElement .int64 (w.signExtend 64)) := fun w =>
        (serializeElement_plain (t := .int64) rfl (w.signExtend 64)).1
      have hnarrows : ∀ w : BitVec 32, IsVarint (serializeElement .int32 w) := fun w =>
        (serializeElement_plain (t := .int32) rfl w).1
      exact (helement w).mp (varints_inj hwides hnarrows (List.append_cancel_left hsizes) w hw)
    · intro h
      rw [List.flatMap_congr fun w hw => (helement w).mpr (h w hw)]
      rfl

end

/-- **Integer fields.** Singular or in a list, the three types share their bytes
if and only if there is no negative integer. -/
theorem integers_compatible_iff {M : Type} (S : Schema M) (qt : QtCore)
    (rec : M → List (Value M) → Option Bytes) (f : Nat) :
    (∀ v, Compatible S qt rec f IntegerType.field (IntegerType.value v) ↔ 0 ≤ v.toInt) ∧
      ∀ vs, Compatible S qt rec f IntegerType.listField (IntegerType.listValue vs) ↔
        ∀ v ∈ vs, 0 ≤ v.toInt := by
  constructor
  · intro v
    constructor
    · intro h
      have hw := h.written .int64
      rw [value_written, value_written] at hw
      exact (basic_widened_iff v).mp (Option.some.inj hw)
    · intro h
      have hw : ∀ t : IntegerType, serializeProperty S qt rec f (t.value v) =
          serializeProperty S qt rec f (IntegerType.int32.value v) := by
        intro t
        rw [value_written, value_written]
        cases t with
        | int32 => rfl
        | _ => exact congrArg some ((basic_widened_iff v).mpr h)
      exact ⟨hw, fun t data hs => recovers (fun _ => value_typed v t) (value_determined v t) (value_schemaFree v t)
        ((hw t).trans hs)⟩
  · intro vs
    constructor
    · intro h
      have hw := h.written .int64
      rw [listValue_written, listValue_written] at hw
      exact (list_widened_iff vs).mp (Option.some.inj hw)
    · intro h
      have hw : ∀ t : IntegerType, serializeProperty S qt rec f (t.listValue vs) =
          serializeProperty S qt rec f (IntegerType.int32.listValue vs) := by
        intro t
        rw [listValue_written, listValue_written]
        cases t with
        | int32 => rfl
        | _ => exact congrArg some ((list_widened_iff vs).mpr h)
      exact ⟨hw, fun t data hs => recovers (fun _ => listValue_typed vs t) (listValue_determined vs t)
        (listValue_schemaFree vs t) ((hw t).trans hs)⟩

/-- The bytes of an int32 field with the value -1. -/
def minusOne : Bytes := [0x08, 0xff, 0xff, 0xff, 0xff, 0x0f]

/-- An int32 field with -1 has five bytes; an int64 field reads 4294967295 from them. -/
theorem not_integers_compatible_minusOne :
    serializeProperty (oneFieldSchema (.single (.scalar (.num .int64)))) .ascii (fun _ _ => none) 1
        (IntegerType.int32.value (-1)) = some minusOne ∧
      (deserializeMessage (oneFieldSchema (.single (.scalar (.num .int64)))) .ascii (fun _ _ => 0) 7 ()
          [.scalar (.num .int64 0)] minusOne).2 = ([.scalar (.num .int64 4294967295)], none) ∧
      ¬ Compatible (oneFieldSchema (.single (.scalar (.num .int64)))) .ascii (fun _ _ => none) 1
        IntegerType.field (IntegerType.value (-1)) := by
  refine ⟨by decide, rfl, fun h => ?_⟩
  have hw := h.written .int64
  exact absurd hw (by decide)

end QtProtobuf.Codec
