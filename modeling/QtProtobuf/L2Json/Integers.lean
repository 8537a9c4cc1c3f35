import QtProtobuf.L2Json.Deserialize
import Mathlib.Data.List.TakeWhile

/-!
# JSON numbers in integer fields

The conversions of a `QByteArray` are 0 for a token that is no integer of the
type, and a token of the right JSON type is written even so.

* `toIntegral_number`: the conversions on the tokens of JSON.
* `deserializeMember_integer`: what is written for a token.
* `integer_kept_iff`: the field has the integer of the token, or what it had,
  exactly if the token is an integer of the type, or zero, or the field is 0.
-/
namespace QtProtobuf.Json

open Lib.Json Codec

/-! ## What a token denotes -/

/-- The parts of a token: behind the sign the digits, behind a dot more of them,
and behind an `e` the exponent. -/
def digitsOf (t : Text) : Text := (splitSign t).2.takeWhile isDigit

def afterDigits (t : Text) : Text := (splitSign t).2.dropWhile isDigit

def fractionOf (t : Text) : Text :=
  if (afterDigits t).head? = some 0x2e then (afterDigits t).tail.takeWhile isDigit else []

def afterFraction (t : Text) : Text :=
  if (afterDigits t).head? = some 0x2e then (afterDigits t).tail.dropWhile isDigit
  else afterDigits t

def exponentOf (t : Text) : Int :=
  signedValue (splitSign (afterFraction t).tail).1 (ofDecimal (splitSign (afterFraction t).tail).2)

/-- The digits on both sides of the dot, with the sign. -/
def mantissa (t : Text) : Int :=
  signedValue (splitSign t).1 (ofDecimal (digitsOf t ++ fractionOf t))

/-- The token is `mantissa`, shifted by the exponent and the digits behind the dot. -/
def Denotes (t : Text) (n : Int) : Prop :=
  let shift := exponentOf t - (fractionOf t).length
  mantissa t * 10 ^ shift.toNat = n * 10 ^ (-shift).toNat

instance (t : Text) (n : Int) : Decidable (Denotes t n) := inferInstanceAs (Decidable (_ = _))

/-- A sign and digits only. -/
def IsInteger (t : Text) : Prop := afterDigits t = []

instance (t : Text) : Decidable (IsInteger t) := inferInstanceAs (Decidable (_ = _))

example : Denotes [0x31, 0x65, 0x32] 100 := by decide
example : Denotes [0x31, 0x2e, 0x35, 0x30, 0x65, 0x31] 15 := by decide

theorem denotes_zero_iff (t : Text) : Denotes t 0 ↔ mantissa t = 0 := by
  simp [Denotes]

theorem IsInteger.denotes {t : Text} (h : IsInteger t) : Denotes t (mantissa t) := by
  have hfraction : fractionOf t = [] := by simp [fractionOf, show afterDigits t = [] from h]
  have hexponent : exponentOf t = 0 := by
    simp [exponentOf, afterFraction, show afterDigits t = [] from h, splitSign, signedValue,
      ofDecimal]
  simp [Denotes, hfraction, hexponent]

/-! ## The conversions -/

theorem isAsciiSpace_of_isNumberChar {c : UInt8} (h : isNumberChar c = true) :
    isAsciiSpace c = false := by
  have hlow : 0x20 < c.toNat := by
    simp only [isNumberChar, isDigit, Bool.or_eq_true, Bool.and_eq_true, decide_eq_true_eq,
      beq_iff_eq, UInt8.le_iff_toNat_le] at h
    rcases h with ((((⟨h₁, -⟩ | rfl) | rfl) | rfl) | rfl) | rfl
    · exact Nat.lt_of_lt_of_le (by decide) (show 0x30 ≤ c.toNat from h₁)
    all_goals decide
  have hspace : c ≠ 0x20 := by
    intro he
    rw [he] at hlow
    exact absurd hlow (by decide)
  have hhigh : ¬ c ≤ 0x0d := by
    intro he
    have : c.toNat ≤ 0x0d := UInt8.le_iff_toNat_le.mp he
    omega
  simp [isAsciiSpace, hspace, hhigh]

theorem trimmed_of_no_spaces {t : Text} (h : ∀ c ∈ t, isAsciiSpace c = false) :
    ((t.dropWhile isAsciiSpace).reverse.dropWhile isAsciiSpace).reverse = t := by
  have hdrop : ∀ s : Text, (∀ c ∈ s, isAsciiSpace c = false) → s.dropWhile isAsciiSpace = s := by
    intro s hs
    rw [List.dropWhile_eq_self_iff]
    intro hl
    simp [hs _ (List.getElem_mem hl)]
  rw [hdrop t h, hdrop t.reverse fun c hc => h c (List.mem_reverse.mp hc), List.reverse_reverse]

/-- Behind the sign of a number a digit comes first. -/
theorem digit_first {t : Text} (h : Number t) :
    ∃ c s, (splitSign t).2 = c :: s ∧ isDigit c = true := by
  obtain ⟨hs, hi, hf, he⟩ := h
  rename_i sign int frac exp
  have hint : ∃ c s, int = c :: s ∧ isDigit c = true := by
    cases hi with
    | zero => exact ⟨_, _, rfl, by decide⟩
    | digits hc _ _ => exact ⟨_, _, rfl, hc⟩
  obtain ⟨c, s, rfl, hc⟩ := hint
  refine ⟨c, s ++ frac ++ exp, ?_, hc⟩
  cases hs with
  | minus => simp [splitSign]
  | absent =>
    have hm : c ≠ minus := by
      intro he
      rw [he] at hc
      exact absurd hc (by decide)
    have hp : c ≠ 0x2b := by
      intro he
      rw [he] at hc
      exact absurd hc (by decide)
    simp [splitSign, hm, hp]

/-- The conversions on a token: an integer of the type, which has no minus if the
type has none, or 0. -/
theorem toIntegral_number {t : Text} (h : Number t) (signed : Bool) (width : Nat) :
    (toIntegral signed width t).1 =
      if IsInteger t ∧ InRange signed width (mantissa t) then mantissa t else 0 := by
  obtain ⟨c, s, hsplit, hc⟩ := digit_first h
  have htrim := trimmed_of_no_spaces fun c hc => isAsciiSpace_of_isNumberChar (h.chars.1 c hc)
  have hall : (splitSign t).2.all isDigit = true ↔ IsInteger t := by
    unfold IsInteger afterDigits
    rw [List.dropWhile_eq_nil_iff, List.all_eq_true]
  have hmantissa : IsInteger t →
      signedValue (splitSign t).1 (ofDecimal (splitSign t).2) = mantissa t := by
    intro hint
    have hdigits : digitsOf t = (splitSign t).2 := by
      rw [digitsOf, List.takeWhile_eq_self_iff]
      exact List.all_eq_true.mp (hall.mpr hint)
    have hfraction : fractionOf t = [] := by simp [fractionOf, show afterDigits t = [] from hint]
    rw [mantissa, hdigits, hfraction, List.append_nil]
  have hne : (splitSign t).2 ≠ [] := by simp [hsplit]
  have hdef : (toIntegral signed width t).1 = (if (splitSign t).2 ≠ [] ∧
      (splitSign t).2.all isDigit ∧ (signed ∨ !(splitSign t).1) ∧
      InRange signed width (signedValue (splitSign t).1 (ofDecimal (splitSign t).2)) then
        (signedValue (splitSign t).1 (ofDecimal (splitSign t).2), true) else (0, false)).1 := by
    rw [toIntegral, htrim]
  rw [hdef]
  by_cases hint : IsInteger t
  · rw [hmantissa hint]
    by_cases hrange : InRange signed width (mantissa t)
    · by_cases hsign : signed = true ∨ (!(splitSign t).1) = true
      · rw [if_pos ⟨hne, hall.mpr hint, hsign, hrange⟩, if_pos ⟨hint, hrange⟩]
      · -- a minus before an unsigned integer, which is 0 if it is in range
        simp only [not_or, Bool.not_eq_true, Bool.not_eq_false'] at hsign
        have hzero : mantissa t = 0 := by
          rw [← hmantissa hint] at hrange ⊢
          simp only [InRange, hsign.1, hsign.2, signedValue, if_true, Bool.false_eq_true,
            if_false] at hrange ⊢
          omega
        rw [if_neg fun h => by simp [hsign.1, hsign.2] at h, if_pos ⟨hint, hrange⟩, hzero]
    · rw [if_neg fun h => hrange h.2.2.2, if_neg fun h => hrange h.2]
  · rw [if_neg fun h => hint (hall.mp h.2.1), if_neg fun h => hint h.1]

/-! ## What is written -/

section
variable {t : NumType} {token : Bytes}

/-- The integer that is written for a token. -/
def writtenFor (t : NumType) (token : Bytes) : BitVec t.width :=
  BitVec.ofInt t.width (toIntegral t.signed t.width token).1

theorem toInteger_ofInt {n : Int} (h : InRange t.signed t.width n) :
    toInteger t (BitVec.ofInt t.width n) = n := by
  have hw : 0 < t.width := by rcases t.width_eq with h | h <;> omega
  unfold toInteger
  unfold InRange at h
  by_cases hs : t.signed = true
  · rw [if_pos hs] at h ⊢
    exact BitVec.toInt_ofInt_eq_self hw h.1 h.2
  · rw [if_neg hs] at h ⊢
    rw [BitVec.toNat_ofInt, Int.toNat_of_nonneg (Int.emod_nonneg _ (by simp))]
    exact Int.emod_eq_of_lt h.1 (by simpa using h.2)

theorem toInteger_writtenFor (hn : Number token) :
    toInteger t (writtenFor t token) = (toIntegral t.signed t.width token).1 := by
  have hrange : InRange t.signed t.width (toIntegral t.signed t.width token).1 := by
    rw [toIntegral_number hn]
    split
    · next h => exact h.2
    · cases t <;> decide
  exact toInteger_ofInt hrange

theorem deserializeNum_integer (qt : QtJson) (hint : t.infinity = none) (data : Bytes)
    (type : JsonType) : deserializeNum qt t data type =
      stored t.width (deserializeIntegral t.signed t.width data type) := by
  cases t with
  | float | double => cases hint
  | _ => rfl

theorem write_integer {M : Type} (hint : t.infinity = none) (v w : BitVec t.width) :
    (Value.scalar (M := M) (.num t v)).write (.scalar (.num t w)) = .scalar (.num t w) := by
  unfold Value.write
  split
  · next h =>
    simp only [Value.same, Scalar.same, NumType.same, hint, beq_self_eq_true, Bool.true_and,
      beq_iff_eq] at h
    rw [BitVec.eq_of_toNat_eq h]
  · rfl

/-- A token is written in any case. -/
theorem deserializeMember_integer {M : Type} (mj : MicroJson) (qt : QtJson)
    (rec : M → Bytes → Option (List (Value M))) (e : MetaEnum) (hint : t.infinity = none)
    (v : BitVec t.width) (token : Bytes) :
    deserializeMember mj qt rec e (.single (.scalar (.num t))) (.scalar (.num t v))
      ⟨.number, token⟩ = some (.scalar (.num t (writtenFor t token))) := by
  have hvalue : deserializeValue mj qt rec e (.single (.scalar (.num t))) token .number =
      some (some (.scalar (.num t (writtenFor t token))), true) := by
    simp [deserializeValue, deserializeSingle, deserializeScalar, deserializeNum_integer qt hint,
      stored, deserializeIntegral, writtenFor]
  simp only [deserializeMember, hvalue]
  simp [writeVariant, write_integer hint]

/-- The integer is the one of the token, or what was there. -/
theorem kept_iff (hn : Number token) (v : BitVec t.width) :
    (writtenFor t token = v ∨ Denotes token (toInteger t (writtenFor t token))) ↔
      IsInteger token ∧ InRange t.signed t.width (mantissa token) ∨ mantissa token = 0 ∨ v = 0 := by
  rw [toInteger_writtenFor hn, writtenFor, toIntegral_number hn]
  by_cases h : IsInteger token ∧ InRange t.signed t.width (mantissa token)
  · rw [if_pos h]
    simp [h, h.1.denotes]
  · rw [if_neg h, denotes_zero_iff]
    have hzero : BitVec.ofInt t.width 0 = v ↔ v = 0 := by
      rw [show BitVec.ofInt t.width 0 = 0 from by simp]
      exact eq_comm
    rw [hzero]
    tauto

variable {M : Type} {S : JsonSchema M} {qt : QtJson} {m : M} {i : Nat}

/-- Read as part of a JSON object, the token of the one member for a field. -/
theorem message_integer {mj : MicroJson} (hp : mj.Parses) (hint : t.infinity = none) {text : Bytes}
    {ms : List Member} (hobject : IsObject text ms) (hnodup : (ms.map Member.name).Nodup)
    {member : Member} (hmem : member ∈ ms) (hnumber : member.value.item = ⟨.number, token⟩)
    (hi : findProperty S qt m member.name = some i)
    (hother : ∀ member' ∈ ms, findProperty S qt m member'.name = some i → member' = member)
    (ht : (S.types m).properties[i]? = some (.single (.scalar (.num t)))) {n : Nat}
    {object object' : List (Value M)}
    (h : deserializeMessage S mj qt (n + 1) m object text = some object') {v : BitVec t.width}
    (ho : object[i]? = some (.scalar (.num t v))) :
    object'[i]? = some (.scalar (.num t (writtenFor t token))) := by
  obtain ⟨value, hvalue, hlast⟩ := deserializeMessage_member hp hobject hnodup h hmem hi hother ht ho
  have hreport : reportElement member.value = ⟨.number, token⟩ := by
    simp [reportElement, reportValue, hnumber, jsonType]
  rw [hreport, deserializeMember_integer mj qt _ _ hint] at hvalue
  rw [hlast, ← hvalue]

/-- A round of the loop over the members, for a member with a number and a field
of an integer type. -/
theorem integer_kept_iff (S : JsonSchema M) (mj : MicroJson) (qt : QtJson)
    (rec : M → Bytes → Option (List (Value M))) {m : M} {name : Bytes} {i : Nat}
    (hi : findProperty S qt m name = some i) {t : NumType} (hint : t.infinity = none)
    (ht : (S.types m).properties[i]? = some (.single (.scalar (.num t)))) {token : Bytes}
    (hn : Number token) {object : List (Value M)} {v : BitVec t.width}
    (ho : object[i]? = some (.scalar (.num t v))) :
    ∃ v', deserializeProperty S mj qt rec m object (name, ⟨.number, token⟩) =
        some (object.set i (.scalar (.num t v'))) ∧
      ((v' = v ∨ Denotes token (toInteger t v')) ↔
        IsInteger token ∧ InRange t.signed t.width (mantissa token) ∨ mantissa token = 0 ∨ v = 0) := by
  refine ⟨writtenFor t token, ?_, kept_iff hn v⟩
  simp only [deserializeProperty, hi, ht, ho]
  simp [deserializeMember_integer mj qt rec _ hint]

/-- A message with one `int32` field that is called `a`. -/
def amount : JsonSchema Unit := .oneField (.single (.scalar (.num .int32))) [0x61] denseLevels

theorem number_forty : Number [0x34, 0x30] := by
  have hint : IntPart [0x34, 0x30] := .digits (by decide) (by decide) (by simp [isDigit])
  exact .mk .absent hint .absent .absent

/-- `{"a":40}` -/
theorem integer_kept_forty : findProperty amount .ascii () [0x61] = some 0 ∧
    ∃ v', deserializeProperty amount scanner .ascii (fun _ _ => none) () [.scalar (.num .int32 7)]
        ([0x61], ⟨.number, [0x34, 0x30]⟩) =
        some (List.set [.scalar (.num .int32 7)] 0 (.scalar (.num .int32 v'))) ∧
      (v' = 7 ∨ Denotes [0x34, 0x30] (toInteger .int32 v')) := by
  have hfind : findProperty amount .ascii () [0x61] = some 0 := rfl
  have hfield : ([.scalar (.num .int32 7)] : List (Value Unit))[0]? = some (.scalar (.num .int32 7)) := rfl
  obtain ⟨v', hread, hkept⟩ :=
    integer_kept_iff amount scanner .ascii (fun _ _ => none) hfind rfl rfl number_forty hfield
  exact ⟨hfind, v', hread, hkept.mpr (.inl (by decide))⟩

/-- `{"a":4e1}` sets 7 to 0. -/
theorem not_integer_kept_exponent :
    deserializeProperty amount scanner .ascii (fun _ _ => none) () [.scalar (.num .int32 7)]
        ([0x61], ⟨.number, [0x34, 0x65, 0x31]⟩) = some [.scalar (.num .int32 0)] ∧
      Number [0x34, 0x65, 0x31] ∧ Denotes [0x34, 0x65, 0x31] 40 ∧
      ¬ ((0 : BitVec 32) = 7 ∨ Denotes [0x34, 0x65, 0x31] (toInteger .int32 0)) := by
  refine ⟨rfl, ?_, by decide, by decide⟩
  have hint : IntPart [0x34] := .digits (by decide) (by decide) (by simp)
  have hexp : ExpPart [0x65, 0x31] := .digits (.inl rfl) (.inl rfl) (by simp) (by simp [isDigit])
  exact .mk .absent hint .absent hexp

end

end QtProtobuf.Json
