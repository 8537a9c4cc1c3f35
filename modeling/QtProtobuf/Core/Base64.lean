import Mathlib.Algebra.Group.Int.Defs
import Mathlib.Algebra.Group.Nat.Defs

/-!
# Base64

The standard alphabet, with padding. The decoder takes any bytes: what is no
letter of the alphabet is left out, six bits come in with a letter and eight go
out as soon as there are eight.

* `decode_encode`: every byte string comes back.
-/
namespace Lib.Base64

/-- The letter of a number below 64. -/
def letter (d : Nat) : UInt8 :=
  if d < 26 then UInt8.ofNat (0x41 + d)
  else if d < 52 then UInt8.ofNat (0x61 + (d - 26))
  else if d < 62 then UInt8.ofNat (0x30 + (d - 52))
  else if d = 62 then 0x2b else 0x2f

def value (c : UInt8) : Option Nat :=
  if 0x41 ≤ c ∧ c ≤ 0x5a then some (c.toNat - 0x41)
  else if 0x61 ≤ c ∧ c ≤ 0x7a then some (c.toNat - 0x61 + 26)
  else if 0x30 ≤ c ∧ c ≤ 0x39 then some (c.toNat - 0x30 + 52)
  else if c = 0x2b then some 62 else if c = 0x2f then some 63 else none

abbrev pad : UInt8 := 0x3d

def encode : List UInt8 → List UInt8
  | [] => []
  | [a] => [letter (a.toNat / 4), letter (a.toNat % 4 * 16), pad, pad]
  | [a, b] =>
    [letter (a.toNat / 4), letter (a.toNat % 4 * 16 + b.toNat / 16), letter (b.toNat % 16 * 4), pad]
  | a :: b :: c :: bytes =>
    letter (a.toNat / 4) :: letter (a.toNat % 4 * 16 + b.toNat / 16) ::
      letter (b.toNat % 16 * 4 + c.toNat / 64) :: letter (c.toNat % 64) :: encode bytes

/-- `buf` holds the last `nbits` bits that came in. -/
def decodeFrom (buf nbits : Nat) : List UInt8 → List UInt8
  | [] => []
  | c :: text =>
    match value c with
    | none => decodeFrom buf nbits text
    | some d =>
      if 8 ≤ nbits + 6 then
        UInt8.ofNat ((buf * 64 + d) / 2 ^ (nbits - 2)) ::
          decodeFrom ((buf * 64 + d) % 2 ^ (nbits - 2)) (nbits - 2) text
      else decodeFrom (buf * 64 + d) (nbits + 6) text

def decode (text : List UInt8) : List UInt8 := decodeFrom 0 0 text

/-! ## The letters -/

theorem value_letter {d : Nat} (h : d < 64) : value (letter d) = some d := by
  revert d
  decide

theorem value_pad : value pad = none := by decide

theorem letter_plain {d : Nat} (h : d < 64) :
    0x2b ≤ letter d ∧ letter d ≤ 0x7a ∧ letter d ≠ 0x5c := by
  revert d
  decide

theorem encode_plain (bytes : List UInt8) : ∀ c ∈ encode bytes, 0x2b ≤ c ∧ c ≤ 0x7a ∧ c ≠ 0x5c := by
  have hpad : 0x2b ≤ pad ∧ pad ≤ 0x7a ∧ pad ≠ 0x5c := by decide
  have hlt : ∀ a : UInt8, a.toNat < 256 := UInt8.toNat_lt
  fun_induction encode bytes with
  | case1 => simp
  | case2 a =>
    have ha := hlt a
    simp only [List.mem_cons, List.not_mem_nil, or_false]
    rintro c (rfl | rfl | rfl | rfl)
    · exact letter_plain (by omega)
    · exact letter_plain (by omega)
    · exact hpad
    · exact hpad
  | case3 a b =>
    have ha := hlt a
    have hb := hlt b
    simp only [List.mem_cons, List.not_mem_nil, or_false]
    rintro c (rfl | rfl | rfl | rfl)
    · exact letter_plain (by omega)
    · exact letter_plain (by omega)
    · exact letter_plain (by omega)
    · exact hpad
  | case4 a b c bytes ih =>
    have ha := hlt a
    have hb := hlt b
    have hc := hlt c
    simp only [List.mem_cons]
    rintro d (rfl | rfl | rfl | rfl | hd)
    · exact letter_plain (by omega)
    · exact letter_plain (by omega)
    · exact letter_plain (by omega)
    · exact letter_plain (by omega)
    · exact ih d hd

/-! ## The round trip -/

theorem decodeFrom_few {buf nbits d : Nat} (hd : d < 64) (hn : nbits < 2) (text : List UInt8) :
    decodeFrom buf nbits (letter d :: text) = decodeFrom (buf * 64 + d) (nbits + 6) text := by
  rw [decodeFrom, value_letter hd]
  simp only [if_neg (show ¬ 8 ≤ nbits + 6 by omega)]

theorem decodeFrom_letter (a : UInt8) (k low : Nat) {buf d : Nat} (hd : d < 64) (hlow : low < 2 ^ k)
    (h : buf * 64 + d = a.toNat * 2 ^ k + low) (text : List UInt8) :
    decodeFrom buf (k + 2) (letter d :: text) = a :: decodeFrom low k text := by
  have hdiv : (a.toNat * 2 ^ k + low) / 2 ^ k = a.toNat := by
    rw [Nat.mul_comm, Nat.mul_add_div (Nat.two_pow_pos k), Nat.div_eq_of_lt hlow, Nat.add_zero]
  have hmod : (a.toNat * 2 ^ k + low) % 2 ^ k = low := by
    rw [Nat.mul_comm, Nat.mul_add_mod, Nat.mod_eq_of_lt hlow]
  rw [decodeFrom, value_letter hd]
  simp only [if_pos (show 8 ≤ k + 2 + 6 by omega), Nat.add_sub_cancel, h, hdiv, hmod,
    UInt8.ofNat_toNat]

theorem decodeFrom_pad (buf nbits : Nat) (text : List UInt8) :
    decodeFrom buf nbits (pad :: text) = decodeFrom buf nbits text := by
  rw [decodeFrom, value_pad]

/-- **Round trip.** -/
theorem decode_encode (bytes : List UInt8) : decode (encode bytes) = bytes := by
  have hlt : ∀ a : UInt8, a.toNat < 256 := UInt8.toNat_lt
  unfold decode
  fun_induction encode bytes with
  | case1 => rfl
  | case2 a =>
    have ha := hlt a
    rw [decodeFrom_few (by omega) (by omega),
      decodeFrom_letter a 4 0 (by omega) (by decide) (by omega),
      decodeFrom_pad, decodeFrom_pad]
    rfl
  | case3 a b =>
    have ha := hlt a
    have hb := hlt b
    rw [decodeFrom_few (by omega) (by omega),
      decodeFrom_letter a 4 (b.toNat / 16) (by omega) (by omega) (by omega),
      decodeFrom_letter b 2 0 (by omega) (by decide) (by omega),
      decodeFrom_pad]
    rfl
  | case4 a b c bytes ih =>
    have ha := hlt a
    have hb := hlt b
    have hc := hlt c
    rw [decodeFrom_few (by omega) (by omega),
      decodeFrom_letter a 4 (b.toNat / 16) (by omega) (by omega) (by omega),
      decodeFrom_letter b 2 (c.toNat / 64) (by omega) (by omega) (by omega),
      decodeFrom_letter c 0 0 (by omega) (by decide) (by omega), ih]

end Lib.Base64
