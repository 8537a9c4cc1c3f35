import QtProtobuf.Core.Json
import Mathlib.Data.Nat.Digits.Defs
import Mathlib.Data.Nat.Digits.Lemmas

/-!
# Decimal numbers

* `ofDecimal_decimal`: the digits of a number give the number.
* `number_decimal`: an integer in decimal is a number of JSON.
-/
namespace Lib.Json

/-- The digits, without leading zeros. -/
def decimal (n : Nat) : Text :=
  if n = 0 then [0x30] else ((Nat.digits 10 n).map fun d => UInt8.ofNat (0x30 + d)).reverse

def decimalInt : Int → Text
  | .ofNat n => decimal n
  | .negSucc n => minus :: decimal (n + 1)

/-- The number that the digits stand for. -/
def ofDecimal (ds : Text) : Nat := ds.foldl (fun n c => 10 * n + (c.toNat - 0x30)) 0

theorem digitByte {d : Nat} (h : d < 10) :
    isDigit (UInt8.ofNat (0x30 + d)) = true ∧ (UInt8.ofNat (0x30 + d)).toNat - 0x30 = d ∧
      (UInt8.ofNat (0x30 + d) = 0x30 → d = 0) := by
  revert d
  decide

theorem decimal_isDigit (n : Nat) : ∀ c ∈ decimal n, isDigit c = true := by
  intro c hc
  unfold decimal at hc
  split at hc
  · simp only [List.mem_singleton] at hc
    subst hc
    decide
  · simp only [List.mem_reverse, List.mem_map] at hc
    obtain ⟨d, hd, rfl⟩ := hc
    exact (digitByte (Nat.digits_lt_base (by decide) hd)).1

theorem ofDecimal_decimal (n : Nat) : ofDecimal (decimal n) = n := by
  unfold decimal
  split
  · subst_vars
    rfl
  · have hdigits : ∀ ds : List Nat, (∀ d ∈ ds, d < 10) →
        ofDecimal ((ds.map fun d => UInt8.ofNat (0x30 + d)).reverse) = Nat.ofDigits 10 ds := by
      intro ds h
      induction ds with
      | nil => rfl
      | cons d ds ih =>
        have hd := (digitByte (h d List.mem_cons_self)).2.1
        have := ih fun d' hd' => h d' (List.mem_cons_of_mem d hd')
        simp only [ofDecimal] at this
        simp only [List.map_cons, List.reverse_cons, ofDecimal, List.foldl_append, this,
          List.foldl_cons, List.foldl_nil, hd, Nat.ofDigits_cons]
        omega
    rw [hdigits _ fun d hd => Nat.digits_lt_base (by decide) hd, Nat.ofDigits_digits]

/-- The first digit of a number that is not zero is not zero. -/
theorem intPart_decimal (n : Nat) : IntPart (decimal n) := by
  have hall := decimal_isDigit n
  unfold decimal at hall ⊢
  split
  · exact .zero
  · next hn =>
    rw [if_neg hn] at hall
    have hne : Nat.digits 10 n ≠ [] := Nat.digits_ne_nil_iff_ne_zero.mpr hn
    have hlast := Nat.getLast_digit_ne_zero 10 hn
    obtain ⟨ds, d, hds⟩ : ∃ ds d, Nat.digits 10 n = ds ++ [d] :=
      ⟨_, _, (List.dropLast_append_getLast hne).symm⟩
    have hd0 : d ≠ 0 := by simpa [hds] using hlast
    have hd : d < 10 := Nat.digits_lt_base (by decide) (hds ▸ by simp : d ∈ Nat.digits 10 n)
    rw [hds] at hall ⊢
    simp only [List.map_append, List.map_cons, List.map_nil, List.reverse_append,
      List.reverse_cons, List.reverse_nil, List.nil_append, List.singleton_append] at hall ⊢
    exact .digits (hall _ List.mem_cons_self) (fun h0 => hd0 ((digitByte hd).2.2 h0))
      fun c hc => hall c (List.mem_cons_of_mem _ hc)

theorem number_decimal (n : Nat) : Number (decimal n) := by
  simpa using Number.mk .absent (intPart_decimal n) .absent .absent

theorem number_decimalInt (n : Int) : Number (decimalInt n) := by
  cases n with
  | ofNat n => exact number_decimal n
  | negSucc n => simpa [decimalInt] using Number.mk .minus (intPart_decimal (n + 1)) .absent .absent

end Lib.Json
