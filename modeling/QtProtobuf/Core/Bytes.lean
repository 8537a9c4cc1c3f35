import Mathlib.Algebra.Group.Int.Defs
import Mathlib.Algebra.Group.Nat.Defs

/-!
# Byte buffers

A `QByteArray` is a list of bytes. What a read beyond its size yields is up to
the memory behind the buffer: a zero at offset `size()`, then anything.
-/
namespace QtProtobuf

abbrev Bytes := List UInt8

/-- `data()[i]`; `mem` is the memory behind the terminating zero. -/
def byteAt (mem : Nat → UInt8) (data : Bytes) (i : Nat) : UInt8 :=
  if i = data.length then 0 else data.getD i (mem i)

theorem byteAt_of_lt {mem : Nat → UInt8} {data : Bytes} {i : Nat} (h : i < data.length) :
    byteAt mem data i = data[i] := by
  unfold byteAt
  rw [if_neg (by omega), List.getD_eq_getElem?_getD, List.getElem?_eq_getElem h, Option.getD_some]

/-- A signed 32-bit integer: `int`, as two's complement has it. -/
def int32 (n : Int) : Int := n.bmod (2 ^ 32)

theorem int32_of_range {n : Int} (h₁ : -2 ^ 31 ≤ n) (h₂ : n < 2 ^ 31) : int32 n = n := by
  unfold int32
  rw [Int.bmod_eq_of_le_mul_two] <;> omega

/-- Above `INT_MAX` the value wraps once. -/
theorem int32_of_wrap {n : Int} (h₁ : 2 ^ 31 ≤ n) (h₂ : n < 2 ^ 32) : int32 n = n - 2 ^ 32 := by
  unfold int32
  rw [Int.bmod_def, Int.emod_eq_of_lt (by omega) (by omega), if_neg (by omega)]
  rfl

theorem int32_range (n : Int) : -2 ^ 31 ≤ int32 n ∧ int32 n < 2 ^ 31 :=
  ⟨Int.le_bmod (by decide), Int.bmod_lt (by decide)⟩

/-- An `int` as an `int64_t`, and back. -/
theorem setWidth_signExtend (v : BitVec 32) : (v.signExtend 64).setWidth 32 = v := by
  apply BitVec.eq_of_getLsbD_eq
  intro i hi
  rw [BitVec.getLsbD_setWidth, BitVec.getLsbD_signExtend, if_pos hi]
  simp only [hi, decide_true, Bool.true_and, Bool.and_eq_right_iff_imp, decide_eq_true_eq]
  omega

end QtProtobuf
