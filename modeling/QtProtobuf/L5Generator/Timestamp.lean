import QtProtobuf.Core.Bytes

/-!
# The generated `google.protobuf.Timestamp` (`generator/messagedefinitionprinter.cpp`)

The definition printer adds a constructor from a `QDateTime` and a conversion
back. Both take `nanos` for a number of microseconds, so one inverts the other;
the timestamp in between is that of a whole second, or of no date-time at all.

* `ofDateTime_exact_iff`, `toDateTime_exact_iff`: when each of the two is right.
* `timestamp_iff`: both, and that they are inverse for every date-time.
-/
namespace QtProtobuf.Generator

/-- The fields of the message: an `int64_t` and an `int32_t`. -/
structure Timestamp where
  seconds : BitVec 64
  nanos : BitVec 32
  deriving DecidableEq, Repr

namespace Timestamp

/-- The constructor from the `qint64` milliseconds of a date-time.
mirrors src/generator/messagedefinitionprinter.cpp:120-123 -/
def ofDateTime (msecs : BitVec 64) : Timestamp where
  seconds := msecs.sdiv 1000
  nanos := (msecs.srem 1000 * 1000).setWidth 32

/-- The milliseconds of `operator QDateTime`.
mirrors src/generator/messagedefinitionprinter.cpp:124-127 -/
def toDateTime (t : Timestamp) : BitVec 64 := t.seconds * 1000 + (t.nanos.sdiv 1000).signExtend 64

/-- The nanoseconds since the epoch that a timestamp stands for. -/
def nanoseconds (t : Timestamp) : Int := t.seconds.toInt * 10 ^ 9 + t.nanos.toInt

/-- `nanos` counts forward from the second, as the well-known type has it. -/
def Normal (t : Timestamp) : Prop := 0 ≤ t.nanos.toInt ∧ t.nanos.toInt < 10 ^ 9

/-! ## In unbounded numbers -/

/-- `msecs` are `q` seconds and `r` milliseconds of the sign of `msecs`. -/
theorem msecs_parts (msecs : BitVec 64) :
    ∃ q r : Int, msecs.toInt.tdiv 1000 = q ∧ msecs.toInt.tmod 1000 = r ∧ msecs.toInt = 1000 * q + r ∧
      -1000 < r ∧ r < 1000 :=
  ⟨_, _, rfl, rfl, (Int.mul_tdiv_add_tmod _ _).symm, Int.lt_tmod_of_pos _ (by decide),
    Int.tmod_lt_of_pos _ (by decide)⟩

theorem ofDateTime_seconds (msecs : BitVec 64) :
    (ofDateTime msecs).seconds.toInt = msecs.toInt.tdiv 1000 := by
  have h1000 : (1000 : BitVec 64).toInt = 1000 := by decide
  unfold ofDateTime
  rw [BitVec.toInt_sdiv_of_ne_or_ne _ _ (.inr (by decide)), h1000]

theorem ofDateTime_nanos (msecs : BitVec 64) :
    (ofDateTime msecs).nanos.toInt = msecs.toInt.tmod 1000 * 1000 := by
  obtain ⟨q, r, hq, hr, hsum, hlow, hhigh⟩ := msecs_parts msecs
  have h1000 : (1000 : BitVec 64).toInt = 1000 := by decide
  have hwide : (msecs.srem 1000 * 1000).toInt = r * 1000 := by
    rw [BitVec.toInt_mul, BitVec.toInt_srem, h1000, hr]
    exact Int.bmod_eq_of_le_mul_two (by omega) (by omega)
  unfold ofDateTime
  dsimp only
  rw [hr, ← BitVec.signExtend_eq_setWidth_of_le _ (by decide),
    BitVec.toInt_signExtend_eq_toInt_bmod_of_le _ (by decide), hwide]
  exact Int.bmod_eq_of_le_mul_two (by omega) (by omega)

theorem toDateTime_toInt (t : Timestamp) :
    t.toDateTime.toInt = (t.seconds.toInt * 1000 + t.nanos.toInt.tdiv 1000).bmod (2 ^ 64) := by
  have h1000 : (1000 : BitVec 64).toInt = 1000 := by decide
  have h1000' : (1000 : BitVec 32).toInt = 1000 := by decide
  unfold toDateTime
  rw [BitVec.toInt_add, BitVec.toInt_mul, BitVec.toInt_signExtend_of_le (by decide),
    BitVec.toInt_sdiv_of_ne_or_ne _ _ (.inr (by decide)), h1000, h1000', Int.bmod_add_bmod]

/-! ## When they are right -/

theorem ofDateTime_exact_iff (msecs : BitVec 64) :
    ((ofDateTime msecs).nanoseconds = msecs.toInt * 10 ^ 6 ∧ (ofDateTime msecs).Normal) ↔
      msecs.toInt % 1000 = 0 := by
  obtain ⟨q, r, hq, hr, hsum, hlow, hhigh⟩ := msecs_parts msecs
  unfold nanoseconds Normal
  rw [ofDateTime_seconds, ofDateTime_nanos, hq, hr]
  omega

theorem toDateTime_exact_iff {t : Timestamp} (h : t.Normal) :
    t.toDateTime.toInt = t.nanoseconds / 10 ^ 6 ↔
      t.nanos.toInt < 1000 ∧ -2 ^ 63 ≤ t.seconds.toInt * 1000 ∧ t.seconds.toInt * 1000 < 2 ^ 63 := by
  obtain ⟨hlow, hhigh⟩ := h
  have hlt := BitVec.toInt_lt (x := t.toDateTime)
  have hle := BitVec.le_toInt t.toDateTime
  rw [toDateTime_toInt, Int.tdiv_eq_ediv_of_nonneg hlow] at hlt hle ⊢
  unfold nanoseconds
  constructor
  · intro heq
    -- the sum is less than 10^6 above the floor, so it does not wrap onto it
    have hfloor : (t.seconds.toInt * 10 ^ 9 + t.nanos.toInt) / 10 ^ 6 =
        t.seconds.toInt * 1000 + t.nanos.toInt / 10 ^ 6 := by omega
    have hnowrap : t.nanos.toInt / 1000 = t.nanos.toInt / 10 ^ 6 := by
      have hmod := Int.bmod_def (t.seconds.toInt * 1000 + t.nanos.toInt / 1000) (2 ^ 64)
      have hparts : 0 ≤ t.nanos.toInt / 10 ^ 6 ∧ t.nanos.toInt / 10 ^ 6 ≤ t.nanos.toInt / 1000 ∧
          t.nanos.toInt / 1000 < 10 ^ 6 := by omega
      generalize t.nanos.toInt / 1000 = micros at *
      generalize t.nanos.toInt / 10 ^ 6 = millis at *
      omega
    have hsmall : t.nanos.toInt < 1000 := by omega
    rw [heq, hfloor] at hlt hle
    omega
  · intro ⟨hsmall, hmin, hmax⟩
    rw [Int.bmod_eq_of_le_mul_two (by omega) (by omega)]
    omega

theorem toDateTime_ofDateTime (msecs : BitVec 64) : (ofDateTime msecs).toDateTime = msecs := by
  obtain ⟨q, r, hq, hr, hsum, hlow, hhigh⟩ := msecs_parts msecs
  have hlt := BitVec.toInt_lt (x := msecs)
  have hle := BitVec.le_toInt msecs
  refine BitVec.eq_of_toInt_eq ?_
  rw [toDateTime_toInt, ofDateTime_seconds, ofDateTime_nanos, hq, hr, Int.mul_tdiv_cancel _ (by decide),
    Int.mul_comm, ← hsum]
  exact Int.bmod_eq_of_le_mul_two (by omega) (by omega)

/-- **Timestamps.** The constructor is right for whole seconds only, and the
conversion back below a thousand nanoseconds only, where its milliseconds fit 64
bits; together they give every date-time back. -/
theorem timestamp_iff (msecs : BitVec 64) (t : Timestamp) (h : t.Normal) :
    (((ofDateTime msecs).nanoseconds = msecs.toInt * 10 ^ 6 ∧ (ofDateTime msecs).Normal) ↔
        msecs.toInt % 1000 = 0) ∧
      (t.toDateTime.toInt = t.nanoseconds / 10 ^ 6 ↔
        t.nanos.toInt < 1000 ∧ -2 ^ 63 ≤ t.seconds.toInt * 1000 ∧ t.seconds.toInt * 1000 < 2 ^ 63) ∧
      (ofDateTime msecs).toDateTime = msecs :=
  ⟨ofDateTime_exact_iff msecs, toDateTime_exact_iff h, toDateTime_ofDateTime msecs⟩

theorem timestamp_year2000 :
    (ofDateTime 946684800000).nanoseconds = 946684800 * 10 ^ 9 ∧
      (toDateTime ⟨946684800, 999⟩).toInt = 946684800000 := by
  obtain ⟨hof, hto, -⟩ := timestamp_iff 946684800000 ⟨946684800, 999⟩ (by unfold Normal; decide)
  exact ⟨(hof.mpr (by decide)).1, hto.mpr (by decide)⟩

/-- One millisecond after the epoch is said to be a thousand nanoseconds; one
before it, a negative number of them. -/
theorem not_ofDateTime_exact :
    (ofDateTime 1).nanoseconds = 1000 ∧ (1 : BitVec 64).toInt * 10 ^ 6 = 1000000 ∧
      (ofDateTime (-1)).nanos.toInt = -1000 ∧
      ¬ ∀ msecs : BitVec 64,
        (ofDateTime msecs).nanoseconds = msecs.toInt * 10 ^ 6 ∧ (ofDateTime msecs).Normal := by
  refine ⟨by decide, by decide, by decide, fun h => ?_⟩
  exact absurd (h 1).1 (by decide)

end Timestamp

end QtProtobuf.Generator
