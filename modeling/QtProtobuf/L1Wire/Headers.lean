import QtProtobuf.L1Wire.VarintInputs

/-!
# Which headers are accepted (`protobuf/qprotobufserializer_p.h`)

`decodeHeader` checks the field index and the wire type of a 32-bit value: a
varint in front of it is summed modulo 2^32 first, so an oversized header is
checked, and accepted, as what is left of it.

* `header_reads`: what `decodeHeader` yields for any varint of at most ten bytes.
* `decodesHeader_iff`: its answer is about the value of the varint exactly if the
  value is below 2^32, or the low 32 bits are refused as well.
* `header_exact_iff`: the same in front of any varint, and `encodeHeader` is inverted.
-/
namespace QtProtobuf.Wire

open Lib

/-- `8 * f + w`, for a field `f` and a wire type that is written. -/
structure IsFieldHeader (v f w : Nat) : Prop where
  value : v = 8 * f + w
  first : 1 ≤ f
  last : f ≤ 2 ^ 29 - 1
  wire : w = 0 ∨ w = 1 ∨ w = 2 ∨ w = 5

/-- The check of `decodeHeader`, on the value of a header. -/
def acceptable (v : Nat) : Bool := decide (0 < v / 8) && (WireTypes.ofNat (v % 8)).known

theorem known_ofNat_iff {w : Nat} : (WireTypes.ofNat w).known = true ↔ w = 0 ∨ w = 1 ∨ w = 2 ∨ w = 5 := by
  match w with
  | 0 | 1 | 2 | 3 | 4 | 5 => decide
  | n + 6 =>
    have hother : (WireTypes.ofNat (n + 6)).known = false := rfl
    rw [hother]
    constructor
    · exact fun h => absurd h Bool.false_ne_true
    · omega

theorem acceptable_iff {v : Nat} (hv : v < 2 ^ 32) : acceptable v = true ↔ ∃ f w, IsFieldHeader v f w := by
  unfold acceptable
  rw [Bool.and_eq_true, decide_eq_true_eq, known_ofNat_iff]
  constructor
  · intro ⟨hpos, hw⟩
    exact ⟨v / 8, v % 8, by omega, by omega, by omega, hw⟩
  · intro ⟨f, w, h⟩
    obtain ⟨hval, hfirst, -, hw⟩ := h
    omega

theorem IsFieldHeader.lt {v f w : Nat} (h : IsFieldHeader v f w) : v < 2 ^ 32 := by
  obtain ⟨hval, -, hlast, hw⟩ := h
  omega

theorem IsFieldHeader.index {v f w : Nat} (h : IsFieldHeader v f w) : v / 8 = f := by
  obtain ⟨hval, -, -, hw⟩ := h
  omega

theorem IsFieldHeader.wireType {v f w : Nat} (h : IsFieldHeader v f w) : v % 8 = w := by
  obtain ⟨hval, -, -, hw⟩ := h
  omega

/-! ## Decoding -/

/-- What `decodeHeader` yields for the value of a header. -/
def headerOf (v : Nat) : Bool × Nat × WireTypes :=
  (acceptable (v % 2 ^ 32), v % 2 ^ 32 / 8, .ofNat (v % 8))

theorem header_value (header : BitVec 32) :
    (decide ((header >>> 3).toNat ≤ (1 <<< 29) - 1 ∧ (header >>> 3).toNat > 0) &&
        (WireTypes.ofNat (header &&& 7).toNat).known,
      (header >>> 3).toNat, WireTypes.ofNat (header &&& 7).toNat) = headerOf header.toNat := by
  have hlt := header.isLt
  have hindex : (header >>> 3).toNat = header.toNat / 8 := by
    rw [BitVec.toNat_ushiftRight, Nat.shiftRight_eq_div_pow]
  have hwire : (header &&& 7).toNat = header.toNat % 8 := by
    have h7 : (7 : BitVec 32).toNat = 2 ^ 3 - 1 := rfl
    rw [BitVec.toNat_and, h7, Nat.and_two_pow_sub_one_eq_mod]
  -- the index of a 32-bit header is never above the maximum
  have hmax : (header.toNat / 8 ≤ (1 <<< 29) - 1 ∧ header.toNat / 8 > 0) ↔ 0 < header.toNat / 8 := by
    rw [show (1 <<< 29) - 1 = 2 ^ 29 - 1 from rfl]
    omega
  rw [hindex, hwire, headerOf, acceptable, Nat.mod_eq_of_lt hlt, decide_eq_decide.mpr hmax]

/-- A header varint is taken whole; the answer is about its low 32 bits. -/
theorem header_reads {b : Buffer} (hl : b.data.length < 2 ^ 31) {it : Iter} {rest bs tail : Bytes}
    (h : At b it rest) (hs : Starts rest bs tail) :
    ∃ it', Traced.Runs (decodeHeader b) it (headerOf (varintValue bs)) it' ∧ At b it' tail := by
  obtain ⟨it', hrun, h'⟩ := starts_runs hl (w := 32) (by decide) h hs
  refine ⟨it', hrun.bind ?_, h'⟩
  have hvalue : headerOf (BitVec.ofNat 32 (varintValue bs)).toNat = headerOf (varintValue bs) := by
    simp only [headerOf, BitVec.toNat_ofNat, Nat.mod_mod]
    rw [Nat.mod_mod_of_dvd _ (by decide)]
  rw [← hvalue, ← header_value]
  exact Traced.Runs.pure _ _

/-- What is asked of `decodeHeader` in front of the varint `bs`. -/
structure DecodesHeader (b : Buffer) (it : Iter) (bs tail : Bytes) : Prop where
  /-- the varint is taken, and accepted if it is the header of a field -/
  consumes : ∃ accepted f t it', Traced.Runs (decodeHeader b) it (accepted, f, t) it' ∧ At b it' tail ∧
    (accepted = true ↔ ∃ f w, IsFieldHeader (varintValue bs) f w)
  /-- and what is accepted is read as that field -/
  yields : ∀ f t it', Traced.Runs (decodeHeader b) it (true, f, t) it' →
    ∃ w, IsFieldHeader (varintValue bs) f w ∧ t = .ofNat w

theorem decodesHeader_iff {b : Buffer} (hl : b.data.length < 2 ^ 31) {it : Iter} {rest bs tail : Bytes}
    (h : At b it rest) (hs : Starts rest bs tail) :
    DecodesHeader b it bs tail ↔ varintValue bs < 2 ^ 32 ∨ acceptable (varintValue bs % 2 ^ 32) = false := by
  obtain ⟨it', hrun, h'⟩ := header_reads hl h hs
  constructor
  · intro hd
    cases hacc : acceptable (varintValue bs % 2 ^ 32) with
    | false => exact .inr rfl
    | true =>
      rw [headerOf, hacc] at hrun
      obtain ⟨w, hheader, -⟩ := hd.yields _ _ _ hrun
      exact .inl hheader.lt
  · intro hcond
    have hiff : acceptable (varintValue bs % 2 ^ 32) = true ↔ ∃ f w, IsFieldHeader (varintValue bs) f w := by
      rcases hcond with hlt | hrefused
      · rw [Nat.mod_eq_of_lt hlt]
        exact acceptable_iff hlt
      · rw [hrefused]
        constructor
        · exact fun hf => absurd hf Bool.false_ne_true
        · -- the header of a field is below 2^32 and would have been accepted
          intro ⟨f, w, hheader⟩
          rw [Nat.mod_eq_of_lt hheader.lt] at hrefused
          have hok := (acceptable_iff hheader.lt).mpr ⟨f, w, hheader⟩
          exact absurd (hrefused.symm.trans hok) Bool.false_ne_true
    refine ⟨⟨_, _, _, it', hrun, h', hiff⟩, fun f t it'' hrun' => ?_⟩
    obtain ⟨hsame, -⟩ := hrun.det hrun'
    simp only [headerOf, Prod.mk.injEq] at hsame
    obtain ⟨hacc, hf, ht⟩ := hsame
    obtain ⟨f', w, hheader⟩ := hiff.mp hacc
    have hmod := Nat.mod_eq_of_lt hheader.lt
    rw [hmod, hheader.index] at hf
    rw [hheader.wireType] at ht
    exact ⟨w, hf ▸ hheader, ht.symm⟩

/-- A header that was written is read back. -/
theorem decodeHeader_encodeHeader {f : Nat} {t : WireTypes} (hpos : 1 ≤ f) (hf : f < 2 ^ 29)
    (ht : t.known = true) {b : Buffer} (hl : b.data.length < 2 ^ 31) {it : Iter} {tail : Bytes}
    (h : At b it (encodeHeader f t ++ tail)) :
    ∃ it', Traced.Runs (decodeHeader b) it (true, f, t) it' ∧ At b it' tail := by
  obtain ⟨hb, hlen, hval⟩ := encodeHeader_isVarint hf ht
  have hw := WireTypes.bits_lt ht
  obtain ⟨it', hrun, h'⟩ := header_reads hl h ⟨rfl, hb, hlen⟩
  have hindex : (8 * f + t.bits.toNat) / 8 = f := by omega
  have hwire : (8 * f + t.bits.toNat) % 8 = t.bits.toNat := by omega
  have hsmall : (8 * f + t.bits.toNat) % 2 ^ 32 = 8 * f + t.bits.toNat := Nat.mod_eq_of_lt (by omega)
  have hvalue : headerOf (varintValue (encodeHeader f t)) = (true, f, t) := by
    rw [hval, headerOf, acceptable, hsmall, hindex, hwire, WireTypes.ofNat_bits ht, ht]
    simp [Nat.lt_of_lt_of_le Nat.zero_lt_one hpos]
  exact ⟨it', hvalue ▸ hrun, h'⟩

/-- **Headers.** In front of any varint of at most ten bytes the answer is about
its value, or the value is above 32 bits and its low 32 bits are accepted; what
`encodeHeader` writes is read back. -/
theorem header_exact_iff (b : Buffer) (it : Iter) (rest bs tail : Bytes) (hl : b.data.length < 2 ^ 31)
    (h : At b it rest) (hs : Starts rest bs tail) :
    (DecodesHeader b it bs tail ↔ varintValue bs < 2 ^ 32 ∨ acceptable (varintValue bs % 2 ^ 32) = false) ∧
      ∀ (f : Nat) (t : WireTypes), 1 ≤ f → f ≤ 2 ^ 29 - 1 → t.known = true → bs = encodeHeader f t →
        ∃ it', Traced.Runs (decodeHeader b) it (true, f, t) it' ∧ At b it' tail := by
  refine ⟨decodesHeader_iff hl h hs, fun f t hpos hlast ht hbs => ?_⟩
  rw [hs.1, hbs] at h
  exact decodeHeader_encodeHeader hpos (by omega) ht hl h

theorem header_exact_largest :
    ∃ it', Traced.Runs (decodeHeader ⟨encodeHeader (2 ^ 29 - 1) .fixed32, fun _ => 0⟩)
      (.ofBuffer ⟨encodeHeader (2 ^ 29 - 1) .fixed32, fun _ => 0⟩) (true, 2 ^ 29 - 1, .fixed32) it' := by
  obtain ⟨hb, hlen, -⟩ := encodeHeader_isVarint (f := 2 ^ 29 - 1) (t := .fixed32) (by decide) rfl
  obtain ⟨-, hwritten⟩ := header_exact_iff ⟨encodeHeader (2 ^ 29 - 1) .fixed32, fun _ => 0⟩ (.ofBuffer _)
    (encodeHeader (2 ^ 29 - 1) .fixed32) (encodeHeader (2 ^ 29 - 1) .fixed32) [] (by decide) (.ofBuffer _)
    ⟨(List.append_nil _).symm, hb, hlen⟩
  obtain ⟨it', hrun, -⟩ := hwritten (2 ^ 29 - 1) .fixed32 (by decide) (by decide) rfl rfl
  exact ⟨it', hrun⟩

/-- The varint of 2^32 + 8. -/
def oversized : Buffer := ⟨[0x88, 0x80, 0x80, 0x80, 0x10], fun _ => 0⟩

/-- It is accepted as the header of field 1. -/
theorem not_decodesHeader_oversized :
    varintValue oversized.data = 2 ^ 32 + 8 ∧
      (∃ it', Traced.Runs (decodeHeader oversized) (.ofBuffer oversized) (true, 1, .varint) it') ∧
      ¬ DecodesHeader oversized (.ofBuffer oversized) oversized.data [] := by
  have hs : Starts oversized.data oversized.data [] := ⟨rfl, by decide, by decide⟩
  obtain ⟨it', hrun, -⟩ := header_reads (by decide) (.ofBuffer oversized) hs
  refine ⟨by decide, ⟨it', hrun⟩, fun hd => ?_⟩
  obtain ⟨w, hheader, -⟩ := hd.yields 1 .varint it' hrun
  exact absurd hheader.lt (by decide)

end QtProtobuf.Wire
