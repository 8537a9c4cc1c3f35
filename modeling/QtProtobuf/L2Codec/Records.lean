import QtProtobuf.L2Codec.Reading
import QtProtobuf.L2Codec.Serialize

/-!
# Reading what was written

`Reads size w bs v`: in a buffer of `size` bytes `w` takes exactly `bs`, whatever
follows, and yields `v`. `Rounds size body b bs d`: so do the rounds of a loop.

* `Reads.bind`, `Rounds.run`: how they compose.
* `reads_varint`, `reads_header`, `reads_lengthDelimited`, `reads_element`,
  `reads_list`: the writers of the basic types and their readers.
-/
namespace QtProtobuf.Codec

open Lib Wire

section
variable {size : Nat} {α β γ : Type}

def Reads (size : Nat) (w : Walk Stop Bytes α) (bs : Bytes) (v : α) : Prop :=
  ∀ tail, (bs ++ tail).length ≤ size → w.run (bs ++ tail) = .ok v tail

theorem Reads.pure (v : α) : Reads size (Pure.pure v : Walk Stop Bytes α) [] v := fun _ _ => rfl

theorem Reads.bind {w : Walk Stop Bytes α} {k : α → Walk Stop Bytes β} {bs cs : Bytes} {a : α} {b : β}
    (hw : Reads size w bs a) (hk : Reads size (k a) cs b) : Reads size (w >>= k) (bs ++ cs) b := by
  intro tail hl
  rw [List.append_assoc] at hl ⊢
  have hl' : (cs ++ tail).length ≤ size := by
    rw [List.length_append] at hl
    omega
  rw [Walk.run_bind_ok (hw (cs ++ tail) hl)]
  exact hk tail hl'

theorem Reads.map {w : Walk Stop Bytes α} {bs : Bytes} {a : α} (hw : Reads size w bs a) (g : α → β) :
    Reads size (w >>= fun a => Pure.pure (g a)) bs (g a) := by
  have h := hw.bind (k := fun a => Pure.pure (g a)) (Reads.pure (g a))
  rwa [List.append_nil] at h

/-- The rounds of a loop, one after the other. -/
inductive Rounds (size : Nat) (body : β → Walk Stop Bytes β) : β → Bytes → β → Prop
  | nil (b : β) : Rounds size body b [] b
  | cons {b c d : β} {bs cs : Bytes} (h : Reads size (body b) bs c) (hne : bs ≠ [])
    (hr : Rounds size body c cs d) : Rounds size body b (bs ++ cs) d

namespace Rounds

variable {body : β → Walk Stop Bytes β} {b c d : β} {bs cs : Bytes}

theorem single (h : Reads size (body b) bs c) (hne : bs ≠ []) : Rounds size body b bs c := by
  have hr := Rounds.cons h hne (.nil c)
  rwa [List.append_nil] at hr

theorem append (h : Rounds size body b bs c) (hr : Rounds size body c cs d) :
    Rounds size body b (bs ++ cs) d := by
  induction h with
  | nil b => exact hr
  | cons h hne _ ih =>
    rw [List.append_assoc]
    exact .cons h hne (ih hr)

/-- A loop up to where `tail` begins makes these rounds. -/
theorem run (h : Rounds size body b bs d) {tail : Bytes} {n : Nat}
    (hl : (bs ++ tail).length ≤ size) (hn : bs.length < n) :
    (Walk.whileM (Rest.differs tail.length) body n b).run (bs ++ tail) = .ok d tail := by
  induction h generalizing n with
  | nil b =>
    obtain ⟨n, rfl⟩ : ∃ k, n = k + 1 := ⟨n - 1, by omega⟩
    exact Walk.run_while_false (by simp [Rest.differs])
  | @cons b c d bs cs h hne _ ih =>
    obtain ⟨n, rfl⟩ : ∃ k, n = k + 1 := ⟨n - 1, by omega⟩
    have hpos : 0 < bs.length := List.length_pos_iff.mpr hne
    rw [List.append_assoc] at hl ⊢
    rw [List.length_append] at hn
    have hc : Rest.differs tail.length (bs ++ (cs ++ tail)) = true := by
      unfold Rest.differs
      rw [bne_iff_ne, List.length_append, List.length_append]
      omega
    rw [Walk.run_while_true hc (h (cs ++ tail) hl)]
    refine ih ?_ (by omega)
    rw [List.length_append] at hl
    omega

end Rounds

end

/-! ## Bytes in memory -/

theorem littleEndian_length (n v : Nat) : (littleEndian n v).length = n := by
  induction n generalizing v with
  | zero => rfl
  | succ n ih => rw [littleEndian, List.length_cons, ih]

theorem ofLittleEndian_littleEndian (n v : Nat) (h : v < 256 ^ n) :
    ofLittleEndian (littleEndian n v) = v := by
  induction n generalizing v with
  | zero => simp at h; subst h; rfl
  | succ n ih =>
    have hlt : v / 256 < 256 ^ n := Nat.div_lt_of_lt_mul (by rw [Nat.pow_succ] at h; omega)
    rw [littleEndian, ofLittleEndian, ih _ hlt, UInt8.toNat_ofNat']
    omega

/-- The bit under a shift by the sign. -/
theorem getLsbD_zigZag {w : Nat} (v : BitVec w) (i : Nat) (hi : i < w) :
    (zigZag v).getLsbD i = ((decide (0 < i) && v.getLsbD (i - 1)) ^^ v.msb) := by
  unfold zigZag
  have hs : (v.sshiftRight (w - 1)).getLsbD i = v.msb := by
    rw [BitVec.getLsbD_sshiftRight]
    by_cases h0 : i = 0
    · subst h0
      have hlt : w - 1 + 0 < w := by omega
      rw [if_pos hlt, BitVec.msb_eq_getLsbD_last]
      simp only [Nat.add_zero, Nat.le_zero]
      cases v.getLsbD (w - 1) with
      | false => simp
      | true => simp; omega
    · have hlt : ¬ w - 1 + i < w := by omega
      rw [if_neg hlt]
      simp [hi]
  rw [BitVec.getLsbD_xor, hs, BitVec.getLsbD_shiftLeft]
  cases i with
  | zero => simp
  | succ i => simp [hi]

/-- **Zig-zag.** -/
theorem unZigZag_zigZag {w : Nat} (hw : 0 < w) (v : BitVec w) : unZigZag (zigZag v) = v := by
  have hlow : (-1 * (zigZag v &&& 1) : BitVec w) = if v.msb then BitVec.allOnes w else 0 := by
    have hand : (zigZag v &&& 1 : BitVec w) = if v.msb then 1 else 0 := by
      apply BitVec.eq_of_getLsbD_eq
      intro i hi
      rw [BitVec.getLsbD_and, getLsbD_zigZag v i hi]
      cases i with
      | zero => cases hm : v.msb <;> simp [hw]
      | succ i => cases hm : v.msb <;> simp [BitVec.getLsbD_one]
    rw [hand]
    cases v.msb with
    | true => simp [BitVec.neg_one_eq_allOnes]
    | false => simp
  unfold unZigZag
  rw [hlow]
  apply BitVec.eq_of_getLsbD_eq
  intro i hi
  rw [BitVec.getLsbD_xor, BitVec.getLsbD_ushiftRight]
  by_cases hlast : 1 + i < w
  · have hpos : 0 < 1 + i := by omega
    rw [getLsbD_zigZag v (1 + i) hlast]
    cases hm : v.msb <;> simp [hi, hpos]
  · have hi' : i = w - 1 := by omega
    have hout : (zigZag v).getLsbD (1 + i) = false := BitVec.getLsbD_of_ge _ _ (by omega)
    rw [hout]
    have hmsb : v.msb = v.getLsbD i := by rw [BitVec.msb_eq_getLsbD_last, hi']
    rw [← hmsb]
    cases v.msb <;> simp [hi]

/-! ## The basic types -/

section
variable {size : Nat} (hsize : size < 2 ^ 31)
include hsize

theorem reads_varint {w : Nat} {bs : Bytes} (hw : w ≤ 64) (hb : IsVarint bs) (hlen : bs.length ≤ 10) :
    Reads size (Rest.varint w) bs (BitVec.ofNat w (varintValue bs)) := by
  intro tail hl
  rcases Rest.varint_run hw hb hlen tail with h | ⟨-, h⟩
  · exact h
  · omega

/-- The header of a field, in any number of bytes. -/
theorem reads_header {f : Nat} {t : WireTypes} {bs : Bytes} (h0 : 0 < f) (hf : f < 2 ^ 29)
    (ht : t.known = true) (hb : IsVarint bs) (hlen : bs.length ≤ 10)
    (hval : varintValue bs = 8 * f + t.bits.toNat) : Reads size Rest.header bs (true, f, t) := by
  have hres : (decide (f ≤ (1 <<< 29) - 1 ∧ f > 0) && (WireTypes.ofNat t.bits.toNat).known) = true := by
    have hle : f ≤ (1 <<< 29) - 1 := by
      have : (1 <<< 29) - 1 = 2 ^ 29 - 1 := rfl
      omega
    rw [WireTypes.ofNat_bits ht, ht, decide_eq_true ⟨hle, h0⟩]
    rfl
  intro tail hl
  rcases Rest.header_run hb hlen hval (WireTypes.bits_lt ht) hf tail with h | ⟨-, h⟩
  · rw [h, hres, WireTypes.ofNat_bits ht]
  · omega

theorem reads_encodeHeader {f : Nat} {t : WireTypes} (h0 : 0 < f) (hf : f < 2 ^ 29) (ht : t.known = true) :
    Reads size Rest.header (encodeHeader f t) (true, f, t) := by
  obtain ⟨hb, hlen, hval⟩ := encodeHeader_isVarint hf ht
  exact reads_header hsize h0 hf ht hb hlen hval

theorem fits_front {bs tail : Bytes} (hl : (bs ++ tail).length ≤ size) :
    Fits (bs ++ tail).length bs.length :=
  Fits.of_le (by rw [List.length_append]; omega) (by omega)

theorem front_lt {bs tail : Bytes} (hl : (bs ++ tail).length ≤ size) : bs.length < 2 ^ 31 := by
  rw [List.length_append] at hl
  omega

theorem reads_take (bs : Bytes) : Reads size (Rest.take bs.length) bs bs := by
  intro tail hl
  unfold Rest.take
  dsimp only
  rw [if_pos (fits_front hsize hl), List.take_left, List.drop_left]

theorem reads_advance (bs : Bytes) : Reads size (Rest.advance bs.length) bs () := by
  intro tail hl
  unfold Rest.advance
  dsimp only
  rw [if_pos (fits_front hsize hl), List.drop_left]

theorem reads_takeLength {length : BitVec 32} {bs : Bytes} (hlen : length.toNat = bs.length) :
    Reads size (Rest.takeLength length) bs bs := by
  intro tail hl
  unfold Rest.takeLength
  dsimp only
  rw [hlen, if_pos (fits_front hsize hl), if_pos (front_lt hsize hl), List.take_left, List.drop_left]

theorem reads_advanceLength {length : BitVec 32} {bs : Bytes} (hlen : length.toNat = bs.length) :
    Reads size (Rest.advanceLength length) bs () := by
  intro tail hl
  unfold Rest.advanceLength
  dsimp only
  rw [hlen, if_pos (fits_front hsize hl), if_pos (front_lt hsize hl), List.drop_left]

/-! ## Length prefixes -/

omit hsize in
/-- The number a length prefix is read as. -/
theorem length_toNat {body : Bytes} (h : body.length < 2 ^ 31) :
    (BitVec.ofNat 32 body.length).toNat = body.length := by
  rw [BitVec.toNat_ofNat]
  exact Nat.mod_eq_of_lt (by omega)

/-- The length prefix of `data` is read as the number of its bytes. -/
theorem reads_size {data : Bytes} (hd : data.length ≤ size) :
    Reads size (Rest.varint 32) (serializeVarintCommon (data.length % 2 ^ 32))
      (BitVec.ofNat 32 data.length) := by
  have hmod : data.length % 2 ^ 32 = data.length := Nat.mod_eq_of_lt (by omega)
  obtain ⟨hb, hval, hlen⟩ := serializeVarintCommon_isVarint (data.length % 2 ^ 32) (by omega)
  have h := reads_varint hsize (w := 32) (by decide) hb hlen
  rw [hval] at h
  rwa [hmod] at h ⊢

omit hsize in
/-- What is prefixed fits into the buffer. -/
theorem reads_prepend {α : Type} {w : Walk Stop Bytes α} {data : Bytes} {v : α}
    (h : data.length ≤ size → Reads size w (serializeVarintCommon (data.length % 2 ^ 32) ++ data) v) :
    Reads size w (prependLengthDelimitedSize data) v := by
  intro tail hl
  refine h ?_ tail hl
  unfold prependLengthDelimitedSize at hl
  rw [List.length_append, List.length_append] at hl
  omega

section
variable {pre data : Bytes} (hpre : Reads size (Rest.varint 32) pre (BitVec.ofNat 32 data.length))
  (hd : data.length < 2 ^ 31)
include hpre hd

theorem reads_delimited : Reads size Rest.lengthDelimited (pre ++ data) data := by
  have h : Reads size (Rest.varint 32 >>= Rest.takeLength) (pre ++ data) data :=
    hpre.bind (reads_takeLength hsize (length_toNat hd))
  exact h

/-- A program that goes on with the end which the length prefix gives. -/
theorem counted_run {β : Type} {k : Nat → Walk Stop Bytes β} {tail : Bytes}
    (hl : (pre ++ data ++ tail).length ≤ size) :
    (Rest.varint 32 >>= fun count => Rest.plusLength size count >>= k).run (pre ++ data ++ tail) =
      (k tail.length).run (data ++ tail) := by
  rw [List.append_assoc] at hl ⊢
  have hl' : (data ++ tail).length ≤ size := by
    rw [List.length_append] at hl
    omega
  have hplus : (Rest.plusLength size (BitVec.ofNat 32 data.length)).run (data ++ tail) =
      .ok tail.length (data ++ tail) := by
    rw [Rest.plusLength_run hl' hsize, length_toNat hd, if_pos (fits_front hsize hl'), if_pos hd,
      List.length_append, Nat.add_sub_cancel_left]
  rw [Walk.run_bind_ok (hpre _ hl), Walk.run_bind_ok hplus]

/-- A loop up to a length prefix. -/
theorem reads_counted {β : Type} {body : β → Walk Stop Bytes β} {b d : β} {n : Bytes → Nat}
    (h : Rounds size body b data d) (hn : ∀ tail, data.length < n (data ++ tail)) :
    Reads size (do
      let count ← Rest.varint 32
      let last ← Rest.plusLength size count
      let rest ← .get
      Walk.whileM (Rest.differs last) body (n rest) b) (pre ++ data) d := by
  intro tail hl
  have hl' : (data ++ tail).length ≤ size := by
    rw [List.append_assoc, List.length_append] at hl
    omega
  refine (counted_run hsize hpre hd hl).trans ?_
  exact h.run hl' (hn tail)

end

theorem reads_lengthDelimited (data : Bytes) :
    Reads size Rest.lengthDelimited (prependLengthDelimitedSize data) data :=
  reads_prepend fun hd => reads_delimited hsize (reads_size hsize hd) (by omega)

/-! ## Numbers -/

omit hsize in
theorem serializeUnsigned_ne_nil {v : Nat} (h : v ≠ 0) : serializeUnsigned v ≠ [] := by
  intro he
  unfold serializeUnsigned clearLast at he
  have hl := congrArg List.length he
  rw [List.length_modify, varintLoop, if_neg h] at hl
  cases hl

/-- An unsigned number that is not elided. -/
theorem reads_unsigned {w : Nat} (hw : w ≤ 64) {v : BitVec w} (h0 : v ≠ 0) :
    Reads size (Rest.varint w) (serializeUnsigned v.toNat) v := by
  have hne : v.toNat ≠ 0 := fun h => h0 (BitVec.eq_of_toNat_eq h)
  have hlt : v.toNat < 2 ^ 64 := Nat.lt_of_lt_of_le v.isLt (Nat.pow_le_pow_right (by decide) hw)
  obtain ⟨hb, hval, hlen⟩ := serializeUnsigned_isVarint v.toNat hne hlt
  have h := reads_varint hsize hw hb hlen
  rwa [hval, BitVec.ofNat_toNat, BitVec.setWidth_eq] at h

/-- The zero of a packed list. -/
theorem reads_zero (w : Nat) (hw : w ≤ 64) : Reads size (Rest.varint w) [0] (0 : BitVec w) :=
  reads_varint hsize hw (show IsVarint [0] by decide) (by decide)

theorem reads_fixed (t : NumType) (v : BitVec t.width) :
    Reads size (Rest.take (t.width / 8)) (littleEndian (t.width / 8) v.toNat)
      (littleEndian (t.width / 8) v.toNat) := by
  have h := reads_take hsize (littleEndian (t.width / 8) v.toNat)
  rwa [littleEndian_length] at h

omit hsize in
theorem ofLittleEndian_width (t : NumType) (v : BitVec t.width) :
    BitVec.ofNat t.width (ofLittleEndian (littleEndian (t.width / 8) v.toNat)) = v := by
  have hpow : 256 ^ (t.width / 8) = 2 ^ t.width := by
    rcases t.width_eq with h | h <;> simp [h]
  rw [ofLittleEndian_littleEndian _ _ (by rw [hpow]; exact v.isLt), BitVec.ofNat_toNat,
    BitVec.setWidth_eq]

/-- A number that keeps its field index is read back. -/
theorem reads_basic (t : NumType) (v : BitVec t.width) (hused : (serializeBasic t v).2 = true) :
    Reads size (Rest.basic t) (serializeBasic t v).1 v := by
  have hw := t.width_le
  have hpos : 0 < t.width := by rcases t.width_eq with h | h <;> omega
  unfold serializeBasic at hused ⊢
  unfold Rest.basic Reader.basic
  cases hc : t.coding with
  | fixed =>
    have h := (reads_fixed hsize t v).map fun bytes => BitVec.ofNat t.width (ofLittleEndian bytes)
    rwa [ofLittleEndian_width] at h
  | plain =>
    rw [hc] at hused
    exact reads_unsigned hsize hw (by simpa using hused)
  | zigZag =>
    rw [hc] at hused
    have h0 : zigZag v ≠ 0 := by simpa using hused
    have h := (reads_unsigned hsize hw h0).map unZigZag
    rwa [unZigZag_zigZag hpos] at h

omit hsize in
/-- A number loses its field index when it is zero. -/
theorem serializeBasic_unused {t : NumType} {v : BitVec t.width}
    (h : (serializeBasic t v).2 = false) : v = 0 ∧ (serializeBasic t v).1 = [] ∧ t.coding ≠ .fixed := by
  have hpos : 0 < t.width := by rcases t.width_eq with h | h <;> omega
  unfold serializeBasic at h ⊢
  cases hc : t.coding with
  | fixed => rw [hc] at h; cases h
  | plain =>
    rw [hc] at h
    have h0 : v = 0 := by simpa using h
    subst h0
    exact ⟨rfl, by simp [serializeUnsigned_zero], by decide⟩
  | zigZag =>
    rw [hc] at h
    have h0 : zigZag v = 0 := by simpa using h
    have hv : v = 0 := by
      rw [← unZigZag_zigZag hpos v, h0]
      simp [unZigZag]
    refine ⟨hv, ?_, by decide⟩
    rw [h0]
    simp [serializeUnsigned_zero]

omit hsize in
theorem serializeBasic_ne_nil {t : NumType} {v : BitVec t.width} (h : (serializeBasic t v).2 = true) :
    (serializeBasic t v).1 ≠ [] := by
  unfold serializeBasic at h ⊢
  cases hc : t.coding with
  | fixed =>
    intro he
    have hl := congrArg List.length he
    have hw := t.width_eq
    simp only [littleEndian_length, List.length_nil] at hl
    omega
  | plain =>
    rw [hc] at h
    have h0 : v ≠ 0 := by simpa using h
    exact serializeUnsigned_ne_nil fun h => h0 (BitVec.eq_of_toNat_eq h)
  | zigZag =>
    rw [hc] at h
    have h0 : zigZag v ≠ 0 := by simpa using h
    exact serializeUnsigned_ne_nil fun h => h0 (BitVec.eq_of_toNat_eq h)

/-- An element of a packed list is read back. -/
theorem reads_element (t : NumType) (v : BitVec t.width) :
    Reads size (Rest.basic t) (serializeElement t v) v := by
  unfold serializeElement
  cases hu : (serializeBasic t v).2 with
  | true =>
    have hne : (serializeBasic t v).1.isEmpty = false := by
      simpa using serializeBasic_ne_nil hu
    rw [hne, if_neg Bool.false_ne_true]
    exact reads_basic hsize t v hu
  | false =>
    obtain ⟨rfl, hnil, hc⟩ := serializeBasic_unused hu
    have hw := t.width_le
    rw [hnil]
    show Reads size (Rest.basic t) [0] 0
    unfold Rest.basic Reader.basic
    cases hcod : t.coding with
    | fixed => exact absurd hcod hc
    | plain => exact reads_zero hsize _ hw
    | zigZag =>
      have h := (reads_zero hsize t.width hw).map unZigZag
      have h0 : unZigZag (0 : BitVec t.width) = 0 := by simp [unZigZag]
      rwa [h0] at h

omit hsize in
theorem serializeElement_ne_nil (t : NumType) (v : BitVec t.width) : serializeElement t v ≠ [] := by
  unfold serializeElement
  split
  · exact List.cons_ne_nil _ _
  · rename_i h
    exact fun he => h (by rw [he]; rfl)

/-- The rounds over the elements of a packed list. -/
theorem rounds_elements (t : NumType) (vs out : List (BitVec t.width)) :
    Rounds size (fun out => Rest.basic t >>= fun v => pure (out ++ [v])) out
      (vs.flatMap (serializeElement t)) (out ++ vs) := by
  induction vs generalizing out with
  | nil => rw [List.append_nil]; exact .nil out
  | cons v vs ih =>
    have h := ih (out ++ [v])
    rw [List.append_assoc] at h
    exact .cons ((reads_element hsize t v).map fun v => out ++ [v]) (serializeElement_ne_nil t v) h

theorem reads_list (t : NumType) (vs : List (BitVec t.width)) :
    Reads size (Rest.list size t) (prependLengthDelimitedSize (vs.flatMap (serializeElement t))) vs := by
  refine reads_prepend fun hd => ?_
  have h := reads_counted hsize (reads_size hsize hd) (by omega) (n := fun rest => rest.length + 1)
    (rounds_elements hsize t vs []) fun tail => by rw [List.length_append]; omega
  exact h

end

end QtProtobuf.Codec
