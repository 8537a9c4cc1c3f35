import QtProtobuf.L2Codec.Encoding

/-!
# Encodings cut short

Wherever the encoding of a record is cut, the decoder leaves the buffer in one
of the checks of `QProtobufSelfcheckIterator`: in a varint, whose last byte is
missing; in a fixed-width value; or at a length prefix that goes beyond the end,
before anything of the payload is decoded.

* `Truncates`: what is left of the bytes is out of range.
* `IsRecord.truncates`: so it is with every record of a valid encoding.
* `Valid.cut`: where an encoding may be cut.
-/
namespace QtProtobuf.Codec

open Lib Wire

/-- `w` throws on every beginning of `bs`, at the end of a buffer. -/
def Truncates {α : Type} (w : Nat → Nat → Walk Stop Bytes α) (bs : Bytes) : Prop :=
  ∀ size n part missing, size < 2 ^ 31 → part.length ≤ n → bs = part ++ missing → missing ≠ [] →
    part.length ≤ size → (w size n).run part = .fail .outOfRange

section
variable {α β : Type}

theorem Truncates.first {w : Nat → Nat → Walk Stop Bytes α} {bs : Bytes} (hw : Truncates w bs)
    (k : Nat → Nat → α → Walk Stop Bytes β) : Truncates (fun size n => w size n >>= k size n) bs := by
  intro size n part missing hs hn hb hne hl
  show (w size n >>= k size n).run part = _
  rw [Walk.run_bind, hw size n part missing hs hn hb hne hl]

/-- The cut is in the first or in the second part. -/
theorem Truncates.bind {w : Nat → Nat → Walk Stop Bytes α} {k : Nat → Nat → α → Walk Stop Bytes β}
    {bs cs : Bytes} {a : α} (hr : ReadsAll w bs a) (hw : Truncates w bs)
    (hk : Truncates (fun size n => k size n a) cs) :
    Truncates (fun size n => w size n >>= k size n) (bs ++ cs) := by
  intro size n part missing hs hn hb hne hl
  show (w size n >>= k size n).run part = _
  have hread : ∀ q, (bs ++ q).length ≤ size → (bs ++ q).length ≤ n → cs = q ++ missing →
      (w size n >>= k size n).run (bs ++ q) = .fail .outOfRange := by
    intro q hq hn hc
    rw [List.length_append] at hn
    rw [Walk.run_bind_ok (hr size n hs (by omega) q hq)]
    rw [List.length_append] at hq
    exact hk size n q missing hs (by omega) hc hne (by omega)
  rcases List.append_eq_append_iff.mp hb with ⟨q, hp, hc⟩ | ⟨q, hb', hm⟩
  · rw [hp] at hl hn ⊢
    exact hread q hl hn hc
  · cases q with
    | nil =>
      rw [List.append_nil] at hb'
      rw [List.nil_append] at hm
      have h := hread []
      rw [List.append_nil, hb'] at h
      exact h hl hn hm.symm
    | cons c q =>
      rw [Walk.run_bind, hw size n part (c :: q) hs hn hb' (List.cons_ne_nil c q) hl]

/-! ## Basic types -/

theorem varintLoop_cut {w k : Nat} {acc : BitVec w} {part missing : Bytes}
    (h : IsVarint (part ++ missing)) (hne : missing ≠ []) :
    Rest.varintLoop w k acc part = .fail .outOfRange := by
  induction part generalizing k acc with
  | nil => rfl
  | cons c part ih =>
    rw [Rest.varintLoop]
    rw [List.cons_append] at h
    obtain ⟨d, ds, hd⟩ := List.exists_cons_of_ne_nil
      (show part ++ missing ≠ [] from fun he => hne (List.append_eq_nil_iff.mp he).2)
    rw [hd] at h ih
    have hc : ¬ c &&& 0x80 = 0 := fun hz => by
      have hlt := (and_high c).mp hz
      have hge := h.1
      omega
    rw [if_neg hc, ih h.2]
    exact ite_self _

theorem skipVarintLoop_cut {part missing : Bytes} (h : IsVarint (part ++ missing)) (hne : missing ≠ []) :
    Rest.skipVarintLoop part = .fail .outOfRange := by
  induction part with
  | nil => rfl
  | cons c part ih =>
    rw [Rest.skipVarintLoop]
    rw [List.cons_append] at h
    obtain ⟨d, ds, hd⟩ := List.exists_cons_of_ne_nil
      (show part ++ missing ≠ [] from fun he => hne (List.append_eq_nil_iff.mp he).2)
    rw [hd] at h ih
    have hc : ¬ c &&& 0x80 = 0 := fun hz => by
      have hlt := (and_high c).mp hz
      have hge := h.1
      omega
    rw [if_neg hc, ih h.2]
    exact ite_self _

theorem VarintOf.truncates {v w : Nat} {bs : Bytes} (h : VarintOf v bs) :
    Truncates (fun _ _ => Rest.varint w) bs := by
  intro size n part missing _ _ hb hne _
  have hv := h.1
  rw [hb] at hv
  exact varintLoop_cut hv hne

theorem IsHeader.truncates {f : Nat} {w : WireTypes} {bs : Bytes} (h : IsHeader f w bs) :
    Truncates (fun _ _ => Rest.header) bs := by
  have hv : Truncates (fun _ _ => Rest.varint 32) bs := h.2.2.2.truncates
  exact hv.first _

/-- Fewer bytes than a length are not enough. -/
theorem not_fits_part {bs part missing : Bytes} (hb : bs = part ++ missing) (hne : missing ≠ [])
    (hlen : bs.length < 2 ^ 31) :
    ¬ Fits part.length bs.length := by
  intro hf
  have hle := hf.le hlen
  have hpos := List.length_pos_iff.mpr hne
  rw [hb, List.length_append] at hle
  omega

theorem take_truncates {bs : Bytes} (hlen : bs.length < 2 ^ 31) :
    Truncates (fun _ _ => Rest.take bs.length) bs := by
  intro size n part missing _ _ hb hne _
  unfold Rest.take
  exact if_neg (not_fits_part hb hne hlen)

theorem advance_truncates {bs : Bytes} (hlen : bs.length < 2 ^ 31) :
    Truncates (fun _ _ => Rest.advance bs.length) bs := by
  intro size n part missing _ _ hb hne _
  unfold Rest.advance
  exact if_neg (not_fits_part hb hne hlen)

theorem takeLength_truncates {bs : Bytes} (hlen : bs.length < 2 ^ 31) :
    Truncates (fun _ _ => Rest.takeLength (BitVec.ofNat 32 bs.length)) bs := by
  intro size n part missing _ _ hb hne _
  have hf := not_fits_part hb hne hlen
  rw [← length_toNat hlen] at hf
  unfold Rest.takeLength
  exact if_neg hf

theorem advanceLength_truncates {bs : Bytes} (hlen : bs.length < 2 ^ 31) :
    Truncates (fun _ _ => Rest.advanceLength (BitVec.ofNat 32 bs.length)) bs := by
  intro size n part missing _ _ hb hne _
  have hf := not_fits_part hb hne hlen
  rw [← length_toNat hlen] at hf
  unfold Rest.advanceLength
  exact if_neg hf

theorem plusLength_truncates {bs : Bytes} (hlen : bs.length < 2 ^ 31) :
    Truncates (fun size _ => Rest.plusLength size (BitVec.ofNat 32 bs.length)) bs := by
  intro size n part missing _ _ hb hne _
  have hf := not_fits_part hb hne hlen
  rw [← length_toNat hlen] at hf
  unfold Rest.plusLength
  dsimp only
  rw [if_neg hf]
  exact ite_self _

/-! ## Payloads -/

/-- What follows a length prefix is out of range, whatever is done with it. -/
theorem Delimited.truncates {k : Nat → Nat → BitVec 32 → Walk Stop Bytes β} {body bs : Bytes}
    (h : Delimited body bs)
    (hk : body.length < 2 ^ 31 → Truncates (fun size n => k size n (BitVec.ofNat 32 body.length)) body) :
    Truncates (fun size n => Rest.varint 32 >>= k size n) bs := by
  obtain ⟨size, hv, hl, rfl⟩ := h
  exact .bind (hv.reads (by decide)) hv.truncates (hk hl)

theorem Delimited.truncates_bytes {body bs : Bytes} (h : Delimited body bs) :
    Truncates (fun _ _ => Rest.lengthDelimited) bs := h.truncates takeLength_truncates

theorem Delimited.truncates_loop {k : Nat → Nat → Nat → Walk Stop Bytes β} {body bs : Bytes}
    (h : Delimited body bs) :
    Truncates (fun size n => Rest.varint 32 >>= fun count => Rest.plusLength size count >>= k size n) bs :=
  h.truncates fun hl => (plusLength_truncates hl).first k

theorem Payload.truncates_basic {t : NumType} {bs : Bytes} (h : Payload t.wireType bs) :
    Truncates (fun _ _ => Rest.basic t) bs := by
  have hfixed : t.coding = .fixed → bs.length = t.width / 8 → Truncates (fun _ _ => Rest.basic t) bs := by
    intro hc hl
    have hw := t.width_le
    have ht : Truncates (fun _ _ => Rest.take bs.length) bs := take_truncates (by omega)
    rw [hl] at ht
    unfold Rest.basic Reader.basic
    rw [hc]
    exact ht.first _
  have hvarint : ∀ v, VarintOf v bs → t.coding ≠ .fixed → Truncates (fun _ _ => Rest.basic t) bs := by
    intro v hv hc
    unfold Rest.basic Reader.basic
    cases hcod : t.coding with
    | fixed => exact absurd hcod hc
    | plain => exact hv.truncates
    | zigZag =>
      have ht : Truncates (fun _ _ => Rest.varint t.width) bs := hv.truncates
      exact ht.first _
  cases t <;> cases h
  all_goals first
    | exact hvarint _ ‹_› (by decide)
    | exact hfixed rfl ‹_›

theorem Payload.truncates_scalar (qt : QtCore) {t : ScalarType} {bs : Bytes} (h : Payload t.wireType bs) :
    Truncates (fun _ _ => Rest.scalar qt t) bs := by
  cases t with
  | num t =>
    have ht : Truncates (fun _ _ => Rest.basic t) bs := Payload.truncates_basic h
    exact ht.first _
  | bool =>
    have ht : Truncates (fun _ _ => Rest.basic .uint32) bs := Payload.truncates_basic h
    exact ht.first _
  | string =>
    cases h with
    | lengthDelimited h => exact h.truncates_bytes.first _
  | bytes =>
    cases h with
    | lengthDelimited h => exact h.truncates_bytes.first _

theorem Payload.truncates_skip {w : WireTypes} {bs : Bytes} (h : Payload w bs) :
    Truncates (fun _ _ => Rest.skip w) bs := by
  cases h with
  | varint h =>
    intro size n part missing _ _ hb hne _
    have hv := h.1
    rw [hb] at hv
    exact skipVarintLoop_cut hv hne
  | fixed32 h =>
    have ht : Truncates (fun _ _ => Rest.advance bs.length) bs := advance_truncates (by omega)
    rwa [h] at ht
  | fixed64 h =>
    have ht : Truncates (fun _ _ => Rest.advance bs.length) bs := advance_truncates (by omega)
    rwa [h] at ht
  | lengthDelimited h => exact h.truncates advanceLength_truncates

/-! ## Records -/

variable {M : Type} {S : Schema M} {qt : QtCore}

theorem Valid.truncates_single {t : SingleType M} {bs : Bytes} (h : Valid S (.single t) bs) :
    Truncates (fun _ n => Rest.single qt (Rest.nested S qt n) t) bs := by
  cases h with
  | scalar h => exact (h.truncates_scalar qt).first _
  | enum h =>
    have ht : Truncates (fun _ _ => Rest.basic .int64) bs := Payload.truncates_basic h
    exact ht.first _
  | object hd _ => exact hd.truncates_bytes.first _

/-- The payload of a known field. -/
theorem Valid.truncates {t : FieldType M} {bs : Bytes} (h : Valid S (.field t) bs) (previous : Value M) :
    Truncates (fun size n => Rest.value qt (Rest.nested S qt n) n size previous t) bs := by
  cases h with
  | single h => exact h.truncates_single
  | @nums t _ _ hd _ =>
    have ht : Truncates (fun size _ => Rest.list size t) bs := hd.truncates_loop
    exact ht.first _
  | strings h =>
    cases h with
    | lengthDelimited h => exact h.truncates_bytes.first _
  | byteArrays h =>
    cases h with
    | lengthDelimited h => exact h.truncates_bytes.first _
  | enums hd _ =>
    have ht : Truncates (fun size _ => Rest.list size .int64) bs := hd.truncates_loop
    exact ht.first _
  | messages h => exact h.truncates_single.first _
  | @map kt vt _ _ hd _ =>
    have ht : Truncates (fun size n => Rest.mapPair qt (Rest.nested S qt n) n size kt vt) bs :=
      hd.truncates_loop
    exact ht.first _

/-- A record of a valid encoding. -/
inductive IsRecord (S : Schema M) (m : M) : Bytes → Prop
  | unknown {f : Nat} {w : WireTypes} {hdr p : Bytes} (hh : IsHeader f w hdr)
    (hf : (S m).find f = none) (hp : Payload w p) : IsRecord S m (hdr ++ p)
  | known {f i : Nat} {t : FieldType M} {hdr p : Bytes} (hh : IsHeader f t.wireType hdr)
    (hf : (S m).find f = some (i, t)) (hp : Valid S (.field t) p) : IsRecord S m (hdr ++ p)

/-- **Truncation.** A record that is cut is out of range. -/
theorem IsRecord.truncates {m : M} {bs : Bytes} (h : IsRecord S m bs) (obj : List (Value M)) :
    Truncates (fun size n => record S qt m size n obj) bs := by
  cases h with
  | @unknown f w _ _ hh hf hp =>
    apply Truncates.bind hh.reads hh.truncates
    have hfield : (fun size n => Rest.field S qt (Rest.nested S qt n) n size m obj f w) =
        fun _ _ => Rest.skip w >>= fun _ => pure obj := by
      funext size n
      unfold Rest.field Reader.field
      rw [hf]
    show Truncates (fun size n => Rest.field S qt (Rest.nested S qt n) n size m obj f w) _
    rw [hfield]
    exact hp.truncates_skip.first _
  | @known f i t _ _ hh hf hp =>
    apply Truncates.bind hh.reads hh.truncates
    have hfield : (fun size n => Rest.field S qt (Rest.nested S qt n) n size m obj f t.wireType) =
        fun size n => Rest.value qt (Rest.nested S qt n) n size (obj.getD i t.default) t >>= fun new =>
          pure (obj.set i ((obj.getD i t.default).write new)) := by
      funext size n
      unfold Rest.field Reader.field
      rw [hf]
    show Truncates (fun size n => Rest.field S qt (Rest.nested S qt n) n size m obj f t.wireType) _
    rw [hfield]
    exact (hp.truncates _).first _

theorem IsRecord.ne_nil {m : M} {bs : Bytes} (h : IsRecord S m bs) : bs ≠ [] := by
  cases h with
  | unknown hh => exact append_ne_nil hh.ne_nil
  | known hh => exact append_ne_nil hh.ne_nil

theorem IsRecord.append {m : M} {r bs : Bytes} (h : IsRecord S m r) (hb : Valid S (.message m) bs) :
    Valid S (.message m) (r ++ bs) := by
  cases h with
  | unknown hh hf hp => exact .unknown hh hf hp hb
  | known hh hf hp => exact .known hh hf hp hb

/-- The encoding of a message is a sequence of records. -/
theorem Valid.message_cases {m : M} {bs : Bytes} (h : Valid S (.message m) bs) :
    bs = [] ∨ ∃ r rest, bs = r ++ rest ∧ IsRecord S m r ∧ Valid S (.message m) rest := by
  cases h with
  | nil => exact .inl rfl
  | unknown hh hf hp h => exact .inr ⟨_, _, rfl, .unknown hh hf hp, h⟩
  | known hh hf hp h => exact .inr ⟨_, _, rfl, .known hh hf hp, h⟩

/-- `data` ends strictly inside a record, after the records `done`. -/
structure CutInside (S : Schema M) (m : M) (done part : Bytes) : Prop where
  records : Valid S (.message m) done
  inside : ∃ missing, IsRecord S m (part ++ missing) ∧ part ≠ [] ∧ missing ≠ []

/-- A cut is at a record boundary or strictly inside a record. -/
theorem Valid.cut {m : M} {data missing : Bytes} (h : Valid S (.message m) (data ++ missing)) :
    Valid S (.message m) data ∨ ∃ done part, data = done ++ part ∧ CutInside S m done part := by
  generalize hk : data.length = k
  induction k using Nat.strongRecOn generalizing data with
  | ind k ih =>
    subst hk
    cases data with
    | nil => exact .inl .nil
    | cons c data =>
      rcases h.message_cases with hnil | ⟨r, rest, he, hr, hrest⟩
      · cases hnil
      · rcases List.append_eq_append_iff.mp he with ⟨q, hp, hm⟩ | ⟨q, hd, hm⟩
        · by_cases hq : q = []
          · subst hq
            rw [List.append_nil] at hp
            left
            have hv := hr.append (.nil : Valid S (.message m) [])
            rwa [List.append_nil, hp] at hv
          · right
            refine ⟨[], c :: data, rfl, .nil, q, ?_, List.cons_ne_nil _ _, hq⟩
            rwa [← hp]
        · have hpos := List.length_pos_iff.mpr hr.ne_nil
          have hlen : q.length < (c :: data).length := by
            rw [hd, List.length_append]
            omega
          rw [hm] at hrest
          rcases ih q.length hlen hrest rfl with hq | ⟨done, part, hq, hcut⟩
          · left
            rw [hd]
            exact hr.append hq
          · right
            refine ⟨r ++ done, part, ?_, hr.append hcut.records, hcut.inside⟩
            rw [hd, hq, List.append_assoc]

end

end QtProtobuf.Codec
