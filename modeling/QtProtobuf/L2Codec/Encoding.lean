import QtProtobuf.L2Codec.Records

/-!
# The wire format, and what the decoder makes of it

`Valid` says which byte strings encode a message of a schema: records in any
order and number, of known and unknown fields, varints in any number of bytes
up to ten, a repeated field in any number of records. The record of a known
field has the wire type the schema declares for it (a list of numbers is
packed); an entry of a map has keys and values only.

* `Valid.reads`: every valid encoding is read, record by record.
* `valid_decodes`: so `deserializeMessage` returns.
-/
namespace QtProtobuf.Codec

open Lib Wire

/-! ## Payloads -/

/-- A varint of at most ten bytes with the value `v`. -/
def VarintOf (v : Nat) (bs : Bytes) : Prop := IsVarint bs ∧ bs.length ≤ 10 ∧ varintValue bs = v

/-- The header of field `f` with wire type `w`. -/
def IsHeader (f : Nat) (w : WireTypes) (bs : Bytes) : Prop :=
  0 < f ∧ f < 2 ^ 29 ∧ w.known = true ∧ VarintOf (8 * f + w.bits.toNat) bs

instance (v : Nat) (bs : Bytes) : Decidable (VarintOf v bs) := inferInstanceAs (Decidable (_ ∧ _ ∧ _))

instance (f : Nat) (w : WireTypes) (bs : Bytes) : Decidable (IsHeader f w bs) :=
  inferInstanceAs (Decidable (_ ∧ _ ∧ _ ∧ _))

/-- A length prefix and as many bytes. -/
def Delimited (body bs : Bytes) : Prop :=
  ∃ size, VarintOf body.length size ∧ body.length < 2 ^ 31 ∧ bs = size ++ body

/-- A payload as the wire type prescribes it. -/
inductive Payload : WireTypes → Bytes → Prop
  | varint {v : Nat} {bs : Bytes} (h : VarintOf v bs) : Payload .varint bs
  | fixed32 {bs : Bytes} (h : bs.length = 4) : Payload .fixed32 bs
  | fixed64 {bs : Bytes} (h : bs.length = 8) : Payload .fixed64 bs
  | lengthDelimited {body bs : Bytes} (h : Delimited body bs) : Payload .lengthDelimited bs

/-- The elements of a packed list. -/
inductive Packed (w : WireTypes) : Bytes → Prop
  | nil : Packed w []
  | cons {p bs : Bytes} (hp : Payload w p) (h : Packed w bs) : Packed w (p ++ bs)

/-! ## Messages -/

/-- What a byte string may encode. -/
inductive Part (M : Type) where
  | message (m : M)
  | single (t : SingleType M)
  | field (t : FieldType M)
  | entry (kt : ScalarType) (vt : SingleType M)

inductive Valid {M : Type} (S : Schema M) : Part M → Bytes → Prop
  | scalar {t : ScalarType} {bs : Bytes} (h : Payload t.wireType bs) : Valid S (.single (.scalar t)) bs
  | enum {bs : Bytes} (h : Payload .varint bs) : Valid S (.single .enum) bs
  | object {m : M} {body bs : Bytes} (hd : Delimited body bs) (h : Valid S (.message m) body) :
    Valid S (.single (.message m)) bs
  | single {t : SingleType M} {bs : Bytes} (h : Valid S (.single t) bs) : Valid S (.field (.single t)) bs
  | nums {t : NumType} {body bs : Bytes} (hd : Delimited body bs) (h : Packed t.wireType body) :
    Valid S (.field (.nums t)) bs
  | strings {bs : Bytes} (h : Payload .lengthDelimited bs) : Valid S (.field .strings) bs
  | byteArrays {bs : Bytes} (h : Payload .lengthDelimited bs) : Valid S (.field .byteArrays) bs
  | enums {body bs : Bytes} (hd : Delimited body bs) (h : Packed .varint body) : Valid S (.field .enums) bs
  | messages {m : M} {bs : Bytes} (h : Valid S (.single (.message m)) bs) :
    Valid S (.field (.messages m)) bs
  | map {kt : ScalarType} {vt : SingleType M} {body bs : Bytes} (hd : Delimited body bs)
    (h : Valid S (.entry kt vt) body) : Valid S (.field (.map kt vt)) bs
  | entryNil {kt : ScalarType} {vt : SingleType M} : Valid S (.entry kt vt) []
  | entryKey {kt : ScalarType} {vt : SingleType M} {hdr p bs : Bytes}
    (hh : IsHeader 1 kt.wireType hdr) (hp : Payload kt.wireType p) (h : Valid S (.entry kt vt) bs) :
    Valid S (.entry kt vt) (hdr ++ p ++ bs)
  | entryValue {kt : ScalarType} {vt : SingleType M} {hdr p bs : Bytes}
    (hh : IsHeader 2 vt.wireType hdr) (hp : Valid S (.single vt) p) (h : Valid S (.entry kt vt) bs) :
    Valid S (.entry kt vt) (hdr ++ p ++ bs)
  | nil {m : M} : Valid S (.message m) []
  | unknown {m : M} {f : Nat} {w : WireTypes} {hdr p bs : Bytes} (hh : IsHeader f w hdr)
    (hf : (S m).find f = none) (hp : Payload w p) (h : Valid S (.message m) bs) :
    Valid S (.message m) (hdr ++ p ++ bs)
  | known {m : M} {f i : Nat} {t : FieldType M} {hdr p bs : Bytes} (hh : IsHeader f t.wireType hdr)
    (hf : (S m).find f = some (i, t)) (hp : Valid S (.field t) p) (h : Valid S (.message m) bs) :
    Valid S (.message m) (hdr ++ p ++ bs)

/-! ## Readings that do not depend on the buffer -/

section
variable {α β : Type}

/-- In every buffer that an `int` can count, with enough rounds, `w` takes
exactly `bs`. -/
def ReadsAll (w : Nat → Nat → Walk Stop Bytes α) (bs : Bytes) (v : α) : Prop :=
  ∀ size n, size < 2 ^ 31 → bs.length ≤ n → Reads size (w size n) bs v

def RoundsAll (body : Nat → Nat → β → Walk Stop Bytes β) (b : β) (bs : Bytes) (d : β) : Prop :=
  ∀ size n, size < 2 ^ 31 → bs.length ≤ n → Rounds size (body size n) b bs d

theorem ReadsAll.bind {w : Nat → Nat → Walk Stop Bytes α} {k : Nat → Nat → α → Walk Stop Bytes β}
    {bs cs : Bytes} {a : α} {b : β} (hw : ReadsAll w bs a)
    (hk : ReadsAll (fun size n => k size n a) cs b) :
    ReadsAll (fun size n => w size n >>= k size n) (bs ++ cs) b := by
  intro size n hs hn
  rw [List.length_append] at hn
  exact (hw size n hs (by omega)).bind (hk size n hs (by omega))

theorem ReadsAll.map {w : Nat → Nat → Walk Stop Bytes α} {bs : Bytes} {a : α} (hw : ReadsAll w bs a)
    (g : α → β) : ReadsAll (fun size n => w size n >>= fun a => pure (g a)) bs (g a) :=
  fun size n hs hn => (hw size n hs hn).map g

theorem RoundsAll.nil (body : Nat → Nat → β → Walk Stop Bytes β) (b : β) : RoundsAll body b [] b :=
  fun _ _ _ _ => .nil b

theorem RoundsAll.cons {body : Nat → Nat → β → Walk Stop Bytes β} {b c d : β} {bs cs : Bytes}
    (h : ReadsAll (fun size n => body size n b) bs c) (hne : bs ≠ []) (hr : RoundsAll body c cs d) :
    RoundsAll body b (bs ++ cs) d := by
  intro size n hs hn
  rw [List.length_append] at hn
  exact .cons (h size n hs (by omega)) hne (hr size n hs (by omega))

end

/-! ## Basic types -/

theorem VarintOf.ne_nil {v : Nat} {bs : Bytes} (h : VarintOf v bs) : bs ≠ [] := by
  rintro rfl
  exact h.1

theorem IsHeader.ne_nil {f : Nat} {w : WireTypes} {bs : Bytes} (h : IsHeader f w bs) : bs ≠ [] :=
  h.2.2.2.ne_nil

theorem Delimited.length_lt {body bs : Bytes} (h : Delimited body bs) : body.length < bs.length := by
  obtain ⟨size, hv, -, rfl⟩ := h
  have hpos := List.length_pos_iff.mpr hv.ne_nil
  rw [List.length_append]
  omega

theorem Payload.ne_nil {w : WireTypes} {bs : Bytes} (h : Payload w bs) : bs ≠ [] := by
  rintro rfl
  cases h with
  | varint h => exact h.ne_nil rfl
  | fixed32 h => cases h
  | fixed64 h => cases h
  | lengthDelimited h => exact absurd h.length_lt (Nat.not_lt_zero _)

theorem VarintOf.reads {v w : Nat} {bs : Bytes} (hw : w ≤ 64) (h : VarintOf v bs) :
    ReadsAll (fun _ _ => Rest.varint w) bs (BitVec.ofNat w v) := by
  intro size n hs _
  have hr := reads_varint hs hw h.1 h.2.1
  rwa [h.2.2] at hr

theorem IsHeader.reads {f : Nat} {w : WireTypes} {bs : Bytes} (h : IsHeader f w bs) :
    ReadsAll (fun _ _ => Rest.header) bs (true, f, w) := by
  obtain ⟨h0, hf, hw, hb, hlen, hval⟩ := h
  exact fun _ _ hs _ => reads_header hs h0 hf hw hb hlen hval

/-- A length prefix, in any number of bytes. -/
theorem VarintOf.reads_size {n size : Nat} {bs : Bytes} (hs : size < 2 ^ 31) (h : VarintOf n bs) :
    Reads size (Rest.varint 32) bs (BitVec.ofNat 32 n) :=
  h.reads (w := 32) (by decide) size bs.length hs (Nat.le_refl _)

theorem Delimited.reads {body bs : Bytes} (h : Delimited body bs) :
    ReadsAll (fun _ _ => Rest.lengthDelimited) bs body := by
  obtain ⟨size, hv, hl, rfl⟩ := h
  exact fun _ _ hs _ => reads_delimited hs (hv.reads_size hs) hl

theorem Delimited.skips {body bs : Bytes} (h : Delimited body bs) :
    ReadsAll (fun _ _ => Rest.skip .lengthDelimited) bs () := by
  obtain ⟨size, hv, hl, rfl⟩ := h
  apply ReadsAll.bind (hv.reads (w := 32) (by decide))
  exact fun _ _ hs _ => reads_advanceLength hs (length_toNat hl)

/-- A loop up to a length prefix. -/
theorem Delimited.reads_loop {β : Type} {body bs : Bytes} (h : Delimited body bs)
    {round : Nat → Nat → β → Walk Stop Bytes β} {b d : β} (hr : RoundsAll round b body d)
    (rounds : Nat → Bytes → Nat) (hn : ∀ n tail, body.length < n → body.length < rounds n (body ++ tail)) :
    ReadsAll (fun size n => do
      let count ← Rest.varint 32
      let last ← Rest.plusLength size count
      let rest ← .get
      Walk.whileM (Rest.differs last) (round size n) (rounds n rest) b) bs d := by
  intro size n hs hle
  have hlt := h.length_lt
  obtain ⟨pre, hv, hl, rfl⟩ := h
  exact reads_counted hs (hv.reads_size hs) hl (hr size n hs (by omega)) fun tail => hn n tail (by omega)

/-- A number of any type in the payload of its wire type. -/
theorem Payload.reads_basic {t : NumType} {bs : Bytes} (h : Payload t.wireType bs) :
    ∃ v, ReadsAll (fun _ _ => Rest.basic t) bs v := by
  have hfixed : t.coding = .fixed → bs.length = t.width / 8 →
      ∃ v, ReadsAll (fun _ _ => Rest.basic t) bs v := by
    intro hc hl
    refine ⟨BitVec.ofNat t.width (ofLittleEndian bs), fun size n hs _ => ?_⟩
    unfold Rest.basic Reader.basic
    rw [hc]
    have hr := (reads_take hs bs).map fun bytes => BitVec.ofNat t.width (ofLittleEndian bytes)
    rwa [hl] at hr
  have hvarint : ∀ v, VarintOf v bs → t.coding ≠ .fixed → ∃ v, ReadsAll (fun _ _ => Rest.basic t) bs v := by
    intro v hv hc
    have hr := hv.reads t.width_le
    unfold Rest.basic Reader.basic
    cases hcod : t.coding with
    | fixed => exact absurd hcod hc
    | plain => exact ⟨_, hr⟩
    | zigZag => exact ⟨_, hr.map unZigZag⟩
  cases t <;> cases h
  all_goals first
    | exact hvarint _ ‹_› (by decide)
    | exact hfixed rfl ‹_›

theorem Payload.reads_scalar (qt : QtCore) {t : ScalarType} {bs : Bytes} (h : Payload t.wireType bs) :
    ∃ v, ReadsAll (fun _ _ => Rest.scalar qt t) bs v := by
  cases t with
  | num t =>
    obtain ⟨v, hv⟩ := Payload.reads_basic (t := t) h
    exact ⟨_, hv.map (Scalar.num t)⟩
  | bool =>
    obtain ⟨v, hv⟩ := Payload.reads_basic (t := .uint32) h
    exact ⟨_, hv.map fun v => Scalar.bool (v != 0)⟩
  | string =>
    cases h with
    | lengthDelimited h => exact ⟨_, h.reads.map fun value => Scalar.string (some (qt.fromUtf8 value))⟩
  | bytes =>
    cases h with
    | lengthDelimited h => exact ⟨_, h.reads.map fun value => Scalar.bytes (some value)⟩

/-- **Skipping.** The payload of an unknown field is passed over, and no more. -/
theorem Payload.skips {w : WireTypes} {bs : Bytes} (h : Payload w bs) :
    ReadsAll (fun _ _ => Rest.skip w) bs () := by
  cases h with
  | varint h =>
    intro size n hs _ tail hl
    rcases Rest.skipVarintLoop_run h.1 tail with h | ⟨-, h⟩
    · exact h
    · omega
  | fixed32 h =>
    intro size n hs _
    have hr := reads_advance hs bs
    rwa [h] at hr
  | fixed64 h =>
    intro size n hs _
    have hr := reads_advance hs bs
    rwa [h] at hr
  | lengthDelimited h => exact h.skips

/-- The elements of a packed list are read one after the other. -/
theorem Packed.reads {t : NumType} {bs : Bytes} (h : Packed t.wireType bs) (out : List (BitVec t.width)) :
    ∃ vs, RoundsAll (fun _ _ out => Rest.basic t >>= fun v => pure (out ++ [v])) out bs vs := by
  induction h generalizing out with
  | nil => exact ⟨out, .nil _ out⟩
  | cons hp _ ih =>
    obtain ⟨v, hv⟩ := Payload.reads_basic hp
    obtain ⟨vs, hvs⟩ := ih (out ++ [v])
    exact ⟨vs, .cons (hv.map fun v => out ++ [v]) hp.ne_nil hvs⟩

theorem Delimited.reads_list {t : NumType} {body bs : Bytes} (hd : Delimited body bs)
    (h : Packed t.wireType body) : ∃ vs, ReadsAll (fun size _ => Rest.list size t) bs vs := by
  obtain ⟨vs, hvs⟩ := h.reads []
  refine ⟨vs, hd.reads_loop hvs (fun _ rest => rest.length + 1) fun n tail _ => ?_⟩
  rw [List.length_append]
  omega

/-! ## Messages -/

section
variable {M : Type} (S : Schema M) (qt : QtCore)

/-- The reading of one record of a message, in a buffer of `size` bytes. -/
abbrev record (m : M) (size n : Nat) (obj : List (Value M)) : Walk Stop Bytes (List (Value M)) :=
  Rest.property S qt (Rest.nested S qt n) n size m obj

abbrev part (kt : ScalarType) (vt : SingleType M) (n : Nat) (pair : Scalar × Value M) :
    Walk Stop Bytes (Scalar × Value M) := Rest.mapPart qt (Rest.nested S qt n) kt vt pair

/-- The decoders take the part, whatever follows it. -/
def Readable : Part M → Bytes → Prop
  | .message m, bs => ∀ obj, ∃ obj', RoundsAll (record S qt m) obj bs obj'
  | .single t, bs => ∃ v, ReadsAll (fun _ n => Rest.single qt (Rest.nested S qt n) t) bs v
  | .field t, bs => ∀ previous, ∃ v,
    ReadsAll (fun size n => Rest.value qt (Rest.nested S qt n) n size previous t) bs v
  | .entry kt vt, bs => ∀ pair, ∃ pair', RoundsAll (fun _ => part S qt kt vt) pair bs pair'

variable {S qt}

/-- The records of a message, and the message. -/
theorem RoundsAll.message {m : M} {obj obj' : List (Value M)} {data : Bytes}
    (h : RoundsAll (record S qt m) obj data obj') (hl : data.length < 2 ^ 31) {n : Nat}
    (hn : data.length < n) : Rest.message S qt n m obj data = .ok obj' [] := by
  obtain ⟨n, rfl⟩ : ∃ k, n = k + 1 := ⟨n - 1, by omega⟩
  have hle : (data ++ []).length ≤ data.length := by simp
  have hrun := (h data.length n hl (by omega)).run hle hn
  rw [List.append_nil] at hrun
  rw [Rest.message_succ]
  exact hrun

theorem Delimited.reads_object {m : M} {body bs : Bytes} (hd : Delimited body bs) {fs : List (Value M)}
    (h : RoundsAll (record S qt m) (newObject S m) body fs) :
    ReadsAll (fun _ n => Rest.object (Rest.nested S qt n) m) bs (.object m fs) := by
  intro size n hs hn tail hl
  have hlt := hd.length_lt
  have hnested : Rest.nested S qt n m body = .ok fs [] :=
    h.message (by obtain ⟨-, -, hl, -⟩ := hd; exact hl) (by omega)
  have hrun := hd.reads size n hs hn tail hl
  unfold Rest.object Reader.object
  rw [Walk.run_bind_ok hrun, hnested]
  rfl

/-- One record of a known field. -/
theorem IsHeader.reads_known {m : M} {f i : Nat} {t : FieldType M} {w : WireTypes} {hdr p : Bytes}
    (hh : IsHeader f w hdr) (hf : (S m).find f = some (i, t)) (obj : List (Value M)) {new : Value M}
    (hp : ReadsAll (fun size n =>
      Rest.value qt (Rest.nested S qt n) n size (obj.getD i t.default) t) p new) :
    ReadsAll (fun size n => record S qt m size n obj) (hdr ++ p)
      (obj.set i ((obj.getD i t.default).write new)) := by
  apply hh.reads.bind
  have hfield : ∀ size n, Rest.field S qt (Rest.nested S qt n) n size m obj f w =
      (Rest.value qt (Rest.nested S qt n) n size (obj.getD i t.default) t >>= fun new =>
        pure (obj.set i ((obj.getD i t.default).write new))) := fun size n => by
    unfold Rest.field Reader.field
    rw [hf]
  intro size n hs hn
  show Reads size (Rest.field S qt (Rest.nested S qt n) n size m obj f w) p _
  rw [hfield]
  exact (hp size n hs hn).map fun new => obj.set i ((obj.getD i t.default).write new)

/-- One record of an unknown field. -/
theorem IsHeader.reads_unknown {m : M} {f : Nat} {w : WireTypes} {hdr p : Bytes}
    (hh : IsHeader f w hdr) (hf : (S m).find f = none) (hp : Payload w p) (obj : List (Value M)) :
    ReadsAll (fun size n => record S qt m size n obj) (hdr ++ p) obj := by
  apply hh.reads.bind
  have hfield : ∀ size n, Rest.field S qt (Rest.nested S qt n) n size m obj f w =
      (Rest.skip w >>= fun _ => pure obj) := fun size n => by
    unfold Rest.field Reader.field
    rw [hf]
  intro size n hs hn
  show Reads size (Rest.field S qt (Rest.nested S qt n) n size m obj f w) p _
  rw [hfield]
  exact (hp.skips size n hs hn).map fun _ => obj

theorem IsHeader.reads_part {kt : ScalarType} {vt : SingleType M} {f : Nat} {w : WireTypes}
    {hdr p : Bytes} (hh : IsHeader f w hdr) {pair pair' : Scalar × Value M}
    (hp : ReadsAll (fun _ n => if f = 1 then Rest.scalar qt kt >>= fun key => pure (key, pair.2)
      else Rest.single qt (Rest.nested S qt n) vt >>= fun value => pure (pair.1, value)) p pair') :
    ReadsAll (fun _ n => part S qt kt vt n pair) (hdr ++ p) pair' :=
  hh.reads.bind hp

theorem append_ne_nil {bs cs : Bytes} (h : bs ≠ []) : bs ++ cs ≠ [] := fun he =>
  h (List.append_eq_nil_iff.mp he).1

/-- **Reading.** A valid encoding is read record by record. -/
theorem Valid.reads {x : Part M} {bs : Bytes} (h : Valid S x bs) : Readable S qt x bs := by
  induction h with
  | scalar h =>
    obtain ⟨v, hv⟩ := h.reads_scalar qt
    exact ⟨_, hv.map Value.scalar⟩
  | enum h =>
    obtain ⟨v, hv⟩ := Payload.reads_basic (t := .int64) h
    exact ⟨_, hv.map fun v => Value.enum (v.setWidth 32)⟩
  | @object m body bs hd _ ih =>
    obtain ⟨fs, hfs⟩ := ih (newObject S m)
    exact ⟨_, hd.reads_object hfs⟩
  | single _ ih => exact fun previous => ih
  | nums hd h =>
    intro previous
    obtain ⟨vs, hvs⟩ := hd.reads_list h
    exact ⟨_, hvs.map (Value.nums _)⟩
  | strings h =>
    intro previous
    cases h with
    | lengthDelimited h =>
      exact ⟨_, h.reads.map fun v => Value.strings (previous.toStrings ++ [some (qt.fromUtf8 v)])⟩
  | byteArrays h =>
    intro previous
    cases h with
    | lengthDelimited h =>
      exact ⟨_, h.reads.map fun v => Value.byteArrays (previous.toByteArrays ++ [some v])⟩
  | enums hd h =>
    intro previous
    obtain ⟨vs, hvs⟩ := hd.reads_list (t := .int64) h
    exact ⟨_, hvs.map fun vs => Value.enums (previous.toEnums ++ vs.map (·.setWidth 32))⟩
  | messages _ ih =>
    intro previous
    obtain ⟨v, hv⟩ := ih
    exact ⟨_, hv.map fun v => Value.messages (previous.toMessages ++ [v])⟩
  | @map kt vt body bs hd _ ih =>
    intro previous
    obtain ⟨pair, hpair⟩ := ih (kt.default, vt.default)
    have hloop := hd.reads_loop hpair (fun n _ => n) fun _ _ h => h
    exact ⟨_, ReadsAll.map (w := fun size n => Rest.mapPair qt (Rest.nested S qt n) n size kt vt) hloop
      fun pair => Value.map (insertPair pair.1 pair.2 previous.toMap)⟩
  | entryNil => exact fun pair => ⟨pair, .nil _ pair⟩
  | entryKey hh hp _ ih =>
    intro pair
    obtain ⟨key, hkey⟩ := hp.reads_scalar qt
    obtain ⟨pair', hpair'⟩ := ih (key, pair.2)
    refine ⟨pair', .cons ?_ (append_ne_nil hh.ne_nil) hpair'⟩
    apply hh.reads_part
    simpa using hkey.map fun key => (key, pair.2)
  | entryValue hh _ _ ihp ih =>
    intro pair
    obtain ⟨value, hvalue⟩ := ihp
    obtain ⟨pair', hpair'⟩ := ih (pair.1, value)
    refine ⟨pair', .cons ?_ (append_ne_nil hh.ne_nil) hpair'⟩
    apply hh.reads_part
    simpa using hvalue.map fun value => (pair.1, value)
  | nil => exact fun obj => ⟨obj, .nil _ obj⟩
  | unknown hh hf hp _ ih =>
    intro obj
    obtain ⟨obj', hobj'⟩ := ih obj
    exact ⟨obj', .cons (hh.reads_unknown hf hp obj) (append_ne_nil hh.ne_nil) hobj'⟩
  | known hh hf _ _ ihp ih =>
    intro obj
    obtain ⟨new, hnew⟩ := ihp (obj.getD _ _)
    obtain ⟨obj', hobj'⟩ := ih (obj.set _ ((obj.getD _ _).write new))
    exact ⟨obj', .cons (hh.reads_known hf obj hnew) (append_ne_nil hh.ne_nil) hobj'⟩

/-- `deserializeMessage` returns on every valid encoding. -/
theorem valid_decodes {m : M} {data : Bytes} (h : Valid S (.message m) data) (hl : data.length < 2 ^ 31)
    (obj : List (Value M)) : ∃ obj', ∀ env n, data.length < n →
      (deserializeMessage S qt env n m obj data).2 = (obj', none) := by
  have hread : Readable S qt (.message m) data := h.reads
  obtain ⟨obj', hobj'⟩ := hread obj
  exact ⟨obj', fun env n hn => deserializeMessage_ok (hobj'.message hl hn)⟩

end

end QtProtobuf.Codec
