import QtProtobuf.L2Codec.FailedDecode

/-!
# Record framing

Which bytes `deserializeProperty` takes behind a header depends on the declared
type of the field only; the wire type of the header is used for unknown fields
(`protobuf/qprotobufserializer.cpp:285-325`).

* `deserializeValue_ends`: where the decoder of a declared type ends.
* `call_frames_iff`: a call that returns takes its record and nothing else if
  and only if the field is unknown or the payload ends where a value of the
  declared type ends.
* `respects_framing_iff`: so it is with all calls over a sequence of records.
-/
namespace QtProtobuf.Wire

open Lib

namespace Rest

/-- What is read of a varint is a varint. -/
theorem varintLoop_inv {w k : Nat} {acc v : BitVec w} {rest t : Bytes}
    (h : varintLoop w k acc rest = .ok v t) : ∃ q, rest = q ++ t ∧ IsVarint q := by
  induction rest generalizing k acc with
  | nil => cases h
  | cons c rest ih =>
    rw [varintLoop] at h
    split at h
    · by_cases hc : c &&& 0x80 = 0
      · rw [if_pos hc] at h
        cases h
        exact ⟨[c], rfl, (and_high c).mp hc⟩
      · rw [if_neg hc] at h
        obtain ⟨q, rfl, hq⟩ := ih h
        obtain ⟨d, ds, rfl⟩ := List.exists_cons_of_ne_nil (show q ≠ [] by rintro rfl; exact hq)
        refine ⟨c :: d :: ds, rfl, ?_, hq⟩
        have hlt := mt (and_high c).mpr hc
        omega
    · cases h

theorem varintLoop_not_bad (w k : Nat) (acc : BitVec w) (rest : Bytes) :
    varintLoop w k acc rest ≠ .bad := by
  induction rest generalizing k acc with
  | nil => exact fun h => by cases h
  | cons c rest ih =>
    rw [varintLoop]
    split
    · split
      · exact fun h => by cases h
      · exact ih _ _
    · exact fun h => by cases h

end Rest

/-- No varint is a beginning of another. -/
theorem IsVarint.prefix_eq {p q a c : Bytes} (hp : IsVarint p) (hq : IsVarint q) (h : p ++ a = q ++ c) :
    p = q := by
  induction p generalizing q with
  | nil => exact absurd hp id
  | cons x p ih =>
    cases q with
    | nil => exact absurd hq id
    | cons y q =>
      rw [List.cons_append, List.cons_append, List.cons.injEq] at h
      obtain ⟨rfl, h⟩ := h
      cases p with
      | nil =>
        cases q with
        | nil => rfl
        | cons z q =>
          have hlt : x.toNat < 128 := hp
          have hge := hq.1
          omega
      | cons z p =>
        cases q with
        | nil =>
          have hlt : x.toNat < 128 := hq
          have hge := hp.1
          omega
        | cons z' q => rw [ih hp.2 hq.2 h]

theorem Iter.plusAssign_pos {it it' : Iter} {count : Int} (h : it.plusAssign count = (it', none)) :
    it'.pos = it.pos + count := by
  unfold Iter.plusAssign at h
  dsimp only at h
  split at h
  · cases h
  · cases h
    rfl

theorem Iter.copy_eq {it it' : Iter} (h : it.copy = (it', none)) : it' = it := by
  unfold Iter.copy at h
  split at h <;> cases h
  rfl

namespace Dec

variable {b : Buffer} {it it' : Iter}

theorem advance_pos {count : Int} {u : Unit} (h : Traced.Runs (advance count) it u it') :
    it'.pos = it.pos + count := Iter.plusAssign_pos (Traced.Runs.attempt_inv h)

theorem advanceLength_pos {length : BitVec 32} {u : Unit}
    (h : Traced.Runs (advanceLength length) it u it') : it'.pos = it.pos + int32 length.toNat := by
  obtain ⟨a, s, hget, h⟩ := h.bind_inv
  cases hget
  obtain ⟨a, s, hadv, h⟩ := h.bind_inv
  obtain ⟨a, s', hget, h⟩ := h.bind_inv
  cases hget
  cases h
  exact advance_pos hadv

theorem take_pos {n : Nat} {bytes : Bytes} (h : Traced.Runs (take b n) it bytes it') :
    it'.pos = it.pos + n := by
  obtain ⟨a, s, hpeek, h⟩ := h.bind_inv
  cases hpeek
  obtain ⟨u, s, hadv, h⟩ := h.bind_inv
  cases h
  exact advance_pos hadv

theorem takeLength_pos {length : BitVec 32} {bytes : Bytes}
    (h : Traced.Runs (takeLength b length) it bytes it') : it'.pos = it.pos + int32 length.toNat := by
  obtain ⟨a, s, hpeek, h⟩ := h.bind_inv
  cases hpeek
  obtain ⟨u, s, hadv, h⟩ := h.bind_inv
  cases h
  exact advanceLength_pos hadv

theorem check_inv {r : Iter × Option Stop} {last : Iter} (h : Traced.Runs (check r) it last it') :
    r = (last, none) ∧ it' = it := by
  obtain ⟨it₁, e⟩ := r
  cases e with
  | none => cases h; exact ⟨rfl, rfl⟩
  | some e => cases h

theorem plusLength_pos {length : BitVec 32} {last : Iter}
    (h : Traced.Runs (plusLength length) it last it') :
    it' = it ∧ last.pos = it.pos + int32 length.toNat := by
  obtain ⟨a, s, hget, h⟩ := h.bind_inv
  cases hget
  obtain ⟨itNew, s, hcopy, h⟩ := h.bind_inv
  obtain ⟨hc, rfl⟩ := check_inv hcopy
  obtain rfl := Iter.copy_eq hc
  obtain ⟨itNew', s, hplus, h⟩ := h.bind_inv
  obtain ⟨hp, rfl⟩ := check_inv hplus
  obtain ⟨u, s, hemit, h⟩ := h.bind_inv
  cases hemit
  obtain ⟨hc', rfl⟩ := check_inv h
  obtain rfl := Iter.copy_eq hc'
  exact ⟨rfl, Iter.plusAssign_pos hp⟩

/-- A varint that is read is one of the bytes left. -/
theorem varint_inv {w : Nat} {rest : Bytes} {v : BitVec w} (hat : At b it rest)
    (h : Traced.Runs (deserializeVarintCommon b w) it v it') :
    ∃ t, (Rest.varint w).run rest = .ok v t ∧ At b it' t := by
  have hs : Matches _ _ _ _ ((deserializeVarintCommon b w).run it) ((Rest.varint w).run rest) :=
    DecSim.varint w it rest hat
  cases hr : (Rest.varint w).run rest with
  | ok v' t =>
    rw [hr] at hs
    obtain ⟨-, a, it₁, hrun, rfl, hat'⟩ := hs
    obtain ⟨rfl, rfl⟩ := Traced.Runs.det h hrun
    exact ⟨t, rfl, hat'⟩
  | fail e =>
    rw [hr] at hs
    have hrun := h.symm.trans hs.2.1
    cases hrun
  | bad => exact absurd hr (Rest.varintLoop_not_bad w 0 0 rest)
  | spent =>
    rw [hr] at hs
    have hrun := h.symm.trans hs.2
    cases hrun

end Dec

end QtProtobuf.Wire

namespace QtProtobuf.Codec

open Lib Wire

/-! ## Where a decoder ends -/

/-- The number of bytes left behind a value of the wire type, which begins at
`rest`: a length from 2^31 on is a negative `int`. -/
def Ends (w : WireTypes) (rest : Bytes) (left : Int) : Prop :=
  match w with
  | .varint => ∃ q t, rest = q ++ t ∧ IsVarint q ∧ left = t.length
  | .fixed32 => left = rest.length - 4
  | .fixed64 => left = rest.length - 8
  | .lengthDelimited => ∃ length t, (Rest.varint 32).run rest = .ok length t ∧
    left = t.length - int32 length.toNat
  | _ => False

section
variable {M : Type} {S : Schema M} {qt : QtCore} {b : Buffer} {it it' : Iter} {rest : Bytes}

theorem varint_ends {w : Nat} {v : BitVec w} (hat : At b it rest)
    (h : Traced.Runs (deserializeVarintCommon b w) it v it') : Ends .varint rest (b.size - it'.pos) := by
  obtain ⟨t, hr, hat'⟩ := Dec.varint_inv hat h
  obtain ⟨q, hq, hv⟩ := Rest.varintLoop_inv hr
  refine ⟨q, t, hq, hv, ?_⟩
  have hp := hat'.pos
  omega

theorem basic_ends {t : NumType} {v : BitVec t.width} (hat : At b it rest)
    (h : Traced.Runs (deserializeBasic b t) it v it') : Ends t.wireType rest (b.size - it'.pos) := by
  have hp := hat.pos
  unfold deserializeBasic at h
  cases t
  all_goals dsimp only [NumType.coding, NumType.width] at h
  case fixed32 | sfixed32 | float =>
    obtain ⟨bytes, s, htake, h⟩ := h.bind_inv
    cases h
    have hpos := Dec.take_pos htake
    show b.size - it'.pos = rest.length - 4
    omega
  case fixed64 | sfixed64 | double =>
    obtain ⟨bytes, s, htake, h⟩ := h.bind_inv
    cases h
    have hpos := Dec.take_pos htake
    show b.size - it'.pos = rest.length - 8
    omega
  case sint32 | sint64 =>
    obtain ⟨v, s, hv, h⟩ := h.bind_inv
    cases h
    exact varint_ends hat hv
  all_goals exact varint_ends hat h

theorem lengthDelimited_ends {array : Bytes} (hat : At b it rest)
    (h : Traced.Runs (deserializeLengthDelimited b) it array it') :
    Ends .lengthDelimited rest (b.size - it'.pos) := by
  obtain ⟨length, s, hv, h⟩ := h.bind_inv
  obtain ⟨t, hr, hat'⟩ := Dec.varint_inv hat hv
  have hp := hat'.pos
  have hpos := Dec.takeLength_pos h
  exact ⟨length, t, hr, by omega⟩

theorem scalar_ends {t : ScalarType} {v : Scalar} (hat : At b it rest)
    (h : Traced.Runs (deserializeScalar qt b t) it v it') : Ends t.wireType rest (b.size - it'.pos) := by
  cases t with
  | num t =>
    obtain ⟨v, s, hv, h⟩ := h.bind_inv
    cases h
    exact basic_ends hat hv
  | bool =>
    obtain ⟨v, s, hv, h⟩ := h.bind_inv
    cases h
    exact basic_ends (t := .uint32) hat hv
  | string =>
    obtain ⟨v, s, hv, h⟩ := h.bind_inv
    cases h
    exact lengthDelimited_ends hat hv
  | bytes =>
    obtain ⟨v, s, hv, h⟩ := h.bind_inv
    cases h
    exact lengthDelimited_ends hat hv

/-- A loop that returns ends at its length prefix. -/
theorem loop_ends {α : Type} {length : BitVec 32} {t : Bytes} {last it₁ it₂ : Iter} {n : Nat}
    {body : α → Dec α} {a v : α} (hr : (Rest.varint 32).run rest = .ok length t) (hat : At b it₁ t)
    (hplus : Traced.Runs (Dec.plusLength length) it₁ last it₂)
    (h : Traced.Runs (Traced.whileM .spent (Iter.differs last.pos) body n a) it₂ v it') :
    Ends .lengthDelimited rest (b.size - it'.pos) := by
  obtain ⟨rfl, hlast⟩ := Dec.plusLength_pos hplus
  have hc := (Traced.Runs.while_inv (I := fun _ _ => True) (fun _ _ _ _ _ _ _ => trivial) h trivial).2
  have hpos : it'.pos = last.pos := by
    unfold Iter.differs at hc
    simpa using hc
  have hp := hat.pos
  exact ⟨length, t, hr, by omega⟩

theorem list_ends {t : NumType} {vs : List (BitVec t.width)} (hat : At b it rest)
    (h : Traced.Runs (deserializeList b t) it vs it') : Ends .lengthDelimited rest (b.size - it'.pos) := by
  obtain ⟨count, s, hv, h⟩ := h.bind_inv
  obtain ⟨t', hr, hat'⟩ := Dec.varint_inv hat hv
  obtain ⟨last, s', hplus, h⟩ := h.bind_inv
  obtain ⟨it₁, s'', hget, h⟩ := h.bind_inv
  cases hget
  exact loop_ends hr hat' hplus h

variable {rec : Nested M}

theorem object_ends {m : M} {v : Value M} (hat : At b it rest)
    (h : Traced.Runs (deserializeObject rec b m) it v it') :
    Ends .lengthDelimited rest (b.size - it'.pos) := by
  obtain ⟨array, s, hv, hfields⟩ := h.bind_inv
  obtain ⟨fields, s', hlift, hpure⟩ := hfields.bind_inv
  obtain ⟨-, hs⟩ := hlift.lift_inv
  obtain ⟨-, hit⟩ := hpure.pure_inv
  rw [hit, hs]
  exact lengthDelimited_ends hat hv

theorem single_ends {t : SingleType M} {v : Value M} (hat : At b it rest)
    (h : Traced.Runs (deserializeSingle qt rec b t) it v it') : Ends t.wireType rest (b.size - it'.pos) := by
  cases t with
  | scalar t =>
    obtain ⟨v, s, hv, h⟩ := h.bind_inv
    cases h
    exact scalar_ends hat hv
  | enum =>
    obtain ⟨v, s, hv, h⟩ := h.bind_inv
    cases h
    exact basic_ends (t := .int64) hat hv
  | message m => exact object_ends hat h

/-- **The declared type.** A decoder that returns ends where a value of the
declared type ends, whatever the wire type of the record. -/
theorem deserializeValue_ends {n : Nat} {previous v : Value M} {t : FieldType M} (hat : At b it rest)
    (h : Traced.Runs (deserializeValue qt rec n b previous t) it v it') :
    Ends t.wireType rest (b.size - it'.pos) := by
  cases t with
  | single t => exact single_ends hat h
  | nums t =>
    obtain ⟨vs, s, hv, h⟩ := h.bind_inv
    cases h
    exact list_ends hat hv
  | strings =>
    obtain ⟨vs, s, hv, h⟩ := h.bind_inv
    cases h
    exact lengthDelimited_ends hat hv
  | byteArrays =>
    obtain ⟨vs, s, hv, h⟩ := h.bind_inv
    cases h
    exact lengthDelimited_ends hat hv
  | enums =>
    obtain ⟨vs, s, hv, h⟩ := h.bind_inv
    cases h
    exact list_ends hat hv
  | messages m =>
    obtain ⟨vs, s, hv, h⟩ := h.bind_inv
    cases h
    exact object_ends hat hv
  | map kt vt =>
    obtain ⟨pair, s, hv, h⟩ := h.bind_inv
    cases h
    obtain ⟨count, s', hcount, hv⟩ := hv.bind_inv
    obtain ⟨t', hr, hat'⟩ := Dec.varint_inv hat hcount
    obtain ⟨last, s'', hplus, hv⟩ := hv.bind_inv
    exact loop_ends hr hat' hplus hv

/-! ## The counter -/

theorem keeps_basic (t : NumType) : Traced.Keeps (Iter.Wf b) (deserializeBasic b t) := by
  unfold deserializeBasic
  split
  · exact .bind (Dec.keeps_take _) fun _ => .pure _
  · exact Dec.keeps_varint _
  · exact .bind (Dec.keeps_varint _) fun _ => .pure _

theorem keeps_lengthDelimited : Traced.Keeps (Iter.Wf b) (deserializeLengthDelimited b) :=
  .bind (Dec.keeps_varint 32) fun _ => Dec.keeps_takeLength _

theorem keeps_scalar (t : ScalarType) : Traced.Keeps (Iter.Wf b) (deserializeScalar qt b t) := by
  cases t with
  | num t => exact .bind (keeps_basic t) fun _ => .pure _
  | bool => exact .bind (keeps_basic _) fun _ => .pure _
  | string => exact .bind keeps_lengthDelimited fun _ => .pure _
  | bytes => exact .bind keeps_lengthDelimited fun _ => .pure _

theorem keeps_list (t : NumType) : Traced.Keeps (Iter.Wf b) (deserializeList b t) :=
  .bind (Dec.keeps_varint 32) fun _ => .bind (Dec.keeps_plusLength _) fun _ => .bind .get fun _ =>
    .whileM (fun _ => .bind (keeps_basic t) fun _ => .pure _) _ _

theorem keeps_object (m : M) : Traced.Keeps (Iter.Wf b) (deserializeObject rec b m) :=
  .bind keeps_lengthDelimited fun _ => .bind (.lift _) fun _ => .pure _

theorem keeps_single (t : SingleType M) : Traced.Keeps (Iter.Wf b) (deserializeSingle qt rec b t) := by
  cases t with
  | scalar t => exact .bind (keeps_scalar t) fun _ => .pure _
  | enum => exact .bind (keeps_basic _) fun _ => .pure _
  | message m => exact keeps_object m

theorem keeps_stepped {α : Type} {f : Dec α} (hf : Traced.Keeps (Iter.Wf b) f) :
    Traced.Keeps (Iter.Wf b) (stepped f) :=
  .bind .get fun _ => .bind hf fun _ => .bind .get fun _ => .bind (.emit _) fun _ => .pure _

theorem keeps_mapPart (kt : ScalarType) (vt : SingleType M) (pair : Scalar × Value M) :
    Traced.Keeps (Iter.Wf b) (deserializeMapPart qt rec b kt vt pair) := by
  refine keeps_stepped (.bind Dec.keeps_header fun header => ?_)
  split
  · exact .bind (keeps_scalar kt) fun _ => .pure _
  · exact .bind (keeps_single vt) fun _ => .pure _

theorem keeps_value (n : Nat) (previous : Value M) (t : FieldType M) :
    Traced.Keeps (Iter.Wf b) (deserializeValue qt rec n b previous t) := by
  cases t with
  | single t => exact keeps_single t
  | nums t => exact .bind (keeps_list t) fun _ => .pure _
  | strings => exact .bind keeps_lengthDelimited fun _ => .pure _
  | byteArrays => exact .bind keeps_lengthDelimited fun _ => .pure _
  | enums => exact .bind (keeps_list _) fun _ => .pure _
  | messages m => exact .bind (keeps_object m) fun _ => .pure _
  | map kt vt =>
    have hpair : Traced.Keeps (Iter.Wf b) (deserializeMapPair qt rec n b kt vt) :=
      .bind (Dec.keeps_varint 32) fun _ => .bind (Dec.keeps_plusLength _) fun _ =>
        .whileM (keeps_mapPart kt vt) _ _
    exact .bind hpair fun _ => .pure _

/-! ## One call -/

/-- A well-formed record. -/
structure WireRecord where
  fieldNumber : Nat
  wireType : WireTypes
  header : Bytes
  payload : Bytes
  isHeader : IsHeader fieldNumber wireType header
  isPayload : Payload wireType payload

def WireRecord.bytes (r : WireRecord) : Bytes := r.header ++ r.payload

/-- A payload that the declared type's decoder delimits as well, in front of
`tail`. -/
def Delimits (w : WireTypes) (payload tail : Bytes) : Prop := Ends w (payload ++ tail) tail.length

/-- The field of the record is unknown, or of a type whose decoder ends where
the payload ends. -/
def Conforms (S : Schema M) (m : M) (r : WireRecord) (tail : Bytes) : Prop :=
  ∀ i t, (S m).find r.fieldNumber = some (i, t) → Delimits t.wireType r.payload tail

/-- A decoder ends at one place. -/
theorem Ends.unique {w : WireTypes} {left left' : Int} (h : Ends w rest left) (h' : Ends w rest left') :
    left = left' := by
  cases w with
  | varint =>
    obtain ⟨q, t, hq, hv, rfl⟩ := h
    obtain ⟨q', t', hq', hv', rfl⟩ := h'
    have heq : q ++ t = q' ++ t' := hq.symm.trans hq'
    obtain rfl := hv.prefix_eq hv' heq
    rw [List.append_cancel_left heq]
  | fixed32 => exact h.trans h'.symm
  | fixed64 => exact h.trans h'.symm
  | lengthDelimited =>
    obtain ⟨length, t, hr, hleft⟩ := h
    obtain ⟨length', t', hr', hleft'⟩ := h'
    rw [hr] at hr'
    cases hr'
    exact hleft.trans hleft'.symm
  | _ => exact absurd h id

/-- An iterator before `tail` is one with as many bytes left. -/
theorem at_iff_left {p tail : Bytes} (hat : At b it (p ++ tail)) (hw : it'.Wf b) :
    At b it' tail ↔ b.size - it'.pos = tail.length := by
  have hmoved := hat.moved (n := p.length) (by rw [List.length_append]; omega)
  rw [List.drop_left] at hmoved
  constructor
  · intro h
    have hp := h.pos
    omega
  · intro h
    have hp := hmoved.pos
    refine hmoved.of_pos ?_ hw.left hw.size
    rw [hp]
    omega

/-- **One record.** A call that returns takes exactly its record if and only if
the record conforms. -/
theorem call_frames_iff {env : Bytes → Int → UInt8} {n : Nat} {m : M} {obj obj' : List (Value M)}
    {r : WireRecord} {tail : Bytes} (hl : b.data.length < 2 ^ 31) (hat : At b it (r.bytes ++ tail))
    (hr : Traced.Runs (call S qt env n b m obj) it obj' it') : At b it' tail ↔ Conforms S m r tail := by
  have hlen : (r.bytes ++ tail).length ≤ b.data.length := by
    obtain ⟨done, hd⟩ := hat.suffix
    have h := congrArg List.length hd
    rw [List.length_append] at h
    omega
  have hassoc : r.bytes ++ tail = r.header ++ (r.payload ++ tail) := List.append_assoc _ _ _
  obtain ⟨f, w, it₁, hheader, hcase⟩ := call_inv hr
  -- the header is read
  have hread := r.isHeader.reads b.data.length r.header.length hl (Nat.le_refl _) (r.payload ++ tail)
    (by rwa [← hassoc])
  rw [← hassoc] at hread
  obtain ⟨a, it₂, hrun, ha, hat₁⟩ := DecSim.header.runs hat hread
  obtain ⟨hh, rfl⟩ := Traced.Runs.det hheader hrun
  obtain ⟨-, rfl, rfl⟩ : true = true ∧ f = r.fieldNumber ∧ w = r.wireType := by
    have h := hh.trans ha
    cases h
    exact ⟨rfl, rfl, rfl⟩
  rcases hcase with ⟨hf, hskip, -⟩ | ⟨i, t, new, hf, hvalue, -⟩
  · have hle : (r.payload ++ tail).length ≤ b.data.length := by
      rw [hassoc, List.length_append] at hlen
      omega
    have hskips := r.isPayload.skips b.data.length r.payload.length hl (Nat.le_refl _) tail hle
    obtain ⟨u', it₃, hrun', -, hat'⟩ := ((Rest.sound b).skip r.wireType).runs hat₁ hskips
    obtain ⟨-, rfl⟩ := Traced.Runs.det hskip hrun'
    refine ⟨fun _ i t h => ?_, fun _ => hat'⟩
    rw [hf] at h
    cases h
  · have hends := deserializeValue_ends hat₁ hvalue
    have hwf := keeps_value n _ t it₁ new it' hat₁.wf hvalue
    rw [at_iff_left hat₁ hwf]
    constructor
    · intro hleft i' t' h
      rw [hf] at h
      cases h
      unfold Delimits
      rwa [← hleft]
    · exact fun hc => hends.unique (hc i t hf)

/-! ## All calls -/

def encodeRecords (rs : List WireRecord) : Bytes := rs.flatMap WireRecord.bytes

/-- The byte array of the records. -/
def recordsBuffer (env : Bytes → Int → UInt8) (rs : List WireRecord) : Buffer :=
  ⟨encodeRecords rs, env (encodeRecords rs)⟩

/-- Calls of `deserializeProperty` over the records, from the beginning on. -/
abbrev Reached (S : Schema M) (qt : QtCore) (env : Bytes → Int → UInt8) (n : Nat) (m : M)
    (obj₀ : List (Value M)) (rs : List WireRecord) : List (Value M) → Iter → Prop :=
  Calls (recordsBuffer env rs) (call S qt env n (recordsBuffer env rs) m) obj₀
    (.ofBuffer (recordsBuffer env rs))

/-- Every call begins at a record, and takes it if it returns. -/
def RespectsFraming (S : Schema M) (qt : QtCore) (env : Bytes → Int → UInt8) (n : Nat) (m : M)
    (obj₀ : List (Value M)) (rs : List WireRecord) : Prop :=
  ∀ obj it, Reached S qt env n m obj₀ rs obj it → ∃ done left, rs = done ++ left ∧
    At (recordsBuffer env rs) it (encodeRecords left) ∧
    ∀ obj' it', Iter.differs (recordsBuffer env rs).size it = true →
      Traced.Runs (call S qt env n (recordsBuffer env rs) m obj) it obj' it' →
      ∃ r left', left = r :: left' ∧ At (recordsBuffer env rs) it' (encodeRecords left')

/-- Every record that a call returns from conforms. -/
def ReturnedConform (S : Schema M) (qt : QtCore) (env : Bytes → Int → UInt8) (n : Nat) (m : M)
    (obj₀ : List (Value M)) (rs : List WireRecord) : Prop :=
  ∀ obj it done r left obj' it', rs = done ++ r :: left → Reached S qt env n m obj₀ rs obj it →
    At (recordsBuffer env rs) it (encodeRecords (r :: left)) →
    Traced.Runs (call S qt env n (recordsBuffer env rs) m obj) it obj' it' →
    Conforms S m r (encodeRecords left)

theorem WireRecord.bytes_ne_nil (r : WireRecord) : r.bytes ≠ [] := append_ne_nil r.isHeader.ne_nil

theorem encodeRecords_cons (r : WireRecord) (rs : List WireRecord) :
    encodeRecords (r :: rs) = r.bytes ++ encodeRecords rs := List.flatMap_cons

theorem encodeRecords_append (rs rs' : List WireRecord) :
    encodeRecords (rs ++ rs') = encodeRecords rs ++ encodeRecords rs' := List.flatMap_append

theorem eq_nil_of_encodeRecords {rs : List WireRecord} (h : encodeRecords rs = []) : rs = [] := by
  cases rs with
  | nil => rfl
  | cons r rs =>
    rw [encodeRecords_cons] at h
    exact absurd (List.append_eq_nil_iff.mp h).1 r.bytes_ne_nil

/-- The records left are known by their number of bytes. -/
theorem left_unique {rs done done' left left' : List WireRecord} (h : rs = done ++ left)
    (h' : rs = done' ++ left') (hl : (encodeRecords left).length = (encodeRecords left').length) :
    left = left' := by
  have hnil : ∀ {x y z : List WireRecord}, x = y ++ z → (encodeRecords x).length = (encodeRecords z).length →
      x = z := by
    intro x y z hx hlen
    rw [hx, encodeRecords_append, List.length_append] at hlen
    have hy : encodeRecords y = [] := List.length_eq_zero_iff.mp (by omega)
    rw [hx, eq_nil_of_encodeRecords hy, List.nil_append]
  rcases List.append_eq_append_iff.mp (h.symm.trans h') with ⟨x, -, hx⟩ | ⟨x, -, hx⟩
  · exact hnil hx hl
  · exact (hnil hx hl.symm).symm

theorem Calls.snoc {b : Buffer} {property : List (Value M) → Dec (List (Value M))}
    {obj₀ obj obj' : List (Value M)} {it₀ it it' : Iter} (h : Calls b property obj₀ it₀ obj it)
    (hc : Iter.differs b.size it = true) (hr : Traced.Runs (property obj) it obj' it') :
    Calls b property obj₀ it₀ obj' it' := by
  induction h with
  | nil => exact .cons hc hr (.nil _ _)
  | cons hc' hr' _ ih => exact .cons hc' hr' (ih hc hr)

variable {env : Bytes → Int → UInt8} {n : Nat} {m : M} {obj₀ : List (Value M)} {rs : List WireRecord}

/-- A call that returns, from a record boundary. -/
theorem ReturnedConform.step (hc : ReturnedConform S qt env n m obj₀ rs)
    (hl : (encodeRecords rs).length < 2 ^ 31) {obj obj' : List (Value M)} {it it' : Iter}
    {done left : List WireRecord} (hrs : rs = done ++ left) (hreach : Reached S qt env n m obj₀ rs obj it)
    (hat : At (recordsBuffer env rs) it (encodeRecords left))
    (hd : Iter.differs (recordsBuffer env rs).size it = true)
    (hr : Traced.Runs (call S qt env n (recordsBuffer env rs) m obj) it obj' it') :
    ∃ r left', left = r :: left' ∧ At (recordsBuffer env rs) it' (encodeRecords left') := by
  cases left with
  | nil =>
    rw [Rest.differs_end hat] at hd
    cases hd
  | cons r left =>
    have hconf := hc obj it done r left obj' it' hrs hreach hat hr
    rw [encodeRecords_cons] at hat
    exact ⟨r, left, rfl, (call_frames_iff hl hat hr).mpr hconf⟩

/-- Every call begins at a record boundary, if those before conform. -/
theorem ReturnedConform.boundary (hc : ReturnedConform S qt env n m obj₀ rs)
    (hl : (encodeRecords rs).length < 2 ^ 31) {obj obj' : List (Value M)} {it it' : Iter}
    (h : Calls (recordsBuffer env rs) (call S qt env n (recordsBuffer env rs) m) obj it obj' it')
    {done left : List WireRecord} (hrs : rs = done ++ left) (hreach : Reached S qt env n m obj₀ rs obj it)
    (hat : At (recordsBuffer env rs) it (encodeRecords left)) :
    ∃ done left, rs = done ++ left ∧ At (recordsBuffer env rs) it' (encodeRecords left) := by
  induction h generalizing done left with
  | nil => exact ⟨done, left, hrs, hat⟩
  | cons hd hr _ ih =>
    obtain ⟨r, left', rfl, hat'⟩ := hc.step hl hrs hreach hat hd hr
    have hrs' : rs = (done ++ [r]) ++ left' := by rw [hrs, List.append_assoc]; rfl
    exact ih hrs' (hreach.snoc hd hr) hat'

/-- **Record framing.** Every call begins at a record, and takes it if it
returns, if and only if every record that a call returns from is of an unknown
field, or of a type whose decoder ends where its payload ends. -/
theorem respects_framing_iff (hl : (encodeRecords rs).length < 2 ^ 31) :
    RespectsFraming S qt env n m obj₀ rs ↔ ReturnedConform S qt env n m obj₀ rs := by
  constructor
  · intro h obj it done r left obj' it' hrs hreach hat hr
    obtain ⟨done', left', hrs', hat', hnext⟩ := h obj it hreach
    have hd : Iter.differs (recordsBuffer env rs).size it = true := by
      have hpos := List.length_pos_iff.mpr r.bytes_ne_nil
      rw [Rest.differs_end hat]
      unfold Rest.differs
      rw [bne_iff_ne, encodeRecords_cons, List.length_append]
      omega
    obtain ⟨r', left'', rfl, hat''⟩ := hnext obj' it' hd hr
    have hlen : (encodeRecords (r :: left)).length = (encodeRecords (r' :: left'')).length := by
      have hp := hat.pos
      have hp' := hat'.pos
      omega
    obtain ⟨rfl, rfl⟩ := List.cons.inj (left_unique hrs hrs' hlen)
    rw [encodeRecords_cons] at hat
    exact (call_frames_iff hl hat hr).mp hat''
  · intro hc obj it hreach
    obtain ⟨done, left, hrs, hat⟩ := hc.boundary hl hreach (List.nil_append rs).symm (.nil _ _)
      (At.ofBuffer (recordsBuffer env rs))
    exact ⟨done, left, hrs, hat, fun obj' it' hd hr => hc.step hl hrs hreach hat hd hr⟩

end

/-! ## An unpacked element -/

/-- A varint with field number 1. -/
def varintRecord : WireRecord where
  fieldNumber := 1
  wireType := .varint
  header := [0x08]
  payload := [0x02]
  isHeader := by decide
  isPayload := .varint (show VarintOf 2 [0x02] by decide)

/-- A varint with field number 2. -/
def unknownRecord : WireRecord where
  fieldNumber := 2
  wireType := .varint
  header := [0x10]
  payload := [0x05]
  isHeader := by decide
  isPayload := .varint (show VarintOf 5 [0x05] by decide)

/-- A number. -/
theorem respects_framing_number :
    RespectsFraming (oneFieldSchema (.single (.scalar (.num .int32)))) .ascii (fun _ _ => 0) 5 ()
      [.scalar (.num .int32 0)] [varintRecord] := by
  refine (respects_framing_iff (by decide)).mpr fun obj it done r left obj' it' hrs _ _ _ i t hf => ?_
  obtain ⟨rfl, rfl⟩ : varintRecord = r ∧ left = [] := by
    cases done with
    | nil => exact ⟨(List.cons.inj hrs).1, (List.cons.inj hrs).2.symm⟩
    | cons d done => exact absurd (List.cons.inj hrs).2 (by simp)
  cases hf
  exact ⟨[0x02], [], rfl, by decide, rfl⟩

/-- The unpacked element 2 of a list is taken for a length: the next record is
taken for two elements. -/
theorem not_respects_framing_unpacked :
    ¬ RespectsFraming (oneFieldSchema (.nums .int32)) .ascii (fun _ _ => 0) 5 () [.nums .int32 []]
      [varintRecord, unknownRecord] := by
  intro h
  have hat := At.ofBuffer (recordsBuffer (fun _ _ => 0) [varintRecord, unknownRecord])
  obtain ⟨done, left, hrs, hat', hnext⟩ := h _ _ (.nil _ _)
  obtain ⟨r, left', rfl, hat''⟩ := hnext [.nums .int32 [0x10, 0x05]] _ rfl rfl
  have hlen : (encodeRecords (r :: left')).length = (encodeRecords [varintRecord, unknownRecord]).length := by
    have hp := hat.pos
    have hp' := hat'.pos
    change _ = _ - ((encodeRecords [varintRecord, unknownRecord]).length : Int) at hp
    omega
  obtain ⟨-, rfl⟩ := List.cons.inj (left_unique hrs (List.nil_append _).symm hlen)
  exact absurd hat''.pos (by decide)

end QtProtobuf.Codec
