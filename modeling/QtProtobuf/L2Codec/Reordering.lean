import QtProtobuf.L2Codec.Written
import QtProtobuf.L2Codec.Concatenation
import QtProtobuf.Core.Projections

/-!
# The order of the records

A record sets the property of its field number and reads no other. `Exchanged`
exchanges two adjacent records with different field numbers, in the message or in
a sub-message at any depth, or the key and the value of an entry of a map.

* `FieldRecord.effect`: what a record does to the properties.
* `Exchanged.reads`: both encodings are read to the same.
* `reordering`: so are encodings connected by any number of exchanges.
* `field_projections`: a message is determined by the records of each field number.
-/
namespace QtProtobuf.Codec

open Lib Wire

section
variable {M : Type} {S : Schema M} {qt : QtCore}

/-! ## One record -/

/-- A record with the field number `f`. -/
inductive FieldRecord (S : Schema M) (m : M) (f : Nat) : Bytes → Prop
  | unknown {w : WireTypes} {hdr p : Bytes} (hh : IsHeader f w hdr) (hf : (S m).find f = none)
    (hp : Payload w p) : FieldRecord S m f (hdr ++ p)
  | known {i : Nat} {t : FieldType M} {hdr p : Bytes} (hh : IsHeader f t.wireType hdr)
    (hf : (S m).find f = some (i, t)) (hp : Valid S (.field t) p) : FieldRecord S m f (hdr ++ p)

theorem FieldRecord.ne_nil {m : M} {f : Nat} {r : Bytes} (h : FieldRecord S m f r) : r ≠ [] := by
  cases h with
  | unknown hh => exact append_ne_nil hh.ne_nil
  | known hh => exact append_ne_nil hh.ne_nil

theorem FieldRecord.valid {m : M} {f : Nat} {r bs : Bytes} (h : FieldRecord S m f r)
    (hb : Valid S (.message m) bs) : Valid S (.message m) (r ++ bs) := by
  cases h with
  | unknown hh hf hp => exact .unknown hh hf hp hb
  | known hh hf hp => exact .known hh hf hp hb

/-- A change of the property that has the field number `f`, if there is one. -/
inductive SetsField (S : Schema M) (m : M) (f : Nat) : (List (Value M) → List (Value M)) → Prop
  | unknown (hf : (S m).find f = none) : SetsField S m f id
  | known {i : Nat} {t : FieldType M} (hf : (S m).find f = some (i, t)) (u : Value M → Value M) :
    SetsField S m f fun obj => obj.set i (u (obj.getD i t.default))

/-- Changes of different fields commute. -/
theorem SetsField.comm {m : M} {f g : Nat} {e d : List (Value M) → List (Value M)}
    (he : SetsField S m f e) (hd : SetsField S m g d) (hne : f ≠ g) (obj : List (Value M)) :
    d (e obj) = e (d obj) := by
  cases he with
  | unknown => rfl
  | @known i t hf u =>
    cases hd with
    | unknown => rfl
    | @known j t' hg u' =>
      have hij : i ≠ j := fun h => hne (MetaObject.find_inj hf (h ▸ hg))
      have hj : (obj.set i (u (obj.getD i t.default))).getD j t'.default = obj.getD j t'.default := by
        rw [List.getD_eq_getElem?_getD, List.getElem?_set_ne hij, ← List.getD_eq_getElem?_getD]
      have hi : (obj.set j (u' (obj.getD j t'.default))).getD i t.default = obj.getD i t.default := by
        rw [List.getD_eq_getElem?_getD, List.getElem?_set_ne (Ne.symm hij), ← List.getD_eq_getElem?_getD]
      show (obj.set i _).set j (u' _) = (obj.set j _).set i (u _)
      rw [hj, hi]
      exact List.set_comm _ _ hij

variable (S qt) in
/-- What the record `r` of the field `f` does to an object. -/
def Effect (m : M) (f : Nat) (r : Bytes) (e : List (Value M) → List (Value M)) : Prop :=
  SetsField S m f e ∧ ∀ obj, ReadsAll (fun size n => record S qt m size n obj) r (e obj)

/-- **One record.** It changes the property of its field only. -/
theorem FieldRecord.effect {m : M} {f : Nat} {r : Bytes} (h : FieldRecord S m f r) :
    ∃ e, Effect S qt m f r e := by
  cases h with
  | unknown hh hf hp => exact ⟨id, .unknown hf, fun obj => hh.reads_unknown hf hp obj⟩
  | @known i t hdr p hh hf hp =>
    have hread : Readable S qt (.field t) p := hp.reads
    choose new hnew using hread
    exact ⟨_, .known hf fun previous => previous.write (new previous), fun obj =>
      hh.reads_known hf obj (hnew _)⟩

/-! ## Exchanges -/

/-- `bs'` is the valid encoding `bs` with one exchange. -/
inductive Exchanged (S : Schema M) : Part M → Bytes → Bytes → Prop
  | object {m : M} {size body body' : Bytes} (hs : VarintOf body.length size)
    (hl : body.length < 2 ^ 31) (h : Exchanged S (.message m) body body') :
    Exchanged S (.single (.message m)) (size ++ body) (size ++ body')
  | single {t : SingleType M} {bs bs' : Bytes} (h : Exchanged S (.single t) bs bs') :
    Exchanged S (.field (.single t)) bs bs'
  | messages {m : M} {bs bs' : Bytes} (h : Exchanged S (.single (.message m)) bs bs') :
    Exchanged S (.field (.messages m)) bs bs'
  | map {kt : ScalarType} {vt : SingleType M} {size body body' : Bytes} (hs : VarintOf body.length size)
    (hl : body.length < 2 ^ 31) (h : Exchanged S (.entry kt vt) body body') :
    Exchanged S (.field (.map kt vt)) (size ++ body) (size ++ body')
  | keyValue {kt : ScalarType} {vt : SingleType M} {hdr p hdr' p' bs : Bytes}
    (hh : IsHeader 1 kt.wireType hdr) (hp : Payload kt.wireType p) (hh' : IsHeader 2 vt.wireType hdr')
    (hp' : Valid S (.single vt) p') (h : Valid S (.entry kt vt) bs) :
    Exchanged S (.entry kt vt) (hdr ++ p ++ (hdr' ++ p' ++ bs)) (hdr' ++ p' ++ (hdr ++ p ++ bs))
  | valueKey {kt : ScalarType} {vt : SingleType M} {hdr p hdr' p' bs : Bytes}
    (hh : IsHeader 1 kt.wireType hdr) (hp : Payload kt.wireType p) (hh' : IsHeader 2 vt.wireType hdr')
    (hp' : Valid S (.single vt) p') (h : Valid S (.entry kt vt) bs) :
    Exchanged S (.entry kt vt) (hdr' ++ p' ++ (hdr ++ p ++ bs)) (hdr ++ p ++ (hdr' ++ p' ++ bs))
  | entryKey {kt : ScalarType} {vt : SingleType M} {hdr p bs bs' : Bytes}
    (hh : IsHeader 1 kt.wireType hdr) (hp : Payload kt.wireType p)
    (h : Exchanged S (.entry kt vt) bs bs') : Exchanged S (.entry kt vt) (hdr ++ p ++ bs) (hdr ++ p ++ bs')
  | entryValue {kt : ScalarType} {vt : SingleType M} {hdr p bs bs' : Bytes}
    (hh : IsHeader 2 vt.wireType hdr) (hp : Valid S (.single vt) p)
    (h : Exchanged S (.entry kt vt) bs bs') : Exchanged S (.entry kt vt) (hdr ++ p ++ bs) (hdr ++ p ++ bs')
  | inValue {kt : ScalarType} {vt : SingleType M} {hdr p p' bs : Bytes} (hh : IsHeader 2 vt.wireType hdr)
    (hp : Exchanged S (.single vt) p p') (h : Valid S (.entry kt vt) bs) :
    Exchanged S (.entry kt vt) (hdr ++ p ++ bs) (hdr ++ p' ++ bs)
  | records {m : M} {f g : Nat} {r r' bs : Bytes} (hr : FieldRecord S m f r) (hr' : FieldRecord S m g r')
    (hne : f ≠ g) (h : Valid S (.message m) bs) :
    Exchanged S (.message m) (r ++ (r' ++ bs)) (r' ++ (r ++ bs))
  | later {m : M} {f : Nat} {r bs bs' : Bytes} (hr : FieldRecord S m f r)
    (h : Exchanged S (.message m) bs bs') : Exchanged S (.message m) (r ++ bs) (r ++ bs')
  | inField {m : M} {f i : Nat} {t : FieldType M} {hdr p p' bs : Bytes} (hh : IsHeader f t.wireType hdr)
    (hf : (S m).find f = some (i, t)) (hp : Exchanged S (.field t) p p') (h : Valid S (.message m) bs) :
    Exchanged S (.message m) (hdr ++ p ++ bs) (hdr ++ p' ++ bs)

theorem Exchanged.length_eq {x : Part M} {bs bs' : Bytes} (h : Exchanged S x bs bs') :
    bs.length = bs'.length := by
  induction h with
  | single _ ih => exact ih
  | messages _ ih => exact ih
  | keyValue | valueKey | records =>
    simp only [List.length_append]
    omega
  | _ => simp_all only [List.length_append]

/-- Both encodings are read to the same. -/
def SameReading (S : Schema M) (qt : QtCore) : Part M → Bytes → Bytes → Prop
  | .message m, bs, bs' => ∀ obj, ∃ out, RoundsAll (record S qt m) obj bs out ∧
    RoundsAll (record S qt m) obj bs' out
  | .single t, bs, bs' => ∃ v, ReadsAll (fun _ n => Rest.single qt (Rest.nested S qt n) t) bs v ∧
    ReadsAll (fun _ n => Rest.single qt (Rest.nested S qt n) t) bs' v
  | .field t, bs, bs' => ∀ previous, ∃ v,
    ReadsAll (fun size n => Rest.value qt (Rest.nested S qt n) n size previous t) bs v ∧
    ReadsAll (fun size n => Rest.value qt (Rest.nested S qt n) n size previous t) bs' v
  | .entry kt vt, bs, bs' => ∀ pair, ∃ out, RoundsAll (fun _ => part S qt kt vt) pair bs out ∧
    RoundsAll (fun _ => part S qt kt vt) pair bs' out

/-- The key of an entry. -/
theorem IsHeader.reads_key {kt : ScalarType} {vt : SingleType M} {hdr p : Bytes}
    (hh : IsHeader 1 kt.wireType hdr) {key : Scalar}
    (hkey : ReadsAll (fun _ _ => Rest.scalar qt kt) p key) (pair : Scalar × Value M) :
    ReadsAll (fun _ n => part S qt kt vt n pair) (hdr ++ p) (key, pair.2) := by
  apply hh.reads_part
  simpa using hkey.map fun key => (key, pair.2)

/-- The value of an entry. -/
theorem IsHeader.reads_value {kt : ScalarType} {vt : SingleType M} {hdr p : Bytes}
    (hh : IsHeader 2 vt.wireType hdr) {value : Value M}
    (hvalue : ReadsAll (fun _ n => Rest.single qt (Rest.nested S qt n) vt) p value)
    (pair : Scalar × Value M) : ReadsAll (fun _ n => part S qt kt vt n pair) (hdr ++ p) (pair.1, value) := by
  apply hh.reads_part
  simpa using hvalue.map fun value => (pair.1, value)

/-- The readings of two payloads of one field. -/
theorem SameReading.loop {kt : ScalarType} {vt : SingleType M} {size body body' : Bytes}
    (hs : VarintOf body.length size) (hl : body.length < 2 ^ 31) (he : body.length = body'.length)
    (h : SameReading S qt (.entry kt vt) body body') :
    SameReading S qt (.field (.map kt vt)) (size ++ body) (size ++ body') := by
  intro previous
  obtain ⟨pair, hr, hr'⟩ := h (kt.default, vt.default)
  have hd : Delimited body (size ++ body) := ⟨size, hs, hl, rfl⟩
  have hd' : Delimited body' (size ++ body') := ⟨size, he ▸ hs, he ▸ hl, rfl⟩
  have hloop := hd.reads_loop hr (fun n _ => n) fun _ _ h => h
  have hloop' := hd'.reads_loop hr' (fun n _ => n) fun _ _ h => h
  exact ⟨_,
    ReadsAll.map (w := fun size n => Rest.mapPair qt (Rest.nested S qt n) n size kt vt) hloop
      fun pair => Value.map (Codec.insertPair pair.1 pair.2 previous.toMap),
    ReadsAll.map (w := fun size n => Rest.mapPair qt (Rest.nested S qt n) n size kt vt) hloop'
      fun pair => Value.map (Codec.insertPair pair.1 pair.2 previous.toMap)⟩

/-- **One exchange.** Both encodings are read to the same. -/
theorem Exchanged.reads {x : Part M} {bs bs' : Bytes} (h : Exchanged S x bs bs') :
    SameReading S qt x bs bs' := by
  induction h with
  | @object m size body body' hs hl h ih =>
    obtain ⟨fs, hr, hr'⟩ := ih (newObject S m)
    have hd : Delimited body (size ++ body) := ⟨size, hs, hl, rfl⟩
    have hd' : Delimited body' (size ++ body') := ⟨size, h.length_eq ▸ hs, h.length_eq ▸ hl, rfl⟩
    exact ⟨_, hd.reads_object hr, hd'.reads_object hr'⟩
  | single _ ih => exact fun previous => ih
  | messages _ ih =>
    intro previous
    obtain ⟨v, hv, hv'⟩ := ih
    exact ⟨_, hv.map fun v => Value.messages (previous.toMessages ++ [v]),
      hv'.map fun v => Value.messages (previous.toMessages ++ [v])⟩
  | map hs hl h ih => exact ih.loop hs hl h.length_eq
  | @keyValue kt vt hdr p hdr' p' bs hh hp hh' hp' h =>
    intro pair
    obtain ⟨key, hkey⟩ := hp.reads_scalar qt
    have hread : Readable S qt (.single vt) p' := hp'.reads
    obtain ⟨value, hvalue⟩ := hread
    have hrest : Readable S qt (.entry kt vt) bs := h.reads
    obtain ⟨out, hout⟩ := hrest (key, value)
    have hne : hdr ++ p ≠ [] := append_ne_nil hh.ne_nil
    have hne' : hdr' ++ p' ≠ [] := append_ne_nil hh'.ne_nil
    exact ⟨out, .cons (hh.reads_key hkey _) hne (.cons (hh'.reads_value hvalue _) hne' hout),
      .cons (hh'.reads_value hvalue _) hne' (.cons (hh.reads_key hkey _) hne hout)⟩
  | @valueKey kt vt hdr p hdr' p' bs hh hp hh' hp' h =>
    intro pair
    obtain ⟨key, hkey⟩ := hp.reads_scalar qt
    have hread : Readable S qt (.single vt) p' := hp'.reads
    obtain ⟨value, hvalue⟩ := hread
    have hrest : Readable S qt (.entry kt vt) bs := h.reads
    obtain ⟨out, hout⟩ := hrest (key, value)
    have hne : hdr ++ p ≠ [] := append_ne_nil hh.ne_nil
    have hne' : hdr' ++ p' ≠ [] := append_ne_nil hh'.ne_nil
    exact ⟨out, .cons (hh'.reads_value hvalue _) hne' (.cons (hh.reads_key hkey _) hne hout),
      .cons (hh.reads_key hkey _) hne (.cons (hh'.reads_value hvalue _) hne' hout)⟩
  | @entryKey kt vt hdr p bs bs' hh hp _ ih =>
    intro pair
    obtain ⟨key, hkey⟩ := hp.reads_scalar qt
    obtain ⟨out, hr, hr'⟩ := ih (key, pair.2)
    have hne : hdr ++ p ≠ [] := append_ne_nil hh.ne_nil
    exact ⟨out, .cons (hh.reads_key hkey pair) hne hr, .cons (hh.reads_key hkey pair) hne hr'⟩
  | @entryValue kt vt hdr p bs bs' hh hp _ ih =>
    intro pair
    have hread : Readable S qt (.single vt) p := hp.reads
    obtain ⟨value, hvalue⟩ := hread
    obtain ⟨out, hr, hr'⟩ := ih (pair.1, value)
    have hne : hdr ++ p ≠ [] := append_ne_nil hh.ne_nil
    exact ⟨out, .cons (hh.reads_value hvalue pair) hne hr, .cons (hh.reads_value hvalue pair) hne hr'⟩
  | @inValue kt vt hdr p p' bs hh _ h ihp =>
    intro pair
    obtain ⟨value, hv, hv'⟩ := ihp
    have hrest : Readable S qt (.entry kt vt) bs := h.reads
    obtain ⟨out, hout⟩ := hrest (pair.1, value)
    exact ⟨out, .cons (hh.reads_value hv pair) (append_ne_nil hh.ne_nil) hout,
      .cons (hh.reads_value hv' pair) (append_ne_nil hh.ne_nil) hout⟩
  | @records m f g r r' bs hr hr' hne h =>
    intro obj
    obtain ⟨e, he, hreads⟩ : ∃ e, Effect S qt m f r e := hr.effect
    obtain ⟨d, hd, hreads'⟩ : ∃ d, Effect S qt m g r' d := hr'.effect
    have hrest : Readable S qt (.message m) bs := h.reads
    obtain ⟨out, hout⟩ := hrest (d (e obj))
    refine ⟨out, .cons (hreads obj) hr.ne_nil (.cons (hreads' _) hr'.ne_nil hout), ?_⟩
    rw [he.comm hd hne] at hout
    exact .cons (hreads' obj) hr'.ne_nil (.cons (hreads _) hr.ne_nil hout)
  | @later m f r bs bs' hr _ ih =>
    intro obj
    obtain ⟨e, -, hreads⟩ : ∃ e, Effect S qt m f r e := hr.effect
    obtain ⟨out, h, h'⟩ := ih (e obj)
    exact ⟨out, .cons (hreads obj) hr.ne_nil h, .cons (hreads obj) hr.ne_nil h'⟩
  | @inField m f i t hdr p p' bs hh hf _ h ihp =>
    intro obj
    obtain ⟨new, hnew, hnew'⟩ := ihp (obj.getD i t.default)
    have hrest : Readable S qt (.message m) bs := h.reads
    obtain ⟨out, hout⟩ := hrest (obj.set i ((obj.getD i t.default).write new))
    exact ⟨out, .cons (hh.reads_known hf obj hnew) (append_ne_nil hh.ne_nil) hout,
      .cons (hh.reads_known hf obj hnew') (append_ne_nil hh.ne_nil) hout⟩

/-! ## Any number of exchanges -/

theorem Exchanged.decodes {m : M} {data data' : Bytes} (h : Exchanged S (.message m) data data')
    (hl : data.length < 2 ^ 31) (obj : List (Value M)) (env : Bytes → Int → UInt8) {n : Nat}
    (hn : data.length < n) : (deserializeMessage S qt env n m obj data').2 =
      (deserializeMessage S qt env n m obj data).2 := by
  obtain ⟨out, hr, hr'⟩ : ∃ out, RoundsAll (record S qt m) obj data out ∧
    RoundsAll (record S qt m) obj data' out := h.reads obj
  rw [deserializeMessage_ok (hr.message hl hn),
    deserializeMessage_ok (hr'.message (h.length_eq ▸ hl) (h.length_eq ▸ hn))]

theorem exchanges_decode {m : M} {data data' : Bytes}
    (h : Relation.ReflTransGen (Exchanged S (.message m)) data data') (hl : data.length < 2 ^ 31)
    (obj : List (Value M)) (env : Bytes → Int → UInt8) {n : Nat} (hn : data.length < n) :
    data.length = data'.length ∧ (deserializeMessage S qt env n m obj data').2 =
      (deserializeMessage S qt env n m obj data).2 := by
  induction h with
  | refl => exact ⟨rfl, rfl⟩
  | tail _ h ih =>
    obtain ⟨hlen, he⟩ := ih
    exact ⟨hlen.trans h.length_eq, (h.decodes (hlen ▸ hl) obj env (hlen ▸ hn)).trans he⟩

/-- **Reordering.** Whatever exchanges of records with different field numbers
turn a valid encoding into another one, at whatever depth, `deserializeMessage`
returns on both, with the same message. -/
theorem reordering {m : M} {data data' : Bytes} (hv : Valid S (.message m) data)
    (h : Relation.ReflTransGen (Exchanged S (.message m)) data data') (hl : data.length < 2 ^ 31)
    (obj : List (Value M)) : ∃ out, ∀ env n, data.length < n →
      (deserializeMessage S qt env n m obj data).2 = (out, none) ∧
      (deserializeMessage S qt env n m obj data').2 = (out, none) := by
  obtain ⟨out, hout⟩ : ∃ out, ∀ env n, data.length < n →
    (deserializeMessage S qt env n m obj data).2 = (out, none) := valid_decodes hv hl obj
  refine ⟨out, fun env n hn => ⟨hout env n hn, ?_⟩⟩
  rw [(exchanges_decode h hl obj env hn).2, hout env n hn]

end

/-- The number -3 and the string `a` of `nestedFields`, each in a record. -/
theorem numberRecord : FieldRecord nestedSchema false 1 [0x08, 0x05] := by
  have hh : IsHeader 1 (FieldType.wireType (M := Bool) (.single (.scalar (.num .sint32)))) [0x08] := by
    decide
  have hp : Payload .varint [0x05] := .varint (v := 5) (by decide)
  exact .known hh (i := 0) rfl (.single (.scalar hp))

theorem stringsRecord : FieldRecord nestedSchema false 2 [0x12, 0x03, 0x2a, 0x01, 0x61] := by
  have hh : IsHeader 5 (FieldType.wireType (M := Bool) .strings) [0x2a] := by decide
  have hp : Valid nestedSchema (.field .strings) [0x01, 0x61] :=
    .strings (.lengthDelimited ⟨[0x01], by decide, by decide, rfl⟩)
  have hsub : Valid nestedSchema (.message true) ([0x2a] ++ [0x01, 0x61] ++ []) := .known hh rfl hp .nil
  have hh' : IsHeader 2 (FieldType.wireType (.single (.message true))) [0x12] := by decide
  exact .known hh' (i := 1) rfl (.single (.object ⟨[0x03], by decide, by decide, rfl⟩ hsub))

theorem nested_valid : Valid nestedSchema (.message false) [0x08, 0x05, 0x12, 0x03, 0x2a, 0x01, 0x61] := by
  have h := stringsRecord.valid .nil
  exact numberRecord.valid h

theorem nested_exchanged : Exchanged nestedSchema (.message false)
    [0x08, 0x05, 0x12, 0x03, 0x2a, 0x01, 0x61] [0x12, 0x03, 0x2a, 0x01, 0x61, 0x08, 0x05] :=
  Exchanged.records numberRecord stringsRecord (by decide) .nil

theorem reordering_nested : ∃ out, ∀ env n, 7 < n →
    (deserializeMessage nestedSchema .ascii env n false (newObject nestedSchema false)
      [0x08, 0x05, 0x12, 0x03, 0x2a, 0x01, 0x61]).2 = (out, none) ∧
    (deserializeMessage nestedSchema .ascii env n false (newObject nestedSchema false)
      [0x12, 0x03, 0x2a, 0x01, 0x61, 0x08, 0x05]).2 = (out, none) :=
  reordering nested_valid (.single nested_exchanged) (by decide) _

/-! ## Records by field number -/

section
variable {M : Type} {S : Schema M} {qt : QtCore}

/-- A record with its field number. -/
abbrev Numbered := Nat × Bytes

theorem valid_records {m : M} {rs : List Numbered} (h : ∀ r ∈ rs, FieldRecord S m r.1 r.2) :
    Valid S (.message m) (rs.flatMap Prod.snd) := by
  induction rs with
  | nil => exact .nil
  | cons r rs ih =>
    exact (h r List.mem_cons_self).valid (ih fun r' hr' => h r' (List.mem_cons_of_mem r hr'))

theorem Swap.exchanged {m : M} {rs rs' : List Numbered} (hs : Swap Prod.fst rs rs')
    (h : ∀ r ∈ rs, FieldRecord S m r.1 r.2) :
    Exchanged S (.message m) (rs.flatMap Prod.snd) (rs'.flatMap Prod.snd) ∧
      ∀ r ∈ rs', FieldRecord S m r.1 r.2 := by
  induction hs with
  | @here a b l hne =>
    have hl : ∀ r ∈ l, FieldRecord S m r.1 r.2 := fun r hr =>
      h r (List.mem_cons_of_mem a (List.mem_cons_of_mem b hr))
    have hb : b ∈ a :: b :: l := List.mem_cons_of_mem a List.mem_cons_self
    refine ⟨.records (h a List.mem_cons_self) (h b hb) hne (valid_records hl), fun r hr => h r ?_⟩
    simp only [List.mem_cons] at hr ⊢
    exact or_left_comm.mp hr
  | later a _ ih =>
    obtain ⟨he, hr'⟩ := ih fun r hr => h r (List.mem_cons_of_mem a hr)
    refine ⟨.later (h a List.mem_cons_self) he, fun r hr => ?_⟩
    rcases List.mem_cons.mp hr with rfl | hr
    · exact h r List.mem_cons_self
    · exact hr' r hr

theorem Swaps.exchanged {m : M} {rs rs' : List Numbered} (hs : Swaps Prod.fst rs rs')
    (h : ∀ r ∈ rs, FieldRecord S m r.1 r.2) :
    Relation.ReflTransGen (Exchanged S (.message m)) (rs.flatMap Prod.snd) (rs'.flatMap Prod.snd) ∧
      ∀ r ∈ rs', FieldRecord S m r.1 r.2 := by
  induction hs with
  | refl => exact ⟨.refl, h⟩
  | tail _ hs ih =>
    obtain ⟨he, hr⟩ := ih
    obtain ⟨he', hr'⟩ := Swap.exchanged hs hr
    exact ⟨he.tail he', hr'⟩

/-- **Fields.** What a message is decoded to, depends on the records of each field
number in their order, and not on how the records of different fields follow
each other. -/
theorem field_projections {m : M} {rs rs' : List Numbered} (h : ∀ r ∈ rs, FieldRecord S m r.1 r.2)
    (hp : ∀ f, rs.filter (fun r => r.1 = f) = rs'.filter (fun r => r.1 = f))
    (hl : (rs.flatMap Prod.snd).length < 2 ^ 31) (obj : List (Value M)) :
    ∃ out, ∀ env n, (rs.flatMap Prod.snd).length < n →
      (deserializeMessage S qt env n m obj (rs.flatMap Prod.snd)).2 = (out, none) ∧
      (deserializeMessage S qt env n m obj (rs'.flatMap Prod.snd)).2 = (out, none) := by
  obtain ⟨out, hout⟩ : ∃ out, ∀ env n, (rs.flatMap Prod.snd).length < n →
    (deserializeMessage S qt env n m obj (rs.flatMap Prod.snd)).2 = (out, none) :=
    valid_decodes (valid_records h) hl obj
  have hs : Swaps Prod.fst rs rs' := swaps_of_filters hp
  refine ⟨out, fun env n hn => ⟨hout env n hn, ?_⟩⟩
  rw [(exchanges_decode (Swaps.exchanged hs h).1 hl obj env hn).2, hout env n hn]

end

/-- The two records of `nestedFields`. -/
def nestedRecords : List Numbered := [(1, [0x08, 0x05]), (2, [0x12, 0x03, 0x2a, 0x01, 0x61])]

theorem nestedRecords_of : ∀ r ∈ nestedRecords, FieldRecord nestedSchema false r.1 r.2 := by
  intro r hr
  rcases List.mem_cons.mp hr with rfl | hr
  · exact numberRecord
  · rw [List.mem_singleton.mp hr]
    exact stringsRecord

theorem nestedRecords_reverse (f : Nat) :
    nestedRecords.filter (fun r => r.1 = f) = nestedRecords.reverse.filter (fun r => r.1 = f) := by
  by_cases h1 : 1 = f
  · subst h1
    rfl
  · by_cases h2 : 2 = f
    · subst h2
      rfl
    · have hf : ∀ r ∈ nestedRecords, ¬ r.1 = f := by
        intro r hr
        rcases List.mem_cons.mp hr with rfl | hr
        · exact h1
        · rw [List.mem_singleton.mp hr]
          exact h2
      rw [List.filter_reverse, List.filter_eq_nil_iff.mpr fun r hr => by simpa using hf r hr]
      rfl

theorem field_projections_nested : ∃ out, ∀ env n, (nestedRecords.flatMap Prod.snd).length < n →
    (deserializeMessage nestedSchema .ascii env n false (newObject nestedSchema false)
      (nestedRecords.flatMap Prod.snd)).2 = (out, none) ∧
    (deserializeMessage nestedSchema .ascii env n false (newObject nestedSchema false)
      (nestedRecords.reverse.flatMap Prod.snd)).2 = (out, none) :=
  field_projections nestedRecords_of nestedRecords_reverse (by decide) _

end QtProtobuf.Codec
