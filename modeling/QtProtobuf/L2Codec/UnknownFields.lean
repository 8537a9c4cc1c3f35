import QtProtobuf.L2Codec.Encoding

/-!
# Unknown fields are transparent

A field number that `propertyOrdering` does not have is skipped by its wire type
(`protobuf/qprotobufserializer.cpp:226-255, 291-297`). `Inserted` puts records
of such fields between the records of a message and of its sub-messages.

* `Inserted.rounds`: both encodings are read to the same object.
* `unknown_fields_transparent`: `deserializeMessage` does not tell them apart,
  and the skip takes exactly the payload.
-/
namespace QtProtobuf.Codec

open Lib Wire

/-- `bs'` is the valid encoding `bs` of a message with well-formed records of
unknown fields put in, between the records of the message or of its singular and
repeated sub-messages, whose lengths are adjusted. -/
inductive Inserted {M : Type} (S : Schema M) : M → Bytes → Bytes → Prop
  | nil {m : M} : Inserted S m [] []
  | insert {m : M} {f : Nat} {w : WireTypes} {hdr p bs bs' : Bytes} (hh : IsHeader f w hdr)
    (hf : (S m).find f = none) (hp : Payload w p) (h : Inserted S m bs bs') :
    Inserted S m bs (hdr ++ p ++ bs')
  | unknown {m : M} {f : Nat} {w : WireTypes} {hdr p bs bs' : Bytes} (hh : IsHeader f w hdr)
    (hf : (S m).find f = none) (hp : Payload w p) (h : Inserted S m bs bs') :
    Inserted S m (hdr ++ p ++ bs) (hdr ++ p ++ bs')
  | known {m : M} {f i : Nat} {t : FieldType M} {hdr p bs bs' : Bytes} (hh : IsHeader f t.wireType hdr)
    (hf : (S m).find f = some (i, t)) (hp : Valid S (.field t) p) (h : Inserted S m bs bs') :
    Inserted S m (hdr ++ p ++ bs) (hdr ++ p ++ bs')
  | message {m m' : M} {f i : Nat} {hdr p p' body body' bs bs' : Bytes}
    (hh : IsHeader f .lengthDelimited hdr) (hf : (S m).find f = some (i, .single (.message m')))
    (hd : Delimited body p) (hd' : Delimited body' p') (hb : Inserted S m' body body')
    (h : Inserted S m bs bs') : Inserted S m (hdr ++ p ++ bs) (hdr ++ p' ++ bs')
  | messages {m m' : M} {f i : Nat} {hdr p p' body body' bs bs' : Bytes}
    (hh : IsHeader f .lengthDelimited hdr) (hf : (S m).find f = some (i, .messages m'))
    (hd : Delimited body p) (hd' : Delimited body' p') (hb : Inserted S m' body body')
    (h : Inserted S m bs bs') : Inserted S m (hdr ++ p ++ bs) (hdr ++ p' ++ bs')

section
variable {M : Type} {S : Schema M} {qt : QtCore}

/-- The encoding without the inserted records is a valid one. -/
theorem Inserted.valid {m : M} {bs bs' : Bytes} (h : Inserted S m bs bs') :
    Valid S (.message m) bs := by
  induction h with
  | nil => exact .nil
  | insert _ _ _ _ ih => exact ih
  | unknown hh hf hp _ ih => exact .unknown hh hf hp ih
  | known hh hf hp _ ih => exact .known hh hf hp ih
  | message hh hf hd _ _ _ ihb ih => exact .known hh hf (.single (.object hd ihb)) ih
  | messages hh hf hd _ _ _ ihb ih => exact .known hh hf (.messages (.object hd ihb)) ih

/-- Every valid encoding is one without inserted records. -/
theorem Inserted.refl {m : M} {bs : Bytes} (h : Valid S (.message m) bs) : Inserted S m bs bs := by
  generalize hx : Part.message m = x at h
  induction h generalizing m with
  | nil => exact .nil
  | unknown hh hf hp _ ih =>
    cases hx
    exact .unknown hh hf hp (ih rfl)
  | known hh hf hp _ _ ih =>
    cases hx
    exact .known hh hf hp (ih rfl)
  | _ => cases hx

/-- The first records of two encodings leave the same object; so do the rest. -/
theorem rounds_both {m : M} {obj obj₁ : List (Value M)} {r r' bs bs' : Bytes}
    (hr : ReadsAll (fun size n => record S qt m size n obj) r obj₁)
    (hr' : ReadsAll (fun size n => record S qt m size n obj) r' obj₁) (hne : r ≠ []) (hne' : r' ≠ [])
    (h : ∃ obj', RoundsAll (record S qt m) obj₁ bs obj' ∧ RoundsAll (record S qt m) obj₁ bs' obj') :
    ∃ obj', RoundsAll (record S qt m) obj (r ++ bs) obj' ∧
      RoundsAll (record S qt m) obj (r' ++ bs') obj' := by
  obtain ⟨obj', h₁, h₂⟩ := h
  exact ⟨obj', .cons hr hne h₁, .cons hr' hne' h₂⟩

/-- **Unknown fields.** With the inserted records and without them, the records
lead to the same object. -/
theorem Inserted.rounds {m : M} {bs bs' : Bytes} (h : Inserted S m bs bs') (obj : List (Value M)) :
    ∃ obj', RoundsAll (record S qt m) obj bs obj' ∧ RoundsAll (record S qt m) obj bs' obj' := by
  induction h generalizing obj with
  | nil => exact ⟨obj, .nil _ obj, .nil _ obj⟩
  | insert hh hf hp _ ih =>
    obtain ⟨obj', h₁, h₂⟩ := ih obj
    exact ⟨obj', h₁, .cons (hh.reads_unknown hf hp obj) (append_ne_nil hh.ne_nil) h₂⟩
  | @unknown m f w hdr p bs bs' hh hf hp _ ih =>
    have hne : hdr ++ p ≠ [] := append_ne_nil hh.ne_nil
    exact rounds_both (hh.reads_unknown hf hp obj) (hh.reads_unknown hf hp obj) hne hne (ih obj)
  | @known m f i t hdr p bs bs' hh hf hp _ ih =>
    have hread : Readable S qt (.field t) p := hp.reads
    obtain ⟨new, hnew⟩ := hread (obj.getD i t.default)
    have hr := hh.reads_known hf obj hnew
    have hne : hdr ++ p ≠ [] := append_ne_nil hh.ne_nil
    exact rounds_both hr hr hne hne (ih _)
  | @message m m' f i hdr p p' body body' bs bs' hh hf hd hd' _ _ ihb ih =>
    obtain ⟨fs, h₁, h₂⟩ := ihb (newObject S m')
    have hr := hh.reads_known hf obj (hd.reads_object h₁)
    have hr' := hh.reads_known hf obj (hd'.reads_object h₂)
    exact rounds_both hr hr' (append_ne_nil hh.ne_nil) (append_ne_nil hh.ne_nil) (ih _)
  | @messages m m' f i hdr p p' body body' bs bs' hh hf hd hd' _ _ ihb ih =>
    obtain ⟨fs, h₁, h₂⟩ := ihb (newObject S m')
    let previous := (obj.getD i (.messages [])).toMessages
    have hr := hh.reads_known hf obj
      ((hd.reads_object h₁).map fun v => Value.messages (previous ++ [v]))
    have hr' := hh.reads_known hf obj
      ((hd'.reads_object h₂).map fun v => Value.messages (previous ++ [v]))
    exact rounds_both hr hr' (append_ne_nil hh.ne_nil) (append_ne_nil hh.ne_nil) (ih _)

/-- The skip of a well-formed payload returns, at its end. -/
theorem Payload.skip_runs {w : WireTypes} {p : Bytes} (h : Payload w p) {b : Buffer} {it : Iter}
    {tail : Bytes} (hl : b.data.length < 2 ^ 31) (hat : At b it (p ++ tail)) :
    ∃ it', Traced.Runs (skipSerializedFieldBytes b w) it () it' ∧ At b it' tail := by
  have hle : (p ++ tail).length ≤ b.data.length := by
    obtain ⟨done, hd⟩ := hat.suffix
    have hlen := congrArg List.length hd
    rw [List.length_append] at hlen
    omega
  have hrun := h.skips b.data.length p.length hl (Nat.le_refl _) tail hle
  obtain ⟨u, it', hr, -, hat'⟩ := ((Rest.sound b).skip w).runs hat hrun
  exact ⟨it', hr, hat'⟩

/-- **Transparency.** `deserializeMessage` gives the same message with the
inserted records as without them, into whatever object; and
`skipSerializedFieldBytes` takes exactly the payload of a well-formed record. -/
theorem unknown_fields_transparent {m : M} {bs bs' : Bytes} (h : Inserted S m bs bs')
    (hl : bs.length < 2 ^ 31) (hl' : bs'.length < 2 ^ 31) (obj : List (Value M)) :
    (∃ obj', ∀ env n, bs.length < n → bs'.length < n →
      (deserializeMessage S qt env n m obj bs).2 = (obj', none) ∧
        (deserializeMessage S qt env n m obj bs').2 = (obj', none)) ∧
    ∀ w p, Payload w p → ∀ b it tail, b.data.length < 2 ^ 31 → At b it (p ++ tail) →
      ∃ it', Traced.Runs (skipSerializedFieldBytes b w) it () it' ∧ At b it' tail := by
  have hrounds : ∃ obj', RoundsAll (record S qt m) obj bs obj' ∧ RoundsAll (record S qt m) obj bs' obj' :=
    h.rounds obj
  obtain ⟨obj', h₁, h₂⟩ := hrounds
  refine ⟨⟨obj', fun env n hn hn' => ⟨?_, ?_⟩⟩, fun w p hp b it tail hb hat => hp.skip_runs hb hat⟩
  · exact deserializeMessage_ok (h₁.message hl hn)
  · exact deserializeMessage_ok (h₂.message hl' hn')

end

/-- A message type with one field, a message of the type itself. -/
def chainSchema : Schema Unit := fun _ => .oneField 1 fieldNumber_one (.single (.message ()))

/-- A varint goes into the sub-message and a fixed32 behind it. -/
theorem chain_inserted : Inserted chainSchema () [0x0a, 0x00]
    [0x0a, 0x02, 0x18, 0x05, 0x15, 0x01, 0x02, 0x03, 0x04] := by
  have hvarint : IsHeader 3 .varint [0x18] := by decide
  have hfixed : IsHeader 2 .fixed32 [0x15] := by decide
  have hmessage : IsHeader 1 .lengthDelimited [0x0a] := by decide
  have hsub : Inserted chainSchema () [] [0x18, 0x05] :=
    .insert hvarint rfl (.varint (show VarintOf 5 [0x05] by decide)) .nil
  have hlast : Inserted chainSchema () [] [0x15, 0x01, 0x02, 0x03, 0x04] :=
    .insert hfixed rfl (.fixed32 (show [0x01, 0x02, 0x03, 0x04].length = 4 by rfl)) .nil
  have hd : Delimited [] [0x00] := ⟨[0x00], by decide, by decide, rfl⟩
  have hd' : Delimited [0x18, 0x05] [0x02, 0x18, 0x05] := ⟨[0x02], by decide, by decide, rfl⟩
  exact .message hmessage rfl hd hd' hsub hlast

theorem unknown_fields_transparent_chain :
    (∃ obj', ∀ env n, 2 < n → 9 < n →
      (deserializeMessage chainSchema .ascii env n () [.unset ()] [0x0a, 0x00]).2 = (obj', none) ∧
        (deserializeMessage chainSchema .ascii env n () [.unset ()]
          [0x0a, 0x02, 0x18, 0x05, 0x15, 0x01, 0x02, 0x03, 0x04]).2 = (obj', none)) ∧
    ∀ w p, Payload w p → ∀ b it tail, b.data.length < 2 ^ 31 → At b it (p ++ tail) →
      ∃ it', Traced.Runs (skipSerializedFieldBytes b w) it () it' ∧ At b it' tail :=
  unknown_fields_transparent chain_inserted (by decide) (by decide) [.unset ()]

end QtProtobuf.Codec
