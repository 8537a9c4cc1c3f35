import QtProtobuf.L2Codec.Encoding

/-!
# What the records of an encoding hold

`Items` is the syntax of a valid encoding: its records of known fields, and the
records of their singular sub-messages. A record holds a `Content`: the new value
of the property, or what is added to its list or its map.

* `Valid.items`: every valid encoding has a syntax.
* `Items.reads`: reading one puts the contents of its records into the object,
  one after the other, whatever the object is.
-/
namespace QtProtobuf.Codec

open Lib Wire

/-! ## Contents -/

inductive Content (M : Type) where
  | value (v : Value M)
  | string (s : Option (List UInt16))
  | byteArray (s : Option Bytes)
  | enums (vs : List (BitVec 32))
  | element (v : Value M)
  | pair (k : Scalar) (v : Value M)

variable {M : Type}

namespace Content

/-- The new value of the property. -/
def apply (previous : Value M) : Content M → Value M
  | value v => v
  | string s => .strings (previous.toStrings ++ [s])
  | byteArray s => .byteArrays (previous.toByteArrays ++ [s])
  | enums vs => .enums (previous.toEnums ++ vs)
  | element v => .messages (previous.toMessages ++ [v])
  | pair k v => .map (insertPair k v previous.toMap)

/-- What a record of a field holds, unless it is a singular sub-message. -/
inductive Of : FieldType M → Content M → Prop
  | scalar (t : ScalarType) (v : Value M) : Of (.single (.scalar t)) (.value v)
  | enum (v : Value M) : Of (.single .enum) (.value v)
  | nums (t : NumType) (v : Value M) : Of (.nums t) (.value v)
  | string (s : Option (List UInt16)) : Of .strings (.string s)
  | byteArray (s : Option Bytes) : Of .byteArrays (.byteArray s)
  | enums (vs : List (BitVec 32)) : Of .enums (.enums vs)
  | element (m : M) (v : Value M) : Of (.messages m) (.element v)
  | pair (kt : ScalarType) (vt : SingleType M) (k : Scalar) (v : Value M) : Of (.map kt vt) (.pair k v)

/-- The contents are set, one after the other. -/
def setAll (cs : List (Nat × Content M)) (obj : List (Value M)) : List (Value M) :=
  cs.foldl (fun obj c => obj.modify c.1 fun previous => previous.write (c.2.apply previous)) obj

/-- What becomes of one property. -/
def setField (i : Nat) (cs : List (Nat × Content M)) (v : Value M) : Value M :=
  cs.foldl (fun v c => if c.1 = i then v.write (c.2.apply v) else v) v

theorem setAll_length (cs : List (Nat × Content M)) (obj : List (Value M)) :
    (setAll cs obj).length = obj.length := by
  induction cs generalizing obj with
  | nil => rfl
  | cons c cs ih => exact (ih _).trans (List.length_modify _ _ _)

theorem setAll_get (cs : List (Nat × Content M)) (obj : List (Value M)) (i : Nat) :
    (setAll cs obj)[i]? = obj[i]?.map (setField i cs) := by
  induction cs generalizing obj with
  | nil => cases h : obj[i]? <;> exact h
  | cons c cs ih =>
    have h := ih (obj.modify c.1 fun previous => previous.write (c.2.apply previous))
    rw [List.getElem?_modify] at h
    refine h.trans ?_
    cases obj[i]? with
    | none => rfl
    | some v =>
      by_cases hc : c.1 = i <;> simp [setField, hc]

end Content

/-! ## Syntax -/

/-- A record of a known field: the index of the property, and the records of the
sub-message if it is a singular one. -/
inductive Item where
  | field (i : Nat)
  | message (i : Nat) (items : List Item)

def Item.index : Item → Nat
  | field i => i
  | message i _ => i

/-- The records of a valid encoding. -/
inductive Items (S : Schema M) : M → List Item → Bytes → Prop
  | nil {m : M} : Items S m [] []
  | unknown {m : M} {f : Nat} {w : WireTypes} {hdr p bs : Bytes} {items : List Item} (hh : IsHeader f w hdr)
    (hf : (S m).find f = none) (hp : Payload w p) (h : Items S m items bs) : Items S m items (hdr ++ p ++ bs)
  | field {m : M} {f i : Nat} {t : FieldType M} {hdr p bs : Bytes} {items : List Item}
    (hh : IsHeader f t.wireType hdr) (hf : (S m).find f = some (i, t)) (ht : ∀ m', t ≠ .single (.message m'))
    (hp : Valid S (.field t) p) (h : Items S m items bs) : Items S m (.field i :: items) (hdr ++ p ++ bs)
  | message {m m' : M} {f i : Nat} {hdr p body bs : Bytes} {sub items : List Item}
    (hh : IsHeader f .lengthDelimited hdr) (hf : (S m).find f = some (i, .single (.message m')))
    (hd : Delimited body p) (hb : Items S m' sub body) (h : Items S m items bs) :
    Items S m (.message i sub :: items) (hdr ++ p ++ bs)

variable {S : Schema M} {qt : QtCore}

theorem Items.valid {m : M} {items : List Item} {bs : Bytes} (h : Items S m items bs) :
    Valid S (.message m) bs := by
  induction h with
  | nil => exact .nil
  | unknown hh hf hp _ ih => exact .unknown hh hf hp ih
  | field hh hf _ hp _ ih => exact .known hh hf hp ih
  | message hh hf hd _ _ ihb ih => exact .known hh hf (.single (.object hd ihb)) ih

/-- The part has the syntax of a message. -/
def HasItems (S : Schema M) : Part M → Bytes → Prop
  | .message m, bs => ∃ items, Items S m items bs
  | .single (.message m), bs => ∃ body items, Delimited body bs ∧ Items S m items body
  | .field (.single (.message m)), bs => ∃ body items, Delimited body bs ∧ Items S m items body
  | _, _ => True

theorem Valid.hasItems {x : Part M} {bs : Bytes} (h : Valid S x bs) : HasItems S x bs := by
  induction h with
  | object hd _ ih =>
    obtain ⟨items, hi⟩ := ih
    exact ⟨_, items, hd, hi⟩
  | @single t bs _ ih =>
    cases t with
    | message m => exact ih
    | _ => trivial
  | nil => exact ⟨[], .nil⟩
  | unknown hh hf hp _ ih =>
    obtain ⟨items, hi⟩ := ih
    exact ⟨items, .unknown hh hf hp hi⟩
  | @known m f i t hdr p bs hh hf hp _ ihp ih =>
    obtain ⟨items, hi⟩ := ih
    by_cases ht : ∃ m', t = .single (.message m')
    · obtain ⟨m', rfl⟩ := ht
      obtain ⟨body, sub, hd, hb⟩ := ihp
      exact ⟨_, .message hh hf hd hb hi⟩
    · exact ⟨_, .field hh hf (fun m' he => ht ⟨m', he⟩) hp hi⟩
  | _ => trivial

theorem Valid.items {m : M} {bs : Bytes} (h : Valid S (.message m) bs) : ∃ items, Items S m items bs :=
  h.hasItems

/-! ## Reading -/

/-- What the records hold. -/
inductive Denotes (S : Schema M) : M → List Item → List (Nat × Content M) → Prop
  | nil {m : M} : Denotes S m [] []
  | field {m : M} {i : Nat} {t : FieldType M} {c : Content M} {items : List Item}
    {cs : List (Nat × Content M)} (ht : (S m).properties[i]? = some t) (hc : Content.Of t c)
    (h : Denotes S m items cs) : Denotes S m (.field i :: items) ((i, c) :: cs)
  | message {m m' : M} {i : Nat} {sub items : List Item} {cs' cs : List (Nat × Content M)}
    (ht : (S m).properties[i]? = some (.single (.message m'))) (hs : Denotes S m' sub cs')
    (h : Denotes S m items cs) : Denotes S m (.message i sub :: items)
      ((i, .value (.object m' (Content.setAll cs' (newObject S m')))) :: cs)

/-- The reading of a payload, whatever the property holds. -/
theorem Valid.content {t : FieldType M} {p : Bytes} (h : Valid S (.field t) p)
    (ht : ∀ m, t ≠ .single (.message m)) : ∃ c, Content.Of t c ∧ ∀ previous, ReadsAll (fun size n =>
      Rest.value qt (Rest.nested S qt n) n size previous t) p (c.apply previous) := by
  cases h with
  | @single t _ h =>
    cases h with
    | scalar h =>
      obtain ⟨v, hv⟩ := h.reads_scalar qt
      exact ⟨_, .scalar _ _, fun _ => hv.map Value.scalar⟩
    | enum h =>
      obtain ⟨v, hv⟩ := Payload.reads_basic (t := .int64) h
      exact ⟨_, .enum _, fun _ => hv.map fun v => Value.enum (v.setWidth 32)⟩
    | object _ _ => exact absurd rfl (ht _)
  | nums hd h =>
    obtain ⟨vs, hvs⟩ := hd.reads_list h
    exact ⟨_, .nums _ _, fun _ => hvs.map (Value.nums _)⟩
  | strings h =>
    cases h with
    | lengthDelimited h =>
      exact ⟨_, .string _, fun previous =>
        h.reads.map fun v => Value.strings (previous.toStrings ++ [some (qt.fromUtf8 v)])⟩
  | byteArrays h =>
    cases h with
    | lengthDelimited h =>
      exact ⟨_, .byteArray _, fun previous =>
        h.reads.map fun v => Value.byteArrays (previous.toByteArrays ++ [some v])⟩
  | enums hd h =>
    obtain ⟨vs, hvs⟩ := hd.reads_list (t := .int64) h
    exact ⟨_, .enums _, fun previous =>
      hvs.map fun vs => Value.enums (previous.toEnums ++ vs.map (·.setWidth 32))⟩
  | messages h =>
    have hr : Readable S qt (.single (.message _)) p := h.reads
    obtain ⟨v, hv⟩ := hr
    exact ⟨_, .element _ _, fun previous =>
      hv.map fun v => Value.messages (previous.toMessages ++ [v])⟩
  | @map kt vt body _ hd h =>
    have hr : Readable S qt (.entry kt vt) body := h.reads
    obtain ⟨pair, hpair⟩ := hr (kt.default, vt.default)
    have hloop := hd.reads_loop hpair (fun n _ => n) fun _ _ h => h
    exact ⟨_, .pair _ _ _ _, fun previous =>
      ReadsAll.map (w := fun size n => Rest.mapPair qt (Rest.nested S qt n) n size kt vt) hloop
        fun pair => Value.map (insertPair pair.1 pair.2 previous.toMap)⟩

/-- The property that a record writes. -/
theorem modify_eq_set {m : M} {f i : Nat} {t : FieldType M} (hf : (S m).find f = some (i, t))
    {obj : List (Value M)} (hl : obj.length = (S m).properties.length) (g : Value M → Value M) :
    obj.modify i g = obj.set i (g (obj.getD i t.default)) := by
  have hi : i < obj.length := hl ▸ (List.getElem?_eq_some_iff.mp (MetaObject.find_mem hf).2).1
  rw [List.getD_eq_getElem?_getD, List.getElem?_eq_getElem hi, Option.getD_some]
  refine List.ext_getElem? fun j => ?_
  rw [List.getElem?_modify, List.getElem?_set]
  by_cases hj : i = j
  · subst hj
    simp [hi]
  · simp [hj]

/-- **Reading.** The contents of the records are set, one after the other. -/
theorem Items.reads {m : M} {items : List Item} {bs : Bytes} (h : Items S m items bs) :
    ∃ cs, Denotes S m items cs ∧ ∀ obj, obj.length = (S m).properties.length →
      RoundsAll (record S qt m) obj bs (Content.setAll cs obj) := by
  induction h with
  | nil => exact ⟨[], .nil, fun obj _ => .nil _ obj⟩
  | unknown hh hf hp _ ih =>
    obtain ⟨cs, hd, hr⟩ := ih
    exact ⟨cs, hd, fun obj hl => .cons (hh.reads_unknown hf hp obj) (append_ne_nil hh.ne_nil) (hr obj hl)⟩
  | @field m f i t hdr p bs items hh hf ht hp _ ih =>
    obtain ⟨cs, hd, hr⟩ := ih
    obtain ⟨c, hc, hread⟩ : ∃ c, Content.Of t c ∧ ∀ previous, ReadsAll (fun size n =>
      Rest.value qt (Rest.nested S qt n) n size previous t) p (c.apply previous) := hp.content ht
    refine ⟨(i, c) :: cs, .field (MetaObject.find_mem hf).2 hc hd, fun obj hl => ?_⟩
    have hrest := hr (obj.modify i fun previous => previous.write (c.apply previous))
      (by rw [List.length_modify]; exact hl)
    refine .cons ?_ (append_ne_nil hh.ne_nil) hrest
    rw [modify_eq_set hf hl]
    exact hh.reads_known hf obj (hread _)
  | @message m m' f i hdr p body bs sub items hh hf hd _ _ ihb ih =>
    obtain ⟨cs', hs, hr'⟩ := ihb
    obtain ⟨cs, hds, hr⟩ := ih
    refine ⟨_, .message (MetaObject.find_mem hf).2 hs hds, fun obj hl => ?_⟩
    let v : Value M := .object m' (Content.setAll cs' (newObject S m'))
    have hrest := hr (obj.modify i fun previous => previous.write v) (by rw [List.length_modify]; exact hl)
    refine .cons ?_ (append_ne_nil hh.ne_nil) hrest
    rw [modify_eq_set hf hl]
    have hobject := hd.reads_object (hr' (newObject S m') (by simp [newObject]))
    exact hh.reads_known hf obj hobject

end QtProtobuf.Codec
