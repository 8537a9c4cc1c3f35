import QtProtobuf.L2Codec.Decoded
import QtProtobuf.L2Codec.Termination
import QtProtobuf.L2Json.Serialize
import QtProtobuf.L2Json.Surplus

/-!
# Well-formed output

The last byte of what was written for the fields of a message is taken off, which
is the opening brace if there is no field; floating-point numbers are written as
Qt has them, `nan` and `inf` included; strings and keys are written as they are,
without escapes.

* `writesObject_iff`: where all that is written between quotes can stand there, a
  JSON object with the fields as its members is written exactly if every message
  has a field and every number is finite.
-/
namespace QtProtobuf.Json

open Lib.Json Codec

variable {M : Type}

/-! ## What can go wrong -/

/-- A name that stands for itself between quotes. -/
def PlainText (t : Bytes) : Prop := Chars t ∧ backslash ∉ t

/-- Every string, every key and every JSON name can stand between quotes. -/
inductive Spelled (S : JsonSchema M) (qt : QtJson) : Value M → Prop
  | scalar {v : Scalar} (h : ∀ s, v = .string s → Chars (qt.toUtf8 (s.getD []))) : Spelled S qt (.scalar v)
  | enum (v : BitVec 32) : Spelled S qt (.enum v)
  | unset {m : M} (h : Spelled S qt (.object m (newObject S.types m))) : Spelled S qt (.unset m)
  | object {m : M} {fs : List (Value M)}
    (hn : ∀ i, i < (S.types m).properties.length → PlainText (qt.toUtf8 (S.jsonName m i)))
    (h : ∀ v ∈ fs, Spelled S qt v) : Spelled S qt (.object m fs)
  | nums (t : NumType) (vs : List (BitVec t.width)) : Spelled S qt (.nums t vs)
  | strings {vs : List (Option (List UInt16))} (h : ∀ s ∈ vs, Chars (qt.toUtf8 (s.getD []))) :
    Spelled S qt (.strings vs)
  | byteArrays (vs : List (Option Bytes)) : Spelled S qt (.byteArrays vs)
  | enums (vs : List (BitVec 32)) : Spelled S qt (.enums vs)
  | messages {vs : List (Value M)} (h : ∀ v ∈ vs, v.isUnset = false → Spelled S qt v) :
    Spelled S qt (.messages vs)
  | map {es : List (Scalar × Value M)}
    (hk : ∀ e ∈ es, e.2.isUnset = false → Chars (variantText qt e.1))
    (h : ∀ e ∈ es, e.2.isUnset = false → Spelled S qt e.2) : Spelled S qt (.map es)

/-- Every message has a field, also those that the getters make, and every number
is finite. -/
inductive Sound (S : Schema M) : Value M → Prop
  | scalar {v : Scalar} (h : ∀ t w, v = .num t w → isFinite t w = true) : Sound S (.scalar v)
  | enum (v : BitVec 32) : Sound S (.enum v)
  | unset {m : M} (h : Sound S (.object m (newObject S m))) : Sound S (.unset m)
  | object {m : M} {fs : List (Value M)} (hne : (S m).properties ≠ [])
    (h : ∀ v ∈ fs, Sound S v) : Sound S (.object m fs)
  | nums {t : NumType} {vs : List (BitVec t.width)} (h : ∀ v ∈ vs, isFinite t v = true) :
    Sound S (.nums t vs)
  | strings (vs : List (Option (List UInt16))) : Sound S (.strings vs)
  | byteArrays (vs : List (Option Bytes)) : Sound S (.byteArrays vs)
  | enums (vs : List (BitVec 32)) : Sound S (.enums vs)
  | messages {vs : List (Value M)} (h : ∀ v ∈ vs, v.isUnset = false → Sound S v) :
    Sound S (.messages vs)
  | map {es : List (Scalar × Value M)} (h : ∀ e ∈ es, e.2.isUnset = false → Sound S e.2) :
    Sound S (.map es)

theorem object_of_set {T : Schema M} {m : M} {v : Value M}
    (h : HasType T (.single (.message m)) v) (hset : v.isUnset = false) : ∃ m fs, v = .object m fs := by
  cases h with
  | unset m => simp [Value.isUnset] at hset
  | object m _ _ => exact ⟨_, _, rfl⟩

/-- The type of a field. -/
theorem HasType.field {T : Schema M} {m : M} {fs : List (Value M)}
    (h : HasType T (.single (.message m)) (.object m fs)) {v : Value M} (hv : v ∈ fs) :
    ∃ t, HasType T t v := by
  cases h with
  | object m hl htyped =>
    obtain ⟨i, hi⟩ := List.mem_iff_getElem?.mp hv
    have hlt : i < (T m).properties.length := hl ▸ (List.getElem?_eq_some_iff.mp hi).1
    exact ⟨_, htyped i _ v (List.getElem?_eq_getElem hlt) hi⟩

theorem HasType.fields_length {T : Schema M} {m : M} {fs : List (Value M)}
    (h : HasType T (.single (.message m)) (.object m fs)) : fs.length = (T m).properties.length := by
  cases h with
  | object m hl _ => exact hl

/-! ## The texts of scalars -/

variable {S : JsonSchema M} {qt : QtJson}

/-- A number of a list, and a number by itself. -/
theorem floatText_numbers (qt : QtJson) (t : NumType) (v : BitVec t.width) :
    FloatText (isFinite t v) (numberText qt t v) ∧
      FloatText (isFinite t v) (serializeScalar qt (.num t v)) := by
  cases hinf : t.infinity with
  | none =>
    obtain ⟨hlist, -, hscalar⟩ := integerTexts qt hinf v
    have hfinite : isFinite t v = true := by simp [isFinite, hinf]
    rw [hlist, hscalar, hfinite]
    exact ⟨number_decimalInt _, number_decimalInt _⟩
  | some inf =>
    cases t with
    | float => exact ⟨qt.numberFloat_text v, qt.numberFloat_text v⟩
    | double => exact ⟨qt.numberDouble_text v, qt.doubleToString_text v⟩
    | _ => cases hinf

theorem chars_base64 (bytes : Bytes) : Chars (Lib.Base64.encode bytes) := by
  refine Chars.of_plain fun c hc => ?_
  obtain ⟨h₁, h₂, hne⟩ := Lib.Base64.encode_plain bytes c hc
  simp only [UInt8.le_iff_toNat_le, ne_eq, ← UInt8.toNat_inj, UInt8.reduceToNat] at h₁ h₂ hne
  simp only [isPlain, Bool.and_eq_true, decide_eq_true_eq, bne_iff_ne, ne_eq,
    UInt8.le_iff_toNat_le, UInt8.lt_iff_toNat_lt, ← UInt8.toNat_inj, quote, backslash,
    UInt8.reduceToNat]
  omega

theorem isValue_quoted {t : Bytes} (h : Chars t) : ∃ i, IsValue i ∧ i.text = quoted t :=
  ⟨⟨.string, t⟩, .string h, rfl⟩

theorem serializeScalar_string (qt : QtJson) (s : Option (List UInt16)) :
    serializeScalar qt (.string s) = quoted (qt.toUtf8 (s.getD [])) := qt.toUtf8_quoted _

/-- What is written for a list of numbers, strings, byte arrays or enum values. -/
theorem isValue_bracketed {texts : List Bytes} (h : ∀ t ∈ texts, ∃ i, IsValue i ∧ i.text = t) :
    ∃ i, IsValue i ∧ i.text = bracketed texts := by
  have hitems : ∃ is : List RawValue, (∀ i ∈ is, IsValue i) ∧ is.map RawValue.text = texts := by
    induction texts with
    | nil => exact ⟨[], by simp, rfl⟩
    | cons t texts ih =>
      obtain ⟨i, hi, rfl⟩ := h t List.mem_cons_self
      obtain ⟨is, his, rfl⟩ := ih fun u hu => h u (List.mem_cons_of_mem _ hu)
      exact ⟨i :: is, List.forall_mem_cons.mpr ⟨hi, his⟩, rfl⟩
  obtain ⟨is, his, rfl⟩ := hitems
  rw [bracketed_eq]
  exact ⟨_, IsValue.bareArray his, rfl⟩

/-! ## Sound values -/

/-- With enough levels a JSON object is written, and its members have the names
of the fields, each once. -/
def WritesObject (S : JsonSchema M) (qt : QtJson) (m : M) (fs : List (Value M)) : Prop :=
  ∃ text, MessageWrittenAs S qt m fs text ∧
    ∃ ms, IsObject text ms ∧ (ms.map Member.name).Perm
      ((List.range (S.types m).properties.length).map fun i => qt.toUtf8 (S.jsonName m i))

theorem writtenAs_const {e : MetaEnum} {v : Value M} {text : Bytes} (h : ∃ i, IsValue i ∧ i.text = text)
    (hv : ∀ n, serializeValue S qt (serializeMessage S qt n) e v = some text) :
    ∃ i, IsValue i ∧ WrittenAs S qt e v i.text := by
  obtain ⟨i, hi, rfl⟩ := h
  exact ⟨i, hi, 0, fun n _ => hv n⟩

/-- The members of a message, if the values of its fields are written as JSON values. -/
theorem sound_members {m : M} {fs : List (Value M)} (hne : (S.types m).properties ≠ [])
    (hn : ∀ i, i < (S.types m).properties.length → PlainText (qt.toUtf8 (S.jsonName m i)))
    (hl : fs.length = (S.types m).properties.length)
    (h : ∀ v ∈ fs, ∀ e, ∃ i, IsValue i ∧ WrittenAs S qt e v i.text) :
    ∃ members : List (Nat × RawValue),
      members.map Prod.fst = (S.types m).propertyOrdering.map Prod.snd ∧
      (∀ q ∈ members.map fun q => (qt.toUtf8 (S.jsonName m q.1), q.2), Chars q.1 ∧ IsValue q.2) ∧
      MessageWrittenAs S qt m fs (openBrace ::
        (commas (members.map fun q => memberText (qt.toUtf8 (S.jsonName m q.1)) q.2.text) ++
          [closeBrace])) := by
  obtain ⟨members, hfst, hvalues, hwritten⟩ := serializeMessage_members RawValue.text
    (P := fun _ i => IsValue i) hne hl fun i v hv => h v (List.mem_of_getElem? hv) (S.metaEnum m i)
  refine ⟨members, hfst, fun q hq => ?_, hwritten⟩
  obtain ⟨r, hr, rfl⟩ := List.mem_map.mp hq
  have hindex : r.1 ∈ (S.types m).propertyOrdering.map Prod.snd := hfst ▸ List.mem_map_of_mem hr
  have hlt := List.mem_range.mp ((S.types m).indices.mem_iff.mp hindex)
  exact ⟨(hn r.1 hlt).1, hvalues r hr⟩

/-- **Values.** What is spelled and sound is written as a JSON value. -/
theorem Spelled.writes {v : Value M} (hs : Spelled S qt v) (hsound : Sound S.types v) {t : FieldType M}
    (ht : HasType S.types t v) (e : MetaEnum) : ∃ i, IsValue i ∧ WrittenAs S qt e v i.text := by
  induction hs generalizing t e with
  | @scalar v h =>
    refine writtenAs_const ?_ fun _ => rfl
    cases hsound with
    | scalar hfinite =>
      cases v with
      | num t v =>
        have hnumber := (floatText_numbers qt t v).2
        rw [hfinite t v rfl] at hnumber
        exact ⟨⟨.number, _⟩, .number hnumber, rfl⟩
      | bool b => exact ⟨.bool b, .bool b, rfl⟩
      | string s => exact serializeScalar_string qt s ▸ isValue_quoted (h s rfl)
      | bytes s => exact isValue_quoted (chars_base64 _)
  | enum v => exact writtenAs_const (isValue_quoted (keyText_chars e _)) fun _ => rfl
  | @unset m h ih =>
    cases hsound with
    | unset hsound =>
      obtain ⟨i, hi, hw⟩ := ih hsound (hasType_newObject m) e
      exact ⟨i, hi, hw⟩
  | @object m fs hn h ih =>
    cases hsound with
    | object hne hsound =>
      have hm : t = .single (.message m) := by cases ht; rfl
      subst hm
      obtain ⟨members, -, hvalid, N, hN⟩ := sound_members hne hn (HasType.fields_length ht)
        fun v hv e => by
          obtain ⟨t, htv⟩ := HasType.field ht hv
          exact ih v hv (hsound v hv) htv e
      refine ⟨_, IsValue.bareObject hvalid, N, fun n hlevel => ?_⟩
      show serializeMessage S qt n m fs = _
      rw [hN n hlevel, List.map_map]
      rfl
  | nums nt vs =>
    refine writtenAs_const (isValue_bracketed fun text htext => ?_) fun _ => rfl
    obtain ⟨v, hv, rfl⟩ := List.mem_map.mp htext
    cases hsound with
    | nums hfinite =>
      have hnumber := (floatText_numbers qt nt v).1
      rw [hfinite v hv] at hnumber
      exact ⟨⟨.number, _⟩, .number hnumber, rfl⟩
  | strings h =>
    refine writtenAs_const (isValue_bracketed fun text htext => ?_) fun _ => rfl
    obtain ⟨s, hs, rfl⟩ := List.mem_map.mp htext
    exact isValue_quoted (h s hs)
  | byteArrays vs =>
    refine writtenAs_const (isValue_bracketed fun text htext => ?_) fun _ => rfl
    obtain ⟨s, -, rfl⟩ := List.mem_map.mp htext
    exact isValue_quoted (chars_base64 _)
  | enums vs =>
    refine writtenAs_const (isValue_bracketed fun text htext => ?_) fun _ => rfl
    obtain ⟨v, -, rfl⟩ := List.mem_map.mp htext
    exact isValue_quoted (keyText_chars e v)
  | @messages vs h ih =>
    cases hsound with
    | messages hsound =>
      cases ht with
      | messages htyped =>
        obtain ⟨elements, -, hvalues, hw⟩ := serializeMessages_elements RawValue.text (e := e)
          (P := fun _ i => IsValue i) (fun v hv hset => object_of_set (htyped v hv) hset)
          fun v hv hset => ih v hv hset (hsound v hv hset) (htyped v hv) e
        have hall : ∀ i ∈ elements.map Prod.snd, IsValue i := fun i hi => by
          obtain ⟨q, hq, rfl⟩ := List.mem_map.mp hi
          exact hvalues q hq
        refine ⟨⟨.array, _⟩, ?_, hw⟩
        have := IsValue.bareArray hall
        simpa [Function.comp_def] using this
  | @map es hk h ih =>
    cases hsound with
    | map hsound =>
      cases ht with
      | @map kt vt es htk htyped =>
        obtain ⟨members, hfst, hvalues, hw⟩ := serializeMap_members RawValue.text (e := e)
          (P := fun _ i => IsValue i)
          (fun p hp _ rec => serializeValue_single (htyped p hp) rec e)
          fun p hp hset => ih p hp hset (hsound p hp hset) (htyped p hp) e
        refine ⟨⟨.object, _⟩, ?_, hw⟩
        have hall : ∀ r ∈ members.map fun q => (variantText qt q.1.1, q.2), Chars r.1 ∧ IsValue r.2 := by
          intro r hr
          obtain ⟨q, hq, rfl⟩ := List.mem_map.mp hr
          have hmem : q.1 ∈ es.filter fun p => !p.2.isUnset := hfst ▸ List.mem_map_of_mem hq
          obtain ⟨hmem, hset⟩ := List.mem_filter.mp hmem
          exact ⟨hk q.1 hmem (by simpa using hset), hvalues q hq⟩
        have := IsValue.bareObject hall
        simpa [Function.comp_def] using this

/-- The object that is written for a sound message. -/
theorem writesObject_of_sound {m : M} {fs : List (Value M)}
    (ht : HasType S.types (.single (.message m)) (.object m fs)) (hs : Spelled S qt (.object m fs))
    (hsound : Sound S.types (.object m fs)) : WritesObject S qt m fs := by
  cases hs with
  | object hn hs =>
    cases hsound with
    | object hne hsound =>
      obtain ⟨members, hfst, hvalid, hwritten⟩ := sound_members hne hn (HasType.fields_length ht)
        fun v hv e => by
          obtain ⟨t, htv⟩ := HasType.field ht hv
          exact (hs v hv).writes (hsound v hv) htv e
      have hobject := IsObject.bare hvalid
      simp only [List.map_map, Function.comp_def] at hobject
      refine ⟨_, hwritten, _, hobject, ?_⟩
      have hnames : (members.map Prod.fst).Perm (List.range (S.types m).properties.length) :=
        hfst ▸ (S.types m).indices
      have := hnames.map fun i => qt.toUtf8 (S.jsonName m i)
      simpa [Member.bare, Function.comp_def] using this

/-! ## The surplus of what is not sound -/

/-- A part that is written, with its surplus; there is none only if `sound` holds. -/
def Surplus (sound : Prop) (part : Int × Bytes) : Prop :=
  Weighs part.1 part.2 ∧ 0 ≤ part.1 ∧ (part.1 = 0 → sound)

theorem Surplus.of_chars {sound : Prop} (h : sound) {t : Bytes} (ht : Chars t) :
    Surplus sound (0, quoted t) := ⟨.quoted ht, le_refl _, fun _ => h⟩

theorem surplus_number {finite : Bool} {text : Bytes} (h : FloatText finite text) :
    Surplus (finite = true) (if finite then 0 else 1, text) := by
  cases finite with
  | true => exact ⟨.number h, le_refl _, fun _ => rfl⟩
  | false =>
    refine ⟨?_, by simp, by simp⟩
    intro rest
    simp only [FloatText, Bool.false_eq_true, if_false, specialTexts, List.mem_cons,
      List.not_mem_nil, or_false] at h
    rcases h with rfl | rfl | rfl
    · simp [surplus, byteSurplus, quote, closeBrace, openBrace]
    · simp [surplus, byteSurplus, quote, closeBrace, openBrace]
      omega
    · simp [surplus, byteSurplus, quote, closeBrace, openBrace]
      omega

/-- The parts of a list, an object or a map: no surplus of the whole, none of a part. -/
theorem surplus_commas {α : Type} (sound : α → Prop) (text : α × (Int × Bytes) → Bytes)
    {parts : List (α × (Int × Bytes))} (hw : ∀ q ∈ parts, Weighs q.2.1 (text q))
    (h : ∀ q ∈ parts, Surplus (sound q.1) q.2) :
    Surplus (∀ q ∈ parts, sound q.1) ((parts.map fun q => q.2.1).sum, commas (parts.map text)) := by
  have hnonneg : ∀ k ∈ parts.map fun q => q.2.1, 0 ≤ k := by
    intro k hk
    obtain ⟨q, hq, rfl⟩ := List.mem_map.mp hk
    exact (h q hq).2.1
  have hcommas := Weighs.commas (parts.map fun q => (q.2.1, text q)) fun p hp => by
    obtain ⟨q, hq, rfl⟩ := List.mem_map.mp hp
    exact hw q hq
  simp only [List.map_map, Function.comp_def] at hcommas
  refine ⟨hcommas, List.sum_nonneg hnonneg, fun hsum q hq => (h q hq).2.2 ?_⟩
  exact List.all_zero_of_le_zero_le_of_sum_eq_zero hnonneg hsum (List.mem_map_of_mem hq)

theorem surplus_bracketed {α : Type} {sound : α → Prop} (as : List α) {part : α → Int × Bytes}
    (h : ∀ a ∈ as, Surplus (sound a) (part a)) :
    ∃ k, Surplus (∀ a ∈ as, sound a) (k, bracketed (as.map fun a => (part a).2)) := by
  have hall : ∀ q ∈ as.map fun a => (a, part a), Surplus (sound q.1) q.2 := by
    intro q hq
    obtain ⟨a, ha, rfl⟩ := List.mem_map.mp hq
    exact h a ha
  obtain ⟨hw, hk, hsound⟩ := surplus_commas sound (fun q => q.2.2)
    (fun q hq => (hall q hq).1) hall
  refine ⟨_, ?_, hk, fun h0 a ha => hsound h0 (a, part a) (List.mem_map_of_mem ha)⟩
  rw [bracketed_eq]
  simpa [Function.comp_def] using Weighs.brackets hw

theorem Surplus.imp {sound sound' : Prop} {part : Int × Bytes} (h : Surplus sound part)
    (hs : sound → sound') : Surplus sound' part := ⟨h.1, h.2.1, fun h0 => hs (h.2.2 h0)⟩

theorem surplus_const {e : MetaEnum} {v : Value M} {text : Bytes}
    (h : ∃ k, Surplus (Sound S.types v) (k, text))
    (hv : ∀ n, serializeValue S qt (serializeMessage S qt n) e v = some text) :
    ∃ part, Surplus (Sound S.types v) part ∧ WrittenAs S qt e v part.2 := by
  obtain ⟨k, hk⟩ := h
  exact ⟨_, hk, 0, fun n _ => hv n⟩

theorem surplus_scalar {v : Scalar} (h : ∀ s, v = .string s → Chars (qt.toUtf8 (s.getD []))) :
    ∃ k, Surplus (Sound S.types (.scalar v)) (k, serializeScalar qt v) := by
  have hother : (∀ t w, v ≠ .num t w) → Sound S.types (.scalar v) := fun hne =>
    .scalar fun t w he => absurd he (hne t w)
  cases v with
  | num t v =>
    refine ⟨_, (surplus_number (floatText_numbers qt t v).2).imp fun hfinite => .scalar ?_⟩
    intro t' w he
    cases he
    exact hfinite
  | bool b => exact ⟨0, .bool b, le_refl _, fun _ => hother (by simp)⟩
  | string s => exact ⟨0, serializeScalar_string qt s ▸ .of_chars (hother (by simp)) (h s rfl)⟩
  | bytes s => exact ⟨0, .of_chars (hother (by simp)) (chars_base64 _)⟩

/-- What is written for a message: a closing brace is left over if it has no field. -/
theorem surplus_message {m : M} {fs : List (Value M)} (hl : fs.length = (S.types m).properties.length)
    (hn : ∀ i, i < (S.types m).properties.length → PlainText (qt.toUtf8 (S.jsonName m i)))
    (h : ∀ v ∈ fs, ∀ e, ∃ part, Surplus (Sound S.types v) part ∧ WrittenAs S qt e v part.2) :
    ∃ part, Surplus (Sound S.types (.object m fs)) part ∧ MessageWrittenAs S qt m fs part.2 := by
  by_cases hne : (S.types m).properties = []
  · refine ⟨(1, [closeBrace]), ⟨.byte (by decide), by decide, fun h => ?_⟩,
      serializeMessage_noFields hne fs⟩
    exact absurd h (by decide)
  · obtain ⟨members, hfst, hparts, hwritten⟩ := serializeMessage_members Prod.snd
      (P := fun i part => Surplus (∀ v, fs[i]? = some v → Sound S.types v) part) hne hl
      fun i v hv => by
        obtain ⟨part, hpart, hw⟩ := h v (List.mem_of_getElem? hv) (S.metaEnum m i)
        refine ⟨part, hpart.imp fun hsound w hw => ?_, hw⟩
        rw [hv] at hw
        cases hw
        exact hsound
    have hindex : ∀ i, i < (S.types m).properties.length ↔ ∃ q ∈ members, q.1 = i := by
      intro i
      rw [← List.mem_range, ← (S.types m).indices.mem_iff, ← hfst, List.mem_map]
    have hcommas := surplus_commas (fun i => ∀ v, fs[i]? = some v → Sound S.types v)
      (fun q => memberText (qt.toUtf8 (S.jsonName m q.1)) q.2.2) (fun q hq =>
        .memberText (hn q.1 ((hindex q.1).mpr ⟨q, hq, rfl⟩)).1 (hparts q hq).1) hparts
    obtain ⟨hw, hk, hsound⟩ := hcommas
    refine ⟨(_, _), ⟨.braces hw, hk, fun h0 => .object hne fun v hv => ?_⟩, hwritten⟩
    obtain ⟨i, hi⟩ := List.mem_iff_getElem?.mp hv
    have hlt : i < (S.types m).properties.length := hl ▸ (List.getElem?_eq_some_iff.mp hi).1
    obtain ⟨q, hq, rfl⟩ := (hindex i).mp hlt
    exact hsound h0 q hq v hi

/-- **Surplus.** Whatever is spelled is written, and without a surplus only if it is sound. -/
theorem Spelled.surplus {v : Value M} (hs : Spelled S qt v) {t : FieldType M}
    (ht : HasType S.types t v) (e : MetaEnum) :
    ∃ part, Surplus (Sound S.types v) part ∧ WrittenAs S qt e v part.2 := by
  induction hs generalizing t e with
  | scalar h => exact surplus_const (surplus_scalar h) fun _ => rfl
  | enum v => exact surplus_const ⟨0, .of_chars (.enum v) (keyText_chars e _)⟩ fun _ => rfl
  | @unset m h ih =>
    obtain ⟨part, hpart, hw⟩ := ih (hasType_newObject m) e
    exact ⟨part, hpart.imp .unset, hw⟩
  | @object m fs hn h ih =>
    have hm : t = .single (.message m) := by cases ht; rfl
    subst hm
    obtain ⟨part, hpart, N, hN⟩ := surplus_message (HasType.fields_length ht) hn fun v hv e => by
      obtain ⟨t, htv⟩ := HasType.field ht hv
      exact ih v hv htv e
    exact ⟨part, hpart, N, hN⟩
  | nums nt vs =>
    obtain ⟨k, hk⟩ := surplus_bracketed vs fun v _ =>
      surplus_number (floatText_numbers qt nt v).1
    exact surplus_const ⟨k, hk.imp .nums⟩ fun _ => rfl
  | @strings vs h =>
    obtain ⟨k, hk⟩ := surplus_bracketed vs fun s hs => Surplus.of_chars trivial (h s hs)
    exact surplus_const ⟨k, hk.imp fun _ => .strings vs⟩ fun _ => rfl
  | byteArrays vs =>
    obtain ⟨k, hk⟩ := surplus_bracketed vs fun s _ =>
      Surplus.of_chars trivial (chars_base64 (s.getD []))
    exact surplus_const ⟨k, hk.imp fun _ => .byteArrays vs⟩ fun _ => rfl
  | enums vs =>
    obtain ⟨k, hk⟩ := surplus_bracketed (vs.map (·.signExtend 64)) fun v _ =>
      Surplus.of_chars trivial (keyText_chars e v)
    exact surplus_const ⟨k, hk.imp fun _ => .enums vs⟩ fun _ => rfl
  | @messages vs h ih =>
    cases ht with
    | messages htyped =>
      obtain ⟨elements, hfst, hparts, hw⟩ := serializeMessages_elements Prod.snd (e := e)
        (P := fun v part => Surplus (Sound S.types v) part)
        (fun v hv hset => object_of_set (htyped v hv) hset)
        fun v hv hset => ih v hv hset (htyped v hv) e
      obtain ⟨hsum, hk, hsound⟩ := surplus_commas (Sound S.types) (fun q => q.2.2)
        (fun q hq => (hparts q hq).1) hparts
      refine ⟨(_, _), ⟨.brackets hsum, hk, fun h0 => .messages fun v hv hset => ?_⟩, hw⟩
      have hmem : v ∈ elements.map Prod.fst := hfst ▸ List.mem_filter.mpr ⟨hv, by simpa using hset⟩
      obtain ⟨q, hq, rfl⟩ := List.mem_map.mp hmem
      exact hsound h0 q hq
  | @map es hk h ih =>
    cases ht with
    | @map kt vt es htk htyped =>
      obtain ⟨members, hfst, hparts, hw⟩ := serializeMap_members Prod.snd (e := e)
        (P := fun p part => Surplus (Sound S.types p.2) part)
        (fun p hp _ rec => serializeValue_single (htyped p hp) rec e)
        fun p hp hset => ih p hp hset (htyped p hp) e
      have hmember : ∀ q ∈ members, q.1 ∈ es ∧ q.1.2.isUnset = false := fun q hq => by
        have hmem : q.1 ∈ es.filter fun p => !p.2.isUnset := hfst ▸ List.mem_map_of_mem hq
        obtain ⟨hmem, hset⟩ := List.mem_filter.mp hmem
        exact ⟨hmem, by simpa using hset⟩
      obtain ⟨hsum, hpos, hsound⟩ := surplus_commas (fun p => Sound S.types p.2)
        (fun q => memberText (variantText qt q.1.1) q.2.2)
        (fun q hq => .memberText (hk q.1 (hmember q hq).1 (hmember q hq).2) (hparts q hq).1) hparts
      refine ⟨(_, _), ⟨.braces hsum, hpos, fun h0 => .map fun p hp hset => ?_⟩, hw⟩
      have hmem : p ∈ members.map Prod.fst := hfst ▸ List.mem_filter.mpr ⟨hp, by simpa using hset⟩
      obtain ⟨q, hq, rfl⟩ := List.mem_map.mp hmem
      exact hsound h0 q hq

/-! ## Well-formed output -/

/-- **Well-formed output.** A message whose strings and names can stand between
quotes is written as a JSON object exactly if it is sound. -/
theorem writesObject_iff {m : M} {fs : List (Value M)}
    (ht : HasType S.types (.single (.message m)) (.object m fs)) (hs : Spelled S qt (.object m fs)) :
    WritesObject S qt m fs ↔ Sound S.types (.object m fs) := by
  refine ⟨fun ⟨text, hwritten, ms, hobject, _⟩ => ?_, writesObject_of_sound ht hs⟩
  obtain ⟨part, ⟨hweighs, -, hsound⟩, N, hN⟩ := hs.surplus ht denseLevels
  have htext : text = part.2 := hwritten.unique ⟨N, hN⟩
  exact hsound (hweighs.unique (htext ▸ IsObject.weighs hobject))

/-- `message Note { string a = 1; }`, with the text `x`. -/
theorem writesObject_note :
    WritesObject (.oneField (.single (.scalar .string)) [0x61] denseLevels) .ascii ()
      [.scalar (.string (some [0x78]))] := by
  have hplain : Chars [0x61] := .of_plain (List.all_eq_true.mp (by decide))
  refine (writesObject_iff ?_ (.object ?_ ?_)).mpr (.object (by simp [JsonSchema.oneField,
    oneFieldSchema, MetaObject.oneField]) ?_)
  · refine .object () rfl fun i t v ht hv => ?_
    cases i with
    | zero =>
      cases ht
      cases hv
      exact .scalar (.string _)
    | succ i => cases hv
  · exact fun _ _ => ⟨hplain, show backslash ∉ ([0x61] : Bytes) by simp [backslash]⟩
  · intro v hv
    rw [List.mem_singleton.mp hv]
    refine .scalar fun s hs => ?_
    cases hs
    exact .of_plain (List.all_eq_true.mp (by decide))
  · intro v hv
    rw [List.mem_singleton.mp hv]
    exact .scalar fun t w he => by cases he

/-- A message type without fields. -/
def noFields : JsonSchema Unit where
  types _ := emptyMessage
  jsonName _ _ := []
  metaEnum _ _ := denseLevels
  distinct _ := List.nodup_nil

/-- It is written as `}`. -/
theorem not_writesObject_noFields :
    Acyclic noFields.types ∧ HasType noFields.types (.single (.message ())) (.object () []) ∧
      MessageWrittenAs noFields .ascii () [] [closeBrace] ∧ ¬ WritesObject noFields .ascii () [] := by
  have hwritten : MessageWrittenAs noFields .ascii () [] [closeBrace] := serializeMessage_noFields rfl []
  refine ⟨fun m h => ?_, .object () rfl (by simp), hwritten, ?_⟩
  · obtain ⟨m', hm'⟩ : ∃ m', Contains noFields.types m' m := by
      cases h with
      | single h => exact ⟨_, h⟩
      | tail _ h => exact ⟨_, h⟩
    exact absurd hm' List.not_mem_nil
  · rintro ⟨text, htext, ms, hobject, -⟩
    have hbrace : text = [closeBrace] := htext.unique hwritten
    have hone : Weighs 1 [closeBrace] := .byte (by decide)
    have := hone.unique (hbrace ▸ IsObject.weighs hobject)
    omega

end QtProtobuf.Json
