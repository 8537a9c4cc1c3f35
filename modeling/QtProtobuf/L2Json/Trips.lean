import QtProtobuf.L2Codec.RoundTrip
import QtProtobuf.L2Json.MessageRuns

/-!
# The trip of a value

From a value to the text that is written for it, and to the value that is read
from the text: one result for each type of a property.

* `travels_fields`: the fields of a message.
* `travels_array`: the lists that are written and read in one go.
* `travels_messages`, `travels_map`: the lists and maps that handlers loop over.
-/
namespace QtProtobuf.Json

open Lib.Json Codec

variable {M : Type} {S : JsonSchema M} {mj : MicroJson} {qt : QtJson}

/-! ## Values -/

/-- The value that is written for `v`, and what is read for it. -/
structure Trip (S : JsonSchema M) (mj : MicroJson) (qt : QtJson) (e : MetaEnum) (t : FieldType M)
    (v : Value M) (x : RawValue × Value M) : Prop where
  value : IsValue x.1
  notNull : x.1.kind ≠ .null
  object : ∀ m, t = .single (.message m) → x.1.kind = .object
  read : ReadAs S mj qt e t x.1 x.2
  equal : Equal S.types v x.2 ↔ Restored S e v

def Travels (S : JsonSchema M) (mj : MicroJson) (qt : QtJson) (e : MetaEnum) (t : FieldType M)
    (v : Value M) : Prop :=
  ∃ x, Trip S mj qt e t v x ∧ WrittenAs S qt e v x.1.text

theorem travels_scalar {e : MetaEnum} {v : Scalar} (hw : Whole v.type) (hk : v.Kept qt.toQtCore)
    (hs : ∀ s, v = .string s → Chars (qt.toUtf8 (s.getD []))) :
    Travels S mj qt e (.single (.scalar v.type)) (.scalar v) := by
  obtain ⟨i, w, hi, hnull, htext, hread, hiff⟩ := exists_scalar hw hk hs
  refine ⟨(i, .scalar w), ⟨hi, hnull, (fun m h => by cases h),
    ⟨0, fun n _ => ⟨(some (.scalar w), true), ?_, rfl⟩⟩, ?_⟩, 0, fun n _ => ?_⟩
  · show some (Prod.map _ _ (deserializeScalar qt v.type i.raw (jsonType i.kind))) = _
    rw [hread]
    rfl
  · exact ⟨fun h => by cases h with | scalar h => exact .scalar (hiff.mp h),
      fun h => by cases h with | scalar h => exact .scalar (hiff.mpr h)⟩
  · show some (serializeScalar qt v) = _
    rw [htext]

theorem travels_enum {e : MetaEnum} (v : BitVec 32) : Travels S mj qt e (.single .enum) (.enum v) := by
  obtain ⟨w, hread, hiff⟩ := exists_enum (M := M) e v
  obtain ⟨r, hr, hw⟩ := hread false
  refine ⟨(⟨.string, keyText e (v.signExtend 64)⟩, .enum w), ⟨.string (keyText_chars e _), by simp,
    (fun m h => by cases h), ⟨0, fun n _ => ⟨r, hr, hw⟩⟩, ?_⟩, 0, fun n _ => rfl⟩
  constructor
  · intro h
    cases h
    exact .enum (hiff.mp rfl)
  · intro h
    cases h with
    | enum h => exact hiff.mpr h ▸ .enum v

/-- A message whose fields are written and read. -/
theorem travels_fields (hp : mj.Parses) (hr : Regular S qt.toQtCore) {m : M} {fs : List (Value M)}
    (hn : ∀ i, i < (S.types m).properties.length → PlainText (qt.toUtf8 (S.jsonName m i)))
    (hl : fs.length = (S.types m).properties.length)
    (h : ∀ (i : Nat) t v, (S.types m).properties[i]? = some t → fs[i]? = some v →
      WholeField t → Travels S mj qt (S.metaEnum m i) t v) :
    ∃ text gs, MessageWrittenAs S qt m fs text ∧ MessageReadAs S mj qt m text gs ∧
      IsValue ⟨.object, text⟩ ∧
      (Equal S.types (.object m fs) (.object m gs) ↔
        ∀ i v, fs[i]? = some v → Restored S (S.metaEnum m i) v) := by
  have htype : ∀ (i : Nat) v, fs[i]? = some v →
      ∃ t, (S.types m).properties[i]? = some t ∧ WholeField t := fun i v hv => by
    have hlt : i < (S.types m).properties.length := hl ▸ (List.getElem?_eq_some_iff.mp hv).1
    exact ⟨_, List.getElem?_eq_getElem hlt, hr.whole m _ (List.getElem_mem hlt)⟩
  obtain ⟨members, hfst, htrips, hwritten⟩ := serializeMessage_members
    (fun x : RawValue × Value M => x.1.text)
    (P := fun i x => ∀ t v, (S.types m).properties[i]? = some t → fs[i]? = some v →
      Trip S mj qt (S.metaEnum m i) t v x) (hr.nonempty m) hl fun i v hv => by
    obtain ⟨t, ht, hw⟩ := htype i v hv
    obtain ⟨x, hx, hxw⟩ := h i t v ht hv hw
    refine ⟨x, fun t' v' ht' hv' => ?_, hxw⟩
    rw [ht] at ht'
    rw [hv] at hv'
    cases ht'
    cases hv'
    exact hx
  have hindices : (members.map Prod.fst).Perm (List.range (S.types m).properties.length) :=
    hfst ▸ (S.types m).indices
  have hfield : ∀ q ∈ members, ∀ t, (S.types m).properties[q.1]? = some t →
      ∃ v, fs[q.1]? = some v ∧ Trip S mj qt (S.metaEnum m q.1) t v q.2 := fun q hq t ht => by
    have hlt : q.1 < fs.length := hl ▸ (List.getElem?_eq_some_iff.mp ht).1
    have hv := List.getElem?_eq_getElem hlt
    exact ⟨_, hv, htrips q hq t _ ht hv⟩
  obtain ⟨gs, hread, hgl, hgs⟩ := exists_messageReadAs hp hr hfst hn fun q hq t ht => by
    obtain ⟨v, -, htrip⟩ := hfield q hq t ht
    exact ⟨htrip.value, htrip.notNull, htrip.read⟩
  refine ⟨_, gs, hwritten, hread, ?_, ?_⟩
  · have hvalid : ∀ p ∈ members.map fun q => (qt.toUtf8 (S.jsonName m q.1), q.2.1),
        Chars p.1 ∧ IsValue p.2 := fun p hpm => by
      obtain ⟨q, hq, rfl⟩ := List.mem_map.mp hpm
      have hlt := List.mem_range.mp (hindices.mem_iff.mp (List.mem_map_of_mem hq))
      obtain ⟨v, -, htrip⟩ := hfield q hq _ (List.getElem?_eq_getElem hlt)
      exact ⟨(hn q.1 hlt).1, htrip.value⟩
    simpa [Function.comp_def] using IsValue.bareObject hvalid
  · -- field by field
    have hiff : ∀ (i : Nat) v, fs[i]? = some v → ∃ g, gs[i]? = some g ∧
        (Equal S.types v g ↔ Restored S (S.metaEnum m i) v) := fun i v hv => by
      obtain ⟨t, ht, hw⟩ := htype i v hv
      have hmem : i ∈ members.map Prod.fst :=
        hindices.mem_iff.mpr (List.mem_range.mpr (List.getElem?_eq_some_iff.mp ht).1)
      obtain ⟨q, hq, rfl⟩ := List.mem_map.mp hmem
      exact ⟨_, hgs q hq t ht, (equal_write_default hw v q.2.2).trans (htrips q hq t v ht hv).equal⟩
    constructor
    · intro heq i v hv
      cases heq with
      | object m hlen heq =>
        obtain ⟨g, hg, hvg⟩ := hiff i v hv
        exact hvg.mp (heq i v g hv hg)
    · intro hrest
      refine .object m (hl.trans hgl.symm) fun i v g hv hg => ?_
      obtain ⟨g', hg', hvg⟩ := hiff i v hv
      rw [hg] at hg'
      cases hg'
      exact hvg.mpr (hrest i v hv)

/-! ## Lists of scalars -/

/-- An array of scalars, read element by element. -/
theorem deserializeElements_bracketed {α : Type} (hp : mj.Parses) {items : List RawValue}
    (h : ∀ i ∈ items, IsValue i) (element : Bytes → JsonType → α) :
    IsValue ⟨.array, bracketed (items.map RawValue.text)⟩ ∧
      deserializeElements mj element (bracketed (items.map RawValue.text)) .array =
        (some (items.map fun i => element i.raw (jsonType i.kind)), true) := by
  have harray := IsArray.bare h
  rw [← bracketed_eq] at harray
  refine ⟨?_, ?_⟩
  · rw [bracketed_eq]
    exact IsValue.bareArray h
  · rw [deserializeElements, if_neg (by simp), hp.array _ _ harray, List.map_map, List.map_map]
    rfl

/-- The trip of a list, from the trips of what it has. -/
theorem travels_array {α : Type} (hp : mj.Parses) {e : MetaEnum} {t : FieldType M} {v w : Value M}
    {items : List RawValue} (hitems : ∀ i ∈ items, IsValue i) {element : Bytes → JsonType → α}
    {wrap : List α → Value M} (ht : ∀ m, t ≠ .single (.message m))
    (hread : ∀ rec data, deserializeValue mj qt rec e t data .array =
      some (Prod.map (Option.map wrap) id (deserializeElements mj element data .array)))
    (hw : wrap (items.map fun i => element i.raw (jsonType i.kind)) = w)
    (hwritten : ∀ rec, serializeValue S qt rec e v = some (bracketed (items.map RawValue.text)))
    (hiff : Equal S.types v w ↔ Restored S e v) : Travels S mj qt e t v := by
  obtain ⟨hvalue, helements⟩ := deserializeElements_bracketed hp hitems element
  refine ⟨(⟨.array, bracketed (items.map RawValue.text)⟩, w), ⟨hvalue, by simp,
    fun m h => absurd h (ht m), ⟨0, fun n _ => ⟨(some w, true), ?_, rfl⟩⟩, hiff⟩,
    0, fun n _ => hwritten _⟩
  show deserializeValue mj qt _ e t _ .array = _
  rw [hread, helements, ← hw]
  rfl

theorem travels_nums (hp : mj.Parses) (e : MetaEnum) {t : NumType} (hint : t.infinity = none)
    (vs : List (BitVec t.width)) : Travels S mj qt e (.nums t) (.nums t vs) := by
  let items := vs.map fun v => (⟨.number, decimalInt (toInteger t v)⟩ : RawValue)
  have hitems : ∀ i ∈ items, IsValue i := fun i hi => by
    obtain ⟨v, -, rfl⟩ := List.mem_map.mp hi
    exact .number (number_decimalInt _)
  have htexts : vs.map (numberText qt t) = items.map RawValue.text := by
    rw [List.map_map]
    exact List.map_congr_left fun v _ => (integerTexts qt hint v).1
  have hvalues : items.map (fun i => (deserializeNum qt t i.raw (jsonType i.kind)).1.getD 0) = vs := by
    rw [List.map_map]
    refine (List.map_congr_left fun v _ => ?_).trans (List.map_id vs)
    show (deserializeNum qt t (decimalInt (toInteger t v)) .number).1.getD 0 = v
    rw [deserializeNum_decimal qt hint]
    rfl
  refine travels_array hp hitems (fun m h => by cases h) (fun rec data => rfl)
    (congrArg (Value.nums t) hvalues) (fun rec => ?_) ⟨fun _ => .nums e t vs, fun _ => .nums t vs⟩
  show some (bracketed (vs.map (numberText qt t))) = _
  rw [htexts]

theorem travels_strings (hp : mj.Parses) (e : MetaEnum) {vs : List (Option (List UInt16))}
    (hk : ∀ s ∈ vs, qt.Survives s) (hs : ∀ s ∈ vs, Chars (qt.toUtf8 (s.getD []))) :
    Travels S mj qt e .strings (.strings vs) := by
  let items := vs.map fun s => (⟨.string, qt.toUtf8 (s.getD [])⟩ : RawValue)
  have hitems : ∀ i ∈ items, IsValue i := fun i hi => by
    obtain ⟨s, hs', rfl⟩ := List.mem_map.mp hi
    exact .string (hs s hs')
  have hvalues : items.map (fun i => (deserializeString qt i.raw (jsonType i.kind)).1) =
      vs.map fun s => some (replaceQuotes (s.getD [])) := by
    rw [List.map_map]
    refine List.map_congr_left fun s hs' => ?_
    have hsurvives : qt.fromUtf8 (qt.toUtf8 (s.getD [])) = s.getD [] := hk s hs'
    simp [deserializeString, jsonType, hsurvives]
  refine travels_array hp hitems (fun m h => by cases h) (fun rec data => rfl)
    (congrArg Value.strings hvalues) (fun rec => ?_) ?_
  · show some (bracketed (vs.map fun s => quoted (qt.toUtf8 (s.getD [])))) = _
    rw [List.map_map]
    rfl
  · have hiff : vs.map (·.getD []) = (vs.map fun s => some (replaceQuotes (s.getD []))).map (·.getD []) ↔
        ∀ s ∈ vs, ¬ escapedQuote <:+: s.getD [] := by
      rw [List.map_map, List.map_inj_left]
      exact forall₂_congr fun s _ => replaceQuotes_iff (s.getD [])
    exact ⟨fun h => by cases h with | strings h => exact .strings (hiff.mp h),
      fun h => by cases h with | strings h => exact .strings (hiff.mpr h)⟩

theorem travels_byteArrays (hp : mj.Parses) (e : MetaEnum) (vs : List (Option Bytes)) :
    Travels S mj qt e .byteArrays (.byteArrays vs) := by
  let items := vs.map fun s => (⟨.string, Lib.Base64.encode (s.getD [])⟩ : RawValue)
  have hitems : ∀ i ∈ items, IsValue i := fun i hi => by
    obtain ⟨s, -, rfl⟩ := List.mem_map.mp hi
    exact .string (chars_base64 _)
  have hvalues : items.map (fun i => (deserializeByteArray i.raw (jsonType i.kind)).1) =
      vs.map fun s => some (s.getD []) := by
    rw [List.map_map]
    refine List.map_congr_left fun s _ => ?_
    simp [deserializeByteArray, jsonType, Lib.Base64.decode_encode]
  refine travels_array hp hitems (fun m h => by cases h) (fun rec data => rfl)
    (congrArg Value.byteArrays hvalues) (fun rec => ?_) ⟨fun _ => .byteArrays e vs, fun _ => .byteArrays ?_⟩
  · show some (bracketed (vs.map fun s => quoted (Lib.Base64.encode (s.getD [])))) = _
    rw [List.map_map]
    rfl
  · rw [List.map_map]
    rfl

/-- What an enum type has for an index or a name is of its own type. -/
theorem exists_toInt (e : MetaEnum) (name : Bytes) :
    ∃ w : BitVec 32, (if name = nullText then e.value 0 else e.keyToValue name) = w.toInt := by
  unfold MetaEnum.value MetaEnum.keyToValue
  split <;> split
  · exact ⟨_, rfl⟩
  · exact ⟨-1, rfl⟩
  · exact ⟨_, rfl⟩
  · exact ⟨-1, rfl⟩

theorem travels_enums (hp : mj.Parses) (e : MetaEnum) (vs : List (BitVec 32)) :
    Travels S mj qt e .enums (.enums vs) := by
  let text := serializeEnumList e (vs.map (·.signExtend 64))
  let read (v : BitVec 32) : BitVec 64 := BitVec.ofInt 64
    (if keyText e (v.signExtend 64) = nullText then e.value 0
      else e.keyToValue (keyText e (v.signExtend 64)))
  have hvalue : IsValue ⟨.array, text⟩ := by
    have hitems : ∀ i ∈ vs.map fun v => (⟨.string, keyText e (v.signExtend 64)⟩ : RawValue),
        IsValue i := fun i hi => by
      obtain ⟨v, -, rfl⟩ := List.mem_map.mp hi
      exact .string (keyText_chars e _)
    have := (deserializeElements_bracketed hp hitems fun _ _ => ()).1
    simpa [text, serializeEnumList, RawValue.text, quoted, Function.comp_def] using this
  have hne : text ≠ [] := by
    show bracketed _ ≠ []
    rw [bracketed_eq]
    exact List.cons_ne_nil _ _
  have hround : enumListRound (M := M) mj e none text =
      some (some (.enums (vs.map fun v => (read v).setWidth 32)), []) := by
    rw [enumListRound, deserializeEnumList_eq hp, List.map_map, List.map_map]
    rfl
  -- one value is read as itself where it stands for itself
  have hone : ∀ v, v = (read v).setWidth 32 ↔ e.AtOwnIndexInList v := fun v => by
    obtain ⟨w, hw⟩ := exists_toInt e (keyText e (v.signExtend 64))
    rw [← enumElement_iff]
    show v = (BitVec.ofInt 64 (if keyText e (v.signExtend 64) = nullText then _ else _)).setWidth 32 ↔ _
    rw [hw, ofInt_toInt_eq]
    show v = (w.signExtend 64).setWidth 32 ↔ _
    rw [setWidth_signExtend, eq_comm]
  refine ⟨(⟨.array, text⟩, .enums (vs.map fun v => (read v).setWidth 32)),
    ⟨hvalue, by simp, (fun m h => by cases h),
    ⟨0, fun n _ => ⟨_, runHandler_once hne hround false, rfl⟩⟩, ?_⟩, 0, fun n _ => rfl⟩
  have hiff : vs = (vs.map fun v => (read v).setWidth 32) ↔ ∀ v ∈ vs, e.AtOwnIndexInList v := by
    have := List.map_inj_left (l := vs) (f := id) (g := fun v => (read v).setWidth 32)
    rw [List.map_id] at this
    rw [this]
    exact forall₂_congr fun v _ => hone v
  constructor
  · intro h
    generalize hws : (vs.map fun v => (read v).setWidth 32) = ws at h hiff
    cases h
    exact .enums (hiff.mp rfl)
  · intro h
    cases h with
    | enums h => exact hiff.mpr h ▸ .enums vs

/-! ## Lists of messages, maps -/

theorem equal_messages_iff {α : Type} {T : Schema M} {as : List α} {f g : α → Value M} :
    Equal T (.messages (as.map f)) (.messages (as.map g)) ↔ ∀ a ∈ as, Equal T (f a) (g a) := by
  constructor
  · intro heq a ha
    cases heq with
    | messages hl heq =>
      refine heq (f a, g a) ?_
      rw [List.zip_map']
      exact List.mem_map.mpr ⟨a, ha, rfl⟩
  · intro heq
    refine .messages (by simp) fun p hpm => ?_
    rw [List.zip_map'] at hpm
    obtain ⟨a, ha, rfl⟩ := List.mem_map.mp hpm
    exact heq a ha

theorem travels_messages (hp : mj.Parses) {e : MetaEnum} {m : M} {vs : List (Value M)}
    (hset : ∀ v ∈ vs, ∃ fs, v = .object m fs)
    (h : ∀ v ∈ vs, Travels S mj qt e (.single (.message m)) v) :
    Travels S mj qt e (.messages m) (.messages vs) := by
  obtain ⟨elements, hfst, htrips, hwritten⟩ := serializeMessages_elements
    (fun x : RawValue × Value M => x.1.text)
    (P := fun v x => Trip S mj qt e (.single (.message m)) v x) (fun v hv _ => by
      obtain ⟨fs, rfl⟩ := hset v hv
      exact ⟨m, fs, rfl⟩) fun v hv _ => h v hv
  have hall : vs.filter (!·.isUnset) = vs := List.filter_eq_self.mpr fun v hv => by
    obtain ⟨fs, rfl⟩ := hset v hv
    rfl
  rw [hall] at hfst
  have hvalid : ∀ q ∈ elements, IsValue q.2.1 ∧ q.2.1.kind = .object := fun q hq =>
    ⟨(htrips q hq).value, (htrips q hq).object m rfl⟩
  have hread : ∀ q ∈ elements, ∃ fs, q.2.2 = .object m fs ∧ MessageReadAs S mj qt m q.2.1.raw fs :=
    fun q hq => by
      obtain ⟨hraw, s, hs⟩ := openBrace_of_object (hvalid q hq).1 (hvalid q hq).2
      exact (htrips q hq).read.message (by simp [hraw, hs])
  have hlevels : ∀ q ∈ elements, ∃ N, ∀ n, N ≤ n →
      level S mj qt n m q.2.1.raw = some (q.2.2.fields S.types) := fun q hq => by
    obtain ⟨fs, hfs, N, hN⟩ := hread q hq
    exact ⟨N, fun n hn => by rw [hN n hn, hfs]; rfl⟩
  obtain ⟨N, hN⟩ := exists_levels hlevels
  let values := elements.map fun q => (q.2.1, q.2.2.fields S.types)
  have hvalues : values.map (fun q => Value.object m q.2) = elements.map fun q => q.2.2 := by
    rw [List.map_map]
    refine List.map_congr_left fun q hq => ?_
    obtain ⟨fs, hfs, -⟩ := hread q hq
    show Value.object m (q.2.2.fields S.types) = q.2.2
    rw [hfs]
    rfl
  have htexts : (values.map fun q => q.1.text) = elements.map fun q => q.2.1.text := by
    simp [values]
  refine ⟨(⟨.array, openBracket :: (commas (elements.map fun q => q.2.1.text) ++ [closeBracket])⟩,
    .messages (elements.map fun q => q.2.2)),
    ⟨?_, by simp, (fun m h => by cases h), ⟨N, fun n hn => ?_⟩, ?_⟩, hwritten⟩
  · have hitems : ∀ i ∈ elements.map fun q => q.2.1, IsValue i := fun i hi => by
      obtain ⟨q, hq, rfl⟩ := List.mem_map.mp hi
      exact (hvalid q hq).1
    simpa [Function.comp_def] using IsValue.bareArray hitems
  · have hobjects : ∀ q ∈ values, IsValue q.1 ∧ q.1.kind = .object := fun q hq => by
      obtain ⟨q', hq', rfl⟩ := List.mem_map.mp hq
      exact hvalid q' hq'
    have hfields : ∀ q ∈ values, level S mj qt n m q.1.raw = some q.2 := fun q hq => by
      obtain ⟨q', hq', rfl⟩ := List.mem_map.mp hq
      exact hN n hn q' hq'
    have hrun := deserializeValue_messages qt (level S mj qt n) e hp hobjects hfields
    rw [htexts, hvalues] at hrun
    exact hrun
  · rw [show vs = elements.map fun q => q.1 from hfst.symm, equal_messages_iff]
    constructor
    · intro heq
      refine .messages fun v hv => ?_
      obtain ⟨q, hq, rfl⟩ := List.mem_map.mp hv
      exact (htrips q hq).equal.mp (heq q hq)
    · intro hrest q hq
      cases hrest with
      | messages hrest => exact (htrips q hq).equal.mpr (hrest _ (List.mem_map_of_mem hq))

/-- A handler that has something to read sets `ok` itself. -/
theorem deserializeSingle_ok {rec : M → Bytes → Option (List (Value M))} {e : MetaEnum}
    {t : SingleType M} {data : Bytes} {type : JsonType} {r : Option (Value M) × Bool}
    (h : deserializeSingle qt rec e t data type false = some r) (ok : Bool) :
    ∃ r', deserializeSingle qt rec e t data type ok = some r' ∧
      orDefault t.default r' = orDefault t.default r := by
  have hhandler : ∀ round : Option (Value M) → Bytes → Option (Option (Value M) × Bytes),
      runHandler round false data = some r →
        ∃ r', runHandler round ok data = some r' ∧ orDefault t.default r' = orDefault t.default r := by
    intro round hr
    by_cases hne : data = []
    · rw [hne, runHandler_nil] at hr
      cases hr
      exact ⟨(none, ok), by rw [hne, runHandler_nil], by cases ok <;> rfl⟩
    · refine ⟨r, ?_, rfl⟩
      rw [runHandler, handlerLoop, if_neg hne] at hr ⊢
      exact hr
  cases t with
  | scalar t => exact ⟨r, h, rfl⟩
  | enum => exact hhandler _ h
  | message m => exact hhandler _ h

/-- A pair is read as its key and its value are. -/
theorem deserializeMapPair_eq {rec : M → Bytes → Option (List (Value M))} {e : MetaEnum}
    {vt : SingleType M} {k : Scalar} (hw : Whole k.type) (hbytes : k.type ≠ .bytes)
    (hk : k.Kept qt.toQtCore) {i : RawValue} {w : Value M}
    (h : ∀ ok, ∃ r, deserializeSingle qt rec e vt i.raw (jsonType i.kind) ok = some r ∧
      orDefault vt.default r = w) :
    deserializeMapPair qt rec e k.type vt (variantText qt k, reportValue i) = some (readKey k, w) := by
  let key := deserializeScalar qt k.type (variantText qt k) .string
  have hkey : orDefault k.type.default key = readKey k := deserializeScalar_key hw hbytes hk
  obtain ⟨r, hr, hread⟩ := h key.2
  show (deserializeSingle qt rec e vt i.raw (jsonType i.kind) key.2 >>= fun value =>
    some (orDefault k.type.default key, orDefault vt.default value)) = _
  rw [hr, hkey]
  show some (_, orDefault vt.default r) = _
  rw [hread]

theorem travels_map (hp : mj.Parses) {e : MetaEnum} {kt : ScalarType} {vt : SingleType M}
    {es : List (Scalar × Value M)} (hw : Whole kt) (hbytes : kt ≠ .bytes)
    (hk : ∀ p ∈ es, p.1.type = kt ∧ p.1.Kept qt.toQtCore)
    (hchars : ∀ p ∈ es, Chars (variantText qt p.1)) (hset : ∀ p ∈ es, p.2.isUnset = false)
    (hsingle : ∀ p ∈ es, ∀ rec, serializeValue S qt rec e p.2 = serializeSingle S qt rec e p.2)
    (hsorted : es.Pairwise fun p p' => p.1.key < p'.1.key)
    (h : ∀ p ∈ es, Travels S mj qt e (.single vt) p.2) :
    Travels S mj qt e (.map kt vt) (.map es) := by
  obtain ⟨members, hfst, htrips, hwritten⟩ := serializeMap_members
    (fun x : RawValue × Value M => x.1.text) (P := fun p x => Trip S mj qt e (.single vt) p.2 x)
    (fun p hpm _ => hsingle p hpm) fun p hpm _ => h p hpm
  have hall : es.filter (fun p => !p.2.isUnset) = es :=
    List.filter_eq_self.mpr fun p hpm => by simp [hset p hpm]
  rw [hall] at hfst
  have hmem : ∀ q ∈ members, q.1 ∈ es := fun q hq => hfst ▸ List.mem_map_of_mem hq
  have hlevels : ∀ q ∈ members, ∃ N, ∀ n, N ≤ n → ∀ ok, ∃ r,
      deserializeSingle qt (level S mj qt n) e vt q.2.1.raw (jsonType q.2.1.kind) ok = some r ∧
        orDefault vt.default r = q.2.2 := fun q hq => by
    obtain ⟨N, hN⟩ := (htrips q hq).read
    refine ⟨N, fun n hn ok => ?_⟩
    obtain ⟨r, hr, hread⟩ := hN n hn
    obtain ⟨r', hr', heq⟩ := deserializeSingle_ok hr ok
    exact ⟨r', hr', heq.trans hread⟩
  obtain ⟨N, hN⟩ := exists_levels hlevels
  let values := members.map fun q => (variantText qt q.1.1, q.2.1, readKey q.1.1, q.2.2)
  let pairs : List (ReadPair M) := members.map fun q => (q.1, q.2.2)
  have hvalues : (values.map fun q => q.2.2) = pairs.map ReadPair.read := by
    simp [values, pairs, Function.comp_def, ReadPair.read]
  have htexts : (values.map fun q => memberText q.1 q.2.1.text) =
      members.map fun q => memberText (variantText qt q.1.1) q.2.1.text := by
    simp [values]
  refine ⟨(⟨.object, openBrace ::
      (commas (members.map fun q => memberText (variantText qt q.1.1) q.2.1.text) ++ [closeBrace])⟩,
    .map (insertAll (pairs.map ReadPair.read) [])),
    ⟨?_, by simp, (fun m h => by cases h), ⟨N, fun n hn => ?_⟩, ?_⟩, hwritten⟩
  · have hms : ∀ p ∈ members.map fun q => (variantText qt q.1.1, q.2.1), Chars p.1 ∧ IsValue p.2 :=
      fun p hpm => by
        obtain ⟨q, hq, rfl⟩ := List.mem_map.mp hpm
        exact ⟨hchars q.1 (hmem q hq), (htrips q hq).value⟩
    simpa [Function.comp_def] using IsValue.bareObject hms
  · have hvalid : ∀ q ∈ values, Chars q.1 ∧ IsValue q.2.1 := fun q hq => by
      obtain ⟨q', hq', rfl⟩ := List.mem_map.mp hq
      exact ⟨hchars q'.1 (hmem q' hq'), (htrips q' hq').value⟩
    have hread : ∀ q ∈ values, deserializeMapPair qt (level S mj qt n) e kt vt
        (q.1, reportValue q.2.1) = some q.2.2 := fun q hq => by
      obtain ⟨q', hq', rfl⟩ := List.mem_map.mp hq
      obtain ⟨rfl, hkept⟩ := hk q'.1 (hmem q' hq')
      exact deserializeMapPair_eq hw hbytes hkept (hN n hn q' hq')
    have hrun := deserializeValue_map qt (level S mj qt n) e hp hvalid hread
    rw [htexts, hvalues] at hrun
    exact hrun
  · have hpairs : pairs.map Prod.fst = es := by
      rw [← hfst, List.map_map]
      rfl
    rw [← hpairs, equal_map_iff (hpairs ▸ hsorted)]
    constructor
    · intro heq
      refine .map (fun p hpm => ?_) fun p hpm => ?_
      · obtain ⟨q, hq, rfl⟩ := List.mem_map.mp hpm
        exact (heq q hq).1
      · obtain ⟨q, hq, rfl⟩ := List.mem_map.mp hpm
        obtain ⟨q', hq', rfl⟩ := List.mem_map.mp hq
        exact (htrips q' hq').equal.mp (heq _ hq).2
    · intro hrest p hpm
      cases hrest with
      | map hkeys hrest =>
        refine ⟨hkeys _ (List.mem_map_of_mem hpm), ?_⟩
        have hvalue := hrest _ (List.mem_map_of_mem hpm)
        obtain ⟨q, hq, rfl⟩ := List.mem_map.mp hpm
        exact (htrips q hq).equal.mpr hvalue

end QtProtobuf.Json
