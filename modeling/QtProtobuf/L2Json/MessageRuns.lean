import QtProtobuf.L2Codec.Setters
import QtProtobuf.L2Json.Restored

/-!
# What is read for a message

The members of an object are read one by one, each into the field of its name,
over the default value the field has in a new object. With enough levels of the
recursion the result is always the same.

* `equal_write_default`: what is set over a default value.
* `foldlM_succeeds`: the loop over the members ends.
* `exists_messageReadAs`: the message that is read, field by field.
-/
namespace QtProtobuf.Json

open Lib.Json Codec

variable {M : Type}

/-! ## What is read -/

section
variable (S : JsonSchema M) (mj : MicroJson) (qt : QtJson)

/-- A default object is filled, with `n` levels. -/
def level (n : Nat) (m : M) (it : Bytes) : Option (List (Value M)) :=
  deserializeMessage S mj qt n m (newObject S.types m) it

/-- With enough levels `fs` is read for a message. -/
def MessageReadAs (m : M) (text : Bytes) (fs : List (Value M)) : Prop :=
  ∃ N, ∀ n, N ≤ n → level S mj qt n m text = some fs

/-- With enough levels `w` is read for a value of a property of the type `t`. -/
def ReadAs (e : MetaEnum) (t : FieldType M) (i : RawValue) (w : Value M) : Prop :=
  ∃ N, ∀ n, N ≤ n → ∃ r,
    deserializeValue mj qt (level S mj qt n) e t i.raw (jsonType i.kind) = some r ∧
      orDefault t.default r = w

end

section
variable {S : JsonSchema M} {mj : MicroJson} {qt : QtJson}

theorem MessageReadAs.unique {m : M} {text : Bytes} {fs gs : List (Value M)}
    (h : MessageReadAs S mj qt m text fs) (h' : MessageReadAs S mj qt m text gs) : fs = gs := by
  obtain ⟨N, hN⟩ := h
  obtain ⟨N', hN'⟩ := h'
  have h₁ := hN (max N N') (Nat.le_max_left ..)
  have h₂ := hN' (max N N') (Nat.le_max_right ..)
  exact Option.some.inj (h₁.symm.trans h₂)

/-- One number of levels for all of a list. -/
theorem exists_levels {α : Type} {P : Nat → α → Prop} {as : List α}
    (h : ∀ a ∈ as, ∃ N, ∀ n, N ≤ n → P n a) : ∃ N, ∀ n, N ≤ n → ∀ a ∈ as, P n a := by
  induction as with
  | nil => exact ⟨0, fun _ _ a ha => absurd ha List.not_mem_nil⟩
  | cons a as ih =>
    obtain ⟨N, hN⟩ := h a List.mem_cons_self
    obtain ⟨N', hN'⟩ := ih fun b hb => h b (List.mem_cons_of_mem a hb)
    refine ⟨max N N', fun n hn b hb => ?_⟩
    rcases List.mem_cons.mp hb with rfl | hb
    · exact hN n (by omega)
    · exact hN' n (by omega) b hb

/-! ## Messages -/

/-- The object of a message is read as the message. -/
theorem deserializeSingle_message (rec : M → Bytes → Option (List (Value M))) (e : MetaEnum) (m : M)
    {data : Bytes} (hne : data ≠ []) (type : JsonType) (ok : Bool) :
    deserializeSingle qt rec e (.message m) data type ok =
      (rec m data).map fun fields => (some (.object m fields), true) := by
  show runHandler (objectRound rec m) ok data = _
  cases hrec : rec m data with
  | none => exact runHandler_fails hne (by simp [objectRound, hrec]) ok
  | some fields => exact runHandler_once hne (by simp [objectRound, hrec]) ok

theorem ReadAs.message {e : MetaEnum} {m : M} {i : RawValue} {w : Value M} (hne : i.raw ≠ [])
    (h : ReadAs S mj qt e (.single (.message m)) i w) :
    ∃ fs, w = .object m fs ∧ MessageReadAs S mj qt m i.raw fs := by
  obtain ⟨N, hN⟩ := h
  have hread : ∀ n, N ≤ n → ∃ fs, level S mj qt n m i.raw = some fs ∧ .object m fs = w := by
    intro n hn
    obtain ⟨r, hr, hw⟩ := hN n hn
    have hr : deserializeSingle qt (level S mj qt n) e (.message m) i.raw (jsonType i.kind) false =
        some r := hr
    rw [deserializeSingle_message _ e m hne, Option.map_eq_some_iff] at hr
    obtain ⟨fs, hfs, rfl⟩ := hr
    exact ⟨fs, hfs, hw⟩
  obtain ⟨fs, -, rfl⟩ := hread N (Nat.le_refl N)
  refine ⟨fs, rfl, N, fun n hn => ?_⟩
  obtain ⟨fs', hfs', he⟩ := hread n hn
  cases he
  exact hfs'

theorem MessageReadAs.readAs {m : M} {i : RawValue} {fs : List (Value M)} (hne : i.raw ≠ [])
    (h : MessageReadAs S mj qt m i.raw fs) (e : MetaEnum) :
    ReadAs S mj qt e (.single (.message m)) i (.object m fs) := by
  obtain ⟨N, hN⟩ := h
  refine ⟨N, fun n hn => ⟨(some (.object m fs), true), ?_, rfl⟩⟩
  show deserializeSingle qt _ e (.message m) i.raw (jsonType i.kind) false = _
  rw [deserializeSingle_message _ e m hne, hN n hn]
  rfl

/-- The property of a JSON name. -/
theorem findProperty_jsonName (hr : Regular S qt.toQtCore) {m : M} {i : Nat}
    (hi : i < (S.types m).properties.length) :
    findProperty S qt m (qt.toUtf8 (S.jsonName m i)) = some i := by
  have hname : qt.fromUtf8 (qt.toUtf8 (S.jsonName m i)) = S.jsonName m i := hr.names m i hi
  have hmem : i ∈ (S.types m).propertyOrdering.map Prod.snd :=
    (S.types m).indices.mem_iff.mpr (List.mem_range.mpr hi)
  obtain ⟨p, hp, rfl⟩ := List.mem_map.mp hmem
  have hsome : ((S.types m).propertyOrdering.find?
      fun q => S.jsonName m q.2 == S.jsonName m p.2).isSome := by
    rw [List.find?_isSome]
    exact ⟨p, hp, by simp⟩
  obtain ⟨q, hq⟩ := Option.isSome_iff_exists.mp hsome
  have hqmem := (S.types m).index_lt (List.mem_of_find?_eq_some hq)
  have heq : S.jsonName m q.2 = S.jsonName m p.2 := by simpa using List.find?_some hq
  have hindex : q.2 = p.2 :=
    List.inj_on_of_nodup_map (S.distinct m) (List.mem_range.mpr hqmem) (List.mem_range.mpr hi) heq
  rw [findProperty, hname, hq, Option.map_some, hindex]

/-- The loop over the members ends if every member names a field of its own, and
has a value that can be read. -/
theorem foldlM_succeeds {rec : M → Bytes → Option (List (Value M))} {m : M}
    {properties : List (Bytes × JsonProperty)} {object : List (Value M)}
    (hnodup : (properties.map fun p => findProperty S qt m p.1).Nodup)
    (h : ∀ p ∈ properties, ∃ i t old value, findProperty S qt m p.1 = some i ∧
      (S.types m).properties[i]? = some t ∧ object[i]? = some old ∧
      deserializeMember mj qt rec (S.metaEnum m i) t old p.2 = some value) :
    ∃ object', properties.foldlM (deserializeProperty S mj qt rec m) object = some object' ∧
      object'.length = object.length := by
  induction properties generalizing object with
  | nil => exact ⟨object, rfl, rfl⟩
  | cons p properties ih =>
    obtain ⟨i, t, old, value, hi, ht, ho, hvalue⟩ := h p List.mem_cons_self
    rw [List.map_cons, List.nodup_cons] at hnodup
    have hstep : deserializeProperty S mj qt rec m object p = some (object.set i value) := by
      simp [deserializeProperty, hi, ht, ho, hvalue]
    have hrest : ∀ q ∈ properties, ∃ j t old value', findProperty S qt m q.1 = some j ∧
        (S.types m).properties[j]? = some t ∧ (object.set i value)[j]? = some old ∧
        deserializeMember mj qt rec (S.metaEnum m j) t old q.2 = some value' := fun q hq => by
      obtain ⟨j, t', old', value', hj, ht', ho', hvalue'⟩ := h q (List.mem_cons_of_mem p hq)
      refine ⟨j, t', old', value', hj, ht', ?_, hvalue'⟩
      have hne : i ≠ j := by
        rintro rfl
        exact hnodup.1 (hi ▸ hj ▸ List.mem_map_of_mem hq)
      rw [List.getElem?_set_ne hne, ho']
    obtain ⟨object', hobject', hl⟩ := ih hnodup.2 hrest
    refine ⟨object', ?_, by simpa using hl⟩
    rw [List.foldlM_cons, hstep]
    exact hobject'

/-! ## What is written into a field -/

/-- A default value that the setter keeps is equal to what was to be set. -/
theorem equal_write_default {T : Schema M} {t : FieldType M} (hw : WholeField t) (v w : Value M) :
    Equal T v (t.default.write w) ↔ Equal T v w := by
  unfold Value.write
  split
  · next h =>
    cases t with
    | single t =>
      cases t with
      | scalar t =>
        cases w with
        | scalar w =>
          have htext : t.default.text = w.text := by
            cases t with
            | num t =>
              cases w with
              | num t' w =>
                simp only [FieldType.default, SingleType.default, ScalarType.default, Value.same,
                  Scalar.same, Bool.and_eq_true, beq_iff_eq] at h
                obtain ⟨rfl, h⟩ := h
                have hint : t.infinity = none := hw
                simp only [NumType.same, hint, beq_iff_eq] at h
                rw [← BitVec.eq_of_toNat_eq h]
                rfl
              | _ => cases h
            | bool | string | bytes =>
              cases w with
              | num => cases h
              | _ => exact eq_of_beq h
          constructor
          · rintro ⟨hv⟩
            exact .scalar (hv.trans htext)
          · rintro ⟨hv⟩
            exact .scalar (hv.trans htext.symm)
        | _ => cases h
      | enum =>
        cases w with
        | enum w =>
          have hw : (0 : BitVec 32) = w := eq_of_beq h
          rw [← hw]
          rfl
        | _ => cases h
      | message m => cases h
    | nums t =>
      cases w with
      | nums t' ws =>
        simp only [FieldType.default, Value.same, Bool.and_eq_true, beq_iff_eq] at h
        obtain ⟨rfl, h⟩ := h
        have hws : ws = [] := by simpa using (sameList_length h).symm
        rw [hws]
        rfl
      | _ => cases h
    | strings =>
      cases w with
      | strings ws =>
        rw [FieldType.default, Value.same] at h
        rw [List.length_eq_zero_iff.mp (sameList_length h).symm]
        rfl
      | _ => cases h
    | byteArrays =>
      cases w with
      | byteArrays ws =>
        rw [FieldType.default, Value.same] at h
        rw [List.length_eq_zero_iff.mp (sameList_length h).symm]
        rfl
      | _ => cases h
    | enums =>
      cases w with
      | enums ws =>
        have hws : [] = ws := eq_of_beq h
        rw [← hws]
        rfl
      | _ => cases h
    | messages m => cases w <;> cases h
    | map kt vt =>
      cases w with
      | map es =>
        rw [FieldType.default, Value.same_map] at h
        rw [List.length_eq_zero_iff.mp (sameList_length h).symm]
        rfl
      | _ => cases h
  · rfl

theorem write_self (v : Value M) : v.write v = v := by
  unfold Value.write
  split <;> rfl

/-- Over a default value what was read is set, whatever it was converted from. -/
theorem deserializeMember_default {rec : M → Bytes → Option (List (Value M))} {e : MetaEnum}
    {t : FieldType M} {i : RawValue} (hi : IsValue i) (hnull : i.kind ≠ .null)
    {r : Option (Value M) × Bool}
    (h : deserializeValue mj qt rec e t i.raw (jsonType i.kind) = some r) :
    deserializeMember mj qt rec e t t.default (reportValue i) =
      some (t.default.write (orDefault t.default r)) := by
  have hne : ¬ ((reportValue i).value = nullText ∧ (reportValue i).type = .object) := by
    rintro ⟨hraw, hkind⟩
    cases hi with
    | null => exact hnull rfl
    | object => cases hraw
    | bool b => cases hkind
    | number | string | array => cases hkind
  have hread : deserializeValue mj qt rec e t (reportValue i).value (reportValue i).type = some r := h
  rw [deserializeMember, if_neg hne, hread]
  obtain ⟨value, ok⟩ := r
  cases ok with
  | false => simp [orDefault, write_self]
  | true =>
    cases value with
    | none =>
      simp [orDefault, writeVariant, write_self]
    | some value => rfl

/-! ## One message -/

/-- The member of a field: the value is `q.2.1`, and `q.2.2` is what is read for it. -/
def fieldMember (S : JsonSchema M) (qt : QtJson) (m : M) (q : Nat × RawValue × Value M) : Member :=
  Member.bare (qt.toUtf8 (S.jsonName m q.1)) q.2.1

section
variable {m : M} {members : List (Nat × RawValue × Value M)}

/-- The members in the order in which they are written. -/
theorem fieldMembers_isObject
    (hn : ∀ q ∈ members, PlainText (qt.toUtf8 (S.jsonName m q.1)) ∧ IsValue q.2.1) :
    IsObject (openBrace ::
      (commas (members.map fun q => memberText (qt.toUtf8 (S.jsonName m q.1)) q.2.1.text) ++
        [closeBrace])) (members.map (fieldMember S qt m)) := by
  have hvalid : ∀ p ∈ members.map fun q => (qt.toUtf8 (S.jsonName m q.1), q.2.1),
      Chars p.1 ∧ IsValue p.2 := fun p hpm => by
    obtain ⟨q, hq, rfl⟩ := List.mem_map.mp hpm
    exact ⟨(hn q hq).1.1, (hn q hq).2⟩
  have hmembers : members.map (fieldMember S qt m) =
      (members.map fun q => (qt.toUtf8 (S.jsonName m q.1), q.2.1)).map fun p => Member.bare p.1 p.2 := by
    rw [List.map_map]
    rfl
  rw [hmembers]
  simpa [Function.comp_def] using IsObject.bare hvalid

/-- Every member names the property of its own. -/
theorem fieldMembers_find (hr : Regular S qt.toQtCore)
    (hindices : (members.map Prod.fst).Perm (List.range (S.types m).properties.length)) :
    (∀ q ∈ members, findProperty S qt m (fieldMember S qt m q).name = some q.1) ∧
      ((members.map (fieldMember S qt m)).map fun p => findProperty S qt m p.name).Nodup := by
  have hfind : ∀ q ∈ members, findProperty S qt m (fieldMember S qt m q).name = some q.1 :=
    fun q hq => findProperty_jsonName hr
      (List.mem_range.mp (hindices.mem_iff.mp (List.mem_map_of_mem hq)))
  have hsome : ((members.map (fieldMember S qt m)).map fun p => findProperty S qt m p.name) =
      (members.map Prod.fst).map some := by
    rw [List.map_map, List.map_map]
    exact List.map_congr_left hfind
  refine ⟨hfind, ?_⟩
  rw [hsome]
  exact (hindices.nodup_iff.mpr List.nodup_range).map (Option.some_injective _)

/-- One level: where the value of every member can be read, the object is, and its
fields have what is written for the members. -/
theorem deserializeMessage_fields (hp : mj.Parses) (hr : Regular S qt.toQtCore)
    (hindices : (members.map Prod.fst).Perm (List.range (S.types m).properties.length))
    {text : Bytes} (hobject : IsObject text (members.map (fieldMember S qt m))) {n : Nat}
    (h : ∀ q ∈ members, ∀ t, (S.types m).properties[q.1]? = some t →
      deserializeMember mj qt (level S mj qt n) (S.metaEnum m q.1) t t.default (reportValue q.2.1) =
        some (t.default.write q.2.2)) :
    ∃ fs, level S mj qt (n + 1) m text = some fs ∧ fs.length = (S.types m).properties.length ∧
      ∀ q ∈ members, ∀ t, (S.types m).properties[q.1]? = some t →
        fs[q.1]? = some (t.default.write q.2.2) := by
  obtain ⟨hfind, hnodup⟩ := fieldMembers_find hr hindices
  have hnames : ((members.map (fieldMember S qt m)).map Member.name).Nodup := by
    refine List.Nodup.of_map (findProperty S qt m) ?_
    rwa [List.map_map]
  have hdefault : ∀ (i : Nat) t, (S.types m).properties[i]? = some t →
      (newObject S.types m)[i]? = some t.default := fun i t ht => by
    rw [newObject, List.getElem?_map, ht, Option.map_some]
  have hperm := hp.object text _ hobject hnames
  have hdistinct : ((mj.parseJsonObject text).map fun p => findProperty S qt m p.1).Nodup := by
    rw [(hperm.map _).nodup_iff, List.map_map]
    exact hnodup
  obtain ⟨fs, hfs, hl⟩ := foldlM_succeeds hdistinct fun p hpm => by
    obtain ⟨member, hmem, rfl⟩ := List.mem_map.mp (hperm.mem_iff.mp hpm)
    obtain ⟨q, hq, rfl⟩ := List.mem_map.mp hmem
    have hlt := List.mem_range.mp (hindices.mem_iff.mp (List.mem_map_of_mem hq))
    have ht := List.getElem?_eq_getElem hlt
    exact ⟨q.1, _, _, _, hfind q hq, ht, hdefault q.1 _ ht, h q hq _ ht⟩
  have hmessage : deserializeMessage S mj qt (n + 1) m (newObject S.types m) text = some fs := hfs
  refine ⟨fs, hmessage, by rw [hl, newObject, List.length_map], fun q hq t ht => ?_⟩
  have hother : ∀ member ∈ members.map (fieldMember S qt m),
      findProperty S qt m member.name = some q.1 → member = fieldMember S qt m q := by
    intro member hmem hi
    obtain ⟨q', hq', rfl⟩ := List.mem_map.mp hmem
    rw [hfind q' hq'] at hi
    have heq : q' = q := List.inj_on_of_nodup_map (hindices.nodup_iff.mpr List.nodup_range) hq' hq
      (Option.some.inj hi)
    rw [heq]
  obtain ⟨value, hvalue, hlast⟩ := deserializeMessage_member hp hobject hnames hmessage
    (List.mem_map_of_mem hq) (hfind q hq) hother ht (hdefault q.1 t ht)
  rw [hlast, ← hvalue]
  exact h q hq t ht

/-- All levels but the first few read the same message. -/
theorem exists_messageReadAs (hp : mj.Parses) (hr : Regular S qt.toQtCore)
    (hfst : members.map Prod.fst = (S.types m).propertyOrdering.map Prod.snd)
    (hn : ∀ i, i < (S.types m).properties.length → PlainText (qt.toUtf8 (S.jsonName m i)))
    (hread : ∀ q ∈ members, ∀ t, (S.types m).properties[q.1]? = some t →
      IsValue q.2.1 ∧ q.2.1.kind ≠ .null ∧ ReadAs S mj qt (S.metaEnum m q.1) t q.2.1 q.2.2) :
    ∃ fs, MessageReadAs S mj qt m (openBrace ::
        (commas (members.map fun q => memberText (qt.toUtf8 (S.jsonName m q.1)) q.2.1.text) ++
          [closeBrace])) fs ∧
      fs.length = (S.types m).properties.length ∧
      ∀ q ∈ members, ∀ t, (S.types m).properties[q.1]? = some t →
        fs[q.1]? = some (t.default.write q.2.2) := by
  have hindices : (members.map Prod.fst).Perm (List.range (S.types m).properties.length) :=
    hfst ▸ (S.types m).indices
  have hlt : ∀ q ∈ members, q.1 < (S.types m).properties.length := fun q hq =>
    List.mem_range.mp (hindices.mem_iff.mp (List.mem_map_of_mem hq))
  have hvalid : ∀ q ∈ members, PlainText (qt.toUtf8 (S.jsonName m q.1)) ∧ IsValue q.2.1 := fun q hq =>
    ⟨hn q.1 (hlt q hq), (hread q hq _ (List.getElem?_eq_getElem (hlt q hq))).1⟩
  have hobject := fieldMembers_isObject hvalid
  have hlevels : ∀ q ∈ members, ∃ N, ∀ n, N ≤ n → ∀ t, (S.types m).properties[q.1]? = some t →
      deserializeMember mj qt (level S mj qt n) (S.metaEnum m q.1) t t.default (reportValue q.2.1) =
        some (t.default.write q.2.2) := fun q hq => by
    obtain ⟨hvalue, hnull, N, hN⟩ := hread q hq _ (List.getElem?_eq_getElem (hlt q hq))
    refine ⟨N, fun n hle t ht => ?_⟩
    obtain ⟨r, hr, hw⟩ := hN n hle
    rw [List.getElem?_eq_getElem (hlt q hq)] at ht
    cases ht
    rw [deserializeMember_default hvalue hnull hr, hw]
  obtain ⟨N, hN⟩ := exists_levels hlevels
  have hrun := fun n hle => deserializeMessage_fields hp hr hindices hobject (hN n hle)
  obtain ⟨fs, -, hl, hfs⟩ := hrun N (Nat.le_refl N)
  refine ⟨fs, ⟨N + 1, fun n hle => ?_⟩, hl, hfs⟩
  obtain ⟨n, rfl⟩ : ∃ k, n = k + 1 := ⟨n - 1, by omega⟩
  obtain ⟨gs, hgs, hgl, hg⟩ := hrun n (by omega)
  have heq : gs = fs := by
    refine List.ext_getElem? fun i => ?_
    by_cases hi : i < (S.types m).properties.length
    · obtain ⟨q, hq, rfl⟩ := List.mem_map.mp (hindices.mem_iff.mpr (List.mem_range.mpr hi))
      have ht := List.getElem?_eq_getElem hi
      rw [hg q hq _ ht, hfs q hq _ ht]
    · rw [List.getElem?_eq_none (by omega), List.getElem?_eq_none (by omega)]
  rw [hgs, heq]

end

end

end QtProtobuf.Json
