import QtProtobuf.L2Codec.Pointers

/-!
# Null pointers in lists and maps

`deserializeMap` begins with a null pointer for a value that is a message, and
`deserializeMapPair` replaces it when it comes to a part other than the key
(`protobuf/qabstractprotobufserializer_p.h:225-242`,
`protobuf/qprotobufserializer.cpp:327-353`). An entry with only a key, or an
empty one, keeps it. A comparison of two maps looks the keys of the one up in the
other (`protobuf/qtprotobuftypes.h:303-315`), and a key that is missing gives a
null pointer too.

* `LeavesNull`: an entry without a value is among the records, and no later
  record replaces what it wrote.
* `LeavesOpen`: the records leave a map of messages with an entry, but not with
  every key.
* `hasNull_iff`, `openMap_iff`: what is decoded has a null pointer, or such a map,
  exactly then.
* `decodes_intact_iff`: the result is serialized whole and compared safely exactly
  if the records leave neither.
-/
namespace QtProtobuf.Codec

open Lib Wire

variable {M : Type}

/-! ## Null pointers -/

/-- A list or a map in the value, at any depth, has a null pointer. -/
inductive HasNull : Value M → Prop
  | element_null {vs : List (Value M)} {m : M} (h : .unset m ∈ vs) : HasNull (.messages vs)
  | entry_null {es : List (Scalar × Value M)} {k : Scalar} {m : M} (h : (k, .unset m) ∈ es) :
    HasNull (.map es)
  | field {m : M} {fs : List (Value M)} {v : Value M} (hv : v ∈ fs) (h : HasNull v) :
    HasNull (.object m fs)
  | element {vs : List (Value M)} {v : Value M} (hv : v ∈ vs) (h : HasNull v) : HasNull (.messages vs)
  | entry {es : List (Scalar × Value M)} {e : Scalar × Value M} (he : e ∈ es) (h : HasNull e.2) :
    HasNull (.map es)

/-- A pointer of a list or a map is null, or there is a null pointer behind it. -/
def NullPointer (v : Value M) : Prop := v.isUnset = true ∨ HasNull v

theorem isUnset_iff {v : Value M} : v.isUnset = true ↔ ∃ m, v = .unset m := by
  cases v <;> simp [Value.isUnset]

theorem hasNull_object {m : M} {fs : List (Value M)} : HasNull (.object m fs) ↔ ∃ v ∈ fs, HasNull v := by
  constructor
  · rintro (_ | _ | ⟨hv, h⟩)
    exact ⟨_, hv, h⟩
  · rintro ⟨v, hv, h⟩
    exact .field hv h

theorem hasNull_messages {vs : List (Value M)} : HasNull (.messages vs) ↔ ∃ v ∈ vs, NullPointer v := by
  constructor
  · intro h
    cases h with
    | element_null h => exact ⟨_, h, .inl rfl⟩
    | element hv h => exact ⟨_, hv, .inr h⟩
  · rintro ⟨v, hv, hu | h⟩
    · obtain ⟨m, rfl⟩ := isUnset_iff.mp hu
      exact .element_null hv
    · exact .element hv h

theorem hasNull_map {es : List (Scalar × Value M)} :
    HasNull (.map es) ↔ ∃ e ∈ es, NullPointer e.2 := by
  constructor
  · intro h
    cases h with
    | entry_null h => exact ⟨_, h, .inl rfl⟩
    | entry he h => exact ⟨_, he, .inr h⟩
  · rintro ⟨⟨k, v⟩, he, hu | h⟩
    · obtain ⟨m, rfl⟩ := isUnset_iff.mp hu
      exact .entry_null he
    · exact .entry he h

theorem not_nullPointer_scalar (v : Scalar) : ¬ NullPointer (.scalar v : Value M) := by
  rintro (h | h)
  · cases h
  · cases h

theorem not_nullPointer_enum (v : BitVec 32) : ¬ NullPointer (.enum v : Value M) := by
  rintro (h | h)
  · cases h
  · cases h

theorem nullPointer_object {m : M} {fs : List (Value M)} :
    NullPointer (.object m fs) ↔ HasNull (.object m fs) := by
  simp [NullPointer, Value.isUnset]

theorem not_hasNull_default (t : FieldType M) : ¬ HasNull t.default := by
  cases t with
  | single t => cases t <;> (intro h; cases h)
  | messages m => simp [FieldType.default, hasNull_messages]
  | map kt vt => simp [FieldType.default, hasNull_map]
  | _ => intro h; cases h

theorem nullPointer_property : PointerProperty (NullPointer (M := M)) True where
  unset _ := iff_true_intro (.inl rfl)
  scalar := not_nullPointer_scalar
  enum := not_nullPointer_enum

theorem hasNull_iff_pointerAt {v : Value M} : HasNull v ↔ ∃ key, PointerAt NullPointer key v := by
  cases v with
  | map es =>
    rw [hasNull_map]
    constructor
    · rintro ⟨e, he, h⟩
      exact ⟨e.1.key, e, he, rfl, h⟩
    · rintro ⟨key, e, he, -, h⟩
      exact ⟨e, he, h⟩
  | messages vs =>
    rw [hasNull_messages]
    exact ⟨fun h => ⟨[], h⟩, fun ⟨_, h⟩ => h⟩
  | object m fs =>
    rw [← nullPointer_object]
    exact ⟨fun h => ⟨[], h⟩, fun ⟨_, h⟩ => h⟩
  | _ => exact ⟨fun h => (by cases h), fun ⟨_, h⟩ => h.elim⟩

/-- A record puts a null pointer into a property, at a key, and no later record
replaces it there. -/
def LeavesNull (S : Schema M) (qt : QtCore) (env : Bytes → Int → UInt8) : Nat → M → Bytes → Prop :=
  Leaves S qt env True fun _ _ _ => False

/-- **Null pointers.** What is decoded has one exactly if a record put one that
no later record replaced. -/
theorem hasNull_iff {S : Schema M} {qt : QtCore} {env : Bytes → Int → UInt8} {n : Nat} {m : M}
    {data : Bytes} {fs : List (Value M)}
    (h : (deserializeMessage S qt env n m (newObject S m) data).2 = (fs, none)) :
    HasNull (.object m fs) ↔ LeavesNull S qt env n m data := by
  rw [← nullPointer_object]
  have hobject : ∀ (m : M) (fs : List (Value M)),
      NullPointer (.object m fs) ↔ False ∨ ∃ i key, FieldPointer NullPointer key i fs := by
    intro m fs
    rw [nullPointer_object, hasNull_object, false_or]
    constructor
    · rintro ⟨v, hv, hn⟩
      obtain ⟨key, hn⟩ := hasNull_iff_pointerAt.mp hn
      obtain ⟨i, hi⟩ := List.mem_iff_getElem?.mp hv
      exact ⟨i, key, v, hi, hn⟩
    · rintro ⟨i, key, v, hi, hn⟩
      exact ⟨v, List.mem_of_getElem? hi, hasNull_iff_pointerAt.mpr ⟨key, hn⟩⟩
  exact leaves_iff nullPointer_property hobject (fun _ _ _ _ _ => Iff.rfl) h

/-! ## Maps that lack a key -/

/-- A map of messages that has an entry, and lacks a key of its type. -/
def OpenMap : Value M → Prop
  | .map es => ∃ e ∈ es, e.2.message?.isSome = true ∧
    ∃ k : Scalar, k.type = e.1.type ∧ ∀ e' ∈ es, e'.1.key ≠ k.key
  | _ => False

/-- The records fill a map of messages, but a key of its type is not among theirs. -/
def OpensMap (S : Schema M) (qt : QtCore) (env : Bytes → Int → UInt8) (n : Nat) (m : M) (data : Bytes) :
    Prop :=
  let b : Buffer := ⟨data, env data⟩
  let entry (i : Nat) (key : List Int) := RecordOf S b m i (Replaces S qt env n b key)
  ∃ i kt m', (S m).properties[i]? = some (.map kt (.message m')) ∧
    (∃ key, ∃ it ∈ records S qt env n m data, entry i key it) ∧
    ∃ k : Scalar, k.type = kt ∧ ∀ it ∈ records S qt env n m data, ¬ entry i k.key it

/-- The records fill a map of messages, but not with every key, in the message
itself or in one that no later record replaces. -/
def LeavesOpen (S : Schema M) (qt : QtCore) (env : Bytes → Int → UInt8) : Nat → M → Bytes → Prop :=
  Leaves S qt env False (OpensMap S qt env)

theorem occurs_openMap_property : PointerProperty (Occurs (OpenMap (M := M))) False where
  unset m := by
    refine iff_of_false ?_ not_false
    rintro (h | _ | _ | _)
    exact h
  scalar v := by
    rintro (h | _ | _ | _)
    exact h
  enum v := by
    rintro (h | _ | _ | _)
    exact h

theorem occurs_openMap_object {m : M} {fs : List (Value M)} : Occurs OpenMap (.object m fs) ↔
    (∃ v ∈ fs, OpenMap v) ∨ ∃ i key, FieldPointer (Occurs OpenMap) key i fs := by
  constructor
  · intro h
    cases h with
    | here h => exact h.elim
    | @field _ _ v hv h =>
      obtain ⟨i, hi⟩ := List.mem_iff_getElem?.mp hv
      cases h with
      | here h => exact .inl ⟨v, hv, h⟩
      | field hw h => exact .inr ⟨i, [], _, hi, .field hw h⟩
      | element hw h => exact .inr ⟨i, [], _, hi, _, hw, h⟩
      | @entry _ e he h => exact .inr ⟨i, e.1.key, _, hi, e, he, rfl, h⟩
  · rintro (⟨v, hv, h⟩ | ⟨i, key, v, hi, h⟩)
    · exact .field hv (.here h)
    · refine .field (List.mem_of_getElem? hi) ?_
      cases v with
      | object m fs => exact h
      | messages vs =>
        obtain ⟨w, hw, h⟩ := h
        exact .element hw h
      | map es =>
        obtain ⟨e, he, -, h⟩ := h
        exact .entry he h
      | _ => exact h.elim

/-- A pointer, null or not. -/
def IsMessage (v : Value M) : Prop := v.message?.isSome = true

theorem isMessage_property : PointerProperty (IsMessage (M := M)) True where
  unset _ := iff_true_intro rfl
  scalar _ := Bool.false_ne_true
  enum _ := Bool.false_ne_true

theorem HasType.isMessage {S : Schema M} {m : M} {v : Value M} (h : HasType S (.single (.message m)) v) :
    IsMessage v := by
  cases h <;> rfl

theorem HasType.of_isMessage {S : Schema M} {t : SingleType M} {v : Value M} (h : HasType S (.single t) v)
    (hm : IsMessage v) : ∃ m, t = .message m := by
  cases h with
  | scalar => exact absurd hm Bool.false_ne_true
  | enum => exact absurd hm Bool.false_ne_true
  | unset m => exact ⟨m, rfl⟩
  | object m _ _ => exact ⟨m, rfl⟩

section
variable {S : Schema M} {qt : QtCore} {env : Bytes → Int → UInt8} {n i : Nat} {m m' : M} {kt : ScalarType}
  {key : List Int}

/-- A record of a map of messages puts an entry at its key. -/
theorem call_entry {b : Buffer} {it it' : Iter} {obj obj' : List (Value M)}
    (hp : (S m).properties[i]? = some (.map kt (.message m'))) (hobj : Sound S m obj)
    (h : Traced.Runs (call S qt env n b m obj) it obj' it') :
    FieldPointer IsMessage key i obj' ↔ RecordOf S b m i (Replaces S qt env n b key) it ∨
      FieldPointer IsMessage key i obj := by
  have hnested : ∀ m array fs, (nestedMessage S qt env n m array).2 = .ok fs →
      (IsMessage (.object m fs) ↔ (fun (_ : M) (_ : Bytes) => True) m array) :=
    fun _ _ _ _ => iff_true_intro rfl
  rw [call_pointer isMessage_property hnested hobj h]
  have hputs : RecordOf S b m i (Puts S qt env n b True (fun _ _ => True) key) it ↔
      RecordOf S b m i (Replaces S qt env n b key) it := by
    obtain ⟨f, w, it₁, hheader, ⟨hf, -, rfl⟩ | ⟨j, t, new, hf, hvalue, rfl⟩⟩ := call_inv h
    · rw [recordOf_iff hheader, recordOf_iff hheader]
      simp [hf]
    · rw [recordOf_iff hheader, recordOf_iff hheader]
      refine exists_congr fun t' => and_congr_right fun hf' => ?_
      cases hf.symm.trans hf'
      cases hp.symm.trans (MetaObject.find_mem hf).2
      obtain ⟨pair, s, hpair, -⟩ := hvalue.bind_inv
      have hv := (mapPair_hasType nestedMessage_hasType hpair).2
      exact and_iff_left ((mapPair_pointer isMessage_property hnested hpair).mp hv.isMessage)
  rw [hputs]
  by_cases hr : RecordOf S b m i (Replaces S qt env n b key) it
  · simp [hr]
  · simp [hr]

/-- The keys of a map of messages are those of its records. -/
theorem mapKeys_iff {data : Bytes} {fs : List (Value M)}
    (hp : (S m).properties[i]? = some (.map kt (.message m')))
    (h : (deserializeMessage S qt env (n + 1) m (newObject S m) data).2 = (fs, none)) :
    FieldPointer IsMessage key i fs ↔ ∃ it ∈ records S qt env n m data,
      RecordOf S ⟨data, env data⟩ m i (Replaces S qt env n ⟨data, env data⟩ key) it := by
  rw [deserializeMessage_succ] at h
  obtain ⟨it', hr⟩ := messageLoop_runs h
  have hsorted : ∀ m array fs, (nestedMessage S qt env n m array).2 = .ok fs → Sorted (.object m fs) :=
    fun m array fs hfs => (deserializeMessage_sound (nestedMessage_ok hfs)).sorted
  have hdefault : ¬ FieldPointer IsMessage key i (newObject S m) := by
    rintro ⟨v, hv, hp⟩
    obtain ⟨t, -, rfl⟩ := List.mem_map.mp (List.mem_of_getElem? hv)
    exact not_pointerAt_default t hp
  have hcall : ∀ a s c s', Sound S m a → Traced.Runs (call S qt env n ⟨data, env data⟩ m a) s c s' →
      Sound S m c ∧ (FieldPointer IsMessage key i c ↔
        RecordOf S ⟨data, env data⟩ m i (Replaces S qt env n ⟨data, env data⟩ key) s ∨
          FieldPointer IsMessage key i a ∧ ¬ False) := by
    intro a s c s' ha hc
    exact ⟨call_sound hsorted ha hc, by rw [call_entry hp ha hc, and_iff_left not_false]⟩
  obtain ⟨-, hN⟩ := Traced.Runs.while_lastWrite hcall hr (sound_newObject S m)
  rw [hN, or_iff_left fun hn => hdefault hn.1, Traced.lastWrite_false]
  exact Iff.rfl

theorem fieldPointer_map {fs : List (Value M)} {es : List (Scalar × Value M)}
    (hi : fs[i]? = some (.map es)) (ht : HasType S (.map kt (.message m')) (.map es)) :
    FieldPointer IsMessage key i fs ↔ ∃ e ∈ es, e.1.key = key := by
  cases ht with
  | map _ hvs =>
    constructor
    · rintro ⟨v, hv, h⟩
      cases hi.symm.trans hv
      obtain ⟨e, he, hk, -⟩ := h
      exact ⟨e, he, hk⟩
    · rintro ⟨e, he, hk⟩
      exact ⟨_, hi, e, he, hk, (hvs e he).isMessage⟩

/-- The maps of messages of the message itself. -/
theorem opensMap_iff {data : Bytes} {fs : List (Value M)}
    (h : (deserializeMessage S qt env (n + 1) m (newObject S m) data).2 = (fs, none)) :
    (∃ v ∈ fs, OpenMap v) ↔ OpensMap S qt env n m data := by
  have hsound := (deserializeMessage_sound h).hasType
  constructor
  · rintro ⟨v, hv, hopen⟩
    obtain ⟨i, hi⟩ := List.mem_iff_getElem?.mp hv
    cases v with
    | map es =>
      obtain ⟨e, he, hm, k, hk, hlacks⟩ := hopen
      obtain ⟨t, ht, hvt⟩ := hsound.property hi
      cases hvt with
      | @map kt vt _ hks hvs =>
        obtain ⟨m', rfl⟩ := (hvs e he).of_isMessage hm
        have hkeys : ∀ key : List Int, (∃ e ∈ es, e.1.key = key) ↔ _ := fun key =>
          (fieldPointer_map hi (.map hks hvs)).symm.trans (mapKeys_iff ht h)
        refine ⟨i, kt, m', ht, ⟨e.1.key, (hkeys _).mp ⟨e, he, rfl⟩⟩, k, hk.trans (hks e he), ?_⟩
        intro it hit hentry
        obtain ⟨e', he', hk'⟩ := (hkeys _).mpr ⟨it, hit, hentry⟩
        exact hlacks e' he' hk'
    | _ => exact hopen.elim
  · rintro ⟨i, kt, m', ht, ⟨key, hentry⟩, k, hk, hlacks⟩
    obtain ⟨v, hi, hvt, -⟩ := hsound.field ht
    cases hvt with
    | @map _ _ es hks hvs =>
      have hkeys : ∀ key : List Int, (∃ e ∈ es, e.1.key = key) ↔ _ := fun key =>
        (fieldPointer_map hi (.map hks hvs)).symm.trans (mapKeys_iff ht h)
      obtain ⟨e, he, -⟩ := (hkeys key).mpr hentry
      refine ⟨_, List.mem_of_getElem? hi, e, he, (hvs e he).isMessage, k, hk.trans (hks e he).symm, ?_⟩
      intro e' he' hk'
      obtain ⟨it, hit, hentry'⟩ := (hkeys _).mp ⟨e', he', hk'⟩
      exact hlacks it hit hentry'

/-- **Open maps.** What is decoded has one exactly if the records leave one. -/
theorem openMap_iff {data : Bytes} {fs : List (Value M)}
    (h : (deserializeMessage S qt env n m (newObject S m) data).2 = (fs, none)) :
    Occurs OpenMap (.object m fs) ↔ LeavesOpen S qt env n m data :=
  leaves_iff occurs_openMap_property (fun _ _ => occurs_openMap_object) (fun _ _ _ _ h => opensMap_iff h) h

end

/-! ## Serializing and comparing -/

/-- Each element of a list and each entry of a map, in `w` and in the messages
set in it, has bytes. -/
def DropsNothing (S : Schema M) (qt : QtCore) (w : M × List (Value M)) : Prop :=
  ∀ u, Relation.ReflTransGen SetIn w u →
    (∀ vs, .messages vs ∈ u.2 → ∀ v ∈ vs, ∀ n f,
      serializeListObject (serializeMessage S qt n) f v ≠ some []) ∧
    (∀ es, .map es ∈ u.2 → ∀ e ∈ es, ∀ n f, serializeMapEntry S qt (serializeMessage S qt n) f e ≠ some [])

/-- A value of a property: no null pointers, and maps that are ordered. -/
structure Proper (S : Schema M) (t : FieldType M) (w : Value M) : Prop where
  hasType : HasType S t w
  noNull : ¬ HasNull w
  sorted : Sorted w

/-- No null pointer, and what should follow: the bytes of the whole, and no null
pointer in a comparison with a value that has none, of the message and of each
field of it and of the messages set in it. -/
structure Intact (S : Schema M) (qt : QtCore) (m : M) (fs : List (Value M)) : Prop where
  noNull : ¬ HasNull (.object m fs)
  serialized : DropsNothing S qt (m, fs)
  compared : ∀ gs, Proper S (.single (.message m)) (.object m gs) →
    ¬ Null S (.object m fs) (.object m gs) ∧ ¬ Null S (.object m gs) (.object m fs)
  fieldsCompared : ∀ u, Relation.ReflTransGen SetIn (m, fs) u → ∀ (i : Nat) t v,
    (S u.1).properties[i]? = some t → u.2[i]? = some v → ∀ w, Proper S t w → ¬ Null S v w ∧ ¬ Null S w v

/-- The comparison of two values comes to two maps of messages of one size, with a
key that the second one does not have: `value` makes a null pointer of it. -/
inductive MissingKey : Value M → Value M → Prop
  | here {es es' : List (Scalar × Value M)} {e : Scalar × Value M} (hl : es.length = es'.length)
    (he : e ∈ es) (hm : IsMessage e.2) (hk : ∀ e' ∈ es', e'.1.key ≠ e.1.key) : MissingKey (.map es) (.map es')
  | field {m : M} {fs gs : List (Value M)} {i : Nat} {v w : Value M} (hv : fs[i]? = some v)
    (hw : gs[i]? = some w) (h : MissingKey v w) : MissingKey (.object m fs) (.object m gs)
  | pointee {v w a c : Value M} {ps : List (Option (Value M) × Option (Value M))}
    (hp : comparedPointers v w = some ps) (hps : (some a, some c) ∈ ps) (h : MissingKey a c) : MissingKey v w

section
variable {S : Schema M} {qt : QtCore}

/-- A pointer that is not null. -/
theorem HasType.set_object {m : M} {v : Value M} (ht : HasType S (.single (.message m)) v)
    (hn : ¬ NullPointer v) : ∃ fs, v = .object m fs := by
  cases ht with
  | unset => exact absurd (.inl rfl) hn
  | object _ _ _ => exact ⟨_, rfl⟩

theorem SetIn.hasNull {w u : M × List (Value M)} (h : SetIn w u) (hn : HasNull (.object u.1 u.2)) :
    HasNull (.object w.1 w.2) := by
  obtain ⟨v, hv, hu⟩ := h
  refine .field hv ?_
  cases hu with
  | object m fs => exact hn
  | element he => exact .element he hn
  | entry he => exact .entry he hn

/-- Without null pointers nothing is dropped. -/
theorem dropsNothing_of_noNull {w : M × List (Value M)}
    (ht : HasType S (.single (.message w.1)) (.object w.1 w.2)) (hn : ¬ HasNull (.object w.1 w.2)) :
    DropsNothing S qt w := by
  intro u hu
  obtain ⟨ht, hn⟩ : HasType S (.single (.message u.1)) (.object u.1 u.2) ∧ ¬ HasNull (.object u.1 u.2) := by
    induction hu with
    | refl => exact ⟨ht, hn⟩
    | tail _ hc ih => exact ⟨ih.1.setIn hc, fun h => ih.2 (hc.hasNull h)⟩
  have hfield : ∀ v ∈ u.2, ∃ t, HasType S t v := by
    intro v hv
    obtain ⟨i, hi⟩ := List.mem_iff_getElem?.mp hv
    obtain ⟨t, -, htv⟩ := ht.property hi
    exact ⟨t, htv⟩
  constructor
  · intro vs hvs v hv n f hr
    obtain ⟨t, ht⟩ := hfield _ hvs
    cases ht with
    | messages h =>
      obtain ⟨fs, rfl⟩ := (h v hv).set_object fun hp => hn (.field hvs (hasNull_messages.mpr ⟨v, hv, hp⟩))
      exact absurd (serializeObject_ne_nil hr) (by simp)
  · intro es hes e he n f hr
    obtain ⟨k, v⟩ := e
    have hpair : ∀ r, serializeMapPair S qt (serializeMessage S qt n) f k v = some r → r ≠ [] := by
      intro r hr
      simp only [serializeMapPair, Option.bind_eq_bind, Option.bind_eq_some_iff, Option.pure_def,
        Option.some.injEq] at hr
      obtain ⟨data, -, rfl⟩ := hr
      exact fun he => prependLengthDelimitedSize_ne_nil _ (List.append_eq_nil_iff.mp he).2
    cases v with
    | unset m => exact hn (.field hes (.entry_null he))
    | _ => exact hpair [] hr rfl

theorem comparedPointers_inv {v w : Value M} {ps : List (Option (Value M) × Option (Value M))}
    (h : comparedPointers v w = some ps) :
    (∃ vs ws, v = .messages vs ∧ w = .messages ws ∧
      ps = (vs.zip ws).map fun p => (p.1.pointee, p.2.pointee)) ∨
    (∃ es es', v = .map es ∧ w = .map es' ∧ es.length = es'.length ∧ (∀ e ∈ es, IsMessage e.2) ∧
      ps = es.map fun e => (valueAt es' e.1, e.2.pointee)) := by
  unfold comparedPointers at h
  split at h
  · rename_i vs ws
    split at h
    · cases h
      exact .inl ⟨vs, ws, rfl, rfl, rfl⟩
    · cases h
  · rename_i es es'
    split at h
    · rename_i hall
      cases h
      exact .inr ⟨es, es', rfl, rfl, hall.1, List.all_eq_true.mp hall.2, rfl⟩
    · cases h
  · cases h

/-- Two pointers that are compared: both are set, or the first is of a key that
is not there. -/
inductive PointersOf (S : Schema M) (v w : Value M) : Option (Value M) × Option (Value M) → Prop
  | set {m : M} {fs gs : List (Value M)} (hf : HasType S (.single (.message m)) (.object m fs))
    (hg : HasType S (.single (.message m)) (.object m gs)) (hnf : ¬ HasNull (.object m fs))
    (hng : ¬ HasNull (.object m gs)) : PointersOf S v w (some (.object m fs), some (.object m gs))
  | missing {p : Option (Value M)} (h : MissingKey v w) : PointersOf S v w (none, p)

theorem comparedPointers_noNull {v w : Value M} {ps : List (Option (Value M) × Option (Value M))}
    (hps : comparedPointers v w = some ps) {t : FieldType M} (hv : HasType S t v) (hw : HasType S t w)
    (hnv : ¬ HasNull v) (hnw : ¬ HasNull w) {p : Option (Value M) × Option (Value M)} (hp : p ∈ ps) :
    PointersOf S v w p := by
  rcases comparedPointers_inv hps with ⟨vs, ws, rfl, rfl, rfl⟩ | ⟨es, es', rfl, rfl, hl, hall, rfl⟩
  · obtain ⟨⟨x, y⟩, hxy, rfl⟩ := List.mem_map.mp hp
    obtain ⟨hx, hy⟩ := List.of_mem_zip hxy
    cases hv with
    | messages hvs =>
      cases hw with
      | messages hws =>
        have hnx : ¬ NullPointer x := fun h => hnv (hasNull_messages.mpr ⟨x, hx, h⟩)
        have hny : ¬ NullPointer y := fun h => hnw (hasNull_messages.mpr ⟨y, hy, h⟩)
        have htx := hvs x hx
        have hty := hws y hy
        obtain ⟨fs, rfl⟩ := htx.set_object hnx
        obtain ⟨gs, rfl⟩ := hty.set_object hny
        exact .set htx hty (fun h => hnx (.inr h)) fun h => hny (.inr h)
  · obtain ⟨⟨k, x⟩, he, rfl⟩ := List.mem_map.mp hp
    have hm := hall (k, x) he
    cases hv with
    | @map _ vt _ _ hvs =>
      cases hw with
      | map _ hws =>
        have hnx : ¬ NullPointer x := fun h => hnv (hasNull_map.mpr ⟨(k, x), he, h⟩)
        have htx : HasType S (.single vt) x := hvs (k, x) he
        obtain ⟨m, rfl⟩ := htx.of_isMessage hm
        obtain ⟨fs, rfl⟩ := htx.set_object hnx
        cases hfind : es'.find? fun e => e.1.key == k.key with
        | none =>
          have hnone : valueAt es' k = none := by
            unfold valueAt
            rw [hfind]
            rfl
          rw [hnone]
          refine .missing (.here hl he hm fun e' he' hk => ?_)
          have hne := List.find?_eq_none.mp hfind e' he'
          simp [hk] at hne
        | some e' =>
          have he' := List.mem_of_find?_eq_some hfind
          have hny : ¬ NullPointer e'.2 := fun h => hnw (hasNull_map.mpr ⟨e', he', h⟩)
          have hty := hws e' he'
          obtain ⟨gs, hgs⟩ := hty.set_object hny
          have hsome : valueAt es' k = some (.object m gs) := by
            unfold valueAt
            rw [hfind, Option.bind_some, hgs]
            rfl
          rw [hsome]
          rw [hgs] at hty hny
          exact .set hty htx (fun h => hny (.inr h)) fun h => hnx (.inr h)

/-- The comparison of two values without null pointers dereferences one only
where a key is missing. -/
theorem missingKey_of_null {v w : Value M} (h : Null S v w) {t : FieldType M} (hv : HasType S t v)
    (hw : HasType S t w) (hnv : ¬ HasNull v) (hnw : ¬ HasNull w) : MissingKey v w := by
  induction h generalizing t with
  | @object m fs gs i v w _ hfv hfw _ ih =>
    cases hv with
    | object _ hl hf =>
      cases hw with
      | object _ hl' hg =>
        have hlt : i < (S m).properties.length := hl ▸ (List.getElem?_eq_some_iff.mp hfv).1
        have ht := List.getElem?_eq_getElem hlt
        exact .field hfv hfw (ih (hf i _ v ht hfv) (hg i _ w ht hfw)
          (fun h => hnv (.field (List.mem_of_getElem? hfv) h))
          fun h => hnw (.field (List.mem_of_getElem? hfw) h))
  | @pointer v w ps i p hps _ _ hi h =>
    have hp := comparedPointers_noNull hps hv hw hnv hnw (List.mem_of_getElem? hi)
    cases hp with
    | set => exact absurd rfl h
    | missing hk => exact hk
  | @pointee v w ps i a c hps _ _ hi _ ih =>
    have hp := comparedPointers_noNull hps hv hw hnv hnw (List.mem_of_getElem? hi)
    cases hp with
    | set hf hg hnf hng => exact .pointee hps (List.mem_of_getElem? hi) (ih hf hg hnf hng)

/-! ### Comparing and open maps -/

theorem pointee_eq {v a : Value M} (h : v.pointee = some a) : v = a := by
  cases v with
  | object m fs => cases h; rfl
  | _ => cases h

/-- The pointers that are compared are of the one value and of the other; those of
two maps in the other order. -/
theorem comparedPointers_mem {v w a c : Value M} {ps : List (Option (Value M) × Option (Value M))}
    (h : comparedPointers v w = some ps) (hp : (some a, some c) ∈ ps) :
    (∃ vs ws, v = .messages vs ∧ w = .messages ws ∧ a ∈ vs ∧ c ∈ ws) ∨
    ∃ es es', v = .map es ∧ w = .map es' ∧ (∃ e ∈ es', e.2 = a) ∧ ∃ e ∈ es, e.2 = c := by
  rcases comparedPointers_inv h with ⟨vs, ws, rfl, rfl, rfl⟩ | ⟨es, es', rfl, rfl, -, -, rfl⟩
  · obtain ⟨⟨x, y⟩, hxy, he⟩ := List.mem_map.mp hp
    obtain ⟨hx, hy⟩ := List.of_mem_zip hxy
    obtain ⟨hxa, hyc⟩ := Prod.mk.inj he
    have hxa : x = a := pointee_eq hxa
    have hyc : y = c := pointee_eq hyc
    exact .inl ⟨vs, ws, rfl, rfl, hxa ▸ hx, hyc ▸ hy⟩
  · obtain ⟨e, he, hac⟩ := List.mem_map.mp hp
    obtain ⟨ha, hc⟩ := Prod.mk.inj hac
    unfold valueAt at ha
    obtain ⟨e', hfind, ha⟩ := Option.bind_eq_some_iff.mp ha
    exact .inr ⟨es, es', rfl, rfl, ⟨e', List.mem_of_find?_eq_some hfind, pointee_eq ha⟩, e, he, pointee_eq hc⟩

/-- Of two maps of one size, if the second lacks a key of the first then so does
the first one of the second. -/
theorem exists_key_missing {es es' : List (Scalar × Value M)} {e : Scalar × Value M}
    (hl : es.length = es'.length) (ho : (Value.map es').Ordered) (he : e ∈ es)
    (hk : ∀ e' ∈ es', e'.1.key ≠ e.1.key) : ∃ e' ∈ es', ∀ d ∈ es, d.1.key ≠ e'.1.key := by
  by_contra hno
  have hnodup : (es'.map fun e => e.1.key).Nodup := by
    refine List.pairwise_map.mpr (List.Pairwise.imp (fun {d d'} hlt heq => ?_) ho)
    rw [heq] at hlt
    exact List.lt_irrefl _ hlt
  have hsubset : (es'.map fun e => e.1.key) ⊆ es.map fun e => e.1.key := by
    intro key hkey
    obtain ⟨e', he', rfl⟩ := List.mem_map.mp hkey
    by_contra hmem
    exact hno ⟨e', he', fun d hd hdk => hmem (List.mem_map.mpr ⟨d, hd, hdk⟩)⟩
  have hperm := (List.subperm_of_subset hnodup hsubset).perm_of_length_le (by simp [hl])
  obtain ⟨e', he', hk'⟩ := List.mem_map.mp (hperm.mem_iff.mpr (List.mem_map.mpr ⟨e, he, rfl⟩))
  exact hk e' he' hk'

/-- Where a key is missing, both maps are open. -/
theorem MissingKey.openMap {v w : Value M} (h : MissingKey v w) {t : FieldType M} (hv : HasType S t v)
    (hw : HasType S t w) (hsv : Sorted v) (hsw : Sorted w) : Occurs OpenMap v ∧ Occurs OpenMap w := by
  induction h generalizing t with
  | @here es es' e hl he hm hk =>
    cases hv with
    | map hks hvs =>
      cases hw with
      | map hks' hvs' =>
        obtain ⟨m, rfl⟩ := (hvs e he).of_isMessage hm
        obtain ⟨e', he', hk'⟩ := exists_key_missing hl hsw.ordered he hk
        exact ⟨.here ⟨e, he, hm, e'.1, (hks' e' he').trans (hks e he).symm, hk'⟩,
          .here ⟨e', he', (hvs' e' he').isMessage, e.1, (hks e he).trans (hks' e' he').symm, hk⟩⟩
  | @field m fs gs i x y hx hy _ ih =>
    cases hv with
    | object _ hl hf =>
      cases hw with
      | object _ hl' hg =>
        have hlt : i < (S m).properties.length := hl ▸ (List.getElem?_eq_some_iff.mp hx).1
        have ht := List.getElem?_eq_getElem hlt
        have hmx := List.mem_of_getElem? hx
        have hmy := List.mem_of_getElem? hy
        obtain ⟨hox, hoy⟩ := ih (hf i _ x ht hx) (hg i _ y ht hy) (sorted_object.mp hsv x hmx)
          (sorted_object.mp hsw y hmy)
        exact ⟨.field hmx hox, .field hmy hoy⟩
  | @pointee v w a c ps hp hps _ ih =>
    rcases comparedPointers_mem hp hps with
      ⟨vs, ws, rfl, rfl, ha, hc⟩ | ⟨es, es', rfl, rfl, ⟨e', he', rfl⟩, e, he, rfl⟩
    · cases hv with
      | messages hvs =>
        cases hw with
        | messages hws =>
          obtain ⟨hoa, hoc⟩ := ih (hvs a ha) (hws c hc) (sorted_messages.mp hsv a ha)
            (sorted_messages.mp hsw c hc)
          exact ⟨.element ha hoa, .element hc hoc⟩
    · cases hv with
      | map _ hvs =>
        cases hw with
        | map _ hvs' =>
          obtain ⟨hoa, hoc⟩ := ih (hvs' e' he') (hvs e he) ((sorted_map.mp hsw).2 e' he')
            ((sorted_map.mp hsv).2 e he)
          exact ⟨.entry he hoc, .entry he' hoa⟩

/-- Without null pointers and open maps nothing that is null is dereferenced. -/
theorem compared_of_not_openMap {t : FieldType M} {v w : Value M} (hv : Proper S t v) (hw : Proper S t w)
    (ho : ¬ Occurs OpenMap v) : ¬ Null S v w ∧ ¬ Null S w v :=
  ⟨fun h => ho ((missingKey_of_null h hv.hasType hw.hasType hv.noNull hw.noNull).openMap hv.hasType
      hw.hasType hv.sorted hw.sorted).1,
    fun h => ho ((missingKey_of_null h hw.hasType hv.hasType hw.noNull hv.noNull).openMap hw.hasType
      hv.hasType hw.sorted hv.sorted).2⟩

theorem insertPair_length {k : Scalar} {v : Value M} {es : List (Scalar × Value M)}
    (h : ∀ e ∈ es, e.1.key ≠ k.key) : (insertPair k v es).length = es.length + 1 := by
  induction es with
  | nil => rfl
  | cons e es ih =>
    have hne := h e List.mem_cons_self
    unfold insertPair
    split
    · rfl
    · rename_i h₁
      split
      · rw [List.length_cons, ih fun e' he' => h e' (List.mem_cons_of_mem _ he'), List.length_cons]
      · rename_i h₂
        exact absurd (List.le_antisymm h₁ h₂) hne

theorem insertPair_value {k : Scalar} {v : Value M} {es : List (Scalar × Value M)} {e : Scalar × Value M}
    (ho : (Value.map es).Ordered) (h : e ∈ insertPair k v es) : e.2 = v ∨ ∃ e' ∈ es, e'.2 = e.2 := by
  rcases (insertPair_mem ho e.1.key (· = e.2)).mp ⟨e, h, rfl, rfl⟩ with ⟨-, hv⟩ | ⟨-, e', he', -, hv⟩
  · exact .inl hv.symm
  · exact .inr ⟨e', he', hv⟩

theorem newObject_noNull (m : M) : ¬ HasNull (.object m (newObject S m)) := by
  rw [hasNull_object]
  rintro ⟨v, hv, hn⟩
  obtain ⟨t, -, rfl⟩ := List.mem_map.mp hv
  exact not_hasNull_default t hn

/-- The first key is looked up in a map that lacks it. -/
theorem null_of_missing {d : Scalar × Value M} {es es' : List (Scalar × Value M)}
    (hl : (d :: es).length = es'.length) (hm : ∀ e ∈ d :: es, IsMessage e.2) (hd : d.2.pointee.isSome = true)
    (hk : ∀ e ∈ es', e.1.key ≠ d.1.key) : Null S (.map (d :: es)) (.map es') := by
  have hps : comparedPointers (.map (d :: es)) (.map es') =
      some ((d :: es).map fun e => (valueAt es' e.1, e.2.pointee)) :=
    if_pos ⟨hl, List.all_eq_true.mpr hm⟩
  have hvalue : valueAt es' d.1 = none := by
    unfold valueAt
    rw [List.find?_eq_none.mpr fun e he => by simpa using hk e he, Option.bind_none]
  refine .pointer (i := 0) (p := (valueAt es' d.1, d.2.pointee)) hps
    (fun j _ hj _ => absurd hj (Nat.not_lt_zero j)) (fun j _ _ hj _ => absurd hj (Nat.not_lt_zero j)) rfl ?_
  rw [hvalue]
  simp [← Option.not_isSome, hd]

/-- A map with a new key is proper where the map without it is. -/
theorem Proper.insertPair {kt : ScalarType} {m : M} {d : Scalar × Value M} {es : List (Scalar × Value M)}
    (h : Proper S (.map kt (.message m)) (.map (d :: es))) {k : Scalar} (hk : k.type = kt) :
    Proper S (.map kt (.message m)) (.map (Codec.insertPair k (.object m (newObject S m)) es)) := by
  obtain ⟨ho, hsorted⟩ := sorted_map.mp h.sorted
  have hes : (Value.map es).Ordered := (List.pairwise_cons.mp ho).2
  have hnull := mt hasNull_map.mpr h.noNull
  cases h.hasType with
  | map hks hvs =>
    refine ⟨(HasType.map (fun e he => hks e (List.mem_cons_of_mem _ he))
      fun e he => hvs e (List.mem_cons_of_mem _ he)).insertPair hk (hasType_newObject m), ?_, ?_⟩
    · rw [hasNull_map]
      rintro ⟨e, he, hn⟩
      rcases insertPair_value hes he with hv | ⟨e', he', hv⟩
      · rw [hv, nullPointer_object] at hn
        exact newObject_noNull m hn
      · rw [← hv] at hn
        exact hnull ⟨e', List.mem_cons_of_mem _ he', hn⟩
    · refine sorted_map.mpr ⟨insertPair_ordered hes, fun e he => ?_⟩
      rcases insertPair_value hes he with hv | ⟨e', he', hv⟩
      · rw [hv]
        exact sorted_newObject S m
      · rw [← hv]
        exact hsorted e' (List.mem_cons_of_mem _ he')

/-- **Open maps.** There is a map of the same size that lacks the first key. -/
theorem null_of_openMap {t : FieldType M} {v : Value M} (hv : Proper S t v) (ho : OpenMap v) :
    ∃ w, Proper S t w ∧ Null S v w := by
  cases v with
  | map es =>
    obtain ⟨e, he, hm, k, hk, hlacks⟩ := ho
    cases es with
    | nil => cases he
    | cons d es =>
      have hnull := mt hasNull_map.mpr hv.noNull
      have hlt := (List.pairwise_cons.mp hv.sorted.ordered).1
      cases hv.hasType with
      | @map kt vt _ hks hvs =>
        obtain ⟨m, rfl⟩ := (hvs e he).of_isMessage hm
        refine ⟨_, hv.insertPair (hk.trans (hks e he)), null_of_missing ?_ ?_ ?_ ?_⟩
        · exact (insertPair_length fun e' he' => hlacks e' (List.mem_cons_of_mem _ he')).symm
        · exact fun e he => (hvs e he).isMessage
        · obtain ⟨gs, hgs⟩ := (hvs d List.mem_cons_self).set_object fun hn =>
            hnull ⟨d, List.mem_cons_self, hn⟩
          rw [hgs]
          rfl
        · intro e' he'
          rcases insertPair_keys he' with hkey | he'
          · rw [hkey]
            exact (hlacks d List.mem_cons_self).symm
          · exact fun heq => List.lt_irrefl _ (heq ▸ hlt e' he')
  | _ => exact ho.elim

/-- What has a message in it, and is a pointer, points to the message. -/
theorem Value.Has.pointer {t : SingleType M} {v : Value M} {u : M × List (Value M)} (h : v.Has u)
    (hv : HasType S (.single t) v) : v = .object u.1 u.2 := by
  cases h with
  | object m fs => rfl
  | element _ => cases hv
  | entry _ => cases hv

theorem OpenMap.not_pointer {t : SingleType M} {v : Value M} (h : OpenMap v) :
    ¬ HasType S (.single t) v := by
  cases v with
  | map es => exact fun hv => by cases hv
  | _ => exact h.elim

/-- An open map is the value, or a field of a message set in it. -/
theorem Occurs.openMap_reach {t : FieldType M} {v : Value M} (h : Occurs OpenMap v) (hv : HasType S t v) :
    OpenMap v ∨ ∃ w, v.Has w ∧ ∃ u, Relation.ReflTransGen SetIn w u ∧ ∃ x ∈ u.2, OpenMap x := by
  induction h generalizing t with
  | here h => exact .inl h
  | @field m fs x hx _ ih =>
    obtain ⟨i, hi⟩ := List.mem_iff_getElem?.mp hx
    have htx : ∃ t, HasType S t x := by
      cases hv with
      | object _ hl h => exact (HasType.property (.object m hl h) hi).imp fun _ h => h.2
    obtain ⟨t', htx⟩ := htx
    refine .inr ⟨(m, fs), .object m fs, ?_⟩
    rcases ih htx with ho | ⟨w, hw, u, hu, ho⟩
    · exact ⟨(m, fs), .refl, x, hx, ho⟩
    · exact ⟨u, .head ⟨x, hx, hw⟩ hu, ho⟩
  | @element vs x hx _ ih =>
    cases hv with
    | messages hvs =>
      rcases ih (hvs x hx) with ho | ⟨w, hw, hu⟩
      · exact absurd (hvs x hx) ho.not_pointer
      · rw [hw.pointer (hvs x hx)] at hx
        exact .inr ⟨w, .element hx, hu⟩
  | @entry es e he _ ih =>
    cases hv with
    | map _ hvs =>
      rcases ih (hvs e he) with ho | ⟨w, hw, hu⟩
      · exact absurd (hvs e he) ho.not_pointer
      · have hentry : (e.1, .object w.1 w.2) ∈ es := by
          rw [← hw.pointer (hvs e he)]
          exact he
        exact .inr ⟨w, .entry hentry, hu⟩

theorem SetIn.occurs {p : Value M → Prop} {w u : M × List (Value M)} (h : SetIn w u)
    (ho : Occurs p (.object u.1 u.2)) : Occurs p (.object w.1 w.2) := by
  obtain ⟨v, hv, hu⟩ := h
  refine .field hv ?_
  cases hu with
  | object m fs => exact ho
  | element he => exact .element he ho
  | entry he => exact .entry he ho

theorem Occurs.of_reach {p : Value M → Prop} {w u : M × List (Value M)}
    (hu : Relation.ReflTransGen SetIn w u) (ho : Occurs p (.object u.1 u.2)) : Occurs p (.object w.1 w.2) := by
  induction hu with
  | refl => exact ho
  | tail _ hc ih => exact ih (hc.occurs ho)

/-- What is set in a message without null pointers is proper. -/
theorem Proper.reach {w u : M × List (Value M)} (h : Proper S (.single (.message w.1)) (.object w.1 w.2))
    (hu : Relation.ReflTransGen SetIn w u) : Proper S (.single (.message u.1)) (.object u.1 u.2) := by
  induction hu with
  | refl => exact h
  | tail _ hc ih => exact ⟨ih.hasType.setIn hc, mt hc.hasNull ih.noNull, mt hc.occurs ih.sorted⟩

theorem Proper.field {w : M × List (Value M)} (h : Proper S (.single (.message w.1)) (.object w.1 w.2)) {i : Nat}
    {t : FieldType M} {v : Value M} (ht : (S w.1).properties[i]? = some t) (hv : w.2[i]? = some v) :
    Proper S t v :=
  ⟨h.hasType.get ht hv, fun hn => h.noNull (.field (List.mem_of_getElem? hv) hn),
    fun ho => h.sorted (.field (List.mem_of_getElem? hv) ho)⟩

/-- **Null elements.** What is decoded has no null pointer, is serialized whole
and compared safely, exactly if the records leave no null pointer and no open map. -/
theorem decodes_intact_iff {env : Bytes → Int → UInt8} {n : Nat} {m : M} {data : Bytes}
    {fs : List (Value M)} (h : (deserializeMessage S qt env n m (newObject S m) data).2 = (fs, none)) :
    Intact S qt m fs ↔ ¬ LeavesNull S qt env n m data ∧ ¬ LeavesOpen S qt env n m data := by
  rw [← hasNull_iff h, ← openMap_iff h]
  have hsound := deserializeMessage_sound h
  constructor
  · intro hi
    have hproper : Proper S (.single (.message m)) (.object m fs) := ⟨hsound.hasType, hi.noNull, hsound.sorted⟩
    refine ⟨hi.noNull, fun ho => ?_⟩
    rcases ho.openMap_reach hsound.hasType with ho | ⟨w, hw, u, hu, v, hv, ho⟩
    · exact ho
    · cases hw
      obtain ⟨i, hiv⟩ := List.mem_iff_getElem?.mp hv
      obtain ⟨t, ht, -⟩ := (hproper.reach hu).hasType.property hiv
      obtain ⟨w, hw, hnull⟩ := null_of_openMap ((hproper.reach hu).field ht hiv) ho
      exact (hi.fieldsCompared u hu i t v ht hiv w hw).1 hnull
  · rintro ⟨hn, ho⟩
    have hproper : Proper S (.single (.message m)) (.object m fs) := ⟨hsound.hasType, hn, hsound.sorted⟩
    refine ⟨hn, dropsNothing_of_noNull hsound.hasType hn,
      fun gs hg => compared_of_not_openMap hproper hg ho, fun u hu i t v ht hv w hw => ?_⟩
    exact compared_of_not_openMap ((hproper.reach hu).field ht hv) hw
      fun ho' => ho (.of_reach hu (.field (List.mem_of_getElem? hv) ho'))

end

/-! ## Maps with an entry -/

/-- The message type whose only field is a map to messages of the type itself. -/
def selfMapSchema (kt : ScalarType) : Schema Unit := fun m => .oneField 1 fieldNumber_one (.map kt (.message m))

/-- Both keys of a `map<bool, T>`, each with an empty message. -/
theorem decodes_intact_bothKeys : Intact (selfMapSchema .bool) .ascii ()
    [.map [(.bool false, .object () [.map []]), (.bool true, .object () [.map []])]] := by
  have h : (deserializeMessage (selfMapSchema .bool) .ascii (fun _ _ => 0) 13 ()
      (newObject (selfMapSchema .bool) ())
      [0x0a, 0x04, 0x08, 0x00, 0x12, 0x00, 0x0a, 0x04, 0x08, 0x01, 0x12, 0x00]).2 =
        ([.map [(.bool false, .object () [.map []]), (.bool true, .object () [.map []])]], none) := rfl
  refine (decodes_intact_iff h).mpr ⟨fun hl => ?_, fun hl => ?_⟩
  · have hn := (hasNull_iff h).mpr hl
    simp [hasNull_object, hasNull_map, nullPointer_object] at hn
  · have ho := (openMap_iff h).mpr hl
    obtain ⟨k, hk, hf, ht⟩ : ∃ k : Scalar, k.type = .bool ∧ ¬ (Scalar.bool false).key = k.key ∧
        ¬ (Scalar.bool true).key = k.key := by
      simpa [occurs_object, occurs_map, OpenMap, Value.message?, Scalar.type] using ho
    cases k with
    | bool v =>
      cases v with
      | false => exact hf rfl
      | true => exact ht rfl
    | _ => cases hk

/-- Only the key 1. -/
theorem not_decodes_intact_key : ∃ fs, (deserializeMessage (selfMapSchema (.num .int32)) .ascii
    (fun _ _ => 0) 5 () (newObject (selfMapSchema (.num .int32)) ()) [0x0a, 0x02, 0x08, 0x01]).2 = (fs, none) ∧
      ¬ Intact (selfMapSchema (.num .int32)) .ascii () fs ∧
      serializeMessage (selfMapSchema (.num .int32)) .ascii 5 () fs = some [] := by
  refine ⟨[.map [(.num .int32 1, .unset ())]], rfl, fun hi => hi.noNull ?_, rfl⟩
  exact .field List.mem_cons_self (.entry_null List.mem_cons_self)

end QtProtobuf.Codec
