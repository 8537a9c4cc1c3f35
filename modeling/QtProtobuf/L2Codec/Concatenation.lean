import QtProtobuf.L2Codec.Contents
import QtProtobuf.L2Codec.Decoded
import QtProtobuf.L2Codec.Setters

/-!
# Concatenated encodings

The decoders of strings, byte arrays, enums, messages and maps go on from what
the property holds; that of numbers begins a new list, and that of a singular
sub-message a new message (`protobuf/qprotobufserializer_p.h:361-375`,
`protobuf/qabstractprotobufserializer_p.h:174-274`).

* `Merged`: the merge of two messages.
* `Overridden`: what a field holds adds nothing to it.
* `concatenation_merges_iff`: a concatenation decodes to the merge exactly if in
  the fields of these two kinds the first message is overridden by the second.
-/
namespace QtProtobuf.Codec

open Lib Wire

variable {M : Type}

/-! ## The last record of a property -/

def lastItem (i : Nat) (items : List Item) : Option Item :=
  (items.filter fun item => item.index = i).getLast?

def lastContent (i : Nat) (cs : List (Nat × Content M)) : Option (Content M) :=
  (cs.filter fun c => c.1 = i).getLast?.map Prod.snd

theorem lastItem_cons (i : Nat) (item : Item) (items : List Item) : lastItem i (item :: items) =
    (lastItem i items).or (if item.index = i then some item else none) := by
  unfold lastItem
  by_cases h : item.index = i
  · rw [List.filter_cons_of_pos (by simpa using h), List.getLast?_cons, if_pos h]
    cases (items.filter fun item => item.index = i).getLast? <;> rfl
  · rw [List.filter_cons_of_neg (by simpa using h), if_neg h, Option.or_none]

theorem lastContent_cons (i : Nat) (c : Nat × Content M) (cs : List (Nat × Content M)) :
    lastContent i (c :: cs) = (lastContent i cs).or (if c.1 = i then some c.2 else none) := by
  unfold lastContent
  by_cases h : c.1 = i
  · rw [List.filter_cons_of_pos (by simpa using h), List.getLast?_cons, if_pos h]
    cases (cs.filter fun c => c.1 = i).getLast? <;> rfl
  · rw [List.filter_cons_of_neg (by simpa using h), if_neg h, Option.or_none]

theorem lastItem_mem {i : Nat} {item : Item} {items : List Item} (h : lastItem i items = some item) :
    item ∈ items := (List.mem_filter.mp (List.mem_of_getLast? h)).1

/-- The last record of a property, and what it holds. -/
inductive LastOf (S : Schema M) (m : M) (i : Nat) : Option Item → Option (Content M) → Prop
  | none : LastOf S m i none none
  | field {t : FieldType M} {c : Content M} (ht : (S m).properties[i]? = some t) (hc : Content.Of t c) :
    LastOf S m i (some (.field i)) (some c)
  | message {m' : M} {sub : List Item} {cs : List (Nat × Content M)}
    (ht : (S m).properties[i]? = some (.single (.message m'))) (hs : Denotes S m' sub cs) :
    LastOf S m i (some (.message i sub)) (some (.value (.object m' (Content.setAll cs (newObject S m')))))

variable {S : Schema M} {m : M} {items : List Item} {cs : List (Nat × Content M)}

theorem LastOf.or {i : Nat} {o o' : Option Item} {c c' : Option (Content M)} (h : LastOf S m i o c)
    (h' : LastOf S m i o' c') : LastOf S m i (o.or o') (c.or c') := by
  cases h with
  | none => simpa using h'
  | field ht hc => exact .field ht hc
  | message ht hs => exact .message ht hs

theorem Denotes.last (h : Denotes S m items cs) (i : Nat) :
    LastOf S m i (lastItem i items) (lastContent i cs) := by
  induction h with
  | nil => exact .none
  | @field m j t c items cs ht hc _ ih =>
    rw [lastItem_cons, lastContent_cons]
    refine ih.or ?_
    by_cases hj : j = i
    · subst hj
      simpa [Item.index] using LastOf.field ht hc
    · simpa [Item.index, hj] using LastOf.none
  | @message m m' j sub items cs' cs ht hs _ _ ih =>
    rw [lastItem_cons, lastContent_cons]
    refine ih.or ?_
    by_cases hj : j = i
    · subst hj
      simpa [Item.index] using LastOf.message ht hs
    · simpa [Item.index, hj] using LastOf.none

/-- A content of a field of the type. -/
def Fits (t : FieldType M) (c : Content M) : Prop :=
  Content.Of t c ∨ ∃ m fs, t = .single (.message m) ∧ c = .value (.object m fs)

theorem Denotes.fits (h : Denotes S m items cs) {i : Nat} {t : FieldType M}
    (ht : (S m).properties[i]? = some t) {c : Content M} (hc : (i, c) ∈ cs) : Fits t c := by
  induction h with
  | nil => cases hc
  | field ht' hc' _ ih =>
    rcases List.mem_cons.mp hc with he | hc
    · cases he
      cases ht.symm.trans ht'
      exact .inl hc'
    · exact ih ht hc
  | message ht' _ _ _ ih =>
    rcases List.mem_cons.mp hc with he | hc
    · cases he
      cases ht.symm.trans ht'
      exact .inr ⟨_, _, rfl, rfl⟩
    · exact ih ht hc

/-! ## Fields that are replaced -/

namespace Content

theorem setField_cons (i : Nat) (c : Nat × Content M) (cs : List (Nat × Content M)) (v : Value M) :
    setField i (c :: cs) v = setField i cs (if c.1 = i then v.write (c.2.apply v) else v) := rfl

/-- The last value that was set is there, or one that is equal for the setter. -/
theorem setField_value {i : Nat} (hv : ∀ c, (i, c) ∈ cs → ∃ w, c = .value w) (v : Value M) :
    match lastContent i cs with
    | none => setField i cs v = v
    | some c => ∃ w, c = .value w ∧ Near (setField i cs v) w := by
  induction cs generalizing v with
  | nil => rfl
  | cons c cs ih =>
    obtain ⟨j, c⟩ := c
    have ih := ih fun c hc => hv c (List.mem_cons_of_mem _ hc)
    rw [setField_cons, lastContent_cons]
    by_cases hj : j = i
    · subst hj
      obtain ⟨w, rfl⟩ := hv c List.mem_cons_self
      have h := ih (v.write w)
      simp only [if_true]
      cases hl : lastContent j cs with
      | none =>
        rw [hl] at h
        refine ⟨w, rfl, ?_⟩
        show Near (setField j cs (v.write w)) w
        rw [h]
        exact near_write v w
      | some c =>
        rw [hl] at h
        exact h
    · simp only [if_neg hj, Option.or_none]
      exact ih v

/-- What becomes of a property of a new message. -/
theorem setAll_new {i : Nat} {t : FieldType M} (ht : (S m).properties[i]? = some t) {c : Value M}
    (hc : (setAll cs (newObject S m))[i]? = some c) : c = setField i cs t.default := by
  rw [setAll_get, newObject, List.getElem?_map, ht] at hc
  exact (Option.some.inj hc).symm

end Content

/-! ## Lists -/

/-- The third list has the elements of the first one, then those of the second. -/
inductive Appended : FieldType M → Value M → Value M → Value M → Prop
  | nums (t : NumType) (vs ws : List (BitVec t.width)) :
    Appended (.nums t) (.nums t vs) (.nums t ws) (.nums t (vs ++ ws))
  | strings (vs ws : List (Option (List UInt16))) :
    Appended .strings (.strings vs) (.strings ws) (.strings (vs ++ ws))
  | byteArrays (vs ws : List (Option Bytes)) :
    Appended .byteArrays (.byteArrays vs) (.byteArrays ws) (.byteArrays (vs ++ ws))
  | enums (vs ws : List (BitVec 32)) : Appended .enums (.enums vs) (.enums ws) (.enums (vs ++ ws))
  | messages (m : M) (vs ws : List (Value M)) :
    Appended (.messages m) (.messages vs) (.messages ws) (.messages (vs ++ ws))

def FieldType.IsList : FieldType M → Prop
  | .nums _ | .strings | .byteArrays | .enums | .messages _ => True
  | _ => False

/-- The types whose records hold a value. -/
def FieldType.Replaced : FieldType M → Prop
  | .single _ | .nums _ => True
  | _ => False

theorem Appended.default {t : FieldType M} {a : Value M} (ht : t.IsList) (ha : HasType S t a) :
    Appended t a t.default a := by
  cases ha with
  | nums t vs =>
    have h := Appended.nums (M := M) t vs []
    rwa [List.append_nil] at h
  | strings vs =>
    have h := Appended.strings (M := M) vs []
    rwa [List.append_nil] at h
  | byteArrays vs =>
    have h := Appended.byteArrays (M := M) vs []
    rwa [List.append_nil] at h
  | enums vs =>
    have h := Appended.enums (M := M) vs []
    rwa [List.append_nil] at h
  | @messages m vs _ =>
    have h := Appended.messages m vs []
    rwa [List.append_nil] at h
  | _ => exact absurd ht id

/-- One content goes to the end of both lists. -/
theorem Appended.write {t : FieldType M} {a b x : Value M} (ht : t.IsList) (hr : ¬ t.Replaced)
    {c : Content M} (hc : Fits t c) (h : Appended t a b x) :
    Appended t a (b.write (c.apply b)) (x.write (c.apply x)) := by
  rcases hc with hc | ⟨m, fs, rfl, -⟩
  · cases hc with
    | string s =>
      cases h with
      | strings vs ws =>
        simp only [Content.apply, Value.toStrings, Value.write_strings]
        rw [List.append_assoc]
        exact .strings vs (ws ++ [s])
    | byteArray s =>
      cases h with
      | byteArrays vs ws =>
        simp only [Content.apply, Value.toByteArrays, Value.write_byteArrays]
        rw [List.append_assoc]
        exact .byteArrays vs (ws ++ [s])
    | enums us =>
      cases h with
      | enums vs ws =>
        simp only [Content.apply, Value.toEnums, Value.write_enums]
        rw [List.append_assoc]
        exact .enums vs (ws ++ us)
    | element m v =>
      cases h with
      | messages m vs ws =>
        simp only [Content.apply, Value.toMessages, Value.write_messages]
        rw [List.append_assoc]
        exact .messages m vs (ws ++ [v])
    | nums t v => exact absurd trivial hr
    | _ => exact absurd ht id
  · exact absurd ht id

theorem Content.setField_appended {t : FieldType M} (ht : t.IsList) (hr : ¬ t.Replaced) {i : Nat}
    (hc : ∀ c, (i, c) ∈ cs → Fits t c) {a b x : Value M} (h : Appended t a b x) :
    Appended t a (setField i cs b) (setField i cs x) := by
  induction cs generalizing b x with
  | nil => exact h
  | cons c cs ih =>
    obtain ⟨j, c⟩ := c
    have ih := @ih fun c hc' => hc c (List.mem_cons_of_mem _ hc')
    rw [setField_cons, setField_cons]
    by_cases hj : j = i
    · subst hj
      simpa using ih (h.write ht hr (hc c List.mem_cons_self))
    · simpa [hj] using ih h

/-- The length of a list or a map. -/
def Value.count : Value M → Nat
  | .nums _ vs => vs.length
  | .strings vs => vs.length
  | .byteArrays vs => vs.length
  | .enums vs => vs.length
  | .messages vs => vs.length
  | .map es => es.length
  | _ => 0

theorem Near.count {v w : Value M} (h : Near v w) : v.count = w.count := by
  rcases h with rfl | h
  · rfl
  · cases v <;> cases w
    case nums.nums =>
      simp only [Value.same, Bool.and_eq_true] at h
      simpa [Value.count] using sameList_length h.2
    case strings.strings | byteArrays.byteArrays =>
      rw [Value.same] at h
      exact sameList_length h
    case map.map =>
      rw [Value.same_map] at h
      exact sameList_length h
    case enums.enums =>
      simp only [Value.same, beq_iff_eq] at h
      rw [h]
    all_goals first | rfl | cases h

theorem Appended.count {t : FieldType M} {a c y : Value M} (h : Appended t a c y) :
    y.count = a.count + c.count := by
  cases h <;> exact List.length_append

/-- To append to an empty list. -/
theorem Appended.of_count {t : FieldType M} {a c y : Value M} (h : Appended t a c y) (ha : a.count = 0) :
    y = c := by
  cases h <;> (rw [List.eq_nil_of_length_eq_zero ha]; rfl)

/-- The elements of the first list make a difference. -/
theorem Appended.near_iff {t : FieldType M} {a c y : Value M} (h : Appended t a c y) :
    Near c y ↔ a.count = 0 := by
  constructor
  · intro hn
    have hc := hn.count
    rw [h.count] at hc
    omega
  · intro ha
    rw [h.of_count ha]
    exact .refl c

theorem exists_appended {t : FieldType M} (ht : t.IsList) {a c : Value M} (ha : HasType S t a)
    (hc : HasType S t c) : ∃ y, Appended t a c y := by
  cases ha with
  | nums t vs => cases hc with | nums t ws => exact ⟨_, .nums t vs ws⟩
  | strings vs => cases hc with | strings ws => exact ⟨_, .strings vs ws⟩
  | byteArrays vs => cases hc with | byteArrays ws => exact ⟨_, .byteArrays vs ws⟩
  | enums vs => cases hc with | enums ws => exact ⟨_, .enums vs ws⟩
  | @messages m vs _ => cases hc with | @messages _ ws _ => exact ⟨_, .messages m vs ws⟩
  | _ => exact absurd ht id

/-! ## Maps -/

/-- An entry with a new key makes the map longer; at a key that is there, the
setter compares the two values. -/
theorem insertPair_same {k : Scalar} {v : Value M} {es : List (Scalar × Value M)}
    (h : sameList sameEntry es (insertPair k v es) = true) : ∃ w, valueOf es k.key = some w ∧ Near w v := by
  induction es with
  | nil => cases sameList_length h
  | cons e es ih =>
    obtain ⟨k', v'⟩ := e
    unfold insertPair at h
    by_cases h₁ : k.key < k'.key
    · rw [if_pos h₁] at h
      have hl := sameList_length h
      simp at hl
    · rw [if_neg h₁] at h
      by_cases h₂ : k'.key < k.key
      · rw [if_pos h₂] at h
        obtain ⟨w, hw, hn⟩ := ih (sameList_cons.mp h).2
        have hne : k'.key ≠ k.key := fun he => List.lt_irrefl _ (he ▸ h₂)
        exact ⟨w, by rw [valueOf_cons, if_neg hne, hw], hn⟩
      · rw [if_neg h₂] at h
        have heq : k'.key = k.key := List.le_antisymm h₁ h₂
        refine ⟨v', by rw [valueOf_cons, if_pos heq], ?_⟩
        obtain ⟨-, hv⟩ := sameEntry_iff.mp (sameList_cons.mp h).1
        rcases hv with ⟨x, y, rfl, rfl, hs⟩ | ⟨x, rfl, rfl⟩
        · exact .inr hs
        · exact .refl _

theorem write_insertPair (k : Scalar) (v : Value M) {es : List (Scalar × Value M)}
    (h : es.Pairwise fun e e' => e.1.key < e'.1.key) :
    ∃ es', (Value.map es).write (.map (insertPair k v es)) = .map es' ∧
      es'.Pairwise (fun e e' => e.1.key < e'.1.key) ∧
      (∃ w, valueOf es' k.key = some w ∧ Near w v) ∧
      ∀ key, k.key ≠ key → valueOf es' key = valueOf es key := by
  unfold Value.write
  by_cases hs : (Value.map es).same (.map (insertPair k v es)) = true
  · rw [if_pos hs]
    rw [Value.same_map] at hs
    exact ⟨es, rfl, h, insertPair_same hs, fun _ _ => rfl⟩
  · rw [if_neg hs]
    refine ⟨_, rfl, insertPair_ordered h, ⟨v, ?_, .refl v⟩, fun key hk => ?_⟩
    · rw [valueOf_insertPair h, if_pos rfl]
    · rw [valueOf_insertPair h, if_neg hk]

/-- The value at a key in the merge of two maps. -/
def MergedEntry (a c x : Option (Value M)) : Prop :=
  match c with
  | some v => ∃ w, x = some w ∧ Near w v
  | none => x = a

/-- Two maps that are ordered, the second one the merge of `as` with the first. -/
structure MergedMaps (as cs xs : List (Scalar × Value M)) : Prop where
  first : cs.Pairwise fun e e' => e.1.key < e'.1.key
  second : xs.Pairwise fun e e' => e.1.key < e'.1.key
  entries : ∀ key, MergedEntry (valueOf as key) (valueOf cs key) (valueOf xs key)

/-- One pair is put into both maps. -/
theorem MergedMaps.write {as es xs : List (Scalar × Value M)} (h : MergedMaps as es xs) (k : Scalar)
    (v : Value M) : ∃ es' xs', (Value.map es).write (.map (insertPair k v es)) = .map es' ∧
      (Value.map xs).write (.map (insertPair k v xs)) = .map xs' ∧ MergedMaps as es' xs' := by
  obtain ⟨es', hes, ho, ⟨w, hw, hn⟩, hrest⟩ := write_insertPair k v h.first
  obtain ⟨xs', hxs, ho', ⟨w', hw', hn'⟩, hrest'⟩ := write_insertPair k v h.second
  refine ⟨es', xs', hes, hxs, ho, ho', fun key => ?_⟩
  by_cases hk : k.key = key
  · subst hk
    rw [hw, hw']
    exact ⟨w', rfl, hn'.trans hn.symm⟩
  · rw [hrest key hk, hrest' key hk]
    exact h.entries key

theorem Content.setField_merged {kt : ScalarType} {vt : SingleType M} {i : Nat}
    (hc : ∀ c, (i, c) ∈ cs → Fits (.map kt vt) c) {as es xs : List (Scalar × Value M)}
    (h : MergedMaps as es xs) : ∃ es' xs', setField i cs (.map es) = .map es' ∧
      setField i cs (.map xs) = .map xs' ∧ MergedMaps as es' xs' := by
  induction cs generalizing es xs with
  | nil => exact ⟨es, xs, rfl, rfl, h⟩
  | cons c cs ih =>
    obtain ⟨j, c⟩ := c
    have ih := @ih fun c hc' => hc c (List.mem_cons_of_mem _ hc')
    rw [setField_cons, setField_cons]
    by_cases hj : j = i
    · subst hj
      rcases hc c List.mem_cons_self with hc | ⟨m, fs, he, -⟩
      · cases hc with
        | pair _ _ k v =>
          obtain ⟨es₁, xs₁, hes, hxs, h₁⟩ := h.write k v
          simpa [Content.apply, Value.toMap, hes, hxs] using ih h₁
      · cases he
    · simpa [hj] using ih h

/-! ## The merge -/

/-- `x` is the merge of `a` and `c`, values of a field of which the second
encoding has the last record `o`. -/
inductive MergedValue (S : Schema M) : FieldType M → Option Item → Value M → Value M → Value M → Prop
  | absent {t : SingleType M} {a c x : Value M} (h : Near x a) : MergedValue S (.single t) none a c x
  | scalar {t : ScalarType} {item : Item} {a c x : Value M} (h : Near x c) :
    MergedValue S (.single (.scalar t)) (some item) a c x
  | enum {item : Item} {a c x : Value M} (h : Near x c) : MergedValue S (.single .enum) (some item) a c x
  | list {t : FieldType M} {o : Option Item} {a c x y : Value M} (hy : Appended t a c y) (h : Near x y) :
    MergedValue S t o a c x
  | map {kt : ScalarType} {vt : SingleType M} {o : Option Item} {as cs xs : List (Scalar × Value M)}
    (h : ∀ key, MergedEntry (valueOf as key) (valueOf cs key) (valueOf xs key)) :
    MergedValue S (.map kt vt) o (.map as) (.map cs) (.map xs)
  | new {m : M} {item : Item} {c x : Value M} (h : Near x c) :
    MergedValue S (.single (.message m)) (some item) (.unset m) c x
  | message {m : M} {i : Nat} {sub : List Item} {fa fc fx : List (Value M)} (hl : fx.length = fc.length)
    (h : ∀ (j : Nat) t a c x, (S m).properties[j]? = some t → fa[j]? = some a → fc[j]? = some c →
      fx[j]? = some x → MergedValue S t (lastItem j sub) a c x) :
    MergedValue S (.single (.message m)) (some (.message i sub)) (.object m fa) (.object m fc) (.object m fx)

/-- `fx` is the merge of the messages `fa` and `fc`, of which the second one has
the encoding `items`. -/
def Merged (S : Schema M) (m : M) (items : List Item) (fa fc fx : List (Value M)) : Prop :=
  fx.length = fc.length ∧ ∀ (i : Nat) t a c x, (S m).properties[i]? = some t → fa[i]? = some a →
    fc[i]? = some c → fx[i]? = some x → MergedValue S t (lastItem i items) a c x

/-- What `a` holds adds nothing to `c`, of which the second encoding has the last
record `o`: a singular field has a record or the default value, a list is empty,
a map has no key of its own, a sub-message is not set or consists of such fields. -/
inductive Overridden (S : Schema M) : FieldType M → Option Item → Value M → Value M → Prop
  | absent {t : SingleType M} {a c : Value M} (h : Near t.default a) : Overridden S (.single t) none a c
  | scalar {t : ScalarType} {item : Item} {a c : Value M} :
    Overridden S (.single (.scalar t)) (some item) a c
  | enum {item : Item} {a c : Value M} : Overridden S (.single .enum) (some item) a c
  | list {t : FieldType M} {o : Option Item} {a c : Value M} (ht : t.IsList)
    (h : a.count = 0) : Overridden S t o a c
  | map {kt : ScalarType} {vt : SingleType M} {o : Option Item} {as cs : List (Scalar × Value M)}
    (h : ∀ key, valueOf cs key = none → valueOf as key = none) :
    Overridden S (.map kt vt) o (.map as) (.map cs)
  | new {m : M} {item : Item} {c : Value M} : Overridden S (.single (.message m)) (some item) (.unset m) c
  | message {m : M} {i : Nat} {sub : List Item} {fa fc : List (Value M)}
    (h : ∀ (j : Nat) t a c, (S m).properties[j]? = some t → fa[j]? = some a → fc[j]? = some c →
      Overridden S t (lastItem j sub) a c) :
    Overridden S (.single (.message m)) (some (.message i sub)) (.object m fa) (.object m fc)

/-- The types whose decoder begins anew. -/
def FieldType.Restarts : FieldType M → Prop
  | .nums _ | .single (.message _) => True
  | _ => False

/-- In the fields whose decoder begins anew, the first message is overridden. -/
def RestartsOverridden (S : Schema M) (m : M) (items : List Item) (fa fc : List (Value M)) : Prop :=
  ∀ (i : Nat) t a c item, (S m).properties[i]? = some t → t.Restarts → lastItem i items = some item →
    fa[i]? = some a → fc[i]? = some c → Overridden S t (some item) a c

/-! ## The two conditions -/

theorem Fits.value {t : FieldType M} (ht : t.Replaced) {c : Content M} (h : Fits t c) :
    ∃ w, c = .value w := by
  rcases h with h | ⟨m, fs, -, rfl⟩
  · cases h with
    | scalar t v => exact ⟨v, rfl⟩
    | enum v => exact ⟨v, rfl⟩
    | nums t v => exact ⟨v, rfl⟩
    | _ => exact absurd ht id
  · exact ⟨_, rfl⟩

section
variable {i : Nat} {t : FieldType M} (hd : Denotes S m items cs) (ht : (S m).properties[i]? = some t)
  (hr : t.Replaced)
include hd ht hr

/-- A property of which there is no record. -/
theorem Denotes.setField_none (hl : lastItem i items = none) (v : Value M) :
    Content.setField i cs v = v := by
  have h := Content.setField_value (fun c hc => (hd.fits ht hc).value hr) v
  have hlast := hd.last i
  rw [hl] at hlast
  generalize lastContent i cs = o at h hlast
  cases hlast
  exact h

/-- A property of which there is one does not depend on what it held. -/
theorem Denotes.setField_some {item : Item} (hl : lastItem i items = some item) (v w : Value M) :
    Near (Content.setField i cs v) (Content.setField i cs w) := by
  have hv := Content.setField_value (fun c hc => (hd.fits ht hc).value hr) v
  have hw := Content.setField_value (fun c hc => (hd.fits ht hc).value hr) w
  have hlast := hd.last i
  rw [hl] at hlast
  cases hc : lastContent i cs with
  | none =>
    rw [hc] at hlast
    cases hlast
  | some c =>
    rw [hc] at hv hw
    obtain ⟨x, hx, hnx⟩ := hv
    obtain ⟨y, hy, hny⟩ := hw
    cases hx.symm.trans hy
    exact hnx.trans hny.symm

end

/-- A singular sub-message of which there is a record. -/
theorem Denotes.setField_message (hd : Denotes S m items cs) {i : Nat} {m' : M}
    (ht : (S m).properties[i]? = some (.single (.message m'))) {item : Item}
    (hl : lastItem i items = some item) : ∃ sub cs', item = .message i sub ∧ Denotes S m' sub cs' ∧
      ∀ v, Content.setField i cs v = .object m' (Content.setAll cs' (newObject S m')) := by
  have hlast := hd.last i
  rw [hl] at hlast
  generalize hc : lastContent i cs = o at hlast
  cases hlast with
  | field ht' hof =>
    cases ht.symm.trans ht'
    cases hof
  | @message m'' sub cs' ht' hs =>
    cases ht.symm.trans ht'
    refine ⟨sub, cs', rfl, hs, fun v => ?_⟩
    have h := Content.setField_value (fun c hc => 
      (hd.fits ht hc).value (show FieldType.Replaced (.single (.message m')) from trivial)) v
    rw [hc] at h
    obtain ⟨w, hw, hn⟩ := h
    cases hw
    exact hn.object

theorem MergedEntry.self_iff {a c : Option (Value M)} : MergedEntry a c c ↔ (c = none → a = none) := by
  cases c with
  | none => exact ⟨fun h _ => h.symm, fun h => (h rfl).symm⟩
  | some v => exact ⟨nofun, fun _ => ⟨v, rfl, .refl v⟩⟩

theorem MergedValue.list_iff {t : FieldType M} {o : Option Item} {a c x y : Value M}
    (hy : Appended t a c y) : MergedValue S t o a c x ↔ Near x y := by
  constructor
  · intro h
    cases hy <;> cases h with
    | list hy h => cases hy; exact h
  · exact fun h => .list hy h

theorem Overridden.list_iff {t : FieldType M} {o : Option Item} {a c y : Value M} (hl : t.IsList)
    (hy : Appended t a c y) : Overridden S t o a c ↔ a.count = 0 := by
  constructor
  · intro h
    cases hy <;> cases h with
    | list _ h => exact h
  · exact .list hl

theorem MergedValue.absent_iff {t : SingleType M} {a c x : Value M} :
    MergedValue S (.single t) none a c x ↔ Near x a := by
  constructor
  · intro h
    cases h with
    | absent h => exact h
    | list hy => cases hy
  · exact .absent

theorem Overridden.absent_iff {t : SingleType M} {a c : Value M} :
    Overridden S (.single t) none a c ↔ Near t.default a := by
  constructor
  · intro h
    cases h with
    | absent h => exact h
    | list hl => exact absurd hl id
  · exact .absent

theorem map_self_iff {kt : ScalarType} {vt : SingleType M} {o : Option Item}
    {as es : List (Scalar × Value M)} : MergedValue S (.map kt vt) o (.map as) (.map es) (.map es) ↔
      Overridden S (.map kt vt) o (.map as) (.map es) := by
  constructor
  · intro h
    cases h with
    | list hy => cases hy
    | map h => exact .map fun key => MergedEntry.self_iff.mp (h key)
  · intro h
    cases h with
    | list hl => exact absurd hl id
    | map h => exact .map fun key => MergedEntry.self_iff.mpr (h key)

/-- **Nothing is added.** A field of the second message is its own merge with
that of the first one exactly if that is overridden; by induction on the
records of the sub-messages. -/
theorem merged_self_iff (hd : Denotes S m items cs) {fa : List (Value M)}
    (ha : HasType S (.single (.message m)) (.object m fa))
    (hc : HasType S (.single (.message m)) (.object m (Content.setAll cs (newObject S m)))) {i : Nat}
    {t : FieldType M} {a c : Value M} (ht : (S m).properties[i]? = some t) (hfa : fa[i]? = some a)
    (hfc : (Content.setAll cs (newObject S m))[i]? = some c) :
    MergedValue S t (lastItem i items) a c c ↔ Overridden S t (lastItem i items) a c := by
  induction hk : sizeOf items using Nat.strongRecOn generalizing m items cs fa i t a c with
  | _ k ih =>
    have hta := ha.get ht hfa
    have htc := hc.get ht hfc
    have hset := Content.setAll_new ht hfc
    cases t with
    | single t =>
      cases hl : lastItem i items with
      | none =>
        have hdefault : c = t.default := hset.trans (hd.setField_none ht trivial hl _)
        rw [MergedValue.absent_iff, Overridden.absent_iff, hdefault]
      | some item =>
        cases t with
        | scalar t => exact ⟨fun _ => .scalar, fun _ => .scalar (.refl c)⟩
        | enum => exact ⟨fun _ => .enum, fun _ => .enum (.refl c)⟩
        | message m' =>
          obtain ⟨sub, cs', rfl, hs, hobj⟩ := hd.setField_message ht hl
          have hlt : sizeOf sub < k := by
            have h := List.sizeOf_lt_of_mem (lastItem_mem hl)
            simp at h
            omega
          rw [hobj] at hset
          subst hset
          cases hta with
          | unset => exact ⟨fun _ => .new, fun _ => .new (.refl _)⟩
          | @object _ fa' hl' hf =>
            have hfields : ∀ (j : Nat) t a c, (S m').properties[j]? = some t → fa'[j]? = some a →
                (Content.setAll cs' (newObject S m'))[j]? = some c →
                  (MergedValue S t (lastItem j sub) a c c ↔ Overridden S t (lastItem j sub) a c) :=
              fun j t a c htj haj hcj => ih _ hlt hs (.object m' hl' hf) htc htj haj hcj rfl
            constructor
            · intro h
              cases h with
              | list hy => cases hy
              | message _ h =>
                exact .message fun j t a c htj haj hcj =>
                  (hfields j t a c htj haj hcj).mp (h j t a c c htj haj hcj hcj)
            · intro h
              cases h with
              | list hl => exact absurd hl id
              | message h =>
                refine .message rfl fun j t a c x htj haj hcj hxj => ?_
                cases hcj.symm.trans hxj
                exact (hfields j t a c htj haj hcj).mpr (h j t a c htj haj hcj)
    | map kt vt =>
      cases hta with
      | map _ _ =>
        cases htc with
        | map _ _ => exact map_self_iff
    | _ =>
      obtain ⟨y, hy⟩ := exists_appended (by trivial) hta htc
      rw [MergedValue.list_iff hy, Overridden.list_iff (by trivial) hy, hy.near_iff]

/-- The merge of the fields whose decoder goes on. -/
theorem merged_of_appends (hd : Denotes S m items cs) {i : Nat} {t : FieldType M}
    (ht : (S m).properties[i]? = some t) (hr : ¬ t.Replaced) {a : Value M} (hta : HasType S t a)
    (ho : a.Ordered) : MergedValue S t (lastItem i items) a (Content.setField i cs t.default)
      (Content.setField i cs a) := by
  cases t with
  | single t => exact absurd trivial hr
  | nums t => exact absurd trivial hr
  | map kt vt =>
    cases hta with
    | @map _ _ as _ _ =>
      have hstart : MergedMaps as [] as := ⟨.nil, ho, fun key => rfl⟩
      obtain ⟨es', xs', hes, hxs, h⟩ := Content.setField_merged (fun c hc => hd.fits ht hc) hstart
      show MergedValue S _ _ _ (Content.setField i cs (.map [])) _
      rw [hes, hxs]
      exact .map h.entries
  | _ =>
    exact .list (Content.setField_appended (by trivial) hr (fun c hc => hd.fits ht hc)
      (Appended.default (by trivial) hta)) (.refl _)

/-- The merge of the fields whose decoder begins anew. -/
theorem merged_iff_of_replaced (hd : Denotes S m items cs) {fa : List (Value M)}
    (ha : HasType S (.single (.message m)) (.object m fa))
    (hc : HasType S (.single (.message m)) (.object m (Content.setAll cs (newObject S m)))) {i : Nat}
    {t : FieldType M} {a c : Value M} (ht : (S m).properties[i]? = some t) (hr : t.Replaced)
    (hfa : fa[i]? = some a) (hfc : (Content.setAll cs (newObject S m))[i]? = some c) :
    MergedValue S t (lastItem i items) a c (Content.setField i cs a) ↔
      (t.Restarts → ∀ item, lastItem i items = some item → Overridden S t (some item) a c) := by
  have hset := Content.setAll_new ht hfc
  have hself := merged_self_iff hd ha hc ht hfa hfc
  have hta := ha.get ht hfa
  cases hl : lastItem i items with
  | none =>
    refine iff_of_true ?_ (fun _ item h => by cases h)
    rw [hd.setField_none ht hr hl]
    cases t with
    | single t => exact .absent (.refl a)
    | nums t =>
      rw [hset, hd.setField_none ht hr hl]
      exact .list (Appended.default (by trivial) hta) (.refl a)
    | _ => exact absurd hr id
  | some item =>
    have hnear := hd.setField_some ht hr hl a t.default
    rw [← hset] at hnear
    rw [hl] at hself
    have hone : (t.Restarts → ∀ item', some item = some item' → Overridden S t (some item') a c) ↔
        (t.Restarts → Overridden S t (some item) a c) := by simp
    rw [hone]
    cases t with
    | single t =>
      cases t with
      | scalar t => exact iff_of_true (.scalar hnear) fun h => absurd h id
      | enum => exact iff_of_true (.enum hnear) fun h => absurd h id
      | message m' =>
        obtain ⟨sub, cs', -, -, hobj⟩ := hd.setField_message ht hl
        rw [hobj] at hset ⊢
        rw [← hset, hself]
        exact ⟨fun h _ => h, fun h => h trivial⟩
    | nums t =>
      obtain ⟨y, hy⟩ := exists_appended (by trivial) hta (hc.get ht hfc)
      rw [MergedValue.list_iff hy, Overridden.list_iff (by trivial) hy, ← hy.near_iff]
      exact ⟨fun h _ => hnear.symm.trans h, fun h => hnear.trans (h trivial)⟩
    | _ => exact absurd hr id

/-- All fields. -/
theorem merged_iff (hd : Denotes S m items cs) {fa : List (Value M)}
    (ha : HasType S (.single (.message m)) (.object m fa)) (ho : ∀ v ∈ fa, v.Ordered)
    (hc : HasType S (.single (.message m)) (.object m (Content.setAll cs (newObject S m)))) :
    Merged S m items fa (Content.setAll cs (newObject S m)) (Content.setAll cs fa) ↔
      RestartsOverridden S m items fa (Content.setAll cs (newObject S m)) := by
  have hx : ∀ {i : Nat} {a : Value M}, fa[i]? = some a →
      (Content.setAll cs fa)[i]? = some (Content.setField i cs a) := by
    intro i a hfa
    rw [Content.setAll_get, hfa]
    rfl
  constructor
  · rintro ⟨-, h⟩ i t a c item ht hr hl hfa hfc
    have hrep : t.Replaced := by
      cases t with
      | single t => trivial
      | nums t => trivial
      | _ => exact absurd hr id
    exact (merged_iff_of_replaced hd ha hc ht hrep hfa hfc).mp (h i t a c _ ht hfa hfc (hx hfa)) hr item hl
  · intro h
    refine ⟨?_, fun i t a c x ht hfa hfc hfx => ?_⟩
    · rw [Content.setAll_length, Content.setAll_length]
      cases ha with
      | object _ hl _ => simp [newObject, hl]
    · cases (hx hfa).symm.trans hfx
      by_cases hrep : t.Replaced
      · exact (merged_iff_of_replaced hd ha hc ht hrep hfa hfc).mpr fun hr item hl =>
          h i t a c item ht hr hl hfa hfc
      · rw [Content.setAll_new ht hfc]
        exact merged_of_appends hd ht hrep (ha.get ht hfa) (ho a (List.mem_of_getElem? hfa))

/-! ## Decoding a concatenation -/

/-- The maps of what is decoded are ordered. -/
theorem Denotes.ordered (hd : Denotes S m items cs)
    (hc : HasType S (.single (.message m)) (.object m (Content.setAll cs (newObject S m)))) :
    ∀ v ∈ Content.setAll cs (newObject S m), v.Ordered := by
  intro v hv
  obtain ⟨i, hi⟩ := List.mem_iff_getElem?.mp hv
  have hset := hi
  rw [Content.setAll_get, newObject, List.getElem?_map] at hset
  cases ht : (S m).properties[i]? with
  | none =>
    rw [ht] at hset
    cases hset
  | some t =>
    rw [ht] at hset
    have hset := Option.some.inj hset
    have hwt := hc.get ht hi
    cases t with
    | map kt vt =>
      have hstart : MergedMaps (M := M) [] [] [] := ⟨.nil, .nil, fun key => rfl⟩
      obtain ⟨es', xs', hes, -, h⟩ := Content.setField_merged (fun c hc => hd.fits ht hc) hstart
      rw [← hset]
      show (Content.setField i cs (.map [])).Ordered
      rw [hes]
      exact h.first
    | _ => cases hwt <;> trivial

theorem RoundsAll.append {β : Type} {body : Nat → Nat → β → Walk Stop Bytes β} {x y z : β} {a b : Bytes}
    (h : RoundsAll body x a y) (h' : RoundsAll body y b z) : RoundsAll body x (a ++ b) z := by
  intro size n hs hn
  rw [List.length_append] at hn
  exact (h size n hs (by omega)).append (h' size n hs (by omega))

/-- What an encoding decodes to, after the records of another one. -/
theorem RoundsAll.decodes {qt : QtCore} {obj : List (Value M)} {data : Bytes}
    (h : RoundsAll (record S qt m) (newObject S m) data obj) (hl : data.length < 2 ^ 31)
    (env : Bytes → Int → UInt8) {n : Nat} (hn : data.length < n) :
    (deserializeMessage S qt env n m (newObject S m) data).2 = (obj, none) :=
  deserializeMessage_ok (h.message hl hn)

/-- **Concatenation.** Two valid encodings, one after the other, decode to the
merge of the two messages if and only if, in each list of numbers and each
singular sub-message that the second one has a record of, the first message is
overridden. -/
theorem concatenation_merges_iff {qt : QtCore} {a b : Bytes} (ha : Valid S (.message m) a)
    (hb : Valid S (.message m) b) (hl : (a ++ b).length < 2 ^ 31) :
    ∃ fa fb fx, (∀ env n, (a ++ b).length < n →
      (deserializeMessage S qt env n m (newObject S m) a).2 = (fa, none) ∧
      (deserializeMessage S qt env n m (newObject S m) b).2 = (fb, none) ∧
      (deserializeMessage S qt env n m (newObject S m) (a ++ b)).2 = (fx, none)) ∧
    ∀ items, Items S m items b → (Merged S m items fa fb fx ↔ RestartsOverridden S m items fa fb) := by
  have hlen : (a ++ b).length = a.length + b.length := List.length_append
  have hnew : (newObject S m).length = (S m).properties.length := by simp [newObject]
  obtain ⟨ia, hia⟩ := ha.items
  obtain ⟨ib, hib⟩ := hb.items
  obtain ⟨ca, hda, hra⟩ : ∃ cs, Denotes S m ia cs ∧ ∀ obj, obj.length = (S m).properties.length →
    RoundsAll (record S qt m) obj a (Content.setAll cs obj) := hia.reads
  obtain ⟨cb, -, hrb⟩ : ∃ cs, Denotes S m ib cs ∧ ∀ obj, obj.length = (S m).properties.length →
    RoundsAll (record S qt m) obj b (Content.setAll cs obj) := hib.reads
  have hra := hra _ hnew
  have hlena : (Content.setAll ca (newObject S m)).length = (S m).properties.length := by
    rw [Content.setAll_length, hnew]
  have hdeca : ∀ env n, (a ++ b).length < n → (deserializeMessage S qt env n m (newObject S m) a).2 =
      (Content.setAll ca (newObject S m), none) := fun env n hn => hra.decodes (by omega) env (by omega)
  have hdecb : ∀ env n, (a ++ b).length < n → (deserializeMessage S qt env n m (newObject S m) b).2 =
      (Content.setAll cb (newObject S m), none) := fun env n hn =>
    (hrb _ hnew).decodes (by omega) env (by omega)
  have hdecx : ∀ env n, (a ++ b).length < n →
      (deserializeMessage S qt env n m (newObject S m) (a ++ b)).2 =
        (Content.setAll cb (Content.setAll ca (newObject S m)), none) := fun env n hn =>
    (hra.append (hrb _ hlena)).decodes hl env hn
  have hn := Nat.lt_succ_self (a ++ b).length
  have hta := deserializeMessage_hasType (hdeca (fun _ _ => 0) _ hn)
  refine ⟨_, _, _, fun env n hn => ⟨hdeca env n hn, hdecb env n hn, hdecx env n hn⟩, fun items hi => ?_⟩
  -- the syntax of the second encoding denotes what it decodes to
  obtain ⟨cs, hd, hr⟩ : ∃ cs, Denotes S m items cs ∧ ∀ obj, obj.length = (S m).properties.length →
    RoundsAll (record S qt m) obj b (Content.setAll cs obj) := hi.reads
  have heqb : Content.setAll cs (newObject S m) = Content.setAll cb (newObject S m) := by
    have h := ((hr _ hnew).decodes (by omega) (fun _ _ => 0) (by omega)).symm.trans
      (hdecb (fun _ _ => 0) _ hn)
    exact congrArg Prod.fst h
  have heqx : Content.setAll cs (Content.setAll ca (newObject S m)) =
      Content.setAll cb (Content.setAll ca (newObject S m)) := by
    have h := ((hra.append (hr _ hlena)).decodes hl (fun _ _ => 0) hn).symm.trans
      (hdecx (fun _ _ => 0) _ hn)
    exact congrArg Prod.fst h
  have htb := deserializeMessage_hasType (hdecb (fun _ _ => 0) _ hn)
  rw [← heqb] at htb ⊢
  rw [← heqx]
  exact merged_iff hd hta (hda.ordered hta) htb

/-- A string of one byte. -/
theorem string_valid (c : UInt8) : Valid (oneFieldSchema .strings) (.message ()) [0x0a, 0x01, c] := by
  show Valid (oneFieldSchema .strings) (.message ()) ([0x0a] ++ [0x01, c] ++ [])
  have hd : Delimited [c] [0x01, c] := ⟨[0x01], show VarintOf 1 [0x01] by decide, by simp, rfl⟩
  exact .known (f := 1) (i := 0) (t := .strings) (by decide) rfl (.strings (.lengthDelimited hd)) .nil

/-- Two strings. -/
theorem concatenation_merges_strings : ∃ fa fb fx, (∀ env n, 6 < n →
      (deserializeMessage (oneFieldSchema .strings) .ascii env n () [.strings []] [0x0a, 0x01, 0x61]).2 =
        (fa, none) ∧
      (deserializeMessage (oneFieldSchema .strings) .ascii env n () [.strings []] [0x0a, 0x01, 0x62]).2 =
        (fb, none) ∧
      (deserializeMessage (oneFieldSchema .strings) .ascii env n () [.strings []]
        [0x0a, 0x01, 0x61, 0x0a, 0x01, 0x62]).2 = (fx, none)) ∧
    ∀ items, Items (oneFieldSchema .strings) () items [0x0a, 0x01, 0x62] →
      Merged (oneFieldSchema .strings) () items fa fb fx := by
  obtain ⟨fa, fb, fx, hdec, h⟩ := @concatenation_merges_iff Unit (oneFieldSchema .strings) () .ascii _ _
    (string_valid 0x61) (string_valid 0x62) (by decide)
  refine ⟨fa, fb, fx, hdec, fun items hi => (h items hi).mpr fun i t a c item ht hr _ _ _ => ?_⟩
  cases i with
  | zero =>
    cases ht
    exact absurd hr id
  | succ i => cases ht

/-- A packed list of one number. -/
theorem packed_valid {c : UInt8} (hc : c.toNat < 128) :
    Valid (oneFieldSchema (.nums .int32)) (.message ()) [0x0a, 0x01, c] := by
  show Valid (oneFieldSchema (.nums .int32)) (.message ()) ([0x0a] ++ [0x01, c] ++ [])
  have hd : Delimited ([c] ++ []) [0x01, c] := ⟨[0x01], show VarintOf 1 [0x01] by decide, by simp, rfl⟩
  have hp : Packed .varint ([c] ++ []) := .cons (.varint ⟨hc, by simp, rfl⟩) .nil
  exact .known (f := 1) (i := 0) (t := .nums .int32) (by decide) rfl (.nums hd hp) .nil

/-- Two packed lists: the elements of the first one are lost. -/
theorem not_concatenation_merges_packed :
    Valid (oneFieldSchema (.nums .int32)) (.message ()) [0x0a, 0x01, 0x01] ∧
    Valid (oneFieldSchema (.nums .int32)) (.message ()) [0x0a, 0x01, 0x02] ∧
    (deserializeMessage (oneFieldSchema (.nums .int32)) .ascii (fun _ _ => 0) 7 () [.nums .int32 []]
      [0x0a, 0x01, 0x01]).2 = ([.nums .int32 [1]], none) ∧
    (deserializeMessage (oneFieldSchema (.nums .int32)) .ascii (fun _ _ => 0) 7 () [.nums .int32 []]
      [0x0a, 0x01, 0x02]).2 = ([.nums .int32 [2]], none) ∧
    (deserializeMessage (oneFieldSchema (.nums .int32)) .ascii (fun _ _ => 0) 7 () [.nums .int32 []]
      [0x0a, 0x01, 0x01, 0x0a, 0x01, 0x02]).2 = ([.nums .int32 [2]], none) ∧
    ∀ items, ¬ Merged (oneFieldSchema (.nums .int32)) () items [.nums .int32 [1]] [.nums .int32 [2]]
      [.nums .int32 [2]] := by
  refine ⟨packed_valid (by decide), packed_valid (by decide), rfl, rfl, rfl, fun items h => ?_⟩
  have hm := h.2 0 (.nums .int32) _ _ _ rfl rfl rfl rfl
  have hy : Appended (.nums .int32) (.nums .int32 [1]) (.nums .int32 [2])
    (.nums .int32 [1, 2] : Value Unit) := .nums .int32 [1] [2]
  exact absurd (hy.near_iff.mp ((MergedValue.list_iff hy).mp hm)) (by decide)

end QtProtobuf.Codec
