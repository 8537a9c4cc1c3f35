import QtProtobuf.L2Codec.Written

/-!
# Readers of another version of the schema

Writer and reader agree on the type of each field number that both know
(`CompatibleSchemas`); they may lack fields of each other, at any depth, and order their
properties differently. `Seen` is how a value of the writer appears to the reader:
field by field of those that both know, and the default for those that only the
reader knows.

* `Seen.write`, `Seen.insertPair`: the setters keep it.
* `Shared.reads`: both readings of an encoding, side by side, keep it.
* `evolution`: so the reader sees the message that was written.
-/
namespace QtProtobuf.Codec

open Lib Wire

section
variable {M : Type} (S S' : Schema M)

/-- The value of the writer, as the reader sees it. -/
inductive Seen : Value M → Value M → Prop
  | scalar (v : Scalar) : Seen (.scalar v) (.scalar v)
  | enum (v : BitVec 32) : Seen (.enum v) (.enum v)
  | unset (m : M) : Seen (.unset m) (.unset m)
  | object (m : M) {fs fs' : List (Value M)} (hl : fs.length = (S m).properties.length)
    (hl' : fs'.length = (S' m).properties.length)
    (known : ∀ f i i' t v v', (S m).find f = some (i, t) → (S' m).find f = some (i', t) →
      fs[i]? = some v → fs'[i']? = some v' → Seen v v')
    (added : ∀ f i' t, (S m).find f = none → (S' m).find f = some (i', t) → fs'[i']? = some t.default) :
    Seen (.object m fs) (.object m fs')
  | nums (t : NumType) (vs : List (BitVec t.width)) : Seen (.nums t vs) (.nums t vs)
  | strings (vs : List (Option (List UInt16))) : Seen (.strings vs) (.strings vs)
  | byteArrays (vs : List (Option Bytes)) : Seen (.byteArrays vs) (.byteArrays vs)
  | enums (vs : List (BitVec 32)) : Seen (.enums vs) (.enums vs)
  | messages {vs vs' : List (Value M)} (hl : vs.length = vs'.length)
    (h : ∀ p ∈ vs.zip vs', Seen p.1 p.2) : Seen (.messages vs) (.messages vs')
  | map {es es' : List (Scalar × Value M)} (hk : es.map Prod.fst = es'.map Prod.fst)
    (hv : ∀ p ∈ (es.map Prod.snd).zip (es'.map Prod.snd), Seen p.1 p.2) : Seen (.map es) (.map es')

variable {S S'}

/-! ## Defaults -/

theorem seen_default (t : FieldType M) : Seen S S' t.default t.default := by
  cases t with
  | single t =>
    cases t with
    | scalar t => exact .scalar _
    | enum => exact .enum _
    | message m => exact .unset m
  | nums t => exact .nums t []
  | strings => exact .strings []
  | byteArrays => exact .byteArrays []
  | enums => exact .enums []
  | messages m => exact .messages rfl fun p hp => absurd hp List.not_mem_nil
  | map kt vt => exact .map rfl fun p hp => absurd hp List.not_mem_nil

theorem newObject_get {m : M} {i : Nat} {t : FieldType M} (ht : (S m).properties[i]? = some t) :
    (newObject S m)[i]? = some t.default := by
  unfold newObject
  rw [List.getElem?_map, ht]
  rfl

theorem seen_newObject (m : M) : Seen S S' (.object m (newObject S m)) (.object m (newObject S' m)) := by
  refine .object m (List.length_map _) (List.length_map _) (fun f i i' t v v' hf hf' hv hv' => ?_)
    fun f i' t _ hf' => newObject_get (MetaObject.find_mem hf').2
  rw [newObject_get (MetaObject.find_mem hf).2] at hv
  rw [newObject_get (MetaObject.find_mem hf').2] at hv'
  cases hv
  cases hv'
  exact seen_default t

/-! ## Fields -/

variable {m : M} {obj obj' : List (Value M)}

theorem Seen.getD (h : Seen S S' (.object m obj) (.object m obj')) {f i i' : Nat} {t : FieldType M}
    (hf : (S m).find f = some (i, t)) (hf' : (S' m).find f = some (i', t)) :
    Seen S S' (obj.getD i t.default) (obj'.getD i' t.default) := by
  cases h with
  | object m hl hl' known added =>
    have hi : i < obj.length := hl ▸ MetaObject.find_lt hf
    have hi' : i' < obj'.length := hl' ▸ MetaObject.find_lt hf'
    rw [List.getD_eq_getElem?_getD, List.getD_eq_getElem?_getD, List.getElem?_eq_getElem hi,
      List.getElem?_eq_getElem hi']
    exact known f i i' t _ _ hf hf' (List.getElem?_eq_getElem hi) (List.getElem?_eq_getElem hi')

/-- A record of a field that both know. -/
theorem Seen.set (h : Seen S S' (.object m obj) (.object m obj')) {f i i' : Nat} {t : FieldType M}
    (hf : (S m).find f = some (i, t)) (hf' : (S' m).find f = some (i', t)) {w w' : Value M}
    (hw : Seen S S' w w') : Seen S S' (.object m (obj.set i w)) (.object m (obj'.set i' w')) := by
  cases h with
  | object m hl hl' known added =>
    have hi : i < obj.length := hl ▸ MetaObject.find_lt hf
    have hi' : i' < obj'.length := hl' ▸ MetaObject.find_lt hf'
    refine .object m (by rw [List.length_set, hl]) (by rw [List.length_set, hl']) ?_ ?_
    · intro g j j' u v v' hg hg' hv hv'
      by_cases hfg : f = g
      · subst hfg
        rw [hf] at hg
        rw [hf'] at hg'
        cases hg
        cases hg'
        rw [List.getElem?_set_self hi] at hv
        rw [List.getElem?_set_self hi'] at hv'
        cases hv
        cases hv'
        exact hw
      · have hj : i ≠ j := fun he => hfg (MetaObject.find_inj hf (he ▸ hg))
        have hj' : i' ≠ j' := fun he => hfg (MetaObject.find_inj hf' (he ▸ hg'))
        rw [List.getElem?_set_ne hj] at hv
        rw [List.getElem?_set_ne hj'] at hv'
        exact known g j j' u v v' hg hg' hv hv'
    · intro g j' u hg hg'
      have hne : i' ≠ j' := fun he => by
        obtain rfl := MetaObject.find_inj hf' (he ▸ hg')
        rw [hf] at hg
        cases hg
      rw [List.getElem?_set_ne hne]
      exact added g j' u hg hg'

/-- A record of a field that the reader does not know. -/
theorem Seen.set_dropped (h : Seen S S' (.object m obj) (.object m obj')) {f i : Nat} {t : FieldType M}
    (hf : (S m).find f = some (i, t)) (hf' : (S' m).find f = none) (w : Value M) :
    Seen S S' (.object m (obj.set i w)) (.object m obj') := by
  cases h with
  | object m hl hl' known added =>
    refine .object m (by rw [List.length_set, hl]) hl' (fun g j j' u v v' hg hg' hv hv' => ?_) added
    have hj : i ≠ j := fun he => by
      obtain rfl := MetaObject.find_inj hf (he ▸ hg)
      rw [hf'] at hg'
      cases hg'
    rw [List.getElem?_set_ne hj] at hv
    exact known g j j' u v v' hg hg' hv hv'

/-! ## Setters -/

theorem sameEntry_congr {e e' d d' : Scalar × Value M} (hk : e.1 = e'.1) (hv : Seen S S' e.2 e'.2)
    (hk' : d.1 = d'.1) (hv' : Seen S S' d.2 d'.2) : sameEntry e d = sameEntry e' d' := by
  obtain ⟨k, v⟩ := e
  obtain ⟨k', v'⟩ := e'
  obtain ⟨l, w⟩ := d
  obtain ⟨l', w'⟩ := d'
  obtain rfl : k = k' := hk
  obtain rfl : l = l' := hk'
  unfold sameEntry
  cases hv <;> first | rfl | (cases hv' <;> rfl)

theorem sameList_congr {α : Type} {same : α → α → Bool} {R : α → α → Prop} {vs vs' ws ws' : List α}
    (hs : ∀ {v v' w w'}, R v v' → R w w' → same v w = same v' w') (h : List.Forall₂ R vs vs')
    (h' : List.Forall₂ R ws ws') : sameList same vs ws = sameList same vs' ws' := by
  unfold sameList
  rw [h.length_eq, h'.length_eq]
  congr 1
  induction h generalizing ws ws' with
  | nil => rfl
  | cons hv _ ih =>
    cases h' with
    | nil => rfl
    | cons hw h' => rw [List.zip_cons_cons, List.zip_cons_cons, List.all_cons, List.all_cons, hs hv hw, ih h']

/-- The entries of two maps, one by one. -/
abbrev SeenEntries (S S' : Schema M) (es es' : List (Scalar × Value M)) : Prop :=
  List.Forall₂ (fun e e' => e.1 = e'.1 ∧ Seen S S' e.2 e'.2) es es'

theorem SeenEntries.seen {es es' : List (Scalar × Value M)} (h : SeenEntries S S' es es') :
    Seen S S' (.map es) (.map es') := by
  have hk : es.map Prod.fst = es'.map Prod.fst := forall₂_map (h.imp fun _ _ h => h.1)
  have hv : List.Forall₂ (Seen S S') (es.map Prod.snd) (es'.map Prod.snd) :=
    List.forall₂_map_left_iff.mpr (List.forall₂_map_right_iff.mpr (h.imp fun _ _ h => h.2))
  exact .map hk fun p hp => List.forall₂_zip hv hp

theorem Seen.entries {es es' : List (Scalar × Value M)} (h : Seen S S' (.map es) (.map es')) :
    SeenEntries S S' es es' := by
  cases h with
  | map hk hv =>
    have hl : es.length = es'.length := by simpa using congrArg List.length hk
    refine List.forall₂_iff_zip.mpr ⟨hl, fun {e e'} he => ?_⟩
    obtain ⟨i, hi⟩ := List.mem_iff_getElem?.mp he
    obtain ⟨hi, hi'⟩ := List.getElem?_zip_eq_some.mp hi
    have hkey := congrArg (·[i]?) hk
    simp only [List.getElem?_map, hi, hi', Option.map_some, Option.some.injEq] at hkey
    refine ⟨hkey, hv (e.2, e'.2) (List.mem_iff_getElem?.mpr ⟨i, List.getElem?_zip_eq_some.mpr ?_⟩)⟩
    simp only [List.getElem?_map, hi, hi', Option.map_some, and_self]

theorem Seen.same {v v' w w' : Value M} (h : Seen S S' v v') (h' : Seen S S' w w') :
    v.same w = v'.same w' := by
  cases h
  case map es es' hk hv =>
    have he : SeenEntries S S' es es' := Seen.entries (.map hk hv)
    cases h'
    case map ds ds' hk' hv' =>
      have hd : SeenEntries S S' ds ds' := Seen.entries (.map hk' hv')
      rw [Value.same_map, Value.same_map]
      exact sameList_congr (fun hv hw => sameEntry_congr hv.1 hv.2 hw.1 hw.2) he hd
    all_goals rfl
  all_goals cases h' <;> rfl

/-- What a setter leaves, of values that the reader sees. -/
theorem Seen.write {v v' w w' : Value M} (h : Seen S S' v v') (h' : Seen S S' w w') :
    Seen S S' (v.write w) (v'.write w') := by
  unfold Value.write
  rw [h.same h']
  split
  · exact h
  · exact h'

theorem SeenEntries.insertPair {es es' : List (Scalar × Value M)} (h : SeenEntries S S' es es') (k : Scalar)
    {v v' : Value M} (hv : Seen S S' v v') :
    SeenEntries S S' (Codec.insertPair k v es) (Codec.insertPair k v' es') := by
  induction h with
  | nil => exact .cons ⟨rfl, hv⟩ .nil
  | @cons e e' es es' he h ih =>
    obtain ⟨k₁, v₁⟩ := e
    obtain ⟨k₂, v₂⟩ := e'
    obtain ⟨rfl, hv₁⟩ : k₁ = k₂ ∧ Seen S S' v₁ v₂ := he
    rw [Codec.insertPair, Codec.insertPair]
    split
    · exact .cons ⟨rfl, hv⟩ (.cons ⟨rfl, hv₁⟩ h)
    · split
      · exact .cons ⟨rfl, hv₁⟩ ih
      · exact .cons ⟨rfl, hv⟩ h

/-! ## What a list or a map held before -/

theorem Seen.toStrings {v v' : Value M} (h : Seen S S' v v') : v.toStrings = v'.toStrings := by
  cases h <;> rfl

theorem Seen.toByteArrays {v v' : Value M} (h : Seen S S' v v') : v.toByteArrays = v'.toByteArrays := by
  cases h <;> rfl

theorem Seen.toEnums {v v' : Value M} (h : Seen S S' v v') : v.toEnums = v'.toEnums := by
  cases h <;> rfl

theorem Seen.toMessages {v v' : Value M} (h : Seen S S' v v') :
    List.Forall₂ (Seen S S') v.toMessages v'.toMessages := by
  cases h
  case messages hl h => exact List.forall₂_iff_zip.mpr ⟨hl, fun {a b} hab => h (a, b) hab⟩
  all_goals exact .nil

theorem Seen.toMap {v v' : Value M} (h : Seen S S' v v') : SeenEntries S S' v.toMap v'.toMap := by
  cases h
  case map es es' hk hv => exact Seen.entries (.map hk hv)
  all_goals exact .nil

theorem seen_messages {vs vs' : List (Value M)} (h : List.Forall₂ (Seen S S') vs vs') :
    Seen S S' (.messages vs) (.messages vs') :=
  .messages h.length_eq fun _ hp => List.forall₂_zip h hp

/-! ## Two readings -/

variable (S S') in
/-- Both decoders take the part, and what they make of it is the same to the reader. -/
def ReadTwice (qt : QtCore) : Part M → Bytes → Prop
  | .message m, bs => ∀ obj obj', Seen S S' (.object m obj) (.object m obj') →
    ∃ out out', RoundsAll (record S qt m) obj bs out ∧ RoundsAll (record S' qt m) obj' bs out' ∧
      Seen S S' (.object m out) (.object m out')
  | .single t, bs => ∃ v v', ReadsAll (fun _ n => Rest.single qt (Rest.nested S qt n) t) bs v ∧
    ReadsAll (fun _ n => Rest.single qt (Rest.nested S' qt n) t) bs v' ∧ Seen S S' v v'
  | .field t, bs => ∀ previous previous', Seen S S' previous previous' → ∃ v v',
    ReadsAll (fun size n => Rest.value qt (Rest.nested S qt n) n size previous t) bs v ∧
    ReadsAll (fun size n => Rest.value qt (Rest.nested S' qt n) n size previous' t) bs v' ∧ Seen S S' v v'
  | .entry kt vt, bs => ∀ (k : Scalar) v v', Seen S S' v v' → ∃ (l : Scalar) (w w' : Value M),
    RoundsAll (fun _ => part S qt kt vt) (k, v) bs (l, w) ∧
    RoundsAll (fun _ => part S' qt kt vt) (k, v') bs (l, w') ∧ Seen S S' w w'

variable {qt : QtCore}

/-- **Two versions.** The readings of an encoding by the writer and by the reader,
side by side. -/
theorem Shared.reads {x : Part M} {bs : Bytes} (h : Shared S S' x bs) : ReadTwice S S' qt x bs := by
  induction h with
  | scalar h =>
    obtain ⟨v, hv⟩ := h.reads_scalar qt
    exact ⟨_, _, hv.map Value.scalar, hv.map Value.scalar, .scalar v⟩
  | enum h =>
    obtain ⟨v, hv⟩ := Payload.reads_basic (t := .int64) h
    have hr := hv.map fun v => Value.enum (M := M) (v.setWidth 32)
    exact ⟨_, _, hr, hr, .enum _⟩
  | @object m body bs hd _ ih =>
    obtain ⟨fs, fs', hfs, hfs', hs⟩ := ih _ _ (seen_newObject m)
    exact ⟨_, _, hd.reads_object hfs, hd.reads_object hfs', hs⟩
  | single _ ih => exact fun previous previous' _ => ih
  | nums hd h =>
    intro previous previous' _
    obtain ⟨vs, hvs⟩ := hd.reads_list h
    exact ⟨_, _, hvs.map (Value.nums _), hvs.map (Value.nums _), .nums _ vs⟩
  | strings h =>
    intro previous previous' hp
    cases h with
    | lengthDelimited h =>
      have hr := h.reads.map fun v => Value.strings (M := M) (previous.toStrings ++ [some (qt.fromUtf8 v)])
      refine ⟨_, _, hr, ?_, .strings _⟩
      rw [hp.toStrings] at hr ⊢
      exact hr
  | byteArrays h =>
    intro previous previous' hp
    cases h with
    | lengthDelimited h =>
      have hr := h.reads.map fun v => Value.byteArrays (M := M) (previous.toByteArrays ++ [some v])
      refine ⟨_, _, hr, ?_, .byteArrays _⟩
      rw [hp.toByteArrays] at hr ⊢
      exact hr
  | enums hd h =>
    intro previous previous' hp
    obtain ⟨vs, hvs⟩ := hd.reads_list (t := .int64) h
    have hr := hvs.map fun vs => Value.enums (M := M) (previous.toEnums ++ vs.map (·.setWidth 32))
    refine ⟨_, _, hr, ?_, .enums _⟩
    rw [hp.toEnums] at hr ⊢
    exact hr
  | messages _ ih =>
    intro previous previous' hp
    obtain ⟨v, v', hv, hv', hs⟩ := ih
    exact ⟨_, _, hv.map fun v => Value.messages (previous.toMessages ++ [v]),
      hv'.map fun v => Value.messages (previous'.toMessages ++ [v]),
      seen_messages (List.rel_append hp.toMessages (.cons hs .nil))⟩
  | @map kt vt body bs hd _ ih =>
    intro previous previous' hp
    obtain ⟨key, value, value', hr, hr', hs⟩ := ih kt.default vt.default vt.default
      (seen_default (.single vt))
    have hloop := hd.reads_loop hr (fun n _ => n) fun _ _ h => h
    have hloop' := hd.reads_loop hr' (fun n _ => n) fun _ _ h => h
    exact ⟨_, _,
      ReadsAll.map (w := fun size n => Rest.mapPair qt (Rest.nested S qt n) n size kt vt) hloop
        fun pair => Value.map (Codec.insertPair pair.1 pair.2 previous.toMap),
      ReadsAll.map (w := fun size n => Rest.mapPair qt (Rest.nested S' qt n) n size kt vt) hloop'
        fun pair => Value.map (Codec.insertPair pair.1 pair.2 previous'.toMap),
      (hp.toMap.insertPair key hs).seen⟩
  | entryNil => exact fun k v v' hs => ⟨k, v, v', .nil _ _, .nil _ _, hs⟩
  | @entryKey kt vt hdr p bs hh hp _ ih =>
    intro k v v' hs
    obtain ⟨key, hkey⟩ := hp.reads_scalar qt
    obtain ⟨l, w, w', hr, hr', hs'⟩ := ih key v v' hs
    have hne : hdr ++ p ≠ [] := append_ne_nil hh.ne_nil
    refine ⟨l, w, w', .cons (hh.reads_part ?_) hne hr, .cons (hh.reads_part ?_) hne hr', hs'⟩
    · simpa using hkey.map fun key => (key, v)
    · simpa using hkey.map fun key => (key, v')
  | @entryValue kt vt hdr p bs hh _ _ ihp ih =>
    intro k v v' hs
    obtain ⟨value, value', hvalue, hvalue', hs₁⟩ := ihp
    obtain ⟨l, w, w', hr, hr', hs'⟩ := ih k value value' hs₁
    have hne : hdr ++ p ≠ [] := append_ne_nil hh.ne_nil
    refine ⟨l, w, w', .cons (hh.reads_part ?_) hne hr, .cons (hh.reads_part ?_) hne hr', hs'⟩
    · simpa using hvalue.map fun value => (k, value)
    · simpa using hvalue'.map fun value => (k, value)
  | nil => exact fun obj obj' hs => ⟨obj, obj', .nil _ obj, .nil _ obj', hs⟩
  | @unknown m f w hdr p bs hh hf hf' hp _ ih =>
    intro obj obj' hs
    obtain ⟨out, out', hr, hr', hs'⟩ := ih obj obj' hs
    have hne : hdr ++ p ≠ [] := append_ne_nil hh.ne_nil
    exact ⟨out, out', .cons (hh.reads_unknown hf hp obj) hne hr,
      .cons (hh.reads_unknown hf' hp obj') hne hr', hs'⟩
  | @dropped m f i t hdr p bs hh hf hf' hp _ ih =>
    intro obj obj' hs
    have hread : Readable S qt (.field t) p := hp.reads
    obtain ⟨new, hnew⟩ := hread (obj.getD i t.default)
    obtain ⟨out, out', hr, hr', hs'⟩ := ih _ obj' (hs.set_dropped hf hf' _)
    have hne : hdr ++ p ≠ [] := append_ne_nil hh.ne_nil
    exact ⟨out, out', .cons (hh.reads_known hf obj hnew) hne hr,
      .cons (hh.reads_unknown hf' hp.payload obj') hne hr', hs'⟩
  | @known m f i i' t hdr p bs hh hf hf' _ _ ihp ih =>
    intro obj obj' hs
    have hprev := hs.getD hf hf'
    obtain ⟨new, new', hnew, hnew', hs₁⟩ := ihp _ _ hprev
    obtain ⟨out, out', hr, hr', hs'⟩ := ih _ _ (hs.set hf hf' (hprev.write hs₁))
    have hne : hdr ++ p ≠ [] := append_ne_nil hh.ne_nil
    exact ⟨out, out', .cons (hh.reads_known hf obj hnew) hne hr,
      .cons (hh.reads_known hf' obj' hnew') hne hr', hs'⟩

/-- **Schema evolution.** Every message of an acyclic schema has an encoding from
which a compatible reader makes the message as it sees it: the fields that both
know have the values that the writer's own reader gives them, at every depth, and
the fields that only the reader knows have their defaults. -/
theorem evolution [Finite M] (hS : Acyclic S) (hc : CompatibleSchemas S S') {m : M} {fs : List (Value M)}
    (hv : Typed S qt (.single (.message m)) (.object m fs)) :
    ∃ data, (∃ levels, ∀ levels', levels ≤ levels' → serializeMessage S qt levels' m fs = some data) ∧
      (data.length < 2 ^ 31 → ∃ fs' fr, Equal S (.object m fs) (.object m fs') ∧
        Seen S S' (.object m fs') (.object m fr) ∧ ∀ env n, data.length < n →
          (deserializeMessage S qt env n m (newObject S m) data).2 = (fs', none) ∧
          (deserializeMessage S' qt env n m (newObject S' m) data).2 = (fr, none)) := by
  obtain ⟨levels, data, hs⟩ := serializeMessage_total hS hv
  refine ⟨data, ⟨levels, fun levels' h => serializeMessage_mono h hs⟩, fun hl => ?_⟩
  obtain ⟨fs', hread, he⟩ := reads_message hv hs (Nat.lt_succ_self _) hl
  have htwice : ReadTwice S S' qt (.message m) data := (serializeMessage_shared hc hv hs hl).reads
  obtain ⟨out, fr, hr, hr', hseen⟩ := htwice _ _ (seen_newObject m)
  have hout : out = fs' := by
    have h := hr.message hl (Nat.lt_succ_self data.length)
    rw [hread] at h
    cases h
    rfl
  subst hout
  refine ⟨out, fr, he, hseen, fun env n hn => ?_⟩
  exact ⟨deserializeMessage_ok (hr.message hl hn), deserializeMessage_ok (hr'.message hl hn)⟩

end

/-- A version of `nestedSchema` with a list of numbers before the two fields; the
nested message has a number in place of the strings. -/
def evolvedSchema : Schema Bool
  | false =>
    { properties := [.nums .int64, .single (.message true), .single (.scalar (.num .sint32))]
      propertyOrdering := [(1, 2), (7, 0), (2, 1)]
      distinct := by decide
      inRange := by decide
      indices := by decide }
  | true =>
    { properties := [.single (.scalar (.num .fixed32))]
      propertyOrdering := [(6, 0)]
      distinct := by decide
      inRange := by decide
      indices := by decide }

theorem evolvedSchema_compatible : CompatibleSchemas nestedSchema evolvedSchema := by
  intro m f i t i' t' h h'
  obtain ⟨hm, ht⟩ := MetaObject.find_mem h
  obtain ⟨hm', ht'⟩ := MetaObject.find_mem h'
  cases m with
  | false =>
    simp only [nestedSchema, List.mem_cons, Prod.mk.injEq, List.not_mem_nil, or_false] at hm
    simp only [evolvedSchema, List.mem_cons, Prod.mk.injEq, List.not_mem_nil, or_false] at hm'
    obtain ⟨rfl, rfl⟩ | ⟨rfl, rfl⟩ := hm
    · obtain ⟨hf, -⟩ | ⟨hf, -⟩ | ⟨-, rfl⟩ := hm'
      · cases hf
      · cases hf
      · cases ht
        cases ht'
        rfl
    · obtain ⟨-, rfl⟩ | ⟨hf, -⟩ | ⟨hf, -⟩ := hm'
      · cases ht
        cases ht'
        rfl
      · cases hf
      · cases hf
  | true =>
    simp only [nestedSchema, List.mem_singleton, Prod.mk.injEq] at hm
    simp only [evolvedSchema, List.mem_singleton, Prod.mk.injEq] at hm'
    rw [hm.1] at hm'
    cases hm'.1

theorem evolution_nested :
    ∃ data, (∃ levels, ∀ levels', levels ≤ levels' →
        serializeMessage nestedSchema .ascii levels' false nestedFields = some data) ∧
      (data.length < 2 ^ 31 → ∃ fs' fr, Equal nestedSchema (.object false nestedFields) (.object false fs') ∧
        Seen nestedSchema evolvedSchema (.object false fs') (.object false fr) ∧ ∀ env n, data.length < n →
          (deserializeMessage nestedSchema .ascii env n false (newObject nestedSchema false) data).2 =
            (fs', none) ∧
          (deserializeMessage evolvedSchema .ascii env n false (newObject evolvedSchema false) data).2 =
            (fr, none)) :=
  evolution nestedSchema_acyclic evolvedSchema_compatible nestedFields_typed

end QtProtobuf.Codec
