import QtProtobuf.L2Codec.FailedDecode

/-!
# A map entry as a message

`deserializeMapPair` has a loop of its own over the parts of an entry
(`protobuf/qprotobufserializer.cpp:327-353`). It takes the part with field
number 1 for the key and any other part for the value, does not look at the
result of `decodeHeader`, and skips nothing. `IsEntry` is the message type that
an entry is an encoding of.

* `entry_loop`: over parts with the field numbers 1 and 2 the loop does what
  the loop of `deserializeMessage` does.
* `map_entry_agrees`: so does `deserializeMapPair`, as long as all headers met
  are of this kind and no length leads back.
-/
namespace QtProtobuf.Codec

open Lib Wire

variable {M : Type}

/-- A message type with the key at field number 1 and the value at 2. -/
structure IsEntry (o : MetaObject M) (kt : ScalarType) (vt : SingleType M) : Prop where
  properties : o.properties = [.single (.scalar kt), .single vt]
  key : o.find 1 = some (0, .single (.scalar kt))
  value : o.find 2 = some (1, .single vt)
  other : ∀ f, f ≠ 1 → f ≠ 2 → o.find f = none

/-- What a part of an entry holds. -/
inductive EntryPart (M : Type) where
  | key (k : Scalar)
  | value (v : Value M)

namespace EntryPart

def toPair (pair : Scalar × Value M) : EntryPart M → Scalar × Value M
  | key k => (k, pair.2)
  | value v => (pair.1, v)

/-- The property at the index of the part is written. -/
def toObject (kt : ScalarType) (vt : SingleType M) (obj : List (Value M)) : EntryPart M → List (Value M)
  | key k => obj.set 0 ((obj.getD 0 (.scalar kt.default)).write (.scalar k))
  | value v => obj.set 1 ((obj.getD 1 vt.default).write v)

end EntryPart

/-- The payload of a part, by field number. -/
def readPart (qt : QtCore) (rec : M → Bytes → Outcome Stop Bytes (List (Value M))) (kt : ScalarType)
    (vt : SingleType M) (f : Nat) : Walk Stop Bytes (EntryPart M) :=
  if f = 1 then Rest.scalar qt kt >>= fun key => pure (.key key)
  else Rest.single qt rec vt >>= fun value => pure (.value value)

/-- A part with its header. -/
def entryPart (qt : QtCore) (rec : M → Bytes → Outcome Stop Bytes (List (Value M))) (kt : ScalarType)
    (vt : SingleType M) : Walk Stop Bytes (EntryPart M) :=
  Rest.header >>= fun header => readPart qt rec kt vt header.2.1

section
variable {S : Schema M} {qt : QtCore} {rec : M → Bytes → Outcome Stop Bytes (List (Value M))}
  {kt : ScalarType} {vt : SingleType M}

theorem mapPart_run (pair : Scalar × Value M) (rest : Bytes) :
    (Rest.mapPart qt rec kt vt pair).run rest =
      (entryPart qt rec kt vt >>= fun part => pure (part.toPair pair)).run rest := by
  show (Rest.header >>= _).run rest = _
  rw [Walk.run_bind, Walk.run_bind, entryPart, Walk.run_bind]
  cases Rest.header.run rest with
  | ok header t =>
    dsimp only [readPart]
    by_cases hf : header.2.1 = 1
    · rw [if_pos hf, if_pos hf, Walk.run_bind, Walk.run_bind]
      cases (Rest.scalar qt kt).run t <;> rfl
    · rw [if_neg hf, if_neg hf, Walk.run_bind, Walk.run_bind]
      cases (Rest.single qt rec vt).run t <;> rfl
  | _ => rfl

/-- A record of an entry with a valid header, of the key or of the value. -/
theorem record_run {me : M} (hme : IsEntry (S me) kt vt) (n size : Nat) (obj : List (Value M)) (rest : Bytes)
    (hh : ∀ res f w t, Rest.header.run rest = .ok (res, f, w) t → res = true ∧ (f = 1 ∨ f = 2)) :
    (record S qt me size n obj).run rest =
      (entryPart qt (Rest.nested S qt n) kt vt >>= fun part => pure (part.toObject kt vt obj)).run
        rest := by
  show (Rest.header >>= _).run rest = _
  rw [Walk.run_bind, Walk.run_bind, entryPart, Walk.run_bind]
  cases hr : Rest.header.run rest with
  | ok header t =>
    obtain ⟨res, f, w⟩ := header
    obtain ⟨rfl, hf⟩ := hh res f w t hr
    show (Rest.field S qt (Rest.nested S qt n) n size me obj f w).run t = _
    unfold Rest.field Reader.field
    dsimp only [readPart]
    rcases hf with rfl | rfl
    · rw [hme.key, if_pos rfl]
      have hs : (Rest.single qt (Rest.nested S qt n) (.scalar kt)).run t =
          (Rest.scalar qt kt >>= fun v => pure (Value.scalar v)).run t := rfl
      show (Rest.single qt (Rest.nested S qt n) (.scalar kt) >>= _).run t = _
      rw [Walk.run_bind, hs, Walk.run_bind, Walk.run_bind]
      cases (Rest.scalar qt kt).run t <;> rfl
    · rw [hme.value, if_neg (by decide)]
      show (Rest.single qt (Rest.nested S qt n) vt >>= _).run t = _
      rw [Walk.run_bind, Walk.run_bind]
      cases (Rest.single qt (Rest.nested S qt n) vt).run t <;> rfl
  | _ => rfl

theorem fieldsAgree_pair {a c x y : Value M} :
    FieldsAgree S [a, c] [x, y] ↔ Agree S a x ∧ Agree S c y := by
  constructor
  · exact fun h => ⟨h.2 0 a x rfl rfl, h.2 1 c y rfl rfl⟩
  · rintro ⟨h, h'⟩
    refine ⟨rfl, fun i c' b hc hb => ?_⟩
    match i with
    | 0 => cases hc; cases hb; exact h
    | 1 => cases hc; cases hb; exact h'
    | i + 2 => cases hc

/-- One part, for the object and for the pair. -/
theorem EntryPart.agrees {obj : List (Value M)} {pair : Scalar × Value M} (part : EntryPart M)
    (h : FieldsAgree S obj [.scalar pair.1, pair.2]) :
    FieldsAgree S (part.toObject kt vt obj) [.scalar (part.toPair pair).1, (part.toPair pair).2] := by
  obtain ⟨a, c, rfl⟩ : ∃ a c, obj = [a, c] := List.length_eq_two.mp h.1
  obtain ⟨hk, hv⟩ := fieldsAgree_pair.mp h
  cases part with
  | key k => exact fieldsAgree_pair.mpr ⟨agree_write a (.scalar k), hv⟩
  | value v => exact fieldsAgree_pair.mpr ⟨hk, agree_write c v⟩

section
variable {size size' : Nat} {tail : Bytes} {rec' : M → Bytes → Outcome Stop Bytes (List (Value M))}

theorem Local.entryPart (hsize : size < 2 ^ 31) (hsize' : size' < 2 ^ 31)
    (hrec : ∀ m array, rec m array = .spent ∨ rec' m array = rec m array) :
    Local size size' tail (entryPart qt rec kt vt) (entryPart qt rec' kt vt) := by
  refine .bind (header hsize') fun header => ?_
  unfold readPart
  split
  · exact .bind (scalar hsize hsize' qt kt) fun _ => .pure _
  · exact .bind (single hsize hsize' hrec vt) fun _ => .pure _

end

/-- The parts met by the reading of `e` have a valid header, with the field
number of the key or of the value. -/
def KeysAndValues (S : Schema M) (qt : QtCore) (me : M) (e : Bytes) (obj : List (Value M)) (rest : Bytes) :
    Prop :=
  ∀ obj' rest', Takes S qt e.length e.length me obj rest obj' rest' →
    ∀ res f w t, Rest.header.run rest' = .ok (res, f, w) t → res = true ∧ (f = 1 ∨ f = 2)

/-- A part that goes beyond the end of the entry is followed by parts that do,
and never by its end. -/
theorem beyond_entry {r tail u : Bytes} {k : Nat} {pair pair' : Scalar × Value M}
    (h : ∀ part t, (entryPart qt rec kt vt).run r = .ok part t → t.length < tail.length) :
    (Rest.mapPart qt rec kt vt pair >>=
      Walk.whileM (Rest.differs tail.length) (Rest.mapPart qt rec kt vt) k).run r ≠ .ok pair' u := by
  intro hr
  obtain ⟨pair₁, t, hp, hloop⟩ := Walk.bind_ok hr
  rw [mapPart_run] at hp
  obtain ⟨part, t', hpart, hpure⟩ := Walk.bind_ok hp
  cases hpure
  have hlt := h part _ hpart
  have hle : u.length ≤ t.length :=
    Walk.NoGrow.whileM (fun pair => (Shrinks.mapPart kt vt pair).noGrow) k _ t pair' u hloop
  have hend := Local.while_end hloop
  omega

/-- **The two loops.** Over the parts of an entry they make related values, or
both do not return. -/
theorem entry_loop {me : M} (hme : IsEntry (S me) kt vt) {e tail : Bytes} {n size : Nat}
    (hn : e.length ≤ n) (hsize : size < 2 ^ 31) (hle : (e ++ tail).length ≤ size) {rest : Bytes}
    {obj : List (Value M)} {pair : Scalar × Value M} (hh : KeysAndValues S qt me e obj rest)
    (hrel : FieldsAgree S obj [.scalar pair.1, pair.2]) (hrest : rest.length ≤ e.length) {k k' : Nat}
    (hk : rest.length < k) (hk' : (rest ++ tail).length < k') :
    match (Walk.whileM (Rest.differs 0) (record S qt me e.length e.length) k obj).run rest with
    | .ok fields _ => ∃ pair',
      (Walk.whileM (Rest.differs tail.length) (Rest.mapPart qt (Rest.nested S qt n) kt vt) k' pair).run
        (rest ++ tail) = .ok pair' tail ∧ FieldsAgree S fields [.scalar pair'.1, pair'.2]
    | .fail _ => ∀ pair' u,
      (Walk.whileM (Rest.differs tail.length) (Rest.mapPart qt (Rest.nested S qt n) kt vt) k' pair).run
        (rest ++ tail) ≠ .ok pair' u
    | _ => True := by
  induction k generalizing rest obj pair k' with
  | zero => omega
  | succ k ih =>
    obtain ⟨k', rfl⟩ : ∃ j, k' = j + 1 := ⟨k' - 1, by omega⟩
    rw [List.length_append] at hle hk'
    have hc : Rest.differs tail.length (rest ++ tail) = Rest.differs 0 rest := by
      have h : Rest.differs (0 + tail.length) (rest ++ tail) = Rest.differs 0 rest :=
        Local.differs_append 0 rest
      rwa [Nat.zero_add] at h
    rw [Walk.run_while, Walk.run_while, hc]
    cases hd : Rest.differs 0 rest with
    | false =>
      have hnil : rest = [] := by
        unfold Rest.differs at hd
        simpa using hd
      subst hnil
      exact ⟨pair, rfl, hrel⟩
    | true =>
      have hlocal : Local e.length size tail (entryPart qt (Rest.nested S qt e.length) kt vt)
          (entryPart qt (Rest.nested S qt n) kt vt) :=
        .entryPart (by omega) hsize fun m array => message_mono hn m (newObject S m) array
      have hagrees := hlocal.agrees rest hrest (by rw [List.length_append]; omega)
      have hrecord : (record S qt me e.length e.length obj).run rest =
          (entryPart qt (Rest.nested S qt e.length) kt vt >>= fun part =>
            pure (part.toObject kt vt obj)).run rest :=
        record_run hme e.length e.length obj rest (hh obj rest (.nil obj rest))
      rw [if_pos rfl, if_pos rfl, Walk.run_bind]
      cases hp : (entryPart qt (Rest.nested S qt e.length) kt vt).run rest with
      | ok part t =>
        rw [hp] at hagrees
        rw [Walk.run_bind_ok hp] at hrecord
        have hpart : (Rest.mapPart qt (Rest.nested S qt n) kt vt pair).run (rest ++ tail) =
            .ok (part.toPair pair) (t ++ tail) := by
          rw [mapPart_run, Walk.run_bind_ok hagrees]
          rfl
        have hlt : t.length < rest.length := Shrinks.property _ _ _ _ _ hrecord
        rw [hrecord, Walk.run_bind_ok hpart]
        have hh' : KeysAndValues S qt me e (part.toObject kt vt obj) t := fun obj' rest' ht =>
          hh obj' rest' (.cons hrecord ht)
        exact ih hh' (part.agrees hrel) (by omega) (by omega) (by rw [List.length_append]; omega)
      | fail e' =>
        rw [hp] at hagrees
        rw [Walk.run_bind, hp] at hrecord
        rw [hrecord]
        exact fun pair' u => beyond_entry hagrees
      | bad =>
        rw [Walk.run_bind, hp] at hrecord
        rw [hrecord]
        trivial
      | spent =>
        rw [Walk.run_bind, hp] at hrecord
        rw [hrecord]
        trivial

/-! ## `deserializeMapPair` -/

/-- `deserializeMapPair` at the length-delimited entry `e` in front of `tail`,
and `deserializeMessage` of `e`: both return the same key and value, the first
one at the end of the entry, or both throw. -/
def EntryAgrees (S : Schema M) (qt : QtCore) (env : Bytes → Int → UInt8) (n : Nat) (b : Buffer)
    (kt : ScalarType) (vt : SingleType M) (me : M) (e : Bytes) (it : Iter) (tail : Bytes) : Prop :=
  ∀ k, e.length < k →
    match ((deserializeMapPair qt (nestedMessage S qt env n) n b kt vt).run it).2,
      (deserializeMessage S qt env k me (newObject S me) e).2 with
    | .ok (pair, it'), (fields, none) => At b it' tail ∧ FieldsAgree S fields [.scalar pair.1, pair.2]
    | .error x, (_, some y) => x ≠ .spent ∧ y ≠ .spent
    | _, _ => False

/-- All headers that the reading of the entry meets are valid and of the key or
of the value, and no length that the reading meets leads back. -/
structure KeyValueEntry (S : Schema M) (qt : QtCore) (n size : Nat) (kt : ScalarType) (vt : SingleType M)
    (me : M) (e p tail : Bytes) : Prop where
  headers : KeysAndValues S qt me e (newObject S me) e
  message : ¬ LeadsBack S qt me (newObject S me) e
  pair : (Rest.mapPair qt (Rest.nested S qt n) n size kt vt).run (p ++ tail) ≠ .bad

/-- The loop behind the length prefix of an entry. -/
theorem mapPair_run {size n : Nat} {e p tail : Bytes} (hd : Delimited e p) (hs : size < 2 ^ 31)
    (hle : (p ++ tail).length ≤ size) : (Rest.mapPair qt rec n size kt vt).run (p ++ tail) =
      (Walk.whileM (Rest.differs tail.length) (Rest.mapPart qt rec kt vt) n (kt.default, vt.default)).run
        (e ++ tail) := by
  obtain ⟨pre, hv, hl, rfl⟩ := hd
  have heq : Rest.mapPair qt rec n size kt vt = (Rest.varint 32 >>= fun count =>
      Rest.plusLength size count >>= fun last =>
        Walk.whileM (Rest.differs last) (Rest.mapPart qt rec kt vt) n (kt.default, vt.default)) := rfl
  rw [heq, counted_run hs (hv.reads_size hs) hl hle]

theorem mapPair_sim (env : Bytes → Int → UInt8) (n : Nat) (b : Buffer) :
    DecSim b Eq (deserializeMapPair qt (nestedMessage S qt env n) n b kt vt)
      (Rest.mapPair qt (Rest.nested S qt n) n b.data.length kt vt) :=
  (Rest.sound b).mapPair (fun m array => follows_message S qt env n m (newObject S m) array)
    (fun kt vt pair => .of_shrinks (Shrinks.mapPart kt vt pair)) kt vt

/-- **Map entries.** With keys and values only, and no length that leads back,
`deserializeMapPair` does what `deserializeMessage` does with the entry. -/
theorem map_entry_agrees {env : Bytes → Int → UInt8} {n : Nat} {b : Buffer} {me : M} {e p tail : Bytes}
    {it : Iter} (hme : IsEntry (S me) kt vt) (hd : Delimited e p) (hat : At b it (p ++ tail))
    (hl : b.data.length < 2 ^ 31) (hn : b.data.length ≤ n)
    (hc : KeyValueEntry S qt n b.data.length kt vt me e p tail) :
    EntryAgrees S qt env n b kt vt me e it tail := by
  intro k hk
  have hle : (p ++ tail).length ≤ b.data.length := by
    obtain ⟨done, hdone⟩ := hat.suffix
    have hlen := congrArg List.length hdone
    rw [List.length_append] at hlen
    omega
  have hlt := hd.length_lt
  have hle' : (e ++ tail).length < b.data.length := by
    rw [List.length_append] at hle ⊢
    omega
  have hde : e.length ≤ n := by
    rw [List.length_append] at hle'
    omega
  have hnew : newObject S me = [.scalar kt.default, vt.default] := by
    unfold newObject
    rw [hme.properties]
    rfl
  have hrel : FieldsAgree S (newObject S me)
      [.scalar (kt.default, vt.default (M := M)).1, (kt.default, vt.default (M := M)).2] := by
    rw [hnew]
    exact fieldsAgree_pair.mpr ⟨.refl _, .refl _⟩
  -- the readings
  have hfuel : (e ++ tail).length < n := by omega
  have hloop := entry_loop hme hde hl (Nat.le_of_lt hle') hc.headers hrel (Nat.le_refl _)
    (Nat.lt_succ_self e.length) hfuel
  have hmessage : Rest.message S qt k me (newObject S me) e =
      Rest.message S qt (e.length + 1) me (newObject S me) e := message_stable hk
  have hspent : (Rest.mapPair qt (Rest.nested S qt n) n b.data.length kt vt).run (p ++ tail) ≠ .spent := by
    have hf : Walk.Finishes List.length b.data.length
        (Rest.mapPair qt (Rest.nested S qt n) n b.data.length kt vt) :=
      Finishes.mapPair (fun m array ha => message_finishes (by omega)) hn kt vt
    exact hf _ hle
  -- the decoders follow them
  have hsim : Matches _ _ _ _ ((deserializeMapPair qt (nestedMessage S qt env n) n b kt vt).run it)
      ((Rest.mapPair qt (Rest.nested S qt n) n b.data.length kt vt).run (p ++ tail)) :=
    mapPair_sim env n b it (p ++ tail) hat
  have hbad := hc.pair
  rw [mapPair_run hd hl hle] at hsim hspent hbad
  rw [← Rest.message_succ] at hloop
  cases hm : Rest.message S qt (e.length + 1) me (newObject S me) e with
  | ok fields t =>
    rw [hm] at hloop hmessage
    obtain ⟨pair, hpair, hrel'⟩ := hloop
    rw [hpair] at hsim
    obtain ⟨-, a, it', hr, rfl, hat'⟩ := hsim
    rw [hr, deserializeMessage_ok hmessage]
    exact ⟨hat', hrel'⟩
  | fail y =>
    rw [hm] at hloop hmessage
    obtain ⟨⟨v, hv⟩, hy⟩ := deserializeMessage_fail hmessage
    rw [hv]
    cases hp : (Walk.whileM (Rest.differs tail.length) (Rest.mapPart qt (Rest.nested S qt n) kt vt) n
        (kt.default, vt.default)).run (e ++ tail) with
    | ok pair u => exact absurd hp (hloop pair u)
    | fail x =>
      rw [hp] at hsim
      obtain ⟨-, hr, hx⟩ := hsim
      rw [hr]
      exact ⟨hx, hy⟩
    | bad => exact absurd hp hbad
    | spent => exact absurd hp hspent
  | bad => exact absurd hm hc.message
  | spent => exact absurd hm (message_finishes (Nat.lt_succ_self e.length))

/-! ## Valid entries -/

/-- A valid entry is a valid encoding of the entry's message. -/
theorem valid_message {me : M} (hme : IsEntry (S me) kt vt) {e : Bytes} (h : Valid S (.entry kt vt) e) :
    Valid S (.message me) e := by
  generalize hx : Part.entry kt vt = x at h
  induction h with
  | entryNil => exact .nil
  | entryKey hh hp _ ih =>
    cases hx
    exact .known hh hme.key (.single (.scalar hp)) (ih rfl)
  | entryValue hh hp _ _ ih =>
    cases hx
    exact .known hh hme.value (.single hp) (ih rfl)
  | _ => cases hx

/-- The headers of a valid entry, wherever the reading of it has come to. -/
theorem valid_headers {me : M} (hme : IsEntry (S me) kt vt) {n size : Nat} (hs : size < 2 ^ 31)
    {e rest : Bytes}
    {obj obj' : List (Value M)} (h : Valid S (.entry kt vt) e) (hle : e.length ≤ size) (hn : e.length ≤ n)
    (ht : Takes S qt n size me obj e obj' rest) {res : Bool} {f : Nat} {w : WireTypes} {t : Bytes}
    (hr : Rest.header.run rest = .ok (res, f, w) t) : res = true ∧ (f = 1 ∨ f = 2) := by
  have hpart : ∀ {i : Nat} {ft : FieldType M} {g : Nat} {hdr p bs : Bytes} {obj : List (Value M)},
      IsHeader g ft.wireType hdr → (S me).find g = some (i, ft) → Valid S (.field ft) p →
      (hdr ++ p ++ bs).length ≤ size → (hdr ++ p ++ bs).length ≤ n → (g = 1 ∨ g = 2) →
      (∀ obj, Takes S qt n size me obj bs obj' rest → res = true ∧ (f = 1 ∨ f = 2)) →
      Takes S qt n size me obj (hdr ++ p ++ bs) obj' rest → res = true ∧ (f = 1 ∨ f = 2) := by
    intro i ft g hdr p bs obj hh hf hp hle hn hg ih ht
    rw [List.length_append, List.length_append] at hn
    have hread : Readable S qt (.field ft) p := hp.reads
    obtain ⟨new, hnew⟩ := hread (obj.getD i ft.default)
    have hrecord := hh.reads_known hf obj hnew size n hs (by rw [List.length_append]; omega) bs hle
    have hheader := hh.reads size n hs (by omega) (p ++ bs) (by rwa [← List.append_assoc])
    cases ht with
    | nil =>
      rw [List.append_assoc, hheader] at hr
      cases hr
      exact ⟨rfl, hg⟩
    | cons hr₁ ht =>
      rw [hrecord] at hr₁
      cases hr₁
      exact ih _ ht
  generalize hx : Part.entry kt vt = x at h
  induction h generalizing obj with
  | entryNil =>
    cases ht with
    | nil => cases hr
    | cons hr₁ => cases hr₁
  | @entryKey kt' vt' hdr p bs hh hp _ ih =>
    cases hx
    rw [List.length_append] at hle hn
    have hp' : Valid S (.field (.single (.scalar kt))) p := .single (.scalar hp)
    refine hpart hh hme.key hp' (by rw [List.length_append]; omega) (by rw [List.length_append]; omega)
      (.inl rfl) (fun obj ht => ih (by omega) (by omega) ht rfl) ht
  | @entryValue kt' vt' hdr p bs hh hp _ _ ih =>
    cases hx
    rw [List.length_append] at hle hn
    refine hpart hh hme.value (.single hp) (by rw [List.length_append]; omega)
      (by rw [List.length_append]; omega) (.inr rfl) (fun obj ht => ih (by omega) (by omega) ht rfl) ht
  | _ => cases hx

/-- **Valid entries** have keys and values only. -/
theorem valid_keyValue {me : M} (hme : IsEntry (S me) kt vt) {n size : Nat} (hs : size < 2 ^ 31)
    {e p tail : Bytes} (h : Valid S (.entry kt vt) e) (hd : Delimited e p) (hle : (p ++ tail).length ≤ size)
    (hn : size ≤ n) : KeyValueEntry S qt n size kt vt me e p tail := by
  have hlt := hd.length_lt
  rw [List.length_append] at hle
  refine ⟨fun obj' rest ht res f w t hr => ?_, fun hback => ?_, fun hbad => ?_⟩
  · exact valid_headers hme (by omega) h (Nat.le_refl _) (Nat.le_refl _) ht hr
  · have hread : Readable S qt (.message me) e := (valid_message hme h).reads
    obtain ⟨obj', hobj'⟩ := hread (newObject S me)
    unfold LeadsBack at hback
    rw [hobj'.message (by omega) (Nat.lt_succ_self _)] at hback
    cases hback
  · have hread : Readable S qt (.entry kt vt) e := h.reads
    obtain ⟨pair, hpair⟩ := hread (kt.default, vt.default)
    have hrun := (hpair size n hs (by omega)).run (show (e ++ tail).length ≤ size by
      rw [List.length_append]; omega) (n := n) (by omega)
    rw [mapPair_run hd hs (by rw [List.length_append]; omega), hrun] at hbad
    cases hbad

end

/-! ## A part of another field -/

/-- The message of an entry. -/
def entryObject (kt : ScalarType) (vt : SingleType M) : MetaObject M where
  properties := [.single (.scalar kt), .single vt]
  propertyOrdering := [(1, 0), (2, 1)]
  distinct := by simp
  inRange := by simp
  indices := .refl _

theorem entryObject_isEntry (kt : ScalarType) (vt : SingleType M) : IsEntry (entryObject kt vt) kt vt := by
  refine ⟨rfl, rfl, rfl, fun f h1 h2 => ?_⟩
  have hb1 : (f == 1) = false := beq_false_of_ne h1
  have hb2 : (f == 2) = false := beq_false_of_ne h2
  unfold MetaObject.find entryObject
  simp [List.lookup_cons, hb1, hb2]

/-- Entries of a map from `int32` to `int32`. -/
def numberEntry : Schema Unit := fun _ => entryObject (.num .int32) (.scalar (.num .int32))

/-- The key 1, and the value 5 in front of it. -/
theorem map_entry_agrees_swapped :
    EntryAgrees numberEntry .ascii (fun _ _ => 0) 5 ⟨[0x04, 0x10, 0x05, 0x08, 0x01], fun _ => 0⟩ (.num .int32)
      (.scalar (.num .int32)) () [0x10, 0x05, 0x08, 0x01]
      (.ofBuffer ⟨[0x04, 0x10, 0x05, 0x08, 0x01], fun _ => 0⟩) [] := by
  have hkey : IsHeader 1 .varint [0x08] := by decide
  have hvalue : IsHeader 2 .varint [0x10] := by decide
  have hone : Payload .varint [0x01] := .varint (show VarintOf 1 [0x01] by decide)
  have hfive : Payload .varint [0x05] := .varint (show VarintOf 5 [0x05] by decide)
  have hd : Delimited [0x10, 0x05, 0x08, 0x01] [0x04, 0x10, 0x05, 0x08, 0x01] :=
    ⟨[0x04], by decide, by decide, rfl⟩
  have hlast : Valid numberEntry (.entry (.num .int32) (.scalar (.num .int32))) ([0x08] ++ [0x01] ++ []) :=
    .entryKey hkey hone .entryNil
  have h : Valid numberEntry (.entry (.num .int32) (.scalar (.num .int32)))
      ([0x10] ++ [0x05] ++ ([0x08] ++ [0x01] ++ [])) := .entryValue hvalue (.scalar hfive) hlast
  exact map_entry_agrees (entryObject_isEntry _ _) hd (At.ofBuffer ⟨[0x04, 0x10, 0x05, 0x08, 0x01], _⟩)
    (by decide) (by decide)
    (valid_keyValue (entryObject_isEntry _ _) (by decide) h hd (by decide) (by decide))

/-- A part with the field number 3 is taken for the value. -/
theorem not_map_entry_agrees_unknown :
    ¬ EntryAgrees numberEntry .ascii (fun _ _ => 0) 5 ⟨[0x04, 0x08, 0x01, 0x18, 0x05], fun _ => 0⟩
      (.num .int32) (.scalar (.num .int32)) () [0x08, 0x01, 0x18, 0x05]
      (.ofBuffer ⟨[0x04, 0x08, 0x01, 0x18, 0x05], fun _ => 0⟩) [] := by
  intro h
  have hagree : FieldsAgree numberEntry [.scalar (.num .int32 1), .scalar (.num .int32 0)]
      [.scalar (.num .int32 1), .scalar (.num .int32 5)] := (h 5 (by decide)).2
  cases (fieldsAgree_pair.mp hagree).2 with
  | same h =>
    cases h with
    | leaf h => cases h
    | pointers hp => cases hp

end QtProtobuf.Codec
