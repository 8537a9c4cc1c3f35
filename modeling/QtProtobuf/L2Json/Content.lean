import QtProtobuf.Core.Folds
import QtProtobuf.L2Json.HandlerRuns
import QtProtobuf.L2Json.Enums

/-!
# A JSON text is read by its content

Two texts of one message: the members that name fields are the same up to their
order, the white space differs, and so do the members that name no field, on all
levels of nesting (`Alike`).

* `handlerLoop_fold`, `runHandler_fold`: the loops over lists and maps as folds.
* `deserializeMember_alike`: alike values are read alike.
* `deserializeMessage_alike`: alike texts are read alike, whatever is in the object.
-/
namespace QtProtobuf.Json

open Lib Lib.Json Codec

variable {M : Type}

/-! ## Alike texts -/

/-- The key that is read from a name. -/
def mapKey (qt : QtJson) (kt : ScalarType) (name : Bytes) : Scalar :=
  orDefault kt.default (deserializeScalar qt kt name .string)

/-- The value is an array with the elements `es`. -/
def IsArrayValue (i : RawValue) (es : List Element) : Prop :=
  (∀ e ∈ es, e.Valid) ∧ ∃ spaces, Spaces spaces ∧ i = ⟨.array, arrayText spaces es⟩

/-- The value is an object with the members `ms`. -/
def IsObjectValue (i : RawValue) (ms : List Member) : Prop :=
  (∀ m ∈ ms, m.Valid) ∧ ∃ spaces, Spaces spaces ∧ i = ⟨.object, objectText spaces ms⟩

/-- A list that is neither one of messages nor a map. -/
def FlatList : FieldType M → Prop
  | .nums _ | .strings | .byteArrays | .enums => True
  | _ => False

mutual

/-- Two values for a field of a type. -/
inductive Alike (S : JsonSchema M) (qt : QtJson) : FieldType M → RawValue → RawValue → Prop
  | same (t : FieldType M) (i : RawValue) : Alike S qt t i i
  | list {t : FieldType M} {i i' : RawValue} {es es' : List Element} (ht : FlatList t)
    (hi : IsArrayValue i es) (hi' : IsArrayValue i' es') (h : es.map (·.item) = es'.map (·.item)) :
    Alike S qt t i i'
  | messages {m : M} {i i' : RawValue} {pairs : List (Element × Element)}
    (hi : IsArrayValue i (pairs.map Prod.fst)) (hi' : IsArrayValue i' (pairs.map Prod.snd))
    (hobject : ∀ p ∈ pairs, p.1.item.kind = .object ∧ p.2.item.kind = .object)
    (h : ∀ p ∈ pairs, Alike S qt (.single (.message m)) p.1.item p.2.item) :
    Alike S qt (.messages m) i i'
  | map {kt : ScalarType} {vt : SingleType M} {i i' : RawValue} {ms ms' : List Member}
    {pairs : List (Member × Member)} (hi : IsObjectValue i ms) (hi' : IsObjectValue i' ms')
    (hms : ms.Perm (pairs.map Prod.fst)) (hms' : ms'.Perm (pairs.map Prod.snd))
    (hname : ∀ p ∈ pairs, p.1.name = p.2.name)
    (hkeys : (pairs.map fun p => (mapKey qt kt p.1.name).key).Nodup)
    (h : ∀ p ∈ pairs, Alike S qt (.single vt) p.1.value.item p.2.value.item) :
    Alike S qt (.map kt vt) i i'
  | message {m : M} {i i' : RawValue} {ms ms' : List Member} (hi : IsObjectValue i ms)
    (hi' : IsObjectValue i' ms') (h : AlikeMembers S qt m ms ms') :
    Alike S qt (.single (.message m)) i i'

/-- The members of two objects of a message type; `known`: those that name a field,
with its index. -/
inductive AlikeMembers (S : JsonSchema M) (qt : QtJson) : M → List Member → List Member → Prop
  | mk {m : M} {ms ms' : List Member} {known : List (Nat × Member × Member)}
    (hnames : (ms.map Member.name).Nodup) (hnames' : (ms'.map Member.name).Nodup)
    (hms : (ms.filter fun x => (findProperty S qt m x.name).isSome).Perm (known.map (·.2.1)))
    (hms' : (ms'.filter fun x => (findProperty S qt m x.name).isSome).Perm (known.map (·.2.2)))
    (hfind : ∀ q ∈ known, findProperty S qt m q.2.1.name = some q.1 ∧
      findProperty S qt m q.2.2.name = some q.1)
    (honce : (known.map Prod.fst).Nodup)
    (h : ∀ q ∈ known, ∀ t, (S.types m).properties[q.1]? = some t →
      Alike S qt t q.2.1.value.item q.2.2.value.item) : AlikeMembers S qt m ms ms'

end

theorem IsArrayValue.isArray {i : RawValue} {es : List Element} (h : IsArrayValue i es) :
    i.kind = .array ∧ IsArray i.raw es := by
  obtain ⟨hes, spaces, hs, rfl⟩ := h
  exact ⟨rfl, hes, [], spaces, [], spaces_nil, hs, spaces_nil, by simp⟩

theorem IsObjectValue.isObject {i : RawValue} {ms : List Member} (h : IsObjectValue i ms) :
    i.kind = .object ∧ IsObject i.raw ms := by
  obtain ⟨hms, spaces, hs, rfl⟩ := h
  exact ⟨rfl, hms, [], spaces, [], spaces_nil, hs, spaces_nil, by simp⟩

/-! ## The loops over lists and maps -/

section
variable {α β γ : Type} {valid : α → Prop} {text : α → Text} {report : α → β} {close o : UInt8}
  {extract : Bytes → Option (β × Nat)} {At : List α → Bytes → Prop}
  {round : Option (Value M) → Bytes → Option (Option (Value M) × Bytes)}
  {decode : β → Option γ} {store : Option (Value M) → γ → Value M}

/-- One part: it is decoded and stored. -/
def storePart (decode : β → Option γ) (store : Option (Value M) → γ → Value M)
    (previous : Option (Value M)) (property : β) : Option (Option (Value M)) :=
  (decode property).map fun x => some (store previous x)

/-- The loop from a position between two parts. -/
theorem handlerLoop_fold (hx : Extracts valid text report close extract At)
    (hround : TakesPart o extract decode store round) (hclose : close ≠ o)
    (hsep : isSpace o = false ∧ o ≠ comma) {parts : List α}
    (htexts : ∀ a ∈ parts, ∃ c s, text a = c :: s ∧ c ≠ o) {b : Bytes} (hat : At parts b) {n : Nat}
    (hn : parts.length + 2 ≤ n) (previous : Option (Value M)) :
    handlerLoop round n previous true b =
      ((parts.map report).foldlM (storePart decode store) previous).map (·, true) := by
  induction parts generalizing b n previous with
  | nil =>
    obtain ⟨n, rfl⟩ : ∃ k, n = k + 2 := ⟨n - 2, by simp at hn; omega⟩
    by_cases hne : b = []
    · rw [hne, handlerLoop_nil]
      rfl
    · -- the round behind the last part
      have hskip : skipBracket o b = b := skipBracket_rest (hx.rest [] b hat) hclose hsep (by simp)
      have hlast : round previous b = some (previous, []) := by
        rw [hround, hskip, hx.done b hat hne]
      rw [handlerLoop_cons hne hlast, handlerLoop_nil]
      rfl
  | cons a parts ih =>
    obtain ⟨n, rfl⟩ : ∃ k, n = k + 1 := ⟨n - 1, by simp at hn; omega⟩
    have hrest := hx.rest _ b hat
    have hskip : skipBracket o b = b := by
      refine skipBracket_rest hrest hclose hsep fun t ht => ?_
      obtain ⟨c, hc, rfl⟩ := List.mem_map.mp ht
      exact htexts c hc
    obtain ⟨i, hi, hextract, hnext⟩ := hx.next a parts b hat
    have hadvance : advance b i = some (b.drop i) := if_pos hi
    have hstep : round previous b =
        (decode (report a)).map fun x => (some (store previous x), b.drop i) := by
      rw [hround, hskip, hextract]
      dsimp only
      rw [hadvance]
      cases decode (report a) <;> rfl
    rw [List.map_cons, List.foldlM_cons, storePart]
    cases hd : decode (report a) with
    | none =>
      rw [hd] at hstep
      rw [handlerLoop, if_neg (Rest.ne_nil hrest), hstep]
      rfl
    | some x =>
      rw [hd] at hstep
      rw [handlerLoop_cons (Rest.ne_nil hrest) hstep,
        ih (fun c hc => htexts c (List.mem_cons_of_mem a hc)) hnext (by simp at hn; omega)]
      rfl

/-- **The loop.** All parts between two brackets, whatever white space there is. -/
theorem runHandler_fold (hx : Extracts valid text report close extract At)
    (hround : TakesPart o extract decode store round) (hclose : close ≠ o)
    (hsep : isSpace o = false ∧ o ≠ comma) {parts : List α} (hvalid : ∀ a ∈ parts, valid a)
    (htexts : ∀ a ∈ parts, ∃ c s, text a = c :: s ∧ c ≠ o) {spaces : Text} (hs : Spaces spaces)
    (ok : Bool) :
    runHandler round ok (o :: (spaces ++ (commas (parts.map text) ++ [close]))) =
      ((parts.map report).foldlM (storePart decode store) none).map (·, true) := by
  generalize hbody : spaces ++ (commas (parts.map text) ++ [close]) = body
  have hat : At parts body := hbody ▸ hx.start spaces parts hs hvalid
  have hne : body ≠ [] := by simp [← hbody]
  have hskip : skipBracket o body = body := by
    refine skipBracket_rest (hx.rest _ body hat) hclose hsep fun t ht => ?_
    obtain ⟨a, ha, rfl⟩ := List.mem_map.mp ht
    exact htexts a ha
  have hfuel : parts.length + 2 ≤ (o :: body).length + 1 := by
    have hnonempty : ∀ t ∈ parts.map text, t ≠ [] := fun t ht => by
      obtain ⟨a, ha, rfl⟩ := List.mem_map.mp ht
      obtain ⟨c, s, hcs, -⟩ := htexts a ha
      rw [hcs]
      exact List.cons_ne_nil c s
    have := length_commas hnonempty
    simp [← hbody] at this ⊢
    omega
  -- the first round sees the bracket; but for that it is a round on the body
  have hopen : skipBracket o (o :: body) = body := by simp [skipBracket]
  have hfirst : round none (o :: body) = round none body := by rw [hround, hround, hopen, hskip]
  have hloop : handlerLoop round ((o :: body).length + 1) none ok (o :: body) =
      handlerLoop round ((o :: body).length + 1) none true body := by
    rw [handlerLoop, handlerLoop, if_neg (List.cons_ne_nil o body), if_neg hne, hfirst]
  show handlerLoop round ((o :: body).length + 1) none ok (o :: body) = _
  rw [hloop, handlerLoop_fold hx hround hclose hsep htexts hat hfuel none]

end

/-! ## Pairs of a map -/

theorem mapKey_of_deserializeMapPair {qt : QtJson} {rec : M → Bytes → Option (List (Value M))}
    {e : MetaEnum} {kt : ScalarType} {vt : SingleType M} {property : Bytes × JsonProperty}
    {pair : Scalar × Value M} (h : deserializeMapPair qt rec e kt vt property = some pair) :
    pair.1 = mapKey qt kt property.1 := by
  simp only [deserializeMapPair, Option.bind_eq_bind, Option.bind_eq_some_iff, Option.pure_def,
    Option.some.injEq] at h
  obtain ⟨value, -, rfl⟩ := h
  rfl

theorem key_cases (k k' : Scalar) : k.key < k'.key ∨ k'.key < k.key ∨ k.key = k'.key := by
  by_cases hlt : k.key < k'.key
  · exact .inl hlt
  · by_cases hgt : k'.key < k.key
    · exact .inr (.inl hgt)
    · exact .inr (.inr (List.le_antisymm (List.not_lt.mp hgt) (List.not_lt.mp hlt)))

theorem insertPair_comm_of_lt {k k' : Scalar} (h : k.key < k'.key) (v v' : Value M)
    (es : List (Scalar × Value M)) :
    insertPair k v (insertPair k' v' es) = insertPair k' v' (insertPair k v es) := by
  induction es with
  | nil => simp [insertPair, h, List.lt_asymm h]
  | cons e es ih =>
    obtain ⟨k₀, v₀⟩ := e
    rcases key_cases k' k₀ with hlt' | hgt' | heq'
    · have hlt := List.lt_trans h hlt'
      simp [insertPair, h, hlt, hlt', List.lt_asymm h]
    · rcases key_cases k k₀ with hlt | hgt | heq
      · simp [insertPair, h, hlt, hgt', List.lt_asymm h, List.lt_asymm hgt']
      · simp [insertPair, hgt, hgt', List.lt_asymm hgt, List.lt_asymm hgt', ih]
      · simp [insertPair, heq, hgt', List.lt_asymm hgt']
    · have hlt : k.key < k₀.key := heq' ▸ h
      simp [insertPair, heq', hlt, List.lt_asymm hlt]

/-- Different keys are inserted in any order. -/
theorem insertPair_comm {k k' : Scalar} (h : k.key ≠ k'.key) (v v' : Value M)
    (es : List (Scalar × Value M)) :
    insertPair k v (insertPair k' v' es) = insertPair k' v' (insertPair k v es) := by
  rcases key_cases k k' with hlt | hgt | heq
  · exact insertPair_comm_of_lt hlt v v' es
  · exact (insertPair_comm_of_lt hgt v' v es).symm
  · exact absurd heq h

/-! ## Values -/

theorem IsArrayValue.ne_null {i : RawValue} {es : List Element} (h : IsArrayValue i es) :
    i.raw ≠ [] ∧ i.raw ≠ nullText := by
  obtain ⟨-, spaces, -, rfl⟩ := h
  simp [arrayText, nullText, openBracket]

theorem IsObjectValue.ne_null {i : RawValue} {ms : List Member} (h : IsObjectValue i ms) :
    i.raw ≠ [] ∧ i.raw ≠ nullText := by
  obtain ⟨-, spaces, -, rfl⟩ := h
  simp [objectText, nullText, openBrace]

section
variable {S : JsonSchema M} {mj : MicroJson} {qt : QtJson} {rec : M → Bytes → Option (List (Value M))}
  {i i' : RawValue} {t : FieldType M}

theorem Alike.kind (h : Alike S qt t i i') : i.kind = i'.kind := by
  cases h with
  | same => rfl
  | list _ hi hi' _ => rw [hi.isArray.1, hi'.isArray.1]
  | messages hi hi' _ _ => rw [hi.isArray.1, hi'.isArray.1]
  | map hi hi' _ _ _ _ _ => rw [hi.isObject.1, hi'.isObject.1]
  | message hi hi' _ => rw [hi.isObject.1, hi'.isObject.1]

theorem Alike.null (h : Alike S qt t i i') : i.raw = nullText ↔ i'.raw = nullText := by
  cases h with
  | same => exact Iff.rfl
  | list _ hi hi' _ => exact iff_of_false hi.ne_null.2 hi'.ne_null.2
  | messages hi hi' _ _ => exact iff_of_false hi.ne_null.2 hi'.ne_null.2
  | map hi hi' _ _ _ _ _ => exact iff_of_false hi.ne_null.2 hi'.ne_null.2
  | message hi hi' _ => exact iff_of_false hi.ne_null.2 hi'.ne_null.2

/-- `rec` reads alike texts alike. -/
def ReadsAlike (S : JsonSchema M) (qt : QtJson) (rec : M → Bytes → Option (List (Value M))) : Prop :=
  ∀ m text text' ms ms', IsObject text ms → IsObject text' ms' → AlikeMembers S qt m ms ms' →
    rec m text = rec m text'

theorem runHandler_object (m : M) {data : Bytes} (hne : data ≠ []) (ok : Bool) :
    runHandler (objectRound rec m) ok data =
      (rec m data).map fun fields => (some (.object m fields), true) := by
  cases hr : rec m data with
  | none =>
    have hround : objectRound rec m none data = none := by rw [objectRound, hr]; rfl
    rw [runHandler_fails hne hround]
    rfl
  | some fields =>
    have hround : objectRound rec m none data = some (some (.object m fields), []) := by
      rw [objectRound, hr]
      rfl
    rw [runHandler_once hne hround]
    rfl

theorem deserializeSingle_alike (hrec : ReadsAlike S qt rec) (e : MetaEnum) {t : SingleType M}
    (h : Alike S qt (.single t) i i') (ok : Bool) :
    deserializeSingle qt rec e t i.raw (jsonType i.kind) ok =
      deserializeSingle qt rec e t i'.raw (jsonType i'.kind) ok := by
  cases h with
  | same => rfl
  | list ht _ _ _ => cases ht
  | @message m _ _ ms ms' hi hi' h =>
    show runHandler (objectRound rec m) ok i.raw = runHandler (objectRound rec m) ok i'.raw
    rw [runHandler_object m hi.ne_null.1, runHandler_object m hi'.ne_null.1,
      hrec m _ _ ms ms' hi.isObject.2 hi'.isObject.2 h]

/-- The array is parsed alike. -/
theorem parseJsonArray_alike (hp : mj.Parses) {es es' : List Element} (hi : IsArrayValue i es)
    (hi' : IsArrayValue i' es') (h : es.map (·.item) = es'.map (·.item)) :
    mj.parseJsonArray i.raw = mj.parseJsonArray i'.raw := by
  have hreport : ∀ l : List Element, l.map reportElement = (l.map (·.item)).map reportValue := fun l => by
    rw [List.map_map]
    rfl
  rw [hp.array _ _ hi.isArray.2, hp.array _ _ hi'.isArray.2, hreport, hreport, h]

theorem runHandler_enumList (e : MetaEnum) {data : Bytes} (hne : data ≠ []) (ok : Bool) :
    runHandler (M := M) (enumListRound mj e) ok data =
      some (some (.enums ((deserializeEnumList mj e data).map (·.setWidth 32))), true) :=
  runHandler_once hne rfl ok

theorem deserializeList_alike (hp : mj.Parses) (e : MetaEnum) (ht : FlatList t) {es es' : List Element}
    (hi : IsArrayValue i es) (hi' : IsArrayValue i' es') (h : es.map (·.item) = es'.map (·.item)) :
    deserializeValue mj qt rec e t i.raw .array = deserializeValue mj qt rec e t i'.raw .array := by
  have hparse := parseJsonArray_alike hp hi hi' h
  cases t with
  | nums t => simp only [deserializeValue, deserializeNumList, deserializeElements, hparse]
  | strings => simp only [deserializeValue, deserializeStringList, deserializeElements, hparse]
  | byteArrays => simp only [deserializeValue, deserializeBytesList, deserializeElements, hparse]
  | enums =>
    simp only [deserializeValue, runHandler_enumList e hi.ne_null.1, runHandler_enumList e hi'.ne_null.1,
      deserializeEnumList, hparse]
  | single t => cases ht
  | messages m => cases ht
  | map kt vt => cases ht

theorem runHandler_listRound (hp : mj.Parses) (m : M) {es : List Element} (hi : IsArrayValue i es)
    (hobject : ∀ e ∈ es, e.item.kind = .object) (ok : Bool) : runHandler (listRound mj rec m) ok i.raw =
      ((es.map reportElement).foldlM (storePart (fun property => rec m property.value)
        fun previous fields => .messages ((previous.map Value.toMessages).getD [] ++ [.object m fields]))
        none).map (·, true) := by
  obtain ⟨At, hx⟩ := hp.elements
  obtain ⟨hes, spaces, hs, rfl⟩ := hi
  refine runHandler_fold hx (listRound_takesPart rec mj m) (by decide) (by decide) hes (fun e he => ?_)
    hs ok
  obtain ⟨-, s, htext⟩ := openBrace_of_object (hes e he).2 (hobject e he)
  obtain ⟨⟨hbefore, -⟩, -⟩ := hes e he
  cases hb : e.before with
  | nil => exact ⟨openBrace, s ++ e.after, by rw [Element.text, hb, htext]; rfl, by decide⟩
  | cons c before =>
    refine ⟨c, before ++ (e.item.text ++ e.after), by rw [Element.text, hb]; rfl, ?_⟩
    rintro rfl
    exact absurd (hbefore openBracket (hb ▸ List.mem_cons_self)) (by decide)

theorem runHandler_mapRound (hp : mj.Parses) (e : MetaEnum) (kt : ScalarType) (vt : SingleType M)
    {ms : List Member} (hi : IsObjectValue i ms) (ok : Bool) :
    runHandler (mapRound mj qt rec e kt vt) ok i.raw =
      ((ms.map reportMember).foldlM (storePart (deserializeMapPair qt rec e kt vt)
        fun previous pair => .map (insertPair pair.1 pair.2 ((previous.map Value.toMap).getD [])))
        none).map (·, true) := by
  obtain ⟨At, hx⟩ := hp.members
  obtain ⟨hms, spaces, hs, rfl⟩ := hi
  refine runHandler_fold hx (mapRound_takesPart qt rec e mj kt vt) (by decide) (by decide) hms
    (fun m hm => ?_) hs ok
  obtain ⟨⟨hbefore, -⟩, -⟩ := hms m hm
  cases hb : m.before with
  | nil => exact ⟨quote, _, by rw [Member.text, hb]; rfl, by decide⟩
  | cons c before =>
    refine ⟨c, _, by rw [Member.text, hb]; rfl, ?_⟩
    rintro rfl
    exact absurd (hbefore openBrace (hb ▸ List.mem_cons_self)) (by decide)

/-- Two pairs of a map with different keys. -/
theorem storePair_comm (e : MetaEnum) {kt : ScalarType} {vt : SingleType M} {a b : Bytes × JsonProperty}
    (h : (mapKey qt kt a.1).key ≠ (mapKey qt kt b.1).key) (previous : Option (Value M)) :
    let step := storePart (deserializeMapPair qt rec e kt vt) fun previous pair =>
      .map (insertPair pair.1 pair.2 ((previous.map Value.toMap).getD []))
    (step previous a >>= (step · b)) = (step previous b >>= (step · a)) := by
  dsimp only [storePart]
  cases ha : deserializeMapPair qt rec e kt vt a with
  | none => cases deserializeMapPair qt rec e kt vt b <;> rfl
  | some x =>
    cases hb : deserializeMapPair qt rec e kt vt b with
    | none => rfl
    | some y =>
      have hkey : x.1.key ≠ y.1.key := by
        rw [mapKey_of_deserializeMapPair ha, mapKey_of_deserializeMapPair hb]
        exact h
      have hcomm := insertPair_comm hkey x.2 y.2 ((previous.map Value.toMap).getD [])
      simp [Value.toMap, hcomm]

/-- The pairs of a map in any order. -/
theorem foldlM_storePair_perm (e : MetaEnum) {kt : ScalarType} (vt : SingleType M) {ms ms' : List Member}
    (h : ms.Perm ms') (hkeys : (ms.map fun m => (mapKey qt kt m.name).key).Nodup) :
    (ms.map reportMember).foldlM (storePart (deserializeMapPair qt rec e kt vt) fun previous pair =>
        .map (insertPair pair.1 pair.2 ((previous.map Value.toMap).getD []))) none =
      (ms'.map reportMember).foldlM (storePart (deserializeMapPair qt rec e kt vt) fun previous pair =>
        .map (insertPair pair.1 pair.2 ((previous.map Value.toMap).getD []))) none := by
  refine foldlM_perm (h.map reportMember) (fun a ha b hb previous => ?_) none
  obtain ⟨m, hm, rfl⟩ := List.mem_map.mp ha
  obtain ⟨m', hm', rfl⟩ := List.mem_map.mp hb
  by_cases hkey : (mapKey qt kt m.name).key = (mapKey qt kt m'.name).key
  · rw [List.inj_on_of_nodup_map hkeys hm hm' hkey]
  · exact storePair_comm e hkey previous

theorem rec_alike (hrec : ReadsAlike S qt rec) {m : M} (h : Alike S qt (.single (.message m)) i i') :
    rec m i.raw = rec m i'.raw := by
  cases h with
  | same => rfl
  | list ht _ _ _ => cases ht
  | @message _ _ _ ms ms' hi hi' h => exact hrec m _ _ ms ms' hi.isObject.2 hi'.isObject.2 h

theorem deserializeMapPair_alike (hrec : ReadsAlike S qt rec) (e : MetaEnum) (kt : ScalarType)
    {vt : SingleType M} {m m' : Member} (hname : m.name = m'.name)
    (h : Alike S qt (.single vt) m.value.item m'.value.item) :
    deserializeMapPair qt rec e kt vt (reportMember m) =
      deserializeMapPair qt rec e kt vt (reportMember m') := by
  have hvalue := deserializeSingle_alike hrec e h
  simp only [deserializeMapPair, reportMember, reportElement, reportValue, hname, hvalue]
  rfl

/-- **Alike values** are read alike. -/
theorem deserializeValue_alike (hp : mj.Parses) (hrec : ReadsAlike S qt rec) (e : MetaEnum)
    (h : Alike S qt t i i') : deserializeValue mj qt rec e t i.raw (jsonType i.kind) =
      deserializeValue mj qt rec e t i'.raw (jsonType i'.kind) := by
  cases h with
  | same => rfl
  | list ht hi hi' h =>
    rw [hi.isArray.1, hi'.isArray.1]
    exact deserializeList_alike hp e ht hi hi' h
  | @messages m _ _ pairs hi hi' hobject h =>
    show runHandler (listRound mj rec m) false i.raw = runHandler (listRound mj rec m) false i'.raw
    have hfst : ∀ e ∈ pairs.map Prod.fst, e.item.kind = .object := fun e he => by
      obtain ⟨p, hpm, rfl⟩ := List.mem_map.mp he
      exact (hobject p hpm).1
    have hsnd : ∀ e ∈ pairs.map Prod.snd, e.item.kind = .object := fun e he => by
      obtain ⟨p, hpm, rfl⟩ := List.mem_map.mp he
      exact (hobject p hpm).2
    rw [runHandler_listRound hp m hi hfst, runHandler_listRound hp m hi' hsnd, List.map_map, List.map_map]
    congr 1
    refine foldlM_pairs (fun p hpm previous => ?_) none
    show (rec m p.1.item.raw).map _ = (rec m p.2.item.raw).map _
    rw [rec_alike hrec (h p hpm)]
  | @map kt vt _ _ ms ms' pairs hi hi' hms hms' hname hkeys h =>
    show runHandler (mapRound mj qt rec e kt vt) false i.raw =
      runHandler (mapRound mj qt rec e kt vt) false i'.raw
    have hfst : (ms.map fun m => (mapKey qt kt m.name).key).Nodup := by
      rw [(hms.map _).nodup_iff, List.map_map]
      exact hkeys
    have hsnd : (ms'.map fun m => (mapKey qt kt m.name).key).Nodup := by
      rw [(hms'.map _).nodup_iff, List.map_map]
      refine (List.map_congr_left fun p hpm => ?_) ▸ hkeys
      exact congrArg (fun name => (mapKey qt kt name).key) (hname p hpm)
    rw [runHandler_mapRound hp e kt vt hi, runHandler_mapRound hp e kt vt hi',
      foldlM_storePair_perm e vt hms hfst, foldlM_storePair_perm e vt hms' hsnd, List.map_map, List.map_map]
    congr 1
    refine foldlM_pairs (fun p hpm previous => ?_) none
    show (deserializeMapPair qt rec e kt vt (reportMember p.1)).map _ =
      (deserializeMapPair qt rec e kt vt (reportMember p.2)).map _
    rw [deserializeMapPair_alike hrec e kt (hname p hpm) (h p hpm)]
  | message hi hi' h =>
    exact deserializeSingle_alike hrec e (.message hi hi' h) false

theorem deserializeMember_alike (hp : mj.Parses) (hrec : ReadsAlike S qt rec) (e : MetaEnum)
    (h : Alike S qt t i i') (old : Value M) :
    deserializeMember mj qt rec e t old (reportValue i) =
      deserializeMember mj qt rec e t old (reportValue i') := by
  have hvalue := deserializeValue_alike hp hrec e h
  have hnull : ((reportValue i).value = nullText ∧ (reportValue i).type = .object) =
      ((reportValue i').value = nullText ∧ (reportValue i').type = .object) := by
    show (i.raw = nullText ∧ jsonType i.kind = .object) = (i'.raw = nullText ∧ jsonType i'.kind = .object)
    rw [h.kind, propext h.null]
  unfold deserializeMember
  simp only [hnull]
  split
  · rfl
  · show (deserializeValue mj qt rec e t i.raw (jsonType i.kind) >>= _) =
      (deserializeValue mj qt rec e t i'.raw (jsonType i'.kind) >>= _)
    rw [hvalue]

/-! ## Messages -/

/-- What a member that names the field `i` writes there. -/
def writtenValue (S : JsonSchema M) (mj : MicroJson) (qt : QtJson)
    (rec : M → Bytes → Option (List (Value M))) (m : M) (i : Nat) (object : List (Value M))
    (property : JsonProperty) : Option (Value M) := do
  let type ← (S.types m).properties[i]?
  let old ← object[i]?
  deserializeMember mj qt rec (S.metaEnum m i) type old property

theorem deserializeProperty_some {m : M} {property : Bytes × JsonProperty} {i : Nat}
    (h : findProperty S qt m property.1 = some i) (object : List (Value M)) :
    deserializeProperty S mj qt rec m object property =
      (writtenValue S mj qt rec m i object property.2).map (object.set i) := by
  unfold deserializeProperty writtenValue
  rw [h]
  dsimp only
  cases (S.types m).properties[i]? with
  | none => rfl
  | some type =>
    cases object[i]? with
    | none => rfl
    | some old => exact Option.map_eq_bind.symm

theorem writtenValue_set {m : M} {i j : Nat} (h : i ≠ j) (object : List (Value M)) (v : Value M)
    (property : JsonProperty) : writtenValue S mj qt rec m j (object.set i v) property =
      writtenValue S mj qt rec m j object property := by
  unfold writtenValue
  rw [List.getElem?_set_ne h]

/-- Members that name different fields. -/
theorem deserializeProperty_comm {m : M} {a b : Bytes × JsonProperty} {i j : Nat}
    (ha : findProperty S qt m a.1 = some i) (hb : findProperty S qt m b.1 = some j) (h : i ≠ j)
    (object : List (Value M)) :
    (deserializeProperty S mj qt rec m object a >>= (deserializeProperty S mj qt rec m · b)) =
      (deserializeProperty S mj qt rec m object b >>= (deserializeProperty S mj qt rec m · a)) := by
  rw [deserializeProperty_some ha, deserializeProperty_some hb]
  cases hv : writtenValue S mj qt rec m i object a.2 with
  | none =>
    cases hw : writtenValue S mj qt rec m j object b.2 with
    | none => rfl
    | some w =>
      show none = deserializeProperty S mj qt rec m (object.set j w) a
      rw [deserializeProperty_some ha, writtenValue_set h.symm, hv]
      rfl
  | some v =>
    show deserializeProperty S mj qt rec m (object.set i v) b = _
    rw [deserializeProperty_some hb, writtenValue_set h]
    cases hw : writtenValue S mj qt rec m j object b.2 with
    | none => rfl
    | some w =>
      show some _ = deserializeProperty S mj qt rec m (object.set j w) a
      rw [deserializeProperty_some ha, writtenValue_set h.symm, hv, List.set_comm _ _ h]
      rfl

/-- Only the members that name a field count, in any order. -/
theorem foldlM_known {m : M} {ms : List Member} {known : List (Nat × Member)}
    (hms : (ms.filter fun x => (findProperty S qt m x.name).isSome).Perm (known.map Prod.snd))
    (hfind : ∀ q ∈ known, findProperty S qt m q.2.name = some q.1) (honce : (known.map Prod.fst).Nodup)
    {properties : List (Bytes × JsonProperty)} (hp : properties.Perm (ms.map reportMember))
    (object : List (Value M)) :
    properties.foldlM (deserializeProperty S mj qt rec m) object =
      (known.map fun q => reportMember q.2).foldlM (deserializeProperty S mj qt rec m) object := by
  have hskip : ∀ (a : Bytes × JsonProperty) (object : List (Value M)),
      (findProperty S qt m a.1).isSome = false →
        deserializeProperty S mj qt rec m object a = some object := by
    intro a object ha
    unfold deserializeProperty
    rw [Option.isNone_iff_eq_none.mp (Option.isSome_eq_false_iff.mp ha)]
  rw [← foldlM_skip hskip]
  have hperm : (properties.filter fun a => (findProperty S qt m a.1).isSome).Perm
      (known.map fun q => reportMember q.2) := by
    refine (hp.filter _).trans ?_
    rw [List.filter_map]
    have := hms.map reportMember
    rwa [List.map_map] at this
  refine foldlM_perm hperm (fun a ha b hb object => ?_) object
  obtain ⟨p, hpm, rfl⟩ := List.mem_map.mp (hperm.mem_iff.mp ha)
  obtain ⟨q, hqm, rfl⟩ := List.mem_map.mp (hperm.mem_iff.mp hb)
  by_cases hpq : p.1 = q.1
  · rw [List.inj_on_of_nodup_map honce hpm hqm hpq]
  · exact deserializeProperty_comm (hfind p hpm) (hfind q hqm) hpq object

/-- **One level.** -/
theorem foldlM_alike (hp : mj.Parses) (hrec : ReadsAlike S qt rec) {m : M} {text text' : Bytes}
    {ms ms' : List Member} (ho : IsObject text ms) (ho' : IsObject text' ms')
    (h : AlikeMembers S qt m ms ms') (object : List (Value M)) :
    (mj.parseJsonObject text).foldlM (deserializeProperty S mj qt rec m) object =
      (mj.parseJsonObject text').foldlM (deserializeProperty S mj qt rec m) object := by
  cases h with
  | @mk _ _ _ known hnames hnames' hms hms' hfind honce h =>
    have hfst : (known.map fun q => (q.1, q.2.1)).map Prod.snd = known.map (·.2.1) := by
      rw [List.map_map]
      rfl
    have hsnd : (known.map fun q => (q.1, q.2.2)).map Prod.snd = known.map (·.2.2) := by
      rw [List.map_map]
      rfl
    have honce₁ : ((known.map fun q => (q.1, q.2.1)).map Prod.fst).Nodup := by
      rw [List.map_map]
      exact honce
    have honce₂ : ((known.map fun q => (q.1, q.2.2)).map Prod.fst).Nodup := by
      rw [List.map_map]
      exact honce
    rw [foldlM_known (hfst ▸ hms) (fun q hq => ?_) honce₁ (hp.object text ms ho hnames),
      foldlM_known (hsnd ▸ hms') (fun q hq => ?_) honce₂ (hp.object text' ms' ho' hnames'),
      List.map_map, List.map_map]
    · refine foldlM_pairs (fun q hq object => ?_) object
      obtain ⟨hi, hi'⟩ := hfind q hq
      show deserializeProperty S mj qt rec m object (reportMember q.2.1) =
        deserializeProperty S mj qt rec m object (reportMember q.2.2)
      rw [deserializeProperty_some hi, deserializeProperty_some hi']
      congr 1
      unfold writtenValue
      cases ht : (S.types m).properties[q.1]? with
      | none => rfl
      | some t =>
        cases object[q.1]? with
        | none => rfl
        | some old => exact deserializeMember_alike hp hrec (S.metaEnum m q.1) (h q hq t ht) old
    · obtain ⟨q', hq', rfl⟩ := List.mem_map.mp hq
      exact (hfind q' hq').2
    · obtain ⟨q', hq', rfl⟩ := List.mem_map.mp hq
      exact (hfind q' hq').1

theorem readsAlike_deserializeMessage (hp : mj.Parses) (n : Nat) (object : M → List (Value M)) :
    ReadsAlike S qt fun m text => deserializeMessage S mj qt n m (object m) text := by
  induction n generalizing object with
  | zero => exact fun _ _ _ _ _ _ _ _ => rfl
  | succ n ih =>
    intro m text text' ms ms' ho ho' h
    exact foldlM_alike hp (ih fun m' => newObject S.types m') ho ho' h (object m)

/-- **A JSON text is read by its content.** Two texts of a message with alike
members leave the same in any object, or both fail, on all levels of nesting. -/
theorem deserializeMessage_alike (hp : mj.Parses) {m : M} {text text' : Bytes} {ms ms' : List Member}
    (ho : IsObject text ms) (ho' : IsObject text' ms') (h : AlikeMembers S qt m ms ms') (n : Nat)
    (object : List (Value M)) :
    deserializeMessage S mj qt n m object text = deserializeMessage S mj qt n m object text' :=
  readsAlike_deserializeMessage hp n (fun _ => object) m text text' ms ms' ho ho' h

end

/-! ## Two texts of a tree -/

theorem IsArrayValue.isValue {i : RawValue} {es : List Element} (h : IsArrayValue i es) : IsValue i := by
  obtain ⟨hes, spaces, hs, rfl⟩ := h
  exact .array hs (fun e he => (hes e he).1) fun e he => (hes e he).2

theorem IsObjectValue.isValue {i : RawValue} {ms : List Member} (h : IsObjectValue i ms) : IsValue i := by
  obtain ⟨hms, spaces, hs, rfl⟩ := h
  exact .object hs (fun m hm => (hms m hm).1) (fun m hm => (hms m hm).2.1) fun m hm => (hms m hm).2.2

def treeOrdering : List (Nat × Nat) := [(1, 0), (2, 1)]

theorem treeOrdering_distinct : (treeOrdering.map Prod.fst).Nodup := by decide

theorem treeOrdering_inRange : ∀ p ∈ treeOrdering, 0 < p.1 ∧ p.1 < 536870912 := by decide

/-- A number and further messages of the type. -/
def treeTypes : Schema Unit := fun _ =>
  { properties := [.single (.scalar (.num .int32)), .messages ()]
    propertyOrdering := treeOrdering
    distinct := treeOrdering_distinct
    inRange := treeOrdering_inRange
    indices := .refl _ }

/-- The fields are `a` and `b`. -/
def tree : JsonSchema Unit where
  types := treeTypes
  jsonName _ i := if i = 0 then [0x61] else [0x62]
  metaEnum _ _ := denseLevels
  distinct m := by cases m; decide

/-- A value with a blank in front. -/
def treeMember (name : UInt8) (i : RawValue) : Member := ⟨[0x20], [name], [], .bare i⟩

theorem treeMember_valid {name : UInt8} (hname : isPlain name = true) {i : RawValue} (h : IsValue i) :
    (treeMember name i).Valid :=
  ⟨⟨fun c hc => by rw [List.mem_singleton.mp hc]; rfl, spaces_nil, spaces_nil, spaces_nil⟩,
    .of_plain (by simpa [treeMember] using hname), h⟩

def treeObject (ms : List Member) : RawValue := ⟨.object, objectText [] ms⟩

theorem treeObject_isObjectValue {ms : List Member} (h : ∀ m ∈ ms, m.Valid) :
    IsObjectValue (treeObject ms) ms := ⟨h, [], spaces_nil, rfl⟩

def treeNumber : RawValue := ⟨.number, [0x31]⟩

theorem treeNumber_isValue : IsValue treeNumber := .number (number_decimal 1)

/-- `"a": 1`, and with a member of an unknown name before. -/
def leaf : List Member := [treeMember 0x61 treeNumber]

def leaf' : List Member := [treeMember 0x7a .null, treeMember 0x61 treeNumber]

theorem leaf_valid : ∀ m ∈ leaf, m.Valid := by
  intro m hm
  rw [List.mem_singleton.mp hm]
  exact treeMember_valid (by decide) treeNumber_isValue

theorem leaf'_valid : ∀ m ∈ leaf', m.Valid := by
  intro m hm
  rcases List.mem_cons.mp hm with rfl | hm
  · exact treeMember_valid (by decide) .null
  · exact leaf_valid m hm

def branch (i : RawValue) : RawValue := ⟨.array, arrayText [] [.bare i]⟩

theorem branch_isArrayValue {i : RawValue} (h : IsValue i) : IsArrayValue (branch i) [.bare i] :=
  ⟨fun _ he => List.mem_singleton.mp he ▸ Element.bare_valid h, [], spaces_nil, rfl⟩

/-- `"a": 1, "b": [{…}]` -/
def root : List Member := [treeMember 0x61 treeNumber, treeMember 0x62 (branch (treeObject leaf))]

/-- `"b": [{…}], "a": 1` -/
def root' : List Member := [treeMember 0x62 (branch (treeObject leaf')), treeMember 0x61 treeNumber]

theorem root_valid : (∀ m ∈ root, m.Valid) ∧ ∀ m ∈ root', m.Valid := by
  have hleaf := branch_isArrayValue (treeObject_isObjectValue leaf_valid).isValue
  have hleaf' := branch_isArrayValue (treeObject_isObjectValue leaf'_valid).isValue
  have hnumber : (treeMember 0x61 treeNumber).Valid := treeMember_valid (by decide) treeNumber_isValue
  refine ⟨fun m hm => ?_, fun m hm => ?_⟩
  · simp only [root, List.mem_cons, List.not_mem_nil, or_false] at hm
    rcases hm with rfl | rfl
    · exact hnumber
    · exact treeMember_valid (by decide) hleaf.isValue
  · simp only [root', List.mem_cons, List.not_mem_nil, or_false] at hm
    rcases hm with rfl | rfl
    · exact treeMember_valid (by decide) hleaf'.isValue
    · exact hnumber

theorem leaf_alike : AlikeMembers tree .ascii () leaf leaf' := by
  refine @AlikeMembers.mk _ _ _ _ _ _ [(0, treeMember 0x61 treeNumber, treeMember 0x61 treeNumber)]
    (by decide) (by decide) (.of_eq rfl) (.of_eq rfl) ?_ (by decide) ?_
  · intro q hq
    rw [List.mem_singleton.mp hq]
    exact ⟨rfl, rfl⟩
  · intro q hq t _
    rw [List.mem_singleton.mp hq]
    exact .same t _

theorem root_alike : AlikeMembers tree .ascii () root root' := by
  have hbranch : Alike tree .ascii (.messages ()) (branch (treeObject leaf)) (branch (treeObject leaf')) := by
    have hobject := treeObject_isObjectValue leaf_valid
    have hobject' := treeObject_isObjectValue leaf'_valid
    refine @Alike.messages _ _ _ _ _ _ [(.bare (treeObject leaf), .bare (treeObject leaf'))]
      (branch_isArrayValue hobject.isValue) (branch_isArrayValue hobject'.isValue) (fun p hp => ?_)
      fun p hp => ?_
    · rw [List.mem_singleton.mp hp]
      exact ⟨rfl, rfl⟩
    · rw [List.mem_singleton.mp hp]
      exact .message hobject hobject' leaf_alike
  refine @AlikeMembers.mk _ _ _ _ _ _ [(0, treeMember 0x61 treeNumber, treeMember 0x61 treeNumber),
    (1, treeMember 0x62 (branch (treeObject leaf)), treeMember 0x62 (branch (treeObject leaf')))]
    (by decide) (by decide) (.of_eq rfl) (.swap _ _ []) ?_ (by decide) ?_
  · intro q hq
    simp only [List.mem_cons, List.not_mem_nil, or_false] at hq
    rcases hq with rfl | rfl
    · exact ⟨rfl, rfl⟩
    · exact ⟨rfl, rfl⟩
  · intro q hq t ht
    simp only [List.mem_cons, List.not_mem_nil, or_false] at hq
    rcases hq with rfl | rfl
    · exact .same t _
    · cases ht
      exact hbranch

/-- `{ "a":1, "b":[{ "a":1}]}` and `{ "b":[{ "z":null, "a":1}], "a":1}` -/
theorem deserializeMessage_alike_tree :
    deserializeMessage tree scanner .ascii 3 () (newObject tree.types ()) (treeObject root).raw =
        deserializeMessage tree scanner .ascii 3 () (newObject tree.types ()) (treeObject root').raw ∧
      deserializeMessage tree scanner .ascii 3 () (newObject tree.types ()) (treeObject root').raw =
        some [.scalar (.num .int32 1), .messages [.object () [.scalar (.num .int32 1), .messages []]]] :=
  ⟨deserializeMessage_alike scanner_parses (treeObject_isObjectValue root_valid.1).isObject.2
    (treeObject_isObjectValue root_valid.2).isObject.2 root_alike 3 _, rfl⟩

end QtProtobuf.Json
