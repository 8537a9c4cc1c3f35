import QtProtobuf.L2Json.Deserialize

/-!
# The loops over lists and maps (`qabstractprotobufserializer_p.h:187-240`)

A handler is called as long as there are bytes left. Every round strips the
opening bracket, if it is there, and takes one part; the round behind the last
part takes the rest.

* `runHandler_once`: a handler that takes all at once.
* `runHandler_parts`: a handler that takes part after part.
* `deserializeValue_messages`, `deserializeValue_map`: what the two handlers leave.
-/
namespace QtProtobuf.Json

open Lib.Json Codec

variable {M : Type}

/-! ## One round -/

section
variable {round : Option (Value M) → Bytes → Option (Option (Value M) × Bytes)}

theorem handlerLoop_nil (n : Nat) (newValue : Option (Value M)) (ok : Bool) :
    handlerLoop round (n + 1) newValue ok [] = some (newValue, ok) := by
  rw [handlerLoop, if_pos rfl]

theorem handlerLoop_cons {newValue newValue' : Option (Value M)} {it it' : Bytes} (hne : it ≠ [])
    (h : round newValue it = some (newValue', it')) (n : Nat) (ok : Bool) :
    handlerLoop round (n + 1) newValue ok it = handlerLoop round n newValue' true it' := by
  rw [handlerLoop, if_neg hne, h]

/-- Nothing is read, and `ok` stays. -/
theorem runHandler_nil (ok : Bool) : runHandler round ok [] = some (none, ok) := handlerLoop_nil 0 none ok

theorem runHandler_once {data : Bytes} (hne : data ≠ []) {newValue : Option (Value M)}
    (h : round none data = some (newValue, [])) (ok : Bool) :
    runHandler round ok data = some (newValue, true) := by
  obtain ⟨c, t, rfl⟩ := List.exists_cons_of_ne_nil hne
  rw [runHandler, List.length_cons, handlerLoop_cons hne h, handlerLoop_nil]

/-- A handler that finds nothing to read fails. -/
theorem runHandler_fails {data : Bytes} (hne : data ≠ []) (h : round none data = none) (ok : Bool) :
    runHandler round ok data = none := by
  rw [runHandler, handlerLoop, if_neg hne, h]

end

/-! ## Part after part -/

/-- Where no part begins with the bracket, it is stripped from the first only. -/
theorem skipBracket_rest {o close : UInt8} {texts : List Text} {b : Bytes} (h : Rest close texts b)
    (hclose : close ≠ o) (hsep : isSpace o = false ∧ o ≠ comma)
    (htexts : ∀ t ∈ texts, ∃ c s, t = c :: s ∧ c ≠ o) : skipBracket o b = b := by
  have hhead : b.head? ≠ some o := by
    rcases h with ⟨-, rfl⟩ | ⟨between, hbetween, rfl⟩
    · simp
    · cases between with
      | cons c between =>
        rintro ⟨⟩
        rcases hbetween o List.mem_cons_self with hspace | hcomma
        · rw [hsep.1] at hspace
          cases hspace
        · exact hsep.2 hcomma
      | nil =>
        cases texts with
        | nil => simpa using hclose
        | cons t texts =>
          obtain ⟨c, s, rfl, hc⟩ := htexts t List.mem_cons_self
          cases texts <;> simpa using hc
  rw [skipBracket, if_neg hhead]

/-- A part is still to come: there are bytes left. -/
theorem Rest.ne_nil {close : UInt8} {t : Text} {texts : List Text} {b : Bytes}
    (h : Rest close (t :: texts) b) : b ≠ [] := by
  rcases h with ⟨h, -⟩ | ⟨between, -, rfl⟩
  · cases h
  · simp

section
variable {α β γ δ : Type} {valid : α → Prop} {text : α → Text} {report : α → β} {close o : UInt8}
  {extract : Bytes → Option (β × Nat)} {At : List α → Bytes → Prop}
  {round : Option (Value M) → Bytes → Option (Option (Value M) × Bytes)}
  {decode : β → Option γ} {store : Option (Value M) → γ → Value M}

/-- A round that takes one part: it is decoded and stored. -/
def TakesPart (o : UInt8) (extract : Bytes → Option (β × Nat)) (decode : β → Option γ)
    (store : Option (Value M) → γ → Value M)
    (round : Option (Value M) → Bytes → Option (Option (Value M) × Bytes)) : Prop :=
  ∀ previous it, round previous it =
    match extract (skipBracket o it) with
    | none => some (previous, [])
    | some (property, i) =>
      decode property >>= fun x => advance (skipBracket o it) i >>= fun it =>
        pure (some (store previous x), it)

/-- The loop from a position between two parts. -/
theorem handlerLoop_parts (hx : Extracts valid text report close extract At)
    (hround : TakesPart o extract decode store round) (hclose : close ≠ o)
    (hsep : isSpace o = false ∧ o ≠ comma) {parts : List (α × γ)}
    (htexts : ∀ p ∈ parts, ∃ c s, text p.1 = c :: s ∧ c ≠ o)
    (hdecode : ∀ p ∈ parts, decode (report p.1) = some p.2) {b : Bytes}
    (hat : At (parts.map Prod.fst) b) {n : Nat} (hn : parts.length + 2 ≤ n)
    (previous : Option (Value M)) :
    handlerLoop round n previous true b =
      some ((parts.map Prod.snd).foldl (fun previous x => some (store previous x)) previous, true) := by
  induction parts generalizing b n previous with
  | nil =>
    obtain ⟨n, rfl⟩ : ∃ k, n = k + 2 := ⟨n - 2, by simp at hn; omega⟩
    by_cases hne : b = []
    · rw [hne, handlerLoop_nil]
      rfl
    · -- the round behind the last part
      have hskip : skipBracket o b = b :=
        skipBracket_rest (hx.rest [] b hat) hclose hsep (by simp)
      have hlast : round previous b = some (previous, []) := by
        rw [hround, hskip, hx.done b hat hne]
      rw [handlerLoop_cons hne hlast, handlerLoop_nil]
      rfl
  | cons p parts ih =>
    obtain ⟨n, rfl⟩ : ∃ k, n = k + 1 := ⟨n - 1, by simp at hn; omega⟩
    have hrest := hx.rest _ b hat
    have hskip : skipBracket o b = b := by
      refine skipBracket_rest hrest hclose hsep fun t ht => ?_
      rw [List.map_map] at ht
      obtain ⟨q, hq, rfl⟩ := List.mem_map.mp ht
      exact htexts q hq
    obtain ⟨i, hi, hextract, hnext⟩ := hx.next p.1 (parts.map Prod.fst) b hat
    have hstep : round previous b = some (some (store previous p.2), b.drop i) := by
      rw [hround, hskip, hextract]
      simp [hdecode p List.mem_cons_self, advance, hi]
    rw [handlerLoop_cons (Rest.ne_nil hrest) hstep,
      ih (fun q hq => htexts q (List.mem_cons_of_mem p hq))
        (fun q hq => hdecode q (List.mem_cons_of_mem p hq)) hnext (by simp at hn; omega)]
    rfl

theorem length_commas {texts : List Text} (h : ∀ t ∈ texts, t ≠ []) :
    texts.length ≤ (commas texts).length := by
  induction texts with
  | nil => simp
  | cons t texts ih =>
    have ht : 0 < t.length := List.length_pos_iff.mpr (h t List.mem_cons_self)
    have hrest := ih fun u hu => h u (List.mem_cons_of_mem t hu)
    cases texts with
    | nil => simpa using Nat.succ_le_of_lt ht
    | cons u texts =>
      simp only [commas_cons_cons, List.length_append, List.length_cons] at hrest ⊢
      omega

/-- **The loop.** All parts between two brackets are stored, one after the other. -/
theorem runHandler_parts (hx : Extracts valid text report close extract At)
    (hround : TakesPart o extract decode store round) (hclose : close ≠ o)
    (hsep : isSpace o = false ∧ o ≠ comma) {parts : List (α × γ)}
    (hvalid : ∀ p ∈ parts, valid p.1) (htexts : ∀ p ∈ parts, ∃ c s, text p.1 = c :: s ∧ c ≠ o)
    (hdecode : ∀ p ∈ parts, decode (report p.1) = some p.2) (ok : Bool) :
    runHandler round ok (o :: (commas (parts.map fun p => text p.1) ++ [close])) =
      some ((parts.map Prod.snd).foldl (fun previous x => some (store previous x)) none, true) := by
  let body : Bytes := commas (parts.map fun p => text p.1) ++ [close]
  have hat : At (parts.map Prod.fst) body := by
    have := hx.start [] (parts.map Prod.fst) spaces_nil fun a ha => by
      obtain ⟨p, hp, rfl⟩ := List.mem_map.mp ha
      exact hvalid p hp
    simpa [body, Function.comp_def] using this
  have hne : body ≠ [] := by simp [body]
  have hskip : skipBracket o body = body := by
    refine skipBracket_rest (hx.rest _ body hat) hclose hsep fun t ht => ?_
    rw [List.map_map] at ht
    obtain ⟨p, hp, rfl⟩ := List.mem_map.mp ht
    exact htexts p hp
  have hfuel : parts.length + 2 ≤ (o :: body).length + 1 := by
    have hnonempty : ∀ t ∈ parts.map fun p => text p.1, t ≠ [] := fun t ht => by
      obtain ⟨p, hp, rfl⟩ := List.mem_map.mp ht
      obtain ⟨c, s, hcs, -⟩ := htexts p hp
      rw [hcs]
      exact List.cons_ne_nil c s
    have := length_commas hnonempty
    simp [body] at this ⊢
    omega
  -- the first round sees the bracket; but for that it is a round on the body
  have hopen : skipBracket o (o :: body) = body := by simp [skipBracket]
  have hfirst : round none (o :: body) = round none body := by rw [hround, hround, hopen, hskip]
  have hloop : handlerLoop round ((o :: body).length + 1) none ok (o :: body) =
      handlerLoop round ((o :: body).length + 1) none true body := by
    rw [handlerLoop, handlerLoop, if_neg (List.cons_ne_nil o body), if_neg hne, hfirst]
  show handlerLoop round ((o :: body).length + 1) none ok (o :: body) = _
  rw [hloop, handlerLoop_parts hx hround hclose hsep htexts hdecode hat hfuel none]

/-- What the parts of a container have been stored in, if it is empty before. -/
theorem foldl_store {wrap : List δ → Value M} {entries : Value M → List δ}
    (hentries : ∀ l, entries (wrap l) = l) (add : List δ → γ → List δ) (xs : List γ)
    {previous : Option (Value M)} {l : List δ} (h : previous.getD (wrap []) = wrap l) :
    (xs.foldl (fun previous x => some (wrap (add ((previous.map entries).getD []) x))) previous).getD
      (wrap []) = wrap (xs.foldl add l) := by
  induction xs generalizing previous l with
  | nil => exact h
  | cons x xs ih =>
    have hl : (previous.map entries).getD [] = l := by
      cases previous with
      | none =>
        have := congrArg entries h
        rw [hentries] at this
        simpa [hentries] using this
      | some v => simp [show v = wrap l from h, hentries]
    rw [List.foldl_cons, List.foldl_cons, hl]
    exact ih rfl

end

/-! ## Lists of messages, and maps -/

/-- What a value is converted to: the default if it is invalid or refused. -/
def orDefault {α : Type} (default : α) (r : Option α × Bool) : α :=
  (if r.2 then r.1 else none).getD default

/-- The pairs in the order in which they are read. -/
def insertAll (pairs out : List (Scalar × Value M)) : List (Scalar × Value M) :=
  pairs.foldl (fun out pair => insertPair pair.1 pair.2 out) out

theorem foldl_append_map {α β : Type} (f : α → β) (xs : List α) (l : List β) :
    xs.foldl (fun l x => l ++ [f x]) l = l ++ xs.map f := by
  induction xs generalizing l with
  | nil => simp
  | cons x xs ih => simp [ih]

section
variable {mj : MicroJson} (qt : QtJson) (rec : M → Bytes → Option (List (Value M))) (e : MetaEnum)

theorem listRound_takesPart (mj : MicroJson) (m : M) :
    TakesPart openBracket (fun b => mj.extractValue b closeBracket)
      (fun property => rec m property.value)
      (fun previous fields => .messages ((previous.map Value.toMessages).getD [] ++ [.object m fields]))
      (listRound mj rec m) := by
  intro previous it
  dsimp only [listRound]
  cases mj.extractValue (skipBracket openBracket it) closeBracket <;> rfl

theorem mapRound_takesPart (mj : MicroJson) (kt : ScalarType) (vt : SingleType M) :
    TakesPart openBrace (fun b => mj.extractProperty b closeBrace) (deserializeMapPair qt rec e kt vt)
      (fun previous pair => .map (insertPair pair.1 pair.2 ((previous.map Value.toMap).getD [])))
      (mapRound mj qt rec e kt vt) := by
  intro previous it
  dsimp only [mapRound]
  cases mj.extractProperty (skipBracket openBrace it) closeBrace <;> rfl

theorem messages_entries (l : List (Value M)) : (Value.messages l).toMessages = l := rfl

theorem map_entries (l : List (Scalar × Value M)) : (Value.map l).toMap = l := rfl

/-- An object begins with a brace. -/
theorem openBrace_of_object {i : RawValue} (h : IsValue i) (hkind : i.kind = .object) :
    i.raw = i.text ∧ ∃ s, i.text = openBrace :: s := by
  cases h with
  | object => exact ⟨rfl, _, rfl⟩
  | bool b => cases hkind
  | null | number | string | array => cases hkind

theorem deserializeValue_messages (hp : mj.Parses) {m : M} {elements : List (RawValue × List (Value M))}
    (hvalid : ∀ q ∈ elements, IsValue q.1 ∧ q.1.kind = .object)
    (hread : ∀ q ∈ elements, rec m q.1.raw = some q.2) :
    ∃ r, deserializeValue mj qt rec e (.messages m)
        (openBracket :: (commas (elements.map fun q => q.1.text) ++ [closeBracket])) .array = some r ∧
      orDefault (.messages []) r = .messages (elements.map fun q => .object m q.2) := by
  let parts := elements.map fun q => (Element.bare q.1, q.2)
  obtain ⟨At, hx⟩ := hp.elements
  have hparts : ∀ p ∈ parts, p.1.Valid := fun p hpm => by
    obtain ⟨q, hq, rfl⟩ := List.mem_map.mp hpm
    exact Element.bare_valid (hvalid q hq).1
  have htexts : ∀ p ∈ parts, ∃ c s, p.1.text = c :: s ∧ c ≠ openBracket := fun p hpm => by
    obtain ⟨q, hq, rfl⟩ := List.mem_map.mp hpm
    obtain ⟨-, s, hs⟩ := openBrace_of_object (hvalid q hq).1 (hvalid q hq).2
    exact ⟨openBrace, s, by rw [Element.bare_text, hs], by decide⟩
  have hdecode : ∀ p ∈ parts, rec m (reportElement p.1).value = some p.2 := fun p hpm => by
    obtain ⟨q, hq, rfl⟩ := List.mem_map.mp hpm
    exact hread q hq
  have hrun := runHandler_parts hx (listRound_takesPart rec mj m) (by decide) (by decide) hparts htexts
    hdecode false
  have htext : (parts.map fun p => p.1.text) = elements.map fun q => q.1.text := by
    simp [parts, Element.bare_text]
  rw [htext] at hrun
  refine ⟨_, hrun, ?_⟩
  have hempty : (none : Option (Value M)).getD (.messages []) = .messages [] := rfl
  have hstored := foldl_store messages_entries (fun l fields => l ++ [.object m fields])
    (parts.map Prod.snd) hempty
  refine hstored.trans ?_
  rw [foldl_append_map]
  simp [parts]

theorem deserializeValue_map (hp : mj.Parses) {kt : ScalarType} {vt : SingleType M}
    {members : List (Bytes × RawValue × (Scalar × Value M))}
    (hvalid : ∀ q ∈ members, Chars q.1 ∧ IsValue q.2.1)
    (hread : ∀ q ∈ members,
      deserializeMapPair qt rec e kt vt (q.1, reportValue q.2.1) = some q.2.2) :
    ∃ r, deserializeValue mj qt rec e (.map kt vt)
        (openBrace :: (commas (members.map fun q => memberText q.1 q.2.1.text) ++ [closeBrace])) .object =
          some r ∧
      orDefault (.map []) r = .map (insertAll (members.map fun q => q.2.2) []) := by
  let parts := members.map fun q => (Member.bare q.1 q.2.1, q.2.2)
  obtain ⟨At, hx⟩ := hp.members
  have hparts : ∀ p ∈ parts, p.1.Valid := fun p hpm => by
    obtain ⟨q, hq, rfl⟩ := List.mem_map.mp hpm
    exact Member.bare_valid (hvalid q hq).1 (hvalid q hq).2
  have htexts : ∀ p ∈ parts, ∃ c s, p.1.text = c :: s ∧ c ≠ openBrace := fun p hpm => by
    obtain ⟨q, hq, rfl⟩ := List.mem_map.mp hpm
    exact ⟨quote, _, Member.bare_text _ _, by decide⟩
  have hdecode : ∀ p ∈ parts, deserializeMapPair qt rec e kt vt (reportMember p.1) = some p.2 :=
    fun p hpm => by
      obtain ⟨q, hq, rfl⟩ := List.mem_map.mp hpm
      exact hread q hq
  have hrun := runHandler_parts hx (mapRound_takesPart qt rec e mj kt vt) (by decide) (by decide) hparts
    htexts hdecode false
  have htext : (parts.map fun p => p.1.text) = members.map fun q => memberText q.1 q.2.1.text := by
    simp [parts, Member.bare_text]
  rw [htext] at hrun
  refine ⟨_, hrun, ?_⟩
  have hempty : (none : Option (Value M)).getD (.map []) = .map [] := rfl
  have hstored := foldl_store map_entries (fun out pair => insertPair pair.1 pair.2 out)
    (parts.map Prod.snd) hempty
  refine hstored.trans ?_
  simp [insertAll, parts, Function.comp_def]

end

end QtProtobuf.Json
