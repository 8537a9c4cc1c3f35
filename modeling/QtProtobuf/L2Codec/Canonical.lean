import QtProtobuf.L2Codec.RoundTrip
import QtProtobuf.L2Codec.Framing
import QtProtobuf.L2Codec.NullElements
import Mathlib.Data.Fintype.EquivFin

/-!
# The bytes of equal messages

`operator ==` does not tell a null string from an empty one, and the setter of a
string that is null leaves it null when it is given an empty one. A serializer
leaves a value out when `QVariant::isNull` says so: an empty string that is not
null is written, with a header and a length of zero.

* `encodings_iff`: equal values have the same bytes if and only if the empty
  strings that are serialized one by one are null in both or in neither.
* `canonical_iff`: so it is with equal messages.
-/
namespace QtProtobuf.Codec

open Wire

variable {M : Type}

/-- At every depth, corresponding strings and byte arrays of singular fields, of
keys and of values of maps are both null or both not. -/
inductive SameNulls (S : Schema M) (qt : QtCore) : Value M → Value M → Prop
  | scalar {v w : Scalar} (h : qt.isNull v = qt.isNull w) : SameNulls S qt (.scalar v) (.scalar w)
  | enum (v : BitVec 32) : SameNulls S qt (.enum v) (.enum v)
  | unset (m : M) : SameNulls S qt (.unset m) (.unset m)
  | unset_object {m : M} {fs : List (Value M)}
    (h : SameNulls S qt (.object m (newObject S m)) (.object m fs)) : SameNulls S qt (.unset m) (.object m fs)
  | object_unset {m : M} {fs : List (Value M)}
    (h : SameNulls S qt (.object m fs) (.object m (newObject S m))) : SameNulls S qt (.object m fs) (.unset m)
  | object (m : M) {fs gs : List (Value M)}
    (h : ∀ (i : Nat) v w, fs[i]? = some v → gs[i]? = some w → SameNulls S qt v w) :
    SameNulls S qt (.object m fs) (.object m gs)
  | nums (t : NumType) (vs : List (BitVec t.width)) : SameNulls S qt (.nums t vs) (.nums t vs)
  | strings (vs ws : List (Option (List UInt16))) : SameNulls S qt (.strings vs) (.strings ws)
  | byteArrays (vs ws : List (Option Bytes)) : SameNulls S qt (.byteArrays vs) (.byteArrays ws)
  | enums (vs : List (BitVec 32)) : SameNulls S qt (.enums vs) (.enums vs)
  | messages {vs ws : List (Value M)} (h : ∀ p ∈ vs.zip ws, SameNulls S qt p.1 p.2) :
    SameNulls S qt (.messages vs) (.messages ws)
  | map {es es' : List (Scalar × Value M)} (hk : ∀ p ∈ es.zip es', qt.isNull p.1.1 = qt.isNull p.2.1)
    (hv : ∀ p ∈ es.zip es', SameNulls S qt p.1.2 p.2.2) : SameNulls S qt (.map es) (.map es')

/-! ## Records, one after the other -/

theorem encodeHeader_inj {f f' : Nat} {t t' : WireTypes} (hf : f < 2 ^ 29) (hf' : f' < 2 ^ 29)
    (ht : t.known = true) (ht' : t'.known = true) {a c : Bytes}
    (h : encodeHeader f t ++ a = encodeHeader f' t' ++ c) : f = f' := by
  obtain ⟨hv, -, hval⟩ := encodeHeader_isVarint hf ht
  obtain ⟨hv', -, hval'⟩ := encodeHeader_isVarint hf' ht'
  have he := congrArg varintValue (hv.prefix_eq hv' h)
  rw [hval, hval'] at he
  have hb := WireTypes.bits_lt ht
  have hb' := WireTypes.bits_lt ht'
  omega

/-- No string or byte array of the field `f` stands in front. -/
def Away (f : Nat) (bs : Bytes) : Prop := ∀ rest, bs ≠ encodeHeader f .lengthDelimited ++ rest

/-- Nothing, or a record of the field `f` first. -/
def OfField (f : Nat) (bs : Bytes) : Prop :=
  bs = [] ∨ ∃ t rest, t.known = true ∧ bs = encodeHeader f t ++ rest

theorem away_nil {f : Nat} (hf : f < 2 ^ 29) : Away f [] := fun rest h =>
  record_ne_nil hf rfl rest h.symm

theorem OfField.away {f f' : Nat} (hf : f < 2 ^ 29) (hf' : f' < 2 ^ 29) (hne : f' ≠ f) {bs tail : Bytes}
    (h : OfField f' bs) (ht : Away f tail) : Away f (bs ++ tail) := by
  rcases h with rfl | ⟨t, rest, hk, rfl⟩
  · exact ht
  · intro rest' he
    rw [List.append_assoc] at he
    exact hne (encodeHeader_inj hf' hf hk rfl he)

theorem OfField.append {f : Nat} {bs cs : Bytes} (h : OfField f bs) (h' : OfField f cs) :
    OfField f (bs ++ cs) := by
  rcases h with rfl | ⟨t, rest, hk, rfl⟩
  · exact h'
  · exact .inr ⟨t, rest ++ cs, hk, List.append_assoc ..⟩

theorem ofField_withHeader (f : Nat) {t : WireTypes} (ht : t.known = true) {r : Bytes × Bool}
    (hr : r.2 = false → r.1 = []) : OfField f (withHeader f t r) := by
  unfold withHeader
  split
  · exact .inr ⟨t, _, ht, rfl⟩
  · exact .inl (hr (by simpa using ‹¬ r.2 = true›))

theorem ofField_appendAll {α : Type} {f : Nat} {g : α → Option Bytes} {as : List α} {bs : Bytes}
    (hg : ∀ a ∈ as, ∀ x, g a = some x → OfField f x) (h : appendAll g as = some bs) : OfField f bs := by
  induction as generalizing bs with
  | nil =>
    cases h
    exact .inl rfl
  | cons a as ih =>
    obtain ⟨x, xs, hx, hxs, rfl⟩ := appendAll_cons h
    exact (hg a List.mem_cons_self x hx).append (ih (fun a' ha' => hg a' (List.mem_cons_of_mem a ha')) hxs)

theorem ofField_object {rec : M → List (Value M) → Option Bytes} {f : Nat} {m : M} {fs : List (Value M)}
    {bs : Bytes} (h : serializeObject rec f m fs = some bs) : OfField f bs := by
  simp only [serializeObject, Option.bind_eq_bind, Option.bind_eq_some_iff, Option.pure_def,
    Option.some.injEq] at h
  obtain ⟨data, -, rfl⟩ := h
  exact .inr ⟨_, _, rfl, rfl⟩

section
variable {S : Schema M} {qt : QtCore} {rec : M → List (Value M) → Option Bytes} {f : Nat}

/-- What is written for a property has its number in front. -/
theorem ofField_property {v : Value M} {bs : Bytes} (h : serializeProperty S qt rec f v = some bs) :
    OfField f bs := by
  have hlist : ∀ {α : Type} (g : α → Bytes) (as : List α),
      OfField f (withHeader f .lengthDelimited
        (as.flatMap fun a => encodeHeader f .lengthDelimited ++ g a, false)) := by
    intro α g as
    refine ofField_appendAll (g := fun a => some (encodeHeader f .lengthDelimited ++ g a)) ?_
      (appendAll_some _ as)
    rintro a - x hx
    cases hx
    exact .inr ⟨_, _, rfl, rfl⟩
  have hnums : ∀ (t : NumType) (vs : List (BitVec t.width)),
      OfField f (withHeader f .lengthDelimited (serializeListType t vs)) := by
    intro t vs
    refine ofField_withHeader f rfl ?_
    unfold serializeListType
    split <;> simp
  cases v with
  | scalar v =>
    cases h
    exact ofField_withHeader f v.type.wireType_known fun hu => (serializeScalar_unused hu).2
  | enum v =>
    cases h
    exact ofField_withHeader f rfl fun hu => (serializeBasic_unused hu).2.1
  | unset m => exact ofField_object h
  | object m fs => exact ofField_object h
  | nums t vs => cases h; exact hnums t vs
  | enums vs => cases h; exact hnums .int64 _
  | strings vs => cases h; exact hlist _ _
  | byteArrays vs => cases h; exact hlist _ _
  | messages vs =>
    refine ofField_appendAll (fun v _ x hx => ?_) h
    cases v with
    | object m fs => exact ofField_object hx
    | _ => cases hx; exact .inl rfl
  | map es =>
    refine ofField_appendAll (fun e _ x hx => ?_) h
    have hpair : serializeMapPair S qt rec f e.1 e.2 = some x → OfField f x := fun hp => by
      simp only [serializeMapPair, Option.bind_eq_bind, Option.bind_eq_some_iff, Option.pure_def,
        Option.some.injEq] at hp
      obtain ⟨data, -, rfl⟩ := hp
      exact .inr ⟨_, _, rfl, rfl⟩
    obtain ⟨key, value⟩ := e
    cases value with
    | unset m => cases hx; exact .inl rfl
    | _ => exact hpair hx

/-! ## What the bytes determine -/

theorem prepend_inj {d d' T U : Bytes} (hd : d.length < 2 ^ 32) (hd' : d'.length < 2 ^ 32) :
    prependLengthDelimitedSize d ++ T = prependLengthDelimitedSize d' ++ U ↔ d = d' ∧ T = U := by
  constructor
  · intro h
    unfold prependLengthDelimitedSize at h
    rw [Nat.mod_eq_of_lt hd, Nat.mod_eq_of_lt hd', List.append_assoc, List.append_assoc] at h
    obtain ⟨hv, hval, -⟩ := serializeVarintCommon_isVarint d.length (by omega)
    obtain ⟨hv', hval', -⟩ := serializeVarintCommon_isVarint d'.length (by omega)
    have hpre := hv.prefix_eq hv' h
    have hlen : d.length = d'.length := by rw [← hval, ← hval', hpre]
    rw [hpre] at h
    exact List.append_inj (List.append_cancel_left h) hlen
  · rintro ⟨rfl, rfl⟩
    rfl

/-- The same bytes first. -/
theorem append_iff {P : Prop} {r T U : Bytes} (hp : P) : r ++ T = r ++ U ↔ P ∧ T = U :=
  ⟨fun h => ⟨hp, List.append_cancel_left h⟩, fun h => by rw [h.2]⟩

theorem Scalar.text_cases {v w : Scalar} (h : v.text = w.text) :
    v = w ∨ (∃ s s', v = .string s ∧ w = .string s' ∧ s.getD [] = s'.getD []) ∨
      ∃ s s', v = .bytes s ∧ w = .bytes s' ∧ s.getD [] = s'.getD [] := by
  cases v with
  | num t v => cases w <;> cases h; exact .inl rfl
  | bool v => cases w <;> cases h; exact .inl rfl
  | string s =>
    cases w with
    | string s' => exact .inr (.inl ⟨s, s', rfl, rfl, by simpa [Scalar.text] using h⟩)
    | _ => cases h
  | bytes s =>
    cases w with
    | bytes s' => exact .inr (.inr ⟨s, s', rfl, rfl, by simpa [Scalar.text] using h⟩)
    | _ => cases h

/-- A string that is null is left out. -/
theorem null_iff {T U x : Bytes} (hT : Away f T) (hU : Away f U) (b b' : Bool) :
    (if b then [] else encodeHeader f .lengthDelimited ++ x) ++ T =
      (if b' then [] else encodeHeader f .lengthDelimited ++ x) ++ U ↔ b = b' ∧ T = U := by
  cases b with
  | true =>
    cases b' with
    | true => simp
    | false =>
      refine iff_of_false (fun h => ?_) fun h => by cases h.1
      rw [if_pos rfl, if_neg Bool.false_ne_true, List.append_assoc] at h
      exact hT _ h
  | false =>
    cases b' with
    | true =>
      refine iff_of_false (fun h => ?_) fun h => by cases h.1
      rw [if_pos rfl, if_neg Bool.false_ne_true, List.append_assoc] at h
      exact hU _ h.symm
    | false => exact append_iff rfl

theorem scalar_iff {v w : Scalar} (he : v.text = w.text) {T U : Bytes} (hT : Away f T) (hU : Away f U) :
    withHeader f v.type.wireType (serializeScalar qt v) ++ T =
      withHeader f w.type.wireType (serializeScalar qt w) ++ U ↔ qt.isNull v = qt.isNull w ∧ T = U := by
  have hwritten : ∀ v : Scalar, ∀ x : Bytes, (∀ hn : ¬ qt.isNull v = true,
      withHeader f v.type.wireType (serializeScalar qt v) = encodeHeader f .lengthDelimited ++ x) →
      withHeader f v.type.wireType (serializeScalar qt v) =
        if qt.isNull v then [] else encodeHeader f .lengthDelimited ++ x := by
    intro v x h
    by_cases hn : qt.isNull v = true
    · rw [if_pos hn]
      simp [serializeScalar, hn, withHeader]
    · rw [if_neg hn]
      exact h hn
  rcases Scalar.text_cases he with rfl | ⟨s, s', rfl, rfl, hs⟩ | ⟨s, s', rfl, rfl, hs⟩
  · exact append_iff rfl
  · rw [hwritten (.string s) (prependLengthDelimitedSize (qt.toUtf8 (s.getD []))) fun hn => by
        simp [serializeScalar, hn, withHeader, Scalar.type, ScalarType.wireType],
      hwritten (.string s') (prependLengthDelimitedSize (qt.toUtf8 (s.getD []))) fun hn => by
        simp [serializeScalar, hn, withHeader, Scalar.type, ScalarType.wireType, hs]]
    exact null_iff hT hU _ _
  · rw [hwritten (.bytes s) (prependLengthDelimitedSize (s.getD [])) fun hn => by
        simp [serializeScalar, hn, withHeader, Scalar.type, ScalarType.wireType],
      hwritten (.bytes s') (prependLengthDelimitedSize (s.getD [])) fun hn => by
        simp [serializeScalar, hn, withHeader, Scalar.type, ScalarType.wireType, hs]]
    exact null_iff hT hU _ _

/-- Element by element, when what is written for each element determines it. -/
theorem appendAll_iff {α : Type} {g g' : α → Option Bytes} {Q : α → α → Prop} {as as' : List α}
    (hl : as.length = as'.length)
    (h : ∀ p ∈ as.zip as', ∀ x y, g p.1 = some x → g' p.2 = some y → x.length < 2 ^ 31 →
      y.length < 2 ^ 31 → ∀ T U, x ++ T = y ++ U ↔ Q p.1 p.2 ∧ T = U)
    {r r' : Bytes} (hr : appendAll g as = some r) (hr' : appendAll g' as' = some r')
    (hlen : r.length < 2 ^ 31) (hlen' : r'.length < 2 ^ 31) (T U : Bytes) :
    r ++ T = r' ++ U ↔ (∀ p ∈ as.zip as', Q p.1 p.2) ∧ T = U := by
  induction as generalizing as' r r' with
  | nil =>
    obtain rfl := List.length_eq_zero_iff.mp hl.symm
    cases hr
    cases hr'
    simp
  | cons a as ih =>
    cases as' with
    | nil => cases hl
    | cons a' as' =>
      obtain ⟨x, xs, hx, hxs, rfl⟩ := appendAll_cons hr
      obtain ⟨y, ys, hy, hys, rfl⟩ := appendAll_cons hr'
      rw [List.length_append] at hlen hlen'
      have hfirst := h (a, a') List.mem_cons_self x y hx hy (by omega) (by omega) (xs ++ T) (ys ++ U)
      have hrest := ih (by simpa using hl) (fun p hp => h p (List.mem_cons_of_mem _ hp)) hxs hys (by omega)
        (by omega)
      rw [List.append_assoc, List.append_assoc, hfirst, hrest, List.zip_cons_cons, List.forall_mem_cons,
        and_assoc]

/-- The bytes of `v` and `w`, in front of other fields, tell whether their nulls agree. -/
def Told (S : Schema M) (qt : QtCore) (n n' f : Nat) (v w : Value M) : Prop :=
  ∀ r r', serializeProperty S qt (serializeMessage S qt n) f v = some r →
    serializeProperty S qt (serializeMessage S qt n') f w = some r' → r.length < 2 ^ 31 →
    r'.length < 2 ^ 31 → ∀ T U, Away f T → Away f U → (r ++ T = r' ++ U ↔ SameNulls S qt v w ∧ T = U)

/-- The properties in the order of the enumeration. -/
theorem fields_iff {n n' : Nat} {fs gs : List (Value M)} {ps : List (Nat × Nat)}
    (hnd : (ps.map Prod.fst).Nodup) (hrange : ∀ p ∈ ps, p.1 < 2 ^ 29)
    (h : ∀ p ∈ ps, ∀ v w, fs[p.2]? = some v → gs[p.2]? = some w → Told S qt n n' p.1 v w) {d d' : Bytes}
    (hd : appendAll (fun p => fs[p.2]? >>= serializeProperty S qt (serializeMessage S qt n) p.1) ps = some d)
    (hd' : appendAll (fun p => gs[p.2]? >>= serializeProperty S qt (serializeMessage S qt n') p.1) ps =
      some d') (hlen : d.length < 2 ^ 31) (hlen' : d'.length < 2 ^ 31) :
    d = d' ↔ ∀ p ∈ ps, ∀ v w, fs[p.2]? = some v → gs[p.2]? = some w → SameNulls S qt v w := by
  have haway : ∀ (f : Nat) (ps : List (Nat × Nat)) (rec : M → List (Value M) → Option Bytes)
      (fs : List (Value M)) (d : Bytes), f < 2 ^ 29 → (∀ p ∈ ps, p.1 < 2 ^ 29) → f ∉ ps.map Prod.fst →
      appendAll (fun p => fs[p.2]? >>= serializeProperty S qt rec p.1) ps = some d → Away f d := by
    intro f ps rec fs d hf hps hnot hd
    induction ps generalizing d with
    | nil =>
      cases hd
      exact away_nil hf
    | cons p ps ih =>
      obtain ⟨x, xs, hx, hxs, rfl⟩ := appendAll_cons hd
      obtain ⟨v, -, hx⟩ := Option.bind_eq_some_iff.mp hx
      rw [List.map_cons, List.mem_cons, not_or] at hnot
      exact (ofField_property hx).away hf (hps p List.mem_cons_self) (Ne.symm hnot.1)
        (ih xs (fun q hq => hps q (List.mem_cons_of_mem p hq)) hnot.2 hxs)
  induction ps generalizing d d' with
  | nil =>
    cases hd
    cases hd'
    simp
  | cons p ps ih =>
    obtain ⟨x, xs, hx, hxs, rfl⟩ := appendAll_cons hd
    obtain ⟨y, ys, hy, hys, rfl⟩ := appendAll_cons hd'
    obtain ⟨v, hv, hx⟩ := Option.bind_eq_some_iff.mp hx
    obtain ⟨w, hw, hy⟩ := Option.bind_eq_some_iff.mp hy
    rw [List.length_append] at hlen hlen'
    rw [List.map_cons, List.nodup_cons] at hnd
    have hps : ∀ q ∈ ps, q.1 < 2 ^ 29 := fun q hq => hrange q (List.mem_cons_of_mem p hq)
    have hp := hrange p List.mem_cons_self
    have hfirst := h p List.mem_cons_self v w hv hw x y hx hy (by omega) (by omega) xs ys
      (haway p.1 ps _ fs xs hp hps hnd.1 hxs) (haway p.1 ps _ gs ys hp hps hnd.1 hys)
    have hrest := ih hnd.2 hps (fun q hq => h q (List.mem_cons_of_mem p hq)) hxs hys (by omega) (by omega)
    rw [List.forall_mem_cons]
    refine hfirst.trans (and_congr ⟨fun hs v' w' hv' hw' => ?_, fun hs => hs v w hv hw⟩ hrest)
    rw [hv] at hv'
    rw [hw] at hw'
    cases hv'
    cases hw'
    exact hs

/-! ## Equal values -/

variable {n n' : Nat}

/-- A nested message, in front of anything. -/
theorem object_iff {m : M} {fs gs : List (Value M)}
    (h : ∀ d d', serializeMessage S qt n m fs = some d → serializeMessage S qt n' m gs = some d' →
      d.length < 2 ^ 31 → d'.length < 2 ^ 31 → (d = d' ↔ SameNulls S qt (.object m fs) (.object m gs)))
    {r r' : Bytes} (hr : serializeObject (serializeMessage S qt n) f m fs = some r)
    (hr' : serializeObject (serializeMessage S qt n') f m gs = some r') (hlen : r.length < 2 ^ 31)
    (hlen' : r'.length < 2 ^ 31) (T U : Bytes) :
    r ++ T = r' ++ U ↔ SameNulls S qt (.object m fs) (.object m gs) ∧ T = U := by
  simp only [serializeObject, Option.bind_eq_bind, Option.bind_eq_some_iff, Option.pure_def,
    Option.some.injEq] at hr hr'
  obtain ⟨d, hd, rfl⟩ := hr
  obtain ⟨d', hd', rfl⟩ := hr'
  have hle := prepend_length d
  have hle' := prepend_length d'
  rw [List.length_append] at hlen hlen'
  rw [List.append_assoc, List.append_assoc, List.append_cancel_left_eq,
    prepend_inj (by omega) (by omega), h d d' hd hd' (by omega) (by omega)]

/-- An entry of a map, in front of anything. -/
theorem entry_iff {e e' : Scalar × Value M} (hk : e.1.text = e'.1.text)
    (h : Told S qt n n' 2 e.2 e'.2) {r r' : Bytes}
    (hr : serializeMapPair S qt (serializeMessage S qt n) f e.1 e.2 = some r)
    (hr' : serializeMapPair S qt (serializeMessage S qt n') f e'.1 e'.2 = some r')
    (hv : ∀ f rec, serializeSingle S qt rec f e.2 = serializeProperty S qt rec f e.2)
    (hv' : ∀ f rec, serializeSingle S qt rec f e'.2 = serializeProperty S qt rec f e'.2)
    (hlen : r.length < 2 ^ 31) (hlen' : r'.length < 2 ^ 31) (T U : Bytes) :
    r ++ T = r' ++ U ↔ (qt.isNull e.1 = qt.isNull e'.1 ∧ SameNulls S qt e.2 e'.2) ∧ T = U := by
  simp only [serializeMapPair, Option.bind_eq_bind, Option.bind_eq_some_iff, Option.pure_def,
    Option.some.injEq] at hr hr'
  obtain ⟨d, hd, rfl⟩ := hr
  obtain ⟨d', hd', rfl⟩ := hr'
  rw [hv] at hd
  rw [hv'] at hd'
  have hle := prepend_length (withHeader 1 e.1.type.wireType (serializeScalar qt e.1) ++ d)
  have hle' := prepend_length (withHeader 1 e'.1.type.wireType (serializeScalar qt e'.1) ++ d')
  rw [List.length_append] at hlen hlen' hle hle'
  have haway : ∀ {v : Value M} {rec x}, serializeProperty S qt rec 2 v = some x → Away 1 x := fun hx => by
    have h := (ofField_property hx).away (f := 1) (by decide) (by decide) (by decide) (away_nil (by decide))
    rwa [List.append_nil] at h
  have hvalue := h d d' hd hd' (by omega) (by omega) [] [] (away_nil (by decide)) (away_nil (by decide))
  rw [List.append_nil, List.append_nil] at hvalue
  rw [List.append_assoc, List.append_assoc, List.append_cancel_left_eq,
    prepend_inj (by simp only [List.length_append]; omega) (by simp only [List.length_append]; omega),
    scalar_iff hk (haway hd) (haway hd'), hvalue]
  simp

theorem same_told {v w : Value M} (h : SameNulls S qt v w)
    (hs : ∀ rec, serializeProperty S qt rec f v = serializeProperty S qt rec f w)
    (hfree : ∀ rec rec', serializeProperty S qt rec f v = serializeProperty S qt rec' f v) :
    Told S qt n n' f v w := by
  intro r r' hr hr' _ _ T U _ _
  rw [← hs, hfree _ (serializeMessage S qt n), hr] at hr'
  cases hr'
  exact append_iff h

theorem sameNulls_object {m : M} {fs gs : List (Value M)} :
    SameNulls S qt (.object m fs) (.object m gs) ↔
      ∀ (i : Nat) v w, fs[i]? = some v → gs[i]? = some w → SameNulls S qt v w := by
  constructor
  · intro h
    cases h with
    | object _ h => exact h
  · exact .object m

theorem message_iff {m : M} {fs gs : List (Value M)} (hl : fs.length = (S m).properties.length)
    (h : ∀ (i : Nat) v w, fs[i]? = some v → gs[i]? = some w →
      ∀ n n' f, f < 2 ^ 29 → Told S qt n n' f v w) {d d' : Bytes}
    (hd : serializeMessage S qt n m fs = some d) (hd' : serializeMessage S qt n' m gs = some d')
    (hlen : d.length < 2 ^ 31) (hlen' : d'.length < 2 ^ 31) :
    d = d' ↔ SameNulls S qt (.object m fs) (.object m gs) := by
  cases n with
  | zero => cases hd
  | succ n =>
    cases n' with
    | zero => cases hd'
    | succ n' =>
      have hfields := fields_iff (S m).distinct (fun p hp => ((S m).inRange p hp).2)
        (fun p hp v w hv hw => h p.2 v w hv hw n n' p.1 ((S m).inRange p hp).2) hd hd' hlen hlen'
      rw [sameNulls_object]
      refine hfields.trans ⟨fun hs i v w hv hw => ?_, fun hs p _ v w => hs p.2 v w⟩
      have hi : i < (S m).properties.length := hl ▸ (List.getElem?_eq_some_iff.mp hv).1
      obtain ⟨p, hp, rfl⟩ := (S m).mem_ordering hi
      exact hs p hp v w hv hw

/-- A list element does not depend on what follows it. -/
theorem Told.object {m : M} {fs gs : List (Value M)} (hf : f < 2 ^ 29)
    (h : Told S qt n n' f (.object m fs) (.object m gs)) {r r' : Bytes}
    (hr : serializeObject (serializeMessage S qt n) f m fs = some r)
    (hr' : serializeObject (serializeMessage S qt n') f m gs = some r') (hlen : r.length < 2 ^ 31)
    (hlen' : r'.length < 2 ^ 31) (T U : Bytes) :
    r ++ T = r' ++ U ↔ SameNulls S qt (.object m fs) (.object m gs) ∧ T = U := by
  refine object_iff (fun d d' hd hd' hdl hdl' => ?_) hr hr' hlen hlen' T U
  have hself := h r r' hr hr' hlen hlen' [] [] (away_nil hf) (away_nil hf)
  rw [List.append_nil, List.append_nil] at hself
  rw [serializeObject, hd] at hr
  rw [serializeObject, hd'] at hr'
  cases hr
  cases hr'
  have hdata := prepend_inj (T := []) (U := []) (show d.length < 2 ^ 32 by omega) (show d'.length < 2 ^ 32 by omega)
  rw [List.append_nil, List.append_nil] at hdata
  rw [List.append_cancel_left_eq, hdata] at hself
  simpa using hself

/-- What is written for a value without a null pointer in a list or a map. -/
theorem single_property {vt : SingleType M} {v : Value M} (hv : HasType S (.single vt) v) (f : Nat)
    (rec : M → List (Value M) → Option Bytes) :
    serializeSingle S qt rec f v = serializeProperty S qt rec f v := by
  cases hv <;> rfl

theorem mapEntry_pair {vt : SingleType M} {e : Scalar × Value M} (hv : HasType S (.single vt) e.2)
    (hn : ¬ NullPointer e.2) (f : Nat) (rec : M → List (Value M) → Option Bytes) :
    serializeMapEntry S qt rec f e = serializeMapPair S qt rec f e.1 e.2 := by
  obtain ⟨key, value⟩ := e
  cases value with
  | unset m => exact absurd (.inl rfl) hn
  | _ => rfl

/-! ## The kinds of fields -/

theorem unset_told (m : M) : Told S qt n n' f (.unset m) (.unset m) := by
  intro r r' hr hr' _ _ T U _ _
  -- the two numbers of levels do not matter
  have hmax := serializeProperty_mono (fun m fs r => serializeMessage_mono (Nat.le_max_left n n')) hr
  have hmax' := serializeProperty_mono (fun m fs r => serializeMessage_mono (Nat.le_max_right n n')) hr'
  rw [hmax] at hmax'
  cases hmax'
  exact append_iff (.unset m)

/-- An unset message is written as the default object. -/
theorem Told.unset_object {m : M} {fs : List (Value M)}
    (h : Told S qt n n' f (.object m (newObject S m)) (.object m fs)) :
    Told S qt n n' f (.unset m) (.object m fs) := by
  intro r r' hr hr' hlen hlen' T U hT hU
  refine (h r r' hr hr' hlen hlen' T U hT hU).trans (and_congr_left' ⟨.unset_object, fun hs => ?_⟩)
  cases hs with
  | unset_object hs => exact hs

theorem Told.object_unset {m : M} {fs : List (Value M)}
    (h : Told S qt n n' f (.object m fs) (.object m (newObject S m))) :
    Told S qt n n' f (.object m fs) (.unset m) := by
  intro r r' hr hr' hlen hlen' T U hT hU
  refine (h r r' hr hr' hlen hlen' T U hT hU).trans (and_congr_left' ⟨.object_unset, fun hs => ?_⟩)
  cases hs with
  | object_unset hs => exact hs

theorem object_told {m : M} {fs gs : List (Value M)} (hl : fs.length = (S m).properties.length)
    (h : ∀ (i : Nat) v w, fs[i]? = some v → gs[i]? = some w →
      ∀ n n' f, f < 2 ^ 29 → Told S qt n n' f v w) :
    Told S qt n n' f (.object m fs) (.object m gs) := fun _ _ hr hr' hlen hlen' T U _ _ =>
  object_iff (fun _ _ hd hd' => message_iff hl h hd hd') hr hr' hlen hlen' T U

/-- A list of messages: its elements, one after the other. -/
theorem messages_told {m : M} {vs ws : List (Value M)} (hf : f < 2 ^ 29) (hl : vs.length = ws.length)
    (hv : ∀ v ∈ vs, HasType S (.single (.message m)) v ∧ ¬ NullPointer v)
    (hw : ∀ w ∈ ws, HasType S (.single (.message m)) w ∧ ¬ NullPointer w)
    (h : ∀ p ∈ vs.zip ws, Told S qt n n' f p.1 p.2) : Told S qt n n' f (.messages vs) (.messages ws) := by
  intro r r' hr hr' hlen hlen' T U _ _
  have helement : ∀ p ∈ vs.zip ws, ∀ x y, serializeListObject (serializeMessage S qt n) f p.1 = some x →
      serializeListObject (serializeMessage S qt n') f p.2 = some y → x.length < 2 ^ 31 → y.length < 2 ^ 31 →
      ∀ T U, x ++ T = y ++ U ↔ SameNulls S qt p.1 p.2 ∧ T = U := by
    intro p hp x y hx hy hxl hyl T U
    obtain ⟨hp₁, hp₂⟩ := List.of_mem_zip hp
    obtain ⟨fs, hfs⟩ := (hv _ hp₁).1.set_object (hv _ hp₁).2
    obtain ⟨gs, hgs⟩ := (hw _ hp₂).1.set_object (hw _ hp₂).2
    have htold := h p hp
    rw [hfs] at hx
    rw [hgs] at hy
    rw [hfs, hgs] at htold ⊢
    exact htold.object hf hx hy hxl hyl T U
  refine (appendAll_iff hl helement hr hr' hlen hlen' T U).trans (and_congr_left' ⟨.messages, fun hs => ?_⟩)
  cases hs with
  | messages hs => exact hs

/-- A map: its entries, one after the other. -/
theorem map_told {vt : SingleType M} {es es' : List (Scalar × Value M)} (hl : es.length = es'.length)
    (hk : ∀ p ∈ es.zip es', p.1.1.text = p.2.1.text)
    (hv : ∀ e ∈ es, HasType S (.single vt) e.2 ∧ ¬ NullPointer e.2)
    (hw : ∀ e ∈ es', HasType S (.single vt) e.2 ∧ ¬ NullPointer e.2)
    (h : ∀ p ∈ es.zip es', Told S qt n n' 2 p.1.2 p.2.2) : Told S qt n n' f (.map es) (.map es') := by
  intro r r' hr hr' hlen hlen' T U _ _
  have hentry : ∀ p ∈ es.zip es', ∀ x y, serializeMapEntry S qt (serializeMessage S qt n) f p.1 = some x →
      serializeMapEntry S qt (serializeMessage S qt n') f p.2 = some y → x.length < 2 ^ 31 → y.length < 2 ^ 31 →
      ∀ T U, x ++ T = y ++ U ↔
        (qt.isNull p.1.1 = qt.isNull p.2.1 ∧ SameNulls S qt p.1.2 p.2.2) ∧ T = U := by
    intro p hp x y hx hy hxl hyl T U
    obtain ⟨hp₁, hp₂⟩ := List.of_mem_zip hp
    obtain ⟨hvt, hvn⟩ := hv _ hp₁
    obtain ⟨hwt, hwn⟩ := hw _ hp₂
    rw [mapEntry_pair hvt hvn] at hx
    rw [mapEntry_pair hwt hwn] at hy
    exact entry_iff (hk p hp) (h p hp) hx hy (single_property hvt) (single_property hwt) hxl hyl T U
  refine (appendAll_iff hl (Q := fun e e' => qt.isNull e.1 = qt.isNull e'.1 ∧ SameNulls S qt e.2 e'.2) hentry hr hr'
    hlen hlen' T U).trans (and_congr_left' ⟨fun hs => ?_, fun hs => ?_⟩)
  · exact .map (fun p hp => (hs p hp).1) fun p hp => (hs p hp).2
  · cases hs with
    | map hk hv => exact fun p hp => ⟨hk p hp, hv p hp⟩

/-- **Values.** The bytes of equal values agree exactly if their nulls do. -/
theorem encodings_iff {v w : Value M} (he : Equal S v w) {t : FieldType M} (hv : HasType S t v)
    (hw : HasType S t w) (hnv : ¬ HasNull v) (hnw : ¬ HasNull w) (n n' : Nat) {f : Nat} (hf : f < 2 ^ 29) :
    Told S qt n n' f v w := by
  induction he generalizing t n n' f with
  | scalar h =>
    intro r r' hr hr' _ _ T U hT hU
    cases hr
    cases hr'
    refine (scalar_iff h hT hU).trans (and_congr_left' ⟨.scalar, fun hs => ?_⟩)
    cases hs with
    | scalar h => exact h
  | enum v => exact same_told (.enum v) (fun _ => rfl) fun _ _ => rfl
  | unset m => exact unset_told m
  | @unset_object m fs h ih =>
    cases hw with
    | object _ hl hfs =>
      exact (ih (hasType_newObject m) (.object m hl hfs) (newObject_noNull m) hnw n n' hf).unset_object
  | @object_unset m fs h ih =>
    cases hv with
    | object _ hl hfs =>
      exact (ih (.object m hl hfs) (hasType_newObject m) hnv (newObject_noNull m) n n' hf).object_unset
  | @object m fs gs hl h ih =>
    cases hv with
    | object _ hlf hfs =>
      refine object_told hlf fun i v w hi hi' => ?_
      obtain ⟨t, ht, hvt⟩ := (HasType.object m hlf hfs).property hi
      exact ih i v w hi hi' hvt (hw.get ht hi') (fun hn => hnv (.field (List.mem_of_getElem? hi) hn))
        fun hn => hnw (.field (List.mem_of_getElem? hi') hn)
  | nums num vs => exact same_told (.nums num vs) (fun _ => rfl) fun _ _ => rfl
  | @strings vs ws h =>
    refine same_told (.strings vs ws) (fun rec => ?_) fun _ _ => rfl
    have hbytes := congrArg (List.map qt.toUtf8) h
    rw [List.map_map, List.map_map] at hbytes
    exact congrArg (fun bs => some (withHeader f .lengthDelimited (serializeBytesList f bs))) hbytes
  | @byteArrays vs ws h =>
    refine same_told (.byteArrays vs ws) (fun rec => ?_) fun _ _ => rfl
    exact congrArg (fun bs => some (withHeader f .lengthDelimited (serializeBytesList f bs))) h
  | enums vs => exact same_told (.enums vs) (fun _ => rfl) fun _ _ => rfl
  | @messages vs ws hl h ih =>
    cases hv with
    | @messages m' _ hv =>
      cases hw with
      | messages hw =>
        have hn : ∀ v ∈ vs, ¬ NullPointer v := fun v hmem hn => hnv (hasNull_messages.mpr ⟨v, hmem, hn⟩)
        have hn' : ∀ w ∈ ws, ¬ NullPointer w := fun w hmem hn => hnw (hasNull_messages.mpr ⟨w, hmem, hn⟩)
        refine messages_told hf hl (fun v hmem => ⟨hv v hmem, hn v hmem⟩) (fun w hmem => ⟨hw w hmem, hn' w hmem⟩)
          fun p hp => ?_
        obtain ⟨hp₁, hp₂⟩ := List.of_mem_zip hp
        exact ih p hp (hv _ hp₁) (hw _ hp₂) (fun h => hn _ hp₁ (.inr h)) (fun h => hn' _ hp₂ (.inr h)) n n' hf
  | @map es es' hl hk h ih =>
    cases hv with
    | @map kt vt _ _ hv =>
      cases hw with
      | map _ hw =>
        have hn : ∀ e ∈ es, ¬ NullPointer e.2 := fun e hmem hn => hnv (hasNull_map.mpr ⟨e, hmem, hn⟩)
        have hn' : ∀ e ∈ es', ¬ NullPointer e.2 := fun e hmem hn => hnw (hasNull_map.mpr ⟨e, hmem, hn⟩)
        refine map_told hl hk (fun e hmem => ⟨hv e hmem, hn e hmem⟩) (fun e hmem => ⟨hw e hmem, hn' e hmem⟩)
          fun p hp => ?_
        obtain ⟨hp₁, hp₂⟩ := List.of_mem_zip hp
        exact ih p hp (hv _ hp₁) (hw _ hp₂) (fun h => hn _ hp₁ (.inr h)) (fun h => hn' _ hp₂ (.inr h)) n n'
          (by decide)

/-! ## Messages -/

theorem HasType.serializes_acyclic [Finite M] (h : Acyclic S) {t : FieldType M} {v : Value M}
    (hv : HasType S t v) : Serializes S qt v := by
  induction hv with
  | unset m => exact serializes_unset (serializes_newObject h m)
  | object m hl _ ih =>
    refine serializes_object (serializeMessage_of_fields hl fun v hv => ?_)
    obtain ⟨i, hi⟩ := List.mem_iff_getElem?.mp hv
    have hlt : i < (S m).properties.length := hl ▸ (List.getElem?_eq_some_iff.mp hi).1
    exact ih i _ v (List.getElem?_eq_getElem hlt) hi
  | messages hv ih =>
    obtain ⟨n, hn⟩ := Serializes.all ih
    refine ⟨n, fun f => appendAll_total fun v hmem => ?_⟩
    cases hv v hmem with
    | unset => exact ⟨[], rfl⟩
    | object _ _ _ => exact hn _ hmem f
  | @map kt vt es hk hv ih =>
    obtain ⟨n, hn⟩ := Serializes.all fun v hmem => by
      obtain ⟨e, he, rfl⟩ := List.mem_map.mp hmem
      exact ih e he
    refine ⟨n, fun f => appendAll_total fun e he => ?_⟩
    obtain ⟨r, hr⟩ := hn e.2 (List.mem_map_of_mem he) 2
    rw [← single_property (hv e he)] at hr
    by_cases hu : e.2.isUnset = true
    · obtain ⟨m, hm⟩ := isUnset_iff.mp hu
      obtain ⟨key, value⟩ := e
      cases hm
      exact ⟨[], rfl⟩
    · have hpair : serializeMapEntry S qt (serializeMessage S qt n) f e =
          serializeMapPair S qt (serializeMessage S qt n) f e.1 e.2 := by
        obtain ⟨key, value⟩ := e
        cases value with
        | unset m => exact absurd rfl hu
        | _ => rfl
      rw [hpair, serializeMapPair, hr]
      exact ⟨_, rfl⟩
  | _ => exact ⟨0, fun f => ⟨_, rfl⟩⟩

/-- **Canonical encoding.** Two equal messages have the same bytes if and only if
their nulls agree. -/
theorem canonical_iff [Finite M] (hS : Acyclic S) {m : M} {fs gs : List (Value M)}
    (hf : HasType S (.single (.message m)) (.object m fs))
    (hg : HasType S (.single (.message m)) (.object m gs)) (hnf : ¬ HasNull (.object m fs))
    (hng : ¬ HasNull (.object m gs)) (he : Equal S (.object m fs) (.object m gs)) :
    ∃ data data', (∃ levels, ∀ n, levels ≤ n →
        serializeMessage S qt n m fs = some data ∧ serializeMessage S qt n m gs = some data') ∧
      (data.length < 2 ^ 31 → data'.length < 2 ^ 31 →
        (data = data' ↔ SameNulls S qt (.object m fs) (.object m gs))) := by
  have htotal : ∀ fs, HasType S (.single (.message m)) (.object m fs) →
      ∃ n data, serializeMessage S qt n m fs = some data := by
    intro fs hf
    obtain ⟨n, hn⟩ := hf.serializes_acyclic hS
    obtain ⟨r, hr⟩ := hn 1
    obtain ⟨data, hd, -⟩ := Option.bind_eq_some_iff.mp hr
    exact ⟨n, data, hd⟩
  obtain ⟨n, data, hd⟩ := htotal fs hf
  obtain ⟨n', data', hd'⟩ := htotal gs hg
  refine ⟨data, data', ⟨max n n', fun k hk => ?_⟩, fun hlen hlen' => ?_⟩
  · exact ⟨serializeMessage_mono (by omega) hd, serializeMessage_mono (by omega) hd'⟩
  · cases hf with
    | object _ hcount hf =>
      cases hg with
      | object _ _ hg =>
        cases he with
        | object _ hl he =>
          refine message_iff hcount (fun i v w hi hi' n n' f hrange => ?_) hd hd' hlen hlen'
          have hlt : i < (S m).properties.length := hcount ▸ (List.getElem?_eq_some_iff.mp hi).1
          have ht := List.getElem?_eq_getElem hlt
          exact encodings_iff (he i v w hi hi') (hf i _ v ht hi) (hg i _ w ht hi')
            (fun hn => hnf (.field (List.mem_of_getElem? hi) hn))
            (fun hn => hng (.field (List.mem_of_getElem? hi') hn)) n n' hrange

end

/-- Qt 5 on strings of ASCII characters. -/
def QtCore.ascii5 : QtCore where
  isNull v := v == .string none || v == .bytes none
  toUtf8 := QtCore.ascii.toUtf8
  fromUtf8 := QtCore.ascii.fromUtf8
  isNull_text v h := by simpa using h
  toUtf8_nil := rfl
  fromUtf8_nil := rfl

/-- One string, of the field number 1. -/
def stringSchema : Schema Unit := oneFieldSchema (.single (.scalar .string))

/-- The default message, and the one that a string was set in and then an empty
string, are equal; the second has two bytes more. -/
theorem not_canonical_emptied :
    ((Value.scalar (M := Unit) (.string none)).write (.scalar (.string (some [97])))).write
        (.scalar (.string (some []))) = .scalar (.string (some [])) ∧
      Equal stringSchema (.object () (newObject stringSchema ())) (.object () [.scalar (.string (some []))]) ∧
      serializeMessage stringSchema .ascii5 1 () (newObject stringSchema ()) = some [] ∧
      serializeMessage stringSchema .ascii5 1 () [.scalar (.string (some []))] = some [0x0a, 0x00] := by
  refine ⟨rfl, .object () rfl fun i v w hv hw => ?_, rfl, by decide⟩
  cases i with
  | zero =>
    cases hv
    cases hw
    exact .scalar rfl
  | succ i => cases hv

theorem stringSchema_acyclic : Acyclic stringSchema := by
  have hnone : ∀ m' m, ¬ Contains stringSchema m' m := fun m' m h => by
    cases List.mem_singleton.mp h
  intro m h
  cases h with
  | single h => exact hnone _ _ h
  | tail _ h => exact hnone _ _ h

/-- Two messages with the same string, that is not null. -/
theorem canonical_string :
    ∃ data data', (∃ levels, ∀ n, levels ≤ n →
        serializeMessage stringSchema .ascii5 n () [.scalar (.string (some [97]))] = some data ∧
          serializeMessage stringSchema .ascii5 n () [.scalar (.string (some [97]))] = some data') ∧
      (data.length < 2 ^ 31 → data'.length < 2 ^ 31 →
        (data = data' ↔ SameNulls stringSchema .ascii5 (.object () [.scalar (.string (some [97]))])
          (.object () [.scalar (.string (some [97]))]))) := by
  have htype : HasType stringSchema (.single (.message ())) (.object () [.scalar (.string (some [97]))]) := by
    refine .object () rfl fun i t v ht hv => ?_
    cases i with
    | zero =>
      cases ht
      cases hv
      exact .scalar (.string (some [97]))
    | succ i => cases ht
  have hnull : ¬ HasNull (.object () [.scalar (.string (some [97]))] : Value Unit) := fun h => by
    obtain ⟨v, hv, h⟩ := hasNull_object.mp h
    cases List.mem_singleton.mp hv
    cases h
  refine canonical_iff stringSchema_acyclic htype htype hnull hnull (.object () rfl fun i v w hv hw => ?_)
  cases i with
  | zero =>
    cases hv
    cases hw
    exact .scalar rfl
  | succ i => cases hv

end QtProtobuf.Codec
