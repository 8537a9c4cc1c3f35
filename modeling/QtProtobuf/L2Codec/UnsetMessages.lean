import QtProtobuf.L2Codec.Serialize

/-!
# Unset sub-messages

The getter of an unset sub-message makes a default one, and `serializeMessage`
writes it, with the sub-messages that its own getters make.

* `serializes_set_only_iff`: a message is serialized, with only what was set,
  exactly if no sub-message is unset, at any depth.
-/
namespace QtProtobuf.Codec

open Wire

variable {M : Type}

/-! ## Values and the messages in them -/

/-- `v` is a value of a property of the type. Null pointers in lists and maps
are values too. -/
inductive HasType (S : Schema M) : FieldType M → Value M → Prop
  | scalar (v : Scalar) : HasType S (.single (.scalar v.type)) (.scalar v)
  | enum (v : BitVec 32) : HasType S (.single .enum) (.enum v)
  | unset (m : M) : HasType S (.single (.message m)) (.unset m)
  | object (m : M) {fs : List (Value M)} (hl : fs.length = (S m).properties.length)
    (h : ∀ (i : Nat) t v, (S m).properties[i]? = some t → fs[i]? = some v → HasType S t v) :
    HasType S (.single (.message m)) (.object m fs)
  | nums (t : NumType) (vs : List (BitVec t.width)) : HasType S (.nums t) (.nums t vs)
  | strings (vs : List (Option (List UInt16))) : HasType S .strings (.strings vs)
  | byteArrays (vs : List (Option Bytes)) : HasType S .byteArrays (.byteArrays vs)
  | enums (vs : List (BitVec 32)) : HasType S .enums (.enums vs)
  | messages {m : M} {vs : List (Value M)} (h : ∀ v ∈ vs, HasType S (.single (.message m)) v) :
    HasType S (.messages m) (.messages vs)
  | map {kt : ScalarType} {vt : SingleType M} {es : List (Scalar × Value M)}
    (hk : ∀ e ∈ es, e.1.type = kt) (h : ∀ e ∈ es, HasType S (.single vt) e.2) :
    HasType S (.map kt vt) (.map es)

/-- The value of a property has the message `u`, in a list or a map perhaps. -/
inductive Value.Has : Value M → M × List (Value M) → Prop
  | object (m : M) (fs : List (Value M)) : Has (.object m fs) (m, fs)
  | element {m : M} {fs : List (Value M)} {vs : List (Value M)} (h : .object m fs ∈ vs) :
    Has (.messages vs) (m, fs)
  | entry {m : M} {fs : List (Value M)} {key : Scalar} {es : List (Scalar × Value M)}
    (h : (key, .object m fs) ∈ es) : Has (.map es) (m, fs)

/-- `u` was set in a property of `w`. -/
def SetIn (w u : M × List (Value M)) : Prop := ∃ v ∈ w.2, v.Has u

/-- No property of `w`, or of a message set in it at any depth, is an unset message. -/
def AllSet (w : M × List (Value M)) : Prop :=
  ∀ u, Relation.ReflTransGen SetIn w u → ∀ m, Value.unset m ∉ u.2

theorem AllSet.unset {w : M × List (Value M)} (h : AllSet w) (m : M) : Value.unset m ∉ w.2 := h w .refl m

theorem AllSet.setIn {w u : M × List (Value M)} (h : AllSet w) (hu : SetIn w u) : AllSet u :=
  fun u' hu' => h u' (.head hu hu')

theorem allSet_of {w : M × List (Value M)} (h : ∀ m, Value.unset m ∉ w.2)
    (hu : ∀ u, SetIn w u → AllSet u) : AllSet w := by
  intro u hr
  rcases Relation.ReflTransGen.cases_head hr with rfl | ⟨c, hc, hr⟩
  · exact h
  · exact hu c hc u hr

/-! ## What should be written -/

section
variable (S : Schema M) (qt : QtCore)

/-- A serializer that leaves out a sub-message that is not set. -/
def serializeSetProperty (rec : M → List (Value M) → Option Bytes) (f : Nat) : Value M → Option Bytes
  | .unset _ => some []
  | v => serializeProperty S qt rec f v

def serializeSet : Nat → M → List (Value M) → Option Bytes
  | 0, _, _ => none
  | n + 1, m, fields =>
    appendAll (fun p => fields[p.2]? >>= serializeSetProperty S qt (serializeSet n) p.1)
      (S m).propertyOrdering

/-- `serializeMessage` ends on `w`, with the bytes of what was set. -/
def WritesSet (w : M × List (Value M)) : Prop :=
  ∃ data N, ∀ n, N ≤ n →
    serializeMessage S qt n w.1 w.2 = some data ∧ serializeSet S qt n w.1 w.2 = some data

/-- So it does on `w` and on the messages set in it, at any depth. -/
def SerializesSetOnly (w : M × List (Value M)) : Prop :=
  ∀ u, Relation.ReflTransGen SetIn w u → WritesSet S qt u

end

variable {S : Schema M} {qt : QtCore}

/-! ## Messages without unset properties -/

section
variable {rec rec' : M → List (Value M) → Option Bytes}

theorem appendAll_congr {α : Type} {f g : α → Option Bytes} {as : List α} (h : ∀ a ∈ as, f a = g a) :
    appendAll f as = appendAll g as := by
  induction as with
  | nil => rfl
  | cons a as ih =>
    rw [appendAll, appendAll, h a List.mem_cons_self, ih fun a' ha' => h a' (List.mem_cons_of_mem a ha')]

/-- What is written for a value that is not unset depends on its messages only. -/
theorem serializeProperty_congr {v : Value M} (hv : ∀ m, v ≠ .unset m)
    (h : ∀ u, v.Has u → rec u.1 u.2 = rec' u.1 u.2) (f : Nat) :
    serializeProperty S qt rec f v = serializeProperty S qt rec' f v := by
  cases v with
  | unset m => exact absurd rfl (hv m)
  | object m fs =>
    simp only [serializeProperty, serializeSingle, serializeObject, h (m, fs) (.object m fs)]
  | messages vs =>
    refine appendAll_congr fun v hv => ?_
    cases v with
    | object m fs => simp only [serializeListObject, serializeObject, h (m, fs) (.element hv)]
    | _ => rfl
  | map es =>
    refine appendAll_congr fun e he => ?_
    obtain ⟨key, v⟩ := e
    cases v with
    | object m fs =>
      simp only [serializeMapEntry, serializeMapPair, serializeSingle, serializeObject,
        h (m, fs) (.entry he)]
    | _ => rfl
  | _ => rfl

end

/-- The two serializers agree if nothing is unset. -/
theorem serializeSet_eq {w : M × List (Value M)} (h : AllSet w) (n : Nat) :
    serializeMessage S qt n w.1 w.2 = serializeSet S qt n w.1 w.2 := by
  induction n generalizing w with
  | zero => rfl
  | succ n ih =>
    refine appendAll_congr fun p hp => ?_
    cases hv : w.2[p.2]? with
    | none => rfl
    | some v =>
      have hmem : v ∈ w.2 := List.mem_of_getElem? hv
      have hset : ∀ m, v ≠ .unset m := fun m he => h.unset m (he ▸ hmem)
      have heq : serializeSetProperty S qt (serializeSet S qt n) p.1 v =
          serializeProperty S qt (serializeSet S qt n) p.1 v := by
        cases v with
        | unset m => exact absurd rfl (hset m)
        | _ => rfl
      show serializeProperty S qt _ p.1 v = serializeSetProperty S qt _ p.1 v
      rw [heq]
      exact serializeProperty_congr hset (fun u hu => ih (h.setIn ⟨v, hmem, hu⟩)) p.1

def Value.isUnset : Value M → Bool
  | .unset _ => true
  | _ => false

/-- One number of levels for the messages of a list. -/
theorem Serializes.all_set {vs : List (Value M)} (h : ∀ v ∈ vs, v.isUnset = false → Serializes S qt v) :
    ∃ n, ∀ v ∈ vs, v.isUnset = false →
      ∀ f, ∃ r, serializeProperty S qt (serializeMessage S qt n) f v = some r := by
  have hfilter : ∀ v ∈ vs.filter fun v => !v.isUnset, Serializes S qt v := fun v hv => by
    obtain ⟨hv, hset⟩ := List.mem_filter.mp hv
    exact h v hv (by simpa using hset)
  obtain ⟨n, hn⟩ := Serializes.all hfilter
  exact ⟨n, fun v hv hset => hn v (List.mem_filter.mpr ⟨hv, by simpa using hset⟩)⟩

/-- **Termination.** Where nothing is unset, the recursion follows the value. -/
theorem HasType.serializes {t : FieldType M} {v : Value M} (ht : HasType S t v)
    (hset : v.isUnset = false) (h : ∀ u, v.Has u → AllSet u) : Serializes S qt v := by
  induction ht with
  | unset m => cases hset
  | @object m fs hl _ ih =>
    have hall := h (m, fs) (.object m fs)
    refine serializes_object (serializeMessage_of_fields hl fun v hv => ?_)
    obtain ⟨i, hi⟩ := List.mem_iff_getElem?.mp hv
    have hlt : i < (S m).properties.length := hl ▸ (List.getElem?_eq_some_iff.mp hi).1
    refine ih i _ v (List.getElem?_eq_getElem hlt) hi ?_ fun u hu => hall.setIn ⟨v, hv, hu⟩
    cases v with
    | unset m => exact absurd hv (hall.unset m)
    | _ => rfl
  | @messages m vs hv ih =>
    have hall : ∀ v ∈ vs, v.isUnset = false → Serializes S qt v := fun v hv' hs => by
      refine ih v hv' hs fun u hu => ?_
      have ht := hv v hv'
      cases ht with
      | unset m => cases hs
      | object m hl _ => cases hu; exact h _ (.element hv')
    obtain ⟨n, hn⟩ := Serializes.all_set hall
    refine ⟨n, fun f => appendAll_total fun v hv' => ?_⟩
    have ht := hv v hv'
    cases ht with
    | unset m => exact ⟨[], rfl⟩
    | object m hl _ => exact hn _ hv' rfl f
  | @map kt vt es hk hv ih =>
    have hall : ∀ v ∈ es.map Prod.snd, v.isUnset = false → Serializes S qt v := fun v hv' hs => by
      obtain ⟨e, he, rfl⟩ := List.mem_map.mp hv'
      refine ih e he hs fun u hu => ?_
      obtain ⟨key, v⟩ := e
      have ht := hv (key, v) he
      cases ht with
      | object m hl _ => cases hu; exact h _ (.entry he)
      | unset m => cases hs
      | scalar v => cases hu
      | enum v => cases hu
    obtain ⟨n, hn⟩ := Serializes.all_set hall
    refine ⟨n, fun f => appendAll_total fun e he => ?_⟩
    obtain ⟨key, v⟩ := e
    have ht := hv (key, v) he
    cases ht with
    | unset m => exact ⟨[], rfl⟩
    | scalar v => exact ⟨_, rfl⟩
    | enum v => exact ⟨_, rfl⟩
    | object m hl _ =>
      obtain ⟨r, hr⟩ := hn _ (List.mem_map_of_mem he) rfl 2
      have hr : serializeSingle S qt (serializeMessage S qt n) 2 (.object m _) = some r := hr
      exact ⟨_, by simp only [serializeMapEntry, serializeMapPair, hr]; rfl⟩
  | _ => exact ⟨0, fun f => ⟨_, rfl⟩⟩

theorem AllSet.writesSet {w : M × List (Value M)} (hw : AllSet w)
    (ht : HasType S (.single (.message w.1)) (.object w.1 w.2)) : WritesSet S qt w := by
  have hs : Serializes S qt (.object w.1 w.2) := ht.serializes rfl fun u hu => by cases hu; exact hw
  obtain ⟨N, hN⟩ := hs
  obtain ⟨r, hr⟩ := hN 1
  simp only [serializeProperty, serializeSingle, serializeObject, Option.bind_eq_bind,
    Option.bind_eq_some_iff] at hr
  obtain ⟨data, hd, -⟩ := hr
  refine ⟨data, N, fun n hn => ?_⟩
  have hd' := serializeMessage_mono hn hd
  exact ⟨hd', by rw [← serializeSet_eq hw n]; exact hd'⟩

theorem HasType.setIn {w u : M × List (Value M)} (h : SetIn w u)
    (ht : HasType S (.single (.message w.1)) (.object w.1 w.2)) :
    HasType S (.single (.message u.1)) (.object u.1 u.2) := by
  obtain ⟨v, hv, hu⟩ := h
  obtain ⟨i, hi⟩ := List.mem_iff_getElem?.mp hv
  cases ht with
  | object m hl ht =>
    have hlt : i < (S w.1).properties.length := hl ▸ (List.getElem?_eq_some_iff.mp hi).1
    have hv := ht i _ v (List.getElem?_eq_getElem hlt) hi
    generalize (S w.1).properties[i] = t at hv
    cases hu with
    | object m fs => cases hv with | object _ hl h => exact .object m hl h
    | element hm =>
      cases hv with
      | messages h =>
        have he := h _ hm
        cases he with | object _ hl h => exact .object _ hl h
    | @entry m fs _ _ hm =>
      cases hv with
      | map hk h =>
        have he : HasType S (.single _) (.object m fs) := h _ hm
        cases he with | object _ hl h => exact .object _ hl h

/-! ## Messages with unset properties -/

theorem appendAll_le {α : Type} {f g : α → Option Bytes} {as : List α} {x y : Bytes}
    (hf : appendAll f as = some x) (hg : appendAll g as = some y)
    (h : ∀ a ∈ as, ∀ x y, f a = some x → g a = some y → y.length ≤ x.length) :
    y.length ≤ x.length := by
  induction as generalizing x y with
  | nil => cases hf; cases hg; exact Nat.le_refl _
  | cons a as ih =>
    obtain ⟨x₁, xs, hx, hxs, rfl⟩ := appendAll_cons hf
    obtain ⟨y₁, ys, hy, hys, rfl⟩ := appendAll_cons hg
    have h₁ := h a List.mem_cons_self x₁ y₁ hx hy
    have h₂ := ih hxs hys fun a' ha' => h a' (List.mem_cons_of_mem a ha')
    rw [List.length_append, List.length_append]
    omega

theorem appendAll_lt {α : Type} {f g : α → Option Bytes} {as : List α} {x y : Bytes}
    (hf : appendAll f as = some x) (hg : appendAll g as = some y)
    (h : ∀ a ∈ as, ∀ x y, f a = some x → g a = some y → y.length ≤ x.length) {a : α} (ha : a ∈ as)
    (hlt : ∀ x y, f a = some x → g a = some y → y.length < x.length) : y.length < x.length := by
  induction as generalizing x y with
  | nil => exact absurd ha List.not_mem_nil
  | cons b as ih =>
    obtain ⟨x₁, xs, hx, hxs, rfl⟩ := appendAll_cons hf
    obtain ⟨y₁, ys, hy, hys, rfl⟩ := appendAll_cons hg
    have htail : ∀ a' ∈ as, ∀ x y, f a' = some x → g a' = some y → y.length ≤ x.length :=
      fun a' ha' => h a' (List.mem_cons_of_mem b ha')
    rw [List.length_append, List.length_append]
    rcases List.mem_cons.mp ha with rfl | ha
    · have h₁ := hlt x₁ y₁ hx hy
      have h₂ := appendAll_le hxs hys htail
      omega
    · have h₁ := h b List.mem_cons_self x₁ y₁ hx hy
      have h₂ := ih hxs hys htail ha
      omega

theorem prependLengthDelimitedSize_ne_nil (data : Bytes) : prependLengthDelimitedSize data ≠ [] := by
  obtain ⟨hb, -, -⟩ := serializeVarintCommon_isVarint (data.length % 2 ^ 32) (by omega)
  intro he
  rw [(List.append_eq_nil_iff.mp he).1] at hb
  exact hb

theorem serializeObject_ne_nil {rec : M → List (Value M) → Option Bytes} {f : Nat} {m : M}
    {fs : List (Value M)} {x : Bytes} (h : serializeObject rec f m fs = some x) : 0 < x.length := by
  simp only [serializeObject, Option.bind_eq_bind, Option.bind_eq_some_iff, Option.pure_def,
    Option.some.injEq] at h
  obtain ⟨data, -, rfl⟩ := h
  have hpos := List.length_pos_iff.mpr (prependLengthDelimitedSize_ne_nil data)
  rw [List.length_append]
  omega

/-- An unset property makes the encoding longer. -/
theorem WritesSet.unset {w : M × List (Value M)} (h : WritesSet S qt w)
    (hl : w.2.length = (S w.1).properties.length) (hall : ∀ u, SetIn w u → AllSet u) (m : M) :
    Value.unset m ∉ w.2 := by
  intro hmem
  obtain ⟨data, N, hN⟩ := h
  obtain ⟨hmsg, hset⟩ := hN (N + 1) (Nat.le_succ N)
  obtain ⟨i, hi⟩ := List.mem_iff_getElem?.mp hmem
  obtain ⟨p, hp, rfl⟩ := (S w.1).mem_ordering (hl ▸ (List.getElem?_eq_some_iff.mp hi).1)
  have hlt : data.length < data.length := by
    refine appendAll_lt hmsg hset (fun q _ x y hx hy => ?_) hp fun x y hx hy => ?_
    · cases hv : w.2[q.2]? with
      | none => rw [hv] at hx; cases hx
      | some v =>
        rw [hv] at hx hy
        have hx : serializeProperty S qt (serializeMessage S qt N) q.1 v = some x := hx
        have hy : serializeSetProperty S qt (serializeSet S qt N) q.1 v = some y := hy
        have hv := List.mem_of_getElem? hv
        have hsame : (∀ m, v ≠ .unset m) → serializeProperty S qt (serializeMessage S qt N) q.1 v =
            serializeProperty S qt (serializeSet S qt N) q.1 v := fun hne =>
          serializeProperty_congr hne (fun u hu => serializeSet_eq (hall u ⟨v, hv, hu⟩) N) q.1
        cases v with
        | unset m => cases hy; exact Nat.zero_le _
        | _ =>
          rw [hsame fun m he => by cases he] at hx
          rw [Option.some.inj (hx.symm.trans hy)]
    · rw [hi] at hx hy
      cases hy
      exact serializeObject_ne_nil hx
  exact Nat.lt_irrefl _ hlt

/-- A message set in another is smaller. -/
theorem SetIn.sizeOf_lt {w u : M × List (Value M)} (h : SetIn w u) : sizeOf u.2 < sizeOf w.2 := by
  obtain ⟨v, hv, hu⟩ := h
  have hlt := List.sizeOf_lt_of_mem hv
  cases hu with
  | object m fs => simp at hlt ⊢; omega
  | element he =>
    have he := List.sizeOf_lt_of_mem he
    simp at hlt he ⊢
    omega
  | entry he =>
    have he := List.sizeOf_lt_of_mem he
    simp at hlt he ⊢
    omega

/-- **Unset sub-messages.** A message is serialized, at every depth with only
what was set, exactly if no sub-message is unset. -/
theorem serializes_set_only_iff {m : M} {fs : List (Value M)}
    (ht : HasType S (.single (.message m)) (.object m fs)) :
    SerializesSetOnly S qt (m, fs) ↔ AllSet (m, fs) := by
  have hforward : ∀ w : M × List (Value M), HasType S (.single (.message w.1)) (.object w.1 w.2) →
      SerializesSetOnly S qt w → AllSet w := by
    intro w
    induction hn : sizeOf w.2 using Nat.strongRecOn generalizing w with
    | _ n ih =>
      intro ht h
      have hall : ∀ u, SetIn w u → AllSet u := fun u hu =>
        ih _ (hn ▸ hu.sizeOf_lt) u rfl (ht.setIn hu) fun u' hu' => h u' (.head hu hu')
      refine allSet_of ((h w .refl).unset ?_ hall) hall
      cases ht with | object _ hl _ => exact hl
  refine ⟨hforward (m, fs) ht, fun h u hu => ?_⟩
  have hu' : HasType S (.single (.message u.1)) (.object u.1 u.2) ∧ AllSet u := by
    induction hu with
    | refl => exact ⟨ht, h⟩
    | tail _ hc ih => exact ⟨ih.1.setIn hc, ih.2.setIn hc⟩
  exact hu'.2.writesSet hu'.1

/-- The message type whose only field is of the type itself. -/
def selfSchema : Schema Unit := fun m => .oneField 1 fieldNumber_one (.single (.message m))

theorem selfSchema_none (n : Nat) : serializeMessage selfSchema qt n () [.unset ()] = none := by
  induction n with
  | zero => rfl
  | succ n ih =>
    have h : serializeObject (serializeMessage selfSchema qt n) 1 () (newObject selfSchema ()) = none := by
      show (serializeMessage selfSchema qt n () [.unset ()] >>= _) = none
      rw [ih]
      rfl
    show (serializeObject (serializeMessage selfSchema qt n) 1 () (newObject selfSchema ()) >>= _) = none
    rw [h]
    rfl

/-- Its default value has no encoding. -/
theorem not_serializes_self : ¬ SerializesSetOnly selfSchema .ascii ((), [.unset ()]) := by
  intro h
  obtain ⟨data, N, hN⟩ := h _ .refl
  have hd := (hN N (Nat.le_refl N)).1
  rw [selfSchema_none] at hd
  cases hd

/-- A message with a number in a message. -/
def holderSchema : Schema Bool
  | false => .oneField 1 fieldNumber_one (.single (.message true))
  | true => .oneField 1 fieldNumber_one (.single (.scalar (.num .int32)))

/-- The number is 5, and its message is set. -/
theorem serializes_set_only_number :
    SerializesSetOnly holderSchema .ascii (false, [.object true [.scalar (.num .int32 5)]]) := by
  have hinner : HasType holderSchema (.single (.message true)) (.object true [.scalar (.num .int32 5)]) := by
    refine .object true rfl fun i t v ht hv => ?_
    cases i with
    | zero => cases ht; cases hv; exact .scalar (.num .int32 5)
    | succ i => cases hv
  have houter : HasType holderSchema (.single (.message false))
      (.object false [.object true [.scalar (.num .int32 5)]]) := by
    refine .object false rfl fun i t v ht hv => ?_
    cases i with
    | zero => cases ht; cases hv; exact hinner
    | succ i => cases hv
  refine (serializes_set_only_iff houter).mpr (allSet_of (by simp) fun u hu => ?_)
  obtain ⟨v, hv, hu⟩ := hu
  rw [List.mem_singleton.mp hv] at hu
  cases hu
  refine allSet_of (by simp) fun u hu => ?_
  obtain ⟨v, hv, hu⟩ := hu
  rw [List.mem_singleton.mp hv] at hu
  cases hu

end QtProtobuf.Codec
