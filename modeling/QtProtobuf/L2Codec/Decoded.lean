import QtProtobuf.L2Codec.FailedDecode
import QtProtobuf.L2Codec.UnsetMessages

/-!
# What decoding makes

* `deserializeMessage_hasType`: the values of the properties have their types.
* `valueOf_insertPair`: what a map holds when a pair was put in.
-/
namespace QtProtobuf.Codec

open Lib Wire

variable {M : Type}

/-! ## Maps -/

/-- A map is ordered by key. -/
def Value.Ordered : Value M → Prop
  | .map es => es.Pairwise fun e e' => e.1.key < e'.1.key
  | _ => True

theorem insertPair_keys {k : Scalar} {v : Value M} {es : List (Scalar × Value M)} {e : Scalar × Value M}
    (h : e ∈ insertPair k v es) : e.1.key = k.key ∨ e ∈ es := by
  induction es with
  | nil => simp [insertPair] at h; exact .inl (by rw [h])
  | cons e' es ih =>
    obtain ⟨k', v'⟩ := e'
    unfold insertPair at h
    split at h
    · rcases List.mem_cons.mp h with rfl | h
      · exact .inl rfl
      · exact .inr h
    · split at h
      · rcases List.mem_cons.mp h with rfl | h
        · exact .inr List.mem_cons_self
        · exact (ih h).imp_right (List.mem_cons_of_mem _)
      · rename_i h₁ h₂
        rcases List.mem_cons.mp h with rfl | h
        · exact .inl (List.le_antisymm h₁ h₂)
        · exact .inr (List.mem_cons_of_mem _ h)

theorem insertPair_ordered {k : Scalar} {v : Value M} {es : List (Scalar × Value M)}
    (h : es.Pairwise fun e e' => e.1.key < e'.1.key) :
    (insertPair k v es).Pairwise fun e e' => e.1.key < e'.1.key := by
  induction es with
  | nil => exact List.pairwise_singleton _ _
  | cons e es ih =>
    obtain ⟨k', v'⟩ := e
    obtain ⟨hlt, hes⟩ := List.pairwise_cons.mp h
    unfold insertPair
    by_cases h₁ : k.key < k'.key
    · rw [if_pos h₁]
      refine List.pairwise_cons.mpr ⟨fun e he => ?_, h⟩
      rcases List.mem_cons.mp he with rfl | he
      · exact h₁
      · exact List.lt_trans h₁ (hlt e he)
    · rw [if_neg h₁]
      by_cases h₂ : k'.key < k.key
      · rw [if_pos h₂]
        refine List.pairwise_cons.mpr ⟨fun e he => ?_, ih hes⟩
        rcases insertPair_keys he with hkey | he
        · exact hkey ▸ h₂
        · exact hlt e he
      · rw [if_neg h₂]
        exact List.pairwise_cons.mpr ⟨fun e he => hlt e he, hes⟩

/-- The value at a key. -/
def valueOf (es : List (Scalar × Value M)) (key : List Int) : Option (Value M) :=
  (es.find? fun e => e.1.key == key).map Prod.snd

theorem valueOf_cons (e : Scalar × Value M) (es : List (Scalar × Value M)) (key : List Int) :
    valueOf (e :: es) key = if e.1.key = key then some e.2 else valueOf es key := by
  unfold valueOf
  by_cases h : e.1.key = key
  · simp [h]
  · simp [h, List.find?_cons_of_neg]

theorem valueOf_insertPair {k : Scalar} {v : Value M} {es : List (Scalar × Value M)}
    (h : es.Pairwise fun e e' => e.1.key < e'.1.key) (key : List Int) :
    valueOf (insertPair k v es) key = if k.key = key then some v else valueOf es key := by
  induction es with
  | nil => exact valueOf_cons (k, v) [] key
  | cons e es ih =>
    obtain ⟨k', v'⟩ := e
    obtain ⟨hlt, hes⟩ := List.pairwise_cons.mp h
    unfold insertPair
    by_cases h₁ : k.key < k'.key
    · rw [if_pos h₁, valueOf_cons]
    · rw [if_neg h₁]
      by_cases h₂ : k'.key < k.key
      · rw [if_pos h₂, valueOf_cons, valueOf_cons, ih hes]
        by_cases hk : k.key = key
        · have hne : k'.key ≠ key := fun he => List.lt_irrefl _ (he.trans hk.symm ▸ h₂)
          simp [hk, hne]
        · simp [hk]
      · have heq : k.key = k'.key := List.le_antisymm h₂ h₁
        rw [if_neg h₂, valueOf_cons, valueOf_cons, heq]
        by_cases hk : k'.key = key
        · simp [hk]
        · simp [hk]

/-- In an ordered map there is one entry with the key at most. -/
theorem exists_key_iff {es : List (Scalar × Value M)} (h : es.Pairwise fun e e' => e.1.key < e'.1.key)
    (key : List Int) (P : Value M → Prop) :
    (∃ e ∈ es, e.1.key = key ∧ P e.2) ↔ ∃ v, valueOf es key = some v ∧ P v := by
  induction es with
  | nil => simp [valueOf]
  | cons e es ih =>
    obtain ⟨hlt, hes⟩ := List.pairwise_cons.mp h
    rw [List.exists_mem_cons_iff, valueOf_cons]
    by_cases hk : e.1.key = key
    · have hno : ¬ ∃ e ∈ es, e.1.key = key ∧ P e.2 := by
        rintro ⟨e', he', hk', -⟩
        have h' := hlt e' he'
        rw [hk, hk'] at h'
        exact List.lt_irrefl _ h'
      simp [hk, hno]
    · simp [hk, ih hes]

theorem insertPair_mem {k : Scalar} {v : Value M} {es : List (Scalar × Value M)}
    (h : es.Pairwise fun e e' => e.1.key < e'.1.key) (K : List Int) (P : Value M → Prop) :
    (∃ e ∈ insertPair k v es, e.1.key = K ∧ P e.2) ↔
      (k.key = K ∧ P v) ∨ (k.key ≠ K ∧ ∃ e ∈ es, e.1.key = K ∧ P e.2) := by
  rw [exists_key_iff (insertPair_ordered h), exists_key_iff h, valueOf_insertPair h]
  by_cases hk : k.key = K
  · simp [hk]
  · simp [hk]

/-! ## Types -/

section
variable {S : Schema M} {qt : QtCore} {b : Buffer} {it it' : Iter}

theorem hasType_default (t : FieldType M) : HasType S t t.default := by
  cases t with
  | single t =>
    cases t with
    | scalar t =>
      have h := HasType.scalar (S := S) t.default
      rwa [t.default_type] at h
    | enum => exact .enum 0
    | message m => exact .unset m
  | nums t => exact .nums t []
  | strings => exact .strings []
  | byteArrays => exact .byteArrays []
  | enums => exact .enums []
  | messages m => exact .messages fun v hv => absurd hv List.not_mem_nil
  | map kt vt =>
    exact .map (fun e he => absurd he List.not_mem_nil) fun e he => absurd he List.not_mem_nil

theorem hasType_newObject (m : M) : HasType S (.single (.message m)) (.object m (newObject S m)) := by
  refine .object m (by simp [newObject]) fun i t v ht hv => ?_
  simp only [newObject, List.getElem?_map, ht, Option.map_some, Option.some.injEq] at hv
  exact hv ▸ hasType_default t

theorem HasType.write {t : FieldType M} {v w : Value M} (hv : HasType S t v) (hw : HasType S t w) :
    HasType S t (v.write w) := by
  unfold Value.write
  split
  · exact hv
  · exact hw

/-- A property of an object. -/
theorem HasType.field {m : M} {obj : List (Value M)} (h : HasType S (.single (.message m)) (.object m obj))
    {i : Nat} {t : FieldType M} (ht : (S m).properties[i]? = some t) :
    ∃ v, obj[i]? = some v ∧ HasType S t v ∧ obj.getD i t.default = v := by
  cases h with
  | object _ hl h =>
    have hlt : i < obj.length := hl ▸ (List.getElem?_eq_some_iff.mp ht).1
    refine ⟨obj[i], List.getElem?_eq_getElem hlt, h i t _ ht (List.getElem?_eq_getElem hlt), ?_⟩
    rw [List.getD_eq_getElem?_getD, List.getElem?_eq_getElem hlt, Option.getD_some]

theorem HasType.get {m : M} {obj : List (Value M)} (h : HasType S (.single (.message m)) (.object m obj))
    {i : Nat} {t : FieldType M} (ht : (S m).properties[i]? = some t) {v : Value M} (hv : obj[i]? = some v) :
    HasType S t v := by
  cases h with
  | object _ _ h => exact h i t v ht hv

theorem HasType.property {m : M} {obj : List (Value M)}
    (h : HasType S (.single (.message m)) (.object m obj)) {i : Nat} {v : Value M} (hv : obj[i]? = some v) :
    ∃ t, (S m).properties[i]? = some t ∧ HasType S t v := by
  cases h with
  | object _ hl h =>
    have hlt : i < (S m).properties.length := hl ▸ (List.getElem?_eq_some_iff.mp hv).1
    exact ⟨_, List.getElem?_eq_getElem hlt, h i _ v (List.getElem?_eq_getElem hlt) hv⟩

theorem HasType.set {m : M} {obj : List (Value M)} (h : HasType S (.single (.message m)) (.object m obj))
    {i : Nat} {t : FieldType M} (ht : (S m).properties[i]? = some t) {v : Value M} (hv : HasType S t v) :
    HasType S (.single (.message m)) (.object m (obj.set i v)) := by
  cases h with
  | object _ hl h =>
    refine .object m (by rwa [List.length_set]) fun j t' v' ht' hv' => ?_
    by_cases hj : j = i
    · subst hj
      rw [List.getElem?_set_self (hl ▸ (List.getElem?_eq_some_iff.mp ht).1)] at hv'
      cases hv'
      cases ht.symm.trans ht'
      exact hv
    · rw [List.getElem?_set_ne fun he => hj he.symm] at hv'
      exact h j t' v' ht' hv'

theorem HasType.insertPair {kt : ScalarType} {vt : SingleType M} {es : List (Scalar × Value M)} {k : Scalar}
    {v : Value M} (h : HasType S (.map kt vt) (.map es)) (hk : k.type = kt)
    (hv : HasType S (.single vt) v) : HasType S (.map kt vt) (.map (insertPair k v es)) := by
  cases h with
  | map hks hvs =>
    have hmem : ∀ e ∈ Codec.insertPair k v es, e.1.type = kt ∧ HasType S (.single vt) e.2 := by
      induction es with
      | nil => simp [Codec.insertPair, hk, hv]
      | cons e es ih =>
        obtain ⟨k', v'⟩ := e
        have h' := hks (k', v') List.mem_cons_self
        have h'' := hvs (k', v') List.mem_cons_self
        have ih := ih (fun e he => hks e (List.mem_cons_of_mem _ he)) fun e he =>
          hvs e (List.mem_cons_of_mem _ he)
        unfold Codec.insertPair
        intro e he
        split at he
        · rcases List.mem_cons.mp he with rfl | he
          · exact ⟨hk, hv⟩
          · exact ⟨hks e he, hvs e he⟩
        · split at he
          · rcases List.mem_cons.mp he with rfl | he
            · exact ⟨h', h''⟩
            · exact ih e he
          · rcases List.mem_cons.mp he with rfl | he
            · exact ⟨h', hv⟩
            · exact ⟨hks e (List.mem_cons_of_mem _ he), hvs e (List.mem_cons_of_mem _ he)⟩
    exact .map (fun e he => (hmem e he).1) fun e he => (hmem e he).2

/-! ## What the decoders return -/

theorem scalar_type {t : ScalarType} {v : Scalar} (h : Traced.Runs (deserializeScalar qt b t) it v it') :
    v.type = t := by
  cases t with
  | num t =>
    obtain ⟨v', s, -, h⟩ := h.bind_inv
    obtain ⟨rfl, -⟩ := h.pure_inv
    rfl
  | bool =>
    obtain ⟨v', s, -, h⟩ := h.bind_inv
    obtain ⟨rfl, -⟩ := h.pure_inv
    rfl
  | string =>
    obtain ⟨v', s, -, h⟩ := h.bind_inv
    obtain ⟨rfl, -⟩ := h.pure_inv
    rfl
  | bytes =>
    obtain ⟨v', s, -, h⟩ := h.bind_inv
    obtain ⟨rfl, -⟩ := h.pure_inv
    rfl

variable {rec : Nested M}

theorem object_inv {m : M} {v : Value M} (h : Traced.Runs (deserializeObject rec b m) it v it') :
    ∃ array fs, Traced.Runs (deserializeLengthDelimited b) it array it' ∧ (rec m array).2 = .ok fs ∧
      v = .object m fs := by
  obtain ⟨array, s, harray, hfields⟩ := h.bind_inv
  obtain ⟨fs, s', hlift, hpure⟩ := hfields.bind_inv
  obtain ⟨hfs, rfl⟩ := hlift.lift_inv
  obtain ⟨rfl, rfl⟩ := hpure.pure_inv
  exact ⟨array, fs, harray, hfs, rfl⟩

/-- A part of an entry: the key, or the value. -/
theorem mapPart_inv {kt : ScalarType} {vt : SingleType M} {pair pair' : Scalar × Value M}
    (h : Traced.Runs (deserializeMapPart qt rec b kt vt pair) it pair' it') :
    ∃ header it₁, Traced.Runs (decodeHeader b) it header it₁ ∧
      ((header.2.1 = 1 ∧ Traced.Runs (deserializeScalar qt b kt) it₁ pair'.1 it' ∧ pair'.2 = pair.2) ∨
        (header.2.1 ≠ 1 ∧ Traced.Runs (deserializeSingle qt rec b vt) it₁ pair'.2 it' ∧
          pair'.1 = pair.1)) := by
  obtain ⟨header, it₁, hheader, h⟩ := (stepped_inv h).bind_inv
  refine ⟨header, it₁, hheader, ?_⟩
  split at h
  · rename_i hf
    obtain ⟨key, s, hkey, h⟩ := h.bind_inv
    obtain ⟨rfl, rfl⟩ := h.pure_inv
    exact .inl ⟨hf, hkey, rfl⟩
  · rename_i hf
    obtain ⟨value, s, hvalue, h⟩ := h.bind_inv
    obtain ⟨rfl, rfl⟩ := h.pure_inv
    exact .inr ⟨hf, hvalue, rfl⟩

variable (hrec : ∀ m array fs, (rec m array).2 = .ok fs →
  HasType S (.single (.message m)) (.object m fs))
include hrec

theorem single_hasType {t : SingleType M} {v : Value M}
    (h : Traced.Runs (deserializeSingle qt rec b t) it v it') : HasType S (.single t) v := by
  cases t with
  | scalar t =>
    obtain ⟨v', s, hv, h⟩ := h.bind_inv
    obtain ⟨rfl, -⟩ := h.pure_inv
    rw [← scalar_type hv]
    exact .scalar v'
  | enum =>
    obtain ⟨v', s, -, h⟩ := h.bind_inv
    obtain ⟨rfl, -⟩ := h.pure_inv
    exact .enum _
  | message m =>
    obtain ⟨array, fs, -, hfs, rfl⟩ := object_inv h
    exact hrec m array fs hfs

theorem mapPair_hasType {n : Nat} {kt : ScalarType} {vt : SingleType M} {pair : Scalar × Value M}
    (h : Traced.Runs (deserializeMapPair qt rec n b kt vt) it pair it') :
    pair.1.type = kt ∧ HasType S (.single vt) pair.2 := by
  obtain ⟨count, s, -, h⟩ := h.bind_inv
  obtain ⟨last, s', -, h⟩ := h.bind_inv
  let I (pair : Scalar × Value M) (_ : Iter) := pair.1.type = kt ∧ HasType S (.single vt) pair.2
  have hstep : ∀ a s c s', I a s → Iter.differs last.pos s = true →
      Traced.Runs (deserializeMapPart qt rec b kt vt a) s c s' → I c s' := by
    intro a s c s' hI _ hr
    obtain ⟨header, it₁, -, ⟨-, hkey, hvalue⟩ | ⟨-, hvalue, hkey⟩⟩ := mapPart_inv hr
    · exact ⟨scalar_type hkey, hvalue ▸ hI.2⟩
    · exact ⟨hkey ▸ hI.1, single_hasType hrec hvalue⟩
  have hdefault : HasType S (.single vt) vt.default := hasType_default (.single vt)
  exact (Traced.Runs.while_inv hstep h ⟨kt.default_type, hdefault⟩).1

theorem deserializeValue_hasType {n : Nat} {previous v : Value M} {t : FieldType M}
    (hp : HasType S t previous) (h : Traced.Runs (deserializeValue qt rec n b previous t) it v it') :
    HasType S t v := by
  cases t with
  | single t => exact single_hasType hrec h
  | nums t =>
    obtain ⟨vs, s, -, h⟩ := h.bind_inv
    obtain ⟨rfl, -⟩ := h.pure_inv
    exact .nums t vs
  | strings =>
    obtain ⟨vs, s, -, h⟩ := h.bind_inv
    obtain ⟨rfl, -⟩ := h.pure_inv
    exact .strings _
  | byteArrays =>
    obtain ⟨vs, s, -, h⟩ := h.bind_inv
    obtain ⟨rfl, -⟩ := h.pure_inv
    exact .byteArrays _
  | enums =>
    obtain ⟨vs, s, -, h⟩ := h.bind_inv
    obtain ⟨rfl, -⟩ := h.pure_inv
    exact .enums _
  | messages m =>
    obtain ⟨new, s, hnew, h⟩ := h.bind_inv
    obtain ⟨rfl, -⟩ := h.pure_inv
    obtain ⟨array, fs, -, hfs, rfl⟩ := object_inv hnew
    cases hp with
    | messages hvs =>
      refine .messages fun v hv => ?_
      rcases List.mem_append.mp hv with hv | hv
      · exact hvs v hv
      · rw [List.mem_singleton.mp hv]
        exact hrec m array fs hfs
  | map kt vt =>
    obtain ⟨pair, s, hpair, h⟩ := h.bind_inv
    obtain ⟨rfl, -⟩ := h.pure_inv
    obtain ⟨hk, hv⟩ := mapPair_hasType hrec hpair
    cases hp with
    | map hks hvs => exact (HasType.map hks hvs).insertPair hk hv

omit hrec

theorem call_hasType {env : Bytes → Int → UInt8} {n : Nat} {m : M} {obj obj' : List (Value M)}
    (hrec : ∀ m array fs, (nestedMessage S qt env n m array).2 = .ok fs →
      HasType S (.single (.message m)) (.object m fs))
    (hobj : HasType S (.single (.message m)) (.object m obj))
    (h : Traced.Runs (call S qt env n b m obj) it obj' it') :
    HasType S (.single (.message m)) (.object m obj') := by
  obtain ⟨f, w, it₁, -, ⟨-, -, rfl⟩ | ⟨i, t, new, hf, hvalue, rfl⟩⟩ := call_inv h
  · exact hobj
  · have ht := (MetaObject.find_mem hf).2
    obtain ⟨v, hv, hvt, hget⟩ := hobj.field ht
    rw [hget] at hvalue ⊢
    exact hobj.set ht (hvt.write (deserializeValue_hasType hrec hvt hvalue))

/-- An accepted loop, as a `while`. -/
theorem messageLoop_runs {property : List (Value M) → Dec (List (Value M))} {n : Nat}
    {obj obj' : List (Value M)} (h : (messageLoop b property n obj it).2 = (obj', none)) :
    ∃ it', Traced.Runs (Traced.whileM .spent (Iter.differs b.size) property n obj) it obj' it' := by
  have hw := congrArg Prod.snd (messageLoop_while b property n obj it)
  have hn : (nestedResult (messageLoop b property n obj it)).2 = .ok obj' := by
    unfold nestedResult
    rw [h]
  dsimp only at hw
  rw [hn] at hw
  cases hr : ((Traced.whileM .spent (Iter.differs b.size) property n obj).run it).2 with
  | error e => rw [hr] at hw; cases hw
  | ok p => rw [hr] at hw; cases hw; exact ⟨p.2, hr⟩

theorem nestedMessage_ok {env : Bytes → Int → UInt8} {n : Nat} {m : M} {array : Bytes}
    {fs : List (Value M)} (h : (nestedMessage S qt env n m array).2 = .ok fs) :
    (deserializeMessage S qt env n m (newObject S m) array).2 = (fs, none) := by
  unfold nestedMessage nestedResult at h
  split at h
  · rename_i hnone
    cases h
    rw [← hnone]
  · cases h

/-- **Types.** What is decoded has the types of the properties. -/
theorem deserializeMessage_hasType {env : Bytes → Int → UInt8} {n : Nat} {m : M} {data : Bytes}
    {fs : List (Value M)} (h : (deserializeMessage S qt env n m (newObject S m) data).2 = (fs, none)) :
    HasType S (.single (.message m)) (.object m fs) := by
  induction n generalizing m data fs with
  | zero => cases h
  | succ n ih =>
    rw [deserializeMessage_succ] at h
    obtain ⟨it', hr⟩ := messageLoop_runs h
    let b : Buffer := ⟨data, env data⟩
    let I (obj : List (Value M)) (_ : Iter) := HasType S (.single (.message m)) (.object m obj)
    have hstep : ∀ a s c s', I a s → Iter.differs b.size s = true →
        Traced.Runs (call S qt env n b m a) s c s' → I c s' :=
      fun a s c s' hI _ hc => call_hasType (fun m array fs hfs => ih (nestedMessage_ok hfs)) hI hc
    exact (Traced.Runs.while_inv hstep hr (hasType_newObject m)).1

theorem nestedMessage_hasType {env : Bytes → Int → UInt8} {n : Nat} (m : M) (array : Bytes)
    (fs : List (Value M)) (h : (nestedMessage S qt env n m array).2 = .ok fs) :
    HasType S (.single (.message m)) (.object m fs) := deserializeMessage_hasType (nestedMessage_ok h)

end

end QtProtobuf.Codec
