import QtProtobuf.L2Codec.Decoded
import QtProtobuf.L2Codec.Setters

/-!
# Pointers that records put

A property `P` of the pointers of lists and maps is followed through the
decoding: a record puts a pointer with the property into a list, or into a map at
a key, and a later record of the same key, or of the same singular message field,
replaces it.

* `Leaves`: such a pointer is put by a record, and no later record replaces it.
* `leaves_iff`: what is decoded has the property exactly then.
* `deserializeMessage_sound`: the maps of what is decoded are ordered.
-/
namespace QtProtobuf.Codec

open Lib Wire

variable {M : Type}

/-! ## Values in a value -/

/-- `p` holds of the value, or of one in it. -/
inductive Occurs (p : Value M → Prop) : Value M → Prop
  | here {v : Value M} (h : p v) : Occurs p v
  | field {m : M} {fs : List (Value M)} {v : Value M} (hv : v ∈ fs) (h : Occurs p v) :
    Occurs p (.object m fs)
  | element {vs : List (Value M)} {v : Value M} (hv : v ∈ vs) (h : Occurs p v) : Occurs p (.messages vs)
  | entry {es : List (Scalar × Value M)} {e : Scalar × Value M} (he : e ∈ es) (h : Occurs p e.2) :
    Occurs p (.map es)

section
variable {p : Value M → Prop}

theorem occurs_object {m : M} {fs : List (Value M)} :
    Occurs p (.object m fs) ↔ p (.object m fs) ∨ ∃ v ∈ fs, Occurs p v := by
  constructor
  · intro h
    cases h with
    | here h => exact .inl h
    | field hv h => exact .inr ⟨_, hv, h⟩
  · rintro (h | ⟨v, hv, h⟩)
    · exact .here h
    · exact .field hv h

theorem occurs_messages {vs : List (Value M)} :
    Occurs p (.messages vs) ↔ p (.messages vs) ∨ ∃ v ∈ vs, Occurs p v := by
  constructor
  · intro h
    cases h with
    | here h => exact .inl h
    | element hv h => exact .inr ⟨_, hv, h⟩
  · rintro (h | ⟨v, hv, h⟩)
    · exact .here h
    · exact .element hv h

theorem occurs_map {es : List (Scalar × Value M)} :
    Occurs p (.map es) ↔ p (.map es) ∨ ∃ e ∈ es, Occurs p e.2 := by
  constructor
  · intro h
    cases h with
    | here h => exact .inl h
    | entry he h => exact .inr ⟨_, he, h⟩
  · rintro (h | ⟨e, he, h⟩)
    · exact .here h
    · exact .entry he h

end

/-- The maps in the value are ordered by key. -/
def Sorted (v : Value M) : Prop := ¬ Occurs (fun v => ¬ v.Ordered) v

theorem Sorted.ordered {v : Value M} (h : Sorted v) : v.Ordered := by
  by_contra ho
  exact h (.here ho)

theorem sorted_object {m : M} {fs : List (Value M)} : Sorted (.object m fs) ↔ ∀ v ∈ fs, Sorted v := by
  simp [Sorted, occurs_object, Value.Ordered]

theorem sorted_messages {vs : List (Value M)} : Sorted (.messages vs) ↔ ∀ v ∈ vs, Sorted v := by
  simp [Sorted, occurs_messages, Value.Ordered]

theorem sorted_map {es : List (Scalar × Value M)} :
    Sorted (.map es) ↔ (Value.map es).Ordered ∧ ∀ e ∈ es, Sorted e.2 := by
  simp [Sorted, occurs_map]

theorem sorted_default (t : FieldType M) : Sorted t.default := by
  cases t with
  | map kt vt => exact sorted_map.mpr ⟨.nil, fun e he => absurd he List.not_mem_nil⟩
  | messages m => exact sorted_messages.mpr fun v hv => absurd hv List.not_mem_nil
  | single t =>
    cases t <;>
    · rintro (ho | _ | _ | _)
      exact ho trivial
  | _ =>
    rintro (ho | _ | _ | _)
    exact ho trivial

theorem sorted_newObject (S : Schema M) (m : M) : Sorted (.object m (newObject S m)) := by
  refine sorted_object.mpr fun v hv => ?_
  obtain ⟨t, -, rfl⟩ := List.mem_map.mp hv
  exact sorted_default t

/-! ## A property of pointers -/

/-- The property is one of objects; `empty` says if it holds of a null pointer. -/
structure PointerProperty (P : Value M → Prop) (empty : Prop) : Prop where
  unset (m : M) : P (.unset m) ↔ empty
  scalar (v : Scalar) : ¬ P (.scalar v)
  enum (v : BitVec 32) : ¬ P (.enum v)

/-- `P` holds of a pointer in the value; in a map, of the one at the key. -/
def PointerAt (P : Value M → Prop) (key : List Int) : Value M → Prop
  | .object m fs => P (.object m fs)
  | .messages vs => ∃ v ∈ vs, P v
  | .map es => ∃ e ∈ es, e.1.key = key ∧ P e.2
  | _ => False

theorem not_pointerAt_default {P : Value M → Prop} {key : List Int} (t : FieldType M) :
    ¬ PointerAt P key t.default := by
  cases t with
  | single t => cases t <;> exact not_false
  | messages m => exact fun ⟨_, hv, _⟩ => List.not_mem_nil hv
  | map kt vt => exact fun ⟨_, he, _⟩ => List.not_mem_nil he
  | _ => exact not_false

section
variable {P : Value M → Prop} {empty : Prop}

theorem sameEntry_pointer (hP : PointerProperty P empty) {e e' : Scalar × Value M}
    (h : sameEntry e e' = true) : ¬ P e.2 ∧ ¬ P e'.2 := by
  obtain ⟨-, ⟨v, w, hv, hw, -⟩ | ⟨v, hv, hw⟩⟩ := sameEntry_iff.mp h
  · rw [hv, hw]
    exact ⟨hP.scalar v, hP.scalar w⟩
  · rw [hv, hw]
    exact ⟨hP.enum v, hP.enum v⟩

/-- Two equal maps have no pointers. -/
theorem sameList_pointer (hP : PointerProperty P empty) {es es' : List (Scalar × Value M)}
    (h : sameList sameEntry es es' = true) : (∀ e ∈ es, ¬ P e.2) ∧ ∀ e ∈ es', ¬ P e.2 := by
  induction es generalizing es' with
  | nil =>
    cases es' with
    | nil => exact ⟨fun e he => absurd he List.not_mem_nil, fun e he => absurd he List.not_mem_nil⟩
    | cons e' es' => cases sameList_length h
  | cons e es ih =>
    cases es' with
    | nil => cases sameList_length h
    | cons e' es' =>
      obtain ⟨he, hes⟩ := sameList_cons.mp h
      obtain ⟨hn, hn'⟩ := sameEntry_pointer hP he
      rw [List.forall_mem_cons, List.forall_mem_cons]
      exact ⟨⟨hn, (ih hes).1⟩, hn', (ih hes).2⟩

/-- A setter that does nothing finds no pointer. -/
theorem Value.same_pointerAt (hP : PointerProperty P empty) {key : List Int} {v w : Value M}
    (h : v.same w = true) : ¬ PointerAt P key v ∧ ¬ PointerAt P key w := by
  cases v with
  | map es =>
    cases w with
    | map es' =>
      rw [Value.same_map] at h
      obtain ⟨hes, hes'⟩ := sameList_pointer hP h
      exact ⟨fun ⟨e, he, _, hp⟩ => hes e he hp, fun ⟨e, he, _, hp⟩ => hes' e he hp⟩
    | _ => cases h
  | _ =>
    cases w with
    | map es => cases h
    | messages vs => cases h
    | object m fs => cases h
    | _ => first | cases h | exact ⟨not_false, not_false⟩

theorem pointerAt_write (hP : PointerProperty P empty) {key : List Int} {v w : Value M} :
    PointerAt P key (v.write w) ↔ PointerAt P key w := by
  unfold Value.write
  split
  · rename_i h
    obtain ⟨hv, hw⟩ := @Value.same_pointerAt _ _ _ hP key v w h
    exact iff_of_false hv hw
  · exact Iff.rfl

end

/-! ## Records that put a pointer -/

section
variable (S : Schema M) (qt : QtCore) (env : Bytes → Int → UInt8) (n : Nat) (b : Buffer)
  (empty : Prop) (leaves : M → Bytes → Prop)

/-- The array of the length-delimited message at `it` leaves a pointer. -/
def LeavingArray (m : M) (it : Iter) : Prop :=
  ∃ array it', Traced.Runs (deserializeLengthDelimited b) it array it' ∧ leaves m array

/-- The part of an entry at `it` is not the key. -/
def ValuePart (it : Iter) : Prop :=
  ∃ header it₁, Traced.Runs (decodeHeader b) it header it₁ ∧ header.2.1 ≠ 1

def LeavingPart (m : M) (it : Iter) : Prop :=
  ∃ header it₁, Traced.Runs (decodeHeader b) it header it₁ ∧ header.2.1 ≠ 1 ∧ LeavingArray b leaves m it₁

/-- The entry at `it` has no value, if that counts, or its last one leaves a pointer. -/
def LeavingEntry (kt : ScalarType) (m : M) (it : Iter) : Prop :=
  ∃ count it₁ last it₂, Traced.Runs (deserializeVarintCommon b 32) it count it₁ ∧
    Traced.Runs (Dec.plusLength count) it₁ last it₂ ∧
      let parts := Traced.visited (Iter.differs last.pos)
        (deserializeMapPart qt (nestedMessage S qt env n) b kt (.message m)) n (kt.default, .unset m) it₂
      (empty ∧ ∀ p ∈ parts, ¬ ValuePart b p) ∨
        Traced.LastWrite (LeavingPart b leaves m) (ValuePart b) parts

/-- The entry at `it` is of the key. -/
def HasKey (key : List Int) (kt : ScalarType) (vt : SingleType M) (it : Iter) : Prop :=
  ∃ pair it', Traced.Runs (deserializeMapPair qt (nestedMessage S qt env n) n b kt vt) it pair it' ∧
    pair.1.key = key

/-- The payload at `it` puts a pointer into a property of the type. -/
def Puts (key : List Int) (t : FieldType M) (it : Iter) : Prop :=
  match t with
  | .single (.message m) => LeavingArray b leaves m it
  | .messages m => LeavingArray b leaves m it
  | .map kt (.message m) =>
    HasKey S qt env n b key kt (.message m) it ∧ LeavingEntry S qt env n b empty leaves kt m it
  | _ => False

/-- It replaces what the property holds, at the key if it is a map. -/
def Replaces (key : List Int) (t : FieldType M) (it : Iter) : Prop :=
  match t with
  | .single _ => True
  | .map kt vt => HasKey S qt env n b key kt vt it
  | _ => False

/-- The record at `it` is of the property `i`, and `Q` holds of its payload. -/
def RecordOf (m : M) (i : Nat) (Q : FieldType M → Iter → Prop) (it : Iter) : Prop :=
  ∃ f w it₁ t, Traced.Runs (decodeHeader b) it (true, f, w) it₁ ∧ (S m).find f = some (i, t) ∧ Q t it₁

end

/-- Where the records of a message begin. -/
def records (S : Schema M) (qt : QtCore) (env : Bytes → Int → UInt8) (n : Nat) (m : M) (data : Bytes) :
    List Iter :=
  let b : Buffer := ⟨data, env data⟩
  Traced.visited (Iter.differs b.size) (call S qt env n b m) (n + 1) (newObject S m) (.ofBuffer b)

/-- The message itself leaves a pointer, as `own` says, or a record puts one into
a property, at a key, and no later record replaces it there. -/
def Leaves (S : Schema M) (qt : QtCore) (env : Bytes → Int → UInt8) (empty : Prop)
    (own : Nat → M → Bytes → Prop) : Nat → M → Bytes → Prop
  | 0, _, _ => False
  | n + 1, m, data =>
    let b : Buffer := ⟨data, env data⟩
    own n m data ∨ ∃ i key, Traced.LastWrite
      (RecordOf S b m i (Puts S qt env n b empty (Leaves S qt env empty own n) key))
      (RecordOf S b m i (Replaces S qt env n b key)) (records S qt env n m data)

/-! ## What the decoders do with pointers -/

section
variable {S : Schema M} {qt : QtCore} {env : Bytes → Int → UInt8} {n : Nat} {b : Buffer}
  {empty : Prop} {leaves : M → Bytes → Prop} {it it' : Iter} {key : List Int}

theorem leavingArray_iff {m : M} {array : Bytes}
    (h : Traced.Runs (deserializeLengthDelimited b) it array it') :
    LeavingArray b leaves m it ↔ leaves m array := by
  constructor
  · rintro ⟨array', it₁, h', hn⟩
    obtain ⟨rfl, -⟩ := Traced.Runs.det h h'
    exact hn
  · exact fun hn => ⟨array, it', h, hn⟩

theorem hasKey_iff {kt : ScalarType} {vt : SingleType M} {pair : Scalar × Value M}
    (h : Traced.Runs (deserializeMapPair qt (nestedMessage S qt env n) n b kt vt) it pair it') :
    HasKey S qt env n b key kt vt it ↔ pair.1.key = key := by
  constructor
  · rintro ⟨pair', it₁, h', hk⟩
    obtain ⟨rfl, -⟩ := Traced.Runs.det h h'
    exact hk
  · exact fun hk => ⟨pair, it', h, hk⟩

theorem recordOf_iff {m : M} {i : Nat} {Q : FieldType M → Iter → Prop} {f : Nat} {w : WireTypes}
    (h : Traced.Runs (decodeHeader b) it (true, f, w) it') :
    RecordOf S b m i Q it ↔ ∃ t, (S m).find f = some (i, t) ∧ Q t it' := by
  constructor
  · rintro ⟨f', w', it₁, t, h', hf, hQ⟩
    obtain ⟨heq, rfl⟩ := Traced.Runs.det h h'
    cases heq
    exact ⟨t, hf, hQ⟩
  · rintro ⟨t, hf, hQ⟩
    exact ⟨f, w, it', t, h, hf, hQ⟩

/-! ### Order -/

section
variable (hnested : ∀ m array fs, (nestedMessage S qt env n m array).2 = .ok fs → Sorted (.object m fs))
include hnested

theorem object_sorted {m : M} {v : Value M}
    (h : Traced.Runs (deserializeObject (nestedMessage S qt env n) b m) it v it') : Sorted v := by
  obtain ⟨array, fs, -, hfs, rfl⟩ := object_inv h
  exact hnested m array fs hfs

theorem single_sorted {t : SingleType M} {v : Value M}
    (h : Traced.Runs (deserializeSingle qt (nestedMessage S qt env n) b t) it v it') : Sorted v := by
  cases t with
  | message m => exact object_sorted hnested h
  | _ =>
    obtain ⟨v', s, -, hpure⟩ := h.bind_inv
    obtain ⟨rfl, -⟩ := hpure.pure_inv
    rintro (ho | _ | _ | _)
    exact ho trivial

theorem mapPair_sorted {kt : ScalarType} {vt : SingleType M} {pair : Scalar × Value M}
    (h : Traced.Runs (deserializeMapPair qt (nestedMessage S qt env n) n b kt vt) it pair it') :
    Sorted pair.2 := by
  obtain ⟨count, it₁, -, h₁⟩ := h.bind_inv
  obtain ⟨last, it₂, -, h₂⟩ := h₁.bind_inv
  refine (h₂.while_inv (I := fun pair _ => Sorted pair.2) (fun a s c s' ha _ hc => ?_)
    (sorted_default (.single vt))).1
  obtain ⟨header, s₁, -, ⟨-, -, hvalue⟩ | ⟨-, hvalue, -⟩⟩ := mapPart_inv hc
  · rw [hvalue]
    exact ha
  · exact single_sorted hnested hvalue

theorem deserializeValue_sorted {previous v : Value M} {t : FieldType M} (hp : HasType S t previous)
    (hs : Sorted previous)
    (h : Traced.Runs (deserializeValue qt (nestedMessage S qt env n) n b previous t) it v it') :
    Sorted v := by
  cases t with
  | single t => exact single_sorted hnested h
  | messages m =>
    obtain ⟨new, s, hnew, hpure⟩ := h.bind_inv
    obtain ⟨rfl, -⟩ := hpure.pure_inv
    cases hp with
    | messages _ =>
      refine sorted_messages.mpr fun v hv => ?_
      rcases List.mem_append.mp hv with hv | hv
      · exact sorted_messages.mp hs v hv
      · rw [List.mem_singleton.mp hv]
        exact object_sorted hnested hnew
  | map kt vt =>
    obtain ⟨pair, s, hpair, hpure⟩ := h.bind_inv
    obtain ⟨rfl, -⟩ := hpure.pure_inv
    cases hp with
    | @map _ _ es _ _ =>
      obtain ⟨ho, hes⟩ := sorted_map.mp hs
      refine sorted_map.mpr ⟨insertPair_ordered ho, fun e he => ?_⟩
      rcases (insertPair_mem ho e.1.key (· = e.2)).mp ⟨e, he, rfl, rfl⟩ with ⟨-, hv⟩ | ⟨-, e', he', -, hv⟩
      · rw [← hv]
        exact mapPair_sorted hnested hpair
      · rw [← hv]
        exact hes e' he'
  | _ =>
    obtain ⟨v', s, -, hpure⟩ := h.bind_inv
    obtain ⟨rfl, -⟩ := hpure.pure_inv
    rintro (ho | _ | _ | _)
    exact ho trivial

end

/-! ### Pointers -/

section
variable {P : Value M → Prop} (hP : PointerProperty P empty)
  (hnested : ∀ m array fs, (nestedMessage S qt env n m array).2 = .ok fs → (P (.object m fs) ↔ leaves m array))
include hP hnested

/-- **Entries.** The pointer is null if there was no value; else it points to the
last one. -/
theorem mapPair_pointer {kt : ScalarType} {m : M} {pair : Scalar × Value M}
    (h : Traced.Runs (deserializeMapPair qt (nestedMessage S qt env n) n b kt (.message m)) it pair it') :
    P pair.2 ↔ LeavingEntry S qt env n b empty leaves kt m it := by
  obtain ⟨count, it₁, hcount, h₁⟩ := h.bind_inv
  obtain ⟨last, it₂, hlast, h₂⟩ := h₁.bind_inv
  have hstep : ∀ (a : Scalar × Value M) s c s', True →
      Traced.Runs (deserializeMapPart qt (nestedMessage S qt env n) b kt (.message m) a) s c s' →
        True ∧ (P c.2 ↔ LeavingPart b leaves m s ∨ P a.2 ∧ ¬ ValuePart b s) := by
    intro a s c s' _ hr
    refine ⟨trivial, ?_⟩
    obtain ⟨header, s₁, hheader, ⟨hf, -, hvalue⟩ | ⟨hf, hvalue, -⟩⟩ := mapPart_inv hr
    · have hkey : ∀ header' s₂, Traced.Runs (decodeHeader b) s header' s₂ → header'.2.1 = 1 := by
        intro header' s₂ h'
        obtain ⟨rfl, -⟩ := Traced.Runs.det hheader h'
        exact hf
      have hpart : ¬ LeavingPart b leaves m s := fun ⟨header', s₂, h', hf', _⟩ => hf' (hkey header' s₂ h')
      have hvp : ¬ ValuePart b s := fun ⟨header', s₂, h', hf'⟩ => hf' (hkey header' s₂ h')
      simp [hvalue, hpart, hvp]
    · obtain ⟨array, fs, harray, hfs, hobj⟩ := object_inv hvalue
      have hvp : ValuePart b s := ⟨header, s₁, hheader, hf⟩
      have hpart : LeavingPart b leaves m s ↔ leaves m array := by
        constructor
        · rintro ⟨header', s₂, h', -, hn⟩
          obtain ⟨rfl, rfl⟩ := Traced.Runs.det hheader h'
          exact (leavingArray_iff harray).mp hn
        · exact fun hn => ⟨header, s₁, hheader, hf, array, s', harray, hn⟩
      rw [hobj, hnested m array fs hfs, hpart]
      simp [hvp]
  obtain ⟨-, hN⟩ := Traced.Runs.while_lastWrite (N := fun pair => P pair.2) hstep h₂ trivial
  rw [hN, show P (SingleType.message m).default ↔ empty from hP.unset m]
  constructor
  · rintro (h | ⟨he, h⟩)
    · exact ⟨count, it₁, last, it₂, hcount, hlast, .inr h⟩
    · exact ⟨count, it₁, last, it₂, hcount, hlast, .inl ⟨he, h⟩⟩
  · rintro ⟨count', it₁', last', it₂', hcount', hlast', h⟩
    obtain ⟨rfl, rfl⟩ := Traced.Runs.det hcount hcount'
    obtain ⟨rfl, rfl⟩ := Traced.Runs.det hlast hlast'
    exact h.symm

/-- **Values.** A pointer was put by the payload, or was there and has not been
replaced. -/
theorem deserializeValue_pointer {previous v : Value M} {t : FieldType M} (hp : HasType S t previous)
    (ho : previous.Ordered)
    (h : Traced.Runs (deserializeValue qt (nestedMessage S qt env n) n b previous t) it v it') :
    PointerAt P key v ↔ Puts S qt env n b empty leaves key t it ∨
      PointerAt P key previous ∧ ¬ Replaces S qt env n b key t it := by
  cases t with
  | single t =>
    have hrep : Replaces S qt env n b key (.single t) it := trivial
    cases t with
    | scalar t =>
      obtain ⟨v', s, -, hpure⟩ := h.bind_inv
      obtain ⟨rfl, -⟩ := hpure.pure_inv
      simp [PointerAt, hrep, Puts]
    | enum =>
      obtain ⟨v', s, -, hpure⟩ := h.bind_inv
      obtain ⟨rfl, -⟩ := hpure.pure_inv
      simp [PointerAt, hrep, Puts]
    | message m =>
      obtain ⟨array, fs, harray, hfs, rfl⟩ := object_inv h
      have hput : Puts S qt env n b empty leaves key (.single (.message m)) it ↔ leaves m array :=
        leavingArray_iff harray
      rw [hput, ← hnested m array fs hfs]
      simp [hrep, PointerAt]
  | messages m =>
    obtain ⟨new, s, hnew, hpure⟩ := h.bind_inv
    obtain ⟨rfl, rfl⟩ := hpure.pure_inv
    obtain ⟨array, fs, harray, hfs, rfl⟩ := object_inv hnew
    have hput : Puts S qt env n b empty leaves key (.messages m) it ↔ leaves m array :=
      leavingArray_iff harray
    rw [hput, ← hnested m array fs hfs]
    cases hp with
    | @messages _ vs _ =>
      have happend : (∃ v ∈ vs ++ [.object m fs], P v) ↔ P (.object m fs) ∨ ∃ v ∈ vs, P v := by
        simp [or_and_right, exists_or, or_comm]
      simpa [PointerAt, Replaces, Value.toMessages] using happend
  | map kt vt =>
    obtain ⟨pair, s, hpair, hpure⟩ := h.bind_inv
    obtain ⟨rfl, rfl⟩ := hpure.pure_inv
    have hrep : Replaces S qt env n b key (.map kt vt) it ↔ pair.1.key = key := hasKey_iff hpair
    have hput : Puts S qt env n b empty leaves key (.map kt vt) it ↔ pair.1.key = key ∧ P pair.2 := by
      have hv := (mapPair_hasType nestedMessage_hasType hpair).2
      cases vt with
      | message m =>
        rw [mapPair_pointer hP hnested hpair]
        exact and_congr_left' (hasKey_iff hpair)
      | scalar t =>
        generalize pair.2 = v at hv
        cases hv
        simp [Puts, hP.scalar]
      | enum =>
        generalize pair.2 = v at hv
        cases hv
        simp [Puts, hP.enum]
    cases hp with
    | @map _ _ es _ _ =>
      rw [hrep, hput, and_comm (a := PointerAt P key _)]
      exact insertPair_mem ho key P
  | _ =>
    obtain ⟨v', s, -, hpure⟩ := h.bind_inv
    obtain ⟨rfl, -⟩ := hpure.pure_inv
    cases hp
    simp [PointerAt, Puts]

end

/-- The object of a run: typed, and its maps ordered. -/
structure Sound (S : Schema M) (m : M) (obj : List (Value M)) : Prop where
  hasType : HasType S (.single (.message m)) (.object m obj)
  sorted : Sorted (.object m obj)

theorem sound_newObject (S : Schema M) (m : M) : Sound S m (newObject S m) :=
  ⟨hasType_newObject m, sorted_newObject S m⟩

/-- The property `i` has a pointer with the property, at the key if it is a map. -/
def FieldPointer (P : Value M → Prop) (key : List Int) (i : Nat) (obj : List (Value M)) : Prop :=
  ∃ v, obj[i]? = some v ∧ PointerAt P key v

/-- **Calls.** A call keeps the types and the order. -/
theorem call_sound (hsorted : ∀ m array fs, (nestedMessage S qt env n m array).2 = .ok fs →
    Sorted (.object m fs)) {m : M} {obj obj' : List (Value M)} (hobj : Sound S m obj)
    (h : Traced.Runs (call S qt env n b m obj) it obj' it') : Sound S m obj' := by
  have htype := call_hasType nestedMessage_hasType hobj.hasType h
  obtain ⟨f, w, it₁, hheader, ⟨hf, -, rfl⟩ | ⟨j, t, new, hf, hvalue, rfl⟩⟩ := call_inv h
  · exact hobj
  · obtain ⟨v, hv, hvt, hget⟩ := hobj.hasType.field (MetaObject.find_mem hf).2
    rw [hget] at hvalue htype ⊢
    have hs : Sorted v := sorted_object.mp hobj.sorted v (List.mem_of_getElem? hv)
    refine ⟨htype, sorted_object.mpr fun x hx => ?_⟩
    rcases List.mem_or_eq_of_mem_set hx with hx | rfl
    · exact sorted_object.mp hobj.sorted x hx
    · unfold Value.write
      split
      · exact hs
      · exact deserializeValue_sorted hsorted hvt hs hvalue

/-- And it does with the properties what its record does. -/
theorem call_pointer {P : Value M → Prop} (hP : PointerProperty P empty)
    (hnested : ∀ m array fs, (nestedMessage S qt env n m array).2 = .ok fs →
      (P (.object m fs) ↔ leaves m array))
    {m : M} {obj obj' : List (Value M)} {i : Nat} (hobj : Sound S m obj)
    (h : Traced.Runs (call S qt env n b m obj) it obj' it') :
    FieldPointer P key i obj' ↔ RecordOf S b m i (Puts S qt env n b empty leaves key) it ∨
      FieldPointer P key i obj ∧ ¬ RecordOf S b m i (Replaces S qt env n b key) it := by
  obtain ⟨f, w, it₁, hheader, ⟨hf, -, rfl⟩ | ⟨j, t, new, hf, hvalue, rfl⟩⟩ := call_inv h
  · rw [recordOf_iff hheader, recordOf_iff hheader]
    simp [hf]
  · obtain ⟨v, hv, hvt, hget⟩ := hobj.hasType.field (MetaObject.find_mem hf).2
    rw [hget] at hvalue ⊢
    have ho : v.Ordered := (sorted_object.mp hobj.sorted v (List.mem_of_getElem? hv)).ordered
    rw [recordOf_iff hheader, recordOf_iff hheader]
    by_cases hj : j = i
    · subst hj
      have hlt := (List.getElem?_eq_some_iff.mp hv).1
      have hnew : PointerAt P key new ↔ Puts S qt env n b empty leaves key t it₁ ∨
          PointerAt P key v ∧ ¬ Replaces S qt env n b key t it₁ :=
        deserializeValue_pointer hP hnested hvt ho hvalue
      have hset : FieldPointer P key j (obj.set j (v.write new)) ↔ PointerAt P key new := by
        simp [FieldPointer, List.getElem?_set_self hlt, pointerAt_write hP]
      have hold : FieldPointer P key j obj ↔ PointerAt P key v := by simp [FieldPointer, hv]
      rw [hset, hold, hnew]
      simp [hf]
    · have hset : FieldPointer P key i (obj.set j (v.write new)) ↔ FieldPointer P key i obj := by
        unfold FieldPointer
        rw [List.getElem?_set_ne hj]
      rw [hset]
      simp [hf, hj]

end

/-! ## What decoding leaves -/

section
variable {S : Schema M} {qt : QtCore} {env : Bytes → Int → UInt8} {n : Nat} {m : M} {data : Bytes}
  {fs : List (Value M)}

theorem deserializeMessage_sound (h : (deserializeMessage S qt env n m (newObject S m) data).2 = (fs, none)) :
    Sound S m fs := by
  induction n generalizing m data fs with
  | zero => cases h
  | succ n ih =>
    rw [deserializeMessage_succ] at h
    obtain ⟨it', hr⟩ := messageLoop_runs h
    exact (hr.while_inv (I := fun obj _ => Sound S m obj)
      (fun a s c s' ha _ hc => call_sound (fun m array fs hfs => (ih (nestedMessage_ok hfs)).sorted) ha hc)
      (sound_newObject S m)).1

/-- **Pointers.** What is decoded has one with the property exactly if it has one
itself, or a record put one that no later record replaced. -/
theorem leaves_iff {P : Value M → Prop} {empty : Prop} {has : M → List (Value M) → Prop}
    {own : Nat → M → Bytes → Prop} (hP : PointerProperty P empty)
    (hobject : ∀ m fs, P (.object m fs) ↔ has m fs ∨ ∃ i key, FieldPointer P key i fs)
    (hown : ∀ n m data fs, (deserializeMessage S qt env (n + 1) m (newObject S m) data).2 = (fs, none) →
      (has m fs ↔ own n m data))
    (h : (deserializeMessage S qt env n m (newObject S m) data).2 = (fs, none)) :
    P (.object m fs) ↔ Leaves S qt env empty own n m data := by
  induction n generalizing m data fs with
  | zero => cases h
  | succ n ih =>
    rw [hobject, hown n m data fs h]
    rw [deserializeMessage_succ] at h
    obtain ⟨it', hr⟩ := messageLoop_runs h
    have hnested : ∀ m array fs, (nestedMessage S qt env n m array).2 = .ok fs →
        (P (.object m fs) ↔ Leaves S qt env empty own n m array) :=
      fun m array fs hfs => ih (nestedMessage_ok hfs)
    have hsorted : ∀ m array fs, (nestedMessage S qt env n m array).2 = .ok fs → Sorted (.object m fs) :=
      fun m array fs hfs => (deserializeMessage_sound (nestedMessage_ok hfs)).sorted
    have hfield : ∀ i key, FieldPointer P key i fs ↔ Traced.LastWrite
        (RecordOf S ⟨data, env data⟩ m i
          (Puts S qt env n ⟨data, env data⟩ empty (Leaves S qt env empty own n) key))
        (RecordOf S ⟨data, env data⟩ m i (Replaces S qt env n ⟨data, env data⟩ key))
        (records S qt env n m data) := by
      intro i key
      have hdefault : ¬ FieldPointer P key i (newObject S m) := by
        rintro ⟨v, hv, hp⟩
        obtain ⟨t, -, rfl⟩ := List.mem_map.mp (List.mem_of_getElem? hv)
        exact not_pointerAt_default t hp
      obtain ⟨-, hN⟩ := Traced.Runs.while_lastWrite (I := Sound S m) (N := FieldPointer P key i)
        (fun a s c s' ha hc => ⟨call_sound hsorted ha hc, call_pointer hP hnested ha hc⟩) hr
        (sound_newObject S m)
      rw [hN, or_iff_left fun hn => hdefault hn.1]
      exact Iff.rfl
    exact or_congr_right (exists_congr fun i => exists_congr fun key => hfield i key)

end

end QtProtobuf.Codec
