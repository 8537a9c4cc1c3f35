import QtProtobuf.L2Codec.Schema

/-!
# The generated `operator ==` and `operator =`

`operator =` of a message type goes through its fields: a singular message field
is compared, and copied into the object that is there when it differs; the other
fields have setters (`generator/templates.cpp:125-132`). The comparison goes
through pointers (`repeatedValueCompare`), and one of them may be null: two maps
of one size need not have the same keys.

* `Assigned`: what a field holds after an assignment.
* `Assigned.agree`: the value that was assigned, up to `==`.
* `exists_assigned_iff`: an assignment is completed unless a comparison on its
  way dereferences a null pointer.
-/
namespace QtProtobuf.Codec

variable {M : Type}

namespace Value

/-- The type of a singular message field, set or not. -/
def message? : Value M → Option M
  | unset m => some m
  | object m _ => some m
  | _ => none

/-- `*m_field`: an unset field gets a default object. -/
def fields (S : Schema M) : Value M → List (Value M)
  | unset m => newObject S m
  | object _ fs => fs
  | _ => []

/-- What a pointer of a list or a map points to. -/
def pointee : Value M → Option (Value M)
  | object m fs => some (object m fs)
  | _ => none

end Value

/-- `b.value(key)`; a null pointer if the key is not there. -/
def valueAt (es : List (Scalar × Value M)) (key : Scalar) : Option (Value M) :=
  (es.find? fun e => e.1.key == key.key).bind fun e => e.2.pointee

/-- The pointers that `repeatedValueCompare` compares, in its order: mirrors
src/protobuf/qtprotobuftypes.h:278-315. -/
def comparedPointers : Value M → Value M → Option (List (Option (Value M) × Option (Value M)))
  | .messages vs, .messages ws =>
    if vs.length = ws.length then some ((vs.zip ws).map fun p => (p.1.pointee, p.2.pointee)) else none
  | .map es, .map es' =>
    if es.length = es'.length ∧ es.all (fun e => e.2.message?.isSome) then
      some (es.map fun e => (valueAt es' e.1, e.2.pointee))
    else none
  | _, _ => none

/-- `==` of two values of a field is true. Pointers are equal if both are null. -/
inductive Same (S : Schema M) : Value M → Value M → Prop
  | leaf {v w : Value M} (h : v.same w = true) : Same S v w
  | unset (m m' : M) : Same S (.unset m) (.unset m')
  | unset_object {m : M} {gs : List (Value M)} (h : Same S (.object m gs) (.object m (newObject S m))) :
    Same S (.unset m) (.object m gs)
  | object_unset {m : M} {fs : List (Value M)} (h : Same S (.object m fs) (.object m (newObject S m))) :
    Same S (.object m fs) (.unset m)
  | object {m : M} {fs gs : List (Value M)} (hl : fs.length = gs.length)
    (h : ∀ (i : Nat) v w, fs[i]? = some v → gs[i]? = some w → Same S v w) :
    Same S (.object m fs) (.object m gs)
  | pointers {v w : Value M} {ps : List (Option (Value M) × Option (Value M))}
    (hp : comparedPointers v w = some ps) (hn : ∀ p ∈ ps, p.1.isNone = p.2.isNone)
    (h : ∀ a b, (some a, some b) ∈ ps → Same S a b) : Same S v w

/-- `==` of two values of a field dereferences a null pointer; it goes through
the fields, and through the pointers, as long as they are equal. A default object
has no pointers. -/
inductive Null (S : Schema M) : Value M → Value M → Prop
  | object {m : M} {fs gs : List (Value M)} {i : Nat} {v w : Value M}
    (hprev : ∀ (j : Nat) v w, j < i → fs[j]? = some v → gs[j]? = some w → Same S v w)
    (hv : fs[i]? = some v) (hw : gs[i]? = some w) (h : Null S v w) : Null S (.object m fs) (.object m gs)
  | pointer {v w : Value M} {ps : List (Option (Value M) × Option (Value M))} {i : Nat}
    {p : Option (Value M) × Option (Value M)} (hp : comparedPointers v w = some ps)
    (hnull : ∀ (j : Nat) p, j < i → ps[j]? = some p → p.1.isNone = p.2.isNone)
    (hprev : ∀ (j : Nat) a b, j < i → ps[j]? = some (some a, some b) → Same S a b)
    (hi : ps[i]? = some p) (h : p.1.isNone ≠ p.2.isNone) : Null S v w
  | pointee {v w : Value M} {ps : List (Option (Value M) × Option (Value M))} {i : Nat} {a b : Value M}
    (hp : comparedPointers v w = some ps)
    (hnull : ∀ (j : Nat) p, j < i → ps[j]? = some p → p.1.isNone = p.2.isNone)
    (hprev : ∀ (j : Nat) a b, j < i → ps[j]? = some (some a, some b) → Same S a b)
    (hi : ps[i]? = some (some a, some b)) (h : Null S a b) : Null S v w

/-- `field = other.field` with the old value `v` and the other value `w` leaves
the third value: mirrors src/generator/messagedefinitionprinter.cpp:200-240 and
src/generator/templates.cpp:125-132 (CopyFieldTemplate,
AssignComplexFieldTemplate). -/
inductive Assigned (S : Schema M) : Value M → Value M → Value M → Prop
  | property {v w : Value M} (hm : w.message? = none) : Assigned S v w (v.write w)
  | kept {v w : Value M} {m : M} (hm : w.message? = some m) (h : Same S v w) : Assigned S v w v
  | copied {v w : Value M} {m : M} {fs : List (Value M)} (hm : w.message? = some m) (hs : ¬ Same S v w)
    (hn : ¬ Null S v w) (hl : fs.length = (w.fields S).length)
    (h : ∀ (i : Nat) b c, (w.fields S)[i]? = some b → fs[i]? = some c →
      Assigned S ((v.fields S).getD i b) b c) : Assigned S v w (.object m fs)

/-- `*object = newValue` -/
def AssignedFields (S : Schema M) (old new r : List (Value M)) : Prop :=
  r.length = new.length ∧
    ∀ (i : Nat) b c, new[i]? = some b → r[i]? = some c → Assigned S (old.getD i b) b c

/-- The assignment of a singular message field comes to a comparison that
dereferences a null pointer: its own, or one of its fields' when it differs. -/
inductive MeetsNull (S : Schema M) : Value M → Value M → Prop
  | here {v w : Value M} {m : M} (hm : w.message? = some m) (hn : Null S v w) : MeetsNull S v w
  | inside {v w : Value M} {m : M} {i : Nat} {b : Value M} (hm : w.message? = some m)
    (hs : ¬ Same S v w) (hb : (w.fields S)[i]? = some b) (h : MeetsNull S ((v.fields S).getD i b) b) :
    MeetsNull S v w

def FieldsMeetNull (S : Schema M) (old new : List (Value M)) : Prop :=
  ∃ (i : Nat) (b : Value M), new[i]? = some b ∧ MeetsNull S (old.getD i b) b

/-- The same value, or an equal one, field by field. -/
inductive Agree (S : Schema M) : Value M → Value M → Prop
  | refl (v : Value M) : Agree S v v
  | same {v w : Value M} (h : Same S v w) : Agree S v w
  | fields {m : M} {fs : List (Value M)} {w : Value M} (hm : w.message? = some m)
    (hl : fs.length = (w.fields S).length)
    (h : ∀ (i : Nat) c b, fs[i]? = some c → (w.fields S)[i]? = some b → Agree S c b) :
    Agree S (.object m fs) w

def FieldsAgree (S : Schema M) (fs gs : List (Value M)) : Prop :=
  fs.length = gs.length ∧ ∀ (i : Nat) c b, fs[i]? = some c → gs[i]? = some b → Agree S c b

/-! ## What an assignment leaves -/

variable {S : Schema M}

theorem agree_write (v w : Value M) : Agree S (v.write w) w := by
  unfold Value.write
  by_cases h : v.same w = true
  · rw [if_pos h]
    exact .same (.leaf h)
  · rw [if_neg h]
    exact .refl w

/-- **Assignment.** The field agrees with the value that was assigned. -/
theorem Assigned.agree {v w r : Value M} (h : Assigned S v w r) : Agree S r w := by
  induction h with
  | property => exact agree_write _ _
  | kept _ h => exact .same h
  | copied hm _ _ hl _ ih => exact .fields hm hl fun i c b hc hb => ih i b c hb hc

theorem AssignedFields.agree {old new r : List (Value M)} (h : AssignedFields S old new r) :
    FieldsAgree S r new := ⟨h.1, fun i c b hc hb => (h.2 i b c hb hc).agree⟩

/-! ## Null pointers -/

/-- Values that the setters compare are not compared through pointers. -/
theorem comparedPointers_of_same {v w : Value M} {ps : List (Option (Value M) × Option (Value M))}
    (h : v.same w = true) (hp : comparedPointers v w = some ps) : ps = [] := by
  unfold comparedPointers at hp
  split at hp
  · cases h
  · rename_i es es'
    rw [Value.same] at h
    split at hp
    · rename_i hm
      cases hp
      cases es with
      | nil => rfl
      | cons e es =>
        cases es' with
        | nil => cases hm.1
        | cons e' es' =>
          have hmsg : e.2.message?.isSome = true := by
            have hall := hm.2
            rw [List.all_cons, Bool.and_eq_true] at hall
            exact hall.1
          obtain ⟨k, v⟩ := e
          unfold sameList at h
          cases v <;> cases hmsg <;> simp at h
    · cases hp
  · cases hp

/-- A comparison that is true dereferences no null pointer. -/
theorem Same.not_null {v w : Value M} (h : Same S v w) : ¬ Null S v w := by
  induction h with
  | leaf h =>
    rename_i v w
    intro hn
    cases hn with
    | object => cases h
    | pointer hp _ _ hi =>
      rw [comparedPointers_of_same h hp] at hi
      cases hi
    | pointee hp _ _ hi =>
      rw [comparedPointers_of_same h hp] at hi
      cases hi
  | unset =>
    intro hn
    cases hn with
    | pointer hp => cases hp
    | pointee hp => cases hp
  | unset_object =>
    intro hn
    cases hn with
    | pointer hp => cases hp
    | pointee hp => cases hp
  | object_unset =>
    intro hn
    cases hn with
    | pointer hp => cases hp
    | pointee hp => cases hp
  | object hl h ih =>
    intro hn
    cases hn with
    | object _ hv hw hn => exact ih _ _ _ hv hw hn
    | pointer hp => cases hp
    | pointee hp => cases hp
  | pointers hp hn' h ih =>
    intro hn
    cases hn with
    | object => cases hp
    | pointer hp' _ _ hi hne =>
      rw [hp] at hp'
      cases hp'
      exact hne (hn' _ (List.mem_of_getElem? hi))
    | pointee hp' _ _ hi hn =>
      rw [hp] at hp'
      cases hp'
      exact ih _ _ (List.mem_of_getElem? hi) hn

/-- An assignment that was completed has met no null pointer. -/
theorem Assigned.not_meetsNull {v w r : Value M} (h : Assigned S v w r) : ¬ MeetsNull S v w := by
  induction h with
  | property hm =>
    intro hn
    cases hn with
    | here hm' => rw [hm] at hm'; cases hm'
    | inside hm' => rw [hm] at hm'; cases hm'
  | kept _ h =>
    intro hn
    cases hn with
    | here _ hn => exact h.not_null hn
    | inside _ hs => exact hs h
  | copied _ _ hn hl _ ih =>
    intro hm
    cases hm with
    | here _ hn' => exact hn hn'
    | @inside _ _ _ i b _ _ hb h =>
      obtain ⟨c, hc⟩ := List.getElem?_eq_some_iff.mp hb
      exact ih i b _ hb (List.getElem?_eq_getElem (by omega)) h

/-- A list of as many results as there are elements. -/
theorem exists_pointwise {α β : Type} {P : Nat → α → β → Prop} {as : List α}
    (h : ∀ (i : Nat) a, as[i]? = some a → ∃ b, P i a b) :
    ∃ bs : List β, bs.length = as.length ∧
      ∀ (i : Nat) a b, as[i]? = some a → bs[i]? = some b → P i a b := by
  induction as generalizing P with
  | nil => exact ⟨[], rfl, fun i a b ha => by cases ha⟩
  | cons a as ih =>
    obtain ⟨b, hb⟩ := h 0 a rfl
    obtain ⟨bs, hl, hbs⟩ := ih (P := fun i => P (i + 1)) fun i a ha => h (i + 1) a ha
    refine ⟨b :: bs, by rw [List.length_cons, List.length_cons, hl], fun i a' b' ha hb' => ?_⟩
    cases i with
    | zero =>
      cases ha
      cases hb'
      exact hb
    | succ i => exact hbs i a' b' ha hb'

/-- The copy of a value whose fields can be assigned. -/
theorem exists_copied {v w : Value M} {m : M} (hm : w.message? = some m) (hnull : ¬ MeetsNull S v w)
    (h : ∀ (i : Nat) b, (w.fields S)[i]? = some b → ¬ MeetsNull S ((v.fields S).getD i b) b →
      ¬ Same S v w → ∃ c, Assigned S ((v.fields S).getD i b) b c) : ∃ r, Assigned S v w r := by
  cases Classical.em (Same S v w) with
  | inl hs => exact ⟨v, .kept hm hs⟩
  | inr hs =>
    obtain ⟨fs, hl, hfs⟩ := exists_pointwise fun i b hb =>
      h i b hb (fun hn => hnull (.inside hm hs hb hn)) hs
    exact ⟨.object m fs, .copied hm hs (fun hn => hnull (.here hm hn)) hl hfs⟩

theorem sizeOf_lt_object {m : M} {fs : List (Value M)} {v : Value M} (h : v ∈ fs) :
    sizeOf v < sizeOf (Value.object m fs) := by
  have hlt := List.sizeOf_lt_of_mem h
  rw [Value.object.sizeOf_spec]
  omega

/-- A field of a default object is unset, or has a setter. -/
theorem newObject_field {m : M} {i : Nat} {b : Value M} (h : (newObject S m)[i]? = some b) :
    (∃ m', b = .unset m') ∨ b.message? = none := by
  have hmem := List.mem_of_getElem? h
  obtain ⟨t, -, rfl⟩ := List.mem_map.mp hmem
  cases t with
  | single t =>
    cases t with
    | message m' => exact .inl ⟨m', rfl⟩
    | scalar t => exact .inr rfl
    | enum => exact .inr rfl
  | _ => exact .inr rfl

/-- Assigning an unset field: by induction on the old value. -/
theorem exists_assigned_unset (k : Nat) {v : Value M} (hk : sizeOf v < k) {m : M}
    (hnull : ¬ MeetsNull S v (.unset m)) : ∃ r, Assigned S v (.unset m) r := by
  induction k generalizing v m with
  | zero => omega
  | succ k ih =>
    refine exists_copied rfl hnull fun i b hb hn hs => ?_
    rcases newObject_field hb with ⟨m', rfl⟩ | hb'
    · cases v with
      | unset m₀ => exact absurd (.unset m₀ m) hs
      | object m₀ fs =>
        cases hf : fs[i]? with
        | none =>
          have hget : (Value.fields S (.object m₀ fs)).getD i (.unset m') = .unset m' := by
            rw [List.getD_eq_getElem?_getD]
            show (fs[i]?).getD _ = _
            rw [hf]
            rfl
          rw [hget]
          exact ⟨_, .kept rfl (.unset m' m')⟩
        | some f =>
          have hget : (Value.fields S (.object m₀ fs)).getD i (.unset m') = f := by
            rw [List.getD_eq_getElem?_getD]
            show (fs[i]?).getD _ = _
            rw [hf]
            rfl
          have hlt := sizeOf_lt_object (m := m₀) (List.mem_of_getElem? hf)
          rw [hget] at hn ⊢
          exact ih (by omega) hn
      | _ => exact ⟨_, .kept rfl (.unset m' m')⟩
    · exact ⟨_, .property hb'⟩

/-- By induction on the new value. -/
theorem exists_assigned (k : Nat) {v w : Value M} (hk : sizeOf w < k) (hnull : ¬ MeetsNull S v w) :
    ∃ r, Assigned S v w r := by
  induction k generalizing v w with
  | zero => omega
  | succ k ih =>
    cases w with
    | unset m => exact exists_assigned_unset (sizeOf v + 1) (Nat.lt_succ_self _) hnull
    | object m gs =>
      refine exists_copied rfl hnull fun i b hb hn _ => ih ?_ hn
      have hmem : b ∈ gs := List.mem_of_getElem? hb
      have hlt := sizeOf_lt_object (m := m) hmem
      omega
    | _ => exact ⟨_, .property rfl⟩

/-- **Null pointers.** The assignment is completed if and only if no comparison
on its way dereferences a null pointer. -/
theorem exists_assigned_iff {old new : List (Value M)} :
    (∃ r, AssignedFields S old new r) ↔ ¬ FieldsMeetNull S old new := by
  constructor
  · rintro ⟨r, hl, h⟩ ⟨i, b, hb, hn⟩
    obtain ⟨hlt, -⟩ := List.getElem?_eq_some_iff.mp hb
    exact (h i b _ hb (List.getElem?_eq_getElem (by omega))).not_meetsNull hn
  · intro hnull
    obtain ⟨r, hl, h⟩ := exists_pointwise fun i b (hb : new[i]? = some b) =>
      exists_assigned (sizeOf b + 1) (Nat.lt_succ_self _) fun hn => hnull ⟨i, b, hb, hn⟩
    exact ⟨r, hl, h⟩

end QtProtobuf.Codec
