import QtProtobuf.L2Codec.Copies

/-!
# Values that are equal to the default one

`operator ==` takes the object that a pointer creates for the null pointer, at
any depth.

* `isDefault_congr`: equal values are equal to the default one together.
* `same_of_isDefault`: two values that are equal to the default one are equal.
* `isDefault_iff`: what `operator ==` says of a value and the default one.
* `not_meetsNull_of_isDefault`: a comparison with such a value meets no null
  pointer.
-/
namespace QtProtobuf.Codec

variable {M : Type} {S : Schema M}

/-- The value has no message that is set but to a default object. -/
inductive IsDefault (S : Schema M) : FieldType M → Value M → Prop
  | property {t : FieldType M} {v : Value M} (h : v.same t.default = true) : IsDefault S t v
  | messages (m : M) : IsDefault S (.messages m) (.messages [])
  | unset (m : M) : IsDefault S (.single (.message m)) (.unset m)
  | object {m : M} {fs : List (Value M)}
    (h : ∀ (i : Nat) t v, (S m).properties[i]? = some t → fs[i]? = some v → IsDefault S t v) :
    IsDefault S (.single (.message m)) (.object m fs)

section
variable {t : FieldType M} {v w : Value M} {m : M} {fs : List (Value M)}

theorem isDefault_default (t : FieldType M) : IsDefault S t t.default := by
  cases t with
  | single t =>
    cases t with
    | scalar t =>
      cases t with
      | num t => exact .property (by cases t <;> rfl)
      | _ => exact .property rfl
    | enum => exact .property rfl
    | message m => exact .unset m
  | nums t => exact .property (by cases t <;> rfl)
  | messages m => exact .messages m
  | _ => exact .property rfl

/-- The fields of `new T`. -/
theorem isDefault_newObject {i : Nat} (ht : (S m).properties[i]? = some t)
    (hv : (newObject S m)[i]? = some v) : IsDefault S t v := by
  rw [newObject, List.getElem?_map, ht] at hv
  cases hv
  exact isDefault_default t

theorem isDefault_object : IsDefault S (.single (.message m)) (.object m fs) ↔
    ∀ (i : Nat) t v, (S m).properties[i]? = some t → fs[i]? = some v → IsDefault S t v := by
  constructor
  · intro h
    cases h with
    | property h => cases h
    | object h => exact h
  · exact .object

/-- A message, set or unset. -/
theorem isDefault_message (hv : HasType S (.single (.message m)) v) : IsDefault S (.single (.message m)) v ↔
    ∀ (i : Nat) t f, (S m).properties[i]? = some t → (v.fields S)[i]? = some f → IsDefault S t f := by
  cases hv with
  | unset => exact iff_of_true (.unset m) fun i t f ht hf => isDefault_newObject ht hf
  | object => exact isDefault_object

theorem isDefault_messages {vs : List (Value M)} : IsDefault S (.messages m) (.messages vs) ↔ vs = [] := by
  constructor
  · intro h
    cases h with
    | property h => cases h
    | messages => rfl
  · rintro rfl
    exact .messages m

theorem isDefault_map {kt : ScalarType} {vt : SingleType M} {es : List (Scalar × Value M)} :
    IsDefault S (.map kt vt) (.map es) ↔ es = [] := by
  constructor
  · intro h
    cases h with
    | property h => exact List.eq_nil_of_length_eq_zero (sameList_length (Value.same_map.symm.trans h))
  · rintro rfl
    exact .property rfl

theorem IsDefault.of_same (h : v.same w = true) (hv : IsDefault S t v) : IsDefault S t w := by
  cases hv with
  | property hd => exact .property (Value.same_trans (Value.same_symm h) hd)
  | _ => cases h

/-- Containers of pointers that are equal have one length. -/
theorem isDefault_pointers {ps : List (Option (Value M) × Option (Value M))}
    (hp : comparedPointers v w = some ps) (hv : HasType S t v) (hw : HasType S t w) :
    IsDefault S t v ↔ IsDefault S t w := by
  unfold comparedPointers at hp
  split at hp
  · split at hp
    · rename_i hl
      cases hv
      rw [isDefault_messages, isDefault_messages, ← List.length_eq_zero_iff, ← List.length_eq_zero_iff, hl]
    · cases hp
  · split at hp
    · rename_i hl
      cases hv
      rw [isDefault_map, isDefault_map, ← List.length_eq_zero_iff, ← List.length_eq_zero_iff, hl.1]
    · cases hp
  · cases hp

/-- **Equal values.** Both are equal to the default one, or none. -/
theorem isDefault_congr (h : Same S v w) (hv : HasType S t v) (hw : HasType S t w) :
    IsDefault S t v ↔ IsDefault S t w := by
  induction h generalizing t with
  | leaf h => exact ⟨IsDefault.of_same h, IsDefault.of_same (Value.same_symm h)⟩
  | unset =>
    cases hv
    cases hw
    exact Iff.rfl
  | unset_object _ ih =>
    cases hv
    rw [ih hw (hasType_newObject _)]
    exact iff_of_true (.unset _) (.object fun i t v => isDefault_newObject)
  | object_unset _ ih =>
    cases hw
    rw [ih hv (hasType_newObject _)]
    exact iff_of_true (.object fun i t v => isDefault_newObject) (.unset _)
  | @object m fs gs hl _ ih =>
    cases hv with
    | object _ hlf hfs =>
      cases hw with
      | object _ hlg hgs =>
        rw [isDefault_object, isDefault_object]
        constructor
        · intro h i t g ht hg
          obtain ⟨hlt, -⟩ := List.getElem?_eq_some_iff.mp hg
          have hf : fs[i]? = some fs[i] := List.getElem?_eq_getElem (hl ▸ hlt)
          exact (ih i _ g hf hg (hfs i t _ ht hf) (hgs i t g ht hg)).mp (h i t _ ht hf)
        · intro h i t f ht hf
          obtain ⟨hlt, -⟩ := List.getElem?_eq_some_iff.mp hf
          have hg : gs[i]? = some gs[i] := List.getElem?_eq_getElem (hl ▸ hlt)
          exact (ih i f _ hf hg (hfs i t f ht hf) (hgs i t _ ht hg)).mpr (h i t _ ht hg)
  | pointers hp => exact isDefault_pointers hp hv hw

theorem same_noMessages : Same S (.messages []) (.messages ([] : List (Value M))) := by
  have hp : comparedPointers (.messages []) (.messages ([] : List (Value M))) = some [] := rfl
  exact .pointers hp (by simp) (by simp)

/-- A value that is equal to the default one. -/
theorem same_default (hv : HasType S t v) (h : IsDefault S t v) : Same S v t.default := by
  induction h with
  | property h => exact .leaf h
  | messages m => exact same_noMessages
  | unset m => exact .unset m m
  | @object m fs _ ih =>
    cases hv with
    | object _ hl hfs =>
      refine .object_unset (.object (by rw [newObject, List.length_map, hl]) fun i f d hf hd => ?_)
      obtain ⟨t, ht, hft⟩ := (HasType.object m hl hfs).property hf
      rw [newObject, List.getElem?_map, ht] at hd
      cases hd
      exact ih i t f ht hf hft

theorem isDefault_iff (hv : HasType S t v) : IsDefault S t v ↔ Same S v t.default :=
  ⟨same_default hv, fun h => (isDefault_congr h hv (hasType_default t)).mpr (isDefault_default t)⟩

theorem same_newObject (hv : HasType S (.single (.message m)) (.object m fs))
    (h : IsDefault S (.single (.message m)) (.object m fs)) :
    Same S (.object m fs) (.object m (newObject S m)) := by
  cases same_default hv h with
  | leaf h => cases h
  | object_unset h => exact h
  | pointers hp => cases hp

/-- **Default values.** They are equal. -/
theorem same_of_isDefault (hv : HasType S t v) (hw : HasType S t w) (h : IsDefault S t v)
    (h' : IsDefault S t w) : Same S v w := by
  induction h generalizing w with
  | property h =>
    cases h' with
    | property h' => exact .leaf (Value.same_trans h (Value.same_symm h'))
    | messages => cases hv; cases h
    | unset => cases hv <;> cases h
    | object => cases hv <;> cases h
  | messages m =>
    cases hw with
    | messages =>
      cases isDefault_messages.mp h'
      exact same_noMessages
  | unset m =>
    cases hw with
    | unset => exact .unset m m
    | object _ hl hgs => exact .unset_object (same_newObject (.object m hl hgs) h')
  | @object m fs h ih =>
    cases hw with
    | unset => exact .object_unset (same_newObject hv (.object h))
    | @object _ gs hl' hgs =>
      cases hv with
      | object _ hl hfs =>
        refine .object (hl.trans hl'.symm) fun i f g hf hg => ?_
        obtain ⟨t, ht, hft⟩ := (HasType.object m hl hfs).property hf
        exact ih i t f ht hf hft (hgs i t g ht hg) (isDefault_object.mp h' i t g ht hg)

/-! ## Comparisons with them -/

theorem comparedPointers_default {ps : List (Option (Value M) × Option (Value M))}
    (hp : comparedPointers v w = some ps) (hw : HasType S t w) (h : IsDefault S t w) : ps = [] := by
  unfold comparedPointers at hp
  split at hp
  · split at hp
    · rename_i hl
      cases hw
      rw [isDefault_messages.mp h, List.length_nil, List.length_eq_zero_iff] at hl
      rw [hl] at hp
      exact (Option.some.inj hp).symm
    · cases hp
  · split at hp
    · rename_i hl
      cases hw
      rw [isDefault_map.mp h, List.length_nil, List.length_eq_zero_iff] at hl
      rw [hl.1] at hp
      exact (Option.some.inj hp).symm
    · cases hp
  · cases hp

theorem not_null_of_isDefault (hw : HasType S t w) (h : IsDefault S t w) : ¬ Null S v w := by
  intro hnull
  induction hnull generalizing t with
  | object _ _ hw' _ ih =>
    cases hw with
    | object _ hl hgs =>
      obtain ⟨t, ht, hg⟩ := (HasType.object _ hl hgs).property hw'
      exact ih hg (isDefault_object.mp h _ t _ ht hw')
  | pointer hp _ _ hi =>
    rw [comparedPointers_default hp hw h] at hi
    cases hi
  | pointee hp _ _ hi =>
    rw [comparedPointers_default hp hw h] at hi
    cases hi

theorem not_meetsNull_of_isDefault (hw : HasType S t w) (h : IsDefault S t w) : ¬ MeetsNull S v w := by
  intro hnull
  induction hnull generalizing t with
  | here _ hn => exact not_null_of_isDefault hw h hn
  | @inside v w m i b hm _ hb _ ih =>
    cases hw with
    | unset m =>
      obtain ⟨t, ht, hbt⟩ := (hasType_newObject (S := S) m).property hb
      exact ih hbt (isDefault_newObject ht hb)
    | object m hl hgs =>
      obtain ⟨t, ht, hbt⟩ := (HasType.object m hl hgs).property hb
      exact ih hbt (isDefault_object.mp h i t b ht hb)
    | _ => cases hm

theorem NumType.number_of_same {t : NumType} {v w : Nat} (h : t.same v w = true) : t.Number v := by
  intro inf hi
  unfold NumType.same at h
  simp only [hi, Bool.and_eq_true, decide_eq_true_eq] at h
  exact h.1.1

theorem Scalar.number_of_same {v w : Scalar} (h : v.same w = true) : v.Number := by
  cases v with
  | num t v =>
    cases w with
    | num t' w =>
      simp only [Scalar.same, Bool.and_eq_true] at h
      exact NumType.number_of_same h.2
    | _ => cases h
  | _ => trivial

/-- Such a value has no NaN and no null pointer. -/
theorem regular_of_isDefault (hv : HasType S t v) (h : IsDefault S t v) : Regular v := by
  induction h with
  | property h =>
    cases hv with
    | scalar v => exact .scalar (Scalar.number_of_same h)
    | enum v => exact .enum v
    | nums t vs =>
      simp only [FieldType.default, Value.same, Bool.and_eq_true] at h
      have hvs : vs = [] := by simpa using sameList_length h.2
      rw [hvs]
      exact .nums (by simp)
    | strings vs => exact .strings vs
    | byteArrays vs => exact .byteArrays vs
    | enums vs => exact .enums vs
    | map hk hes =>
      cases isDefault_map.mp (IsDefault.property (S := S) h)
      exact .map (by simp) (by simp) (by simp) .nil
    | _ => cases h
  | messages m => exact .messages (by simp) (by simp)
  | unset m => exact .unset m
  | @object m fs _ ih =>
    refine .object m fun f hf => ?_
    obtain ⟨i, hi⟩ := List.mem_iff_getElem?.mp hf
    obtain ⟨t, ht, hft⟩ := hv.property hi
    exact ih i t f ht hi hft

end

/-! ## Set and unset messages -/

theorem same_fields_iff {m : M} {v w : Value M} (hv : HasType S (.single (.message m)) v)
    (hw : HasType S (.single (.message m)) w) :
    Same S v w ↔ Same S (.object m (v.fields S)) (.object m (w.fields S)) := by
  have hnew : IsDefault S (.single (.message m)) (.object m (newObject S m)) :=
    .object fun i t v => isDefault_newObject
  have hobj := hasType_newObject (S := S) m
  cases hv with
  | unset =>
    cases hw with
    | unset => exact iff_of_true (.unset m m) (same_of_isDefault hobj hobj hnew hnew)
    | object _ hl hgs =>
      have hg := HasType.object m hl hgs
      constructor
      · intro h
        exact same_of_isDefault hobj hg hnew ((isDefault_congr h (.unset m) hg).mp (.unset m))
      · intro h
        exact same_of_isDefault (.unset m) hg (.unset m) ((isDefault_congr h hobj hg).mp hnew)
  | object _ hl hfs =>
    have hf := HasType.object m hl hfs
    cases hw with
    | unset =>
      constructor
      · intro h
        exact same_of_isDefault hf hobj ((isDefault_congr h hf (.unset m)).mpr (.unset m)) hnew
      · intro h
        exact same_of_isDefault hf (.unset m) ((isDefault_congr h hf hobj).mpr hnew) (.unset m)
    | object => exact Iff.rfl

theorem Same.object_fields {m : M} {fs gs : List (Value M)} (h : Same S (.object m fs) (.object m gs)) {i : Nat}
    {f g : Value M} (hf : fs[i]? = some f) (hg : gs[i]? = some g) : Same S f g := by
  cases h with
  | leaf h => cases h
  | object _ h => exact h i f g hf hg
  | pointers hp => cases hp

end QtProtobuf.Codec
