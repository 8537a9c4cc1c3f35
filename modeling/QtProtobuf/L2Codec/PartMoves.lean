import QtProtobuf.L2Codec.OwnParts

/-!
# What the assignment of a part leaves

Two objects are equal if their objects down a way have equal fields; an object is
not equal to a part of it unless both are equal to the default object. The
statements after the field of the part read what the assignment inside has
written.

* `Way.defaultFrom_of_same`: where the field of the target is equal to its part.
* `moved_of_runPart`: what a move leaves in each field.
* `copied_of_runPart`: what the copy of a default object leaves.
-/
namespace QtProtobuf.Codec

variable {M : Type} {S : Schema M}

/-! ## Equal objects down the way -/

namespace Way

variable {w : Way S} {fs gs : List (Value M)} {k : Nat}

theorem same_child (hf : HasType S (.single (.message (w.message 0))) (.object (w.message 0) fs))
    (hg : HasType S (.single (.message (w.message 0))) (.object (w.message 0) gs))
    (h : Same S (.object (w.message 0) fs) (.object (w.message 0) gs)) :
    Same S (.object (w.message 1) ((w.child fs).fields S)) (.object (w.message 1) ((w.child gs).fields S)) :=
  (same_fields_iff (hasType_child hf) (hasType_child hg)).mp
    (h.object_fields (getElem?_child hf) (getElem?_child hg))

/-- Equal objects have equal fields down the way. -/
theorem same_get (hf : HasType S (.single (.message (w.message 0))) (.object (w.message 0) fs))
    (hg : HasType S (.single (.message (w.message 0))) (.object (w.message 0) gs))
    (h : Same S (.object (w.message 0) fs) (.object (w.message 0) gs)) {s j : Nat} {v u : Value M}
    (hv : w.get s j fs = some v) (hu : w.get s j gs = some u) : Same S v u := by
  induction s generalizing w fs gs with
  | zero => exact h.object_fields hv hu
  | succ s ih =>
    exact ih (w := w.next) (hasType_fields (hasType_child hf)) (hasType_fields (hasType_child hg))
      (same_child hf hg h) hv hu

/-- Objects with equal fields down the way are equal. -/
theorem same_of_get (hf : HasType S (.single (.message (w.message 0))) (.object (w.message 0) fs))
    (hg : HasType S (.single (.message (w.message 0))) (.object (w.message 0) gs))
    (h : ∀ s j v u, j ≠ w.field s → w.get s j fs = some v → w.get s j gs = some u → Same S v u) :
    Same S (.object (w.message 0) fs) (.object (w.message 0) gs) := by
  obtain ⟨d, hd, hd'⟩ : ∃ d, (Value.object (w.message 0) fs).depth ≤ d ∧ (Value.object (w.message 0) gs).depth ≤ d :=
    ⟨_, Nat.le_max_left _ _, Nat.le_max_right _ _⟩
  induction d generalizing w fs gs with
  | zero => simp at hd
  | succ d ih =>
    rw [depth_object, Nat.succ_le_succ_iff, depths_le] at hd hd'
    have hcf := hasType_child hf
    have hcg := hasType_child hg
    have hchild : Same S (w.child fs) (w.child gs) := by
      have hdf := hd _ (List.mem_of_getElem? (getElem?_child hf))
      have hdg := hd' _ (List.mem_of_getElem? (getElem?_child hg))
      by_cases hpos : d = 0
      · subst hpos
        have hunset : ∀ {c : Value M}, HasType S (.single (.message (w.message 1))) c → c.depth ≤ 0 →
            c = .unset (w.message 1) := by
          intro c hc hle
          cases hc with
          | unset => rfl
          | object => simp at hle
        rw [hunset hcf hdf, hunset hcg hdg]
        exact .unset _ _
      · refine (same_fields_iff hcf hcg).mpr (ih (w := w.next) (hasType_fields hcf) (hasType_fields hcg)
          (fun s j v u hj hv hu => h (s + 1) j v u hj hv hu) ?_ ?_)
        · exact (grown_fields hcf hdf (Nat.pos_of_ne_zero hpos)).2
        · exact (grown_fields hcg hdg (Nat.pos_of_ne_zero hpos)).2
    cases hf with
    | object _ hl hfs =>
      cases hg with
      | object _ hl' hgs =>
        refine .object (hl.trans hl'.symm) fun i v u hv hu => ?_
        by_cases hi : i = w.field 0
        · subst hi
          rw [getElem?_child (.object _ hl hfs)] at hv
          rw [getElem?_child (.object _ hl' hgs)] at hu
          cases hv
          cases hu
          exact hchild
        · exact h 0 i v u hi hv hu

/-- From `l` steps down on, the fields beside the way have default values. -/
def DefaultFrom (w : Way S) (l : Nat) (fs : List (Value M)) : Prop :=
  ∀ s j t v, l ≤ s → j ≠ w.field s → (S (w.message s)).properties[j]? = some t → w.get s j fs = some v →
    IsDefault S t v

theorem hasType_get (hf : HasType S (.single (.message (w.message 0))) (.object (w.message 0) fs)) {s j : Nat}
    {t : FieldType M} {v : Value M} (ht : (S (w.message s)).properties[j]? = some t)
    (hv : w.get s j fs = some v) : HasType S t v := (hasType_object hf s).get ht hv

/-- The fields of a default object have default values, at any depth. -/
theorem get_isDefault (hf : HasType S (.single (.message (w.message 0))) (.object (w.message 0) fs))
    (h : IsDefault S (.single (.message (w.message 0))) (.object (w.message 0) fs)) {s j : Nat} {t : FieldType M}
    {v : Value M} (ht : (S (w.message s)).properties[j]? = some t) (hv : w.get s j fs = some v) :
    IsDefault S t v := by
  induction s generalizing w fs with
  | zero => exact isDefault_object.mp h j t v ht hv
  | succ s ih =>
    have hc := hasType_child hf
    have hd := isDefault_object.mp h _ _ _ (w.property 0) (getElem?_child hf)
    exact ih (w := w.next) (hasType_fields hc) (.object fun i t f => (isDefault_message hc).mp hd i t f) ht hv

theorem defaultFrom_zero_iff (hf : HasType S (.single (.message (w.message 0))) (.object (w.message 0) fs)) :
    w.DefaultFrom 0 fs ↔ IsDefault S (.single (.message (w.message 0))) (.object (w.message 0) fs) := by
  constructor
  · intro h
    have hnew : IsDefault S (.single (.message (w.message 0))) (.object (w.message 0) (newObject S (w.message 0))) :=
      .object fun i t v => isDefault_newObject
    have hobj := hasType_newObject (S := S) (w.message 0)
    refine (isDefault_congr (same_of_get hf hobj fun s j v u hj hv hu => ?_) hf hobj).mpr hnew
    obtain ⟨t, ht, hvt⟩ := (hasType_object hf s).property hv
    exact same_of_isDefault hvt (hasType_get hobj ht hu) (h s j t v (Nat.zero_le s) hj ht hv)
      (get_isDefault hobj hnew ht hu)
  · exact fun h s j t v _ _ ht hv => get_isDefault hf h ht hv

/-- Far enough down there is nothing. -/
theorem exists_defaultFrom (hf : HasType S (.single (.message (w.message 0))) (.object (w.message 0) fs)) :
    ∃ l, w.DefaultFrom l fs := by
  obtain ⟨d, hd⟩ : ∃ d, (Value.object (w.message 0) fs).depth ≤ d := ⟨_, Nat.le_refl _⟩
  refine ⟨d, fun s j t v hs hj ht hv => ?_⟩
  induction d generalizing w fs s with
  | zero => simp at hd
  | succ d ih =>
    obtain ⟨s, rfl⟩ := Nat.exists_eq_succ_of_ne_zero (Nat.ne_zero_of_lt hs)
    rw [depth_object, Nat.succ_le_succ_iff, depths_le] at hd
    have hc := hasType_child hf
    have hdc := hd _ (List.mem_of_getElem? (getElem?_child hf))
    have hv' : w.next.get s j ((w.child fs).fields S) = some v := hv
    generalize w.child fs = c at hc hdc hv'
    cases hc with
    | unset =>
      exact get_isDefault (w := w.next) (hasType_newObject _) (.object fun i t v => isDefault_newObject) ht hv'
    | object _ hl hfs => exact ih (w := w.next) (.object _ hl hfs) hdc s (Nat.le_of_succ_le_succ hs) hj ht hv'

/-! ## The way repeats -/

/-- The way from `k` steps down on. -/
def skip (w : Way S) (k : Nat) : Way S where
  message s := w.message (s + k)
  field s := w.field (s + k)
  property s := by
    have h := w.property (s + k)
    rwa [Nat.add_right_comm] at h

theorem object_add (s : Nat) : w.object (s + k) fs = (w.skip k).object s (w.object k fs) := by
  induction k generalizing w fs with
  | zero => rfl
  | succ k ih => exact ih (w := w.next)

theorem ext {w w' : Way S} (hm : ∀ s, w.message s = w'.message s) (hf : ∀ s, w.field s = w'.field s) : w = w' := by
  cases w with
  | mk m f p =>
    cases w' with
    | mk m' f' p' =>
      obtain rfl : m = m' := funext hm
      obtain rfl : f = f' := funext hf
      rfl

theorem Repeats.object_add (hw : w.Repeats k) (s : Nat) : w.object (s + k) fs = w.object s (w.object k fs) := by
  have hskip : w.skip k = w := ext (fun s => (hw s).1) fun s => (hw s).2
  rw [Way.object_add, hskip]

theorem Repeats.get_add (hw : w.Repeats k) (s j : Nat) : w.get (s + k) j fs = w.get s j (w.object k fs) := by
  rw [get, hw.object_add]
  rfl

theorem Repeats.message_zero (hw : w.Repeats k) : w.message k = w.message 0 := by
  rw [← (hw 0).1, Nat.zero_add]

theorem Repeats.field_zero (hw : w.Repeats k) : w.field k = w.field 0 := by
  rw [← (hw 0).2, Nat.zero_add]

theorem Repeats.hasType_object (hw : w.Repeats k)
    (hf : HasType S (.single (.message (w.message 0))) (.object (w.message 0) fs)) :
    HasType S (.single (.message (w.message 0))) (.object (w.message 0) (w.object k fs)) := by
  have h := Way.hasType_object hf k
  rwa [hw.message_zero] at h

theorem Repeats.defaultFrom_iff (hw : w.Repeats k)
    (hf : HasType S (.single (.message (w.message 0))) (.object (w.message 0) fs)) :
    w.DefaultFrom k fs ↔ IsDefault S (.single (.message (w.message 0))) (.object (w.message 0) (w.object k fs)) := by
  rw [← defaultFrom_zero_iff (hw.hasType_object hf)]
  constructor
  · intro h s j t v _ hj ht hv
    rw [← hw.get_add] at hv
    exact h (s + k) j t v (Nat.le_add_left k s) (by rwa [(hw s).2]) (by rwa [(hw s).1]) hv
  · intro h s j t v hs hj ht hv
    obtain ⟨r, rfl⟩ := Nat.exists_eq_add_of_le' hs
    rw [(hw r).2] at hj
    rw [(hw r).1] at ht
    rw [hw.get_add] at hv
    exact h r j t v (Nat.zero_le r) hj ht hv

/-- Fields that are equal to those `k` steps down have default values. -/
theorem defaultFrom_of_chain (hf : HasType S (.single (.message (w.message 0))) (.object (w.message 0) fs))
    (hw : w.Repeats k) (hk : 0 < k) {l : Nat}
    (h : ∀ s j t v u, l ≤ s → j ≠ w.field s → (S (w.message s)).properties[j]? = some t →
      w.get s j fs = some v → w.get (s + k) j fs = some u → IsDefault S t u → IsDefault S t v) :
    w.DefaultFrom l fs := by
  obtain ⟨d, hd⟩ := exists_defaultFrom hf
  have hchain : ∀ e s, d ≤ s + e → ∀ j t v, l ≤ s → j ≠ w.field s → (S (w.message s)).properties[j]? = some t →
      w.get s j fs = some v → IsDefault S t v := by
    intro e
    induction e using Nat.strongRecOn with
    | ind e ih =>
      intro s hs j t v hl hj ht hv
      by_cases he : e = 0
      · exact hd s j t v (by omega) hj ht hv
      · have ht' : (S (w.message (s + k))).properties[j]? = some t := by rwa [(hw s).1]
        obtain ⟨u, hu, -, -⟩ := (Way.hasType_object hf (s + k)).field ht'
        exact h s j t v u hl hj ht hv hu
          (ih (e - k) (by omega) (s + k) (by omega) j t u (by omega) (by rwa [(hw s).2]) ht' hu)
  exact fun s j t v hs hj ht hv => hchain d s (Nat.le_add_left d s) j t v hs hj ht hv

/-- A field that is equal to its part is equal to the default object. -/
theorem defaultFrom_of_same (hf : HasType S (.single (.message (w.message 0))) (.object (w.message 0) fs))
    (hw : w.Repeats k) (hk : 0 < k) (h : Same S (w.child fs) (w.other k fs)) : w.DefaultFrom 1 fs := by
  have hpart := hw.hasType_object hf
  have hc := hasType_child hf
  have ho : HasType S (.single (.message (w.message 1))) (w.child (w.object k fs)) := hasType_child hpart
  refine defaultFrom_of_chain hf hw hk fun s j t v u hs hj ht hv hu hd => ?_
  obtain ⟨s, rfl⟩ := Nat.exists_eq_succ_of_ne_zero (Nat.ne_zero_of_lt hs)
  rw [hw.get_add] at hu
  have hsame := same_get (w := w.next) (hasType_fields hc) (hasType_fields ho) ((same_fields_iff hc ho).mp h) hv hu
  exact (isDefault_congr hsame (hasType_get hf ht hv) (hasType_get hpart ht hu)).mpr hd

/-- From `l` steps down on, the fields beside the way have no NaN and no null
pointer. -/
def RegularFrom (w : Way S) (l : Nat) (fs : List (Value M)) : Prop :=
  ∀ s j v, l ≤ s → j ≠ w.field s → w.get s j fs = some v → Regular v

theorem regular_get (h : Regular (.object (w.message 0) fs)) {s j : Nat} {v : Value M}
    (hv : w.get s j fs = some v) : Regular v := by
  induction s generalizing w fs with
  | zero => exact regular_fields (S := S) h v (List.mem_of_getElem? hv)
  | succ s ih =>
    refine ih (w := w.next) (.object _ (regular_fields ?_)) hv
    rw [child, List.getD_eq_getElem?_getD]
    cases hc : fs[w.field 0]? with
    | none => exact .unset _
    | some c => exact regular_fields (S := S) h c (List.mem_of_getElem? hc)

end Way

/-! ## Moves -/

section
variable {left : Value M → Value M → Value M} {clears : FieldType M → Bool} {k : Nat} {w : Way S}
  {fs gs gs' hs : List (Value M)}

/-- What the move of the part leaves: fields before the way get the value of `k`
steps further down; fields after it get default values above the part, and what is
handed over `k` steps above from there on. -/
structure Moved (clears : FieldType M → Bool) (k : Nat) (w : Way S) (fs hs : List (Value M)) : Prop where
  hasType : HasType S (.single (.message (w.message 0))) (.object (w.message 0) hs)
  before : ∀ s j v u, j < w.field s → w.get s j hs = some v → w.get (s + k) j fs = some u → Same S v u
  above : ∀ s j t v, s < k → w.field s < j → (S (w.message s)).properties[j]? = some t →
    w.get s j hs = some v → IsDefault S t v
  handed : ∀ s j t v y, w.field s < j → (S (w.message s)).properties[j]? = some t →
    w.get (s + k) j hs = some v → w.get s j fs = some y → Alike S t v (handed S clears t y)

/-- The same of the field that the part lies in, after its statement. -/
structure MovedInside (clears : FieldType M → Bool) (k : Nat) (w : Way S) (gs gs' : List (Value M)) : Prop where
  hasType : HasType S (.single (.message (w.message 0))) (.object (w.message 0) gs')
  first : ∀ j, j ≠ w.field 0 → w.get 0 j gs' = w.get 0 j gs
  before : ∀ s j v u, j < w.field (s + 1) → w.get (s + 1) j gs' = some v → w.get (s + 1 + k) j gs = some u →
    Same S v u
  above : ∀ s j t v, s < k → w.field (s + 1) < j → (S (w.message (s + 1))).properties[j]? = some t →
    w.get (s + 1) j gs' = some v → IsDefault S t v
  handed : ∀ s j t v y, w.field (s + 1) < j → (S (w.message (s + 1))).properties[j]? = some t →
    w.get (s + 1 + k) j gs' = some v → w.get (s + 1) j gs = some y → Alike S t v (handed S clears t y)

theorem movedInside_of_runOwn (hk : 0 < k) (hw : w.Repeats k)
    (h : HasType S (.single (.message (w.message 0))) (.object (w.message 0) gs))
    {part : Way S → List (Value M) → Option (List (Value M))}
    (hpart : ∀ cs, part w.next ((w.child gs).fields S) = some cs → Moved clears k w.next ((w.child gs).fields S) cs)
    (hr : runOwn k w part gs = some gs') : MovedInside clears k w gs gs' := by
  rcases (runOwn_iff hw h).mp hr with ⟨hs, rfl⟩ | ⟨-, -, cs, hcs, rfl⟩
  · have hd := Way.defaultFrom_of_same h hw hk hs
    refine ⟨h, fun j _ => rfl, fun s j v u hj hv hu => ?_, fun s j t v _ hj ht hv => ?_,
      fun s j t v y hj ht hv hy => ?_⟩
    · obtain ⟨t, ht, hvt⟩ := (Way.hasType_object h (s + 1)).property hv
      have ht' : (S (w.message (s + 1 + k))).properties[j]? = some t := by rwa [(hw (s + 1)).1]
      exact same_of_isDefault hvt (Way.hasType_get h ht' hu) (hd _ j t v (by omega) (by omega) ht hv)
        (hd _ j t u (by omega) (by rw [(hw (s + 1)).2]; omega) ht' hu)
    · exact hd _ j t v (by omega) (by omega) ht hv
    · have ht' : (S (w.message (s + 1 + k))).properties[j]? = some t := by rwa [(hw (s + 1)).1]
      have hyt := Way.hasType_get h ht hy
      have hdv := hd _ j t v (by omega) (by rw [(hw (s + 1)).2]; omega) ht' hv
      have hdy := hd _ j t y (by omega) (by omega) ht hy
      exact hdv.alike (Way.hasType_get h ht' hv) (hasType_handed clears hyt) (hdy.handed hyt)
  · have hm := hpart cs hcs
    have hlt := Way.lt_length h
    have hbelow : ∀ s j, w.get (s + 1) j (gs.set (w.field 0) (.object (w.message 1) cs)) = w.next.get s j cs := by
      intro s j
      rw [Way.get, Way.object_setChild hlt]
      rfl
    refine ⟨h.set (w.property 0) hm.hasType, fun j hj => List.getElem?_set_ne fun he => hj he.symm,
      fun s j v u hj hv hu => ?_, fun s j t v hs hj ht hv => ?_, fun s j t v y hj ht hv hy => ?_⟩
    · rw [hbelow] at hv
      rw [Nat.add_right_comm] at hu
      exact hm.before s j v u hj hv hu
    · rw [hbelow] at hv
      exact hm.above s j t v hs hj ht hv
    · rw [Nat.add_right_comm, hbelow] at hv
      exact hm.handed s j t v y hj ht hv hy

/-- The field of the part that a statement after the way reads. -/
theorem MovedInside.isDefault_part (hk : 0 < k) (hw : w.Repeats k) (h : MovedInside clears k w gs gs') {j : Nat}
    {t : FieldType M} {u : Value M} (hj : w.field 0 < j) (ht : (S (w.message 0)).properties[j]? = some t)
    (hu : w.get k j gs' = some u) : IsDefault S t u := by
  obtain ⟨k, rfl⟩ := Nat.exists_eq_succ_of_ne_zero (Nat.ne_of_gt hk)
  refine h.above k j t u (Nat.lt_succ_self k) ?_ ?_ hu
  · rwa [hw.field_zero]
  · rwa [hw.message_zero]

theorem moved_of_parts (ha : Assigning S left clears .moveAssignment k) (hw : w.Repeats k)
    (h : HasType S (.single (.message (w.message 0))) (.object (w.message 0) fs)) (hreg : w.RegularFrom k fs)
    (hbefore : Ran left .moveAssignment k w 0 (w.field 0) fs gs) (hinside : MovedInside clears k w gs gs')
    (hafter : Ran left .moveAssignment k w (w.field 0 + 1) (S (w.message 0)).properties.length gs' hs) :
    Moved clears k w fs hs := by
  have hpos := ha.pos
  refine ⟨hafter.hasType, fun s j v u hj hv hu => ?_, fun s j t v hs hj ht hv => ?_,
    fun s j t v y hj ht hv hy => ?_⟩
  · have hs : w.get s j hs = w.get s j gs' := hafter.others s j (by omega) fun hs => by
      rcases hs with rfl | rfl
      · omega
      · rw [hw.field_zero] at hj
        omega
    rw [hs] at hv
    cases s with
    | zero =>
      obtain ⟨t, ht, -⟩ := hinside.hasType.property hv
      obtain ⟨x, y, p, hx, hy, hp, htarget, -⟩ := hbefore.fields j t (Nat.zero_le j) hj ht
      have hv' : w.get 0 j gs = some v := (hinside.first j (by omega)).symm.trans hv
      rw [Nat.zero_add] at hu
      cases hy.symm.trans hu
      cases htarget.symm.trans hv'
      refine fieldStatement_same (Way.hasType_get h ht hx) (Way.hasType_get h ?_ hy)
        (hreg k j u (Nat.le_refl k) ?_ hy) hp
      · rwa [hw.message_zero]
      · rw [hw.field_zero]
        omega
    | succ s =>
      refine hinside.before s j v u hj hv ?_
      rw [← hu]
      refine hbefore.others _ j ?_ fun hs => ?_
      · rw [(hw (s + 1)).2]
        omega
      · omega
  · by_cases hs0 : s = 0
    · subst hs0
      obtain ⟨x, y, p, hx, hy, hp, htarget, -⟩ := hafter.fields j t hj (List.getElem?_eq_some_iff.mp ht).1 ht
      cases htarget.symm.trans hv
      have htk : (S (w.message k)).properties[j]? = some t := by rwa [hw.message_zero]
      have hdy := hinside.isDefault_part hpos hw hj ht hy
      have hyt := Way.hasType_get hinside.hasType htk hy
      have hxt := Way.hasType_get hinside.hasType ht hx
      have hsame := fieldStatement_same hxt hyt (regular_of_isDefault hyt hdy) hp
      exact (isDefault_congr hsame (fieldStatement_remains ha.exchanges ha.assignment hxt hyt hp).target hyt).mpr hdy
    · rw [hafter.others s j (by omega) fun hs' => by omega] at hv
      obtain ⟨s, rfl⟩ : ∃ s', s = s' + 1 := Nat.exists_eq_succ_of_ne_zero hs0
      exact hinside.above s j t v (Nat.lt_of_succ_lt hs) hj ht hv
  · by_cases hs0 : s = 0
    · subst hs0
      rw [Nat.zero_add] at hv
      obtain ⟨x, u, p, hx, hu, hp, -, hsource⟩ := hafter.fields j t hj (List.getElem?_eq_some_iff.mp ht).1 ht
      cases hsource.symm.trans hv
      have hx' : w.get 0 j gs = some x := (hinside.first j (by omega)).symm.trans hx
      rw [hbefore.others 0 j (by omega) fun _ => .inr (by omega)] at hx'
      cases hx'.symm.trans hy
      have hut := Way.hasType_get hinside.hasType (by rwa [hw.message_zero]) hu
      exact (fieldStatement_remains ha.exchanges ha.assignment (Way.hasType_get h ht hy) hut hp).moved rfl
        (hinside.isDefault_part hpos hw hj ht hu)
    · have hfield := (hw s).2
      rw [hafter.others (s + k) j (by omega) fun hs' => by omega] at hv
      obtain ⟨s, rfl⟩ : ∃ s', s = s' + 1 := Nat.exists_eq_succ_of_ne_zero hs0
      refine hinside.handed s j t v y hj ht hv ?_
      rw [← hy]
      refine hbefore.others _ j (by omega) fun hs => .inr ?_
      have hk : s + 1 = k := by omega
      have h0 := hw.field_zero
      rw [hk] at hj
      omega

theorem Way.RegularFrom.inside (h : w.RegularFrom k fs) {member : SpecialMember}
    (hbefore : Ran left member k w 0 (w.field 0) fs gs) : w.next.RegularFrom k ((w.child gs).fields S) := by
  intro s j v hs hj hv
  have hv' : w.get (s + 1) j gs = some v := hv
  have hj' : j ≠ w.field (s + 1) := hj
  rw [hbefore.others (s + 1) j hj' fun hs' => by omega] at hv'
  exact h (s + 1) j v (by omega) hj' hv'

/-- **A move.** Each field of the objects down the way, by induction on the
assignments inside one another. -/
theorem moved_of_runPart (ha : Assigning S left clears .moveAssignment k) (hw : w.Repeats k)
    (h : HasType S (.single (.message (w.message 0))) (.object (w.message 0) fs)) (hreg : w.RegularFrom k fs)
    {n : Nat} (hr : runPart left .moveAssignment k n w fs = some hs) : Moved clears k w fs hs := by
  induction n generalizing w fs hs with
  | zero => cases hr
  | succ n ih =>
    obtain ⟨gs, gs', hb, ho, haft⟩ := runPart_succ_iff.mp hr
    have hbefore := runBefore_ran ha hw h hb
    have hinside := movedInside_of_runOwn ha.pos hw hbefore.hasType (fun _ hcs =>
      ih hw.next (hasType_fields (Way.hasType_child hbefore.hasType)) (hreg.inside hbefore) hcs) ho
    exact moved_of_parts ha hw h hreg hbefore hinside (runAfter_ran ha hw hinside.hasType haft)

/-! ## Copies of a default object -/

/-- The statements that read default values write such values. -/
theorem Ran.defaultFrom (ha : Assigning S left clears .copyAssignment k) (hw : w.Repeats k)
    (h : HasType S (.single (.message (w.message 0))) (.object (w.message 0) fs)) {a b : Nat}
    (hr : Ran left .copyAssignment k w a b fs gs) (hd : w.DefaultFrom k fs) :
    (∀ l, l ≤ k → w.DefaultFrom l fs → w.DefaultFrom l gs) ∧
      ∀ j t v, a ≤ j → j < b → j ≠ w.field 0 → (S (w.message 0)).properties[j]? = some t → w.get 0 j gs = some v →
        IsDefault S t v := by
  have hpart : ∀ j t, a ≤ j → j < b → j ≠ w.field 0 → (S (w.message 0)).properties[j]? = some t →
      ∃ p : FieldPair M, IsDefault S t p.target ∧ IsDefault S t p.source ∧ w.get 0 j gs = some p.target ∧
        w.get k j gs = some p.source := by
    intro j t haj hjb hj ht
    obtain ⟨v, u, p, hv, hu, hp, htarget, hsource⟩ := hr.fields j t haj hjb ht
    have htk : (S (w.message k)).properties[j]? = some t := by rwa [hw.message_zero]
    have hvt := Way.hasType_get h ht hv
    have hut := Way.hasType_get h htk hu
    have hdu := hd k j t u (Nat.le_refl k) (by rwa [hw.field_zero]) htk hu
    have hl := fieldStatement_remains ha.exchanges ha.assignment hvt hut hp
    have hsame := fieldStatement_same hvt hut (regular_of_isDefault hut hdu) hp
    refine ⟨p, (isDefault_congr hsame hl.target hut).mpr hdu, hl.copied rfl hdu, htarget, hsource⟩
  refine ⟨fun l hl hdl s j t v hs hj ht hv => ?_, fun j t v haj hjb hj ht hv => ?_⟩
  · by_cases hat : (s = 0 ∨ s = k) ∧ a ≤ j ∧ j < b
    · obtain ⟨hs0 | hsk, haj, hjb⟩ := hat
      · subst hs0
        obtain ⟨p, htarget, -, hp, -⟩ := hpart j t haj hjb hj ht
        cases hp.symm.trans hv
        exact htarget
      · subst hsk
        rw [hw.field_zero] at hj
        rw [hw.message_zero] at ht
        obtain ⟨p, -, hsource, -, hp⟩ := hpart j t haj hjb hj ht
        cases hp.symm.trans hv
        exact hsource
    · rw [hr.others s j hj fun hs' => by omega] at hv
      exact hdl s j t v hs hj ht hv
  · obtain ⟨p, htarget, -, hp, -⟩ := hpart j t haj hjb hj ht
    cases hp.symm.trans hv
    exact htarget

theorem Way.DefaultFrom.mono {l l' : Nat} (h : w.DefaultFrom l fs) (hl : l ≤ l') : w.DefaultFrom l' fs :=
  fun s j t v hs => h s j t v (hl.trans hs)

/-- The same of the object in the first field. -/
theorem Way.DefaultFrom.inside {l : Nat} (h : w.DefaultFrom (l + 1) fs) :
    w.next.DefaultFrom l ((w.child fs).fields S) :=
  fun s j t v hs => h (s + 1) j t v (Nat.succ_le_succ hs)

/-- The field that the part lies in, after its statement. -/
theorem defaultFrom_of_runOwn (hk : 0 < k) (hw : w.Repeats k)
    (h : HasType S (.single (.message (w.message 0))) (.object (w.message 0) gs))
    {part : Way S → List (Value M) → Option (List (Value M))}
    (hpart : ∀ cs, part w.next ((w.child gs).fields S) = some cs →
      HasType S (.single (.message (w.message 1))) (.object (w.message 1) cs) ∧ w.next.DefaultFrom 0 cs)
    (hr : runOwn k w part gs = some gs') :
    HasType S (.single (.message (w.message 0))) (.object (w.message 0) gs') ∧ w.DefaultFrom 1 gs' ∧
      ∀ j, j ≠ w.field 0 → w.get 0 j gs' = w.get 0 j gs := by
  rcases (runOwn_iff hw h).mp hr with ⟨hs, rfl⟩ | ⟨-, -, cs, hcs, rfl⟩
  · exact ⟨h, Way.defaultFrom_of_same h hw hk hs, fun j _ => rfl⟩
  · obtain ⟨hct, hd⟩ := hpart cs hcs
    refine ⟨h.set (w.property 0) hct, fun s j t v hs hj ht hv => ?_,
      fun j hj => List.getElem?_set_ne fun he => hj he.symm⟩
    obtain ⟨s, rfl⟩ : ∃ s', s = s' + 1 := Nat.exists_eq_succ_of_ne_zero (Nat.ne_of_gt hs)
    rw [Way.get, Way.object_setChild (Way.lt_length h)] at hv
    exact hd s j t v (Nat.zero_le s) hj ht hv

/-- **A copy.** Where the part is a default object, the target becomes one. -/
theorem copied_of_runPart (ha : Assigning S left clears .copyAssignment k) (hw : w.Repeats k)
    (h : HasType S (.single (.message (w.message 0))) (.object (w.message 0) fs)) (hd : w.DefaultFrom k fs)
    {n : Nat} (hr : runPart left .copyAssignment k n w fs = some hs) :
    HasType S (.single (.message (w.message 0))) (.object (w.message 0) hs) ∧ w.DefaultFrom 0 hs := by
  induction n generalizing w fs hs with
  | zero => cases hr
  | succ n ih =>
    obtain ⟨gs, gs', hb, ho, haft⟩ := runPart_succ_iff.mp hr
    have hbefore := runBefore_ran ha hw h hb
    obtain ⟨hdb, hdb0⟩ := hbefore.defaultFrom ha hw h hd
    have hdg := hdb k (Nat.le_refl k) hd
    obtain ⟨ht', hd', hfirst⟩ := defaultFrom_of_runOwn ha.pos hw hbefore.hasType (fun cs hcs =>
      ih hw.next (hasType_fields (Way.hasType_child hbefore.hasType)) (hdg.mono (Nat.le_succ k)).inside hcs) ho
    have hafter := runAfter_ran ha hw ht' haft
    obtain ⟨hda, hda0⟩ := hafter.defaultFrom ha hw ht' (hd'.mono ha.pos)
    refine ⟨hafter.hasType, fun s j t v _ hj ht hv => ?_⟩
    by_cases hs0 : s = 0
    · subst hs0
      by_cases hji : j < w.field 0
      · rw [hafter.others 0 j hj fun _ => by omega, hfirst j hj] at hv
        exact hdb0 j t v (Nat.zero_le j) hji hj ht hv
      · exact hda0 j t v (by omega) (List.getElem?_eq_some_iff.mp ht).1 hj ht hv
    · exact hda 1 ha.pos hd' s j t v (Nat.pos_of_ne_zero hs0) hj ht hv

end

end QtProtobuf.Codec
