import QtProtobuf.L2Codec.DefaultValues

/-!
# What an assignment leaves in the source

A move exchanges numbers with zero and leaves enumerators as they are. A container
that was moved from is empty or holds what the target held, as its type has it.

* `Filled.alike_handed`: what is handed over does not depend on created objects.
* `fieldStatement_remains`: the two values keep the type of the field; where a
  default value is assigned, a copy leaves a default value, and a move what the
  target hands over; whatever is assigned, a move leaves a value that hands over
  something just if the target did.
-/
namespace QtProtobuf.Codec

variable {M : Type} {S : Schema M}

/-! ## Values that compare alike -/

/-- The values have one type, and compare alike with any value of it. -/
structure Alike (S : Schema M) (t : FieldType M) (v u : Value M) : Prop where
  left : HasType S t v
  right : HasType S t u
  same_iff : ∀ x, HasType S t x → (Same S v x ↔ Same S u x)

section
variable {t : FieldType M} {v w u : Value M} {m : M}

theorem Alike.refl (hv : HasType S t v) : Alike S t v v := ⟨hv, hv, fun _ _ => Iff.rfl⟩

theorem Alike.symm (h : Alike S t v u) : Alike S t u v := ⟨h.right, h.left, fun x hx => (h.same_iff x hx).symm⟩

theorem Alike.trans (h : Alike S t v u) (h' : Alike S t u w) : Alike S t v w :=
  ⟨h.left, h'.right, fun x hx => (h.same_iff x hx).trans (h'.same_iff x hx)⟩

theorem Alike.isDefault_iff (h : Alike S t v u) : IsDefault S t v ↔ IsDefault S t u := by
  rw [QtProtobuf.Codec.isDefault_iff h.left, QtProtobuf.Codec.isDefault_iff h.right]
  exact h.same_iff _ (hasType_default t)

theorem IsDefault.same_iff (h : IsDefault S t v) (hv : HasType S t v) (hw : HasType S t w) :
    Same S v w ↔ IsDefault S t w :=
  ⟨fun hs => (isDefault_congr hs hv hw).mp h, fun hd => same_of_isDefault hv hw h hd⟩

theorem IsDefault.alike (h : IsDefault S t v) (hv : HasType S t v) (hu : HasType S t u) (h' : IsDefault S t u) :
    Alike S t v u :=
  ⟨hv, hu, fun _ hx => (h.same_iff hv hx).trans (h'.same_iff hu hx).symm⟩

theorem Filled.alike (hv : HasType S t v) (h : Filled S v u) : Alike S t v u := by
  have hu := Filled.hasType h hv
  refine ⟨hv, hu, fun x hx => ?_⟩
  have hn : u.depth ≤ max u.depth x.depth := Nat.le_max_left _ _
  have hx' : x.depth ≤ max u.depth x.depth := Nat.le_max_right _ _
  rw [← (equalField_tells _ hv hx (h.depth_le.trans hn) hx').1, ← (equalField_tells _ hu hx hn hx').1,
    equalField_filled h .refl hv hx hn hx']

/-- The message and its fields, whether it is set or not. -/
theorem alike_fields (hv : HasType S (.single (.message m)) v) :
    Alike S (.single (.message m)) v (.object m (v.fields S)) := by
  have hf := hasType_fields hv
  exact ⟨hv, hf, fun x hx => (same_fields_iff hv hx).trans (same_fields_iff hf hx).symm⟩

theorem alike_object {fs gs : List (Value M)} (hf : HasType S (.single (.message m)) (.object m fs))
    (hg : HasType S (.single (.message m)) (.object m gs))
    (h : ∀ (i : Nat) t f g, (S m).properties[i]? = some t → fs[i]? = some f → gs[i]? = some g → Alike S t f g) :
    Alike S (.single (.message m)) (.object m fs) (.object m gs) := by
  have hone : ∀ {as bs xs : List (Value M)}, HasType S (.single (.message m)) (.object m as) →
      HasType S (.single (.message m)) (.object m bs) → HasType S (.single (.message m)) (.object m xs) →
      (∀ (i : Nat) t f g, (S m).properties[i]? = some t → as[i]? = some f → bs[i]? = some g → Alike S t f g) →
      Same S (.object m as) (.object m xs) → Same S (.object m bs) (.object m xs) := by
    intro as bs xs ha hb hx halike hs
    cases hx with
    | object _ hlx hxs =>
      have hlb : bs.length = (S m).properties.length := by
        cases hb with
        | object _ hl _ => exact hl
      refine .object (hlb.trans hlx.symm) fun i g x hg hx => ?_
      obtain ⟨t, ht, -⟩ := hb.property hg
      obtain ⟨f, hf, -⟩ := ha.field ht
      exact ((halike i t f g ht hf hg).same_iff x (hxs i t x ht hx)).mp (hs.object_fields hf hx)
  refine ⟨hf, hg, fun x hx => ?_⟩
  have hxf := hasType_fields hx
  refine (same_fields_iff hf hx).trans (Iff.trans ?_ (same_fields_iff hg hx).symm)
  exact ⟨hone hf hg hxf h, hone hg hf hxf fun i t g f ht hgi hfi => (h i t f g ht hfi hgi).symm⟩

end

/-! ## What the target hands over -/

/-- Containers of the types that `clears` has are empty when they were moved from;
the others were exchanged. -/
def Exchanges (S : Schema M) (left : Value M → Value M → Value M) (clears : FieldType M → Bool) : Prop :=
  ∀ t v w, HasType S t v → HasType S t w → left v w = if clears t then t.default else v

mutual
/-- What is left of a default value that was moved to the value. -/
def handed (S : Schema M) (clears : FieldType M → Bool) : FieldType M → Value M → Value M
  | .single (.message _), .object m fs => .object m (handedFields S clears (S m).properties fs)
  | .single (.message _), v => v
  | .single (.scalar (.num t)), _ => (FieldType.single (.scalar (.num t))).default
  | .single (.scalar .bool), _ => (FieldType.single (.scalar .bool)).default
  | .single .enum, _ => (FieldType.single .enum).default
  | t, v => if clears t then t.default else v

def handedFields (S : Schema M) (clears : FieldType M → Bool) :
    List (FieldType M) → List (Value M) → List (Value M)
  | t :: ts, v :: vs => handed S clears t v :: handedFields S clears ts vs
  | _, vs => vs
end

section
variable {clears : FieldType M → Bool} {t : FieldType M} {v w u : Value M} {m : M}

theorem length_handedFields (ts : List (FieldType M)) (vs : List (Value M)) :
    (handedFields S clears ts vs).length = vs.length := by
  induction ts generalizing vs with
  | nil => rw [handedFields]; simp
  | cons t ts ih =>
    cases vs with
    | nil => rw [handedFields]; simp
    | cons v vs => rw [handedFields, List.length_cons, ih, List.length_cons]

theorem getElem?_handedFields {ts : List (FieldType M)} {vs : List (Value M)} {i : Nat} (ht : ts[i]? = some t)
    (hv : vs[i]? = some v) : (handedFields S clears ts vs)[i]? = some (handed S clears t v) := by
  induction ts generalizing vs i with
  | nil => cases ht
  | cons t' ts ih =>
    cases vs with
    | nil => cases hv
    | cons v' vs =>
      rw [handedFields]
      cases i with
      | zero =>
        cases ht
        cases hv
        rfl
      | succ i => exact ih ht hv

/-- A field of the objects is handed over by itself. -/
theorem handed_field {fs : List (Value M)} (hf : HasType S (.single (.message m)) (.object m fs)) {i : Nat}
    (ht : (S m).properties[i]? = some t) (hv : (handedFields S clears (S m).properties fs)[i]? = some v) :
    ∃ f, fs[i]? = some f ∧ v = handed S clears t f := by
  obtain ⟨f, hfi, -⟩ := hf.field ht
  rw [getElem?_handedFields ht hfi] at hv
  exact ⟨f, hfi, (Option.some.inj hv).symm⟩

/-- Numbers, booleans and enumerators. -/
def FieldType.Plain (t : FieldType M) : Prop :=
  (∃ n, t = .single (.scalar (.num n))) ∨ t = .single (.scalar .bool) ∨ t = .single .enum

theorem handed_plain (clears : FieldType M → Bool) (ht : t.Plain) (v : Value M) :
    handed S clears t v = t.default := by
  rcases ht with ⟨n, rfl⟩ | rfl | rfl <;> rw [handed]

theorem handed_container (clears : FieldType M → Bool) (ht : ¬ t.Plain) (hm : ∀ m, t ≠ .single (.message m))
    (v : Value M) : handed S clears t v = if clears t then t.default else v := by
  rw [handed]
  · exact fun m => hm m
  · exact fun n h => ht (.inl ⟨n, h⟩)
  · exact fun h => ht (.inr (.inl h))
  · exact fun h => ht (.inr (.inr h))
  · exact fun m _ _ h => absurd h (hm m)

/-- What is not a message is handed over as it is, or not at all. -/
theorem handed_cases (clears : FieldType M → Bool) (ht : ∀ m, t ≠ .single (.message m)) :
    (∀ v, handed S clears t v = t.default) ∨ ∀ v, handed S clears t v = v := by
  by_cases hp : t.Plain
  · exact .inl (handed_plain clears hp)
  · have h := handed_container (S := S) clears hp ht
    cases hc : clears t with
    | true => exact .inl fun v => by rw [h v, if_pos hc]
    | false => exact .inr fun v => by rw [h v, hc, if_neg nofun]

theorem hasType_handed (clears : FieldType M → Bool) (hv : HasType S t v) : HasType S t (handed S clears t v) := by
  have hproperty : ∀ {t : FieldType M} {v : Value M}, (∀ m, t ≠ .single (.message m)) → HasType S t v →
      HasType S t (handed S clears t v) := by
    intro t v ht hv
    rcases handed_cases (S := S) clears ht with h | h
    · exact (h v).symm ▸ hasType_default t
    · exact (h v).symm ▸ hv
  induction hv with
  | unset m =>
    rw [handed]
    · exact .unset m
    · simp
  | @object m fs hl hfs ih =>
    rw [handed]
    refine .object m ((length_handedFields _ _).trans hl) fun i t v ht hv => ?_
    obtain ⟨f, hf, rfl⟩ := handed_field (.object m hl hfs) ht hv
    exact ih i t f ht hf
  | scalar v => exact hproperty (by simp) (.scalar v)
  | enum v => exact hproperty (by simp) (.enum v)
  | nums t vs => exact hproperty (by simp) (.nums t vs)
  | strings vs => exact hproperty (by simp) (.strings vs)
  | byteArrays vs => exact hproperty (by simp) (.byteArrays vs)
  | enums vs => exact hproperty (by simp) (.enums vs)
  | messages h => exact hproperty (by simp) (.messages h)
  | map hk h => exact hproperty (by simp) (.map hk h)

/-- Of a default value nothing is handed over. -/
theorem IsDefault.handed (hv : HasType S t v) (h : IsDefault S t v) : IsDefault S t (handed S clears t v) := by
  have hproperty : ∀ {t : FieldType M} {v : Value M}, (∀ m, t ≠ .single (.message m)) → IsDefault S t v →
      IsDefault S t (QtProtobuf.Codec.handed S clears t v) := by
    intro t v ht h
    rcases handed_cases (S := S) clears ht with heq | heq
    · exact (heq v).symm ▸ isDefault_default t
    · exact (heq v).symm ▸ h
  induction h with
  | property h =>
    refine hproperty ?_ (.property h)
    rintro m rfl
    cases hv <;> cases h
  | messages m => exact hproperty (by simp) (.messages m)
  | unset m =>
    rw [QtProtobuf.Codec.handed]
    · exact .unset m
    · simp
  | @object m fs _ ih =>
    rw [QtProtobuf.Codec.handed]
    refine .object fun i t v ht hi => ?_
    obtain ⟨f, hf, rfl⟩ := handed_field hv ht hi
    exact ih i t f ht hf (hv.get ht hf)

/-- **Equal values.** Something is handed over from both of them, or from none. -/
theorem isDefault_handed_congr (h : Same S v w) (hv : HasType S t v) (hw : HasType S t w) :
    IsDefault S t (handed S clears t v) ↔ IsDefault S t (handed S clears t w) := by
  have hproperty : ∀ {t : FieldType M} {v w : Value M}, (∀ m, t ≠ .single (.message m)) → Same S v w →
      HasType S t v → HasType S t w →
      (IsDefault S t (handed S clears t v) ↔ IsDefault S t (handed S clears t w)) := by
    intro t v w ht h hv hw
    rcases handed_cases (S := S) clears ht with heq | heq
    · rw [heq v, heq w]
    · rw [heq v, heq w]
      exact isDefault_congr h hv hw
  have hnew : ∀ m, IsDefault S (.single (.message m))
      (handed S clears (.single (.message m)) (.object m (newObject S m))) :=
    fun m => IsDefault.handed (hasType_newObject m) (.object fun i t v => isDefault_newObject)
  have hunset : ∀ m, IsDefault S (.single (.message m)) (handed S clears (.single (.message m)) (.unset m)) :=
    fun m => IsDefault.handed (.unset m) (.unset m)
  induction h generalizing t with
  | leaf h =>
    refine hproperty ?_ (.leaf h) hv hw
    rintro m rfl
    cases hv <;> cases h
  | unset =>
    cases hv
    cases hw
    exact Iff.rfl
  | unset_object _ ih =>
    cases hv
    exact iff_of_true (hunset _) ((ih hw (hasType_newObject _)).mpr (hnew _))
  | object_unset _ ih =>
    cases hw
    exact iff_of_true ((ih hv (hasType_newObject _)).mpr (hnew _)) (hunset _)
  | @object m fs gs hl _ ih =>
    cases hv with
    | object _ hlf hfs =>
      have hfields : ∀ (i : Nat) t, (S m).properties[i]? = some t → ∃ f g, fs[i]? = some f ∧ gs[i]? = some g ∧
          (handedFields S clears (S m).properties fs)[i]? = some (handed S clears t f) ∧
          (handedFields S clears (S m).properties gs)[i]? = some (handed S clears t g) ∧
          (IsDefault S t (handed S clears t f) ↔ IsDefault S t (handed S clears t g)) := by
        intro i t ht
        obtain ⟨f, hf, hft, -⟩ := (HasType.object m hlf hfs).field ht
        obtain ⟨g, hg, hgt, -⟩ := hw.field ht
        exact ⟨f, g, hf, hg, getElem?_handedFields ht hf, getElem?_handedFields ht hg, ih i f g hf hg hft hgt⟩
      rw [handed, handed, isDefault_object, isDefault_object]
      constructor
      · intro h i t v ht hv
        obtain ⟨f, g, -, -, hhf, hhg, hiff⟩ := hfields i t ht
        cases hhg.symm.trans hv
        exact hiff.mp (h i t _ ht hhf)
      · intro h i t v ht hv
        obtain ⟨f, g, -, -, hhf, hhg, hiff⟩ := hfields i t ht
        cases hhf.symm.trans hv
        exact hiff.mpr (h i t _ ht hhg)
  | pointers hp hnull hps =>
    refine hproperty ?_ (.pointers hp hnull hps) hv hw
    rintro m rfl
    cases hv <;> cases hp

theorem Creates.alike_handed (clears : FieldType M → Bool) (hv : HasType S t v) (hc : Creates S v u) :
    Alike S t (handed S clears t v) (handed S clears t u) := by
  have hproperty : ∀ {t : FieldType M} {v u : Value M}, (∀ m, t ≠ .single (.message m)) → HasType S t v →
      Creates S v u → Alike S t (handed S clears t v) (handed S clears t u) := by
    intro t v u ht hv hc
    rcases handed_cases (S := S) clears ht with h | h
    · rw [h v, h u]
      exact .refl (hasType_default t)
    · rw [h v, h u]
      exact Filled.alike hv (.single hc)
  induction hc generalizing t with
  | here m =>
    cases hv
    have hnew := hasType_newObject (S := S) m
    have hd : IsDefault S (.single (.message m)) (.object m (newObject S m)) :=
      .object fun i t v => isDefault_newObject
    exact ((IsDefault.unset m).handed (.unset m)).alike (hasType_handed clears (.unset m))
      (hasType_handed clears hnew) (hd.handed hnew)
  | @field m fs i x y hi hxy ih =>
    have hu := (Creates.field hi hxy).hasType hv
    cases hv with
    | object _ hl hfs =>
      have hf := HasType.object m hl hfs
      rw [handed, handed]
      have hhf := hasType_handed clears hf
      have hhu := hasType_handed clears hu
      rw [handed] at hhf hhu
      refine alike_object hhf hhu fun j t a b ht ha hb => ?_
      obtain ⟨f, hfj, rfl⟩ := handed_field hf ht ha
      obtain ⟨g, hgj, rfl⟩ := handed_field hu ht hb
      by_cases hj : i = j
      · subst hj
        rw [List.getElem?_set_self (List.getElem?_eq_some_iff.mp hi).1] at hgj
        cases hgj
        cases hi.symm.trans hfj
        exact ih (hfs i t x ht hi)
      · rw [List.getElem?_set_ne hj] at hgj
        cases hfj.symm.trans hgj
        exact .refl (hasType_handed clears (hfs j t f ht hfj))
  | element hi hc =>
    cases hv with
    | messages h => exact hproperty (by simp) (.messages h) (.element hi hc)
  | entry hi hc =>
    cases hv with
    | map hk h => exact hproperty (by simp) (.map hk h) (.entry hi hc)

/-- **Created objects.** They do not change what is handed over. -/
theorem Filled.alike_handed (clears : FieldType M → Bool) (hv : HasType S t v) (h : Filled S v u) :
    Alike S t (handed S clears t v) (handed S clears t u) := by
  induction h with
  | refl => exact .refl (hasType_handed clears hv)
  | tail hf hc ih => exact ih.trans (hc.alike_handed clears (Filled.hasType hf hv))

end

/-! ## One statement -/

/-- A field of two objects after its statement. -/
structure Remains (S : Schema M) (clears : FieldType M → Bool) (member : SpecialMember) (t : FieldType M)
    (v w : Value M) (p : FieldPair M) : Prop where
  target : HasType S t p.target
  source : HasType S t p.source
  copied : member.isMove = false → IsDefault S t w → IsDefault S t p.source
  moved : member.isMove = true → IsDefault S t w → Alike S t p.source (handed S clears t v)
  kept : member.isMove = true → (IsDefault S t (handed S clears t p.source) ↔ IsDefault S t (handed S clears t v))

section
variable {left : Value M → Value M → Value M} {clears : FieldType M → Bool} {n : Nat} {t : FieldType M}
  {v w : Value M}

theorem copyAssignment_template (ht : ∀ m, t ≠ .single (.message m)) :
    SpecialMember.copyAssignment.template t = .copyField := by
  cases t with
  | single t =>
    cases t with
    | message m => exact absurd rfl (ht m)
    | _ => rfl
  | _ => rfl

theorem moveAssignment_template (ht : ∀ m, t ≠ .single (.message m)) :
    t.Plain ∧ (SpecialMember.moveAssignment.template t = .enumMoveField ∧ t = .single .enum ∨
        SpecialMember.moveAssignment.template t = .moveField) ∨
      ¬ t.Plain ∧ SpecialMember.moveAssignment.template t = .moveComplexField := by
  cases t with
  | single t =>
    cases t with
    | scalar t =>
      cases t with
      | num n => exact .inl ⟨.inl ⟨n, rfl⟩, .inr rfl⟩
      | bool => exact .inl ⟨.inr (.inl rfl), .inr rfl⟩
      | _ => exact .inr ⟨by simp [FieldType.Plain], rfl⟩
    | enum => exact .inl ⟨.inr (.inr rfl), .inl ⟨rfl, rfl⟩⟩
    | message m => exact absurd rfl (ht m)
  | _ => exact .inr ⟨by simp [FieldType.Plain], rfl⟩

/-- A field that is not a message. -/
theorem property_remains (hleft : Exchanges S left clears)
    (objects : M → List (Value M) → List (Value M) → Option (Compared (List (Value M))))
    (assign : SpecialMember → M → Bool → List (Value M) → List (Value M) →
      Option (List (Value M) × List (Value M)))
    {member : SpecialMember} (hm : member = .copyAssignment ∨ member = .moveAssignment)
    (ht : ∀ m, t ≠ .single (.message m)) (hv : HasType S t v) (hw : HasType S t w) {p : FieldPair M}
    (hp : (member.template t).run S objects assign left t ⟨false, v, w⟩ = some p) :
    Remains S clears member t v w p := by
  have hhanded := hasType_handed clears hv
  rcases hm with rfl | rfl
  · rw [copyAssignment_template ht] at hp
    cases hp
    exact ⟨hv.write hw, hw, fun _ h => h, nofun, nofun⟩
  · rcases moveAssignment_template ht with ⟨hplain, ⟨htem, -⟩ | htem⟩ | ⟨hplain, htem⟩
    · rw [htem] at hp
      cases hp
      refine ⟨hw, hw, nofun, fun _ hd => hd.alike hw hhanded ?_, fun _ => ?_⟩
      · exact (handed_plain clears hplain v).symm ▸ isDefault_default t
      · rw [handed_plain clears hplain, handed_plain clears hplain]
    · rw [htem] at hp
      cases hp
      refine ⟨hv.write hw, hasType_default t, nofun, fun _ _ => ?_, fun _ => ?_⟩
      · rw [handed_plain clears hplain v]
        exact .refl (hasType_default t)
      · rw [handed_plain clears hplain, handed_plain clears hplain]
    · rw [htem, FieldTemplate.run] at hp
      by_cases hs : (false || v.same w) = true
      · rw [if_pos hs] at hp
        cases hp
        have hsame : Same S v w := .leaf hs
        refine ⟨hv, hw, nofun, fun _ hd => hd.alike hw hhanded (IsDefault.handed hv ?_),
          fun _ => (isDefault_handed_congr hsame hv hw).symm⟩
        exact hd.of_same (Value.same_symm hs)
      · rw [if_neg hs] at hp
        cases hp
        have hl : left v w = handed S clears t v := by
          rw [handed_container clears hplain ht]
          exact hleft t v w hv hw
        have hsource : HasType S t (left v w) := hl.symm ▸ hhanded
        refine ⟨hw, hsource, nofun, fun _ _ => ?_, fun _ => ?_⟩
        · show Alike S t (left v w) _
          rw [hl]
          exact .refl hhanded
        · show IsDefault S t (handed S clears t (left v w)) ↔ _
          rw [hl]
          rcases handed_cases (S := S) clears ht with heq | heq
          · rw [heq, heq]
          · rw [heq, heq]

/-- What is proved of the assignment of objects by induction. -/
def ObjectsRemain (S : Schema M) (left : Value M → Value M → Value M) (clears : FieldType M → Bool)
    (n : Nat) : Prop :=
  ∀ (member : SpecialMember) (m : M) (fs gs rs ss : List (Value M)),
    member = .copyAssignment ∨ member = .moveAssignment →
    HasType S (.single (.message m)) (.object m fs) → HasType S (.single (.message m)) (.object m gs) →
    (Value.object m fs).depth ≤ n → (Value.object m gs).depth ≤ n →
    runMember S left n member m false fs gs = some (rs, ss) →
    Remains S clears member (.single (.message m)) (.object m fs) (.object m gs)
      ⟨false, .object m rs, .object m ss⟩

/-- A message field: the objects are compared, and assigned if they differ. -/
theorem message_remains (hobjects : ObjectsRemain S left clears n) {member : SpecialMember}
    (hm : member = .copyAssignment ∨ member = .moveAssignment) {m : M} (hv : HasType S (.single (.message m)) v)
    (hw : HasType S (.single (.message m)) w) (hn : v.depth ≤ n) (hn' : w.depth ≤ n) {p : FieldPair M}
    (hp : assignMessage S (compareObjects S n) (runMember S left n) member m ⟨false, v, w⟩ = some p) :
    Remains S clears member (.single (.message m)) v w p := by
  have hlazy := compareLazy_gives (compareObjects_gives n) hv hw hn hn'
  rw [assignMessage] at hp
  cases hc : compareLazy S (compareObjects S n) m v w with
  | none =>
    rw [hc] at hp
    cases hp
  | some r =>
    obtain ⟨equal, v₁, w₁⟩ := r
    rw [hc] at hlazy hp
    obtain ⟨hanswer, ⟨hfv, hdv⟩, ⟨hfw, hdw⟩⟩ := hlazy
    have hv₁ := Filled.hasType hfv hv
    have hw₁ := Filled.hasType hfw hw
    cases equal with
    | true =>
      cases hp
      have hd₁ : IsDefault S (.single (.message m)) w → IsDefault S (.single (.message m)) w₁ :=
        (Filled.alike hw hfw).isDefault_iff.mp
      have hsame : Same S v w := (equalField_tells n hv hw hn hn').1.mp hanswer
      refine ⟨hv₁, hw₁, fun _ => hd₁,
        fun _ hd => (hd₁ hd).alike hw₁ (hasType_handed clears hv) (IsDefault.handed hv ?_), fun _ => ?_⟩
      · exact (isDefault_congr hsame hv hw).mpr hd
      · exact (Filled.alike_handed clears hw hfw).isDefault_iff.symm.trans (isDefault_handed_congr hsame hv hw).symm
    | false =>
      have hrun : (runMember S left n member m false (v₁.fields S) (w₁.fields S)).bind (fun r =>
          some ⟨false, .object m r.1, .object m r.2⟩) = some p := hp
      obtain ⟨⟨rs, ss⟩, hr, heq⟩ := Option.bind_eq_some_iff.mp hrun
      cases heq
      have hpos : 0 < n := by
        cases n with
        | zero => cases hr
        | succ n => exact Nat.succ_pos n
      have h := hobjects member m _ _ rs ss hm (hasType_fields hv₁) (hasType_fields hw₁)
        (grown_fields hv₁ hdv hpos).2 (grown_fields hw₁ hdw hpos).2 hr
      have hd₁ : IsDefault S (.single (.message m)) w →
          IsDefault S (.single (.message m)) (.object m (w₁.fields S)) := fun hd =>
        (alike_fields hw₁).isDefault_iff.mp ((Filled.alike hw hfw).isDefault_iff.mp hd)
      have hfilled := (show Filled S v v₁ from hfv).trans (grown_fields hv₁ hdv hpos).1
      have hhanded := Filled.alike_handed clears hv hfilled
      refine ⟨h.target, h.source, fun hcopy hd => h.copied hcopy (hd₁ hd), fun hmove hd => ?_, fun hmove => ?_⟩
      · exact (h.moved hmove (hd₁ hd)).trans hhanded.symm
      · exact (h.kept hmove).trans hhanded.isDefault_iff.symm

theorem field_remains (hleft : Exchanges S left clears) (hobjects : ObjectsRemain S left clears n)
    {member : SpecialMember} (hm : member = .copyAssignment ∨ member = .moveAssignment) (hv : HasType S t v)
    (hw : HasType S t w) (hn : v.depth ≤ n) (hn' : w.depth ≤ n) {p : FieldPair M}
    (hp : (member.template t).run S (compareObjects S n) (runMember S left n) left t ⟨false, v, w⟩ = some p) :
    Remains S clears member t v w p := by
  by_cases ht : ∃ m, t = .single (.message m)
  · obtain ⟨m, rfl⟩ := ht
    rcases hm with rfl | rfl
    · exact message_remains hobjects (.inl rfl) hv hw hn hn' hp
    · exact message_remains hobjects (.inr rfl) hv hw hn hn' hp
  · exact property_remains hleft _ _ hm (fun m hm => ht ⟨m, hm⟩) hv hw hp

/-- **An object.** Its fields, one after the other. -/
theorem runMember_remains (hleft : Exchanges S left clears) (n : Nat) : ObjectsRemain S left clears n := by
  induction n with
  | zero =>
    intro member m fs gs rs ss _ _ _ _ _ h
    cases h
  | succ n ih =>
    intro member m fs gs rs ss hm hf hg hn hn' h
    rw [depth_object, Nat.succ_le_succ_iff, depths_le] at hn hn'
    obtain ⟨hlr, hls, hall⟩ := runFields_some h
    have hfield : ∀ (i : Nat) t f g, (S m).properties[i]? = some t → fs[i]? = some f → gs[i]? = some g →
        ∃ p, rs[i]? = some p.target ∧ ss[i]? = some p.source ∧ Remains S clears member t f g p := by
      intro i t f g ht hfi hgi
      obtain ⟨p, hp, hpr, hps⟩ := hall i t f g ht hfi hgi
      exact ⟨p, hpr, hps, field_remains hleft ih hm (hf.get ht hfi) (hg.get ht hgi)
        (hn f (List.mem_of_getElem? hfi)) (hn' g (List.mem_of_getElem? hgi)) hp⟩
    cases hf with
    | object _ hlf hfs =>
      cases hg with
      | object _ hlg hgs =>
        have hget : ∀ {i : Nat} {t : FieldType M}, (S m).properties[i]? = some t →
            ∃ f g p, fs[i]? = some f ∧ gs[i]? = some g ∧ rs[i]? = some p.target ∧ ss[i]? = some p.source ∧
              Remains S clears member t f g p := by
          intro i t ht
          obtain ⟨hlt, -⟩ := List.getElem?_eq_some_iff.mp ht
          have hfi : fs[i]? = some fs[i] := List.getElem?_eq_getElem (hlf ▸ hlt)
          have hgi : gs[i]? = some gs[i] := List.getElem?_eq_getElem (hlg ▸ hlt)
          obtain ⟨p, hp⟩ := hfield i t _ _ ht hfi hgi
          exact ⟨_, _, p, hfi, hgi, hp⟩
        have hss : HasType S (.single (.message m)) (.object m ss) := by
          refine .object m (hls.trans hlg) fun i t r ht hr => ?_
          obtain ⟨f, g, p, -, -, -, hps, hl⟩ := hget ht
          cases hr.symm.trans hps
          exact hl.source
        refine ⟨.object m (hlr.trans hlf) fun i t r ht hr => ?_,
          hss, fun hcopy hd => .object fun i t r ht hr => ?_, fun hmove hd => ?_, fun hmove => ?_⟩
        · obtain ⟨f, g, p, -, -, hpr, -, hl⟩ := hget ht
          cases hr.symm.trans hpr
          exact hl.target
        · obtain ⟨f, g, p, hfi, hgi, -, hps, hl⟩ := hget ht
          cases hr.symm.trans hps
          exact hl.copied hcopy (isDefault_object.mp hd i t g ht hgi)
        · have hf := HasType.object m hlf hfs
          have hhanded := hasType_handed clears hf
          rw [handed] at hhanded ⊢
          refine alike_object hss hhanded fun i t r u ht hr hu => ?_
          obtain ⟨f, g, p, hfi, hgi, -, hps, hl⟩ := hget ht
          cases hr.symm.trans hps
          obtain ⟨f', hf', rfl⟩ := handed_field hf ht hu
          cases hfi.symm.trans hf'
          exact hl.moved hmove (isDefault_object.mp hd i t g ht hgi)
        · rw [handed, handed, isDefault_object, isDefault_object]
          constructor
          · intro h i t v ht hv
            obtain ⟨f, g, p, hfi, -, -, hps, hl⟩ := hget ht
            cases (getElem?_handedFields ht hfi).symm.trans hv
            exact (hl.kept hmove).mp (h i t _ ht (getElem?_handedFields ht hps))
          · intro h i t v ht hv
            obtain ⟨f, g, p, hfi, -, -, hps, hl⟩ := hget ht
            cases (getElem?_handedFields ht hps).symm.trans hv
            exact (hl.kept hmove).mpr (h i t _ ht (getElem?_handedFields ht hfi))

end

/-! ## The statement of a field -/

/-- The statement of a field of two objects, with objects inside one another as
they are in its values. -/
def fieldStatement (left : Value M → Value M → Value M) (member : SpecialMember) (S : Schema M) (t : FieldType M)
    (v w : Value M) : Option (FieldPair M) :=
  let n := max v.depth w.depth
  (member.template t).run S (compareObjects S n) (runMember S left n) left t ⟨false, v, w⟩

section
variable {left : Value M → Value M → Value M} {clears : FieldType M → Bool} {member : SpecialMember}
  {t : FieldType M} {v w : Value M}

theorem fieldStatement_remains (hleft : Exchanges S left clears)
    (hm : member = .copyAssignment ∨ member = .moveAssignment) (hv : HasType S t v) (hw : HasType S t w)
    {p : FieldPair M} (hp : fieldStatement left member S t v w = some p) : Remains S clears member t v w p :=
  field_remains hleft (runMember_remains hleft _) hm hv hw (Nat.le_max_left _ _) (Nat.le_max_right _ _) hp

/-- It is completed where no comparison meets a null pointer. -/
theorem exists_fieldStatement (hv : HasType S t v) (hw : HasType S t w) (hreg : Regular w) (h : ¬ MeetsNull S v w) :
    ∃ p, fieldStatement left member S t v w = some p := by
  have harrives := runField_arrives (runMember_arrives S left (max v.depth w.depth)) member hv hw hreg
    ⟨.refl, Nat.le_max_left _ _⟩ ⟨.refl, Nat.le_max_right _ _⟩
  unfold fieldStatement
  revert harrives
  cases (member.template t).run S _ _ left t _ with
  | none => exact fun hnull => absurd hnull h
  | some p => exact fun _ => ⟨p, rfl⟩

theorem not_meetsNull_of_fieldStatement (hv : HasType S t v) (hw : HasType S t w) (hreg : Regular w)
    {p : FieldPair M} (hp : fieldStatement left member S t v w = some p) : ¬ MeetsNull S v w := by
  have harrives := runField_arrives (runMember_arrives S left (max v.depth w.depth)) member hv hw hreg
    ⟨.refl, Nat.le_max_left _ _⟩ ⟨.refl, Nat.le_max_right _ _⟩
  unfold fieldStatement at hp
  rw [hp] at harrives
  exact harrives.1

/-- The target has the value of the source. -/
theorem fieldStatement_same (hv : HasType S t v) (hw : HasType S t w) (hreg : Regular w) {p : FieldPair M}
    (hp : fieldStatement left member S t v w = some p) : Same S p.target w := by
  have harrives := runField_arrives (runMember_arrives S left (max v.depth w.depth)) member hv hw hreg
    ⟨.refl, Nat.le_max_left _ _⟩ ⟨.refl, Nat.le_max_right _ _⟩
  unfold fieldStatement at hp
  rw [hp] at harrives
  obtain ⟨-, hc⟩ := harrives
  exact (equalField_tells _ hc.hasType hw hc.depth (Nat.le_max_right _ _)).1.mp hc.equal

end

end QtProtobuf.Codec
