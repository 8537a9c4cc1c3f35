import QtProtobuf.L2Codec.PartMoves

/-!
# Assignments of a part come to an end

Each assignment leads to one of the next field down the way, as long as the field
and its part differ. A move hands what the fields before the way held in the
target down to the part, and from there to its part, until nothing is left of it.

* `exists_runPart`: a move is completed if the assignments inside one another end
  at a field that is equal to its part.
* `exists_copy`: the copy of a default object is completed.
* `descends_iff`: the assignments end if no comparison meets a null pointer and
  nothing is handed down.
-/
namespace QtProtobuf.Codec

variable {M : Type} {S : Schema M}

section
variable {left : Value M → Value M → Value M} {clears : FieldType M → Bool} {k : Nat} {w : Way S}
  {fs gs gs' hs : List (Value M)}

/-! ## Completed assignments -/

/-- The statements after the way are completed, where they read default values. -/
theorem exists_runAfter {member : SpecialMember} (ha : Assigning S left clears member k) (hw : w.Repeats k)
    (h : HasType S (.single (.message (w.message 0))) (.object (w.message 0) fs))
    (hd : ∀ j t u, w.field 0 < j → (S (w.message 0)).properties[j]? = some t → w.get k j fs = some u →
      IsDefault S t u) : ∃ gs, runAfter left member k w fs = some gs := by
  refine exists_runRest ha hw w.beside_drop h fun i t v u hi _ ht hv hu => ?_
  have hut := Way.hasType_get h (by rwa [hw.message_zero]) hu
  have hdu := hd i t u hi ht hu
  exact exists_fieldStatement (Way.hasType_get h ht hv) hut (regular_of_isDefault hut hdu)
    (not_meetsNull_of_isDefault hut hdu)

/-- The statements before the way are completed, where no comparison meets a null
pointer. -/
theorem exists_runBefore {member : SpecialMember} (ha : Assigning S left clears member k) (hw : w.Repeats k)
    (h : HasType S (.single (.message (w.message 0))) (.object (w.message 0) fs)) (hreg : w.RegularFrom k fs)
    (hn : ∀ {j : Nat} {v u : Value M}, j < w.field 0 → w.get 0 j fs = some v → w.get k j fs = some u →
      ¬ MeetsNull S v u) : ∃ gs, runBefore left member k w fs = some gs := by
  refine exists_runRest ha hw w.beside_take h fun i t v u _ hi ht hv hu => ?_
  rw [Nat.zero_add, List.length_take] at hi
  have hut := Way.hasType_get h (by rwa [hw.message_zero]) hu
  exact exists_fieldStatement (Way.hasType_get h ht hv) hut
    (hreg k i u (Nat.le_refl k) (by rw [hw.field_zero]; omega) hu) (hn (by omega) hv hu)

/-- The assignments inside one another: the statements before the way are
completed, and the comparison of the field with the part's, as far as a field that
is equal to the part's. -/
inductive Descends (left : Value M → Value M → Value M) (member : SpecialMember) (k : Nat) :
    Way S → List (Value M) → Prop
  | equal {w : Way S} {fs gs : List (Value M)} (h : runBefore left member k w fs = some gs)
    (hs : Same S (w.child gs) (w.other k gs)) : Descends left member k w fs
  | inside {w : Way S} {fs gs : List (Value M)} (h : runBefore left member k w fs = some gs)
    (hs : ¬ Same S (w.child gs) (w.other k gs)) (hn : ¬ Null S (w.child gs) (w.other k gs))
    (hd : Descends left member k w.next ((w.child gs).fields S)) : Descends left member k w fs

theorem descends_of_runPart {member : SpecialMember} (ha : Assigning S left clears member k) (hw : w.Repeats k)
    (h : HasType S (.single (.message (w.message 0))) (.object (w.message 0) fs)) {n : Nat}
    (hr : runPart left member k n w fs = some hs) : Descends left member k w fs := by
  induction n generalizing w fs hs with
  | zero => cases hr
  | succ n ih =>
    obtain ⟨gs, gs', hb, ho, -⟩ := runPart_succ_iff.mp hr
    have hg := (runBefore_ran ha hw h hb).hasType
    rcases (runOwn_iff hw hg).mp ho with ⟨hs, -⟩ | ⟨hs, hn, cs, hcs, -⟩
    · exact .equal hb hs
    · exact .inside hb hs hn (ih hw.next (hasType_fields (Way.hasType_child hg)) hcs)

theorem movedInside_of_runPart (ha : Assigning S left clears .moveAssignment k) (hw : w.Repeats k)
    (hreg : w.RegularFrom k fs) (hbefore : Ran left .moveAssignment k w 0 (w.field 0) fs gs) {n : Nat}
    (ho : runOwn k w (runPart left .moveAssignment k n) gs = some gs') : MovedInside clears k w gs gs' :=
  movedInside_of_runOwn ha.pos hw hbefore.hasType (fun _ hcs =>
    moved_of_runPart ha hw.next (hasType_fields (Way.hasType_child hbefore.hasType)) (hreg.inside hbefore) hcs) ho

/-- **The way back.** The statements after the way read default values. -/
theorem exists_runPart (ha : Assigning S left clears .moveAssignment k) (hw : w.Repeats k)
    (h : HasType S (.single (.message (w.message 0))) (.object (w.message 0) fs)) (hreg : w.RegularFrom k fs)
    (hd : Descends left .moveAssignment k w fs) : ∃ n hs, runPart left .moveAssignment k n w fs = some hs := by
  have hdone : ∀ {w : Way S} {fs gs gs' : List (Value M)} {n : Nat}, w.Repeats k → w.RegularFrom k fs →
      HasType S (.single (.message (w.message 0))) (.object (w.message 0) fs) →
      runBefore left .moveAssignment k w fs = some gs →
      runOwn k w (runPart left .moveAssignment k n) gs = some gs' →
      ∃ n hs, runPart left .moveAssignment k n w fs = some hs := by
    intro w fs gs gs' n hw hreg h hb ho
    have hinside := movedInside_of_runPart ha hw hreg (runBefore_ran ha hw h hb) ho
    obtain ⟨hs, haft⟩ := exists_runAfter ha hw hinside.hasType fun j t u hj ht hu =>
      hinside.isDefault_part ha.pos hw hj ht hu
    exact ⟨n + 1, hs, runPart_succ_iff.mpr ⟨gs, gs', hb, ho, haft⟩⟩
  induction hd with
  | @equal w fs gs hb hs =>
    have hg := (runBefore_ran ha hw h hb).hasType
    have ho : runOwn k w (runPart left .moveAssignment k 0) gs = some gs := (runOwn_iff hw hg).mpr (.inl ⟨hs, rfl⟩)
    exact hdone hw hreg h hb ho
  | @inside w fs gs hb hs hn _ ih =>
    have hbefore := runBefore_ran ha hw h hb
    obtain ⟨n, cs, hcs⟩ := ih hw.next (hasType_fields (Way.hasType_child hbefore.hasType)) (hreg.inside hbefore)
    exact hdone hw hreg h hb ((runOwn_iff hw hbefore.hasType).mpr (.inr ⟨hs, hn, cs, hcs, rfl⟩))

theorem Way.DefaultFrom.other (hw : w.Repeats k)
    (h : HasType S (.single (.message (w.message 0))) (.object (w.message 0) fs)) (hd : w.DefaultFrom k fs) :
    IsDefault S (.single (.message (w.message 1))) (w.other k fs) := by
  have hpart := hw.hasType_object h
  exact isDefault_object.mp ((hw.defaultFrom_iff h).mp hd) _ _ _ (w.property 0) (Way.getElem?_child hpart)

/-- A copy of a default object comes to its end: it is not further down than the
first default object. -/
theorem exists_copy (ha : Assigning S left clears .copyAssignment k) (hw : w.Repeats k)
    (h : HasType S (.single (.message (w.message 0))) (.object (w.message 0) fs)) {l : Nat} (hl : l ≤ k)
    (hd : w.DefaultFrom l fs) : ∃ n hs, runPart left .copyAssignment k n w fs = some hs := by
  induction l using Nat.strongRecOn generalizing w fs with
  | ind l ih =>
    have hdk := hd.mono hl
    obtain ⟨gs, hb⟩ : ∃ gs, runBefore left .copyAssignment k w fs = some gs := by
      refine exists_runRest ha hw w.beside_take h fun i t v u _ hi ht hv hu => ?_
      rw [Nat.zero_add, List.length_take] at hi
      have htk : (S (w.message k)).properties[i]? = some t := by rwa [hw.message_zero]
      have hut := Way.hasType_get h htk hu
      have hdu := hdk k i t u (Nat.le_refl k) (by rw [hw.field_zero]; omega) htk hu
      exact exists_fieldStatement (Way.hasType_get h ht hv) hut (regular_of_isDefault hut hdu)
        (not_meetsNull_of_isDefault hut hdu)
    have hbefore := runBefore_ran ha hw h hb
    have hg := hbefore.hasType
    have hdb := (hbefore.defaultFrom ha hw h hdk).1
    have hdg := hdb k (Nat.le_refl k) hdk
    have hc := Way.hasType_child hg
    have ho := Way.hasType_other hw hg
    have hod := hdg.other hw hg
    obtain ⟨n, gs', hown⟩ : ∃ n gs', runOwn k w (runPart left .copyAssignment k n) gs = some gs' := by
      by_cases hs : Same S (w.child gs) (w.other k gs)
      · exact ⟨0, gs, (runOwn_iff hw hg).mpr (.inl ⟨hs, rfl⟩)⟩
      · cases l with
        | zero =>
          have hcd := isDefault_object.mp ((Way.defaultFrom_zero_iff hg).mp (hdb 0 hl hd)) _ _ _ (w.property 0)
            (Way.getElem?_child hg)
          exact absurd (same_of_isDefault hc ho hcd hod) hs
        | succ l =>
          obtain ⟨n, cs, hcs⟩ := ih l (Nat.lt_succ_self l) hw.next (hasType_fields hc) (Nat.le_of_succ_le hl)
            (hdb (l + 1) hl hd).inside
          exact ⟨n, _, (runOwn_iff hw hg).mpr (.inr ⟨hs, not_null_of_isDefault ho hod, cs, hcs, rfl⟩)⟩
    have hinside := defaultFrom_of_runOwn ha.pos hw hg (fun _ hcs =>
      copied_of_runPart ha hw.next (hasType_fields hc) (hdg.mono (Nat.le_succ k)).inside hcs) hown
    obtain ⟨hs, haft⟩ := exists_runAfter ha hw hinside.1 fun j t u hj ht hu =>
      hinside.2.1 k j t u ha.pos (by rw [hw.field_zero]; omega) (by rwa [hw.message_zero]) hu
    exact ⟨n + 1, hs, runPart_succ_iff.mpr ⟨gs, gs', hb, hown, haft⟩⟩

end

/-! ## The end of the descent -/

/-- A comparison on the way down comes to a null pointer: in a field before the way,
in the field on the way with the part's, or further down if these two differ. -/
inductive PartMeetsNull (left : Value M → Value M → Value M) (member : SpecialMember) (k : Nat) :
    Way S → List (Value M) → Prop
  | before {w : Way S} {fs : List (Value M)} {j : Nat} {v u : Value M} (hj : j < w.field 0)
    (hv : w.get 0 j fs = some v) (hu : w.get k j fs = some u) (h : MeetsNull S v u) : PartMeetsNull left member k w fs
  | here {w : Way S} {fs gs : List (Value M)} (h : runBefore left member k w fs = some gs)
    (hn : Null S (w.child gs) (w.other k gs)) : PartMeetsNull left member k w fs
  | inside {w : Way S} {fs gs : List (Value M)} (h : runBefore left member k w fs = some gs)
    (hs : ¬ Same S (w.child gs) (w.other k gs)) (hd : PartMeetsNull left member k w.next ((w.child gs).fields S)) :
    PartMeetsNull left member k w fs

/-- The fields before the way, of the target and of the objects in it that the part
lies in, hand over nothing. -/
def Way.HandsNothing (w : Way S) (clears : FieldType M → Bool) (k : Nat) (fs : List (Value M)) : Prop :=
  ∀ s j t v, s < k → j < w.field s → (S (w.message s)).properties[j]? = some t → w.get s j fs = some v →
    IsDefault S t (handed S clears t v)

section
variable {left : Value M → Value M → Value M} {clears : FieldType M → Bool} {k : Nat} {w : Way S}
  {fs gs : List (Value M)}

/-- What the statements before the way leave in the target and in the part. -/
theorem Ran.source_of_before (ha : Assigning S left clears .moveAssignment k) (hw : w.Repeats k)
    (h : HasType S (.single (.message (w.message 0))) (.object (w.message 0) fs))
    (hr : Ran left .moveAssignment k w 0 (w.field 0) fs gs) {j : Nat} {t : FieldType M} (hj : j < w.field 0)
    (ht : (S (w.message 0)).properties[j]? = some t) : ∃ v u p, w.get 0 j fs = some v ∧ w.get k j fs = some u ∧
      HasType S t u ∧ fieldStatement left .moveAssignment S t v u = some p ∧ w.get 0 j gs = some p.target ∧
      w.get k j gs = some p.source ∧ Remains S clears .moveAssignment t v u p := by
  obtain ⟨v, u, p, hv, hu, hp, htarget, hsource⟩ := hr.fields j t (Nat.zero_le j) hj ht
  have htk : (S (w.message k)).properties[j]? = some t := by rwa [hw.message_zero]
  have hut := Way.hasType_get h htk hu
  exact ⟨v, u, p, hv, hu, hut, hp, htarget, hsource,
    fieldStatement_remains ha.exchanges ha.assignment (Way.hasType_get h ht hv) hut hp⟩

/-- One step down: what the target has handed over, the part hands over. -/
theorem Way.handsNothing_next (ha : Assigning S left clears .moveAssignment k) (hw : w.Repeats k)
    (h : HasType S (.single (.message (w.message 0))) (.object (w.message 0) fs))
    (hr : Ran left .moveAssignment k w 0 (w.field 0) fs gs) :
    w.next.HandsNothing clears k ((w.child gs).fields S) ↔ w.HandsNothing clears k fs := by
  have hothers : ∀ s j, s ≠ 0 → s ≠ k → j < w.field s → w.get s j gs = w.get s j fs := fun s j hs hsk hj =>
    hr.others s j (Nat.ne_of_lt hj) fun hs' => hs'.elim (absurd · hs) (absurd · hsk)
  constructor
  · intro hnext s j t v hs hj ht hv
    by_cases hs0 : s = 0
    · subst hs0
      obtain ⟨v', u, p, hv', -, -, -, -, hsource, hp⟩ := hr.source_of_before ha hw h hj ht
      cases hv'.symm.trans hv
      obtain ⟨k, rfl⟩ := Nat.exists_eq_succ_of_ne_zero (Nat.ne_of_gt hs)
      refine (hp.kept rfl).mp (hnext k j t p.source (Nat.lt_succ_self k) ?_ ?_ hsource)
      · exact hw.field_zero ▸ hj
      · exact hw.message_zero ▸ ht
    · rw [← hothers s j hs0 (Nat.ne_of_lt hs) hj] at hv
      obtain ⟨s, rfl⟩ := Nat.exists_eq_succ_of_ne_zero hs0
      exact hnext s j t v (Nat.lt_of_succ_lt hs) hj ht hv
  · intro hands s j t v hs hj ht hv
    have hj' : j < w.field (s + 1) := hj
    have ht' : (S (w.message (s + 1))).properties[j]? = some t := ht
    have hv' : w.get (s + 1) j gs = some v := hv
    by_cases hsk : s + 1 = k
    · subst hsk
      rw [hw.field_zero] at hj'
      rw [hw.message_zero] at ht'
      obtain ⟨v', u, p, hv₀, -, -, -, -, hsource, hp⟩ := hr.source_of_before ha hw h hj' ht'
      cases hsource.symm.trans hv'
      exact (hp.kept rfl).mpr (hands 0 j t v' (Nat.succ_pos s) hj' ht' hv₀)
    · rw [hothers (s + 1) j (Nat.succ_ne_zero s) hsk hj'] at hv'
      exact hands (s + 1) j t v (by omega) hj' ht' hv'

/-- Default values below stay so, as nothing is handed over to them. -/
theorem Ran.defaultFrom_of_handsNothing (ha : Assigning S left clears .moveAssignment k) (hw : w.Repeats k)
    (h : HasType S (.single (.message (w.message 0))) (.object (w.message 0) fs))
    (hr : Ran left .moveAssignment k w 0 (w.field 0) fs gs) (hands : w.HandsNothing clears k fs) {l : Nat}
    (hd : w.DefaultFrom l fs) : w.DefaultFrom l gs := by
  intro s j t v hs hj ht hv
  by_cases hat : (s = 0 ∨ s = k) ∧ j < w.field 0
  · have ht₀ : (S (w.message 0)).properties[j]? = some t := by
      rcases hat.1 with rfl | rfl
      · exact ht
      · rwa [← hw.message_zero]
    obtain ⟨x, u, p, hx, hu, hut, hp, htarget, hsource, hl⟩ := hr.source_of_before ha hw h hat.2 ht₀
    have htk : (S (w.message k)).properties[j]? = some t := by rwa [hw.message_zero]
    have hdu : IsDefault S t u :=
      hd k j t u (by omega) (by rw [hw.field_zero]; omega) htk hu
    rcases hat.1 with rfl | rfl
    · cases htarget.symm.trans hv
      exact (isDefault_congr (fieldStatement_same (Way.hasType_get h ht₀ hx) hut (regular_of_isDefault hut hdu) hp)
        hl.target hut).mpr hdu
    · cases hsource.symm.trans hv
      exact (hl.moved rfl hdu).isDefault_iff.mpr (hands 0 j t x ha.pos hat.2 ht₀ hx)
  · rw [hr.others s j hj fun hs' => by omega] at hv
    exact hd s j t v hs hj ht hv

theorem comparedPointers_single {v u : Value M} {s : SingleType M} (hu : HasType S (.single s) u) :
    comparedPointers v u = none := by
  unfold comparedPointers
  split
  · cases hu
  · cases hu
  · rfl

/-- Where every field is singular, there are no pointers to look up. -/
theorem not_null_of_single (hS : ∀ m t, t ∈ (S m).properties → ∃ s, t = .single s) {v u : Value M} {s : SingleType M}
    (hu : HasType S (.single s) u) : ¬ Null S v u := by
  intro h
  induction h generalizing s with
  | object _ _ hw _ ih =>
    cases hu with
    | object _ hl hgs =>
      obtain ⟨t, ht, hwt⟩ := (HasType.object _ hl hgs).property hw
      obtain ⟨s, rfl⟩ := hS _ t (List.mem_of_getElem? ht)
      exact ih hwt
  | pointer hp => cases (comparedPointers_single hu).symm.trans hp
  | pointee hp => cases (comparedPointers_single hu).symm.trans hp

theorem not_meetsNull_of_single (hS : ∀ m t, t ∈ (S m).properties → ∃ s, t = .single s) {v u : Value M}
    {s : SingleType M} (hu : HasType S (.single s) u) : ¬ MeetsNull S v u := by
  intro h
  induction h generalizing s with
  | here _ hn => exact not_null_of_single hS hu hn
  | @inside v w m i b hm _ hb _ ih =>
    have hm' : s = .message m := by
      cases hu <;> cases hm
      · rfl
      · rfl
    subst hm'
    obtain ⟨t, ht, hbt⟩ := (hasType_fields hu).property hb
    obtain ⟨s, rfl⟩ := hS _ t (List.mem_of_getElem? ht)
    exact ih hbt

theorem not_partMeetsNull_of_single {member : SpecialMember} (hS : ∀ m t, t ∈ (S m).properties → ∃ s, t = .single s)
    (ha : Assigning S left clears member k) (hw : w.Repeats k)
    (h : HasType S (.single (.message (w.message 0))) (.object (w.message 0) fs)) :
    ¬ PartMeetsNull left member k w fs := by
  intro hn
  induction hn with
  | @before w fs j v u _ _ hu hn =>
    obtain ⟨t, ht, hut⟩ := (hw.hasType_object h).property hu
    obtain ⟨s, rfl⟩ := hS _ t (List.mem_of_getElem? ht)
    exact not_meetsNull_of_single hS hut hn
  | here hb hn => exact not_null_of_single hS (Way.hasType_other hw (runBefore_ran ha hw h hb).hasType) hn
  | inside hb _ _ ih => exact ih hw.next (hasType_fields (Way.hasType_child (runBefore_ran ha hw h hb).hasType))

theorem Descends.not_meetsNull (ha : Assigning S left clears .moveAssignment k) (hw : w.Repeats k)
    (h : HasType S (.single (.message (w.message 0))) (.object (w.message 0) fs)) (hreg : w.RegularFrom k fs)
    (hd : Descends left .moveAssignment k w fs) : ¬ PartMeetsNull left .moveAssignment k w fs := by
  have hbefore : ∀ {w : Way S} {fs gs : List (Value M)}, w.Repeats k → w.RegularFrom k fs →
      HasType S (.single (.message (w.message 0))) (.object (w.message 0) fs) →
      runBefore left .moveAssignment k w fs = some gs → ∀ {j : Nat} {v u : Value M}, j < w.field 0 →
      w.get 0 j fs = some v → w.get k j fs = some u → ¬ MeetsNull S v u := by
    intro w fs gs hw hreg h hb j v u hj hv hu
    obtain ⟨t, ht, hvt⟩ := h.property hv
    obtain ⟨v', u', p, hv', hu', hut, hp, -⟩ := (runBefore_ran ha hw h hb).source_of_before ha hw h hj ht
    cases hv'.symm.trans hv
    cases hu'.symm.trans hu
    exact not_meetsNull_of_fieldStatement hvt hut
      (hreg k j u (Nat.le_refl k) (by rw [hw.field_zero]; omega) hu) hp
  induction hd with
  | @equal w fs gs hb hs =>
    intro hn
    cases hn with
    | before hj hv hu hnull => exact hbefore hw hreg h hb hj hv hu hnull
    | here hb' hnull =>
      cases hb.symm.trans hb'
      exact hs.not_null hnull
    | inside hb' hns =>
      cases hb.symm.trans hb'
      exact hns hs
  | @inside w fs gs hb hs hnn _ ih =>
    intro hn
    cases hn with
    | before hj hv hu hnull => exact hbefore hw hreg h hb hj hv hu hnull
    | here hb' hnull =>
      cases hb.symm.trans hb'
      exact hnn hnull
    | inside hb' _ hd =>
      cases hb.symm.trans hb'
      have hran := runBefore_ran ha hw h hb
      exact ih hw.next (hasType_fields (Way.hasType_child hran.hasType)) (hreg.inside hran) hd

theorem Descends.handsNothing (ha : Assigning S left clears .moveAssignment k) (hw : w.Repeats k)
    (h : HasType S (.single (.message (w.message 0))) (.object (w.message 0) fs))
    (hd : Descends left .moveAssignment k w fs) : w.HandsNothing clears k fs := by
  induction hd with
  | @equal w fs gs hb hs =>
    have hran := runBefore_ran ha hw h hb
    refine (Way.handsNothing_next ha hw h hran).mp fun s j t v _ hj ht hv => ?_
    have hvt : HasType S t v := Way.hasType_get (s := s + 1) hran.hasType ht hv
    exact (Way.defaultFrom_of_same hran.hasType hw ha.pos hs (s + 1) j t v (Nat.le_add_left 1 s) (Nat.ne_of_lt hj)
      ht hv).handed hvt
  | @inside w fs gs hb _ _ _ ih =>
    have hran := runBefore_ran ha hw h hb
    exact (Way.handsNothing_next ha hw h hran).mp (ih hw.next (hasType_fields (Way.hasType_child hran.hasType)))

/-- **The end.** By induction on the number of steps down the way to the first
default object. -/
theorem descends_of_handsNothing (ha : Assigning S left clears .moveAssignment k) (hw : w.Repeats k)
    (h : HasType S (.single (.message (w.message 0))) (.object (w.message 0) fs)) (hreg : w.RegularFrom k fs)
    (hnull : ¬ PartMeetsNull left .moveAssignment k w fs) (hands : w.HandsNothing clears k fs) :
    Descends left .moveAssignment k w fs := by
  obtain ⟨l, hd⟩ := Way.exists_defaultFrom h
  induction l generalizing w fs with
  | zero =>
    obtain ⟨gs, hb⟩ := exists_runBefore ha hw h hreg fun hj hv hu hn => hnull (.before hj hv hu hn)
    have hran := runBefore_ran ha hw h hb
    have hg := hran.hasType
    have hdg := hran.defaultFrom_of_handsNothing ha hw h hands hd
    have hc := isDefault_object.mp ((Way.defaultFrom_zero_iff hg).mp hdg) _ _ _ (w.property 0) (Way.getElem?_child hg)
    have ho := (hdg.mono (Nat.zero_le k)).other hw hg
    exact .equal hb (same_of_isDefault (Way.hasType_child hg) (Way.hasType_other hw hg) hc ho)
  | succ l ih =>
    obtain ⟨gs, hb⟩ := exists_runBefore ha hw h hreg fun hj hv hu hn => hnull (.before hj hv hu hn)
    have hran := runBefore_ran ha hw h hb
    by_cases hs : Same S (w.child gs) (w.other k gs)
    · exact .equal hb hs
    · refine .inside hb hs (fun hn => hnull (.here hb hn)) (ih hw.next ?_ ?_ ?_ ?_ ?_)
      · exact hasType_fields (Way.hasType_child hran.hasType)
      · exact hreg.inside hran
      · exact fun hd => hnull (.inside hb hs hd)
      · exact (Way.handsNothing_next ha hw h hran).mpr hands
      · exact (hran.defaultFrom_of_handsNothing ha hw h hands hd).inside

theorem descends_iff (ha : Assigning S left clears .moveAssignment k) (hw : w.Repeats k)
    (h : HasType S (.single (.message (w.message 0))) (.object (w.message 0) fs)) (hreg : w.RegularFrom k fs) :
    Descends left .moveAssignment k w fs ↔
      ¬ PartMeetsNull left .moveAssignment k w fs ∧ w.HandsNothing clears k fs :=
  ⟨fun hd => ⟨hd.not_meetsNull ha hw h hreg, hd.handsNothing ha hw h⟩,
    fun ⟨hnull, hands⟩ => descends_of_handsNothing ha hw h hreg hnull hands⟩

end

end QtProtobuf.Codec
