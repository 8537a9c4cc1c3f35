import QtProtobuf.L2Codec.PartEnds

/-!
# Copies and moves preserve the value

* `preserves_part_copy_iff`, `preserves_part_move_iff`: the assignment of a part of
  the target.
* `preserved_iff`: constructors, and assignments of another object, of the object
  itself and of a part of it.
* `preserved_nodes`, `not_preserved_otherKey`: a list of nodes, and two maps.
-/
namespace QtProtobuf.Codec

variable {M : Type} {S : Schema M}

/-! ## The assignment of a part -/

theorem equalTo_iff {n : Nat} {m : M} {fs gs : List (Value M)}
    (hf : HasType S (.single (.message m)) (.object m fs)) (hg : HasType S (.single (.message m)) (.object m gs))
    (hn : (Value.object m fs).depth ≤ n) (hn' : (Value.object m gs).depth ≤ n) :
    equalTo S n m fs gs = some true ↔ Same S (.object m fs) (.object m gs) := by
  have htells := (equalField_tells n hf hg hn hn').1
  have hgives := compareObjects_gives n m fs gs hf hg hn hn'
  constructor
  · intro h
    obtain ⟨r, hr, heq⟩ := Option.map_eq_some_iff.mp h
    rw [hr] at hgives
    exact htells.mp (hgives.1.trans (congrArg some heq))
  · exact fun h => equalTo_of_equal hf hg hn hn' (htells.mpr h)

section
variable (left : Value M → Value M → Value M) (member : SpecialMember) (k : Nat) (w : Way S)

/-- The target after the assignment of its part, and the part. -/
def partRun (fs : List (Value M)) (n : Nat) : Option (List (Value M) × List (Value M)) :=
  (runPart left member k n w fs).map fun target => (target, w.object k target)

/-- What the move reads after it has written it: the fields after the way are
default in the part and in the objects in it that lie above its own part. From there
on they are equal to what the field two parts further up hands over. -/
structure Way.HandsBack (clears : FieldType M → Bool) (fs : List (Value M)) : Prop where
  above : ∀ s j t v, s < k → w.field s < j → (S (w.message s)).properties[j]? = some t →
    w.get (s + k) j fs = some v → IsDefault S t v
  below : ∀ s j t v u, w.field s < j → (S (w.message s)).properties[j]? = some t → w.get s j fs = some v →
    w.get (s + k + k) j fs = some u → Same S (handed S clears t v) u

end

section
variable {left : Value M → Value M → Value M} {clears : FieldType M → Bool} {member : SpecialMember} {k : Nat}
  {w : Way S} {fs hs : List (Value M)}

theorem hasType_of_runPart (ha : Assigning S left clears member k) (hw : w.Repeats k)
    (h : HasType S (.single (.message (w.message 0))) (.object (w.message 0) fs)) {n : Nat}
    (hr : runPart left member k n w fs = some hs) :
    HasType S (.single (.message (w.message 0))) (.object (w.message 0) hs) := by
  induction n generalizing w fs hs with
  | zero => cases hr
  | succ n ih =>
    obtain ⟨gs, gs', hb, ho, haft⟩ := runPart_succ_iff.mp hr
    have hg := (runBefore_ran ha hw h hb).hasType
    have hg' : HasType S (.single (.message (w.message 0))) (.object (w.message 0) gs') := by
      rcases (runOwn_iff hw hg).mp ho with ⟨-, rfl⟩ | ⟨-, -, cs, hcs, rfl⟩
      · exact hg
      · exact hg.set (w.property 0) (ih (w := w.next) hw.next (hasType_fields (Way.hasType_child hg)) hcs)
    exact (runAfter_ran ha hw hg' haft).hasType

/-- In terms of the values that one run leaves. -/
theorem preserves_part_iff (ha : Assigning S left clears member k) (hw : w.Repeats k)
    (h : HasType S (.single (.message (w.message 0))) (.object (w.message 0) fs)) :
    Preserves S (w.message 0) (w.object k fs) member (partRun left member k w fs) ↔
      ∃ n hs, runPart left member k n w fs = some hs ∧
        Same S (.object (w.message 0) hs) (.object (w.message 0) (w.object k fs)) ∧
        (member.isMove = false →
          Same S (.object (w.message 0) (w.object k hs)) (.object (w.message 0) (w.object k fs))) := by
  have hpart := hw.hasType_object h
  constructor
  · rintro ⟨N, hN⟩
    obtain ⟨_, _, hrun, -⟩ := hN N (Nat.le_refl N)
    obtain ⟨hs, hr, -⟩ := Option.map_eq_some_iff.mp hrun
    have ht := hasType_of_runPart ha hw h hr
    obtain ⟨n, hn, hdt, hdp, hda⟩ : ∃ n, N ≤ n ∧ (Value.object (w.message 0) hs).depth ≤ n ∧
        (Value.object (w.message 0) (w.object k hs)).depth ≤ n ∧
        (Value.object (w.message 0) (w.object k fs)).depth ≤ n :=
      ⟨N + ((Value.object (w.message 0) hs).depth + ((Value.object (w.message 0) (w.object k hs)).depth +
        (Value.object (w.message 0) (w.object k fs)).depth)), by omega, by omega, by omega, by omega⟩
    obtain ⟨target, source, hrun, hequal, hcopy⟩ := hN n hn
    rw [partRun, runPart_mono hn hr] at hrun
    cases hrun
    exact ⟨N, hs, hr, (equalTo_iff ht hpart hdt hda).mp hequal,
      fun hm => (equalTo_iff (hw.hasType_object ht) hpart hdp hda).mp (hcopy hm)⟩
  · rintro ⟨n, hs, hr, hequal, hcopy⟩
    have ht := hasType_of_runPart ha hw h hr
    refine ⟨n + ((Value.object (w.message 0) hs).depth + ((Value.object (w.message 0) (w.object k hs)).depth +
        (Value.object (w.message 0) (w.object k fs)).depth)), fun n' hn => ⟨hs, w.object k hs, ?_, ?_, fun hm => ?_⟩⟩
    · rw [partRun, runPart_mono (by omega) hr]
      rfl
    · exact (equalTo_iff ht hpart (by omega) (by omega)).mpr hequal
    · exact (equalTo_iff (hw.hasType_object ht) hpart (by omega) (by omega)).mpr (hcopy hm)

/-- **Copies of a part.** The part itself is overwritten, unless it is equal to a
default object. -/
theorem preserves_part_copy_iff (ha : Assigning S left clears .copyAssignment k) (hw : w.Repeats k)
    (h : HasType S (.single (.message (w.message 0))) (.object (w.message 0) fs)) :
    Preserves S (w.message 0) (w.object k fs) .copyAssignment (partRun left .copyAssignment k w fs) ↔
      Same S (.object (w.message 0) (w.object k fs)) (.object (w.message 0) (newObject S (w.message 0))) := by
  have hpart := hw.hasType_object h
  have hnew : IsDefault S (.single (.message (w.message 0))) (.object (w.message 0) (newObject S (w.message 0))) :=
    .object fun i t v => isDefault_newObject
  have hobj := hasType_newObject (S := S) (w.message 0)
  have hsame : ∀ {gs : List (Value M)}, HasType S (.single (.message (w.message 0))) (.object (w.message 0) gs) →
      (Same S (.object (w.message 0) gs) (.object (w.message 0) (newObject S (w.message 0))) ↔
        IsDefault S (.single (.message (w.message 0))) (.object (w.message 0) gs)) := fun hg =>
    ⟨fun hs => (isDefault_congr hs hg hobj).mpr hnew, fun hd => same_of_isDefault hg hobj hd hnew⟩
  rw [preserves_part_iff ha hw h, hsame hpart, ← hw.defaultFrom_iff h]
  constructor
  · rintro ⟨n, hs, hr, hequal, hcopy⟩
    have ht := hasType_of_runPart ha hw h hr
    have hpt := hw.hasType_object ht
    have hsource := hcopy rfl
    -- what the part holds now is equal to what it held, and to what its own part held
    refine Way.defaultFrom_of_chain h hw ha.pos fun s j t v u hs hj htj hv hu hd => ?_
    obtain ⟨r, rfl⟩ := Nat.exists_eq_add_of_le' hs
    obtain ⟨x, hx, hxt, -⟩ := (Way.hasType_object ht (r + k)).field htj
    have hx' : w.get r j (w.object k _) = some x := (hw.get_add r j).symm.trans hx
    have hvt := Way.hasType_get h htj hv
    have hut : HasType S t u := Way.hasType_get h (by rwa [(hw (r + k)).1]) hu
    rw [hw.get_add] at hv hu
    have hxu := Way.same_get ht hpart hequal hx hu
    have hxv := Way.same_get hpt hpart hsource hx' hv
    exact (isDefault_congr hxv hxt hvt).mp ((isDefault_congr hxu hxt hut).mpr hd)
  · intro hd
    obtain ⟨n, hs, hr⟩ := exists_copy ha hw h (Nat.le_refl k) hd
    obtain ⟨ht, hds⟩ := copied_of_runPart ha hw h hd hr
    have hda := (hw.defaultFrom_iff h).mp hd
    refine ⟨n, hs, hr, same_of_isDefault ht hpart ((Way.defaultFrom_zero_iff ht).mp hds) hda, fun _ => ?_⟩
    exact same_of_isDefault (hw.hasType_object ht) hpart ((hw.defaultFrom_iff ht).mp (hds.mono (Nat.zero_le k))) hda

/-- **Moves of a part.** No comparison meets a null pointer, before the way nothing is
handed over, and after it just what the part holds. -/
theorem preserves_part_move_iff (ha : Assigning S left clears .moveAssignment k) (hw : w.Repeats k)
    (h : HasType S (.single (.message (w.message 0))) (.object (w.message 0) fs))
    (hreg : Regular (.object (w.message 0) (w.object k fs))) :
    Preserves S (w.message 0) (w.object k fs) .moveAssignment (partRun left .moveAssignment k w fs) ↔
      ¬ PartMeetsNull left .moveAssignment k w fs ∧ w.HandsNothing clears k fs ∧ w.HandsBack k clears fs := by
  have hpart := hw.hasType_object h
  have hregfrom : w.RegularFrom k fs := by
    intro s j v hs _ hv
    obtain ⟨r, rfl⟩ := Nat.exists_eq_add_of_le' hs
    rw [hw.get_add] at hv
    exact Way.regular_get hreg hv
  rw [preserves_part_iff ha hw h, ← and_assoc, ← descends_iff ha hw h hregfrom]
  constructor
  · rintro ⟨n, hs, hr, hequal, -⟩
    have hm := moved_of_runPart ha hw h hregfrom hr
    refine ⟨descends_of_runPart ha hw h hr, fun s j t v hsk hj ht hv => ?_, fun s j t v u hj ht hv hu => ?_⟩
    · obtain ⟨x, hx, hxt, -⟩ := (Way.hasType_object hm.hasType s).field ht
      have hvt := Way.hasType_get h (by rwa [(hw s).1]) hv
      rw [hw.get_add] at hv
      exact (isDefault_congr (Way.same_get hm.hasType hpart hequal hx hv) hxt hvt).mp (hm.above s j t x hsk hj ht hx)
    · obtain ⟨x, hx, -, -⟩ := (Way.hasType_object hm.hasType (s + k)).field ((hw s).1.symm ▸ ht)
      have hut := Way.hasType_get h (by rwa [(hw (s + k)).1, (hw s).1]) hu
      rw [hw.get_add] at hu
      exact ((hm.handed s j t x v hj ht hx hv).same_iff u hut).mp (Way.same_get hm.hasType hpart hequal hx hu)
  · rintro ⟨hd, hback⟩
    obtain ⟨n, hs, hr⟩ := exists_runPart ha hw h hregfrom hd
    have hm := moved_of_runPart ha hw h hregfrom hr
    refine ⟨n, hs, hr, Way.same_of_get hm.hasType hpart fun s j x v hj hx hv => ?_, nofun⟩
    obtain ⟨t, ht, hxt⟩ := (Way.hasType_object hm.hasType s).property hx
    rw [← hw.get_add] at hv
    have hvt := Way.hasType_get h (by rwa [(hw s).1]) hv
    rcases Nat.lt_or_gt_of_ne hj with hlt | hgt
    · exact hm.before s j x v hlt hx hv
    · by_cases hsk : s < k
      · exact same_of_isDefault hxt hvt (hm.above s j t x hsk hgt ht hx) (hback.above s j t v hsk hgt ht hv)
      · obtain ⟨r, rfl⟩ := Nat.exists_eq_add_of_le' (Nat.le_of_not_lt hsk)
        rw [(hw r).1] at ht
        rw [(hw r).2] at hgt
        obtain ⟨y, hy, -, -⟩ := (Way.hasType_object h r).field ht
        exact ((hm.handed r j t x y hgt ht hx hy).same_iff v hvt).mpr (hback.below r j t y v hgt ht hy hv)

end

/-- The ordering of two fields. -/
def twoFields : List (Nat × Nat) := [(1, 0), (2, 1)]

theorem twoFields_distinct : (twoFields.map Prod.fst).Nodup := by decide

theorem twoFields_inRange : ∀ p ∈ twoFields, 0 < p.1 ∧ p.1 < 2 ^ 29 := by decide

/-- `message Node { int32 value = 1; Node next = 2; }` -/
def nodeSchema : Schema Unit := fun _ =>
  { properties := [.single (.scalar (.num .int32)), .single (.message ())]
    propertyOrdering := twoFields
    distinct := twoFields_distinct
    inRange := twoFields_inRange
    indices := .refl _ }

/-- `next` and again `next` -/
def nextWay : Way nodeSchema where
  message _ := ()
  field _ := 1
  property _ := rfl

/-- A list of nodes. -/
def nodes (value : BitVec 32) : List (BitVec 32) → List (Value Unit)
  | [] => [.scalar (.num .int32 value), .unset ()]
  | next :: values => [.scalar (.num .int32 value), .object () (nodes next values)]

theorem hasType_nodes (value : BitVec 32) (values : List (BitVec 32)) :
    HasType nodeSchema (.single (.message ())) (.object () (nodes value values)) := by
  have hnode : ∀ {value : BitVec 32} {next : Value Unit}, HasType nodeSchema (.single (.message ())) next →
      HasType nodeSchema (.single (.message ())) (.object () [.scalar (.num .int32 value), next]) := by
    refine fun hnext => .object () rfl fun i t v ht hv => ?_
    match i with
    | 0 =>
      cases ht
      cases hv
      exact .scalar (.num .int32 _)
    | 1 =>
      cases ht
      cases hv
      exact hnext
    | i + 2 => cases ht
  induction values generalizing value with
  | nil => exact hnode (.unset ())
  | cons next values ih => exact hnode (ih next)

theorem regular_nodes (value : BitVec 32) (values : List (BitVec 32)) :
    Regular (.object () (nodes value values)) := by
  have hnode : ∀ {value : BitVec 32} {next : Value Unit}, Regular next →
      Regular (.object () [.scalar (.num .int32 value), next]) := fun hnext =>
    .object () (List.forall_mem_cons.mpr ⟨.scalar nofun, List.forall_mem_singleton.mpr hnext⟩)
  induction values generalizing value with
  | nil => exact hnode (.unset ())
  | cons next values ih => exact hnode (ih next)

/-- `node = std::move(node.next())` of the list 1, 2, 3 -/
example : runPart (fun v _ => v) .moveAssignment 1 5 nextWay (nodes 1 [2, 3]) =
    some [.scalar (.num .int32 2),
      .object () [.scalar (.num .int32 3), .object () [.scalar (.num .int32 0), .unset ()]]] := rfl

/-! ## Every special member -/

section
variable (left : Value M → Value M → Value M) {m : M} {a : List (Value M)}

/-- **Copies and moves.** The constructors, and the assignment of an object to
itself, preserve the value. The assignment to another object does exactly if no
comparison on its way dereferences a null pointer. The copy of a part of the target
does exactly if the part is equal to a default object. The move of a part does exactly
if no comparison on its way dereferences a null pointer, the target hands over nothing
before the way, and after it just what the part holds. -/
theorem preserved_iff (ha : HasType S (.single (.message m)) (.object m a)) (hreg : Regular (.object m a)) :
    (∀ raw, Fresh S m raw → ∀ member, member = .copyConstructor ∨ member = .moveConstructor →
        Preserves S m a member (fun n => runMember S left n member m false raw a)) ∧
      (∀ member, member = .copyAssignment ∨ member = .moveAssignment →
        Preserves S m a member (fun n => runMember S left n member m true a a) ∧
          ∀ old, HasType S (.single (.message m)) (.object m old) →
            (Preserves S m a member (fun n => runMember S left n member m false old a) ↔
              ¬ FieldsMeetNull S old a)) ∧
      ∀ clears, Exchanges S left clears → ∀ (w : Way S) (k : Nat) (old : List (Value M)), 0 < k → w.Repeats k →
        w.message 0 = m → w.object k old = a → HasType S (.single (.message m)) (.object m old) →
          (Preserves S m a .copyAssignment (partRun left .copyAssignment k w old) ↔
            Same S (.object m a) (.object m (newObject S m))) ∧
          (Preserves S m a .moveAssignment (partRun left .moveAssignment k w old) ↔
            ¬ PartMeetsNull left .moveAssignment k w old ∧ w.HandsNothing clears k old ∧
              w.HandsBack k clears old) := by
  refine ⟨fun raw hraw member _ => ?_, fun member hm => ⟨preserves_self left hm ha hreg, fun old hold => ?_⟩, ?_⟩
  · exact (preserves_apart_iff left member ha hreg hraw.1).mpr (hraw.not_meetNull ha)
  · exact preserves_apart_iff left member ha hreg hold
  · rintro clears hleft w k old hk hw rfl rfl hold
    exact ⟨preserves_part_copy_iff ⟨hleft, .inl rfl, hk⟩ hw hold,
      preserves_part_move_iff ⟨hleft, .inr rfl, hk⟩ hw hold hreg⟩

end

/-- The list 2, 3 in the list 1, 2, 3: the move is right, the copy is not. -/
theorem preserved_nodes :
    Preserves nodeSchema () (nodes 2 [3]) .copyConstructor (fun n =>
        runMember nodeSchema (fun v _ => v) n .copyConstructor () false (newObject nodeSchema ()) (nodes 2 [3])) ∧
      Preserves nodeSchema () (nodes 2 [3]) .moveAssignment
        (partRun (fun v _ => v) .moveAssignment 1 nextWay (nodes 1 [2, 3])) ∧
      ¬ Preserves nodeSchema () (nodes 2 [3]) .copyAssignment
        (partRun (fun v _ => v) .copyAssignment 1 nextWay (nodes 1 [2, 3])) := by
  have hleft : Exchanges nodeSchema (fun v _ => v) fun _ => false := fun t v w _ _ => rfl
  have hfields : ∀ m t, t ∈ (nodeSchema m).properties → ∃ s, t = .single s := by
    intro m t ht
    simp only [nodeSchema, List.mem_cons, List.not_mem_nil, or_false] at ht
    rcases ht with rfl | rfl <;> exact ⟨_, rfl⟩
  have hw : nextWay.Repeats 1 := fun s => ⟨rfl, rfl⟩
  obtain ⟨hconstructed, -, hpart⟩ := preserved_iff (fun v _ => v) (hasType_nodes 2 [3]) (regular_nodes 2 [3])
  obtain ⟨hcopied, hmoved⟩ := hpart _ hleft nextWay 1 (nodes 1 [2, 3]) Nat.one_pos hw rfl rfl (hasType_nodes 1 [2, 3])
  refine ⟨hconstructed (newObject nodeSchema ()) ⟨hasType_newObject (), fun i t v ht hv => .inl ?_⟩ _ (.inl rfl),
    hmoved.mpr ⟨?_, ?_, ?_, ?_⟩, fun hp => ?_⟩
  · rw [newObject, List.getElem?_map, ht] at hv
    exact (Option.some.inj hv).symm
  · exact not_partMeetsNull_of_single hfields ⟨hleft, .inr rfl, Nat.one_pos⟩ hw (hasType_nodes 1 [2, 3])
  · -- the number before the way is exchanged with zero
    intro s j t v _ hj ht _
    have hj : j < 1 := hj
    obtain rfl : j = 0 := by omega
    cases ht
    rw [handed_plain _ (.inl ⟨.int32, rfl⟩)]
    exact isDefault_default _
  · intro s j t v _ hj ht
    cases (List.getElem?_eq_none (Nat.succ_le_of_lt hj)).symm.trans ht
  · intro s j t v u hj ht
    cases (List.getElem?_eq_none (Nat.succ_le_of_lt hj)).symm.trans ht
  · cases (hcopied.mp hp).object_fields (i := 0) rfl rfl with
    | leaf h => cases h
    | pointers hp => cases hp

/-- A message type with a field of itself, and a map of messages. -/
def treeSchema : Schema Unit := fun _ =>
  { properties := [.single (.message ()), .map (.num .int32) (.message ())]
    propertyOrdering := twoFields
    distinct := twoFields_distinct
    inRange := twoFields_inRange
    indices := .refl _ }

/-- An object whose nested object has a map with one key. -/
def nestedKey (key : Int) : List (Value Unit) :=
  [.object () [.unset (), .map [(.num .int32 (BitVec.ofInt 32 key), .object () [.unset (), .map []])]], .map []]

theorem hasType_tree {u : Value Unit} {es : List (Scalar × Value Unit)}
    (hu : HasType treeSchema (.single (.message ())) u)
    (hes : HasType treeSchema (.map (.num .int32) (.message ())) (.map es)) :
    HasType treeSchema (.single (.message ())) (.object () [u, .map es]) := by
  refine .object () rfl fun i t v ht hv => ?_
  match i with
  | 0 =>
    cases ht
    cases hv
    exact hu
  | 1 =>
    cases ht
    cases hv
    exact hes
  | i + 2 => cases ht

theorem hasType_nestedKey (key : Int) :
    HasType treeSchema (.single (.message ())) (.object () (nestedKey key)) := by
  have hempty : HasType treeSchema (.map (.num .int32) (.message ())) (.map []) := .map (by simp) (by simp)
  refine hasType_tree (hasType_tree (.unset ()) (.map ?_ ?_)) hempty
  · exact List.forall_mem_singleton.mpr rfl
  · exact List.forall_mem_singleton.mpr (hasType_tree (.unset ()) hempty)

theorem regular_nestedKey (key : Int) : Regular (.object () (nestedKey key)) := by
  have hempty : Regular (.map ([] : List (Scalar × Value Unit))) := .map (by simp) (by simp) (by simp) .nil
  have htree : ∀ {u v : Value Unit}, Regular u → Regular v → Regular (.object () [u, v]) :=
    fun hu hv => .object () (List.forall_mem_cons.mpr ⟨hu, List.forall_mem_singleton.mpr hv⟩)
  have hmap : Regular (.map [(.num .int32 (BitVec.ofInt 32 key), .object () [.unset (), .map []])]) := by
    refine .map ?_ ?_ ?_ (List.pairwise_singleton _ _)
    · exact List.forall_mem_singleton.mpr fun inf h => by cases h
    · exact List.forall_mem_singleton.mpr rfl
    · exact List.forall_mem_singleton.mpr (htree (.unset ()) hempty)
  exact htree (htree (.unset ()) hmap) hempty

/-- The nested maps have one key each, and not the same one. -/
theorem not_preserved_otherKey :
    HasType treeSchema (.single (.message ())) (.object () (nestedKey 1)) ∧
      HasType treeSchema (.single (.message ())) (.object () (nestedKey 2)) ∧
      Regular (.object () (nestedKey 1)) ∧ Regular (.object () (nestedKey 2)) ∧
      ¬ Preserves treeSchema () (nestedKey 2) .copyAssignment
        (fun n => runMember treeSchema (fun v _ => v) n .copyAssignment () false (nestedKey 1) (nestedKey 2)) := by
  refine ⟨hasType_nestedKey 1, hasType_nestedKey 2, regular_nestedKey 1, regular_nestedKey 2, ?_⟩
  rintro ⟨N, hN⟩
  obtain ⟨target, source, hrun, -⟩ := hN (N + 3) (by omega)
  have hnone : runMember treeSchema (fun v _ => v) (N + 3) .copyAssignment () false (nestedKey 1) (nestedKey 2) =
      none := rfl
  cases hnone.symm.trans hrun

end QtProtobuf.Codec
