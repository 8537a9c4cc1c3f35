import QtProtobuf.L2Codec.LazyCreation

/-!
# Copies and moves

The printer picks a statement for each field of each special member function
(`generator/messagedefinitionprinter.cpp:200-302`); the texts of the statements
are templates (`generator/templates.cpp:124-156`). The state is the two objects,
or the one object that is assigned to itself.

* `runField_arrives`: a field's statement leaves the field equal to the other
  one, unless a comparison on its way dereferences a null pointer.
* `runMember_self`: an object that is assigned to itself keeps its value.
* `preserves_self`, `preserves_apart_iff`: what becomes of the values, for an object
  and itself and for two objects apart.
-/
namespace QtProtobuf.Codec

variable {M : Type}

/-! ## The printer -/

/-- The special member functions. -/
inductive SpecialMember where
  | copyConstructor | copyAssignment | moveConstructor | moveAssignment
  deriving DecidableEq

/-- The templates of a field's statement. -/
inductive FieldTemplate where
  | copyField | copyComplexField | assignComplexField
  | moveMessageField | moveAssignMessageField | moveComplexField | moveComplexFieldConstructor
  | moveField | enumMoveField

namespace SpecialMember

def isMove : SpecialMember → Bool
  | moveConstructor | moveAssignment => true
  | _ => false

/-- mirrors src/generator/messagedefinitionprinter.cpp:220-245 and 265-301 -/
def template : SpecialMember → FieldType M → FieldTemplate
  | copyConstructor, .single (.message _) => .copyComplexField
  | copyAssignment, .single (.message _) => .assignComplexField
  | copyConstructor, _ => .copyField
  | copyAssignment, _ => .copyField
  | moveConstructor, .single (.message _) => .moveMessageField
  | moveAssignment, .single (.message _) => .moveAssignMessageField
  | _, .single .enum => .enumMoveField
  | _, .single (.scalar (.num _)) => .moveField
  | _, .single (.scalar .bool) => .moveField
  | moveConstructor, _ => .moveComplexFieldConstructor
  | moveAssignment, _ => .moveComplexField

end SpecialMember

/-! ## The statements -/

/-- A field of the two objects; one field twice if they are one object. -/
structure FieldPair (M : Type) where
  self : Bool
  target : Value M
  source : Value M

namespace FieldPair

def setTarget (p : FieldPair M) (v : Value M) : FieldPair M :=
  { p with target := v, source := if p.self then v else p.source }

def setSource (p : FieldPair M) (w : Value M) : FieldPair M :=
  { p with target := if p.self then w else p.target, source := w }

end FieldPair

/-- A statement of a field, or nothing where a null pointer is dereferenced. -/
abbrev FieldStep (M : Type) := FieldPair M → Option (FieldPair M)

section
variable (S : Schema M) (objects : M → List (Value M) → List (Value M) → Option (Compared (List (Value M))))
  (assign : SpecialMember → M → Bool → List (Value M) → List (Value M) →
    Option (List (Value M) × List (Value M)))
  (left : Value M → Value M → Value M)

/-- `if (m_field != other.m_field) { *m_field = *other.m_field; }`, with the
assignment operator of the message type -/
def assignMessage (member : SpecialMember) (m : M) : FieldStep M := fun p => do
  let (equal, v, w) ← compareLazy S objects m p.target p.source
  let p := (p.setTarget v).setSource w
  if equal then pure p
  else
    let p := (p.setTarget (.object m (p.target.fields S))).setSource (.object m (p.source.fields S))
    let (fs, gs) ← assign member m p.self (p.target.fields S) (p.source.fields S)
    pure ((p.setTarget (.object m fs)).setSource (.object m gs))

/-- `m_field = std::move(other.m_field)`; `left` is what a container that was
moved from holds. -/
def moveValue (p : FieldPair M) : FieldPair M :=
  (p.setSource (left p.target p.source)).setTarget p.source

/-- mirrors src/generator/templates.cpp:124-156. A container is equal to itself,
whatever is in it. -/
def FieldTemplate.run (t : FieldType M) : FieldTemplate → FieldStep M
  | copyField, p => some (p.setTarget (p.target.write p.source))
  | copyComplexField, p | assignComplexField, p =>
    match t with
    | .single (.message m) => assignMessage S objects assign .copyAssignment m p
    | _ => none
  | moveMessageField, p | moveAssignMessageField, p =>
    match t with
    | .single (.message m) => assignMessage S objects assign .moveAssignment m p
    | _ => none
  | moveComplexField, p => if p.self || p.target.same p.source then some p else some (moveValue left p)
  | moveComplexFieldConstructor, p => some (moveValue left p)
  | moveField, p =>
    let old := p.source
    let p := p.setSource t.default
    some (p.setTarget (p.target.write old))
  | enumMoveField, p => some (p.setTarget p.source)

/-- The statements of the fields, one after the other. -/
def runFields (self : Bool) (step : FieldType M → FieldStep M) :
    List (FieldType M) → List (Value M) → List (Value M) → Option (List (Value M) × List (Value M))
  | t :: ts, v :: vs, w :: ws => do
    let p ← step t ⟨self, v, w⟩
    (runFields self step ts vs ws).map fun r => (p.target :: r.1, p.source :: r.2)
  | _, vs, ws => some (vs, ws)

end

/-- The body of a special member function: mirrors
src/generator/messagedefinitionprinter.cpp:200-302, with fewer than `n` objects
inside one another. -/
def runMember (S : Schema M) (left : Value M → Value M → Value M) : Nat → SpecialMember → M → Bool →
    List (Value M) → List (Value M) → Option (List (Value M) × List (Value M))
  | 0, _, _, _, _, _ => none
  | n + 1, member, m, self, fs, gs =>
    runFields self (fun t => (member.template t).run S (compareObjects S n) (runMember S left n) left t)
      (S m).properties fs gs

/-! ## Values -/

/-- The bit pattern is not a NaN. -/
def NumType.Number (t : NumType) (v : Nat) : Prop := ∀ inf, t.infinity = some inf → v % 2 ^ (t.width - 1) ≤ inf

def Scalar.Number : Scalar → Prop
  | .num t v => t.Number v.toNat
  | _ => True

/-- A value without NaN, and without null pointers in lists and maps; maps are
ordered by key. -/
inductive Regular : Value M → Prop
  | scalar {v : Scalar} (h : v.Number) : Regular (.scalar v)
  | enum (v : BitVec 32) : Regular (.enum v)
  | unset (m : M) : Regular (.unset m)
  | object (m : M) {fs : List (Value M)} (h : ∀ v ∈ fs, Regular v) : Regular (.object m fs)
  | nums {t : NumType} {vs : List (BitVec t.width)} (h : ∀ v ∈ vs, t.Number v.toNat) : Regular (.nums t vs)
  | strings (vs : List (Option (List UInt16))) : Regular (.strings vs)
  | byteArrays (vs : List (Option Bytes)) : Regular (.byteArrays vs)
  | enums (vs : List (BitVec 32)) : Regular (.enums vs)
  | messages {vs : List (Value M)} (hset : ∀ v ∈ vs, v.isUnset = false) (h : ∀ v ∈ vs, Regular v) :
    Regular (.messages vs)
  | map {es : List (Scalar × Value M)} (hk : ∀ e ∈ es, e.1.Number) (hset : ∀ e ∈ es, e.2.isUnset = false)
    (h : ∀ e ∈ es, Regular e.2) (hsorted : es.Pairwise fun e e' => e.1.key < e'.1.key) : Regular (.map es)

theorem NumType.same_self {t : NumType} {v : Nat} (h : t.Number v) : t.same v v = true := by
  unfold NumType.same
  cases hi : t.infinity with
  | none => simp
  | some inf => simp [h inf hi]

theorem Scalar.same_self {v : Scalar} (h : v.Number) : v.same v = true := by
  cases v with
  | num t v => simpa [Scalar.same] using NumType.same_self h
  | _ => simp [Scalar.same]

theorem sameList_self {α : Type} {same : α → α → Bool} {vs : List α} (h : ∀ v ∈ vs, same v v = true) :
    sameList same vs vs = true := by
  induction vs with
  | nil => rfl
  | cons v vs ih =>
    rw [List.forall_mem_cons] at h
    exact sameList_cons.mpr ⟨h.1, ih h.2⟩

variable {S : Schema M}

/-- The entry of a key that is in an ordered map. -/
theorem valueAt_of_mem {es : List (Scalar × Value M)} (hsorted : es.Pairwise fun e e' => e.1.key < e'.1.key)
    {e : Scalar × Value M} (he : e ∈ es) : valueAt es e.1 = e.2.pointee := by
  have hfind : es.find? (fun e' => e'.1.key == e.1.key) = some e := by
    induction es with
    | nil => cases he
    | cons e' es ih =>
      rw [List.pairwise_cons] at hsorted
      rw [List.find?_cons]
      rcases List.mem_cons.mp he with rfl | he
      · rw [beq_self_eq_true]
      · have hne : (e'.1.key == e.1.key) = false := by
          rw [beq_eq_false_iff_ne]
          intro heq
          have hlt := hsorted.1 e he
          rw [heq] at hlt
          exact List.lt_irrefl _ hlt
        rw [hne]
        exact ih hsorted.2 he
  rw [valueAt, hfind]
  rfl

theorem isUnset_pointee {m : M} {v : Value M} (hv : HasType S (.single (.message m)) v) (h : v.isUnset = false) :
    v.pointee = some v := by
  cases hv with
  | unset => cases h
  | object => rfl

theorem same_scalarMap {es : List (Scalar × Value M)} (hk : ∀ e ∈ es, e.1.Number)
    (h : ∀ e ∈ es, (∃ v, e.2 = .scalar v ∧ v.Number) ∨ ∃ v, e.2 = .enum v) : Same S (.map es) (.map es) := by
  refine .leaf (Value.same_map.trans (sameList_self fun e he => ?_))
  rw [sameEntry_iff]
  refine ⟨Scalar.same_self (hk e he), ?_⟩
  rcases h e he with ⟨v, hv, hn⟩ | ⟨v, hv⟩
  · exact .inl ⟨v, v, hv, hv, Scalar.same_self hn⟩
  · exact .inr ⟨v, hv, hv⟩

/-- **Reflexivity.** A value without NaN is equal to itself. -/
theorem same_refl {t : FieldType M} {v : Value M} (ht : HasType S t v) (h : Regular v) : Same S v v := by
  induction h generalizing t with
  | scalar h => exact .leaf (Scalar.same_self h)
  | enum v => exact .leaf (by simp [Value.same])
  | unset m => exact .unset m m
  | object m _ ih =>
    cases ht with
    | object _ hl hfs =>
      refine .object rfl fun i v w hv hw => ?_
      cases hv.symm.trans hw
      have hlt := (List.getElem?_eq_some_iff.mp hv).1
      exact ih v (List.mem_of_getElem? hv) (hfs i _ v (List.getElem?_eq_getElem (hl ▸ hlt)) hv)
  | nums h =>
    refine .leaf ?_
    rw [Value.same, beq_self_eq_true, Bool.true_and]
    exact sameList_self (List.forall_mem_map.mpr fun v hv => NumType.same_self (h v hv))
  | strings vs =>
    refine .leaf ?_
    rw [Value.same]
    exact sameList_self fun s _ => beq_self_eq_true _
  | byteArrays vs =>
    refine .leaf ?_
    rw [Value.same]
    exact sameList_self fun s _ => beq_self_eq_true _
  | enums vs => exact .leaf (by simp [Value.same])
  | @messages vs hset _ ih =>
    cases ht with
    | messages hvs =>
      have hp : comparedPointers (.messages vs) (.messages vs) = some (pointersOf vs vs) := by
        rw [comparedPointers, if_pos rfl]
        rfl
      refine (same_iff_pointers hp).mpr ⟨fun p hmem => ?_, fun a b hmem => ?_⟩
      · obtain ⟨i, hi⟩ := List.mem_iff_getElem?.mp hmem
        obtain ⟨v, w, hv, hw, rfl⟩ := getElem?_pointersOf.mp hi
        cases hv.symm.trans hw
        rfl
      · obtain ⟨i, hi⟩ := List.mem_iff_getElem?.mp hmem
        obtain ⟨v, w, hv, hw, hvw⟩ := getElem?_pointersOf.mp hi
        cases hv.symm.trans hw
        have hv' := List.mem_of_getElem? hv
        rw [isUnset_pointee (hvs v hv') (hset v hv')] at hvw
        cases hvw
        exact ih _ hv' (hvs _ hv')
  | @map es hk hset hes hsorted ih =>
    cases ht with
    | @map kt vt _ hkt hvs =>
      cases vt with
      | message m =>
        have hp : comparedPointers (.map es) (.map es) = some (es.map fun e => (e.2.pointee, e.2.pointee)) := by
          have hm : es.all (fun e => e.2.message?.isSome) = true := by
            rw [List.all_eq_true]
            intro e he
            have hty := hvs e he
            generalize e.2 = u at hty ⊢
            cases hty <;> rfl
          rw [comparedPointers, if_pos ⟨rfl, hm⟩]
          refine congrArg some (List.map_congr_left fun e he => ?_)
          rw [valueAt_of_mem hsorted he]
        refine (same_iff_pointers hp).mpr ⟨fun p hmem => ?_, fun a b hmem => ?_⟩
        · obtain ⟨e, -, rfl⟩ := List.mem_map.mp hmem
          rfl
        · obtain ⟨e, he, heq⟩ := List.mem_map.mp hmem
          rw [isUnset_pointee (hvs e he) (hset e he)] at heq
          cases heq
          exact ih e he (hvs e he)
      | scalar vt =>
        refine same_scalarMap hk fun e he => ?_
        have hreg := hes e he
        have hty := hvs e he
        generalize e.2 = u at hty hreg ⊢
        cases hty
        cases hreg with
        | scalar h => exact .inl ⟨_, rfl, h⟩
      | enum =>
        refine same_scalarMap hk fun e he => ?_
        have hty := hvs e he
        generalize e.2 = u at hty ⊢
        cases hty
        exact .inr ⟨_, rfl⟩

/-! ## Runs -/

section
variable {self : Bool} {step : FieldType M → FieldStep M} {ts : List (FieldType M)} {vs ws : List (Value M)}

theorem runFields_none (h : runFields self step ts vs ws = none) :
    ∃ (i : Nat) (t : FieldType M) (v w : Value M), ts[i]? = some t ∧ vs[i]? = some v ∧ ws[i]? = some w ∧
      step t ⟨self, v, w⟩ = none := by
  induction ts generalizing vs ws with
  | nil => simp [runFields] at h
  | cons t ts ih =>
    match vs, ws with
    | [], _ => simp [runFields] at h
    | _ :: _, [] => simp [runFields] at h
    | v :: vs, w :: ws =>
      rw [runFields] at h
      cases hs : step t ⟨self, v, w⟩ with
      | none => exact ⟨0, t, v, w, rfl, rfl, rfl, hs⟩
      | some p =>
        rw [hs] at h
        obtain ⟨i, t', v', w', ht, hv, hw, hnone⟩ := ih (Option.map_eq_none_iff.mp h)
        exact ⟨i + 1, t', v', w', ht, hv, hw, hnone⟩

theorem runFields_some {rs ss : List (Value M)} (h : runFields self step ts vs ws = some (rs, ss)) :
    rs.length = vs.length ∧ ss.length = ws.length ∧
      ∀ (i : Nat) t v w, ts[i]? = some t → vs[i]? = some v → ws[i]? = some w →
        ∃ p, step t ⟨self, v, w⟩ = some p ∧ rs[i]? = some p.target ∧ ss[i]? = some p.source := by
  induction ts generalizing vs ws rs ss with
  | nil =>
    rw [runFields, Option.some.injEq, Prod.mk.injEq] at h
    · obtain ⟨rfl, rfl⟩ := h
      exact ⟨rfl, rfl, fun i t v w ht => by cases ht⟩
    · simp
  | cons t ts ih =>
    match vs, ws with
    | [], ws =>
      obtain ⟨rfl, rfl⟩ := Prod.mk.inj (Option.some.inj h)
      exact ⟨rfl, rfl, fun i t v w _ hv => by cases hv⟩
    | v :: vs, [] =>
      obtain ⟨rfl, rfl⟩ := Prod.mk.inj (Option.some.inj h)
      exact ⟨rfl, rfl, fun i t v w _ _ hw => by cases hw⟩
    | v :: vs, w :: ws =>
      rw [runFields] at h
      cases hs : step t ⟨self, v, w⟩ with
      | none => simp [hs] at h
      | some p =>
        rw [hs] at h
        obtain ⟨⟨rs', ss'⟩, hrest, heq⟩ := Option.map_eq_some_iff.mp h
        obtain ⟨rfl, rfl⟩ := Prod.mk.inj heq
        obtain ⟨hl, hl', hall⟩ := ih hrest
        refine ⟨congrArg (· + 1) hl, congrArg (· + 1) hl', fun i t' v' w' ht hv hw => ?_⟩
        cases i with
        | zero =>
          cases ht
          cases hv
          cases hw
          exact ⟨p, hs, rfl, rfl⟩
        | succ i => exact hall i t' v' w' ht hv hw

end

/-! ## One field -/

/-- A field of two objects after its statement: equal to what the source had;
copying leaves the source as it was, but for created objects. -/
structure Copied (S : Schema M) (n : Nat) (t : FieldType M) (copying : Bool) (w : Value M) (p : FieldPair M) :
    Prop where
  hasType : HasType S t p.target
  depth : p.target.depth ≤ n
  equal : equalField S (equalObjects S n) t p.target w = some true
  source : copying = true → Grown S n w p.source

/-- The statement is completed and does that, or meets a null pointer. -/
def Arrives (S : Schema M) (n : Nat) (t : FieldType M) (copying : Bool) (v w : Value M) :
    Option (FieldPair M) → Prop
  | none => MeetsNull S v w
  | some p => ¬ MeetsNull S v w ∧ Copied S n t copying w p

section
variable {n : Nat} {t : FieldType M} {v v' w w' : Value M}

theorem equal_source (hw : HasType S t w) (hreg : Regular w) (h : Grown S n w w') :
    equalField S (equalObjects S n) t w' w = some true := by
  have hd := h.1.depth_le.trans h.2
  rw [← equalField_filled h.1 .refl hw hw h.2 hd]
  exact (equalField_tells n hw hw hd hd).1.mpr (same_refl hw hreg)

theorem equal_of_same (hv : HasType S t v') (hw : HasType S t w) (hn : v'.depth ≤ n) (h : Grown S n w w')
    (hsame : v'.same w' = true) : equalField S (equalObjects S n) t v' w = some true := by
  rw [equalField_filled .refl h.1 hv hw hn h.2]
  exact (equalField_tells n hv (h.1.hasType hw) hn h.2).1.mpr (.leaf hsame)

theorem not_meetsNull_property (hm : w.message? = none) : ¬ MeetsNull S v w := by
  intro h
  cases h with
  | here hm' => cases hm.symm.trans hm'
  | inside hm' => cases hm.symm.trans hm'

/-- The value of the source is taken over. -/
theorem copied_value (hw : HasType S t w) (hreg : Regular w) (h' : Grown S n w w') {copying : Bool} {s : Value M}
    (hs : copying = true → Grown S n w s) : Copied S n t copying w ⟨false, w', s⟩ :=
  ⟨h'.1.hasType hw, h'.2, equal_source hw hreg h', hs⟩

theorem copied_write (hv : HasType S t v') (hw : HasType S t w) (hreg : Regular w) (hn : v'.depth ≤ n)
    (h' : Grown S n w w') {copying : Bool} {s : Value M} (hs : copying = true → Grown S n w s) :
    Copied S n t copying w ⟨false, v'.write w', s⟩ := by
  unfold Value.write
  by_cases hsame : v'.same w' = true
  · rw [if_pos hsame]
    exact ⟨hv, hn, equal_of_same hv hw hn h' hsame, hs⟩
  · rw [if_neg hsame]
    exact copied_value hw hreg h' hs

end

/-- The templates of the fields that are not messages. -/
theorem template_property (member : SpecialMember) {t : FieldType M} (ht : ∀ m, t ≠ .single (.message m)) :
    member.template t = .copyField ∨ member.isMove = true ∧ (member.template t = .moveField ∨
      member.template t = .enumMoveField ∨ member.template t = .moveComplexField ∨
      member.template t = .moveComplexFieldConstructor) := by
  cases t with
  | single t =>
    cases t with
    | message m => exact absurd rfl (ht m)
    | scalar t => cases t <;> cases member <;> simp [SpecialMember.template, SpecialMember.isMove]
    | enum => cases member <;> simp [SpecialMember.template, SpecialMember.isMove]
  | _ => cases member <;> simp [SpecialMember.template, SpecialMember.isMove]

section
variable {n : Nat} {left : Value M → Value M → Value M} {v v' w w' : Value M}

theorem property_copied (left : Value M → Value M → Value M)
    (objects : M → List (Value M) → List (Value M) → Option (Compared (List (Value M))))
    (assign : SpecialMember → M → Bool → List (Value M) → List (Value M) →
      Option (List (Value M) × List (Value M)))
    (member : SpecialMember) {t : FieldType M} (ht : ∀ m, t ≠ .single (.message m)) (hv : HasType S t v')
    (hw : HasType S t w) (hreg : Regular w) (hn : v'.depth ≤ n) (h' : Grown S n w w') :
    ∃ p, (member.template t).run S objects assign left t ⟨false, v', w'⟩ = some p ∧
      Copied S n t (!member.isMove) w p := by
  rcases template_property member ht with htem | ⟨hmove, htem | htem | htem | htem⟩
  · rw [htem]
    exact ⟨_, rfl, copied_write hv hw hreg hn h' fun _ => h'⟩
  · rw [htem, hmove]
    exact ⟨_, rfl, copied_write hv hw hreg hn h' nofun⟩
  · rw [htem, hmove]
    exact ⟨_, rfl, copied_value hw hreg h' nofun⟩
  · rw [htem, hmove]
    by_cases hsame : v'.same w' = true
    · refine ⟨_, if_pos (by simp [hsame]), hv, hn, equal_of_same hv hw hn h' hsame, nofun⟩
    · exact ⟨_, if_neg (by simp [hsame]), copied_value hw hreg h' nofun⟩
  · rw [htem, hmove]
    exact ⟨_, rfl, copied_value hw hreg h' nofun⟩

/-- What is proved of the special members of objects by induction. -/
def ObjectsArrive (S : Schema M) (left : Value M → Value M → Value M) (n : Nat) : Prop :=
  ∀ (member : SpecialMember) (m : M) (v w : Value M) (fs gs : List (Value M)),
    HasType S (.single (.message m)) v → HasType S (.single (.message m)) w → Regular w →
    Grown S n (.object m (v.fields S)) (.object m fs) → Grown S n (.object m (w.fields S)) (.object m gs) →
    match runMember S left n member m false fs gs with
    | none => FieldsMeetNull S (v.fields S) (w.fields S)
    | some (rs, ss) => ¬ FieldsMeetNull S (v.fields S) (w.fields S) ∧
        HasType S (.single (.message m)) (.object m rs) ∧ (Value.object m rs).depth ≤ n ∧
        equalObjects S n m rs (w.fields S) = some true ∧
        (member.isMove = false → Grown S n (.object m (w.fields S)) (.object m ss))

theorem filled_fields {m : M} (hv : HasType S (.single (.message m)) v) (h : Filled S v v') :
    Filled S (.object m (v.fields S)) (.object m (v'.fields S)) := by
  induction h with
  | refl => exact .refl
  | @tail x y hx hxy ih =>
    refine ih.trans ?_
    have hty := Filled.hasType hx hv
    cases hty with
    | unset =>
      cases hxy with
      | here => exact .refl
    | object m hl hfs =>
      obtain ⟨gs, rfl⟩ := hxy.of_object
      exact .single hxy

/-- A message field: by the comparison, and the assignment of the objects. -/
theorem assignMessage_arrives (hobjects : ObjectsArrive S left n) (member : SpecialMember) {m : M}
    (hv : HasType S (.single (.message m)) v) (hw : HasType S (.single (.message m)) w) (hreg : Regular w)
    (h : Grown S n v v') (h' : Grown S n w w') :
    Arrives S n (.single (.message m)) (!member.isMove) v w
      (assignMessage S (compareObjects S n) (runMember S left n) member m ⟨false, v', w'⟩) := by
  have hd := h.1.depth_le.trans h.2
  have hd' := h'.1.depth_le.trans h'.2
  have hm : w.message? = some m := by cases hw <;> rfl
  have hlazy := compareLazy_gives (compareObjects_gives n) (h.1.hasType hv) (h'.1.hasType hw) h.2 h'.2
  rw [← equalField_filled h.1 h'.1 hv hw h.2 h'.2] at hlazy
  obtain ⟨htrue, hnone⟩ := equalField_tells n hv hw hd hd'
  rw [assignMessage]
  cases hc : compareLazy S (compareObjects S n) m v' w' with
  | none =>
    rw [hc] at hlazy
    exact .here hm (hnone.mp hlazy)
  | some r =>
    obtain ⟨equal, v₁, w₁⟩ := r
    rw [hc] at hlazy
    obtain ⟨heq, hv₁, hw₁⟩ := hlazy
    have g : Grown S n v v₁ := ⟨h.1.trans hv₁.1, hv₁.2⟩
    have g' : Grown S n w w₁ := ⟨h'.1.trans hw₁.1, hw₁.2⟩
    cases equal with
    | true =>
      have hsame := htrue.mp heq
      refine ⟨fun hnull => ?_, g.1.hasType hv, g.2, ?_, fun _ => g'⟩
      · cases hnull with
        | here _ hnull => exact hsame.not_null hnull
        | inside _ hs => exact hs hsame
      · show equalField S (equalObjects S n) _ v₁ w = some true
        rw [← equalField_filled g.1 .refl hv hw g.2 hd', heq]
    | false =>
      have hne : equalField S (equalObjects S n) (.single (.message m)) v w ≠ some true := by simp [heq]
      have hns : ¬ Same S v w := fun hs => hne (htrue.mpr hs)
      have hnn : ¬ Null S v w := fun hn => absurd (heq.symm.trans (hnone.mpr hn)) (Option.some_ne_none _)
      have hpos := pos_of_unequal hv hw hd hd' hne
      have hfs := grown_fields (g.1.hasType hv) g.2 hpos
      have hgs := grown_fields (g'.1.hasType hw) g'.2 hpos
      have hassign := hobjects member m v w (v₁.fields S) (w₁.fields S) hv hw hreg
        ⟨filled_fields hv g.1, hfs.2⟩ ⟨filled_fields hw g'.1, hgs.2⟩
      show Arrives S n _ _ v w (runMember S left n member m false (v₁.fields S) (w₁.fields S) >>= fun r =>
        some ⟨false, .object m r.1, .object m r.2⟩)
      cases hr : runMember S left n member m false (v₁.fields S) (w₁.fields S) with
      | none =>
        rw [hr] at hassign
        obtain ⟨i, b, hb, hnull⟩ := hassign
        exact .inside hm hns hb hnull
      | some r =>
        obtain ⟨rs, ss⟩ := r
        rw [hr] at hassign
        obtain ⟨hnull, hty, hdepth, hequal, hsource⟩ := hassign
        refine ⟨fun hmeets => ?_, hty, hdepth, ?_, fun hcopy => ?_⟩
        · cases hmeets with
          | here _ hn => exact hnn hn
          | inside _ _ hb hn => exact hnull ⟨_, _, hb, hn⟩
        · exact (equalField_object hw).1.trans hequal
        · have hs := hsource (by simpa using hcopy)
          exact ⟨(grown_fields hw hd' hpos).1.trans hs.1, hs.2⟩

/-- **One field.** Its statement leaves it equal to the other one, unless a
comparison dereferences a null pointer. -/
theorem runField_arrives (hobjects : ObjectsArrive S left n) (member : SpecialMember) {t : FieldType M}
    (hv : HasType S t v) (hw : HasType S t w) (hreg : Regular w) (h : Grown S n v v') (h' : Grown S n w w') :
    Arrives S n t (!member.isMove) v w
      ((member.template t).run S (compareObjects S n) (runMember S left n) left t ⟨false, v', w'⟩) := by
  by_cases ht : ∃ m, t = .single (.message m)
  · obtain ⟨m, rfl⟩ := ht
    cases member with
    | copyConstructor => exact assignMessage_arrives hobjects .copyAssignment hv hw hreg h h'
    | copyAssignment => exact assignMessage_arrives hobjects .copyAssignment hv hw hreg h h'
    | moveConstructor => exact assignMessage_arrives hobjects .moveAssignment hv hw hreg h h'
    | moveAssignment => exact assignMessage_arrives hobjects .moveAssignment hv hw hreg h h'
  · have ht' : ∀ m, t ≠ .single (.message m) := fun m hm => ht ⟨m, hm⟩
    obtain ⟨p, hp, hcopied⟩ := property_copied left (compareObjects S n) (runMember S left n) member ht'
      (h.1.hasType hv) hw hreg h.2 h'
    rw [hp]
    refine ⟨not_meetsNull_property ?_, hcopied⟩
    cases hw with
    | unset m => exact absurd rfl (ht' m)
    | object m => exact absurd rfl (ht' m)
    | _ => rfl

/-- The fields of an object and of the same object with created ones. -/
theorem filled_of_object {m : M} {fs : List (Value M)} {u : Value M} (h : Filled S (.object m fs) u) :
    ∃ gs, u = .object m gs ∧ fs.length = gs.length ∧
      ∀ (i : Nat) x y, fs[i]? = some x → gs[i]? = some y → Filled S x y := by
  induction h with
  | refl =>
    refine ⟨fs, rfl, rfl, fun i x y hx hy => ?_⟩
    cases hx.symm.trans hy
    exact .refl
  | tail _ hc ih =>
    obtain ⟨gs, rfl, hl, hall⟩ := ih
    cases hc with
    | @field _ _ j x' y' hj hxy =>
      refine ⟨_, rfl, hl.trans (List.length_set).symm, fun i x y hx hy => ?_⟩
      by_cases hij : j = i
      · subst hij
        rw [List.getElem?_set_self (List.getElem?_eq_some_iff.mp hj).1] at hy
        cases hy
        exact (hall j x x' hx hj).tail hxy
      · rw [List.getElem?_set_ne hij] at hy
        exact hall i x y hx hy

theorem filled_get {m : M} {fs gs : List (Value M)} (h : Filled S (.object m fs) (.object m gs)) :
    fs.length = gs.length ∧ ∀ (i : Nat) x y, fs[i]? = some x → gs[i]? = some y → Filled S x y := by
  obtain ⟨gs', heq, hall⟩ := filled_of_object h
  cases heq
  exact hall

theorem regular_default (t : FieldType M) : Regular t.default := by
  cases t with
  | single t =>
    cases t with
    | scalar t =>
      refine .scalar ?_
      cases t with
      | num t =>
        intro inf h
        cases t <;> cases h <;> simp
      | _ => trivial
    | enum => exact .enum 0
    | message m => exact .unset m
  | nums t => exact .nums (by simp)
  | strings => exact .strings []
  | byteArrays => exact .byteArrays []
  | enums => exact .enums []
  | messages m => exact .messages (by simp) (by simp)
  | map kt vt => exact .map (by simp) (by simp) (by simp) .nil

theorem regular_fields {w : Value M} (h : Regular w) : ∀ b ∈ w.fields S, Regular b := by
  cases h with
  | unset m =>
    intro b hb
    obtain ⟨t, -, rfl⟩ := List.mem_map.mp hb
    exact regular_default t
  | object m h => exact h
  | _ => exact fun b hb => absurd hb List.not_mem_nil

/-- The fields of two objects after their statements. -/
structure FieldsCopied (S : Schema M) (n : Nat) (m : M) (copying : Bool) (as bs rs ss : List (Value M)) : Prop where
  target : rs.length = (S m).properties.length
  source : ss.length = (S m).properties.length
  copied : ∀ (i : Nat) t a b, (S m).properties[i]? = some t → as[i]? = some a → bs[i]? = some b →
    ∃ p, rs[i]? = some p.target ∧ ss[i]? = some p.source ∧ ¬ MeetsNull S a b ∧ Copied S n t copying b p

section
variable {m : M} {copying : Bool} {as bs fs gs rs ss : List (Value M)}

theorem FieldsCopied.not_meetsNull (h : FieldsCopied S n m copying as bs rs ss)
    (ha : HasType S (.single (.message m)) (.object m as)) (hb : HasType S (.single (.message m)) (.object m bs)) :
    ¬ FieldsMeetNull S as bs := by
  rintro ⟨i, b, hbi, hnull⟩
  obtain ⟨t, ht, -⟩ := hb.property hbi
  obtain ⟨a, hai, -, -⟩ := ha.field ht
  obtain ⟨p, -, -, hnot, -⟩ := h.copied i t a b ht hai hbi
  rw [List.getD_eq_getElem?_getD, hai] at hnull
  exact hnot hnull

/-- A field of the target. -/
theorem FieldsCopied.target_field (h : FieldsCopied S n m copying as bs rs ss)
    (ha : HasType S (.single (.message m)) (.object m as)) (hb : HasType S (.single (.message m)) (.object m bs))
    {i : Nat} {t : FieldType M} {r : Value M} (ht : (S m).properties[i]? = some t) (hr : rs[i]? = some r) :
    HasType S t r ∧ r.depth ≤ n ∧ ∀ b, bs[i]? = some b → equalField S (equalObjects S n) t r b = some true := by
  obtain ⟨a, hai, -, -⟩ := ha.field ht
  obtain ⟨b, hbi, -, -⟩ := hb.field ht
  obtain ⟨p, hpr, -, -, hc⟩ := h.copied i t a b ht hai hbi
  cases hr.symm.trans hpr
  refine ⟨hc.hasType, hc.depth, fun b' hb' => ?_⟩
  cases hbi.symm.trans hb'
  exact hc.equal

/-- The target has the value of the source. -/
theorem FieldsCopied.target_object (h : FieldsCopied S n m copying as bs rs ss)
    (ha : HasType S (.single (.message m)) (.object m as)) (hb : HasType S (.single (.message m)) (.object m bs)) :
    HasType S (.single (.message m)) (.object m rs) ∧ (Value.object m rs).depth ≤ n + 1 ∧
      equalObjects S (n + 1) m rs bs = some true := by
  have htype : HasType S (.single (.message m)) (.object m rs) :=
    .object m h.target fun i t r ht hr => (h.target_field ha hb ht hr).1
  refine ⟨htype, ?_, ?_⟩
  · rw [depth_object, Nat.succ_le_succ_iff, depths_le]
    intro r hmem
    obtain ⟨i, hr⟩ := List.mem_iff_getElem?.mp hmem
    obtain ⟨t, ht, -⟩ := htype.property hr
    exact (h.target_field ha hb ht hr).2.1
  · rw [equalObjects, equalEach_eq_true]
    exact fun i t r b ht hr hb' => (h.target_field ha hb ht hr).2.2 b hb'

/-- Copying leaves the source as it was, but for created objects. -/
theorem FieldsCopied.grown (h : FieldsCopied S n m true as bs rs ss)
    (ha : HasType S (.single (.message m)) (.object m as)) (hb : HasType S (.single (.message m)) (.object m bs)) :
    Grown S (n + 1) (.object m bs) (.object m ss) := by
  have hsource : ∀ (i : Nat) b s, bs[i]? = some b → ss[i]? = some s → Grown S n b s := by
    intro i b s hbi hs
    obtain ⟨t, ht, -⟩ := hb.property hbi
    obtain ⟨a, hai, -, -⟩ := ha.field ht
    obtain ⟨p, -, hps, -, hc⟩ := h.copied i t a b ht hai hbi
    cases hs.symm.trans hps
    exact hc.source rfl
  have hl : bs.length = ss.length := by
    cases hb with
    | object _ hl _ => exact hl.trans h.source.symm
  refine ⟨filled_object (List.forall₂_iff_get.mpr ⟨hl, fun i hi hi' => ?_⟩), ?_⟩
  · exact (hsource i _ _ (List.getElem?_eq_getElem hi) (List.getElem?_eq_getElem hi')).1
  · rw [depth_object, Nat.succ_le_succ_iff, depths_le]
    intro x hmem
    obtain ⟨i, hx⟩ := List.mem_iff_getElem?.mp hmem
    have hi := (List.getElem?_eq_some_iff.mp hx).1
    exact (hsource i _ x (List.getElem?_eq_getElem (hl ▸ hi)) hx).2

/-- The statements of all fields, from what each of them does. -/
theorem runFields_arrives {step : FieldType M → FieldPair M → Option (FieldPair M)}
    (ha : HasType S (.single (.message m)) (.object m as)) (hb : HasType S (.single (.message m)) (.object m bs))
    (hf : HasType S (.single (.message m)) (.object m fs)) (hg : HasType S (.single (.message m)) (.object m gs))
    (h : ∀ (i : Nat) t a b f g, (S m).properties[i]? = some t → as[i]? = some a → bs[i]? = some b →
      fs[i]? = some f → gs[i]? = some g → Arrives S n t copying a b (step t ⟨false, f, g⟩)) :
    match runFields false step (S m).properties fs gs with
    | none => FieldsMeetNull S as bs
    | some (rs, ss) => FieldsCopied S n m copying as bs rs ss := by
  cases hr : runFields false step (S m).properties fs gs with
  | none =>
    obtain ⟨i, t, f, g, ht, hfi, hgi, hnone⟩ := runFields_none hr
    obtain ⟨a, hai, -, -⟩ := ha.field ht
    obtain ⟨b, hbi, -, -⟩ := hb.field ht
    have harrives := h i t a b f g ht hai hbi hfi hgi
    rw [hnone] at harrives
    refine ⟨i, b, hbi, ?_⟩
    rw [List.getD_eq_getElem?_getD, hai]
    exact harrives
  | some r =>
    obtain ⟨rs, ss⟩ := r
    obtain ⟨hlr, hls, hall⟩ := runFields_some hr
    have hlf : fs.length = (S m).properties.length := by
      cases hf with
      | object _ hl _ => exact hl
    have hlg : gs.length = (S m).properties.length := by
      cases hg with
      | object _ hl _ => exact hl
    refine ⟨hlr.trans hlf, hls.trans hlg, fun i t a b ht hai hbi => ?_⟩
    obtain ⟨f, hfi, -, -⟩ := hf.field ht
    obtain ⟨g, hgi, -, -⟩ := hg.field ht
    obtain ⟨p, hp, hpr, hps⟩ := hall i t f g ht hfi hgi
    have harrives := h i t a b f g ht hai hbi hfi hgi
    rw [hp] at harrives
    exact ⟨p, hpr, hps, harrives⟩

end

/-- **An object.** Its fields, one after the other. -/
theorem runMember_arrives (S : Schema M) (left : Value M → Value M → Value M) (n : Nat) :
    ObjectsArrive S left n := by
  induction n with
  | zero =>
    intro member m v w fs gs _ _ _ h
    have hd := h.2
    simp at hd
  | succ n ih =>
    intro member m v w fs gs hv hw hreg h h'
    have htv := hasType_fields hv
    have htw := hasType_fields hw
    have hfill := (filled_get h.1).2
    have hfill' := (filled_get h'.1).2
    have hdepth := h.2
    have hdepth' := h'.2
    rw [depth_object, Nat.succ_le_succ_iff, depths_le] at hdepth hdepth'
    have hregw := regular_fields (S := S) hreg
    have harrives := runFields_arrives htv htw (Filled.hasType h.1 htv) (Filled.hasType h'.1 htw)
      (fun i t a b f g ht ha hb hf hg => runField_arrives ih member (htv.get ht ha) (htw.get ht hb)
        (hregw b (List.mem_of_getElem? hb)) ⟨hfill i a f ha hf, hdepth f (List.mem_of_getElem? hf)⟩
        ⟨hfill' i b g hb hg, hdepth' g (List.mem_of_getElem? hg)⟩)
    rw [runMember]
    revert harrives
    cases runFields false (fun t => (member.template t).run S (compareObjects S n) (runMember S left n) left t)
        (S m).properties fs gs with
    | none => exact id
    | some r =>
      intro hdone
      refine ⟨hdone.not_meetsNull htv htw, (hdone.target_object htv htw).1, (hdone.target_object htv htw).2.1,
        (hdone.target_object htv htw).2.2, fun hcopy => ?_⟩
      rw [hcopy] at hdone
      exact hdone.grown htv htw

end

/-! ## An object and itself -/

/-- A statement of an object that is assigned to itself. -/
theorem runField_self {n : Nat} (left : Value M → Value M → Value M)
    (assign : SpecialMember → M → Bool → List (Value M) → List (Value M) →
      Option (List (Value M) × List (Value M)))
    {member : SpecialMember} (hm : member = .copyAssignment ∨ member = .moveAssignment)
    {t : FieldType M} {v : Value M} (hv : HasType S t v) (hreg : Regular v) (hn : v.depth ≤ n) :
    ∃ r, (member.template t).run S (compareObjects S n) assign left t ⟨true, v, v⟩ = some ⟨true, r, r⟩ ∧
      HasType S t r ∧ r.depth ≤ n ∧ equalField S (equalObjects S n) t r v = some true := by
  have hself : equalField S (equalObjects S n) t v v = some true := equal_source hv hreg ⟨.refl, hn⟩
  have hmessage : ∀ m, t = .single (.message m) → ∀ member',
      ∃ r, assignMessage S (compareObjects S n) assign member' m ⟨true, v, v⟩ = some ⟨true, r, r⟩ ∧
        HasType S t r ∧ r.depth ≤ n ∧ equalField S (equalObjects S n) t r v = some true := by
    rintro m rfl member'
    have hlazy := compareLazy_gives (compareObjects_gives n) hv hv hn hn
    rw [hself] at hlazy
    rw [assignMessage]
    cases hc : compareLazy S (compareObjects S n) m v v with
    | none =>
      rw [hc] at hlazy
      cases hlazy
    | some r =>
      obtain ⟨equal, v₁, w₁⟩ := r
      rw [hc] at hlazy
      obtain ⟨heq, -, hw₁⟩ := hlazy
      cases heq
      exact ⟨w₁, rfl, hw₁.1.hasType hv, hw₁.2, equal_source hv hreg hw₁⟩
  have hdefault : ∀ d : Value M, HasType S t d → d.depth ≤ n → HasType S t (d.write v) ∧ (d.write v).depth ≤ n ∧
      equalField S (equalObjects S n) t (d.write v) v = some true := by
    intro d hd hdn
    have hw : Copied S n t false v ⟨false, d.write v, v⟩ := copied_write hd hv hreg hdn ⟨.refl, hn⟩ nofun
    exact ⟨hw.hasType, hw.depth, hw.equal⟩
  by_cases ht : ∃ m, t = .single (.message m)
  · obtain ⟨m, rfl⟩ := ht
    rcases hm with rfl | rfl
    · exact hmessage m rfl .copyAssignment
    · exact hmessage m rfl .moveAssignment
  · rcases template_property member fun m heq => ht ⟨m, heq⟩ with htem | ⟨-, htem | htem | htem | htem⟩
    · rw [htem]
      exact ⟨_, rfl, hdefault v hv hn⟩
    · rw [htem]
      exact ⟨_, rfl, hdefault t.default (hasType_default t) (by simp [depth_default])⟩
    · rw [htem]
      exact ⟨v, rfl, hv, hn, hself⟩
    · rw [htem]
      exact ⟨v, rfl, hv, hn, hself⟩
    · rcases hm with rfl | rfl
      · cases t with
        | single t => cases t <;> cases htem
        | _ => cases htem
      · cases t with
        | single t =>
          cases t with
          | scalar t => cases t <;> cases htem
          | _ => cases htem
        | _ => cases htem

/-- **Self-assignment.** The object has the value it had. -/
theorem runMember_self (left : Value M → Value M → Value M) {n : Nat} {member : SpecialMember}
    (hm : member = .copyAssignment ∨ member = .moveAssignment) {m : M} {a : List (Value M)}
    (ha : HasType S (.single (.message m)) (.object m a)) (hreg : Regular (.object m a))
    (hn : (Value.object m a).depth ≤ n) :
    ∃ r, runMember S left n member m true a a = some (r, r) ∧
      HasType S (.single (.message m)) (.object m r) ∧ (Value.object m r).depth ≤ n ∧
      equalObjects S n m r a = some true := by
  cases n with
  | zero => simp at hn
  | succ n =>
    rw [depth_object, Nat.succ_le_succ_iff, depths_le] at hn
    have hrega : ∀ v ∈ a, Regular v := regular_fields (S := S) hreg
    have hla : a.length = (S m).properties.length := by
      cases ha with
      | object _ hl _ => exact hl
    have hfield := fun i t v (ht : (S m).properties[i]? = some t) (hv : a[i]? = some v) =>
      runField_self left (runMember S left n) hm (ha.get ht hv)
        (hrega v (List.mem_of_getElem? hv)) (hn v (List.mem_of_getElem? hv))
    rw [runMember]
    cases hr : runFields true (fun t => (member.template t).run S (compareObjects S n) (runMember S left n) left t)
        (S m).properties a a with
    | none =>
      obtain ⟨i, t, v, w, ht, hv, hw, hnone⟩ := runFields_none hr
      cases hv.symm.trans hw
      obtain ⟨r, hrun, -⟩ := hfield i t v ht hv
      rw [hrun] at hnone
      cases hnone
    | some r =>
      obtain ⟨rs, ss⟩ := r
      obtain ⟨hlr, hls, hall⟩ := runFields_some hr
      have hdone : ∀ (i : Nat) t x, (S m).properties[i]? = some t → rs[i]? = some x → ss[i]? = some x ∧
          HasType S t x ∧ x.depth ≤ n ∧
            ∀ v, a[i]? = some v → equalField S (equalObjects S n) t x v = some true := by
        intro i t x ht hx
        have hi : i < a.length := hlr ▸ (List.getElem?_eq_some_iff.mp hx).1
        have hv := List.getElem?_eq_getElem hi
        obtain ⟨r, hrun, hty, hd, heq⟩ := hfield i t _ ht hv
        obtain ⟨p, hp, hpr, hps⟩ := hall i t _ _ ht hv hv
        cases hrun.symm.trans hp
        cases hx.symm.trans hpr
        refine ⟨hps, hty, hd, fun v hv' => ?_⟩
        cases hv.symm.trans hv'
        exact heq
      have hprop : ∀ {i : Nat} {x : Value M}, rs[i]? = some x → ∃ t, (S m).properties[i]? = some t := fun hx =>
        ⟨_, List.getElem?_eq_getElem (hla ▸ hlr ▸ (List.getElem?_eq_some_iff.mp hx).1)⟩
      have hsame : ss = rs := by
        refine List.ext_getElem (hls.trans hlr.symm) fun i hi hi' => ?_
        have hx := List.getElem?_eq_getElem hi'
        obtain ⟨t, ht⟩ := hprop hx
        have hs := (hdone i t _ ht hx).1
        rw [List.getElem?_eq_getElem hi] at hs
        exact Option.some.inj hs
      subst hsame
      refine ⟨ss, rfl, .object m (hlr.trans hla) fun i t x ht hx => (hdone i t x ht hx).2.1, ?_, ?_⟩
      · rw [depth_object, Nat.succ_le_succ_iff, depths_le]
        intro x hmem
        obtain ⟨i, hx⟩ := List.mem_iff_getElem?.mp hmem
        obtain ⟨t, ht⟩ := hprop hx
        exact (hdone i t x ht hx).2.2.1
      · rw [equalObjects, equalEach_eq_true]
        exact fun i t x v ht hx hv => (hdone i t x ht hx).2.2.2 v hv

/-! ## Constructors -/

/-- A new object before the body of a constructor: pointers are null, and members
of class types are default-constructed; numbers, booleans and enumerators are not
initialised. -/
def Fresh (S : Schema M) (m : M) (raw : List (Value M)) : Prop :=
  HasType S (.single (.message m)) (.object m raw) ∧
    ∀ (i : Nat) t v, (S m).properties[i]? = some t → raw[i]? = some v →
      v = t.default ∨ t = .single .enum ∨ (∃ n, t = .single (.scalar (.num n))) ∨ t = .single (.scalar .bool)

/-- Nothing is compared with an unset message through null pointers. -/
theorem not_meetsNull_unset {t : FieldType M} {v w : Value M} (hw : HasType S t w) (h : MeetsNull S v w)
    {m : M} (hv : v = .unset m) : t ≠ .single (.message m) := by
  induction h generalizing t m with
  | here hm hnull =>
    subst hv
    cases hnull with
    | pointer hp => cases hp
    | pointee hp => cases hp
  | @inside v w m' i b hm hs hb h ih =>
    subst hv
    rintro rfl
    have hty := hasType_fields hw
    obtain ⟨t, ht⟩ : ∃ t, (S m).properties[i]? = some t := by
      cases hty with
      | object _ hl _ => exact ⟨_, List.getElem?_eq_getElem (hl ▸ (List.getElem?_eq_some_iff.mp hb).1)⟩
    have hd : ((Value.unset m).fields S).getD i b = t.default := by
      rw [List.getD_eq_getElem?_getD, Value.fields, newObject, List.getElem?_map, ht]
      rfl
    rw [hd] at h ih
    have hbt := hty.get ht hb
    have hmsg : ∃ m'', t = .single (.message m'') := by
      have hsome : ∃ m'', b.message? = some m'' := by
        cases h with
        | here hm => exact ⟨_, hm⟩
        | inside hm => exact ⟨_, hm⟩
      obtain ⟨m'', hm''⟩ := hsome
      cases hbt with
      | unset => exact ⟨_, rfl⟩
      | object => exact ⟨_, rfl⟩
      | _ => cases hm''
    obtain ⟨m'', rfl⟩ := hmsg
    exact ih hbt rfl rfl

theorem Fresh.not_meetNull {m : M} {raw a : List (Value M)} (h : Fresh S m raw)
    (ha : HasType S (.single (.message m)) (.object m a)) : ¬ FieldsMeetNull S raw a := by
  rintro ⟨i, b, hb, hnull⟩
  obtain ⟨t, ht⟩ : ∃ t, (S m).properties[i]? = some t := by
    cases ha with
    | object _ hl _ => exact ⟨_, List.getElem?_eq_getElem (hl ▸ (List.getElem?_eq_some_iff.mp hb).1)⟩
  obtain ⟨v, hv, hvt, -⟩ := h.1.field ht
  rw [List.getD_eq_getElem?_getD, hv, Option.getD_some] at hnull
  have hbt := ha.get ht hb
  by_cases hm : b.message? = none
  · exact not_meetsNull_property hm hnull
  · have hmsg : ∃ m', t = .single (.message m') := by
      cases hbt with
      | unset => exact ⟨_, rfl⟩
      | object => exact ⟨_, rfl⟩
      | _ => exact absurd rfl hm
    obtain ⟨m', rfl⟩ := hmsg
    rcases h.2 i _ v ht hv with rfl | heq | ⟨_, heq⟩ | heq
    · exact not_meetsNull_unset hbt hnull rfl rfl
    all_goals cases heq

/-! ## What is asked for -/

/-- The generated `operator ==`, of two objects. -/
def equalTo (S : Schema M) (n : Nat) (m : M) (fs gs : List (Value M)) : Option Bool :=
  (compareObjects S n m fs gs).map Prod.fst

/-- The run comes to its end; the target is equal to `a`, and copying leaves the
source equal to `a`. -/
def Preserves (S : Schema M) (m : M) (a : List (Value M)) (member : SpecialMember)
    (run : Nat → Option (List (Value M) × List (Value M))) : Prop :=
  ∃ N, ∀ n, N ≤ n → ∃ target source, run n = some (target, source) ∧
    equalTo S n m target a = some true ∧ (member.isMove = false → equalTo S n m source a = some true)

theorem equalTo_of_equal {n : Nat} {m : M} {fs gs : List (Value M)}
    (hf : HasType S (.single (.message m)) (.object m fs)) (hg : HasType S (.single (.message m)) (.object m gs))
    (hn : (Value.object m fs).depth ≤ n) (hn' : (Value.object m gs).depth ≤ n)
    (h : equalObjects S n m fs gs = some true) : equalTo S n m fs gs = some true := by
  have hgives := compareObjects_gives n m fs gs hf hg hn hn'
  rw [h] at hgives
  unfold equalTo
  cases hc : compareObjects S n m fs gs with
  | none =>
    rw [hc] at hgives
    cases hgives
  | some r =>
    rw [hc] at hgives
    obtain ⟨heq, -⟩ := hgives
    rw [Option.map_some, heq]

section
variable (left : Value M → Value M → Value M) {m : M} {a : List (Value M)}

/-- Two objects: exactly if no comparison meets a null pointer. -/
theorem preserves_apart_iff (member : SpecialMember) (ha : HasType S (.single (.message m)) (.object m a))
    (hreg : Regular (.object m a)) {old : List (Value M)}
    (hold : HasType S (.single (.message m)) (.object m old)) :
    Preserves S m a member (fun n => runMember S left n member m false old a) ↔ ¬ FieldsMeetNull S old a := by
  have harrives := fun n hn hn' => runMember_arrives S left n member m (.object m old) (.object m a) old a
    hold ha hreg ⟨.refl, hn⟩ ⟨.refl, hn'⟩
  constructor
  · rintro ⟨N, hN⟩
    let n := max N (max (Value.object m old).depth (Value.object m a).depth)
    obtain ⟨target, source, hrun, -⟩ := hN n (by omega)
    have h := harrives n (by omega) (by omega)
    have hrun : runMember S left n member m false old a = some (target, source) := hrun
    rw [hrun] at h
    exact h.1
  · intro hnull
    refine ⟨max (Value.object m old).depth (Value.object m a).depth, fun n hn => ?_⟩
    have hdepth : (Value.object m a).depth ≤ n := by omega
    have h := harrives n (by omega) hdepth
    cases hr : runMember S left n member m false old a with
    | none =>
      rw [hr] at h
      exact absurd h hnull
    | some r =>
      obtain ⟨target, source⟩ := r
      rw [hr] at h
      obtain ⟨-, hty, hd, hequal, hsource⟩ := h
      refine ⟨target, source, hr, equalTo_of_equal hty ha hd hdepth hequal, fun hcopy => ?_⟩
      have hgrown := hsource hcopy
      refine equalTo_of_equal (hgrown.1.hasType ha) ha hgrown.2 hdepth ?_
      exact equal_source ha hreg hgrown

theorem preserves_self {member : SpecialMember} (hm : member = .copyAssignment ∨ member = .moveAssignment)
    (ha : HasType S (.single (.message m)) (.object m a)) (hreg : Regular (.object m a)) :
    Preserves S m a member (fun n => runMember S left n member m true a a) := by
  refine ⟨(Value.object m a).depth, fun n hn => ?_⟩
  obtain ⟨r, hrun, hty, hd, hequal⟩ := runMember_self left hm ha hreg hn
  have hto := equalTo_of_equal hty ha hd hn hequal
  exact ⟨r, r, hrun, hto, fun _ => hto⟩

end

end QtProtobuf.Codec
