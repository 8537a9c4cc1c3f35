import QtProtobuf.L2Codec.LazyCompare

/-!
# What a comparison leaves

A comparison creates the objects behind the pointers that it dereferences
(`protobuf/qprotobuflazymessagepointer.h:45-50`), and dereferences them twice
where the first time was not equal (`generator/templates.cpp:158-160`).

* `compareMessage_gives`: the second comparison has the answer of the first one.
* `compareObjects_gives`: the code gives the answer of `equalObjects`, and leaves
  both operands as they were but for created objects.
-/
namespace QtProtobuf.Codec

variable {M : Type} {S : Schema M}

/-! ## What a comparison leaves -/

/-- The answer is that one, and the operands become related ones. -/
def Gives {α : Type} (R R' : α → α → Prop) (v w : α) (answer : Option Bool) : Option (Compared α) → Prop
  | none => answer = none
  | some (equal, v', w') => answer = some equal ∧ R v v' ∧ R' w w'

theorem Gives.map {α β : Type} {R R' : α → α → Prop} {Q Q' : β → β → Prop} {v w : α} {x y : β}
    {answer : Option Bool} {c : Option (Compared α)} (h : Gives R R' v w answer c) {f g : α → β}
    (hf : ∀ v', R v v' → Q x (f v')) (hg : ∀ w', R' w w' → Q' y (g w')) :
    Gives Q Q' x y answer (c.map fun r => (r.1, f r.2.1, g r.2.2)) := by
  cases c with
  | none => exact h
  | some r => exact ⟨h.1, hf _ h.2.1, hg _ h.2.2⟩

theorem compareEach_gives {α : Type} {one : α → Value M → Value M → Option Bool}
    {compare : α → Value M → Value M → Option (Compared (Value M))} {R : Value M → Value M → Prop}
    {as : List α} {vs ws : List (Value M)} (hv : ∀ v ∈ vs, R v v) (hw : ∀ w ∈ ws, R w w)
    (h : ∀ (i : Nat) a v w, as[i]? = some a → vs[i]? = some v → ws[i]? = some w →
      Gives R R v w (one a v w) (compare a v w)) :
    Gives (List.Forall₂ R) (List.Forall₂ R) vs ws (equalEach one as vs ws) (compareEach compare as vs ws) := by
  induction as generalizing vs ws with
  | nil =>
    rw [compareEach]
    · exact ⟨rfl, List.forall₂_same.mpr hv, List.forall₂_same.mpr hw⟩
    · simp
  | cons a as ih =>
    match vs, ws with
    | [], ws => exact ⟨rfl, .nil, List.forall₂_same.mpr hw⟩
    | v :: vs, [] => exact ⟨rfl, List.forall₂_same.mpr hv, .nil⟩
    | v :: vs, w :: ws =>
      have hone := h 0 a v w rfl rfl rfl
      have hvs : List.Forall₂ R vs vs := List.forall₂_same.mpr fun v hv' => hv v (List.mem_cons_of_mem _ hv')
      have hws : List.Forall₂ R ws ws := List.forall₂_same.mpr fun w hw' => hw w (List.mem_cons_of_mem _ hw')
      have hrest := ih (fun v hv' => hv v (List.mem_cons_of_mem _ hv'))
        (fun w hw' => hw w (List.mem_cons_of_mem _ hw')) fun i => h (i + 1)
      rw [equalEach, compareEach]
      cases hc : compare a v w with
      | none =>
        rw [hc] at hone
        have hnone : one a v w = none := hone
        rw [hnone]
        rfl
      | some r =>
        obtain ⟨equal, v', w'⟩ := r
        rw [hc] at hone
        obtain ⟨heq, hv', hw'⟩ := hone
        rw [heq]
        cases equal with
        | false => exact ⟨rfl, .cons hv' hvs, .cons hw' hws⟩
        | true => exact hrest.map (fun _ h => List.Forall₂.cons hv' h) fun _ h => List.Forall₂.cons hw' h

/-- With created objects, at most `n` inside one another. -/
def Grown (S : Schema M) (n : Nat) (v v' : Value M) : Prop := Filled S v v' ∧ v'.depth ≤ n

/-- What a pointer of a list or a map leads to, with created objects inside. -/
def GrownPointee (S : Schema M) (n : Nat) (v v' : Value M) : Prop :=
  Grown S n v v' ∧ (v = v' ∨ v.isUnset = false)

theorem forall₂_right {R : Value M → Value M → Prop} {P : Value M → Prop} (hP : ∀ v w, R v w → P w)
    {vs ws : List (Value M)} (h : List.Forall₂ R vs ws) : ∀ w ∈ ws, P w := by
  induction h with
  | nil => simp
  | cons hvw _ ih => exact List.forall_mem_cons.mpr ⟨hP _ _ hvw, ih⟩

theorem filled_context (context : List (Value M) → Value M) {P : Value M → Prop}
    (hP : ∀ v w, P v → Creates S v w → P w)
    (hc : ∀ before v w after, P v → Creates S v w →
      Creates S (context (before ++ v :: after)) (context (before ++ w :: after)))
    {vs ws : List (Value M)} (h : List.Forall₂ (fun v w => v = w ∨ P v ∧ Filled S v w) vs ws)
    (before : List (Value M)) : Filled S (context (before ++ vs)) (context (before ++ ws)) := by
  induction h generalizing before with
  | nil => exact .refl
  | @cons v w vs ws h _ ih =>
    have hhead : Filled S (context (before ++ v :: vs)) (context (before ++ w :: vs)) := by
      rcases h with rfl | ⟨hv, hf⟩
      · exact .refl
      · have hrun : P w ∧ Filled S (context (before ++ v :: vs)) (context (before ++ w :: vs)) := by
          induction hf with
          | refl => exact ⟨hv, .refl⟩
          | tail _ h ih => exact ⟨hP _ _ ih.1 h, ih.2.tail (hc _ _ _ _ ih.1 h)⟩
        exact hrun.2
    have hrest := ih (before ++ [w])
    rw [List.append_assoc, List.append_assoc] at hrest
    exact hhead.trans hrest

theorem set_append_cons {α : Type} (before after : List α) (v w : α) :
    (before ++ v :: after).set before.length w = before ++ w :: after := by simp

theorem getElem?_append_cons {α : Type} (before after : List α) (v : α) :
    (before ++ v :: after)[before.length]? = some v := by simp

theorem filled_object {m : M} {fs gs : List (Value M)} (h : List.Forall₂ (Filled S) fs gs) :
    Filled S (.object m fs) (.object m gs) := by
  refine filled_context (.object m) (P := fun _ => True) (fun _ _ _ _ => trivial)
    (fun before v w after _ hc => ?_) (h.imp fun v w hf => .inr ⟨trivial, hf⟩) []
  have hfield := Creates.field (m := m) (getElem?_append_cons before after v) hc
  rwa [set_append_cons] at hfield

theorem Creates.of_object {m : M} {fs : List (Value M)} {w : Value M} (h : Creates S (.object m fs) w) :
    ∃ gs, w = .object m gs := by
  cases h with
  | field => exact ⟨_, rfl⟩

theorem filled_messages {vs ws : List (Value M)} (m : M)
    (h : List.Forall₂ (fun v w => v = w ∨ (∃ fs, v = .object m fs) ∧ Filled S v w) vs ws) :
    Filled S (.messages vs) (.messages ws) := by
  refine filled_context .messages (P := fun v => ∃ fs, v = .object m fs) ?_ ?_ h []
  · rintro v w ⟨fs, rfl⟩ hc
    exact hc.of_object
  · rintro before v w after ⟨fs, rfl⟩ hc
    obtain ⟨gs, rfl⟩ := hc.of_object
    have helement := Creates.element (getElem?_append_cons before after _) hc
    rwa [set_append_cons] at helement

theorem grown_messages {n : Nat} {m : M} {vs ws : List (Value M)}
    (hvs : ∀ v ∈ vs, HasType S (.single (.message m)) v) (h : List.Forall₂ (GrownPointee S n) vs ws) :
    Grown S n (.messages vs) (.messages ws) := by
  constructor
  · refine filled_messages m (List.Forall₂.imp (fun v w hvw => ?_) ((List.forall₂_and_left vs ws).mpr ⟨hvs, h⟩))
    obtain ⟨hty, ⟨hf, -⟩, rfl | hset⟩ := hvw
    · exact .inl rfl
    · cases hty with
      | unset => cases hset
      | object => exact .inr ⟨⟨_, rfl⟩, hf⟩
  · exact depths_le.mpr (forall₂_right (fun _ _ hg => hg.1.2) h)

/-- What is proved of `operator ==` of objects by induction. -/
def ObjectsGive (S : Schema M) (n : Nat) : Prop :=
  ∀ m fs gs, HasType S (.single (.message m)) (.object m fs) →
    HasType S (.single (.message m)) (.object m gs) →
    (Value.object m fs).depth ≤ n → (Value.object m gs).depth ≤ n →
    Gives (fun fs fs' => Grown S n (.object m fs) (.object m fs'))
      (fun gs gs' => Grown S n (.object m gs) (.object m gs')) fs gs
      (equalObjects S n m fs gs) (compareObjects S n m fs gs)

theorem compareInside_gives {n : Nat} (hobjects : ObjectsGive S n) {m : M} {fs gs : List (Value M)}
    (hf : HasType S (.single (.message m)) (.object m fs)) (hg : HasType S (.single (.message m)) (.object m gs))
    (hn : (Value.object m fs).depth ≤ n) (hn' : (Value.object m gs).depth ≤ n) :
    Gives (Grown S n) (Grown S n) (.object m fs) (.object m gs) (equalObjects S n m fs gs)
      (compareInside (compareObjects S n) m fs gs) :=
  (hobjects m fs gs hf hg hn hn').map (fun _ h => h) fun _ h => h

theorem comparePointees_gives {n : Nat} (hobjects : ObjectsGive S n) {m : M} {v w : Value M}
    (hv : HasType S (.single (.message m)) v) (hw : HasType S (.single (.message m)) w) (hn : v.depth ≤ n)
    (hn' : w.depth ≤ n) :
    Gives (GrownPointee S n) (GrownPointee S n) v w (equalPointees (equalObjects S n) v w)
      (comparePointees (compareObjects S n) v w) := by
  cases hv with
  | unset =>
    cases hw with
    | unset => exact ⟨rfl, ⟨⟨.refl, hn⟩, .inl rfl⟩, ⟨.refl, hn'⟩, .inl rfl⟩
    | object => rfl
  | object m hl hfs =>
    cases hw with
    | unset => rfl
    | object _ hl' hgs =>
      have h := compareInside_gives hobjects (.object m hl hfs) (.object m hl' hgs) hn hn'
      rw [comparePointees, equalPointees]
      revert h
      cases compareInside (compareObjects S n) m _ _ with
      | none => exact id
      | some r => exact fun h => ⟨h.1, ⟨h.2.1, .inr rfl⟩, h.2.2, .inr rfl⟩

/-- A replaced value is one of a key that is there. -/
theorem replaceValue_cases (m : M) (key : Scalar) (w : Value M) (b : List (Scalar × Value M)) :
    valueOrNull m b key = .unset m ∧ replaceValue key w b = b ∨
      ∃ (i : Nat) (k : Scalar), b[i]? = some (k, valueOrNull m b key) ∧ replaceValue key w b = b.set i (k, w) := by
  induction b with
  | nil => exact .inl ⟨rfl, rfl⟩
  | cons e es ih =>
    rw [replaceValue]
    unfold valueOrNull
    rw [List.find?_cons]
    cases hk : e.1.key == key.key with
    | true => exact .inr ⟨0, e.1, rfl, rfl⟩
    | false =>
      rcases ih with ⟨hnull, hsame⟩ | ⟨i, k, hi, hset⟩
      · exact .inl ⟨hnull, congrArg (e :: ·) hsame⟩
      · exact .inr ⟨i + 1, k, hi, congrArg (e :: ·) hset⟩

theorem filled_entry {b : List (Scalar × Value M)} {i : Nat} {k : Scalar} {v w : Value M} {m : M}
    (hv : HasType S (.single (.message m)) v) (hi : b[i]? = some (k, v)) (h : Filled S v w)
    (hset : v = w ∨ v.isUnset = false) : Filled S (.map b) (.map (b.set i (k, w))) := by
  obtain ⟨hlt, hget⟩ := List.getElem?_eq_some_iff.mp hi
  rcases hset with rfl | hset
  · rw [← hget, List.set_getElem_self]
  · cases hv with
    | unset => cases hset
    | object _ hl hfs =>
      have hrun : (∃ gs, w = .object m gs) ∧ Filled S (.map b) (.map (b.set i (k, w))) := by
        induction h with
        | refl => exact ⟨⟨_, rfl⟩, by rw [← hget, List.set_getElem_self]⟩
        | @tail x y _ h ih =>
          obtain ⟨⟨gs, rfl⟩, hf⟩ := ih
          obtain ⟨hs, rfl⟩ := h.of_object
          have hx : (b.set i (k, .object m gs))[i]? = some (k, .object m gs) := List.getElem?_set_self hlt
          have hstep := Creates.entry hx h
          rw [List.set_set] at hstep
          exact ⟨⟨hs, rfl⟩, hf.tail hstep⟩
      exact hrun.2

theorem equalPointees_grown {n : Nat} {m : M} {v v' u : Value M} (h : GrownPointee S n v v')
    (hv : HasType S (.single (.message m)) v) (hu : HasType S (.single (.message m)) u) (hn : u.depth ≤ n) :
    equalPointees (equalObjects S n) v u = equalPointees (equalObjects S n) v' u := by
  obtain ⟨⟨hf, hd⟩, rfl | hset⟩ := h
  · rfl
  · have heq := equalField_filled hf .refl hv hu hd hn
    cases hv with
    | unset => cases hset
    | object _ hl hfs =>
      have hv' := hf.hasType (.object m hl hfs)
      have hobj : ∃ gs, v' = .object m gs := by
        clear heq hd hv'
        induction hf with
        | refl => exact ⟨_, rfl⟩
        | tail _ h ih =>
          obtain ⟨gs, rfl⟩ := ih
          exact h.of_object
      obtain ⟨gs, rfl⟩ := hobj
      cases hu with
      | unset => rfl
      | object => exact heq

section
variable {n : Nat} {kt : ScalarType} {m : M} {b es : List (Scalar × Value M)} {key : Scalar} {w : Value M}

theorem equalPairs_replaceValue (hb : HasType S (.map kt (.message m)) (.map b))
    (hes : ∀ e ∈ es, HasType S (.single (.message m)) e.2 ∧ e.2.depth ≤ n)
    (h : GrownPointee S n (valueOrNull m b key) w) :
    equalPairs m (equalPointees (equalObjects S n)) b es =
      equalPairs m (equalPointees (equalObjects S n)) (replaceValue key w b) es := by
  refine equalPairs_congr fun e he => ?_
  obtain ⟨hty, hd⟩ := hes e he
  rcases replaceValue_cases m key w b with ⟨-, hsame⟩ | ⟨i, k, hi, hset⟩
  · rw [hsame]
  · rw [hset]
    rcases valueOrNull_set (m := m) hi w e.1 with hsame | ⟨hold, hnew⟩
    · rw [hsame]
    · rw [hold, hnew]
      exact equalPointees_grown h (hasType_valueOrNull hb key) hty hd

theorem grown_replaceValue (hb : HasType S (.map kt (.message m)) (.map b)) (hn : (Value.map b).depth ≤ n)
    (h : GrownPointee S n (valueOrNull m b key) w) : Grown S n (.map b) (.map (replaceValue key w b)) := by
  rcases replaceValue_cases m key w b with ⟨-, hsame⟩ | ⟨i, k, hi, hset⟩
  · rw [hsame]
    exact ⟨.refl, hn⟩
  · rw [hset]
    refine ⟨filled_entry (hasType_valueOrNull hb key) hi h.1.1 h.2, ?_⟩
    rw [Value.depth, pairDepths_eq, depths_le, List.map_set] at *
    intro u hu
    rcases List.mem_or_eq_of_mem_set hu with hu | rfl
    · exact hn u hu
    · exact h.1.2

theorem compareMaps_gives (hobjects : ObjectsGive S n) (hb : HasType S (.map kt (.message m)) (.map b))
    (hn : (Value.map b).depth ≤ n)
    (hes : ∀ e ∈ es, HasType S (.single (.message m)) e.2 ∧ e.2.depth ≤ n) :
    Gives (fun es es' => (∀ before, Filled S (.map (before ++ es)) (.map (before ++ es'))) ∧
        ∀ e ∈ es', e.2.depth ≤ n) (fun b b' => Grown S n (.map b) (.map b')) es b
      (equalPairs m (equalPointees (equalObjects S n)) b es) (compareMaps (compareObjects S n) m b es) := by
  induction es generalizing b with
  | nil => exact ⟨rfl, ⟨fun _ => .refl, fun e he => absurd he List.not_mem_nil⟩, .refl, hn⟩
  | cons e es ih =>
    obtain ⟨key, v⟩ := e
    obtain ⟨hty, hd⟩ := hes (key, v) List.mem_cons_self
    have hes' : ∀ e ∈ es, HasType S (.single (.message m)) e.2 ∧ e.2.depth ≤ n :=
      fun e he => hes e (List.mem_cons_of_mem _ he)
    have hone := comparePointees_gives hobjects (hasType_valueOrNull hb key) hty (depth_valueOrNull hn key) hd
    rw [equalPairs, compareMaps]
    cases hc : comparePointees (compareObjects S n) (valueOrNull m b key) v with
    | none =>
      rw [hc] at hone
      have hnone : equalPointees (equalObjects S n) (valueOrNull m b key) v = none := hone
      rw [hnone]
      rfl
    | some r =>
      obtain ⟨equal, w, v'⟩ := r
      rw [hc] at hone
      obtain ⟨heq, hw, hv'⟩ := hone
      have hb' := grown_replaceValue hb hn hw
      have hhead : ∀ before : List (Scalar × Value M),
          Filled S (.map (before ++ (key, v) :: es)) (.map (before ++ (key, v') :: es)) := by
        intro before
        have hentry := filled_entry hty (getElem?_append_cons before es (key, v)) hv'.1.1 hv'.2
        rwa [set_append_cons] at hentry
      rw [heq]
      cases equal with
      | false =>
        refine ⟨rfl, ⟨hhead, fun e he => ?_⟩, hb'⟩
        rcases List.mem_cons.mp he with rfl | he
        · exact hv'.1.2
        · exact (hes' e he).2
      | true =>
        have hrest := ih (hb'.1.hasType hb) hb'.2 hes'
        rw [← equalPairs_replaceValue hb hes' hw] at hrest
        refine hrest.map (f := fun es => (key, v') :: es) (g := fun b => b)
          (fun es' h => ⟨fun before => ?_, fun e he => ?_⟩) fun b' h => ⟨hb'.1.trans h.1, h.2⟩
        · have htail := h.1 (before ++ [(key, v')])
          rw [List.append_assoc, List.append_assoc] at htail
          exact (hhead before).trans htail
        · rcases List.mem_cons.mp he with rfl | he
          · exact hv'.1.2
          · exact h.2 e he

end

section
variable {n : Nat} {m : M} {v w : Value M}

theorem grown_fields (hv : HasType S (.single (.message m)) v) (hn : v.depth ≤ n) (h : 0 < n) :
    Grown S n v (.object m (v.fields S)) := by
  cases hv with
  | unset => exact ⟨.single (.here m), by simp only [Value.fields, depth_object, depths_newObject]; omega⟩
  | object => exact ⟨.refl, hn⟩

/-- A comparison of `QProtobufLazyMessagePointer`s. -/
theorem compareLazy_gives (hobjects : ObjectsGive S n) (hv : HasType S (.single (.message m)) v)
    (hw : HasType S (.single (.message m)) w) (hn : v.depth ≤ n) (hn' : w.depth ≤ n) :
    Gives (Grown S n) (Grown S n) v w (equalField S (equalObjects S n) (.single (.message m)) v w)
      (compareLazy S (compareObjects S n) m v w) := by
  have hnew : 0 < n → (Value.object m (newObject S m)).depth ≤ n := by
    intro h
    rw [depth_object, depths_newObject]
    omega
  cases hv with
  | unset =>
    cases hw with
    | unset => exact ⟨rfl, ⟨.refl, hn⟩, .refl, hn'⟩
    | @object _ gs hl hgs =>
      have hpos : 0 < n := by
        rw [depth_object] at hn'
        omega
      have hinside := hobjects m gs _ (.object m hl hgs) (hasType_newObject m) hn' (hnew hpos)
      obtain ⟨equal, hleft, hright⟩ := equalField_default_comm n (.object m hl hgs) hn'
      have hcomm : equalObjects S n m gs (newObject S m) = equalObjects S n m (newObject S m) gs :=
        hleft.trans hright.symm
      rw [hcomm] at hinside
      revert hinside
      rw [compareLazy]
      cases compareObjects S n m gs (newObject S m) with
      | none => exact id
      | some r => exact fun h => ⟨h.1, ⟨.refl, hn⟩, h.2.1⟩
  | @object _ fs hl hfs =>
    cases hw with
    | unset =>
      have hpos : 0 < n := by
        rw [depth_object] at hn
        omega
      have hinside := hobjects m fs _ (.object m hl hfs) (hasType_newObject m) hn (hnew hpos)
      have hunset : Grown S n (.unset m) (.unset m) := ⟨.refl, hn'⟩
      exact hinside.map (g := fun _ => .unset m) (fun _ h => h) fun _ _ => hunset
    | object _ hl' hgs =>
      exact compareInside_gives hobjects (.object m hl hfs) (.object m hl' hgs) hn hn'

theorem equalField_fields (hv : HasType S (.single (.message m)) v) (hw : HasType S (.single (.message m)) w)
    (h : equalField S (equalObjects S n) (.single (.message m)) v w ≠ some true) :
    equalField S (equalObjects S n) (.single (.message m)) v w =
      equalObjects S n m (v.fields S) (w.fields S) := by
  cases hv with
  | unset =>
    cases hw with
    | unset => exact absurd rfl h
    | object => rfl
  | object => exact (equalField_object hw).1

theorem pos_of_unequal (hv : HasType S (.single (.message m)) v) (hw : HasType S (.single (.message m)) w)
    (hn : v.depth ≤ n) (hn' : w.depth ≤ n)
    (h : equalField S (equalObjects S n) (.single (.message m)) v w ≠ some true) : 0 < n := by
  cases hv with
  | unset =>
    cases hw with
    | unset => exact absurd rfl h
    | object =>
      rw [depth_object] at hn'
      omega
  | object =>
    rw [depth_object] at hn
    omega

theorem compareMessage_gives (hobjects : ObjectsGive S n) (hv : HasType S (.single (.message m)) v)
    (hw : HasType S (.single (.message m)) w) (hn : v.depth ≤ n) (hn' : w.depth ≤ n) :
    Gives (Grown S n) (Grown S n) v w (equalField S (equalObjects S n) (.single (.message m)) v w)
      (compareMessage S (compareObjects S n) m v w) := by
  have hlazy := compareLazy_gives hobjects hv hw hn hn'
  rw [compareMessage]
  cases hc : compareLazy S (compareObjects S n) m v w with
  | none =>
    rw [hc] at hlazy
    exact hlazy
  | some r =>
    obtain ⟨equal, v₁, w₁⟩ := r
    rw [hc] at hlazy
    obtain ⟨heq, hv₁, hw₁⟩ := hlazy
    cases equal with
    | true => exact ⟨heq, hv₁, hw₁⟩
    | false =>
      have hne : equalField S (equalObjects S n) (.single (.message m)) v w ≠ some true := by simp [heq]
      have hpos := pos_of_unequal hv hw hn hn' hne
      have hty := hv₁.1.hasType hv
      have hty' := hw₁.1.hasType hw
      have hf := grown_fields hty hv₁.2 hpos
      have hf' := grown_fields hty' hw₁.2 hpos
      -- the second comparison is of the objects as the first one left them
      have hsame := equalField_filled hv₁.1 hw₁.1 hv hw hv₁.2 hw₁.2
      have hagain := equalField_fields hty hty' (hsame ▸ hne)
      have hinside := compareInside_gives hobjects (hasType_fields hty) (hasType_fields hty') hf.2 hf'.2
      rw [← hagain, ← hsame] at hinside
      show Gives _ _ v w _ (compareInside (compareObjects S n) m (v₁.fields S) (w₁.fields S))
      revert hinside
      cases compareInside (compareObjects S n) m (v₁.fields S) (w₁.fields S) with
      | none => exact id
      | some r =>
        exact fun h => ⟨h.1, ⟨hv₁.1.trans (hf.1.trans h.2.1.1), h.2.1.2⟩,
          hw₁.1.trans (hf'.1.trans h.2.2.1), h.2.2.2⟩

end

theorem compareMessages_gives {n : Nat} (hobjects : ObjectsGive S n) {m : M} {vs ws : List (Value M)}
    (hvs : ∀ v ∈ vs, HasType S (.single (.message m)) v) (hws : ∀ w ∈ ws, HasType S (.single (.message m)) w)
    (hn : (Value.messages vs).depth ≤ n) (hn' : (Value.messages ws).depth ≤ n) :
    Gives (Grown S n) (Grown S n) (.messages vs) (.messages ws)
      (equalField S (equalObjects S n) (.messages m) (.messages vs) (.messages ws))
      (compareField S (compareObjects S n) (.messages m) (.messages vs) (.messages ws)) := by
  have hdepth := depths_le.mp hn
  have hdepth' := depths_le.mp hn'
  rw [compareField, equalField]
  by_cases hl : vs.length = ws.length
  · rw [if_pos hl, if_pos hl]
    have helements : Gives (List.Forall₂ (GrownPointee S n)) (List.Forall₂ (GrownPointee S n)) vs ws
        (equalEach _ (List.replicate vs.length m) vs ws) _ :=
      compareEach_gives (fun v hv => ⟨⟨.refl, hdepth v hv⟩, .inl rfl⟩)
        (fun w hw => ⟨⟨.refl, hdepth' w hw⟩, .inl rfl⟩)
        fun i a v w _ hv hw => comparePointees_gives hobjects (hvs v (List.mem_of_getElem? hv))
          (hws w (List.mem_of_getElem? hw)) (hdepth v (List.mem_of_getElem? hv))
          (hdepth' w (List.mem_of_getElem? hw))
    refine helements.map (f := Value.messages) (g := Value.messages) (fun vs' h => ?_) fun ws' h => ?_
    · exact grown_messages hvs h
    · exact grown_messages hws h
  · rw [if_neg hl, if_neg hl]
    exact ⟨rfl, ⟨.refl, hn⟩, .refl, hn'⟩

theorem compareField_gives {n : Nat} (hobjects : ObjectsGive S n) {t : FieldType M} {v w : Value M}
    (hv : HasType S t v) (hw : HasType S t w) (hn : v.depth ≤ n) (hn' : w.depth ≤ n) :
    Gives (Grown S n) (Grown S n) v w (equalField S (equalObjects S n) t v w)
      (compareField S (compareObjects S n) t v w) := by
  have hleaf : Gives (Grown S n) (Grown S n) v w (some (v.same w)) (some (v.same w, v, w)) :=
    ⟨rfl, ⟨.refl, hn⟩, .refl, hn'⟩
  cases t with
  | single t =>
    cases t with
    | message m => exact compareMessage_gives hobjects hv hw hn hn'
    | scalar t => exact hleaf
    | enum => exact hleaf
  | messages m =>
    cases hv with
    | @messages _ vs hvs =>
      cases hw with
      | @messages _ ws hws => exact compareMessages_gives hobjects hvs hws hn hn'
  | map kt vt =>
    cases hv with
    | @map _ _ es hk hes =>
      cases hw with
      | @map _ _ es' hk' hes' =>
        cases vt with
        | message m =>
          rw [compareField, equalField]
          by_cases hl : es.length = es'.length
          · rw [if_pos hl, if_pos hl]
            have hpairs : ∀ e ∈ es, HasType S (.single (.message m)) e.2 ∧ e.2.depth ≤ n := by
              rw [Value.depth, pairDepths_eq, depths_le] at hn
              exact fun e he => ⟨hes e he, hn e.2 (List.mem_map_of_mem he)⟩
            have hmaps := compareMaps_gives hobjects (.map hk' hes') hn' hpairs
            refine hmaps.map (Q := Grown S n) (f := Value.map) (g := Value.map)
              (fun es₁ h => ⟨h.1 [], ?_⟩) fun _ h => h
            rw [Value.depth, pairDepths_eq, depths_le]
            intro u hu
            obtain ⟨e, he, rfl⟩ := List.mem_map.mp hu
            exact h.2 e he
          · rw [if_neg hl, if_neg hl]
            exact ⟨rfl, ⟨.refl, hn⟩, .refl, hn'⟩
        | scalar t => exact hleaf
        | enum => exact hleaf
  | nums t => exact hleaf
  | strings => exact hleaf
  | byteArrays => exact hleaf
  | enums => exact hleaf

/-- **Comparing.** The generated `operator ==` gives the answer, and leaves the
objects as they were but for created ones. -/
theorem compareObjects_gives (n : Nat) : ObjectsGive S n := by
  induction n with
  | zero =>
    intro m fs gs _ _ hn
    simp at hn
  | succ n ih =>
    intro m fs gs hf hg hn hn'
    rw [depth_object, Nat.succ_le_succ_iff, depths_le] at hn hn'
    have hfields : Gives (List.Forall₂ (Grown S n)) (List.Forall₂ (Grown S n)) fs gs _ _ :=
      compareEach_gives (fun v hv => ⟨.refl, hn v hv⟩) (fun w hw => ⟨.refl, hn' w hw⟩)
        fun i t v w ht hv hw => compareField_gives ih (hf.get ht hv) (hg.get ht hw)
          (hn v (List.mem_of_getElem? hv)) (hn' w (List.mem_of_getElem? hw))
    have hgrown : ∀ {fs fs' : List (Value M)}, List.Forall₂ (Grown S n) fs fs' →
        Grown S (n + 1) (.object m fs) (.object m fs') := by
      intro fs fs' h
      refine ⟨filled_object (h.imp fun _ _ hg => hg.1), ?_⟩
      rw [depth_object, Nat.succ_le_succ_iff, depths_le]
      exact forall₂_right (fun _ _ hg => hg.2) h
    rw [equalObjects, compareObjects]
    revert hfields
    cases compareEach (compareField S (compareObjects S n)) (S m).properties fs gs with
    | none => exact id
    | some r => exact fun h => ⟨h.1, hgrown h.2.1, hgrown h.2.2⟩

end QtProtobuf.Codec
