import QtProtobuf.L2Codec.Leftovers

/-!
# The assignment of a part of the target

`t = t.child()` assigns an object that lies in a field of the target. The
statement of that field assigns a part of the field to the field, which is the
same one step further down; the statements before it and after it read and write
the target and the part.

* `Way.get_set_put`: what writing a field of the target and of an object down the
  way changes.
* `runPart_succ_iff`: the statements before the field, its own, and those after it.
-/
namespace QtProtobuf.Codec

variable {M : Type} {S : Schema M}

/-! ## Objects inside one another -/

/-- Fields of message types, each of the message of the one before. -/
structure Way (S : Schema M) where
  message : Nat → M
  field : Nat → Nat
  property : ∀ s, (S (message s)).properties[field s]? = some (.single (.message (message (s + 1))))

namespace Way

def next (w : Way S) : Way S where
  message s := w.message (s + 1)
  field s := w.field (s + 1)
  property s := w.property (s + 1)

/-- After `k` steps the way is the same again. -/
def Repeats (w : Way S) (k : Nat) : Prop := ∀ s, w.message (s + k) = w.message s ∧ w.field (s + k) = w.field s

/-- The value of the first field. -/
def child (w : Way S) (fs : List (Value M)) : Value M := fs.getD (w.field 0) (.unset (w.message 1))

/-- The fields of the object `s` steps down. -/
def object : Nat → Way S → List (Value M) → List (Value M)
  | 0, _, fs => fs
  | s + 1, w, fs => object s w.next ((w.child fs).fields S)

/-- The field `j` of the object `k` steps down is written. -/
def put : Nat → Way S → Nat → Value M → List (Value M) → List (Value M)
  | 0, _, j, v, fs => fs.set j v
  | k + 1, w, j, v, fs =>
    fs.set (w.field 0) (.object (w.message 1) (put k w.next j v ((w.child fs).fields S)))

end Way

/-! ## The statements -/

section
variable (left : Value M → Value M → Value M) (member : SpecialMember) (k : Nat) (w : Way S)

/-- `==` of two values of a field. -/
def fieldEqual (S : Schema M) (t : FieldType M) (v w : Value M) : Option Bool :=
  equalField S (equalObjects S (max v.depth w.depth)) t v w

/-- The statement of a field that the part does not lie in. -/
def runOther (t : FieldType M) (j : Nat) (fs : List (Value M)) : Option (List (Value M)) :=
  (fieldStatement left member S t (fs.getD j t.default) ((w.object k fs).getD j t.default)).map fun p =>
    (w.put k j p.source fs).set j p.target

/-- The statement of the field that the part lies in. The objects that the
comparison creates are left out; they are equal to the null pointers. -/
def runOwn (part : Way S → List (Value M) → Option (List (Value M))) (fs : List (Value M)) :
    Option (List (Value M)) := do
  let t : FieldType M := .single (.message (w.message 1))
  if ← fieldEqual S t (w.child fs) ((w.object k fs).getD (w.field 0) t.default) then pure fs
  else
    let cs ← part w.next ((w.child fs).fields S)
    pure (fs.set (w.field 0) (.object (w.message 1) cs))

/-- The statements of the fields from index `j` on. -/
def runRest (own : List (Value M) → Option (List (Value M))) :
    List (FieldType M) → Nat → List (Value M) → Option (List (Value M))
  | [], _, fs => some fs
  | t :: ts, j, fs =>
    (if j = w.field 0 then own fs else runOther left member k w t j fs).bind (runRest own ts (j + 1))

/-- The assignment of the object `k` steps down the way to the object whose fields
are `fs`, with fewer than `n` such assignments inside one another: mirrors
src/generator/messagedefinitionprinter.cpp:200-302 -/
def runPart : Nat → Way S → List (Value M) → Option (List (Value M))
  | 0, _, _ => none
  | n + 1, w, fs => runRest left member k w (runOwn k w (runPart n)) (S (w.message 0)).properties 0 fs

end

/-! ## Reading and writing -/

namespace Way

variable {w : Way S} {fs : List (Value M)} {k s j : Nat} {v : Value M}

theorem Repeats.next (h : w.Repeats k) : w.next.Repeats k := fun s => by
  have hs := h (s + 1)
  rw [Nat.add_right_comm] at hs
  exact hs

theorem hasType_child (h : HasType S (.single (.message (w.message 0))) (.object (w.message 0) fs)) :
    HasType S (.single (.message (w.message 1))) (w.child fs) := by
  obtain ⟨c, hc, hct, -⟩ := h.field (w.property 0)
  rw [child, List.getD_eq_getElem?_getD, hc]
  exact hct

theorem getElem?_child (h : HasType S (.single (.message (w.message 0))) (.object (w.message 0) fs)) :
    fs[w.field 0]? = some (w.child fs) := by
  obtain ⟨c, hc, -, -⟩ := h.field (w.property 0)
  rw [child, List.getD_eq_getElem?_getD, hc]
  rfl

theorem hasType_object (h : HasType S (.single (.message (w.message 0))) (.object (w.message 0) fs)) (s : Nat) :
    HasType S (.single (.message (w.message s))) (.object (w.message s) (w.object s fs)) := by
  induction s generalizing w fs with
  | zero => exact h
  | succ s ih => exact ih (w := w.next) (hasType_fields (hasType_child h))

theorem child_set (hj : j ≠ w.field 0) : w.child (fs.set j v) = w.child fs := by
  rw [child, child, List.getD_eq_getElem?_getD, List.getD_eq_getElem?_getD, List.getElem?_set_ne hj]

/-- Another field is not on the way down. -/
theorem object_set (hj : j ≠ w.field 0) : w.object (s + 1) (fs.set j v) = w.object (s + 1) fs := by
  rw [object, object, child_set hj]

theorem object_setChild {m : M} {cs : List (Value M)} (hlt : w.field 0 < fs.length) :
    w.object (s + 1) (fs.set (w.field 0) (.object m cs)) = w.next.object s cs := by
  rw [object, child, List.getD_eq_getElem?_getD, List.getElem?_set_self hlt]
  rfl

theorem lt_length (h : HasType S (.single (.message (w.message 0))) (.object (w.message 0) fs)) :
    w.field 0 < fs.length := (List.getElem?_eq_some_iff.mp (getElem?_child h)).1

/-- The object that is written, and the ones inside it. -/
theorem object_put (h : HasType S (.single (.message (w.message 0))) (.object (w.message 0) fs)) :
    w.object k (w.put k j v fs) = (w.object k fs).set j v := by
  induction k generalizing w fs with
  | zero => rfl
  | succ k ih =>
    rw [put, object_setChild (lt_length h)]
    exact ih (hasType_fields (hasType_child h))

theorem object_put_below (h : HasType S (.single (.message (w.message 0))) (.object (w.message 0) fs))
    (hj : j ≠ w.field k) (hs : k < s) : w.object s (w.put k j v fs) = w.object s fs := by
  induction k generalizing w fs s with
  | zero =>
    obtain ⟨s, rfl⟩ := Nat.exists_eq_succ_of_ne_zero (Nat.ne_zero_of_lt hs)
    exact object_set hj
  | succ k ih =>
    obtain ⟨s, rfl⟩ := Nat.exists_eq_succ_of_ne_zero (Nat.ne_zero_of_lt hs)
    rw [put, object_setChild (lt_length h)]
    exact ih (hasType_fields (hasType_child h)) hj (Nat.lt_of_succ_lt_succ hs)

/-- The objects above it keep their other fields. -/
theorem getElem?_put_above (h : HasType S (.single (.message (w.message 0))) (.object (w.message 0) fs))
    (hs : s < k) {i : Nat} (hi : i ≠ w.field s) : (w.object s (w.put k j v fs))[i]? = (w.object s fs)[i]? := by
  induction s generalizing w fs k with
  | zero =>
    obtain ⟨k, rfl⟩ := Nat.exists_eq_succ_of_ne_zero (Nat.ne_zero_of_lt hs)
    exact List.getElem?_set_ne fun he => hi he.symm
  | succ s ih =>
    obtain ⟨k, rfl⟩ := Nat.exists_eq_succ_of_ne_zero (Nat.ne_zero_of_lt hs)
    rw [put, object_setChild (lt_length h)]
    exact ih (hasType_fields (hasType_child h)) (Nat.lt_of_succ_lt_succ hs) hi

theorem hasType_put (h : HasType S (.single (.message (w.message 0))) (.object (w.message 0) fs)) {t : FieldType M}
    (ht : (S (w.message k)).properties[j]? = some t) (hv : HasType S t v) :
    HasType S (.single (.message (w.message 0))) (.object (w.message 0) (w.put k j v fs)) := by
  induction k generalizing w fs with
  | zero => exact h.set ht hv
  | succ k ih => exact h.set (w.property 0) (ih (w := w.next) (hasType_fields (hasType_child h)) ht)

/-- The field `j` of the object `s` steps down. -/
def get (w : Way S) (s j : Nat) (fs : List (Value M)) : Option (Value M) := (w.object s fs)[j]?

/-- The target and the part `k` steps down get the field `j`; the fields that are
not on the way keep what they have. -/
theorem get_set_put (h : HasType S (.single (.message (w.message 0))) (.object (w.message 0) fs)) (hk : 0 < k)
    (hw : w.Repeats k) (hj : j ≠ w.field 0) {t : FieldType M} (ht : (S (w.message 0)).properties[j]? = some t)
    {u : Value M} (hu : HasType S t u) :
    w.get 0 j ((w.put k j u fs).set j v) = some v ∧ w.get k j ((w.put k j u fs).set j v) = some u ∧
      ∀ s i, i ≠ w.field s → (s = 0 ∨ s = k → i ≠ j) →
        w.get s i ((w.put k j u fs).set j v) = w.get s i fs := by
  obtain ⟨hm, hf⟩ := hw 0
  rw [Nat.zero_add] at hm hf
  have htk : (S (w.message k)).properties[j]? = some t := hm ▸ ht
  have hput := hasType_put h htk hu (k := k)
  obtain ⟨x, hx, -, -⟩ := hput.field ht
  obtain ⟨y, hy, -, -⟩ := (hasType_object h k).field htk
  obtain ⟨k', rfl⟩ := Nat.exists_eq_succ_of_ne_zero (Nat.ne_of_gt hk)
  refine ⟨List.getElem?_set_self (List.getElem?_eq_some_iff.mp hx).1, ?_, fun s i hi hne => ?_⟩
  · rw [get, object_set hj, object_put h]
    exact List.getElem?_set_self (List.getElem?_eq_some_iff.mp hy).1
  · cases s with
    | zero =>
      rw [get, object, List.getElem?_set_ne fun he => hne (.inl rfl) he.symm]
      exact getElem?_put_above (s := 0) h hk hi
    | succ s =>
      rw [get, object_set hj, get]
      rcases Nat.lt_trichotomy (s + 1) (k' + 1) with hlt | heq | hgt
      · exact getElem?_put_above h hlt hi
      · rw [heq, object_put h, List.getElem?_set_ne fun he => hne (.inr heq) he.symm]
      · rw [object_put_below h (hf ▸ hj) hgt]

end Way

/-! ## The statements of some fields -/

section
variable {left : Value M → Value M → Value M} {clears : FieldType M → Bool} {member : SpecialMember} {k : Nat}
  {w : Way S} {fs gs : List (Value M)}

/-- The statements of the fields from `a` to `b` are completed. -/
structure Ran (left : Value M → Value M → Value M) (member : SpecialMember) (k : Nat) (w : Way S) (a b : Nat)
    (fs gs : List (Value M)) : Prop where
  hasType : HasType S (.single (.message (w.message 0))) (.object (w.message 0) gs)
  others : ∀ s i, i ≠ w.field s → (s = 0 ∨ s = k → i < a ∨ b ≤ i) → w.get s i gs = w.get s i fs
  fields : ∀ i t, a ≤ i → i < b → (S (w.message 0)).properties[i]? = some t →
    ∃ v u p, w.get 0 i fs = some v ∧ w.get k i fs = some u ∧ fieldStatement left member S t v u = some p ∧
      w.get 0 i gs = some p.target ∧ w.get k i gs = some p.source

/-- An assignment, of an object below the target, with containers that are moved as
their types have it. -/
structure Assigning (S : Schema M) (left : Value M → Value M → Value M) (clears : FieldType M → Bool)
    (member : SpecialMember) (k : Nat) : Prop where
  exchanges : Exchanges S left clears
  assignment : member = .copyAssignment ∨ member = .moveAssignment
  pos : 0 < k

/-- The values of a field of the target and of the part. -/
theorem Way.exists_get (hw : w.Repeats k)
    (h : HasType S (.single (.message (w.message 0))) (.object (w.message 0) fs)) {j : Nat} {t : FieldType M}
    (ht : (S (w.message 0)).properties[j]? = some t) :
    ∃ v u, w.get 0 j fs = some v ∧ w.get k j fs = some u ∧ HasType S t v ∧ HasType S t u ∧
      fs.getD j t.default = v ∧ (w.object k fs).getD j t.default = u := by
  obtain ⟨hm, -⟩ := hw 0
  rw [Nat.zero_add] at hm
  have htk : (S (w.message k)).properties[j]? = some t := hm ▸ ht
  obtain ⟨v, hv, hvt, hvd⟩ := h.field ht
  obtain ⟨u, hu, hut, hud⟩ := (Way.hasType_object h k).field htk
  exact ⟨v, u, hv, hu, hvt, hut, hvd, hud⟩

theorem runOther_ran (ha : Assigning S left clears member k) (hw : w.Repeats k)
    (h : HasType S (.single (.message (w.message 0))) (.object (w.message 0) fs)) {j : Nat} {t : FieldType M}
    (ht : (S (w.message 0)).properties[j]? = some t) (hj : j ≠ w.field 0)
    (hr : runOther left member k w t j fs = some gs) : Ran left member k w j (j + 1) fs gs := by
  obtain ⟨v, u, hv, hu, hvt, hut, hvd, hud⟩ := Way.exists_get hw h ht
  rw [runOther, hvd, hud] at hr
  obtain ⟨p, hp, rfl⟩ := Option.map_eq_some_iff.mp hr
  have hl := fieldStatement_remains ha.exchanges ha.assignment hvt hut hp
  obtain ⟨hm, -⟩ := hw 0
  rw [Nat.zero_add] at hm
  obtain ⟨htarget, hsource, hothers⟩ := Way.get_set_put (v := p.target) h ha.pos hw hj ht hl.source
  refine ⟨(Way.hasType_put h (hm ▸ ht) hl.source).set ht hl.target, fun s i hi hs => ?_, fun i t' hji hij ht' => ?_⟩
  · exact hothers s i hi fun hs' => by have := hs hs'; omega
  · obtain rfl : i = j := by omega
    cases ht.symm.trans ht'
    exact ⟨v, u, p, hv, hu, hp, htarget, hsource⟩

/-- `ts` are the types of the fields from index `a` on, and the part does not lie
in one of these fields. -/
structure Way.Beside (w : Way S) (ts : List (FieldType M)) (a : Nat) : Prop where
  property : ∀ d t, ts[d]? = some t → (S (w.message 0)).properties[a + d]? = some t
  beside : w.field 0 < a ∨ a + ts.length ≤ w.field 0

theorem Way.Beside.tail {t : FieldType M} {ts : List (FieldType M)} {a : Nat} (h : w.Beside (t :: ts) a) :
    w.Beside ts (a + 1) := by
  obtain ⟨hp, hb⟩ := h
  rw [List.length_cons] at hb
  refine ⟨fun d t' ht => ?_, by omega⟩
  have hd := hp (d + 1) t' ht
  rwa [← Nat.add_assoc, Nat.add_right_comm] at hd

theorem Way.Beside.head {t : FieldType M} {ts : List (FieldType M)} {a : Nat} (h : w.Beside (t :: ts) a) :
    (S (w.message 0)).properties[a]? = some t ∧ a ≠ w.field 0 := by
  obtain ⟨hp, hb⟩ := h
  rw [List.length_cons] at hb
  exact ⟨hp 0 t rfl, by omega⟩

theorem runRest_ran (ha : Assigning S left clears member k) (hw : w.Repeats k)
    {own : List (Value M) → Option (List (Value M))} {ts : List (FieldType M)} {a : Nat} (hts : w.Beside ts a)
    (h : HasType S (.single (.message (w.message 0))) (.object (w.message 0) fs))
    (hr : runRest left member k w own ts a fs = some gs) : Ran left member k w a (a + ts.length) fs gs := by
  induction ts generalizing a fs with
  | nil =>
    cases hr
    exact ⟨h, fun s i _ _ => rfl, fun i t hi hi' => by simp at hi'; omega⟩
  | cons t ts ih =>
    obtain ⟨ht, hj⟩ := hts.head
    rw [runRest, if_neg hj] at hr
    obtain ⟨fs₁, h₁, hr⟩ := Option.bind_eq_some_iff.mp hr
    have hfirst := runOther_ran ha hw h ht hj h₁
    have hrest := ih hts.tail hfirst.hasType hr
    rw [List.length_cons]
    refine ⟨hrest.hasType, fun s i hi hs => ?_, fun i t' hai hib ht' => ?_⟩
    · rw [hrest.others s i hi fun hs' => by have := hs hs'; omega]
      exact hfirst.others s i hi fun hs' => by have := hs hs'; omega
    · have hi0 : i ≠ w.field 0 := by
        have hb := hts.beside
        rw [List.length_cons] at hb
        omega
      have hik : i ≠ w.field k := by rwa [← Nat.zero_add k, (hw 0).2]
      by_cases hia : i = a
      · subst hia
        obtain ⟨v, u, p, hv, hu, hp, htarget, hsource⟩ := hfirst.fields i t' hai (by omega) ht'
        refine ⟨v, u, p, hv, hu, hp, ?_, ?_⟩
        · rw [hrest.others 0 i hi0 fun _ => .inl (Nat.lt_succ_self i), htarget]
        · rw [hrest.others k i hik fun _ => .inl (Nat.lt_succ_self i), hsource]
      · obtain ⟨v, u, p, hv, hu, hp, htarget, hsource⟩ := hrest.fields i t' (by omega) (by omega) ht'
        rw [hfirst.others 0 i hi0 fun _ => .inr (by omega)] at hv
        rw [hfirst.others k i hik fun _ => .inr (by omega)] at hu
        exact ⟨v, u, p, hv, hu, hp, htarget, hsource⟩

/-- They are completed if each of them is. -/
theorem exists_runRest (ha : Assigning S left clears member k) (hw : w.Repeats k)
    {own : List (Value M) → Option (List (Value M))} {ts : List (FieldType M)} {a : Nat} (hts : w.Beside ts a)
    (h : HasType S (.single (.message (w.message 0))) (.object (w.message 0) fs))
    (hstatement : ∀ i t v u, a ≤ i → i < a + ts.length → (S (w.message 0)).properties[i]? = some t →
      w.get 0 i fs = some v → w.get k i fs = some u → ∃ p, fieldStatement left member S t v u = some p) :
    ∃ gs, runRest left member k w own ts a fs = some gs := by
  induction ts generalizing a fs with
  | nil => exact ⟨fs, rfl⟩
  | cons t ts ih =>
    obtain ⟨ht, hj⟩ := hts.head
    obtain ⟨v, u, hv, hu, hvt, hut, hvd, hud⟩ := Way.exists_get hw h ht
    obtain ⟨p, hp⟩ := hstatement a t v u (Nat.le_refl a) (by simp) ht hv hu
    have h₁ : runOther left member k w t a fs = some ((w.put k a p.source fs).set a p.target) := by
      rw [runOther, hvd, hud, hp]
      rfl
    have hfirst := runOther_ran ha hw h ht hj h₁
    obtain ⟨gs, hgs⟩ := ih hts.tail hfirst.hasType fun i t' v' u' hai hib ht' hv' hu' => by
      have hb := hts.beside
      rw [List.length_cons] at hb
      have hik : i ≠ w.field k := by
        rw [← Nat.zero_add k, (hw 0).2]
        omega
      rw [hfirst.others 0 i (by omega) fun _ => .inr (by omega)] at hv'
      rw [hfirst.others k i hik fun _ => .inr (by omega)] at hu'
      exact hstatement i t' v' u' (by omega) (by rw [List.length_cons]; omega) ht' hv' hu'
    exact ⟨gs, by rw [runRest, if_neg hj, h₁]; exact hgs⟩

theorem runRest_append (own : List (Value M) → Option (List (Value M))) (ts ts' : List (FieldType M)) (a : Nat) :
    runRest left member k w own (ts ++ ts') a fs =
      (runRest left member k w own ts a fs).bind (runRest left member k w own ts' (a + ts.length)) := by
  induction ts generalizing a fs with
  | nil => rfl
  | cons t ts ih =>
    rw [List.cons_append, runRest, runRest, List.length_cons, Option.bind_assoc]
    refine congrArg _ (funext fun gs => ?_)
    rw [ih, Nat.add_right_comm, Nat.add_assoc]

theorem runRest_congr (own own' : List (Value M) → Option (List (Value M))) {ts : List (FieldType M)} {a : Nat}
    (h : w.Beside ts a) :
    runRest left member k w own ts a fs = runRest left member k w own' ts a fs := by
  induction ts generalizing a fs with
  | nil => rfl
  | cons t ts ih =>
    rw [runRest, runRest, if_neg h.head.2, if_neg h.head.2]
    exact congrArg _ (funext fun gs => ih h.tail)

end

/-! ## One assignment -/

section
variable (left : Value M → Value M → Value M) (member : SpecialMember) (k : Nat) (w : Way S)

/-- The statements of the fields before the one that the part lies in. -/
def runBefore (fs : List (Value M)) : Option (List (Value M)) :=
  runRest left member k w (fun _ => none) ((S (w.message 0)).properties.take (w.field 0)) 0 fs

/-- The statements of the fields after it. -/
def runAfter (fs : List (Value M)) : Option (List (Value M)) :=
  runRest left member k w (fun _ => none) ((S (w.message 0)).properties.drop (w.field 0 + 1)) (w.field 0 + 1) fs

/-- The same field of the part. -/
def Way.other (fs : List (Value M)) : Value M := (w.object k fs).getD (w.field 0) (.unset (w.message 1))

end

section
variable {left : Value M → Value M → Value M} {clears : FieldType M → Bool} {member : SpecialMember} {k : Nat}
  {w : Way S} {fs gs : List (Value M)}

theorem Way.beside_take (w : Way S) : w.Beside ((S (w.message 0)).properties.take (w.field 0)) 0 := by
  refine ⟨fun d t ht => ?_, .inr ?_⟩
  · rw [List.getElem?_take] at ht
    split at ht
    · rwa [Nat.zero_add]
    · cases ht
  · rw [Nat.zero_add, List.length_take]
    exact Nat.min_le_left _ _

theorem Way.beside_drop (w : Way S) :
    w.Beside ((S (w.message 0)).properties.drop (w.field 0 + 1)) (w.field 0 + 1) := by
  refine ⟨fun d t ht => ?_, .inl (Nat.lt_succ_self _)⟩
  rwa [List.getElem?_drop] at ht

theorem runPart_succ (n : Nat) : runPart left member k (n + 1) w fs =
    (runBefore left member k w fs).bind fun gs =>
      (runOwn k w (runPart left member k n) gs).bind (runAfter left member k w) := by
  obtain ⟨hlt, hget⟩ := List.getElem?_eq_some_iff.mp (w.property 0)
  have hsplit : (S (w.message 0)).properties = (S (w.message 0)).properties.take (w.field 0) ++
      .single (.message (w.message 1)) :: (S (w.message 0)).properties.drop (w.field 0 + 1) := by
    rw [← hget, ← List.drop_eq_getElem_cons hlt, List.take_append_drop]
  rw [runPart, hsplit, runRest_append, runBefore, runRest_congr _ (fun _ => none) w.beside_take]
  refine congrArg _ (funext fun gs => ?_)
  rw [List.length_take, Nat.min_eq_left (Nat.le_of_lt hlt), Nat.zero_add, runRest, if_pos rfl]
  refine congrArg _ (funext fun gs => ?_)
  exact runRest_congr _ _ w.beside_drop

theorem Way.hasType_other (hw : w.Repeats k)
    (h : HasType S (.single (.message (w.message 0))) (.object (w.message 0) fs)) :
    HasType S (.single (.message (w.message 1))) (w.other k fs) := by
  obtain ⟨v, u, -, -, -, hut, -, hud⟩ := Way.exists_get hw h (w.property 0)
  have hd : w.other k fs = u := hud
  rwa [hd]

theorem runOwn_eq (part : Way S → List (Value M) → Option (List (Value M))) : runOwn k w part fs =
    (fieldEqual S (.single (.message (w.message 1))) (w.child fs) (w.other k fs)).bind fun equal =>
      if equal = true then some fs else
        (part w.next ((w.child fs).fields S)).bind fun cs =>
          some (fs.set (w.field 0) (.object (w.message 1) cs)) := rfl

theorem runOwn_mono {part part' : Way S → List (Value M) → Option (List (Value M))}
    (hpart : ∀ w fs gs, part w fs = some gs → part' w fs = some gs) (h : runOwn k w part fs = some gs) :
    runOwn k w part' fs = some gs := by
  rw [runOwn_eq, Option.bind_eq_some_iff] at h ⊢
  obtain ⟨equal, he, h⟩ := h
  refine ⟨equal, he, ?_⟩
  split at h
  · rw [if_pos ‹_›]
    exact h
  · rw [if_neg ‹_›]
    obtain ⟨cs, hcs, h⟩ := Option.bind_eq_some_iff.mp h
    exact Option.bind_eq_some_iff.mpr ⟨cs, hpart _ _ _ hcs, h⟩

theorem runOwn_iff (hw : w.Repeats k)
    (h : HasType S (.single (.message (w.message 0))) (.object (w.message 0) fs))
    {part : Way S → List (Value M) → Option (List (Value M))} :
    runOwn k w part fs = some gs ↔ Same S (w.child fs) (w.other k fs) ∧ gs = fs ∨
      ¬ Same S (w.child fs) (w.other k fs) ∧ ¬ Null S (w.child fs) (w.other k fs) ∧
        ∃ cs, part w.next ((w.child fs).fields S) = some cs ∧
          gs = fs.set (w.field 0) (.object (w.message 1) cs) := by
  obtain ⟨htrue, hnone⟩ := equalField_tells _ (Way.hasType_child h) (Way.hasType_other hw h) (Nat.le_max_left _ _)
    (Nat.le_max_right _ _)
  rw [runOwn_eq, fieldEqual]
  cases he : equalField S (equalObjects S (max (w.child fs).depth (w.other k fs).depth))
      (.single (.message (w.message 1))) (w.child fs) (w.other k fs) with
  | none =>
    have hnull := hnone.mp he
    exact ⟨nofun, fun h => h.elim (fun h => absurd hnull h.1.not_null) fun h => absurd hnull h.2.1⟩
  | some equal =>
    have hnn : ¬ Null S (w.child fs) (w.other k fs) := fun hn => absurd (he.symm.trans (hnone.mpr hn)) nofun
    cases equal with
    | true =>
      have hs := htrue.mp he
      exact ⟨fun h => .inl ⟨hs, (Option.some.inj h).symm⟩,
        fun h => h.elim (fun h => congrArg some h.2.symm) fun h => absurd hs h.1⟩
    | false =>
      have hns : ¬ Same S (w.child fs) (w.other k fs) := fun hs => absurd (he.symm.trans (htrue.mpr hs)) nofun
      show (part w.next ((w.child fs).fields S)).bind _ = some gs ↔ _
      rw [Option.bind_eq_some_iff]
      constructor
      · rintro ⟨cs, hcs, heq⟩
        exact .inr ⟨hns, hnn, cs, hcs, (Option.some.inj heq).symm⟩
      · rintro (⟨hs, -⟩ | ⟨-, -, cs, hcs, rfl⟩)
        · exact absurd hs hns
        · exact ⟨cs, hcs, rfl⟩

/-- The statements before the field of the part, its own, and those after it. -/
theorem runPart_succ_iff {n : Nat} {hs : List (Value M)} :
    runPart left member k (n + 1) w fs = some hs ↔ ∃ gs gs', runBefore left member k w fs = some gs ∧
      runOwn k w (runPart left member k n) gs = some gs' ∧ runAfter left member k w gs' = some hs := by
  rw [runPart_succ, Option.bind_eq_some_iff]
  refine exists_congr fun gs => ?_
  rw [Option.bind_eq_some_iff]
  exact ⟨fun ⟨hb, gs', ho, ha⟩ => ⟨gs', hb, ho, ha⟩, fun ⟨gs', hb, ho, ha⟩ => ⟨hb, gs', ho, ha⟩⟩

theorem runBefore_ran (ha : Assigning S left clears member k) (hw : w.Repeats k)
    (h : HasType S (.single (.message (w.message 0))) (.object (w.message 0) fs))
    (hr : runBefore left member k w fs = some gs) : Ran left member k w 0 (w.field 0) fs gs := by
  have hran := runRest_ran ha hw w.beside_take h hr
  have hlt := (List.getElem?_eq_some_iff.mp (w.property 0)).1
  rwa [List.length_take, Nat.min_eq_left (Nat.le_of_lt hlt), Nat.zero_add] at hran

theorem runAfter_ran (ha : Assigning S left clears member k) (hw : w.Repeats k)
    (h : HasType S (.single (.message (w.message 0))) (.object (w.message 0) fs))
    (hr : runAfter left member k w fs = some gs) :
    Ran left member k w (w.field 0 + 1) (S (w.message 0)).properties.length fs gs := by
  have hran := runRest_ran ha hw w.beside_drop h hr
  have hlt := (List.getElem?_eq_some_iff.mp (w.property 0)).1
  rwa [List.length_drop, Nat.add_sub_of_le hlt] at hran

/-- With more assignments allowed inside one another the result is the same. -/
theorem runPart_mono {n n' : Nat} (hn : n ≤ n') {hs : List (Value M)}
    (h : runPart left member k n w fs = some hs) : runPart left member k n' w fs = some hs := by
  induction n generalizing n' w fs hs with
  | zero => cases h
  | succ n ih =>
    obtain ⟨n', rfl⟩ := Nat.exists_eq_succ_of_ne_zero (Nat.ne_zero_of_lt hn)
    rw [runPart_succ] at h ⊢
    obtain ⟨gs, hb, h⟩ := Option.bind_eq_some_iff.mp h
    obtain ⟨gs', ho, h⟩ := Option.bind_eq_some_iff.mp h
    have hpart := runOwn_mono (fun w fs gs => ih (Nat.le_of_succ_le_succ hn)) ho
    exact Option.bind_eq_some_iff.mpr ⟨gs, hb, Option.bind_eq_some_iff.mpr ⟨gs', hpart, h⟩⟩

end

end QtProtobuf.Codec
