import QtProtobuf.L2Codec.Decoded
import QtProtobuf.L2Codec.Setters

/-!
# The generated `operator ==` and the objects it creates

A nested message is behind a `QProtobufLazyMessagePointer`, which creates its
object when it is dereferenced, also by a comparison. A null pointer of a map
that lacks a key is dereferenced as it is.

* `equalObjects`: what `operator ==` answers, as a function of the values.
* `compareObjects`: the same with the objects that are created on the way.
* `equalField_creates`, `equalField_filled`: created objects do not change an
  answer.
* `equalField_tells`: an answer is true if the values are the `Same`, and there is
  none if a null pointer is dereferenced.
-/
namespace QtProtobuf.Codec

variable {M : Type}

/-! ## Nested objects -/

mutual
/-- How many objects lie inside one another. -/
def Value.depth : Value M → Nat
  | .object _ fs => depths fs + 1
  | .messages vs => depths vs
  | .map es => pairDepths es
  | _ => 0

def depths : List (Value M) → Nat
  | [] => 0
  | v :: vs => max v.depth (depths vs)

def pairDepths : List (Scalar × Value M) → Nat
  | [] => 0
  | (_, v) :: es => max v.depth (pairDepths es)
end

/-- `b.value(key)`: the value of the key, or a null pointer. -/
def valueOrNull (m : M) (es : List (Scalar × Value M)) (key : Scalar) : Value M :=
  ((es.find? fun e => e.1.key == key.key).map Prod.snd).getD (.unset m)

/-! ## The answer -/

section
variable {α : Type} (S : Schema M)

/-- `one && one && …`; no answer where one of them dereferences a null pointer. -/
def equalEach (one : α → Value M → Value M → Option Bool) :
    List α → List (Value M) → List (Value M) → Option Bool
  | a :: as, v :: vs, w :: ws => do if ← one a v w then equalEach one as vs ws else pure false
  | _, _, _ => some true

/-- `p == q || *p == *q` of two pointers of a list or a map. -/
def equalPointees (objects : M → List (Value M) → List (Value M) → Option Bool) :
    Value M → Value M → Option Bool
  | .unset _, .unset _ => some true
  | .object m fs, .object _ gs => objects m fs gs
  | _, _ => none

/-- The loop over the pairs of `a`: `b.value(key)` with the value of the pair. -/
def equalPairs (m : M) (one : Value M → Value M → Option Bool) (b : List (Scalar × Value M)) :
    List (Scalar × Value M) → Option Bool
  | (key, v) :: es => do if ← one (valueOrNull m b key) v then equalPairs m one b es else pure false
  | [] => some true

/-- `==` of a field of the type. -/
def equalField (objects : M → List (Value M) → List (Value M) → Option Bool) (t : FieldType M)
    (v w : Value M) : Option Bool :=
  match t, v, w with
  | .single (.message _), .unset _, .unset _ => some true
  | .single (.message m), v, w => objects m (v.fields S) (w.fields S)
  | .messages m, .messages vs, .messages ws =>
    if vs.length = ws.length then
      equalEach (fun _ => equalPointees objects) (List.replicate vs.length m) vs ws
    else some false
  | .map _ (.message m), .map es, .map es' =>
    if es.length = es'.length then equalPairs m (equalPointees objects) es' es else some false
  | _, v, w => some (v.same w)

/-- `operator ==` of two objects with fewer than `n` objects inside one another. -/
def equalObjects : Nat → M → List (Value M) → List (Value M) → Option Bool
  | 0, _, _, _ => none
  | n + 1, m, fs, gs => equalEach (equalField S (equalObjects n)) (S m).properties fs gs

end

/-! ## The comparison -/

/-- The answer, and what became of the two operands. -/
abbrev Compared (α : Type) := Bool × α × α

section
variable {α : Type} (S : Schema M)

/-- The fields, and the elements of lists, until two differ; nothing where a null
pointer is dereferenced: mirrors
src/generator/messagedefinitionprinter.cpp:304-353 and the loop of src/protobuf/qtprotobuftypes.h:283-291 -/
def compareEach (one : α → Value M → Value M → Option (Compared (Value M))) :
    List α → List (Value M) → List (Value M) → Option (Compared (List (Value M)))
  | a :: as, v :: vs, w :: ws => do
    let (equal, v, w) ← one a v w
    if equal then
      (compareEach one as vs ws).map fun r => (r.1, v :: r.2.1, w :: r.2.2)
    else pure (false, v :: vs, w :: ws)
  | _, vs, ws => some (true, vs, ws)

variable (objects : M → List (Value M) → List (Value M) → Option (Compared (List (Value M))))

/-- `*a == *b` of two objects. -/
def compareInside (m : M) (fs gs : List (Value M)) : Option (Compared (Value M)) :=
  (objects m fs gs).map fun r => (r.1, .object m r.2.1, .object m r.2.2)

/-- `*itA != *itB && *(*itA) != *(*itB)`: a null pointer is equal to another one. -/
def comparePointees : Value M → Value M → Option (Compared (Value M))
  | .unset m, .unset m' => some (true, .unset m, .unset m')
  | .object m fs, .object _ gs => compareInside objects m fs gs
  | _, _ => none

/-- The value of the key, if there is one. -/
def replaceValue (key : Scalar) (v : Value M) : List (Scalar × Value M) → List (Scalar × Value M)
  | [] => []
  | e :: es => if e.1.key == key.key then (e.1, v) :: es else e :: replaceValue key v es

/-- mirrors the loop of src/protobuf/qtprotobuftypes.h:307-312 -/
def compareMaps (m : M) (b : List (Scalar × Value M)) :
    List (Scalar × Value M) → Option (Compared (List (Scalar × Value M)))
  | (key, v) :: es => do
    let (equal, w, v) ← comparePointees objects (valueOrNull m b key) v
    let b := replaceValue key w b
    if equal then
      (compareMaps m b es).map fun r => (r.1, (key, v) :: r.2.1, r.2.2)
    else pure (false, (key, v) :: es, b)
  | [] => some (true, [], b)

/-- `m_field == other.m_field`: mirrors
src/protobuf/qprotobuflazymessagepointer.h:62-76. The object of `T{}` is gone
after the comparison. -/
def compareLazy (m : M) : Value M → Value M → Option (Compared (Value M))
  | .unset _, .unset _ => some (true, .unset m, .unset m)
  | .unset _, .object _ gs =>
    (objects m gs (newObject S m)).map fun r => (r.1, .unset m, .object m r.2.1)
  | .object _ fs, .unset _ =>
    (objects m fs (newObject S m)).map fun r => (r.1, .object m r.2.1, .unset m)
  | .object _ fs, .object _ gs => compareInside objects m fs gs
  | _, _ => none

/-- `(m_field == other.m_field || *m_field == *other.m_field)`: mirrors
src/generator/templates.cpp:158-160 (EqualOperatorMessagePropertyTemplate) -/
def compareMessage (m : M) (v w : Value M) : Option (Compared (Value M)) := do
  let (equal, v, w) ← compareLazy S objects m v w
  if equal then pure (true, v, w) else compareInside objects m (v.fields S) (w.fields S)

/-- mirrors src/generator/messagedefinitionprinter.cpp:331-337 (which template a
field has) and src/protobuf/qtprotobuftypes.h:278-315 (repeatedValueCompare) -/
def compareField (t : FieldType M) (v w : Value M) : Option (Compared (Value M)) :=
  match t, v, w with
  | .single (.message m), v, w => compareMessage S objects m v w
  | .messages m, .messages vs, .messages ws =>
    if vs.length = ws.length then
      (compareEach (fun _ => comparePointees objects) (List.replicate vs.length m) vs ws).map fun r =>
        (r.1, .messages r.2.1, .messages r.2.2)
    else some (false, v, w)
  | .map _ (.message m), .map es, .map es' =>
    if es.length = es'.length then
      (compareMaps objects m es' es).map fun r => (r.1, .map r.2.1, .map r.2.2)
    else some (false, v, w)
  | _, v, w => some (v.same w, v, w)

end

/-- `operator ==` of two objects with fewer than `n` objects inside one another:
mirrors src/generator/messagedefinitionprinter.cpp:304-353 -/
def compareObjects (S : Schema M) :
    Nat → M → List (Value M) → List (Value M) → Option (Compared (List (Value M)))
  | 0, _, _, _ => none
  | n + 1, m, fs, gs => compareEach (compareField S (compareObjects S n)) (S m).properties fs gs

variable {S : Schema M}

/-! ## Depth -/

theorem depths_le {n : Nat} {vs : List (Value M)} : depths vs ≤ n ↔ ∀ v ∈ vs, v.depth ≤ n := by
  induction vs with
  | nil => simp [depths]
  | cons v vs ih => simp [depths, ih]

theorem pairDepths_eq (es : List (Scalar × Value M)) : pairDepths es = depths (es.map Prod.snd) := by
  induction es with
  | nil => rfl
  | cons e es ih =>
    obtain ⟨key, v⟩ := e
    simp [pairDepths, depths, ih]

theorem depths_set_le {fs : List (Value M)} {i : Nat} {v w : Value M} (hv : fs[i]? = some v)
    (h : v.depth ≤ w.depth) : depths fs ≤ depths (fs.set i w) := by
  have hset := depths_le.mp (Nat.le_refl (depths (fs.set i w)))
  obtain ⟨hlt, hget⟩ := List.getElem?_eq_some_iff.mp hv
  rw [depths_le]
  intro u hu
  obtain ⟨j, hj⟩ := List.mem_iff_getElem?.mp hu
  by_cases hij : i = j
  · rw [← hij, hv] at hj
    cases hj
    exact h.trans (hset w (List.mem_of_getElem? (List.getElem?_set_self hlt)))
  · exact hset u (List.mem_of_getElem? ((List.getElem?_set_ne hij).trans hj))

@[simp] theorem depth_object {m : M} {fs : List (Value M)} : (Value.object m fs).depth = depths fs + 1 := by
  rw [Value.depth]

@[simp] theorem depth_unset {m : M} : (Value.unset m).depth = 0 := by
  simp [Value.depth]

theorem depth_default (t : FieldType M) : t.default.depth = 0 := by
  cases t with
  | single t => cases t <;> rfl
  | _ => rfl

theorem depths_newObject (S : Schema M) (m : M) : depths (newObject S m) = 0 := by
  have hle : depths (newObject S m) ≤ 0 := by
    rw [depths_le]
    intro v hv
    obtain ⟨t, -, rfl⟩ := List.mem_map.mp hv
    exact Nat.le_of_eq (depth_default t)
  omega

/-! ## Created objects -/

/-- One pointer that was not set gets its default object. -/
inductive Creates (S : Schema M) : Value M → Value M → Prop
  | here (m : M) : Creates S (.unset m) (.object m (newObject S m))
  | field {m : M} {fs : List (Value M)} {i : Nat} {v w : Value M} (hv : fs[i]? = some v)
    (h : Creates S v w) : Creates S (.object m fs) (.object m (fs.set i w))
  | element {vs : List (Value M)} {i : Nat} {m : M} {fs gs : List (Value M)}
    (hv : vs[i]? = some (.object m fs)) (h : Creates S (.object m fs) (.object m gs)) :
    Creates S (.messages vs) (.messages (vs.set i (.object m gs)))
  | entry {es : List (Scalar × Value M)} {i : Nat} {key : Scalar} {m : M} {fs gs : List (Value M)}
    (he : es[i]? = some (key, .object m fs)) (h : Creates S (.object m fs) (.object m gs)) :
    Creates S (.map es) (.map (es.set i (key, .object m gs)))

/-- The same value but for created objects. -/
abbrev Filled (S : Schema M) : Value M → Value M → Prop := Relation.ReflTransGen (Creates S)

theorem Creates.hasType {v w : Value M} (h : Creates S v w) {t : FieldType M} (hv : HasType S t v) :
    HasType S t w := by
  induction h generalizing t with
  | here m =>
    cases hv
    exact hasType_newObject m
  | @field m fs i v w hi h ih =>
    cases hv with
    | object _ hl hfs =>
      obtain ⟨hlt, -⟩ := List.getElem?_eq_some_iff.mp hi
      have ht : (S m).properties[i]? = some (S m).properties[i] := List.getElem?_eq_getElem (hl ▸ hlt)
      exact HasType.set (.object m hl hfs) ht (ih (hfs i _ v ht hi))
  | element hi h ih =>
    cases hv with
    | messages hvs =>
      refine .messages fun u hu => ?_
      rcases List.mem_or_eq_of_mem_set hu with hu | rfl
      · exact hvs u hu
      · exact ih (hvs _ (List.mem_of_getElem? hi))
  | entry hi h ih =>
    cases hv with
    | map hk hvs =>
      have hmem := List.mem_of_getElem? hi
      refine .map (fun e he => ?_) fun e he => ?_
      · rcases List.mem_or_eq_of_mem_set he with he | rfl
        · exact hk e he
        · have hkey := hk _ hmem
          exact hkey
      · rcases List.mem_or_eq_of_mem_set he with he | rfl
        · exact hvs e he
        · exact ih (hvs _ hmem)

theorem Filled.hasType {v w : Value M} (h : Filled S v w) {t : FieldType M} (hv : HasType S t v) :
    HasType S t w := by
  induction h with
  | refl => exact hv
  | tail _ h ih => exact h.hasType ih

theorem Creates.depth_le {v w : Value M} (h : Creates S v w) : v.depth ≤ w.depth := by
  induction h with
  | here m => simp
  | field hi h ih => simpa using depths_set_le hi ih
  | element hi h ih =>
    rw [Value.depth, Value.depth]
    exact depths_set_le hi ih
  | entry hi h ih =>
    rw [Value.depth, Value.depth, pairDepths_eq, pairDepths_eq, List.map_set]
    exact depths_set_le (by rw [List.getElem?_map, hi]; rfl) ih

theorem Filled.depth_le {v w : Value M} (h : Filled S v w) : v.depth ≤ w.depth := by
  induction h with
  | refl => exact Nat.le_refl _
  | tail _ h ih => exact ih.trans h.depth_le

/-! ## The answer and created objects -/

section
variable {α : Type} {one one' : α → Value M → Value M → Option Bool} {as : List α}

theorem equalEach_congr {vs ws vs' ws' : List (Value M)} (hl : vs.length = vs'.length)
    (hl' : ws.length = ws'.length)
    (h : ∀ (i : Nat) a v w v' w', as[i]? = some a → vs[i]? = some v → ws[i]? = some w →
      vs'[i]? = some v' → ws'[i]? = some w' → one a v w = one' a v' w') :
    equalEach one as vs ws = equalEach one' as vs' ws' := by
  induction as generalizing vs ws vs' ws' with
  | nil => rfl
  | cons a as ih =>
    match vs, ws, vs', ws', hl, hl' with
    | [], _, [], _, _, _ => rfl
    | _ :: _, [], _ :: _, [], _, _ => rfl
    | v :: vs, w :: ws, v' :: vs', w' :: ws', hl, hl' =>
      have hone : one a v w = one' a v' w' := h 0 a v w v' w' rfl rfl rfl rfl rfl
      have hrest : equalEach one as vs ws = equalEach one' as vs' ws' :=
        ih (Nat.succ.inj hl) (Nat.succ.inj hl') fun i => h (i + 1)
      rw [equalEach, equalEach, hone, hrest]

/-- One element changes, and its comparison does not. -/
theorem equalEach_set {vs ws : List (Value M)} {i : Nat} {v v' : Value M} (hv : vs[i]? = some v)
    (h : ∀ a w, as[i]? = some a → ws[i]? = some w → one a v w = one a v' w) :
    equalEach one as vs ws = equalEach one as (vs.set i v') ws := by
  refine equalEach_congr (List.length_set).symm rfl fun j a u w u' w' ha hu hw hu' hw' => ?_
  cases hw.symm.trans hw'
  by_cases hij : i = j
  · subst hij
    rw [List.getElem?_set_self (List.getElem?_eq_some_iff.mp hv).1] at hu'
    cases hu'
    cases hv.symm.trans hu
    exact h a w ha hw
  · rw [List.getElem?_set_ne hij, hu] at hu'
    cases hu'
    rfl

theorem equalEach_flip (vs ws : List (Value M)) :
    equalEach one as vs ws = equalEach (fun a w v => one a v w) as ws vs := by
  induction as generalizing vs ws with
  | nil => rfl
  | cons a as ih =>
    match vs, ws with
    | [], [] => rfl
    | [], _ :: _ => rfl
    | _ :: _, [] => rfl
    | v :: vs, w :: ws => rw [equalEach, equalEach, ih]

theorem equalEach_eq_true {vs ws : List (Value M)} : equalEach one as vs ws = some true ↔
    ∀ (i : Nat) a v w, as[i]? = some a → vs[i]? = some v → ws[i]? = some w → one a v w = some true := by
  induction as generalizing vs ws with
  | nil => simp [equalEach]
  | cons a as ih =>
    match vs, ws with
    | [], _ => simp [equalEach]
    | _ :: _, [] => simp [equalEach]
    | v :: vs, w :: ws =>
      rw [equalEach]
      constructor
      · intro h i b x y hb hx hy
        cases hone : one a v w with
        | none => simp [hone] at h
        | some equal =>
          cases equal with
          | false => simp [hone] at h
          | true =>
            cases i with
            | zero =>
              cases hb
              cases hx
              cases hy
              exact hone
            | succ i => exact ih.mp (by simpa [hone] using h) i b x y hb hx hy
      · intro h
        have hrest : equalEach one as vs ws = some true := ih.mpr fun i => h (i + 1)
        simp [h 0 a v w rfl rfl rfl, hrest]

/-- Comparisons that answer, and the same in both directions. -/
theorem equalEach_comm {vs ws : List (Value M)}
    (h : ∀ (i : Nat) a v w, as[i]? = some a → vs[i]? = some v → ws[i]? = some w →
      ∃ equal, one a v w = some equal ∧ one a w v = some equal) :
    ∃ equal, equalEach one as vs ws = some equal ∧ equalEach one as ws vs = some equal := by
  induction as generalizing vs ws with
  | nil => exact ⟨true, rfl, rfl⟩
  | cons a as ih =>
    match vs, ws with
    | [], [] => exact ⟨true, rfl, rfl⟩
    | [], _ :: _ => exact ⟨true, rfl, rfl⟩
    | _ :: _, [] => exact ⟨true, rfl, rfl⟩
    | v :: vs, w :: ws =>
      obtain ⟨equal, h₁, h₂⟩ := h 0 a v w rfl rfl rfl
      rw [equalEach, equalEach, h₁, h₂]
      cases equal with
      | false => exact ⟨false, rfl, rfl⟩
      | true => exact ih fun i => h (i + 1)

/-- A null pointer is dereferenced, and all before it are equal. -/
theorem equalEach_eq_none {vs ws : List (Value M)} : equalEach one as vs ws = none ↔
    ∃ (i : Nat) (a : α) (v w : Value M), as[i]? = some a ∧ vs[i]? = some v ∧ ws[i]? = some w ∧
      (∀ (j : Nat) b x y, j < i → as[j]? = some b → vs[j]? = some x → ws[j]? = some y →
        one b x y = some true) ∧ one a v w = none := by
  induction as generalizing vs ws with
  | nil => simp [equalEach]
  | cons a as ih =>
    match vs, ws with
    | [], _ => simp [equalEach]
    | _ :: _, [] => simp [equalEach]
    | v :: vs, w :: ws =>
      rw [equalEach]
      constructor
      · intro h
        cases hone : one a v w with
        | none => exact ⟨0, a, v, w, rfl, rfl, rfl, fun j _ _ _ hj => absurd hj (Nat.not_lt_zero j), hone⟩
        | some equal =>
          cases equal with
          | false => simp [hone] at h
          | true =>
            obtain ⟨i, b, x, y, hb, hx, hy, hprev, hnone⟩ := ih.mp (by simpa [hone] using h)
            refine ⟨i + 1, b, x, y, hb, hx, hy, fun j b' x' y' hj hb' hx' hy' => ?_, hnone⟩
            cases j with
            | zero =>
              cases hb'
              cases hx'
              cases hy'
              exact hone
            | succ j => exact hprev j b' x' y' (Nat.lt_of_succ_lt_succ hj) hb' hx' hy'
      · rintro ⟨i, b, x, y, hb, hx, hy, hprev, hnone⟩
        cases i with
        | zero =>
          cases hb
          cases hx
          cases hy
          simp [hnone]
        | succ i =>
          have hone := hprev 0 a v w (Nat.succ_pos i) rfl rfl rfl
          have hrest : equalEach one as vs ws = none :=
            ih.mpr ⟨i, b, x, y, hb, hx, hy, fun j b' x' y' hj => hprev (j + 1) b' x' y' (by omega), hnone⟩
          simp [hone, hrest]

end

section
variable {m : M} {one : Value M → Value M → Option Bool} {b b' es : List (Scalar × Value M)}

theorem equalPairs_set {i : Nat} {key : Scalar} {v v' : Value M} (he : es[i]? = some (key, v))
    (h : one (valueOrNull m b key) v = one (valueOrNull m b key) v') :
    equalPairs m one b es = equalPairs m one b (es.set i (key, v')) := by
  induction es generalizing i with
  | nil => cases he
  | cons e es ih =>
    cases i with
    | zero =>
      cases he
      rw [List.set_cons_zero, equalPairs, equalPairs, h]
    | succ i =>
      obtain ⟨k, u⟩ := e
      rw [List.set_cons_succ, equalPairs, equalPairs, ih he]

theorem equalPairs_congr
    (h : ∀ e ∈ es, one (valueOrNull m b e.1) e.2 = one (valueOrNull m b' e.1) e.2) :
    equalPairs m one b es = equalPairs m one b' es := by
  induction es with
  | nil => rfl
  | cons e es ih =>
    obtain ⟨key, v⟩ := e
    rw [equalPairs, equalPairs, h (key, v) List.mem_cons_self, ih fun e he => h e (List.mem_cons_of_mem _ he)]

/-- One value of a map changes: looking a key up yields what it did, or the new value. -/
theorem valueOrNull_set {i : Nat} {key : Scalar} {v : Value M} (he : b[i]? = some (key, v)) (v' : Value M)
    (k : Scalar) :
    valueOrNull m (b.set i (key, v')) k = valueOrNull m b k ∨
      valueOrNull m b k = v ∧ valueOrNull m (b.set i (key, v')) k = v' := by
  induction b generalizing i with
  | nil => cases he
  | cons e es ih =>
    unfold valueOrNull
    cases i with
    | zero =>
      cases he
      rw [List.set_cons_zero, List.find?_cons, List.find?_cons]
      cases hk : key.key == k.key with
      | true => exact .inr ⟨rfl, rfl⟩
      | false => exact .inl rfl
    | succ i =>
      rw [List.set_cons_succ, List.find?_cons, List.find?_cons]
      cases hk : e.1.key == k.key with
      | true => exact .inl rfl
      | false => exact ih he

/-- A looked-up value is one of the map, or a null pointer. -/
theorem valueOrNull_cases (m : M) (b : List (Scalar × Value M)) (k : Scalar) :
    valueOrNull m b k = .unset m ∨ ∃ e ∈ b, valueOrNull m b k = e.2 := by
  unfold valueOrNull
  cases hf : b.find? fun e => e.1.key == k.key with
  | none => exact .inl rfl
  | some e => exact .inr ⟨e, List.mem_of_find?_eq_some hf, rfl⟩

end

/-- The value behind the pointer of a map. -/
theorem hasType_valueOrNull {kt : ScalarType} {m : M} {b : List (Scalar × Value M)}
    (h : HasType S (.map kt (.message m)) (.map b)) (k : Scalar) :
    HasType S (.single (.message m)) (valueOrNull m b k) := by
  cases h with
  | map _ hv =>
    rcases valueOrNull_cases m b k with hnull | ⟨e, he, heq⟩
    · rw [hnull]
      exact .unset m
    · rw [heq]
      exact hv e he

theorem depth_valueOrNull {m : M} {b : List (Scalar × Value M)} {n : Nat} (h : (Value.map b).depth ≤ n)
    (k : Scalar) : (valueOrNull m b k).depth ≤ n := by
  rw [Value.depth, pairDepths_eq, depths_le] at h
  rcases valueOrNull_cases m b k with hnull | ⟨e, he, heq⟩
  · rw [hnull, depth_unset]
    exact Nat.zero_le n
  · rw [heq]
    exact h e.2 (List.mem_map_of_mem he)

theorem hasType_fields {m : M} {v : Value M} (h : HasType S (.single (.message m)) v) :
    HasType S (.single (.message m)) (.object m (v.fields S)) := by
  cases h with
  | unset => exact hasType_newObject m
  | object _ hl hfs => exact .object m hl hfs

theorem depth_fields {m : M} {v : Value M} (h : HasType S (.single (.message m)) v) {n : Nat}
    (hn : v.depth ≤ n + 1) : (Value.object m (v.fields S)).depth ≤ n + 1 := by
  cases h with
  | unset => simp [Value.fields, depths_newObject]
  | object _ hl hfs => exact hn

theorem equalField_object {objects : M → List (Value M) → List (Value M) → Option Bool} {m : M}
    {fs : List (Value M)} {v : Value M} (h : HasType S (.single (.message m)) v) :
    equalField S objects (.single (.message m)) (.object m fs) v = objects m fs (v.fields S) ∧
      equalField S objects (.single (.message m)) v (.object m fs) = objects m (v.fields S) fs := by
  cases h <;> exact ⟨rfl, rfl⟩

/-- What holds of the comparisons of two objects holds through pointers to them. -/
theorem equalPointees_congr {objects : M → List (Value M) → List (Value M) → Option Bool} {m : M}
    {fs gs : List (Value M)} {v : Value M} (h : HasType S (.single (.message m)) v)
    (hobj : equalField S objects (.single (.message m)) (.object m fs) v =
        equalField S objects (.single (.message m)) (.object m gs) v ∧
      equalField S objects (.single (.message m)) v (.object m fs) =
        equalField S objects (.single (.message m)) v (.object m gs)) :
    equalPointees objects (.object m fs) v = equalPointees objects (.object m gs) v ∧
      equalPointees objects v (.object m fs) = equalPointees objects v (.object m gs) := by
  cases h with
  | unset => exact ⟨rfl, rfl⟩
  | object => exact hobj

/-- Two default objects are equal. -/
theorem equalField_default (objects : M → List (Value M) → List (Value M) → Option Bool) (t : FieldType M) :
    equalField S objects t t.default t.default = some true := by
  cases t with
  | single t =>
    cases t with
    | scalar t =>
      cases t with
      | num t => cases t <;> rfl
      | _ => rfl
    | _ => rfl
  | nums t => cases t <;> rfl
  | map kt vt => cases vt <;> rfl
  | _ => rfl

theorem equalObjects_newObject (n : Nat) (m : M) :
    equalObjects S (n + 1) m (newObject S m) (newObject S m) = some true := by
  rw [equalObjects, equalEach_eq_true]
  intro i t v w ht hv hw
  rw [newObject, List.getElem?_map, ht] at hv hw
  cases hv
  cases hw
  exact equalField_default _ t

theorem Value.same_comm (v w : Value M) : v.same w = w.same v :=
  Bool.eq_iff_iff.mpr ⟨Value.same_symm, Value.same_symm⟩

theorem equalField_default_cases {objects : M → List (Value M) → List (Value M) → Option Bool}
    {t : FieldType M} {v : Value M} (hv : HasType S t v)
    (hobj : ∀ m fs, v = .object m fs → ∃ equal, objects m fs (newObject S m) = some equal ∧
      objects m (newObject S m) fs = some equal) :
    ∃ equal, equalField S objects t v t.default = some equal ∧
      equalField S objects t t.default v = some equal := by
  have hsame : ∀ d : Value M, ∃ equal, some (v.same d) = some equal ∧ some (d.same v) = some equal :=
    fun d => ⟨v.same d, rfl, congrArg some (Value.same_comm d v)⟩
  cases hv with
  | unset => exact ⟨true, rfl, rfl⟩
  | object m => exact hobj m _ rfl
  | @messages m vs =>
    cases vs with
    | nil => exact ⟨true, rfl, rfl⟩
    | cons v vs => exact ⟨false, rfl, rfl⟩
  | @map kt vt es =>
    cases vt with
    | message m =>
      cases es with
      | nil => exact ⟨true, rfl, rfl⟩
      | cons e es => exact ⟨false, rfl, rfl⟩
    | _ => exact hsame _
  | _ => exact hsame _

/-- A comparison with a default object answers, and `==` is symmetric there. -/
theorem equalField_default_comm (n : Nat) {t : FieldType M} {v : Value M} (hv : HasType S t v)
    (hn : v.depth ≤ n) : ∃ equal, equalField S (equalObjects S n) t v t.default = some equal ∧
      equalField S (equalObjects S n) t t.default v = some equal := by
  induction n generalizing t v with
  | zero =>
    refine equalField_default_cases hv fun m fs h => ?_
    simp [h] at hn
  | succ n ih =>
    refine equalField_default_cases hv fun m fs h => ?_
    subst h
    rw [depth_object, Nat.succ_le_succ_iff, depths_le] at hn
    cases hv with
    | object _ hl hfs =>
      rw [equalObjects, equalObjects]
      refine equalEach_comm fun i t f d ht hf hd => ?_
      rw [newObject, List.getElem?_map, ht] at hd
      cases hd
      exact ih (hfs i t f ht hf) (hn f (List.mem_of_getElem? hf))

/-- **Created objects.** An answer is the same with the default object created. -/
theorem equalField_creates {v v' : Value M} (h : Creates S v v') {n : Nat} {t : FieldType M} {u : Value M}
    (hv : HasType S t v) (hu : HasType S t u) (hn : v'.depth ≤ n) (hun : u.depth ≤ n) :
    equalField S (equalObjects S n) t v u = equalField S (equalObjects S n) t v' u ∧
      equalField S (equalObjects S n) t u v = equalField S (equalObjects S n) t u v' := by
  induction h generalizing n t u with
  | here m =>
    cases hv
    cases hu with
    | unset =>
      cases n with
      | zero => simp at hn
      | succ n => exact ⟨(equalObjects_newObject n m).symm, (equalObjects_newObject n m).symm⟩
    | object => exact ⟨rfl, rfl⟩
  | @field m fs i v w hi h ih =>
    cases hv with
    | object _ hl hfs =>
      cases n with
      | zero => simp at hn
      | succ n =>
        have hty := hasType_fields hu
        have hdepth := depths_le.mp (Nat.le_of_succ_le_succ (depth_object ▸ depth_fields hu hun))
        have hw : w.depth ≤ n := by
          rw [depth_object] at hn
          exact depths_le.mp (Nat.le_of_succ_le_succ hn) w
            (List.mem_of_getElem? (List.getElem?_set_self (List.getElem?_eq_some_iff.mp hi).1))
        have hone : ∀ a x, (S m).properties[i]? = some a → (u.fields S)[i]? = some x →
            equalField S (equalObjects S n) a v x = equalField S (equalObjects S n) a w x ∧
              equalField S (equalObjects S n) a x v = equalField S (equalObjects S n) a x w :=
          fun a x ha hx => ih (hfs i a v ha hi) (hty.get ha hx) hw (hdepth x (List.mem_of_getElem? hx))
        rw [(equalField_object hu).1, (equalField_object hu).2, (equalField_object hu).1,
          (equalField_object hu).2, equalObjects, equalObjects, equalObjects, equalObjects]
        refine ⟨equalEach_set hi fun a x ha hx => (hone a x ha hx).1, ?_⟩
        rw [equalEach_flip, equalEach_flip (u.fields S)]
        exact equalEach_set hi fun a x ha hx => (hone a x ha hx).2
  | @element vs i m fs gs hi h ih =>
    cases hv with
    | messages hvs =>
      cases hvs _ (List.mem_of_getElem? hi)
      cases hu with
      | @messages _ ws hws =>
        have hgs : (Value.object m gs).depth ≤ n := by
          rw [Value.depth, depths_le] at hn
          exact hn _ (List.mem_of_getElem? (List.getElem?_set_self (List.getElem?_eq_some_iff.mp hi).1))
        rw [Value.depth, depths_le] at hun
        have hone : ∀ x, x ∈ ws → _ := fun x hx => equalPointees_congr (hws x hx)
          (ih (hvs _ (List.mem_of_getElem? hi)) (hws x hx) hgs (hun x hx))
        simp only [equalField, List.length_set]
        refine ⟨if_congr Iff.rfl (equalEach_set hi fun _ x _ hx => (hone x (List.mem_of_getElem? hx)).1) rfl,
          if_congr Iff.rfl ?_ rfl⟩
        rw [equalEach_flip, equalEach_flip ws]
        exact equalEach_set hi fun _ x _ hx => (hone x (List.mem_of_getElem? hx)).2
  | @entry es i key m fs gs hi h ih =>
    have hmem := List.mem_of_getElem? hi
    cases hv with
    | @map kt vt _ hk hvs =>
      have hobj := hvs _ hmem
      cases hobj
      have hty : HasType S (.map kt (.message m)) (.map es) := .map hk hvs
      cases hu with
      | @map _ _ es' hk' hvs' =>
        have hgs : (Value.object m gs).depth ≤ n := by
          rw [Value.depth, pairDepths_eq, depths_le] at hn
          refine hn _ (List.mem_map_of_mem (a := (key, Value.object m gs)) ?_)
          exact List.mem_of_getElem? (List.getElem?_set_self (List.getElem?_eq_some_iff.mp hi).1)
        have hone : ∀ x, HasType S (.single (.message m)) x → x.depth ≤ n → _ := fun x hx hd =>
          equalPointees_congr hx (ih (hvs _ hmem) hx hgs hd)
        simp only [equalField, List.length_set]
        refine ⟨if_congr Iff.rfl (equalPairs_set hi ?_) rfl, if_congr Iff.rfl (equalPairs_congr fun e he => ?_) rfl⟩
        · exact (hone _ (hasType_valueOrNull (.map hk' hvs') key) (depth_valueOrNull hun key)).2
        · have hd : e.2.depth ≤ n := by
            rw [Value.depth, pairDepths_eq, depths_le] at hun
            exact hun _ (List.mem_map_of_mem he)
          rcases valueOrNull_set (m := m) hi (.object m gs) e.1 with hsame | ⟨hold, hnew⟩
          · rw [hsame]
          · rw [hold, hnew]
            exact (hone e.2 (hvs' e he) hd).1

theorem equalField_filled {v v' w w' : Value M} (h : Filled S v v') (h' : Filled S w w') {n : Nat}
    {t : FieldType M} (hv : HasType S t v) (hw : HasType S t w) (hn : v'.depth ≤ n) (hn' : w'.depth ≤ n) :
    equalField S (equalObjects S n) t v w = equalField S (equalObjects S n) t v' w' := by
  have hleft : equalField S (equalObjects S n) t v w = equalField S (equalObjects S n) t v' w := by
    induction h with
    | refl => rfl
    | tail hf hc ih =>
      have hle := h'.depth_le
      rw [ih (hc.depth_le.trans hn), (equalField_creates hc (Filled.hasType hf hv) hw hn (by omega)).1]
  have hright : equalField S (equalObjects S n) t v' w = equalField S (equalObjects S n) t v' w' := by
    have hv' := h.hasType hv
    clear hleft
    induction h' with
    | refl => rfl
    | tail hf hc ih =>
      rw [ih (hc.depth_le.trans hn'), (equalField_creates hc (Filled.hasType hf hw) hv' hn' hn).2]
  rw [hleft, hright]

/-! ## The answer and the values -/

theorem valueOrNull_pointee (m : M) (b : List (Scalar × Value M)) (key : Scalar) :
    (valueOrNull m b key).pointee = valueAt b key := by
  unfold valueOrNull valueAt
  cases b.find? fun e => e.1.key == key.key <;> rfl

theorem equalPairs_eq (m : M) (one : Value M → Value M → Option Bool) (b es : List (Scalar × Value M)) :
    equalPairs m one b es = equalEach (fun _ => one) (List.replicate es.length m)
      (es.map fun e => valueOrNull m b e.1) (es.map Prod.snd) := by
  induction es with
  | nil => rfl
  | cons e es ih =>
    obtain ⟨key, v⟩ := e
    rw [equalPairs, ih]
    rfl

theorem same_iff_pointers {v w : Value M} {ps : List (Option (Value M) × Option (Value M))}
    (hp : comparedPointers v w = some ps) : Same S v w ↔
      (∀ p ∈ ps, p.1.isNone = p.2.isNone) ∧ ∀ a b, (some a, some b) ∈ ps → Same S a b := by
  constructor
  · intro h
    cases h with
    | leaf h =>
      rw [comparedPointers_of_same h hp]
      exact ⟨fun p hp => absurd hp List.not_mem_nil, fun a b hp => absurd hp List.not_mem_nil⟩
    | pointers hp' hn h =>
      cases hp.symm.trans hp'
      exact ⟨hn, h⟩
    | _ => cases hp
  · intro ⟨hn, h⟩
    exact .pointers hp hn h

/-- Before position `i` the pointers lead to the same. -/
def SameBefore (S : Schema M) (ps : List (Option (Value M) × Option (Value M))) (i : Nat) : Prop :=
  (∀ (j : Nat) p, j < i → ps[j]? = some p → p.1.isNone = p.2.isNone) ∧
    ∀ (j : Nat) a b, j < i → ps[j]? = some (some a, some b) → Same S a b

theorem null_iff_pointers {v w : Value M} {ps : List (Option (Value M) × Option (Value M))}
    (hp : comparedPointers v w = some ps) : Null S v w ↔
      ∃ (i : Nat) (p : Option (Value M) × Option (Value M)), ps[i]? = some p ∧ SameBefore S ps i ∧
        (p.1.isNone ≠ p.2.isNone ∨ ∃ a b, p = (some a, some b) ∧ Null S a b) := by
  constructor
  · intro h
    cases h with
    | object => cases hp
    | pointer hp' hnull hprev hi h =>
      cases hp.symm.trans hp'
      exact ⟨_, _, hi, ⟨hnull, hprev⟩, .inl h⟩
    | pointee hp' hnull hprev hi h =>
      cases hp.symm.trans hp'
      exact ⟨_, _, hi, ⟨hnull, hprev⟩, .inr ⟨_, _, rfl, h⟩⟩
  · rintro ⟨i, p, hi, ⟨hnull, hprev⟩, h | ⟨a, b, rfl, h⟩⟩
    · exact .pointer hp hnull hprev hi h
    · exact .pointee hp hnull hprev hi h

/-- What the answer of a comparison says of the values. -/
def Tells (S : Schema M) (answer : Option Bool) (v w : Value M) : Prop :=
  (answer = some true ↔ Same S v w) ∧ (answer = none ↔ Null S v w)

theorem pointee_tells {n : Nat} {m : M} {v w : Value M} (hv : HasType S (.single (.message m)) v)
    (hw : HasType S (.single (.message m)) w)
    (h : ∀ fs gs, v = .object m fs → w = .object m gs → Tells S (equalObjects S n m fs gs) v w) :
    (equalPointees (equalObjects S n) v w = some true ↔ v.pointee.isNone = w.pointee.isNone ∧
        ∀ a b, v.pointee = some a → w.pointee = some b → Same S a b) ∧
      (equalPointees (equalObjects S n) v w = none ↔ v.pointee.isNone ≠ w.pointee.isNone ∨
        ∃ a b, (v.pointee, w.pointee) = (some a, some b) ∧ Null S a b) := by
  cases hv with
  | unset =>
    cases hw with
    | unset => simp [equalPointees, Value.pointee]
    | object => simp [equalPointees, Value.pointee]
  | object =>
    cases hw with
    | unset => simp [equalPointees, Value.pointee]
    | object =>
      obtain ⟨htrue, hnone⟩ := h _ _ rfl rfl
      simp [equalPointees, Value.pointee, htrue, hnone]

/-- The pointers of two lists of values. -/
def pointersOf (vs ws : List (Value M)) : List (Option (Value M) × Option (Value M)) :=
  (vs.zip ws).map fun p => (p.1.pointee, p.2.pointee)

theorem getElem?_pointersOf {vs ws : List (Value M)} {i : Nat} {p : Option (Value M) × Option (Value M)} :
    (pointersOf vs ws)[i]? = some p ↔
      ∃ v w, vs[i]? = some v ∧ ws[i]? = some w ∧ (v.pointee, w.pointee) = p := by
  simp [pointersOf, List.getElem?_zip_eq_some, and_assoc]

theorem equalEach_tells {n : Nat} {m : M} {v w : Value M} {vs ws : List (Value M)}
    (hp : comparedPointers v w = some (pointersOf vs ws))
    (hvs : ∀ v ∈ vs, HasType S (.single (.message m)) v) (hws : ∀ w ∈ ws, HasType S (.single (.message m)) w)
    (h : ∀ fs gs, .object m fs ∈ vs → .object m gs ∈ ws →
      Tells S (equalObjects S n m fs gs) (.object m fs) (.object m gs)) :
    Tells S (equalEach (fun _ => equalPointees (equalObjects S n)) (List.replicate vs.length m) vs ws) v w := by
  have hone := fun v hv w hw => pointee_tells (hvs v hv) (hws w hw)
    fun fs gs hf hg => hf ▸ hg ▸ h fs gs (hf ▸ hv) (hg ▸ hw)
  have htag : ∀ {i : Nat} {u : Value M}, vs[i]? = some u → (List.replicate vs.length m)[i]? = some m := by
    intro i u hu
    rw [List.getElem?_replicate, if_pos (List.getElem?_eq_some_iff.mp hu).1]
  constructor
  · rw [equalEach_eq_true, same_iff_pointers hp]
    constructor
    · intro hall
      refine ⟨fun p hmem => ?_, fun a b hmem => ?_⟩
      · obtain ⟨i, hi⟩ := List.mem_iff_getElem?.mp hmem
        obtain ⟨x, y, hx, hy, rfl⟩ := getElem?_pointersOf.mp hi
        exact ((hone x (List.mem_of_getElem? hx) y (List.mem_of_getElem? hy)).1.mp
          (hall i m x y (htag hx) hx hy)).1
      · obtain ⟨i, hi⟩ := List.mem_iff_getElem?.mp hmem
        obtain ⟨x, y, hx, hy, hxy⟩ := getElem?_pointersOf.mp hi
        obtain ⟨ha, hb⟩ := Prod.mk.inj hxy
        exact ((hone x (List.mem_of_getElem? hx) y (List.mem_of_getElem? hy)).1.mp
          (hall i m x y (htag hx) hx hy)).2 a b ha hb
    · intro ⟨hnull, hsame⟩ i t x y _ hx hy
      have hmem := List.mem_of_getElem? (getElem?_pointersOf.mpr ⟨x, y, hx, hy, rfl⟩)
      refine (hone x (List.mem_of_getElem? hx) y (List.mem_of_getElem? hy)).1.mpr
        ⟨hnull _ hmem, fun a b ha hb => hsame a b ?_⟩
      rwa [ha, hb] at hmem
  · rw [equalEach_eq_none, null_iff_pointers hp]
    constructor
    · rintro ⟨i, t, x, y, -, hx, hy, hprev, hnone⟩
      refine ⟨i, _, getElem?_pointersOf.mpr ⟨x, y, hx, hy, rfl⟩, ⟨fun j p hj hjp => ?_, fun j a b hj hjp => ?_⟩,
        (hone x (List.mem_of_getElem? hx) y (List.mem_of_getElem? hy)).2.mp hnone⟩
      · obtain ⟨x', y', hx', hy', rfl⟩ := getElem?_pointersOf.mp hjp
        exact ((hone x' (List.mem_of_getElem? hx') y' (List.mem_of_getElem? hy')).1.mp
          (hprev j m x' y' hj (htag hx') hx' hy')).1
      · obtain ⟨x', y', hx', hy', hxy⟩ := getElem?_pointersOf.mp hjp
        obtain ⟨ha, hb⟩ := Prod.mk.inj hxy
        exact ((hone x' (List.mem_of_getElem? hx') y' (List.mem_of_getElem? hy')).1.mp
          (hprev j m x' y' hj (htag hx') hx' hy')).2 a b ha hb
    · rintro ⟨i, p, hi, ⟨hnull, hprev⟩, hstop⟩
      obtain ⟨x, y, hx, hy, rfl⟩ := getElem?_pointersOf.mp hi
      refine ⟨i, m, x, y, htag hx, hx, hy, fun j t x' y' hj _ hx' hy' => ?_,
        (hone x (List.mem_of_getElem? hx) y (List.mem_of_getElem? hy)).2.mpr hstop⟩
      have hjp := getElem?_pointersOf.mpr ⟨x', y', hx', hy', rfl⟩
      refine (hone x' (List.mem_of_getElem? hx') y' (List.mem_of_getElem? hy')).1.mpr
        ⟨hnull j _ hj hjp, fun a b ha hb => hprev j a b hj ?_⟩
      rwa [ha, hb] at hjp

/-- Two values that only the setters' `==` compares. -/
theorem same_tells {v w : Value M} (hp : comparedPointers v w = none) (hm : v.message? = none) :
    Tells S (some (v.same w)) v w := by
  constructor
  · constructor
    · intro h
      exact .leaf (Option.some.inj h)
    · intro h
      cases h with
      | leaf h => rw [h]
      | pointers hp' => rw [hp] at hp'; cases hp'
      | _ => cases hm
  · refine ⟨fun h => absurd h (Option.some_ne_none _), fun h => ?_⟩
    cases h with
    | object => cases hm
    | pointer hp' => rw [hp] at hp'; cases hp'
    | pointee hp' => rw [hp] at hp'; cases hp'

theorem scalarMap_tells {es es' : List (Scalar × Value M)} (h : ∀ e ∈ es, e.2.message? = none) :
    Tells S (some (Value.same (.map es) (.map es'))) (.map es) (.map es') := by
  match es, es' with
  | [], [] =>
    have hp : comparedPointers (.map []) (.map []) = some ([] : List (Option (Value M) × Option (Value M))) := rfl
    refine ⟨⟨fun _ => .leaf rfl, fun _ => rfl⟩, fun h => absurd h (Option.some_ne_none _), fun h => ?_⟩
    obtain ⟨i, p, hi, -⟩ := (null_iff_pointers hp).mp h
    cases hi
  | [], e :: es' => exact same_tells rfl rfl
  | e :: es, es' =>
    refine same_tells ?_ rfl
    rw [comparedPointers, if_neg]
    simp [h e List.mem_cons_self]

theorem equalObjects_tells {n : Nat} {m : M} {fs gs : List (Value M)}
    (hf : HasType S (.single (.message m)) (.object m fs)) (hg : HasType S (.single (.message m)) (.object m gs))
    (h : ∀ (i : Nat) t v w, (S m).properties[i]? = some t → fs[i]? = some v → gs[i]? = some w →
      Tells S (equalField S (equalObjects S n) t v w) v w) :
    Tells S (equalObjects S (n + 1) m fs gs) (.object m fs) (.object m gs) := by
  cases hf with
  | object _ hl _ =>
    cases hg with
    | object _ hl' _ =>
      have hty : ∀ {i : Nat} {v : Value M}, fs[i]? = some v → ∃ t, (S m).properties[i]? = some t :=
        fun hv => ⟨_, List.getElem?_eq_getElem (hl ▸ (List.getElem?_eq_some_iff.mp hv).1)⟩
      constructor
      · rw [equalObjects, equalEach_eq_true]
        constructor
        · intro hall
          refine .object (hl.trans hl'.symm) fun i v w hv hw => ?_
          obtain ⟨t, ht⟩ := hty hv
          exact (h i t v w ht hv hw).1.mp (hall i t v w ht hv hw)
        · intro hsame i t v w ht hv hw
          cases hsame with
          | leaf hleaf => cases hleaf
          | object _ hfields => exact (h i t v w ht hv hw).1.mpr (hfields i v w hv hw)
          | pointers hp => cases hp
      · rw [equalObjects, equalEach_eq_none]
        constructor
        · rintro ⟨i, t, v, w, ht, hv, hw, hprev, hnone⟩
          refine .object (fun j x y hj hx hy => ?_) hv hw ((h i t v w ht hv hw).2.mp hnone)
          obtain ⟨u, hu⟩ := hty hx
          exact (h j u x y hu hx hy).1.mp (hprev j u x y hj hu hx hy)
        · intro hnull
          cases hnull with
          | @object _ _ _ i v w hprev hv hw hnull =>
            obtain ⟨t, ht⟩ := hty hv
            refine ⟨i, t, v, w, ht, hv, hw, fun j u x y hj hu hx hy => ?_, (h i t v w ht hv hw).2.mpr hnull⟩
            exact (h j u x y hu hx hy).1.mpr (hprev j x y hj hx hy)
          | pointer hp => cases hp
          | pointee hp => cases hp

/-- What is proved of the answers for objects by induction. -/
def ObjectsTell (S : Schema M) (n : Nat) : Prop :=
  ∀ m fs gs, HasType S (.single (.message m)) (.object m fs) → HasType S (.single (.message m)) (.object m gs) →
    (Value.object m fs).depth ≤ n → (Value.object m gs).depth ≤ n →
    Tells S (equalObjects S n m fs gs) (.object m fs) (.object m gs)

theorem equalMessage_tells {n : Nat} (hobjects : ObjectsTell S n) {m : M} {v w : Value M}
    (hv : HasType S (.single (.message m)) v) (hw : HasType S (.single (.message m)) w) (hn : v.depth ≤ n)
    (hn' : w.depth ≤ n) : Tells S (equalField S (equalObjects S n) (.single (.message m)) v w) v w := by
  have hnew : ∀ {fs : List (Value M)}, HasType S (.single (.message m)) (.object m fs) →
      (Value.object m fs).depth ≤ n →
      Tells S (equalObjects S n m fs (newObject S m)) (.object m fs) (.object m (newObject S m)) := by
    intro fs hf hd
    refine hobjects m fs _ hf (hasType_newObject m) hd ?_
    rw [depth_object] at hd
    rw [depth_object, depths_newObject]
    omega
  cases hv with
  | unset =>
    cases hw with
    | unset =>
      refine ⟨⟨fun _ => .unset m m, fun _ => rfl⟩, fun h => absurd h (Option.some_ne_none _), fun h => ?_⟩
      cases h with
      | pointer hp => cases hp
      | pointee hp => cases hp
    | @object _ gs hl hgs =>
      obtain ⟨equal, hleft, hright⟩ := equalField_default_comm n (.object m hl hgs) hn'
      have hcomm : equalObjects S n m (newObject S m) gs = equalObjects S n m gs (newObject S m) :=
        hright.trans hleft.symm
      obtain ⟨htrue, -⟩ := hnew (.object m hl hgs) hn'
      refine ⟨?_, fun h => absurd (hright.symm.trans h) (Option.some_ne_none _), fun h => ?_⟩
      · show equalObjects S n m (newObject S m) gs = some true ↔ _
        rw [hcomm, htrue]
        refine ⟨.unset_object, fun h => ?_⟩
        cases h with
        | leaf h => cases h
        | unset_object h => exact h
        | pointers hp => cases hp
      · cases h with
        | pointer hp => cases hp
        | pointee hp => cases hp
  | @object _ fs hl hfs =>
    cases hw with
    | unset =>
      obtain ⟨equal, hleft, -⟩ := equalField_default_comm n (.object m hl hfs) hn
      obtain ⟨htrue, -⟩ := hnew (.object m hl hfs) hn
      refine ⟨htrue.trans ⟨.object_unset, fun h => ?_⟩,
        fun h => absurd (hleft.symm.trans h) (Option.some_ne_none _), fun h => ?_⟩
      · cases h with
        | leaf h => cases h
        | object_unset h => exact h
        | pointers hp => cases hp
      · cases h with
        | pointer hp => cases hp
        | pointee hp => cases hp
    | object _ hl' hgs => exact hobjects m _ _ (.object m hl hfs) (.object m hl' hgs) hn hn'

theorem equalField_tells_of {n : Nat} (hobjects : ObjectsTell S n) {t : FieldType M} {v w : Value M}
    (hv : HasType S t v) (hw : HasType S t w) (hn : v.depth ≤ n) (hn' : w.depth ≤ n) :
    Tells S (equalField S (equalObjects S n) t v w) v w := by
  cases t with
  | single t =>
    cases t with
    | message m => exact equalMessage_tells hobjects hv hw hn hn'
    | scalar t =>
      cases hv
      exact same_tells rfl rfl
    | enum =>
      cases hv
      exact same_tells rfl rfl
  | messages m =>
    cases hv with
    | @messages _ vs hvs =>
      cases hw with
      | @messages _ ws hws =>
        rw [Value.depth, depths_le] at hn hn'
        rw [equalField]
        by_cases hl : vs.length = ws.length
        · rw [if_pos hl]
          refine equalEach_tells (by rw [comparedPointers, if_pos hl]; rfl) hvs hws fun fs gs hf hg => ?_
          exact hobjects m fs gs (hvs _ hf) (hws _ hg) (hn _ hf) (hn' _ hg)
        · rw [if_neg hl]
          exact same_tells (v := .messages vs) (w := .messages ws) (by rw [comparedPointers, if_neg hl]) rfl
  | map kt vt =>
    cases hv with
    | @map _ _ es hk hes =>
      cases hw with
      | @map _ _ es' hk' hes' =>
        cases vt with
        | message m =>
          have hm : es.all (fun e => e.2.message?.isSome) = true := by
            rw [List.all_eq_true]
            intro e he
            have hty := hes e he
            generalize e.2 = u at hty ⊢
            cases hty <;> rfl
          rw [equalField]
          by_cases hl : es.length = es'.length
          · rw [if_pos hl, equalPairs_eq]
            have hp : comparedPointers (.map es) (.map es') =
                some (pointersOf (es.map fun e => valueOrNull m es' e.1) (es.map Prod.snd)) := by
              rw [comparedPointers, if_pos ⟨hl, hm⟩, pointersOf, List.zip_map', List.map_map]
              simp [Function.comp_def, valueOrNull_pointee]
            have hd : ∀ e ∈ es, e.2.depth ≤ n := by
              rw [Value.depth, pairDepths_eq, depths_le] at hn
              exact fun e he => hn e.2 (List.mem_map_of_mem he)
            have htags : List.replicate es.length m =
                List.replicate (es.map fun e => valueOrNull m es' e.1).length m := by rw [List.length_map]
            rw [htags]
            refine equalEach_tells hp ?_ ?_ fun fs gs hf hg => ?_
            · exact List.forall_mem_map.mpr fun e _ => hasType_valueOrNull (.map hk' hes') e.1
            · exact List.forall_mem_map.mpr hes
            · obtain ⟨e, -, heq⟩ := List.mem_map.mp hf
              obtain ⟨e', he', heq'⟩ := List.mem_map.mp hg
              have hty := hasType_valueOrNull (.map hk' hes') e.1
              have hd' := depth_valueOrNull hn' (m := m) e.1
              rw [heq] at hty hd'
              exact hobjects m fs gs hty (heq' ▸ hes e' he') hd' (heq' ▸ hd e' he')
          · have hsame : Value.same (.map es) (.map es') = false := by
              rw [Value.same]
              exact sameList_of_length hl
            rw [if_neg hl, ← hsame]
            exact same_tells (by rw [comparedPointers, if_neg fun h => hl h.1]) rfl
        | scalar t =>
          exact scalarMap_tells fun e he => by
            have hty := hes e he
            generalize e.2 = u at hty ⊢
            cases hty
            rfl
        | enum =>
          exact scalarMap_tells fun e he => by
            have hty := hes e he
            generalize e.2 = u at hty ⊢
            cases hty
            rfl
  | _ =>
    cases hv
    exact same_tells rfl rfl

/-- **`operator ==`.** The answer is true if the values are the same, and there is
none if a null pointer is dereferenced. -/
theorem equalField_tells (n : Nat) {t : FieldType M} {v w : Value M} (hv : HasType S t v)
    (hw : HasType S t w) (hn : v.depth ≤ n) (hn' : w.depth ≤ n) :
    Tells S (equalField S (equalObjects S n) t v w) v w := by
  have hobjects : ObjectsTell S n := by
    clear hn hn' hv hw
    induction n with
    | zero =>
      intro m fs gs _ _ hn
      simp at hn
    | succ n ih =>
      intro m fs gs hf hg hn hn'
      rw [depth_object, Nat.succ_le_succ_iff, depths_le] at hn hn'
      refine equalObjects_tells hf hg fun i t v w ht hv hw => ?_
      exact equalField_tells_of ih (hf.get ht hv) (hg.get ht hw) (hn v (List.mem_of_getElem? hv))
        (hn' w (List.mem_of_getElem? hw))
  exact equalField_tells_of hobjects hv hw hn hn'

end QtProtobuf.Codec
