import Mathlib.Data.List.Sort
import Mathlib.Order.Defs.LinearOrder

/-!
# Comparing lists and maps of messages (`protobuf/qtprotobuftypes.h`)

`repeatedValueCompare` goes through shared pointers: two pointers to one object
are equal, otherwise the objects are compared. In a map, a key that is looked up
and not found yields a null pointer, and that is dereferenced.

* `comparePairs_eq_true`, `comparePairs_eq_none`: what both loops do with the
  pairs of pointers they come to.
* `list_meets_iff`, `map_meets_iff`: the comparison answers, and rightly, unless
  the first pair that is not equal cannot be compared.
* `repeatedValueCompare_iff`: both, and that the comparisons are equivalences.
-/
namespace QtProtobuf.Codec

/-- A `QSharedPointer`: null, or the address of an object. -/
abbrev Pointer := Option Nat

/-- A `QMap`: its pairs in the order of the keys. -/
structure QMap (K : Type) [LinearOrder K] where
  pairs : List (K × Pointer)
  sorted : pairs.Pairwise fun e e' => e.1 < e'.1

section
variable {K : Type} [LinearOrder K]

/-- `value(key)`: a default-constructed pointer where there is no such key. -/
def QMap.value (b : QMap K) (key : K) : Pointer := (b.pairs.lookup key).getD none

def QMap.keys (b : QMap K) : List K := b.pairs.map Prod.fst

end

/-! ## The two loops -/

section
variable {T K : Type} [LinearOrder K] (object : Nat → T) (eq : T → T → Option Bool)

/-- `*p != *q`. Nothing where a pointer is null, or where `operator ==` of the
elements comes to a null pointer. -/
def differs (p q : Pointer) : Option Bool := do
  let x ← p
  let y ← q
  (eq (object x) (object y)).map (!·)

def compareFrom : List Pointer → List Pointer → Option Bool
  | p :: a, q :: b =>
    if p ≠ q then do
      if ← differs object eq p q then pure false else compareFrom a b
    else compareFrom a b
  | _, _ => some true

/-- mirrors src/protobuf/qtprotobuftypes.h:278-294 -/
def repeatedValueCompare (a b : List Pointer) : Option Bool :=
  if a.length ≠ b.length then some false else compareFrom object eq a b

def compareMapFrom (b : QMap K) : List (K × Pointer) → Option Bool
  | (key, p) :: a =>
    if b.value key ≠ p then do
      if ← differs object eq (b.value key) p then pure false else compareMapFrom b a
    else compareMapFrom b a
  | [] => some true

/-- mirrors src/protobuf/qtprotobuftypes.h:301-315 -/
def repeatedValueCompareMap (a b : QMap K) : Option Bool :=
  if a.pairs.length ≠ b.pairs.length then some false else compareMapFrom object eq b a.pairs

/-! ## Pairs of pointers -/

/-- The two pointers lead to one object, or to equal ones. -/
inductive DeepEq : Pointer → Pointer → Prop where
  | same (p : Pointer) : DeepEq p p
  | equal {x y : Nat} (h : eq (object x) (object y) = some true) : DeepEq (some x) (some y)

/-- What one round finds out. -/
def agree (p q : Pointer) : Option Bool := if p ≠ q then (differs object eq p q).map (!·) else some true

def comparePairs : List (Pointer × Pointer) → Option Bool
  | [] => some true
  | pair :: pairs => do
    if ← agree object eq pair.1 pair.2 then comparePairs pairs else pure false

variable {object eq}

theorem agree_eq_true {p q : Pointer} : agree object eq p q = some true ↔ DeepEq object eq p q := by
  unfold agree differs
  constructor
  · intro h
    by_cases hpq : p = q
    · rw [hpq]
      exact .same q
    · rw [if_pos hpq] at h
      cases p with
      | none => cases h
      | some x =>
        cases q with
        | none => cases h
        | some y =>
          refine .equal ?_
          cases he : eq (object x) (object y) with
          | none => simp [he] at h
          | some r => simpa [he] using h
  · intro h
    cases h with
    | same => simp
    | @equal x y h =>
      by_cases hxy : some x ≠ some y
      · rw [if_pos hxy]
        simp [h]
      · rw [if_neg hxy]

/-- Two pointers that cannot be compared: one of them is null, or `operator ==`
of their objects comes to a null pointer. -/
def Incomparable (object : Nat → T) (eq : T → T → Option Bool) (p q : Pointer) : Prop :=
  p ≠ q ∧ ∀ x y, p = some x → q = some y → eq (object x) (object y) = none

theorem agree_eq_none {p q : Pointer} : agree object eq p q = none ↔ Incomparable object eq p q := by
  unfold agree differs Incomparable
  by_cases hpq : p = q
  · simp [hpq]
  · rw [if_pos hpq]
    cases p with
    | none => simp [hpq]
    | some x =>
      cases q with
      | none => simp
      | some y => simpa using fun _ h => hpq (congrArg some h)

theorem comparePairs_eq_true {pairs : List (Pointer × Pointer)} :
    comparePairs object eq pairs = some true ↔ ∀ p ∈ pairs, DeepEq object eq p.1 p.2 := by
  induction pairs with
  | nil => simp [comparePairs]
  | cons pair pairs ih =>
    rw [List.forall_mem_cons, ← ih, ← agree_eq_true, comparePairs]
    cases ha : agree object eq pair.1 pair.2 with
    | none => simp
    | some r => cases r <;> simp

/-- The first pair that is not equal cannot be compared. -/
def StopsAt (object : Nat → T) (eq : T → T → Option Bool) (pairs : List (Pointer × Pointer)) : Prop :=
  ∃ before pair after, pairs = before ++ pair :: after ∧ (∀ p ∈ before, DeepEq object eq p.1 p.2) ∧
    Incomparable object eq pair.1 pair.2

theorem stopsAt_cons {pair : Pointer × Pointer} {pairs : List (Pointer × Pointer)} :
    StopsAt object eq (pair :: pairs) ↔ Incomparable object eq pair.1 pair.2 ∨
      DeepEq object eq pair.1 pair.2 ∧ StopsAt object eq pairs := by
  constructor
  · intro ⟨before, p, after, hpairs, hbefore, hp⟩
    cases before with
    | nil =>
      obtain ⟨rfl, -⟩ := List.cons.inj hpairs
      exact .inl hp
    | cons b before =>
      obtain ⟨rfl, hrest⟩ := List.cons.inj hpairs
      rw [List.forall_mem_cons] at hbefore
      exact .inr ⟨hbefore.1, before, p, after, hrest, hbefore.2, hp⟩
  · rintro (h | ⟨h, before, p, after, rfl, hbefore, hp⟩)
    · exact ⟨[], pair, pairs, rfl, fun _ hp => absurd hp List.not_mem_nil, h⟩
    · exact ⟨pair :: before, p, after, rfl, List.forall_mem_cons.mpr ⟨h, hbefore⟩, hp⟩

theorem comparePairs_eq_none {pairs : List (Pointer × Pointer)} :
    comparePairs object eq pairs = none ↔ StopsAt object eq pairs := by
  induction pairs with
  | nil =>
    refine iff_of_false (by simp [comparePairs]) ?_
    intro ⟨before, p, after, h, _⟩
    exact absurd h (by simp)
  | cons pair pairs ih =>
    rw [stopsAt_cons, ← ih, ← agree_eq_none, ← agree_eq_true, comparePairs]
    cases ha : agree object eq pair.1 pair.2 with
    | none => simp
    | some r => cases r <;> simp

theorem compareFrom_eq (a b : List Pointer) :
    compareFrom object eq a b = comparePairs object eq (a.zip b) := by
  induction a generalizing b with
  | nil => rfl
  | cons p a ih =>
    cases b with
    | nil => rfl
    | cons q b =>
      rw [compareFrom, List.zip_cons_cons, comparePairs, ih, agree]
      by_cases hpq : p ≠ q
      · rw [if_pos hpq, if_pos hpq]
        cases differs object eq p q with
        | none => rfl
        | some r => cases r <;> rfl
      · rw [if_neg hpq, if_neg hpq]
        rfl

theorem compareMapFrom_eq (b : QMap K) (pairs : List (K × Pointer)) :
    compareMapFrom object eq b pairs = comparePairs object eq (pairs.map fun e => (b.value e.1, e.2)) := by
  induction pairs with
  | nil => rfl
  | cons e pairs ih =>
    obtain ⟨key, p⟩ := e
    rw [compareMapFrom, List.map_cons, comparePairs, ih, agree]
    by_cases hpq : b.value key ≠ p
    · rw [if_pos hpq, if_pos hpq]
      cases differs object eq (b.value key) p with
      | none => rfl
      | some r => cases r <;> rfl
    · rw [if_neg hpq, if_neg hpq]
      rfl

/-! ## What is asked for -/

/-- The comparison dereferences no null pointer, and is true exactly if `P`. -/
def Meets (r : Option Bool) (P : Prop) : Prop := ∃ equal, r = some equal ∧ (equal = true ↔ P)

theorem meets_iff {r : Option Bool} {P : Prop} (h : r = some true ↔ P) : Meets r P ↔ r ≠ none := by
  constructor
  · rintro ⟨equal, rfl, -⟩
    exact Option.some_ne_none equal
  · intro hr
    obtain ⟨equal, rfl⟩ := Option.ne_none_iff_exists'.mp hr
    exact ⟨equal, rfl, by rw [← h, Option.some.injEq]⟩

/-- The same length, and equal elements at each position. -/
def ListEq (object : Nat → T) (eq : T → T → Option Bool) (a b : List Pointer) : Prop :=
  a.length = b.length ∧ ∀ (i : Nat) p q, a[i]? = some p → b[i]? = some q → DeepEq object eq p q

/-- The same keys, and equal values at each of them. -/
def MapEq (object : Nat → T) (eq : T → T → Option Bool) (a b : QMap K) : Prop :=
  (∀ key, key ∈ a.keys ↔ key ∈ b.keys) ∧
    ∀ key p q, (key, p) ∈ a.pairs → (key, q) ∈ b.pairs → DeepEq object eq q p

/-! ## Lists -/

theorem list_eq_true {a b : List Pointer} :
    repeatedValueCompare object eq a b = some true ↔ ListEq object eq a b := by
  unfold repeatedValueCompare ListEq
  by_cases hl : a.length = b.length
  · rw [if_neg (not_not.mpr hl), compareFrom_eq, comparePairs_eq_true]
    constructor
    · intro h
      refine ⟨hl, fun i p q hp hq => h (p, q) ?_⟩
      exact List.mem_of_getElem? (List.getElem?_zip_eq_some.mpr ⟨hp, hq⟩)
    · intro ⟨_, h⟩ pair hpair
      obtain ⟨i, hi⟩ := List.mem_iff_getElem?.mp hpair
      obtain ⟨hp, hq⟩ := List.getElem?_zip_eq_some.mp hi
      exact h i _ _ hp hq
  · simp [hl]

/-- `operator ==` of two different objects comes to a null pointer. -/
def ElementStops (object : Nat → T) (eq : T → T → Option Bool) (p q : Pointer) : Prop :=
  ∃ x y, p = some x ∧ q = some y ∧ x ≠ y ∧ eq (object x) (object y) = none

theorem incomparable_iff {p q : Pointer} (hp : p ≠ none) (hq : q ≠ none) :
    Incomparable object eq p q ↔ ElementStops object eq p q := by
  obtain ⟨x, rfl⟩ := Option.ne_none_iff_exists'.mp hp
  obtain ⟨y, rfl⟩ := Option.ne_none_iff_exists'.mp hq
  simp [Incomparable, ElementStops]

/-- The first elements that are not equal cannot be compared. -/
def ListStops (object : Nat → T) (eq : T → T → Option Bool) (a b : List Pointer) : Prop :=
  a.length = b.length ∧ ∃ before pair after, a.zip b = before ++ pair :: after ∧
    (∀ e ∈ before, DeepEq object eq e.1 e.2) ∧ ElementStops object eq pair.1 pair.2

theorem list_meets_iff {a b : List Pointer} (ha : ∀ p ∈ a, p ≠ none) (hb : ∀ p ∈ b, p ≠ none) :
    Meets (repeatedValueCompare object eq a b) (ListEq object eq a b) ↔ ¬ ListStops object eq a b := by
  have hstops : StopsAt object eq (a.zip b) ↔ ∃ before pair after, a.zip b = before ++ pair :: after ∧
      (∀ e ∈ before, DeepEq object eq e.1 e.2) ∧ ElementStops object eq pair.1 pair.2 := by
    refine exists_congr fun before => exists_congr fun pair => exists_congr fun after =>
      and_congr_right fun hpairs => and_congr_right fun _ => ?_
    have hmem : (pair.1, pair.2) ∈ a.zip b := by simp [hpairs]
    obtain ⟨hp, hq⟩ := List.of_mem_zip hmem
    exact incomparable_iff (ha _ hp) (hb _ hq)
  rw [meets_iff list_eq_true, ListStops, ← hstops]
  unfold repeatedValueCompare
  by_cases hl : a.length = b.length
  · rw [if_neg (not_not.mpr hl), compareFrom_eq, ne_eq, comparePairs_eq_none]
    simp [hl]
  · simp [hl]

/-! ## Maps -/

theorem QMap.mem_keys {b : QMap K} {key : K} : key ∈ b.keys ↔ ∃ p, (key, p) ∈ b.pairs := by
  simp [QMap.keys]

theorem QMap.keys_sorted (b : QMap K) : b.keys.Pairwise (· < ·) := List.pairwise_map.mpr b.sorted

theorem QMap.value_of_mem {b : QMap K} {key : K} {p : Pointer} (h : (key, p) ∈ b.pairs) :
    b.value key = p := by
  obtain ⟨before, after, hpairs⟩ := List.append_of_mem h
  have hfirst : ∀ e ∈ before, key != e.1 := by
    intro e he
    have hsorted := b.sorted
    rw [hpairs, List.pairwise_append] at hsorted
    have hlt := hsorted.2.2 e he (key, p) List.mem_cons_self
    exact bne_iff_ne.mpr (ne_of_gt hlt)
  unfold QMap.value
  rw [List.lookup_eq_some_iff.mpr ⟨before, after, hpairs, hfirst⟩]
  rfl

theorem QMap.value_of_not_mem {b : QMap K} {key : K} (h : key ∉ b.keys) : b.value key = none := by
  have hnone : b.pairs.lookup key = none := by
    rw [List.lookup_eq_none_iff]
    intro e he
    refine bne_iff_ne.mpr fun hk => h ?_
    rw [hk]
    exact List.mem_map_of_mem he
  unfold QMap.value
  rw [hnone]
  rfl

/-- A map without null pointers. -/
def QMap.NonNull (b : QMap K) : Prop := ∀ e ∈ b.pairs, e.2 ≠ none

/-- The pairs of pointers that the loop over the pairs of `a` comes to. -/
def lookedUp (b : QMap K) (pairs : List (K × Pointer)) : List (Pointer × Pointer) :=
  pairs.map fun e => (b.value e.1, e.2)

theorem QMap.keys_subset {a b : QMap K} (ha : a.NonNull)
    (h : ∀ p ∈ lookedUp b a.pairs, DeepEq object eq p.1 p.2) : a.keys ⊆ b.keys := by
  intro key hkey
  obtain ⟨p, hp⟩ := QMap.mem_keys.mp hkey
  by_contra hb
  have hdeep := h (b.value key, p) (List.mem_map.mpr ⟨_, hp, rfl⟩)
  rw [QMap.value_of_not_mem hb] at hdeep
  cases hdeep with
  | same => exact ha _ hp rfl

theorem map_eq_true {a b : QMap K} (ha : a.NonNull) :
    repeatedValueCompareMap object eq a b = some true ↔ MapEq object eq a b := by
  have hlengths : a.keys.length = a.pairs.length ∧ b.keys.length = b.pairs.length := by simp [QMap.keys]
  unfold repeatedValueCompareMap MapEq
  constructor
  · intro h
    by_cases hl : a.pairs.length = b.pairs.length
    · rw [if_neg (not_not.mpr hl), compareMapFrom_eq, comparePairs_eq_true] at h
      -- as many different keys, so the same ones
      have hsub := QMap.keys_subset ha h
      have hperm := (List.subperm_of_subset (QMap.keys_sorted a).nodup hsub).perm_of_length_le
        (by omega)
      refine ⟨fun key => hperm.mem_iff, fun key p q hp hq => ?_⟩
      have hdeep := h (b.value key, p) (List.mem_map.mpr ⟨_, hp, rfl⟩)
      rwa [QMap.value_of_mem hq] at hdeep
    · rw [if_pos hl] at h
      cases h
  · intro ⟨hkeys, hvalues⟩
    have hsame : a.keys = b.keys := (QMap.keys_sorted a).eq_of_mem_iff (QMap.keys_sorted b) hkeys
    have hl : a.pairs.length = b.pairs.length := by
      rw [← hlengths.1, hsame, hlengths.2]
    rw [if_neg (not_not.mpr hl), compareMapFrom_eq, comparePairs_eq_true]
    intro pair hpair
    obtain ⟨⟨key, p⟩, hp, rfl⟩ := List.mem_map.mp hpair
    obtain ⟨q, hq⟩ := QMap.mem_keys.mp ((hkeys key).mp (QMap.mem_keys.mpr ⟨p, hp⟩))
    simp only [QMap.value_of_mem hq]
    exact hvalues key p q hp hq

/-- The first key whose values are not equal is no key of `b`, or its values
cannot be compared. -/
def MapStops (object : Nat → T) (eq : T → T → Option Bool) (a b : QMap K) : Prop :=
  a.pairs.length = b.pairs.length ∧ ∃ before key p after, a.pairs = before ++ (key, p) :: after ∧
    (∀ e ∈ before, DeepEq object eq (b.value e.1) e.2) ∧
    (key ∉ b.keys ∨ ElementStops object eq (b.value key) p)

theorem incomparable_value_iff {b : QMap K} (hb : b.NonNull) {key : K} {p : Pointer} (hp : p ≠ none) :
    Incomparable object eq (b.value key) p ↔ key ∉ b.keys ∨ ElementStops object eq (b.value key) p := by
  by_cases hk : key ∈ b.keys
  · obtain ⟨q, hq⟩ := QMap.mem_keys.mp hk
    have hvalue : b.value key ≠ none := by
      rw [QMap.value_of_mem hq]
      exact hb _ hq
    rw [incomparable_iff hvalue hp]
    simp [hk]
  · refine iff_of_true ?_ (.inl hk)
    rw [QMap.value_of_not_mem hk]
    exact ⟨Ne.symm hp, fun x y hx => absurd hx (by simp)⟩

theorem stopsAt_lookedUp {b : QMap K} (hb : b.NonNull) {pairs : List (K × Pointer)}
    (hp : ∀ e ∈ pairs, e.2 ≠ none) :
    StopsAt object eq (lookedUp b pairs) ↔ ∃ before key p after, pairs = before ++ (key, p) :: after ∧
      (∀ e ∈ before, DeepEq object eq (b.value e.1) e.2) ∧
      (key ∉ b.keys ∨ ElementStops object eq (b.value key) p) := by
  constructor
  · intro ⟨before, pair, after, hpairs, hbefore, hpair⟩
    obtain ⟨l₁, l₂, rfl, rfl, h₂⟩ := List.map_eq_append_iff.mp hpairs
    obtain ⟨⟨key, p⟩, l₃, rfl, rfl, rfl⟩ := List.map_eq_cons_iff.mp h₂
    refine ⟨l₁, key, p, l₃, rfl, fun e he => hbefore _ (List.mem_map.mpr ⟨e, he, rfl⟩), ?_⟩
    exact (incomparable_value_iff hb (hp (key, p) (by simp))).mp hpair
  · rintro ⟨before, key, p, after, rfl, hbefore, hpair⟩
    refine ⟨lookedUp b before, (b.value key, p), lookedUp b after, by simp [lookedUp], ?_, ?_⟩
    · intro q hq
      obtain ⟨e, he, rfl⟩ := List.mem_map.mp hq
      exact hbefore e he
    · exact (incomparable_value_iff hb (hp (key, p) (by simp))).mpr hpair

theorem map_meets_iff {a b : QMap K} (ha : a.NonNull) (hb : b.NonNull) :
    Meets (repeatedValueCompareMap object eq a b) (MapEq object eq a b) ↔ ¬ MapStops object eq a b := by
  rw [meets_iff (map_eq_true ha), MapStops, ← stopsAt_lookedUp hb ha]
  unfold repeatedValueCompareMap
  by_cases hl : a.pairs.length = b.pairs.length
  · rw [if_neg (not_not.mpr hl), compareMapFrom_eq, ne_eq, comparePairs_eq_none]
    simp [hl, lookedUp]
  · simp [hl]

/-! ## Equivalence -/

theorem DeepEq.symm (hs : ∀ x y, eq x y = some true → eq y x = some true) {p q : Pointer}
    (h : DeepEq object eq p q) : DeepEq object eq q p := by
  cases h with
  | same => exact .same _
  | equal h => exact .equal (hs _ _ h)

theorem DeepEq.trans (ht : ∀ x y z, eq x y = some true → eq y z = some true → eq x z = some true)
    {p q r : Pointer} (h : DeepEq object eq p q) (h' : DeepEq object eq q r) : DeepEq object eq p r := by
  cases h with
  | same => exact h'
  | equal h =>
    cases h' with
    | same => exact .equal h
    | equal h' => exact .equal (ht _ _ _ h h')

/-- An equivalence, as far as `operator ==` of the elements is one. -/
structure IsEquivalence {C : Type} (eq : T → T → Option Bool) (Ok : C → Prop) (compare : C → C → Option Bool) :
    Prop where
  refl : ∀ a, Ok a → compare a a = some true
  symm : (∀ x y, eq x y = some true → eq y x = some true) →
    ∀ a b, Ok a → Ok b → compare a b = some true → compare b a = some true
  trans : (∀ x y z, eq x y = some true → eq y z = some true → eq x z = some true) →
    ∀ a b c, Ok a → Ok b → Ok c → compare a b = some true → compare b c = some true → compare a c = some true

theorem list_equivalence :
    IsEquivalence eq (fun a : List Pointer => ∀ p ∈ a, p ≠ none) (repeatedValueCompare object eq) where
  refl a _ := by
    refine list_eq_true.mpr ⟨rfl, fun i p q hp hq => ?_⟩
    rw [hp, Option.some.injEq] at hq
    rw [hq]
    exact .same q
  symm hs a b _ _ h := by
    obtain ⟨hl, hab⟩ := list_eq_true.mp h
    exact list_eq_true.mpr ⟨hl.symm, fun i q p hq hp => (hab i p q hp hq).symm hs⟩
  trans ht a b c _ _ _ h h' := by
    obtain ⟨hl, hab⟩ := list_eq_true.mp h
    obtain ⟨hl', hbc⟩ := list_eq_true.mp h'
    refine list_eq_true.mpr ⟨hl.trans hl', fun i p r hp hr => ?_⟩
    obtain ⟨hi, -⟩ := List.getElem?_eq_some_iff.mp hr
    have hq : b[i]? = some b[i] := List.getElem?_eq_getElem (by omega)
    exact (hab i p _ hp hq).trans ht (hbc i _ r hq hr)

theorem map_equivalence :
    IsEquivalence eq (QMap.NonNull (K := K)) (repeatedValueCompareMap object eq) where
  refl a ha := by
    refine (map_eq_true ha).mpr ⟨fun _ => Iff.rfl, fun key p q hp hq => ?_⟩
    rw [← QMap.value_of_mem hp, QMap.value_of_mem hq]
    exact .same q
  symm hs a b ha hb h := by
    obtain ⟨hkeys, hab⟩ := (map_eq_true ha).mp h
    exact (map_eq_true hb).mpr ⟨fun key => (hkeys key).symm,
      fun key q p hq hp => (hab key p q hp hq).symm hs⟩
  trans ht a b c ha hb hc h h' := by
    obtain ⟨hkeys, hab⟩ := (map_eq_true ha).mp h
    obtain ⟨hkeys', hbc⟩ := (map_eq_true hb).mp h'
    refine (map_eq_true ha).mpr ⟨fun key => (hkeys key).trans (hkeys' key), fun key p r hp hr => ?_⟩
    obtain ⟨q, hq⟩ := QMap.mem_keys.mp ((hkeys key).mp (QMap.mem_keys.mpr ⟨p, hp⟩))
    exact (hbc key q r hq hr).trans ht (hab key p q hp hq)

end

/-- **Comparing containers.** Lists of messages are compared rightly unless the
comparing of two elements stops; maps, unless it comes to a key the other map
does not have, or stops there. Both comparisons are equivalences. -/
theorem repeatedValueCompare_iff {T K : Type} [LinearOrder K] (object : Nat → T) (eq : T → T → Option Bool) :
    (∀ a b : List Pointer, (∀ p ∈ a, p ≠ none) → (∀ p ∈ b, p ≠ none) →
        (Meets (repeatedValueCompare object eq a b) (ListEq object eq a b) ↔ ¬ ListStops object eq a b)) ∧
      (∀ a b : QMap K, a.NonNull → b.NonNull →
        (Meets (repeatedValueCompareMap object eq a b) (MapEq object eq a b) ↔ ¬ MapStops object eq a b)) ∧
      IsEquivalence eq (fun a : List Pointer => ∀ p ∈ a, p ≠ none) (repeatedValueCompare object eq) ∧
      IsEquivalence eq (QMap.NonNull (K := K)) (repeatedValueCompareMap object eq) :=
  ⟨fun _ _ => list_meets_iff, fun _ _ => map_meets_iff, list_equivalence, map_equivalence⟩

/-- A map with one key. -/
def oneKey (key : Nat) (p : Pointer) : QMap Nat := ⟨[(key, p)], List.pairwise_singleton _ _⟩

/-- `==` of numbers, for the objects of an example. -/
def sameNumber (x y : Nat) : Option Bool := some (x == y)

theorem compare_shared : repeatedValueCompare id sameNumber [some 0, some 1] [some 0, some 1] = some true :=
  (repeatedValueCompare_iff (K := Nat) id sameNumber).2.2.1.refl [some 0, some 1] (by decide)

/-- Two maps with one key each, and not the same one: the loop comes to a null pointer. -/
theorem not_meets_otherKey :
    repeatedValueCompareMap id sameNumber (oneKey 1 (some 0)) (oneKey 2 (some 0)) = none ∧
      ¬ Meets (repeatedValueCompareMap id sameNumber (oneKey 1 (some 0)) (oneKey 2 (some 0)))
        (MapEq id sameNumber (oneKey 1 (some 0)) (oneKey 2 (some 0))) := by
  have hnone : repeatedValueCompareMap id sameNumber (oneKey 1 (some 0)) (oneKey 2 (some 0)) = none := by
    decide
  refine ⟨hnone, fun ⟨equal, h, _⟩ => ?_⟩
  rw [hnone] at h
  cases h

end QtProtobuf.Codec
