import QtProtobuf.L5Generator.MessagePrinters
import Mathlib.Data.List.Nodup

/-!
# Every nested message is generated

Which classes the passes of the message printers print. A nested message is
found through the fields of the message around it, so one that only a map value,
a sibling or another message refers to is not found.

* `Recursion.inside_of_mem`, `Recursion.nodup`: whatever the message, a pass prints
  only message types inside it that are no map entries, each once.
* `everyNestedGenerated_iff`: the passes print all of them, and
  `hasNestedMessages` agrees at every level, exactly when every nested message
  is the type of a field of the message it is declared in, or that message has
  no fields.
-/
namespace QtProtobuf.Generator.Descriptors

variable {F M E : Type} [DecidableEq M] {D : Descriptors F M E}

/-- The pass prints the class of `m` and those of the message types inside it
that are no map entries, each once. -/
structure Generated (D : Descriptors F M E) (m : M) (printed : List (Printed M)) : Prop where
  once : (classes printed).Nodup
  exact : ∀ n, n ∈ classes printed ↔ n = m ∨ (D.Inside m n ∧ D.mapEntry n = false)

/-- Every pass generates every nested message of `m`, and `hasNestedMessages`
tells at every level whether there is one. -/
structure EveryNestedGenerated (D : Descriptors F M E) (m : M) : Prop where
  forwardDeclarations : Generated D m (D.printClassForwardDeclarationPrivate m)
  declarations : Generated D m (D.printClassDeclarationPrivate m)
  definitions : Generated D m (D.printClassDefinitionPrivate m)
  metaTypes : Generated D m (D.printMetaTypesDeclaration m)
  hasNested : ∀ k, k = m ∨ D.Inside m k → (D.hasNestedMessages k = true ↔
    ∃ n ∈ D.nestedTypes k, D.mapEntry n = false)

/-- Every nested message of `k` is the type of a field of `k`, unless `k` has no
fields. -/
def NestedAreFieldTypes (D : Descriptors F M E) (k : M) : Prop :=
  D.fields k ≠ [] → ∀ n ∈ D.nestedTypes k, D.mapEntry n = false →
    ∃ f ∈ D.fields k, f.messageType = some n

/-! ## One recursion -/

omit [DecidableEq M] in
/-- Induction from the inside out. -/
theorem nested_induction {P : M → Prop}
    (h : ∀ m, (∀ n, D.containingType n = some m → P n) → P m) (m : M) : P m := by
  induction hk : D.maxDepth - D.depth m using Nat.strongRecOn generalizing m with
  | ind k ih =>
    refine h m fun n hn => ih _ ?_ n rfl
    have := D.depth_eq m n hn
    have := D.depth_lt n
    omega

/-- A pass prints a message and what it prints of the nested messages the
callback is called with. -/
def Recursion (D : Descriptors F M E) (pass : M → List M) : Prop :=
  ∀ m, (pass m).Perm (m :: (D.iterateNestedMessages m).flatMap pass)

variable {pass : M → List M}

theorem Recursion.mem_iff (hp : Recursion D pass) {m n : M} :
    n ∈ pass m ↔ n = m ∨ ∃ k ∈ D.iterateNestedMessages m, n ∈ pass k := by
  simp [(hp m).mem_iff]

/-- What is printed besides the message itself is found through the fields of
the message around it. -/
theorem Recursion.found (hp : Recursion D pass) {m n : M} (h : n ∈ pass m) :
    n = m ∨ ∃ k ∈ pass m, n ∈ D.iterateNestedMessages k := by
  induction m using nested_induction (D := D) with
  | h m ih =>
    rcases hp.mem_iff.mp h with h | ⟨k, hk, hn⟩
    · exact .inl h
    · refine .inr ?_
      rcases ih k (mem_iterateNestedMessages.mp hk).1 hn with rfl | ⟨k', hk', hn'⟩
      · exact ⟨m, hp.mem_iff.mpr (.inl rfl), hk⟩
      · exact ⟨k', hp.mem_iff.mpr (.inr ⟨k, hk, hk'⟩), hn'⟩

theorem Recursion.closed (hp : Recursion D pass) {m k n : M} (hk : k ∈ pass m)
    (hn : n ∈ D.iterateNestedMessages k) : n ∈ pass m := by
  induction m using nested_induction (D := D) with
  | h m ih =>
    rcases hp.mem_iff.mp hk with rfl | ⟨k', hk', hin⟩
    · exact hp.mem_iff.mpr (.inr ⟨n, hn, hp.mem_iff.mpr (.inl rfl)⟩)
    · exact hp.mem_iff.mpr (.inr ⟨k', hk', ih k' (mem_iterateNestedMessages.mp hk').1 hin⟩)

theorem Recursion.inside_of_mem (hp : Recursion D pass) {m n : M} (h : n ∈ pass m) :
    n = m ∨ (D.Inside m n ∧ D.mapEntry n = false) := by
  induction m using nested_induction (D := D) with
  | h m ih =>
    rcases hp.mem_iff.mp h with h | ⟨k, hk, hn⟩
    · exact .inl h
    · obtain ⟨hc, hm, -⟩ := mem_iterateNestedMessages.mp hk
      rcases ih k hc hn with rfl | ⟨hin, he⟩
      · exact .inr ⟨.nested hc, hm⟩
      · exact .inr ⟨hin.cons hc, he⟩

theorem Recursion.nodup (hp : Recursion D pass) (m : M) : (pass m).Nodup := by
  induction m using nested_induction (D := D) with
  | h m ih =>
    have hc {k : M} (hk : k ∈ D.iterateNestedMessages m) : D.containingType k = some m :=
      (mem_iterateNestedMessages.mp hk).1
    have hin {k n : M} (hn : n ∈ pass k) : n = k ∨ D.Inside k n :=
      (hp.inside_of_mem hn).imp_right And.left
    refine (hp m).nodup_iff.mpr (List.nodup_cons.mpr ⟨?_, List.nodup_flatMap.mpr
      ⟨fun k hk => ih k (hc hk), ?_⟩⟩)
    · intro hm
      obtain ⟨k, hk, hm⟩ := List.mem_flatMap.mp hm
      have := D.depth_eq _ _ (hc hk)
      rcases hin hm with rfl | hm
      · omega
      · have := hm.depth_lt; omega
    · have hd : (D.iterateNestedMessages m).Nodup := (D.distinct m).filter _
      refine hd.imp_of_mem fun {a b} ha hb hab n hna hnb => hab ?_
      have := D.depth_eq _ _ (hc ha)
      have := D.depth_eq _ _ (hc hb)
      exact eq_of_inside (by omega) (hin hna) (hin hnb)

/-- A pass misses nothing where every nested message is found. -/
theorem Recursion.mem_of_inside (hp : Recursion D pass) {m n : M}
    (hf : ∀ k, k = m ∨ D.Inside m k → NestedAreFieldTypes D k) (h : D.Inside m n)
    (hn : D.mapEntry n = false) : n ∈ pass m := by
  have found {k n : M} (hk : k = m ∨ D.Inside m k) (hc : D.containingType n = some k)
      (hn : D.mapEntry n = false) : n ∈ D.iterateNestedMessages k := by
    refine mem_iterateNestedMessages.mpr ⟨hc, hn, ?_⟩
    by_cases he : D.fields k = []
    · exact .inl he
    · exact .inr (hf k hk he n ((D.mem_nestedTypes k n).mpr hc) hn)
  induction h with
  | nested hc =>
    exact hp.closed (hp.mem_iff.mpr (.inl rfl)) (found (.inl rfl) hc hn)
  | @deeper k n hk hc ih =>
    have he : D.mapEntry k = false := by
      cases hk' : D.mapEntry k with
      | false => rfl
      | true =>
        have := (D.mem_nestedTypes k n).mpr hc
        simp [D.mapEntry_nestedTypes k hk'] at this
    exact hp.closed (ih he) (found (.inr hk) hc hn)

/-! ## The passes -/

theorem recursion_printNestedFirst {guard : M → Bool}
    (hg : ∀ k n, n ∈ D.iterateNestedMessages k → guard k = true) :
    Recursion D fun m => classes (D.printNestedFirst guard m) := by
  intro m
  simpa only [classes_printNestedFirst_of_guard hg m] using List.perm_append_singleton _ _

theorem recursion_forwardDeclarations :
    Recursion D fun m => classes (D.printClassForwardDeclarationPrivate m) :=
  recursion_printNestedFirst fun _ n hn => hasNestedMessages_iff.mpr ⟨n, hn⟩

theorem recursion_declarations :
    Recursion D fun m => classes (D.printClassDeclarationPrivate m) :=
  recursion_printNestedFirst fun _ _ _ => rfl

theorem recursion_definitions :
    Recursion D fun m => classes (D.printClassDefinitionPrivate m) :=
  recursion_printNestedFirst fun _ n hn => hasNestedMessages_iff.mpr ⟨n, hn⟩

theorem recursion_metaTypes :
    Recursion D fun m => classes (D.printMetaTypesDeclaration m) := by
  intro m
  simp only [classes_printMetaTypesDeclaration m]
  exact .refl _

theorem Recursion.generated {print : M → List (Printed M)}
    (hp : Recursion D fun m => classes (print m)) {m : M}
    (hf : ∀ k, k = m ∨ D.Inside m k → NestedAreFieldTypes D k) : Generated D m (print m) where
  once := hp.nodup m
  exact n := by
    constructor
    · exact hp.inside_of_mem
    · rintro (rfl | ⟨hin, hn⟩)
      · exact hp.mem_iff.mpr (.inl rfl)
      · exact hp.mem_of_inside hf hin hn

/-- A pass that prints every nested message has found each through a field. -/
theorem Recursion.nestedAreFieldTypes {print : M → List (Printed M)}
    (hp : Recursion D fun m => classes (print m)) {m : M} (hg : Generated D m (print m))
    {k : M} (hk : k = m ∨ D.Inside m k) : NestedAreFieldTypes D k := by
  intro he n hn hne
  have hc := (D.mem_nestedTypes k n).mp hn
  have hin : D.Inside m n := by
    rcases hk with rfl | hk
    · exact .nested hc
    · exact .deeper hk hc
  rcases hp.found ((hg.exact n).mpr (.inr ⟨hin, hne⟩)) with rfl | ⟨k', -, hn'⟩
  · have := hin.depth_lt; omega
  · obtain ⟨hc', -, hf⟩ := mem_iterateNestedMessages.mp hn'
    cases hc.symm.trans hc'
    exact hf.resolve_left he

theorem hasNestedMessages_exact {k : M} (hf : NestedAreFieldTypes D k) :
    D.hasNestedMessages k = true ↔ ∃ n ∈ D.nestedTypes k, D.mapEntry n = false := by
  simp only [hasNestedMessages_iff, mem_iterateNestedMessages, D.mem_nestedTypes]
  constructor
  · rintro ⟨n, hc, hn, -⟩
    exact ⟨n, hc, hn⟩
  · rintro ⟨n, hc, hn⟩
    by_cases he : D.fields k = []
    · exact ⟨n, hc, hn, .inl he⟩
    · exact ⟨n, hc, hn, .inr (hf he n ((D.mem_nestedTypes k n).mpr hc) hn)⟩

theorem everyNestedGenerated_iff (D : Descriptors F M E) (m : M) :
    EveryNestedGenerated D m ↔ ∀ k, k = m ∨ D.Inside m k → NestedAreFieldTypes D k := by
  constructor
  · intro h k hk
    exact recursion_declarations.nestedAreFieldTypes h.declarations hk
  · intro h
    exact {
      forwardDeclarations := recursion_forwardDeclarations.generated h
      declarations := recursion_declarations.generated h
      definitions := recursion_definitions.generated h
      metaTypes := recursion_metaTypes.generated h
      hasNested := fun k hk => hasNestedMessages_exact (h k hk) }

/-! ## A type used as a map value only -/

inductive Inventory where
  | inventory | itemsEntry | item
  deriving DecidableEq

open Inventory in
/-- `message Inventory { map<int32, Item> items = 1; message Item { int32 id = 1; } }` -/
def inventoryFile : Descriptors Unit Inventory Empty where
  package _ := []
  services _ := []
  file _ := ()
  name
    | inventory => "Inventory".toList
    | itemsEntry => "ItemsEntry".toList
    | item => "Item".toList
  fields
    | inventory => [⟨.message itemsEntry, true⟩]
    | itemsEntry => [⟨.basic, false⟩, ⟨.message item, false⟩]
    | item => [⟨.basic, false⟩]
  nestedTypes
    | inventory => [item, itemsEntry]
    | _ => []
  containingType
    | inventory => none
    | _ => some inventory
  mapEntry m := m == itemsEntry
  depth m := if m = inventory then 0 else 1
  maxDepth := 2
  package_eq _ := noPackage
  name_identifier m := by cases m <;> decide
  service_identifier _ _ h := by cases h
  mem_nestedTypes m n := by cases m <;> cases n <;> decide
  distinct m := by cases m <;> decide
  file_eq _ _ _ := rfl
  depth_eq m n h := by cases m <;> cases n <;> first | rfl | cases h
  depth_lt m := by cases m <;> decide
  mapEntry_nestedTypes m h := by cases m <;> first | rfl | cases h
  mapEntry_field n h := by
    cases n with
    | itemsEntry => exact ⟨inventory, rfl, _, List.mem_singleton.mpr rfl, rfl⟩
    | _ => cases h

/-- No pass prints `Item`. -/
theorem not_everyNestedGenerated_inventory :
    ¬ EveryNestedGenerated inventoryFile .inventory := by
  intro h
  have hf := (h.hasNested .inventory (.inl rfl)).mpr ⟨.item, by decide, rfl⟩
  exact absurd hf (by decide)

end QtProtobuf.Generator.Descriptors
