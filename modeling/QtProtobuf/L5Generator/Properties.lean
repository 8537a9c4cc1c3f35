import QtProtobuf.L5Generator.MapGuards

/-!
# The properties of a generated class

`printProperties` declares one property for each field, in their order, and
behind these a second one for some fields. `printFieldsOrdering` refers to a
property by its index; the serializer reads the property by its name.

* `suffix_cases`: which names of two fields can be equal.
* `getters_lookup`, `setters_lookup`: a getter or a setter is that of one member.
* `read_mem_signals_iff`: when the `READ` function of a field is also a signal.
* `own_property_iff`: every name leads back to its property, exactly if no field
  is named like the `Data` property of a list of messages.
-/
namespace QtProtobuf.Generator

/-- The label of a field; a map has the type of its keys here. -/
inductive Label where
  | singular | repeated | map (key : SimpleType)
  deriving DecidableEq

/-- What the property printers read of a field; the type of a map is the type of
its values. -/
structure MessageField (M E : Type) where
  type : ValueType M E
  label : Label
  number : Nat
  camelcase_name : Str
  json_name : Str

/-- The fields of a message. The names are without underscores, and the members
of the generated class are distinct. -/
structure MessageFields (M E : Type) where
  fields : List (MessageField M E)
  alphanum : (fields.all fun f => f.camelcase_name.all Char.isAlphanum) = true
  distinct : (fields.map fun f => utils.lowerCaseName f.camelcase_name).Nodup
  numbers : (fields.map (·.number)).Nodup
  inRange : ∀ f ∈ fields, 0 < f.number ∧ f.number < 536870912

/-! ## Names -/

namespace common

/-- mirrors src/generator/generatorcommon.cpp:349-360 and
src/generator/templates.cpp:30-32 -/
def qualifiedName (name : Str) : Str :=
  if ["id".toList, "property".toList, "import".toList].contains name then name ++ "_proto".toList else name

/-- What `qualifiedName` appends. -/
def tails : List Str := [[], "_proto".toList]

theorem qualifiedName_tail (name : Str) : ∃ tail ∈ tails, qualifiedName name = name ++ tail := by
  unfold qualifiedName
  split
  · exact ⟨_, by simp [tails], rfl⟩
  · exact ⟨[], by simp [tails], by simp⟩

end common

/-- What the printers append to the name of a property, for a property or a
getter. -/
def suffixes : List Str := [[], "Data".toList, "_p".toList, "_l".toList]

/-- An alphanumerical name ends at the first underscore at the latest. -/
theorem append_split {a b r r' : Str} (ha : ∀ c ∈ a, c.isAlphanum = true)
    (hb : ∀ c ∈ b, c.isAlphanum = true) (h : a ++ r = b ++ r') :
    r.dropWhile (· != '_') = r'.dropWhile (· != '_') := by
  have hne : ∀ c : Char, c.isAlphanum = true → (c != '_') = true := by
    intro c hc
    simp only [bne_iff_ne, ne_eq]
    rintro rfl
    cases hc
  rw [← List.dropWhile_append_of_pos (fun c hc => hne c (ha c hc)), h,
    List.dropWhile_append_of_pos fun c hc => hne c (hb c hc)]

/-- The ends of two names, behind their first underscores. -/
theorem tails_suffixes : ∀ t ∈ common.tails, ∀ t' ∈ common.tails, ∀ s ∈ suffixes, ∀ s' ∈ suffixes,
    (t ++ s).dropWhile (· != '_') = (t' ++ s').dropWhile (· != '_') →
      s = s' ∨ (s = [] ∧ s' = "Data".toList) ∨ (s = "Data".toList ∧ s' = []) := by
  decide

theorem tails_inj : ∀ t ∈ common.tails, ∀ t' ∈ common.tails,
    t.dropWhile (· != '_') = t'.dropWhile (· != '_') → t = t' := by
  decide

/-- Two names with tails and suffixes are equal only if they and the suffixes
are, or if one of the suffixes is `Data`. -/
theorem ends_cases {a b t t' s s' : Str} (ha : ∀ c ∈ a, c.isAlphanum = true)
    (hb : ∀ c ∈ b, c.isAlphanum = true) (ht : t ∈ common.tails) (ht' : t' ∈ common.tails)
    (hs : s ∈ suffixes) (hs' : s' ∈ suffixes) (h : a ++ t ++ s = b ++ t' ++ s') :
    (s = s' ∧ a = b) ∨ (s = [] ∧ s' = "Data".toList) ∨ (s = "Data".toList ∧ s' = []) := by
  have hends : (t ++ s).dropWhile (· != '_') = (t' ++ s').dropWhile (· != '_') := by
    apply append_split ha hb
    rwa [← List.append_assoc, ← List.append_assoc]
  rcases tails_suffixes t ht t' ht' s hs s' hs' hends with rfl | hd
  · have htails := List.append_cancel_right h
    have htt := tails_inj t ht t' ht' (append_split ha hb htails)
    rw [htt] at htails
    exact .inl ⟨rfl, List.append_cancel_right htails⟩
  · exact .inr hd

namespace MessageField
variable {M E : Type}

/-- mirrors src/generator/generatorcommon.cpp:323 -/
def propertyName (f : MessageField M E) : Str :=
  common.qualifiedName (utils.lowerCaseName f.camelcase_name)

/-- mirrors src/generator/generatorcommon.cpp:324 -/
def propertyNameCap (f : MessageField M E) : Str := utils.upperCaseName f.propertyName

theorem propertyName_tail (f : MessageField M E) :
    ∃ t ∈ common.tails, f.propertyName = utils.lowerCaseName f.camelcase_name ++ t :=
  common.qualifiedName_tail _

theorem propertyNameCap_tail (f : MessageField M E) : ∃ t ∈ common.tails,
    f.propertyNameCap = utils.upperCaseName (utils.lowerCaseName f.camelcase_name) ++ t := by
  obtain ⟨t, ht, hf⟩ := f.propertyName_tail
  cases hn : utils.lowerCaseName f.camelcase_name with
  | nil =>
    refine ⟨[], by simp [common.tails], ?_⟩
    have hempty : f.propertyName = [] := by
      rw [propertyName, hn]
      rfl
    rw [propertyNameCap, hempty]
    rfl
  | cons c cs =>
    refine ⟨t, ht, ?_⟩
    rw [propertyNameCap, hf, hn]
    rfl

/-- Two names with suffixes are equal only if the fields and the suffixes are, or
if one of the suffixes is `Data`. -/
theorem suffix_cases {f g : MessageField M E}
    (hf : ∀ c ∈ f.camelcase_name, c.isAlphanum = true)
    (hg : ∀ c ∈ g.camelcase_name, c.isAlphanum = true) {s s' : Str} (hs : s ∈ suffixes)
    (hs' : s' ∈ suffixes) (h : f.propertyName ++ s = g.propertyName ++ s') :
    (s = s' ∧ utils.lowerCaseName f.camelcase_name = utils.lowerCaseName g.camelcase_name) ∨
      (s = [] ∧ s' = "Data".toList) ∨ (s = "Data".toList ∧ s' = []) := by
  obtain ⟨t, ht, hft⟩ := f.propertyName_tail
  obtain ⟨t', ht', hgt⟩ := g.propertyName_tail
  rw [hft, hgt] at h
  exact ends_cases (utils.isAlphanum_lowerCaseName hf) (utils.isAlphanum_lowerCaseName hg) ht ht' hs hs' h

/-- The setters of two fields differ. -/
theorem suffix_cases_cap {f g : MessageField M E}
    (hf : ∀ c ∈ f.camelcase_name, c.isAlphanum = true)
    (hg : ∀ c ∈ g.camelcase_name, c.isAlphanum = true) {s s' : Str}
    (hs : s ∈ ([[], "_p".toList] : List Str)) (hs' : s' ∈ ([[], "_p".toList] : List Str))
    (h : f.propertyNameCap ++ s = g.propertyNameCap ++ s') :
    utils.lowerCaseName f.camelcase_name = utils.lowerCaseName g.camelcase_name := by
  obtain ⟨t, ht, hft⟩ := f.propertyNameCap_tail
  obtain ⟨t', ht', hgt⟩ := g.propertyNameCap_tail
  have hmem : ∀ r ∈ ([[], "_p".toList] : List Str), r ∈ suffixes ∧ r ≠ "Data".toList := by decide
  rw [hft, hgt] at h
  rcases ends_cases (utils.isAlphanum_upperCaseName (utils.isAlphanum_lowerCaseName hf))
    (utils.isAlphanum_upperCaseName (utils.isAlphanum_lowerCaseName hg)) ht ht' (hmem s hs).1
    (hmem s' hs').1 h with ⟨-, heq⟩ | ⟨-, hd⟩ | ⟨hd, -⟩
  · exact utils.upperCaseName_inj hf hg heq
  · exact absurd hd (hmem s' hs').2
  · exact absurd hd (hmem s hs).2

end MessageField

/-! ## What is printed -/

/-- `$property_type$` of the templates: the simple types and enums, the Qt types
and the maps stand for themselves, `pointer` is a message, the last two are the
types that QML reads. -/
inductive PropertyType (M E : Type) where
  | value (t : ValueType M E) | map (key : SimpleType) (t : ValueType M E) | pointer (m : M)
  | list (t : ValueType M E) | qmlAlias (t : SimpleType) | qmlList (m : M)

/-- `Q_PROPERTY(type name READ read WRITE write …)` -/
structure QProperty (M E : Type) where
  type : PropertyType M E
  name : Str
  read : Str
  write : Option Str

namespace MessageField
variable {M E : Type} (hasQml : Bool) (qtType : M → Bool) (f : MessageField M E)

/-- mirrors src/generator/generatorcommon.cpp:275-278 -/
def isPureMessage : Bool :=
  match f.type, f.label with
  | .message m, .singular => !qtType m
  | _, _ => false

/-- mirrors src/generator/generatorcommon.cpp:400-407 -/
def hasQmlAlias : Bool :=
  decide (f.label = .singular) &&
    (match f.type with
    | .simple t => decide (t ∈ [SimpleType.int32, .sfixed32, .fixed32])
    | _ => false) && hasQml

/-- `TYPE_MESSAGE && is_repeated() && !is_map()` -/
def isMessageList : Bool :=
  match f.type, f.label with
  | .message _, .repeated => true
  | _, _ => false

/-- mirrors src/generator/messagedeclarationprinter.cpp:221-238 -/
def property : QProperty M E :=
  let name := f.propertyName
  let write := "set".toList ++ f.propertyNameCap
  match f.type, f.label with
  | .message m, .singular =>
    if qtType m then ⟨.value f.type, name, name, write⟩
    else ⟨.pointer m, name, name ++ "_p".toList, some (write ++ "_p".toList)⟩
  | _, .singular =>
    if f.hasQmlAlias hasQml then ⟨.value f.type, name ++ "_p".toList, name, write⟩
    else ⟨.value f.type, name, name, write⟩
  | _, .map key => ⟨.map key f.type, name, name, write⟩
  | .message _, .repeated => ⟨.list f.type, name ++ "Data".toList, name, write⟩
  | _, .repeated => ⟨.list f.type, name, name, write⟩

/-- mirrors src/generator/messagedeclarationprinter.cpp:243-248 -/
def extraProperty : Option (QProperty M E) :=
  let name := f.propertyName
  match f.type, f.label with
  | .message m, .repeated =>
    if hasQml then some ⟨.qmlList m, name, name ++ "_l".toList, none⟩ else none
  | .simple t, _ =>
    if f.hasQmlAlias hasQml then
      some ⟨.qmlAlias t, name, name ++ "_p".toList, some ("set".toList ++ f.propertyNameCap ++ "_p".toList)⟩
    else none
  | _, _ => none

/-- The getters of the member, of all three passes.
mirrors src/generator/messagedeclarationprinter.cpp:258-272, 305-307, 337-338 -/
def getters : List Str :=
  [f.propertyName] ++
    (if f.isMessageList && hasQml then [f.propertyName ++ "_l".toList] else []) ++
    (if f.isPureMessage qtType then [f.propertyName ++ "_p".toList] else []) ++
    (if f.hasQmlAlias hasQml then [f.propertyName ++ "_p".toList] else [])

/-- mirrors src/generator/messagedeclarationprinter.cpp:280-297, 316-318, 337-339 -/
def setters : List Str :=
  ["set".toList ++ f.propertyNameCap] ++
    (if f.isPureMessage qtType || f.hasQmlAlias hasQml then
      ["set".toList ++ f.propertyNameCap ++ "_p".toList] else [])

/-- mirrors src/generator/messagedeclarationprinter.cpp:326-333 -/
def signal : Str := f.propertyName ++ "Changed".toList

end MessageField

namespace MessageFields
variable {M E : Type} (hasQml : Bool) (qtType : M → Bool) (c : MessageFields M E)

/-- mirrors src/generator/messagedeclarationprinter.cpp:215-252 -/
def printProperties : List (QProperty M E) :=
  c.fields.map (·.property hasQml qtType) ++ c.fields.filterMap (·.extraProperty hasQml)

/-- The pairs of `propertyOrdering`; the property of index 0 is `objectName`.
mirrors src/generator/messagedefinitionprinter.cpp:91-108 -/
def printFieldsOrdering : List (Nat × Nat × Str) :=
  c.fields.zipIdx.map fun (f, i) => (f.number, i + 1, f.json_name)

/-- The getters and the members they return, as indices of fields. -/
def getters : List (Str × Nat) :=
  c.fields.zipIdx.flatMap fun (f, i) => (f.getters hasQml qtType).map fun name => (name, i)

/-- The setters and the members they write. -/
def setters : List (Str × Nat) :=
  c.fields.zipIdx.flatMap fun (f, i) => (f.setters hasQml qtType).map fun name => (name, i)

def signals : List Str := c.fields.map (·.signal)

/-- The member that `object.name()` returns for an object that is not `const`. A
signal is preferred to a getter, which is `const` (next to the second getter of a
list it is the same function declared twice), and returns nothing. -/
def readCall (name : Str) : Option Nat :=
  if c.signals.contains name then none else (c.getters hasQml qtType).lookup name

/-! ## Getters and setters -/

variable {hasQml qtType c}

theorem alphanum_get {i : Nat} {f : MessageField M E} (hf : c.fields[i]? = some f) :
    ∀ a ∈ f.camelcase_name, a.isAlphanum = true :=
  List.all_eq_true.mp (List.all_eq_true.mp c.alphanum f (List.mem_of_getElem? hf))

/-- Two fields have different members. -/
theorem index_inj {i j : Nat} {f g : MessageField M E} (hf : c.fields[i]? = some f)
    (hg : c.fields[j]? = some g)
    (h : utils.lowerCaseName f.camelcase_name = utils.lowerCaseName g.camelcase_name) : i = j := by
  obtain ⟨hi, -⟩ := List.getElem?_eq_some_iff.mp hf
  apply (List.getElem?_inj (by simpa using hi) c.distinct).mp
  rw [List.getElem?_map, List.getElem?_map, hf, hg]
  exact congrArg some h

/-- The getters' names, which are not `Data`. -/
theorem getters_suffix {f : MessageField M E} {name : Str} (h : name ∈ f.getters hasQml qtType) :
    ∃ s ∈ suffixes, s ≠ "Data".toList ∧ name = f.propertyName ++ s := by
  have hmem : [] ∈ suffixes ∧ "_l".toList ∈ suffixes ∧ "_p".toList ∈ suffixes := by decide
  simp only [MessageField.getters, List.mem_append, List.mem_singleton] at h
  rcases h with ((rfl | h) | h) | h
  · exact ⟨[], hmem.1, by decide, by simp⟩
  · split at h
    · exact ⟨_, hmem.2.1, by decide, List.mem_singleton.mp h⟩
    · cases h
  all_goals
    split at h
    · exact ⟨_, hmem.2.2, by decide, List.mem_singleton.mp h⟩
    · cases h

theorem setters_suffix {f : MessageField M E} {name : Str} (h : name ∈ f.setters hasQml qtType) :
    ∃ s ∈ ([[], "_p".toList] : List Str), name = "set".toList ++ (f.propertyNameCap ++ s) := by
  simp only [MessageField.setters, List.mem_append, List.mem_singleton] at h
  rcases h with rfl | h
  · exact ⟨[], by simp, by simp⟩
  · split at h
    · exact ⟨"_p".toList, by simp, by rw [List.mem_singleton.mp h, List.append_assoc]⟩
    · cases h

/-- A key that all its entries give one value has this value. -/
theorem lookup_of_unique {α β : Type} [BEq α] [LawfulBEq α] {l : List (α × β)} {a : α} {b : β}
    (hm : (a, b) ∈ l) (hu : ∀ b', (a, b') ∈ l → b' = b) : l.lookup a = some b := by
  cases hl : l.lookup a with
  | none => exact absurd (List.lookup_eq_none_iff.mp hl _ hm) (by simp)
  | some b' =>
    obtain ⟨before, after, hp, -⟩ := List.lookup_eq_some_iff.mp hl
    rw [hu b' (by rw [hp]; simp)]

theorem mem_members {names : MessageField M E → List Str} {name : Str} {i : Nat} :
    (name, i) ∈ (c.fields.zipIdx.flatMap fun (f, i) => (names f).map fun name => (name, i)) ↔
      ∃ f, c.fields[i]? = some f ∧ name ∈ names f := by
  simp only [List.mem_flatMap, List.mem_map, Prod.mk.injEq, Prod.exists, List.mem_zipIdx_iff_getElem?]
  constructor
  · rintro ⟨f, j, hf, n, hn, rfl, rfl⟩
    exact ⟨f, hf, hn⟩
  · rintro ⟨f, hf, hn⟩
    exact ⟨f, i, hf, name, hn, rfl, rfl⟩

/-- A getter of a field returns its member. -/
theorem getters_lookup {i : Nat} {f : MessageField M E} {name : Str} (hf : c.fields[i]? = some f)
    (hn : name ∈ f.getters hasQml qtType) : (c.getters hasQml qtType).lookup name = some i := by
  apply lookup_of_unique (mem_members.mpr ⟨f, hf, hn⟩)
  intro j hj
  obtain ⟨g, hg, hng⟩ := mem_members.mp hj
  obtain ⟨s, hs, hsd, rfl⟩ := getters_suffix hn
  obtain ⟨s', hs', hsd', heq⟩ := getters_suffix hng
  rcases MessageField.suffix_cases (alphanum_get hf) (alphanum_get hg) hs hs' heq with
    ⟨-, h⟩ | ⟨-, h⟩ | ⟨h, -⟩
  · exact index_inj hg hf h.symm
  · exact absurd h hsd'
  · exact absurd h hsd

/-- A setter of a field writes its member. -/
theorem setters_lookup {i : Nat} {f : MessageField M E} {name : Str} (hf : c.fields[i]? = some f)
    (hn : name ∈ f.setters hasQml qtType) : (c.setters hasQml qtType).lookup name = some i := by
  apply lookup_of_unique (mem_members.mpr ⟨f, hf, hn⟩)
  intro j hj
  obtain ⟨g, hg, hng⟩ := mem_members.mp hj
  obtain ⟨s, hs, rfl⟩ := setters_suffix hn
  obtain ⟨s', hs', heq⟩ := setters_suffix hng
  have h := MessageField.suffix_cases_cap (alphanum_get hf) (alphanum_get hg) hs hs'
    (List.append_cancel_left heq)
  exact index_inj hg hf h.symm

end MessageFields

/-- The names of the property are a getter and a setter of the field. -/
theorem MessageField.property_accessors {M E : Type} (hasQml : Bool) (qtType : M → Bool)
    (f : MessageField M E) : (f.property hasQml qtType).read ∈ f.getters hasQml qtType ∧
      ∃ write ∈ f.setters hasQml qtType, (f.property hasQml qtType).write = some write := by
  obtain ⟨type, label, number, name, json⟩ := f
  unfold MessageField.property
  dsimp only
  split
  · split
    · simp [MessageField.getters, MessageField.setters]
    · next h => simp [MessageField.getters, MessageField.setters, MessageField.isPureMessage, h]
  · split <;> simp [MessageField.getters, MessageField.setters]
  all_goals simp [MessageField.getters, MessageField.setters]

theorem MessageField.property_read {M E : Type} (hasQml : Bool) (qtType : M → Bool)
    (f : MessageField M E) : (f.property hasQml qtType).read =
      f.propertyName ++ if f.isPureMessage qtType then "_p".toList else [] := by
  obtain ⟨type, label, number, name, json⟩ := f
  unfold MessageField.property MessageField.isPureMessage
  dsimp only
  split
  · split
    · next h => simp [h]
    · next h => simp [h]
  · next hm =>
    have hpure : ¬ ∃ m, type = .message m := fun ⟨m, hm'⟩ => hm m hm'
    cases type with
    | message m => exact absurd ⟨m, rfl⟩ hpure
    | _ => split <;> simp
  all_goals simp

/-- The `READ` function of a field is a signal of the class exactly if a field is
called like another one with `Changed` behind, and is no message. -/
theorem MessageFields.read_mem_signals_iff {M E : Type} (hasQml : Bool) (qtType : M → Bool)
    (c : MessageFields M E) (f : MessageField M E) :
    (f.property hasQml qtType).read ∈ c.signals ↔ f.isPureMessage qtType = false ∧
      ∃ g ∈ c.fields, f.propertyName = g.propertyName ++ "Changed".toList := by
  rw [f.property_read, MessageFields.signals, List.mem_map]
  unfold MessageField.signal
  cases hpure : f.isPureMessage qtType with
  | false =>
    rw [if_neg (by simp), List.append_nil]
    exact ⟨fun ⟨g, hg, h⟩ => ⟨rfl, g, hg, h.symm⟩, fun ⟨_, g, hg, h⟩ => ⟨g, hg, h.symm⟩⟩
  | true =>
    rw [if_pos rfl]
    constructor
    · rintro ⟨g, -, h⟩
      -- `Changed` does not end like `_p`
      have hlast := congrArg List.getLast? h
      rw [List.getLast?_append_of_ne_nil _ (by decide), List.getLast?_append_of_ne_nil _ (by decide)] at hlast
      exact absurd hlast (by decide)
    · exact fun h => by cases h.1

/-! ## The properties by their names -/

/-- What `QMetaObject::indexOfProperty` promises of the properties of a class: they
are found before those of `QObject`, so that `objectName` is left out. Which one of
several of a name it finds is left open. -/
def Finds {M E : Type} (indexOfProperty : List (QProperty M E) → Str → Option Nat) : Prop :=
  ∀ properties name, (∃ p ∈ properties, p.name = name) →
    ∃ i p, indexOfProperty properties name = some i ∧ properties[i]? = some p ∧ p.name = name

/-- A search from the last property to the first. -/
def lastIndexOfProperty {M E : Type} : List (QProperty M E) → Str → Option Nat
  | [], _ => none
  | p :: properties, name =>
    match lastIndexOfProperty properties name with
    | some i => some (i + 1)
    | none => if p.name = name then some 0 else none

theorem lastIndexOfProperty_some {M E : Type} {properties : List (QProperty M E)} {name : Str} {i : Nat}
    (h : lastIndexOfProperty properties name = some i) :
    ∃ p, properties[i]? = some p ∧ p.name = name := by
  induction properties generalizing i with
  | nil => cases h
  | cons q properties ih =>
    unfold lastIndexOfProperty at h
    split at h
    · next hl => cases h; exact ih hl
    · split at h
      · next hq => cases h; exact ⟨q, rfl, hq⟩
      · cases h

/-- No later property has the name. -/
theorem lastIndexOfProperty_ge {M E : Type} {properties : List (QProperty M E)} {name : Str} {j : Nat}
    {p : QProperty M E} (hj : properties[j]? = some p) (hp : p.name = name) :
    ∃ i, lastIndexOfProperty properties name = some i ∧ j ≤ i := by
  induction properties generalizing j with
  | nil => simp at hj
  | cons q properties ih =>
    cases j with
    | zero =>
      cases hj
      cases hl : lastIndexOfProperty properties name with
      | none => exact ⟨0, by simp [lastIndexOfProperty, hl, hp], Nat.le_refl 0⟩
      | some i => exact ⟨i + 1, by simp [lastIndexOfProperty, hl], Nat.zero_le _⟩
    | succ j =>
      obtain ⟨i, hl, hle⟩ := ih hj
      exact ⟨i + 1, by simp [lastIndexOfProperty, hl], by omega⟩

theorem finds_lastIndexOfProperty {M E : Type} : Finds (lastIndexOfProperty (M := M) (E := E)) := by
  rintro properties name ⟨p, hp, hn⟩
  obtain ⟨j, hj⟩ := List.mem_iff_getElem?.mp hp
  obtain ⟨i, hl, -⟩ := lastIndexOfProperty_ge hj hn
  obtain ⟨q, hq, hqn⟩ := lastIndexOfProperty_some hl
  exact ⟨i, q, hl, hq, hqn⟩

namespace MessageField
variable {M E : Type} (hasQml : Bool) (qtType : M → Bool) (f : MessageField M E)

/-- A property is named as the field, without a suffix. -/
def bare : Bool := !f.isMessageList || hasQml

theorem property_name : ∃ s ∈ suffixes, (f.property hasQml qtType).name = f.propertyName ++ s ∧
    (s = "Data".toList ↔ f.isMessageList = true) ∧
    (s = [] ↔ f.isMessageList = false ∧ f.hasQmlAlias hasQml = false) := by
  have hmem : [] ∈ suffixes ∧ "Data".toList ∈ suffixes ∧ "_p".toList ∈ suffixes := by decide
  obtain ⟨type, label, number, name, json⟩ := f
  unfold property
  dsimp only
  split
  · refine ⟨[], hmem.1, ?_, by simp [isMessageList], by simp [isMessageList, hasQmlAlias]⟩
    split <;> simp
  · next hm =>
    have hlist : isMessageList (⟨type, .singular, number, name, json⟩ : MessageField M E) = false := by
      cases type <;> rfl
    split
    · next ha => exact ⟨_, hmem.2.2, rfl, by simp [hlist], by simp [ha]⟩
    · next ha => exact ⟨[], hmem.1, by simp, by simp [hlist], by simpa [hlist] using ha⟩
  · next key =>
    have hlist : isMessageList (⟨type, .map key, number, name, json⟩ : MessageField M E) = false := by
      cases type <;> rfl
    exact ⟨[], hmem.1, by simp, by simp [hlist], by simp [hlist, hasQmlAlias]⟩
  · exact ⟨_, hmem.2.1, rfl, by simp [isMessageList], by simp [isMessageList]⟩
  · next hm =>
    have hlist : isMessageList (⟨type, .repeated, number, name, json⟩ : MessageField M E) = false := by
      cases type with
      | message m => exact absurd rfl (hm m)
      | simple t => rfl
      | enum e => rfl
    exact ⟨[], hmem.1, by simp, by simp [hlist], by simp [hlist, hasQmlAlias]⟩

theorem extraProperty_name {p : QProperty M E} (h : f.extraProperty hasQml = some p) :
    p.name = f.propertyName ∧
      ((f.isMessageList = true ∧ hasQml = true) ∨
        (f.isMessageList = false ∧ f.hasQmlAlias hasQml = true)) := by
  obtain ⟨type, label, number, name, json⟩ := f
  unfold extraProperty at h
  dsimp only at h
  split at h
  · split at h
    · next hq => cases h; exact ⟨rfl, .inl ⟨rfl, hq⟩⟩
    · cases h
  · split at h
    · next ha => cases h; exact ⟨rfl, .inr ⟨rfl, ha⟩⟩
    · cases h
  · cases h

theorem extraProperty_isSome
    (h : (f.isMessageList = true ∧ hasQml = true) ∨ f.hasQmlAlias hasQml = true) :
    ∃ p, f.extraProperty hasQml = some p := by
  obtain ⟨type, label, number, name, json⟩ := f
  cases type with
  | message m =>
    rcases h with ⟨hl, rfl⟩ | h
    · cases label with
      | repeated => exact ⟨_, rfl⟩
      | singular | map => cases hl
    · simp [hasQmlAlias] at h
  | simple t =>
    rcases h with ⟨hl, -⟩ | h
    · simp [isMessageList] at hl
    · exact ⟨_, if_pos h⟩
  | enum e =>
    rcases h with ⟨hl, -⟩ | h
    · simp [isMessageList] at hl
    · simp [hasQmlAlias] at h

end MessageField

namespace MessageFields
variable {M E : Type} {hasQml : Bool} {qtType : M → Bool} {c : MessageFields M E}

/-- A field has the name of the `Data` property of a list of messages. -/
def Clash (hasQml : Bool) (c : MessageFields M E) : Prop :=
  ∃ f ∈ c.fields, ∃ g ∈ c.fields, f.isMessageList = true ∧ g.bare hasQml = true ∧
    g.propertyName = f.propertyName ++ "Data".toList

/-- Where a property stands: the first ones belong to the fields in their order. -/
theorem printProperties_get {i : Nat} {p : QProperty M E}
    (h : (c.printProperties hasQml qtType)[i]? = some p) :
    (∃ f, c.fields[i]? = some f ∧ p = f.property hasQml qtType) ∨
      (c.fields.length ≤ i ∧ ∃ f ∈ c.fields, f.extraProperty hasQml = some p) := by
  unfold printProperties at h
  rw [List.getElem?_append] at h
  split at h
  · rw [List.getElem?_map, Option.map_eq_some_iff] at h
    obtain ⟨f, hf, rfl⟩ := h
    exact .inl ⟨f, hf, rfl⟩
  · next hi =>
    rw [List.length_map] at hi
    obtain ⟨f, hf, he⟩ := List.mem_filterMap.mp (List.mem_of_getElem? h)
    exact .inr ⟨by omega, f, hf, he⟩

theorem printProperties_of_field {i : Nat} {f : MessageField M E} (hf : c.fields[i]? = some f) :
    (c.printProperties hasQml qtType)[i]? = some (f.property hasQml qtType) := by
  obtain ⟨hi, -⟩ := List.getElem?_eq_some_iff.mp hf
  unfold printProperties
  rw [List.getElem?_append_left (by simpa using hi), List.getElem?_map, hf]
  rfl

theorem printProperties_of_extra {f : MessageField M E} {p : QProperty M E} (hf : f ∈ c.fields)
    (h : f.extraProperty hasQml = some p) :
    ∃ i, c.fields.length ≤ i ∧ (c.printProperties hasQml qtType)[i]? = some p := by
  obtain ⟨k, hk⟩ := List.mem_iff_getElem?.mp (List.mem_filterMap.mpr ⟨f, hf, h⟩)
  refine ⟨c.fields.length + k, Nat.le_add_right _ _, ?_⟩
  unfold printProperties
  rw [List.getElem?_append_right (by simp), List.length_map, Nat.add_sub_cancel_left]
  exact hk

/-- Without a clash, no other property has the name of the property of a field. -/
theorem name_unique (hc : ¬ c.Clash hasQml) {i j : Nat} {f : MessageField M E} {p : QProperty M E}
    (hf : c.fields[i]? = some f) (hp : (c.printProperties hasQml qtType)[j]? = some p)
    (hn : p.name = (f.property hasQml qtType).name) : j = i := by
  have hmem := List.mem_of_getElem? hf
  obtain ⟨s, hs, hname, hdata, hnil⟩ := f.property_name hasQml qtType
  rcases printProperties_get hp with ⟨g, hg, rfl⟩ | ⟨-, g, hg, he⟩
  · obtain ⟨s', hs', hname', hdata', hnil'⟩ := g.property_name hasQml qtType
    have hgmem := List.mem_of_getElem? hg
    rw [hname, hname'] at hn
    rcases MessageField.suffix_cases (alphanum_get hg) (alphanum_get hf) hs' hs hn with
      ⟨-, h⟩ | ⟨rfl, rfl⟩ | ⟨rfl, rfl⟩
    · exact index_inj hg hf h
    · refine absurd ⟨f, hmem, g, hgmem, hdata.mp rfl, ?_, by simpa using hn⟩ hc
      simp [MessageField.bare, (hnil'.mp rfl).1]
    · refine absurd ⟨g, hgmem, f, hmem, hdata'.mp rfl, ?_, by simpa using hn.symm⟩ hc
      simp [MessageField.bare, (hnil.mp rfl).1]
  · obtain ⟨hextra, hkind⟩ := g.extraProperty_name hasQml he
    have hbare : g.bare hasQml = true := by
      rcases hkind with ⟨-, h⟩ | ⟨h, -⟩ <;> simp [MessageField.bare, h]
    obtain ⟨k, hk⟩ := List.mem_iff_getElem?.mp hg
    have hnames : g.propertyName ++ [] = f.propertyName ++ s := by
      rw [List.append_nil, ← hextra, hn, hname]
    rcases MessageField.suffix_cases (alphanum_get hk) (alphanum_get hf) (by decide) hs hnames with
      ⟨rfl, h⟩ | ⟨-, rfl⟩ | ⟨hd, -⟩
    · -- a field with a second property does not print its bare name first
      have hik := index_inj hk hf h
      rw [hik, hf] at hk
      cases hk
      obtain ⟨hl, ha⟩ := hnil.mp rfl
      rcases hkind with ⟨h, -⟩ | ⟨-, h⟩
      · simp [hl] at h
      · simp [ha] at h
    · exact absurd ⟨f, hmem, g, hg, hdata.mp rfl, hbare, by simpa using hnames⟩ hc
    · cases hd

/-- With a clash, another property has the name of the property of a field. -/
theorem name_twice (hc : c.Clash hasQml) : ∃ (i j : Nat) (f : MessageField M E) (p : QProperty M E),
    c.fields[i]? = some f ∧ i ≠ j ∧
    (c.printProperties hasQml qtType)[j]? = some p ∧
    p.name = (f.property hasQml qtType).name := by
  obtain ⟨f, hf, g, hg, hlist, hbare, hname⟩ := hc
  obtain ⟨i, hi⟩ := List.mem_iff_getElem?.mp hf
  obtain ⟨k, hk⟩ := List.mem_iff_getElem?.mp hg
  obtain ⟨s, -, hfname, hdata, -⟩ := f.property_name hasQml qtType
  obtain rfl := hdata.mpr hlist
  obtain ⟨s', -, hgname, -, hnil⟩ := g.property_name hasQml qtType
  by_cases hmain : g.isMessageList = false ∧ g.hasQmlAlias hasQml = false
  · obtain rfl := hnil.mpr hmain
    refine ⟨i, k, f, _, hi, ?_, printProperties_of_field hk, ?_⟩
    · rintro rfl
      rw [hi] at hk
      cases hk
      simp [hlist] at hmain
    · rw [hgname, hfname, List.append_nil, hname]
  · have hextra : (g.isMessageList = true ∧ hasQml = true) ∨ g.hasQmlAlias hasQml = true := by
      cases hl : g.isMessageList <;> cases ha : g.hasQmlAlias hasQml <;>
        simp_all [MessageField.bare]
    obtain ⟨p, hp⟩ := g.extraProperty_isSome hasQml hextra
    obtain ⟨j, hj, hpj⟩ : ∃ j, c.fields.length ≤ j ∧ (c.printProperties hasQml qtType)[j]? = some p :=
      printProperties_of_extra hg hp
    obtain ⟨hlt, -⟩ := List.getElem?_eq_some_iff.mp hi
    refine ⟨i, j, f, p, hi, by omega, hpj, ?_⟩
    rw [(g.extraProperty_name hasQml hp).1, hfname, hname]

/-- **By name.** Whichever property of a name is found, the name of a field's
property leads back to it, exactly if no field has the name of the `Data` property
of a list of messages. -/
theorem own_property_iff (c : MessageFields M E) (hasQml : Bool) (qtType : M → Bool) :
    (∀ indexOfProperty : List (QProperty M E) → Str → Option Nat, Finds indexOfProperty →
      ∀ i p, i < c.fields.length → (c.printProperties hasQml qtType)[i]? = some p →
        indexOfProperty (c.printProperties hasQml qtType) p.name = some i) ↔
      ¬ c.Clash hasQml := by
  constructor
  · intro h hc
    obtain ⟨i, j, f, p, hf, hij, hp, hn⟩ : ∃ (i j : Nat) (f : MessageField M E) (p : QProperty M E),
        c.fields[i]? = some f ∧ i ≠ j ∧ (c.printProperties hasQml qtType)[j]? = some p ∧
          p.name = (f.property hasQml qtType).name := name_twice hc
    have hlast := h _ finds_lastIndexOfProperty
    obtain ⟨hi, -⟩ := List.getElem?_eq_some_iff.mp hf
    have hfi := hlast i _ hi (printProperties_of_field hf)
    obtain ⟨k, hk, hjk⟩ := lastIndexOfProperty_ge hp hn
    rw [hfi] at hk
    cases hk
    -- the last property of the name is that of the field, so the other one is a field's as well
    have hj : j < c.fields.length := by omega
    have hjj := hlast j p hj hp
    rw [hn, hfi] at hjj
    exact hij (Option.some.inj hjj)
  · intro hc indexOfProperty hfinds i p hi hp
    obtain ⟨k, q, hk, hq, hqn⟩ := hfinds _ p.name ⟨p, List.mem_of_getElem? hp, rfl⟩
    have hf : c.fields[i]? = some c.fields[i] := List.getElem?_eq_getElem hi
    rw [printProperties_of_field hf] at hp
    cases hp
    rw [hk, name_unique hc hf hq hqn]

/-- A list of messages `user` beside a string `user_data`. -/
example : MessageFields.Clash false (⟨[⟨.message (), .repeated, 1, "user".toList, "user".toList⟩,
    ⟨.simple .string, .singular, 2, "userData".toList, "userData".toList⟩], by decide, by decide,
    by decide, by decide⟩ : MessageFields Unit Unit) :=
  ⟨_, .head _, _, .tail _ (.head _), by decide⟩

end MessageFields

end QtProtobuf.Generator
