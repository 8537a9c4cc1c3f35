import QtProtobuf.L5Generator.IncludeClosure
import QtProtobuf.L5Generator.NameAgreement

/-!
# Where an enum is looked for

`enumVisibility` compares the full name of an enum with those of the enums of the
scope, then with those of the enums of the messages that are not nested; any
other enum is global, and `produceEnumTypeMap` puts global enums in a helper
class. The printers put an enum in the helper class if it has no containing
message and in the class of that message otherwise (`EnumNames`).

* `enumVisibility_iff`: the visibility for each place of an enum.
* `names_container`: a class named by its full name is also named by namespaces
  first and aliases behind.
* `enumExact_iff`: visibility and names are right exactly under `EnumPlaced`.
-/
namespace QtProtobuf.Generator

open Lib

/-- protoc gives no two enums one full name. -/
structure LinkedFileSet (F M E : Type) extends FileSet F M E where
  enumFullName_inj : ∀ e e', toFileSet.enumFullName e = toFileSet.enumFullName e' → e = e'

structure EnumTypeMap extends TypeMap where
  enum_gadget : Str

namespace FileSet

variable {F M E : Type} (D : FileSet F M E)

/-- `isLocalEnum` with a scope that may be the null pointer.
mirrors src/generator/generatorcommon.cpp:362-376 -/
def isLocalEnumIn (type : E) (scope : Option M) : Bool :=
  match scope with
  | none => false
  | some scope => D.isLocalEnum type scope

/-- `enumVisibility` with a scope that may be the null pointer.
mirrors src/generator/generatorcommon.cpp:378-397 -/
def enumVisibilityIn (type : E) (scope : Option M) : EnumVisibility :=
  if D.isLocalEnumIn type scope then .localEnum
  else if (D.messageTypes (D.enumFile type)).any fun msg =>
      (D.messageEnums msg).any fun e => D.enumFullName type == D.enumFullName e
    then .neighborEnum
  else .globalEnum

@[simp] theorem enumVisibilityIn_some (e : E) (m : M) :
    D.enumVisibilityIn e (some m) = D.enumVisibility e m := rfl

variable (opts : GeneratorOptions)

/-- mirrors src/generator/generatorcommon.cpp:136-186 -/
def produceEnumTypeMap (type : E) (scope : Option M) : EnumTypeMap :=
  let visibility := D.enumVisibilityIn type scope
  let namespaceList :=
    Descriptors.withExtraNamespace opts (common.getNamespaces (some (D.enumFullName type)))
  let name := utils.upperCaseName (D.enumName type)
  let enumGadget :=
    if visibility = .globalEnum then name ++ EnumClassSuffix
    else (scope.map fun s => utils.upperCaseName (D.name s)).getD []
  let gadgetList :=
    if visibility = .globalEnum then namespaceList ++ [enumGadget] else namespaceList
  let namespaces := common.getNamespacesString gadgetList colons
  let scopeNamespaces := common.getScopeNamespacesString namespaces
    (common.getNamespacesString (common.getNamespaces (scope.map D.fullName)) colons)
  let listName := name ++ Descriptors.ListSuffix
  { classname := enumGadget
    type := name
    full_type := Descriptors.qualified namespaces name
    scope_type := Descriptors.qualified scopeNamespaces name
    list_type := listName
    full_list_type := Descriptors.qualified namespaces listName
    scope_list_type := Descriptors.qualified scopeNamespaces listName
    namespaces := namespaces
    scope_namespaces := scopeNamespaces
    qml_package := common.getNamespacesString namespaceList ['.']
    property_type :=
      if visibility = .localEnum then name else Descriptors.qualified namespaces name
    property_list_type := Descriptors.qualified namespaces listName
    getter_type := Descriptors.qualified scopeNamespaces name
    setter_type := Descriptors.qualified scopeNamespaces name
    enum_gadget := enumGadget }

variable [DecidableEq M] (hides : List Str → List Str → Prop)

/-- The qualified names the printers declare an enum under: `EnumDeclarationPrinter`
in a class of its own, `printQEnums` in the class of the message.
mirrors src/generator/enumdeclarationprinter.cpp:38-94 and
src/generator/messagedeclarationprinter.cpp:358-373 -/
inductive EnumNames : List Str → E → Prop where
  | gadget {e : E} : e ∈ D.fileEnums (D.enumFile e) →
      EnumNames ((Descriptors.withExtraNamespace opts
          (common.getNamespaces (some (D.enumFullName e)))).flatMap components ++
        [(D.produceEnumTypeMap opts e none).classname, (D.produceEnumTypeMap opts e none).type]) e
  | member {path : List Str} {c : M} {e : E} : D.Names opts hides path c → e ∈ D.messageEnums c →
      EnumNames (path ++ [(D.produceEnumTypeMap opts e (some c)).type]) e

/-- `Denotes` for an enum. -/
def EnumDenotes (scope : List Str) (name : Str) (e : E) : Prop :=
  ∃ outer, LooksUp hides scope name outer ∧ D.EnumNames opts hides (outer ++ components name) e

omit [DecidableEq M] in
/-- The namespaces in the name of an enum, with the helper class. -/
def enumNamespaces (e : E) : List Str :=
  match D.enumContainingType e with
  | none => opts.extra ++ D.packageParts (D.enumFile e) ++
      [utils.upperCaseName (D.enumName e) ++ EnumClassSuffix]
  | some c => opts.extra ++ D.protoNamespaces c ++ [D.name c]

/-- Where names of enums stand: in the global scope, in the class of a message, and in
the helper class of an enum. -/
def EnclosesEnum (enclosing : List Str) : Prop :=
  D.Encloses opts enclosing ∨ ∃ e, D.enumContainingType e = none ∧ enclosing = D.enumNamespaces opts e

/-- The visibility says where the enum is, and the names that are made from it
lead to where the printers put it. -/
structure EnumExact (e : E) (scope : Option M) : Prop where
  localEnum : D.enumVisibilityIn e scope = .localEnum ↔
    ∃ s, scope = some s ∧ D.enumContainingType e = some s
  globalEnum : D.enumVisibilityIn e scope = .globalEnum ↔ D.enumContainingType e = none
  neighborEnum : D.enumVisibilityIn e scope = .neighborEnum ↔
    D.enumContainingType e ≠ none ∧ D.enumContainingType e ≠ scope
  full_type : ∀ path, D.EnumNames opts hides path e → ∀ enclosing, D.EnclosesEnum opts enclosing →
    D.EnumDenotes opts hides enclosing (D.produceEnumTypeMap opts e scope).full_type e
  scope_type : ∀ path, D.EnumNames opts hides path e → ∀ s ns, scope = some s → D.Declared opts ns s →
    D.EnumDenotes opts hides (ns ++ [D.classname s]) (D.produceEnumTypeMap opts e scope).scope_type e
  scope_type_null : ∀ path, D.EnumNames opts hides path e → scope = none →
    ∀ enclosing, D.EnclosesEnum opts enclosing →
      D.EnumDenotes opts hides enclosing (D.produceEnumTypeMap opts e scope).scope_type e

omit [DecidableEq M] in
/-- What is left of the enum's namespaces in a scope, or without one. -/
def enumLeftIn (scope : Option M) (e : E) : List Str :=
  withoutPrefix (common.getNamespaces (scope.map D.fullName)) (D.enumNamespaces opts e)

omit [DecidableEq M] in
/-- No scope inside of the one where the parts lead to the enum declares the first part. -/
def EnumUnhidden (scope parts : List Str) (e : E) : Prop :=
  ∀ inner, inner <+: scope → (D.enumNamespaces opts e).length + 1 < inner.length + parts.length →
    ¬ hides inner parts

/-- The enum is in no message, in the scope, or in a message that is not nested;
the class of its message has the name the full name spells; where the namespaces of
another scope are dropped from its own, the scope is in them; and, if the enum is
declared, nothing that is declared inside hides its names. -/
structure EnumPlaced (e : E) (scope : Option M) : Prop where
  depth : ∀ c, D.enumContainingType e = some c → D.containingType c = none ∨ scope = some c
  container : ∀ c, D.enumContainingType e = some c → D.Reached c →
    D.Names opts hides (opts.extra ++ D.protoNamespaces c ++ [D.name c]) c
  scopes : ∀ s, scope = some s → D.enumContainingType e ≠ some s → D.Reached s →
    D.protoNamespaces s <+: D.enumNamespaces opts e → D.protoNamespaces s <+: D.cppNamespaces opts s
  fullNames : (∀ c, D.enumContainingType e = some c → D.Reached c) → ∀ enclosing, D.EnclosesEnum opts enclosing →
    D.EnumUnhidden opts hides enclosing (D.enumNamespaces opts e ++ [utils.upperCaseName (D.enumName e)]) e
  scopeNames : (∀ c, D.enumContainingType e = some c → D.Reached c) → ∀ s, scope = some s → D.Reached s →
    D.EnumUnhidden opts hides (D.cppNamespaces opts s ++ [D.classname s])
      (D.enumLeftIn opts scope e ++ [utils.upperCaseName (D.enumName e)]) e

variable {D}

/-! ## The visibility -/

omit [DecidableEq M] in
theorem mem_fileEnums_self {e : E} :
    e ∈ D.fileEnums (D.enumFile e) ↔ D.enumContainingType e = none := by
  simp [D.mem_fileEnums]

end FileSet

namespace LinkedFileSet

variable {F M E : Type} {D : LinkedFileSet F M E}

theorem isLocalEnumIn_iff {e : E} {scope : Option M} :
    D.isLocalEnumIn e scope = true ↔ ∃ s, scope = some s ∧ D.enumContainingType e = some s := by
  cases scope with
  | none => simp [FileSet.isLocalEnumIn]
  | some s =>
    simp only [FileSet.isLocalEnumIn, FileSet.isLocalEnum, List.any_eq_true, beq_iff_eq,
      D.mem_messageEnums]
    constructor
    · intro ⟨e', hc, hname⟩
      cases D.enumFullName_inj _ _ hname
      exact ⟨s, rfl, hc⟩
    · intro ⟨s', hs, hc⟩
      cases hs
      exact ⟨e, hc, rfl⟩

theorem inTopLevelMessage_iff {e : E} :
    ((D.messageTypes (D.enumFile e)).any fun msg =>
      (D.messageEnums msg).any fun e' => D.enumFullName e == D.enumFullName e') = true ↔
      ∃ c, D.enumContainingType e = some c ∧ D.containingType c = none := by
  simp only [List.any_eq_true, beq_iff_eq, D.mem_messageTypes, D.mem_messageEnums]
  constructor
  · intro ⟨c, ⟨htop, _⟩, e', hc, hname⟩
    cases D.enumFullName_inj _ _ hname
    exact ⟨c, hc, htop⟩
  · intro ⟨c, hc, htop⟩
    exact ⟨c, ⟨htop, (D.enumFile_eq c e hc).symm⟩, e, hc, rfl⟩

/-- For an enum of a nested message, any other scope makes it global. -/
theorem enumVisibility_iff {e : E} {scope : Option M} :
    (D.enumVisibilityIn e scope = .localEnum ↔
      ∃ s, scope = some s ∧ D.enumContainingType e = some s) ∧
    (D.enumVisibilityIn e scope = .neighborEnum ↔ D.enumContainingType e ≠ scope ∧
      ∃ c, D.enumContainingType e = some c ∧ D.containingType c = none) ∧
    (D.enumVisibilityIn e scope = .globalEnum ↔ D.enumContainingType e = none ∨
      D.enumContainingType e ≠ scope ∧
        ∃ c, D.enumContainingType e = some c ∧ D.containingType c ≠ none) := by
  have hl : D.isLocalEnumIn e scope = true ↔
      ∃ s, scope = some s ∧ D.enumContainingType e = some s := isLocalEnumIn_iff
  have ht := inTopLevelMessage_iff (D := D) (e := e)
  unfold FileSet.enumVisibilityIn
  cases hc : D.enumContainingType e with
  | none =>
    have h₁ : D.isLocalEnumIn e scope = false := by
      rw [Bool.eq_false_iff, Ne, hl]
      simp [hc]
    have h₂ := (Bool.eq_false_iff.mpr fun h => by simpa [hc] using ht.mp h)
    simp [h₁, h₂]
  | some c =>
    by_cases hs : scope = some c
    · have h₁ : D.isLocalEnumIn e scope = true := hl.mpr ⟨c, hs, hc⟩
      subst hs
      simp [h₁]
    · have h₁ : D.isLocalEnumIn e scope = false := by
        rw [Bool.eq_false_iff, Ne, hl]
        rintro ⟨s, rfl, he⟩
        exact hs (he.symm.trans hc)
      have hs' : some c ≠ scope := fun h => hs h.symm
      by_cases htop : D.containingType c = none
      · have h₂ := ht.mpr ⟨c, hc, htop⟩
        simp [h₁, h₂, hs, hs', htop]
      · have h₂ := (Bool.eq_false_iff.mpr fun h => by simpa [hc, htop] using ht.mp h)
        simp [h₁, h₂, hs, hs', htop]

/-- In a message that is not nested, or in the scope, an enum is where its
visibility says. -/
theorem visibility_exact_iff {e : E} {scope : Option M} :
    ((D.enumVisibilityIn e scope = .globalEnum ↔ D.enumContainingType e = none) ∧
      (D.enumVisibilityIn e scope = .neighborEnum ↔
        D.enumContainingType e ≠ none ∧ D.enumContainingType e ≠ scope)) ↔
      ∀ c, D.enumContainingType e = some c → D.containingType c = none ∨ scope = some c := by
  rw [enumVisibility_iff.2.1, enumVisibility_iff.2.2]
  cases hc : D.enumContainingType e with
  | none => simp
  | some c =>
    have hs : some c = scope ↔ scope = some c := eq_comm
    by_cases htop : D.containingType c = none
    · simp [htop]
    · simp [htop, hs]

end LinkedFileSet

/-! ## The names -/

namespace FileSet

variable {F M E : Type} [DecidableEq M] {D : FileSet F M E} {opts : GeneratorOptions}
  {hides : List Str → List Str → Prop}

variable (D) in
omit [DecidableEq M] in
/-- The namespaces of the full name of an enum. -/
def enumPath (e : E) : List Str :=
  match D.enumContainingType e with
  | some c => D.protoNamespaces c ++ [D.name c]
  | none => D.packageParts (D.enumFile e)

omit [DecidableEq M] in
@[simp] theorem getNamespaces_enumFullName (e : E) :
    common.getNamespaces (some (D.enumFullName e)) = D.enumPath e := by
  rw [common.getNamespaces, enumFullName_eq, utils.split_intercalate (isWord_enumFullName e),
    List.dropLast_concat]
  rfl

omit [DecidableEq M] in
theorem isIdentifier_enumPath (e : E) : ∀ p ∈ D.enumPath e, IsIdentifier p := by
  unfold enumPath
  split
  · next c hc => exact Descriptors.isIdentifier_fullName c
  · exact (D.packageParts_spec _).1

omit [DecidableEq M] in
theorem isIdentifier_enumNamespaces (opts : GeneratorOptions) (e : E) :
    ∀ p ∈ D.enumNamespaces opts e, IsIdentifier p := by
  have hgadget : IsIdentifier EnumClassSuffix := by decide
  have hname := isIdentifier_iff.mp (utils.isIdentifier_upperCaseName (D.enumName_identifier e))
  intro p hp
  unfold enumNamespaces at hp
  split at hp <;> rcases List.mem_append.mp hp with hp | hp
  · rcases List.mem_append.mp hp with hp | hp
    · exact opts.extra_spec.1 p hp
    · exact (D.packageParts_spec _).1 p hp
  · rw [List.mem_singleton.mp hp, isIdentifier_iff]
    refine ⟨by simp [hname.1], fun c hc => ?_⟩
    exact (List.mem_append.mp hc).elim (hname.2 c) ((isIdentifier_iff.mp hgadget).2 c)
  · rcases List.mem_append.mp hp with hp | hp
    · exact opts.extra_spec.1 p hp
    · exact Descriptors.isIdentifier_protoNamespaces _ p hp
  · exact List.mem_singleton.mp hp ▸ D.name_identifier _

omit [DecidableEq M] in
/-- Under the right visibility the namespaces of an enum are those it is in. -/
theorem enumNamespaces_eq {e : E} {scope : Option M}
    (h : D.enumVisibilityIn e scope = .globalEnum ↔ D.enumContainingType e = none) :
    (D.produceEnumTypeMap opts e scope).namespaces =
      colons.intercalate (D.enumNamespaces opts e) := by
  simp only [produceEnumTypeMap, getNamespaces_enumFullName, common.getNamespacesString_eq]
  cases hc : D.enumContainingType e with
  | none =>
    have hv : D.enumVisibilityIn e scope = .globalEnum := h.mpr hc
    rw [if_pos hv, if_pos hv, Descriptors.withExtraNamespace_append,
      Descriptors.intercalate_withExtraNamespace]
    simp [enumNamespaces, enumPath, hc]
  | some c =>
    have hv : D.enumVisibilityIn e scope ≠ .globalEnum := fun hv => by simp [hc] at h; exact h hv
    rw [if_neg hv, Descriptors.intercalate_withExtraNamespace]
    simp [enumNamespaces, enumPath, hc]

omit [DecidableEq M] in
theorem enum_full_type_eq {e : E} {scope : Option M}
    (h : D.enumVisibilityIn e scope = .globalEnum ↔ D.enumContainingType e = none) :
    (D.produceEnumTypeMap opts e scope).full_type =
      colons.intercalate (D.enumNamespaces opts e ++ [utils.upperCaseName (D.enumName e)]) := by
  have hdef : (D.produceEnumTypeMap opts e scope).full_type = Descriptors.qualified
      (D.produceEnumTypeMap opts e scope).namespaces (utils.upperCaseName (D.enumName e)) := rfl
  rw [hdef, enumNamespaces_eq h]
  exact Descriptors.qualified_intercalate (isIdentifier_enumNamespaces opts e) _

omit [DecidableEq M] in
theorem isIdentifier_enumLeftIn (opts : GeneratorOptions) (scope : Option M) (e : E) :
    ∀ p ∈ D.enumLeftIn opts scope e ++ [utils.upperCaseName (D.enumName e)], IsIdentifier p := by
  intro p hp
  rcases List.mem_append.mp hp with hp | hp
  · exact isIdentifier_enumNamespaces opts e p (mem_of_mem_withoutPrefix hp)
  · exact List.mem_singleton.mp hp ▸ utils.isIdentifier_upperCaseName (D.enumName_identifier e)

omit [DecidableEq M] in
theorem enum_scope_type_eq {e : E} {scope : Option M}
    (h : D.enumVisibilityIn e scope = .globalEnum ↔ D.enumContainingType e = none) :
    (D.produceEnumTypeMap opts e scope).scope_type =
      colons.intercalate (D.enumLeftIn opts scope e ++ [utils.upperCaseName (D.enumName e)]) := by
  have hs : ∀ p ∈ common.getNamespaces (scope.map D.fullName), IsIdentifier p := by
    cases scope with
    | none => simp [common.getNamespaces]
    | some s => simpa using Descriptors.isIdentifier_protoNamespaces s
  have hdef : (D.produceEnumTypeMap opts e scope).scope_type = Descriptors.qualified
      (common.getScopeNamespacesString (D.produceEnumTypeMap opts e scope).namespaces
        (common.getNamespacesString (common.getNamespaces (scope.map D.fullName)) colons))
      (utils.upperCaseName (D.enumName e)) := rfl
  rw [hdef, enumNamespaces_eq h, common.getNamespacesString_eq,
    common.getScopeNamespacesString_eq (isIdentifier_enumNamespaces opts e) hs]
  exact Descriptors.qualified_intercalate
    (fun p hp => isIdentifier_enumNamespaces opts e p (mem_of_mem_withoutPrefix hp)) _

/-- All names of an enum are of one length. -/
theorem enumNames_length {path : List Str} {e : E} (h : D.EnumNames opts hides path e) :
    path.length = (D.enumNamespaces opts e).length + 1 := by
  cases h with
  | gadget he =>
    have hc := mem_fileEnums_self.mp he
    rw [getNamespaces_enumFullName, flatMap_components_withExtraNamespace opts (isIdentifier_enumPath e)]
    simp [enumNamespaces, enumPath, hc, Nat.add_assoc]
  | @member path c _ hn he =>
    have hc := (D.mem_messageEnums _ _).mp he
    rw [List.length_append, Descriptors.names_length hn]
    simp [enumNamespaces, hc, Descriptors.cppNamespaces, Descriptors.protoNamespaces, Nat.add_assoc]

/-- **Look-up** of joined names. -/
theorem enumDenotes_iff {scope l : List Str} (h : ∀ p ∈ l, IsIdentifier p) {e : E} :
    D.EnumDenotes opts hides scope (colons.intercalate l) e ↔
      (∃ outer, outer <+: scope ∧ D.EnumNames opts hides (outer ++ l) e) ∧
        D.EnumUnhidden opts hides scope l e := by
  have hlength : ∀ {outer : List Str}, D.EnumNames opts hides (outer ++ l) e →
      outer.length + l.length = (D.enumNamespaces opts e).length + 1 := by
    intro outer hn
    rw [← List.length_append]
    exact enumNames_length hn
  rw [EnumDenotes]
  simp only [Descriptors.looksUp_iff h, components_intercalate h]
  constructor
  · rintro ⟨outer, ⟨hp, hpassed⟩, hn⟩
    refine ⟨⟨outer, hp, hn⟩, fun inner hin hlong => hpassed inner hin ?_⟩
    have := hlength hn
    omega
  · rintro ⟨⟨outer, hp, hn⟩, hunhidden⟩
    refine ⟨outer, ⟨hp, fun inner hin hlong => hunhidden inner hin ?_⟩, hn⟩
    have := hlength hn
    omega

/-- In the helper class. -/
theorem enumNames_top {e : E} (hc : D.enumContainingType e = none)
    (hv : D.enumVisibilityIn e none = .globalEnum) {path : List Str} :
    D.EnumNames opts hides path e ↔
      path = D.enumNamespaces opts e ++ [utils.upperCaseName (D.enumName e)] := by
  have hclass : (D.produceEnumTypeMap opts e none).classname =
      utils.upperCaseName (D.enumName e) ++ EnumClassSuffix := by
    have hdef : (D.produceEnumTypeMap opts e none).classname =
      if D.enumVisibilityIn e none = .globalEnum then
        utils.upperCaseName (D.enumName e) ++ EnumClassSuffix else [] := rfl
    rw [hdef, if_pos hv]
  have hpath : (Descriptors.withExtraNamespace opts
      (common.getNamespaces (some (D.enumFullName e)))).flatMap components ++
        [(D.produceEnumTypeMap opts e none).classname, (D.produceEnumTypeMap opts e none).type] =
      D.enumNamespaces opts e ++ [utils.upperCaseName (D.enumName e)] := by
    rw [getNamespaces_enumFullName,
      flatMap_components_withExtraNamespace opts (isIdentifier_enumPath e), hclass]
    simp [enumNamespaces, enumPath, hc, produceEnumTypeMap]
  constructor
  · intro h
    cases h with
    | gadget _ => exact hpath
    | member _ he => simp [D.mem_messageEnums, hc] at he
  · intro h
    rw [h, ← hpath]
    exact .gadget (mem_fileEnums_self.mpr hc)

/-- In the class of the message. -/
theorem enumNames_member {e : E} {c : M} (hc : D.enumContainingType e = some c) {path : List Str} :
    D.EnumNames opts hides (path ++ [utils.upperCaseName (D.enumName e)]) e ↔ D.Names opts hides path c := by
  constructor
  · intro h
    generalize hp : path ++ [utils.upperCaseName (D.enumName e)] = full at h
    cases h with
    | gadget he => simp [mem_fileEnums_self.mp he] at hc
    | @member path' c' _ hn he =>
      cases hc.symm.trans ((D.mem_messageEnums _ _).mp he)
      rwa [(List.append_inj' hp rfl).1]
  · intro h
    exact .member h ((D.mem_messageEnums _ _).mpr hc)

end FileSet

/-! ## The names of the containing class -/

namespace Descriptors

variable {F M E : Type} [DecidableEq M] {D : Descriptors F M E} {opts : GeneratorOptions}
  {hides : List Str → List Str → Prop}

theorem Names.reached {path : List Str} {m : M} (h : D.Names opts hides path m) : D.Reached m := by
  cases h with
  | declared hd => exact (declared_iff.mp hd).1
  | aliased _ hd hn => exact .nested (declared_iff.mp hd).1 hn

/-- A class that has the name its full name spells is upper-case. -/
theorem upper_of_names {c : M}
    (h : D.Names opts hides (opts.extra ++ D.protoNamespaces c ++ [D.name c]) c) : D.Upper c := by
  obtain ⟨parts, -, heq⟩ := names_shape h
  exact (List.cons.inj (List.append_inj' heq rfl).2).1.symm

omit [DecidableEq M] in
theorem length_cppNamespaces (c : M) :
    (D.cppNamespaces opts c).length = (opts.extra ++ D.protoNamespaces c).length := by
  simp [cppNamespaces, protoNamespaces]

/-- The name its full name spells is through an alias in each container, and
every container has the name its own full name spells. -/
theorem names_fullName_inv {c n : M} (hc : D.containingType n = some c)
    (h : D.Names opts hides (opts.extra ++ D.protoNamespaces n ++ [D.name n]) n) :
    D.Names opts hides (opts.extra ++ D.protoNamespaces c ++ [D.name c]) c ∧
      ∀ path, D.Names opts hides path c → D.Names opts hides (path ++ [D.name n]) n := by
  have hns : D.protoNamespaces n = D.protoNamespaces c ++ [D.name c] := by
    simp [protoNamespaces, containers_nested hc, D.file_eq c n hc]
  have hup : D.classname n = D.name n := upper_of_names h
  generalize hp : opts.extra ++ D.protoNamespaces n ++ [D.name n] = full at h
  cases h with
  | declared hd =>
    -- the namespace beside the container is longer than its name
    obtain ⟨-, rfl⟩ := declared_iff.mp hd
    have hlast := congrArg (fun l => (l.getLast?.getD []).length) (List.append_inj' hp rfl).1
    have hsuffix : QtProtobufNestedNamespace.length = 17 := rfl
    simp only [hns, cppNamespaces, containers_nested hc, List.map_append, List.map_cons,
      List.map_nil, ← List.append_assoc, List.getLast?_concat, Option.getD_some, classname,
      List.length_append, utils.length_upperCaseName] at hlast
    omega
  | @aliased path ns outer c' _ hpath hd hn hlook htarget =>
    cases hc.symm.trans (mem_iterateNestedMessages.mp hn).1
    have heq : path = opts.extra ++ D.protoNamespaces c ++ [D.name c] := by
      rw [← (List.append_inj' hp rfl).1, hns, List.append_assoc]
    refine ⟨heq ▸ hpath, fun path' hpath' => ?_⟩
    rw [← hup]
    exact .aliased hpath' hd hn hlook htarget

/-- Namespaces in front and names of containers behind, from any place on. -/
theorem names_container {c : M}
    (h : D.Names opts hides (opts.extra ++ D.protoNamespaces c ++ [D.name c]) c) :
    ∀ k ≤ (D.cppNamespaces opts c).length, D.Names opts hides
      ((D.cppNamespaces opts c).take k ++
        (opts.extra ++ D.protoNamespaces c ++ [D.name c]).drop k) c := by
  induction hd : D.depth c using Nat.strongRecOn generalizing c with
  | ind d ih =>
    intro k hk
    have hlen : (D.cppNamespaces opts c).length = (opts.extra ++ D.protoNamespaces c).length :=
      length_cppNamespaces c
    by_cases hlast : k = (D.cppNamespaces opts c).length
    · rw [hlast, List.take_length, hlen, List.drop_left]
      have hup : D.classname c = D.name c := upper_of_names h
      rw [← hup]
      exact .declared (declared_iff.mpr ⟨h.reached, rfl⟩)
    cases hc : D.containingType c with
    | none =>
      have : D.cppNamespaces opts c = opts.extra ++ D.protoNamespaces c := by
        simp [cppNamespaces, protoNamespaces, containers_top hc]
      rw [List.drop_append_of_le_length (by omega), this, ← List.append_assoc,
        List.take_append_drop]
      exact h
    | some c' =>
      obtain ⟨hc', hnames⟩ := names_fullName_inv hc h
      have hcpp : D.cppNamespaces opts c = D.cppNamespaces opts c' ++
          [D.classname c' ++ QtProtobufNestedNamespace] := by
        simp [cppNamespaces, containers_nested hc, D.file_eq c' c hc]
      have hproto : D.protoNamespaces c = D.protoNamespaces c' ++ [D.name c'] := by
        simp [protoNamespaces, containers_nested hc, D.file_eq c' c hc]
      have hk' : k ≤ (D.cppNamespaces opts c').length := by
        rw [hcpp, List.length_append, List.length_singleton] at hk hlast
        omega
      have hdepth := D.depth_eq c' c hc
      have := hnames _ (ih (D.depth c') (by omega) hc' rfl k hk')
      rw [List.drop_append_of_le_length (by omega), hproto, hcpp,
        List.take_append_of_le_length hk', ← List.append_assoc, ← List.append_assoc]
      exact this

end Descriptors

/-! ## Both -/

namespace LinkedFileSet

open FileSet

variable {F M E : Type} [DecidableEq M] {D : LinkedFileSet F M E} {opts : GeneratorOptions}
  {hides : List Str → List Str → Prop}

/-- The names of an enum in no message. -/
theorem enumNames_gadget {e : E} (hc : D.enumContainingType e = none) {path : List Str} :
    D.EnumNames opts hides path e ↔
      path = D.enumNamespaces opts e ++ [utils.upperCaseName (D.enumName e)] :=
  enumNames_top hc (enumVisibility_iff.2.2.mpr (.inl hc))

/-- Under the condition on the container, an enum in no message or in one that is
not nested has one name. -/
theorem enumNames_eq {e : E} (hp : ∀ c, D.enumContainingType e = some c →
      D.containingType c = none ∧ D.Upper c) {path : List Str} :
    D.EnumNames opts hides (path ++ [utils.upperCaseName (D.enumName e)]) e ↔
      path = D.enumNamespaces opts e := by
  cases hc : D.enumContainingType e with
  | none => simp [enumNames_gadget hc]
  | some c =>
    obtain ⟨htop, hup⟩ := hp c hc
    rw [enumNames_member hc]
    have hup : D.classname c = D.name c := hup
    have hns : D.enumNamespaces opts e =
        opts.extra ++ D.packageParts (D.file c) ++ [D.classname c] := by
      simp [enumNamespaces, hc, Descriptors.protoNamespaces, Descriptors.containers_top htop, hup]
    rw [hns]
    constructor
    · intro h
      obtain ⟨parts, hb, rfl⟩ := Descriptors.names_shape h
      rw [Descriptors.containers_top htop] at hb
      cases hb
      simp
    · intro h
      have hcpp : D.cppNamespaces opts c = opts.extra ++ D.packageParts (D.file c) := by
        simp [Descriptors.cppNamespaces, Descriptors.containers_top htop]
      rw [h, ← hcpp]
      exact .declared (Descriptors.declared_iff.mpr ⟨.top htop, rfl⟩)

omit [DecidableEq M] in
theorem enumNamespaces_member {e : E} {c : M} (hc : D.enumContainingType e = some c) :
    D.enumNamespaces opts e = opts.extra ++ D.protoNamespaces c ++ [D.name c] := by
  simp [enumNamespaces, hc]

omit [DecidableEq M] in
theorem isIdentifier_enumName (opts : GeneratorOptions) (e : E) :
    ∀ p ∈ D.enumNamespaces opts e ++ [utils.upperCaseName (D.enumName e)], IsIdentifier p := by
  intro p hp
  rcases List.mem_append.mp hp with hp | hp
  · exact isIdentifier_enumNamespaces opts e p hp
  · exact List.mem_singleton.mp hp ▸ utils.isIdentifier_upperCaseName (D.enumName_identifier e)

section
variable {e : E} {scope : Option M}

theorem EnumPlaced.globalEnum (h : D.EnumPlaced opts hides e scope) :
    D.enumVisibilityIn e scope = .globalEnum ↔ D.enumContainingType e = none :=
  (visibility_exact_iff.mpr h.depth).1

/-- A declared enum is in no message or in one whose class is declared. -/
theorem reached_of_enumNames {path : List Str} (hn : D.EnumNames opts hides path e) :
    ∀ c, D.enumContainingType e = some c → D.Reached c := by
  intro c hc
  cases hn with
  | gadget he => simp [mem_fileEnums_self.mp he] at hc
  | member hn he =>
    cases hc.symm.trans ((D.mem_messageEnums _ _).mp he)
    exact hn.reached

theorem exists_enumNames (hr : ∀ c, D.enumContainingType e = some c → D.Reached c) :
    ∃ path, D.EnumNames opts hides path e := by
  cases hc : D.enumContainingType e with
  | none => exact ⟨_, (enumNames_gadget hc).mpr rfl⟩
  | some c =>
    have hname : D.Names opts hides (D.cppNamespaces opts c ++ [D.classname c]) c :=
      .declared (Descriptors.declared_iff.mpr ⟨hr c hc, rfl⟩)
    exact ⟨_, (enumNames_member hc).mpr hname⟩

/-- What a declared enum is called in full. -/
theorem EnumPlaced.names (h : D.EnumPlaced opts hides e scope) {path : List Str}
    (hn : D.EnumNames opts hides path e) :
    D.EnumNames opts hides (D.enumNamespaces opts e ++ [utils.upperCaseName (D.enumName e)]) e := by
  cases hc : D.enumContainingType e with
  | none => exact (enumNames_gadget hc).mpr rfl
  | some c =>
    rw [enumNames_member hc, enumNamespaces_member hc]
    exact h.container c hc (reached_of_enumNames hn c hc)

/-- In the scope it is declared in, an enum is found through the containers. -/
theorem names_local {c : M} (hc : D.enumContainingType e = some c)
    (hn : D.Names opts hides (opts.extra ++ D.protoNamespaces c ++ [D.name c]) c) :
    ∃ outer, outer <+: D.cppNamespaces opts c ++ [D.classname c] ∧
      D.EnumNames opts hides (outer ++ D.enumLeftIn opts (some c) e ++
        [utils.upperCaseName (D.enumName e)]) e := by
  simp only [enumNames_member hc, enumLeftIn, enumNamespaces_member hc, Option.map_some,
    Descriptors.getNamespaces_fullName, withoutPrefix]
  split
  · refine ⟨(D.cppNamespaces opts c).take (D.protoNamespaces c).length,
      (List.take_prefix _ _).trans (List.prefix_append _ _), ?_⟩
    refine Descriptors.names_container hn _ ?_
    rw [Descriptors.length_cppNamespaces, List.length_append]
    omega
  · exact ⟨[], List.nil_prefix, hn⟩

/-- In another scope, the message of the enum is not nested and upper-case. -/
theorem container_of_other
    (hdepth : ∀ c, D.enumContainingType e = some c → D.containingType c = none ∨ scope = some c)
    (hcontainer : ∀ c, D.enumContainingType e = some c → D.Reached c →
      D.Names opts hides (opts.extra ++ D.protoNamespaces c ++ [D.name c]) c)
    (hother : D.enumContainingType e ≠ scope) :
    ∀ c, D.enumContainingType e = some c → D.containingType c = none ∧ D.Upper c := by
  intro c hc
  have htop := (hdepth c hc).resolve_right fun he => hother (hc.trans he.symm)
  exact ⟨htop, Descriptors.upper_of_names (hcontainer c hc (.top htop))⟩

theorem EnumPlaced.enumExact (h : D.EnumPlaced opts hides e scope) : D.EnumExact opts hides e scope := by
  obtain ⟨hglobal, hneighbor⟩ := visibility_exact_iff.mpr h.depth
  have full path (hn : D.EnumNames opts hides path e) enclosing (he : D.EnclosesEnum opts enclosing) :
      D.EnumDenotes opts hides enclosing (D.produceEnumTypeMap opts e scope).full_type e := by
    rw [enum_full_type_eq hglobal, enumDenotes_iff (isIdentifier_enumName opts e)]
    exact ⟨⟨[], List.nil_prefix, EnumPlaced.names h hn⟩, h.fullNames (reached_of_enumNames hn) enclosing he⟩
  refine ⟨enumVisibility_iff.1, hglobal, hneighbor, full, ?_, ?_⟩
  · intro path hn s ns hs hd
    obtain ⟨hrs, rfl⟩ := Descriptors.declared_iff.mp hd
    have hunhidden := h.scopeNames (reached_of_enumNames hn) s hs hrs
    subst hs
    rw [enum_scope_type_eq hglobal, enumDenotes_iff (isIdentifier_enumLeftIn opts _ e)]
    refine ⟨?_, hunhidden⟩
    simp only [← List.append_assoc]
    by_cases hlocal : D.enumContainingType e = some s
    · exact names_local hlocal (h.container s hlocal hrs)
    · have hplace := container_of_other h.depth h.container hlocal
      obtain ⟨outer, ho, heq⟩ := exists_append_withoutPrefix_iff.mpr fun hpre =>
        (h.scopes s rfl hlocal hrs hpre).trans (List.prefix_append _ [D.classname s])
      refine ⟨outer, ho, (enumNames_eq hplace).mpr ?_⟩
      simpa [enumLeftIn] using heq
  · intro path hn hs enclosing he
    subst hs
    have hleft : D.enumLeftIn opts none e = D.enumNamespaces opts e := by
      simp [enumLeftIn, common.getNamespaces, withoutPrefix]
    rw [enum_scope_type_eq hglobal, hleft, ← enum_full_type_eq hglobal]
    exact full path hn enclosing he

theorem EnumExact.enumPlaced (h : D.EnumExact opts hides e scope) : D.EnumPlaced opts hides e scope := by
  have hdepth := visibility_exact_iff.mp ⟨h.globalEnum, h.neighborEnum⟩
  have hcontainer : ∀ c, D.enumContainingType e = some c → D.Reached c →
      D.Names opts hides (opts.extra ++ D.protoNamespaces c ++ [D.name c]) c := by
    intro c hc hr
    have hname : D.Names opts hides (D.cppNamespaces opts c ++ [D.classname c]) c :=
      .declared (Descriptors.declared_iff.mpr ⟨hr, rfl⟩)
    have hd := h.full_type _ ((enumNames_member hc).mpr hname) [] (.inl (.inl rfl))
    rw [enum_full_type_eq h.globalEnum, enumDenotes_iff (isIdentifier_enumName opts e)] at hd
    obtain ⟨⟨outer, ho, hname⟩, -⟩ := hd
    rw [List.prefix_nil.mp ho, List.nil_append, enumNames_member hc,
      enumNamespaces_member hc] at hname
    exact hname
  refine ⟨hdepth, hcontainer, ?_, fun hr enclosing he => ?_, fun hr s hs hrs => ?_⟩
  · intro s hs hother hrs hpre
    subst hs
    have hplace := container_of_other hdepth hcontainer hother
    have hdeclared : D.EnumNames opts hides
        (D.enumNamespaces opts e ++ [utils.upperCaseName (D.enumName e)]) e :=
      (enumNames_eq hplace).mpr rfl
    have hd := h.scope_type _ hdeclared s _ rfl (Descriptors.declared_iff.mpr ⟨hrs, rfl⟩)
    rw [enum_scope_type_eq h.globalEnum, enumDenotes_iff (isIdentifier_enumLeftIn opts _ e)] at hd
    obtain ⟨⟨outer, ho, hname⟩, -⟩ := hd
    rw [← List.append_assoc, enumNames_eq hplace] at hname
    have hin := exists_append_withoutPrefix_iff.mp ⟨outer, ho, by simpa [enumLeftIn] using hname⟩ hpre
    refine List.prefix_of_prefix_length_le hin (List.prefix_append _ _) ?_
    rw [Descriptors.length_cppNamespaces, List.length_append]
    omega
  · obtain ⟨path, hn⟩ := exists_enumNames hr
    have hd := h.full_type path hn enclosing he
    rw [enum_full_type_eq h.globalEnum, enumDenotes_iff (isIdentifier_enumName opts e)] at hd
    exact hd.2
  · obtain ⟨path, hn⟩ := exists_enumNames hr
    have hd := h.scope_type path hn s _ hs (Descriptors.declared_iff.mpr ⟨hrs, rfl⟩)
    rw [enum_scope_type_eq h.globalEnum, enumDenotes_iff (isIdentifier_enumLeftIn opts _ e)] at hd
    exact hd.2

end

theorem enumExact_iff (D : LinkedFileSet F M E) (opts : GeneratorOptions) (others : OtherNames) (e : E)
    (scope : Option M) : D.EnumExact opts (D.Hides opts others) e scope ↔
      D.EnumPlaced opts (D.Hides opts others) e scope :=
  ⟨EnumExact.enumPlaced, EnumPlaced.enumExact⟩

/-! ## An enum in a nested message -/

inductive Parcel where
  | parcel | item
  deriving DecidableEq

open Parcel in
/-- `message Parcel { message Item { enum Kind { BOOK = 0; } Kind kind = 1; } Item item = 1; }` -/
def parcelFile : LinkedFileSet Unit Parcel Unit where
  package _ := []
  services _ := []
  file _ := ()
  name
    | parcel => "Parcel".toList
    | item => "Item".toList
  fields
    | parcel => [⟨.message item, false⟩]
    | item => [⟨.enum (), false⟩]
  nestedTypes
    | parcel => [item]
    | item => []
  containingType
    | parcel => none
    | item => some parcel
  mapEntry _ := false
  depth m := if m = parcel then 0 else 1
  maxDepth := 2
  package_eq _ := noPackage
  name_identifier m := by cases m <;> decide
  service_identifier _ _ h := by cases h
  mem_nestedTypes m n := by cases m <;> cases n <;> decide
  distinct m := by cases m <;> decide
  file_eq _ _ _ := rfl
  depth_eq m n h := by cases m <;> cases n <;> first | rfl | cases h
  depth_lt m := by cases m <;> decide
  mapEntry_nestedTypes _ h := by cases h
  mapEntry_field _ h := by cases h
  files := [()]
  mem_files := FileSet.mem_oneFile
  fileName _ := "parcel.proto".toList
  dependencies _ := []
  messageTypes _ := [parcel]
  fileEnums _ := []
  enumName _ := "Kind".toList
  enumFile _ := ()
  enumContainingType _ := some item
  messageEnums
    | parcel => []
    | item => [()]
  fileName_eq _ := ⟨"parcel".toList, rfl⟩
  mem_messageTypes _ m := by cases m <;> simp
  mem_fileEnums _ _ := by simp
  mem_messageEnums m _ := by cases m <;> simp
  enumFile_eq _ _ _ := rfl
  enumName_identifier _ := by decide
  mapEntry_fields _ h := by cases h
  enumFullName_inj _ _ _ := rfl

/-- Without a scope, and in the scope of `Parcel`, `Kind` is global. -/
theorem not_enumExact_kind :
    ¬ parcelFile.EnumExact noOptions (parcelFile.Hides noOptions ⟨fun _ => [], fun _ => []⟩) () none := by
  intro h
  have hglobal : parcelFile.enumVisibilityIn () none = .globalEnum :=
    enumVisibility_iff.2.2.mpr (.inr ⟨by decide, .item, rfl, by decide⟩)
  cases h.globalEnum.mp hglobal

end LinkedFileSet

end QtProtobuf.Generator
