import QtProtobuf.L5Generator.Names
import QtProtobuf.L5Generator.NestedMessages
import Mathlib.Data.List.Forall2

/-!
# Qualified names, part by part

The strings and the printed namespaces of `Names`, as lists of names: the package
parts of the file, then the messages a message is contained in (`containers`).

* `declared_iff`: where the classes are declared.
* `full_type_eq`, `scope_namespaces_eq`, `replace_fullName`: what the referring
  side computes.
* `names_shape`: every qualified name of a class has as many parts as the
  declared one, and at each container the name of its class or of the namespace
  beside it.
-/
namespace QtProtobuf.Generator

open Lib

theorem common.getNamespacesString_eq (namespacesList : List Str) (separator : Str) :
    common.getNamespacesString namespacesList separator =
      separator.intercalate namespacesList := by
  have fold (s : Str) (l : List Str) :
      l.foldl (fun s part => s ++ part ++ separator) s = s ++ l.flatMap (· ++ separator) := by
    induction l generalizing s with
    | nil => simp
    | cons part l ih => rw [List.foldl_cons, ih, List.flatMap_cons]; simp
  have joined (part : Str) (l : List Str) :
      (part :: l).flatMap (· ++ separator) = separator.intercalate (part :: l) ++ separator := by
    induction l generalizing part with
    | nil => simp [List.intercalate_singleton]
    | cons next l ih => rw [List.flatMap_cons, ih, List.intercalate_cons_cons]; simp
  cases namespacesList with
  | nil => rfl
  | cons part l =>
    rw [common.getNamespacesString, fold, joined]
    split
    · next h => simp_all
    · simp

/-- On joined names: a scope that begins the original is dropped. -/
theorem common.getScopeNamespacesString_eq {original scope : List Str}
    (ho : ∀ p ∈ original, IsIdentifier p) (hs : ∀ p ∈ scope, IsIdentifier p) :
    common.getScopeNamespacesString (colons.intercalate original) (colons.intercalate scope) =
      colons.intercalate (withoutPrefix scope original) := by
  have ho' p hp := (ho p hp).colon
  have hs' p hp := (hs p hp).colon
  unfold common.getScopeNamespacesString withoutPrefix
  by_cases hne : scope = []
  · simp [hne]
  have hempty : (colons.intercalate scope).isEmpty = false := by
    cases he : colons.intercalate scope with
    | nil =>
      exact absurd (isSeparator_colons.intercalate_injective (b := []) hs' (by simp) he) hne
    | cons _ _ => rfl
  rw [hempty, if_neg (by simp)]
  by_cases heq : original = scope
  · simp [heq]
  rw [if_neg fun h => heq (isSeparator_colons.intercalate_injective ho' hs' h)]
  have hp := isSeparator_colons.isPrefix_iff hs' ho' hne
  simp only [List.isPrefixOf_iff_prefix, hp]
  by_cases hpre : scope <+: original
  · rw [if_pos ⟨hpre, fun h => heq h.symm⟩, if_pos hpre]
    obtain ⟨rest, rfl⟩ := hpre
    have hr : rest ≠ [] := fun h => heq (by simp [h])
    rw [intercalate_append hne hr, List.drop_left, ← List.append_assoc,
      List.drop_left' (by simp)]
  · rw [if_neg fun h => hpre h.1, if_neg hpre]

@[simp] theorem components_intercalate {parts : List Str} (h : ∀ p ∈ parts, IsIdentifier p) :
    components (colons.intercalate parts) = parts :=
  isSeparator_colons.fieldsAt_intercalate fun p hp => (h p hp).colon

theorem components_identifier {p : Str} (h : IsIdentifier p) : components p = [p] :=
  h.colon.fieldsAt_eq

theorem flatMap_components {parts : List Str} (h : ∀ p ∈ parts, IsIdentifier p) :
    parts.flatMap components = parts := by
  induction parts with
  | nil => rfl
  | cons p parts ih =>
    rw [List.flatMap_cons, components_identifier (h p (by simp)), ih fun q hq => h q (by simp [hq])]
    rfl

/-! ## Full names -/

namespace GeneratorOptions

/-- The names of the extra namespace. -/
def extra (opts : GeneratorOptions) : List Str := components opts.extraNamespace

theorem extra_spec (opts : GeneratorOptions) : (∀ p ∈ opts.extra, IsIdentifier p) ∧
    opts.extraNamespace = colons.intercalate opts.extra := by
  obtain ⟨parts, hp, he⟩ := opts.extraNamespace_eq
  have : opts.extra = parts := by rw [extra, he, components_intercalate hp]
  exact this ▸ ⟨hp, he⟩

end GeneratorOptions

/-- The names of the namespaces that are opened for the extra one and `l`. -/
theorem flatMap_components_withExtraNamespace (opts : GeneratorOptions) {l : List Str}
    (h : ∀ p ∈ l, IsIdentifier p) :
    (Descriptors.withExtraNamespace opts l).flatMap components = opts.extra ++ l := by
  rw [Descriptors.withExtraNamespace]
  split
  · next he =>
    have : opts.extra = [] := by simp [GeneratorOptions.extra, List.isEmpty_iff.mp he, components]
    rw [flatMap_components h, this, List.nil_append]
  · rw [List.flatMap_cons, flatMap_components h]
    rfl

namespace Descriptors

variable {F M E : Type} (D : Descriptors F M E) (opts : GeneratorOptions)

/-- The names of the package. -/
def packageParts (f : F) : List Str := utils.split (D.package f) '.'

theorem packageParts_spec (f : F) : (∀ p ∈ D.packageParts f, IsIdentifier p) ∧
    D.package f = ['.'].intercalate (D.packageParts f) := by
  obtain ⟨parts, hp, he⟩ := D.package_eq f
  have : D.packageParts f = parts := by
    rw [packageParts, he, utils.split_intercalate fun p h => (hp p h).dot]
  exact this ▸ ⟨hp, he⟩

/-- The messages `m` is contained in, outermost first. -/
def containers (m : M) : List M :=
  match _h : D.containingType m with
  | some c => containers c ++ [c]
  | none => []
termination_by D.depth m
decreasing_by
  have := D.depth_eq c m _h
  omega

variable {D}

theorem containers_top {m : M} (h : D.containingType m = none) : D.containers m = [] := by
  rw [containers]
  split <;> simp_all

theorem containers_nested {c n : M} (h : D.containingType n = some c) :
    D.containers n = D.containers c ++ [c] := by
  rw [containers]
  split <;> simp_all

theorem containers_eq_nil {m : M} : D.containers m = [] ↔ D.containingType m = none := by
  cases h : D.containingType m with
  | none => simp [containers_top h]
  | some c => simp [containers_nested h]

variable (D)

/-- What the namespaces of the full name are made of. -/
def protoNamespaces (m : M) : List Str :=
  D.packageParts (D.file m) ++ (D.containers m).map D.name

/-- The namespaces the class is declared in. -/
def cppNamespaces (m : M) : List Str :=
  opts.extra ++ D.packageParts (D.file m) ++
    (D.containers m).map fun c => D.classname c ++ QtProtobufNestedNamespace

variable {D}

theorem isIdentifier_protoNamespaces (m : M) : ∀ p ∈ D.protoNamespaces m, IsIdentifier p := by
  intro p hp
  rcases List.mem_append.mp hp with hp | hp
  · exact (D.packageParts_spec _).1 p hp
  · obtain ⟨c, -, rfl⟩ := List.mem_map.mp hp
    exact D.name_identifier c

theorem fullName_eq (m : M) :
    D.fullName m = ['.'].intercalate (D.protoNamespaces m ++ [D.name m]) := by
  induction hd : D.depth m using Nat.strongRecOn generalizing m with
  | ind d ih =>
    rw [fullName]
    split
    · next c hc =>
      have hdc := D.depth_eq c m hc
      have hn : D.protoNamespaces m = D.protoNamespaces c ++ [D.name c] := by
        simp [protoNamespaces, containers_nested hc, D.file_eq c m hc]
      rw [ih (D.depth c) (by omega) c rfl, hn,
        intercalate_concat (a := D.protoNamespaces c ++ [D.name c]) (by simp) (D.name m)]
      rfl
    · next hc =>
      have hp := (D.packageParts_spec (D.file m)).2
      have hn : D.protoNamespaces m = D.packageParts (D.file m) := by
        simp [protoNamespaces, containers_top hc]
      rw [hn]
      split
      · next he =>
        have : D.packageParts (D.file m) = [] := by
          simp [packageParts, List.isEmpty_iff.mp he, utils.split]
        simp [this, List.intercalate_singleton]
      · next he =>
        have : D.packageParts (D.file m) ≠ [] := by
          intro h
          rw [h] at hp
          exact he (by simp [hp])
        rw [intercalate_concat this, ← hp]
        rfl

theorem isIdentifier_fullName (m : M) :
    ∀ p ∈ D.protoNamespaces m ++ [D.name m], IsIdentifier p := by
  intro p hp
  rcases List.mem_append.mp hp with hp | hp
  · exact isIdentifier_protoNamespaces m p hp
  · exact List.mem_singleton.mp hp ▸ D.name_identifier m

@[simp] theorem getNamespaces_fullName (m : M) :
    common.getNamespaces (some (D.fullName m)) = D.protoNamespaces m := by
  rw [common.getNamespaces, fullName_eq,
    utils.split_intercalate fun p hp => (isIdentifier_fullName m p hp).dot, List.dropLast_concat]

theorem getNestedNamespaces_eq (m : M) :
    D.getNestedNamespaces m = D.packageParts (D.file m) ++
      (D.containers m).map fun c => D.name c ++ QtProtobufNestedNamespace := by
  have hp : utils.split (D.package (D.file m)) '.' = D.packageParts (D.file m) := rfl
  rw [getNestedNamespaces, getNamespaces_fullName, hp, protoNamespaces]
  simp

theorem isIdentifier_nested {s : Str} (h : IsIdentifier s) :
    IsIdentifier (s ++ QtProtobufNestedNamespace) := by
  have hsuffix : IsIdentifier QtProtobufNestedNamespace := by decide
  rw [isIdentifier_iff] at h hsuffix ⊢
  refine ⟨by simp [h.1], fun c hc => ?_⟩
  exact (List.mem_append.mp hc).elim (h.2 c) (hsuffix.2 c)

/-! ## Where the classes are declared -/

/-- What is opened in `printed` is closed in it. -/
def Balanced (printed : List (Printed M)) : Prop :=
  ∀ ns rest, scopes ns (printed ++ rest) = scopes ns printed ++ scopes ns rest

theorem balanced_nil : Balanced ([] : List (Printed M)) := fun _ _ => rfl

theorem balanced_cls (m : M) : Balanced [.cls m] := fun _ _ => rfl

theorem Balanced.append {a b : List (Printed M)} (ha : Balanced a) (hb : Balanced b) :
    Balanced (a ++ b) := by
  intro ns rest
  rw [List.append_assoc, ha, hb, ha ns b, List.append_assoc]

theorem balanced_flatMap {ms : List M} {f : M → List (Printed M)}
    (h : ∀ m ∈ ms, Balanced (f m)) : Balanced (ms.flatMap f) := by
  induction ms with
  | nil => exact balanced_nil
  | cons m ms ih => exact (h m (by simp)).append (ih fun n hn => h n (by simp [hn]))

theorem Balanced.scopes_nestedNamespace {content : List (Printed M)} (h : Balanced content)
    (m : M) (ns : List Str) (rest : List (Printed M)) :
    scopes ns (D.nestedNamespace m content ++ rest) =
      scopes (ns ++ [D.classname m ++ QtProtobufNestedNamespace]) content ++ scopes ns rest := by
  rw [nestedNamespace, List.cons_append, scopes, List.append_assoc, h]
  simp [scopes]

theorem Balanced.nestedNamespace {content : List (Printed M)} (h : Balanced content) (m : M) :
    Balanced (D.nestedNamespace m content) := by
  intro ns rest
  have := h.scopes_nestedNamespace (D := D) m ns []
  rw [List.append_nil] at this
  rw [h.scopes_nestedNamespace, this]
  simp [scopes]

variable [DecidableEq M]

theorem printClassDeclarationPrivate_eq (m : M) :
    D.printClassDeclarationPrivate m = D.nestedNamespace m
      ((D.iterateNestedMessages m).flatMap D.printClassDeclarationPrivate) ++ [.cls m] := by
  rw [printClassDeclarationPrivate, printNestedFirst, List.flatMap_subtype (fun _ _ => rfl),
    List.unattach_attach, if_pos rfl]

theorem balanced_printClassDeclarationPrivate (m : M) :
    Balanced (D.printClassDeclarationPrivate m) := by
  induction m using nested_induction (D := D) with
  | h m ih =>
    rw [printClassDeclarationPrivate_eq]
    refine Balanced.append (Balanced.nestedNamespace (balanced_flatMap fun n hn => ?_) m)
      (balanced_cls m)
    exact ih n (mem_iterateNestedMessages.mp hn).1

omit [DecidableEq M] in
theorem mem_scopes_flatMap {ms : List M} {f : M → List (Printed M)} (h : ∀ m, Balanced (f m))
    {ns : List Str} {x : List Str × M} :
    x ∈ scopes ns (ms.flatMap f) ↔ ∃ m ∈ ms, x ∈ scopes ns (f m) := by
  induction ms with
  | nil => simp [scopes]
  | cons m ms ih => rw [List.flatMap_cons, h m]; simp [ih]

/-- A class stands in the open namespaces, and those of its nested messages in
the namespace beside it. -/
theorem mem_scopes_iff {m : M} {ns : List Str} {x : List Str × M} :
    x ∈ scopes ns (D.printClassDeclarationPrivate m) ↔ x = (ns, m) ∨
      ∃ n ∈ D.iterateNestedMessages m, x ∈ scopes
        (ns ++ [D.classname m ++ QtProtobufNestedNamespace]) (D.printClassDeclarationPrivate n) := by
  have hb : Balanced ((D.iterateNestedMessages m).flatMap D.printClassDeclarationPrivate) :=
    balanced_flatMap fun n _ => balanced_printClassDeclarationPrivate n
  rw [printClassDeclarationPrivate_eq, hb.scopes_nestedNamespace, List.mem_append,
    mem_scopes_flatMap balanced_printClassDeclarationPrivate]
  simp only [scopes, List.mem_singleton]
  exact or_comm

variable (D) in
/-- The printer reaches the message: through the nested messages the callback is
called with, from a message that is not nested. -/
inductive Reached : M → Prop where
  | top {m : M} : D.containingType m = none → Reached m
  | nested {c n : M} : Reached c → n ∈ D.iterateNestedMessages c → Reached n

variable (D) in
/-- The printed namespaces the class stands in, as they are printed. -/
def openedNamespaces (m : M) : List Str :=
  withExtraNamespace opts (D.packageParts (D.file m)) ++
    (D.containers m).map fun c => D.classname c ++ QtProtobufNestedNamespace

omit [DecidableEq M] in
theorem openedNamespaces_nested {c n : M} (h : D.containingType n = some c) :
    D.openedNamespaces opts n =
      D.openedNamespaces opts c ++ [D.classname c ++ QtProtobufNestedNamespace] := by
  simp [openedNamespaces, containers_nested h, D.file_eq c n h]

variable {opts}

theorem reached_of_mem_scopes {m k : M} {ns : List Str} (hm : D.Reached m)
    (h : (ns, k) ∈ scopes (D.openedNamespaces opts m) (D.printClassDeclarationPrivate m)) :
    D.Reached k ∧ ns = D.openedNamespaces opts k := by
  induction m using nested_induction (D := D) with
  | h m ih =>
    rcases mem_scopes_iff.mp h with heq | ⟨n, hn, hk⟩
    · cases heq
      exact ⟨hm, rfl⟩
    · have hc := (mem_iterateNestedMessages.mp hn).1
      exact ih n hc (.nested hm hn) (openedNamespaces_nested opts hc ▸ hk)

theorem mem_scopes_closed {m c n : M} {ns ns' : List Str}
    (hc : (ns', c) ∈ scopes ns (D.printClassDeclarationPrivate m))
    (hn : n ∈ D.iterateNestedMessages c) :
    (ns' ++ [D.classname c ++ QtProtobufNestedNamespace], n) ∈
      scopes ns (D.printClassDeclarationPrivate m) := by
  induction m using nested_induction (D := D) generalizing ns with
  | h m ih =>
    rcases mem_scopes_iff.mp hc with heq | ⟨k, hk, hin⟩
    · cases heq
      exact mem_scopes_iff.mpr (.inr ⟨n, hn, mem_scopes_iff.mpr (.inl rfl)⟩)
    · exact mem_scopes_iff.mpr (.inr ⟨k, hk, ih k (mem_iterateNestedMessages.mp hk).1 hin⟩)

theorem Reached.mem_scopes (opts : GeneratorOptions) {k : M} (h : D.Reached k) : ∃ top, D.containingType top = none ∧
    (D.openedNamespaces opts k, k) ∈
      scopes (D.openedNamespaces opts top) (D.printClassDeclarationPrivate top) := by
  induction h with
  | @top m ht => exact ⟨m, ht, mem_scopes_iff.mpr (.inl rfl)⟩
  | nested _ hn ih =>
    obtain ⟨top, ht, hin⟩ := ih
    refine ⟨top, ht, ?_⟩
    rw [openedNamespaces_nested opts (mem_iterateNestedMessages.mp hn).1]
    exact mem_scopes_closed hin hn

theorem scopes_printClassDeclaration {top : M} (h : D.containingType top = none) :
    scopes [] (D.printClassDeclaration opts top) =
      scopes (D.openedNamespaces opts top) (D.printClassDeclarationPrivate top) := by
  have opening (ns names : List Str) (rest : List (Printed M)) :
      scopes ns (names.map Printed.openNamespace ++ rest) = scopes (ns ++ names) rest := by
    induction names generalizing ns with
    | nil => simp
    | cons name names ih => simp [scopes, ih]
  have closing (ns : List Str) (k : Nat) :
      scopes (M := M) ns (List.replicate k .closeBlock) = [] := by
    induction k generalizing ns with
    | zero => rfl
    | succ k ih => rw [List.replicate_succ, scopes, ih]
  have ho : D.openedNamespaces opts top =
      withExtraNamespace opts (D.protoNamespaces top) := by
    simp [openedNamespaces, protoNamespaces, containers_top h]
  rw [printClassDeclaration, List.append_assoc, printNamespaces, opening, encloseNamespaces,
    balanced_printClassDeclarationPrivate, closing, List.append_nil, getNamespaces_fullName, ho]
  rfl

omit [DecidableEq M] in
theorem isIdentifier_cppNamespaces (opts : GeneratorOptions) (m : M) :
    ∀ p ∈ D.cppNamespaces opts m, IsIdentifier p := by
  intro p hp
  rcases List.mem_append.mp hp with hp | hp
  · rcases List.mem_append.mp hp with hp | hp
    · exact opts.extra_spec.1 p hp
    · exact (D.packageParts_spec _).1 p hp
  · obtain ⟨c, -, rfl⟩ := List.mem_map.mp hp
    exact isIdentifier_nested (utils.isIdentifier_upperCaseName (D.name_identifier c))

omit [DecidableEq M] in
theorem withExtraNamespace_append (a b : List Str) :
    withExtraNamespace opts a ++ b = withExtraNamespace opts (a ++ b) := by
  unfold withExtraNamespace
  split <;> rfl

omit [DecidableEq M] in
theorem openedNamespaces_components (m : M) :
    (D.openedNamespaces opts m).flatMap components = D.cppNamespaces opts m := by
  have hrest : ∀ p ∈ D.packageParts (D.file m) ++
      (D.containers m).map fun c => D.classname c ++ QtProtobufNestedNamespace, IsIdentifier p :=
    fun p hp => isIdentifier_cppNamespaces (D := D) opts m p (by
      rw [cppNamespaces, List.append_assoc]
      exact List.mem_append.mpr (.inr hp))
  rw [openedNamespaces, withExtraNamespace_append, flatMap_components_withExtraNamespace opts hrest,
    cppNamespaces, List.append_assoc]

/-- A class is declared once the printer reaches its message, in the extra
namespace, the package and the namespaces beside its containers. -/
theorem declared_iff {ns : List Str} {m : M} :
    D.Declared opts ns m ↔ D.Reached m ∧ ns = D.cppNamespaces opts m := by
  constructor
  · rintro ⟨top, ht, opened, hin, rfl⟩
    rw [scopes_printClassDeclaration ht] at hin
    obtain ⟨hr, rfl⟩ := reached_of_mem_scopes (.top ht) hin
    exact ⟨hr, openedNamespaces_components m⟩
  · rintro ⟨hr, rfl⟩
    obtain ⟨top, ht, hin⟩ := hr.mem_scopes opts
    exact ⟨top, ht, D.openedNamespaces opts m, (scopes_printClassDeclaration ht).symm ▸ hin,
      (openedNamespaces_components m).symm⟩

/-! ## What the referring side computes -/

theorem Reached.isNested {m : M} (h : D.Reached m) :
    D.isNested m = (D.containingType m).isSome := by
  cases h with
  | top ht => simp [Descriptors.isNested, ht]
  | nested _ hn =>
    obtain ⟨hc, hm, -⟩ := mem_iterateNestedMessages.mp hn
    rw [(isNested_iff hm).mpr (by simp [hc]), hc]
    rfl

variable (D opts) in
/-- The namespaces that `scope_type` starts from. -/
def typeNamespaces (m : M) : List Str :=
  if D.isNested m then D.getNestedNamespaces m
  else opts.extra ++ common.getNamespaces (some (D.fullName m))

omit [DecidableEq M] in
theorem intercalate_withExtraNamespace (l : List Str) :
    colons.intercalate (withExtraNamespace opts l) = colons.intercalate (opts.extra ++ l) := by
  obtain ⟨-, he⟩ := opts.extra_spec
  rw [withExtraNamespace]
  split
  · next h => simp [GeneratorOptions.extra, List.isEmpty_iff.mp h, components]
  · next h =>
    have hx : opts.extra ≠ [] := by
      intro hx
      rw [hx] at he
      exact h (by simp [he])
    by_cases hl : l = []
    · simp [hl, he, List.intercalate_singleton]
    · rw [List.intercalate_cons_of_ne_nil hl, intercalate_append hx hl, ← he, List.append_assoc]

omit [DecidableEq M] in
theorem qualified_intercalate {l : List Str} (h : ∀ p ∈ l, IsIdentifier p) (name : Str) :
    qualified (colons.intercalate l) name = colons.intercalate (l ++ [name]) := by
  by_cases hl : l = []
  · simp [hl, qualified, List.intercalate_singleton]
  · have hne : colons.intercalate l ≠ [] := fun he =>
      hl (isSeparator_colons.intercalate_injective (b := []) (fun p hp => (h p hp).colon)
        (by simp) he)
    rw [intercalate_concat hl, qualified, if_neg (by simpa using hne)]

theorem isIdentifier_typeNamespaces (opts : GeneratorOptions) (m : M) :
    ∀ p ∈ D.typeNamespaces opts m, IsIdentifier p := by
  intro p hp
  rw [typeNamespaces, getNestedNamespaces_eq, getNamespaces_fullName] at hp
  split at hp <;> rcases List.mem_append.mp hp with hp | hp
  · exact (D.packageParts_spec _).1 p hp
  · obtain ⟨c, -, rfl⟩ := List.mem_map.mp hp
    exact isIdentifier_nested (D.name_identifier c)
  · exact opts.extra_spec.1 p hp
  · exact isIdentifier_protoNamespaces m p hp

theorem full_type_eq (opts : GeneratorOptions) (m : M) (scope : Option M) :
    (D.produceMessageTypeMap opts m scope).full_type =
      colons.intercalate (opts.extra ++ D.protoNamespaces m ++ [D.classname m]) := by
  simp only [produceMessageTypeMap, getNamespaces_fullName, common.getNamespacesString_eq,
    intercalate_withExtraNamespace]
  refine qualified_intercalate (fun p hp => ?_) _
  rcases List.mem_append.mp hp with hp | hp
  · exact opts.extra_spec.1 p hp
  · exact isIdentifier_protoNamespaces m p hp

/-- The scope's namespaces are dropped where they begin the type's. -/
theorem scope_namespaces_eq (opts : GeneratorOptions) (m : M) (scope : Option M) :
    (D.produceMessageTypeMap opts m scope).scope_namespaces =
      colons.intercalate (withoutPrefix (common.getNamespaces (scope.map D.fullName))
        (D.typeNamespaces opts m)) := by
  have hs : ∀ p ∈ common.getNamespaces (scope.map D.fullName), IsIdentifier p := by
    cases scope with
    | none => simp [common.getNamespaces]
    | some s => simpa using isIdentifier_protoNamespaces s
  have ho : colons.intercalate (if D.isNested m then D.getNestedNamespaces m
      else withExtraNamespace opts (common.getNamespaces (some (D.fullName m)))) =
      colons.intercalate (D.typeNamespaces opts m) := by
    rw [typeNamespaces]
    split
    · rfl
    · rw [intercalate_withExtraNamespace]
  simp only [produceMessageTypeMap, common.getNamespacesString_eq]
  rw [ho, common.getScopeNamespacesString_eq (isIdentifier_typeNamespaces opts m) hs]

theorem scope_type_eq (opts : GeneratorOptions) (m : M) (scope : Option M) :
    (D.produceMessageTypeMap opts m scope).scope_type = qualified
      (D.produceMessageTypeMap opts m scope).scope_namespaces (D.classname m) := rfl

omit [DecidableEq M] in
theorem replace_fullName (m : M) : utils.replace (D.fullName m) ['.'] colons =
    colons.intercalate (D.protoNamespaces m ++ [D.name m]) := by
  rw [fullName_eq, utils.replace_intercalate fun p hp => (isIdentifier_fullName m p hp).dot]

/-! ## The shape of the names -/

/-- Part by part: the class of the container, or the namespace beside it. -/
def Beside (D : Descriptors F M E) : List Str → List M → Prop :=
  List.Forall₂ fun part c =>
    part = D.classname c ∨ part = D.classname c ++ QtProtobufNestedNamespace

variable {hides : List Str → List Str → Prop}

/-- Every qualified name is made of the extra namespace, the package, a part for
each container, and the name of the class. -/
theorem names_shape {path : List Str} {m : M} (h : D.Names opts hides path m) :
    ∃ parts, Beside D parts (D.containers m) ∧
      path = opts.extra ++ D.packageParts (D.file m) ++ parts ++ [D.classname m] := by
  induction h with
  | @declared ns m hd =>
    obtain ⟨-, rfl⟩ := declared_iff.mp hd
    refine ⟨_, ?_, rfl⟩
    exact List.forall₂_map_left_iff.mpr (List.forall₂_same.mpr fun c _ => .inr rfl)
  | @aliased path ns outer c n _ hd hn _ _ ih _ =>
    obtain ⟨parts, hb, rfl⟩ := ih
    have hc := (mem_iterateNestedMessages.mp hn).1
    refine ⟨parts ++ [D.classname c], ?_, ?_⟩
    · rw [containers_nested hc]
      exact List.rel_append hb (.cons (.inl rfl) .nil)
    · simp [D.file_eq c n hc]

/-- All names of a class are of one length. -/
theorem names_length {path : List Str} {m : M} (h : D.Names opts hides path m) :
    path.length = (D.cppNamespaces opts m).length + 1 := by
  obtain ⟨parts, hb, rfl⟩ := names_shape h
  simp [cppNamespaces, hb.length_eq, Nat.add_assoc]

end Descriptors

end QtProtobuf.Generator
