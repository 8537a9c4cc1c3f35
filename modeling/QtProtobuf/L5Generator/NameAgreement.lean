import QtProtobuf.L5Generator.Lookup

/-!
# Where the generated names agree

A class is declared in namespaces made of upper-cased class names; the names
that refer to it are cut from full names, which have the case of the proto file,
and from which the namespaces of the referring scope are dropped as text.

* `denotes_iff`: all names of a class are of one length, so that a name of it can lead
  out of one scope only, and only what the scopes inside declare hides it.
* `resolves`: under `NamesMatch`, what is left of a type's namespaces in a scope
  leads, looked up from there, to the namespaces the class is declared in.
* `namesAgree_iff`: every reference names its class exactly under `NamesMatch`.
-/
namespace QtProtobuf.Generator.Descriptors

open Lib

variable {F M E : Type} [DecidableEq M] {D : Descriptors F M E} {opts : GeneratorOptions}
  {hides : List Str → List Str → Prop}

/-- The global scope, or the class of a message. -/
def Encloses (D : Descriptors F M E) (opts : GeneratorOptions) (enclosing : List Str) : Prop :=
  enclosing = [] ∨ ∃ ns s, D.Declared opts ns s ∧ enclosing = ns ++ [D.classname s]

/-- Every name the generator refers to a declared class by is found to name it:
from the global scope and from every class, from the class of the scope, from the class
itself where there is no scope, and from the client class of a service. -/
structure NamesAgree (D : Descriptors F M E) (opts : GeneratorOptions)
    (hides : List Str → List Str → Prop) : Prop where
  full_type : ∀ m ns, D.Declared opts ns m → ∀ scope enclosing, D.Encloses opts enclosing →
    D.Denotes opts hides enclosing (D.produceMessageTypeMap opts m scope).full_type m
  scope_type : ∀ m ns s ns', D.Declared opts ns m → D.Declared opts ns' s →
    D.Denotes opts hides (ns' ++ [D.classname s]) (D.produceMessageTypeMap opts m (some s)).scope_type m
  scope_type_null : ∀ m ns, D.Declared opts ns m →
    D.Denotes opts hides (ns ++ [D.classname m]) (D.produceMessageTypeMap opts m none).scope_type m
  param_type : ∀ f, ∀ service ∈ D.services f, ∀ method ∈ service.methods, ∀ ns classname,
    D.Declared opts ns method.inputType →
    D.Denotes opts hides (D.clientScope opts f service) (D.produceMethodMap method classname).param_type
      method.inputType
  return_type : ∀ f, ∀ service ∈ D.services f, ∀ method ∈ service.methods, ∀ ns classname,
    D.Declared opts ns method.outputType →
    D.Denotes opts hides (D.clientScope opts f service) (D.produceMethodMap method classname).return_type
      method.outputType

/-- The name has no lower-case letter in front. -/
def Upper (D : Descriptors F M E) (m : M) : Prop := utils.upperCaseName (D.name m) = D.name m

variable (D opts) in
/-- What is left of the type's namespaces in a scope, or without one. -/
def leftIn (scope : Option M) (m : M) : List Str :=
  withoutPrefix (common.getNamespaces (scope.map D.fullName)) (D.typeNamespaces opts m)

/-- The parts lead from the scope to a name as long as the class's own, out of some
scope around: none inside of that declares the first part. -/
def Unhidden (D : Descriptors F M E) (opts : GeneratorOptions) (hides : List Str → List Str → Prop)
    (scope parts : List Str) (m : M) : Prop :=
  ∀ inner, inner <+: scope → (D.cppNamespaces opts m).length + 1 < inner.length + parts.length →
    ¬ hides inner parts

/-- The containers of the classes and the types of the methods are upper-case;
where the namespaces of a scope are dropped from those of a type, they are
namespaces the scope is in: behind the extra namespace for a nested type, which
`scope_type` names without it; and nothing that is declared inside hides a name. -/
structure NamesMatch (D : Descriptors F M E) (opts : GeneratorOptions)
    (hides : List Str → List Str → Prop) : Prop where
  containers : ∀ c n, D.Reached n → D.containingType n = some c → D.Upper c
  methodTypes : ∀ f, ∀ service ∈ D.services f, ∀ method ∈ service.methods,
    ∀ m, m = method.inputType ∨ m = method.outputType → D.Reached m → D.Upper m
  scopes : ∀ s m, D.Reached s → D.Reached m →
    common.getNamespaces (some (D.fullName s)) <+: D.typeNamespaces opts m →
    (if D.isNested m then opts.extra else []) ++ common.getNamespaces (some (D.fullName s)) <+:
      D.cppNamespaces opts s
  fullNames : ∀ s m, D.Reached s → D.Reached m → D.Unhidden opts hides
    (D.cppNamespaces opts s ++ [D.classname s]) (opts.extra ++ D.protoNamespaces m ++ [D.classname m]) m
  scopeNames : ∀ s m, D.Reached s → D.Reached m → ∀ scope, scope = some s ∨ scope = none ∧ s = m →
    D.Unhidden opts hides (D.cppNamespaces opts s ++ [D.classname s])
      (D.leftIn opts scope m ++ [D.classname m]) m
  methodNames : ∀ f, ∀ service ∈ D.services f, ∀ method ∈ service.methods,
    ∀ m, m = method.inputType ∨ m = method.outputType → D.Reached m →
      D.Unhidden opts hides (D.clientScope opts f service) (D.protoNamespaces m ++ [D.name m]) m

/-! ## From the condition -/

theorem Reached.container {c n : M} (h : D.Reached n) (hc : D.containingType n = some c) :
    D.Reached c ∧ n ∈ D.iterateNestedMessages c := by
  cases h with
  | top ht => simp [ht] at hc
  | nested hr hn =>
    cases hc.symm.trans (mem_iterateNestedMessages.mp hn).1
    exact ⟨hr, hn⟩

theorem NamesMatch.containers_upper (h : NamesMatch D opts hides) {m : M} (hm : D.Reached m) :
    ∀ c ∈ D.containers m, D.Upper c := by
  induction hm with
  | top ht => simp [containers_top ht]
  | nested hr hn ih =>
    have hc := (mem_iterateNestedMessages.mp hn).1
    intro c hin
    rw [containers_nested hc, List.mem_append, List.mem_singleton] at hin
    rcases hin with hin | rfl
    · exact ih c hin
    · exact h.containers c _ (.nested hr hn) hc

/-- What `scope_type` leaves out in front of the type's namespaces. -/
theorem NamesMatch.typeNamespaces (h : NamesMatch D opts hides) {m : M} (hm : D.Reached m) :
    (if D.isNested m then opts.extra else []) ++ D.typeNamespaces opts m =
      D.cppNamespaces opts m := by
  rw [Descriptors.typeNamespaces, hm.isNested]
  cases hc : D.containingType m with
  | none => simp [cppNamespaces, protoNamespaces, containers_top hc]
  | some c =>
    have : ((D.containers m).map fun c => D.name c ++ QtProtobufNestedNamespace) =
        (D.containers m).map fun c => D.classname c ++ QtProtobufNestedNamespace :=
      List.map_congr_left fun c hin => by rw [classname, h.containers_upper hm c hin]
    simp [getNestedNamespaces_eq, cppNamespaces, this]

theorem isIdentifier_leftIn (opts : GeneratorOptions) (scope : Option M) (m : M) :
    ∀ p ∈ D.leftIn opts scope m, IsIdentifier p := by
  intro p hp
  exact isIdentifier_typeNamespaces opts m p (mem_of_mem_withoutPrefix hp)

theorem NamesMatch.resolves (h : NamesMatch D opts hides) {m s : M} (hm : D.Reached m)
    (hs : D.Reached s) {scope : Option M} (hscope : scope = none ∨ scope = some s) :
    ∃ outer, outer <+: D.cppNamespaces opts s ∧
      outer ++ D.leftIn opts scope m = D.cppNamespaces opts m := by
  have hx : (if D.isNested m then opts.extra else []) <+: D.cppNamespaces opts s := by
    split
    · exact ⟨_, (List.append_assoc _ _ _).symm⟩
    · exact List.nil_prefix
  unfold leftIn withoutPrefix
  split
  · next hp =>
    obtain ⟨rest, hrest⟩ := hp
    refine ⟨(if D.isNested m then opts.extra else []) ++
      common.getNamespaces (scope.map D.fullName), ?_, ?_⟩
    · rcases hscope with rfl | rfl
      · simpa [common.getNamespaces] using hx
      · exact h.scopes s m hs hm ⟨rest, hrest⟩
    · rw [← hrest, List.drop_left, List.append_assoc, hrest, h.typeNamespaces hm]
  · exact ⟨_, hx, h.typeNamespaces hm⟩

theorem scope_type_intercalate (opts : GeneratorOptions) (m : M) (scope : Option M) :
    (D.produceMessageTypeMap opts m scope).scope_type =
      colons.intercalate (D.leftIn opts scope m ++ [D.classname m]) := by
  rw [scope_type_eq, scope_namespaces_eq]
  exact qualified_intercalate (isIdentifier_leftIn opts scope m) _

omit [DecidableEq M] in
theorem isIdentifier_full (opts : GeneratorOptions) (m : M) :
    ∀ p ∈ opts.extra ++ D.protoNamespaces m ++ [D.classname m], IsIdentifier p := by
  intro p hp
  rw [List.append_assoc] at hp
  rcases List.mem_append.mp hp with hp | hp
  · exact opts.extra_spec.1 p hp
  · rcases List.mem_append.mp hp with hp | hp
    · exact isIdentifier_protoNamespaces m p hp
    · exact List.mem_singleton.mp hp ▸ utils.isIdentifier_upperCaseName (D.name_identifier m)

omit [DecidableEq M] in
theorem isIdentifier_concat {l : List Str} (h : ∀ p ∈ l, IsIdentifier p) (m : M) :
    ∀ p ∈ l ++ [D.classname m], IsIdentifier p := by
  intro p hp
  rcases List.mem_append.mp hp with hp | hp
  · exact h p hp
  · exact List.mem_singleton.mp hp ▸ utils.isIdentifier_upperCaseName (D.name_identifier m)

/-- Joined names begin with no `::`. -/
theorem looksUp_iff {scope l outer : List Str} (h : ∀ p ∈ l, IsIdentifier p) :
    LooksUp hides scope (colons.intercalate l) outer ↔ outer <+: scope ∧
      ∀ inner, inner <+: scope → outer.length < inner.length → ¬ hides inner l := by
  have hn : ¬ colons <+: colons.intercalate l :=
    IsWord.not_prefix_intercalate fun p hp => (h p hp).colon
  rw [LooksUp, if_neg hn, components_intercalate h]

/-- **Look-up** of joined names. -/
theorem denotes_iff {scope l : List Str} (h : ∀ p ∈ l, IsIdentifier p) {m : M} :
    D.Denotes opts hides scope (colons.intercalate l) m ↔
      (∃ outer, outer <+: scope ∧ D.Names opts hides (outer ++ l) m) ∧ D.Unhidden opts hides scope l m := by
  have hlength : ∀ {outer : List Str}, D.Names opts hides (outer ++ l) m →
      outer.length + l.length = (D.cppNamespaces opts m).length + 1 := by
    intro outer hn
    rw [← List.length_append]
    exact names_length hn
  rw [Denotes]
  simp only [looksUp_iff h, components_intercalate h]
  constructor
  · rintro ⟨outer, ⟨hp, hpassed⟩, hn⟩
    refine ⟨⟨outer, hp, hn⟩, fun inner hin hlong => hpassed inner hin ?_⟩
    have := hlength hn
    omega
  · rintro ⟨⟨outer, hp, hn⟩, hunhidden⟩
    refine ⟨outer, ⟨hp, fun inner hin hlong => hunhidden inner hin ?_⟩, hn⟩
    have := hlength hn
    omega

theorem NamesMatch.denotes_scope_type (h : NamesMatch D opts hides) {m s : M} (hm : D.Reached m)
    (hs : D.Reached s) {scope : Option M} (hscope : scope = some s ∨ scope = none ∧ s = m) :
    D.Denotes opts hides (D.cppNamespaces opts s ++ [D.classname s])
      (D.produceMessageTypeMap opts m scope).scope_type m := by
  rw [scope_type_intercalate, denotes_iff (isIdentifier_concat (isIdentifier_leftIn opts scope m) m)]
  obtain ⟨outer, hp, heq⟩ := h.resolves hm hs (hscope.symm.imp_left And.left)
  refine ⟨⟨outer, hp.trans (List.prefix_append _ _), ?_⟩, h.scopeNames s m hs hm scope hscope⟩
  rw [← List.append_assoc, heq]
  exact .declared (declared_iff.mpr ⟨hm, rfl⟩)

/-- The alias in the class around it is found to name a nested class. -/
theorem usingTarget_eq {c n : M} (hc : D.containingType n = some c) (hn : D.Reached n) :
    D.usingTarget opts n c = (D.produceMessageTypeMap opts n (some c)).scope_type := by
  have hlen : (D.typeNamespaces opts n).length = (D.protoNamespaces c).length + 1 := by
    simp [Descriptors.typeNamespaces, hn.isNested, hc, getNestedNamespaces_eq, protoNamespaces,
      containers_nested hc, D.file_eq c n hc, Nat.add_assoc]
  have hne : D.leftIn opts (some c) n ≠ [] := by
    apply List.ne_nil_of_length_pos
    simp only [leftIn, withoutPrefix, Option.map_some, getNamespaces_fullName]
    split
    · rw [List.length_drop]; omega
    · omega
  rw [scope_type_intercalate, intercalate_concat hne, usingTarget, scope_namespaces_eq]
  rfl

/-- Through the aliases, a class also has the name its full name spells. -/
theorem NamesMatch.names_fullName (h : NamesMatch D opts hides) {m : M} (hm : D.Reached m) :
    D.Names opts hides (opts.extra ++ D.protoNamespaces m ++ [D.classname m]) m := by
  induction hm with
  | @top m ht =>
    have : D.cppNamespaces opts m = opts.extra ++ D.protoNamespaces m := by
      simp [cppNamespaces, protoNamespaces, containers_top ht]
    exact this ▸ .declared (declared_iff.mpr ⟨.top ht, rfl⟩)
  | @nested c n hr hn ih =>
    have hc := (mem_iterateNestedMessages.mp hn).1
    have hup : D.classname c = D.name c := h.containers c n (.nested hr hn) hc
    have hpath : opts.extra ++ D.protoNamespaces n =
        opts.extra ++ D.protoNamespaces c ++ [D.classname c] := by
      simp [protoNamespaces, containers_nested hc, D.file_eq c n hc, hup]
    have hd := h.denotes_scope_type (.nested hr hn) hr (.inl rfl)
    rw [← usingTarget_eq hc (.nested hr hn)] at hd
    obtain ⟨outer, hlook, hnames⟩ := hd
    rw [hpath]
    exact .aliased ih (declared_iff.mpr ⟨hr, rfl⟩) hn hlook hnames

omit [DecidableEq M] in
theorem clientScope_eq (f : F) (service : ServiceDescriptor M) :
    D.clientScope opts f service = opts.extra ++ D.packageParts f ++
      [utils.upperCaseName service.name ++ "Client".toList] := by
  rw [clientScope, flatMap_components_withExtraNamespace opts (D.packageParts_spec f).1]

theorem NamesMatch.denotes_method (h : NamesMatch D opts hides) {m : M} (hm : D.Reached m) {f : F}
    {service : ServiceDescriptor M} (hs : service ∈ D.services f) {method : MethodDescriptor M}
    (hmeth : method ∈ service.methods) (hty : m = method.inputType ∨ m = method.outputType) :
    D.Denotes opts hides (D.clientScope opts f service)
      (utils.replace (D.fullName m) ['.'] colons) m := by
  rw [replace_fullName, denotes_iff (isIdentifier_fullName m)]
  refine ⟨⟨opts.extra, ?_, ?_⟩, h.methodNames f service hs method hmeth m hty hm⟩
  · rw [clientScope_eq]
    exact ⟨_, (List.append_assoc _ _ _).symm⟩
  · have hup : D.classname m = D.name m := h.methodTypes f service hs method hmeth m hty hm
    have := h.names_fullName hm
    rwa [hup, List.append_assoc] at this

theorem NamesMatch.denotes_full_type (h : NamesMatch D opts hides) {m : M} (hm : D.Reached m) (scope : Option M)
    {enclosing : List Str} (he : D.Encloses opts enclosing) :
    D.Denotes opts hides enclosing (D.produceMessageTypeMap opts m scope).full_type m := by
  rw [full_type_eq, denotes_iff (isIdentifier_full opts m)]
  refine ⟨⟨[], List.nil_prefix, h.names_fullName hm⟩, ?_⟩
  rcases he with rfl | ⟨ns, s, hd, rfl⟩
  · intro inner hin hlong
    have hlength : (opts.extra ++ D.protoNamespaces m ++ [D.classname m]).length =
        (D.cppNamespaces opts m).length + 1 := names_length (h.names_fullName hm)
    rw [List.prefix_nil.mp hin, List.length_nil] at hlong
    omega
  · obtain ⟨hrs, rfl⟩ := declared_iff.mp hd
    exact h.fullNames s m hrs hm

theorem NamesMatch.namesAgree (h : NamesMatch D opts hides) : NamesAgree D opts hides where
  full_type m ns hd scope enclosing he := h.denotes_full_type (declared_iff.mp hd).1 scope he
  scope_type m ns s ns' hm hs := by
    obtain ⟨hrs, rfl⟩ := declared_iff.mp hs
    exact h.denotes_scope_type (declared_iff.mp hm).1 hrs (.inl rfl)
  scope_type_null m ns hm := by
    obtain ⟨hrm, rfl⟩ := declared_iff.mp hm
    exact h.denotes_scope_type hrm hrm (.inr ⟨rfl, rfl⟩)
  param_type f service hs method hmeth ns classname hd :=
    h.denotes_method (declared_iff.mp hd).1 hs hmeth (.inl rfl)
  return_type f service hs method hmeth ns classname hd :=
    h.denotes_method (declared_iff.mp hd).1 hs hmeth (.inr rfl)

/-! ## To the condition -/

omit [DecidableEq M] in
/-- A container whose part is its proto name is upper-case. -/
theorem Beside.upper {ms : List M} (h : Beside D (ms.map D.name) ms) : ∀ c ∈ ms, D.Upper c := by
  intro c hc
  rcases List.forall₂_same.mp (List.forall₂_map_left_iff.mp h) c hc with h | h
  · exact h.symm
  · have hlen := congrArg List.length h
    have : QtProtobufNestedNamespace.length = 17 := rfl
    simp only [classname, List.length_append, utils.length_upperCaseName] at hlen
    omega

theorem NamesAgree.containers_upper (h : NamesAgree D opts hides) {m : M} (hm : D.Reached m) :
    ∀ c ∈ D.containers m, D.Upper c := by
  have hd := h.full_type m _ (declared_iff.mpr ⟨hm, rfl⟩) none [] (.inl rfl)
  rw [full_type_eq, denotes_iff (isIdentifier_full opts m)] at hd
  obtain ⟨⟨outer, ho, hn⟩, -⟩ := hd
  obtain ⟨parts, hb, heq⟩ := names_shape hn
  rw [List.prefix_nil.mp ho] at heq
  have : parts = (D.containers m).map D.name := by
    simpa [protoNamespaces] using heq.symm
  exact Beside.upper (this ▸ hb)

/-- A method's type is upper-case and unhidden if it is found. -/
theorem upper_of_denotes {m : M} {scope : List Str}
    (h : D.Denotes opts hides scope (utils.replace (D.fullName m) ['.'] colons) m) :
    D.Upper m ∧ D.Unhidden opts hides scope (D.protoNamespaces m ++ [D.name m]) m := by
  rw [replace_fullName, denotes_iff (isIdentifier_fullName m)] at h
  obtain ⟨⟨outer, -, hn⟩, hunhidden⟩ := h
  obtain ⟨parts, -, heq⟩ := names_shape hn
  rw [← List.append_assoc] at heq
  have := (List.append_inj' heq rfl).2
  exact ⟨(List.cons.inj this).1.symm, hunhidden⟩

omit [DecidableEq M] in
theorem Beside.flatten_length_le {parts : List Str} {ms : List M} (h : Beside D parts ms) :
    parts.flatten.length ≤ (ms.map fun c => D.name c ++ QtProtobufNestedNamespace).flatten.length := by
  induction h with
  | nil => simp
  | cons hp _ ih =>
    simp only [List.map_cons, List.flatten_cons, List.length_append] at ih ⊢
    rcases hp with rfl | rfl <;>
      simp only [classname, List.length_append, utils.length_upperCaseName] <;> omega

omit [DecidableEq M] in
theorem flatten_length_cpp (ms : List M) :
    (ms.map fun c => D.classname c ++ QtProtobufNestedNamespace).flatten.length =
      (ms.map D.name).flatten.length + 17 * ms.length := by
  have hsuffix : QtProtobufNestedNamespace.length = 17 := rfl
  induction ms with
  | nil => rfl
  | cons c ms ih =>
    simp only [List.map_cons, List.flatten_cons, List.length_append, List.length_cons, classname,
      utils.length_upperCaseName] at ih ⊢
    omega

/-- The namespaces that a scope drops from a type's are those the scope is in.
A nested scope has the names of its containers in its full name, and longer ones
in its C++ namespaces; the names of a class are never longer than what
`scope_type` starts from. -/
theorem NamesAgree.scope_prefix (h : NamesAgree D opts hides) {s m : M} (hs : D.Reached s)
    (hm : D.Reached m)
    (hp : common.getNamespaces (some (D.fullName s)) <+: D.typeNamespaces opts m) :
    (if D.isNested m then opts.extra else []) ++ common.getNamespaces (some (D.fullName s)) <+:
      D.cppNamespaces opts s := by
  have hd := h.scope_type m _ s _ (declared_iff.mpr ⟨hm, rfl⟩) (declared_iff.mpr ⟨hs, rfl⟩)
  rw [scope_type_intercalate,
    denotes_iff (isIdentifier_concat (isIdentifier_leftIn opts _ m) m)] at hd
  obtain ⟨⟨outer, ho, hn⟩, -⟩ := hd
  obtain ⟨parts, hb, heq⟩ := names_shape hn
  obtain ⟨rest, hrest⟩ := hp
  rw [getNamespaces_fullName] at hrest ⊢
  have hleft : D.leftIn opts (some s) m = rest := by
    simp [leftIn, ← hrest]
  rw [hleft, ← List.append_assoc] at heq
  have heq := (List.append_inj' heq rfl).1
  have hslen : (D.cppNamespaces opts s).length =
      opts.extra.length + (D.protoNamespaces s).length := by
    simp [cppNamespaces, protoNamespaces]
  rw [Descriptors.typeNamespaces, hm.isNested] at hrest
  rw [hm.isNested]
  cases hc : D.containingType m with
  | none =>
    rw [containers_top hc] at hb
    cases hb
    have hsame : outer ++ rest = D.protoNamespaces s ++ rest := by
      rw [heq]
      simpa [hc, protoNamespaces, containers_top hc] using hrest.symm
    cases List.append_cancel_right hsame
    refine List.prefix_of_prefix_length_le ho (List.prefix_append _ _) ?_
    simp [hslen]
  | some c =>
    have hrest : D.protoNamespaces s ++ rest = D.packageParts (D.file m) ++
        (D.containers m).map fun c => D.name c ++ QtProtobufNestedNamespace := by
      simpa [hc, getNestedNamespaces_eq] using hrest
    have houter : outer = D.cppNamespaces opts s := by
      have h₁ := congrArg List.length heq
      have h₂ := congrArg List.length hrest
      have := hb.length_eq
      simp only [List.length_append, List.length_map] at h₁ h₂
      exact (List.prefix_of_prefix_length_le ho (List.prefix_append _ _) (by omega)).eq_of_length
        (by omega)
    have hcont : D.containers s = [] := by
      have h₁ := congrArg (List.length ∘ List.flatten) heq
      have h₂ := congrArg (List.length ∘ List.flatten) hrest
      have hle := hb.flatten_length_le
      have hcpp := flatten_length_cpp (D := D) (D.containers s)
      simp only [Function.comp_apply, houter, cppNamespaces, protoNamespaces, List.flatten_append,
        List.length_append] at h₁ h₂
      exact List.length_eq_zero_iff.mp (by omega)
    simp [cppNamespaces, protoNamespaces, hcont]

theorem NamesAgree.method (h : NamesAgree D opts hides) {f : F} {service : ServiceDescriptor M}
    (hs : service ∈ D.services f) {method : MethodDescriptor M} (hmeth : method ∈ service.methods) {m : M}
    (hty : m = method.inputType ∨ m = method.outputType) (hm : D.Reached m) :
    D.Upper m ∧ D.Unhidden opts hides (D.clientScope opts f service) (D.protoNamespaces m ++ [D.name m]) m := by
  have hd : D.Declared opts _ m := declared_iff.mpr ⟨hm, rfl⟩
  rcases hty with rfl | rfl
  · exact upper_of_denotes (h.param_type f service hs method hmeth _ [] hd)
  · exact upper_of_denotes (h.return_type f service hs method hmeth _ [] hd)

theorem NamesAgree.namesMatch (h : NamesAgree D opts hides) : NamesMatch D opts hides where
  containers c n hn hc := h.containers_upper hn c (by simp [containers_nested hc])
  methodTypes f service hs method hmeth m hty hm := (h.method hs hmeth hty hm).1
  scopes _ _ hs hm hp := h.scope_prefix hs hm hp
  fullNames s m hs hm := by
    have hd := h.full_type m _ (declared_iff.mpr ⟨hm, rfl⟩) none _
      (.inr ⟨_, s, declared_iff.mpr ⟨hs, rfl⟩, rfl⟩)
    rw [full_type_eq, denotes_iff (isIdentifier_full opts m)] at hd
    exact hd.2
  scopeNames s m hs hm scope hscope := by
    have hd : D.Denotes opts hides (D.cppNamespaces opts s ++ [D.classname s])
        (D.produceMessageTypeMap opts m scope).scope_type m := by
      rcases hscope with rfl | ⟨rfl, rfl⟩
      · exact h.scope_type m _ s _ (declared_iff.mpr ⟨hm, rfl⟩) (declared_iff.mpr ⟨hs, rfl⟩)
      · exact h.scope_type_null s _ (declared_iff.mpr ⟨hs, rfl⟩)
    rw [scope_type_intercalate,
      denotes_iff (isIdentifier_concat (isIdentifier_leftIn opts scope m) m)] at hd
    exact hd.2
  methodNames f service hs method hmeth m hty hm := (h.method hs hmeth hty hm).2

end QtProtobuf.Generator.Descriptors

namespace QtProtobuf.Generator.FileSet

open Descriptors

theorem namesAgree_iff {F M E : Type} [DecidableEq M] (D : FileSet F M E) (opts : GeneratorOptions)
    (others : OtherNames) : NamesAgree D.toDescriptors opts (D.Hides opts others) ↔
      NamesMatch D.toDescriptors opts (D.Hides opts others) :=
  ⟨NamesAgree.namesMatch, NamesMatch.namesAgree⟩

/-! ## A lower-case container -/

inductive Purchase where
  | order | line
  deriving DecidableEq

theorem mem_oneFile (f : Unit) : f ∈ [()] := List.mem_singleton.mpr rfl

open Purchase in
/-- `message order { message Line { int32 id = 1; } Line line = 1; }` -/
def orderFile : FileSet Unit Purchase Empty where
  package _ := []
  services _ := []
  file _ := ()
  name
    | order => "order".toList
    | line => "Line".toList
  fields
    | order => [⟨.message line, false⟩]
    | line => [⟨.basic, false⟩]
  nestedTypes
    | order => [line]
    | line => []
  containingType
    | order => none
    | line => some order
  mapEntry _ := false
  depth m := if m = order then 0 else 1
  maxDepth := 2
  package_eq _ := noPackage
  name_identifier m := by cases m <;> decide
  service_identifier _ _ h := by cases h
  mem_nestedTypes m n := by cases m <;> cases n <;> decide
  distinct m := by cases m <;> decide
  file_eq _ _ _ := rfl
  depth_eq m n h := by cases m <;> cases n <;> first | rfl | cases h
  depth_lt m := by cases m <;> decide
  mapEntry_nestedTypes _ h := by cases h
  mapEntry_field _ h := by cases h
  files := [()]
  mem_files := mem_oneFile
  fileName _ := "order.proto".toList
  dependencies _ := []
  messageTypes _ := [order]
  fileEnums _ := []
  enumName := Empty.elim
  enumFile _ := ()
  enumContainingType _ := none
  messageEnums _ := []
  fileName_eq _ := ⟨"order".toList, rfl⟩
  mem_messageTypes _ m := by cases m <;> simp
  mem_fileEnums _ e := nomatch e
  mem_messageEnums _ e := nomatch e
  enumFile_eq _ e := nomatch e
  enumName_identifier e := nomatch e
  mapEntry_fields _ h := by cases h

/-- `full_type` is `order::Line`; the class is `Order_QtProtobufNested::Line`. -/
theorem not_namesAgree_order : ¬ NamesAgree orderFile.toDescriptors noOptions
    (orderFile.Hides noOptions ⟨fun _ => [], fun _ => []⟩) := by
  intro h
  have hr : orderFile.Reached .line := .nested (.top (m := .order) rfl) (by decide)
  exact absurd (h.namesMatch.containers .order .line hr rfl) (by unfold Upper; decide)

end QtProtobuf.Generator.FileSet
