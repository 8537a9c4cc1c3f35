import QtProtobuf.Core.Lts

/-!
# The serializer registry (`protobuf/qprotobufserializerregistry.cpp`)

The records of the plugins are looked up with `find`, and with `operator []`,
which inserts a null record where there is none. `getSerializer` with a plugin
name does the second only: for a name that is not loaded it leaves a null record
behind and goes through it.

* `perform`: the calls of the registry, and what each of them returns.
* `asked_iff`: in a sound registry, one call does all that is asked of it exactly
  if it does not ask a plugin for a serializer that was not loaded.
* `registry_runs_iff`: the same for whole runs.
-/
namespace QtProtobuf.Registry

open Lib

/-! ## Maps -/

/-- A `std::unordered_map` from strings, with one pair for each key. -/
abbrev UnorderedMap (α : Type) := List (String × α)

namespace UnorderedMap
variable {α : Type}

def find (m : UnorderedMap α) (key : String) : Option α := m.lookup key

/-- `m[key] = value` -/
def assign (m : UnorderedMap α) (key : String) (value : α) : UnorderedMap α :=
  (key, value) :: m.filter fun e => e.1 != key

@[simp] theorem find_assign_self (m : UnorderedMap α) (key : String) (value : α) :
    (m.assign key value).find key = some value := by
  simp [find, assign]

theorem find_assign_ne (m : UnorderedMap α) {key key' : String} (value : α) (h : key' ≠ key) :
    (m.assign key value).find key' = m.find key' := by
  have hrest : (m.filter fun e => e.1 != key).lookup key' = m.lookup key' := by
    induction m with
    | nil => rfl
    | cons e m ih =>
      by_cases he : e.1 = key
      · rw [List.filter_cons_of_neg (by simp [he]), ih, List.lookup_cons, he, beq_false_of_ne h]
      · rw [List.filter_cons_of_pos (by simp [he]), List.lookup_cons, List.lookup_cons, ih]
  unfold find assign
  rw [List.lookup_cons, beq_false_of_ne h]
  exact hrest

end UnorderedMap

/-! ## Records -/

/-- The serializers the library comes with, and those of plugins, by address. -/
inductive Serializer where
  | protobuf | json | plugin (address : Nat)
  deriving DecidableEq, Repr

/-- What a plugin says of itself, converted; the bit patterns of two floats. -/
structure MetaData where
  name : String
  types : List String
  version : BitVec 32
  protobufVersion : BitVec 32
  rating : Int
  deriving DecidableEq, Repr

/-- mirrors src/protobuf/qprotobufserializerregistry.cpp:60-127;
`hasPluginData`: `pluginData` is not empty. -/
structure Record where
  serializers : UnorderedMap (Option Serializer) := []
  hasPluginData : Bool := false
  metaData : Option MetaData := none
  pluginLoadedName : String := ""
  typeArray : List String := []
  deriving DecidableEq, Repr

/-- What `QPluginLoader` finds at a path: the JSON of the plugin, and its
interface, if the library can be loaded and has one. -/
structure Library where
  hasPluginData : Bool
  metaData : Option MetaData
  interface : Option (String → Option Serializer)

namespace Record

/-- mirrors src/protobuf/qprotobufserializerregistry.cpp:75-83 -/
def createDefaultImpl (r : Record) : Record :=
  let r := if r.serializers.find "protobuf" = none then
    { r with serializers := r.serializers.assign "protobuf" (some .protobuf) } else r
  if r.serializers.find "json" = none then
    { r with serializers := r.serializers.assign "json" (some .json) } else r

/-- mirrors src/protobuf/qprotobufserializerregistry.cpp:85-97 -/
def loadPluginMetadata (r : Record) (library : Library) : Record :=
  let r := { r with hasPluginData := library.hasPluginData }
  if library.hasPluginData then
    { r with
      metaData := library.metaData
      pluginLoadedName := (library.metaData.map (·.name)).getD ""
      typeArray := (library.metaData.map (·.types)).getD [] }
  else r

/-- mirrors src/protobuf/qprotobufserializerregistry.cpp:99-108 -/
def loadPlugin (r : Record) (library : Library) : Record :=
  match library.interface with
  | some serializer =>
    if r.hasPluginData then
      let serializers := r.typeArray.foldl (fun m typeName => m.assign typeName (serializer typeName)) r.serializers
      { r with serializers := serializers }
    else r
  | none => r

end Record

/-! ## The registry -/

/-- `m_plugins`; a record may be a null pointer. -/
abbrev Plugins := UnorderedMap (Option Record)

/-- mirrors src/protobuf/qprotobufserializerregistry.cpp:134-145 -/
def newRegistry : Plugins := UnorderedMap.assign [] "Default" (some (Record.createDefaultImpl {}))

/-- What a call returns, or how it ends. -/
inductive Answer where
  | serializer (s : Option Serializer)
  | name (s : String)
  | float (v : BitVec 32)
  | int (v : Int)
  | strings (l : List String)
  | throws
  | nullDereference
  deriving DecidableEq, Repr

/-- mirrors src/protobuf/qprotobufserializerregistry.cpp:147-165, behind the
assertion on the name; `library` is what is found under it. -/
def loadPlugin (plugins : Plugins) (library : Library) : Plugins × Answer :=
  let plugin := Record.loadPluginMetadata {} library
  let pluginName := plugin.pluginLoadedName
  if plugins.find pluginName = none then
    (plugins.assign pluginName (some (plugin.loadPlugin library)), .name pluginName)
  else (plugins, .name pluginName)

/-- `serializers.at(id)` -/
def atId (r : Record) (id : String) : Answer :=
  match r.serializers.find id with
  | some s => .serializer s
  | none => .throws

/-- `m_plugins[plugin]->serializers.at(id)`
mirrors src/protobuf/qprotobufserializerregistry.cpp:192-195 -/
def getSerializerFrom (plugins : Plugins) (id plugin : String) : Plugins × Answer :=
  match plugins.find plugin with
  | some (some r) => (plugins, atId r id)
  | some none => (plugins, .nullDereference)
  | none => (plugins.assign plugin none, .nullDereference)

/-- mirrors src/protobuf/qprotobufserializerregistry.cpp:187-190 -/
def getSerializer (plugins : Plugins) (id : String) : Plugins × Answer := getSerializerFrom plugins id "Default"

/-- A query of a record that is looked up with `find` first. -/
def query (plugins : Plugins) (plugin : String) (unknown : Answer) (ask : Record → Answer) : Answer :=
  match plugins.find plugin with
  | none => unknown
  | some none => .nullDereference
  | some (some r) => ask r

/-- mirrors src/protobuf/qprotobufserializerregistry.cpp:203-213 -/
def pluginVersion (plugins : Plugins) (plugin : String) : Answer :=
  query plugins plugin (.float 0) fun r => .float ((r.metaData.map (·.version)).getD 0)

/-- mirrors src/protobuf/qprotobufserializerregistry.cpp:215-231 -/
def pluginSerializers (plugins : Plugins) (plugin : String) : Answer :=
  query plugins plugin (.strings []) fun r =>
    .strings (((r.metaData.map (·.types)).getD []).filter fun s => s != "")

/-- mirrors src/protobuf/qprotobufserializerregistry.cpp:233-243; the test of the
record keeps a null one from its first use only. -/
def pluginProtobufVersion (plugins : Plugins) (plugin : String) : Answer :=
  query plugins plugin (.float 0) fun r => .float ((r.metaData.map (·.protobufVersion)).getD 0)

/-- mirrors src/protobuf/qprotobufserializerregistry.cpp:245-255 -/
def pluginRating (plugins : Plugins) (plugin : String) : Answer :=
  query plugins plugin (.int 0) fun r => .int ((r.metaData.map (·.rating)).getD 0)

inductive Call where
  | loadPlugin (name : String) (library : Library)
  | getSerializer (id : String)
  | getSerializerFrom (id plugin : String)
  | pluginVersion (plugin : String)
  | pluginSerializers (plugin : String)
  | pluginProtobufVersion (plugin : String)
  | pluginRating (plugin : String)

/-- One call; there is none behind the assertion of `loadPlugin`. -/
def perform (plugins : Plugins) : Call → Option (Plugins × Answer)
  | .loadPlugin name library => if name = "" then none else some (loadPlugin plugins library)
  | .getSerializer id => some (getSerializer plugins id)
  | .getSerializerFrom id plugin => some (getSerializerFrom plugins id plugin)
  | .pluginVersion plugin => some (plugins, pluginVersion plugins plugin)
  | .pluginSerializers plugin => some (plugins, pluginSerializers plugins plugin)
  | .pluginProtobufVersion plugin => some (plugins, pluginProtobufVersion plugins plugin)
  | .pluginRating plugin => some (plugins, pluginRating plugins plugin)

def step (plugins : Plugins) (call : Call) : Option Plugins := (perform plugins call).map Prod.fst

/-- What the calls return, one after the other. -/
def answers : Plugins → List Call → List Answer
  | _, [] => []
  | plugins, call :: calls =>
    match perform plugins call with
    | some (plugins', answer) => answer :: answers plugins' calls
    | none => []

/-! ## Sound registries -/

structure Sound (plugins : Plugins) : Prop where
  nonNull : ∀ e ∈ plugins, e.2 ≠ none
  /-- the `Default` record has both serializers of the library -/
  default : ∃ r, plugins.find "Default" = some (some r) ∧
    r.serializers.find "protobuf" = some (some .protobuf) ∧ r.serializers.find "json" = some (some .json)

theorem UnorderedMap.mem_of_find {α : Type} {m : UnorderedMap α} {key : String} {value : α}
    (h : m.find key = some value) : (key, value) ∈ m := by
  obtain ⟨before, after, hm, -⟩ := List.lookup_eq_some_iff.mp h
  simp [hm]

theorem UnorderedMap.mem_assign {α : Type} {m : UnorderedMap α} {key : String} {value : α}
    {e : String × α} (h : e ∈ m.assign key value) : e = (key, value) ∨ e ∈ m := by
  rcases List.mem_cons.mp h with h | h
  · exact .inl h
  · exact .inr (List.mem_filter.mp h).1

theorem Sound.new : Sound newRegistry where
  nonNull e he := by
    rw [List.mem_singleton.mp he]
    exact Option.some_ne_none _
  default := ⟨Record.createDefaultImpl {}, rfl, by decide, by decide⟩

theorem Sound.find_ne_null {plugins : Plugins} (h : Sound plugins) (plugin : String) :
    plugins.find plugin ≠ some none :=
  fun hf => h.nonNull _ (UnorderedMap.mem_of_find hf) rfl

theorem Sound.loadPlugin {plugins : Plugins} (h : Sound plugins) (library : Library) :
    Sound (loadPlugin plugins library).1 := by
  unfold Registry.loadPlugin
  dsimp only
  split
  · rename_i hnew
    refine ⟨fun e he => ?_, ?_⟩
    · rcases UnorderedMap.mem_assign he with rfl | he
      · exact Option.some_ne_none _
      · exact h.nonNull e he
    · -- `Default` is there, so it is not the new name
      obtain ⟨r, hr, hserializers⟩ := h.default
      refine ⟨r, ?_, hserializers⟩
      rw [UnorderedMap.find_assign_ne _ _ fun heq => ?_, hr]
      rw [← heq, hr] at hnew
      cases hnew
  · exact h

theorem Sound.getSerializerFrom {plugins : Plugins} (h : Sound plugins) (id : String) {plugin : String}
    (hk : plugins.find plugin ≠ none) :
    ∃ r, plugins.find plugin = some (some r) ∧
      Registry.getSerializerFrom plugins id plugin = (plugins, atId r id) := by
  obtain ⟨p, hp⟩ := Option.ne_none_iff_exists'.mp hk
  cases p with
  | none => exact absurd hp (h.find_ne_null plugin)
  | some r =>
    refine ⟨r, hp, ?_⟩
    unfold Registry.getSerializerFrom
    rw [hp]

theorem Sound.query {plugins : Plugins} (h : Sound plugins) (plugin : String) {unknown : Answer}
    {ask : Record → Answer} (hu : unknown ≠ .nullDereference) (ha : ∀ r, ask r ≠ .nullDereference) :
    Registry.query plugins plugin unknown ask ≠ .nullDereference := by
  unfold Registry.query
  split
  · exact hu
  · rename_i hf
    exact absurd hf (h.find_ne_null plugin)
  · exact ha _

/-! ## What is asked of a call -/

/-- A serializer is asked for that is not there, or of a plugin that is not. -/
def Unknown (plugins : Plugins) : Call → Prop
  | .getSerializer id => ∀ r, plugins.find "Default" = some (some r) → r.serializers.find id = none
  | .getSerializerFrom id plugin => ∀ r, plugins.find plugin = some (some r) → r.serializers.find id = none
  | _ => False

structure Asked (plugins : Plugins) (call : Call) : Prop where
  sound : ∀ plugins' answer, perform plugins call = some (plugins', answer) → Sound plugins'
  safe : ∀ plugins' answer, perform plugins call = some (plugins', answer) → answer ≠ .nullDereference
  throws : Unknown plugins call → perform plugins call = some (plugins, .throws)
  /-- a call that failed makes no difference to what follows -/
  later : Unknown plugins call → ∀ plugins' answer, perform plugins call = some (plugins', answer) →
    ∀ calls, answers plugins' calls = answers plugins calls

/-- A plugin is asked for a serializer only after it was loaded. -/
def Loaded (plugins : Plugins) : Call → Prop
  | .getSerializerFrom _ plugin => plugins.find plugin ≠ none
  | _ => True

section
variable {plugins : Plugins}

theorem Asked.of_query (h : Sound plugins) {call : Call} {answer : Answer}
    (hcall : perform plugins call = some (plugins, answer)) (hsafe : answer ≠ .nullDereference)
    (hu : ¬ Unknown plugins call) : Asked plugins call where
  sound plugins' answer' hp := by
    rw [hcall] at hp
    cases hp
    exact h
  safe plugins' answer' hp := by
    rw [hcall] at hp
    cases hp
    exact hsafe
  throws hunknown := absurd hunknown hu
  later hunknown := absurd hunknown hu

theorem asked_loadPlugin (h : Sound plugins) (name : String) (library : Library) :
    Asked plugins (.loadPlugin name library) := by
  have hp : ∀ plugins' answer, perform plugins (.loadPlugin name library) = some (plugins', answer) →
      (plugins', answer) = loadPlugin plugins library := by
    intro plugins' answer hp
    by_cases hname : name = ""
    · simp [perform, hname] at hp
    · simp only [perform, if_neg hname, Option.some.injEq] at hp
      exact hp.symm
  refine ⟨fun plugins' answer hcall => ?_, fun plugins' answer hcall => ?_, fun hu => absurd hu id,
    fun hu => absurd hu id⟩
  · have hsound := h.loadPlugin library
    rw [← hp _ _ hcall] at hsound
    exact hsound
  · have hanswer : answer = (loadPlugin plugins library).2 := by rw [← hp _ _ hcall]
    rw [hanswer]
    unfold loadPlugin
    dsimp only
    split <;> exact Answer.noConfusion

theorem asked_getSerializerFrom (h : Sound plugins) {call : Call} {id plugin : String}
    (hk : plugins.find plugin ≠ none)
    (hcall : perform plugins call = some (getSerializerFrom plugins id plugin))
    (hu : Unknown plugins call → ∀ r, plugins.find plugin = some (some r) → r.serializers.find id = none) :
    Asked plugins call := by
  obtain ⟨r, hr, heq⟩ := h.getSerializerFrom id hk
  rw [heq] at hcall
  have hthrows : Unknown plugins call → atId r id = .throws := by
    intro hunknown
    unfold atId
    rw [hu hunknown r hr]
  refine ⟨fun plugins' answer hp => ?_, fun plugins' answer hp => ?_, fun hunknown => ?_,
    fun hunknown plugins' answer hp calls => ?_⟩
  · rw [hcall] at hp
    cases hp
    exact h
  · rw [hcall] at hp
    cases hp
    unfold atId
    split <;> exact Answer.noConfusion
  · rw [hcall, hthrows hunknown]
  · rw [hcall] at hp
    cases hp
    rfl

theorem asked_iff (h : Sound plugins) (call : Call) : Asked plugins call ↔ Loaded plugins call := by
  cases call with
  | loadPlugin name library => exact iff_of_true (asked_loadPlugin h name library) trivial
  | getSerializer id =>
    obtain ⟨r, hr, -⟩ := h.default
    exact iff_of_true (asked_getSerializerFrom h (by rw [hr]; exact Option.some_ne_none _) rfl fun hu => hu)
      trivial
  | getSerializerFrom id plugin =>
    constructor
    · intro ha hnone
      have hcall : perform plugins (.getSerializerFrom id plugin) =
          some (plugins.assign plugin none, .nullDereference) := by
        simp only [perform, getSerializerFrom, hnone]
      exact ha.safe _ _ hcall rfl
    · exact fun hk => asked_getSerializerFrom h hk rfl fun hu => hu
  | pluginVersion plugin =>
    refine iff_of_true (Asked.of_query h rfl (h.query plugin ?_ fun r => ?_) id) trivial
    all_goals exact Answer.noConfusion
  | pluginSerializers plugin =>
    refine iff_of_true (Asked.of_query h rfl (h.query plugin ?_ fun r => ?_) id) trivial
    all_goals exact Answer.noConfusion
  | pluginProtobufVersion plugin =>
    refine iff_of_true (Asked.of_query h rfl (h.query plugin ?_ fun r => ?_) id) trivial
    all_goals exact Answer.noConfusion
  | pluginRating plugin =>
    refine iff_of_true (Asked.of_query h rfl (h.query plugin ?_ fun r => ?_) id) trivial
    all_goals exact Answer.noConfusion

theorem step_sound {plugins' : Plugins} {call : Call} (h : Sound plugins) (hk : Loaded plugins call)
    (hs : step plugins call = some plugins') : Sound plugins' := by
  obtain ⟨⟨p, answer⟩, hcall, rfl⟩ := Option.map_eq_some_iff.mp hs
  exact ((asked_iff h call).mpr hk).sound p answer hcall

end

/-- **The registry.** Along a run from a new registry, every call does what is
asked of it if and only if no call asks a plugin that is not loaded for a serializer. -/
theorem registry_runs_iff (calls : List Call) :
    Along step Asked newRegistry calls ↔ Along step Loaded newRegistry calls :=
  along_congr (I := Sound) (fun _ call h => asked_iff h call) (fun _ _ _ h hk hs => step_sound h hk hs) .new

/-- A plugin that is not loaded is asked for a serializer: a null record is gone
through and left behind, and the next query goes through it again. -/
theorem not_asked_unknownPlugin :
    perform newRegistry (.getSerializerFrom "protobuf" "nosuch") =
        some (newRegistry.assign "nosuch" none, .nullDereference) ∧
      pluginVersion newRegistry "nosuch" = .float 0 ∧
      pluginVersion (newRegistry.assign "nosuch" none) "nosuch" = .nullDereference ∧
      ¬ Along step Asked newRegistry [.getSerializerFrom "protobuf" "nosuch"] := by
  have hcall : perform newRegistry (.getSerializerFrom "protobuf" "nosuch") =
      some (newRegistry.assign "nosuch" none, .nullDereference) := by decide
  exact ⟨hcall, by decide, by decide, fun h => h.1.safe _ _ hcall rfl⟩

end QtProtobuf.Registry
