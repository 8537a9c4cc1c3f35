import QtProtobuf.L5Generator.Utils
import Mathlib.Data.List.Perm.Basic

/-!
# The generator's options (`generator/generatoroptions.cpp`)

The options are one string, split at `:`. For `EXTRA_NAMESPACE=<v>` the parser
splits at `=` not the option but the whole string again, so `v` is read together
with everything behind it, and not at all if another option has a `=`.

* `parse_flags`: each flag is set exactly if it is among the options.
* `readNamespace_iff`: when the extra namespace is the one that stands in its option.
* `parse_iff`: in which order, and with which other options, the result is the
  one that is asked for.
-/
namespace QtProtobuf.Generator.Options

open Lib

/-- mirrors src/generator/generatoroptions.h:57-62 -/
structure GeneratorOptions where
  isMulti : Bool := false
  hasQml : Bool := false
  generateComments : Bool := false
  isFolder : Bool := false
  generateFieldEnum : Bool := false
  extraNamespace : Str := []
  deriving DecidableEq, Repr

/-! ## Options -/

inductive Flag where
  | multi | qml | comments | folder | fieldEnum
  deriving DecidableEq, Repr

/-- mirrors src/generator/generatoroptions.cpp:32-36 -/
def Flag.text : Flag → Str
  | multi => "MULTI".toList
  | qml => "QML".toList
  | comments => "COMMENTS".toList
  | folder => "FOLDER".toList
  | fieldEnum => "FIELDENUM".toList

/-- mirrors src/generator/generatoroptions.cpp:37 -/
def extraNamespaceOption : Str := "EXTRA_NAMESPACE".toList

/-- A word the parser does not know. -/
structure Word where
  text : Str
  colon : ':' ∉ text
  noFlag : ∀ f : Flag, text ≠ f.text
  noValue : ¬ (extraNamespaceOption ++ ['=']) <+: text

structure NamespaceValue where
  text : Str
  colon : ':' ∉ text
  equals : '=' ∉ text

inductive Setting where
  | flag (f : Flag)
  | word (w : Word)
  | extraNamespace (v : NamespaceValue)

def Setting.text : Setting → Str
  | flag f => f.text
  | word w => w.text
  | extraNamespace v => extraNamespaceOption ++ '=' :: v.text

def joined (settings : List Setting) : Str := [':'].intercalate (settings.map Setting.text)

/-! ## The parser -/

/-- Without the quotes around it.
mirrors src/generator/generatoroptions.cpp:75-78 -/
def unquoted (value : Str) : Str :=
  if 1 < value.length ∧ value.head? = some '"' ∧ value.getLast? = some '"' then value.tail.dropLast
  else value

/-- The body of the loop; the value is looked for in all of `options`. -/
def parseOption (options : Str) (o : GeneratorOptions) (option : Str) : GeneratorOptions :=
  if option = Flag.multi.text then { o with isMulti := true }
  else if option = Flag.qml.text then { o with hasQml := true }
  else if option = Flag.comments.text then { o with generateComments := true }
  else if option = Flag.folder.text then { o with isFolder := true }
  else if option = Flag.fieldEnum.text then { o with generateFieldEnum := true }
  else if extraNamespaceOption <+: option then
    match utils.split options '=' with
    | [_, value] => { o with extraNamespace := unquoted value }
    | _ => o
  else o

/-- mirrors src/generator/generatoroptions.cpp:49-81 -/
def parseFromEnv (o : GeneratorOptions) (options : Str) : GeneratorOptions :=
  (utils.split options ':').foldl (parseOption options) o

/-! ## Flags -/

/-- The part behind the only `=`, if there is one. -/
def valueIn (options : Str) : Option Str :=
  match utils.split options '=' with
  | [_, value] => some (unquoted value)
  | _ => none

theorem flag_noPrefix (f : Flag) : ¬ extraNamespaceOption <+: f.text := by
  cases f <;> decide

theorem Flag.text_inj {f g : Flag} : f.text = g.text ↔ f = g := by
  cases f <;> cases g <;> decide

theorem flag_beq (f g : Flag) : (f.text == g.text) = (f == g) := by
  rw [Bool.eq_iff_iff, beq_iff_eq, beq_iff_eq, Flag.text_inj]

theorem parseOption_eq (options : Str) (o : GeneratorOptions) (option : Str) :
    parseOption options o option =
      { isMulti := o.isMulti || option == Flag.multi.text
        hasQml := o.hasQml || option == Flag.qml.text
        generateComments := o.generateComments || option == Flag.comments.text
        isFolder := o.isFolder || option == Flag.folder.text
        generateFieldEnum := o.generateFieldEnum || option == Flag.fieldEnum.text
        extraNamespace :=
          if extraNamespaceOption <+: option then (valueIn options).getD o.extraNamespace
          else o.extraNamespace } := by
  by_cases hflag : ∃ f : Flag, option = f.text
  · obtain ⟨f, rfl⟩ := hflag
    rw [if_neg (flag_noPrefix f)]
    simp only [parseOption, if_neg (flag_noPrefix f), flag_beq, Flag.text_inj]
    cases f <;> simp
  · have hno : ∀ f : Flag, option ≠ f.text := fun f h => hflag ⟨f, h⟩
    have hbeq : ∀ f : Flag, (option == f.text) = false := fun f => beq_eq_false_iff_ne.mpr (hno f)
    simp only [parseOption, hno, if_false, hbeq, Bool.or_false]
    by_cases hprefix : extraNamespaceOption <+: option
    · rw [if_pos hprefix, if_pos hprefix]
      unfold valueIn
      split <;> rfl
    · rw [if_neg hprefix, if_neg hprefix]

theorem foldl_parseOption (options : Str) (tokens : List Str) (o : GeneratorOptions) :
    tokens.foldl (parseOption options) o =
      { isMulti := o.isMulti || tokens.contains Flag.multi.text
        hasQml := o.hasQml || tokens.contains Flag.qml.text
        generateComments := o.generateComments || tokens.contains Flag.comments.text
        isFolder := o.isFolder || tokens.contains Flag.folder.text
        generateFieldEnum := o.generateFieldEnum || tokens.contains Flag.fieldEnum.text
        extraNamespace :=
          if ∃ t ∈ tokens, extraNamespaceOption <+: t then (valueIn options).getD o.extraNamespace
          else o.extraNamespace } := by
  induction tokens generalizing o with
  | nil => simp
  | cons t tokens ih =>
    rw [List.foldl_cons, ih, parseOption_eq]
    simp only [List.contains_cons, Bool.or_assoc, GeneratorOptions.mk.injEq, List.mem_cons,
      exists_eq_or_imp]
    refine ⟨by rw [Bool.beq_comm], by rw [Bool.beq_comm], by rw [Bool.beq_comm], by rw [Bool.beq_comm],
      by rw [Bool.beq_comm], ?_⟩
    by_cases ht : extraNamespaceOption <+: t
    · by_cases hrest : ∃ t ∈ tokens, extraNamespaceOption <+: t
      · simp [ht, hrest]
        cases valueIn options <;> rfl
      · simp [ht, hrest]
    · simp [ht]

theorem Setting.colon (s : Setting) : ':' ∉ s.text := by
  cases s with
  | flag f => cases f <;> decide
  | word w => exact w.colon
  | extraNamespace v =>
    have hname : ':' ∉ extraNamespaceOption := by decide
    simp [Setting.text, hname, v.colon]

/-- The options are found again, but for an empty one at the end. -/
theorem mem_split_joined {settings : List Setting} {t : Str} (ht : t ≠ []) :
    t ∈ utils.split (joined settings) ':' ↔ ∃ s ∈ settings, s.text = t := by
  have hmap : (∃ s ∈ settings, s.text = t) ↔ t ∈ settings.map Setting.text := List.mem_map.symm
  rw [hmap]
  by_cases hne : settings = []
  · subst hne
    exact Iff.rfl
  · have hparts : (joined settings).splitOn ':' = settings.map Setting.text := by
      refine List.splitOn_intercalate ':' (fun w hw => ?_) (by simpa using hne)
      obtain ⟨s, -, rfl⟩ := List.mem_map.mp hw
      exact s.colon
    unfold utils.split
    rw [hparts]
    dsimp only
    split
    · rename_i hempty
      rw [List.isEmpty_iff.mp hempty, List.splitOn_nil] at hparts
      rw [← hparts]
      simp [ht]
    · split
      · rename_i hlast
        obtain ⟨before, hbefore⟩ := List.getLast?_eq_some_iff.mp hlast
        rw [hbefore]
        simp [ht]
      · rfl

def Setting.isFlag (f : Flag) : Setting → Bool
  | flag g => f == g
  | word _ | extraNamespace _ => false

theorem parse_flags (settings : List Setting) (f : Flag) :
    (utils.split (joined settings) ':').contains f.text = settings.any (Setting.isFlag f) := by
  have hne : f.text ≠ [] := by cases f <;> decide
  rw [Bool.eq_iff_iff, List.contains_iff_mem, mem_split_joined hne, List.any_eq_true]
  constructor
  · intro ⟨s, hs, htext⟩
    refine ⟨s, hs, ?_⟩
    cases s with
    | flag g => exact beq_iff_eq.mpr (Flag.text_inj.mp htext).symm
    | word w => exact absurd htext (w.noFlag f)
    | extraNamespace v =>
      refine absurd ?_ (flag_noPrefix f)
      exact ⟨'=' :: v.text, htext⟩
  · intro ⟨s, hs, hflag⟩
    refine ⟨s, hs, ?_⟩
    cases s with
    | flag g => rw [beq_iff_eq.mp hflag]; rfl
    | word w => exact absurd hflag Bool.false_ne_true
    | extraNamespace v => exact absurd hflag Bool.false_ne_true

/-! ## The extra namespace -/

def Setting.value? : Setting → Option Str
  | extraNamespace v => some v.text
  | flag _ | word _ => none

def values (settings : List Setting) : List Str := settings.filterMap Setting.value?

/-- The value of the option; empty where it is absent. -/
def value (settings : List Setting) : Str := (values settings).headD []

/-- What is asked of the parser. -/
def asked (settings : List Setting) : GeneratorOptions where
  isMulti := settings.any (Setting.isFlag .multi)
  hasQml := settings.any (Setting.isFlag .qml)
  generateComments := settings.any (Setting.isFlag .comments)
  isFolder := settings.any (Setting.isFlag .folder)
  generateFieldEnum := settings.any (Setting.isFlag .fieldEnum)
  extraNamespace := unquoted (value settings)

/-- What is read for the extra namespace. -/
def readNamespace (settings : List Setting) : Str :=
  if ∃ s ∈ settings, extraNamespaceOption <+: s.text then (valueIn (joined settings)).getD [] else []

theorem parse_joined (settings : List Setting) :
    parseFromEnv {} (joined settings) = { asked settings with extraNamespace := readNamespace settings } := by
  have hprefix : (∃ t ∈ utils.split (joined settings) ':', extraNamespaceOption <+: t) ↔
      ∃ s ∈ settings, extraNamespaceOption <+: s.text := by
    constructor
    · intro ⟨t, ht, hp⟩
      have hne : t ≠ [] := by
        intro h
        rw [h, List.prefix_nil] at hp
        exact absurd hp (by decide)
      obtain ⟨s, hs, rfl⟩ := (mem_split_joined hne).mp ht
      exact ⟨s, hs, hp⟩
    · intro ⟨s, hs, hp⟩
      have hne : s.text ≠ [] := by
        intro h
        rw [h, List.prefix_nil] at hp
        exact absurd hp (by decide)
      exact ⟨s.text, (mem_split_joined hne).mpr ⟨s, hs, rfl⟩, hp⟩
  unfold parseFromEnv
  rw [foldl_parseOption]
  simp only [parse_flags, hprefix, Bool.false_or, asked, readNamespace]

@[simp] theorem joined_singleton (s : Setting) : joined [s] = s.text := List.intercalate_singleton

@[simp] theorem joined_cons_cons (s t : Setting) (settings : List Setting) :
    joined (s :: t :: settings) = s.text ++ ':' :: joined (t :: settings) := by
  simp [joined, List.intercalate_cons_cons]

theorem mem_joined {settings : List Setting} {c : Char} (hc : c ≠ ':') :
    c ∈ joined settings ↔ ∃ s ∈ settings, c ∈ s.text := by
  induction settings with
  | nil => simp [joined]
  | cons s settings ih =>
    cases settings with
    | nil => simp
    | cons t settings =>
      rw [joined_cons_cons, List.mem_append, List.mem_cons, ih]
      simp [hc]

/-- Two parts around a `=`; a last `=` ends the second one. -/
theorem split_eq_pair {str name value : Str} (h : utils.split str '=' = [name, value]) :
    '=' ∉ name ∧ '=' ∉ value ∧
      (str = name ++ '=' :: value ∨ str = (name ++ '=' :: value) ++ ['=']) := by
  have hparts : ['='].intercalate (str.splitOn '=') = str := List.intercalate_splitOn '='
  unfold utils.split at h
  dsimp only at h
  split at h
  · cases h
  · split at h
    · rename_i hlast
      obtain ⟨before, hbefore⟩ := List.getLast?_eq_some_iff.mp hlast
      rw [hbefore, List.dropLast_concat] at h
      subst h
      refine ⟨not_mem_of_mem_splitOn (s := str) (by simp [hbefore]),
        not_mem_of_mem_splitOn (s := str) (by simp [hbefore]), .inr ?_⟩
      rw [← hparts, hbefore]
      simp [List.intercalate_cons_cons, List.intercalate_singleton]
    · refine ⟨not_mem_of_mem_splitOn (s := str) (by simp [h]), not_mem_of_mem_splitOn (s := str) (by simp [h]),
        .inl ?_⟩
      rw [← hparts, h]
      simp [List.intercalate_cons_cons, List.intercalate_singleton]

/-- What stands before the `=` of `EXTRA_NAMESPACE=<v>`, and behind its value. -/
theorem joined_value (before after : List Setting) (v : NamespaceValue) :
    ∃ pre post, joined (before ++ .extraNamespace v :: after) =
        (pre ++ extraNamespaceOption) ++ '=' :: (v.text ++ post) ∧
      (before = [] ∧ pre = [] ∨ pre = joined before ++ [':']) ∧
      (after = [] ∧ post = [] ∨ after ≠ [] ∧ ∃ rest, post = ':' :: rest) := by
  have htail : ∃ post, joined (.extraNamespace v :: after) = extraNamespaceOption ++ '=' :: (v.text ++ post) ∧
      (after = [] ∧ post = [] ∨ after ≠ [] ∧ ∃ rest, post = ':' :: rest) := by
    cases after with
    | nil => exact ⟨[], by simp [Setting.text], .inl ⟨rfl, rfl⟩⟩
    | cons t after =>
      refine ⟨':' :: joined (t :: after), ?_, .inr ⟨List.cons_ne_nil _ _, _, rfl⟩⟩
      simp [Setting.text]
  obtain ⟨post, htext, hpost⟩ := htail
  by_cases hb : before = []
  · subst hb
    exact ⟨[], post, by simpa using htext, .inl ⟨rfl, rfl⟩, hpost⟩
  · refine ⟨joined before ++ [':'], post, ?_, .inr rfl, hpost⟩
    have hsplit : [':'].intercalate (before.map Setting.text ++ (Setting.extraNamespace v :: after).map Setting.text) =
        joined before ++ ([':'] ++ joined (.extraNamespace v :: after)) :=
      intercalate_append (by simpa using hb) (by simp)
    rw [joined, List.map_append, hsplit, htext]
    simp


/-- `EXTRA_NAMESPACE=<v>` comes last, and no other option has a `=`. -/
def ValueLast (settings : List Setting) : Prop :=
  ∃ before v, settings = before ++ [.extraNamespace v] ∧ ∀ s ∈ before, '=' ∉ s.text

/-- No value is asked for, and there is none to be read. -/
def NoValue (settings : List Setting) : Prop :=
  unquoted (value settings) = [] ∧
    ((∀ s ∈ settings, ¬ extraNamespaceOption <+: s.text) ∨
      ∀ name text, utils.split (joined settings) '=' = [name, text] → unquoted text = [])

/-- The last `=` stands before the `:` of a last option without value. -/
theorem colon_mem_of_last {before name text : Str}
    (h : before ++ ':' :: extraNamespaceOption = name ++ '=' :: text) : ':' ∈ text := by
  have hoption : '=' ∉ ':' :: extraNamespaceOption := by decide
  rcases List.append_eq_append_iff.mp h with ⟨rest, -, hrest⟩ | ⟨rest, -, hrest⟩
  · refine absurd ?_ hoption
    rw [hrest]
    simp
  · cases rest with
    | nil => exact absurd (List.cons.inj hrest).1 (by decide)
    | cons c rest =>
      rw [(List.cons.inj hrest).2]
      simp

/-- What is read for a value is the value, or has a `:` in it. -/
theorem split_value {before after : List Setting} {v : NamespaceValue} {name text : Str}
    (h : utils.split (joined (before ++ .extraNamespace v :: after)) '=' = [name, text]) :
    (after = [] ∧ (∀ s ∈ before, '=' ∉ s.text) ∧ text = v.text) ∨ ':' ∈ text := by
  obtain ⟨pre, post, hjoined, hpre, hpost⟩ := joined_value before after v
  obtain ⟨hname, htext, hstr⟩ := split_eq_pair h
  rw [hjoined] at hstr
  rcases hstr with hstr | hstr
  · -- the only `=` is that of the option
    obtain ⟨hpre', -, htext'⟩ := (List.append_cons_inj_of_notMem hname htext).mp hstr.symm
    rcases hpost with ⟨rfl, rfl⟩ | ⟨-, rest, rfl⟩
    · refine .inl ⟨rfl, fun s hs heq => hname ?_, by simpa using htext'⟩
      rcases hpre with ⟨rfl, -⟩ | rfl
      · exact absurd hs List.not_mem_nil
      · rw [hpre']
        simp [(mem_joined (by decide)).mpr ⟨s, hs, heq⟩]
    · right
      rw [htext']
      simp
  · right
    rcases List.eq_nil_or_concat (v.text ++ post) with hempty | ⟨rest, last, hrest⟩
    · -- the `=` of the option is the last character
      rw [hempty] at hstr
      have hpair := List.append_cancel_right hstr
      rcases hpre with ⟨-, rfl⟩ | rfl
      · refine absurd ?_ (show '=' ∉ extraNamespaceOption by decide)
        rw [show extraNamespaceOption = name ++ '=' :: text from hpair]
        simp
      · exact colon_mem_of_last (by simpa using hpair)
    · -- another `=` is the last character
      rw [List.concat_eq_append] at hrest
      rw [hrest, ← List.cons_append, ← List.append_assoc] at hstr
      obtain ⟨hpair, hlast⟩ := List.append_inj' hstr rfl
      obtain ⟨-, -, rfl⟩ := (List.append_cons_inj_of_notMem hname htext).mp hpair.symm
      rw [(List.cons.inj hlast).1] at hrest
      rcases hpost with ⟨-, rfl⟩ | ⟨-, after, rfl⟩
      · refine absurd ?_ v.equals
        rw [← List.append_nil v.text, hrest]
        simp
      · have hmem : ':' ∈ text ++ ['='] := by
          rw [← hrest]
          simp
        simpa using hmem

theorem colon_mem_unquoted {text : Str} (h : ':' ∈ text) : ':' ∈ unquoted text := by
  unfold unquoted
  split
  · rename_i hquoted
    obtain ⟨-, hhead, hlast⟩ := hquoted
    cases text with
    | nil => cases hhead
    | cons c rest =>
      rw [List.head?_cons, Option.some.injEq] at hhead
      rcases List.eq_nil_or_concat rest with rfl | ⟨middle, d, rfl⟩
      · rw [hhead] at h
        exact absurd h (by decide)
      · have hd : d = '"' := by
          rw [List.concat_eq_append, ← List.cons_append, List.getLast?_concat] at hlast
          exact Option.some.inj hlast
        have hmem : ':' ∈ middle := by simpa [hhead, hd] using h
        simpa using hmem
  · exact h

theorem not_colon_mem_unquoted {v : NamespaceValue} : ':' ∉ unquoted v.text := by
  intro h
  unfold unquoted at h
  split at h
  · exact v.colon (List.mem_of_mem_tail (List.dropLast_subset _ h))
  · exact v.colon h

/-- A last value behind the only `=` is read. -/
theorem valueIn_last {before : List Setting} {v : NamespaceValue} (h : ∀ s ∈ before, '=' ∉ s.text) :
    (valueIn (joined (before ++ [.extraNamespace v]))).getD [] = unquoted v.text := by
  obtain ⟨pre, post, hjoined, hpre, hpost⟩ := joined_value before [] v
  have hpost : post = [] := by
    rcases hpost with ⟨-, hpost⟩ | ⟨hne, -⟩
    · exact hpost
    · exact absurd rfl hne
  have hname : '=' ∉ pre ++ extraNamespaceOption := by
    have hoption : '=' ∉ extraNamespaceOption := by decide
    rcases hpre with ⟨-, rfl⟩ | rfl
    · simpa using hoption
    · have hbefore : '=' ∉ joined before := by simpa [mem_joined] using h
      simp [hbefore, hoption]
  rw [hpost, List.append_nil] at hjoined
  rw [hjoined]
  unfold valueIn utils.split
  rw [List.splitOn_append_cons_self_of_not_mem hname, List.splitOn_eq_singleton v.equals]
  by_cases hv : v.text = []
  · simp [hv, unquoted]
  · simp [hv]

theorem readNamespace_value (before after : List Setting) (v : NamespaceValue) :
    readNamespace (before ++ .extraNamespace v :: after) =
      (valueIn (joined (before ++ .extraNamespace v :: after))).getD [] := by
  refine if_pos ⟨.extraNamespace v, by simp, ?_⟩
  exact List.prefix_append _ _

theorem valueIn_pair {options name text : Str} (h : utils.split options '=' = [name, text]) :
    valueIn options = some (unquoted text) := by
  unfold valueIn
  rw [h]

theorem valueIn_none {options : Str} (h : ∀ name text, utils.split options '=' ≠ [name, text]) :
    valueIn options = none := by
  unfold valueIn
  split
  · rename_i name text hs
    exact absurd hs (h name text)
  · rfl

theorem ValueLast.read {settings : List Setting} (h : ValueLast settings) :
    readNamespace settings = unquoted (value settings) := by
  obtain ⟨before, v, rfl, hbefore⟩ := h
  have hvalues : values before = [] := by
    rw [values, List.filterMap_eq_nil_iff]
    intro s hs
    cases s with
    | flag f => rfl
    | word w => rfl
    | extraNamespace v => exact absurd (by simp [Setting.text]) (hbefore _ hs)
  have hvalue : value (before ++ [.extraNamespace v]) = v.text := by
    unfold value values
    rw [List.filterMap_append, ← values, hvalues]
    rfl
  rw [readNamespace_value, valueIn_last hbefore, hvalue]

theorem NoValue.read {settings : List Setting} (h : NoValue settings) :
    readNamespace settings = unquoted (value settings) := by
  obtain ⟨hvalue, hread⟩ := h
  rw [hvalue]
  unfold readNamespace
  split
  · rename_i hprefix
    have hpair := hread.resolve_left fun hno => by
      obtain ⟨s, hs, hp⟩ := hprefix
      exact hno s hs hp
    by_cases hsplit : ∃ name text, utils.split (joined settings) '=' = [name, text]
    · obtain ⟨name, text, hs⟩ := hsplit
      rw [valueIn_pair hs, hpair name text hs]
      rfl
    · rw [valueIn_none fun name text hs => hsplit ⟨name, text, hs⟩]
      rfl
  · rfl

/-- In the order of the list, the extra namespace is the one asked for exactly
if it comes last, or if there is none to ask for and none to read. -/
theorem readNamespace_iff (settings : List Setting) :
    readNamespace settings = unquoted (value settings) ↔ ValueLast settings ∨ NoValue settings := by
  constructor
  · intro h
    cases hvalues : values settings with
    | nil =>
      have hvalue : unquoted (value settings) = [] := by
        rw [value, hvalues]
        rfl
      refine .inr ⟨hvalue, ?_⟩
      by_cases hprefix : ∃ s ∈ settings, extraNamespaceOption <+: s.text
      · rw [hvalue, readNamespace, if_pos hprefix] at h
        refine .inr fun name text hs => ?_
        rw [valueIn_pair hs] at h
        exact h
      · exact .inl fun s hs hp => hprefix ⟨s, hs, hp⟩
    | cons text rest =>
      obtain ⟨before, s, after, rfl, -, hs, -⟩ := List.filterMap_eq_cons_iff.mp hvalues
      have hv : ∃ v : NamespaceValue, s = .extraNamespace v ∧ v.text = text := by
        cases s with
        | flag f => cases hs
        | word w => cases hs
        | extraNamespace v => exact ⟨v, rfl, Option.some.inj hs⟩
      obtain ⟨v, rfl, rfl⟩ := hv
      have hvalue : value (before ++ .extraNamespace v :: after) = v.text := by
        rw [value, hvalues]
        rfl
      rw [readNamespace_value] at h
      by_cases hsplit : ∃ name text, utils.split (joined (before ++ .extraNamespace v :: after)) '=' = [name, text]
      · obtain ⟨name, text, hs⟩ := hsplit
        rcases split_value hs with ⟨rfl, hbefore, -⟩ | hcolon
        · exact .inl ⟨before, v, rfl, hbefore⟩
        · rw [valueIn_pair hs, hvalue, Option.getD_some] at h
          have hmem := colon_mem_unquoted hcolon
          rw [h] at hmem
          exact absurd hmem not_colon_mem_unquoted
      · have hnone : ∀ name text, utils.split (joined (before ++ .extraNamespace v :: after)) '=' ≠ [name, text] :=
          fun name text hs => hsplit ⟨name, text, hs⟩
        rw [valueIn_none hnone, Option.getD_none] at h
        exact .inr ⟨h.symm, .inr fun name text hs => absurd hs (hnone name text)⟩
  · intro h
    rcases h with h | h
    · exact h.read
    · exact h.read

/-! ## Permutations -/

theorem values_perm {settings settings' : List Setting} (h : settings'.Perm settings)
    (hone : (values settings).length ≤ 1) : values settings' = values settings := by
  have hperm : (values settings').Perm (values settings) := h.filterMap _
  match hv : values settings with
  | [] =>
    rw [hv] at hperm
    exact List.perm_nil.mp hperm
  | [v] =>
    rw [hv] at hperm
    exact List.perm_singleton.mp hperm
  | v :: w :: rest =>
    rw [hv] at hone
    exact absurd hone (by simp)

theorem asked_perm {settings settings' : List Setting} (h : settings'.Perm settings)
    (hone : (values settings).length ≤ 1) : asked settings' = asked settings := by
  simp only [asked, h.any_eq, value, values_perm h hone]

/-- **Options.** In any order of the options, the parser yields what is asked for
if and only if the value comes last, behind the only `=`, or there is none to ask
for and none to read. -/
theorem parse_iff (settings settings' : List Setting) (hperm : settings'.Perm settings)
    (hone : (values settings).length ≤ 1) :
    parseFromEnv {} (joined settings') = asked settings ↔ ValueLast settings' ∨ NoValue settings' := by
  rw [← asked_perm hperm hone, parse_joined, ← readNamespace_iff]
  constructor
  · exact fun h => congrArg GeneratorOptions.extraNamespace h
  · intro h
    rw [h]
    rfl

def myNamespace : NamespaceValue := ⟨"My".toList, by decide, by decide⟩

theorem parse_last : parseFromEnv {} "QML:EXTRA_NAMESPACE=My".toList =
    asked [.extraNamespace myNamespace, .flag .qml] :=
  (parse_iff [.extraNamespace myNamespace, .flag .qml] [.flag .qml, .extraNamespace myNamespace]
    (.swap _ _ _) (by decide)).mpr (.inl ⟨[.flag .qml], myNamespace, rfl, by decide⟩)

/-- With another option behind it, the value is read up to the end of the string. -/
theorem not_parse_first :
    parseFromEnv {} "EXTRA_NAMESPACE=My:QML".toList = { hasQml := true, extraNamespace := "My:QML".toList } ∧
      (asked [.extraNamespace myNamespace, .flag .qml]).extraNamespace = "My".toList ∧
      parseFromEnv {} (joined [.extraNamespace myNamespace, .flag .qml]) ≠
        asked [.extraNamespace myNamespace, .flag .qml] := by
  decide

end QtProtobuf.Generator.Options
