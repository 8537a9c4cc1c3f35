import QtProtobuf.Core.Folds
import QtProtobuf.L5Generator.PreParse
import QtProtobuf.L5Generator.IncludeClosure
import QtProtobuf.L5Generator.Options
import Mathlib.Data.List.Dedup

/-!
# The files a build expects (`cmake/QtProtobufGen.cmake`)

`qtprotobuf_generate` makes a rule whose outputs are what the pre-parser found in the
proto files, and whose command starts the generator; the generator has its options
from a string that the function joins.

* `started_isMulti`, `started_isFolder`: the generator reads the options that were meant.
* `generatedFiles_multi`: with `MULTI` the pre-parser finds every file that is written,
  but for `globalenums.cpp`; the outputs are what is found and not excluded.
* `generatedFiles_single`: without it every output is written, and every file is an
  output as long as none is excluded or written twice and no list of one name is taken
  for a false constant.
-/
namespace QtProtobuf.Generator.PreParse

open Lib Options

/-! ## The options -/

/-- mirrors cmake/QtProtobufGen.cmake:11-14 -/
structure GenerateArgs where
  multi : Bool := false
  qml : Bool := false
  comments : Bool := false
  folder : Bool := false
  fieldEnum : Bool := false
  extraNamespace : Str := []
  excludeHeaders : List Str := []

namespace GenerateArgs

/-- mirrors cmake/QtProtobufGen.cmake:28-66 -/
def generationOptions (a : GenerateArgs) : List Str :=
  [if a.multi then "MULTI".toList else "SINGLE".toList] ++
    (if a.qml then ["QML".toList] else []) ++
    (if a.comments then ["COMMENTS".toList] else []) ++
    (if a.multi || a.folder then ["FOLDER".toList] else []) ++
    (if a.fieldEnum then ["FIELDENUM".toList] else [])

/-- mirrors cmake/QtProtobufGen.cmake:68-71 -/
def generationOptionsString (a : GenerateArgs) : Str :=
  let options := [':'].intercalate a.generationOptions
  if isOff a.extraNamespace then options
  else options ++ ':' :: (extraNamespaceOption ++ '=' :: '"' :: (a.extraNamespace ++ ['"']))

/-- The options of the generator that the command starts. -/
def started (a : GenerateArgs) : Options.GeneratorOptions := parseFromEnv {} a.generationOptionsString

end GenerateArgs

theorem mem_split {s t : Str} {d : Char} (ht : t ≠ []) : t ∈ utils.split s d ↔ t ∈ s.splitOn d := by
  unfold utils.split
  split
  · next hempty =>
    rw [List.isEmpty_iff.mp hempty, List.splitOn_nil]
    simp [ht]
  · dsimp only
    split
    · next hlast =>
      obtain ⟨before, hbefore⟩ := List.getLast?_eq_some_iff.mp hlast
      rw [hbefore]
      simp [ht]
    · exact Iff.rfl

/-- The parts of a text in quotes are those of the text, the first one and the last
one without their quote. -/
theorem mem_splitOn_quoted {x s t : Str} (hx : ':' ∉ x) (ht : '"' ∉ t)
    (h : t ∈ (x ++ '"' :: (s ++ ['"'])).splitOn ':') : t ∈ s.splitOn ':' := by
  have hs : [':'].intercalate (s.splitOn ':') = s := List.intercalate_splitOn ':'
  have hparts : ∀ p ∈ s.splitOn ':', ':' ∉ p := fun p hp => not_mem_of_mem_splitOn hp
  generalize s.splitOn ':' = parts at hs hparts ⊢
  subst hs
  cases parts with
  | nil =>
    rw [List.splitOn_eq_singleton (by simpa using hx)] at h
    rw [List.mem_singleton.mp h] at ht
    simp at ht
  | cons p rest =>
    have hp := hparts p List.mem_cons_self
    obtain rfl | ⟨middle, q, rfl⟩ : rest = [] ∨ ∃ middle q, rest = middle ++ [q] := by
      simpa using List.eq_nil_or_concat rest
    · rw [List.intercalate_singleton, List.splitOn_eq_singleton (by simp [hx, hp])] at h
      rw [List.mem_singleton.mp h] at ht
      simp at ht
    · have htext : x ++ '"' :: ([':'].intercalate (p :: (middle ++ [q])) ++ ['"']) =
          [':'].intercalate ((x ++ '"' :: p) :: (middle ++ [q ++ ['"']])) := by
        have hleft : [':'].intercalate (p :: (middle ++ [q])) = [':'].intercalate (p :: middle) ++ ([':'] ++ q) :=
          intercalate_concat (List.cons_ne_nil _ _) q
        have hright : [':'].intercalate ((x ++ '"' :: p) :: (middle ++ [q ++ ['"']])) =
            [':'].intercalate ((x ++ '"' :: p) :: middle) ++ ([':'] ++ (q ++ ['"'])) :=
          intercalate_concat (List.cons_ne_nil _ _) _
        rw [hleft, hright]
        cases middle with
        | nil => simp
        | cons m middle => simp [List.intercalate_cons_cons]
      have hcolon : ∀ w ∈ (x ++ '"' :: p) :: (middle ++ [q ++ ['"']]), ':' ∉ w := by
        intro w hw
        simp only [List.mem_cons, List.mem_append, List.not_mem_nil, or_false] at hw
        rcases hw with rfl | hw | rfl
        · simp [hx, hp]
        · exact hparts w (by simp [hw])
        · simp [hparts q (by simp)]
      rw [htext, List.splitOn_intercalate ':' hcolon (by simp)] at h
      simp only [List.mem_cons, List.mem_append, List.not_mem_nil, or_false] at h
      rcases h with rfl | h | rfl
      · simp at ht
      · simp [h]
      · simp at ht

theorem Flag.text_quote (f : Flag) : '"' ∉ f.text := by
  cases f <;> decide

/-- The flags that stand for arguments. -/
def GenerateArgs.asks (a : GenerateArgs) : Flag → Bool
  | .multi => a.multi
  | .qml => a.qml
  | .comments => a.comments
  | .folder => a.multi || a.folder
  | .fieldEnum => a.fieldEnum

theorem mem_generationOptions {a : GenerateArgs} {f : Flag} : f.text ∈ a.generationOptions ↔ a.asks f = true := by
  have htype : ∀ b : Bool, f.text = (if b then Flag.multi.text else "SINGLE".toList) ↔
      b = true ∧ f = .multi := by
    intro b
    cases b <;> cases f <;> decide
  have hoption : ∀ (b : Bool) (g : Flag), f.text ∈ (if b then [g.text] else []) ↔ b = true ∧ f = g := by
    intro b g
    cases b <;> simp [Flag.text_inj]
  have htexts : a.generationOptions = [if a.multi then Flag.multi.text else "SINGLE".toList] ++
      (if a.qml then [Flag.qml.text] else []) ++ (if a.comments then [Flag.comments.text] else []) ++
      (if a.multi || a.folder then [Flag.folder.text] else []) ++
      (if a.fieldEnum then [Flag.fieldEnum.text] else []) := rfl
  rw [htexts]
  simp only [List.mem_append, List.mem_singleton, htype, hoption]
  cases f <;> simp [GenerateArgs.asks]

theorem generationOptions_colon {a : GenerateArgs} {w : Str} (hw : w ∈ a.generationOptions) : ':' ∉ w := by
  have hoption : ∀ (b : Bool) (s : Str), ':' ∉ s → w ∈ (if b then [s] else []) → ':' ∉ w := by
    intro b s hs h
    split at h
    · rwa [List.mem_singleton.mp h]
    · cases h
  simp only [GenerateArgs.generationOptions, List.mem_append, or_assoc] at hw
  rcases hw with hw | hw | hw | hw | hw
  · rw [List.mem_singleton.mp hw]
    split
    · decide
    · decide
  · exact hoption _ _ (by decide) hw
  · exact hoption _ _ (by decide) hw
  · exact hoption _ _ (by decide) hw
  · exact hoption _ _ (by decide) hw

/-- **The flags.** The extra namespace adds none, unless one stands between its colons. -/
theorem flag_mem_options {a : GenerateArgs} {f : Flag} (h : f.text ∉ a.extraNamespace.splitOn ':') :
    (utils.split a.generationOptionsString ':').contains f.text = a.asks f := by
  have hne : f.text ≠ [] := by cases f <;> decide
  have hoptions : ([':'].intercalate a.generationOptions).splitOn ':' = a.generationOptions :=
    List.splitOn_intercalate ':' (fun w hw => generationOptions_colon hw) (List.cons_ne_nil _ _)
  rw [Bool.eq_iff_iff, List.contains_iff_mem, mem_split hne, ← mem_generationOptions]
  unfold GenerateArgs.generationOptionsString
  dsimp only
  split
  · rw [hoptions]
  · rw [List.splitOn_append_cons_self, hoptions, List.mem_append]
    refine or_iff_left fun hmem => h ?_
    have hname : ':' ∉ extraNamespaceOption ++ ['='] := by decide
    exact mem_splitOn_quoted hname (Flag.text_quote f) (by simpa using hmem)

theorem started_isMulti {a : GenerateArgs} (h : Flag.multi.text ∉ a.extraNamespace.splitOn ':') :
    a.started.isMulti = a.multi := by
  rw [GenerateArgs.started, parseFromEnv, foldl_parseOption]
  exact (Bool.false_or _).trans (flag_mem_options h)

theorem started_isFolder {a : GenerateArgs} (h : Flag.folder.text ∉ a.extraNamespace.splitOn ':') :
    a.started.isFolder = (a.multi || a.folder) := by
  rw [GenerateArgs.started, parseFromEnv, foldl_parseOption]
  exact (Bool.false_or _).trans (flag_mem_options h)

/-! ## The build -/

/-- `list(REMOVE_DUPLICATES …)`: the first one of each name stays. -/
def removeDuplicates (names : List Str) : List Str := names.reverse.dedup.reverse

/-- The generator that is started.
mirrors src/generator/main.cpp:52-67 -/
def mode (o : Options.GeneratorOptions) : FileSet.Mode := if o.isMulti then .multi else .single

/-- A call of `qtprotobuf_generate` for the files of a set; each is laid out as
`lines`, and declares what protoc finds in it. -/
structure Build (F M E : Type) where
  set : FileSet F M E
  args : GenerateArgs
  opts : GeneratorOptions
  protoFile : F → Str
  lines : F → List Str
  contents : F → Contents
  isFolder_eq : opts.isFolder = args.started.isFolder
  multi_notMem : Flag.multi.text ∉ args.extraNamespace.splitOn ':'
  folder_notMem : Flag.folder.text ∉ args.extraNamespace.splitOn ':'
  protoFile_eq : ∀ f, (protoFile f).rtakeWhile (· != '/') = (set.fileName f).rtakeWhile (· != '/')
  lines_ne : ∀ f, lines f ≠ []
  readable : ∀ f, isOff (['\n'].intercalate (lines f)) = false
  isLine : ∀ f, ∀ l ∈ lines f, IsLine l
  lays : ∀ f, Lays (lines f) (contents f)
  package_eq : ∀ f, (contents f).package = set.package f
  messages_eq : ∀ f, (contents f).messages = (set.messageTypes f).map set.name
  services_eq : ∀ f, (contents f).services = (set.services f).map (·.name)
  topEnums_eq : ∀ f, (contents f).topEnums = (set.fileEnums f).map set.enumName

namespace Build

variable {F M E : Type} (B : Build F M E)

def text (f : F) : Str := ['\n'].intercalate (B.lines f)

/-- What the script tells about one file. -/
def preParsed (f : F) : List Str :=
  outputFiles B.args.multi (B.args.multi || B.args.folder) (B.protoFile f) (scan (B.text f))

/-- mirrors cmake/QtProtobufGen.cmake:94-111 -/
def preParsedFiles : List Str := B.set.files.flatMap B.preParsed

/-- mirrors cmake/QtProtobufGen.cmake:118-122 -/
def foundFiles : List Str := B.preParsedFiles ++ if B.args.multi then ["globalenums.h".toList] else []

/-- `none` if the function stops.
mirrors cmake/QtProtobufGen.cmake:94-127 -/
def generatedFiles : Option (List Str) :=
  if isTrue B.preParsedFiles then
    some (removeDuplicates (B.foundFiles.filter fun name => !B.args.excludeHeaders.contains name))
  else none

variable [DecidableEq F] [DecidableEq M]

/-- The names of the files that the generator writes. -/
def writtenFiles : List Str := (B.set.generateAll B.opts (mode B.args.started)).map (·.name)

end Build

/-- A path, whatever the number of its slashes. -/
def pathOf (name : Str) : List Str := fieldsAt '/' name

/-- No list of names hides what is declared: none of messages and enums, or a list that
is not taken for false; and so the services. -/
def Contents.Told (c : Contents) : Prop :=
  (c.messages = [] ∧ c.enums = [] ∨ c.messages ≠ [] ∧ ¬ OneOff c.messages ∨ c.enums ≠ [] ∧ ¬ OneOff c.enums) ∧
    ¬ OneOff c.services

/-! ## Paths -/

section
variable {F M E : Type} {D : FileSet F M E}

theorem pathOf_packageDirectory (f : F) (x : Str) :
    pathOf (D.packageDirectory f ++ x) = D.packageParts f ++ pathOf x := by
  have h : ∀ parts : List Str, (∀ p ∈ parts, IsIdentifier p) →
      fieldsAt '/' (parts.flatMap (· ++ ['/']) ++ x) = parts ++ fieldsAt '/' x := by
    intro parts hp
    induction parts with
    | nil => rfl
    | cons part parts ih =>
      rw [List.flatMap_cons, List.append_assoc, List.append_assoc, List.singleton_append, fieldsAt_append_cons,
        ((hp part List.mem_cons_self).isWord (by decide)).fieldsAt_eq,
        ih fun p h => hp p (List.mem_cons_of_mem part h)]
      rfl
  exact h _ (D.packageParts_spec f).1

theorem packageFullPath_intercalate {parts : List Str} (h : ∀ part ∈ parts, '.' ∉ part) :
    packageFullPath (['.'].intercalate parts) = ['/'].intercalate parts := by
  have hpart : ∀ part : Str, '.' ∉ part → packageFullPath part = part := by
    intro part hdot
    refine (List.map_congr_left fun c hc => ?_).trans (List.map_id part)
    have hne : c ≠ '.' := fun he => hdot (he ▸ hc)
    exact if_neg hne
  induction parts with
  | nil => rfl
  | cons part parts ih =>
    have hfirst := hpart part (h part List.mem_cons_self)
    have hrest := ih fun p hp => h p (List.mem_cons_of_mem part hp)
    cases parts with
    | nil => rw [List.intercalate_singleton, List.intercalate_singleton, hfirst]
    | cons part' parts =>
      have happend : ∀ x y : Str, packageFullPath (x ++ y) = packageFullPath x ++ packageFullPath y :=
        fun x y => List.map_append
      rw [List.intercalate_cons_cons, List.intercalate_cons_cons, happend, happend, hfirst, hrest]
      rfl

theorem pathOf_packageFullPath (f : F) (x : Str) :
    pathOf (packageFullPath (D.package f) ++ '/' :: x) = D.packageParts f ++ pathOf x := by
  obtain ⟨hparts, hpackage⟩ := D.packageParts_spec f
  have hslash : IsSeparator '/' ['/'] := ⟨0, rfl⟩
  rw [hpackage, packageFullPath_intercalate fun p hp => (hparts p hp).dot.2, pathOf, fieldsAt_append_cons,
    hslash.fieldsAt_intercalate fun p hp => (hparts p hp).isWord (by decide)]
  rfl

/-- The base name that CMake and the generator take from two names of the file. -/
theorem nameWLE_eq {protoFile : Str} {f : F}
    (h : protoFile.rtakeWhile (· != '/') = (D.fileName f).rtakeWhile (· != '/')) :
    nameWLE protoFile = utils.extractFileBasename (D.fileName f) := by
  obtain ⟨stem, hname⟩ := D.fileName_eq f
  have hlast : (stem ++ ".proto".toList).rtakeWhile (· != '/') =
      stem.rtakeWhile (· != '/') ++ ".proto".toList := by
    simp [List.rtakeWhile]
  unfold nameWLE
  dsimp only
  rw [h, hname, hlast, if_pos (by simp), utils.removeFileSuffix_proto, utils.extractFileBasename,
    utils.removeFileSuffix_proto]

end

/-! ## Lists of outputs -/

theorem nodup_removeDuplicates (names : List Str) : (removeDuplicates names).Nodup :=
  List.nodup_reverse.mpr (List.nodup_dedup _)

theorem mem_removeDuplicates {names : List Str} {name : Str} : name ∈ removeDuplicates names ↔ name ∈ names := by
  rw [removeDuplicates, List.mem_reverse, List.mem_dedup, List.mem_reverse]

theorem mem_filter_excluded {names excluded : List Str} {name : Str} :
    (name ∈ names.filter fun x => !excluded.contains x) ↔ name ∈ names ∧ name ∉ excluded := by
  rw [List.mem_filter, Bool.not_eq_true', ← Bool.not_eq_true, List.contains_iff_mem]

theorem removeDuplicates_sublist (names : List Str) : (removeDuplicates names).Sublist names := by
  have h := List.reverse_sublist.mpr (List.dedup_sublist names.reverse)
  rwa [List.reverse_reverse] at h

theorem removeDuplicates_of_nodup {names : List Str} (h : names.Nodup) : removeDuplicates names = names := by
  rw [removeDuplicates, (List.nodup_reverse.mpr h).dedup, List.reverse_reverse]

/-- The last letters of a header and of a source. -/
def IsSuffixed (name : Str) : Prop := name.getLast? = some 'h' ∨ name.getLast? = some 'p'

instance (name : Str) : Decidable (IsSuffixed name) := inferInstanceAs (Decidable (_ ∨ _))

theorem isSuffixed_append {x suffix : Str} (h : IsSuffixed suffix) : IsSuffixed (x ++ suffix) := by
  have hlast : ∀ c, suffix.getLast? = some c → (x ++ suffix).getLast? = some c := by
    intro c hc
    rw [List.getLast?_append, hc]
    rfl
  exact h.imp (hlast _) (hlast _)

theorem isOff_of_isSuffixed {value : Str} (h : IsSuffixed value) : isOff value = false := by
  unfold isOff
  rw [Bool.or_eq_false_iff]
  constructor
  · rw [Bool.eq_false_iff, Ne, List.contains_iff_mem]
    intro hmem
    have hconstants : ∀ s ∈ falseConstants, s.getLast? ≠ some 'H' ∧ s.getLast? ≠ some 'P' := by decide
    obtain ⟨hH, hP⟩ := hconstants _ hmem
    rw [List.getLast?_map] at hH hP
    rcases h with h | h
    · exact hH (by rw [h]; decide)
    · exact hP (by rw [h]; decide)
  · rw [Bool.eq_false_iff, Ne, List.isSuffixOf_iff_suffix]
    rintro ⟨before, rfl⟩
    have hlast : (before ++ "-NOTFOUND".toList).getLast? = some 'D' := by
      rw [List.getLast?_append]
      rfl
    rcases h with h | h
    · exact absurd (hlast.symm.trans h) (by decide)
    · exact absurd (hlast.symm.trans h) (by decide)

theorem isSuffixed_intercalate {names : List Str} (hne : names ≠ []) (h : ∀ name ∈ names, IsSuffixed name) :
    IsSuffixed ([';'].intercalate names) := by
  induction names with
  | nil => exact absurd rfl hne
  | cons name names ih =>
    cases names with
    | nil =>
      rw [List.intercalate_singleton]
      exact h name List.mem_cons_self
    | cons name' names =>
      rw [List.intercalate_cons_cons]
      exact isSuffixed_append (ih (List.cons_ne_nil _ _) fun n hn => h n (List.mem_cons_of_mem name hn))

/-- A list of outputs is no false constant. -/
theorem isTrue_outputs {names : List Str} (h : ∀ name ∈ names, IsSuffixed name) :
    isTrue names = true ↔ names ≠ [] := by
  constructor
  · rintro htrue rfl
    exact absurd htrue (by decide)
  · intro hne
    rw [isTrue, isOff_of_isSuffixed (isSuffixed_intercalate hne h)]
    rfl

theorem isSuffixed_outputFiles {multi folder : Bool} {protoFile name : Str} {s : Scan}
    (h : name ∈ outputFiles multi folder protoFile s) : IsSuffixed name := by
  have hpair : ∀ {x suffix suffix' : Str}, IsSuffixed suffix → IsSuffixed suffix' →
      name ∈ [x ++ suffix, x ++ suffix'] → IsSuffixed name := by
    intro x suffix suffix' hs hs' hmem
    rcases List.mem_pair.mp hmem with rfl | rfl
    · exact isSuffixed_append hs
    · exact isSuffixed_append hs'
  have hfile : ∀ {x suffix : Str}, IsSuffixed suffix → IsSuffixed ('/' :: (x ++ suffix)) :=
    fun {x suffix} hs => isSuffixed_append (x := '/' :: x) hs
  unfold outputFiles at h
  dsimp only at h
  split at h
  · rcases List.mem_append.mp h with h | h
    · obtain ⟨item, -, h⟩ := List.mem_flatMap.mp h
      exact hpair (hfile (by decide)) (hfile (by decide)) h
    · obtain ⟨item, -, h⟩ := List.mem_flatMap.mp h
      exact hpair (hfile (by decide)) (hfile (by decide)) h
  · rcases List.mem_append.mp h with h | h
    · split at h
      · exact hpair (isSuffixed_append (by decide)) (isSuffixed_append (by decide)) h
      · cases h
    · split at h
      · exact hpair (isSuffixed_append (by decide)) (isSuffixed_append (by decide)) h
      · cases h

/-! ## The two lists -/

namespace Build

variable {F M E : Type} (B : Build F M E)

/-- What the scan finds is what the layout declares. -/
theorem scan_text (f : F) : scan (B.text f) =
    { protoPackage := (B.contents f).package
      protoMessages := (B.contents f).messages
      protoServices := (B.contents f).services
      protoEnums := (B.contents f).enums } := by
  rw [scan, text, items_lines (B.lines_ne f) (B.isLine f), scan_lays (B.lays f) rfl rfl]
  simp only [List.nil_append, Scan.mk.injEq, and_self, and_true]
  split
  · next h => exact h.symm
  · rfl

variable [DecidableEq M]

theorem paths_multi (h : B.args.multi = true) (f : F) : (B.preParsed f).map pathOf =
    ((B.set.messageTypes f).flatMap (B.set.messageFiles B.opts) ++
      (B.set.services f).flatMap (B.set.clientFiles B.opts f)).map fun file => pathOf file.name := by
  have hfolder : B.opts.isFolder = true := by
    rw [B.isFolder_eq, started_isFolder B.folder_notMem, h]
    rfl
  have hpath : ∀ x : Str, pathOf (packageFullPath (B.set.package f) ++ '/' :: x) =
      pathOf (B.set.packageDirectory f ++ x) := fun x =>
    (pathOf_packageFullPath f x).trans (pathOf_packageDirectory f x).symm
  rw [preParsed, B.scan_text, outputFiles, if_pos h, B.package_eq, B.messages_eq, B.services_eq,
    List.flatMap_map, List.flatMap_map, List.map_append, List.map_append, List.map_flatMap, List.map_flatMap,
    List.map_flatMap, List.map_flatMap]
  congr 1
  · refine List.flatMap_congr fun m hm => ?_
    obtain ⟨-, hfile⟩ := (B.set.mem_messageTypes f m).mp hm
    simp [FileSet.messageFiles, FileSet.generateBaseName, hfolder, hfile, hpath]
  · refine List.flatMap_congr fun service _ => ?_
    simp [FileSet.clientFiles, FileSet.generateBaseName, hfolder, hpath]

/-! ### One header for each file -/

/-- Two lists of two parts, where the first list may lack one. -/
theorem parts_sublist {α : Type} {c d c' d' : Prop} [Decidable c] [Decidable d] [Decidable c'] [Decidable d']
    {p q : List α} (hp : p ≠ []) (hq : q ≠ []) (h : c → d) (h' : c' → d') :
    ((if c then p else []) ++ if c' then q else []).Sublist ((if d then p else []) ++ if d' then q else []) ∧
      (((if c then p else []) ++ if c' then q else []) = ((if d then p else []) ++ if d' then q else []) ↔
        (d → c) ∧ (d' → c')) := by
  by_cases hc : c
  · by_cases hc' : c'
    · simp [hc, hc', h hc, h' hc']
    · by_cases hd' : d' <;> simp [hc, hc', h hc, hd', hq]
  · by_cases hc' : c'
    · by_cases hd : d <;> simp [hc, hc', h' hc', hd, hp]
    · by_cases hd : d <;> by_cases hd' : d' <;> simp [hc, hc', hd, hd', hp, hq]

omit [DecidableEq M] in
/-- What the messages of the file are told by, and what they are written for. -/
theorem told_messages (f : F) :
    (isTrue (B.contents f).messages = true ∨ isTrue (B.contents f).enums = true →
        B.set.messageTypes f ≠ [] ∨ B.set.fileEnums f ≠ []) ∧
      ((B.set.messageTypes f ≠ [] ∨ B.set.fileEnums f ≠ [] →
          isTrue (B.contents f).messages = true ∨ isTrue (B.contents f).enums = true) ↔
        (B.contents f).messages = [] ∧ (B.contents f).enums = [] ∨
          (B.contents f).messages ≠ [] ∧ ¬ OneOff (B.contents f).messages ∨
          (B.contents f).enums ≠ [] ∧ ¬ OneOff (B.contents f).enums) := by
  obtain ⟨hmessages, -, henums⟩ := (B.lays f).isIdentifier
  rw [isTrue_iff hmessages, isTrue_iff henums]
  have htypes : B.set.messageTypes f ≠ [] ↔ (B.contents f).messages ≠ [] := by
    rw [B.messages_eq, Ne, Ne, List.map_eq_nil_iff]
  have hfile : B.set.fileEnums f ≠ [] ↔ (B.contents f).topEnums ≠ [] := by
    rw [B.topEnums_eq, Ne, Ne, List.map_eq_nil_iff]
  have hnested := (B.lays f).enums_iff
  rw [htypes, hfile]
  by_cases hm : (B.contents f).messages = []
  · have hone : ¬ OneOff (B.contents f).messages := by
      rintro ⟨name, hname, -⟩
      cases hm.symm.trans hname
    by_cases he : (B.contents f).enums = []
    · simp [hm, he, (hnested hm).mp he]
    · have htop : (B.contents f).topEnums ≠ [] := fun h => he ((hnested hm).mpr h)
      simp [hm, he, htop]
  · simp [hm]

variable [DecidableEq F]

/-- The paths for messages and for services, as the generator names them. -/
def messagePaths (f : F) : List (List Str) :=
  let basename := B.set.generateBaseName B.opts f (utils.extractFileBasename (B.set.fileName f))
  [pathOf (basename ++ ".qpb.h".toList), pathOf (basename ++ ".qpb.cpp".toList)]

def servicePaths (f : F) : List (List Str) :=
  let basename := B.set.generateBaseName B.opts f (utils.extractFileBasename (B.set.fileName f))
  [pathOf (basename ++ "_grpc.qpb.h".toList), pathOf (basename ++ "_grpc.qpb.cpp".toList)]

omit [DecidableEq M] in
theorem paths_single (h : B.args.multi = false) (f : F) :
    ((B.preParsed f).map pathOf).Sublist
        ((B.set.generateMessages B.opts f ++ B.set.generateServices B.opts f).map fun file => pathOf file.name) ∧
      ((B.preParsed f).map pathOf =
          ((B.set.generateMessages B.opts f ++ B.set.generateServices B.opts f).map
            fun file => pathOf file.name) ↔ (B.contents f).Told) := by
  have hfolder : B.opts.isFolder = B.args.folder := by
    rw [B.isFolder_eq, started_isFolder B.folder_notMem, h]
    rfl
  have hpath : ∀ x : Str, pathOf ((if B.args.folder then packageFullPath (B.set.package f) ++ ['/'] else []) ++ x) =
      pathOf (B.set.generateBaseName B.opts f x) := by
    intro x
    rw [FileSet.generateBaseName, hfolder]
    cases B.args.folder with
    | false => rfl
    | true =>
      have hfull := pathOf_packageFullPath (D := B.set) f x
      simpa [pathOf_packageDirectory] using hfull
  have hservices : isTrue (B.contents f).services = true ↔
      B.set.services f ≠ [] ∧ ¬ OneOff (B.contents f).services := by
    rw [isTrue_iff (B.lays f).isIdentifier.2.1, B.services_eq, Ne, Ne, List.map_eq_nil_iff]
  have hbase : ∀ suffix : Str, B.set.generateBaseName B.opts f
      (utils.extractFileBasename (B.set.fileName f) ++ suffix) =
        B.set.generateBaseName B.opts f (utils.extractFileBasename (B.set.fileName f)) ++ suffix := by
    intro suffix
    rw [FileSet.generateBaseName, FileSet.generateBaseName]
    split
    · rw [List.append_assoc]
    · rfl
  have hleft : (B.preParsed f).map pathOf =
      (if isTrue (B.contents f).messages = true ∨ isTrue (B.contents f).enums = true
        then B.messagePaths f else []) ++
        if isTrue (B.contents f).services = true then B.servicePaths f else [] := by
    rw [preParsed, B.scan_text, outputFiles, if_neg (by simp [h]), B.package_eq, nameWLE_eq (B.protoFile_eq f)]
    simp only [h, Bool.false_or, List.map_append, apply_ite (List.map pathOf), List.map_cons, List.map_nil, hpath,
      hbase, Bool.or_eq_true]
    rfl
  have hright : ((B.set.generateMessages B.opts f ++ B.set.generateServices B.opts f).map
        fun file => pathOf file.name) =
      (if B.set.messageTypes f ≠ [] ∨ B.set.fileEnums f ≠ [] then B.messagePaths f else []) ++
        if B.set.services f ≠ [] then B.servicePaths f else [] := by
    rw [List.map_append]
    congr 1
    · rw [FileSet.generateMessages]
      by_cases hdeclares : B.set.messageTypes f ≠ [] ∨ B.set.fileEnums f ≠ []
      · rw [if_pos hdeclares, if_neg (by simpa [List.isEmpty_iff, imp_iff_not_or] using hdeclares)]
        simp [messagePaths, FileSet.ProtoFileSuffix]
      · rw [if_neg hdeclares, if_pos (by simpa [List.isEmpty_iff] using hdeclares)]
        rfl
    · rw [FileSet.generateServices]
      by_cases hempty : B.set.services f = []
      · rw [if_neg (not_not.mpr hempty), if_pos (List.isEmpty_iff.mpr hempty)]
        rfl
      · rw [if_pos hempty, if_neg (by rwa [List.isEmpty_iff])]
        simp [servicePaths, FileSet.ProtoFileSuffix, FileSet.GrpcFileSuffix]
  obtain ⟨hmessages, hmessages'⟩ := B.told_messages f
  have hservices' : (B.set.services f ≠ [] → isTrue (B.contents f).services = true) ↔
      ¬ OneOff (B.contents f).services := by
    rw [hservices]
    constructor
    · rintro himp ⟨name, hname, hoff⟩
      have hne : B.set.services f ≠ [] := by
        intro hempty
        rw [B.services_eq, hempty] at hname
        cases hname
      exact (himp hne).2 ⟨name, hname, hoff⟩
    · exact fun hone hne => ⟨hne, hone⟩
  rw [hleft, hright, Contents.Told, ← hmessages', ← hservices']
  exact parts_sublist (List.cons_ne_nil _ _) (List.cons_ne_nil _ _) hmessages fun htrue => (hservices.mp htrue).1

omit [DecidableEq M] [DecidableEq F] in
theorem mode_started : mode B.args.started = if B.args.multi then .multi else .single := by
  rw [mode, started_isMulti B.multi_notMem]

omit [DecidableEq M] [DecidableEq F] in
theorem isTrue_preParsedFiles : isTrue B.preParsedFiles = true ↔ B.preParsedFiles ≠ [] := by
  refine isTrue_outputs fun name hname => ?_
  obtain ⟨f, -, hf⟩ := List.mem_flatMap.mp hname
  exact isSuffixed_outputFiles hf

omit [DecidableEq M] [DecidableEq F] in
theorem generatedFiles_eq_none : B.generatedFiles = none ↔ ∀ f, B.preParsed f = [] := by
  rw [generatedFiles]
  split
  · next htrue =>
    refine iff_of_false (by simp) fun hall => B.isTrue_preParsedFiles.mp htrue ?_
    exact List.flatMap_eq_nil_iff.mpr fun f _ => hall f
  · next htrue =>
    have hempty : B.preParsedFiles = [] := not_not.mp fun h => htrue (B.isTrue_preParsedFiles.mpr h)
    exact iff_of_true rfl fun f => List.flatMap_eq_nil_iff.mp hempty f (B.set.mem_files f)

omit [DecidableEq M] [DecidableEq F] in
theorem generatedFiles_eq_some {files : List Str} (h : B.generatedFiles = some files) :
    files = removeDuplicates (B.foundFiles.filter fun name => !B.args.excludeHeaders.contains name) := by
  rw [generatedFiles] at h
  split at h
  · exact (Option.some.inj h).symm
  · cases h

omit [DecidableEq M] [DecidableEq F] in
theorem preParsed_multi (h : B.args.multi = true) (f : F) :
    B.preParsed f = [] ↔ (B.contents f).messages = [] ∧ (B.contents f).services = [] := by
  have hnone : ∀ {g : Str → List Str} {names : List Str}, (∀ x, g x ≠ []) →
      (names.flatMap g = [] ↔ names = []) := by
    intro g names hg
    cases names with
    | nil => exact iff_of_true rfl rfl
    | cons x names => exact iff_of_false (by simp [hg x]) (List.cons_ne_nil _ _)
  rw [preParsed, B.scan_text, outputFiles, if_pos h, List.append_eq_nil_iff,
    hnone fun _ => List.cons_ne_nil _ _, hnone fun _ => List.cons_ne_nil _ _]

omit [DecidableEq M] [DecidableEq F] in
theorem preParsed_single (h : B.args.multi = false) (f : F) : B.preParsed f = [] ↔
    ((B.contents f).messages = [] ∨ OneOff (B.contents f).messages) ∧
      ((B.contents f).enums = [] ∨ OneOff (B.contents f).enums) ∧
      ((B.contents f).services = [] ∨ OneOff (B.contents f).services) := by
  obtain ⟨hmessages, hservices, henums⟩ := (B.lays f).isIdentifier
  have hfalse : ∀ {names : List Str}, (∀ name ∈ names, IsIdentifier name) →
      (isTrue names = false ↔ names = [] ∨ OneOff names) := by
    intro names hnames
    rw [← Bool.not_eq_true, isTrue_iff hnames, not_and_or, not_not, not_not]
  rw [← hfalse hmessages, ← hfalse hservices, ← hfalse henums, preParsed, B.scan_text, outputFiles,
    if_neg (by simp [h]), List.append_eq_nil_iff, ← and_assoc]
  refine and_congr ?_ ?_
  · rw [ite_eq_right_iff, ← Bool.or_eq_false_iff]
    simp
  · rw [ite_eq_right_iff]
    simp

/-- **One header for each message.** All files that are written but `globalenums.cpp` are
found, each once; each that is not excluded is an output. -/
theorem generatedFiles_multi (h : B.args.multi = true) :
    (B.writtenFiles.map pathOf).Perm (pathOf "globalenums.cpp".toList :: B.foundFiles.map pathOf) ∧
      (B.generatedFiles = none ↔ ∀ f, (B.contents f).messages = [] ∧ (B.contents f).services = []) ∧
      ∀ files, B.generatedFiles = some files →
        files.Nodup ∧ ∀ name, name ∈ files ↔ name ∈ B.foundFiles ∧ name ∉ B.args.excludeHeaders := by
  have hwritten : B.writtenFiles.map pathOf = pathOf "globalenums.h".toList :: pathOf "globalenums.cpp".toList ::
      B.set.files.flatMap fun f => (B.preParsed f).map pathOf := by
    rw [writtenFiles, B.mode_started, h, if_pos rfl, FileSet.generateAll]
    simp only [List.map_append, List.map_map, List.map_flatMap, B.paths_multi h]
    rfl
  have hfound : B.foundFiles.map pathOf =
      (B.set.files.flatMap fun f => (B.preParsed f).map pathOf) ++ [pathOf "globalenums.h".toList] := by
    rw [foundFiles, h, List.map_append, preParsedFiles, List.map_flatMap]
    rfl
  refine ⟨?_, ?_, fun files hfiles => ?_⟩
  · rw [hwritten, hfound]
    refine (List.Perm.swap _ _ _).trans (.cons _ ?_)
    exact (List.perm_append_singleton _ _).symm
  · rw [generatedFiles_eq_none]
    exact forall_congr' fun f => B.preParsed_multi h f
  · rw [B.generatedFiles_eq_some hfiles]
    refine ⟨nodup_removeDuplicates _, fun name => ?_⟩
    rw [mem_removeDuplicates, mem_filter_excluded]

omit [DecidableEq M] [DecidableEq F] in
/-- Without `MULTI`: a name without slashes, behind that of the package if there are folders. -/
theorem mem_foundFiles_single (h : B.args.multi = false) {x : Str} (hx : x ∈ B.foundFiles) :
    ∃ f base, IsWord '/' base ∧
      x = (if B.args.folder then packageFullPath (B.set.package f) ++ ['/'] else []) ++ base := by
  rw [foundFiles, h, if_neg (by decide), List.append_nil] at hx
  obtain ⟨f, -, hf⟩ := List.mem_flatMap.mp hx
  have hword : ∀ suffix : Str, suffix ≠ [] → '/' ∉ suffix →
      IsWord '/' (utils.extractFileBasename (B.set.fileName f) ++ suffix) := by
    intro suffix hne hslash
    have hbase : '/' ∉ utils.extractFileBasename (B.set.fileName f) := by
      intro hmem
      simpa using List.mem_rtakeWhile_imp hmem
    refine ⟨by simp [hne], ?_⟩
    simp [hbase, hslash]
  rw [preParsed, B.scan_text, outputFiles, if_neg (by simp [h]), B.package_eq, nameWLE_eq (B.protoFile_eq f), h,
    Bool.false_or] at hf
  rcases List.mem_append.mp hf with hf | hf
  · split at hf
    · rcases List.mem_pair.mp hf with rfl | rfl
      · exact ⟨f, _, hword _ (by decide) (by decide), rfl⟩
      · exact ⟨f, _, hword _ (by decide) (by decide), rfl⟩
    · cases hf
  · split at hf
    · rcases List.mem_pair.mp hf with rfl | rfl
      · exact ⟨f, _, hword _ (by decide) (by decide), rfl⟩
      · exact ⟨f, _, hword _ (by decide) (by decide), rfl⟩
    · cases hf

omit [DecidableEq M] [DecidableEq F] in
/-- Without `MULTI` no two names are of one path. -/
theorem pathOf_inj (h : B.args.multi = false) {x y : Str} (hx : x ∈ B.foundFiles) (hy : y ∈ B.foundFiles)
    (hxy : pathOf x = pathOf y) : x = y := by
  obtain ⟨f, base, hbase, rfl⟩ := B.mem_foundFiles_single h hx
  obtain ⟨g, base', hbase', rfl⟩ := B.mem_foundFiles_single h hy
  cases hfolder : B.args.folder with
  | false =>
    have hpath : ∀ {w : Str}, IsWord '/' w → pathOf w = [w] := fun hw => hw.fieldsAt_eq
    simp only [hfolder, Bool.false_eq_true, if_false, List.nil_append] at hxy ⊢
    rw [hpath hbase, hpath hbase'] at hxy
    exact List.singleton_inj.mp hxy
  | true =>
    have hpath : ∀ {k : F} {w : Str}, IsWord '/' w →
        pathOf (packageFullPath (B.set.package k) ++ '/' :: w) = B.set.packageParts k ++ [w] := by
      intro k w hw
      have hlast : pathOf w = [w] := hw.fieldsAt_eq
      rw [pathOf_packageFullPath, hlast]
    simp only [hfolder, if_true, List.append_assoc, List.singleton_append] at hxy ⊢
    rw [hpath hbase, hpath hbase'] at hxy
    obtain ⟨hparts, hlast⟩ := List.append_inj' hxy rfl
    rw [(B.set.packageParts_spec f).2, (B.set.packageParts_spec g).2, hparts, List.singleton_inj.mp hlast]

/-- **One header for each file.** What the build expects is written; nothing is missing
exactly if no header is excluded, no file is written twice and no false constant hides
what a file declares. -/
theorem generatedFiles_single (h : B.args.multi = false) :
    (B.generatedFiles = none ↔ ∀ f, ((B.contents f).messages = [] ∨ OneOff (B.contents f).messages) ∧
        ((B.contents f).enums = [] ∨ OneOff (B.contents f).enums) ∧
        ((B.contents f).services = [] ∨ OneOff (B.contents f).services)) ∧
      ∀ files, B.generatedFiles = some files →
        (files.map pathOf).Sublist (B.writtenFiles.map pathOf) ∧
        (files.map pathOf = B.writtenFiles.map pathOf ↔
          (∀ f, (B.contents f).Told) ∧ (∀ name ∈ B.args.excludeHeaders, name ∉ B.foundFiles) ∧
            (B.writtenFiles.map pathOf).Nodup) := by
  have hwritten : B.writtenFiles.map pathOf = B.set.files.flatMap fun f =>
      (B.set.generateMessages B.opts f ++ B.set.generateServices B.opts f).map fun file => pathOf file.name := by
    rw [writtenFiles, B.mode_started, h, if_neg (by decide), FileSet.generateAll, List.map_map, List.map_flatMap]
    rfl
  have hfound : B.foundFiles.map pathOf = B.set.files.flatMap fun f => (B.preParsed f).map pathOf := by
    rw [foundFiles, h, List.map_append, preParsedFiles, List.map_flatMap, if_neg (by decide)]
    exact List.append_nil _
  have hparts : ∀ f ∈ B.set.files, ((B.preParsed f).map pathOf).Sublist
      ((B.set.generateMessages B.opts f ++ B.set.generateServices B.opts f).map fun file => pathOf file.name) :=
    fun f _ => (B.paths_single h f).1
  have hsub : (B.foundFiles.map pathOf).Sublist (B.writtenFiles.map pathOf) := by
    rw [hwritten, hfound]
    exact flatMap_sublist hparts
  have htold : B.foundFiles.map pathOf = B.writtenFiles.map pathOf ↔ ∀ f, (B.contents f).Told := by
    rw [hwritten, hfound, flatMap_eq_iff hparts]
    constructor
    · exact fun heq f => (B.paths_single h f).2.mp (heq f (B.set.mem_files f))
    · exact fun hall f _ => (B.paths_single h f).2.mpr (hall f)
  refine ⟨?_, fun files hfiles => ?_⟩
  · rw [generatedFiles_eq_none]
    exact forall_congr' fun f => B.preParsed_single h f
  · have hfiles := B.generatedFiles_eq_some hfiles
    have hout : files.Sublist B.foundFiles :=
      hfiles ▸ (removeDuplicates_sublist _).trans List.filter_sublist
    refine ⟨(hout.map pathOf).trans hsub, ?_, ?_⟩
    · intro heq
      have hlength := congrArg List.length heq
      rw [List.length_map, List.length_map] at hlength
      have hle := hsub.length_le
      rw [List.length_map, List.length_map] at hle
      have hsame : files = B.foundFiles := hout.eq_of_length (le_antisymm hout.length_le (hlength ▸ hle))
      refine ⟨htold.mp (hsame ▸ heq), fun name hname hmem => ?_, ?_⟩
      · rw [← hsame, hfiles, mem_removeDuplicates, mem_filter_excluded] at hmem
        exact hmem.2 hname
      · rw [← heq, List.nodup_map_iff_inj_on (hfiles ▸ nodup_removeDuplicates _)]
        exact fun x hx y hy => B.pathOf_inj h (hsame ▸ hx) (hsame ▸ hy)
    · rintro ⟨hall, hexclude, hnodup⟩
      have hpaths := htold.mpr hall
      have hnone : (B.foundFiles.filter fun name => !B.args.excludeHeaders.contains name) = B.foundFiles := by
        refine List.filter_eq_self.mpr fun name hname => ?_
        rw [Bool.not_eq_true', ← Bool.not_eq_true, List.contains_iff_mem]
        exact fun hmem => hexclude name hmem hname
      have hfoundNodup : B.foundFiles.Nodup := .of_map pathOf (hpaths ▸ hnodup)
      rw [hfiles, hnone, removeDuplicates_of_nodup hfoundNodup, hpaths]

/-- A service whose name is a false constant. -/
example : ¬ (Contents.mk [] [] ["No".toList] [] []).Told := fun h => h.2 ⟨_, rfl, by decide⟩

end Build

/-! ## A file with a service -/

/-- Behind the line `message Name`. -/
def nameLines : List Str := ["\x7b", "    string text = 1; // \x7b\x7d", "\x7d"].map String.toList

def serviceLines : List Str :=
  ["service Greeter \x7b", "    rpc Greet(Name) returns (Name) \x7b\x7d", "\x7d", ""].map String.toList

/-- `greeter.proto` -/
def greeterLines : List Str :=
  "syntax = \"proto3\";".toList :: "message Name".toList :: (nameLines ++ serviceLines)

theorem plain_of_keyOf {l : Str} (h : keyOf l = none) (k : Key) (name : Str) : ¬ Declares k name l := by
  intro hl
  cases h.symm.trans (keyOf_iff.mpr hl)

theorem nameLines_braced : Braced ("message Name".toList :: nameLines) := by
  refine .later (by decide) (fun name => plain_of_keyOf (by decide) _ name) ?_
  refine @Braced.block _ "\x7d".toList ["    string text = 1; // \x7b\x7d".toList] (by decide) ?_ (by decide)
  exact .line (.inr (by decide)) .nil

theorem nameLines_inner : ∀ x ∈ nameLines, Inner x := by
  intro x hx
  have hkeys : (nameLines.all fun x => (keyOf x).isNone) = true := by decide
  have hkey : keyOf x = none := by simpa using List.all_eq_true.mp hkeys x hx
  exact fun name => ⟨plain_of_keyOf hkey _ name, plain_of_keyOf hkey _ name⟩

theorem greeter_lays : Lays greeterLines ⟨[], ["Name".toList], ["Greeter".toList], [], []⟩ := by
  have hservice : Lays serviceLines ⟨[], [], ["Greeter".toList], [], []⟩ :=
    .service (keyOf_iff.mp (by decide)) (.plain (plain_of_keyOf (by decide))
      (.plain (plain_of_keyOf (by decide)) (.plain (plain_of_keyOf (by decide)) .nil)))
  exact .plain (plain_of_keyOf (by decide))
    (.message (keyOf_iff.mp (by decide)) nameLines_braced nameLines_inner hservice)

/-- In an extra namespace of two parts, with `MULTI` and without a header of the client, or not. -/
def greeterArgs (multi : Bool) : GenerateArgs :=
  { multi := multi
    folder := true
    extraNamespace := "A::B".toList
    excludeHeaders := if multi then ["/greeterclient.h".toList] else [] }

theorem greeter_notMem (multi : Bool) (f : Flag) : f.text ∉ (greeterArgs multi).extraNamespace.splitOn ':' := by
  cases multi <;> cases f <;> decide

theorem greeter_isFolder (multi : Bool) : true = (greeterArgs multi).started.isFolder := by
  rw [started_isFolder (greeter_notMem multi .folder)]
  cases multi <;> rfl

theorem greeter_protoFile : "protos/greeter.proto".toList.rtakeWhile (· != '/') =
    "greeter.proto".toList.rtakeWhile (· != '/') := by decide

theorem greeter_readable : isOff (['\n'].intercalate greeterLines) = false := by decide

theorem greeter_isLine : ∀ l ∈ greeterLines, IsLine l := by
  intro l hl
  have hall : (greeterLines.all fun l =>
      decide ('\n' ∉ l ∧ l.getLast? ≠ some '\\' ∧ brackets l = 0)) = true := by decide
  obtain ⟨hbreak, hlast, hsum⟩ := of_decide_eq_true (List.all_eq_true.mp hall l hl)
  exact ⟨hbreak, hlast, hsum⟩

def greeterBuild (multi : Bool) : Build Unit Unit Empty where
  set := FileSet.greeterFile
  args := greeterArgs multi
  opts := ⟨"A::B".toList, true, ["A".toList, "B".toList], by decide, rfl⟩
  protoFile _ := "protos/greeter.proto".toList
  lines _ := greeterLines
  contents _ := ⟨[], ["Name".toList], ["Greeter".toList], [], []⟩
  isFolder_eq := greeter_isFolder multi
  multi_notMem := greeter_notMem multi .multi
  folder_notMem := greeter_notMem multi .folder
  protoFile_eq _ := greeter_protoFile
  lines_ne _ := List.cons_ne_nil _ _
  readable _ := greeter_readable
  isLine _ := greeter_isLine
  lays _ := greeter_lays
  package_eq _ := rfl
  messages_eq _ := rfl
  services_eq _ := rfl
  topEnums_eq _ := rfl

theorem generatedFiles_multi_greeter :
    (greeterBuild true).args.multi = true ∧
      (greeterBuild true).generatedFiles =
        some (["/name.h", "/name.cpp", "/greeterclient.cpp", "globalenums.h"].map String.toList) ∧
      ((greeterBuild true).writtenFiles.map pathOf).Perm
        (pathOf "globalenums.cpp".toList :: (greeterBuild true).foundFiles.map pathOf) ∧
      ∀ name, name ∈ ["/name.h", "/name.cpp", "/greeterclient.cpp", "globalenums.h"].map String.toList ↔
        name ∈ (greeterBuild true).foundFiles ∧ name ∉ (greeterBuild true).args.excludeHeaders := by
  obtain ⟨hwritten, -, houtputs⟩ := (greeterBuild true).generatedFiles_multi rfl
  have hfiles : (greeterBuild true).generatedFiles =
      some (["/name.h", "/name.cpp", "/greeterclient.cpp", "globalenums.h"].map String.toList) := by decide
  exact ⟨rfl, hfiles, hwritten, (houtputs _ hfiles).2⟩

theorem generatedFiles_single_greeter :
    (greeterBuild false).args.multi = false ∧
      (greeterBuild false).generatedFiles = some (["/greeter.qpb.h", "/greeter.qpb.cpp", "/greeter_grpc.qpb.h",
        "/greeter_grpc.qpb.cpp"].map String.toList) ∧
      (["/greeter.qpb.h", "/greeter.qpb.cpp", "/greeter_grpc.qpb.h",
        "/greeter_grpc.qpb.cpp"].map String.toList).map pathOf = (greeterBuild false).writtenFiles.map pathOf := by
  have hfiles : (greeterBuild false).generatedFiles = some (["/greeter.qpb.h", "/greeter.qpb.cpp",
      "/greeter_grpc.qpb.h", "/greeter_grpc.qpb.cpp"].map String.toList) := by decide
  have hsame := (((greeterBuild false).generatedFiles_single rfl).2 _ hfiles).2
  have htold : ∀ f, ((greeterBuild false).contents f).Told := by
    refine fun _ => ⟨.inr (.inl ⟨List.cons_ne_nil _ _, ?_⟩), ?_⟩
    · rintro ⟨name, hname, hoff⟩
      cases hname
      exact absurd hoff (by decide)
    · rintro ⟨name, hname, hoff⟩
      cases hname
      exact absurd hoff (by decide)
  exact ⟨rfl, hfiles, hsame.mpr ⟨htold, by decide, by decide⟩⟩

end QtProtobuf.Generator.PreParse
