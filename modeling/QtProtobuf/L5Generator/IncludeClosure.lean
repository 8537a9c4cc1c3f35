import QtProtobuf.L5Generator.OutputFiles
import QtProtobuf.L5Generator.QualifiedNames

/-!
# Where the includes lead to opened headers

The name of a header is made of the package and the name of what it is for; the
name in an include line of the path of the proto file, or of a type name with the
package only where it is another package.

* `mem_printNew`: the lines of a header are the names that are the first of their kind.
* `resolves_iff`: a line against the files opened for its owner.
* `includesClosed_single_iff`, `includesClosed_multi_iff`: the conditions for the
  two generators.
* `includesClosed_iff`: both modes, with and without `FOLDER`.
-/
namespace QtProtobuf.Generator

open Lib

theorem header_ne_source (a b : Str) : a ++ ".cpp".toList ≠ b ++ ".h".toList := by
  intro h
  have := congrArg List.getLast? h
  simp at this

/-- The line's name comes up for its owner, and no name before it is the same. -/
def FirstNamed {F M : Type} (names : List (NewInclude F M)) (line : IncludeLine F M) : Prop :=
  ∃ before after, names = before ++ line.asNew :: after ∧ ∀ name ∈ before, name.newInclude ≠ line.newInclude

theorem firstNamed_cons {F M : Type} {name : NewInclude F M} {names : List (NewInclude F M)}
    {line : IncludeLine F M} : FirstNamed (name :: names) line ↔
      name = line.asNew ∨ name.newInclude ≠ line.newInclude ∧ FirstNamed names line := by
  constructor
  · rintro ⟨before, after, heq, hbefore⟩
    cases before with
    | nil => exact .inl (List.cons.inj heq).1
    | cons name' before =>
      obtain ⟨rfl, hrest⟩ := List.cons.inj heq
      exact .inr ⟨hbefore _ List.mem_cons_self, before, after, hrest,
        fun n hn => hbefore n (List.mem_cons_of_mem _ hn)⟩
  · rintro (rfl | ⟨hne, before, after, rfl, hbefore⟩)
    · exact ⟨[], names, rfl, List.forall_mem_nil _⟩
    · exact ⟨name :: before, after, rfl, List.forall_mem_cons.mpr ⟨hne, hbefore⟩⟩

theorem FirstNamed.mem {F M : Type} {names : List (NewInclude F M)} {line : IncludeLine F M}
    (h : FirstNamed names line) : line.asNew ∈ names := by
  obtain ⟨before, after, rfl, -⟩ := h
  simp

/-- **What is printed** is named for the first time. -/
theorem mem_printNew {F M : Type} {existing : List Str} {names : List (NewInclude F M)}
    {line : IncludeLine F M} :
    line ∈ printNew existing names ↔ line.newInclude ∉ existing ∧ FirstNamed names line := by
  induction names generalizing existing with
  | nil =>
    refine iff_of_false (by simp [printNew]) ?_
    rintro ⟨-, h⟩
    exact absurd h.mem (by simp)
  | cons name names ih =>
    obtain ⟨newInclude, owner⟩ := name
    obtain ⟨text, owner'⟩ := line
    rw [printNew, firstNamed_cons]
    by_cases hin : newInclude ∈ existing
    · rw [if_pos hin, ih]
      refine and_congr_right fun hnew => ?_
      have hne : newInclude ≠ text := fun he => hnew (he ▸ hin)
      simp [IncludeLine.asNew, hne]
    · rw [if_neg hin, List.mem_append, ih]
      by_cases he : newInclude = text
      · subst he
        cases owner with
        | none => simp [IncludeLine.asNew]
        | some owner => simp [IncludeLine.asNew, hin, eq_comm]
      · cases owner with
        | none => simp [IncludeLine.asNew, he, Ne.symm he]
        | some owner => simp [IncludeLine.asNew, he, Ne.symm he]

/-- A line against the header and the source that are opened for its owner. -/
theorem resolves_iff {F M : Type} {opened : List (OutputFile F M)} {owner : Owner F M}
    (stem : Str)
    (hopen : ⟨stem ++ ".h".toList, owner⟩ ∈ opened.map fun file => (file.name, file.owner))
    (honly : ∀ file ∈ opened, file.owner = owner →
      file.name = stem ++ ".h".toList ∨ file.name = stem ++ ".cpp".toList)
    (including newInclude : Str) :
    Resolves opened including ⟨newInclude, owner⟩ ↔
      stem = newInclude ∨ stem = directory including ++ newInclude := by
  constructor
  · rintro ⟨file, hf, ho, hn⟩
    rw [← List.append_assoc] at hn
    rcases honly file hf ho with h | h <;> rw [h] at hn
    · exact hn.imp List.append_cancel_right List.append_cancel_right
    · rcases hn with hn | hn <;> exact absurd hn (header_ne_source _ _)
  · intro h
    obtain ⟨file, hf, he⟩ := List.mem_map.mp hopen
    obtain ⟨hn, ho⟩ := Prod.mk.inj he
    refine ⟨file, hf, ho, ?_⟩
    rw [hn, ← List.append_assoc]
    exact h.imp (congrArg (· ++ _)) (congrArg (· ++ _))

namespace FileSet

variable {F M E : Type} {D : FileSet F M E} {opts : GeneratorOptions}

variable (D opts) in
/-- The directory the headers of the file are opened in. -/
def outputDirectory (f : F) : Str := if opts.isFolder then D.packageDirectory f else []

theorem generateBaseName_eq (f : F) (name : Str) :
    D.generateBaseName opts f name = D.outputDirectory opts f ++ name := by
  unfold generateBaseName outputDirectory
  split <;> rfl

theorem directory_outputDirectory (f : F) :
    directory (D.outputDirectory opts f) = D.outputDirectory opts f := by
  unfold outputDirectory packageDirectory
  split
  · refine List.rdropWhile_eq_self_iff.mpr fun hne => ?_
    rcases List.eq_nil_or_concat (utils.split (D.package f) '.') with h | ⟨parts, part, h⟩
    · simp [h] at hne
    · simp [h]
  · rfl

theorem directory_generateBaseName (f : F) {x : Str} (h : '/' ∉ x) :
    directory (D.outputDirectory opts f ++ x) = D.outputDirectory opts f := by
  rw [directory_append h, directory_outputDirectory]

/-! ## One header for each file -/

section
variable [DecidableEq F]

variable (D) in
/-- The file has a header: it declares a message or an enum. -/
def Declares (f : F) : Prop := D.messageTypes f ≠ [] ∨ D.fileEnums f ≠ []

variable (D) in
/-- The header of messages or of services of `f` includes that of `d`: `d` is a
dependency, or the file of a method's type. -/
def IncludesFile (f d : F) : Prop :=
  (D.Declares f ∧ d ∈ D.dependencies f ∧ D.fileName d ≠ "QtProtobuf/QtCore.proto".toList ∧
    D.fileName d ≠ "QtProtobuf/QtGui.proto".toList) ∨ ∃ type ∈ D.foreignTypes f, D.file type = d

/-- What is included has a header, and the directory of its proto file, from the
output root or from the directory of the including header, is the one the header
is opened in. -/
def SingleMatches (D : FileSet F M E) (opts : GeneratorOptions) : Prop :=
  ∀ f d, D.IncludesFile f d → D.Declares d ∧
    (directory (D.fileName d) = D.outputDirectory opts d ∨
      D.outputDirectory opts f ++ directory (D.fileName d) = D.outputDirectory opts d)

variable (D opts) in
/-- The name of the header without `.h`. -/
def messagesStem (f : F) : Str :=
  D.outputDirectory opts f ++ utils.extractFileBasename (D.fileName f) ++ ProtoFileSuffix

variable (D opts) in
def servicesStem (f : F) : Str :=
  D.outputDirectory opts f ++ utils.extractFileBasename (D.fileName f) ++ GrpcFileSuffix ++
    ProtoFileSuffix

variable [DecidableEq M]

theorem mem_generateAll_single {file : OutputFile F M} :
    file ∈ D.generateAll opts .single ↔
      ∃ f, file ∈ D.generateMessages opts f ∨ file ∈ D.generateServices opts f := by
  simp [generateAll, D.mem_files]

omit [DecidableEq F] [DecidableEq M] in
theorem mem_generateMessages {f : F} {file : OutputFile F M} :
    file ∈ D.generateMessages opts f ↔ D.Declares f ∧
      (file = ⟨D.messagesStem opts f ++ ".h".toList, .fileMessages f,
          ((D.dependencies f).filter fun d => D.fileName d != "QtProtobuf/QtCore.proto".toList &&
            D.fileName d != "QtProtobuf/QtGui.proto".toList).map D.fileInclude⟩ ∨
        file = ⟨D.messagesStem opts f ++ ".cpp".toList, .fileMessages f,
          [⟨D.messagesStem opts f, .fileMessages f⟩]⟩) := by
  have hd : (D.messageTypes f).isEmpty && (D.fileEnums f).isEmpty ↔ ¬ D.Declares f := by
    simp [Declares, List.isEmpty_iff]
  rw [generateMessages]
  split
  · next h => simp [hd.mp h]
  · next h =>
    have : D.Declares f := Classical.not_not.mp fun hn => h (hd.mpr hn)
    simp [this, generateBaseName_eq, messagesStem]

omit [DecidableEq M] in
theorem mem_generateServices {f : F} {file : OutputFile F M} :
    file ∈ D.generateServices opts f ↔ D.services f ≠ [] ∧
      (file = ⟨D.servicesStem opts f ++ ".h".toList, .fileServices f,
          ((D.foreignTypes f).map fun type => D.fileInclude (D.file type)) ++
            if (D.messageTypes f).isEmpty then [] else [⟨D.messagesStem opts f, .fileMessages f⟩]⟩ ∨
        file = ⟨D.servicesStem opts f ++ ".cpp".toList, .fileServices f,
          [⟨D.servicesStem opts f, .fileServices f⟩]⟩) := by
  rw [generateServices]
  split
  · next h => simp [List.isEmpty_iff.mp h]
  · next h =>
    have : D.services f ≠ [] := fun hn => h (by simp [hn])
    simp [this, generateBaseName_eq, servicesStem, messagesStem]

theorem resolves_messages {d : F} (hd : D.Declares d) (including newInclude : Str) :
    Resolves (D.generateAll opts .single) including ⟨newInclude, .fileMessages d⟩ ↔
      D.messagesStem opts d = newInclude ∨
        D.messagesStem opts d = directory including ++ newInclude := by
  refine resolves_iff _ ?_ (fun file hf ho => ?_) including newInclude
  · exact List.mem_map.mpr ⟨_, mem_generateAll_single.mpr
      ⟨d, .inl (mem_generateMessages.mpr ⟨hd, .inl rfl⟩)⟩, rfl⟩
  · obtain ⟨f, h | h⟩ := mem_generateAll_single.mp hf
    · obtain ⟨-, rfl | rfl⟩ := mem_generateMessages.mp h <;> cases ho
      · exact .inl rfl
      · exact .inr rfl
    · obtain ⟨-, rfl | rfl⟩ := mem_generateServices.mp h <;> cases ho

theorem declares_of_resolves {d : F} {including newInclude : Str}
    (h : Resolves (D.generateAll opts .single) including ⟨newInclude, .fileMessages d⟩) :
    D.Declares d := by
  obtain ⟨file, hf, ho, -⟩ := h
  obtain ⟨f, h | h⟩ := mem_generateAll_single.mp hf
  · obtain ⟨hd, rfl | rfl⟩ := mem_generateMessages.mp h <;> cases ho <;> exact hd
  · obtain ⟨-, rfl | rfl⟩ := mem_generateServices.mp h <;> cases ho

/-- The line for another file, in a header of `f`. -/
theorem resolves_fileInclude {f d : F} {including : Str}
    (hi : directory including = D.outputDirectory opts f) :
    Resolves (D.generateAll opts .single) including (D.fileInclude d) ↔ D.Declares d ∧
      (directory (D.fileName d) = D.outputDirectory opts d ∨
        D.outputDirectory opts f ++ directory (D.fileName d) = D.outputDirectory opts d) := by
  by_cases hd : D.Declares d
  · obtain ⟨stem, hs⟩ := D.fileName_eq d
    have hname : utils.removeFileSuffix (D.fileName d) =
        directory (D.fileName d) ++ utils.extractFileBasename (D.fileName d) := by
      rw [hs, directory_append_extractFileBasename, utils.removeFileSuffix_proto]
    rw [fileInclude, resolves_messages hd, hi, hname, messagesStem]
    simp only [← List.append_assoc, List.append_cancel_right_eq, hd, true_and]
    exact or_congr eq_comm eq_comm
  · exact ⟨fun h => absurd (declares_of_resolves h) hd, fun h => absurd h.1 hd⟩

omit [DecidableEq F] [DecidableEq M] in
theorem directory_messagesHeader (f : F) :
    directory (D.messagesStem opts f ++ ".h".toList) = D.outputDirectory opts f := by
  rw [messagesStem, List.append_assoc, List.append_assoc]
  refine directory_generateBaseName f fun h => ?_
  rcases List.mem_append.mp h with h | h
  · exact slash_notMem_extractFileBasename _ h
  · exact absurd h (by decide)

omit [DecidableEq F] [DecidableEq M] in
theorem directory_servicesHeader (f : F) :
    directory (D.servicesStem opts f ++ ".h".toList) = D.outputDirectory opts f := by
  rw [servicesStem, List.append_assoc, List.append_assoc, List.append_assoc]
  refine directory_generateBaseName f fun h => ?_
  rcases List.mem_append.mp h with h | h
  · exact slash_notMem_extractFileBasename _ h
  · exact absurd h (by decide)

theorem resolves_services {f : F} (hs : D.services f ≠ []) (including : Str) :
    Resolves (D.generateAll opts .single) including ⟨D.servicesStem opts f, .fileServices f⟩ := by
  refine ⟨_, mem_generateAll_single.mpr ⟨f, .inr (mem_generateServices.mpr ⟨hs, .inl rfl⟩)⟩,
    rfl, .inl rfl⟩

omit [DecidableEq M] in
/-- A type that is declared in another file belongs to a service. -/
theorem services_of_foreignTypes {f : F} {type : M} (h : type ∈ D.foreignTypes f) :
    D.services f ≠ [] := by
  intro hn
  simp [foreignTypes, hn] at h

theorem includesClosed_single_iff :
    IncludesClosed D opts .single ↔ SingleMatches D opts := by
  constructor
  · rintro h f d (⟨hf, hd, hcore, hgui⟩ | ⟨type, ht, rfl⟩)
    · refine (resolves_fileInclude (directory_messagesHeader f)).mp (h _
        (mem_generateAll_single.mpr ⟨f, .inl (mem_generateMessages.mpr ⟨hf, .inl rfl⟩)⟩) _ ?_)
      exact List.mem_map.mpr ⟨d, List.mem_filter.mpr ⟨hd, by simpa using ⟨hcore, hgui⟩⟩, rfl⟩
    · refine (resolves_fileInclude (directory_servicesHeader f)).mp (h _
        (mem_generateAll_single.mpr ⟨f, .inr (mem_generateServices.mpr
          ⟨services_of_foreignTypes ht, .inl rfl⟩)⟩) _ ?_)
      exact List.mem_append.mpr (.inl (List.mem_map.mpr ⟨type, ht, rfl⟩))
  · intro h file hfile line hline
    obtain ⟨f, hf | hf⟩ := mem_generateAll_single.mp hfile
    · obtain ⟨hd, rfl | rfl⟩ := mem_generateMessages.mp hf
      · obtain ⟨d, hmem, rfl⟩ := List.mem_map.mp hline
        obtain ⟨hmem, hqt⟩ := List.mem_filter.mp hmem
        refine (resolves_fileInclude (directory_messagesHeader f)).mpr (h f d (.inl ⟨hd, hmem, ?_⟩))
        simpa using hqt
      · cases List.mem_singleton.mp hline
        exact (resolves_messages hd _ _).mpr (.inl rfl)
    · obtain ⟨hs, rfl | rfl⟩ := mem_generateServices.mp hf
      · rcases List.mem_append.mp hline with hline | hline
        · obtain ⟨type, ht, rfl⟩ := List.mem_map.mp hline
          exact (resolves_fileInclude (directory_servicesHeader f)).mpr
            (h f _ (.inr ⟨type, ht, rfl⟩))
        · split at hline
          · cases hline
          · next hne =>
            cases List.mem_singleton.mp hline
            have hd : D.Declares f := .inl fun hn => hne (by simp [hn])
            exact (resolves_messages hd _ _).mpr (.inl rfl)
      · cases List.mem_singleton.mp hline
        exact resolves_services hs _

end

/-! ## One header for each message -/

variable [DecidableEq F] [DecidableEq M]

theorem mem_generateAll_multi {file : OutputFile F M} :
    file ∈ D.generateAll opts .multi ↔
      file = ⟨"globalenums.h".toList, .globalEnums, []⟩ ∨
      file = ⟨"globalenums.cpp".toList, .globalEnums, [⟨"globalenums".toList, .globalEnums⟩]⟩ ∨
      (∃ m, D.containingType m = none ∧ file ∈ D.messageFiles opts m) ∨
      ∃ f, ∃ service ∈ D.services f, file ∈ D.clientFiles opts f service := by
  simp only [generateAll, List.mem_append, List.mem_cons, List.not_mem_nil, or_false, or_assoc,
    List.mem_flatMap, D.mem_messageTypes]
  refine or_congr_right (or_congr_right ⟨?_, ?_⟩)
  · rintro ⟨f, -, ⟨m, ⟨hm, -⟩, hf⟩ | hf⟩
    · exact .inl ⟨m, hm, hf⟩
    · exact .inr ⟨f, hf⟩
  · rintro (⟨m, hm, hf⟩ | ⟨f, hf⟩)
    · exact ⟨D.file m, D.mem_files _, .inl ⟨m, ⟨hm, rfl⟩, hf⟩⟩
    · exact ⟨f, D.mem_files _, .inr hf⟩

omit [DecidableEq F] in
/-- The directory and the name of a message's header. -/
theorem owner_messageFiles {m : M} {file : OutputFile F M} (h : file ∈ D.messageFiles opts m) :
    file.owner = .message m ∧
      (file.name = D.outputDirectory opts (D.file m) ++ utils.tolower (D.name m) ++ ".h".toList ∨
        file.name = D.outputDirectory opts (D.file m) ++ utils.tolower (D.name m) ++
          ".cpp".toList) := by
  simp only [messageFiles, List.mem_cons, List.not_mem_nil, or_false, generateBaseName_eq] at h
  rcases h with rfl | rfl
  · exact ⟨rfl, .inl rfl⟩
  · exact ⟨rfl, .inr rfl⟩

omit [DecidableEq F] [DecidableEq M] in
theorem owner_clientFiles {f : F} {service : ServiceDescriptor M} {file : OutputFile F M}
    (h : file ∈ D.clientFiles opts f service) : file.owner = .client f service ∧
      (file.name = D.outputDirectory opts f ++ utils.tolower service.name ++ "client".toList ++
          ".h".toList ∨
        file.name = D.outputDirectory opts f ++ utils.tolower service.name ++ "client".toList ++
          ".cpp".toList) := by
  simp only [clientFiles, List.mem_cons, List.not_mem_nil, or_false, generateBaseName_eq] at h
  rcases h with rfl | rfl
  · exact ⟨rfl, .inl (by simp)⟩
  · exact ⟨rfl, .inr (by simp)⟩

omit [DecidableEq F] in
theorem slash_notMem_tolower {s : Str} (h : IsIdentifier s) : '/' ∉ utils.tolower s :=
  ((utils.isIdentifier_tolower h).isWord (by decide)).2

/-- A line for a message, in a file of the message `m`. -/
theorem resolves_message {t : M} (ht : D.containingType t = none) (including newInclude : Str) :
    Resolves (D.generateAll opts .multi) including ⟨newInclude, .message t⟩ ↔
      D.outputDirectory opts (D.file t) ++ utils.tolower (D.name t) = newInclude ∨
        D.outputDirectory opts (D.file t) ++ utils.tolower (D.name t) =
          directory including ++ newInclude := by
  refine resolves_iff _ ?_ (fun file hf ho => ?_) including newInclude
  · refine List.mem_map.mpr ⟨_, mem_generateAll_multi.mpr (.inr (.inr (.inl ⟨t, ht,
      List.mem_cons_self⟩))), ?_⟩
    rw [generateBaseName_eq]
  · rcases mem_generateAll_multi.mp hf with rfl | rfl | ⟨m, -, hm⟩ | ⟨f, s, -, hs⟩
    · cases ho
    · cases ho
    · obtain ⟨ho', hn⟩ := owner_messageFiles hm
      cases ho'.symm.trans ho
      exact hn
    · cases (owner_clientFiles hs).1.symm.trans ho

/-! ### Packages as directories -/

omit [DecidableEq F] [DecidableEq M] in
theorem fieldsAt_packageDirectory (f : F) :
    fieldsAt '/' (D.packageDirectory f) = D.packageParts f := by
  have h : ∀ parts : List Str, (∀ p ∈ parts, IsIdentifier p) →
      fieldsAt '/' (parts.flatMap (· ++ ['/'])) = parts := by
    intro parts hp
    induction parts with
    | nil => simp
    | cons part parts ih =>
      rw [List.flatMap_cons, List.append_assoc, List.singleton_append, fieldsAt_append_cons,
        ((hp part (by simp)).isWord (by decide)).fieldsAt_eq, ih fun p h => hp p (by simp [h])]
      rfl
  exact h _ (D.packageParts_spec f).1

omit [DecidableEq F] [DecidableEq M] in
theorem packageDirectory_inj {f g : F} :
    D.packageDirectory f = D.packageDirectory g ↔ D.package f = D.package g := by
  constructor
  · intro h
    have := congrArg (fieldsAt '/') h
    rw [fieldsAt_packageDirectory, fieldsAt_packageDirectory] at this
    rw [(D.packageParts_spec f).2, this, ← (D.packageParts_spec g).2]
  · intro h
    rw [packageDirectory, h, packageDirectory]

omit [DecidableEq F] [DecidableEq M] in
theorem packageDirectory_eq_nil {f : F} : D.packageDirectory f = [] ↔ D.package f = [] := by
  constructor
  · intro h
    have := congrArg (fieldsAt '/') h
    rw [fieldsAt_packageDirectory, fieldsAt_nil] at this
    rw [(D.packageParts_spec f).2, this]
    rfl
  · intro h
    simp [packageDirectory, h, utils.split]

omit [DecidableEq F] [DecidableEq M] in
theorem findHighestMessage_spec (t : M) :
    D.containingType (D.findHighestMessage t) = none ∧
      D.file (D.findHighestMessage t) = D.file t ∧
      (D.containingType t = none → D.findHighestMessage t = t) := by
  induction hd : D.depth t using Nat.strongRecOn generalizing t with
  | ind d ih =>
    rw [findHighestMessage]
    split
    · next c hc =>
      have := D.depth_eq c t hc
      obtain ⟨h₁, h₂, -⟩ := ih (D.depth c) (by omega) c rfl
      exact ⟨h₁, h₂.trans (D.file_eq c t hc).symm, fun h => by simp [h] at hc⟩
    · next hc => exact ⟨hc, rfl, fun _ => rfl⟩

/-- The line for a message, in a file of `m`: only a package in front of the name
that the header is not opened with goes wrong. -/
theorem resolves_messageInclude {m t : M} (ht : D.containingType t = none) {including : Str}
    (hi : directory including = D.outputDirectory opts (D.file m)) :
    Resolves (D.generateAll opts .multi) including (D.messageInclude m t) ↔
      (D.package (D.file t) ≠ D.package (D.file m) →
        opts.isFolder = true ∨ D.package (D.file t) = []) := by
  rw [messageInclude, resolves_message ht, hi, ← List.append_assoc, List.append_cancel_right_eq,
    List.append_cancel_right_eq, fieldPackage]
  by_cases hp : D.package (D.file t) = D.package (D.file m)
  · have : D.outputDirectory opts (D.file t) = D.outputDirectory opts (D.file m) := by
      rw [outputDirectory, packageDirectory_inj.mpr hp, outputDirectory]
    simp [hp, this]
  · rw [if_neg hp]
    cases hf : opts.isFolder
    · simp [outputDirectory, hf, hp, packageDirectory_eq_nil]
    · simp [outputDirectory, hf]

/-! ### What a message's header includes -/

/-- The fields `printInclude` looks at: those of the entry for a map. -/
def plainFields (D : FileSet F M E) (m : M) : List (FieldDescriptor M E) :=
  (D.fields m).flatMap fun field =>
    match field.messageType with
    | some entry => if D.mapEntry entry then (D.fields entry).take 2 else [field]
    | none => [field]

omit [DecidableEq F] [DecidableEq M] in
theorem isMap_plainFields {m : M} {field : FieldDescriptor M E} (h : field ∈ D.plainFields m) :
    D.isMap field = false := by
  obtain ⟨f, hf, hin⟩ := List.mem_flatMap.mp h
  cases ht : f.messageType with
  | none =>
    rw [ht] at hin
    cases List.mem_singleton.mp hin
    simp [Descriptors.isMap, ht]
  | some entry =>
    rw [ht] at hin
    by_cases he : D.mapEntry entry
    · simp only [he, if_true] at hin
      exact D.mapEntry_fields entry he field (List.mem_of_mem_take hin)
    · simp only [he] at hin
      cases List.mem_singleton.mp hin
      simpa [Descriptors.isMap, ht] using he

omit [DecidableEq F] [DecidableEq M] in
/-- What the full name of an enum is made of. -/
theorem enumFullName_eq (e : E) : D.enumFullName e =
    ['.'].intercalate ((match D.enumContainingType e with
      | some c => D.protoNamespaces c ++ [D.name c]
      | none => D.packageParts (D.enumFile e)) ++ [D.enumName e]) := by
  rw [enumFullName]
  cases D.enumContainingType e with
  | some c =>
    simp only [Descriptors.fullName_eq]
    rw [intercalate_concat (a := D.protoNamespaces c ++ [D.name c]) (by simp) (D.enumName e)]
    rfl
  | none =>
    have hp := (D.packageParts_spec (D.enumFile e)).2
    by_cases he : D.package (D.enumFile e) = []
    · have : D.packageParts (D.enumFile e) = [] := by
        simp [Descriptors.packageParts, he, utils.split]
      simp [he, this, List.intercalate_singleton]
    · have : D.packageParts (D.enumFile e) ≠ [] := fun h => he (by rw [hp, h]; rfl)
      simp only [List.isEmpty_iff, he, if_false]
      rw [intercalate_concat this, ← hp]
      rfl

omit [DecidableEq F] [DecidableEq M] in
theorem isWord_enumFullName (e : E) : ∀ p ∈ (match D.enumContainingType e with
    | some c => D.protoNamespaces c ++ [D.name c]
    | none => D.packageParts (D.enumFile e)) ++ [D.enumName e], IsWord '.' p := by
  intro p hp
  rcases List.mem_append.mp hp with hp | hp
  · cases h : D.enumContainingType e with
    | some c =>
      rw [h] at hp
      exact (Descriptors.isIdentifier_fullName c p hp).dot
    | none =>
      rw [h] at hp
      exact ((D.packageParts_spec _).1 p hp).dot
  · exact List.mem_singleton.mp hp ▸ (D.enumName_identifier e).dot

omit [DecidableEq F] [DecidableEq M] in
/-- A neighbor enum is declared in a message that is not nested, and its line has
the name of that message. -/
theorem neighborEnum_spec {e : E} {m : M} (h : D.enumVisibility e m = .neighborEnum) :
    ∃ c, D.enumContainingType e = some c ∧ D.containingType c = none ∧
      D.enumTypeOwner e = utils.tolower (D.name c) := by
  have hany : ∃ msg ∈ D.messageTypes (D.enumFile e), ∃ e' ∈ D.messageEnums msg,
      D.enumFullName e = D.enumFullName e' := by
    rw [enumVisibility] at h
    split at h
    · cases h
    · split at h
      · next hany => simpa using hany
      · cases h
  obtain ⟨msg, hmsg, e', he', hname⟩ := hany
  obtain ⟨htop, hfile⟩ := (D.mem_messageTypes _ _).mp hmsg
  have hc' := (D.mem_messageEnums _ _).mp he'
  have hsplit := congrArg (utils.split · '.') hname
  simp only [enumFullName_eq] at hsplit
  rw [utils.split_intercalate (isWord_enumFullName e),
    utils.split_intercalate (isWord_enumFullName e'), hc'] at hsplit
  have hparts := (List.append_inj' hsplit rfl).1
  simp only [Descriptors.protoNamespaces, Descriptors.containers_top htop, hfile] at hparts
  cases hc : D.enumContainingType e with
  | none => simp [hc] at hparts
  | some c =>
    rw [hc] at hparts
    have hcont : D.containers c = [] := by
      have hlen := congrArg List.length hparts
      simp only [D.enumFile_eq c e hc, List.length_append, List.length_map, List.map_nil] at hlen
      exact List.length_eq_zero_iff.mp (by simpa using hlen)
    refine ⟨c, rfl, Descriptors.containers_eq_nil.mp hcont, ?_⟩
    have hw := isWord_enumFullName (D := D) e
    rw [hc] at hw
    rw [enumTypeOwner, enumFullName_eq, hc, utils.split_intercalate hw]
    simp [List.getD_eq_getElem?_getD]

omit [DecidableEq F] in
theorem mem_newIncludes {m : M} {name : NewInclude F M} (h : name ∈ D.newIncludes m) :
    (∃ field ∈ D.plainFields m, D.printTypeInclude m field = some name) ∨ name = ⟨"QMap".toList, none⟩ ∨
      ∃ t, name = (D.messageInclude m (D.findHighestMessage t)).asNew := by
  rcases List.mem_append.mp h with h | h
  · obtain ⟨field, hfield, hname⟩ := List.mem_flatMap.mp h
    have hplain : (∃ entry, field.messageType = some entry ∧ D.mapEntry entry = true) ∨ field ∈ D.plainFields m ∧
        D.printInclude m field = (D.printTypeInclude m field).toList := by
      cases ht : field.messageType with
      | none => exact .inr ⟨List.mem_flatMap.mpr ⟨field, hfield, by simp [ht]⟩, by simp [printInclude, ht]⟩
      | some entry =>
        cases hmap : D.mapEntry entry with
        | true => exact .inl ⟨entry, rfl, hmap⟩
        | false =>
          exact .inr ⟨List.mem_flatMap.mpr ⟨field, hfield, by simp [ht, hmap]⟩, by simp [printInclude, ht, hmap]⟩
    rcases hplain with ⟨entry, ht, hmap⟩ | ⟨hplain, hprint⟩
    · simp only [printInclude, ht, hmap, if_true, List.mem_append, List.mem_filterMap, List.mem_singleton] at hname
      rcases hname with ⟨part, hpart, hname⟩ | hname
      · exact .inl ⟨part, List.mem_flatMap.mpr ⟨field, hfield, by simpa [ht, hmap] using hpart⟩, hname⟩
      · exact .inr (.inl hname)
    · rw [hprint, Option.mem_toList] at hname
      exact .inl ⟨field, hplain, hname⟩
  · obtain ⟨t, -, rfl⟩ := List.mem_map.mp h
    exact .inr (.inr ⟨t, rfl⟩)

omit [DecidableEq F] in
/-- An internal line of a message's header is for a message that is not nested; the
package is in front of the name, or nothing (enums). -/
theorem owner_newIncludes {m : M} {line : IncludeLine F M} (h : line.asNew ∈ D.newIncludes m) :
    ∃ t, D.containingType t = none ∧
      (line = D.messageInclude m t ∨ line = ⟨utils.tolower (D.name t), .message t⟩) := by
  have hline : ∀ {line' : IncludeLine F M}, line.asNew = line'.asNew → line = line' := by
    rintro ⟨text', owner'⟩ he
    obtain ⟨text, owner⟩ := line
    simpa [IncludeLine.asNew] using he
  have hother : ∀ {text : Str}, some (⟨text, none⟩ : NewInclude F M) ≠ some line.asNew := by
    intro text he
    exact absurd (congrArg NewInclude.owner (Option.some.inj he)) (by simp [IncludeLine.asNew])
  rcases mem_newIncludes h with ⟨field, hfield, hname⟩ | hname | ⟨t, hname⟩
  · rw [printTypeInclude] at hname
    split at hname
    · next t hk =>
      have hentry : D.mapEntry t = false := by
        simpa [Descriptors.isMap, FieldDescriptor.messageType, hk] using isMap_plainFields hfield
      split at hname
      · exact absurd hname hother
      · split at hname
        · next hnested =>
          have htop : D.containingType t = none := by
            have hnot : ¬ D.isNested t = true := by simpa using hnested
            rw [Descriptors.isNested_iff hentry] at hnot
            simpa using hnot
          exact ⟨t, htop, .inl (hline (Option.some.inj hname).symm)⟩
        · split at hname
          · dsimp only at hname
            split at hname
            · exact ⟨_, (findHighestMessage_spec t).1, .inl (hline (Option.some.inj hname).symm)⟩
            · exact absurd hname hother
          · exact absurd hname hother
    · exact absurd hname hother
    · exact absurd hname hother
    · next e hk =>
      split at hname
      · exact absurd hname hother
      · next hv =>
        obtain ⟨c, hc, htop, howner⟩ := neighborEnum_spec hv
        rw [hc, howner] at hname
        have hbare : line = ⟨utils.tolower (D.name c), .message c⟩ := hline (Option.some.inj hname).symm
        exact ⟨c, htop, .inr hbare⟩
      · cases hname
    · cases hname
  · exact absurd (congrArg some hname.symm) hother
  · exact ⟨_, (findHighestMessage_spec t).1, .inl (hline hname)⟩

omit [DecidableEq F] in
theorem top_newIncludes {m t : M} {line : IncludeLine F M} (h : line.asNew ∈ D.newIncludes m)
    (ht : line.owner = .message t) : D.containingType t = none := by
  obtain ⟨t', htop, rfl | rfl⟩ := owner_newIncludes h
  · cases ht
    exact htop
  · cases ht
    exact htop

/-- There are no services; of the names that a header's types give (a message's is its own
behind another package's directories, an enum's that of the message around it), each that is
the first of its text leads there: without `FOLDER` no message of another package has a
package, and with it the enums of other messages are in the package of the message that
refers to them, or in none. -/
structure MultiMatches (D : FileSet F M E) (opts : GeneratorOptions) : Prop where
  noServices : ∀ f, D.services f = []
  messages : ∀ m, D.containingType m = none → ∀ t, FirstNamed (D.newIncludes m) (D.messageInclude m t) →
    D.package (D.file t) ≠ D.package (D.file m) → opts.isFolder = true ∨ D.package (D.file t) = []
  enums : ∀ m, D.containingType m = none → ∀ c,
    FirstNamed (D.newIncludes m) ⟨utils.tolower (D.name c), .message c⟩ → opts.isFolder = true →
      D.package (D.file c) = [] ∨ D.package (D.file c) = D.package (D.file m)

omit [DecidableEq F] [DecidableEq M] in
theorem directory_messageHeader (D : FileSet F M E) (opts : GeneratorOptions) (m : M)
    (suffix : Str) (h : '/' ∉ suffix) :
    directory (D.generateBaseName opts (D.file m) (utils.tolower (D.name m)) ++ suffix) =
      D.outputDirectory opts (D.file m) := by
  rw [generateBaseName_eq, List.append_assoc]
  refine directory_generateBaseName _ fun hin => ?_
  exact (List.mem_append.mp hin).elim (slash_notMem_tolower (D.name_identifier m)) h

/-- The line for the message around an enum, in a file of `m`. -/
theorem resolves_bare {m c : M} (htop : D.containingType c = none) {including : Str}
    (hi : directory including = D.outputDirectory opts (D.file m)) :
    Resolves (D.generateAll opts .multi) including ⟨utils.tolower (D.name c), .message c⟩ ↔
      (opts.isFolder = true →
        D.package (D.file c) = [] ∨ D.package (D.file c) = D.package (D.file m)) := by
  rw [resolves_message htop, hi, List.append_cancel_right_eq]
  cases hf : opts.isFolder
  · simp [outputDirectory, hf]
  · simp [outputDirectory, hf, packageDirectory_eq_nil, packageDirectory_inj]

/-- The client's own header is opened with `client` behind the name. -/
theorem not_resolves_client {f : F} {service : ServiceDescriptor M}
    (hs : service ∈ D.services f) : ¬ Resolves (D.generateAll opts .multi)
      (D.generateBaseName opts f (utils.tolower service.name) ++ "client.cpp".toList)
      ⟨utils.tolower service.name, .client f service⟩ := by
  have hdir : directory (D.generateBaseName opts f (utils.tolower service.name) ++
      "client.cpp".toList) = D.outputDirectory opts f := by
    rw [generateBaseName_eq, List.append_assoc]
    refine directory_generateBaseName _ fun hin => ?_
    exact (List.mem_append.mp hin).elim
      (slash_notMem_tolower (D.service_identifier f service hs)) (by decide)
  rw [resolves_iff (D.outputDirectory opts f ++ utils.tolower service.name ++ "client".toList)
    ?_ ?_, hdir]
  · have hlen : "client".toList.length = 6 := rfl
    rintro (h | h)
    all_goals
      have := congrArg List.length h
      simp only [List.length_append, hlen] at this
      omega
  · refine List.mem_map.mpr ⟨_, mem_generateAll_multi.mpr (.inr (.inr (.inr ⟨f, service, hs,
      List.mem_cons_self⟩))), ?_⟩
    simp [generateBaseName_eq]
  · intro file hf ho
    rcases mem_generateAll_multi.mp hf with rfl | rfl | ⟨m, -, hm⟩ | ⟨f', s', -, hs'⟩
    · cases ho
    · cases ho
    · cases (owner_messageFiles hm).1.symm.trans ho
    · obtain ⟨ho', hn⟩ := owner_clientFiles hs'
      cases ho'.symm.trans ho
      exact hn

theorem MultiMatches.includesClosed (h : MultiMatches D opts) :
    IncludesClosed D opts .multi := by
  intro file hfile line hline
  rcases mem_generateAll_multi.mp hfile with rfl | rfl | ⟨m, hm, hfm⟩ | ⟨f, s, hs, -⟩
  · cases hline
  · cases List.mem_singleton.mp hline
    exact ⟨_, mem_generateAll_multi.mpr (.inl rfl), rfl, .inl rfl⟩
  · rcases List.mem_pair.mp hfm with rfl | rfl
    · have hi := directory_messageHeader D opts m ".h".toList (by decide)
      obtain ⟨-, hfirst⟩ := mem_printNew.mp hline
      obtain ⟨t, htop, rfl | rfl⟩ := owner_newIncludes hfirst.mem
      · exact (resolves_messageInclude htop hi).mpr (h.messages m hm t hfirst)
      · exact (resolves_bare htop hi).mpr (h.enums m hm t hfirst)
    · cases List.mem_singleton.mp hline
      rw [resolves_message hm, directory_messageHeader D opts m _ (by decide)]
      exact .inr rfl
  · simp [h.noServices f] at hs

/-- A line that is printed into the header of a message. -/
theorem resolves_of_includesClosed (h : IncludesClosed D opts .multi) {m : M} (hm : D.containingType m = none)
    {line : IncludeLine F M} (hline : FirstNamed (D.newIncludes m) line) :
    Resolves (D.generateAll opts .multi)
      (D.generateBaseName opts (D.file m) (utils.tolower (D.name m)) ++ ".h".toList) line :=
  h _ (mem_generateAll_multi.mpr (.inr (.inr (.inl ⟨m, hm, List.mem_cons_self⟩)))) line
    (mem_printNew.mpr ⟨List.not_mem_nil, hline⟩)

theorem multiMatches_of_includesClosed (h : IncludesClosed D opts .multi) :
    MultiMatches D opts where
  noServices f := by
    cases hs : D.services f with
    | nil => rfl
    | cons s _ =>
      have hs : s ∈ D.services f := by simp [hs]
      have hsource : ⟨D.generateBaseName opts f (utils.tolower s.name) ++ "client.cpp".toList,
          .client f s, [⟨utils.tolower s.name, .client f s⟩]⟩ ∈ D.clientFiles opts f s :=
        List.mem_cons_of_mem _ List.mem_cons_self
      exact absurd (h _ (mem_generateAll_multi.mpr (.inr (.inr (.inr ⟨f, s, hs, hsource⟩)))) _
        List.mem_cons_self) (not_resolves_client hs)
  messages m hm t hfirst :=
    (resolves_messageInclude (top_newIncludes hfirst.mem rfl) (directory_messageHeader D opts m _ (by decide))).mp
      (resolves_of_includesClosed h hm hfirst)
  enums m hm c hfirst :=
    (resolves_bare (top_newIncludes hfirst.mem rfl) (directory_messageHeader D opts m _ (by decide))).mp
      (resolves_of_includesClosed h hm hfirst)

theorem includesClosed_multi_iff :
    IncludesClosed D opts .multi ↔ MultiMatches D opts :=
  ⟨multiMatches_of_includesClosed, MultiMatches.includesClosed⟩

theorem includesClosed_iff (D : FileSet F M E) (opts : GeneratorOptions) :
    (IncludesClosed D opts .single ↔ SingleMatches D opts) ∧
      (IncludesClosed D opts .multi ↔ MultiMatches D opts) :=
  ⟨includesClosed_single_iff, includesClosed_multi_iff⟩

/-! ## A service in a file of its own -/

/-- `service Greeter { rpc Greet(Name) returns (Name); }` -/
def greeter : ServiceDescriptor Unit :=
  ⟨"Greeter".toList, [⟨"Greet".toList, (), ()⟩]⟩

/-- `greeter.proto`: `message Name { string text = 1; }` and the service. -/
def greeterFile : FileSet Unit Unit Empty where
  package _ := []
  services _ := [greeter]
  file _ := ()
  name _ := "Name".toList
  fields _ := [⟨.string, false⟩]
  nestedTypes _ := []
  containingType _ := none
  mapEntry _ := false
  depth _ := 0
  maxDepth := 1
  package_eq _ := noPackage
  name_identifier _ := by decide
  service_identifier _ s hs := List.mem_singleton.mp hs ▸ by decide
  mem_nestedTypes _ _ := by simp
  distinct _ := List.nodup_nil
  file_eq _ _ _ := rfl
  depth_eq _ _ h := by cases h
  depth_lt _ := by decide
  mapEntry_nestedTypes _ _ := rfl
  mapEntry_field _ h := by cases h
  files := [()]
  mem_files _ := by simp
  fileName _ := "greeter.proto".toList
  dependencies _ := []
  messageTypes _ := [()]
  fileEnums _ := []
  enumName e := nomatch e
  enumFile _ := ()
  enumContainingType _ := none
  messageEnums _ := []
  fileName_eq _ := ⟨"greeter".toList, rfl⟩
  mem_messageTypes _ _ := by simp
  mem_fileEnums _ e := nomatch e
  mem_messageEnums _ e := nomatch e
  enumFile_eq _ e := nomatch e
  enumName_identifier e := nomatch e
  mapEntry_fields _ h := by cases h

/-- `greeterclient.cpp` includes `greeter.h`. -/
theorem not_includesClosed_greeter : ¬ IncludesClosed greeterFile noOptions .multi := by
  intro h
  have := (multiMatches_of_includesClosed h).noServices ()
  simp [greeterFile] at this

end FileSet

end QtProtobuf.Generator
