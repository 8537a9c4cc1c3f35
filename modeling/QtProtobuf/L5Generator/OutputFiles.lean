import QtProtobuf.L5Generator.Names

/-!
# The files the generators open

Model of `SingleFileGenerator` and `MultiFileGenerator` as far as files go: the
names that are opened, and in each file the lines printed with
`Templates::InternalIncludeTemplate`. A file and a line carry what they are for
(`Owner`), which the generator knows where it computes the name. The generator of one
header for each file prints a set of names, whose lines stand for all that gave the name;
the other one prints a name where it comes up first (`printNew`).
-/
namespace QtProtobuf.Generator

/-- A set of proto files that is given to the generator as a whole. -/
structure FileSet (F M E : Type) extends Descriptors F M E where
  files : List F
  mem_files : ∀ f, f ∈ files
  fileName : F → Str
  dependencies : F → List F
  messageTypes : F → List M
  fileEnums : F → List E
  enumName : E → Str
  enumFile : E → F
  enumContainingType : E → Option M
  messageEnums : M → List E
  fileName_eq : ∀ f, ∃ stem, fileName f = stem ++ ".proto".toList
  mem_messageTypes : ∀ f m, m ∈ messageTypes f ↔ containingType m = none ∧ file m = f
  mem_fileEnums : ∀ f e, e ∈ fileEnums f ↔ enumContainingType e = none ∧ enumFile e = f
  mem_messageEnums : ∀ m e, e ∈ messageEnums m ↔ enumContainingType e = some m
  enumFile_eq : ∀ m e, enumContainingType e = some m → enumFile e = file m
  enumName_identifier : ∀ e, IsIdentifier (enumName e)
  /-- a map entry is the type of no value of a map -/
  mapEntry_fields : ∀ m, mapEntry m = true → ∀ f ∈ fields m, toDescriptors.isMap f = false

/-- What a file is opened for, and an include line is printed for. -/
inductive Owner (F M : Type) where
  | fileMessages (f : F)
  | fileServices (f : F)
  | message (m : M)
  | client (f : F) (service : ServiceDescriptor M)
  | globalEnums

/-- A line `#include "newInclude.h"`. -/
structure IncludeLine (F M : Type) where
  newInclude : Str
  owner : Owner F M

/-- A name that is worked out for a header: of an internal line, if it has an owner. -/
structure NewInclude (F M : Type) where
  newInclude : Str
  owner : Option (Owner F M) := none

def IncludeLine.asNew {F M : Type} (line : IncludeLine F M) : NewInclude F M :=
  ⟨line.newInclude, some line.owner⟩

/-- The internal lines, of the names that do not exist yet.
mirrors src/generator/generatorbase.cpp:160-163 -/
def printNew {F M : Type} (existingIncludes : List Str) : List (NewInclude F M) → List (IncludeLine F M)
  | [] => []
  | ⟨newInclude, owner⟩ :: rest =>
    if newInclude ∈ existingIncludes then printNew existingIncludes rest
    else (owner.map (⟨newInclude, ·⟩)).toList ++ printNew (newInclude :: existingIncludes) rest

structure OutputFile (F M : Type) where
  name : Str
  owner : Owner F M
  includes : List (IncludeLine F M)

namespace FileSet

variable {F M E : Type} (D : FileSet F M E)

/-- `full_name()` of an enum -/
def enumFullName (e : E) : Str :=
  match D.enumContainingType e with
  | some c => D.fullName c ++ '.' :: D.enumName e
  | none =>
    if (D.package (D.enumFile e)).isEmpty then D.enumName e
    else D.package (D.enumFile e) ++ '.' :: D.enumName e

inductive EnumVisibility where
  | globalEnum | localEnum | neighborEnum
  deriving DecidableEq

/-- mirrors src/generator/generatorcommon.cpp:362-376 -/
def isLocalEnum (type : E) (scope : M) : Bool :=
  (D.messageEnums scope).any fun e => D.enumFullName e == D.enumFullName type

/-- mirrors src/generator/generatorcommon.cpp:378-397 -/
def enumVisibility (type : E) (scope : M) : EnumVisibility :=
  if D.isLocalEnum type scope then .localEnum
  else if (D.messageTypes (D.enumFile type)).any fun msg =>
      (D.messageEnums msg).any fun e => D.enumFullName type == D.enumFullName e
    then .neighborEnum
  else .globalEnum

/-- The field is one of a message in `file`, its type is `type`.
mirrors src/generator/generatorcommon.cpp:268-273 -/
def isQtType (file : F) (type : M) : Bool :=
  common.getNamespaces (some (D.fullName type)) == ["QtProtobuf".toList] &&
    D.package file != "QtProtobuf".toList

/-- mirrors src/generator/generatorcommon.cpp:492-499 -/
def findHighestMessage (m : M) : M :=
  match _h : D.containingType m with
  | some c => findHighestMessage c
  | none => m
termination_by D.depth m
decreasing_by
  have := D.depth_eq c m _h
  omega

/-- The types of the fields for which `isPureMessage` holds; the fields are those
of a message in `file`. -/
def pureMessages (file : F) (m : M) : List M :=
  (D.fields m).filterMap fun field =>
    match field.messageType with
    | some t =>
      if !D.isMap field && !field.isRepeated && !D.isQtType file t then some t else none
    | none => none

variable (opts : GeneratorOptions)

/-- The package as directories. -/
def packageDirectory (f : F) : Str :=
  (utils.split (D.package f) '.').flatMap (· ++ ['/'])

/-- mirrors src/generator/generatorbase.cpp:53-68 -/
def generateBaseName (f : F) (name : Str) : Str :=
  if opts.isFolder then D.packageDirectory f ++ name else name

/-- The directories an include of a message of another package has in front. -/
def fieldPackage (message type : M) : Str :=
  if D.package (D.file type) = D.package (D.file message) then []
  else D.packageDirectory (D.file type)

/-- The line for the header of a message that is not nested. -/
def messageInclude (message type : M) : IncludeLine F M :=
  ⟨D.fieldPackage message type ++ utils.tolower (D.name type), .message type⟩

/-- The part of a full name before the last one. -/
def enumTypeOwner (e : E) : Str :=
  let parts := utils.split (D.enumFullName e) '.'
  utils.tolower (parts.getD (parts.length - 2) [])

variable [DecidableEq M]

/-- `printInclude` for a field that is no map; `none` if it returns early.
mirrors src/generator/generatorbase.cpp:86-158 -/
def printTypeInclude (message : M) (field : FieldDescriptor M E) : Option (NewInclude F M) :=
  match field.kind with
  | .message t =>
    if D.isQtType (D.file message) t then some ⟨D.name t, none⟩
    else if !D.isNested t then some (D.messageInclude message t).asNew
    else if D.containingType t != some message then
      let containingMessage := D.findHighestMessage t
      if containingMessage ≠ message then some (D.messageInclude message containingMessage).asNew
      else some ⟨[], none⟩
    else some ⟨[], none⟩
  | .bytes => some ⟨"QByteArray".toList, none⟩
  | .string => some ⟨"QString".toList, none⟩
  | .enum e =>
    match D.enumVisibility e message with
    | .globalEnum => some ⟨[], none⟩
    | .neighborEnum =>
      some ⟨D.enumTypeOwner e, some (match D.enumContainingType e with
        | some c => .message c
        | none => .globalEnums)⟩
    | .localEnum => none
  | .basic => none

/-- The names in the order they are tested in.
mirrors src/generator/generatorbase.cpp:80-164 -/
def printInclude (message : M) (field : FieldDescriptor M E) : List (NewInclude F M) :=
  match field.messageType with
  | some entry =>
    if D.mapEntry entry then
      ((D.fields entry).take 2).filterMap (D.printTypeInclude message) ++ [⟨"QMap".toList, none⟩]
    else (D.printTypeInclude message field).toList
  | none => (D.printTypeInclude message field).toList

/-- mirrors src/generator/multifilegenerator.cpp:186-201 -/
def findNestedDependency (message : M) : List M :=
  (D.iterateNestedMessages message).attach.flatMap fun n =>
    D.pureMessages (D.file n.1) n.1 ++ findNestedDependency n.1
termination_by D.maxDepth - D.depth message
decreasing_by exact D.depth_decreases n.2

/-- The messages behind `deps` -/
def dependencyMessages (message : M) : List M :=
  D.findNestedDependency message ++ D.pureMessages (D.file message) message

/-! ## One header for each message -/

/-- The names for the header of the message.
mirrors src/generator/multifilegenerator.cpp:88-119 -/
def newIncludes (message : M) : List (NewInclude F M) :=
  (D.fields message).flatMap (D.printInclude message) ++
    (D.dependencyMessages message).map fun dependency =>
      (D.messageInclude message (D.findHighestMessage dependency)).asNew

/-- The header and the source of a message.
mirrors src/generator/multifilegenerator.cpp:65-149 -/
def messageFiles (message : M) : List (OutputFile F M) :=
  let includeFileName := utils.tolower (D.name message)
  let baseFilename := D.generateBaseName opts (D.file message) includeFileName
  [⟨baseFilename ++ ".h".toList, .message message, printNew [] (D.newIncludes message)⟩,
    ⟨baseFilename ++ ".cpp".toList, .message message, [⟨includeFileName, .message message⟩]⟩]

omit [DecidableEq M] in
/-- The lines of a client header: the types of the methods.
mirrors src/generator/servicedeclarationprinterbase.cpp:49-66 -/
def clientIncludes (service : ServiceDescriptor M) : List (IncludeLine F M) :=
  service.methods.flatMap fun method => [method.inputType, method.outputType].map fun type =>
    ⟨utils.tolower (D.name type), .message (D.findHighestMessage type)⟩

/-- mirrors src/generator/multifilegenerator.cpp:151-182 -/
def clientFiles (f : F) (service : ServiceDescriptor M) : List (OutputFile F M) :=
  let includeFileName := utils.tolower service.name
  let baseFilename := D.generateBaseName opts f includeFileName
  [⟨baseFilename ++ "client.h".toList, .client f service, D.clientIncludes service⟩,
    ⟨baseFilename ++ "client.cpp".toList, .client f service,
      [⟨includeFileName, .client f service⟩]⟩]

/-! ## One header for each file -/

variable [DecidableEq F]

/-- `Templates::ProtoFileSuffix` -/
def ProtoFileSuffix : Str := ".qpb".toList

/-- `Templates::GrpcFileSuffix` -/
def GrpcFileSuffix : Str := "_grpc".toList

omit [DecidableEq M] [DecidableEq F] in
/-- The line for the header of another file. -/
def fileInclude (f : F) : IncludeLine F M :=
  ⟨utils.removeFileSuffix (D.fileName f) ++ ProtoFileSuffix, .fileMessages f⟩

omit [DecidableEq M] [DecidableEq F] in
/-- mirrors src/generator/singlefilegenerator.cpp:68-167 -/
def generateMessages (f : F) : List (OutputFile F M) :=
  if (D.messageTypes f).isEmpty && (D.fileEnums f).isEmpty then []
  else
    let basename := D.generateBaseName opts f (utils.extractFileBasename (D.fileName f))
    let dependencies := (D.dependencies f).filter fun d =>
      D.fileName d != "QtProtobuf/QtCore.proto".toList &&
        D.fileName d != "QtProtobuf/QtGui.proto".toList
    [⟨basename ++ ProtoFileSuffix ++ ".h".toList, .fileMessages f, dependencies.map D.fileInclude⟩,
      ⟨basename ++ ProtoFileSuffix ++ ".cpp".toList, .fileMessages f,
        [⟨basename ++ ProtoFileSuffix, .fileMessages f⟩]⟩]

omit [DecidableEq M] in
/-- The types of the methods that are declared in other files. -/
def foreignTypes (f : F) : List M :=
  ((D.services f).flatMap fun service => service.methods.flatMap fun method =>
    [method.inputType, method.outputType]).filter fun type => D.file type ≠ f

omit [DecidableEq M] in
/-- mirrors src/generator/singlefilegenerator.cpp:170-256 -/
def generateServices (f : F) : List (OutputFile F M) :=
  if (D.services f).isEmpty then []
  else
    let basename := D.generateBaseName opts f (utils.extractFileBasename (D.fileName f))
    let ownMessages : List (IncludeLine F M) :=
      if (D.messageTypes f).isEmpty then [] else [⟨basename ++ ProtoFileSuffix, .fileMessages f⟩]
    [⟨basename ++ GrpcFileSuffix ++ ProtoFileSuffix ++ ".h".toList, .fileServices f,
        ((D.foreignTypes f).map fun type => D.fileInclude (D.file type)) ++ ownMessages⟩,
      ⟨basename ++ GrpcFileSuffix ++ ProtoFileSuffix ++ ".cpp".toList, .fileServices f,
        [⟨basename ++ GrpcFileSuffix ++ ProtoFileSuffix, .fileServices f⟩]⟩]

/-! ## What is generated -/

inductive Mode where
  | single | multi
  deriving DecidableEq

/-- mirrors src/generator/singlefilegenerator.cpp:54-66 and
src/generator/multifilegenerator.cpp:204-235 -/
def generateAll : Mode → List (OutputFile F M)
  | .single => D.files.flatMap fun f => D.generateMessages opts f ++ D.generateServices opts f
  | .multi =>
    [⟨"globalenums.h".toList, .globalEnums, []⟩,
      ⟨"globalenums.cpp".toList, .globalEnums, [⟨"globalenums".toList, .globalEnums⟩]⟩] ++
      D.files.flatMap fun f =>
        (D.messageTypes f).flatMap (D.messageFiles opts) ++
          (D.services f).flatMap (D.clientFiles opts f)

end FileSet

/-- The line, in the file `including`, names a header that is opened for its
owner, from the output root or from the directory of `including`. -/
def Resolves {F M : Type} (opened : List (OutputFile F M)) (including : Str)
    (line : IncludeLine F M) : Prop :=
  ∃ file ∈ opened, file.owner = line.owner ∧
    (file.name = line.newInclude ++ ".h".toList ∨
      file.name = directory including ++ (line.newInclude ++ ".h".toList))

/-- Every internal include line leads to the header it is for. -/
def IncludesClosed {F M E : Type} [DecidableEq M] [DecidableEq F] (D : FileSet F M E)
    (opts : GeneratorOptions) (mode : FileSet.Mode) : Prop :=
  ∀ file ∈ D.generateAll opts mode, ∀ line ∈ file.includes,
    Resolves (D.generateAll opts mode) file.name line

end QtProtobuf.Generator
