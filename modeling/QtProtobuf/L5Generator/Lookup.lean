import QtProtobuf.L5Generator.OutputFiles
import QtProtobuf.L5Generator.QualifiedNames

/-!
# What the generated code declares

C++ looks for the first part of a name from the scope outwards, and stops in the first
scope that declares it. `Hides` says which do: the namespaces of packages and beside
messages, the classes of messages, the helper classes of enums and the clients. The
files of a set count as one program, whatever is declared first; the classes that
headers declare forward are left out. A class has its own name inside as well, where it
is the same class.
-/
namespace QtProtobuf.Generator

/-- What else is declared in a scope. The types are the enum of the field numbers and
those of `QObject`; the members are functions, data members and enumerators. -/
structure OtherNames where
  types : List Str → List Str
  members : List Str → List Str

/-- The scope inside the client class of a service. -/
def Descriptors.clientScope {F M E : Type} (D : Descriptors F M E) (opts : GeneratorOptions) (f : F)
    (service : ServiceDescriptor M) : List Str :=
  (withExtraNamespace opts (D.packageParts f)).flatMap components ++
    [utils.upperCaseName service.name ++ "Client".toList]

namespace FileSet

variable {F M E : Type} (D : FileSet F M E) (opts : GeneratorOptions)

/-- `Templates::EnumClassSuffix` -/
def EnumClassSuffix : Str := "Gadget".toList

/-- The namespaces of the enums and the clients of a file. -/
def packageScope (f : F) : List Str :=
  (Descriptors.withExtraNamespace opts (D.packageParts f)).flatMap components

/-- The scope inside the helper class of an enum. -/
def gadgetScope (e : E) : List Str :=
  D.packageScope opts (D.enumFile e) ++ [utils.upperCaseName (D.enumName e) ++ EnumClassSuffix]

/-- An enum and the alias of its list.
mirrors src/generator/templates.cpp:74-107 -/
def enumTypes (e : E) : List Str :=
  let name := utils.upperCaseName (D.enumName e)
  [name, name ++ Descriptors.ListSuffix]

/-- The namespace, the class and the alias of the list.
mirrors src/generator/messagedeclarationprinter.cpp:76-91 -/
def classTypes (m : M) : List Str :=
  let name := D.classname m
  [name, name ++ Descriptors.ListSuffix, name ++ Descriptors.QtProtobufNestedNamespace]

variable [DecidableEq M]

/-- The enums, and the aliases of nested messages and of maps.
mirrors src/generator/messagedeclarationprinter.cpp:154-175 and
src/generator/messagedeclarationprinter.cpp:345-380 -/
def memberTypes (m : M) : List Str :=
  (D.messageEnums m).flatMap D.enumTypes ++
    (D.iterateNestedMessages m).flatMap (fun n => [D.classname n, D.classname n ++ Descriptors.ListSuffix]) ++
    ((D.fields m).filterMap (·.messageType)).filterMap fun entry =>
      if D.mapEntry entry then some (D.classname entry) else none

/-- The scope declares a namespace or a type of that name. -/
inductive TypeIn (others : OtherNames) : List Str → Str → Prop where
  | opened {scope ns : List Str} {m : M} {name : Str} :
      D.Declared opts ns m → scope ++ [name] <+: ns → TypeIn others scope name
  | package {scope : List Str} {f : F} {name : Str} : D.services f ≠ [] ∨ D.fileEnums f ≠ [] →
      scope ++ [name] <+: D.packageScope opts f → TypeIn others scope name
  | message {ns : List Str} {m : M} {name : Str} :
      D.Declared opts ns m → name ∈ D.classTypes m → TypeIn others ns name
  | member {ns : List Str} {m : M} {name : Str} :
      D.Declared opts ns m → name ∈ D.memberTypes m → TypeIn others (ns ++ [D.classname m]) name
  | gadget {f : F} {e : E} : e ∈ D.fileEnums f →
      TypeIn others (D.packageScope opts f) (utils.upperCaseName (D.enumName e) ++ EnumClassSuffix)
  | enum {f : F} {e : E} {name : Str} : e ∈ D.fileEnums f → name ∈ D.enumTypes e →
      TypeIn others (D.gadgetScope opts e) name
  | client {f : F} {service : ServiceDescriptor M} : service ∈ D.services f →
      TypeIn others (D.packageScope opts f) (utils.upperCaseName service.name ++ "Client".toList)
  | other {scope : List Str} {name : Str} : name ∈ others.types scope → TypeIn others scope name

/-- The scope declares something else of that name: a member, or a method of the client. -/
def MemberIn (others : OtherNames) (scope : List Str) (name : Str) : Prop :=
  name ∈ others.members scope ∨ ∃ f, ∃ service ∈ D.services f, scope = D.clientScope opts f service ∧
    ∃ method ∈ service.methods, method.name = name

/-- The scope declares the first part of the name. In front of `::` only namespaces and
types are looked for. -/
def Hides (others : OtherNames) (scope parts : List Str) : Prop :=
  ∃ name ∈ parts.head?, D.TypeIn opts others scope name ∨ parts = [name] ∧ D.MemberIn opts others scope name

end FileSet

end QtProtobuf.Generator
