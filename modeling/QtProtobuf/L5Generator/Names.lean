import QtProtobuf.L5Generator.MessagePrinters

/-!
# The names of the generated classes

Two sides of the generator name the class of a message. The declaring side opens
namespaces and prints the class inside them (`printClassDeclaration`, read by
`scopes`). The referring side computes strings from full names
(`produceMessageTypeMap`, `produceMethodMap`).

What a string refers to is C++ look-up: `Names` has the qualified names of the
classes, the aliases of `printNested` included, and `Denotes` looks a name up
from a scope outwards, up to the first scope that declares its first part
(`LooksUp`).
-/
namespace QtProtobuf.Generator

open Lib

/-- mirrors src/generator/generatoroptions.h; an extra namespace is an
identifier or several with `::` between them. -/
structure GeneratorOptions where
  extraNamespace : Str
  isFolder : Bool
  extraNamespace_eq : ∃ parts, (∀ p ∈ parts, IsIdentifier p) ∧
    extraNamespace = colons.intercalate parts

def noOptions : GeneratorOptions := ⟨[], false, [], by simp, rfl⟩

namespace common

/-- The full name of the type, or `none` for the null pointer.
mirrors src/generator/generatorcommon.h:52-63 -/
def getNamespaces (fullName : Option Str) : List Str :=
  match fullName with
  | none => []
  | some name => (utils.split name '.').dropLast

/-- mirrors src/generator/generatorcommon.cpp:34-45 -/
def getNamespacesString (namespacesList : List Str) (separator : Str) : Str :=
  let namespaces := namespacesList.foldl (fun s part => s ++ part ++ separator) []
  if namespaces.isEmpty then namespaces
  else namespaces.take (namespaces.length - separator.length)

/-- mirrors src/generator/generatorcommon.cpp:47-61 -/
def getScopeNamespacesString (original scope : Str) : Str :=
  if scope.isEmpty then original
  else if original = scope then []
  else if (scope ++ colons).isPrefixOf original then original.drop (scope.length + 2)
  else original

end common

/-- The entries of a type map, by key. -/
structure TypeMap where
  classname : Str
  type : Str
  full_type : Str
  scope_type : Str
  list_type : Str
  full_list_type : Str
  scope_list_type : Str
  namespaces : Str
  scope_namespaces : Str
  qml_package : Str
  property_type : Str
  property_list_type : Str
  getter_type : Str
  setter_type : Str

structure MethodMap where
  classname : Str
  return_type : Str
  method_name : Str
  method_name_upper : Str
  param_type : Str
  param_name : Str
  return_name : Str

namespace Descriptors

variable {F M E : Type} (D : Descriptors F M E)

/-- `full_name()` -/
def fullName (m : M) : Str :=
  match _h : D.containingType m with
  | some c => fullName c ++ '.' :: D.name m
  | none =>
    if (D.package (D.file m)).isEmpty then D.name m
    else D.package (D.file m) ++ '.' :: D.name m
termination_by D.depth m
decreasing_by
  have := D.depth_eq c m _h
  omega

/-- mirrors src/generator/generatorcommon.h:65-72 -/
def getNestedNamespaces (type : M) : List Str :=
  let namespaces := common.getNamespaces (some (D.fullName type))
  let package := utils.split (D.package (D.file type)) '.'
  namespaces.take package.length ++
    (namespaces.drop package.length).map (· ++ QtProtobufNestedNamespace)

/-- `Templates::ListSuffix` -/
def ListSuffix : Str := "Repeated".toList

/-- `namespaces.empty() ? name : (namespaces + "::" + name)` -/
def qualified (namespaces name : Str) : Str :=
  if namespaces.isEmpty then name else namespaces ++ (colons ++ name)

/-- mirrors src/generator/generatorcommon.cpp:409-426 -/
def produceMethodMap (method : MethodDescriptor M) (scope : Str) : MethodMap where
  classname := scope
  return_type := utils.replace (D.fullName method.outputType) ['.'] colons
  method_name := method.name
  method_name_upper := utils.upperCaseName method.name
  param_type := utils.replace (D.fullName method.inputType) ['.'] colons
  param_name := "arg".toList
  return_name := "ret".toList

variable (opts : GeneratorOptions)

/-- The extra namespace, if there is one, in front. -/
def withExtraNamespace (namespaces : List Str) : List Str :=
  if opts.extraNamespace.isEmpty then namespaces else opts.extraNamespace :: namespaces

variable [DecidableEq M]

/-- mirrors src/generator/generatorcommon.cpp:95-134 -/
def produceMessageTypeMap (type : M) (scope : Option M) : TypeMap :=
  let namespaceList := withExtraNamespace opts (common.getNamespaces (some (D.fullName type)))
  let nestedNamespaceList :=
    if D.isNested type then D.getNestedNamespaces type else namespaceList
  let namespaces := common.getNamespacesString namespaceList colons
  let scopeNamespaces := common.getScopeNamespacesString
    (common.getNamespacesString nestedNamespaceList colons)
    (common.getNamespacesString (common.getNamespaces (scope.map D.fullName)) colons)
  let name := utils.upperCaseName (D.name type)
  let listName := name ++ ListSuffix
  { classname := name
    type := name
    full_type := qualified namespaces name
    scope_type := qualified scopeNamespaces name
    list_type := listName
    full_list_type := qualified namespaces listName
    scope_list_type := qualified scopeNamespaces listName
    namespaces := namespaces
    scope_namespaces := scopeNamespaces
    qml_package := common.getNamespacesString namespaceList ['.']
    property_type := qualified namespaces name
    property_list_type := qualified namespaces listName
    getter_type := qualified scopeNamespaces name
    setter_type := qualified scopeNamespaces name }

/-! ## The declared classes -/

/-- mirrors src/generator/descriptorprinterbase.h:61-70 -/
def printNamespaces (fullName : Str) : List (Printed M) :=
  (withExtraNamespace opts (common.getNamespaces (some fullName))).map .openNamespace

/-- mirrors src/generator/descriptorprinterbase.h:72-82 -/
def encloseNamespaces (fullName : Str) : List (Printed M) :=
  List.replicate (withExtraNamespace opts (common.getNamespaces (some fullName))).length .closeBlock

/-- Up to the meta types, which stand outside of the namespaces.
mirrors src/generator/messagedeclarationprinter.cpp:68-74 -/
def printClassDeclaration (m : M) : List (Printed M) :=
  printNamespaces opts (D.fullName m) ++ D.printClassDeclarationPrivate m ++
    encloseNamespaces opts (D.fullName m)

end Descriptors

/-- The classes with the namespaces they stand in, outermost first; `ns` are the
open ones. -/
def scopes {M : Type} (ns : List Str) : List (Printed M) → List (List Str × M)
  | [] => []
  | .openNamespace name :: rest => scopes (ns ++ [name]) rest
  | .closeBlock :: rest => scopes ns.dropLast rest
  | .cls m :: rest => (ns, m) :: scopes ns rest

/-- The names between the `::` of a qualified name. -/
def components (name : Str) : List Str := fieldsAt ':' name

/-- From the scope outwards, the name is looked up in the scope `outer`: no scope inside
of that declares its first part (`hides`); a name that begins with `::` is looked up in
the global scope only. -/
def LooksUp (hides : List Str → List Str → Prop) (scope : List Str) (name : Str) (outer : List Str) : Prop :=
  outer <+: scope ∧
    if colons <+: name then outer = []
    else ∀ inner, inner <+: scope → outer.length < inner.length → ¬ hides inner (components name)

namespace Descriptors

variable {F M E : Type} [DecidableEq M] (D : Descriptors F M E) (opts : GeneratorOptions)

/-- The class of `m` is declared in the namespaces `ns`. -/
def Declared (ns : List Str) (m : M) : Prop :=
  ∃ top, D.containingType top = none ∧ ∃ opened,
    (opened, m) ∈ scopes [] (D.printClassDeclaration opts top) ∧ ns = opened.flatMap components

/-- What `Templates::NestedMessageUsingTemplate` has on the right. -/
def usingTarget (nested m : M) : Str :=
  let map := D.produceMessageTypeMap opts nested (some m)
  map.scope_namespaces ++ (colons ++ map.type)

variable (hides : List Str → List Str → Prop)

/-- The class of `m` has the qualified name: it is declared there, or an alias
that `printNested` prints in the class of `c` is found to name it. -/
inductive Names : List Str → M → Prop where
  | declared {ns : List Str} {m : M} : D.Declared opts ns m → Names (ns ++ [D.classname m]) m
  | aliased {path ns outer : List Str} {c n : M} :
      Names path c → D.Declared opts ns c → n ∈ D.iterateNestedMessages c →
      LooksUp hides (ns ++ [D.classname c]) (D.usingTarget opts n c) outer →
      Names (outer ++ components (D.usingTarget opts n c)) n →
      Names (path ++ [D.classname n]) n

/-- Looked up from the scope outwards, the name is a name of the class of `m`. -/
def Denotes (scope : List Str) (name : Str) (m : M) : Prop :=
  ∃ outer, LooksUp hides scope name outer ∧ D.Names opts hides (outer ++ components name) m

end Descriptors

end QtProtobuf.Generator
