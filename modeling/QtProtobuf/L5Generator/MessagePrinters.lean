import QtProtobuf.L5Generator.Descriptors

/-!
# What the message printers print

Model of the recursions of `MessageDeclarationPrinter` and
`MessageDefinitionPrinter`. Of the printed text the model keeps the namespaces
that are opened and closed, and where the text of one class stands (`cls`):
its forward declaration, declaration, definition or meta types, by the pass.
-/
namespace QtProtobuf.Generator

inductive Printed (M : Type) where
  /-- `Templates::NamespaceTemplate` -/
  | openNamespace (name : Str)
  /-- `Templates::SimpleBlockEnclosureTemplate` -/
  | closeBlock
  | cls (m : M)

/-- The classes a pass prints, in order. -/
def classes {M : Type} (printed : List (Printed M)) : List M :=
  printed.filterMap fun
    | .cls m => some m
    | _ => none

@[simp] theorem classes_nil {M : Type} : classes ([] : List (Printed M)) = [] := rfl

@[simp] theorem classes_append {M : Type} (a b : List (Printed M)) :
    classes (a ++ b) = classes a ++ classes b := List.filterMap_append

@[simp] theorem classes_cls {M : Type} (m : M) (a : List (Printed M)) :
    classes (.cls m :: a) = m :: classes a := rfl

@[simp] theorem classes_openNamespace {M : Type} (name : Str) (a : List (Printed M)) :
    classes (.openNamespace name :: a) = classes a := rfl

@[simp] theorem classes_closeBlock {M : Type} (a : List (Printed M)) :
    classes (.closeBlock :: a) = classes a := rfl

theorem classes_flatMap {M : Type} (ms : List M) (f : M → List (Printed M)) :
    classes (ms.flatMap f) = ms.flatMap fun m => classes (f m) := by
  induction ms with
  | nil => rfl
  | cons m ms ih => simp [ih]

namespace Descriptors

variable {F M E : Type} (D : Descriptors F M E)

/-- `Templates::QtProtobufNestedNamespace` -/
def QtProtobufNestedNamespace : Str := "_QtProtobufNested".toList

/-- `mTypeMap["classname"]` -/
def classname (m : M) : Str := utils.upperCaseName (D.name m)

/-- A namespace block `classname_QtProtobufNested` around `content`. -/
def nestedNamespace (m : M) (content : List (Printed M)) : List (Printed M) :=
  .openNamespace (D.classname m ++ QtProtobufNestedNamespace) :: (content ++ [.closeBlock])

@[simp] theorem classes_nestedNamespace (m : M) (content : List (Printed M)) :
    classes (D.nestedNamespace m content) = classes content := by
  simp [nestedNamespace]

variable [DecidableEq M]

theorem depth_decreases {m n : M} (h : n ∈ D.iterateNestedMessages m) :
    D.maxDepth - D.depth n < D.maxDepth - D.depth m := by
  have := D.depth_eq m n (mem_iterateNestedMessages.mp h).1
  have := D.depth_lt n
  omega

/-- A pass that prints the nested messages in their namespace, where `guard`
lets it, and then the class. -/
def printNestedFirst (guard : M → Bool) (m : M) : List (Printed M) :=
  (if guard m then
    D.nestedNamespace m
      ((D.iterateNestedMessages m).attach.flatMap fun n => printNestedFirst guard n.1)
  else []) ++ [.cls m]
termination_by D.maxDepth - D.depth m
decreasing_by exact D.depth_decreases n.2

/-- mirrors src/generator/messagedeclarationprinter.cpp:46-58 -/
def printClassForwardDeclarationPrivate : M → List (Printed M) :=
  D.printNestedFirst D.hasNestedMessages

/-- mirrors src/generator/messagedeclarationprinter.cpp:76-91 -/
def printClassDeclarationPrivate : M → List (Printed M) :=
  D.printNestedFirst fun _ => true

/-- mirrors src/generator/messagedefinitionprinter.cpp:40-59 -/
def printClassDefinitionPrivate : M → List (Printed M) :=
  D.printNestedFirst D.hasNestedMessages

/-- mirrors src/generator/messagedeclarationprinter.cpp:182-213 -/
def printMetaTypesDeclaration (m : M) : List (Printed M) :=
  .cls m :: (D.iterateNestedMessages m).attach.flatMap fun n => printMetaTypesDeclaration n.1
termination_by D.maxDepth - D.depth m
decreasing_by exact D.depth_decreases n.2

/-! ## The classes -/

variable {D}

theorem classes_printNestedFirst (guard : M → Bool) (m : M) :
    classes (D.printNestedFirst guard m) =
      (if guard m then (D.iterateNestedMessages m).flatMap fun n =>
        classes (D.printNestedFirst guard n) else []) ++ [m] := by
  rw [printNestedFirst, List.flatMap_subtype (fun _ _ => rfl), List.unattach_attach]
  split <;> simp [classes_flatMap]

/-- A guard that lets every nonempty block through changes nothing. -/
theorem classes_printNestedFirst_of_guard {guard : M → Bool}
    (hg : ∀ k n, n ∈ D.iterateNestedMessages k → guard k = true) (m : M) :
    classes (D.printNestedFirst guard m) =
      ((D.iterateNestedMessages m).flatMap fun n => classes (D.printNestedFirst guard n)) ++ [m] := by
  rw [classes_printNestedFirst]
  split
  · rfl
  · next h =>
    have : D.iterateNestedMessages m = [] :=
      List.eq_nil_iff_forall_not_mem.mpr fun n hn => h (hg m n hn)
    rw [this]
    rfl

theorem classes_printMetaTypesDeclaration (m : M) :
    classes (D.printMetaTypesDeclaration m) =
      m :: (D.iterateNestedMessages m).flatMap fun n => classes (D.printMetaTypesDeclaration n) := by
  rw [printMetaTypesDeclaration, List.flatMap_subtype (fun _ _ => rfl), List.unattach_attach]
  simp [classes_flatMap]

end Descriptors

end QtProtobuf.Generator
