import QtProtobuf.L2Codec.NullElements
import QtProtobuf.L2Codec.RoundTrip
import Mathlib.Data.Fin.VecNotation
import Mathlib.Data.Fintype.EquivFin
import Mathlib.Tactic.FinCases

/-!
# Handlers of Qt's types (`qttypes/qtprotobufqttypes.cpp`)

A property may have a type of Qt that is no message, such as `QRect`. Its handler
makes a message of the value and writes that; it reads such a message and makes a
value of it.

* `not_hasNull_decoded`: without maps no pointer that was read is null.
* `number_equal`, `message_equal`, `elements_equal`: what the getters give after a
  round trip.
* `convert_inverse`: the conversions of each type are inverse to each other.
* `handler_round_trip`: what the handler wrote, it reads back.
-/
namespace QtProtobuf.QtTypes

open Lib Wire Codec

/-! ## The messages -/

/-- mirrors src/qttypes/QtProtobuf/QtCore.proto and QtGui.proto; `QUrl`, `QUuid`,
`QDate`, `QDateTime`, `QColor` and `QImage`, whose values Qt computes, are left out. -/
inductive PType where
  | QChar | QTime | QSize | QSizeF | QPoint | QPointF | QRect | QRectF | QPolygon | QPolygonF
  | QMatrix4x4 | QVector2D | QVector3D | QVector4D | QTransform | QQuaternion
  deriving DecidableEq

instance : Finite PType :=
  Finite.of_surjective (fun k : Fin 16 => PType.ofNat k)
    fun m => ⟨⟨m.ctorIdx, by cases m <;> decide⟩, by cases m <;> rfl⟩

def numberFields (t : NumType) (n : Nat) : List (FieldType PType) :=
  List.replicate n (.single (.scalar (.num t)))

def PType.fields : PType → List (FieldType PType)
  | QChar => [.single (.scalar .bytes)]
  | QTime => numberFields .sint32 1
  | QSize | QPoint => numberFields .sint32 2
  | QSizeF | QPointF => numberFields .double 2
  | QRect => [.single (.message QPoint), .single (.message QSize)]
  | QRectF => [.single (.message QPointF), .single (.message QSizeF)]
  | QPolygon => [.messages QPoint]
  | QPolygonF => [.messages QPointF]
  | QMatrix4x4 => numberFields .float 16
  | QVector2D => numberFields .float 2
  | QVector3D => numberFields .float 3
  | QVector4D => numberFields .float 4
  | QTransform => numberFields .double 9
  | QQuaternion => [.single (.scalar (.num .float)), .single (.message QVector3D)]

def numbering (k : Nat) : List (Nat × Nat) := (List.range k).map fun i => (i + 1, i)

/-- The fields, numbered from 1 on, in any order of the enumeration. -/
structure Declares (S : Schema PType) : Prop where
  properties : ∀ m, (S m).properties = m.fields
  propertyOrdering : ∀ m, (S m).propertyOrdering.Perm (numbering m.fields.length)

/-! ## Getters -/

abbrev Fields := List (Value PType)

section
variable (S : Schema PType) (fields : Fields) (i : Nat)

def number (t : NumType) : BitVec t.width :=
  match fields[i]? with
  | some (.scalar (.num _ v)) => v.setWidth t.width
  | _ => 0

def byteArray : Bytes :=
  match fields[i]? with
  | some (.scalar (.bytes s)) => s.getD []
  | _ => []

/-- The getter of an unset message makes a default one. -/
def message : Fields :=
  match fields[i]? with
  | some (.object _ fs) => fs
  | some (.unset m) => newObject S m
  | _ => []

/-- `none`: a null pointer. -/
def elements : List (Option Fields) :=
  match fields[i]? with
  | some (.messages vs) => vs.map fun v => match v with
    | .object _ fs => some fs
    | _ => none
  | _ => []

end

/-! ## The types of Qt, and their conversions -/

/-- The two `convert` of a type; no value is made of a null pointer. -/
structure Convert (Q : Type) where
  toMessage : Q → Fields
  ofMessage : Fields → Option Q

abbrev Numbers (t : NumType) (n : Nat) := Fin n → BitVec t.width

/-- Component by component, in the order of the fields. -/
def numbers (t : NumType) (n : Nat) : Convert (Numbers t n) where
  toMessage q := List.ofFn fun i => .scalar (.num t (q i))
  ofMessage fields := some fun i => number fields i t

/-- Point by point. -/
def points {P : Type} (m : PType) (c : Convert P) : Convert (List P) where
  toMessage ps := [.messages (ps.map fun p => .object m (c.toMessage p))]
  ofMessage fields := (elements fields 0).mapM fun point => point >>= c.ofMessage

abbrev QSize := Numbers .sint32 2
abbrev QPoint := Numbers .sint32 2
abbrev QSizeF := Numbers .double 2
abbrev QPointF := Numbers .double 2
abbrev QVector2D := Numbers .float 2
abbrev QVector3D := Numbers .float 3
abbrev QVector4D := Numbers .float 4
abbrev QTransform := Numbers .double 9
abbrev QPolygon := List QPoint
abbrev QPolygonF := List QPointF

/-- mirrors src/qttypes/qtprotobufqttypes.cpp:117-123 -/
def QSize.convert : Convert QSize := numbers .sint32 2

/-- mirrors src/qttypes/qtprotobufqttypes.cpp:133-139 -/
def QPoint.convert : Convert QPoint := numbers .sint32 2

/-- mirrors src/qttypes/qtprotobufqttypes.cpp:125-131 -/
def QSizeF.convert : Convert QSizeF := numbers .double 2

/-- mirrors src/qttypes/qtprotobufqttypes.cpp:141-147 -/
def QPointF.convert : Convert QPointF := numbers .double 2

/-- mirrors src/qttypes/qtprotobufqttypes.cpp:221-227 -/
def QVector2D.convert : Convert QVector2D := numbers .float 2

/-- mirrors src/qttypes/qtprotobufqttypes.cpp:229-235 -/
def QVector3D.convert : Convert QVector3D := numbers .float 3

/-- mirrors src/qttypes/qtprotobufqttypes.cpp:237-243 -/
def QVector4D.convert : Convert QVector4D := numbers .float 4

/-- mirrors src/qttypes/qtprotobufqttypes.cpp:245-255 -/
def QTransform.convert : Convert QTransform := numbers .double 9

/-- mirrors src/qttypes/qtprotobufqttypes.cpp:173-187 -/
def QPolygon.convert : Convert QPolygon := points .QPoint QPoint.convert

/-- mirrors src/qttypes/qtprotobufqttypes.cpp:189-203 -/
def QPolygonF.convert : Convert QPolygonF := points .QPointF QPointF.convert

structure QChar where
  ucs : UInt16

/-- A `QDataStream` writes the upper byte first, and makes a zero of too few bytes.
mirrors src/qttypes/qtprotobufqttypes.cpp:71-83 -/
def QChar.convert : Convert QChar where
  toMessage c := [.scalar (.bytes (some [(c.ucs >>> 8).toUInt8, c.ucs.toUInt8]))]
  ofMessage fields := match byteArray fields 0 with
    | upper :: lower :: _ => some ⟨upper.toUInt16 <<< 8 ||| lower.toUInt16⟩
    | _ => some ⟨0⟩

/-- `mds` is -1 for an invalid time. -/
structure QTime where
  mds : BitVec 32

def QTime.msecsSinceStartOfDay (t : QTime) : BitVec 32 := if t.mds = -1 then 0 else t.mds

/-- mirrors src/qttypes/qtprotobufqttypes.cpp:101-107 -/
def QTime.convert : Convert QTime where
  toMessage t := [.scalar (.num .sint32 t.msecsSinceStartOfDay)]
  ofMessage fields := some ⟨number fields 0 .sint32⟩

/-- The corners; the right and the bottom one belong to the rectangle. -/
structure QRect where
  x1 : BitVec 32
  y1 : BitVec 32
  x2 : BitVec 32
  y2 : BitVec 32

namespace QRect

def topLeft (r : QRect) : QPoint := ![r.x1, r.y1]

def width (r : QRect) : BitVec 32 := r.x2 - r.x1 + 1

def height (r : QRect) : BitVec 32 := r.y2 - r.y1 + 1

def size (r : QRect) : QSize := ![r.width, r.height]

def ofSize (topLeft : QPoint) (size : QSize) : QRect :=
  let x : BitVec 32 := topLeft 0
  let y : BitVec 32 := topLeft 1
  let width : BitVec 32 := size 0
  let height : BitVec 32 := size 1
  ⟨x, y, x + width - 1, y + height - 1⟩

/-- The width and the height are numbers of an `int`. -/
def Fits (r : QRect) : Prop :=
  r.width.toInt = r.x2.toInt - r.x1.toInt + 1 ∧ r.height.toInt = r.y2.toInt - r.y1.toInt + 1

variable (S : Schema PType)

/-- mirrors src/qttypes/qtprotobufqttypes.cpp:157-163 -/
def convert : Convert QRect where
  toMessage r := [.object .QPoint (QPoint.convert.toMessage r.topLeft),
    .object .QSize (QSize.convert.toMessage r.size)]
  ofMessage fields := do
    let topLeft ← QPoint.convert.ofMessage (message S fields 0)
    let size ← QSize.convert.ofMessage (message S fields 1)
    pure (.ofSize topLeft size)

end QRect

structure QRectF where
  topLeft : QPointF
  size : QSizeF

/-- The elements column by column. -/
structure QMatrix4x4 where
  data : Fin 16 → BitVec 32

structure QQuaternion where
  scalar : BitVec 32
  vector : QVector3D

section
variable (S : Schema PType)

/-- mirrors src/qttypes/qtprotobufqttypes.cpp:165-171 -/
def QRectF.convert : Convert QRectF where
  toMessage r := [.object .QPointF (QPointF.convert.toMessage r.topLeft),
    .object .QSizeF (QSizeF.convert.toMessage r.size)]
  ofMessage fields := do
    let topLeft ← QPointF.convert.ofMessage (message S fields 0)
    let size ← QSizeF.convert.ofMessage (message S fields 1)
    pure ⟨topLeft, size⟩

/-- The elements row by row. -/
def QMatrix4x4.ofRows (m : Numbers .float 16) : QMatrix4x4 :=
  ⟨fun k => m (Fin.ofNat 16 (4 * (k.val % 4) + k.val / 4))⟩

def QMatrix4x4.rows (m : QMatrix4x4) : Numbers .float 16 :=
  ![m.data 0, m.data 4, m.data 8, m.data 12, m.data 1, m.data 5, m.data 9, m.data 13,
    m.data 2, m.data 6, m.data 10, m.data 14, m.data 3, m.data 7, m.data 11, m.data 15]

/-- mirrors src/qttypes/qtprotobufqttypes.cpp:206-219 -/
def QMatrix4x4.convert : Convert QMatrix4x4 where
  toMessage m := (numbers .float 16).toMessage m.rows
  ofMessage fields := ((numbers .float 16).ofMessage fields).map .ofRows

/-- mirrors src/qttypes/qtprotobufqttypes.cpp:257-263 -/
def QQuaternion.convert : Convert QQuaternion where
  toMessage q := [.scalar (.num .float q.scalar), .object .QVector3D (QVector3D.convert.toMessage q.vector)]
  ofMessage fields := do
    let vector ← QVector3D.convert.ofMessage (message S fields 1)
    pure ⟨number fields 0 .float, vector⟩

end

/-! ## Handlers -/

def PType.Native : PType → Type
  | .QChar => QtTypes.QChar
  | .QTime => QtTypes.QTime
  | .QSize => QtTypes.QSize
  | .QSizeF => QtTypes.QSizeF
  | .QPoint => QtTypes.QPoint
  | .QPointF => QtTypes.QPointF
  | .QRect => QtTypes.QRect
  | .QRectF => QtTypes.QRectF
  | .QPolygon => QtTypes.QPolygon
  | .QPolygonF => QtTypes.QPolygonF
  | .QMatrix4x4 => QtTypes.QMatrix4x4
  | .QVector2D => QtTypes.QVector2D
  | .QVector3D => QtTypes.QVector3D
  | .QVector4D => QtTypes.QVector4D
  | .QTransform => QtTypes.QTransform
  | .QQuaternion => QtTypes.QQuaternion

def PType.convert (S : Schema PType) : (m : PType) → Convert m.Native
  | .QChar => QChar.convert
  | .QTime => QTime.convert
  | .QSize => QSize.convert
  | .QSizeF => QSizeF.convert
  | .QPoint => QPoint.convert
  | .QPointF => QPointF.convert
  | .QRect => QRect.convert S
  | .QRectF => QRectF.convert S
  | .QPolygon => QPolygon.convert
  | .QPolygonF => QPolygonF.convert
  | .QMatrix4x4 => QMatrix4x4.convert
  | .QVector2D => QVector2D.convert
  | .QVector3D => QVector3D.convert
  | .QVector4D => QVector4D.convert
  | .QTransform => QTransform.convert
  | .QQuaternion => QQuaternion.convert S

/-- No component is a negative zero. -/
def Numbers.Kept {t : NumType} {n : Nat} (q : Numbers t n) : Prop := ∀ i, ¬ t.negativeZero (q i)

def QPolygonF.Kept (ps : QPolygonF) : Prop := ∀ p ∈ ps, Numbers.Kept p

/-- A valid time, a rectangle with a width and a height, no negative zeros. -/
def PType.Kept : (m : PType) → m.Native → Prop
  | .QTime, t => QTime.mds t ≠ -1
  | .QRect, r => QRect.Fits r
  | .QSizeF, q | .QPointF, q | .QTransform, q => @Numbers.Kept .double _ q
  | .QVector2D, q | .QVector3D, q | .QVector4D, q => @Numbers.Kept .float _ q
  | .QRectF, r => (QRectF.topLeft r).Kept ∧ (QRectF.size r).Kept
  | .QPolygonF, ps => QPolygonF.Kept ps
  | .QMatrix4x4, m => @Numbers.Kept .float _ (QMatrix4x4.data m)
  | .QQuaternion, q => ¬ NumType.float.negativeZero (QQuaternion.scalar q) ∧ (QQuaternion.vector q).Kept
  | _, _ => True

section
variable (S : Schema PType) (qt : QtCore) (m : PType)

/-- mirrors src/qttypes/qtprotobufqttypes.cpp:279-283 -/
def serializer (levels f : Nat) (value : m.Native) : Option Bytes :=
  serializeObject (serializeMessage S qt levels) f m ((m.convert S).toMessage value)

/-- mirrors src/qttypes/qtprotobufqttypes.cpp:285-289 -/
def deserializer (env : Bytes → Int → UInt8) (n : Nat) (b : Buffer) : Dec (Option m.Native) := do
  let object ← deserializeObject (nestedMessage S qt env n) b m
  pure (match object with
    | .object _ fields => (m.convert S).ofMessage fields
    | _ => none)

end

/-! ## The getters after a round trip -/

section
variable {S : Schema PType} {m m' : PType} {fs gs : Fields} {i : Nat}

theorem equal_field (h : Equal S (.object m fs) (.object m gs)) {v : Value PType} (hv : fs[i]? = some v) :
    ∃ w, gs[i]? = some w ∧ Equal S v w := by
  cases h with
  | object _ hl h =>
    have hi : i < gs.length := hl ▸ (List.getElem?_eq_some_iff.mp hv).1
    exact ⟨gs[i], List.getElem?_eq_getElem hi, h i v _ hv (List.getElem?_eq_getElem hi)⟩

theorem number_equal (h : Equal S (.object m fs) (.object m gs)) {t : NumType} {v : BitVec t.width}
    (hv : fs[i]? = some (.scalar (.num t v))) : number gs i t = v := by
  obtain ⟨w, hw, he⟩ := equal_field h hv
  cases he with
  | @scalar _ w htext =>
    cases w with
    | num _ v' =>
      cases htext
      unfold number
      rw [hw]
      exact BitVec.setWidth_eq v
    | _ => cases htext

theorem byteArray_equal (h : Equal S (.object m fs) (.object m gs)) {s : Bytes}
    (hv : fs[i]? = some (.scalar (.bytes (some s)))) : byteArray gs i = s := by
  obtain ⟨w, hw, he⟩ := equal_field h hv
  cases he with
  | @scalar _ w htext =>
    cases w with
    | bytes s' =>
      have hs : s = s'.getD [] := by simpa [Scalar.text] using htext
      unfold byteArray
      rw [hw, hs]
    | _ => cases htext

theorem message_equal (h : Equal S (.object m fs) (.object m gs)) (hn : ¬ HasNull (.object m gs))
    {xs : Fields} (hv : fs[i]? = some (.object m' xs)) :
    Equal S (.object m' xs) (.object m' (message S gs i)) ∧ ¬ HasNull (.object m' (message S gs i)) := by
  obtain ⟨w, hw, he⟩ := equal_field h hv
  unfold message
  rw [hw]
  cases he with
  | object_unset he =>
    refine ⟨he, fun hnull => ?_⟩
    obtain ⟨v, hmem, hnull⟩ := hasNull_object.mp hnull
    obtain ⟨t, -, rfl⟩ := List.mem_map.mp hmem
    exact not_hasNull_default t hnull
  | object _ hl he =>
    exact ⟨.object _ hl he, fun hnull => hn (.field (List.mem_of_getElem? hw) hnull)⟩

theorem elements_equal (h : Equal S (.object m fs) (.object m gs)) (hn : ¬ HasNull (.object m gs))
    {xss : List Fields} (hv : fs[i]? = some (.messages (xss.map fun xs => .object m' xs))) :
    ∃ yss, elements gs i = yss.map some ∧
      List.Forall₂ (fun xs ys => Equal S (.object m' xs) (.object m' ys) ∧ ¬ HasNull (.object m' ys)) xss yss := by
  obtain ⟨w, hw, he⟩ := equal_field h hv
  unfold elements
  rw [hw]
  cases he with
  | @messages _ ws hl he =>
    have hws : ∀ w ∈ ws, ¬ NullPointer w := fun w hmem hnull =>
      hn (.field (List.mem_of_getElem? hw) (hasNull_messages.mpr ⟨w, hmem, hnull⟩))
    clear hw hv hn h
    dsimp only
    induction xss generalizing ws with
    | nil =>
      cases ws with
      | nil => exact ⟨[], rfl, .nil⟩
      | cons w ws => cases hl
    | cons xs xss ih =>
      cases ws with
      | nil => cases hl
      | cons w ws =>
        obtain ⟨yss, helements, hall⟩ := ih (by simpa using hl)
          (fun p hp => he p (List.mem_cons_of_mem _ hp)) fun w hw => hws w (List.mem_cons_of_mem _ hw)
        have hfirst : Equal S (.object m' xs) w := he _ List.mem_cons_self
        have hnull := hws w List.mem_cons_self
        cases hfirst with
        | object_unset _ => exact absurd (.inl rfl) hnull
        | @object _ _ ys hlength hfields =>
          refine ⟨ys :: yss, ?_, .cons ⟨.object _ hlength hfields, fun hys => hnull (.inr hys)⟩ hall⟩
          rw [List.map_cons, List.map_cons, helements]

end

/-! ## Conversions -/

/-- The message of a value has the types of the fields, and of one that is equal to it
the value is made again. -/
structure Convert.Inverse (S : Schema PType) (qt : QtCore) (m : PType) {Q : Type} (c : Convert Q)
    (Kept : Q → Prop) : Prop where
  typed : ∀ q, Kept q → Typed S qt (.single (.message m)) (.object m (c.toMessage q))
  ofMessage : ∀ q, Kept q → ∀ fs, Equal S (.object m (c.toMessage q)) (.object m fs) →
    ¬ HasNull (.object m fs) → c.ofMessage fs = some q

section
variable {S : Schema PType} {qt : QtCore} {m : PType}

theorem numbers_inverse {t : NumType} {n : Nat} (hS : (S m).properties = numberFields t n) :
    (numbers t n).Inverse S qt m Numbers.Kept where
  typed q hk := by
    refine .object m (by simp [hS, numbers, numberFields]) fun i t' v ht hv => ?_
    rw [hS, numberFields, List.getElem?_replicate] at ht
    dsimp only [numbers] at hv
    rw [List.getElem?_ofFn] at hv
    split at hv
    · rename_i hi
      rw [if_pos hi] at ht
      cases ht
      cases hv
      exact .scalar (v := .num t (q ⟨i, hi⟩)) (hk _)
    · cases hv
  ofMessage q _ fs he _ := by
    refine congrArg some (funext fun i => number_equal he ?_)
    dsimp only [numbers]
    rw [List.getElem?_ofFn, dif_pos i.isLt]

theorem Convert.Inverse.field {m' : PType} {Q : Type} {c : Convert Q} {Kept : Q → Prop}
    (h : c.Inverse S qt m' Kept) {q : Q} (hk : Kept q) {fs gs : Fields} {i : Nat}
    (he : Equal S (.object m fs) (.object m gs)) (hn : ¬ HasNull (.object m gs))
    (hv : fs[i]? = some (.object m' (c.toMessage q))) : c.ofMessage (message S gs i) = some q := by
  obtain ⟨he, hn⟩ := message_equal he hn hv
  exact h.ofMessage q hk _ he hn

theorem points_inverse {m' : PType} {P : Type} {c : Convert P} {Kept : P → Prop}
    (h : c.Inverse S qt m' Kept) (hS : (S m).properties = [.messages m']) :
    (points m' c).Inverse S qt m fun ps => ∀ p ∈ ps, Kept p where
  typed ps hk := by
    refine .object m (by rw [hS]; rfl) (hS ▸ typed_fields (.cons ?_ .nil))
    refine .messages (fun v hv => ?_) fun v hv => ?_
    · obtain ⟨p, -, rfl⟩ := List.mem_map.mp hv
      exact ⟨_, rfl⟩
    · obtain ⟨p, hp, rfl⟩ := List.mem_map.mp hv
      exact h.typed p (hk p hp)
  ofMessage ps hk fs he hn := by
    have hv : ((points m' c).toMessage ps)[0]? =
        some (.messages ((ps.map c.toMessage).map fun xs => .object m' xs)) := by
      rw [List.map_map]
      rfl
    obtain ⟨yss, helements, hall⟩ := elements_equal he hn hv
    show (elements fs 0).mapM _ = _
    rw [helements]
    clear hv he helements
    induction ps generalizing yss with
    | nil => cases hall; rfl
    | cons p ps ih =>
      cases hall with
      | @cons _ ys _ yss hfirst hall =>
        have hp := h.ofMessage p (hk p List.mem_cons_self) ys hfirst.1 hfirst.2
        rw [List.map_cons, List.mapM_cons, ih (fun q hq => hk q (List.mem_cons_of_mem _ hq)) yss hall]
        simp [hp]

theorem Convert.Inverse.mono {Q : Type} {c : Convert Q} {Kept Kept' : Q → Prop} (h : c.Inverse S qt m Kept)
    (himp : ∀ q, Kept' q → Kept q) : c.Inverse S qt m Kept' where
  typed q hk := h.typed q (himp q hk)
  ofMessage q hk := h.ofMessage q (himp q hk)

/-- Integers have no negative zeros. -/
theorem integers_inverse {t : NumType} (ht : t.infinity = none) {n : Nat}
    (hS : (S m).properties = numberFields t n) : (numbers t n).Inverse S qt m fun _ => True :=
  (numbers_inverse hS).mono fun q _ i h => by
    rw [NumType.negativeZero, ht] at h
    cases h.1

/-- Two nested messages. -/
theorem typed_pair {m₁ m₂ : PType} {fs gs : Fields}
    (hS : (S m).properties = [.single (.message m₁), .single (.message m₂)])
    (hfs : Typed S qt (.single (.message m₁)) (.object m₁ fs))
    (hgs : Typed S qt (.single (.message m₂)) (.object m₂ gs)) :
    Typed S qt (.single (.message m)) (.object m [.object m₁ fs, .object m₂ gs]) :=
  .object m (by rw [hS]; rfl) (hS ▸ typed_fields (.cons hfs (.cons hgs .nil)))

end

theorem upper_lower (c : UInt16) : (c >>> 8).toUInt8.toUInt16 <<< 8 ||| c.toUInt8.toUInt16 = c := by
  have hc : c.toNat < 65536 := c.toNat_lt
  have hlower : c.toNat % 256 < 2 ^ 8 := Nat.mod_lt _ (by decide)
  have hshift : c.toNat >>> 8 % 256 = c.toNat / 256 := by
    rw [Nat.shiftRight_eq_div_pow]
    omega
  have hupper : (c.toNat / 256) <<< 8 = c.toNat / 256 * 256 := Nat.shiftLeft_eq _ _
  have hmod : (c.toNat / 256) <<< 8 % 65536 = (c.toNat / 256) <<< 8 := by omega
  apply UInt16.toNat_inj.mp
  simp only [UInt16.toNat_or, UInt16.toNat_shiftLeft, UInt8.toNat_toUInt16, UInt16.toNat_toUInt8,
    UInt16.toNat_shiftRight, UInt16.reduceToNat, Nat.reduceMod, Nat.reducePow]
  rw [hshift, hmod, ← Nat.shiftLeft_add_eq_or_of_lt hlower, hupper]
  omega

theorem QRect.ofSize_size (r : QRect) : QRect.ofSize r.topLeft r.size = r := by
  have hsub : ∀ a c : BitVec 32, a + (c - a + 1) - 1 = c := fun a c => by
    rw [← BitVec.add_assoc, BitVec.add_sub_cancel, BitVec.add_comm, BitVec.sub_add_cancel]
  obtain ⟨x1, y1, x2, y2⟩ := r
  show QRect.mk x1 y1 (x1 + (x2 - x1 + 1) - 1) (y1 + (y2 - y1 + 1) - 1) = _
  rw [hsub, hsub]

theorem QMatrix4x4.ofRows_rows (m : QMatrix4x4) : QMatrix4x4.ofRows m.rows = m := by
  obtain ⟨data⟩ := m
  refine congrArg QMatrix4x4.mk (funext fun k => ?_)
  fin_cases k <;> rfl

theorem QMatrix4x4.kept_rows {m : QMatrix4x4} (h : @Numbers.Kept .float _ m.data) : m.rows.Kept := by
  intro i
  fin_cases i <;> exact h _

section
variable {S : Schema PType} (hS : Declares S) (qt : QtCore)
include hS

theorem QPoint.inverse : QPoint.convert.Inverse S qt .QPoint fun _ => True :=
  integers_inverse rfl (hS.properties .QPoint)

theorem QSize.inverse : QSize.convert.Inverse S qt .QSize fun _ => True :=
  integers_inverse rfl (hS.properties .QSize)

theorem QPointF.inverse : QPointF.convert.Inverse S qt .QPointF Numbers.Kept :=
  numbers_inverse (hS.properties .QPointF)

theorem QSizeF.inverse : QSizeF.convert.Inverse S qt .QSizeF Numbers.Kept :=
  numbers_inverse (hS.properties .QSizeF)

theorem QVector3D.inverse : QVector3D.convert.Inverse S qt .QVector3D Numbers.Kept :=
  numbers_inverse (hS.properties .QVector3D)

theorem QChar.inverse : QChar.convert.Inverse S qt .QChar fun _ => True where
  typed c _ := by
    have hp := hS.properties .QChar
    refine .object PType.QChar (by rw [hp]; rfl) (hp ▸ typed_fields (.cons ?_ .nil))
    exact .scalar (v := .bytes _) trivial
  ofMessage c _ fs he _ := by
    have hbytes : byteArray fs 0 = _ := byteArray_equal he rfl
    simp only [QChar.convert, hbytes, upper_lower]

theorem QTime.inverse : QTime.convert.Inverse S qt .QTime fun t => t.mds ≠ -1 where
  typed t _ := (@integers_inverse S qt .QTime .sint32 rfl 1 (hS.properties _)).typed
    (fun _ => t.msecsSinceStartOfDay) trivial
  ofMessage t hk fs he _ := by
    have hnumber : number fs 0 .sint32 = t.msecsSinceStartOfDay := number_equal he rfl
    have hvalid : t.msecsSinceStartOfDay = t.mds := if_neg hk
    simp only [QTime.convert, hnumber, hvalid]

theorem QRect.inverse : (QRect.convert S).Inverse S qt .QRect fun _ => True where
  typed r _ := typed_pair (hS.properties .QRect) ((QPoint.inverse hS qt).typed _ trivial)
    ((QSize.inverse hS qt).typed _ trivial)
  ofMessage r _ fs he hn := by
    have htopLeft : QPoint.convert.ofMessage (message S fs 0) = some r.topLeft :=
      (QPoint.inverse hS qt).field trivial he hn rfl
    have hsize : QSize.convert.ofMessage (message S fs 1) = some r.size :=
      (QSize.inverse hS qt).field trivial he hn rfl
    simp [QRect.convert, htopLeft, hsize, QRect.ofSize_size]

theorem QRectF.inverse : (QRectF.convert S).Inverse S qt .QRectF fun r => r.topLeft.Kept ∧ r.size.Kept where
  typed r hk := typed_pair (hS.properties .QRectF) ((QPointF.inverse hS qt).typed _ hk.1)
    ((QSizeF.inverse hS qt).typed _ hk.2)
  ofMessage r hk fs he hn := by
    have htopLeft : QPointF.convert.ofMessage (message S fs 0) = some r.topLeft :=
      (QPointF.inverse hS qt).field hk.1 he hn rfl
    have hsize : QSizeF.convert.ofMessage (message S fs 1) = some r.size :=
      (QSizeF.inverse hS qt).field hk.2 he hn rfl
    simp [QRectF.convert, htopLeft, hsize]

theorem QMatrix4x4.inverse :
    QMatrix4x4.convert.Inverse S qt .QMatrix4x4 fun m => @Numbers.Kept .float _ m.data where
  typed m hk := (@numbers_inverse S qt .QMatrix4x4 .float 16 (hS.properties _)).typed m.rows (kept_rows hk)
  ofMessage m hk fs he hn := by
    have hrows := @numbers_inverse S qt .QMatrix4x4 .float 16 (hS.properties _)
    simp [QMatrix4x4.convert, hrows.ofMessage m.rows (kept_rows hk) fs he hn, QMatrix4x4.ofRows_rows]

theorem QQuaternion.inverse : (QQuaternion.convert S).Inverse S qt .QQuaternion
    fun q => ¬ NumType.float.negativeZero q.scalar ∧ q.vector.Kept where
  typed q hk := by
    have hp := hS.properties .QQuaternion
    refine .object PType.QQuaternion (by rw [hp]; rfl)
      (hp ▸ typed_fields (.cons ?_ (.cons ((QVector3D.inverse hS qt).typed _ hk.2) .nil)))
    exact .scalar (v := .num .float q.scalar) hk.1
  ofMessage q hk fs he hn := by
    have hscalar : number fs 0 .float = q.scalar := number_equal he rfl
    have hvector : QVector3D.convert.ofMessage (message S fs 1) = some q.vector :=
      (QVector3D.inverse hS qt).field hk.2 he hn rfl
    simp [QQuaternion.convert, hscalar, hvector]

/-- **Conversions.** -/
theorem convert_inverse (m : PType) : (m.convert S).Inverse S qt m m.Kept := by
  cases m with
  | QChar => exact QChar.inverse hS qt
  | QTime => exact QTime.inverse hS qt
  | QSize => exact QSize.inverse hS qt
  | QSizeF => exact QSizeF.inverse hS qt
  | QPoint => exact QPoint.inverse hS qt
  | QPointF => exact QPointF.inverse hS qt
  | QRect => exact (QRect.inverse hS qt).mono fun _ _ => trivial
  | QRectF => exact QRectF.inverse hS qt
  | QPolygon => exact (points_inverse (QPoint.inverse hS qt) (hS.properties .QPolygon)).mono fun _ _ _ _ => trivial
  | QPolygonF => exact points_inverse (QPointF.inverse hS qt) (hS.properties .QPolygonF)
  | QMatrix4x4 => exact QMatrix4x4.inverse hS qt
  | QVector2D => exact numbers_inverse (hS.properties .QVector2D)
  | QVector3D => exact QVector3D.inverse hS qt
  | QVector4D => exact numbers_inverse (hS.properties .QVector4D)
  | QTransform => exact numbers_inverse (hS.properties .QTransform)
  | QQuaternion => exact QQuaternion.inverse hS qt

end

/-- An invalid time is sent as midnight. -/
example : QTime.convert.ofMessage (QTime.convert.toMessage ⟨-1⟩) = some ⟨0⟩ := rfl

/-! ## Null pointers -/

section
variable {M : Type} {S : Schema M} {qt : QtCore} {env : Bytes → Int → UInt8} {n : Nat}

theorem nullPointer_toMessages {v w : Value M} (hw : w ∈ v.toMessages) (hn : NullPointer w) : HasNull v := by
  cases v with
  | messages vs => exact hasNull_messages.mpr ⟨w, hw, hn⟩
  | _ => cases hw

theorem not_hasNull_value (hrec : ∀ m array fs, (nestedMessage S qt env n m array).2 = .ok fs →
      ¬ HasNull (.object m fs)) {b : Buffer} {previous v : Value M} (hp : ¬ HasNull previous)
    {t : FieldType M} (ht : ∀ kt vt, t ≠ .map kt vt) {it it' : Iter}
    (h : Traced.Runs (deserializeValue qt (nestedMessage S qt env n) n b previous t) it v it') :
    ¬ HasNull v := by
  cases t with
  | single t =>
    cases t with
    | message m =>
      obtain ⟨array, fs, -, hfs, rfl⟩ := object_inv h
      exact hrec m array fs hfs
    | _ =>
      obtain ⟨_, s, -, h⟩ := h.bind_inv
      obtain ⟨rfl, -⟩ := h.pure_inv
      exact fun h => by cases h
  | messages m =>
    obtain ⟨new, s, hnew, h⟩ := h.bind_inv
    obtain ⟨rfl, -⟩ := h.pure_inv
    obtain ⟨array, fs, -, hfs, rfl⟩ := object_inv hnew
    intro hnull
    obtain ⟨w, hw, hn⟩ := hasNull_messages.mp hnull
    rcases List.mem_append.mp hw with hw | hw
    · exact hp (nullPointer_toMessages hw hn)
    · cases List.mem_singleton.mp hw
      rcases hn with hn | hn
      · cases hn
      · exact hrec m array fs hfs hn
  | map kt vt => exact absurd rfl (ht kt vt)
  | _ =>
    obtain ⟨_, s, -, h⟩ := h.bind_inv
    obtain ⟨rfl, -⟩ := h.pure_inv
    exact fun h => by cases h

/-- Without maps what is decoded has no null pointers. -/
theorem not_hasNull_decoded (hmap : ∀ m kt vt, .map kt vt ∉ (S m).properties) {m : M} {data : Bytes}
    {fs : List (Value M)} (h : (deserializeMessage S qt env n m (newObject S m) data).2 = (fs, none)) :
    ¬ HasNull (.object m fs) := by
  induction n generalizing m data fs with
  | zero => cases h
  | succ n ih =>
    rw [deserializeMessage_succ] at h
    obtain ⟨it', hr⟩ := messageLoop_runs h
    let I (obj : List (Value M)) (_ : Iter) := ¬ HasNull (.object m obj)
    have hstep : ∀ a s c s', I a s → Iter.differs (Buffer.size ⟨data, env data⟩) s = true →
        Traced.Runs (call S qt env n ⟨data, env data⟩ m a) s c s' → I c s' := by
      intro a s c s' hI _ hc
      obtain ⟨f, w, it₁, -, ⟨-, -, rfl⟩ | ⟨i, t, new, hf, hvalue, rfl⟩⟩ := call_inv hc
      · exact hI
      · have hprevious : ¬ HasNull (a.getD i t.default) := by
          intro hn
          rw [List.getD_eq_getElem?_getD] at hn
          cases hget : a[i]? with
          | none => rw [hget] at hn; exact not_hasNull_default t hn
          | some v => rw [hget] at hn; exact hI (.field (List.mem_of_getElem? hget) hn)
        have hnew : ¬ HasNull new := not_hasNull_value
          (fun m array fs hfs => ih (nestedMessage_ok hfs)) hprevious
          (fun kt vt ht => hmap m kt vt (ht ▸ List.mem_of_getElem? (MetaObject.find_mem hf).2)) hvalue
        intro hnull
        obtain ⟨v, hv, hn⟩ := hasNull_object.mp hnull
        rcases List.mem_or_eq_of_mem_set hv with hv | rfl
        · exact hI (.field hv hn)
        · unfold Value.write at hn
          split at hn
          · exact hprevious hn
          · exact hnew hn
    have hstart : I (newObject S m) (.ofBuffer ⟨data, env data⟩) := fun hnull => by
      obtain ⟨v, hv, hn⟩ := hasNull_object.mp hnull
      obtain ⟨t, -, rfl⟩ := List.mem_map.mp hv
      exact not_hasNull_default t hn
    exact (Traced.Runs.while_inv hstep hr hstart).1

end

/-! ## Round trip -/

namespace Declares

variable {S : Schema PType} (hS : Declares S)
include hS

theorem no_map (m : PType) (kt : ScalarType) (vt : SingleType PType) : .map kt vt ∉ (S m).properties := by
  rw [hS.properties]
  cases m <;> simp [PType.fields, numberFields]

theorem acyclic : Acyclic S := by
  let level : PType → Nat
    | .QRect | .QRectF | .QQuaternion => 1
    | _ => 0
  have hcontains : ∀ m' m, Contains S m' m → level m' < level m := by
    intro m' m h
    rw [Contains, hS.properties] at h
    cases m <;> simp [PType.fields, numberFields] at h <;> rcases h with rfl | rfl <;> decide
  have htrans : ∀ m' m, Relation.TransGen (Contains S) m' m → level m' < level m := by
    intro m' m h
    induction h with
    | single h => exact hcontains _ _ h
    | tail _ h ih => exact ih.trans (hcontains _ _ h)
  exact fun m h => Nat.lt_irrefl _ (htrans m m h)

end Declares

/-- **Handlers.** What the serializer of a type writes, its deserializer makes the same
value of, wherever it stands in a buffer, and goes up to what is behind. -/
theorem handler_round_trip {S : Schema PType} (hS : Declares S) (qt : QtCore) {m : PType} {value : m.Native}
    (hk : m.Kept value) {f : Nat} (h0 : 0 < f) (hf : f < 2 ^ 29) :
    ∃ bytes, (∃ levels, ∀ levels', levels ≤ levels' → serializer S qt m levels' f value = some bytes) ∧
      ∀ env n b it after, b.data.length < 2 ^ 31 → bytes.length ≤ n → At b it (bytes ++ after) →
        ∃ it', Traced.Runs (do
            let header ← decodeHeader b
            let value' ← deserializer S qt m env n b
            pure (header, value')) it ((true, f, .lengthDelimited), some value) it' ∧ At b it' after := by
  have hinverse := convert_inverse hS qt m
  have htyped := hinverse.typed value hk
  obtain ⟨levels, data, hdata⟩ := serializeMessage_total hS.acyclic htyped
  refine ⟨encodeHeader f .lengthDelimited ++ prependLengthDelimitedSize data,
    ⟨levels, fun levels' hle => ?_⟩, fun env n b it after hsize hn hat => ?_⟩
  · simp [serializer, serializeObject, serializeMessage_mono hle hdata]
  · rw [List.append_assoc] at hat
    obtain ⟨before, hbuffer⟩ := hat.suffix
    have hlength := congrArg List.length hbuffer
    have hheader := List.length_pos_iff.mpr (encodeHeader_ne_nil hf (t := .lengthDelimited) rfl)
    have hle := prepend_length data
    simp only [List.length_append] at hlength hn
    obtain ⟨fs, hread, he⟩ := reads_message htyped hdata (n := n) (by omega) (by omega)
    have hdecoded : (deserializeMessage S qt env n m (newObject S m) data).2 = (fs, none) :=
      deserializeMessage_ok hread
    have hvalue := hinverse.ofMessage value hk fs he (not_hasNull_decoded hS.no_map hdecoded)
    -- the reading of the record, and the decoder that follows it
    have hobject := (reads_lengthDelimited hsize data).bind
      (k := fun array => Walk.lift (Rest.nested S qt n m array) >>= fun fields => pure (Value.object m fields))
      ((lift_ok hread).map fun fields => Value.object m fields)
    rw [List.append_nil] at hobject
    have hfollows : Follows Event.Good (nestedMessage S qt env n) (Rest.nested S qt n) :=
      fun m array => follows_message S qt env n m (newObject S m) array
    obtain ⟨_, it₁, hheader, rfl, hat₁⟩ := (Rest.sound b).header.runs hat
      (reads_encodeHeader hsize h0 hf rfl _ (by simp only [List.length_append]; omega))
    obtain ⟨_, it₂, hobject, rfl, hat₂⟩ := ((Rest.sound b).object hfollows m).runs hat₁
      (hobject after (by simp only [List.length_append]; omega))
    have hdeserializer : Traced.Runs (deserializer S qt m env n b) it₁ (some value) it₂ := by
      rw [← hvalue]
      exact hobject.bind (.pure _ _)
    exact ⟨it₂, hheader.bind (hdeserializer.bind (.pure _ _)), hat₂⟩

theorem numbering_distinct (k : Nat) : ((numbering k).map Prod.fst).Nodup := by
  rw [numbering, List.map_map]
  exact List.nodup_range.map fun i j h => Nat.succ.inj h

theorem numbering_indices (k : Nat) : ((numbering k).map Prod.snd).Perm (List.range k) := by
  rw [numbering, List.map_map]
  exact .of_eq (List.map_id _)

theorem PType.fields_inRange (m : PType) : ∀ p ∈ numbering m.fields.length, 0 < p.1 ∧ p.1 < 536870912 := by
  intro p hp
  obtain ⟨i, hi, rfl⟩ := List.mem_map.mp hp
  have hi := List.mem_range.mp hi
  have hlength : m.fields.length ≤ 16 := by cases m <;> decide
  exact ⟨Nat.succ_pos i, by show i + 1 < 536870912; omega⟩

/-- The enumeration in the order of the numbers. -/
def declared : Schema PType := fun m =>
  { properties := m.fields
    propertyOrdering := numbering m.fields.length
    distinct := numbering_distinct _
    inRange := m.fields_inRange
    indices := numbering_indices _ }

theorem declared_declares : Declares declared := ⟨fun _ => rfl, fun _ => .refl _⟩

/-- The rectangle with the corners (-3, 0) and (4, 0). -/
theorem handler_round_trip_rect :
    ∃ bytes, (∃ levels, ∀ levels', levels ≤ levels' →
        serializer declared .ascii .QRect levels' 1 (QRect.mk (-3) 0 4 0) = some bytes) ∧
      ∀ env n b it after, b.data.length < 2 ^ 31 → bytes.length ≤ n → At b it (bytes ++ after) →
        ∃ it', Traced.Runs (do
            let header ← decodeHeader b
            let value' ← deserializer declared .ascii .QRect env n b
            pure (header, value')) it
          ((true, 1, .lengthDelimited), some (QRect.mk (-3) 0 4 0)) it' ∧ At b it' after :=
  handler_round_trip declared_declares .ascii (m := .QRect)
    (show QRect.Fits ⟨-3, 0, 4, 0⟩ from ⟨by decide, by decide⟩) (by decide) (by decide)

end QtProtobuf.QtTypes
