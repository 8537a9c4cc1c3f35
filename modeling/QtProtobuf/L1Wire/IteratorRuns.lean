import QtProtobuf.Core.Lts
import QtProtobuf.L1Wire.Iterator

/-!
# Runs on iterators (`protobuf/qprotobufselfcheckiterator.h`)

Objects are constructed, copied, assigned and moved in any order, and an
exception is caught before the next operation. Every operation changes its
counter first and checks one bound then; what it changed stays changed.

* `Move.apply_within`: a move that stays in its range moves, as far as asked.
* `asked_iff`: one operation on objects in their range does all that is asked of
  it exactly if it does not leave the range (`it + lenght`: not the `int`).
* `iterator_runs_iff`: the same for whole runs.
-/
namespace QtProtobuf.Wire

open Lib

namespace Iter

/-- mirrors src/protobuf/qprotobufselfcheckiterator.h:68-75 (operator --) -/
def decrement (it : Iter) : Iter × Option Stop :=
  let it := { it with sizeLeft := int32 (it.sizeLeft + 1) }
  if it.containerSize < it.sizeLeft then (it, some .outOfRange) else ({ it with pos := it.pos - 1 }, none)

/-- mirrors src/protobuf/qprotobufselfcheckiterator.h:86-93 (operator -=) -/
def minusAssign (it : Iter) (count : Int) : Iter × Option Stop :=
  let it := { it with sizeLeft := int32 (it.sizeLeft + count) }
  if it.containerSize < it.sizeLeft then (it, some .outOfRange)
  else ({ it with pos := it.pos - count }, none)

/-- mirrors src/protobuf/qprotobufselfcheckiterator.h:95-107 (operator =), behind
the test for the object itself -/
def assign (it other : Iter) : Iter × Option Stop :=
  let it := { it with containerSize := other.containerSize, sizeLeft := other.sizeLeft }
  if it.containerSize < it.sizeLeft ∨ it.sizeLeft < 0 then (it, some .outOfRange)
  else ({ it with pos := other.pos }, none)

/-- mirrors src/protobuf/qprotobufselfcheckiterator.h:138-141 (operator +); the
reference `itNew += lenght` yields is copied once more. -/
def plus (it : Iter) (lenght : Int) : Iter × Option Stop :=
  match it.copy with
  | (itNew, some e) => (itNew, some e)
  | (itNew, none) =>
    match itNew.plusAssign lenght with
    | (itNew, some e) => (itNew, some e)
    | (itNew, none) => itNew.copy

end Iter

/-! ## Moves -/

inductive Move where
  | increment
  | decrement
  | plusAssign (count : BitVec 32)
  | minusAssign (count : BitVec 32)

namespace Move

def apply : Move → Iter → Iter × Option Stop
  | increment, it => it.increment
  | decrement, it => it.decrement
  | plusAssign count, it => it.plusAssign count.toInt
  | minusAssign count, it => it.minusAssign count.toInt

/-- The bytes left after the move, as an unbounded number. -/
def left (it : Iter) : Move → Int
  | increment => it.sizeLeft - 1
  | decrement => it.sizeLeft + 1
  | plusAssign count => it.sizeLeft - count.toInt
  | minusAssign count => it.sizeLeft + count.toInt

end Move

/-- `left` bytes of the buffer can be left. -/
def Within (it : Iter) (left : Int) : Prop := 0 ≤ left ∧ left ≤ it.containerSize

/-- `left` is no `int`. -/
def overflows (left : Int) : Bool := !decide (-2 ^ 31 ≤ left ∧ left < 2 ^ 31)

theorem overflows_eq_false {left : Int} : overflows left = false ↔ -2 ^ 31 ≤ left ∧ left < 2 ^ 31 := by
  simp [overflows]

theorem Move.apply_sizeLeft (m : Move) (it : Iter) : (m.apply it).1.sizeLeft = int32 (m.left it) := by
  cases m with
  | increment => simp only [apply, left, Iter.increment]; split <;> rfl
  | decrement => simp only [apply, left, Iter.decrement]; split <;> rfl
  | plusAssign count => simp only [apply, left, Iter.plusAssign]; split <;> rfl
  | minusAssign count => simp only [apply, left, Iter.minusAssign]; split <;> rfl

theorem Move.apply_containerSize (m : Move) (it : Iter) : (m.apply it).1.containerSize = it.containerSize := by
  cases m with
  | increment => simp only [apply, Iter.increment]; split <;> rfl
  | decrement => simp only [apply, Iter.decrement]; split <;> rfl
  | plusAssign count => simp only [apply, Iter.plusAssign]; split <;> rfl
  | minusAssign count => simp only [apply, Iter.minusAssign]; split <;> rfl

/-- A move that stays in its range does not throw, and the pointer moves as the
counter does. -/
theorem Move.apply_within {m : Move} {it : Iter} (h : Within it (m.left it)) (hsize : it.containerSize < 2 ^ 31) :
    m.apply it = ({ it with sizeLeft := m.left it, pos := it.pos + (it.sizeLeft - m.left it) }, none) := by
  obtain ⟨hlow, hhigh⟩ := h
  have hint : int32 (m.left it) = m.left it := int32_of_range (by omega) (by omega)
  cases m with
  | increment =>
    simp only [left] at hint hlow hhigh
    simp only [apply, Iter.increment, left, hint]
    rw [if_neg (by omega), show it.sizeLeft - (it.sizeLeft - 1) = 1 by omega]
  | decrement =>
    simp only [left] at hint hlow hhigh
    simp only [apply, Iter.decrement, left, hint]
    rw [if_neg (by omega), show it.sizeLeft - (it.sizeLeft + 1) = -1 by omega]
    rfl
  | plusAssign count =>
    simp only [left] at hint hlow hhigh
    simp only [apply, Iter.plusAssign, left, hint]
    rw [if_neg (by omega), show it.sizeLeft - (it.sizeLeft - count.toInt) = count.toInt by omega]
  | minusAssign count =>
    simp only [left] at hint hlow hhigh
    simp only [apply, Iter.minusAssign, left, hint]
    rw [if_neg (by omega), show it.sizeLeft - (it.sizeLeft + count.toInt) = -count.toInt by omega]
    rfl

/-- An `int` wraps once at most, and not back into the range. -/
theorem Move.within_of_int32 {m : Move} {it : Iter} (hleft : Within it it.sizeLeft)
    (hsize : it.containerSize < 2 ^ 31) (h : Within it (int32 (m.left it))) : Within it (m.left it) := by
  obtain ⟨hlow, hhigh⟩ := hleft
  have hbounds : -2 ^ 31 ≤ m.left it ∧ m.left it < 2 ^ 32 := by
    cases m with
    | increment | decrement => simp only [left]; omega
    | plusAssign count | minusAssign count =>
      have hlt := BitVec.toInt_lt (x := count)
      have hle := BitVec.le_toInt count
      simp only [left]
      omega
  rcases Int.lt_or_le (m.left it) (2 ^ 31) with hsmall | hbig
  · rwa [int32_of_range hbounds.1 hsmall] at h
  · rw [int32_of_wrap hbig hbounds.2] at h
    unfold Within at h
    omega

/-! ## Objects -/

/-- A `QByteArray` of less than 2 GiB, as all are whose `size()` is an `int`. -/
structure Container extends Buffer where
  small : data.length < 2 ^ 31

/-- An iterator, and the byte array its pointer leads into. -/
structure Object where
  container : Container
  it : Iter

/-- The iterator is in the range it counts. -/
structure Object.Sound (o : Object) : Prop where
  size : o.it.containerSize = o.container.size
  left : Within o.it o.it.sizeLeft
  pos : o.it.pos = o.it.containerSize - o.it.sizeLeft

theorem Object.Sound.size_lt {o : Object} (h : o.Sound) : o.it.containerSize < 2 ^ 31 := by
  have hsmall := o.container.small
  rw [h.size, Buffer.size]
  omega

theorem Object.Sound.copy {o : Object} (h : o.Sound) : o.it.copy = (o.it, none) := by
  obtain ⟨hlow, hhigh⟩ := h.left
  exact Iter.copy_of_good (by omega)

theorem Object.Sound.ofBuffer (c : Container) : Object.Sound ⟨c, .ofBuffer c.toBuffer⟩ := by
  have hsmall := c.small
  have hsize : int32 c.size = c.size := by
    unfold Buffer.size
    exact int32_of_range (by omega) (by omega)
  have hnonneg : 0 ≤ int32 c.size := by
    rw [hsize, Buffer.size]
    omega
  constructor
  · simpa only [Iter.ofBuffer] using hsize
  · simpa [Within, Iter.ofBuffer] using hnonneg
  · simp [Iter.ofBuffer]

theorem Object.Sound.moved {o : Object} {left : Int} (h : o.Sound) (hw : Within o.it left) :
    Object.Sound ⟨o.container, { o.it with sizeLeft := left, pos := o.it.pos + (o.it.sizeLeft - left) }⟩ := by
  have hpos := h.pos
  refine ⟨h.size, hw, ?_⟩
  simp only
  omega

inductive Operation where
  | construct (container : Container)
  /-- a new object from the `i`-th -/
  | copy (i : Nat)
  /-- the `j`-th to the `i`-th -/
  | assign (i j : Nat)
  | move (i : Nat) (m : Move)
  /-- a new object, `lenght` bytes on from the `i`-th -/
  | plus (i : Nat) (lenght : BitVec 32)

/-- The objects after an operation, the exception, and whether an `int` overflowed. -/
structure Result where
  objects : List Object
  thrown : Option Stop
  overflow : Bool

/-- A new object, if its constructor returns. -/
def create (objects : List Object) (container : Container) (overflow : Bool) : Iter × Option Stop → Result
  | (it, none) => ⟨objects ++ [⟨container, it⟩], none, overflow⟩
  | (_, some e) => ⟨objects, some e, overflow⟩

/-- One operation; there is none on an object that does not exist. -/
def perform (objects : List Object) : Operation → Option Result
  | .construct container => some (create objects container false (.ofBuffer container.toBuffer, none))
  | .copy i => objects[i]?.map fun o => create objects o.container false o.it.copy
  | .assign i j =>
    objects[i]?.bind fun o => objects[j]?.map fun other =>
      if i = j then ⟨objects, none, false⟩
      else
        match o.it.assign other.it with
        | (it, none) => ⟨objects.set i ⟨other.container, it⟩, none, false⟩
        | (it, some e) => ⟨objects.set i ⟨o.container, it⟩, some e, false⟩
  | .move i m => objects[i]?.map fun o =>
      ⟨objects.set i ⟨o.container, (m.apply o.it).1⟩, (m.apply o.it).2, overflows (m.left o.it)⟩
  | .plus i lenght => objects[i]?.map fun o =>
      create objects o.container (overflows (o.it.sizeLeft - lenght.toInt)) (o.it.plus lenght.toInt)

def step (objects : List Object) (op : Operation) : Option (List Object) :=
  (perform objects op).map Result.objects

/-- The iterator of the operation would come to stand outside its buffer. -/
def LeavesRange (objects : List Object) : Operation → Prop
  | .move i m => ∃ o, objects[i]? = some o ∧ ¬ Within o.it (m.left o.it)
  | .plus i lenght => ∃ o, objects[i]? = some o ∧ ¬ Within o.it (o.it.sizeLeft - lenght.toInt)
  | .construct _ | .copy _ | .assign _ _ => False

/-- What is asked of an operation. -/
structure Asked (objects : List Object) (op : Operation) : Prop where
  sound : ∀ r, perform objects op = some r → ∀ o ∈ r.objects, o.Sound
  throws : ∀ r, perform objects op = some r → LeavesRange objects op → r.thrown.isSome ∧ r.objects = objects
  fits : ∀ r, perform objects op = some r → r.overflow = false

/-- A move stays in its range; the counter of `it + lenght` stays an `int`. -/
def Stays (objects : List Object) : Operation → Prop
  | .move i m => ∀ o, objects[i]? = some o → Within o.it (m.left o.it)
  | .plus i lenght => ∀ o, objects[i]? = some o → o.it.sizeLeft - lenght.toInt < 2 ^ 31
  | .construct _ | .copy _ | .assign _ _ => True

section Performed
variable {objects : List Object} {o : Object}

theorem forall_append {new : Object} (hs : ∀ o ∈ objects, o.Sound) (hnew : new.Sound) :
    ∀ o ∈ objects ++ [new], o.Sound := by
  intro o ho
  rcases List.mem_append.mp ho with h | h
  · exact hs o h
  · rw [List.mem_singleton.mp h]
    exact hnew

theorem forall_set {new : Object} (hs : ∀ o ∈ objects, o.Sound) (hnew : new.Sound) (i : Nat) :
    ∀ o ∈ objects.set i new, o.Sound := by
  intro o ho
  rcases List.mem_or_eq_of_mem_set ho with h | h
  · exact hs o h
  · rw [h]
    exact hnew

theorem asked_construct (hs : ∀ o ∈ objects, o.Sound) (container : Container) :
    Asked objects (.construct container) where
  sound r hr := by
    cases hr
    exact forall_append hs (.ofBuffer container)
  throws r _ hleaves := absurd hleaves id
  fits r hr := by
    cases hr
    rfl

theorem asked_copy (hs : ∀ o ∈ objects, o.Sound) (i : Nat) : Asked objects (.copy i) := by
  have hcreate : ∀ r, perform objects (.copy i) = some r →
      ∃ o ∈ objects, r = ⟨objects ++ [o], none, false⟩ := by
    intro r hr
    obtain ⟨o, ho, rfl⟩ := Option.map_eq_some_iff.mp hr
    have hmem := List.mem_of_getElem? ho
    refine ⟨o, hmem, ?_⟩
    rw [(hs o hmem).copy]
    rfl
  refine ⟨fun r hr => ?_, fun _ _ hleaves => absurd hleaves id, fun r hr => ?_⟩
  · obtain ⟨o, hmem, rfl⟩ := hcreate r hr
    exact forall_append hs (hs o hmem)
  · obtain ⟨o, -, rfl⟩ := hcreate r hr
    rfl

theorem Object.Sound.assign {other : Object} (h : other.Sound) (it : Iter) :
    it.assign other.it = (other.it, none) := by
  obtain ⟨hlow, hhigh⟩ := h.left
  exact if_neg (by dsimp only; omega)

theorem asked_assign (hs : ∀ o ∈ objects, o.Sound) (i j : Nat) : Asked objects (.assign i j) := by
  have hset : ∀ r, perform objects (.assign i j) = some r →
      r = ⟨objects, none, false⟩ ∨ ∃ o ∈ objects, r = ⟨objects.set i o, none, false⟩ := by
    intro r hr
    obtain ⟨o, -, hr⟩ := Option.bind_eq_some_iff.mp hr
    obtain ⟨other, hother, rfl⟩ := Option.map_eq_some_iff.mp hr
    by_cases hij : i = j
    · exact .inl (if_pos hij)
    · have hmem := List.mem_of_getElem? hother
      refine .inr ⟨other, hmem, ?_⟩
      rw [if_neg hij, (hs other hmem).assign]
  refine ⟨fun r hr => ?_, fun _ _ hleaves => absurd hleaves id, fun r hr => ?_⟩
  · rcases hset r hr with rfl | ⟨o, hmem, rfl⟩
    · exact hs
    · exact forall_set hs (hs o hmem) i
  · rcases hset r hr with rfl | ⟨o, -, rfl⟩ <;> rfl

theorem asked_move_iff (hs : ∀ o ∈ objects, o.Sound) (i : Nat) (m : Move) :
    Asked objects (.move i m) ↔ Stays objects (.move i m) := by
  constructor
  · intro ha o ho
    have hr : perform objects (.move i m) =
        some ⟨objects.set i ⟨o.container, (m.apply o.it).1⟩, (m.apply o.it).2, overflows (m.left o.it)⟩ := by
      simp only [perform, ho, Option.map_some]
    have hold := hs o (List.mem_of_getElem? ho)
    obtain ⟨hi, -⟩ := List.getElem?_eq_some_iff.mp ho
    have hnew := (ha.sound _ hr _ (List.mem_set hi _)).left
    simp only [Within, Move.apply_sizeLeft, Move.apply_containerSize] at hnew
    exact Move.within_of_int32 hold.left hold.size_lt hnew
  · intro hw
    have hmoved : ∀ r, perform objects (.move i m) = some r → ∃ o, objects[i]? = some o ∧
        r = ⟨objects.set i ⟨o.container,
          { o.it with sizeLeft := m.left o.it, pos := o.it.pos + (o.it.sizeLeft - m.left o.it) }⟩, none, false⟩ := by
      intro r hr
      obtain ⟨o, ho, rfl⟩ := Option.map_eq_some_iff.mp hr
      have hsize := (hs o (List.mem_of_getElem? ho)).size_lt
      obtain ⟨hlow, hhigh⟩ := hw o ho
      have hfits : overflows (m.left o.it) = false := overflows_eq_false.mpr (by omega)
      rw [Move.apply_within (hw o ho) hsize, hfits]
      exact ⟨o, ho, rfl⟩
    refine ⟨fun r hr => ?_, fun r _ ⟨o, ho, hout⟩ => absurd (hw o ho) hout, fun r hr => ?_⟩
    · obtain ⟨o, ho, rfl⟩ := hmoved r hr
      exact forall_set hs ((hs o (List.mem_of_getElem? ho)).moved (hw o ho)) i
    · obtain ⟨o, -, rfl⟩ := hmoved r hr
      rfl

/-- `it + lenght` checks both bounds: what comes before the buffer is found by
the last copy. -/
theorem Object.Sound.plus (h : o.Sound) {lenght : Int}
    (hint : int32 (o.it.sizeLeft - lenght) = o.it.sizeLeft - lenght) :
    (Within o.it (o.it.sizeLeft - lenght) ∧
        o.it.plus lenght = ({ o.it with sizeLeft := o.it.sizeLeft - lenght, pos := o.it.pos + lenght }, none)) ∨
      ¬ Within o.it (o.it.sizeLeft - lenght) ∧ ∃ it e, o.it.plus lenght = (it, some e) := by
  by_cases hneg : o.it.sizeLeft - lenght < 0
  · refine .inr ⟨fun hw => Int.not_lt.mpr hw.1 hneg, { o.it with sizeLeft := o.it.sizeLeft - lenght },
      .outOfRange, ?_⟩
    simp only [Iter.plus, h.copy, Iter.plusAssign, hint, if_pos hneg]
  · by_cases hbig : o.it.containerSize < o.it.sizeLeft - lenght
    · refine .inr ⟨fun hw => Int.not_lt.mpr hw.2 hbig,
        { o.it with sizeLeft := o.it.sizeLeft - lenght, pos := o.it.pos + lenght }, .outOfRange, ?_⟩
      simp only [Iter.plus, h.copy, Iter.plusAssign, hint, if_neg hneg]
      exact Iter.copy_of_bad (.inl hbig)
    · refine .inl ⟨⟨Int.not_lt.mp hneg, Int.not_lt.mp hbig⟩, ?_⟩
      simp only [Iter.plus, h.copy, Iter.plusAssign, hint, if_neg hneg]
      exact Iter.copy_of_good (by simp only; omega)

theorem asked_plus_iff (hs : ∀ o ∈ objects, o.Sound) (i : Nat) (lenght : BitVec 32) :
    Asked objects (.plus i lenght) ↔ Stays objects (.plus i lenght) := by
  have hlow : ∀ o, objects[i]? = some o → -2 ^ 31 ≤ o.it.sizeLeft - lenght.toInt := by
    intro o ho
    have hleft := (hs o (List.mem_of_getElem? ho)).left.1
    have hlt := BitVec.toInt_lt (x := lenght)
    omega
  constructor
  · intro ha o ho
    have hr : perform objects (.plus i lenght) =
        some (create objects o.container (overflows (o.it.sizeLeft - lenght.toInt)) (o.it.plus lenght.toInt)) := by
      simp only [perform, ho, Option.map_some]
    have hfits := ha.fits _ hr
    have hflag : overflows (o.it.sizeLeft - lenght.toInt) = false := by
      rw [← hfits]
      unfold create
      split <;> rfl
    exact (overflows_eq_false.mp hflag).2
  · intro hw
    have hcreate : ∀ r, perform objects (.plus i lenght) = some r → ∃ o, objects[i]? = some o ∧
        r = create objects o.container false (o.it.plus lenght.toInt) := by
      intro r hr
      obtain ⟨o, ho, rfl⟩ := Option.map_eq_some_iff.mp hr
      rw [overflows_eq_false.mpr ⟨hlow o ho, hw o ho⟩]
      exact ⟨o, ho, rfl⟩
    have hint : ∀ o, objects[i]? = some o →
        int32 (o.it.sizeLeft - lenght.toInt) = o.it.sizeLeft - lenght.toInt :=
      fun o ho => int32_of_range (hlow o ho) (hw o ho)
    refine ⟨fun r hr => ?_, fun r hr ⟨o, ho, hout⟩ => ?_, fun r hr => ?_⟩
    · obtain ⟨o, ho, rfl⟩ := hcreate r hr
      have hold := hs o (List.mem_of_getElem? ho)
      rcases hold.plus (hint o ho) with ⟨hwithin, hplus⟩ | ⟨-, it, e, hplus⟩
      · rw [hplus]
        have hmoved := hold.moved hwithin
        rw [show o.it.sizeLeft - (o.it.sizeLeft - lenght.toInt) = lenght.toInt by omega] at hmoved
        exact forall_append hs hmoved
      · rw [hplus]
        exact hs
    · obtain ⟨o', ho', rfl⟩ := hcreate r hr
      rw [ho, Option.some.injEq] at ho'
      subst ho'
      rcases (hs o (List.mem_of_getElem? ho)).plus (hint o ho) with ⟨hwithin, -⟩ | ⟨-, it, e, hplus⟩
      · exact absurd hwithin hout
      · rw [hplus]
        exact ⟨rfl, rfl⟩
    · obtain ⟨o, -, rfl⟩ := hcreate r hr
      unfold create
      split <;> rfl

theorem asked_iff (hs : ∀ o ∈ objects, o.Sound) (op : Operation) : Asked objects op ↔ Stays objects op := by
  cases op with
  | construct container => exact iff_of_true (asked_construct hs container) trivial
  | copy i => exact iff_of_true (asked_copy hs i) trivial
  | assign i j => exact iff_of_true (asked_assign hs i j) trivial
  | move i m => exact asked_move_iff hs i m
  | plus i lenght => exact asked_plus_iff hs i lenght

end Performed

theorem step_sound {objects objects' : List Object} {op : Operation} (hs : ∀ o ∈ objects, o.Sound)
    (hop : Stays objects op) (h : step objects op = some objects') : ∀ o ∈ objects', o.Sound := by
  obtain ⟨r, hr, rfl⟩ := Option.map_eq_some_iff.mp h
  exact ((asked_iff hs op).mpr hop).sound r hr

/-- **Iterators.** Along a run, every operation does what is asked of it if and
only if every operation stays in its range. -/
theorem iterator_runs_iff (ops : List Operation) : Along step Asked [] ops ↔ Along step Stays [] ops :=
  along_congr (I := fun objects => ∀ o ∈ objects, o.Sound) (fun _ op hs => asked_iff hs op)
    (fun _ _ _ hs hop h => step_sound hs hop h) (fun _ h => absurd h List.not_mem_nil)

/-- An array without bytes. -/
def noBytes : Container := ⟨⟨[], fun _ => 0⟩, by decide⟩

/-- `+= -1` leads before the array and does not throw; `++` throws, and leaves
-1 bytes. -/
theorem not_asked_noBytes :
    perform [⟨noBytes, .ofBuffer noBytes.toBuffer⟩] (.move 0 (.plusAssign (-1))) =
        some ⟨[⟨noBytes, ⟨1, 0, -1⟩⟩], none, false⟩ ∧
      perform [⟨noBytes, .ofBuffer noBytes.toBuffer⟩] (.move 0 .increment) =
        some ⟨[⟨noBytes, ⟨-1, 0, 0⟩⟩], some .outOfRange, false⟩ ∧
      ¬ Along step Asked [] [.construct noBytes, .move 0 (.plusAssign (-1))] := by
  have hfirst : step [] (.construct noBytes) = some [⟨noBytes, .ofBuffer noBytes.toBuffer⟩] := rfl
  have hback : perform [⟨noBytes, .ofBuffer noBytes.toBuffer⟩] (.move 0 (.plusAssign (-1))) =
      some ⟨[⟨noBytes, ⟨1, 0, -1⟩⟩], none, false⟩ := by
    simp [perform, Move.apply, Iter.plusAssign, Iter.ofBuffer, noBytes, Buffer.size, int32, Move.left, overflows]
  refine ⟨hback, ?_, fun h => ?_⟩
  · simp [perform, Move.apply, Iter.increment, Iter.ofBuffer, noBytes, Buffer.size, int32, Move.left, overflows]
  · have hasked := (h.2 _ hfirst).1
    have hsound := hasked.sound _ hback _ List.mem_cons_self
    exact absurd hsound.left.2 (by decide)

end QtProtobuf.Wire
