import QtProtobuf.Core.Bytes
import QtProtobuf.Core.Traced

/-!
# `QProtobufSelfcheckIterator` (`protobuf/qprotobufselfcheckiterator.h`)

The iterator counts the bytes left in an `int` and checks the counter when it
moves; the byte it points to is read through the raw pointer. `pos` is the
pointer's offset in its buffer.

A decoder is a program on an iterator (`Dec`) that records what it reads, each
move by a length from the input, and each step of a decoding loop.

* `At it rest`: the iterator stands before `rest`, the last bytes of its buffer.
* `DecSim.advance`, `DecSim.next`, `DecSim.deref`: the operators do from there what
  those of the list reading do.
-/
namespace QtProtobuf.Wire

open Lib

/-- A byte array, and the memory around it by offset. -/
structure Buffer where
  data : Bytes
  mem : Int → UInt8

def Buffer.size (b : Buffer) : Int := b.data.length

/-- The byte at offset `p`; a `QByteArray` ends with a zero. -/
def Buffer.byte (b : Buffer) (p : Int) : UInt8 :=
  if 0 ≤ p ∧ p < b.size then b.data.getD p.toNat 0 else if p = b.size then 0 else b.mem p

/-- The `n` bytes from offset `p` on. -/
def Buffer.bytes (b : Buffer) (p : Int) (n : Nat) : Bytes := (List.range n).map fun i : Nat => b.byte (p + i)

/-- mirrors src/protobuf/qprotobufselfcheckiterator.h:132-135 (members) -/
structure Iter where
  sizeLeft : Int
  containerSize : Int
  pos : Int
  deriving DecidableEq, Repr

/-- The exceptions, and `spent`: the rounds of a loop of the model are used up. -/
inductive Stop where
  | outOfRange | invalidArgument | spent
  deriving DecidableEq, Repr

inductive Event where
  /-- `*it` at offset `pos` of a buffer of `size` bytes -/
  | deref (size pos : Int)
  /-- `n` bytes taken from offset `pos` on -/
  | read (size pos : Int) (n : Nat)
  /-- a move by a length prefix -/
  | lengthMove (pos pos' : Int)
  /-- a call of `deserializeProperty`, or a round of `deserializeMapPair`, that did not throw -/
  | step (pos pos' : Int)
  deriving DecidableEq, Repr

abbrev Dec := Traced Event Stop Iter

namespace Iter

/-- mirrors src/protobuf/qprotobufselfcheckiterator.h:42-44 (constructor) -/
def ofBuffer (b : Buffer) : Iter := ⟨int32 b.size, int32 b.size, 0⟩

/-- mirrors src/protobuf/qprotobufselfcheckiterator.h:46-52 (copy constructor) -/
def copy (it : Iter) : Iter × Option Stop :=
  if it.containerSize < it.sizeLeft ∨ it.sizeLeft < 0 then (it, some .outOfRange) else (it, none)

/-- mirrors src/protobuf/qprotobufselfcheckiterator.h:59-66 (operator ++) -/
def increment (it : Iter) : Iter × Option Stop :=
  let it := { it with sizeLeft := int32 (it.sizeLeft - 1) }
  if it.sizeLeft < 0 then (it, some .outOfRange) else ({ it with pos := it.pos + 1 }, none)

/-- mirrors src/protobuf/qprotobufselfcheckiterator.h:77-84 (operator +=) -/
def plusAssign (it : Iter) (count : Int) : Iter × Option Stop :=
  let it := { it with sizeLeft := int32 (it.sizeLeft - count) }
  if it.sizeLeft < 0 then (it, some .outOfRange) else ({ it with pos := it.pos + count }, none)

/-- mirrors src/protobuf/qprotobufselfcheckiterator.h:113-115 (operator !=) -/
def differs (p : Int) (it : Iter) : Bool := it.pos != p

theorem copy_of_bad {it : Iter} (h : it.containerSize < it.sizeLeft ∨ it.sizeLeft < 0) :
    it.copy = (it, some .outOfRange) := if_pos h

theorem copy_of_good {it : Iter} (h : ¬ (it.containerSize < it.sizeLeft ∨ it.sizeLeft < 0)) :
    it.copy = (it, none) := if_neg h

end Iter

/-! ## The operators in a decoder -/

namespace Dec

/-- `*it` -/
def deref (b : Buffer) : Dec UInt8 := do
  let it ← .get
  .emit (.deref b.size it.pos)
  pure (b.byte it.pos)

/-- `++it` -/
def next : Dec Unit := .attempt Iter.increment

/-- `it += count` -/
def advance (count : Int) : Dec Unit := .attempt fun it => it.plusAssign count

/-- `it += length` for a length read from the input: `int count` takes an
`unsigned int`. -/
def advanceLength (length : BitVec 32) : Dec Unit := do
  let it ← .get
  advance (int32 length.toNat)
  let it' ← .get
  .emit (.lengthMove it.pos it'.pos)

/-- A new iterator, or the exception. -/
def check : Iter × Option Stop → Dec Iter
  | (it, none) => pure it
  | (_, some e) => .fail e

/-- mirrors src/protobuf/qprotobufselfcheckiterator.h:138-141 (operator +); what
`itNew += lenght` refers to is copied once more. -/
def plusLength (length : BitVec 32) : Dec Iter := do
  let it ← .get
  let itNew ← check it.copy
  let itNew ← check (itNew.plusAssign (int32 length.toNat))
  .emit (.lengthMove it.pos itNew.pos)
  check itNew.copy

/-- `n` bytes from the raw pointer on. -/
def peek (b : Buffer) (n : Nat) : Dec Bytes := do
  let it ← .get
  .emit (.read b.size it.pos n)
  pure (b.bytes it.pos n)

/-- The pointed-to object of `n` bytes is read, then `it += n`. -/
def take (b : Buffer) (n : Nat) : Dec Bytes := do
  let bytes ← peek b n
  advance n
  pure bytes

/-- `QByteArray result(it, length); it += length;` -/
def takeLength (b : Buffer) (length : BitVec 32) : Dec Bytes := do
  let result ← peek b length.toNat
  advanceLength length
  pure result

end Dec

/-! ## Where an iterator stands -/

/-- `n` bytes can be taken when `left` are left: the check of the operators. -/
def Fits (left n : Nat) : Prop := 0 ≤ int32 (left - n)

instance (left n : Nat) : Decidable (Fits left n) := inferInstanceAs (Decidable (0 ≤ _))

theorem Fits.le {left n : Nat} (h : Fits left n) (hn : n < 2 ^ 31) : n ≤ left := by
  refine Nat.le_of_not_lt fun hlt => ?_
  unfold Fits at h
  rw [int32_of_range (by omega) (by omega)] at h
  omega

theorem Fits.of_le {left n : Nat} (h : n ≤ left) (hl : left < 2 ^ 31) : Fits left n := by
  unfold Fits
  rw [int32_of_range (by omega) (by omega)]
  omega

theorem Fits.iff_le {left n : Nat} (hl : left < 2 ^ 31) (hn : n < 2 ^ 31) : Fits left n ↔ n ≤ left :=
  ⟨fun h => h.le hn, fun h => .of_le h hl⟩

/-- The iterator stands before `rest`, the last bytes of its buffer. -/
structure At (b : Buffer) (it : Iter) (rest : Bytes) : Prop where
  suffix : ∃ done, b.data = done ++ rest
  pos : it.pos = b.size - rest.length
  left : it.sizeLeft = int32 rest.length
  size : it.containerSize = int32 b.size

theorem int32_sub (a c : Int) : int32 (int32 a - int32 c) = int32 (a - c) := by
  unfold int32
  rw [Int.bmod_sub_bmod, Int.sub_bmod_bmod]

theorem int32_sub_left (a c : Int) : int32 (int32 a - c) = int32 (a - c) := by
  unfold int32
  rw [Int.bmod_sub_bmod]

namespace At

variable {b : Buffer} {it : Iter} {c : UInt8} {rest : Bytes}

theorem ofBuffer (b : Buffer) : At b (.ofBuffer b) b.data where
  suffix := ⟨[], rfl⟩
  pos := (Int.sub_self b.size).symm
  left := by rw [Iter.ofBuffer, Buffer.size]
  size := by rw [Iter.ofBuffer]

theorem byte_cons (h : At b it (c :: rest)) : b.byte it.pos = c := by
  obtain ⟨done, hd⟩ := h.suffix
  have hp := h.pos
  have hs : b.size = done.length + (rest.length + 1) := by
    unfold Buffer.size
    rw [hd]
    simp
  rw [List.length_cons] at hp
  have hpos : it.pos = done.length := by omega
  unfold Buffer.byte
  rw [if_pos (by omega), hpos, Int.toNat_natCast, hd]
  simp

theorem byte_nil (h : At b it []) : b.byte it.pos = 0 := by
  have hp := h.pos
  unfold Buffer.byte
  rw [List.length_nil] at hp
  rw [if_neg (by omega), if_pos (by omega)]

theorem byte_get {i : Nat} (h : At b it rest) (hi : i < rest.length) : b.byte (it.pos + i) = rest[i] := by
  obtain ⟨done, hd⟩ := h.suffix
  have hp := h.pos
  have hs : b.size = done.length + rest.length := by
    unfold Buffer.size
    rw [hd]
    simp
  have hpos : it.pos + i = ((done.length + i : Nat) : Int) := by omega
  unfold Buffer.byte
  rw [if_pos (by omega), hpos, Int.toNat_natCast, hd, List.getD_eq_getElem?_getD,
    List.getElem?_append_right (Nat.le_add_right ..), Nat.add_sub_cancel_left,
    List.getElem?_eq_getElem hi, Option.getD_some]

theorem bytes_eq {n : Nat} (h : At b it rest) (hn : n ≤ rest.length) :
    b.bytes it.pos n = rest.take n := by
  unfold Buffer.bytes
  refine List.ext_getElem ?_ fun i h₁ h₂ => ?_
  · rw [List.length_map, List.length_range, List.length_take, Nat.min_eq_left hn]
  · rw [List.length_map, List.length_range] at h₁
    rw [List.getElem_map, List.getElem_range, List.getElem_take, h.byte_get (by omega)]

/-- Where a move by `n` bytes leads. -/
theorem moved {n : Nat} (h : At b it rest) (hn : n ≤ rest.length) :
    At b { it with sizeLeft := int32 (it.sizeLeft - n), pos := it.pos + n } (rest.drop n) := by
  obtain ⟨done, hd⟩ := h.suffix
  refine ⟨⟨done ++ rest.take n, by rw [List.append_assoc, List.take_append_drop, hd]⟩, ?_, ?_, h.size⟩
  · have hp := h.pos
    rw [List.length_drop]
    simp only
    omega
  · rw [List.length_drop, h.left, int32_sub_left]
    simp only
    congr 1
    omega

/-- The last one of two iterators over the same buffer at one place. -/
theorem of_pos {it' : Iter} (h : At b it rest) (hp : it'.pos = it.pos)
    (hl : it'.sizeLeft = int32 (b.size - it'.pos)) (hs : it'.containerSize = int32 b.size) :
    At b it' rest := by
  refine ⟨h.suffix, hp.trans h.pos, ?_, hs⟩
  rw [hl, hp, h.pos]
  congr 1
  omega

end At

/-- The counter of an iterator agrees with its position. -/
structure Iter.Wf (b : Buffer) (it : Iter) : Prop where
  left : it.sizeLeft = int32 (b.size - it.pos)
  size : it.containerSize = int32 b.size

theorem At.wf {b : Buffer} {it : Iter} {rest : Bytes} (h : At b it rest) : it.Wf b := by
  refine ⟨?_, h.size⟩
  rw [h.left, h.pos]
  congr 1
  omega

theorem Iter.Wf.plusAssign {b : Buffer} {it it' : Iter} {count : Int} (h : it.Wf b)
    (ho : it.plusAssign count = (it', none)) : it'.Wf b := by
  unfold Iter.plusAssign at ho
  dsimp only at ho
  split at ho
  · cases ho
  · cases ho
    refine ⟨?_, h.size⟩
    rw [h.left, int32_sub_left]
    simp only
    congr 1
    omega

namespace Dec

variable {b : Buffer}

theorem keeps_deref : Traced.Keeps (Iter.Wf b) (deref b) :=
  .bind .get fun _ => .bind (.emit _) fun _ => .pure _

theorem keeps_advance (count : Int) : Traced.Keeps (Iter.Wf b) (advance count) :=
  .attempt fun _ _ h ho => h.plusAssign ho

theorem keeps_next : Traced.Keeps (Iter.Wf b) next := keeps_advance 1

theorem keeps_advanceLength (length : BitVec 32) : Traced.Keeps (Iter.Wf b) (advanceLength length) :=
  .bind .get fun _ => .bind (keeps_advance _) fun _ => .bind .get fun _ => .emit _

theorem keeps_check (r : Iter × Option Stop) : Traced.Keeps (Iter.Wf b) (check r) := by
  obtain ⟨it, e⟩ := r
  cases e with
  | none => exact .pure _
  | some e => exact .fail e

theorem keeps_plusLength (length : BitVec 32) : Traced.Keeps (Iter.Wf b) (plusLength length) :=
  .bind .get fun _ => .bind (keeps_check _) fun _ => .bind (keeps_check _) fun _ =>
    .bind (.emit _) fun _ => keeps_check _

theorem keeps_peek (n : Nat) : Traced.Keeps (Iter.Wf b) (peek b n) :=
  .bind .get fun _ => .bind (.emit _) fun _ => .pure _

theorem keeps_take (n : Nat) : Traced.Keeps (Iter.Wf b) (take b n) :=
  .bind (keeps_peek n) fun _ => .bind (keeps_advance n) fun _ => .pure _

theorem keeps_takeLength (length : BitVec 32) : Traced.Keeps (Iter.Wf b) (takeLength b length) :=
  .bind (keeps_peek _) fun _ => .bind (keeps_advanceLength length) fun _ => .pure _

end Dec

/-! ## The list of the bytes left -/

/-- The moves that C++ and the format agree on: a length never leads back, a
step always leads on. -/
def Event.Good : Event → Prop
  | .deref .. | .read .. => True
  | .lengthMove p p' => p ≤ p'
  | .step p p' => p < p'

/-- `f` does to the iterator what `w` does to the bytes left. -/
def DecSim (b : Buffer) {α β : Type} (V : α → β → Prop) (f : Dec α) (w : Walk Stop Bytes β) : Prop :=
  Sim (At b) Event.Good Stop.spent V f w

namespace Rest

/-- The byte `*it` yields. -/
def deref : Walk Stop Bytes UInt8 := ⟨fun rest => .ok (rest.headD 0) rest⟩

def advance (n : Nat) : Walk Stop Bytes Unit :=
  ⟨fun rest => if Fits rest.length n then .ok () (rest.drop n) else .fail .outOfRange⟩

def advanceLength (length : BitVec 32) : Walk Stop Bytes Unit :=
  ⟨fun rest =>
    if Fits rest.length length.toNat then
      if length.toNat < 2 ^ 31 then .ok () (rest.drop length.toNat) else .bad
    else .fail .outOfRange⟩

/-- The next `n` bytes. -/
def take (n : Nat) : Walk Stop Bytes Bytes :=
  ⟨fun rest => if Fits rest.length n then .ok (rest.take n) (rest.drop n) else .fail .outOfRange⟩

/-- Bytes taken by a length prefix. From 2^31 on the length is a negative `int`. -/
def takeLength (length : BitVec 32) : Walk Stop Bytes Bytes :=
  ⟨fun rest =>
    if Fits rest.length length.toNat then
      if length.toNat < 2 ^ 31 then .ok (rest.take length.toNat) (rest.drop length.toNat) else .bad
    else .fail .outOfRange⟩

/-- The number of bytes left at `it + length`, in a buffer of `size` bytes. -/
@[irreducible] def plusLength (size : Nat) (length : BitVec 32) : Walk Stop Bytes Nat :=
  ⟨fun rest =>
    if int32 size < int32 rest.length ∨ int32 rest.length < 0 then .fail .outOfRange
    else if Fits rest.length length.toNat then
      if length.toNat < 2 ^ 31 then .ok (rest.length - length.toNat) rest else .bad
    else .fail .outOfRange⟩

end Rest

namespace DecSim

variable {b : Buffer}

theorem bind {α β γ δ : Type} {V : α → β → Prop} {U : γ → δ → Prop} {f : Dec α} {w : Walk Stop Bytes β}
    {g : α → Dec γ} {k : β → Walk Stop Bytes δ} (hf : DecSim b V f w)
    (hg : ∀ a c, V a c → DecSim b U (g a) (k c)) : DecSim b U (f >>= g) (w >>= k) := Sim.bind hf hg

theorem whileM {α β : Type} {V : α → β → Prop} {cond : Iter → Bool} {cond' : Bytes → Bool}
    {body : α → Dec α} {body' : β → Walk Stop Bytes β} (hc : ∀ it rest, At b it rest → cond it = cond' rest)
    (hb : ∀ a c, V a c → DecSim b V (body a) (body' c)) (n : Nat) {a : α} {c : β} (hv : V a c) :
    DecSim b V (Traced.whileM .spent cond body n a) (Walk.whileM cond' body' n c) :=
  Sim.whileM hc hb n hv

theorem deref : DecSim b Eq (Dec.deref b) Rest.deref := by
  intro it rest h
  refine ⟨fun e he => ?_, b.byte it.pos, it, rfl, ?_, h⟩
  · have he : e ∈ [Event.deref b.size it.pos] := he
    rw [List.mem_singleton.mp he]
    trivial
  · cases rest with
    | nil => exact h.byte_nil
    | cons c rest => exact h.byte_cons

theorem plusAssign_fits {it : Iter} {rest : Bytes} {n : Nat} {c : Int}
    (hc : int32 (it.sizeLeft - c) = int32 (rest.length - n)) (hf : Fits rest.length n) :
    it.plusAssign c = ({ it with sizeLeft := int32 (it.sizeLeft - c), pos := it.pos + c }, none) := by
  unfold Iter.plusAssign
  dsimp only
  refine if_neg ?_
  rw [hc]
  exact Int.not_lt.mpr hf

theorem plusAssign_not_fits {it : Iter} {rest : Bytes} {n : Nat} {c : Int}
    (hc : int32 (it.sizeLeft - c) = int32 (rest.length - n)) (hf : ¬ Fits rest.length n) :
    (it.plusAssign c).2 = some .outOfRange := by
  unfold Iter.plusAssign
  dsimp only
  rw [if_pos]
  rw [hc]
  exact Int.not_le.mp hf

theorem left_sub {it : Iter} {rest : Bytes} (h : At b it rest) (n : Nat) :
    int32 (it.sizeLeft - n) = int32 (rest.length - n) := by
  rw [h.left, int32_sub_left]

theorem left_sub_int {it : Iter} {rest : Bytes} (h : At b it rest) (n : Nat) :
    int32 (it.sizeLeft - int32 n) = int32 (rest.length - n) := by
  rw [h.left, int32_sub]

theorem advance_run {it : Iter} {rest : Bytes} {n : Nat} {c : Int}
    (hc : int32 (it.sizeLeft - c) = int32 (rest.length - n)) (hf : Fits rest.length n) :
    (Dec.advance c).run it =
      ([], .ok ((), { it with sizeLeft := int32 (it.sizeLeft - c), pos := it.pos + c })) := by
  unfold Dec.advance Traced.attempt
  dsimp only
  rw [plusAssign_fits hc hf]

theorem advance_throw {it : Iter} {rest : Bytes} {n : Nat} {c : Int}
    (hc : int32 (it.sizeLeft - c) = int32 (rest.length - n)) (hf : ¬ Fits rest.length n) :
    (Dec.advance c).run it = ([], .error .outOfRange) := by
  have h := plusAssign_not_fits hc hf
  unfold Dec.advance Traced.attempt
  dsimp only
  split
  · rename_i ho
    rw [ho] at h
    cases h
  · rename_i ho
    rw [ho] at h
    cases h
    rfl

theorem advance {n : Nat} (hn : n < 2 ^ 31) :
    DecSim b (fun _ _ => True) (Dec.advance n) (Rest.advance n) := by
  intro it rest h
  have hl := left_sub h n
  unfold Rest.advance
  dsimp only
  split
  · rename_i hf
    rw [advance_run hl hf]
    exact ⟨good_nil, (), _, rfl, trivial, h.moved (hf.le hn)⟩
  · rename_i hf
    rw [advance_throw hl hf]
    exact ⟨good_nil, rfl, by decide⟩

theorem next : DecSim b (fun _ _ => True) Dec.next (Rest.advance 1) := advance (by decide)

theorem advanceLength_run {it it' : Iter} {length : BitVec 32}
    (h : (Dec.advance (int32 length.toNat)).run it = ([], .ok ((), it'))) :
    (Dec.advanceLength length).run it = ([.lengthMove it.pos it'.pos], .ok ((), it')) := by
  show (Traced.get >>= _).run it = _
  rw [Traced.run_bind_ok rfl, Traced.run_bind_ok h, Traced.run_bind_ok rfl]
  rfl

theorem advanceLength_throw {it : Iter} {length : BitVec 32} {e : Stop}
    (h : (Dec.advance (int32 length.toNat)).run it = ([], .error e)) :
    (Dec.advanceLength length).run it = ([], .error e) := by
  show (Traced.get >>= _).run it = _
  rw [Traced.run_bind_ok rfl, Traced.run_bind_error h]
  rfl

/-- A length prefix below 2^31 either fits or throws; from 2^31 on it moves the
iterator back if it does not throw. -/
theorem advanceLength (length : BitVec 32) :
    DecSim b (fun _ _ => True) (Dec.advanceLength length) (Rest.advanceLength length) := by
  intro it rest h
  have hl := left_sub_int h length.toNat
  have hlt := length.isLt
  unfold Rest.advanceLength
  dsimp only
  split
  · rename_i hf
    have hrun := advance_run hl hf
    split
    · rename_i hsmall
      have hint : int32 length.toNat = length.toNat := int32_of_range (by omega) (by omega)
      rw [advanceLength_run hrun]
      refine ⟨fun e he => ?_, (), _, rfl, trivial, ?_⟩
      · rw [List.mem_singleton.mp he]
        show it.pos ≤ it.pos + int32 length.toNat
        omega
      · rw [hint]
        exact h.moved (hf.le hsmall)
    · rename_i hbig
      have hint : int32 length.toNat = length.toNat - 2 ^ 32 := int32_of_wrap (by omega) (by omega)
      rw [advanceLength_run hrun]
      refine ⟨_, List.mem_singleton.mpr rfl, fun hle => ?_⟩
      have hle : it.pos ≤ it.pos + int32 length.toNat := hle
      omega
  · rename_i hf
    rw [advanceLength_throw (advance_throw hl hf)]
    exact ⟨good_nil, rfl, by decide⟩

/-- Bytes copied and then passed over by `f` are those the list reading takes. -/
theorem peek_bind {n : Nat} {f : Dec Unit} {w : Walk Stop Bytes Unit} {w' : Walk Stop Bytes Bytes}
    (hf : DecSim b (fun _ _ => True) f w)
    (hw : ∀ rest, w'.run rest = match w.run rest with
      | .ok () t => .ok (rest.take n) t
      | .fail e => .fail e
      | .bad => .bad
      | .spent => .spent)
    (hn : ∀ rest t, w.run rest = .ok () t → n ≤ rest.length) :
    DecSim b Eq (do let bytes ← Dec.peek b n; f; pure bytes) w' := by
  intro it rest h
  have hs := hf it rest h
  have hpeek : (Dec.peek b n).run it = ([.read b.size it.pos n], .ok (b.bytes it.pos n, it)) := rfl
  have hgood : ∀ e ∈ [Event.read b.size it.pos n], e.Good := fun e he => by
    rw [List.mem_singleton.mp he]; trivial
  rw [Traced.run_bind_ok hpeek, hw]
  refine Matches.append hgood ?_
  cases hwr : w.run rest with
  | ok u t =>
    rw [hwr] at hs
    obtain ⟨hg, u', it', hr, -, hat⟩ := hs
    rw [Traced.run_bind_ok (Prod.ext rfl hr)]
    refine ⟨fun e he => ?_, _, it', rfl, h.bytes_eq (hn rest t hwr), hat⟩
    exact (List.mem_append.mp he).elim (hg e) fun he => absurd he List.not_mem_nil
  | fail =>
    rw [hwr] at hs
    obtain ⟨hg, hr, hy⟩ := hs
    rw [Traced.run_bind_error (Prod.ext rfl hr)]
    exact ⟨hg, rfl, hy⟩
  | bad =>
    rw [hwr] at hs
    obtain ⟨e, he, hb⟩ := hs
    refine ⟨e, ?_, hb⟩
    cases hr : (f.run it).2 with
    | error y => rw [Traced.run_bind_error (Prod.ext rfl hr)]; exact he
    | ok p => rw [Traced.run_bind_ok (Prod.ext rfl hr)]; exact List.mem_append_left _ he
  | spent =>
    rw [hwr] at hs
    rw [Traced.run_bind_error (Prod.ext rfl hs.2)]
    exact ⟨hs.1, rfl⟩

theorem take {n : Nat} (hn : n < 2 ^ 31) : DecSim b Eq (Dec.take b n) (Rest.take n) := by
  refine peek_bind (advance hn) (fun rest => ?_) fun rest t ht => ?_
  · unfold Rest.take Rest.advance
    dsimp only
    split <;> rfl
  · unfold Rest.advance at ht
    dsimp only at ht
    split at ht
    · rename_i hf; exact hf.le hn
    · cases ht

theorem takeLength (length : BitVec 32) :
    DecSim b Eq (Dec.takeLength b length) (Rest.takeLength length) := by
  refine peek_bind (advanceLength length) (fun rest => ?_) fun rest t ht => ?_
  · unfold Rest.takeLength Rest.advanceLength
    dsimp only
    split
    · split <;> rfl
    · rfl
  · unfold Rest.advanceLength at ht
    dsimp only at ht
    split at ht
    · rename_i hf
      split at ht
      · rename_i hsmall; exact hf.le hsmall
      · cases ht
    · cases ht

/-- `last` stands where `n` bytes are left. -/
def AtEnd (b : Buffer) (last : Iter) (n : Nat) : Prop := ∃ rest, At b last rest ∧ rest.length = n

theorem check_run (it it' : Iter) : (Dec.check (it', none)).run it = ([], .ok (it', it)) := rfl

theorem plusLength_copy_throw {it : Iter} {length : BitVec 32}
    (h : it.containerSize < it.sizeLeft ∨ it.sizeLeft < 0) :
    (Dec.plusLength length).run it = ([], .error .outOfRange) := by
  unfold Dec.plusLength
  rw [Traced.run_bind_ok rfl, Iter.copy_of_bad h, Traced.run_bind_error rfl]
  rfl

theorem plusLength_throw {it : Iter} {length : BitVec 32}
    (h : ¬ (it.containerSize < it.sizeLeft ∨ it.sizeLeft < 0))
    (hp : (it.plusAssign (int32 length.toNat)).2 = some .outOfRange) :
    (Dec.plusLength length).run it = ([], .error .outOfRange) := by
  unfold Dec.plusLength
  rw [Traced.run_bind_ok rfl, Iter.copy_of_good h, Traced.run_bind_ok (check_run it it)]
  cases ho : it.plusAssign (int32 length.toNat) with
  | mk itNew e =>
    rw [ho] at hp
    cases hp
    rfl

theorem plusLength_run {it itNew : Iter} {length : BitVec 32}
    (h : ¬ (it.containerSize < it.sizeLeft ∨ it.sizeLeft < 0))
    (hp : it.plusAssign (int32 length.toNat) = (itNew, none)) :
    (Dec.plusLength length).run it =
      ([.lengthMove it.pos itNew.pos], ((Dec.check itNew.copy).run it).2) := by
  unfold Dec.plusLength
  rw [Traced.run_bind_ok rfl, Iter.copy_of_good h, Traced.run_bind_ok (check_run it it), hp,
    Traced.run_bind_ok (check_run it itNew), Traced.run_bind_ok rfl]
  cases itNew.copy with
  | mk last e => cases e <;> rfl

/-- What fits is not before the beginning of the buffer. -/
theorem plusAssign_copy {it : Iter} {left n : Nat} (hc : it.sizeLeft = int32 left)
    (h : ¬ (it.containerSize < it.sizeLeft ∨ it.sizeLeft < 0)) (hf : Fits left n) (hn : n < 2 ^ 31) :
    ¬ (it.containerSize < int32 (it.sizeLeft - n) ∨ int32 (it.sizeLeft - n) < 0) := by
  unfold Fits at hf
  rw [hc] at h ⊢
  rw [← int32_sub_left] at hf
  have hlt : int32 left < 2 ^ 31 := by
    unfold int32
    have := Int.bmod_lt (x := (left : Int)) (m := 2 ^ 32) (by decide)
    omega
  rw [int32_of_range (n := int32 left - n) (by omega) (by omega)] at hf ⊢
  omega

theorem plusLength (length : BitVec 32) :
    DecSim b (AtEnd b) (Dec.plusLength length) (Rest.plusLength b.data.length length) := by
  intro it rest h
  have hl := left_sub_int h length.toNat
  have hlt := length.isLt
  have hcopy : (it.containerSize < it.sizeLeft ∨ it.sizeLeft < 0) ↔
      (int32 b.data.length < int32 rest.length ∨ int32 rest.length < 0) := by
    rw [h.left, h.size]; rfl
  unfold Rest.plusLength
  dsimp only
  -- by cases on `em`, so that the outcome is not evaluated
  cases Decidable.em (it.containerSize < it.sizeLeft ∨ it.sizeLeft < 0) with
  | inl hc =>
    rw [plusLength_copy_throw hc, if_pos (hcopy.mp hc)]
    exact ⟨good_nil, rfl, by decide⟩
  | inr hc =>
    rw [if_neg (mt hcopy.mpr hc)]
    cases Decidable.em (Fits rest.length length.toNat) with
    | inl hf =>
      rw [if_pos hf, plusLength_run hc (plusAssign_fits hl hf)]
      cases Decidable.em (length.toNat < 2 ^ 31) with
      | inl hs =>
        have hint : int32 length.toNat = length.toNat := int32_of_range (by omega) (by omega)
        rw [if_pos hs, hint, Iter.copy_of_good (plusAssign_copy h.left hc hf hs)]
        refine ⟨fun e he => ?_, _, it, rfl, ⟨rest.drop length.toNat, h.moved (hf.le hs),
          List.length_drop ..⟩, h⟩
        rw [List.mem_singleton.mp he]
        show it.pos ≤ it.pos + (length.toNat : Int)
        omega
      | inr hs =>
        have hint : int32 length.toNat = length.toNat - 2 ^ 32 := int32_of_wrap (by omega) (by omega)
        rw [if_neg hs, hint]
        refine ⟨_, List.mem_singleton.mpr rfl, fun hle => ?_⟩
        have hle : it.pos ≤ it.pos + ((length.toNat : Int) - 2 ^ 32) := hle
        omega
    | inr hf =>
      rw [if_neg hf, plusLength_throw hc (plusAssign_not_fits hl hf)]
      exact ⟨good_nil, rfl, by decide⟩

end DecSim

end QtProtobuf.Wire
