import QtProtobuf.L2Codec.Reading

/-!
# Reads inside the buffer

`Within.message` is the reading by positions in the buffer. It ends with `bad`
where a byte would be read before the beginning or behind the terminating zero,
or more bytes taken than are left.

* `Within.not_bad_iff`: the decoder reads inside its buffers unless the reading
  ends so.
-/
namespace QtProtobuf.Wire

open Lib

/-- `*it` reads a byte of the buffer or the zero behind it; bytes are taken only
if they are all left. -/
def Event.InBounds : Event → Prop
  | .deref size pos => 0 ≤ pos ∧ pos ≤ size
  | .read size pos n => 0 ≤ pos ∧ pos + n ≤ size
  | _ => True

/-! ## The operators on a position -/

namespace Within

variable (data : Bytes)

/-- The counter of an iterator at position `p`. -/
def left (p : Int) : Int := int32 (data.length - p)

/-- What the copy constructor checks. -/
def Copies (p : Int) : Prop := ¬ (int32 data.length < left data p ∨ left data p < 0)

instance (p : Int) : Decidable (Copies data p) := inferInstanceAs (Decidable (¬ _))

def deref : Walk Stop Int UInt8 :=
  ⟨fun p => if 0 ≤ p ∧ p ≤ data.length then .ok (data.getD p.toNat 0) p else .bad⟩

def move (count : Int) : Walk Stop Int Unit :=
  ⟨fun p => if left data (p + count) < 0 then .fail .outOfRange else .ok () (p + count)⟩

def peek (n : Nat) : Walk Stop Int Bytes :=
  ⟨fun p => if 0 ≤ p ∧ p + n ≤ data.length then .ok ((data.drop p.toNat).take n) p else .bad⟩

def take (n : Nat) : Walk Stop Int Bytes := do
  let bytes ← peek data n
  move data n
  pure bytes

def takeLength (length : BitVec 32) : Walk Stop Int Bytes := do
  let bytes ← peek data length.toNat
  move data (int32 length.toNat)
  pure bytes

def plusLength (length : BitVec 32) : Walk Stop Int Int :=
  ⟨fun p =>
    let last := p + int32 length.toNat
    if Copies data p ∧ 0 ≤ left data last ∧ Copies data last then .ok last p else .fail .outOfRange⟩

def rounds (p : Int) : Nat := (data.length - p).toNat + 1

def varintRounds (w : Nat) : Nat → Nat → BitVec w → Walk Stop Int (BitVec w)
  | 0, _, _ => ⟨fun _ => .spent⟩
  | n + 1, k, value => do
    let byte ← deref data
    let value := value + group w byte k
    let byte ← deref data
    if byte &&& 0x80 = 0 then
      move data 1
      pure value
    else
      move data 1
      varintRounds w n (k + 7) value

def varint (w : Nat) : Walk Stop Int (BitVec w) := do
  let p ← .get
  varintRounds data w (rounds data p) 0 0

def skipRounds : Nat → Walk Stop Int Unit
  | 0 => ⟨fun _ => .spent⟩
  | n + 1 => do
    let byte ← deref data
    if byte &&& 0x80 = 0 then move data 1
    else
      move data 1
      skipRounds n

def skipVarint : Walk Stop Int Unit := do
  let p ← .get
  skipRounds data (rounds data p)

end Within

/-! ## The operators follow -/

/-- The iterator is at position `p`. -/
structure Stands (b : Buffer) (it : Iter) (p : Int) : Prop where
  wf : it.Wf b
  pos : it.pos = p

namespace Stands

variable {b : Buffer} {it : Iter} {p : Int}

theorem ofBuffer (b : Buffer) : Stands b (.ofBuffer b) 0 := by
  refine ⟨⟨?_, ?_⟩, ?_⟩
  · rw [Iter.ofBuffer, Int.sub_zero]
  · rw [Iter.ofBuffer]
  · rw [Iter.ofBuffer]

theorem sizeLeft (h : Stands b it p) : it.sizeLeft = Within.left b.data p := by
  rw [h.wf.left, h.pos]
  rfl

theorem copies (h : Stands b it p) :
    ¬ (it.containerSize < it.sizeLeft ∨ it.sizeLeft < 0) ↔ Within.Copies b.data p := by
  rw [h.sizeLeft, h.wf.size]
  rfl

theorem byte (hp : 0 ≤ p) (hl : p ≤ b.data.length) : b.byte p = b.data.getD p.toNat 0 := by
  have hsize : b.size = b.data.length := rfl
  unfold Buffer.byte
  by_cases hlt : p < b.size
  · rw [if_pos ⟨hp, hlt⟩]
  · have hp' : p = b.size := by omega
    rw [if_neg (fun h => hlt h.2), if_pos hp', List.getD_eq_getElem?_getD,
      List.getElem?_eq_none (by omega), Option.getD_none]

theorem bytes {n : Nat} (hp : 0 ≤ p) (hl : p + n ≤ b.data.length) :
    b.bytes p n = (b.data.drop p.toNat).take n := by
  unfold Buffer.bytes
  refine List.ext_getElem ?_ fun i h₁ h₂ => ?_
  · rw [List.length_map, List.length_range, List.length_take, List.length_drop]
    omega
  · rw [List.length_map, List.length_range] at h₁
    have hnat : (p + i).toNat = p.toNat + i := by omega
    have hlt : p.toNat + i < b.data.length := by omega
    rw [List.getElem_map, List.getElem_range, List.getElem_take, List.getElem_drop,
      byte (by omega) (by omega), hnat, List.getD_eq_getElem?_getD, List.getElem?_eq_getElem hlt,
      Option.getD_some]

/-- Where `it += count` leads, if it does not throw. -/
theorem plusAssign (h : Stands b it p) (count : Int) :
    it.plusAssign count =
      if Within.left b.data (p + count) < 0 then
        ({ it with sizeLeft := Within.left b.data (p + count) }, some .outOfRange)
      else ({ it with sizeLeft := Within.left b.data (p + count), pos := p + count }, none) := by
  have hleft : int32 (it.sizeLeft - count) = Within.left b.data (p + count) := by
    rw [h.wf.left, int32_sub_left, h.pos]
    unfold Within.left
    congr 1
    show (b.data.length : Int) - p - count = b.data.length - (p + count)
    omega
  unfold Iter.plusAssign
  dsimp only
  rw [hleft, h.pos]

theorem moved (h : Stands b it p) (count : Int) :
    Stands b { it with sizeLeft := Within.left b.data (p + count), pos := p + count } (p + count) where
  wf := ⟨rfl, h.wf.size⟩
  pos := rfl

end Stands

/-- `f` does to the iterator what `w` does to its position; reads are in bounds. -/
def InSim (b : Buffer) {α β : Type} (V : α → β → Prop) (f : Dec α) (w : Walk Stop Int β) : Prop :=
  Sim (Stands b) Event.InBounds .spent V f w

namespace InSim

variable {b : Buffer}

theorem deref : InSim b Eq (Dec.deref b) (Within.deref b.data) := by
  intro it p h
  have hrun : (Dec.deref b).run it = ([.deref b.size it.pos], .ok (b.byte it.pos, it)) := rfl
  rw [hrun, h.pos]
  unfold Within.deref
  dsimp only
  split
  · rename_i hp
    refine ⟨fun e he => ?_, _, it, rfl, Stands.byte hp.1 hp.2, h⟩
    rw [List.mem_singleton.mp he]
    exact hp
  · rename_i hp
    exact ⟨_, List.mem_singleton.mpr rfl, hp⟩

theorem move (count : Int) :
    InSim b (fun _ _ => True) (Dec.advance count) (Within.move b.data count) := by
  intro it p h
  have hplus := h.plusAssign count
  unfold Dec.advance Traced.attempt Within.move
  dsimp only
  cases Decidable.em (Within.left b.data (p + count) < 0) with
  | inl hl =>
    rw [if_pos hl] at hplus ⊢
    rw [hplus]
    exact ⟨good_nil, rfl, by decide⟩
  | inr hl =>
    rw [if_neg hl] at hplus ⊢
    rw [hplus]
    exact ⟨good_nil, (), _, rfl, trivial, h.moved count⟩

theorem next : InSim b (fun _ _ => True) Dec.next (Within.move b.data 1) := move 1

theorem moveLength (length : BitVec 32) :
    InSim b (fun _ _ => True) (Dec.advanceLength length) (Within.move b.data (int32 length.toNat)) := by
  intro it p h
  have hm : InSim b (fun _ _ => True)
      (Dec.advance (int32 length.toNat) >>= fun _ => Traced.get >>= fun it' =>
        .emit (.lengthMove it.pos it'.pos))
      (Within.move b.data (int32 length.toNat) >>= fun _ => pure ()) := by
    refine Sim.bind (move _) fun _ _ _ it' p' h' => ⟨fun e he => ?_, (), it', rfl, trivial, h'⟩
    have he : e ∈ [Event.lengthMove it.pos it'.pos] := he
    rw [List.mem_singleton.mp he]
    trivial
  have hrun := hm it p h
  rw [Walk.run_bind_unit] at hrun
  exact hrun

theorem peek (n : Nat) : InSim b Eq (Dec.peek b n) (Within.peek b.data n) := by
  intro it p h
  have hrun : (Dec.peek b n).run it = ([.read b.size it.pos n], .ok (b.bytes it.pos n, it)) := rfl
  rw [hrun, h.pos]
  unfold Within.peek
  dsimp only
  split
  · rename_i hp
    refine ⟨fun e he => ?_, _, it, rfl, Stands.bytes hp.1 hp.2, h⟩
    rw [List.mem_singleton.mp he]
    exact hp
  · rename_i hp
    exact ⟨_, List.mem_singleton.mpr rfl, hp⟩

theorem take (n : Nat) : InSim b Eq (Dec.take b n) (Within.take b.data n) :=
  Sim.bind (peek n) fun _ _ hb => Sim.bind (move n) fun _ _ _ => Sim.pure hb

theorem takeLength (length : BitVec 32) :
    InSim b Eq (Dec.takeLength b length) (Within.takeLength b.data length) :=
  Sim.bind (peek _) fun _ _ hb => Sim.bind (moveLength length) fun _ _ _ => Sim.pure hb

theorem plusLength (length : BitVec 32) :
    InSim b (Stands b) (Dec.plusLength length) (Within.plusLength b.data length) := by
  intro it p h
  unfold Within.plusLength
  dsimp only
  cases Decidable.em (Within.Copies b.data p) with
  | inr hc =>
    have hc' := Decidable.not_not.mp (mt h.copies.mp hc)
    rw [if_neg (fun h => hc h.1), DecSim.plusLength_copy_throw hc']
    exact ⟨good_nil, rfl, by decide⟩
  | inl hc =>
    have hplus := h.plusAssign (int32 length.toNat)
    cases Decidable.em (Within.left b.data (p + int32 length.toNat) < 0) with
    | inl hl =>
      rw [if_pos hl] at hplus
      rw [if_neg (fun h => absurd h.2.1 (Int.not_le.mpr hl)),
        DecSim.plusLength_throw (h.copies.mpr hc) (by rw [hplus])]
      exact ⟨good_nil, rfl, by decide⟩
    | inr hl =>
      rw [if_neg hl] at hplus
      rw [DecSim.plusLength_run (h.copies.mpr hc) hplus]
      have h' := h.moved (int32 length.toNat)
      have hgood : ∀ e ∈ [Event.lengthMove it.pos (p + int32 length.toNat)], e.InBounds := fun e he => by
        rw [List.mem_singleton.mp he]
        trivial
      cases Decidable.em (Within.Copies b.data (p + int32 length.toNat)) with
      | inl hc' =>
        rw [if_pos ⟨hc, Int.not_lt.mp hl, hc'⟩, Iter.copy_of_good (h'.copies.mpr hc')]
        exact ⟨hgood, _, it, rfl, h', h⟩
      | inr hc' =>
        have hbad := Decidable.not_not.mp (mt h'.copies.mp hc')
        rw [if_neg (fun h => hc' h.2.2), Iter.copy_of_bad hbad]
        exact ⟨hgood, rfl, by decide⟩

theorem rounds {it : Iter} {p : Int} (h : Stands b it p) :
    (b.size - it.pos).toNat + 1 = Within.rounds b.data p := by
  rw [h.pos]
  rfl

theorem varintRounds (w n k : Nat) (value : BitVec w) :
    InSim b Eq (deserializeVarintLoop b w n k value) (Within.varintRounds b.data w n k value) := by
  induction n generalizing k value with
  | zero => exact fun _ _ _ => ⟨good_nil, rfl⟩
  | succ n ih =>
    refine Sim.bind deref fun byte _ hb => Sim.bind deref fun byte' _ hb' => ?_
    subst hb hb'
    split
    · exact Sim.bind next fun _ _ _ => Sim.pure rfl
    · exact Sim.bind next fun _ _ _ => ih _ _

theorem skipRounds (n : Nat) :
    InSim b (fun _ _ => True) (skipVarintLoop b n) (Within.skipRounds b.data n) := by
  induction n with
  | zero => exact fun _ _ _ => ⟨good_nil, rfl⟩
  | succ n ih =>
    refine Sim.bind deref fun byte _ hb => ?_
    subst hb
    split
    · exact next
    · exact Sim.bind next fun _ _ _ => ih

theorem varint (w : Nat) : InSim b Eq (deserializeVarintCommon b w) (Within.varint b.data w) := by
  intro it p h
  have hs := varintRounds w (Within.rounds b.data p) 0 0 it p h
  unfold deserializeVarintCommon Within.varint
  rw [Traced.run_bind_ok rfl, Walk.run_bind_ok rfl, rounds h]
  exact hs

theorem skipVarint : InSim b (fun _ _ => True) (Wire.skipVarint b) (Within.skipVarint b.data) := by
  intro it p h
  have hs := skipRounds (Within.rounds b.data p) it p h
  unfold Wire.skipVarint Within.skipVarint
  rw [Traced.run_bind_ok rfl, Walk.run_bind_ok rfl, rounds h]
  exact hs

end InSim

end QtProtobuf.Wire

namespace QtProtobuf.Codec

open Lib Wire

namespace Within

/-- The state, and an end, is a position in the buffer. -/
def reader (data : Bytes) : Reader Int Int where
  varint := Wire.Within.varint data
  skipVarint := Wire.Within.skipVarint data
  take := Wire.Within.take data
  takeLength := Wire.Within.takeLength data
  advance n := Wire.Within.move data n
  advanceLength length := Wire.Within.move data (int32 length.toNat)
  plusLength _ length := Wire.Within.plusLength data length
  differs last p := p != last
  rounds := Wire.Within.rounds data

variable {M : Type} (S : Schema M) (qt : QtCore)

def message : Nat → M → List (Value M) → Bytes → Outcome Stop Int (List (Value M)) :=
  Reader.message S qt reader (fun _ => 0) fun data => data.length

theorem sound (b : Buffer) : (reader b.data).Sound b (Stands b) Event.InBounds (Stands b) where
  varint := InSim.varint
  skipVarint := InSim.skipVarint
  take _ := InSim.take _
  takeLength := InSim.takeLength
  advance _ := InSim.move _
  advanceLength := InSim.moveLength
  plusLength := InSim.plusLength
  differs hl h := by
    show (_ != _) = (_ != _)
    rw [h.pos, hl.pos]
  rounds := InSim.rounds

/-- What an outcome says about the reads of `deserializeMessage`. -/
theorem follows (env : Bytes → Int → UInt8) (n : Nat) (m : M) (object : List (Value M)) (data : Bytes) :
    Matches (fun (_ : Unit) _ => True) Event.InBounds Stop.spent Eq
      ((nestedResult (deserializeMessage S qt env n m object data)).1,
        (nestedResult (deserializeMessage S qt env n m object data)).2.map fun a => (a, ()))
      (message S qt n m object data) := by
  refine Reader.Sound.message (fun data => sound ⟨data, env data⟩) (fun data => .ofBuffer _)
    (fun data it p h => ?_) (fun _ _ _ _ _ => .of_good fun _ _ _ => trivial)
    (fun _ _ _ _ _ => .of_good fun _ _ _ => trivial) n m object data
  show (_ != _) = (_ != _)
  rw [h.pos]
  rfl

end Within

/-- The decoder reads inside its buffers unless the reading comes to a bad end. -/
theorem Within.not_bad_iff {M : Type} {S : Schema M} {qt : QtCore} (env : Bytes → Int → UInt8) (m : M)
    (object : List (Value M)) (data : Bytes) :
    (∀ n, ∀ e ∈ (deserializeMessage S qt env n m object data).1, e.InBounds) ↔
      ∀ n, Within.message S qt n m object data ≠ .bad := by
  constructor
  · intro h n hn
    have hf := Within.follows S qt env n m object data
    rw [hn] at hf
    obtain ⟨e, he, hbad⟩ := hf
    rw [nestedResult_events] at he
    exact hbad (h n e he)
  · intro h n e he
    have hf := Within.follows S qt env n m object data
    rw [nestedResult_events] at hf
    cases hm : Within.message S qt n m object data with
    | ok v t => rw [hm] at hf; exact hf.1 e he
    | fail x => rw [hm] at hf; exact hf.1 e he
    | bad => exact absurd hm (h n)
    | spent => rw [hm] at hf; exact hf.1 e he

end QtProtobuf.Codec
