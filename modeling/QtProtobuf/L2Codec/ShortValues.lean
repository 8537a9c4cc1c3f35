import QtProtobuf.L2Codec.Bounds

/-!
# Values that are not wholly there

A fixed-width value is copied, and a payload is taken by its length prefix,
before the bytes left are counted (`protobuf/qprotobufserializer_p.h:301-314,
380-387`). A prefix of 2^31 or more moves the iterator back.

* `Short`: the reading of a message comes to a width or a length prefix for which
  there are not enough bytes, or to a prefix that leads out of the buffer.
* `in_bounds_iff`: the decoder reads inside its buffers exactly if it does not.
-/
namespace QtProtobuf.Wire.Within

open Lib

variable (data : Bytes)

/-! ## Positions inside the buffer -/

def Inside (p : Int) : Prop := 0 ≤ p ∧ p ≤ data.length

/-- A move that does not throw and ends before the beginning. -/
def Before (p : Int) : Prop := p < 0 ∧ 0 ≤ left data p

variable {data} {p : Int}

theorem deref_inside (h : Inside data p) : (deref data).run p = .ok (data.getD p.toNat 0) p := if_pos h

theorem deref_outside (h : ¬ Inside data p) : (deref data).run p = .bad := if_neg h

/-- A move forward does not leave the buffer: it throws. -/
theorem move_strays {count : Int} (h : Inside data p) (hl : -2 ^ 31 ≤ count) (hr : count < 2 ^ 31)
    (hs : Walk.Strays (Inside data) (move data count) p) : Before data (p + count) := by
  obtain ⟨h0, hp⟩ := h
  have hrun : (move data count).run p =
      if left data (p + count) < 0 then .fail .outOfRange else .ok () (p + count) := rfl
  unfold Walk.Strays at hs
  rw [hrun] at hs
  split at hs
  · rcases hs with hs | ⟨_, _, hs, -⟩ <;> cases hs
  · rename_i hleft
    rcases hs with hs | ⟨_, _, hs, hout⟩
    · cases hs
    · cases hs
      refine ⟨Int.not_le.mp fun hge => hout ⟨hge, Int.not_lt.mp fun hlt => ?_⟩, Int.not_lt.mp hleft⟩
      unfold left at hleft
      rw [int32_of_range (by omega) (by omega)] at hleft
      omega

theorem strays_move {count : Int} (h : Before data (p + count)) :
    Walk.Strays (Inside data) (move data count) p :=
  .inr ⟨(), p + count, if_neg (Int.not_lt.mpr h.2), fun hin => Int.not_le.mpr h.1 hin.1⟩

theorem not_strays_next (h : Inside data p) : ¬ Walk.Strays (Inside data) (move data 1) p := by
  intro hs
  have hb := (move_strays h (by decide) (by decide) hs).1
  have h0 := h.1
  omega

theorem not_strays_varintRounds {w : Nat} (n k : Nat) (value : BitVec w) (h : Inside data p) :
    ¬ Walk.Strays (Inside data) (varintRounds data w n k value) p := by
  induction n generalizing p k value with
  | zero => rintro (hs | ⟨_, _, hs, -⟩) <;> cases hs
  | succ n ih =>
    intro hs
    have hd := deref_inside h
    unfold varintRounds Walk.Strays at hs
    rw [Walk.run_bind_ok hd, Walk.run_bind_ok hd] at hs
    split at hs
    · rcases Walk.Strays.bind_inv hs with hs | ⟨_, _, -, hin, hs⟩
      · exact not_strays_next h hs
      · exact Walk.not_strays_pure hin hs
    · rcases Walk.Strays.bind_inv hs with hs | ⟨_, _, -, hin, hs⟩
      · exact not_strays_next h hs
      · exact ih _ _ hin hs

theorem not_strays_varint (w : Nat) (h : Inside data p) :
    ¬ Walk.Strays (Inside data) (varint data w) p := by
  have hv : ¬ Walk.Strays (Inside data) (varintRounds data w (rounds data p) 0 0) p :=
    not_strays_varintRounds _ 0 0 h
  exact hv

theorem not_strays_skipRounds (n : Nat) (h : Inside data p) :
    ¬ Walk.Strays (Inside data) (skipRounds data n) p := by
  induction n generalizing p with
  | zero => rintro (hs | ⟨_, _, hs, -⟩) <;> cases hs
  | succ n ih =>
    intro hs
    unfold skipRounds Walk.Strays at hs
    rw [Walk.run_bind_ok (deref_inside h)] at hs
    split at hs
    · exact not_strays_next h hs
    · rcases Walk.Strays.bind_inv hs with hs | ⟨_, _, -, hin, hs⟩
      · exact not_strays_next h hs
      · exact ih hin hs

theorem not_strays_skipVarint (h : Inside data p) :
    ¬ Walk.Strays (Inside data) (skipVarint data) p := by
  have hv : ¬ Walk.Strays (Inside data) (skipRounds data (rounds data p)) p := not_strays_skipRounds _ h
  exact hv

theorem varint_outside {w : Nat} (h : ¬ Inside data p) : (varint data w).run p = .bad := by
  have hr : (varintRounds data w (rounds data p) 0 0).run p = .bad := Walk.bind_bad (deref_outside h)
  exact hr

/-! ## Bytes taken -/

theorem peek_bad {n : Nat} (h : (data.length : Int) < p + n) : (peek data n).run p = .bad :=
  if_neg fun hp => Int.not_le.mpr h hp.2

theorem peek_ok {n : Nat} (h0 : 0 ≤ p) (h : p + n ≤ data.length) :
    (peek data n).run p = .ok ((data.drop p.toNat).take n) p := if_pos ⟨h0, h⟩

theorem take_strays {n : Nat} (h : Inside data p) (hn : n < 2 ^ 31)
    (hs : Walk.Strays (Inside data) (take data n) p) : (data.length : Int) < p + n := by
  refine Int.not_le.mp fun hle => ?_
  have hb := peek_ok h.1 hle
  unfold take Walk.Strays at hs
  rw [Walk.run_bind_ok hb] at hs
  rcases Walk.Strays.bind_inv hs with hs | ⟨_, _, -, hin, hs⟩
  · have hbefore := (move_strays h (by omega) (by omega) hs).1
    have h0 := h.1
    omega
  · exact Walk.not_strays_pure hin hs

theorem takeLength_strays {length : BitVec 32} (h : Inside data p)
    (hs : Walk.Strays (Inside data) (takeLength data length) p) :
    (data.length : Int) < p + length.toNat ∨ Before data (p + int32 length.toNat) := by
  by_cases hlt : (data.length : Int) < p + length.toNat
  · exact .inl hlt
  · have hb := peek_ok h.1 (Int.not_lt.mp hlt)
    unfold takeLength Walk.Strays at hs
    rw [Walk.run_bind_ok hb] at hs
    rcases Walk.Strays.bind_inv hs with hs | ⟨_, _, -, hin, hs⟩
    · exact .inr (move_strays h (int32_range _).1 (int32_range _).2 hs)
    · exact absurd hs (Walk.not_strays_pure hin)

theorem strays_takeLength {length : BitVec 32} (h : Before data (p + int32 length.toNat)) :
    Walk.Strays (Inside data) (takeLength data length) p := by
  by_cases hp : 0 ≤ p ∧ p + length.toNat ≤ data.length
  · exact .bind (peek_ok hp.1 hp.2) (Walk.strays_map.mpr (strays_move h))
  · exact .inl (Walk.bind_bad (if_neg hp))

theorem takeLength_ok {length : BitVec 32} {array : Bytes} {p' : Int}
    (h : (takeLength data length).run p = .ok array p') :
    p' = p + int32 length.toNat := by
  obtain ⟨_, _, hpeek, hrest⟩ := Walk.bind_ok h
  obtain ⟨_, _, hmove, hpure⟩ := Walk.bind_ok hrest
  unfold peek at hpeek
  unfold move at hmove
  dsimp only at hpeek hmove
  split at hpeek
  · cases hpeek
    split at hmove
    · cases hmove
    · cases hmove
      cases hpure
      rfl
  · cases hpeek

end QtProtobuf.Wire.Within

namespace QtProtobuf.Codec

open Lib Wire

/-! ## Too few bytes -/

section
variable (data : Bytes)

/-- The bytes from `p` on begin with a length prefix; what it counts begins at `p'`. -/
def LengthPrefix (p : Int) (length : BitVec 32) (p' : Int) : Prop :=
  (Wire.Within.varint data 32).run p = .ok length p'

/-- The length prefix at `p` is greater than the number of bytes behind it. -/
def TooLong (p : Int) : Prop :=
  ∃ length p', LengthPrefix data p length p' ∧ data.length < p' + length.toNat

/-- As an `int`, the length prefix at `p` leads to before the beginning. -/
def LeadsOut (p : Int) : Prop :=
  ∃ length p', LengthPrefix data p length p' ∧ Wire.Within.Before data (p' + int32 length.toNat)

/-- The number at `p` has a fixed width, and fewer bytes are left. -/
def ShortBasic (t : NumType) (p : Int) : Prop :=
  t.coding = .fixed ∧ data.length < p + (t.width / 8 : Nat)

def ShortScalar : ScalarType → Int → Prop
  | .num t, p => ShortBasic data t p
  | .bool, _ => False
  | _, p => TooLong data p ∨ LeadsOut data p

/-- An element of the packed list at `p` is short. -/
def ShortList (t : NumType) (p : Int) : Prop :=
  ∃ count p₁ last p₂, LengthPrefix data p count p₁ ∧
    (Wire.Within.plusLength data count).run p₁ = .ok last p₂ ∧
      ∃ q ∈ Walk.visited ((Within.reader data).differs last)
        (fun out => (Within.reader data).basic t >>= fun v => pure (out ++ [v]))
        ((Within.reader data).rounds p₂) [] p₂, ShortBasic data t q

section
variable {M : Type} (S : Schema M) (qt : QtCore) (short : M → Bytes → Prop)
  (nested : M → Bytes → Outcome Stop Int (List (Value M))) (n : Nat)

/-- The prefix of the message at `p` is too long, its bytes are short themselves,
or they are read and the prefix has led out. -/
def ShortObject (m : M) (p : Int) : Prop :=
  TooLong data p ∨ ∃ array p', (Within.reader data).lengthDelimited.run p = .ok array p' ∧
    (short m array ∨ LeadsOut data p ∧ ∃ fs q, nested m array = .ok fs q)

def ShortSingle : SingleType M → Int → Prop
  | .scalar t, p => ShortScalar data t p
  | .enum, _ => False
  | .message m, p => ShortObject data short nested m p

/-- The part of an entry at `p`: a key, or a value. -/
def ShortPart (kt : ScalarType) (vt : SingleType M) (p : Int) : Prop :=
  ∃ header p', (Within.reader data).header.run p = .ok header p' ∧
    if header.2.1 = 1 then ShortScalar data kt p' else ShortSingle data short nested vt p'

def ShortEntry (kt : ScalarType) (vt : SingleType M) (p : Int) : Prop :=
  ∃ count p₁ last p₂, LengthPrefix data p count p₁ ∧
    (Wire.Within.plusLength data count).run p₁ = .ok last p₂ ∧
      ∃ q ∈ Walk.visited ((Within.reader data).differs last) ((Within.reader data).mapPart qt nested kt vt) n
        (kt.default, vt.default) p₂, ShortPart data short nested kt vt q

def ShortValue : FieldType M → Int → Prop
  | .single t, p => ShortSingle data short nested t p
  | .nums t, p => ShortList data t p
  | .enums, _ => False
  | .messages m, p => ShortObject data short nested m p
  | .map kt vt, p => ShortEntry data qt short nested n kt vt p
  | _, p => TooLong data p ∨ LeadsOut data p

/-- The record at `p`: the value of a field, or a payload that is skipped. -/
def ShortRecord (m : M) (p : Int) : Prop :=
  ∃ f w p', (Within.reader data).header.run p = .ok (true, f, w) p' ∧
    match (S m).find f with
    | none => w = .lengthDelimited ∧ LeadsOut data p'
    | some (_, t) => ShortValue data qt short nested n t p'

end

end

section
variable {M : Type} (S : Schema M) (qt : QtCore)

/-- The reading comes to a short record. -/
def Short : Nat → M → List (Value M) → Bytes → Prop
  | 0, _, _, _ => False
  | n + 1, m, object, data =>
    let nested := fun m' array => Within.message S qt n m' (newObject S m') array
    ∃ p ∈ Walk.visited ((Within.reader data).differs data.length)
      ((Within.reader data).property S qt nested n data.length m) (n + 1) object 0,
      ShortRecord data S qt (fun m' array => Short n m' (newObject S m') array) nested n m p

/-- A value of `data` is not wholly there. -/
def Overreads (m : M) (object : List (Value M)) (data : Bytes) : Prop := ∃ n, Short S qt n m object data

end

/-! ## A reading that leaves the buffer -/

section
variable {data : Bytes} {p : Int}

open Wire.Within (Inside Before)

theorem lengthDelimited_strays (h : Inside data p)
    (hs : Walk.Strays (Inside data) (Within.reader data).lengthDelimited p) :
    TooLong data p ∨ LeadsOut data p := by
  rcases Walk.Strays.bind_inv hs with hs | ⟨length, p', hl, hin, hs⟩
  · exact absurd hs (Wire.Within.not_strays_varint 32 h)
  · rcases Wire.Within.takeLength_strays hin hs with hlt | hb
    · exact .inl ⟨length, p', hl, hlt⟩
    · exact .inr ⟨length, p', hl, hb⟩

theorem lengthDelimited_bad (h : TooLong data p) : (Within.reader data).lengthDelimited.run p = .bad := by
  obtain ⟨length, p', hl, hlt⟩ := h
  exact (Walk.run_bind_ok hl).trans (Walk.bind_bad (Wire.Within.peek_bad hlt))

theorem strays_lengthDelimited (h : TooLong data p ∨ LeadsOut data p) :
    Walk.Strays (Inside data) (Within.reader data).lengthDelimited p := by
  rcases h with h | ⟨length, p', hl, hb⟩
  · exact .inl (lengthDelimited_bad h)
  · exact .bind hl (Wire.Within.strays_takeLength hb)

theorem basic_strays {t : NumType} (h : Inside data p)
    (hs : Walk.Strays (Inside data) ((Within.reader data).basic t) p) : ShortBasic data t p := by
  have hw := t.width_eq
  have hv : ¬ Walk.Strays (Inside data) ((Within.reader data).varint t.width) p :=
    Wire.Within.not_strays_varint _ h
  unfold Reader.basic at hs
  unfold ShortBasic
  cases hc : t.coding with
  | fixed =>
    rw [hc] at hs
    exact ⟨rfl, Wire.Within.take_strays h (by omega) (Walk.strays_map.mp hs)⟩
  | plain =>
    rw [hc] at hs
    exact absurd hs hv
  | zigZag =>
    rw [hc] at hs
    exact absurd (Walk.strays_map.mp hs) hv

theorem basic_bad {t : NumType} (h : ShortBasic data t p) : ((Within.reader data).basic t).run p = .bad := by
  unfold Reader.basic
  rw [h.1]
  exact Walk.bind_bad (Walk.bind_bad (Wire.Within.peek_bad h.2))

theorem scalar_strays {qt : QtCore} {t : ScalarType} (h : Inside data p)
    (hs : Walk.Strays (Inside data) ((Within.reader data).scalar qt t) p) : ShortScalar data t p := by
  cases t with
  | num t => exact basic_strays h (Walk.strays_map.mp hs)
  | bool => exact Coding.noConfusion (basic_strays h (Walk.strays_map.mp hs)).1
  | string => exact lengthDelimited_strays h (Walk.strays_map.mp hs)
  | bytes => exact lengthDelimited_strays h (Walk.strays_map.mp hs)

theorem strays_scalar {qt : QtCore} {t : ScalarType} (h : ShortScalar data t p) :
    Walk.Strays (Inside data) ((Within.reader data).scalar qt t) p := by
  cases t with
  | num t => exact .inl (Walk.bind_bad (basic_bad h))
  | bool => exact h.elim
  | string => exact Walk.strays_map.mpr (strays_lengthDelimited h)
  | bytes => exact Walk.strays_map.mpr (strays_lengthDelimited h)

theorem header_inside (h : Inside data p) :
    ¬ Walk.Strays (Inside data) (Within.reader data).header p := fun hs =>
  Wire.Within.not_strays_varint 32 h (Walk.strays_map.mp hs)

theorem header_outside (h : ¬ Inside data p) : (Within.reader data).header.run p = .bad :=
  Walk.bind_bad (Wire.Within.varint_outside h)

theorem plusLength_ok {length : BitVec 32} {last p' : Int}
    (h : (Wire.Within.plusLength data length).run p = .ok last p') : p' = p := by
  unfold Wire.Within.plusLength at h
  dsimp only at h
  split at h
  · cases h
    rfl
  · cases h

theorem not_strays_plusLength {length : BitVec 32} (h : Inside data p) :
    ¬ Walk.Strays (Inside data) (Wire.Within.plusLength data length) p := by
  rintro (hs | ⟨last, p', hs, hout⟩)
  · unfold Wire.Within.plusLength at hs
    dsimp only at hs
    split at hs <;> cases hs
  · rw [plusLength_ok hs] at hout
    exact hout h

theorem list_strays {size : Nat} {t : NumType} (h : Inside data p)
    (hs : Walk.Strays (Inside data) ((Within.reader data).list size t) p) : ShortList data t p := by
  rcases Walk.Strays.bind_inv hs with hs | ⟨count, p₁, hcount, h₁, hs⟩
  · exact absurd hs (Wire.Within.not_strays_varint 32 h)
  rcases Walk.Strays.bind_inv hs with hs | ⟨last, p₂, hlast, h₂, hs⟩
  · exact absurd hs (not_strays_plusLength h₁)
  rcases Walk.Strays.bind_inv hs with hs | ⟨p₃, p₃', hget, -, hs⟩
  · exact absurd hs (Walk.not_strays_pure h₂)
  cases hget
  exact ⟨count, p₁, last, p₂, hcount, hlast,
    hs.while_inv (fun _ _ hq hs => basic_strays hq (Walk.strays_map.mp hs)) h₂⟩

theorem list_bad {size : Nat} {t : NumType} (h : ShortList data t p) :
    ((Within.reader data).list size t).run p = .bad := by
  obtain ⟨count, p₁, last, p₂, hcount, hlast, q, hq, hshort⟩ := h
  refine (Walk.run_bind_ok hcount).trans ((Walk.run_bind_ok hlast).trans ?_)
  exact (Walk.run_bind_ok rfl).trans (Walk.while_bad hq fun _ => Walk.bind_bad (basic_bad hshort))

theorem skip_strays {w : WireTypes} (h : Inside data p)
    (hs : Walk.Strays (Inside data) ((Within.reader data).skip w) p) :
    w = .lengthDelimited ∧ LeadsOut data p := by
  have hfixed : ∀ n : Nat, n < 2 ^ 31 →
      ¬ Walk.Strays (Inside data) (Wire.Within.move data n) p := by
    intro n hn hs
    have hb := (Wire.Within.move_strays h (by omega) (by omega) hs).1
    have h0 := h.1
    omega
  cases w with
  | varint => exact absurd hs (Wire.Within.not_strays_skipVarint h)
  | fixed32 => exact absurd hs (hfixed 4 (by decide))
  | fixed64 => exact absurd hs (hfixed 8 (by decide))
  | lengthDelimited =>
    rcases Walk.Strays.bind_inv hs with hs | ⟨length, p', hl, hin, hs⟩
    · exact absurd hs (Wire.Within.not_strays_varint 32 h)
    · exact ⟨rfl, length, p', hl,
        Wire.Within.move_strays hin (int32_range _).1 (int32_range _).2 hs⟩
  | _ => exact absurd hs Walk.not_strays_fail

theorem strays_skip (h : LeadsOut data p) :
    Walk.Strays (Inside data) ((Within.reader data).skip .lengthDelimited) p := by
  obtain ⟨length, p', hl, hb⟩ := h
  exact .bind hl (Wire.Within.strays_move hb)

/-- Where the payload at `p` ends, if its prefix leads out. -/
theorem LeadsOut.end_outside (h : LeadsOut data p) {array : Bytes} {p' : Int}
    (hr : (Within.reader data).lengthDelimited.run p = .ok array p') : ¬ Inside data p' := by
  obtain ⟨length, q, hl, hb, -⟩ := h
  have htake : (Wire.Within.takeLength data length).run q = .ok array p' := by
    rw [← hr]
    exact (Walk.run_bind_ok hl).symm
  rw [Wire.Within.takeLength_ok htake]
  exact fun hin => Int.not_le.mpr hb hin.1

theorem LeadsOut.taken (hout : LeadsOut data p) (h : Inside data p) (hlong : ¬ TooLong data p) :
    ∃ array p', (Within.reader data).lengthDelimited.run p = .ok array p' := by
  obtain ⟨length, q, hl, hb⟩ := hout
  have hle : q + length.toNat ≤ data.length := Int.not_lt.mp fun hlt => hlong ⟨length, q, hl, hlt⟩
  by_cases hq : Inside data q
  · refine ⟨_, q + int32 length.toNat, (Walk.run_bind_ok hl).trans
      ((Walk.run_bind_ok (Wire.Within.peek_ok hq.1 hle)).trans (Walk.run_bind_ok (b := ()) ?_))⟩
    exact if_neg (Int.not_lt.mpr hb.2)
  · exact absurd (.inr ⟨length, q, hl, hq⟩) (Wire.Within.not_strays_varint 32 h)

/-! ## Messages -/

section
variable {M : Type} {S : Schema M} {qt : QtCore} {short : M → Bytes → Prop}
  {nested : M → Bytes → Outcome Stop Int (List (Value M))} {n size : Nat}
  (hnested : ∀ m array, nested m array = .bad → short m array)
include hnested

theorem object_strays {m : M} (h : Inside data p)
    (hs : Walk.Strays (Inside data) ((Within.reader data).object nested m) p) :
    ShortObject data short nested m p := by
  by_cases hlong : TooLong data p
  · exact .inl hlong
  obtain ⟨array, p', hr⟩ : ∃ array p', (Within.reader data).lengthDelimited.run p = .ok array p' := by
    rcases Walk.Strays.bind_inv hs with hl | ⟨array, p', hr, -, -⟩
    · exact ((lengthDelimited_strays h hl).resolve_left hlong).taken h hlong
    · exact ⟨array, p', hr⟩
  unfold Reader.object Walk.Strays at hs
  rw [Walk.run_bind_ok hr] at hs
  rcases Walk.strays_lift.mp (Walk.strays_map.mp hs) with hbad | ⟨⟨fs, q, hok⟩, hout⟩
  · exact .inr ⟨array, p', hr, .inl (hnested m array hbad)⟩
  · have hl := (lengthDelimited_strays h (.inr ⟨array, p', hr, hout⟩)).resolve_left hlong
    exact .inr ⟨array, p', hr, .inr ⟨hl, fs, q, hok⟩⟩

theorem single_strays {t : SingleType M} (h : Inside data p)
    (hs : Walk.Strays (Inside data) ((Within.reader data).single qt nested t) p) :
    ShortSingle data short nested t p := by
  cases t with
  | scalar t => exact scalar_strays h (Walk.strays_map.mp hs)
  | enum => exact Coding.noConfusion (basic_strays h (Walk.strays_map.mp hs)).1
  | message m => exact object_strays hnested h hs

theorem mapPart_strays {kt : ScalarType} {vt : SingleType M} {pair : Scalar × Value M} (h : Inside data p)
    (hs : Walk.Strays (Inside data) ((Within.reader data).mapPart qt nested kt vt pair) p) :
    ShortPart data short nested kt vt p := by
  rcases Walk.Strays.bind_inv hs with hs | ⟨header, p', hr, hin, hs⟩
  · exact absurd hs (header_inside h)
  refine ⟨header, p', hr, ?_⟩
  split at hs
  · rename_i hkey
    rw [if_pos hkey]
    exact scalar_strays hin (Walk.strays_map.mp hs)
  · rename_i hvalue
    rw [if_neg hvalue]
    exact single_strays hnested hin (Walk.strays_map.mp hs)

theorem mapPair_strays {kt : ScalarType} {vt : SingleType M} (h : Inside data p)
    (hs : Walk.Strays (Inside data) ((Within.reader data).mapPair qt nested n size kt vt) p) :
    ShortEntry data qt short nested n kt vt p := by
  rcases Walk.Strays.bind_inv hs with hs | ⟨count, p₁, hcount, h₁, hs⟩
  · exact absurd hs (Wire.Within.not_strays_varint 32 h)
  rcases Walk.Strays.bind_inv hs with hs | ⟨last, p₂, hlast, h₂, hs⟩
  · exact absurd hs (not_strays_plusLength h₁)
  exact ⟨count, p₁, last, p₂, hcount, hlast, hs.while_inv (fun _ _ hq hs => mapPart_strays hnested hq hs) h₂⟩

theorem value_strays {previous : Value M} {t : FieldType M} (h : Inside data p)
    (hs : Walk.Strays (Inside data) ((Within.reader data).value qt nested n size previous t) p) :
    ShortValue data qt short nested n t p := by
  cases t with
  | single t => exact single_strays hnested h hs
  | nums t => exact list_strays h (Walk.strays_map.mp hs)
  | strings => exact lengthDelimited_strays h (Walk.strays_map.mp hs)
  | byteArrays => exact lengthDelimited_strays h (Walk.strays_map.mp hs)
  | enums =>
    obtain ⟨_, _, _, _, _, _, _, _, hfixed, -⟩ := list_strays h (Walk.strays_map.mp hs)
    exact Coding.noConfusion hfixed
  | messages m => exact object_strays hnested h (Walk.strays_map.mp hs)
  | map kt vt => exact mapPair_strays hnested h (Walk.strays_map.mp hs)

/-- A record that is read to the outside is short. -/
theorem property_strays {m : M} {object : List (Value M)} (h : Inside data p)
    (hs : Walk.Strays (Inside data) ((Within.reader data).property S qt nested n size m object) p) :
    ShortRecord data S qt short nested n m p := by
  rcases Walk.Strays.bind_inv hs with hs | ⟨⟨known, f, w⟩, p', hr, hin, hs⟩
  · exact absurd hs (header_inside h)
  cases known with
  | false => exact absurd hs Walk.not_strays_fail
  | true =>
    refine ⟨f, w, p', hr, ?_⟩
    have hs : Walk.Strays (Inside data) ((Within.reader data).field S qt nested n size m object f w) p' := hs
    unfold Reader.field at hs
    cases hf : (S m).find f with
    | none =>
      rw [hf] at hs
      exact skip_strays hin (Walk.strays_map.mp hs)
    | some found =>
      rw [hf] at hs
      exact value_strays hnested hin (Walk.strays_map.mp hs)

end

section
variable {M : Type} {S : Schema M} {qt : QtCore} {short : M → Bytes → Prop}
  {nested nested' : M → Bytes → Outcome Stop Int (List (Value M))} {n n' size : Nat}
  (hshort : ∀ m array, short m array → nested' m array = .bad)
  (hmore : ∀ m array, nested m array = .spent ∨ nested' m array = nested m array)
include hshort hmore

theorem strays_object {m : M} (h : ShortObject data short nested m p) :
    Walk.Strays (Inside data) ((Within.reader data).object nested' m) p := by
  rcases h with h | ⟨array, p', hr, h | ⟨hout, fs, q, hok⟩⟩
  · exact .inl (Walk.bind_bad (lengthDelimited_bad h))
  · exact .bind hr (Walk.strays_map.mpr (Walk.strays_lift.mpr (.inl (hshort m array h))))
  · have hok' : nested' m array = .ok fs q := by
      rcases hmore m array with h | h
      · rw [hok] at h
        cases h
      · rw [h, hok]
    exact .bind hr (Walk.strays_map.mpr
      (Walk.strays_lift.mpr (.inr ⟨⟨fs, q, hok'⟩, hout.end_outside hr⟩)))

theorem strays_single {t : SingleType M} (h : ShortSingle data short nested t p) :
    Walk.Strays (Inside data) ((Within.reader data).single qt nested' t) p := by
  cases t with
  | scalar t => exact Walk.strays_map.mpr (strays_scalar h)
  | enum => exact h.elim
  | message m => exact strays_object hshort hmore h

theorem strays_mapPart {kt : ScalarType} {vt : SingleType M} {pair : Scalar × Value M}
    (h : ShortPart data short nested kt vt p) :
    Walk.Strays (Inside data) ((Within.reader data).mapPart qt nested' kt vt pair) p := by
  obtain ⟨header, p', hr, h⟩ := h
  refine .bind hr ?_
  split at h
  · rename_i hkey
    rw [if_pos hkey]
    exact Walk.strays_map.mpr (strays_scalar h)
  · rename_i hvalue
    rw [if_neg hvalue]
    exact Walk.strays_map.mpr (strays_single hshort hmore h)

theorem strays_mapPair (hn : n < n') {kt : ScalarType} {vt : SingleType M}
    (h : ShortEntry data qt short nested n kt vt p) :
    Walk.Strays (Inside data) ((Within.reader data).mapPair qt nested' n' size kt vt) p := by
  obtain ⟨k, rfl⟩ : ∃ k, n' = k + 1 := ⟨n' - 1, by omega⟩
  obtain ⟨count, p₁, last, p₂, hcount, hlast, q, hq, hpart⟩ := h
  refine .bind hcount (.bind hlast ?_)
  exact .while_visited hq (fun pair => Reader.mapPart_le hmore kt vt pair) (by omega)
    (fun _ _ hout _ => Walk.bind_bad (header_outside hout)) fun _ => strays_mapPart hshort hmore hpart

theorem strays_value (hn : n < n') {previous : Value M} {t : FieldType M}
    (h : ShortValue data qt short nested n t p) :
    Walk.Strays (Inside data) ((Within.reader data).value qt nested' n' size previous t) p := by
  cases t with
  | single t => exact strays_single hshort hmore h
  | nums t => exact .inl (Walk.bind_bad (list_bad h))
  | strings => exact Walk.strays_map.mpr (strays_lengthDelimited h)
  | byteArrays => exact Walk.strays_map.mpr (strays_lengthDelimited h)
  | enums => exact h.elim
  | messages m => exact Walk.strays_map.mpr (strays_object hshort hmore h)
  | map kt vt => exact Walk.strays_map.mpr (strays_mapPair hshort hmore hn h)

/-- A short record is read to the outside. -/
theorem strays_property (hn : n < n') {m : M} {object : List (Value M)}
    (h : ShortRecord data S qt short nested n m p) :
    Walk.Strays (Inside data) ((Within.reader data).property S qt nested' n' size m object) p := by
  obtain ⟨f, w, p', hr, h⟩ := h
  refine .bind hr ?_
  have hfield : Walk.Strays (Inside data)
      ((Within.reader data).field S qt nested' n' size m object f w) p' := by
    unfold Reader.field
    split
    · rename_i hf
      rw [hf] at h
      obtain ⟨rfl, hout⟩ := h
      exact Walk.strays_map.mpr (strays_skip hout)
    · rename_i hf
      rw [hf] at h
      exact Walk.strays_map.mpr (strays_value hshort hmore hn h)
  exact hfield

end

end

/-! ## In-bounds reads -/

section
variable {M : Type} {S : Schema M} {qt : QtCore}

/-- The reading of a message comes to a bad end only at a short record. -/
theorem short_of_bad {n : Nat} {m : M} {object : List (Value M)} {data : Bytes}
    (h : Within.message S qt n m object data = .bad) : Short S qt n m object data := by
  induction n generalizing m object data with
  | zero => cases h
  | succ n ih =>
    have hstart : Wire.Within.Inside data 0 := ⟨Int.le_refl 0, Int.natCast_nonneg _⟩
    exact Walk.Strays.while_inv (fun _ _ hp hs => property_strays (fun m' array => ih) hp hs)
      (.inl h) hstart

/-- From a short record on, one round more is enough. -/
theorem bad_of_short {n : Nat} {m : M} {object : List (Value M)} {data : Bytes}
    (h : Short S qt n m object data) : Within.message S qt (n + 1) m object data = .bad := by
  induction n generalizing m object data with
  | zero => exact h.elim
  | succ n ih =>
    obtain ⟨p, hp, hshort⟩ := h
    have hmore : ∀ m' array,
        Within.message S qt n m' (newObject S m') array = .spent ∨
        Within.message S qt (n + 1) m' (newObject S m') array =
          Within.message S qt n m' (newObject S m') array :=
      fun m' array => Reader.message_mono (Nat.le_succ n) m' (newObject S m') array
    have hstrays : ∀ object, Walk.Strays (Wire.Within.Inside data)
        ((Within.reader data).property S qt
          (fun m' array => Within.message S qt (n + 1) m' (newObject S m') array)
          (n + 1) data.length m object) p :=
      fun object => strays_property (fun _ _ => ih) hmore (Nat.lt_succ_self n) hshort
    have hloop := Walk.Strays.while_visited hp
      (fun object => Reader.property_le hmore (Nat.le_succ n) m object) (Nat.le_refl _)
      (fun _ _ hout _ => Walk.bind_bad (header_outside hout)) hstrays
    rcases hloop with hbad | ⟨object', q, hend, hout⟩
    · exact hbad
    · have hdone := Walk.while_done hend
      have hq : q = data.length := bne_eq_false_iff_eq.mp hdone
      exact absurd ⟨by omega, Int.le_of_eq hq⟩ hout

/-- **In-bounds reads.** The decoder reads inside its buffers, and takes only
bytes that are left, exactly if it comes to no value that is not wholly there. -/
theorem in_bounds_iff (env : Bytes → Int → UInt8) (m : M) (object : List (Value M)) (data : Bytes) :
    (∀ n, ∀ e ∈ (deserializeMessage S qt env n m object data).1, e.InBounds) ↔
      ¬ Overreads S qt m object data := by
  rw [Within.not_bad_iff]
  constructor
  · rintro h ⟨n, hn⟩
    exact h (n + 1) (bad_of_short hn)
  · exact fun h n hn => h ⟨n, short_of_bad hn⟩

/-- Of a `fixed64` only the header is there; eight bytes are read. -/
theorem not_in_bounds_fixed64 :
    ¬ ∀ n, ∀ e ∈ (deserializeMessage
      (fun _ : Unit => .oneField 1 fieldNumber_one (.single (.scalar (.num .fixed64)))) .ascii (fun _ _ => 0) n
      () [.scalar (.num .fixed64 0)] [0x09]).1, e.InBounds := by
  rw [Within.not_bad_iff]
  exact fun h => h 2 rfl

end

end QtProtobuf.Codec
