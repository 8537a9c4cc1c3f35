import QtProtobuf.L1Wire.Iterator

/-!
# Varints and headers (`protobuf/qprotobufserializer_p.h`)

`IsVarint bs`: every byte but the last has the continuation bit;
`varintValue bs`: the sum of its 7-bit groups.

* `serializeVarintCommon_isVarint`: the writer emits a varint of at most ten
  bytes with the value it was given.
* `DecSim.varint`, `DecSim.header`: the readers do what the list reading does.
* `Rest.varint_run`: it takes exactly the varint in front of it, and yields its
  value modulo 2^w; `Rest.header_run`: so with the two parts of a header.
-/
namespace QtProtobuf.Wire

open Lib

/-! ## Writing -/

/-- The loop of `serializeVarintCommon` and `serializeBasic`; a 64-bit value
takes at most 10 rounds. -/
def varintLoop : Nat → Nat → Bytes
  | 0, _ => []
  | n + 1, v => if v = 0 then [] else ((UInt8.ofNat v &&& 0x7f) ||| 0x80) :: varintLoop n (v >>> 7)

/-- `result.data()[result.size() - 1] &= ~0b10000000` -/
def clearLast (result : Bytes) : Bytes := result.modify (result.length - 1) (· &&& 0x7f)

/-- mirrors src/protobuf/qprotobufserializer_p.h:75-95 -/
def serializeVarintCommon (value : Nat) : Bytes :=
  let result := varintLoop 10 value
  clearLast (if result.isEmpty then [0] else result)

/-- mirrors src/protobuf/qprotobufserializer_p.h:181-204 (serializeBasic of an
unsigned integer); nothing is written for zero. -/
def serializeUnsigned (value : Nat) : Bytes := clearLast (varintLoop 10 value)

/-! ## Reading -/

/-- `(byte & 0b01111111) << k` in 64 bits, added to a `w`-bit value; the
processor takes the shift amount modulo 64. -/
def group (w : Nat) (byte : UInt8) (k : Nat) : BitVec w :=
  (BitVec.ofNat 64 (byte &&& 0x7f).toNat <<< (k % 64)).setWidth w

def deserializeVarintLoop (b : Buffer) (w : Nat) : Nat → Nat → BitVec w → Dec (BitVec w)
  | 0, _, _ => .fail .spent
  | n + 1, k, value => do
    let byte ← Dec.deref b
    let value := value + group w byte k
    let byte ← Dec.deref b
    if byte &&& 0x80 = 0 then
      Dec.next
      pure value
    else
      Dec.next
      deserializeVarintLoop b w n (k + 7) value

/-- mirrors src/protobuf/qprotobufserializer_p.h:255-274; the loop ends at the
zero behind the buffer at the latest. -/
def deserializeVarintCommon (b : Buffer) (w : Nat) : Dec (BitVec w) := do
  let it ← .get
  deserializeVarintLoop b w ((b.size - it.pos).toNat + 1) 0 0

def skipVarintLoop (b : Buffer) : Nat → Dec Unit
  | 0 => .fail .spent
  | n + 1 => do
    let byte ← Dec.deref b
    if byte &&& 0x80 = 0 then Dec.next
    else
      Dec.next
      skipVarintLoop b n

/-- mirrors src/protobuf/qprotobufserializer.cpp:218-224 -/
def skipVarint (b : Buffer) : Dec Unit := do
  let it ← .get
  skipVarintLoop b ((b.size - it.pos).toNat + 1)

/-! ## Headers -/

/-- mirrors src/protobuf/qtprotobuftypes.h:52-60; `other`: a value without a name. -/
inductive WireTypes where
  | unknown | varint | fixed64 | lengthDelimited | startGroup | endGroup | fixed32
  | other (n : Nat)
  deriving DecidableEq, Repr

namespace WireTypes

def ofNat : Nat → WireTypes
  | 0 => varint
  | 1 => fixed64
  | 2 => lengthDelimited
  | 3 => startGroup
  | 4 => endGroup
  | 5 => fixed32
  | n => other n

/-- The value of the enumerator, as the three bits of a header. -/
def bits : WireTypes → BitVec 32
  | unknown => -1
  | varint => 0
  | fixed64 => 1
  | lengthDelimited => 2
  | startGroup => 3
  | endGroup => 4
  | fixed32 => 5
  | other n => BitVec.ofNat 32 n

/-- The wire types `decodeHeader` accepts. -/
def known (t : WireTypes) : Bool :=
  t == varint || t == fixed64 || t == fixed32 || t == lengthDelimited

end WireTypes

/-- mirrors src/protobuf/qprotobufserializer_p.h:473-477 -/
def encodeHeader (fieldIndex : Nat) (wireType : WireTypes) : Bytes :=
  serializeVarintCommon ((BitVec.ofNat 32 fieldIndex <<< 3) ||| wireType.bits).toNat

/-- mirrors src/protobuf/qprotobufserializer_p.h:488-499; the result, `fieldIndex`
and `wireType`. -/
def decodeHeader (b : Buffer) : Dec (Bool × Nat × WireTypes) := do
  let header ← deserializeVarintCommon b 32
  let wireType := WireTypes.ofNat (header &&& 7).toNat
  let fieldIndex := (header >>> 3).toNat
  pure (decide (fieldIndex ≤ (1 <<< 29) - 1 ∧ fieldIndex > 0) && wireType.known, fieldIndex, wireType)

/-! ## The list reading -/

namespace Rest

/-- The rounds of `deserializeVarintLoop`. -/
def varintRounds (w : Nat) : Nat → Nat → BitVec w → Walk Stop Bytes (BitVec w)
  | 0, _, _ => ⟨fun _ => .spent⟩
  | n + 1, k, value => do
    let byte ← deref
    let value := value + group w byte k
    let byte ← deref
    if byte &&& 0x80 = 0 then
      advance 1
      pure value
    else
      advance 1
      varintRounds w n (k + 7) value

/-- The same by recursion on the bytes. -/
def varintLoop (w : Nat) : Nat → BitVec w → Bytes → Outcome Stop Bytes (BitVec w)
  | _, _, [] => .fail .outOfRange
  | k, value, c :: rest =>
    if Fits (rest.length + 1) 1 then
      if c &&& 0x80 = 0 then .ok (value + group w c k) rest
      else varintLoop w (k + 7) (value + group w c k) rest
    else .fail .outOfRange

def varint (w : Nat) : Walk Stop Bytes (BitVec w) := ⟨varintLoop w 0 0⟩

def skipRounds : Nat → Walk Stop Bytes Unit
  | 0 => ⟨fun _ => .spent⟩
  | n + 1 => do
    let byte ← deref
    if byte &&& 0x80 = 0 then advance 1
    else
      advance 1
      skipRounds n

def skipVarintLoop : Bytes → Outcome Stop Bytes Unit
  | [] => .fail .outOfRange
  | c :: rest =>
    if Fits (rest.length + 1) 1 then if c &&& 0x80 = 0 then .ok () rest else skipVarintLoop rest
    else .fail .outOfRange

def skipVarint : Walk Stop Bytes Unit := ⟨skipVarintLoop⟩

def header : Walk Stop Bytes (Bool × Nat × WireTypes) := do
  let header ← varint 32
  let wireType := WireTypes.ofNat (header &&& 7).toNat
  let fieldIndex := (header >>> 3).toNat
  pure (decide (fieldIndex ≤ (1 <<< 29) - 1 ∧ fieldIndex > 0) && wireType.known, fieldIndex, wireType)

theorem advance_cons (c : UInt8) (rest : Bytes) :
    (advance 1).run (c :: rest) = if Fits (rest.length + 1) 1 then .ok () rest else .fail .outOfRange := rfl

theorem advance_cons_bind {β : Type} (c : UInt8) (rest : Bytes) (k : Unit → Walk Stop Bytes β) :
    (advance 1 >>= k).run (c :: rest) =
      if Fits (rest.length + 1) 1 then (k ()).run rest else .fail .outOfRange := by
  rw [Walk.run_bind, advance_cons]
  by_cases hf : Fits (rest.length + 1) 1
  · rw [if_pos hf, if_pos hf]
  · rw [if_neg hf, if_neg hf]

theorem varintRounds_run (w n k : Nat) (value : BitVec w) (rest : Bytes) (hn : rest.length < n) :
    (varintRounds w n k value).run rest = varintLoop w k value rest := by
  induction n generalizing k value rest with
  | zero => omega
  | succ n ih =>
    rw [varintRounds, Walk.run_bind]
    dsimp only [deref]
    rw [Walk.run_bind]
    dsimp only
    cases rest with
    | nil => rfl
    | cons c rest =>
      rw [List.length_cons] at hn
      rw [varintLoop, List.headD_cons]
      by_cases hc : c &&& 0x80 = 0
      · rw [if_pos hc, if_pos hc, advance_cons_bind]
        rfl
      · rw [if_neg hc, if_neg hc, advance_cons_bind, ih _ _ rest (by omega)]

theorem skipRounds_run (n : Nat) (rest : Bytes) (hn : rest.length < n) :
    (skipRounds n).run rest = skipVarintLoop rest := by
  induction n generalizing rest with
  | zero => omega
  | succ n ih =>
    rw [skipRounds, Walk.run_bind]
    dsimp only [deref]
    cases rest with
    | nil => rfl
    | cons c rest =>
      rw [List.length_cons] at hn
      rw [skipVarintLoop, List.headD_cons]
      by_cases hc : c &&& 0x80 = 0
      · rw [if_pos hc, if_pos hc, advance_cons]
      · rw [if_neg hc, if_neg hc, advance_cons_bind, ih rest (by omega)]

end Rest

namespace DecSim

variable {b : Buffer}

theorem varintRounds (w n k : Nat) (value : BitVec w) :
    DecSim b Eq (deserializeVarintLoop b w n k value) (Rest.varintRounds w n k value) := by
  induction n generalizing k value with
  | zero => exact fun _ _ _ => ⟨good_nil, rfl⟩
  | succ n ih =>
    refine Sim.bind deref fun byte _ hb => Sim.bind deref fun byte' _ hb' => ?_
    subst hb hb'
    split
    · exact Sim.bind next fun _ _ _ => Sim.pure rfl
    · exact Sim.bind next fun _ _ _ => ih _ _

theorem skipRounds (n : Nat) :
    DecSim b (fun _ _ => True) (skipVarintLoop b n) (Rest.skipRounds n) := by
  induction n with
  | zero => exact fun _ _ _ => ⟨good_nil, rfl⟩
  | succ n ih =>
    refine Sim.bind deref fun byte _ hb => ?_
    subst hb
    split
    · exact next
    · exact Sim.bind next fun _ _ _ => ih

/-- The rounds a loop over the bytes left is given. -/
theorem rounds {it : Iter} {rest : Bytes} (h : At b it rest) :
    (b.size - it.pos).toNat + 1 = rest.length + 1 := by
  have hp := h.pos
  omega

theorem varint (w : Nat) : DecSim b Eq (deserializeVarintCommon b w) (Rest.varint w) := by
  intro it rest h
  have hs := varintRounds w (rest.length + 1) 0 0 it rest h
  rw [Rest.varintRounds_run w _ 0 0 rest (Nat.lt_succ_self _)] at hs
  unfold deserializeVarintCommon
  rw [Traced.run_bind_ok rfl, rounds h]
  exact hs

theorem skipVarint : DecSim b (fun _ _ => True) (Wire.skipVarint b) Rest.skipVarint := by
  intro it rest h
  have hs := skipRounds (rest.length + 1) it rest h
  rw [Rest.skipRounds_run _ rest (Nat.lt_succ_self _)] at hs
  unfold Wire.skipVarint
  rw [Traced.run_bind_ok rfl, rounds h]
  exact hs

theorem header : DecSim b Eq (decodeHeader b) Rest.header := by
  refine Sim.bind (varint 32) fun header _ hh => ?_
  subst hh
  exact Sim.pure rfl

end DecSim

namespace Dec

variable {b : Buffer}

theorem keeps_varintLoop (w n k : Nat) (value : BitVec w) :
    Traced.Keeps (Iter.Wf b) (deserializeVarintLoop b w n k value) := by
  induction n generalizing k value with
  | zero => exact .fail _
  | succ n ih =>
    refine .bind keeps_deref fun byte => .bind keeps_deref fun byte' => ?_
    split
    · exact .bind keeps_next fun _ => .pure _
    · exact .bind keeps_next fun _ => ih _ _

theorem keeps_varint (w : Nat) : Traced.Keeps (Iter.Wf b) (deserializeVarintCommon b w) :=
  .bind .get fun _ => keeps_varintLoop w _ 0 0

theorem keeps_header : Traced.Keeps (Iter.Wf b) (decodeHeader b) :=
  .bind (keeps_varint 32) fun _ => .pure _

end Dec

/-! ## The format -/

def IsVarint : Bytes → Prop
  | [] => False
  | [c] => c.toNat < 128
  | c :: d :: bs => 128 ≤ c.toNat ∧ IsVarint (d :: bs)

instance decIsVarint : (bs : Bytes) → Decidable (IsVarint bs)
  | [] => .isFalse id
  | [c] => inferInstanceAs (Decidable (c.toNat < 128))
  | c :: d :: bs =>
    have := decIsVarint (d :: bs)
    inferInstanceAs (Decidable (128 ≤ c.toNat ∧ IsVarint (d :: bs)))

def varintValue : Bytes → Nat
  | [] => 0
  | c :: bs => c.toNat % 128 + 128 * varintValue bs

theorem and_low (c : UInt8) : (c &&& 0x7f).toNat = c.toNat % 128 := by
  rw [UInt8.toNat_and]
  exact Nat.and_two_pow_sub_one_eq_mod c.toNat 7

theorem and_high (c : UInt8) : c &&& 0x80 = 0 ↔ c.toNat < 128 := by
  have h : ∀ n : Fin 256, (UInt8.ofNat n.val &&& 0x80 = 0) ↔ n.val < 128 := by
    decide +kernel
  have hc := h ⟨c.toNat, c.toNat_lt⟩
  rwa [UInt8.ofNat_toNat] at hc

theorem or_high (v : Nat) : ((UInt8.ofNat v &&& 0x7f) ||| 0x80).toNat = v % 128 + 128 := by
  have h : ∀ n : Fin 256, ((UInt8.ofNat n.val &&& 0x7f) ||| 0x80).toNat = n.val % 128 + 128 := by
    decide +kernel
  have hv : ((UInt8.ofNat (v % 256) &&& 0x7f) ||| 0x80).toNat = v % 256 % 128 + 128 :=
    h ⟨v % 256, Nat.mod_lt _ (by decide)⟩
  have hm : UInt8.ofNat (v % 256) = UInt8.ofNat v := by
    apply UInt8.toNat_inj.mp
    rw [UInt8.toNat_ofNat', UInt8.toNat_ofNat']
    omega
  rw [hm] at hv
  rw [hv]
  omega

theorem clearLast_cons_cons (c d : UInt8) (bs : Bytes) :
    clearLast (c :: d :: bs) = c :: clearLast (d :: bs) := by
  unfold clearLast
  simp [List.modify_succ_cons]

/-- **The writer.** Up to `7 * n` bits give a varint of at most `n` bytes. -/
theorem varintLoop_isVarint (n v : Nat) (h0 : v ≠ 0) (hv : v < 128 ^ n) :
    IsVarint (clearLast (varintLoop n v)) ∧ varintValue (clearLast (varintLoop n v)) = v ∧
      (clearLast (varintLoop n v)).length ≤ n := by
  induction n generalizing v with
  | zero => omega
  | succ n ih =>
    rw [varintLoop, if_neg h0]
    have hshift : v >>> 7 = v / 128 := Nat.shiftRight_eq_div_pow v 7
    rw [hshift]
    by_cases hq : v / 128 = 0
    · have hnil : varintLoop n (v / 128) = [] := by
        cases n with
        | zero => rfl
        | succ n => rw [varintLoop, if_pos hq]
      have hlast : (((UInt8.ofNat v &&& 0x7f) ||| 0x80) &&& 0x7f).toNat = v := by
        rw [and_low, or_high]
        omega
      rw [hnil]
      refine ⟨?_, ?_, Nat.succ_le_succ (Nat.zero_le n)⟩
      · show (((UInt8.ofNat v &&& 0x7f) ||| 0x80) &&& 0x7f).toNat < 128
        omega
      · show (((UInt8.ofNat v &&& 0x7f) ||| 0x80) &&& 0x7f).toNat % 128 + 128 * 0 = v
        omega
    · have hlt : v / 128 < 128 ^ n := Nat.div_lt_of_lt_mul (by rw [Nat.pow_succ] at hv; omega)
      obtain ⟨h1, h2, h3⟩ := ih (v / 128) hq hlt
      cases hl : varintLoop n (v / 128) with
      | nil => rw [hl] at h1; exact absurd h1 id
      | cons d bs =>
        rw [hl] at h1 h2 h3
        rw [clearLast_cons_cons]
        have hne : clearLast (d :: bs) ≠ [] := fun he => by rw [he] at h1; exact h1
        obtain ⟨e, es, he⟩ := List.exists_cons_of_ne_nil hne
        rw [he] at h1 h2 h3 ⊢
        refine ⟨⟨?_, h1⟩, ?_, Nat.succ_le_succ h3⟩
        · rw [or_high]; omega
        · show _ % 128 + 128 * varintValue (e :: es) = v
          rw [h2, or_high]
          omega

theorem serializeVarintCommon_isVarint (v : Nat) (hv : v < 2 ^ 64) :
    IsVarint (serializeVarintCommon v) ∧ varintValue (serializeVarintCommon v) = v ∧
      (serializeVarintCommon v).length ≤ 10 := by
  unfold serializeVarintCommon
  by_cases h0 : v = 0
  · subst h0
    decide
  · have h := varintLoop_isVarint 10 v h0 (by omega)
    have hne : (varintLoop 10 v).isEmpty = false := by
      rw [varintLoop, if_neg h0]
      rfl
    dsimp only
    rw [hne, if_neg Bool.false_ne_true]
    exact h

theorem serializeUnsigned_zero : serializeUnsigned 0 = [] := rfl

theorem serializeUnsigned_isVarint (v : Nat) (h0 : v ≠ 0) (hv : v < 2 ^ 64) :
    IsVarint (serializeUnsigned v) ∧ varintValue (serializeUnsigned v) = v ∧
      (serializeUnsigned v).length ≤ 10 :=
  varintLoop_isVarint 10 v h0 (by omega)

/-! ## Reading a varint -/

namespace Rest

/-- One group below bit 64 adds its part of the value. -/
theorem group_eq (w : Nat) (c : UInt8) (k : Nat) (hw : w ≤ 64) (hk : k < 64) :
    group w c k = BitVec.ofNat w (c.toNat % 128 * 2 ^ k) := by
  apply BitVec.eq_of_toNat_eq
  unfold group
  rw [and_low, Nat.mod_eq_of_lt hk, BitVec.toNat_setWidth, BitVec.toNat_shiftLeft, BitVec.toNat_ofNat,
    BitVec.toNat_ofNat, Nat.shiftLeft_eq, Nat.mod_eq_of_lt (show c.toNat % 128 < 2 ^ 64 by omega)]
  exact Nat.mod_mod_of_dvd _ (Nat.pow_dvd_pow 2 hw)

/-- **The reader.** In front of a varint whose groups all lie below bit 64 it
takes the varint or, in a buffer too large for an `int`, throws. -/
theorem varintLoop_run (w : Nat) (hw : w ≤ 64) (bs tail : Bytes) (k : Nat) (acc : BitVec w)
    (hb : IsVarint bs) (hk : 7 * bs.length + k ≤ 70) :
    varintLoop w k acc (bs ++ tail) = .ok (acc + BitVec.ofNat w (varintValue bs * 2 ^ k)) tail ∨
      varintLoop w k acc (bs ++ tail) = .fail .outOfRange ∧ 2 ^ 31 ≤ (bs ++ tail).length := by
  have hbig : ∀ rest : Bytes, ¬ Fits (rest.length + 1) 1 → 2 ^ 31 ≤ rest.length + 1 := fun rest hf =>
    Nat.le_of_not_lt fun hlt => hf (Fits.of_le (by omega) hlt)
  induction bs generalizing k acc with
  | nil => exact absurd hb id
  | cons c bs ih =>
    rw [List.length_cons] at hk
    have hgroup := group_eq w c k hw (by omega)
    rw [List.cons_append, varintLoop]
    by_cases hf : Fits ((bs ++ tail).length + 1) 1
    · rw [if_pos hf]
      cases bs with
      | nil =>
        have hc : c &&& 0x80 = 0 := (and_high c).mpr hb
        rw [if_pos hc, hgroup]
        left
        rfl
      | cons d bs =>
        have hc : ¬ c &&& 0x80 = 0 := fun h => by
          have hlt := (and_high c).mp h
          have hge := hb.1
          omega
        rw [if_neg hc]
        have hval : acc + group w c k + BitVec.ofNat w (varintValue (d :: bs) * 2 ^ (k + 7)) =
            acc + BitVec.ofNat w (varintValue (c :: d :: bs) * 2 ^ k) := by
          rw [hgroup, BitVec.add_assoc, ← BitVec.ofNat_add]
          congr 2
          show _ = (c.toNat % 128 + 128 * varintValue (d :: bs)) * 2 ^ k
          rw [Nat.pow_add, Nat.add_mul, Nat.mul_comm 128, Nat.mul_assoc _ 128, Nat.mul_comm (2 ^ k)]
        rcases ih (k + 7) (acc + group w c k) hb.2 (by omega) with h | ⟨h, hlen⟩
        · left
          rw [h, hval]
        · right
          refine ⟨h, ?_⟩
          rw [List.length_cons]
          omega
    · right
      rw [if_neg hf]
      refine ⟨rfl, ?_⟩
      rw [List.length_cons]
      exact hbig _ hf

theorem varint_run {w : Nat} {bs : Bytes} (hw : w ≤ 64) (hb : IsVarint bs) (hlen : bs.length ≤ 10)
    (tail : Bytes) :
    (varint w).run (bs ++ tail) = .ok (BitVec.ofNat w (varintValue bs)) tail ∨
      (varint w).run (bs ++ tail) = .fail .outOfRange ∧ 2 ^ 31 ≤ (bs ++ tail).length := by
  have h := varintLoop_run w hw bs tail 0 0 hb (by omega)
  rw [Nat.pow_zero, Nat.mul_one] at h
  rcases h with h | h
  · left
    exact h.trans (congrArg (Outcome.ok · tail) (BitVec.zero_add _))
  · exact .inr h

/-- A varint of any length is skipped. -/
theorem skipVarintLoop_run {bs : Bytes} (hb : IsVarint bs) (tail : Bytes) :
    skipVarintLoop (bs ++ tail) = .ok () tail ∨
      skipVarintLoop (bs ++ tail) = .fail .outOfRange ∧ 2 ^ 31 ≤ (bs ++ tail).length := by
  induction bs with
  | nil => exact absurd hb id
  | cons c bs ih =>
    rw [List.cons_append, skipVarintLoop]
    by_cases hf : Fits ((bs ++ tail).length + 1) 1
    · rw [if_pos hf]
      cases bs with
      | nil =>
        have hc : c &&& 0x80 = 0 := (and_high c).mpr hb
        rw [if_pos hc]
        exact .inl rfl
      | cons d bs =>
        have hc : ¬ c &&& 0x80 = 0 := fun h => by
          have hlt := (and_high c).mp h
          have hge := hb.1
          omega
        rw [if_neg hc]
        rcases ih hb.2 with h | ⟨h, hlen⟩
        · exact .inl h
        · right
          refine ⟨h, ?_⟩
          rw [List.length_cons]
          omega
    · right
      rw [if_neg hf]
      refine ⟨rfl, ?_⟩
      rw [List.length_cons]
      refine Nat.le_of_not_lt fun hlt => hf (Fits.of_le ?_ hlt)
      omega

/-- A header varint with the value `8 * f + w`. -/
theorem header_run {bs : Bytes} {f w : Nat} (hb : IsVarint bs) (hlen : bs.length ≤ 10)
    (hval : varintValue bs = 8 * f + w) (hw : w < 8) (hf : f < 2 ^ 29) (tail : Bytes) :
    header.run (bs ++ tail) =
        .ok (decide (f ≤ (1 <<< 29) - 1 ∧ f > 0) && (WireTypes.ofNat w).known, f, .ofNat w) tail ∨
      header.run (bs ++ tail) = .fail .outOfRange ∧ 2 ^ 31 ≤ (bs ++ tail).length := by
  have hlow : ((BitVec.ofNat 32 (8 * f + w)) &&& 7).toNat = w := by
    rw [BitVec.toNat_and, BitVec.toNat_ofNat, Nat.mod_eq_of_lt (by omega)]
    have h7 : (7 : BitVec 32).toNat = 2 ^ 3 - 1 := rfl
    rw [h7, Nat.and_two_pow_sub_one_eq_mod]
    omega
  have hhigh : ((BitVec.ofNat 32 (8 * f + w)) >>> 3).toNat = f := by
    rw [BitVec.toNat_ushiftRight, BitVec.toNat_ofNat, Nat.mod_eq_of_lt (by omega),
      Nat.shiftRight_eq_div_pow]
    omega
  rcases varint_run (w := 32) (by decide) hb hlen tail with h | ⟨h, hl⟩
  · left
    unfold header
    rw [Walk.run_bind, h, hval]
    dsimp only
    rw [hlow, hhigh]
    rfl
  · right
    unfold header
    rw [Walk.run_bind, h]
    exact ⟨rfl, hl⟩

end Rest

theorem WireTypes.ofNat_bits {t : WireTypes} (h : t.known = true) : .ofNat t.bits.toNat = t := by
  cases t <;> first | rfl | cases h

theorem WireTypes.bits_lt {t : WireTypes} (h : t.known = true) : t.bits.toNat < 8 := by
  cases t <;> first | decide | cases h

/-- **Headers.** The header of field `f`, 1 ≤ f < 2^29, is a varint with the
value `8 * f + w`. -/
theorem encodeHeader_isVarint {f : Nat} {t : WireTypes} (hf : f < 2 ^ 29) (ht : t.known = true) :
    IsVarint (encodeHeader f t) ∧ (encodeHeader f t).length ≤ 10 ∧
      varintValue (encodeHeader f t) = 8 * f + t.bits.toNat := by
  have hw := WireTypes.bits_lt ht
  have hval : ((BitVec.ofNat 32 f <<< 3) ||| t.bits).toNat = 8 * f + t.bits.toNat := by
    rw [BitVec.toNat_or, BitVec.toNat_shiftLeft, BitVec.toNat_ofNat, Nat.shiftLeft_eq,
      Nat.mod_eq_of_lt (show f < 2 ^ 32 by omega), Nat.mod_eq_of_lt (show f * 2 ^ 3 < 2 ^ 32 by omega),
      Nat.mul_comm f, ← Nat.two_pow_add_eq_or_of_lt hw]
  obtain ⟨h1, h2, h3⟩ := serializeVarintCommon_isVarint _ (Nat.lt_trans (BitVec.isLt
    ((BitVec.ofNat 32 f <<< 3) ||| t.bits)) (by decide))
  exact ⟨h1, h3, h2.trans hval⟩

end QtProtobuf.Wire
