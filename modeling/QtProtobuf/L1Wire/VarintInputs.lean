import QtProtobuf.L1Wire.Varint

/-!
# Varints from any bytes (`protobuf/qprotobufserializer_p.h`)

The loop of `deserializeVarintCommon` goes on while the continuation bit is
set; it does not count its rounds. Round `i` shifts by `7 * i`, and from the
eleventh round on that is no shift of a 64-bit value.

* `varint_trace`: the reads of a run are those of the rounds `shiftAmounts` lists.
* `decodes_iff`: a varint is read, any other input is refused and every shift is
  defined, if and only if the input starts with fewer than ten continuation bytes.
-/
namespace QtProtobuf.Wire

open Lib

/-- The amounts `k` of `(byte & 0b01111111) << k`, round by round; a round whose
`++it` throws has shifted before. -/
def shiftLoop (b : Buffer) : Nat → Nat → Iter → List Nat
  | 0, _, _ => []
  | n + 1, k, it =>
    k ::
      if b.byte it.pos &&& 0x80 = 0 then []
      else
        match it.increment with
        | (it', none) => shiftLoop b n (k + 7) it'
        | (_, some _) => []

def shiftAmounts (b : Buffer) (it : Iter) : List Nat := shiftLoop b ((b.size - it.pos).toNat + 1) 0 it

/-- `*it` of one round, for the value and for the test of the loop. -/
def roundReads (b : Buffer) (p : Int) : List Event := [.deref b.size p, .deref b.size p]

theorem Dec.next_ok {it it' : Iter} (h : it.increment = (it', none)) :
    Dec.next.run it = ([], .ok ((), it')) := by
  simp [Dec.next, Traced.attempt, h]

theorem Dec.next_error {it it' : Iter} {e : Stop} (h : it.increment = (it', some e)) :
    Dec.next.run it = ([], .error e) := by
  simp [Dec.next, Traced.attempt, h]

theorem Iter.increment_pos {it it' : Iter} (h : it.increment = (it', none)) : it'.pos = it.pos + 1 := by
  unfold Iter.increment at h
  dsimp only at h
  split at h
  · cases h
  · cases h
    rfl

theorem varintLoop_trace (b : Buffer) (w n i : Nat) (value : BitVec w) (p : Int) (it : Iter)
    (hp : it.pos = p + i) :
    ((deserializeVarintLoop b w n (7 * i) value).run it).1 =
      (shiftLoop b n (7 * i) it).flatMap fun k => roundReads b (p + (k / 7 : Nat)) := by
  induction n generalizing i value it with
  | zero => rfl
  | succ n ih =>
    have hread : (Dec.deref b).run it = ([.deref b.size it.pos], .ok (b.byte it.pos, it)) := rfl
    rw [deserializeVarintLoop, Traced.run_bind_ok hread, Traced.run_bind_ok hread, shiftLoop,
      List.flatMap_cons, Nat.mul_div_cancel_left i (by decide), ← hp]
    by_cases hc : b.byte it.pos &&& 0x80 = 0
    · rw [if_pos hc, if_pos hc]
      -- the last `++it` reads nothing, whether it throws or not
      cases hi : it.increment with
      | mk it' e =>
        cases e with
        | none => rw [Traced.run_bind_ok (Dec.next_ok hi)]; rfl
        | some e => rw [Traced.run_bind_error (Dec.next_error hi)]; rfl
    · rw [if_neg hc, if_neg hc]
      cases hi : it.increment with
      | mk it' e =>
        cases e with
        | none =>
          have hpos : it'.pos = p + (i + 1 : Nat) := by
            have h1 := Iter.increment_pos hi
            omega
          have h := ih (i + 1) (value + group w (b.byte it.pos) (7 * i)) it' hpos
          rw [Nat.mul_succ] at h
          rw [Traced.run_bind_ok (Dec.next_ok hi)]
          simp [roundReads, h]
        | some e =>
          rw [Traced.run_bind_error (Dec.next_error hi)]
          simp [roundReads]

/-- **The rounds.** A run reads what the rounds read, and round `k / 7` shifts by `k`. -/
theorem varint_trace (b : Buffer) (w : Nat) (it : Iter) :
    ((deserializeVarintCommon b w).run it).1 =
      (shiftAmounts b it).flatMap fun k => roundReads b (it.pos + (k / 7 : Nat)) := by
  have h := varintLoop_trace b w ((b.size - it.pos).toNat + 1) 0 0 it.pos it (Int.add_zero _).symm
  unfold deserializeVarintCommon
  rw [Traced.run_bind_ok rfl]
  exact h

/-! ## The shifts, from the bytes left -/

/-- The number of continuation bytes at the front. -/
def continued : Bytes → Nat
  | [] => 0
  | c :: rest => if c &&& 0x80 = 0 then 0 else continued rest + 1

@[simp] theorem continued_nil : continued [] = 0 := rfl

theorem continued_last {c : UInt8} {rest : Bytes} (h : c.toNat < 128) : continued (c :: rest) = 0 :=
  if_pos ((and_high c).mpr h)

theorem continued_cons {c : UInt8} {rest : Bytes} (h : 128 ≤ c.toNat) :
    continued (c :: rest) = continued rest + 1 :=
  if_neg fun hz => by
    have hlt := (and_high c).mp hz
    omega

theorem At.increment {b : Buffer} {it : Iter} {c : UInt8} {rest : Bytes} (h : At b it (c :: rest))
    (hl : b.data.length < 2 ^ 31) : ∃ it', it.increment = (it', none) ∧ At b it' rest := by
  have hlen : (c :: rest).length ≤ b.data.length := by
    obtain ⟨done, hd⟩ := h.suffix
    simp [hd]
  have hfits : Fits (c :: rest).length 1 := .of_le (by simp) (by omega)
  have hstep : int32 (it.sizeLeft - 1) = int32 ((c :: rest).length - (1 : Nat)) := by
    rw [h.left, int32_sub_left]
    rfl
  exact ⟨_, DecSim.plusAssign_fits hstep hfits, h.moved (by simp)⟩

/-- One shift for each continuation byte, and one for the byte behind them. -/
theorem shiftLoop_eq {b : Buffer} (hl : b.data.length < 2 ^ 31) (n k : Nat) {it : Iter} {rest : Bytes}
    (h : At b it rest) (hn : rest.length < n) :
    shiftLoop b n k it = (List.range (continued rest + 1)).map fun i => k + 7 * i := by
  induction rest generalizing n k it with
  | nil =>
    obtain ⟨n, rfl⟩ : ∃ m, n = m + 1 := ⟨n - 1, by omega⟩
    simp [shiftLoop, h.byte_nil]
  | cons c rest ih =>
    obtain ⟨n, rfl⟩ : ∃ m, n = m + 1 := ⟨n - 1, by omega⟩
    obtain ⟨it', hi, h'⟩ := h.increment hl
    rw [shiftLoop, h.byte_cons, hi]
    by_cases hc : c &&& 0x80 = 0
    · simp [continued, hc]
    · have hrest := ih n (k + 7) h' (by simpa using hn)
      rw [if_neg hc, continued, if_neg hc, List.range_succ_eq_map, List.map_cons, List.map_map]
      refine congrArg _ (hrest.trans (List.map_congr_left fun i _ => ?_))
      simp only [Function.comp_apply]
      omega

theorem shiftAmounts_eq {b : Buffer} (hl : b.data.length < 2 ^ 31) {it : Iter} {rest : Bytes}
    (h : At b it rest) : shiftAmounts b it = (List.range (continued rest + 1)).map (7 * ·) := by
  unfold shiftAmounts
  rw [DecSim.rounds h, shiftLoop_eq hl _ 0 h (Nat.lt_succ_self _)]
  simp

theorem shifts_defined_iff {b : Buffer} (hl : b.data.length < 2 ^ 31) {it : Iter} {rest : Bytes}
    (h : At b it rest) : (∀ k ∈ shiftAmounts b it, k < 64) ↔ continued rest < 10 := by
  rw [shiftAmounts_eq hl h]
  constructor
  · intro hk
    have hlast := hk (7 * continued rest) (List.mem_map.mpr ⟨_, by simp, rfl⟩)
    omega
  · intro hc k hk
    obtain ⟨i, hi, rfl⟩ := List.mem_map.mp hk
    have hlt := List.mem_range.mp hi
    omega

/-! ## Which bytes are a varint -/

/-- A varint of at most ten bytes stands in front of `tail`. -/
def Starts (rest bs tail : Bytes) : Prop := rest = bs ++ tail ∧ IsVarint bs ∧ bs.length ≤ 10

/-- The bytes up to the first without the continuation bit, if there is one. -/
theorem varint_or_unterminated (rest : Bytes) :
    (∃ bs tail, rest = bs ++ tail ∧ IsVarint bs ∧ bs.length = continued rest + 1) ∨
      ∀ (w k : Nat) (value : BitVec w), Rest.varintLoop w k value rest = .fail .outOfRange := by
  induction rest with
  | nil => exact .inr fun _ _ _ => rfl
  | cons c rest ih =>
    by_cases hc : c.toNat < 128
    · exact .inl ⟨[c], rest, rfl, hc, by rw [continued_last hc]; rfl⟩
    · have hge : 128 ≤ c.toNat := Nat.le_of_not_lt hc
      rcases ih with ⟨bs, tail, rfl, hb, hlen⟩ | hfail
      · cases bs with
        | nil => exact absurd hb id
        | cons d bs => exact .inl ⟨c :: d :: bs, tail, rfl, ⟨hge, hb⟩, by simp [continued_cons hge, hlen]⟩
      · refine .inr fun w k value => ?_
        rw [Rest.varintLoop, if_neg fun hz => hc ((and_high c).mp hz), hfail]
        exact ite_self _

/-- What is asked of `deserializeVarintCommon` in front of `rest`. -/
structure Decodes (b : Buffer) (w : Nat) (it : Iter) (rest : Bytes) : Prop where
  reads : ∀ bs tail, Starts rest bs tail →
    ∃ it', Traced.Runs (deserializeVarintCommon b w) it (BitVec.ofNat w (varintValue bs)) it' ∧ At b it' tail
  throws : (¬ ∃ bs tail, Starts rest bs tail) → ((deserializeVarintCommon b w).run it).2 = .error .outOfRange
  shifts : ∀ k ∈ shiftAmounts b it, k < 64

theorem starts_runs {b : Buffer} (hl : b.data.length < 2 ^ 31) {w : Nat} (hw : w ≤ 64) {it : Iter}
    {rest bs tail : Bytes} (h : At b it rest) (hs : Starts rest bs tail) :
    ∃ it', Traced.Runs (deserializeVarintCommon b w) it (BitVec.ofNat w (varintValue bs)) it' ∧
      At b it' tail := by
  obtain ⟨rfl, hb, hlen⟩ := hs
  have hle : (bs ++ tail).length ≤ b.data.length := by
    obtain ⟨done, hd⟩ := h.suffix
    simp [hd]
  rcases Rest.varint_run hw hb hlen tail with hr | ⟨-, hbig⟩
  · obtain ⟨a, it', hrun, rfl, h'⟩ := Sim.runs (DecSim.varint w) h hr
    exact ⟨it', hrun, h'⟩
  · omega

theorem decodes_iff {b : Buffer} (hl : b.data.length < 2 ^ 31) {w : Nat} (hw : w ≤ 64) {it : Iter}
    {rest : Bytes} (h : At b it rest) : Decodes b w it rest ↔ continued rest < 10 := by
  constructor
  · exact fun hd => (shifts_defined_iff hl h).mp hd.shifts
  · intro hc
    refine ⟨fun bs tail => starts_runs hl hw h, fun hnone => ?_, (shifts_defined_iff hl h).mpr hc⟩
    rcases varint_or_unterminated rest with ⟨bs, tail, hrest, hb, hlen⟩ | hfail
    · exact absurd ⟨bs, tail, hrest, hb, by omega⟩ hnone
    · have hm := DecSim.varint w it rest h
      rw [show (Rest.varint w).run rest = .fail .outOfRange from hfail w 0 0] at hm
      exact hm.2.1

/-- **Varint decoding.** The two unsigned widths meet the whole of it in front
of fewer than ten continuation bytes, and there only; they invert the writer. -/
theorem varint_decoding_iff {w : Nat} (hw : w = 32 ∨ w = 64) :
    (∀ (b : Buffer) (it : Iter) (rest : Bytes), b.data.length < 2 ^ 31 → At b it rest →
        (Decodes b w it rest ↔ continued rest < 10)) ∧
      ∀ (v : BitVec w) (b : Buffer) (it : Iter) (tail : Bytes), b.data.length < 2 ^ 31 →
        At b it (serializeVarintCommon v.toNat ++ tail) →
        ∃ it', Traced.Runs (deserializeVarintCommon b w) it v it' ∧ At b it' tail := by
  have hw64 : w ≤ 64 := by omega
  refine ⟨fun b it rest hl h => decodes_iff hl hw64 h, fun v b it tail hl h => ?_⟩
  have hv : v.toNat < 2 ^ 64 := Nat.lt_of_lt_of_le v.isLt (Nat.pow_le_pow_right (by decide) hw64)
  obtain ⟨hb, hval, hlen⟩ := serializeVarintCommon_isVarint v.toNat hv
  obtain ⟨it', hrun, h'⟩ := starts_runs hl hw64 h ⟨rfl, hb, hlen⟩
  rw [hval, BitVec.ofNat_toNat, BitVec.setWidth_eq] at hrun
  exact ⟨it', hrun, h'⟩

/-- Ten continuation bytes and a last byte. -/
def overlong : Buffer :=
  ⟨[0x80, 0x80, 0x80, 0x80, 0x80, 0x80, 0x80, 0x80, 0x80, 0x80, 0x01], fun _ => 0⟩

/-- The overlong varint is read, as 64, in eleven rounds; the last one shifts by 70. -/
theorem not_decodes_overlong :
    (∃ it', Traced.Runs (deserializeVarintCommon overlong 64) (.ofBuffer overlong) 64 it') ∧
      ((deserializeVarintCommon overlong 64).run (.ofBuffer overlong)).1 =
        (List.range 11).flatMap (fun i : Nat => roundReads overlong i) ∧
      70 ∈ shiftAmounts overlong (.ofBuffer overlong) ∧
      ¬ Decodes overlong 64 (.ofBuffer overlong) overlong.data := by
  have hrun : (Rest.varint 64).run overlong.data = .ok 64 [] := by
    simp [overlong, Rest.varint, Rest.varintLoop, Fits, int32, group]
    rfl
  obtain ⟨v, it', hr, rfl, -⟩ := Sim.runs (DecSim.varint 64) (.ofBuffer overlong) hrun
  have hamounts : shiftAmounts overlong (.ofBuffer overlong) = (List.range 11).map (7 * ·) :=
    shiftAmounts_eq (by decide) (.ofBuffer overlong)
  have htrace : ((deserializeVarintCommon overlong 64).run (.ofBuffer overlong)).1 =
      (List.range 11).flatMap (fun i : Nat => roundReads overlong i) := by
    rw [varint_trace, hamounts, List.flatMap_map]
    rfl
  have hshift : 70 ∈ shiftAmounts overlong (.ofBuffer overlong) := by
    rw [hamounts]
    decide
  exact ⟨⟨it', hr⟩, htrace, hshift, fun hd => absurd (hd.shifts 70 hshift) (by decide)⟩

theorem varint_decoding_300 :
    Decodes ⟨[0xac, 0x02], fun _ => 0⟩ 32 (.ofBuffer ⟨[0xac, 0x02], fun _ => 0⟩) [0xac, 0x02] :=
  ((varint_decoding_iff (.inl rfl)).1 ⟨[0xac, 0x02], fun _ => 0⟩ _ [0xac, 0x02] (by decide)
    (.ofBuffer _)).mpr (by decide)

end QtProtobuf.Wire
