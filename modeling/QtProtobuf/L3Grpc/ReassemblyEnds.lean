import QtProtobuf.L3Grpc.Reassembly
import Mathlib.Logic.Relation

/-!
# The end of the reassembly loop (`grpc/qgrpchttp2channel.cpp`)

The loop of the `readyRead` handler takes `expectedSize` bytes off the container
in each round. The size is a length from the server and five, as an `int`, and it
is compared with the size of the container only: one that is not positive is
never too large, and takes nothing off.

* `loopEnds_iff`: a loop ends, and shortens the container in each round, if and
  only if its size, and every size it reads, is positive.
* `loops_end_iff`: the same for all the loops of a run, in the length prefixes
  the handler reads.
-/
namespace QtProtobuf.Http2

variable {mem : Bytes → Nat → UInt8}

/-! ## Rounds -/

/-- One round of the loop. -/
def round (mem : Bytes → Nat → UInt8) (e : ExpectedData) : ExpectedData :=
  let rest := removeFront e.container e.expectedSize
  ⟨if rest.length > GrpcMessageSizeHeaderSize then getExpectedDataSize mem rest else e.expectedSize, rest⟩

/-- The condition of the loop. -/
def Goes (e : ExpectedData) : Prop := (e.container.length : Int) ≥ e.expectedSize

instance (e : ExpectedData) : Decidable (Goes e) := inferInstanceAs (Decidable (_ ≥ _))

/-- A round that is taken. -/
def Taken (mem : Bytes → Nat → UInt8) (e e' : ExpectedData) : Prop := Goes e ∧ e' = round mem e

theorem drain_of_goes {fuel : Nat} {e : ExpectedData} (h : Goes e) :
    drain mem (fuel + 1) e = (drain mem fuel (round mem e)).map fun r =>
      (r.1, mid e.container GrpcMessageSizeHeaderSize (e.expectedSize - GrpcMessageSizeHeaderSize) :: r.2) :=
  if_pos h

theorem drain_of_not_goes {fuel : Nat} {e : ExpectedData} (h : ¬ Goes e) :
    drain mem (fuel + 1) e = some (e, []) := if_neg h

/-- The loop stops with a container that is smaller than the size. -/
theorem drain_stops {fuel : Nat} {e e' : ExpectedData} {ds : List Bytes}
    (h : drain mem fuel e = some (e', ds)) : ¬ Goes e' := by
  induction fuel generalizing e ds with
  | zero => cases h
  | succ fuel ih =>
    by_cases hg : Goes e
    · rw [drain_of_goes hg] at h
      obtain ⟨⟨e₁, ds₁⟩, hd, hr⟩ := Option.map_eq_some_iff.mp h
      cases hr
      exact ih hd
    · rw [drain_of_not_goes hg] at h
      cases h
      exact hg

/-- What is asked of the loop: it ends, and every round shortens the container. -/
structure LoopEnds (mem : Bytes → Nat → UInt8) (e : ExpectedData) : Prop where
  ends : ∃ fuel r, drain mem fuel e = some r
  shortens : ∀ e', Relation.ReflTransGen (Taken mem) e e' → Goes e' →
    (round mem e').container.length < e'.container.length

theorem LoopEnds.of_not_goes {e : ExpectedData} (h : ¬ Goes e) : LoopEnds mem e := by
  refine ⟨⟨1, _, drain_of_not_goes h⟩, fun e' he hg => ?_⟩
  rcases he.cases_head with rfl | ⟨_, ⟨hg', -⟩, -⟩
  · exact absurd hg h
  · exact absurd hg' h

/-- The loop after a round. -/
theorem loopEnds_round {e : ExpectedData} (h : Goes e) : LoopEnds mem e ↔
    (round mem e).container.length < e.container.length ∧ LoopEnds mem (round mem e) := by
  constructor
  · intro hl
    refine ⟨hl.shortens e .refl h, ?_, fun e' he => hl.shortens e' (.head ⟨h, rfl⟩ he)⟩
    obtain ⟨fuel, r, hr⟩ := hl.ends
    cases fuel with
    | zero => cases hr
    | succ fuel =>
      rw [drain_of_goes h] at hr
      obtain ⟨r', hr', -⟩ := Option.map_eq_some_iff.mp hr
      exact ⟨fuel, r', hr'⟩
  · rintro ⟨hlt, ⟨⟨fuel, r, hr⟩, hs⟩⟩
    refine ⟨⟨fuel + 1, _, by rw [drain_of_goes h, hr]; rfl⟩, fun e' he hg => ?_⟩
    rcases he.cases_head with rfl | ⟨e₁, ⟨-, rfl⟩, he'⟩
    · exact hlt
    · exact hs e' he' hg

/-! ## The lengths the loop reads -/

/-- The length in front of the container, as the server means it. -/
def lengthPrefix (mem : Bytes → Nat → UInt8) (container : Bytes) : Nat :=
  let b := byteAt (mem container) container
  (b 1).toNat * 2 ^ 24 + (b 2).toNat * 2 ^ 16 + (b 3).toNat * 2 ^ 8 + (b 4).toNat

/-- With the five bytes of the header it is a positive `int`. -/
def Harmless (n : Nat) : Prop := n < 2 ^ 31 - 5 ∨ 2 ^ 32 - 5 < n

instance (n : Nat) : Decidable (Harmless n) := inferInstanceAs (Decidable (_ ∨ _))

theorem lengthPrefix_lt (mem : Bytes → Nat → UInt8) (c : Bytes) : lengthPrefix mem c < 2 ^ 32 := by
  unfold lengthPrefix
  dsimp only
  have h := fun i => (byteAt (mem c) c i).toNat_lt
  have h1 := h 1
  have h2 := h 2
  have h3 := h 3
  have h4 := h 4
  omega

theorem expectedSize_eq (c : Bytes) : getExpectedDataSize mem c = int32 (lengthPrefix mem c + 5) := by
  unfold getExpectedDataSize fromBigEndian lengthPrefix int32 GrpcMessageSizeHeaderSize
  dsimp only
  rw [Int.bmod_add_bmod]
  norm_cast

theorem expectedSize_pos_iff (c : Bytes) : 0 < getExpectedDataSize mem c ↔ Harmless (lengthPrefix mem c) := by
  have hlt := lengthPrefix_lt mem c
  rw [expectedSize_eq]
  unfold Harmless
  by_cases h31 : lengthPrefix mem c + 5 < 2 ^ 31
  · rw [int32_of_range (by omega) (by omega)]
    omega
  · by_cases h32 : lengthPrefix mem c + 5 < 2 ^ 32
    · rw [int32_of_wrap (by omega) (by omega)]
      omega
    · have hwrap : int32 (lengthPrefix mem c + 5) = (lengthPrefix mem c + 5 : Int) - 2 ^ 32 := by
        unfold int32
        rw [Int.bmod_def]
        omega
      rw [hwrap]
      omega

/-- The length prefixes the loop reads while the sizes are positive. -/
def loopLengths (mem : Bytes → Nat → UInt8) (size : Int) (c : Bytes) : List Nat :=
  if 0 < size ∧ size ≤ c.length then
    let rest := c.drop size.toNat
    if rest.length > GrpcMessageSizeHeaderSize then
      lengthPrefix mem rest :: loopLengths mem (getExpectedDataSize mem rest) rest
    else loopLengths mem size rest
  else []
termination_by c.length
decreasing_by all_goals simp only [List.length_drop]; omega

/-- **The loop.** It ends and shortens the container in every round if and only if
its size and the sizes it reads are positive. -/
theorem loopEnds_iff (size : Int) (c : Bytes) : LoopEnds mem ⟨size, c⟩ ↔
    0 < size ∧ ∀ n ∈ loopLengths mem size c, Harmless n := by
  induction hn : c.length using Nat.strongRecOn generalizing size c with
  | ind n ih =>
  by_cases hpos : 0 < size
  · rw [loopLengths]
    by_cases hg : size ≤ c.length
    · rw [if_pos ⟨hpos, hg⟩, loopEnds_round (e := ⟨size, c⟩) hg]
      have hlt : (c.drop size.toNat).length < c.length := by
        rw [List.length_drop]
        omega
      by_cases hread : (c.drop size.toNat).length > GrpcMessageSizeHeaderSize
      · have hround : round mem ⟨size, c⟩ =
            ⟨getExpectedDataSize mem (c.drop size.toNat), c.drop size.toNat⟩ :=
          congrArg (ExpectedData.mk · _) (if_pos hread)
        rw [hround, if_pos hread, ih _ (hn ▸ hlt) _ _ rfl, List.forall_mem_cons, expectedSize_pos_iff]
        exact ⟨fun h => ⟨hpos, h.2⟩, fun h => ⟨hlt, h.2⟩⟩
      · have hround : round mem ⟨size, c⟩ = ⟨size, c.drop size.toNat⟩ :=
          congrArg (ExpectedData.mk · _) (if_neg hread)
        rw [hround, if_neg hread, ih _ (hn ▸ hlt) _ _ rfl]
        exact ⟨fun h => ⟨hpos, h.2.2⟩, fun h => ⟨hlt, hpos, h.2⟩⟩
    · rw [if_neg fun h => hg h.2]
      exact iff_of_true (.of_not_goes hg) ⟨hpos, fun n hn => absurd hn List.not_mem_nil⟩
  · refine iff_of_false (fun h => ?_) fun h => hpos h.1
    -- a round takes nothing off
    have hg : Goes ⟨size, c⟩ := by
      show (c.length : Int) ≥ size
      omega
    have hlt := h.shortens _ .refl hg
    simp [round, removeFront, Int.toNat_of_nonpos (Int.not_lt.mp hpos)] at hlt

/-! ## The handler -/

/-- What the handler enters the loop with; `none`: it returns before. -/
def entered (mem : Bytes → Nat → UInt8) (s : ReplyState) (data : Bytes) : Option ExpectedData :=
  match s.entry with
  | some e => some { e with container := e.container ++ data }
  | none =>
    if getExpectedDataSize mem data = 0 then none else some ⟨getExpectedDataSize mem data, data⟩

theorem readyRead_of_entered {fuel : Nat} {s : ReplyState} {data : Bytes} {e : ExpectedData}
    (h : entered mem s data = some e) : readyRead mem fuel s data = (drain mem fuel e).map fun r =>
      { entry := if r.1.container.length < GrpcMessageSizeHeaderSize then none else some r.1
        handled := s.handled ++ r.2 } := by
  obtain ⟨entry, handled⟩ := s
  cases entry with
  | some e₀ =>
    cases h
    rfl
  | none =>
    unfold entered at h
    dsimp only at h
    split at h
    · cases h
    · rename_i hne
      obtain rfl := Option.some.inj h
      unfold readyRead
      dsimp only
      rw [if_neg hne]
      unfold proceed
      rw [List.nil_append]

theorem readyRead_of_not_entered {fuel : Nat} {s : ReplyState} {data : Bytes}
    (h : entered mem s data = none) :
    s.entry = none ∧ readyRead mem fuel s data = some { s with handled := s.handled ++ [[]] } := by
  obtain ⟨entry, handled⟩ := s
  cases entry with
  | some e₀ => cases h
  | none =>
    unfold entered at h
    dsimp only at h
    split at h
    · rename_i hz
      refine ⟨rfl, ?_⟩
      unfold readyRead
      dsimp only
      rw [if_pos hz]
    · cases h

/-- The size an entry waits for is larger than what it holds. -/
def ReplyState.Waits (s : ReplyState) : Prop := ∀ e, s.entry = some e → 0 < e.expectedSize

theorem Waits.step {fuel : Nat} {s s' : ReplyState} {data : Bytes} (h : s.Waits)
    (hr : readyRead mem fuel s data = some s') : s'.Waits := by
  intro e' he'
  cases hent : entered mem s data with
  | none =>
    obtain ⟨-, hr'⟩ := readyRead_of_not_entered hent
    rw [hr'] at hr
    cases hr
    exact h e' he'
  | some e =>
    rw [readyRead_of_entered hent] at hr
    obtain ⟨⟨e₁, ds⟩, hd, rfl⟩ := Option.map_eq_some_iff.mp hr
    have hstop : ¬ (e₁.container.length : Int) ≥ e₁.expectedSize := drain_stops hd
    dsimp only at he'
    split at he'
    · cases he'
    · cases he'
      omega

/-- The length prefixes the handler reads from a chunk. -/
def handlerLengths (mem : Bytes → Nat → UInt8) (s : ReplyState) (data : Bytes) : List Nat :=
  match s.entry with
  | some e => loopLengths mem e.expectedSize (e.container ++ data)
  | none =>
    let size := getExpectedDataSize mem data
    if size = 0 then [] else lengthPrefix mem data :: loopLengths mem size data

theorem entered_ends_iff {s : ReplyState} (hs : s.Waits) (data : Bytes) :
    (∀ e, entered mem s data = some e → LoopEnds mem e) ↔ ∀ n ∈ handlerLengths mem s data, Harmless n := by
  obtain ⟨entry, handled⟩ := s
  cases entry with
  | some e =>
    have hpos : 0 < e.expectedSize := hs e rfl
    simp [entered, handlerLengths, loopEnds_iff, hpos]
  | none =>
    by_cases hz : getExpectedDataSize mem data = 0
    · simp [entered, handlerLengths, hz]
    · simp [entered, handlerLengths, hz, loopEnds_iff, expectedSize_pos_iff]

/-! ## Runs -/

/-- In the run over the chunks, as far as it gets, every loop ends and shortens
the container in every round. -/
def LoopsEnd (mem : Bytes → Nat → UInt8) : ReplyState → List Bytes → Prop
  | _, [] => True
  | s, data :: chunks => (∀ e, entered mem s data = some e → LoopEnds mem e) ∧
    ∀ fuel s', readyRead mem fuel s data = some s' → LoopsEnd mem s' chunks

/-- Every length prefix read in the run is harmless. -/
def LengthsOk (mem : Bytes → Nat → UInt8) : ReplyState → List Bytes → Prop
  | _, [] => True
  | s, data :: chunks => (∀ n ∈ handlerLengths mem s data, Harmless n) ∧
    ∀ fuel s', readyRead mem fuel s data = some s' → LengthsOk mem s' chunks

theorem loopsEnd_iff {s : ReplyState} (hs : s.Waits) (chunks : List Bytes) :
    LoopsEnd mem s chunks ↔ LengthsOk mem s chunks := by
  induction chunks generalizing s with
  | nil => exact Iff.rfl
  | cons data chunks ih =>
    refine and_congr (entered_ends_iff hs data) (forall_congr' fun fuel => forall_congr' fun s' => ?_)
    exact ⟨fun h hr => (ih (Waits.step hs hr)).mp (h hr), fun h hr => (ih (Waits.step hs hr)).mpr (h hr)⟩

theorem readyRead_mono {fuel fuel' : Nat} (hle : fuel ≤ fuel') {s s' : ReplyState} {data : Bytes}
    (h : readyRead mem fuel s data = some s') : readyRead mem fuel' s data = some s' := by
  have hdrain : ∀ fuel fuel' e r, fuel ≤ fuel' → drain mem fuel e = some r → drain mem fuel' e = some r := by
    intro fuel
    induction fuel with
    | zero => exact fun _ _ _ _ h => absurd h (by simp [drain])
    | succ fuel ih =>
      intro fuel' e r hle h
      obtain ⟨fuel', rfl⟩ : ∃ k, fuel' = k + 1 := ⟨fuel' - 1, by omega⟩
      by_cases hg : Goes e
      · rw [drain_of_goes hg] at h ⊢
        obtain ⟨r', hd, hr⟩ := Option.map_eq_some_iff.mp h
        rw [ih fuel' _ r' (by omega) hd]
        exact congrArg some hr
      · rw [drain_of_not_goes hg] at h ⊢
        exact h
  cases hent : entered mem s data with
  | none =>
    rw [(readyRead_of_not_entered hent).2] at h ⊢
    exact h
  | some e =>
    rw [readyRead_of_entered hent] at h ⊢
    obtain ⟨r, hd, hr⟩ := Option.map_eq_some_iff.mp h
    rw [hdrain fuel fuel' e r hle hd]
    exact congrArg some hr

theorem run_mono {fuel fuel' : Nat} (hle : fuel ≤ fuel') {chunks : List Bytes} {s s' : ReplyState}
    (h : run mem fuel s chunks = some s') : run mem fuel' s chunks = some s' := by
  induction chunks generalizing s with
  | nil =>
    rw [run_nil] at h ⊢
    exact h
  | cons data chunks ih =>
    rw [run_cons] at h ⊢
    obtain ⟨s₁, h₁, hr⟩ := Option.bind_eq_some_iff.mp h
    rw [readyRead_mono hle h₁, Option.bind_some]
    exact ih hr

/-- A run whose loops end comes to its end. -/
theorem LoopsEnd.run_ends {s : ReplyState} {chunks : List Bytes} (h : LoopsEnd mem s chunks) :
    ∃ fuel s', run mem fuel s chunks = some s' := by
  induction chunks generalizing s with
  | nil => exact ⟨0, s, run_nil mem 0 s⟩
  | cons data chunks ih =>
    obtain ⟨fuel, s₁, h₁⟩ : ∃ fuel s₁, readyRead mem fuel s data = some s₁ := by
      cases hent : entered mem s data with
      | none => exact ⟨0, _, (readyRead_of_not_entered hent).2⟩
      | some e =>
        obtain ⟨fuel, r, hd⟩ := (h.1 e hent).ends
        have hr := @readyRead_of_entered mem fuel s data e hent
        rw [hd] at hr
        exact ⟨fuel, _, hr⟩
    obtain ⟨fuel', s', hr⟩ := ih (h.2 fuel s₁ h₁)
    refine ⟨max fuel fuel', s', ?_⟩
    rw [run_cons, readyRead_mono (Nat.le_max_left ..) h₁, Option.bind_some]
    exact run_mono (Nat.le_max_right ..) hr

/-- **The loops of a run.** They end, round by round with a shorter container, if
and only if no length prefix the handler reads is one of 2^31 - 5, …, 2^32 - 5; then
the run comes to its end. -/
theorem loops_end_iff (mem : Bytes → Nat → UInt8) (chunks : List Bytes) :
    (LoopsEnd mem .new chunks ↔ LengthsOk mem .new chunks) ∧
      (LengthsOk mem .new chunks → ∃ fuel s', run mem fuel .new chunks = some s') := by
  have hnew : ReplyState.new.Waits := fun _ h => by cases h
  have hiff : LoopsEnd mem .new chunks ↔ LengthsOk mem .new chunks := loopsEnd_iff hnew chunks
  exact ⟨hiff, fun h => (hiff.mpr h).run_ends⟩

/-- A header with the length 2^31 - 5. -/
def hugeLength : Bytes := [0, 0x7f, 0xff, 0xff, 0xfb]

theorem hugeLength_size : getExpectedDataSize (fun _ _ => 0) hugeLength = -2147483648 := by
  have hprefix : lengthPrefix (fun _ _ => 0) hugeLength = 2147483643 := by decide
  rw [expectedSize_eq, hprefix, int32_of_wrap (by omega) (by omega)]
  omega

theorem hugeLength_entered :
    entered (fun _ _ => 0) .new hugeLength = some ⟨-2147483648, hugeLength⟩ := by
  unfold entered
  rw [hugeLength_size]
  exact if_neg (by decide)

/-- The size is -2^31: the loop hands over empty messages for ever. -/
theorem not_loops_end_huge :
    (∀ fuel, readyRead (fun _ _ => 0) fuel .new hugeLength = none) ∧
      ¬ LoopsEnd (fun _ _ => 0) .new [hugeLength] := by
  have hround : round (fun _ _ => 0) ⟨-2147483648, hugeLength⟩ = ⟨-2147483648, hugeLength⟩ := rfl
  have hnone : ∀ fuel, drain (fun _ _ => 0) fuel ⟨-2147483648, hugeLength⟩ = none := by
    intro fuel
    induction fuel with
    | zero => rfl
    | succ fuel ih =>
      rw [drain_of_goes (by decide), hround, ih]
      rfl
  refine ⟨fun fuel => ?_, fun h => ?_⟩
  · rw [readyRead_of_entered hugeLength_entered, hnone]
    rfl
  · exact absurd ((loopEnds_iff _ _).mp (h.1 _ hugeLength_entered)).1 (by decide)

end QtProtobuf.Http2
