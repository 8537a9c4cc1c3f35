import QtProtobuf.L3Grpc.Reassembly
import Mathlib.Data.List.SplitLengths

/-!
# Only these cuts

`CutsOk` is all there is: for every other way of cutting, messages of these
lengths get lost, split or late. Messages of zeros show it. In a stream of their
frames no misread header gives a size from 0 to 4 (`Tame`), so every message
handed over takes its own length and five bytes off the container (`drain_spec`),
and counting bytes does the rest: a stream that hands over everything drops
nothing, and is in step at every cut.

* `reassembly`: the handler reassembles every stream of the given lengths, cut
  in the given way, if and only if `CutsOk`.
* `reassembly_header`: a message right behind the header of the next one.
-/
namespace QtProtobuf.Http2

/-- Zeros behind every buffer. -/
def mem0 : Bytes → Nat → UInt8 := fun _ _ => 0

/-! ## Rounds of the loop -/

/-- A negative size never changes: nothing is removed. -/
theorem drain_neg (mem : Bytes → Nat → UInt8) (fuel : Nat) {c : Bytes} {size : Int} (h : size < 0)
    (hs : GrpcMessageSizeHeaderSize < c.length → getExpectedDataSize mem c = size) :
    drain mem fuel ⟨size, c⟩ = none := by
  induction fuel with
  | zero => rfl
  | succ fuel ih =>
    have hrest : removeFront c size = c := by
      unfold removeFront
      rw [Int.toNat_of_nonpos (by omega), List.drop_zero]
    have hsize : (if c.length > GrpcMessageSizeHeaderSize then getExpectedDataSize mem c else size) =
        size := by
      split
      · rename_i hc
        exact hs hc
      · rfl
    unfold drain
    dsimp only
    rw [if_pos (by omega), hrest, hsize, ih]
    rfl

/-- What the loop has handed over, and the size and container it stopped with. -/
theorem drain_cons {mem : Bytes → Nat → UInt8} {fuel : Nat} {size : Int} {c : Bytes}
    {e' : ExpectedData} {ds : List Bytes} (hs : 5 ≤ size)
    (h : drain mem fuel ⟨size, c⟩ = some (e', ds)) :
    ((c.length : Int) < size ∧ e' = ⟨size, c⟩ ∧ ds = []) ∨
    ∃ fuel' d ds' c', ds = d :: ds' ∧ (frame d).length = size ∧
      c.drop size.toNat = c' ∧ (c.length : Int) = size + c'.length ∧
      drain mem fuel' ⟨if c'.length > GrpcMessageSizeHeaderSize then getExpectedDataSize mem c'
        else size, c'⟩ = some (e', ds') := by
  cases fuel with
  | zero => cases h
  | succ fuel =>
    unfold drain at h
    dsimp only at h
    by_cases hc : (c.length : Int) ≥ size
    · rw [if_pos hc] at h
      obtain ⟨⟨e₁, ds'⟩, hd, he⟩ := Option.map_eq_some_iff.mp h
      cases he
      refine .inr ⟨fuel, _, ds', c.drop size.toNat, rfl, ?_, rfl, ?_, hd⟩
      · rw [frame_length]
        unfold mid GrpcMessageSizeHeaderSize
        rw [if_neg (by omega), List.length_take, List.length_drop]
        omega
      · rw [List.length_drop]; omega
    · rw [if_neg hc] at h
      cases h
      exact .inl ⟨by omega, rfl, rfl⟩

/-! ## Streams of zeros -/

/-- Of four bytes in a row, beyond the end zeros, the first is below 128 or one
of the others is zero. -/
def Tame (w : Bytes) : Prop :=
  ∀ q, (w.getD q 0).toNat < 128 ∨ w.getD (q + 1) 0 = 0 ∨ w.getD (q + 2) 0 = 0 ∨ w.getD (q + 3) 0 = 0

theorem byteAt_mem0 (c : Bytes) (i : Nat) : byteAt (mem0 c) c i = c.getD i 0 := by
  unfold byteAt
  split
  · rename_i h
    rw [List.getD_eq_getElem?_getD, List.getElem?_eq_none (by omega)]
    rfl
  · rfl

/-- A byte of a piece of the stream: a byte of the stream, or zero behind it. -/
theorem getD_piece {piece r w : Bytes} {q : Nat} (h : piece ++ r = w.drop q) (i : Nat) :
    piece.getD i 0 = w.getD (q + i) 0 ∨ piece.getD i 0 = 0 := by
  by_cases hi : i < piece.length
  · left
    have hw : w[q + i]? = piece[i]? := by
      rw [← List.getElem?_drop, ← h, List.getElem?_append_left hi]
    rw [List.getD_eq_getElem?_getD, List.getD_eq_getElem?_getD, hw]
  · right
    rw [List.getD_eq_getElem?_getD, List.getElem?_eq_none (by omega)]
    rfl

theorem fromBigEndian_pos {a b c d : UInt8} (h : a.toNat < 128) :
    0 ≤ fromBigEndian a b c d ∧ fromBigEndian a b c d < 2 ^ 31 := by
  have hb := b.toNat_lt
  have hc := c.toNat_lt
  have hd := d.toNat_lt
  unfold fromBigEndian
  rw [int32_of_range] <;> omega

theorem fromBigEndian_neg {a b c d : UInt8} (h : 128 ≤ a.toNat)
    (h0 : b.toNat = 0 ∨ c.toNat = 0 ∨ d.toNat = 0) :
    -2 ^ 31 ≤ fromBigEndian a b c d ∧ fromBigEndian a b c d < -5 := by
  have ha := a.toNat_lt
  have hb := b.toNat_lt
  have hc := c.toNat_lt
  have hd := d.toNat_lt
  unfold fromBigEndian
  rw [int32_of_wrap] <;> omega

/-- Every size read in a tame stream is that of a frame, or negative. -/
theorem getExpectedDataSize_tame {c r w : Bytes} {q : Nat} (hw : Tame w) (h : c ++ r = w.drop q) :
    5 ≤ getExpectedDataSize mem0 c ∨ getExpectedDataSize mem0 c < 0 := by
  unfold getExpectedDataSize
  simp only [byteAt_mem0]
  have h1 := getD_piece h 1
  by_cases ha : (c.getD 1 0).toNat < 128
  · obtain ⟨hlo, hhi⟩ := fromBigEndian_pos (b := c.getD 2 0) (c := c.getD 3 0) (d := c.getD 4 0) ha
    generalize fromBigEndian (c.getD 1 0) (c.getD 2 0) (c.getD 3 0) (c.getD 4 0) = v at hlo hhi ⊢
    unfold GrpcMessageSizeHeaderSize
    by_cases hv : v + 5 < 2 ^ 31
    · rw [int32_of_range (by omega) (by omega)]; omega
    · rw [int32_of_wrap (by omega) (by omega)]; omega
  · have hne : c.getD 1 0 ≠ 0 := fun h0 => ha (by rw [h0]; decide)
    have hw1 := hw (q + 1)
    rw [← h1.resolve_right hne] at hw1
    have hz : (c.getD 2 0).toNat = 0 ∨ (c.getD 3 0).toNat = 0 ∨ (c.getD 4 0).toNat = 0 := by
      have hzero : ∀ i, w.getD (q + i) 0 = 0 → (c.getD i 0).toNat = 0 := by
        intro i hi
        rcases getD_piece h i with he | he
        · rw [he, hi]; rfl
        · rw [he]; rfl
      rcases hw1.resolve_left ha with h2 | h3 | h4
      · exact .inl (hzero 2 h2)
      · exact .inr (.inl (hzero 3 h3))
      · exact .inr (.inr (hzero 4 h4))
    obtain ⟨hlo, hhi⟩ := fromBigEndian_neg (a := c.getD 1 0) (by omega) hz
    generalize fromBigEndian (c.getD 1 0) (c.getD 2 0) (c.getD 3 0) (c.getD 4 0) = v at hlo hhi ⊢
    unfold GrpcMessageSizeHeaderSize
    rw [int32_of_range (by omega) (by omega)]; omega

/-- Messages of zeros. -/
def zeros (lens : List Nat) : List Bytes := lens.map fun l => List.replicate l 0

theorem zeros_length (lens : List Nat) : (zeros lens).map List.length = lens := by
  unfold zeros
  rw [List.map_map]
  exact (List.map_congr_left fun l _ => List.length_replicate).trans (List.map_id lens)

/-- The byte behind a header of zeros is zero: payload, the next frame or the end. -/
theorem wire_zeros_five (l : Nat) (lens : List Nat) : (wire (zeros (l :: lens))).getD 5 0 = 0 := by
  cases l with
  | succ l => rfl
  | zero =>
    cases lens with
    | nil => rfl
    | cons l' lens => rfl

theorem tame_zeros {lens : List Nat} (h : ∀ l ∈ lens, l ≤ 2 ^ 31 - 6) : Tame (wire (zeros lens)) := by
  induction lens with
  | nil =>
    intro q
    rw [show wire (zeros []) = [] from rfl, List.getD_nil]
    exact .inl (by decide)
  | cons l lens ih =>
    intro q
    have h5 := wire_zeros_five l lens
    match q with
    | 0 => exact .inl (show (0 : UInt8).toNat < 128 by decide)
    | 1 =>
      have hl := h l List.mem_cons_self
      have hlen : (List.replicate l (0 : UInt8)).length = l := List.length_replicate
      refine .inl (show (UInt8.ofNat ((List.replicate l (0 : UInt8)).length / 2 ^ 24)).toNat < 128 from ?_)
      rw [hlen, UInt8.toNat_ofNat']
      omega
    | 2 => exact .inr (.inr (.inr h5))
    | 3 => exact .inr (.inr (.inl h5))
    | 4 => exact .inr (.inl h5)
    | n + 5 =>
      have htail : ∀ i, (wire (zeros (l :: lens))).getD (i + 5) 0 =
          (List.replicate l 0 ++ wire (zeros lens)).getD i 0 := fun i => rfl
      by_cases hn : n < l
      · left
        rw [htail, List.getD_eq_getElem?_getD,
          List.getElem?_append_left (by rw [List.length_replicate]; exact hn),
          List.getElem?_replicate, if_pos hn]
        decide
      · have hrest : ∀ i, (wire (zeros (l :: lens))).getD (n + i + 5) 0 =
            (wire (zeros lens)).getD (n - l + i) 0 := by
          intro i
          rw [htail, List.getD_eq_getElem?_getD, List.getElem?_append_right
            (by rw [List.length_replicate]; omega), List.length_replicate,
            show n + i - l = n - l + i by omega, List.getD_eq_getElem?_getD]
        have hih := ih (fun l' hl' => h l' (List.mem_cons_of_mem l hl')) (n - l)
        have e0 := hrest 0
        have e1 := hrest 1
        have e2 := hrest 2
        have e3 := hrest 3
        simp only [Nat.add_zero] at e0
        rw [show n + 5 + 1 = n + 1 + 5 by omega, show n + 5 + 2 = n + 2 + 5 by omega,
          show n + 5 + 3 = n + 3 + 5 by omega, e0, e1, e2, e3]
        exact hih

/-! ## Counting bytes -/

/-- The bytes of the container. -/
def ReplyState.held (s : ReplyState) : Nat :=
  match s.entry with
  | none => 0
  | some e => e.container.length

/-- Between two chunks of the stream `w`: `p` bytes have come and `r` are to
come; an entry has at least a header, waits for a frame, and is a piece of `w`. -/
structure Held (w : Bytes) (p : Nat) (r : Bytes) (s : ReplyState) : Prop where
  rest : r = w.drop p
  size : ∀ e, s.entry = some e → 5 ≤ e.expectedSize ∧ 5 ≤ e.container.length
  piece : ∀ e, s.entry = some e → ∃ q, e.container ++ r = w.drop q

/-- One round: the message takes its frame off the container, and the size is
read again unless at most a header is left. -/
theorem drain_next {w c r d : Bytes} {ds : List Bytes} {fuel q : Nat} {size : Int}
    {e' : ExpectedData} (hw : Tame w) (hs : 5 ≤ size) (hc : c ++ r = w.drop q)
    (h : drain mem0 fuel ⟨size, c⟩ = some (e', d :: ds)) :
    (frame d).length = size ∧ ∃ fuel' size' c' q', c.length = (frame d).length + c'.length ∧
      c' ++ r = w.drop q' ∧ 5 ≤ size' ∧ (c'.length ≤ 5 → size' = size) ∧
      drain mem0 fuel' ⟨size', c'⟩ = some (e', ds) := by
  rcases drain_cons hs h with ⟨-, -, hds⟩ | ⟨fuel', d', ds', c', hds, hd, hcut, hlen, hdr⟩
  · cases hds
  · cases hds
    have hc' : c' ++ r = w.drop (q + size.toNat) := by
      rw [← List.drop_drop, ← hc, ← hcut, List.drop_append_of_le_length (by omega)]
    refine ⟨hd, fuel', _, c', _, by omega, hc', ?_, fun h5 => if_neg (by
      unfold GrpcMessageSizeHeaderSize; omega), hdr⟩
    split
    · rename_i h5
      rw [if_pos h5] at hdr
      rcases getExpectedDataSize_tame hw hc' with hpos | hneg
      · exact hpos
      · rw [drain_neg mem0 fuel' hneg fun _ => rfl] at hdr; cases hdr
    · exact hs

/-- Every message handed over takes its frame off the container. -/
theorem drain_spec {w r : Bytes} (hw : Tame w) :
    ∀ (ds : List Bytes) (fuel q : Nat) (size : Int) (c : Bytes) (e' : ExpectedData), 5 ≤ size →
      c ++ r = w.drop q → drain mem0 fuel ⟨size, c⟩ = some (e', ds) →
      (wire ds).length + e'.container.length = c.length ∧ 5 ≤ e'.expectedSize ∧
        ∃ q', e'.container ++ r = w.drop q' := by
  intro ds
  induction ds with
  | nil =>
    intro fuel q size c e' hs hc h
    rcases drain_cons hs h with ⟨-, rfl, -⟩ | ⟨_, _, _, _, hds, _⟩
    · exact ⟨Nat.zero_add _, hs, q, hc⟩
    · cases hds
  | cons d ds ih =>
    intro fuel q size c e' hs hc h
    obtain ⟨-, fuel', size', c', q', hlen, hc', hs', -, hdr⟩ := drain_next hw hs hc h
    obtain ⟨h1, h2, h3⟩ := ih fuel' q' size' c' e' hs' hc' hdr
    refine ⟨?_, h2, h3⟩
    rw [wire_cons, List.length_append]
    omega

/-- The loop right after a message `d`. -/
theorem drain_at {w r d : Bytes} (hw : Tame w) {e' : ExpectedData} {ds₂ : List Bytes} :
    ∀ (ds₁ : List Bytes) (fuel q : Nat) (size : Int) (c : Bytes), 5 ≤ size → c ++ r = w.drop q →
      drain mem0 fuel ⟨size, c⟩ = some (e', ds₁ ++ d :: ds₂) →
      ∃ (fuel' : Nat) (size' : Int) (c' : Bytes) (q' : Nat),
        (wire (ds₁ ++ [d])).length + c'.length = c.length ∧
        c' ++ r = w.drop q' ∧ 5 ≤ size' ∧ (c'.length ≤ 5 → size' = (frame d).length) ∧
        drain mem0 fuel' ⟨size', c'⟩ = some (e', ds₂) := by
  intro ds₁
  induction ds₁ with
  | nil =>
    intro fuel q size c hs hc h
    obtain ⟨hd, fuel', size', c', q', hlen, hc', hs', hsame, hdr⟩ := drain_next hw hs hc h
    refine ⟨fuel', size', c', q', ?_, hc', hs', fun h5 => by rw [hd]; exact hsame h5, hdr⟩
    rw [List.nil_append, wire_cons, List.length_append]
    have : (wire []).length = 0 := rfl
    omega
  | cons d₁ ds₁ ih =>
    intro fuel q size c hs hc h
    obtain ⟨-, fuel', size', c', q', hlen, hc', hs', -, hdr⟩ := drain_next hw hs hc h
    obtain ⟨f, sz, c₁, q₁, h1, h2, h3, h4, h5⟩ := ih fuel' q' size' c' hs' hc' hdr
    refine ⟨f, sz, c₁, q₁, ?_, h2, h3, h4, h5⟩
    rw [List.cons_append, wire_cons, List.length_append]
    omega

theorem held_of_entry {s : ReplyState} {e : ExpectedData} (h : s.entry = some e) :
    s.held = e.container.length := by
  unfold ReplyState.held
  rw [h]

/-- What the handler does with one chunk of a tame stream. -/
structure Round (w r : Bytes) (fuel : Nat) (s s' : ReplyState) (d : Bytes) (size : Int) (c : Bytes)
    (q : Nat) (e' : ExpectedData) (ds : List Bytes) : Prop where
  five : 5 ≤ size
  piece : c ++ r = w.drop q
  length : c.length = s.held + d.length
  drained : drain mem0 fuel ⟨size, c⟩ = some (e', ds)
  handled : s'.handled = s.handled ++ ds
  entry : s'.entry = if e'.container.length < 5 then none else some e'
  stale : ∀ e, s.entry = some e → size = e.expectedSize

theorem readyRead_round {w r d : Bytes} {p fuel : Nat} {s s' : ReplyState} (hw : Tame w)
    (h : Held w p (d ++ r) s) (hr : readyRead mem0 fuel s d = some s') :
    ∃ size c q e' ds, Round w r fuel s s' d size c q e' ds := by
  unfold readyRead at hr
  cases he : s.entry with
  | some e =>
    rw [he] at hr
    obtain ⟨⟨e', ds⟩, hd, rfl⟩ := Option.map_eq_some_iff.mp hr
    obtain ⟨q, hq⟩ := h.piece e he
    refine ⟨e.expectedSize, e.container ++ d, q, e', ds, (h.size e he).1, ?_, ?_, hd, rfl, rfl, ?_⟩
    · rw [List.append_assoc]; exact hq
    · rw [List.length_append, held_of_entry he]
    · intro e₁ he₁
      rw [he] at he₁; cases he₁; rfl
  | none =>
    have hd : d ++ r = w.drop p := h.rest
    have hheld : s.held = 0 := by
      unfold ReplyState.held
      rw [he]
    rw [he] at hr
    dsimp only at hr
    rcases getExpectedDataSize_tame hw hd with hpos | hneg
    · rw [if_neg (by omega)] at hr
      obtain ⟨⟨e', ds⟩, hdr, rfl⟩ := Option.map_eq_some_iff.mp hr
      simp only [List.nil_append] at hdr
      refine ⟨getExpectedDataSize mem0 d, d, p, e', ds, hpos, hd, ?_, hdr, rfl, rfl, ?_⟩
      · rw [hheld, Nat.zero_add]
      · intro e₁ he₁
        rw [he] at he₁; cases he₁
    · -- a negative size: the loop does not end
      rw [if_neg (by omega)] at hr
      obtain ⟨_, hdr, _⟩ := Option.map_eq_some_iff.mp hr
      simp only [List.nil_append] at hdr
      rw [drain_neg mem0 fuel hneg fun _ => rfl] at hdr
      cases hdr

theorem Round.held {w r d : Bytes} {p fuel : Nat} {s s' : ReplyState} {size : Int} {c : Bytes}
    {q : Nat} {e' : ExpectedData} {ds : List Bytes} (hw : Tame w) (h : Held w p (d ++ r) s)
    (hr : Round w r fuel s s' d size c q e' ds) : Held w (p + d.length) r s' := by
  obtain ⟨-, hs', q', hq'⟩ := drain_spec hw ds fuel q size c e' hr.five hr.piece hr.drained
  refine ⟨?_, fun e he => ?_, fun e he => ?_⟩
  · rw [← List.drop_drop, ← h.rest, List.drop_left]
  · rw [hr.entry] at he
    split at he <;> cases he
    exact ⟨hs', by omega⟩
  · rw [hr.entry] at he
    split at he <;> cases he
    exact ⟨q', hq'⟩

/-- A round hands over or holds no more bytes than there were. -/
theorem Round.count {w r d : Bytes} {fuel : Nat} {s s' : ReplyState} {size : Int} {c : Bytes}
    {q : Nat} {e' : ExpectedData} {ds : List Bytes} (hw : Tame w)
    (hr : Round w r fuel s s' d size c q e' ds) :
    (wire s'.handled).length + s'.held ≤ (wire s.handled).length + s.held + d.length := by
  obtain ⟨hsum, -, -⟩ := drain_spec hw ds fuel q size c e' hr.five hr.piece hr.drained
  have hwire : (wire s'.handled).length = (wire s.handled).length + (wire ds).length := by
    rw [hr.handled, wire_append, List.length_append]
  have hheld : s'.held ≤ e'.container.length := by
    unfold ReplyState.held
    rw [hr.entry]
    split
    · exact Nat.zero_le _
    · rename_i e he
      split at he <;> cases he
      exact Nat.le_refl _
  have := hr.length
  omega

/-- What a run of a tame stream keeps: bytes are not made, messages stay handed
over. -/
theorem run_held {w : Bytes} (hw : Tame w) {fuel : Nat} :
    ∀ (chunks : List Bytes) (p : Nat) (r : Bytes) (s s' : ReplyState),
      Held w p (chunks.flatten ++ r) s → run mem0 fuel s chunks = some s' →
      Held w (p + chunks.flatten.length) r s' ∧ s.handled <+: s'.handled ∧
        (wire s'.handled).length + s'.held ≤
          (wire s.handled).length + s.held + chunks.flatten.length := by
  intro chunks
  induction chunks with
  | nil =>
    intro p r s s' h hrun
    cases hrun
    exact ⟨h, List.prefix_refl _, Nat.le_refl _⟩
  | cons d chunks ih =>
    intro p r s s' h hrun
    rw [List.flatten_cons, List.append_assoc] at h
    rw [run_cons] at hrun
    obtain ⟨s₁, h₁, h₂⟩ := Option.bind_eq_some_iff.mp hrun
    obtain ⟨size, c, q, e', ds, hround⟩ := readyRead_round hw h h₁
    have hcount := hround.count hw
    obtain ⟨hh, hpre, hsum⟩ := ih (p + d.length) r s₁ s' (hround.held hw h) h₂
    rw [List.flatten_cons, List.length_append, ← Nat.add_assoc]
    refine ⟨hh, ?_, by omega⟩
    exact (hround.handled ▸ List.prefix_append s.handled ds).trans hpre

/-- The next message handed over has the size the entry waits for. -/
theorem run_next {w : Bytes} (hw : Tame w) {fuel : Nat} :
    ∀ (chunks : List Bytes) (p : Nat) (s s' : ReplyState) (e : ExpectedData) (x : Bytes)
      (xs : List Bytes), Held w p chunks.flatten s → s.entry = some e →
      run mem0 fuel s chunks = some s' → s'.handled = s.handled ++ x :: xs →
      (frame x).length = e.expectedSize := by
  intro chunks
  induction chunks with
  | nil =>
    intro p s s' e x xs _ _ hrun hx
    cases hrun
    have := congrArg List.length hx
    rw [List.length_append, List.length_cons] at this
    omega
  | cons d chunks ih =>
    intro p s s' e x xs h he hrun hx
    rw [List.flatten_cons] at h
    rw [run_cons] at hrun
    obtain ⟨s₁, h₁, h₂⟩ := Option.bind_eq_some_iff.mp hrun
    obtain ⟨size, c, q, e', ds, hround⟩ := readyRead_round hw h h₁
    have hsize := hround.stale e he
    have hheld := hround.held hw h
    cases ds with
    | cons y ys =>
      -- the chunk completes it
      obtain ⟨hy, -⟩ := drain_next hw hround.five hround.piece hround.drained
      have hpre := (run_held hw chunks _ [] s₁ s' (by rw [List.append_nil]; exact hheld) h₂).2.1
      rw [hround.handled, hx] at hpre
      obtain ⟨zs, hzs⟩ := (List.prefix_append_right_inj s.handled).mp hpre
      cases hzs
      rw [hy, hsize]
    | nil =>
      have hlong : 5 ≤ c.length := by
        have h1 := (h.size e he).2
        have h2 := hround.length
        rw [held_of_entry he] at h2
        omega
      rcases drain_cons hround.five hround.drained with ⟨-, rfl, -⟩ | ⟨_, _, _, _, hds, _⟩
      · have hentry := hround.entry
        dsimp only at hentry
        rw [if_neg (by omega)] at hentry
        have hsame := hround.handled
        rw [List.append_nil] at hsame
        have := ih _ s₁ s' ⟨size, c⟩ x xs hheld hentry h₂ (by rw [hsame]; exact hx)
        rw [this, ← hsize]
      · cases hds

/-! ## The cuts of a stream that reassembles -/

theorem Held.new (w : Bytes) : Held w 0 w .new where
  rest := rfl
  size e he := by cases he
  piece e he := by cases he

theorem wire_take_length (msgs : List Bytes) {i : Nat} (hi : i ≤ msgs.length) :
    (wire (msgs.take i)).length = start (msgs.map List.length) i := by
  rw [wire_length, List.length_take, Nat.min_eq_left hi, List.map_take]
  unfold start
  rw [List.take_take, Nat.min_self]

/-- After the chunks `done` the stream is in step: `i` messages are handed over,
every byte received is accounted for, and the rest runs on from here. -/
structure InStep (msgs : List Bytes) (fuel : Nat) (done rest : List Bytes) (s : ReplyState)
    (i : Nat) : Prop where
  run_to : run mem0 fuel .new done = some s
  held : Held (wire msgs) done.flatten.length rest.flatten s
  handled : s.handled = msgs.take i
  bound : i ≤ msgs.length
  count : start (msgs.map List.length) i + s.held = done.flatten.length
  timely : ∀ k ≤ msgs.length, start (msgs.map List.length) k ≤ done.flatten.length → k ≤ i
  after : ∃ s', run mem0 fuel s rest = some s' ∧ s'.handled = msgs

/-- A stream that reassembles is in step at every cut: were bytes missing at
one, they would be missing at the end. -/
theorem inStep_of_reassembles {msgs chunks : List Bytes} (hw : Tame (wire msgs))
    (hwire : chunks.flatten = wire msgs) {fuel : Nat} {sf : ReplyState}
    (hf : run mem0 fuel .new chunks = some sf) (hsf : sf.handled = msgs) (done rest : List Bytes)
    (hsplit : chunks = done ++ rest)
    (ht : ∃ s, run mem0 fuel .new done = some s ∧
      ∀ k ≤ msgs.length, start (msgs.map List.length) k ≤ done.flatten.length →
        k ≤ s.handled.length) :
    ∃ s i, InStep msgs fuel done rest s i := by
  obtain ⟨s, hs, ht⟩ := ht
  have hbytes : done.flatten ++ rest.flatten = wire msgs := by
    rw [← hwire, hsplit, List.flatten_append]
  have h0 : Held (wire msgs) 0 (done.flatten ++ rest.flatten) .new := by
    rw [hbytes]; exact .new _
  obtain ⟨hheld, -, hle⟩ := run_held hw done 0 rest.flatten .new s h0 hs
  rw [Nat.zero_add] at hheld
  have hrest : run mem0 fuel s rest = some sf := by
    rw [hsplit, run_append, hs] at hf
    exact hf
  obtain ⟨-, hpre, hge⟩ := run_held hw rest done.flatten.length [] s sf
    (by rw [List.append_nil]; exact hheld) hrest
  rw [hsf] at hpre hge
  have htake : s.handled = msgs.take s.handled.length := List.prefix_iff_eq_take.mp hpre
  have hlen : s.handled.length ≤ msgs.length := hpre.length_le
  refine ⟨s, s.handled.length, hs, hheld, htake, hlen, ?_, ht, sf, hrest, hsf⟩
  have htot := congrArg List.length hbytes
  rw [List.length_append] at htot
  have hnew : (wire ReplyState.new.handled).length + ReplyState.new.held = 0 := rfl
  have hstart := wire_take_length msgs hlen
  rw [← htake] at hstart
  omega

/-- The entry holds nothing or at least a header. -/
theorem held_ge {w r : Bytes} {p : Nat} {s : ReplyState} (h : Held w p r s) :
    s.held = 0 ∨ 5 ≤ s.held := by
  unfold ReplyState.held
  cases he : s.entry with
  | none => exact .inl rfl
  | some e => exact .inr (h.size e he).2

/-- In step at the end of a chunk, `k` messages complete and frame `k` begun:
`k` are handed over. -/
theorem InStep.eq_of_begun {msgs : List Bytes} {fuel : Nat} {done rest : List Bytes} {s : ReplyState}
    {i k : Nat} (h : InStep msgs fuel done rest s i) (hk : k < msgs.length)
    (h1 : start (msgs.map List.length) k ≤ done.flatten.length)
    (h2 : done.flatten.length < start (msgs.map List.length) (k + 1)) : i = k := by
  have hle := h.timely k (Nat.le_of_lt hk) h1
  have hcount := h.count
  by_contra hne
  have hmono := start_mono msgs (show k + 1 ≤ i by omega)
  omega

/-- A chunk that ends five bytes into frame `k`, begun in an earlier one: the
loop reached the end with the size of the frame before. -/
theorem same_length_of_inStep {msgs : List Bytes} {fuel : Nat} {done rest : List Bytes} {d : Bytes}
    {s₁ s₂ : ReplyState} {i₁ i₂ k : Nat} {m m₀ : Bytes} (hw : Tame (wire msgs))
    (h₁ : InStep msgs fuel done (d :: rest) s₁ i₁) (h₂ : InStep msgs fuel (done ++ [d]) rest s₂ i₂)
    (hm₀ : msgs[k]? = some m₀) (hm : msgs[k + 1]? = some m)
    (hbegin : done.flatten.length < start (msgs.map List.length) (k + 1))
    (hend : (done ++ [d]).flatten.length = start (msgs.map List.length) (k + 1) + 5) :
    m.length = m₀.length := by
  obtain ⟨hk, -⟩ := List.getElem?_eq_some_iff.mp hm
  have hi₁ : i₁ ≤ k := by
    by_contra hgt
    have := start_mono msgs (show k + 1 ≤ i₁ by omega)
    have := h₁.count
    omega
  have hi₂ : k + 1 ≤ i₂ := h₂.timely (k + 1) (Nat.le_of_lt hk) (by omega)
  -- the round of the chunk
  have hread : readyRead mem0 fuel s₁ d = some s₂ := by
    have := h₂.run_to
    rw [run_append, h₁.run_to, Option.bind_some, run_singleton] at this
    exact this
  obtain ⟨size, c, q, e', ds, hround⟩ := readyRead_round hw h₁.held hread
  -- the messages it hands over, up to `m₀` and behind it
  have htake : msgs.take i₂ = msgs.take k ++ m₀ :: (msgs.take i₂).drop (k + 1) := by
    have hk₂ : (msgs.take i₂)[k]? = some m₀ := by
      rw [List.getElem?_take_of_lt (by omega)]; exact hm₀
    obtain ⟨hlt, he⟩ := List.getElem?_eq_some_iff.mp hk₂
    have hsplit := (List.take_append_drop k (msgs.take i₂)).symm
    rw [List.take_take, Nat.min_eq_left (by omega), List.drop_eq_getElem_cons hlt, he] at hsplit
    exact hsplit
  have htake₁ : msgs.take k = msgs.take i₁ ++ (msgs.take k).drop i₁ := by
    have hsplit := (List.take_append_drop i₁ (msgs.take k)).symm
    rw [List.take_take, Nat.min_eq_left hi₁] at hsplit
    exact hsplit
  have hds : ds = (msgs.take k).drop i₁ ++ m₀ :: (msgs.take i₂).drop (k + 1) := by
    have hh := hround.handled
    rw [h₂.handled, h₁.handled, htake, htake₁, List.append_assoc] at hh
    exact (List.append_cancel_left hh).symm
  generalize hds₂ : (msgs.take i₂).drop (k + 1) = ds₂ at hds
  subst hds
  obtain ⟨fuel', size', c', q', hlen, hpiece, hfive, hsame, hdrain⟩ :=
    drain_at hw _ fuel q size c hround.five hround.piece hround.drained
  -- five bytes are left behind `m₀`
  have hc' : c'.length = 5 := by
    have hwk : (wire (msgs.take (k + 1))).length = start (msgs.map List.length) (k + 1) :=
      wire_take_length msgs (Nat.le_of_lt hk)
    have hwi : (wire (msgs.take i₁)).length = start (msgs.map List.length) i₁ :=
      wire_take_length msgs h₁.bound
    have hcat : wire (msgs.take (k + 1)) =
        wire (msgs.take i₁) ++ wire ((msgs.take k).drop i₁ ++ [m₀]) := by
      rw [← wire_append, List.take_add_one, hm₀, Option.toList_some, ← List.append_assoc, ← htake₁]
    have hcat := congrArg List.length hcat
    rw [List.length_append] at hcat
    have h4 := hround.length
    have h5 := h₁.count
    have h6 : (done ++ [d]).flatten.length = done.flatten.length + d.length := by
      rw [List.flatten_append, List.flatten_singleton, List.length_append]
    omega
  have hsize : size' = (frame m₀).length := hsame (by omega)
  have hframe : ((frame m).length : Int) = size' := by
    cases ds₂ with
    | cons x xs =>
      -- the loop went on with that size
      obtain ⟨hx, -⟩ := drain_next hw hfive hpiece hdrain
      have hmx : msgs[k + 1]? = some x := by
        have h0 : ((msgs.take i₂).drop (k + 1))[0]? = some x := by rw [hds₂]; rfl
        rw [List.getElem?_drop, Nat.add_zero] at h0
        rw [List.getElem?_take_of_lt (by
          have := (List.getElem?_eq_some_iff.mp h0).1
          rw [List.length_take] at this; omega)] at h0
        exact h0
      obtain rfl : m = x := Option.some.inj (hm.symm.trans hmx)
      exact hx
    | nil =>
      -- the entry keeps it for the next message
      have hi : i₂ = k + 1 := by
        have h0 := congrArg List.length hds₂
        rw [List.length_drop, List.length_take, Nat.min_eq_left h₂.bound, List.length_nil] at h0
        omega
      rcases drain_cons hfive hdrain with ⟨-, rfl, -⟩ | ⟨_, _, _, _, hnil, _⟩
      · have hentry := hround.entry
        dsimp only at hentry
        rw [if_neg (by omega)] at hentry
        obtain ⟨s', hrun, hs'⟩ := h₂.after
        refine run_next hw rest _ s₂ s' ⟨size', c'⟩ m (msgs.drop (k + 2)) h₂.held hentry hrun ?_
        rw [hs', h₂.handled, hi]
        obtain ⟨_, rfl⟩ := List.getElem?_eq_some_iff.mp hm
        rw [← List.drop_eq_getElem_cons hk, List.take_append_drop]
      · cases hnil
  rw [hsize, frame_length, frame_length] at hframe
  omega

theorem cutsOk_of_inStep {msgs chunks : List Bytes} {fuel : Nat} (hw : Tame (wire msgs))
    (hstep : ∀ done rest, chunks = done ++ rest → ∃ s i, InStep msgs fuel done rest s i) :
    CutsOk (msgs.map List.length) (chunks.map List.length) := by
  intro j hj k hk
  rw [List.length_map] at hj hk
  -- the chunk and what is before and behind it
  obtain ⟨done, d, rest, hsplit, hdone⟩ : ∃ done d rest, chunks = done ++ d :: rest ∧
      done.length = j :=
    ⟨chunks.take j, chunks[j], chunks.drop (j + 1),
      by rw [← List.drop_eq_getElem_cons hj, List.take_append_drop],
      by rw [List.length_take]; omega⟩
  have hsplit' : chunks = (done ++ [d]) ++ rest := by
    rw [hsplit, List.append_assoc, List.singleton_append]
  have ha : ((chunks.map List.length).take j).sum = done.flatten.length := by
    rw [hsplit, ← hdone]; exact sum_take_lengths done (d :: rest)
  have hp : ((chunks.map List.length).take (j + 1)).sum = (done ++ [d]).flatten.length := by
    have := sum_take_lengths (done ++ [d]) rest
    rw [List.length_append, List.length_singleton, hdone] at this
    rw [hsplit', this]
  rw [ha, hp]
  obtain ⟨s₁, i₁, h₁⟩ := hstep done (d :: rest) hsplit
  obtain ⟨s₂, i₂, h₂⟩ := hstep (done ++ [d]) rest hsplit'
  have hmk : msgs[k]? = some msgs[k] := List.getElem?_eq_getElem hk
  refine ⟨fun ⟨hlo, hhi⟩ => ?_, fun hbegin hend => ?_⟩
  · -- the bytes held would be one to four
    have hnext := start_succ hmk
    have hfl := frame_length msgs[k]
    unfold GrpcMessageSizeHeaderSize at hfl
    have hi := h₂.eq_of_begun hk (by omega) (by omega)
    have hcount := h₂.count
    rw [hi] at hcount
    rcases held_ge h₂.held with h0 | h5 <;> omega
  · cases k with
    | zero => rfl
    | succ k =>
      have hm₀ : msgs[k]? = some msgs[k] := List.getElem?_eq_getElem (by omega)
      have := same_length_of_inStep hw h₁ h₂ hm₀ hmk hbegin hend
      rw [List.getD_eq_getElem?_getD, List.getD_eq_getElem?_getD, List.getElem?_map,
        Nat.add_sub_cancel, List.getElem?_map, hmk, hm₀]
      exact this

/-- **Reassembly.** For messages and chunks of given lengths: every stream of
such messages cut into such chunks is reassembled, whatever the messages hold and
whatever lies behind the buffers, if and only if `CutsOk`. -/
theorem reassembly (lens cuts : List Nat) (hlens : ∀ l ∈ lens, l ≤ 2 ^ 31 - 6)
    (hcuts : ∀ c ∈ cuts, 0 < c) (hsum : cuts.sum = start lens lens.length) :
    (∀ mem msgs chunks, msgs.map List.length = lens → chunks.map List.length = cuts →
      chunks.flatten = wire msgs → Reassembles mem msgs chunks) ↔ CutsOk lens cuts := by
  constructor
  · intro h
    have hw := tame_zeros hlens
    have hlen : (wire (zeros lens)).length = cuts.sum := by
      have hl : (zeros lens).length = lens.length := List.length_map ..
      rw [wire_length, zeros_length, hl, hsum]
    have hmap := List.map_splitLengths_length (wire (zeros lens)) cuts (Nat.le_of_eq hlen.symm)
    have hflat := List.flatten_splitLengths (wire (zeros lens)) cuts (Nat.le_of_eq hlen)
    obtain ⟨fuel, ⟨sf, hf, hsf⟩, ht⟩ := h mem0 (zeros lens) _ (zeros_length lens) hmap hflat
    have := cutsOk_of_inStep hw fun done rest hsplit =>
      inStep_of_reassembles hw hflat hf hsf done rest hsplit (ht done rest hsplit)
    rw [zeros_length, hmap] at this
    exact this
  · rintro h mem msgs chunks rfl rfl hwire
    refine reassembles_of_cutsOk mem (fun m hm => ?_) (fun d hd => ?_) hwire h
    · exact hlens m.length (List.mem_map_of_mem hm)
    · exact List.length_pos_iff.mp (hcuts d.length (List.mem_map_of_mem hd))

/-- Two messages of one byte, the second cut right behind its header. -/
theorem reassembly_sameLength :
    Reassembles mem0 [[7], [8]] [[0, 0, 0, 0, 1, 7, 0, 0, 0, 0, 1], [8]] :=
  (reassembly [1, 1] [11, 1] (by decide) (by decide) (by decide)).mpr (by decide) mem0 [[7], [8]]
    [[0, 0, 0, 0, 1, 7, 0, 0, 0, 0, 1], [8]] rfl rfl rfl

/-- The same cut with a longer first message: its size, 7, stays with the header
of the second, whose 6 bytes are never enough. -/
theorem reassembly_header :
    ¬ Reassembles mem0 [[1, 2], [3]] [[0, 0, 0, 0, 2, 1, 2, 0, 0, 0, 0, 1], [3]] := by
  intro ⟨fuel, ⟨s, hs, hh⟩, _⟩
  have hsize : getExpectedDataSize mem0 [0, 0, 0, 0, 2, 1, 2, 0, 0, 0, 0, 1] = 7 :=
    getExpectedDataSize_frame mem0 (m := [1, 2]) (r := []) rfl (by decide) (by decide)
  have hfirst : readyRead mem0 fuel .new [0, 0, 0, 0, 2, 1, 2, 0, 0, 0, 0, 1] =
      proceed mem0 fuel [] ⟨7, []⟩ [0, 0, 0, 0, 2, 1, 2, 0, 0, 0, 0, 1] := by
    unfold readyRead
    simp only [ReplyState.new, hsize]
    rfl
  rw [run_cons, hfirst] at hs
  obtain ⟨s₁, h₁, h₂⟩ := Option.bind_eq_some_iff.mp hs
  obtain _ | _ | fuel := fuel
  · cases h₁
  · cases h₁
  · have hrest : proceed mem0 (fuel + 2) [] ⟨7, []⟩ [0, 0, 0, 0, 2, 1, 2, 0, 0, 0, 0, 1] =
        some ⟨some ⟨7, [0, 0, 0, 0, 1]⟩, [[1, 2]]⟩ := rfl
    have hlast : run mem0 (fuel + 2) ⟨some ⟨7, [0, 0, 0, 0, 1]⟩, [[1, 2]]⟩ [[3]] =
        some ⟨some ⟨7, [0, 0, 0, 0, 1, 3]⟩, [[1, 2]]⟩ := rfl
    rw [hrest] at h₁
    cases h₁
    rw [hlast] at h₂
    cases h₂
    exact absurd hh (by decide)

end QtProtobuf.Http2
