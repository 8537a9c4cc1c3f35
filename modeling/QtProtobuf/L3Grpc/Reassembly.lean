import QtProtobuf.Core.Bytes
import Mathlib.Algebra.Ring.Nat
import Mathlib.Data.List.Induction

/-!
# Reassembly of the messages of an HTTP/2 stream (`grpc/qgrpchttp2channel.cpp`)

The server's messages come framed with five bytes, a zero and the length,
big-endian, and cut into chunks at any place. The `readyRead` handler of
`QGrpcHttp2Channel::stream` keeps, while a message is incomplete, an entry with
the bytes so far (`container`) and the size of the frame it waits for
(`expectedSize`).

The entry is dropped when fewer than five bytes are left, and `expectedSize` is
read again only when more than five are. `CutsOk` says that no chunk ends one to
four bytes into a frame, and that one that ends exactly five bytes into a frame
begins there too, or the length is that of the frame before.

* `run_synced`: then every message is handed over once, in order, with the
  chunk that completes it.
-/
namespace QtProtobuf.Http2

def GrpcMessageSizeHeaderSize : Nat := 5

/-! ## Frames -/

/-- `qToBigEndian` of an `int`. -/
def toBigEndian (n : Nat) : Bytes :=
  [UInt8.ofNat (n / 2 ^ 24), UInt8.ofNat (n / 2 ^ 16), UInt8.ofNat (n / 2 ^ 8), UInt8.ofNat n]

/-- A message as the server sends it, with the size that `getExpectedDataSize`
reads (src/grpc/qgrpchttp2channel.cpp:196-198). -/
def frame (message : Bytes) : Bytes := 0 :: toBigEndian message.length ++ message

/-- What the server sends: its messages, framed. -/
def wire (msgs : List Bytes) : Bytes := (msgs.map frame).flatten

/-! ## The handler -/

/-- mirrors src/grpc/qgrpchttp2channel.cpp:103-106 -/
structure ExpectedData where
  expectedSize : Int
  container : Bytes
  deriving DecidableEq, Repr

/-- `entry`: what `activeStreamReplies` holds for the reply; `handled`: the
arguments of `grpcStream->handler` so far. -/
structure ReplyState where
  entry : Option ExpectedData
  handled : List Bytes
  deriving DecidableEq, Repr

def ReplyState.new : ReplyState := ⟨none, []⟩

/-- `qFromBigEndian` of four bytes, as an `int`. -/
def fromBigEndian (a b c d : UInt8) : Int :=
  int32 (a.toNat * 2 ^ 24 + b.toNat * 2 ^ 16 + c.toNat * 2 ^ 8 + d.toNat)

/-- mirrors src/grpc/qgrpchttp2channel.cpp:196-198; `mem`: the memory behind a
buffer. -/
def getExpectedDataSize (mem : Bytes → Nat → UInt8) (container : Bytes) : Int :=
  let b := byteAt (mem container) container
  int32 (fromBigEndian (b 1) (b 2) (b 3) (b 4) + GrpcMessageSizeHeaderSize)

/-- `QByteArray::mid`: a negative length takes everything. -/
def mid (c : Bytes) (pos : Nat) (len : Int) : Bytes :=
  if len < 0 then c.drop pos else (c.drop pos).take len.toNat

/-- `QByteArray::remove(0, len)`: a negative length removes nothing. -/
def removeFront (c : Bytes) (len : Int) : Bytes := c.drop len.toNat

/-- mirrors src/grpc/qgrpchttp2channel.cpp:305-314: the loop, with what it hands
to the stream. `none`: out of fuel. -/
def drain (mem : Bytes → Nat → UInt8) : Nat → ExpectedData → Option (ExpectedData × List Bytes)
  | 0, _ => none
  | fuel + 1, e =>
    if (e.container.length : Int) ≥ e.expectedSize then
      let msg := mid e.container GrpcMessageSizeHeaderSize (e.expectedSize - GrpcMessageSizeHeaderSize)
      let rest := removeFront e.container e.expectedSize
      let size :=
        if rest.length > GrpcMessageSizeHeaderSize then getExpectedDataSize mem rest
        else e.expectedSize
      (drain mem fuel ⟨size, rest⟩).map fun r => (r.1, msg :: r.2)
    else some (e, [])

/-- mirrors src/grpc/qgrpchttp2channel.cpp:301-318: the bytes are appended and
the entry is dropped when less than a header is left. -/
def proceed (mem : Bytes → Nat → UInt8) (fuel : Nat) (handled : List Bytes) (e : ExpectedData)
    (data : Bytes) : Option ReplyState :=
  (drain mem fuel { e with container := e.container ++ data }).map fun r =>
    { entry := if r.1.container.length < GrpcMessageSizeHeaderSize then none else some r.1
      handled := handled ++ r.2 }

/-- mirrors src/grpc/qgrpchttp2channel.cpp:281-319 (the `readyRead` handler,
while the reply is not finished); `data` is what `readAll` returns. -/
def readyRead (mem : Bytes → Nat → UInt8) (fuel : Nat) (s : ReplyState) (data : Bytes) :
    Option ReplyState :=
  match s.entry with
  | some e => proceed mem fuel s.handled e data
  | none =>
    let size := getExpectedDataSize mem data
    if size = 0 then some { s with handled := s.handled ++ [[]] }
    else proceed mem fuel s.handled ⟨size, []⟩ data

/-- The chunks of a stream, one after the other. -/
def run (mem : Bytes → Nat → UInt8) (fuel : Nat) (s : ReplyState) (chunks : List Bytes) :
    Option ReplyState := chunks.foldlM (readyRead mem fuel) s

theorem run_nil (mem : Bytes → Nat → UInt8) (fuel : Nat) (s : ReplyState) : run mem fuel s [] = some s := rfl

theorem run_cons (mem : Bytes → Nat → UInt8) (fuel : Nat) (s : ReplyState) (d : Bytes)
    (rest : List Bytes) : run mem fuel s (d :: rest) =
      (readyRead mem fuel s d).bind fun s' => run mem fuel s' rest := rfl

/-! ## Positions -/

/-- Where the `k`-th frame begins. -/
def start (lens : List Nat) (k : Nat) : Nat :=
  ((lens.take k).map (· + GrpcMessageSizeHeaderSize)).sum

/-- The condition on the lengths of the messages and of the chunks: no chunk
ends one to four bytes into a frame; one that ends five bytes into a frame
begins there, or the message is as long as the one before. -/
def CutsOk (lens cuts : List Nat) : Prop :=
  ∀ j < cuts.length, ∀ k < lens.length,
    ¬ (start lens k < (cuts.take (j + 1)).sum ∧ (cuts.take (j + 1)).sum < start lens k + 5) ∧
    ((cuts.take j).sum < start lens k → (cuts.take (j + 1)).sum = start lens k + 5 →
      lens.getD k 0 = lens.getD (k - 1) 0)

instance (lens cuts : List Nat) : Decidable (CutsOk lens cuts) :=
  inferInstanceAs (Decidable (∀ j < cuts.length, ∀ k < lens.length, _ ∧ _))

/-! ## Frames and positions -/

theorem frame_length (m : Bytes) : (frame m).length = m.length + GrpcMessageSizeHeaderSize := by
  unfold frame toBigEndian
  simp only [List.cons_append, List.nil_append, List.length_cons, GrpcMessageSizeHeaderSize]

theorem wire_cons (m : Bytes) (msgs : List Bytes) : wire (m :: msgs) = frame m ++ wire msgs := rfl

theorem wire_append (xs ys : List Bytes) : wire (xs ++ ys) = wire xs ++ wire ys := by
  unfold wire
  rw [List.map_append, List.flatten_append]

theorem wire_drop {msgs : List Bytes} {k : Nat} {m : Bytes} (h : msgs[k]? = some m) :
    wire (msgs.drop k) = frame m ++ wire (msgs.drop (k + 1)) := by
  obtain ⟨hlt, rfl⟩ := List.getElem?_eq_some_iff.mp h
  rw [List.drop_eq_getElem_cons hlt, wire_cons]

theorem start_zero (lens : List Nat) : start lens 0 = 0 := by
  unfold start
  rw [List.take_zero, List.map_nil, List.sum_nil]

theorem start_succ {msgs : List Bytes} {k : Nat} {m : Bytes} (h : msgs[k]? = some m) :
    start (msgs.map List.length) (k + 1) = start (msgs.map List.length) k + (frame m).length := by
  have hl : (msgs.map List.length)[k]? = some m.length := by
    rw [List.getElem?_map, h]; rfl
  obtain ⟨hlt, hk⟩ := List.getElem?_eq_some_iff.mp hl
  unfold start
  rw [List.take_add_one, hl, List.map_append, List.sum_append, frame_length]
  rfl

theorem start_mono (msgs : List Bytes) {i j : Nat} (h : i ≤ j) :
    start (msgs.map List.length) i ≤ start (msgs.map List.length) j := by
  induction j with
  | zero =>
    obtain rfl : i = 0 := Nat.le_zero.mp h
    exact Nat.le_refl _
  | succ j ih =>
    rcases Nat.lt_or_ge i (j + 1) with hlt | hge
    · have := ih (by omega)
      cases hj : msgs[j]? with
      | some m => rw [start_succ hj]; omega
      | none =>
        have hlen : (msgs.map List.length).length ≤ j := by
          rw [List.length_map]; exact List.getElem?_eq_none_iff.mp hj
        have he : start (msgs.map List.length) (j + 1) = start (msgs.map List.length) j := by
          unfold start
          rw [List.take_of_length_le hlen, List.take_of_length_le (by omega)]
        omega
    · obtain rfl : i = j + 1 := by omega
      exact Nat.le_refl _

theorem wire_length (msgs : List Bytes) :
    (wire msgs).length = start (msgs.map List.length) msgs.length := by
  induction msgs with
  | nil => rfl
  | cons m msgs ih =>
    rw [wire_cons, List.length_append, ih, frame_length]
    unfold start
    simp only [List.length_cons, List.map_cons, List.take_succ_cons, List.sum_cons]

/-! ## Reading the size of a frame -/

theorem fromBigEndian_toBigEndian {n : Nat} (h : n < 2 ^ 31) :
    fromBigEndian (UInt8.ofNat (n / 2 ^ 24)) (UInt8.ofNat (n / 2 ^ 16)) (UInt8.ofNat (n / 2 ^ 8))
      (UInt8.ofNat n) = n := by
  unfold fromBigEndian
  simp only [UInt8.toNat_ofNat']
  rw [int32_of_range] <;> omega

/-- With the header of a frame in the container the size is that of the frame. -/
theorem getExpectedDataSize_frame (mem : Bytes → Nat → UInt8) {c r m rest : Bytes}
    (h : c ++ r = frame m ++ rest) (hc : GrpcMessageSizeHeaderSize ≤ c.length)
    (hm : m.length ≤ 2 ^ 31 - 6) : getExpectedDataSize mem c = (frame m).length := by
  have hb : ∀ i, i < 5 → byteAt (mem c) c i = (frame m ++ rest).getD i 0 := by
    intro i hi
    have hic : i < c.length := Nat.lt_of_lt_of_le hi hc
    rw [byteAt_of_lt hic, ← h, List.getD_eq_getElem?_getD, List.getElem?_append_left hic,
      List.getElem?_eq_getElem hic, Option.getD_some]
  unfold getExpectedDataSize
  dsimp only
  rw [hb 1 (by decide), hb 2 (by decide), hb 3 (by decide), hb 4 (by decide)]
  have hfrom : fromBigEndian ((frame m ++ rest).getD 1 0) ((frame m ++ rest).getD 2 0)
      ((frame m ++ rest).getD 3 0) ((frame m ++ rest).getD 4 0) = m.length :=
    fromBigEndian_toBigEndian (by omega)
  rw [hfrom, frame_length, int32_of_range] <;> unfold GrpcMessageSizeHeaderSize <;> omega

theorem mid_frame {m c : Bytes} : mid (frame m ++ c) GrpcMessageSizeHeaderSize
    (((frame m).length : Int) - GrpcMessageSizeHeaderSize) = m := by
  have hl : ((frame m).length : Int) - GrpcMessageSizeHeaderSize = m.length := by
    rw [frame_length]; omega
  unfold mid
  rw [hl, if_neg (by omega)]
  exact List.take_left

theorem removeFront_frame {m c : Bytes} : removeFront (frame m ++ c) (frame m).length = c := by
  unfold removeFront
  exact List.drop_left

/-! ## In step with the frames -/

/-- The bytes `c` received and not handed over are a piece of frame `k`: nothing,
or at least its header, and then `size` is the size of the frame. -/
def Partial (msgs : List Bytes) (k : Nat) (c : Bytes) (size : Int) : Prop :=
  c = [] ∨ (GrpcMessageSizeHeaderSize ≤ c.length ∧
    ∃ m, msgs[k]? = some m ∧ size = (frame m).length ∧ c.length < (frame m).length)

/-- A container that has all of frame `k` begins with it. -/
theorem frame_prefix {msgs : List Bytes} {k : Nat} {c r m : Bytes} (hm : msgs[k]? = some m)
    (hc : c ++ r = wire (msgs.drop k)) (hfull : (frame m).length ≤ c.length) :
    ∃ c', c = frame m ++ c' ∧ c' ++ r = wire (msgs.drop (k + 1)) := by
  rw [wire_drop hm] at hc
  have hframe : frame m <+: c ++ r := ⟨_, hc.symm⟩
  have hpre : frame m <+: c := List.prefix_of_prefix_length_le hframe (List.prefix_append c r) hfull
  obtain ⟨c', rfl⟩ := hpre
  rw [List.append_assoc] at hc
  exact ⟨c', rfl, List.append_cancel_left hc⟩

theorem drain_stop (mem : Bytes → Nat → UInt8) {fuel : Nat} {e : ExpectedData} (hf : 0 < fuel)
    (h : (e.container.length : Int) < e.expectedSize) : drain mem fuel e = some (e, []) := by
  obtain ⟨fuel, rfl⟩ : ∃ n, fuel = n + 1 := ⟨fuel - 1, by omega⟩
  unfold drain
  rw [if_neg (by omega)]

/-- One round of the loop: a whole frame is in the container. -/
theorem drain_frame (mem : Bytes → Nat → UInt8) (fuel : Nat) (m c : Bytes) :
    drain mem (fuel + 1) ⟨(frame m).length, frame m ++ c⟩ =
      (drain mem fuel
        ⟨if c.length > GrpcMessageSizeHeaderSize then getExpectedDataSize mem c
          else (frame m).length, c⟩).map fun r => (r.1, m :: r.2) := by
  unfold drain
  dsimp only
  rw [if_pos (by rw [List.length_append]; omega), mid_frame, removeFront_frame]
  cases fuel <;> rfl

/-- The loop, entered with the size of frame `k`, hands over every message that
is complete and stops inside a frame, or between two, knowing its size. -/
theorem drain_synced (mem : Bytes → Nat → UInt8) {msgs : List Bytes} {r : Bytes} {p : Nat}
    (hlen : ∀ m ∈ msgs, m.length ≤ 2 ^ 31 - 6)
    (hcut : ∀ k < msgs.length,
      ¬ (start (msgs.map List.length) k < p ∧ p < start (msgs.map List.length) k + 5)) :
    ∀ (fuel k : Nat) (c m : Bytes), msgs[k]? = some m → c ++ r = wire (msgs.drop k) →
      start (msgs.map List.length) k + c.length = p → c.length < fuel →
      (∀ i m' m'', k ≤ i → msgs[i]? = some m' → msgs[i + 1]? = some m'' →
        p = start (msgs.map List.length) (i + 1) + 5 → m''.length = m'.length) →
      ∃ n c' size', drain mem fuel ⟨(frame m).length, c⟩ = some (⟨size', c'⟩, (msgs.drop k).take n) ∧
        c' ++ r = wire (msgs.drop (k + n)) ∧ start (msgs.map List.length) (k + n) + c'.length = p ∧
        k + n ≤ msgs.length ∧ Partial msgs (k + n) c' size' := by
  intro fuel
  induction fuel with
  | zero => intro k c m _ _ _ hf; omega
  | succ fuel ih =>
    intro k c m hm hc hp hf hsame
    have hk : k < msgs.length := (List.getElem?_eq_some_iff.mp hm).1
    by_cases hfull : c.length < (frame m).length
    · -- the frame is incomplete
      rw [drain_stop mem (Nat.succ_pos fuel) (by dsimp only; omega)]
      refine ⟨0, c, (frame m).length, by rw [List.take_zero], hc, hp, Nat.le_of_lt hk, ?_⟩
      have hk' := hcut k hk
      by_cases h0 : c.length = 0
      · exact .inl (List.eq_nil_of_length_eq_zero h0)
      · refine .inr ⟨?_, m, hm, rfl, hfull⟩
        unfold GrpcMessageSizeHeaderSize; omega
    · obtain ⟨c, rfl, hrest⟩ := frame_prefix hm hc (by omega)
      have hs := start_succ hm
      rw [List.length_append] at hp hf
      have hpos := frame_length m
      unfold GrpcMessageSizeHeaderSize at hpos
      have hp : start (msgs.map List.length) (k + 1) + c.length = p := by omega
      have htake : ∀ n, m :: (msgs.drop (k + 1)).take n = (msgs.drop k).take (n + 1) := by
        intro n
        obtain ⟨_, rfl⟩ := List.getElem?_eq_some_iff.mp hm
        rw [List.drop_eq_getElem_cons hk, List.take_succ_cons]
      rw [drain_frame]
      by_cases h0 : c = []
      · -- nothing is left
        subst h0
        rw [if_neg (by decide), drain_stop mem (by omega) (by dsimp only [List.length_nil]; omega)]
        refine ⟨1, [], (frame m).length, ?_, hrest, hp, hk, .inl rfl⟩
        rw [← htake, List.take_zero]; rfl
      · have hcpos : 0 < c.length := List.length_pos_iff.mpr h0
        obtain ⟨m', hm'⟩ : ∃ m', msgs[k + 1]? = some m' := by
          cases hnext : msgs[k + 1]? with
          | some m' => exact ⟨m', rfl⟩
          | none =>
            rw [List.drop_eq_nil_of_le (List.getElem?_eq_none_iff.mp hnext)] at hrest
            exact absurd (List.append_eq_nil_iff.mp hrest).1 h0
        have hk' := hcut (k + 1) (List.getElem?_eq_some_iff.mp hm').1
        have hsize : (if c.length > GrpcMessageSizeHeaderSize then getExpectedDataSize mem c
            else ((frame m).length : Int)) = (frame m').length := by
          split
          · rename_i h5
            rw [wire_drop hm'] at hrest
            exact getExpectedDataSize_frame mem hrest (Nat.le_of_lt h5)
              (hlen m' (List.mem_of_getElem? hm'))
          · -- the size is that of the frame just handed over
            rename_i h5
            unfold GrpcMessageSizeHeaderSize at h5
            have := hsame k m m' (Nat.le_refl k) hm hm' (by omega)
            rw [frame_length, frame_length, this]
        rw [hsize]
        obtain ⟨n, c', size', hd, hc', hp', hn, hpart⟩ :=
          ih (k + 1) c m' hm' hrest hp (by omega) fun i a b hi => hsame i a b (by omega)
        rw [hd]
        have hkn : k + 1 + n = k + (n + 1) := by omega
        rw [hkn] at hc' hp' hn hpart
        refine ⟨n + 1, c', size', ?_, hc', hp', hn, hpart⟩
        rw [← htake]; rfl

/-- Between two chunks: the messages up to `k` are handed over, and the entry
holds the piece of frame `k` received, or there is none. `p`: the bytes received;
`r`: the bytes still to come. -/
structure Synced (msgs : List Bytes) (p : Nat) (r : Bytes) (s : ReplyState) (k : Nat) (c : Bytes)
    (size : Int) : Prop where
  handled : s.handled = msgs.take k
  bytes : c ++ r = wire (msgs.drop k)
  position : start (msgs.map List.length) k + c.length = p
  bound : k ≤ msgs.length
  piece : Partial msgs k c size
  entry : s.entry = if c = [] then none else some ⟨size, c⟩

theorem Synced.new (msgs : List Bytes) : Synced msgs 0 (wire msgs) .new 0 [] 0 where
  handled := rfl
  bytes := rfl
  position := start_zero (msgs.map List.length)
  bound := Nat.zero_le _
  piece := .inl rfl
  entry := rfl

/-- One chunk, ending where `CutsOk` allows. -/
theorem readyRead_synced (mem : Bytes → Nat → UInt8) {msgs : List Bytes} {p : Nat} {d r : Bytes}
    {s : ReplyState} {k : Nat} {c : Bytes} {size : Int} {fuel : Nat}
    (hlen : ∀ m ∈ msgs, m.length ≤ 2 ^ 31 - 6) (h : Synced msgs p (d ++ r) s k c size)
    (hd : d ≠ []) (hf : c.length + d.length < fuel)
    (hcut : ∀ k < msgs.length,
      ¬ (start (msgs.map List.length) k < p + d.length ∧
        p + d.length < start (msgs.map List.length) k + 5))
    (hsame : ∀ i m m', msgs[i]? = some m → msgs[i + 1]? = some m' →
      p < start (msgs.map List.length) (i + 1) →
        p + d.length = start (msgs.map List.length) (i + 1) + 5 → m'.length = m.length) :
    ∃ s' k' c' size', readyRead mem fuel s d = some s' ∧
      Synced msgs (p + d.length) r s' k' c' size' := by
  have hcd : c ++ d ++ r = wire (msgs.drop k) := by rw [List.append_assoc]; exact h.bytes
  -- there is a frame `k`, since there are bytes left
  obtain ⟨m, hm⟩ : ∃ m, msgs[k]? = some m := by
    cases hk : msgs[k]? with
    | some m => exact ⟨m, rfl⟩
    | none =>
      rw [List.drop_eq_nil_of_le (List.getElem?_eq_none_iff.mp hk)] at hcd
      exact absurd (List.append_eq_nil_iff.mp (List.append_eq_nil_iff.mp hcd).1).2 hd
  have hdpos : 0 < d.length := List.length_pos_iff.mpr hd
  have hk := hcut k (List.getElem?_eq_some_iff.mp hm).1
  have hpos := h.position
  have hstart := start_succ hm
  have hfl := frame_length m
  unfold GrpcMessageSizeHeaderSize at hfl
  have hpk : p < start (msgs.map List.length) (k + 1) := by
    rcases h.piece with hc | ⟨-, m', hm', -, hlt⟩
    · rw [hc, List.length_nil] at hpos; omega
    · obtain rfl : m = m' := Option.some.inj (hm.symm.trans hm')
      omega
  -- the loop is entered with the size of frame `k`
  obtain ⟨n, c', size', hdrain, hc', hp', hn, hpart⟩ :=
    drain_synced mem hlen hcut fuel k (c ++ d) m hm hcd
      (by rw [List.length_append]; omega) (by rw [List.length_append]; omega)
      (fun i m' m'' hi hm' hm'' => hsame i m' m'' hm' hm''
        (Nat.lt_of_lt_of_le hpk (start_mono msgs (by omega))))
  have hread : readyRead mem fuel s d =
      (drain mem fuel ⟨(frame m).length, c ++ d⟩).map fun q =>
        { entry := if q.1.container.length < GrpcMessageSizeHeaderSize then none else some q.1
          handled := s.handled ++ q.2 } := by
    unfold readyRead
    rw [h.entry]
    rcases h.piece with rfl | ⟨h5, m', hm', hsize, -⟩
    · rw [List.length_nil] at hpos
      have h5 : GrpcMessageSizeHeaderSize ≤ d.length := by
        unfold GrpcMessageSizeHeaderSize; omega
      have hg : getExpectedDataSize mem d = (frame m).length := by
        rw [wire_drop hm] at hcd
        exact getExpectedDataSize_frame mem hcd h5 (hlen m (List.mem_of_getElem? hm))
      have hnz : ((frame m).length : Int) ≠ 0 := by
        rw [hfl]; exact Int.natCast_ne_zero.mpr (Nat.succ_ne_zero _)
      simp only [if_true, hg]
      rw [if_neg hnz]
      rfl
    · obtain rfl : m = m' := Option.some.inj (hm.symm.trans hm')
      have hne : c ≠ [] := fun hc => by rw [hc] at h5; exact absurd h5 (by decide)
      rw [if_neg hne, hsize]
      rfl
  rw [hread, hdrain]
  refine ⟨_, k + n, c', size', rfl, ?_, hc', ?_, hn, hpart, ?_⟩
  · dsimp only
    rw [h.handled, List.take_add]
  · omega
  · dsimp only
    rcases hpart with rfl | ⟨h5, -⟩
    · rfl
    · have hne : c' ≠ [] := fun hc => by rw [hc] at h5; exact absurd h5 (by decide)
      rw [if_neg (by omega), if_neg hne]

/-! ## All chunks -/

/-- What the stream should do: in the end exactly the messages are handed over,
in order, and after any number of chunks at least those complete by then. -/
def Reassembles (mem : Bytes → Nat → UInt8) (msgs chunks : List Bytes) : Prop :=
  ∃ fuel, (∃ s, run mem fuel .new chunks = some s ∧ s.handled = msgs) ∧
    ∀ done rest, chunks = done ++ rest → ∃ s, run mem fuel .new done = some s ∧
      ∀ k ≤ msgs.length, start (msgs.map List.length) k ≤ done.flatten.length →
        k ≤ s.handled.length

theorem run_append (mem : Bytes → Nat → UInt8) (fuel : Nat) (s : ReplyState) (xs ys : List Bytes) :
    run mem fuel s (xs ++ ys) = (run mem fuel s xs).bind fun s' => run mem fuel s' ys := by
  unfold run
  rw [List.foldlM_append]
  rfl

theorem run_singleton (mem : Bytes → Nat → UInt8) (fuel : Nat) (s : ReplyState) (d : Bytes) :
    run mem fuel s [d] = readyRead mem fuel s d := by
  unfold run
  simp only [List.foldlM_cons, List.foldlM_nil, bind_pure]

/-- The `j`-th position of the cuts is the number of bytes in the first chunks. -/
theorem sum_take_lengths (done rest : List Bytes) :
    (((done ++ rest).map List.length).take done.length).sum = done.flatten.length := by
  rw [List.map_append, List.take_left' (by rw [List.length_map]), List.length_flatten]

/-- Every run over a part of the chunks is in step. -/
theorem run_synced (mem : Bytes → Nat → UInt8) {msgs chunks : List Bytes}
    (hlen : ∀ m ∈ msgs, m.length ≤ 2 ^ 31 - 6) (hne : ∀ d ∈ chunks, d ≠ [])
    (hwire : chunks.flatten = wire msgs)
    (hcuts : CutsOk (msgs.map List.length) (chunks.map List.length)) (done rest : List Bytes)
    (hsplit : chunks = done ++ rest) :
    ∃ s k c size, run mem ((wire msgs).length + 1) .new done = some s ∧
      Synced msgs done.flatten.length rest.flatten s k c size := by
  induction done using List.reverseRecOn generalizing rest with
  | nil =>
    have hr : rest.flatten = wire msgs := by rw [← hwire, hsplit, List.nil_append]
    exact ⟨.new, 0, [], 0, rfl, hr ▸ Synced.new msgs⟩
  | append_singleton done d ih =>
    have hsplit' : chunks = done ++ d :: rest := by
      rw [hsplit, List.append_assoc, List.singleton_append]
    obtain ⟨s, k, c, size, hrun, hs⟩ := ih (d :: rest) hsplit'
    have hd : d ≠ [] := hne d (by rw [hsplit']; exact List.mem_append_right _ List.mem_cons_self)
    -- the positions before and after the chunk
    have htot : done.flatten.length + d.length ≤ (wire msgs).length := by
      rw [← hwire, hsplit', List.flatten_append, List.flatten_cons, List.length_append,
        List.length_append]
      omega
    have hj : done.length < (chunks.map List.length).length := by
      rw [hsplit', List.length_map, List.length_append, List.length_cons]; omega
    have ha : ((chunks.map List.length).take done.length).sum = done.flatten.length := by
      rw [hsplit']; exact sum_take_lengths done (d :: rest)
    have hp : ((chunks.map List.length).take (done.length + 1)).sum =
        done.flatten.length + d.length := by
      rw [hsplit]
      have := sum_take_lengths (done ++ [d]) rest
      rw [List.length_append, List.length_singleton, List.flatten_append, List.length_append] at this
      rw [this, List.flatten_singleton]
    have hcut : ∀ k < msgs.length,
        ¬ (start (msgs.map List.length) k < done.flatten.length + d.length ∧
          done.flatten.length + d.length < start (msgs.map List.length) k + 5) := by
      intro k hk
      rw [← hp]
      exact (hcuts done.length hj k (by rw [List.length_map]; exact hk)).1
    have hsame : ∀ i m m', msgs[i]? = some m → msgs[i + 1]? = some m' →
        done.flatten.length < start (msgs.map List.length) (i + 1) →
          done.flatten.length + d.length = start (msgs.map List.length) (i + 1) + 5 →
            m'.length = m.length := by
      intro i m m' hm hm' h1 h2
      obtain ⟨hi, -⟩ := List.getElem?_eq_some_iff.mp hm'
      have h := (hcuts done.length hj (i + 1) (by rw [List.length_map]; exact hi)).2
        (by rw [ha]; exact h1) (by rw [hp]; exact h2)
      rw [List.getD_eq_getElem?_getD, List.getD_eq_getElem?_getD, List.getElem?_map,
        Nat.add_sub_cancel, List.getElem?_map, hm, hm'] at h
      exact h
    have hc : c.length + d.length < (wire msgs).length + 1 := by
      have := hs.position
      omega
    obtain ⟨s', k', c', size', hread, hs'⟩ :=
      readyRead_synced mem hlen hs hd hc hcut hsame
    refine ⟨s', k', c', size', ?_, ?_⟩
    · rw [run_append, hrun, Option.bind_some, run_singleton, hread]
    · rw [List.flatten_append, List.flatten_singleton, List.length_append]
      exact hs'

/-- A stream in step has handed over every complete message. -/
theorem Synced.complete {msgs : List Bytes} {p : Nat} {r : Bytes} {s : ReplyState} {k : Nat}
    {c : Bytes} {size : Int} (h : Synced msgs p r s k c size) {i : Nat} (hi : i ≤ msgs.length)
    (hp : start (msgs.map List.length) i ≤ p) : i ≤ k := by
  by_contra hlt
  have hk : k < msgs.length := by omega
  have hm : msgs[k]? = some msgs[k] := List.getElem?_eq_getElem hk
  have hmono := start_mono msgs (show k + 1 ≤ i by omega)
  rw [start_succ hm] at hmono
  have hpos := h.position
  have hfl := frame_length msgs[k]
  unfold GrpcMessageSizeHeaderSize at hfl
  rcases h.piece with hc | ⟨-, m', hm', -, hc⟩
  · rw [hc, List.length_nil] at hpos; omega
  · obtain rfl : msgs[k] = m' := Option.some.inj (hm.symm.trans hm')
    omega

theorem reassembles_of_cutsOk (mem : Bytes → Nat → UInt8) {msgs chunks : List Bytes}
    (hlen : ∀ m ∈ msgs, m.length ≤ 2 ^ 31 - 6) (hne : ∀ d ∈ chunks, d ≠ [])
    (hwire : chunks.flatten = wire msgs)
    (hcuts : CutsOk (msgs.map List.length) (chunks.map List.length)) :
    Reassembles mem msgs chunks := by
  have hrun := run_synced mem hlen hne hwire hcuts
  refine ⟨(wire msgs).length + 1, ?_, ?_⟩
  · obtain ⟨s, k, c, size, hs, hsync⟩ := hrun chunks [] (List.append_nil _).symm
    refine ⟨s, hs, ?_⟩
    have hk := hsync.complete (Nat.le_refl msgs.length)
      (Nat.le_of_eq (by rw [hwire, wire_length]))
    rw [hsync.handled, List.take_of_length_le hk]
  · intro done rest hsplit
    obtain ⟨s, k, c, size, hs, hsync⟩ := hrun done rest hsplit
    refine ⟨s, hs, fun i hi hp => ?_⟩
    rw [hsync.handled, List.length_take, Nat.min_eq_left hsync.bound]
    exact hsync.complete hi hp

end QtProtobuf.Http2
