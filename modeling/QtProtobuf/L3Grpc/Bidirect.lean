import QtProtobuf.L3Grpc.BaseCall

/-!
# `QGrpcChannelStreamBidirect` (`grpc/qgrpcchannel.cpp:177-349`)

The write side of a bidirectional stream: `m_sendQueue` holds the writes that
wait for their turn, `m_inProcess` says that the call is not established yet
or that a write is outstanding, `m_currentWriteReplay` is the reply object
`finishWrite` reports to.

`QGrpcChannelPrivate::stream` (:660-675) makes the calls: for each
`write()` / `writeDone()` of the user it sets the fresh `QGrpcWriteReplay` to
`InProcess` and calls `appendToSend` / `writeDone` with it. Reply objects are
named by the number of the call that handed them over.
-/
namespace QtProtobuf.Grpc

/-- mirrors src/grpc/qgrpcwritereplay.h:47-52 -/
inductive WriteStatus where
  | ok | failed | inProcess | notConnected
  deriving DecidableEq, Repr

/-- A `QGrpcWriteReplay`: its status, and how often it emitted `finished` and
`error`. -/
structure Replay where
  status : WriteStatus
  finished : Nat
  errors : Nat
  deriving DecidableEq, Repr

namespace Replay

def setStatus (r : Replay) (st : WriteStatus) : Replay := { r with status := st }
def emitFinished (r : Replay) : Replay := { r with finished := r.finished + 1 }
def emitError (r : Replay) : Replay := { r with errors := r.errors + 1 }

/-- `setStatus(Failed); emitError(); emitFinished();` -/
def fail (r : Replay) : Replay := ((r.setStatus .failed).emitError).emitFinished

/-- `setStatus(OK); emitFinished();` -/
def succeed (r : Replay) : Replay := (r.setStatus .ok).emitFinished

end Replay

/-- mirrors src/grpc/qgrpcchannel_p.h:123-127 -/
structure QGrpcChannelWriteData where
  data : Bytes
  replay : Nat
  done : Bool
  deriving DecidableEq, Repr

/-- The members of `QGrpcChannelStreamBidirect` (src/grpc/qgrpcchannel_p.h:
129-160); `writesPending`: the Write / WritesDone operations outstanding on
`m_reader`, each named by the entry it was issued for (`done`: WritesDone,
which sends no data); `replays`: the reply objects of all calls so far.
Recorded for the statements: `calls`, what the calls handed over; `issued`,
every Write / WritesDone in the order issued; `completed`, the owner and the
ok flag of every one completed. -/
structure Bidirect extends BaseCall where
  sendQueue : List QGrpcChannelWriteData
  inProcess : Bool
  currentWriteReplay : Option Nat
  writesPending : List QGrpcChannelWriteData
  replays : List Replay
  calls : List QGrpcChannelWriteData
  issued : List QGrpcChannelWriteData
  completed : List (Nat × Bool)
  deriving DecidableEq, Repr

namespace Bidirect

/-- mirrors src/grpc/qgrpcchannel.cpp:173-181 (constructor) -/
def new : Bidirect where
  toBaseCall := .new
  sendQueue := []
  inProcess := false
  currentWriteReplay := none
  writesPending := []
  replays := []
  calls := []
  issued := []
  completed := []

/-- `m_reader->Write(data, &m_finishWrite)` or `m_reader->WritesDone(..)`. -/
def issue (b : Bidirect) (op : QGrpcChannelWriteData) : Bidirect :=
  { b with writesPending := b.writesPending ++ [op], issued := b.issued ++ [op] }

def ref (b : Bidirect) : Bidirect := { b with toBaseCall := b.toBaseCall.ref }

def deref (b : Bidirect) : Bidirect := { b with toBaseCall := b.toBaseCall.deref }

/-- A member function of the reply object `r`. -/
def onReplay (b : Bidirect) (r : Nat) (f : Replay → Replay) : Bidirect :=
  { b with replays := b.replays.modify r f }

/-- The user's `write()` / `writeDone()`: a fresh reply object, set to
`InProcess` (src/grpc/qgrpcchannel.cpp:660-675). -/
def handOver (b : Bidirect) (data : Bytes) (done : Bool) : Bidirect :=
  { b with replays := b.replays ++ [⟨.inProcess, 0, 0⟩]
           calls := b.calls ++ [⟨data, b.replays.length, done⟩] }

/-- mirrors src/grpc/qgrpcchannel.cpp:191-203 -/
def startReader (b : Bidirect) : Bidirect :=
  { b with toBaseCall := b.toBaseCall.startReader, inProcess := true }

/-- mirrors src/grpc/qgrpcchannel.cpp:211-225; `replay` is the last one handed
over. -/
def writeDone (b : Bidirect) (replay : Nat) : Bidirect :=
  let b :=
    if b.inProcess then { b with sendQueue := b.sendQueue ++ [⟨[], replay, true⟩] }
    else ({ b with currentWriteReplay := some replay }.ref).issue ⟨[], replay, true⟩
  b.deref

/-- mirrors src/grpc/qgrpcchannel.cpp:227-240 -/
def appendToSend (b : Bidirect) (data : Bytes) (replay : Nat) : Bidirect :=
  if b.inProcess then { b with sendQueue := b.sendQueue ++ [⟨data, replay, false⟩] }
  else
    ({ b with inProcess := true, currentWriteReplay := some replay }.ref).issue ⟨data, replay, false⟩

/-- mirrors src/grpc/qgrpcchannel.cpp:334-349 -/
def dequeueWrite (b : Bidirect) : Bidirect :=
  match b.sendQueue with
  | [] => { b with inProcess := false }
  | d :: rest =>
    let b := { b with inProcess := true, sendQueue := rest }
    if d.done then b.ref.issue d
    else ({ b with currentWriteReplay := some d.replay }.ref).issue d

/-- The `FIRST_CALL` branch of `newData`. -/
def establish (b : Bidirect) : Bidirect :=
  let b := b.dequeueWrite
  { b with toBaseCall := { b.issueRead with readerState := .processing } }

/-- mirrors src/grpc/qgrpcchannel.cpp:242-273 -/
def newData (b : Bidirect) (ok : Bool) (dump : Status) (slices : Bytes) : Bidirect :=
  let b :=
    if !ok then { b with readerState := .ended }
    else match b.readerState with
      | .firstCall => b.establish
      | .processing => { b with toBaseCall := b.receive dump slices }
      | .ended => b
  b.deref

/-- The flush of `m_sendQueue` in `finishRead`. -/
def flush (b : Bidirect) : Bidirect :=
  { b.sendQueue.foldl (fun b d => b.onReplay d.replay Replay.fail) b with sendQueue := [] }

/-- mirrors src/grpc/qgrpcchannel.cpp:275-310 -/
def finishRead (b : Bidirect) : Bidirect :=
  let b := { b with toBaseCall := b.takeStatus }
  let b := match b.inProcess, b.currentWriteReplay with
    | true, some r => b.onReplay r Replay.fail
    | _, _ => b
  let b := b.flush
  { b with finished := true }.deref

/-- The report of `finishWrite`. With no reply installed
`m_currentWriteReplay->setStatus` dereferences null. -/
def reportWrite (b : Bidirect) (ok : Bool) : Bidirect :=
  match b.currentWriteReplay with
  | none => { b with undef := true }
  | some r => b.onReplay r (if ok then Replay.succeed else Replay.fail)

/-- mirrors src/grpc/qgrpcchannel.cpp:312-332 -/
def finishWrite (b : Bidirect) (ok : Bool) : Bidirect :=
  let b := (b.reportWrite ok).deref
  if b.deleted then b else b.dequeueWrite

/-- gRPC completes the `i`-th outstanding Write / WritesDone. -/
def completeWrite (b : Bidirect) (i : Nat) (op : QGrpcChannelWriteData) (ok : Bool) : Bidirect :=
  { b with writesPending := b.writesPending.eraseIdx i, completed := b.completed ++ [(op.replay, ok)] }

/-- Every operation issued whose completion has not been processed. -/
def outstanding (b : Bidirect) : Nat := b.toBaseCall.pendingOps + b.writesPending.length

end Bidirect

/-- What happens to a bidirectional call. -/
inductive Ev where
  | startReader
  | appendToSend (data : Bytes)
  | writeDone
  | newData (ok : Bool) (dump : Status) (slices : Bytes)
  | finishCompletes (st : Status)
  | finishRead (ok : Bool)
  | finishWrite (i : Nat) (ok : Bool)
  | sharedPtrReleased
  deriving DecidableEq, Repr

/-- An event that reaches a deleted object. -/
def Bidirect.missed (b : Bidirect) : Ev → Bidirect
  | .newData _ _ _ => { b with readPending := false, undef := true }
  | .finishRead _ => { b with finishPending := false, undef := true }
  | .finishWrite i _ => { b with writesPending := b.writesPending.eraseIdx i, undef := true }
  | .sharedPtrReleased => { b with released := true, undef := true }
  | _ => { b with undef := true }

/-- One event. `none`: it cannot happen (`callStep`). `appendToSend` and
`writeDone` are called by two lambdas that hold a `shared_ptr`, so not after its
release, and that are disconnected when `finished` is emitted (:683-695), so not
after that. -/
def bidirectStep (b : Bidirect) : Ev → Option Bidirect
  | .startReader => if b.started || b.released then none else some b.startReader
  | .appendToSend data =>
    if !b.started || b.released || b.finished then none
    else if b.deleted then some (b.missed (.appendToSend data))
    else some ((b.handOver data false).appendToSend data b.replays.length)
  | .writeDone =>
    if !b.started || b.released || b.finished then none
    else if b.deleted then some (b.missed .writeDone)
    else some ((b.handOver [] true).writeDone b.replays.length)
  | .newData ok dump slices =>
    if !b.readPending then none
    else if b.deleted then some (b.missed (.newData ok dump slices))
    else some ({ b with readPending := false }.newData ok dump slices)
  | .finishCompletes st =>
    if b.finishPending && b.rpcStatus.isNone then
      some { b with toBaseCall := b.finishCompletes st }
    else none
  | .finishRead ok =>
    if !(b.finishPending && b.rpcStatus.isSome) then none
    else if b.deleted then some (b.missed (.finishRead ok))
    else some { b with finishPending := false }.finishRead
  | .finishWrite i ok =>
    match b.writesPending[i]? with
    | none => none
    | some op =>
      if b.deleted then some (b.missed (.finishWrite i ok))
      else some ((b.completeWrite i op ok).finishWrite ok)
  | .sharedPtrReleased =>
    if b.released then none
    else if b.deleted then some (b.missed .sharedPtrReleased)
    else some { b with toBaseCall := b.sharedPtrReleased }

/-- Runs of `QGrpcChannelStreamBidirect`. -/
def bidirectLts : Lib.LTS Bidirect Ev := .ofFn .new bidirectStep

/-- The state after a list of events, from a new object. -/
def bidirectRun (es : List Ev) : Option Bidirect := Lib.exec bidirectStep .new es

/-! ## What the methods leave alone -/

namespace Bidirect

/-- `dequeueWrite` touches no reply object and no recorded call, and of the
shared part only the count. -/
theorem dequeueWrite_eq (b : Bidirect) :
    ∃ n q p r w i, b.dequeueWrite =
      { b with refCount := n, sendQueue := q, inProcess := p, currentWriteReplay := r
               writesPending := w, issued := i } := by
  unfold dequeueWrite
  split
  · exact ⟨_, _, _, _, _, _, rfl⟩
  · dsimp only
    split <;> exact ⟨_, _, _, _, _, _, rfl⟩

theorem dequeueWrite_base (b : Bidirect) :
    ∃ n, b.dequeueWrite.toBaseCall = { b.toBaseCall with refCount := n } := by
  obtain ⟨n, q, p, r, w, i, h⟩ := b.dequeueWrite_eq
  exact ⟨n, by rw [h]⟩

theorem appendToSend_base (b : Bidirect) (data : Bytes) (r : Nat) :
    ∃ n, (b.appendToSend data r).toBaseCall = { b.toBaseCall with refCount := n } := by
  unfold appendToSend
  split
  · exact ⟨b.refCount, rfl⟩
  · exact ⟨b.refCount + 1, rfl⟩

theorem foldReplay_eq (q : List QGrpcChannelWriteData) (b : Bidirect) :
    ∃ rs, rs.length = b.replays.length ∧
      q.foldl (fun b d => b.onReplay d.replay Replay.fail) b = { b with replays := rs } := by
  induction q generalizing b with
  | nil => exact ⟨b.replays, rfl, rfl⟩
  | cons d q ih =>
    obtain ⟨rs, hlen, hq⟩ := ih (b.onReplay d.replay Replay.fail)
    exact ⟨rs, hlen.trans (List.length_modify ..), hq⟩

theorem flush_eq (b : Bidirect) :
    ∃ rs, rs.length = b.replays.length ∧ b.flush = { b with sendQueue := [], replays := rs } := by
  obtain ⟨rs, hlen, hq⟩ := foldReplay_eq b.sendQueue b
  refine ⟨rs, hlen, ?_⟩
  unfold flush
  rw [hq]

theorem writeDone_base (b : Bidirect) (r : Nat) :
    ∃ n d, (b.writeDone r).toBaseCall = { b.toBaseCall with refCount := n, deleted := d } := by
  unfold writeDone
  split <;> exact ⟨_, _, rfl⟩

theorem newData_firstCall {b : Bidirect} (h : b.readerState = .firstCall) (dump : Status)
    (slices : Bytes) : b.newData true dump slices = b.establish.deref := by
  unfold newData
  rw [h]; rfl

theorem newData_processing {b : Bidirect} (h : b.readerState = .processing) (dump : Status)
    (slices : Bytes) : b.newData true dump slices =
      ({ b with toBaseCall := b.receive dump slices } : Bidirect).deref := by
  unfold newData
  rw [h]; rfl

theorem newData_ended {b : Bidirect} (h : b.readerState = .ended) (dump : Status)
    (slices : Bytes) : b.newData true dump slices = b.deref := by
  unfold newData
  rw [h]; rfl

theorem establish_base (b : Bidirect) :
    ∃ n, b.establish.toBaseCall =
      { b.toBaseCall.issueRead with readerState := .processing, refCount := n } := by
  obtain ⟨n, hn⟩ := b.dequeueWrite_base
  refine ⟨n + 1, ?_⟩
  simp only [establish, BaseCall.issueRead, BaseCall.ref, hn]

/-- To the read side `newData` does what `QGrpcChannelStream::newData` does. -/
theorem newData_base (b : Bidirect) (ok : Bool) (dump : Status) (slices : Bytes) :
    ∃ n d, (b.newData ok dump slices).toBaseCall =
      { Stream.newData b.toBaseCall ok dump slices with refCount := n, deleted := d } := by
  cases ok with
  | false => exact ⟨_, _, rfl⟩
  | true =>
    cases h : b.readerState with
    | firstCall =>
      obtain ⟨n, hn⟩ := b.establish_base
      rw [newData_firstCall h, Stream.newData_firstCall h]
      simp only [deref, hn]
      exact ⟨_, _, rfl⟩
    | processing =>
      rw [newData_processing h, Stream.newData_processing h]
      exact ⟨_, _, rfl⟩
    | ended =>
      rw [newData_ended h, Stream.newData_ended h]
      exact ⟨_, _, rfl⟩

/-- `finishRead` changes the reply objects, the queue and the shared part. -/
theorem finishRead_eq (b : Bidirect) :
    ∃ rs, rs.length = b.replays.length ∧ b.finishRead =
      { b with toBaseCall := b.toBaseCall.finishRead, sendQueue := [], replays := rs } := by
  unfold finishRead
  dsimp only
  split
  · obtain ⟨rs, hlen, hf⟩ :=
      (({ b with toBaseCall := b.takeStatus } : Bidirect).onReplay _ Replay.fail).flush_eq
    rw [hf]
    exact ⟨rs, hlen.trans (List.length_modify ..), rfl⟩
  · obtain ⟨rs, hlen, hf⟩ := ({ b with toBaseCall := b.takeStatus } : Bidirect).flush_eq
    rw [hf]
    exact ⟨rs, hlen, rfl⟩

theorem finishRead_base (b : Bidirect) : b.finishRead.toBaseCall = b.toBaseCall.finishRead := by
  obtain ⟨rs, -, h⟩ := b.finishRead_eq
  rw [h]

theorem reportWrite_eq (b : Bidirect) (ok : Bool) :
    ∃ u rs, rs.length = b.replays.length ∧
      b.reportWrite ok = { b with undef := u, replays := rs } := by
  unfold reportWrite
  split
  · exact ⟨true, b.replays, rfl, rfl⟩
  · exact ⟨b.undef, _, List.length_modify .., rfl⟩

theorem reportWrite_base (b : Bidirect) (ok : Bool) :
    ∃ u, (b.reportWrite ok).toBaseCall = { b.toBaseCall with undef := u } := by
  obtain ⟨u, rs, -, h⟩ := b.reportWrite_eq ok
  exact ⟨u, by rw [h]⟩

theorem finishWrite_base (b : Bidirect) (ok : Bool) :
    ∃ n d u, (b.finishWrite ok).toBaseCall =
      { b.toBaseCall with refCount := n, deleted := d, undef := u } := by
  obtain ⟨u, hu⟩ := b.reportWrite_base ok
  unfold finishWrite
  dsimp only
  split
  · simp only [deref, hu]
    exact ⟨_, _, _, rfl⟩
  · obtain ⟨n, hn⟩ := (b.reportWrite ok).deref.dequeueWrite_base
    rw [hn]
    simp only [deref, hu]
    exact ⟨_, _, _, rfl⟩

end Bidirect

/-! ## What one event does -/

/-- The events that can happen in `b`, each with its outcome on a live object. -/
inductive Fires (b : Bidirect) : Ev → Bidirect → Prop where
  | startReader (hs : b.started = false) (hr : b.released = false) :
      Fires b .startReader b.startReader
  | appendToSend (data : Bytes) (hs : b.started = true) (hr : b.released = false)
      (hf : b.finished = false) (hd : b.deleted = false) :
      Fires b (.appendToSend data) ((b.handOver data false).appendToSend data b.replays.length)
  | writeDone (hs : b.started = true) (hr : b.released = false) (hf : b.finished = false)
      (hd : b.deleted = false) :
      Fires b .writeDone ((b.handOver [] true).writeDone b.replays.length)
  | newData (ok : Bool) (dump : Status) (slices : Bytes) (hp : b.readPending = true)
      (hd : b.deleted = false) :
      Fires b (.newData ok dump slices) ({ b with readPending := false }.newData ok dump slices)
  | finishCompletes (st : Status) (hp : b.finishPending = true) (hn : b.rpcStatus = none) :
      Fires b (.finishCompletes st) { b with toBaseCall := b.finishCompletes st }
  | finishRead (ok : Bool) (hp : b.finishPending = true) (hn : b.rpcStatus.isSome = true)
      (hd : b.deleted = false) :
      Fires b (.finishRead ok) { b with finishPending := false }.finishRead
  | finishWrite (i : Nat) (ok : Bool) (op : QGrpcChannelWriteData) (hi : b.writesPending[i]? = some op)
      (hd : b.deleted = false) :
      Fires b (.finishWrite i ok) ((b.completeWrite i op ok).finishWrite ok)
  | sharedPtrReleased (hr : b.released = false) (hd : b.deleted = false) :
      Fires b .sharedPtrReleased { b with toBaseCall := b.sharedPtrReleased }

/-- An event either reaches a live object and does what its method does, or it
misses. -/
theorem bidirectStep_fires {b b' : Bidirect} {e : Ev} (h : bidirectStep b e = some b') :
    Fires b e b' ∨ (b.deleted = true ∧ b' = b.missed e) := by
  cases e with
  | startReader =>
    simp only [bidirectStep] at h; split at h
    · cases h
    · rename_i hg; simp only [Bool.or_eq_true, not_or, Bool.not_eq_true] at hg
      cases h; exact .inl (.startReader hg.1 hg.2)
  | appendToSend data =>
    simp only [bidirectStep] at h; split at h
    · cases h
    · rename_i hg; simp only [Bool.or_eq_true, not_or, Bool.not_eq_true, Bool.not_eq_false'] at hg
      split at h
      · rename_i hd; cases h; exact .inr ⟨hd, rfl⟩
      · rename_i hd; cases h
        exact .inl (.appendToSend data hg.1.1 hg.1.2 hg.2 (by simpa using hd))
  | writeDone =>
    simp only [bidirectStep] at h; split at h
    · cases h
    · rename_i hg; simp only [Bool.or_eq_true, not_or, Bool.not_eq_true, Bool.not_eq_false'] at hg
      split at h
      · rename_i hd; cases h; exact .inr ⟨hd, rfl⟩
      · rename_i hd; cases h; exact .inl (.writeDone hg.1.1 hg.1.2 hg.2 (by simpa using hd))
  | newData ok dump slices =>
    simp only [bidirectStep] at h; split at h
    · cases h
    · rename_i hg
      split at h
      · rename_i hd; cases h; exact .inr ⟨hd, rfl⟩
      · rename_i hd; cases h
        exact .inl (.newData ok dump slices (by simpa using hg) (by simpa using hd))
  | finishCompletes st =>
    simp only [bidirectStep] at h; split at h
    · rename_i hg; simp only [Bool.and_eq_true, Option.isNone_iff_eq_none] at hg
      cases h; exact .inl (.finishCompletes st hg.1 hg.2)
    · cases h
  | finishRead ok =>
    simp only [bidirectStep] at h; split at h
    · cases h
    · rename_i hg; simp only [Bool.not_eq_true, Bool.not_eq_false', Bool.and_eq_true] at hg
      split at h
      · rename_i hd; cases h; exact .inr ⟨hd, rfl⟩
      · rename_i hd; cases h; exact .inl (.finishRead ok hg.1 hg.2 (by simpa using hd))
  | finishWrite i ok =>
    simp only [bidirectStep] at h; split at h
    · cases h
    · rename_i op hi
      split at h
      · rename_i hd; cases h; exact .inr ⟨hd, rfl⟩
      · rename_i hd; cases h; exact .inl (.finishWrite i ok op hi (by simpa using hd))
  | sharedPtrReleased =>
    simp only [bidirectStep] at h; split at h
    · cases h
    · rename_i hg
      split at h
      · rename_i hd; cases h; exact .inr ⟨hd, rfl⟩
      · rename_i hd; cases h
        exact .inl (.sharedPtrReleased (by simpa using hg) (by simpa using hd))

/-- A started call stays started. -/
theorem Fires.started {b b' : Bidirect} {e : Ev} (h : Fires b e b') (hs : b.started = true) :
    b'.started = true := by
  cases h with
  | startReader => rfl
  | appendToSend data =>
    obtain ⟨n, hn⟩ := (b.handOver data false).appendToSend_base data b.replays.length
    rw [hn]; exact hs
  | writeDone =>
    obtain ⟨n, d, hn⟩ := (b.handOver [] true).writeDone_base b.replays.length
    rw [hn]; exact hs
  | newData ok dump slices =>
    obtain ⟨n, d, hn⟩ := ({ b with readPending := false } : Bidirect).newData_base ok dump slices
    rw [hn]
    exact (Stream.newData_started _ ok dump slices).trans hs
  | finishCompletes => exact hs
  | finishRead =>
    rw [Bidirect.finishRead_base]
    exact (BaseCall.takeStatus_started _).trans hs
  | finishWrite i ok op =>
    obtain ⟨n, d, u, hn⟩ := (b.completeWrite i op ok).finishWrite_base ok
    rw [hn]; exact hs
  | sharedPtrReleased => exact hs

/-- Nothing is issued before `startReader`. -/
def Bidirect.Fresh (b : Bidirect) : Prop := b.started = false → b.outstanding = 0

/-- On a new object only `startReader` and the release of the `shared_ptr` can
come. -/
theorem Fires.first {b b' : Bidirect} {e : Ev} (h : Fires b e b') (hf : b.Fresh)
    (hs : b.started = false) : e = .startReader ∨ e = .sharedPtrReleased := by
  have h0 := hf hs
  simp only [Bidirect.outstanding, BaseCall.pendingOps, Nat.add_eq_zero_iff, Bool.toNat_eq_zero,
    List.length_eq_zero_iff] at h0
  obtain ⟨⟨hrp, hfp⟩, hw⟩ := h0
  cases h with
  | startReader => exact .inl rfl
  | appendToSend data hst => rw [hs] at hst; cases hst
  | writeDone hst => rw [hs] at hst; cases hst
  | newData ok dump slices hp => rw [hrp] at hp; cases hp
  | finishCompletes st hp => rw [hfp] at hp; cases hp
  | finishRead ok hp => rw [hfp] at hp; cases hp
  | finishWrite i ok op hi => rw [hw] at hi; cases hi
  | sharedPtrReleased => exact .inr rfl

theorem Fires.fresh {b b' : Bidirect} {e : Ev} (h : Fires b e b') (hf : b.Fresh) : b'.Fresh := by
  intro hst'
  by_cases hst : b.started = true
  · rw [h.started hst] at hst'; cases hst'
  · have h0 := hf (Bool.eq_false_iff.mpr hst)
    rcases h.first hf (Bool.eq_false_iff.mpr hst) with rfl | rfl
    · cases h with
      | startReader => cases hst'
    · cases h with
      | sharedPtrReleased => exact h0

/-- Until the first `newData` no write is outstanding and every call is queued. -/
def Bidirect.Connecting (b : Bidirect) : Prop :=
  b.readerState = .firstCall → b.writesPending = [] ∧ (b.started = true → b.inProcess = true)

theorem Fires.connecting {b b' : Bidirect} {e : Ev} (h : Fires b e b') (hc : b.Connecting) :
    b'.Connecting := by
  cases h with
  | startReader => exact fun hst => ⟨(hc hst).1, fun _ => rfl⟩
  | appendToSend data hs =>
    intro hst
    obtain ⟨n, hn⟩ := (b.handOver data false).appendToSend_base data b.replays.length
    rw [hn] at hst
    have hp : (b.handOver data false).inProcess = true := (hc hst).2 hs
    unfold Bidirect.appendToSend
    rw [if_pos hp]
    exact ⟨(hc hst).1, fun _ => hp⟩
  | writeDone hs =>
    intro hst
    obtain ⟨n, d, hn⟩ := (b.handOver [] true).writeDone_base b.replays.length
    rw [hn] at hst
    have hp : (b.handOver [] true).inProcess = true := (hc hst).2 hs
    unfold Bidirect.writeDone
    rw [if_pos hp]
    exact ⟨(hc hst).1, fun _ => hp⟩
  | newData ok dump slices =>
    intro hst
    obtain ⟨n, d, hn⟩ := ({ b with readPending := false } : Bidirect).newData_base ok dump slices
    rw [hn] at hst
    exact absurd hst (Stream.newData_established _ ok dump slices)
  | finishCompletes => exact hc
  | finishRead =>
    intro hst
    obtain ⟨rs, -, hr⟩ := ({ b with finishPending := false } : Bidirect).finishRead_eq
    rw [hr] at hst ⊢
    have hst' : b.readerState = .firstCall :=
      (BaseCall.takeStatus_readerState { b.toBaseCall with finishPending := false }).symm.trans hst
    refine ⟨(hc hst').1, fun hs => (hc hst').2 ?_⟩
    exact (BaseCall.takeStatus_started { b.toBaseCall with finishPending := false }).symm.trans hs
  | finishWrite i ok op hi =>
    intro hst
    obtain ⟨n, d, u, hn⟩ := (b.completeWrite i op ok).finishWrite_base ok
    rw [hn] at hst
    rw [(hc hst).1] at hi
    cases hi
  | sharedPtrReleased => exact hc

end QtProtobuf.Grpc
