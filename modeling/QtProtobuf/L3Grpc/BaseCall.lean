import QtProtobuf.Core.Bytes
import QtProtobuf.Core.Lts

/-!
# One RPC of `QGrpcChannel` (`grpc/qgrpcchannel.cpp`)

`QGrpcChannelBaseCall` is a reference-counted `QObject` shared by the Qt event
loop and gRPC's completion queue. An operation issued on `m_reader` completes
in two steps: gRPC finishes it (for `Finish` this stores the final status of
the RPC into `m_grpc_status`), then the worker thread posts its tag to the
event loop, where `newData` / `finishRead` / `finishWrite` runs. The events
below are these steps; events of different operations come in any order.

This module has the shared part of the three call classes and the two
without a write side, `QGrpcChannelStream` and `QGrpcChannelCall`.

`undef` records that the code ran into undefined behaviour: a member function
entered on a deleted object, or a null `QSharedPointer` dereferenced.
-/
namespace QtProtobuf.Grpc

/-- `grpc::Status` and `QGrpcStatus`: a status code (0 is `Ok`) and a message. -/
structure Status where
  code : Nat
  message : String
  deriving DecidableEq, Repr

/-- `grpc::Status::OK`, and the default-constructed `QGrpcStatus`. -/
def Status.OK : Status := ⟨0, ""⟩

/-- `grpc::Status::ok()`. -/
def Status.ok (s : Status) : Bool := s.code == 0

@[simp] theorem Status.ok_OK : Status.OK.ok = true := rfl

/-- mirrors src/grpc/qgrpcchannel.cpp:56-69 (`parseByteBuffer`); `dump` is the
status of `buffer.Dump`, `slices` the bytes it yields. -/
def parseByteBuffer (dump : Status) (slices : Bytes) : Status × Bytes :=
  if !dump.ok then (dump, []) else (Status.OK, slices)

/-- mirrors src/grpc/qgrpcchannel_p.h:63-67 -/
inductive ReaderState where
  | firstCall | processing | ended
  deriving DecidableEq, Repr

/-- The members of `QGrpcChannelBaseCall` (src/grpc/qgrpcchannel_p.h:58-95),
and what is known of it outside: the operations issued whose completion has
not been processed (`readPending` is StartCall or Read), whether the last
`shared_ptr` is gone, the final status gRPC has stored (`rpcStatus`), the
status of the message that failed to parse (`parseError`), and what the
object emitted. -/
structure BaseCall where
  status : Status
  readerState : ReaderState
  grpcStatus : Status
  refCount : Int
  started : Bool
  readPending : Bool
  finishPending : Bool
  released : Bool
  deleted : Bool
  undef : Bool
  rpcStatus : Option Status
  parseError : Option Status
  dataReady : List Bytes
  finished : Bool
  deriving DecidableEq, Repr

/-- mirrors src/grpc/qgrpcchannel_p.h:70-78 (constructor) -/
def BaseCall.new : BaseCall where
  status := Status.OK
  readerState := .firstCall
  grpcStatus := Status.OK
  refCount := 1
  started := false
  readPending := false
  finishPending := false
  released := false
  deleted := false
  undef := false
  rpcStatus := none
  parseError := none
  dataReady := []
  finished := false

namespace BaseCall

/-- `m_refCount.ref()` -/
def ref (c : BaseCall) : BaseCall := { c with refCount := c.refCount + 1 }

/-- `if (!m_refCount.deref()) delete this;` -/
def deref (c : BaseCall) : BaseCall :=
  { c with refCount := c.refCount - 1, deleted := c.deleted || decide (c.refCount = 1) }

/-- mirrors src/grpc/qgrpcchannel.cpp:97-110, 191-203, 370-385 (`startReader`) -/
def startReader (c : BaseCall) : BaseCall :=
  let c := { c with status := Status.OK, started := true }
  let c := { c.ref with readPending := true }
  { c.ref with finishPending := true }

/-- `m_refCount.ref(); m_reader->Read(&response, &m_newData);` -/
def issueRead (c : BaseCall) : BaseCall := { c.ref with readPending := true }

/-- The `!m_grpc_status.ok()` branch after `parseByteBuffer`: the message is
dropped and the reading ends. -/
def failParse (c : BaseCall) : BaseCall :=
  { c with status := c.grpcStatus, parseError := some c.grpcStatus, readerState := .ended }

/-- mirrors src/grpc/qgrpcchannel.cpp:130-142, 252-264: the `PROCESSING` branch
of the two `newData` that read on. -/
def receive (c : BaseCall) (dump : Status) (slices : Bytes) : BaseCall :=
  let c := { c with grpcStatus := (parseByteBuffer dump slices).1 }
  if !c.grpcStatus.ok then c.failParse
  else { c with dataReady := c.dataReady ++ [(parseByteBuffer dump slices).2] }.issueRead

/-- mirrors src/grpc/qgrpcchannel.cpp:405-410: the `PROCESSING` branch of
`QGrpcChannelCall::newData`, which takes one message; `dataReady` holds
`responseParsed`. -/
def receiveLast (c : BaseCall) (dump : Status) (slices : Bytes) : BaseCall :=
  let c := { c with grpcStatus := (parseByteBuffer dump slices).1 }
  if !c.grpcStatus.ok then c.failParse
  else { c with status := c.grpcStatus, readerState := .ended
                dataReady := [(parseByteBuffer dump slices).2] }

/-- mirrors src/grpc/qgrpcchannel.cpp:159-163, 286-291, 426-430: the status
reported by `finishRead`. -/
def takeStatus (c : BaseCall) : BaseCall :=
  if c.status.ok || !c.grpcStatus.ok then { c with status := c.grpcStatus } else c

@[simp] theorem takeStatus_started (c : BaseCall) : c.takeStatus.started = c.started := by
  unfold takeStatus
  split <;> rfl

@[simp] theorem takeStatus_readerState (c : BaseCall) :
    c.takeStatus.readerState = c.readerState := by
  unfold takeStatus
  split <;> rfl

/-- mirrors src/grpc/qgrpcchannel.cpp:783-790 (`sharedPtrReleased`) -/
def sharedPtrReleased (c : BaseCall) : BaseCall := { c with released := true }.deref

/-- gRPC completes `Finish` and stores the final status of the RPC into
`m_grpc_status`, a member of the object. -/
def finishCompletes (c : BaseCall) (st : Status) : BaseCall :=
  { c with grpcStatus := st, rpcStatus := some st, undef := c.undef || c.deleted }

/-- The operations issued on `m_reader` whose completion is still to be
processed, `Finish` and the StartCall / Read ones. -/
def pendingOps (c : BaseCall) : Nat := c.readPending.toNat + c.finishPending.toNat

end BaseCall

/-- mirrors src/grpc/qgrpcchannel.cpp:119-148 (`QGrpcChannelStream::newData`) -/
def Stream.newData (c : BaseCall) (ok : Bool) (dump : Status) (slices : Bytes) : BaseCall :=
  let c :=
    if !ok then { c with readerState := .ended }
    else match c.readerState with
      | .firstCall => { c.issueRead with readerState := .processing }
      | .processing => c.receive dump slices
      | .ended => c
  c.deref

namespace Stream

theorem newData_firstCall {c : BaseCall} (h : c.readerState = .firstCall) (dump : Status)
    (slices : Bytes) : newData c true dump slices =
      BaseCall.deref { c.issueRead with readerState := .processing } := by
  unfold newData
  rw [h]; rfl

theorem newData_processing {c : BaseCall} (h : c.readerState = .processing) (dump : Status)
    (slices : Bytes) : newData c true dump slices = (c.receive dump slices).deref := by
  unfold newData
  rw [h]; rfl

theorem newData_ended {c : BaseCall} (h : c.readerState = .ended) (dump : Status)
    (slices : Bytes) : newData c true dump slices = c.deref := by
  unfold newData
  rw [h]; rfl

@[simp] theorem newData_started (c : BaseCall) (ok : Bool) (dump : Status) (slices : Bytes) :
    (newData c ok dump slices).started = c.started := by
  cases ok with
  | false => rfl
  | true =>
    cases h : c.readerState with
    | firstCall => rw [newData_firstCall h]; rfl
    | processing =>
      rw [newData_processing h]
      unfold BaseCall.receive
      dsimp only
      split <;> rfl
    | ended => rw [newData_ended h]; rfl

theorem newData_established (c : BaseCall) (ok : Bool) (dump : Status) (slices : Bytes) :
    (newData c ok dump slices).readerState ≠ .firstCall := by
  cases ok with
  | false => exact ReaderState.noConfusion
  | true =>
    cases h : c.readerState with
    | firstCall => rw [newData_firstCall h]; exact ReaderState.noConfusion
    | processing =>
      rw [newData_processing h]
      unfold BaseCall.receive
      dsimp only
      split
      · exact ReaderState.noConfusion
      · intro hc; exact ReaderState.noConfusion (h.symm.trans hc)
    | ended =>
      rw [newData_ended h]
      intro hc; exact ReaderState.noConfusion (h.symm.trans hc)

end Stream

/-- mirrors src/grpc/qgrpcchannel.cpp:394-416 (`QGrpcChannelCall::newData`) -/
def Call.newData (c : BaseCall) (ok : Bool) (dump : Status) (slices : Bytes) : BaseCall :=
  let c :=
    if !ok then c
    else match c.readerState with
      | .firstCall => { c.issueRead with readerState := .processing }
      | .processing => c.receiveLast dump slices
      | .ended => c
  c.deref

/-- mirrors src/grpc/qgrpcchannel.cpp:150-171, 418-438 (`finishRead` of
`QGrpcChannelStream` and of `QGrpcChannelCall`) -/
def BaseCall.finishRead (c : BaseCall) : BaseCall := { c.takeStatus with finished := true }.deref

namespace Call

theorem newData_firstCall {c : BaseCall} (h : c.readerState = .firstCall) (dump : Status)
    (slices : Bytes) : newData c true dump slices =
      BaseCall.deref { c.issueRead with readerState := .processing } := by
  unfold newData
  rw [h]; rfl

theorem newData_processing {c : BaseCall} (h : c.readerState = .processing) (dump : Status)
    (slices : Bytes) : newData c true dump slices = (c.receiveLast dump slices).deref := by
  unfold newData
  rw [h]; rfl

theorem newData_ended {c : BaseCall} (h : c.readerState = .ended) (dump : Status)
    (slices : Bytes) : newData c true dump slices = c.deref := by
  unfold newData
  rw [h]; rfl

end Call

/-- What happens to a call without a write side. -/
inductive CallEv where
  | startReader
  | newData (ok : Bool) (dump : Status) (slices : Bytes)
  | finishCompletes (st : Status)
  | finishRead (ok : Bool)
  | sharedPtrReleased
  deriving DecidableEq, Repr

/-- One event of a call whose `newData` is `nd`. `none`: the event cannot
happen (an operation completes once, the last `shared_ptr` goes once,
`startReader` is called once, by the code that creates the call). -/
def callStep (nd : BaseCall → Bool → Status → Bytes → BaseCall) (c : BaseCall) :
    CallEv → Option BaseCall
  | .startReader => if c.started || c.released then none else some c.startReader
  | .newData ok dump slices =>
    if !c.readPending then none
    else if c.deleted then some { c with readPending := false, undef := true }
    else some (nd { c with readPending := false } ok dump slices)
  | .finishCompletes st =>
    if c.finishPending && c.rpcStatus.isNone then some (c.finishCompletes st) else none
  | .finishRead _ =>
    if !(c.finishPending && c.rpcStatus.isSome) then none
    else if c.deleted then some { c with finishPending := false, undef := true }
    else some { c with finishPending := false }.finishRead
  | .sharedPtrReleased =>
    if c.released then none
    else if c.deleted then some { c with released := true, undef := true }
    else some c.sharedPtrReleased

/-- Runs of `QGrpcChannelStream`. -/
def Stream.lts : Lib.LTS BaseCall CallEv := .ofFn .new (callStep Stream.newData)

/-- Runs of `QGrpcChannelCall`. -/
def Call.lts : Lib.LTS BaseCall CallEv := .ofFn .new (callStep Call.newData)

end QtProtobuf.Grpc
