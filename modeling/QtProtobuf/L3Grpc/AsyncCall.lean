import QtProtobuf.L3Grpc.BaseCall

/-!
# One asynchronous call: `QGrpcCallReply`, its channel and its client

`QAbstractGrpcClient::call` connects two handlers to the reply
(`grpc/qabstractgrpcclient.cpp:100-132`) and passes it to the channel, which
connects two or three more (`grpc/qgrpcchannel.cpp:470-523`,
`grpc/qgrpchttp2channel.cpp:232-271`). They disconnect one another. The user
keeps the reply and may abort it (`grpc/qgrpccallreply.cpp:32-43`).

`QGrpcChannel` ends an RPC on its worker thread, which posts `finishRead` to the
call object (`grpc/qgrpcchannel_p.h:46-53`): `finished` is emitted on the thread of
the reply, to whatever is still connected there. Everything else happens on that
thread. A network error of `QGrpcChannel` is a status gRPC reports, and this channel
has no timer. Its destructor waits for the worker thread, so for the end of every
RPC (`grpc/qgrpcchannel.cpp:458-464`); `finished` of that thread is queued for the
object destroyed there, and the handler of lines 482-493 never runs.

* `one_terminal_iff`: exactly one terminal signal, at every point of a run, if
  and only if each step meets `Orderly`.
* `not_one_terminal_abort`: `abort` after the end of the call emits a second one.
-/
namespace QtProtobuf.Grpc

open Lib

inductive CallChannel where
  | grpc | http2
  deriving DecidableEq, Repr

/-- `QNetworkReply::NetworkError`, `NoError` apart. -/
inductive NetworkError where
  | connectionRefusedError | remoteHostClosedError | hostNotFoundError | timeoutError
  | operationCanceledError | sslHandshakeFailedError | temporaryNetworkFailureError
  | networkSessionFailedError | backgroundRequestNotAllowedError | tooManyRedirectsError
  | insecureRedirectError | unknownNetworkError | proxyConnectionRefusedError
  | proxyConnectionClosedError | proxyNotFoundError | proxyTimeoutError
  | proxyAuthenticationRequiredError | unknownProxyError | contentAccessDenied
  | contentOperationNotPermittedError | contentNotFoundError | authenticationRequiredError
  | contentReSendError | contentConflictError | contentGoneError | unknownContentError
  | protocolUnknownError | protocolInvalidOperationError | protocolFailure | internalServerError
  | operationNotImplementedError | serviceUnavailableError | unknownServerError
  deriving DecidableEq, Repr

/-- mirrors src/grpc/qgrpchttp2channel.cpp:55-88 (StatusCodeMap); the codes are
those of src/grpc/qgrpcstatus.h:70-88. -/
def statusCodeMap : NetworkError → Nat
  | .connectionRefusedError | .remoteHostClosedError | .hostNotFoundError => 14
  | .timeoutError => 4
  | .operationCanceledError => 14
  | .sslHandshakeFailedError => 7
  | .temporaryNetworkFailureError => 2
  | .networkSessionFailedError => 14
  | .backgroundRequestNotAllowedError => 2
  | .tooManyRedirectsError => 14
  | .insecureRedirectError => 7
  | .unknownNetworkError => 2
  | .proxyConnectionRefusedError | .proxyConnectionClosedError | .proxyNotFoundError => 14
  | .proxyTimeoutError => 4
  | .proxyAuthenticationRequiredError => 16
  | .unknownProxyError => 2
  | .contentAccessDenied | .contentOperationNotPermittedError => 7
  | .contentNotFoundError => 5
  | .authenticationRequiredError => 7
  | .contentReSendError => 15
  | .contentConflictError => 3
  | .contentGoneError => 15
  | .unknownContentError => 2
  | .protocolUnknownError => 2
  | .protocolInvalidOperationError => 12
  | .protocolFailure => 2
  | .internalServerError => 13
  | .operationNotImplementedError => 12
  | .serviceUnavailableError => 14
  | .unknownServerError => 2

/-- What `processReply` and the handler read of a `QNetworkReply`: the error,
the two headers and the body. -/
structure NetworkReply where
  error : Option NetworkError
  grpcStatus : Nat
  grpcMessage : String
  body : Bytes
  deriving DecidableEq, Repr

/-- mirrors src/grpc/qgrpchttp2channel.cpp:162-177 (processReply): the status
code and the data. -/
def processReply (r : NetworkReply) : Nat × Bytes :=
  match r.error with
  | some e => (statusCodeMap e, [])
  | none => if r.grpcStatus ≠ 0 then (r.grpcStatus, []) else (r.grpcStatus, r.body.drop 5)

/-- The terminal signals of a reply. -/
inductive Signal where
  | finished
  | error (status : Status)
  deriving DecidableEq, Repr

/-- An event the thread of the reply has processed. -/
inductive Processed where
  | completed (status : Status)
  | networkError (e : NetworkError)
  | timeout | sslErrors | shutdown | abort
  deriving DecidableEq, Repr

def Processed.isOk : Processed → Bool
  | .completed status => status.ok
  | _ => false

/-- The five connections of a call, the `finishRead` posted to the call object
(with the status and the response it ends with), and the data of the reply.
`running`: the RPC has not ended. Recorded for the statements: what the reply and
the client emitted, and the events processed. -/
structure AsyncCall where
  connection : Bool
  abortConnection : Bool
  clientConnection : Bool
  errorConnection : Bool
  finishedConnection : Bool
  running : Bool
  posted : Option (Status × Bytes)
  data : Bytes
  signals : List Signal
  clientErrors : List Status
  processed : List Processed
  deriving DecidableEq, Repr

namespace AsyncCall

/-- After `QAbstractGrpcClient::call`; `QGrpcHttp2Channel` has no
`clientConnection`. -/
def new (ch : CallChannel) : AsyncCall :=
  ⟨true, true, ch == .grpc, true, true, true, none, [], [], [], []⟩

def setData (c : AsyncCall) (data : Bytes) : AsyncCall := { c with data := data }

def process (c : AsyncCall) (p : Processed) : AsyncCall := { c with processed := c.processed ++ [p] }

/-- Both channels disconnect all they connected. -/
def disconnect (c : AsyncCall) : AsyncCall :=
  { c with connection := false, abortConnection := false, clientConnection := false }

/-- The error handler of the client (src/grpc/qabstractgrpcclient.cpp:113-118). -/
def onError (c : AsyncCall) (status : Status) : AsyncCall :=
  if c.errorConnection then
    { c with
      clientErrors := c.clientErrors ++ [status], errorConnection := false, finishedConnection := false }
  else c

/-- The finished handler of the client (src/grpc/qabstractgrpcclient.cpp:120-124). -/
def onFinished (c : AsyncCall) : AsyncCall :=
  if c.finishedConnection then { c with errorConnection := false, finishedConnection := false } else c

/-- The error handler of the channel: mirrors src/grpc/qgrpcchannel.cpp:510-520,
src/grpc/qgrpchttp2channel.cpp:260-270. -/
def onAbort (c : AsyncCall) (status : Status) : AsyncCall :=
  if c.abortConnection ∧ status.code = 10 then c.disconnect else c

/-- `error`: the client is connected first, the channel second. -/
def emitError (c : AsyncCall) (status : Status) : AsyncCall :=
  (onError { c with signals := c.signals ++ [.error status] } status).onAbort status

def emitFinished (c : AsyncCall) : AsyncCall :=
  onFinished { c with signals := c.signals ++ [.finished] }

/-! ## `QGrpcChannel` -/

/-- mirrors src/grpc/qgrpcchannel.cpp:495-508: `finished` of the call object. -/
def onCallFinished (c : AsyncCall) (status : Status) (response : Bytes) : AsyncCall :=
  if c.connection then
    (if status.ok then (c.setData response).emitFinished
      else (c.setData []).emitError status).disconnect
  else c

/-! ## `QGrpcHttp2Channel` -/

/-- mirrors src/grpc/qgrpchttp2channel.cpp:239-258 -/
def onReplyFinished (c : AsyncCall) (r : NetworkReply) : AsyncCall :=
  if c.connection then
    match processReply r with
    | (0, data) => (c.disconnect.setData data).emitFinished
    | (code, _) => (c.disconnect.setData []).emitError ⟨code, r.grpcMessage⟩
  else c

/-- mirrors src/grpc/qgrpchttp2channel.cpp:154-160; `abort` of a running
`QNetworkReply` emits its `finished`. -/
def abortNetworkReply (c : AsyncCall) (r : NetworkReply) : AsyncCall :=
  if c.running then
    onReplyFinished { c with running := false } { r with error := some .operationCanceledError }
  else c

/-- mirrors src/grpc/qgrpccallreply.cpp:32-43 -/
def abort (c : AsyncCall) : AsyncCall :=
  (c.setData []).emitError ⟨10, "Call aborted by user or timeout"⟩

end AsyncCall

/-- `rpcFinished` is the worker thread of `QGrpcChannel`, `deliver` the `finishRead`
it posted. `NetworkReply` is what has arrived at the `QNetworkReply`. -/
inductive AsyncEvent where
  | rpcFinished (status : Status) (response : Bytes)
  | deliver
  | replyFinished (r : NetworkReply)
  | timeout (r : NetworkReply)
  | sslErrors (r : NetworkReply)
  | shutdown
  | abort
  deriving DecidableEq, Repr

/-- How the end of a `QNetworkReply` counts. -/
def NetworkReply.ending (r : NetworkReply) : Processed :=
  match r.error with
  | some e => .networkError e
  | none => .completed ⟨r.grpcStatus, r.grpcMessage⟩

open AsyncCall in
/-- `none`: the event cannot happen. A `QGrpcChannel` is gone once its worker thread
has ended, after the RPC; what was posted stays posted. Destroying a
`QGrpcHttp2Channel` destroys its `QNetworkReply` objects, with their connections
and without a signal. -/
def asyncStep (ch : CallChannel) (c : AsyncCall) : AsyncEvent → Option AsyncCall
  | .rpcFinished status response =>
    if ch = .grpc ∧ c.running = true then
      some { c with running := false, posted := some (status, response) }
    else none
  | .deliver =>
    match c.posted with
    | some (status, response) =>
      some (({ c with posted := none }.process (.completed status)).onCallFinished status response)
    | none => none
  | .replyFinished r =>
    if ch = .http2 ∧ c.running = true then
      some (({ c with running := false }.process r.ending).onReplyFinished r)
    else none
  | .timeout r => if ch = .http2 then some ((c.process .timeout).abortNetworkReply r) else none
  | .sslErrors r => if ch = .http2 then some ((c.process .sslErrors).abortNetworkReply r) else none
  | .shutdown =>
    match ch with
    | .grpc =>
      if c.running = true then none else some { c.process .shutdown with clientConnection := false }
    | .http2 => some { (c.process .shutdown).disconnect with running := false }
  | .abort => some (c.process .abort).abort

/-- One terminal signal once an event has been processed: `finished` exactly
when the first one was the completion with status `Ok`. -/
def OneTerminal (c : AsyncCall) : Prop :=
  match c.processed with
  | [] => c.signals = []
  | p :: _ => if p.isOk then c.signals = [.finished] else ∃ status, c.signals = [.error status]

/-- The channel is not shut down before another event, and `abort` comes before
every other event. -/
def Orderly (c : AsyncCall) : AsyncEvent → Prop
  | .shutdown => c.processed ≠ []
  | .abort => c.processed = []
  | _ => True

namespace AsyncCall

/-! ## What the emissions change -/

section Frame
variable (c : AsyncCall) (status : Status) (data : Bytes) (p : Processed)

@[simp] theorem emitError_signals :
    (c.emitError status).signals = c.signals ++ [.error status] := by
  unfold emitError onAbort onError
  split <;> split <;> rfl

@[simp] theorem emitFinished_signals : c.emitFinished.signals = c.signals ++ [.finished] := by
  unfold emitFinished onFinished
  split <;> rfl

@[simp] theorem emitError_processed : (c.emitError status).processed = c.processed := by
  unfold emitError onAbort onError
  split <;> split <;> rfl

@[simp] theorem emitFinished_processed : c.emitFinished.processed = c.processed := by
  unfold emitFinished onFinished
  split <;> rfl

@[simp] theorem setData_signals : (c.setData data).signals = c.signals := rfl
@[simp] theorem setData_processed : (c.setData data).processed = c.processed := rfl
@[simp] theorem process_signals : (c.process p).signals = c.signals := rfl
@[simp] theorem process_processed : (c.process p).processed = c.processed ++ [p] := rfl
@[simp] theorem disconnect_signals : c.disconnect.signals = c.signals := rfl
@[simp] theorem disconnect_processed : c.disconnect.processed = c.processed := rfl

end Frame

/-- None of the channel's connections is left. -/
def Detached (c : AsyncCall) : Prop :=
  c.connection = false ∧ c.abortConnection = false ∧ c.clientConnection = false

theorem detached_disconnect (c : AsyncCall) : c.disconnect.Detached := ⟨rfl, rfl, rfl⟩

theorem Detached.setData {c : AsyncCall} (h : c.Detached) (data : Bytes) : (c.setData data).Detached := h

theorem Detached.process {c : AsyncCall} (h : c.Detached) (p : Processed) : (c.process p).Detached := h

theorem Detached.onError {c : AsyncCall} (h : c.Detached) (status : Status) :
    (c.onError status).Detached := by
  unfold AsyncCall.onError
  split
  · exact h
  · exact h

theorem Detached.emitError {c : AsyncCall} (h : c.Detached) (status : Status) :
    (c.emitError status).Detached := by
  unfold AsyncCall.emitError onAbort
  split
  · exact detached_disconnect _
  · apply Detached.onError
    exact h

theorem Detached.emitFinished {c : AsyncCall} (h : c.Detached) : c.emitFinished.Detached := by
  unfold AsyncCall.emitFinished onFinished
  split
  · exact h
  · exact h

@[simp] theorem onError_abortConnection (c : AsyncCall) (status : Status) :
    (c.onError status).abortConnection = c.abortConnection := by
  unfold onError
  split <;> rfl

/-- The channel's error handler takes an abort for the end of the call. -/
theorem detached_abort {c : AsyncCall} (h : c.abortConnection = true) : c.abort.Detached := by
  unfold abort emitError onAbort
  rw [if_pos]
  · exact detached_disconnect _
  · simpa [setData] using h

/-! ## The invariant -/

/-- Before the first processed event all is connected and nothing is emitted;
from then on the channel is detached and the one signal is out. -/
structure Wired (ch : CallChannel) (c : AsyncCall) : Prop where
  fresh : c.processed = [] → c.connection = true ∧ c.abortConnection = true ∧
    (ch = .http2 → c.running = true) ∧ c.signals = []
  ended : c.processed ≠ [] → c.Detached
  terminal : OneTerminal c
  posted : ch = .http2 → c.posted = none

theorem Wired.new (ch : CallChannel) : (AsyncCall.new ch).Wired ch where
  fresh _ := by cases ch <;> simp [AsyncCall.new]
  ended h := by simp [AsyncCall.new] at h
  terminal := rfl
  posted _ := rfl

/-! ## The handlers -/

/-- No network error is taken for success. -/
theorem statusCodeMap_ne_ok (e : NetworkError) : statusCodeMap e ≠ 0 := by
  cases e <;> decide

/-- What one end of a call emits: `finished` for `Ok`, else one error. -/
def Emits (c c' : AsyncCall) (ok : Bool) : Prop :=
  if ok then c'.signals = c.signals ++ [.finished] else ∃ status, c'.signals = c.signals ++ [.error status]

theorem onReplyFinished_connected {c : AsyncCall} (h : c.connection = true) (r : NetworkReply) :
    (c.onReplyFinished r).Detached ∧ (c.onReplyFinished r).processed = c.processed ∧
      Emits c (c.onReplyFinished r) r.ending.isOk := by
  have hcode : r.ending.isOk = ((processReply r).1 == 0) := by
    unfold NetworkReply.ending processReply
    cases hr : r.error with
    | some e => simp [Processed.isOk, statusCodeMap_ne_ok]
    | none =>
      by_cases h0 : r.grpcStatus = 0
      · simp [Processed.isOk, Status.ok, h0]
      · simp [Processed.isOk, Status.ok, h0]
  have hd := c.detached_disconnect
  rw [hcode]
  unfold onReplyFinished Emits
  rw [if_pos h]
  rcases processReply r with ⟨_ | code, data⟩
  · exact ⟨(hd.setData data).emitFinished, by simp, by simp⟩
  · exact ⟨(hd.setData []).emitError _, by simp, by simp⟩

theorem onReplyFinished_detached {c : AsyncCall} (h : c.connection = false) (r : NetworkReply) :
    c.onReplyFinished r = c := by
  simp [onReplyFinished, h]

theorem abortNetworkReply_running {c : AsyncCall} (h : c.connection = true) (hr : c.running = true)
    (r : NetworkReply) : (c.abortNetworkReply r).Detached ∧
      (c.abortNetworkReply r).processed = c.processed ∧ Emits c (c.abortNetworkReply r) false := by
  unfold abortNetworkReply
  rw [if_pos hr]
  exact onReplyFinished_connected (c := { c with running := false }) h _

theorem abortNetworkReply_detached {c : AsyncCall} (h : c.Detached) (r : NetworkReply) :
    (c.abortNetworkReply r).Detached ∧ (c.abortNetworkReply r).processed = c.processed ∧
      (c.abortNetworkReply r).signals = c.signals := by
  unfold abortNetworkReply
  split
  · rw [onReplyFinished_detached (c := { c with running := false }) h.1]
    exact ⟨h, rfl, rfl⟩
  · exact ⟨h, rfl, rfl⟩

theorem onReplyFinished_posted (c : AsyncCall) (r : NetworkReply) :
    (c.onReplyFinished r).posted = c.posted := by
  unfold onReplyFinished
  split
  · split
    · unfold emitFinished onFinished
      split <;> rfl
    · unfold emitError onAbort onError
      split <;> split <;> rfl
  · rfl

theorem abortNetworkReply_posted (c : AsyncCall) (r : NetworkReply) :
    (c.abortNetworkReply r).posted = c.posted := by
  unfold abortNetworkReply
  split
  · exact onReplyFinished_posted _ _
  · rfl

theorem onCallFinished_connected {c : AsyncCall} (h : c.connection = true) (status : Status)
    (response : Bytes) : (c.onCallFinished status response).Detached ∧
      (c.onCallFinished status response).processed = c.processed ∧
      Emits c (c.onCallFinished status response) status.ok := by
  unfold onCallFinished
  rw [if_pos h]
  refine ⟨detached_disconnect _, ?_, ?_⟩
  · split <;> simp
  · unfold Emits
    split <;> simp_all

/-- What is posted finds nothing connected after the end of the call. -/
theorem onCallFinished_detached {c : AsyncCall} (h : c.connection = false) (status : Status)
    (response : Bytes) : c.onCallFinished status response = c := by
  simp [onCallFinished, h]

/-! ## One terminal signal -/

/-- The first processed event, with the one signal it emits. -/
theorem oneTerminal_first {c c' : AsyncCall} {p : Processed} (hs : c.signals = [])
    (hp : c'.processed = [p]) (he : Emits c c' p.isOk) : OneTerminal c' := by
  unfold OneTerminal
  rw [hp]
  unfold Emits at he
  simpa [hs] using he

/-- A later event that emits nothing. -/
theorem OneTerminal.later {c c' : AsyncCall} {l : List Processed} (h : OneTerminal c)
    (hp : c.processed ≠ []) (hp' : c'.processed = c.processed ++ l) (hs : c'.signals = c.signals) :
    OneTerminal c' := by
  unfold OneTerminal at h ⊢
  rw [hp', hs]
  cases hc : c.processed with
  | nil => exact absurd hc hp
  | cons p ps =>
    rw [hc] at h
    exact h

/-- A later event that emits a signal. -/
theorem OneTerminal.not_later {c c' : AsyncCall} {l : List Processed} {x : Signal}
    (h : OneTerminal c) (hp : c.processed ≠ []) (hp' : c'.processed = c.processed ++ l)
    (hs : c'.signals = c.signals ++ [x]) : ¬ OneTerminal c' := by
  unfold OneTerminal at h ⊢
  rw [hp', hs]
  cases hc : c.processed with
  | nil => exact absurd hc hp
  | cons p ps =>
    rw [hc] at h
    rw [List.cons_append]
    dsimp only at h ⊢
    split at h
    · rename_i hok
      simp [h, hok]
    · rename_i hok
      obtain ⟨status, h⟩ := h
      simp [h, hok]

theorem Emits.exists {c c' : AsyncCall} {ok : Bool} (h : Emits c c' ok) :
    ∃ x, c'.signals = c.signals ++ [x] := by
  unfold Emits at h
  split at h
  · exact ⟨_, h⟩
  · obtain ⟨status, h⟩ := h
    exact ⟨_, h⟩

/-! ## The step lemma -/

/-- The end of a fresh call. -/
theorem Wired.first {ch : CallChannel} {c c' : AsyncCall} {p : Processed} (h : c.Wired ch)
    (h0 : c.processed = []) (hd : c'.Detached) (hp : c'.processed = c.processed ++ [p])
    (he : Emits c c' p.isOk) (hpost : ch = .http2 → c'.posted = none) : c'.Wired ch where
  fresh hc := by simp [hp] at hc
  ended _ := hd
  terminal := oneTerminal_first (h.fresh h0).2.2.2 (by simpa [h0] using hp) he
  posted := hpost

/-- An event after the end of the call, without effect. -/
theorem Wired.later {ch : CallChannel} {c c' : AsyncCall} {p : Processed} (h : c.Wired ch)
    (h0 : c.processed ≠ []) (hd : c'.Detached) (hp : c'.processed = c.processed ++ [p])
    (hs : c'.signals = c.signals) (hpost : ch = .http2 → c'.posted = none) : c'.Wired ch where
  fresh hc := by simp [hp] at hc
  ended _ := hd
  terminal := OneTerminal.later h.terminal h0 hp hs
  posted := hpost

theorem abort_emits (c : AsyncCall) : Emits c c.abort false := by
  unfold Emits abort
  simp

theorem abort_processed (c : AsyncCall) : c.abort.processed = c.processed := by
  simp [abort]

theorem abort_posted (c : AsyncCall) : c.abort.posted = c.posted := by
  unfold abort emitError onAbort onError
  split <;> split <;> rfl

/-- The timer and the SSL handler. -/
theorem Wired.abortNetworkReply {c : AsyncCall} (h : c.Wired .http2) {p : Processed}
    (hok : p.isOk = false) (r : NetworkReply) : ((c.process p).abortNetworkReply r).Wired .http2 := by
  have hpost : ((c.process p).abortNetworkReply r).posted = none := by
    rw [abortNetworkReply_posted]
    exact h.posted rfl
  by_cases h0 : c.processed = []
  · obtain ⟨hc, -, hr, -⟩ := h.fresh h0
    obtain ⟨hd, hp, he⟩ := abortNetworkReply_running (c := c.process p) hc (hr rfl) r
    refine h.first h0 hd hp ?_ fun _ => hpost
    rw [hok]
    exact he
  · obtain ⟨hd, hp, hs⟩ := abortNetworkReply_detached ((h.ended h0).process p) r
    exact h.later h0 hd hp hs fun _ => hpost

theorem Wired.step {ch : CallChannel} {c c' : AsyncCall} {e : AsyncEvent} (h : c.Wired ch)
    (hs : asyncStep ch c e = some c') (ho : Orderly c e) : c'.Wired ch := by
  cases e with
  | rpcFinished status response =>
    simp only [asyncStep] at hs
    split at hs
    · rename_i hc
      cases hs
      obtain ⟨rfl, -⟩ := hc
      refine ⟨fun h0 => ?_, h.ended, h.terminal, fun hc => by cases hc⟩
      obtain ⟨hconn, habort, -, hsig⟩ := h.fresh h0
      exact ⟨hconn, habort, fun hc => (by cases hc), hsig⟩
    · cases hs
  | deliver =>
    simp only [asyncStep] at hs
    split at hs
    · rename_i status response hpost
      cases hs
      let c₁ := { c with posted := none }.process (.completed status)
      have hgrpc : ch ≠ .http2 := fun hc => by
        rw [h.posted hc] at hpost
        cases hpost
      by_cases h0 : c.processed = []
      · obtain ⟨hd, hp, he⟩ := onCallFinished_connected (c := c₁) (h.fresh h0).1 status response
        exact h.first h0 hd hp he fun hc => absurd hc hgrpc
      · have hd := h.ended h0
        have hsame := onCallFinished_detached (c := c₁) hd.1 status response
        rw [hsame]
        exact h.later h0 hd rfl rfl fun hc => absurd hc hgrpc
    · cases hs
  | replyFinished r =>
    simp only [asyncStep] at hs
    split at hs
    · rename_i hc
      cases hs
      obtain ⟨rfl, -⟩ := hc
      have hpost : ∀ s : AsyncCall, s.posted = c.posted → (s.onReplyFinished r).posted = none :=
        fun s hs => by rw [onReplyFinished_posted, hs, h.posted rfl]
      by_cases h0 : c.processed = []
      · obtain ⟨hd, hp, he⟩ := onReplyFinished_connected
          (c := { c with running := false }.process r.ending) (h.fresh h0).1 r
        exact h.first h0 hd hp he fun _ => hpost _ rfl
      · have hd := h.ended h0
        have hsame := onReplyFinished_detached
          (c := { c with running := false }.process r.ending) hd.1 r
        rw [hsame]
        exact h.later h0 hd rfl rfl fun _ => h.posted rfl
    · cases hs
  | timeout r =>
    simp only [asyncStep] at hs
    split at hs
    · rename_i hc
      cases hs
      subst hc
      exact h.abortNetworkReply rfl r
    · cases hs
  | sslErrors r =>
    simp only [asyncStep] at hs
    split at hs
    · rename_i hc
      cases hs
      subst hc
      exact h.abortNetworkReply rfl r
    · cases hs
  | shutdown =>
    have hd := h.ended ho
    cases ch with
    | grpc =>
      simp only [asyncStep] at hs
      split at hs
      · cases hs
      · cases hs
        exact h.later ho ⟨hd.1, hd.2.1, rfl⟩ rfl rfl fun hc => by cases hc
    | http2 =>
      cases hs
      exact h.later ho (detached_disconnect (c.process .shutdown)) rfl rfl fun _ => h.posted rfl
  | abort =>
    cases hs
    refine h.first ho (detached_abort ?_) (abort_processed _) (abort_emits _) fun hc => ?_
    · exact (h.fresh ho).2.1
    · rw [abort_posted]
      exact h.posted hc

/-- A step that is not `Orderly` emits a signal too many, or none where one is due. -/
theorem Wired.disorderly {ch : CallChannel} {c c' : AsyncCall} {e : AsyncEvent} (h : c.Wired ch)
    (hs : asyncStep ch c e = some c') (ho : ¬ Orderly c e) : ¬ OneTerminal c' := by
  cases e with
  | rpcFinished status response => exact absurd trivial ho
  | replyFinished r => exact absurd trivial ho
  | timeout r => exact absurd trivial ho
  | sslErrors r => exact absurd trivial ho
  | deliver => exact absurd trivial ho
  | abort =>
    cases hs
    obtain ⟨x, hx⟩ := (abort_emits (c.process .abort)).exists
    exact OneTerminal.not_later h.terminal ho (abort_processed _) hx
  | shutdown =>
    have h0 : c.processed = [] := Classical.not_not.mp ho
    obtain ⟨-, -, -, hsig⟩ := h.fresh h0
    cases ch with
    | grpc =>
      simp only [asyncStep] at hs
      split at hs
      · cases hs
      · cases hs
        unfold OneTerminal
        simp [h0, hsig, Processed.isOk, process]
    | http2 =>
      cases hs
      unfold OneTerminal
      simp [h0, hsig, Processed.isOk, process, disconnect]

/-! ## The condition -/

/-- **One terminal signal.** In a run of one call over either channel, the
reply has emitted, at every point, exactly the one signal the first processed
event asks for, if and only if each step is `Orderly`. -/
theorem one_terminal_iff {ch : CallChannel} {es : List AsyncEvent} {c : AsyncCall}
    (h : exec (asyncStep ch) (.new ch) es = some c) :
    (∀ p c', p <+: es → exec (asyncStep ch) (.new ch) p = some c' → OneTerminal c') ↔
      Along (asyncStep ch) Orderly (.new ch) es :=
  along_iff (I := Wired ch) (fun _ _ _ hw hs ho => hw.step hs ho)
    (fun _ _ _ hw hs ho => hw.disorderly hs ho) (fun _ hw => hw.terminal) h (.new ch)

/-- Completion before the shutdown, a late timer: one `finished`. -/
theorem one_terminal_completed : Orderly (.new .http2) (.replyFinished ⟨none, 0, "", [0, 0, 0, 0, 0]⟩) ∧
    ∀ p c', p <+: [.replyFinished ⟨none, 0, "", [0, 0, 0, 0, 0]⟩, .timeout ⟨none, 0, "", []⟩, .shutdown] →
      exec (asyncStep .http2) (.new .http2) p = some c' → OneTerminal c' := by
  refine ⟨trivial, ?_⟩
  have hr : exec (asyncStep .http2) (.new .http2) [.replyFinished ⟨none, 0, "", [0, 0, 0, 0, 0]⟩,
      .timeout ⟨none, 0, "", []⟩, .shutdown] = some ⟨false, false, false, false, false, false, none, [],
        [.finished], [], [.completed ⟨0, ""⟩, .timeout, .shutdown]⟩ := by decide
  refine (one_terminal_iff hr).mpr ⟨trivial, fun s hs => ⟨trivial, fun s' hs' => ⟨?_, fun _ _ => trivial⟩⟩⟩
  cases hs
  cases hs'
  exact List.cons_ne_nil _ _

/-- A completed call is aborted: `finished`, then `error`. -/
theorem not_one_terminal_abort : ∃ c, exec (asyncStep .grpc) (.new .grpc)
      [.rpcFinished ⟨0, ""⟩ [], .deliver, .abort] = some c ∧
    c.signals = [.finished, .error ⟨10, "Call aborted by user or timeout"⟩] ∧ ¬ OneTerminal c := by
  refine ⟨_, rfl, rfl, fun h => ?_⟩
  have hone : [.finished, .error ⟨10, "Call aborted by user or timeout"⟩] = [Signal.finished] := h
  cases hone

end AsyncCall

end QtProtobuf.Grpc
