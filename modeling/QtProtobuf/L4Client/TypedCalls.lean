import QtProtobuf.L2Codec.FailedDecode
import QtProtobuf.L2Codec.RoundTrip
import QtProtobuf.L2Codec.Decoded
import QtProtobuf.L3Grpc.ReplyData
import QtProtobuf.L3Grpc.Reassembly

/-!
# Calls with messages (`grpc/qabstractgrpcclient.h`)

The templates of `QAbstractGrpcClient` serialize the argument, give the bytes to
the channel and deserialize the answer into the target. Below, a peer behind
`QGrpcHttp2Channel` that answers with messages of its own.

* `call_outcome`: what a synchronous call reports and what it leaves in the
  target; of answers of 2 GiB and those that lead the decoder back, only that the
  target is changed.
* `rpc_outcome`: over HTTP/2 it is the assignment of the peer's answer, to the
  argument or, from a peer that goes by the header, to the default message.
* `stream_updates`: a stream into a target is the assignment of each of the
  peer's messages, in order.
* `reply_read`: what is read from a `QGrpcCallReply` that has finished.

The target of a synchronous call outlives it: the event loop of the channel could
delete it.
-/
namespace QtProtobuf.Grpc

open Lib Codec Http2

variable {M : Type}

/-! ## `tryDeserialize` -/

/-- `error` is emitted with every status but `Ok`. -/
def reported (status : Status) : List Status := if status.ok then [] else [status]

/-- mirrors src/grpc/qabstractgrpcclient.h:242-270: the target `old` becomes the
next argument. `deserialize` throws nothing else. -/
inductive TryDeserialize (S : Schema M) (qt : QtCore) (env : Bytes → Int → UInt8) (ready : Bool) (m : M)
    (old : List (Value M)) (data : Bytes) : List (Value M) → Status → Prop
  | notReady (h : ready = false) : TryDeserialize S qt env ready m old data old
    ⟨2, "Deserializing failed. Serializer is not ready"⟩
  | ok {n : Nat} {new : List (Value M)} (h : ready = true) (hn : data.length < n)
    (hd : Deserialized S qt env n m old data new none) : TryDeserialize S qt env ready m old data new .OK
  | invalidArgument {n : Nat} {new : List (Value M)} (h : ready = true) (hn : data.length < n)
    (hd : Deserialized S qt env n m old data new (some .invalidArgument)) :
    TryDeserialize S qt env ready m old data new
      ⟨3, "Response deserialization failed invalid field found"⟩
  | outOfRange {n : Nat} {new : List (Value M)} (h : ready = true) (hn : data.length < n)
    (hd : Deserialized S qt env n m old data new (some .outOfRange)) :
    TryDeserialize S qt env ready m old data new ⟨11, "Invalid size of received buffer"⟩

/-! ## The synchronous call -/

/-- A channel: does it have a serializer, and what does its `call` answer to a
method of a service and an argument. -/
structure SyncChannel where
  serializer : Bool
  call : String → String → Bytes → Status × Bytes

/-- The status and the target a call leaves; recorded: the emissions of `error`,
and what was given to the channel. -/
structure CallResult (M : Type) where
  status : Status
  errors : List Status
  sent : List Bytes
  ret : Option (List (Value M))

/-- mirrors src/grpc/qabstractgrpcclient.h:101-125, 272-286 and
src/grpc/qabstractgrpcclient.cpp:76-98, 254-260: `call` with the messages `a` and
`r`. Without a channel there is no serializer, and the call ends before the channel
is missed. -/
inductive SyncCall (S : Schema M) (qt : QtCore) (env : Bytes → Int → UInt8) (channel : Option SyncChannel)
    (service method : String) (a r : M) (arg : List (Value M)) :
    Option (List (Value M)) → CallResult M → Prop
  | null {status : Status}
    (h : status = ⟨3, "Unable to call method: " ++ method ++ ". Pointer to return data is null"⟩) :
    SyncCall S qt env channel service method a r arg none ⟨status, [status], [], none⟩
  | notReady {old : List (Value M)} {status : Status} (h : channel.any (·.serializer) = false)
    (hs : status = ⟨2, "Serializing failed. Serializer is not ready"⟩) :
    SyncCall S qt env channel service method a r arg (some old) ⟨status, [status], [], some old⟩
  | failed {old : List (Value M)} {c : SyncChannel} {levels : Nat} {argData retData : Bytes} {status : Status}
    (hc : channel = some c) (h : c.serializer = true)
    (ha : serializeMessage S qt levels a arg = some argData)
    (hr : c.call method service argData = (status, retData)) (hs : status.ok = false) :
    SyncCall S qt env channel service method a r arg (some old) ⟨status, [status], [argData], some old⟩
  | answered {old new : List (Value M)} {c : SyncChannel} {levels : Nat} {argData retData : Bytes}
    {answer status : Status} (hc : channel = some c) (h : c.serializer = true)
    (ha : serializeMessage S qt levels a arg = some argData)
    (hr : c.call method service argData = (answer, retData)) (hs : answer.ok = true)
    (hd : TryDeserialize S qt env c.serializer r old retData new status) :
    SyncCall S qt env channel service method a r arg (some old)
      ⟨status, reported status, [argData], some new⟩

/-- The path of a method: mirrors src/grpc/qgrpchttp2channel.cpp:114-115. -/
def path (service method : String) : String := "/" ++ service ++ "/" ++ method

/-- The body of a request. `args.size()` has 64 bits in Qt 6, which are swapped, and
the `int` takes the low half of the result: the bytes of the upper half of the size.
mirrors src/grpc/qgrpchttp2channel.cpp:134-136 (post) -/
def post (args : Bytes) : Bytes := 0 :: toBigEndian (args.length / 2 ^ 32) ++ args

/-- mirrors src/grpc/qgrpchttp2channel.cpp:113-152, 212-230, 394-398: `server` is
what ends the `QNetworkReply` of a posted request, or stops it. -/
def http2 (server : String → Bytes → NetworkReply) : SyncChannel where
  serializer := true
  call method service args :=
    let networkReply := server (path service method) (post args)
    let (code, ret) := processReply networkReply
    (⟨code, networkReply.grpcMessage⟩, ret)

section
variable {S : Schema M} {qt : QtCore} {env : Bytes → Int → UInt8}

/-- What reaches the target are the records of a front part of the data: of all
the data if the status is `Ok`. -/
theorem TryDeserialize.records {m : M} {old new : List (Value M)} {data : Bytes} {status : Status}
    (h : TryDeserialize S qt env true m old data new status) (hl : data.length < 2 ^ 31)
    (hback : ¬ LeadsBack S qt m (newObject S m) data) :
    ∃ done newValue n, done <+: data ∧
      (deserializeMessage S qt env n m (newObject S m) done).2 = (newValue, none) ∧
      FieldsAgree S new newValue ∧ (status.ok = true → done = data) := by
  cases h with
  | notReady h => cases h
  | ok h hn hd =>
    obtain ⟨newValue, hv, ha⟩ := hd
    exact ⟨data, newValue, _, List.prefix_refl _, hv, ha.agree, fun _ => rfl⟩
  | invalidArgument h hn hd =>
    obtain ⟨newValue, hv, ha⟩ := hd
    obtain ⟨done, rest, rfl, hdone⟩ := consumed_decodes hn hl hv (fun h => by cases h) hback
    exact ⟨done, newValue, _, List.prefix_append _ _, hdone, ha.agree, fun h => by cases h⟩
  | outOfRange h hn hd =>
    obtain ⟨newValue, hv, ha⟩ := hd
    obtain ⟨done, rest, rfl, hdone⟩ := consumed_decodes hn hl hv (fun h => by cases h) hback
    exact ⟨done, newValue, _, List.prefix_append _ _, hdone, ha.agree, fun h => by cases h⟩

/-- **Outcome of a call.** A call reports exactly the status it returns, and `Ok`
not at all. It changes the target only for an answer with `Ok`: to the records of a
front part of the data, of all of it if the call returns `Ok`, unless the data are
too long or lead back. -/
theorem call_outcome {channel : Option SyncChannel} {service method : String} {a r : M}
    {arg : List (Value M)} {ret : Option (List (Value M))} {result : CallResult M}
    (h : SyncCall S qt env channel service method a r arg ret result) :
    result.errors = reported result.status ∧ (result.ret = ret ∨
      ∃ c argData retData answer new, channel = some c ∧ result.sent = [argData] ∧
        c.call method service argData = (answer, retData) ∧ answer.ok = true ∧ result.ret = some new ∧
        (retData.length < 2 ^ 31 → ¬ LeadsBack S qt r (newObject S r) retData →
          ∃ done newValue n, done <+: retData ∧
            (deserializeMessage S qt env n r (newObject S r) done).2 = (newValue, none) ∧
            FieldsAgree S new newValue ∧ (result.status.ok = true → done = retData))) := by
  cases h with
  | null h => exact ⟨by rw [h]; rfl, .inl rfl⟩
  | notReady h hs => exact ⟨by rw [hs]; rfl, .inl rfl⟩
  | failed hc h ha hr hs => exact ⟨by simp [reported, hs], .inl rfl⟩
  | @answered old new c levels argData retData answer status hc h ha hr hs hd =>
    rw [h] at hd
    exact ⟨rfl, .inr ⟨c, argData, retData, answer, new, hc, rfl, hr, hs, rfl, fun hlen hback =>
      hd.records hlen hback⟩⟩

end

/-- The encoding of `nestedFields`. -/
def nestedData : Bytes := [18, 3, 42, 1, 97, 8, 5]

theorem nestedFields_serialized : serializeMessage nestedSchema .ascii 3 false nestedFields = some nestedData := by
  decide

/-- A server that answers after the deadline. -/
theorem call_outcome_timeout : ∃ result, SyncCall nestedSchema .ascii (fun _ _ => 0)
    (some (http2 fun _ _ => ⟨some .timeoutError, 0, "", []⟩)) "Service" "method" false false nestedFields
      (some (newObject nestedSchema false)) result ∧ result.errors = reported result.status := by
  have h : SyncCall nestedSchema .ascii (fun _ _ => 0)
      (some (http2 fun _ _ => ⟨some .timeoutError, 0, "", []⟩)) "Service" "method" false false nestedFields
        (some (newObject nestedSchema false))
        ⟨⟨4, ""⟩, [⟨4, ""⟩], [nestedData], some (newObject nestedSchema false)⟩ :=
    .failed rfl rfl nestedFields_serialized rfl rfl
  exact ⟨_, h, (call_outcome h).1⟩

section
variable {S : Schema M} {qt : QtCore} {env : Bytes → Int → UInt8}

/-- The bytes of a message are decoded to `fs`. -/
def DecodesTo (S : Schema M) (qt : QtCore) (m : M) (data : Bytes) (fs : List (Value M)) : Prop :=
  ∀ env n, data.length < n → (deserializeMessage S qt env n m (newObject S m) data).2 = (fs, none)

/-- What `serializeMessage` writes is decoded to an equal message. -/
theorem decodesTo_serialized {levels : Nat} {m : M} {fs : List (Value M)} {data : Bytes}
    (hv : Typed S qt (.single (.message m)) (.object m fs))
    (hs : serializeMessage S qt levels m fs = some data) (hl : data.length < 2 ^ 31) :
    ∃ fs', DecodesTo S qt m data fs' ∧ Equal S (.object m fs) (.object m fs') := by
  obtain ⟨fs', hr, he⟩ := reads_message hv hs (Nat.lt_succ_self _) hl
  refine ⟨fs', fun env n hn => deserializeMessage_ok (t := []) ?_, he⟩
  rw [message_stable hn, hr]

/-- A message that can be decoded is assigned to the target. -/
theorem tryDeserialize_iff {m : M} {old new fs : List (Value M)} {data : Bytes} {status : Status}
    (hd : DecodesTo S qt m data fs) :
    TryDeserialize S qt env true m old data new status ↔ status = .OK ∧ AssignedFields S old fs new := by
  constructor
  · intro h
    cases h with
    | notReady h => cases h
    | ok h hn h =>
      obtain ⟨newValue, hv, ha⟩ := h
      rw [hd env _ hn] at hv
      cases hv
      exact ⟨rfl, ha⟩
    | invalidArgument h hn h =>
      obtain ⟨newValue, hv, -⟩ := h
      rw [hd env _ hn] at hv
      cases hv
    | outOfRange h hn h =>
      obtain ⟨newValue, hv, -⟩ := h
      rw [hd env _ hn] at hv
      cases hv
  · rintro ⟨rfl, ha⟩
    exact .ok rfl (Nat.lt_succ_self data.length) ⟨fs, hd env _ (Nat.lt_succ_self _), ha⟩

/-! ## A peer behind `QGrpcHttp2Channel` -/

/-- The message in a body, for a peer that takes all behind the header, as the channel
does with an answer. -/
def behindHeader (body : Bytes) : Bytes := body.drop GrpcMessageSizeHeaderSize

/-- The message in a body, for a peer that goes by the size in the header. -/
def announced (body : Bytes) : Bytes :=
  (behindHeader body).take ((body.getD 1 0).toNat * 2 ^ 24 + (body.getD 2 0).toNat * 2 ^ 16 +
    (body.getD 3 0).toNat * 2 ^ 8 + (body.getD 4 0).toNat)

/-- The server implements the method `f`: it decodes the request in the body, and
answers with what `f` makes of it. -/
def Serves (S : Schema M) (qt : QtCore) (unframe : Bytes → Bytes) (server : String → Bytes → NetworkReply)
    (path : String) (a r : M) (f : List (Value M) → List (Value M)) : Prop :=
  ∀ body req, DecodesTo S qt a (unframe body) req → ∃ levels respData message,
    Typed S qt (.single (.message r)) (.object r (f req)) ∧
      serializeMessage S qt levels r (f req) = some respData ∧ respData.length < 2 ^ 31 ∧
      server path body = ⟨none, 0, message, frame respData⟩

/-- The call of a method ends with `Ok`, and the target is assigned an equal of `resp`. -/
def Answers (S : Schema M) (qt : QtCore) (server : String → Bytes → NetworkReply) (service method : String)
    (a r : M) (arg : List (Value M)) (argData : Bytes) (resp : List (Value M)) : Prop :=
  ∃ resp', Equal S (.object r resp) (.object r resp') ∧ ∀ env old result,
    SyncCall S qt env (some (http2 server)) service method a r arg (some old) result ↔
      ∃ new, AssignedFields S old resp' new ∧ result = ⟨.OK, [], [argData], some new⟩

theorem behindHeader_post (args : Bytes) : behindHeader (post args) = args := rfl

/-- No size below 4 GiB is announced. -/
theorem announced_post {args : Bytes} (h : args.length < 2 ^ 32) : announced (post args) = [] := by
  have hzero : args.length / 2 ^ 32 = 0 := Nat.div_eq_of_lt h
  have hheader : post args = 0 :: [0, 0, 0, 0] ++ args := by
    unfold post
    rw [hzero]
    rfl
  simp [announced, hheader]

theorem decodesTo_nil (m : M) : DecodesTo S qt m [] (newObject S m) := fun env n hn => by
  refine deserializeMessage_ok (t := []) ?_
  rw [message_stable hn]
  rfl

theorem http2_call {server : String → Bytes → NetworkReply} {service method message : String}
    {args respData : Bytes}
    (h : server (path service method) (post args) = ⟨none, 0, message, frame respData⟩) :
    (http2 server).call method service args = (⟨0, message⟩, respData) := by
  have hreply : processReply ⟨none, 0, message, frame respData⟩ = (0, respData) := rfl
  unfold http2
  dsimp only
  rw [h, hreply]

/-- A server that has decoded the request answers the call. -/
theorem Serves.answers {a r : M} {arg req : List (Value M)} {levels : Nat} {argData : Bytes}
    {unframe : Bytes → Bytes} {server : String → Bytes → NetworkReply} {service method : String}
    {f : List (Value M) → List (Value M)} (hf : Serves S qt unframe server (path service method) a r f)
    (hs : serializeMessage S qt levels a arg = some argData)
    (hreq : DecodesTo S qt a (unframe (post argData)) req) :
    Answers S qt server service method a r arg argData (f req) := by
  obtain ⟨levels', respData, message, hv, hs', hl', hserver⟩ := hf (post argData) req hreq
  obtain ⟨resp', hresp, her⟩ : ∃ fs', DecodesTo S qt r respData fs' ∧
    Equal S (.object r (f req)) (.object r fs') := decodesTo_serialized hv hs' hl'
  have hcall := http2_call hserver
  refine ⟨resp', her, fun env old result => ⟨fun h => ?_, ?_⟩⟩
  · -- the argument is serialized to the same bytes at any depth
    have hsame : ∀ {n : Nat} {bs : Bytes}, serializeMessage S qt n a arg = some bs → bs = argData := by
      intro n bs hn
      have h₁ := serializeMessage_mono (Nat.le_max_left n levels) hn
      rw [serializeMessage_mono (Nat.le_max_right n levels) hs] at h₁
      cases h₁
      rfl
    cases h with
    | notReady h => cases h
    | failed hc h hn hr hbad =>
      cases hc
      rw [hsame hn, hcall] at hr
      cases hr
      cases hbad
    | answered hc h hn hr hok hd =>
      cases hc
      rw [hsame hn, hcall] at hr
      cases hr
      obtain ⟨rfl, hassigned⟩ := (tryDeserialize_iff hresp).mp hd
      rw [hsame hn]
      exact ⟨_, hassigned, rfl⟩
  · rintro ⟨new, hassigned, rfl⟩
    exact .answered rfl rfl hs hcall rfl ((tryDeserialize_iff hresp).mpr ⟨rfl, hassigned⟩)

/-- **Calls over HTTP/2.** To a server of `f` that takes the body behind the header
for the request, a synchronous call does what `*ret = f(arg)` does: the request is
decoded to a message equal to the argument, and a message equal to the answer is
assigned to the target, with the status `Ok` and without an `error`. The header
announces no bytes: to a server of `f` that goes by it, the call does the same with
the default message instead of the argument. -/
theorem rpc_outcome [Finite M] (hS : Acyclic S) {a r : M} {arg : List (Value M)}
    (ha : Typed S qt (.single (.message a)) (.object a arg)) (service method : String)
    (f : List (Value M) → List (Value M)) :
    ∃ argData levels, serializeMessage S qt levels a arg = some argData ∧
      (argData.length < 2 ^ 31 →
        (∃ arg', Equal S (.object a arg) (.object a arg') ∧
          ∀ server, Serves S qt behindHeader server (path service method) a r f →
            Answers S qt server service method a r arg argData (f arg')) ∧
        ∀ server, Serves S qt announced server (path service method) a r f →
          Answers S qt server service method a r arg argData (f (newObject S a))) := by
  obtain ⟨levels, argData, hs⟩ := serializeMessage_total hS ha
  refine ⟨argData, levels, hs, fun hl => ⟨?_, fun server hf => ?_⟩⟩
  · obtain ⟨arg', harg, hea⟩ : ∃ fs', DecodesTo S qt a argData fs' ∧
      Equal S (.object a arg) (.object a fs') := decodesTo_serialized ha hs hl
    refine ⟨arg', hea, fun server hf => hf.answers hs ?_⟩
    rw [behindHeader_post]
    exact harg
  · refine hf.answers hs ?_
    rw [announced_post (by omega)]
    exact decodesTo_nil a

end

/-- A server that has one answer. -/
def constantServer : String → Bytes → NetworkReply := fun _ _ => ⟨none, 0, "", frame nestedData⟩

theorem constantServer_serves (unframe : Bytes → Bytes) (path : String) :
    Serves nestedSchema .ascii unframe constantServer path false false fun _ => nestedFields :=
  fun _ _ _ => ⟨3, nestedData, "", nestedFields_typed, nestedFields_serialized, by decide, rfl⟩

theorem rpc_outcome_nested : ∃ argData levels,
    serializeMessage nestedSchema .ascii levels false nestedFields = some argData ∧
      (argData.length < 2 ^ 31 →
        Answers nestedSchema .ascii constantServer "Service" "method" false false nestedFields argData
          nestedFields) := by
  obtain ⟨argData, levels, hs, h⟩ :=
    rpc_outcome nestedSchema_acyclic nestedFields_typed "Service" "method" fun _ => nestedFields
  refine ⟨argData, levels, hs, fun hl => ?_⟩
  obtain ⟨⟨-, -, hanswers⟩, -⟩ := h hl
  exact hanswers constantServer (constantServer_serves behindHeader _)

section
variable {S : Schema M} {qt : QtCore} {env : Bytes → Int → UInt8}

/-! ## A stream into a target -/

/-- mirrors src/grpc/qabstractgrpcclient.h:189-199: the handler of a stream with
each message, as long as the target lives, and the errors it reports. -/
inductive Updates (S : Schema M) (qt : QtCore) (env : Bytes → Int → UInt8) (m : M) :
    List (Value M) → List Bytes → List (List (Value M)) → List Status → Prop
  | nil (old : List (Value M)) : Updates S qt env m old [] [] []
  | cons {old new : List (Value M)} {data : Bytes} {status : Status} {datas : List Bytes}
    {news : List (List (Value M))} {errors : List Status}
    (h : TryDeserialize S qt env true m old data new status)
    (hr : Updates S qt env m new datas news errors) :
    Updates S qt env m old (data :: datas) (new :: news) (reported status ++ errors)

/-- `*ret = fs` for each `fs`, one after the other, and what `ret` is each time. -/
inductive AssignedEach (S : Schema M) : List (Value M) → List (List (Value M)) → List (List (Value M)) → Prop
  | nil (old : List (Value M)) : AssignedEach S old [] []
  | cons {old new fs : List (Value M)} {fss news : List (List (Value M))} (h : AssignedFields S old fs new)
    (hr : AssignedEach S new fss news) : AssignedEach S old (fs :: fss) (new :: news)

theorem AssignedEach.agree {old : List (Value M)} {fss news : List (List (Value M))}
    (h : AssignedEach S old fss news) : List.Forall₂ (FieldsAgree S) news fss := by
  induction h with
  | nil => exact .nil
  | cons h _ ih => exact .cons h.agree ih

/-- Messages that can be decoded are assigned one after the other. -/
theorem updates_iff {m : M} {datas : List Bytes} {fss : List (List (Value M))}
    (hd : List.Forall₂ (DecodesTo S qt m) datas fss) {old : List (Value M)} {news : List (List (Value M))}
    {errors : List Status} :
    Updates S qt env m old datas news errors ↔ errors = [] ∧ AssignedEach S old fss news := by
  induction hd generalizing old news errors with
  | nil =>
    constructor
    · intro h
      cases h
      exact ⟨rfl, .nil old⟩
    · rintro ⟨rfl, h⟩
      cases h
      exact .nil old
  | cons hd _ ih =>
    constructor
    · intro h
      cases h with
      | cons h hr =>
        obtain ⟨rfl, ha⟩ := (tryDeserialize_iff hd).mp h
        obtain ⟨rfl, hrest⟩ := ih.mp hr
        exact ⟨rfl, .cons ha hrest⟩
    · rintro ⟨rfl, h⟩
      cases h with
      | cons h hr => exact .cons ((tryDeserialize_iff hd).mpr ⟨rfl, h⟩) (ih.mpr ⟨rfl, hr⟩)

/-- The messages of a stream, serialized and decoded. -/
theorem exists_decoded [Finite M] (hS : Acyclic S) {m : M} {resps : List (List (Value M))}
    (hv : ∀ fs ∈ resps, Typed S qt (.single (.message m)) (.object m fs)) :
    ∃ msgs, List.Forall₂ (fun fs data => ∃ levels, serializeMessage S qt levels m fs = some data) resps msgs ∧
      ((∀ data ∈ msgs, data.length < 2 ^ 31) → ∃ reads,
        List.Forall₂ (fun fs fs' => Equal S (.object m fs) (.object m fs')) resps reads ∧
          List.Forall₂ (DecodesTo S qt m) msgs reads) := by
  induction resps with
  | nil => exact ⟨[], .nil, fun _ => ⟨[], .nil, .nil⟩⟩
  | cons fs resps ih =>
    have hfs := hv fs List.mem_cons_self
    obtain ⟨levels, data, hs⟩ := serializeMessage_total hS hfs
    obtain ⟨msgs, hmsgs, hreads⟩ := ih fun fs' h => hv fs' (List.mem_cons_of_mem fs h)
    refine ⟨data :: msgs, .cons ⟨levels, hs⟩ hmsgs, fun hl => ?_⟩
    obtain ⟨fs', hd, he⟩ : ∃ fs', DecodesTo S qt m data fs' ∧ Equal S (.object m fs) (.object m fs') :=
      decodesTo_serialized hfs hs (hl data List.mem_cons_self)
    obtain ⟨reads, hequal, hdecode⟩ := hreads fun d hd => hl d (List.mem_cons_of_mem data hd)
    exact ⟨fs' :: reads, .cons he hequal, .cons hd hdecode⟩

/-- **Streams are assignments.** The messages that a server frames and sends in
chunks that `CutsOk` allows are assigned to the target of the stream one after the
other, without an `error`: each is equal to the one sent, none is lost, doubled or
out of order, and none waits for a chunk after the one that completes it. -/
theorem stream_updates [Finite M] (hS : Acyclic S) {m : M} {resps : List (List (Value M))}
    (hv : ∀ fs ∈ resps, Typed S qt (.single (.message m)) (.object m fs)) :
    ∃ msgs, List.Forall₂ (fun fs data => ∃ levels, serializeMessage S qt levels m fs = some data) resps msgs ∧
      ((∀ data ∈ msgs, data.length ≤ 2 ^ 31 - 6) → ∃ reads,
        List.Forall₂ (fun fs fs' => Equal S (.object m fs) (.object m fs')) resps reads ∧
          ∀ mem chunks, (∀ d ∈ chunks, d ≠ []) → chunks.flatten = wire msgs →
            CutsOk (msgs.map List.length) (chunks.map List.length) → ∃ fuel, ∀ done rest,
              chunks = done ++ rest → ∃ s k, run mem fuel .new done = some s ∧
                (∀ i ≤ msgs.length, start (msgs.map List.length) i ≤ done.flatten.length → i ≤ k) ∧
                ∀ env old news errors, Updates S qt env m old s.handled news errors ↔
                  errors = [] ∧ AssignedEach S old (reads.take k) news) := by
  obtain ⟨msgs, hmsgs, hreads⟩ := exists_decoded hS hv
  refine ⟨msgs, hmsgs, fun hl => ?_⟩
  obtain ⟨reads, hequal, hdecode⟩ := hreads fun data hd => by
    have h := hl data hd
    omega
  refine ⟨reads, hequal, fun mem chunks hne hflat hcuts =>
    ⟨(wire msgs).length + 1, fun done rest hsplit => ?_⟩⟩
  obtain ⟨s, k, c, size, hs, hsync⟩ := run_synced mem hl hne hflat hcuts done rest hsplit
  refine ⟨s, k, hs, fun i hi hp => hsync.complete hi hp, fun env old news errors => ?_⟩
  rw [hsync.handled]
  exact updates_iff (List.forall₂_take k hdecode)

end

theorem stream_updates_nested : ∃ msgs, List.Forall₂ (fun fs data => ∃ levels,
    serializeMessage nestedSchema .ascii levels false fs = some data) [nestedFields, nestedFields] msgs ∧
      ((∀ data ∈ msgs, data.length ≤ 2 ^ 31 - 6) → ∃ reads,
        List.Forall₂ (fun fs fs' => Equal nestedSchema (.object false fs) (.object false fs'))
          [nestedFields, nestedFields] reads ∧
          ∀ mem chunks, (∀ d ∈ chunks, d ≠ []) → chunks.flatten = wire msgs →
            CutsOk (msgs.map List.length) (chunks.map List.length) → ∃ fuel, ∀ done rest,
              chunks = done ++ rest → ∃ s k, run mem fuel .new done = some s ∧
                (∀ i ≤ msgs.length, start (msgs.map List.length) i ≤ done.flatten.length → i ≤ k) ∧
                ∀ env old news errors, Updates nestedSchema .ascii env false old s.handled news errors ↔
                  errors = [] ∧ AssignedEach nestedSchema old (reads.take k) news) := by
  refine stream_updates nestedSchema_acyclic fun fs hfs => ?_
  rcases List.mem_cons.mp hfs with rfl | hfs
  · exact nestedFields_typed
  · rw [List.mem_singleton.mp hfs]
    exact nestedFields_typed

section
variable {S : Schema M} {qt : QtCore} {env : Bytes → Int → UInt8}

/-! ## A reply that has finished -/

/-- A default value is compared with another one through no pointers. -/
theorem not_meetsNull_default {t : FieldType M} {v w : Value M} (h : MeetsNull S v w) (hv : v = t.default)
    (hw : HasType S t w) : False := by
  induction h generalizing t with
  | here hm hn =>
    subst hv
    cases hw <;> cases hm
    · cases hn with
      | pointer hp => cases hp
      | pointee hp => cases hp
    · cases hn with
      | pointer hp => cases hp
      | pointee hp => cases hp
  | @inside v w m i b hm hs hb hn ih =>
    subst hv
    cases hw <;> cases hm
    · exact hs (.unset m m)
    · rename_i fs hl hty
      have hlt : i < (S m).properties.length := hl ▸ (List.getElem?_eq_some_iff.mp hb).1
      have hget := List.getElem?_eq_getElem hlt
      refine ih ?_ (hty i _ b hget hb)
      show (newObject S m).getD i b = _
      rw [List.getD_eq_getElem?_getD]
      unfold newObject
      rw [List.getElem?_map, hget]
      rfl

/-- A message is assigned to a new object without meeting a null pointer. -/
theorem exists_assigned_new {m : M} {fs : List (Value M)} (h : HasType S (.single (.message m)) (.object m fs)) :
    ∃ r, AssignedFields S (newObject S m) fs r := by
  refine exists_assigned_iff.mpr ?_
  rintro ⟨i, b, hb, hn⟩
  cases h with
  | object _ hl hty =>
    have hlt : i < (S m).properties.length := hl ▸ (List.getElem?_eq_some_iff.mp hb).1
    have hget := List.getElem?_eq_getElem hlt
    refine not_meetsNull_default hn ?_ (hty i _ b hget hb)
    rw [List.getD_eq_getElem?_getD]
    unfold newObject
    rw [List.getElem?_map, hget]
    rfl

/-- **Reading a reply** (src/grpc/qgrpcasyncoperationbase_p.h:54-64). If the
response of the RPC is a message of the peer's, `read` gives an equal message once
`finished` was emitted, whatever timers, SSL errors and network errors there were,
as long as nobody aborted the call or destroyed the channel. -/
theorem reply_read [Finite M] (hS : Acyclic S) {m : M} {fs : List (Value M)}
    (hv : Typed S qt (.single (.message m)) (.object m fs)) :
    ∃ data levels, serializeMessage S qt levels m fs = some data ∧ (data.length < 2 ^ 31 →
      ∃ fs', Equal S (.object m fs) (.object m fs') ∧ ∀ ch es c,
        exec (asyncStep ch) (.new ch) es = some c → (∀ e ∈ es, e ≠ .abort ∧ e ≠ .shutdown) →
        (∀ e ∈ es, ∀ d, e.response = some d → d = data) → .finished ∈ c.signals → ∀ env,
        (∃ value, TryDeserialize S qt env true m (newObject S m) c.data value .OK) ∧
          ∀ value status, TryDeserialize S qt env true m (newObject S m) c.data value status →
            status = .OK ∧ FieldsAgree S value fs') := by
  obtain ⟨levels, data, hs⟩ := serializeMessage_total hS hv
  refine ⟨data, levels, hs, fun hl => ?_⟩
  obtain ⟨fs', hd, he⟩ : ∃ fs', DecodesTo S qt m data fs' ∧ Equal S (.object m fs) (.object m fs') :=
    decodesTo_serialized hv hs hl
  refine ⟨fs', he, fun ch es c hrun hes hresp hf env => ?_⟩
  obtain ⟨e, hmem, hr⟩ := (AsyncCall.exec_undisturbed hrun fun e he => (hes e he).1).finished hf
  rw [hresp e hmem c.data hr]
  refine ⟨?_, fun value status h => ?_⟩
  · have hty := deserializeMessage_hasType (hd env _ (Nat.lt_succ_self _))
    obtain ⟨value, ha⟩ := exists_assigned_new hty
    exact ⟨value, (tryDeserialize_iff hd).mpr ⟨rfl, ha⟩⟩
  · obtain ⟨rfl, ha⟩ := (tryDeserialize_iff hd).mp h
    exact ⟨rfl, ha.agree⟩

end

theorem reply_read_nested : ∃ data levels,
    serializeMessage nestedSchema .ascii levels false nestedFields = some data ∧ (data.length < 2 ^ 31 →
      ∃ fs', Equal nestedSchema (.object false nestedFields) (.object false fs') ∧ ∀ ch es c,
        exec (asyncStep ch) (.new ch) es = some c → (∀ e ∈ es, e ≠ .abort ∧ e ≠ .shutdown) →
        (∀ e ∈ es, ∀ d, e.response = some d → d = data) → .finished ∈ c.signals → ∀ env,
        (∃ value, TryDeserialize nestedSchema .ascii env true false (newObject nestedSchema false) c.data
          value .OK) ∧ ∀ value status,
          TryDeserialize nestedSchema .ascii env true false (newObject nestedSchema false) c.data value status →
            status = .OK ∧ FieldsAgree nestedSchema value fs') :=
  reply_read nestedSchema_acyclic nestedFields_typed

end QtProtobuf.Grpc
