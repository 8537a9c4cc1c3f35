import QtProtobuf.Core.Lts
import QtProtobuf.Core.Bytes
import Mathlib.Data.List.Nodup
import Mathlib.Data.List.Perm.Basic

/-!
# `QAbstractGrpcClient`: streams, channel RPCs and retry timers

`stream` / `streamBidirect` (`grpc/qabstractgrpcclient.cpp:134-252`), the two
handlers they connect to the stream object, and what the two channels make of
`stream(QGrpcStream *)` and of the end of an RPC
(`grpc/qgrpcchannel.cpp:549-743`, `grpc/qgrpchttp2channel.cpp:263-386`).

Stream objects, named by their number, are `QGrpcStream` and
`QGrpcStreamBidirect` alike. An object lives while a `shared_ptr` to it does:
in the lambdas of the two connections (and the list) until `finished`, and in
the hands of the user. `rpcs` holds, for each channel RPC still connected to
its stream, that stream; `timers` the streams the armed one-second timers
refer to by `weak_ptr`.

* `Listed.reachable`: the lists hold exactly the objects whose handlers are
  connected, without two equal ones.
-/
namespace QtProtobuf.Grpc

open Lib

inductive StreamKind where
  | server | bidirect
  deriving DecidableEq, Repr

/-- `QGrpcChannel`, or `QGrpcHttp2Channel` in a build with or without
`Q_ASSERT`. -/
inductive Channel where
  | grpc
  | http2 (asserts : Bool)
  deriving DecidableEq, Repr

/-- A `QGrpcStream` (src/grpc/qgrpcstream.h:103-107) or `QGrpcStreamBidirect`;
`method` as `method()` gives it back, `arg` empty for the latter. `finished` counts the
emissions of the signal, `connected`: the client's two handlers are connected,
`held`: the user keeps a returned pointer. -/
structure GrpcStream where
  kind : StreamKind
  method : Bytes
  arg : Bytes
  handlers : List Nat
  data : Bytes
  finished : Nat
  connected : Bool
  held : Bool
  deriving DecidableEq, Repr

namespace GrpcStream

/-- mirrors src/grpc/qgrpcstream.h:92-95, src/grpc/qgrpcstreambidirect.h:86-88
(operator ==) -/
def eq (self other : GrpcStream) : Bool :=
  match self.kind with
  | .server => other.method == self.method && other.arg == self.arg
  | .bidirect => other.method == self.method

/-- mirrors src/grpc/qgrpcstream.cpp:42-47; `none` is an empty `std::function`. -/
def addHandler (s : GrpcStream) (handler : Option Nat) : GrpcStream :=
  match handler with
  | some h => { s with handlers := s.handlers ++ [h] }
  | none => s

/-- mirrors src/grpc/qgrpcstream.cpp:32-40, src/grpc/qgrpcstreambidirect.cpp:34-42
(constructors); the caller connects the handlers and returns the pointer. -/
def new (kind : StreamKind) (method arg : Bytes) (handler : Option Nat) : GrpcStream :=
  addHandler ⟨kind, method, arg, [], [], 0, true, true⟩ handler

def alive (s : GrpcStream) : Bool := s.connected || s.held

end GrpcStream

/-- The members of `QAbstractGrpcClientPrivate` that the streams use, the
stream objects made so far, the live RPCs and the armed timers. Recorded for
the statements: `opened`, the streams handed to `channel->stream`; `handled`,
each run of a handler on a message; `errors`, the streams whose error the
client reported. -/
structure Client where
  objects : List GrpcStream
  activeStreams : List Nat
  activeStreamsBidirect : List Nat
  rpcs : List Nat
  timers : List Nat
  opened : List Nat
  handled : List (Nat × Nat × Bytes)
  errors : List Nat
  deriving DecidableEq, Repr

/-- How the underlying RPC ends: the status the channel reports, or for
`QNetworkReply` a network error. -/
inductive RpcEnd where
  | ok | failed | remoteHostClosed
  deriving DecidableEq, Repr

namespace Client

def new : Client := ⟨[], [], [], [], [], [], [], []⟩

def active (c : Client) : StreamKind → List Nat
  | .server => c.activeStreams
  | .bidirect => c.activeStreamsBidirect

def setActive (c : Client) (k : StreamKind) (l : List Nat) : Client :=
  match k with
  | .server => { c with activeStreams := l }
  | .bidirect => { c with activeStreamsBidirect := l }

def update (c : Client) (i : Nat) (f : GrpcStream → GrpcStream) : Client :=
  { c with objects := c.objects.modify i f }

/-- The predicate of the `find_if` calls: element `j` equals `s`. -/
def equals (c : Client) (s : GrpcStream) (j : Nat) : Bool := c.objects[j]?.any (·.eq s)

def alive (c : Client) (i : Nat) : Bool := c.objects[i]?.any (·.alive)

def connected (c : Client) (i : Nat) : Bool := c.objects[i]?.any (·.connected)

def hasFinished (c : Client) (i : Nat) : Bool := c.objects[i]?.any (0 < ·.finished)

def held (c : Client) (i : Nat) : Bool := c.objects[i]?.any (·.held)

/-! ## The channels -/

/-- mirrors src/grpc/qgrpcchannel.cpp:549-743, src/grpc/qgrpchttp2channel.cpp:
263-386 (stream); a stopped program has no next state. -/
def channelStream (ch : Channel) (c : Client) (i : Nat) : Option Client :=
  let c' := { c with opened := c.opened ++ [i] }
  match ch, c.objects[i]?.map GrpcStream.kind with
  | .http2 asserts, some .bidirect => if asserts then none else some c'
  | _, _ => some { c' with rpcs := c.rpcs ++ [i] }

/-! ## The signals of a stream -/

/-- `error`: the client reports it and arms a retry timer, while its handler is
connected (src/grpc/qabstractgrpcclient.cpp:156-169, 216-229). -/
def emitError (c : Client) (i : Nat) : Client :=
  if c.connected i then { c with errors := c.errors ++ [i], timers := c.timers ++ [i] } else c

/-- The finished handler of the client: the first equal element leaves the
list, both handlers are disconnected (src/grpc/qabstractgrpcclient.cpp:171-184,
231-244). -/
def onFinished (c : Client) (i : Nat) : Client :=
  match c.objects[i]? with
  | some s =>
    if s.connected then
      (c.setActive s.kind ((c.active s.kind).eraseP (c.equals s))).update i
        fun s => { s with connected := false }
    else c
  | none => c

/-- `finished`: the handler of the client, then those of the RPCs of this
stream, which disconnect and cancel it (src/grpc/qgrpcchannel.cpp:587-602,
src/grpc/qgrpchttp2channel.cpp:374-386). -/
def emitFinished (c : Client) (i : Nat) : Client :=
  let c := (c.update i fun s => { s with finished := s.finished + 1 }).onFinished i
  { c with rpcs := c.rpcs.filter (· != i) }

/-! ## Calls of the user and events -/

/-- The common body of `stream` and `streamBidirect`: the object `s` is made
before the look-up, and dropped when an equal element exists. -/
def subscribe (ch : Channel) (c : Client) (s : GrpcStream) (handler : Option Nat) :
    Option (Client × Nat) :=
  match (c.active s.kind).find? (c.equals s) with
  | some i => some (c.update i fun a => { a.addHandler handler with held := true }, i)
  | none =>
    let i := c.objects.length
    match ({ c with objects := c.objects ++ [s] }.channelStream ch i) with
    | some c => some (c.setActive s.kind (c.active s.kind ++ [i]), i)
    | none => none

/-- mirrors src/grpc/qabstractgrpcclient.cpp:194-252 -/
def stream (ch : Channel) (c : Client) (method arg : Bytes) (handler : Option Nat) :
    Option (Client × Nat) := c.subscribe ch (.new .server method arg handler) handler

/-- mirrors src/grpc/qabstractgrpcclient.cpp:134-192; `QGrpcStreamBidirect`
does not keep `arg`. -/
def streamBidirect (ch : Channel) (c : Client) (method : Bytes) (handler : Option Nat) :
    Option (Client × Nat) := c.subscribe ch (.new .bidirect method [] handler) handler

/-- The user lets go of stream `i`; an object nothing refers to is deleted, and
its RPCs with it. -/
def drop (c : Client) (i : Nat) : Client :=
  let c := c.update i fun s => { s with held := false }
  if c.alive i then c else { c with rpcs := c.rpcs.filter (· != i) }

/-- mirrors src/grpc/qgrpcstream.h:84-90 (handler) -/
def handler (c : Client) (i : Nat) (data : Bytes) : Client :=
  match c.objects[i]? with
  | some s =>
    { c.update i fun s => { s with data := data } with
      handled := c.handled ++ s.handlers.map fun h => (i, h, data) }
  | none => c

/-- What a channel does when the RPC of stream `i` has ended: mirrors
src/grpc/qgrpcchannel.cpp:570-585, src/grpc/qgrpchttp2channel.cpp:336-372. -/
def rpcFinished (ch : Channel) (c : Client) (i : Nat) (how : RpcEnd) : Option Client :=
  match ch, how with
  | .grpc, .ok => some c
  | .grpc, _ => some (c.emitError i)
  | .http2 _, .ok => some (c.emitFinished i)
  | .http2 _, .remoteHostClosed => c.channelStream ch i
  | .http2 _, .failed => some (c.emitError i)

/-- The retry timer: `weak_ptr::lock` alone decides. -/
def timeout (ch : Channel) (c : Client) (i : Nat) : Option Client :=
  if c.alive i then c.channelStream ch i else some c

end Client

/-- What happens to a client between two turns of the event loop; RPCs and
timers are named by their place in `rpcs` and `timers`. -/
inductive ClientEvent where
  | stream (method arg : Bytes) (handler : Option Nat)
  | streamBidirect (method : Bytes) (handler : Option Nat)
  | drop (i : Nat)
  | message (r : Nat) (data : Bytes)
  | rpcFinished (r : Nat) (how : RpcEnd)
  | writeFails (i : Nat)
  | abort (i : Nat)
  | timeout (t : Nat)
  deriving DecidableEq, Repr

open Client in
/-- `none`: the event cannot happen (no such object, RPC or timer), or it stops
the program. -/
def clientStep (ch : Channel) (c : Client) : ClientEvent → Option Client
  | .stream method arg handler => (c.stream ch method arg handler).map (·.1)
  | .streamBidirect method handler => (c.streamBidirect ch method handler).map (·.1)
  | .drop i => if c.held i then some (c.drop i) else none
  | .message r data => c.rpcs[r]?.map fun i => c.handler i data
  | .rpcFinished r how =>
    c.rpcs[r]?.bind fun i => rpcFinished ch { c with rpcs := c.rpcs.eraseIdx r } i how
  | .writeFails i =>
    if c.alive i ∧ c.objects[i]?.map GrpcStream.kind = some .bidirect then some (c.emitError i) else none
  | .abort i => if c.alive i then some (c.emitFinished i) else none
  | .timeout t => c.timers[t]?.bind fun i => timeout ch { c with timers := c.timers.eraseIdx t } i

/-- A client attached to `ch`, from its construction on. -/
def clientLts (ch : Channel) : LTS Client ClientEvent := .ofFn .new (clientStep ch)

/-! ## What the operations leave alone -/

namespace GrpcStream

/-- What `operator ==` looks at. -/
def ident (s : GrpcStream) : StreamKind × Bytes × Bytes :=
  (s.kind, s.method, match s.kind with | .server => s.arg | .bidirect => [])

theorem eq_iff {a b : GrpcStream} (h : a.kind = b.kind) : a.eq b = true ↔ a.ident = b.ident := by
  unfold eq ident
  rw [← h]
  cases a.kind with
  | server =>
    simp only [Bool.and_eq_true, beq_iff_eq, Prod.mk.injEq, true_and]
    exact and_congr eq_comm eq_comm
  | bidirect =>
    simp only [beq_iff_eq, Prod.mk.injEq, true_and, and_true]
    exact eq_comm

variable (s : GrpcStream) (h : Option Nat)

@[simp] theorem addHandler_kind : (s.addHandler h).kind = s.kind := by cases h <;> rfl
@[simp] theorem addHandler_finished : (s.addHandler h).finished = s.finished := by cases h <;> rfl
@[simp] theorem addHandler_connected : (s.addHandler h).connected = s.connected := by
  cases h <;> rfl
@[simp] theorem addHandler_held : (s.addHandler h).held = s.held := by cases h <;> rfl
@[simp] theorem addHandler_ident : (s.addHandler h).ident = s.ident := by cases h <;> rfl

end GrpcStream

namespace Client

section Frame
variable (c : Client) (k k' : StreamKind) (l : List Nat) (i j : Nat) (f : GrpcStream → GrpcStream)

@[simp] theorem active_setActive :
    (c.setActive k l).active k' = if k = k' then l else c.active k' := by
  cases k <;> cases k' <;> rfl

@[simp] theorem setActive_objects : (c.setActive k l).objects = c.objects := by cases k <;> rfl
@[simp] theorem setActive_rpcs : (c.setActive k l).rpcs = c.rpcs := by cases k <;> rfl
@[simp] theorem setActive_timers : (c.setActive k l).timers = c.timers := by cases k <;> rfl
@[simp] theorem setActive_opened : (c.setActive k l).opened = c.opened := by cases k <;> rfl

@[simp] theorem update_active : (c.update i f).active k = c.active k := by cases k <;> rfl
@[simp] theorem update_rpcs : (c.update i f).rpcs = c.rpcs := rfl
@[simp] theorem update_timers : (c.update i f).timers = c.timers := rfl
@[simp] theorem update_opened : (c.update i f).opened = c.opened := rfl

@[simp] theorem update_get : (c.update i f).objects[j]? =
    if i = j then c.objects[j]?.map f else c.objects[j]? := by
  show (c.objects.modify i f)[j]? = _
  rw [List.getElem?_modify]
  split <;> simp

@[simp] theorem update_length : (c.update i f).objects.length = c.objects.length :=
  List.length_modify ..

end Frame

/-! ## The lists of active streams -/

def ident (c : Client) (i : Nat) : Option (StreamKind × Bytes × Bytes) :=
  c.objects[i]?.map GrpcStream.ident

/-- The lists hold exactly the objects with connected handlers, no two of them
equal, and these are the ones that have not finished; an RPC belongs to an
object that is alive. -/
structure Listed (c : Client) : Prop where
  mem : ∀ k i, i ∈ c.active k ↔ ∃ s : GrpcStream, c.objects[i]? = some s ∧ s.kind = k ∧ s.connected = true
  keys : ∀ k, ((c.active k).map c.ident).Nodup
  fin : ∀ (i : Nat) (s : GrpcStream), c.objects[i]? = some s → (s.connected = true ↔ s.finished = 0)
  rpcs : ∀ i ∈ c.rpcs, c.alive i = true
  timers : ∀ i ∈ c.timers, i < c.objects.length

theorem Listed.new : Client.new.Listed where
  mem k i := by cases k <;> simp [Client.new, active]
  keys k := by cases k <;> simp [Client.new, active]
  fin i s h := by simp [Client.new] at h
  rpcs i h := by simp [Client.new] at h
  timers i h := by simp [Client.new] at h

theorem lt_of_alive {c : Client} {i : Nat} (h : c.alive i = true) : i < c.objects.length := by
  unfold alive at h
  cases hi : c.objects[i]? with
  | none => rw [hi] at h; cases h
  | some s => exact (List.getElem?_eq_some_iff.mp hi).1

/-- An element equal to a listed object is that object. -/
theorem Listed.equals_iff {c : Client} (h : c.Listed) {i : Nat} {s t : GrpcStream}
    (hi : c.objects[i]? = some s) (hc : s.connected = true) (ht : t.ident = s.ident) {j : Nat}
    (hj : j ∈ c.active s.kind) : c.equals t j = true ↔ j = i := by
  obtain ⟨a, ha, hak, -⟩ := (h.mem _ _).mp hj
  have hkind : a.kind = t.kind := hak.trans (congrArg Prod.fst ht).symm
  have hmem : i ∈ c.active s.kind := (h.mem _ _).mpr ⟨s, hi, rfl, hc⟩
  unfold equals
  rw [ha, Option.any_some, GrpcStream.eq_iff hkind, ht]
  constructor
  · intro he
    refine List.inj_on_of_nodup_map (h.keys s.kind) hj hmem ?_
    simp only [ident, ha, hi, Option.map_some, he]
  · rintro rfl
    rw [Option.some.inj (ha.symm.trans hi)]

theorem eraseP_eq_filter {l : List Nat} {p : Nat → Bool} {i : Nat} (hl : l.Nodup)
    (hp : ∀ j ∈ l, p j = true ↔ j = i) : l.eraseP p = l.filter (· != i) := by
  rw [← List.Nodup.erase_eq_filter hl]
  induction l with
  | nil => rfl
  | cons a l ih =>
    have ha := hp a List.mem_cons_self
    rw [List.eraseP_cons, List.erase_cons]
    by_cases hai : a = i
    · rw [ha.mpr hai, hai, beq_self_eq_true, if_pos rfl, cond_true]
    · have hpa : p a = false := Bool.eq_false_iff.mpr fun hc => hai (ha.mp hc)
      rw [hpa, cond_false, if_neg (by simpa using hai)]
      rw [ih (List.nodup_cons.mp hl).2 fun j hj => hp j (List.mem_cons_of_mem _ hj)]

theorem filter_ne_of_not_mem {l : List Nat} {i : Nat} (h : i ∉ l) : l.filter (· != i) = l :=
  List.filter_eq_self.mpr fun _ hj => bne_iff_ne.mpr fun hji => h (hji ▸ hj)

/-- **Removal.** `finished` of a stream takes that stream off its list and no
other, and disconnects its RPCs. -/
theorem Listed.emitFinished_active {c : Client} (h : c.Listed) (i : Nat) (k : StreamKind) :
    (c.emitFinished i).active k = (c.active k).filter (· != i) := by
  have hrec : ∀ c : Client, ({ c with rpcs := c.rpcs.filter (· != i) } : Client).active k = c.active k :=
    fun c => by cases k <;> rfl
  unfold emitFinished
  rw [hrec]
  unfold onFinished
  cases hi : c.objects[i]? with
  | none =>
    have hn : i ∉ c.active k := fun hm => by
      obtain ⟨s, hs, -⟩ := (h.mem _ _).mp hm
      cases hi.symm.trans hs
    simp only [update_get, if_true, hi, Option.map_none, update_active, filter_ne_of_not_mem hn]
  | some s =>
    simp only [update_get, if_true, hi, Option.map_some]
    split
    · rename_i hc
      have hc : s.connected = true := hc
      simp only [update_active, active_setActive]
      split
      · rename_i hk
        rw [← hk]
        refine eraseP_eq_filter (List.Nodup.of_map _ (h.keys s.kind)) fun j hj => ?_
        rw [← h.equals_iff hi hc rfl hj]
        unfold equals
        rw [update_get]
        split
        · cases c.objects[j]? <;> rfl
        · rfl
      · rename_i hk
        refine (filter_ne_of_not_mem fun hm => hk ?_).symm
        obtain ⟨t, ht, htk, -⟩ := (h.mem _ _).mp hm
        rw [← htk, ← Option.some.inj (hi.symm.trans ht)]
    · rename_i hc
      refine (filter_ne_of_not_mem fun hm => hc ?_).symm
      obtain ⟨t, ht, -, htc⟩ := (h.mem _ _).mp hm
      rw [← htc, ← Option.some.inj (hi.symm.trans ht)]

/-! ## Each operation keeps the lists -/

/-- What the invariant reads of an object. -/
def shape (s : GrpcStream) : (StreamKind × Bytes × Bytes) × Bool × Nat :=
  (s.ident, s.connected, s.finished)

theorem get_shape {c c' : Client} (hs : c'.objects.map shape = c.objects.map shape) (i : Nat) :
    c'.objects[i]?.map shape = c.objects[i]?.map shape := by
  rw [← List.getElem?_map, hs, List.getElem?_map]

theorem shape_of_get {c c' : Client} (hs : c'.objects.map shape = c.objects.map shape) {i : Nat}
    {s' : GrpcStream} (hi : c'.objects[i]? = some s') :
    ∃ s, c.objects[i]? = some s ∧ shape s = shape s' := by
  have h := get_shape hs i
  rw [hi, Option.map_some] at h
  exact Option.map_eq_some_iff.mp h.symm

/-- The operations that neither finish a stream nor make one. -/
theorem Listed.congr {c c' : Client} (h : c.Listed)
    (hs : c'.objects.map shape = c.objects.map shape) (ha : ∀ k, c'.active k = c.active k)
    (hr : ∀ i ∈ c'.rpcs, c'.alive i = true) (ht : ∀ i ∈ c'.timers, i < c.objects.length) :
    c'.Listed := by
  refine ⟨fun k i => ?_, fun k => ?_, fun i s' hi => ?_, hr, fun i hi => ?_⟩
  · rw [ha, h.mem]
    constructor
    · rintro ⟨s, hi, hk, hc⟩
      obtain ⟨s', hi', he⟩ := shape_of_get hs.symm hi
      refine ⟨s', hi', ?_, ?_⟩
      · rw [← hk]; exact congrArg (fun x => x.1.1) he
      · rw [← hc]; exact congrArg (fun x => x.2.1) he
    · rintro ⟨s', hi', hk, hc⟩
      obtain ⟨s, hi, he⟩ := shape_of_get hs hi'
      refine ⟨s, hi, ?_, ?_⟩
      · rw [← hk]; exact congrArg (fun x => x.1.1) he
      · rw [← hc]; exact congrArg (fun x => x.2.1) he
  · have hid : c'.ident = c.ident := by
      funext i
      have hi := congrArg (Option.map Prod.fst) (get_shape hs i)
      rw [Option.map_map, Option.map_map] at hi
      exact hi
    rw [ha, hid]
    exact h.keys k
  · obtain ⟨s, hi', he⟩ := shape_of_get hs hi
    have hc : s.connected = s'.connected := congrArg (fun x => x.2.1) he
    have hf : s.finished = s'.finished := congrArg (fun x => x.2.2) he
    rw [← hc, ← hf]
    exact h.fin i s hi'
  · have hl := congrArg List.length hs
    rw [List.length_map, List.length_map] at hl
    rw [hl]
    exact ht i hi

theorem update_shape (c : Client) (i : Nat) {f : GrpcStream → GrpcStream}
    (hf : ∀ s, shape (f s) = shape s) :
    (c.update i f).objects.map shape = c.objects.map shape := by
  refine List.ext_getElem? fun j => ?_
  rw [List.getElem?_map, List.getElem?_map, update_get]
  split
  · cases c.objects[j]? with
    | none => rfl
    | some s => exact congrArg some (hf s)
  · rfl

theorem update_alive (c : Client) (i j : Nat) {f : GrpcStream → GrpcStream}
    (hf : ∀ s, s.alive = true → (f s).alive = true) (hj : c.alive j = true) :
    (c.update i f).alive j = true := by
  unfold alive at hj ⊢
  rw [update_get]
  cases hs : c.objects[j]? with
  | none => rw [hs] at hj; cases hj
  | some s =>
    rw [hs] at hj
    split
    · exact hf s hj
    · exact hj

theorem Listed.emitError {c : Client} (h : c.Listed) (i : Nat) : (c.emitError i).Listed := by
  unfold Client.emitError
  split
  · rename_i hc
    refine h.congr rfl (fun k => by cases k <;> rfl) h.rpcs fun j hj => ?_
    rcases List.mem_append.mp hj with hj | hj
    · exact h.timers j hj
    · rw [List.mem_singleton.mp hj]
      unfold connected at hc
      cases hi : c.objects[i]? with
      | none => rw [hi] at hc; cases hc
      | some s => exact (List.getElem?_eq_some_iff.mp hi).1
  · exact h

theorem emitFinished_get (c : Client) (i j : Nat) : (c.emitFinished i).objects[j]? =
    if i = j then c.objects[j]?.map fun s => { s with finished := s.finished + 1, connected := false }
    else c.objects[j]? := by
  unfold emitFinished onFinished
  cases hi : c.objects[i]? with
  | none =>
    simp only [update_get, if_true, hi, Option.map_none]
    split
    · rename_i hij
      rw [← hij, hi]
      rfl
    · rfl
  | some s =>
    simp only [update_get, if_true, hi, Option.map_some]
    split
    · simp only [update_get, setActive_objects]
      split
      · rw [Option.map_map]
        rfl
      · rfl
    · rename_i hc
      have hc : s.connected = false := Bool.eq_false_iff.mpr hc
      rw [update_get]
      split
      · rename_i hij
        rw [← hij, hi, Option.map_some, Option.map_some, ← hc]
      · rfl

@[simp] theorem onFinished_rest (c : Client) (i : Nat) : (c.onFinished i).rpcs = c.rpcs ∧
    (c.onFinished i).timers = c.timers ∧ (c.onFinished i).opened = c.opened := by
  unfold onFinished
  split
  · split <;> simp
  · exact ⟨rfl, rfl, rfl⟩

@[simp] theorem emitFinished_rpcs (c : Client) (i : Nat) :
    (c.emitFinished i).rpcs = c.rpcs.filter (· != i) := by
  show ((c.update i _).onFinished i).rpcs.filter (· != i) = _
  rw [(onFinished_rest _ i).1, update_rpcs]

@[simp] theorem emitFinished_timers (c : Client) (i : Nat) :
    (c.emitFinished i).timers = c.timers := (onFinished_rest _ i).2.1

@[simp] theorem emitFinished_opened (c : Client) (i : Nat) :
    (c.emitFinished i).opened = c.opened := (onFinished_rest _ i).2.2

theorem emitFinished_length (c : Client) (i : Nat) :
    (c.emitFinished i).objects.length = c.objects.length := by
  refine Nat.le_antisymm ?_ ?_ <;> refine Nat.le_of_not_lt fun hlt => ?_
  · have h := emitFinished_get c i c.objects.length
    rw [List.getElem?_eq_getElem hlt, List.getElem?_eq_none (Nat.le_refl _)] at h
    split at h <;> cases h
  · have h := emitFinished_get c i (c.emitFinished i).objects.length
    rw [List.getElem?_eq_none (Nat.le_refl _), List.getElem?_eq_getElem hlt] at h
    split at h <;> cases h

theorem Listed.emitFinished {c : Client} (h : c.Listed) (i : Nat) : (c.emitFinished i).Listed := by
  have hid : (c.emitFinished i).ident = c.ident := by
    funext j
    unfold ident
    rw [emitFinished_get]
    split
    · rw [Option.map_map]
      rfl
    · rfl
  refine ⟨fun k j => ?_, fun k => ?_, fun j s' hj => ?_, fun j hj => ?_, fun j hj => ?_⟩
  · rw [h.emitFinished_active, List.mem_filter, h.mem, emitFinished_get, bne_iff_ne]
    constructor
    · rintro ⟨hs, hne⟩
      rw [if_neg (Ne.symm hne)]
      exact hs
    · rintro ⟨s, hs, hk, hc⟩
      split at hs
      · obtain ⟨t, -, rfl⟩ := Option.map_eq_some_iff.mp hs
        cases hc
      · rename_i hne
        exact ⟨⟨s, hs, hk, hc⟩, Ne.symm hne⟩
  · rw [h.emitFinished_active, hid]
    exact (h.keys k).sublist (List.filter_sublist.map _)
  · rw [emitFinished_get] at hj
    split at hj
    · obtain ⟨t, -, rfl⟩ := Option.map_eq_some_iff.mp hj
      exact iff_of_false Bool.false_ne_true (Nat.succ_ne_zero _)
    · exact h.fin j s' hj
  · rw [emitFinished_rpcs, List.mem_filter, bne_iff_ne] at hj
    have ha := h.rpcs j hj.1
    unfold alive at ha ⊢
    rw [emitFinished_get, if_neg (Ne.symm hj.2)]
    exact ha
  · rw [emitFinished_timers] at hj
    rw [emitFinished_length]
    exact h.timers j hj

theorem channelStream_cases {ch : Channel} {c c' : Client} {i : Nat}
    (h : c.channelStream ch i = some c') :
    c' = { c with opened := c.opened ++ [i] } ∧ ch = .http2 false ∧
      c.objects[i]?.map GrpcStream.kind = some .bidirect ∨
    c' = { c with opened := c.opened ++ [i], rpcs := c.rpcs ++ [i] } := by
  unfold channelStream at h
  split at h
  · rename_i asserts hk
    cases asserts with
    | true => cases h
    | false => exact .inl ⟨(Option.some.inj h).symm, rfl, hk⟩
  · exact .inr (Option.some.inj h).symm

theorem channelStream_objects {ch : Channel} {c c' : Client} {i : Nat}
    (h : c.channelStream ch i = some c') : c'.objects = c.objects := by
  rcases channelStream_cases h with ⟨rfl, -⟩ | rfl <;> rfl

theorem channelStream_opened {ch : Channel} {c c' : Client} {i : Nat}
    (h : c.channelStream ch i = some c') : c'.opened = c.opened ++ [i] := by
  rcases channelStream_cases h with ⟨rfl, -⟩ | rfl <;> rfl

theorem channelStream_active {ch : Channel} {c c' : Client} {i : Nat}
    (h : c.channelStream ch i = some c') (k : StreamKind) : c'.active k = c.active k := by
  rcases channelStream_cases h with ⟨rfl, -⟩ | rfl <;> cases k <;> rfl

theorem Listed.channelStream {ch : Channel} {c c' : Client} {i : Nat} (h : c.Listed)
    (hi : c.alive i = true) (hs : c.channelStream ch i = some c') : c'.Listed := by
  rcases channelStream_cases hs with ⟨rfl, -⟩ | rfl
  · exact h.congr rfl (fun k => by cases k <;> rfl) h.rpcs h.timers
  · refine h.congr rfl (fun k => by cases k <;> rfl) (fun j hj => ?_) h.timers
    rcases List.mem_append.mp hj with hj | hj
    · exact h.rpcs j hj
    · rw [List.mem_singleton.mp hj]
      exact hi

theorem Listed.drop {c : Client} (h : c.Listed) (i : Nat) : (c.drop i).Listed := by
  have hs := update_shape c i (f := fun s => { s with held := false }) fun _ => rfl
  unfold Client.drop
  dsimp only
  split
  · rename_i hi
    refine h.congr hs (fun k => update_active c k i _) (fun j hj => ?_) h.timers
    by_cases hji : j = i
    · rw [hji]; exact hi
    · have ha := h.rpcs j hj
      unfold alive at ha ⊢
      rw [update_get, if_neg (Ne.symm hji)]
      exact ha
  · refine h.congr hs (fun k => by cases k <;> rfl) (fun j hj => ?_) h.timers
    obtain ⟨hj, hji⟩ := List.mem_filter.mp hj
    have ha := h.rpcs j hj
    unfold alive at ha ⊢
    show ((c.update i _).objects[j]?).any _ = true
    rw [update_get, if_neg (Ne.symm (bne_iff_ne.mp hji))]
    exact ha

theorem Listed.handler {c : Client} (h : c.Listed) (i : Nat) (data : Bytes) :
    (c.handler i data).Listed := by
  unfold Client.handler
  split
  · exact h.congr (update_shape c i fun _ => rfl) (fun k => by cases k <;> rfl)
      (fun j hj => update_alive c i j (fun _ => id) (h.rpcs j hj)) h.timers
  · exact h

/-- What a call of `stream` / `streamBidirect` does. -/
theorem subscribe_cases {ch : Channel} {c c' : Client} {s : GrpcStream} {handler : Option Nat}
    {i : Nat} (h : c.subscribe ch s handler = some (c', i)) :
    i ∈ c.active s.kind ∧ c.equals s i = true ∧
      c' = c.update i (fun a => { a.addHandler handler with held := true }) ∨
    (∀ j ∈ c.active s.kind, c.equals s j = false) ∧ i = c.objects.length ∧
      ∃ c₁, { c with objects := c.objects ++ [s] }.channelStream ch i = some c₁ ∧
        c' = c₁.setActive s.kind (c₁.active s.kind ++ [i]) := by
  unfold subscribe at h
  split at h
  · rename_i j hf
    cases h
    exact .inl ⟨List.mem_of_find?_eq_some hf, List.find?_some hf, rfl⟩
  · rename_i hf
    dsimp only at h
    split at h
    · rename_i c₁ hc₁
      cases h
      exact .inr ⟨fun j hj => Bool.eq_false_iff.mpr (List.find?_eq_none.mp hf j hj), rfl, c₁, hc₁, rfl⟩
    · cases h

theorem objects_push (c : Client) (s : GrpcStream) (j : Nat) :
    (c.objects ++ [s])[j]? = if j = c.objects.length then some s else c.objects[j]? := by
  by_cases hj : j = c.objects.length
  · rw [if_pos hj, hj, List.getElem?_concat_length]
  · rw [if_neg hj, List.getElem?_append]
    split
    · rfl
    · rw [List.getElem?_eq_none (by simp; omega), List.getElem?_eq_none (by omega)]

theorem Listed.lt {c : Client} (h : c.Listed) {k : StreamKind} {j : Nat} (hj : j ∈ c.active k) :
    j < c.objects.length := by
  obtain ⟨a, ha, -⟩ := (h.mem k j).mp hj
  exact (List.getElem?_eq_some_iff.mp ha).1

/-- The keys of the listed streams are those they had. -/
theorem Listed.push_idents {c : Client} (h : c.Listed) (s : GrpcStream) (k : StreamKind) :
    (c.active k).map ({ c with objects := c.objects ++ [s] } : Client).ident =
      (c.active k).map c.ident := by
  refine List.map_congr_left fun j hj => ?_
  unfold ident
  rw [objects_push, if_neg (Nat.ne_of_lt (h.lt hj))]

/-- A stream that equals no listed one has a key of its own. -/
theorem Listed.push_new {c : Client} (h : c.Listed) {s : GrpcStream}
    (hn : ∀ j ∈ c.active s.kind, c.equals s j = false) {j : Nat} (hj : j ∈ c.active s.kind) :
    c.ident j ≠ some s.ident := by
  obtain ⟨t, ht, htk, -⟩ := (h.mem _ _).mp hj
  have he := hn j hj
  unfold equals at he
  rw [ht, Option.any_some] at he
  intro hid
  unfold ident at hid
  rw [ht, Option.map_some, Option.some.injEq] at hid
  exact Bool.eq_false_iff.mp he ((GrpcStream.eq_iff htk).mpr hid)

/-- A new object, with its handlers connected and listed. -/
theorem Listed.push {c : Client} {s : GrpcStream} (h : c.Listed) (hc : s.connected = true)
    (hf : s.finished = 0) (hn : ∀ j ∈ c.active s.kind, c.equals s j = false) :
    (({ c with objects := c.objects ++ [s] } : Client).setActive s.kind
      (c.active s.kind ++ [c.objects.length])).Listed := by
  refine ⟨fun k j => ?_, fun k => ?_, fun j t hj => ?_, fun j hj => ?_, fun j hj => ?_⟩
  · rw [active_setActive, setActive_objects, objects_push]
    by_cases hk : s.kind = k
    · rw [if_pos hk, List.mem_append, List.mem_singleton, hk]
      by_cases hj : j = c.objects.length
      · rw [if_pos hj]
        exact iff_of_true (.inr hj) ⟨s, rfl, hk, hc⟩
      · rw [if_neg hj, or_iff_left hj, h.mem]
    · rw [if_neg hk]
      by_cases hj : j = c.objects.length
      · rw [if_pos hj]
        refine iff_of_false (fun hm => Nat.ne_of_lt (h.lt (k := k) hm) hj) ?_
        rintro ⟨t, ht, htk, -⟩
        exact hk (by rw [Option.some.inj ht, htk])
      · rw [if_neg hj]
        exact h.mem k j
  · have hid : (({ c with objects := c.objects ++ [s] } : Client).setActive s.kind
        (c.active s.kind ++ [c.objects.length])).ident =
          ({ c with objects := c.objects ++ [s] } : Client).ident := by
      funext j
      unfold ident
      rw [setActive_objects]
    have hids := h.push_idents s k
    rw [active_setActive, hid]
    by_cases hk : s.kind = k
    · subst hk
      rw [if_pos rfl, List.map_append, hids, List.nodup_append]
      refine ⟨h.keys s.kind, List.nodup_singleton _, fun a ha b hb hab => ?_⟩
      rw [List.map_singleton, List.mem_singleton] at hb
      obtain ⟨j, hj, rfl⟩ := List.mem_map.mp ha
      refine h.push_new hn hj ?_
      rw [hab, hb]
      unfold ident
      rw [objects_push, if_pos rfl, Option.map_some]
    · rw [if_neg hk]
      exact hids ▸ h.keys k
  · rw [setActive_objects, objects_push] at hj
    split at hj
    · cases hj
      exact iff_of_true hc hf
    · exact h.fin j t hj
  · rw [setActive_rpcs] at hj
    have ha := h.rpcs j hj
    unfold alive
    rw [setActive_objects, objects_push, if_neg (Nat.ne_of_lt (lt_of_alive ha))]
    exact ha
  · rw [setActive_timers] at hj
    rw [setActive_objects, List.length_append]
    exact Nat.lt_of_lt_of_le (h.timers j hj) (Nat.le_add_right ..)

theorem Listed.subscribe {ch : Channel} {c c' : Client} {s : GrpcStream} {handler : Option Nat}
    {i : Nat} (h : c.Listed) (hc : s.connected = true) (hf : s.finished = 0)
    (hs : c.subscribe ch s handler = some (c', i)) : c'.Listed := by
  rcases subscribe_cases hs with ⟨-, -, rfl⟩ | ⟨hn, rfl, c₁, h₁, rfl⟩
  · refine h.congr (update_shape c i fun a => ?_) (fun k => update_active c k i _)
      (fun j hj => update_alive c i j (fun a ha => ?_) (h.rpcs j hj)) h.timers
    · cases handler <;> rfl
    · exact Bool.or_true _
  · have hobj : c₁.objects = c.objects ++ [s] := channelStream_objects h₁
    have hact := channelStream_active h₁
    refine (h.push hc hf hn).congr ?_ (fun k => ?_) (fun j hj => ?_) fun j hj => ?_
    · rw [setActive_objects, setActive_objects, hobj]
    · rw [active_setActive, active_setActive, hact, hact]
      rfl
    · rw [setActive_rpcs] at hj
      unfold alive
      rw [setActive_objects, hobj, objects_push]
      by_cases hji : j = c.objects.length
      · rw [if_pos hji, Option.any_some, GrpcStream.alive, hc]
        rfl
      · rw [if_neg hji]
        refine h.rpcs j ?_
        rcases channelStream_cases h₁ with ⟨rfl, -⟩ | rfl
        · exact hj
        · exact (List.mem_append.mp hj).resolve_right fun hm => hji (List.mem_singleton.mp hm)
    · rw [setActive_timers] at hj
      rw [setActive_objects, List.length_append]
      refine Nat.lt_of_lt_of_le (h.timers j ?_) (Nat.le_add_right ..)
      rcases channelStream_cases h₁ with ⟨rfl, -⟩ | rfl <;> exact hj

theorem Listed.rpcFinished {ch : Channel} {c c' : Client} {i : Nat} {how : RpcEnd} (h : c.Listed)
    (hi : c.alive i = true) (hs : c.rpcFinished ch i how = some c') : c'.Listed := by
  unfold Client.rpcFinished at hs
  split at hs
  · cases hs; exact h
  · cases hs; exact h.emitError i
  · cases hs; exact h.emitFinished i
  · exact h.channelStream hi hs
  · cases hs; exact h.emitError i

/-- Fewer RPCs and timers. -/
theorem Listed.mono {c : Client} (h : c.Listed) {rpcs timers : List Nat}
    (hr : ∀ i ∈ rpcs, i ∈ c.rpcs) (ht : ∀ i ∈ timers, i ∈ c.timers) :
    Listed { c with rpcs := rpcs, timers := timers } :=
  h.congr rfl (fun k => by cases k <;> rfl) (fun i hi => h.rpcs i (hr i hi))
    fun i hi => h.timers i (ht i hi)

theorem Listed.step {ch : Channel} {c c' : Client} {e : ClientEvent} (h : c.Listed)
    (hs : clientStep ch c e = some c') : c'.Listed := by
  cases e with
  | stream method arg handler =>
    obtain ⟨⟨c₁, i⟩, h₁, rfl⟩ := Option.map_eq_some_iff.mp hs
    exact h.subscribe (by simp [GrpcStream.new]) (by simp [GrpcStream.new]) h₁
  | streamBidirect method handler =>
    obtain ⟨⟨c₁, i⟩, h₁, rfl⟩ := Option.map_eq_some_iff.mp hs
    exact h.subscribe (by simp [GrpcStream.new]) (by simp [GrpcStream.new]) h₁
  | drop i =>
    simp only [clientStep] at hs
    split at hs
    · cases hs; exact h.drop i
    · cases hs
  | message r data =>
    obtain ⟨i, -, rfl⟩ := Option.map_eq_some_iff.mp hs
    exact h.handler i data
  | rpcFinished r how =>
    obtain ⟨i, hi, h₁⟩ := Option.bind_eq_some_iff.mp hs
    have hm := h.mono (fun j (hj : j ∈ c.rpcs.eraseIdx r) => List.mem_of_mem_eraseIdx hj)
      fun j (hj : j ∈ c.timers) => hj
    exact hm.rpcFinished (h.rpcs i (List.mem_of_getElem? hi)) h₁
  | writeFails i =>
    simp only [clientStep] at hs
    split at hs
    · cases hs; exact h.emitError i
    · cases hs
  | abort i =>
    simp only [clientStep] at hs
    split at hs
    · cases hs; exact h.emitFinished i
    · cases hs
  | timeout t =>
    obtain ⟨i, -, h₁⟩ := Option.bind_eq_some_iff.mp hs
    have hm := h.mono (fun j (hj : j ∈ c.rpcs) => hj) fun j (hj : j ∈ c.timers.eraseIdx t) =>
      List.mem_of_mem_eraseIdx hj
    unfold timeout at h₁
    split at h₁
    · rename_i hi
      exact hm.channelStream hi h₁
    · cases h₁; exact hm

theorem Listed.inductive (ch : Channel) : (clientLts ch).Inductive Listed where
  init _ h := h ▸ .new
  step _ _ _ h hs := h.step hs

/-! ## Finished and connected -/

theorem Listed.connected_of_finished {c : Client} (h : c.Listed) {i : Nat}
    (hf : c.hasFinished i = true) : c.connected i = false := by
  unfold hasFinished at hf
  unfold connected
  cases hi : c.objects[i]? with
  | none => rfl
  | some s =>
    rw [hi, Option.any_some, decide_eq_true_eq] at hf
    rw [Option.any_some, Bool.eq_false_iff]
    intro hc
    have h0 := (h.fin i s hi).mp hc
    omega

theorem Listed.finished_of_not_connected {c : Client} (h : c.Listed) {i : Nat}
    (hi : i < c.objects.length) (hc : c.connected i = false) : c.hasFinished i = true := by
  unfold hasFinished
  unfold connected at hc
  rw [List.getElem?_eq_getElem hi, Option.any_some] at hc ⊢
  have hf := h.fin i _ (List.getElem?_eq_getElem hi)
  rw [decide_eq_true_eq]
  refine Nat.pos_of_ne_zero fun h0 => ?_
  rw [hf.mpr h0] at hc
  cases hc

/-- A finished object lives as long as the user holds it. -/
theorem not_alive {c : Client} {i : Nat} (hc : c.connected i = false) (hh : c.held i = false) :
    c.alive i = false := by
  unfold alive connected held at *
  cases hi : c.objects[i]? with
  | none => rfl
  | some s =>
    rw [hi, Option.any_some] at hc hh
    rw [Option.any_some, GrpcStream.alive, hc, hh]
    rfl

theorem update_connected (c : Client) (i j : Nat) {f : GrpcStream → GrpcStream}
    (hf : ∀ s, (f s).connected = s.connected) : (c.update i f).connected j = c.connected j := by
  unfold connected
  rw [update_get]
  split
  · cases c.objects[j]? with
    | none => rfl
    | some s => exact hf s
  · rfl

theorem update_hasFinished (c : Client) (i j : Nat) {f : GrpcStream → GrpcStream}
    (hf : ∀ s, (f s).finished = s.finished) : (c.update i f).hasFinished j = c.hasFinished j := by
  unfold hasFinished
  rw [update_get]
  split
  · cases c.objects[j]? with
    | none => rfl
    | some s => rw [Option.map_some, Option.any_some, Option.any_some, hf]
  · rfl

theorem emitFinished_connected (c : Client) (i j : Nat) :
    (c.emitFinished i).connected j = (c.connected j && j != i) := by
  unfold connected
  rw [emitFinished_get]
  split
  · rename_i hij
    subst hij
    rw [bne_self_eq_false, Bool.and_false]
    cases c.objects[i]? <;> rfl
  · rename_i hij
    rw [bne_iff_ne.mpr (Ne.symm hij), Bool.and_true]

theorem emitFinished_hasFinished (c : Client) (i j : Nat) (h : c.hasFinished j = true) :
    (c.emitFinished i).hasFinished j = true := by
  unfold hasFinished at h ⊢
  rw [emitFinished_get]
  split
  · cases hj : c.objects[j]? with
    | none => rw [hj] at h; cases h
    | some s => exact decide_eq_true (Nat.succ_pos s.finished)
  · exact h

/-- The object a new stream gets is a new one. -/
theorem push_get {ch : Channel} {c c₁ : Client} {s : GrpcStream}
    (h₁ : { c with objects := c.objects ++ [s] }.channelStream ch c.objects.length = some c₁)
    {j : Nat} (hj : j ≠ c.objects.length) (k : StreamKind) (l : List Nat) :
    (c₁.setActive k l).objects[j]? = c.objects[j]? := by
  have hobj : c₁.objects = c.objects ++ [s] := channelStream_objects h₁
  rw [setActive_objects, hobj, objects_push, if_neg hj]

/-! ## Counting -/

theorem count_eraseIdx {l : List Nat} {r i : Nat} (h : l[r]? = some i) (x : Nat) :
    l.count x = (l.eraseIdx r).count x + if i = x then 1 else 0 := by
  obtain ⟨hr, rfl⟩ := List.getElem?_eq_some_iff.mp h
  have hp := (List.getElem_cons_eraseIdx_perm hr).count_eq x
  rw [← hp, List.count_cons]
  simp only [beq_iff_eq]

theorem count_append_singleton (l : List Nat) (i x : Nat) :
    (l ++ [i]).count x = l.count x + if i = x then 1 else 0 := by
  rw [List.count_append, List.count_cons, List.count_nil, Nat.zero_add]
  simp only [beq_iff_eq]

end Client

end QtProtobuf.Grpc
