import QtProtobuf.L4Client.StreamSharing
import Mathlib.Logic.Function.Basic

/-!
# `GrpcStream` in QML

Model of `QQuickGrpcStream` (`grpc/quick/qquickgrpcstream.cpp`): any number of
such objects over any number of clients. Equal streams of one client are one
`QGrpcStream`, whose `finished` every object connected to it handles, also in
the middle of the `abort` of another one. An object is deleted at any time; the
clients outlive the objects and are used by nothing else.

* `Inv`: the objects, the connections and the clients' streams agree.
* `Inv.finish`, `Inv.streams`: a stream finishes, an object gets one.
-/
namespace QtProtobuf.Grpc

open Lib

/-- A `QGrpcStream`: the client and the number it has there. -/
abbrev StreamRef := Nat × Nat

/-- The members of `QQuickGrpcStream`, the objects by their numbers. -/
structure QuickStream where
  client : Option Nat
  enabled : Bool
  method : Bytes
  argument : Option Nat
  stream : Option StreamRef
  returnValue : Option Nat
  deriving DecidableEq, Repr

/-- The properties that can be written, with the value. -/
inductive QuickProperty where
  | client (client : Option Nat)
  | enabled (enabled : Bool)
  | method (method : Bytes)
  | argument (argument : Option Nat)
  deriving DecidableEq, Repr

/-- What `QQuickGrpcStream::stream` finds: no method of the name or an argument
of another type (`refused`), no stream from the client (`failed`), or the
method's path and the serialized argument. -/
inductive Attempt where
  | refused | failed | streams (method arg : Bytes)
  deriving DecidableEq, Repr

namespace QuickStream

/-- mirrors src/grpc/quick/qquickgrpcstream.cpp:35-39 -/
def new : QuickStream := ⟨none, false, [], none, none, none⟩

/-- The assignments of the setters.
mirrors src/grpc/quick/qquickgrpcstream_p.h:129-167 -/
def write (x : QuickStream) : QuickProperty → QuickStream
  | .client client => { x with client := client }
  | .enabled enabled => { x with enabled := enabled }
  | .method method => { x with method := method }
  | .argument argument => { x with argument := argument }

/-- mirrors src/grpc/quick/qquickgrpcstream.cpp:57-61 -/
def clear (x : QuickStream) : QuickStream := { x with returnValue := none }

/-- `setEnabled(false)` of an object without a stream: `updateStream` clears the
return value and does nothing else. -/
def disable (x : QuickStream) : QuickStream :=
  if x.enabled then { x with enabled := false }.clear else x

/-- `[this](){ m_stream.reset(); setEnabled(false); }`
mirrors src/grpc/quick/qquickgrpcstream.cpp:173 (stream) -/
def onFinished (x : QuickStream) : QuickStream := { x with stream := none }.disable

/-- mirrors src/grpc/quick/qquickgrpcstream.cpp:63, without `!m_enabled` -/
def idle (x : QuickStream) : Bool := x.client.isNone || x.method.isEmpty || x.argument.isNone

end QuickStream

/-- The clients, the `GrpcStream` objects that exist, the connections to a stream's
`finished` and `messageReceived` in the order they were made, and the number of
return values made so far. Recorded for the statements: `received`, each
`messageReceived` of an object, with its return value. -/
structure QuickScene where
  clients : Nat → Client
  quicks : Nat → Option QuickStream
  connections : List (StreamRef × Nat)
  allocated : Nat
  received : List (Nat × Option Nat)

namespace QuickScene

def new : QuickScene := ⟨fun _ => .new, fun _ => none, [], 0, []⟩

def setQuick (s : QuickScene) (q : Nat) (x : Option QuickStream) : QuickScene :=
  { s with quicks := Function.update s.quicks q x }

def setClient (s : QuickScene) (k : Nat) (c : Client) : QuickScene :=
  { s with clients := Function.update s.clients k c }

/-- The objects connected to a stream. -/
def connected (s : QuickScene) (r : StreamRef) : List Nat :=
  (s.connections.filter fun p => p.1 == r).map Prod.snd

/-- The rest of `finished`, after the handlers of the client and of the channel,
which leave `c`: the handlers of the objects. They let go of the stream, which
is deleted. -/
def finish (s : QuickScene) (r : StreamRef) (c : Client) : QuickScene :=
  { s.setClient r.1 (c.drop r.2) with
    quicks := fun q => if q ∈ s.connected r then (s.quicks q).map .onFinished else s.quicks q }

/-- mirrors src/grpc/qgrpcstream.cpp:49-56 -/
def abort (s : QuickScene) (r : StreamRef) : QuickScene :=
  s.finish r ((s.clients r.1).emitFinished r.2)

/-- mirrors src/grpc/quick/qquickgrpcstream.cpp:72-176, and 67-69 where it fails -/
def stream (ch : Nat → Channel) (s : QuickScene) (q k : Nat) (x : QuickStream) :
    Attempt → Option QuickScene
  | .refused => some (s.setQuick q (some x.disable))
  | .failed =>
    let x := { x with returnValue := some s.allocated }
    some { s.setQuick q (some x.disable) with allocated := s.allocated + 1 }
  | .streams method arg => do
    let (c, i) ← (s.clients k).stream (ch k) method arg (some s.allocated)
    let x := { x with stream := some (k, i), returnValue := some s.allocated }
    some { (s.setClient k c).setQuick q (some x) with
      connections := s.connections ++ [((k, i), q)]
      allocated := s.allocated + 1 }

/-- mirrors src/grpc/quick/qquickgrpcstream.cpp:50-70 -/
def updateStream (ch : Nat → Channel) (s : QuickScene) (q : Nat) (attempt : Attempt) :
    Option QuickScene := do
  let x ← s.quicks q
  let s := match x.stream with
    | some r => s.abort r
    | none => s
  let x ← s.quicks q
  let x := { x with stream := none }.clear
  let s := s.setQuick q (some x)
  match x.client with
  | none => some s
  | some k => if x.idle || !x.enabled then some s else s.stream ch q k x attempt

/-- mirrors src/grpc/quick/qquickgrpcstream_p.h:129-167 (setClient, setEnabled,
setMethod, setArgument) -/
def set (ch : Nat → Channel) (s : QuickScene) (q : Nat) (p : QuickProperty) (attempt : Attempt) :
    Option QuickScene := do
  let x ← s.quicks q
  if x.write p = x then some s else (s.setQuick q (some (x.write p))).updateStream ch q attempt

/-- mirrors src/grpc/quick/qquickgrpcstream.cpp:41-47; the connections of the
object go with it. -/
def destroy (s : QuickScene) (q : Nat) : Option QuickScene := do
  let x ← s.quicks q
  let s := match x.stream with
    | some r => s.abort r
    | none => s
  some { s.setQuick q none with connections := s.connections.filter fun p => p.2 != q }

/-- A message of RPC `r` of a client: the handlers of the stream read it, then the
objects announce it (src/grpc/quick/qquickgrpcstream.cpp:167-169). -/
def message (s : QuickScene) (k r : Nat) (data : Bytes) : Option QuickScene := do
  let i ← (s.clients k).rpcs[r]?
  some { s.setClient k ((s.clients k).handler i data) with
    received := s.received ++
      (s.connected (k, i)).map fun q => (q, (s.quicks q).bind (·.returnValue)) }

/-- The end of RPC `r` of a client. -/
def rpcFinished (ch : Nat → Channel) (s : QuickScene) (k r : Nat) (how : RpcEnd) :
    Option QuickScene := do
  let c := s.clients k
  let i ← c.rpcs[r]?
  let c ← Client.rpcFinished (ch k) { c with rpcs := c.rpcs.eraseIdx r } i how
  match ch k, how with
  | .http2 _, .ok => some (s.finish (k, i) c)
  | _, _ => some (s.setClient k c)

/-- The argument is deleted: the `QPointer` members that refer to it are null. -/
def forget (s : QuickScene) (argument : Nat) : QuickScene :=
  { s with quicks := fun q => (s.quicks q).map fun x =>
      if x.argument = some argument then { x with argument := none } else x }

end QuickScene

inductive QuickEvent where
  | create (q : Nat)
  | destroy (q : Nat)
  | set (q : Nat) (p : QuickProperty) (attempt : Attempt)
  | forget (argument : Nat)
  | message (k r : Nat) (data : Bytes)
  | rpcFinished (k r : Nat) (how : RpcEnd)
  | timeout (k t : Nat)
  deriving DecidableEq, Repr

/-- `none`: the event cannot happen. -/
def quickStep (ch : Nat → Channel) (s : QuickScene) : QuickEvent → Option QuickScene
  | .create q => if (s.quicks q).isSome then none else some (s.setQuick q (some .new))
  | .destroy q => s.destroy q
  | .set q p attempt => s.set ch q p attempt
  | .forget argument => some (s.forget argument)
  | .message k r data => s.message k r data
  | .rpcFinished k r how => s.rpcFinished ch k r how
  | .timeout k t => (clientStep (ch k) (s.clients k) (.timeout t)).map (s.setClient k)

/-! ## What the scene reads of a client -/

namespace Client

def seen (c : Client) (i : Nat) : Option (Bool × Bool × List Nat) :=
  c.objects[i]?.map fun s => (s.connected, s.held, s.handlers)

theorem connected_seen (c : Client) (i : Nat) : c.connected i = (c.seen i).any (·.1) := by
  unfold connected seen
  cases c.objects[i]? <;> rfl

theorem alive_seen (c : Client) (i : Nat) : c.alive i = (c.seen i).any fun v => v.1 || v.2.1 := by
  unfold alive seen
  cases c.objects[i]? <;> rfl

theorem handlersOf_seen (c : Client) (i : Nat) : c.handlersOf i = ((c.seen i).map (·.2.2)).getD [] := by
  unfold handlersOf seen
  cases c.objects[i]? <;> rfl

theorem same_of_seen {c c' : Client} {i : Nat} (h : c'.seen i = c.seen i) :
    c'.alive i = c.alive i ∧ c'.connected i = c.connected i ∧ c'.handlersOf i = c.handlersOf i := by
  refine ⟨?_, ?_, ?_⟩
  · rw [alive_seen, alive_seen, h]
  · rw [connected_seen, connected_seen, h]
  · rw [handlersOf_seen, handlersOf_seen, h]

theorem emitFinished_seen (c : Client) (i j : Nat) : (c.emitFinished i).seen j =
    if i = j then (c.seen j).map fun v => (false, v.2) else c.seen j := by
  unfold seen
  rw [emitFinished_get]
  split
  · cases c.objects[j]? <;> rfl
  · rfl

theorem drop_seen (c : Client) (i j : Nat) : (c.drop i).seen j =
    if i = j then (c.seen j).map fun v => (v.1, false, v.2.2) else c.seen j := by
  have hobj : (c.drop i).objects = (c.update i fun s => { s with held := false }).objects := by
    unfold drop
    dsimp only
    split <;> rfl
  unfold seen
  rw [hobj, update_get]
  split
  · cases c.objects[j]? <;> rfl
  · rfl

theorem drop_rpcs_subset (c : Client) (i : Nat) : (c.drop i).rpcs ⊆ c.rpcs := by
  unfold drop
  dsimp only
  split
  · exact List.Subset.refl _
  · exact fun j hj => (List.mem_filter.mp hj).1

theorem handler_seen (c : Client) (i j : Nat) (data : Bytes) : (c.handler i data).seen j = c.seen j := by
  unfold handler
  split
  · show (c.update i _).objects[j]?.map _ = _
    rw [update_get]
    split
    · unfold seen
      cases c.objects[j]? <;> rfl
    · rfl
  · rfl

theorem emitError_seen (c : Client) (i j : Nat) : (c.emitError i).seen j = c.seen j := by
  unfold emitError
  split <;> rfl

theorem channelStream_seen {ch : Channel} {c c' : Client} {i : Nat} (h : c.channelStream ch i = some c')
    (j : Nat) : c'.seen j = c.seen j := by
  unfold seen
  rw [channelStream_objects h]

/-- A call: the stream is active, the user's, and has the handler last. -/
theorem stream_seen {ch : Channel} {c c' : Client} {method arg : Bytes} {h i : Nat}
    (hs : c.stream ch method arg (some h) = some (c', i)) (j : Nat) (hl : c.Listed) : c'.seen j =
      if j = i then some (true, true, c.handlersOf j ++ [h]) else c.seen j := by
  rcases subscribe_cases hs with ⟨hmem, -, rfl⟩ | ⟨-, rfl, c₁, h₁, rfl⟩
  · obtain ⟨a, ha, -, hconn⟩ := (hl.mem _ _).mp hmem
    unfold seen
    rw [update_get]
    by_cases hj : i = j
    · subst hj
      simp [ha, hconn, handlersOf, GrpcStream.addHandler]
    · rw [if_neg hj, if_neg (Ne.symm hj)]
  · have hobj : c₁.objects = c.objects ++ [.new .server method arg (some h)] := channelStream_objects h₁
    unfold seen
    rw [setActive_objects, hobj, objects_push]
    by_cases hj : j = c.objects.length
    · simp [hj, handlersOf, GrpcStream.new, GrpcStream.addHandler]
    · rw [if_neg hj, if_neg hj]

end Client

/-! ## The invariant -/

/-- Between two events, an object with a stream is enabled and has a return value;
an enabled one without a stream is not fully set up. -/
structure QuickStream.Sound (x : QuickStream) : Prop where
  paired : x.stream.isSome = x.returnValue.isSome
  enabled : x.enabled = false → x.stream = none
  idle : x.enabled = true → x.stream = none → x.idle = true

namespace QuickStream

theorem Sound.returnValue {x : QuickStream} (h : x.Sound) (hs : x.stream = none) : x.returnValue = none := by
  have hp := h.paired
  rw [hs] at hp
  cases hr : x.returnValue with
  | none => rfl
  | some n => rw [hr] at hp; cases hp

theorem Sound.new : QuickStream.new.Sound := ⟨rfl, fun _ => rfl, fun h => by cases h⟩

theorem onFinished_stream (x : QuickStream) : x.onFinished.stream = none := by
  unfold onFinished disable
  split <;> rfl

theorem Sound.onFinished {x : QuickStream} (h : x.Sound) : x.onFinished.Sound := by
  unfold QuickStream.onFinished disable
  split
  · exact ⟨rfl, fun _ => rfl, fun h => by cases h⟩
  · next he =>
    have he : x.enabled = false := by simpa using he
    have hr := h.returnValue (h.enabled he)
    refine ⟨?_, fun _ => rfl, fun h' => ?_⟩
    · show false = x.returnValue.isSome
      rw [hr]
      rfl
    · cases he.symm.trans h'

theorem onFinished_clear (x : QuickStream) : { x.onFinished with stream := none }.clear =
    { x with enabled := false, stream := none, returnValue := none } := by
  unfold onFinished disable
  split
  · rfl
  · next he =>
    have he : x.enabled = false := by simpa using he
    unfold clear
    dsimp only
    rw [← he]

end QuickStream

namespace QuickScene

/-- The objects connected to a stream are those that have it, in the order in which
the stream has their handlers. -/
structure Served (s : QuickScene) (k i : Nat) : Prop where
  linked : ∀ q ∈ s.connected (k, i), ∃ x, s.quicks q = some x ∧ x.stream = some (k, i)
  once : (s.connected (k, i)).Nodup
  handlers : (s.connected (k, i)).map (fun q => (s.quicks q).bind (·.returnValue)) =
    ((s.clients k).handlersOf i).map some

/-- One more object. -/
theorem Served.push {s s' : QuickScene} {q k i n : Nat} {x : QuickStream} (h : s.Served k i)
    (hq : ∀ y, s.quicks q = some y → y.stream = none)
    (hconn : s'.connected (k, i) = s.connected (k, i) ++ [q])
    (hquicks : ∀ p, s'.quicks p = if p = q then some x else s.quicks p) (hx : x.stream = some (k, i))
    (hr : x.returnValue = some n)
    (hhandlers : (s'.clients k).handlersOf i = (s.clients k).handlersOf i ++ [n]) : s'.Served k i := by
  have hne : ∀ p ∈ s.connected (k, i), p ≠ q := by
    rintro p hp rfl
    obtain ⟨y, hy, hs⟩ := h.linked p hp
    rw [hq y hy] at hs
    cases hs
  refine ⟨fun p hp => ?_, ?_, ?_⟩
  · rw [hquicks]
    rw [hconn, List.mem_append, List.mem_singleton] at hp
    rcases hp with hp | rfl
    · rw [if_neg (hne p hp)]
      exact h.linked p hp
    · rw [if_pos rfl]
      exact ⟨x, rfl, hx⟩
  · rw [hconn, List.nodup_append]
    refine ⟨h.once, List.nodup_singleton q, fun p hp p' hp' => ?_⟩
    rw [List.mem_singleton.mp hp']
    exact hne p hp
  · have hmap : (s.connected (k, i)).map (fun p => (s'.quicks p).bind (·.returnValue)) =
        (s.connected (k, i)).map fun p => (s.quicks p).bind (·.returnValue) :=
      List.map_congr_left fun p hp => by rw [hquicks, if_neg (hne p hp)]
    rw [hconn, List.map_append, hmap, h.handlers, hhandlers, List.map_append, List.map_singleton,
      hquicks, if_pos rfl, Option.bind_some, hr]
    rfl

theorem Served.congr {s s' : QuickScene} {k i : Nat} (h : s.Served k i)
    (hconn : s'.connected (k, i) = s.connected (k, i))
    (hquicks : ∀ q ∈ s.connected (k, i), s'.quicks q = s.quicks q)
    (hhandlers : (s'.clients k).handlersOf i = (s.clients k).handlersOf i) : s'.Served k i := by
  refine ⟨fun q hq => ?_, hconn ▸ h.once, ?_⟩
  · rw [hconn] at hq
    rw [hquicks q hq]
    exact h.linked q hq
  · rw [hconn, hhandlers, ← h.handlers]
    exact List.map_congr_left fun q hq => by rw [hquicks q hq]

/-- An object's stream is active and connected to it; an active stream has an object
and only its own ones, and a stream that is not active is not kept alive. -/
structure Inv (s : QuickScene) : Prop where
  listed : ∀ k, (s.clients k).Listed
  owned : ∀ k i, (s.clients k).alive i = true → (s.clients k).connected i = true
  sound : ∀ q x, s.quicks q = some x → x.Sound
  active : ∀ q x k i, s.quicks q = some x → x.stream = some (k, i) →
    (s.clients k).connected i = true ∧ q ∈ s.connected (k, i)
  served : ∀ k i, (s.clients k).connected i = true → s.Served k i
  used : ∀ k i, (s.clients k).connected i = true → s.connected (k, i) ≠ []
  known : ∀ k i, s.connected (k, i) ≠ [] → ((s.clients k).seen i).isSome = true

theorem Inv.new : QuickScene.new.Inv where
  listed _ := .new
  owned k i h := by simp [QuickScene.new, Client.new, Client.alive] at h
  sound q x h := by cases h
  active q x k i h := by cases h
  served k i h := by simp [QuickScene.new, Client.new, Client.connected] at h
  used k i h := by simp [QuickScene.new, Client.new, Client.connected] at h
  known k i h := absurd rfl h

/-- An object without a stream is connected to no active one. -/
theorem Inv.not_connected {s : QuickScene} (h : s.Inv) {q : Nat}
    (hq : ∀ x, s.quicks q = some x → x.stream = none) {k i : Nat}
    (hc : (s.clients k).connected i = true) : q ∉ s.connected (k, i) := by
  intro hm
  obtain ⟨x, hx, hs⟩ := (h.served k i hc).linked q hm
  rw [hq x hx] at hs
  cases hs

@[simp] theorem setClient_clients (s : QuickScene) (k j : Nat) (c : Client) :
    (s.setClient k c).clients j = if j = k then c else s.clients j := by
  simp [setClient, Function.update_apply]

@[simp] theorem setQuick_quicks (s : QuickScene) (q p : Nat) (x : Option QuickStream) :
    (s.setQuick q x).quicks p = if p = q then x else s.quicks p := by
  simp [setQuick, Function.update_apply]

/-! ## Each operation keeps the invariant -/

/-- A change of one client that no object sees. -/
theorem Inv.setClient {s : QuickScene} (h : s.Inv) {k : Nat} {c : Client} (hc : c.Listed)
    (hseen : ∀ i, c.seen i = (s.clients k).seen i) : (s.setClient k c).Inv := by
  have heq : ∀ j i, ((s.setClient k c).clients j).seen i = (s.clients j).seen i := by
    intro j i
    rw [setClient_clients]
    split
    · next hj => rw [hj, hseen]
    · rfl
  have hsame := fun j i => Client.same_of_seen (heq j i)
  refine ⟨fun j => ?_, fun j i ha => ?_, h.sound, fun q x j i hx hs => ?_, fun j i hi => ?_,
    fun j i hi => h.used j i ((hsame j i).2.1 ▸ hi), fun j i hi => ?_⟩
  · rw [setClient_clients]
    split
    · exact hc
    · exact h.listed j
  · rw [(hsame j i).2.1]
    exact h.owned j i ((hsame j i).1 ▸ ha)
  · rw [(hsame j i).2.1]
    exact h.active q x j i hx hs
  · exact (h.served j i ((hsame j i).2.1 ▸ hi)).congr rfl (fun _ _ => rfl) (hsame j i).2.2
  · rw [heq]
    exact h.known j i hi

/-- A change of one object that has no stream before and after. -/
theorem Inv.setQuick {s : QuickScene} (h : s.Inv) {q : Nat} {o : Option QuickStream}
    (hq : ∀ x, s.quicks q = some x → x.stream = none)
    (ho : ∀ x, o = some x → x.Sound ∧ x.stream = none) : (s.setQuick q o).Inv := by
  refine ⟨h.listed, h.owned, fun p x hx => ?_, fun p x k i hx hs => ?_, fun k i hc => ?_, h.used, h.known⟩
  · rw [setQuick_quicks] at hx
    split at hx
    · exact (ho x hx).1
    · exact h.sound p x hx
  · rw [setQuick_quicks] at hx
    split at hx
    · rw [(ho x hx).2] at hs
      cases hs
    · exact h.active p x k i hx hs
  · refine (h.served k i hc).congr rfl (fun p hm => ?_) rfl
    rw [setQuick_quicks, if_neg]
    rintro rfl
    exact h.not_connected hq hc hm

/-- Client `k` is replaced by one that differs from it in stream `i`. -/
theorem seen_replaced {s s' : QuickScene} {k i : Nat} {c : Client} {v : Option (Bool × Bool × List Nat)}
    (hclients : ∀ j, s'.clients j = if j = k then c else s.clients j)
    (hc : ∀ l, c.seen l = if i = l then v else (s.clients k).seen l) (j l : Nat) :
    (s'.clients j).seen l = if (k, i) = (j, l) then v else (s.clients j).seen l := by
  rw [hclients]
  by_cases hj : j = k
  · subst hj
    rw [if_pos rfl, hc]
    simp
  · rw [if_neg hj, if_neg]
    rintro he
    cases he
    exact hj rfl

/-- An object is connected to one active stream at most. -/
theorem Inv.one_stream {s : QuickScene} (h : s.Inv) {q k i j l : Nat} (hi : (s.clients k).connected i = true)
    (hq : q ∈ s.connected (k, i)) (hl : (s.clients j).connected l = true) (hq' : q ∈ s.connected (j, l)) :
    (k, i) = (j, l) := by
  obtain ⟨x, hx, hs⟩ := (h.served k i hi).linked q hq
  obtain ⟨y, hy, hs'⟩ := (h.served j l hl).linked q hq'
  rw [hx, Option.some.injEq] at hy
  rwa [← hy, hs, Option.some.injEq] at hs'

/-- `finished` of an active stream, whose client is `c` after its own handlers. -/
theorem Inv.finish {s : QuickScene} (h : s.Inv) {k i : Nat} {c : Client} (hc : c.Listed)
    (hi : (s.clients k).connected i = true)
    (hseen : ∀ j, c.seen j = if i = j then ((s.clients k).seen j).map fun v => (false, v.2)
      else (s.clients k).seen j) : (s.finish (k, i) c).Inv := by
  have hdrop : ∀ l, (c.drop i).seen l =
      if i = l then ((s.clients k).seen i).map fun v => (false, false, v.2.2)
      else (s.clients k).seen l := by
    intro l
    rw [Client.drop_seen, hseen]
    split
    · next hl => rw [hl, Option.map_map]; rfl
    · rfl
  have hclients : ∀ j, (s.finish (k, i) c).clients j = if j = k then c.drop i else s.clients j :=
    fun j => setClient_clients s k j (c.drop i)
  have hseen' := seen_replaced hclients hdrop
  have hother : ∀ j l, (k, i) ≠ (j, l) → _ := fun j l hne =>
    Client.same_of_seen ((hseen' j l).trans (if_neg hne))
  -- the stream itself is over
  have hself : ((s.finish (k, i) c).clients k).alive i = false ∧
      ((s.finish (k, i) c).clients k).connected i = false := by
    rw [Client.alive_seen, Client.connected_seen, hseen', if_pos rfl]
    cases (s.clients k).seen i <;> exact ⟨rfl, rfl⟩
  have hconn : ∀ j l, ((s.finish (k, i) c).clients j).connected l = true →
      (s.clients j).connected l = true ∧ (k, i) ≠ (j, l) := by
    intro j l hl
    by_cases hne : (k, i) = (j, l)
    · cases hne
      rw [hself.2] at hl
      cases hl
    · exact ⟨(hother j l hne).2.1 ▸ hl, hne⟩
  refine ⟨fun j => ?_, fun j l ha => ?_, fun q x hx => ?_, fun q x j l hx hs => ?_, fun j l hl => ?_,
    fun j l hl => h.used j l (hconn j l hl).1, fun j l hm => ?_⟩
  · rw [hclients]
    split
    · exact hc.drop i
    · exact h.listed j
  · by_cases hne : (k, i) = (j, l)
    · cases hne
      rw [hself.1] at ha
      cases ha
    · rw [(hother j l hne).2.1]
      exact h.owned j l ((hother j l hne).1 ▸ ha)
  · by_cases hm : q ∈ s.connected (k, i)
    · obtain ⟨y, hy, rfl⟩ := Option.map_eq_some_iff.mp ((if_pos hm).symm.trans hx)
      exact (h.sound q y hy).onFinished
    · exact h.sound q x ((if_neg hm).symm.trans hx)
  · by_cases hm : q ∈ s.connected (k, i)
    · obtain ⟨y, hy, rfl⟩ := Option.map_eq_some_iff.mp ((if_pos hm).symm.trans hx)
      rw [y.onFinished_stream] at hs
      cases hs
    · obtain ⟨hl, hq⟩ := h.active q x j l ((if_neg hm).symm.trans hx) hs
      have hne : (k, i) ≠ (j, l) := fun he => hm (he ▸ hq)
      exact ⟨(hother j l hne).2.1.trans hl, hq⟩
  · obtain ⟨hl, hne⟩ := hconn j l hl
    exact (h.served j l hl).congr rfl (fun q hm => if_neg fun hq => hne (h.one_stream hi hq hl hm))
      (hother j l hne).2.2
  · have hk := h.known j l hm
    rw [hseen']
    split
    · next he =>
      cases he
      rwa [Option.isSome_map]
    · exact hk

theorem connected_append (s : QuickScene) (r r' : StreamRef) (q : Nat) :
    { s with connections := s.connections ++ [(r, q)] }.connected r' =
      s.connected r' ++ if r = r' then [q] else [] := by
  unfold connected
  rw [List.filter_append, List.map_append]
  congr 1
  by_cases hr : r = r' <;> simp [hr]

theorem connected_filter (s : QuickScene) (r : StreamRef) (q : Nat) :
    { s with connections := s.connections.filter fun p => p.2 != q }.connected r =
      (s.connected r).filter (· != q) := by
  unfold connected
  rw [List.filter_map, List.filter_filter, List.filter_filter]
  congr 2
  funext p
  exact Bool.and_comm _ _

/-- The stream that a call returns was active before, or it is new and nothing is
connected to it. -/
theorem Inv.served_before {ch : Channel} {s : QuickScene} (h : s.Inv) {k i n : Nat} {c : Client}
    {method arg : Bytes} (hs : (s.clients k).stream ch method arg (some n) = some (c, i)) :
    s.Served k i := by
  rcases Client.subscribe_cases hs with ⟨hm, -, -⟩ | ⟨-, rfl, -⟩
  · obtain ⟨b, hb, -, hconn⟩ := ((h.listed k).mem _ _).mp hm
    apply h.served
    unfold Client.connected
    rw [hb]
    exact hconn
  · have hnone : (s.clients k).seen (s.clients k).objects.length = none := by simp [Client.seen]
    have hempty : s.connected (k, (s.clients k).objects.length) = [] := by
      by_contra hne
      have hk := h.known k _ hne
      rw [hnone] at hk
      cases hk
    refine ⟨fun q hq => ?_, ?_, ?_⟩
    · rw [hempty] at hq
      cases hq
    · rw [hempty]
      exact List.nodup_nil
    · rw [hempty, Client.handlersOf_seen, hnone]
      rfl

/-- A call of the client's `stream` for an object without a stream. -/
theorem Inv.streams {ch : Channel} {s : QuickScene} (h : s.Inv) {q k i n a : Nat} {x : QuickStream}
    {c : Client} {method arg : Bytes} (hq : ∀ y, s.quicks q = some y → y.stream = none)
    (hs : (s.clients k).stream ch method arg (some n) = some (c, i)) (hx : x.stream = some (k, i))
    (hr : x.returnValue = some n) (hsound : x.Sound) :
    Inv { (s.setClient k c).setQuick q (some x) with
      connections := s.connections ++ [((k, i), q)], allocated := a } := by
  generalize hs' : ({ (s.setClient k c).setQuick q (some x) with
    connections := s.connections ++ [((k, i), q)], allocated := a } : QuickScene) = s'
  have hclients : ∀ j, s'.clients j = if j = k then c else s.clients j :=
    fun j => hs' ▸ setClient_clients s k j c
  have hquicks : ∀ p, s'.quicks p = if p = q then some x else s.quicks p :=
    fun p => hs' ▸ setQuick_quicks s q p (some x)
  have hlist : ∀ r, s'.connected r = s.connected r ++ if (k, i) = r then [q] else [] :=
    fun r => hs' ▸ connected_append s (k, i) r q
  have hstream : ∀ l, c.seen l = if i = l then some (true, true, (s.clients k).handlersOf i ++ [n])
      else (s.clients k).seen l := by
    intro l
    rw [Client.stream_seen hs l (h.listed k)]
    by_cases hl : l = i
    · rw [hl]
    · rw [if_neg hl, if_neg (Ne.symm hl)]
  have hseen := seen_replaced hclients hstream
  have hother : ∀ j l, (k, i) ≠ (j, l) → _ := fun j l hne =>
    Client.same_of_seen ((hseen j l).trans (if_neg hne))
  have hactive : (s'.clients k).connected i = true := by
    rw [Client.connected_seen, hseen, if_pos rfl]
    rfl
  have hhandlers : (s'.clients k).handlersOf i = (s.clients k).handlersOf i ++ [n] := by
    rw [Client.handlersOf_seen, hseen, if_pos rfl]
    rfl
  refine ⟨fun j => ?_, fun j l ha => ?_, fun p y hy => ?_, fun p y j l hy hys => ?_, fun j l hl => ?_,
    fun j l hl => ?_, fun j l hm => ?_⟩
  · rw [hclients]
    split
    · exact (h.listed k).subscribe rfl rfl hs
    · exact h.listed j
  · by_cases hne : (k, i) = (j, l)
    · cases hne
      exact hactive
    · rw [(hother j l hne).2.1]
      exact h.owned j l ((hother j l hne).1 ▸ ha)
  · rw [hquicks] at hy
    split at hy
    · cases hy
      exact hsound
    · exact h.sound p y hy
  · rw [hquicks] at hy
    split at hy
    · next hp =>
      cases hy
      rw [hx] at hys
      cases hys
      rw [hlist, hp]
      exact ⟨hactive, by simp⟩
    · obtain ⟨hl, hm⟩ := h.active p y j l hy hys
      rw [hlist]
      refine ⟨?_, List.mem_append_left _ hm⟩
      by_cases hne : (k, i) = (j, l)
      · cases hne
        exact hactive
      · exact (hother j l hne).2.1.trans hl
  · by_cases hne : (k, i) = (j, l)
    · cases hne
      refine (h.served_before hs).push hq ?_ hquicks hx hr hhandlers
      rw [hlist, if_pos rfl]
    · rw [(hother j l hne).2.1] at hl
      refine (h.served j l hl).congr ?_ (fun p hp => ?_) (hother j l hne).2.2
      · rw [hlist, if_neg hne, List.append_nil]
      · rw [hquicks, if_neg]
        rintro rfl
        exact h.not_connected hq hl hp
  · rw [hlist]
    by_cases hne : (k, i) = (j, l)
    · simp [hne]
    · rw [if_neg hne, List.append_nil]
      exact h.used j l ((hother j l hne).2.1 ▸ hl)
  · rw [hseen]
    split
    · rfl
    · next hne =>
      apply h.known
      rwa [hlist, if_neg hne, List.append_nil] at hm

/-- The connections of an object that is no longer there. -/
theorem Inv.disconnect {s : QuickScene} (h : s.Inv) {q : Nat} (hq : s.quicks q = none) :
    Inv { s with connections := s.connections.filter fun p => p.2 != q } := by
  have hsame : ∀ k i, (s.clients k).connected i = true →
      { s with connections := s.connections.filter fun p => p.2 != q }.connected (k, i) =
        s.connected (k, i) := by
    intro k i hc
    rw [connected_filter]
    apply List.filter_eq_self.mpr
    intro p hp
    simp only [bne_iff_ne, ne_eq]
    rintro rfl
    refine h.not_connected (fun x hx => ?_) hc hp
    rw [hq] at hx
    cases hx
  refine ⟨h.listed, h.owned, h.sound, fun p x k i hx hs => ?_, fun k i hc => ?_, fun k i hc => ?_,
    fun k i hm => ?_⟩
  · obtain ⟨hc, hm⟩ := h.active p x k i hx hs
    exact ⟨hc, hsame k i hc ▸ hm⟩
  · exact (h.served k i hc).congr (hsame k i hc) (fun _ _ => rfl) rfl
  · rw [hsame k i hc]
    exact h.used k i hc
  · apply h.known k i
    rw [connected_filter] at hm
    intro he
    rw [he] at hm
    exact hm rfl

end QuickScene

end QtProtobuf.Grpc
