import QtProtobuf.L4Client.Client

/-!
# Streams are shared

A call of `stream` or `streamBidirect` that matches a listed element returns
that element and appends its handler (`grpc/qabstractgrpcclient.cpp:149-152,
209-212`); the finished handler looks its element up by the same equality
(`:173-179, 233-239`). The lists are walked by value while connections and
handlers belong to objects; `Listed.keys` makes the two agree.

* `handlersOf_run`: the handlers of an object are those of the calls that
  returned it, in the order of the calls.
* `stream_sharing`: uniqueness, sharing, delivery and removal after every run.
-/
namespace QtProtobuf.Grpc

open Lib

/-- The streams a call would share: same method, and same argument where the
kind keeps one. -/
def SameStream : StreamKind → GrpcStream → GrpcStream → Prop
  | .server, s, t => s.method = t.method ∧ s.arg = t.arg
  | .bidirect, s, t => s.method = t.method

theorem sameStream_iff {k : StreamKind} {s t : GrpcStream} (hs : s.kind = k) (ht : t.kind = k) :
    SameStream k s t ↔ s.ident = t.ident := by
  unfold GrpcStream.ident
  cases k with
  | server => simp [SameStream, hs, ht]
  | bidirect => simp [SameStream, hs, ht]

namespace Client

def handlersOf (c : Client) (i : Nat) : List Nat := (c.objects[i]?.map GrpcStream.handlers).getD []

/-- The handler an event registers, with the stream the call returns. -/
def registers (ch : Channel) (c : Client) : ClientEvent → List (Nat × Nat)
  | .stream method arg handler =>
    match c.stream ch method arg handler with
    | some (_, i) => handler.toList.map fun h => (i, h)
    | none => []
  | .streamBidirect method handler =>
    match c.streamBidirect ch method handler with
    | some (_, i) => handler.toList.map fun h => (i, h)
    | none => []
  | _ => []

/-- The handlers registered along a run, in the order of the calls. -/
def registrations (ch : Channel) : Client → List ClientEvent → List (Nat × Nat)
  | _, [] => []
  | c, e :: es =>
    c.registers ch e ++
      match clientStep ch c e with
      | some c' => registrations ch c' es
      | none => []

def ofStream (i : Nat) (regs : List (Nat × Nat)) : List Nat :=
  (regs.filter fun r => r.1 == i).map Prod.snd

/-- The handlers registered for stream `i` since the client was made. -/
def registered (ch : Channel) (ls : List ClientEvent) (i : Nat) : List Nat :=
  ofStream i (registrations ch .new ls)

/-- The events that make stream `i` emit `finished`. -/
def Finishes (ch : Channel) (c : Client) (i : Nat) : ClientEvent → Prop
  | .abort j => j = i
  | .rpcFinished r .ok => c.rpcs[r]? = some i ∧ ∃ asserts, ch = .http2 asserts
  | _ => False

/-- What holds of the client a run `ls` leads to. -/
structure Sharing (ch : Channel) (ls : List ClientEvent) (c : Client) : Prop where
  unique : ∀ k, (c.active k).Pairwise fun i j =>
    ∀ s t, c.objects[i]? = some s → c.objects[j]? = some t → ¬ SameStream k s t
  stream : ∀ i ∈ c.activeStreams, ∀ s, c.objects[i]? = some s → ∀ handler, ∃ c',
    c.stream ch s.method s.arg handler = some (c', i) ∧
      c'.handlersOf i = c.handlersOf i ++ handler.toList ∧ ∀ k, c'.active k = c.active k
  streamBidirect : ∀ i ∈ c.activeStreamsBidirect, ∀ s, c.objects[i]? = some s → ∀ handler, ∃ c',
    c.streamBidirect ch s.method handler = some (c', i) ∧
      c'.handlersOf i = c.handlersOf i ++ handler.toList ∧ ∀ k, c'.active k = c.active k
  message : ∀ r i data, c.rpcs[r]? = some i → ∃ c', clientStep ch c (.message r data) = some c' ∧
    c'.handled = c.handled ++ (registered ch ls i).map fun h => (i, h, data)
  finished : ∀ e c' i, Finishes ch c i e → clientStep ch c e = some c' →
    ∀ k, c'.active k = (c.active k).filter (· != i)

/-! ## The handlers of an object -/

theorem handlersOf_update (c : Client) (i j : Nat) {f : GrpcStream → GrpcStream}
    (hf : ∀ s, (f s).handlers = s.handlers) : (c.update i f).handlersOf j = c.handlersOf j := by
  unfold handlersOf
  rw [update_get]
  split
  · cases c.objects[j]? with
    | none => rfl
    | some s => simp [hf]
  · rfl

theorem handlersOf_emitFinished (c : Client) (i j : Nat) :
    (c.emitFinished i).handlersOf j = c.handlersOf j := by
  unfold handlersOf
  rw [emitFinished_get]
  split
  · rw [Option.map_map]
    rfl
  · rfl

theorem handlersOf_emitError (c : Client) (i j : Nat) :
    (c.emitError i).handlersOf j = c.handlersOf j := by
  unfold emitError
  split <;> rfl

theorem handlersOf_channelStream {ch : Channel} {c c' : Client} {i : Nat}
    (h : c.channelStream ch i = some c') (j : Nat) : c'.handlersOf j = c.handlersOf j := by
  unfold handlersOf
  rw [channelStream_objects h]

theorem handlersOf_drop (c : Client) (i j : Nat) : (c.drop i).handlersOf j = c.handlersOf j := by
  have hu : (c.update i fun s => { s with held := false }).handlersOf j = c.handlersOf j := by
    apply handlersOf_update
    intro s
    rfl
  unfold drop
  dsimp only
  split
  · exact hu
  · exact hu

theorem handlersOf_handler (c : Client) (i j : Nat) (data : Bytes) :
    (c.handler i data).handlersOf j = c.handlersOf j := by
  unfold handler
  split
  · apply handlersOf_update (c := c)
    intro s
    rfl
  · rfl

theorem handlersOf_rpcFinished {ch : Channel} {c c' : Client} {i : Nat} {how : RpcEnd}
    (h : c.rpcFinished ch i how = some c') (j : Nat) : c'.handlersOf j = c.handlersOf j := by
  unfold rpcFinished at h
  split at h
  · cases h; rfl
  · cases h; exact handlersOf_emitError c i j
  · cases h; exact handlersOf_emitFinished c i j
  · exact handlersOf_channelStream h j
  · cases h; exact handlersOf_emitError c i j

theorem addHandler_handlers (s : GrpcStream) (handler : Option Nat) :
    (s.addHandler handler).handlers = s.handlers ++ handler.toList := by
  cases handler with
  | none => simp [GrpcStream.addHandler]
  | some h => simp [GrpcStream.addHandler]

/-- What a call leaves in the handlers: one more for the stream it returns. -/
theorem handlersOf_subscribe {ch : Channel} {c c' : Client} {s : GrpcStream}
    {handler : Option Nat} {i : Nat} (hs : s.handlers = handler.toList)
    (h : c.subscribe ch s handler = some (c', i)) (j : Nat) :
    c'.handlersOf j = c.handlersOf j ++ ofStream j (handler.toList.map fun h => (i, h)) := by
  have hreg : ofStream j (handler.toList.map fun h => (i, h)) =
      if i = j then handler.toList else [] := by
    unfold ofStream
    cases handler with
    | none => simp
    | some h =>
      by_cases hij : i = j
      · simp [hij]
      · simp [hij]
  rw [hreg]
  rcases subscribe_cases h with ⟨-, heq, rfl⟩ | ⟨-, rfl, c₁, h₁, rfl⟩
  · unfold handlersOf
    rw [update_get]
    split
    · rename_i hij
      subst hij
      unfold equals at heq
      cases hi : c.objects[i]? with
      | none => rw [hi] at heq; cases heq
      | some a => simp [addHandler_handlers]
    · simp
  · have hobj : c₁.objects = c.objects ++ [s] := channelStream_objects h₁
    unfold handlersOf
    rw [setActive_objects, hobj, objects_push]
    by_cases hj : j = c.objects.length
    · subst hj
      simp [hs]
    · rw [if_neg hj, if_neg (Ne.symm hj), List.append_nil]

theorem new_handlers (k : StreamKind) (method arg : Bytes) (handler : Option Nat) :
    (GrpcStream.new k method arg handler).handlers = handler.toList := by
  simp [GrpcStream.new, addHandler_handlers]

theorem ofStream_append (i : Nat) (l l' : List (Nat × Nat)) :
    ofStream i (l ++ l') = ofStream i l ++ ofStream i l' := by
  simp [ofStream]

/-- One event appends the handler it registers, and changes no other handlers. -/
theorem handlersOf_step {ch : Channel} {c c' : Client} {e : ClientEvent}
    (h : clientStep ch c e = some c') (i : Nat) :
    c'.handlersOf i = c.handlersOf i ++ ofStream i (c.registers ch e) := by
  have hsame : c'.handlersOf i = c.handlersOf i →
      c'.handlersOf i = c.handlersOf i ++ ofStream i [] := fun hs => by simp [hs, ofStream]
  cases e with
  | stream method arg handler =>
    obtain ⟨⟨c₁, j⟩, h₁, rfl⟩ := Option.map_eq_some_iff.mp h
    simp only [registers, h₁]
    exact handlersOf_subscribe (new_handlers ..) h₁ i
  | streamBidirect method handler =>
    obtain ⟨⟨c₁, j⟩, h₁, rfl⟩ := Option.map_eq_some_iff.mp h
    simp only [registers, h₁]
    exact handlersOf_subscribe (new_handlers ..) h₁ i
  | drop j =>
    apply hsame
    simp only [clientStep] at h
    split at h
    · cases h; exact handlersOf_drop c j i
    · cases h
  | message r data =>
    apply hsame
    obtain ⟨j, -, rfl⟩ := Option.map_eq_some_iff.mp h
    exact handlersOf_handler c j i data
  | rpcFinished r how =>
    apply hsame
    obtain ⟨j, -, h₁⟩ := Option.bind_eq_some_iff.mp h
    exact handlersOf_rpcFinished h₁ i
  | writeFails j =>
    apply hsame
    simp only [clientStep] at h
    split at h
    · cases h; exact handlersOf_emitError c j i
    · cases h
  | abort j =>
    apply hsame
    simp only [clientStep] at h
    split at h
    · cases h; exact handlersOf_emitFinished c j i
    · cases h
  | timeout t =>
    apply hsame
    obtain ⟨j, -, h₁⟩ := Option.bind_eq_some_iff.mp h
    unfold timeout at h₁
    split at h₁
    · exact handlersOf_channelStream h₁ i
    · cases h₁; rfl

/-- **Handlers.** The handlers of an object after a run: those it had, then
those registered for it, in order. -/
theorem handlersOf_run {ch : Channel} {c c' : Client} {ls : List ClientEvent}
    (h : exec (clientStep ch) c ls = some c') (i : Nat) :
    c'.handlersOf i = c.handlersOf i ++ ofStream i (registrations ch c ls) := by
  induction ls generalizing c with
  | nil =>
    cases h
    simp [registrations, ofStream]
  | cons e ls ih =>
    rw [exec] at h
    obtain ⟨c₁, h₁, h₂⟩ := Option.bind_eq_some_iff.mp h
    rw [ih h₂, handlersOf_step h₁, registrations, h₁, ofStream_append, List.append_assoc]

/-! ## Sharing -/

theorem Listed.of_mem {c : Client} (h : c.Listed) {k : StreamKind} {i : Nat} {s : GrpcStream}
    (hi : i ∈ c.active k) (hs : c.objects[i]? = some s) : s.kind = k ∧ s.connected = true := by
  obtain ⟨a, ha, hak, hac⟩ := (h.mem k i).mp hi
  rw [hs, Option.some.injEq] at ha
  rw [ha]
  exact ⟨hak, hac⟩

theorem find?_eq_some_of_iff {l : List Nat} {p : Nat → Bool} {i : Nat} (hi : i ∈ l)
    (hp : ∀ j ∈ l, p j = true ↔ j = i) : l.find? p = some i := by
  cases hf : l.find? p with
  | none => exact absurd ((hp i hi).mpr rfl) (List.find?_eq_none.mp hf i hi)
  | some j => rw [(hp j (List.mem_of_find?_eq_some hf)).mp (List.find?_some hf)]

/-- A call that matches a listed element returns it. -/
theorem Listed.subscribe_shared {c : Client} (h : c.Listed) (ch : Channel) {i : Nat}
    {s t : GrpcStream} (hm : i ∈ c.active s.kind) (hi : c.objects[i]? = some s)
    (ht : t.ident = s.ident) {handler : Option Nat} (hh : t.handlers = handler.toList) :
    ∃ c', c.subscribe ch t handler = some (c', i) ∧
      c'.handlersOf i = c.handlersOf i ++ handler.toList ∧ ∀ k, c'.active k = c.active k := by
  have hk : t.kind = s.kind := congrArg Prod.fst ht
  have hc := (h.of_mem hm hi).2
  have hfind : (c.active t.kind).find? (c.equals t) = some i := by
    rw [hk]
    exact find?_eq_some_of_iff hm fun j hj => h.equals_iff hi hc ht hj
  have hsub : c.subscribe ch t handler =
      some (c.update i (fun a => { a.addHandler handler with held := true }), i) := by
    unfold Client.subscribe
    rw [hfind]
  refine ⟨_, hsub, ?_, fun k => update_active ..⟩
  rw [handlersOf_subscribe hh hsub]
  congr 1
  cases handler <;> simp [ofStream]

theorem Listed.unique {c : Client} (h : c.Listed) (k : StreamKind) :
    (c.active k).Pairwise fun i j =>
      ∀ s t, c.objects[i]? = some s → c.objects[j]? = some t → ¬ SameStream k s t := by
  refine (List.pairwise_map.mp (h.keys k)).imp_of_mem fun {i j} hi hj hne s t hs ht hsame => ?_
  apply hne
  unfold ident
  rw [hs, ht, Option.map_some, Option.map_some,
    (sameStream_iff (h.of_mem hi hs).1 (h.of_mem hj ht).1).mp hsame]

/-- A message runs the handlers of its stream, each once, in their order. -/
theorem handler_handled (c : Client) (i : Nat) (data : Bytes) :
    (c.handler i data).handled = c.handled ++ (c.handlersOf i).map fun h => (i, h, data) := by
  unfold handler handlersOf
  cases c.objects[i]? with
  | none => simp
  | some s => rfl

theorem Listed.finished_removes {ch : Channel} {c c' : Client} (h : c.Listed) {e : ClientEvent}
    {i : Nat} (hf : Finishes ch c i e) (hs : clientStep ch c e = some c') (k : StreamKind) :
    c'.active k = (c.active k).filter (· != i) := by
  cases e with
  | abort j =>
    have hij : j = i := hf
    subst hij
    simp only [clientStep] at hs
    split at hs
    · cases hs; exact h.emitFinished_active j k
    · cases hs
  | rpcFinished r how =>
    cases how with
    | ok =>
      obtain ⟨hi, asserts, rfl⟩ := hf
      obtain ⟨j, hj, h₁⟩ := Option.bind_eq_some_iff.mp hs
      rw [hi, Option.some.injEq] at hj
      subst hj
      cases h₁
      have hm := h.mono (fun x (hx : x ∈ c.rpcs.eraseIdx r) => List.mem_of_mem_eraseIdx hx)
        fun x (hx : x ∈ c.timers) => hx
      rw [hm.emitFinished_active]
      cases k <;> rfl
    | failed => cases hf
    | remoteHostClosed => cases hf
  | stream => cases hf
  | streamBidirect => cases hf
  | drop => cases hf
  | message => cases hf
  | writeFails => cases hf
  | timeout => cases hf

/-- **Sharing of streams.** After every run of calls, messages, ends of RPCs,
aborts and timers: no two listed streams are equal, a matching call returns the
listed element with its handler appended, a message runs the handlers
registered for its stream once each and in order, and `finished` takes its
stream off the list and no other. -/
theorem stream_sharing {ch : Channel} {ls : List ClientEvent} {c : Client}
    (h : exec (clientStep ch) .new ls = some c) : c.Sharing ch ls := by
  have hl : c.Listed :=
    (Listed.inductive ch).reachable ⟨.new, ls, rfl, exec_run Client.new (f := clientStep ch) h⟩
  refine ⟨hl.unique, fun i hi s hs handler => ?_, fun i hi s hs handler => ?_,
    fun r i data hr => ?_, fun e c' i => hl.finished_removes⟩
  · have hk : s.kind = .server := (hl.of_mem (k := .server) hi hs).1
    have hid : (GrpcStream.new .server s.method s.arg handler).ident = s.ident := by
      rw [GrpcStream.new, GrpcStream.addHandler_ident]
      simp [GrpcStream.ident, hk]
    exact hl.subscribe_shared ch (by rw [hk]; exact hi) hs hid (new_handlers ..)
  · have hk : s.kind = .bidirect := (hl.of_mem (k := .bidirect) hi hs).1
    have hid : (GrpcStream.new .bidirect s.method [] handler).ident = s.ident := by
      rw [GrpcStream.new, GrpcStream.addHandler_ident]
      simp [GrpcStream.ident, hk]
    exact hl.subscribe_shared ch (by rw [hk]; exact hi) hs hid (new_handlers ..)
  · refine ⟨c.handler i data, ?_, ?_⟩
    · simp only [clientStep]
      rw [hr, Option.map_some]
    · have hreg : c.handlersOf i = registered ch ls i := by
        rw [handlersOf_run h i]
        rfl
      rw [handler_handled, hreg]

/-- A stream is shared by two calls and aborted, an equal one is made, and the
first is aborted again: the second stays, with its own handler. -/
theorem stream_sharing_recreated : ∃ c, exec (clientStep .grpc) .new
    [.stream [0x6d] [1] (some 7), .stream [0x6d] [1] (some 8), .abort 0,
      .stream [0x6d] [1] (some 9), .abort 0] = some c ∧
    c.activeStreams = [1] ∧ c.Sharing .grpc
      [.stream [0x6d] [1] (some 7), .stream [0x6d] [1] (some 8), .abort 0,
        .stream [0x6d] [1] (some 9), .abort 0] := by
  obtain ⟨c, hc, ha⟩ : ∃ c, exec (clientStep .grpc) .new
      [.stream [0x6d] [1] (some 7), .stream [0x6d] [1] (some 8), .abort 0,
        .stream [0x6d] [1] (some 9), .abort 0] = some c ∧ c.activeStreams = [1] :=
    ⟨_, rfl, by decide⟩
  exact ⟨c, hc, ha, stream_sharing hc⟩

end Client

end QtProtobuf.Grpc
