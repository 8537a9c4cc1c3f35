import QtProtobuf.L4Client.StreamSharing

/-!
# Messages reach the handlers

A stream object keeps the handlers of all calls that returned it and runs them on
each message of its RPCs (`grpc/qgrpcstream.h:84-90`). RPCs of one stream come and
go: `finished`, errors and retry timers, other calls that share the object.

* `handled_step`: only a message runs handlers.
* `handled_run`: the runs of one handler, from one state to a later one.
* `delivered_once`: from its registration on, a handler gets each message of its
  stream once, in order, and nothing else.
-/
namespace QtProtobuf.Grpc.Client

open Lib

/-- The message that an event brings for stream `i`, over whatever RPC. -/
def arrival (i : Nat) (c : Client) : ClientEvent → List Bytes
  | .message r data => if c.rpcs[r]? = some i then [data] else []
  | _ => []

/-- The messages of stream `i` along a run. -/
def received (ch : Channel) (i : Nat) : Client → List ClientEvent → List Bytes
  | _, [] => []
  | c, e :: es =>
    arrival i c e ++
      match clientStep ch c e with
      | some c' => received ch i c' es
      | none => []

/-! ## What runs handlers -/

theorem emitError_handled (c : Client) (i : Nat) : (c.emitError i).handled = c.handled := by
  unfold emitError
  split <;> rfl

theorem setActive_handled (c : Client) (k : StreamKind) (l : List Nat) :
    (c.setActive k l).handled = c.handled := by cases k <;> rfl

theorem emitFinished_handled (c : Client) (i : Nat) : (c.emitFinished i).handled = c.handled := by
  unfold emitFinished
  dsimp only
  unfold onFinished
  split
  · split
    · show (setActive _ _ _).handled = _
      rw [setActive_handled]
      rfl
    · rfl
  · rfl

theorem channelStream_handled {ch : Channel} {c c' : Client} {i : Nat}
    (h : c.channelStream ch i = some c') : c'.handled = c.handled := by
  rcases channelStream_cases h with ⟨rfl, -⟩ | rfl <;> rfl

theorem drop_handled (c : Client) (i : Nat) : (c.drop i).handled = c.handled := by
  unfold drop
  dsimp only
  split <;> rfl

theorem subscribe_handled {ch : Channel} {c c' : Client} {s : GrpcStream} {handler : Option Nat} {i : Nat}
    (h : c.subscribe ch s handler = some (c', i)) : c'.handled = c.handled := by
  rcases subscribe_cases h with ⟨-, -, rfl⟩ | ⟨-, -, c₁, h₁, rfl⟩
  · rfl
  · rw [setActive_handled]
    exact channelStream_handled (c := { c with objects := c.objects ++ [s] }) h₁

theorem rpcFinished_handled {ch : Channel} {c c' : Client} {i : Nat} {how : RpcEnd}
    (h : c.rpcFinished ch i how = some c') : c'.handled = c.handled := by
  unfold rpcFinished at h
  split at h
  · cases h; rfl
  · cases h; exact emitError_handled c i
  · cases h; exact emitFinished_handled c i
  · exact channelStream_handled h
  · cases h; exact emitError_handled c i

/-- The handlers that an event runs. -/
def runs (c : Client) : ClientEvent → List (Nat × Nat × Bytes)
  | .message r data => c.rpcs[r]?.elim [] fun i => (c.handlersOf i).map fun h => (i, h, data)
  | _ => []

theorem runs_message {c : Client} {r i : Nat} (hi : c.rpcs[r]? = some i) (data : Bytes) :
    c.runs (.message r data) = (c.handlersOf i).map fun h => (i, h, data) := by
  show c.rpcs[r]?.elim _ _ = _
  rw [hi]
  rfl

theorem handled_step {ch : Channel} {c c' : Client} {e : ClientEvent} (h : clientStep ch c e = some c') :
    c'.handled = c.handled ++ c.runs e := by
  have hsame : c'.handled = c.handled → c'.handled = c.handled ++ [] := fun hs => by
    rw [hs, List.append_nil]
  cases e with
  | stream method arg handler =>
    obtain ⟨⟨c₁, j⟩, h₁, rfl⟩ := Option.map_eq_some_iff.mp h
    exact hsame (subscribe_handled h₁)
  | streamBidirect method handler =>
    obtain ⟨⟨c₁, j⟩, h₁, rfl⟩ := Option.map_eq_some_iff.mp h
    exact hsame (subscribe_handled h₁)
  | drop j =>
    simp only [clientStep] at h
    split at h
    · cases h
      exact hsame (drop_handled c j)
    · cases h
  | message r data =>
    obtain ⟨j, hj, rfl⟩ := Option.map_eq_some_iff.mp h
    rw [handler_handled, runs_message hj]
  | rpcFinished r how =>
    obtain ⟨j, -, h₁⟩ := Option.bind_eq_some_iff.mp h
    exact hsame (rpcFinished_handled (c := { c with rpcs := c.rpcs.eraseIdx r }) h₁)
  | writeFails j =>
    simp only [clientStep] at h
    split at h
    · cases h
      exact hsame (emitError_handled c j)
    · cases h
  | abort j =>
    simp only [clientStep] at h
    split at h
    · cases h
      exact hsame (emitFinished_handled c j)
    · cases h
  | timeout t =>
    obtain ⟨j, -, h₁⟩ := Option.bind_eq_some_iff.mp h
    unfold timeout at h₁
    split at h₁
    · exact hsame (channelStream_handled (c := { c with timers := c.timers.eraseIdx t }) h₁)
    · cases h₁
      exact hsame rfl

/-! ## The runs of one handler -/

/-- The runs of `h` among the handlers of a stream that has it `k` times. -/
theorem filter_runs {hs : List Nat} {h k : Nat} (hk : hs.count h = k) (j : Nat) (data : Bytes) :
    (hs.map fun h' => (j, h', data)).filter (fun x => x.2.1 == h) = List.replicate k (j, h, data) := by
  subst hk
  rw [List.filter_map]
  have hcomp : ((fun x : Nat × Nat × Bytes => x.2.1 == h) ∘ fun h' => (j, h', data)) = (· == h) := rfl
  rw [hcomp, List.filter_beq, List.map_replicate]

theorem filter_runs_arrival {c : Client} {h i k : Nat}
    (hc : ∀ j, (c.handlersOf j).count h = if j = i then k else 0) (e : ClientEvent) :
    (c.runs e).filter (fun x => x.2.1 == h) =
      (arrival i c e).flatMap fun data => List.replicate k (i, h, data) := by
  cases e with
  | message r data =>
    cases hr : c.rpcs[r]? with
    | none => simp [runs, arrival, hr]
    | some j =>
      rw [runs_message hr, filter_runs (hc j)]
      by_cases hij : j = i
      · subst hij
        simp [arrival, hr]
      · simp [arrival, hr, hij]
  | _ => rfl

/-- As long as `h` is registered `k` times for the stream `i` and no other one, it is
run `k` times on each message of `i`. -/
theorem handled_run {ch : Channel} {c c' : Client} {ls : List ClientEvent} {h i k : Nat}
    (hrun : exec (clientStep ch) c ls = some c') (hc : ∀ j, (c.handlersOf j).count h = if j = i then k else 0)
    (hn : ∀ r ∈ registrations ch c ls, r.2 ≠ h) :
    c'.handled.filter (fun x => x.2.1 == h) = c.handled.filter (fun x => x.2.1 == h) ++
      (received ch i c ls).flatMap fun data => List.replicate k (i, h, data) := by
  induction ls generalizing c with
  | nil =>
    cases hrun
    rw [received, List.flatMap_nil, List.append_nil]
  | cons e ls ih =>
    rw [exec] at hrun
    obtain ⟨c₁, h₁, h₂⟩ := Option.bind_eq_some_iff.mp hrun
    rw [registrations, h₁] at hn
    have hnow : ∀ r ∈ c.registers ch e, r.2 ≠ h := fun r hr => hn r (List.mem_append_left _ hr)
    have hc₁ : ∀ j, (c₁.handlersOf j).count h = if j = i then k else 0 := fun j => by
      have hzero : (ofStream j (c.registers ch e)).count h = 0 := by
        rw [List.count_eq_zero]
        intro hm
        obtain ⟨r, hr, heq⟩ := List.mem_map.mp hm
        exact hnow r (List.mem_filter.mp hr).1 heq
      rw [handlersOf_step h₁, List.count_append, hzero, hc j, Nat.add_zero]
    rw [ih h₂ hc₁ fun r hr => hn r (List.mem_append_right _ hr), handled_step h₁, List.filter_append,
      received, h₁, List.flatMap_append, List.append_assoc]
    rw [filter_runs_arrival hc]

/-- **Delivery.** From the call that registers it on, a handler is run on each
message of its stream exactly once, in order, and on nothing else: over all RPCs
of the stream, whatever the other streams and calls do. -/
theorem delivered_once {ch : Channel} {before after : List ClientEvent} {e : ClientEvent}
    {c₀ c₁ c₂ : Client} {i h : Nat} (h₀ : exec (clientStep ch) .new before = some c₀)
    (h₁ : clientStep ch c₀ e = some c₁) (h₂ : exec (clientStep ch) c₁ after = some c₂)
    (hreg : c₀.registers ch e = [(i, h)]) (hb : ∀ r ∈ registrations ch .new before, r.2 ≠ h)
    (ha : ∀ r ∈ registrations ch c₁ after, r.2 ≠ h) :
    c₂.handled.filter (fun x => x.2.1 == h) = (received ch i c₁ after).map fun data => (i, h, data) := by
  have hnone : ∀ j, (c₀.handlersOf j).count h = 0 := fun j => by
    rw [handlersOf_run h₀ j, List.count_eq_zero]
    intro hm
    obtain ⟨r, hr, heq⟩ := List.mem_map.mp hm
    exact hb r (List.mem_filter.mp hr).1 heq
  have hempty : c₀.handled.filter (fun x => x.2.1 == h) = [] := by
    rw [handled_run h₀ (i := i) (k := 0) (fun j => by simp [handlersOf, Client.new]) hb]
    simp [Client.new]
  have honce : ∀ j, (c₁.handlersOf j).count h = if j = i then 1 else 0 := fun j => by
    rw [handlersOf_step h₁, List.count_append, hnone j, hreg]
    by_cases hij : j = i
    · subst hij
      simp [ofStream]
    · simp [ofStream, hij, Ne.symm hij]
  have hrun : c₀.runs e = [] := by
    cases e with
    | message => cases hreg
    | _ => rfl
  rw [handled_run h₂ honce ha, handled_step h₁, hrun, List.append_nil, hempty, List.nil_append,
    List.map_eq_flatMap]
  rfl

/-- The second call shares the stream; its handler misses the first message. -/
theorem delivered_once_shared : ∃ c₀ c₁ c₂, exec (clientStep .grpc) .new
      [.stream [0x6d] [1] (some 7), .message 0 [5]] = some c₀ ∧
    clientStep .grpc c₀ (.stream [0x6d] [1] (some 8)) = some c₁ ∧
    exec (clientStep .grpc) c₁ [.message 0 [6], .streamBidirect [0x6d] (some 9), .message 0 [6]] = some c₂ ∧
    c₂.handled.filter (fun x => x.2.1 == 8) = (received .grpc 0 c₁
      [.message 0 [6], .streamBidirect [0x6d] (some 9), .message 0 [6]]).map fun data => (0, 8, data) := by
  obtain ⟨c₀, h₀, c₁, h₁, c₂, h₂, hreg, hb, ha⟩ : ∃ c₀, exec (clientStep .grpc) .new
      [.stream [0x6d] [1] (some 7), .message 0 [5]] = some c₀ ∧
    ∃ c₁, clientStep .grpc c₀ (.stream [0x6d] [1] (some 8)) = some c₁ ∧
    ∃ c₂, exec (clientStep .grpc) c₁ [.message 0 [6], .streamBidirect [0x6d] (some 9), .message 0 [6]] = some c₂ ∧
      c₀.registers .grpc (.stream [0x6d] [1] (some 8)) = [(0, 8)] ∧
      (∀ r ∈ registrations .grpc .new [.stream [0x6d] [1] (some 7), .message 0 [5]], r.2 ≠ 8) ∧
      ∀ r ∈ registrations .grpc c₁ [.message 0 [6], .streamBidirect [0x6d] (some 9), .message 0 [6]],
        r.2 ≠ 8 := ⟨_, rfl, _, rfl, _, rfl, by decide, by decide, by decide⟩
  exact ⟨c₀, c₁, c₂, h₀, h₁, h₂, delivered_once h₀ h₁ h₂ hreg hb ha⟩

end QtProtobuf.Grpc.Client
