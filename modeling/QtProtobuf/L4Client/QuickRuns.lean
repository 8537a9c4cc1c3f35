import QtProtobuf.L4Client.QuickStream

/-!
# Runs of `GrpcStream` objects

What the setters do to an object with and without a stream, each event of a scene,
and what holds after every run.

* `set_live`: what a changed property does to an object with a stream.
* `Inv.step`: every event keeps the invariant.
* `quick_streams`: every object is idle or has an active stream, every active
  stream belongs to an object.
* `changed_property`: a changed property ends the stream and disables the object
  and all others of this stream; the stream is not made anew.
* `message_announced`: an object announces a message exactly when the message
  was read into its return value.
-/
namespace QtProtobuf.Grpc

open Lib

namespace QuickScene

/-! ## The events -/

theorem setQuick_setQuick (s : QuickScene) (q : Nat) (x y : Option QuickStream) :
    (s.setQuick q x).setQuick q y = s.setQuick q y := by
  simp [setQuick, Function.update_idem]

/-- An object lets go of its stream together with all others connected to it. -/
theorem abort_setQuick (s : QuickScene) (r : StreamRef) (q : Nat) (x y : Option QuickStream) :
    ((s.setQuick q x).abort r).setQuick q y = (s.abort r).setQuick q y := by
  have hquicks : Function.update ((s.setQuick q x).abort r).quicks q y =
      Function.update (s.abort r).quicks q y := by
    funext p
    rw [Function.update_apply, Function.update_apply]
    split
    · rfl
    · next hp =>
      show (if p ∈ s.connected r then ((s.setQuick q x).quicks p).map QuickStream.onFinished
        else (s.setQuick q x).quicks p) = _
      rw [setQuick_quicks, if_neg hp]
      rfl
  show { ((s.setQuick q x).abort r) with quicks := Function.update ((s.setQuick q x).abort r).quicks q y } = _
  rw [hquicks]
  rfl

/-- **A changed property of an object with a stream.** -/
theorem set_live {ch : Nat → Channel} {s : QuickScene} {q : Nat} {x : QuickStream} {r : StreamRef}
    (hx : s.quicks q = some x) (hr : x.stream = some r) (hq : q ∈ s.connected r) {p : QuickProperty}
    (hp : x.write p ≠ x) (attempt : Attempt) : s.set ch q p attempt =
      some ((s.abort r).setQuick q
        (some { x.write p with enabled := false, stream := none, returnValue := none })) := by
  have hstream : (x.write p).stream = some r := by cases p <;> exact hr
  have hself : ((s.setQuick q (some (x.write p))).abort r).quicks q = some (x.write p).onFinished := by
    show (if q ∈ s.connected r then _ else _) = _
    rw [if_pos hq, setQuick_quicks, if_pos rfl]
    rfl
  have hset : (s.setQuick q (some (x.write p))).quicks q = some (x.write p) := by
    rw [setQuick_quicks, if_pos rfl]
  unfold set
  simp only [hx, Option.bind_eq_bind, Option.bind_some, if_neg hp]
  unfold updateStream
  simp only [hset, hstream, Option.bind_eq_bind, Option.bind_some, hself, QuickStream.onFinished_clear,
    abort_setQuick, Bool.not_false, Bool.or_true, if_true]
  cases (x.write p).client <;> rfl

/-- A changed property of an object without a stream: the object stays without
one, or it has the stream that the client returns. -/
theorem set_without {ch : Nat → Channel} {s s' : QuickScene} {q : Nat} {x : QuickStream}
    (hx : s.quicks q = some x) (hsound : x.Sound) (hr : x.stream = none) {p : QuickProperty}
    (hp : x.write p ≠ x) {attempt : Attempt} (h : s.set ch q p attempt = some s') :
    (∃ y a, y.Sound ∧ y.stream = none ∧ s' = { s.setQuick q (some y) with allocated := a }) ∨
      ∃ y k i c method arg, y.Sound ∧ y.stream = some (k, i) ∧ y.returnValue = some s.allocated ∧
        (s.clients k).stream (ch k) method arg (some s.allocated) = some (c, i) ∧
        s' = { (s.setClient k c).setQuick q (some y) with
          connections := s.connections ++ [((k, i), q)], allocated := s.allocated + 1 } := by
  generalize hy : x.write p = y at h hp
  have hstream : y.stream = none := by rw [← hy]; cases p <;> exact hr
  have hvalue : y.returnValue = none := by
    have := hsound.returnValue hr
    rw [← hy]
    cases p <;> exact this
  have hset : (s.setQuick q (some y)).quicks q = some y := by rw [setQuick_quicks, if_pos rfl]
  have hclear : { y with stream := none }.clear = y := by
    unfold QuickStream.clear
    rw [← hvalue, ← hstream]
  have hdisabled : ∀ v, ({ y with returnValue := v } : QuickStream).enabled = true →
      ({ y with returnValue := v } : QuickStream).disable =
        { y with enabled := false, returnValue := none } := by
    intro v he
    unfold QuickStream.disable
    rw [if_pos he]
    rfl
  have hoff : ({ y with enabled := false, returnValue := none } : QuickStream).Sound ∧
      ({ y with enabled := false, returnValue := none } : QuickStream).stream = none :=
    ⟨⟨by rw [hstream]; rfl, fun _ => hstream, fun h => by cases h⟩, hstream⟩
  unfold set at h
  simp only [hx, Option.bind_eq_bind, Option.bind_some, hy, if_neg hp] at h
  unfold updateStream at h
  simp only [hset, hstream, Option.bind_eq_bind, Option.bind_some, hclear, setQuick_setQuick] at h
  have hstay : (y.idle || !y.enabled) = true →
      ∃ z a, z.Sound ∧ z.stream = none ∧
        s.setQuick q (some y) = { s.setQuick q (some z) with allocated := a } := by
    intro hi
    refine ⟨y, s.allocated, ⟨by rw [hstream, hvalue]; rfl, fun _ => hstream, fun he _ => ?_⟩, hstream, rfl⟩
    simpa [he] using hi
  split at h
  · next hc =>
    cases h
    exact .inl (hstay (by simp [QuickStream.idle, hc]))
  · next k hc =>
    split at h
    · next hi =>
      cases h
      exact .inl (hstay hi)
    · next hi =>
      have he : y.enabled = true := by
        cases he : y.enabled with
        | true => rfl
        | false => simp [he] at hi
      cases attempt with
      | refused =>
        cases h
        refine .inl ⟨_, s.allocated, hoff.1, hoff.2, ?_⟩
        rw [setQuick_setQuick, ← hdisabled y.returnValue he]
        rfl
      | failed =>
        cases h
        refine .inl ⟨_, s.allocated + 1, hoff.1, hoff.2, ?_⟩
        rw [setQuick_setQuick, ← hdisabled (some s.allocated) he]
        rfl
      | streams method arg =>
        obtain ⟨⟨c, i⟩, hs, h⟩ := Option.bind_eq_some_iff.mp h
        cases h
        refine .inr ⟨{ y with stream := some (k, i), returnValue := some s.allocated }, k, i, c, method,
          arg, ⟨rfl, fun hf => ?_, fun _ hn => by cases hn⟩, rfl, rfl, hs, ?_⟩
        · rw [he] at hf
          cases hf
        · simp [setQuick, QuickScene.setClient, Function.update_idem]

theorem Inv.abort {s : QuickScene} (h : s.Inv) {k i : Nat} (hc : (s.clients k).connected i = true) :
    (s.abort (k, i)).Inv :=
  h.finish ((h.listed k).emitFinished i) hc fun j => Client.emitFinished_seen _ i j

/-- An object after the `abort` of its stream. -/
theorem Inv.abort_quick {s : QuickScene} (h : s.Inv) {q k i : Nat} {x : QuickStream}
    (hx : s.quicks q = some x) (hr : x.stream = some (k, i)) :
    (s.abort (k, i)).Inv ∧ ∀ y, (s.abort (k, i)).quicks q = some y → y.stream = none := by
  obtain ⟨hc, hq⟩ := h.active q x k i hx hr
  refine ⟨h.abort hc, fun y hy => ?_⟩
  obtain ⟨z, -, rfl⟩ := Option.map_eq_some_iff.mp ((if_pos hq).symm.trans hy)
  exact z.onFinished_stream

theorem Inv.set {ch : Nat → Channel} {s s' : QuickScene} (h : s.Inv) {q : Nat} {p : QuickProperty}
    {attempt : Attempt} (hs : s.set ch q p attempt = some s') : s'.Inv := by
  cases hx : s.quicks q with
  | none => simp [QuickScene.set, hx] at hs
  | some x =>
    by_cases hp : x.write p = x
    · simp only [QuickScene.set, hx, Option.bind_eq_bind, Option.bind_some, if_pos hp] at hs
      cases hs
      exact h
    · cases hr : x.stream with
      | some r =>
        obtain ⟨k, i⟩ := r
        rw [set_live hx hr (h.active q x k i hx hr).2 hp] at hs
        cases hs
        obtain ⟨habort, hnone⟩ := h.abort_quick hx hr
        refine habort.setQuick hnone fun y hy => ?_
        cases hy
        exact ⟨⟨rfl, fun _ => rfl, fun h => by cases h⟩, rfl⟩
      | none =>
        have hq : ∀ y, s.quicks q = some y → y.stream = none := by
          intro y hy
          rw [hx, Option.some.injEq] at hy
          rw [← hy, hr]
        rcases set_without hx (h.sound q x hx) hr hp hs with
          ⟨y, a, hsound, hnone, rfl⟩ | ⟨y, k, i, c, method, arg, hsound, hsome, hvalue, hstream, rfl⟩
        · have hset : (s.setQuick q (some y)).Inv := by
            refine h.setQuick hq fun z hz => ?_
            cases hz
            exact ⟨hsound, hnone⟩
          exact ⟨hset.listed, hset.owned, hset.sound, hset.active,
            fun k i hc => (hset.served k i hc).congr rfl (fun _ _ => rfl) rfl, hset.used, hset.known⟩
        · exact h.streams hq hstream hsome hvalue hsound

theorem Inv.destroy {s s' : QuickScene} (h : s.Inv) {q : Nat} (hs : s.destroy q = some s') : s'.Inv := by
  have hremove : ∀ t : QuickScene, t.Inv → (∀ x, t.quicks q = some x → x.stream = none) →
      Inv { t.setQuick q none with connections := t.connections.filter fun p => p.2 != q } := by
    intro t ht hq
    have hset : (t.setQuick q none).Inv := ht.setQuick hq fun x hx => (by cases hx)
    exact hset.disconnect (by rw [setQuick_quicks, if_pos rfl])
  unfold QuickScene.destroy at hs
  cases hx : s.quicks q with
  | none => simp [hx] at hs
  | some x =>
    simp only [hx, Option.bind_eq_bind, Option.bind_some] at hs
    cases hr : x.stream with
    | none =>
      rw [hr] at hs
      cases hs
      refine hremove s h fun y hy => ?_
      rw [hx, Option.some.injEq] at hy
      rw [← hy, hr]
    | some r =>
      rw [hr] at hs
      cases hs
      obtain ⟨habort, hnone⟩ := h.abort_quick hx hr
      exact hremove _ habort hnone

theorem Inv.forget {s : QuickScene} (h : s.Inv) (argument : Nat) : (s.forget argument).Inv := by
  generalize hf : (fun x : QuickStream =>
    if x.argument = some argument then { x with argument := none } else x) = f
  have hstream : ∀ x, (f x).stream = x.stream := by
    intro x
    rw [← hf]
    dsimp only
    split <;> rfl
  have hvalue : ∀ x, (f x).returnValue = x.returnValue := by
    intro x
    rw [← hf]
    dsimp only
    split <;> rfl
  have hsound : ∀ x, x.Sound → (f x).Sound := by
    intro x hx
    rw [← hf]
    dsimp only
    split
    · exact ⟨hx.paired, hx.enabled, fun _ _ => by simp [QuickStream.idle]⟩
    · exact hx
  have hquicks : ∀ q, (s.forget argument).quicks q = (s.quicks q).map f := fun q => by
    rw [← hf]
    rfl
  refine ⟨h.listed, h.owned, fun q x hx => ?_, fun q x k i hx hs => ?_, fun k i hc => ?_, h.used, h.known⟩
  · rw [hquicks] at hx
    obtain ⟨y, hy, rfl⟩ := Option.map_eq_some_iff.mp hx
    exact hsound y (h.sound q y hy)
  · rw [hquicks] at hx
    obtain ⟨y, hy, rfl⟩ := Option.map_eq_some_iff.mp hx
    rw [hstream] at hs
    exact h.active q y k i hy hs
  · have hserved := h.served k i hc
    refine ⟨fun q hm => ?_, hserved.once, ?_⟩
    · obtain ⟨y, hy, hs⟩ := hserved.linked q hm
      exact ⟨f y, by rw [hquicks, hy]; rfl, by rw [hstream, hs]⟩
    · refine (List.map_congr_left fun q _ => ?_).trans hserved.handlers
      rw [hquicks]
      cases s.quicks q with
      | none => rfl
      | some x => exact hvalue x

/-- An RPC belongs to an active stream. -/
theorem Inv.rpc {s : QuickScene} (h : s.Inv) {k r i : Nat} (hr : (s.clients k).rpcs[r]? = some i) :
    (s.clients k).connected i = true :=
  h.owned k i ((h.listed k).rpcs i (List.mem_of_getElem? hr))

theorem message_eq {s : QuickScene} {k r i : Nat} (hr : (s.clients k).rpcs[r]? = some i) (data : Bytes) :
    s.message k r data = some { s.setClient k ((s.clients k).handler i data) with
      received := s.received ++
        (s.connected (k, i)).map fun q => (q, (s.quicks q).bind (·.returnValue)) } := by
  simp [message, hr]

theorem Inv.message {s s' : QuickScene} (h : s.Inv) {k r : Nat} {data : Bytes}
    (hs : s.message k r data = some s') : s'.Inv := by
  obtain ⟨i, hr, -⟩ := Option.bind_eq_some_iff.mp hs
  rw [message_eq hr] at hs
  cases hs
  have hc := h.setClient ((h.listed k).handler i data) fun j => Client.handler_seen _ i j data
  exact ⟨hc.listed, hc.owned, hc.sound, hc.active,
    fun j l hl => (hc.served j l hl).congr rfl (fun _ _ => rfl) rfl, hc.used, hc.known⟩

theorem Inv.rpcFinished {ch : Nat → Channel} {s s' : QuickScene} (h : s.Inv) {k r : Nat} {how : RpcEnd}
    (hs : s.rpcFinished ch k r how = some s') : s'.Inv := by
  unfold QuickScene.rpcFinished at hs
  obtain ⟨i, hi, hs⟩ := Option.bind_eq_some_iff.mp hs
  obtain ⟨c, hc, hs⟩ := Option.bind_eq_some_iff.mp hs
  generalize hc₀ : ({ s.clients k with rpcs := (s.clients k).rpcs.eraseIdx r } : Client) = c₀ at hc
  have hm : c₀.Listed := hc₀ ▸ (h.listed k).mono
    (fun j (hj : j ∈ (s.clients k).rpcs.eraseIdx r) => List.mem_of_mem_eraseIdx hj)
    fun j (hj : j ∈ (s.clients k).timers) => hj
  have hseen : ∀ j, c₀.seen j = (s.clients k).seen j := fun j => by rw [← hc₀]; rfl
  have hactive := h.rpc hi
  have halive : c₀.alive i = true := by
    rw [Client.alive_seen, hseen, ← Client.alive_seen]
    exact (h.listed k).rpcs i (List.mem_of_getElem? hi)
  have hlisted : c.Listed := hm.rpcFinished halive hc
  cases hch : ch k with
  | grpc =>
    rw [hch] at hs hc
    cases hs
    refine h.setClient hlisted fun j => ?_
    cases how with
    | ok => cases hc; exact hseen j
    | failed | remoteHostClosed =>
      cases hc
      rw [Client.emitError_seen, hseen]
  | http2 asserts =>
    rw [hch] at hs hc
    cases how with
    | ok =>
      cases hs
      cases hc
      refine h.finish hlisted hactive fun j => ?_
      rw [Client.emitFinished_seen, hseen]
    | failed =>
      cases hs
      cases hc
      refine h.setClient hlisted fun j => ?_
      rw [Client.emitError_seen, hseen]
    | remoteHostClosed =>
      cases hs
      refine h.setClient hlisted fun j => ?_
      rw [Client.channelStream_seen hc, hseen]

theorem Inv.timeout {ch : Nat → Channel} {s : QuickScene} (h : s.Inv) {k t : Nat} {c : Client}
    (hs : clientStep (ch k) (s.clients k) (.timeout t) = some c) : (s.setClient k c).Inv := by
  refine h.setClient ((h.listed k).step hs) fun j => ?_
  obtain ⟨i, -, h₁⟩ := Option.bind_eq_some_iff.mp hs
  unfold Client.timeout at h₁
  split at h₁
  · rw [Client.channelStream_seen h₁]
    rfl
  · cases h₁
    rfl

theorem Inv.step {ch : Nat → Channel} {s s' : QuickScene} {e : QuickEvent} (h : s.Inv)
    (hs : quickStep ch s e = some s') : s'.Inv := by
  cases e with
  | create q =>
    simp only [quickStep] at hs
    split at hs
    · cases hs
    · next hq =>
      cases hs
      refine h.setQuick (fun x hx => ?_) fun x hx => ?_
      · rw [hx] at hq
        exact absurd rfl hq
      · cases hx
        exact ⟨.new, rfl⟩
  | destroy q => exact h.destroy hs
  | set q p attempt => exact h.set hs
  | forget argument =>
    cases hs
    exact h.forget argument
  | message k r data => exact h.message hs
  | rpcFinished k r how => exact h.rpcFinished hs
  | timeout k t =>
    obtain ⟨c, hc, rfl⟩ := Option.map_eq_some_iff.mp hs
    exact h.timeout hc

theorem Inv.run {ch : Nat → Channel} {s : QuickScene} {es : List QuickEvent}
    (h : exec (quickStep ch) .new es = some s) : s.Inv :=
  exec_invariant (C := fun _ => True) (fun _ _ _ hi _ hs => hi.step hs) (fun _ _ => trivial) h .new

/-- The objects of an active stream, each with the return value of its handler. -/
theorem Inv.announced {s : QuickScene} (h : s.Inv) {k i : Nat} (hc : (s.clients k).connected i = true) :
    ∃ l : List (Nat × Nat), l.map Prod.fst = s.connected (k, i) ∧
      l.map Prod.snd = (s.clients k).handlersOf i ∧
      ∀ p ∈ l, (s.quicks p.1).bind (·.returnValue) = some p.2 := by
  have hvalues := (h.served k i hc).handlers
  have hlen : (s.connected (k, i)).length = ((s.clients k).handlersOf i).length := by
    simpa using congrArg List.length hvalues
  refine ⟨(s.connected (k, i)).zip ((s.clients k).handlersOf i), List.map_fst_zip (Nat.le_of_eq hlen),
    List.map_snd_zip (Nat.le_of_eq hlen.symm), fun p hp => ?_⟩
  obtain ⟨n, hn⟩ := List.mem_iff_getElem?.mp hp
  obtain ⟨hn₁, hn₂⟩ := List.getElem?_zip_eq_some.mp hn
  have hn := congrArg (·[n]?) hvalues
  simp only [List.getElem?_map, hn₁, hn₂, Option.map_some, Option.some.injEq] at hn
  exact hn

/-! ## Results -/

/-- Two objects with one stream. -/
def sharedEvents : List QuickEvent :=
  [.create 0, .set 0 (.client (some 0)) .refused, .set 0 (.method [1]) .refused,
    .set 0 (.argument (some 7)) .refused, .set 0 (.enabled true) (.streams [1] [2]),
    .create 1, .set 1 (.client (some 0)) .refused, .set 1 (.method [1]) .refused,
    .set 1 (.enabled true) .refused, .set 1 (.argument (some 7)) (.streams [1] [2])]

/-- **Objects and streams.** After every run, an object has no stream and no
return value, and waits for its set-up if it is enabled, or it is enabled and has
an active stream and a return value. Every active stream of a client is the stream
of an object, and every RPC is of an active stream. -/
theorem quick_streams {ch : Nat → Channel} {es : List QuickEvent} {s : QuickScene}
    (h : exec (quickStep ch) .new es = some s) :
    (∀ q x, s.quicks q = some x →
      (x.stream = none ∧ x.returnValue = none ∧ (x.enabled = true → x.idle = true)) ∨
      ∃ k i, x.stream = some (k, i) ∧ x.returnValue.isSome = true ∧ x.enabled = true ∧
        (s.clients k).connected i = true) ∧
    (∀ k i, (s.clients k).connected i = true → ∃ q x, s.quicks q = some x ∧ x.stream = some (k, i)) ∧
    ∀ k, ∀ i ∈ (s.clients k).rpcs, (s.clients k).connected i = true := by
  have hi := Inv.run h
  refine ⟨fun q x hx => ?_, fun k i hc => ?_, fun k i hm => hi.owned k i ((hi.listed k).rpcs i hm)⟩
  · have hsound := hi.sound q x hx
    cases hs : x.stream with
    | none => exact .inl ⟨rfl, hsound.returnValue hs, fun he => hsound.idle he hs⟩
    | some r =>
      obtain ⟨k, i⟩ := r
      refine .inr ⟨k, i, rfl, ?_, ?_, (hi.active q x k i hx hs).1⟩
      · rw [← hsound.paired, hs]
        rfl
      · cases he : x.enabled with
        | true => rfl
        | false => rw [hsound.enabled he] at hs; cases hs
  · obtain ⟨q, hq⟩ := List.exists_mem_of_ne_nil _ (hi.used k i hc)
    obtain ⟨x, hx, hs⟩ := (hi.served k i hc).linked q hq
    exact ⟨q, x, hx, hs⟩

theorem quick_streams_shared : ∃ s, exec (quickStep fun _ => .grpc) .new sharedEvents = some s ∧
    s.quicks 1 = some ⟨some 0, true, [1], some 7, some (0, 0), some 1⟩ ∧
    (∀ q x, s.quicks q = some x →
      (x.stream = none ∧ x.returnValue = none ∧ (x.enabled = true → x.idle = true)) ∨
      ∃ k i, x.stream = some (k, i) ∧ x.returnValue.isSome = true ∧ x.enabled = true ∧
        (s.clients k).connected i = true) ∧
    (∀ k i, (s.clients k).connected i = true → ∃ q x, s.quicks q = some x ∧ x.stream = some (k, i)) ∧
    ∀ k, ∀ i ∈ (s.clients k).rpcs, (s.clients k).connected i = true := by
  obtain ⟨s, hs, hq⟩ : ∃ s, exec (quickStep fun _ => .grpc) .new sharedEvents = some s ∧
      s.quicks 1 = some ⟨some 0, true, [1], some 7, some (0, 0), some 1⟩ := ⟨_, rfl, rfl⟩
  exact ⟨s, hs, hq, quick_streams hs⟩

/-- **A changed property.** Writing another value to a property of an object with
a stream ends the stream and its RPCs and leaves the object disabled, with the
value but without a stream; so does it every other object of this stream, and
nothing else changes. -/
theorem changed_property {ch : Nat → Channel} {es : List QuickEvent} {s : QuickScene}
    (h : exec (quickStep ch) .new es = some s) {q k i : Nat} {x : QuickStream}
    (hx : s.quicks q = some x) (hr : x.stream = some (k, i)) {p : QuickProperty} (hp : x.write p ≠ x)
    (attempt : Attempt) : ∃ s', quickStep ch s (.set q p attempt) = some s' ∧
      s'.quicks q = some { x.write p with enabled := false, stream := none, returnValue := none } ∧
      (∀ q' ≠ q, s'.quicks q' = (s.quicks q').map fun y =>
        if y.stream = some (k, i) then { y with enabled := false, stream := none, returnValue := none }
        else y) ∧
      (s'.clients k).connected i = false ∧ i ∉ (s'.clients k).rpcs ∧
      ∀ j ≠ k, s'.clients j = s.clients j := by
  have hi := Inv.run h
  obtain ⟨hc, hq⟩ := hi.active q x k i hx hr
  refine ⟨_, set_live hx hr hq hp attempt, by rw [setQuick_quicks, if_pos rfl], fun q' hq' => ?_, ?_, ?_,
    fun j hj => (setClient_clients s k j _).trans (if_neg hj)⟩
  · rw [setQuick_quicks, if_neg hq']
    show (if q' ∈ s.connected (k, i) then (s.quicks q').map QuickStream.onFinished else s.quicks q') = _
    by_cases hm : q' ∈ s.connected (k, i)
    · obtain ⟨y, hy, hs⟩ := (hi.served k i hc).linked q' hm
      have he : y.enabled = true := by
        cases he : y.enabled with
        | true => rfl
        | false => rw [(hi.sound q' y hy).enabled he] at hs; cases hs
      rw [if_pos hm, hy, Option.map_some, Option.map_some, if_pos hs]
      unfold QuickStream.onFinished QuickStream.disable
      rw [if_pos he]
      rfl
    · rw [if_neg hm]
      cases hy : s.quicks q' with
      | none => rfl
      | some y =>
        rw [Option.map_some, if_neg]
        exact fun hs => hm (hi.active q' y k i hy hs).2
  · show ((s.setClient k _).clients k).connected i = false
    rw [setClient_clients, if_pos rfl, Client.connected_seen, Client.drop_seen, if_pos rfl,
      Client.emitFinished_seen, if_pos rfl]
    cases (s.clients k).seen i <;> rfl
  · show i ∉ ((s.setClient k _).clients k).rpcs
    rw [setClient_clients, if_pos rfl]
    intro hm
    have hm := Client.drop_rpcs_subset _ i hm
    rw [Client.emitFinished_rpcs, List.mem_filter] at hm
    simp at hm

theorem changed_property_shared : ∃ s s', exec (quickStep fun _ => .grpc) .new sharedEvents = some s ∧
    quickStep (fun _ => .grpc) s (.set 0 (.argument (some 8)) (.streams [1] [3])) = some s' ∧
    s'.quicks 0 = some ⟨some 0, false, [1], some 8, none, none⟩ ∧
    s'.quicks 1 = some ⟨some 0, false, [1], some 7, none, none⟩ := by
  obtain ⟨s, hs, h0, h1⟩ : ∃ s, exec (quickStep fun _ => .grpc) .new sharedEvents = some s ∧
      s.quicks 0 = some ⟨some 0, true, [1], some 7, some (0, 0), some 0⟩ ∧
      s.quicks 1 = some ⟨some 0, true, [1], some 7, some (0, 0), some 1⟩ := ⟨_, rfl, rfl, rfl⟩
  obtain ⟨s', hs', hself, hother, -⟩ :=
    changed_property hs h0 rfl (p := .argument (some 8)) (by decide) (.streams [1] [3])
  refine ⟨s, s', hs, hs', hself, ?_⟩
  rw [hother 1 (by decide), h1]
  rfl

/-- **Announced messages.** When a message arrives, the objects of its stream
announce it, each once, and each with the return value that it was read into just
before; it is read into no other value. -/
theorem message_announced {ch : Nat → Channel} {es : List QuickEvent} {s : QuickScene}
    (h : exec (quickStep ch) .new es = some s) {k r i : Nat} (hr : (s.clients k).rpcs[r]? = some i)
    (data : Bytes) : ∃ (s' : QuickScene) (announced : List (Nat × Nat)),
      quickStep ch s (.message k r data) = some s' ∧
      (announced.map Prod.fst).Nodup ∧
      (∀ q value, (q, value) ∈ announced ↔
        ∃ x, s.quicks q = some x ∧ x.stream = some (k, i) ∧ x.returnValue = some value) ∧
      s'.received = s.received ++ announced.map (fun p => (p.1, some p.2)) ∧
      (s'.clients k).handled = (s.clients k).handled ++ announced.map fun p => (i, p.2, data) := by
  have hi := Inv.run h
  have hc := hi.rpc hr
  obtain ⟨announced, hfst, hsnd, hvalue⟩ := hi.announced hc
  have honce : (announced.map Prod.fst).Nodup := by
    rw [hfst]
    exact (hi.served k i hc).once
  refine ⟨_, announced, message_eq hr data, honce, fun q value => ⟨fun hm => ?_, ?_⟩, ?_, ?_⟩
  · have hq : q ∈ s.connected (k, i) := by
      rw [← hfst]
      exact List.mem_map_of_mem (f := Prod.fst) hm
    obtain ⟨x, hx, hs⟩ := (hi.served k i hc).linked q hq
    have hv := hvalue (q, value) hm
    rw [hx] at hv
    exact ⟨x, hx, hs, hv⟩
  · rintro ⟨x, hx, hs, hv⟩
    have hq := (hi.active q x k i hx hs).2
    rw [← hfst] at hq
    obtain ⟨⟨q', v⟩, hm, rfl⟩ := List.mem_map.mp hq
    have hv' := hvalue _ hm
    rw [hx, Option.bind_some, hv, Option.some.injEq] at hv'
    rw [hv']
    exact hm
  · show s.received ++ _ = _
    rw [← hfst, List.map_map]
    congr 1
    exact List.map_congr_left fun p hp => Prod.ext rfl (hvalue p hp)
  · show ((s.setClient k _).clients k).handled = _
    rw [setClient_clients, if_pos rfl, Client.handler_handled, ← hsnd, List.map_map]
    rfl

theorem message_announced_shared : ∃ s, exec (quickStep fun _ => .grpc) .new sharedEvents = some s ∧
    (s.clients 0).rpcs[0]? = some 0 ∧ ∃ (s' : QuickScene) (announced : List (Nat × Nat)),
      quickStep (fun _ => .grpc) s (.message 0 0 [5]) = some s' ∧
      (announced.map Prod.fst).Nodup ∧
      (∀ q value, (q, value) ∈ announced ↔
        ∃ x, s.quicks q = some x ∧ x.stream = some (0, 0) ∧ x.returnValue = some value) ∧
      s'.received = s.received ++ announced.map (fun p => (p.1, some p.2)) ∧
      (s'.clients 0).handled = (s.clients 0).handled ++ announced.map fun p => (0, p.2, [5]) := by
  obtain ⟨s, hs, hr⟩ : ∃ s, exec (quickStep fun _ => .grpc) .new sharedEvents = some s ∧
      (s.clients 0).rpcs[0]? = some 0 := ⟨_, rfl, rfl⟩
  exact ⟨s, hs, hr, message_announced hs hr [5]⟩

end QuickScene

end QtProtobuf.Grpc
