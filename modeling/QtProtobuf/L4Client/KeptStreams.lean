import QtProtobuf.L4Client.Client

/-!
# No dead stream is kept

The client removes a stream on `finished` only. `QGrpcHttp2Channel` emits it
when an RPC ends Ok; `QGrpcChannel` disconnects the RPC and emits nothing.
`QGrpcHttp2Channel::stream(QGrpcStreamBidirect *)` does nothing at all without
`Q_ASSERT`. `EndOk` excludes both.

* `kept_alive`: in every run without them each listed stream has a live RPC or
  an armed timer, an RPC that ends Ok finishes its stream, and so every call
  returns a stream that can deliver.
* `dead_stream`: an RPC that ends Ok over `QGrpcChannel` leaves a stream
  without RPC and timer, which the next call returns.
-/
namespace QtProtobuf.Grpc

open Lib

/-- Over `QGrpcChannel` no RPC is reported to the client with status Ok; over
`QGrpcHttp2Channel` without `Q_ASSERT` there is no `streamBidirect` call. -/
def EndOk (ch : Channel) (_ : Client) : ClientEvent → Prop
  | .rpcFinished _ .ok => ch ≠ .grpc
  | .streamBidirect .. => ch ≠ .http2 false
  | _ => True

instance (ch : Channel) (c : Client) (e : ClientEvent) : Decidable (EndOk ch c e) :=
  match e with
  | .rpcFinished _ .ok => inferInstanceAs (Decidable (ch ≠ .grpc))
  | .streamBidirect .. => inferInstanceAs (Decidable (ch ≠ .http2 false))
  | .rpcFinished _ .failed | .rpcFinished _ .remoteHostClosed | .stream .. | .drop _ | .message ..
  | .writeFails _ | .abort _ | .timeout _ => .isTrue trivial

namespace Client

/-- Stream `i` can deliver something, now or after the timer. -/
def Restorable (c : Client) (i : Nat) : Prop := i ∈ c.rpcs ∨ i ∈ c.timers

/-- Without `Q_ASSERT` the streams over `QGrpcHttp2Channel` are server streams. -/
def Served (c : Client) (ch : Channel) : Prop :=
  ch = .http2 false → ∀ (i : Nat) (s : GrpcStream), c.objects[i]? = some s → s.kind = .server

/-- The unfinished streams can deliver, and the channel implements them. -/
structure Kept (c : Client) (ch : Channel) : Prop where
  restorable : ∀ i, c.connected i = true → c.Restorable i
  served : c.Served ch

theorem Kept.new (ch : Channel) : Client.new.Kept ch where
  restorable i h := by cases h
  served _ _ _ h := by simp [Client.new] at h

theorem Kept.congr {ch : Channel} {c c' : Client} (h : c.Kept ch)
    (hc : ∀ i, c'.connected i = true → c.connected i = true ∧ (c.Restorable i → c'.Restorable i))
    (hk : ∀ i : Nat, c'.objects[i]?.map GrpcStream.kind = c.objects[i]?.map GrpcStream.kind) :
    c'.Kept ch := by
  refine ⟨fun i hi => ?_, fun hch i s hi => ?_⟩
  · obtain ⟨h₁, h₂⟩ := hc i hi
    exact h₂ (h.restorable i h₁)
  · have hki := hk i
    rw [hi, Option.map_some] at hki
    obtain ⟨t, ht, htk⟩ := Option.map_eq_some_iff.mp hki.symm
    rw [← htk]
    exact h.served hch i t ht

theorem update_kind (c : Client) (i j : Nat) {f : GrpcStream → GrpcStream}
    (hf : ∀ s, (f s).kind = s.kind) :
    (c.update i f).objects[j]?.map GrpcStream.kind = c.objects[j]?.map GrpcStream.kind := by
  rw [update_get]
  split
  · cases c.objects[j]? with
    | none => rfl
    | some s => exact congrArg some (hf s)
  · rfl

theorem Served.not_bidirect {ch : Channel} {c : Client} (h : c.Served ch) (hch : ch = .http2 false)
    (i : Nat) : c.objects[i]?.map GrpcStream.kind ≠ some .bidirect := by
  intro hb
  obtain ⟨s, hs, hk⟩ := Option.map_eq_some_iff.mp hb
  rw [h hch i s hs] at hk
  cases hk

/-- A served stream gets its RPC. -/
theorem Served.channelStream {ch : Channel} {c c' : Client} {i : Nat} (h : c.Served ch)
    (hs : c.channelStream ch i = some c') :
    c' = { c with opened := c.opened ++ [i], rpcs := c.rpcs ++ [i] } := by
  rcases channelStream_cases hs with ⟨-, hch, hb⟩ | hc
  · exact absurd hb (h.not_bidirect hch i)
  · exact hc

/-- Every stream but `i`, whose RPC has ended or whose timer has fired, keeps
what it has. -/
def KeptBut (c : Client) (ch : Channel) (i : Nat) : Prop :=
  (∀ j, j ≠ i → c.connected j = true → c.Restorable j) ∧ c.Served ch

theorem mem_eraseIdx_of_ne {l : List Nat} {r i j : Nat} (hi : l[r]? = some i) (hne : j ≠ i)
    (hj : j ∈ l) : j ∈ l.eraseIdx r := by
  have h := count_eraseIdx hi j
  rw [if_neg (Ne.symm hne), Nat.add_zero] at h
  exact List.count_pos_iff.mp (h ▸ List.count_pos_iff.mpr hj)

theorem Kept.eraseRpc {ch : Channel} {c : Client} (h : c.Kept ch) {r i : Nat}
    (hi : c.rpcs[r]? = some i) : KeptBut { c with rpcs := c.rpcs.eraseIdx r } ch i :=
  ⟨fun j hne hj => (h.restorable j hj).imp_left (mem_eraseIdx_of_ne hi hne), h.served⟩

theorem Kept.eraseTimer {ch : Channel} {c : Client} (h : c.Kept ch) {t i : Nat}
    (hi : c.timers[t]? = some i) : KeptBut { c with timers := c.timers.eraseIdx t } ch i :=
  ⟨fun j hne hj => (h.restorable j hj).imp_right (mem_eraseIdx_of_ne hi hne), h.served⟩

/-- The error arms the timer of `i`. -/
theorem KeptBut.emitError {ch : Channel} {c : Client} {i : Nat} (h : c.KeptBut ch i) :
    (c.emitError i).Kept ch := by
  unfold Client.emitError
  split
  · refine ⟨fun j hj => ?_, h.2⟩
    by_cases hji : j = i
    · exact .inr (List.mem_append_right _ (List.mem_singleton.mpr hji))
    · exact (h.1 j hji hj).imp_right fun hm => List.mem_append_left _ hm
  · rename_i hc
    exact ⟨fun j hj => h.1 j (fun hji => hc (hji ▸ hj)) hj, h.2⟩

theorem emitFinished_kind (c : Client) (i j : Nat) :
    (c.emitFinished i).objects[j]?.map GrpcStream.kind = c.objects[j]?.map GrpcStream.kind := by
  rw [emitFinished_get]
  split
  · rw [Option.map_map]
    rfl
  · rfl

/-- Finished, `i` need not be kept. -/
theorem KeptBut.emitFinished {ch : Channel} {c : Client} {i : Nat} (h : c.KeptBut ch i) :
    (c.emitFinished i).Kept ch := by
  refine ⟨fun j hj => ?_, fun hch j s hj => ?_⟩
  · rw [emitFinished_connected, Bool.and_eq_true, bne_iff_ne] at hj
    refine (h.1 j hj.2 hj.1).imp (fun hm => ?_) fun hm => ?_
    · rw [emitFinished_rpcs]
      exact List.mem_filter.mpr ⟨hm, bne_iff_ne.mpr hj.2⟩
    · rw [emitFinished_timers]
      exact hm
  · have hk := emitFinished_kind c i j
    rw [hj, Option.map_some] at hk
    obtain ⟨t, ht, htk⟩ := Option.map_eq_some_iff.mp hk.symm
    rw [← htk]
    exact h.2 hch j t ht

theorem KeptBut.channelStream {ch : Channel} {c c' : Client} {i : Nat} (h : c.KeptBut ch i)
    (hs : c.channelStream ch i = some c') : c'.Kept ch := by
  rw [h.2.channelStream hs]
  refine ⟨fun j hj => ?_, h.2⟩
  by_cases hji : j = i
  · exact .inl (List.mem_append_right _ (List.mem_singleton.mpr hji))
  · exact (h.1 j hji hj).imp_left fun hm => List.mem_append_left _ hm

/-! ## The step lemma -/

theorem Kept.subscribe {ch : Channel} {c c' : Client} {s : GrpcStream} {handler : Option Nat}
    {i : Nat} (h : c.Kept ch) (hk : ch = .http2 false → s.kind = .server)
    (hs : c.subscribe ch s handler = some (c', i)) : c'.Kept ch := by
  rcases subscribe_cases hs with ⟨-, -, rfl⟩ | ⟨-, rfl, c₁, h₁, rfl⟩
  · refine h.congr (fun j hj => ?_) fun j => update_kind c i j fun a => by simp
    rw [update_connected c i j fun a => by simp] at hj
    exact ⟨hj, id⟩
  · have hpush : KeptBut { c with objects := c.objects ++ [s] } ch c.objects.length := by
      refine ⟨fun j hne hj => h.restorable j ?_, fun hch j t hj => ?_⟩
      · unfold connected at hj ⊢
        rwa [objects_push, if_neg hne] at hj
      · change (c.objects ++ [s])[j]? = some t at hj
        rw [objects_push] at hj
        split at hj
        · cases hj
          exact hk hch
        · exact h.served hch j t hj
    refine (hpush.channelStream h₁).congr (fun j hj => ?_) fun j => ?_
    · unfold connected at hj
      rw [setActive_objects] at hj
      refine ⟨hj, fun hr => ?_⟩
      unfold Restorable
      rw [setActive_rpcs, setActive_timers]
      exact hr
    · rw [setActive_objects]

theorem alive_of_connected {c : Client} {i : Nat} (h : c.connected i = true) :
    c.alive i = true := by
  unfold connected at h
  unfold alive
  cases hs : c.objects[i]? with
  | none => rw [hs] at h; cases h
  | some s =>
    rw [hs, Option.any_some] at h
    rw [Option.any_some, GrpcStream.alive, h]
    rfl

theorem Kept.drop {ch : Channel} {c : Client} (h : c.Kept ch) (i : Nat) : (c.drop i).Kept ch := by
  have hc := fun j => update_connected c i j (f := fun s => { s with held := false }) fun _ => rfl
  have hk := fun j => update_kind c i j (f := fun s => { s with held := false }) fun _ => rfl
  unfold Client.drop
  dsimp only
  split
  · exact h.congr (fun j hj => ⟨(hc j).symm.trans hj, id⟩) hk
  · rename_i ha
    refine h.congr (fun j hj => ⟨(hc j).symm.trans hj, fun hr => ?_⟩) hk
    refine hr.imp_left fun hm => List.mem_filter.mpr ⟨hm, bne_iff_ne.mpr ?_⟩
    rintro rfl
    exact ha (alive_of_connected hj)

theorem Kept.rpcFinished {ch : Channel} {c c' : Client} {i : Nat} {how : RpcEnd}
    (h : c.KeptBut ch i) (hok : how = .ok → ch ≠ .grpc)
    (hs : c.rpcFinished ch i how = some c') : c'.Kept ch := by
  unfold Client.rpcFinished at hs
  split at hs
  · exact absurd rfl (hok rfl)
  · cases hs; exact h.emitError
  · cases hs; exact h.emitFinished
  · exact h.channelStream hs
  · cases hs; exact h.emitError

theorem Kept.step {ch : Channel} {c c' : Client} {e : ClientEvent} (h : c.Kept ch)
    (hok : EndOk ch c e) (hs : clientStep ch c e = some c') : c'.Kept ch := by
  cases e with
  | stream method arg handler =>
    obtain ⟨⟨c₁, i⟩, h₁, rfl⟩ := Option.map_eq_some_iff.mp hs
    exact h.subscribe (fun _ => by simp [GrpcStream.new]) h₁
  | streamBidirect method handler =>
    obtain ⟨⟨c₁, i⟩, h₁, rfl⟩ := Option.map_eq_some_iff.mp hs
    exact h.subscribe (fun hch => absurd hch hok) h₁
  | drop i =>
    simp only [clientStep] at hs
    split at hs
    · cases hs; exact h.drop i
    · cases hs
  | message r data =>
    obtain ⟨i, -, rfl⟩ := Option.map_eq_some_iff.mp hs
    unfold handler
    split
    · refine h.congr (fun j hj => ⟨?_, id⟩) fun j =>
        update_kind c i j (f := fun s => { s with data := data }) fun _ => rfl
      rw [← update_connected c i j (f := fun s => { s with data := data }) fun _ => rfl]
      exact hj
    · exact h
  | rpcFinished r how =>
    obtain ⟨i, hi, h₁⟩ := Option.bind_eq_some_iff.mp hs
    refine Kept.rpcFinished (h.eraseRpc hi) (fun he => ?_) h₁
    rw [he] at hok
    exact hok
  | writeFails i =>
    simp only [clientStep] at hs
    split at hs
    · cases hs; exact KeptBut.emitError ⟨fun j _ hj => h.restorable j hj, h.served⟩
    · cases hs
  | abort i =>
    simp only [clientStep] at hs
    split at hs
    · cases hs; exact KeptBut.emitFinished ⟨fun j _ hj => h.restorable j hj, h.served⟩
    · cases hs
  | timeout t =>
    obtain ⟨i, hi, h₁⟩ := Option.bind_eq_some_iff.mp hs
    have hb := h.eraseTimer hi
    unfold timeout at h₁
    split at h₁
    · exact hb.channelStream h₁
    · rename_i ha
      cases h₁
      refine ⟨fun j hj => hb.1 j (fun hji => ha ?_) hj, hb.2⟩
      rw [← hji]
      exact alive_of_connected hj

theorem Kept.inductive (ch : Channel) :
    ((clientLts ch).restrict (EndOk ch)).Inductive fun c => c.Listed ∧ c.Kept ch where
  init _ h := h ▸ ⟨.new, .new ch⟩
  step _ _ _ h hs := ⟨h.1.step hs.2, h.2.step hs.1 hs.2⟩

/-- A call returns a listed stream. -/
theorem subscribe_listed {ch : Channel} {c c' : Client} {s : GrpcStream} {handler : Option Nat}
    {i : Nat} (h : c.subscribe ch s handler = some (c', i)) : i ∈ c'.active s.kind := by
  rcases subscribe_cases h with ⟨hi, -, rfl⟩ | ⟨-, rfl, c₁, -, rfl⟩
  · rw [update_active]
    exact hi
  · rw [active_setActive, if_pos rfl]
    exact List.mem_append_right _ (List.mem_singleton.mpr rfl)

theorem Kept.of_listed {ch : Channel} {c : Client} (h : c.Kept ch) (hl : c.Listed) {k : StreamKind}
    {i : Nat} (hi : i ∈ c.active k) : c.Restorable i := by
  obtain ⟨s, hs, -, hc⟩ := (hl.mem k i).mp hi
  refine h.restorable i ?_
  unfold connected
  rw [hs]
  exact hc

end Client

/-- **No dead stream.** For both channels, in every run in which no RPC over
`QGrpcChannel` ends Ok and `streamBidirect` is not called over a
`QGrpcHttp2Channel` without `Q_ASSERT`: every listed stream has a live RPC or an
armed timer; an RPC that ends Ok makes its stream emit `finished` and leave the
lists; the stream a call returns can deliver. -/
theorem kept_alive (ch : Channel) {c : Client}
    (h : ((clientLts ch).restrict (EndOk ch)).Reachable c) :
    (∀ k, ∀ i ∈ c.active k, i ∈ c.rpcs ∨ i ∈ c.timers) ∧
    (∀ r i c', c.rpcs[r]? = some i → EndOk ch c (.rpcFinished r .ok) →
      clientStep ch c (.rpcFinished r .ok) = some c' →
      c'.objects[i]?.map GrpcStream.finished = c.objects[i]?.map (·.finished + 1) ∧
        ∀ k, i ∉ c'.active k) ∧
    (∀ method arg handler c' i, c.stream ch method arg handler = some (c', i) →
      i ∈ c'.rpcs ∨ i ∈ c'.timers) ∧
    ∀ method handler c' i, EndOk ch c (.streamBidirect method handler) →
      c.streamBidirect ch method handler = some (c', i) → i ∈ c'.rpcs ∨ i ∈ c'.timers := by
  obtain ⟨hl, hk⟩ := (Client.Kept.inductive ch).reachable h
  refine ⟨fun k i hi => hk.of_listed hl hi, fun r i c' hi hok hs => ?_,
    fun method arg handler c' i hs => ?_, fun method handler c' i hok hs => ?_⟩
  · obtain ⟨j, hj, h₁⟩ := Option.bind_eq_some_iff.mp hs
    have hij : j = i := Option.some.inj (hj.symm.trans hi)
    rw [hij] at h₁
    have hm : Client.Listed { c with rpcs := c.rpcs.eraseIdx r } :=
      hl.mono (fun j (hj : j ∈ c.rpcs.eraseIdx r) => List.mem_of_mem_eraseIdx hj)
        fun j (hj : j ∈ c.timers) => hj
    cases ch with
    | grpc => exact absurd rfl hok
    | http2 asserts =>
      cases h₁
      refine ⟨?_, fun k hk => ?_⟩
      · rw [Client.emitFinished_get, if_pos rfl, Option.map_map]
        rfl
      · rw [hm.emitFinished_active] at hk
        exact bne_iff_ne.mp (List.mem_filter.mp hk).2 rfl
  · have hstep : clientStep ch c (.stream method arg handler) = some c' :=
      Option.map_eq_some_iff.mpr ⟨_, hs, rfl⟩
    have hok : EndOk ch c (.stream method arg handler) := trivial
    exact (hk.step hok hstep).of_listed (hl.step hstep) (Client.subscribe_listed hs)
  · have hstep : clientStep ch c (.streamBidirect method handler) = some c' :=
      Option.map_eq_some_iff.mpr ⟨_, hs, rfl⟩
    exact (hk.step hok hstep).of_listed (hl.step hstep) (Client.subscribe_listed hs)

/-- Over `QGrpcHttp2Channel`: the first RPC is replaced silently, the second
fails and waits for the timer. -/
theorem kept_alive_retried : ∃ c, c.active .server = [0] ∧ Client.rpcs c = [] ∧ c.timers = [0] ∧
    ∀ k, ∀ i ∈ c.active k, i ∈ c.rpcs ∨ i ∈ c.timers := by
  have hr : ∃ c, exec (guarded (EndOk (.http2 true)) (clientStep (.http2 true))) .new
      [.stream [109] [1] (some 7), .rpcFinished 0 .remoteHostClosed, .rpcFinished 0 .failed] = some c ∧
      c.active .server = [0] ∧ c.rpcs = [] ∧ c.timers = [0] := ⟨_, rfl, rfl, rfl, rfl⟩
  obtain ⟨c, hrun, h1, h2, h3⟩ := hr
  exact ⟨c, h1, h2, h3, (kept_alive (.http2 true) ⟨.new, _, rfl, exec_guarded _ hrun⟩).1⟩

/-- Over `QGrpcChannel` the server ends the RPC with status Ok: the stream has
not finished, stays listed without RPC and timer, and is what the next
`stream(method, arg)` returns. -/
theorem dead_stream : ∃ c c', exec (clientStep .grpc) .new
      [.stream [109] [1] (some 7), .rpcFinished 0 .ok] = some c ∧
    c.active .server = [0] ∧ c.hasFinished 0 = false ∧ c.rpcs = [] ∧ c.timers = [] ∧
    c.stream .grpc [109] [1] (some 8) = some (c', 0) ∧ c'.rpcs = [] ∧ c'.timers = [] :=
  ⟨_, _, rfl, rfl, rfl, rfl, rfl, rfl, rfl, rfl⟩

end QtProtobuf.Grpc
