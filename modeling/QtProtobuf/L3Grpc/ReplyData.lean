import QtProtobuf.L3Grpc.AsyncCall
import Mathlib.Data.List.Induction

/-!
# The data of a `QGrpcCallReply`

The channels set the data of a reply before they emit `finished`, and empty it
with every error (`grpc/qgrpcchannel.cpp:495-508`,
`grpc/qgrpchttp2channel.cpp:239-258`, `grpc/qgrpccallreply.cpp:32-43`).

* `asyncStep_data`, `asyncStep_ends`: what a step does to the data, and which ends
  the RPC.
* `reply_data`: the reply never has other data than the response of its one RPC,
  and after `finished` it has that.
-/
namespace QtProtobuf.Grpc

open Lib

/-- The response of an RPC that ends with `Ok`. -/
def AsyncEvent.response : AsyncEvent → Option Bytes
  | .rpcFinished status response => if status.ok then some response else none
  | .replyFinished r => if r.error = none ∧ r.grpcStatus = 0 then some (r.body.drop 5) else none
  | _ => none

namespace AsyncCall

section
variable (c : AsyncCall) (status : Status) (data : Bytes)

@[simp] theorem emitError_data : (c.emitError status).data = c.data := by
  unfold emitError onAbort onError
  split <;> split <;> rfl

@[simp] theorem emitFinished_data : c.emitFinished.data = c.data := by
  unfold emitFinished onFinished
  split <;> rfl

@[simp] theorem disconnect_data : c.disconnect.data = c.data := rfl
@[simp] theorem process_data (p : Processed) : (c.process p).data = c.data := rfl
@[simp] theorem setData_data : (c.setData data).data = data := rfl

@[simp] theorem emitError_posted : (c.emitError status).posted = c.posted := by
  unfold emitError onAbort onError
  split <;> split <;> rfl

@[simp] theorem emitFinished_posted : c.emitFinished.posted = c.posted := by
  unfold emitFinished onFinished
  split <;> rfl

@[simp] theorem emitError_running : (c.emitError status).running = c.running := by
  unfold emitError onAbort onError
  split <;> split <;> rfl

@[simp] theorem emitFinished_running : c.emitFinished.running = c.running := by
  unfold emitFinished onFinished
  split <;> rfl

@[simp] theorem disconnect_posted : c.disconnect.posted = c.posted := rfl
@[simp] theorem disconnect_running : c.disconnect.running = c.running := rfl
@[simp] theorem setData_posted : (c.setData data).posted = c.posted := rfl
@[simp] theorem setData_running : (c.setData data).running = c.running := rfl

end

theorem onCallFinished_posted (c : AsyncCall) (status : Status) (response : Bytes) :
    (c.onCallFinished status response).posted = c.posted := by
  unfold onCallFinished
  split
  · split <;> simp
  · rfl

theorem onReplyFinished_running (c : AsyncCall) (r : NetworkReply) :
    (c.onReplyFinished r).running = c.running := by
  unfold onReplyFinished
  split
  · split <;> simp
  · rfl

theorem onCallFinished_running (c : AsyncCall) (status : Status) (response : Bytes) :
    (c.onCallFinished status response).running = c.running := by
  unfold onCallFinished
  split
  · split <;> simp
  · rfl

theorem abortNetworkReply_running_le (c : AsyncCall) (r : NetworkReply)
    (h : (c.abortNetworkReply r).running = true) : c.running = true := by
  unfold abortNetworkReply at h
  split at h
  · assumption
  · exact h

theorem processReply_ok {r : NetworkReply} {data : Bytes} (h : processReply r = (0, data)) :
    AsyncEvent.response (.replyFinished r) = some data := by
  unfold processReply at h
  cases he : r.error with
  | some e =>
    rw [he] at h
    have hcode : statusCodeMap e = 0 := congrArg Prod.fst h
    exact absurd hcode (statusCodeMap_ne_ok e)
  | none =>
    rw [he] at h
    by_cases hs : r.grpcStatus = 0
    · simp only [hs, ne_eq, not_true_eq_false, if_false, Prod.mk.injEq, true_and] at h
      simp [AsyncEvent.response, he, hs, h]
    · simp [hs] at h

/-- A reply that has ended leaves the data alone, empties it, or sets the response. -/
theorem onReplyFinished_data (c : AsyncCall) (r : NetworkReply) :
    (c.onReplyFinished r).data = c.data ∨ (c.onReplyFinished r).data = [] ∨
      AsyncEvent.response (.replyFinished r) = some (c.onReplyFinished r).data := by
  unfold onReplyFinished
  split
  · split
    · rename_i data h
      exact .inr (.inr (by simpa using processReply_ok h))
    · exact .inr (.inl (by simp))
  · exact .inl rfl

/-- A stopped one has no response. -/
theorem abortNetworkReply_data (c : AsyncCall) (r : NetworkReply) :
    (c.abortNetworkReply r).data = c.data ∨ (c.abortNetworkReply r).data = [] := by
  unfold abortNetworkReply
  split
  · rcases onReplyFinished_data { c with running := false } { r with error := some .operationCanceledError }
      with h | h | h
    · exact .inl h
    · exact .inr h
    · simp [AsyncEvent.response] at h
  · exact .inl rfl

/-- What a step does to the data. -/
theorem asyncStep_data {ch : CallChannel} {c c' : AsyncCall} {e : AsyncEvent}
    (h : asyncStep ch c e = some c') :
    c'.data = c.data ∨ c'.data = [] ∨ e.response = some c'.data ∨
      ∃ status, c.posted = some (status, c'.data) ∧ status.ok = true := by
  cases e with
  | rpcFinished status response =>
    simp only [asyncStep] at h
    split at h
    · cases h
      exact .inl rfl
    · cases h
  | deliver =>
    simp only [asyncStep] at h
    split at h
    · rename_i status response hpost
      cases h
      unfold onCallFinished
      split
      · by_cases hs : status.ok = true
        · rw [if_pos hs]
          exact .inr (.inr (.inr ⟨status, by simpa using hpost, hs⟩))
        · rw [if_neg hs]
          exact .inr (.inl (by simp))
      · exact .inl rfl
    · cases h
  | replyFinished r =>
    simp only [asyncStep] at h
    split at h
    · cases h
      rcases onReplyFinished_data ({ c with running := false }.process r.ending) r with h | h | h
      · exact .inl h
      · exact .inr (.inl h)
      · exact .inr (.inr (.inl h))
    · cases h
  | timeout r =>
    simp only [asyncStep] at h
    split at h
    · cases h
      rcases abortNetworkReply_data (c.process .timeout) r with h | h
      · exact .inl h
      · exact .inr (.inl h)
    · cases h
  | sslErrors r =>
    simp only [asyncStep] at h
    split at h
    · cases h
      rcases abortNetworkReply_data (c.process .sslErrors) r with h | h
      · exact .inl h
      · exact .inr (.inl h)
    · cases h
  | shutdown =>
    cases ch with
    | grpc =>
      simp only [asyncStep] at h
      split at h
      · cases h
      · cases h
        exact .inl rfl
    | http2 =>
      cases h
      exact .inl rfl
  | abort =>
    cases h
    exact .inr (.inl (by simp [abort]))

/-! ## Runs without an abort -/

/-- The channel lets go of the reply: with an `error`, or with `finished` once the
response is in the data. -/
def Ends (c c' : AsyncCall) (response : Option Bytes) : Prop :=
  c'.connection = false ∧ ((∃ status, c'.signals = c.signals ++ [.error status]) ∨
    c'.signals = c.signals ++ [.finished] ∧ response = some c'.data)

def Quiet (c c' : AsyncCall) : Prop :=
  c'.connection = c.connection ∧ c'.data = c.data ∧ c'.signals = c.signals

theorem onReplyFinished_ends (c : AsyncCall) (r : NetworkReply) : Quiet c (c.onReplyFinished r) ∨
    c.connection = true ∧ Ends c (c.onReplyFinished r) (AsyncEvent.response (.replyFinished r)) := by
  unfold onReplyFinished
  by_cases hc : c.connection = true
  · rw [if_pos hc]
    have hd := c.detached_disconnect
    right
    split
    · rename_i data h
      refine ⟨hc, (hd.setData data).emitFinished.1, .inr ⟨by simp, ?_⟩⟩
      simpa using processReply_ok h
    · exact ⟨hc, (hd.setData []).emitError _ |>.1, .inl ⟨_, by simp; rfl⟩⟩
  · rw [if_neg hc]
    exact .inl ⟨rfl, rfl, rfl⟩

theorem abortNetworkReply_ends (c : AsyncCall) (r : NetworkReply) : Quiet c (c.abortNetworkReply r) ∨
    c.connection = true ∧ Ends c (c.abortNetworkReply r) none := by
  unfold abortNetworkReply
  split
  · rcases onReplyFinished_ends { c with running := false } { r with error := some .operationCanceledError }
      with h | ⟨hc, h⟩
    · exact .inl h
    · right
      have hnone : AsyncEvent.response (.replyFinished { r with error := some .operationCanceledError }) =
          none := by
        simp [AsyncEvent.response]
      rw [hnone] at h
      exact ⟨hc, h⟩
  · exact .inl ⟨rfl, rfl, rfl⟩

theorem onCallFinished_ends (c : AsyncCall) (status : Status) (response : Bytes) :
    Quiet c (c.onCallFinished status response) ∨ c.connection = true ∧
      Ends c (c.onCallFinished status response) (if status.ok then some response else none) := by
  unfold onCallFinished
  by_cases hc : c.connection = true
  · rw [if_pos hc]
    refine .inr ⟨hc, ?_⟩
    by_cases hs : status.ok = true
    · rw [if_pos hs, if_pos hs]
      exact ⟨rfl, .inr ⟨by simp, by simp⟩⟩
    · rw [if_neg hs, if_neg hs]
      exact ⟨rfl, .inl ⟨status, by simp⟩⟩
  · rw [if_neg hc]
    exact .inl ⟨rfl, rfl, rfl⟩

/-- One signal at most, and with `finished` the response of the RPC, as long as
nobody aborts the call. -/
structure Undisturbed (es : List AsyncEvent) (c : AsyncCall) : Prop where
  connected : c.connection = true → c.signals = []
  posted : ∀ status response, c.posted = some (status, response) → status.ok = true →
    ∃ e ∈ es, e.response = some response
  finished : .finished ∈ c.signals → ∃ e ∈ es, e.response = some c.data

theorem Undisturbed.new (ch : CallChannel) : Undisturbed [] (.new ch) where
  connected _ := rfl
  posted status response h := by cases h
  finished h := by cases h

/-- What ends a reply without a signal so far. -/
theorem Ends.finished {c c' : AsyncCall} {response : Option Bytes} (h : Ends c c' response)
    (hs : c.signals = []) (hf : .finished ∈ c'.signals) : response = some c'.data := by
  obtain ⟨-, ⟨status, he⟩ | ⟨he, hr⟩⟩ := h
  · rw [he, hs] at hf
    simp at hf
  · exact hr

/-- A step that posts nothing, and ends the call with a response of the run if at all. -/
theorem Undisturbed.ended {es : List AsyncEvent} {c c' : AsyncCall} {e : AsyncEvent}
    {response : Option Bytes} (h : Undisturbed es c) (hp : c'.posted = c.posted ∨ c'.posted = none)
    (hr : ∀ d, response = some d → ∃ e' ∈ es ++ [e], e'.response = some d)
    (hs : Quiet c c' ∨ c.connection = true ∧ Ends c c' response) : Undisturbed (es ++ [e]) c' where
  connected hc := by
    rcases hs with ⟨hconn, -, hsig⟩ | ⟨-, hconn, -⟩
    · rw [hsig]
      exact h.connected (hconn ▸ hc)
    · rw [hconn] at hc
      cases hc
  posted status data hpost hok := by
    rcases hp with hp | hp
    · obtain ⟨e', he', hr⟩ := h.posted status data (hp ▸ hpost) hok
      exact ⟨e', List.mem_append_left _ he', hr⟩
    · rw [hp] at hpost
      cases hpost
  finished hf := by
    rcases hs with ⟨-, hdata, hsig⟩ | ⟨hconn, hends⟩
    · rw [hsig] at hf
      obtain ⟨e', he', hr⟩ := h.finished hf
      exact ⟨e', List.mem_append_left _ he', by rw [hr, hdata]⟩
    · exact hr _ (hends.finished (h.connected hconn) hf)

theorem Undisturbed.step {ch : CallChannel} {es : List AsyncEvent} {c c' : AsyncCall} {e : AsyncEvent}
    (h : Undisturbed es c) (hs : asyncStep ch c e = some c') (ha : e ≠ .abort) :
    Undisturbed (es ++ [e]) c' := by
  have hlast : ∀ d, e.response = some d → ∃ e' ∈ es ++ [e], e'.response = some d :=
    fun d hd => ⟨e, by simp, hd⟩
  have hnone : ∀ d, none = some d → ∃ e' ∈ es ++ [e], e'.response = some d :=
    fun d hd => by cases hd
  cases e with
  | rpcFinished status response =>
    simp only [asyncStep] at hs
    split at hs
    · cases hs
      refine ⟨h.connected, fun st resp hp hok => ?_, fun hf => ?_⟩
      · cases hp
        exact hlast response (if_pos hok)
      · obtain ⟨e', he', hr⟩ := h.finished hf
        exact ⟨e', List.mem_append_left _ he', hr⟩
    · cases hs
  | deliver =>
    simp only [asyncStep] at hs
    split at hs
    · rename_i status response hpost
      cases hs
      refine h.ended (.inr (onCallFinished_posted _ status response)) (fun d hd => ?_)
        (onCallFinished_ends ({ c with posted := none }.process (.completed status)) status response)
      split at hd
      · rename_i hok
        cases hd
        obtain ⟨e', he', hr⟩ := h.posted status response hpost hok
        exact ⟨e', List.mem_append_left _ he', hr⟩
      · cases hd
    · cases hs
  | replyFinished r =>
    simp only [asyncStep] at hs
    split at hs
    · cases hs
      exact h.ended (.inl (onReplyFinished_posted _ _)) hlast
        (onReplyFinished_ends ({ c with running := false }.process r.ending) r)
    · cases hs
  | timeout r =>
    simp only [asyncStep] at hs
    split at hs
    · cases hs
      exact h.ended (.inl (abortNetworkReply_posted _ _)) hnone (abortNetworkReply_ends (c.process .timeout) r)
    · cases hs
  | sslErrors r =>
    simp only [asyncStep] at hs
    split at hs
    · cases hs
      exact h.ended (.inl (abortNetworkReply_posted _ _)) hnone (abortNetworkReply_ends (c.process .sslErrors) r)
    · cases hs
  | shutdown =>
    have hfinished : .finished ∈ c.signals → ∃ e' ∈ es ++ [.shutdown], e'.response = some c.data := fun hf => by
      obtain ⟨e', he', hr⟩ := h.finished hf
      exact ⟨e', List.mem_append_left _ he', hr⟩
    have hposted : ∀ status response, c.posted = some (status, response) → status.ok = true →
        ∃ e' ∈ es ++ [.shutdown], e'.response = some response := fun status response hp hok => by
      obtain ⟨e', he', hr⟩ := h.posted status response hp hok
      exact ⟨e', List.mem_append_left _ he', hr⟩
    cases ch with
    | grpc =>
      simp only [asyncStep] at hs
      split at hs
      · cases hs
      · cases hs
        exact ⟨h.connected, hposted, hfinished⟩
    | http2 =>
      cases hs
      exact ⟨fun hc => (by cases hc), hposted, hfinished⟩
  | abort => exact absurd rfl ha

/-- The responses of a run. -/
theorem exec_undisturbed {ch : CallChannel} {es : List AsyncEvent} {c : AsyncCall}
    (h : exec (asyncStep ch) (.new ch) es = some c) (hes : ∀ e ∈ es, e ≠ .abort) : Undisturbed es c := by
  induction es using List.reverseRecOn generalizing c with
  | nil =>
    cases h
    exact .new ch
  | append_singleton es e ih =>
    obtain ⟨c₁, c₂, h₁, h₂, h₃⟩ := exec_split h
    rw [h] at h₃
    cases h₃
    exact (ih h₁ fun e' he' => hes e' (List.mem_append_left _ he')).step h₂ (hes e (by simp))

/-! ## Every run -/

/-- Only the end of an RPC has a response, and posts one. -/
theorem asyncStep_ends {ch : CallChannel} {c c' : AsyncCall} {e : AsyncEvent}
    (h : asyncStep ch c e = some c') :
    (c'.running = true → c.running = true ∧ e.response = none) ∧ (e.response ≠ none → c.running = true) ∧
      ∀ status response, c'.posted = some (status, response) → c.posted = some (status, response) ∨
        (status.ok = true → e.response = some response) := by
  cases e with
  | rpcFinished status response =>
    simp only [asyncStep] at h
    split at h
    · rename_i hc
      cases h
      refine ⟨fun h => (by cases h), fun _ => hc.2, fun st resp hp => .inr fun hok => ?_⟩
      cases hp
      exact if_pos hok
    · cases h
  | deliver =>
    simp only [asyncStep] at h
    split at h
    · cases h
      refine ⟨fun hr => ⟨?_, rfl⟩, fun hne => absurd rfl hne, fun st resp hp => ?_⟩
      · rw [onCallFinished_running] at hr
        exact hr
      · rw [onCallFinished_posted] at hp
        cases hp
    · cases h
  | replyFinished r =>
    simp only [asyncStep] at h
    split at h
    · rename_i hc
      cases h
      refine ⟨fun hr => ?_, fun _ => hc.2, fun st resp hp => ?_⟩
      · rw [onReplyFinished_running] at hr
        cases hr
      · rw [onReplyFinished_posted] at hp
        exact .inl hp
    · cases h
  | timeout r =>
    simp only [asyncStep] at h
    split at h
    · cases h
      have hrun := abortNetworkReply_running_le (c.process .timeout) r
      refine ⟨fun hr => ⟨hrun hr, rfl⟩, fun hne => absurd rfl hne, fun st resp hp => ?_⟩
      rw [abortNetworkReply_posted] at hp
      exact .inl hp
    · cases h
  | sslErrors r =>
    simp only [asyncStep] at h
    split at h
    · cases h
      have hrun := abortNetworkReply_running_le (c.process .sslErrors) r
      refine ⟨fun hr => ⟨hrun hr, rfl⟩, fun hne => absurd rfl hne, fun st resp hp => ?_⟩
      rw [abortNetworkReply_posted] at hp
      exact .inl hp
    · cases h
  | shutdown =>
    cases ch with
    | grpc =>
      simp only [asyncStep] at h
      split at h
      · cases h
      · cases h
        exact ⟨fun hr => ⟨hr, rfl⟩, fun hne => absurd rfl hne, fun st resp hp => .inl hp⟩
    | http2 =>
      cases h
      exact ⟨fun hr => (by cases hr), fun hne => absurd rfl hne, fun st resp hp => .inl hp⟩
  | abort =>
    cases h
    refine ⟨fun hr => ⟨?_, rfl⟩, fun hne => absurd rfl hne, fun st resp hp => ?_⟩
    · unfold abort at hr
      simpa [process] using hr
    · rw [abort_posted] at hp
      exact .inl hp

/-- The data and the response, if any, of a run. -/
structure Answered (es : List AsyncEvent) (c : AsyncCall) (response : Option Bytes) : Prop where
  unique : es.filterMap AsyncEvent.response = response.toList
  running : c.running = true → response = none
  posted : ∀ status data, c.posted = some (status, data) → status.ok = true → response = some data
  data : c.data = [] ∨ response = some c.data

theorem Answered.step {ch : CallChannel} {es : List AsyncEvent} {c c' : AsyncCall} {e : AsyncEvent}
    {response : Option Bytes} (h : Answered es c response) (hs : asyncStep ch c e = some c') :
    ∃ response', Answered (es ++ [e]) c' response' := by
  obtain ⟨hrun, hend, hpost⟩ := asyncStep_ends hs
  have hdata := asyncStep_data hs
  cases he : e.response with
  | none =>
    rw [he] at hpost hdata
    refine ⟨response, ?_, fun hr => h.running (hrun hr).1, fun status data hp hok => ?_, ?_⟩
    · rw [List.filterMap_append, h.unique]
      simp [he]
    · rcases hpost status data hp with hp | hr
      · exact h.posted status data hp hok
      · cases hr hok
    · rcases hdata with hd | hd | hd | ⟨status, hp, hok⟩
      · rw [hd]
        exact h.data
      · exact .inl hd
      · cases hd
      · exact .inr (h.posted status _ hp hok)
  | some d =>
    -- the RPC was running, so that it is the first response
    have hnone := h.running (hend (by simp [he]))
    subst hnone
    rw [he] at hpost hdata hrun
    refine ⟨some d, ?_, fun hr => ?_, fun status data hp hok => ?_, ?_⟩
    · rw [List.filterMap_append, h.unique]
      simp [he]
    · cases (hrun hr).2
    · rcases hpost status data hp with hp | hr
      · cases h.posted status data hp hok
      · exact hr hok
    · rcases hdata with hd | hd | hd | ⟨status, hp, hok⟩
      · rw [hd]
        rcases h.data with h | h
        · exact .inl h
        · cases h
      · exact .inl hd
      · exact .inr hd
      · cases h.posted status _ hp hok

/-- **The data of a reply.** In every run of a call over either channel, at most
one RPC has a response, and the reply has no data or that response; it has it
once `finished` was emitted, if nobody aborts the call. -/
theorem reply_data {ch : CallChannel} {es : List AsyncEvent} {c : AsyncCall}
    (h : exec (asyncStep ch) (.new ch) es = some c) :
    ∃ response : Option Bytes, es.filterMap AsyncEvent.response = response.toList ∧
      (c.data = [] ∨ response = some c.data) ∧
      ((∀ e ∈ es, e ≠ .abort) → .finished ∈ c.signals → response = some c.data) := by
  obtain ⟨response, ha⟩ : ∃ response, Answered es c response := by
    induction es using List.reverseRecOn generalizing c with
    | nil =>
      cases h
      exact ⟨none, rfl, fun _ => rfl, fun _ _ h => (by cases h), .inl rfl⟩
    | append_singleton es e ih =>
      obtain ⟨c₁, c₂, h₁, h₂, h₃⟩ := exec_split h
      rw [h] at h₃
      cases h₃
      obtain ⟨response, ha⟩ := ih h₁
      exact ha.step h₂
  refine ⟨response, ha.unique, ha.data, fun hes hf => ?_⟩
  obtain ⟨e, he, hr⟩ := (exec_undisturbed h hes).finished hf
  have hmem : c.data ∈ es.filterMap AsyncEvent.response := List.mem_filterMap.mpr ⟨e, he, hr⟩
  rw [ha.unique, Option.mem_toList] at hmem
  exact hmem

/-- An SSL error after the response. -/
theorem reply_data_completed : ∃ response : Option Bytes,
    [AsyncEvent.replyFinished ⟨none, 0, "", [0, 0, 0, 0, 1, 7]⟩, .sslErrors ⟨none, 0, "", []⟩].filterMap
      AsyncEvent.response = response.toList ∧ (([7] : Bytes) = [] ∨ response = some [7]) ∧
      ((∀ e ∈ [AsyncEvent.replyFinished ⟨none, 0, "", [0, 0, 0, 0, 1, 7]⟩, .sslErrors ⟨none, 0, "", []⟩],
        e ≠ .abort) → .finished ∈ [Signal.finished] → response = some [7]) := by
  have hr : exec (asyncStep .http2) (.new .http2) [.replyFinished ⟨none, 0, "", [0, 0, 0, 0, 1, 7]⟩,
      .sslErrors ⟨none, 0, "", []⟩] = some ⟨false, false, false, false, false, false, none, [7],
        [.finished], [], [.completed ⟨0, ""⟩, .sslErrors]⟩ := by decide
  exact reply_data hr

end AsyncCall

end QtProtobuf.Grpc
