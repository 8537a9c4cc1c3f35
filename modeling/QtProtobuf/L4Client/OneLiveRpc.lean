import QtProtobuf.L4Client.Client

/-!
# At most one live RPC for each stream

Two kinds of error start the retry timer: the end of the RPC, and a `write()`
whose serialization throws, which leaves the RPC running. The timer asks only
whether the object still exists, and nothing stops it. `RetryOk` excludes the
two steps where that goes wrong.

* `one_live_rpc`: in every run without them a stream has at most one live RPC,
  and a stream that has finished has none and is never opened again.
* `two_live_rpcs`: a failed `write()` ends in two RPCs; an aborted stream that
  the user still holds is opened again.
-/
namespace QtProtobuf.Grpc

open Lib

/-- No failing `write()` on a stream that has not finished, and no retry timer
that finds a finished stream in the hands of the user. -/
def RetryOk (c : Client) : ClientEvent → Prop
  | .writeFails i => c.hasFinished i = true
  | .timeout t => ∀ i ∈ c.timers[t]?, c.hasFinished i = true → c.held i = false
  | _ => True

instance (c : Client) (e : ClientEvent) : Decidable (RetryOk c e) :=
  match e with
  | .writeFails i => inferInstanceAs (Decidable (c.hasFinished i = true))
  | .timeout t =>
    inferInstanceAs (Decidable (∀ i ∈ c.timers[t]?, c.hasFinished i = true → c.held i = false))
  | .stream .. | .streamBidirect .. | .drop _ | .message .. | .rpcFinished .. | .abort _ =>
    .isTrue trivial

namespace Client

/-- An object that waits for its RPC or for its timer, not for both; without
its handlers it has no RPC. -/
structure Once (c : Client) : Prop where
  live : ∀ i, c.connected i = true → c.rpcs.count i + c.timers.count i ≤ 1
  dead : ∀ i, c.connected i = false → i ∉ c.rpcs

theorem Once.new : Client.new.Once where
  live i h := by cases h
  dead i _ := List.not_mem_nil

/-! ## The step lemma -/

/-- The fields `Once` reads. -/
theorem Once.congr {c c' : Client} (h : c.Once) (hc : ∀ i, c'.connected i = c.connected i)
    (hr : ∀ i, c'.rpcs.count i ≤ c.rpcs.count i) (ht : ∀ i, c'.timers.count i ≤ c.timers.count i) :
    c'.Once := by
  refine ⟨fun i hi => ?_, fun i hi hm => ?_⟩
  · rw [hc] at hi
    exact Nat.le_trans (Nat.add_le_add (hr i) (ht i)) (h.live i hi)
  · rw [hc] at hi
    exact h.dead i hi (List.count_pos_iff.mp (Nat.lt_of_lt_of_le (List.count_pos_iff.mpr hm) (hr i)))

theorem Once.emitError {c : Client} (h : c.Once) {i : Nat}
    (hi : c.connected i = true → c.rpcs.count i + c.timers.count i = 0) : (c.emitError i).Once := by
  unfold Client.emitError
  split
  · rename_i hc
    refine ⟨fun j hj => ?_, h.dead⟩
    have hl := h.live j hj
    have h0 := hi hc
    show c.rpcs.count j + (c.timers ++ [i]).count j ≤ 1
    rw [count_append_singleton]
    split
    · rename_i hij
      subst hij
      omega
    · exact hl
  · exact h

theorem Once.emitFinished {c : Client} (h : c.Once) (i : Nat) : (c.emitFinished i).Once := by
  refine ⟨fun j hj => ?_, fun j hj hm => ?_⟩
  · rw [emitFinished_connected, Bool.and_eq_true] at hj
    rw [emitFinished_rpcs, emitFinished_timers]
    have hl := h.live j hj.1
    have hf := (List.filter_sublist (p := (· != i)) (l := c.rpcs)).count_le j
    omega
  · rw [emitFinished_connected, Bool.and_eq_false_iff] at hj
    rw [emitFinished_rpcs, List.mem_filter] at hm
    rcases hj with hj | hj
    · exact h.dead j hj hm.1
    · exact Bool.false_ne_true (hj.symm.trans hm.2)

theorem Once.channelStream {ch : Channel} {c c' : Client} {i : Nat} (h : c.Once)
    (hc : c.connected i = true) (h0 : c.rpcs.count i + c.timers.count i = 0)
    (hs : c.channelStream ch i = some c') : c'.Once := by
  rcases channelStream_cases hs with ⟨rfl, -⟩ | rfl
  · exact h.congr (fun _ => rfl) (fun _ => Nat.le_refl _) fun _ => Nat.le_refl _
  · refine ⟨fun j hj => ?_, fun j hj hm => ?_⟩
    · have hl := h.live j hj
      show (c.rpcs ++ [i]).count j + c.timers.count j ≤ 1
      rw [count_append_singleton]
      split
      · rename_i hij
        subst hij
        omega
      · exact hl
    · rcases List.mem_append.mp hm with hm | hm
      · exact h.dead j hj hm
      · rw [List.mem_singleton.mp hm] at hj
        exact Bool.false_ne_true (hj.symm.trans hc)

/-- A stream with a live RPC has neither a second one nor a timer. -/
theorem Once.eraseRpc {c : Client} (h : c.Once) {r i : Nat} (hi : c.rpcs[r]? = some i) :
    c.connected i = true ∧ (c.rpcs.eraseIdx r).count i + c.timers.count i = 0 := by
  have hc : c.connected i = true := by
    by_contra hc
    exact h.dead i (Bool.eq_false_iff.mpr hc) (List.mem_of_getElem? hi)
  refine ⟨hc, ?_⟩
  have hl := h.live i hc
  have he := count_eraseIdx hi i
  rw [if_pos rfl] at he
  omega

theorem Once.eraseTimer {c : Client} (h : c.Once) {t i : Nat} (hi : c.timers[t]? = some i)
    (hc : c.connected i = true) : c.rpcs.count i + (c.timers.eraseIdx t).count i = 0 := by
  have hl := h.live i hc
  have he := count_eraseIdx hi i
  rw [if_pos rfl] at he
  omega

theorem count_eraseIdx_le (l : List Nat) (r x : Nat) : (l.eraseIdx r).count x ≤ l.count x :=
  (List.eraseIdx_sublist l r).count_le x

theorem Once.subscribe {ch : Channel} {c c' : Client} {s : GrpcStream} {handler : Option Nat}
    {i : Nat} (hl : c.Listed) (h : c.Once) (hc : s.connected = true)
    (hs : c.subscribe ch s handler = some (c', i)) : c'.Once := by
  rcases subscribe_cases hs with ⟨-, -, rfl⟩ | ⟨-, rfl, c₁, h₁, rfl⟩
  · exact h.congr (fun j => update_connected c i j fun a => by simp) (fun _ => Nat.le_refl _)
      fun _ => Nat.le_refl _
  · have hpush : ({ c with objects := c.objects ++ [s] } : Client).Once := by
      refine ⟨fun j hj => ?_, fun j hj hm => ?_⟩
      · by_cases hjl : j < c.objects.length
        · refine h.live j ?_
          unfold connected at hj ⊢
          rwa [List.getElem?_append_left hjl] at hj
        · have hr : c.rpcs.count j = 0 :=
            List.count_eq_zero.mpr fun hm => hjl (lt_of_alive (hl.rpcs j hm))
          have ht : c.timers.count j = 0 := List.count_eq_zero.mpr fun hm => hjl (hl.timers j hm)
          show c.rpcs.count j + c.timers.count j ≤ 1
          omega
      · refine h.dead j ?_ hm
        unfold connected at hj ⊢
        rwa [List.getElem?_append_left (lt_of_alive (hl.rpcs j hm))] at hj
    have hnew : ({ c with objects := c.objects ++ [s] } : Client).connected c.objects.length = true := by
      unfold connected
      rw [List.getElem?_concat_length, Option.any_some, hc]
    refine (hpush.channelStream hnew ?_ h₁).congr (fun j => ?_) (fun j => ?_) fun j => ?_
    · have hr : c.rpcs.count c.objects.length = 0 :=
        List.count_eq_zero.mpr fun hm => Nat.lt_irrefl _ (lt_of_alive (hl.rpcs _ hm))
      have ht : c.timers.count c.objects.length = 0 :=
        List.count_eq_zero.mpr fun hm => Nat.lt_irrefl _ (hl.timers _ hm)
      exact Nat.add_eq_zero_iff.mpr ⟨hr, ht⟩
    · unfold connected; rw [setActive_objects]
    · exact Nat.le_of_eq (by rw [setActive_rpcs])
    · exact Nat.le_of_eq (by rw [setActive_timers])

theorem Once.step {ch : Channel} {c c' : Client} {e : ClientEvent} (hl : c.Listed) (h : c.Once)
    (hok : RetryOk c e) (hs : clientStep ch c e = some c') : c'.Once := by
  cases e with
  | stream method arg handler =>
    obtain ⟨⟨c₁, i⟩, h₁, rfl⟩ := Option.map_eq_some_iff.mp hs
    exact Once.subscribe hl h (by simp [GrpcStream.new]) h₁
  | streamBidirect method handler =>
    obtain ⟨⟨c₁, i⟩, h₁, rfl⟩ := Option.map_eq_some_iff.mp hs
    exact Once.subscribe hl h (by simp [GrpcStream.new]) h₁
  | drop i =>
    simp only [clientStep] at hs
    split at hs
    · cases hs
      unfold drop
      dsimp only
      split
      · exact h.congr (fun j => update_connected c i j fun _ => rfl) (fun _ => Nat.le_refl _)
          fun _ => Nat.le_refl _
      · exact h.congr (fun j => update_connected c i j fun _ => rfl)
          (fun j => List.filter_sublist.count_le j) fun _ => Nat.le_refl _
    · cases hs
  | message r data =>
    obtain ⟨i, -, rfl⟩ := Option.map_eq_some_iff.mp hs
    unfold handler
    split
    · exact h.congr (fun j => update_connected c i j fun _ => rfl) (fun _ => Nat.le_refl _)
        fun _ => Nat.le_refl _
    · exact h
  | rpcFinished r how =>
    obtain ⟨i, hi, h₁⟩ := Option.bind_eq_some_iff.mp hs
    obtain ⟨hc, h0⟩ := h.eraseRpc hi
    have hm : Once { c with rpcs := c.rpcs.eraseIdx r } :=
      h.congr (fun _ => rfl) (fun j => count_eraseIdx_le _ _ j) fun _ => Nat.le_refl _
    unfold rpcFinished at h₁
    split at h₁
    · cases h₁; exact hm
    · cases h₁; exact hm.emitError fun _ => h0
    · cases h₁; exact hm.emitFinished i
    · exact hm.channelStream hc h0 h₁
    · cases h₁; exact hm.emitError fun _ => h0
  | writeFails i =>
    simp only [clientStep] at hs
    split at hs
    · cases hs
      -- the handlers of a finished stream are gone: nothing is armed
      refine h.emitError fun hc => ?_
      rw [hl.connected_of_finished hok] at hc
      cases hc
    · cases hs
  | abort i =>
    simp only [clientStep] at hs
    split at hs
    · cases hs; exact h.emitFinished i
    · cases hs
  | timeout t =>
    obtain ⟨i, hi, h₁⟩ := Option.bind_eq_some_iff.mp hs
    have hm : Once { c with timers := c.timers.eraseIdx t } :=
      h.congr (fun _ => rfl) (fun _ => Nat.le_refl _) fun j => count_eraseIdx_le _ _ j
    unfold timeout at h₁
    split at h₁
    · rename_i ha
      have hc : c.connected i = true := by
        by_contra hc
        have hc := Bool.eq_false_iff.mpr hc
        have hf := hl.finished_of_not_connected (hl.timers i (List.mem_of_getElem? hi)) hc
        exact Bool.false_ne_true ((not_alive hc (hok i hi hf)).symm.trans ha)
      exact hm.channelStream hc (h.eraseTimer hi hc) h₁
    · cases h₁; exact hm

/-! ## A finished stream is left alone -/

/-- Stream `i` has finished and was not opened in between. -/
def LeftAlone (i : Nat) (c c' : Client) : Prop :=
  c'.hasFinished i = true ∧ c'.opened.count i = c.opened.count i

theorem LeftAlone.channelStream {ch : Channel} {c c' : Client} {i j : Nat}
    (hi : c.hasFinished i = true) (hj : c.hasFinished j = false)
    (hs : c.channelStream ch j = some c') : LeftAlone i c c' := by
  have hne : ¬ j = i := fun h => by rw [h, hi] at hj; cases hj
  refine ⟨?_, ?_⟩
  · unfold hasFinished
    rw [channelStream_objects hs]
    exact hi
  · rw [channelStream_opened hs, count_append_singleton, if_neg hne, Nat.add_zero]

theorem LeftAlone.emitError {c : Client} {i : Nat} (hi : c.hasFinished i = true) (j : Nat) :
    LeftAlone i c (c.emitError j) := by
  unfold Client.emitError
  split <;> exact ⟨hi, rfl⟩

theorem LeftAlone.emitFinished {c : Client} {i : Nat} (hi : c.hasFinished i = true) (j : Nat) :
    LeftAlone i c (c.emitFinished j) :=
  ⟨emitFinished_hasFinished c j i hi, by rw [emitFinished_opened]⟩

theorem LeftAlone.subscribe {ch : Channel} {c c' : Client} {s : GrpcStream} {handler : Option Nat}
    {i j : Nat} (hi : c.hasFinished i = true) (hs : c.subscribe ch s handler = some (c', j)) :
    LeftAlone i c c' := by
  have hlt : i < c.objects.length := by
    unfold hasFinished at hi
    by_contra hge
    rw [List.getElem?_eq_none (Nat.le_of_not_lt hge)] at hi
    cases hi
  rcases subscribe_cases hs with ⟨-, -, rfl⟩ | ⟨-, rfl, c₁, h₁, rfl⟩
  · refine ⟨?_, rfl⟩
    rw [update_hasFinished c j i fun a => by simp]
    exact hi
  · refine ⟨?_, ?_⟩
    · unfold hasFinished
      rw [push_get h₁ (Nat.ne_of_lt hlt)]
      exact hi
    · rw [setActive_opened]
      have ho : c₁.opened = c.opened ++ [c.objects.length] := (channelStream_opened h₁ :)
      rw [ho, count_append_singleton, if_neg (Nat.ne_of_gt hlt), Nat.add_zero]

theorem LeftAlone.step {ch : Channel} {c c' : Client} {e : ClientEvent} {i : Nat} (hl : c.Listed)
    (h : c.Once) (hok : RetryOk c e) (hi : c.hasFinished i = true)
    (hs : clientStep ch c e = some c') : LeftAlone i c c' := by
  have hnot : ∀ j, c.connected j = true → c.hasFinished j = false := fun j hj =>
    Bool.eq_false_iff.mpr fun hf => by rw [hl.connected_of_finished hf] at hj; cases hj
  cases e with
  | stream method arg handler =>
    obtain ⟨⟨c₁, j⟩, h₁, rfl⟩ := Option.map_eq_some_iff.mp hs
    exact LeftAlone.subscribe hi h₁
  | streamBidirect method handler =>
    obtain ⟨⟨c₁, j⟩, h₁, rfl⟩ := Option.map_eq_some_iff.mp hs
    exact LeftAlone.subscribe hi h₁
  | drop j =>
    have hf := (update_hasFinished c j i (f := fun s => { s with held := false }) fun _ => rfl).trans hi
    simp only [clientStep] at hs
    split at hs
    · cases hs
      unfold drop
      dsimp only
      split <;> exact ⟨hf, rfl⟩
    · cases hs
  | message r data =>
    obtain ⟨j, -, rfl⟩ := Option.map_eq_some_iff.mp hs
    unfold handler
    split
    · have hf := update_hasFinished c j i (f := fun s => { s with data := data }) fun _ => rfl
      exact ⟨hf.trans hi, rfl⟩
    · exact ⟨hi, rfl⟩
  | rpcFinished r how =>
    obtain ⟨j, hj, h₁⟩ := Option.bind_eq_some_iff.mp hs
    have hc := (h.eraseRpc hj).1
    unfold rpcFinished at h₁
    split at h₁
    · cases h₁; exact ⟨hi, rfl⟩
    · cases h₁; exact LeftAlone.emitError (c := { c with rpcs := c.rpcs.eraseIdx r }) hi j
    · cases h₁; exact LeftAlone.emitFinished (c := { c with rpcs := c.rpcs.eraseIdx r }) hi j
    · exact LeftAlone.channelStream (c := { c with rpcs := c.rpcs.eraseIdx r }) hi (hnot j hc) h₁
    · cases h₁; exact LeftAlone.emitError (c := { c with rpcs := c.rpcs.eraseIdx r }) hi j
  | writeFails j =>
    simp only [clientStep] at hs
    split at hs
    · cases hs; exact LeftAlone.emitError hi j
    · cases hs
  | abort j =>
    simp only [clientStep] at hs
    split at hs
    · cases hs; exact LeftAlone.emitFinished hi j
    · cases hs
  | timeout t =>
    obtain ⟨j, hj, h₁⟩ := Option.bind_eq_some_iff.mp hs
    unfold timeout at h₁
    split at h₁
    · rename_i ha
      have hf : c.hasFinished j = false := by
        by_contra hf
        have hf := (Bool.not_eq_false _).mp hf
        have ha' := not_alive (hl.connected_of_finished hf) (hok j hj hf)
        exact Bool.false_ne_true (ha'.symm.trans ha)
      exact LeftAlone.channelStream (c := { c with timers := c.timers.eraseIdx t }) hi hf h₁
    · cases h₁; exact ⟨hi, rfl⟩

theorem Once.inductive (ch : Channel) :
    ((clientLts ch).restrict RetryOk).Inductive fun c => c.Listed ∧ c.Once where
  init _ h := h ▸ ⟨.new, .new⟩
  step _ _ _ h hs := ⟨h.1.step hs.2, h.2.step h.1 hs.1 hs.2⟩

/-- From a state with the invariant on, a finished stream is never opened. -/
theorem LeftAlone.run {ch : Channel} {c c' : Client} {es : List ClientEvent} {i : Nat}
    (hr : ((clientLts ch).restrict RetryOk).Run c es c') (hl : c.Listed) (h : c.Once)
    (hi : c.hasFinished i = true) : LeftAlone i c c' := by
  induction hr with
  | nil => exact ⟨hi, rfl⟩
  | cons hs _ ih =>
    have h₁ := LeftAlone.step hl h hs.1 hi hs.2
    have h₂ := ih (hl.step hs.2) (h.step hl hs.1 hs.2) h₁.1
    exact ⟨h₂.1, h₂.2.trans h₁.2⟩

end Client

/-- **One RPC.** Over either channel, in every run without a failing `write()`
on an unfinished stream and without a retry timer that finds a finished stream
still held, each stream has at most one live RPC, a finished one none, and it
is never handed to `channel->stream` again. -/
theorem one_live_rpc (ch : Channel) {c : Client}
    (h : ((clientLts ch).restrict RetryOk).Reachable c) :
    (∀ i, c.rpcs.count i ≤ 1) ∧
    (∀ i, c.hasFinished i = true → i ∉ c.rpcs) ∧
    ∀ i es c', c.hasFinished i = true → ((clientLts ch).restrict RetryOk).Run c es c' →
      c'.opened.count i = c.opened.count i := by
  obtain ⟨hl, ho⟩ := (Client.Once.inductive ch).reachable h
  refine ⟨fun i => ?_, fun i hi => ho.dead i (hl.connected_of_finished hi), fun i es c' hi hr =>
    (Client.LeftAlone.run hr hl ho hi).2⟩
  by_cases hc : c.connected i = true
  · exact Nat.le_trans (Nat.le_add_right ..) (ho.live i hc)
  · have hm := ho.dead i (Bool.eq_false_iff.mpr hc)
    rw [List.count_eq_zero.mpr hm]
    exact Nat.zero_le _

/-- A stream whose RPC fails and is restored by the timer, and which is then
aborted and released: one RPC, then none. -/
theorem one_live_rpc_restored : ∃ c, Client.rpcs c = [] ∧ c.hasFinished 0 = true ∧
    (∀ i, c.rpcs.count i ≤ 1) ∧ 0 ∉ c.rpcs := by
  have hr : ∃ c, exec (guarded RetryOk (clientStep .grpc)) .new
      [.stream [109] [1] (some 7), .rpcFinished 0 .failed, .timeout 0, .message 0 [2], .abort 0,
        .drop 0] = some c ∧ c.rpcs = [] ∧ c.hasFinished 0 = true := ⟨_, rfl, rfl, rfl⟩
  obtain ⟨c, hrun, hrpc, hf⟩ := hr
  obtain ⟨h1, h2, -⟩ := one_live_rpc .grpc ⟨.new, _, rfl, exec_guarded _ hrun⟩
  exact ⟨c, hrpc, hf, h1, h2 0 hf⟩

/-- A `write()` that cannot serialize its message leaves the RPC running and
starts the timer: a second RPC. A stream aborted while its timer runs, and
still held, is opened again although it has finished. -/
theorem two_live_rpcs :
    (∃ c, exec (clientStep .grpc) .new
      [.streamBidirect [109] (some 7), .writeFails 0, .timeout 0] = some c ∧ c.rpcs = [0, 0]) ∧
    ∃ c c', exec (clientStep .grpc) .new
      [.stream [109] [1] (some 7), .rpcFinished 0 .failed, .abort 0] = some c ∧
      c.hasFinished 0 = true ∧ clientStep .grpc c (.timeout 0) = some c' ∧
      c'.opened = c.opened ++ [0] ∧ c'.rpcs = [0] ∧ c'.hasFinished 0 = true :=
  ⟨⟨_, rfl, rfl⟩, _, _, rfl, rfl, rfl, rfl, rfl, rfl⟩

end QtProtobuf.Grpc
