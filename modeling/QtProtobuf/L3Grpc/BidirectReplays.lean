import QtProtobuf.L3Grpc.Bidirect
import Mathlib.Data.List.Basic

/-!
# Write replies of a bidirectional call

A reply waits while its entry is in `m_sendQueue` or its operation is
outstanding. `Ledger` says what that means: waiting replies are untouched, and
every other one has emitted `finished` once, with the status of its own
operation. The object finishes replies through one slot,
`m_currentWriteReplay`, so the ledger balances as long as the slot holds the
reply of the operation outstanding.

It does not when a `WritesDone` is dequeued (`dequeueWrite` leaves the slot
alone), when a call is made while a `WritesDone` issued directly is outstanding
(`writeDone` leaves `m_inProcess` unset), and when `finishRead` reports a write
that is still to complete. `ReplyCond` is the condition on a step that keeps
clear of the three.

* `replies_once`: along every run whose steps meet `ReplyCond`, a reply emits
  `finished` at most once, with the status of its own operation, and exactly
  once when the call is over.
* `replies_queuedDone`: the reply of a queued `writeDone` never finishes, and
  that of the write before it finishes twice.
-/
namespace QtProtobuf.Grpc

/-! ## The ledger -/

/-- The reply `r` is finished: OK if its own operation completed ok, Failed if
not. `completed` has the operations completed. -/
def Replay.Settled (rep : Replay) (r : Nat) (completed : List (Nat × Bool)) : Prop :=
  rep.finished = 1 ∧
    ((rep.status = .ok ∧ (r, true) ∈ completed) ∨ (rep.status = .failed ∧ (r, true) ∉ completed))

/-- The replies `waiting` are untouched, and every other one is settled. -/
structure Ledger (waiting : List Nat) (replays : List Replay) (completed : List (Nat × Bool)) :
    Prop where
  nodup : waiting.Nodup
  known : ∀ p ∈ completed, p.1 < replays.length
  waits : ∀ r ∈ waiting, replays[r]? = some ⟨.inProcess, 0, 0⟩ ∧ ∀ ok, (r, ok) ∉ completed
  settled : ∀ r rep, replays[r]? = some rep → r ∉ waiting → rep.Settled r completed

namespace Ledger

variable {waiting : List Nat} {replays : List Replay} {completed : List (Nat × Bool)}

theorem new : Ledger [] [] [] where
  nodup := .nil
  known p hp := absurd hp List.not_mem_nil
  waits r hr := absurd hr List.not_mem_nil
  settled r rep hr := by rw [List.getElem?_nil] at hr; cases hr

/-- The order of the waiting replies does not matter. -/
theorem perm {w : List Nat} (h : Ledger waiting replays completed) (hp : waiting.Perm w) :
    Ledger w replays completed where
  nodup := hp.nodup_iff.mp h.nodup
  known := h.known
  waits r hr := h.waits r (hp.mem_iff.mpr hr)
  settled r rep hrep hr := h.settled r rep hrep fun hm => hr (hp.mem_iff.mp hm)

theorem waiting_lt (h : Ledger waiting replays completed) {r : Nat} (hr : r ∈ waiting) :
    r < replays.length :=
  (List.getElem?_eq_some_iff.mp (h.waits r hr).1).1

/-- A call hands over a fresh reply. -/
theorem handOver (h : Ledger waiting replays completed) :
    Ledger (replays.length :: waiting) (replays ++ [⟨.inProcess, 0, 0⟩]) completed where
  nodup := List.nodup_cons.mpr ⟨fun hm => Nat.lt_irrefl _ (h.waiting_lt hm), h.nodup⟩
  known p hp := by
    have := h.known p hp
    rw [List.length_append]; omega
  waits r hr := by
    rcases List.mem_cons.mp hr with rfl | hr
    · refine ⟨by rw [List.getElem?_concat_length], fun ok hm => ?_⟩
      exact Nat.lt_irrefl _ (h.known _ hm)
    · rw [List.getElem?_append_left (h.waiting_lt hr)]
      exact h.waits r hr
  settled r rep hrep hr := by
    rw [List.mem_cons, not_or] at hr
    have hlt : r < replays.length := by
      have := (List.getElem?_eq_some_iff.mp hrep).1
      rw [List.length_append, List.length_singleton] at this
      omega
    rw [List.getElem?_append_left hlt] at hrep
    exact h.settled r rep hrep hr.2

/-- A waiting reply is finished by `f`, which settles it. -/
theorem settle {r : Nat} {c : List (Nat × Bool)} (h : Ledger (r :: waiting) replays completed)
    (f : Replay → Replay) (hf : (f ⟨.inProcess, 0, 0⟩).Settled r c)
    (hc : ∀ p, p ∈ c ↔ p ∈ completed ∨ (p.1 = r ∧ p ∈ c)) :
    Ledger waiting (replays.modify r f) c := by
  have hnd := List.nodup_cons.mp h.nodup
  have hr := h.waits r List.mem_cons_self
  refine ⟨hnd.2, ?_, ?_, ?_⟩
  · intro p hp
    rw [List.length_modify]
    rcases (hc p).mp hp with hp | ⟨hp, -⟩
    · exact h.known p hp
    · rw [hp]; exact h.waiting_lt List.mem_cons_self
  · intro s hs
    have hne : s ≠ r := fun he => hnd.1 (he ▸ hs)
    have hw := h.waits s (List.mem_cons_of_mem r hs)
    refine ⟨?_, fun ok hm => ?_⟩
    · rw [List.getElem?_modify_ne _ _ hne.symm]; exact hw.1
    · rcases (hc _).mp hm with hm | ⟨he, -⟩
      · exact hw.2 ok hm
      · exact hne he
  · intro s rep hrep hs
    by_cases hne : s = r
    · subst hne
      rw [List.getElem?_modify_eq, hr.1] at hrep
      cases hrep
      exact hf
    · rw [List.getElem?_modify_ne _ _ (Ne.symm hne)] at hrep
      have hset := h.settled s rep hrep (fun hm => (List.mem_cons.mp hm).elim hne hs)
      have hiff : (s, true) ∈ c ↔ (s, true) ∈ completed :=
        ⟨fun hm => ((hc _).mp hm).resolve_right fun hx => hne hx.1, fun hm => (hc _).mpr (.inl hm)⟩
      unfold Replay.Settled at hset ⊢
      rw [hiff]
      exact hset

/-- The operation of `r` completed, and `finishWrite` reports it. -/
theorem complete {r : Nat} (h : Ledger (r :: waiting) replays completed) (ok : Bool) :
    Ledger waiting (replays.modify r (if ok then Replay.succeed else Replay.fail))
      (completed ++ [(r, ok)]) := by
  refine h.settle _ ?_ fun p => ?_
  · cases ok with
    | true => exact ⟨rfl, .inl ⟨rfl, List.mem_append_right _ List.mem_cons_self⟩⟩
    | false =>
      refine ⟨rfl, .inr ⟨rfl, fun hm => ?_⟩⟩
      rcases List.mem_append.mp hm with hm | hm
      · exact (h.waits r List.mem_cons_self).2 true hm
      · cases List.mem_singleton.mp hm
  · rw [List.mem_append, List.mem_singleton]
    constructor
    · rintro (hp | rfl)
      · exact .inl hp
      · exact .inr ⟨rfl, .inr rfl⟩
    · rintro (hp | ⟨-, hp⟩)
      · exact .inl hp
      · exact hp

/-- `finishRead` fails a reply whose operation was never issued. -/
theorem fail {r : Nat} (h : Ledger (r :: waiting) replays completed) :
    Ledger waiting (replays.modify r Replay.fail) completed := by
  refine h.settle _ ⟨rfl, .inr ⟨rfl, (h.waits r List.mem_cons_self).2 true⟩⟩ fun p => ?_
  exact ⟨.inl, fun hp => hp.elim id And.right⟩

end Ledger

/-! ## The object -/

namespace Bidirect

/-- The replies whose entry is queued or whose operation is outstanding. -/
def waiting (b : Bidirect) : List Nat :=
  b.sendQueue.map (·.replay) ++ b.writesPending.map (·.replay)

/-- The ledger balances, and the slot holds the reply of the operation
outstanding. `idle`: with `m_inProcess` set and nothing outstanding, the call is
still connecting, and the slot is empty. -/
structure Replies (b : Bidirect) : Prop where
  ledger : Ledger b.waiting b.replays b.completed
  one : b.writesPending.length ≤ 1
  slot : ∀ op ∈ b.writesPending, b.currentWriteReplay = some op.replay
  flushed : b.finished = true → b.sendQueue = []
  idle : b.deleted = false → b.inProcess = true → b.writesPending = [] → b.currentWriteReplay = none

/-- The slot is empty before `startReader`. -/
def Unused (b : Bidirect) : Prop := b.started = false → b.currentWriteReplay = none

/-- `dequeueWrite` would not issue a `WritesDone`. -/
def DataHead (b : Bidirect) : Prop := ∀ d ∈ b.sendQueue.head?, d.done = false

instance (b : Bidirect) : Decidable b.DataHead :=
  inferInstanceAs (Decidable (∀ d ∈ b.sendQueue.head?, d.done = false))

end Bidirect

open Bidirect

/-- With `m_inProcess` unset no write is outstanding when a call is made, no
`WritesDone` is dequeued, and no write is outstanding under `m_inProcess` when
the RPC ends. -/
def ReplyAllowed (b : Bidirect) : Ev → Prop
  | .appendToSend _ | .writeDone => b.inProcess = true ∨ b.writesPending = []
  | .newData ok _ _ => ok = true → b.readerState = .firstCall → b.DataHead
  | .finishWrite _ _ => b.DataHead
  | .finishRead _ => b.inProcess = false ∨ b.writesPending = []
  | _ => True

/-- The condition on a step: it reaches a live object, and `ReplyAllowed`. -/
def ReplyCond (b : Bidirect) (e : Ev) : Prop := b.deleted = false ∧ ReplyAllowed b e

instance (b : Bidirect) (e : Ev) : Decidable (ReplyAllowed b e) :=
  match e with
  | .appendToSend _ | .writeDone | .finishRead _ => inferInstanceAs (Decidable (_ ∨ _))
  | .newData _ _ _ => inferInstanceAs (Decidable (_ → _ → _))
  | .finishWrite _ _ => inferInstanceAs (Decidable b.DataHead)
  | .startReader | .finishCompletes _ | .sharedPtrReleased => .isTrue trivial

instance (b : Bidirect) (e : Ev) : Decidable (ReplyCond b e) := inferInstanceAs (Decidable (_ ∧ _))

namespace Bidirect

/-- The members the replies do not depend on. -/
theorem Replies.congr {b b' : Bidirect} (h : b.Replies)
    (h' : ∃ c, c.finished = b.finished ∧ (c.deleted = false → b.deleted = false) ∧
      b' = { b with toBaseCall := c }) : b'.Replies := by
  obtain ⟨c, hf, hd, rfl⟩ := h'
  exact ⟨h.ledger, h.one, h.slot, fun hc => h.flushed (hf.symm.trans hc), fun hc => h.idle (hd hc)⟩

theorem deleted_of_deref {c : BaseCall} (h : c.deref.deleted = false) : c.deleted = false :=
  (Bool.or_eq_false_iff.mp h).1

/-- No operation is outstanding, and the slot is of no account. -/
structure Settling (b : Bidirect) : Prop where
  ledger : Ledger (b.sendQueue.map (·.replay)) b.replays b.completed
  pending : b.writesPending = []
  flushed : b.finished = true → b.sendQueue = []

theorem Settling.waiting {b : Bidirect} (h : b.Settling) :
    Ledger b.waiting b.replays b.completed := by
  unfold Bidirect.waiting
  rw [h.pending, List.map_nil, List.append_nil]
  exact h.ledger

theorem Replies.settling {b : Bidirect} (h : b.Replies) (hw : b.writesPending = []) :
    b.Settling := by
  have hl := h.ledger
  unfold Bidirect.waiting at hl
  rw [hw, List.map_nil, List.append_nil] at hl
  exact ⟨hl, hw, h.flushed⟩

/-- The reply of the head of the queue, a write, goes into the slot. -/
theorem Settling.dequeueWrite {b : Bidirect} (h : b.Settling) (hd : b.DataHead) :
    b.dequeueWrite.Replies := by
  have hw := h.pending
  unfold Bidirect.dequeueWrite
  split
  · refine ⟨h.waiting, ?_, ?_, h.flushed, fun _ hp => Bool.noConfusion hp⟩
    · rw [hw]; exact Nat.zero_le 1
    · intro op hop
      rw [hw] at hop; cases hop
  · rename_i d rest hq
    have hdata : d.done = false := hd d (by rw [hq]; rfl)
    have hfin : b.finished = false := by
      refine Bool.eq_false_iff.mpr fun hf => ?_
      rw [h.flushed hf] at hq; cases hq
    have hl := h.ledger
    rw [hq] at hl
    simp only [hdata, Bool.false_eq_true, if_false]
    refine ⟨hl.perm ?_, ?_, ?_, ?_, ?_⟩
    · simp only [Bidirect.waiting, issue, ref, hw, List.map_cons, List.map_nil, List.nil_append]
      exact (List.perm_append_singleton ..).symm
    · simp only [issue, ref, hw]; exact Nat.le_refl 1
    · intro op hop
      simp only [issue, ref, hw, List.nil_append, List.mem_singleton] at hop
      rw [hop]; rfl
    · intro hf
      exact absurd (hfin.symm.trans hf) (by decide)
    · intro _ _ hnil
      simp only [issue, ref, List.append_eq_nil_iff] at hnil
      exact absurd hnil.2 (List.cons_ne_nil _ _)

/-- A call while `m_inProcess` is set: its reply waits in the queue. -/
theorem Replies.enqueue {b b' : Bidirect} (h : b.Replies) (d : QGrpcChannelWriteData)
    (hf : b.finished = false) (hd : d.replay = b.replays.length)
    (h' : ∃ n del, (del = false → b.deleted = false) ∧
      b' = { b with refCount := n, deleted := del, calls := b.calls ++ [d]
                    replays := b.replays ++ [⟨.inProcess, 0, 0⟩]
                    sendQueue := b.sendQueue ++ [d] }) : b'.Replies := by
  obtain ⟨n, del, hdel, rfl⟩ := h'
  refine ⟨h.ledger.handOver.perm ?_, h.one, h.slot, ?_, fun hc => h.idle (hdel hc)⟩
  · simp only [waiting, List.map_append, List.map_cons, List.map_nil, hd, List.append_assoc,
      List.singleton_append]
    exact List.perm_middle.symm
  · intro hc
    exact absurd (hf.symm.trans hc) (by decide)

/-- A call with nothing outstanding: its reply goes into the slot. -/
theorem Replies.direct {b b' : Bidirect} (h : b.Replies) (d : QGrpcChannelWriteData)
    (hw : b.writesPending = []) (hf : b.finished = false) (hd : d.replay = b.replays.length)
    (h' : ∃ n del p, b' = { b with refCount := n, deleted := del, calls := b.calls ++ [d]
                                   replays := b.replays ++ [⟨.inProcess, 0, 0⟩]
                                   inProcess := p, currentWriteReplay := some d.replay
                                   writesPending := b.writesPending ++ [d]
                                   issued := b.issued ++ [d] }) : b'.Replies := by
  obtain ⟨n, del, p, rfl⟩ := h'
  have hl := h.ledger.handOver
  simp only [waiting, hw, List.map_nil, List.append_nil] at hl
  refine ⟨hl.perm ?_, ?_, ?_, ?_, ?_⟩
  · simp only [waiting, hw, List.map_cons, List.map_nil, List.nil_append, hd]
    exact (List.perm_append_singleton ..).symm
  · simp only [hw]; exact Nat.le_refl 1
  · intro op hop
    simp only [hw, List.nil_append, List.mem_singleton] at hop
    rw [hop]
  · intro hc
    exact absurd (hf.symm.trans hc) (by decide)
  · intro _ _ hnil
    exact absurd (List.append_eq_nil_iff.mp hnil).2 (List.cons_ne_nil _ _)

theorem Replies.newData {b : Bidirect} (h : b.Replies) (hc : b.Connecting) {ok : Bool}
    (hh : ok = true → b.readerState = .firstCall → b.DataHead) (dump : Status) (slices : Bytes) :
    (b.newData ok dump slices).Replies := by
  cases ok with
  | false =>
    exact h.congr ⟨({ b with readerState := .ended } : BaseCall).deref, rfl, deleted_of_deref, rfl⟩
  | true =>
    cases hst : b.readerState with
    | firstCall =>
      rw [newData_firstCall hst]
      have hq := (h.settling (hc hst).1).dequeueWrite (hh rfl hst)
      exact hq.congr ⟨b.establish.deref.toBaseCall, rfl, deleted_of_deref, rfl⟩
    | processing =>
      rw [newData_processing hst]
      refine h.congr ⟨(b.receive dump slices).deref, ?_, fun hd => ?_, rfl⟩
      · unfold BaseCall.receive
        dsimp only
        split <;> rfl
      · have hd := deleted_of_deref hd
        unfold BaseCall.receive at hd
        dsimp only at hd
        split at hd <;> exact hd
    | ended =>
      rw [newData_ended hst]
      exact h.congr ⟨b.toBaseCall.deref, rfl, deleted_of_deref, rfl⟩

/-- Failing the queue settles its replies. -/
theorem Ledger.foldReplay {w : List Nat} {c : List (Nat × Bool)} (q : List QGrpcChannelWriteData)
    {b : Bidirect} (h : Ledger (q.map (·.replay) ++ w) b.replays c) :
    Ledger w (q.foldl (fun b d => b.onReplay d.replay Replay.fail) b).replays c := by
  induction q generalizing b with
  | nil => exact h
  | cons d q ih =>
    refine ih (b := b.onReplay d.replay Replay.fail) ?_
    exact h.fail

/-- The flush of `finishRead`, with an empty slot or nothing in process. -/
theorem Replies.finishRead {b : Bidirect} (h : b.Replies) (hd : b.deleted = false)
    (hc : b.inProcess = false ∨ b.writesPending = []) : b.finishRead.Replies := by
  have hslot : ∀ r, b.inProcess = true → b.currentWriteReplay = some r → False := by
    intro r hp hr
    have hw := hc.resolve_left (by rw [hp]; decide)
    rw [h.idle hd hp hw] at hr; cases hr
  have hq : b.finishRead =
      ({ ({ b with toBaseCall := b.takeStatus } : Bidirect).flush with finished := true }).deref := by
    unfold Bidirect.finishRead
    dsimp only
    split
    · rename_i r hp hr
      exact absurd hr (hslot r hp)
    · rfl
  obtain ⟨rs, -, hrs⟩ := ({ b with toBaseCall := b.takeStatus } : Bidirect).flush_eq
  have hl : Ledger (b.writesPending.map (·.replay)) rs b.completed := by
    have hfold := Ledger.foldReplay b.sendQueue (b := { b with toBaseCall := b.takeStatus }) h.ledger
    have hrep : rs = (b.sendQueue.foldl (fun (b : Bidirect) d => b.onReplay d.replay Replay.fail)
        { b with toBaseCall := b.takeStatus }).replays := (congrArg Bidirect.replays hrs).symm
    rw [hrep]
    exact hfold
  rw [hq, hrs]
  refine ⟨hl, h.one, h.slot, fun _ => rfl, fun hdel => ?_⟩
  exact h.idle hd

/-- The operation outstanding completes, and its own reply reports it. -/
theorem Replies.finishWrite {b : Bidirect} (h : b.Replies) {i : Nat} {op : QGrpcChannelWriteData}
    (hi : b.writesPending[i]? = some op) (hh : b.DataHead) (ok : Bool) :
    ((b.completeWrite i op ok).finishWrite ok).Replies := by
  -- there is one operation, and it is the one completed
  have hmem : op ∈ b.writesPending := List.mem_of_getElem? hi
  have hone := h.one
  have hw : b.writesPending = [op] := by
    match hb : b.writesPending with
    | [] => rw [hb] at hmem; cases hmem
    | [x] => rw [hb] at hmem; rw [List.mem_singleton.mp hmem]
    | x :: y :: l => rw [hb] at hone; simp only [List.length_cons] at hone; omega
  have hi0 : i = 0 := by
    have := (List.getElem?_eq_some_iff.mp hi).1
    rw [hw, List.length_singleton] at this; omega
  subst hi0
  have hslot := h.slot op hmem
  have hl := h.ledger
  unfold waiting at hl
  rw [hw] at hl
  have hrep : (b.completeWrite 0 op ok).reportWrite ok =
      (b.completeWrite 0 op ok).onReplay op.replay (if ok then Replay.succeed else Replay.fail) := by
    unfold reportWrite
    simp only [completeWrite, hslot]
  have hl' := (hl.perm (List.perm_append_singleton ..)).complete ok
  have hnil : b.writesPending.eraseIdx 0 = [] := by rw [hw]; rfl
  have hset : ((b.completeWrite 0 op ok).reportWrite ok).deref.Settling := by
    rw [hrep]
    exact ⟨hl', hnil, h.flushed⟩
  have hhead : ((b.completeWrite 0 op ok).reportWrite ok).deref.DataHead := by
    rw [hrep]
    exact hh
  unfold Bidirect.finishWrite
  generalize ((b.completeWrite 0 op ok).reportWrite ok).deref = s at hset hhead
  dsimp only
  split
  · rename_i hdel
    refine ⟨hset.waiting, ?_, ?_, hset.flushed, fun hc => ?_⟩
    · rw [hset.pending]; exact Nat.zero_le 1
    · intro x hx
      rw [hset.pending] at hx; cases hx
    · rw [hdel] at hc; cases hc
  · exact hset.dequeueWrite hhead

end Bidirect

/-! ## Steps and runs -/

theorem Fires.unused {b b' : Bidirect} {e : Ev} (h : Fires b e b') (hf : b.Fresh) (hu : b.Unused) :
    b'.Unused := by
  intro hst'
  by_cases hst : b.started = true
  · rw [h.started hst] at hst'; cases hst'
  · have h0 := hu (Bool.eq_false_iff.mpr hst)
    rcases h.first hf (Bool.eq_false_iff.mpr hst) with rfl | rfl
    · cases h with
      | startReader => cases hst'
    · cases h with
      | sharedPtrReleased => exact h0

/-- **The step.** Under `ReplyCond` every event keeps the ledger balanced. -/
theorem replies_step {b b' : Bidirect} {e : Ev} (h : b.Replies) (hc : b.Connecting)
    (hu : b.Unused) (ha : ReplyAllowed b e) (hf : Fires b e b') (hd : b.deleted = false) :
    b'.Replies := by
  cases hf with
  | startReader hst => exact ⟨h.ledger, h.one, h.slot, h.flushed, fun _ _ _ => hu hst⟩
  | appendToSend data hst hr hfin =>
    unfold Bidirect.appendToSend
    split
    · exact h.enqueue ⟨data, b.replays.length, false⟩ hfin rfl ⟨_, _, fun hdel => hdel, rfl⟩
    · rename_i hp
      exact h.direct ⟨data, b.replays.length, false⟩ (ha.resolve_left hp) hfin rfl ⟨_, _, _, rfl⟩
  | writeDone hst hr hfin =>
    unfold Bidirect.writeDone
    split
    · exact h.enqueue ⟨[], b.replays.length, true⟩ hfin rfl ⟨_, _, deleted_of_deref, rfl⟩
    · rename_i hp
      exact h.direct ⟨[], b.replays.length, true⟩ (ha.resolve_left hp) hfin rfl ⟨_, _, _, rfl⟩
  | newData ok dump slices =>
    have h0 : ({ b with readPending := false } : Bidirect).Replies :=
      h.congr ⟨{ b.toBaseCall with readPending := false }, rfl, fun hdel => hdel, rfl⟩
    exact h0.newData hc ha dump slices
  | finishCompletes st => exact h.congr ⟨b.finishCompletes st, rfl, fun hdel => hdel, rfl⟩
  | finishRead ok =>
    have h0 : ({ b with finishPending := false } : Bidirect).Replies :=
      h.congr ⟨{ b.toBaseCall with finishPending := false }, rfl, fun hdel => hdel, rfl⟩
    exact h0.finishRead hd ha
  | finishWrite i ok op hi => exact h.finishWrite hi ha ok
  | sharedPtrReleased => exact h.congr ⟨b.sharedPtrReleased, rfl, deleted_of_deref, rfl⟩

/-- Each reply of `b`: `finished` at most once, then with the status of its own
operation; exactly once when `finishRead` is processed and no operation is
outstanding. -/
def RepliesOnce (b : Bidirect) : Prop :=
  ∀ (r : Nat) (rep : Replay), b.replays[r]? = some rep →
    rep.finished ≤ 1 ∧ (rep.finished = 1 → rep.Settled r b.completed) ∧
      (b.finished = true → b.outstanding = 0 → rep.finished = 1)

theorem Bidirect.Replies.once {b : Bidirect} (h : b.Replies) : RepliesOnce b := by
  intro r rep hrep
  by_cases hr : r ∈ b.waiting
  · have hw := (h.ledger.waits r hr).1
    rw [hrep] at hw
    cases hw
    refine ⟨Nat.zero_le 1, fun hf => absurd hf (by decide), fun hf ho => ?_⟩
    -- nothing waits when the call is over
    have hq := h.flushed hf
    simp only [outstanding, Nat.add_eq_zero_iff, List.length_eq_zero_iff] at ho
    unfold Bidirect.waiting at hr
    rw [hq, ho.2] at hr
    cases hr
  · have hs := h.ledger.settled r rep hrep hr
    exact ⟨Nat.le_of_eq hs.1, fun _ => hs, fun _ _ => hs.1⟩

theorem Bidirect.Replies.new : Bidirect.new.Replies where
  ledger := .new
  one := Nat.zero_le 1
  slot op hop := by cases hop
  flushed _ := rfl
  idle _ _ _ := rfl

/-- **Write replies.** Along every run whose steps meet `ReplyCond` each reply
is finished once, with the status of its own operation. -/
theorem replies_once {es : List Ev} {b : Bidirect}
    (h : (bidirectLts.restrict ReplyCond).Run .new es b) : RepliesOnce b := by
  have hinv : b.Replies ∧ b.Connecting ∧ b.Fresh ∧ b.Unused := by
    refine h.invariant (P := fun b => b.Replies ∧ b.Connecting ∧ b.Fresh ∧ b.Unused) ?_
      ⟨.new, fun _ => ⟨rfl, fun hs => hs⟩, fun _ => rfl, fun _ => rfl⟩
    intro s e s' ⟨hr, hc, hf, hu⟩ ⟨⟨hd, ha⟩, hs⟩
    rcases bidirectStep_fires hs with hfires | ⟨hdel, -⟩
    · exact ⟨replies_step hr hc hu ha hfires hd, hfires.connecting hc, hfires.fresh hf,
        hfires.unused hf hu⟩
    · rw [hd] at hdel; cases hdel
  exact hinv.1.once

/-- Two writes: the first goes through, the second fails with the RPC. -/
def failedSecond : List Ev :=
  [.startReader, .appendToSend [1], .newData true Status.OK [], .finishWrite 0 true,
    .appendToSend [2], .finishWrite 0 false, .newData false Status.OK [],
    .finishCompletes ⟨14, ""⟩, .finishRead true]

theorem replies_once_failedSecond :
    ∃ b, RepliesOnce b ∧ b.finished = true ∧ b.replays = [⟨.ok, 1, 0⟩, ⟨.failed, 1, 1⟩] := by
  have hrun : (bidirectLts.restrict ReplyCond).Run .new failedSecond _ := Lib.exec_guarded _ rfl
  exact ⟨_, replies_once hrun, rfl, rfl⟩

/-- A write and `writeDone` handed over while the call connects. The reply of
the write is finished twice; that of `writeDone` never, so that
`writeDoneBlocked` waits for ever. -/
theorem replies_queuedDone :
    ∃ b, bidirectRun [.startReader, .appendToSend [1], .writeDone, .newData true Status.OK [],
        .finishWrite 0 true, .finishWrite 0 true, .newData false Status.OK [],
        .finishCompletes Status.OK, .finishRead true] = some b ∧
      b.undef = false ∧ b.finished = true ∧ b.outstanding = 0 ∧
      b.replays = [⟨.ok, 2, 0⟩, ⟨.inProcess, 0, 0⟩] ∧ ¬ RepliesOnce b := by
  refine ⟨_, rfl, rfl, rfl, rfl, rfl, ?_⟩
  intro h
  exact absurd (h 0 _ rfl).1 (by decide)

end QtProtobuf.Grpc
