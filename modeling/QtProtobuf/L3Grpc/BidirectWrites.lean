import QtProtobuf.L3Grpc.Bidirect
import Mathlib.Data.List.Basic

/-!
# Write discipline of a bidirectional call

gRPC allows one outstanding write, and none after `WritesDone`. `m_inProcess`
is set while the call connects and while a `Write` is outstanding; calls made
then wait in `m_sendQueue`. What has been issued and what waits, put together,
is what was handed over (`Writes.all`).

`writeDone` issues its `WritesDone` without setting `m_inProcess`, and nothing
records that the write side is closed. `WriteCond` is the condition on a step
that keeps clear of both.

* `write_discipline`: along every run whose steps meet `WriteCond`, the writes
  are issued one at a time, after the call is established, in call order, and
  none follows a `WritesDone`.
* `write_overlap`: a write right after `writeDone` overlaps it.
-/
namespace QtProtobuf.Grpc

namespace Bidirect

/-- The write side has been closed. -/
def doneIssued (b : Bidirect) : Bool := b.issued.any (·.done)

/-- `dequeueWrite` would not issue a `Write` after a `WritesDone`. -/
def HeadAllowed (b : Bidirect) : Prop :=
  ∀ d ∈ b.sendQueue.head?, d.done = false → b.doneIssued = false

instance (b : Bidirect) : Decidable b.HeadAllowed :=
  inferInstanceAs (Decidable (∀ d ∈ b.sendQueue.head?, d.done = false → b.doneIssued = false))

/-- The write side between two events. -/
structure Writes (b : Bidirect) : Prop where
  idle : b.inProcess = false → b.sendQueue = []
  one : b.writesPending.length ≤ 1
  all : b.finished = false → b.issued ++ b.sendQueue = b.calls
  pre : b.issued <+: b.calls
  flushed : b.finished = true → b.sendQueue = []
  closed : b.issued.Pairwise (fun c d => c.done = true → d.done = true)
  numbered : b.calls.map (·.replay) = List.range b.replays.length

end Bidirect

open Bidirect

/-- With `m_inProcess` unset no write is outstanding, and no `Write` is issued
after a `WritesDone`. -/
def WriteAllowed (b : Bidirect) : Ev → Prop
  | .appendToSend _ => b.inProcess = true ∨ (b.writesPending = [] ∧ b.doneIssued = false)
  | .writeDone => b.inProcess = true ∨ b.writesPending = []
  | .newData ok _ _ => ok = true → b.readerState = .firstCall → b.HeadAllowed
  | .finishWrite _ _ => b.HeadAllowed
  | _ => True

/-- The condition on a step: it reaches a live object, and `WriteAllowed`. -/
def WriteCond (b : Bidirect) (e : Ev) : Prop := b.deleted = false ∧ WriteAllowed b e

instance (b : Bidirect) (e : Ev) : Decidable (WriteAllowed b e) :=
  match e with
  | .appendToSend _ => inferInstanceAs (Decidable (_ ∨ _))
  | .writeDone => inferInstanceAs (Decidable (_ ∨ _))
  | .newData _ _ _ => inferInstanceAs (Decidable (_ → _ → _))
  | .finishWrite _ _ => inferInstanceAs (Decidable b.HeadAllowed)
  | .startReader | .finishCompletes _ | .finishRead _ | .sharedPtrReleased => .isTrue trivial

instance (b : Bidirect) (e : Ev) : Decidable (WriteCond b e) := inferInstanceAs (Decidable (_ ∧ _))

namespace Bidirect

/-! ## Issuing -/

theorem doneIssued_eq_false {b : Bidirect} (h : b.doneIssued = false) :
    ∀ c ∈ b.issued, c.done = false := by
  intro c hc
  unfold doneIssued at h
  exact Bool.eq_false_iff.mpr (List.any_eq_false.mp h c hc)

/-- An operation may follow those issued: it closes the write side, or the
write side is open. -/
theorem closed_append {b : Bidirect} {d : QGrpcChannelWriteData}
    (hc : b.issued.Pairwise (fun c d => c.done = true → d.done = true))
    (hd : d.done = false → b.doneIssued = false) :
    (b.issued ++ [d]).Pairwise (fun c d => c.done = true → d.done = true) := by
  refine List.pairwise_append.mpr ⟨hc, List.pairwise_singleton .., ?_⟩
  intro c hmem x hx hcd
  rw [List.mem_singleton.mp hx]
  by_cases hdd : d.done = true
  · exact hdd
  · have h0 := doneIssued_eq_false (hd (Bool.eq_false_iff.mpr hdd)) c hmem
    rw [h0] at hcd; cases hcd

theorem Writes.dequeueWrite {b : Bidirect} (h : b.Writes) (hw : b.writesPending = [])
    (hh : b.HeadAllowed) : b.dequeueWrite.Writes := by
  unfold Bidirect.dequeueWrite
  split
  · rename_i hq
    exact ⟨fun _ => hq, h.one, h.all, h.pre, h.flushed, h.closed, h.numbered⟩
  · rename_i d rest hq
    have hfin : b.finished = false := by
      refine Bool.eq_false_iff.mpr fun hf => ?_
      rw [h.flushed hf] at hq; cases hq
    have hall := h.all hfin
    rw [hq] at hall
    have hd : d.done = false → b.doneIssued = false := hh d (by rw [hq]; rfl)
    -- the head of the queue goes to the end of what is issued
    have hcalls : (b.issued ++ [d]) ++ rest = b.calls := by
      rw [List.append_assoc, List.singleton_append]; exact hall
    have hpre : b.issued ++ [d] <+: b.calls := ⟨rest, hcalls⟩
    have hone : (b.writesPending ++ [d]).length ≤ 1 := by rw [hw]; exact Nat.le_refl 1
    dsimp only
    split <;>
    exact ⟨fun hc => Bool.noConfusion hc, hone, fun _ => hcalls, hpre,
      fun hf => absurd (hfin.symm.trans hf) (by decide), closed_append h.closed hd, h.numbered⟩

/-- A call while `m_inProcess` is set: the entry waits. -/
theorem Writes.enqueue {b b' : Bidirect} (h : b.Writes) (d : QGrpcChannelWriteData)
    (hp : b.inProcess = true) (hf : b.finished = false) (hd : d.replay = b.replays.length)
    (h' : ∃ n del, b' = { b with refCount := n, deleted := del, calls := b.calls ++ [d]
                                 replays := b.replays ++ [⟨.inProcess, 0, 0⟩]
                                 sendQueue := b.sendQueue ++ [d] }) : b'.Writes := by
  obtain ⟨n, del, rfl⟩ := h'
  refine ⟨?_, h.one, ?_, ?_, ?_, h.closed, ?_⟩
  · intro hc
    exact absurd (hp.symm.trans hc) (by decide)
  · intro _
    rw [← List.append_assoc, h.all hf]
  · exact h.pre.trans (List.prefix_append ..)
  · intro hc
    exact absurd (hf.symm.trans hc) (by decide)
  · simp only [List.map_append, List.map_cons, List.map_nil, List.length_append,
      List.length_singleton, List.range_succ, h.numbered, hd]

/-- A call with `m_inProcess` unset: the operation is issued at once. -/
theorem Writes.direct {b b' : Bidirect} (h : b.Writes) (d : QGrpcChannelWriteData)
    (hp : b.inProcess = false) (hw : b.writesPending = []) (hf : b.finished = false)
    (hdone : d.done = false → b.doneIssued = false) (hd : d.replay = b.replays.length)
    (h' : ∃ n del p r, b' = { b with refCount := n, deleted := del, calls := b.calls ++ [d]
                                     replays := b.replays ++ [⟨.inProcess, 0, 0⟩]
                                     inProcess := p, currentWriteReplay := r
                                     writesPending := b.writesPending ++ [d]
                                     issued := b.issued ++ [d] }) : b'.Writes := by
  obtain ⟨n, del, p, r, rfl⟩ := h'
  have hq := h.idle hp
  have hall := h.all hf
  rw [hq, List.append_nil] at hall
  refine ⟨fun _ => hq, ?_, ?_, ?_, ?_, closed_append h.closed hdone, ?_⟩
  · rw [hw]; exact Nat.le_refl 1
  · intro _
    rw [hq, List.append_nil, hall]
  · exact hall ▸ List.prefix_refl (b.issued ++ [d])
  · intro hc
    exact absurd (hf.symm.trans hc) (by decide)
  · simp only [List.map_append, List.map_cons, List.map_nil, List.length_append,
      List.length_singleton, List.range_succ, h.numbered, hd]

/-- The members the write side does not depend on. -/
theorem Writes.congr {b b' : Bidirect} (h : b.Writes)
    (h' : ∃ c rs, rs.length = b.replays.length ∧ c.finished = b.finished ∧
      b' = { b with toBaseCall := c, replays := rs }) : b'.Writes := by
  obtain ⟨c, rs, hlen, hf, rfl⟩ := h'
  exact ⟨h.idle, h.one, fun hc => h.all (hf.symm.trans hc), h.pre,
    fun hc => h.flushed (hf.symm.trans hc), h.closed, by rw [hlen]; exact h.numbered⟩

/-- `newData` issues the head of the queue when the call is established. -/
theorem Writes.newData {b : Bidirect} (h : b.Writes) (hc : b.Connecting) {ok : Bool}
    (hh : ok = true → b.readerState = .firstCall → b.HeadAllowed) (dump : Status) (slices : Bytes) :
    (b.newData ok dump slices).Writes := by
  cases ok with
  | false => exact h.congr ⟨({ b with readerState := .ended } : BaseCall).deref, b.replays, rfl, rfl, rfl⟩
  | true =>
    cases hst : b.readerState with
    | firstCall =>
      rw [newData_firstCall hst]
      have hq := h.dequeueWrite (hc hst).1 (hh rfl hst)
      exact hq.congr ⟨b.establish.deref.toBaseCall, b.dequeueWrite.replays, rfl, rfl, rfl⟩
    | processing =>
      rw [newData_processing hst]
      have hfin : (b.receive dump slices).finished = b.finished := by
        unfold BaseCall.receive
        dsimp only
        split <;> rfl
      exact h.congr ⟨(b.receive dump slices).deref, b.replays, rfl, hfin, rfl⟩
    | ended =>
      rw [newData_ended hst]
      exact h.congr ⟨b.toBaseCall.deref, b.replays, rfl, rfl, rfl⟩

/-- The one outstanding operation completes, then the next is issued. -/
theorem Writes.finishWrite {b : Bidirect} (h : b.Writes) {i : Nat} {op : QGrpcChannelWriteData}
    (hi : b.writesPending[i]? = some op) (hh : b.HeadAllowed) (ok : Bool) :
    ((b.completeWrite i op ok).finishWrite ok).Writes := by
  have hlt : i < b.writesPending.length := (List.getElem?_eq_some_iff.mp hi).1
  have hone := h.one
  have hnil : b.writesPending.eraseIdx i = [] := by
    refine List.eq_nil_of_length_eq_zero ?_
    rw [List.length_eraseIdx, if_pos hlt]; omega
  have hw : (b.completeWrite i op ok).Writes :=
    ⟨h.idle, by rw [completeWrite, hnil]; exact Nat.zero_le 1, h.all, h.pre, h.flushed, h.closed,
      h.numbered⟩
  obtain ⟨u, rs, hlen, hr⟩ := (b.completeWrite i op ok).reportWrite_eq ok
  have hrep : ((b.completeWrite i op ok).reportWrite ok).deref.Writes := by
    rw [hr]
    exact hw.congr ⟨BaseCall.deref { b.toBaseCall with undef := u }, rs, hlen, rfl, rfl⟩
  unfold Bidirect.finishWrite
  dsimp only
  split
  · exact hrep
  · refine hrep.dequeueWrite ?_ ?_
    · rw [hr]; exact hnil
    · rw [hr]; exact hh

end Bidirect

/-! ## Steps -/

/-- **The step.** Under `WriteCond` every event keeps the write discipline. -/
theorem writes_step {b b' : Bidirect} {e : Ev} (h : b.Writes) (hc : b.Connecting)
    (hcond : WriteCond b e) (hs : bidirectStep b e = some b') : b'.Writes := by
  obtain ⟨hd, hcond⟩ := hcond
  rcases bidirectStep_fires hs with hf | ⟨hdel, -⟩
  case inr => rw [hd] at hdel; cases hdel
  cases hf with
  | startReader hst hr =>
    exact ⟨fun hc => Bool.noConfusion hc, h.one, h.all, h.pre, h.flushed, h.closed, h.numbered⟩
  | appendToSend data hst hr hfin =>
    unfold Bidirect.appendToSend
    split
    · rename_i hp
      exact h.enqueue ⟨data, b.replays.length, false⟩ hp hfin rfl ⟨_, _, rfl⟩
    · rename_i hp
      have hcond : b.writesPending = [] ∧ b.doneIssued = false := hcond.resolve_left hp
      exact h.direct ⟨data, b.replays.length, false⟩ (Bool.eq_false_iff.mpr hp) hcond.1 hfin
        (fun _ => hcond.2) rfl ⟨_, _, _, _, rfl⟩
  | writeDone hst hr hfin =>
    unfold Bidirect.writeDone
    split
    · rename_i hp
      exact h.enqueue ⟨[], b.replays.length, true⟩ hp hfin rfl ⟨_, _, rfl⟩
    · rename_i hp
      exact h.direct ⟨[], b.replays.length, true⟩ (Bool.eq_false_iff.mpr hp)
        (hcond.resolve_left hp) hfin (fun hdone => Bool.noConfusion hdone) rfl ⟨_, _, _, _, rfl⟩
  | newData ok dump slices hp =>
    have h0 : ({ b with readPending := false } : Bidirect).Writes :=
      h.congr ⟨{ b.toBaseCall with readPending := false }, b.replays, rfl, rfl, rfl⟩
    exact h0.newData hc hcond dump slices
  | finishCompletes st =>
    exact h.congr ⟨b.finishCompletes st, b.replays, rfl, rfl, rfl⟩
  | finishRead ok hp hn =>
    obtain ⟨rs, hlen, hr⟩ := ({ b with finishPending := false } : Bidirect).finishRead_eq
    rw [hr]
    refine ⟨fun _ => rfl, h.one, fun hc => Bool.noConfusion hc, h.pre, fun _ => rfl, h.closed, ?_⟩
    rw [hlen]; exact h.numbered
  | finishWrite i ok op hi =>
    exact h.finishWrite hi hcond ok
  | sharedPtrReleased hr =>
    exact h.congr ⟨b.sharedPtrReleased, b.replays, rfl, rfl, rfl⟩

/-! ## Before the first `newData` -/

/-- Nothing has been issued, and every call will be queued. -/
structure Bidirect.Before (b : Bidirect) : Prop where
  issued : b.issued = []
  pending : b.writesPending = []
  queued : b.started = true → b.inProcess = true

/-- Only `newData(true)` establishes the call. -/
theorem before_step {b b' : Bidirect} {e : Ev} (h : b.Before) (hd : b.deleted = false)
    (he : ∀ dump slices, e ≠ .newData true dump slices) (hs : bidirectStep b e = some b') :
    b'.Before := by
  rcases bidirectStep_fires hs with hf | ⟨hdel, -⟩
  case inr => rw [hd] at hdel; cases hdel
  cases hf with
  | startReader => exact ⟨h.issued, h.pending, fun _ => rfl⟩
  | appendToSend data hst =>
    have hp : (b.handOver data false).inProcess = true := h.queued hst
    unfold Bidirect.appendToSend
    rw [if_pos hp]
    exact ⟨h.issued, h.pending, fun _ => hp⟩
  | writeDone hst =>
    have hp : (b.handOver [] true).inProcess = true := h.queued hst
    unfold Bidirect.writeDone
    rw [if_pos hp]
    exact ⟨h.issued, h.pending, fun _ => hp⟩
  | newData ok dump slices =>
    cases ok with
    | false => exact ⟨h.issued, h.pending, h.queued⟩
    | true => exact absurd rfl (he dump slices)
  | finishCompletes => exact ⟨h.issued, h.pending, h.queued⟩
  | finishRead =>
    obtain ⟨rs, -, hr⟩ := ({ b with finishPending := false } : Bidirect).finishRead_eq
    rw [hr]
    refine ⟨h.issued, h.pending, fun hst => h.queued ?_⟩
    exact (BaseCall.takeStatus_started { b.toBaseCall with finishPending := false }).symm.trans hst
  | finishWrite i ok op hi => rw [h.pending] at hi; cases hi
  | sharedPtrReleased => exact ⟨h.issued, h.pending, h.queued⟩

/-! ## Runs -/

/-- The write discipline, of the run `es` to `b`: at most one Write or
WritesDone is outstanding; nothing is issued before a `newData(true)`; the
Writes issued are a prefix of the data handed to `appendToSend`, in call order;
and a WritesDone comes after the Write of every call made before its
`writeDone` and before no Write. -/
structure WriteDiscipline (es : List Ev) (b : Bidirect) : Prop where
  one : b.writesPending.length ≤ 1
  connected : b.issued ≠ [] → ∃ dump slices, Ev.newData true dump slices ∈ es
  inOrder : b.issued.filter (!·.done) <+: b.calls.filter (!·.done)
  afterWrites : ∀ xs d ys, b.issued = xs ++ d :: ys → d.done = true →
    ∀ c ∈ b.calls, c.replay < d.replay → c ∈ xs
  last : ∀ xs d ys, b.issued = xs ++ d :: ys → d.done = true → ∀ c ∈ ys, c.done = true

/-- Calls are numbered in the order made. -/
theorem Bidirect.Writes.sorted {b : Bidirect} (h : b.Writes) :
    b.calls.Pairwise (fun c d => c.replay < d.replay) := by
  have hr : (b.calls.map (·.replay)).Pairwise (· < ·) := by
    rw [h.numbered]; exact List.pairwise_lt_range
  exact List.pairwise_map.mp hr

/-- What is issued before an operation is every call made before its own. -/
theorem Bidirect.Writes.issued_before {b : Bidirect} (h : b.Writes)
    {xs ys : List QGrpcChannelWriteData} {d : QGrpcChannelWriteData}
    (hi : b.issued = xs ++ d :: ys) {c : QGrpcChannelWriteData} (hc : c ∈ b.calls)
    (hlt : c.replay < d.replay) : c ∈ xs := by
  obtain ⟨rest, hrest⟩ := h.pre
  have hs := h.sorted
  rw [← hrest, hi, List.append_assoc, List.cons_append] at hs hc
  rcases List.mem_append.mp hc with hx | hx
  · exact hx
  · have hd := (List.pairwise_append.mp hs).2.1
    rcases List.mem_cons.mp hx with rfl | hx
    · omega
    · have := List.rel_of_pairwise_cons hd hx
      omega

theorem Bidirect.Writes.new : Bidirect.new.Writes where
  idle _ := rfl
  one := Nat.zero_le 1
  all _ := rfl
  pre := List.prefix_refl []
  flushed _ := rfl
  closed := .nil
  numbered := rfl

/-- **Write discipline.** Every run whose steps meet `WriteCond` keeps it. -/
theorem write_discipline {es : List Ev} {b : Bidirect}
    (h : (bidirectLts.restrict WriteCond).Run .new es b) : WriteDiscipline es b := by
  have hw : b.Writes ∧ b.Connecting := by
    refine h.invariant (P := fun b => b.Writes ∧ b.Connecting) ?_ ⟨.new, fun _ => ⟨rfl, fun hs => hs⟩⟩
    intro s e s' ⟨hw, hc⟩ ⟨hcond, hs⟩
    refine ⟨writes_step hw hc hcond hs, ?_⟩
    rcases bidirectStep_fires hs with hf | ⟨hdel, -⟩
    · exact hf.connecting hc
    · rw [hcond.1] at hdel; cases hdel
  obtain ⟨hw, -⟩ := hw
  refine ⟨hw.one, ?_, hw.pre.filter _, ?_, ?_⟩
  · intro hne
    by_contra hno
    have hbefore : b.Before := by
      refine h.invariantOn (P := Bidirect.Before)
        (C := fun e => ∀ dump slices, e ≠ Ev.newData true dump slices) ?_ ?_ ⟨rfl, rfl, fun hs => hs⟩
      · intro s e s' hb he ⟨hcond, hs⟩
        exact before_step hb hcond.1 he hs
      · intro e hmem dump slices heq
        exact hno ⟨dump, slices, heq ▸ hmem⟩
    exact hne hbefore.issued
  · intro xs d ys hi _ c hc hlt
    exact hw.issued_before hi hc hlt
  · intro xs d ys hi hd c hc
    have hclosed := hw.closed
    rw [hi] at hclosed
    exact List.rel_of_pairwise_cons (List.pairwise_append.mp hclosed).2.1 hc hd

/-- Two writes and the close of the write side, handed over while the call
connects. -/
def threeQueued : List Ev :=
  [.startReader, .appendToSend [1], .appendToSend [2], .writeDone, .newData true Status.OK [],
    .finishWrite 0 true, .finishWrite 0 true]

theorem write_discipline_threeQueued :
    ∃ b, WriteDiscipline threeQueued b ∧ b.issued = [⟨[1], 0, false⟩, ⟨[2], 1, false⟩, ⟨[], 2, true⟩] :=
  ⟨_, write_discipline (Lib.exec_guarded _ rfl), rfl⟩

/-- A `Write` issued while `WritesDone` is outstanding: `writeDone` left
`m_inProcess` unset. -/
theorem write_overlap :
    ∃ b, bidirectRun [.startReader, .newData true Status.OK [], .writeDone, .appendToSend [7]] = some b ∧
      b.undef = false ∧ b.writesPending = [⟨[], 0, true⟩, ⟨[7], 1, false⟩] ∧
      ∀ es, ¬ WriteDiscipline es b := by
  refine ⟨_, rfl, rfl, rfl, ?_⟩
  intro es h
  exact absurd h.one (by decide)

end QtProtobuf.Grpc
