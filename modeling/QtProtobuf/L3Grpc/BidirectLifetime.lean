import QtProtobuf.L3Grpc.Bidirect

/-!
# Lifetime of a bidirectional call

`m_refCount` should count who still needs the object: the `shared_ptr` and
every operation issued on `m_reader` whose completion is not processed yet
(`owners`). Each method takes a reference with every operation it issues and
gives one back for the completion it handles, except `writeDone`, which is no
completion and still ends with `deref()`.

* `lifetime`: the count is right along a run if and only if the run has no
  `writeDone`.
* `lifetime_writeDone`: one `writeDone` on a stream that is still connecting,
  and gRPC writes its final status into a freed object.
-/
namespace QtProtobuf.Grpc

namespace Bidirect

/-- What refers to the object. -/
def owners (b : Bidirect) : Nat := (!b.released).toNat + b.outstanding

/-- The count is exact, the object is deleted exactly when nothing refers to
it, and nothing has reached it since. -/
structure LifetimeOk (b : Bidirect) : Prop where
  refs : b.refCount = (!b.released).toNat + b.outstanding
  deleted_iff : b.deleted = true ↔ b.released = true ∧ b.outstanding = 0
  safe : b.undef = false

/-- A live object with `n` references more than owners: the ones a method has
still to give back. `slot`: `finishWrite` finds a reply. -/
structure Live (b : Bidirect) (n : Nat) : Prop where
  refs : b.refCount = b.owners + n
  alive : b.deleted = false
  safe : b.undef = false
  data : ∀ d ∈ b.sendQueue, d.done = false
  slot : b.writesPending ≠ [] → b.currentWriteReplay.isSome

/-- A deleted object nothing refers to. -/
structure Dead (b : Bidirect) : Prop where
  deleted : b.deleted = true
  safe : b.undef = false
  refs : b.refCount = 0
  owners : b.owners = 0

/-- The lifetime invariant. -/
def LifetimeInv (b : Bidirect) : Prop := (b.Live 0 ∧ 0 < b.owners) ∨ b.Dead

theorem owners_eq_zero (b : Bidirect) :
    b.owners = 0 ↔ b.released = true ∧ b.outstanding = 0 := by
  unfold owners
  cases b.released <;> simp

theorem LifetimeInv.ok {b : Bidirect} (h : b.LifetimeInv) : b.LifetimeOk := by
  rcases h with ⟨hl, ho⟩ | hd
  · refine ⟨?_, ?_, hl.safe⟩
    · have h := hl.refs
      unfold owners at h; omega
    · rw [← owners_eq_zero, hl.alive]
      constructor
      · intro h; cases h
      · intro h; omega
  · refine ⟨?_, ?_, hd.safe⟩
    · have h := hd.owners
      rw [hd.refs]; unfold owners at h; omega
    · rw [← owners_eq_zero, hd.deleted, hd.owners]; simp

/-! ## What the helpers do to the count -/

/-- `deref` gives back one reference, and deletes the object with its last. -/
theorem Live.deref {b : Bidirect} (h : b.Live 1) : b.deref.LifetimeInv := by
  have hr := h.refs
  have ho : b.deref.owners = b.owners := rfl
  have hc : b.deref.refCount = b.refCount - 1 := rfl
  have hd : b.deref.deleted = (b.deleted || decide (b.refCount = 1)) := rfl
  rw [h.alive, Bool.false_or] at hd
  by_cases h0 : b.owners = 0
  · have h1 : b.refCount = 1 := by omega
    exact .inr ⟨by rw [hd, h1]; rfl, h.safe, by omega, by omega⟩
  · have h1 : b.refCount ≠ 1 := by omega
    exact .inl ⟨⟨by omega, by rw [hd]; exact decide_eq_false h1, h.safe, h.data, h.slot⟩, by omega⟩

/-- Issuing an operation pays for it, if its reply is in place. -/
theorem Live.refIssue {b : Bidirect} {n : Nat} (h : b.Live n) (d : QGrpcChannelWriteData)
    (r : Option Nat) (hr : r.isSome) : (({ b with currentWriteReplay := r }.ref).issue d).Live n := by
  refine ⟨?_, h.alive, h.safe, h.data, fun _ => hr⟩
  have := h.refs
  simp only [ref, issue, BaseCall.ref, owners, outstanding, BaseCall.pendingOps,
    List.length_append, List.length_singleton] at this ⊢
  omega

theorem Live.dequeueWrite {b : Bidirect} {n : Nat} (h : b.Live n) : b.dequeueWrite.Live n := by
  have hd := h.data
  unfold Bidirect.dequeueWrite
  split
  · exact ⟨h.refs, h.alive, h.safe, h.data, h.slot⟩
  · rename_i d rest hq
    rw [hq] at hd
    have hnd : d.done = false := hd d List.mem_cons_self
    have hrest : ({ b with inProcess := true, sendQueue := rest } : Bidirect).Live n :=
      ⟨h.refs, h.alive, h.safe, fun x hx => hd x (List.mem_cons_of_mem _ hx), h.slot⟩
    simp only [hnd]
    exact hrest.refIssue d (some d.replay) rfl

theorem Live.appendToSend {b : Bidirect} {n : Nat} (h : b.Live n) (data : Bytes) (r : Nat) :
    (b.appendToSend data r).Live n := by
  unfold Bidirect.appendToSend
  split
  · refine ⟨h.refs, h.alive, h.safe, ?_, h.slot⟩
    intro d hd
    rcases List.mem_append.mp hd with hd | hd
    · exact h.data d hd
    · rw [List.mem_singleton.mp hd]
  · have hp : ({ b with inProcess := true } : Bidirect).Live n :=
      ⟨h.refs, h.alive, h.safe, h.data, h.slot⟩
    exact hp.refIssue _ (some r) rfl

/-- A further StartCall or Read, paid for. -/
theorem Live.issueRead {b : Bidirect} {n : Nat} (h : b.Live n) (hp : b.readPending = false)
    (c : BaseCall) (hc : c = b.toBaseCall.issueRead) : ({ b with toBaseCall := c } : Bidirect).Live n := by
  subst hc
  refine ⟨?_, h.alive, h.safe, h.data, h.slot⟩
  have := h.refs
  simp only [BaseCall.issueRead, BaseCall.ref, owners, outstanding, BaseCall.pendingOps, hp,
    Bool.toNat_true, Bool.toNat_false] at this ⊢
  omega

/-- The members the count does not depend on. -/
theorem Live.congr {b b' : Bidirect} {n : Nat} (h : b.Live n) (hr : b'.refCount = b.refCount)
    (ho : b'.owners = b.owners) (hd : b'.deleted = b.deleted) (hu : b'.undef = b.undef)
    (hq : b'.sendQueue = b.sendQueue) (hw : b'.writesPending = b.writesPending)
    (hc : b'.currentWriteReplay = b.currentWriteReplay) : b'.Live n :=
  ⟨by rw [hr, ho, h.refs], by rw [hd, h.alive], by rw [hu, h.safe], by rw [hq]; exact h.data,
    by rw [hw, hc]; exact h.slot⟩

/-- `newData` gives back exactly the reference of the completion it handles. -/
theorem Live.newData {b : Bidirect} (h : b.Live 1) (hp : b.readPending = false) (ok : Bool)
    (dump : Status) (slices : Bytes) : (b.newData ok dump slices).LifetimeInv := by
  cases ok with
  | false =>
    have he : ({ b with readerState := .ended } : Bidirect).Live 1 :=
      h.congr rfl rfl rfl rfl rfl rfl rfl
    exact he.deref
  | true =>
    cases hst : b.readerState with
    | firstCall =>
      rw [newData_firstCall hst]
      obtain ⟨m, hm⟩ := b.dequeueWrite_base
      have hi := h.dequeueWrite.issueRead (by rw [hm]; exact hp) _ rfl
      have he : b.establish.Live 1 := hi.congr rfl rfl rfl rfl rfl rfl rfl
      exact he.deref
    | processing =>
      rw [newData_processing hst]
      refine Live.deref ?_
      unfold BaseCall.receive
      dsimp only
      split
      · exact h.congr rfl rfl rfl rfl rfl rfl rfl
      · exact (h.issueRead hp _ rfl).congr rfl rfl rfl rfl rfl rfl rfl
    | ended =>
      rw [newData_ended hst]
      exact h.deref

/-- Reply objects are not counted. -/
theorem Live.onReplay {b : Bidirect} {n : Nat} (h : b.Live n) (r : Nat) (f : Replay → Replay) :
    (b.onReplay r f).Live n := h.congr rfl rfl rfl rfl rfl rfl rfl

theorem Live.foldReplay {n : Nat} (q : List QGrpcChannelWriteData) {b : Bidirect} (h : b.Live n) :
    (q.foldl (fun b d => b.onReplay d.replay Replay.fail) b).Live n := by
  induction q generalizing b with
  | nil => exact h
  | cons d q ih => exact ih (h.onReplay d.replay Replay.fail)

theorem Live.flush {b : Bidirect} {n : Nat} (h : b.Live n) : b.flush.Live n := by
  have hf := h.foldReplay b.sendQueue
  refine ⟨hf.refs, hf.alive, hf.safe, ?_, hf.slot⟩
  intro d hd
  exact absurd hd List.not_mem_nil

theorem takeStatus_eq (c : BaseCall) : ∃ st, c.takeStatus = { c with status := st } := by
  unfold BaseCall.takeStatus
  split
  · exact ⟨_, rfl⟩
  · exact ⟨c.status, rfl⟩

theorem Live.finishRead {b : Bidirect} (h : b.Live 1) : b.finishRead.LifetimeInv := by
  obtain ⟨st, hst⟩ := takeStatus_eq b.toBaseCall
  unfold Bidirect.finishRead
  rw [hst]
  have ht : ({ b with status := st } : Bidirect).Live 1 := h.congr rfl rfl rfl rfl rfl rfl rfl
  refine Live.deref ?_
  split
  · exact ((ht.onReplay _ _).flush).congr rfl rfl rfl rfl rfl rfl rfl
  · exact ht.flush.congr rfl rfl rfl rfl rfl rfl rfl

theorem owners_le_dequeueWrite (b : Bidirect) : b.owners ≤ b.dequeueWrite.owners := by
  unfold dequeueWrite
  split
  · exact Nat.le_refl _
  · dsimp only
    split <;> simp only [owners, outstanding, issue, ref, BaseCall.ref, BaseCall.pendingOps,
      List.length_append, List.length_singleton] <;> omega

/-- The end of `finishWrite`: what `dequeueWrite` issues is paid for. -/
theorem Live.derefDequeue {b : Bidirect} (h : b.Live 1) :
    (if b.deref.deleted then b.deref else b.deref.dequeueWrite).LifetimeInv := by
  split
  · exact h.deref
  · rename_i hnd
    rcases h.deref with ⟨hl, ho⟩ | hdead
    · have hle := owners_le_dequeueWrite b.deref
      exact .inl ⟨hl.dequeueWrite, by omega⟩
    · exact absurd hdead.deleted hnd

theorem Live.finishWrite {b : Bidirect} (h : b.Live 1) (hc : b.currentWriteReplay.isSome) (ok : Bool) :
    (b.finishWrite ok).LifetimeInv := by
  obtain ⟨r, hr⟩ := Option.isSome_iff_exists.mp hc
  have hrep : b.reportWrite ok = b.onReplay r (if ok then Replay.succeed else Replay.fail) := by
    unfold reportWrite
    rw [hr]
  unfold Bidirect.finishWrite
  rw [hrep]
  exact (h.onReplay r _).derefDequeue

end Bidirect

open Bidirect

/-! ## Every event -/

/-- A dead object is out of reach: every operation is processed, and nobody
holds it. -/
theorem Bidirect.Dead.final {b : Bidirect} (h : b.Dead) (e : Ev) : bidirectStep b e = none := by
  obtain ⟨hr, ho⟩ := (owners_eq_zero b).mp h.owners
  simp only [outstanding, BaseCall.pendingOps, Nat.add_eq_zero_iff, Bool.toNat_eq_zero,
    List.length_eq_zero_iff] at ho
  obtain ⟨⟨hrp, hfp⟩, hw⟩ := ho
  cases e <;> simp [bidirectStep, hr, hrp, hfp, hw]

/-- The completion being handled still has its reference. -/
theorem Bidirect.Live.complete {b b' : Bidirect} (h : b.Live 0) (hr : b'.refCount = b.refCount)
    (ho : b'.owners + 1 = b.owners) (hd : b'.deleted = b.deleted) (hu : b'.undef = b.undef)
    (hq : b'.sendQueue = b.sendQueue) (hw : b'.writesPending ≠ [] → b.writesPending ≠ [])
    (hc : b'.currentWriteReplay = b.currentWriteReplay) : b'.Live 1 := by
  refine ⟨?_, by rw [hd, h.alive], by rw [hu, h.safe], by rw [hq]; exact h.data, ?_⟩
  · have := h.refs
    rw [hr]; omega
  · rw [hc]; exact fun hne => h.slot (hw hne)

/-- **The step.** Every event but `writeDone` keeps the lifetime invariant. -/
theorem lifetime_step {b b' : Bidirect} {e : Ev} (h : b.LifetimeInv) (hfr : b.Fresh)
    (he : e ≠ .writeDone) (hs : bidirectStep b e = some b') : b'.LifetimeInv := by
  rcases h with ⟨hl, ho⟩ | hdead
  case inr => rw [hdead.final e] at hs; cases hs
  rcases bidirectStep_fires hs with hf | ⟨hd, -⟩
  case inr => rw [hl.alive] at hd; cases hd
  have hrefs := hl.refs
  cases hf with
  | startReader hst hr =>
    -- one reference each for StartCall and Finish, neither issued before
    have h0 := hfr hst
    simp only [outstanding, BaseCall.pendingOps, Nat.add_eq_zero_iff, Bool.toNat_eq_zero] at h0
    obtain ⟨⟨hrp, hfp⟩, -⟩ := h0
    refine .inl ⟨⟨?_, hl.alive, hl.safe, hl.data, hl.slot⟩, ?_⟩
    · simp only [startReader, BaseCall.startReader, BaseCall.ref, owners, outstanding,
        BaseCall.pendingOps, hrp, hfp, Bool.toNat_true, Bool.toNat_false] at hrefs ⊢
      omega
    · simp only [owners, outstanding, startReader, BaseCall.startReader, BaseCall.pendingOps,
        Bool.toNat_true]
      omega
  | appendToSend data hst hr hf hd =>
    have hh : (b.handOver data false).Live 0 := hl.congr rfl rfl rfl rfl rfl rfl rfl
    refine .inl ⟨hh.appendToSend data b.replays.length, ?_⟩
    obtain ⟨n, hn⟩ := (b.handOver data false).appendToSend_base data b.replays.length
    have hrel : ((b.handOver data false).appendToSend data b.replays.length).released = false := by
      rw [hn]; exact hr
    unfold owners
    rw [hrel, Bool.not_false, Bool.toNat_true]; omega
  | writeDone => exact absurd rfl he
  | newData ok dump slices hp hd =>
    refine Live.newData ?_ rfl ok dump slices
    refine hl.complete rfl ?_ rfl rfl rfl id rfl
    simp only [owners, outstanding, BaseCall.pendingOps, hp, Bool.toNat_true, Bool.toNat_false]
    omega
  | finishCompletes st hp hn =>
    -- the status lands in a live object
    refine .inl ⟨hl.congr rfl rfl rfl ?_ rfl rfl rfl, ho⟩
    simp only [BaseCall.finishCompletes, hl.alive, Bool.or_false]
  | finishRead ok hp hn hd =>
    refine Live.finishRead ?_
    refine hl.complete rfl ?_ rfl rfl rfl id rfl
    simp only [owners, outstanding, BaseCall.pendingOps, hp, Bool.toNat_true, Bool.toNat_false]
    omega
  | finishWrite i ok op hi hd =>
    have hlt : i < b.writesPending.length := (List.getElem?_eq_some_iff.mp hi).1
    have hne : b.writesPending ≠ [] := List.ne_nil_of_length_pos (by omega)
    refine Live.finishWrite (b := b.completeWrite i op ok) ?_ (hl.slot hne) ok
    refine hl.complete rfl ?_ rfl rfl rfl (fun _ => hne) rfl
    simp only [owners, outstanding, BaseCall.pendingOps, completeWrite, List.length_eraseIdx, hlt,
      if_true]
    omega
  | sharedPtrReleased hr hd =>
    have hp : ({ b with released := true } : Bidirect).Live 1 := by
      refine hl.complete rfl ?_ rfl rfl rfl id rfl
      simp only [owners, outstanding, BaseCall.pendingOps, hr, Bool.not_true, Bool.not_false,
        Bool.toNat_true, Bool.toNat_false]
      omega
    exact hp.deref

/-! ## `writeDone` -/

/-- `writeDone` gives back a reference it has not taken. -/
theorem writeDone_surplus (b : Bidirect) (r : Nat) :
    (b.writeDone r).refCount - (b.writeDone r).owners = b.refCount - b.owners - 1 := by
  unfold Bidirect.writeDone
  split
  · simp only [deref, BaseCall.deref, owners, outstanding, BaseCall.pendingOps]
    omega
  · simp only [deref, BaseCall.deref, issue, ref, BaseCall.ref, owners, outstanding,
      BaseCall.pendingOps, List.length_append, List.length_singleton]
    omega

/-- The count is not right both before and after a `writeDone`. -/
theorem writeDone_breaks {b b' : Bidirect} (hs : bidirectStep b .writeDone = some b')
    (h : b.LifetimeOk) (h' : b'.LifetimeOk) : False := by
  rcases bidirectStep_fires hs with hf | ⟨-, hm⟩
  case inr =>
    have hsafe := h'.safe
    rw [hm] at hsafe; cases hsafe
  cases hf with
  | writeDone =>
    have hsur := writeDone_surplus (b.handOver [] true) b.replays.length
    have hr := h.refs
    have hr' := h'.refs
    have ho : (b.handOver [] true).owners = b.owners := rfl
    have hc : (b.handOver [] true).refCount = b.refCount := rfl
    rw [ho, hc] at hsur
    unfold owners at hsur
    omega

/-! ## Runs -/

/-- The lifetime invariant of a run without `writeDone`. -/
theorem lifetime_run {es : List Ev} {b : Bidirect} (h : bidirectRun es = some b)
    (he : Ev.writeDone ∉ es) : b.LifetimeInv := by
  have hnew : Bidirect.new.LifetimeInv :=
    .inl ⟨⟨rfl, rfl, rfl, fun d hd => absurd hd List.not_mem_nil, fun h => absurd rfl h⟩, by decide⟩
  have hinv : b.LifetimeInv ∧ b.Fresh := by
    refine Lib.exec_invariant (P := fun b => b.LifetimeInv ∧ b.Fresh) (C := (· ≠ Ev.writeDone))
      ?_ ?_ h ⟨hnew, fun _ => rfl⟩
    · intro s e s' ⟨hl, hf⟩ hne hs
      refine ⟨lifetime_step hl hf hne hs, ?_⟩
      rcases hl with ⟨hlive, -⟩ | hdead
      · rcases bidirectStep_fires hs with hfires | ⟨hdel, -⟩
        · exact hfires.fresh hf
        · rw [hlive.alive] at hdel; cases hdel
      · rw [hdead.final e] at hs; cases hs
    · intro e hmem heq
      exact he (heq ▸ hmem)
  exact hinv.1

/-- **Lifetime.** The reference count is exact in every state of a run, the
object is deleted exactly when nothing refers to it and nothing reaches it
afterwards, if and only if the run has no `writeDone`. -/
theorem lifetime (es : List Ev) {b : Bidirect} (h : bidirectRun es = some b) :
    (∀ es₁ es₂ b₁, es = es₁ ++ es₂ → bidirectRun es₁ = some b₁ → b₁.LifetimeOk) ↔
      Ev.writeDone ∉ es := by
  constructor
  · intro hall hmem
    obtain ⟨es₁, es₂, rfl⟩ := List.append_of_mem hmem
    obtain ⟨b₁, b₂, hb₁, hstep, hb₂⟩ := Lib.exec_split h
    refine writeDone_breaks hstep (hall es₁ _ b₁ rfl hb₁) (hall (es₁ ++ [Ev.writeDone]) es₂ b₂ ?_ hb₂)
    rw [List.append_assoc, List.singleton_append]
  · intro hno es₁ es₂ b₁ hes hb₁
    refine (lifetime_run hb₁ ?_).ok
    intro hmem
    exact hno (hes ▸ List.mem_append_left es₂ hmem)

theorem lifetime_firstWrite :
    Bidirect.LifetimeOk ((bidirectRun [.startReader, .appendToSend [7]]).get rfl) :=
  (lifetime [.startReader, .appendToSend [7], .newData true Status.OK []] rfl).mpr
    (by decide) [.startReader, .appendToSend [7]] [.newData true Status.OK []] _ rfl rfl

/-- A `writeDone` on a stream that is still connecting, which then fails: the
reference it gave back was not its own, `newData` deletes the object, and gRPC
writes the final status of the RPC into it. -/
theorem lifetime_writeDone :
    ∃ b, bidirectRun [.startReader, .writeDone, .sharedPtrReleased, .newData false Status.OK [],
        .finishCompletes Status.OK] = some b ∧
      b.deleted = true ∧ b.outstanding = 1 ∧ b.undef = true ∧ ¬ b.LifetimeOk := by
  refine ⟨_, rfl, rfl, rfl, rfl, ?_⟩
  intro h
  exact absurd h.safe (by decide)

end QtProtobuf.Grpc
