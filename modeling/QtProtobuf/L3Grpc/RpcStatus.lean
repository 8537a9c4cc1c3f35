import QtProtobuf.L3Grpc.Bidirect

/-!
# The status reported when an RPC ends

`m_grpc_status` has two writers: gRPC stores the final status of the RPC into
it when `Finish` completes, and `newData` stores the outcome of parsing a
message. `finishRead` reports `m_grpc_status`, or the parse error kept in
`m_status` when `m_grpc_status` is OK.

A message read before the RPC failed can be processed after `Finish` has
completed; `newData` then replaces the failure by `OK`. `NoOverwrite` excludes
that step, the three classes alike.

* `status_reported`: in every run without it, `finishRead` reports the failure
  of the RPC, else the parse error, else OK.
* `status_lost`: with it, an RPC that ended `Unavailable` is reported as OK.
-/
namespace QtProtobuf.Grpc

/-- What `finishRead` should report: the status of the RPC if it is not OK,
else the parse error if a message failed to parse, else OK. -/
structure Reported (c : BaseCall) (st : Status) : Prop where
  rpc : ∀ r, c.rpcStatus = some r → r.ok = false → st = r
  parse : ∀ r p, c.rpcStatus = some r → r.ok = true → c.parseError = some p → st = p
  okIff : st.ok = true ↔ (∃ r, c.rpcStatus = some r ∧ r.ok = true) ∧ c.parseError = none

/-- A message is not processed once gRPC has stored a failure. -/
def NoOverwrite (c : BaseCall) (ok : Bool) : Prop :=
  ok = true → c.readerState = .processing → ∀ r ∈ c.rpcStatus, r.ok = true

instance (c : BaseCall) (ok : Bool) : Decidable (NoOverwrite c ok) :=
  inferInstanceAs (Decidable (_ → _ → _))

def CallCond (c : BaseCall) : CallEv → Prop
  | .newData ok _ _ => NoOverwrite c ok
  | _ => True

def BidirectCond (b : Bidirect) : Ev → Prop
  | .newData ok _ _ => NoOverwrite b.toBaseCall ok
  | _ => True

instance (c : BaseCall) (e : CallEv) : Decidable (CallCond c e) :=
  match e with
  | .newData ok _ _ => inferInstanceAs (Decidable (NoOverwrite c ok))
  | .startReader | .finishCompletes _ | .finishRead _ | .sharedPtrReleased => .isTrue trivial

instance (b : Bidirect) (e : Ev) : Decidable (BidirectCond b e) :=
  match e with
  | .newData ok _ _ => inferInstanceAs (Decidable (NoOverwrite b.toBaseCall ok))
  | .startReader | .appendToSend _ | .writeDone | .finishCompletes _ | .finishRead _
  | .finishWrite _ _ | .sharedPtrReleased => .isTrue trivial

namespace BaseCall

/-- Where the outcome of the RPC is kept until `finishRead`: a failure of the
RPC in `m_grpc_status`, a parse error in `m_status`. -/
structure StatusInv (c : BaseCall) : Prop where
  fresh : c.started = false →
    c.readPending = false ∧ c.finishPending = false ∧ c.parseError = none ∧ c.finished = false
  once : c.finishPending = true → c.finished = false
  clean : c.finished = false → c.parseError = none → c.status.ok = true
  parse : c.finished = false → ∀ p, c.parseError = some p →
    p.ok = false ∧ c.status = p ∧ c.readerState = .ended
  rpc : ∀ r, c.rpcStatus = some r → r.ok = false → c.grpcStatus = r
  source : c.grpcStatus.ok = true ∨ (∃ r, c.rpcStatus = some r ∧ r.ok = false) ∨
    c.parseError = some c.grpcStatus

theorem StatusInv.new : BaseCall.new.StatusInv where
  fresh _ := ⟨rfl, rfl, rfl, rfl⟩
  once h := by cases h
  clean _ _ := rfl
  parse _ p hp := by cases hp
  rpc r hr := by cases hr
  source := .inl rfl

/-- The members the invariant does not depend on, and the pending flags, which
may drop. -/
theorem StatusInv.congr {c c' : BaseCall} (h : c.StatusInv)
    (h' : ∃ n rp fp rel del u dr, (rp = true → c.readPending = true) ∧
      (fp = true → c.finishPending = true) ∧
      c' = { c with refCount := n, readPending := rp, finishPending := fp, released := rel
                    deleted := del, undef := u, dataReady := dr }) : c'.StatusInv := by
  obtain ⟨n, rp, fp, rel, del, u, dr, hrp, hfp, rfl⟩ := h'
  refine ⟨fun hs => ?_, fun hp => h.once (hfp hp), h.clean, h.parse, h.rpc, h.source⟩
  obtain ⟨h1, h2, h3⟩ := h.fresh hs
  refine ⟨Bool.eq_false_iff.mpr fun hc => ?_, Bool.eq_false_iff.mpr fun hc => ?_, h3⟩
  · rw [hrp hc] at h1; cases h1
  · rw [hfp hc] at h2; cases h2

theorem StatusInv.deref {c : BaseCall} (h : c.StatusInv) : c.deref.StatusInv :=
  h.congr ⟨_, _, _, _, _, _, _, id, id, rfl⟩

/-- A started object may issue operations. -/
theorem StatusInv.issueRead {c : BaseCall} (h : c.StatusInv) (hs : c.started = true) :
    c.issueRead.StatusInv :=
  ⟨fun hc => absurd (hs.symm.trans hc) (by decide), h.once, h.clean, h.parse, h.rpc, h.source⟩

theorem StatusInv.readerState {c : BaseCall} (h : c.StatusInv) (st : ReaderState)
    (hst : c.readerState = .ended → st = .ended) : StatusInv { c with readerState := st } := by
  refine ⟨h.fresh, h.once, h.clean, fun hf p hp => ?_, h.rpc, h.source⟩
  obtain ⟨h1, h2, h3⟩ := h.parse hf p hp
  exact ⟨h1, h2, hst h3⟩

theorem StatusInv.startReader {c : BaseCall} (h : c.StatusInv) (hs : c.started = false) :
    c.startReader.StatusInv := by
  obtain ⟨-, -, hp, hf⟩ := h.fresh hs
  refine ⟨fun hc => Bool.noConfusion hc, fun _ => hf, fun _ _ => rfl, fun _ p hpp => ?_, h.rpc, h.source⟩
  exact absurd (hp.symm.trans hpp) (by simp)

/-- gRPC stores the outcome of the RPC. -/
theorem StatusInv.finishCompletes {c : BaseCall} (h : c.StatusInv) (st : Status) :
    (c.finishCompletes st).StatusInv := by
  refine ⟨h.fresh, h.once, h.clean, h.parse, fun r hr _ => ?_, ?_⟩
  · exact Option.some.inj hr
  · by_cases hok : st.ok = true
    · exact .inl hok
    · exact .inr (.inl ⟨st, rfl, Bool.eq_false_iff.mpr hok⟩)

/-- `Finish` is issued by `startReader`. -/
theorem StatusInv.started {c : BaseCall} (h : c.StatusInv)
    (hp : c.readPending = true ∨ c.finishPending = true) : c.started = true := by
  cases hs : c.started with
  | true => rfl
  | false =>
    obtain ⟨h1, h2, -⟩ := h.fresh hs
    rw [h1, h2] at hp
    exact hp.elim Bool.noConfusion Bool.noConfusion

/-- After `finishRead` the outcome of the RPC stays where it is. -/
theorem StatusInv.finishRead {c : BaseCall} (h : c.StatusInv) (hp : c.finishPending = true) :
    (BaseCall.finishRead { c with finishPending := false }).StatusInv := by
  have hs := h.started (.inr hp)
  unfold BaseCall.finishRead
  refine StatusInv.deref ?_
  unfold takeStatus
  split <;>
  exact ⟨fun hc => absurd (hs.symm.trans hc) (by decide), fun hc => Bool.noConfusion hc,
    fun hc => Bool.noConfusion hc, fun hc => Bool.noConfusion hc, h.rpc, h.source⟩

/-- A message is parsed while no failure of the RPC is stored. -/
theorem StatusInv.parsed {c : BaseCall} (h : c.StatusInv) (hn : ∀ r ∈ c.rpcStatus, r.ok = true)
    (st : Status) (hst : st.ok = true) : StatusInv { c with grpcStatus := st } := by
  refine ⟨h.fresh, h.once, h.clean, h.parse, fun r hr hr0 => ?_, .inl hst⟩
  rw [hn r hr] at hr0; cases hr0

theorem StatusInv.failParse {c : BaseCall} (h : c.StatusInv) (hs : c.started = true)
    (hn : ∀ r ∈ c.rpcStatus, r.ok = true) (st : Status) (hst : st.ok = false) :
    (BaseCall.failParse { c with grpcStatus := st }).StatusInv := by
  refine ⟨fun hc => absurd (hs.symm.trans hc) (by decide), h.once, fun _ hp => ?_, fun _ p hp => ?_,
    fun r hr hr0 => ?_, .inr (.inr rfl)⟩
  · cases hp
  · obtain rfl := Option.some.inj hp
    exact ⟨hst, rfl, rfl⟩
  · rw [hn r hr] at hr0; cases hr0

theorem StatusInv.receive {c : BaseCall} (h : c.StatusInv) (hs : c.started = true)
    (hn : ∀ r ∈ c.rpcStatus, r.ok = true) (dump : Status) (slices : Bytes) :
    (c.receive dump slices).StatusInv := by
  unfold BaseCall.receive
  dsimp only
  split
  · rename_i hbad
    exact h.failParse hs hn _ (by simpa using hbad)
  · rename_i hok
    have hp := h.parsed hn (parseByteBuffer dump slices).1 (by simpa using hok)
    exact (hp.congr ⟨_, _, _, _, _, _, _, id, id, rfl⟩ :
      StatusInv { c with grpcStatus := (parseByteBuffer dump slices).1
                         dataReady := c.dataReady ++ [(parseByteBuffer dump slices).2] }).issueRead hs

/-- The message of a unary call ends the reading. -/
theorem StatusInv.receiveLast {c : BaseCall} (h : c.StatusInv) (hs : c.started = true)
    (hn : ∀ r ∈ c.rpcStatus, r.ok = true) (hst : c.readerState = .processing) (dump : Status)
    (slices : Bytes) : (c.receiveLast dump slices).StatusInv := by
  unfold BaseCall.receiveLast
  dsimp only
  split
  · rename_i hbad
    exact h.failParse hs hn _ (by simpa using hbad)
  · rename_i hok
    have hok' : (parseByteBuffer dump slices).1.ok = true := by simpa using hok
    have hp := h.parsed hn (parseByteBuffer dump slices).1 hok'
    refine ⟨hp.fresh, hp.once, fun _ _ => hok', fun hf p hpp => ?_, hp.rpc, hp.source⟩
    obtain ⟨-, -, he⟩ := h.parse hf p hpp
    rw [hst] at he; cases he

end BaseCall

open BaseCall

/-! ## `newData` of the three classes -/

theorem Stream.newData_status {c : BaseCall} {ok : Bool} (h : c.StatusInv) (hs : c.started = true)
    (hn : NoOverwrite c ok) (dump : Status) (slices : Bytes) :
    (Stream.newData c ok dump slices).StatusInv := by
  cases ok with
  | false => exact (h.readerState .ended fun _ => rfl).deref
  | true =>
    cases hst : c.readerState with
    | firstCall =>
      rw [Stream.newData_firstCall hst]
      have hne : c.readerState = .ended → ReaderState.processing = .ended := by
        rw [hst]; exact ReaderState.noConfusion
      exact ((h.issueRead hs).readerState .processing hne).deref
    | processing =>
      rw [Stream.newData_processing hst]
      exact (h.receive hs (hn rfl hst) dump slices).deref
    | ended =>
      rw [Stream.newData_ended hst]
      exact h.deref

theorem Call.newData_status {c : BaseCall} {ok : Bool} (h : c.StatusInv) (hs : c.started = true)
    (hn : NoOverwrite c ok) (dump : Status) (slices : Bytes) :
    (Call.newData c ok dump slices).StatusInv := by
  cases ok with
  | false => exact h.deref
  | true =>
    cases hst : c.readerState with
    | firstCall =>
      rw [Call.newData_firstCall hst]
      have hne : c.readerState = .ended → ReaderState.processing = .ended := by
        rw [hst]; exact ReaderState.noConfusion
      exact ((h.issueRead hs).readerState .processing hne).deref
    | processing =>
      rw [Call.newData_processing hst]
      exact (h.receiveLast hs (hn rfl hst) hst dump slices).deref
    | ended =>
      rw [Call.newData_ended hst]
      exact h.deref

/-! ## Steps -/

/-- Every event of a call without a write side keeps the invariant, if its
`newData` does. -/
theorem callStep_status {nd : BaseCall → Bool → Status → Bytes → BaseCall}
    (hnd : ∀ {c : BaseCall} {ok : Bool}, c.StatusInv → c.started = true → NoOverwrite c ok →
      ∀ dump slices, (nd c ok dump slices).StatusInv)
    {c c' : BaseCall} {e : CallEv} (h : c.StatusInv) (hc : CallCond c e)
    (hs : callStep nd c e = some c') : c'.StatusInv := by
  cases e with
  | startReader =>
    simp only [callStep] at hs
    split at hs
    · cases hs
    · rename_i hg
      simp only [Bool.or_eq_true, not_or, Bool.not_eq_true] at hg
      cases hs
      exact h.startReader hg.1
  | newData ok dump slices =>
    simp only [callStep] at hs
    split at hs
    · cases hs
    · rename_i hg
      have hp : c.readPending = true := by simpa using hg
      split at hs
      · cases hs
        exact h.congr ⟨_, false, _, _, _, _, _, Bool.noConfusion, id, rfl⟩
      · cases hs
        have h0 : StatusInv { c with readPending := false } :=
          h.congr ⟨_, false, _, _, _, _, _, Bool.noConfusion, id, rfl⟩
        exact hnd h0 (h.started (.inl hp)) hc dump slices
  | finishCompletes st =>
    simp only [callStep] at hs
    split at hs
    · cases hs
      exact h.finishCompletes st
    · cases hs
  | finishRead ok =>
    simp only [callStep] at hs
    split at hs
    · cases hs
    · rename_i hg
      simp only [Bool.not_eq_true, Bool.not_eq_false', Bool.and_eq_true] at hg
      split at hs
      · cases hs
        exact h.congr ⟨_, _, false, _, _, _, _, id, Bool.noConfusion, rfl⟩
      · cases hs
        exact h.finishRead hg.1
  | sharedPtrReleased =>
    simp only [callStep] at hs
    split at hs
    · cases hs
    · split at hs <;> cases hs
      · exact h.congr ⟨_, _, _, true, _, _, _, id, id, rfl⟩
      · exact h.congr ⟨_, _, _, true, _, _, _, id, id, rfl⟩

/-- The write side of a bidirectional call has no part in its status. -/
theorem bidirectStep_status {b b' : Bidirect} {e : Ev} (h : b.toBaseCall.StatusInv)
    (hc : BidirectCond b e) (hs : bidirectStep b e = some b') : b'.toBaseCall.StatusInv := by
  rcases bidirectStep_fires hs with hf | ⟨-, rfl⟩
  · cases hf with
    | startReader hst => exact h.startReader hst
    | appendToSend data =>
      obtain ⟨n, hn⟩ := (b.handOver data false).appendToSend_base data b.replays.length
      rw [hn]
      exact h.congr ⟨n, _, _, _, _, _, _, id, id, rfl⟩
    | writeDone =>
      obtain ⟨n, d, hn⟩ := (b.handOver [] true).writeDone_base b.replays.length
      rw [hn]
      exact h.congr ⟨n, _, _, _, d, _, _, id, id, rfl⟩
    | newData ok dump slices hp =>
      obtain ⟨n, d, hn⟩ := ({ b with readPending := false } : Bidirect).newData_base ok dump slices
      rw [hn]
      have h0 : StatusInv { b.toBaseCall with readPending := false } :=
        h.congr ⟨_, false, _, _, _, _, _, Bool.noConfusion, id, rfl⟩
      have hnd := Stream.newData_status h0 (h.started (.inl hp)) hc dump slices
      exact hnd.congr ⟨n, _, _, _, d, _, _, id, id, rfl⟩
    | finishCompletes st => exact h.finishCompletes st
    | finishRead ok hp =>
      rw [Bidirect.finishRead_base]
      exact h.finishRead hp
    | finishWrite i ok op =>
      obtain ⟨n, d, u, hn⟩ := (b.completeWrite i op ok).finishWrite_base ok
      rw [hn]
      exact h.congr ⟨n, _, _, _, d, u, _, id, id, rfl⟩
    | sharedPtrReleased => exact h.congr ⟨_, _, _, true, _, _, _, id, id, rfl⟩
  · cases e with
    | newData => exact h.congr ⟨_, false, _, _, _, true, _, Bool.noConfusion, id, rfl⟩
    | finishRead => exact h.congr ⟨_, _, false, _, _, true, _, id, Bool.noConfusion, rfl⟩
    | sharedPtrReleased => exact h.congr ⟨_, _, _, true, _, true, _, id, id, rfl⟩
    | startReader => exact h.congr ⟨_, _, _, _, _, true, _, id, id, rfl⟩
    | appendToSend => exact h.congr ⟨_, _, _, _, _, true, _, id, id, rfl⟩
    | writeDone => exact h.congr ⟨_, _, _, _, _, true, _, id, id, rfl⟩
    | finishCompletes => exact h.congr ⟨_, _, _, _, _, true, _, id, id, rfl⟩
    | finishWrite => exact h.congr ⟨_, _, _, _, _, true, _, id, id, rfl⟩

/-! ## `finishRead` -/

theorem takeStatus_status (c : BaseCall) :
    c.takeStatus.status = if c.status.ok || !c.grpcStatus.ok then c.grpcStatus else c.status := by
  unfold takeStatus
  split <;> rfl

theorem takeStatus_of_bad {c : BaseCall} (h : c.grpcStatus.ok = false) :
    c.takeStatus.status = c.grpcStatus := by
  rw [takeStatus_status, h, Bool.not_false, Bool.or_true, if_pos rfl]

theorem takeStatus_of_ok {c : BaseCall} (h : c.grpcStatus.ok = true) :
    c.takeStatus.status = if c.status.ok then c.grpcStatus else c.status := by
  rw [takeStatus_status, h, Bool.not_true, Bool.or_false]

/-- From the invariant, `finishRead` finds the outcome of the RPC. -/
theorem BaseCall.StatusInv.reported {c : BaseCall} (h : c.StatusInv) (hp : c.finishPending = true)
    (hr : c.rpcStatus.isSome = true) : Reported c c.takeStatus.status := by
  have hf := h.once hp
  obtain ⟨r, hr⟩ := Option.isSome_iff_exists.mp hr
  cases hrok : r.ok with
  | false =>
    -- the RPC failed
    have hg := h.rpc r hr hrok
    have hst : c.takeStatus.status = r := by
      rw [takeStatus_of_bad (by rw [hg]; exact hrok), hg]
    rw [hst]
    refine ⟨fun r' hr' _ => ?_, fun r' p hr' hok => ?_, fun hok => ?_, fun ⟨⟨r', hr', hok⟩, _⟩ => ?_⟩
    · exact Option.some.inj (hr.symm.trans hr')
    · rw [← Option.some.inj (hr.symm.trans hr'), hrok] at hok; cases hok
    · rw [hrok] at hok; cases hok
    · rw [← Option.some.inj (hr.symm.trans hr'), hrok] at hok; cases hok
  | true =>
    have hrpc : ∀ r', c.rpcStatus = some r' → r'.ok = true := by
      intro r' hr'
      rw [← Option.some.inj (hr.symm.trans hr')]; exact hrok
    cases hpe : c.parseError with
    | none =>
      have hg : c.grpcStatus.ok = true := by
        rcases h.source with hg | ⟨r', hr', hbad⟩ | hpe'
        · exact hg
        · rw [hrpc r' hr'] at hbad; cases hbad
        · rw [hpe] at hpe'; cases hpe'
      have hst : c.takeStatus.status = c.grpcStatus := by
        rw [takeStatus_of_ok hg, if_pos (h.clean hf hpe)]
      rw [hst]
      refine ⟨fun r' hr' hbad => ?_, fun r' p hr' hok hpe' => ?_, fun _ => ⟨⟨r, hr, hrok⟩, hpe⟩,
        fun _ => hg⟩
      · rw [hrpc r' hr'] at hbad; cases hbad
      · rw [hpe] at hpe'; cases hpe'
    | some p =>
      -- the parse error is in `m_status`, and in `m_grpc_status` if that is not OK
      obtain ⟨hpbad, hps, -⟩ := h.parse hf p hpe
      have hst : c.takeStatus.status = p := by
        rcases h.source with hg | ⟨r', hr', hbad⟩ | hpe'
        · rw [takeStatus_of_ok hg, hps, hpbad]; rfl
        · rw [hrpc r' hr'] at hbad; cases hbad
        · have hpg : p = c.grpcStatus := Option.some.inj (hpe.symm.trans hpe')
          rw [takeStatus_of_bad (by rw [← hpg]; exact hpbad), hpg]
      rw [hst]
      refine ⟨fun r' hr' hbad => ?_, fun r' p' hr' hok hpe' => ?_, fun hok => ?_, fun ⟨_, hno⟩ => ?_⟩
      · rw [hrpc r' hr'] at hbad; cases hbad
      · exact Option.some.inj (hpe.symm.trans hpe')
      · rw [hpbad] at hok; cases hok
      · rw [hpe] at hno; cases hno

/-- Every state of a run without an overwritten failure has the invariant. -/
theorem call_status {nd : BaseCall → Bool → Status → Bytes → BaseCall}
    (hnd : ∀ {c : BaseCall} {ok : Bool}, c.StatusInv → c.started = true → NoOverwrite c ok →
      ∀ dump slices, (nd c ok dump slices).StatusInv)
    {c : BaseCall} (h : ((Lib.LTS.ofFn .new (callStep nd)).restrict CallCond).Reachable c) :
    c.StatusInv := by
  refine Lib.LTS.Inductive.reachable ⟨fun s hs => ?_, fun s e s' hs hstep => ?_⟩ h
  · rw [hs]; exact .new
  · exact callStep_status hnd hs hstep.1 hstep.2

theorem bidirect_status {b : Bidirect} (h : (bidirectLts.restrict BidirectCond).Reachable b) :
    b.toBaseCall.StatusInv := by
  refine Lib.LTS.Inductive.reachable (P := fun b => b.toBaseCall.StatusInv)
    ⟨fun s hs => ?_, fun s e s' hs hstep => ?_⟩ h
  · rw [hs]; exact .new
  · exact bidirectStep_status hs hstep.1 hstep.2

/-- `finishRead` of a call without a write side, when it emits `finished`. -/
theorem call_reported {nd : BaseCall → Bool → Status → Bytes → BaseCall} {c c' : BaseCall} {ok : Bool}
    (h : c.StatusInv) (hs : callStep nd c (.finishRead ok) = some c') (hnew : c'.finished = true) :
    Reported c c'.status := by
  simp only [callStep] at hs
  split at hs
  · cases hs
  · rename_i hg
    simp only [Bool.not_eq_true, Bool.not_eq_false', Bool.and_eq_true] at hg
    split at hs <;> cases hs
    · rw [h.once hg.1] at hnew; cases hnew
    · have hrep := h.reported hg.1 hg.2
      have hst : (BaseCall.finishRead { c with finishPending := false }).status =
          c.takeStatus.status := by
        unfold BaseCall.finishRead
        rw [takeStatus_status c]
        exact takeStatus_status { c with finishPending := false }
      rw [hst]
      exact hrep

theorem bidirect_reported {b b' : Bidirect} {ok : Bool} (h : b.toBaseCall.StatusInv)
    (hs : bidirectStep b (.finishRead ok) = some b') (hnew : b'.finished = true) :
    Reported b.toBaseCall b'.status := by
  simp only [bidirectStep] at hs
  split at hs
  · cases hs
  · rename_i hg
    simp only [Bool.not_eq_true, Bool.not_eq_false', Bool.and_eq_true] at hg
    split at hs <;> cases hs
    · have hold : b.finished = true := hnew
      rw [h.once hg.1] at hold; cases hold
    · have hrep := h.reported hg.1 hg.2
      have hst : ({ b with finishPending := false } : Bidirect).finishRead.status =
          b.takeStatus.status := by
        rw [Bidirect.finishRead_base]
        unfold BaseCall.finishRead
        rw [takeStatus_status b.toBaseCall]
        exact takeStatus_status { b.toBaseCall with finishPending := false }
      rw [hst]
      exact hrep

/-- **No failure reported as success.** In every run of the three classes in
which no message is processed once gRPC has stored a failure, `finished` comes
with the failure of the RPC, else the parse error, else OK. -/
theorem status_reported (ok : Bool) :
    (∀ c c', (Stream.lts.restrict CallCond).Reachable c →
      callStep Stream.newData c (.finishRead ok) = some c' → c'.finished = true →
        Reported c c'.status) ∧
    (∀ c c', (Call.lts.restrict CallCond).Reachable c →
      callStep Call.newData c (.finishRead ok) = some c' → c'.finished = true →
        Reported c c'.status) ∧
    (∀ b b', (bidirectLts.restrict BidirectCond).Reachable b →
      bidirectStep b (.finishRead ok) = some b' → b'.finished = true →
        Reported b.toBaseCall b'.status) := by
  refine ⟨?_, ?_, ?_⟩
  · intro c c' h hs hnew
    exact call_reported (call_status Stream.newData_status h) hs hnew
  · intro c c' h hs hnew
    exact call_reported (call_status Call.newData_status h) hs hnew
  · intro b b' h hs hnew
    exact bidirect_reported (bidirect_status h) hs hnew

/-- A stream whose first message does not parse; the RPC itself ends OK. -/
def badMessage : List CallEv :=
  [.startReader, .newData true Status.OK [], .newData true ⟨13, ""⟩ [], .finishCompletes Status.OK]

theorem status_reported_badMessage :
    ∃ c c', callStep Stream.newData c (.finishRead true) = some c' ∧ c'.finished = true ∧
      Reported c c'.status ∧ c'.status = ⟨13, ""⟩ :=
  ⟨_, _, rfl, rfl, (status_reported true).1 _ _
    ⟨.new, badMessage, rfl, Lib.exec_guarded _ rfl⟩ rfl rfl, rfl⟩

/-- The RPC ends `Unavailable` (14) after a message was read but before it is
processed: the message overwrites the failure, and `finished` comes with OK. -/
theorem status_lost :
    ∃ c c', Lib.exec (callStep Stream.newData) .new
        [.startReader, .newData true Status.OK [], .finishCompletes ⟨14, ""⟩,
          .newData true Status.OK [1], .newData false Status.OK []] = some c ∧
      callStep Stream.newData c (.finishRead true) = some c' ∧ c'.finished = true ∧
      c.rpcStatus = some ⟨14, ""⟩ ∧ c'.status = Status.OK ∧ ¬ Reported c c'.status := by
  refine ⟨_, _, rfl, rfl, rfl, rfl, rfl, ?_⟩
  intro h
  have hst := congrArg Status.code (h.rpc ⟨14, ""⟩ rfl rfl)
  exact absurd hst (by decide)

end QtProtobuf.Grpc
