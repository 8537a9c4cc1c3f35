import QtProtobuf.L4Client.Client

/-!
# `attachChannel` while streams are active

`attachChannel` (`grpc/qabstractgrpcclient.cpp:59-74`) aborts the listed server
streams by a range-for over `activeStreams`, switches the channel, and runs the
same loop once more. `abort` emits `finished`, whose handler erases the stream
from the vector the loop walks: every iterator from the erased position on is
invalid then. The bidirectional streams have no loop.

* `attaches_cleanly_iff`: the replacement is clean exactly for at most one
  server stream and no bidirectional one.
* `not_attaches_cleanly_two`: with two server streams the loop reads through an
  invalid iterator.
-/
namespace QtProtobuf.Grpc

open Lib

namespace Client

/-- The position of `activeStreams` that the finished handler of stream `i`
erases, if any. -/
def erasedAt (c : Client) (i : Nat) : Option Nat :=
  match c.objects[i]? with
  | some s =>
    if s.connected = true ∧ s.kind = .server then c.activeStreams.findIdx? (c.equals s) else none
  | none => none

/-- `for (auto stream : activeStreams) stream->abort();` with `n` positions to
go, from position `k` on. Only the iterators to positions before `valid` are
valid; `none`: an element is read through another one. -/
def abortStreams : Nat → Nat → Nat → Client → Option Client
  | 0, _, _, c => some c
  | n + 1, k, valid, c =>
    if k < valid then
      match c.activeStreams[k]? with
      | some i => abortStreams n (k + 1) (((c.erasedAt i).map (min valid)).getD valid) (c.emitFinished i)
      | none => none
    else none

/-- A whole loop: begin and end are taken before the first `abort`. -/
def abortAll (c : Client) : Option Client :=
  abortStreams c.activeStreams.length 0 c.activeStreams.length c

/-- mirrors src/grpc/qabstractgrpcclient.cpp:67-73, for a channel of the
current thread; `dPtr->channel = channel` stands between the loops. -/
def attachChannel (c : Client) : Option Client := c.abortAll.bind abortAll

/-- The replacement is clean: no invalid iterator is read, every listed stream
emits `finished` once, and no stream stays listed. -/
def AttachesCleanly (c : Client) : Prop :=
  ∃ c', c.attachChannel = some c' ∧
    (∀ k, ∀ i ∈ c.active k,
      c'.objects[i]?.map GrpcStream.finished = c.objects[i]?.map fun s => s.finished + 1) ∧
    ∀ k, c'.active k = []

end Client

/-- What happens to a client whose channel may be replaced. -/
inductive SessionEvent where
  | event (ch : Channel) (e : ClientEvent)
  | attachChannel
  deriving DecidableEq, Repr

/-- An RPC ends by the rules of the channel it was opened on, which may be one
replaced since. -/
def sessionStep (c : Client) : SessionEvent → Option Client
  | .event ch e => clientStep ch c e
  | .attachChannel => c.attachChannel

def sessionLts : LTS Client SessionEvent := .ofFn .new sessionStep

theorem session_reachable {c : Client} {ls : List SessionEvent}
    (h : exec sessionStep .new ls = some c) : sessionLts.Reachable c :=
  ⟨.new, ls, rfl, exec_run Client.new (f := sessionStep) h⟩

namespace Client

/-! ## The loops keep the lists -/

theorem Listed.abortStreams {n k valid : Nat} {c c' : Client} (h : c.Listed)
    (hs : Client.abortStreams n k valid c = some c') : c'.Listed := by
  induction n generalizing k valid c with
  | zero => cases hs; exact h
  | succ n ih =>
    rw [Client.abortStreams] at hs
    split at hs
    · split at hs
      · exact ih (h.emitFinished _) hs
      · cases hs
    · cases hs

theorem Listed.attachChannel {c c' : Client} (h : c.Listed) (hs : c.attachChannel = some c') :
    c'.Listed := by
  obtain ⟨c₁, h₁, h₂⟩ := Option.bind_eq_some_iff.mp hs
  exact (h.abortStreams h₁).abortStreams h₂

theorem Listed.session : sessionLts.Inductive Listed where
  init _ h := h ▸ .new
  step c l c' h hs := by
    cases l with
    | event ch e => exact h.step hs
    | attachChannel => exact h.attachChannel hs

/-! ## What one abort invalidates -/

/-- The handler of a listed stream erases that very stream. -/
theorem Listed.erasedAt_head {c : Client} (h : c.Listed) {i : Nat} {l : List Nat}
    (hl : c.activeStreams = i :: l) : c.erasedAt i = some 0 := by
  have hmem : i ∈ c.active .server := by
    simp [active, hl]
  obtain ⟨s, hi, hk, hc⟩ := (h.mem _ _).mp hmem
  have heq : c.equals s i = true := by
    apply (h.equals_iff hi hc rfl _).mpr rfl
    rw [hk]
    exact hmem
  have hfind : (i :: l).findIdx? (c.equals s) = some 0 := by
    rw [List.findIdx?_cons, heq, if_pos rfl]
  simp [erasedAt, hi, hk, hc, hl, hfind]

/-- A second element is read through an iterator the first abort invalidated. -/
theorem Listed.attachChannel_none {c : Client} (h : c.Listed) {i j : Nat} {l : List Nat}
    (hl : c.activeStreams = i :: j :: l) : c.attachChannel = none := by
  have hfirst : c.abortAll = none := by
    unfold abortAll
    rw [hl, List.length_cons, Client.abortStreams, if_pos (Nat.succ_pos _), hl]
    simp only [List.getElem?_cons_zero]
    rw [h.erasedAt_head hl, List.length_cons, Client.abortStreams]
    simp
  unfold Client.attachChannel
  rw [hfirst]
  rfl

theorem attachChannel_nil {c : Client} (hl : c.activeStreams = []) : c.attachChannel = some c := by
  simp [Client.attachChannel, abortAll, hl, Client.abortStreams]

theorem Listed.attachChannel_one {c : Client} (h : c.Listed) {i : Nat}
    (hl : c.activeStreams = [i]) : c.attachChannel = some (c.emitFinished i) := by
  have hnil : (c.emitFinished i).activeStreams = [] := by
    have ha := h.emitFinished_active i .server
    simp [active, hl] at ha
    exact ha
  have hfirst : c.abortAll = some (c.emitFinished i) := by
    simp [abortAll, hl, Client.abortStreams]
  unfold Client.attachChannel
  rw [hfirst]
  simp [abortAll, hnil, Client.abortStreams]

/-- A bidirectional stream stays listed: `finished` of a server stream leaves it. -/
theorem Listed.bidirect_stays {c : Client} (h : c.Listed) {i : Nat} (hi : i ∈ c.activeStreams) :
    (c.emitFinished i).activeStreamsBidirect = c.activeStreamsBidirect := by
  have ha := h.emitFinished_active i .bidirect
  simp only [active] at ha
  rw [ha]
  apply filter_ne_of_not_mem
  intro hm
  obtain ⟨s, hs, hk, -⟩ := (h.mem .server i).mp hi
  obtain ⟨t, ht, hk', -⟩ := (h.mem .bidirect i).mp hm
  rw [hs, Option.some.injEq] at ht
  rw [← ht, hk] at hk'
  cases hk'

theorem Listed.attachesCleanly {c : Client} (h : c.Listed) :
    c.AttachesCleanly ↔ c.activeStreams.length ≤ 1 ∧ c.activeStreamsBidirect = [] := by
  have hb : c.active .bidirect = c.activeStreamsBidirect := rfl
  match hl : c.activeStreams with
  | [] =>
    unfold AttachesCleanly
    rw [attachChannel_nil hl]
    constructor
    · rintro ⟨c', hc', -, hempty⟩
      cases hc'
      exact ⟨Nat.zero_le 1, hempty .bidirect⟩
    · rintro ⟨-, hempty⟩
      have hnone : ∀ k, c.active k = [] := fun k => by
        cases k with
        | server => exact hl
        | bidirect => exact hempty
      refine ⟨c, rfl, fun k i hi => ?_, hnone⟩
      rw [hnone] at hi
      cases hi
  | [i] =>
    have hstays := h.bidirect_stays (i := i) (by simp [hl])
    unfold AttachesCleanly
    rw [h.attachChannel_one hl]
    constructor
    · rintro ⟨c', hc', -, hempty⟩
      cases hc'
      refine ⟨Nat.le_refl 1, ?_⟩
      rw [← hstays]
      exact hempty .bidirect
    · rintro ⟨-, hempty⟩
      refine ⟨_, rfl, fun k j hj => ?_, fun k => ?_⟩
      · have hji : j = i := by
          cases k with
          | server => simpa [active, hl] using hj
          | bidirect => simp [active, hempty] at hj
        rw [hji, emitFinished_get, if_pos rfl, Option.map_map]
        rfl
      · rw [h.emitFinished_active]
        cases k with
        | server => simp [active, hl]
        | bidirect => simp [active, hempty]
  | i :: j :: l =>
    unfold AttachesCleanly
    rw [h.attachChannel_none hl]
    constructor
    · rintro ⟨c', hc', -⟩
      cases hc'
    · rintro ⟨hlen, -⟩
      simp at hlen

/-! ## The condition -/

/-- **Replacing the channel.** In every state a client reaches, over whatever
channels, `attachChannel` finishes every listed stream once and empties both
lists, without reading through an invalid iterator, if and only if at most one
server stream and no bidirectional stream is listed. -/
theorem attaches_cleanly_iff {c : Client} (h : sessionLts.Reachable c) :
    c.AttachesCleanly ↔ c.activeStreams.length ≤ 1 ∧ c.activeStreamsBidirect = [] :=
  (Listed.session.reachable h).attachesCleanly

/-- One server stream, opened over `QGrpcChannel`. -/
def oneStream : Client :=
  ⟨[⟨.server, [0x6d], [1], [], [], 0, true, true⟩], [0], [], [0], [], [0], [], []⟩

theorem oneStream_reachable : sessionLts.Reachable oneStream := by
  have hr : exec sessionStep .new [.event .grpc (.stream [0x6d] [1] none)] = some oneStream := by
    decide
  exact session_reachable hr

theorem attaches_cleanly_one : oneStream.AttachesCleanly :=
  (attaches_cleanly_iff oneStream_reachable).mpr (by decide)

/-- Two streams of one method with different arguments. -/
def twoStreams : Client :=
  ⟨[⟨.server, [0x6d], [1], [], [], 0, true, true⟩, ⟨.server, [0x6d], [2], [], [], 0, true, true⟩],
    [0, 1], [], [0, 1], [], [0, 1], [], []⟩

/-- The first abort erases position 0; the loop goes on with position 1. -/
theorem not_attaches_cleanly_two :
    sessionLts.Reachable twoStreams ∧ twoStreams.attachChannel = none ∧
      ¬ twoStreams.AttachesCleanly := by
  have hnone : twoStreams.attachChannel = none := by decide
  have hr : exec sessionStep .new
      [.event .grpc (.stream [0x6d] [1] none), .event .grpc (.stream [0x6d] [2] none)] =
      some twoStreams := by decide
  refine ⟨session_reachable hr, hnone, ?_⟩
  rintro ⟨c', hc', -⟩
  rw [hnone] at hc'
  cases hc'

end Client

end QtProtobuf.Grpc
