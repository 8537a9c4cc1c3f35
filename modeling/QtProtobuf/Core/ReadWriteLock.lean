import QtProtobuf.Core.Lts
import Mathlib.Algebra.BigOperators.Group.Finset.Basic
import Mathlib.Algebra.Order.BigOperators.Group.Finset
import Mathlib.Data.Fintype.Basic

/-!
# A read-write lock of a mutex and a counting semaphore

A reader takes the mutex, one permit, and gives the mutex back at once; it reads
with its permit only. A writer takes the mutex and all the permits and keeps both
while it writes; it gives the permits back first.

* `inv_step`: the permits and what the threads hold add up, and the mutex is
  owned by the thread that stands behind it.
* `Inv.exclusive`: while a thread writes, no other one holds a permit.
* `Inv.progress`: a thread that has not returned yet, or the one it waits for,
  can go on.
-/
namespace Lib.ReadWriteLock

/-- Where a thread stands. -/
inductive Phase where
  | idle
  | readCalled | readLocked | readAcquired | reading
  | writeCalled | writeLocked | writing | writeReleased
  deriving DecidableEq, Repr

namespace Phase

/-- The thread owns the mutex. -/
def owns : Phase → Bool
  | readLocked | readAcquired | writeLocked | writing | writeReleased => true
  | _ => false

/-- The permits the thread holds, of `n`. -/
def held (n : Nat) : Phase → Nat
  | readAcquired | reading => 1
  | writing => n
  | _ => 0

end Phase

structure State (T : Type) where
  phase : T → Phase
  owner : Option T
  permits : Nat

inductive Action where
  | callRead | callWrite | lock | acquire | unlock | release
  deriving DecidableEq, Repr

def Action.isCall : Action → Bool
  | callRead | callWrite => true
  | _ => false

variable {T : Type} [DecidableEq T]

def State.new (n : Nat) : State T := ⟨fun _ => .idle, none, n⟩

def State.set (s : State T) (t : T) (p : Phase) : State T := { s with phase := Function.update s.phase t p }

/-- One step of the thread `t`; `none`: it is not there, or it has to wait. -/
def step (n : Nat) (s : State T) (t : T) (a : Action) : Option (State T) :=
  match a, s.phase t with
  | .callRead, .idle => some (s.set t .readCalled)
  | .callWrite, .idle => some (s.set t .writeCalled)
  | .lock, .readCalled => if s.owner = none then some { s.set t .readLocked with owner := some t } else none
  | .lock, .writeCalled => if s.owner = none then some { s.set t .writeLocked with owner := some t } else none
  | .acquire, .readLocked =>
    if 1 ≤ s.permits then some { s.set t .readAcquired with permits := s.permits - 1 } else none
  | .acquire, .writeLocked =>
    if n ≤ s.permits then some { s.set t .writing with permits := s.permits - n } else none
  | .unlock, .readAcquired => some { s.set t .reading with owner := none }
  | .unlock, .writeReleased => some { s.set t .idle with owner := none }
  | .release, .reading => some { s.set t .idle with permits := s.permits + 1 }
  | .release, .writing => some { s.set t .writeReleased with permits := s.permits + n }
  | _, _ => none

@[simp] theorem set_phase (s : State T) (t u : T) (p : Phase) :
    (s.set t p).phase u = if u = t then p else s.phase u := by
  unfold State.set
  by_cases h : u = t
  · subst h
    simp
  · simp [h]

@[simp] theorem set_owner (s : State T) (t : T) (p : Phase) : (s.set t p).owner = s.owner := rfl
@[simp] theorem set_permits (s : State T) (t : T) (p : Phase) : (s.set t p).permits = s.permits := rfl

/-- What one step does: the phase of the thread changes, and with it what the
thread owns and holds. -/
theorem step_cases {n : Nat} {s s' : State T} {t : T} {a : Action} (h : step n s t a = some s') :
    ∃ p, s'.phase = (s.set t p).phase ∧ s'.permits + p.held n = s.permits + (s.phase t).held n ∧
      (p.owns = (s.phase t).owns ∧ s'.owner = s.owner ∨
        p.owns = true ∧ (s.phase t).owns = false ∧ s.owner = none ∧ s'.owner = some t ∨
        p.owns = false ∧ (s.phase t).owns = true ∧ s'.owner = none) := by
  unfold step at h
  split at h
  all_goals rename_i hp
  all_goals try rw [hp]
  · cases h
    exact ⟨_, rfl, by simp [Phase.held], .inl ⟨rfl, rfl⟩⟩
  · cases h
    exact ⟨_, rfl, by simp [Phase.held], .inl ⟨rfl, rfl⟩⟩
  · split at h
    · rename_i ho
      cases h
      exact ⟨_, rfl, by simp [Phase.held], .inr (.inl ⟨rfl, rfl, ho, rfl⟩)⟩
    · cases h
  · split at h
    · rename_i ho
      cases h
      exact ⟨_, rfl, by simp [Phase.held], .inr (.inl ⟨rfl, rfl, ho, rfl⟩)⟩
    · cases h
  · split at h
    · cases h
      exact ⟨_, rfl, by simp only [Phase.held]; omega, .inl ⟨rfl, rfl⟩⟩
    · cases h
  · split at h
    · cases h
      exact ⟨_, rfl, by simp only [Phase.held]; omega, .inl ⟨rfl, rfl⟩⟩
    · cases h
  · cases h
    exact ⟨_, rfl, by simp [Phase.held], .inr (.inr ⟨rfl, rfl, rfl⟩)⟩
  · cases h
    exact ⟨_, rfl, by simp [Phase.held], .inr (.inr ⟨rfl, rfl, rfl⟩)⟩
  · cases h
    exact ⟨_, rfl, rfl, .inl ⟨rfl, rfl⟩⟩
  · cases h
    exact ⟨_, rfl, rfl, .inl ⟨rfl, rfl⟩⟩
  · cases h

/-- What a step that is not a call has waited for. -/
theorem guard {n : Nat} {l : State T} {t : T} {b : Action}
    (hb : b.isCall = false) (h : (step n l t b).isSome = true) :
    (l.phase t = .readCalled ∨ l.phase t = .writeCalled → l.owner = none) ∧
      (l.phase t = .readLocked → 1 ≤ l.permits) ∧ (l.phase t = .writeLocked → n ≤ l.permits) ∧
      l.phase t ≠ .idle := by
  unfold step at h
  refine ⟨?_, ?_, ?_, ?_⟩
  · rintro (hp | hp)
    all_goals
      rw [hp] at h
      cases b <;> simp_all
  · intro hp
    rw [hp] at h
    cases b <;> simp_all
  · intro hp
    rw [hp] at h
    cases b <;> simp_all
  · intro hp
    rw [hp] at h
    cases b <;> simp_all [Action.isCall]

/-! ## The invariant -/

variable [Fintype T]

/-- The sum over the threads, when one of them changes. -/
theorem sum_set (f : Phase → Nat) (s : State T) (t : T) (p : Phase) :
    (∑ u, f ((s.set t p).phase u)) + f (s.phase t) = (∑ u, f (s.phase u)) + f p := by
  have hne : ∀ u ∈ Finset.univ.erase t, f ((s.set t p).phase u) = f (s.phase u) := fun u hu => by
    rw [set_phase, if_neg (Finset.ne_of_mem_erase hu)]
  have h := Finset.add_sum_erase Finset.univ (fun u => f (s.phase u)) (Finset.mem_univ t)
  have h' := Finset.add_sum_erase Finset.univ (fun u => f ((s.set t p).phase u)) (Finset.mem_univ t)
  rw [Finset.sum_congr rfl hne, set_phase, if_pos rfl] at h'
  omega

structure Inv (n : Nat) (s : State T) : Prop where
  owner : ∀ t, s.owner = some t ↔ (s.phase t).owns = true
  permits : s.permits + ∑ t, (s.phase t).held n = n

omit [DecidableEq T] in
theorem Inv.new (n : Nat) : Inv n (State.new n : State T) where
  owner t := by simp [State.new, Phase.owns]
  permits := by simp [State.new, Phase.held]

theorem inv_step {n : Nat} {s s' : State T} {t : T} {a : Action} (hs : Inv n s)
    (h : step n s t a = some s') : Inv n s' := by
  obtain ⟨p, hphase, hpermits, howner⟩ := step_cases h
  constructor
  · intro u
    rw [hphase, set_phase]
    rcases howner with ⟨hp, ho⟩ | ⟨hp, ht, hn, ho⟩ | ⟨hp, ht, ho⟩
    · rw [ho, hs.owner u]
      by_cases hu : u = t
      · subst hu
        rw [if_pos rfl, hp]
      · rw [if_neg hu]
    · rw [ho, Option.some.injEq]
      by_cases hu : u = t
      · subst hu
        simp [hp]
      · rw [if_neg hu, ← hs.owner u, hn]
        simp [Ne.symm hu]
    · rw [ho]
      by_cases hu : u = t
      · subst hu
        simp [hp]
      · rw [if_neg hu, ← hs.owner u, (hs.owner t).mpr ht]
        simp [Ne.symm hu]
  · have hsum := sum_set (Phase.held n) s t p
    have h := hs.permits
    rw [hphase]
    omega

/-! ## What it gives -/

theorem Inv.held_le {n : Nat} {s : State T} (hs : Inv n s) {t u : T} (htu : t ≠ u) :
    (s.phase t).held n + (s.phase u).held n ≤ n := by
  have h := hs.permits
  have h1 := Finset.add_sum_erase Finset.univ (fun v => (s.phase v).held n) (Finset.mem_univ t)
  have h2 : (s.phase u).held n ≤ ∑ v ∈ Finset.univ.erase t, (s.phase v).held n :=
    Finset.single_le_sum_of_canonicallyOrdered (f := fun v => (s.phase v).held n)
      (Finset.mem_erase.mpr ⟨htu.symm, Finset.mem_univ u⟩)
  omega

/-- **Exclusion.** While a thread writes, no other one reads or writes. -/
theorem Inv.exclusive {n : Nat} (hn : 0 < n) {s : State T} (hs : Inv n s) {t u : T} (htu : t ≠ u)
    (ht : s.phase t = .writing) :
    s.phase u ≠ .reading ∧ s.phase u ≠ .readAcquired ∧ s.phase u ≠ .writing := by
  have h := hs.held_le htu
  rw [ht] at h
  refine ⟨fun hu => ?_, fun hu => ?_, fun hu => ?_⟩
  all_goals
    rw [hu] at h
    simp only [Phase.held] at h
    omega

omit [DecidableEq T] in
/-- A thread that holds permits, when not all of them are there. -/
theorem Inv.exists_held {n : Nat} {s : State T} (hs : Inv n s) (hp : s.permits < n) :
    ∃ t, 0 < (s.phase t).held n := by
  apply Classical.byContradiction
  intro hnone
  have h0 : ∀ t ∈ Finset.univ, (s.phase t).held n = 0 := fun t _ => by
    apply Nat.eq_zero_of_not_pos
    exact fun h => hnone ⟨t, h⟩
  have h := hs.permits
  rw [Finset.sum_eq_zero h0] at h
  omega

/-- **Progress.** If a thread has not returned yet, some thread can make a step. -/
theorem Inv.progress {n : Nat} (hn : 0 < n) {s : State T} (hs : Inv n s) {t : T}
    (ht : s.phase t ≠ .idle) : ∃ u a, a.isCall = false ∧ (step n s u a).isSome = true := by
  -- a reader that holds a permit without the mutex gives it back
  have hreader : ∀ w, s.owner = some w → (s.phase w).held n = 0 → s.permits < n →
      ∃ u a, a.isCall = false ∧ (step n s u a).isSome = true := by
    intro w hw h0 hp
    obtain ⟨u, hu⟩ := hs.exists_held hp
    refine ⟨u, .release, rfl, ?_⟩
    have hne : u ≠ w := fun he => by
      rw [he, h0] at hu
      exact absurd hu (Nat.lt_irrefl 0)
    have hown : (s.phase u).owns = false := by
      cases ho : (s.phase u).owns with
      | false => rfl
      | true =>
        have hu' := (hs.owner u).mpr ho
        rw [hw] at hu'
        cases hu'
        exact absurd rfl hne
    cases hph : s.phase u with
    | reading =>
      unfold step
      rw [hph]
      rfl
    | readAcquired | writing =>
      rw [hph] at hown
      cases hown
    | _ =>
      rw [hph] at hu
      exact absurd hu (Nat.lt_irrefl 0)
  cases ho : s.owner with
  | some w =>
    have hw := (hs.owner w).mp ho
    cases hph : s.phase w with
    | readLocked =>
      by_cases hp : 1 ≤ s.permits
      · refine ⟨w, .acquire, rfl, ?_⟩
        unfold step
        rw [hph]
        dsimp only
        rw [if_pos hp]
        rfl
      · exact hreader w ho (by rw [hph]; rfl) (by omega)
    | readAcquired => exact ⟨w, .unlock, rfl, by unfold step; rw [hph]; rfl⟩
    | writeLocked =>
      by_cases hp : n ≤ s.permits
      · refine ⟨w, .acquire, rfl, ?_⟩
        unfold step
        rw [hph]
        dsimp only
        rw [if_pos hp]
        rfl
      · exact hreader w ho (by rw [hph]; rfl) (by omega)
    | writing => exact ⟨w, .release, rfl, by unfold step; rw [hph]; rfl⟩
    | writeReleased => exact ⟨w, .unlock, rfl, by unfold step; rw [hph]; rfl⟩
    | _ => rw [hph] at hw; cases hw
  | none =>
    have hown : (s.phase t).owns = false := by
      cases h : (s.phase t).owns with
      | false => rfl
      | true =>
        have h' := (hs.owner t).mpr h
        rw [ho] at h'
        cases h'
    cases hph : s.phase t with
    | idle => exact absurd hph ht
    | readCalled =>
      refine ⟨t, .lock, rfl, ?_⟩
      unfold step
      rw [hph]
      dsimp only
      rw [if_pos ho]
      rfl
    | writeCalled =>
      refine ⟨t, .lock, rfl, ?_⟩
      unfold step
      rw [hph]
      dsimp only
      rw [if_pos ho]
      rfl
    | reading => exact ⟨t, .release, rfl, by unfold step; rw [hph]; rfl⟩
    | _ => rw [hph] at hown; cases hown

end Lib.ReadWriteLock
