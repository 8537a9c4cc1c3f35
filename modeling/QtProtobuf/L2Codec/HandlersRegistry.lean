import QtProtobuf.Core.ReadWriteLock

/-!
# The registry of the serialization handlers (`protobuf/qabstractprotobufserializer.cpp`)

One `HandlersRegistry` serves all threads. `registerHandler` takes the mutex and
the 64 permits of the semaphore, `findHandler` takes one permit and gives the
mutex back before it searches. Each step below is one call on the mutex, the
semaphore or the `unordered_map`; steps of different threads come in any order.
`registry[userType] = …` is two of them: `operator []` puts an empty handler there
first.

* `lock_step`: the lock is the read-write lock of `Core.ReadWriteLock`.
* `registry_race_free`: no thread is at the map while another one changes it.
* `registry_returns`: every call returns.
* `registry_linearizable`: calls and returns are those of a map that each call
  uses at once.
-/
namespace QtProtobuf.HandlersRegistry

open Lib

def MaximumSimultaniousThreads : Nat := 64

inductive Call (H : Type) where
  | findHandler (userType : Int)
  | registerHandler (userType : Int) (handlers : H)

/-- What a thread has done of its call. -/
inductive Pc (H : Type) where
  | idle
  | findCalled (userType : Int)
  | findLocked (userType : Int)
  | findAcquired (userType : Int)
  | findUnlocked (userType : Int)
  | found (userType : Int) (isFound : Bool)
  | findCopied (handler : H)
  | registerCalled (userType : Int) (handlers : H)
  | registerLocked (userType : Int) (handlers : H)
  | registerAcquired (userType : Int) (handlers : H)
  | registerInserted (userType : Int) (handlers : H)
  | registerAssigned
  | registerReleased

inductive Action (H : Type) where
  | call (c : Call H)
  | lock | acquire | unlock | release
  | find | copy | insert | assign

/-- mirrors src/protobuf/qabstractprotobufserializer.cpp:43-78: the mutex with its
owner, the permits, the map, and the threads. -/
structure State (T H : Type) where
  pc : T → Pc H
  writeLock : Option T
  readLock : Nat
  registry : Int → Option H

variable {T H : Type} [DecidableEq T]

def State.new : State T H := ⟨fun _ => .idle, none, MaximumSimultaniousThreads, fun _ => none⟩

def State.set (s : State T H) (t : T) (p : Pc H) : State T H := { s with pc := Function.update s.pc t p }

/-- `m_registry[userType]` becomes `handlers`. -/
def State.put (s : State T H) (userType : Int) (handlers : H) : State T H :=
  { s with registry := Function.update s.registry userType (some handlers) }

/-- mirrors src/protobuf/qabstractprotobufserializer.cpp:49-67: one step of the
thread `t`. Locals are destroyed in reverse order: the releaser before the locker. -/
def step (empty : H) (s : State T H) (t : T) (a : Action H) : Option (State T H) :=
  match a, s.pc t with
  | .call (.findHandler k), .idle => some (s.set t (.findCalled k))
  | .lock, .findCalled k =>
    if s.writeLock = none then some { s.set t (.findLocked k) with writeLock := some t } else none
  | .acquire, .findLocked k =>
    if 1 ≤ s.readLock then some { s.set t (.findAcquired k) with readLock := s.readLock - 1 } else none
  | .unlock, .findAcquired k => some { s.set t (.findUnlocked k) with writeLock := none }
  | .find, .findUnlocked k => some (s.set t (.found k (s.registry k).isSome))
  | .copy, .found k isFound =>
    some (s.set t (.findCopied (if isFound then (s.registry k).getD empty else empty)))
  | .release, .findCopied _ => some { s.set t .idle with readLock := s.readLock + 1 }
  | .call (.registerHandler k h), .idle => some (s.set t (.registerCalled k h))
  | .lock, .registerCalled k h =>
    if s.writeLock = none then some { s.set t (.registerLocked k h) with writeLock := some t } else none
  | .acquire, .registerLocked k h =>
    if MaximumSimultaniousThreads ≤ s.readLock then
      some { s.set t (.registerAcquired k h) with readLock := s.readLock - MaximumSimultaniousThreads }
    else none
  | .insert, .registerAcquired k h =>
    some ((s.put k ((s.registry k).getD empty)).set t (.registerInserted k h))
  | .assign, .registerInserted k h => some ((s.put k h).set t .registerAssigned)
  | .release, .registerAssigned =>
    some { s.set t .registerReleased with readLock := s.readLock + MaximumSimultaniousThreads }
  | .unlock, .registerReleased => some { s.set t .idle with writeLock := none }
  | _, _ => none

/-- Calls, and returns with what `findHandler` returns. -/
inductive Event (T H : Type) where
  | call (t : T) (c : Call H)
  | returned (t : T) (result : Option H)

/-- What a step shows to the callers. -/
def observe (s : State T H) (t : T) (a : Action H) : Option (Event T H) :=
  match a, s.pc t with
  | .call c, _ => some (.call t c)
  | .release, .findCopied handler => some (.returned t (some handler))
  | .unlock, .registerReleased => some (.returned t none)
  | _, _ => none

/-- The registry, from its construction on. -/
def registryLts (T H : Type) [DecidableEq T] (empty : H) : LTS (State T H) (Option (Event T H)) where
  init s := s = .new
  step s e s' := ∃ t a, step empty s t a = some s' ∧ observe s t a = e

theorem run_of_exec {empty : H} {s s' : State T H} {ls : List (T × Action H)}
    (h : exec (fun s l => step empty s l.1 l.2) s ls = some s') :
    ∃ es, (registryLts T H empty).Run s es s' := by
  induction ls generalizing s with
  | nil =>
    cases h
    exact ⟨[], .nil _⟩
  | cons l ls ih =>
    obtain ⟨s₁, h₁, h₂⟩ := Option.bind_eq_some_iff.mp h
    obtain ⟨es, hr⟩ := ih h₂
    exact ⟨_, .cons ⟨l.1, l.2, h₁, rfl⟩ hr⟩

/-! ## The lock -/

namespace Pc

def phase : Pc H → ReadWriteLock.Phase
  | idle => .idle
  | findCalled _ => .readCalled
  | findLocked _ => .readLocked
  | findAcquired _ => .readAcquired
  | findUnlocked _ | found _ _ | findCopied _ => .reading
  | registerCalled _ _ => .writeCalled
  | registerLocked _ _ => .writeLocked
  | registerAcquired _ _ | registerInserted _ _ | registerAssigned => .writing
  | registerReleased => .writeReleased

/-- The steps up to the return. -/
def remaining : Pc H → Nat
  | idle => 0
  | findCalled _ | registerCalled _ _ => 6
  | findLocked _ | registerLocked _ _ => 5
  | findAcquired _ | registerAcquired _ _ => 4
  | findUnlocked _ | registerInserted _ _ => 3
  | found _ _ | registerAssigned => 2
  | findCopied _ | registerReleased => 1

end Pc

def State.toLock (s : State T H) : ReadWriteLock.State T := ⟨fun t => (s.pc t).phase, s.writeLock, s.readLock⟩

/-- The steps, one by one, with what each of them found. -/
inductive Stepped (empty : H) (s : State T H) (t : T) : Action H → State T H → Prop
  | callFind {k : Int} (hp : s.pc t = .idle) :
    Stepped empty s t (.call (.findHandler k)) (s.set t (.findCalled k))
  | lockFind {k : Int} (hp : s.pc t = .findCalled k) (ho : s.writeLock = none) :
    Stepped empty s t .lock { s.set t (.findLocked k) with writeLock := some t }
  | acquireFind {k : Int} (hp : s.pc t = .findLocked k) (hr : 1 ≤ s.readLock) :
    Stepped empty s t .acquire { s.set t (.findAcquired k) with readLock := s.readLock - 1 }
  | unlockFind {k : Int} (hp : s.pc t = .findAcquired k) :
    Stepped empty s t .unlock { s.set t (.findUnlocked k) with writeLock := none }
  | find {k : Int} (hp : s.pc t = .findUnlocked k) :
    Stepped empty s t .find (s.set t (.found k (s.registry k).isSome))
  | copy {k : Int} {isFound : Bool} (hp : s.pc t = .found k isFound) : Stepped empty s t .copy
    (s.set t (.findCopied (if isFound then (s.registry k).getD empty else empty)))
  | releaseFind {handler : H} (hp : s.pc t = .findCopied handler) :
    Stepped empty s t .release { s.set t .idle with readLock := s.readLock + 1 }
  | callRegister {k : Int} {h : H} (hp : s.pc t = .idle) :
    Stepped empty s t (.call (.registerHandler k h)) (s.set t (.registerCalled k h))
  | lockRegister {k : Int} {h : H} (hp : s.pc t = .registerCalled k h) (ho : s.writeLock = none) :
    Stepped empty s t .lock { s.set t (.registerLocked k h) with writeLock := some t }
  | acquireRegister {k : Int} {h : H} (hp : s.pc t = .registerLocked k h)
    (hr : MaximumSimultaniousThreads ≤ s.readLock) : Stepped empty s t .acquire
    { s.set t (.registerAcquired k h) with readLock := s.readLock - MaximumSimultaniousThreads }
  | insert {k : Int} {h : H} (hp : s.pc t = .registerAcquired k h) : Stepped empty s t .insert
    ((s.put k ((s.registry k).getD empty)).set t (.registerInserted k h))
  | assign {k : Int} {h : H} (hp : s.pc t = .registerInserted k h) :
    Stepped empty s t .assign ((s.put k h).set t .registerAssigned)
  | releaseRegister (hp : s.pc t = .registerAssigned) : Stepped empty s t .release
    { s.set t .registerReleased with readLock := s.readLock + MaximumSimultaniousThreads }
  | unlockRegister (hp : s.pc t = .registerReleased) :
    Stepped empty s t .unlock { s.set t .idle with writeLock := none }

theorem step_inv {empty : H} {s s' : State T H} {t : T} {a : Action H} (h : step empty s t a = some s') :
    Stepped empty s t a s' := by
  unfold step at h
  split at h
  all_goals rename_i hp
  · cases h; exact .callFind hp
  · split at h <;> cases h
    exact .lockFind hp ‹_›
  · split at h <;> cases h
    exact .acquireFind hp ‹_›
  · cases h; exact .unlockFind hp
  · cases h; exact .find hp
  · cases h; exact .copy hp
  · cases h; exact .releaseFind hp
  · cases h; exact .callRegister hp
  · split at h <;> cases h
    exact .lockRegister hp ‹_›
  · split at h <;> cases h
    exact .acquireRegister hp ‹_›
  · cases h; exact .insert hp
  · cases h; exact .assign hp
  · cases h; exact .releaseRegister hp
  · cases h; exact .unlockRegister hp
  · cases h

@[simp] theorem set_pc (s : State T H) (t u : T) (p : Pc H) :
    (s.set t p).pc u = if u = t then p else s.pc u := by
  unfold State.set
  by_cases h : u = t
  · subst h
    simp
  · simp [h]

theorem toLock_set (s : State T H) (t : T) (p : Pc H) :
    (s.set t p).toLock = s.toLock.set t p.phase := by
  have h : (fun u => ((s.set t p).pc u).phase) = (s.toLock.set t p.phase).phase := by
    funext u
    rw [set_pc, ReadWriteLock.set_phase]
    split <;> rfl
  show (⟨_, _, _⟩ : ReadWriteLock.State T) = _
  rw [h]
  rfl

/-- A thread that stays where it is. -/
theorem toLock_set_same {s : State T H} {t : T} {p : Pc H} (h : p.phase = (s.pc t).phase) :
    (s.set t p).toLock = s.toLock := by
  rw [toLock_set]
  unfold ReadWriteLock.State.set
  rw [h]
  show (⟨Function.update s.toLock.phase t (s.toLock.phase t), _, _⟩ : ReadWriteLock.State T) = _
  rw [Function.update_eq_self]

/-- A step that changes the mutex or the permits, too. -/
theorem toLock_set_with (s : State T H) (t : T) (p : Pc H) (o : Option T) (n : Nat) :
    ({ s.set t p with writeLock := o, readLock := n } : State T H).toLock =
      { s.toLock.set t p.phase with owner := o, permits := n } :=
  congrArg (fun l : ReadWriteLock.State T => { l with owner := o, permits := n }) (toLock_set s t p)

/-- **The lock.** A step of the registry is one of the lock, or the lock does not
notice it. -/
theorem lock_step {empty : H} {s s' : State T H} {t : T} {a : Action H}
    (h : step empty s t a = some s') : s'.toLock = s.toLock ∨
      ∃ b, ReadWriteLock.step MaximumSimultaniousThreads s.toLock t b = some s'.toLock := by
  have hphase : ∀ {p}, s.pc t = p → s.toLock.phase t = p.phase := fun hp => by
    rw [← hp]
    rfl
  have hstep : ∀ {p q : Pc H} {o : Option T} {n : Nat} (b : ReadWriteLock.Action), s.pc t = p →
      (s.toLock.phase t = p.phase → ReadWriteLock.step MaximumSimultaniousThreads s.toLock t b =
        some { s.toLock.set t q.phase with owner := o, permits := n }) →
      ∃ b, ReadWriteLock.step MaximumSimultaniousThreads s.toLock t b =
        some ({ s.set t q with writeLock := o, readLock := n } : State T H).toLock := fun b hp hb =>
    ⟨b, by rw [toLock_set_with]; exact hb (hphase hp)⟩
  unfold ReadWriteLock.step at hstep
  cases step_inv h with
  | callFind hp =>
    exact .inr (hstep .callRead hp fun h => by rw [h]; rfl)
  | callRegister hp =>
    exact .inr (hstep .callWrite hp fun h => by rw [h]; rfl)
  | lockFind hp ho => exact .inr (hstep .lock hp fun h => by rw [h]; exact if_pos ho)
  | lockRegister hp ho => exact .inr (hstep .lock hp fun h => by rw [h]; exact if_pos ho)
  | acquireFind hp hr => exact .inr (hstep .acquire hp fun h => by rw [h]; exact if_pos hr)
  | acquireRegister hp hr => exact .inr (hstep .acquire hp fun h => by rw [h]; exact if_pos hr)
  | unlockFind hp => exact .inr (hstep .unlock hp fun h => by rw [h]; rfl)
  | unlockRegister hp => exact .inr (hstep .unlock hp fun h => by rw [h]; rfl)
  | releaseFind hp => exact .inr (hstep .release hp fun h => by rw [h]; rfl)
  | releaseRegister hp => exact .inr (hstep .release hp fun h => by rw [h]; rfl)
  | find hp => exact .inl (toLock_set_same (by rw [hp]; rfl))
  | copy hp => exact .inl (toLock_set_same (by rw [hp]; rfl))
  | @insert k _ hp =>
    have hsame : (s.put k ((s.registry k).getD empty)).pc t = s.pc t := rfl
    exact .inl (toLock_set_same (by rw [hsame, hp]; rfl))
  | @assign k handlers hp =>
    have hsame : (s.put k handlers).pc t = s.pc t := rfl
    exact .inl (toLock_set_same (by rw [hsame, hp]; rfl))

/-! ## Exclusion -/

section
variable [Fintype T] {empty : H}

def Inv (s : State T H) : Prop := ReadWriteLock.Inv MaximumSimultaniousThreads s.toLock

theorem inv_step {s s' : State T H} {t : T} {a : Action H} (hs : Inv s) (h : step empty s t a = some s') :
    Inv s' := by
  unfold Inv
  rcases lock_step h with he | ⟨b, hb⟩
  · rw [he]
    exact hs
  · exact ReadWriteLock.inv_step hs hb

omit [DecidableEq T] in
theorem inv_new : Inv (State.new : State T H) := ReadWriteLock.Inv.new _

theorem inv_reachable {s : State T H} (hr : (registryLts T H empty).Reachable s) : Inv s := by
  have hind : (registryLts T H empty).Inductive Inv :=
    ⟨fun s h => h ▸ inv_new, fun s e s' hs ⟨t, a, h, _⟩ => inv_step hs h⟩
  exact hind.reachable hr

/-- The thread is about to change the map. -/
def Pc.Writes : Pc H → Prop
  | registerAcquired _ _ | registerInserted _ _ => True
  | _ => False

/-- The thread is at the map, or has an iterator into it. -/
def Pc.Reads : Pc H → Prop
  | findUnlocked _ | found _ _ => True
  | _ => False

omit [DecidableEq T] [Fintype T] in
theorem Pc.Writes.phase_eq {p : Pc H} (h : p.Writes) : p.phase = .writing := by
  cases p <;> first | rfl | cases h

omit [DecidableEq T] [Fintype T] in
theorem Pc.Reads.phase_eq {p : Pc H} (h : p.Reads) : p.phase = .reading := by
  cases p <;> first | rfl | cases h

/-- While a thread changes the map, no other one is at it. -/
theorem Inv.exclusive {s : State T H} (hs : Inv s) {t u : T} (htu : t ≠ u) (ht : (s.pc t).Writes) :
    ¬ (s.pc u).Reads ∧ ¬ (s.pc u).Writes := by
  obtain ⟨hread, -, hwrite⟩ := ReadWriteLock.Inv.exclusive (by decide) hs htu ht.phase_eq
  exact ⟨fun h => hread h.phase_eq, fun h => hwrite h.phase_eq⟩

/-- **No race.** Whatever the calls of the threads and their order, at most one
thread owns the mutex, the permits there and those in use are 64, and while a
thread changes the map no other one reads or changes it. -/
theorem registry_race_free {s : State T H} (hr : (registryLts T H empty).Reachable s) :
    (∀ t, s.writeLock = some t ↔ (s.pc t).phase.owns = true) ∧
      s.readLock + ∑ t, (s.pc t).phase.held MaximumSimultaniousThreads = MaximumSimultaniousThreads ∧
      ∀ t u, t ≠ u → (s.pc t).Writes → ¬ (s.pc u).Reads ∧ ¬ (s.pc u).Writes := by
  have hs := inv_reachable hr
  exact ⟨hs.owner, hs.permits, fun t u htu ht => hs.exclusive htu ht⟩

/-- One thread registers a handler, another one has called `findHandler`. -/
def registering : List (Bool × Action Nat) :=
  [(true, .call (.registerHandler 1 7)), (true, .lock), (false, .call (.findHandler 1)), (true, .acquire),
    (true, .insert)]

theorem registering_run :
    (exec (fun s l => step 0 s l.1 l.2) (.new : State Bool Nat) registering).isSome = true := rfl

/-- The state then. -/
def registeringState : State Bool Nat := (exec (fun s l => step 0 s l.1 l.2) .new registering).get registering_run

theorem registeringState_run : ∃ es, (registryLts Bool Nat 0).Run .new es registeringState :=
  run_of_exec (Option.some_get registering_run).symm

theorem registeringState_reachable : (registryLts Bool Nat 0).Reachable registeringState := by
  obtain ⟨es, hr⟩ := registeringState_run
  exact ⟨.new, es, rfl, hr⟩

theorem registry_race_free_registering :
    (∀ t, registeringState.writeLock = some t ↔ (registeringState.pc t).phase.owns = true) ∧
      registeringState.readLock +
        ∑ t, (registeringState.pc t).phase.held MaximumSimultaniousThreads = MaximumSimultaniousThreads ∧
      ∀ t u, t ≠ u → (registeringState.pc t).Writes →
        ¬ (registeringState.pc u).Reads ∧ ¬ (registeringState.pc u).Writes :=
  registry_race_free registeringState_reachable

/-! ## Every call returns -/

/-- The steps that the threads have to do. -/
def State.todo (s : State T H) : Nat := ∑ t, (s.pc t).remaining

def Action.isCall : Action H → Bool
  | call _ => true
  | _ => false

theorem todo_set (s : State T H) (t : T) (p : Pc H) :
    (s.set t p).todo + (s.pc t).remaining = s.todo + p.remaining := by
  have hne : ∀ u ∈ Finset.univ.erase t, ((s.set t p).pc u).remaining = (s.pc u).remaining := fun u hu => by
    rw [set_pc, if_neg (Finset.ne_of_mem_erase hu)]
  have h := Finset.add_sum_erase Finset.univ (fun u => (s.pc u).remaining) (Finset.mem_univ t)
  have h' := Finset.add_sum_erase Finset.univ (fun u => ((s.set t p).pc u).remaining) (Finset.mem_univ t)
  rw [Finset.sum_congr rfl hne, set_pc, if_pos rfl] at h'
  unfold State.todo
  omega

/-- A step of a call leaves one step less. -/
theorem todo_step {s s' : State T H} {t : T} {a : Action H} (h : step empty s t a = some s')
    (ha : a.isCall = false) : s'.todo + 1 = s.todo := by
  have hset : ∀ p : Pc H, p.remaining + 1 = (s.pc t).remaining → (s.set t p).todo + 1 = s.todo := fun p hp => by
    have h := todo_set s t p
    omega
  cases step_inv h with
  | callFind => cases ha
  | callRegister => cases ha
  | lockFind hp => exact hset _ (by rw [hp]; rfl)
  | acquireFind hp => exact hset _ (by rw [hp]; rfl)
  | unlockFind hp => exact hset _ (by rw [hp]; rfl)
  | find hp => exact hset _ (by rw [hp]; rfl)
  | copy hp => exact hset _ (by rw [hp]; rfl)
  | releaseFind hp => exact hset _ (by rw [hp]; rfl)
  | lockRegister hp => exact hset _ (by rw [hp]; rfl)
  | acquireRegister hp => exact hset _ (by rw [hp]; rfl)
  | insert hp => exact hset (.registerInserted _ _) (by rw [hp]; rfl)
  | assign hp => exact hset .registerAssigned (by rw [hp]; rfl)
  | releaseRegister hp => exact hset _ (by rw [hp]; rfl)
  | unlockRegister hp => exact hset _ (by rw [hp]; rfl)

/-- Some thread that has not returned can make a step. -/
theorem Inv.progress {s : State T H} (hs : Inv s) (empty : H) {t : T} (ht : s.pc t ≠ .idle) :
    ∃ u a, a.isCall = false ∧ (step empty s u a).isSome = true := by
  have hphase : s.toLock.phase t ≠ .idle := by
    show (s.pc t).phase ≠ .idle
    cases hp : s.pc t <;> first | exact absurd hp ht | exact fun h => by cases h
  obtain ⟨u, b, hb, hsome⟩ := ReadWriteLock.Inv.progress (by decide) hs hphase
  obtain ⟨hlock, hread, hwrite, hidle⟩ := ReadWriteLock.guard hb hsome
  have hu : ∀ p, s.pc u = p → s.toLock.phase u = p.phase := fun p hp => by rw [← hp]; rfl
  have hif : ∀ {c : Prop} [Decidable c] {s' : State T H}, c →
      (if c then some s' else none).isSome = true := fun h => by rw [if_pos h]; rfl
  unfold step
  cases hp : s.pc u with
  | idle => exact absurd (hu _ hp) hidle
  | findCalled k => exact ⟨u, .lock, rfl, by rw [hp]; exact hif (hlock (.inl (hu _ hp)))⟩
  | findLocked k => exact ⟨u, .acquire, rfl, by rw [hp]; exact hif (hread (hu _ hp))⟩
  | findAcquired k => exact ⟨u, .unlock, rfl, by rw [hp]; rfl⟩
  | findUnlocked k => exact ⟨u, .find, rfl, by rw [hp]; rfl⟩
  | found k b => exact ⟨u, .copy, rfl, by rw [hp]; rfl⟩
  | findCopied h => exact ⟨u, .release, rfl, by rw [hp]; rfl⟩
  | registerCalled k h => exact ⟨u, .lock, rfl, by rw [hp]; exact hif (hlock (.inr (hu _ hp)))⟩
  | registerLocked k h => exact ⟨u, .acquire, rfl, by rw [hp]; exact hif (hwrite (hu _ hp))⟩
  | registerAcquired k h => exact ⟨u, .insert, rfl, by rw [hp]; rfl⟩
  | registerInserted k h => exact ⟨u, .assign, rfl, by rw [hp]; rfl⟩
  | registerAssigned => exact ⟨u, .release, rfl, by rw [hp]; rfl⟩
  | registerReleased => exact ⟨u, .unlock, rfl, by rw [hp]; rfl⟩

/-- `n` steps of calls that are under way, and no new call. -/
inductive Works (empty : H) : State T H → Nat → State T H → Prop
  | nil (s : State T H) : Works empty s 0 s
  | cons {s s₁ s' : State T H} {t : T} {a : Action H} {n : Nat} (h : step empty s t a = some s₁)
    (ha : a.isCall = false) (hr : Works empty s₁ n s') : Works empty s (n + 1) s'

theorem Works.keeps {s s' : State T H} {n : Nat} (h : Works empty s n s') (hs : Inv s) :
    Inv s' ∧ s'.todo + n = s.todo := by
  induction h with
  | nil => exact ⟨hs, rfl⟩
  | cons hstep ha _ ih =>
    obtain ⟨hs', hn⟩ := ih (inv_step hs hstep)
    have h := todo_step hstep ha
    exact ⟨hs', by omega⟩

omit [DecidableEq T] in
theorem idle_of_todo {s : State T H} (h : s.todo = 0) (t : T) : s.pc t = .idle := by
  have h0 := Finset.sum_eq_zero_iff.mp h t (Finset.mem_univ t)
  cases hp : s.pc t <;> rw [hp] at h0 <;> first | rfl | cases h0

omit [DecidableEq T] in
theorem exists_todo {s : State T H} (h : s.todo ≠ 0) : ∃ t, s.pc t ≠ .idle := by
  obtain ⟨t, -, ht⟩ := Finset.exists_ne_zero_of_sum_ne_zero h
  exact ⟨t, fun hp => ht (by rw [hp]; rfl)⟩

/-- All the calls that are under way, to their ends. -/
theorem Inv.works {s : State T H} (hs : Inv s) (empty : H) :
    ∃ s', Works empty s s.todo s' ∧ ∀ t, s'.pc t = .idle := by
  generalize hn : s.todo = n
  induction n generalizing s with
  | zero => exact ⟨s, .nil s, idle_of_todo hn⟩
  | succ n ih =>
    obtain ⟨t, ht⟩ := exists_todo (s := s) (by omega)
    obtain ⟨u, a, ha, hsome⟩ := hs.progress empty ht
    obtain ⟨s₁, h₁⟩ := Option.isSome_iff_exists.mp hsome
    have htodo := todo_step h₁ ha
    obtain ⟨s', hw, hidle⟩ := ih (inv_step hs h₁) (by omega)
    exact ⟨s', .cons h₁ ha hw, hidle⟩

/-- **Every call returns.** From any reachable state, and in any order of their
steps, the calls under way return after a number of steps that the state gives:
no order of steps blocks or goes on for ever. -/
theorem registry_returns {s s' : State T H} {n : Nat} (hr : (registryLts T H empty).Reachable s)
    (h : Works empty s n s') :
    n ≤ s.todo ∧ ∃ s'', Works empty s' (s.todo - n) s'' ∧ ∀ t, s''.pc t = .idle := by
  obtain ⟨hs, hn⟩ := h.keeps (inv_reachable hr)
  obtain ⟨s'', hw, hidle⟩ := hs.works empty
  refine ⟨by omega, s'', ?_, hidle⟩
  have he : s.todo - n = s'.todo := by omega
  rw [he]
  exact hw

theorem registry_returns_registering : 0 ≤ registeringState.todo ∧
    ∃ s'', Works 0 registeringState (registeringState.todo - 0) s'' ∧ ∀ t, s''.pc t = .idle :=
  registry_returns registeringState_reachable (.nil _)

end

/-! ## One map -/

/-- A call of the abstract map: it is called, it has its effect at once, it returns. -/
inductive CallState (H : Type) where
  | idle
  | pending (c : Call H)
  | done (result : Option H)

/-- A map whose keys have the handler `empty` at first. -/
structure AtomicMap (T H : Type) where
  calls : T → CallState H
  handlers : Int → H

def AtomicMap.set (m : AtomicMap T H) (t : T) (c : CallState H) : AtomicMap T H :=
  { m with calls := Function.update m.calls t c }

inductive AtomicMap.Step : AtomicMap T H → Option (Event T H) → AtomicMap T H → Prop
  | call {m : AtomicMap T H} {t : T} (c : Call H) (h : m.calls t = .idle) :
    Step m (some (.call t c)) (m.set t (.pending c))
  | find {m : AtomicMap T H} {t : T} {k : Int} (h : m.calls t = .pending (.findHandler k)) :
    Step m none (m.set t (.done (some (m.handlers k))))
  | register {m : AtomicMap T H} {t : T} {k : Int} {v : H}
    (h : m.calls t = .pending (.registerHandler k v)) :
    Step m none ({ m with handlers := Function.update m.handlers k v }.set t (.done none))
  | returned {m : AtomicMap T H} {t : T} {r : Option H} (h : m.calls t = .done r) :
    Step m (some (.returned t r)) (m.set t .idle)

def atomicLts (T H : Type) [DecidableEq T] (empty : H) : LTS (AtomicMap T H) (Option (Event T H)) where
  init m := m = ⟨fun _ => .idle, fun _ => empty⟩
  step := AtomicMap.Step

/-- The state of the call that a thread of the registry is in. -/
def Pc.toCall (empty : H) (registry : Int → Option H) : Pc H → CallState H
  | idle => .idle
  | findCalled k | findLocked k | findAcquired k | findUnlocked k => .pending (.findHandler k)
  | found k _ => .done (some ((registry k).getD empty))
  | findCopied handler => .done (some handler)
  | registerCalled k h | registerLocked k h | registerAcquired k h | registerInserted k h =>
    .pending (.registerHandler k h)
  | registerAssigned | registerReleased => .done none

/-- What `find` found, is still there. -/
def Pc.Current (registry : Int → Option H) : Pc H → Prop
  | found k isFound => isFound = (registry k).isSome
  | _ => True

/-- The registry and the map. -/
structure Represents [Fintype T] (empty : H) (s : State T H) (m : AtomicMap T H) : Prop where
  inv : Inv s
  handlers : ∀ k, m.handlers k = (s.registry k).getD empty
  calls : ∀ t, m.calls t = (s.pc t).toCall empty s.registry
  current : ∀ t, (s.pc t).Current s.registry

theorem AtomicMap.set_calls (m : AtomicMap T H) (t u : T) (c : CallState H) :
    (m.set t c).calls u = if u = t then c else m.calls u := by
  unfold AtomicMap.set
  by_cases h : u = t
  · subst h
    simp
  · simp [h]

section
variable [Fintype T] {empty : H} {s : State T H} {m : AtomicMap T H}

/-- A step that leaves the map alone, and the call of its thread in a state `c`. -/
theorem Represents.set {s' : State T H} {t : T} {p : Pc H} (h : Represents empty s m) (hi : Inv s')
    (hpc : s'.pc = (s.set t p).pc) (hreg : s'.registry = s.registry) (hp : p.Current s.registry) :
    Represents empty s' (m.set t (p.toCall empty s.registry)) where
  inv := hi
  handlers k := by rw [hreg]; exact h.handlers k
  calls u := by
    rw [AtomicMap.set_calls, hpc, set_pc, hreg]
    split
    · rfl
    · exact h.calls u
  current u := by
    rw [hpc, set_pc, hreg]
    split
    · exact hp
    · exact h.current u

/-- A step inside a call. -/
theorem Represents.stay {s' : State T H} {t : T} {p : Pc H} (h : Represents empty s m) (hi : Inv s')
    (hpc : s'.pc = (s.set t p).pc) (hreg : s'.registry = s.registry) (hp : p.Current s.registry)
    (hc : p.toCall empty s.registry = (s.pc t).toCall empty s.registry) : Represents empty s' m := by
  have hset := h.set hi hpc hreg hp
  have hm : m.set t (p.toCall empty s.registry) = m := by
    rw [hc, ← h.calls t]
    unfold AtomicMap.set
    rw [Function.update_eq_self]
  rwa [hm] at hset

omit [DecidableEq T] [Fintype T] in
/-- A thread that is not at the map does not notice its changes. -/
theorem Pc.toCall_of_not_reads {p : Pc H} (h : ¬ p.Reads) (empty : H) (r r' : Int → Option H) :
    p.toCall empty r = p.toCall empty r' ∧ p.Current r := by
  cases p <;> first | exact ⟨rfl, trivial⟩ | exact absurd trivial h

/-- A thread that writes puts `v` for `k`. -/
theorem Represents.put {t : T} {k : Int} {v : H} {p : Pc H} (h : Represents empty s m)
    (hw : (s.pc t).Writes) (hi : Inv ((s.put k v).set t p)) (hp : ¬ p.Reads) :
    Represents empty ((s.put k v).set t p)
      ({ m with handlers := Function.update m.handlers k v }.set t (p.toCall empty s.registry)) where
  inv := hi
  handlers k' := by
    show Function.update m.handlers k v k' = (Function.update s.registry k (some v) k').getD empty
    by_cases hk : k' = k
    · subst hk
      simp
    · rw [Function.update_of_ne hk, Function.update_of_ne hk]
      exact h.handlers k'
  calls u := by
    rw [AtomicMap.set_calls, set_pc]
    by_cases hu : u = t
    · rw [if_pos hu, if_pos hu]
      exact (p.toCall_of_not_reads hp empty _ _).1
    · rw [if_neg hu, if_neg hu]
      obtain ⟨hread, -⟩ := h.inv.exclusive (Ne.symm hu) hw
      exact (h.calls u).trans (Pc.toCall_of_not_reads hread empty _ _).1
  current u := by
    rw [set_pc]
    by_cases hu : u = t
    · rw [if_pos hu]
      exact (p.toCall_of_not_reads hp empty _ s.registry).2
    · rw [if_neg hu]
      obtain ⟨hread, -⟩ := h.inv.exclusive (Ne.symm hu) hw
      exact (Pc.toCall_of_not_reads hread empty _ s.registry).2

/-- **One step.** It is a step of the map with the same call or return, or none. -/
theorem Represents.step {s' : State T H} {t : T} {a : Action H} (h : Represents empty s m)
    (hs : step empty s t a = some s') : ∃ ls m', (atomicLts T H empty).Run m ls m' ∧
      ls.reduceOption = [observe s t a].reduceOption ∧ Represents empty s' m' := by
  have hi := inv_step h.inv hs
  have hcall : ∀ {p}, s.pc t = p → m.calls t = p.toCall empty s.registry := fun hp => by
    rw [h.calls t, hp]
  have hnone : ∀ {a : Action H}, observe s t a = none →
      ([] : List (Option (Event T H))).reduceOption = [observe s t a].reduceOption := fun ho => by
    rw [ho]
    rfl
  have hone : ∀ {a : Action H} {e : Option (Event T H)} {m'}, (atomicLts T H empty).step m e m' →
      observe s t a = e → Represents empty s' m' → ∃ ls m', (atomicLts T H empty).Run m ls m' ∧
        ls.reduceOption = [observe s t a].reduceOption ∧ Represents empty s' m' := fun hm ho hr =>
    ⟨[_], _, .cons hm (.nil _), by rw [ho], hr⟩
  have hstay : ∀ {a : Action H} {p q : Pc H}, s.pc t = p → observe s t a = none → s'.pc = (s.set t q).pc →
      s'.registry = s.registry → q.Current s.registry →
      q.toCall empty s.registry = p.toCall empty s.registry →
      ∃ ls m', (atomicLts T H empty).Run m ls m' ∧
        ls.reduceOption = [observe s t a].reduceOption ∧ Represents empty s' m' :=
    fun hp ho hpc hreg hq hc => ⟨[], m, .nil m, hnone ho, h.stay hi hpc hreg hq (by rw [hc, hp])⟩
  have hobs : ∀ {a : Action H} {p}, s.pc t = p → observe s t a = observe { s with pc := fun _ => p } t a :=
    fun hp => by
      unfold observe
      rw [hp]
  cases step_inv hs with
  | callFind hp =>
    exact hone (.call (.findHandler _) (hcall hp)) rfl (h.set hi rfl rfl trivial)
  | callRegister hp =>
    exact hone (.call (.registerHandler _ _) (hcall hp)) rfl (h.set hi rfl rfl trivial)
  | lockFind hp => exact hstay hp (hobs hp) rfl rfl trivial rfl
  | acquireFind hp => exact hstay hp (hobs hp) rfl rfl trivial rfl
  | unlockFind hp => exact hstay hp (hobs hp) rfl rfl trivial rfl
  | lockRegister hp => exact hstay hp (hobs hp) rfl rfl trivial rfl
  | acquireRegister hp => exact hstay hp (hobs hp) rfl rfl trivial rfl
  | releaseRegister hp => exact hstay hp (hobs hp) rfl rfl trivial rfl
  | @find k hp =>
    have hset := h.set (p := .found k (s.registry k).isSome) hi rfl rfl rfl
    refine hone (.find (hcall hp)) (hobs hp) ?_
    rw [h.handlers k]
    exact hset
  | @copy k isFound hp =>
    have hcur := h.current t
    rw [hp] at hcur
    have hvalue : (if isFound then (s.registry k).getD empty else empty) = (s.registry k).getD empty := by
      rw [show isFound = (s.registry k).isSome from hcur]
      cases s.registry k <;> rfl
    refine hstay (q := .findCopied _) hp (hobs hp) rfl rfl trivial ?_
    rw [hvalue]
    rfl
  | releaseFind hp => exact hone (.returned (hcall hp)) (hobs hp) (h.set hi rfl rfl trivial)
  | unlockRegister hp => exact hone (.returned (hcall hp)) (hobs hp) (h.set hi rfl rfl trivial)
  | @insert k v hp =>
    have hput := h.put (by rw [hp]; trivial) hi (fun h => h)
    have hm : ({ m with handlers := Function.update m.handlers k ((s.registry k).getD empty) }.set t
        ((Pc.registerInserted k v).toCall empty s.registry)) = m := by
      rw [← h.handlers k, Function.update_eq_self]
      unfold AtomicMap.set
      have hsame : (Pc.registerInserted k v).toCall empty s.registry = m.calls t := (hcall hp).symm
      rw [hsame, Function.update_eq_self]
    rw [hm] at hput
    exact ⟨[], m, .nil m, hnone (hobs hp), hput⟩
  | assign hp =>
    have hput := h.put (by rw [hp]; trivial) hi (fun h => h)
    exact hone (.register (hcall hp)) (hobs hp) hput

/-- **Linearizability.** Whatever the calls of the threads and the order of their
steps, the calls and returns, with what `findHandler` returned, are those of a map
that each call reads or changes in one step between its call and its return. -/
theorem registry_linearizable (empty : H) {s : State T H} {es : List (Option (Event T H))}
    (hr : (registryLts T H empty).Run .new es s) :
    ∃ es' m, (atomicLts T H empty).Run ⟨fun _ => .idle, fun _ => empty⟩ es' m ∧
      es'.reduceOption = es.reduceOption := by
  have hnew : Represents empty (State.new : State T H) ⟨fun _ => .idle, fun _ => empty⟩ :=
    ⟨inv_new, fun _ => rfl, fun _ => rfl, fun _ => trivial⟩
  obtain ⟨es', m, hrun, hes, -⟩ := hr.simulated (R := Represents empty)
    (fun s e s' m h hs => by
      obtain ⟨t, a, hstep, rfl⟩ := hs
      exact h.step hstep) hnew
  exact ⟨es', m, hrun, hes⟩

theorem registry_linearizable_registering : ∃ es es' m,
    (registryLts Bool Nat 0).Run .new es registeringState ∧
      (atomicLts Bool Nat 0).Run ⟨fun _ => .idle, fun _ => 0⟩ es' m ∧ es'.reduceOption = es.reduceOption := by
  obtain ⟨es, hr⟩ := registeringState_run
  obtain ⟨es', m, hrun, he⟩ := registry_linearizable 0 hr
  exact ⟨es, es', m, hr, hrun, he⟩

end

end QtProtobuf.HandlersRegistry
