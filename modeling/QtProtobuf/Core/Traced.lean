/-!
# Programs with exceptions and a record of events

`Traced E X S α`: a program that changes a state `S`, returns an `α` or stops
with an exception `X`, and records events `E`; the events before an exception
are kept.

`Runs f s a s'` says that `f` returns. The rules compose it (`Runs.bind`) and
take it apart (`Runs.bind_inv`, `Runs.while_inv`).

`Walk X T β` is an abstract program: it says where a program goes, not what it
computes, and stops as soon as the program would record an event that is not
good. `Sim` relates the two; a proof of it follows the text of the program
(`Sim.bind`, `Sim.whileM`). `Strays` says that it comes to a bad end or returns
outside of a region (`Strays.bind_inv`, `Strays.while_inv`).
-/
namespace Lib

structure Traced (E X S α : Type) where
  run : S → List E × Except X (α × S)

namespace Traced

variable {E X S α β : Type}

protected def pure (a : α) : Traced E X S α := ⟨fun s => ([], .ok (a, s))⟩

protected def bind (f : Traced E X S α) (g : α → Traced E X S β) : Traced E X S β :=
  ⟨fun s =>
    match f.run s with
    | (tr, .ok (a, s')) => (tr ++ ((g a).run s').1, ((g a).run s').2)
    | (tr, .error x) => (tr, .error x)⟩

instance : Monad (Traced E X S) where
  pure := Traced.pure
  bind := Traced.bind

def fail (x : X) : Traced E X S α := ⟨fun _ => ([], .error x)⟩

def emit (e : E) : Traced E X S Unit := ⟨fun s => ([e], .ok ((), s))⟩

def get : Traced E X S S := ⟨fun s => ([], .ok (s, s))⟩

/-- An operation on the state that may fail. -/
def attempt (op : S → S × Option X) : Traced E X S Unit :=
  ⟨fun s =>
    match op s with
    | (s', none) => ([], .ok ((), s'))
    | (_, some x) => ([], .error x)⟩

/-- A program that has run on a state of its own. -/
def lift (r : List E × Except X α) : Traced E X S α := ⟨fun s => (r.1, r.2.map fun a => (a, s))⟩

/-- `while (cond) body`, at most `n` rounds; then the exception `x`. -/
def whileM (x : X) (cond : S → Bool) (body : α → Traced E X S α) : Nat → α → Traced E X S α
  | 0, _ => fail x
  | n + 1, a => ⟨fun s =>
    if cond s then (Traced.bind (body a) (whileM x cond body n)).run s else ([], .ok (a, s))⟩

section Run
variable {f : Traced E X S α} {g : α → Traced E X S β} {s s' : S} {a : α} {tr : List E} {x : X}

theorem run_bind_ok (h : f.run s = (tr, .ok (a, s'))) :
    (f >>= g).run s = (tr ++ ((g a).run s').1, ((g a).run s').2) := by
  show (Traced.bind f g).run s = _
  simp only [Traced.bind, h]

theorem run_bind_error (h : f.run s = (tr, .error x)) : (f >>= g).run s = (tr, .error x) := by
  show (Traced.bind f g).run s = _
  simp only [Traced.bind, h]

variable {cond : S → Bool} {body : α → Traced E X S α} {n : Nat}

theorem run_while_true (h : cond s = true) :
    (whileM x cond body (n + 1) a).run s = (body a >>= whileM x cond body n).run s := by
  rw [whileM]
  exact if_pos h

theorem run_while_false (h : cond s = false) :
    (whileM x cond body (n + 1) a).run s = ([], .ok (a, s)) := by
  rw [whileM]
  exact if_neg (by rw [h]; exact Bool.false_ne_true)

end Run

/-! ## Returning -/

/-- `f` returns `a` and leaves `s'`. -/
def Runs (f : Traced E X S α) (s : S) (a : α) (s' : S) : Prop := (f.run s).2 = .ok (a, s')

variable {f : Traced E X S α} {g : α → Traced E X S β} {s s' s'' : S} {a c : α} {b : β} {x : X}

theorem Runs.pure (a : α) (s : S) : Runs (Pure.pure a : Traced E X S α) s a s := rfl

theorem Runs.emit (e : E) (s : S) : Runs (Traced.emit e : Traced E X S Unit) s () s := rfl

theorem Runs.get (s : S) : Runs (Traced.get : Traced E X S S) s s s := rfl

theorem Runs.attempt {op : S → S × Option X} (h : op s = (s', none)) :
    Runs (Traced.attempt op : Traced E X S Unit) s () s' := by
  unfold Runs Traced.attempt
  simp only [h]

theorem Runs.attempt_inv {op : S → S × Option X} {u : Unit}
    (h : Runs (Traced.attempt op : Traced E X S Unit) s u s') : op s = (s', none) := by
  unfold Runs Traced.attempt at h
  dsimp only at h
  split at h
  · rename_i s₁ ho
    cases h
    exact ho
  · cases h

theorem Runs.lift {r : List E × Except X α} (h : r.2 = .ok a) (s : S) : Runs (Traced.lift r) s a s := by
  unfold Runs Traced.lift
  simp only [h, Except.map]

theorem Runs.bind (hf : Runs f s a s') (hg : Runs (g a) s' b s'') : Runs (f >>= g) s b s'' := by
  unfold Runs at hf ⊢
  rw [run_bind_ok (Prod.ext rfl hf)]
  exact hg

theorem Runs.bind_inv (h : Runs (f >>= g) s b s'') :
    ∃ a s', Runs f s a s' ∧ Runs (g a) s' b s'' := by
  unfold Runs at h
  cases hf : (f.run s).2 with
  | error x =>
    rw [run_bind_error (Prod.ext rfl hf)] at h
    cases h
  | ok p =>
    rw [run_bind_ok (Prod.ext rfl hf)] at h
    exact ⟨p.1, p.2, hf, h⟩

theorem Runs.pure_inv (h : Runs (Pure.pure a : Traced E X S α) s c s') : c = a ∧ s' = s := by
  cases h; exact ⟨rfl, rfl⟩

theorem Runs.lift_inv {r : List E × Except X α} (h : Runs (Traced.lift r) s a s') :
    r.2 = .ok a ∧ s' = s := by
  unfold Runs Traced.lift at h
  cases hr : r.2 with
  | error x => simp only [hr, Except.map] at h; cases h
  | ok c => simp only [hr, Except.map] at h; cases h; exact ⟨rfl, rfl⟩

theorem Runs.det {a₁ a₂ : α} {s₁ s₂ : S} (h₁ : Runs f s a₁ s₁) (h₂ : Runs f s a₂ s₂) :
    a₁ = a₂ ∧ s₁ = s₂ := by
  have h := h₁.symm.trans h₂
  cases h
  exact ⟨rfl, rfl⟩

section While
variable {cond : S → Bool} {body : α → Traced E X S α} {n : Nat} {d : α}

/-- A loop that returns has kept what its body keeps, and its condition is false. -/
theorem Runs.while_inv {I : α → S → Prop} (hI : ∀ a s c s', I a s → cond s = true →
    Runs (body a) s c s' → I c s') (h : Runs (whileM x cond body n a) s d s') (h0 : I a s) :
    I d s' ∧ cond s' = false := by
  induction n generalizing a s with
  | zero => cases h
  | succ n ih =>
    cases hc : cond s with
    | true =>
      unfold Runs at h
      rw [run_while_true hc] at h
      obtain ⟨c, s₁, hb, hw⟩ := Runs.bind_inv h
      exact ih hw (hI _ _ _ _ h0 hc hb)
    | false =>
      unfold Runs at h
      rw [run_while_false hc] at h
      cases h
      exact ⟨h0, hc⟩

/-! ## The rounds of a loop -/

/-- The states in which the rounds of a loop begin. -/
def visited (cond : S → Bool) (body : α → Traced E X S α) : Nat → α → S → List S
  | 0, _, _ => []
  | n + 1, a, s =>
    if cond s then
      s :: match ((body a).run s).2 with
        | .ok (c, s') => visited cond body n c s'
        | .error _ => []
    else []

theorem visited_step (hc : cond s = true) (hb : Runs (body a) s c s') :
    visited cond body (n + 1) a s = s :: visited cond body n c s' := by
  unfold Runs at hb
  rw [visited, if_pos hc, hb]

theorem visited_done (hc : cond s = false) : visited cond body (n + 1) a s = [] := by
  rw [visited, if_neg (by rw [hc]; exact Bool.false_ne_true)]

/-- One of the states is a `write`, and no later one is an `overwrite`. -/
def LastWrite (write overwrite : S → Prop) (ss : List S) : Prop :=
  ∃ before s after, ss = before ++ s :: after ∧ write s ∧ ∀ s' ∈ after, ¬ overwrite s'

theorem lastWrite_cons {write overwrite : S → Prop} {ss : List S} :
    LastWrite write overwrite (s :: ss) ↔
      LastWrite write overwrite ss ∨ write s ∧ ∀ s' ∈ ss, ¬ overwrite s' := by
  constructor
  · rintro ⟨before, t, after, h, hw, ho⟩
    cases before with
    | nil =>
      obtain ⟨rfl, rfl⟩ := List.cons.inj h
      exact .inr ⟨hw, ho⟩
    | cons _ before => exact .inl ⟨before, t, after, (List.cons.inj h).2, hw, ho⟩
  · rintro (⟨before, t, after, rfl, hw, ho⟩ | ⟨hw, ho⟩)
    · exact ⟨s :: before, t, after, rfl, hw, ho⟩
    · exact ⟨[], s, ss, rfl, hw, ho⟩

theorem lastWrite_false {write : S → Prop} {ss : List S} :
    LastWrite write (fun _ => False) ss ↔ ∃ s ∈ ss, write s := by
  constructor
  · rintro ⟨before, s, after, rfl, hw, -⟩
    exact ⟨s, List.mem_append_right _ List.mem_cons_self, hw⟩
  · rintro ⟨s, hs, hw⟩
    obtain ⟨before, after, rfl⟩ := List.append_of_mem hs
    exact ⟨before, s, after, rfl, hw, fun _ _ => not_false⟩

/-- **The last write.** If each round makes `N` true with a `write`, and false
with an `overwrite` that is none, then so does the loop with the last of them. -/
theorem Runs.while_lastWrite {I N : α → Prop} {write overwrite : S → Prop}
    (hI : ∀ a s c s', I a → Runs (body a) s c s' → I c ∧ (N c ↔ write s ∨ N a ∧ ¬ overwrite s))
    (h : Runs (whileM x cond body n a) s d s') (h0 : I a) :
    I d ∧ (N d ↔ LastWrite write overwrite (visited cond body n a s) ∨
      N a ∧ ∀ t ∈ visited cond body n a s, ¬ overwrite t) := by
  induction n generalizing a s with
  | zero => cases h
  | succ n ih =>
    unfold Runs at h
    cases hc : cond s with
    | false =>
      rw [run_while_false hc] at h
      cases h
      refine ⟨h0, ?_⟩
      rw [visited_done hc]
      constructor
      · exact fun hN => .inr ⟨hN, fun t ht => absurd ht List.not_mem_nil⟩
      · rintro (⟨before, t, after, hnil, -⟩ | ⟨hN, -⟩)
        · exact absurd hnil (by simp)
        · exact hN
    | true =>
      rw [run_while_true hc] at h
      obtain ⟨c, s₁, hb, hw⟩ := Runs.bind_inv h
      obtain ⟨h1, hstep⟩ := hI a s c s₁ h0 hb
      obtain ⟨hd, hN⟩ := ih hw h1
      refine ⟨hd, ?_⟩
      rw [visited_step hc hb, hN, lastWrite_cons, hstep, List.forall_mem_cons, or_and_right, or_assoc,
        and_assoc]

end While

/-! ## What a program keeps -/

/-- `f`, if it returns, keeps `I`. -/
def Keeps (I : S → Prop) (f : Traced E X S α) : Prop := ∀ s a s', I s → Runs f s a s' → I s'

section Keeps
variable {I : S → Prop}

theorem Keeps.pure (a : α) : Keeps I (Pure.pure a : Traced E X S α) :=
  fun _ _ _ h hr => (Runs.pure_inv hr).2 ▸ h

theorem Keeps.fail (x : X) : Keeps I (Traced.fail x : Traced E X S α) := fun _ _ _ _ hr => by cases hr

theorem Keeps.emit (e : E) : Keeps I (Traced.emit e : Traced E X S Unit) := fun _ _ _ h hr => by
  cases hr; exact h

theorem Keeps.get : Keeps I (Traced.get : Traced E X S S) := fun _ _ _ h hr => by cases hr; exact h

theorem Keeps.attempt {op : S → S × Option X} (ho : ∀ s s', I s → op s = (s', none) → I s') :
    Keeps I (Traced.attempt op : Traced E X S Unit) :=
  fun s _ s' h hr => ho s s' h (Runs.attempt_inv hr)

theorem Keeps.lift (r : List E × Except X α) : Keeps I (Traced.lift r : Traced E X S α) :=
  fun _ _ _ h hr => (Runs.lift_inv hr).2 ▸ h

theorem Keeps.bind (hf : Keeps I f) (hg : ∀ a, Keeps I (g a)) : Keeps I (f >>= g) := by
  intro s b s'' h hr
  obtain ⟨a, s', h₁, h₂⟩ := Runs.bind_inv hr
  exact hg a s' b s'' (hf s a s' h h₁) h₂

theorem Keeps.whileM {cond : S → Bool} {body : α → Traced E X S α} (hb : ∀ a, Keeps I (body a))
    (n : Nat) (a : α) : Keeps I (whileM x cond body n a) := fun _ _ _ h hr =>
  (Runs.while_inv (I := fun _ s => I s) (fun a s c s' h _ hc => hb a s c s' h hc) hr h).1

end Keeps

end Traced

/-! ## Abstract programs -/

/-- How an abstract program ends: it returns, the program it stands for throws,
it would record an event that is not good, or the rounds of a loop are used up. -/
inductive Outcome (X T β : Type) where
  | ok (b : β) (t : T)
  | fail (x : X)
  | bad
  | spent

structure Walk (X T β : Type) where
  run : T → Outcome X T β

namespace Walk

variable {X T β γ : Type}

protected def bind (w : Walk X T β) (k : β → Walk X T γ) : Walk X T γ :=
  ⟨fun t =>
    match w.run t with
    | .ok b t' => (k b).run t'
    | .fail x => .fail x
    | .bad => .bad
    | .spent => .spent⟩

instance : Monad (Walk X T) where
  pure b := ⟨fun t => .ok b t⟩
  bind := Walk.bind

def fail (x : X) : Walk X T β := ⟨fun _ => .fail x⟩

def get : Walk X T T := ⟨fun t => .ok t t⟩

def whileM (cond : T → Bool) (body : β → Walk X T β) : Nat → β → Walk X T β
  | 0, _ => ⟨fun _ => .spent⟩
  | n + 1, b => ⟨fun t => if cond t then (Walk.bind (body b) (whileM cond body n)).run t else .ok b t⟩

theorem run_bind (w : Walk X T β) (k : β → Walk X T γ) (t : T) : (w >>= k).run t =
    match w.run t with
    | .ok b t' => (k b).run t'
    | .fail x => .fail x
    | .bad => .bad
    | .spent => .spent := rfl

theorem run_while (cond : T → Bool) (body : β → Walk X T β) (n : Nat) (b : β) (t : T) :
    (whileM cond body (n + 1) b).run t =
      if cond t then (body b >>= whileM cond body n).run t else .ok b t := rfl

theorem run_while_false {cond : T → Bool} {body : β → Walk X T β} {n : Nat} {b : β} {t : T}
    (h : cond t = false) : (whileM cond body (n + 1) b).run t = .ok b t := by
  rw [run_while, if_neg (by rw [h]; exact Bool.false_ne_true)]

theorem run_while_true {cond : T → Bool} {body : β → Walk X T β} {n : Nat} {b c : β} {t t' : T}
    (h : cond t = true) (hb : (body b).run t = .ok c t') :
    (whileM cond body (n + 1) b).run t = (whileM cond body n c).run t' := by
  rw [run_while, if_pos h, run_bind, hb]

theorem run_bind_ok {w : Walk X T β} {k : β → Walk X T γ} {b : β} {t t' : T} (h : w.run t = .ok b t') :
    (w >>= k).run t = (k b).run t' := by
  rw [run_bind, h]

theorem run_bind_unit (w : Walk X T Unit) (t : T) : (w >>= fun _ => Pure.pure ()).run t = w.run t := by
  rw [run_bind]
  cases w.run t <;> rfl

/-- A program that has run on a state of its own. -/
def lift {U : Type} (o : Outcome X U β) : Walk X T β :=
  ⟨fun t =>
    match o with
    | .ok b _ => .ok b t
    | .fail x => .fail x
    | .bad => .bad
    | .spent => .spent⟩

/-! ### More rounds -/

/-- `w'` does what `w` does, unless the rounds of `w` are used up. -/
def Le (w w' : Walk X T β) : Prop := ∀ t, w.run t = .spent ∨ w'.run t = w.run t

theorem Le.refl (w : Walk X T β) : Le w w := fun _ => .inr rfl

theorem Le.bind {w w' : Walk X T β} {k k' : β → Walk X T γ} (hw : Le w w') (hk : ∀ b, Le (k b) (k' b)) :
    Le (w >>= k) (w' >>= k') := by
  intro t
  rw [run_bind, run_bind]
  rcases hw t with h | h
  · rw [h]; exact .inl rfl
  · rw [h]
    cases w.run t with
    | ok b t' => exact hk b t'
    | fail => exact .inr rfl
    | bad => exact .inr rfl
    | spent => exact .inr rfl

theorem Le.whileM {cond : T → Bool} {body body' : β → Walk X T β} (hb : ∀ b, Le (body b) (body' b))
    {n n' : Nat} (hn : n ≤ n') (b : β) :
    Le (whileM cond body n b) (Walk.whileM cond body' n' b) := by
  induction n generalizing n' b with
  | zero => exact fun _ => .inl rfl
  | succ n ih =>
    obtain ⟨n', rfl⟩ : ∃ k, n' = k + 1 := ⟨n' - 1, by omega⟩
    intro t
    cases hc : cond t with
    | true =>
      rw [run_while, run_while, if_pos hc, if_pos hc]
      exact Le.bind (hb b) (fun c => ih (by omega) c) t
    | false =>
      rw [run_while_false hc, run_while_false hc]
      exact .inr rfl

theorem Le.lift {U : Type} {o o' : Outcome X U β} (h : o = .spent ∨ o' = o) :
    Le (T := T) (Walk.lift o) (Walk.lift o') := by
  intro t
  rcases h with h | h
  · subst h; exact .inl rfl
  · subst h; exact .inr rfl

/-! ### Enough rounds -/

theorem bind_ok {w : Walk X T β} {k : β → Walk X T γ} {t t'' : T} {c : γ}
    (h : (w >>= k).run t = .ok c t'') : ∃ b t', w.run t = .ok b t' ∧ (k b).run t' = .ok c t'' := by
  rw [run_bind] at h
  cases hw : w.run t with
  | ok b t' => rw [hw] at h; exact ⟨b, t', rfl, h⟩
  | fail => rw [hw] at h; cases h
  | bad => rw [hw] at h; cases h
  | spent => rw [hw] at h; cases h

/-- Where a loop ends, its condition is false. -/
theorem while_done {cond : T → Bool} {body : β → Walk X T β} {n : Nat} {b c : β} {t t' : T}
    (h : (whileM cond body n b).run t = .ok c t') : cond t' = false := by
  induction n generalizing b t with
  | zero => cases h
  | succ n ih =>
    cases hc : cond t with
    | true =>
      rw [run_while, if_pos hc] at h
      obtain ⟨d, u, -, hd⟩ := bind_ok h
      exact ih hd
    | false =>
      rw [run_while_false hc] at h
      cases h
      exact hc

/-! ### Leaving a region -/

section Region

/-- The states in which the rounds of a loop begin. -/
def visited (cond : T → Bool) (body : β → Walk X T β) : Nat → β → T → List T
  | 0, _, _ => []
  | n + 1, b, t =>
    if cond t then
      t :: match (body b).run t with
        | .ok c t' => visited cond body n c t'
        | _ => []
    else []

/-- From `t`, the program comes to a bad end, or returns outside of the region. -/
def Strays (In : T → Prop) (w : Walk X T β) (t : T) : Prop :=
  w.run t = .bad ∨ ∃ b t', w.run t = .ok b t' ∧ ¬ In t'

variable {In : T → Prop} {w : Walk X T β} {k : β → Walk X T γ} {t t' : T} {b : β}

theorem bind_bad (h : w.run t = .bad) : (w >>= k).run t = .bad := by
  rw [run_bind, h]

theorem Strays.bind (hw : w.run t = .ok b t') (h : Strays In (k b) t') : Strays In (w >>= k) t := by
  unfold Strays
  rw [run_bind_ok hw]
  exact h

/-- What strays does so in its first part or, from inside the region, in the second. -/
theorem Strays.bind_inv (h : Strays In (w >>= k) t) :
    Strays In w t ∨ ∃ b t', w.run t = .ok b t' ∧ In t' ∧ Strays In (k b) t' := by
  cases hw : w.run t with
  | ok b t' =>
    by_cases hin : In t'
    · unfold Strays at h
      rw [run_bind_ok hw] at h
      exact .inr ⟨b, t', rfl, hin, h⟩
    · exact .inl (.inr ⟨b, t', hw, hin⟩)
  | bad => exact .inl (.inl hw)
  | fail =>
    unfold Strays at h
    rw [run_bind, hw] at h
    rcases h with h | ⟨_, _, h, -⟩ <;> cases h
  | spent =>
    unfold Strays at h
    rw [run_bind, hw] at h
    rcases h with h | ⟨_, _, h, -⟩ <;> cases h

theorem not_strays_pure (hin : In t) : ¬ Strays In (Pure.pure b : Walk X T β) t := by
  rintro (h | ⟨_, _, h, hout⟩)
  · cases h
  · cases h
    exact hout hin

theorem not_strays_fail {x : X} : ¬ Strays In (Walk.fail x : Walk X T β) t := by
  rintro (h | ⟨_, _, h, -⟩) <;> cases h

/-- A function of the result changes nothing. -/
theorem strays_map {g : β → γ} : Strays In (w >>= fun b => Pure.pure (g b)) t ↔ Strays In w t := by
  constructor
  · intro h
    rcases h.bind_inv with h | ⟨_, _, _, hin, h⟩
    · exact h
    · exact absurd h (not_strays_pure hin)
  · rintro (h | ⟨b, t', h, hout⟩)
    · exact .inl (bind_bad h)
    · exact .bind h (.inr ⟨g b, t', rfl, hout⟩)

theorem strays_lift {U : Type} {o : Outcome X U β} :
    Strays In (Walk.lift o) t ↔ o = .bad ∨ (∃ b u, o = .ok b u) ∧ ¬ In t := by
  constructor
  · intro h
    cases o with
    | ok b u =>
      rcases h with h | ⟨_, _, h, hout⟩
      · cases h
      · cases h
        exact .inr ⟨⟨b, u, rfl⟩, hout⟩
    | bad => exact .inl rfl
    | fail => rcases h with h | ⟨_, _, h, -⟩ <;> cases h
    | spent => rcases h with h | ⟨_, _, h, -⟩ <;> cases h
  · rintro (rfl | ⟨⟨b, u, rfl⟩, hout⟩)
    · exact .inl rfl
    · exact .inr ⟨b, t, rfl, hout⟩

section While
variable {cond : T → Bool} {body body' : β → Walk X T β} {n n' : Nat} {s : T}

/-- A loop strays in one of its rounds. -/
theorem Strays.while_inv {short : T → Prop} (hb : ∀ b t, In t → Strays In (body b) t → short t)
    (h : Strays In (whileM cond body n b) t) (hin : In t) : ∃ s ∈ visited cond body n b t, short s := by
  induction n generalizing b t with
  | zero => rcases h with h | ⟨_, _, h, -⟩ <;> cases h
  | succ n ih =>
    cases hc : cond t with
    | false =>
      unfold Strays at h
      rw [run_while_false hc] at h
      rcases h with h | ⟨_, _, h, hout⟩
      · cases h
      · cases h
        exact absurd hin hout
    | true =>
      unfold Strays at h
      rw [run_while, if_pos hc] at h
      rw [visited, if_pos hc]
      rcases Strays.bind_inv h with h | ⟨c, t', hw, hin', h⟩
      · exact ⟨t, List.mem_cons_self, hb b t hin h⟩
      · obtain ⟨s, hs, hshort⟩ := ih h hin'
        rw [hw]
        exact ⟨s, List.mem_cons_of_mem _ hs, hshort⟩

/-- A round with a bad end ends the loop so. -/
theorem while_bad (hs : s ∈ visited cond body n b t) (hb : ∀ b, (body b).run s = .bad) :
    (whileM cond body n b).run t = .bad := by
  induction n generalizing b t with
  | zero => cases hs
  | succ n ih =>
    rw [visited] at hs
    split at hs
    · rename_i hc
      rcases List.mem_cons.mp hs with rfl | hs
      · rw [run_while, if_pos hc]
        exact bind_bad (hb b)
      · split at hs
        · rename_i hw
          rw [run_while_true hc hw]
          exact ih hs
        · cases hs
    · cases hs

/-- A loop strays if a round of it does and every round outside of the region has
a bad end; it may need one round more. -/
theorem Strays.while_visited (hs : s ∈ visited cond body n b t) (hle : ∀ b, Le (body b) (body' b)) (hn : n ≤ n')
    (hout : ∀ b t, ¬ In t → cond t = true → (body' b).run t = .bad)
    (hb : ∀ b, Strays In (body' b) s) : Strays In (whileM cond body' (n' + 1) b) t := by
  induction n generalizing n' b t with
  | zero => cases hs
  | succ n ih =>
    obtain ⟨n', rfl⟩ : ∃ k, n' = k + 1 := ⟨n' - 1, by omega⟩
    rw [visited] at hs
    split at hs
    · rename_i hc
      unfold Strays
      rw [run_while, if_pos hc]
      rcases List.mem_cons.mp hs with rfl | hs
      · rcases hb b with h | ⟨c, t', h, hin⟩
        · exact .inl (bind_bad h)
        · refine Strays.bind h ?_
          cases hc' : cond t' with
          | false => exact .inr ⟨c, t', run_while_false hc', hin⟩
          | true =>
            refine .inl ?_
            rw [run_while, if_pos hc']
            exact bind_bad (hout c t' hin hc')
      · split at hs
        · rename_i c t' hw
          have hw' : (body' b).run t = .ok c t' := by
            rcases hle b t with h | h
            · rw [hw] at h
              cases h
            · rw [h, hw]
          exact Strays.bind hw' (ih hs (by omega))
        · cases hs
    · cases hs

end While

end Region

section Measure
variable (size : T → Nat)

def NoGrow (w : Walk X T β) : Prop := ∀ t b t', w.run t = .ok b t' → size t' ≤ size t

def Shrinks (w : Walk X T β) : Prop := ∀ t b t', w.run t = .ok b t' → size t' < size t

/-- From a state of at most size `k`, the rounds suffice. -/
def Finishes (k : Nat) (w : Walk X T β) : Prop := ∀ t, size t ≤ k → w.run t ≠ .spent

variable {size}

theorem Shrinks.noGrow {w : Walk X T β} (h : Shrinks size w) : NoGrow size w :=
  fun t b t' hr => Nat.le_of_lt (h t b t' hr)

theorem NoGrow.pure (b : β) : NoGrow size (Pure.pure b : Walk X T β) := fun _ _ _ h => by
  cases h; exact Nat.le_refl _

theorem NoGrow.fail (x : X) : NoGrow size (Walk.fail x : Walk X T β) := fun _ _ _ h => by cases h

theorem Shrinks.fail (x : X) : Shrinks size (Walk.fail x : Walk X T β) := fun _ _ _ h => by cases h

theorem NoGrow.get : NoGrow size (Walk.get : Walk X T T) := fun _ _ _ h => by
  cases h; exact Nat.le_refl _

theorem NoGrow.lift {U : Type} (o : Outcome X U β) : NoGrow size (Walk.lift o) := fun t b t' h => by
  cases o with
  | ok c _ => cases h; exact Nat.le_refl _
  | fail => cases h
  | bad => cases h
  | spent => cases h

theorem NoGrow.bind {w : Walk X T β} {k : β → Walk X T γ} (hw : NoGrow size w)
    (hk : ∀ b, NoGrow size (k b)) : NoGrow size (w >>= k) := by
  intro t c t'' h
  obtain ⟨b, t', h₁, h₂⟩ := bind_ok h
  exact Nat.le_trans (hk b t' c t'' h₂) (hw t b t' h₁)

theorem Shrinks.bind {w : Walk X T β} {k : β → Walk X T γ} (hw : Shrinks size w)
    (hk : ∀ b, NoGrow size (k b)) : Shrinks size (w >>= k) := by
  intro t c t'' h
  obtain ⟨b, t', h₁, h₂⟩ := bind_ok h
  exact Nat.lt_of_le_of_lt (hk b t' c t'' h₂) (hw t b t' h₁)

theorem NoGrow.whileM {cond : T → Bool} {body : β → Walk X T β} (hb : ∀ b, NoGrow size (body b))
    (n : Nat) (b : β) : NoGrow size (whileM cond body n b) := by
  induction n generalizing b with
  | zero => exact fun _ _ _ h => by cases h
  | succ n ih =>
    intro t c t' h
    cases hc : cond t with
    | true =>
      rw [run_while, if_pos hc] at h
      exact NoGrow.bind (hb b) ih t c t' h
    | false =>
      rw [run_while_false hc] at h
      cases h
      exact Nat.le_refl _

variable {k : Nat}

theorem Finishes.pure (b : β) : Finishes size k (Pure.pure b : Walk X T β) := fun _ _ h => by cases h

theorem Finishes.fail (x : X) : Finishes size k (Walk.fail x : Walk X T β) := fun _ _ h => by cases h

theorem Finishes.get : Finishes size k (Walk.get : Walk X T T) := fun _ _ h => by cases h

theorem Finishes.lift {U : Type} {o : Outcome X U β} (h : o ≠ .spent) :
    Finishes (T := T) size k (Walk.lift o) := fun _ _ hr => by
  cases o with
  | ok c _ => cases hr
  | fail => cases hr
  | bad => cases hr
  | spent => exact h rfl

theorem Finishes.bind {w : Walk X T β} {g : β → Walk X T γ} (hw : Finishes size k w)
    (hg : NoGrow size w) (hk : ∀ b, Finishes size k (g b)) : Finishes size k (w >>= g) := by
  intro t ht h
  rw [run_bind] at h
  cases hr : w.run t with
  | ok b t' =>
    rw [hr] at h
    exact hk b t' (Nat.le_trans (hg t b t' hr) ht) h
  | fail => rw [hr] at h; cases h
  | bad => rw [hr] at h; cases h
  | spent => exact hw t ht hr

theorem Finishes.of_all {w : Walk X T β} (h : ∀ t, w.run t ≠ .spent) : Finishes size k w := fun t _ => h t

theorem Finishes.shrink {w : Walk X T β} {g : β → Walk X T γ} (hw : Finishes size k w)
    (hs : Shrinks size w) (hk : ∀ b, Finishes size (k - 1) (g b)) : Finishes size k (w >>= g) := by
  intro t ht h
  rw [run_bind] at h
  cases hr : w.run t with
  | ok b t' =>
    rw [hr] at h
    have hlt := hs t b t' hr
    exact hk b t' (by omega) h
  | fail => rw [hr] at h; cases h
  | bad => rw [hr] at h; cases h
  | spent => exact hw t ht hr

/-- A loop whose rounds shrink the state needs as many rounds as its size, and
one to see the condition fail. -/
theorem Finishes.whileM {cond : T → Bool} {body : β → Walk X T β}
    (hf : ∀ b, Finishes size k (body b)) (hs : ∀ b, Shrinks size (body b)) {n : Nat} (hn : k < n)
    (b : β) : Finishes size k (whileM cond body n b) := by
  induction n generalizing k b with
  | zero => omega
  | succ n ih =>
    intro t ht h
    cases hc : cond t with
    | true =>
      rw [run_while, if_pos hc, run_bind] at h
      cases hr : (body b).run t with
      | ok c t' =>
        rw [hr] at h
        have hlt := hs b t c t' hr
        have hk : Finishes size (k - 1) (Walk.whileM cond body n c) :=
          ih (fun b t ht => hf b t (by omega)) (by omega) c
        exact hk t' (by omega) h
      | fail => rw [hr] at h; cases h
      | bad => rw [hr] at h; cases h
      | spent => exact hf b t ht hr
    | false =>
      rw [run_while_false hc] at h
      cases h

end Measure

end Walk

/-! ## Simulation -/

section Sim
variable {E X S T α β γ δ : Type}

/-- What `r` should be if the abstract program ends with `o`: a related value in
a related state, the same exception, which is not `x`, a bad event, or `x`; all
the events but in the third case are good. -/
def Matches (R : S → T → Prop) (good : E → Prop) (x : X) (V : α → β → Prop)
    (r : List E × Except X (α × S)) : Outcome X T β → Prop
  | .ok b t => (∀ e ∈ r.1, good e) ∧ ∃ a s, r.2 = .ok (a, s) ∧ V a b ∧ R s t
  | .fail y => (∀ e ∈ r.1, good e) ∧ r.2 = .error y ∧ y ≠ x
  | .bad => ∃ e ∈ r.1, ¬ good e
  | .spent => (∀ e ∈ r.1, good e) ∧ r.2 = .error x

/-- From related states, `f` does what `w` says. -/
def Sim (R : S → T → Prop) (good : E → Prop) (x : X) (V : α → β → Prop) (f : Traced E X S α)
    (w : Walk X T β) : Prop :=
  ∀ s t, R s t → Matches R good x V (f.run s) (w.run t)

variable {R : S → T → Prop} {good : E → Prop} {x : X} {V : α → β → Prop} {U : γ → δ → Prop}
  {f : Traced E X S α} {w : Walk X T β} {g : α → Traced E X S γ} {k : β → Walk X T δ}

theorem good_nil : ∀ e ∈ ([] : List E), good e := fun _ he => absurd he List.not_mem_nil

theorem Sim.pure {a : α} {b : β} (h : V a b) :
    Sim R good x V (Pure.pure a : Traced E X S α) (Pure.pure b) :=
  fun s _ hr => ⟨good_nil, a, s, rfl, h, hr⟩

theorem Sim.emit {e : E} (h : good e) :
    Sim R good x (fun _ _ => True) (Traced.emit e : Traced E X S Unit) (Pure.pure () : Walk X T Unit) :=
  fun s _ hr => ⟨fun _ he => List.mem_singleton.mp he ▸ h, (), s, rfl, trivial, hr⟩

theorem Sim.fail {y : X} (h : y ≠ x) :
    Sim R good x V (Traced.fail y : Traced E X S α) (Walk.fail y : Walk X T β) :=
  fun _ _ _ => ⟨good_nil, rfl, h⟩

theorem Sim.mono {V' : α → β → Prop} (h : Sim R good x V f w) (hV : ∀ a b, V a b → V' a b) :
    Sim R good x V' f w := by
  intro s t hr
  have h := h s t hr
  cases hw : w.run t with
  | ok b t' =>
    rw [hw] at h
    obtain ⟨hg, a, s', hf, hv, hr'⟩ := h
    exact ⟨hg, a, s', hf, hV a b hv, hr'⟩
  | fail => rw [hw] at h; exact h
  | bad => rw [hw] at h; exact h
  | spent => rw [hw] at h; exact h

/-- Good events, then what the rest does. -/
theorem Matches.append {tr : List E} {r : List E × Except X (γ × S)} {o : Outcome X T δ}
    (hg : ∀ e ∈ tr, good e) (h : Matches R good x U r o) : Matches R good x U (tr ++ r.1, r.2) o := by
  have happ : (∀ e ∈ r.1, good e) → ∀ e ∈ tr ++ r.1, good e :=
    fun h' e he => (List.mem_append.mp he).elim (hg e) (h' e)
  cases o with
  | ok b t => exact ⟨happ h.1, h.2⟩
  | fail => exact ⟨happ h.1, h.2⟩
  | bad =>
    obtain ⟨e, he, hb⟩ := h
    exact ⟨e, List.mem_append_right _ he, hb⟩
  | spent => exact ⟨happ h.1, h.2⟩

theorem Sim.bind (hf : Sim R good x V f w) (hg : ∀ a b, V a b → Sim R good x U (g a) (k b)) :
    Sim R good x U (f >>= g) (w >>= k) := by
  intro s t hr
  have h := hf s t hr
  rw [Walk.run_bind]
  cases hw : w.run t with
  | ok b t' =>
    rw [hw] at h
    obtain ⟨hgood, a, s', hfs, hv, hr'⟩ := h
    rw [Traced.run_bind_ok (Prod.ext rfl hfs)]
    exact (hg a b hv s' t' hr').append hgood
  | fail =>
    rw [hw] at h
    obtain ⟨hgood, hfs, hy⟩ := h
    rw [Traced.run_bind_error (Prod.ext rfl hfs)]
    exact ⟨hgood, rfl, hy⟩
  | bad =>
    rw [hw] at h
    obtain ⟨e, he, hbad⟩ := h
    refine ⟨e, ?_, hbad⟩
    cases hfs : (f.run s).2 with
    | error y => rw [Traced.run_bind_error (Prod.ext rfl hfs)]; exact he
    | ok p => rw [Traced.run_bind_ok (Prod.ext rfl hfs)]; exact List.mem_append_left _ he
  | spent =>
    rw [hw] at h
    rw [Traced.run_bind_error (Prod.ext rfl h.2)]
    exact ⟨h.1, rfl⟩

/-- A loop does what the abstract loop says, if the conditions agree and each
round does. -/
theorem Sim.whileM {cond : S → Bool} {cond' : T → Bool} {body : α → Traced E X S α}
    {body' : β → Walk X T β} (hc : ∀ s t, R s t → cond s = cond' t)
    (hb : ∀ a b, V a b → Sim R good x V (body a) (body' b)) (n : Nat) {a : α} {b : β} (hv : V a b) :
    Sim R good x V (Traced.whileM x cond body n a) (Walk.whileM cond' body' n b) := by
  induction n generalizing a b with
  | zero => exact fun _ _ _ => ⟨good_nil, rfl⟩
  | succ n ih =>
    intro s t hr
    have hct := hc s t hr
    rw [Walk.run_while]
    cases hb' : cond' t with
    | true =>
      rw [Traced.run_while_true (hct.trans hb'), if_pos rfl]
      exact Sim.bind (hb a b hv) (fun _ _ hv' => ih hv') s t hr
    | false =>
      rw [Traced.run_while_false (hct.trans hb'), if_neg Bool.false_ne_true]
      exact ⟨good_nil, a, s, rfl, hv, hr⟩

/-- The same without the state. -/
theorem Matches.forget {r : List E × Except X (α × S)} {o : Outcome X T β} (h : Matches R good x V r o) :
    Matches (fun (_ : Unit) _ => True) good x V (r.1, (r.2.map Prod.fst).map fun a => (a, ())) o := by
  obtain ⟨tr, e⟩ := r
  cases o with
  | ok b t =>
    obtain ⟨hg, a, s, ha, hv, -⟩ := h
    cases ha
    exact ⟨hg, a, (), rfl, hv, trivial⟩
  | fail =>
    obtain ⟨hg, hy, hne⟩ := h
    cases hy
    exact ⟨hg, rfl, hne⟩
  | bad => exact h
  | spent =>
    obtain ⟨hg, hx⟩ := h
    cases hx
    exact ⟨hg, rfl⟩

/-- What a nested program does, its outcome says. -/
theorem Sim.lift {U : Type} {r : List E × Except X α} {o : Outcome X U β}
    (h : Matches (fun _ _ => True) good x V (r.1, r.2.map fun a => (a, ())) o) :
    Sim R good x V (Traced.lift r) (Walk.lift o) := by
  intro s t hr
  obtain ⟨tr, e⟩ := r
  cases o with
  | ok b u =>
    obtain ⟨hg, a, _, ha, hv, -⟩ := h
    cases e with
    | error y => cases ha
    | ok a' => cases ha; exact ⟨hg, a, s, rfl, hv, hr⟩
  | fail =>
    obtain ⟨hg, hy, hne⟩ := h
    cases e with
    | error y' => cases hy; exact ⟨hg, rfl, hne⟩
    | ok a' => cases hy
  | bad => exact h
  | spent =>
    obtain ⟨hg, hx⟩ := h
    cases e with
    | error y' => cases hx; exact ⟨hg, rfl⟩
    | ok a' => cases hx

/-- What the outcome says of the abstract program, holds of the program. -/
theorem Sim.runs {s : S} {t t' : T} {b : β} (h : Sim R good x V f w) (hr : R s t)
    (hw : w.run t = .ok b t') : ∃ a s', Traced.Runs f s a s' ∧ V a b ∧ R s' t' := by
  have h := h s t hr
  rw [hw] at h
  obtain ⟨-, a, s', hf, hv, hr'⟩ := h
  exact ⟨a, s', hf, hv, hr'⟩

end Sim

end Lib
