import Mathlib.Logic.Relation
import Mathlib.Data.List.ReduceOption

/-!
# Labelled transition systems

States, labelled steps, runs, and the induction every safety proof uses: a
predicate that holds initially and is kept by each step holds in every
reachable state (`Inductive.reachable`).

`restrict C` keeps the steps `s --l--> s'` with `C s l`: a predicate on the
state before a step and on the step's label. A statement about
`(M.restrict C).Reachable` is a statement about the runs all of whose steps
meet `C`.
-/
namespace Lib

structure LTS (S L : Type*) where
  init : S → Prop
  step : S → L → S → Prop

namespace LTS

variable {S L : Type*} {M : LTS S L}

inductive Run (M : LTS S L) : S → List L → S → Prop where
  | nil (s : S) : Run M s [] s
  | cons {s s' s'' : S} {l : L} {ls : List L} (h : M.step s l s') (t : Run M s' ls s'') :
      Run M s (l :: ls) s''

def Reachable (M : LTS S L) (s : S) : Prop := ∃ s₀ ls, M.init s₀ ∧ M.Run s₀ ls s

/-- The system of a partial step function. -/
def ofFn (s₀ : S) (f : S → L → Option S) : LTS S L where
  init s := s = s₀
  step s l s' := f s l = some s'

/-- The steps that meet `C`. -/
def restrict (M : LTS S L) (C : S → L → Prop) : LTS S L where
  init := M.init
  step s l s' := C s l ∧ M.step s l s'

/-- An inductive invariant. -/
structure Inductive (M : LTS S L) (P : S → Prop) : Prop where
  init : ∀ s, M.init s → P s
  step : ∀ s l s', P s → M.step s l s' → P s'

/-- What every step with a label in `C` keeps, a run with labels in `C` keeps. -/
theorem Run.invariantOn {P : S → Prop} {C : L → Prop}
    (hP : ∀ s l s', P s → C l → M.step s l s' → P s') {s s' : S} {ls : List L}
    (hr : M.Run s ls s') (hC : ∀ l ∈ ls, C l) (h : P s) : P s' := by
  induction hr with
  | nil => exact h
  | cons hs _ ih =>
    exact ih (fun l hl => hC l (List.mem_cons_of_mem _ hl)) (hP _ _ _ h (hC _ List.mem_cons_self) hs)

theorem Run.invariant {P : S → Prop} (hP : ∀ s l s', P s → M.step s l s' → P s') {s s' : S}
    {ls : List L} (hr : M.Run s ls s') (h : P s) : P s' :=
  hr.invariantOn (C := fun _ => True) (fun s l s' hs _ => hP s l s' hs) (fun _ _ => trivial) h

theorem Inductive.reachable {P : S → Prop} (h : M.Inductive P) {s : S} (hr : M.Reachable s) :
    P s := by
  obtain ⟨s₀, ls, h0, hrun⟩ := hr
  exact hrun.invariant h.step (h.init s₀ h0)

/-! ## Simulation

A label `none` is not visible. -/

theorem Run.append {s s' s'' : S} {ls ls' : List L} (h : M.Run s ls s') (h' : M.Run s' ls' s'') :
    M.Run s (ls ++ ls') s'' := by
  induction h with
  | nil => exact h'
  | cons hs _ ih => exact .cons hs (ih h')

/-- **Trace inclusion.** If each step of `M` is matched by a run of `N` with the
same visible labels, each run of `M` is. -/
theorem Run.simulated {S₁ S₂ E : Type*} {M : LTS S₁ (Option E)} {N : LTS S₂ (Option E)}
    {R : S₁ → S₂ → Prop} (hstep : ∀ s l s' σ, R s σ → M.step s l s' →
      ∃ ls σ', N.Run σ ls σ' ∧ ls.reduceOption = [l].reduceOption ∧ R s' σ')
    {s s' : S₁} {ls : List (Option E)} (hr : M.Run s ls s') {σ : S₂} (h : R s σ) :
    ∃ ls' σ', N.Run σ ls' σ' ∧ ls'.reduceOption = ls.reduceOption ∧ R s' σ' := by
  induction hr generalizing σ with
  | nil => exact ⟨[], σ, .nil σ, rfl, h⟩
  | @cons _ _ _ l ls hs _ ih =>
    obtain ⟨ls₁, σ₁, hr₁, hl₁, h₁⟩ := hstep _ _ _ σ h hs
    obtain ⟨ls₂, σ₂, hr₂, hl₂, h₂⟩ := ih h₁
    refine ⟨ls₁ ++ ls₂, σ₂, hr₁.append hr₂, ?_, h₂⟩
    rw [List.reduceOption_append, hl₁, hl₂, ← List.reduceOption_append]
    rfl

end LTS

/-- The state a partial step function reaches along a list of labels. -/
def exec {S L : Type*} (f : S → L → Option S) : S → List L → Option S
  | s, [] => some s
  | s, l :: ls => (f s l).bind fun s' => exec f s' ls

section Exec
variable {S L : Type*} {f : S → L → Option S}

theorem exec_append (s : S) (l₁ l₂ : List L) :
    exec f s (l₁ ++ l₂) = (exec f s l₁).bind fun s' => exec f s' l₂ := by
  induction l₁ generalizing s with
  | nil => rfl
  | cons l ls ih =>
    simp only [List.cons_append, exec]
    cases f s l with
    | none => rfl
    | some s' => exact ih s'

/-- A run splits at any point into a run to a state and a step from it. -/
theorem exec_split {s s' : S} {l₁ l₂ : List L} {l : L} (h : exec f s (l₁ ++ l :: l₂) = some s') :
    ∃ s₁ s₂, exec f s l₁ = some s₁ ∧ f s₁ l = some s₂ ∧ exec f s (l₁ ++ [l]) = some s₂ := by
  rw [exec_append] at h
  cases h₁ : exec f s l₁ with
  | none => rw [h₁] at h; cases h
  | some s₁ =>
    rw [h₁, Option.bind_some, exec] at h
    cases h₂ : f s₁ l with
    | none => rw [h₂] at h; cases h
    | some s₂ => exact ⟨s₁, s₂, rfl, h₂, by rw [exec_append, h₁, Option.bind_some, exec, h₂]; rfl⟩

theorem exec_run {s s' : S} {ls : List L} (s₀ : S) (h : exec f s ls = some s') :
    (LTS.ofFn s₀ f).Run s ls s' := by
  induction ls generalizing s with
  | nil => cases h; exact .nil _
  | cons l ls ih =>
    rw [exec] at h
    cases h₁ : f s l with
    | none => rw [h₁] at h; cases h
    | some s₁ => rw [h₁] at h; exact .cons h₁ (ih h)

/-- What a step keeps under `C`, a run all of whose labels meet `C` keeps. -/
theorem exec_invariant {P : S → Prop} {C : L → Prop}
    (hP : ∀ s l s', P s → C l → f s l = some s' → P s') {s s' : S} {ls : List L}
    (hC : ∀ l ∈ ls, C l) (h : exec f s ls = some s') (hs : P s) : P s' :=
  (exec_run s h).invariantOn hP hC hs

/-- `f`, as far as the steps meet `C`. -/
def guarded (C : S → L → Prop) [∀ s l, Decidable (C s l)] (f : S → L → Option S) (s : S) (l : L) :
    Option S := if C s l then f s l else none

theorem exec_guarded {C : S → L → Prop} [∀ s l, Decidable (C s l)] {s s' : S} {ls : List L}
    (s₀ : S) (h : exec (guarded C f) s ls = some s') :
    ((LTS.ofFn s₀ f).restrict C).Run s ls s' := by
  induction ls generalizing s with
  | nil => cases h; exact .nil _
  | cons l ls ih =>
    rw [exec] at h
    cases h₁ : guarded C f s l with
    | none => rw [h₁] at h; cases h
    | some s₁ =>
      rw [h₁] at h
      unfold guarded at h₁
      split at h₁
      · rename_i hc
        exact .cons ⟨hc, h₁⟩ (ih h)
      · cases h₁

/-- Every step of a run from `s` along `ls` meets `C`. -/
def Along (f : S → L → Option S) (C : S → L → Prop) : S → List L → Prop
  | _, [] => True
  | s, l :: ls => C s l ∧ ∀ s', f s l = some s' → Along f C s' ls

/-- An exact condition. Where a step under `C` keeps an invariant that implies
`P`, and any other step breaks `P`, a run has `P` throughout if and only if
each of its steps meets `C`. -/
theorem along_iff {I P : S → Prop} {C : S → L → Prop}
    (hC : ∀ s l s', I s → f s l = some s' → C s l → I s')
    (hN : ∀ s l s', I s → f s l = some s' → ¬ C s l → ¬ P s') (hP : ∀ s, I s → P s)
    {s s' : S} {ls : List L} (h : exec f s ls = some s') (hs : I s) :
    (∀ p s₁, p <+: ls → exec f s p = some s₁ → P s₁) ↔ Along f C s ls := by
  induction ls generalizing s with
  | nil =>
    refine iff_of_true (fun p s₁ hp h₁ => ?_) trivial
    rw [List.prefix_nil.mp hp] at h₁
    cases h₁
    exact hP s hs
  | cons l ls ih =>
    rw [exec] at h
    obtain ⟨s₁, h₁, h₂⟩ := Option.bind_eq_some_iff.mp h
    have hstep : ∀ p, exec f s (l :: p) = exec f s₁ p := fun p => by
      rw [exec, h₁, Option.bind_some]
    constructor
    · intro hall
      have hc : C s l := by
        apply Classical.byContradiction
        intro hc
        have hone := hall [l] s₁ (by simp) (by rw [hstep, exec])
        exact hN s l s₁ hs h₁ hc hone
      refine ⟨hc, fun s₂ hs₂ => ?_⟩
      rw [h₁, Option.some.injEq] at hs₂
      rw [← hs₂]
      refine (ih h₂ (hC s l s₁ hs h₁ hc)).mp fun p s₃ hp h₃ => ?_
      apply hall (l :: p) s₃
      · simpa using hp
      · rw [hstep]
        exact h₃
    · rintro ⟨hc, htail⟩ p s₂ hp h₃
      cases p with
      | nil =>
        cases h₃
        exact hP s hs
      | cons l' p =>
        obtain ⟨rfl, hp'⟩ := List.cons_prefix_cons.mp hp
        rw [hstep] at h₃
        exact (ih h₂ (hC s _ s₁ hs h₁ hc)).mpr (htail s₁ h₁) p s₂ hp' h₃

/-- Two conditions that agree under an invariant that the second one keeps. -/
theorem along_congr {I : S → Prop} {C D : S → L → Prop} (hCD : ∀ s l, I s → (C s l ↔ D s l))
    (hD : ∀ s l s', I s → D s l → f s l = some s' → I s') {s : S} {ls : List L} (hs : I s) :
    Along f C s ls ↔ Along f D s ls := by
  induction ls generalizing s with
  | nil => exact Iff.rfl
  | cons l ls ih =>
    rw [Along, Along, hCD s l hs]
    constructor
    · intro ⟨hl, htail⟩
      exact ⟨hl, fun s' h => (ih (hD s l s' hs hl h)).mp (htail s' h)⟩
    · intro ⟨hl, htail⟩
      exact ⟨hl, fun s' h => (ih (hD s l s' hs hl h)).mpr (htail s' h)⟩

end Exec

end Lib
