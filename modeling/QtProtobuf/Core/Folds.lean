import Mathlib.Data.List.Basic

/-!
# Loops that may fail, over lists up to their order

* `foldlM_perm`: where any two steps commute, the order of the steps is free.
* `foldlM_pairs`: where the steps of two lists do the same, the loops do.
* `flatMap_sublist`, `flatMap_eq_iff`: two loops that append, the one at times less
  than the other.
-/
namespace Lib

variable {α β γ σ : Type}

/-- **The order of the steps.** Steps that commute, failures included. -/
theorem foldlM_perm {step : σ → α → Option σ} {as as' : List α} (h : as.Perm as')
    (hcomm : ∀ a ∈ as, ∀ b ∈ as, ∀ s, (step s a >>= (step · b)) = (step s b >>= (step · a))) (s : σ) :
    as.foldlM step s = as'.foldlM step s := by
  induction h generalizing s with
  | nil => rfl
  | cons a _ ih =>
    rw [List.foldlM_cons, List.foldlM_cons]
    refine bind_congr fun s' => ih (fun b hb c hc => ?_) s'
    exact hcomm b (List.mem_cons_of_mem a hb) c (List.mem_cons_of_mem a hc)
  | swap a b as =>
    have hab := hcomm a (List.mem_cons_of_mem b List.mem_cons_self) b List.mem_cons_self s
    simp only [List.foldlM_cons, ← bind_assoc, hab]
  | trans h _ ih ih' =>
    rw [ih hcomm s]
    exact ih' (fun a ha b hb => hcomm a (h.mem_iff.mpr ha) b (h.mem_iff.mpr hb)) s

/-- Two lists of the same length whose steps do the same. -/
theorem foldlM_pairs {step : σ → α → Option σ} {step' : σ → β → Option σ} {f : γ → α} {g : γ → β}
    {ps : List γ} (h : ∀ p ∈ ps, ∀ s, step s (f p) = step' s (g p)) (s : σ) :
    (ps.map f).foldlM step s = (ps.map g).foldlM step' s := by
  induction ps generalizing s with
  | nil => rfl
  | cons p ps ih =>
    rw [List.map_cons, List.map_cons, List.foldlM_cons, List.foldlM_cons, h p List.mem_cons_self]
    exact bind_congr fun s' => ih (fun q hq => h q (List.mem_cons_of_mem p hq)) s'

/-- Elements whose step does nothing may be left out. -/
theorem foldlM_skip {step : σ → α → Option σ} {takes : α → Bool}
    (h : ∀ a s, takes a = false → step s a = some s) (as : List α) (s : σ) :
    (as.filter takes).foldlM step s = as.foldlM step s := by
  rw [List.foldlM_filter]
  congr 1
  funext s a
  cases ha : takes a with
  | true => rfl
  | false => exact (h a s ha).symm

/-! ## Loops that append -/

variable {f g : α → List β} {as : List α}

theorem flatMap_sublist (h : ∀ a ∈ as, (f a).Sublist (g a)) : (as.flatMap f).Sublist (as.flatMap g) := by
  induction as with
  | nil => exact .slnil
  | cons a as ih =>
    rw [List.flatMap_cons, List.flatMap_cons]
    exact (h a List.mem_cons_self).append (ih fun b hb => h b (List.mem_cons_of_mem a hb))

/-- The results agree only if they do in every round. -/
theorem flatMap_eq_iff (h : ∀ a ∈ as, (f a).Sublist (g a)) :
    as.flatMap f = as.flatMap g ↔ ∀ a ∈ as, f a = g a := by
  induction as with
  | nil => simp
  | cons a as ih =>
    have hhead := h a List.mem_cons_self
    have htail : ∀ b ∈ as, (f b).Sublist (g b) := fun b hb => h b (List.mem_cons_of_mem a hb)
    rw [List.flatMap_cons, List.flatMap_cons, List.forall_mem_cons, ← ih htail]
    constructor
    · intro heq
      have hlength := congrArg List.length heq
      rw [List.length_append, List.length_append] at hlength
      have hle := hhead.length_le
      have hle' := (flatMap_sublist htail).length_le
      exact ⟨hhead.eq_of_length (by omega), (flatMap_sublist htail).eq_of_length (by omega)⟩
    · rintro ⟨hfirst, hrest⟩
      rw [hfirst, hrest]

end Lib
