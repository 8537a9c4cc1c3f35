import Mathlib.Logic.Relation
import Mathlib.Data.List.Basic

/-!
# Lists up to the order of elements with different keys

Adjacent elements with different keys may be exchanged (`Swap`).
`swaps_of_filters`: two lists with the same elements of each key, in the same
order, are connected by such exchanges.
-/
namespace Lib

variable {α κ : Type} {key : α → κ}

/-- Two adjacent elements with different keys are exchanged. -/
inductive Swap (key : α → κ) : List α → List α → Prop
  | here {a b : α} (l : List α) (h : key a ≠ key b) : Swap key (a :: b :: l) (b :: a :: l)
  | later (a : α) {l l' : List α} (h : Swap key l l') : Swap key (a :: l) (a :: l')

abbrev Swaps (key : α → κ) : List α → List α → Prop := Relation.ReflTransGen (Swap key)

theorem Swaps.later (a : α) {l l' : List α} (h : Swaps key l l') : Swaps key (a :: l) (a :: l') := by
  induction h with
  | refl => exact .refl
  | tail _ h ih => exact ih.tail (.later a h)

/-- An element moves behind elements with other keys. -/
theorem Swaps.bubble (a : α) (l : List α) {before : List α} (h : ∀ b ∈ before, key a ≠ key b) :
    Swaps key (a :: (before ++ l)) (before ++ a :: l) := by
  induction before with
  | nil => exact .refl
  | cons b before ih =>
    have hrest := ih fun c hc => h c (List.mem_cons_of_mem b hc)
    exact .head (.here _ (h b List.mem_cons_self)) (hrest.later b)

/-- The first element with the key `k`. -/
theorem exists_first [DecidableEq κ] {k : κ} {a : α} {l rest : List α}
    (h : l.filter (fun b => key b = k) = a :: rest) :
    ∃ before after, l = before ++ a :: after ∧ ∀ b ∈ before, key b ≠ k := by
  induction l with
  | nil => cases h
  | cons b l ih =>
    by_cases hb : key b = k
    · rw [List.filter_cons_of_pos (by simpa using hb)] at h
      cases h
      exact ⟨[], l, rfl, fun c hc => absurd hc List.not_mem_nil⟩
    · rw [List.filter_cons_of_neg (by simpa using hb)] at h
      obtain ⟨before, after, rfl, hbefore⟩ := ih h
      refine ⟨b :: before, after, rfl, fun c hc => ?_⟩
      rcases List.mem_cons.mp hc with rfl | hc
      · exact hb
      · exact hbefore c hc

/-- **Projections.** -/
theorem swaps_of_filters [DecidableEq κ] {l l' : List α}
    (h : ∀ k, l.filter (fun a => key a = k) = l'.filter (fun a => key a = k)) : Swaps key l l' := by
  induction l generalizing l' with
  | nil =>
    cases l' with
    | nil => exact .refl
    | cons a l' =>
      have ha := h (key a)
      rw [List.filter_cons_of_pos (by simp)] at ha
      cases ha
  | cons a l ih =>
    have ha := h (key a)
    rw [List.filter_cons_of_pos (by simp)] at ha
    obtain ⟨before, after, rfl, hbefore⟩ := exists_first ha.symm
    have hrest : Swaps key l (before ++ after) := ih fun k => by
      have hk := h k
      rw [List.filter_append] at hk ⊢
      by_cases hak : key a = k
      · subst hak
        have hnil : before.filter (fun b => key b = key a) = [] :=
          List.filter_eq_nil_iff.mpr fun b hb => by simpa using hbefore b hb
        rw [hnil, List.filter_cons_of_pos (by simp), List.filter_cons_of_pos (by simp)] at hk
        rw [hnil]
        exact (List.cons.inj hk).2
      · rw [List.filter_cons_of_neg (by simpa using hak),
          List.filter_cons_of_neg (by simpa using hak)] at hk
        exact hk
    exact (hrest.later a).trans (Swaps.bubble a after fun b hb => (hbefore b hb).symm)

end Lib
