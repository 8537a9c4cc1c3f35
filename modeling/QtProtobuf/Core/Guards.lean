import Mathlib.Data.List.Nodup

/-!
# Guarded blocks

A text of blocks that stand between `#ifndef g`, `#define g` and `#endif`. The
preprocessor keeps a block where its guard is not defined yet, so of the blocks
with one guard it keeps the first.

* `kept_guards_nodup`, `exists_kept`: one block for each guard.
* `kept_once_iff`: where blocks with one content have one guard, each content is
  kept once exactly if the guards tell the contents apart.
-/
namespace Lib

variable {G T : Type}

/-- The text between the guard and the end of the block. -/
structure GuardedBlock (G T : Type) where
  guard : G
  content : T

/-- The blocks that are left, with the guards in `defined` defined in front. -/
def kept [DecidableEq G] (defined : List G) : List (GuardedBlock G T) → List (GuardedBlock G T)
  | [] => []
  | b :: bs =>
    if b.guard ∈ defined then kept defined bs else b :: kept (b.guard :: defined) bs

variable [DecidableEq G] {bs : List (GuardedBlock G T)} {defined : List G}

theorem mem_of_mem_kept {b : GuardedBlock G T} (h : b ∈ kept defined bs) :
    b ∈ bs ∧ b.guard ∉ defined := by
  induction bs generalizing defined with
  | nil => cases h
  | cons a bs ih =>
    rw [kept] at h
    split at h
    · exact ⟨List.mem_cons_of_mem a (ih h).1, (ih h).2⟩
    · next ha =>
      rcases List.mem_cons.mp h with rfl | h
      · exact ⟨by simp, ha⟩
      · obtain ⟨hin, hout⟩ := ih h
        exact ⟨List.mem_cons_of_mem a hin, fun hd => hout (List.mem_cons_of_mem _ hd)⟩

theorem kept_guards_nodup (defined : List G) (bs : List (GuardedBlock G T)) :
    ((kept defined bs).map GuardedBlock.guard).Nodup := by
  induction bs generalizing defined with
  | nil => simp [kept]
  | cons a bs ih =>
    rw [kept]
    split
    · exact ih defined
    · rw [List.map_cons, List.nodup_cons]
      refine ⟨fun h => ?_, ih _⟩
      obtain ⟨b, hb, hguard⟩ := List.mem_map.mp h
      exact (mem_of_mem_kept hb).2 (by simp [hguard])

theorem exists_kept {a : GuardedBlock G T} (h : a ∈ bs) (ha : a.guard ∉ defined) :
    ∃ b ∈ kept defined bs, b.guard = a.guard := by
  induction bs generalizing defined with
  | nil => cases h
  | cons c bs ih =>
    rw [kept]
    rcases List.mem_cons.mp h with rfl | h
    · exact ⟨a, by simp [ha], rfl⟩
    · split
      · exact ih h ha
      · by_cases hc : a.guard = c.guard
        · exact ⟨c, by simp, hc.symm⟩
        · have hfresh : a.guard ∉ c.guard :: defined := by simp [hc, ha]
          obtain ⟨b, hb, hguard⟩ := ih h hfresh
          exact ⟨b, List.mem_cons_of_mem c hb, hguard⟩

/-- Of the blocks left there is one with a guard. -/
theorem eq_of_mem_kept {a b : GuardedBlock G T} (ha : a ∈ kept defined bs)
    (hb : b ∈ kept defined bs) (h : a.guard = b.guard) : a = b :=
  List.inj_on_of_nodup_map (kept_guards_nodup defined bs) ha hb h

variable [DecidableEq T]

theorem kept_once_iff (hfun : ∀ a ∈ bs, ∀ b ∈ bs, a.content = b.content → a.guard = b.guard) :
    (∀ a ∈ bs, ((kept [] bs).map GuardedBlock.content).count a.content = 1) ↔
      ∀ a ∈ bs, ∀ b ∈ bs, a.guard = b.guard → a.content = b.content := by
  constructor
  · intro honce a ha b hb hguard
    have survivor {c : GuardedBlock G T} (hc : c ∈ bs) :
        ∃ d ∈ kept [] bs, d.content = c.content ∧ d.guard = c.guard := by
      have hin : c.content ∈ (kept [] bs).map GuardedBlock.content :=
        List.count_pos_iff.mp (by rw [honce c hc]; omega)
      obtain ⟨d, hd, heq⟩ := List.mem_map.mp hin
      exact ⟨d, hd, heq, hfun d (mem_of_mem_kept hd).1 c hc heq⟩
    obtain ⟨a', ha', hac, hag⟩ := survivor ha
    obtain ⟨b', hb', hbc, hbg⟩ := survivor hb
    have := eq_of_mem_kept ha' hb' (hag.trans (hguard.trans hbg.symm))
    rw [← hac, ← hbc, this]
  · intro hinj a ha
    have hnodup : ((kept [] bs).map GuardedBlock.content).Nodup := by
      refine (List.Nodup.of_map _ (kept_guards_nodup [] bs)).map_on fun c hc d hd heq => ?_
      exact eq_of_mem_kept hc hd
        (hfun c (mem_of_mem_kept hc).1 d (mem_of_mem_kept hd).1 heq)
    obtain ⟨b, hb, hguard⟩ := exists_kept ha (List.not_mem_nil (a := a.guard))
    have hcontent := hinj b (mem_of_mem_kept hb).1 a ha hguard
    exact List.count_eq_one_of_mem hnodup (List.mem_map.mpr ⟨b, hb, hcontent⟩)

end Lib
