/-!
# Words joined by a separator

A word is a nonempty list without the element `d`; words are joined by a
separator made of `d`s. `fieldsAt d` takes a joined list apart again, whatever
the length of the separator, so joining is injective and compatible with
prefixes: a joined list that begins with another and a separator begins with its
words.
-/
namespace Lib

variable {α : Type} {d : α} {sep : List α}

def IsWord (d : α) (w : List α) : Prop := w ≠ [] ∧ d ∉ w

/-- A separator: a `d`, and more of them. -/
def IsSeparator (d : α) (sep : List α) : Prop := ∃ k, sep = List.replicate (k + 1) d

theorem IsSeparator.ne_nil (h : IsSeparator d sep) : sep ≠ [] := by
  obtain ⟨k, rfl⟩ := h
  simp [List.replicate_succ]

theorem intercalate_append {a b : List (List α)} (ha : a ≠ []) (hb : b ≠ []) :
    sep.intercalate (a ++ b) = sep.intercalate a ++ (sep ++ sep.intercalate b) := by
  induction a with
  | nil => exact absurd rfl ha
  | cons w a ih =>
    by_cases h : a = []
    · simp [h, List.intercalate_cons_of_ne_nil hb, List.intercalate_singleton]
    · rw [List.cons_append, List.intercalate_cons_of_ne_nil (by simp [h]), ih h,
        List.intercalate_cons_of_ne_nil h]
      simp

theorem intercalate_concat {a : List (List α)} (ha : a ≠ []) (w : List α) :
    sep.intercalate (a ++ [w]) = sep.intercalate a ++ (sep ++ w) := by
  rw [intercalate_append ha (by simp), List.intercalate_singleton]

theorem head?_intercalate (sep : List α) {w : List α} (hw : w ≠ []) (ws : List (List α)) :
    (sep.intercalate (w :: ws)).head? = w.head? := by
  obtain ⟨c, cs, rfl⟩ := List.exists_cons_of_ne_nil hw
  cases ws <;> simp [List.intercalate_singleton, List.intercalate_cons_cons]

theorem IsWord.not_prefix_intercalate {t : List α} {ws : List (List α)}
    (hw : ∀ w ∈ ws, IsWord d w) : ¬ (d :: t) <+: sep.intercalate ws := by
  rintro ⟨u, hu⟩
  cases ws with
  | nil => simp at hu
  | cons w ws =>
    obtain ⟨hne, hd⟩ := hw w (by simp)
    have hh := head?_intercalate sep hne ws
    rw [← hu, List.cons_append, List.head?_cons] at hh
    exact hd (List.mem_of_head? hh.symm)

section
variable [DecidableEq α]

/-- `l` without the prefix `p`, where it has it. -/
def withoutPrefix (p l : List α) : List α := if p <+: l then l.drop p.length else l

@[simp] theorem withoutPrefix_append (p l : List α) : withoutPrefix p (p ++ l) = l := by
  simp [withoutPrefix]

theorem mem_of_mem_withoutPrefix {p l : List α} {x : α} (h : x ∈ withoutPrefix p l) : x ∈ l := by
  unfold withoutPrefix at h
  split at h
  · exact List.mem_of_mem_drop h
  · exact h

/-- What is left of `l` leads back to `l` from a part of `path`: where the
prefix was dropped, `path` begins with it too. -/
theorem exists_append_withoutPrefix_iff {p l path : List α} :
    (∃ outer, outer <+: path ∧ outer ++ withoutPrefix p l = l) ↔ (p <+: l → p <+: path) := by
  constructor
  · intro ⟨outer, ho, heq⟩ ⟨rest, hl⟩
    rw [← hl, withoutPrefix_append] at heq
    exact List.append_cancel_right heq ▸ ho
  · intro h
    by_cases hp : p <+: l
    · obtain ⟨rest, rfl⟩ := hp
      exact ⟨p, h ⟨rest, rfl⟩, by simp⟩
    · exact ⟨[], List.nil_prefix, by simp [withoutPrefix, hp]⟩

end

variable [BEq α] [LawfulBEq α]

/-- The nonempty parts between the occurrences of `d`. -/
def fieldsAt (d : α) (s : List α) : List (List α) :=
  (s.splitOn d).filter fun w => !w.isEmpty

theorem fieldsAt_append_cons (x y : List α) :
    fieldsAt d (x ++ d :: y) = fieldsAt d x ++ fieldsAt d y := by
  simp [fieldsAt, List.splitOn_append_cons_self]

omit [LawfulBEq α] in
@[simp] theorem fieldsAt_nil : fieldsAt d ([] : List α) = [] := by
  simp [fieldsAt, List.splitOn_nil]

theorem IsWord.fieldsAt_eq {w : List α} (h : IsWord d w) : fieldsAt d w = [w] := by
  simp [fieldsAt, List.splitOn_eq_singleton h.2, h.1]

theorem fieldsAt_replicate_append (k : Nat) (y : List α) :
    fieldsAt d (List.replicate k d ++ y) = fieldsAt d y := by
  induction k with
  | zero => simp
  | succ k ih =>
    have := fieldsAt_append_cons (d := d) [] (List.replicate k d ++ y)
    simpa [List.replicate_succ, ih] using this

theorem IsSeparator.fieldsAt_append (h : IsSeparator d sep) (x y : List α) :
    fieldsAt d (x ++ (sep ++ y)) = fieldsAt d x ++ fieldsAt d y := by
  obtain ⟨k, rfl⟩ := h
  rw [List.replicate_succ, List.cons_append, fieldsAt_append_cons, fieldsAt_replicate_append]

theorem IsSeparator.fieldsAt_intercalate (h : IsSeparator d sep) {ws : List (List α)}
    (hw : ∀ w ∈ ws, IsWord d w) : fieldsAt d (sep.intercalate ws) = ws := by
  induction ws with
  | nil => simp
  | cons w ws ih =>
    have hw' := (hw w (by simp)).fieldsAt_eq
    cases ws with
    | nil => simpa [List.intercalate_singleton] using hw'
    | cons v vs =>
      rw [List.intercalate_cons_cons, List.append_assoc, h.fieldsAt_append, hw',
        ih fun u hu => hw u (by simp [hu])]
      rfl

/-- A joined list that begins with `a` joined and a separator begins with the
words `a`, and the rest is what is behind it. -/
theorem IsSeparator.of_append (h : IsSeparator d sep) {a b : List (List α)} {t : List α}
    (ha : ∀ w ∈ a, IsWord d w) (hb : ∀ w ∈ b, IsWord d w) (hne : a ≠ [])
    (heq : sep.intercalate a ++ (sep ++ t) = sep.intercalate b) :
    ∃ rest, rest ≠ [] ∧ b = a ++ rest ∧ t = sep.intercalate rest := by
  have hf := congrArg (fieldsAt d) heq
  rw [h.fieldsAt_append, h.fieldsAt_intercalate ha, h.fieldsAt_intercalate hb] at hf
  have hr : fieldsAt d t ≠ [] := by
    intro hr
    rw [hr, List.append_nil] at hf
    have hlen := congrArg List.length heq
    have := List.length_pos_iff.mpr h.ne_nil
    simp only [hf, List.length_append] at hlen
    omega
  refine ⟨fieldsAt d t, hr, hf.symm, ?_⟩
  rw [← hf, intercalate_append hne hr] at heq
  simpa using heq

theorem IsSeparator.isPrefix_iff (h : IsSeparator d sep) {a b : List (List α)}
    (ha : ∀ w ∈ a, IsWord d w) (hb : ∀ w ∈ b, IsWord d w) (hne : a ≠ []) :
    (sep.intercalate a ++ sep) <+: sep.intercalate b ↔ a <+: b ∧ a ≠ b := by
  constructor
  · rintro ⟨t, ht⟩
    rw [List.append_assoc] at ht
    obtain ⟨rest, hr, rfl, -⟩ := h.of_append ha hb hne ht
    exact ⟨⟨rest, rfl⟩, by simpa using hr⟩
  · rintro ⟨⟨rest, rfl⟩, hr⟩
    have hr : rest ≠ [] := by simpa using hr
    exact ⟨sep.intercalate rest, by rw [intercalate_append hne hr, List.append_assoc]⟩

theorem IsSeparator.intercalate_injective (h : IsSeparator d sep) {a b : List (List α)}
    (ha : ∀ w ∈ a, IsWord d w) (hb : ∀ w ∈ b, IsWord d w)
    (heq : sep.intercalate a = sep.intercalate b) : a = b := by
  rw [← h.fieldsAt_intercalate ha, heq, h.fieldsAt_intercalate hb]

/-- A part between two occurrences of `d` is without it. -/
theorem not_mem_of_mem_splitOn {s w : List α} (h : w ∈ s.splitOn d) : d ∉ w := by
  induction hn : s.length using Nat.strongRecOn generalizing s with
  | ind n ih =>
    by_cases hd : d ∈ s
    · obtain ⟨a, b, rfl, ha⟩ := List.eq_append_cons_of_mem hd
      rw [List.splitOn_append_cons_self_of_not_mem ha, List.mem_cons] at h
      rcases h with rfl | h
      · exact ha
      · refine ih b.length ?_ h rfl
        rw [← hn, List.length_append, List.length_cons]
        omega
    · rw [List.splitOn_eq_singleton hd, List.mem_singleton] at h
      rw [h]
      exact hd

end Lib
