import QtProtobuf.L2Codec.Schema

/-!
# Setters

A setter keeps the old value when it is equal to the new one. Values that differ
by this only are `Near`.

* `Value.same_symm`, `Value.same_trans`: the equality of the setters.
* `near_write`: what a setter leaves is near what was set.
-/
namespace QtProtobuf.Codec

open Wire

/-! ## Equality -/

section
variable {α : Type} {same : α → α → Bool} {vs ws us : List α}

theorem sameList_length (h : sameList same vs ws = true) : vs.length = ws.length := by
  unfold sameList at h
  rw [Bool.and_eq_true, beq_iff_eq] at h
  exact h.1

theorem sameList_of_length (h : vs.length ≠ ws.length) : sameList same vs ws = false := by
  cases hs : sameList same vs ws with
  | false => rfl
  | true => exact absurd (sameList_length hs) h

theorem sameList_cons {v w : α} :
    sameList same (v :: vs) (w :: ws) = true ↔ same v w = true ∧ sameList same vs ws = true := by
  simp [sameList]
  constructor
  · rintro ⟨hl, h, ht⟩
    exact ⟨h, hl, ht⟩
  · rintro ⟨h, hl, ht⟩
    exact ⟨hl, h, ht⟩

theorem sameList_symm (hs : ∀ v w, same v w = true → same w v = true) (h : sameList same vs ws = true) :
    sameList same ws vs = true := by
  induction vs generalizing ws with
  | nil =>
    cases ws with
    | nil => rfl
    | cons w ws => cases sameList_length h
  | cons v vs ih =>
    cases ws with
    | nil => cases sameList_length h
    | cons w ws =>
      obtain ⟨hvw, hl⟩ := sameList_cons.mp h
      exact sameList_cons.mpr ⟨hs v w hvw, ih hl⟩

theorem sameList_trans (hs : ∀ v w u, same v w = true → same w u = true → same v u = true)
    (h : sameList same vs ws = true) (h' : sameList same ws us = true) : sameList same vs us = true := by
  induction vs generalizing ws us with
  | nil =>
    cases ws with
    | nil => exact h'
    | cons w ws => cases sameList_length h
  | cons v vs ih =>
    cases ws with
    | nil => cases sameList_length h
    | cons w ws =>
      cases us with
      | nil => cases sameList_length h'
      | cons u us =>
        obtain ⟨hvw, hl⟩ := sameList_cons.mp h
        obtain ⟨hwu, hl'⟩ := sameList_cons.mp h'
        exact sameList_cons.mpr ⟨hs v w u hvw hwu, ih hl hl'⟩

end

theorem NumType.same_symm {t : NumType} {v w : Nat} (h : t.same v w = true) : t.same w v = true := by
  unfold NumType.same at h ⊢
  cases hi : t.infinity with
  | none =>
    simp only [hi, beq_iff_eq] at h ⊢
    exact h.symm
  | some inf =>
    simp only [hi, Bool.and_eq_true, Bool.or_eq_true, decide_eq_true_eq, beq_iff_eq] at h ⊢
    obtain ⟨⟨hv, hw⟩, heq | ⟨hv0, hw0⟩⟩ := h
    · exact ⟨⟨hw, hv⟩, .inl heq.symm⟩
    · exact ⟨⟨hw, hv⟩, .inr ⟨hw0, hv0⟩⟩

theorem NumType.same_trans {t : NumType} {v w u : Nat} (h : t.same v w = true) (h' : t.same w u = true) :
    t.same v u = true := by
  unfold NumType.same at h h' ⊢
  cases hi : t.infinity with
  | none =>
    simp only [hi, beq_iff_eq] at h h' ⊢
    exact h.trans h'
  | some inf =>
    simp only [hi, Bool.and_eq_true, Bool.or_eq_true, decide_eq_true_eq, beq_iff_eq] at h h' ⊢
    obtain ⟨⟨hv, hw⟩, heq | ⟨hv0, hw0⟩⟩ := h
    · subst heq
      exact h'
    · obtain ⟨⟨-, hu⟩, heq | ⟨-, hu0⟩⟩ := h'
      · subst heq
        exact ⟨⟨hv, hu⟩, .inr ⟨hv0, hw0⟩⟩
      · exact ⟨⟨hv, hu⟩, .inr ⟨hv0, hu0⟩⟩

theorem Scalar.same_symm {v w : Scalar} (h : v.same w = true) : w.same v = true := by
  cases v <;> cases w <;>
    first
    | (simp only [Scalar.same, Bool.and_eq_true, beq_iff_eq] at h ⊢
       obtain ⟨rfl, h⟩ := h
       exact ⟨rfl, NumType.same_symm h⟩)
    | (simp only [Scalar.same, beq_iff_eq] at h ⊢
       exact h.symm)

theorem Scalar.same_trans {v w u : Scalar} (h : v.same w = true) (h' : w.same u = true) :
    v.same u = true := by
  cases v <;> cases w <;> cases u <;>
    first
    | (simp only [Scalar.same, Bool.and_eq_true, beq_iff_eq] at h h' ⊢
       obtain ⟨rfl, h⟩ := h
       obtain ⟨rfl, h'⟩ := h'
       exact ⟨rfl, NumType.same_trans h h'⟩)
    | (simp only [Scalar.same, beq_iff_eq] at h h' ⊢
       exact h.trans h')
    | cases h
    | cases h'

variable {M : Type}

/-- `==` of two entries of a map, in a setter. -/
def sameEntry (e e' : Scalar × Value M) : Bool :=
  e.1.same e'.1 && match e.2, e'.2 with
    | .scalar v, .scalar w => v.same w
    | .enum v, .enum w => v == w
    | _, _ => false

theorem sameEntry_iff {e e' : Scalar × Value M} :
    sameEntry e e' = true ↔ e.1.same e'.1 = true ∧
      ((∃ v w, e.2 = .scalar v ∧ e'.2 = .scalar w ∧ v.same w = true) ∨
        ∃ v, e.2 = .enum v ∧ e'.2 = .enum v) := by
  obtain ⟨k, v⟩ := e
  obtain ⟨k', v'⟩ := e'
  cases v <;> cases v' <;> simp [sameEntry]
  exact fun _ => eq_comm

theorem sameEntry_symm {e e' : Scalar × Value M} (h : sameEntry e e' = true) : sameEntry e' e = true := by
  rw [sameEntry_iff] at h ⊢
  obtain ⟨hk, ⟨v, w, hv, hw, h⟩ | ⟨v, hv, hw⟩⟩ := h
  · exact ⟨Scalar.same_symm hk, .inl ⟨w, v, hw, hv, Scalar.same_symm h⟩⟩
  · exact ⟨Scalar.same_symm hk, .inr ⟨v, hw, hv⟩⟩

theorem sameEntry_trans {e₁ e₂ e₃ : Scalar × Value M} (h : sameEntry e₁ e₂ = true)
    (h' : sameEntry e₂ e₃ = true) : sameEntry e₁ e₃ = true := by
  rw [sameEntry_iff] at h h' ⊢
  obtain ⟨hk, hv⟩ := h
  obtain ⟨hk', hv'⟩ := h'
  refine ⟨Scalar.same_trans hk hk', ?_⟩
  rcases hv with ⟨v, w, hv, hw, h⟩ | ⟨v, hv, hw⟩
  · rcases hv' with ⟨w', u, hw', hu, h'⟩ | ⟨w', hw', -⟩
    · rw [hw] at hw'
      cases hw'
      exact .inl ⟨v, u, hv, hu, Scalar.same_trans h h'⟩
    · rw [hw] at hw'
      cases hw'
  · rcases hv' with ⟨w', u, hw', -, -⟩ | ⟨w', hw', hu⟩
    · rw [hw] at hw'
      cases hw'
    · rw [hw] at hw'
      cases hw'
      exact .inr ⟨v, hv, hu⟩

theorem Value.same_map {es es' : List (Scalar × Value M)} :
    (Value.map es).same (.map es') = sameList sameEntry es es' := rfl

theorem Value.same_symm {v w : Value M} (h : v.same w = true) : w.same v = true := by
  cases v <;> cases w
  case scalar.scalar => exact Scalar.same_symm h
  case map.map =>
    rw [Value.same_map] at h ⊢
    refine sameList_symm ?_ h
    exact fun e e' he => sameEntry_symm he
  case nums.nums =>
    simp only [Value.same, Bool.and_eq_true, beq_iff_eq] at h ⊢
    obtain ⟨rfl, h⟩ := h
    refine ⟨rfl, sameList_symm ?_ h⟩
    exact fun v w hv => NumType.same_symm hv
  case enum.enum | enums.enums =>
    simp only [Value.same, beq_iff_eq] at h ⊢
    exact h.symm
  case strings.strings | byteArrays.byteArrays =>
    rw [Value.same] at h ⊢
    refine sameList_symm (fun s s' hs => ?_) h
    rw [beq_iff_eq] at hs ⊢
    exact hs.symm
  all_goals cases h

theorem Value.same_trans {v w u : Value M} (h : v.same w = true) (h' : w.same u = true) :
    v.same u = true := by
  cases v <;> cases w
  case scalar.scalar =>
    cases u
    case scalar => exact Scalar.same_trans h h'
    all_goals cases h'
  case map.map =>
    cases u
    case map =>
      rw [Value.same_map] at h h' ⊢
      refine sameList_trans ?_ h h'
      exact fun e₁ e₂ e₃ he he' => sameEntry_trans he he'
    all_goals cases h'
  case nums.nums =>
    cases u
    case nums =>
      simp only [Value.same, Bool.and_eq_true, beq_iff_eq] at h h' ⊢
      obtain ⟨rfl, h⟩ := h
      obtain ⟨rfl, h'⟩ := h'
      refine ⟨rfl, sameList_trans ?_ h h'⟩
      exact fun v w u hv hw => NumType.same_trans hv hw
    all_goals cases h'
  case enum.enum =>
    simp only [Value.same, beq_iff_eq] at h
    rwa [h]
  case enums.enums =>
    simp only [Value.same, beq_iff_eq] at h
    rwa [h]
  case strings.strings =>
    cases u
    case strings =>
      rw [Value.same] at h h' ⊢
      refine sameList_trans (fun s s' s'' hs hs' => ?_) h h'
      rw [beq_iff_eq] at hs hs' ⊢
      exact hs.trans hs'
    all_goals cases h'
  case byteArrays.byteArrays =>
    cases u
    case byteArrays =>
      rw [Value.same] at h h' ⊢
      refine sameList_trans (fun s s' s'' hs hs' => ?_) h h'
      rw [beq_iff_eq] at hs hs' ⊢
      exact hs.trans hs'
    all_goals cases h'
  all_goals cases h

/-! ## What a setter leaves -/

theorem Value.write_of_not_same {old new : Value M} (h : old.same new = false) : old.write new = new := by
  unfold Value.write
  rw [h, if_neg Bool.false_ne_true]

theorem append_ne {α : Type} (ws : List α) (w : α) : ws.length ≠ (ws ++ [w]).length := by
  rw [List.length_append]
  simp

/-- The setter of a list keeps the element that was appended. -/
theorem Value.write_strings (ws : List (Option (List UInt16))) (w : Option (List UInt16)) :
    (Value.strings (M := M) ws).write (.strings (ws ++ [w])) = .strings (ws ++ [w]) :=
  Value.write_of_not_same <| by
    rw [Value.same]
    exact sameList_of_length (append_ne ws w)

theorem Value.write_byteArrays (ws : List (Option Bytes)) (w : Option Bytes) :
    (Value.byteArrays (M := M) ws).write (.byteArrays (ws ++ [w])) = .byteArrays (ws ++ [w]) :=
  Value.write_of_not_same <| by
    rw [Value.same]
    exact sameList_of_length (append_ne ws w)

theorem Value.write_map (ws : List (Scalar × Value M)) (w : Scalar × Value M) :
    (Value.map ws).write (.map (ws ++ [w])) = .map (ws ++ [w]) :=
  Value.write_of_not_same <| by
    rw [Value.same]
    exact sameList_of_length (append_ne ws w)

theorem Value.write_messages (vs ws : List (Value M)) :
    (Value.messages vs).write (.messages ws) = .messages ws := Value.write_of_not_same rfl

theorem Value.write_enums (vs ws : List (BitVec 32)) :
    (Value.enums (M := M) vs).write (.enums ws) = .enums ws := by
  unfold Value.write
  split
  · rename_i h
    simp only [Value.same, beq_iff_eq] at h
    rw [h]
  · rfl

/-- Equal for the setter of the property. -/
def Near (v w : Value M) : Prop := v = w ∨ v.same w = true

theorem Near.refl (v : Value M) : Near v v := .inl rfl

theorem Near.symm {v w : Value M} (h : Near v w) : Near w v := h.imp Eq.symm Value.same_symm

theorem Near.trans {v w u : Value M} (h : Near v w) (h' : Near w u) : Near v u := by
  rcases h with rfl | h
  · exact h'
  · rcases h' with rfl | h'
    · exact .inr h
    · exact .inr (Value.same_trans h h')

theorem near_write (v w : Value M) : Near (v.write w) w := by
  unfold Value.write
  split
  · rename_i h
    exact .inr h
  · exact .refl w

theorem Near.object {m : M} {fs : List (Value M)} {v : Value M} (h : Near v (.object m fs)) :
    v = .object m fs := by
  rcases h with rfl | h
  · rfl
  · cases v <;> cases h

end QtProtobuf.Codec
