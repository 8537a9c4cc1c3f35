import QtProtobuf.L2Codec.Reading

/-!
# Reading in front of other bytes

What a decoder makes of bytes at the end of a buffer, it makes of them in front
of other bytes too. It may also go on into these bytes where the buffer would
have ended; then it does not stop where they begin.

* `Local`: the two readings of a program; `Local.bind`, `Local.whileM`.
* `Local.property`: one record, in two buffers.
-/
namespace QtProtobuf.Codec

open Lib Wire

/-- What an outcome at the end of a buffer says about the one before `tail`. -/
def Agrees {α : Type} (tail : Bytes) : Outcome Stop Bytes α → Outcome Stop Bytes α → Prop
  | .ok v t, o => o = .ok v (t ++ tail)
  | .fail _, o => ∀ v u, o = .ok v u → u.length < tail.length
  | .bad, o => ∀ v u, o ≠ .ok v u
  | .spent, _ => True

/-- `w` in a buffer of `size` bytes, that ends where `tail` begins, and `w'` in
one of `size'` bytes. -/
structure Local {α : Type} (size size' : Nat) (tail : Bytes) (w w' : Walk Stop Bytes α) : Prop where
  noGrow : Walk.NoGrow List.length w
  noGrow' : Walk.NoGrow List.length w'
  agrees : ∀ rest, rest.length ≤ size → (rest ++ tail).length ≤ size' →
    Agrees tail (w.run rest) (w'.run (rest ++ tail))

section
variable {α β : Type} {tail : Bytes}

namespace Local

variable {size size' : Nat}

theorem pure (v : α) : Local size size' tail (Pure.pure v) (Pure.pure v) where
  noGrow := .pure v
  noGrow' := .pure v
  agrees _ _ _ := rfl

theorem fail (e : Stop) : Local (α := α) size size' tail (.fail e) (.fail e) where
  noGrow := .fail e
  noGrow' := .fail e
  agrees _ _ _ := fun v u h => by cases h

theorem bind {w w' : Walk Stop Bytes α} {k k' : α → Walk Stop Bytes β}
    (hw : Local size size' tail w w') (hk : ∀ v, Local size size' tail (k v) (k' v)) :
    Local size size' tail (w >>= k) (w' >>= k') := by
  refine ⟨hw.noGrow.bind fun v => (hk v).noGrow, hw.noGrow'.bind fun v => (hk v).noGrow', ?_⟩
  intro rest hs hs'
  have h := hw.agrees rest hs hs'
  rw [Walk.run_bind]
  cases hr : w.run rest with
  | ok v t =>
    rw [hr] at h
    have hle := hw.noGrow rest v t hr
    rw [Walk.run_bind_ok h]
    refine (hk v).agrees t (by omega) ?_
    rw [List.length_append] at hs' ⊢
    omega
  | fail e =>
    rw [hr] at h
    intro c u hc
    obtain ⟨v, t, hv, hu⟩ := Walk.bind_ok hc
    have hlt := h v t hv
    have hle := (hk v).noGrow' t c u hu
    exact Nat.lt_of_le_of_lt hle hlt
  | bad =>
    rw [hr] at h
    intro c u hc
    obtain ⟨v, t, hv, -⟩ := Walk.bind_ok hc
    exact h v t hv
  | spent => trivial

theorem lift {U : Type} {o o' : Outcome Stop U α} (h : o = .spent ∨ o' = o) :
    Local size size' tail (Walk.lift o) (Walk.lift o') := by
  refine ⟨.lift o, .lift o', fun rest _ _ => ?_⟩
  rcases h with rfl | rfl
  · trivial
  · cases o' with
    | ok v t => rfl
    | fail e => exact fun v u h => by cases h
    | bad => exact fun v u h => by cases h
    | spent => trivial

/-- The length of `tail` is added to where the loop ends. -/
theorem differs_append (left : Nat) (rest : Bytes) :
    Rest.differs (left + tail.length) (rest ++ tail) = Rest.differs left rest := by
  unfold Rest.differs
  rw [List.length_append, Bool.eq_iff_iff, bne_iff_ne, bne_iff_ne]
  omega

theorem whileM {body body' : β → Walk Stop Bytes β}
    (hb : ∀ b, Local size size' tail (body b) (body' b)) (left : Nat) {n n' : Nat} (hn : n ≤ n') (b : β) :
    Local size size' tail (Walk.whileM (Rest.differs left) body n b)
      (Walk.whileM (Rest.differs (left + tail.length)) body' n' b) := by
  refine ⟨.whileM (fun b => (hb b).noGrow) n b, .whileM (fun b => (hb b).noGrow') n' b, ?_⟩
  induction n generalizing n' b with
  | zero => exact fun _ _ _ => trivial
  | succ n ih =>
    obtain ⟨n', rfl⟩ : ∃ k, n' = k + 1 := ⟨n' - 1, by omega⟩
    intro rest hs hs'
    have hc : Rest.differs (left + tail.length) (rest ++ tail) = Rest.differs left rest :=
      differs_append left rest
    rw [Walk.run_while, Walk.run_while, hc]
    cases Rest.differs left rest with
    | true =>
      have hrest : ∀ c, Local size size' tail (Walk.whileM (Rest.differs left) body n c)
          (Walk.whileM (Rest.differs (left + tail.length)) body' n' c) := fun c =>
        ⟨.whileM (fun b => (hb b).noGrow) n c, .whileM (fun b => (hb b).noGrow') n' c,
          ih (by omega) c⟩
      exact ((hb b).bind hrest).agrees rest hs hs'
    | false => rfl

/-! ## The operators -/

theorem varintLoop (w k : Nat) (acc : BitVec w) (rest : Bytes) (hs : (rest ++ tail).length < 2 ^ 31) :
    Agrees tail (Rest.varintLoop w k acc rest) (Rest.varintLoop w k acc (rest ++ tail)) := by
  induction rest generalizing k acc with
  | nil => exact fun v u h => Rest.varintLoop_lt h
  | cons c rest ih =>
    rw [List.cons_append, List.length_cons] at hs
    have hs₁ : rest.length + 1 < 2 ^ 31 := by
      rw [List.length_append] at hs
      omega
    rw [List.cons_append, Rest.varintLoop, Rest.varintLoop, if_pos (Fits.of_le (by omega) hs₁),
      if_pos (Fits.of_le (by omega) hs)]
    by_cases hc : c &&& 0x80 = 0
    · rw [if_pos hc, if_pos hc]
      rfl
    · rw [if_neg hc, if_neg hc]
      exact ih _ _ (by omega)

theorem skipVarintLoop (rest : Bytes) (hs : (rest ++ tail).length < 2 ^ 31) :
    Agrees tail (Rest.skipVarintLoop rest) (Rest.skipVarintLoop (rest ++ tail)) := by
  induction rest with
  | nil => exact fun v u h => Rest.skipVarintLoop_lt h
  | cons c rest ih =>
    rw [List.cons_append, List.length_cons] at hs
    have hs₁ : rest.length + 1 < 2 ^ 31 := by
      rw [List.length_append] at hs
      omega
    rw [List.cons_append, Rest.skipVarintLoop, Rest.skipVarintLoop, if_pos (Fits.of_le (by omega) hs₁),
      if_pos (Fits.of_le (by omega) hs)]
    by_cases hc : c &&& 0x80 = 0
    · rw [if_pos hc, if_pos hc]
      rfl
    · rw [if_neg hc, if_neg hc]
      exact ih (by omega)

section
variable (hsize : size < 2 ^ 31) (hsize' : size' < 2 ^ 31)
include hsize hsize'

omit hsize in
theorem varint (w : Nat) : Local size size' tail (Rest.varint w) (Rest.varint w) where
  noGrow := (Shrinks.varint w).noGrow
  noGrow' := (Shrinks.varint w).noGrow
  agrees rest _ hs' := varintLoop w 0 0 rest (by omega)

omit hsize in
theorem skipVarint : Local size size' tail Rest.skipVarint Rest.skipVarint where
  noGrow := NoGrow.skipVarint
  noGrow' := NoGrow.skipVarint
  agrees rest _ hs' := skipVarintLoop rest (by omega)

/-- Whether `n` bytes are there, with and without `tail`. -/
theorem fits {rest : Bytes} (hs : rest.length ≤ size) (hs' : (rest ++ tail).length ≤ size') {n : Nat}
    (hn : n < 2 ^ 31) : (Fits rest.length n ↔ n ≤ rest.length) ∧
      (Fits (rest ++ tail).length n ↔ n ≤ (rest ++ tail).length) :=
  ⟨Fits.iff_le (by omega) hn, Fits.iff_le (by omega) hn⟩

omit hsize hsize' in
/-- Taking more than `rest` leads into `tail`. -/
theorem drop_lt {rest : Bytes} {n : Nat} (hn : rest.length < n) (hle : n ≤ (rest ++ tail).length) :
    ((rest ++ tail).drop n).length < tail.length := by
  rw [List.length_append] at hle
  rw [List.length_drop, List.length_append]
  omega

/-- A program that takes `n` bytes where they are there, and fails where they
are not. -/
theorem of_drop {n : Nat} (hn : n < 2 ^ 31) {w : Walk Stop Bytes α} {f : Bytes → α} {e : Stop}
    (hw : ∀ rest, w.run rest = if Fits rest.length n then .ok (f rest) (rest.drop n) else .fail e)
    (hf : ∀ rest, n ≤ rest.length → f (rest ++ tail) = f rest) : Local size size' tail w w := by
  have hgrow : Walk.NoGrow List.length w := by
    intro rest v t h
    rw [hw] at h
    split at h
    · cases h; rw [List.length_drop]; exact Nat.sub_le _ _
    · cases h
  refine ⟨hgrow, hgrow, fun rest hs hs' => ?_⟩
  obtain ⟨hfit, hfit'⟩ := fits hsize hsize' hs hs' hn
  rw [hw, hw]
  by_cases hle : n ≤ rest.length
  · have hle' : n ≤ (rest ++ tail).length := by rw [List.length_append]; omega
    rw [if_pos (hfit.mpr hle), if_pos (hfit'.mpr hle'), hf rest hle, List.drop_append_of_le_length hle]
    rfl
  · rw [if_neg (mt hfit.mp hle)]
    intro v u h
    split at h
    · rename_i hd
      cases h
      exact drop_lt (Nat.lt_of_not_le hle) (hfit'.mp hd)
    · cases h

omit hsize hsize' in
/-- A program that returns nowhere. -/
theorem of_not_ok {w : Walk Stop Bytes α} (hw : ∀ rest v u, w.run rest ≠ .ok v u)
    (hspent : ∀ rest, w.run rest ≠ .spent) : Local size size' tail w w := by
  refine ⟨fun rest v u h => absurd h (hw rest v u), fun rest v u h => absurd h (hw rest v u),
    fun rest _ _ => ?_⟩
  cases hr : w.run rest with
  | ok v u => exact absurd hr (hw rest v u)
  | fail e => exact fun v u h => absurd h (hw _ v u)
  | bad => exact fun v u => hw _ v u
  | spent => exact absurd hr (hspent rest)

theorem take {n : Nat} (hn : n < 2 ^ 31) : Local size size' tail (Rest.take n) (Rest.take n) :=
  of_drop hsize hsize' hn (fun _ => rfl) fun _ hle => List.take_append_of_le_length hle

theorem advance {n : Nat} (hn : n < 2 ^ 31) : Local size size' tail (Rest.advance n) (Rest.advance n) :=
  of_drop hsize hsize' hn (fun _ => rfl) fun _ _ => rfl

theorem takeLength (length : BitVec 32) :
    Local size size' tail (Rest.takeLength length) (Rest.takeLength length) := by
  by_cases hb : length.toNat < 2 ^ 31
  · refine of_drop hsize hsize' hb (f := List.take length.toNat) (e := .outOfRange) (fun rest => ?_)
      fun _ hle => List.take_append_of_le_length hle
    simp only [Rest.takeLength, if_pos hb]
  · refine of_not_ok (fun rest v u => ?_) fun rest => ?_
    · simp only [Rest.takeLength, if_neg hb]
      split <;> exact nofun
    · simp only [Rest.takeLength, if_neg hb]
      split <;> exact nofun

theorem advanceLength (length : BitVec 32) :
    Local size size' tail (Rest.advanceLength length) (Rest.advanceLength length) := by
  by_cases hb : length.toNat < 2 ^ 31
  · refine of_drop hsize hsize' hb (f := fun _ => ()) (e := .outOfRange) (fun rest => ?_) fun _ _ => rfl
    simp only [Rest.advanceLength, if_pos hb]
  · refine of_not_ok (fun rest v u => ?_) fun rest => ?_
    · simp only [Rest.advanceLength, if_neg hb]
      split <;> exact nofun
    · simp only [Rest.advanceLength, if_neg hb]
      split <;> exact nofun

/-- A length that does not lead back. -/
theorem length_cases {rest : Bytes} (hs : rest.length ≤ size) (hs' : (rest ++ tail).length ≤ size')
    (length : BitVec 32) :
    (length.toNat ≤ rest.length ∧ Fits rest.length length.toNat ∧
      Fits (rest ++ tail).length length.toNat ∧ length.toNat < 2 ^ 31) ∨
    (rest.length < length.toNat ∧ length.toNat < 2 ^ 31 ∧ ¬ Fits rest.length length.toNat) ∨
    2 ^ 31 ≤ length.toNat := by
  by_cases hb : length.toNat < 2 ^ 31
  · obtain ⟨hf, hf'⟩ := fits hsize hsize' hs hs' hb
    by_cases hle : length.toNat ≤ rest.length
    · left
      refine ⟨hle, hf.mpr hle, hf'.mpr ?_, hb⟩
      rw [List.length_append]
      omega
    · exact .inr (.inl ⟨by omega, hb, mt hf.mp hle⟩)
  · exact .inr (.inr (by omega))

omit hsize hsize' in
theorem plusLength_back {s : Nat} {r u : Bytes} {length : BitVec 32} {left : Nat}
    (hb : 2 ^ 31 ≤ length.toNat) : (Rest.plusLength s length).run r ≠ .ok left u := by
  intro h
  have hnot : ¬ length.toNat < 2 ^ 31 := Nat.not_lt.mpr hb
  unfold Rest.plusLength at h
  dsimp only at h
  rw [if_neg hnot] at h
  split at h
  · cases h
  · split at h <;> cases h

/-- A program that goes up to a length prefix, which itself may lead into `tail`. -/
theorem plusLength_bind {k k' : Nat → Walk Stop Bytes β} (length : BitVec 32)
    (hk : ∀ left, Local size size' tail (k left) (k' (left + tail.length)))
    (hk' : ∀ left, Walk.NoGrow List.length (k' left))
    (hend : ∀ left r v u, (k' left).run r = .ok v u → u.length = left) :
    Local size size' tail (Rest.plusLength size length >>= k) (Rest.plusLength size' length >>= k') := by
  refine ⟨(NoGrow.plusLength size length).bind fun left => (hk left).noGrow,
    (NoGrow.plusLength size' length).bind hk', fun rest hs hs' => ?_⟩
  have hrun := Rest.plusLength_run hs hsize length
  have hrun' := Rest.plusLength_run hs' hsize' length
  rcases length_cases hsize hsize' hs hs' length with ⟨hle, hf, hf', hb⟩ | ⟨hlt, hb, hf⟩ | hb
  · have hleft : (rest ++ tail).length - length.toNat = rest.length - length.toNat + tail.length := by
      rw [List.length_append]
      omega
    rw [if_pos hf, if_pos hb] at hrun
    rw [if_pos hf', if_pos hb, hleft] at hrun'
    rw [Walk.run_bind_ok hrun, Walk.run_bind_ok hrun']
    exact (hk _).agrees rest hs hs'
  · rw [if_neg hf] at hrun
    rw [Walk.run_bind, hrun]
    intro v u h
    obtain ⟨left, t, hl, hu⟩ := Walk.bind_ok h
    rw [hrun', if_pos hb] at hl
    split at hl
    · rename_i hfit
      have hle := hfit.le hb
      cases hl
      rw [hend _ _ v u hu]
      rw [List.length_append] at hle ⊢
      omega
    · cases hl
  · have hno : ∀ v u, (Rest.plusLength size' length >>= k').run (rest ++ tail) ≠ .ok v u := by
      intro v u h
      obtain ⟨left, t, hl, -⟩ := Walk.bind_ok h
      exact plusLength_back hb hl
    rw [Walk.run_bind]
    cases hr : (Rest.plusLength size length).run rest with
    | ok left t => exact absurd hr (plusLength_back hb)
    | fail e => exact fun v u h => absurd h (hno v u)
    | bad => exact hno
    | spent => trivial

/-! ## Values -/

omit hsize in
theorem header : Local size size' tail Rest.header Rest.header :=
  .bind (varint hsize' 32) fun _ => .pure _

theorem basic (t : NumType) : Local size size' tail (Rest.basic t) (Rest.basic t) := by
  have hw := t.width_eq
  unfold Rest.basic Reader.basic
  split
  · exact .bind (take hsize hsize' (by omega)) fun _ => .pure _
  · exact varint hsize' _
  · exact .bind (varint hsize' _) fun _ => .pure _

theorem lengthDelimited : Local size size' tail Rest.lengthDelimited Rest.lengthDelimited :=
  .bind (varint hsize' 32) fun length => takeLength hsize hsize' length

theorem scalar (qt : QtCore) (t : ScalarType) :
    Local size size' tail (Rest.scalar qt t) (Rest.scalar qt t) := by
  cases t with
  | num t => exact .bind (basic hsize hsize' t) fun _ => .pure _
  | bool => exact .bind (basic hsize hsize' _) fun _ => .pure _
  | string => exact .bind (lengthDelimited hsize hsize') fun _ => .pure _
  | bytes => exact .bind (lengthDelimited hsize hsize') fun _ => .pure _

omit hsize hsize' in
theorem get_bind {k k' : Bytes → Walk Stop Bytes β}
    (hk : ∀ rest, Local size size' tail (k rest) (k' (rest ++ tail)))
    (hk' : ∀ rest, Walk.NoGrow List.length (k' rest)) :
    Local size size' tail (Walk.get >>= k) (Walk.get >>= k') :=
  ⟨.bind .get fun rest => (hk rest).noGrow, .bind .get hk', fun rest hs hs' =>
    (hk rest).agrees rest hs hs'⟩

omit hsize hsize' in
theorem while_end {left n : Nat} {body : β → Walk Stop Bytes β} {b v : β} {r u : Bytes}
    (h : (Walk.whileM (Rest.differs left) body n b).run r = .ok v u) : u.length = left := by
  have hc := Walk.while_done h
  unfold Rest.differs at hc
  simpa using hc

theorem list (t : NumType) : Local size size' tail (Rest.list size t) (Rest.list size' t) := by
  have hbody : ∀ out : List (BitVec t.width), Local size size' tail
      (Rest.basic t >>= fun v => Pure.pure (out ++ [v])) (Rest.basic t >>= fun v => Pure.pure (out ++ [v])) :=
    fun out => .bind (basic hsize hsize' t) fun v => .pure _
  refine .bind (varint hsize' 32) fun count => ?_
  refine plusLength_bind hsize hsize' count (fun left => ?_) (fun left => ?_) fun left r v u h => ?_
  · refine get_bind (fun rest => whileM hbody left ?_ []) fun rest => ?_
    · show rest.length + 1 ≤ (rest ++ tail).length + 1
      rw [List.length_append]
      omega
    · exact .whileM (fun out => (hbody out).noGrow') _ _
  · exact .bind .get fun rest => .whileM (fun out => (hbody out).noGrow') _ _
  · obtain ⟨rest, t', -, hw⟩ := Walk.bind_ok h
    exact while_end hw

theorem skip (t : WireTypes) : Local size size' tail (Rest.skip t) (Rest.skip t) := by
  cases t with
  | varint => exact skipVarint hsize'
  | fixed32 => exact advance hsize hsize' (by decide)
  | fixed64 => exact advance hsize hsize' (by decide)
  | lengthDelimited => exact .bind (varint hsize' 32) fun length => advanceLength hsize hsize' length
  | _ => exact .fail _

variable {M : Type} {S : Schema M} {qt : QtCore}
  {rec rec' : M → Bytes → Outcome Stop Bytes (List (Value M))}
  (hrec : ∀ m array, rec m array = .spent ∨ rec' m array = rec m array)
include hrec

theorem object (m : M) : Local size size' tail (Rest.object rec m) (Rest.object rec' m) :=
  .bind (lengthDelimited hsize hsize') fun array => .bind (.lift (hrec m array)) fun _ => .pure _

theorem single (t : SingleType M) :
    Local size size' tail (Rest.single qt rec t) (Rest.single qt rec' t) := by
  cases t with
  | scalar t => exact .bind (scalar hsize hsize' qt t) fun _ => .pure _
  | enum => exact .bind (basic hsize hsize' _) fun _ => .pure _
  | message m => exact object hsize hsize' hrec m

theorem mapPart (kt : ScalarType) (vt : SingleType M) (pair : Scalar × Value M) :
    Local size size' tail (Rest.mapPart qt rec kt vt pair) (Rest.mapPart qt rec' kt vt pair) := by
  refine .bind (header hsize') fun header => ?_
  split
  · exact .bind (scalar hsize hsize' qt kt) fun _ => .pure _
  · exact .bind (single hsize hsize' hrec vt) fun _ => .pure _

variable {n n' : Nat} (hn : n ≤ n')
include hn

theorem mapPair (kt : ScalarType) (vt : SingleType M) :
    Local size size' tail (Rest.mapPair qt rec n size kt vt) (Rest.mapPair qt rec' n' size' kt vt) := by
  have hpart : ∀ pair, Local size size' tail (Rest.mapPart qt rec kt vt pair)
      (Rest.mapPart qt rec' kt vt pair) := mapPart hsize hsize' hrec kt vt
  refine .bind (varint hsize' 32) fun count => ?_
  refine plusLength_bind hsize hsize' count (fun left => whileM hpart left hn _) (fun left => ?_)
    fun left r v u h => while_end h
  exact .whileM (fun pair => (hpart pair).noGrow') _ _

theorem value (previous : Value M) (t : FieldType M) :
    Local size size' tail (Rest.value qt rec n size previous t) (Rest.value qt rec' n' size' previous t) := by
  cases t with
  | single t => exact single hsize hsize' hrec t
  | nums t => exact .bind (list hsize hsize' t) fun _ => .pure _
  | strings => exact .bind (lengthDelimited hsize hsize') fun _ => .pure _
  | byteArrays => exact .bind (lengthDelimited hsize hsize') fun _ => .pure _
  | enums => exact .bind (list hsize hsize' _) fun _ => .pure _
  | messages m => exact .bind (object hsize hsize' hrec m) fun _ => .pure _
  | map kt vt => exact .bind (mapPair hsize hsize' hrec hn kt vt) fun _ => .pure _

theorem field (m : M) (object : List (Value M)) (fieldNumber : Nat) (wireType : WireTypes) :
    Local size size' tail (Rest.field S qt rec n size m object fieldNumber wireType)
      (Rest.field S qt rec' n' size' m object fieldNumber wireType) := by
  unfold Rest.field Reader.field
  split
  · exact .bind (skip hsize hsize' wireType) fun _ => .pure _
  · exact .bind (value hsize hsize' hrec hn _ _) fun _ => .pure _

/-- **One record.** -/
theorem property (m : M) (object : List (Value M)) :
    Local size size' tail (Rest.property S qt rec n size m object)
      (Rest.property S qt rec' n' size' m object) := by
  refine .bind (header hsize') fun header => ?_
  split
  · exact field hsize hsize' hrec hn m object _ _
  · exact .fail _

end

end Local

/-! ## What a reading takes -/

/-- What was read in front of `tail`, and no more, is read at the end of a buffer. -/
theorem Local.restrict {size size' : Nat} {w w' : Walk Stop Bytes α} (h : Local size size' tail w w')
    {rest u : Bytes} {v : α} (hs : rest.length ≤ size) (hs' : (rest ++ tail).length ≤ size')
    (hspent : w.run rest ≠ .spent) (hr : w'.run (rest ++ tail) = .ok v u) (hu : tail.length ≤ u.length) :
    ∃ t, w.run rest = .ok v t ∧ u = t ++ tail := by
  have ha := h.agrees rest hs hs'
  cases ho : w.run rest with
  | ok v' t =>
    rw [ho] at ha
    rw [ha] at hr
    cases hr
    exact ⟨t, rfl, rfl⟩
  | fail e =>
    rw [ho] at ha
    have hlt := ha v u hr
    omega
  | bad =>
    rw [ho] at ha
    exact absurd hr (ha v u)
  | spent => exact absurd ho hspent

end

end QtProtobuf.Codec
