import QtProtobuf.L2Codec.Reading

/-!
# Termination on hostile input

The reading of a buffer needs no more rounds than there are bytes, and more
rounds change nothing (`message_finishes`, `message_mono`). So the decoder
terminates, and every step leads on, unless the reading meets a length prefix
that leads back (`LeadsBack`): one above 2^31 plus the number of bytes behind it.
-/
namespace QtProtobuf.Codec

open Lib Wire

/-! ## Enough rounds -/

section
variable {M : Type} {S : Schema M} {qt : QtCore} {rec : M → Bytes → Outcome Stop Bytes (List (Value M))}
  {n size k : Nat}

namespace Finishes

theorem varint (w : Nat) : Walk.Finishes List.length k (Rest.varint w) := by
  refine .of_all fun rest => ?_
  have h : ∀ (rest : Bytes) j (value : BitVec w), Rest.varintLoop w j value rest ≠ .spent := by
    intro rest
    induction rest with
    | nil => intro _ _ h; cases h
    | cons c rest ih =>
      intro j value h
      rw [Rest.varintLoop] at h
      split at h
      · split at h
        · cases h
        · exact ih _ _ h
      · cases h
  exact h rest 0 0

theorem skipVarint : Walk.Finishes List.length k Rest.skipVarint := by
  refine .of_all fun rest => ?_
  induction rest with
  | nil => intro h; cases h
  | cons c rest ih =>
    intro h
    have h : Rest.skipVarintLoop (c :: rest) = .spent := h
    rw [Rest.skipVarintLoop] at h
    split at h
    · split at h
      · cases h
      · exact ih h
    · cases h

theorem advance (j : Nat) : Walk.Finishes List.length k (Rest.advance j) := by
  refine .of_all fun rest h => ?_
  unfold Rest.advance at h
  dsimp only at h
  split at h <;> cases h

theorem take (j : Nat) : Walk.Finishes List.length k (Rest.take j) := by
  refine .of_all fun rest h => ?_
  unfold Rest.take at h
  dsimp only at h
  split at h <;> cases h

theorem advanceLength (length : BitVec 32) : Walk.Finishes List.length k (Rest.advanceLength length) := by
  refine .of_all fun rest h => ?_
  unfold Rest.advanceLength at h
  dsimp only at h
  split at h
  · split at h <;> cases h
  · cases h

theorem takeLength (length : BitVec 32) : Walk.Finishes List.length k (Rest.takeLength length) := by
  refine .of_all fun rest h => ?_
  unfold Rest.takeLength at h
  dsimp only at h
  split at h
  · split at h <;> cases h
  · cases h

theorem plusLength (length : BitVec 32) :
    Walk.Finishes List.length k (Rest.plusLength size length) := by
  refine .of_all fun rest h => ?_
  unfold Rest.plusLength at h
  dsimp only at h
  split at h
  · cases h
  · split at h
    · split at h <;> cases h
    · cases h

theorem header : Walk.Finishes List.length k Rest.header :=
  .bind (varint 32) (Shrinks.varint 32).noGrow fun _ => .pure _

theorem basic (t : NumType) : Walk.Finishes List.length k (Rest.basic t) := by
  have hw := t.width_eq
  unfold Rest.basic Reader.basic
  split
  · exact .bind (take _) (Shrinks.take (by omega) (by omega)).noGrow fun _ => .pure _
  · exact varint _
  · exact .bind (varint _) (Shrinks.varint _).noGrow fun _ => .pure _

theorem lengthDelimited : Walk.Finishes List.length k Rest.lengthDelimited :=
  .bind (varint 32) (Shrinks.varint 32).noGrow fun _ => takeLength _

theorem scalar (t : ScalarType) : Walk.Finishes List.length k (Rest.scalar qt t) := by
  cases t with
  | num t => exact .bind (basic t) (Shrinks.basic t).noGrow fun _ => .pure _
  | bool => exact .bind (basic _) (Shrinks.basic _).noGrow fun _ => .pure _
  | string => exact .bind lengthDelimited Shrinks.lengthDelimited.noGrow fun _ => .pure _
  | bytes => exact .bind lengthDelimited Shrinks.lengthDelimited.noGrow fun _ => .pure _

theorem list (t : NumType) : Walk.Finishes List.length k (Rest.list size t) := by
  refine .bind (varint 32) (Shrinks.varint 32).noGrow fun count => ?_
  refine .bind (plusLength count) (NoGrow.plusLength size count) fun last => ?_
  intro rest _
  have hloop : Walk.Finishes List.length rest.length (Walk.whileM (Rest.differs last)
      (fun out => Rest.basic t >>= fun v => pure (out ++ [v])) (rest.length + 1) []) :=
    .whileM (fun out => .bind (basic t) (Shrinks.basic t).noGrow fun _ => .pure _)
      (fun out => .bind (Shrinks.basic t) fun _ => .pure _) (Nat.lt_succ_self _) []
  exact hloop rest (Nat.le_refl _)

theorem skip (t : WireTypes) : Walk.Finishes List.length k (Rest.skip t) := by
  cases t with
  | varint => exact skipVarint
  | fixed32 => exact advance 4
  | fixed64 => exact advance 8
  | lengthDelimited =>
    exact .bind (varint 32) (Shrinks.varint 32).noGrow fun _ => advanceLength _
  | _ => exact .fail _

/-- The payload of a record is shorter than what is left. -/
theorem lengthDelimited_lt {rest array t : Bytes} (h : Rest.lengthDelimited.run rest = .ok array t) :
    array.length < rest.length := by
  obtain ⟨length, t', h₁, h₂⟩ := Walk.bind_ok h
  have hlt := Shrinks.varint 32 rest length t' h₁
  have h₂ : (Rest.takeLength length).run t' = .ok array t := h₂
  unfold Rest.takeLength at h₂
  dsimp only at h₂
  split at h₂
  · split at h₂
    · cases h₂
      rw [List.length_take]
      omega
    · cases h₂
  · cases h₂

variable (hrec : ∀ m array, array.length < k → rec m array ≠ .spent)
include hrec

theorem object (m : M) : Walk.Finishes List.length k (Rest.object rec m) := by
  intro rest hk h
  unfold Rest.object Reader.object at h
  rw [Walk.run_bind] at h
  cases hr : Rest.lengthDelimited.run rest with
  | ok array t =>
    rw [hr] at h
    have hlt := lengthDelimited_lt hr
    have hlift : Walk.Finishes (T := Bytes) List.length t.length (Walk.lift (rec m array)) :=
      .lift (hrec m array (by omega))
    exact (hlift.bind (.lift _) fun fields => .pure (Value.object m fields)) t (Nat.le_refl _) h
  | fail => rw [hr] at h; cases h
  | bad => rw [hr] at h; cases h
  | spent => exact lengthDelimited rest hk hr

theorem single (t : SingleType M) : Walk.Finishes List.length k (Rest.single qt rec t) := by
  cases t with
  | scalar t => exact .bind (scalar t) (Shrinks.scalar t).noGrow fun _ => .pure _
  | enum => exact .bind (basic _) (Shrinks.basic _).noGrow fun _ => .pure _
  | message m => exact object hrec m

theorem mapPart (kt : ScalarType) (vt : SingleType M) (pair : Scalar × Value M) :
    Walk.Finishes List.length k (Rest.mapPart qt rec kt vt pair) := by
  refine .bind header Shrinks.header.noGrow fun header => ?_
  split
  · exact .bind (scalar kt) (Shrinks.scalar kt).noGrow fun _ => .pure _
  · exact .bind (single hrec vt) (Shrinks.single vt).noGrow fun _ => .pure _

/-- The rounds of the loop over an entry are those of the whole message. -/
theorem mapPair (hn : k ≤ n) (kt : ScalarType) (vt : SingleType M) :
    Walk.Finishes List.length k (Rest.mapPair qt rec n size kt vt) := by
  cases k with
  | zero =>
    intro rest h0 h
    obtain rfl := List.length_eq_zero_iff.mp (Nat.le_zero.mp h0)
    cases h
  | succ k =>
    refine .shrink (varint 32) (Shrinks.varint 32) fun count => ?_
    refine .bind (plusLength count) (NoGrow.plusLength size count) fun last => ?_
    have hrec' : ∀ m array, array.length < k → rec m array ≠ .spent := fun m array h =>
      hrec m array (by omega)
    exact .whileM (fun pair => mapPart hrec' kt vt pair) (fun pair => Shrinks.mapPart kt vt pair)
      (by omega) _

theorem value (hn : k ≤ n) (previous : Value M) (t : FieldType M) :
    Walk.Finishes List.length k (Rest.value qt rec n size previous t) := by
  cases t with
  | single t => exact single hrec t
  | nums t => exact .bind (list t) (Shrinks.list t).noGrow fun _ => .pure _
  | strings => exact .bind lengthDelimited Shrinks.lengthDelimited.noGrow fun _ => .pure _
  | byteArrays => exact .bind lengthDelimited Shrinks.lengthDelimited.noGrow fun _ => .pure _
  | enums => exact .bind (list _) (Shrinks.list _).noGrow fun _ => .pure _
  | messages m => exact .bind (object hrec m) (Shrinks.object m).noGrow fun _ => .pure _
  | map kt vt => exact .bind (mapPair hrec hn kt vt) (Shrinks.mapPair kt vt).noGrow fun _ => .pure _

theorem property (hn : k ≤ n) (m : M) (object : List (Value M)) :
    Walk.Finishes List.length k (Rest.property S qt rec n size m object) := by
  refine .bind header Shrinks.header.noGrow fun header => ?_
  split
  · unfold Reader.field
    split
    · exact .bind (skip _) (NoGrow.skip _) fun _ => .pure _
    · exact .bind (value hrec hn _ _) (Shrinks.value _ _).noGrow fun _ => .pure _
  · exact .fail _

end Finishes

/-- As many rounds as there are bytes, and one, are enough. -/
theorem message_finishes {n : Nat} {m : M} {object : List (Value M)} {data : Bytes}
    (hn : data.length < n) : Rest.message S qt n m object data ≠ .spent := by
  induction n generalizing m object data with
  | zero => omega
  | succ n ih =>
    have hrec : ∀ m' array, array.length < data.length → Rest.nested S qt n m' array ≠ .spent :=
      fun m' array h => ih (by omega)
    have hloop : Walk.Finishes List.length data.length (Walk.whileM (Rest.differs 0)
        (Rest.property S qt (Rest.nested S qt n) n data.length m) (n + 1) object) :=
      .whileM (fun object => Finishes.property hrec (by omega) m object)
        (fun object => Shrinks.property m object) hn object
    exact hloop data (Nat.le_refl _)

/-- More rounds change nothing. -/
theorem message_mono {n n' : Nat} (hn : n ≤ n') (m : M) (object : List (Value M)) (data : Bytes) :
    Rest.message S qt n m object data = .spent ∨
      Rest.message S qt n' m object data = Rest.message S qt n m object data :=
  Reader.message_mono hn m object data

/-- All sufficient numbers of rounds give the same. -/
theorem message_stable {n : Nat} {m : M} {object : List (Value M)} {data : Bytes}
    (hn : data.length < n) :
    Rest.message S qt n m object data = Rest.message S qt (data.length + 1) m object data := by
  have hle : data.length + 1 ≤ n := by omega
  exact (message_mono hle m object data).resolve_left (message_finishes (Nat.lt_succ_self _))

end

/-! ## Termination -/

section
variable {M : Type} (S : Schema M) (qt : QtCore)

/-- The reading of `data` meets a length prefix that leads back. -/
def LeadsBack (m : M) (object : List (Value M)) (data : Bytes) : Prop :=
  Rest.message S qt (data.length + 1) m object data = .bad

/-- Every run ends, and every move is forward. -/
structure Terminates (env : Bytes → Int → UInt8) (m : M) (object : List (Value M)) (data : Bytes) :
    Prop where
  ends : ∃ N, ∀ n, N ≤ n → (deserializeMessage S qt env n m object data).2.2 ≠ some .spent
  forward : ∀ n, ∀ e ∈ (deserializeMessage S qt env n m object data).1, e.Good

variable {S qt}

theorem not_terminates {env : Bytes → Int → UInt8} {m : M} {object : List (Value M)} {data : Bytes}
    (hback : LeadsBack S qt m object data) : ¬ Terminates S qt env m object data := by
  intro h
  have hf := follows_message S qt env (data.length + 1) m object data
  rw [hback] at hf
  obtain ⟨e, he, hbad⟩ := hf
  rw [nestedResult_events] at he
  exact hbad (h.forward _ e he)

/-- The reading does not lead back with any number of rounds. -/
theorem not_bad {m : M} {object : List (Value M)} {data : Bytes}
    (hback : ¬ LeadsBack S qt m object data) (n : Nat) : Rest.message S qt n m object data ≠ .bad := by
  intro hbad
  have hle := Nat.le_max_left n (data.length + 1)
  rcases (message_mono hle m object data : Rest.message S qt _ _ _ _ = _ ∨ _) with h | h
  · rw [h] at hbad; cases hbad
  · refine hback ?_
    unfold LeadsBack
    rw [← message_stable (n := max n (data.length + 1)) (by omega), h, hbad]

theorem events_good {env : Bytes → Int → UInt8} {m : M} {object : List (Value M)} {data : Bytes}
    (hback : ¬ LeadsBack S qt m object data) (n : Nat) :
    ∀ e ∈ (deserializeMessage S qt env n m object data).1, e.Good := by
  intro e he
  have hf := follows_message S qt env n m object data
  rw [nestedResult_events] at hf
  cases hm : Rest.message S qt n m object data with
  | ok v t => rw [hm] at hf; exact hf.1 e he
  | fail => rw [hm] at hf; exact hf.1 e he
  | bad => exact absurd hm (not_bad hback n)
  | spent => rw [hm] at hf; exact hf.1 e he

theorem not_spent {env : Bytes → Int → UInt8} {m : M} {object : List (Value M)} {data : Bytes}
    (hback : ¬ LeadsBack S qt m object data) {n : Nat} (hn : data.length < n) :
    (deserializeMessage S qt env n m object data).2.2 ≠ some .spent := by
  intro hspent
  have hf := follows_message S qt env n m object data
  have hres : (nestedResult (deserializeMessage S qt env n m object data)).2 = .error .spent := by
    unfold nestedResult
    rw [hspent]
  rw [hres] at hf
  cases hm : Rest.message S qt n m object data with
  | ok v t =>
    rw [hm] at hf
    obtain ⟨-, a, s, ha, -⟩ := hf
    cases ha
  | fail =>
    rw [hm] at hf
    obtain ⟨-, hy, hne⟩ := hf
    cases hy
    exact hne rfl
  | bad => exact not_bad hback n hm
  | spent => exact message_finishes hn hm

/-- **Termination.** On every byte string the decoder ends and every step leads
on, unless the reading meets a length prefix that leads back. -/
theorem terminates_iff (env : Bytes → Int → UInt8) (m : M) (object : List (Value M)) (data : Bytes) :
    Terminates S qt env m object data ↔ ¬ LeadsBack S qt m object data :=
  ⟨fun h hback => not_terminates hback h,
    fun hback => ⟨⟨data.length + 1, fun _ hn => not_spent hback hn⟩, events_good hback⟩⟩

end

/-! ## A length prefix that leads back -/

/-- A message type without fields. -/
def emptyMessage {M : Type} : MetaObject M where
  properties := []
  propertyOrdering := []
  distinct := List.nodup_nil
  inRange := fun _ h => absurd h List.not_mem_nil
  indices := .nil

/-- An unknown field with the length 2^32 - 6 is skipped by going back six bytes,
to its own header. -/
theorem not_terminates_skip : ¬ Terminates (fun _ : Unit => emptyMessage) .ascii (fun _ _ => 0) () []
    [0x0A, 0xFA, 0xFF, 0xFF, 0xFF, 0x0F] :=
  not_terminates rfl

end QtProtobuf.Codec
