import QtProtobuf.L2Codec.Deserialize

/-!
# Readings of the format

`Reader T L` has one operation for each that the decoder applies to its
iterator, on a state `T`; `Reader.message` is `deserializeMessage` over these
operations, without the record of events. `Reader.Sound` says what they have to
do with the iterator, and `Reader.Sound.message` that the decoder then does
what the reading says.

* `Reader.message_mono`: more rounds change nothing.
* `Rest.message`: the reading of the bytes left; no iterator, no memory around
  the buffer. It ends with `bad` where a length prefix leads the iterator back.
* `follows_message`: up to a `bad` end all the moves of the decoder are forward.
-/
namespace QtProtobuf.Codec

open Lib Wire

/-- What a reading does for the operators of `QProtobufSelfcheckIterator`; an
`L` is where a loop ends. -/
structure Reader (T L : Type) where
  varint (w : Nat) : Walk Stop T (BitVec w)
  skipVarint : Walk Stop T Unit
  take (n : Nat) : Walk Stop T Bytes
  takeLength (length : BitVec 32) : Walk Stop T Bytes
  advance (n : Nat) : Walk Stop T Unit
  advanceLength (length : BitVec 32) : Walk Stop T Unit
  plusLength (size : Nat) (length : BitVec 32) : Walk Stop T L
  differs : L → T → Bool
  rounds : T → Nat

namespace Reader

variable {T L : Type} (r : Reader T L)

def header : Walk Stop T (Bool × Nat × WireTypes) := do
  let header ← r.varint 32
  let wireType := WireTypes.ofNat (header &&& 7).toNat
  let fieldIndex := (header >>> 3).toNat
  pure (decide (fieldIndex ≤ (1 <<< 29) - 1 ∧ fieldIndex > 0) && wireType.known, fieldIndex, wireType)

def basic (t : NumType) : Walk Stop T (BitVec t.width) :=
  match t.coding with
  | .fixed => do
    let bytes ← r.take (t.width / 8)
    pure (BitVec.ofNat t.width (ofLittleEndian bytes))
  | .plain => r.varint t.width
  | .zigZag => do
    let unsignedValue ← r.varint t.width
    pure (unZigZag unsignedValue)

def lengthDelimited : Walk Stop T Bytes := do
  let length ← r.varint 32
  r.takeLength length

def scalar (qt : QtCore) : ScalarType → Walk Stop T Scalar
  | .num t => do
    let v ← r.basic t
    pure (.num t v)
  | .bool => do
    let v ← r.basic .uint32
    pure (.bool (v != 0))
  | .string => do
    let value ← r.lengthDelimited
    pure (.string (some (qt.fromUtf8 value)))
  | .bytes => do
    let value ← r.lengthDelimited
    pure (.bytes (some value))

def list (size : Nat) (t : NumType) : Walk Stop T (List (BitVec t.width)) := do
  let count ← r.varint 32
  let last ← r.plusLength size count
  let it ← .get
  Walk.whileM (r.differs last)
    (fun out => do
      let v ← r.basic t
      pure (out ++ [v]))
    (r.rounds it) []

def skip : WireTypes → Walk Stop T Unit
  | .varint => r.skipVarint
  | .fixed32 => r.advance 4
  | .fixed64 => r.advance 8
  | .lengthDelimited => do
    let length ← r.varint 32
    r.advanceLength length
  | _ => .fail .invalidArgument

section
variable {M : Type} (S : Schema M) (qt : QtCore) (rec : M → Bytes → Outcome Stop T (List (Value M)))
  (n size : Nat)

def object (m : M) : Walk Stop T (Value M) := do
  let array ← r.lengthDelimited
  let fields ← Walk.lift (rec m array)
  pure (.object m fields)

def single : SingleType M → Walk Stop T (Value M)
  | .scalar t => do
    let v ← r.scalar qt t
    pure (.scalar v)
  | .enum => do
    let intValue ← r.basic .int64
    pure (.enum (intValue.setWidth 32))
  | .message m => r.object rec m

def mapPart (kt : ScalarType) (vt : SingleType M) (pair : Scalar × Value M) :
    Walk Stop T (Scalar × Value M) := do
  let header ← r.header
  if header.2.1 = 1 then
    let key ← r.scalar qt kt
    pure (key, pair.2)
  else
    let value ← r.single qt rec vt
    pure (pair.1, value)

def mapPair (kt : ScalarType) (vt : SingleType M) : Walk Stop T (Scalar × Value M) := do
  let count ← r.varint 32
  let last ← r.plusLength size count
  Walk.whileM (r.differs last) (r.mapPart qt rec kt vt) n (kt.default, vt.default)

def value (previous : Value M) : FieldType M → Walk Stop T (Value M)
  | .single t => r.single qt rec t
  | .nums t => do
    let out ← r.list size t
    pure (.nums t out)
  | .strings => do
    let value ← r.lengthDelimited
    pure (.strings (previous.toStrings ++ [some (qt.fromUtf8 value)]))
  | .byteArrays => do
    let value ← r.lengthDelimited
    pure (.byteArrays (previous.toByteArrays ++ [some value]))
  | .enums => do
    let intList ← r.list size .int64
    pure (.enums (previous.toEnums ++ intList.map (·.setWidth 32)))
  | .messages m => do
    let newValue ← r.object rec m
    pure (.messages (previous.toMessages ++ [newValue]))
  | .map kt vt => do
    let pair ← r.mapPair qt rec n size kt vt
    pure (.map (insertPair pair.1 pair.2 previous.toMap))

def field (m : M) (object : List (Value M)) (fieldNumber : Nat) (wireType : WireTypes) :
    Walk Stop T (List (Value M)) :=
  match (S m).find fieldNumber with
  | none => do
    r.skip wireType
    pure object
  | some (propertyIndex, type) => do
    let previous := object.getD propertyIndex type.default
    let newPropertyValue ← r.value qt rec n size previous type
    pure (object.set propertyIndex (previous.write newPropertyValue))

def property (m : M) (object : List (Value M)) : Walk Stop T (List (Value M)) := do
  let header ← r.header
  if header.1 then r.field S qt rec n size m object header.2.1 header.2.2 else .fail .invalidArgument

end

/-- The whole message: records up to the end of the buffer. A reading begins at
`start` and ends at `last`. -/
def message {M : Type} (S : Schema M) (qt : QtCore) (r : Bytes → Reader T L) (start : Bytes → T)
    (last : Bytes → L) : Nat → M → List (Value M) → Bytes → Outcome Stop T (List (Value M))
  | 0, _, _, _ => .spent
  | n + 1, m, object, data =>
    (Walk.whileM ((r data).differs (last data))
      ((r data).property S qt
        (fun m' array => message S qt r start last n m' (newObject S m') array) n data.length m)
      (n + 1) object).run (start data)

end Reader

/-! ## More rounds -/

namespace Reader

section
variable {T L M : Type} {r : Reader T L} {S : Schema M} {qt : QtCore}
  {rec rec' : M → Bytes → Outcome Stop T (List (Value M))} {n n' size : Nat}
  (hrec : ∀ m array, rec m array = .spent ∨ rec' m array = rec m array)
include hrec

theorem object_le (m : M) : Walk.Le (r.object rec m) (r.object rec' m) :=
  .bind (.refl _) fun array => .bind (.lift (hrec m array)) fun _ => .refl _

theorem single_le (t : SingleType M) : Walk.Le (r.single qt rec t) (r.single qt rec' t) := by
  cases t with
  | scalar t => exact .refl _
  | enum => exact .refl _
  | message m => exact object_le hrec m

theorem mapPart_le (kt : ScalarType) (vt : SingleType M) (pair : Scalar × Value M) :
    Walk.Le (r.mapPart qt rec kt vt pair) (r.mapPart qt rec' kt vt pair) := by
  refine .bind (.refl _) fun header => ?_
  split
  · exact .refl _
  · exact .bind (single_le hrec vt) fun _ => .refl _

theorem mapPair_le (hn : n ≤ n') (kt : ScalarType) (vt : SingleType M) :
    Walk.Le (r.mapPair qt rec n size kt vt) (r.mapPair qt rec' n' size kt vt) :=
  .bind (.refl _) fun _ => .bind (.refl _) fun _ => .whileM (fun pair => mapPart_le hrec kt vt pair) hn _

theorem value_le (hn : n ≤ n') (previous : Value M) (t : FieldType M) :
    Walk.Le (r.value qt rec n size previous t) (r.value qt rec' n' size previous t) := by
  cases t with
  | single t => exact single_le hrec t
  | messages m => exact .bind (object_le hrec m) fun _ => .refl _
  | map kt vt => exact .bind (mapPair_le hrec hn kt vt) fun _ => .refl _
  | _ => exact .refl _

theorem property_le (hn : n ≤ n') (m : M) (object : List (Value M)) :
    Walk.Le (r.property S qt rec n size m object) (r.property S qt rec' n' size m object) := by
  refine .bind (.refl _) fun header => ?_
  split
  · unfold Reader.field
    split
    · exact .refl _
    · exact .bind (value_le hrec hn _ _) fun _ => .refl _
  · exact .refl _

end

/-- More rounds change nothing. -/
theorem message_mono {T L M : Type} {S : Schema M} {qt : QtCore} {r : Bytes → Reader T L}
    {start : Bytes → T} {last : Bytes → L} {n n' : Nat} (hn : n ≤ n') (m : M) (object : List (Value M))
    (data : Bytes) : message S qt r start last n m object data = .spent ∨
      message S qt r start last n' m object data = message S qt r start last n m object data := by
  induction n generalizing n' m object data with
  | zero => exact .inl rfl
  | succ n ih =>
    obtain ⟨n', rfl⟩ : ∃ k, n' = k + 1 := ⟨n' - 1, by omega⟩
    have hrec : ∀ m' array,
        message S qt r start last n m' (newObject S m') array = .spent ∨
        message S qt r start last n' m' (newObject S m') array =
          message S qt r start last n m' (newObject S m') array :=
      fun m' array => ih (by omega) m' (newObject S m') array
    exact Walk.Le.whileM (fun object => property_le hrec (by omega) m object) hn object (start data)

end Reader

/-! ## The decoder follows a sound reading -/

/-- `r` does to its state what the operators do to an iterator over `b`. -/
structure Reader.Sound {T L : Type} (r : Reader T L) (b : Buffer) (R : Iter → T → Prop)
    (good : Event → Prop) (E : Iter → L → Prop) : Prop where
  varint (w : Nat) : Sim R good .spent Eq (deserializeVarintCommon b w) (r.varint w)
  skipVarint : Sim R good .spent (fun _ _ => True) (Wire.skipVarint b) r.skipVarint
  take {n : Nat} (hn : n < 2 ^ 31) : Sim R good .spent Eq (Dec.take b n) (r.take n)
  takeLength (length : BitVec 32) :
    Sim R good .spent Eq (Dec.takeLength b length) (r.takeLength length)
  advance {n : Nat} (hn : n < 2 ^ 31) :
    Sim R good .spent (fun _ _ => True) (Dec.advance n) (r.advance n)
  advanceLength (length : BitVec 32) :
    Sim R good .spent (fun _ _ => True) (Dec.advanceLength length) (r.advanceLength length)
  plusLength (length : BitVec 32) :
    Sim R good .spent E (Dec.plusLength length) (r.plusLength b.data.length length)
  differs {it last : Iter} {t : T} {l : L} :
    E last l → R it t → Iter.differs last.pos it = r.differs l t
  rounds {it : Iter} {t : T} : R it t → (b.size - it.pos).toNat + 1 = r.rounds t

/-- Whatever does what `w` says, is a good step of a loop. -/
def Steps {T β : Type} (R : Iter → T → Prop) (good : Event → Prop) (w : Walk Stop T β) : Prop :=
  ∀ (α : Type) (V : α → β → Prop) (f : Dec α), Sim R good .spent V f w →
    Sim R good .spent V (stepped f) w

theorem Steps.of_good {T β : Type} {R : Iter → T → Prop} {good : Event → Prop} {w : Walk Stop T β}
    (h : ∀ {it it' t t' c}, R it t → w.run t = .ok c t' → R it' t' → good (.step it.pos it'.pos)) :
    Steps R good w := by
  intro α V f hf it t hr
  have hft := hf it t hr
  unfold stepped
  rw [Traced.run_bind_ok rfl]
  cases hw : w.run t with
  | ok c t' =>
    rw [hw] at hft
    obtain ⟨hg, a, it', hrun, hv, hr'⟩ := hft
    rw [Traced.run_bind_ok (Prod.ext rfl hrun)]
    refine ⟨fun e he => ?_, a, it', rfl, hv, hr'⟩
    rcases List.mem_append.mp he with he | he
    · exact absurd he List.not_mem_nil
    · rcases List.mem_append.mp he with he | he
      · exact hg e he
      · have he : e ∈ [Event.step it.pos it'.pos] := he
        rw [List.mem_singleton.mp he]
        exact h hr hw hr'
  | fail =>
    rw [hw] at hft
    obtain ⟨hg, hrun, hy⟩ := hft
    rw [Traced.run_bind_error (Prod.ext rfl hrun)]
    exact ⟨hg, rfl, hy⟩
  | bad =>
    rw [hw] at hft
    obtain ⟨e, he, hb⟩ := hft
    refine ⟨e, ?_, hb⟩
    cases hrun : (f.run it).2 with
    | error y => rw [Traced.run_bind_error (Prod.ext rfl hrun)]; exact he
    | ok p =>
      rw [Traced.run_bind_ok (Prod.ext rfl hrun)]
      exact List.mem_append_right _ (List.mem_append_left _ he)
  | spent =>
    rw [hw] at hft
    rw [Traced.run_bind_error (Prod.ext rfl hft.2)]
    exact ⟨hft.1, rfl⟩

/-- The decoder of nested messages does what the reading of them says. -/
def Follows {M T : Type} (good : Event → Prop) (rec : Nested M)
    (reads : M → Bytes → Outcome Stop T (List (Value M))) : Prop :=
  ∀ m array, Matches (fun (_ : Unit) _ => True) good Stop.spent Eq
    ((rec m array).1, (rec m array).2.map fun a => (a, ())) (reads m array)

namespace Reader.Sound

section
variable {T L : Type} {r : Reader T L} {b : Buffer} {R : Iter → T → Prop} {good : Event → Prop}
  {E : Iter → L → Prop} (h : r.Sound b R good E)

/-- A program that ends with a function of what it read. -/
theorem map {α β : Type} {f : Dec α} {w : Walk Stop T α} (hf : Sim R good .spent Eq f w) (g : α → β) :
    Sim R good .spent Eq (f >>= fun a => pure (g a)) (w >>= fun a => pure (g a)) :=
  Sim.bind hf fun _ _ he => Sim.pure (congrArg g he)

include h

theorem header : Sim R good .spent Eq (decodeHeader b) r.header :=
  map (h.varint 32) _

theorem basic (t : NumType) : Sim R good .spent Eq (deserializeBasic b t) (r.basic t) := by
  have hw : t.width / 8 < 2 ^ 31 := by
    have := t.width_le
    omega
  unfold deserializeBasic Reader.basic
  cases t.coding with
  | fixed => exact map (h.take hw) _
  | plain => exact h.varint _
  | zigZag => exact map (h.varint _) _

theorem lengthDelimited : Sim R good .spent Eq (deserializeLengthDelimited b) r.lengthDelimited := by
  refine Sim.bind (h.varint 32) fun length _ hl => ?_
  subst hl
  exact h.takeLength length

theorem scalar (qt : QtCore) (t : ScalarType) :
    Sim R good .spent Eq (deserializeScalar qt b t) (r.scalar qt t) := by
  cases t with
  | num t => exact map (h.basic t) _
  | bool => exact map (h.basic _) _
  | string => exact map h.lengthDelimited _
  | bytes => exact map h.lengthDelimited _

theorem list (t : NumType) :
    Sim R good .spent Eq (deserializeList b t) (r.list b.data.length t) := by
  refine Sim.bind (h.varint 32) fun count _ hc => ?_
  subst hc
  refine Sim.bind (h.plusLength count) fun last l hl => ?_
  intro it t' hat
  have hloop : Sim R good .spent Eq
      (Traced.whileM .spent (Iter.differs last.pos)
        (fun out => deserializeBasic b t >>= fun v => pure (out ++ [v])) (r.rounds t') [])
      (Walk.whileM (r.differs l) (fun out => r.basic t >>= fun v => pure (out ++ [v])) (r.rounds t') []) := by
    refine Sim.whileM (fun _ _ hr => h.differs hl hr) (fun out _ ho => ?_) _ rfl
    subst ho
    exact map (h.basic t) _
  rw [Traced.run_bind_ok rfl, h.rounds hat]
  exact hloop it t' hat

theorem skip (t : WireTypes) :
    Sim R good .spent (fun _ _ => True) (skipSerializedFieldBytes b t) (r.skip t) := by
  cases t with
  | varint => exact h.skipVarint
  | fixed32 => exact h.advance (by decide)
  | fixed64 => exact h.advance (by decide)
  | lengthDelimited =>
    refine Sim.bind (h.varint 32) fun length _ hl => ?_
    subst hl
    exact h.advanceLength length
  | _ => exact Sim.fail (by decide)

variable {M : Type} {S : Schema M} {qt : QtCore} {rec : Nested M}
  {reads : M → Bytes → Outcome Stop T (List (Value M))} {n : Nat} (hrec : Follows good rec reads)
include hrec

theorem object (m : M) : Sim R good .spent Eq (deserializeObject rec b m) (r.object reads m) := by
  refine Sim.bind h.lengthDelimited fun array _ ha => ?_
  subst ha
  exact map (Sim.lift (hrec m array)) _

theorem single (t : SingleType M) :
    Sim R good .spent Eq (deserializeSingle qt rec b t) (r.single qt reads t) := by
  cases t with
  | scalar t => exact map (h.scalar qt t) _
  | enum => exact map (h.basic _) _
  | message m => exact h.object hrec m

variable (hpart : ∀ kt vt pair, Steps R good (r.mapPart qt reads kt vt pair))
include hpart

theorem mapPart (kt : ScalarType) (vt : SingleType M) (pair : Scalar × Value M) :
    Sim R good .spent Eq (deserializeMapPart qt rec b kt vt pair) (r.mapPart qt reads kt vt pair) := by
  refine hpart kt vt pair _ _ _ (Sim.bind h.header fun header _ hh => ?_)
  subst hh
  split
  · exact map (h.scalar qt kt) _
  · exact map (h.single hrec vt) _

theorem mapPair (kt : ScalarType) (vt : SingleType M) :
    Sim R good .spent Eq (deserializeMapPair qt rec n b kt vt)
      (r.mapPair qt reads n b.data.length kt vt) := by
  refine Sim.bind (h.varint 32) fun count _ hc => ?_
  subst hc
  refine Sim.bind (h.plusLength count) fun last l hl => ?_
  refine Sim.whileM (fun _ _ hr => h.differs hl hr) (fun pair _ hp => ?_) n rfl
  subst hp
  exact h.mapPart hrec hpart kt vt pair

theorem value (previous : Value M) (t : FieldType M) :
    Sim R good .spent Eq (deserializeValue qt rec n b previous t)
      (r.value qt reads n b.data.length previous t) := by
  cases t with
  | single t => exact h.single hrec t
  | nums t => exact map (h.list t) _
  | strings => exact map h.lengthDelimited _
  | byteArrays => exact map h.lengthDelimited _
  | enums => exact map (h.list _) _
  | messages m => exact map (h.object hrec m) _
  | map kt vt => exact map (h.mapPair hrec hpart kt vt) _

theorem field (m : M) (object : List (Value M)) (fieldNumber : Nat) (wireType : WireTypes) :
    Sim R good .spent Eq (deserializeField S qt rec n b m object fieldNumber wireType)
      (r.field S qt reads n b.data.length m object fieldNumber wireType) := by
  unfold deserializeField Reader.field
  cases (S m).find fieldNumber with
  | none => exact Sim.bind (h.skip wireType) fun _ _ _ => Sim.pure rfl
  | some p => exact map (h.value hrec hpart _ _) _

/-- **One property.** `deserializeProperty` does what the reading says. -/
theorem property {m : M} {object : List (Value M)}
    (hprop : Steps R good (r.property S qt reads n b.data.length m object)) :
    Sim R good .spent Eq (deserializeProperty S qt rec n b m object)
      (r.property S qt reads n b.data.length m object) := by
  refine hprop _ _ _ (Sim.bind h.header fun header _ hh => ?_)
  subst hh
  split
  · exact h.field hrec hpart m object _ _
  · exact Sim.fail (by decide)

end

/-- **Messages.** What an outcome says about a run of `deserializeMessage`. -/
theorem message {T L : Type} {r : Bytes → Reader T L} {start : Bytes → T} {last : Bytes → L}
    {R : Buffer → Iter → T → Prop} {good : Event → Prop} {E : Buffer → Iter → L → Prop} {M : Type}
    {S : Schema M} {qt : QtCore} {env : Bytes → Int → UInt8}
    (h : ∀ data, (r data).Sound ⟨data, env data⟩ (R ⟨data, env data⟩) good (E ⟨data, env data⟩))
    (hstart : ∀ data, R ⟨data, env data⟩ (.ofBuffer ⟨data, env data⟩) (start data))
    (hlast : ∀ data it t, R ⟨data, env data⟩ it t →
      Iter.differs (Buffer.size ⟨data, env data⟩) it = (r data).differs (last data) t)
    (hpart : ∀ data reads kt vt pair, Steps (R ⟨data, env data⟩) good
      ((r data).mapPart (M := M) qt reads kt vt pair))
    (hprop : ∀ data reads n m object, Steps (R ⟨data, env data⟩) good
      ((r data).property S qt reads n data.length m object))
    (n : Nat) (m : M) (object : List (Value M)) (data : Bytes) :
    Matches (fun (_ : Unit) _ => True) good Stop.spent Eq
      ((nestedResult (deserializeMessage S qt env n m object data)).1,
        (nestedResult (deserializeMessage S qt env n m object data)).2.map fun a => (a, ()))
      (Reader.message S qt r start last n m object data) := by
  induction n generalizing m object data with
  | zero => exact ⟨good_nil, rfl⟩
  | succ n ih =>
    have hnested : Follows good (nestedMessage S qt env n)
        (fun m' array => Reader.message S qt r start last n m' (newObject S m') array) :=
      fun m' array => ih m' (newObject S m') array
    have hloop : Sim (R ⟨data, env data⟩) good .spent Eq
        (Traced.whileM .spent (Iter.differs (Buffer.size ⟨data, env data⟩))
          (deserializeProperty S qt (nestedMessage S qt env n) n ⟨data, env data⟩ m) (n + 1) object)
        (Walk.whileM ((r data).differs (last data))
          ((r data).property S qt
            (fun m' array => Reader.message S qt r start last n m' (newObject S m') array) n
            data.length m) (n + 1) object) := by
      refine Sim.whileM (fun it t => hlast data it t) (fun object _ ho => ?_) (n + 1) rfl
      subst ho
      exact (h data).property hnested (hpart data _) (hprop data _ n m object)
    have hl := hloop _ (start data) (hstart data)
    rw [deserializeMessage, messageLoop_while, Reader.message]
    exact hl.forget

end Reader.Sound

/-! ## The reading of the bytes left -/

namespace Rest

/-- `it != last`, where `last` has `left` bytes left. -/
def differs (left : Nat) (rest : Bytes) : Bool := rest.length != left

/-- The state is the bytes left, an end the number of them. -/
abbrev reader : Reader Bytes Nat where
  varint := Rest.varint
  skipVarint := Rest.skipVarint
  take := Rest.take
  takeLength := Rest.takeLength
  advance := Rest.advance
  advanceLength := Rest.advanceLength
  plusLength := Rest.plusLength
  differs := Rest.differs
  rounds rest := rest.length + 1

abbrev basic (t : NumType) : Walk Stop Bytes (BitVec t.width) := reader.basic t

abbrev lengthDelimited : Walk Stop Bytes Bytes := reader.lengthDelimited

abbrev scalar (qt : QtCore) (t : ScalarType) : Walk Stop Bytes Scalar := reader.scalar qt t

abbrev list (size : Nat) (t : NumType) : Walk Stop Bytes (List (BitVec t.width)) := reader.list size t

abbrev skip (t : WireTypes) : Walk Stop Bytes Unit := reader.skip t

section
variable {M : Type} (S : Schema M) (qt : QtCore) (rec : M → Bytes → Outcome Stop Bytes (List (Value M)))
  (n size : Nat)

abbrev object (m : M) : Walk Stop Bytes (Value M) := reader.object rec m

abbrev single (t : SingleType M) : Walk Stop Bytes (Value M) := reader.single qt rec t

abbrev mapPart (kt : ScalarType) (vt : SingleType M) (pair : Scalar × Value M) :
    Walk Stop Bytes (Scalar × Value M) := reader.mapPart qt rec kt vt pair

abbrev mapPair (kt : ScalarType) (vt : SingleType M) : Walk Stop Bytes (Scalar × Value M) :=
  reader.mapPair qt rec n size kt vt

abbrev value (previous : Value M) (t : FieldType M) : Walk Stop Bytes (Value M) :=
  reader.value qt rec n size previous t

abbrev field (m : M) (object : List (Value M)) (fieldNumber : Nat) (wireType : WireTypes) :
    Walk Stop Bytes (List (Value M)) := reader.field S qt rec n size m object fieldNumber wireType

abbrev property (m : M) (object : List (Value M)) : Walk Stop Bytes (List (Value M)) :=
  reader.property S qt rec n size m object

def message : Nat → M → List (Value M) → Bytes → Outcome Stop Bytes (List (Value M)) :=
  Reader.message S qt (fun _ => reader) id fun _ => 0

/-- The reading of nested messages at level `n`. -/
def nested (n : Nat) (m : M) (array : Bytes) : Outcome Stop Bytes (List (Value M)) :=
  message S qt n m (newObject S m) array

theorem message_succ (n : Nat) (m : M) (object : List (Value M)) (data : Bytes) :
    message S qt (n + 1) m object data =
      (Walk.whileM (differs 0) (property S qt (nested S qt n) n data.length m) (n + 1) object).run
        data := rfl

end

end Rest

/-! ## The reading moves on -/

section
variable {M : Type} {S : Schema M} {qt : QtCore} {rec : M → Bytes → Outcome Stop Bytes (List (Value M))}
  {n size : Nat}

theorem Rest.varintLoop_lt {w k : Nat} {value v : BitVec w} {rest t : Bytes}
    (h : Rest.varintLoop w k value rest = .ok v t) : t.length < rest.length := by
  induction rest generalizing k value with
  | nil => cases h
  | cons c rest ih =>
    rw [Rest.varintLoop] at h
    split at h
    · split at h
      · cases h; exact Nat.lt_succ_self _
      · exact Nat.lt_succ_of_lt (ih h)
    · cases h

theorem Shrinks.varint (w : Nat) : Walk.Shrinks List.length (Rest.varint w) :=
  fun _ _ _ hr => Rest.varintLoop_lt hr

theorem Rest.skipVarintLoop_lt {rest t : Bytes} {v : Unit} (h : Rest.skipVarintLoop rest = .ok v t) :
    t.length < rest.length := by
  induction rest with
  | nil => cases h
  | cons c rest ih =>
    rw [Rest.skipVarintLoop] at h
    split at h
    · split at h
      · cases h; exact Nat.lt_succ_self _
      · exact Nat.lt_succ_of_lt (ih h)
    · cases h

theorem NoGrow.skipVarint : Walk.NoGrow List.length Rest.skipVarint :=
  fun _ _ _ h => Nat.le_of_lt (Rest.skipVarintLoop_lt h)

theorem NoGrow.advance (k : Nat) : Walk.NoGrow List.length (Rest.advance k) := by
  intro rest _ t h
  unfold Rest.advance at h
  dsimp only at h
  split at h
  · cases h; rw [List.length_drop]; exact Nat.sub_le _ _
  · cases h

theorem NoGrow.advanceLength (length : BitVec 32) :
    Walk.NoGrow List.length (Rest.advanceLength length) := by
  intro rest _ t h
  unfold Rest.advanceLength at h
  dsimp only at h
  split at h
  · split at h
    · cases h; rw [List.length_drop]; exact Nat.sub_le _ _
    · cases h
  · cases h

theorem NoGrow.takeLength (length : BitVec 32) : Walk.NoGrow List.length (Rest.takeLength length) := by
  intro rest _ t h
  unfold Rest.takeLength at h
  dsimp only at h
  split at h
  · split at h
    · cases h; rw [List.length_drop]; exact Nat.sub_le _ _
    · cases h
  · cases h

/-- `n` bytes that are there are taken away. -/
theorem Shrinks.take {k : Nat} (h0 : 0 < k) (hk : k < 2 ^ 31) :
    Walk.Shrinks List.length (Rest.take k) := by
  intro rest _ t h
  unfold Rest.take at h
  dsimp only at h
  split at h
  · rename_i hf
    cases h
    have hle := hf.le hk
    rw [List.length_drop]
    omega
  · cases h

theorem NoGrow.plusLength (size : Nat) (length : BitVec 32) :
    Walk.NoGrow List.length (Rest.plusLength size length) := by
  intro rest _ t h
  unfold Rest.plusLength at h
  dsimp only at h
  split at h
  · cases h
  · split at h
    · split at h
      · cases h; exact Nat.le_refl _
      · cases h
    · cases h

/-- In a buffer that an `int` can count, `it + length` does not fail to copy. -/
theorem Rest.plusLength_run {rest : Bytes} (hle : rest.length ≤ size) (hs : size < 2 ^ 31)
    (length : BitVec 32) : (Rest.plusLength size length).run rest =
      if Fits rest.length length.toNat then
        if length.toNat < 2 ^ 31 then .ok (rest.length - length.toNat) rest else .bad
      else .fail .outOfRange := by
  have hcopy : ¬ (int32 size < int32 rest.length ∨ int32 rest.length < 0) := by
    rw [int32_of_range (by omega) (by omega), int32_of_range (by omega) (by omega)]
    omega
  unfold Rest.plusLength
  dsimp only
  rw [if_neg hcopy]

theorem Shrinks.basic (t : NumType) : Walk.Shrinks List.length (Rest.basic t) := by
  have hw := t.width_eq
  unfold Rest.basic Reader.basic
  split
  · exact .bind (Shrinks.take (by omega) (by omega)) fun _ => .pure _
  · exact Shrinks.varint _
  · exact .bind (Shrinks.varint _) fun _ => .pure _

theorem Shrinks.lengthDelimited : Walk.Shrinks List.length Rest.lengthDelimited :=
  .bind (Shrinks.varint 32) fun _ => NoGrow.takeLength _

theorem Shrinks.scalar (t : ScalarType) : Walk.Shrinks List.length (Rest.scalar qt t) := by
  cases t with
  | num t => exact .bind (Shrinks.basic t) fun _ => .pure _
  | bool => exact .bind (Shrinks.basic _) fun _ => .pure _
  | string => exact .bind Shrinks.lengthDelimited fun _ => .pure _
  | bytes => exact .bind Shrinks.lengthDelimited fun _ => .pure _

theorem Shrinks.list (t : NumType) : Walk.Shrinks List.length (Rest.list size t) :=
  .bind (Shrinks.varint 32) fun _ => .bind (NoGrow.plusLength _ _) fun _ => .bind .get fun _ =>
    .whileM (fun _ => .bind (Shrinks.basic t).noGrow fun _ => .pure _) _ _

theorem NoGrow.skip (t : WireTypes) : Walk.NoGrow List.length (Rest.skip t) := by
  cases t with
  | varint => exact NoGrow.skipVarint
  | fixed32 => exact NoGrow.advance 4
  | fixed64 => exact NoGrow.advance 8
  | lengthDelimited => exact .bind (Shrinks.varint 32).noGrow fun _ => NoGrow.advanceLength _
  | _ => exact .fail _

theorem Shrinks.object (m : M) : Walk.Shrinks List.length (Rest.object rec m) :=
  .bind Shrinks.lengthDelimited fun _ => .bind (.lift _) fun _ => .pure _

theorem Shrinks.single (t : SingleType M) : Walk.Shrinks List.length (Rest.single qt rec t) := by
  cases t with
  | scalar t => exact .bind (Shrinks.scalar t) fun _ => .pure _
  | enum => exact .bind (Shrinks.basic _) fun _ => .pure _
  | message m => exact Shrinks.object m

theorem Shrinks.header : Walk.Shrinks List.length Rest.header :=
  .bind (Shrinks.varint 32) fun _ => .pure _

theorem Shrinks.mapPart (kt : ScalarType) (vt : SingleType M) (pair : Scalar × Value M) :
    Walk.Shrinks List.length (Rest.mapPart qt rec kt vt pair) := by
  refine .bind Shrinks.header fun header => ?_
  split
  · exact .bind (Shrinks.scalar kt).noGrow fun _ => .pure _
  · exact .bind (Shrinks.single vt).noGrow fun _ => .pure _

theorem Shrinks.mapPair (kt : ScalarType) (vt : SingleType M) :
    Walk.Shrinks List.length (Rest.mapPair qt rec n size kt vt) :=
  .bind (Shrinks.varint 32) fun _ => .bind (NoGrow.plusLength _ _) fun _ =>
    .whileM (fun pair => (Shrinks.mapPart kt vt pair).noGrow) _ _

theorem Shrinks.value (previous : Value M) (t : FieldType M) :
    Walk.Shrinks List.length (Rest.value qt rec n size previous t) := by
  cases t with
  | single t => exact Shrinks.single t
  | nums t => exact .bind (Shrinks.list t) fun _ => .pure _
  | strings => exact .bind Shrinks.lengthDelimited fun _ => .pure _
  | byteArrays => exact .bind Shrinks.lengthDelimited fun _ => .pure _
  | enums => exact .bind (Shrinks.list _) fun _ => .pure _
  | messages m => exact .bind (Shrinks.object m) fun _ => .pure _
  | map kt vt => exact .bind (Shrinks.mapPair kt vt) fun _ => .pure _

theorem NoGrow.field (m : M) (object : List (Value M)) (fieldNumber : Nat) (wireType : WireTypes) :
    Walk.NoGrow List.length (Rest.field S qt rec n size m object fieldNumber wireType) := by
  unfold Rest.field Reader.field
  split
  · exact .bind (NoGrow.skip wireType) fun _ => .pure _
  · exact .bind (Shrinks.value _ _).noGrow fun _ => .pure _

theorem Shrinks.property (m : M) (object : List (Value M)) :
    Walk.Shrinks List.length (Rest.property S qt rec n size m object) := by
  refine .bind Shrinks.header fun header => ?_
  split
  · exact NoGrow.field m object _ _
  · exact .fail _

end

/-! ## The decoder follows the reading of the bytes left -/

theorem Rest.sound (b : Buffer) : Rest.reader.Sound b (At b) Event.Good (DecSim.AtEnd b) where
  varint := DecSim.varint
  skipVarint := DecSim.skipVarint
  take := DecSim.take
  takeLength := DecSim.takeLength
  advance := DecSim.advance
  advanceLength := DecSim.advanceLength
  plusLength := DecSim.plusLength
  differs hl h := by
    obtain ⟨rest, hat, rfl⟩ := hl
    have hp := h.pos
    have hp' := hat.pos
    show Iter.differs _ _ = Rest.differs _ _
    unfold Iter.differs Rest.differs
    rw [Bool.eq_iff_iff, bne_iff_ne, bne_iff_ne]
    omega
  rounds := DecSim.rounds

/-- The end of the buffer. -/
theorem Rest.differs_end {b : Buffer} {it : Iter} {rest : Bytes} (h : At b it rest) :
    Iter.differs b.size it = Rest.differs 0 rest := by
  have hp := h.pos
  unfold Iter.differs Rest.differs
  rw [Bool.eq_iff_iff, bne_iff_ne, bne_iff_ne]
  omega

/-- A step that follows a shrinking reading leads on. -/
theorem Steps.of_shrinks {b : Buffer} {β : Type} {w : Walk Stop Bytes β}
    (hs : Walk.Shrinks List.length w) : Steps (At b) Event.Good w := by
  refine .of_good fun {it it' t t' c} hat hw hat' => ?_
  have hlt := hs t c t' hw
  have hp := hat.pos
  have hp' := hat'.pos
  show it.pos < it'.pos
  omega

/-- What an outcome says about a run of `deserializeMessage`. -/
theorem follows_message {M : Type} (S : Schema M) (qt : QtCore) (env : Bytes → Int → UInt8) (n : Nat)
    (m : M) (object : List (Value M)) (data : Bytes) :
    Matches (fun (_ : Unit) _ => True) Event.Good Stop.spent Eq
      ((nestedResult (deserializeMessage S qt env n m object data)).1,
        (nestedResult (deserializeMessage S qt env n m object data)).2.map fun a => (a, ()))
      (Rest.message S qt n m object data) :=
  Reader.Sound.message (fun data => Rest.sound ⟨data, env data⟩) (fun data => At.ofBuffer ⟨data, env data⟩)
    (fun _ _ _ h => Rest.differs_end h) (fun _ _ kt vt pair => .of_shrinks (Shrinks.mapPart kt vt pair))
    (fun _ _ _ m object => .of_shrinks (Shrinks.property m object)) n m object data

/-- What the reading yields, the decoder returns. -/
theorem deserializeMessage_ok {M : Type} {S : Schema M} {qt : QtCore} {env : Bytes → Int → UInt8} {n : Nat}
    {m : M} {object v : List (Value M)} {data t : Bytes}
    (h : Rest.message S qt n m object data = .ok v t) :
    (deserializeMessage S qt env n m object data).2 = (v, none) := by
  have hf := follows_message S qt env n m object data
  rw [h] at hf
  obtain ⟨-, a, s, ha, rfl, -⟩ := hf
  generalize deserializeMessage S qt env n m object data = r at ha ⊢
  obtain ⟨tr, obj, e⟩ := r
  cases e with
  | none => cases ha; rfl
  | some e => cases ha

/-- Where the reading fails, the decoder throws the same. -/
theorem deserializeMessage_fail {M : Type} {S : Schema M} {qt : QtCore} {env : Bytes → Int → UInt8} {n : Nat}
    {m : M} {object : List (Value M)} {data : Bytes} {e : Stop}
    (h : Rest.message S qt n m object data = .fail e) :
    (∃ v, (deserializeMessage S qt env n m object data).2 = (v, some e)) ∧ e ≠ .spent := by
  have hf := follows_message S qt env n m object data
  rw [h] at hf
  obtain ⟨-, hr, he⟩ := hf
  generalize deserializeMessage S qt env n m object data = r at hr ⊢
  obtain ⟨tr, obj, e'⟩ := r
  cases e' with
  | none => cases hr
  | some e' =>
    cases hr
    exact ⟨⟨obj, rfl⟩, he⟩

end QtProtobuf.Codec
