import QtProtobuf.L2Codec.Assign
import QtProtobuf.L2Codec.Locality
import QtProtobuf.L2Codec.Termination
import QtProtobuf.L2Codec.Truncation

/-!
# What a failed decoding leaves

`QAbstractProtobufSerializer::deserialize` decodes into a new object and assigns
it to the target, also when an exception passes
(`protobuf/qabstractprotobufserializer.h:97-111`). `Calls` are the calls of
`deserializeProperty` that were completed.

* `messageLoop_fails`: the object holds what these calls made of it.
* `consumed_decodes`: without a length that leads back, that is what the records
  consumed decode to.
* `cut_decodes`: a cut inside a record is out of range, and the object holds what
  the complete records decode to.
* `fails_cleanly_iff`: the target agrees with that object, unless a comparison
  of the assignment dereferences a null pointer.
-/
namespace QtProtobuf.Codec

open Lib Wire

/-! ## The loop of `deserializeMessage` -/

section Loop
variable {M : Type} {b : Buffer} {property : List (Value M) → Dec (List (Value M))}

/-- Rounds of the loop, from an object and an iterator to others. -/
inductive Calls (b : Buffer) (property : List (Value M) → Dec (List (Value M))) :
    List (Value M) → Iter → List (Value M) → Iter → Prop
  | nil (obj : List (Value M)) (it : Iter) : Calls b property obj it obj it
  | cons {obj obj₁ obj' : List (Value M)} {it it₁ it' : Iter} (hc : Iter.differs b.size it = true)
    (hr : Traced.Runs (property obj) it obj₁ it₁) (h : Calls b property obj₁ it₁ obj' it') :
    Calls b property obj it obj' it'

/-- The next call throws `e`. -/
def Throws (b : Buffer) (property : List (Value M) → Dec (List (Value M))) (obj : List (Value M))
    (it : Iter) (e : Stop) : Prop :=
  Iter.differs b.size it = true ∧ ((property obj).run it).2 = .error e

variable {obj obj₁ obj' : List (Value M)} {it it₁ : Iter} {n : Nat} {e : Stop}

theorem messageLoop_step (hc : Iter.differs b.size it = true)
    (hr : Traced.Runs (property obj) it obj₁ it₁) :
    (messageLoop b property (n + 1) obj it).2 = (messageLoop b property n obj₁ it₁).2 := by
  rw [messageLoop, if_pos hc]
  unfold Traced.Runs at hr
  cases hp : (property obj).run it with
  | mk events r =>
    rw [hp] at hr
    cases hr
    rfl

theorem messageLoop_throw (h : Throws b property obj it e) :
    (messageLoop b property (n + 1) obj it).2 = (obj, some e) := by
  obtain ⟨hc, hr⟩ := h
  rw [messageLoop, if_pos hc]
  cases hp : (property obj).run it with
  | mk events r =>
    rw [hp] at hr
    cases hr
    rfl

theorem messageLoop_done (hc : Iter.differs b.size it = false) :
    (messageLoop b property (n + 1) obj it).2 = (obj, none) := by
  rw [messageLoop, if_neg (by rw [hc]; exact Bool.false_ne_true)]

/-- **Failure.** The object is left as the completed calls made it. -/
theorem messageLoop_fails (n : Nat) {obj : List (Value M)} {it : Iter}
    (h : (messageLoop b property n obj it).2 = (obj', some e)) (he : e ≠ .spent) :
    ∃ it', Calls b property obj it obj' it' ∧ Throws b property obj' it' e := by
  induction n generalizing obj it with
  | zero =>
    cases h
    exact absurd rfl he
  | succ n ih =>
    cases hc : Iter.differs b.size it with
    | false =>
      rw [messageLoop_done hc] at h
      cases h
    | true =>
      cases hr : ((property obj).run it).2 with
      | ok p =>
        rw [messageLoop_step hc hr] at h
        obtain ⟨it', hcalls, ht⟩ := ih h
        exact ⟨it', .cons hc hr hcalls, ht⟩
      | error e' =>
        rw [messageLoop_throw ⟨hc, hr⟩] at h
        cases h
        exact ⟨it, .nil _ it, hc, hr⟩

end Loop

/-! ## The calls and the bytes they take -/

section
variable {M : Type} {S : Schema M} {qt : QtCore}

/-- The call of the loop, for a message in the buffer `b`. -/
abbrev call (S : Schema M) (qt : QtCore) (env : Bytes → Int → UInt8) (n : Nat) (b : Buffer) (m : M) :
    List (Value M) → Dec (List (Value M)) :=
  deserializeProperty S qt (nestedMessage S qt env n) n b m

theorem stepped_inv {α : Type} {f : Dec α} {a : α} (h : Traced.Runs (stepped f) it a it') :
    Traced.Runs f it a it' := by
  obtain ⟨s, it₁, hget, h₁⟩ := h.bind_inv
  cases hget
  obtain ⟨a', it₂, hf, h₂⟩ := h₁.bind_inv
  obtain ⟨s', it₃, hget', h₃⟩ := h₂.bind_inv
  cases hget'
  obtain ⟨u, it₄, hemit, h₄⟩ := h₃.bind_inv
  cases hemit
  cases h₄
  exact hf

/-- A call that returns: the header is valid, and the field is skipped, or read
and written. -/
theorem call_inv {env : Bytes → Int → UInt8} {n : Nat} {b : Buffer} {m : M} {obj obj' : List (Value M)}
    {it it' : Iter} (h : Traced.Runs (call S qt env n b m obj) it obj' it') :
    ∃ f w it₁, Traced.Runs (decodeHeader b) it (true, f, w) it₁ ∧
      (((S m).find f = none ∧ Traced.Runs (skipSerializedFieldBytes b w) it₁ () it' ∧ obj' = obj) ∨
        ∃ i t new, (S m).find f = some (i, t) ∧
          Traced.Runs (deserializeValue qt (nestedMessage S qt env n) n b (obj.getD i t.default) t) it₁ new
            it' ∧ obj' = obj.set i ((obj.getD i t.default).write new)) := by
  obtain ⟨⟨res, f, w⟩, it₁, hheader, hfield⟩ := (stepped_inv h).bind_inv
  cases res with
  | false => cases hfield
  | true =>
    refine ⟨f, w, it₁, hheader, ?_⟩
    have hfield : Traced.Runs (deserializeField S qt (nestedMessage S qt env n) n b m obj f w) it₁ obj'
        it' := hfield
    unfold deserializeField at hfield
    cases hf : (S m).find f with
    | none =>
      rw [hf] at hfield
      obtain ⟨u, it₂, hskip, hpure⟩ := hfield.bind_inv
      obtain ⟨rfl, rfl⟩ := hpure.pure_inv
      exact .inl ⟨rfl, hskip, rfl⟩
    | some p =>
      obtain ⟨i, t⟩ := p
      rw [hf] at hfield
      obtain ⟨new, it₂, hvalue, hpure⟩ := hfield.bind_inv
      obtain ⟨rfl, rfl⟩ := hpure.pure_inv
      exact .inr ⟨i, t, new, rfl, hvalue, rfl⟩

theorem call_sim (env : Bytes → Int → UInt8) (n : Nat) (b : Buffer) (m : M) (obj : List (Value M)) :
    DecSim b Eq (call S qt env n b m obj) (record S qt m b.data.length n obj) :=
  (Rest.sound b).property (fun m' array => follows_message S qt env n m' (newObject S m') array)
    (fun kt vt pair => .of_shrinks (Shrinks.mapPart kt vt pair)) (.of_shrinks (Shrinks.property m obj))

theorem deserializeMessage_succ (env : Bytes → Int → UInt8) (n : Nat) (m : M) (obj : List (Value M))
    (data : Bytes) : deserializeMessage S qt env (n + 1) m obj data =
      messageLoop ⟨data, env data⟩ (call S qt env n ⟨data, env data⟩ m) (n + 1) obj
        (.ofBuffer ⟨data, env data⟩) := rfl

/-- The completed calls, on the bytes left: from `rest` to `rest'`. -/
inductive Takes (S : Schema M) (qt : QtCore) (n size : Nat) (m : M) :
    List (Value M) → Bytes → List (Value M) → Bytes → Prop
  | nil (obj : List (Value M)) (rest : Bytes) : Takes S qt n size m obj rest obj rest
  | cons {obj obj₁ obj' : List (Value M)} {rest rest₁ rest' : Bytes}
    (hr : (record S qt m size n obj).run rest = .ok obj₁ rest₁)
    (h : Takes S qt n size m obj₁ rest₁ obj' rest') : Takes S qt n size m obj rest obj' rest'

theorem Takes.length_le {n size : Nat} {m : M} {obj obj' : List (Value M)} {rest rest' : Bytes}
    (h : Takes S qt n size m obj rest obj' rest') : rest'.length ≤ rest.length := by
  induction h with
  | nil => exact Nat.le_refl _
  | cons hr _ ih =>
    have hlt := Shrinks.property _ _ _ _ _ hr
    omega

/-- A loop that fails without a length that leads back. -/
theorem takes_of_fails {env : Bytes → Int → UInt8} {b : Buffer} {n k : Nat} {m : M}
    {obj obj' : List (Value M)} {it : Iter} {rest : Bytes} {e : Stop} (hat : At b it rest)
    (h : (messageLoop b (call S qt env k b m) n obj it).2 = (obj', some e)) (he : e ≠ .spent)
    (hbad : (Walk.whileM (Rest.differs 0) (record S qt m b.data.length k) n obj).run rest ≠ .bad) :
    ∃ it' rest', At b it' rest' ∧ Takes S qt k b.data.length m obj rest obj' rest' := by
  induction n generalizing obj it rest with
  | zero =>
    cases h
    exact absurd rfl he
  | succ n ih =>
    have hd := Rest.differs_end hat
    cases hc : Rest.differs 0 rest with
    | false =>
      rw [messageLoop_done (hd.trans hc)] at h
      cases h
    | true =>
      have hs : Matches _ _ _ _ ((call S qt env k b m obj).run it)
          ((record S qt m b.data.length k obj).run rest) := call_sim env k b m obj it rest hat
      rw [Walk.run_while, if_pos hc, Walk.run_bind] at hbad
      cases hw : (record S qt m b.data.length k obj).run rest with
      | ok obj₁ rest₁ =>
        rw [hw] at hs hbad
        obtain ⟨-, a, it₁, hr, rfl, hat₁⟩ := hs
        rw [messageLoop_step (hd.trans hc) hr] at h
        obtain ⟨it', rest', hat', ht⟩ := ih hat₁ h hbad
        exact ⟨it', rest', hat', .cons hw ht⟩
      | fail e' =>
        rw [hw] at hs
        rw [messageLoop_throw ⟨hd.trans hc, hs.2.1⟩] at h
        cases h
        exact ⟨it, rest, hat, .nil _ rest⟩
      | bad =>
        rw [hw] at hbad
        exact absurd rfl hbad
      | spent =>
        rw [hw] at hs
        rw [messageLoop_throw ⟨hd.trans hc, hs.2⟩] at h
        cases h
        exact absurd rfl he

/-- What was taken in front of `tail` is taken at the end of a buffer: the loop
over it returns. -/
theorem Takes.restrict {size : Nat} {n : Nat} {m : M} {obj obj' : List (Value M)}
    {done tail : Bytes} {size₀ : Nat} (hsize₀ : size₀ ≤ n) (hsize : size < 2 ^ 31) (hle : size₀ ≤ size)
    {rest : Bytes} (h : Takes S qt n size m obj rest obj' tail) (hrest : rest = done ++ tail)
    (hd : done.length ≤ size₀) (hl : rest.length ≤ size) {k : Nat} (hk : done.length < k) :
    (Walk.whileM (Rest.differs 0) (record S qt m size₀ n) k obj).run done = .ok obj' [] := by
  induction h generalizing done k with
  | nil obj rest =>
    obtain ⟨k, rfl⟩ : ∃ j, k = j + 1 := ⟨k - 1, by omega⟩
    have hnil : done = [] := by
      have hlen := congrArg List.length hrest
      rw [List.length_append] at hlen
      exact List.length_eq_zero_iff.mp (by omega)
    subst hnil
    exact Walk.run_while_false rfl
  | @cons obj obj₁ obj' rest rest₁ tail hr h ih =>
    obtain ⟨k, rfl⟩ : ∃ j, k = j + 1 := ⟨k - 1, by omega⟩
    subst hrest
    have hlt : rest₁.length < (done ++ tail).length := Shrinks.property _ _ _ _ _ hr
    have htail := h.length_le
    have hlocal : Local size₀ size tail (record S qt m size₀ n obj) (record S qt m size n obj) :=
      .property (by omega) hsize (fun _ _ => .inr rfl) (Nat.le_refl n) m obj
    have hspent : (record S qt m size₀ n obj).run done ≠ .spent := by
      have hf : Walk.Finishes List.length size₀ (record S qt m size₀ n obj) :=
        Finishes.property (fun m' array ha => message_finishes (by omega)) hsize₀ m obj
      exact hf done hd
    obtain ⟨done₁, hrun, rfl⟩ := hlocal.restrict hd hl hspent hr htail
    have hpos : done₁.length < done.length := by
      rw [List.length_append, List.length_append] at hlt
      omega
    have hc : Rest.differs 0 done = true := by
      unfold Rest.differs
      rw [bne_iff_ne]
      omega
    rw [Walk.run_while_true hc hrun]
    exact ih rfl (by omega) (by omega) (by omega)

/-- **The records consumed.** Without a length that leads back, the object is
what the bytes before the failing record decode to. -/
theorem consumed_decodes {env : Bytes → Int → UInt8} {n : Nat} {m : M} {obj obj' : List (Value M)}
    {data : Bytes} {e : Stop} (hn : data.length < n) (hl : data.length < 2 ^ 31)
    (h : (deserializeMessage S qt env n m obj data).2 = (obj', some e)) (he : e ≠ .spent)
    (hback : ¬ LeadsBack S qt m obj data) :
    ∃ done rest, data = done ++ rest ∧ (deserializeMessage S qt env n m obj done).2 = (obj', none) := by
  obtain ⟨n, rfl⟩ : ∃ k, n = k + 1 := ⟨n - 1, by omega⟩
  have hbad := not_bad hback (n + 1)
  rw [Rest.message_succ] at hbad
  rw [deserializeMessage_succ] at h
  obtain ⟨it', rest', hat', ht⟩ := takes_of_fails (At.ofBuffer ⟨data, env data⟩) h he hbad
  obtain ⟨done, hd⟩ := hat'.suffix
  have hd : data = done ++ rest' := hd
  have hlen := congrArg List.length hd
  rw [List.length_append] at hlen
  have hloop : Rest.message S qt (n + 1) m obj done = .ok obj' [] := by
    rw [Rest.message_succ]
    exact ht.restrict (by omega) hl (by omega) hd (Nat.le_refl _) (Nat.le_refl _) (by omega)
  exact ⟨done, rest', hd, deserializeMessage_ok hloop⟩

/-! ## Cuts -/

/-- The rounds over complete records, and the rest of the loop. -/
theorem messageLoop_rounds {env : Bytes → Int → UInt8} {b : Buffer} {k : Nat} {m : M}
    {obj obj' : List (Value M)} {it : Iter} {bs tail : Bytes}
    (h : Rounds b.data.length (record S qt m b.data.length k) obj bs obj') (hat : At b it (bs ++ tail))
    {n : Nat} (hn : bs.length < n) :
    ∃ it' n', At b it' tail ∧ (messageLoop b (call S qt env k b m) n obj it).2 =
      (messageLoop b (call S qt env k b m) (n' + 1) obj' it').2 := by
  induction h generalizing n it with
  | nil obj => exact ⟨it, n - 1, hat, by rw [Nat.sub_add_cancel (by omega)]⟩
  | @cons obj obj₁ obj' bs cs hr hne _ ih =>
    obtain ⟨n, rfl⟩ : ∃ j, n = j + 1 := ⟨n - 1, by omega⟩
    have hpos := List.length_pos_iff.mpr hne
    rw [List.length_append] at hn
    rw [List.append_assoc] at hat
    have hle : (bs ++ (cs ++ tail)).length ≤ b.data.length := by
      obtain ⟨done, hd⟩ := hat.suffix
      have hlen := congrArg List.length hd
      rw [List.length_append] at hlen
      omega
    obtain ⟨a, it₁, hrun, rfl, hat₁⟩ := (call_sim env k b m obj).runs hat (hr (cs ++ tail) hle)
    have hc : Iter.differs b.size it = true := by
      rw [Rest.differs_end hat]
      unfold Rest.differs
      rw [bne_iff_ne, List.length_append]
      omega
    obtain ⟨it', n', hat', he⟩ := ih hat₁ (show cs.length < n by omega)
    exact ⟨it', n', hat', (messageLoop_step hc hrun).trans he⟩

/-- **A cut inside a record** is out of range; the object holds the complete
records. -/
theorem cut_decodes {m : M} {done part : Bytes} (h : CutInside S m done part)
    (hl : (done ++ part).length < 2 ^ 31) (obj : List (Value M)) :
    ∃ obj', ∀ env n, (done ++ part).length < n →
      (deserializeMessage S qt env n m obj (done ++ part)).2 = (obj', some .outOfRange) ∧
        (deserializeMessage S qt env n m obj done).2 = (obj', none) := by
  obtain ⟨missing, hrec, hne, hmissing⟩ := h.inside
  have hread : Readable S qt (.message m) done := h.records.reads
  obtain ⟨obj', hrounds⟩ := hread obj
  have hlen : (done ++ part).length = done.length + part.length := List.length_append
  have hpos := List.length_pos_iff.mpr hne
  refine ⟨obj', fun env n hn => ⟨?_, deserializeMessage_ok (hrounds.message (by omega) (by omega))⟩⟩
  obtain ⟨n, rfl⟩ : ∃ k, n = k + 1 := ⟨n - 1, by omega⟩
  let b : Buffer := ⟨done ++ part, env (done ++ part)⟩
  have hr := hrounds (done ++ part).length n hl (by omega)
  obtain ⟨it', n', hat', he⟩ := messageLoop_rounds hr (At.ofBuffer b) (show done.length < n + 1 by omega)
  have hfail : (record S qt m (done ++ part).length n obj').run part = .fail .outOfRange :=
    hrec.truncates obj' (done ++ part).length n part missing hl (by omega) rfl hmissing (by omega)
  have hs : Matches _ _ _ _ ((call S qt env n b m obj').run it')
      ((record S qt m (done ++ part).length n obj').run part) := call_sim env n b m obj' it' part hat'
  rw [hfail] at hs
  have hc : Iter.differs b.size it' = true := by
    rw [Rest.differs_end hat']
    unfold Rest.differs
    rw [bne_iff_ne]
    omega
  rw [deserializeMessage_succ, he]
  exact messageLoop_throw ⟨hc, hs.2.1⟩

/-! ## `deserialize` -/

/-- mirrors src/protobuf/qabstractprotobufserializer.h:97-111: what the target
`old` holds then, and the exception that passes. -/
def Deserialized (S : Schema M) (qt : QtCore) (env : Bytes → Int → UInt8) (n : Nat) (m : M)
    (old : List (Value M)) (data : Bytes) (r : List (Value M)) (e : Option Stop) : Prop :=
  ∃ newValue, (deserializeMessage S qt env n m (newObject S m) data).2 = (newValue, e) ∧
    AssignedFields S old newValue r

/-- The decoding throws `e`, and `newValue` is what the records before hold. -/
structure Failed (S : Schema M) (qt : QtCore) (env : Bytes → Int → UInt8) (n : Nat) (m : M) (data : Bytes)
    (newValue : List (Value M)) (e : Stop) : Prop where
  enough : data.length < n
  fails : (deserializeMessage S qt env n m (newObject S m) data).2 = (newValue, some e)
  ends : e ≠ .spent

/-- What a failed decoding is to leave: the records before the failing one, and
nothing else, in the target; and where the data is a cut encoding, the exception
and these records are those of the cut. -/
structure FailsCleanly (S : Schema M) (qt : QtCore) (env : Bytes → Int → UInt8) (m : M)
    (old : List (Value M)) (data : Bytes) : Prop where
  completed : ∀ n newValue e, Failed S qt env (n + 1) m data newValue e → ∃ it,
    Calls ⟨data, env data⟩ (call S qt env n ⟨data, env data⟩ m) (newObject S m)
      (.ofBuffer ⟨data, env data⟩) newValue it ∧
      Throws ⟨data, env data⟩ (call S qt env n ⟨data, env data⟩ m) newValue it e
  consumed : ∀ n newValue e, Failed S qt env n m data newValue e →
    ¬ LeadsBack S qt m (newObject S m) data → ∃ done rest, data = done ++ rest ∧
      (deserializeMessage S qt env n m (newObject S m) done).2 = (newValue, none)
  target : ∀ n newValue e, Failed S qt env n m data newValue e →
    (∃ r, Deserialized S qt env n m old data r (some e)) ∧
      ∀ r, Deserialized S qt env n m old data r (some e) → FieldsAgree S r newValue
  cut : ∀ missing, Valid S (.message m) (data ++ missing) →
    (Valid S (.message m) data ∧ ∃ obj', ∀ n, data.length < n →
      (deserializeMessage S qt env n m (newObject S m) data).2 = (obj', none)) ∨
    ∃ done part, data = done ++ part ∧ CutInside S m done part ∧ ∃ obj', ∀ n, data.length < n →
      (deserializeMessage S qt env n m (newObject S m) data).2 = (obj', some .outOfRange) ∧
        (deserializeMessage S qt env n m (newObject S m) done).2 = (obj', none)

/-- What the assignment leaves, with the object of the decoding. -/
theorem Failed.deserialized_iff {env : Bytes → Int → UInt8} {n : Nat} {m : M} {old : List (Value M)}
    {data : Bytes} {newValue r : List (Value M)} {e : Stop} (h : Failed S qt env n m data newValue e) :
    Deserialized S qt env n m old data r (some e) ↔ AssignedFields S old newValue r := by
  constructor
  · rintro ⟨v, hv, ha⟩
    have heq := h.fails.symm.trans hv
    cases heq
    exact ha
  · exact fun ha => ⟨newValue, h.fails, ha⟩

/-- **Failed decoding.** It leaves the records before the failing one, if and
only if no comparison that the assignment to the target makes dereferences a
null pointer. -/
theorem fails_cleanly_iff (env : Bytes → Int → UInt8) (m : M) (old : List (Value M)) (data : Bytes)
    (hl : data.length < 2 ^ 31) : FailsCleanly S qt env m old data ↔
      ∀ n newValue e, Failed S qt env n m data newValue e → ¬ FieldsMeetNull S old newValue := by
  constructor
  · intro h n newValue e hf
    obtain ⟨⟨r, hr⟩, -⟩ := h.target n newValue e hf
    exact exists_assigned_iff.mp ⟨r, hf.deserialized_iff.mp hr⟩
  · intro hnull
    refine ⟨fun n newValue e hf => ?_, fun n newValue e hf hback => ?_, fun n newValue e hf => ⟨?_, ?_⟩,
      fun missing hv => ?_⟩
    · have hfails := hf.fails
      rw [deserializeMessage_succ] at hfails
      exact messageLoop_fails (n + 1) hfails hf.ends
    · exact consumed_decodes hf.enough hl hf.fails hf.ends hback
    · obtain ⟨r, hr⟩ := exists_assigned_iff.mpr (hnull n newValue e hf)
      exact ⟨r, hf.deserialized_iff.mpr hr⟩
    · exact fun r hr => (hf.deserialized_iff.mp hr).agree
    · rcases hv.cut with hdata | ⟨done, part, hd, hcut⟩
      · left
        obtain ⟨obj', hobj'⟩ : ∃ obj', ∀ env n, data.length < n →
            (deserializeMessage S qt env n m (newObject S m) data).2 = (obj', none) :=
          valid_decodes hdata hl (newObject S m)
        exact ⟨hdata, obj', hobj' env⟩
      · right
        subst hd
        obtain ⟨obj', hobj'⟩ : ∃ obj', ∀ env n, (done ++ part).length < n →
            (deserializeMessage S qt env n m (newObject S m) (done ++ part)).2 = (obj', some .outOfRange) ∧
              (deserializeMessage S qt env n m (newObject S m) done).2 = (obj', none) :=
          cut_decodes hcut hl (newObject S m)
        exact ⟨done, part, rfl, hcut, obj', hobj' env⟩

end

/-! ## A target that holds a map -/

/-- The outer message has a field with the inner message, the inner message a
map from numbers to messages without fields. -/
inductive MapTypes where
  | outer | inner | leaf

def mapSchema : Schema MapTypes
  | .outer => .oneField 1 fieldNumber_one (.single (.message .inner))
  | .inner => .oneField 1 fieldNumber_one (.map (.num .int32) (.message .leaf))
  | .leaf => emptyMessage

/-- An outer message with the map of one key. -/
def outerMessage (key : BitVec 32) : List (Value MapTypes) :=
  [.object .inner [.map [(.num .int32 key, .object .leaf [])]]]

/-- The record of the field, with the key 2, and one byte of a next record. -/
def cutOuter : Bytes := [0x0a, 0x06, 0x0a, 0x04, 0x08, 0x02, 0x12, 0x00, 0x80]

theorem cutOuter_fails (n : Nat) :
    (deserializeMessage mapSchema .ascii (fun _ _ => 0) (n + 10) .outer [.unset .inner] cutOuter).2 =
      (outerMessage 2, some .outOfRange) := rfl

/-- A target that holds nothing gets the record. -/
theorem fails_cleanly_fresh :
    FailsCleanly mapSchema .ascii (fun _ _ => 0) .outer [.unset .inner] cutOuter := by
  refine (fails_cleanly_iff _ _ _ _ (by decide)).mpr fun n newValue e hf => ?_
  obtain ⟨n, rfl⟩ : ∃ k, n = k + 10 := ⟨n - 10, by have h : 9 < n := hf.enough; omega⟩
  have hfails := (cutOuter_fails n).symm.trans hf.fails
  cases hfails
  rintro ⟨i, b, hb, hn⟩
  cases i with
  | zero =>
    cases hb
    cases hn with
    | here _ hn =>
      cases hn with
      | pointer hp => cases hp
      | pointee hp => cases hp
    | @inside _ _ _ i b _ _ hb hn =>
      cases i with
      | zero =>
        cases hb
        cases hn with
        | here hm => cases hm
        | inside hm => cases hm
      | succ i => cases hb
  | succ i => cases hb

/-- A target that holds the key 1 is compared with it: `b.value(1)` is a null
pointer. -/
theorem not_fails_cleanly_key :
    ¬ FailsCleanly mapSchema .ascii (fun _ _ => 0) .outer (outerMessage 1) cutOuter := by
  intro h
  have hf : Failed mapSchema .ascii (fun _ _ => 0) 10 .outer cutOuter (outerMessage 2) .outOfRange :=
    ⟨by decide, cutOuter_fails 0, by decide⟩
  obtain ⟨⟨r, hr⟩, -⟩ := h.target _ _ _ hf
  refine exists_assigned_iff.mp ⟨r, hf.deserialized_iff.mp hr⟩ ⟨0, _, rfl, .here rfl ?_⟩
  have hnull : Null mapSchema (.map [(.num .int32 1, .object .leaf [])])
      (.map [(.num .int32 2, .object .leaf [])]) := by
    refine .pointer rfl (i := 0) (fun j _ hj => absurd hj (Nat.not_lt_zero j))
      (fun j _ _ hj => absurd hj (Nat.not_lt_zero j)) rfl ?_
    decide
  exact .object (i := 0) (fun j _ _ hj => absurd hj (Nat.not_lt_zero j)) rfl rfl hnull

end QtProtobuf.Codec
