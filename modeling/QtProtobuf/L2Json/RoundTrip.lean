import QtProtobuf.L2Json.Trips

/-!
# The JSON round trip

What `deserializeMessage` makes of the text that `serializeMessage` writes. Where
strings and names can stand between quotes, the text is a JSON text, and every
value is read by itself: `Restored` says which of them come back.

* `Spelled.travels`: every value is read, and comes back if it is `Restored`.
* `roundTrips_iff`: a message comes back exactly if all its fields do.
-/
namespace QtProtobuf.Json

open Lib.Json Codec

section
variable {M : Type} {S : JsonSchema M} {mj : MicroJson} {qt : QtJson}

/-! ## The round trip -/

theorem isUnset_false {v : Value M} (h : ∀ m, v ≠ .unset m) : v.isUnset = false := by
  cases v with
  | unset m => exact absurd rfl (h m)
  | _ => rfl

/-- **Values.** -/
theorem Spelled.travels (hp : mj.Parses) (hr : Regular S qt.toQtCore) {v : Value M}
    (hs : Spelled S qt v) {t : FieldType M} (ht : Typed S.types qt.toQtCore t v) (hw : WholeField t)
    (e : MetaEnum) : Travels S mj qt e t v := by
  induction hs generalizing t e with
  | scalar h =>
    cases ht with
    | scalar hk => exact travels_scalar hw hk h
  | enum v =>
    cases ht
    exact travels_enum v
  | @unset m h ih =>
    -- the getter makes a default object, which is written and read in its place
    cases ht
    obtain ⟨x, hx, hwritten⟩ := ih (typed_newObject m) trivial e
    obtain ⟨hraw, s, hs⟩ := openBrace_of_object hx.value (hx.object m rfl)
    obtain ⟨gs, hgs, -⟩ := hx.read.message (by simp [hraw, hs])
    have hiff := hx.equal
    rw [hgs] at hiff
    refine ⟨x, ⟨hx.value, hx.notNull, hx.object, hx.read, ?_⟩, hwritten⟩
    rw [hgs]
    constructor
    · intro heq
      cases heq with
      | unset_object heq => exact .unset (hiff.mp heq)
    · intro hrest
      cases hrest with
      | unset hrest => exact .unset_object (hiff.mpr hrest)
  | @object m fs hn h ih =>
    cases ht with
    | object m hl htyped =>
      obtain ⟨text, gs, hwritten, hread, hvalue, hiff⟩ := travels_fields hp hr hn hl
        fun i t v ht hv hw => ih v (List.mem_of_getElem? hv) (htyped i t v ht hv) hw (S.metaEnum m i)
      obtain ⟨-, s, hs⟩ := openBrace_of_object hvalue rfl
      have hne : text ≠ [] := by
        have hs : text = openBrace :: s := hs
        rw [hs]
        exact List.cons_ne_nil _ _
      refine ⟨(⟨.object, text⟩, .object m gs), ⟨hvalue, by simp, fun _ _ => rfl, hread.readAs hne e,
        hiff.trans ⟨.object, fun hrest => ?_⟩⟩, hwritten⟩
      cases hrest with
      | object hrest => exact hrest
  | nums nt vs =>
    cases ht
    exact travels_nums hp e hw vs
  | strings h =>
    cases ht with
    | strings hk => exact travels_strings hp e hk h
  | byteArrays vs =>
    cases ht
    exact travels_byteArrays hp e vs
  | enums vs =>
    cases ht
    exact travels_enums hp e vs
  | messages h ih =>
    cases ht with
    | messages hset htyped =>
      refine travels_messages hp hset fun v hv => ih v hv ?_ (htyped v hv) trivial e
      obtain ⟨fs, rfl⟩ := hset v hv
      rfl
  | map hk h ih =>
    cases ht with
    | map htk htyped hset hsorted =>
      have hunset := fun p hpm => isUnset_false (hset p hpm)
      refine travels_map hp hw.1 hw.2.1 htk (fun p hpm => hk p hpm (hunset p hpm)) hunset
        (fun p hpm rec => ?_) hsorted fun p hpm => ih p hpm (hunset p hpm) (htyped p hpm) hw.2.2 e
      have htp := htyped p hpm
      cases hv : p.2 with
      | scalar | enum | unset | object => rfl
      | _ =>
        rw [hv] at htp
        cases htp

/-- What is written for a message gives an equal message. -/
def RoundTrips (S : JsonSchema M) (mj : MicroJson) (qt : QtJson) (m : M) (fs : List (Value M)) : Prop :=
  ∃ text fs', MessageWrittenAs S qt m fs text ∧ MessageReadAs S mj qt m text fs' ∧
    Equal S.types (.object m fs) (.object m fs')

/-- All fields of the message come back. -/
def MessageRestored (S : JsonSchema M) (m : M) (fs : List (Value M)) : Prop :=
  ∀ i v, fs[i]? = some v → Restored S (S.metaEnum m i) v

/-- The one text that is written for a message, and the one message that is read from it. -/
theorem Spelled.message (hp : mj.Parses) (hr : Regular S qt.toQtCore) {m : M} {fs : List (Value M)}
    (ht : Typed S.types qt.toQtCore (.single (.message m)) (.object m fs))
    (hs : Spelled S qt (.object m fs)) :
    ∃ text gs, MessageWrittenAs S qt m fs text ∧ MessageReadAs S mj qt m text gs ∧
      (Equal S.types (.object m fs) (.object m gs) ↔ MessageRestored S m fs) := by
  cases hs with
  | object hn h =>
    cases ht with
    | object m hl htyped =>
      obtain ⟨text, gs, hwritten, hread, -, hiff⟩ := travels_fields hp hr hn hl
        fun i t v ht hv hw =>
          (h v (List.mem_of_getElem? hv)).travels hp hr (htyped i t v ht hv) hw (S.metaEnum m i)
      exact ⟨text, gs, hwritten, hread, hiff⟩

theorem roundTrips_equal {m : M} {fs gs : List (Value M)} {text : Bytes}
    (hwritten : MessageWrittenAs S qt m fs text) (hread : MessageReadAs S mj qt m text gs) :
    RoundTrips S mj qt m fs ↔ Equal S.types (.object m fs) (.object m gs) := by
  refine ⟨fun ⟨text', gs', hwritten', hread', heq⟩ => ?_, fun heq => ⟨text, gs, hwritten, hread, heq⟩⟩
  cases hwritten'.unique hwritten
  cases hread'.unique hread
  exact heq

/-- **The JSON round trip.** A message whose strings, keys and names can stand
between quotes comes back exactly if it has no string with `\"`, no map key `true`,
and no enum value away from its own index. -/
theorem roundTrips_iff (hp : mj.Parses) (hr : Regular S qt.toQtCore) {m : M} {fs : List (Value M)}
    (ht : Typed S.types qt.toQtCore (.single (.message m)) (.object m fs))
    (hs : Spelled S qt (.object m fs)) : RoundTrips S mj qt m fs ↔ MessageRestored S m fs := by
  obtain ⟨text, gs, hwritten, hread, hiff⟩ := hs.message hp hr ht
  exact (roundTrips_equal hwritten hread).trans hiff

end

/-! ## A message with one string -/

/-- `message Note { string a = 1; }` -/
def note : JsonSchema Unit := .oneField (.single (.scalar .string)) [0x61] denseLevels

def noteWith (s : List UInt16) : List (Value Unit) := [.scalar (.string (some s))]

theorem note_regular : Regular note QtJson.ascii.toQtCore where
  nonempty _ := List.cons_ne_nil _ _
  whole _ t ht := by
    rw [List.mem_singleton.mp ht]
    trivial
  names _ _ _ := rfl

theorem note_typed {s : List UInt16} (h : QtCore.ascii.Survives (some s)) :
    Typed note.types QtJson.ascii.toQtCore (.single (.message ())) (.object () (noteWith s)) := by
  refine .object () rfl fun i t v ht hv => ?_
  cases i with
  | zero =>
    cases ht
    cases hv
    have hk : (Scalar.string (some s)).Kept QtJson.ascii.toQtCore := h
    exact .scalar hk
  | succ i => cases hv

theorem survives_x : QtCore.ascii.Survives (some [0x78]) := rfl

theorem survives_escapedQuote : QtCore.ascii.Survives (some escapedQuote) := rfl

theorem note_spelled {s : List UInt16} (h : Chars (QtCore.ascii.toUtf8 s)) :
    Spelled note .ascii (.object () (noteWith s)) := by
  have hplain : Chars [0x61] := .of_plain (List.all_eq_true.mp (by decide))
  refine .object (fun _ _ => ⟨hplain, show backslash ∉ ([0x61] : Bytes) by simp [backslash]⟩) ?_
  intro v hv
  rw [List.mem_singleton.mp hv]
  refine .scalar fun s' hs => ?_
  cases hs
  exact h

theorem note_restored {s : List UInt16} :
    MessageRestored note () (noteWith s) ↔ ¬ escapedQuote <:+: s := by
  constructor
  · intro h
    cases h 0 _ rfl with
    | scalar h => exact h _ rfl
  · intro h i v hv
    cases i with
    | zero =>
      cases hv
      refine .scalar fun s' hs => ?_
      cases hs
      exact h
    | succ i => cases hv

/-- `{"a":"x"}` -/
theorem roundTrips_note : RoundTrips note scanner .ascii () (noteWith [0x78]) :=
  (roundTrips_iff scanner_parses note_regular (note_typed survives_x)
    (note_spelled (.of_plain (List.all_eq_true.mp (by decide))))).mpr
    (note_restored.mpr (by simp [escapedQuote, List.infix_cons_iff]))

/-- `{"a":"\""}` is read as a quote. -/
theorem not_roundTrips_escapedQuote :
    scanner.Parses ∧ Regular note QtJson.ascii.toQtCore ∧ Acyclic note.types ∧
      Typed note.types QtJson.ascii.toQtCore (.single (.message ()))
        (.object () (noteWith escapedQuote)) ∧
      Spelled note .ascii (.object () (noteWith escapedQuote)) ∧
      ¬ RoundTrips note scanner .ascii () (noteWith escapedQuote) := by
  have ht : Typed note.types QtJson.ascii.toQtCore (.single (.message ()))
      (.object () (noteWith escapedQuote)) := note_typed survives_escapedQuote
  have hs : Spelled note .ascii (.object () (noteWith escapedQuote)) :=
    note_spelled (.escape (by simp [escapes]) .nil)
  refine ⟨scanner_parses, note_regular, fun m h => ?_, ht, hs, fun hround => ?_⟩
  · obtain ⟨m', hm'⟩ : ∃ m', Contains note.types m' m := by
      cases h with
      | single h => exact ⟨_, h⟩
      | tail _ h => exact ⟨_, h⟩
    cases List.mem_singleton.mp hm'
  · obtain ⟨text, gs, hwritten, hread, hiff⟩ := hs.message scanner_parses note_regular ht
    have hrestored := hiff.mp ((roundTrips_equal hwritten hread).mp hround)
    exact note_restored.mp hrestored (List.infix_refl _)

end QtProtobuf.Json
