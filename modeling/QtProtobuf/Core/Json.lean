import Mathlib.Algebra.Group.Int.Defs
import Mathlib.Algebra.Group.Nat.Defs

/-!
# JSON texts

The grammar of RFC 8259 over bytes. A `RawValue` is the kind of a value and its
raw text: what is between the quotes of a string, the whole text of anything
else. `IsValue` says which of them the grammar has; the elements and members of
arrays and objects keep the white space around them.

* `IsValue.head`: a value does not begin with white space or a separator.
* `commas_concat`: a comma after each text, and one too many.
-/
namespace Lib.Json

abbrev Text := List UInt8

/-! ## Bytes -/

abbrev quote : UInt8 := 0x22
abbrev backslash : UInt8 := 0x5c
abbrev comma : UInt8 := 0x2c
abbrev colon : UInt8 := 0x3a
abbrev openBracket : UInt8 := 0x5b
abbrev closeBracket : UInt8 := 0x5d
abbrev openBrace : UInt8 := 0x7b
abbrev closeBrace : UInt8 := 0x7d
abbrev minus : UInt8 := 0x2d

def isSpace (c : UInt8) : Bool := c == 0x20 || c == 0x09 || c == 0x0a || c == 0x0d

def isDigit (c : UInt8) : Bool := 0x30 ≤ c && c ≤ 0x39

def isHexDigit (c : UInt8) : Bool :=
  isDigit c || (0x41 ≤ c && c ≤ 0x46) || (0x61 ≤ c && c ≤ 0x66)

/-- White space. -/
def Spaces (t : Text) : Prop := ∀ c ∈ t, isSpace c = true

theorem spaces_nil : Spaces [] := fun _ h => absurd h List.not_mem_nil

/-! ## Numbers -/

inductive Sign : Text → Prop
  | absent : Sign []
  | minus : Sign [minus]

inductive IntPart : Text → Prop
  | zero : IntPart [0x30]
  | digits {c : UInt8} {ds : Text} (hc : isDigit c = true) (h0 : c ≠ 0x30)
    (h : ∀ d ∈ ds, isDigit d = true) : IntPart (c :: ds)

inductive FracPart : Text → Prop
  | absent : FracPart []
  | digits {ds : Text} (hne : ds ≠ []) (h : ∀ d ∈ ds, isDigit d = true) : FracPart (0x2e :: ds)

inductive ExpPart : Text → Prop
  | absent : ExpPart []
  | digits {e : UInt8} {sign ds : Text} (he : e = 0x65 ∨ e = 0x45)
    (hs : sign = [] ∨ sign = [0x2b] ∨ sign = [minus]) (hne : ds ≠ [])
    (h : ∀ d ∈ ds, isDigit d = true) : ExpPart (e :: (sign ++ ds))

inductive Number : Text → Prop
  | mk {sign int frac exp : Text} (hs : Sign sign) (hi : IntPart int) (hf : FracPart frac)
    (he : ExpPart exp) : Number (sign ++ int ++ frac ++ exp)

def isNumberChar (c : UInt8) : Bool :=
  isDigit c || c == minus || c == 0x2b || c == 0x2e || c == 0x65 || c == 0x45

theorem isNumberChar_of_isDigit {c : UInt8} (h : isDigit c = true) : isNumberChar c = true := by
  simp [isNumberChar, h]

/-- A number is not empty, it has no other characters, and a sign or a digit comes first. -/
theorem Number.chars {t : Text} (h : Number t) :
    (∀ c ∈ t, isNumberChar c = true) ∧ ∃ c t', t = c :: t' ∧ (c = minus ∨ isDigit c = true) := by
  obtain ⟨hs, hi, hf, he⟩ := h
  rename_i sign int frac exp
  have hsign : ∀ c ∈ sign, isNumberChar c = true := by cases hs <;> simp [isNumberChar]
  have hint : ∀ c ∈ int, isNumberChar c = true := by
    cases hi with
    | zero => exact List.all_eq_true.mp (by decide)
    | digits hc _ h =>
      intro d hd
      rcases List.mem_cons.mp hd with rfl | hd
      · exact isNumberChar_of_isDigit hc
      · exact isNumberChar_of_isDigit (h d hd)
  have hfrac : ∀ c ∈ frac, isNumberChar c = true := by
    cases hf with
    | absent => exact fun _ hc => absurd hc List.not_mem_nil
    | digits _ h =>
      intro d hd
      rcases List.mem_cons.mp hd with rfl | hd
      · decide
      · exact isNumberChar_of_isDigit (h d hd)
  have hexp : ∀ c ∈ exp, isNumberChar c = true := by
    cases he with
    | absent => exact fun _ hc => absurd hc List.not_mem_nil
    | digits he hs _ h =>
      intro d hd
      rcases List.mem_cons.mp hd with rfl | hd
      · rcases he with rfl | rfl <;> decide
      · rcases List.mem_append.mp hd with hd | hd
        · rcases hs with rfl | rfl | rfl <;> simp at hd <;> subst hd <;> decide
        · exact isNumberChar_of_isDigit (h d hd)
  refine ⟨fun c hc => ?_, ?_⟩
  · simp only [List.mem_append] at hc
    rcases hc with ((hc | hc) | hc) | hc
    · exact hsign c hc
    · exact hint c hc
    · exact hfrac c hc
    · exact hexp c hc
  · cases hs with
    | minus => exact ⟨minus, int ++ frac ++ exp, rfl, .inl rfl⟩
    | absent =>
      cases hi with
      | zero => exact ⟨0x30, frac ++ exp, rfl, .inr (by decide)⟩
      | @digits c ds hc _ _ => exact ⟨c, ds ++ frac ++ exp, rfl, .inr hc⟩

/-! ## Strings -/

/-- The characters that may follow a backslash, but `u`. -/
def escapes : Text := [0x22, 0x5c, 0x2f, 0x62, 0x66, 0x6e, 0x72, 0x74]

/-- What may stand between the quotes of a string. -/
inductive Chars : Text → Prop
  | nil : Chars []
  | char {c : Char} {t : Text} (hc : 0x20 ≤ c.toNat) (hq : c ≠ '"') (hb : c ≠ '\\') (h : Chars t) :
    Chars (String.utf8EncodeChar c ++ t)
  | escape {c : UInt8} {t : Text} (hc : c ∈ escapes) (h : Chars t) : Chars (backslash :: c :: t)
  | unicode {ds t : Text} (hl : ds.length = 4) (hd : ∀ d ∈ ds, isHexDigit d = true) (h : Chars t) :
    Chars (backslash :: 0x75 :: (ds ++ t))

/-- A character of ASCII is one byte, any other has none of ASCII. -/
theorem utf8EncodeChar_cases (c : Char) :
    c.toNat ≤ 0x7f ∧ String.utf8EncodeChar c = [UInt8.ofNat c.toNat] ∨
      0x7f < c.toNat ∧ ∀ b ∈ String.utf8EncodeChar c, 0x80 ≤ b.toNat := by
  have htail : ∀ n, 0x80 ≤ (UInt8.ofNat (n % 0x40 + 0x80)).toNat := fun n => by
    rw [UInt8.toNat_ofNat']
    omega
  have hdef : String.utf8EncodeChar c =
      if c.toNat ≤ 0x7f then [UInt8.ofNat c.toNat]
      else if c.toNat ≤ 0x7ff then
        [UInt8.ofNat (c.toNat / 64 % 0x20 + 0xc0), UInt8.ofNat (c.toNat % 0x40 + 0x80)]
      else if c.toNat ≤ 0xffff then
        [UInt8.ofNat (c.toNat / 4096 % 0x10 + 0xe0), UInt8.ofNat (c.toNat / 64 % 0x40 + 0x80),
          UInt8.ofNat (c.toNat % 0x40 + 0x80)]
      else
        [UInt8.ofNat (c.toNat / 262144 % 0x08 + 0xf0), UInt8.ofNat (c.toNat / 4096 % 0x40 + 0x80),
          UInt8.ofNat (c.toNat / 64 % 0x40 + 0x80), UInt8.ofNat (c.toNat % 0x40 + 0x80)] := rfl
  rw [hdef]
  split
  · exact .inl ⟨by assumption, rfl⟩
  · refine .inr ⟨by omega, fun b hb => ?_⟩
    split at hb
    · simp only [List.mem_cons, List.not_mem_nil, or_false] at hb
      rcases hb with rfl | rfl
      · rw [UInt8.toNat_ofNat']
        omega
      · exact htail _
    · split at hb
      · simp only [List.mem_cons, List.not_mem_nil, or_false] at hb
        rcases hb with rfl | rfl | rfl
        · rw [UInt8.toNat_ofNat']
          omega
        · exact htail _
        · exact htail _
      · simp only [List.mem_cons, List.not_mem_nil, or_false] at hb
        rcases hb with rfl | rfl | rfl | rfl
        · rw [UInt8.toNat_ofNat']
          omega
        · exact htail _
        · exact htail _
        · exact htail _

/-- No byte of a character but a quote is a quote. -/
theorem not_mem_utf8EncodeChar {c d : Char} (hd : d.toNat ≤ 0x7f) (hne : c ≠ d) :
    UInt8.ofNat d.toNat ∉ String.utf8EncodeChar c := by
  intro hmem
  have hval : (UInt8.ofNat d.toNat).toNat = d.toNat := UInt8.toNat_ofNat_of_lt' (show _ < 256 by omega)
  rcases utf8EncodeChar_cases c with ⟨hc, he⟩ | ⟨-, hb⟩
  · rw [he, List.mem_singleton] at hmem
    have hcd := congrArg UInt8.toNat hmem
    rw [hval, UInt8.toNat_ofNat_of_lt' (show _ < 256 by omega)] at hcd
    exact hne (Char.toNat_inj.mp hcd.symm)
  · have := hb _ hmem
    omega

/-- Bytes of ASCII that may stand in a string for themselves. -/
def isPlain (c : UInt8) : Bool := 0x20 ≤ c && c < 0x80 && c != quote && c != backslash

theorem Chars.of_plain {t : Text} (h : ∀ c ∈ t, isPlain c = true) : Chars t := by
  induction t with
  | nil => exact .nil
  | cons c t ih =>
    have hc := h c List.mem_cons_self
    simp only [isPlain, Bool.and_eq_true, decide_eq_true_eq, bne_iff_ne, ne_eq,
      UInt8.le_iff_toNat_le, UInt8.lt_iff_toNat_lt] at hc
    obtain ⟨⟨⟨hlo, hhi⟩, hq⟩, hb⟩ := hc
    have hhi : c.toNat < 0x80 := hhi
    have hlo : 0x20 ≤ c.toNat := hlo
    have hvalid : c.toNat.isValidChar := .inl (by omega)
    have hval : (Char.ofNat c.toNat).toNat = c.toNat :=
      congrArg Char.toNat (dif_pos hvalid : Char.ofNat c.toNat = Char.ofNatAux c.toNat hvalid)
    have henc : String.utf8EncodeChar (Char.ofNat c.toNat) = [c] := by
      rcases utf8EncodeChar_cases (Char.ofNat c.toNat) with ⟨-, he⟩ | ⟨hgt, -⟩
      · rw [he, hval, UInt8.ofNat_toNat]
      · omega
    have hne : ∀ d : Char, d.toNat < 0x80 → c ≠ UInt8.ofNat d.toNat → Char.ofNat c.toNat ≠ d :=
      fun d _ hcd he => hcd (by rw [← he, hval, UInt8.ofNat_toNat])
    have ht := ih fun d hd => h d (List.mem_cons_of_mem c hd)
    have := Chars.char (c := Char.ofNat c.toNat) (by omega) (hne '"' (by decide) hq)
      (hne '\\' (by decide) hb) ht
    rwa [henc] at this

/-! ## Values -/

inductive Kind where
  | null | bool | number | string | object | array
  deriving DecidableEq, Repr

structure RawValue where
  kind : Kind
  raw : Text
  deriving DecidableEq

namespace RawValue

def null : RawValue := ⟨.null, [0x6e, 0x75, 0x6c, 0x6c]⟩

/-- `true` and `false` -/
def bool (b : Bool) : RawValue :=
  ⟨.bool, if b then [0x74, 0x72, 0x75, 0x65] else [0x66, 0x61, 0x6c, 0x73, 0x65]⟩

/-- The value as it stands in a text. -/
def text (i : RawValue) : Text := if i.kind = .string then quote :: (i.raw ++ [quote]) else i.raw

end RawValue

/-- A value in an array, or after the colon of a member. -/
structure Element where
  before : Text
  item : RawValue
  after : Text

structure Member where
  before : Text
  name : Text
  between : Text
  value : Element

def Element.text (e : Element) : Text := e.before ++ (e.item.text ++ e.after)

def Member.text (m : Member) : Text :=
  m.before ++ (quote :: (m.name ++ (quote :: (m.between ++ (colon :: m.value.text)))))

/-- The texts with commas between them. -/
def commas (texts : List Text) : Text := [comma].intercalate texts

@[simp] theorem commas_nil : commas [] = [] := rfl

@[simp] theorem commas_singleton (t : Text) : commas [t] = t := by
  simp [commas, List.intercalate_singleton]

@[simp] theorem commas_cons_cons (t u : Text) (texts : List Text) :
    commas (t :: u :: texts) = t ++ (comma :: commas (u :: texts)) := by
  simp [commas, List.intercalate_cons_cons]

def arrayText (spaces : Text) (es : List Element) : Text :=
  openBracket :: (spaces ++ (commas (es.map Element.text) ++ [closeBracket]))

def objectText (spaces : Text) (ms : List Member) : Text :=
  openBrace :: (spaces ++ (commas (ms.map Member.text) ++ [closeBrace]))

def Element.Spaced (e : Element) : Prop := Spaces e.before ∧ Spaces e.after

def Member.Spaced (m : Member) : Prop := Spaces m.before ∧ Spaces m.between ∧ m.value.Spaced

inductive IsValue : RawValue → Prop
  | null : IsValue .null
  | bool (b : Bool) : IsValue (.bool b)
  | number {t : Text} (h : Number t) : IsValue ⟨.number, t⟩
  | string {t : Text} (h : Chars t) : IsValue ⟨.string, t⟩
  | array {spaces : Text} {es : List Element} (hs : Spaces spaces) (hw : ∀ e ∈ es, e.Spaced)
    (h : ∀ e ∈ es, IsValue e.item) : IsValue ⟨.array, arrayText spaces es⟩
  | object {spaces : Text} {ms : List Member} (hs : Spaces spaces) (hw : ∀ m ∈ ms, m.Spaced)
    (hn : ∀ m ∈ ms, Chars m.name) (h : ∀ m ∈ ms, IsValue m.value.item) :
    IsValue ⟨.object, objectText spaces ms⟩

def Element.Valid (e : Element) : Prop := e.Spaced ∧ IsValue e.item

def Member.Valid (m : Member) : Prop := m.Spaced ∧ Chars m.name ∧ IsValue m.value.item

/-- `text` is an array with the elements `es`. -/
def IsArray (text : Text) (es : List Element) : Prop :=
  (∀ e ∈ es, e.Valid) ∧
    ∃ before spaces after, Spaces before ∧ Spaces spaces ∧ Spaces after ∧
      text = before ++ (arrayText spaces es ++ after)

/-- `text` is an object with the members `ms`. -/
def IsObject (text : Text) (ms : List Member) : Prop :=
  (∀ m ∈ ms, m.Valid) ∧
    ∃ before spaces after, Spaces before ∧ Spaces spaces ∧ Spaces after ∧
      text = before ++ (objectText spaces ms ++ after)

/-! ## The first byte of a value -/

/-- Bytes between the values, names and colons of arrays and objects, and at their ends. -/
def isDelimiter (c : UInt8) : Bool :=
  isSpace c || c == comma || c == colon || c == closeBracket || c == closeBrace

theorem isDelimiter_of_isNumberChar {c : UInt8} (h : isNumberChar c = true) : isDelimiter c = false := by
  simp only [isNumberChar, isDigit, Bool.or_eq_true, Bool.and_eq_true, decide_eq_true_eq,
    beq_iff_eq, UInt8.le_iff_toNat_le] at h
  simp only [isDelimiter, isSpace, Bool.or_eq_false_iff, beq_eq_false_iff_ne, ne_eq,
    ← UInt8.toNat_inj]
  rcases h with ((((⟨h₁, h₂⟩ | rfl) | rfl) | rfl) | rfl) | rfl
  · have h₁ : 0x30 ≤ c.toNat := h₁
    have h₂ : c.toNat ≤ 0x39 := h₂
    simp only [comma, colon, closeBracket, closeBrace, UInt8.reduceToNat]
    omega
  all_goals decide

/-- A value begins with its first byte, and no delimiter is one. -/
theorem IsValue.head {i : RawValue} (h : IsValue i) : ∃ c t, i.text = c :: t ∧ isDelimiter c = false := by
  cases h with
  | null => exact ⟨_, _, rfl, by decide⟩
  | bool b => cases b <;> exact ⟨_, _, rfl, by decide⟩
  | number h =>
    obtain ⟨hall, c, t, rfl, -⟩ := h.chars
    exact ⟨c, t, rfl, isDelimiter_of_isNumberChar (hall c List.mem_cons_self)⟩
  | string h => exact ⟨quote, _, rfl, by decide⟩
  | array _ _ _ => exact ⟨openBracket, _, rfl, by decide⟩
  | object _ _ _ _ => exact ⟨openBrace, _, rfl, by decide⟩

/-! ## Texts without white space -/

/-- A comma behind each text, and none behind the last. -/
theorem commas_concat {texts : List Text} (h : texts ≠ []) :
    texts.flatMap (· ++ [comma]) = commas texts ++ [comma] := by
  induction texts with
  | nil => exact absurd rfl h
  | cons t texts ih =>
    cases texts with
    | nil => simp
    | cons u texts => simp [ih (by simp)]

def Element.bare (i : RawValue) : Element := ⟨[], i, []⟩

def Member.bare (name : Text) (i : RawValue) : Member := ⟨[], name, [], .bare i⟩

theorem Element.bare_text (i : RawValue) : (Element.bare i).text = i.text := by
  simp [Element.bare, Element.text]

/-- A member whose value has the text `value`. -/
def memberText (name value : Text) : Text := quote :: (name ++ (quote :: (colon :: value)))

theorem Member.bare_text (name : Text) (i : RawValue) :
    (Member.bare name i).text = memberText name i.text := by
  simp [Member.bare, Member.text, Element.bare_text, memberText]

theorem Element.bare_valid {i : RawValue} (h : IsValue i) : (Element.bare i).Valid :=
  ⟨⟨spaces_nil, spaces_nil⟩, h⟩

theorem Member.bare_valid {name : Text} {i : RawValue} (hn : Chars name) (h : IsValue i) :
    (Member.bare name i).Valid :=
  ⟨⟨spaces_nil, spaces_nil, spaces_nil, spaces_nil⟩, hn, h⟩

/-- The texts of valid elements and members. -/
theorem bare_elements {is : List RawValue} (h : ∀ i ∈ is, IsValue i) :
    ∀ e ∈ is.map Element.bare, e.Valid := by
  intro e he
  obtain ⟨i, hi, rfl⟩ := List.mem_map.mp he
  exact Element.bare_valid (h i hi)

theorem bare_members {ms : List (Text × RawValue)} (h : ∀ m ∈ ms, Chars m.1 ∧ IsValue m.2) :
    ∀ m ∈ ms.map fun m => Member.bare m.1 m.2, m.Valid := by
  intro m hm
  obtain ⟨p, hp, rfl⟩ := List.mem_map.mp hm
  exact Member.bare_valid (h p hp).1 (h p hp).2

theorem IsArray.bare {is : List RawValue} (h : ∀ i ∈ is, IsValue i) :
    IsArray (openBracket :: (commas (is.map RawValue.text) ++ [closeBracket])) (is.map Element.bare) :=
  ⟨bare_elements h, [], [], [], spaces_nil, spaces_nil, spaces_nil,
    by simp [arrayText, Function.comp_def, Element.bare_text]⟩

theorem IsObject.bare {ms : List (Text × RawValue)} (h : ∀ m ∈ ms, Chars m.1 ∧ IsValue m.2) :
    IsObject (openBrace :: (commas (ms.map fun m => memberText m.1 m.2.text) ++ [closeBrace]))
      (ms.map fun m => Member.bare m.1 m.2) :=
  ⟨bare_members h, [], [], [], spaces_nil, spaces_nil, spaces_nil,
    by simp [objectText, Function.comp_def, Member.bare_text]⟩

theorem IsValue.bareArray {is : List RawValue} (h : ∀ i ∈ is, IsValue i) :
    IsValue ⟨.array, openBracket :: (commas (is.map RawValue.text) ++ [closeBracket])⟩ := by
  have := IsValue.array spaces_nil (fun e he => (bare_elements h e he).1) fun e he =>
    (bare_elements h e he).2
  simpa [arrayText, Function.comp_def, Element.bare_text] using this

theorem IsValue.bareObject {ms : List (Text × RawValue)} (h : ∀ m ∈ ms, Chars m.1 ∧ IsValue m.2) :
    IsValue ⟨.object, openBrace :: (commas (ms.map fun m => memberText m.1 m.2.text) ++ [closeBrace])⟩ := by
  have := IsValue.object spaces_nil (fun m hm => (bare_members h m hm).1)
    (fun m hm => (bare_members h m hm).2.1) fun m hm => (bare_members h m hm).2.2
  simpa [objectText, Function.comp_def, Member.bare_text] using this

end Lib.Json
