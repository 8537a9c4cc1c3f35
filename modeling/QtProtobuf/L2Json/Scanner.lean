import QtProtobuf.L2Json.MicroJson

/-!
# A parser in the place of microjson

`scanner` looks for the ends of values only: the quote that ends a string, the
bracket that closes an array or an object, the delimiter after a literal.

* `scanValue_text`: it finds the end of every value.
* `scanner_parses`: it does what is assumed of microjson.
-/
namespace QtProtobuf.Json

open Lib.Json

/-! ## Definitions -/

/-- Where a byte is: in a string, behind a backslash there, or in none. -/
inductive Inside where
  | outside | string | escape
  deriving DecidableEq

def Inside.next : Inside → UInt8 → Inside
  | .outside, c => if c = quote then .string else .outside
  | .string, c => if c = backslash then .escape else if c = quote then .outside else .string
  | .escape, _ => .string

def prepend (a : Text) (r : Text × Text) : Text × Text := (a ++ r.1, r.2)

/-- What is before the quote that ends a string, and what is behind it. -/
def scanString : Inside → Text → Text × Text
  | _, [] => ([], [])
  | s, c :: t => if s = .string ∧ c = quote then ([], t) else prepend [c] (scanString (s.next c) t)

def opens (c : UInt8) : Bool := c == openBracket || c == openBrace

def closes (c : UInt8) : Bool := c == closeBracket || c == closeBrace

/-- Up to the bracket that closes the innermost of `depth + 1` open ones. -/
def scanNested : Inside → Nat → Text → Text × Text
  | _, _, [] => ([], [])
  | .outside, depth, c :: t =>
    if closes c then
      if depth = 0 then ([c], t) else prepend [c] (scanNested .outside (depth - 1) t)
    else prepend [c] (scanNested (Inside.outside.next c) (if opens c then depth + 1 else depth) t)
  | s, depth, c :: t => prepend [c] (scanNested (s.next c) depth t)

def literalKind (c : UInt8) : Kind :=
  if c = 0x6e then .null else if c = 0x74 ∨ c = 0x66 then .bool else .number

/-- The value at the beginning, and what is behind it. -/
def scanValue : Text → RawValue × Text
  | [] => (.null, [])
  | c :: t =>
    if c = quote then (⟨.string, (scanString .string t).1⟩, (scanString .string t).2)
    else if opens c then
      (⟨if c = openBracket then .array else .object, c :: (scanNested .outside 0 t).1⟩,
        (scanNested .outside 0 t).2)
    else (⟨literalKind c, (c :: t).takeWhile (!isDelimiter ·)⟩, (c :: t).dropWhile (!isDelimiter ·))

/-- The value after white space and commas, and what is behind it; `none` at the
closing bracket. -/
def scanElement (close : UInt8) (b : Text) : Option (RawValue × Text) :=
  let t := b.dropWhile fun c => isSpace c || c == comma
  if t = [] ∨ t.head? = some close then none else some (scanValue t)

def scanMember (close : UInt8) (b : Text) : Option ((Text × RawValue) × Text) :=
  let t := b.dropWhile fun c => isSpace c || c == comma
  if t = [] ∨ t.head? = some close then none
  else
    let name := scanString .string t.tail
    let value := scanValue (name.2.dropWhile fun c => isSpace c || c == colon)
    some ((name.1, value.1), value.2)

/-- All the parts, one after the other; each of them has a byte at least. -/
def scanAll {α : Type} (scan : Text → Option (α × Text)) : Nat → Text → List α
  | 0, _ => []
  | n + 1, b =>
    match scan b with
    | none => []
    | some (a, rest) => a :: scanAll scan n rest

def reportNamed (p : Text × RawValue) : Bytes × JsonProperty := (p.1, reportValue p.2)

/-- What is behind the first bracket. -/
def inner (text : Text) : Text := (text.dropWhile isSpace).tail

def scanner : MicroJson where
  parseJsonObject text := (scanAll (scanMember closeBrace) text.length (inner text)).map reportNamed
  parseJsonArray text := (scanAll (scanElement closeBracket) text.length (inner text)).map reportValue
  extractValue b close := (scanElement close b).map fun r => (reportValue r.1, b.length - r.2.length)
  extractProperty b close := (scanMember close b).map fun r => (reportNamed r.1, b.length - r.2.length)

/-! ## What a scan passes over -/

def Passes (scan : Text → Text × Text) (a : Text) : Prop :=
  ∀ rest, scan (a ++ rest) = prepend a (scan rest)

theorem prepend_prepend (a c : Text) (r : Text × Text) :
    prepend a (prepend c r) = prepend (a ++ c) r := by
  simp [prepend, List.append_assoc]

theorem Passes.nil (scan : Text → Text × Text) : Passes scan [] := fun _ => rfl

theorem Passes.append {scan : Text → Text × Text} {a c : Text} (ha : Passes scan a)
    (hc : Passes scan c) : Passes scan (a ++ c) := by
  intro rest
  rw [List.append_assoc, ha, hc, prepend_prepend]

theorem Passes.all {scan : Text → Text × Text} {a : Text} (h : ∀ c ∈ a, Passes scan [c]) :
    Passes scan a := by
  induction a with
  | nil => exact .nil scan
  | cons c a ih =>
    exact Passes.append (h c List.mem_cons_self) (ih fun d hd => h d (List.mem_cons_of_mem c hd))

theorem Passes.joined {scan : Text → Text × Text} (hc : Passes scan [comma]) {texts : List Text}
    (h : ∀ t ∈ texts, Passes scan t) : Passes scan (commas texts) := by
  induction texts with
  | nil => exact .nil scan
  | cons t texts ih =>
    have ht := h t List.mem_cons_self
    have htexts := ih fun t' ht' => h t' (List.mem_cons_of_mem t ht')
    cases texts with
    | nil => simpa using ht
    | cons u texts => exact commas_cons_cons t u texts ▸ ht.append (Passes.append hc htexts)

theorem hexDigit_ne {c : UInt8} (h : isHexDigit c = true) : c ≠ quote ∧ c ≠ backslash := by
  constructor <;> (rintro rfl; revert h; decide)

/-- In a string, a scan that takes one byte after the other, and stops at the last
quote only, takes all its characters. -/
theorem Chars.scan {β : Type} (act : UInt8 → β → β) (scan : Inside → Text → β)
    (hscan : ∀ s c t, s ≠ .outside → (s = .string → c ≠ quote) →
      scan s (c :: t) = act c (scan (s.next c) t)) {t : Text} (h : Chars t) (rest : Text) :
    scan .string (t ++ rest) = t.foldr act (scan .string rest) := by
  have hplain : ∀ ds : Text, (∀ c ∈ ds, c ≠ quote ∧ c ≠ backslash) → ∀ rest,
      scan .string (ds ++ rest) = ds.foldr act (scan .string rest) := by
    intro ds hds rest
    induction ds with
    | nil => rfl
    | cons c ds ih =>
      obtain ⟨hq, hb⟩ := hds c List.mem_cons_self
      rw [List.cons_append, hscan .string c _ (by simp) fun _ => hq, List.foldr_cons,
        ← ih fun d hd => hds d (List.mem_cons_of_mem c hd)]
      simp [Inside.next, hq, hb]
  have hpair : ∀ c rest, scan .string (backslash :: c :: rest) =
      act backslash (act c (scan .string rest)) := by
    intro c rest
    rw [hscan .string backslash _ (by simp) (fun _ => by decide), Inside.next, if_pos rfl,
      hscan .escape c rest (by simp) (by simp)]
    rfl
  induction h with
  | nil => rfl
  | @char c t _ hq hb _ ih =>
    rw [List.append_assoc, hplain _ _ (t ++ rest), ih, List.foldr_append]
    rintro b hmem
    constructor
    · rintro rfl
      exact not_mem_utf8EncodeChar (d := '"') (by decide) hq hmem
    · rintro rfl
      exact not_mem_utf8EncodeChar (d := '\\') (by decide) hb hmem
  | @escape c t _ _ ih =>
    rw [List.cons_append, List.cons_append, hpair, ih]
    rfl
  | @unicode ds t _ hd _ ih =>
    rw [List.cons_append, List.cons_append, hpair, List.append_assoc,
      hplain ds (fun d hmem => hexDigit_ne (hd d hmem)) (t ++ rest), ih, ← List.foldr_append]
    rfl

theorem foldr_prepend (t : Text) (r : Text × Text) : t.foldr (fun c => prepend [c]) r = prepend t r := by
  induction t with
  | nil => rfl
  | cons c t ih => rw [List.foldr_cons, ih, prepend_prepend]; rfl

theorem Chars.passes (scan : Inside → Text → Text × Text) (hscan : ∀ s c t, s ≠ .outside →
    (s = .string → c ≠ quote) → scan s (c :: t) = prepend [c] (scan (s.next c) t)) {t : Text}
    (h : Chars t) : Passes (scan .string) t := fun rest => by
  rw [Chars.scan (fun c => prepend [c]) scan hscan h, foldr_prepend]

theorem scanString_chars {t : Text} (h : Chars t) (rest : Text) :
    scanString .string (t ++ (quote :: rest)) = (t, rest) := by
  have hstop : scanString .string (quote :: rest) = ([], rest) := by simp [scanString]
  rw [Chars.passes scanString (fun s c t _ hq => ?_) h, hstop]
  · simp [prepend]
  · rw [scanString, if_neg fun hc => hq hc.1 hc.2]

/-! ## Nested values -/

/-- A byte that neither begins a string nor opens or closes a bracket. -/
def isNeutral (c : UInt8) : Bool := c != quote && !opens c && !closes c

theorem Passes.neutral {depth : Nat} {c : UInt8} (h : isNeutral c = true) :
    Passes (scanNested .outside depth) [c] := by
  intro rest
  simp only [isNeutral, Bool.and_eq_true, bne_iff_ne, ne_eq, Bool.not_eq_true'] at h
  obtain ⟨⟨hq, ho⟩, hc⟩ := h
  simp [scanNested, Inside.next, hq, ho, hc]

theorem Passes.word {depth : Nat} {t : Text} (h : t.all isNeutral = true) :
    Passes (scanNested .outside depth) t :=
  .all fun c hc => .neutral (List.all_eq_true.mp h c hc)

theorem isNeutral_of_isSpace {c : UInt8} (h : isSpace c = true) : isNeutral c = true := by
  simp only [isSpace, Bool.or_eq_true, beq_iff_eq] at h
  rcases h with ((rfl | rfl) | rfl) | rfl <;> decide

theorem isNeutral_of_isNumberChar {c : UInt8} (h : isNumberChar c = true) : isNeutral c = true := by
  have hne : ∀ d, isNumberChar d = false → c ≠ d := by
    rintro d hd rfl
    rw [h] at hd
    cases hd
  simp [isNeutral, opens, closes, hne quote (by decide), hne openBracket (by decide),
    hne openBrace (by decide), hne closeBracket (by decide), hne closeBrace (by decide)]

theorem Passes.spaces (depth : Nat) {t : Text} (h : Spaces t) : Passes (scanNested .outside depth) t :=
  .all fun c hc => .neutral (isNeutral_of_isSpace (h c hc))

theorem Passes.quoted {depth : Nat} {t : Text} (h : Chars t) :
    Passes (scanNested .outside depth) (quote :: (t ++ [quote])) := by
  intro rest
  have hstep : ∀ s c t', s ≠ .outside → (s = .string → c ≠ quote) →
      scanNested s depth (c :: t') = prepend [c] (scanNested (s.next c) depth t') := by
    intro s c t' hs _
    cases s with
    | outside => exact absurd rfl hs
    | _ => rfl
  have hchars := Chars.passes (fun s => scanNested s depth) hstep h ([quote] ++ rest)
  have hopen : ∀ u, scanNested .outside depth (quote :: u) =
      prepend [quote] (scanNested .string depth u) := fun u => rfl
  have hclose : scanNested .string depth (quote :: rest) =
      prepend [quote] (scanNested .outside depth rest) := rfl
  show scanNested .outside depth (quote :: (t ++ [quote] ++ rest)) = _
  rw [hopen, List.append_assoc, hchars, List.singleton_append, hclose]
  simp [prepend]

/-- Brackets with a text between them that a scan passes over, at one level more. -/
theorem Passes.brackets {depth : Nat} {o c : UInt8} (ho : opens o = true) (hc : closes c = true)
    {t : Text} (h : Passes (scanNested .outside (depth + 1)) t) :
    Passes (scanNested .outside depth) (o :: (t ++ [c])) := by
  intro rest
  have hoc : closes o = false := by
    simp only [opens, Bool.or_eq_true, beq_iff_eq] at ho
    rcases ho with rfl | rfl <;> decide
  have hoq : o ≠ quote := by
    rintro rfl
    revert ho
    decide
  have hopen : ∀ u, scanNested .outside depth (o :: u) =
      prepend [o] (scanNested .outside (depth + 1) u) := fun u => by
    simp [scanNested, hoc, ho, Inside.next, hoq]
  have hclose : scanNested .outside (depth + 1) (c :: rest) =
      prepend [c] (scanNested .outside depth rest) := by
    simp [scanNested, hc]
  show scanNested .outside depth (o :: (t ++ [c] ++ rest)) = _
  rw [hopen, List.append_assoc, h, List.singleton_append, hclose]
  simp [prepend]

theorem Passes.element {depth : Nat} {e : Element} (hw : e.Spaced)
    (h : Passes (scanNested .outside depth) e.item.text) : Passes (scanNested .outside depth) e.text :=
  (Passes.spaces depth hw.1).append (h.append (.spaces depth hw.2))

theorem Passes.member {depth : Nat} {m : Member} (hw : m.Spaced) (hn : Chars m.name)
    (h : Passes (scanNested .outside depth) m.value.item.text) :
    Passes (scanNested .outside depth) m.text := by
  obtain ⟨hbefore, hbetween, hvalue⟩ := hw
  have hcolon : Passes (scanNested .outside depth) [colon] := .neutral (by decide)
  have hall := (Passes.spaces depth hbefore).append ((Passes.quoted hn).append
    ((Passes.spaces depth hbetween).append (hcolon.append (Passes.element hvalue h))))
  simpa [Member.text] using hall

/-- The text between the brackets of an array or an object. -/
theorem Passes.body (depth : Nat) {spaces : Text} (hs : Spaces spaces) (texts : List Text)
    (h : ∀ t ∈ texts, Passes (scanNested .outside depth) t) :
    Passes (scanNested .outside depth) (spaces ++ commas texts) :=
  (Passes.spaces depth hs).append (.joined (.neutral (by decide)) h)

/-- **Values.** A scan for a closing bracket passes over every value. -/
theorem Passes.value {i : RawValue} (h : IsValue i) : ∀ depth, Passes (scanNested .outside depth) i.text := by
  induction h with
  | null => exact fun _ => .word (by decide)
  | bool b => exact fun _ => .word (by cases b <;> decide)
  | number h => exact fun _ => .all fun c hc => .neutral (isNeutral_of_isNumberChar (h.chars.1 c hc))
  | string h => exact fun _ => .quoted h
  | @array spaces es hs hw _ ih =>
    intro depth
    have hbody := Passes.body (depth + 1) hs (es.map Element.text) fun t ht => by
      obtain ⟨e, he, rfl⟩ := List.mem_map.mp ht
      exact .element (hw e he) (ih e he _)
    have := Passes.brackets (o := openBracket) (c := closeBracket) (by decide) (by decide) hbody
    simpa [RawValue.text, arrayText] using this
  | @object spaces ms hs hw hn _ ih =>
    intro depth
    have hbody := Passes.body (depth + 1) hs (ms.map Member.text) fun t ht => by
      obtain ⟨m, hm, rfl⟩ := List.mem_map.mp ht
      exact .member (hw m hm) (hn m hm) (ih m hm _)
    have := Passes.brackets (o := openBrace) (c := closeBrace) (by decide) (by decide) hbody
    simpa [RawValue.text, objectText] using this

/-! ## The end of a value -/

/-- What can be behind a value in a text. -/
def Ends (rest : Text) : Prop := ∀ c ∈ rest.head?, isDelimiter c = true

theorem scanNested_close {c : UInt8} (hc : closes c = true) {t : Text}
    (h : Passes (scanNested .outside 0) t) (rest : Text) :
    scanNested .outside 0 (t ++ (c :: rest)) = (t ++ [c], rest) := by
  have hstop : scanNested .outside 0 (c :: rest) = ([c], rest) := by simp [scanNested, hc]
  rw [h, hstop]
  rfl

theorem takeWhile_word {t rest : Text} (ht : t.all (!isDelimiter ·) = true) (hr : Ends rest) :
    (t ++ rest).takeWhile (!isDelimiter ·) = t ∧ (t ++ rest).dropWhile (!isDelimiter ·) = rest := by
  have hall := List.all_eq_true.mp ht
  rw [List.takeWhile_append_of_pos hall, List.dropWhile_append_of_pos hall]
  cases rest with
  | nil => simp
  | cons c rest => simp [hr c (by simp)]

theorem scanValue_literal {c : UInt8} {t rest : Text} (hc : c ≠ quote) (ho : opens c = false)
    (ht : (c :: t).all (!isDelimiter ·) = true) (hr : Ends rest) :
    scanValue ((c :: t) ++ rest) = (⟨literalKind c, c :: t⟩, rest) := by
  obtain ⟨htake, hdrop⟩ := takeWhile_word ht hr
  rw [List.cons_append, scanValue, if_neg hc, if_neg (by simp [ho]), ← List.cons_append, htake, hdrop]

/-- **The end of a value.** -/
theorem scanValue_text {i : RawValue} (h : IsValue i) {rest : Text} (hr : Ends rest) :
    scanValue (i.text ++ rest) = (i, rest) := by
  cases h with
  | null => exact scanValue_literal (by decide) (by decide) (by decide) hr
  | bool b => cases b <;> exact scanValue_literal (by decide) (by decide) (by decide) hr
  | @number t h =>
    obtain ⟨hall, c, t, rfl, hc⟩ := h.chars
    have hkind : literalKind c = .number := by
      have hne : ∀ d, d ≠ minus → isDigit d = false → c ≠ d := by
        rintro d hm hd rfl
        rcases hc with rfl | hc
        · exact hm rfl
        · rw [hd] at hc
          cases hc
      simp [literalKind, hne 0x6e (by decide) (by decide), hne 0x74 (by decide) (by decide),
        hne 0x66 (by decide) (by decide)]
    have hneutral := isNeutral_of_isNumberChar (hall c List.mem_cons_self)
    simp only [isNeutral, Bool.and_eq_true, bne_iff_ne, ne_eq, Bool.not_eq_true'] at hneutral
    have hdelim : (c :: t).all (!isDelimiter ·) = true :=
      List.all_eq_true.mpr fun d hd => by simp [isDelimiter_of_isNumberChar (hall d hd)]
    have := scanValue_literal hneutral.1.1 hneutral.1.2 hdelim hr
    rw [hkind] at this
    exact this
  | @string t h =>
    have := scanString_chars h rest
    simp [RawValue.text, scanValue, this]
  | @array spaces es hs hw h =>
    have hbody := Passes.body 0 hs (es.map Element.text) fun t ht => by
      obtain ⟨e, he, rfl⟩ := List.mem_map.mp ht
      exact .element (hw e he) (.value (h e he) _)
    have hscan := scanNested_close (c := closeBracket) (by decide) hbody rest
    have htext : RawValue.text ⟨.array, arrayText spaces es⟩ ++ rest =
        openBracket :: (spaces ++ commas (es.map Element.text) ++ (closeBracket :: rest)) := by
      simp [RawValue.text, arrayText]
    rw [htext, scanValue, if_neg (by decide), if_pos (by decide), hscan]
    simp [arrayText]
  | @object spaces ms hs hw hn h =>
    have hbody := Passes.body 0 hs (ms.map Member.text) fun t ht => by
      obtain ⟨m, hm, rfl⟩ := List.mem_map.mp ht
      exact .member (hw m hm) (hn m hm) (.value (h m hm) _)
    have hscan := scanNested_close (c := closeBrace) (by decide) hbody rest
    have htext : RawValue.text ⟨.object, objectText spaces ms⟩ ++ rest =
        openBrace :: (spaces ++ commas (ms.map Member.text) ++ (closeBrace :: rest)) := by
      simp [RawValue.text, objectText]
    rw [htext, scanValue, if_neg (by decide), if_pos (by decide), hscan]
    simp [objectText, show openBrace ≠ openBracket by decide]

/-! ## Element after element -/

/-- Where `scanner` goes on: `ending` is the closing bracket, and what is behind it. -/
def Positioned (ending : Text) (texts : List Text) (b : Text) : Prop :=
  ∃ between, (∀ c ∈ between, (isSpace c || c == comma) = true) ∧ b = between ++ (commas texts ++ ending)

theorem Positioned.spaces {ending : Text} {texts : List Text} {s b : Text} (hs : Spaces s)
    (h : Positioned ending texts b) : Positioned ending texts (s ++ b) := by
  obtain ⟨between, hb, rfl⟩ := h
  refine ⟨s ++ between, fun c hc => ?_, by simp⟩
  rcases List.mem_append.mp hc with hc | hc
  · simp [hs c hc]
  · exact hb c hc

theorem Positioned.start {ending : Text} {s : Text} (hs : Spaces s) (texts : List Text) :
    Positioned ending texts (s ++ (commas texts ++ ending)) :=
  .spaces hs ⟨[], by simp, rfl⟩

theorem Ends.spaces {s rest : Text} (hs : Spaces s) (h : Ends rest) : Ends (s ++ rest) := by
  cases s with
  | nil => exact h
  | cons c s =>
    intro d hd
    simp only [List.cons_append, List.head?_cons, Option.mem_some_iff] at hd
    subst hd
    simp [isDelimiter, hs c List.mem_cons_self]

/-- The first text, and what is behind it. -/
theorem Positioned.split {ending : Text} (hend : Ends ending) {t : Text} {texts : List Text} {b : Text}
    (h : Positioned ending (t :: texts) b) :
    ∃ between rest, (∀ c ∈ between, (isSpace c || c == comma) = true) ∧ b = between ++ (t ++ rest) ∧
      Ends rest ∧ Positioned ending texts rest := by
  obtain ⟨between, hb, rfl⟩ := h
  cases texts with
  | nil => exact ⟨between, ending, hb, by simp, hend, [], by simp, by simp⟩
  | cons u texts =>
    refine ⟨between, comma :: (commas (u :: texts) ++ ending), hb,
      by simp, ?_, [comma], by simp, by simp⟩
    intro c hc
    simp only [List.head?_cons, Option.mem_some_iff] at hc
    exact hc ▸ by decide

/-- What is skipped ends at the first byte that is not. -/
theorem dropWhile_between {p : UInt8 → Bool} {between t : Text} (hb : ∀ c ∈ between, p c = true)
    {c : UInt8} (hc : p c = false) : (between ++ (c :: t)).dropWhile p = c :: t := by
  rw [List.dropWhile_append_of_pos hb, List.dropWhile_cons_of_neg (by simp [hc])]

theorem not_between {c : UInt8} (h : isDelimiter c = false) :
    (isSpace c || c == comma) = false ∧ (isSpace c || c == colon) = false ∧
      c ≠ closeBracket ∧ c ≠ closeBrace := by
  simp only [isDelimiter, Bool.or_eq_false_iff, beq_eq_false_iff_ne, ne_eq] at h
  simp [h]

/-- A scan of one part: it yields `value a`, and goes on behind it. -/
def Steps {α β : Type} (ending : Text) (valid : α → Prop) (text : α → Text) (value : α → β)
    (scan : Text → Option (β × Text)) : Prop :=
  (∀ a texts b, valid a → Positioned ending (text a :: texts) b →
    ∃ rest, scan b = some (value a, rest) ∧ Positioned ending texts rest ∧
      rest <:+ b ∧ rest.length < b.length) ∧
  ∀ b, Positioned ending [] b → scan b = none

theorem isDelimiter_of_closes {c : UInt8} (h : closes c = true) : isDelimiter c = true := by
  simp only [closes, Bool.or_eq_true, beq_iff_eq] at h
  rcases h with rfl | rfl <;> decide

theorem scan_done {close : UInt8} (hclose : closes close = true) {tail b : Text}
    (h : Positioned (close :: tail) [] b) : scanElement close b = none ∧ scanMember close b = none := by
  obtain ⟨between, hb, rfl⟩ := h
  have hc : (isSpace close || close == comma) = false := by
    simp only [closes, Bool.or_eq_true, beq_iff_eq] at hclose
    rcases hclose with rfl | rfl <;> decide
  have := dropWhile_between (t := tail) hb hc
  simp [scanElement, scanMember, this]

theorem scanElement_steps (close : UInt8) (hclose : closes close = true) (tail : Text) :
    Steps (close :: tail) Element.Valid Element.text Element.item (scanElement close) := by
  have hdelim := isDelimiter_of_closes hclose
  refine ⟨fun e texts b he h => ?_, fun b h => (scan_done hclose h).1⟩
  obtain ⟨⟨hbefore, hafter⟩, hvalue⟩ := he
  obtain ⟨between, rest, hb, rfl, hends, hrest⟩ := h.split (fun c hc => by simp_all)
  obtain ⟨c, t, hitem, hc⟩ := hvalue.head
  have hne := not_between hc
  have hcc : c ≠ close := by
    rintro rfl
    rw [hdelim] at hc
    cases hc
  have hdrop : (between ++ (e.text ++ rest)).dropWhile (fun c => isSpace c || c == comma) =
      e.item.text ++ (e.after ++ rest) := by
    have hskip : ∀ d ∈ between ++ e.before, (isSpace d || d == comma) = true := by
      intro d hd
      rcases List.mem_append.mp hd with hd | hd
      · exact hb d hd
      · simp [hbefore d hd]
    have := dropWhile_between (t := t ++ (e.after ++ rest)) hskip hne.1
    simpa [Element.text, hitem] using this
  refine ⟨e.after ++ rest, ?_, hrest.spaces hafter, ⟨between ++ (e.before ++ e.item.text), ?_⟩, ?_⟩
  · simp only [scanElement, hdrop]
    rw [if_neg (by simp [hitem, hcc]), scanValue_text hvalue (hends.spaces hafter)]
  · simp [Element.text]
  · simp [Element.text, hitem]
    omega

theorem scanMember_steps (close : UInt8) (hclose : closes close = true) (tail : Text) :
    Steps (close :: tail) Member.Valid Member.text (fun m => (m.name, m.value.item))
      (scanMember close) := by
  have hquote : close ≠ quote := by
    simp only [closes, Bool.or_eq_true, beq_iff_eq] at hclose
    rcases hclose with rfl | rfl <;> decide
  have hdelim := isDelimiter_of_closes hclose
  refine ⟨fun m texts b hm h => ?_, fun b h => (scan_done hclose h).2⟩
  obtain ⟨⟨hbefore, hbetween, hvbefore, hvafter⟩, hname, hvalue⟩ := hm
  obtain ⟨between, rest, hb, rfl, hends, hrest⟩ := h.split (fun c hc => by simp_all)
  obtain ⟨c, t, hitem, hc⟩ := hvalue.head
  have hne := not_between hc
  let value : Text := m.value.item.text ++ (m.value.after ++ rest)
  let named : Text := m.name ++ (quote :: (m.between ++ (colon :: (m.value.before ++ value))))
  have hdrop : (between ++ (m.text ++ rest)).dropWhile (fun c => isSpace c || c == comma) =
      quote :: named := by
    have hskip : ∀ d ∈ between ++ m.before, (isSpace d || d == comma) = true := by
      intro d hd
      rcases List.mem_append.mp hd with hd | hd
      · exact hb d hd
      · simp [hbefore d hd]
    have := dropWhile_between (t := named) hskip (c := quote) (by decide)
    simpa [Member.text, Element.text, named, value] using this
  have hcolon : (m.between ++ (colon :: (m.value.before ++ value))).dropWhile
      (fun c => isSpace c || c == colon) = value := by
    have hskip : ∀ d ∈ m.between ++ (colon :: m.value.before), (isSpace d || d == colon) = true := by
      intro d hd
      simp only [List.mem_append, List.mem_cons] at hd
      rcases hd with hd | rfl | hd
      · simp [hbetween d hd]
      · simp
      · simp [hvbefore d hd]
    have := dropWhile_between (t := t ++ (m.value.after ++ rest)) hskip hne.2.1
    simpa [value, hitem] using this
  refine ⟨m.value.after ++ rest, ?_, hrest.spaces hvafter,
    ⟨between ++ (m.before ++ (quote :: (m.name ++ (quote :: (m.between ++
      (colon :: (m.value.before ++ m.value.item.text))))))), ?_⟩, ?_⟩
  · simp only [scanMember, hdrop]
    rw [if_neg (by simp [Ne.symm hquote]), List.tail_cons, scanString_chars hname]
    simp only [hcolon]
    rw [scanValue_text hvalue (hends.spaces hvafter)]
  · simp [Member.text, Element.text]
  · simp [Member.text, Element.text, hitem]
    omega

theorem Steps.scanAll {α β : Type} {ending : Text} {valid : α → Prop} {text : α → Text} {value : α → β}
    {scan : Text → Option (β × Text)} (h : Steps ending valid text value scan) {parts : List α}
    (hv : ∀ a ∈ parts, valid a) {n : Nat} {b : Text} (hb : Positioned ending (parts.map text) b)
    (hn : b.length ≤ n) : scanAll scan n b = parts.map value := by
  induction parts generalizing n b with
  | nil =>
    cases n with
    | zero => rfl
    | succ n => simp [Json.scanAll, h.2 b hb]
  | cons a parts ih =>
    obtain ⟨rest, hscan, hrest, -, hlt⟩ := h.1 a _ b (hv a List.mem_cons_self) hb
    cases n with
    | zero => omega
    | succ n =>
      have := ih (n := n) (fun a' ha' => hv a' (List.mem_cons_of_mem a ha')) hrest (by omega)
      simp [Json.scanAll, hscan, this]

theorem Steps.extracts {α β γ : Type} {close : UInt8} {valid : α → Prop} {text : α → Text}
    {value : α → β} (report : β → γ) {scan : Text → Option (β × Text)}
    (h : Steps [close] valid text value scan) :
    Extracts valid text (fun a => report (value a)) close
      (fun b => (scan b).map fun r => (report r.1, b.length - r.2.length))
      (fun parts b => (∀ a ∈ parts, valid a) ∧ Positioned [close] (parts.map text) b) where
  start _ parts hs hv := ⟨hv, .start hs (parts.map text)⟩
  rest parts b hb := by
    obtain ⟨-, between, hbetween, rfl⟩ := hb
    exact .inr ⟨between, fun c hc => by simpa using hbetween c hc, rfl⟩
  next a parts b hb := by
    obtain ⟨hv, hb⟩ := hb
    obtain ⟨rest, hscan, hrest, ⟨front, rfl⟩, -⟩ := h.1 a _ b (hv a List.mem_cons_self) hb
    refine ⟨front.length, by simp, by simp [hscan], fun a' ha' => hv a' (List.mem_cons_of_mem a ha'), ?_⟩
    simpa using hrest
  done b hb _ := by simp [h.2 b hb.2]

/-- What is behind the first bracket of a document. -/
theorem inner_eq {before spaces after : Text} {o close : UInt8} (ho : isSpace o = false)
    (hb : Spaces before) (hs : Spaces spaces) (texts : List Text) {text : Text}
    (h : text = before ++ ((o :: (spaces ++ (commas texts ++ [close]))) ++ after)) :
    Positioned (close :: after) texts (inner text) ∧ (inner text).length ≤ text.length := by
  have hinner : inner text = spaces ++ (commas texts ++ (close :: after)) := by
    rw [h, inner, List.cons_append, dropWhile_between hb ho, List.tail_cons]
    simp
  refine ⟨hinner ▸ .start hs texts, ?_⟩
  rw [hinner, h]
  simp
  omega

/-- **The assumptions hold** of this parser. -/
theorem scanner_parses : scanner.Parses where
  object text ms h _ := by
    obtain ⟨hv, before, spaces, after, hb, hs, -, htext⟩ := h
    obtain ⟨hpos, hlen⟩ := inner_eq (o := openBrace) (by decide) hb hs _ htext
    have := (scanMember_steps closeBrace (by decide) after).scanAll hv hpos hlen
    simp only [scanner, this, List.map_map]
    exact .refl _
  array text es h := by
    obtain ⟨hv, before, spaces, after, hb, hs, -, htext⟩ := h
    obtain ⟨hpos, hlen⟩ := inner_eq (o := openBracket) (by decide) hb hs _ htext
    have := (scanElement_steps closeBracket (by decide) after).scanAll hv hpos hlen
    simp only [scanner, this, List.map_map]
    rfl
  elements := ⟨_, Steps.extracts reportValue (scanElement_steps closeBracket (by decide) [])⟩
  members := ⟨_, Steps.extracts reportNamed (scanMember_steps closeBrace (by decide) [])⟩

end QtProtobuf.Json
