import QtProtobuf.L2Json.Scanner
import Mathlib.Algebra.Order.BigOperators.Group.List
import Mathlib.Algebra.Ring.Int.Defs

/-!
# What a JSON text cannot have too much of

Outside of its strings a JSON text has as many closing braces as opening ones,
no `i`, and as many `a`s as `f`s, those of `false`. `surplus` weighs bytes so
that a closing brace without an opening one, `nan` and `inf` all count one.

* `IsValue.weighs`, `IsObject.weighs`: a JSON text has no surplus.
-/
namespace QtProtobuf.Json

open Lib.Json

def byteSurplus (c : UInt8) : Int :=
  if c = 0x69 then 2
  else if c = 0x61 ∨ c = closeBrace then 1
  else if c = 0x66 ∨ c = openBrace then -1
  else 0

/-- The bytes outside of strings, weighed. -/
def surplus : Inside → Text → Int
  | _, [] => 0
  | .outside, c :: t =>
    if c = quote then surplus .string t else byteSurplus c + surplus .outside t
  | s, c :: t => surplus (s.next c) t

/-- `t` has all of each string it has a part of, and weighs `k`. -/
def Weighs (k : Int) (t : Text) : Prop :=
  ∀ rest, surplus .outside (t ++ rest) = k + surplus .outside rest

/-! ## Sums -/

theorem Weighs.nil : Weighs 0 [] := fun rest => by simp

theorem Weighs.append {j k : Int} {s t : Text} (hs : Weighs j s) (ht : Weighs k t) :
    Weighs (j + k) (s ++ t) := by
  intro rest
  rw [List.append_assoc, hs, ht]
  omega

theorem Weighs.unique {j k : Int} {t : Text} (hj : Weighs j t) (hk : Weighs k t) : j = k := by
  have h₁ := hj []
  have h₂ := hk []
  omega

theorem Weighs.byte {c : UInt8} (h : c ≠ quote) : Weighs (byteSurplus c) [c] := by
  intro rest
  rw [List.singleton_append, surplus, if_neg h]

theorem Weighs.byte_zero {c : UInt8} (hq : c ≠ quote) (hc : byteSurplus c = 0) : Weighs 0 [c] :=
  hc ▸ .byte hq

theorem Weighs.light {t : Text} (h : ∀ c ∈ t, c ≠ quote ∧ byteSurplus c = 0) : Weighs 0 t := by
  induction t with
  | nil => exact .nil
  | cons c t ih =>
    obtain ⟨hq, hc⟩ := h c List.mem_cons_self
    have := (Weighs.byte hq).append (ih fun d hd => h d (List.mem_cons_of_mem c hd))
    simpa [hc] using this

theorem Weighs.quoted {t : Text} (h : Chars t) : Weighs 0 (quote :: (t ++ [quote])) := by
  intro rest
  have hstep : ∀ s c (t' : Text), s ≠ .outside → (s = .string → c ≠ quote) →
      surplus s (c :: t') = surplus (s.next c) t' := by
    intro s c t' hs _
    cases s with
    | outside => exact absurd rfl hs
    | _ => rfl
  have hchars := Chars.scan (fun _ x => x) surplus hstep h (quote :: rest)
  have hid : ∀ (t : Text) (x : Int), t.foldr (fun _ x => x) x = x := fun t x => by
    induction t with
    | nil => rfl
    | cons c t ih => exact ih
  have hclose : surplus .string (quote :: rest) = surplus .outside rest := rfl
  show surplus .string ((t ++ [quote]) ++ rest) = _
  rw [List.append_assoc, List.singleton_append, hchars, hid, hclose]
  omega

/-- Texts with commas between them. -/
theorem Weighs.commas (parts : List (Int × Text)) (h : ∀ p ∈ parts, Weighs p.1 p.2) :
    Weighs (parts.map Prod.fst).sum (commas (parts.map Prod.snd)) := by
  induction parts with
  | nil => exact .nil
  | cons p parts ih =>
    have hp := h p List.mem_cons_self
    have hparts := ih fun q hq => h q (List.mem_cons_of_mem p hq)
    cases parts with
    | nil => simpa using hp
    | cons q parts =>
      have hcomma : Weighs 0 [comma] := .byte_zero (by decide) (by decide)
      have := hp.append (hcomma.append hparts)
      simpa using this

theorem Weighs.commas_zero {texts : List Text} (h : ∀ t ∈ texts, Weighs 0 t) :
    Weighs 0 (Lib.Json.commas texts) := by
  have hzero : (texts.map fun _ => (0 : Int)).sum = 0 := by
    clear h
    induction texts with
    | nil => rfl
    | cons t texts ih => rw [List.map_cons, List.sum_cons, ih, Int.add_zero]
  have := Weighs.commas (texts.map fun t => (0, t)) (by simpa using h)
  simpa [Function.comp_def, hzero] using this

/-! ## JSON texts -/

theorem byteSurplus_of_isSpace {c : UInt8} (h : isSpace c = true) : c ≠ quote ∧ byteSurplus c = 0 := by
  simp only [isSpace, Bool.or_eq_true, beq_iff_eq] at h
  rcases h with ((rfl | rfl) | rfl) | rfl <;> decide

theorem byteSurplus_of_isNumberChar {c : UInt8} (h : isNumberChar c = true) :
    c ≠ quote ∧ byteSurplus c = 0 := by
  have hne : ∀ d, isNumberChar d = false → c ≠ d := by
    rintro d hd rfl
    rw [h] at hd
    cases hd
  refine ⟨hne _ (by decide), ?_⟩
  simp [byteSurplus, hne 0x69 (by decide), hne 0x61 (by decide), hne closeBrace (by decide),
    hne 0x66 (by decide), hne openBrace (by decide)]

theorem Weighs.spaces {t : Text} (h : Spaces t) : Weighs 0 t :=
  .light fun c hc => byteSurplus_of_isSpace (h c hc)

theorem Weighs.number {t : Text} (h : Number t) : Weighs 0 t :=
  .light fun c hc => byteSurplus_of_isNumberChar (h.chars.1 c hc)

theorem Weighs.brackets {k : Int} {t : Text} (h : Weighs k t) :
    Weighs k (openBracket :: (t ++ [closeBracket])) := by
  have ho : Weighs 0 [openBracket] := .byte_zero (by decide) (by decide)
  have hc : Weighs 0 [closeBracket] := .byte_zero (by decide) (by decide)
  have := ho.append (h.append hc)
  simpa using this

theorem Weighs.braces {k : Int} {t : Text} (h : Weighs k t) :
    Weighs k (openBrace :: (t ++ [closeBrace])) := by
  have ho : Weighs (-1) [openBrace] := Weighs.byte (by decide)
  have hc : Weighs 1 [closeBrace] := Weighs.byte (by decide)
  have := ho.append (h.append hc)
  rwa [show -1 + (k + 1) = k by omega] at this

theorem Weighs.memberText {k : Int} {name value : Text} (hn : Chars name) (h : Weighs k value) :
    Weighs k (memberText name value) := by
  have hcolon : Weighs 0 [colon] := .byte_zero (by decide) (by decide)
  have := (Weighs.quoted hn).append (hcolon.append h)
  simpa [Lib.Json.memberText] using this

theorem Weighs.word {t : Text} (hq : t.all (· != quote) = true) :
    Weighs (t.map byteSurplus).sum t := by
  induction t with
  | nil => exact .nil
  | cons c t ih =>
    simp only [List.all_cons, Bool.and_eq_true, bne_iff_ne, ne_eq] at hq
    have := (Weighs.byte hq.1).append (ih hq.2)
    simpa using this

theorem Weighs.bool (b : Bool) : Weighs 0 (RawValue.bool b).text := by
  cases b with
  | true => exact .word (t := (RawValue.bool true).text) (by decide)
  | false => exact .word (t := (RawValue.bool false).text) (by decide)

theorem Weighs.element {e : Element} (hw : e.Spaced) (h : Weighs 0 e.item.text) : Weighs 0 e.text := by
  have := (Weighs.spaces hw.1).append (h.append (Weighs.spaces hw.2))
  simpa [Element.text] using this

theorem Weighs.member {m : Member} (hw : m.Spaced) (hn : Chars m.name)
    (h : Weighs 0 m.value.item.text) : Weighs 0 m.text := by
  obtain ⟨hbefore, hbetween, hvalue⟩ := hw
  have hcolon : Weighs 0 [colon] := .byte_zero (by decide) (by decide)
  have := (Weighs.spaces hbefore).append ((Weighs.quoted hn).append
    ((Weighs.spaces hbetween).append (hcolon.append (Weighs.element hvalue h))))
  simpa [Member.text] using this

theorem IsValue.weighs {i : RawValue} (h : IsValue i) : Weighs 0 i.text := by
  induction h with
  | null => exact .word (t := RawValue.null.text) (by decide)
  | bool b => exact .bool b
  | number h => exact .number h
  | string h => exact .quoted h
  | @array spaces es hs hw _ ih =>
    have hes : ∀ t ∈ es.map Element.text, Weighs 0 t := fun t ht => by
      obtain ⟨e, he, rfl⟩ := List.mem_map.mp ht
      exact .element (hw e he) (ih e he)
    have := Weighs.brackets ((Weighs.spaces hs).append (.commas_zero hes))
    simpa [RawValue.text, arrayText] using this
  | @object spaces ms hs hw hn _ ih =>
    have hms : ∀ t ∈ ms.map Member.text, Weighs 0 t := fun t ht => by
      obtain ⟨m, hm, rfl⟩ := List.mem_map.mp ht
      exact .member (hw m hm) (hn m hm) (ih m hm)
    have := Weighs.braces ((Weighs.spaces hs).append (.commas_zero hms))
    simpa [RawValue.text, objectText] using this

theorem IsObject.weighs {text : Text} {ms : List Member} (h : IsObject text ms) : Weighs 0 text := by
  obtain ⟨hv, before, spaces, after, hb, hs, ha, rfl⟩ := h
  have hobject := IsValue.weighs (.object hs (fun m hm => (hv m hm).1) (fun m hm => (hv m hm).2.1)
    fun m hm => (hv m hm).2.2)
  have := (Weighs.spaces hb).append (hobject.append (Weighs.spaces ha))
  simpa [RawValue.text] using this

end QtProtobuf.Json
