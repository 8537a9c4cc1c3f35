import QtProtobuf.L5Generator.Utils
import Mathlib.Data.List.Infix

/-!
# Comments of proto files in the headers (`generator/baseprinter.h`)

With `COMMENTS` the generator prints the comment that stands before a message or a
field as a block comment. In a comment of several lines ` *` is put before each line,
which makes `*/` of a line that begins with a slash: so do the lines of a `///`
comment, of which protoc takes two slashes away.

* `commentEnd_iff`: where a block comment ends.
* `endMark_infix_expand`: what the new line beginnings do.
* `printComments_iff`: when the printed text is one comment, so that the code behind
  it is left as it is.
-/
namespace QtProtobuf.Generator

/-! ## The printer -/

namespace utils

/-- `" \t\n\r\f\v"` -/
def isSpace (c : Char) : Bool := " \t\n\r\x0c\x0b".toList.contains c

/-- mirrors src/generator/utils.h:113-130 -/
def trim (s : Str) : Str := (s.rdropWhile isSpace).dropWhile isSpace

end utils

namespace BasePrinter

/-- With a blank, or a line of its own, in front.
mirrors src/generator/baseprinter.h:76-81 -/
def spaced (text : Str) : Str :=
  if text.head?.any fun c => c != '!' && c != '*' && c != ' ' then
    if '\n' ∈ text then '\n' :: ' ' :: text else ' ' :: text
  else text

variable (Print : Str → Str)

/-- With what `Print` writes for a text; the indent is left out.
mirrors src/generator/baseprinter.h:63-95 -/
def printComments (generateComments : Bool) (leading_comments : Str) : Str :=
  let text := utils.trim leading_comments
  if !generateComments || text.isEmpty then []
  else if '\n' ∈ text then
    let text := utils.replace (spaced text) "\n".toList "\n *".toList
    "\n/*".toList ++ Print text ++ (if text.getLast? = some '\n' then [] else ['\n']) ++ " */".toList
  else
    "\n/*".toList ++ Print (spaced text) ++ " */".toList

end BasePrinter

/-! ## The reader -/

/-- Behind the first `*/`. -/
def commentEnd : Str → Option Str
  | [] => none
  | '*' :: '/' :: text => some text
  | _ :: text => commentEnd text

/-- Behind white space and one block comment. -/
def skipComment (text : Str) : Option Str :=
  match text.dropWhile utils.isSpace with
  | '/' :: '*' :: text => commentEnd text
  | _ => none

def endMark : Str := ['*', '/']

theorem endMark_infix_cons {c : Char} {s : Str} :
    endMark <:+: c :: s ↔ c = '*' ∧ s.head? = some '/' ∨ endMark <:+: s := by
  rw [List.infix_cons_iff]
  refine or_congr_left ?_
  cases s with
  | nil => simp [endMark]
  | cons d s => simp [endMark, eq_comm]

theorem commentEnd_cons {c : Char} {text : Str} (h : ¬ (c = '*' ∧ text.head? = some '/')) :
    commentEnd (c :: text) = commentEnd text := by
  rw [commentEnd]
  rintro text' rfl rfl
  exact h ⟨rfl, rfl⟩

/-- The body ends at the mark behind it exactly if it has none itself. -/
theorem commentEnd_iff {body blanks : Str} (hne : blanks ≠ []) (hb : ∀ c ∈ blanks, c ≠ '*' ∧ c ≠ '/')
    (code : Str) : commentEnd (body ++ (blanks ++ '*' :: '/' :: code)) = some code ↔ ¬ endMark <:+: body := by
  induction body with
  | nil =>
    have hskip : ∀ blanks : Str, (∀ c ∈ blanks, c ≠ '*' ∧ c ≠ '/') →
        commentEnd (blanks ++ '*' :: '/' :: code) = some code := by
      intro blanks hb
      induction blanks with
      | nil => rfl
      | cons c blanks ih =>
        rw [List.cons_append, commentEnd_cons fun h => (hb c List.mem_cons_self).1 h.1]
        exact ih fun d hd => hb d (List.mem_cons_of_mem c hd)
    exact iff_of_true (hskip blanks hb) (by simp [endMark])
  | cons c body ih =>
    obtain ⟨b, blanks, rfl⟩ := List.exists_cons_of_ne_nil hne
    have hhead : (body ++ (b :: blanks ++ '*' :: '/' :: code)).head? = some '/' ↔ body.head? = some '/' := by
      cases body with
      | nil => simp [(hb b List.mem_cons_self).2]
      | cons d body => simp
    rw [endMark_infix_cons, not_or, ← ih, List.cons_append]
    by_cases hmark : c = '*' ∧ body.head? = some '/'
    · obtain ⟨rfl, hslash⟩ := hmark
      obtain ⟨body, rfl⟩ := List.head?_eq_some_iff.mp hslash
      refine iff_of_false (fun h => ?_) fun h => h.1 ⟨rfl, rfl⟩
      have hrest : some (body ++ (b :: blanks ++ '*' :: '/' :: code)) = some code := h
      have hlength := congrArg List.length (Option.some.inj hrest)
      simp only [List.length_append, List.length_cons] at hlength
      omega
    · rw [commentEnd_cons (by rwa [hhead])]
      simp [hmark]

/-! ## New lines -/

/-- `utils.replace` of the line breaks. -/
def expand (text : Str) : Str := text.flatMap fun c => if c = '\n' then "\n *".toList else [c]

theorem replace_newline (text : Str) : utils.replace text "\n".toList "\n *".toList = expand text := by
  induction text with
  | nil => simp [utils.replace, expand]
  | cons c text ih =>
    have hstep : utils.replace (c :: text) "\n".toList "\n *".toList =
        if c = '\n' then "\n *".toList ++ utils.replace text "\n".toList "\n *".toList
        else c :: utils.replace text "\n".toList "\n *".toList := by
      rw [utils.replace]
      by_cases hc : c = '\n'
      · simp [hc]
      · simp [hc, Ne.symm hc]
    rw [hstep, ih, expand, expand, List.flatMap_cons]
    split <;> rfl

theorem head?_expand (text : Str) : (expand text).head? = text.head? := by
  cases text with
  | nil => rfl
  | cons c text =>
    rw [expand, List.flatMap_cons]
    by_cases hc : c = '\n'
    · simp [hc]
    · simp [hc]

def lineSlash : Str := ['\n', '/']

theorem lineSlash_infix_cons {c : Char} {s : Str} :
    lineSlash <:+: c :: s ↔ c = '\n' ∧ s.head? = some '/' ∨ lineSlash <:+: s := by
  rw [List.infix_cons_iff]
  refine or_congr_left ?_
  cases s with
  | nil => simp [lineSlash]
  | cons d s => simp [lineSlash, eq_comm]

/-- A mark in the longer text was there, or comes from a line that begins with a slash. -/
theorem endMark_infix_expand (text : Str) :
    endMark <:+: expand text ↔ endMark <:+: text ∨ lineSlash <:+: text := by
  induction text with
  | nil => simp [expand, endMark, lineSlash]
  | cons c text ih =>
    rw [endMark_infix_cons, lineSlash_infix_cons]
    by_cases hc : c = '\n'
    · have hexpand : expand (c :: text) = '\n' :: ' ' :: '*' :: expand text := by
        simp [expand, hc]
      rw [hexpand, endMark_infix_cons, endMark_infix_cons, endMark_infix_cons, head?_expand, ih]
      simp only [hc, Char.reduceEq, false_and, true_and, false_or]
      tauto
    · have hexpand : expand (c :: text) = c :: expand text := by
        simp [expand, hc]
      rw [hexpand, endMark_infix_cons, head?_expand, ih]
      tauto

namespace BasePrinter

/-- What stands in front adds nothing. -/
theorem spaced_spec (text : Str) : ('$' ∈ spaced text ↔ '$' ∈ text) ∧
    (endMark <:+: spaced text ↔ endMark <:+: text) ∧ (lineSlash <:+: spaced text ↔ lineSlash <:+: text) := by
  unfold spaced
  split
  · split <;> simp [endMark_infix_cons, lineSlash_infix_cons]
  · exact ⟨Iff.rfl, Iff.rfl, Iff.rfl⟩

theorem dollar_mem_expand (text : Str) : '$' ∈ expand text ↔ '$' ∈ text := by
  simp only [expand, List.mem_flatMap]
  constructor
  · rintro ⟨c, hc, hmem⟩
    split at hmem
    · exact absurd hmem (by decide)
    · rwa [List.mem_singleton.mp hmem]
  · exact fun h => ⟨'$', h, by decide⟩

end BasePrinter

theorem skipComment_iff (body blanks : Str) (hne : blanks ≠ []) (hb : ∀ c ∈ blanks, c ≠ '*' ∧ c ≠ '/') :
    (∀ code, skipComment ('\n' :: '/' :: '*' :: (body ++ (blanks ++ '*' :: '/' :: code))) = some code) ↔
      ¬ endMark <:+: body :=
  ⟨fun h => (commentEnd_iff hne hb []).mp (h []), fun h code => (commentEnd_iff hne hb code).mpr h⟩

/-- **Comments.** The text printed for a comment is one block comment, whatever is behind
it, exactly if the comment has no `*/`, and no line of it but the first begins with a
slash. A text without `$` names no variables, and is printed as it stands. -/
theorem printComments_iff (Print : Str → Str) (hprint : ∀ text, '$' ∉ text → Print text = text) {comment : Str}
    (hne : utils.trim comment ≠ []) (hdollar : '$' ∉ utils.trim comment) :
    (∀ code, skipComment (BasePrinter.printComments Print true comment ++ code) = some code) ↔
      ¬ endMark <:+: utils.trim comment ∧ ¬ lineSlash <:+: utils.trim comment := by
  obtain ⟨hspaced, hmark, hslash⟩ := BasePrinter.spaced_spec (utils.trim comment)
  rw [← hspaced] at hdollar
  have hempty : (!true || (utils.trim comment).isEmpty) = false := by
    simpa [List.isEmpty_eq_false_iff] using hne
  unfold BasePrinter.printComments
  dsimp only
  rw [hempty, if_neg Bool.false_ne_true]
  by_cases hlines : '\n' ∈ utils.trim comment
  · -- the mark may come from the beginnings of the lines
    rw [if_pos hlines, replace_newline, hprint _ ((BasePrinter.dollar_mem_expand _).not.mpr hdollar),
      ← hmark, ← hslash, ← not_or, ← endMark_infix_expand]
    split
    · rw [← skipComment_iff _ [' '] (List.cons_ne_nil _ _) (by simp)]
      simp
    · rw [← skipComment_iff _ ['\n', ' '] (List.cons_ne_nil _ _) (by simp)]
      simp
  · have hone : ¬ lineSlash <:+: utils.trim comment := fun h => hlines (h.subset (by decide))
    rw [if_neg hlines, hprint _ hdollar, and_iff_left hone, ← hmark,
      ← skipComment_iff _ [' '] (List.cons_ne_nil _ _) (by simp)]
    simp

/-- Two lines of a comment with `//`. -/
theorem printComments_two_lines : skipComment
    (BasePrinter.printComments id true " first\n second\n".toList ++ "class Message;".toList) =
      some "class Message;".toList :=
  (printComments_iff id (fun _ _ => rfl) (by decide) (by decide)).mpr (by decide) _

/-- With `///`, what is behind the first line is code. -/
example : skipComment (BasePrinter.printComments id true "/ first\n/ second\n".toList) =
    some " second\n */".toList := by
  have hlines : '\n' ∈ utils.trim "/ first\n/ second\n".toList := by decide
  unfold BasePrinter.printComments
  dsimp only
  rw [if_neg (by decide), if_pos hlines, replace_newline]
  decide

end QtProtobuf.Generator
