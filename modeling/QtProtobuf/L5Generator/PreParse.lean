import QtProtobuf.L5Generator.Utils
import Mathlib.Data.Int.Order.Basic

/-!
# The pre-parser of proto files (`cmake/QtPreParseProtoFile.cmake`)

CMake learns from this script, before the generator has ever run, which files it
will write: line by line, by the first word of a line and by its braces.

* `matchKey_iff`, `keyOf_iff`: which lines the patterns match, and the name they capture.
* `Lays`: the layouts of a proto file, at most one brace of a kind in a line, and no
  line of a comment or a service that looks like a declaration.
* `items_lines`: the list that CMake makes of a text has its lines.
* `scan_lays`: the script finds what the layout declares, whatever is nested.
-/
namespace QtProtobuf.Generator.PreParse

open Lib

/-! ## The patterns -/

/-- `[\t ]` -/
def isBlank (c : Char) : Bool := c == '\t' || c == ' '

inductive Key where
  | package | message | service | enum
  deriving DecidableEq, Repr

namespace Key

def text : Key → Str
  | package => "package".toList
  | message => "message".toList
  | service => "service".toList
  | enum => "enum".toList

/-- What a name is made of. -/
def isNameChar (k : Key) (c : Char) : Bool :=
  c.isAlphanum || c == '_' || (k == package && (c == '.' || c == '-'))

end Key

/-- `item MATCHES "^[\t ]*key[\t ]+([…]+)"`: what is captured.
mirrors cmake/QtPreParseProtoFile.cmake:21-39 -/
def matchKey (k : Key) (item : Str) : Option Str :=
  let rest := item.dropWhile isBlank
  if k.text <+: rest then
    let rest := rest.drop k.text.length
    let name := (rest.dropWhile isBlank).takeWhile k.isNameChar
    if rest.head?.any isBlank ∧ name ≠ [] then some name else none
  else none

/-- The branches of the script, in their order. -/
def keyOf (item : Str) : Option (Key × Str) :=
  [Key.package, .message, .service, .enum].findSome? fun k => (matchKey k item).map (k, ·)

/-! ## The scan -/

/-- The variables of the script. -/
structure Scan where
  protoPackage : Str := []
  protoMessages : List Str := []
  protoServices : List Str := []
  protoEnums : List Str := []
  unclosedBraces : Int := 0
  inMessageScope : Bool := false
  deriving DecidableEq, Repr

namespace Scan

/-- mirrors cmake/QtPreParseProtoFile.cmake:26-40 -/
def read (s : Scan) (item : Str) : Scan :=
  match keyOf item with
  | some (.package, name) => { s with protoPackage := name }
  | some (.message, name) =>
    if s.unclosedBraces = 0 then
      { s with protoMessages := s.protoMessages ++ [name], inMessageScope := true }
    else s
  | some (.service, name) => { s with protoServices := s.protoServices ++ [name] }
  | some (.enum, name) => { s with protoEnums := s.protoEnums ++ [name] }
  | none => s

/-- `[^/]*\{` matches wherever there is a brace, also in a comment.
mirrors cmake/QtPreParseProtoFile.cmake:41-51 -/
def count (s : Scan) (item : Str) : Scan :=
  if s.inMessageScope then
    let opened := if '{' ∈ item then s.unclosedBraces + 1 else s.unclosedBraces
    if '}' ∈ item then
      { s with unclosedBraces := opened - 1, inMessageScope := opened - 1 != 0 }
    else { s with unclosedBraces := opened }
  else s

/-- mirrors cmake/QtPreParseProtoFile.cmake:25-52 (a round of the loop) -/
def step (s : Scan) (item : Str) : Scan := (s.read item).count item

end Scan

def consFirst (c : Char) : List Str → List Str
  | [] => [[c]]
  | item :: items => (c :: item) :: items

def bracket (c : Char) : Int := if c = '[' then 1 else if c = ']' then -1 else 0

/-- The elements of the list: a line break does not separate two of them inside of
square brackets or behind a backslash. That semicolons have backslashes is left out.
mirrors cmake/QtPreParseProtoFile.cmake:18-25 -/
def items : Int → Bool → Str → List Str
  | _, _, [] => [[]]
  | nesting, escaped, c :: text =>
    if c = '\n' then
      if nesting = 0 ∧ escaped = false then [] :: items 0 false text
      else consFirst ';' (items nesting false text)
    else consFirst c (items (nesting + bracket c) (c == '\\') text)

def scan (text : Str) : Scan := (items 0 false text).foldl Scan.step {}

/-! ## The files -/

/-- The constants that `if(<variable>)` takes for false, in any letter case. -/
def falseConstants : List Str :=
  ["", "0", "OFF", "NO", "FALSE", "N", "IGNORE", "NOTFOUND"].map String.toList

def isOff (value : Str) : Bool :=
  falseConstants.contains (value.map Char.toUpper) || "-NOTFOUND".toList.isSuffixOf value

/-- `if(<variable>)` for a list. -/
def isTrue (names : List Str) : Bool := !isOff ([';'].intercalate names)

/-- `get_filename_component(… NAME_WLE)` -/
def nameWLE (path : Str) : Str :=
  let name := path.rtakeWhile (· != '/')
  if '.' ∈ name then utils.removeFileSuffix name else name

def packageFullPath (protoPackage : Str) : Str := protoPackage.map fun c => if c = '.' then '/' else c

/-- mirrors cmake/QtPreParseProtoFile.cmake:54-96 -/
def outputFiles (multi folder : Bool) (protoFile : Str) (s : Scan) : List Str :=
  let packageFullPath := packageFullPath s.protoPackage
  if multi then
    (s.protoMessages.flatMap fun item =>
      [packageFullPath ++ '/' :: (utils.tolower item ++ ".h".toList),
        packageFullPath ++ '/' :: (utils.tolower item ++ ".cpp".toList)]) ++
    s.protoServices.flatMap fun item =>
      [packageFullPath ++ '/' :: (utils.tolower item ++ "client.h".toList),
        packageFullPath ++ '/' :: (utils.tolower item ++ "client.cpp".toList)]
  else
    let basename := nameWLE protoFile
    let folderPath := if folder then packageFullPath ++ ['/'] else []
    (if isTrue s.protoMessages || isTrue s.protoEnums then
      [folderPath ++ (basename ++ ".qpb.h".toList), folderPath ++ (basename ++ ".qpb.cpp".toList)]
    else []) ++
    if isTrue s.protoServices then
      [folderPath ++ (basename ++ "_grpc.qpb.h".toList), folderPath ++ (basename ++ "_grpc.qpb.cpp".toList)]
    else []

/-! ## False constants -/

/-- A list of one name, which is taken for false. -/
def OneOff (names : List Str) : Prop := ∃ name, names = [name] ∧ isOff name = true

theorem mem_intercalate {sep : Char} {c : Char} {names : List Str} (h : c ∈ [sep].intercalate names) :
    c = sep ∨ ∃ name ∈ names, c ∈ name := by
  induction names with
  | nil => cases h
  | cons name names ih =>
    cases names with
    | nil =>
      rw [List.intercalate_singleton] at h
      exact .inr ⟨name, List.mem_cons_self, h⟩
    | cons name' names =>
      rw [List.intercalate_cons_cons, List.append_assoc, List.mem_append, List.singleton_append,
        List.mem_cons] at h
      rcases h with h | rfl | h
      · exact .inr ⟨name, List.mem_cons_self, h⟩
      · exact .inl rfl
      · exact (ih h).imp_right fun ⟨n, hn, hc⟩ => ⟨n, List.mem_cons_of_mem name hn, hc⟩

/-- No list of several names is a false constant. -/
theorem isOff_list {value : Str} (hsep : ';' ∈ value) (hdash : '-' ∉ value) : isOff value = false := by
  unfold isOff
  rw [Bool.or_eq_false_iff]
  constructor
  · rw [Bool.eq_false_iff, Ne, List.contains_iff_mem]
    intro h
    have hupper : ';' ∈ value.map Char.toUpper := List.mem_map.mpr ⟨';', hsep, by decide⟩
    have hconstants : ∀ s ∈ falseConstants, ';' ∉ s := by decide
    exact hconstants _ h hupper
  · rw [Bool.eq_false_iff, Ne, List.isSuffixOf_iff_suffix]
    intro h
    exact hdash (h.subset (by decide))

theorem isTrue_iff {names : List Str} (h : ∀ name ∈ names, IsIdentifier name) :
    isTrue names = true ↔ names ≠ [] ∧ ¬ OneOff names := by
  have hdash : '-' ∉ [';'].intercalate names := by
    intro hmem
    rcases mem_intercalate hmem with hc | ⟨name, hname, hc⟩
    · exact absurd hc (by decide)
    · exact ((h name hname).isWord (by decide)).2 hc
  unfold isTrue
  rw [Bool.not_eq_true']
  match names, hdash with
  | [], _ => exact ⟨fun h => absurd h (by decide), fun h => absurd rfl h.1⟩
  | [name], _ =>
    rw [List.intercalate_singleton]
    constructor
    · rintro hoff
      refine ⟨List.cons_ne_nil _ _, fun ⟨name', he, hon⟩ => ?_⟩
      cases he
      exact absurd (hoff.symm.trans hon) (by decide)
    · rintro ⟨-, hno⟩
      exact Bool.eq_false_iff.mpr fun hon => hno ⟨name, rfl, hon⟩
  | name :: name' :: rest, hdash =>
    have hsep : ';' ∈ [';'].intercalate (name :: name' :: rest) := by
      rw [List.intercalate_cons_cons]
      simp
    refine ⟨fun _ => ⟨List.cons_ne_nil _ _, fun ⟨n, he, _⟩ => by cases he⟩, fun _ => isOff_list hsep hdash⟩

/-! ## Which lines match -/

/-- The line begins with the key, blanks and the name. -/
def Declares (k : Key) (name line : Str) : Prop :=
  ∃ before between after, (∀ c ∈ before, isBlank c = true) ∧ (∀ c ∈ between, isBlank c = true) ∧
    between ≠ [] ∧ name ≠ [] ∧ (∀ c ∈ name, k.isNameChar c = true) ∧
    (∀ c ∈ after.head?, k.isNameChar c = false) ∧ line = before ++ (k.text ++ (between ++ (name ++ after)))

theorem Key.text_head (k : Key) : ∃ c t, k.text = c :: t ∧ isBlank c = false := by
  cases k <;> exact ⟨_, _, rfl, by decide⟩

theorem Key.text_blank (k : Key) : ∀ c ∈ k.text, isBlank c = false := by
  have hall : (k.text.all fun c => !isBlank c) = true := by cases k <;> decide
  intro c hc
  simpa using List.all_eq_true.mp hall c hc

theorem Key.not_isBlank {k : Key} {c : Char} (h : k.isNameChar c = true) : isBlank c = false := by
  by_contra hb
  simp only [isBlank, Bool.or_eq_false_iff, beq_eq_false_iff_ne, not_and_or, not_not] at hb
  rcases hb with rfl | rfl
  · cases k <;> exact absurd h (by decide)
  · cases k <;> exact absurd h (by decide)

theorem dropWhile_append_stop {p : Char → Bool} {before rest : Str} (hb : ∀ c ∈ before, p c = true)
    (hr : ∀ c ∈ rest.head?, p c = false) : (before ++ rest).dropWhile p = rest := by
  rw [List.dropWhile_append_of_pos hb]
  cases rest with
  | nil => rfl
  | cons c rest => rw [List.dropWhile_cons_of_neg (by simp [hr c rfl])]

theorem takeWhile_append_stop {p : Char → Bool} {name rest : Str} (hn : ∀ c ∈ name, p c = true)
    (hr : ∀ c ∈ rest.head?, p c = false) : (name ++ rest).takeWhile p = name := by
  rw [List.takeWhile_append_of_pos hn]
  cases rest with
  | nil => simp
  | cons c rest => rw [List.takeWhile_cons_of_neg (by simp [hr c rfl]), List.append_nil]

theorem matchKey_iff {k : Key} {name line : Str} : matchKey k line = some name ↔ Declares k name line := by
  constructor
  · intro h
    unfold matchKey at h
    dsimp only at h
    split at h
    · next hprefix =>
      obtain ⟨rest, hrest⟩ := hprefix
      rw [← hrest, List.drop_left] at h
      split at h
      · next hcond =>
        obtain ⟨hblank, hne⟩ := hcond
        cases h
        refine ⟨line.takeWhile isBlank, rest.takeWhile isBlank,
          (rest.dropWhile isBlank).dropWhile k.isNameChar, fun c hc => List.mem_takeWhile_imp hc,
          fun c hc => List.mem_takeWhile_imp hc, ?_, hne, fun c hc => List.mem_takeWhile_imp hc,
          fun c hc => ?_, ?_⟩
        · cases rest with
          | nil => cases hblank
          | cons c rest =>
            have hc : isBlank c = true := hblank
            rw [List.takeWhile_cons_of_pos hc]
            exact List.cons_ne_nil _ _
        · have hhead := List.head?_dropWhile_not k.isNameChar (rest.dropWhile isBlank)
          rw [Option.mem_def.mp hc] at hhead
          simpa using hhead
        · rw [List.takeWhile_append_dropWhile, List.takeWhile_append_dropWhile, hrest,
            List.takeWhile_append_dropWhile]
      · cases h
    · cases h
  · rintro ⟨before, between, after, hbefore, hbetween, hne, hname, hchars, hafter, rfl⟩
    obtain ⟨c, t, htext, hc⟩ := k.text_head
    have hstart : ∀ d ∈ (k.text ++ (between ++ (name ++ after))).head?, isBlank d = false := by
      intro d hd
      rw [htext] at hd
      cases hd
      exact hc
    have hmiddle : ∀ d ∈ (name ++ after).head?, isBlank d = false := by
      intro d hd
      obtain ⟨e, name, rfl⟩ := List.exists_cons_of_ne_nil hname
      cases hd
      exact Key.not_isBlank (hchars _ List.mem_cons_self)
    obtain ⟨e, between, rfl⟩ := List.exists_cons_of_ne_nil hne
    have hblank : ((e :: between ++ (name ++ after)).head?.any isBlank) = true :=
      hbetween e List.mem_cons_self
    unfold matchKey
    dsimp only
    rw [dropWhile_append_stop hbefore hstart, if_pos (List.prefix_append _ _), List.drop_left,
      dropWhile_append_stop hbetween hmiddle, takeWhile_append_stop hchars hafter, if_pos ⟨hblank, hname⟩]

/-- The first word of the line is the key. -/
theorem Declares.word {k : Key} {name line : Str} (h : Declares k name line) :
    (line.dropWhile isBlank).takeWhile (fun c => !isBlank c) = k.text := by
  obtain ⟨before, between, after, hbefore, hbetween, hne, -, -, -, rfl⟩ := h
  obtain ⟨c, t, htext, hc⟩ := k.text_head
  obtain ⟨e, between, rfl⟩ := List.exists_cons_of_ne_nil hne
  rw [dropWhile_append_stop hbefore, takeWhile_append_stop]
  · intro d hd
    rw [k.text_blank d hd]
    rfl
  · intro d hd
    cases hd
    rw [hbetween _ List.mem_cons_self]
    rfl
  · intro d hd
    rw [htext] at hd
    cases hd
    exact hc

theorem Declares.key {k k' : Key} {name name' line : Str} (h : Declares k name line)
    (h' : Declares k' name' line) : k = k' := by
  have htext := h.word.symm.trans h'.word
  revert htext
  cases k <;> cases k' <;> decide

theorem keyOf_iff {k : Key} {name line : Str} : keyOf line = some (k, name) ↔ Declares k name line := by
  constructor
  · intro h
    obtain ⟨k', -, hk'⟩ := List.exists_of_findSome?_eq_some h
    obtain ⟨name', hmatch, he⟩ := Option.map_eq_some_iff.mp hk'
    cases he
    exact matchKey_iff.mp hmatch
  · intro h
    have hother : ∀ k' ≠ k, matchKey k' line = none := by
      intro k' hne
      cases hm : matchKey k' line with
      | none => rfl
      | some name' => exact absurd ((matchKey_iff.mp hm).key h) hne
    have hself := matchKey_iff.mpr h
    cases k with
    | package => simp [keyOf, hself]
    | message => simp [keyOf, hself, hother .package (by decide)]
    | service => simp [keyOf, hself, hother .package (by decide), hother .message (by decide)]
    | enum =>
      simp [keyOf, hself, hother .package (by decide), hother .message (by decide),
        hother .service (by decide)]

/-! ## Layouts -/

/-- No brace; an opening or a closing one; or both. -/
def NoBrace (line : Str) : Prop := '{' ∉ line ∧ '}' ∉ line

def Opens (line : Str) : Prop := '{' ∈ line ∧ '}' ∉ line

def Closes (line : Str) : Prop := '{' ∉ line ∧ '}' ∈ line

def OneLined (line : Str) : Prop := '{' ∈ line ∧ '}' ∈ line

instance (line : Str) : Decidable (NoBrace line) := inferInstanceAs (Decidable (_ ∧ _))

instance (line : Str) : Decidable (Opens line) := inferInstanceAs (Decidable (_ ∧ _))

instance (line : Str) : Decidable (Closes line) := inferInstanceAs (Decidable (_ ∧ _))

instance (line : Str) : Decidable (OneLined line) := inferInstanceAs (Decidable (_ ∧ _))

/-- Lines between the braces of a message: nested ones are between braces again. -/
inductive Body : List Str → Prop
  | nil : Body []
  | line {l : Str} {ls : List Str} (hl : NoBrace l ∨ OneLined l) (h : Body ls) : Body (l :: ls)
  | block {l close : Str} {body ls : List Str} (hl : Opens l) (hbody : Body body) (hclose : Closes close)
    (h : Body ls) : Body (l :: (body ++ close :: ls))

/-- The lines of a message: the brace is in the first one, or in a later one that
names no message. -/
inductive Braced : List Str → Prop
  | line {l : Str} (hl : OneLined l) : Braced [l]
  | block {l close : Str} {body : List Str} (hl : Opens l) (hbody : Body body) (hclose : Closes close) :
    Braced (l :: (body ++ [close]))
  | later {l l' : Str} {ls : List Str} (hl : NoBrace l) (hl' : ∀ name, ¬ Declares .message name l')
    (h : Braced (l' :: ls)) : Braced (l :: l' :: ls)

/-- A line that may stand in a message. -/
def Inner (line : Str) : Prop := ∀ name, ¬ Declares .package name line ∧ ¬ Declares .service name line

/-- What a file declares, in order; `enums` also those in messages. -/
structure Contents where
  package : Str
  messages : List Str
  services : List Str
  enums : List Str
  topEnums : List Str

/-- The names of the enums that the lines declare. -/
def enumNames (lines : List Str) : List Str :=
  lines.filterMap fun line =>
    match keyOf line with
    | some (.enum, name) => some name
    | _ => none

/-- The lines of a file. Outside of messages braces may stand anywhere. -/
inductive Lays : List Str → Contents → Prop
  | nil : Lays [] ⟨[], [], [], [], []⟩
  | plain {l : Str} {ls : List Str} {c : Contents} (hl : ∀ k name, ¬ Declares k name l) (h : Lays ls c) :
    Lays (l :: ls) c
  | package {l name : Str} {ls : List Str} {c : Contents} (hl : Declares .package name l) (h : Lays ls c)
    (hc : c.package = []) : Lays (l :: ls) { c with package := name }
  | service {l name : Str} {ls : List Str} {c : Contents} (hl : Declares .service name l) (h : Lays ls c) :
    Lays (l :: ls) { c with services := name :: c.services }
  | enum {l name : Str} {ls : List Str} {c : Contents} (hl : Declares .enum name l) (h : Lays ls c) :
    Lays (l :: ls) { c with enums := name :: c.enums, topEnums := name :: c.topEnums }
  | message {l name : Str} {rest ls : List Str} {c : Contents} (hl : Declares .message name l)
    (hbraced : Braced (l :: rest)) (hrest : ∀ x ∈ rest, Inner x) (h : Lays ls c) :
    Lays (l :: (rest ++ ls)) { c with messages := name :: c.messages, enums := enumNames rest ++ c.enums }

/-! ## What the script finds -/

namespace Scan

theorem read_plain {s : Scan} {line : Str} (h : ∀ k name, ¬ Declares k name line) : s.read line = s := by
  have hkey : keyOf line = none := by
    cases hk : keyOf line with
    | none => rfl
    | some r => exact absurd (keyOf_iff.mp hk) (h r.1 r.2)
  unfold read
  rw [hkey]

/-- A line of a message, once its name has been read: only an enum is remembered. -/
theorem read_inner {s : Scan} {line : Str} (h : Inner line)
    (hm : s.unclosedBraces ≠ 0 ∨ ∀ name, ¬ Declares .message name line) :
    s.read line = { s with protoEnums := s.protoEnums ++ enumNames [line] } := by
  unfold read enumNames
  cases hk : keyOf line with
  | none => simp [hk]
  | some r =>
    obtain ⟨k, name⟩ := r
    have hd := keyOf_iff.mp hk
    cases k with
    | package => exact absurd hd (h name).1
    | service => exact absurd hd (h name).2
    | enum => simp [hk]
    | message =>
      have hne : s.unclosedBraces ≠ 0 := hm.resolve_right fun hno => hno name hd
      simp [hk, hne]

theorem count_outside {s : Scan} (h : s.inMessageScope = false) (line : Str) : s.count line = s := by
  unfold count
  rw [h]
  rfl

section
variable {s : Scan} {line : Str}

theorem count_noBrace (h : NoBrace line) : s.count line = s := by
  unfold count
  rw [if_neg h.1, if_neg h.2]
  split <;> rfl

theorem count_opens (hs : s.inMessageScope = true) (h : Opens line) :
    s.count line = { s with unclosedBraces := s.unclosedBraces + 1 } := by
  unfold count
  rw [if_pos hs, if_pos h.1, if_neg h.2]

theorem count_closes (hs : s.inMessageScope = true) (h : Closes line) : s.count line =
    { s with unclosedBraces := s.unclosedBraces - 1, inMessageScope := s.unclosedBraces - 1 != 0 } := by
  unfold count
  rw [if_pos hs, if_neg h.1, if_pos h.2]

theorem count_oneLined (hs : s.inMessageScope = true) (h : OneLined line) :
    s.count line = { s with inMessageScope := s.unclosedBraces != 0 } := by
  unfold count
  rw [if_pos hs, if_pos h.1, if_pos h.2]
  simp

end

/-- The line that closes a brace of a message. -/
theorem step_closes {s : Scan} {line : Str} (hs : s.inMessageScope = true) (hn : 0 < s.unclosedBraces)
    (hin : Inner line) (h : Closes line) : s.step line =
      { s with
        protoEnums := s.protoEnums ++ enumNames [line]
        unclosedBraces := s.unclosedBraces - 1
        inMessageScope := s.unclosedBraces - 1 != 0 } := by
  rw [step, read_inner hin (.inl (by omega))]
  exact count_closes hs h

theorem enumNames_append (ls ls' : List Str) : enumNames (ls ++ ls') = enumNames ls ++ enumNames ls' :=
  List.filterMap_append

/-- Between the braces of a message the count comes back. -/
theorem fold_body {ls : List Str} (h : Body ls) (hin : ∀ l ∈ ls, Inner l) {s : Scan}
    (hs : s.inMessageScope = true) (hn : 0 < s.unclosedBraces) :
    ls.foldl step s = { s with protoEnums := s.protoEnums ++ enumNames ls } := by
  induction h generalizing s with
  | nil => simp [enumNames]
  | @line l ls hl _ ih =>
    have hstep : s.step l = { s with protoEnums := s.protoEnums ++ enumNames [l] } := by
      rw [step, read_inner (hin l List.mem_cons_self) (.inl (by omega))]
      rcases hl with hl | hl
      · exact count_noBrace hl
      · have hne : (s.unclosedBraces != 0) = true := by simp; omega
        have hcount := count_oneLined (s := { s with protoEnums := s.protoEnums ++ enumNames [l] }) hs hl
        rw [hcount, hne, ← hs]
    have hrest := ih (fun l' hl' => hin l' (List.mem_cons_of_mem l hl'))
      (s := { s with protoEnums := s.protoEnums ++ enumNames [l] }) hs hn
    rw [List.foldl_cons, hstep, hrest, ← List.singleton_append (l := ls), enumNames_append, List.append_assoc]
  | @block l close body ls hl _ hclose _ ihbody ih =>
    have hopen : s.step l =
        { s with protoEnums := s.protoEnums ++ enumNames [l], unclosedBraces := s.unclosedBraces + 1 } := by
      rw [step, read_inner (hin l List.mem_cons_self) (.inl (by omega))]
      exact count_opens hs hl
    have hbody := ihbody (fun x hx => hin x (by simp [hx])) (s := { s with
      protoEnums := s.protoEnums ++ enumNames [l], unclosedBraces := s.unclosedBraces + 1 }) hs
      (show 0 < s.unclosedBraces + 1 by omega)
    have hclosed := step_closes (s := { s with
      protoEnums := s.protoEnums ++ enumNames [l] ++ enumNames body
      unclosedBraces := s.unclosedBraces + 1 }) hs (show 0 < s.unclosedBraces + 1 by omega)
      (hin close (by simp)) hclose
    have hsum : s.unclosedBraces + 1 - 1 = s.unclosedBraces := by omega
    have hne : (s.unclosedBraces != 0) = true := by simp; omega
    dsimp only at hclosed
    rw [hsum, hne] at hclosed
    have hrest := ih (fun x hx => hin x (by simp [hx])) (s := { s with
      protoEnums := s.protoEnums ++ enumNames [l] ++ enumNames body ++ enumNames [close]
      inMessageScope := true }) rfl hn
    have hnames : enumNames (l :: (body ++ close :: ls)) =
        enumNames [l] ++ (enumNames body ++ (enumNames [close] ++ enumNames ls)) := by
      rw [← enumNames_append, ← enumNames_append, ← enumNames_append]
      rfl
    rw [List.foldl_cons, hopen, List.foldl_append, hbody, List.foldl_cons, hclosed, hrest, hnames, ← hs]
    simp only [List.append_assoc]

/-- The lines of a message, behind the `read` of the first one. -/
theorem fold_braced {l : Str} {rest : List Str} (h : Braced (l :: rest)) (hin : ∀ x ∈ rest, Inner x)
    {s : Scan} (hs : s.inMessageScope = true) (hn : s.unclosedBraces = 0) : rest.foldl step (s.count l) =
      { s with protoEnums := s.protoEnums ++ enumNames rest, inMessageScope := false } := by
  generalize hlines : l :: rest = lines at h
  induction h generalizing l rest s with
  | @line l' hl =>
    cases hlines
    rw [List.foldl_nil, count_oneLined hs hl, hn]
    simp [enumNames]
  | @block l' close body hl hbody hclose =>
    cases hlines
    have hlines := fold_body hbody (fun x hx => hin x (by simp [hx]))
      (s := { s with unclosedBraces := s.unclosedBraces + 1 }) hs (show 0 < s.unclosedBraces + 1 by omega)
    have hclosed := step_closes (s := { s with
      protoEnums := s.protoEnums ++ enumNames body, unclosedBraces := s.unclosedBraces + 1 }) hs
      (show 0 < s.unclosedBraces + 1 by omega) (hin close (by simp)) hclose
    rw [count_opens hs hl, List.foldl_append, hlines, List.foldl_cons, List.foldl_nil, hclosed,
      enumNames_append]
    simp [hn]
  | @later l' l'' ls hl hl'' _ ih =>
    cases hlines
    have hrest := ih (fun x hx => hin x (List.mem_cons_of_mem l'' hx))
      (s := { s with protoEnums := s.protoEnums ++ enumNames [l''] }) hs hn rfl
    rw [count_noBrace hl, List.foldl_cons, step, read_inner (hin l'' List.mem_cons_self) (.inr hl''), hrest,
      ← List.singleton_append (l := ls), enumNames_append, List.append_assoc]

end Scan

/-- **The scan** of the lines of a file. -/
theorem scan_lays {ls : List Str} {c : Contents} (h : Lays ls c) {s : Scan}
    (hs : s.inMessageScope = false) (hn : s.unclosedBraces = 0) : ls.foldl Scan.step s =
      { s with
        protoPackage := if c.package = [] then s.protoPackage else c.package
        protoMessages := s.protoMessages ++ c.messages
        protoServices := s.protoServices ++ c.services
        protoEnums := s.protoEnums ++ c.enums } := by
  induction h generalizing s with
  | nil => simp
  | @plain l ls c hl _ ih =>
    have hstep : s.step l = s := by rw [Scan.step, Scan.read_plain hl, Scan.count_outside hs]
    rw [List.foldl_cons, hstep, ih hs hn]
  | @package l name ls c hl _ hc ih =>
    have hstep : s.step l = { s with protoPackage := name } := by
      rw [Scan.step, Scan.read, keyOf_iff.mpr hl]
      exact Scan.count_outside (s := { s with protoPackage := name }) hs l
    have hne : name ≠ [] := by
      obtain ⟨-, -, -, -, -, -, hne, -⟩ := hl
      exact hne
    have hrest := ih (s := { s with protoPackage := name }) hs hn
    rw [List.foldl_cons, hstep, hrest, if_pos hc, if_neg hne]
  | @service l name ls c hl _ ih =>
    have hstep : s.step l = { s with protoServices := s.protoServices ++ [name] } := by
      rw [Scan.step, Scan.read, keyOf_iff.mpr hl]
      exact Scan.count_outside (s := { s with protoServices := s.protoServices ++ [name] }) hs l
    have hrest := ih (s := { s with protoServices := s.protoServices ++ [name] }) hs hn
    rw [List.foldl_cons, hstep, hrest]
    simp
  | @enum l name ls c hl _ ih =>
    have hstep : s.step l = { s with protoEnums := s.protoEnums ++ [name] } := by
      rw [Scan.step, Scan.read, keyOf_iff.mpr hl]
      exact Scan.count_outside (s := { s with protoEnums := s.protoEnums ++ [name] }) hs l
    have hrest := ih (s := { s with protoEnums := s.protoEnums ++ [name] }) hs hn
    rw [List.foldl_cons, hstep, hrest]
    simp
  | @message l name rest ls c hl hbraced hrest _ ih =>
    have hread : s.read l =
        { s with protoMessages := s.protoMessages ++ [name], inMessageScope := true } := by
      rw [Scan.read, keyOf_iff.mpr hl]
      exact if_pos hn
    have hlines := Scan.fold_braced hbraced hrest
      (s := { s with protoMessages := s.protoMessages ++ [name], inMessageScope := true }) rfl hn
    have hbehind := ih (s := { s with
      protoMessages := s.protoMessages ++ [name]
      protoEnums := s.protoEnums ++ enumNames rest
      inMessageScope := false }) rfl hn
    rw [List.foldl_cons, Scan.step, hread, List.foldl_append, hlines, hbehind, ← hs]
    simp only [List.append_assoc, List.singleton_append]

/-- A name that a line declares; a package may have dots. -/
theorem Declares.isIdentifier {k : Key} {name line : Str} (h : Declares k name line) (hk : k ≠ .package) :
    IsIdentifier name := by
  obtain ⟨-, -, -, -, -, -, hne, hchars, -⟩ := h
  refine isIdentifier_iff.mpr ⟨hne, fun c hc => ?_⟩
  have hchar := hchars c hc
  simp only [Key.isNameChar, Bool.or_eq_true, Bool.and_eq_true, beq_iff_eq, hk, false_and, or_false] at hchar
  exact hchar

theorem isIdentifier_enumNames {ls : List Str} {name : Str} (h : name ∈ enumNames ls) : IsIdentifier name := by
  obtain ⟨line, -, hline⟩ := List.mem_filterMap.mp h
  split at hline
  · next hkey =>
    cases hline
    exact (keyOf_iff.mp hkey).isIdentifier (by decide)
  · cases hline

namespace Lays

variable {ls : List Str} {c : Contents}

theorem isIdentifier (h : Lays ls c) : (∀ name ∈ c.messages, IsIdentifier name) ∧
    (∀ name ∈ c.services, IsIdentifier name) ∧ ∀ name ∈ c.enums, IsIdentifier name := by
  induction h with
  | nil => exact ⟨List.forall_mem_nil _, List.forall_mem_nil _, List.forall_mem_nil _⟩
  | plain _ _ ih => exact ih
  | package _ _ _ ih => exact ih
  | service hl _ ih =>
    exact ⟨ih.1, List.forall_mem_cons.mpr ⟨hl.isIdentifier (by decide), ih.2.1⟩, ih.2.2⟩
  | enum hl _ ih => exact ⟨ih.1, ih.2.1, List.forall_mem_cons.mpr ⟨hl.isIdentifier (by decide), ih.2.2⟩⟩
  | message hl _ _ _ ih =>
    refine ⟨List.forall_mem_cons.mpr ⟨hl.isIdentifier (by decide), ih.1⟩, ih.2.1, fun name hname => ?_⟩
    rcases List.mem_append.mp hname with hname | hname
    · exact isIdentifier_enumNames hname
    · exact ih.2.2 name hname

/-- An enum stands in a message or at the top. -/
theorem enums_iff (h : Lays ls c) (hm : c.messages = []) : c.enums = [] ↔ c.topEnums = [] := by
  induction h with
  | nil => exact Iff.rfl
  | plain _ _ ih => exact ih hm
  | package _ _ _ ih => exact ih hm
  | service _ _ ih => exact ih hm
  | enum _ _ _ => exact iff_of_false (List.cons_ne_nil _ _) (List.cons_ne_nil _ _)
  | message _ _ _ _ _ => cases hm

end Lays

/-! ## Lines -/

/-- The opening brackets of the line, less the closing ones. -/
def brackets : Str → Int
  | [] => 0
  | c :: line => bracket c + brackets line

/-- A line that CMake does not join with the next one. -/
structure IsLine (line : Str) : Prop where
  lineBreak : '\n' ∉ line
  backslash : line.getLast? ≠ some '\\'
  balanced : brackets line = 0

theorem items_line {line : Str} (hbreak : '\n' ∉ line) (n : Int) (escaped : Bool) :
    items n escaped line = [line] := by
  induction line generalizing n escaped with
  | nil => rfl
  | cons c line ih =>
    rw [List.mem_cons, not_or] at hbreak
    rw [items, if_neg (Ne.symm hbreak.1), ih hbreak.2]
    rfl

theorem items_append {line : Str} (hbreak : '\n' ∉ line) (hlast : line.getLast? ≠ some '\\') {n : Int}
    (hn : n + brackets line = 0) {escaped : Bool} (he : line = [] → escaped = false) (rest : Str) :
    items n escaped (line ++ '\n' :: rest) = line :: items 0 false rest := by
  induction line generalizing n escaped with
  | nil =>
    have hzero : n = 0 := by simpa [brackets] using hn
    rw [List.nil_append, items, if_pos rfl, if_pos ⟨hzero, he rfl⟩]
  | cons c line ih =>
    rw [List.mem_cons, not_or] at hbreak
    have hstop : line = [] → (c == '\\') = false := by
      rintro rfl
      simpa using hlast
    have hlast' : line.getLast? ≠ some '\\' := by
      cases line with
      | nil => simp
      | cons d line => rwa [List.getLast?_cons_cons] at hlast
    rw [List.cons_append, items, if_neg (Ne.symm hbreak.1),
      ih hbreak.2 hlast' (by rw [brackets] at hn; omega) hstop]
    rfl

/-- **The list** has the lines of the text. -/
theorem items_lines {lines : List Str} (hne : lines ≠ []) (h : ∀ l ∈ lines, IsLine l) :
    items 0 false (['\n'].intercalate lines) = lines := by
  induction lines with
  | nil => exact absurd rfl hne
  | cons l lines ih =>
    have hl := h l List.mem_cons_self
    cases lines with
    | nil =>
      rw [List.intercalate_singleton]
      exact items_line hl.lineBreak 0 false
    | cons l' lines =>
      rw [List.intercalate_cons_cons, List.append_assoc, List.singleton_append,
        items_append hl.lineBreak hl.backslash (by rw [hl.balanced]; rfl) (fun _ => rfl),
        ih (by simp) fun x hx => h x (List.mem_cons_of_mem l hx)]

end QtProtobuf.Generator.PreParse
