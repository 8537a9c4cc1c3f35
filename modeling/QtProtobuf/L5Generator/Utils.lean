import QtProtobuf.Core.Words
import Mathlib.Data.List.DropRight

/-!
# The generator's string helpers

Model of src/generator/utils.h. A `std::string` is the list of its characters.
-/
namespace QtProtobuf.Generator

open Lib

abbrev Str := List Char

/-- `"::"` -/
abbrev colons : Str := [':', ':']

theorem isSeparator_colons : IsSeparator ':' colons := ⟨1, rfl⟩

/-- A name protoc accepts for a package part, a message, an enum or a service. -/
def IsIdentifier (s : Str) : Prop :=
  s.isEmpty = false ∧ s.all (fun c => c.isAlphanum || c == '_') = true

instance (s : Str) : Decidable (IsIdentifier s) := inferInstanceAs (Decidable (_ ∧ _))

theorem isIdentifier_iff {s : Str} :
    IsIdentifier s ↔ s ≠ [] ∧ ∀ c ∈ s, c.isAlphanum = true ∨ c = '_' := by
  simp [IsIdentifier, List.isEmpty_eq_false_iff]

theorem IsIdentifier.isWord {s : Str} (h : IsIdentifier s) {d : Char}
    (hd : d.isAlphanum = false ∧ d ≠ '_') : IsWord d s := by
  obtain ⟨hne, hs⟩ := isIdentifier_iff.mp h
  refine ⟨hne, fun hin => ?_⟩
  rcases hs d hin with hc | hc
  · simp [hd.1] at hc
  · exact hd.2 hc

theorem IsIdentifier.dot {s : Str} (h : IsIdentifier s) : IsWord '.' s := h.isWord (by decide)

theorem IsIdentifier.colon {s : Str} (h : IsIdentifier s) : IsWord ':' s := h.isWord (by decide)

namespace utils

/-- `std::getline` until the stream is at its end: a delimiter at the end of the
string ends the last token and begins none.
mirrors src/generator/utils.h:55-68 -/
def split (str : Str) (delim : Char) : List Str :=
  if str.isEmpty then []
  else
    let tokens := str.splitOn delim
    if tokens.getLast? = some [] then tokens.dropLast else tokens

/-- Every occurrence of `old`, from left to right; `old` is not empty.
mirrors src/generator/utils.h:70-76 -/
def replace (data old new : Str) : Str :=
  match data with
  | [] => []
  | c :: cs =>
    if old.isPrefixOf (c :: cs) then new ++ replace (cs.drop (old.length - 1)) old new
    else c :: replace cs old new
termination_by data.length
decreasing_by all_goals simp only [List.length_drop, List.length_cons]; omega

/-- mirrors src/generator/utils.h:78-80 -/
def tolower (str : Str) : Str := str.map Char.toLower

/-- Up to the last dot; a file name has one.
mirrors src/generator/utils.h:82-86 -/
def removeFileSuffix (fileName : Str) : Str := (fileName.rdropWhile (· != '.')).dropLast

/-- mirrors src/generator/utils.h:88-96 -/
def extractFileBasename (fileName : Str) : Str :=
  (removeFileSuffix fileName).rtakeWhile (· != '/')

/-- mirrors src/generator/utils.h:99-104 -/
def upperCaseName : Str → Str
  | [] => []
  | c :: cs => c.toUpper :: cs

/-- mirrors src/generator/utils.h:106-111 -/
def lowerCaseName : Str → Str
  | [] => []
  | c :: cs => c.toLower :: cs

/-! ## Letter case -/

theorem toNat_lt_of_isAlphanum {c : Char} (h : c.isAlphanum = true) : c.toNat < 128 := by
  have h : (decide ('A'.val ≤ c.val ∧ c.val ≤ 'Z'.val) || ('a'.val ≤ c.val && c.val ≤ 'z'.val) ||
    ('0'.val ≤ c.val && c.val ≤ '9'.val)) = true := h
  simp only [Bool.or_eq_true, Bool.and_eq_true, decide_eq_true_eq, UInt32.le_iff_toNat_le] at h
  show c.val.toNat < 128
  have : 'Z'.val.toNat = 90 := rfl
  have : 'z'.val.toNat = 122 := rfl
  have : '9'.val.toNat = 57 := rfl
  omega

theorem isAlphanum_toUpper {c : Char} (h : c.isAlphanum = true) :
    c.toUpper.isAlphanum = true := by
  have table : ∀ n < 128, (Char.ofNat n).isAlphanum = true →
      (Char.ofNat n).toUpper.isAlphanum = true := by decide
  simpa using table c.toNat (toNat_lt_of_isAlphanum h) (by simpa using h)

theorem isIdentifier_upperCaseName {s : Str} (h : IsIdentifier s) :
    IsIdentifier (upperCaseName s) := by
  rw [isIdentifier_iff] at h ⊢
  cases s with
  | nil => exact absurd rfl h.1
  | cons c cs =>
    refine ⟨by simp [upperCaseName], fun d hd => ?_⟩
    rcases List.mem_cons.mp hd with rfl | hd
    · rcases h.2 c (by simp) with hc | rfl
      · exact .inl (isAlphanum_toUpper hc)
      · exact .inr (by decide)
    · exact h.2 d (by simp [hd])

theorem isAlphanum_toLower {c : Char} (h : c.isAlphanum = true) :
    c.toLower.isAlphanum = true := by
  have table : ∀ n < 128, (Char.ofNat n).isAlphanum = true →
      (Char.ofNat n).toLower.isAlphanum = true := by decide
  simpa using table c.toNat (toNat_lt_of_isAlphanum h) (by simpa using h)

theorem isIdentifier_tolower {s : Str} (h : IsIdentifier s) : IsIdentifier (tolower s) := by
  rw [isIdentifier_iff] at h ⊢
  refine ⟨by simpa [tolower] using h.1, fun d hd => ?_⟩
  obtain ⟨c, hc, rfl⟩ := List.mem_map.mp hd
  rcases h.2 c hc with hc | rfl
  · exact .inl (isAlphanum_toLower hc)
  · exact .inr (by decide)

theorem isAlphanum_lowerCaseName {s : Str} (h : ∀ c ∈ s, c.isAlphanum = true) :
    ∀ c ∈ lowerCaseName s, c.isAlphanum = true := by
  cases s with
  | nil => exact h
  | cons c s =>
    intro d hd
    rcases List.mem_cons.mp hd with rfl | hd
    · exact isAlphanum_toLower (h c (by simp))
    · exact h d (by simp [hd])

theorem isAlphanum_upperCaseName {s : Str} (h : ∀ c ∈ s, c.isAlphanum = true) :
    ∀ c ∈ upperCaseName s, c.isAlphanum = true := by
  cases s with
  | nil => exact h
  | cons c s =>
    intro d hd
    rcases List.mem_cons.mp hd with rfl | hd
    · exact isAlphanum_toUpper (h c (by simp))
    · exact h d (by simp [hd])

/-- The case of a letter is not seen in lower case. -/
theorem toLower_cases {c : Char} (h : c.isAlphanum = true) :
    c.toUpper.toLower = c.toLower ∧ c.toLower.toLower = c.toLower := by
  have table : ∀ n < 128, (Char.ofNat n).isAlphanum = true →
      (Char.ofNat n).toUpper.toLower = (Char.ofNat n).toLower ∧
        (Char.ofNat n).toLower.toLower = (Char.ofNat n).toLower := by decide
  have hc := table c.toNat (toNat_lt_of_isAlphanum h)
  rw [Char.ofNat_toNat] at hc
  exact hc h

/-- The first letter of a name in lower case can be told from its upper case. -/
theorem upperCaseName_inj {s t : Str} (hs : ∀ c ∈ s, c.isAlphanum = true)
    (ht : ∀ c ∈ t, c.isAlphanum = true)
    (h : upperCaseName (lowerCaseName s) = upperCaseName (lowerCaseName t)) :
    lowerCaseName s = lowerCaseName t := by
  cases s with
  | nil =>
    cases t with
    | nil => rfl
    | cons d t => cases h
  | cons c s =>
    cases t with
    | nil => cases h
    | cons d t =>
      obtain ⟨hcd, rfl⟩ := List.cons.inj h
      have hc := hs c List.mem_cons_self
      have hd := ht d List.mem_cons_self
      have hlower : c.toLower = d.toLower := by
        rw [← (toLower_cases hc).2, ← (toLower_cases (isAlphanum_toLower hc)).1, hcd,
          (toLower_cases (isAlphanum_toLower hd)).1, (toLower_cases hd).2]
      rw [lowerCaseName, lowerCaseName, hlower]

@[simp] theorem length_upperCaseName (s : Str) : (upperCaseName s).length = s.length := by
  cases s <;> rfl

/-! ## Joined names -/

theorem split_intercalate {ws : List Str} (h : ∀ w ∈ ws, IsWord '.' w) :
    split (['.'].intercalate ws) '.' = ws := by
  cases ws with
  | nil => rfl
  | cons w ws =>
    have hs := List.splitOn_intercalate '.' (fun v hv => (h v hv).2) (List.cons_ne_nil w ws)
    have hne : ['.'].intercalate (w :: ws) ≠ [] := by
      intro he
      rw [he, List.splitOn_nil] at hs
      exact (h w (by simp)).1 (List.cons.inj hs).1.symm
    have hl : (w :: ws).getLast? ≠ some [] :=
      fun hl => (h [] (List.mem_of_getLast? hl)).1 rfl
    simp [split, hne, hs, hl]

theorem replace_of_notMem {d : Char} {s : Str} (rest : Str) {t new : Str} (h : d ∉ s) :
    replace (s ++ rest) (d :: t) new = s ++ replace rest (d :: t) new := by
  induction s with
  | nil => rfl
  | cons c s ih =>
    have hc : d ≠ c := fun he => h (by simp [he])
    rw [List.cons_append, replace, ih fun hin => h (by simp [hin])]
    simp [List.isPrefixOf, hc]

theorem replace_append (rest : Str) {d : Char} {t new : Str} :
    replace ((d :: t) ++ rest) (d :: t) new = new ++ replace rest (d :: t) new := by
  have hp : (d :: t).isPrefixOf (d :: (t ++ rest)) = true := by
    simp [List.isPrefixOf_iff_prefix]
  rw [List.cons_append, replace, if_pos hp, List.length_cons, Nat.add_sub_cancel, List.drop_left]

/-- A joined name with another separator, `::` for the dots of a full name. -/
theorem replace_intercalate {ws : List Str} {d : Char} {t new : Str}
    (h : ∀ w ∈ ws, IsWord d w) :
    replace ((d :: t).intercalate ws) (d :: t) new = new.intercalate ws := by
  induction ws with
  | nil => simp [replace]
  | cons w ws ih =>
    have hw := (h w (by simp)).2
    cases ws with
    | nil => simpa [replace, List.intercalate_singleton] using replace_of_notMem [] hw
    | cons v vs =>
      rw [List.intercalate_cons_cons, List.intercalate_cons_cons, List.append_assoc,
        replace_of_notMem _ hw, replace_append, ih fun u hu => h u (by simp [hu]),
        List.append_assoc]

/-! ## Paths -/

theorem removeFileSuffix_proto (stem : Str) :
    removeFileSuffix (stem ++ ".proto".toList) = stem := by
  simp [removeFileSuffix, List.rdropWhile]

end utils

/-- The directory of a file, with the slash behind it. -/
def directory (name : Str) : Str := name.rdropWhile (· != '/')

theorem directory_append {x : Str} (h : '/' ∉ x) (p : Str) : directory (p ++ x) = directory p := by
  unfold directory List.rdropWhile
  rw [List.reverse_append, List.dropWhile_append_of_pos]
  intro c hc
  simpa using fun he => h (by simpa [he] using hc)

/-- A path is its directory and its base name. -/
theorem directory_append_extractFileBasename (stem : Str) :
    directory (stem ++ ".proto".toList) ++
      utils.extractFileBasename (stem ++ ".proto".toList) = stem := by
  rw [directory_append (by decide), utils.extractFileBasename, utils.removeFileSuffix_proto]
  exact List.rdropWhile_append_rtakeWhile

theorem slash_notMem_extractFileBasename (name : Str) :
    '/' ∉ utils.extractFileBasename name := by
  intro h
  simpa using List.mem_rtakeWhile_imp h

end QtProtobuf.Generator
