import Mathlib
import AxiomCore.Domain
import AxiomCore.Library.Checked

/-!
The boundary of the string types. The rules of the refinement crate are a parameter,
with what the kernel's comments and tests rely on: a rule reports the observed number
of characters, the byte offset of the first character that is not admissible, or an
inadmissible first character, and a composition runs its rules in order. A
constructor maps the report to an error of its own type.
-/

namespace AxiomCore

open Checked

/-- `StringError`. Payloads of variants that no rule used here reports are left
out. -/
inductive StringError where
  | charCountOutOfRange (actual : Nat)
  | byteLenOutOfRange
  | empty
  | badChar (offset : Nat)
  | badFirstChar
  | badHexLength
  deriving DecidableEq

/-- The number of bytes that the characters take up in UTF-8. -/
def byteLength (chars : List Char) : Nat := (chars.map Char.utf8Size).sum

/-- The characters split at the first one that is not admissible. -/
def FirstBad (admissible : Char → Bool) (chars before : List Char) : Prop :=
  ∃ c after, chars = before ++ c :: after ∧ before.all admissible = true ∧ admissible c = false

theorem FirstBad.not_all {admissible : Char → Bool} {chars before : List Char}
    (h : FirstBad admissible chars before) : ¬ chars.all admissible = true := by
  obtain ⟨c, after, rfl, -, hbad⟩ := h
  simp [hbad]

theorem FirstBad.all_before {admissible : Char → Bool} {chars before : List Char}
    (h : FirstBad admissible chars before) : before.all admissible = true := by
  obtain ⟨c, after, -, hgood, -⟩ := h
  exact hgood

theorem FirstBad.eq_takeWhile {admissible : Char → Bool} {chars before : List Char}
    (h : FirstBad admissible chars before) : before = chars.takeWhile admissible := by
  obtain ⟨c, after, rfl, hgood, hbad⟩ := h
  rw [List.takeWhile_append_of_pos (List.all_eq_true.mp hgood)]
  simp [hbad]

theorem exists_firstBad {admissible : Char → Bool} {chars : List Char}
    (h : ¬ chars.all admissible = true) : ∃ before, FirstBad admissible chars before := by
  induction chars with
  | nil => exact absurd rfl h
  | cons c chars ih =>
      cases hc : admissible c with
      | false => exact ⟨[], c, chars, rfl, rfl, hc⟩
      | true =>
          have hrest : ¬ chars.all admissible = true := by
            intro hall
            exact h (by simp [hc, hall])
          obtain ⟨before, d, after, rfl, hgood, hbad⟩ := ih hrest
          exact ⟨c :: before, d, after, rfl, by simp [hc, hgood], hbad⟩

/-- The rules `LenChars<MIN, MAX>`, `EachChar<C>`, `FirstChar<C>` and `All<(..)>`,
each as its verdict on a string. What `FirstChar` says of the empty string is left
open. -/
class WhittleStrings where
  lenChars : Nat → Nat → String → Except StringError Unit
  eachChar : (Char → Bool) → String → Except StringError Unit
  firstChar : (Char → Bool) → String → Except StringError Unit
  all : List (String → Except StringError Unit) → String → Except StringError Unit
  lenChars_ok {min max : Nat} {raw : String} :
    lenChars min max raw = .ok () ↔ min ≤ raw.length ∧ raw.length ≤ max
  lenChars_error {min max : Nat} {raw : String} {e : StringError} :
    lenChars min max raw = .error e → e = .charCountOutOfRange raw.length
  eachChar_ok {admissible : Char → Bool} {raw : String} :
    eachChar admissible raw = .ok () ↔ raw.toList.all admissible = true
  eachChar_error {admissible : Char → Bool} {raw : String} {e : StringError} :
    eachChar admissible raw = .error e →
      ∃ before, FirstBad admissible raw.toList before ∧ e = .badChar (byteLength before)
  firstChar_ok {admissible : Char → Bool} {raw : String} : 1 ≤ raw.length →
    (firstChar admissible raw = .ok () ↔ raw.toList.head?.all admissible = true)
  firstChar_error {admissible : Char → Bool} {raw : String} {e : StringError} :
    1 ≤ raw.length → firstChar admissible raw = .error e → e = .badFirstChar
  all_eq (rules : List (String → Except StringError Unit)) (raw : String) :
    all rules raw = forM rules fun rule => rule raw

section Verdicts

variable [WhittleStrings]

theorem lenChars_error_iff {min max : Nat} {raw : String} {e : StringError} :
    WhittleStrings.lenChars min max raw = .error e ↔
      ¬ (min ≤ raw.length ∧ raw.length ≤ max) ∧ e = .charCountOutOfRange raw.length := by
  cases hverdict : WhittleStrings.lenChars min max raw with
  | ok u => simp [WhittleStrings.lenChars_ok.mp hverdict]
  | error e' =>
      have hlength : ¬ (min ≤ raw.length ∧ raw.length ≤ max) := by
        rw [← WhittleStrings.lenChars_ok, hverdict]
        simp
      simp only [hlength, WhittleStrings.lenChars_error hverdict, not_false_eq_true, true_and,
        Except.error.injEq]
      exact eq_comm

theorem eachChar_error_iff {admissible : Char → Bool} {raw : String} {e : StringError} :
    WhittleStrings.eachChar admissible raw = .error e ↔
      ∃ before, FirstBad admissible raw.toList before ∧ e = .badChar (byteLength before) := by
  constructor
  · exact WhittleStrings.eachChar_error
  · intro hbad
    obtain ⟨before, hfirst, rfl⟩ := hbad
    cases hverdict : WhittleStrings.eachChar admissible raw with
    | ok u => exact absurd (WhittleStrings.eachChar_ok.mp hverdict) hfirst.not_all
    | error e' =>
        obtain ⟨before', hfirst', rfl⟩ := WhittleStrings.eachChar_error hverdict
        rw [hfirst.eq_takeWhile, hfirst'.eq_takeWhile]

theorem firstChar_error_iff {admissible : Char → Bool} {raw : String} {e : StringError}
    (hlength : 1 ≤ raw.length) :
    WhittleStrings.firstChar admissible raw = .error e ↔
      ¬ raw.toList.head?.all admissible = true ∧ e = .badFirstChar := by
  rw [← WhittleStrings.firstChar_ok hlength]
  cases hverdict : WhittleStrings.firstChar admissible raw with
  | ok u => simp
  | error e' =>
      rw [WhittleStrings.firstChar_error hlength hverdict]
      simp [eq_comm]

end Verdicts

inductive AttributeNameError where
  | length (actual : Nat)
  | firstChar
  | bodyChar (offset : Nat)
  deriving DecidableEq

inductive TableNameError where
  | length (actual : Nat)
  deriving DecidableEq

inductive PatternError where
  | length (actual : Nat)
  deriving DecidableEq

/-- What a name reports for the error of its rules; the others do not occur. -/
def StringError.toAttributeName : StringError → Option AttributeNameError
  | .charCountOutOfRange actual => some (.length actual)
  | .badChar offset => some (.bodyChar offset)
  | .badFirstChar => some .firstChar
  | .byteLenOutOfRange | .empty | .badHexLength => none

section Constructors

variable [WhittleStrings]

/-- The verdict of `AttributeNameRule`. -/
def attributeNameVerdict (raw : String) : Except StringError Unit :=
  WhittleStrings.all [WhittleStrings.lenChars 1 maxAttributeNameLen,
    WhittleStrings.eachChar isIdentChar, WhittleStrings.firstChar isIdentStart] raw

theorem attributeNameVerdict_eq (raw : String) :
    attributeNameVerdict raw =
      WhittleStrings.lenChars 1 maxAttributeNameLen raw >>= fun _ =>
        WhittleStrings.eachChar isIdentChar raw >>= fun _ =>
          WhittleStrings.firstChar isIdentStart raw := by
  rw [attributeNameVerdict, WhittleStrings.all_eq]
  simp only [List.forM_cons, List.forM_nil]
  cases WhittleStrings.lenChars 1 maxAttributeNameLen raw with
  | error e => rfl
  | ok u =>
      cases WhittleStrings.eachChar isIdentChar raw with
      | error e => rfl
      | ok u => cases WhittleStrings.firstChar isIdentStart raw <;> rfl

theorem attributeNameVerdict_ok_iff {raw : String} :
    attributeNameVerdict raw = .ok () ↔
      (1 ≤ raw.length ∧ raw.length ≤ maxAttributeNameLen) ∧
        raw.toList.all isIdentChar = true ∧ raw.toList.head?.all isIdentStart = true := by
  simp only [attributeNameVerdict_eq, bind_eq_ok, exists_and_right, exists_unit_eq_ok,
    WhittleStrings.lenChars_ok, WhittleStrings.eachChar_ok]
  constructor
  · intro h
    exact ⟨h.1, h.2.1, (WhittleStrings.firstChar_ok h.1.1).mp h.2.2⟩
  · intro h
    exact ⟨h.1, h.2.1, (WhittleStrings.firstChar_ok h.1.1).mpr h.2.2⟩

/-- What the three rules report, the length before the body and the body before
the first character. -/
theorem attributeNameVerdict_error_iff {raw : String} {e : StringError} :
    attributeNameVerdict raw = .error e ↔
      (¬ (1 ≤ raw.length ∧ raw.length ≤ maxAttributeNameLen) ∧
        e = .charCountOutOfRange raw.length) ∨
      (1 ≤ raw.length ∧ raw.length ≤ maxAttributeNameLen) ∧
        ((∃ before, FirstBad isIdentChar raw.toList before ∧ e = .badChar (byteLength before)) ∨
          raw.toList.all isIdentChar = true ∧
            ¬ raw.toList.head?.all isIdentStart = true ∧ e = .badFirstChar) := by
  simp only [attributeNameVerdict_eq, bind_eq_error, exists_and_right, exists_unit_eq_ok,
    WhittleStrings.lenChars_ok, WhittleStrings.eachChar_ok, lenChars_error_iff,
    eachChar_error_iff]
  refine or_congr Iff.rfl (and_congr_right fun hlength => or_congr Iff.rfl ?_)
  rw [firstChar_error_iff hlength.1]

def AttributeName.tryNew (raw : String) : Except AttributeNameError AttributeName :=
  match hverdict : attributeNameVerdict raw with
  | .ok () =>
    have hrule := attributeNameVerdict_ok_iff.mp hverdict
    .ok ⟨raw, hrule.1, hrule.2.1, hrule.2.2⟩
  | .error (.charCountOutOfRange actual) => .error (.length actual)
  | .error (.badChar offset) => .error (.bodyChar offset)
  | .error .badFirstChar => .error .firstChar
  | .error .byteLenOutOfRange => absurd (attributeNameVerdict_error_iff.mp hverdict) (by simp)
  | .error .empty => absurd (attributeNameVerdict_error_iff.mp hverdict) (by simp)
  | .error .badHexLength => absurd (attributeNameVerdict_error_iff.mp hverdict) (by simp)

/-- `Refined::try_new` over `LenChars<MIN, MAX>`, with the length error mapped to
the caller's own. A verdict other than the length error is unreachable. -/
def tryChars {τ ε : Type} (min max : Nat) (onLength : Nat → ε)
    (make : (raw : String) → min ≤ raw.length ∧ raw.length ≤ max → τ) (raw : String) :
    Except ε τ :=
  match hverdict : WhittleStrings.lenChars min max raw with
  | .ok () => .ok (make raw (WhittleStrings.lenChars_ok.mp hverdict))
  | .error (.charCountOutOfRange actual) => .error (onLength actual)
  | .error .byteLenOutOfRange => absurd (WhittleStrings.lenChars_error hverdict) (by simp)
  | .error .empty => absurd (WhittleStrings.lenChars_error hverdict) (by simp)
  | .error (.badChar _) => absurd (WhittleStrings.lenChars_error hverdict) (by simp)
  | .error .badFirstChar => absurd (WhittleStrings.lenChars_error hverdict) (by simp)
  | .error .badHexLength => absurd (WhittleStrings.lenChars_error hverdict) (by simp)

def TableName.tryNew (raw : String) : Except TableNameError TableName :=
  tryChars 1 maxTableNameLen .length TableName.mk raw

def Pattern.tryNew (raw : String) : Except PatternError Pattern :=
  tryChars 1 maxPatternLen .length Pattern.mk raw

variable {raw : String}

section Chars

variable {τ ε : Type} {min max : Nat} {onLength : Nat → ε}
  {make : (raw : String) → min ≤ raw.length ∧ raw.length ≤ max → τ}

theorem tryChars_eq_ok {t : τ} :
    tryChars min max onLength make raw = .ok t ↔ ∃ hlength, make raw hlength = t := by
  unfold tryChars
  split
  · rename_i hverdict
    have hlength := WhittleStrings.lenChars_ok.mp hverdict
    simp [hlength]
  · rename_i actual hverdict
    obtain ⟨hlength, -⟩ := lenChars_error_iff.mp hverdict
    simp [hlength]
  all_goals
    rename_i hverdict
    exact absurd (WhittleStrings.lenChars_error hverdict) (by simp)

theorem tryChars_eq_error {e : ε} :
    tryChars min max onLength make raw = .error e ↔
      ¬ (min ≤ raw.length ∧ raw.length ≤ max) ∧ e = onLength raw.length := by
  unfold tryChars
  split
  · rename_i hverdict
    have hlength := WhittleStrings.lenChars_ok.mp hverdict
    simp [hlength]
  · rename_i actual hverdict
    obtain ⟨hlength, hactual⟩ := lenChars_error_iff.mp hverdict
    obtain rfl := StringError.charCountOutOfRange.inj hactual
    simp only [hlength, not_false_eq_true, true_and, Except.error.injEq]
    exact eq_comm
  all_goals
    rename_i hverdict
    exact absurd (WhittleStrings.lenChars_error hverdict) (by simp)

end Chars

theorem TableName.tryNew_eq_ok {name : TableName} :
    TableName.tryNew raw = .ok name ↔ name.text = raw := by
  rw [TableName.tryNew, tryChars_eq_ok]
  constructor
  · intro h
    obtain ⟨_, rfl⟩ := h
    rfl
  · intro h
    subst h
    exact ⟨name.len_chars, rfl⟩

theorem Pattern.tryNew_eq_ok {pattern : Pattern} :
    Pattern.tryNew raw = .ok pattern ↔ pattern.text = raw := by
  rw [Pattern.tryNew, tryChars_eq_ok]
  constructor
  · intro h
    obtain ⟨_, rfl⟩ := h
    rfl
  · intro h
    subst h
    exact ⟨pattern.len_chars, rfl⟩

theorem AttributeName.tryNew_eq_ok {name : AttributeName} :
    AttributeName.tryNew raw = .ok name ↔ name.text = raw := by
  have hrejected : ∀ {e}, attributeNameVerdict raw = .error e → name.text ≠ raw := by
    intro e hverdict htext
    have hok : attributeNameVerdict raw = .ok () := attributeNameVerdict_ok_iff.mpr
      (htext ▸ ⟨name.len_chars, name.each_char, name.first_char⟩)
    rw [hok] at hverdict
    exact absurd hverdict (by simp)
  unfold AttributeName.tryNew
  split
  · constructor
    · intro h
      rw [← Except.ok.inj h]
    · intro h
      subst h
      rfl
  · rename_i actual hverdict
    simp [hrejected hverdict]
  · rename_i offset hverdict
    simp [hrejected hverdict]
  · rename_i hverdict
    simp [hrejected hverdict]
  all_goals
    rename_i hverdict
    exact absurd (attributeNameVerdict_error_iff.mp hverdict) (by simp)

/-- A name fails with what its rules report. -/
theorem AttributeName.tryNew_eq_error {e : AttributeNameError} :
    AttributeName.tryNew raw = .error e ↔
      ∃ fault, attributeNameVerdict raw = .error fault ∧ fault.toAttributeName = some e := by
  unfold AttributeName.tryNew
  split
  · rename_i hverdict
    simp [hverdict]
  · rename_i actual hverdict
    simp [hverdict, StringError.toAttributeName]
  · rename_i offset hverdict
    simp [hverdict, StringError.toAttributeName]
  · rename_i hverdict
    simp [hverdict, StringError.toAttributeName]
  all_goals
    rename_i hverdict
    exact absurd (attributeNameVerdict_error_iff.mp hverdict) (by simp)

end Constructors

/-- The characters of a name take up one byte each. -/
theorem utf8Size_of_isIdentChar {c : Char} (h : isIdentChar c = true) : c.utf8Size = 1 := by
  rw [Char.utf8Size_eq_one_iff]
  simp only [isIdentChar, Char.isAlphanum, Char.isAlpha, Char.isUpper, Char.isLower,
    Char.isDigit, Bool.or_eq_true, Bool.and_eq_true, decide_eq_true_eq, beq_iff_eq] at h
  rcases h with ((h | h) | h) | rfl
  · exact UInt32.le_trans h.2 (by decide)
  · exact UInt32.le_trans h.2 (by decide)
  · exact UInt32.le_trans h.2 (by decide)
  · decide

theorem byteLength_of_all {chars : List Char} (h : chars.all isIdentChar = true) :
    byteLength chars = chars.length := by
  induction chars with
  | nil => rfl
  | cons c chars ih =>
      simp only [List.all_cons, Bool.and_eq_true] at h
      have hrest := ih h.2
      rw [byteLength] at hrest
      rw [byteLength, List.map_cons, List.sum_cons, utf8Size_of_isIdentChar h.1, hrest,
        List.length_cons]
      omega

/-- Every constructor of a string type is the inverse of its accessor, and rejects
everything else. A name reports its length first, then the first character that is
not admissible, at an offset that counts characters as well as bytes, and an
inadmissible first character last; the other two types report their length. -/
theorem string_boundaries [WhittleStrings] (raw : String) :
    ((∀ name, AttributeName.tryNew raw = .ok name ↔ name.text = raw) ∧
      ∀ e, AttributeName.tryNew raw = .error e ↔
        (¬ (1 ≤ raw.length ∧ raw.length ≤ maxAttributeNameLen) ∧ e = .length raw.length) ∨
        (1 ≤ raw.length ∧ raw.length ≤ maxAttributeNameLen) ∧
          ((∃ before, FirstBad isIdentChar raw.toList before ∧ e = .bodyChar before.length) ∨
            raw.toList.all isIdentChar = true ∧ ¬ raw.toList.head?.all isIdentStart = true ∧
              e = .firstChar)) ∧
    ((∀ name, TableName.tryNew raw = .ok name ↔ name.text = raw) ∧
      ∀ e, TableName.tryNew raw = .error e ↔
        ¬ (1 ≤ raw.length ∧ raw.length ≤ maxTableNameLen) ∧ e = .length raw.length) ∧
    (∀ pattern, Pattern.tryNew raw = .ok pattern ↔ pattern.text = raw) ∧
      ∀ e, Pattern.tryNew raw = .error e ↔
        ¬ (1 ≤ raw.length ∧ raw.length ≤ maxPatternLen) ∧ e = .length raw.length := by
  refine ⟨⟨fun _ => AttributeName.tryNew_eq_ok, ?_⟩,
    ⟨fun _ => TableName.tryNew_eq_ok, fun _ => tryChars_eq_error⟩,
    fun _ => Pattern.tryNew_eq_ok, fun _ => tryChars_eq_error⟩
  intro e
  rw [AttributeName.tryNew_eq_error]
  constructor
  · intro h
    obtain ⟨fault, hverdict, hreport⟩ := h
    rcases attributeNameVerdict_error_iff.mp hverdict with
      ⟨hlength, rfl⟩ | ⟨hlength, ⟨before, hbad, rfl⟩ | ⟨hall, hfirst, rfl⟩⟩
    · exact Or.inl ⟨hlength, (Option.some.inj hreport).symm⟩
    · have hascii := byteLength_of_all hbad.all_before
      rw [hascii] at hreport
      exact Or.inr ⟨hlength, Or.inl ⟨before, hbad, (Option.some.inj hreport).symm⟩⟩
    · exact Or.inr ⟨hlength, Or.inr ⟨hall, hfirst, (Option.some.inj hreport).symm⟩⟩
  · intro h
    rcases h with ⟨hlength, rfl⟩ | ⟨hlength, ⟨before, hbad, rfl⟩ | ⟨hall, hfirst, rfl⟩⟩
    · exact ⟨_, attributeNameVerdict_error_iff.mpr (Or.inl ⟨hlength, rfl⟩), rfl⟩
    · have hascii := byteLength_of_all hbad.all_before
      refine ⟨_, attributeNameVerdict_error_iff.mpr
        (Or.inr ⟨hlength, Or.inl ⟨before, hbad, rfl⟩⟩), ?_⟩
      rw [hascii]
      rfl
    · exact ⟨_, attributeNameVerdict_error_iff.mpr
        (Or.inr ⟨hlength, Or.inr ⟨hall, hfirst, rfl⟩⟩), rfl⟩

/-- The rules as the kernel's comments and tests describe them. -/
instance (priority := low) WhittleStrings.documented : WhittleStrings where
  lenChars min max raw :=
    ensure (min ≤ raw.length ∧ raw.length ≤ max) (.charCountOutOfRange raw.length)
  eachChar admissible raw :=
    ensure (raw.toList.all admissible = true)
      (.badChar (byteLength (raw.toList.takeWhile admissible)))
  firstChar admissible raw := ensure (raw.toList.head?.all admissible = true) .badFirstChar
  all rules raw := forM rules fun rule => rule raw
  lenChars_ok := ensure_eq_ok _ _ _
  lenChars_error := by
    intro min max raw e h
    exact ((ensure_eq_error _ _ _).mp h).2.symm
  eachChar_ok := ensure_eq_ok _ _ _
  eachChar_error := by
    intro admissible raw e h
    obtain ⟨hbad, rfl⟩ := (ensure_eq_error _ _ _).mp h
    obtain ⟨before, hfirst⟩ := exists_firstBad hbad
    exact ⟨before, hfirst, by rw [hfirst.eq_takeWhile]⟩
  firstChar_ok _ := ensure_eq_ok _ _ _
  firstChar_error := by
    intro admissible raw e _ h
    exact ((ensure_eq_error _ _ _).mp h).2.symm
  all_eq _ _ := rfl

example : AttributeName.tryNew "has-dash" = .error (.bodyChar 3) := by decide

end AxiomCore
