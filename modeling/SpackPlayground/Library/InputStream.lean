import Mathlib.Data.List.TakeWhile
import Mathlib.Algebra.Order.Group.Int

/-! Formatted extraction from a stream of characters, and the texts that it reads. -/
namespace SpackPlayground.Library

/-- What is left of an input, and whether an extraction has failed. -/
structure InputStream where
  rest : List Char
  failed : Bool
  deriving DecidableEq

def intMin : Int := -2 ^ 31

def intMax : Int := 2 ^ 31 - 1

def line (text : List Char) : List Char := text ++ ['\n']

namespace InputStream

/-- `isspace` in the C locale. -/
def isSpace (c : Char) : Bool := c = ' ' || ('\t' ≤ c && c ≤ '\r')

/-- Skips white space; no extraction goes on behind the end of the input. -/
def sentry (s : InputStream) : InputStream :=
  if s.failed then s
  else ⟨s.rest.dropWhile isSpace, (s.rest.dropWhile isSpace).isEmpty⟩

/-- A word; where there is none the string stays as it was. -/
def extractString (s : InputStream) : Option (List Char) × InputStream :=
  let s := s.sentry
  if s.failed then (none, s)
  else (some (s.rest.takeWhile fun c => !isSpace c), ⟨s.rest.dropWhile fun c => !isSpace c, false⟩)

def sign : List Char → Bool × List Char
  | '-' :: text => (true, text)
  | '+' :: text => (false, text)
  | text => (false, text)

/-- A number between `lo` and `hi`, in decimal. What is no number is stored as 0 and
what is out of range as the bound, and both fail. -/
def extractInt (lo hi : Int) (s : InputStream) : Option Int × InputStream :=
  let s := s.sentry
  if s.failed then (none, s)
  else
    let digits := (sign s.rest).2.takeWhile Char.isDigit
    let rest := (sign s.rest).2.dropWhile Char.isDigit
    let magnitude : Int := Nat.ofDigitChars 10 digits 0
    let value := if (sign s.rest).1 then -magnitude else magnitude
    if digits = [] then (some 0, ⟨rest, true⟩)
    else if value < lo then (some lo, ⟨rest, true⟩)
    else if hi < value then (some hi, ⟨rest, true⟩)
    else (some value, ⟨rest, false⟩)

def spell (value : Int) : List Char :=
  if value < 0 then '-' :: Nat.toDigits 10 value.natAbs else Nat.toDigits 10 value.natAbs

def Separated (text : List Char) : Prop := ∀ c ∈ text.head?, isSpace c = true

def IsWord (word : List Char) : Prop := word ≠ [] ∧ ∀ c ∈ word, isSpace c = false

inductive Words : List (List Char) → List Char → Prop where
  | nil {gap : List Char} : (∀ c ∈ gap, isSpace c = true) → Words [] gap
  | cons {gap word rest : List Char} {words : List (List Char)} :
      (∀ c ∈ gap, isSpace c = true) → IsWord word → Separated rest → Words words rest →
      Words (word :: words) (gap ++ (word ++ rest))

section Scanning

variable {p : Char → Bool} {front back : List Char}

theorem takeWhile_append_stop (hfront : ∀ c ∈ front, p c = true)
    (hback : ∀ c ∈ back.head?, p c = false) : (front ++ back).takeWhile p = front := by
  rw [List.takeWhile_append_of_pos hfront]
  cases back with
  | nil => exact List.append_nil front
  | cons c back =>
      rw [List.takeWhile_cons_of_neg (Bool.eq_false_iff.mp (hback c rfl)), List.append_nil]

theorem dropWhile_append_stop (hfront : ∀ c ∈ front, p c = true)
    (hback : ∀ c ∈ back.head?, p c = false) : (front ++ back).dropWhile p = back := by
  rw [List.dropWhile_append_of_pos hfront]
  cases back with
  | nil => rfl
  | cons c back => exact List.dropWhile_cons_of_neg (Bool.eq_false_iff.mp (hback c rfl))

end Scanning

section Extraction

variable {s : InputStream} {gap word rest text : List Char} {words : List (List Char)}
  {lo hi value : Int}

private theorem sentry_gap (hgap : ∀ c ∈ gap, isSpace c = true) :
    sentry ⟨gap, false⟩ = ⟨[], true⟩ := by
  have hdrop : gap.dropWhile isSpace = [] := List.dropWhile_eq_nil_iff.mpr hgap
  simp only [sentry, hdrop, Bool.false_eq_true, if_false, List.isEmpty_nil]

theorem sentry_word (hgap : ∀ c ∈ gap, isSpace c = true) (hword : IsWord word) :
    sentry ⟨gap ++ (word ++ rest), false⟩ = ⟨word ++ rest, false⟩ := by
  obtain ⟨hne, hspace⟩ := hword
  obtain ⟨c, word, rfl⟩ := List.exists_cons_of_ne_nil hne
  have hdrop : (gap ++ (c :: word ++ rest)).dropWhile isSpace = c :: word ++ rest := by
    apply dropWhile_append_stop hgap
    rintro _ ⟨⟩
    exact hspace c List.mem_cons_self
  simp only [sentry, hdrop, Bool.false_eq_true, if_false]
  rfl

private theorem extractString_word (hgap : ∀ c ∈ gap, isSpace c = true) (hword : IsWord word)
    (hrest : Separated rest) :
    extractString ⟨gap ++ (word ++ rest), false⟩ = (some word, ⟨rest, false⟩) := by
  have hfront : ∀ c ∈ word, (!isSpace c) = true := fun c hc => by rw [hword.2 c hc]; rfl
  have hback : ∀ c ∈ rest.head?, (!isSpace c) = false := fun c hc => by rw [hrest c hc]; rfl
  simp only [extractString, sentry_word hgap hword, Bool.false_eq_true, if_false,
    takeWhile_append_stop hfront hback, dropWhile_append_stop hfront hback]

theorem isSpace_of_isDigit {c : Char} (hc : c.isDigit = true) : isSpace c = false := by
  simp only [Char.isDigit, Bool.and_eq_true, decide_eq_true_eq, ge_iff_le,
    UInt32.le_iff_toNat_le] at hc
  have hle : ¬ c ≤ '\r' := by
    rw [Char.le_def, UInt32.le_iff_toNat_le]
    change ¬ c.val.toNat ≤ 13
    change 48 ≤ c.val.toNat ∧ _ at hc
    omega
  have hne : c ≠ ' ' := by
    rintro rfl
    exact absurd hc (by decide)
  simp only [isSpace, decide_eq_false hne, decide_eq_false hle, Bool.and_false, Bool.or_false]

theorem isDigit_toDigits (n : Nat) : ∀ c ∈ Nat.toDigits 10 n, c.isDigit = true :=
  fun _ hc => Nat.isDigit_of_mem_toDigits (by decide) (by decide) hc

theorem isWord_spell (value : Int) : IsWord (spell value) := by
  have hdigits : ∀ c ∈ Nat.toDigits 10 value.natAbs, isSpace c = false :=
    fun c hc => isSpace_of_isDigit (isDigit_toDigits _ c hc)
  unfold spell
  split
  · refine ⟨List.cons_ne_nil _ _, fun c hc => ?_⟩
    cases List.mem_cons.mp hc with
    | inl heq =>
        rw [heq]
        decide
    | inr hmem => exact hdigits c hmem
  · exact ⟨Nat.toDigits_ne_nil, hdigits⟩

private theorem sign_of_digit {c : Char} (hc : c.isDigit = true) (text : List Char) :
    sign (c :: text) = (false, c :: text) := by
  unfold sign
  split
  · rename_i heq
    cases heq
    cases hc
  · rename_i heq
    cases heq
    cases hc
  · rfl

theorem sign_spell (value : Int) (rest : List Char) : sign (spell value ++ rest) =
    (decide (value < 0), Nat.toDigits 10 value.natAbs ++ rest) := by
  unfold spell
  split
  · rename_i hneg
    rw [decide_eq_true hneg]
    rfl
  · rename_i hpos
    rw [decide_eq_false hpos]
    obtain ⟨c, digits, hdigits⟩ := List.exists_cons_of_ne_nil
      (Nat.toDigits_ne_nil : Nat.toDigits 10 value.natAbs ≠ [])
    have hc : c.isDigit = true := isDigit_toDigits _ c (hdigits ▸ List.mem_cons_self)
    rw [hdigits]
    exact sign_of_digit hc _

theorem extractInt_spell (hgap : ∀ c ∈ gap, isSpace c = true) (hrest : Separated rest) :
    extractInt lo hi ⟨gap ++ (spell value ++ rest), false⟩ =
      if value < lo then (some lo, ⟨rest, true⟩)
      else if hi < value then (some hi, ⟨rest, true⟩) else (some value, ⟨rest, false⟩) := by
  have hfront := isDigit_toDigits value.natAbs
  have hback : ∀ c ∈ rest.head?, c.isDigit = false := by
    intro c hc
    by_contra hdigit
    have hspace := isSpace_of_isDigit (Bool.eq_true_of_not_eq_false hdigit)
    rw [hrest c hc] at hspace
    cases hspace
  have hvalue : (if value < 0 then -(value.natAbs : Int) else value.natAbs) = value := by
    split <;> omega
  simp only [extractInt, sentry_word hgap (isWord_spell value), Bool.false_eq_true, if_false,
    sign_spell, takeWhile_append_stop hfront hback, dropWhile_append_stop hfront hback,
    Nat.ofDigitChars_ten_toDigits, decide_eq_true_eq, hvalue, Nat.toDigits_ne_nil]

theorem extractString_failed (hfailed : s.failed = true) : s.extractString = (none, s) := by
  simp only [extractString, sentry, hfailed, if_true]

theorem length_sentry_le (s : InputStream) : s.sentry.rest.length ≤ s.rest.length := by
  unfold sentry
  split
  · exact le_rfl
  · exact List.length_dropWhile_le _ _

private theorem sentry_cons (hfailed : s.sentry.failed = false) :
    ∃ c text, s.sentry.rest = c :: text ∧ isSpace c = false := by
  unfold sentry at hfailed ⊢
  split at hfailed
  · rename_i hbefore
    rw [hbefore] at hfailed
    cases hfailed
  · rename_i hbefore
    rw [if_neg hbefore]
    dsimp only at hfailed ⊢
    cases hdrop : s.rest.dropWhile isSpace with
    | nil =>
        rw [hdrop] at hfailed
        cases hfailed
    | cons c text =>
        have hhead := List.head?_dropWhile_not isSpace s.rest
        rw [hdrop] at hhead
        exact ⟨c, text, rfl, hhead⟩

theorem Words.extractString_nil (hwords : Words [] text) :
    extractString ⟨text, false⟩ = (none, ⟨[], true⟩) := by
  cases hwords with
  | nil hgap => simp only [extractString, sentry_gap hgap, if_true]

theorem Words.extractString_cons (hwords : Words (word :: words) text) :
    ∃ rest, extractString ⟨text, false⟩ = (some word, ⟨rest, false⟩) ∧ Words words rest := by
  cases hwords with
  | cons hgap hword hrest hmore => exact ⟨_, extractString_word hgap hword hrest, hmore⟩

theorem Words.extractInt_cons (hwords : Words (spell value :: words) text) (hlo : lo ≤ value)
    (hhi : value ≤ hi) :
    ∃ rest, extractInt lo hi ⟨text, false⟩ = (some value, ⟨rest, false⟩) ∧ Words words rest := by
  cases hwords with
  | cons hgap hword hrest hmore =>
      refine ⟨_, ?_, hmore⟩
      rw [extractInt_spell hgap hrest, if_neg (not_lt.mpr hlo), if_neg (not_lt.mpr hhi)]

theorem Words.extractInt_out (hwords : Words (spell value :: words) text)
    (hout : ¬ (lo ≤ value ∧ value ≤ hi)) :
    ∃ bound rest, extractInt lo hi ⟨text, false⟩ = (some bound, ⟨rest, true⟩) := by
  cases hwords with
  | cons hgap hword hrest hmore =>
      rw [extractInt_spell hgap hrest]
      by_cases hlo : value < lo
      · exact ⟨lo, _, if_pos hlo⟩
      · have hhi : hi < value := not_le.mp fun hle => hout ⟨not_lt.mp hlo, hle⟩
        exact ⟨hi, _, by rw [if_neg hlo, if_pos hhi]⟩

theorem length_extractString (hword : s.extractString.1 = some word) :
    s.extractString.2.rest.length < s.rest.length := by
  have hle := s.length_sentry_le
  unfold extractString at hword ⊢
  cases hfailed : s.sentry.failed with
  | true => simp [hfailed] at hword
  | false =>
      obtain ⟨c, text, hrest, hc⟩ := sentry_cons hfailed
      have hfirst : (c :: text).dropWhile (fun c => !isSpace c) =
          text.dropWhile fun c => !isSpace c := List.dropWhile_cons_of_pos (by rw [hc]; rfl)
      have hdrop := List.length_dropWhile_le (fun c => !isSpace c) text
      rw [hrest, List.length_cons] at hle
      simp only [hfailed, Bool.false_eq_true, if_false, hrest, hfirst]
      omega

theorem length_extractString_le (s : InputStream) :
    s.extractString.2.rest.length ≤ s.rest.length := by
  have hle := s.length_sentry_le
  unfold extractString
  dsimp only
  split
  · exact hle
  · exact (List.length_dropWhile_le _ _).trans hle

private theorem length_sign_le (text : List Char) : (sign text).2.length ≤ text.length := by
  unfold sign
  split
  · exact Nat.le_succ _
  · exact Nat.le_succ _
  · exact le_rfl

theorem length_extractInt_le (lo hi : Int) (s : InputStream) :
    (s.extractInt lo hi).2.rest.length ≤ s.rest.length := by
  have hle := s.length_sentry_le
  have hdrop := List.length_dropWhile_le Char.isDigit (sign s.sentry.rest).2
  have hrest := (hdrop.trans (length_sign_le _)).trans hle
  unfold extractInt
  dsimp only
  split_ifs
  · exact hle
  all_goals exact hrest

end Extraction

end InputStream

end SpackPlayground.Library
