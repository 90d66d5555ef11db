import SpackPlayground.Library.Regex

/-! The grammar of `pretty_bytes`, and the regular expression that decides it. -/
namespace SpackPlayground.PrettyBytes

open Library.Regex

inductive Suffix where
  | K | M | G | T | P
  deriving DecidableEq

def Suffix.letter : Suffix → Char
  | .K => 'K'
  | .M => 'M'
  | .G => 'G'
  | .T => 'T'
  | .P => 'P'

def Suffix.rank : Suffix → Nat
  | .K => 1
  | .M => 2
  | .G => 3
  | .T => 4
  | .P => 5

theorem Suffix.letter_not_digit (suffix : Suffix) : suffix.letter.isDigit = false := by
  cases suffix <;> rfl

theorem Suffix.letter_inj {a b : Suffix} (heq : a.letter = b.letter) : a = b := by
  cases a <;> cases b <;> first | rfl | exact absurd heq (by decide)

structure Pretty where
  digits : List Char
  nonempty : digits ≠ []
  decimal : ∀ c ∈ digits, c.isDigit = true
  suffix : Option Suffix

namespace Pretty

def letters (p : Pretty) : List Char := p.suffix.toList.map Suffix.letter

def text (p : Pretty) : List Char := p.digits ++ p.letters

def rank (p : Pretty) : Nat := (p.suffix.map Suffix.rank).getD 0

theorem takeWhile_text (p : Pretty) : p.text.takeWhile Char.isDigit = p.digits := by
  unfold text letters
  rw [List.takeWhile_append_of_pos p.decimal]
  cases p.suffix with
  | none => simp
  | some suffix => simp [suffix.letter_not_digit]

private theorem letters_inj {p q : Pretty} (heq : p.letters = q.letters) : p.suffix = q.suffix := by
  unfold letters at heq
  cases hp : p.suffix <;> cases hq : q.suffix <;> simp only [hp, hq] at heq
  · rfl
  · simp at heq
  · simp at heq
  · rw [Suffix.letter_inj (List.singleton_inj.mp heq)]

theorem text_inj {p q : Pretty} (heq : p.text = q.text) : p = q := by
  have hdigits : p.digits = q.digits := by
    rw [← takeWhile_text p, heq, takeWhile_text]
  have hletters : p.letters = q.letters := by
    unfold text at heq
    rw [hdigits] at heq
    exact List.append_cancel_left heq
  have hsuffix := letters_inj hletters
  cases p
  cases q
  simp only at hdigits hsuffix
  subst hdigits hsuffix
  rfl

end Pretty

def literal (c : Char) : Pattern Char := .item fun x => x = c

/-- `K|M|G|T|P`. -/
def suffixPattern : Pattern Char :=
  .alt (literal 'K') (.alt (literal 'M') (.alt (literal 'G') (.alt (literal 'T') (literal 'P'))))

/-- `(\d+)(K|M|G|T|P)?`. -/
def pattern : Pattern Char :=
  .seq (.group 1 (.plus (.item Char.isDigit))) (.opt (.group 2 suffixPattern))

def Pretty.captures (p : Pretty) : Captures Char :=
  (1, p.digits) :: p.suffix.toList.map fun suffix => (2, [suffix.letter])

private theorem matches_literal {c : Char} {s : List Char} {captures : Captures Char} :
    Matches (literal c) s captures ↔ s = [c] ∧ captures = [] := by
  unfold literal
  rw [matches_item]
  simp

private theorem matches_suffixPattern {s : List Char} {captures : Captures Char} :
    Matches suffixPattern s captures ↔ ∃ suffix : Suffix, s = [suffix.letter] ∧ captures = [] := by
  unfold suffixPattern
  simp only [matches_alt, matches_literal]
  constructor
  · intro hmatch
    obtain hmatch | hmatch | hmatch | hmatch | hmatch := hmatch
    · exact ⟨.K, hmatch⟩
    · exact ⟨.M, hmatch⟩
    · exact ⟨.G, hmatch⟩
    · exact ⟨.T, hmatch⟩
    · exact ⟨.P, hmatch⟩
  · intro hsuffix
    obtain ⟨suffix, hmatch⟩ := hsuffix
    cases suffix <;> simp only [Suffix.letter] at hmatch <;> simp [hmatch]

theorem matches_pattern {s : List Char} {captures : Captures Char} :
    Matches pattern s captures ↔ ∃ p : Pretty, s = p.text ∧ captures = p.captures := by
  unfold pattern
  simp only [matches_seq, matches_group, matches_opt, matches_plus_item, matches_suffixPattern]
  constructor
  · intro hmatch
    obtain ⟨digits, letters, _, after, ⟨_, ⟨hne, hdigits, rfl⟩, rfl⟩, hsuffix, rfl, rfl⟩ := hmatch
    cases hsuffix with
    | inl habsent =>
        obtain ⟨rfl, rfl⟩ := habsent
        exact ⟨⟨digits, hne, hdigits, none⟩, rfl, rfl⟩
    | inr hpresent =>
        obtain ⟨_, ⟨suffix, rfl, rfl⟩, rfl⟩ := hpresent
        exact ⟨⟨digits, hne, hdigits, some suffix⟩, rfl, rfl⟩
  · intro hpretty
    obtain ⟨⟨digits, hne, hdigits, suffix⟩, rfl, rfl⟩ := hpretty
    refine ⟨digits, _, [(1, digits)], _, ⟨[], ⟨hne, hdigits, rfl⟩, rfl⟩, ?_, rfl, rfl⟩
    cases suffix with
    | none => exact .inl ⟨rfl, rfl⟩
    | some suffix => exact .inr ⟨[], ⟨suffix, rfl, rfl⟩, rfl⟩

theorem regexMatch_text (p : Pretty) : regexMatch pattern p.text = some p.captures := by
  have hmatches : Matches pattern p.text p.captures := matches_pattern.mpr ⟨p, rfl, rfl⟩
  cases hmatch : regexMatch pattern p.text with
  | none => exact absurd hmatches (not_matches_of_regexMatch hmatch _)
  | some captures =>
      obtain ⟨q, htext, rfl⟩ := matches_pattern.mp (matches_of_regexMatch hmatch)
      rw [Pretty.text_inj htext]

theorem regexMatch_eq_none {s : List Char} (hs : ¬ ∃ p : Pretty, s = p.text) :
    regexMatch pattern s = none := by
  cases hmatch : regexMatch pattern s with
  | none => rfl
  | some captures =>
      obtain ⟨p, htext, _⟩ := matches_pattern.mp (matches_of_regexMatch hmatch)
      exact absurd ⟨p, htext⟩ hs

end SpackPlayground.PrettyBytes
