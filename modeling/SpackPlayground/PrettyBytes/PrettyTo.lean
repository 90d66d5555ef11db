import Mathlib.Data.Nat.ModEq
import SpackPlayground.PrettyBytes.Grammar

/-! `prettyTo<uint64_t, BASE>`. -/
namespace SpackPlayground.PrettyBytes

open Library.Regex

def power (p : Nat) (x : UInt64) : UInt64 :=
  if p = 0 then 1
  else if p = 1 then x
  else
    let tmp := power (p / 2) x
    if p % 2 = 0 then tmp * tmp else x * tmp * tmp
termination_by p

def readDecimal (digits : List Char) : Nat :=
  digits.foldl (fun n c => 10 * n + (c.toNat - '0'.toNat)) 0

/-- `iss >> result`: a number that does not fit becomes the largest that does,
and the failure of the stream goes unnoticed. -/
def extract (digits : List Char) : UInt64 :=
  if readDecimal digits < 2 ^ 64 then .ofNat (readDecimal digits) else .ofNat (2 ^ 64 - 1)

inductive Exception where
  | invalidArgument (what : List Char)
  | runtimeError (what : List Char)
  deriving DecidableEq

def prettyTo (base : UInt64) (pretty : List Char) : Except Exception UInt64 :=
  match regexMatch pattern pretty with
  | none => .error (.invalidArgument ("Invalid Argument: ".toList ++ pretty))
  | some m =>
      let result := extract (m.text 1)
      let suffix := m.text 2
      if suffix.length = 0 then .ok result
      else if suffix = ['K'] then .ok (result * base)
      else if suffix = ['M'] then .ok (result * power 2 base)
      else if suffix = ['G'] then .ok (result * power 3 base)
      else if suffix = ['T'] then .ok (result * power 4 base)
      else if suffix = ['P'] then .ok (result * power 5 base)
      else .error (.runtimeError "must not reach here.".toList)

theorem toNat_power (p : Nat) (x : UInt64) : (power p x).toNat = x.toNat ^ p % 2 ^ 64 := by
  induction p using Nat.strongRecOn with
  | ind p ih =>
      unfold power
      split
      · rename_i hzero
        subst hzero
        rfl
      · split
        · rename_i hone
          subst hone
          rw [pow_one]
          exact (Nat.mod_eq_of_lt x.toNat_lt).symm
        · have hhalf := ih (p / 2) (by omega)
          dsimp only
          split
          · have hp : p = p / 2 + p / 2 := by omega
            rw [UInt64.toNat_mul, hhalf, ← Nat.mul_mod, ← pow_add, ← hp]
          · have htmp := Nat.mod_modEq (x.toNat ^ (p / 2)) (2 ^ 64)
            have hproduct := (Nat.mod_modEq _ _).trans ((Nat.ModEq.refl x.toNat).mul htmp)
            have hpow : x.toNat ^ p = x.toNat * x.toNat ^ (p / 2) * x.toNat ^ (p / 2) := by
              rw [← pow_succ', ← pow_add]
              congr 1
              omega
            rw [UInt64.toNat_mul, UInt64.toNat_mul, hhalf, hpow]
            exact hproduct.mul htmp

private theorem toNat_extract {digits : List Char} (hfits : readDecimal digits < 2 ^ 64) :
    (extract digits).toNat = readDecimal digits := by
  unfold extract
  rw [if_pos hfits]
  exact UInt64.toNat_ofNat_of_lt' hfits

/-- The factor of a suffix, as the code computes it. -/
def factor (base : UInt64) : Option Suffix → UInt64
  | none => 1
  | some .K => base
  | some .M => power 2 base
  | some .G => power 3 base
  | some .T => power 4 base
  | some .P => power 5 base

theorem prettyTo_text (base : UInt64) (p : Pretty) :
    prettyTo base p.text = .ok (extract p.digits * factor base p.suffix) := by
  unfold prettyTo
  rw [regexMatch_text]
  obtain ⟨digits, hne, hdecimal, suffix⟩ := p
  cases suffix with
  | none => exact congrArg Except.ok (UInt64.mul_one (extract digits)).symm
  | some suffix => cases suffix <;> rfl

private theorem toNat_factor (base : UInt64) (p : Pretty) :
    (factor base p.suffix).toNat = base.toNat ^ p.rank % 2 ^ 64 := by
  unfold Pretty.rank
  cases p.suffix with
  | none => rfl
  | some suffix =>
      cases suffix with
      | K =>
          change base.toNat = base.toNat ^ 1 % 2 ^ 64
          rw [pow_one]
          exact (Nat.mod_eq_of_lt base.toNat_lt).symm
      | _ => exact toNat_power _ base

theorem prettyTo_eq_invalidArgument {base : UInt64} {s : List Char}
    (hs : ¬ ∃ p : Pretty, s = p.text) :
    prettyTo base s = .error (.invalidArgument ("Invalid Argument: ".toList ++ s)) := by
  unfold prettyTo
  rw [regexMatch_eq_none hs]

def Pretty.value (base : Nat) (p : Pretty) : Nat := readDecimal p.digits * base ^ p.rank

theorem toNat_result (base : UInt64) (p : Pretty) (hfits : readDecimal p.digits < 2 ^ 64) :
    (extract p.digits * factor base p.suffix).toNat = p.value base.toNat % 2 ^ 64 := by
  rw [UInt64.toNat_mul, toNat_extract hfits, toNat_factor, Nat.mul_mod_mod]
  rfl

/-- `prettyTo` accepts its grammar, and scales modulo `2 ^ 64`. -/
theorem prettyTo_grammar (base : UInt64) (s : List Char) :
    ((∃ what, prettyTo base s = .error (.invalidArgument what)) ↔ ¬ ∃ p : Pretty, s = p.text) ∧
      (∀ what, prettyTo base s ≠ .error (.runtimeError what)) ∧
      (∀ p : Pretty, s = p.text → readDecimal p.digits < 2 ^ 64 →
        ∃ result, prettyTo base s = .ok result ∧
          result.toNat ≡ readDecimal p.digits * base.toNat ^ p.rank [MOD 2 ^ 64]) ∧
      ∀ (p : Nat) (x : UInt64), (power p x).toNat ≡ x.toNat ^ p [MOD 2 ^ 64] := by
  have hpower (p : Nat) (x : UInt64) : (power p x).toNat ≡ x.toNat ^ p [MOD 2 ^ 64] := by
    rw [toNat_power]
    exact Nat.mod_modEq _ _
  by_cases hs : ∃ p : Pretty, s = p.text
  · obtain ⟨p, rfl⟩ := hs
    rw [prettyTo_text]
    refine ⟨?_, by simp, ?_, hpower⟩
    · exact iff_of_false (by simp) (not_not_intro ⟨p, rfl⟩)
    · intro q htext hfits
      rw [Pretty.text_inj htext] at *
      apply Exists.intro _
      apply And.intro rfl
      rw [toNat_result base q hfits]
      exact Nat.mod_modEq _ _
  · rw [prettyTo_eq_invalidArgument hs]
    refine ⟨iff_of_true ⟨_, rfl⟩ hs, by simp, ?_, hpower⟩
    intro p htext
    exact absurd ⟨p, htext⟩ hs

/-- What `prettyTo<uint64_t>` returns is the value; a value that does not fit
raises an exception. -/
def ExactOrFails (s : List Char) : Prop :=
  (∀ result, prettyTo 1024 s = .ok result →
    ∃ p : Pretty, s = p.text ∧ result.toNat = p.value 1024) ∧
  ∀ p : Pretty, s = p.text → 2 ^ 64 ≤ p.value 1024 → ∃ failure, prettyTo 1024 s = .error failure

theorem ExactOrFails.value_lt {p : Pretty} (hexact : ExactOrFails p.text) :
    p.value 1024 < 2 ^ 64 := by
  by_contra hlarge
  obtain ⟨failure, hfailure⟩ := hexact.2 p rfl (Nat.le_of_not_lt hlarge)
  rw [prettyTo_text] at hfailure
  cases hfailure

/-- When `prettyTo<uint64_t>` is exact or fails. -/
theorem exactOrFails_iff (s : List Char) :
    ExactOrFails s ↔ ∀ p : Pretty, s = p.text → p.value 1024 < 2 ^ 64 := by
  constructor
  · intro hexact p htext
    rw [htext] at hexact
    exact hexact.value_lt
  · intro hfits
    constructor
    · intro result hresult
      by_cases hs : ∃ p : Pretty, s = p.text
      · obtain ⟨p, rfl⟩ := hs
        apply Exists.intro p
        apply And.intro rfl
        have hvalue := hfits p rfl
        have hdigits : readDecimal p.digits < 2 ^ 64 := by
          apply Nat.lt_of_le_of_lt _ hvalue
          exact Nat.le_mul_of_pos_right _ (Nat.pow_pos (by decide))
        rw [prettyTo_text] at hresult
        cases hresult
        rw [toNat_result 1024 p hdigits]
        exact Nat.mod_eq_of_lt hvalue
      · rw [prettyTo_eq_invalidArgument hs] at hresult
        cases hresult
    · intro p htext hlarge
      exact absurd (hfits p htext) (Nat.not_lt_of_le hlarge)

/-- `2 ^ 64`, which becomes zero. -/
theorem not_exactOrFails_wrapped : ¬ ExactOrFails "16777216T".toList := by
  let p : Pretty := ⟨"16777216".toList, by decide, by simp, some .T⟩
  have htext : "16777216T".toList = p.text := by decide
  rw [htext]
  intro hexact
  exact absurd hexact.value_lt (by decide)

end SpackPlayground.PrettyBytes
