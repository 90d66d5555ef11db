import SpackPlayground.Library.Binary64

/-! Arithmetic on doubles: which results are numbers, and of which sign. -/
namespace SpackPlayground.Library.Double

open Float.Model (UnpackedFloat)
open Float.Model.UnpackedFloat (Sign)
open Binary64

def unpacked (x : Float) : UnpackedFloat := x.toModel.unpack

theorem unpacked_add (x y : Float) :
    unpacked (x + y) = repack (.add spec (unpacked x) (unpacked y)) := rfl

theorem unpacked_sub (x y : Float) :
    unpacked (x - y) = repack (.sub spec (unpacked x) (unpacked y)) := rfl

theorem unpacked_mul (x y : Float) :
    unpacked (x * y) = repack (.mul spec (unpacked x) (unpacked y)) := rfl

theorem unpacked_div (x y : Float) :
    unpacked (x / y) = repack (.div spec (unpacked x) (unpacked y)) := rfl

theorem unpacked_neg (x : Float) : unpacked (-x) = repack (unpacked x).neg := rfl

theorem unpacked_sqrt (x : Float) : unpacked x.sqrt = repack (.sqrt spec (unpacked x)) := rfl

theorem unpacked_zero : unpacked 0 = .zero .positive := by rfl

theorem unpacked_one : unpacked 1 = one := by rfl

theorem canonical_unpacked {x : Float} {s : Sign} {m : Nat} {e : Int} {h : 0 < m}
    (hx : unpacked x = .finite s m e h) : Canonical m e := canonical_unpack hx

theorem lt_iff {x y : Float} : x < y ↔ (unpacked x).compare (unpacked y) = some .lt := by
  apply decide_eq_true_iff.trans
  exact beq_iff_eq

theorem le_iff {x y : Float} : x ≤ y ↔
    (unpacked x).compare (unpacked y) = some .lt ∨
      (unpacked x).compare (unpacked y) = some .eq := by
  apply decide_eq_true_iff.trans
  change ((unpacked x).compare (unpacked y)).any (·.isLE) = true ↔ _
  cases (unpacked x).compare (unpacked y) with
  | none => simp
  | some order => cases order <;> simp

theorem beq_iff {x y : Float} : (x == y) = true ↔
    (unpacked x).compare (unpacked y) = some .eq := by
  change ((unpacked x).compare (unpacked y) == some .eq) = true ↔ _
  exact beq_iff_eq

theorem isNaN_iff {x : Float} : x.isNaN = true ↔ unpacked x = .notANumber := by
  change (unpacked x).isNaN = true ↔ _
  cases unpacked x with
  | notANumber => exact iff_of_true rfl rfl
  | zero s => exact iff_of_false Bool.false_ne_true (fun h => by cases h)
  | infinity s => exact iff_of_false Bool.false_ne_true (fun h => by cases h)
  | finite s m e h => exact iff_of_false Bool.false_ne_true (fun h => by cases h)

theorem isFinite_iff {x : Float} : x.isFinite = true ↔
    (∃ s, unpacked x = .zero s) ∨ ∃ s m e h, unpacked x = .finite s m e h := by
  change (unpacked x).isFinite = true ↔ _
  generalize unpacked x = u
  constructor
  · intro hfinite
    cases u with
    | notANumber => cases hfinite
    | infinity s => cases hfinite
    | zero s => exact .inl ⟨s, rfl⟩
    | finite s m e h => exact .inr ⟨s, m, e, h, rfl⟩
  · rintro (⟨s, rfl⟩ | ⟨s, m, e, h, rfl⟩) <;> rfl

theorem beq_zero_iff {x : Float} : (x == 0) = true ↔ ∃ s, unpacked x = .zero s := by
  rw [beq_iff, unpacked_zero, compare_eq_eq_iff]
  constructor
  · rintro (⟨hzero, _⟩ | ⟨s, _, hzero, _⟩)
    · exact ⟨.positive, hzero⟩
    · exact ⟨s, hzero⟩
  · rintro ⟨s, hzero⟩
    exact .inr ⟨s, .positive, hzero, rfl⟩

theorem zero_lt_iff {x : Float} : 0 < x ↔
    unpacked x = .infinity .positive ∨ ∃ m e h, unpacked x = .finite .positive m e h := by
  rw [lt_iff, unpacked_zero]
  exact zero_compare_eq_lt_iff

theorem lt_zero_iff {x : Float} : x < 0 ↔
    unpacked x = .infinity .negative ∨ ∃ m e h, unpacked x = .finite .negative m e h := by
  rw [lt_iff, unpacked_zero]
  exact compare_zero_eq_lt_iff

theorem le_iff_lt_or_beq {x y : Float} : x ≤ y ↔ x < y ∨ x == y := by
  rw [le_iff, lt_iff, beq_iff]

private theorem zero_beq_iff {x : Float} : (0 == x) = true ↔ ∃ s, unpacked x = .zero s := by
  rw [beq_iff, unpacked_zero, compare_eq_eq_iff]
  constructor
  · rintro (⟨hzero, _⟩ | ⟨_, s, _, hzero⟩)
    · exact ⟨.positive, hzero.symm⟩
    · exact ⟨s, hzero⟩
  · rintro ⟨s, hzero⟩
    exact .inr ⟨.positive, s, rfl, hzero⟩

theorem zero_le_iff {x : Float} :
    0 ≤ x ↔ unpacked x = .zero .negative ∨ Signed .positive (unpacked x) := by
  rw [le_iff_lt_or_beq, zero_lt_iff, zero_beq_iff]
  constructor
  · rintro (hpositive | ⟨s, hzero⟩)
    · exact .inr (.inr hpositive)
    · cases s with
      | negative => exact .inl hzero
      | positive => exact .inr (.inl hzero)
  · rintro (hzero | hzero | hpositive)
    · exact .inr ⟨_, hzero⟩
    · exact .inr ⟨_, hzero⟩
    · exact .inl hpositive

theorem le_zero_iff {x : Float} :
    x ≤ 0 ↔ unpacked x = .zero .positive ∨ Signed .negative (unpacked x) := by
  rw [le_iff_lt_or_beq, lt_zero_iff, beq_zero_iff]
  constructor
  · rintro (hnegative | ⟨s, hzero⟩)
    · exact .inr (.inr hnegative)
    · cases s with
      | negative => exact .inr (.inl hzero)
      | positive => exact .inl hzero
  · rintro (hzero | hzero | hnegative)
    · exact .inr ⟨_, hzero⟩
    · exact .inr ⟨_, hzero⟩
    · exact .inl hnegative

theorem not_isNaN_of_signed {s : Sign} {x : Float} (hx : Signed s (unpacked x)) : ¬x.isNaN := by
  rw [isNaN_iff]
  exact hx.ne_notANumber

theorem not_isNaN_of_zero_le {x : Float} (hx : 0 ≤ x) : ¬x.isNaN := by
  cases zero_le_iff.mp hx with
  | inl hzero => exact not_isNaN_of_signed (.inl hzero)
  | inr hpositive => exact not_isNaN_of_signed hpositive

theorem not_isNaN_of_le_zero {x : Float} (hx : x ≤ 0) : ¬x.isNaN := by
  cases le_zero_iff.mp hx with
  | inl hzero => exact not_isNaN_of_signed (.inl hzero)
  | inr hnegative => exact not_isNaN_of_signed hnegative

theorem not_lt_zero {x : Float} (hx : 0 ≤ x) : ¬x < 0 := by
  rw [lt_zero_iff]
  intro hnegative
  obtain hzero | hpositive := zero_le_iff.mp hx
  · rw [hzero] at hnegative
    obtain h | ⟨_, _, _, h⟩ := hnegative <;> cases h
  · cases hpositive.unique (.inr hnegative)

theorem exists_signed {x : Float} (hx : ¬x.isNaN) : ∃ s, Signed s (unpacked x) := by
  rw [isNaN_iff] at hx
  unfold Signed
  cases hunpacked : unpacked x with
  | notANumber => exact absurd hunpacked hx
  | zero s => exact ⟨s, .inl rfl⟩
  | infinity s => exact ⟨s, .inr (.inl rfl)⟩
  | finite s m e h => exact ⟨s, .inr (.inr ⟨m, e, h, rfl⟩)⟩

theorem signed_of_isFinite {x : Float} (hx : x.isFinite) :
    ∃ s, Signed s (unpacked x) ∧ unpacked x ≠ .infinity s := by
  obtain ⟨s, hzero⟩ | ⟨s, m, e, h, hfinite⟩ := isFinite_iff.mp hx
  · exact ⟨s, .inl hzero, fun h => by cases hzero.symm.trans h⟩
  · exact ⟨s, .inr (.inr ⟨m, e, h, hfinite⟩), fun h => by cases hfinite.symm.trans h⟩

theorem not_isNaN_of_isFinite {x : Float} (hx : x.isFinite) : ¬x.isNaN := by
  obtain ⟨s, hsigned, _⟩ := signed_of_isFinite hx
  exact not_isNaN_of_signed hsigned

section NaN

variable {x y : Float}

theorem isNaN_of_operand {op : UnpackedFloat → UnpackedFloat → UnpackedFloat} {z : Float}
    (hz : unpacked z = repack (op (unpacked x) (unpacked y)))
    (hleft : ∀ v, op .notANumber v = .notANumber) (hright : ∀ u, op u .notANumber = .notANumber)
    (h : x.isNaN ∨ y.isNaN) : z.isNaN := by
  rw [isNaN_iff, isNaN_iff] at h
  rw [isNaN_iff, hz]
  cases h with
  | inl hx =>
      rw [hx, hleft]
      exact repack_notANumber
  | inr hy =>
      rw [hy, hright]
      exact repack_notANumber

theorem isNaN_add (h : x.isNaN ∨ y.isNaN) : (x + y).isNaN :=
  isNaN_of_operand (unpacked_add x y) (fun _ => rfl) (fun u => by cases u <;> rfl) h

theorem isNaN_sub (h : x.isNaN ∨ y.isNaN) : (x - y).isNaN :=
  isNaN_of_operand (unpacked_sub x y) (fun _ => rfl) (fun u => by cases u <;> rfl) h

theorem isNaN_mul (h : x.isNaN ∨ y.isNaN) : (x * y).isNaN :=
  isNaN_of_operand (unpacked_mul x y) (fun _ => rfl) (fun u => by cases u <;> rfl) h

theorem isNaN_div (h : x.isNaN ∨ y.isNaN) : (x / y).isNaN :=
  isNaN_of_operand (unpacked_div x y) (fun _ => rfl) (fun u => by cases u <;> rfl) h

theorem signed_neg {s : Sign} (hx : Signed s (unpacked x)) : Signed (-s) (unpacked (-x)) := by
  rw [unpacked_neg]
  apply Signed.repack
  obtain hzero | hinfinity | ⟨m, e, h, hfinite⟩ := hx
  · rw [hzero]
    exact .inl rfl
  · rw [hinfinity]
    exact .inr (.inl rfl)
  · rw [hfinite]
    exact .inr (.inr ⟨m, e, h, rfl⟩)

theorem isNaN_neg : (-x).isNaN = x.isNaN := by
  rw [Bool.eq_iff_iff]
  constructor
  · intro hneg
    by_cases hx : x.isNaN = true
    · exact hx
    · obtain ⟨s, hs⟩ := exists_signed hx
      exact absurd hneg (not_isNaN_of_signed (signed_neg hs))
  · intro hx
    rw [isNaN_iff] at hx ⊢
    rw [unpacked_neg, hx]
    exact repack_notANumber

theorem isNaN_sqrt_iff : x.sqrt.isNaN ↔ ¬0 ≤ x := by
  have hsigned (hx : Signed .positive (unpacked x)) : Signed .positive (unpacked x.sqrt) := by
    rw [unpacked_sqrt]
    apply Signed.repack
    obtain hzero | hinfinity | ⟨m, e, h, hfinite⟩ := hx
    · rw [hzero]
      exact .inl rfl
    · rw [hinfinity]
      exact .inr (.inl rfl)
    · rw [hfinite]
      exact signed_roundWithAccuracy ..
  rw [zero_le_iff]
  constructor
  · rintro hsqrt (hzero | hx)
    · rw [isNaN_iff, unpacked_sqrt, hzero] at hsqrt
      cases (repack_zero .negative).symm.trans hsqrt
    · exact not_isNaN_of_signed (hsigned hx) hsqrt
  · intro hx
    rw [isNaN_iff, unpacked_sqrt]
    cases hunpacked : unpacked x with
    | notANumber => exact repack_notANumber
    | zero s =>
        cases s with
        | negative => exact absurd (.inl hunpacked) hx
        | positive => exact absurd (.inr (.inl hunpacked)) hx
    | infinity s =>
        cases s with
        | negative => exact repack_notANumber
        | positive => exact absurd (.inr (.inr (.inl hunpacked))) hx
    | finite s m e h =>
        cases s with
        | negative => exact repack_notANumber
        | positive => exact absurd (.inr (.inr (.inr ⟨m, e, h, hunpacked⟩))) hx

end NaN

section Signs

variable {s t : Sign} {x y : Float}

theorem signed_mul_finite {m : Nat} {e : Int} {h : 0 < m} (hx : Signed s (unpacked x))
    (hy : unpacked y = .finite t m e h) : Signed (s * t) (unpacked (x * y)) := by
  rw [unpacked_mul, hy]
  apply Signed.repack
  obtain hzero | hinfinity | ⟨m', e', h', hfinite⟩ := hx
  · rw [hzero]
    exact .inl rfl
  · rw [hinfinity]
    exact .inr (.inl rfl)
  · rw [hfinite]
    exact signed_roundWithAccuracy ..

theorem signed_finite_mul {m : Nat} {e : Int} {h : 0 < m} (hx : unpacked x = .finite s m e h)
    (hy : Signed t (unpacked y)) : Signed (s * t) (unpacked (x * y)) := by
  rw [unpacked_mul, hx]
  apply Signed.repack
  obtain hzero | hinfinity | ⟨m', e', h', hfinite⟩ := hy
  · rw [hzero]
    exact .inl rfl
  · rw [hinfinity]
    exact .inr (.inl rfl)
  · rw [hfinite]
    exact signed_roundWithAccuracy ..

private theorem unpacked_neg_finite {m : Nat} {e : Int} {h : 0 < m}
    (hx : unpacked x = .finite s m e h) :
    unpacked (-x) = .finite (-s) m e h := by
  rw [unpacked_neg, hx]
  exact (canonical_unpacked hx).repack (-s) h

theorem signed_finite_add {m : Nat} {e : Int} {h : 0 < m} (hx : unpacked x = .finite s m e h)
    (hy : Signed s (unpacked y)) : Signed s (unpacked (x + y)) := by
  rw [unpacked_add, hx]
  apply Signed.repack
  obtain hzero | hinfinity | ⟨m', e', h', hfinite⟩ := hy
  · rw [hzero]
    exact .inr (.inr ⟨m, e, h, rfl⟩)
  · rw [hinfinity]
    exact .inr (.inl rfl)
  · rw [hfinite]
    exact signed_add_finite h h'

section Cubic

variable {a b : Float} {m₁ m₂ : Nat} {e₁ e₂ : Int} {h₁ : 0 < m₁} {h₂ : 0 < m₂}
  (ha : unpacked a = .finite .positive m₁ e₁ h₁) (hb : unpacked b = .finite .positive m₂ e₂ h₂)

include ha hb

private theorem cubic_zero (hy : unpacked y = .zero s) :
    unpacked (-y * (a + b * y * y)) = .zero (-s) := by
  have hby : unpacked (b * y) = .zero s := by
    rw [unpacked_mul, hb, hy]
    cases s <;> exact repack_zero _
  have hsquare : unpacked (b * y * y) = .zero .positive := by
    rw [unpacked_mul, hby, hy]
    cases s <;> exact repack_zero _
  have hsum : unpacked (a + b * y * y) = .finite .positive m₁ e₁ h₁ := by
    rw [unpacked_add, ha, hsquare]
    exact (canonical_unpacked ha).repack _ h₁
  rw [unpacked_mul, hsum, unpacked_neg, hy]
  cases s <;> exact repack_zero _

private theorem cubic_infinity (hy : unpacked y = .infinity s) :
    unpacked (-y * (a + b * y * y)) = .infinity (-s) := by
  have hby : unpacked (b * y) = .infinity s := by
    rw [unpacked_mul, hb, hy]
    cases s <;> exact repack_infinity _
  have hsquare : unpacked (b * y * y) = .infinity .positive := by
    rw [unpacked_mul, hby, hy]
    cases s <;> exact repack_infinity _
  have hsum : unpacked (a + b * y * y) = .infinity .positive := by
    rw [unpacked_add, ha, hsquare]
    exact repack_infinity .positive
  rw [unpacked_mul, hsum, unpacked_neg, hy]
  cases s <;> exact repack_infinity _

theorem signed_cubic (hy : Signed s (unpacked y)) :
    Signed (-s) (unpacked (-y * (a + b * y * y))) := by
  obtain hzero | hinfinity | ⟨m, e, h, hfinite⟩ := hy
  · exact .inl (cubic_zero ha hb hzero)
  · exact .inr (.inl (cubic_infinity ha hb hinfinity))
  · have hpositive : s * s = .positive := by cases s <;> rfl
    have hleft : .positive * s = s := by cases s <;> rfl
    have hright : -s * .positive = -s := by cases s <;> rfl
    have hby : Signed (.positive * s) (unpacked (b * y)) :=
      signed_finite_mul hb (.inr (.inr ⟨m, e, h, hfinite⟩))
    have hsquare := signed_mul_finite hby hfinite
    rw [hleft, hpositive] at hsquare
    have hproduct := signed_finite_mul (unpacked_neg_finite hfinite) (signed_finite_add ha hsquare)
    rwa [hright] at hproduct

theorem not_isNaN_cubic (hy : ¬y.isNaN) : ¬(-y * (a + b * y * y)).isNaN := by
  obtain ⟨s, hsigned⟩ := exists_signed hy
  exact not_isNaN_of_signed (signed_cubic ha hb hsigned)

theorem cubic_le_zero (hy : 0 ≤ y) : -y * (a + b * y * y) ≤ 0 := by
  rw [zero_le_iff] at hy
  rw [le_zero_iff]
  exact hy.imp (cubic_zero ha hb) (signed_cubic ha hb)

end Cubic

end Signs

section Quotients

variable {s : Sign} {x y : Float}

theorem unpacked_zero_div (hx : unpacked x = .zero s) (hy : 0 < y) :
    unpacked (x / y) = .zero s := by
  have hsign : s / .positive = s := by cases s <;> rfl
  rw [unpacked_div, hx]
  obtain hy | ⟨m, e, h, hy⟩ := zero_lt_iff.mp hy
  · rw [hy]
    exact (repack_zero _).trans (congrArg _ hsign)
  · rw [hy]
    exact (repack_zero _).trans (congrArg _ hsign)

theorem signed_div (hx : x.isFinite) (hsigned : Signed s (unpacked x)) (hy : 0 < y) :
    Signed s (unpacked (x / y)) := by
  have hsign : s / .positive = s := by cases s <;> rfl
  obtain ⟨r, hr, hnot⟩ := signed_of_isFinite hx
  obtain rfl : r = s := hr.unique hsigned
  obtain hzero | hinfinity | ⟨m, e, h, hfinite⟩ := hsigned
  · exact .inl (unpacked_zero_div hzero hy)
  · exact absurd hinfinity hnot
  · rw [unpacked_div, hfinite]
    apply Signed.repack
    obtain hy | ⟨m', e', h', hy⟩ := zero_lt_iff.mp hy
    · rw [hy]
      exact .inl (congrArg _ hsign)
    · rw [hy, div_finite, hsign]
      exact signed_roundWithAccuracy ..

theorem not_isNaN_div (hx : x.isFinite) (hy : 0 < y) : ¬(x / y).isNaN := by
  obtain ⟨s, hsigned⟩ := exists_signed (not_isNaN_of_isFinite hx)
  exact not_isNaN_of_signed (signed_div hx hsigned hy)

theorem not_isFinite_div_zero (hy : unpacked y = .zero s) : ¬(x / y).isFinite := by
  intro hfinite
  obtain ⟨r, hsigned, hnot⟩ := signed_of_isFinite hfinite
  rw [unpacked_div, hy] at hsigned hnot
  generalize unpacked x = u at hsigned hnot
  cases u with
  | notANumber => exact hsigned.ne_notANumber repack_notANumber
  | zero t => exact hsigned.ne_notANumber repack_notANumber
  | infinity t =>
      have hinfinity := repack_infinity (t / s)
      rw [hsigned.unique (.inr (.inl hinfinity))] at hnot
      exact hnot hinfinity
  | finite t m e h =>
      have hinfinity := repack_infinity (t / s)
      rw [hsigned.unique (.inr (.inl hinfinity))] at hnot
      exact hnot hinfinity

theorem zero_le_div (hx : x.isFinite) (hle : 0 ≤ x) (hy : 0 < y) : 0 ≤ x / y := by
  rw [zero_le_iff] at hle ⊢
  exact hle.imp (unpacked_zero_div · hy) (signed_div hx · hy)

theorem zero_lt_of_not_lt_one (hnan : ¬x.isNaN) (hone : ¬x < 1) : 0 < x := by
  rw [lt_iff, unpacked_one] at hone
  rw [zero_lt_iff]
  rw [isNaN_iff] at hnan
  cases hx : unpacked x with
  | notANumber => exact absurd hx hnan
  | zero s =>
      rw [hx] at hone
      exact absurd rfl hone
  | infinity s =>
      cases s with
      | positive => exact .inl rfl
      | negative =>
          rw [hx] at hone
          exact absurd rfl hone
  | finite s m e h =>
      cases s with
      | positive => exact .inr ⟨m, e, h, rfl⟩
      | negative =>
          rw [hx] at hone
          exact absurd rfl hone

end Quotients

section Differences

variable {x y : Float}

private theorem sub_infinity (u : UnpackedFloat) :
    UnpackedFloat.sub spec u (.infinity .positive) = .notANumber ∨
      UnpackedFloat.sub spec u (.infinity .positive) = .infinity .negative := by
  cases u with
  | infinity s =>
      cases s with
      | negative => exact .inr rfl
      | positive => exact .inl rfl
  | notANumber => exact .inl rfl
  | zero s => exact .inr rfl
  | finite s m e h => exact .inr rfl

theorem zero_le_sub (hx : x.isFinite) (hy : y.isFinite) (hnotLess : ¬x < y) : 0 ≤ x - y := by
  rw [lt_iff] at hnotLess
  rw [zero_le_iff, unpacked_sub]
  obtain ⟨s, hx⟩ | ⟨s, m, e, h, hx⟩ := isFinite_iff.mp hx
  · obtain ⟨t, hy⟩ | ⟨t, m', e', h', hy⟩ := isFinite_iff.mp hy
    · rw [hx, hy]
      obtain ⟨r, hzero⟩ := zero_sub_zero s t
      rw [hzero, repack_zero]
      cases r with
      | negative => exact .inl rfl
      | positive => exact .inr (.inl rfl)
    · rw [hx, hy] at hnotLess ⊢
      cases t with
      | positive => exact absurd rfl hnotLess
      | negative => exact .inr (Signed.repack (.inr (.inr ⟨m', e', h', rfl⟩)))
  · obtain ⟨t, hy⟩ | ⟨t, m', e', h', hy⟩ := isFinite_iff.mp hy
    · rw [hx, hy] at hnotLess ⊢
      cases s with
      | positive => exact .inr (Signed.repack (.inr (.inr ⟨m, e, h, rfl⟩)))
      | negative => exact absurd rfl hnotLess
    · rw [hx, hy] at hnotLess ⊢
      exact .inr (signed_sub_finite h h' (canonical_unpacked hx) (canonical_unpacked hy)
        hnotLess).repack

theorem isFinite_of_atMost {s : Sign} {k : Int} (hx : AtMost s k (unpacked x)) : x.isFinite := by
  rw [isFinite_iff]
  obtain hzero | ⟨m, e, h, hfinite, _⟩ := hx
  · exact .inl ⟨s, hzero⟩
  · exact .inr ⟨s, m, e, h, hfinite⟩

theorem isFinite_sub {s t : Sign} {k : Int} (hx : AtMost s k (unpacked x))
    (hy : AtMost t k (unpacked y)) (hlow : -1022 ≤ k) (hhigh : k ≤ 969) : (x - y).isFinite := by
  obtain ⟨r, hdifference⟩ := atMost_sub hx hy (by omega)
  exact isFinite_of_atMost (hdifference.repack (by omega) (by omega))

/-- What a variance that is not negative says of the mean `x`. -/
theorem atMost_of_zero_le_sub_mul_self (hle : 0 ≤ y - x * x) :
    ∃ s, AtMost s 700 (unpacked x) := by
  have hsquare : unpacked (x * x) ≠ .infinity .positive := by
    intro hinfinity
    obtain ⟨hnotNaN, hnotNegative⟩ := And.intro (not_isNaN_of_zero_le hle) (not_lt_zero hle)
    rw [isNaN_iff, unpacked_sub, hinfinity] at hnotNaN
    rw [lt_zero_iff, unpacked_sub, hinfinity] at hnotNegative
    obtain hdifference | hdifference := sub_infinity (unpacked y)
    · rw [hdifference] at hnotNaN
      exact hnotNaN repack_notANumber
    · rw [hdifference] at hnotNegative
      exact hnotNegative (.inl (repack_infinity .negative))
  cases hx : unpacked x with
  | notANumber =>
      have hnan : (y - x * x).isNaN := isNaN_sub (.inr (isNaN_mul (.inl (isNaN_iff.mpr hx))))
      exact absurd hnan (not_isNaN_of_zero_le hle)
  | zero s => exact ⟨s, .inl rfl⟩
  | infinity s =>
      refine (hsquare ?_).elim
      rw [unpacked_mul, hx]
      cases s <;> exact repack_infinity .positive
  | finite s m e h =>
      have hcanonical := canonical_unpacked hx
      have hmantissa := hcanonical.mantissa
      have he : e < 600 := by
        by_cases hlarge : 600 ≤ e
        · have hnormal := hcanonical.normal
          refine (hsquare ?_).elim
          rw [unpacked_mul, hx]
          exact repack_mul_self h (by omega) hlarge
        · omega
      refine ⟨s, .inr ⟨m, e, h, rfl, by omega, ?_⟩⟩
      apply Nat.le_trans (Nat.le_of_lt hmantissa)
      apply Nat.pow_le_pow_right Nat.two_pos
      omega

end Differences

section Logistic

variable {x : Float}

private theorem one_add (hx : 0 ≤ x) : unpacked (1 + x) = .infinity .positive ∨
    Normal .positive (-52) 971 (unpacked (1 + x)) := by
  have hone : Normal .positive (-52) 971 one :=
    ⟨_, _, _, rfl, Nat.le_refl _, by decide, by decide, by decide⟩
  rw [unpacked_add, unpacked_one]
  obtain hzero | hzero | hinfinity | ⟨m, e, h, hfinite⟩ := zero_le_iff.mp hx
  · rw [hzero]
    exact .inr (hone.repack (by decide) (by decide))
  · rw [hzero]
    exact .inr (hone.repack (by decide) (by decide))
  · rw [hinfinity]
    exact .inl (repack_infinity .positive)
  · rw [hfinite]
    obtain ⟨hi, hnormal⟩ := normal_one_add (e := e) h
    exact hnormal.repack_or_overflow (by decide)

theorem zero_lt_one_add (hx : 0 ≤ x) : 0 < 1 + x := by
  rw [zero_lt_iff]
  exact (one_add hx).imp id fun ⟨m, e, h, hfinite, _⟩ => ⟨m, e, h, hfinite⟩

theorem atMost_one_div_one_add (hx : 0 ≤ x) : AtMost .positive 0 (unpacked (1 / (1 + x))) := by
  rw [unpacked_div, unpacked_one]
  apply AtMost.repack _ (by decide) (by decide)
  obtain hinfinity | ⟨m, e, h, hfinite, hlow, hhigh, hmin, hmax⟩ := one_add hx
  · rw [hinfinity]
    exact .inl rfl
  · have hcanonical : Canonical m e := ⟨hhigh, by omega, hmax, .inl hlow⟩
    rw [hfinite]
    by_cases hone : m = 2 ^ 52 ∧ e = -52
    · obtain ⟨rfl, rfl⟩ := hone
      have hquotient := div_one (s := .positive) h hcanonical
      exact .inr ⟨_, _, _, hquotient, by decide, by decide⟩
    · exact atMost_one_div h hcanonical hlow hmin (by omega)

theorem zero_le_one_sub (hx : 0 ≤ x) : 0 ≤ 1 - 1 / (1 + x) := by
  rw [zero_le_iff, unpacked_sub, unpacked_one]
  exact .inr (signed_one_sub (atMost_one_div_one_add hx)).repack

theorem zero_le_div_one_add (hx : 0 ≤ x) (hfinite : x.isFinite) : 0 ≤ x / (1 + x) :=
  zero_le_div hfinite hx (zero_lt_one_add hx)

end Logistic

/-- The same double, whatever the sign of a zero. -/
def Same (x y : Float) : Prop := x == y ∨ x.isNaN ∧ y.isNaN

instance (x y : Float) : Decidable (Same x y) := inferInstanceAs (Decidable (_ ∨ _))

section Same

variable {x y : Float}

theorem same_iff : Same x y ↔ unpacked x = unpacked y ∨
    ∃ s t, unpacked x = .zero s ∧ unpacked y = .zero t := by
  unfold Same
  rw [beq_iff, isNaN_iff, isNaN_iff, compare_eq_eq_iff]
  constructor
  · rintro ((⟨hsame, _⟩ | hzero) | ⟨hx, hy⟩)
    · exact .inl hsame
    · exact .inr hzero
    · exact .inl (hx.trans hy.symm)
  · rintro (hsame | hzero)
    · by_cases hnan : unpacked x = .notANumber
      · exact .inr ⟨hnan, hsame.symm.trans hnan⟩
      · exact .inl (.inl ⟨hsame, hnan⟩)
    · exact .inl (.inr hzero)

theorem same_refl (x : Float) : Same x x := same_iff.mpr (.inl rfl)

/-- An operation that cannot tell the two zeros apart, but for the sign of its own zero. -/
theorem Same.of_operand {op : UnpackedFloat → UnpackedFloat → UnpackedFloat} {z w : Float}
    {v : UnpackedFloat} (hsame : Same x y) (hz : unpacked z = repack (op (unpacked x) v))
    (hw : unpacked w = repack (op (unpacked y) v))
    (hzero : ∀ s t, op (.zero s) v = op (.zero t) v ∨
      ∃ r₁ r₂, op (.zero s) v = .zero r₁ ∧ op (.zero t) v = .zero r₂) : Same z w := by
  rw [same_iff] at hsame ⊢
  rw [hz, hw]
  obtain hsame | ⟨s, t, hx, hy⟩ := hsame
  · rw [hsame]
    exact .inl rfl
  · rw [hx, hy]
    obtain heq | ⟨r₁, r₂, h₁, h₂⟩ := hzero s t
    · exact .inl (congrArg repack heq)
    · rw [h₁, h₂]
      exact .inr ⟨r₁, r₂, repack_zero r₁, repack_zero r₂⟩

theorem Same.add_right (hsame : Same x y) (d : Float) : Same (x + d) (y + d) := by
  apply hsame.of_operand (unpacked_add x d) (unpacked_add y d)
  intro s t
  cases unpacked d with
  | zero r =>
      obtain ⟨r₁, h₁⟩ := zero_add_zero s r
      obtain ⟨r₂, h₂⟩ := zero_add_zero t r
      exact .inr ⟨r₁, r₂, h₁, h₂⟩
  | _ => exact .inl rfl

theorem Same.sub_right (hsame : Same x y) (d : Float) : Same (x - d) (y - d) := by
  apply hsame.of_operand (unpacked_sub x d) (unpacked_sub y d)
  intro s t
  cases unpacked d with
  | zero r =>
      obtain ⟨r₁, h₁⟩ := zero_sub_zero s r
      obtain ⟨r₂, h₂⟩ := zero_sub_zero t r
      exact .inr ⟨r₁, r₂, h₁, h₂⟩
  | _ => exact .inl rfl

theorem Same.div_right (hsame : Same x y) (d : Float) : Same (x / d) (y / d) := by
  apply hsame.of_operand (unpacked_div x d) (unpacked_div y d)
  intro s t
  cases unpacked d with
  | notANumber => exact .inl rfl
  | zero r => exact .inl rfl
  | infinity r => exact .inr ⟨_, _, rfl, rfl⟩
  | finite r m e h => exact .inr ⟨_, _, rfl, rfl⟩

theorem Same.mul_self (hsame : Same x y) : x * x = y * y := by
  have hmul (x : Float) : x * x = .ofModel (.pack (.mul spec (unpacked x) (unpacked x))) := rfl
  rw [hmul, hmul]
  obtain hsame | ⟨s, t, hx, hy⟩ := same_iff.mp hsame
  · rw [hsame]
  · rw [hx, hy]
    cases s <;> cases t <;> rfl

end Same

/-- A zero, or not a number: what has no quotient by zero. -/
def ZeroOrNaN (x : Float) : Prop := x == 0 ∨ x.isNaN

section ZeroOrNaN

variable {x : Float}

theorem zeroOrNaN_iff : ZeroOrNaN x ↔ (∃ s, unpacked x = .zero s) ∨ unpacked x = .notANumber :=
  or_congr beq_zero_iff isNaN_iff

theorem ZeroOrNaN.add_sub (hzeroOrNaN : ZeroOrNaN x) (d : Float) : ZeroOrNaN (x + d - d) := by
  rw [zeroOrNaN_iff] at hzeroOrNaN ⊢
  rw [unpacked_sub, unpacked_add]
  obtain ⟨s, hx⟩ | hx := hzeroOrNaN
  · rw [hx]
    cases hd : unpacked d with
    | notANumber =>
        have hnan := isNaN_sub (.inr (isNaN_iff.mpr hd)) (x := x + d)
        rw [isNaN_iff, unpacked_sub, unpacked_add, hx, hd] at hnan
        exact .inr hnan
    | zero r =>
        obtain ⟨r₁, h₁⟩ := zero_add_zero s r
        obtain ⟨r₂, h₂⟩ := zero_sub_zero r₁ r
        rw [h₁, repack_zero, h₂]
        exact .inl ⟨r₂, repack_zero _⟩
    | infinity r =>
        have hsum : repack (.add spec (.zero s) (.infinity r)) = .infinity r := repack_infinity r
        rw [hsum]
        cases r <;> exact .inr repack_notANumber
    | finite r m e h =>
        have hsum : repack (.add spec (.zero s) (.finite r m e h)) = .finite r m e h :=
          (canonical_unpacked hd).repack r h
        rw [hsum, sub_finite, Int.sub_self]
        exact .inl ⟨_, repack_zero _⟩
  · have hnan := isNaN_sub (y := d) (.inl (isNaN_add (y := d) (.inl (isNaN_iff.mpr hx))))
    exact .inr (isNaN_iff.mp hnan)

theorem zeroOrNaN_iff_isNaN_div {y : Float} {s : Sign} (hy : unpacked y = .zero s) :
    ZeroOrNaN x ↔ (x / y).isNaN := by
  rw [zeroOrNaN_iff, isNaN_iff, unpacked_div, hy]
  have hnot (r : Sign) : repack (.infinity (r / s)) ≠ .notANumber := by
    rw [repack_infinity]
    exact fun h => by cases h
  constructor
  · rintro (⟨r, hx⟩ | hx)
    · rw [hx]
      exact repack_notANumber
    · rw [hx]
      exact repack_notANumber
  · intro hnan
    cases hx : unpacked x with
    | notANumber => exact .inr rfl
    | zero r => exact .inl ⟨r, rfl⟩
    | infinity r =>
        rw [hx] at hnan
        exact absurd hnan (hnot r)
    | finite r m e h =>
        rw [hx] at hnan
        exact absurd hnan (hnot r)

end ZeroOrNaN

theorem repack_unpacked (x : Float) : repack (unpacked x) = unpacked x := by
  cases hx : unpacked x with
  | notANumber => exact repack_notANumber
  | zero s => exact repack_zero s
  | infinity s => exact repack_infinity s
  | finite s m e h => exact (canonical_unpacked hx).repack s h

section Neutral

variable {x y : Float} {r : Sign} (hx : ∀ s, unpacked x ≠ .zero s)

include hx

theorem unpacked_add_zero (hy : unpacked y = .zero r) : unpacked (x + y) = unpacked x := by
  have hsum : UnpackedFloat.add spec (unpacked x) (.zero r) = unpacked x := by
    cases hunpacked : unpacked x with
    | zero s => exact absurd hunpacked (hx s)
    | _ => rfl
  rw [unpacked_add, hy, hsum]
  exact repack_unpacked x

theorem unpacked_sub_zero (hy : unpacked y = .zero r) : unpacked (x - y) = unpacked x := by
  have hdifference : UnpackedFloat.sub spec (unpacked x) (.zero r) = unpacked x := by
    cases hunpacked : unpacked x with
    | zero s => exact absurd hunpacked (hx s)
    | _ => rfl
  rw [unpacked_sub, hy, hdifference]
  exact repack_unpacked x

theorem unpacked_div_one (hy : unpacked y = one) : unpacked (x / y) = unpacked x := by
  have hquotient : UnpackedFloat.div spec (unpacked x) one = unpacked x := by
    cases hunpacked : unpacked x with
    | notANumber => rfl
    | zero s => exact absurd hunpacked (hx s)
    | infinity s => cases s <;> rfl
    | finite s m e h => exact div_one h (canonical_unpacked hunpacked)
  rw [unpacked_div, hy, hquotient]
  exact repack_unpacked x

end Neutral

section Zero

variable {x y : Float}

theorem zero_beq_zero : ((0 : Float) == 0) = true := beq_zero_iff.mpr ⟨_, unpacked_zero⟩

theorem Same.beq_zero (hsame : Same x y) (hy : y == 0) : x == 0 := by
  rw [beq_zero_iff] at hy ⊢
  obtain ⟨s, hy⟩ := hy
  obtain hsame | ⟨t, _, hx, _⟩ := same_iff.mp hsame
  · exact ⟨s, hsame.trans hy⟩
  · exact ⟨t, hx⟩

theorem Same.isNaN (hsame : Same x y) (hy : y.isNaN) : x.isNaN := by
  rw [isNaN_iff] at hy ⊢
  obtain hsame | ⟨_, t, _, hzero⟩ := same_iff.mp hsame
  · exact hsame.trans hy
  · cases hzero.symm.trans hy

theorem same_of_zero (hx : x == 0) (hy : y == 0) : Same x y := by
  rw [beq_zero_iff] at hx hy
  obtain ⟨s, hx⟩ := hx
  obtain ⟨t, hy⟩ := hy
  exact same_iff.mpr (.inr ⟨s, t, hx, hy⟩)

theorem beq_zero_mul_self (hx : x == 0) : x * x == 0 := by
  rw [beq_zero_iff] at hx ⊢
  obtain ⟨s, hx⟩ := hx
  rw [unpacked_mul, hx]
  exact ⟨_, repack_zero _⟩

theorem add_beq_zero_iff (hy : y == 0) : (x + y == 0) = true ↔ (x == 0) = true := by
  simp only [beq_zero_iff] at hy ⊢
  obtain ⟨r, hy⟩ := hy
  by_cases hx : ∃ s, unpacked x = .zero s
  · apply iff_of_true _ hx
    obtain ⟨s, hx⟩ := hx
    obtain ⟨t, hsum⟩ := zero_add_zero s r
    rw [unpacked_add, hx, hy, hsum]
    exact ⟨t, repack_zero t⟩
  · rw [unpacked_add_zero (not_exists.mp hx) hy]

theorem sub_beq_zero_iff (hy : y == 0) : (x - y == 0) = true ↔ (x == 0) = true := by
  simp only [beq_zero_iff] at hy ⊢
  obtain ⟨r, hy⟩ := hy
  by_cases hx : ∃ s, unpacked x = .zero s
  · apply iff_of_true _ hx
    obtain ⟨s, hx⟩ := hx
    obtain ⟨t, hdifference⟩ := zero_sub_zero s r
    rw [unpacked_sub, hx, hy, hdifference]
    exact ⟨t, repack_zero t⟩
  · rw [unpacked_sub_zero (not_exists.mp hx) hy]

theorem div_beq_zero_iff (hy : unpacked y = one) : (x / y == 0) = true ↔ (x == 0) = true := by
  simp only [beq_zero_iff]
  by_cases hx : ∃ s, unpacked x = .zero s
  · apply iff_of_true _ hx
    obtain ⟨s, hx⟩ := hx
    rw [unpacked_div, hx, hy]
    exact ⟨_, repack_zero _⟩
  · rw [unpacked_div_one (not_exists.mp hx) hy]

theorem zeroOrNaN_of_add_sub (hy : y == 0) (hzeroOrNaN : ZeroOrNaN (x + y - y)) : ZeroOrNaN x := by
  by_cases hx : x == 0
  · exact .inl hx
  · rw [beq_zero_iff] at hx hy
    obtain ⟨r, hy⟩ := hy
    have hsum := unpacked_add_zero (not_exists.mp hx) hy
    have hdifference := unpacked_sub_zero (hsum ▸ not_exists.mp hx) hy
    rw [zeroOrNaN_iff, hdifference, hsum] at hzeroOrNaN
    exact zeroOrNaN_iff.mpr hzeroOrNaN

theorem add_eq_of_zero {d : Float} (hx : x == 0) (hy : y == 0)
    (hd : unpacked d ≠ .zero .negative) : x + d = y + d := by
  have hadd (x : Float) : x + d = .ofModel (.pack (.add spec (unpacked x) (unpacked d))) := rfl
  rw [beq_zero_iff] at hx hy
  obtain ⟨s, hx⟩ := hx
  obtain ⟨t, hy⟩ := hy
  rw [hadd, hadd, hx, hy]
  cases hunpacked : unpacked d with
  | zero r =>
      cases r with
      | negative => exact absurd hunpacked hd
      | positive => cases s <;> cases t <;> rfl
  | _ => rfl

theorem div_eq_of_zero {z : Float} {s : Sign} (hx : x == 0) (hy : y == 0)
    (hz : unpacked z = .zero s) : x / z = y / z := by
  have hdiv (x : Float) : x / z = .ofModel (.pack (.div spec (unpacked x) (unpacked z))) := rfl
  rw [beq_zero_iff] at hx hy
  obtain ⟨r, hx⟩ := hx
  obtain ⟨t, hy⟩ := hy
  rw [hdiv, hdiv, hx, hy, hz]
  rfl

theorem mul_self_ne_negative_zero (x : Float) : unpacked (x * x) ≠ .zero .negative := by
  have hnot {u : UnpackedFloat} (hu : Signed .positive u) : u ≠ .zero .negative := by
    intro hzero
    cases hu.unique (.inl hzero)
  rw [unpacked_mul]
  cases unpacked x with
  | notANumber =>
      intro hzero
      cases repack_notANumber.symm.trans hzero
  | zero s => cases s <;> exact hnot (.inl (repack_zero .positive))
  | infinity s => cases s <;> exact hnot (.inr (.inl (repack_infinity .positive)))
  | finite s m e h => cases s <;> exact hnot (signed_roundWithAccuracy .positive ..).repack

end Zero

end SpackPlayground.Library.Double
