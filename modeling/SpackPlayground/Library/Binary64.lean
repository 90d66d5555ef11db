import Mathlib.Algebra.Group.Nat.Defs

/-! Rounding to binary64, and what packing into 64 bits keeps of an unpacked number. -/
namespace SpackPlayground.Library.Binary64

open Float.Model (Format UnpackedFloat totalExponent)
open Float.Model.UnpackedFloat

abbrev spec : Format := .binary64

private theorem targetExponent_eq (m : Nat) (e : Int) :
    spec.targetExponent (totalExponent m e) = max (m.log2 + e - 52) (-1074) := by
  change max ((m.log2 : Int) + 1 + e - 53) (-1074) = _
  congr 1
  omega

section Shift

private theorem mantissa_shiftRight (em : ExtendedMantissa) (k : Nat) :
    (em >>> k).mantissa = em.mantissa / 2 ^ k := by
  induction k with
  | zero => exact (Nat.div_one _).symm
  | succ k ih =>
      have hstep : (em >>> (k + 1)).mantissa = (em >>> k).mantissa / 2 := rfl
      rw [hstep, ih, Nat.div_div_eq_div_mul, Nat.pow_succ]

private theorem mantissa_ofMantissaAndAccuracy (m : Nat) (accuracy : Accuracy) :
    (ExtendedMantissa.ofMantissaAndAccuracy m accuracy).mantissa = m := by
  cases accuracy with
  | exact => rfl
  | inexact half => cases half <;> rfl

private theorem le_roundedMantissa (em : ExtendedMantissa) : em.mantissa ≤ em.roundedMantissa := by
  obtain ⟨m, roundBit, stickyBit⟩ := em
  cases roundBit <;> cases stickyBit <;>
    simp only [ExtendedMantissa.roundedMantissa, ExtendedMantissa.accuracy,
      Accuracy.roundToNearestEven] <;> omega

private theorem roundedMantissa_le (em : ExtendedMantissa) :
    em.roundedMantissa ≤ em.mantissa + 1 := by
  obtain ⟨m, roundBit, stickyBit⟩ := em
  cases roundBit <;> cases stickyBit <;>
    simp only [ExtendedMantissa.roundedMantissa, ExtendedMantissa.accuracy,
      Accuracy.roundToNearestEven] <;> omega

end Shift

theorem finite_eq {s : Sign} {m m' : Nat} {e e' : Int} {h : 0 < m} {h' : 0 < m'} (hm : m = m')
    (he : e = e') : UnpackedFloat.finite s m e h = .finite s m' e' h' := by
  subst hm he
  rfl

/-- How many bits of the mantissa are dropped. -/
def dropped (m : Nat) (e : Int) : Nat := (max (m.log2 + e - 52) (-1074) - e).toNat

/-- How many zeros `round` appends to a short mantissa. -/
def appended (m : Nat) (e : Int) : Nat := (e - max (m.log2 + e - 52) (-1074)).toNat

def rounded (m : Nat) (e : Int) (accuracy : Accuracy) : Nat :=
  (ExtendedMantissa.ofMantissaAndAccuracy m accuracy >>> dropped m e).roundedMantissa

section Rounded

variable (m : Nat) (e : Int) (accuracy : Accuracy)

private theorem shiftToTargetExponent_eq : shiftToTargetExponent spec m e accuracy =
    (ExtendedMantissa.ofMantissaAndAccuracy m accuracy >>> dropped m e, e + dropped m e) := by
  unfold shiftToTargetExponent dropped
  rw [targetExponent_eq]
  rfl

theorem le_rounded : m / 2 ^ dropped m e ≤ rounded m e accuracy := by
  have hle := le_roundedMantissa (ExtendedMantissa.ofMantissaAndAccuracy m accuracy >>> dropped m e)
  rwa [mantissa_shiftRight, mantissa_ofMantissaAndAccuracy] at hle

theorem rounded_le : rounded m e accuracy ≤ m / 2 ^ dropped m e + 1 := by
  have hle := roundedMantissa_le (ExtendedMantissa.ofMantissaAndAccuracy m accuracy >>> dropped m e)
  rwa [mantissa_shiftRight, mantissa_ofMantissaAndAccuracy] at hle

private theorem div_two_pow_dropped_lt : m / 2 ^ dropped m e < 2 ^ 53 := by
  rw [Nat.div_lt_iff_lt_mul (Nat.two_pow_pos _), ← Nat.pow_add]
  apply Nat.lt_of_lt_of_le Nat.lt_log2_self
  apply Nat.pow_le_pow_right Nat.two_pos
  unfold dropped
  omega

theorem rounded_le_two_pow : rounded m e accuracy ≤ 2 ^ 53 :=
  Nat.le_trans (rounded_le m e accuracy) (div_two_pow_dropped_lt m e)

private theorem neg_1074_le_add_dropped : -1074 ≤ e + dropped m e := by
  unfold dropped
  omega

private theorem dropped_eq_zero {r : Nat} (hr : r < 2 ^ 53) (he : -1074 ≤ e) : dropped r e = 0 := by
  have hlog2 : r.log2 ≤ 52 := by
    by_cases hzero : r = 0
    · rw [hzero, Nat.log2_zero]
      exact Nat.zero_le _
    · have hlt := (Nat.log2_lt hzero).mpr hr
      omega
  unfold dropped
  omega

private theorem dropped_carry (he : -1074 ≤ e) : dropped (2 ^ 53) e = 1 := by
  unfold dropped
  rw [Nat.log2_two_pow]
  omega

/-- The second shift of the rounding only takes up a carry. -/
theorem roundWithAccuracy_eq (s : Sign) : roundWithAccuracy spec s m e accuracy =
    if h : rounded m e accuracy = 0 then .zero s
    else if rounded m e accuracy = 2 ^ 53 then
      .finite s (2 ^ 52) (e + dropped m e + 1) (Nat.two_pow_pos 52)
    else .finite s (rounded m e accuracy) (e + dropped m e) (Nat.pos_of_ne_zero h) := by
  have hle := rounded_le_two_pow m e accuracy
  have he := neg_1074_le_add_dropped m e
  have hfirst : roundWithAccuracy spec s m e accuracy =
      if h : (ExtendedMantissa.ofMantissaAndAccuracy (rounded m e accuracy) .exact >>>
          dropped (rounded m e accuracy) (e + dropped m e)).mantissa = 0 then .zero s
      else .finite s _ (e + dropped m e + dropped (rounded m e accuracy) (e + dropped m e))
        (Nat.pos_of_ne_zero h) := by
    unfold roundWithAccuracy
    rw [shiftToTargetExponent_eq]
    dsimp only
    rw [shiftToTargetExponent_eq]
    rfl
  have hsecond := mantissa_shiftRight
    (.ofMantissaAndAccuracy (rounded m e accuracy) .exact)
    (dropped (rounded m e accuracy) (e + dropped m e))
  rw [mantissa_ofMantissaAndAccuracy] at hsecond
  rw [hfirst]
  by_cases hcarry : rounded m e accuracy = 2 ^ 53
  · have hone := dropped_carry _ he
    rw [hcarry, hone] at hsecond
    rw [hcarry, hone, dif_neg (by omega), dif_neg (by decide), if_pos rfl]
    exact finite_eq hsecond rfl
  · have hnone := dropped_eq_zero _ (show rounded m e accuracy < 2 ^ 53 by omega) he
    rw [hnone, Nat.pow_zero, Nat.div_one] at hsecond
    rw [hnone]
    by_cases hzero : rounded m e accuracy = 0
    · rw [dif_pos (hsecond.trans hzero), dif_pos hzero]
    · rw [dif_neg (by omega), dif_neg hzero, if_neg hcarry]
      exact finite_eq hsecond (Int.add_zero _)

theorem roundWithAccuracy_cases (s : Sign) :
    (rounded m e accuracy = 0 ∧ roundWithAccuracy spec s m e accuracy = .zero s) ∨
    (rounded m e accuracy = 2 ^ 53 ∧ roundWithAccuracy spec s m e accuracy =
      .finite s (2 ^ 52) (e + dropped m e + 1) (Nat.two_pow_pos 52)) ∨
    (rounded m e accuracy < 2 ^ 53 ∧ ∃ h, roundWithAccuracy spec s m e accuracy =
      .finite s (rounded m e accuracy) (e + dropped m e) h) := by
  have hle := rounded_le_two_pow m e accuracy
  rw [roundWithAccuracy_eq]
  by_cases hzero : rounded m e accuracy = 0
  · exact .inl ⟨hzero, dif_pos hzero⟩
  · rw [dif_neg hzero]
    by_cases hcarry : rounded m e accuracy = 2 ^ 53
    · exact .inr (.inl ⟨hcarry, if_pos hcarry⟩)
    · exact .inr (.inr ⟨by omega, _, if_neg hcarry⟩)

end Rounded

/-- A normal number of the sign `s`, with its exponent from `lo` to `hi`. -/
def Normal (s : Sign) (lo hi : Int) (u : UnpackedFloat) : Prop :=
  ∃ m e h, u = .finite s m e h ∧ 2 ^ 52 ≤ m ∧ m < 2 ^ 53 ∧ lo ≤ e ∧ e ≤ hi

/-- A number of the sign `s` whose magnitude is at most `2 ^ k`. -/
def AtMost (s : Sign) (k : Int) (u : UnpackedFloat) : Prop :=
  u = .zero s ∨ ∃ m e h, u = .finite s m e h ∧ e ≤ k ∧ m ≤ 2 ^ (k - e).toNat

section Rounding

variable {m : Nat} {e : Int} (s : Sign) (accuracy : Accuracy)

theorem normal_roundWithAccuracy (hm : 2 ^ 52 ≤ m) (he : -1022 ≤ m.log2 + e) :
    Normal s (m.log2 + e - 52) (m.log2 + e - 51) (roundWithAccuracy spec s m e accuracy) := by
  have hne : m ≠ 0 := by omega
  have hlog2 : 52 ≤ m.log2 := (Nat.le_log2 hne).mpr hm
  have hdropped : m.log2 = 52 + dropped m e := by
    unfold dropped
    omega
  have hlow : 2 ^ 52 ≤ rounded m e accuracy := by
    apply Nat.le_trans _ (le_rounded m e accuracy)
    rw [Nat.le_div_iff_mul_le (Nat.two_pow_pos _), ← Nat.pow_add, ← hdropped]
    exact Nat.log2_self_le hne
  obtain ⟨hzero, _⟩ | ⟨_, hround⟩ | ⟨hhigh, _, hround⟩ := roundWithAccuracy_cases m e accuracy s
  · omega
  · exact ⟨_, _, _, hround, Nat.le_refl _, by decide, by omega, by omega⟩
  · exact ⟨_, _, _, hround, hlow, hhigh, by omega, by omega⟩

theorem atMost_roundWithAccuracy {k : Int} (hm : m < 2 ^ (k - e).toNat) (hk : -1074 ≤ k)
    (he : e ≤ k) : AtMost s k (roundWithAccuracy spec s m e accuracy) := by
  have hlog2 : m.log2 + e ≤ k := by
    by_cases hzero : m = 0
    · rw [hzero, Nat.log2_zero]
      omega
    · have hlt := (Nat.log2_lt hzero).mpr hm
      omega
  have hexponent : e + dropped m e ≤ k := by
    unfold dropped
    omega
  have hsplit : (k - e).toNat = (k - (e + dropped m e)).toNat + dropped m e := by omega
  have hrounded : rounded m e accuracy ≤ 2 ^ (k - (e + dropped m e)).toNat := by
    apply Nat.le_trans (rounded_le m e accuracy)
    rw [hsplit, Nat.pow_add] at hm
    exact Nat.div_lt_of_lt_mul (by rwa [Nat.mul_comm] at hm)
  obtain ⟨_, hround⟩ | ⟨hcarry, hround⟩ | ⟨_, _, hround⟩ := roundWithAccuracy_cases m e accuracy s
  · exact .inl hround
  · rw [hcarry] at hrounded
    have hbits := (Nat.pow_le_pow_iff_right (by decide)).mp hrounded
    refine .inr ⟨_, _, _, hround, by omega, ?_⟩
    apply Nat.pow_le_pow_right Nat.two_pos
    omega
  · exact .inr ⟨_, _, _, hround, hexponent, hrounded⟩

theorem round_eq (n : Nat) : round spec s n e =
    roundWithAccuracy spec s (n * 2 ^ appended n e) (e - appended n e) .exact := by
  unfold UnpackedFloat.round decreaseExponent appended
  rw [targetExponent_eq]
  dsimp only
  rw [Nat.shiftLeft_eq]

theorem log2_mul_two_pow {n : Nat} (hn : n ≠ 0) (k : Nat) :
    (n * 2 ^ k).log2 = n.log2 + k := by
  have hpos : 0 < n * 2 ^ k := Nat.mul_pos (Nat.pos_of_ne_zero hn) (Nat.two_pow_pos k)
  rw [Nat.log2_eq_iff (Nat.ne_of_gt hpos)]
  constructor
  · rw [Nat.pow_add]
    exact Nat.mul_le_mul_right _ (Nat.log2_self_le hn)
  · rw [show n.log2 + k + 1 = n.log2 + 1 + k by omega, Nat.pow_add]
    exact Nat.mul_lt_mul_of_pos_right Nat.lt_log2_self (Nat.two_pow_pos k)

theorem normal_round {n : Nat} (hn : n ≠ 0) (he : -1022 ≤ n.log2 + e) :
    Normal s (n.log2 + e - 52) (n.log2 + e - 51) (round spec s n e) := by
  have hlog2 := log2_mul_two_pow hn (appended n e)
  have hbits : 52 ≤ (n * 2 ^ appended n e).log2 := by
    rw [hlog2]
    unfold appended
    omega
  have hpos : 0 < n * 2 ^ appended n e := Nat.mul_pos (Nat.pos_of_ne_zero hn) (Nat.two_pow_pos _)
  have hnormal := normal_roundWithAccuracy s .exact (m := n * 2 ^ appended n e)
    (e := e - appended n e) ((Nat.le_log2 (Nat.ne_of_gt hpos)).mp hbits) (by omega)
  rw [round_eq]
  rwa [hlog2, show ((n.log2 + appended n e : Nat) : Int) + (e - appended n e) = n.log2 + e by
    omega] at hnormal

theorem atMost_round {n : Nat} {k : Int} (hn : n < 2 ^ (k - e).toNat) (hk : -1074 ≤ k)
    (he : e ≤ k) : AtMost s k (round spec s n e) := by
  rw [round_eq]
  apply atMost_roundWithAccuracy s .exact _ hk (by omega)
  rw [show (k - (e - appended n e)).toNat = (k - e).toNat + appended n e by omega, Nat.pow_add]
  exact Nat.mul_lt_mul_of_pos_right hn (Nat.two_pow_pos _)

theorem normalize_of_pos {n : Int} (hn : 0 < n) (zeroSign : Sign) :
    normalize spec n e zeroSign = round spec .positive n.toNat e := by
  unfold UnpackedFloat.normalize
  rw [Int.compare_eq_gt.mpr hn]

theorem normalize_of_neg {n : Int} (hn : n < 0) (zeroSign : Sign) :
    normalize spec n e zeroSign = round spec .negative (-n).toNat e := by
  unfold UnpackedFloat.normalize
  rw [Int.compare_eq_lt.mpr hn]

end Rounding

section Packing

/-- What is left of an unpacked number after it was packed. -/
def repack (u : UnpackedFloat) : UnpackedFloat := (Float.Model.pack u).unpack

private theorem unpackSign_packComponents (s : Sign) (exponent : BitVec 11) (mantissa : BitVec 52) :
    Sign.ofBitVec (unpackSign (packComponents spec s exponent mantissa)) = s := by
  have hbit : unpackSign (packComponents spec s exponent mantissa) = s.toBitVec := by
    apply BitVec.eq_of_getLsbD_eq
    intro i hi
    have hzero : i = 0 := by omega
    subst hzero
    have hsign : (unpackSign (packComponents spec s exponent mantissa)).getLsbD 0 =
        (s.toBitVec ++ exponent ++ mantissa).getLsbD 63 :=
      BitVec.getLsbD_extractLsb
    have hmantissa := BitVec.getLsbD_append (x := s.toBitVec ++ exponent) (y := mantissa) (i := 63)
    have hexponent := BitVec.getLsbD_append (x := s.toBitVec) (y := exponent) (i := 11)
    exact hsign.trans (hmantissa.trans hexponent)
  rw [hbit]
  cases s <;> rfl

private theorem toNat_append_one (mantissa : BitVec 52) :
    (1#1 ++ mantissa).toNat = 2 ^ 52 + mantissa.toNat := by
  rw [BitVec.toNat_append, ← Nat.shiftLeft_add_eq_or_of_lt mantissa.isLt]
  rfl

theorem unpack_eq {b : BitVec 64} {s : Sign} {exponent : BitVec 11} {mantissa : BitVec 52}
    (hsign : Sign.ofBitVec (@unpackSign spec b) = s) (hexponent : @unpackExponent spec b = exponent)
    (hmantissa : @unpackMantissa spec b = mantissa) :
    UnpackedFloat.unpack spec b =
      if exponent.toNat = 2047 then
        if mantissa = 0#52 then .infinity s else .notANumber
      else if exponent.toNat = 0 then
        if h : mantissa.toNat = 0 then .zero s
        else .finite s mantissa.toNat (-1074) (Nat.pos_of_ne_zero h)
      else .finite s (2 ^ 52 + mantissa.toNat) (exponent.toNat - 1075) (by omega) := by
  subst hsign hexponent hmantissa
  unfold UnpackedFloat.unpack
  dsimp only
  by_cases hall : (@unpackExponent spec b).toNat = 2047
  · rw [if_pos (BitVec.eq_of_toNat_eq hall), if_pos hall]
  · rw [if_neg (fun h => hall (congrArg BitVec.toNat h)), if_neg hall]
    by_cases hzero : (@unpackExponent spec b).toNat = 0
    · rw [if_pos (BitVec.eq_of_toNat_eq hzero), if_pos hzero]
      by_cases hmantissa : (@unpackMantissa spec b).toNat = 0
      · rw [dif_pos (BitVec.eq_of_toNat_eq hmantissa), dif_pos hmantissa]
      · rw [dif_neg (fun h => hmantissa (congrArg BitVec.toNat h)), dif_neg hmantissa]
        apply finite_eq rfl
        rw [hzero]
        rfl
    · rw [if_neg (fun h => hzero (congrArg BitVec.toNat h)), if_neg hzero]
      exact finite_eq (toNat_append_one _) rfl

theorem unpack_packComponents (s : Sign) (exponent : BitVec 11) (mantissa : BitVec 52)
    (hexponent : exponent.toNat < 2047) :
    UnpackedFloat.unpack spec (packComponents spec s exponent mantissa) =
      if exponent.toNat = 0 then
        if h : mantissa.toNat = 0 then .zero s
        else .finite s mantissa.toNat (-1074) (Nat.pos_of_ne_zero h)
      else .finite s (2 ^ 52 + mantissa.toNat) (exponent.toNat - 1075) (by omega) := by
  rw [unpack_eq (unpackSign_packComponents s exponent mantissa) unpackExponent_packComponents
    unpackMantissa_packComponents, if_neg (by omega)]

@[simp] theorem repack_notANumber : repack .notANumber = .notANumber := rfl

@[simp] theorem repack_infinity (s : Sign) : repack (.infinity s) = .infinity s := by
  cases s <;> rfl

@[simp] theorem repack_zero (s : Sign) : repack (.zero s) = .zero s := by
  cases s <;> rfl

section Finite

variable (s : Sign) {m : Nat} {e : Int} (h : 0 < m)

theorem pack_finite : UnpackedFloat.pack spec (.finite s m e h) =
    if 2048 ≤ (e + 1075).toNat + 1 then packedInfinity spec s
    else if m.log2 = 52 then
      packComponents spec s (BitVec.ofNat 11 (e + 1075).toNat) (BitVec.ofNat 52 m)
    else packComponents spec s 0#11 (BitVec.ofNat 52 m) := by
  have hbias : e + spec.exponentBias + spec.mantissaBitsWithoutImplicit = e + 1075 := by
    change e + 1023 + 52 = _
    omega
  unfold UnpackedFloat.pack
  dsimp only
  rw [hbias]
  congr 1
  have hbits : m.log2 + 1 = spec.mantissaBits ↔ m.log2 = 52 := by
    change m.log2 + 1 = 53 ↔ _
    omega
  simp only [hbits]

theorem repack_overflow (he : 972 ≤ e) : repack (.finite s m e h) = .infinity s := by
  have hpack := pack_finite s h (e := e)
  rw [if_pos (by omega)] at hpack
  change UnpackedFloat.unpack spec (UnpackedFloat.pack spec (.finite s m e h)) = _
  rw [hpack]
  exact repack_infinity s

theorem repack_normal (hlow : 2 ^ 52 ≤ m) (hhigh : m < 2 ^ 53) (hmin : -1074 ≤ e)
    (hmax : e ≤ 971) : repack (.finite s m e h) = .finite s m e h := by
  have hlog2 : m.log2 = 52 := (Nat.log2_eq_iff (by omega)).mpr ⟨hlow, hhigh⟩
  have hexponent : (BitVec.ofNat 11 (e + 1075).toNat).toNat = (e + 1075).toNat := by
    rw [BitVec.toNat_ofNat]
    exact Nat.mod_eq_of_lt (by omega)
  have hmantissa : (BitVec.ofNat 52 m).toNat = m - 2 ^ 52 := by
    rw [BitVec.toNat_ofNat]
    omega
  have hunpack := unpack_packComponents s (BitVec.ofNat 11 (e + 1075).toNat) (BitVec.ofNat 52 m)
    (by omega)
  rw [if_neg (by omega)] at hunpack
  change UnpackedFloat.unpack spec (UnpackedFloat.pack spec (.finite s m e h)) = _
  rw [pack_finite, if_neg (by omega), if_pos hlog2, hunpack]
  congr 1
  · omega
  · omega

theorem repack_subnormal (hm : m < 2 ^ 52) :
    repack (.finite s m (-1074) h) = .finite s m (-1074) h := by
  have hlog2 : ¬m.log2 = 52 := by
    have hlt := (Nat.log2_lt (Nat.ne_of_gt h)).mpr hm
    omega
  have hmantissa : (BitVec.ofNat 52 m).toNat = m := by
    rw [BitVec.toNat_ofNat]
    exact Nat.mod_eq_of_lt hm
  have hunpack := unpack_packComponents s 0#11 (BitVec.ofNat 52 m) (by decide)
  rw [if_pos (show (0#11).toNat = 0 from rfl), dif_neg (by omega)] at hunpack
  change UnpackedFloat.unpack spec (UnpackedFloat.pack spec (.finite s m (-1074) h)) = _
  rw [pack_finite, if_neg (by decide), if_neg hlog2, hunpack]
  congr 1

/-- Short of an overflow, packing keeps the number, or what is left is subnormal. -/
theorem repack_finite (he : e ≤ 971) : repack (.finite s m e h) = .zero s ∨
    (∃ m' h', repack (.finite s m e h) = .finite s m' (-1074) h' ∧ m' < 2 ^ 52) ∨
    repack (.finite s m e h) = .finite s m e h := by
  have hsubnormal (mantissa : BitVec 52) :
      UnpackedFloat.unpack spec (packComponents spec s 0#11 mantissa) = .zero s ∨
        ∃ m' h', UnpackedFloat.unpack spec (packComponents spec s 0#11 mantissa) =
          .finite s m' (-1074) h' ∧ m' < 2 ^ 52 := by
    have hunpack := unpack_packComponents s 0#11 mantissa (by decide)
    rw [if_pos (show (0#11).toNat = 0 from rfl)] at hunpack
    rw [hunpack]
    by_cases hzero : mantissa.toNat = 0
    · exact .inl (dif_pos hzero)
    · exact .inr ⟨_, Nat.pos_of_ne_zero hzero, dif_neg hzero, mantissa.isLt⟩
  by_cases hlog2 : m.log2 = 52
  · have hbounds := (Nat.log2_eq_iff (Nat.ne_of_gt h)).mp hlog2
    by_cases hmin : -1074 ≤ e
    · exact .inr (.inr (repack_normal s h hbounds.1 hbounds.2 hmin he))
    · have hrepack : repack (.finite s m e h) =
          UnpackedFloat.unpack spec (packComponents spec s 0#11 (BitVec.ofNat 52 m)) := by
        change UnpackedFloat.unpack spec (UnpackedFloat.pack spec (.finite s m e h)) = _
        rw [pack_finite, if_neg (by omega), if_pos hlog2,
          show (e + 1075).toNat = 0 by omega]
      rw [hrepack]
      exact (hsubnormal _).imp id .inl
  · have hrepack : repack (.finite s m e h) =
        UnpackedFloat.unpack spec (packComponents spec s 0#11 (BitVec.ofNat 52 m)) := by
      change UnpackedFloat.unpack spec (UnpackedFloat.pack spec (.finite s m e h)) = _
      rw [pack_finite, if_neg (by omega), if_neg hlog2]
    rw [hrepack]
    exact (hsubnormal _).imp id .inl

end Finite

section Compare

variable {s : Sign} {u v : UnpackedFloat}

theorem zero_compare_eq_lt_iff : (UnpackedFloat.zero s).compare u = some .lt ↔
    u = .infinity .positive ∨ ∃ m e h, u = .finite .positive m e h := by
  constructor
  · intro hlt
    cases u with
    | notANumber => cases hlt
    | zero t => cases hlt
    | infinity t =>
        cases t with
        | positive => exact .inl rfl
        | negative => cases hlt
    | finite t m e h =>
        cases t with
        | positive => exact .inr ⟨m, e, h, rfl⟩
        | negative => cases hlt
  · rintro (rfl | ⟨m, e, h, rfl⟩) <;> rfl

theorem compare_zero_eq_lt_iff : u.compare (.zero s) = some .lt ↔
    u = .infinity .negative ∨ ∃ m e h, u = .finite .negative m e h := by
  constructor
  · intro hlt
    cases u with
    | notANumber => cases hlt
    | zero t => cases hlt
    | infinity t =>
        cases t with
        | positive => cases hlt
        | negative => exact .inl rfl
    | finite t m e h =>
        cases t with
        | positive => cases hlt
        | negative => exact .inr ⟨m, e, h, rfl⟩
  · rintro (rfl | ⟨m, e, h, rfl⟩) <;> rfl

theorem compare_eq_eq_iff : u.compare v = some .eq ↔
    (u = v ∧ u ≠ .notANumber) ∨ ∃ s t, u = .zero s ∧ v = .zero t := by
  constructor
  · intro heq
    cases u with
    | notANumber => cases heq
    | zero s =>
        cases v with
        | notANumber => cases heq
        | zero t => exact .inr ⟨s, t, rfl, rfl⟩
        | infinity t => cases t <;> cases heq
        | finite t m e h => cases t <;> cases heq
    | infinity s =>
        cases v with
        | notANumber => cases heq
        | zero t => cases s <;> cases heq
        | infinity t =>
            cases s <;> cases t <;> cases heq
            · exact .inl ⟨rfl, fun h => by cases h⟩
            · exact .inl ⟨rfl, fun h => by cases h⟩
        | finite t m e h => cases s <;> cases heq
    | finite s m e h =>
        cases v with
        | notANumber => cases s <;> cases heq
        | zero t => cases s <;> cases heq
        | infinity t => cases s <;> cases t <;> cases heq
        | finite t m' e' h' =>
            have hsame : s = t ∧ (compare e e').then (compare m m') = .eq := by
              cases s with
              | positive =>
                  cases t with
                  | positive => exact ⟨rfl, Option.some.inj heq⟩
                  | negative => cases heq
              | negative =>
                  cases t with
                  | positive => cases heq
                  | negative => exact ⟨rfl, Ordering.swap_eq_eq.mp (Option.some.inj heq)⟩
            obtain ⟨rfl, hthen⟩ := hsame
            obtain ⟨he, hm⟩ := Ordering.then_eq_eq.mp hthen
            exact .inl ⟨finite_eq (Nat.compare_eq_eq.mp hm) (Int.compare_eq_eq.mp he),
              fun h => by cases h⟩
  · rintro (⟨rfl, hnumber⟩ | ⟨s, t, rfl, rfl⟩)
    · cases u with
      | notANumber => exact absurd rfl hnumber
      | zero s => rfl
      | infinity s => cases s <;> rfl
      | finite s m e h =>
          have hthen : (compare e e).then (compare m m) = .eq :=
            Ordering.then_eq_eq.mpr ⟨Int.compare_eq_eq.mpr rfl, Nat.compare_eq_eq.mpr rfl⟩
          cases s with
          | positive => exact congrArg some hthen
          | negative => exact congrArg some (Ordering.swap_eq_eq.mpr hthen)
    · rfl

end Compare

def Signed (s : Sign) (u : UnpackedFloat) : Prop :=
  u = .zero s ∨ u = .infinity s ∨ ∃ m e h, u = .finite s m e h

theorem Signed.ne_notANumber {s : Sign} {u : UnpackedFloat} (hu : Signed s u) :
    u ≠ .notANumber := by
  rintro rfl
  obtain h | h | ⟨_, _, _, h⟩ := hu <;> cases h

theorem Signed.unique {s t : Sign} {u : UnpackedFloat} (hs : Signed s u) (ht : Signed t u) :
    s = t := by
  obtain rfl | rfl | ⟨m, e, h, rfl⟩ := hs
  · obtain h | h | ⟨_, _, _, h⟩ := ht <;> cases h
    rfl
  · obtain h | h | ⟨_, _, _, h⟩ := ht <;> cases h
    rfl
  · obtain h | h | ⟨_, _, _, h⟩ := ht <;> cases h
    rfl

theorem signed_roundWithAccuracy (s : Sign) (m : Nat) (e : Int) (accuracy : Accuracy) :
    Signed s (roundWithAccuracy spec s m e accuracy) := by
  obtain ⟨_, hround⟩ | ⟨_, hround⟩ | ⟨_, _, hround⟩ := roundWithAccuracy_cases m e accuracy s
  · exact .inl hround
  · exact .inr (.inr ⟨_, _, _, hround⟩)
  · exact .inr (.inr ⟨_, _, _, hround⟩)

theorem signed_round (s : Sign) (n : Nat) (e : Int) : Signed s (round spec s n e) := by
  rw [round_eq]
  exact signed_roundWithAccuracy ..

theorem signed_normalize {n : Int} (hn : 0 ≤ n) (e : Int) :
    Signed .positive (normalize spec n e .positive) := by
  by_cases hpos : 0 < n
  · rw [normalize_of_pos hpos]
    exact signed_round ..
  · obtain rfl : n = 0 := by omega
    exact .inl rfl

theorem Signed.repack {s : Sign} {u : UnpackedFloat} (hu : Signed s u) : Signed s (repack u) := by
  obtain rfl | rfl | ⟨m, e, h, rfl⟩ := hu
  · exact .inl (repack_zero s)
  · exact .inr (.inl (repack_infinity s))
  · by_cases he : e ≤ 971
    · obtain hzero | ⟨m', h', hsubnormal, _⟩ | hsame := repack_finite s h he
      · exact .inl hzero
      · exact .inr (.inr ⟨m', _, h', hsubnormal⟩)
      · exact .inr (.inr ⟨m, e, h, hsame⟩)
    · exact .inr (.inl (repack_overflow s h (by omega)))

theorem Normal.repack {s : Sign} {lo hi : Int} {u : UnpackedFloat} (hu : Normal s lo hi u)
    (hlo : -1074 ≤ lo) (hhi : hi ≤ 971) : Normal s lo hi (repack u) := by
  obtain ⟨m, e, h, rfl, hlow, hhigh, hmin, hmax⟩ := hu
  rw [repack_normal s h hlow hhigh (by omega) (by omega)]
  exact ⟨m, e, h, rfl, hlow, hhigh, hmin, hmax⟩

theorem Normal.repack_overflow {s : Sign} {lo hi : Int} {u : UnpackedFloat}
    (hu : Normal s lo hi u) (hlo : 972 ≤ lo) : Binary64.repack u = .infinity s := by
  obtain ⟨m, e, h, rfl, _, _, hmin, _⟩ := hu
  exact Binary64.repack_overflow s h (by omega)

theorem Normal.repack_or_overflow {s : Sign} {lo hi : Int} {u : UnpackedFloat}
    (hu : Normal s lo hi u) (hlo : -1074 ≤ lo) :
    Binary64.repack u = .infinity s ∨ Normal s lo 971 (Binary64.repack u) := by
  obtain ⟨m, e, h, rfl, hlow, hhigh, hmin, hmax⟩ := hu
  by_cases he : e ≤ 971
  · rw [repack_normal s h hlow hhigh (by omega) he]
    exact .inr ⟨m, e, h, rfl, hlow, hhigh, hmin, he⟩
  · exact .inl (Binary64.repack_overflow s h (by omega))

theorem AtMost.repack {s : Sign} {k : Int} {u : UnpackedFloat} (hu : AtMost s k u)
    (hlow : -1022 ≤ k) (hhigh : k ≤ 971) : AtMost s k (repack u) := by
  obtain rfl | ⟨m, e, h, rfl, he, hm⟩ := hu
  · exact .inl (repack_zero s)
  · obtain hzero | ⟨m', h', hsubnormal, hm'⟩ | hsame := repack_finite s h (show e ≤ 971 by omega)
    · exact .inl hzero
    · refine .inr ⟨m', _, h', hsubnormal, by omega, ?_⟩
      apply Nat.le_trans (Nat.le_of_lt hm')
      apply Nat.pow_le_pow_right Nat.two_pos
      omega
    · exact .inr ⟨m, e, h, hsame, he, hm⟩

structure Canonical (m : Nat) (e : Int) : Prop where
  mantissa : m < 2 ^ 53
  least : -1074 ≤ e
  greatest : e ≤ 971
  normal : 2 ^ 52 ≤ m ∨ e = -1074

theorem canonical_unpack {x : Float.Model} {s : Sign} {m : Nat} {e : Int} {h : 0 < m}
    (hx : x.unpack = .finite s m e h) : Canonical m e := by
  have hmantissa : (@unpackMantissa spec x.toBits.toBitVec).toNat < 2 ^ 52 := BitVec.isLt _
  have hexponent : (@unpackExponent spec x.toBits.toBitVec).toNat < 2 ^ 11 := BitVec.isLt _
  have hfields := unpack_eq (b := x.toBits.toBitVec) rfl rfl rfl
  change UnpackedFloat.unpack spec x.toBits.toBitVec = _ at hx
  rw [hfields] at hx
  by_cases hall : (@unpackExponent spec x.toBits.toBitVec).toNat = 2047
  · rw [if_pos hall] at hx
    by_cases hzero : @unpackMantissa spec x.toBits.toBitVec = 0#52
    · cases (if_pos hzero).symm.trans hx
    · cases (if_neg hzero).symm.trans hx
  · rw [if_neg hall] at hx
    by_cases hsubnormal : (@unpackExponent spec x.toBits.toBitVec).toNat = 0
    · rw [if_pos hsubnormal] at hx
      by_cases hzero : (@unpackMantissa spec x.toBits.toBitVec).toNat = 0
      · cases (dif_pos hzero).symm.trans hx
      · cases (dif_neg hzero).symm.trans hx
        exact ⟨by omega, by decide, by decide, .inr rfl⟩
    · cases (if_neg hsubnormal).symm.trans hx
      exact ⟨by omega, by omega, by omega, .inl (by omega)⟩

theorem Canonical.repack {m : Nat} {e : Int} (hcanonical : Canonical m e) (s : Sign) (h : 0 < m) :
    repack (.finite s m e h) = .finite s m e h := by
  by_cases hm : 2 ^ 52 ≤ m
  · exact repack_normal s h hm hcanonical.mantissa hcanonical.least hcanonical.greatest
  · have he : e = -1074 := hcanonical.normal.resolve_left hm
    subst he
    exact repack_subnormal s h (by omega)

end Packing

section Arithmetic

def aligned (m : Nat) (e least : Int) : Nat := m * 2 ^ (e - least).toNat

variable {s s₁ s₂ : Sign} {m₁ m₂ : Nat} {e₁ e₂ : Int} (h₁ : 0 < m₁) (h₂ : 0 < m₂)

theorem aligned_pos {m : Nat} (h : 0 < m) (e least : Int) : 0 < aligned m e least :=
  Nat.mul_pos h (Nat.two_pow_pos _)

theorem add_finite : UnpackedFloat.add spec (.finite s₁ m₁ e₁ h₁) (.finite s₂ m₂ e₂ h₂) =
    normalize spec (s₁.apply (aligned m₁ e₁ (min e₁ e₂)) + s₂.apply (aligned m₂ e₂ (min e₁ e₂)))
      (min e₁ e₂) .positive := by
  unfold UnpackedFloat.add decreaseExponent aligned
  dsimp only
  rw [Nat.shiftLeft_eq, Nat.shiftLeft_eq]

theorem sub_finite : UnpackedFloat.sub spec (.finite s₁ m₁ e₁ h₁) (.finite s₂ m₂ e₂ h₂) =
    normalize spec (s₁.apply (aligned m₁ e₁ (min e₁ e₂)) - s₂.apply (aligned m₂ e₂ (min e₁ e₂)))
      (min e₁ e₂) .positive := by
  unfold UnpackedFloat.sub decreaseExponent aligned
  dsimp only
  rw [Nat.shiftLeft_eq, Nat.shiftLeft_eq]

theorem signed_add_finite :
    Signed s (UnpackedFloat.add spec (.finite s m₁ e₁ h₁) (.finite s m₂ e₂ h₂)) := by
  have hleft := aligned_pos h₁ e₁ (min e₁ e₂)
  have hright := aligned_pos h₂ e₂ (min e₁ e₂)
  rw [add_finite]
  cases s with
  | positive =>
      rw [normalize_of_pos (by simp only [Sign.apply]; omega)]
      exact signed_round ..
  | negative =>
      rw [normalize_of_neg (by simp only [Sign.apply]; omega)]
      exact signed_round ..

theorem aligned_le (hcanonical₁ : Canonical m₁ e₁) (hcanonical₂ : Canonical m₂ e₂)
    (hle : e₁ < e₂ ∨ e₁ = e₂ ∧ m₁ ≤ m₂) :
    aligned m₁ e₁ (min e₁ e₂) ≤ aligned m₂ e₂ (min e₁ e₂) := by
  obtain hlt | ⟨rfl, hm⟩ := hle
  · have hnormal : 2 ^ 52 ≤ m₂ := by
      have hleast := hcanonical₁.least
      have hnormal := hcanonical₂.normal
      omega
    have hmantissa := hcanonical₁.mantissa
    rw [show min e₁ e₂ = e₁ by omega]
    unfold aligned
    rw [show (e₁ - e₁).toNat = 0 by omega, show (e₂ - e₁).toNat = (e₂ - e₁).toNat - 1 + 1 by omega,
      Nat.pow_succ]
    have hpos := Nat.two_pow_pos ((e₂ - e₁).toNat - 1)
    calc m₁ * 2 ^ 0 ≤ 2 ^ 52 * (1 * 2) := by omega
      _ ≤ m₂ * (2 ^ ((e₂ - e₁).toNat - 1) * 2) :=
        Nat.mul_le_mul hnormal (Nat.mul_le_mul_right 2 hpos)
  · exact Nat.mul_le_mul_right _ hm

theorem le_of_compare (hnotGreater : (compare e₁ e₂).then (compare m₁ m₂) ≠ .gt) :
    e₁ < e₂ ∨ e₁ = e₂ ∧ m₁ ≤ m₂ := by
  cases he : compare e₁ e₂ with
  | lt => exact .inl (Int.compare_eq_lt.mp he)
  | gt =>
      rw [he] at hnotGreater
      exact absurd rfl hnotGreater
  | eq =>
      rw [he] at hnotGreater
      exact .inr ⟨Int.compare_eq_eq.mp he, Nat.compare_ne_gt.mp hnotGreater⟩

/-- A difference whose exact value is not negative. -/
theorem signed_sub_finite (hcanonical₁ : Canonical m₁ e₁) (hcanonical₂ : Canonical m₂ e₂)
    (hnotLess : UnpackedFloat.compare (.finite s₁ m₁ e₁ h₁) (.finite s₂ m₂ e₂ h₂) ≠ some .lt) :
    Signed .positive (UnpackedFloat.sub spec (.finite s₁ m₁ e₁ h₁) (.finite s₂ m₂ e₂ h₂)) := by
  have hle₁ := aligned_le hcanonical₁ hcanonical₂
  have hle₂ := aligned_le hcanonical₂ hcanonical₁
  rw [Int.min_comm] at hle₂
  rw [sub_finite]
  apply signed_normalize
  cases s₁ with
  | positive =>
      cases s₂ with
      | positive =>
          have hle := hle₂ (le_of_compare fun hgt => hnotLess (by
            change some ((compare e₁ e₂).then (compare m₁ m₂)) = _
            rw [← Int.compare_swap, ← Nat.compare_swap, ← Ordering.swap_then, hgt]
            rfl))
          simp only [Sign.apply]
          omega
      | negative =>
          simp only [Sign.apply]
          omega
  | negative =>
      cases s₂ with
      | positive => exact absurd rfl hnotLess
      | negative =>
          have hle := hle₁ (le_of_compare fun hgt => hnotLess (by
            change some ((compare e₁ e₂).then (compare m₁ m₂)).swap = _
            rw [hgt]
            rfl))
          simp only [Sign.apply]
          omega

theorem aligned_le_two_pow {m : Nat} {e least k : Int} (he : e ≤ k) (hleast : least ≤ e)
    (hm : m ≤ 2 ^ (k - e).toNat) : aligned m e least ≤ 2 ^ (k - least).toNat := by
  unfold aligned
  rw [show (k - least).toNat = (k - e).toNat + (e - least).toNat by omega, Nat.pow_add]
  exact Nat.mul_le_mul_right _ hm

theorem AtMost.mono {k k' : Int} {u : UnpackedFloat} (hu : AtMost s k u) (hk : k ≤ k') :
    AtMost s k' u := by
  obtain hzero | ⟨m, e, h, hfinite, he, hm⟩ := hu
  · exact .inl hzero
  · refine .inr ⟨m, e, h, hfinite, by omega, Nat.le_trans hm ?_⟩
    apply Nat.pow_le_pow_right Nat.two_pos
    omega

theorem Normal.atMost {lo hi : Int} {u : UnpackedFloat} (hu : Normal s lo hi u) :
    AtMost s (hi + 53) u := by
  obtain ⟨m, e, h, hfinite, _, hhigh, _, he⟩ := hu
  refine .inr ⟨m, e, h, hfinite, by omega, Nat.le_trans (Nat.le_of_lt hhigh) ?_⟩
  apply Nat.pow_le_pow_right Nat.two_pos
  omega

theorem atMost_normalize {n : Int} {e k : Int} (hn : n.natAbs < 2 ^ (k - e).toNat)
    (hk : -1074 ≤ k) (he : e ≤ k) : ∃ s, AtMost s k (normalize spec n e .positive) := by
  obtain hneg | rfl | hpos := Int.lt_trichotomy n 0
  · rw [normalize_of_neg hneg]
    exact ⟨_, atMost_round .negative (by omega) hk he⟩
  · exact ⟨.positive, .inl rfl⟩
  · rw [normalize_of_pos hpos]
    exact ⟨_, atMost_round .positive (by omega) hk he⟩

theorem zero_sub_zero (s t : Sign) :
    ∃ r, UnpackedFloat.sub spec (.zero s) (.zero t) = .zero r := by
  unfold UnpackedFloat.sub
  dsimp only
  split
  · exact ⟨_, rfl⟩
  · exact ⟨_, rfl⟩

theorem zero_add_zero (s t : Sign) :
    ∃ r, UnpackedFloat.add spec (.zero s) (.zero t) = .zero r := by
  unfold UnpackedFloat.add
  dsimp only
  split
  · exact ⟨_, rfl⟩
  · exact ⟨_, rfl⟩

theorem atMost_sub {k : Int} {u v : UnpackedFloat} (hu : AtMost s₁ k u) (hv : AtMost s₂ k v)
    (hk : -1074 ≤ k) : ∃ s, AtMost s (k + 2) (UnpackedFloat.sub spec u v) := by
  obtain rfl | ⟨m₁, e₁, h₁, rfl, he₁, hm₁⟩ := hu
  · obtain rfl | ⟨m₂, e₂, h₂, rfl, he₂, hm₂⟩ := hv
    · obtain ⟨r, hzero⟩ := zero_sub_zero s₁ s₂
      exact ⟨r, .inl hzero⟩
    · have hv : AtMost (-s₂) k (.finite (-s₂) m₂ e₂ h₂) := .inr ⟨m₂, e₂, h₂, rfl, he₂, hm₂⟩
      exact ⟨-s₂, hv.mono (by omega)⟩
  · obtain rfl | ⟨m₂, e₂, h₂, rfl, he₂, hm₂⟩ := hv
    · have hu : AtMost s₁ k (.finite s₁ m₁ e₁ h₁) := .inr ⟨m₁, e₁, h₁, rfl, he₁, hm₁⟩
      exact ⟨s₁, hu.mono (by omega)⟩
    · have hleft := aligned_le_two_pow he₁ (Int.min_le_left e₁ e₂) hm₁
      have hright := aligned_le_two_pow he₂ (Int.min_le_right e₁ e₂) hm₂
      have hbound : 2 ^ (k + 2 - min e₁ e₂).toNat = 4 * 2 ^ (k - min e₁ e₂).toNat := by
        rw [show (k + 2 - min e₁ e₂).toNat = (k - min e₁ e₂).toNat + 2 by omega, Nat.pow_add,
          Nat.mul_comm]
      have hpos := Nat.two_pow_pos (k - min e₁ e₂).toNat
      rw [sub_finite]
      apply atMost_normalize _ (by omega) (by omega)
      rw [hbound]
      cases s₁ <;> cases s₂ <;> simp only [Sign.apply] <;> omega

def one : UnpackedFloat := .finite .positive (2 ^ 52) (-52) (Nat.two_pow_pos 52)

section Division

theorem div_finite : UnpackedFloat.div spec (.finite s₁ m₁ e₁ h₁) (.finite s₂ m₂ e₂ h₂) =
    roundWithAccuracy spec (s₁ / s₂) (divCore spec m₁ e₁ m₂ e₂).1 (divCore spec m₁ e₁ m₂ e₂).2.1
      (divCore spec m₁ e₁ m₂ e₂).2.2 := rfl

def quotientExponent (m₁ : Nat) (e₁ : Int) (m₂ : Nat) (e₂ : Int) : Int :=
  min (e₁ - e₂) (max (m₁.log2 - m₂.log2 + e₁ - e₂ - 53) (-1074))

private theorem divCore_eq : divCore spec m₁ e₁ m₂ e₂ =
    (aligned m₁ (e₁ - e₂) (quotientExponent m₁ e₁ m₂ e₂) / m₂, quotientExponent m₁ e₁ m₂ e₂,
      accuracyOfFraction (aligned m₁ (e₁ - e₂) (quotientExponent m₁ e₁ m₂ e₂) % m₂) m₂) := by
  have htarget : min (e₁ - e₂) (spec.targetExponent (totalExponent m₁ e₁ - totalExponent m₂ e₂)) =
      quotientExponent m₁ e₁ m₂ e₂ := by
    change min (e₁ - e₂) (max ((m₁.log2 : Int) + 1 + e₁ - (m₂.log2 + 1 + e₂) - 53) (-1074)) = _
    unfold quotientExponent
    congr 2
    omega
  unfold divCore aligned
  rw [htarget]
  dsimp only
  rw [Nat.shiftLeft_eq]

theorem log2_eq {m : Nat} (hlow : 2 ^ 52 ≤ m) (hhigh : m < 2 ^ 53) : m.log2 = 52 :=
  (Nat.log2_eq_iff (by omega)).mpr ⟨hlow, hhigh⟩

theorem normal_div {lo₁ hi₁ lo₂ hi₂ : Int} {u v : UnpackedFloat} (hu : Normal s₁ lo₁ hi₁ u)
    (hv : Normal s₂ lo₂ hi₂ v) (hlo : -1021 ≤ lo₁ - hi₂) :
    Normal (s₁ / s₂) (lo₁ - hi₂ - 53) (hi₁ - lo₂ - 51) (UnpackedFloat.div spec u v) := by
  obtain ⟨m₁, e₁, h₁, rfl, hlow₁, hhigh₁, hmin₁, hmax₁⟩ := hu
  obtain ⟨m₂, e₂, h₂, rfl, hlow₂, hhigh₂, hmin₂, hmax₂⟩ := hv
  have hexponent : quotientExponent m₁ e₁ m₂ e₂ = e₁ - e₂ - 53 := by
    unfold quotientExponent
    rw [log2_eq hlow₁ hhigh₁, log2_eq hlow₂ hhigh₂]
    omega
  have haligned : aligned m₁ (e₁ - e₂) (e₁ - e₂ - 53) = m₁ * 2 ^ 53 := by
    unfold aligned
    rw [show (e₁ - e₂ - (e₁ - e₂ - 53)).toNat = 53 by omega]
  have hlow : 2 ^ 52 ≤ m₁ * 2 ^ 53 / m₂ := by
    rw [Nat.le_div_iff_mul_le h₂]
    calc 2 ^ 52 * m₂ ≤ 2 ^ 52 * 2 ^ 53 := Nat.mul_le_mul_left _ (Nat.le_of_lt hhigh₂)
      _ ≤ m₁ * 2 ^ 53 := Nat.mul_le_mul_right _ hlow₁
  have hhigh : m₁ * 2 ^ 53 / m₂ < 2 ^ 54 := by
    rw [Nat.div_lt_iff_lt_mul h₂]
    omega
  have hlog2 := (Nat.le_log2 (show m₁ * 2 ^ 53 / m₂ ≠ 0 by omega)).mpr hlow
  have hlog2' := (Nat.log2_lt (show m₁ * 2 ^ 53 / m₂ ≠ 0 by omega)).mpr hhigh
  rw [div_finite, divCore_eq, hexponent, haligned]
  obtain ⟨m, e, h, hfinite, hm, hm', he, he'⟩ := normal_roundWithAccuracy (s₁ / s₂)
    (accuracyOfFraction (m₁ * 2 ^ 53 % m₂) m₂) hlow (show -1022 ≤ _ + (e₁ - e₂ - 53) by omega)
  exact ⟨m, e, h, hfinite, hm, hm', by omega, by omega⟩

private theorem shiftRight_mul_two_pow (m k : Nat) :
    ExtendedMantissa.ofMantissaAndAccuracy (m * 2 ^ k) .exact >>> k = ⟨m, false, false⟩ := by
  induction k generalizing m with
  | zero =>
      rw [Nat.pow_zero, Nat.mul_one]
      rfl
  | succ k ih =>
      have hstep : ExtendedMantissa.ofMantissaAndAccuracy (m * 2 ^ (k + 1)) .exact >>> (k + 1) =
          (ExtendedMantissa.ofMantissaAndAccuracy (m * 2 ^ (k + 1)) .exact >>> k).shiftRightOne :=
        rfl
      rw [hstep, Nat.pow_succ', ← Nat.mul_assoc, ih]
      simp [ExtendedMantissa.shiftRightOne]

private theorem max_log2 {m : Nat} {e : Int} (h : 0 < m) (hcanonical : Canonical m e) :
    max (m.log2 + e - 52) (-1074) = e := by
  have hlow := hcanonical.least
  by_cases hm : 2 ^ 52 ≤ m
  · rw [log2_eq hm hcanonical.mantissa]
    omega
  · have hleast := hcanonical.normal.resolve_left hm
    have hlog2 := (Nat.log2_lt (Nat.ne_of_gt h)).mpr (Nat.lt_of_not_le hm)
    omega

theorem div_one {m : Nat} {e : Int} (h : 0 < m) (hcanonical : Canonical m e) :
    UnpackedFloat.div spec (.finite s m e h) one = .finite s m e h := by
  have hmax := max_log2 h hcanonical
  have hlow := hcanonical.least
  have hmantissa := hcanonical.mantissa
  obtain ⟨k, hk, hexponent⟩ : ∃ k : Nat, k ≤ 1 ∧ quotientExponent m e (2 ^ 52) (-52) = e - k := by
    refine ⟨(e - quotientExponent m e (2 ^ 52) (-52)).toNat, ?_⟩
    unfold quotientExponent
    rw [Nat.log2_two_pow]
    omega
  have haligned : aligned m (e - -52) (e - k) = m * 2 ^ k * 2 ^ 52 := by
    unfold aligned
    rw [show (e - -52 - (e - k)).toNat = k + 52 by omega, Nat.pow_add, Nat.mul_assoc]
  have hdropped : dropped (m * 2 ^ k) (e - k) = k := by
    have hlog2 := log2_mul_two_pow (Nat.ne_of_gt h) k
    unfold dropped
    rw [hlog2]
    omega
  have hrounded : rounded (m * 2 ^ k) (e - k) .exact = m := by
    unfold rounded
    rw [hdropped, shiftRight_mul_two_pow]
    rfl
  have hsign : s / .positive = s := by cases s <;> rfl
  unfold one
  rw [div_finite, divCore_eq, hexponent, haligned]
  dsimp only
  rw [Nat.mul_div_cancel _ (Nat.two_pow_pos 52), Nat.mul_mod_left]
  change roundWithAccuracy spec (s / .positive) (m * 2 ^ k) (e - k) .exact = _
  rw [roundWithAccuracy_eq]
  rw [dif_neg (by omega), if_neg (by omega), hsign]
  exact finite_eq hrounded (by omega)

theorem atMost_one_div {m : Nat} {e : Int} (h : 0 < m) (hcanonical : Canonical m e)
    (hm : 2 ^ 52 ≤ m) (he : -52 ≤ e) (hone : m ≠ 2 ^ 52 ∨ e ≠ -52) :
    AtMost .positive 0 (UnpackedFloat.div spec one (.finite .positive m e h)) := by
  have hhigh := hcanonical.mantissa
  have hgreatest := hcanonical.greatest
  have hexponent : quotientExponent (2 ^ 52) (-52) m e = max (-105 - e) (-1074) := by
    unfold quotientExponent
    rw [log2_eq hm hhigh, Nat.log2_two_pow]
    omega
  have hzero : (0 - max (-105 - e) (-1074)).toNat =
      (-52 - e - max (-105 - e) (-1074)).toNat + (52 + e).toNat := by omega
  have hlarger : 2 ^ 52 < 2 ^ (52 + e).toNat * m := by
    by_cases hleast : e = -52
    · rw [hleast, show (52 + -52 : Int).toNat = 0 by decide]
      omega
    · have hpos := Nat.two_pow_pos (51 + e).toNat
      rw [show (52 + e).toNat = (51 + e).toNat + 1 by omega, Nat.pow_succ]
      calc 2 ^ 52 < 1 * 2 * 2 ^ 52 := by decide
        _ ≤ 2 ^ (51 + e).toNat * 2 * m := Nat.mul_le_mul (Nat.mul_le_mul_right 2 hpos) hm
  unfold one
  rw [div_finite, divCore_eq, hexponent]
  apply atMost_roundWithAccuracy _ _ _ (by omega) (by dsimp only; omega)
  rw [Nat.div_lt_iff_lt_mul h, hzero, Nat.pow_add, Nat.mul_assoc]
  unfold aligned
  rw [Nat.mul_comm]
  exact Nat.mul_lt_mul_of_pos_left hlarger (Nat.two_pow_pos _)

end Division

theorem aligned_one (e : Int) :
    aligned (2 ^ 52) (-52) (min (-52) e) = 2 ^ (-min (-52) e).toNat := by
  unfold aligned
  rw [← Nat.pow_add]
  congr 1
  omega

theorem normal_one_add {m : Nat} {e : Int} (h : 0 < m) :
    ∃ hi, Normal .positive (-52) hi (UnpackedFloat.add spec one (.finite .positive m e h)) := by
  have hone := Nat.le_of_eq (aligned_one e).symm
  have hother := aligned_pos h e (min (-52) e)
  unfold one
  rw [add_finite, normalize_of_pos (by simp only [Sign.apply]; omega)]
  simp only [Sign.apply, ← Int.natCast_add, Int.toNat_natCast]
  have hlog2 := (Nat.le_log2 (n := aligned (2 ^ 52) (-52) (min (-52) e) + aligned m e (min (-52) e))
    (by omega)).mpr (Nat.le_trans hone (Nat.le_add_right _ _))
  obtain ⟨m', e', h', hfinite, hm, hm', he, he'⟩ := normal_round .positive
    (n := aligned (2 ^ 52) (-52) (min (-52) e) + aligned m e (min (-52) e)) (by omega)
    (show -1022 ≤ _ + min (-52) e by omega)
  exact ⟨e', m', e', h', hfinite, hm, hm', by omega, Int.le_refl _⟩

theorem signed_one_sub {u : UnpackedFloat} (hu : AtMost .positive 0 u) :
    Signed .positive (UnpackedFloat.sub spec one u) := by
  obtain rfl | ⟨m, e, h, rfl, he, hm⟩ := hu
  · exact .inr (.inr ⟨_, _, _, rfl⟩)
  · have hle := aligned_le_two_pow he (Int.min_le_right (-52) e) hm
    rw [Int.zero_sub] at hle
    unfold one
    rw [sub_finite, aligned_one]
    apply signed_normalize
    simp only [Sign.apply]
    omega

/-- The square of a number from `2 ^ 652` on is infinite. -/
theorem repack_mul_self {m : Nat} {e : Int} (h : 0 < m) (hm : 2 ^ 52 ≤ m) (he : 600 ≤ e) :
    repack (UnpackedFloat.mul spec (.finite s m e h) (.finite s m e h)) =
      .infinity .positive := by
  have hsquare : 2 ^ 104 ≤ m * m := by
    rw [show 104 = 52 + 52 from rfl, Nat.pow_add]
    exact Nat.mul_le_mul hm hm
  have hlog2 := (Nat.le_log2 (show m * m ≠ 0 by omega)).mpr hsquare
  have hnormal := normal_roundWithAccuracy (s * s) .exact (m := m * m) (e := e + e)
    (by omega) (by omega)
  have hsign : s * s = .positive := by cases s <;> rfl
  rw [hsign] at hnormal
  unfold UnpackedFloat.mul
  dsimp only
  rw [hsign]
  exact hnormal.repack_overflow (by omega)

theorem normal_ofInt {n : Int} (hn : n ≠ 0) (hmax : n.natAbs < 2 ^ 64) :
    ∃ s, Normal s (-52) 12 (ofInt spec n) := by
  have hlog2 : n.natAbs.log2 < 64 := (Nat.log2_lt (by omega)).mpr hmax
  have hround (s : Sign) : Normal s (-52) 12 (round spec s n.natAbs 0) := by
    obtain ⟨m, e, h, hfinite, hlow, hhigh, hmin, hmax⟩ :=
      normal_round s (show n.natAbs ≠ 0 by omega) (show -1022 ≤ _ + (0 : Int) by omega)
    exact ⟨m, e, h, hfinite, hlow, hhigh, by omega, by omega⟩
  unfold ofInt
  obtain hneg | hpos := Int.lt_or_gt_of_ne hn
  · rw [normalize_of_neg hneg, show (-n).toNat = n.natAbs by omega]
    exact ⟨_, hround .negative⟩
  · rw [normalize_of_pos hpos, show n.toNat = n.natAbs by omega]
    exact ⟨_, hround .positive⟩

end Arithmetic

end SpackPlayground.Library.Binary64
