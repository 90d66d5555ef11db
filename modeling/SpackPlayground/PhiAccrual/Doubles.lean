import SpackPlayground.Library.Double
import SpackPlayground.PhiAccrual.Window

/-! The estimates and the failure detector in doubles, with a clock that counts
nanoseconds. What is divided by zero, or leaves the range, is infinite or not a number. -/
namespace SpackPlayground.PhiAccrual.Doubles

open Library.Binary64 Library.Double
open Float.Model.UnpackedFloat (Sign)

/-- `exp` and `log10`, with their special values. The square root of a double is exact
but for its rounding. -/
structure Libm where
  exp : Float → Float
  log10 : Float → Float
  isNaN_exp : ∀ x : Float, x.isNaN → (exp x).isNaN
  zero_le_exp : ∀ x : Float, ¬x.isNaN → 0 ≤ exp x
  isFinite_exp : ∀ x : Float, x ≤ 0 → (exp x).isFinite
  isNaN_log10_iff : ∀ x : Float, (log10 x).isNaN ↔ x.isNaN ∨ x < 0

/-- `durations_.size()`, as the dividend is divided by it. -/
def size (w : Window Float) : Float := (UInt64.ofNat w.durations.length).toFloat

def mean (w : Window Float) : Float := w.sum / size w

def variance (w : Window Float) : Float := w.sumOfSquares / size w - pow2 (mean w)

def normalDistribution (w : Window Float) : Window.NormalDistribution Float :=
  let mean := mean w
  ⟨mean, (w.sumOfSquares / size w - pow2 mean).sqrt⟩

/-- The difference of two time points as a `duration_t`. -/
def milliseconds (nanoseconds : Int64) : Float := .ofModel (.ofInt64 nanoseconds) / 1e6

structure FailureDetector where
  latestHeartbeat : Int64
  window : Window Float

namespace FailureDetector

/-- The clock reads `now`; the rest is as `Window::Window` leaves it. -/
def construct (now : Int64) (sum sumOfSquares : Float) : FailureDetector :=
  ⟨now, Window.construct Window.defaultSize sum sumOfSquares⟩

def reset (detector : FailureDetector) (t : Int64) : FailureDetector :=
  ⟨t, detector.window.reset⟩

def heartbeat (detector : FailureDetector) (t : Int64) : FailureDetector :=
  ⟨t, detector.window.add (milliseconds (t - detector.latestHeartbeat))⟩

def phi (libm : Libm) (detector : FailureDetector) (t : Int64) : Float :=
  let timeSinceLastHeartbeat := milliseconds (t - detector.latestHeartbeat)
  let normal := normalDistribution detector.window
  let sigma := if normal.stddev < 1 then 1 else normal.stddev
  let y := (timeSinceLastHeartbeat - normal.mean) / sigma
  let e := libm.exp (-y * (1.5976 + 0.070566 * y * y))
  if timeSinceLastHeartbeat < normal.mean then
    -libm.log10 (1 - 1 / (1 + e))
  else
    -libm.log10 (e / (1 + e))

end FailureDetector

section Estimates

variable {w : Window Float}

theorem isNaN_stddev_iff : (normalDistribution w).stddev.isNaN ↔ ¬0 ≤ variance w := isNaN_sqrt_iff

private theorem atMost_mean (hvariance : 0 ≤ variance w) : ∃ s, AtMost s 700 (unpacked (mean w)) :=
  atMost_of_zero_le_sub_mul_self hvariance

theorem isFinite_mean (hvariance : 0 ≤ variance w) : (mean w).isFinite := by
  obtain ⟨s, hmean⟩ := atMost_mean hvariance
  exact isFinite_of_atMost hmean

/-- Without a duration the variance is a quotient by zero less a square. -/
theorem length_durations_pos (hvariance : 0 ≤ variance w) : 1 ≤ w.durations.length := by
  cases hdurations : w.durations with
  | cons first rest => simp
  | nil =>
      have hsize : unpacked (size w) = .zero .positive := by
        unfold size
        rw [hdurations]
        rfl
      exact absurd (isFinite_mean hvariance) (not_isFinite_div_zero hsize)

end Estimates

section Elapsed

private theorem normal_million : Normal .positive (-33) (-33) (unpacked 1e6) :=
  ⟨1000000 * 2 ^ 33, -33, by decide, by rfl, by decide, by decide, by decide, by decide⟩

theorem unpacked_milliseconds (nanoseconds : Int64) :
    unpacked (milliseconds nanoseconds) = .zero .positive ∨
      ∃ s, Normal s (-72) (-6) (unpacked (milliseconds nanoseconds)) := by
  have hdiv : unpacked (milliseconds nanoseconds) = repack (.div spec
      (repack (.ofInt spec nanoseconds.toInt)) (unpacked 1e6)) := rfl
  rw [hdiv]
  by_cases hzero : nanoseconds.toInt = 0
  · have hmillion := normal_million
    have hint : repack (.ofInt spec 0) = .zero .positive := repack_zero .positive
    rw [hzero, hint]
    obtain ⟨m, e, h, hmillion, _⟩ := hmillion
    rw [hmillion]
    exact .inl (repack_zero .positive)
  · have hlow := nanoseconds.le_toInt
    have hhigh := nanoseconds.toInt_lt
    obtain ⟨s, hnormal⟩ := normal_ofInt hzero (by omega)
    have hquotient := normal_div (hnormal.repack (by decide) (by decide)) normal_million (by decide)
    have hsign : s / .positive = s := by cases s <;> rfl
    rw [hsign] at hquotient
    exact .inr ⟨s, hquotient.repack (by decide) (by decide)⟩

private theorem atMost_milliseconds (nanoseconds : Int64) :
    ∃ s, AtMost s 700 (unpacked (milliseconds nanoseconds)) := by
  obtain hzero | ⟨s, hnormal⟩ := unpacked_milliseconds nanoseconds
  · exact ⟨_, .inl hzero⟩
  · exact ⟨s, hnormal.atMost.mono (by decide)⟩

end Elapsed

namespace Libm

variable (libm : Libm) {x : Float}

private theorem isNaN_neg_log10 (hx : x.isNaN) : (-libm.log10 x).isNaN := by
  rw [isNaN_neg, libm.isNaN_log10_iff]
  exact .inl hx

private theorem not_isNaN_neg_log10 (hx : 0 ≤ x) : ¬(-libm.log10 x).isNaN := by
  rw [isNaN_neg, libm.isNaN_log10_iff]
  exact not_or_intro (not_isNaN_of_zero_le hx) (not_lt_zero hx)

end Libm

private theorem unpacked_linear : unpacked 1.5976 =
    .finite .positive 7194950764687104 (-52) (by decide) := by rfl

private theorem unpacked_cubic : unpacked 0.070566 =
    .finite .positive 5084816180880423 (-56) (by decide) := by rfl

namespace FailureDetector

variable (libm : Libm) {detector : FailureDetector} (t : Int64)

theorem zero_lt_one : (0 : Float) < 1 := by decide +kernel

private theorem isNaN_phi (hvariance : ¬0 ≤ variance detector.window) :
    (detector.phi libm t).isNaN := by
  have hstddev : (normalDistribution detector.window).stddev.isNaN := isNaN_stddev_iff.mpr hvariance
  have hnotLess : ¬(normalDistribution detector.window).stddev < 1 := by
    rw [isNaN_iff] at hstddev
    rw [lt_iff, hstddev]
    exact fun h => by cases h
  unfold phi
  dsimp only
  rw [if_neg hnotLess]
  have hy := isNaN_div (x := milliseconds (t - detector.latestHeartbeat) -
    (normalDistribution detector.window).mean) (.inr hstddev)
  generalize (milliseconds (t - detector.latestHeartbeat) -
    (normalDistribution detector.window).mean) /
      (normalDistribution detector.window).stddev = y at hy ⊢
  have he := libm.isNaN_exp (-y * (1.5976 + 0.070566 * y * y))
    (isNaN_mul (.inl (isNaN_neg.trans hy)))
  split
  · apply libm.isNaN_neg_log10
    exact isNaN_sub (.inr (isNaN_div (.inr (isNaN_add (.inr he)))))
  · apply libm.isNaN_neg_log10
    exact isNaN_div (.inl he)

private theorem not_isNaN_phi (hvariance : 0 ≤ variance detector.window) :
    ¬(detector.phi libm t).isNaN := by
  have hfinite := isFinite_mean hvariance
  obtain ⟨s, hmean⟩ := atMost_mean hvariance
  obtain ⟨r, helapsed⟩ := atMost_milliseconds (t - detector.latestHeartbeat)
  have hdifference : (milliseconds (t - detector.latestHeartbeat) -
      mean detector.window).isFinite := isFinite_sub helapsed hmean (by decide) (by decide)
  have hsigma : 0 < if (normalDistribution detector.window).stddev < 1 then 1
      else (normalDistribution detector.window).stddev := by
    split
    · exact zero_lt_one
    · next hnotLess =>
        exact zero_lt_of_not_lt_one (fun hnan => isNaN_stddev_iff.mp hnan hvariance) hnotLess
  unfold phi
  dsimp only
  generalize (if (normalDistribution detector.window).stddev < 1 then 1
    else (normalDistribution detector.window).stddev) = sigma at hsigma ⊢
  have hy := not_isNaN_div hdifference hsigma
  have he := libm.zero_le_exp _ (not_isNaN_cubic unpacked_linear unpacked_cubic hy)
  split
  · exact libm.not_isNaN_neg_log10 (zero_le_one_sub he)
  · next hnotLess =>
      have hnonneg := zero_le_sub (isFinite_of_atMost helapsed) hfinite hnotLess
      have hcubic := cubic_le_zero unpacked_linear unpacked_cubic
        (zero_le_div hdifference hnonneg hsigma)
      exact libm.not_isNaN_neg_log10 (zero_le_div_one_add he (libm.isFinite_exp _ hcubic))

/-- `phi` is a number exactly if the variance is not below zero. -/
theorem isNaN_phi_iff : (detector.phi libm t).isNaN ↔ ¬0 ≤ variance detector.window := by
  constructor
  · intro hphi hvariance
    exact not_isNaN_phi libm t hvariance hphi
  · exact isNaN_phi libm t

end FailureDetector

end SpackPlayground.PhiAccrual.Doubles
