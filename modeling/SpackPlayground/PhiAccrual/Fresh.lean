import SpackPlayground.PhiAccrual.Doubles
import SpackPlayground.PhiAccrual.FailureDetector

/-! What the storage held before a `Window` is constructed in it stays in the
two sums until the first `reset`. -/
namespace SpackPlayground.PhiAccrual.Doubles

open Library.Binary64 Library.Double

structure SameEstimates (w v : Window Float) : Prop where
  mean : Same (mean w) (mean v)
  variance : Same (variance w) (variance v)

section Windows

variable {w v : Window Float}

structure SameSums (w v : Window Float) : Prop where
  windowSize : w.windowSize = v.windowSize
  durations : w.durations = v.durations
  sum : Same w.sum v.sum
  sumOfSquares : Same w.sumOfSquares v.sumOfSquares

theorem SameSums.add (hsame : SameSums w v) (d : Float) : SameSums (w.add d) (v.add d) := by
  have hdurations := hsame.durations
  unfold Window.add
  simp only [hsame.durations, hsame.windowSize]
  split
  · exact ⟨rfl, rfl, (hsame.sum.add_right d).sub_right _,
      (hsame.sumOfSquares.add_right _).sub_right _⟩
  · exact ⟨rfl, rfl, hsame.sum.add_right d, hsame.sumOfSquares.add_right _⟩

theorem SameSums.run (hsame : SameSums w v) (ds : List Float) :
    SameSums (w.run (ds.map .add)) (v.run (ds.map .add)) := by
  induction ds generalizing w v with
  | nil => exact hsame
  | cons d ds ih => exact ih (hsame.add d)

theorem SameSums.estimates (hsame : SameSums w v) : SameEstimates w v := by
  have hsize : size w = size v := by
    unfold size
    rw [hsame.durations]
  have hmean : Same (mean w) (mean v) := by
    unfold mean
    rw [hsize]
    exact hsame.sum.div_right _
  refine ⟨hmean, ?_⟩
  unfold variance pow2
  rw [hsize, hmean.mul_self]
  exact (hsame.sumOfSquares.div_right _).sub_right _

/-- A window that retains nothing, with no mean. -/
structure NoMean (w : Window Float) : Prop where
  windowSize : w.windowSize = 0
  durations : w.durations = []
  sum : ZeroOrNaN w.sum

theorem NoMean.add (hnone : NoMean w) (d : Float) : NoMean (w.add d) := by
  obtain ⟨windowSize, durations, sum, sumOfSquares⟩ := w
  obtain ⟨rfl, rfl, hsum⟩ := hnone
  exact ⟨rfl, rfl, hsum.add_sub d⟩

theorem NoMean.run (hnone : NoMean w) (ds : List Float) : NoMean (w.run (ds.map .add)) := by
  induction ds generalizing w with
  | nil => exact hnone
  | cons d ds ih => exact ih (hnone.add d)

private theorem unpacked_size_nil (hnil : w.durations = []) :
    unpacked (size w) = .zero .positive := by
  unfold size
  rw [hnil]
  rfl

private theorem unpacked_size_singleton {d : Float} (hsingle : w.durations = [d]) :
    unpacked (size w) = one := by
  unfold size
  rw [hsingle, List.length_singleton]
  exact unpacked_one

private theorem isNaN_variance (hmean : (mean w).isNaN) : (variance w).isNaN :=
  isNaN_sub (.inr (isNaN_mul (.inl hmean)))

theorem NoMean.isNaN_mean (hnone : NoMean w) : (mean w).isNaN :=
  (zeroOrNaN_iff_isNaN_div (unpacked_size_nil hnone.durations)).mp hnone.sum

theorem NoMean.estimates (hw : NoMean w) (hv : NoMean v) : SameEstimates w v where
  mean := .inr ⟨hw.isNaN_mean, hv.isNaN_mean⟩
  variance := .inr ⟨isNaN_variance hw.isNaN_mean, isNaN_variance hv.isNaN_mean⟩

end Windows

section Construct

variable {windowSize : Nat} {sum sumOfSquares : Float}

private theorem sameEstimates_of_zero (hsum : sum == 0) (hsumOfSquares : sumOfSquares == 0)
    (ds : List Float) :
    let fresh := Window.construct windowSize sum sumOfSquares
    SameEstimates (fresh.run (ds.map .add)) (fresh.reset.run (ds.map .add)) := by
  intro fresh
  have hsame : SameSums fresh fresh.reset := ⟨rfl, rfl, .inl hsum, .inl hsumOfSquares⟩
  exact (hsame.run ds).estimates

private theorem sameEstimates_of_zeroOrNaN (hsum : ZeroOrNaN sum) (ds : List Float) :
    let fresh := Window.construct 0 sum sumOfSquares
    SameEstimates (fresh.run (ds.map .add)) (fresh.reset.run (ds.map .add)) := by
  intro fresh
  have hfresh : NoMean fresh := ⟨rfl, rfl, hsum⟩
  have hreset : NoMean fresh.reset := ⟨rfl, rfl, .inl zero_beq_zero⟩
  exact (hfresh.run ds).estimates (hreset.run ds)

theorem add_eq (hsize : 1 ≤ windowSize) (d : Float) :
    (Window.construct windowSize sum sumOfSquares).add d =
      ⟨windowSize, [d], sum + d, sumOfSquares + pow2 d⟩ := by
  have hnotFull : ¬([] ++ [d]).length > windowSize := by
    rw [List.nil_append, List.length_singleton]
    omega
  unfold Window.add Window.construct
  exact if_neg hnotFull

private theorem mean_beq_zero_iff {d : Float} :
    (mean ⟨windowSize, [d], sum, sumOfSquares⟩ == 0) = true ↔
    (sum == 0) = true := div_beq_zero_iff (unpacked_size_singleton rfl)

private theorem variance_beq_zero_iff {d : Float} (hsum : sum == 0) :
    (variance ⟨windowSize, [d], sum, sumOfSquares⟩ == 0) = true ↔ (sumOfSquares == 0) = true := by
  unfold variance pow2
  rw [sub_beq_zero_iff (beq_zero_mul_self (mean_beq_zero_iff.mpr hsum))]
  exact div_beq_zero_iff (unpacked_size_singleton rfl)

private theorem zero_of_sameEstimates (hsize : 1 ≤ windowSize)
    (hsame : SameEstimates ((Window.construct windowSize sum sumOfSquares).add 0)
      ((Window.construct windowSize sum sumOfSquares).reset.add 0)) :
    sum == 0 ∧ sumOfSquares == 0 := by
  have hreset : (Window.construct windowSize sum sumOfSquares).reset =
      Window.construct windowSize 0 0 := rfl
  have hzero := zero_beq_zero
  have hsquare : pow2 (0 : Float) == 0 := beq_zero_mul_self hzero
  rw [hreset, add_eq hsize, add_eq hsize] at hsame
  have hmean := hsame.mean.beq_zero (mean_beq_zero_iff.mpr ((add_beq_zero_iff hzero).mpr hzero))
  have hsum := mean_beq_zero_iff.mp hmean
  have hvariance := hsame.variance.beq_zero ((variance_beq_zero_iff
    ((add_beq_zero_iff hzero).mpr hzero)).mpr ((add_beq_zero_iff hsquare).mpr hzero))
  exact ⟨(add_beq_zero_iff hzero).mp hsum,
    (add_beq_zero_iff hsquare).mp ((variance_beq_zero_iff hsum).mp hvariance)⟩

private theorem zeroOrNaN_of_sameEstimates
    (hsame : SameEstimates ((Window.construct 0 sum sumOfSquares).add 0)
      ((Window.construct 0 sum sumOfSquares).reset.add 0)) : ZeroOrNaN sum := by
  have hnone : NoMean (Window.construct 0 sum sumOfSquares).reset :=
    ⟨rfl, rfl, .inl zero_beq_zero⟩
  have hnan := (hnone.add 0).isNaN_mean
  have hmean : (mean ((Window.construct 0 sum sumOfSquares).add 0)).isNaN :=
    hsame.mean.isNaN hnan
  have hsum : ZeroOrNaN (sum + 0 - 0) :=
    (zeroOrNaN_iff_isNaN_div (unpacked_size_nil (by rfl))).mpr hmean
  exact zeroOrNaN_of_add_sub zero_beq_zero hsum

end Construct

namespace FailureDetector

open PhiAccrual.FailureDetector (Op)

def apply (detector : FailureDetector) : Op Int64 → FailureDetector
  | .reset t => detector.reset t
  | .heartbeat t => detector.heartbeat t
  | .phi _ => detector

def run (detector : FailureDetector) (ops : List (Op Int64)) : FailureDetector :=
  ops.foldl apply detector

def answers (libm : Libm) (detector : FailureDetector) : List (Op Int64) → List Float
  | [] => []
  | .phi t :: ops => detector.phi libm t :: detector.answers libm ops
  | op :: ops => (detector.apply op).answers libm ops

structure Alike (libm : Libm) (v w : FailureDetector) (ops : List (Op Int64)) : Prop where
  answers : v.answers libm ops = w.answers libm ops
  estimates : SameEstimates (v.run ops).window (w.run ops).window

/-- Two detectors that are equal, or were constructed over zeros and never used. -/
def Agree (v w : FailureDetector) : Prop :=
  v = w ∨ ∃ now a b a' b', v = construct now a b ∧ w = construct now a' b' ∧
    (a == 0 ∧ a' == 0) ∧ b == 0 ∧ b' == 0

variable {v w : FailureDetector}

private theorem milliseconds_ne_negative_zero (nanoseconds : Int64) :
    unpacked (milliseconds nanoseconds) ≠ .zero .negative := by
  intro hnegative
  obtain hzero | ⟨s, m, e, h, hfinite, _⟩ := unpacked_milliseconds nanoseconds
  · cases hzero.symm.trans hnegative
  · cases hfinite.symm.trans hnegative

theorem Agree.apply (hagree : Agree v w) (op : Op Int64) : Agree (v.apply op) (w.apply op) := by
  obtain rfl | ⟨now, a, b, a', b', rfl, rfl, hsum, hsumOfSquares⟩ := hagree
  · exact .inl rfl
  · cases op with
    | reset t => exact .inl rfl
    | heartbeat t =>
        left
        have hone : 1 ≤ Window.defaultSize := by decide
        have helapsed := milliseconds_ne_negative_zero (t - now)
        have hsquare : unpacked (pow2 (milliseconds (t - now))) ≠ .zero .negative :=
          mul_self_ne_negative_zero _
        unfold FailureDetector.apply heartbeat construct
        dsimp only
        rw [add_eq hone, add_eq hone, add_eq_of_zero hsum.1 hsum.2 helapsed,
          add_eq_of_zero hsumOfSquares.1 hsumOfSquares.2 hsquare]
    | phi t => exact .inr ⟨now, a, b, a', b', rfl, rfl, hsum, hsumOfSquares⟩

theorem Agree.phi (hagree : Agree v w) (libm : Libm) (t : Int64) :
    v.phi libm t = w.phi libm t := by
  obtain rfl | ⟨now, a, b, a', b', rfl, rfl, hsum, hsumOfSquares⟩ := hagree
  · rfl
  · have hsize := unpacked_size_nil (w := (construct now a b).window) rfl
    have hnormal : normalDistribution (construct now a b).window =
        normalDistribution (construct now a' b').window :=
      congrArg₂ (fun mean meanOfSquares : Float =>
          Window.NormalDistribution.mk mean (meanOfSquares - pow2 mean).sqrt)
        (div_eq_of_zero hsum.1 hsum.2 hsize) (div_eq_of_zero hsumOfSquares.1 hsumOfSquares.2 hsize)
    unfold FailureDetector.phi
    rw [hnormal]
    rfl

theorem Agree.estimates (hagree : Agree v w) : SameEstimates v.window w.window := by
  obtain rfl | ⟨now, a, b, a', b', rfl, rfl, hsum, hsumOfSquares⟩ := hagree
  · exact ⟨same_refl _, same_refl _⟩
  · have hsums : SameSums (construct now a b).window (construct now a' b').window :=
      ⟨rfl, rfl, same_of_zero hsum.1 hsum.2, same_of_zero hsumOfSquares.1 hsumOfSquares.2⟩
    exact hsums.estimates

theorem Agree.alike (hagree : Agree v w) (libm : Libm) (ops : List (Op Int64)) :
    Alike libm v w ops := by
  induction ops generalizing v w with
  | nil => exact ⟨rfl, hagree.estimates⟩
  | cons op ops ih =>
      obtain ⟨hanswers, hestimates⟩ := ih (hagree.apply op)
      refine ⟨?_, hestimates⟩
      cases op with
      | phi t => exact congrArg₂ List.cons (hagree.phi libm t) hanswers
      | reset t => exact hanswers
      | heartbeat t => exact hanswers

private theorem zero_of_alike {libm : Libm} {now : Int64} {sum sumOfSquares : Float}
    (halike : Alike libm (construct now sum sumOfSquares)
      ((construct now sum sumOfSquares).reset now) [.heartbeat now]) :
    sum == 0 ∧ sumOfSquares == 0 := by
  have hgap : milliseconds (now - now) = 0 := by
    rw [Int64.sub_self]
    decide +kernel
  have hestimates : SameEstimates
      ((Window.construct Window.defaultSize sum sumOfSquares).add (milliseconds (now - now)))
      ((Window.construct Window.defaultSize sum sumOfSquares).reset.add
        (milliseconds (now - now))) := halike.estimates
  rw [hgap] at hestimates
  exact zero_of_sameEstimates (by decide) hestimates

end FailureDetector

/-- When a `Window`, or a `FailureDetector`, that was never reset behaves like one
that was: the storage held zeros, or neither has a mean. -/
theorem fresh_iff_reset (sum sumOfSquares : Float) :
    (∀ windowSize : Nat,
      let fresh := Window.construct windowSize sum sumOfSquares
      (∀ ds : List Float, ds ≠ [] →
        SameEstimates (fresh.run (ds.map .add)) (fresh.reset.run (ds.map .add))) ↔
      (sum == 0 ∧ sumOfSquares == 0) ∨ windowSize = 0 ∧ (sum == 0 ∨ sum.isNaN)) ∧
    ∀ (libm : Libm) (now : Int64),
      let fresh := FailureDetector.construct now sum sumOfSquares
      (∀ ops, FailureDetector.Alike libm fresh (fresh.reset now) ops) ↔
        sum == 0 ∧ sumOfSquares == 0 := by
  constructor
  · intro windowSize fresh
    constructor
    · intro hsame
      have hzero := hsame [0] (List.cons_ne_nil _ _)
      by_cases hsize : windowSize = 0
      · subst hsize
        exact .inr ⟨rfl, zeroOrNaN_of_sameEstimates hzero⟩
      · exact .inl (zero_of_sameEstimates (by omega) hzero)
    · rintro (⟨hsum, hsumOfSquares⟩ | ⟨rfl, hsum⟩) ds _
      · exact sameEstimates_of_zero hsum hsumOfSquares ds
      · exact sameEstimates_of_zeroOrNaN hsum ds
  · intro libm now fresh
    constructor
    · intro halike
      exact FailureDetector.zero_of_alike (halike [.heartbeat now])
    · rintro ⟨hsum, hsumOfSquares⟩ ops
      apply FailureDetector.Agree.alike
      exact .inr ⟨now, sum, sumOfSquares, 0, 0, rfl, rfl, ⟨hsum, zero_beq_zero⟩,
        hsumOfSquares, zero_beq_zero⟩

theorem not_fresh_like_reset : ¬ ∀ (windowSize : Nat) (sum sumOfSquares : Float)
    (ds : List Float), ds ≠ [] → let fresh := Window.construct windowSize sum sumOfSquares
      SameEstimates (fresh.run (ds.map .add)) (fresh.reset.run (ds.map .add)) := by
  intro hall
  have hmean := (hall 1000 300 0 [1000, 3000, 2000] (List.cons_ne_nil _ _)).mean
  exact absurd hmean (by decide +kernel)

theorem fresh_like_reset_zeroed :
    let fresh := Window.construct 3 (-0.0) 0.0
    SameEstimates (fresh.run ([1000, 1000, 3000, 2000].map .add))
      (fresh.reset.run ([1000, 1000, 3000, 2000].map .add)) :=
  ((fresh_iff_reset (-0.0) 0.0).1 3).mpr (.inl (by decide +kernel)) [1000, 1000, 3000, 2000]
    (List.cons_ne_nil _ _)

end SpackPlayground.PhiAccrual.Doubles
