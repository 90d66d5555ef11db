import Mathlib.Analysis.Real.Sqrt
import SpackPlayground.Library.Moments
import SpackPlayground.PhiAccrual.Window

/-! `Window::variance` and the standard deviation of `normalDistribution`. -/
namespace SpackPlayground.PhiAccrual

open Library

variable {K : Type*} [Field K]

namespace Window

def Op.lengthen (c : K) : Op K → Op K
  | .reset => .reset
  | .add d => .add (d + c)

section Exact

variable {windowSize : Nat} {durations : List K} (hne : durations ≠ [])

include hne

theorem mean_exact : (exact windowSize durations).mean = some (Moments.mean durations) := by
  unfold mean
  rw [perDuration_eq _ hne]
  rfl

theorem variance_exact :
    (exact windowSize durations).variance = some (Moments.variance durations) := by
  unfold variance
  rw [mean_exact hne, perDuration_eq _ hne]
  rfl

private theorem normalDistribution_exact (sqrt : K → K) :
    (exact windowSize durations).normalDistribution sqrt =
      some ⟨Moments.mean durations, sqrt (Moments.variance durations)⟩ := by
  unfold normalDistribution
  rw [mean_exact hne, perDuration_eq _ hne]
  rfl

end Exact

end Window

private theorem addedSince_lengthen (c : K) (added : List K) (ops : List (Window.Op K)) :
    addedSince (added.map (· + c)) (ops.map (Window.Op.lengthen c)) =
      (addedSince added ops).map (· + c) := by
  induction ops generalizing added with
  | nil => rfl
  | cons op ops ih =>
      cases op with
      | reset => exact ih []
      | add d =>
          have hrest := ih (added ++ [d])
          rw [List.map_append] at hrest
          exact hrest

private theorem run_lengthen (w : Window K) (c : K) (ops : List (Window.Op K)) :
    w.run (.reset :: ops.map (Window.Op.lengthen c)) =
      Window.exact w.windowSize ((w.run (.reset :: ops)).durations.map (· + c)) := by
  have hadded := addedSince_lengthen c [] ops
  rw [List.map_nil] at hadded
  have hrtake (xs : List K) (n : Nat) : (xs.map (· + c)).rtake n = (xs.rtake n).map (· + c) := by
    simp [List.rtake, List.map_drop]
  rw [run_reset, run_reset, hadded, hrtake]
  rfl

variable [LinearOrder K] [IsStrictOrderedRing K]

def IsSqrt (sqrt : K → K) : Prop := ∀ x, 0 ≤ x → 0 ≤ sqrt x ∧ sqrt x * sqrt x = x

/-- After a `reset`, while some duration is retained. -/
theorem variance_wellDefined (w : Window K) (ops : List (Window.Op K))
    (hne : (w.run (.reset :: ops)).durations ≠ []) :
    let window := w.run (.reset :: ops)
    let retained := window.durations
    ∃ mean variance, window.mean = some mean ∧ window.variance = some variance ∧
      variance = (retained.map fun d => (d - mean) * (d - mean)).sum / retained.length ∧
      0 ≤ variance ∧
      (variance = 0 ↔ ∀ d ∈ retained, ∀ other ∈ retained, d = other) ∧
      (∀ c, (w.run (.reset :: ops.map (Window.Op.lengthen c))).variance = some variance) ∧
      ∀ sqrt : K → K, ∃ normal, window.normalDistribution sqrt = some normal ∧
        normal.mean = mean ∧ normal.stddev = sqrt variance ∧
        (IsSqrt sqrt → normal.stddev * normal.stddev = variance) := by
  intro window retained
  have hwindow : window = Window.exact w.windowSize retained := by
    have hrun : window = Window.exact w.windowSize _ := run_reset w ops
    exact hrun.trans (by rw [show retained = _ from congrArg Window.durations hrun]; rfl)
  have hnonneg := Moments.variance_nonneg hne
  refine ⟨Moments.mean retained, Moments.variance retained, ?_, ?_, Moments.variance_eq hne,
    hnonneg, Moments.variance_eq_zero_iff hne, ?_, ?_⟩
  · rw [hwindow]
    exact Window.mean_exact hne
  · rw [hwindow]
    exact Window.variance_exact hne
  · intro c
    rw [run_lengthen, Window.variance_exact (by simpa using hne), Moments.variance_map_add hne]
  · intro sqrt
    refine ⟨⟨Moments.mean retained, sqrt (Moments.variance retained)⟩, ?_, rfl, rfl, ?_⟩
    · rw [hwindow]
      exact Window.normalDistribution_exact hne sqrt
    · intro hsqrt
      exact (hsqrt _ hnonneg).2

theorem variance_wellDefined_two :
    let window := (Window.construct 2 (7 : ℝ) 9).run [.reset, .add 1, .add 3, .add 5]
    ∃ variance normal, window.variance = some variance ∧ 0 ≤ variance ∧
      window.normalDistribution Real.sqrt = some normal ∧
      normal.stddev * normal.stddev = variance := by
  have hdurations : ((Window.construct 2 (7 : ℝ) 9).run
      [.reset, .add 1, .add 3, .add 5]).durations = [3, 5] := by
    rw [run_reset]
    simp [addedSince, Window.exact, Window.construct, List.rtake]
  obtain ⟨_, variance, _, hvariance, _, hnonneg, _, _, hnormal⟩ :=
    variance_wellDefined (Window.construct 2 (7 : ℝ) 9) [.add 1, .add 3, .add 5]
      (by rw [hdurations]; simp)
  obtain ⟨normal, hnormal, _, _, hstddev⟩ := hnormal Real.sqrt
  refine ⟨variance, normal, hvariance, hnonneg, hnormal, hstddev ?_⟩
  intro x hx
  exact ⟨Real.sqrt_nonneg x, Real.mul_self_sqrt hx⟩

end SpackPlayground.PhiAccrual
