import Mathlib.Algebra.Order.Ring.Abs
import Mathlib.Analysis.SpecialFunctions.Log.Base
import Mathlib.Analysis.SpecialFunctions.Pow.NNReal
import Mathlib.Order.Interval.Set.Defs
import Mathlib.Tactic.FieldSimp
import Mathlib.Tactic.Linarith
import SpackPlayground.PhiAccrual.FailureDetector

/-! A longer silence raises `phi`. -/
namespace SpackPlayground.PhiAccrual.FailureDetector

open Window (NormalDistribution)

variable {K : Type*} [Field K] [LinearOrder K] [IsStrictOrderedRing K]

section Logistic

variable {x x₁ x₂ : K}

theorem div_one_add_pos (hx : 0 < x) : 0 < x / (1 + x) := div_pos hx (by linarith)

private theorem div_one_add_lt_one (hx : 0 < x) : x / (1 + x) < 1 := by
  rw [div_lt_one (by linarith)]
  linarith

/-- The two branches of `phi` take the logarithm of the same number. -/
theorem one_sub_one_div_one_add (hx : 0 < x) : 1 - 1 / (1 + x) = x / (1 + x) := by
  have hne : 1 + x ≠ 0 := by linarith
  field_simp
  ring

private theorem div_one_add_lt (hx : 0 < x₁) (hlt : x₁ < x₂) : x₁ / (1 + x₁) < x₂ / (1 + x₂) := by
  rw [div_lt_div_iff₀ (by linarith) (by linarith)]
  linarith

end Logistic

private theorem sigma_pos (normal : NormalDistribution K) : 0 < sigma normal := by
  unfold sigma
  split
  · exact zero_lt_one
  · linarith

private theorem y_strictMono (normal : NormalDistribution K) : StrictMono (y normal) := by
  intro t₁ t₂ hlt
  unfold y
  apply div_lt_div_of_pos_right _ (sigma_pos normal)
  linarith

private theorem cubic_strictMono : StrictMono fun y : K =>
    y * (15976 / 10000 + 70566 / 1000000 * y * y) := by
  intro y₁ y₂ hlt
  have hcube : y₁ ^ 3 < y₂ ^ 3 := Odd.strictMono_pow (by decide) hlt
  linarith

variable {cmath : Cmath K}

private theorem e_strictAnti (hexp : StrictMono cmath.exp) (normal : NormalDistribution K) :
    StrictAnti fun t => e normal t cmath := by
  intro t₁ t₂ hlt
  apply hexp
  have hcubic := cubic_strictMono (y_strictMono normal hlt)
  linarith

theorem phiSince_eq (hpos : ∀ x, 0 < cmath.exp x) (normal : NormalDistribution K) (t : K) :
    phiSince normal t cmath = -cmath.log10 (e normal t cmath / (1 + e normal t cmath)) := by
  unfold phiSince
  split
  · rw [one_sub_one_div_one_add (show 0 < e normal t cmath from hpos _)]
  · rfl

private theorem phiSince_strictMono (hpos : ∀ x, 0 < cmath.exp x) (hexp : StrictMono cmath.exp)
    (hlog10 : StrictMonoOn cmath.log10 (Set.Ioi 0)) (normal : NormalDistribution K) :
    StrictMono fun t => phiSince normal t cmath := by
  intro t₁ t₂ hlt
  have he₁ : 0 < e normal t₁ cmath := hpos _
  have he₂ : 0 < e normal t₂ cmath := hpos _
  have hlog := hlog10 (div_one_add_pos he₂) (div_one_add_pos he₁)
    (div_one_add_lt he₂ (e_strictAnti hexp normal hlt))
  dsimp only
  rw [phiSince_eq hpos, phiSince_eq hpos]
  exact neg_lt_neg hlog

/-- With at least one duration in the window, a later `phi` is larger. Both branches
take the logarithm of the same number, inside its domain. -/
theorem phi_accrues (cmath : Cmath K) (hpos : ∀ x, 0 < cmath.exp x)
    (hexp : StrictMono cmath.exp) (hlog10 : StrictMonoOn cmath.log10 (Set.Ioi 0))
    (detector : FailureDetector K) (hne : detector.window.durations ≠ []) :
    ∃ normal, detector.window.normalDistribution cmath.sqrt = some normal ∧
      (∀ t, let x := e normal (t - detector.latestHeartbeat) cmath
        detector.phi cmath t = some (-cmath.log10 (1 - 1 / (1 + x))) ∧
        detector.phi cmath t = some (-cmath.log10 (x / (1 + x))) ∧
        1 - 1 / (1 + x) = x / (1 + x) ∧ 0 < x / (1 + x) ∧ x / (1 + x) < 1) ∧
      ∀ t₁ t₂, t₁ < t₂ → ∃ phi₁ phi₂, detector.phi cmath t₁ = some phi₁ ∧
        detector.phi cmath t₂ = some phi₂ ∧ phi₁ < phi₂ := by
  obtain ⟨normal, hnormal⟩ : ∃ normal,
      detector.window.normalDistribution cmath.sqrt = some normal := by
    unfold Window.normalDistribution Window.mean
    rw [Window.perDuration_eq _ hne, Window.perDuration_eq _ hne]
    exact ⟨_, rfl⟩
  have hphi (t : K) : detector.phi cmath t =
      some (phiSince normal (t - detector.latestHeartbeat) cmath) := by
    rw [phi_eq, hnormal, Option.map_some]
  refine ⟨normal, hnormal, ?_, ?_⟩
  · intro t x
    have hx : 0 < x := hpos _
    have hsame := one_sub_one_div_one_add hx
    have hvalue : detector.phi cmath t = some (-cmath.log10 (x / (1 + x))) := by
      rw [hphi, phiSince_eq hpos]
    refine ⟨?_, hvalue, hsame, div_one_add_pos hx, div_one_add_lt_one hx⟩
    rw [hsame]
    exact hvalue
  · intro t₁ t₂ hlt
    refine ⟨_, _, hphi t₁, hphi t₂, ?_⟩
    exact phiSince_strictMono hpos hexp hlog10 normal (sub_lt_sub_right hlt _)

noncomputable def realCmath : Cmath ℝ := ⟨Real.sqrt, Real.exp, Real.logb 10⟩

/-- `t₁` is below the mean of one second and `t₂` above it. -/
theorem phi_accrues_second : ∃ phi₁ phi₂,
    let detector : FailureDetector ℝ := ((construct 0 0 0).reset 0).heartbeat 1000
    detector.phi realCmath 1500 = some phi₁ ∧
      detector.phi realCmath 2500 = some phi₂ ∧ phi₁ < phi₂ := by
  obtain ⟨_, _, _, haccrues⟩ := phi_accrues realCmath Real.exp_pos
    Real.exp_strictMono (Real.strictMonoOn_logb (by norm_num))
    (((construct 0 0 0).reset 0).heartbeat 1000) (by
      simp [reset, heartbeat, construct, Window.construct, Window.reset, Window.add,
        Window.defaultSize])
  exact haccrues 1500 2500 (by norm_num)

end SpackPlayground.PhiAccrual.FailureDetector
