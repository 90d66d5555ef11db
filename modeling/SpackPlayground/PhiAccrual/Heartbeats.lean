import Mathlib.Algebra.Order.Ring.Rat
import Mathlib.Tactic.NormNum
import SpackPlayground.Library.Telescope
import SpackPlayground.PhiAccrual.FailureDetector

/-! The window of the failure detector holds the gaps between heartbeats. -/
namespace SpackPlayground.PhiAccrual.FailureDetector

open Library.SlidingWindow Library.Telescope

variable {K : Type*} [Field K]

def heartbeatTimes (ops : List (Op K)) : List K := ops.filterMap Op.heartbeatTime

theorem run_append (detector : FailureDetector K) (first second : List (Op K)) :
    detector.run (first ++ second) = (detector.run first).run second :=
  List.foldl_append

theorem run_cons (detector : FailureDetector K) (op : Op K) (ops : List (Op K)) :
    detector.run (op :: ops) = (detector.apply op).run ops := rfl

@[simp] theorem windowSize_apply (detector : FailureDetector K) (op : Op K) :
    (detector.apply op).window.windowSize = detector.window.windowSize := by
  cases op with
  | reset t => rfl
  | heartbeat t => exact Window.windowSize_add ..
  | phi t => rfl

@[simp] theorem windowSize_run (detector : FailureDetector K) (ops : List (Op K)) :
    (detector.run ops).window.windowSize = detector.window.windowSize := by
  induction ops generalizing detector with
  | nil => rfl
  | cons op ops ih => rw [run_cons, ih, windowSize_apply]

def exact (windowSize : Nat) (last : K) (durations : List K) : FailureDetector K :=
  ⟨last, Window.exact windowSize (durations.rtake windowSize)⟩

theorem reset_eq_exact (detector : FailureDetector K) (t : K) :
    detector.reset t = exact detector.window.windowSize t [] := by
  simp [reset, exact]

private theorem heartbeat_exact (windowSize : Nat) (last t : K) (durations : List K) :
    (exact windowSize last durations).heartbeat t =
      exact windowSize t (durations ++ [t - last]) := by
  unfold heartbeat exact
  rw [Window.add_exact, slide_rtake]

theorem run_exact (windowSize : Nat) (last : K) (durations : List K) {ops : List (Op K)}
    (hops : ∀ op ∈ ops, op.isReset = false) :
    (exact windowSize last durations).run ops =
      exact windowSize ((heartbeatTimes ops).getLastD last)
        (durations ++ gaps last (heartbeatTimes ops)) := by
  induction ops generalizing last durations with
  | nil => simp [run, heartbeatTimes, gaps]
  | cons op ops ih =>
      have hrest : ∀ op ∈ ops, op.isReset = false := fun op hop => hops op (.tail _ hop)
      rw [run_cons]
      cases op with
      | reset t => exact absurd (hops _ (.head _)) (by simp [Op.isReset])
      | phi t => exact ih last durations hrest
      | heartbeat t =>
          have htimes : heartbeatTimes (.heartbeat t :: ops) = t :: heartbeatTimes ops := rfl
          have hrun := ih t (durations ++ [t - last]) hrest
          rw [← heartbeat_exact, List.append_assoc] at hrun
          rw [htimes, List.getLastD_cons, gaps]
          exact hrun

theorem run_reset (detector : FailureDetector K) (before after : List (Op K)) (t : K)
    (hafter : ∀ op ∈ after, op.isReset = false) :
    detector.run (before ++ .reset t :: after) =
      exact detector.window.windowSize ((heartbeatTimes after).getLastD t)
        (gaps t (heartbeatTimes after)) := by
  have hreset : (detector.run before).apply (.reset t) = exact detector.window.windowSize t [] := by
    rw [← windowSize_run detector before]
    exact reset_eq_exact ..
  rw [run_append, run_cons, hreset, run_exact _ _ _ hafter, List.nil_append]

variable [LinearOrder K]

/-- After `reset(t 0)` and heartbeats at `t 1`, ..., `t n`. -/
theorem heartbeats_telescope (now sum sumOfSquares : K) (before after : List (Op K)) (t : Nat → K)
    (n : Nat) (hn : 1 ≤ n) (hafter : ∀ op ∈ after, op.isReset = false)
    (htimes : heartbeatTimes after = (List.range n).map fun i => t (i + 1)) :
    let detector := (construct now sum sumOfSquares).run (before ++ .reset (t 0) :: after)
    let k := min n 1000
    detector.window.durations =
        (List.range k).map (fun i => t (n - k + i + 1) - t (n - k + i)) ∧
      detector.window.mean = some ((t n - t (n - k)) / k) ∧
      ∀ (cmath : Cmath K) (later : K), detector.phi cmath later =
        (detector.window.normalDistribution cmath.sqrt).map fun normal =>
          phiSince normal (later - t n) cmath := by
  intro detector k
  have hwindow : detector.window = Window.exact 1000
      ((List.range k).map fun i => t (n - k + i + 1) - t (n - k + i)) := by
    rw [← rtake_map_range (fun i => t (i + 1) - t i) n 1000, ← gaps_map_range, ← htimes]
    exact congrArg FailureDetector.window (run_reset _ _ _ _ hafter)
  have hlatest : detector.latestHeartbeat = t n := by
    rw [← getLastD_map_range t n, ← htimes]
    exact congrArg FailureDetector.latestHeartbeat (run_reset _ _ _ _ hafter)
  refine ⟨by rw [hwindow]; rfl, ?_, ?_⟩
  · have hne : List.range k ≠ [] := by simp [k]; omega
    have hsum := sum_map_sub t (n - k) k
    rw [Nat.sub_add_cancel (Nat.min_le_left ..)] at hsum
    rw [hwindow]
    simp [Window.mean, Window.perDuration, Window.exact, hne, hsum]
  · intro cmath later
    rw [phi_eq, hlatest]

theorem heartbeats_telescope_three :
    let detector := (construct (1 : ℚ) 7 3).run ([.heartbeat 9] ++ .reset 10 ::
      [.phi 12, .heartbeat 20, .heartbeat 50, .phi 60, .heartbeat 45])
    detector.window.durations = [10, 30, -5] ∧ detector.window.mean = some (35 / 3) := by
  obtain ⟨hdurations, hmean, _⟩ := heartbeats_telescope (1 : ℚ) 7 3 [.heartbeat 9]
    [.phi 12, .heartbeat 20, .heartbeat 50, .phi 60, .heartbeat 45]
    ([10, 20, 50, 45].getD · 0) 3 (by decide) (by simp [Op.isReset]) rfl
  constructor
  · apply hdurations.trans
    norm_num [List.range_succ]
  · apply hmean.trans
    norm_num

end SpackPlayground.PhiAccrual.FailureDetector
