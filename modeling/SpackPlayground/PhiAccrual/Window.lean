import Mathlib.Algebra.Field.Basic
import SpackPlayground.Library.SlidingWindow

/-! The sliding window of `phi_accrual_fd`, over an arbitrary arithmetic of durations:
doubles as in the code, or a field, where nothing is rounded. The estimates here are
those over a field. -/
namespace SpackPlayground.PhiAccrual

open Library.SlidingWindow

structure Window (K : Type*) where
  windowSize : Nat
  durations : List K
  sum : K
  sumOfSquares : K
  deriving DecidableEq

variable {K : Type*}

def pow2 [Mul K] (d : K) : K := d * d

namespace Window

section Operations

/-- Both constructors leave the two sums as the storage had them. -/
def construct (windowSize : Nat) (sum sumOfSquares : K) : Window K :=
  ⟨windowSize, [], sum, sumOfSquares⟩

def defaultSize : Nat := 1000

variable [Add K] [Sub K] [Mul K]

def add (w : Window K) (d : K) : Window K :=
  let durations := w.durations ++ [d]
  let sum := w.sum + d
  let sumOfSquares := w.sumOfSquares + pow2 d
  if durations.length > w.windowSize then
    { w with
      durations := durations.tail
      sum := sum - durations.head (by simp [durations])
      sumOfSquares := sumOfSquares - pow2 (durations.head (by simp [durations])) }
  else
    { w with durations := durations, sum := sum, sumOfSquares := sumOfSquares }

@[simp] theorem windowSize_add (w : Window K) (d : K) : (w.add d).windowSize = w.windowSize := by
  unfold add
  dsimp only
  split <;> rfl

theorem length_durations_add {w : Window K} (hsize : w.durations.length ≤ w.windowSize) (d : K) :
    (w.add d).durations.length = min w.windowSize (w.durations.length + 1) := by
  have hlength : (w.durations ++ [d]).length = w.durations.length + 1 := by simp
  unfold add
  dsimp only
  split
  · rw [List.length_tail]
    omega
  · change (w.durations ++ [d]).length = _
    omega

variable [OfNat K 0]

def reset (w : Window K) : Window K :=
  { w with durations := [], sum := 0, sumOfSquares := 0 }

inductive Op (K : Type*) where
  | reset
  | add (d : K)

def apply (w : Window K) : Op K → Window K
  | .reset => w.reset
  | .add d => w.add d

def run (w : Window K) (ops : List (Op K)) : Window K := ops.foldl apply w

end Operations

structure NormalDistribution (K : Type*) where
  mean : K
  stddev : K

variable [Field K]

/-- A sum divided by the number of durations. In a field there is no quotient by zero. -/
def perDuration (w : Window K) (sum : K) : Option K :=
  if w.durations.isEmpty then none else some (sum / w.durations.length)

def mean (w : Window K) : Option K := w.perDuration w.sum

def variance (w : Window K) : Option K := do
  let mean ← w.mean
  let meanOfSquares ← w.perDuration w.sumOfSquares
  return meanOfSquares - pow2 mean

def normalDistribution (sqrt : K → K) (w : Window K) : Option (NormalDistribution K) := do
  let mean ← w.mean
  let meanOfSquares ← w.perDuration w.sumOfSquares
  return ⟨mean, sqrt (meanOfSquares - pow2 mean)⟩

theorem perDuration_eq (w : Window K) (hne : w.durations ≠ []) (sum : K) :
    w.perDuration sum = some (sum / w.durations.length) := by
  unfold perDuration
  rw [if_neg (by simpa using hne)]

/-- A window whose sums are those of its durations. -/
def exact (windowSize : Nat) (durations : List K) : Window K where
  windowSize := windowSize
  durations := durations
  sum := durations.sum
  sumOfSquares := (durations.map pow2).sum

@[simp] theorem reset_eq_exact (w : Window K) : w.reset = exact w.windowSize [] := by
  simp [reset, exact]

theorem add_exact (windowSize : Nat) (durations : List K) (d : K) :
    (exact windowSize durations).add d = exact windowSize (slide windowSize durations d) := by
  have hsum : (durations ++ [d]).sum = durations.sum + d := by simp
  have hsquares : ((durations ++ [d]).map pow2).sum = (durations.map pow2).sum + pow2 d :=
    sum_map_append_singleton pow2
  unfold add exact slide
  by_cases hfull : windowSize < (durations ++ [d]).length
  · have hne : durations ++ [d] ≠ [] := by simp
    have htail := sum_map_tail id hne
    rw [List.map_id, List.map_id, hsum] at htail
    simp only [gt_iff_lt, hfull, if_true, ← hsquares, sum_map_tail pow2 hne, htail, id]
  · simp only [gt_iff_lt, hfull, if_false, hsum, hsquares]

end Window

variable [Field K]

/-- What was added since the latest `reset`, after `added` without one. -/
def addedSince (added : List K) (ops : List (Window.Op K)) : List K :=
  ops.foldl (fun added op => match op with | .reset => [] | .add d => added ++ [d]) added

theorem run_exact (windowSize : Nat) (added : List K) (ops : List (Window.Op K)) :
    (Window.exact windowSize (added.rtake windowSize)).run ops =
      Window.exact windowSize ((addedSince added ops).rtake windowSize) := by
  induction ops generalizing added with
  | nil => rfl
  | cons op ops ih =>
      unfold Window.run addedSince
      rw [List.foldl_cons, List.foldl_cons]
      cases op with
      | reset =>
          have hreset := ih []
          rw [List.rtake_nil] at hreset
          exact hreset
      | add d =>
          have hadd := ih (added ++ [d])
          rw [← slide_rtake, ← Window.add_exact] at hadd
          exact hadd

theorem run_reset (w : Window K) (ops : List (Window.Op K)) :
    w.run (.reset :: ops) = Window.exact w.windowSize ((addedSince [] ops).rtake w.windowSize) := by
  have hrun := run_exact w.windowSize [] ops
  rw [List.rtake_nil, ← Window.reset_eq_exact w] at hrun
  exact hrun

theorem run_append (w : Window K) (first second : List (Window.Op K)) :
    w.run (first ++ second) = (w.run first).run second :=
  List.foldl_append

/-- After a `reset` the window is that of the durations it retains. -/
theorem window_exact (w : Window K) (ops : List (Window.Op K)) :
    let retained := (addedSince [] ops).rtake w.windowSize
    (w.run (.reset :: ops)).durations = retained ∧
      (w.run (.reset :: ops)).sum = retained.sum ∧
      (w.run (.reset :: ops)).sumOfSquares = (retained.map fun d => d * d).sum ∧
      (retained ≠ [] → (w.run (.reset :: ops)).mean = some (retained.sum / retained.length)) ∧
      ∀ (v : Window K) (others later : List (Window.Op K)), v.windowSize = w.windowSize →
        (addedSince [] others).rtake v.windowSize = retained →
        v.run (.reset :: others ++ later) = w.run (.reset :: ops ++ later) := by
  intro retained
  have hrun : w.run (.reset :: ops) = Window.exact w.windowSize retained := run_reset w ops
  rw [hrun]
  refine ⟨rfl, rfl, rfl, ?_, ?_⟩
  · intro hne
    simp [Window.mean, Window.perDuration, Window.exact, hne]
  · intro v others later hsize hretained
    rw [run_append, run_append, run_reset, hretained, hsize, hrun]

end SpackPlayground.PhiAccrual
