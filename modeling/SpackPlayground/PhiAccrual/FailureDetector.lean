import Mathlib.Algebra.Order.Field.Basic
import SpackPlayground.PhiAccrual.Window

/-! The failure detector. Time points and durations are milliseconds in the
same ordered field. -/
namespace SpackPlayground.PhiAccrual

structure Cmath (K : Type*) where
  sqrt : K → K
  exp : K → K
  log10 : K → K

structure FailureDetector (K : Type*) where
  latestHeartbeat : K
  window : Window K

namespace FailureDetector

variable {K : Type*} [Field K]

/-- The clock reads `now`; the rest is as `Window::Window` leaves it. -/
def construct (now sum sumOfSquares : K) : FailureDetector K :=
  ⟨now, Window.construct Window.defaultSize sum sumOfSquares⟩

def reset (detector : FailureDetector K) (t : K) : FailureDetector K :=
  ⟨t, detector.window.reset⟩

def heartbeat (detector : FailureDetector K) (t : K) : FailureDetector K :=
  ⟨t, detector.window.add (t - detector.latestHeartbeat)⟩

inductive Op (K : Type*) where
  | reset (t : K)
  | heartbeat (t : K)
  | phi (t : K)

def apply (detector : FailureDetector K) : Op K → FailureDetector K
  | .reset t => detector.reset t
  | .heartbeat t => detector.heartbeat t
  | .phi _ => detector

def run (detector : FailureDetector K) (ops : List (Op K)) : FailureDetector K :=
  ops.foldl apply detector

def Op.isReset : Op K → Bool
  | .reset _ => true
  | .heartbeat _ | .phi _ => false

def Op.heartbeatTime : Op K → Option K
  | .heartbeat t => some t
  | .reset _ | .phi _ => none

variable [LinearOrder K] {cmath : Cmath K} {detector : FailureDetector K} {t : K}

/-- `none` where the code computes with a mean that is not a number. -/
def phi (cmath : Cmath K) (detector : FailureDetector K) (t : K) : Option K := do
  let timeSinceLastHeartbeat := t - detector.latestHeartbeat
  let normal ← detector.window.normalDistribution cmath.sqrt
  let sigma := if normal.stddev < 1 then 1 else normal.stddev
  let y := (timeSinceLastHeartbeat - normal.mean) / sigma
  let e := cmath.exp (-y * (15976 / 10000 + 70566 / 1000000 * y * y))
  if timeSinceLastHeartbeat < normal.mean then
    return -cmath.log10 (1 - 1 / (1 + e))
  else
    return -cmath.log10 (e / (1 + e))

open Window (NormalDistribution)

section Formula

variable (normal : NormalDistribution K) (timeSinceLastHeartbeat : K)

def sigma : K := if normal.stddev < 1 then 1 else normal.stddev

def y : K := (timeSinceLastHeartbeat - normal.mean) / sigma normal

def e (cmath : Cmath K) : K :=
  cmath.exp (-y normal timeSinceLastHeartbeat *
    (15976 / 10000 + 70566 / 1000000 * y normal timeSinceLastHeartbeat *
      y normal timeSinceLastHeartbeat))

def phiSince (cmath : Cmath K) : K :=
  if timeSinceLastHeartbeat < normal.mean then
    -cmath.log10 (1 - 1 / (1 + e normal timeSinceLastHeartbeat cmath))
  else
    -cmath.log10 (e normal timeSinceLastHeartbeat cmath /
      (1 + e normal timeSinceLastHeartbeat cmath))

end Formula

theorem phi_eq : detector.phi cmath t = (detector.window.normalDistribution cmath.sqrt).map
    fun normal => phiSince normal (t - detector.latestHeartbeat) cmath := by
  cases hnormal : detector.window.normalDistribution cmath.sqrt with
  | none => simp [phi, hnormal]
  | some normal =>
      simp only [phi, hnormal, Option.bind_eq_bind, Option.bind_some, Option.map_some,
        phiSince, e, y, sigma]
      split <;> rfl

end FailureDetector

end SpackPlayground.PhiAccrual
