import SpackPlayground.Library.History
import SpackPlayground.Library.Transition
import SpackPlayground.PhiAccrual.Doubles

/-! The server of `thallium_failure_detector`. The mutex makes each iteration of
the printing thread, and each handling of the RPC `hb`, one step. -/
namespace SpackPlayground.PhiAccrual.Server

open Library.Double Library.History Library.Transition Doubles

inductive Event where
  | handled (t : Int64)
  /-- The printing thread evaluates `phi`, of the window as it is then. -/
  | evaluated (window : Window Float) (phi : Float)
  deriving DecidableEq

structure State where
  failureDetector : Doubles.FailureDetector
  receivedFirstHeartbeat : Bool
  log : List Event

/-- Each step with what the clock reads. -/
inductive Action where
  | print (t : Int64)
  | hb (t : Int64)

def start (now : Int64) (sum sumOfSquares : Float) : State :=
  ⟨.construct now sum sumOfSquares, false, []⟩

def handle (s : State) (t : Int64) : State :=
  if !s.receivedFirstHeartbeat then
    { receivedFirstHeartbeat := true
      failureDetector := s.failureDetector.reset t
      log := s.log ++ [.handled t] }
  else
    { s with
      failureDetector := s.failureDetector.heartbeat t
      log := s.log ++ [.handled t] }

def print (libm : Libm) (s : State) (t : Int64) : State :=
  { s with log := s.log ++ [.evaluated s.failureDetector.window (s.failureDetector.phi libm t)] }

def step (libm : Libm) (s : State) : Action → State
  | .print t => print libm s t
  | .hb t => handle s t

def machine (libm : Libm) : System State Action where
  init s := ∃ now sum sumOfSquares, s = start now sum sumOfSquares
  step s action s' := s' = step libm s action

/-- An evaluation divides by at least one sample, and its results are numbers. -/
def Defined : Event → Prop
  | .handled _ => True
  | .evaluated window phi => 1 ≤ window.durations.length ∧ ¬(mean window).isNaN ∧
      ¬(normalDistribution window).stddev.isNaN ∧ ¬phi.isNaN

def Event.isHandled : Event → Bool
  | .handled _ => true
  | .evaluated .. => false

def heartbeats (log : List Event) : Nat := log.countP Event.isHandled

@[simp] theorem heartbeats_handled (log : List Event) (t : Int64) :
    heartbeats (log ++ [.handled t]) = heartbeats log + 1 := by
  simp [heartbeats, Event.isHandled]

@[simp] theorem heartbeats_evaluated (log : List Event) (window : Window Float) (phi : Float) :
    heartbeats (log ++ [.evaluated window phi]) = heartbeats log := by
  simp [heartbeats, Event.isHandled]

/-- An evaluation comes after at least two heartbeats, and rounding has left the variance
of the window at zero or above. -/
def Awaited (before : List Event) : Event → Prop
  | .handled _ => True
  | .evaluated window _ => 2 ≤ heartbeats before ∧ 0 ≤ variance window

structure Inv (s : State) : Prop where
  windowSize : s.failureDetector.window.windowSize = Window.defaultSize
  received : s.receivedFirstHeartbeat = true ↔ 0 < heartbeats s.log
  /-- The first heartbeat only resets the window. -/
  samples : s.failureDetector.window.durations.length =
    min Window.defaultSize (heartbeats s.log - 1)
  evaluations : EachWhen (fun before event => Defined event ↔ Awaited before event) s.log

theorem inv_start (now : Int64) (sum sumOfSquares : Float) : Inv (start now sum sumOfSquares) where
  windowSize := rfl
  received := by simp [start, heartbeats]
  samples := by simp [start, heartbeats, Doubles.FailureDetector.construct, Window.construct]
  evaluations := eachWhen_nil

theorem Inv.handle {s : State} (hinv : Inv s) (t : Int64) : Inv (handle s t) := by
  have hlog : EachWhen (fun before event => Defined event ↔ Awaited before event)
      (s.log ++ [.handled t]) := hinv.evaluations.append_singleton Iff.rfl
  have hreceived := hinv.received
  unfold Server.handle
  cases hfirst : s.receivedFirstHeartbeat with
  | false =>
      rw [Bool.not_false, if_pos rfl]
      have hnone : heartbeats s.log = 0 := by
        rw [hfirst] at hreceived
        simpa using hreceived
      exact
        { windowSize := hinv.windowSize
          received := by simp
          samples := by simp [Doubles.FailureDetector.reset, Window.reset, hnone]
          evaluations := hlog }
  | true =>
      rw [Bool.not_true, if_neg Bool.false_ne_true]
      have hsome : 0 < heartbeats s.log := hreceived.mp hfirst
      have hsamples := hinv.samples
      have hsize : s.failureDetector.window.durations.length ≤
          s.failureDetector.window.windowSize := by
        rw [hinv.windowSize, hsamples]
        exact Nat.min_le_left ..
      exact
        { windowSize := (Window.windowSize_add ..).trans hinv.windowSize
          received := by simp
          samples := by
            rw [heartbeats_handled]
            apply (Window.length_durations_add hsize _).trans
            rw [hinv.windowSize]
            omega
          evaluations := hlog }

variable {libm : Libm}

theorem Inv.print {s : State} (hinv : Inv s) (t : Int64) : Inv (print libm s t) where
  windowSize := hinv.windowSize
  received := by simpa [Server.print] using hinv.received
  samples := by simpa [Server.print] using hinv.samples
  evaluations := by
    apply hinv.evaluations.append_singleton
    have hsamples := hinv.samples
    constructor
    · rintro ⟨hsample, _, _, hphi⟩
      rw [Doubles.FailureDetector.isNaN_phi_iff, not_not] at hphi
      exact ⟨by omega, hphi⟩
    · rintro ⟨_, hvariance⟩
      have hmean := not_isNaN_of_isFinite (isFinite_mean hvariance)
      have hstddev := fun hnan => isNaN_stddev_iff.mp hnan hvariance
      have hphi := fun hnan => (Doubles.FailureDetector.isNaN_phi_iff libm t).mp hnan hvariance
      exact ⟨length_durations_pos hvariance, hmean, hstddev, hphi⟩

theorem inv_of_reachable {s : State} (hs : (machine libm).Reachable s) : Inv s := by
  apply hs.invariant (motive := Inv)
  · intro s hinit
    obtain ⟨now, sum, sumOfSquares, rfl⟩ := hinit
    exact inv_start now sum sumOfSquares
  · intro s action s' _ hinv hstep
    cases action with
    | print t =>
        rw [show s' = Server.print libm s t from hstep]
        exact hinv.print t
    | hb t =>
        rw [show s' = Server.handle s t from hstep]
        exact hinv.handle t

/-- When the printing thread never evaluates `phi` on an empty window, or to no number. -/
theorem evaluations_defined_iff (libm : Libm) (s : State) (hs : (machine libm).Reachable s) :
    (∀ event ∈ s.log, Defined event) ↔ EachWhen Awaited s.log :=
  (inv_of_reachable hs).evaluations.forall_iff

/-- The real functions at zero and at one half, and elsewhere only what is relied on. -/
def coarseLibm : Libm where
  exp x := if x.isNaN then x else if x == 0 then 1 else if x < 0 then 0 else 1 / 0
  log10 x :=
    if x.isNaN ∨ x < 0 then 0 / 0 else if x == 0.5 then -0.3010299956639812 else 0
  isNaN_exp x hnan := by rwa [if_pos hnan]
  zero_le_exp x hnan := by
    rw [if_neg hnan]
    split
    · decide +kernel
    · split <;> decide +kernel
  isFinite_exp x hx := by
    rw [if_neg (not_isNaN_of_le_zero hx)]
    split
    · decide +kernel
    · next hne =>
        have hlt : x < 0 := (le_iff_lt_or_beq.mp hx).resolve_right hne
        rw [if_pos hlt]
        decide +kernel
  isNaN_log10_iff x := by
    split
    · next hnan => exact iff_of_true (by decide +kernel) hnan
    · next hnumber =>
        apply iff_of_false _ hnumber
        split <;> decide +kernel

theorem reachable_of_actions (actions : List Action) :
    (machine coarseLibm).Reachable (actions.foldl (step coarseLibm) (start 0 0 0)) := by
  have hrun (s : State) :
      (machine coarseLibm).Run s actions (actions.foldl (step coarseLibm) s) := by
    induction actions generalizing s with
    | nil => exact .nil s
    | cons action actions ih => exact .cons rfl (ih _)
  exact ⟨_, actions, ⟨0, 0, 0, rfl⟩, hrun _⟩

/-- The thread prints before any heartbeat, and after the first one. -/
theorem not_defined_at_start : ¬ ∀ s, (machine coarseLibm).Reachable s →
    ∀ event ∈ s.log, Defined event := by
  intro hall
  have hdefined := hall _ (reachable_of_actions [.print 1000000, .hb 2000000, .print 3000000])
    (.evaluated (Window.construct Window.defaultSize 0 0) _) (.head _)
  exact absurd hdefined.1 (by decide)

/-- Equal gaps between four heartbeats, whose variance is rounded below zero. -/
example :
    let s := [.hb 0, .hb 100030000, .hb 200060000, .hb 300090000].foldl (step coarseLibm)
      (start 0 0 0)
    s.failureDetector.window.durations = [100.03, 100.03, 100.03] ∧
      variance s.failureDetector.window < 0 ∧
      (s.failureDetector.phi coarseLibm 400120000).isNaN := by decide +kernel

theorem defined_after_two_heartbeats : ∃ s, (machine coarseLibm).Reachable s ∧
    s.log = [.handled 100000000, .handled 200000000,
      .evaluated ⟨1000, [100], 100, 10000⟩ 0.3010299956639812] ∧
    ∀ event ∈ s.log, Defined event := by
  obtain ⟨s, hreachable, hlog⟩ : ∃ s, (machine coarseLibm).Reachable s ∧
      s.log = [] ++ [.handled 100000000] ++ [.handled 200000000] ++
        [.evaluated ⟨1000, [100], 100, 10000⟩ 0.3010299956639812] :=
    ⟨_, reachable_of_actions [.hb 100000000, .hb 200000000, .print 300000000], by decide +kernel⟩
  refine ⟨s, hreachable, hlog, ?_⟩
  apply (evaluations_defined_iff coarseLibm s hreachable).mpr
  rw [hlog, eachWhen_append_singleton_iff, eachWhen_append_singleton_iff,
    eachWhen_append_singleton_iff]
  exact ⟨⟨⟨eachWhen_nil, trivial⟩, trivial⟩, Nat.le_refl 2, by decide +kernel⟩

end SpackPlayground.PhiAccrual.Server
