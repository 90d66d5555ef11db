import SpackPlayground.Library.Tally
import SpackPlayground.Library.Transition

/-! `psync::Barrier`: a counter, a mutex and a condition variable. Each caller
calls `enter` once; the steps of all calls interleave freely. -/
namespace SpackPlayground.Psync.Barrier

open Library.Tally Library.Transition

inductive Pc where
  /-- Not called yet, or waiting for the mutex at the start. -/
  | outside
  /-- Before `nthreads_ -= 1`. -/
  | locked
  /-- Before `cond_.notify_all()`. -/
  | decremented
  /-- In `cond_.wait`, before the predicate is tested. -/
  | testing
  /-- In `cond_.wait`, blocked, with the mutex released. -/
  | asleep
  /-- In `cond_.wait`, notified or woken spuriously, waiting for the mutex. -/
  | woken
  /-- The predicate held; before the mutex is released. -/
  | leaving
  | returned
  deriving DecidableEq

/-- The steps of one caller. `wake` is a spurious wake-up. -/
inductive Action where
  | lock
  | decrement
  | notifyAll
  | test
  | wake
  | relock
  | unlock
  deriving DecidableEq

structure State (α : Type*) where
  nthreads : UInt64
  mtx : Option α
  pcs : α → Pc

variable {α : Type*}

def construct (nthreads : UInt64) : State α where
  nthreads := nthreads
  mtx := none
  pcs _ := .outside

def Pc.notified : Pc → Pc
  | .asleep => .woken
  | pc => pc

def Pc.Holds : Pc → Prop
  | .locked | .decremented | .testing | .leaving => True
  | _ => False

def Pc.Decremented : Pc → Prop
  | .outside | .locked => False
  | _ => True

def Pc.Passed : Pc → Prop
  | .leaving | .returned => True
  | _ => False

instance : DecidablePred Pc.Decremented := fun pc => by
  cases pc <;> unfold Pc.Decremented <;> infer_instance

@[simp] theorem Pc.holds_notified (pc : Pc) : pc.notified.Holds ↔ pc.Holds := by
  cases pc <;> rfl

@[simp] theorem Pc.decremented_notified (pc : Pc) :
    pc.notified.Decremented ↔ pc.Decremented := by
  cases pc <;> rfl

@[simp] theorem Pc.passed_notified (pc : Pc) : pc.notified.Passed ↔ pc.Passed := by
  cases pc <;> rfl

theorem Pc.notified_ne_asleep (pc : Pc) : pc.notified ≠ .asleep := by
  cases pc <;> simp [Pc.notified]

section Invariant

variable [Fintype α]

/-- The constructor was given the number of callers, or that number is the first
one too large for a `size_t`. -/
def Fits (α : Type*) [Fintype α] (nthreads : UInt64) : Prop :=
  nthreads.toNat = Fintype.card α ∨ nthreads = 0 ∧ Fintype.card α = 2 ^ 64

structure Inv (s : State α) : Prop where
  counter : s.nthreads.toNat + tally Pc.Decremented s.pcs = Fintype.card α ∨
    s.nthreads = 0 ∧ tally Pc.Decremented s.pcs = 0 ∧ Fintype.card α = 2 ^ 64
  owner : ∀ a, (s.pcs a).Holds ↔ s.mtx = some a
  passed : ∀ a, (s.pcs a).Passed → s.nthreads = 0
  -- a sleeper will be notified: the counter is still to be decremented, or the
  -- last one to decrement it has not notified yet
  asleep : ∀ a, s.pcs a = .asleep → s.nthreads ≠ 0 ∨ ∃ b, s.pcs b = .decremented

theorem inv_construct {nthreads : UInt64} (hfits : Fits α nthreads) :
    Inv (construct nthreads : State α) where
  counter := by
    have hnone : tally Pc.Decremented (construct nthreads : State α).pcs = 0 :=
      tally_eq_zero fun _ => id
    rw [hnone]
    cases hfits with
    | inl hcard => exact .inl hcard
    | inr hwrapped => exact .inr ⟨hwrapped.1, rfl, hwrapped.2⟩
  owner a := by simp [construct, Pc.Holds]
  passed a := False.elim
  asleep a := nofun

variable {s : State α} {a b : α}

theorem Inv.counter_eq (hinv : Inv s) (hb : (s.pcs b).Decremented) :
    s.nthreads.toNat + tally Pc.Decremented s.pcs = Fintype.card α := by
  have hpositive := tally_pos hb
  have hcounter := hinv.counter
  omega

theorem Inv.zero_iff (hinv : Inv s) (hb : (s.pcs b).Decremented) :
    s.nthreads = 0 ↔ ∀ a, (s.pcs a).Decremented := by
  have hcounter := hinv.counter_eq hb
  rw [← tally_eq_card_iff, ← UInt64.toNat_inj, UInt64.toNat_zero]
  omega

theorem Inv.counter_ne_zero (hinv : Inv s) (ha : ¬ (s.pcs a).Decremented)
    (hb : (s.pcs b).Decremented) : s.nthreads ≠ 0 :=
  fun hzero => ha ((hinv.zero_iff hb).mp hzero a)

/-- Who has not decremented yet decrements without a wrap, unless the
constructor's argument wrapped. -/
theorem Inv.toNat_decrement (hinv : Inv s) (hcard : Fintype.card α < 2 ^ 64)
    (ha : ¬ (s.pcs a).Decremented) : (s.nthreads - 1).toNat + 1 = s.nthreads.toNat := by
  have hlt := tally_lt_card ha
  have hcounter := hinv.counter
  have hpositive : 1 ≤ s.nthreads.toNat := by omega
  have hsub : (s.nthreads - 1).toNat = s.nthreads.toNat - 1 :=
    UInt64.toNat_sub_of_le _ 1 (UInt64.le_iff_toNat_le.mpr hpositive)
  omega

end Invariant

variable [DecidableEq α]

def State.move (s : State α) (a : α) (pc : Pc) : State α :=
  { s with pcs := Function.update s.pcs a pc }

def step (s : State α) (a : α) (action : Action) : Option (State α) :=
  match s.pcs a, action with
  | .outside, .lock => if s.mtx = none then some { s.move a .locked with mtx := some a } else none
  | .locked, .decrement => some { s.move a .decremented with nthreads := s.nthreads - 1 }
  | .decremented, .notifyAll =>
      some { s with pcs := Function.update (fun b => (s.pcs b).notified) a .testing }
  | .testing, .test =>
      if s.nthreads = 0 then some (s.move a .leaving)
      else some { s.move a .asleep with mtx := none }
  | .asleep, .wake => some (s.move a .woken)
  | .woken, .relock =>
      if s.mtx = none then some { s.move a .testing with mtx := some a } else none
  | .leaving, .unlock => some { s.move a .returned with mtx := none }
  | _, _ => none

inductive Moves (s : State α) (a : α) : Action → State α → Prop where
  | lock : s.pcs a = .outside → s.mtx = none →
      Moves s a .lock { s.move a .locked with mtx := some a }
  | decrement : s.pcs a = .locked →
      Moves s a .decrement { s.move a .decremented with nthreads := s.nthreads - 1 }
  | notifyAll : s.pcs a = .decremented → Moves s a .notifyAll
      { s with pcs := Function.update (fun b => (s.pcs b).notified) a .testing }
  | pass : s.pcs a = .testing → s.nthreads = 0 → Moves s a .test (s.move a .leaving)
  | sleep : s.pcs a = .testing → s.nthreads ≠ 0 →
      Moves s a .test { s.move a .asleep with mtx := none }
  | wake : s.pcs a = .asleep → Moves s a .wake (s.move a .woken)
  | relock : s.pcs a = .woken → s.mtx = none →
      Moves s a .relock { s.move a .testing with mtx := some a }
  | unlock : s.pcs a = .leaving → Moves s a .unlock { s.move a .returned with mtx := none }

theorem moves_of_step {s s' : State α} {a : α} {action : Action}
    (hstep : step s a action = some s') : Moves s a action s' := by
  unfold step at hstep
  split at hstep
  case h_1 hpc =>
      split at hstep
      · cases hstep
        exact .lock hpc ‹_›
      · cases hstep
  case h_2 hpc =>
      cases hstep
      exact .decrement hpc
  case h_3 hpc =>
      cases hstep
      exact .notifyAll hpc
  case h_4 hpc =>
      split at hstep
      · cases hstep
        exact .pass hpc ‹_›
      · cases hstep
        exact .sleep hpc ‹_›
  case h_5 hpc =>
      cases hstep
      exact .wake hpc
  case h_6 hpc =>
      split at hstep
      · cases hstep
        exact .relock hpc ‹_›
      · cases hstep
  case h_7 hpc =>
      cases hstep
      exact .unlock hpc
  case h_8 => cases hstep

/-- The barrier with the number of callers it was constructed for, or another. -/
def system (α : Type*) [DecidableEq α] (nthreads : UInt64) : System (State α) (α × Action) where
  init s := s = construct nthreads
  step s call s' := step s call.1 call.2 = some s'

section Steps

variable {s s' : State α} {a : α} {pc : Pc} {action : Action}

theorem pcs_of_ne {b : α} (hstep : step s a action = some s') (hne : b ≠ a) :
    s'.pcs b = s.pcs b ∨ s.pcs b = .asleep ∧ s'.pcs b = .woken := by
  cases moves_of_step hstep with
  | notifyAll hpc =>
      simp only [Function.update_of_ne hne]
      cases s.pcs b <;> simp [Pc.notified]
  | _ => exact .inl (Function.update_of_ne hne ..)

theorem outside_iff_lock (hstep : step s a action = some s') :
    s.pcs a = .outside ↔ action = .lock := by
  cases moves_of_step hstep <;> simp_all

theorem pcs_self_ne_outside (hstep : step s a action = some s') : s'.pcs a ≠ .outside := by
  cases moves_of_step hstep <;> simp [State.move]

private theorem pcs_self_ne (hstep : step s a action = some s') : s'.pcs a ≠ s.pcs a := by
  cases moves_of_step hstep <;> simp_all [State.move]

theorem ne_returned_of_step (hstep : step s a action = some s') : s.pcs a ≠ .returned := by
  cases moves_of_step hstep <;> simp_all

private theorem exists_step_of_holds (hholds : (s.pcs a).Holds) :
    ∃ action s', action ≠ .wake ∧ step s a action = some s' := by
  cases hpc : s.pcs a <;> simp only [hpc, Pc.Holds] at hholds
  case locked => exact ⟨.decrement, _, by decide, by simp only [step, hpc]; rfl⟩
  case decremented => exact ⟨.notifyAll, _, by decide, by simp only [step, hpc]; rfl⟩
  case testing =>
    by_cases hzero : s.nthreads = 0
    · exact ⟨.test, _, by decide, by simp only [step, hpc, hzero, if_true]; rfl⟩
    · exact ⟨.test, _, by decide, by simp only [step, hpc, hzero, if_false]; rfl⟩
  case leaving => exact ⟨.unlock, _, by decide, by simp only [step, hpc]; rfl⟩

private theorem exists_step_of_free (hfree : s.mtx = none)
    (hwaits : s.pcs a = .outside ∨ s.pcs a = .woken) :
    ∃ action s', action ≠ .wake ∧ step s a action = some s' := by
  rcases hwaits with hpc | hpc
  · exact ⟨.lock, _, by decide, by simp only [step, hpc, hfree, if_true]; rfl⟩
  · exact ⟨.relock, _, by decide, by simp only [step, hpc, hfree, if_true]; rfl⟩

private theorem exists_move_of_ne {target : Pc} (hne : s.pcs a ≠ target)
    (hexists : ∃ b, s.pcs b = target) : ∃ b, Function.update s.pcs a pc b = target := by
  obtain ⟨b, hb⟩ := hexists
  have hba : b ≠ a := by
    rintro rfl
    exact hne hb
  exact ⟨b, by rwa [Function.update_of_ne hba]⟩

variable [Fintype α]

theorem Inv.counter_moved (hinv : Inv s) (hsame : pc.Decremented ↔ (s.pcs a).Decremented) :
    s.nthreads.toNat + tally Pc.Decremented (Function.update s.pcs a pc) = Fintype.card α ∨
    s.nthreads = 0 ∧ tally Pc.Decremented (Function.update s.pcs a pc) = 0 ∧
      Fintype.card α = 2 ^ 64 := by
  rw [tally_update_of_iff hsame]
  exact hinv.counter

theorem Inv.owner_taken (hinv : Inv s) (hfree : s.mtx = none) (hpc : pc.Holds) (b : α) :
    (Function.update s.pcs a pc b).Holds ↔ (some a : Option α) = some b := by
  refine forall_update (motive := fun b (pc : Pc) => pc.Holds ↔ some a = some b) ?_ ?_ b
  · simp [hpc]
  · intro c hc
    rw [hinv.owner c, hfree]
    simp [Ne.symm hc]

theorem Inv.owner_kept (hinv : Inv s) (hholds : (s.pcs a).Holds) (hpc : pc.Holds) (b : α) :
    (Function.update s.pcs a pc b).Holds ↔ s.mtx = some b := by
  have hmtx := (hinv.owner a).mp hholds
  refine forall_update (motive := fun b (pc : Pc) => pc.Holds ↔ s.mtx = some b) ?_ ?_ b
  · simp [hpc, hmtx]
  · intro c _
    exact hinv.owner c

theorem Inv.owner_released (hinv : Inv s) (hholds : (s.pcs a).Holds) (hpc : ¬ pc.Holds) (b : α) :
    (Function.update s.pcs a pc b).Holds ↔ (none : Option α) = some b := by
  have hmtx := (hinv.owner a).mp hholds
  refine forall_update (motive := fun b (pc : Pc) => pc.Holds ↔ none = some b) ?_ ?_ b
  · simp [hpc]
  · intro c hc
    rw [hinv.owner c, hmtx]
    simp [Ne.symm hc]

theorem Inv.passed_moved (hinv : Inv s) (hpc : ¬ pc.Passed) (b : α) :
    (Function.update s.pcs a pc b).Passed → s.nthreads = 0 :=
  forall_update (motive := fun _ (pc : Pc) => pc.Passed → s.nthreads = 0)
    (fun hpassed => absurd hpassed hpc) (fun c _ => hinv.passed c) b

/-- Only the notifier's own move can end a pending notification. -/
theorem Inv.asleep_moved (hinv : Inv s) (hold : s.pcs a ≠ .decremented) (hpc : pc ≠ .asleep)
    (b : α) : Function.update s.pcs a pc b = .asleep →
      s.nthreads ≠ 0 ∨ ∃ c, Function.update s.pcs a pc c = .decremented := by
  refine forall_update (motive := fun _ (entry : Pc) => entry = .asleep →
    s.nthreads ≠ 0 ∨ ∃ c, Function.update s.pcs a pc c = .decremented) ?_ ?_ b
  · exact fun heq => absurd heq hpc
  · intro c _ hasleep
    exact (hinv.asleep c hasleep).imp_right (exists_move_of_ne hold)

theorem Inv.lock (hinv : Inv s) (hpc : s.pcs a = .outside) (hfree : s.mtx = none) :
    Inv { s.move a .locked with mtx := some a } where
  counter := hinv.counter_moved (by simp [hpc, Pc.Decremented])
  owner := hinv.owner_taken hfree trivial
  passed := hinv.passed_moved id
  asleep := hinv.asleep_moved (by simp [hpc]) nofun

theorem Inv.decrement (hinv : Inv s) (hpc : s.pcs a = .locked) :
    Inv { s.move a .decremented with nthreads := s.nthreads - 1 } := by
  have hnot : ¬ (s.pcs a).Decremented := by simp [hpc, Pc.Decremented]
  have htally : tally Pc.Decremented (Function.update s.pcs a .decremented) =
      tally Pc.Decremented s.pcs + 1 := tally_update_succ hnot trivial
  refine ⟨.inl ?_, hinv.owner_kept (by simp [hpc, Pc.Holds]) trivial, ?_, ?_⟩
  · have hlt := tally_lt_card hnot
    have hcounter := hinv.counter
    have hnext : (s.nthreads - 1).toNat + 1 = s.nthreads.toNat ∨
        s.nthreads.toNat = 0 ∧ (s.nthreads - 1).toNat + 1 = 2 ^ 64 := by
      rw [UInt64.toNat_sub, UInt64.toNat_one]
      have hbound := s.nthreads.toNat_lt
      omega
    change (s.nthreads - 1).toNat + tally Pc.Decremented (Function.update s.pcs a .decremented) = _
    rw [htally]
    cases hcounter with
    | inl hexact => omega
    | inr hwrapped =>
        have hzero : s.nthreads.toNat = 0 := congrArg UInt64.toNat hwrapped.1
        omega
  · intro b hpassed
    by_cases hb : b = a
    · subst hb
      simp [State.move, Pc.Passed] at hpassed
    · simp only [State.move, Function.update_of_ne hb] at hpassed
      have hdecremented : (s.pcs b).Decremented := by
        cases hpcb : s.pcs b <;> simp_all [Pc.Passed, Pc.Decremented]
      exact absurd (hinv.passed b hpassed) (hinv.counter_ne_zero hnot hdecremented)
  · exact fun _ _ => .inr ⟨a, Function.update_self ..⟩

theorem Inv.notifyAll (hinv : Inv s) (hpc : s.pcs a = .decremented) :
    Inv { s with pcs := Function.update (fun b => (s.pcs b).notified) a .testing } := by
  have hmtx := (hinv.owner a).mp (by simp [hpc, Pc.Holds])
  refine ⟨?_, ?_, ?_, ?_⟩
  · have htally : tally Pc.Decremented
        (Function.update (fun b => (s.pcs b).notified) a .testing) =
          tally Pc.Decremented s.pcs := by
      rw [tally_update_of_iff (by simp [hpc, Pc.notified, Pc.Decremented])]
      exact tally_congr fun b => Pc.decremented_notified _
    rw [htally]
    exact hinv.counter
  · refine forall_update (motive := fun b (pc : Pc) => pc.Holds ↔ s.mtx = some b) ?_ fun b _ => ?_
    · simp [Pc.Holds, hmtx]
    · rw [Pc.holds_notified]
      exact hinv.owner b
  · refine forall_update (motive := fun _ (pc : Pc) => pc.Passed → s.nthreads = 0) False.elim
      fun b _ hpassed => hinv.passed b ((Pc.passed_notified _).mp hpassed)
  · have hawake : ∀ b, Function.update (fun c => (s.pcs c).notified) a .testing b ≠ .asleep :=
      forall_update (motive := fun _ (pc : Pc) => pc ≠ .asleep) (by decide)
        fun c _ => Pc.notified_ne_asleep _
    exact fun b hasleep => absurd hasleep (hawake b)

theorem Inv.pass (hinv : Inv s) (hpc : s.pcs a = .testing) (hzero : s.nthreads = 0) :
    Inv (s.move a .leaving) where
  counter := hinv.counter_moved (by simp [hpc, Pc.Decremented])
  owner := hinv.owner_kept (by simp [hpc, Pc.Holds]) trivial
  passed := fun _ _ => hzero
  asleep := hinv.asleep_moved (by simp [hpc]) nofun

theorem Inv.sleep (hinv : Inv s) (hpc : s.pcs a = .testing) (hnonzero : s.nthreads ≠ 0) :
    Inv { s.move a .asleep with mtx := none } where
  counter := hinv.counter_moved (by simp [hpc, Pc.Decremented])
  owner := hinv.owner_released (by simp [hpc, Pc.Holds]) id
  passed := hinv.passed_moved id
  asleep := fun _ _ => .inl hnonzero

theorem Inv.wake (hinv : Inv s) (hpc : s.pcs a = .asleep) : Inv (s.move a .woken) where
  counter := hinv.counter_moved (by simp [hpc, Pc.Decremented])
  owner := by
    refine forall_update (motive := fun b (pc : Pc) => pc.Holds ↔ s.mtx = some b) ?_
      fun b _ => hinv.owner b
    rw [← hinv.owner a, hpc]
    rfl
  passed := hinv.passed_moved id
  asleep := hinv.asleep_moved (by simp [hpc]) nofun

theorem Inv.relock (hinv : Inv s) (hpc : s.pcs a = .woken) (hfree : s.mtx = none) :
    Inv { s.move a .testing with mtx := some a } where
  counter := hinv.counter_moved (by simp [hpc, Pc.Decremented])
  owner := hinv.owner_taken hfree trivial
  passed := hinv.passed_moved id
  asleep := hinv.asleep_moved (by simp [hpc]) nofun

theorem Inv.unlock (hinv : Inv s) (hpc : s.pcs a = .leaving) :
    Inv { s.move a .returned with mtx := none } where
  counter := hinv.counter_moved (by simp [hpc, Pc.Decremented])
  owner := hinv.owner_released (by simp [hpc, Pc.Holds]) id
  passed := fun _ _ => hinv.passed a (by simp [hpc, Pc.Passed])
  asleep := hinv.asleep_moved (by simp [hpc]) nofun

theorem Inv.preserved (hinv : Inv s) (hstep : step s a action = some s') : Inv s' := by
  cases moves_of_step hstep with
  | lock hpc hfree => exact hinv.lock hpc hfree
  | decrement hpc => exact hinv.decrement hpc
  | notifyAll hpc => exact hinv.notifyAll hpc
  | pass hpc hzero => exact hinv.pass hpc hzero
  | sleep hpc hnonzero => exact hinv.sleep hpc hnonzero
  | wake hpc => exact hinv.wake hpc
  | relock hpc hfree => exact hinv.relock hpc hfree
  | unlock hpc => exact hinv.unlock hpc

theorem inv_of_reachable {nthreads : UInt64} (hfits : Fits α nthreads)
    (hs : (system α nthreads).Reachable s) : Inv s := by
  apply hs.invariant (motive := Inv)
  · rintro s rfl
    exact inv_construct hfits
  · intro s call s' _ hinv hstep
    exact hinv.preserved hstep

theorem Inv.progress (hinv : Inv s) (hleft : s.pcs a ≠ .returned) :
    ∃ b action s', action ≠ .wake ∧ step s b action = some s' := by
  cases hmtx : s.mtx with
  | some b => exact ⟨b, exists_step_of_holds ((hinv.owner b).mpr hmtx)⟩
  | none =>
      have hnobody : ∀ b, ¬ (s.pcs b).Holds := by simp [hinv.owner, hmtx]
      by_cases hwaits : ∃ b, s.pcs b = .outside ∨ s.pcs b = .woken
      · obtain ⟨b, hb⟩ := hwaits
        exact ⟨b, exists_step_of_free hmtx hb⟩
      · have hrest : ∀ b, s.pcs b = .asleep ∨ s.pcs b = .returned := by
          intro b
          have hb := hnobody b
          have hb' := not_exists.mp hwaits b
          cases hpc : s.pcs b <;> simp_all [Pc.Holds]
        have hall : ∀ b, (s.pcs b).Decremented := fun b => by
          cases hrest b with
          | inl hpc => simp [hpc, Pc.Decremented]
          | inr hpc => simp [hpc, Pc.Decremented]
        have hzero : s.nthreads = 0 := (hinv.zero_iff (hall a)).mpr hall
        cases hinv.asleep a ((hrest a).resolve_right hleft) with
        | inl hnonzero => exact absurd hzero hnonzero
        | inr hnotifier =>
            obtain ⟨b, hb⟩ := hnotifier
            cases hrest b with
            | inl hpc => simp [hpc] at hb
            | inr hpc => simp [hpc] at hb

end Steps

/-- Every barrier, for as many callers as it was constructed for. -/
theorem barrier_correct (nthreads : UInt64) (s : State (Fin nthreads.toNat))
    (hs : (system (Fin nthreads.toNat) nthreads).Reachable s) :
    -- the counter is what the callers have left of it, and no decrement wraps
    (s.nthreads.toNat + tally Pc.Decremented s.pcs = nthreads.toNat ∧
      ∀ a s', step s a .decrement = some s' → s'.nthreads.toNat + 1 = s.nthreads.toNat) ∧
    (∀ a, s.pcs a = .returned → ∀ b, (s.pcs b).Decremented) ∧
    -- once all have decremented, whoever sleeps is about to be notified
    ((∀ b, (s.pcs b).Decremented) → ∀ a, s.pcs a = .asleep → ∃ b, s.pcs b = .decremented) ∧
    ((∃ a, s.pcs a ≠ .returned) →
      ∃ b action s', action ≠ .wake ∧ step s b action = some s' ∧ s'.pcs b ≠ s.pcs b) := by
  have hcard : Fintype.card (Fin nthreads.toNat) = nthreads.toNat := Fintype.card_fin _
  have hbound := nthreads.toNat_lt
  have hinv := inv_of_reachable (.inl hcard.symm) hs
  refine ⟨⟨?_, ?_⟩, ?_, ?_, ?_⟩
  · have hcounter := hinv.counter
    omega
  · intro a s' hstep
    cases moves_of_step hstep with
    | decrement hpc =>
        exact hinv.toNat_decrement (a := a) (by omega) (by simp [hpc, Pc.Decremented])
  · intro a hpc
    have hzero := hinv.passed a (by simp [hpc, Pc.Passed])
    exact (hinv.zero_iff (b := a) (by simp [hpc, Pc.Decremented])).mp hzero
  · intro hall a hasleep
    exact (hinv.asleep a hasleep).resolve_left
      (not_not_intro ((hinv.zero_iff (hall a)).mpr hall))
  · rintro ⟨a, ha⟩
    obtain ⟨b, action, s', hwake, hstep⟩ := hinv.progress ha
    exact ⟨b, action, s', hwake, hstep, pcs_self_ne hstep⟩

theorem barrier_correct_two : ∃ s : State (Fin (2 : UInt64).toNat),
    (system (Fin (2 : UInt64).toNat) 2).Reachable s ∧
    s.pcs ⟨0, by decide⟩ = .asleep ∧ s.nthreads = 0 ∧
    s.nthreads.toNat + tally Pc.Decremented s.pcs = 2 ∧ ∃ b, s.pcs b = .decremented := by
  obtain ⟨s, hexecute, hasleep, hzero, hall⟩ : ∃ s : State (Fin (2 : UInt64).toNat),
      System.execute (fun s call => step s call.1 call.2) (construct 2)
        [(⟨0, by decide⟩, .lock), (⟨0, by decide⟩, .decrement), (⟨0, by decide⟩, .notifyAll),
          (⟨0, by decide⟩, .test), (⟨1, by decide⟩, .lock), (⟨1, by decide⟩, .decrement)] =
        some s ∧
      s.pcs ⟨0, by decide⟩ = .asleep ∧ s.nthreads = 0 ∧ ∀ b, (s.pcs b).Decremented :=
    ⟨_, rfl, rfl, rfl, by decide⟩
  have hreachable : (system (Fin (2 : UInt64).toNat) 2).Reachable s :=
    ⟨_, _, rfl, System.run_of_execute (fun _ _ _ hstep => hstep) hexecute⟩
  obtain ⟨⟨hcounter, _⟩, _, hnotified, _⟩ := barrier_correct 2 s hreachable
  exact ⟨s, hreachable, hasleep, hzero, hcounter, hnotified hall ⟨0, by decide⟩ hasleep⟩

end SpackPlayground.Psync.Barrier
