import SpackPlayground.Library.Progress

/-! A `SynchronizedValue<int>` that one thread counts up and another waits for, with a
condition variable on the lock that `uniqueSynchronize` returns. -/
namespace SpackPlayground.SynchronizedValue.Waiting

open Library.Transition

inductive Thread where
  | producer
  | waiter
  deriving DecidableEq

inductive ProducerPc where
  /-- In `uniqueSynchronize`, waiting for the mutex. -/
  | locking
  /-- Before `*uniq += 1`. -/
  | adding
  /-- Before the end of the scope of `uniq`. -/
  | unlocking
  /-- Before `cond.notify_all()`; the mutex is free. -/
  | notifying
  | returned
  deriving DecidableEq

inductive WaiterPc where
  | locking
  /-- In `cond.wait`, before the predicate is tested. -/
  | testing
  /-- In `cond.wait`, blocked, with the mutex released. -/
  | asleep
  /-- In `cond.wait`, notified or woken spuriously, waiting for the mutex. -/
  | woken
  /-- The predicate held; before the end of the scope of `uniq`. -/
  | unlocking
  | joining
  | returned
  deriving DecidableEq

structure State where
  value : Nat
  mutex : Option Thread
  round : Nat
  producer : ProducerPc
  waiter : WaiterPc
  deriving DecidableEq

inductive Action where
  | produce
  | wait
  /-- A spurious wake-up. -/
  | wake
  deriving DecidableEq

def loop (rounds round : Nat) : ProducerPc := if round < rounds then .locking else .returned

def construct (rounds : Nat) : State where
  value := 0
  mutex := none
  round := 0
  producer := loop rounds 0
  waiter := .locking

def WaiterPc.notified : WaiterPc → WaiterPc
  | .asleep => .woken
  | pc => pc

def produce (rounds : Nat) (s : State) : Option State :=
  match s.producer with
  | .locking =>
      if s.mutex = none then some { s with mutex := some .producer, producer := .adding } else none
  | .adding => some { s with value := s.value + 1, producer := .unlocking }
  | .unlocking => some { s with mutex := none, producer := .notifying }
  | .notifying =>
      some { s with
        round := s.round + 1
        producer := loop rounds (s.round + 1)
        waiter := s.waiter.notified }
  | .returned => none

def wait (goal : Nat) (s : State) : Option State :=
  match s.waiter with
  | .locking =>
      if s.mutex = none then some { s with mutex := some .waiter, waiter := .testing } else none
  | .testing =>
      if goal ≤ s.value then some { s with waiter := .unlocking }
      else some { s with mutex := none, waiter := .asleep }
  | .asleep => none
  | .woken =>
      if s.mutex = none then some { s with mutex := some .waiter, waiter := .testing } else none
  | .unlocking => some { s with mutex := none, waiter := .joining }
  | .joining => if s.producer = .returned then some { s with waiter := .returned } else none
  | .returned => none

def step (rounds goal : Nat) (s : State) : Action → Option State
  | .produce => produce rounds s
  | .wait => wait goal s
  | .wake => if s.waiter = .asleep then some { s with waiter := .woken } else none

/-- In the source both numbers are 1000. -/
def system (rounds goal : Nat) : System State Action where
  init s := s = construct rounds
  step s action s' := step rounds goal s action = some s'

inductive Moves (rounds goal : Nat) (s : State) : Action → State → Prop where
  | lockProducer : s.producer = .locking → s.mutex = none →
      Moves rounds goal s .produce { s with mutex := some .producer, producer := .adding }
  | add : s.producer = .adding →
      Moves rounds goal s .produce { s with value := s.value + 1, producer := .unlocking }
  | unlockProducer : s.producer = .unlocking →
      Moves rounds goal s .produce { s with mutex := none, producer := .notifying }
  | notifyAll : s.producer = .notifying →
      Moves rounds goal s .produce
        { s with
          round := s.round + 1
          producer := loop rounds (s.round + 1)
          waiter := s.waiter.notified }
  | lockWaiter : s.waiter = .locking ∨ s.waiter = .woken → s.mutex = none →
      Moves rounds goal s .wait { s with mutex := some .waiter, waiter := .testing }
  | pass : s.waiter = .testing → goal ≤ s.value →
      Moves rounds goal s .wait { s with waiter := .unlocking }
  | sleep : s.waiter = .testing → s.value < goal →
      Moves rounds goal s .wait { s with mutex := none, waiter := .asleep }
  | unlockWaiter : s.waiter = .unlocking →
      Moves rounds goal s .wait { s with mutex := none, waiter := .joining }
  | join : s.waiter = .joining → s.producer = .returned →
      Moves rounds goal s .wait { s with waiter := .returned }
  | wake : s.waiter = .asleep → Moves rounds goal s .wake { s with waiter := .woken }

section Steps

variable {rounds goal : Nat} {s s' : State} {action : Action}

private theorem moves_of_produce (hstep : produce rounds s = some s') :
    Moves rounds goal s .produce s' := by
  unfold produce at hstep
  split at hstep
  case h_1 hpc =>
      obtain ⟨hfree, heq⟩ := Option.ite_none_right_eq_some.mp hstep
      cases heq
      exact .lockProducer hpc hfree
  case h_2 hpc =>
      cases hstep
      exact .add hpc
  case h_3 hpc =>
      cases hstep
      exact .unlockProducer hpc
  case h_4 hpc =>
      cases hstep
      exact .notifyAll hpc
  case h_5 => cases hstep

private theorem moves_of_wait (hstep : wait goal s = some s') : Moves rounds goal s .wait s' := by
  unfold wait at hstep
  split at hstep
  case h_1 hpc =>
      obtain ⟨hfree, heq⟩ := Option.ite_none_right_eq_some.mp hstep
      cases heq
      exact .lockWaiter (.inl hpc) hfree
  case h_2 hpc =>
      split at hstep
      · cases hstep
        exact .pass hpc ‹_›
      · rename_i hless
        cases hstep
        exact .sleep hpc (Nat.lt_of_not_le hless)
  case h_3 => cases hstep
  case h_4 hpc =>
      obtain ⟨hfree, heq⟩ := Option.ite_none_right_eq_some.mp hstep
      cases heq
      exact .lockWaiter (.inr hpc) hfree
  case h_5 hpc =>
      cases hstep
      exact .unlockWaiter hpc
  case h_6 hpc =>
      obtain ⟨hreturned, heq⟩ := Option.ite_none_right_eq_some.mp hstep
      cases heq
      exact .join hpc hreturned
  case h_7 => cases hstep

theorem moves_of_step (hstep : step rounds goal s action = some s') :
    Moves rounds goal s action s' := by
  cases action with
  | produce => exact moves_of_produce hstep
  | wait => exact moves_of_wait hstep
  | wake =>
      obtain ⟨hasleep, heq⟩ := Option.ite_none_right_eq_some.mp hstep
      cases heq
      exact .wake hasleep

end Steps

section Invariant

variable {rounds goal : Nat} {s s' : State} {action : Action}

def ProducerPc.Holds (pc : ProducerPc) : Prop := pc = .adding ∨ pc = .unlocking

def WaiterPc.Holds (pc : WaiterPc) : Prop := pc = .testing ∨ pc = .unlocking

def WaiterPc.Passed (pc : WaiterPc) : Prop := pc = .unlocking ∨ pc = .joining ∨ pc = .returned

def ProducerPc.added : ProducerPc → Nat
  | .unlocking | .notifying => 1
  | .locking | .adding | .returned => 0

structure Inv (rounds goal : Nat) (s : State) : Prop where
  producer : s.producer.Holds ↔ s.mutex = some .producer
  waiter : s.waiter.Holds ↔ s.mutex = some .waiter
  value : s.value = s.round + s.producer.added
  round : if s.producer = .returned then s.round = rounds else s.round < rounds
  passed : s.waiter.Passed → goal ≤ s.value
  -- a sleeper that could go on will be notified
  asleep : s.waiter = .asleep → goal ≤ s.value → s.producer.added = 1

theorem loop_ne_holds (rounds round : Nat) : ¬ (loop rounds round).Holds := by
  unfold loop
  split <;> simp [ProducerPc.Holds]

theorem added_loop (rounds round : Nat) : (loop rounds round).added = 0 := by
  unfold loop
  split <;> rfl

theorem round_loop {round : Nat} (hround : round ≤ rounds) :
    if loop rounds round = .returned then round = rounds else round < rounds := by
  unfold loop
  split
  · rename_i hlt
    exact hlt
  · exact Nat.le_antisymm hround (Nat.le_of_not_lt ‹_›)

theorem inv_construct : Inv rounds goal (construct rounds) where
  producer := by simp [construct, loop_ne_holds]
  waiter := by simp [construct, WaiterPc.Holds]
  value := by simp [construct, added_loop]
  round := round_loop (Nat.zero_le _)
  passed := by simp [construct, WaiterPc.Passed]
  asleep := by simp [construct]

theorem Inv.notifyAll (hinv : Inv rounds goal s) (hpc : s.producer = .notifying) :
    Inv rounds goal
      { s with
        round := s.round + 1
        producer := loop rounds (s.round + 1)
        waiter := s.waiter.notified } := by
  have hvalue := hinv.value
  have hround := hinv.round
  rw [hpc] at hvalue hround
  have hnotified : s.waiter.notified ≠ .asleep := by
    cases s.waiter <;> simp [WaiterPc.notified]
  have hholds : s.waiter.notified.Holds ↔ s.waiter.Holds := by
    cases s.waiter <;> simp [WaiterPc.notified, WaiterPc.Holds]
  have hpassed : s.waiter.notified.Passed ↔ s.waiter.Passed := by
    cases s.waiter <;> simp [WaiterPc.notified, WaiterPc.Passed]
  have hnext : s.round + 1 ≤ rounds := Nat.succ_le_of_lt (by simpa using hround)
  refine ⟨?_, hholds.trans hinv.waiter, ?_, round_loop hnext, ?_, ?_⟩
  · have hfree : s.mutex ≠ some .producer := by
      rw [ne_eq, ← hinv.producer, hpc]
      simp [ProducerPc.Holds]
    simp [loop_ne_holds, hfree]
  · rw [added_loop]
    exact hvalue
  · exact fun h => hinv.passed (hpassed.mp h)
  · exact fun h => absurd h hnotified

theorem Inv.preserved (hinv : Inv rounds goal s) (hmoves : Moves rounds goal s action s') :
    Inv rounds goal s' := by
  obtain ⟨hproducer, hwaiter, hvalue, hround, hpassed, hasleep⟩ := id hinv
  cases hmoves with
  | notifyAll hpc => exact hinv.notifyAll hpc
  | lockProducer hpc hfree =>
      rw [hpc] at hvalue hround hasleep
      rw [hfree] at hwaiter
      exact ⟨by simp [ProducerPc.Holds], by simpa using hwaiter, hvalue, hround, hpassed, hasleep⟩
  | add hpc =>
      rw [hpc] at hproducer hvalue hround
      refine ⟨by simpa [ProducerPc.Holds] using hproducer, hwaiter, ?_, hround, ?_, fun _ _ => rfl⟩
      · exact congrArg (· + 1) hvalue
      · exact fun h => (hpassed h).trans (Nat.le_succ _)
  | unlockProducer hpc =>
      rw [hpc] at hproducer hvalue hround hasleep
      have howner : s.mutex = some .producer := hproducer.mp (.inr rfl)
      rw [howner] at hwaiter
      exact ⟨by simp [ProducerPc.Holds], by simpa using hwaiter, hvalue, hround, hpassed, hasleep⟩
  | lockWaiter hpc hfree =>
      rw [hfree] at hproducer
      refine ⟨by simpa using hproducer, by simp [WaiterPc.Holds], hvalue, hround, ?_, ?_⟩
      · simp [WaiterPc.Passed]
      · simp
  | pass hpc hgoal =>
      rw [hpc] at hwaiter
      refine ⟨hproducer, by simpa [WaiterPc.Holds] using hwaiter, hvalue, hround,
        fun _ => hgoal, ?_⟩
      simp
  | sleep hpc hless =>
      rw [hpc] at hwaiter
      have howner : s.mutex = some .waiter := hwaiter.mp (.inl rfl)
      rw [howner] at hproducer
      refine ⟨by simpa using hproducer, by simp [WaiterPc.Holds], hvalue, hround, ?_, ?_⟩
      · simp [WaiterPc.Passed]
      · exact fun _ hgoal => absurd hgoal (Nat.not_le_of_lt hless)
  | unlockWaiter hpc =>
      rw [hpc] at hwaiter hpassed
      have howner : s.mutex = some .waiter := hwaiter.mp (.inr rfl)
      rw [howner] at hproducer
      refine ⟨by simpa using hproducer, by simp [WaiterPc.Holds], hvalue, hround, ?_, by simp⟩
      exact fun _ => hpassed (.inl rfl)
  | join hpc hreturned =>
      rw [hpc] at hwaiter hpassed
      refine ⟨hproducer, by simpa [WaiterPc.Holds] using hwaiter, hvalue, hround, ?_, by simp⟩
      exact fun _ => hpassed (.inr (.inl rfl))
  | wake hpc =>
      rw [hpc] at hwaiter
      refine ⟨hproducer, by simpa [WaiterPc.Holds] using hwaiter, hvalue, hround, ?_, by simp⟩
      simp [WaiterPc.Passed]

theorem inv_of_reachable (hs : (system rounds goal).Reachable s) : Inv rounds goal s := by
  apply hs.invariant (motive := Inv rounds goal)
  · rintro s rfl
    exact inv_construct
  · intro s action s' _ hinv hstep
    exact hinv.preserved (moves_of_step hstep)

theorem Inv.value_le (hinv : Inv rounds goal s) : s.value ≤ rounds := by
  have hvalue := hinv.value
  have hround := hinv.round
  cases hpc : s.producer <;> simp [hpc, ProducerPc.added] at hvalue hround <;> omega

end Invariant

section Termination

variable {rounds goal : Nat} {s s' : State} {action : Action}

def ProducerPc.steps : ProducerPc → Nat
  | .locking | .returned => 0
  | .adding => 1
  | .unlocking => 2
  | .notifying => 3

def WaiterPc.rank : WaiterPc → Nat
  | .locking | .woken => 4
  | .testing => 3
  | .asleep | .unlocking => 2
  | .joining => 1
  | .returned => 0

/-- A round has four steps, the last of which may wake the waiter. -/
def rank (rounds : Nat) (s : State) : Nat :=
  6 * (rounds - s.round) - s.producer.steps + s.waiter.rank

def slack (action : Action) : Nat := if action = .wake then 3 else 0

private theorem rank_notified_le (pc : WaiterPc) : pc.notified.rank ≤ pc.rank + 2 := by
  cases pc <;> simp [WaiterPc.notified, WaiterPc.rank]

theorem steps_loop (rounds round : Nat) : (loop rounds round).steps = 0 := by
  unfold loop
  split <;> rfl

theorem rank_step (hinv : Inv rounds goal s) (hmoves : Moves rounds goal s action s') :
    rank rounds s' + 1 ≤ rank rounds s + slack action := by
  have hround := hinv.round
  unfold rank
  cases hmoves with
  | notifyAll hpc =>
      have hnotified := rank_notified_le s.waiter
      have hsteps : s.producer.steps = 3 := by
        rw [hpc]
        rfl
      simp only [hpc, reduceCtorEq, if_false] at hround
      simp only [hsteps, steps_loop, slack, reduceCtorEq, if_false]
      omega
  | lockProducer hpc _ | add hpc | unlockProducer hpc =>
      simp only [hpc, reduceCtorEq, if_false] at hround
      simp only [hpc, ProducerPc.steps, slack, reduceCtorEq, if_false]
      omega
  | lockWaiter hpc _ => rcases hpc with hpc | hpc <;> simp [hpc, WaiterPc.rank, slack]
  | pass hpc _ | sleep hpc _ | unlockWaiter hpc | join hpc _ | wake hpc =>
      simp [hpc, WaiterPc.rank, slack]

theorem length_le {actions : List Action}
    (hrun : (system rounds goal).Run (construct rounds) actions s) :
    actions.length ≤ 6 * rounds + 4 + (actions.map slack).sum := by
  have hlength := hrun.length_le (rank rounds) slack
    (fun s action s' hs hstep => rank_step (inv_of_reachable hs) (moves_of_step hstep))
    (System.reachable_init rfl)
  have hstart : rank rounds (construct rounds) = 6 * rounds + 4 := by
    simp [rank, construct, steps_loop, WaiterPc.rank]
  omega

def Ended (s : State) : Prop := s.producer = .returned ∧ s.waiter = .returned

theorem exists_wait_of_holds (hholds : s.waiter.Holds) : ∃ s', wait goal s = some s' := by
  rcases hholds with hpc | hpc
  · by_cases hgoal : goal ≤ s.value
    · exact ⟨_, by simp only [wait, hpc, if_pos hgoal]; rfl⟩
    · exact ⟨_, by simp only [wait, hpc, if_neg hgoal]; rfl⟩
  · exact ⟨_, by simp only [wait, hpc]; rfl⟩

private theorem exists_produce_of_ne (hlocking : s.producer ≠ .locking)
    (hreturned : s.producer ≠ .returned) : ∃ s', produce rounds s = some s' := by
  cases hpc : s.producer with
  | locking => exact absurd hpc hlocking
  | returned => exact absurd hpc hreturned
  | adding | unlocking | notifying => exact ⟨_, by simp only [produce, hpc]; rfl⟩

theorem Inv.exists_wait (hinv : Inv rounds goal s) (hgoal : goal ≤ rounds)
    (hproducer : s.producer = .returned) (hwaiter : s.waiter ≠ .returned) :
    ∃ s', wait goal s = some s' := by
  have hvalue := hinv.value
  have hround := hinv.round
  simp only [hproducer, ProducerPc.added, if_true] at hvalue hround
  have hfree (hholds : ¬ s.waiter.Holds) : s.mutex = none := by
    cases howner : s.mutex with
    | none => rfl
    | some thread =>
        cases thread with
        | waiter => exact absurd (hinv.waiter.mpr howner) hholds
        | producer =>
            have hholds := hinv.producer.mpr howner
            simp [hproducer, ProducerPc.Holds] at hholds
  cases hpc : s.waiter with
  | locking | woken =>
      have hnone := hfree (by simp [hpc, WaiterPc.Holds])
      exact ⟨_, by simp only [wait, hpc, if_pos hnone]; rfl⟩
  | testing => exact exists_wait_of_holds (.inl hpc)
  | unlocking => exact exists_wait_of_holds (.inr hpc)
  | asleep =>
      have hadded := hinv.asleep hpc (by omega)
      simp [hproducer, ProducerPc.added] at hadded
  | joining => exact ⟨_, by simp only [wait, hpc, if_pos hproducer]; rfl⟩
  | returned => exact absurd hpc hwaiter

theorem Inv.progress (hinv : Inv rounds goal s) (hgoal : goal ≤ rounds) (hleft : ¬ Ended s) :
    ∃ action s', action ≠ .wake ∧ step rounds goal s action = some s' := by
  have hproduce (hstep : ∃ s', produce rounds s = some s') :
      ∃ action s', action ≠ .wake ∧ step rounds goal s action = some s' :=
    ⟨.produce, hstep.choose, by decide, hstep.choose_spec⟩
  have hwait (hstep : ∃ s', wait goal s = some s') :
      ∃ action s', action ≠ .wake ∧ step rounds goal s action = some s' :=
    ⟨.wait, hstep.choose, by decide, hstep.choose_spec⟩
  by_cases hreturned : s.producer = .returned
  · exact hwait (hinv.exists_wait hgoal hreturned fun hwaiter => hleft ⟨hreturned, hwaiter⟩)
  · by_cases hlocking : s.producer = .locking
    · cases howner : s.mutex with
      | none => exact hproduce ⟨_, by simp only [produce, hlocking, if_pos howner]; rfl⟩
      | some thread =>
          cases thread with
          | waiter => exact hwait (exists_wait_of_holds (hinv.waiter.mpr howner))
          | producer =>
              have hholds := hinv.producer.mpr howner
              simp [hlocking, ProducerPc.Holds] at hholds
    · exact hproduce (exists_produce_of_ne hlocking hreturned)

theorem completes (hgoal : goal ≤ rounds) (hs : (system rounds goal).Reachable s) :
    ∃ actions t, (∀ action ∈ actions, action ≠ .wake) ∧ (system rounds goal).Run s actions t ∧
      Ended t := by
  apply hs.completes (rank rounds) (· ≠ .wake) Ended
  · intro s action t hs hgood hstep
    have hrank := rank_step (inv_of_reachable hs) (moves_of_step hstep)
    simp only [slack, if_neg hgood] at hrank
    omega
  · intro s hs hleft
    obtain ⟨action, t, hgood, hstep⟩ := (inv_of_reachable hs).progress hgoal hleft
    exact ⟨action, t, hgood, hstep⟩

end Termination

/-- The predicate holds when `wait` returns, no notification is lost, and the two threads
end, however they interleave, exactly when the producer counts far enough. -/
theorem wait_ends_iff (rounds goal : Nat) :
    (∀ s, (system rounds goal).Reachable s → s.value ≤ rounds ∧
      (s.waiter.Passed → goal ≤ s.value) ∧ ¬ (s.producer.Holds ∧ s.waiter.Holds) ∧
      (Ended s → s.value = rounds)) ∧
    (∀ s actions, (system rounds goal).Run (construct rounds) actions s →
      actions.length ≤ 6 * rounds + 4 + (actions.map slack).sum) ∧
    ((∀ s, (system rounds goal).Reachable s → ∃ actions t,
      (∀ action ∈ actions, action ≠ .wake) ∧ (system rounds goal).Run s actions t ∧ Ended t) ↔
      goal ≤ rounds) := by
  refine ⟨fun s hs => ?_, fun s actions => length_le, fun hall => ?_,
    fun hgoal s => completes hgoal⟩
  · have hinv := inv_of_reachable hs
    refine ⟨hinv.value_le, hinv.passed, fun hboth => ?_, fun hended => ?_⟩
    · have howner := (hinv.producer.mp hboth.1).symm.trans (hinv.waiter.mp hboth.2)
      exact absurd howner (by decide)
    · have hvalue := hinv.value
      have hround := hinv.round
      simp only [hended.1, ProducerPc.added, if_true] at hvalue hround
      omega
  · have hstart : (system rounds goal).Reachable (construct rounds) := System.reachable_init rfl
    obtain ⟨actions, t, _, hrun, hended⟩ := hall _ hstart
    have hinv := inv_of_reachable (hstart.run hrun)
    exact (hinv.passed (.inr (.inr hended.2))).trans hinv.value_le

/-- The waiter sleeps when the last round adds, and is woken. -/
example : System.execute (step 1 1) (construct 1)
    [.wait, .wait, .produce, .produce, .produce, .produce, .wait, .wait, .wait, .wait] =
      some ⟨1, none, 1, .returned, .returned⟩ := by decide

end SpackPlayground.SynchronizedValue.Waiting
