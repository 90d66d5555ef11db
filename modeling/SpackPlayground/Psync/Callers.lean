import Mathlib.Algebra.Order.BigOperators.Group.Finset
import SpackPlayground.Library.Progress
import SpackPlayground.Psync.Barrier

/-! A barrier that is entered by more or by fewer callers than it was constructed
for. The counter has no lower end: the caller after the last one makes it wrap. -/
namespace SpackPlayground.Psync.Callers

open Library.Tally Library.Transition Barrier

variable {α : Type*} [Fintype α]

instance : DecidablePred Pc.Passed := fun pc => by
  cases pc <;> unfold Pc.Passed <;> infer_instance

theorem Passed.decremented {pc : Pc} (hpassed : pc.Passed) : pc.Decremented := by
  cases pc <;> first | exact hpassed.elim | trivial

/-- The counter is what the constructor was given less the decrements, modulo
`2 ^ 64`, so that it is zero for the first `nthreads` callers only. -/
structure Counts (nthreads : UInt64) (s : State α) : Prop where
  counter : s.nthreads + .ofNat (tally Pc.Decremented s.pcs) = nthreads
  most : tally Pc.Passed s.pcs ≤ nthreads.toNat
  reached : ∀ a, (s.pcs a).Passed → nthreads.toNat ≤ tally Pc.Decremented s.pcs

section Steps

variable {nthreads : UInt64} {s s' : State α} {a : α} {pc : Pc} {action : Action}

private theorem counts_construct (nthreads : UInt64) :
    Counts nthreads (construct nthreads : State α) where
  counter := by
    rw [tally_eq_zero fun _ => id]
    exact UInt64.add_zero nthreads
  most := by
    rw [tally_eq_zero fun _ => id]
    exact Nat.zero_le _
  reached a := False.elim

theorem Counts.decremented_eq (hcounts : Counts nthreads s) (hcard : Fintype.card α < 2 ^ 64)
    (hzero : s.nthreads = 0) : tally Pc.Decremented s.pcs = nthreads.toNat := by
  have hcounter := congrArg UInt64.toNat hcounts.counter
  have hle : tally Pc.Decremented s.pcs ≤ Fintype.card α := tally_le_card
  rwa [hzero, UInt64.zero_add, UInt64.toNat_ofNat_of_lt' (hle.trans_lt hcard)] at hcounter

variable [DecidableEq α]

theorem Counts.moved (hcounts : Counts nthreads s)
    (hdecremented : pc.Decremented ↔ (s.pcs a).Decremented)
    (hpassed : pc.Passed ↔ (s.pcs a).Passed) (mtx : Option α) :
    Counts nthreads { s.move a pc with mtx := mtx } where
  counter := by
    change s.nthreads + .ofNat (tally Pc.Decremented (Function.update s.pcs a pc)) = nthreads
    rw [tally_update_of_iff hdecremented]
    exact hcounts.counter
  most := by
    change tally Pc.Passed (Function.update s.pcs a pc) ≤ nthreads.toNat
    rw [tally_update_of_iff hpassed]
    exact hcounts.most
  reached := by
    change ∀ b, (Function.update s.pcs a pc b).Passed →
      nthreads.toNat ≤ tally Pc.Decremented (Function.update s.pcs a pc)
    rw [tally_update_of_iff hdecremented]
    exact forall_update
      (motive := fun _ (pc : Pc) => pc.Passed → nthreads.toNat ≤ tally Pc.Decremented s.pcs)
      (fun h => hcounts.reached a (hpassed.mp h)) fun b _ => hcounts.reached b

theorem Counts.decrement (hcounts : Counts nthreads s) (hpc : s.pcs a = .locked) :
    Counts nthreads { s.move a .decremented with nthreads := s.nthreads - 1 } := by
  have hnot : ¬ (s.pcs a).Decremented := by simp [hpc, Pc.Decremented]
  have htally : tally Pc.Decremented (Function.update s.pcs a .decremented) =
      tally Pc.Decremented s.pcs + 1 := tally_update_succ hnot trivial
  have hpassed : tally Pc.Passed (Function.update s.pcs a .decremented) =
      tally Pc.Passed s.pcs := tally_update_of_iff (by simp [hpc, Pc.Passed])
  refine ⟨?_, ?_, ?_⟩
  · change s.nthreads - 1 + .ofNat (tally Pc.Decremented (Function.update s.pcs a _)) = nthreads
    rw [htally, UInt64.ofNat_add, UInt64.add_comm (.ofNat _), ← UInt64.add_assoc]
    exact (congrArg (· + _) (UInt64.sub_add_cancel s.nthreads 1)).trans hcounts.counter
  · exact hpassed.trans_le hcounts.most
  · change ∀ b, (Function.update s.pcs a .decremented b).Passed →
      nthreads.toNat ≤ tally Pc.Decremented (Function.update s.pcs a .decremented)
    rw [htally]
    refine forall_update (motive := fun _ (pc : Pc) => pc.Passed →
      nthreads.toNat ≤ tally Pc.Decremented s.pcs + 1) False.elim fun b _ hb => ?_
    exact (hcounts.reached b hb).trans (Nat.le_succ _)

theorem Counts.notifyAll (hcounts : Counts nthreads s) (hpc : s.pcs a = .decremented) :
    Counts nthreads
      { s with pcs := Function.update (fun b => (s.pcs b).notified) a .testing } := by
  have hdecremented : tally Pc.Decremented
      (Function.update (fun b => (s.pcs b).notified) a .testing) = tally Pc.Decremented s.pcs := by
    rw [tally_update_of_iff (by simp [hpc, Pc.notified, Pc.Decremented])]
    exact tally_congr fun b => Pc.decremented_notified _
  have hpassed : tally Pc.Passed
      (Function.update (fun b => (s.pcs b).notified) a .testing) = tally Pc.Passed s.pcs := by
    rw [tally_update_of_iff (by simp [hpc, Pc.notified, Pc.Passed])]
    exact tally_congr fun b => Pc.passed_notified _
  refine ⟨?_, hpassed.trans_le hcounts.most, ?_⟩
  · rw [hdecremented]
    exact hcounts.counter
  · rw [hdecremented]
    refine forall_update
      (motive := fun _ (pc : Pc) => pc.Passed → nthreads.toNat ≤ tally Pc.Decremented s.pcs)
      False.elim fun b _ hb => ?_
    exact hcounts.reached b ((Pc.passed_notified _).mp hb)

theorem Counts.pass (hcounts : Counts nthreads s) (hcard : Fintype.card α < 2 ^ 64)
    (hpc : s.pcs a = .testing) (hzero : s.nthreads = 0) :
    Counts nthreads (s.move a .leaving) := by
  have hdecremented : tally Pc.Decremented (s.move a .leaving).pcs = nthreads.toNat := by
    rw [← hcounts.decremented_eq hcard hzero]
    exact tally_update_of_iff (by simp [hpc, Pc.Decremented])
  refine ⟨?_, ?_, ?_⟩
  · rw [hdecremented, UInt64.ofNat_toNat]
    change s.nthreads + nthreads = nthreads
    rw [hzero, UInt64.zero_add]
  · exact (tally_mono fun b => Passed.decremented).trans_eq hdecremented
  · exact fun _ _ => hdecremented.ge

theorem Counts.preserved (hcounts : Counts nthreads s) (hcard : Fintype.card α < 2 ^ 64)
    (hstep : step s a action = some s') : Counts nthreads s' := by
  cases moves_of_step hstep with
  | decrement hpc => exact hcounts.decrement hpc
  | notifyAll hpc => exact hcounts.notifyAll hpc
  | pass hpc hzero => exact hcounts.pass hcard hpc hzero
  | lock hpc _ | sleep hpc _ | wake hpc | relock hpc _ | unlock hpc =>
      exact hcounts.moved (by simp [hpc, Pc.Decremented]) (by simp [hpc, Pc.Passed]) _

theorem counts_of_reachable (hcard : Fintype.card α < 2 ^ 64)
    (hs : (system α nthreads).Reachable s) : Counts nthreads s := by
  apply hs.invariant (motive := Counts nthreads)
  · rintro s rfl
    exact counts_construct nthreads
  · intro s call s' _ hcounts hstep
    exact hcounts.preserved hcard hstep

end Steps

section Termination

/-- How much a caller has still to do. Its `notify_all` may wake all the others. -/
def rankOf (callers : Nat) : Pc → Nat
  | .outside => 3 * callers + 5
  | .locked => 3 * callers + 4
  | .decremented => 3 * callers + 3
  | .woken => 3
  | .testing => 2
  | .leaving => 1
  | .asleep | .returned => 0

def rank (s : State α) : Nat := ∑ a, rankOf (Fintype.card α) (s.pcs a)

def slack (call : α × Action) : Nat := if call.2 = .wake then 4 else 0

variable {s s' : State α} {a : α} {action : Action}

private theorem rankOf_notified_le (callers : Nat) (pc : Pc) :
    rankOf callers pc.notified ≤ rankOf callers pc + 3 := by
  cases pc <;> simp [Pc.notified, rankOf]

variable [DecidableEq α]

private theorem rank_moved {pc : Pc} (hpcs : s'.pcs = Function.update s.pcs a pc) {k : Nat}
    (hrank : rankOf (Fintype.card α) pc + 1 ≤ rankOf (Fintype.card α) (s.pcs a) + k) :
    rank s' + 1 ≤ rank s + k := by
  have hupdate := sum_update_add (rankOf (Fintype.card α)) s.pcs a pc
  unfold rank
  rw [hpcs]
  omega

private theorem rank_notifyAll (hpc : s.pcs a = .decremented) :
    rank { s with pcs := Function.update (fun b => (s.pcs b).notified) a .testing } + 1 ≤
      rank s := by
  have hupdate := sum_update_add (rankOf (Fintype.card α)) (fun b => (s.pcs b).notified) a .testing
  have hnotified : ∑ b, rankOf (Fintype.card α) (s.pcs b).notified ≤
      rank s + 3 * Fintype.card α := by
    calc
      ∑ b, rankOf (Fintype.card α) (s.pcs b).notified ≤
          ∑ b, (rankOf (Fintype.card α) (s.pcs b) + 3) :=
        Finset.sum_le_sum fun b _ => rankOf_notified_le _ _
      _ = rank s + 3 * Fintype.card α := by
        rw [Finset.sum_add_distrib, Finset.sum_const, Finset.card_univ, Nat.nsmul_eq_mul,
          Nat.mul_comm, rank]
  have hnotifier : rankOf (Fintype.card α) (s.pcs a).notified = 3 * Fintype.card α + 3 := by
    rw [hpc]
    rfl
  have htesting : rankOf (Fintype.card α) .testing = 2 := rfl
  unfold rank at hnotified ⊢
  dsimp only
  omega

theorem rank_step (hstep : step s a action = some s') :
    rank s' + 1 ≤ rank s + slack (a, action) := by
  cases moves_of_step hstep with
  | notifyAll hpc => exact rank_notifyAll hpc
  | lock hpc _ | decrement hpc | pass hpc _ | sleep hpc _ | relock hpc _ | unlock hpc
  | wake hpc =>
      refine rank_moved rfl ?_
      simp [hpc, rankOf, slack]

theorem length_le {nthreads : UInt64} {calls : List (α × Action)}
    (hrun : (system α nthreads).Run (construct nthreads) calls s) :
    calls.length ≤ Fintype.card α * (3 * Fintype.card α + 5) + (calls.map slack).sum := by
  have hlength := hrun.length_le rank slack
    (fun s call s' _ hstep => rank_step hstep) (System.reachable_init rfl)
  have hstart : rank (construct nthreads : State α) =
      Fintype.card α * (3 * Fintype.card α + 5) := by
    calc
      rank (construct nthreads : State α) = ∑ _a : α, (3 * Fintype.card α + 5) := rfl
      _ = Fintype.card α * (3 * Fintype.card α + 5) := by
        rw [Finset.sum_const, Finset.card_univ, Nat.nsmul_eq_mul]
  omega

end Termination

section Returns

variable {nthreads : UInt64} {s : State α}

theorem Counts.returned_le (hcounts : Counts nthreads s) :
    tally (· = Pc.returned) s.pcs ≤ nthreads.toNat := by
  refine le_trans (tally_mono fun a ha => ?_) hcounts.most
  rw [ha]
  trivial

theorem Counts.le_card_of_returned (hcounts : Counts nthreads s) {a : α}
    (ha : s.pcs a = .returned) : nthreads.toNat ≤ Fintype.card α := by
  refine (hcounts.reached a ?_).trans tally_le_card
  rw [ha]
  trivial

theorem completes [DecidableEq α] (hcard : nthreads.toNat = Fintype.card α)
    (hs : (system α nthreads).Reachable s) :
    ∃ calls t, (∀ call ∈ calls, call.2 ≠ .wake) ∧ (system α nthreads).Run s calls t ∧
      ∀ a, t.pcs a = .returned := by
  apply hs.completes rank (fun call => call.2 ≠ .wake) (fun t => ∀ a, t.pcs a = .returned)
  · intro s call t _ hgood hstep
    have hrank := rank_step hstep
    simp only [slack, if_neg hgood] at hrank
    omega
  · intro s hs hleft
    obtain ⟨a, ha⟩ := not_forall.mp hleft
    obtain ⟨b, action, t, hwake, hstep⟩ := (inv_of_reachable (.inl hcard) hs).progress ha
    exact ⟨(b, action), t, hwake, hstep⟩

/-- How many callers come back from a barrier, and when all of them do. -/
theorem returns_iff (nthreads : UInt64) (callers : Nat) (hpositive : 0 < callers)
    (hbound : callers < 2 ^ 64) :
    (∀ s, (system (Fin callers) nthreads).Reachable s →
      tally (· = Pc.returned) s.pcs ≤ nthreads.toNat ∧
      ((∃ a, s.pcs a = .returned) → nthreads.toNat ≤ callers)) ∧
    (∀ s calls, (system (Fin callers) nthreads).Run (construct nthreads) calls s →
      calls.length ≤ callers * (3 * callers + 5) + (calls.map slack).sum) ∧
    ((∀ s, (system (Fin callers) nthreads).Reachable s → ∃ calls t,
      (∀ call ∈ calls, call.2 ≠ .wake) ∧ (system (Fin callers) nthreads).Run s calls t ∧
      ∀ a, t.pcs a = .returned) ↔ callers = nthreads.toNat) := by
  have hcard : Fintype.card (Fin callers) = callers := Fintype.card_fin callers
  have hcounts : ∀ s, (system (Fin callers) nthreads).Reachable s → Counts nthreads s :=
    fun s => counts_of_reachable (by rwa [hcard])
  refine ⟨?_, ?_, ?_⟩
  · intro s hs
    refine ⟨(hcounts s hs).returned_le, ?_⟩
    rintro ⟨a, ha⟩
    simpa [hcard] using (hcounts s hs).le_card_of_returned ha
  · intro s calls hrun
    simpa [hcard] using length_le hrun
  · constructor
    · intro hall
      have hstart : (system (Fin callers) nthreads).Reachable (construct nthreads) :=
        System.reachable_init rfl
      obtain ⟨calls, t, _, hrun, hreturned⟩ := hall _ hstart
      have ht := hcounts t (hstart.run hrun)
      have hmost := ht.returned_le
      rw [tally_eq_card_iff.mpr hreturned, hcard] at hmost
      have hleast := ht.le_card_of_returned (hreturned ⟨0, hpositive⟩)
      rw [hcard] at hleast
      exact le_antisymm hmost hleast
    · intro heq s hs
      exact completes (by rw [hcard, heq]) hs

/-- One caller too many: the last one sleeps for good. -/
theorem returns_iff_three : ¬ ∀ s, (system (Fin 3) 2).Reachable s → ∃ calls t,
    (∀ call ∈ calls, call.2 ≠ .wake) ∧ (system (Fin 3) 2).Run s calls t ∧
      ∀ a, t.pcs a = .returned := by
  intro hall
  exact absurd ((returns_iff 2 3 (by decide) (by decide)).2.2.mp hall) (by decide)

end Returns

end SpackPlayground.Psync.Callers
