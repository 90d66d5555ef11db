import Mathlib.Algebra.Order.BigOperators.Group.List
import Mathlib.Algebra.Order.Ring.Nat
import SpackPlayground.Library.Transition

/-! Ranking functions for labelled transition systems: how long a run can get, and
that a system which is never stuck before its end reaches it. -/
namespace SpackPlayground.Library.Transition.System

variable {State Action : Type*} {system : System State Action} (rank : State → Nat)

/-- A step may raise the rank by what its action is allowed, less one. -/
theorem Run.length_le (slack : Action → Nat)
    (hrank : ∀ s action t, system.Reachable s → system.step s action t →
      rank t + 1 ≤ rank s + slack action)
    {s t : State} {actions : List Action} (hs : system.Reachable s)
    (hrun : system.Run s actions t) :
    rank t + actions.length ≤ rank s + (actions.map slack).sum := by
  induction hrun with
  | nil => simp
  | cons hstep _ ih =>
      have hfirst := hrank _ _ _ hs hstep
      have hrest := ih (hs.step hstep)
      simp only [List.length_cons, List.map_cons, List.sum_cons]
      omega

/-- Where the steps of `good` lower the rank, it bounds how many of them there can be. -/
theorem Run.length_le_rank (good : Action → Prop)
    (hrank : ∀ s action t, good action → system.step s action t → rank t < rank s)
    {s t : State} {actions : List Action} (hrun : system.Run s actions t)
    (hall : ∀ action ∈ actions, good action) : actions.length ≤ rank s := by
  induction hrun with
  | nil => exact Nat.zero_le _
  | cons hstep _ ih =>
      have hlower := hrank _ _ _ (hall _ List.mem_cons_self) hstep
      have hrest := ih fun action hmem => hall action (List.mem_cons_of_mem _ hmem)
      exact Nat.succ_le_of_lt (hrest.trans_lt hlower)

theorem Run.ends_eq (good : Action → Prop) (ended : State → Prop)
    (hsingle : ∀ s action t other u, good action → good other → system.step s action t →
      system.step s other u → t = u)
    (hended : ∀ s action t, ended s → good action → ¬ system.step s action t)
    {s t u : State} {actions others : List Action} (hrun : system.Run s actions t)
    (hall : ∀ action ∈ actions, good action) (ht : ended t) (hother : system.Run s others u)
    (hothers : ∀ action ∈ others, good action) (hu : ended u) : t = u := by
  induction hrun generalizing others with
  | nil =>
      cases hother with
      | nil => rfl
      | cons hstep _ => exact absurd hstep (hended _ _ _ ht (hothers _ List.mem_cons_self))
  | cons hstep _ ih =>
      cases hother with
      | nil => exact absurd hstep (hended _ _ _ hu (hall _ List.mem_cons_self))
      | cons hfirst hrest =>
          cases hsingle _ _ _ _ _ (hall _ List.mem_cons_self) (hothers _ List.mem_cons_self) hstep
            hfirst
          exact ih (fun action hmem => hall action (List.mem_cons_of_mem _ hmem)) ht hrest
            fun action hmem => hothers action (List.mem_cons_of_mem _ hmem)

/-- While the end is not reached some step of `good` is possible, and these steps
lower the rank; so they reach the end. -/
theorem Reachable.completes (good : Action → Prop) (ended : State → Prop)
    (hrank : ∀ s action t, system.Reachable s → good action → system.step s action t →
      rank t < rank s)
    (hprogress : ∀ s, system.Reachable s → ¬ ended s →
      ∃ action t, good action ∧ system.step s action t)
    {s : State} (hs : system.Reachable s) :
    ∃ actions t, (∀ action ∈ actions, good action) ∧ system.Run s actions t ∧ ended t := by
  induction hsize : rank s using Nat.strongRecOn generalizing s with
  | ind size ih =>
      by_cases hended : ended s
      · exact ⟨[], s, by simp, .nil s, hended⟩
      · obtain ⟨action, t, hgood, hstep⟩ := hprogress s hs hended
        have hlower := hrank s action t hs hgood hstep
        obtain ⟨actions, u, hall, hrun, hu⟩ := ih (rank t) (hsize ▸ hlower) (hs.step hstep) rfl
        refine ⟨action :: actions, u, ?_, .cons hstep hrun, hu⟩
        intro next hnext
        cases List.mem_cons.mp hnext with
        | inl heq => exact heq ▸ hgood
        | inr hmem => exact hall next hmem

end SpackPlayground.Library.Transition.System
