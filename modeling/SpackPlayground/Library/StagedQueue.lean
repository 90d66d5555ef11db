import Mathlib.Data.List.Basic
import SpackPlayground.Library.Transition

/-! A queue with two stages. Items are put into the open stage; closing moves
the whole open stage into the closed one when that is empty; releasing empties
the closed stage. This is what a double buffer is for: the consumer works on
one stage while the producer fills the other. -/
namespace SpackPlayground.Library.StagedQueue

open Transition

variable {α : Type*}

structure Queue (α : Type*) where
  released : List (List α)
  closedStage : List α
  openStage : List α
  accepted : List α
  /-- Every stage that was ever closed, oldest first. -/
  batches : List (List α)

inductive Label (α : Type*) where
  | put (item : α)
  | close
  | release

inductive Step : Queue α → Label α → Queue α → Prop where
  | put (q : Queue α) (item : α) :
      Step q (.put item)
        { q with openStage := q.openStage ++ [item], accepted := q.accepted ++ [item] }
  | close (q : Queue α) : q.closedStage = [] →
      Step q .close
        { q with closedStage := q.openStage, openStage := [],
                 batches := q.batches ++ [q.openStage] }
  | release (q : Queue α) :
      Step q .release
        { q with closedStage := [], released := q.released ++ [q.closedStage] }

def emptyQueue : Queue α where
  released := []
  closedStage := []
  openStage := []
  accepted := []
  batches := []

def queue (α : Type*) : System (Queue α) (Label α) where
  init q := q = emptyQueue
  step := Step

/-- Nothing is lost, duplicated or reordered. -/
theorem accepted_eq {q : Queue α} (hq : (queue α).Reachable q) :
    q.released.flatten ++ q.closedStage ++ q.openStage = q.accepted := by
  refine hq.invariant (motive := fun q =>
    q.released.flatten ++ q.closedStage ++ q.openStage = q.accepted) ?_ ?_
  · rintro q rfl
    rfl
  · rintro q label q' - hq hstep
    cases hstep with
    | put item => rw [← hq, List.append_assoc _ _ [item]]
    | close hempty => rw [← hq, hempty]; simp
    | release => rw [← hq]; simp

/-- Stages are released in the order in which they were closed, and at most the
last closed stage is not released yet. -/
theorem batches_eq {q : Queue α} (hq : (queue α).Reachable q) :
    ∃ earlier, q.released.flatten = earlier.flatten ∧
      (q.batches = earlier ++ [q.closedStage] ∨ q.batches = earlier ∧ q.closedStage = []) := by
  refine hq.invariant (motive := fun q => ∃ earlier, q.released.flatten = earlier.flatten ∧
    (q.batches = earlier ++ [q.closedStage] ∨ q.batches = earlier ∧ q.closedStage = [])) ?_ ?_
  · rintro q rfl
    exact ⟨[], rfl, .inr ⟨rfl, rfl⟩⟩
  · rintro q label q' - ⟨earlier, hreleased, hclosed⟩ hstep
    have hflow : q.batches.flatten = q.released.flatten ++ q.closedStage := by
      rcases hclosed with h | ⟨h, hempty⟩
      · simp [h, hreleased]
      · simp [h, hreleased, hempty]
    cases hstep with
    | put item => exact ⟨earlier, hreleased, hclosed⟩
    | close hempty => exact ⟨q.batches, by simp [hflow, hempty], .inl rfl⟩
    | release => exact ⟨q.batches, by simp [hflow], .inr ⟨rfl, rfl⟩⟩

theorem batches_flatten_append {q : Queue α} (hq : (queue α).Reachable q) :
    q.batches.flatten ++ q.openStage = q.accepted := by
  obtain ⟨earlier, hreleased, hclosed⟩ := batches_eq hq
  rw [← accepted_eq hq, hreleased]
  rcases hclosed with h | ⟨h, hempty⟩
  · simp [h]
  · simp [h, hempty]

end SpackPlayground.Library.StagedQueue
