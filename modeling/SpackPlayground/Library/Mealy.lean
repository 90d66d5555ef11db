import Mathlib.Data.List.Basic

/-! Machines that answer: each operation changes a state and returns something.
Two machines give the same answers when a relation between their states is kept
by every operation. -/
namespace SpackPlayground.Library.Mealy

variable {State Abstract Op Answer : Type*}

def run (apply : State → Op → State × Answer) (s : State) : List Op → State × List Answer
  | [] => (s, [])
  | op :: ops =>
      let next := apply s op
      let rest := run apply next.1 ops
      (rest.1, next.2 :: rest.2)

theorem run_append_singleton (apply : State → Op → State × Answer) (s : State) (ops : List Op)
    (op : Op) : (run apply s (ops ++ [op])).1 = (apply (run apply s ops).1 op).1 := by
  induction ops generalizing s with
  | nil => rfl
  | cons first ops ih => exact ih (apply s first).1

theorem run_append_singleton_answers (apply : State → Op → State × Answer) (s : State)
    (ops : List Op) (op : Op) : (run apply s (ops ++ [op])).2 =
      (run apply s ops).2 ++ [(apply (run apply s ops).1 op).2] := by
  induction ops generalizing s with
  | nil => rfl
  | cons first ops ih => exact congrArg (List.cons _) (ih (apply s first).1)

/-- Related states answer alike, and their successors are related again. -/
def Simulates (related : State → Abstract → Prop) (apply : State → Op → State × Answer)
    (applyAbstract : Abstract → Op → Abstract × Answer) : Prop :=
  ∀ s x op, related s x →
    related (apply s op).1 (applyAbstract x op).1 ∧ (apply s op).2 = (applyAbstract x op).2

variable {related : State → Abstract → Prop} {apply : State → Op → State × Answer}
  {applyAbstract : Abstract → Op → Abstract × Answer}

theorem Simulates.run (hsimulates : Simulates related apply applyAbstract) {s : State}
    {x : Abstract} (hrelated : related s x) (ops : List Op) :
    related (run apply s ops).1 (run applyAbstract x ops).1 ∧
      (run apply s ops).2 = (run applyAbstract x ops).2 := by
  induction ops generalizing s x with
  | nil => exact ⟨hrelated, rfl⟩
  | cons op ops ih =>
      have hstep := hsimulates s x op hrelated
      have hrest := ih hstep.1
      exact ⟨hrest.1, congrArg₂ List.cons hstep.2 hrest.2⟩

end SpackPlayground.Library.Mealy
