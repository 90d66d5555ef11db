import Mathlib.Algebra.BigOperators.Group.List.Lemmas
import Mathlib.Data.List.DropRight

/-! Differences of successive terms, and how they add up. -/
namespace SpackPlayground.Library.Telescope

variable {G : Type*} [AddCommGroup G]

def gaps : G → List G → List G
  | _, [] => []
  | first, next :: rest => (next - first) :: gaps next rest

theorem gaps_map_range (t : Nat → G) (n : Nat) :
    gaps (t 0) ((List.range n).map fun i => t (i + 1)) =
      (List.range n).map fun i => t (i + 1) - t i := by
  induction n generalizing t with
  | zero => rfl
  | succ n ih =>
      rw [List.range_succ_eq_map, List.map_cons, List.map_cons, List.map_map, List.map_map]
      exact congrArg ((t 1 - t 0) :: ·) (ih fun i => t (i + 1))

theorem sum_map_sub (t : Nat → G) (m k : Nat) :
    ((List.range k).map fun i => t (m + i + 1) - t (m + i)).sum = t (m + k) - t m := by
  induction k with
  | zero => simp
  | succ k ih =>
      rw [List.range_succ, List.map_append, List.sum_append, ih, List.map_singleton,
        List.sum_singleton, ← Nat.add_assoc]
      exact sub_add_sub_cancel' ..

theorem getLastD_map_range {α : Type*} (t : Nat → α) (n : Nat) :
    ((List.range n).map fun i => t (i + 1)).getLastD (t 0) = t n := by
  cases n with
  | zero => rfl
  | succ n => simp [List.range_succ]

theorem rtake_map_range {α : Type*} (f : Nat → α) (n size : Nat) :
    ((List.range n).map f).rtake size =
      (List.range (min n size)).map fun i => f (n - min n size + i) := by
  apply List.ext_getElem
  · simp [List.rtake]
    omega
  · intro i _ _
    simp only [List.rtake, List.getElem_drop, List.getElem_map, List.getElem_range,
      List.length_map, List.length_range]
    congr 1
    omega

end SpackPlayground.Library.Telescope
