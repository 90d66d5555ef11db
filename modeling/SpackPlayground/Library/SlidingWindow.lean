import Mathlib.Algebra.BigOperators.Group.List.Lemmas
import Mathlib.Data.List.DropRight

/-! The last items of a stream, and sums over them that are kept up to date. -/
namespace SpackPlayground.Library.SlidingWindow

variable {α : Type*} {n : Nat} {xs : List α} {x : α}

theorem length_rtake : (xs.rtake n).length = min n xs.length := by
  unfold List.rtake
  rw [List.length_drop]
  omega

/-- One item goes in; when there are too many, the oldest goes out. -/
def slide (n : Nat) (window : List α) (x : α) : List α :=
  if n < (window ++ [x]).length then (window ++ [x]).tail else window ++ [x]

theorem slide_rtake : slide n (xs.rtake n) x = (xs ++ [x]).rtake n := by
  have happend : xs.rtake n ++ [x] = (xs ++ [x]).drop (xs.length - n) := by
    unfold List.rtake
    rw [List.drop_append_of_le_length (Nat.sub_le ..)]
  unfold slide
  rw [List.length_append, List.length_singleton, length_rtake, happend, List.tail_drop]
  unfold List.rtake
  rw [List.length_append, List.length_singleton]
  split
  · congr 1
    omega
  · congr 1
    omega

variable {G : Type*} [AddCommGroup G] (f : α → G)

theorem sum_map_append_singleton : ((xs ++ [x]).map f).sum = (xs.map f).sum + f x := by
  simp

theorem sum_map_tail (hne : xs ≠ []) :
    (xs.tail.map f).sum = (xs.map f).sum - f (xs.head hne) := by
  cases xs with
  | nil => exact absurd rfl hne
  | cons first rest => simp

end SpackPlayground.Library.SlidingWindow
