import Mathlib.Algebra.Order.BigOperators.Group.List
import Mathlib.Algebra.Order.Field.Basic
import Mathlib.Tactic.FieldSimp
import Mathlib.Tactic.Ring

/-! Mean and variance of a list. -/
namespace SpackPlayground.Library.Moments

variable {K : Type*} [Field K] {xs : List K}

def mean (xs : List K) : K := xs.sum / xs.length

/-- The mean of the squares less the square of the mean. -/
def variance (xs : List K) : K :=
  (xs.map fun x => x * x).sum / xs.length - mean xs * mean xs

/-- The sum of the squared distances from `m`. -/
def spread (xs : List K) (m : K) : K := (xs.map fun x => (x - m) * (x - m)).sum

private theorem spread_eq (xs : List K) (m : K) :
    spread xs m = (xs.map fun x => x * x).sum - 2 * m * xs.sum + xs.length * (m * m) := by
  induction xs with
  | nil => simp [spread]
  | cons x xs ih =>
      unfold spread at ih ⊢
      simp only [List.map_cons, List.sum_cons, List.length_cons, ih]
      push_cast
      ring

private theorem spread_map_add (xs : List K) (m c : K) :
    spread (xs.map (· + c)) (m + c) = spread xs m := by
  unfold spread
  rw [List.map_map]
  congr 2
  funext x
  simp

section CharZero

variable [CharZero K]

theorem length_ne_zero (hne : xs ≠ []) : (xs.length : K) ≠ 0 := by simpa using hne

private theorem mean_map_add (hne : xs ≠ []) (c : K) : mean (xs.map (· + c)) = mean xs + c := by
  have hlength := length_ne_zero hne
  have hsum : (xs.map (· + c)).sum = xs.sum + xs.length * c := by
    simp [List.sum_map_add]
  unfold mean
  rw [hsum, List.length_map]
  field_simp

theorem variance_eq (hne : xs ≠ []) : variance xs = spread xs (mean xs) / xs.length := by
  have hlength := length_ne_zero hne
  rw [spread_eq]
  unfold variance mean
  field_simp
  ring

theorem variance_map_add (hne : xs ≠ []) (c : K) : variance (xs.map (· + c)) = variance xs := by
  rw [variance_eq hne, variance_eq (by simpa using hne), mean_map_add hne, spread_map_add,
    List.length_map]

end CharZero

variable [LinearOrder K] [IsStrictOrderedRing K]

theorem spread_nonneg (xs : List K) (m : K) : 0 ≤ spread xs m := by
  apply List.sum_nonneg
  intro square hsquare
  obtain ⟨x, _, rfl⟩ := List.mem_map.mp hsquare
  exact mul_self_nonneg _

private theorem spread_eq_zero_iff {m : K} : spread xs m = 0 ↔ ∀ x ∈ xs, x = m := by
  induction xs with
  | nil => simp [spread]
  | cons x xs ih =>
      have hsplit : spread (x :: xs) m = (x - m) * (x - m) + spread xs m := rfl
      rw [hsplit, add_eq_zero_iff_of_nonneg (mul_self_nonneg _) (spread_nonneg xs m), ih,
        mul_self_eq_zero, sub_eq_zero, List.forall_mem_cons]

theorem variance_nonneg (hne : xs ≠ []) : 0 ≤ variance xs := by
  rw [variance_eq hne]
  exact div_nonneg (spread_nonneg ..) (Nat.cast_nonneg _)

theorem variance_eq_zero_iff (hne : xs ≠ []) :
    variance xs = 0 ↔ ∀ x ∈ xs, ∀ other ∈ xs, x = other := by
  have hlength := length_ne_zero hne
  rw [variance_eq hne, div_eq_zero_iff, or_iff_left hlength, spread_eq_zero_iff]
  constructor
  · intro hall x hx other hother
    rw [hall x hx, hall other hother]
  · intro hequal x hx
    have hconst : xs = List.replicate xs.length x :=
      List.eq_replicate_of_mem fun other hother => hequal other hother x hx
    unfold mean
    rw [hconst, List.sum_replicate, List.length_replicate, nsmul_eq_mul,
      mul_div_cancel_left₀ _ hlength]

end SpackPlayground.Library.Moments
