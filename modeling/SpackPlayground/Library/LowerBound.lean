import Mathlib.Data.List.Sort

/-! Lower bounds in lists sorted by a strict weak order, and insertion there. -/
namespace SpackPlayground.Library.LowerBound

structure StrictWeakOrder (α : Type*) where
  less : α → α → Bool
  irrefl : ∀ a, less a a = false
  trans : ∀ a b c, less a b = true → less b c = true → less a c = true
  /-- Being neither less nor greater is transitive. -/
  incomparable : ∀ a b c, less a b = false → less b a = false → less b c = false →
    less c b = false → less a c = false

variable {α : Type*} (order : StrictWeakOrder α)

namespace StrictWeakOrder

def le (a b : α) : Prop := order.less b a = false

instance : DecidableRel order.le := fun _ _ => inferInstanceAs (Decidable (_ = _))

instance : Std.Total order.le where
  total a b := by
    unfold le
    cases hless : order.less b a with
    | false => exact .inl rfl
    | true =>
        apply Or.inr
        cases hgreater : order.less a b with
        | false => rfl
        | true =>
            have hself := order.trans a b a hgreater hless
            rw [order.irrefl] at hself
            exact hself.symm

instance : IsTrans α order.le where
  trans a b c := by
    unfold le
    intro hab hbc
    by_contra hless
    rw [Bool.not_eq_false] at hless
    have hnotAbove : order.less a b = false := by
      by_contra habove
      rw [Bool.not_eq_false] at habove
      rw [order.trans c a b hless habove] at hbc
      exact absurd hbc (by simp)
    have hnotBelow : order.less b c = false := by
      by_contra hbelow
      rw [Bool.not_eq_false] at hbelow
      rw [order.trans b c a hbelow hless] at hab
      exact absurd hab (by simp)
    rw [order.incomparable c b a hbc hnotBelow hab hnotAbove] at hless
    exact absurd hless (by simp)

end StrictWeakOrder

def Sorted (xs : List α) : Prop := xs.Pairwise order.le

/-- The first position whose item is not less than `x`. -/
def lowerBound (xs : List α) (x : α) : Nat := xs.findIdx fun item => !order.less item x

variable {order} {xs : List α}

theorem lowerBound_le (order : StrictWeakOrder α) (xs : List α) (x : α) :
    lowerBound order xs x ≤ xs.length := List.findIdx_le_length

variable (order xs) in
def inserted (x : α) : List α :=
  xs.take (lowerBound order xs x) ++ x :: xs.drop (lowerBound order xs x)

section Positions

variable {x : α} {i : Nat}

theorem getElem?_inserted_of_lt (hi : i < lowerBound order xs x) :
    (inserted order xs x)[i]? = xs[i]? := by
  have hle := lowerBound_le order xs x
  unfold inserted
  rw [List.getElem?_append_left (by rw [List.length_take]; omega), List.getElem?_take_of_lt hi]

theorem getElem?_inserted_self : (inserted order xs x)[lowerBound order xs x]? = some x := by
  have hle := lowerBound_le order xs x
  have hlength : (xs.take (lowerBound order xs x)).length = lowerBound order xs x := by
    rw [List.length_take]
    omega
  unfold inserted
  rw [List.getElem?_append_right (by omega), hlength, Nat.sub_self]
  rfl

theorem getElem?_inserted_succ (hi : lowerBound order xs x ≤ i) :
    (inserted order xs x)[i + 1]? = xs[i]? := by
  have hle := lowerBound_le order xs x
  have hlength : (xs.take (lowerBound order xs x)).length = lowerBound order xs x := by
    rw [List.length_take]
    omega
  unfold inserted
  rw [List.getElem?_append_right (by omega), hlength, Nat.succ_sub hi, List.getElem?_cons_succ,
    List.getElem?_drop]
  congr 1
  omega

end Positions

theorem inserted_eq_orderedInsert (x : α) : inserted order xs x = xs.orderedInsert order.le x := by
  rw [List.orderedInsert_eq_take_drop, List.takeWhile_eq_take_findIdx_not,
    List.dropWhile_eq_drop_findIdx_not]
  unfold inserted lowerBound StrictWeakOrder.le
  simp

theorem Sorted.inserted (hsorted : Sorted order xs) (x : α) :
    Sorted order (inserted order xs x) := by
  rw [inserted_eq_orderedInsert]
  exact List.Pairwise.orderedInsert x xs hsorted

theorem length_inserted (x : α) : (inserted order xs x).length = xs.length + 1 := by
  rw [inserted_eq_orderedInsert, List.orderedInsert_length]

theorem inserted_perm (x : α) : (inserted order xs x).Perm (x :: xs) := by
  rw [inserted_eq_orderedInsert]
  exact List.perm_orderedInsert order.le x xs

end SpackPlayground.Library.LowerBound
