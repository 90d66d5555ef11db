import Mathlib.Algebra.BigOperators.Group.Finset.Piecewise
import Mathlib.Data.Fintype.Card

/-! How many entries of a finite table satisfy a predicate, and how that number
changes when one entry is updated; likewise the sum of a weight over the table. -/
namespace SpackPlayground.Library.Tally

variable {α β : Type*} [Fintype α]

def tally (p : β → Prop) [DecidablePred p] (table : α → β) : Nat :=
  (Finset.univ.filter fun a => p (table a)).card

variable {p : β → Prop} [DecidablePred p] {table : α → β}

theorem tally_congr {table' : α → β} (hsame : ∀ a, p (table' a) ↔ p (table a)) :
    tally p table' = tally p table := by
  unfold tally
  congr 1
  exact Finset.filter_congr fun a _ => hsame a

theorem tally_le_card : tally p table ≤ Fintype.card α :=
  Finset.card_filter_le _ _

theorem tally_eq_card_iff : tally p table = Fintype.card α ↔ ∀ a, p (table a) := by
  unfold tally
  rw [← Finset.card_univ, Finset.card_filter_eq_iff]
  simp

theorem tally_lt_card {a : α} (ha : ¬ p (table a)) : tally p table < Fintype.card α :=
  lt_of_le_of_ne tally_le_card fun heq => ha (tally_eq_card_iff.mp heq a)

theorem tally_mono {q : β → Prop} [DecidablePred q] (himp : ∀ a, p (table a) → q (table a)) :
    tally p table ≤ tally q table := by
  apply Finset.card_le_card
  intro a ha
  simp only [Finset.mem_filter] at ha ⊢
  exact ⟨ha.1, himp a ha.2⟩

theorem tally_lt_tally {q : β → Prop} [DecidablePred q]
    (himp : ∀ a, p (table a) → q (table a)) {a : α} (ha : q (table a)) (hnot : ¬ p (table a)) :
    tally p table < tally q table := by
  apply Finset.card_lt_card
  refine Finset.ssubset_iff_subset_ne.mpr ⟨?_, ?_⟩
  · intro b hb
    simp only [Finset.mem_filter] at hb ⊢
    exact ⟨hb.1, himp b hb.2⟩
  · intro heq
    have hmem : a ∈ Finset.univ.filter fun b => q (table b) := by simpa using ha
    rw [← heq] at hmem
    exact hnot (Finset.mem_filter.mp hmem).2

theorem tally_pos {a : α} (ha : p (table a)) : 0 < tally p table :=
  Finset.card_pos.mpr ⟨a, by simpa using ha⟩

theorem tally_eq_zero (hnone : ∀ a, ¬ p (table a)) : tally p table = 0 := by
  unfold tally
  simp [hnone]

variable [DecidableEq α] {a : α} {b : β}

theorem forall_update {γ : Type*} [DecidableEq γ] {a : γ} {b : β} {table : γ → β}
    {motive : γ → β → Prop} (hself : motive a b) (hother : ∀ c, c ≠ a → motive c (table c))
    (c : γ) : motive c (Function.update table a b c) := by
  by_cases hc : c = a
  · subst hc
    rwa [Function.update_self]
  · rw [Function.update_of_ne hc]
    exact hother c hc

theorem tally_update_of_iff (hsame : p b ↔ p (table a)) :
    tally p (Function.update table a b) = tally p table := by
  apply tally_congr
  exact forall_update (motive := fun c entry => p entry ↔ p (table c)) hsame fun _ _ => Iff.rfl

theorem tally_update_succ (hold : ¬ p (table a)) (hnew : p b) :
    tally p (Function.update table a b) = tally p table + 1 := by
  have hinsert : (Finset.univ.filter fun c => p (Function.update table a b c)) =
      insert a (Finset.univ.filter fun c => p (table c)) := by
    ext c
    by_cases hc : c = a
    · subst hc
      simp [hnew]
    · simp [hc]
  unfold tally
  rw [hinsert, Finset.card_insert_of_notMem]
  simpa using hold

theorem sum_update_add (weight : β → Nat) (table : α → β) (a : α) (b : β) :
    ∑ c, weight (Function.update table a b c) + weight (table a) =
      ∑ c, weight (table c) + weight b := by
  have hupdate : (fun c => weight (Function.update table a b c)) =
      Function.update (fun c => weight (table c)) a (weight b) := by
    funext c
    by_cases hc : c = a
    · subst hc
      simp
    · simp [hc]
  rw [hupdate, Finset.sum_update_of_mem (Finset.mem_univ a), Finset.sdiff_singleton_eq_erase,
    ← Finset.add_sum_erase Finset.univ (fun c => weight (table c)) (Finset.mem_univ a)]
  omega

section Lists

variable {M γ : Type*} [AddCommMonoid M] {xs : List γ} {i : Nat} {x : γ}

theorem sum_map_set_add (hi : xs[i]? = some x) (weight : γ → M) (y : γ) :
    ((xs.set i y).map weight).sum + weight x = (xs.map weight).sum + weight y := by
  induction xs generalizing i with
  | nil => cases hi
  | cons first rest ih =>
      cases i with
      | zero =>
          cases hi
          simp only [List.set_cons_zero, List.map_cons, List.sum_cons]
          rw [add_right_comm, add_comm (weight y), add_right_comm]
      | succ i =>
          have hrest := ih hi
          simp only [List.set_cons_succ, List.map_cons, List.sum_cons, add_assoc, hrest]

end Lists

end SpackPlayground.Library.Tally
