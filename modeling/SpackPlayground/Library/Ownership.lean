import Mathlib.Data.Set.Insert
import Mathlib.Logic.Function.Basic

/-! Slots that refer to things, and when no live thing is left without a slot. -/
namespace SpackPlayground.Library.Ownership

variable {Slot Thing : Type*}

/-- Slots refer to live things only, and no two of them to the same one. -/
structure Exclusive (slots : Slot → Option Thing) (live : Set Thing) : Prop where
  live : ∀ k thing, slots k = some thing → thing ∈ live
  unique : ∀ j k thing, slots j = some thing → slots k = some thing → j = k

def Covered (slots : Slot → Option Thing) (live : Set Thing) : Prop :=
  ∀ thing ∈ live, ∃ k, slots k = some thing

variable {slots : Slot → Option Thing} {live : Set Thing} {k : Slot} {thing : Thing}

theorem Exclusive.covered_iff (hslots : Exclusive slots live) :
    Covered slots live ↔ ∀ thing ∈ live, ∃! k, slots k = some thing := by
  constructor
  · intro hcovered thing hlive
    obtain ⟨k, hk⟩ := hcovered thing hlive
    exact ⟨k, hk, fun j hj => hslots.unique j k thing hj hk⟩
  · intro hunique thing hlive
    exact (hunique thing hlive).exists

theorem Exclusive.mono {live' : Set Thing} (hslots : Exclusive slots live) (hsub : live ⊆ live') :
    Exclusive slots live' where
  live j other hj := hsub (hslots.live j other hj)
  unique := hslots.unique

section Assign

variable [DecidableEq Slot]

theorem update_eq_some_iff {j : Slot} {other : Thing} :
    Function.update slots k (some thing) j = some other ↔
      (j = k ∧ thing = other) ∨ (j ≠ k ∧ slots j = some other) := by
  by_cases hj : j = k
  · subst hj
    simp
  · simp [hj]

theorem Exclusive.refer (hslots : Exclusive slots live) (hlive : thing ∈ live)
    (hfree : ∀ j, slots j ≠ some thing) :
    Exclusive (Function.update slots k (some thing)) live where
  live j other hj := by
    cases update_eq_some_iff.mp hj with
    | inl heq => exact heq.2 ▸ hlive
    | inr hold => exact hslots.live j other hold.2
  unique i j other hi hj := by
    cases update_eq_some_iff.mp hi with
    | inl hi =>
        cases update_eq_some_iff.mp hj with
        | inl hj => rw [hi.1, hj.1]
        | inr hj => exact absurd (hi.2 ▸ hj.2) (hfree j)
    | inr hi =>
        cases update_eq_some_iff.mp hj with
        | inl hj => exact absurd (hj.2 ▸ hi.2) (hfree i)
        | inr hj => exact hslots.unique i j other hi.2 hj.2

theorem Exclusive.release (hslots : Exclusive slots live) (k : Slot) :
    Exclusive (Function.update slots k none) live := by
  have hold {j : Slot} {other : Thing} (hj : Function.update slots k none j = some other) :
      slots j = some other := by
    by_cases heq : j = k
    · rw [heq, Function.update_self] at hj
      cases hj
    · rwa [Function.update_of_ne heq] at hj
  exact
    { live := fun j other hj => hslots.live j other (hold hj)
      unique := fun i j other hi hj => hslots.unique i j other (hold hi) (hold hj) }

theorem Exclusive.free (hslots : Exclusive slots live) (k : Slot) :
    Exclusive (Function.update slots k none) {thing | thing ∈ live ∧ slots k ≠ some thing} where
  live j other hj := by
    have hlive := (hslots.release k).live j other hj
    refine ⟨hlive, fun hk => ?_⟩
    by_cases heq : j = k
    · rw [heq, Function.update_self] at hj
      cases hj
    · rw [Function.update_of_ne heq] at hj
      exact heq (hslots.unique j k other hj hk)
  unique := (hslots.release k).unique

theorem Covered.free (hcovered : Covered slots live) (k : Slot) :
    Covered (Function.update slots k none) {thing | thing ∈ live ∧ slots k ≠ some thing} := by
  intro thing hthing
  obtain ⟨j, hj⟩ := hcovered thing hthing.1
  have hne : j ≠ k := by
    rintro rfl
    exact hthing.2 hj
  exact ⟨j, (Function.update_of_ne hne ..).trans hj⟩

theorem Exclusive.assign (hslots : Exclusive slots live) (hnew : thing ∉ live) :
    Exclusive (Function.update slots k (some thing)) (insert thing live) :=
  (hslots.mono (Set.subset_insert thing live)).refer (Set.mem_insert thing live)
    fun j hj => hnew (hslots.live j thing hj)

/-- Nothing is lost exactly when the slot was empty and nothing was lost before. -/
theorem Exclusive.covered_assign_iff (hslots : Exclusive slots live) (hnew : thing ∉ live) :
    Covered (Function.update slots k (some thing)) (insert thing live) ↔
      Covered slots live ∧ slots k = none := by
  have hold {other : Thing} (hlive : other ∈ live) {j : Slot}
      (hj : Function.update slots k (some thing) j = some other) :
      j ≠ k ∧ slots j = some other := by
    cases update_eq_some_iff.mp hj with
    | inl heq =>
        rw [heq.2] at hnew
        exact absurd hlive hnew
    | inr hold => exact hold
  constructor
  · intro hcovered
    constructor
    · intro other hlive
      obtain ⟨j, hj⟩ := hcovered other (.inr hlive)
      exact ⟨j, (hold hlive hj).2⟩
    · apply Option.eq_none_iff_forall_ne_some.mpr
      intro other hother
      have hlive := hslots.live k other hother
      obtain ⟨j, hj⟩ := hcovered other (.inr hlive)
      have hj := hold hlive hj
      exact hj.1 (hslots.unique j k other hj.2 hother)
  · intro hbefore other hlive
    cases hlive with
    | inl heq => exact ⟨k, by rw [heq, Function.update_self]⟩
    | inr hlive =>
        obtain ⟨j, hj⟩ := hbefore.1 other hlive
        apply Exists.intro j
        apply update_eq_some_iff.mpr
        apply Or.inr
        apply And.intro _ hj
        intro heq
        rw [heq, hbefore.2] at hj
        cases hj

end Assign

section Drop

variable (kept : Slot → Prop) [DecidablePred kept]

/-- The slots that are not `kept` disappear with what they refer to. -/
def drop (slots : Slot → Option Thing) (k : Slot) : Option Thing :=
  if kept k then slots k else none

theorem drop_eq_some_iff {kept : Slot → Prop} [DecidablePred kept] :
    drop kept slots k = some thing ↔ kept k ∧ slots k = some thing := by
  simp [drop]

theorem Exclusive.drop (hslots : Exclusive slots live) :
    Exclusive (drop kept slots) live where
  live j other hj := hslots.live j other (drop_eq_some_iff.mp hj).2
  unique i j other hi hj :=
    hslots.unique i j other (drop_eq_some_iff.mp hi).2 (drop_eq_some_iff.mp hj).2

theorem Exclusive.covered_drop_iff (hslots : Exclusive slots live) :
    Covered (Ownership.drop kept slots) live ↔
      Covered slots live ∧ ∀ k, ¬ kept k → slots k = none := by
  constructor
  · intro hcovered
    constructor
    · intro other hlive
      obtain ⟨j, hj⟩ := hcovered other hlive
      exact ⟨j, (drop_eq_some_iff.mp hj).2⟩
    · intro k hdropped
      apply Option.eq_none_iff_forall_ne_some.mpr
      intro other hother
      obtain ⟨j, hj⟩ := hcovered other (hslots.live k other hother)
      have hj := drop_eq_some_iff.mp hj
      apply hdropped
      rw [← hslots.unique j k other hj.2 hother]
      exact hj.1
  · intro hbefore other hlive
    obtain ⟨j, hj⟩ := hbefore.1 other hlive
    apply Exists.intro j
    apply drop_eq_some_iff.mpr
    apply And.intro _ hj
    by_contra hdropped
    rw [hbefore.2 j hdropped] at hj
    cases hj

end Drop

end SpackPlayground.Library.Ownership
