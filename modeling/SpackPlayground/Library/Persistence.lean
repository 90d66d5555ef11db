import Mathlib.Data.Set.Basic
import Mathlib.Logic.Function.Basic

/-! Persistent memory behind a cache. The program reads and writes the view;
what survives a crash is the medium. Any store may reach the medium at any time,
also in part, and `persist` makes sure that those to a range have. -/
namespace SpackPlayground.Library.Persistence

variable {Loc : Type*} (Val : Loc → Type*)

structure Memory where
  view : (l : Loc) → Val l
  medium : (l : Loc) → Val l

variable {Val}

namespace Memory

def persist (m : Memory Val) (range : Loc → Bool) : Memory Val :=
  { m with medium := fun l => if range l then m.view l else m.medium l }

def crash (m : Memory Val) : Memory Val := ⟨m.medium, m.medium⟩

/-- An update that is durable when it can be seen, all of it at once. -/
def assign (m : Memory Val) (patch : (l : Loc) → Option (Val l)) : Memory Val where
  view l := (patch l).getD (m.view l)
  medium l := (patch l).getD (m.medium l)

def Durable (m : Memory Val) (s : Set Loc) : Prop := ∀ l ∈ s, m.medium l = m.view l

variable {m : Memory Val} {l other : Loc} {x : Val l} {range : Loc → Bool} {s : Set Loc}

theorem Durable.mono {t : Set Loc} (hdurable : m.Durable s) (hsub : t ⊆ s) : m.Durable t :=
  fun l hl => hdurable l (hsub hl)

theorem Durable.assign (hdurable : m.Durable s) (patch : (l : Loc) → Option (Val l)) :
    (m.assign patch).Durable s := by
  intro l hl
  change (patch l).getD (m.medium l) = (patch l).getD (m.view l)
  rw [hdurable l hl]

theorem Durable.persist (hdurable : m.Durable s) (range : Loc → Bool) :
    (m.persist range).Durable s := by
  intro l hl
  unfold Memory.persist
  dsimp only
  split
  · rfl
  · exact hdurable l hl

theorem medium_persist (hl : range l = true) : (m.persist range).medium l = m.view l := if_pos hl

theorem medium_persist_of_not (hl : range l = false) : (m.persist range).medium l = m.medium l :=
  if_neg (ne_true_of_eq_false hl)

theorem durable_persist (hrange : ∀ l ∈ s, range l = true) : (m.persist range).Durable s :=
  fun l hl => medium_persist (hrange l hl)

/-- What eviction can leave of `l` on the medium: its value, or part of it while it
is not there. -/
def Evictable (m : Memory Val) (l : Loc) (x : Val l) : Prop :=
  x = m.view l ∨ m.medium l ≠ m.view l

variable [DecidableEq Loc]

def store (m : Memory Val) (l : Loc) (x : Val l) : Memory Val :=
  { m with view := Function.update m.view l x }

def evict (m : Memory Val) (l : Loc) (x : Val l) : Memory Val :=
  { m with medium := Function.update m.medium l x }

@[simp] theorem view_evict : (m.evict l x).view = m.view := rfl

@[simp] theorem medium_evict_self : (m.evict l x).medium l = x := Function.update_self ..

theorem medium_evict_of_ne (hne : other ≠ l) : (m.evict l x).medium other = m.medium other :=
  Function.update_of_ne hne ..

@[simp] theorem medium_store : (m.store l x).medium = m.medium := rfl

@[simp] theorem view_store_self : (m.store l x).view l = x := Function.update_self ..

theorem view_store_of_ne (hne : other ≠ l) : (m.store l x).view other = m.view other :=
  Function.update_of_ne hne ..

theorem view_store_of_mem (hother : other ∈ s) (hl : l ∉ s) :
    (m.store l x).view other = m.view other := by
  apply view_store_of_ne
  intro heq
  exact hl (heq ▸ hother)

theorem Durable.store (hdurable : m.Durable s) (hl : l ∉ s) : (m.store l x).Durable s := by
  intro other hother
  rw [medium_store, view_store_of_mem hother hl]
  exact hdurable other hother

theorem Durable.evict (hdurable : m.Durable s) (hx : m.Evictable l x) :
    (m.evict l x).Durable s := by
  intro other hother
  by_cases heq : other = l
  · subst heq
    rw [medium_evict_self, view_evict]
    exact hx.resolve_right fun hne => hne (hdurable other hother)
  · rw [medium_evict_of_ne heq, view_evict, hdurable other hother]

end Memory

end SpackPlayground.Library.Persistence
