import SpackPlayground.Library.CrashHoare
import SpackPlayground.Library.Persistence

/-! Persistent memory in which a flush is only done with by the next drain, and the
commands on it. -/
namespace SpackPlayground.Library.Persistence

open CrashHoare

variable {Loc : Type} (Val : Loc → Type)

/-- A location is flushed when it has not been stored to since its last flush. -/
structure Pipeline extends Memory Val where
  flushed : Loc → Bool

variable {Val}

namespace Pipeline

def flush (p : Pipeline Val) (range : Loc → Bool) : Pipeline Val :=
  { p with flushed := fun l => p.flushed l || range l }

def drain (p : Pipeline Val) : Pipeline Val :=
  { p.toMemory.persist p.flushed with flushed := fun _ => false }

/-- The next drain leaves the locations of `s` durable. -/
def Safe (p : Pipeline Val) (s : Set Loc) : Prop :=
  ∀ l ∈ s, p.flushed l = true ∨ p.medium l = p.view l

variable {p : Pipeline Val} {s : Set Loc} {l : Loc} {x : Val l}

theorem safe_flush {range : Loc → Bool} (hrange : ∀ l ∈ s, range l = true) :
    (p.flush range).Safe s := by
  intro l hl
  apply Or.inl
  change (p.flushed l || range l) = true
  rw [hrange l hl, Bool.or_true]

theorem Safe.flush (hsafe : p.Safe s) (range : Loc → Bool) : (p.flush range).Safe s := by
  intro l hl
  cases hsafe l hl with
  | inl hflushed =>
      apply Or.inl
      change (p.flushed l || range l) = true
      rw [hflushed, Bool.true_or]
  | inr hdurable => exact .inr hdurable

theorem Safe.drain (hsafe : p.Safe s) : p.drain.Durable s := by
  intro l hl
  change (if p.flushed l then p.view l else p.medium l) = p.view l
  split
  · rfl
  · rename_i hflushed
    exact (hsafe l hl).resolve_left hflushed

theorem Safe.union {t : Set Loc} (hsafe : p.Safe s) (hother : p.Safe t) : p.Safe (s ∪ t) := by
  intro l hl
  cases hl with
  | inl hl => exact hsafe l hl
  | inr hl => exact hother l hl

theorem durable_drain (hdurable : p.Durable s) : p.drain.Durable s := hdurable.persist p.flushed

variable [DecidableEq Loc]

def store (p : Pipeline Val) (l : Loc) (x : Val l) : Pipeline Val :=
  { p.toMemory.store l x with flushed := Function.update p.flushed l false }

def evict (p : Pipeline Val) (l : Loc) (x : Val l) : Pipeline Val :=
  { p.toMemory.evict l x with flushed := p.flushed }

theorem Safe.store (hsafe : p.Safe s) (hl : l ∉ s) : (p.store l x).Safe s := by
  intro other hother
  have hne : other ≠ l := by
    rintro rfl
    exact hl hother
  have hflushed : (p.store l x).flushed other = p.flushed other := Function.update_of_ne hne ..
  have hview : (p.store l x).view other = p.view other := Memory.view_store_of_ne hne
  rw [hflushed, hview]
  exact hsafe other hother

theorem Safe.evict (hsafe : p.Safe s) (hx : p.Evictable l x) : (p.evict l x).Safe s := by
  intro other hother
  by_cases hother' : p.medium other = p.view other
  · have hdurable : p.Durable {other} := by
      rintro _ rfl
      exact hother'
    exact .inr (hdurable.evict hx other rfl)
  · exact .inl ((hsafe other hother).resolve_right hother')

end Pipeline

variable (Val) in
inductive Cmd : Type → Type where
  | load (l : Loc) : Cmd (Val l)
  | store (l : Loc) (x : Val l) : Cmd Unit
  | flush (range : Loc → Bool) : Cmd Unit
  | drain : Cmd Unit

variable [DecidableEq Loc]

/-- The cache writes a location back; one that is wider than a store also in part. -/
def Evicts (wide : Loc → Bool) (p p' : Pipeline Val) : Prop :=
  ∃ l x, (if wide l then p.Evictable l x else x = p.view l) ∧ p' = p.evict l x

theorem Evicts.evictable {wide : Loc → Bool} {p p' : Pipeline Val} (hevicts : Evicts wide p p') :
    ∃ l x, p.Evictable l x ∧ p' = p.evict l x := by
  obtain ⟨l, x, hx, heq⟩ := hevicts
  refine ⟨l, x, ?_, heq⟩
  split at hx
  · exact hx
  · exact .inl hx

section Evicts

variable {wide : Loc → Bool} {p p' : Pipeline Val} {s : Set Loc}

theorem Evicts.durable (hevicts : Evicts wide p p') (hdurable : p.Durable s) :
    p'.Durable s := by
  obtain ⟨l, x, hx, rfl⟩ := hevicts.evictable
  exact hdurable.evict hx

theorem Evicts.safe (hevicts : Evicts wide p p') (hsafe : p.Safe s) : p'.Safe s := by
  obtain ⟨l, x, hx, rfl⟩ := hevicts.evictable
  exact hsafe.evict hx

theorem Evicts.view_eq (hevicts : Evicts wide p p') : p'.view = p.view := by
  obtain ⟨l, x, _, rfl⟩ := hevicts
  rfl

end Evicts

def Cmd.exec {β : Type} : Cmd Val β → Pipeline Val → β → Pipeline Val → Prop
  | .load l, p, x, p' => x = p.view l ∧ p' = p
  | .store l x, p, _, p' => p' = p.store l x
  | .flush range, p, _, p' => p' = p.flush range
  | .drain, p, _, p' => p' = p.drain

def semantics (wide : Loc → Bool) : Semantics (Cmd Val) (Pipeline Val) where
  exec := Cmd.exec
  drift := Evicts wide

end SpackPlayground.Library.Persistence
