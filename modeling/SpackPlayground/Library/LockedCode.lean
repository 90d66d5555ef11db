import Mathlib.Data.Set.Function

/-! Code that locks and unlocks mutexes, one for each object, and that reads and
writes the objects' values. Code is disciplined when it locks once, before it
uses anything but its own fresh objects, and unlocks all when it has used them. -/
namespace SpackPlayground.Library.LockedCode

inductive Code (Obj V R : Type*) where
  | ret (r : R)
  | lock (objs : List Obj) (next : Code Obj V R)
  | unlock (objs : List Obj) (next : Code Obj V R)
  | read (o : Obj) (next : V → Code Obj V R)
  | write (o : Obj) (x : V) (next : Code Obj V R)

variable {Obj V R : Type*}

namespace Code

def accessed : Code Obj V R → Option Obj
  | ret _ | lock .. | unlock .. => none
  | read o _ | write o .. => some o

def Within (territory : Set Obj) : Code Obj V R → Prop
  | ret _ => True
  | lock _ next | unlock _ next => next.Within territory
  | read o next => o ∈ territory ∧ ∀ x, (next x).Within territory
  | write o _ next => o ∈ territory ∧ next.Within territory

/-- Code that holds the mutexes of `held`. -/
def Guarded (fresh held : List Obj) : Code Obj V R → Prop
  | ret _ => held = []
  | lock .. => False
  | unlock objs next => objs = held ∧ next.Guarded fresh []
  | read o next => (o ∈ held ∨ o ∈ fresh) ∧ ∀ x, (next x).Guarded fresh held
  | write o _ next => (o ∈ held ∨ o ∈ fresh) ∧ next.Guarded fresh held

/-- Code that holds no mutex and may lock those of `uses`. -/
def Disciplined (fresh uses : List Obj) : Code Obj V R → Prop
  | ret _ => True
  | lock objs next => objs.Nodup ∧ (∀ o ∈ objs, o ∈ uses ∨ o ∈ fresh) ∧ next.Guarded fresh objs
  | unlock .. => False
  | read o next => o ∈ fresh ∧ ∀ x, (next x).Disciplined fresh uses
  | write o _ next => o ∈ fresh ∧ next.Disciplined fresh uses

variable {fresh held uses : List Obj} {territory larger : Set Obj} {code : Code Obj V R}

theorem Within.mono (hwithin : code.Within territory) (hsubset : territory ⊆ larger) :
    code.Within larger := by
  induction code with
  | ret r => trivial
  | lock objs next ih | unlock objs next ih => exact ih hwithin
  | read o next ih => exact ⟨hsubset hwithin.1, fun x => ih x (hwithin.2 x)⟩
  | write o x next ih => exact ⟨hsubset hwithin.1, ih hwithin.2⟩

theorem Guarded.within (hguarded : code.Guarded fresh held) :
    code.Within {o | o ∈ held ∨ o ∈ fresh} := by
  induction code generalizing held with
  | ret r => trivial
  | lock objs next => exact hguarded.elim
  | unlock objs next ih =>
      apply (ih hguarded.2).mono
      intro o ho
      exact .inr (ho.resolve_left List.not_mem_nil)
  | read o next ih => exact ⟨hguarded.1, fun x => ih x (hguarded.2 x)⟩
  | write o x next ih => exact ⟨hguarded.1, ih hguarded.2⟩

variable [DecidableEq Obj]

def run : Code Obj V R → (Obj → V) → R × (Obj → V)
  | ret r, values => (r, values)
  | lock _ next, values | unlock _ next, values => next.run values
  | read o next, values => (next (values o)).run values
  | write o x next, values => next.run (Function.update values o x)

@[simp] theorem run_ret (r : R) (values : Obj → V) : (ret r).run values = (r, values) := rfl

@[simp] theorem run_lock (objs : List Obj) (next : Code Obj V R) (values : Obj → V) :
    (lock objs next).run values = next.run values := rfl

@[simp] theorem run_read (o : Obj) (next : V → Code Obj V R) (values : Obj → V) :
    (read o next).run values = (next (values o)).run values := rfl

@[simp] theorem run_write (o : Obj) (x : V) (next : Code Obj V R) (values : Obj → V) :
    (write o x next).run values = next.run (Function.update values o x) := rfl

theorem Within.run_of_notMem (hwithin : code.Within territory) {o : Obj} (ho : o ∉ territory)
    (values : Obj → V) : (code.run values).2 o = values o := by
  induction code generalizing values with
  | ret r => rfl
  | lock objs next ih | unlock objs next ih => exact ih hwithin values
  | read target next ih => exact ih _ (hwithin.2 _) values
  | write target x next ih =>
      apply (ih hwithin.2 (Function.update values target x)).trans
      apply Function.update_of_ne
      intro heq
      exact ho (heq ▸ hwithin.1)

theorem Within.run_congr (hwithin : code.Within territory) {values values' : Obj → V}
    (hsame : territory.EqOn values values') : (code.run values).1 = (code.run values').1 ∧
      territory.EqOn (code.run values).2 (code.run values').2 := by
  induction code generalizing values values' with
  | ret r => exact ⟨rfl, hsame⟩
  | lock objs next ih | unlock objs next ih => exact ih hwithin hsame
  | read o next ih =>
      rw [run_read, run_read, hsame hwithin.1]
      exact ih _ (hwithin.2 _) hsame
  | write o x next ih =>
      apply ih hwithin.2
      intro other hother
      by_cases heq : other = o
      · subst heq
        rw [Function.update_self, Function.update_self]
      · rw [Function.update_of_ne heq, Function.update_of_ne heq]
        exact hsame hother

end Code

/-- The values of `inner` on the objects of `fresh`, and of `outer` elsewhere. -/
def overlay [DecidableEq Obj] (fresh : List Obj) (inner outer : Obj → V) (o : Obj) : V :=
  if o ∈ fresh then inner o else outer o

section Overlay

variable [DecidableEq Obj] {fresh : List Obj} {inner inner' outer : Obj → V} {o : Obj}

theorem overlay_of_mem (ho : o ∈ fresh) : overlay fresh inner outer o = inner o := if_pos ho

theorem overlay_of_notMem (ho : o ∉ fresh) : overlay fresh inner outer o = outer o := if_neg ho

theorem overlay_congr (hsame : ∀ o ∈ fresh, inner o = inner' o) :
    overlay fresh inner outer = overlay fresh inner' outer := by
  funext o
  by_cases ho : o ∈ fresh
  · rw [overlay_of_mem ho, overlay_of_mem ho, hsame o ho]
  · rw [overlay_of_notMem ho, overlay_of_notMem ho]

theorem overlay_eq_of_agree (hsame : ∀ o ∈ fresh, inner o = outer o) :
    overlay fresh inner outer = outer := by
  funext o
  by_cases ho : o ∈ fresh
  · rw [overlay_of_mem ho, hsame o ho]
  · rw [overlay_of_notMem ho]

theorem overlay_update (ho : o ∈ fresh) (x : V) : overlay fresh (Function.update inner o x) outer =
    Function.update (overlay fresh inner outer) o x := by
  funext other
  by_cases heq : other = o
  · subst heq
    rw [overlay_of_mem ho, Function.update_self, Function.update_self]
  · rw [Function.update_of_ne heq]
    unfold overlay
    rw [Function.update_of_ne heq]

end Overlay

end SpackPlayground.Library.LockedCode
