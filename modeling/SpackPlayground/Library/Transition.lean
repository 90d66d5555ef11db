import Mathlib.Data.List.Basic
import Mathlib.Data.List.Induction

/-! Labelled transition systems: finite runs, reachable states, the invariant
rule, restriction to the runs whose steps all meet a condition, and forward
simulation. Nothing here mentions a particular program. -/
namespace SpackPlayground.Library.Transition

structure System (State : Type*) (Action : Type*) where
  init : State → Prop
  step : State → Action → State → Prop

namespace System

variable {State Action : Type*} {system : System State Action}

inductive Run (system : System State Action) : State → List Action → State → Prop where
  | nil (s : State) : Run system s [] s
  | cons {s t u : State} {action : Action} {actions : List Action} :
      system.step s action t → Run system t actions u → Run system s (action :: actions) u

def Reachable (system : System State Action) (s : State) : Prop :=
  ∃ start actions, system.init start ∧ system.Run start actions s

theorem Run.single {s t : State} {action : Action} (hstep : system.step s action t) :
    system.Run s [action] t :=
  .cons hstep (.nil t)

theorem Run.append {s t u : State} {first second : List Action}
    (hfirst : system.Run s first t) (hsecond : system.Run t second u) :
    system.Run s (first ++ second) u := by
  induction hfirst with
  | nil => exact hsecond
  | cons hstep _ ih => exact .cons hstep (ih hsecond)

theorem Run.deterministic
    (hdet : ∀ s action t u, system.step s action t → system.step s action u → t = u)
    {s t u : State} {actions : List Action} (ht : system.Run s actions t)
    (hu : system.Run s actions u) : t = u := by
  induction ht with
  | nil =>
      cases hu
      rfl
  | cons hstep _ ih =>
      cases hu with
      | cons hstep' hrest =>
          cases hdet _ _ _ _ hstep hstep'
          exact ih hrest

theorem reachable_init {s : State} (hinit : system.init s) : system.Reachable s :=
  ⟨s, [], hinit, .nil s⟩

theorem Reachable.run {s t : State} {actions : List Action}
    (hs : system.Reachable s) (hrun : system.Run s actions t) : system.Reachable t := by
  obtain ⟨start, before, hinit, hbefore⟩ := hs
  exact ⟨start, before ++ actions, hinit, hbefore.append hrun⟩

theorem Reachable.step {s t : State} {action : Action}
    (hs : system.Reachable s) (hstep : system.step s action t) : system.Reachable t :=
  hs.run (.single hstep)

/-- What every step keeps, every run keeps. The step may use that its source
is reachable, so invariants can be proved one on top of another. -/
theorem Run.preserves {motive : State → Prop}
    (hkeep : ∀ s action t, system.Reachable s → motive s → system.step s action t → motive t)
    {s t : State} {actions : List Action} (hs : system.Reachable s)
    (hrun : system.Run s actions t) (hmotive : motive s) : motive t := by
  induction hrun with
  | nil => exact hmotive
  | cons hstep _ ih => exact ih (hs.step hstep) (hkeep _ _ _ hs hmotive hstep)

theorem Reachable.invariant {motive : State → Prop}
    (hinit : ∀ s, system.init s → motive s)
    (hkeep : ∀ s action t, system.Reachable s → motive s → system.step s action t → motive t)
    {s : State} (hs : system.Reachable s) : motive s := by
  obtain ⟨start, actions, hstart, hrun⟩ := hs
  exact hrun.preserves hkeep (reachable_init hstart) (hinit start hstart)

def execute (next : State → Action → Option State) (s : State) : List Action → Option State
  | [] => some s
  | action :: actions => (next s action).bind fun t => execute next t actions

theorem run_of_execute {next : State → Action → Option State}
    (hnext : ∀ s action t, next s action = some t → system.step s action t) {s t : State}
    {actions : List Action} (hexecute : execute next s actions = some t) :
    system.Run s actions t := by
  induction actions generalizing s with
  | nil =>
      cases hexecute
      exact .nil _
  | cons action actions ih =>
      unfold execute at hexecute
      obtain ⟨u, hu, hrest⟩ := Option.bind_eq_some_iff.mp hexecute
      exact .cons (hnext s action u hu) (ih hrest)

theorem run_iff_execute {next : State → Action → Option State}
    (hnext : ∀ s action t, system.step s action t ↔ next s action = some t) {s t : State}
    {actions : List Action} : system.Run s actions t ↔ execute next s actions = some t := by
  constructor
  · intro hrun
    induction hrun with
    | nil => rfl
    | cons hstep _ ih => exact Option.bind_eq_some_iff.mpr ⟨_, (hnext _ _ _).mp hstep, ih⟩
  · exact run_of_execute fun s action t => (hnext s action t).mpr

/-- The same system, allowed to take only the steps that meet `allowed`. -/
def restrict (system : System State Action) (allowed : State → Action → Prop) :
    System State Action where
  init := system.init
  step s action t := allowed s action ∧ system.step s action t

variable {allowed : State → Action → Prop}

theorem Run.of_restrict {s t : State} {actions : List Action}
    (hrun : (system.restrict allowed).Run s actions t) : system.Run s actions t := by
  induction hrun with
  | nil => exact .nil _
  | cons hstep _ ih => exact .cons hstep.2 ih

theorem Reachable.of_restrict {s : State} (hs : (system.restrict allowed).Reachable s) :
    system.Reachable s := by
  obtain ⟨start, actions, hinit, hrun⟩ := hs
  exact ⟨start, actions, hinit, hrun.of_restrict⟩

theorem run_append_iff {s u : State} {first second : List Action} :
    system.Run s (first ++ second) u ↔ ∃ t, system.Run s first t ∧ system.Run t second u := by
  constructor
  · intro hrun
    induction first generalizing s with
    | nil => exact ⟨s, .nil s, hrun⟩
    | cons action first ih =>
        cases hrun with
        | cons hstep hrest =>
            obtain ⟨t, hfirst, hsecond⟩ := ih hrest
            exact ⟨t, .cons hstep hfirst, hsecond⟩
  · intro hboth
    obtain ⟨t, hfirst, hsecond⟩ := hboth
    exact hfirst.append hsecond

theorem run_singleton_iff {s t : State} {action : Action} :
    system.Run s [action] t ↔ system.step s action t := by
  constructor
  · intro hrun
    cases hrun with
    | cons hstep hnil =>
        cases hnil
        exact hstep
  · exact .single

/-- Where exactly the `allowed` steps keep `motive`, it holds all along a run exactly
when all its steps are `allowed`. -/
theorem throughout_iff {motive : State → Prop}
    (hkeep : ∀ s action t, system.Reachable s → motive s → system.step s action t →
      (motive t ↔ allowed s action))
    (hdet : ∀ s action t u, system.step s action t → system.step s action u → t = u)
    {start s : State} (hinit : system.init start) (hstart : motive start) {actions : List Action}
    (hrun : system.Run start actions s) :
    (∀ first t, first <+: actions → system.Run start first t → motive t) ↔
      ∀ first action t, first ++ [action] <+: actions → system.Run start first t →
        allowed t action := by
  constructor
  · intro hall first action t hprefix hfirst
    obtain ⟨rest, rfl⟩ := hprefix
    obtain ⟨u, hu, _⟩ := run_append_iff.mp hrun
    obtain ⟨t', ht', hstep⟩ := run_append_iff.mp hu
    rw [run_singleton_iff] at hstep
    have hbefore : motive t' := hall first t' ⟨[action] ++ rest, by simp⟩ ht'
    have hafter : motive u := hall (first ++ [action]) u ⟨rest, rfl⟩ hu
    have hsame : t = t' := hfirst.deterministic hdet ht'
    rw [hsame]
    exact (hkeep t' action u ⟨start, first, hinit, ht'⟩ hbefore hstep).mp hafter
  · intro hall first
    induction first using List.reverseRecOn with
    | nil =>
        intro t _ hnil
        cases hnil
        exact hstart
    | append_singleton first action ih =>
        intro u hprefix hu
        obtain ⟨t, ht, hstep⟩ := run_append_iff.mp hu
        rw [run_singleton_iff] at hstep
        have hbefore := ih t ((List.prefix_append first [action]).trans hprefix) ht
        exact (hkeep t action u ⟨start, first, hinit, ht⟩ hbefore hstep).mpr
          (hall first action t hprefix ht)

end System

variable {State Action Abstract Label : Type*}

/-- Every step of `concrete` from a reachable state is matched by a finite run
of `abstract`, which may be empty. -/
structure Simulation (concrete : System State Action) (abstract : System Abstract Label)
    (related : State → Abstract → Prop) : Prop where
  init : ∀ s, concrete.init s → ∃ x, abstract.init x ∧ related s x
  step : ∀ s action t x, concrete.Reachable s → related s x → concrete.step s action t →
    ∃ labels y, abstract.Run x labels y ∧ related t y

theorem Simulation.reachable {concrete : System State Action}
    {abstract : System Abstract Label} {related : State → Abstract → Prop}
    (simulation : Simulation concrete abstract related) {s : State}
    (hs : concrete.Reachable s) : ∃ x, abstract.Reachable x ∧ related s x := by
  apply hs.invariant (motive := fun s => ∃ x, abstract.Reachable x ∧ related s x)
  · intro s hinit
    obtain ⟨x, hx, hrelated⟩ := simulation.init s hinit
    exact ⟨x, System.reachable_init hx, hrelated⟩
  · rintro s action t hreach ⟨x, hx, hrelated⟩ hstep
    obtain ⟨labels, y, hrun, hy⟩ := simulation.step s action t x hreach hrelated hstep
    exact ⟨y, hx.run hrun, hy⟩

theorem System.Run.lockstep {concrete : System State Action} {abstract : System Abstract Action}
    (related : State → Abstract → Prop)
    (hkeep : ∀ s action t x, related s x → concrete.step s action t →
      ∃ y, abstract.step x action y ∧ related t y)
    {s t : State} {x : Abstract} {actions : List Action} (hrun : concrete.Run s actions t)
    (hrelated : related s x) : ∃ y, abstract.Run x actions y ∧ related t y := by
  induction hrun generalizing x with
  | nil => exact ⟨x, .nil x, hrelated⟩
  | cons hstep _ ih =>
      obtain ⟨y, hy, hrelated⟩ := hkeep _ _ _ x hrelated hstep
      obtain ⟨z, hrest, hz⟩ := ih hrelated
      exact ⟨z, .cons hy hrest, hz⟩

end SpackPlayground.Library.Transition
