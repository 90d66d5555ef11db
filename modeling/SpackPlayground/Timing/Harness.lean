import SpackPlayground.Psync.Barrier
import SpackPlayground.Timing.Workers

/-! The frame that the benchmarks put around their workers: `main` starts them,
and three barriers separate preparation, setting the clock, work, and freezing
the clock. -/
namespace SpackPlayground.Timing.Harness

open Library.Transition Psync Workers

/-- `wait_for_ready`, `wait_for_timer` and `wait_for_finish`. -/
inductive Gate where
  | ready
  | timer
  | finish
  deriving DecidableEq

inductive Place where
  /-- `main` starts the workers, a worker fills its buffer. -/
  | preparing
  | entering (gate : Gate)
  /-- `main` sets `t0`. -/
  | setting
  /-- A worker runs its loops. -/
  | working
  /-- `main` sets `t1` and joins the workers. -/
  | closing
  | ended
  deriving DecidableEq

def Gate.rank : Gate → Nat
  | .ready => 1
  | .timer => 3
  | .finish => 5

def Place.rank : Place → Nat
  | .preparing => 0
  | .entering gate => gate.rank
  | .setting => 2
  | .working => 4
  | .closing => 6
  | .ended => 7

def Gate.after : Gate → Place
  | .ready => .setting
  | .timer => .working
  | .finish => .closing

/-- `main` is `none`. -/
abbrev Thread (n : Nat) := Option (Fin n)

inductive Event (n : Nat) (Label : Type) where
  | setT0
  | work (i : Fin n) (label : Label)
  | setT1

inductive Action (n : Nat) (Label : Type) where
  | spawn
  | arrive (a : Thread n)
  | enter (gate : Gate) (a : Thread n) (action : Barrier.Action)
  | setT0
  | work (i : Fin n) (label : Label)
  | freeze
  | exit (a : Thread n)

/-- A benchmark: `nthreads` workers, and how often `main` sets `t0` before it
enters `wait_for_timer` (the constructor of `ElapsedTime` does, and `reset`). -/
structure Benchmark (Shared Local Label : Type) where
  nthreads : UInt64
  program : Program nthreads.toNat Shared Local Label
  clockSets : Nat

variable {Shared Local Label : Type}

/-- `log` and `entries` record what has happened; no step reads them. -/
structure Config (n : Nat) (Shared Local Label : Type) where
  places : Thread n → Place
  gates : Gate → Barrier.State (Thread n)
  spawned : Nat
  clock : Nat
  frozen : Bool
  crew : Crew n Shared Local
  log : List (Event n Label)
  entries : Gate → List (Thread n)

abbrev Benchmark.Config (benchmark : Benchmark Shared Local Label) :=
  Harness.Config benchmark.nthreads.toNat Shared Local Label

variable {n : Nat}

def Config.move (c : Config n Shared Local Label) (a : Thread n) (place : Place) :
    Config n Shared Local Label :=
  { c with places := Function.update c.places a place }

/-- A worker exists once `main` has started it; `main` goes on when all do. -/
def Config.Started (c : Config n Shared Local Label) : Thread n → Prop
  | none => c.spawned = n
  | some i => i.val < c.spawned

instance (c : Config n Shared Local Label) (a : Thread n) : Decidable (c.Started a) := by
  cases a <;> unfold Config.Started <;> infer_instance

def Config.Joined (c : Config n Shared Local Label) : Thread n → Prop
  | none => c.frozen = true ∧ ∀ i, c.places (some i) = .ended
  | some _ => True

instance (c : Config n Shared Local Label) (a : Thread n) : Decidable (c.Joined a) := by
  cases a <;> unfold Config.Joined <;> infer_instance

def Benchmark.Idle (benchmark : Benchmark Shared Local Label) (c : benchmark.Config) :
    Thread benchmark.nthreads.toNat → Prop
  | none => c.places none = .setting → c.clock = benchmark.clockSets
  | some i => c.places (some i) = .working → benchmark.program.ended (c.crew.locals i) = true

instance (benchmark : Benchmark Shared Local Label) (c : benchmark.Config)
    (a : Thread benchmark.nthreads.toNat) : Decidable (benchmark.Idle c a) := by
  cases a <;> unfold Benchmark.Idle <;> infer_instance

def Place.gate : Place → Option Gate
  | .preparing => some .ready
  | .setting => some .timer
  | .working => some .finish
  | _ => none

/-- One step of a call of `enter`. A call that returns goes on behind the gate. -/
def Config.entered (c : Config n Shared Local Label) (gate : Gate) (a : Thread n)
    (action : Barrier.Action) (barrier : Barrier.State (Thread n)) :
    Config n Shared Local Label :=
  { c with
    gates := Function.update c.gates gate barrier
    places := if barrier.pcs a = .returned then Function.update c.places a gate.after
      else c.places
    entries := if action = .lock then
        Function.update c.entries gate (c.entries gate ++ [a])
      else c.entries }

section Entered

variable {c : Config n Shared Local Label} {gate other : Gate} {a b : Thread n}
  {action : Barrier.Action} {barrier : Barrier.State (Thread n)}

theorem Config.gates_entered_self : (c.entered gate a action barrier).gates gate = barrier :=
  Function.update_self ..

theorem Config.gates_entered_of_ne (hother : other ≠ gate) :
    (c.entered gate a action barrier).gates other = c.gates other :=
  Function.update_of_ne hother ..

theorem Config.places_entered_self (hplace : c.places a = .entering gate) :
    (c.entered gate a action barrier).places a =
      if barrier.pcs a = .returned then gate.after else .entering gate := by
  unfold Config.entered
  split
  · exact Function.update_self ..
  · exact hplace

theorem Config.places_entered_of_ne (hb : b ≠ a) :
    (c.entered gate a action barrier).places b = c.places b := by
  unfold Config.entered
  split
  · exact Function.update_of_ne hb ..
  · rfl

theorem Config.entries_entered_of_lock :
    (c.entered gate a .lock barrier).entries gate = c.entries gate ++ [a] :=
  Function.update_self ..

theorem Config.entries_entered_of_ne_lock (hlock : action ≠ .lock) :
    (c.entered gate a action barrier).entries = c.entries :=
  if_neg hlock

theorem Config.entries_entered_of_ne (hother : other ≠ gate) :
    (c.entered gate a action barrier).entries other = c.entries other := by
  by_cases hlock : action = .lock
  · subst hlock
    exact Function.update_of_ne hother ..
  · rw [Config.entries_entered_of_ne_lock hlock]

end Entered

def Benchmark.step (benchmark : Benchmark Shared Local Label) (c : benchmark.Config) :
    Action benchmark.nthreads.toNat Label → Option benchmark.Config
  | .spawn =>
      if c.places none = .preparing ∧ c.spawned < benchmark.nthreads.toNat then
        some { c with spawned := c.spawned + 1 }
      else none
  | .arrive a =>
      if c.Started a ∧ benchmark.Idle c a then
        (c.places a).gate.map fun gate => c.move a (.entering gate)
      else none
  | .enter gate a action =>
      if c.places a = .entering gate then
        (Barrier.step (c.gates gate) a action).map (c.entered gate a action)
      else none
  | .setT0 =>
      if c.places none = .setting ∧ c.clock < benchmark.clockSets then
        some { c with clock := c.clock + 1, log := c.log ++ [.setT0] }
      else none
  | .work i label =>
      if c.places (some i) = .working then
        (c.crew.work benchmark.program i label).map fun crew =>
          { c with crew := crew, log := c.log ++ [.work i label] }
      else none
  | .freeze =>
      if c.places none = .closing ∧ c.frozen = false then
        some { c with frozen := true, log := c.log ++ [.setT1] }
      else none
  | .exit a =>
      if c.places a = .closing ∧ c.Joined a then some (c.move a .ended) else none

/-- `main` before it has started a worker. The barriers are constructed for
`nthreads + 1` callers. -/
structure Benchmark.Initial (benchmark : Benchmark Shared Local Label)
    (c : benchmark.Config) : Prop where
  places : ∀ a, c.places a = .preparing
  gates : ∀ gate, c.gates gate = Barrier.construct (benchmark.nthreads + 1)
  spawned : c.spawned = 0
  clock : c.clock = 0
  frozen : c.frozen = false
  shared : benchmark.program.init c.crew.shared
  locals : c.crew.locals = benchmark.program.start
  log : c.log = []
  entries : ∀ gate, c.entries gate = []

def Benchmark.construct (benchmark : Benchmark Shared Local Label) (shared : Shared) :
    benchmark.Config where
  places _ := .preparing
  gates _ := Barrier.construct (benchmark.nthreads + 1)
  spawned := 0
  clock := 0
  frozen := false
  crew := ⟨shared, benchmark.program.start⟩
  log := []
  entries _ := []

private theorem initial_construct {benchmark : Benchmark Shared Local Label} {shared : Shared}
    (hshared : benchmark.program.init shared) : benchmark.Initial (benchmark.construct shared) :=
  ⟨fun _ => rfl, fun _ => rfl, rfl, rfl, rfl, hshared, rfl, rfl, fun _ => rfl⟩

def Benchmark.machine (benchmark : Benchmark Shared Local Label) :
    System benchmark.Config (Action benchmark.nthreads.toNat Label) where
  init := benchmark.Initial
  step c action c' := benchmark.step c action = some c'

theorem reachable_of_execute {benchmark : Benchmark Shared Local Label} {shared : Shared}
    (hshared : benchmark.program.init shared)
    {actions : List (Action benchmark.nthreads.toNat Label)} {c : benchmark.Config}
    (hexecute : System.execute benchmark.step (benchmark.construct shared) actions = some c) :
    benchmark.machine.Reachable c :=
  ⟨_, actions, initial_construct hshared, System.run_of_execute (fun _ _ _ hstep => hstep) hexecute⟩

end SpackPlayground.Timing.Harness
