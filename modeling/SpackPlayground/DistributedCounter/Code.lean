import Mathlib.Algebra.BigOperators.Group.List.Basic
import Mathlib.Data.UInt
import SpackPlayground.Library.Transition

/-! `pmem_distributed_counter` on its pool file, with restarts. A transaction is one
step when it commits; the counter that it increments was read in a step before. -/
namespace SpackPlayground.DistributedCounter

open Library.Transition

inductive Event where
  /-- The counters stored in the previous run are printed. -/
  | printed (counters : List UInt64)
  | cleared
  | committed
  | printedSum (nthreads sum : UInt64)

/-- Where a worker stands. `entry` is the position of its `tls_entry`. -/
inductive Worker where
  /-- Before `counters.local()`. -/
  | started
  /-- At the head of the loop over `j`. -/
  | looping (entry j : Nat)
  /-- In the transaction, with the value it has read. -/
  | incrementing (entry j : Nat) (counter : UInt64)
  | finished

def Worker.entry : Worker → Option Nat
  | .looping entry _ | .incrementing entry .. => some entry
  | .started | .finished => none

def increments : Nat := 1000

inductive Label where
  /-- `counters.local()` returns this entry. -/
  | localEntry (entry : Nat)
  | read
  | commit
  | leave

/-- The entries up to `entry` exist; new ones are zero. -/
def grow (counters : List UInt64) (entry : Nat) : List UInt64 :=
  counters ++ List.replicate (entry + 1 - counters.length) 0

/-- One step of a worker while other live workers have the entries `taken`. -/
def work (counters : List UInt64) (taken : List Nat) (worker : Worker) (label : Label) :
    Option (List UInt64 × Worker × List Event) :=
  match worker, label with
  | .started, .localEntry entry =>
      if entry ∈ taken then none else some (grow counters entry, .looping entry 0, [])
  | .looping entry j, .read =>
      if j < increments then
        counters[entry]?.map fun counter => (counters, .incrementing entry j counter, [])
      else none
  | .incrementing entry j counter, .commit =>
      some (counters.set entry (counter + 1), .looping entry (j + 1), [.committed])
  | .looping _ j, .leave => if j < increments then none else some (counters, .finished, [])
  | _, _ => none

inductive Process where
  | down
  /-- Before the stored counters are printed. -/
  | opened (nthreads : UInt64)
  /-- Before `counters.clear()`. -/
  | printed (nthreads : UInt64)
  /-- Creating the workers, then joining them; the first `joined` are joined. -/
  | running (nthreads : UInt64) (workers : List Worker) (joined : Nat)
  /-- Before the pool is closed. -/
  | closing

/-- The entries of `Root::counters` in the order of iteration, and the process. No
step reads `log`. -/
structure State where
  counters : List UInt64
  process : Process
  log : List Event

inductive Action where
  | openPool (nthreads : UInt64)
  | printStored
  | clear
  | createWorker
  | work (i : Nat) (label : Label)
  | join
  | printSum
  | closePool
  /-- The process is killed, or an exception ends it. -/
  | crash

def State.record (s : State) (events : List Event) : State := { s with log := s.log ++ events }

def runWorker (s : State) (nthreads : UInt64) (workers : List Worker) (joined i : Nat)
    (label : Label) : Option State := do
  let worker ← workers[i]?
  let (counters, worker, events) ← work s.counters (workers.filterMap Worker.entry) worker label
  pure { counters := counters
         process := .running nthreads (workers.set i worker) joined
         log := s.log ++ events }

def step (s : State) (action : Action) : Option State :=
  match s.process, action with
  | .down, .openPool nthreads => some { s with process := .opened nthreads }
  | .opened nthreads, .printStored =>
      some ({ s with process := .printed nthreads }.record [.printed s.counters])
  | .printed nthreads, .clear =>
      some ({ s with counters := [], process := .running nthreads [] 0 }.record [.cleared])
  | .running nthreads workers joined, .createWorker =>
      if workers.length < nthreads.toNat then
        some { s with process := .running nthreads (workers ++ [.started]) joined }
      else none
  | .running nthreads workers joined, .work i label => runWorker s nthreads workers joined i label
  | .running nthreads workers joined, .join =>
      match workers[joined]? with
      | some .finished =>
          if workers.length < nthreads.toNat then none
          else some { s with process := .running nthreads workers (joined + 1) }
      | _ => none
  | .running nthreads workers joined, .printSum =>
      if workers.length < nthreads.toNat ∨ joined < workers.length then none
      else some ({ s with process := .closing }.record [.printedSum nthreads s.counters.sum])
  | .closing, .closePool => some { s with process := .down }
  | _, .crash => some { s with process := .down }
  | _, _ => none

def machine : System State Action where
  init s := s = ⟨[], .down, []⟩
  step s action s' := step s action = some s'

end SpackPlayground.DistributedCounter
