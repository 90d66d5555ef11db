import SpackPlayground.Library.Tally
import SpackPlayground.Library.Transition

/-! `ppm_ch14_2_counter_fixed_but_still_buggy`: the workers increment one persistent
counter, each in a transaction that unlocks the mutex before it commits. -/
namespace SpackPlayground.TransactionCounter

open Library.Tally Library.Transition

/-- Where a worker stands in `increment`. `old` is the counter in the undo log of
its transaction. -/
inductive Worker where
  | started
  /-- In the transaction, before `mtx` is locked. -/
  | began
  /-- Before `counter.get_rw()`. -/
  | locked
  | snapshotted (old : Int32)
  | loaded (old value : Int32)
  /-- Before the destructor of `lock`. -/
  | stored (old : Int32)
  /-- Before the transaction commits. -/
  | unlocked (old : Int32)
  | finished
  deriving DecidableEq

def Worker.undo : Worker → Option Int32
  | snapshotted old | loaded old _ | stored old | unlocked old => some old
  | started | began | locked | finished => none

/-- The pool and the process that has it open; `start` is the counter that the
process has found. No step reads `start`. -/
structure State (n : Nat) where
  counter : Int32
  mtx : Option (Fin n)
  workers : Fin n → Worker
  start : Int32

inductive Action (n : Nat) where
  | begin (w : Fin n)
  | lock (w : Fin n)
  | snapshot (w : Fin n)
  | load (w : Fin n)
  | store (w : Fin n)
  | unlock (w : Fin n)
  | commit (w : Fin n)
  /-- The process is killed and started again. The next `open` rolls the
  transactions back that were not committed, lane by lane. -/
  | crash (lanes : List (Fin n))
  /-- The process has joined its workers, and is started again. -/
  | reopen

variable {n : Nat}

def State.move (s : State n) (w : Fin n) (worker : Worker) : State n :=
  { s with workers := Function.update s.workers w worker }

def State.recovered (s : State n) (lanes : List (Fin n)) : Int32 :=
  lanes.foldl (fun counter w => (s.workers w).undo.getD counter) s.counter

def State.Lanes (s : State n) (lanes : List (Fin n)) : Prop :=
  lanes.Nodup ∧ ∀ w, w ∈ lanes ↔ (s.workers w).undo.isSome

instance (s : State n) (lanes : List (Fin n)) : Decidable (s.Lanes lanes) :=
  inferInstanceAs (Decidable (_ ∧ _))

def fresh (n : Nat) (counter : Int32) : State n := ⟨counter, none, fun _ => .started, counter⟩

/-- No step is defined where `counter.get_rw() += 1` overflows. -/
def step (s : State n) : Action n → Option (State n)
  | .begin w =>
      match s.workers w with
      | .started => some (s.move w .began)
      | _ => none
  | .lock w =>
      match s.workers w with
      | .began => if s.mtx = none then some { s.move w .locked with mtx := some w } else none
      | _ => none
  | .snapshot w =>
      match s.workers w with
      | .locked => some (s.move w (.snapshotted s.counter))
      | _ => none
  | .load w =>
      match s.workers w with
      | .snapshotted old => some (s.move w (.loaded old s.counter))
      | _ => none
  | .store w =>
      match s.workers w with
      | .loaded old value =>
          if value < Int32.maxValue then
            some { s.move w (.stored old) with counter := value + 1 }
          else none
      | _ => none
  | .unlock w =>
      match s.workers w with
      | .stored old => some { s.move w (.unlocked old) with mtx := none }
      | _ => none
  | .commit w =>
      match s.workers w with
      | .unlocked _ => some (s.move w .finished)
      | _ => none
  | .crash lanes => if s.Lanes lanes then some (fresh n (s.recovered lanes)) else none
  | .reopen => if ∀ w, s.workers w = .finished then some (fresh n s.counter) else none

inductive Moves (s : State n) : Action n → State n → Prop where
  | begin (w : Fin n) : s.workers w = .started → Moves s (.begin w) (s.move w .began)
  | lock (w : Fin n) : s.workers w = .began → s.mtx = none →
      Moves s (.lock w) { s.move w .locked with mtx := some w }
  | snapshot (w : Fin n) : s.workers w = .locked →
      Moves s (.snapshot w) (s.move w (.snapshotted s.counter))
  | load (w : Fin n) (old : Int32) : s.workers w = .snapshotted old →
      Moves s (.load w) (s.move w (.loaded old s.counter))
  | store (w : Fin n) (old value : Int32) : s.workers w = .loaded old value →
      value < Int32.maxValue →
      Moves s (.store w) { s.move w (.stored old) with counter := value + 1 }
  | unlock (w : Fin n) (old : Int32) : s.workers w = .stored old →
      Moves s (.unlock w) { s.move w (.unlocked old) with mtx := none }
  | commit (w : Fin n) (old : Int32) : s.workers w = .unlocked old →
      Moves s (.commit w) (s.move w .finished)
  | crash (lanes : List (Fin n)) : s.Lanes lanes →
      Moves s (.crash lanes) (fresh n (s.recovered lanes))
  | reopen : (∀ w, s.workers w = .finished) → Moves s .reopen (fresh n s.counter)

theorem moves_of_step {s s' : State n} {action : Action n} (hstep : step s action = some s') :
    Moves s action s' := by
  cases action with
  | crash lanes =>
      obtain ⟨hlanes, heq⟩ := Option.ite_none_right_eq_some.mp hstep
      cases heq
      exact .crash lanes hlanes
  | reopen =>
      obtain ⟨hfinished, heq⟩ := Option.ite_none_right_eq_some.mp hstep
      cases heq
      exact .reopen hfinished
  | lock w =>
      simp only [step] at hstep
      split at hstep
      · rename_i hworker
        obtain ⟨hfree, heq⟩ := Option.ite_none_right_eq_some.mp hstep
        cases heq
        exact .lock w hworker hfree
      · cases hstep
  | store w =>
      simp only [step] at hstep
      split at hstep
      · rename_i old value hworker
        obtain ⟨hvalue, heq⟩ := Option.ite_none_right_eq_some.mp hstep
        cases heq
        exact .store w old value hworker hvalue
      · cases hstep
  | begin w | snapshot w | load w | unlock w | commit w =>
      simp only [step] at hstep
      split at hstep
      · cases hstep
        constructor
        assumption
      · cases hstep

/-- A process that opens the pool with any counter, and those after it. -/
def machine (n : Nat) : System (State n) (Action n) where
  init s := ∃ counter, s = fresh n counter
  step s action s' := step s action = some s'

end SpackPlayground.TransactionCounter
