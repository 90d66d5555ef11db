import SpackPlayground.Library.Mealy
import SpackPlayground.Library.Transition
import SpackPlayground.LinkedQueue.Shape

/-! The persistent queue, whose transactions may be rolled back, next to a
volatile queue that gets the operations that were not. -/
namespace SpackPlayground.LinkedQueue

open Library.LinkedChain Library.Mealy Library.Transition

inductive Request (Value : Type) where
  | push (value : Value)
  | pop

abbrev Answer (Value : Type) := Except Failure (Option Value)

def fifo {Value : Type} (contents : List Value) : Request Value → List Value × Answer Value
  | .push value => (contents ++ [value], .ok none)
  | .pop =>
      match contents with
      | [] => ([], .error .outOfRange)
      | value :: rest => (rest, .ok (some value))

structure Entry (Value : Type) where
  request : Request Value
  persistent : Answer Value
  volatile : Answer Value

structure State (Value : Type) where
  persistent : Queue Value
  volatile : Queue Value
  log : List (Entry Value)

/-- An action with what the allocators return, and how the transaction ends. -/
inductive Action (Value : Type) where
  | push (value : Value) (persistentNode volatileNode : Addr) (commits : Bool)
  | pop (commits : Bool)

variable {Value : Type}

/-- `volatile` is what the volatile queue does when the persistent one is done. -/
def State.record (s : State Value) (request : Request Value)
    (persistent volatile : Answer Value × Queue Value) : State Value :=
  match persistent.1 with
  | .error .rolledBack => { s with persistent := persistent.2 }
  | _ =>
      { persistent := persistent.2
        volatile := volatile.2
        log := s.log ++ [⟨request, persistent.1, volatile.1⟩] }

/-- An allocator never returns a live node. -/
def step (s : State Value) : Action Value → Option (State Value)
  | .push value persistentNode volatileNode commits =>
      if persistentNode ∈ s.persistent.heap ∨ volatileNode ∈ s.volatile.heap then none
      else
        let persistent := PersistentQueue.push value persistentNode commits s.persistent
        let volatile := VolatileQueue.push value volatileNode s.volatile
        some (s.record (.push value) (persistent.1.map fun _ => none, persistent.2)
          (volatile.1.map fun _ => none, volatile.2))
  | .pop commits =>
      let persistent := PersistentQueue.pop commits s.persistent
      let volatile := VolatileQueue.pop s.volatile
      some (s.record .pop (persistent.1.map some, persistent.2) (volatile.1.map some, volatile.2))

def empty : Queue Value := ⟨∅, none, none⟩

def machine (Value : Type) : System (State Value) (Action Value) where
  init s := s = ⟨empty, empty, []⟩
  step s action s' := step s action = some s'

/-- The list queue after the requests of a log, with its answers. -/
def expected (log : List (Entry Value)) : List Value × List (Answer Value) :=
  run fifo [] (log.map Entry.request)

theorem expected_append_singleton (log : List (Entry Value)) (entry : Entry Value) :
    expected (log ++ [entry]) = ((fifo (expected log).1 entry.request).1,
      (expected log).2 ++ [(fifo (expected log).1 entry.request).2]) := by
  unfold expected
  rw [List.map_append, List.map_singleton]
  apply Prod.ext
  · exact run_append_singleton ..
  · exact run_append_singleton_answers ..

structure Inv (s : State Value) : Prop where
  persistent : Contains s.persistent (expected s.log).1
  volatile : Contains s.volatile (expected s.log).1
  persistentAnswers : s.log.map Entry.persistent = (expected s.log).2
  volatileAnswers : s.log.map Entry.volatile = (expected s.log).2

section Steps

variable {s s' : State Value} {commits : Bool}

theorem Inv.recorded (hinv : Inv s) {request : Request Value} {values : List Value}
    {answer : Answer Value} {persistent volatile : Queue Value}
    (hfifo : fifo (expected s.log).1 request = (values, answer))
    (hpersistent : Contains persistent values) (hvolatile : Contains volatile values) :
    Inv ⟨persistent, volatile, s.log ++ [⟨request, answer, answer⟩]⟩ where
  persistent := by rwa [expected_append_singleton, hfifo]
  volatile := by rwa [expected_append_singleton, hfifo]
  persistentAnswers := by
    rw [expected_append_singleton, List.map_append, hinv.persistentAnswers, hfifo]
    rfl
  volatileAnswers := by
    rw [expected_append_singleton, List.map_append, hinv.volatileAnswers, hfifo]
    rfl

theorem Inv.push (hinv : Inv s) {value : Value} {persistentNode volatileNode : Addr}
    (hstep : step s (.push value persistentNode volatileNode commits) = some s') : Inv s' := by
  simp only [step] at hstep
  by_cases hlive : persistentNode ∈ s.persistent.heap ∨ volatileNode ∈ s.volatile.heap
  · rw [if_pos hlive] at hstep
    cases hstep
  · rw [if_neg hlive] at hstep
    push Not at hlive
    obtain ⟨persistent, hpush, hpersistent⟩ := hinv.persistent.push hlive.1 value
    obtain ⟨volatile, hvolatilePush, hvolatile⟩ := hinv.volatile.push hlive.2 value
    unfold PersistentQueue.push VolatileQueue.push at hstep
    rw [transaction_of_ok hpush, hvolatilePush] at hstep
    cases hstep
    cases commits with
    | false => exact ⟨hinv.persistent, hinv.volatile, hinv.persistentAnswers, hinv.volatileAnswers⟩
    | true => exact hinv.recorded rfl hpersistent hvolatile

theorem Inv.pop (hinv : Inv s) (hstep : step s (.pop commits) = some s') : Inv s' := by
  have hpersistent := hinv.persistent
  have hvolatile := hinv.volatile
  simp only [step, PersistentQueue.pop, VolatileQueue.pop] at hstep
  cases hcontents : (expected s.log).1 with
  | nil =>
      rw [hcontents] at hpersistent hvolatile
      rw [transaction_of_error hpersistent.pop_nil, hvolatile.pop_nil] at hstep
      cases hstep
      have hfifo : fifo (expected s.log).1 .pop = ([], .error .outOfRange) := by
        rw [hcontents]
        rfl
      exact hinv.recorded hfifo hpersistent hvolatile
  | cons value rest =>
      rw [hcontents] at hpersistent hvolatile
      obtain ⟨persistent, hpop, hpersistent⟩ := hpersistent.pop_cons
      obtain ⟨volatile, hvolatilePop, hvolatile⟩ := hvolatile.pop_cons
      rw [transaction_of_ok hpop, hvolatilePop] at hstep
      cases hstep
      cases commits with
      | false =>
          exact ⟨hinv.persistent, hinv.volatile, hinv.persistentAnswers, hinv.volatileAnswers⟩
      | true =>
          apply hinv.recorded _ hpersistent hvolatile
          rw [hcontents]
          rfl

end Steps

theorem inv_of_reachable {s : State Value} (hs : (machine Value).Reachable s) : Inv s := by
  apply hs.invariant (motive := Inv)
  · intro s hinit
    subst hinit
    exact ⟨⟨[], shape_empty, rfl⟩, ⟨[], shape_empty, rfl⟩, rfl, rfl⟩
  · intro s action s' _ hinv hstep
    cases action with
    | push value persistentNode volatileNode commits => exact hinv.push hstep
    | pop commits => exact hinv.pop hstep

/-- The chain from `head` is finite, has every live node once, and ends in `tail`. -/
structure WellFormed (q : Queue Value) : Prop where
  headTail : q.head = none ↔ q.tail = none
  chain : ∃ nodes : List Addr, Chain (link q) q.head nodes ∧ nodes.Nodup ∧
    nodes.getLast? = q.tail ∧ ∀ addr, addr ∈ q.heap ↔ addr ∈ nodes

theorem Contains.wellFormed {q : Queue Value} {values : List Value}
    (hcontains : Contains q values) : WellFormed q := by
  obtain ⟨nodes, hshape, _⟩ := hcontains
  constructor
  · rw [hshape.tail, hshape.chain.start_eq_head?]
    simp
  · exact ⟨_, hshape.chain, hshape.chain.nodup, hshape.tail.symm, hshape.live⟩

/-- Both queues are the same first-in-first-out list. -/
theorem same_fifo (s : State Value) (hs : (machine Value).Reachable s) :
    s.log.map Entry.persistent = (expected s.log).2 ∧
      s.log.map Entry.volatile = (expected s.log).2 ∧
      WellFormed s.persistent ∧ WellFormed s.volatile ∧
      ((expected s.log).1 = [] →
        (∀ commits, PersistentQueue.pop commits s.persistent = (.error .outOfRange, s.persistent)) ∧
        VolatileQueue.pop s.volatile = (.error .outOfRange, s.volatile)) ∧
      ((expected s.log).1 ≠ [] → ∃ value,
        (PersistentQueue.pop true s.persistent).1 = .ok value ∧
        (VolatileQueue.pop s.volatile).1 = .ok value) := by
  have hinv := inv_of_reachable hs
  have hpersistent := hinv.persistent
  have hvolatile := hinv.volatile
  refine ⟨hinv.persistentAnswers, hinv.volatileAnswers, hpersistent.wellFormed,
    hvolatile.wellFormed, ?_, ?_⟩
  · intro hempty
    rw [hempty] at hpersistent hvolatile
    exact ⟨fun commits => transaction_of_error hpersistent.pop_nil commits, hvolatile.pop_nil⟩
  · intro hne
    obtain ⟨value, rest, hcontents⟩ := List.exists_cons_of_ne_nil hne
    rw [hcontents] at hpersistent hvolatile
    obtain ⟨persistent, hpop, _⟩ := hpersistent.pop_cons
    obtain ⟨volatile, hvolatilePop, _⟩ := hvolatile.pop_cons
    apply Exists.intro value
    unfold PersistentQueue.pop VolatileQueue.pop
    rw [transaction_of_ok hpop, hvolatilePop]
    exact ⟨rfl, rfl⟩

theorem same_fifo_rolled_back : ∃ s, (machine Nat).Reachable s ∧
    s.log.map Entry.request = [.push 10, .pop, .pop] ∧
    s.log.map Entry.persistent = [.ok none, .ok (some 10), .error .outOfRange] ∧
    s.log.map Entry.persistent = (expected s.log).2 ∧ WellFormed s.persistent := by
  obtain ⟨s, hexecute, hrequests, hanswers⟩ : ∃ s,
      System.execute step ⟨empty, empty, []⟩
        [.push 20 1 5 false, .push 10 2 5 true, .pop false, .pop true, .pop true] = some s ∧
      s.log.map Entry.request = [.push 10, .pop, .pop] ∧
      s.log.map Entry.persistent = [.ok none, .ok (some 10), .error .outOfRange] :=
    ⟨_, rfl, rfl, rfl⟩
  have hreachable : (machine Nat).Reachable s :=
    ⟨_, _, rfl, System.run_of_execute (fun _ _ _ hstep => hstep) hexecute⟩
  have hfifo := same_fifo s hreachable
  exact ⟨s, hreachable, hrequests, hanswers, hfifo.1, hfifo.2.2.1⟩

end SpackPlayground.LinkedQueue
