import Mathlib.Data.Finmap
import SpackPlayground.Library.LinkedChain

/-! The linked queues of `ppm_ch8_6_volatile_queue` and
`ppm_ch8_7_persistent_queue`. Their bodies are the same; the persistent queue
runs each in a transaction. -/
namespace SpackPlayground.LinkedQueue

open Library.LinkedChain

abbrev Addr := Nat

structure Node (Value : Type*) where
  value : Value
  next : Option Addr

structure Queue (Value : Type*) where
  heap : Finmap fun _ : Addr => Node Value
  head : Option Addr
  tail : Option Addr

inductive Failure where
  /-- `std::out_of_range("no elements")`. -/
  | outOfRange
  /-- The transaction was aborted, or a crash cut it off. -/
  | rolledBack
  /-- A null or dangling pointer was followed, or a node deleted twice. -/
  | undefined
  deriving DecidableEq

/-- Code that may throw; what it has done before stays done. -/
abbrev Code (Value α : Type) := ExceptT Failure (StateM (Queue Value)) α

variable {Value : Type} {α : Type}

def deref (ptr : Option Addr) : Code Value (Addr × Node Value) := do
  match ptr with
  | none => throw .undefined
  | some addr =>
      match (← get).heap.lookup addr with
      | none => throw .undefined
      | some node => return (addr, node)

/-- `new` and `make_persistent`, with the two assignments behind them. -/
def create (node : Addr) (value : Value) : Code Value Unit :=
  modify fun q => { q with heap := q.heap.insert node ⟨value, none⟩ }

def setNext (ptr : Option Addr) (next : Option Addr) : Code Value Unit := do
  let (addr, node) ← deref ptr
  modify fun q => { q with heap := q.heap.insert addr { node with next := next } }

def destroy (ptr : Option Addr) : Code Value Unit := do
  let (addr, _) ← deref ptr
  modify fun q => { q with heap := q.heap.erase addr }

/-- The body of `push`; the allocator has found `node`. -/
def pushBody (value : Value) (node : Addr) : Code Value Unit := do
  create node value
  if (← get).head = none then
    modify fun q => { q with head := some node, tail := some node }
  else
    setNext (← get).tail (some node)
    modify fun q => { q with tail := some node }

def popBody : Code Value Value := do
  if (← get).head = none then
    throw .outOfRange
  let headPtr := (← get).head
  let (_, first) ← deref headPtr
  modify fun q => { q with head := first.next }
  destroy headPtr
  if (← get).head = none then
    modify fun q => { q with tail := none }
  return first.value

def transaction (body : Code Value α) (commits : Bool) : Code Value α := fun q =>
  match body q with
  | (.error failure, _) => (.error failure, q)
  | (.ok result, q') => if commits then (.ok result, q') else (.error .rolledBack, q)

def link (q : Queue Value) (addr : Addr) : Option (Option Addr) :=
  (q.heap.lookup addr).map Node.next

theorem bind_of_ok {β : Type} {x : Code Value α} {f : α → Code Value β} {q q' : Queue Value}
    {result : α} (hx : x q = (.ok result, q')) : (x >>= f) q = f result q' := by
  change (x q >>= fun result => ExceptT.bindCont f result.1 result.2) = _
  rw [hx]
  rfl

theorem deref_of_lookup {q : Queue Value} {addr : Addr} {node : Node Value}
    (hlookup : q.heap.lookup addr = some node) :
    deref (some addr) q = (.ok (addr, node), q) := by
  have hget : (get : Code Value (Queue Value)) q = (.ok q, q) := rfl
  apply (bind_of_ok hget).trans
  rw [hlookup]
  rfl

theorem setNext_of_lookup {q : Queue Value} {addr : Addr} {node : Node Value}
    (hlookup : q.heap.lookup addr = some node) (next : Option Addr) :
    setNext (some addr) next q =
      (.ok (), { q with heap := q.heap.insert addr { node with next := next } }) := by
  apply (bind_of_ok (deref_of_lookup hlookup)).trans
  rfl

private theorem destroy_of_lookup {q : Queue Value} {addr : Addr} {node : Node Value}
    (hlookup : q.heap.lookup addr = some node) :
    destroy (some addr) q = (.ok (), { q with heap := q.heap.erase addr }) := by
  apply (bind_of_ok (deref_of_lookup hlookup)).trans
  rfl

theorem pushBody_of_empty (heap : Finmap fun _ : Addr => Node Value) (tail : Option Addr)
    (value : Value) (node : Addr) : pushBody value node ⟨heap, none, tail⟩ =
      (.ok (), ⟨heap.insert node ⟨value, none⟩, some node, some node⟩) :=
  rfl

theorem pushBody_of_lookup {heap : Finmap fun _ : Addr => Node Value} {head last node : Addr}
    {lastNode : Node Value} {value : Value}
    (hlookup : (heap.insert node ⟨value, none⟩).lookup last = some lastNode) :
    pushBody value node ⟨heap, some head, some last⟩ =
      (.ok (), ⟨(heap.insert node ⟨value, none⟩).insert last { lastNode with next := some node },
        some head, some node⟩) := by
  have hset := setNext_of_lookup (q := ⟨heap.insert node ⟨value, none⟩, some head, some last⟩)
    hlookup (some node)
  exact bind_of_ok hset

theorem popBody_of_empty (heap : Finmap fun _ : Addr => Node Value) (tail : Option Addr) :
    popBody ⟨heap, none, tail⟩ = (.error .outOfRange, ⟨heap, none, tail⟩) :=
  rfl

theorem popBody_of_lookup {heap : Finmap fun _ : Addr => Node Value} {head : Addr}
    {tail : Option Addr} {first : Node Value} (hlookup : heap.lookup head = some first) :
    popBody ⟨heap, some head, tail⟩ = (.ok first.value,
      ⟨heap.erase head, first.next, if first.next = none then none else tail⟩) := by
  have hderef := deref_of_lookup (q := ⟨heap, some head, tail⟩) hlookup
  have hdestroy := destroy_of_lookup (q := ⟨heap, first.next, tail⟩) hlookup
  apply (bind_of_ok hderef).trans
  apply (bind_of_ok hdestroy).trans
  cases first.next <;> rfl

theorem transaction_of_ok {body : Code Value α} {q q' : Queue Value} {result : α}
    (hbody : body q = (.ok result, q')) (commits : Bool) : transaction body commits q =
      if commits then (.ok result, q') else (.error .rolledBack, q) := by
  unfold transaction
  rw [hbody]

theorem transaction_of_error {body : Code Value α} {q q' : Queue Value} {failure : Failure}
    (hbody : body q = (.error failure, q')) (commits : Bool) :
    transaction body commits q = (.error failure, q) := by
  unfold transaction
  rw [hbody]

namespace VolatileQueue

def push (value : Value) (node : Addr) : Code Value Unit := pushBody value node

def pop : Code Value Value := popBody

end VolatileQueue

namespace PersistentQueue

def push (value : Value) (node : Addr) (commits : Bool) : Code Value Unit :=
  transaction (pushBody value node) commits

def pop (commits : Bool) : Code Value Value := transaction popBody commits

end PersistentQueue

end SpackPlayground.LinkedQueue
