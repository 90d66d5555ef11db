import Mathlib.Data.Finmap
import SpackPlayground.Library.Transition

/-! The loop of `pmemobj_atomic_ops` on its pool file, with restarts. What
libpmemobj decides (the address of a new object, whether an allocation fails or a
transaction commits) is an argument. -/
namespace SpackPlayground.AtomicOps

open Library.Transition

abbrev Addr := Nat

/-- `InlineWriteRequest` with the bytes behind it. -/
structure InlineWriteRequest where
  offset : Int64
  size : Nat
  bytes : List UInt8

inductive Slot where
  | ptr
  | ptr2
  | ptr3
  deriving DecidableEq

/-- The pool file, with a null pointer as `none`. -/
structure Pool where
  root : Slot → Option Addr
  heap : Finmap fun _ : Addr => InlineWriteRequest

def newPool : Pool := ⟨fun _ => none, ∅⟩

def create (data : List UInt8) (offset : Int64) : InlineWriteRequest :=
  ⟨offset, data.length, data⟩

inductive Xalloc where
  | allocated (addr : Addr)
  | failed

inductive TxOutcome where
  | commit
  | abort
  deriving DecidableEq

/-- `InlineWriteRequest::makePersistentAtomic` when `pmemobj_xalloc` succeeds. The
object that the pointer referred to stays. -/
def makePersistentAtomic (pool : Pool) (slot : Slot) (addr : Addr) (data : List UInt8)
    (offset : Int64) : Pool where
  root := Function.update pool.root slot (some addr)
  heap := pool.heap.insert addr (create data offset)

/-- `pmem::obj::delete_persistent`, which ignores a null pointer. `none` is a free of
what is not live. -/
def deletePersistent (heap : Finmap fun _ : Addr => InlineWriteRequest) :
    Option Addr → Option (Finmap fun _ : Addr => InlineWriteRequest)
  | none => some heap
  | some addr => if addr ∈ heap then some (heap.erase addr) else none

/-- The transaction at the end of the loop. It leaves the pointers as they are. -/
def deleteAll (pool : Pool) : Option Pool := do
  let heap ← deletePersistent pool.heap (pool.root .ptr)
  let heap ← deletePersistent heap (pool.root .ptr2)
  let heap ← deletePersistent heap (pool.root .ptr3)
  pure { pool with heap := heap }

/-- `randData` is the string that this run of the program writes. -/
inductive Process where
  | down
  /-- Before the allocation for `slot`. -/
  | allocating (slot : Slot) (randData : List UInt8)
  /-- Before the transaction. -/
  | deleting (randData : List UInt8)
  /-- Something was freed that was not live. -/
  | undefined

structure State where
  pool : Pool
  process : Process

inductive Action where
  /-- The program starts, and opens the pool or creates it. -/
  | start (randData : List UInt8)
  | xalloc (outcome : Xalloc)
  | transaction (outcome : TxOutcome)
  | crash

def afterAllocation (randData : List UInt8) : Slot → Process
  | .ptr => .allocating .ptr2 randData
  | .ptr2 => .allocating .ptr3 randData
  | .ptr3 => .deleting randData

def step (s : State) : Action → Option State
  | .start randData =>
      match s.process with
      | .down => some { s with process := .allocating .ptr randData }
      | _ => none
  | .xalloc outcome =>
      match s.process, outcome with
      | .allocating slot randData, .allocated addr =>
          if addr ∈ s.pool.heap then none
          else some
            { pool := makePersistentAtomic s.pool slot addr randData 0
              process := afterAllocation randData slot }
      -- `std::system_error` ends `main`
      | .allocating _ _, .failed => some { s with process := .down }
      | _, _ => none
  | .transaction outcome =>
      match s.process, outcome with
      | .deleting randData, .commit =>
          match deleteAll s.pool with
          | some pool => some ⟨pool, .allocating .ptr randData⟩
          | none => some { s with process := .undefined }
      | .deleting _, .abort => some { s with process := .down }
      | _, _ => none
  | .crash =>
      match s.process with
      | .undefined => none
      | _ => some { s with process := .down }

def start : State := ⟨newPool, .down⟩

def machine : System State Action where
  init s := s = start
  step s action s' := step s action = some s'

end SpackPlayground.AtomicOps
