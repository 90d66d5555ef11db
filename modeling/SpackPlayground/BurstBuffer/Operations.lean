import SpackPlayground.BurstBuffer.Memory

/-! The code of `ListNode`, `BurstBuffer::Writer`, `BurstBuffer::Flusher` and
`BurstBuffer::runtimeInitialize`, cut at the points where a crash or another
thread can be observed. What libpmemobj decides (the address of a new object,
the error number, whether a transaction commits) is an argument. -/
namespace SpackPlayground.BurstBuffer.Operations

open Memory

abbrev Errno := { code : Nat // 0 < code }

/-- What `pmemobj_xalloc` does: it hands out some address, or fails. -/
inductive XallocResult where
  | allocated (addr : Addr)
  | failed (errno : Errno)

/-- How `flat_transaction::run` ends: the body's stores all take effect, or
none does and an exception leaves the call. -/
inductive TxOutcome where
  | commit
  | abort
  deriving DecidableEq

/-- The `persistent_ptr` that `pmemobj_xalloc` overwrites. -/
inductive Destination where
  | active
  | nextOf (ptr : PersistentPtr)

def store (pool : Pool) (value : PersistentPtr) : Destination → Except Refusal Pool
  | .active => do
      let bb ← pool.persistent
      pure { pool with bb := some { bb with active := value } }
  | .nextOf ptr => do
      let heap ← pool.heap.setNext ptr value
      pure { pool with heap := heap }

/-- `ListNode::Persistent::makePersistentAtomic`. The allocator never hands out
a live block, and it publishes the constructed object in the same atomic step.
The inner result is the thrown `std::system_error`. -/
def makePersistentAtomic (pool : Pool) (ptr : Destination) (result : XallocResult)
    (write : Write) : Except Refusal (Except Errno Pool) :=
  match result with
  | .failed errno => .ok (.error errno)
  | .allocated addr =>
      if addr ∈ pool.heap then .error .disabled
      else do
        let pool ← store { pool with heap := pool.heap.insert addr (create write) }
          (some addr) ptr
        pure (.ok pool)

/-- `Writer::tryPwrite` up to the return of `makePersistentAtomic`. -/
def tryPwrite (pool : Pool) (tail : PersistentPtr) (result : XallocResult)
    (write : Write) : Except Refusal (Except Errno Pool) := do
  let _ ← pool.heap.deref tail
  makePersistentAtomic pool (.nextOf tail) result write

def advanceTail (heap : Heap) (tail : PersistentPtr) : Except Refusal PersistentPtr := do
  let (_, node) ← heap.deref tail
  pure node.next

def pwriteSuccess : Int := 0

def pwriteFailure (errno : Errno) : Int := -errno.val

def enqueueBody (pool : Pool) : Except Refusal Pool := do
  let bb ← pool.persistent
  let (_, head) ← pool.heap.deref bb.active
  store { pool with bb := some { bb with flushing := head.next } } none (.nextOf bb.active)

/-- The freeing loop of `Flusher::flushAll`, with the nodes it frees. Every
round frees a live node, so when as many rounds as there were live nodes are
over, nothing is live and one more round would read freed memory. -/
def freeLoop : Nat → Heap → PersistentPtr → Except Refusal (Heap × List (Addr × Write))
  | _, heap, none => .ok (heap, [])
  | 0, _, some _ => .error .undefinedBehaviour
  | fuel + 1, heap, some cur => do
      let (_, node) ← heap.deref (some cur)
      let heap ← heap.deletePersistent cur
      let (heap, freed) ← freeLoop fuel heap node.next
      pure (heap, (cur, node.write) :: freed)

def freeBody (pool : Pool) : Except Refusal (Pool × List (Addr × Write)) := do
  let bb ← pool.persistent
  let (heap, freed) ← freeLoop pool.heap.keys.card pool.heap bb.flushing
  pure ({ bb := some { bb with flushing := none }, heap := heap }, freed)

def sentinelWrite : Write := ⟨0, []⟩

/-- The first block of `runtimeInitialize`. -/
def ensureSentinel (pool : Pool) (result : XallocResult) :
    Except Refusal (Except Errno Pool) := do
  let bb ← pool.persistent
  match bb.active with
  | none => makePersistentAtomic pool .active result sentinelWrite
  | some _ => pure (.ok pool)

/-- The loop of `runtimeInitialize`. A walk that moves on more often than there
are live nodes has met one of them twice and never ends. -/
def walkTail : Nat → Heap → PersistentPtr → Except Refusal PersistentPtr
  | 0, heap, tail => do
      let (_, node) ← heap.deref tail
      if node.next = none then pure tail else .error .diverges
  | fuel + 1, heap, tail => do
      let (_, node) ← heap.deref tail
      if node.next = none then pure tail else walkTail fuel heap node.next

/-- The second block of `runtimeInitialize`. -/
def retrieveTail (pool : Pool) : Except Refusal PersistentPtr := do
  let bb ← pool.persistent
  walkTail pool.heap.keys.card pool.heap bb.active

/-- The transaction of `main` that makes `Root::bb`. -/
def makeRoot (pool : Pool) : Pool :=
  { pool with bb := some { active := none, flushing := none } }

end SpackPlayground.BurstBuffer.Operations
