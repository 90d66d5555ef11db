import SpackPlayground.BurstBuffer.Regions
import SpackPlayground.Library.Persistence
import SpackPlayground.Library.Transition

/-! `ListNode::Persistent::makePersistentAtomic` byte by byte, in memory that a crash
reduces to what has reached the medium. `pmemobj_xalloc` picks a block, calls
`create`, and publishes the block in the destination pointer in one step. -/
namespace SpackPlayground.BurstBuffer.Creation

open Encoding Library.Bytes Library.Transition Memory Operations Regions

abbrev Mem := Library.Persistence.Memory fun _ : Nat => UInt8

/-- The payload is no longer than a string can be. -/
structure Call where
  ptr : Destination
  write : Write
  fits : write.data.length < 2 ^ 63

inductive Pc where
  | idle
  /-- In `pmemobj_xalloc`, before it has a block. -/
  | allocating (call : Call)
  /-- In the constructor of `ListNode::Persistent`, before its byte `i`. -/
  | constructing (call : Call) (addr : Addr) (i : Nat)
  /-- Before `pmemobj_xpersist`. -/
  | persisting (call : Call) (addr : Addr)
  /-- In `pmemobj_memcpy` of `n` bytes, before byte `i`. -/
  | copying (call : Call) (addr : Addr) (n i : Nat)
  /-- At the end of `pmemobj_memcpy`. -/
  | draining (call : Call) (addr : Addr) (n : Nat)
  /-- `create` has returned. -/
  | publishing (call : Call) (addr : Addr)
  /-- A read beyond the payload, or a destination that is not there. -/
  | undefined

def Pc.block : Pc → Option (Call × Addr)
  | .idle | .allocating _ | .undefined => none
  | .constructing call addr _ | .persisting call addr | .copying call addr _ _
  | .draining call addr _ | .publishing call addr => some (call, addr)

def Pc.remaining : Pc → Nat
  | .idle | .allocating _ | .undefined => 0
  | .constructing call _ i => sizeofPersistent - i + call.write.data.length + 5
  | .persisting call _ => call.write.data.length + 4
  | .copying _ _ n i => n - i + 3
  | .draining _ _ _ => 2
  | .publishing _ _ => 1

/-- `pool` is what the bytes stand for, and `created` what the calls that have returned
have made. -/
structure State where
  mem : Mem
  pool : Pool
  pc : Pc
  created : List (Addr × Write)

inductive Action where
  | makePersistentAtomic (call : Call)
  | allocate (addr : Addr)
  /-- `pmemobj_xalloc` fails, and `std::system_error` is thrown. -/
  | fail
  | work
  | evict (l : Nat) (x : UInt8)
  | crash

def within (addr n l : Nat) : Bool := addr ≤ l && l < addr + n

def work (place : Place) (s : State) : Option State :=
  match s.pc with
  | .idle | .allocating _ | .undefined => none
  | .constructing call addr i =>
      match (headerBytes place.uuid call.write)[i]? with
      | some b => some
          { s with mem := s.mem.store (addr + i) b, pc := .constructing call addr (i + 1) }
      | none => some { s with pc := .persisting call addr }
  | .persisting call addr => some
      { s with
        mem := s.mem.persist (within addr sizeofPersistent)
        pc := .copying call addr (sizeAt s.mem.view addr).toNat 0 }
  | .copying call addr n i =>
      if i < n then
        match call.write.data[i]? with
        | some b => some
            { s with mem := s.mem.store (dataAt addr + i) b, pc := .copying call addr n (i + 1) }
        | none => some { s with pc := .undefined }
      else some { s with pc := .draining call addr n }
  | .draining call addr n => some
      { s with mem := s.mem.persist (within (dataAt addr) n), pc := .publishing call addr }
  | .publishing call addr =>
      match destinationAt place call.ptr,
        Operations.makePersistentAtomic s.pool call.ptr (.allocated addr) call.write with
      | some ptr, .ok (.ok pool) => some
          { mem := s.mem.assign (patch ptr (pointerBytes place.uuid (some addr)))
            pool := pool
            pc := .idle
            created := s.created ++ [(addr, call.write)] }
      | _, _ => some { s with pc := .undefined }

def step (place : Place) (s : State) (action : Action) : Option State :=
  match action, s.pc with
  | .makePersistentAtomic call, .idle => some { s with pc := .allocating call }
  | .allocate addr, .allocating call => some { s with pc := .constructing call addr 0 }
  | .fail, .allocating _ => some { s with pc := .idle }
  | .work, _ => work place s
  | .evict l x, _ => some { s with mem := s.mem.evict l x }
  | .crash, _ => some { s with mem := s.mem.crash, pc := .idle }
  | _, _ => none

/-- The callers pass a pointer that is there, the allocator hands out free bytes, as
many as it is asked for, and the cache evicts what it can. -/
def CanOccur (place : Place) (s : State) : Action → Prop
  | .makePersistentAtomic call => Valid s.pool call.ptr
  | .allocate addr => ∀ call, s.pc = .allocating call →
      Free place s.pool addr (reqCapacity call.write.data).toNat
  | .evict l x => s.mem.Evictable l x
  | .fail | .work | .crash => True

/-- Any pool that is at rest and in order. -/
def machine (place : Place) : System State Action where
  init s := s.pc = .idle ∧ s.created = [] ∧ Represents place s.mem.view s.pool ∧
    s.mem.Durable (region place s.pool) ∧ Apart place s.pool ∧ Grounded s.pool
  step s action s' := CanOccur place s action ∧ step place s action = some s'

end SpackPlayground.BurstBuffer.Creation
