import SpackPlayground.Library.Persistence
import SpackPlayground.Library.Transition
import SpackPlayground.Pmem2Bench.MappedMemory

/-! The copies of the workers of `pmem2bench`, byte by byte and in any order within a copy.
A copy to the mapping has made its block durable when it returns. -/
namespace SpackPlayground.Pmem2Bench.Copying

open Library.Persistence Library.Transition Striped.Layout Striped.Coverage MappedMemory

/-- An invocation that passes the argument check, with its shuffled offsets. -/
structure Invocation where
  args : Args
  accessOffset : List UInt64
  opDryRun : Bool
  mapSize : Nat
  accepted : args.Accepted
  shuffled : AccessOffset args accessOffset

/-- What keeps the copies inside `buf` and inside the mapping; the program checks neither. -/
structure Invocation.InBounds (invocation : Invocation) : Prop where
  buf : invocation.args.blockSize.toNat ≤ bufSize
  mapped : invocation.opDryRun = true ∨ reach invocation.args ≤ invocation.mapSize

structure Access where
  worker : Nat
  blockOfs : UInt64
  deriving DecidableEq

structure Worker where
  /-- The block that is being copied, and those behind it. -/
  blocks : List UInt64
  /-- The bytes of that block that have been copied. -/
  copied : Nat → Bool
  buf : Nat → UInt8

/-- Addresses count from `addr`. No step reads `log`. -/
structure State (n : Nat) where
  memory : Memory fun _ : Nat => UInt8
  workers : Fin n → Worker
  log : List Access

namespace Invocation

variable (invocation : Invocation)

def blockSize : Nat := invocation.args.blockSize.toNat

def nthreads : Nat := invocation.args.nthreads.toNat

def blocks (i : Nat) : List UInt64 :=
  pmem2benchAccesses invocation.args invocation.opDryRun invocation.accessOffset (.ofNat i)

def address (block : UInt64) (k : Nat) : Nat := (block * invocation.args.blockSize).toNat + k

/-- `buf` is zero until the random string is copied into it. -/
def start (data : Nat → UInt8) (i : Nat) : Worker where
  blocks := invocation.blocks i
  copied _ := false
  buf k := if k < invocation.blockSize then data k else 0

end Invocation

inductive Action (n : Nat) where
  /-- Some byte of the block, perhaps not for the first time. -/
  | byte (i : Fin n) (k : Nat)
  | finish (i : Fin n)
  /-- The cache writes a byte back. -/
  | evict (l : Nat)

variable (invocation : Invocation)

def copyByte (s : State invocation.nthreads) (i : Fin invocation.nthreads) (block : UInt64)
    (k : Nat) : State invocation.nthreads :=
  let worker := s.workers i
  let copied := Function.update worker.copied k true
  if invocation.args.opWrite then
    { s with
      memory := s.memory.store (invocation.address block k) (worker.buf k)
      workers := Function.update s.workers i { worker with copied := copied } }
  else
    { s with
      workers := Function.update s.workers i
        { worker with
          copied := copied
          buf := Function.update worker.buf k
            (s.memory.view (invocation.address block k)) } }

def inBlock (block : UInt64) (l : Nat) : Bool :=
  invocation.address block 0 ≤ l && l < invocation.address block invocation.blockSize

def finishBlock (s : State invocation.nthreads) (i : Fin invocation.nthreads) (block : UInt64)
    (rest : List UInt64) : State invocation.nthreads where
  memory :=
    if invocation.args.opWrite then s.memory.persist (inBlock invocation block) else s.memory
  workers := Function.update s.workers i
    { s.workers i with blocks := rest, copied := fun _ => false }
  log := s.log ++ [⟨i, block⟩]

def step (s : State invocation.nthreads) :
    Action invocation.nthreads → Option (State invocation.nthreads)
  | .byte i k =>
      match (s.workers i).blocks with
      | block :: _ =>
          if k < invocation.blockSize then some (copyByte invocation s i block k) else none
      | [] => none
  | .finish i =>
      match (s.workers i).blocks with
      | block :: rest =>
          if (List.range invocation.blockSize).all (s.workers i).copied then
            some (finishBlock invocation s i block rest)
          else none
      | [] => none
  | .evict l => some { s with memory := s.memory.evict l (s.memory.view l) }

/-- `data` is the random string, and `start` what the mapping holds before the workers run. -/
def machine (data start : Nat → UInt8) :
    System (State invocation.nthreads) (Action invocation.nthreads) where
  init s := s = ⟨⟨start, start⟩, fun i => invocation.start data i, []⟩
  step s action s' := step invocation s action = some s'

inductive Moves (s : State invocation.nthreads) :
    Action invocation.nthreads → State invocation.nthreads → Prop where
  | byte (i : Fin invocation.nthreads) (block : UInt64) (rest : List UInt64) (k : Nat) :
      (s.workers i).blocks = block :: rest → k < invocation.blockSize →
      Moves s (.byte i k) (copyByte invocation s i block k)
  | finish (i : Fin invocation.nthreads) (block : UInt64) (rest : List UInt64) :
      (s.workers i).blocks = block :: rest →
      (∀ k < invocation.blockSize, (s.workers i).copied k = true) →
      Moves s (.finish i) (finishBlock invocation s i block rest)
  | evict (l : Nat) : Moves s (.evict l) { s with memory := s.memory.evict l (s.memory.view l) }

variable {invocation}

theorem moves_of_step {s s' : State invocation.nthreads} {action : Action invocation.nthreads}
    (hstep : step invocation s action = some s') : Moves invocation s action s' := by
  cases action with
  | byte i k =>
      cases hblocks : (s.workers i).blocks with
      | nil => simp [step, hblocks] at hstep
      | cons block rest =>
          simp only [step, hblocks] at hstep
          obtain ⟨hk, heq⟩ := Option.ite_none_right_eq_some.mp hstep
          cases heq
          exact .byte i block rest k hblocks hk
  | finish i =>
      cases hblocks : (s.workers i).blocks with
      | nil => simp [step, hblocks] at hstep
      | cons block rest =>
          simp only [step, hblocks] at hstep
          obtain ⟨hall, heq⟩ := Option.ite_none_right_eq_some.mp hstep
          cases heq
          refine .finish i block rest hblocks fun k hk => ?_
          exact List.all_eq_true.mp hall k (List.mem_range.mpr hk)
  | evict l =>
      cases hstep
      exact .evict l

end SpackPlayground.Pmem2Bench.Copying
