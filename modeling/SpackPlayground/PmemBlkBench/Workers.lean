import SpackPlayground.Striped.Disjointness
import SpackPlayground.Timing.Workers

/-! The worker loops of `pmemblkbench`. Every block is read or written by a call
that can fail; a failure is stored in the shared flag `fail`. -/
namespace SpackPlayground.PmemBlkBench.Workers

open Striped.Layout Striped.Coverage Striped.Disjointness Timing.Workers

/-- An invocation that passes the argument check and the pool size check, with
its shuffled offsets. -/
structure Invocation where
  args : Args
  accessOffset : List UInt64
  pool : BlkPool
  accepted : args.Accepted
  shuffled : AccessOffset args accessOffset
  opened : pool.blockSize = args.blockSize
  checked : poolCheck args pool = true

/-- A call of `pmemblk_write` or `pmemblk_read`, and whether it returned zero. -/
structure Access where
  worker : Nat
  blockOfs : UInt64
  succeeded : Bool
  deriving DecidableEq

variable {Block : Type}

/-- What the workers share. No step reads `log`. -/
structure Shared (Block : Type) where
  blocks : UInt64 → Block
  fail : Bool
  log : List Access

inductive Pc where
  | atBlock (blockOfs : UInt64)
  /-- Before `fail.store`. -/
  | failing
  /-- Behind the loop over `j`, before `fail.load`. -/
  | atStripe
  | left
  deriving DecidableEq

structure Local (Block : Type) where
  pc : Pc
  /-- The other blocks of this stripe. -/
  strip : List UInt64
  stripes : List (List UInt64)
  buf : Block

inductive Label (Block : Type) where
  | succeed
  /-- The call returns `-1`, and leaves something in the block or in `buf`. -/
  | fail (left : Block)
  | storeFail
  | testFail

def atStrip (stripes : List (List UInt64)) (buf : Block) : List UInt64 → Local Block
  | [] => ⟨.atStripe, [], stripes, buf⟩
  | blockOfs :: rest => ⟨.atBlock blockOfs, rest, stripes, buf⟩

def atStripes (buf : Block) : List (List UInt64) → Local Block
  | [] => ⟨.left, [], [], buf⟩
  | strip :: rest => atStrip rest buf strip

/-- The check of the block number in both calls. -/
def accepts (pool : BlkPool) (blockno : Int64) : Bool :=
  decide (0 ≤ blockno.toInt ∧ blockno.toInt < pool.nblock.toNat)

def written (opWrite : Bool) (blocks : UInt64 → Block) (blockOfs : UInt64) (x : Block) :
    UInt64 → Block :=
  if opWrite then Function.update blocks blockOfs x else blocks

def filled (opWrite : Bool) (buf x : Block) : Block := if opWrite then buf else x

def step (invocation : Invocation) (data : Block) (i : Nat) (shared : Shared Block)
    (l : Local Block) (label : Label Block) : Option (Shared Block × Local Block) :=
  match l.pc, label with
  | .atBlock blockOfs, .succeed =>
      if accepts invocation.pool blockOfs.toInt64 then
        some ({ shared with
            blocks := written invocation.args.opWrite shared.blocks blockOfs data
            log := shared.log ++ [⟨i, blockOfs, true⟩] },
          atStrip l.stripes (filled invocation.args.opWrite l.buf (shared.blocks blockOfs))
            l.strip)
      else none
  | .atBlock blockOfs, .fail left =>
      some ({ shared with
          blocks := if accepts invocation.pool blockOfs.toInt64 then
              written invocation.args.opWrite shared.blocks blockOfs left
            else shared.blocks
          log := shared.log ++ [⟨i, blockOfs, false⟩] },
        ⟨.failing, [], l.stripes, filled invocation.args.opWrite l.buf left⟩)
  | .failing, .storeFail => some ({ shared with fail := true }, { l with pc := .atStripe })
  | .atStripe, .testFail =>
      if shared.fail then some (shared, ⟨.left, [], [], l.buf⟩)
      else some (shared, atStripes l.buf l.stripes)
  | _, _ => none

inductive Moves (invocation : Invocation) (data : Block) (i : Nat) (shared : Shared Block)
    (l : Local Block) : Label Block → Shared Block → Local Block → Prop where
  | succeed (blockOfs : UInt64) : l.pc = .atBlock blockOfs →
      accepts invocation.pool blockOfs.toInt64 = true →
      Moves invocation data i shared l .succeed
        { shared with
          blocks := written invocation.args.opWrite shared.blocks blockOfs data
          log := shared.log ++ [⟨i, blockOfs, true⟩] }
        (atStrip l.stripes (filled invocation.args.opWrite l.buf (shared.blocks blockOfs))
          l.strip)
  | fail (blockOfs : UInt64) (left : Block) : l.pc = .atBlock blockOfs →
      Moves invocation data i shared l (.fail left)
        { shared with
          blocks := if accepts invocation.pool blockOfs.toInt64 then
              written invocation.args.opWrite shared.blocks blockOfs left
            else shared.blocks
          log := shared.log ++ [⟨i, blockOfs, false⟩] }
        ⟨.failing, [], l.stripes, filled invocation.args.opWrite l.buf left⟩
  | storeFail : l.pc = .failing →
      Moves invocation data i shared l .storeFail { shared with fail := true }
        { l with pc := .atStripe }
  | leave : l.pc = .atStripe → shared.fail = true →
      Moves invocation data i shared l .testFail shared ⟨.left, [], [], l.buf⟩
  | goOn : l.pc = .atStripe → shared.fail = false →
      Moves invocation data i shared l .testFail shared (atStripes l.buf l.stripes)

section Steps

variable {invocation : Invocation} {data : Block} {i : Nat} {shared shared' : Shared Block}
  {l l' : Local Block} {label : Label Block}

theorem moves_of_step (hstep : step invocation data i shared l label = some (shared', l')) :
    Moves invocation data i shared l label shared' l' := by
  unfold step at hstep
  split at hstep
  case h_1 blockOfs hpc =>
      obtain ⟨haccepts, heq⟩ := Option.ite_none_right_eq_some.mp hstep
      cases heq
      exact .succeed blockOfs hpc haccepts
  case h_2 blockOfs left hpc =>
      cases hstep
      exact .fail blockOfs left hpc
  case h_3 hpc =>
      cases hstep
      exact .storeFail hpc
  case h_4 hpc =>
      split at hstep
      · cases hstep
        exact .leave hpc ‹_›
      · rename_i hfail
        cases hstep
        exact .goOn hpc (Bool.eq_false_of_not_eq_true hfail)
  case h_5 => cases hstep

theorem exists_step (hpc : l.pc ≠ .left) (left : Block) :
    ∃ label result, step invocation data i shared l label = some result := by
  cases hl : l.pc with
  | left => exact absurd hl hpc
  | atBlock blockOfs => exact ⟨.fail left, _, by simp only [step, hl]; rfl⟩
  | failing => exact ⟨.storeFail, _, by simp only [step, hl]; rfl⟩
  | atStripe =>
      by_cases hfail : shared.fail = true
      · exact ⟨.testFail, (shared, ⟨.left, [], [], l.buf⟩), by simp [step, hl, hfail]⟩
      · exact ⟨.testFail, (shared, atStripes l.buf l.stripes), by simp [step, hl, hfail]⟩

def Local.pending (l : Local Block) : List UInt64 :=
  (match l.pc with | .atBlock blockOfs => [blockOfs] | _ => []) ++ l.strip ++ l.stripes.flatten

@[simp] theorem pending_atStrip (stripes : List (List UInt64)) (buf : Block)
    (strip : List UInt64) : (atStrip stripes buf strip).pending = strip ++ stripes.flatten := by
  cases strip <;> simp [atStrip, Local.pending]

@[simp] theorem pending_atStripes (buf : Block) (stripes : List (List UInt64)) :
    (atStripes buf stripes).pending = stripes.flatten := by
  cases stripes with
  | nil => rfl
  | cons strip rest => simp [atStripes]

theorem pending_of_atBlock {blockOfs : UInt64} (hpc : l.pc = .atBlock blockOfs) :
    l.pending = blockOfs :: (l.strip ++ l.stripes.flatten) := by
  simp [Local.pending, hpc]

end Steps

def workerStripes (invocation : Invocation) (i : UInt64) : List (List UInt64) :=
  (iota invocation.args.stripeCount).map
    (stripBlocks invocation.args invocation.accessOffset i)

def workerBlocks (invocation : Invocation) (i : Nat) : List UInt64 :=
  (workerStripes invocation (.ofNat i)).flatten

/-- `data` is the random string, and `blocks` what the pool holds when it is opened. -/
def program (invocation : Invocation) (data : Block) (blocks : UInt64 → Block) :
    Program invocation.args.nthreads.toNat (Shared Block) (Local Block) (Label Block) where
  init shared := shared = ⟨blocks, false, []⟩
  start i := atStripes data (workerStripes invocation (.ofNat i.val))
  step i := step invocation data i.val
  ended l := l.pc == .left
  live i shared l hleft := exists_step (by simpa using hleft) data

end SpackPlayground.PmemBlkBench.Workers
