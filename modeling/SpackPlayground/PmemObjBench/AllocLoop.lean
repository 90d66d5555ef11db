import Mathlib.Data.Fintype.EquivFin
import SpackPlayground.PmemObjBench.Objects
import SpackPlayground.Striped.Coverage
import SpackPlayground.Timing.Workers

/-! The worker loops of `pmemobjbench`. The variable `ret` is declared once in
`main` and shared by all workers, like the flag `fail`. -/
namespace SpackPlayground.PmemObjBench.AllocLoop

open Objects Striped.Layout Striped.Coverage Timing.Workers

structure Invocation where
  args : Args
  opAlloc : Bool
  accessOffset : List UInt64
  accepted : args.Accepted
  shuffled : AccessOffset args accessOffset

def Invocation.blockSize (invocation : Invocation) : Nat := invocation.args.blockSize.toNat

inductive Event where
  | resized (nobjects : Nat)
  | allocated (worker : Nat) (blockOfs : UInt64) (size : Nat)
  /-- `pmemobj_xalloc` returned something else than zero. -/
  | refused (worker : Nat) (blockOfs : UInt64) (ret : Int)
  /-- `memcpy` of `size` bytes from a block; `found` is the size of the live
  allocation that the element pointed to. -/
  | copied (worker : Nat) (blockOfs : UInt64) (size : Nat) (found : Option Nat)
  deriving DecidableEq

/-- What the workers share. No step reads `log`. -/
structure Shared where
  ret : Int
  fail : Bool
  pool : Pool
  log : List Event

inductive Pc where
  | atBlock (blockOfs : UInt64)
  /-- `pmemobj_xalloc` is over, `ret` is not assigned yet. -/
  | returned (result : Int)
  /-- Before the test of `ret`. The code forgets `result`. -/
  | stored (result : Int)
  /-- Before `fail.store`. -/
  | failing
  /-- Behind the loop over `j`, before `fail.load`. -/
  | atStripe
  | left
  deriving DecidableEq

structure Local where
  pc : Pc
  /-- The other blocks of this stripe. -/
  strip : List UInt64
  stripes : List (List UInt64)
  deriving DecidableEq

inductive Xalloc where
  | allocated (addr : Addr)
  | failed (ret : { ret : Int // ret ≠ 0 })

inductive Label where
  | xalloc (outcome : Xalloc)
  | storeRet
  | testRet
  | storeFail
  | testFail
  /-- `make_persistent_atomic`. If it throws, the process is gone. -/
  | makePersistent (addr : Addr)
  | copy

def atStrip (stripes : List (List UInt64)) : List UInt64 → Local
  | [] => ⟨.atStripe, [], stripes⟩
  | blockOfs :: rest => ⟨.atBlock blockOfs, rest, stripes⟩

def atStripes : List (List UInt64) → Local
  | [] => ⟨.left, [], []⟩
  | strip :: rest => atStrip rest strip

/-- The allocator publishes a fresh block in the element, and forgets whatever
the element pointed to. -/
def allocate (pool : Pool) (blockOfs : UInt64) (addr : Addr) (size : Nat) : Pool where
  objs := pool.objs.set blockOfs.toNat ⟨some addr⟩
  heap := pool.heap.insert addr size

def liveSize (pool : Pool) (k : Nat) : Option Nat :=
  ((pool.objs[k]?.bind Object.data).bind fun addr => pool.heap.lookup addr)

def Shared.record (shared : Shared) (event : Event) : Shared :=
  { shared with log := shared.log ++ [event] }

def step (invocation : Invocation) (i : Nat) (shared : Shared) (l : Local) (label : Label) :
    Option (Shared × Local) :=
  match l.pc, label with
  | .atBlock blockOfs, .xalloc (.allocated addr) =>
      if (invocation.args.opWrite = true ∧ invocation.opAlloc = false) ∧
          addr ∉ shared.pool.heap then
        some ({ shared with
            pool := allocate shared.pool blockOfs addr invocation.blockSize }.record
              (.allocated i blockOfs invocation.blockSize),
          { l with pc := .returned 0 })
      else none
  | .atBlock blockOfs, .xalloc (.failed ret) =>
      if invocation.args.opWrite = true ∧ invocation.opAlloc = false then
        some (shared.record (.refused i blockOfs ret.val), { l with pc := .returned ret.val })
      else none
  | .returned result, .storeRet =>
      some ({ shared with ret := result }, { l with pc := .stored result })
  | .stored _, .testRet =>
      if shared.ret ≠ 0 then some (shared, { l with pc := .failing })
      else some (shared, atStrip l.stripes l.strip)
  | .failing, .storeFail =>
      -- `break` out of the loop over `j`
      some ({ shared with fail := true }, { l with pc := .atStripe })
  | .atStripe, .testFail =>
      if shared.fail then some (shared, ⟨.left, [], []⟩) else some (shared, atStripes l.stripes)
  | .atBlock blockOfs, .makePersistent addr =>
      if (invocation.args.opWrite = true ∧ invocation.opAlloc = true) ∧
          addr ∉ shared.pool.heap then
        some ({ shared with
            pool := allocate shared.pool blockOfs addr invocation.blockSize }.record
              (.allocated i blockOfs invocation.blockSize),
          atStrip l.stripes l.strip)
      else none
  | .atBlock blockOfs, .copy =>
      if invocation.args.opWrite = false then
        some (shared.record (.copied i blockOfs invocation.blockSize
            (liveSize shared.pool blockOfs.toNat)),
          atStrip l.stripes l.strip)
      else none
  | _, _ => none

inductive Moves (invocation : Invocation) (i : Nat) (shared : Shared) (l : Local) :
    Label → Shared → Local → Prop where
  | xalloc (blockOfs : UInt64) (addr : Addr) : l.pc = .atBlock blockOfs →
      addr ∉ shared.pool.heap →
      Moves invocation i shared l (.xalloc (.allocated addr))
        ({ shared with
          pool := allocate shared.pool blockOfs addr invocation.blockSize }.record
            (.allocated i blockOfs invocation.blockSize))
        { l with pc := .returned 0 }
  | refused (blockOfs : UInt64) (ret : { ret : Int // ret ≠ 0 }) : l.pc = .atBlock blockOfs →
      Moves invocation i shared l (.xalloc (.failed ret))
        (shared.record (.refused i blockOfs ret.val)) { l with pc := .returned ret.val }
  | storeRet (result : Int) : l.pc = .returned result →
      Moves invocation i shared l .storeRet { shared with ret := result }
        { l with pc := .stored result }
  | testFailed (result : Int) : l.pc = .stored result → shared.ret ≠ 0 →
      Moves invocation i shared l .testRet shared { l with pc := .failing }
  | testPassed (result : Int) : l.pc = .stored result → shared.ret = 0 →
      Moves invocation i shared l .testRet shared (atStrip l.stripes l.strip)
  | storeFail : l.pc = .failing →
      Moves invocation i shared l .storeFail { shared with fail := true }
        { l with pc := .atStripe }
  | leave : l.pc = .atStripe → shared.fail = true →
      Moves invocation i shared l .testFail shared ⟨.left, [], []⟩
  | goOn : l.pc = .atStripe → shared.fail = false →
      Moves invocation i shared l .testFail shared (atStripes l.stripes)
  | makePersistent (blockOfs : UInt64) (addr : Addr) : l.pc = .atBlock blockOfs →
      addr ∉ shared.pool.heap →
      Moves invocation i shared l (.makePersistent addr)
        ({ shared with
          pool := allocate shared.pool blockOfs addr invocation.blockSize }.record
            (.allocated i blockOfs invocation.blockSize))
        (atStrip l.stripes l.strip)
  | copy (blockOfs : UInt64) : l.pc = .atBlock blockOfs → invocation.args.opWrite = false →
      Moves invocation i shared l .copy
        (shared.record (.copied i blockOfs invocation.blockSize
          (liveSize shared.pool blockOfs.toNat)))
        (atStrip l.stripes l.strip)

section Steps

variable {invocation : Invocation} {i : Nat} {shared shared' : Shared} {l l' : Local}
  {label : Label}

theorem moves_of_step (hstep : step invocation i shared l label = some (shared', l')) :
    Moves invocation i shared l label shared' l' := by
  unfold step at hstep
  split at hstep
  case h_1 blockOfs addr hpc =>
      obtain ⟨⟨_, hfresh⟩, heq⟩ := Option.ite_none_right_eq_some.mp hstep
      cases heq
      exact .xalloc blockOfs addr hpc hfresh
  case h_2 blockOfs ret hpc =>
      obtain ⟨_, heq⟩ := Option.ite_none_right_eq_some.mp hstep
      cases heq
      exact .refused blockOfs ret hpc
  case h_3 result hpc =>
      cases hstep
      exact .storeRet result hpc
  case h_4 result hpc =>
      split at hstep
      · cases hstep
        exact .testFailed result hpc ‹_›
      · rename_i hzero
        cases hstep
        exact .testPassed result hpc (not_not.mp hzero)
  case h_5 hpc =>
      cases hstep
      exact .storeFail hpc
  case h_6 hpc =>
      split at hstep
      · cases hstep
        exact .leave hpc ‹_›
      · rename_i hfail
        cases hstep
        exact .goOn hpc (Bool.eq_false_of_not_eq_true hfail)
  case h_7 blockOfs addr hpc =>
      obtain ⟨⟨_, hfresh⟩, heq⟩ := Option.ite_none_right_eq_some.mp hstep
      cases heq
      exact .makePersistent blockOfs addr hpc hfresh
  case h_8 blockOfs hpc =>
      obtain ⟨hread, heq⟩ := Option.ite_none_right_eq_some.mp hstep
      cases heq
      exact .copy blockOfs hpc hread
  case h_9 => cases hstep

def Local.pending (l : Local) : List UInt64 :=
  (match l.pc with | .atBlock blockOfs => [blockOfs] | _ => []) ++ l.strip ++ l.stripes.flatten

@[simp] theorem pending_atStrip (stripes : List (List UInt64)) (strip : List UInt64) :
    (atStrip stripes strip).pending = strip ++ stripes.flatten := by
  cases strip <;> simp [atStrip, Local.pending]

@[simp] theorem pending_atStripes (stripes : List (List UInt64)) :
    (atStripes stripes).pending = stripes.flatten := by
  cases stripes with
  | nil => rfl
  | cons strip rest => simp [atStripes]

theorem mem_pending_of_pc {blockOfs : UInt64} (hpc : l.pc = .atBlock blockOfs) :
    blockOfs ∈ l.pending := by
  simp [Local.pending, hpc]

theorem strip_subset_pending : l.strip ++ l.stripes.flatten ⊆ l.pending := by
  intro block hblock
  simp only [Local.pending, List.append_assoc]
  exact List.mem_append_right _ hblock

theorem pending_subset_of_moves (hmoves : Moves invocation i shared l label shared' l') :
    l'.pending ⊆ l.pending := by
  have hrest : l.stripes.flatten ⊆ l.pending :=
    List.Subset.trans (List.subset_append_right _ _) strip_subset_pending
  cases hmoves with
  | testPassed | makePersistent | copy =>
      rw [pending_atStrip]
      exact strip_subset_pending
  | goOn =>
      rw [pending_atStripes]
      exact hrest
  | leave => exact List.nil_subset _
  | _ => exact strip_subset_pending

theorem exists_step (hpc : l.pc ≠ .left) :
    ∃ label result, step invocation i shared l label = some result := by
  cases hl : l.pc with
  | left => exact absurd hl hpc
  | returned result => exact ⟨.storeRet, _, by simp only [step, hl]; rfl⟩
  | stored result =>
      by_cases hret : shared.ret = 0
      · exact ⟨.testRet, (shared, atStrip l.stripes l.strip), by simp [step, hl, hret]⟩
      · exact ⟨.testRet, (shared, { l with pc := .failing }), by simp [step, hl, hret]⟩
  | failing => exact ⟨.storeFail, _, by simp only [step, hl]; rfl⟩
  | atStripe =>
      by_cases hfail : shared.fail = true
      · exact ⟨.testFail, (shared, ⟨.left, [], []⟩), by simp [step, hl, hfail]⟩
      · exact ⟨.testFail, (shared, atStripes l.stripes), by simp [step, hl, hfail]⟩
  | atBlock blockOfs =>
      obtain ⟨addr, hfresh⟩ := Infinite.exists_notMem_finset shared.pool.heap.keys
      rw [Finmap.mem_keys] at hfresh
      by_cases hwrite : invocation.args.opWrite = true
      · by_cases halloc : invocation.opAlloc = true
        · exact ⟨.makePersistent addr, _, by
            simp only [step, hl]
            exact if_pos ⟨⟨hwrite, halloc⟩, hfresh⟩⟩
        · have halloc := Bool.eq_false_of_not_eq_true halloc
          exact ⟨.xalloc (.allocated addr), _, by
            simp only [step, hl]
            exact if_pos ⟨⟨hwrite, halloc⟩, hfresh⟩⟩
      · have hread := Bool.eq_false_of_not_eq_true hwrite
        exact ⟨.copy, _, by simp only [step, hl]; exact if_pos hread⟩

end Steps

def workerStripes (invocation : Invocation) (i : UInt64) : List (List UInt64) :=
  (iota invocation.args.stripeCount).map
    (stripBlocks invocation.args invocation.accessOffset i)

def program (invocation : Invocation) :
    Program invocation.args.nthreads.toNat Shared Local Label where
  init shared := shared.fail = false ∧ shared.log = []
  start i := atStripes (workerStripes invocation (.ofNat i.val))
  step i := step invocation i.val
  ended l := l.pc == .left
  live i shared l hleft := exists_step (by simpa using hleft)

end SpackPlayground.PmemObjBench.AllocLoop
