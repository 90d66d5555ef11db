import Mathlib.Algebra.Order.BigOperators.Group.Finset
import SpackPlayground.Pmem2Bench.MappedMemory
import SpackPlayground.PmemObjBench.AllocLoop
import SpackPlayground.Timing.Window

/-! The three benchmarks that measure through the frame. -/
namespace SpackPlayground.Timing.Benchmarks

open Library.Transition Library.Tally Psync Workers Harness Window
open Striped.Layout Striped.Coverage Pmem2Bench PmemObjBench.AllocLoop

def accessBlock (blocks : List UInt64) (block : UInt64) : Option (List UInt64) :=
  match blocks with
  | [] => none
  | next :: rest => if next = block then some rest else none

def pmem2bench (args : Args) (opDryRun : Bool) (accessOffset : List UInt64) :
    Benchmark Unit (List UInt64) UInt64 where
  nthreads := args.nthreads
  program := {
    init _ := True
    start i := pmem2benchAccesses args opDryRun accessOffset (.ofNat i.val)
    step _ shared blocks block := (accessBlock blocks block).map fun rest => (shared, rest)
    ended := List.isEmpty
    live i shared blocks hended := by
      cases blocks with
      | nil => cases hended
      | cons next rest => exact ⟨next, (shared, rest), by simp [accessBlock]⟩ }
  -- once in the constructor of `ElapsedTime`, once in `reset`
  clockSets := 2

def pmemobjbench (invocation : Invocation) : Benchmark Shared Local Label where
  nthreads := invocation.args.nthreads
  program := program invocation
  clockSets := 2

def countUp (countPerThread counter j : UInt64) : Option (UInt64 × UInt64) :=
  if j < countPerThread then some (counter + 1, j + 1) else none

def atomicBench (nthreads totalCount : UInt64) : Benchmark UInt64 UInt64 Unit where
  nthreads := nthreads
  program := {
    init counter := counter = 0
    start _ := 0
    step _ counter j _ := countUp (totalCount / nthreads) counter j
    ended j := !decide (j < totalCount / nthreads)
    live i counter j hended := by
      have hmore : j < totalCount / nthreads := by simpa using hended
      exact ⟨(), (counter + 1, j + 1), if_pos hmore⟩ }
  clockSets := 1

section Counter

variable {nthreads totalCount : UInt64}

structure Counted (nthreads totalCount : UInt64) (crew : Crew nthreads.toNat UInt64 UInt64) :
    Prop where
  sum : crew.shared.toNat = ∑ i, (crew.locals i).toNat
  most : ∀ i, crew.locals i ≤ totalCount / nthreads

private theorem sum_le_totalCount {counts : Fin nthreads.toNat → UInt64}
    (hmost : ∀ i, counts i ≤ totalCount / nthreads) :
    ∑ i, (counts i).toNat ≤ totalCount.toNat := by
  calc
    ∑ i, (counts i).toNat ≤ ∑ _i : Fin nthreads.toNat, (totalCount / nthreads).toNat :=
      Finset.sum_le_sum fun i _ => UInt64.le_iff_toNat_le.mp (hmost i)
    _ = nthreads.toNat * (totalCount.toNat / nthreads.toNat) := by
      rw [Finset.sum_const, Finset.card_univ, Fintype.card_fin, UInt64.toNat_div,
        Nat.nsmul_eq_mul]
    _ ≤ totalCount.toNat := Nat.mul_div_le _ _

private theorem toNat_add_one_of_lt {j n : UInt64} (hlt : j < n) : (j + 1).toNat = j.toNat + 1 := by
  have hbound := n.toNat_lt
  rw [UInt64.lt_iff_toNat_lt] at hlt
  rw [UInt64.toNat_add, UInt64.toNat_one]
  exact Nat.mod_eq_of_lt (by omega)

theorem Counted.preserved {crew crew' : Crew nthreads.toNat UInt64 UInt64}
    (hcounted : Counted nthreads totalCount crew) {i : Fin nthreads.toNat}
    (hwork : crew.work (atomicBench nthreads totalCount).program i () = some crew') :
    Counted nthreads totalCount crew' := by
  obtain ⟨counter, j, hstep, rfl⟩ := work_eq_some_iff.mp hwork
  obtain ⟨hmore, heq⟩ := Option.ite_none_right_eq_some.mp hstep
  cases heq
  have hj : (crew.locals i + 1).toNat = (crew.locals i).toNat + 1 := toNat_add_one_of_lt hmore
  have hmost : ∀ k, Function.update crew.locals i (crew.locals i + 1) k ≤
      totalCount / nthreads := by
    refine forall_update (motive := fun _ j => j ≤ totalCount / nthreads) ?_ fun k _ =>
      hcounted.most k
    rw [UInt64.le_iff_toNat_le, hj]
    exact UInt64.lt_iff_toNat_lt.mp hmore
  refine ⟨?_, hmost⟩
  have hsum := sum_update_add UInt64.toNat crew.locals i (crew.locals i + 1)
  have hcounter := hcounted.sum
  have htotal := sum_le_totalCount hmost
  have hbound := totalCount.toNat_lt
  change (crew.shared + 1).toNat = ∑ k, (Function.update crew.locals i _ k).toNat
  rw [UInt64.toNat_add, UInt64.toNat_one, Nat.mod_eq_of_lt (by omega)]
  omega

theorem counted_of_reachable {crew : Crew nthreads.toNat UInt64 UInt64}
    (hcrew : (atomicBench nthreads totalCount).program.system.Reachable crew) :
    Counted nthreads totalCount crew := by
  apply hcrew.invariant (motive := Counted nthreads totalCount)
  · rintro crew ⟨hcounter, hlocals⟩
    have hlocals : crew.locals = fun _ => 0 := hlocals
    have hcounter : crew.shared = 0 := hcounter
    constructor
    · simp [hcounter, hlocals]
    · intro i
      rw [hlocals]
      exact UInt64.le_iff_toNat_le.mpr (Nat.zero_le _)
  · intro crew move crew' _ hcounted hstep
    exact hcounted.preserved hstep

theorem Counted.eq_totalCount {crew : Crew nthreads.toNat UInt64 UInt64}
    (hcounted : Counted nthreads totalCount crew) (hdivides : totalCount % nthreads = 0)
    (hended : ∀ i, (atomicBench nthreads totalCount).program.ended (crew.locals i) = true) :
    crew.shared = totalCount := by
  have hall : ∀ i, (crew.locals i).toNat = totalCount.toNat / nthreads.toNat := by
    intro i
    have hleft : ¬ crew.locals i < totalCount / nthreads := by
      simpa [atomicBench] using hended i
    rw [← UInt64.toNat_div]
    exact le_antisymm (UInt64.le_iff_toNat_le.mp (hcounted.most i))
      (UInt64.le_iff_toNat_le.mp (UInt64.not_lt.mp hleft))
  apply UInt64.toNat.inj
  calc
    crew.shared.toNat = ∑ i, (crew.locals i).toNat := hcounted.sum
    _ = nthreads.toNat * (totalCount.toNat / nthreads.toNat) := by simp [hall]
    _ = totalCount.toNat := Nat.mul_div_cancel' (dvd_of_mod_eq_zero hdivides)

end Counter

theorem timed_window :
    (∀ args opDryRun accessOffset, ∀ c,
      (pmem2bench args opDryRun accessOffset).machine.Reachable c →
      WindowOk _ c ∧ (args.nthreads.toNat + 1 < 2 ^ 64 → NoWrap _ c)) ∧
    (∀ invocation, ∀ c, (pmemobjbench invocation).machine.Reachable c →
      WindowOk _ c ∧ (invocation.args.nthreads.toNat + 1 < 2 ^ 64 → NoWrap _ c)) ∧
    ∀ nthreads totalCount, ∀ c, (atomicBench nthreads totalCount).machine.Reachable c →
      WindowOk _ c ∧ (nthreads.toNat + 1 < 2 ^ 64 → NoWrap _ c) ∧
      (totalCount % nthreads = 0 → c.frozen = true → c.crew.shared = totalCount) := by
  refine ⟨?_, ?_, ?_⟩
  · intro args opDryRun accessOffset c hc
    exact ⟨windowOk_of_reachable hc, noWrap_of_reachable hc⟩
  · intro invocation c hc
    exact ⟨windowOk_of_reachable hc, noWrap_of_reachable hc⟩
  · intro nthreads totalCount c hc
    refine ⟨windowOk_of_reachable hc, noWrap_of_reachable hc, fun hdivides hfrozen => ?_⟩
    have hcounted := counted_of_reachable (crew_reachable hc)
    exact hcounted.eq_totalCount hdivides ((windowOk_of_reachable hc).done hfrozen)

/-- One thread fewer than the barriers' counter can hold. -/
def allThreads : UInt64 := 18446744073709551615

theorem not_noWrap_allThreads : ¬ ∀ nthreads totalCount : UInt64, 0 < nthreads →
    totalCount % nthreads = 0 → ∀ c, (atomicBench nthreads totalCount).machine.Reachable c →
      NoWrap _ c := by
  intro hall
  let first : Fin (atomicBench allThreads 0).nthreads.toNat := ⟨0, by decide⟩
  obtain ⟨c, hexecute, hlocked, hzero⟩ : ∃ c,
      System.execute (atomicBench allThreads 0).step ((atomicBench allThreads 0).construct 0)
        [.spawn, .arrive (some first), .enter .ready (some first) .lock] = some c ∧
      (c.gates .ready).pcs (some first) = .locked ∧ (c.gates .ready).nthreads = 0 :=
    ⟨_, rfl, rfl, rfl⟩
  have hreachable := reachable_of_execute rfl hexecute
  have hwrap := hall allThreads 0 (by decide) (by decide) c hreachable .ready (some first) _
    (by simp only [Barrier.step, hlocked]; rfl)
  rw [hzero] at hwrap
  exact Nat.succ_ne_zero _ hwrap

def passage {n : Nat} {Label : Type} (gate : Gate) (worker : Thread n) : List (Action n Label) :=
  [(worker, .lock), (worker, .decrement), (worker, .notifyAll), (worker, .test),
    (none, .lock), (none, .decrement), (none, .notifyAll), (none, .test), (none, .unlock),
    (worker, .relock), (worker, .test), (worker, .unlock)].map fun call =>
      .enter gate call.1 call.2

def singleWorker {n : Nat} {Label : Type} (worker : Fin n) (clockSets : Nat)
    (labels : List Label) : List (Action n Label) :=
  .spawn :: .arrive (some worker) :: .arrive none :: passage .ready (some worker) ++
    (List.replicate clockSets .setT0 ++ .arrive (some worker) :: .arrive none ::
      passage .timer (some worker) ++
    (labels.map (.work worker) ++ .arrive (some worker) :: .arrive none ::
      passage .finish (some worker) ++ [.freeze]))

def failingWrite : Invocation where
  args := MappedMemory.smallFile
  opAlloc := false
  accessOffset := [0]
  accepted := MappedMemory.smallFile_accepted
  shuffled := MappedMemory.smallFile_accessOffset

theorem timed_window_singleWorker :
    (∃ c : (pmem2bench MappedMemory.smallFile false [0]).Config, c.frozen = true ∧
      c.log.length = 5 ∧ WindowOk _ c ∧ NoWrap _ c) ∧
    (∃ c : (pmemobjbench failingWrite).Config, c.frozen = true ∧ c.crew.shared.fail = true ∧
      WindowOk _ c ∧ NoWrap _ c) ∧
    ∃ c : (atomicBench 1 2).Config, c.frozen = true ∧ WindowOk _ c ∧ NoWrap _ c ∧
      c.crew.shared = 2 := by
  refine ⟨?_, ?_, ?_⟩
  · obtain ⟨c, hexecute, hfrozen, hlog⟩ : ∃ c,
        System.execute (pmem2bench MappedMemory.smallFile false [0]).step
          ((pmem2bench MappedMemory.smallFile false [0]).construct ())
          (singleWorker ⟨0, by decide⟩ 2 [0, 1]) = some c ∧
        c.frozen = true ∧ c.log.length = 5 :=
      ⟨_, rfl, rfl, rfl⟩
    have hwindow := timed_window.1 _ _ _ c (reachable_of_execute trivial hexecute)
    exact ⟨c, hfrozen, hlog, hwindow.1, hwindow.2 (by decide)⟩
  · obtain ⟨c, hexecute, hfrozen, hfail⟩ : ∃ c,
        System.execute (pmemobjbench failingWrite).step
          ((pmemobjbench failingWrite).construct ⟨0, false, ⟨[⟨none⟩, ⟨none⟩], ∅⟩, []⟩)
          (singleWorker ⟨0, by decide⟩ 2
            [.xalloc (.failed ⟨-1, by decide⟩), .storeRet, .testRet, .storeFail, .testFail]) =
          some c ∧
        c.frozen = true ∧ c.crew.shared.fail = true :=
      ⟨_, rfl, rfl, rfl⟩
    have hwindow := timed_window.2.1 _ c (reachable_of_execute (And.intro rfl rfl) hexecute)
    exact ⟨c, hfrozen, hfail, hwindow.1, hwindow.2 (by decide)⟩
  · obtain ⟨c, hexecute, hfrozen⟩ : ∃ c,
        System.execute (atomicBench 1 2).step ((atomicBench 1 2).construct 0)
          (singleWorker ⟨0, by decide⟩ 1 [(), ()]) = some c ∧ c.frozen = true :=
      ⟨_, rfl, rfl⟩
    have hwindow := timed_window.2.2 1 2 c (reachable_of_execute rfl hexecute)
    exact ⟨c, hfrozen, hwindow.1, hwindow.2.1 (by decide), hwindow.2.2 (by decide) hfrozen⟩

end SpackPlayground.Timing.Benchmarks
