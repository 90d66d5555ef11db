import SpackPlayground.Library.History
import SpackPlayground.Library.Tally
import SpackPlayground.PmemObjBench.AllocLoop
import SpackPlayground.Striped.Disjointness

/-! Any number of invocations of `pmemobjbench` on one pool file. What a read
finds depends on all invocations before it. -/
namespace SpackPlayground.PmemObjBench.Invocations

open Library.History Library.Tally Library.Transition Striped.Layout Striped.Disjointness
open Timing.Workers Objects AllocLoop

def newPool : Pool := ⟨[], ∅⟩

/-- The pool file, and the process that has opened it. `log` records what all
invocations have done. -/
inductive State where
  | down (file : Option Pool) (log : List Event)
  /-- Before the transaction that resizes the vector. -/
  | opened (invocation : Invocation) (pool : Pool) (log : List Event)
  | running (invocation : Invocation) (crew : Crew invocation.args.nthreads.toNat Shared Local)

def State.pool : State → Pool
  | .down file _ => file.getD newPool
  | .opened _ pool _ => pool
  | .running _ crew => crew.shared.pool

def State.log : State → List Event
  | .down _ log | .opened _ _ log => log
  | .running _ crew => crew.shared.log

inductive Action where
  | invoke (invocation : Invocation)
  /-- `ret` is not initialised. -/
  | resize (ret : Int)
  | work (i : Nat) (label : Label)
  /-- The process ends: it returns, an exception stops it, or it is killed. -/
  | stop

def launch (invocation : Invocation) (ret : Int) (pool : Pool) (log : List Event) :
    Crew invocation.args.nthreads.toNat Shared Local where
  shared :=
    { ret := ret
      fail := false
      pool := { pool with objs := resize pool.objs (nobjects invocation.args).toNat }
      log := log ++ [.resized (nobjects invocation.args).toNat] }
  locals := (program invocation).start

def step (s : State) (action : Action) : Option State :=
  match s, action with
  | .down file log, .invoke invocation => some (.opened invocation (file.getD newPool) log)
  | .opened invocation pool log, .resize ret =>
      some (.running invocation (launch invocation ret pool log))
  | .opened _ pool log, .stop => some (.down (some pool) log)
  | .running invocation crew, .work i label =>
      if h : i < invocation.args.nthreads.toNat then
        (crew.work (program invocation) ⟨i, h⟩ label).map (.running invocation)
      else none
  | .running _ crew, .stop => some (.down (some crew.shared.pool) crew.shared.log)
  | _, _ => none

def machine : System State Action where
  init s := s = .down none []
  step s action s' := step s action = some s'

theorem reachable_of_execute {s : State} {actions : List Action}
    (hexecute : System.execute step (.down none []) actions = some s) : machine.Reachable s :=
  ⟨_, actions, rfl, System.run_of_execute (fun _ _ _ hstep => hstep) hexecute⟩

def Touches (k : Nat) : Event → Prop
  | .resized n => n ≤ k
  | .allocated _ blockOfs _ => blockOfs.toNat = k
  | .refused .. | .copied .. => False

def LastAllocated (log : List Event) (k size : Nat) : Prop :=
  ∃ i blockOfs, Latest (Touches k) log (.allocated i blockOfs size)

theorem lastAllocated_append_singleton {log : List Event} {event : Event} {k size : Nat} :
    LastAllocated (log ++ [event]) k size ↔
      (∃ i blockOfs, event = .allocated i blockOfs size ∧ blockOfs.toNat = k) ∨
      (¬ Touches k event ∧ LastAllocated log k size) := by
  unfold LastAllocated
  simp only [latest_append_singleton]
  constructor
  · intro hlast
    obtain ⟨i, blockOfs, ⟨rfl, htouches⟩ | ⟨hnot, hlatest⟩⟩ := hlast
    · exact .inl ⟨i, blockOfs, rfl, htouches⟩
    · exact .inr ⟨hnot, i, blockOfs, hlatest⟩
  · intro hcases
    cases hcases with
    | inl hnew =>
        obtain ⟨i, blockOfs, rfl, htouches⟩ := hnew
        exact ⟨i, blockOfs, .inl ⟨rfl, htouches⟩⟩
    | inr hold =>
        obtain ⟨hnot, i, blockOfs, hlatest⟩ := hold
        exact ⟨i, blockOfs, .inr ⟨hnot, hlatest⟩⟩

def LiveCopy : Event → Prop
  | .copied _ _ size found => ∃ live, found = some live ∧ size ≤ live
  | _ => True

/-- The block of a copy was allocated before, large enough, and its element has
not been allocated again or dropped since. -/
def Written (before : List Event) : Event → Prop
  | .copied _ blockOfs size _ => ∃ live, LastAllocated before blockOfs.toNat live ∧ size ≤ live
  | _ => True

section Pools

variable {pool : Pool} {blockOfs : UInt64} {addr : Addr} {size : Nat}

/-- No element points to a block that was never allocated; nothing is freed. -/
def Grounded (pool : Pool) : Prop :=
  ∀ (k : Nat) (addr : Addr), pool.objs[k]? = some ⟨some addr⟩ → addr ∈ pool.heap

theorem liveSize_eq_some_iff {k : Nat} : liveSize pool k = some size ↔
    ∃ addr, pool.objs[k]? = some ⟨some addr⟩ ∧ pool.heap.lookup addr = some size := by
  unfold liveSize
  rw [Option.bind_eq_some_iff]
  refine exists_congr fun addr => and_congr_left fun _ => ?_
  rw [Option.bind_eq_some_iff]
  constructor
  · rintro ⟨⟨data⟩, hobj, rfl⟩
    exact hobj
  · intro hobj
    exact ⟨_, hobj, rfl⟩

theorem getElem?_resize (objs : List Object) (n k : Nat) (addr : Addr) :
    (resize objs n)[k]? = some ⟨some addr⟩ ↔ k < n ∧ objs[k]? = some ⟨some addr⟩ := by
  unfold resize
  by_cases hold : k < (objs.take n).length
  · have hk := List.length_take ▸ hold
    rw [List.getElem?_append_left hold, List.getElem?_take]
    simp [show k < n by omega]
  · rw [List.getElem?_append_right (Nat.le_of_not_lt hold), List.getElem?_replicate]
    rw [List.length_take] at hold
    constructor
    · intro hnull
      split at hnull <;> cases hnull
    · intro hobj
      have hk := (List.getElem?_eq_some_iff.mp hobj.2).1
      omega

theorem Grounded.resize (hpool : Grounded pool) (n : Nat) :
    Grounded { pool with objs := resize pool.objs n } := by
  intro k addr hobj
  exact hpool k addr ((getElem?_resize ..).mp hobj).2

private theorem liveSize_resize {n k : Nat} :
    liveSize { pool with objs := resize pool.objs n } k = some size ↔
      k < n ∧ liveSize pool k = some size := by
  simp only [liveSize_eq_some_iff, getElem?_resize, and_assoc, exists_and_left]

theorem Grounded.allocate (hpool : Grounded pool) :
    Grounded (allocate pool blockOfs addr size) := by
  intro k other hobj
  unfold AllocLoop.allocate at hobj ⊢
  rw [Finmap.mem_insert]
  by_cases hk : blockOfs.toNat = k
  · rw [List.getElem?_set, if_pos hk] at hobj
    split at hobj <;> cases hobj
    exact .inl rfl
  · rw [List.getElem?_set_ne hk] at hobj
    exact .inr (hpool k other hobj)

private theorem liveSize_allocate (hpool : Grounded pool) (hfresh : addr ∉ pool.heap)
    (hblock : blockOfs.toNat < pool.objs.length) {k live : Nat} :
    liveSize (allocate pool blockOfs addr size) k = some live ↔
      (blockOfs.toNat = k ∧ size = live) ∨
      (blockOfs.toNat ≠ k ∧ liveSize pool k = some live) := by
  rw [liveSize_eq_some_iff, liveSize_eq_some_iff]
  unfold AllocLoop.allocate
  by_cases hk : blockOfs.toNat = k
  · subst hk
    simp [List.getElem?_set_self hblock]
  · simp only [List.getElem?_set_ne hk, hk, false_and, false_or, ne_eq, not_false_eq_true,
      true_and]
    refine exists_congr fun other => and_congr_right fun hobj => ?_
    have hother : other ≠ addr := by
      rintro rfl
      exact hfresh (hpool k other hobj)
    rw [Finmap.lookup_insert_of_ne _ hother]

structure Recorded (pool : Pool) (log : List Event) : Prop where
  grounded : Grounded pool
  tracks : ∀ k live, liveSize pool k = some live ↔ LastAllocated log k live
  copies : EachWhen (fun before event => LiveCopy event ↔ Written before event) log

variable {log : List Event}

private theorem recorded_newPool : Recorded newPool [] where
  grounded k addr hobj := by simp [newPool] at hobj
  tracks k live := by
    constructor
    · intro hlive
      simp [newPool, liveSize] at hlive
    · intro hlast
      obtain ⟨_, _, hlatest⟩ := hlast
      exact absurd hlatest not_latest_nil
  copies := eachWhen_nil

theorem Recorded.resize (hpool : Recorded pool log) (n : Nat) :
    Recorded { pool with objs := Objects.resize pool.objs n } (log ++ [.resized n]) where
  grounded := hpool.grounded.resize n
  tracks k live := by
    rw [liveSize_resize, lastAllocated_append_singleton, hpool.tracks]
    simp [Touches]
  copies := hpool.copies.append_singleton Iff.rfl

theorem Recorded.allocate (hpool : Recorded pool log) (hfresh : addr ∉ pool.heap)
    (hblock : blockOfs.toNat < pool.objs.length) (i : Nat) :
    Recorded (AllocLoop.allocate pool blockOfs addr size)
      (log ++ [.allocated i blockOfs size]) where
  grounded := hpool.grounded.allocate
  tracks k live := by
    rw [liveSize_allocate hpool.grounded hfresh hblock, lastAllocated_append_singleton,
      hpool.tracks]
    refine or_congr ?_ Iff.rfl
    constructor
    · rintro ⟨hk, rfl⟩
      exact ⟨i, blockOfs, rfl, hk⟩
    · rintro ⟨_, _, heq, hk⟩
      cases heq
      exact ⟨hk, rfl⟩
  copies := hpool.copies.append_singleton Iff.rfl

theorem Recorded.untouched (hpool : Recorded pool log) {event : Event}
    (hevent : ∀ k, ¬ Touches k event) (hcopy : LiveCopy event ↔ Written log event) :
    Recorded pool (log ++ [event]) where
  grounded := hpool.grounded
  tracks k live := by
    rw [hpool.tracks, lastAllocated_append_singleton]
    constructor
    · exact fun hlast => .inr ⟨hevent k, hlast⟩
    · intro hcases
      cases hcases with
      | inl hnew =>
          obtain ⟨i, block, rfl, hk⟩ := hnew
          exact absurd hk (hevent k)
      | inr hold => exact hold.2
  copies := hpool.copies.append_singleton hcopy

theorem Recorded.copied (hpool : Recorded pool log) (i : Nat) (blockOfs : UInt64) (size : Nat) :
    Recorded pool (log ++ [.copied i blockOfs size (liveSize pool blockOfs.toNat)]) := by
  apply hpool.untouched (fun _ => id)
  unfold LiveCopy Written
  simp only [hpool.tracks]

inductive Changes (pool : Pool) (log : List Event) : Pool → List Event → Prop where
  | same : Changes pool log pool log
  | resized (n : Nat) :
      Changes pool log { pool with objs := resize pool.objs n } (log ++ [.resized n])
  | allocated (i : Nat) (blockOfs : UInt64) (addr : Addr) (size : Nat)
      (hfresh : addr ∉ pool.heap) (hblock : blockOfs.toNat < pool.objs.length) :
      Changes pool log (allocate pool blockOfs addr size) (log ++ [.allocated i blockOfs size])
  | refused (i : Nat) (blockOfs : UInt64) (ret : Int) :
      Changes pool log pool (log ++ [.refused i blockOfs ret])
  | copied (i : Nat) (blockOfs : UInt64) (size : Nat) :
      Changes pool log pool (log ++ [.copied i blockOfs size (liveSize pool blockOfs.toNat)])

variable {pool' : Pool} {log' : List Event}

theorem Recorded.preserved (hpool : Recorded pool log)
    (hchanges : Changes pool log pool' log') : Recorded pool' log' := by
  cases hchanges with
  | same => exact hpool
  | resized n => exact hpool.resize n
  | allocated i blockOfs addr size hfresh hblock => exact hpool.allocate hfresh hblock i
  | refused i blockOfs ret => exact hpool.untouched (fun _ => id) Iff.rfl
  | copied i blockOfs size => exact hpool.copied i blockOfs size

end Pools

/-- While the workers run, the vector has an element for each of their blocks. -/
structure Indexed (invocation : Invocation)
    (crew : Crew invocation.args.nthreads.toNat Shared Local) : Prop where
  length : crew.shared.pool.objs.length = (nobjects invocation.args).toNat
  pending : ∀ i, ∀ blockOfs ∈ (crew.locals i).pending,
    blockOfs.toNat < (nobjects invocation.args).toNat

structure Inv (s : State) : Prop where
  recorded : Recorded s.pool s.log
  indexed : ∀ invocation crew, s = .running invocation crew → Indexed invocation crew

section Steps

variable {invocation : Invocation}

private theorem indexed_launch (ret : Int) (pool : Pool) (log : List Event) :
    Indexed invocation (launch invocation ret pool log) where
  length := length_resize ..
  pending i blockOfs hblock := by
    have hworker : UInt64.ofNat i.val < invocation.args.nthreads := by
      rw [UInt64.lt_iff_toNat_lt, UInt64.toNat_ofNat_of_lt' (i.isLt.trans (UInt64.toNat_lt _))]
      exact i.isLt
    rw [launch, program, pending_atStripes, workerStripes, ← List.flatMap_def] at hblock
    exact UInt64.lt_iff_toNat_lt.mp
      (lt_of_mem_strips invocation.accepted invocation.shuffled hworker hblock)

variable {crew : Crew invocation.args.nthreads.toNat Shared Local}
  {i : Fin invocation.args.nthreads.toNat} {label : Label} {shared' : Shared} {l' : Local}

theorem Indexed.preserved (hindexed : Indexed invocation crew)
    (hmoves : Moves invocation i.val crew.shared (crew.locals i) label shared' l') :
    Indexed invocation ⟨shared', Function.update crew.locals i l'⟩ where
  length := by
    have hsame : shared'.pool.objs.length = crew.shared.pool.objs.length := by
      cases hmoves <;> simp [Shared.record, AllocLoop.allocate]
    exact hsame.trans hindexed.length
  pending := by
    refine forall_update (motive := fun _ (l : Local) =>
      ∀ blockOfs ∈ l.pending, blockOfs.toNat < (nobjects invocation.args).toNat) ?_ fun j _ =>
        hindexed.pending j
    intro blockOfs hblock
    exact hindexed.pending i blockOfs (pending_subset_of_moves hmoves hblock)

private theorem changes_of_moves (hindexed : Indexed invocation crew)
    (hmoves : Moves invocation i.val crew.shared (crew.locals i) label shared' l') :
    Changes crew.shared.pool crew.shared.log shared'.pool shared'.log := by
  have hblock {blockOfs : UInt64} (hpc : (crew.locals i).pc = .atBlock blockOfs) :
      blockOfs.toNat < crew.shared.pool.objs.length := by
    rw [hindexed.length]
    exact hindexed.pending i blockOfs (mem_pending_of_pc hpc)
  cases hmoves with
  | xalloc blockOfs addr hpc hfresh =>
      exact .allocated i blockOfs addr invocation.blockSize hfresh (hblock hpc)
  | makePersistent blockOfs addr hpc hfresh =>
      exact .allocated i blockOfs addr invocation.blockSize hfresh (hblock hpc)
  | refused blockOfs ret hpc => exact .refused i blockOfs ret
  | copy blockOfs hpc _ => exact .copied i blockOfs invocation.blockSize
  | _ => exact .same

theorem changes_of_step {s s' : State} {action : Action}
    (hindexed : ∀ invocation crew, s = .running invocation crew → Indexed invocation crew)
    (hstep : step s action = some s') :
    Changes s.pool s.log s'.pool s'.log ∧
      ∀ invocation crew, s' = .running invocation crew → Indexed invocation crew := by
  unfold step at hstep
  split at hstep
  case h_1 file log invocation =>
      cases hstep
      exact ⟨.same, by simp⟩
  case h_2 invocation pool log ret =>
      cases hstep
      apply And.intro (.resized (nobjects invocation.args).toNat)
      rintro _ _ ⟨⟩
      exact indexed_launch ret pool log
  case h_3 =>
      cases hstep
      exact ⟨.same, by simp⟩
  case h_4 invocation crew i label =>
      split at hstep
      · obtain ⟨crew', hwork, rfl⟩ := Option.map_eq_some_iff.mp hstep
        obtain ⟨shared', l', hlocal, rfl⟩ := work_eq_some_iff.mp hwork
        have hmoves := moves_of_step hlocal
        have hcrew := hindexed invocation crew rfl
        apply And.intro (changes_of_moves hcrew hmoves)
        rintro _ _ ⟨⟩
        exact hcrew.preserved hmoves
      · cases hstep
  case h_5 =>
      cases hstep
      exact ⟨.same, by simp⟩
  case h_6 => cases hstep

end Steps

theorem inv_of_reachable {s : State} (hs : machine.Reachable s) : Inv s := by
  apply hs.invariant (motive := Inv)
  · rintro _ rfl
    exact ⟨recorded_newPool, by simp⟩
  · intro s action s' _ hinv hstep
    have hchanges := changes_of_step hinv.indexed hstep
    exact ⟨hinv.recorded.preserved hchanges.1, hchanges.2⟩

/-- When all reads copy from live blocks that are large enough. -/
theorem reads_live_iff (s : State) (hs : machine.Reachable s) :
    (∀ event ∈ s.log, LiveCopy event) ↔ EachWhen Written s.log :=
  (inv_of_reachable hs).recorded.copies.forall_iff

def twoStripes (opWrite : Bool) : Invocation where
  args := ⟨4096, 4096, 1, 8192, !opWrite, opWrite⟩
  opAlloc := opWrite
  accessOffset := [0]
  accepted := by cases opWrite <;> constructor <;> decide
  shuffled := by cases opWrite <;> unfold AccessOffset <;> decide

theorem not_live_newPool : ¬ ∀ s, machine.Reachable s → ∀ event ∈ s.log, LiveCopy event := by
  intro hall
  obtain ⟨s, hexecute, hlog⟩ : ∃ s,
      System.execute step (.down none [])
        [.invoke (twoStripes false), .resize 0, .work 0 .copy] = some s ∧
      s.log = [.resized 2, .copied 0 0 4096 none] :=
    ⟨_, rfl, rfl⟩
  have hreachable := reachable_of_execute hexecute
  obtain ⟨_, hnone, _⟩ := hall s hreachable (.copied 0 0 4096 none) (by rw [hlog]; simp)
  cases hnone

theorem reads_live_iff_written : ∃ s, machine.Reachable s ∧
    s.log = [.resized 2, .allocated 0 0 4096, .allocated 0 1 4096, .resized 2,
      .copied 0 0 4096 (some 4096), .copied 0 1 4096 (some 4096)] ∧
    EachWhen Written s.log := by
  obtain ⟨s, hexecute, hlog⟩ : ∃ s,
      System.execute step (.down none [])
        [.invoke (twoStripes true), .resize 0, .work 0 (.makePersistent 7), .work 0 .testFail,
          .work 0 (.makePersistent 8), .work 0 .testFail, .stop,
          .invoke (twoStripes false), .resize 0, .work 0 .copy, .work 0 .testFail,
          .work 0 .copy] = some s ∧
      s.log = [.resized 2, .allocated 0 0 4096, .allocated 0 1 4096, .resized 2,
        .copied 0 0 4096 (some 4096), .copied 0 1 4096 (some 4096)] :=
    ⟨_, rfl, rfl⟩
  have hreachable := reachable_of_execute hexecute
  refine ⟨s, hreachable, hlog, (reads_live_iff s hreachable).mp ?_⟩
  rw [hlog]
  simp [LiveCopy]

end SpackPlayground.PmemObjBench.Invocations
