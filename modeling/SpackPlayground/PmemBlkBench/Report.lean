import SpackPlayground.PmemBlkBench.Workers

/-! What `pmemblkbench` reports, and what it leaves in the pool. Other than in
`pmemobjbench` every worker tests the result of its own call. -/
namespace SpackPlayground.PmemBlkBench.Report

open Library.Transition Striped.Layout Striped.Coverage Striped.Disjointness
open Timing.Workers Workers

variable {Block : Type}

def accessesOf (log : List Access) (i : Nat) : List UInt64 :=
  (log.filter fun access => access.worker = i).map Access.blockOfs

def success (shared : Shared Block) : Bool := !shared.fail

/-- Where a worker can stand when it will access nothing more. -/
def Stopped (fail : Bool) : Pc → Prop
  | .atBlock _ => False
  | .failing => True
  | .atStripe | .left => fail = true

structure Course (invocation : Invocation) (i : Nat) (shared : Shared Block) (l : Local Block) :
    Prop where
  went : accessesOf shared.log i ++ l.pending = workerBlocks invocation i ∨
    Stopped shared.fail l.pc ∧ accessesOf shared.log i <+: workerBlocks invocation i
  spent : l.pc = .left → l.pending = []
  behind : (∀ blockOfs, l.pc ≠ .atBlock blockOfs) → l.strip = []
  stopped : ∀ access ∈ shared.log, access.worker = i → access.succeeded = false →
    Stopped shared.fail l.pc
  known : l.pc = .failing → ∃ access ∈ shared.log, access.succeeded = false

/-- A block that no call has failed on holds the data if it has been written. -/
def Contents (opWrite : Bool) (data : Block) (start : UInt64 → Block) (shared : Shared Block) :
    Prop :=
  ∀ block, (∀ access ∈ shared.log, access.blockOfs = block → access.succeeded = true) →
    shared.blocks block =
      if opWrite = true ∧ block ∈ shared.log.map Access.blockOfs then data else start block

structure Inv (invocation : Invocation) (data : Block) (start : UInt64 → Block)
    (crew : Crew invocation.args.nthreads.toNat (Shared Block) (Local Block)) : Prop where
  courses : ∀ i, Course invocation i.val crew.shared (crew.locals i)
  workers : ∀ access ∈ crew.shared.log, access.worker < invocation.args.nthreads.toNat
  known : crew.shared.fail = true → ∃ access ∈ crew.shared.log, access.succeeded = false
  contents : Contents invocation.args.opWrite data start crew.shared
  reads : invocation.args.opWrite = false → crew.shared.blocks = start

section Logs

variable {log : List Access} {access : Access} {i : Nat}

theorem accessesOf_append_of_eq (hworker : access.worker = i) :
    accessesOf (log ++ [access]) i = accessesOf log i ++ [access.blockOfs] := by
  simp [accessesOf, hworker]

theorem accessesOf_append_of_ne (hworker : access.worker ≠ i) :
    accessesOf (log ++ [access]) i = accessesOf log i := by
  simp [accessesOf, hworker]

theorem mem_accessesOf (hmem : access ∈ log) : access.blockOfs ∈ accessesOf log access.worker :=
  List.mem_map_of_mem (List.mem_filter.mpr ⟨hmem, decide_eq_true rfl⟩)

theorem Stopped.mono {fail fail' : Bool} {pc : Pc} (hfail : fail = true → fail' = true)
    (hstopped : Stopped fail pc) : Stopped fail' pc := by
  cases pc with
  | atBlock => exact hstopped
  | failing => trivial
  | atStripe | left => exact hfail hstopped

end Logs

section Courses

variable {invocation : Invocation} {i : Nat} {shared : Shared Block} {l : Local Block}
  {blocks : UInt64 → Block} {blockOfs : UInt64}

theorem Course.frame (hcourse : Course invocation i shared l) {shared' : Shared Block}
    (hfail : shared.fail = true → shared'.fail = true)
    (hlog : shared'.log = shared.log ∨
      ∃ access, access.worker ≠ i ∧ shared'.log = shared.log ++ [access]) :
    Course invocation i shared' l := by
  have haccesses : accessesOf shared'.log i = accessesOf shared.log i := by
    rcases hlog with heq | ⟨access, hworker, heq⟩
    · rw [heq]
    · rw [heq, accessesOf_append_of_ne hworker]
  have hsubset : ∀ access ∈ shared.log, access ∈ shared'.log := by
    intro access hmem
    rcases hlog with heq | ⟨_, _, heq⟩
    · rwa [heq]
    · rw [heq]
      exact List.mem_append_left _ hmem
  have hown : ∀ access ∈ shared'.log, access.worker = i → access ∈ shared.log := by
    intro access hmem hworker
    rcases hlog with heq | ⟨other, hother, heq⟩
    · rwa [heq] at hmem
    · rw [heq, List.mem_append, List.mem_singleton] at hmem
      refine hmem.resolve_right fun hlast => ?_
      exact hother (hlast ▸ hworker)
  refine ⟨?_, hcourse.spent, hcourse.behind, ?_, ?_⟩
  · rw [haccesses]
    exact hcourse.went.imp_right fun hstopped => ⟨hstopped.1.mono hfail, hstopped.2⟩
  · intro access hmem hworker hfailed
    exact (hcourse.stopped access (hown access hmem hworker) hworker hfailed).mono hfail
  · intro hpc
    obtain ⟨access, hmem, hfailed⟩ := hcourse.known hpc
    exact ⟨access, hsubset access hmem, hfailed⟩

theorem Course.pending_of_atBlock (hcourse : Course invocation i shared l)
    (hpc : l.pc = .atBlock blockOfs) :
    accessesOf shared.log i ++ blockOfs :: (l.strip ++ l.stripes.flatten) =
      workerBlocks invocation i := by
  rw [← Workers.pending_of_atBlock hpc]
  refine hcourse.went.resolve_right fun hstopped => ?_
  rw [hpc] at hstopped
  exact hstopped.1

theorem Course.all_succeeded (hcourse : Course invocation i shared l)
    (hpc : ¬ Stopped shared.fail l.pc) :
    ∀ access ∈ shared.log, access.worker = i → access.succeeded = true := by
  intro access hmem hworker
  by_contra hfailed
  exact hpc (hcourse.stopped access hmem hworker (Bool.eq_false_of_not_eq_true hfailed))

theorem atStrip_ne_failing (stripes : List (List UInt64)) (buf : Block) (strip : List UInt64) :
    (atStrip stripes buf strip).pc ≠ .failing := by
  cases strip <;> simp [atStrip]

theorem atStrip_ne_left (stripes : List (List UInt64)) (buf : Block) (strip : List UInt64) :
    (atStrip stripes buf strip).pc ≠ .left := by
  cases strip <;> simp [atStrip]

theorem atStripes_ne_failing (buf : Block) (stripes : List (List UInt64)) :
    (atStripes buf stripes).pc ≠ .failing := by
  cases stripes with
  | nil => simp [atStripes]
  | cons strip rest => exact atStrip_ne_failing rest buf strip

theorem strip_atStrip {stripes : List (List UInt64)} {buf : Block} {strip : List UInt64}
    (hbehind : ∀ blockOfs, (atStrip stripes buf strip).pc ≠ .atBlock blockOfs) :
    (atStrip stripes buf strip).strip = [] := by
  cases strip with
  | nil => rfl
  | cons blockOfs rest => exact absurd rfl (hbehind blockOfs)

theorem strip_atStripes {buf : Block} {stripes : List (List UInt64)}
    (hbehind : ∀ blockOfs, (atStripes buf stripes).pc ≠ .atBlock blockOfs) :
    (atStripes buf stripes).strip = [] := by
  cases stripes with
  | nil => rfl
  | cons strip rest => exact strip_atStrip hbehind

theorem pending_atStripes_of_left {buf : Block} {stripes : List (List UInt64)}
    (hleft : (atStripes buf stripes).pc = .left) : (atStripes buf stripes).pending = [] := by
  cases stripes with
  | nil => rfl
  | cons strip rest => exact absurd hleft (atStrip_ne_left rest buf strip)

theorem Course.succeed (hcourse : Course invocation i shared l)
    (hpc : l.pc = .atBlock blockOfs) (buf : Block) :
    Course invocation i ⟨blocks, shared.fail, shared.log ++ [⟨i, blockOfs, true⟩]⟩
      (atStrip l.stripes buf l.strip) := by
  have hpending := hcourse.pending_of_atBlock hpc
  have hsucceeded := hcourse.all_succeeded (by simp [hpc, Stopped])
  refine ⟨.inl ?_, fun hleft => absurd hleft (atStrip_ne_left _ _ _), strip_atStrip, ?_,
    fun hfailing => absurd hfailing (atStrip_ne_failing _ _ _)⟩
  · rw [accessesOf_append_of_eq rfl, pending_atStrip, List.append_assoc]
    exact hpending
  · intro access hmem hworker hfailed
    rw [List.mem_append, List.mem_singleton] at hmem
    cases hmem with
    | inl hbefore =>
        rw [hsucceeded access hbefore hworker] at hfailed
        cases hfailed
    | inr hlast =>
        rw [hlast] at hfailed
        cases hfailed

theorem Course.fail (hcourse : Course invocation i shared l) (hpc : l.pc = .atBlock blockOfs)
    (buf : Block) :
    Course invocation i ⟨blocks, shared.fail, shared.log ++ [⟨i, blockOfs, false⟩]⟩
      ⟨.failing, [], l.stripes, buf⟩ := by
  have hpending := hcourse.pending_of_atBlock hpc
  refine ⟨.inr ⟨trivial, ?_⟩, nofun, fun _ => rfl, fun _ _ _ _ => trivial, fun _ => ?_⟩
  · rw [accessesOf_append_of_eq rfl, ← hpending]
    exact ⟨_, List.append_assoc ..⟩
  · exact ⟨_, List.mem_append_right _ (List.mem_singleton_self _), rfl⟩

theorem Course.storeFail (hcourse : Course invocation i shared l) (hpc : l.pc = .failing) :
    Course invocation i { shared with fail := true } { l with pc := .atStripe } := by
  have hstrip : l.strip = [] := hcourse.behind (by simp [hpc])
  refine ⟨.inr ⟨rfl, ?_⟩, nofun, fun _ => hstrip, fun _ _ _ _ => rfl, nofun⟩
  cases hcourse.went with
  | inl hall => exact ⟨_, hall⟩
  | inr hstopped => exact hstopped.2

theorem Course.leave (hcourse : Course invocation i shared l) (hfail : shared.fail = true) :
    Course invocation i shared ⟨.left, [], [], l.buf⟩ := by
  refine ⟨.inr ⟨hfail, ?_⟩, fun _ => rfl, fun _ => rfl, fun _ _ _ _ => hfail, nofun⟩
  cases hcourse.went with
  | inl hall => exact ⟨_, hall⟩
  | inr hstopped => exact hstopped.2

theorem Course.goOn (hcourse : Course invocation i shared l) (hpc : l.pc = .atStripe)
    (hfail : shared.fail = false) :
    Course invocation i shared (atStripes l.buf l.stripes) := by
  have hstrip : l.strip = [] := hcourse.behind (by simp [hpc])
  have hnot : ¬ Stopped shared.fail l.pc := by simp [hpc, Stopped, hfail]
  refine ⟨.inl ?_, pending_atStripes_of_left, strip_atStripes, ?_,
    fun hfailing => absurd hfailing (atStripes_ne_failing _ _)⟩
  · have hall := hcourse.went.resolve_right fun hstopped => hnot hstopped.1
    rw [pending_atStripes, ← hall]
    simp [Local.pending, hpc, hstrip]
  · intro access hmem hworker hfailed
    exact absurd (hcourse.stopped access hmem hworker hfailed) hnot

end Courses

section Steps

variable {invocation : Invocation} {data : Block} {start : UInt64 → Block}
  {crew crew' : Crew invocation.args.nthreads.toNat (Shared Block) (Local Block)}
  {i : Fin invocation.args.nthreads.toNat} {label : Label Block}

theorem Contents.access {opWrite : Bool} {shared : Shared Block}
    (hcontents : Contents opWrite data start shared) {blocks : UInt64 → Block} {access : Access}
    (hother : ∀ block, block ≠ access.blockOfs → blocks block = shared.blocks block)
    (hself : access.succeeded = true → blocks access.blockOfs =
      if opWrite = true then data else shared.blocks access.blockOfs) (fail : Bool) :
    Contents opWrite data start ⟨blocks, fail, shared.log ++ [access]⟩ := by
  intro block hsucceeded
  have hbefore := hcontents block fun earlier hmem =>
    hsucceeded earlier (List.mem_append_left _ hmem)
  dsimp only
  by_cases heq : block = access.blockOfs
  · subst heq
    rw [hself (hsucceeded access (List.mem_append_right _ (List.mem_singleton_self _)) rfl)]
    cases opWrite with
    | true => simp
    | false => simpa using hbefore
  · rw [hother block heq, hbefore]
    simp [heq]

theorem written_of_ne {opWrite : Bool} {blocks : UInt64 → Block} {blockOfs block : UInt64}
    (hne : block ≠ blockOfs) (x : Block) :
    written opWrite blocks blockOfs x block = blocks block := by
  unfold written
  split
  · exact Function.update_of_ne hne ..
  · rfl

private theorem written_self (opWrite : Bool) (blocks : UInt64 → Block) (blockOfs : UInt64)
    (x : Block) :
    written opWrite blocks blockOfs x blockOfs = if opWrite then x else blocks blockOfs := by
  unfold written
  split
  · exact Function.update_self ..
  · rfl

theorem Inv.courses_moved (hinv : Inv invocation data start crew) {shared : Shared Block}
    {l : Local Block} (hself : Course invocation i.val shared l)
    (hfail : crew.shared.fail = true → shared.fail = true)
    (hlog : shared.log = crew.shared.log ∨
      ∃ access, access.worker = i.val ∧ shared.log = crew.shared.log ++ [access])
    (j : Fin invocation.args.nthreads.toNat) :
    Course invocation j.val shared (Function.update crew.locals i l j) := by
  by_cases hj : j = i
  · subst hj
    rwa [Function.update_self]
  · rw [Function.update_of_ne hj]
    refine (hinv.courses j).frame hfail (hlog.imp_right ?_)
    rintro ⟨access, hworker, heq⟩
    refine ⟨access, fun hsame => hj (Fin.ext ?_), heq⟩
    rw [← hsame, hworker]

theorem Inv.workers_append (hinv : Inv invocation data start crew) {access : Access}
    (hworker : access.worker = i.val) :
    ∀ other ∈ crew.shared.log ++ [access], other.worker < invocation.args.nthreads.toNat := by
  intro other hmem
  rw [List.mem_append, List.mem_singleton] at hmem
  cases hmem with
  | inl hbefore => exact hinv.workers other hbefore
  | inr hlast =>
      rw [hlast, hworker]
      exact i.isLt

theorem Inv.known_append (hinv : Inv invocation data start crew) (access : Access)
    (hfail : crew.shared.fail = true) :
    ∃ other ∈ crew.shared.log ++ [access], other.succeeded = false := by
  obtain ⟨other, hmem, hfailed⟩ := hinv.known hfail
  exact ⟨other, List.mem_append_left _ hmem, hfailed⟩

theorem Inv.preserved (hinv : Inv invocation data start crew)
    (hwork : crew.work (program invocation data start) i label = some crew') :
    Inv invocation data start crew' := by
  obtain ⟨shared, l, hstep, rfl⟩ := work_eq_some_iff.mp hwork
  have hcourse := hinv.courses i
  cases moves_of_step hstep with
  | succeed blockOfs hpc haccepts =>
      refine ⟨hinv.courses_moved (hcourse.succeed hpc _) id (.inr ⟨_, rfl, rfl⟩),
        hinv.workers_append rfl, hinv.known_append _, ?_, ?_⟩
      · exact hinv.contents.access (fun block hne => written_of_ne hne _)
          (fun _ => written_self _ _ _ _) _
      · intro hread
        simp only [written, hread, Bool.false_eq_true, if_false]
        exact hinv.reads hread
  | fail blockOfs left hpc =>
      refine ⟨hinv.courses_moved (hcourse.fail hpc _) id (.inr ⟨_, rfl, rfl⟩),
        hinv.workers_append rfl, hinv.known_append _, ?_, ?_⟩
      · refine hinv.contents.access (fun block hne => ?_)
          (fun hsucceeded => absurd hsucceeded Bool.false_ne_true) _
        split
        · exact written_of_ne hne _
        · rfl
      · intro hread
        simp only [written, hread, Bool.false_eq_true, if_false, ite_self]
        exact hinv.reads hread
  | storeFail hpc =>
      exact ⟨hinv.courses_moved (hcourse.storeFail hpc) (fun _ => rfl) (.inl rfl), hinv.workers,
        fun _ => hcourse.known hpc, hinv.contents, hinv.reads⟩
  | leave hpc hfail =>
      exact ⟨hinv.courses_moved (hcourse.leave hfail) id (.inl rfl), hinv.workers, hinv.known,
        hinv.contents, hinv.reads⟩
  | goOn hpc hfail =>
      exact ⟨hinv.courses_moved (hcourse.goOn hpc hfail) id (.inl rfl), hinv.workers, hinv.known,
        hinv.contents, hinv.reads⟩

theorem inv_of_reachable (hs : (program invocation data start).system.Reachable crew) :
    Inv invocation data start crew := by
  apply hs.invariant (motive := Inv invocation data start)
  · rintro crew ⟨hshared, hlocals⟩
    refine ⟨fun i => ?_, ?_, ?_, ?_, ?_⟩ <;> rw [show crew.shared = ⟨start, false, []⟩ from hshared]
    · rw [hlocals]
      refine ⟨.inl ?_, pending_atStripes_of_left, strip_atStripes, nofun,
        fun hfailing => absurd hfailing (atStripes_ne_failing _ _)⟩
      exact pending_atStripes data (workerStripes invocation (.ofNat i.val))
    · exact nofun
    · exact nofun
    · intro block _
      simp
    · exact fun _ => rfl
  · intro crew move crew' _ hinv hstep
    exact hinv.preserved hstep

end Steps

section Joined

variable {invocation : Invocation} {data : Block} {start : UInt64 → Block}
  {crew : Crew invocation.args.nthreads.toNat (Shared Block) (Local Block)}

theorem workerBlocks_eq (invocation : Invocation) (i : Nat) : workerBlocks invocation i =
    (iota invocation.args.stripeCount).flatMap
      (stripBlocks invocation.args invocation.accessOffset (.ofNat i)) :=
  (List.flatMap_def ..).symm

theorem Inv.accessesOf_subset (hinv : Inv invocation data start crew)
    (i : Fin invocation.args.nthreads.toNat) :
    accessesOf crew.shared.log i.val ⊆ workerBlocks invocation i.val := by
  cases (hinv.courses i).went with
  | inl hall =>
      rw [← hall]
      exact List.subset_append_left _ _
  | inr hstopped => exact hstopped.2.subset

theorem Inv.validBlock (hinv : Inv invocation data start crew) {access : Access}
    (hmem : access ∈ crew.shared.log) : invocation.pool.ValidBlock access.blockOfs := by
  have hworker := hinv.workers access hmem
  have hblock : access.blockOfs ∈ pmemblkbenchAccesses invocation.args invocation.accessOffset
      flawless (.ofNat access.worker) := by
    rw [pmemblkbenchAccesses_eq]
    dsimp only
    rw [← workerBlocks_eq]
    exact hinv.accessesOf_subset ⟨access.worker, hworker⟩ (mem_accessesOf hmem)
  refine pmemblkbench_valid invocation.accepted invocation.shuffled invocation.opened
    invocation.checked flawless ?_ hblock
  rwa [UInt64.lt_iff_toNat_lt,
    UInt64.toNat_ofNat_of_lt' (hworker.trans invocation.args.nthreads.toNat_lt)]

theorem Inv.success_iff (hinv : Inv invocation data start crew)
    (hleft : ∀ i, (crew.locals i).pc = .left) :
    success crew.shared = true ↔ ∀ access ∈ crew.shared.log, access.succeeded = true := by
  unfold success
  rw [Bool.not_eq_true']
  constructor
  · intro hfail access hmem
    by_contra hfailed
    have hworker := hinv.workers access hmem
    have hstopped := (hinv.courses ⟨access.worker, hworker⟩).stopped access hmem rfl
      (Bool.eq_false_of_not_eq_true hfailed)
    rw [hleft, hfail] at hstopped
    exact Bool.false_ne_true hstopped
  · intro hsucceeded
    by_contra hfail
    obtain ⟨access, hmem, hfailed⟩ := hinv.known (Bool.eq_true_of_not_eq_false hfail)
    rw [hsucceeded access hmem] at hfailed
    cases hfailed

theorem Inv.accessesOf_eq (hinv : Inv invocation data start crew)
    (hleft : ∀ i, (crew.locals i).pc = .left) (hsuccess : success crew.shared = true)
    (i : Fin invocation.args.nthreads.toNat) :
    accessesOf crew.shared.log i.val = workerBlocks invocation i.val := by
  have hcourse := hinv.courses i
  have hfail : crew.shared.fail = false := by simpa [success] using hsuccess
  have hall := hcourse.went.resolve_right fun hstopped => by
    have hstopped := hstopped.1
    rw [hleft, hfail] at hstopped
    exact Bool.false_ne_true hstopped
  rwa [hcourse.spent (hleft i), List.append_nil] at hall

theorem Inv.mem_log_iff (hinv : Inv invocation data start crew)
    (hleft : ∀ i, (crew.locals i).pc = .left) (hsuccess : success crew.shared = true)
    (block : UInt64) : block ∈ crew.shared.log.map Access.blockOfs ↔
      ∃ i < invocation.args.nthreads.toNat, block ∈ workerBlocks invocation i := by
  constructor
  · intro hblock
    obtain ⟨access, hmem, rfl⟩ := List.mem_map.mp hblock
    have hworker := hinv.workers access hmem
    exact ⟨_, hworker, hinv.accessesOf_subset ⟨_, hworker⟩ (mem_accessesOf hmem)⟩
  · rintro ⟨i, hi, hblock⟩
    rw [← hinv.accessesOf_eq hleft hsuccess ⟨i, hi⟩] at hblock
    obtain ⟨access, hmem, rfl⟩ := List.mem_map.mp hblock
    exact List.mem_map_of_mem (List.mem_of_mem_filter hmem)

theorem Inv.blocks_eq (hinv : Inv invocation data start crew)
    (hleft : ∀ i, (crew.locals i).pc = .left) (hsuccess : success crew.shared = true)
    (hwrite : invocation.args.opWrite = true) (block : UInt64) :
    ((∃ i < invocation.args.nthreads.toNat, block ∈ workerBlocks invocation i) →
      crew.shared.blocks block = data) ∧
    ((∀ i < invocation.args.nthreads.toNat, block ∉ workerBlocks invocation i) →
      crew.shared.blocks block = start block) := by
  have hcontents := hinv.contents block fun access hmem _ =>
    (hinv.success_iff hleft).mp hsuccess access hmem
  have hmem := hinv.mem_log_iff hleft hsuccess block
  constructor
  · intro hblock
    rw [hcontents, if_pos ⟨hwrite, hmem.mpr hblock⟩]
  · intro hblock
    rw [hcontents, if_neg]
    rintro ⟨_, hlogged⟩
    obtain ⟨i, hi, hworker⟩ := hmem.mp hlogged
    exact hblock i hi hworker

private theorem exists_workerBlocks (invocation : Invocation)
    (hwhole : invocation.args.stripUnitSize % invocation.args.blockSize = 0) {block : UInt64}
    (hblock : block < invocation.args.totalSize / invocation.args.blockSize) :
    ∃ i < invocation.args.nthreads.toNat, block ∈ workerBlocks invocation i := by
  have hfill := (units_fill_iff invocation.accepted).mpr hwhole
  have htotal : 0 < invocation.args.totalSize := by
    rw [UInt64.lt_iff_toNat_lt, UInt64.toNat_div] at hblock
    exact UInt64.lt_iff_toNat_lt.mpr
      ((Nat.zero_le _).trans_lt (hblock.trans_le (Nat.div_le_self _ _)))
  obtain ⟨i, hi, hmem⟩ :=
    (every_iff invocation.accepted htotal invocation.shuffled).mpr hfill block hblock
  refine ⟨i.toNat, UInt64.lt_iff_toNat_lt.mp hi, ?_⟩
  rwa [workerBlocks_eq, UInt64.ofNat_toNat]

/-- What a run of `pmemblkbench` reports, and what it leaves in the pool. -/
theorem run_reported (invocation : Invocation) (data : Block) (start : UInt64 → Block)
    (crew : Crew invocation.args.nthreads.toNat (Shared Block) (Local Block))
    (hs : (program invocation data start).system.Reachable crew) :
    (∀ access ∈ crew.shared.log, invocation.pool.ValidBlock access.blockOfs) ∧
    (invocation.args.opWrite = false → crew.shared.blocks = start) ∧
    ((∀ i, (crew.locals i).pc = .left) →
      (success crew.shared = true ↔ ∀ access ∈ crew.shared.log, access.succeeded = true) ∧
      (success crew.shared = true →
        (∀ i < invocation.args.nthreads.toNat,
          accessesOf crew.shared.log i = workerBlocks invocation i) ∧
        (invocation.args.opWrite = true →
          (∀ block, (∀ i < invocation.args.nthreads.toNat, block ∉ workerBlocks invocation i) →
            crew.shared.blocks block = start block) ∧
          (∀ i < invocation.args.nthreads.toNat, ∀ block ∈ workerBlocks invocation i,
            crew.shared.blocks block = data) ∧
          (invocation.args.stripUnitSize % invocation.args.blockSize = 0 →
            ∀ block < invocation.args.totalSize / invocation.args.blockSize,
              crew.shared.blocks block = data)))) := by
  have hinv := inv_of_reachable hs
  refine ⟨fun access hmem => hinv.validBlock hmem, hinv.reads, fun hleft =>
    ⟨hinv.success_iff hleft, fun hsuccess => ⟨fun i hi => ?_, fun hwrite => ⟨?_, ?_, ?_⟩⟩⟩⟩
  · exact hinv.accessesOf_eq hleft hsuccess ⟨i, hi⟩
  · intro block hblock
    exact (hinv.blocks_eq hleft hsuccess hwrite block).2 hblock
  · intro i hi block hblock
    exact (hinv.blocks_eq hleft hsuccess hwrite block).1 ⟨i, hi, hblock⟩
  · intro hwhole block hblock
    have hexists := exists_workerBlocks invocation hwhole hblock
    exact (hinv.blocks_eq hleft hsuccess hwrite block).1 hexists

end Joined

def twoBlocks : Args where
  blockSize := 512
  stripeSize := 1024
  nthreads := 2
  totalSize := 1024
  opRead := false
  opWrite := true

def twoWriters : Invocation where
  args := twoBlocks
  accessOffset := [0]
  pool := ⟨512, 2, 1024, by decide, by decide⟩
  accepted := by constructor <;> decide
  shuffled := by unfold AccessOffset; decide
  opened := rfl
  checked := by decide

def twoWritersCrew : Crew twoWriters.args.nthreads.toNat (Shared Nat) (Local Nat) :=
  ⟨⟨fun _ => 0, false, []⟩, (program twoWriters 7 fun _ => 0).start⟩

theorem run_reported_twoWriters : ∃ crew,
    (program twoWriters 7 fun _ => 0).system.Reachable crew ∧
    success crew.shared = true ∧ (∀ access ∈ crew.shared.log, access.succeeded = true) ∧
    ∀ block < twoWriters.args.totalSize / twoWriters.args.blockSize,
      crew.shared.blocks block = 7 := by
  let first : Fin twoWriters.args.nthreads.toNat := ⟨0, by decide⟩
  let second : Fin twoWriters.args.nthreads.toNat := ⟨1, by decide⟩
  obtain ⟨crew, hexecute, hleft, hfail⟩ : ∃ crew,
      System.execute (fun crew move => crew.work (program twoWriters 7 fun _ => 0) move.1 move.2)
        twoWritersCrew
        [(second, .succeed), (first, .succeed), (first, .testFail), (second, .testFail)] =
        some crew ∧
      (∀ i, (crew.locals i).pc = .left) ∧ crew.shared.fail = false :=
    ⟨_, rfl, by decide, rfl⟩
  have hreachable := reachable_of_execute ⟨rfl, rfl⟩ hexecute
  have hsuccess : success crew.shared = true := by rw [success, hfail]; rfl
  obtain ⟨_, _, hjoined⟩ := run_reported twoWriters 7 (fun _ => 0) crew hreachable
  obtain ⟨hreported, hdone⟩ := hjoined hleft
  exact ⟨crew, hreachable, hsuccess, hreported.mp hsuccess,
    ((hdone hsuccess).2 rfl).2.2 (by decide)⟩

end SpackPlayground.PmemBlkBench.Report
