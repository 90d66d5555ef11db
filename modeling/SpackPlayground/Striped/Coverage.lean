import SpackPlayground.Striped.Layout

/-! The worker loops, and which blocks they reach. The loops reach every block
only when the unit of a worker is a whole number of blocks, which the argument
check does not ask for. -/
namespace SpackPlayground.Striped.Coverage

open Library.Striping Layout

/-- What a worker is told by the outside: whether an access succeeds, and what
`fail.load` returns at the end of a stripe. -/
structure Answers where
  io : UInt64 → Bool
  fail : UInt64 → Bool

def flawless : Answers := ⟨fun _ => true, fun _ => false⟩

def stripBlocks (args : Args) (accessOffset : List UInt64) (i stripe : UInt64) : List UInt64 :=
  (iota args.blocksInStripUnit).map (blockOfs args accessOffset i stripe)

/-- The loop over `j`, left by `break` at the first failure. -/
def unitLoop (io : UInt64 → Bool) : List UInt64 → List UInt64
  | [] => []
  | blockOfs :: rest => blockOfs :: if io blockOfs then unitLoop io rest else []

/-- The loop over `stripe`, left by `break` when `fail` is set. -/
def stripeLoop (answers : Answers) (blocks : UInt64 → List UInt64) : List UInt64 → List UInt64
  | [] => []
  | stripe :: rest =>
      unitLoop answers.io (blocks stripe) ++
        if answers.fail stripe then [] else stripeLoop answers blocks rest

/-- The blocks that worker `i` of `pmem2bench` accesses. Its loops have no way
out, and with `--dry-run` they access nothing. -/
def pmem2benchAccesses (args : Args) (opDryRun : Bool) (accessOffset : List UInt64)
    (i : UInt64) : List UInt64 :=
  if opDryRun then [] else (iota args.stripeCount).flatMap (stripBlocks args accessOffset i)

def pmemblkbenchAccesses (args : Args) (accessOffset : List UInt64) (answers : Answers)
    (i : UInt64) : List UInt64 :=
  stripeLoop answers (stripBlocks args accessOffset i) (iota args.stripeCount)

/-- The blocks that worker `i` of `pmemobjbench` accesses. Its reads are plain
copies that cannot fail. -/
def pmemobjbenchAccesses (args : Args) (accessOffset : List UInt64) (answers : Answers)
    (i : UInt64) : List UInt64 :=
  stripeLoop { answers with io := fun blockOfs => !args.opWrite || answers.io blockOfs }
    (stripBlocks args accessOffset i) (iota args.stripeCount)

/-- What the reported throughput takes for granted. -/
structure Covers (args : Args) (accesses : UInt64 → List UInt64) : Prop where
  every : ∀ block < args.totalSize / args.blockSize, ∃ i < args.nthreads, block ∈ accesses i
  bytes : ((iota args.nthreads).map fun i =>
    (accesses i).length * args.blockSize.toNat).sum = args.totalSize.toNat

section Loops

variable {answers : Answers}

private theorem unitLoop_subset (io : UInt64 → Bool) (blocks : List UInt64) :
    unitLoop io blocks ⊆ blocks := by
  induction blocks with
  | nil => exact List.Subset.refl []
  | cons blockOfs rest ih =>
      unfold unitLoop
      split
      · exact List.cons_subset_cons blockOfs ih
      · exact List.cons_subset_cons blockOfs (List.nil_subset rest)

theorem stripeLoop_subset (blocks : UInt64 → List UInt64) (stripes : List UInt64) :
    stripeLoop answers blocks stripes ⊆ stripes.flatMap blocks := by
  induction stripes with
  | nil => exact List.Subset.refl []
  | cons stripe rest ih =>
      unfold stripeLoop
      rw [List.flatMap_cons]
      refine List.append_subset.mpr
        ⟨List.Subset.trans (unitLoop_subset _ _) (List.subset_append_left _ _), ?_⟩
      split
      · exact List.nil_subset _
      · exact List.Subset.trans ih (List.subset_append_right _ _)

private theorem unitLoop_flawless {io : UInt64 → Bool} (hio : ∀ blockOfs, io blockOfs = true)
    (blocks : List UInt64) : unitLoop io blocks = blocks := by
  induction blocks with
  | nil => rfl
  | cons blockOfs rest ih =>
      unfold unitLoop
      rw [if_pos (hio blockOfs), ih]

theorem stripeLoop_flawless (hio : ∀ blockOfs, answers.io blockOfs = true)
    (hfail : ∀ stripe, answers.fail stripe = false) (blocks : UInt64 → List UInt64)
    (stripes : List UInt64) : stripeLoop answers blocks stripes = stripes.flatMap blocks := by
  induction stripes with
  | nil => rfl
  | cons stripe rest ih =>
      unfold stripeLoop
      rw [unitLoop_flawless hio, hfail, ih, List.flatMap_cons]
      rfl

end Loops

section Programs

variable {args : Args} {accessOffset : List UInt64}

theorem mem_strips_iff {i block : UInt64} :
    block ∈ (iota args.stripeCount).flatMap (stripBlocks args accessOffset i) ↔
      ∃ stripe < args.stripeCount, ∃ j < args.blocksInStripUnit,
        blockOfs args accessOffset i stripe j = block := by
  simp only [List.mem_flatMap, mem_iota, stripBlocks, List.mem_map]

theorem pmemblkbenchAccesses_subset (answers : Answers) (i : UInt64) :
    pmemblkbenchAccesses args accessOffset answers i ⊆
      (iota args.stripeCount).flatMap (stripBlocks args accessOffset i) :=
  stripeLoop_subset _ _

theorem pmemobjbenchAccesses_subset (answers : Answers) (i : UInt64) :
    pmemobjbenchAccesses args accessOffset answers i ⊆
      (iota args.stripeCount).flatMap (stripBlocks args accessOffset i) :=
  stripeLoop_subset _ _

theorem pmem2benchAccesses_eq : pmem2benchAccesses args false accessOffset =
    fun i => (iota args.stripeCount).flatMap (stripBlocks args accessOffset i) := rfl

theorem pmemblkbenchAccesses_eq : pmemblkbenchAccesses args accessOffset flawless =
    fun i => (iota args.stripeCount).flatMap (stripBlocks args accessOffset i) := by
  funext i
  exact stripeLoop_flawless (fun _ => rfl) (fun _ => rfl) _ _

private theorem pmemobjbenchAccesses_eq : pmemobjbenchAccesses args accessOffset flawless =
    fun i => (iota args.stripeCount).flatMap (stripBlocks args accessOffset i) := by
  funext i
  exact stripeLoop_flawless (fun _ => Bool.or_true _) (fun _ => rfl) _ _

private theorem length_strips (i : UInt64) :
    ((iota args.stripeCount).flatMap (stripBlocks args accessOffset i)).length =
      args.stripeCount.toNat * args.blocksInStripUnit.toNat := by
  simp [stripBlocks, List.length_flatMap]

theorem units_fill_iff (hargs : args.Accepted) :
    args.nthreads.toNat * args.blocksInStripUnit.toNat = args.blocksInStripe.toNat ↔
      args.stripUnitSize % args.blockSize = 0 := by
  have hnthreads := hargs.nthreads_pos
  have hmod : args.stripUnitSize % args.blockSize = 0 ↔
      args.blockSize.toNat ∣ args.stripeSize.toNat / args.nthreads.toNat := by
    rw [← UInt64.toNat_inj, UInt64.toNat_mod, Args.stripUnitSize, UInt64.toNat_div]
    exact Nat.dvd_iff_mod_eq_zero.symm
  obtain ⟨unit, hunit⟩ := hargs.sizes.stripeThreads
  have hblock := hargs.sizes.stripeBlock
  rw [hmod, toNat_blocksInStripUnit, toNat_blocksInStripe, hunit,
    Nat.mul_div_cancel_left unit hnthreads]
  rw [hunit] at hblock
  constructor
  · intro hfill
    have hmul := congrArg (· * args.blockSize.toNat) hfill
    simp only [Nat.div_mul_cancel hblock, Nat.mul_assoc] at hmul
    exact ⟨unit / args.blockSize.toNat, by
      rw [Nat.mul_comm, Nat.eq_of_mul_eq_mul_left hnthreads hmul]⟩
  · intro hdvd
    exact (Nat.mul_div_assoc _ hdvd).symm

theorem every_iff (hargs : args.Accepted) (htotal : 0 < args.totalSize)
    (hoffset : AccessOffset args accessOffset) :
    (∀ block < args.totalSize / args.blockSize, ∃ i < args.nthreads,
      block ∈ (iota args.stripeCount).flatMap (stripBlocks args accessOffset i)) ↔
    args.nthreads.toNat * args.blocksInStripUnit.toNat = args.blocksInStripe.toNat := by
  refine Iff.trans ?_ (Geometry.covers_iff (g := args.geometry hargs)
    (hargs.stripeCount_pos htotal))
  constructor
  · intro hevery block hblock
    have hblock : block < args.totalSize.toNat / args.blockSize.toNat :=
      hargs.stripes_mul_stripe ▸ hblock
    have hword : (UInt64.ofNat block).toNat = block :=
      UInt64.toNat_ofNat_of_lt'
        ((hblock.trans_le (Nat.div_le_self _ _)).trans args.totalSize.toNat_lt)
    obtain ⟨i, hi, hmem⟩ := hevery (.ofNat block) (by
      rwa [UInt64.lt_iff_toNat_lt, hword, UInt64.toNat_div])
    obtain ⟨stripe, hstripe, j, hj, heq⟩ := mem_strips_iff.mp hmem
    have hloops : InLoops args i stripe j := ⟨hi, hstripe, hj⟩
    refine ⟨_, _, _, hloops.place hargs hoffset, ?_⟩
    rw [← toNat_blockOfs hargs hoffset hloops, heq, hword]
  · intro hplaces block hblock
    rw [UInt64.lt_iff_toNat_lt, UInt64.toNat_div, ← hargs.stripes_mul_stripe] at hblock
    obtain ⟨worker, s, offset, ⟨hworker, hs, hoff⟩, hindex⟩ := hplaces _ hblock
    have hword {n : Nat} {bound : UInt64} (hn : n < bound.toNat) :
        (UInt64.ofNat n).toNat = n ∧ UInt64.ofNat n < bound := by
      have htoNat := UInt64.toNat_ofNat_of_lt' (hn.trans bound.toNat_lt)
      exact ⟨htoNat, by rwa [UInt64.lt_iff_toNat_lt, htoNat]⟩
    obtain ⟨j, hj, hget⟩ := AccessOffset.exists_getD hoffset (hword hoff).2
    have hloops : InLoops args (.ofNat worker) (.ofNat s) j :=
      ⟨(hword hworker).2, (hword hs).2, hj⟩
    refine ⟨.ofNat worker, hloops.worker, mem_strips_iff.mpr
      ⟨.ofNat s, hloops.stripe, j, hj, UInt64.toNat.inj ?_⟩⟩
    rw [toNat_blockOfs hargs hoffset hloops, hget, (hword hworker).1, (hword hs).1,
      (hword hoff).1, hindex]

private theorem bytes_iff (hargs : args.Accepted) (htotal : 0 < args.totalSize) :
    ((iota args.nthreads).map fun i =>
      ((iota args.stripeCount).flatMap (stripBlocks args accessOffset i)).length *
        args.blockSize.toNat).sum = args.totalSize.toNat ↔
    args.nthreads.toNat * args.blocksInStripUnit.toNat = args.blocksInStripe.toNat := by
  have hblocks : args.totalSize.toNat =
      args.stripeCount.toNat * args.blocksInStripe.toNat * args.blockSize.toNat := by
    rw [hargs.stripes_mul_stripe, Nat.div_mul_cancel hargs.sizes.totalBlock]
  have hmoved : args.nthreads.toNat *
      (args.stripeCount.toNat * args.blocksInStripUnit.toNat * args.blockSize.toNat) =
      args.stripeCount.toNat * (args.nthreads.toNat * args.blocksInStripUnit.toNat) *
        args.blockSize.toNat := by
    ring
  simp only [length_strips, List.map_const', List.sum_replicate_nat, length_iota]
  rw [hblocks, hmoved]
  exact ⟨fun heq => Nat.eq_of_mul_eq_mul_left (hargs.stripeCount_pos htotal)
    (Nat.eq_of_mul_eq_mul_right hargs.blockSize_pos heq), fun heq => by rw [heq]⟩

theorem covers_iff (hargs : args.Accepted) (htotal : 0 < args.totalSize)
    (hoffset : AccessOffset args accessOffset) :
    Covers args (fun i => (iota args.stripeCount).flatMap (stripBlocks args accessOffset i)) ↔
      args.stripUnitSize % args.blockSize = 0 := by
  rw [← units_fill_iff hargs]
  exact ⟨fun hcovers => (every_iff hargs htotal hoffset).mp hcovers.every,
    fun hfill => ⟨(every_iff hargs htotal hoffset).mpr hfill,
      (bytes_iff hargs htotal).mpr hfill⟩⟩

private theorem not_covers_dry_run (htotal : 0 < args.totalSize) :
    ¬ Covers args (pmem2benchAccesses args true accessOffset) := by
  intro hcovers
  have hbytes := hcovers.bytes
  have hpositive := UInt64.lt_iff_toNat_lt.mp htotal
  simp [pmem2benchAccesses] at hbytes
  omega

/-- The accepted arguments for which the reported throughput is that of the
bytes that were moved. -/
theorem coverage_iff (args : Args) (hargs : args.Accepted) (htotal : 0 < args.totalSize)
    (accessOffset : List UInt64) (hoffset : AccessOffset args accessOffset) (opDryRun : Bool) :
    (Covers args (pmem2benchAccesses args opDryRun accessOffset) ↔
      opDryRun = false ∧ args.stripUnitSize % args.blockSize = 0) ∧
    (Covers args (pmemblkbenchAccesses args accessOffset flawless) ↔
      args.stripUnitSize % args.blockSize = 0) ∧
    (Covers args (pmemobjbenchAccesses args accessOffset flawless) ↔
      args.stripUnitSize % args.blockSize = 0) := by
  have hcovers := covers_iff hargs htotal hoffset
  refine ⟨?_, ?_, ?_⟩
  · cases opDryRun with
    | true => simp [not_covers_dry_run htotal]
    | false => simpa [pmem2benchAccesses_eq] using hcovers
  · rwa [pmemblkbenchAccesses_eq]
  · rwa [pmemobjbenchAccesses_eq]

end Programs

def oddStripe : Args where
  blockSize := 2
  stripeSize := 6
  nthreads := 2
  totalSize := 6
  opRead := true
  opWrite := false

theorem oddStripe_accepted : oddStripe.Accepted := by
  constructor <;> decide

theorem oddStripe_accessOffset : AccessOffset oddStripe [0] := by
  unfold AccessOffset
  decide

theorem coverage_fails_oddStripe : oddStripe.Accepted ∧ AccessOffset oddStripe [0] ∧
    ¬ Covers oddStripe (pmem2benchAccesses oddStripe false [0]) ∧
    ¬ Covers oddStripe (pmemblkbenchAccesses oddStripe [0] flawless) ∧
    ¬ Covers oddStripe (pmemobjbenchAccesses oddStripe [0] flawless) := by
  refine ⟨oddStripe_accepted, oddStripe_accessOffset, ?_, ?_, ?_⟩ <;>
    exact fun hcovers => absurd hcovers.bytes (by decide)

theorem coverage_iff_oddStripe :
    ¬ Covers oddStripe (pmemblkbenchAccesses oddStripe [0] flawless) := by
  have h := coverage_iff oddStripe oddStripe_accepted (by decide) [0]
    oddStripe_accessOffset false
  rw [h.2.1]
  decide

end SpackPlayground.Striped.Coverage
