import SpackPlayground.PmemObjBench.Objects
import SpackPlayground.Striped.Coverage

/-! No block is accessed twice, and every index that a worker passes on is
valid where it is passed to. -/
namespace SpackPlayground.Striped.Disjointness

open Layout Coverage PmemObjBench.Objects

/-- An opened `PMEMblkpool`. Its blocks lie in the pool file, and the length of
a file is an `off_t`. -/
structure BlkPool where
  blockSize : UInt64
  nblock : UInt64
  fileSize : Nat
  fits : nblock.toNat * blockSize.toNat ≤ fileSize
  isOffset : fileSize < 2 ^ 63

/-- `pmemblkbench` does not stop at its pool size check. -/
def poolCheck (args : Args) (pool : BlkPool) : Bool :=
  !(pool.nblock < args.totalSize / args.blockSize)

/-- The block number that `static_cast<long long>` makes of an index is that
index, and the pool has such a block. -/
structure BlkPool.ValidBlock (pool : BlkPool) (blockOfs : UInt64) : Prop where
  cast : blockOfs.toInt64.toInt = blockOfs.toNat
  inPool : blockOfs < pool.nblock

def nobjects (args : Args) : UInt64 := args.totalSize / args.blockSize

section Bounds

variable {args : Args} {accessOffset : List UInt64}

theorem BlkPool.validBlock_of_lt {pool : BlkPool} (hblock : 0 < pool.blockSize.toNat)
    {blockOfs : UInt64} (hlt : blockOfs < pool.nblock) : pool.ValidBlock blockOfs := by
  refine ⟨?_, hlt⟩
  have hfile : blockOfs.toNat < 2 ^ 63 := by
    calc
      blockOfs.toNat < pool.nblock.toNat := UInt64.lt_iff_toNat_lt.mp hlt
      _ ≤ pool.nblock.toNat * pool.blockSize.toNat := Nat.le_mul_of_pos_right _ hblock
      _ < 2 ^ 63 := pool.fits.trans_lt pool.isOffset
  rw [← Int64.toInt_toBitVec, UInt64.toBitVec_toInt64, BitVec.toInt_eq_toNat_of_lt]
  · rfl
  · rw [UInt64.toNat_toBitVec]
    omega

theorem lt_of_mem_strips (hargs : args.Accepted) (hoffset : AccessOffset args accessOffset)
    {i block : UInt64} (hi : i < args.nthreads)
    (hmem : block ∈ (iota args.stripeCount).flatMap (stripBlocks args accessOffset i)) :
    block < args.totalSize / args.blockSize := by
  obtain ⟨stripe, hstripe, j, hj, rfl⟩ := mem_strips_iff.mp hmem
  exact blockOfs_lt hargs hoffset ⟨hi, hstripe, hj⟩

theorem pmemblkbench_valid (hargs : args.Accepted) (hoffset : AccessOffset args accessOffset)
    {pool : BlkPool} (hopened : pool.blockSize = args.blockSize)
    (hcheck : poolCheck args pool = true) (answers : Answers) {i block : UInt64}
    (hi : i < args.nthreads)
    (hmem : block ∈ pmemblkbenchAccesses args accessOffset answers i) :
    pool.ValidBlock block := by
  have hblock := lt_of_mem_strips hargs hoffset hi (pmemblkbenchAccesses_subset answers i hmem)
  have hnblock : args.totalSize / args.blockSize ≤ pool.nblock := by
    simpa [poolCheck, UInt64.not_lt] using hcheck
  refine BlkPool.validBlock_of_lt ?_ (UInt64.lt_of_lt_of_le hblock hnblock)
  rw [hopened]
  exact hargs.blockSize_pos

private theorem pmemobjbench_valid (hargs : args.Accepted)
    (hoffset : AccessOffset args accessOffset)
    (objs : List Object) (answers : Answers) {i block : UInt64} (hi : i < args.nthreads)
    (hmem : block ∈ pmemobjbenchAccesses args accessOffset answers i) :
    block.toNat < (resize objs (nobjects args).toNat).length := by
  rw [length_resize]
  exact UInt64.lt_iff_toNat_lt.mp
    (lt_of_mem_strips hargs hoffset hi (pmemobjbenchAccesses_subset answers i hmem))

/-- The block indices are disjoint, exact and in range. -/
theorem striped_disjoint (args : Args) (hargs : args.Accepted) (accessOffset : List UInt64)
    (hoffset : AccessOffset args accessOffset) :
    (∀ i stripe j i' stripe' j', InLoops args i stripe j → InLoops args i' stripe' j' →
      blockOfs args accessOffset i stripe j = blockOfs args accessOffset i' stripe' j' →
      i = i' ∧ stripe = stripe' ∧ j = j') ∧
    (∀ i stripe j, InLoops args i stripe j →
      Exact args accessOffset i stripe j ∧
      (blockOfs args accessOffset i stripe j * args.blockSize).toNat =
        (blockOfs args accessOffset i stripe j).toNat * args.blockSize.toNat ∧
      blockOfs args accessOffset i stripe j < args.totalSize / args.blockSize) ∧
    (∀ pool : BlkPool, pool.blockSize = args.blockSize → poolCheck args pool = true →
      ∀ answers, ∀ i < args.nthreads,
        ∀ block ∈ pmemblkbenchAccesses args accessOffset answers i, pool.ValidBlock block) ∧
    (∀ objs answers, ∀ i < args.nthreads,
      ∀ block ∈ pmemobjbenchAccesses args accessOffset answers i,
        block.toNat < (resize objs (nobjects args).toNat).length) := by
  refine ⟨?_, ?_, ?_, ?_⟩
  · intro i stripe j i' stripe' j' hloops hloops' heq
    exact blockOfs_injective hargs hoffset hloops hloops' heq
  · intro i stripe j hloops
    have hlt := blockOfs_lt hargs hoffset hloops
    exact ⟨hloops.exact hargs hoffset, (toNat_byteOfs hlt).1, hlt⟩
  · intro pool hopened hcheck answers i hi block hmem
    exact pmemblkbench_valid hargs hoffset hopened hcheck answers hi hmem
  · intro objs answers i hi block hmem
    exact pmemobjbench_valid hargs hoffset objs answers hi hmem

end Bounds

def evenStripes : Args where
  blockSize := 512
  stripeSize := 2048
  nthreads := 2
  totalSize := 4096
  opRead := false
  opWrite := true

private theorem evenStripes_accepted : evenStripes.Accepted := by
  constructor <;> decide

private theorem evenStripes_accessOffset : AccessOffset evenStripes [1, 0] := by
  unfold AccessOffset
  decide

theorem striped_disjoint_evenStripes :
    blockOfs evenStripes [1, 0] 1 1 0 < evenStripes.totalSize / evenStripes.blockSize ∧
    ∀ block ∈ pmemobjbenchAccesses evenStripes [1, 0] flawless 1,
      block.toNat < (resize [] (nobjects evenStripes).toNat).length := by
  obtain ⟨_, hexact, _, hobjs⟩ :=
    striped_disjoint evenStripes evenStripes_accepted [1, 0] evenStripes_accessOffset
  exact ⟨(hexact 1 1 0 ⟨by decide, by decide, by decide⟩).2.2, hobjs [] flawless 1 (by decide)⟩

end SpackPlayground.Striped.Disjointness
