import SpackPlayground.Striped.Coverage

/-! The copies that `pmem2bench` makes between the mapping and the thread-local
buffer. Nothing compares `total` with the size of the mapping, or `block` with
the size of the buffer. -/
namespace SpackPlayground.Pmem2Bench.MappedMemory

open Library.Striping Striped.Layout Striped.Coverage

def bufSize : Nat := 2 * 1024 * 1024

/-- One `memcpy`; `start` counts from `addr`. -/
inductive Copy where
  | fill (size : UInt64)
  | write (start size : UInt64)
  | read (start size : UInt64)

def Copy.InBounds (mapSize : Nat) : Copy → Prop
  | .fill size => size.toNat ≤ bufSize
  | .write start size | .read start size =>
      start.toNat + size.toNat ≤ mapSize ∧ size.toNat ≤ bufSize

def blockCopy (args : Args) (blockOfs : UInt64) : Copy :=
  if args.opWrite then .write (blockOfs * args.blockSize) args.blockSize
  else .read (blockOfs * args.blockSize) args.blockSize

def copies (args : Args) (opDryRun : Bool) (accessOffset : List UInt64) (i : UInt64) :
    List Copy :=
  .fill args.blockSize ::
    (pmem2benchAccesses args opDryRun accessOffset i).map (blockCopy args)

/-- The mapping of a newly created fsdax file or of an anonymous source. -/
structure NewMapping (fileSize : UInt64) (pageSize mapSize : Nat) : Prop where
  whole : fileSize.toNat ≤ mapSize
  rounded : mapSize < fileSize.toNat + pageSize

/-- The first byte of the mapping behind every block that is accessed: the end of
the last stripe, less what the workers leave of it. -/
def reach (args : Args) : Nat :=
  (args.stripeCount.toNat * args.blocksInStripe.toNat -
    (args.blocksInStripe.toNat - args.nthreads.toNat * args.blocksInStripUnit.toNat)) *
    args.blockSize.toNat

section Bounds

variable {args : Args} {accessOffset : List UInt64} {mapSize : Nat}

theorem inBounds_blockCopy_iff {block : UInt64}
    (hblock : block < args.totalSize / args.blockSize) :
    (blockCopy args block).InBounds mapSize ↔
      (block.toNat + 1) * args.blockSize.toNat ≤ mapSize ∧ args.blockSize.toNat ≤ bufSize := by
  have hstart := (toNat_byteOfs hblock).1
  unfold blockCopy
  split <;> rw [Copy.InBounds, hstart, Nat.add_mul, Nat.one_mul]

theorem block_end_le_reach (hargs : args.Accepted) (hoffset : AccessOffset args accessOffset)
    {i stripe j : UInt64} (hloops : InLoops args i stripe j) :
    ((blockOfs args accessOffset i stripe j).toNat + 1) * args.blockSize.toNat ≤ reach args := by
  apply Nat.mul_le_mul_right _
  have hplace := hloops.place hargs hoffset
  have hindex := hplace.index_lt
  have hfits := (args.geometry hargs).fits
  have hnext : (stripe.toNat + 1) * args.blocksInStripe.toNat ≤
      args.stripeCount.toNat * args.blocksInStripe.toNat :=
    Nat.mul_le_mul_right _ hplace.stripe
  rw [Nat.add_mul, Nat.one_mul] at hnext
  rw [toNat_blockOfs hargs hoffset hloops]
  simp only [Args.geometry] at hindex hfits ⊢
  omega

private theorem exists_block_end_eq_reach (hargs : args.Accepted)
    (hoffset : AccessOffset args accessOffset) (hcount : 0 < args.stripeCount.toNat) :
    ∃ i stripe j, InLoops args i stripe j ∧
      ((blockOfs args accessOffset i stripe j).toNat + 1) * args.blockSize.toNat =
        reach args := by
  have hlast {n : UInt64} (hn : 0 < n.toNat) : (n - 1).toNat = n.toNat - 1 ∧ n - 1 < n := by
    have htoNat : (n - 1).toNat = n.toNat - 1 :=
      UInt64.toNat_sub_of_le n 1 (UInt64.le_iff_toNat_le.mpr hn)
    refine ⟨htoNat, UInt64.lt_iff_toNat_lt.mpr ?_⟩
    omega
  have hworker := hlast hargs.nthreads_pos
  have hstripe := hlast hcount
  have hunit := hlast hargs.blocksInStripUnit_pos
  obtain ⟨j, hj, hget⟩ := AccessOffset.exists_getD hoffset hunit.2
  have hloops : InLoops args (args.nthreads - 1) (args.stripeCount - 1) j :=
    ⟨hworker.2, hstripe.2, hj⟩
  refine ⟨_, _, j, hloops, ?_⟩
  have hnext : (args.nthreads.toNat - 1 + 1) * args.blocksInStripUnit.toNat =
      args.nthreads.toNat * args.blocksInStripUnit.toNat := by
    rw [Nat.sub_add_cancel hargs.nthreads_pos]
  have hstripes : (args.stripeCount.toNat - 1 + 1) * args.blocksInStripe.toNat =
      args.stripeCount.toNat * args.blocksInStripe.toNat := by
    rw [Nat.sub_add_cancel hcount]
  have hpositive := hargs.blocksInStripUnit_pos
  have hfits := (args.geometry hargs).fits
  rw [toNat_blockOfs hargs hoffset hloops, hget, hworker.1, hstripe.1, hunit.1, reach]
  rw [Nat.add_mul, Nat.one_mul] at hnext hstripes
  apply congrArg (· * args.blockSize.toNat)
  simp only [Geometry.index, Args.geometry] at hfits ⊢
  omega

private theorem reach_le_totalSize (hargs : args.Accepted) : reach args ≤ args.totalSize.toNat := by
  have htotal : args.totalSize.toNat =
      args.stripeCount.toNat * args.blocksInStripe.toNat * args.blockSize.toNat := by
    rw [hargs.stripes_mul_stripe, Nat.div_mul_cancel hargs.sizes.totalBlock]
  rw [htotal]
  exact Nat.mul_le_mul_right _ (Nat.sub_le ..)

private theorem fill_inBounds_of_copies (hargs : args.Accepted) {opDryRun : Bool}
    (hcopies : ∀ i < args.nthreads, ∀ copy ∈ copies args opDryRun accessOffset i,
      copy.InBounds mapSize) : args.blockSize.toNat ≤ bufSize :=
  hcopies 0 hargs.nthreads (.fill args.blockSize) List.mem_cons_self

/-- The mappings and block sizes for which every copy stays inside. -/
theorem copies_in_bounds_iff (args : Args) (hargs : args.Accepted) (accessOffset : List UInt64)
    (hoffset : AccessOffset args accessOffset) (opDryRun : Bool) (mapSize : Nat) :
    (∀ i < args.nthreads, ∀ copy ∈ copies args opDryRun accessOffset i,
      copy.InBounds mapSize) ↔
    args.blockSize.toNat ≤ bufSize ∧ (opDryRun = true ∨ reach args ≤ mapSize) := by
  constructor
  · intro hcopies
    refine ⟨fill_inBounds_of_copies hargs hcopies, ?_⟩
    cases opDryRun with
    | true => exact .inl rfl
    | false =>
        rcases Nat.eq_zero_or_pos args.stripeCount.toNat with hnone | hcount
        · simp [reach, hnone]
        obtain ⟨i, stripe, j, hloops, hend⟩ := exists_block_end_eq_reach hargs hoffset hcount
        have hmem : blockOfs args accessOffset i stripe j ∈
            pmem2benchAccesses args false accessOffset i := by
          rw [pmem2benchAccesses_eq]
          exact mem_strips_iff.mpr ⟨stripe, hloops.stripe, j, hloops.unit, rfl⟩
        have hcopy := hcopies i hloops.worker (blockCopy args _)
          (List.mem_cons_of_mem _ (List.mem_map_of_mem hmem))
        rw [inBounds_blockCopy_iff (blockOfs_lt hargs hoffset hloops), hend] at hcopy
        exact .inr hcopy.1
  · rintro ⟨hbuf, hmap⟩ i hi copy hcopy
    rcases List.mem_cons.mp hcopy with rfl | hcopy
    · exact hbuf
    · obtain ⟨block, hblock, rfl⟩ := List.mem_map.mp hcopy
      cases opDryRun with
      | true => simp [pmem2benchAccesses] at hblock
      | false =>
          rw [pmem2benchAccesses_eq] at hblock
          obtain ⟨stripe, hstripe, j, hj, rfl⟩ := mem_strips_iff.mp hblock
          have hloops : InLoops args i stripe j := ⟨hi, hstripe, hj⟩
          rw [inBounds_blockCopy_iff (blockOfs_lt hargs hoffset hloops)]
          have hreach := hmap.resolve_left Bool.false_ne_true
          exact ⟨(block_end_le_reach hargs hoffset hloops).trans hreach, hbuf⟩

theorem copies_in_bounds_of_newMapping (hargs : args.Accepted)
    (hoffset : AccessOffset args accessOffset) {fileSize : UInt64} {pageSize : Nat}
    (hmapping : NewMapping fileSize pageSize mapSize) (hfile : args.totalSize ≤ fileSize)
    (hbuf : args.blockSize.toNat ≤ bufSize) (opDryRun : Bool) :
    ∀ i < args.nthreads, ∀ copy ∈ copies args opDryRun accessOffset i, copy.InBounds mapSize := by
  refine (copies_in_bounds_iff args hargs accessOffset hoffset opDryRun mapSize).mpr
    ⟨hbuf, .inr ?_⟩
  calc
    reach args ≤ args.totalSize.toNat := reach_le_totalSize hargs
    _ ≤ fileSize.toNat := UInt64.le_iff_toNat_le.mp hfile
    _ ≤ mapSize := hmapping.whole

end Bounds

def smallFile : Args where
  blockSize := 4096
  stripeSize := 4096
  nthreads := 1
  totalSize := 8192
  opRead := false
  opWrite := true

theorem smallFile_accepted : smallFile.Accepted := by
  constructor <;> decide

theorem smallFile_accessOffset : AccessOffset smallFile [0] := by
  unfold AccessOffset
  decide

theorem copies_out_of_bounds_smallFile : smallFile.Accepted ∧ AccessOffset smallFile [0] ∧
    NewMapping 4096 4096 4096 ∧
    ¬ ∀ i < smallFile.nthreads, ∀ copy ∈ copies smallFile false [0] i,
      copy.InBounds 4096 := by
  refine ⟨smallFile_accepted, smallFile_accessOffset, ⟨by decide, by decide⟩, ?_⟩
  intro hcopies
  have hlast : (Copy.write 4096 4096).InBounds 4096 :=
    hcopies 0 (by decide) (.write 4096 4096) (by
      rw [show copies smallFile false [0] 0 = [.fill 4096, .write 0 4096, .write 4096 4096]
        from rfl]
      simp)
  exact absurd hlast.1 (by decide)

theorem copies_in_bounds_iff_smallFile : reach smallFile = 8192 ∧
    ∀ i < smallFile.nthreads, ∀ copy ∈ copies smallFile false [0] i, copy.InBounds 8192 := by
  have hreach : reach smallFile = 8192 := by decide
  refine ⟨hreach, (copies_in_bounds_iff smallFile smallFile_accepted [0]
    smallFile_accessOffset false 8192).mpr ⟨by decide, .inr ?_⟩⟩
  exact hreach.le

end SpackPlayground.Pmem2Bench.MappedMemory
