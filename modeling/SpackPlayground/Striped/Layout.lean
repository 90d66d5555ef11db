import Mathlib.Data.List.GetD
import Mathlib.Data.List.Nodup
import SpackPlayground.Library.Striping

/-! What `pmem2bench`, `pmemblkbench` and `pmemobjbench` share: the argument
check, the strip layout and the index of a block, all in 64-bit arithmetic. -/
namespace SpackPlayground.Striped.Layout

open Library.Striping

structure Args where
  blockSize : UInt64
  stripeSize : UInt64
  nthreads : UInt64
  totalSize : UInt64
  opRead : Bool
  opWrite : Bool
  deriving DecidableEq

def Args.check (args : Args) : Bool :=
  !(!args.opRead && !args.opWrite) &&
  !(args.totalSize % args.stripeSize != 0 || args.totalSize % args.blockSize != 0 ||
    args.stripeSize % args.blockSize != 0 || args.stripeSize % args.nthreads != 0 ||
    args.stripeSize / args.nthreads < args.blockSize || args.opRead == args.opWrite)

/-- Arguments with which a program goes on. The check divides by three of them,
so these are not zero. -/
structure Args.Accepted (args : Args) : Prop where
  blockSize : 0 < args.blockSize
  stripeSize : 0 < args.stripeSize
  nthreads : 0 < args.nthreads
  check : args.check = true

def Args.stripeCount (args : Args) : UInt64 := args.totalSize / args.stripeSize

def Args.stripUnitSize (args : Args) : UInt64 := args.stripeSize / args.nthreads

def Args.blocksInStripUnit (args : Args) : UInt64 := args.stripUnitSize / args.blockSize

def Args.blocksInStripe (args : Args) : UInt64 := args.stripeSize / args.blockSize

/-- `std::iota` from zero, and the values of a loop `for (size_t i = 0; i < n; ++i)`. -/
def iota (n : UInt64) : List UInt64 := (List.range n.toNat).map UInt64.ofNat

/-- `access_offset` after `std::shuffle`, or without it. -/
def AccessOffset (args : Args) (accessOffset : List UInt64) : Prop :=
  accessOffset.Perm (iota args.blocksInStripUnit)

def Args.stripOfs (args : Args) (i stripe : UInt64) : UInt64 :=
  stripe * args.blocksInStripe + i * args.blocksInStripUnit

def blockOfs (args : Args) (accessOffset : List UInt64) (i stripe j : UInt64) : UInt64 :=
  accessOffset.getD j.toNat 0 + args.stripOfs i stripe

section Iota

variable {n : UInt64}

theorem mem_iota {k : UInt64} : k ∈ iota n ↔ k < n := by
  unfold iota
  rw [List.mem_map, UInt64.lt_iff_toNat_lt]
  constructor
  · rintro ⟨m, hm, rfl⟩
    rw [List.mem_range] at hm
    rwa [UInt64.toNat_ofNat_of_lt' (hm.trans n.toNat_lt)]
  · intro hk
    exact ⟨k.toNat, List.mem_range.mpr hk, UInt64.ofNat_toNat⟩

@[simp] theorem length_iota : (iota n).length = n.toNat := by
  simp [iota]

private theorem nodup_iota : (iota n).Nodup := by
  unfold iota
  refine List.Nodup.map_on ?_ List.nodup_range
  intro a ha b hb heq
  rw [List.mem_range] at ha hb
  have htoNat := congrArg UInt64.toNat heq
  rwa [UInt64.toNat_ofNat_of_lt' (ha.trans n.toNat_lt),
    UInt64.toNat_ofNat_of_lt' (hb.trans n.toNat_lt)] at htoNat

end Iota

section Sizes

variable {args : Args}

structure Sizes (args : Args) : Prop where
  totalStripe : args.stripeSize.toNat ∣ args.totalSize.toNat
  totalBlock : args.blockSize.toNat ∣ args.totalSize.toNat
  stripeBlock : args.blockSize.toNat ∣ args.stripeSize.toNat
  stripeThreads : args.nthreads.toNat ∣ args.stripeSize.toNat
  unit : args.blockSize.toNat ≤ args.stripeSize.toNat / args.nthreads.toNat
  mode : args.opRead ≠ args.opWrite

theorem dvd_of_mod_eq_zero {a b : UInt64} (hmod : a % b = 0) : b.toNat ∣ a.toNat := by
  have htoNat := congrArg UInt64.toNat hmod
  rw [UInt64.toNat_mod] at htoNat
  exact Nat.dvd_of_mod_eq_zero htoNat

theorem Args.Accepted.sizes (hargs : args.Accepted) : Sizes args := by
  have hcheck := hargs.check
  unfold Args.check at hcheck
  simp only [Bool.and_eq_true, Bool.not_eq_true', Bool.or_eq_false_iff, bne_eq_false_iff_eq,
    decide_eq_false_iff_not, UInt64.not_lt, beq_eq_false_iff_ne] at hcheck
  obtain ⟨_, ⟨⟨⟨⟨htotalStripe, htotalBlock⟩, hstripeBlock⟩, hthreads⟩, hunit⟩, hmode⟩ := hcheck
  refine ⟨dvd_of_mod_eq_zero htotalStripe, dvd_of_mod_eq_zero htotalBlock,
    dvd_of_mod_eq_zero hstripeBlock, dvd_of_mod_eq_zero hthreads, ?_, hmode⟩
  rw [← UInt64.toNat_div]
  exact UInt64.le_iff_toNat_le.mp hunit

theorem Args.Accepted.blockSize_pos (hargs : args.Accepted) : 0 < args.blockSize.toNat :=
  UInt64.lt_iff_toNat_lt.mp hargs.blockSize

theorem Args.Accepted.stripeSize_pos (hargs : args.Accepted) : 0 < args.stripeSize.toNat :=
  UInt64.lt_iff_toNat_lt.mp hargs.stripeSize

theorem Args.Accepted.nthreads_pos (hargs : args.Accepted) : 0 < args.nthreads.toNat :=
  UInt64.lt_iff_toNat_lt.mp hargs.nthreads

@[simp] theorem toNat_stripeCount :
    args.stripeCount.toNat = args.totalSize.toNat / args.stripeSize.toNat :=
  UInt64.toNat_div _ _

@[simp] theorem toNat_blocksInStripe :
    args.blocksInStripe.toNat = args.stripeSize.toNat / args.blockSize.toNat :=
  UInt64.toNat_div _ _

@[simp] theorem toNat_blocksInStripUnit : args.blocksInStripUnit.toNat =
    args.stripeSize.toNat / args.nthreads.toNat / args.blockSize.toNat := by
  rw [Args.blocksInStripUnit, UInt64.toNat_div, Args.stripUnitSize, UInt64.toNat_div]

theorem Args.Accepted.stripeCount_pos (hargs : args.Accepted) (htotal : 0 < args.totalSize) :
    0 < args.stripeCount.toNat := by
  rw [toNat_stripeCount]
  exact Nat.div_pos (Nat.le_of_dvd (UInt64.lt_iff_toNat_lt.mp htotal) hargs.sizes.totalStripe)
    hargs.stripeSize_pos

theorem Args.Accepted.blocksInStripUnit_pos (hargs : args.Accepted) :
    0 < args.blocksInStripUnit.toNat := by
  rw [toNat_blocksInStripUnit]
  exact Nat.div_pos hargs.sizes.unit hargs.blockSize_pos

theorem Args.Accepted.stripes_mul_stripe (hargs : args.Accepted) :
    args.stripeCount.toNat * args.blocksInStripe.toNat =
      args.totalSize.toNat / args.blockSize.toNat := by
  have hsizes := hargs.sizes
  obtain ⟨count, hcount⟩ := hsizes.totalStripe
  obtain ⟨blocks, hblocks⟩ := hsizes.stripeBlock
  rw [toNat_stripeCount, toNat_blocksInStripe, hcount,
    Nat.mul_div_cancel_left count hargs.stripeSize_pos, hblocks,
    Nat.mul_div_cancel_left blocks hargs.blockSize_pos, Nat.mul_assoc,
    Nat.mul_div_cancel_left _ hargs.blockSize_pos, Nat.mul_comm]

def Args.geometry (args : Args) (hargs : args.Accepted) : Geometry where
  unit := args.blocksInStripUnit.toNat
  workers := args.nthreads.toNat
  stripe := args.blocksInStripe.toNat
  stripes := args.stripeCount.toNat
  fits := by
    obtain ⟨unit, hunit⟩ := hargs.sizes.stripeThreads
    rw [toNat_blocksInStripUnit, toNat_blocksInStripe, hunit,
      Nat.mul_div_cancel_left unit hargs.nthreads_pos]
    exact Nat.mul_div_le_mul_div_assoc _ _ _

end Sizes

section Index

variable {args : Args} {accessOffset : List UInt64}

theorem AccessOffset.length_eq (hoffset : AccessOffset args accessOffset) :
    accessOffset.length = args.blocksInStripUnit.toNat :=
  (List.Perm.length_eq hoffset).trans length_iota

theorem AccessOffset.getD_lt (hoffset : AccessOffset args accessOffset) {j : UInt64}
    (hj : j < args.blocksInStripUnit) :
    accessOffset.getD j.toNat 0 < args.blocksInStripUnit := by
  have hlength : j.toNat < accessOffset.length := by
    rw [AccessOffset.length_eq hoffset]
    exact UInt64.lt_iff_toNat_lt.mp hj
  rw [List.getD_eq_getElem _ _ hlength, ← mem_iota, ← List.Perm.mem_iff hoffset]
  exact List.getElem_mem hlength

theorem AccessOffset.getD_injective (hoffset : AccessOffset args accessOffset) {j j' : UInt64}
    (hj : j < args.blocksInStripUnit) (hj' : j' < args.blocksInStripUnit)
    (heq : accessOffset.getD j.toNat 0 = accessOffset.getD j'.toNat 0) : j = j' := by
  have hnodup : accessOffset.Nodup := (List.Perm.nodup_iff hoffset).mpr nodup_iota
  have hlength : j.toNat < accessOffset.length ∧ j'.toNat < accessOffset.length := by
    rw [AccessOffset.length_eq hoffset]
    exact ⟨UInt64.lt_iff_toNat_lt.mp hj, UInt64.lt_iff_toNat_lt.mp hj'⟩
  rw [List.getD_eq_getElem _ _ hlength.1, List.getD_eq_getElem _ _ hlength.2] at heq
  exact UInt64.toNat.inj (hnodup.getElem_inj_iff.mp heq)

theorem AccessOffset.exists_getD (hoffset : AccessOffset args accessOffset) {k : UInt64}
    (hk : k < args.blocksInStripUnit) :
    ∃ j < args.blocksInStripUnit, accessOffset.getD j.toNat 0 = k := by
  have hmem : k ∈ accessOffset := (List.Perm.mem_iff hoffset).mpr (mem_iota.mpr hk)
  obtain ⟨n, hn, rfl⟩ := List.getElem_of_mem hmem
  have hn' : n < args.blocksInStripUnit.toNat := AccessOffset.length_eq hoffset ▸ hn
  have htoNat : (UInt64.ofNat n).toNat = n :=
    UInt64.toNat_ofNat_of_lt' (hn'.trans args.blocksInStripUnit.toNat_lt)
  refine ⟨.ofNat n, ?_, ?_⟩
  · rwa [UInt64.lt_iff_toNat_lt, htoNat]
  · rw [htoNat, List.getD_eq_getElem _ _ hn]

structure InLoops (args : Args) (i stripe j : UInt64) : Prop where
  worker : i < args.nthreads
  stripe : stripe < args.stripeCount
  unit : j < args.blocksInStripUnit

theorem InLoops.place {i stripe j : UInt64} (hloops : InLoops args i stripe j)
    (hargs : args.Accepted) (hoffset : AccessOffset args accessOffset) :
    (args.geometry hargs).Place i.toNat stripe.toNat (accessOffset.getD j.toNat 0).toNat where
  worker := UInt64.lt_iff_toNat_lt.mp hloops.worker
  stripe := UInt64.lt_iff_toNat_lt.mp hloops.stripe
  offset := UInt64.lt_iff_toNat_lt.mp (AccessOffset.getD_lt hoffset hloops.unit)

structure Exact (args : Args) (accessOffset : List UInt64) (i stripe j : UInt64) : Prop where
  stripe_mul : (stripe * args.blocksInStripe).toNat = stripe.toNat * args.blocksInStripe.toNat
  unit_mul : (i * args.blocksInStripUnit).toNat = i.toNat * args.blocksInStripUnit.toNat
  stripOfs_eq : (args.stripOfs i stripe).toNat =
    stripe.toNat * args.blocksInStripe.toNat + i.toNat * args.blocksInStripUnit.toNat
  blockOfs_eq : (blockOfs args accessOffset i stripe j).toNat =
    (accessOffset.getD j.toNat 0).toNat + (args.stripOfs i stripe).toNat

theorem InLoops.exact {i stripe j : UInt64} (hloops : InLoops args i stripe j)
    (hargs : args.Accepted) (hoffset : AccessOffset args accessOffset) :
    Exact args accessOffset i stripe j := by
  have hindex := (hloops.place hargs hoffset).index_lt_total
  have htotal : args.stripeCount.toNat * args.blocksInStripe.toNat ≤ args.totalSize.toNat := by
    rw [hargs.stripes_mul_stripe]
    exact Nat.div_le_self _ _
  have hsize := args.totalSize.toNat_lt
  simp only [Geometry.index, Args.geometry] at hindex
  have hstripe : (stripe * args.blocksInStripe).toNat =
      stripe.toNat * args.blocksInStripe.toNat := by
    rw [UInt64.toNat_mul]
    exact Nat.mod_eq_of_lt (by omega)
  have hunit : (i * args.blocksInStripUnit).toNat =
      i.toNat * args.blocksInStripUnit.toNat := by
    rw [UInt64.toNat_mul]
    exact Nat.mod_eq_of_lt (by omega)
  have hstripOfs : (args.stripOfs i stripe).toNat =
      stripe.toNat * args.blocksInStripe.toNat + i.toNat * args.blocksInStripUnit.toNat := by
    rw [Args.stripOfs, UInt64.toNat_add, hstripe, hunit]
    exact Nat.mod_eq_of_lt (by omega)
  refine ⟨hstripe, hunit, hstripOfs, ?_⟩
  rw [blockOfs, UInt64.toNat_add, hstripOfs]
  exact Nat.mod_eq_of_lt (by omega)

theorem toNat_blockOfs (hargs : args.Accepted) (hoffset : AccessOffset args accessOffset)
    {i stripe j : UInt64} (hloops : InLoops args i stripe j) :
    (blockOfs args accessOffset i stripe j).toNat =
      (args.geometry hargs).index i.toNat stripe.toNat (accessOffset.getD j.toNat 0).toNat := by
  have hexact := hloops.exact hargs hoffset
  rw [hexact.blockOfs_eq, hexact.stripOfs_eq]
  rfl

theorem blockOfs_lt (hargs : args.Accepted) (hoffset : AccessOffset args accessOffset)
    {i stripe j : UInt64} (hloops : InLoops args i stripe j) :
    blockOfs args accessOffset i stripe j < args.totalSize / args.blockSize := by
  rw [UInt64.lt_iff_toNat_lt, toNat_blockOfs hargs hoffset hloops, UInt64.toNat_div,
    ← hargs.stripes_mul_stripe]
  exact (hloops.place hargs hoffset).index_lt_total

theorem blockOfs_injective (hargs : args.Accepted) (hoffset : AccessOffset args accessOffset)
    {i stripe j i' stripe' j' : UInt64} (hloops : InLoops args i stripe j)
    (hloops' : InLoops args i' stripe' j')
    (heq : blockOfs args accessOffset i stripe j = blockOfs args accessOffset i' stripe' j') :
    i = i' ∧ stripe = stripe' ∧ j = j' := by
  have htoNat := congrArg UInt64.toNat heq
  rw [toNat_blockOfs hargs hoffset hloops, toNat_blockOfs hargs hoffset hloops'] at htoNat
  obtain ⟨hi, hstripe, hj⟩ := Geometry.index_injective (hloops.place hargs hoffset)
    (hloops'.place hargs hoffset) htoNat
  exact ⟨UInt64.toNat.inj hi, UInt64.toNat.inj hstripe,
    AccessOffset.getD_injective hoffset hloops.unit hloops'.unit (UInt64.toNat.inj hj)⟩

theorem toNat_byteOfs {block : UInt64}
    (hblock : block < args.totalSize / args.blockSize) :
    (block * args.blockSize).toNat = block.toNat * args.blockSize.toNat ∧
      block.toNat * args.blockSize.toNat + args.blockSize.toNat ≤ args.totalSize.toNat := by
  rw [UInt64.lt_iff_toNat_lt, UInt64.toNat_div] at hblock
  have hend : (block.toNat + 1) * args.blockSize.toNat ≤ args.totalSize.toNat :=
    (Nat.mul_le_mul_right _ hblock).trans (Nat.div_mul_le_self _ _)
  have hsize := args.totalSize.toNat_lt
  rw [Nat.add_mul, Nat.one_mul] at hend
  refine ⟨?_, hend⟩
  rw [UInt64.toNat_mul]
  exact Nat.mod_eq_of_lt (by omega)

end Index

end SpackPlayground.Striped.Layout
