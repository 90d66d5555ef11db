import SpackPlayground.Pmem2Bench.Copying

/-! What `pmem2bench` leaves in the mapping, and what a crash can leave there. -/
namespace SpackPlayground.Pmem2Bench.Contents

open Library.Persistence Library.Transition Striped.Layout Striped.Coverage MappedMemory Copying

/-- What a byte of the mapping is to hold in the end. -/
def target (invocation : Invocation) (data start : Nat → UInt8) (l : Nat) : UInt8 :=
  if invocation.args.opWrite = true ∧ ∃ i < invocation.nthreads,
      ∃ block ∈ invocation.blocks i, block.toNat = l / invocation.blockSize then
    data (l % invocation.blockSize)
  else start l

def accessesOf (log : List Access) (i : Nat) : List UInt64 :=
  (log.filter fun access => access.worker = i).map Access.blockOfs

section Addresses

variable {invocation : Invocation} {data start : Nat → UInt8} {i k : Nat} {block : UInt64}

private theorem ofNat_lt_nthreads (hi : i < invocation.nthreads) :
    UInt64.ofNat i < invocation.args.nthreads := by
  have htoNat := UInt64.toNat_ofNat_of_lt' (hi.trans invocation.args.nthreads.toNat_lt)
  rw [UInt64.lt_iff_toNat_lt, htoNat]
  exact hi

theorem exists_loops (hi : i < invocation.nthreads) (hblock : block ∈ invocation.blocks i) :
    ∃ stripe j, InLoops invocation.args (.ofNat i) stripe j ∧
      blockOfs invocation.args invocation.accessOffset (.ofNat i) stripe j = block := by
  unfold Invocation.blocks pmem2benchAccesses at hblock
  split at hblock
  · cases hblock
  · obtain ⟨stripe, hstripe, j, hj, heq⟩ := mem_strips_iff.mp hblock
    exact ⟨stripe, j, ⟨ofNat_lt_nthreads hi, hstripe, hj⟩, heq⟩

private theorem block_lt (hi : i < invocation.nthreads) (hblock : block ∈ invocation.blocks i) :
    block < invocation.args.totalSize / invocation.args.blockSize := by
  obtain ⟨stripe, j, hloops, rfl⟩ := exists_loops hi hblock
  exact blockOfs_lt invocation.accepted invocation.shuffled hloops

theorem address_eq (hi : i < invocation.nthreads) (hblock : block ∈ invocation.blocks i) (k : Nat) :
    invocation.address block k = block.toNat * invocation.blockSize + k := by
  unfold Invocation.address
  rw [(toNat_byteOfs (block_lt hi hblock)).1]
  rfl

private theorem address_lt (hbounds : invocation.InBounds) (hi : i < invocation.nthreads)
    (hblock : block ∈ invocation.blocks i) (hk : k < invocation.blockSize) :
    invocation.address block k < invocation.mapSize ∧ k < bufSize := by
  refine ⟨?_, hk.trans_le hbounds.buf⟩
  have hmapped : reach invocation.args ≤ invocation.mapSize := by
    refine hbounds.mapped.resolve_left fun hdry => ?_
    unfold Invocation.blocks pmem2benchAccesses at hblock
    rw [hdry] at hblock
    cases hblock
  rw [address_eq hi hblock]
  obtain ⟨stripe, j, hloops, rfl⟩ := exists_loops hi hblock
  have hend := block_end_le_reach invocation.accepted invocation.shuffled hloops
  rw [Nat.add_mul, Nat.one_mul] at hend
  unfold Invocation.blockSize at hk ⊢
  omega

theorem blockSize_pos (invocation : Invocation) : 0 < invocation.blockSize :=
  invocation.accepted.blockSize_pos

private theorem address_div (hi : i < invocation.nthreads) (hblock : block ∈ invocation.blocks i)
    (hk : k < invocation.blockSize) :
    invocation.address block k / invocation.blockSize = block.toNat ∧
      invocation.address block k % invocation.blockSize = k := by
  rw [address_eq hi hblock, Nat.mul_comm]
  constructor
  · rw [Nat.mul_add_div (blockSize_pos invocation), Nat.div_eq_of_lt hk, Nat.add_zero]
  · rw [Nat.mul_add_mod, Nat.mod_eq_of_lt hk]

private theorem target_address (hi : i < invocation.nthreads) (hblock : block ∈ invocation.blocks i)
    (hk : k < invocation.blockSize) (hwrite : invocation.args.opWrite = true) :
    target invocation data start (invocation.address block k) = data k := by
  obtain ⟨hdiv, hmod⟩ := address_div hi hblock hk
  unfold target
  rw [hdiv, hmod, if_pos ⟨hwrite, i, hi, block, hblock, rfl⟩]

theorem target_of_read (hread : invocation.args.opWrite = false) :
    target invocation data start = start := by
  funext l
  unfold target
  rw [if_neg (by simp [hread])]

private theorem worker_unique {j : Nat} (hi : i < invocation.nthreads)
    (hj : j < invocation.nthreads)
    (hblock : block ∈ invocation.blocks i) (hblock' : block ∈ invocation.blocks j) : i = j := by
  obtain ⟨stripe, k, hloops, rfl⟩ := exists_loops hi hblock
  obtain ⟨stripe', k', hloops', heq⟩ := exists_loops hj hblock'
  obtain ⟨hworker, _⟩ := blockOfs_injective invocation.accepted invocation.shuffled hloops hloops'
    heq.symm
  have hword {n : Nat} (hn : n < invocation.nthreads) : (UInt64.ofNat n).toNat = n :=
    UInt64.toNat_ofNat_of_lt' (hn.trans invocation.args.nthreads.toNat_lt)
  rw [← hword hi, ← hword hj, hworker]

/-- When the units of the workers are whole numbers of blocks, a write run is to leave
the random string everywhere up to the total size. -/
private theorem target_whole
    (hwhole : invocation.args.stripUnitSize % invocation.args.blockSize = 0)
    (hwrite : invocation.args.opWrite = true) (hdry : invocation.opDryRun = false) {l : Nat}
    (hl : l < invocation.args.totalSize.toNat) :
    target invocation data start l = data (l % invocation.blockSize) := by
  have hfill := (units_fill_iff invocation.accepted).mpr hwhole
  have hquotient : l / invocation.blockSize <
      (invocation.args.totalSize / invocation.args.blockSize).toNat := by
    rw [UInt64.toNat_div]
    refine Nat.div_lt_of_lt_mul ?_
    exact hl.trans_eq (Nat.mul_div_cancel' invocation.accepted.sizes.totalBlock).symm
  have hword : (UInt64.ofNat (l / invocation.blockSize)).toNat = l / invocation.blockSize :=
    UInt64.toNat_ofNat_of_lt' (hquotient.trans (UInt64.toNat_lt _))
  have htotal : 0 < invocation.args.totalSize := UInt64.lt_iff_toNat_lt.mpr (Nat.zero_lt_of_lt hl)
  obtain ⟨i, hi, hmem⟩ := (every_iff invocation.accepted htotal invocation.shuffled).mpr hfill
    (.ofNat (l / invocation.blockSize)) (by rwa [UInt64.lt_iff_toNat_lt, hword])
  unfold target
  refine if_pos ⟨hwrite, i.toNat, UInt64.lt_iff_toNat_lt.mp hi, _, ?_, hword⟩
  unfold Invocation.blocks
  rw [hdry, pmem2benchAccesses_eq, UInt64.ofNat_toNat]
  exact hmem

end Addresses

section Invariant

variable {invocation : Invocation} {data start : Nat → UInt8}

structure Mixed (start target : Nat → UInt8) (memory : Memory fun _ : Nat => UInt8) : Prop where
  view : ∀ l, memory.view l = start l ∨ memory.view l = target l
  medium : ∀ l, memory.medium l = start l ∨ memory.medium l = target l

structure Course (invocation : Invocation) (data start : Nat → UInt8) (i : Nat)
    (view : Nat → UInt8) (log : List Access) (worker : Worker) : Prop where
  went : accessesOf log i ++ worker.blocks = invocation.blocks i
  copied : ∀ block rest, worker.blocks = block :: rest → ∀ k < invocation.blockSize,
    worker.copied k = true →
      view (invocation.address block k) = target invocation data start (invocation.address block k)
  data : invocation.args.opWrite = true → ∀ k < invocation.blockSize, worker.buf k = data k
  filled : invocation.args.opWrite = false → ∀ block rest, worker.blocks = block :: rest →
    ∀ k < invocation.blockSize, worker.copied k = true →
      worker.buf k = start (invocation.address block k)
  last : invocation.args.opWrite = false → ∀ block, (accessesOf log i).getLast? = some block →
    ∀ k < invocation.blockSize, worker.copied k = false →
      worker.buf k = start (invocation.address block k)
  spent : worker.blocks = [] → ∀ k, worker.copied k = false

structure Inv (invocation : Invocation) (data start : Nat → UInt8)
    (s : State invocation.nthreads) : Prop where
  mixed : Mixed start (target invocation data start) s.memory
  courses : ∀ i, Course invocation data start i.val s.memory.view s.log (s.workers i)
  workers : ∀ access ∈ s.log, access.worker < invocation.nthreads
  finished : ∀ access ∈ s.log, ∀ k < invocation.blockSize,
    s.memory.view (invocation.address access.blockOfs k) =
      target invocation data start (invocation.address access.blockOfs k) ∧
    s.memory.medium (invocation.address access.blockOfs k) =
      target invocation data start (invocation.address access.blockOfs k)

variable {s : State invocation.nthreads} {i : Fin invocation.nthreads} {block : UInt64}
  {rest : List UInt64} {k : Nat}

theorem Course.mem {view : Nat → UInt8} {log : List Access} {worker : Worker} {i : Nat}
    (hcourse : Course invocation data start i view log worker)
    (hblocks : worker.blocks = block :: rest) : block ∈ invocation.blocks i := by
  rw [← hcourse.went, hblocks]
  exact List.mem_append_right _ List.mem_cons_self

theorem mem_accessesOf {log : List Access} {access : Access} (hmem : access ∈ log) :
    access.blockOfs ∈ accessesOf log access.worker :=
  List.mem_map_of_mem (List.mem_filter.mpr ⟨hmem, decide_eq_true rfl⟩)

theorem Inv.mem (hinv : Inv invocation data start s) {access : Access} (hmem : access ∈ s.log) :
    access.blockOfs ∈ invocation.blocks access.worker := by
  rw [← (hinv.courses ⟨access.worker, hinv.workers access hmem⟩).went]
  exact List.mem_append_left _ (mem_accessesOf hmem)

theorem inv_start : Inv invocation data start
    ⟨⟨start, start⟩, fun i => invocation.start data i, []⟩ where
  mixed := ⟨fun _ => .inl rfl, fun _ => .inl rfl⟩
  courses i :=
    { went := rfl
      copied := fun _ _ _ _ _ hcopied => by cases hcopied
      data := fun _ k hk => if_pos hk
      filled := fun _ _ _ _ _ _ hcopied => by cases hcopied
      last := fun _ _ hlast => by cases hlast
      spent := fun _ _ => rfl }
  workers _ hmem := by cases hmem
  finished _ hmem := by cases hmem

theorem Course.frame {view view' : Nat → UInt8} {log log' : List Access} {worker : Worker}
    {i : Nat} (hcourse : Course invocation data start i view log worker)
    (hview : ∀ l, view l = target invocation data start l →
      view' l = target invocation data start l)
    (hlog : accessesOf log' i = accessesOf log i) :
    Course invocation data start i view' log' worker where
  went := by
    rw [hlog]
    exact hcourse.went
  copied block rest hblocks k hk hcopied := hview _ (hcourse.copied block rest hblocks k hk hcopied)
  data := hcourse.data
  filled := hcourse.filled
  last := by
    rw [hlog]
    exact hcourse.last
  spent := hcourse.spent

section Writes

variable (hinv : Inv invocation data start s) (hwrite : invocation.args.opWrite = true)
  (hblocks : (s.workers i).blocks = block :: rest) (hk : k < invocation.blockSize)
include hinv hwrite hblocks hk

theorem Inv.store_target : (s.workers i).buf k =
    target invocation data start (invocation.address block k) := by
  rw [target_address i.isLt ((hinv.courses i).mem hblocks) hk hwrite]
  exact (hinv.courses i).data hwrite k hk

theorem Inv.view_store (l : Nat) :
    (s.memory.store (invocation.address block k) ((s.workers i).buf k)).view l = s.memory.view l ∨
    (s.memory.store (invocation.address block k) ((s.workers i).buf k)).view l =
      target invocation data start l := by
  by_cases heq : l = invocation.address block k
  · subst heq
    rw [Memory.view_store_self]
    exact .inr (hinv.store_target hwrite hblocks hk)
  · exact .inl (Memory.view_store_of_ne heq)

theorem Inv.writeByte : Inv invocation data start (copyByte invocation s i block k) := by
  have hstore := hinv.view_store hwrite hblocks hk
  have hkeeps (l : Nat) (hl : s.memory.view l = target invocation data start l) :
      (s.memory.store (invocation.address block k) ((s.workers i).buf k)).view l =
        target invocation data start l :=
    (hstore l).elim (fun hsame => hsame.trans hl) id
  unfold copyByte
  rw [if_pos hwrite]
  refine ⟨⟨fun l => ?_, hinv.mixed.medium⟩, fun j => ?_, hinv.workers, fun access hmem k hk => ?_⟩
  · cases hstore l with
    | inl hsame =>
        rw [hsame]
        exact hinv.mixed.view l
    | inr htarget => exact .inr htarget
  · have hcourse := (hinv.courses j).frame hkeeps rfl
    by_cases hj : j = i
    · subst hj
      dsimp only
      rw [Function.update_self]
      have hread {known : Prop} (hread : invocation.args.opWrite = false) : known := by
        cases hwrite.symm.trans hread
      refine ⟨hcourse.went, fun other more hother m hm hcopied => ?_, hcourse.data,
        fun h => hread h, fun h => hread h, fun hspent => by cases hblocks.symm.trans hspent⟩
      cases hblocks.symm.trans hother
      dsimp only at hcopied
      by_cases hkm : m = k
      · subst hkm
        exact Memory.view_store_self.trans (hinv.store_target hwrite hblocks hk)
      · rw [Function.update_of_ne hkm] at hcopied
        exact hcourse.copied block rest hblocks m hm hcopied
    · dsimp only
      rw [Function.update_of_ne hj]
      exact hcourse
  · obtain ⟨hview, hmedium⟩ := hinv.finished access hmem k hk
    exact ⟨hkeeps _ hview, hmedium⟩

end Writes

theorem Inv.view_of_read (hinv : Inv invocation data start s)
    (hread : invocation.args.opWrite = false) :
    s.memory.view = start ∧ s.memory.medium = start := by
  have htarget : target invocation data start = start := target_of_read hread
  constructor
  · funext l
    exact (hinv.mixed.view l).elim id fun h => h.trans (congrFun htarget l)
  · funext l
    exact (hinv.mixed.medium l).elim id fun h => h.trans (congrFun htarget l)

theorem Inv.readByte (hinv : Inv invocation data start s)
    (hread : invocation.args.opWrite = false) (hblocks : (s.workers i).blocks = block :: rest) :
    Inv invocation data start (copyByte invocation s i block k) := by
  unfold copyByte
  rw [if_neg (ne_true_of_eq_false hread)]
  refine ⟨hinv.mixed, fun j => ?_, hinv.workers, hinv.finished⟩
  by_cases hj : j = i
  · subst hj
    have hcourse := hinv.courses j
    have hstart := (hinv.view_of_read hread).1
    have htarget : target invocation data start = start := target_of_read hread
    dsimp only
    rw [Function.update_self]
    refine ⟨hcourse.went, fun other more hother m hm hcopied => ?_, fun hwrite => ?_,
      fun _ other more hother m hm hcopied => ?_, fun _ other hlast m hm hcopied => ?_,
      fun hspent => by cases hblocks.symm.trans hspent⟩
    · rw [hstart, htarget]
    · cases hread.symm.trans hwrite
    · cases hblocks.symm.trans hother
      dsimp only at hcopied ⊢
      by_cases hkm : m = k
      · subst hkm
        rw [Function.update_self, hstart]
      · rw [Function.update_of_ne hkm] at hcopied ⊢
        exact hcourse.filled hread block rest hblocks m hm hcopied
    · dsimp only at hcopied ⊢
      have hkm : m ≠ k := by
        rintro rfl
        rw [Function.update_self] at hcopied
        cases hcopied
      rw [Function.update_of_ne hkm] at hcopied ⊢
      exact hcourse.last hread other hlast m hm hcopied
  · dsimp only
    rw [Function.update_of_ne hj]
    exact hinv.courses j

private theorem inBlock_address (hk : k < invocation.blockSize) :
    inBlock invocation block (invocation.address block k) = true := by
  simp [inBlock, Invocation.address, hk]

theorem Inv.written_back (hinv : Inv invocation data start s) {memory : Memory fun _ : Nat => UInt8}
    (hview : memory.view = s.memory.view)
    (hmedium : ∀ l, memory.medium l = s.memory.medium l ∨ memory.medium l = s.memory.view l) :
    Inv invocation data start { s with memory := memory } := by
  refine ⟨⟨?_, fun l => ?_⟩, fun i => ?_, hinv.workers, fun access hmem k hk => ?_⟩
  · rw [hview]
    exact hinv.mixed.view
  · cases hmedium l with
    | inl hsame =>
        rw [hsame]
        exact hinv.mixed.medium l
    | inr hnew =>
        rw [hnew]
        exact hinv.mixed.view l
  · rw [hview]
    exact hinv.courses i
  · obtain ⟨hseen, hdurable⟩ := hinv.finished access hmem k hk
    rw [hview]
    refine ⟨hseen, ?_⟩
    cases hmedium (invocation.address access.blockOfs k) with
    | inl hsame => exact hsame.trans hdurable
    | inr hnew => exact hnew.trans hseen

theorem Inv.evict (hinv : Inv invocation data start s) (l : Nat) :
    Inv invocation data start { s with memory := s.memory.evict l (s.memory.view l) } := by
  apply hinv.written_back Memory.view_evict
  intro other
  by_cases heq : other = l
  · subst heq
    exact .inr Memory.medium_evict_self
  · exact .inl (Memory.medium_evict_of_ne heq)

theorem accessesOf_append_self (log : List Access) (i : Nat) (block : UInt64) :
    accessesOf (log ++ [⟨i, block⟩]) i = accessesOf log i ++ [block] := by
  simp [accessesOf]

theorem accessesOf_append_of_ne {log : List Access} {i j : Nat} (hne : j ≠ i) :
    accessesOf (log ++ [⟨i, block⟩]) j = accessesOf log j := by
  simp [accessesOf, hne.symm]

theorem Inv.finish (hinv : Inv invocation data start s)
    (hblocks : (s.workers i).blocks = block :: rest)
    (hall : ∀ k < invocation.blockSize, (s.workers i).copied k = true) :
    Inv invocation data start (finishBlock invocation s i block rest) := by
  have hview : (finishBlock invocation s i block rest).memory.view = s.memory.view := by
    unfold finishBlock
    dsimp only
    split <;> rfl
  have hback : Inv invocation data start
      { s with memory := (finishBlock invocation s i block rest).memory } := by
    refine hinv.written_back hview fun l => ?_
    unfold finishBlock
    dsimp only
    split
    · cases hl : inBlock invocation block l with
      | true => exact .inr (Memory.medium_persist hl)
      | false => exact .inl (Memory.medium_persist_of_not hl)
    · exact .inl rfl
  have hseen (k : Nat) (hk : k < invocation.blockSize) :=
    (hinv.courses i).copied block rest hblocks k hk (hall k hk)
  refine ⟨hback.mixed, fun j => ?_, fun access hmem => ?_, fun access hmem k hk => ?_⟩
  · have hcourse := hback.courses j
    unfold finishBlock
    dsimp only
    by_cases hj : j = i
    · subst hj
      rw [Function.update_self]
      refine ⟨?_, fun _ _ _ _ _ hcopied => absurd hcopied Bool.false_ne_true, hcourse.data,
        fun _ _ _ _ _ _ hcopied => absurd hcopied Bool.false_ne_true,
        fun hread other hlast k hk _ => ?_, fun _ _ => rfl⟩
      · rw [accessesOf_append_self, List.append_assoc, List.singleton_append, ← hblocks]
        exact hcourse.went
      · rw [accessesOf_append_self, List.getLast?_append_of_ne_nil _ (by simp)] at hlast
        cases hlast
        exact hcourse.filled hread block rest hblocks k hk (hall k hk)
    · have hne : j.val ≠ i.val := fun heq => hj (Fin.ext heq)
      rw [Function.update_of_ne hj]
      exact hcourse.frame (fun _ => id) (accessesOf_append_of_ne hne)
  · obtain hold | hnew := List.mem_append.mp hmem
    · exact hinv.workers access hold
    · obtain rfl := List.mem_singleton.mp hnew
      exact i.isLt
  · obtain hold | hnew := List.mem_append.mp hmem
    · exact hback.finished access hold k hk
    · obtain rfl := List.mem_singleton.mp hnew
      refine ⟨hview ▸ hseen k hk, ?_⟩
      cases hwrite : invocation.args.opWrite with
      | false =>
          rw [(hback.view_of_read hwrite).2, target_of_read hwrite]
      | true =>
          unfold finishBlock
          rw [if_pos hwrite]
          exact (Memory.medium_persist (inBlock_address hk)).trans (hseen k hk)

theorem Inv.preserved (hinv : Inv invocation data start s) {s' : State invocation.nthreads}
    {action : Action invocation.nthreads} (hmoves : Moves invocation s action s') :
    Inv invocation data start s' := by
  cases hmoves with
  | byte i block rest k hblocks hk =>
      cases hwrite : invocation.args.opWrite with
      | true => exact hinv.writeByte hwrite hblocks hk
      | false => exact hinv.readByte hwrite hblocks
  | finish i block rest hblocks hall => exact hinv.finish hblocks hall
  | evict l => exact hinv.evict l

theorem inv_of_reachable (hs : (machine invocation data start).Reachable s) :
    Inv invocation data start s := by
  apply hs.invariant (motive := Inv invocation data start)
  · rintro s rfl
    exact inv_start
  · intro s action s' _ hinv hstep
    exact hinv.preserved (moves_of_step hstep)

def Done (s : State invocation.nthreads) : Prop := ∀ i, (s.workers i).blocks = []

theorem Inv.accessesOf_eq (hinv : Inv invocation data start s) (hdone : Done s)
    (i : Fin invocation.nthreads) : accessesOf s.log i = invocation.blocks i := by
  have hwent := (hinv.courses i).went
  rwa [hdone i, List.append_nil] at hwent

theorem Inv.eq_target (hinv : Inv invocation data start s) (hdone : Done s) (l : Nat) :
    s.memory.view l = target invocation data start l ∧
      s.memory.medium l = target invocation data start l := by
  by_cases htouched : invocation.args.opWrite = true ∧ ∃ i < invocation.nthreads,
      ∃ block ∈ invocation.blocks i, block.toNat = l / invocation.blockSize
  · obtain ⟨_, i, hi, block, hblock, hdiv⟩ := htouched
    have hlogged : block ∈ accessesOf s.log i := by
      rw [hinv.accessesOf_eq hdone ⟨i, hi⟩]
      exact hblock
    obtain ⟨access, hmem, rfl⟩ := List.mem_map.mp hlogged
    have haddress : invocation.address access.blockOfs (l % invocation.blockSize) = l := by
      rw [address_eq hi hblock, hdiv]
      exact Nat.div_add_mod' l invocation.blockSize
    have hfinished := hinv.finished access (List.mem_of_mem_filter hmem) (l % invocation.blockSize)
      (Nat.mod_lt l (blockSize_pos invocation))
    rwa [haddress] at hfinished
  · have htarget : target invocation data start l = start l := if_neg htouched
    exact ⟨(hinv.mixed.view l).elim (fun h => h.trans htarget.symm) id,
      (hinv.mixed.medium l).elim (fun h => h.trans htarget.symm) id⟩

theorem Inv.current_unique (hinv : Inv invocation data start s) {i j : Fin invocation.nthreads}
    (hi : (s.workers i).blocks.head? = some block)
    (hj : (s.workers j).blocks.head? = some block) : i = j := by
  obtain ⟨rest, hblocks⟩ := List.head?_eq_some_iff.mp hi
  obtain ⟨rest', hblocks'⟩ := List.head?_eq_some_iff.mp hj
  exact Fin.ext (worker_unique i.isLt j.isLt ((hinv.courses i).mem hblocks)
    ((hinv.courses j).mem hblocks'))

end Invariant

/-- A run of `pmem2bench` from the first byte to the last, with a crash anywhere. -/
theorem run_contents (invocation : Invocation) (hbounds : invocation.InBounds)
    (data start : Nat → UInt8) (s : State invocation.nthreads)
    (hs : (machine invocation data start).Reachable s) :
    (∀ i block, (s.workers i).blocks.head? = some block →
      (∀ k < invocation.blockSize,
        invocation.address block k < invocation.mapSize ∧ k < bufSize) ∧
      ∀ j, (s.workers j).blocks.head? = some block → i = j) ∧
    Mixed start (target invocation data start) s.memory ∧
    (∀ access ∈ s.log, ∀ k < invocation.blockSize,
      s.memory.medium (invocation.address access.blockOfs k) =
        target invocation data start (invocation.address access.blockOfs k)) ∧
    (invocation.args.opWrite = false → s.memory.view = start ∧ s.memory.medium = start) ∧
    (Done s →
      s.memory.view = target invocation data start ∧
      s.memory.medium = target invocation data start ∧
      (∀ i < invocation.nthreads, accessesOf s.log i = invocation.blocks i) ∧
      (invocation.args.opWrite = false → ∀ (i : Fin invocation.nthreads) block,
        (invocation.blocks i).getLast? = some block → ∀ k < invocation.blockSize,
          (s.workers i).buf k = start (invocation.address block k))) ∧
    (invocation.args.stripUnitSize % invocation.args.blockSize = 0 →
      invocation.args.opWrite = true → invocation.opDryRun = false →
      ∀ l < invocation.args.totalSize.toNat,
        target invocation data start l = data (l % invocation.blockSize)) := by
  have hinv := inv_of_reachable hs
  refine ⟨fun i block hi => ⟨fun k hk => ?_, fun j => hinv.current_unique hi⟩, hinv.mixed,
    fun access hmem k hk => (hinv.finished access hmem k hk).2, hinv.view_of_read,
    fun hdone => ⟨?_, ?_, ?_, ?_⟩, fun hwhole hwrite hdry l => target_whole hwhole hwrite hdry⟩
  · obtain ⟨rest, hblocks⟩ := List.head?_eq_some_iff.mp hi
    exact address_lt hbounds i.isLt ((hinv.courses i).mem hblocks) hk
  · exact funext fun l => (hinv.eq_target hdone l).1
  · exact funext fun l => (hinv.eq_target hdone l).2
  · exact fun i hi => hinv.accessesOf_eq hdone ⟨i, hi⟩
  · intro hread i block hlast k hk
    rw [← hinv.accessesOf_eq hdone i] at hlast
    have hcourse := hinv.courses i
    exact hcourse.last hread block hlast k hk (hcourse.spent (hdone i) k)

def twoBytes : Args where
  blockSize := 1
  stripeSize := 2
  nthreads := 2
  totalSize := 2
  opRead := false
  opWrite := true

def twoWriters : Invocation where
  args := twoBytes
  accessOffset := [0]
  opDryRun := false
  mapSize := 2
  accepted := by constructor <;> decide
  shuffled := by unfold AccessOffset; decide

/-- The second worker is done before the first has begun. -/
theorem run_contents_twoWriters : ∃ s,
    (machine twoWriters (fun _ => 7) fun _ => 0).Reachable s ∧
    ∀ l < 2, s.memory.medium l = 7 := by
  let first : Fin twoWriters.nthreads := ⟨0, by decide⟩
  let second : Fin twoWriters.nthreads := ⟨1, by decide⟩
  obtain ⟨s, hrun, hdone⟩ : ∃ s,
      (machine twoWriters (fun _ => 7) fun _ => 0).Run
        ⟨⟨fun _ => 0, fun _ => 0⟩, fun i => twoWriters.start (fun _ => 7) i, []⟩
        [.byte second 0, .finish second, .byte first 0, .finish first] s ∧ Done s :=
    ⟨_, .cons rfl (.cons rfl (.cons rfl (.single rfl))), by unfold Done; decide⟩
  have hs : (machine twoWriters (fun _ => 7) fun _ => 0).Reachable s := ⟨_, _, rfl, hrun⟩
  obtain ⟨_, _, _, _, hend, hwhole⟩ :=
    run_contents twoWriters ⟨by decide, by decide⟩ (fun _ => 7) (fun _ => 0) s hs
  refine ⟨s, hs, fun l hl => ?_⟩
  rw [(hend hdone).2.1]
  exact hwhole (by decide) rfl rfl l hl

end SpackPlayground.Pmem2Bench.Contents
