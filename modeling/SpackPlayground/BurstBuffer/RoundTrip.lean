import SpackPlayground.BurstBuffer.Creation

/-! A list node has its bytes before anything refers to it, and other nodes keep
theirs. -/
namespace SpackPlayground.BurstBuffer.RoundTrip

open Creation Encoding Library.Bytes Library.Transition Memory Operations Regions
open Library.Persistence

def header (addr : Nat) : Set Nat := Set.Ico addr (addr + sizeofPersistent)

def payload (addr : Nat) (write : Write) : Set Nat :=
  Set.Ico (dataAt addr) (dataAt addr + write.data.length)

def allocation (addr : Nat) (write : Write) : Set Nat :=
  Set.Ico addr (addr + (reqCapacity write.data).toNat)

structure Owns (place : Place) (pool : Pool) (call : Call) (addr : Addr) : Prop where
  valid : Valid pool call.ptr
  free : Free place pool addr (extent (create call.write))

/-- The header is complete, and will be there after a crash. -/
structure Constructed (place : Place) (mem : Mem) (call : Call) (addr : Addr) : Prop where
  holds : Holds mem.view addr (headerBytes place.uuid call.write)
  durable : mem.Durable (header addr)

def Progress (place : Place) (pool : Pool) (mem : Mem) : Pc → Prop
  | .idle => True
  | .allocating call => Valid pool call.ptr
  | .constructing call addr i =>
      Holds mem.view addr ((headerBytes place.uuid call.write).take i)
  | .persisting call addr => Holds mem.view addr (headerBytes place.uuid call.write)
  | .copying call addr n i => Constructed place mem call addr ∧
      n = call.write.data.length ∧ Holds mem.view (dataAt addr) (call.write.data.take i)
  | .draining call addr n => Constructed place mem call addr ∧
      n = call.write.data.length ∧ Holds mem.view (dataAt addr) call.write.data
  | .publishing call addr => Constructed place mem call addr ∧
      Holds mem.view (dataAt addr) call.write.data ∧ mem.Durable (payload addr call.write)
  | .undefined => False

structure Inv (place : Place) (s : State) : Prop where
  represents : Represents place s.mem.view s.pool
  durable : s.mem.Durable (region place s.pool)
  apart : Apart place s.pool
  grounded : Grounded s.pool
  created : ∀ addr write, (addr, write) ∈ s.created → s.pool.heap.writeAt addr = some write
  owns : ∀ call addr, s.pc.block = some (call, addr) → Owns place s.pool call addr
  progress : Progress place s.pool s.mem s.pc

section Blocks

variable {place : Place} {pool : Pool} {addr l : Nat} {write : Write}

private theorem allocation_eq (addr : Nat) (hfits : write.data.length < 2 ^ 63) :
    allocation addr write = block addr (create write) := by
  unfold allocation
  rw [toNat_reqCapacity hfits]
  rfl

theorem block_eq (addr : Nat) (write : Write) :
    block addr (create write) = header addr ∪ payload addr write := by
  have hend : addr + extent (create write) = dataAt addr + write.data.length := by
    rw [dataAt_eq, Nat.add_assoc]
    rfl
  unfold block header payload
  rw [hend, dataAt_eq]
  exact (Set.Ico_union_Ico_eq_Ico (Nat.le_add_right ..) (Nat.le_add_right ..)).symm

theorem header_subset_block : header addr ⊆ block addr (create write) := by
  rw [block_eq]
  exact Set.subset_union_left

theorem payload_subset_block : payload addr write ⊆ block addr (create write) := by
  rw [block_eq]
  exact Set.subset_union_right

theorem disjoint_header_payload : Disjoint (header addr) (payload addr write) :=
  Set.disjoint_left.mpr fun _ hl hl' => Nat.not_lt.mpr hl'.1 hl.2

end Blocks

structure Continues (call : Call) (addr : Addr) (s s' : State) : Prop where
  block : s'.pc.block = some (call, addr)
  pool : s'.pool = s.pool
  created : s'.created = s.created
  view : Set.EqOn s'.mem.view s.mem.view (Set.compl (header addr ∪ payload addr call.write))
  medium : Set.EqOn s'.mem.medium s.mem.medium (Set.compl (header addr ∪ payload addr call.write))
  remaining : s'.pc.remaining < s.pc.remaining

section Steps

variable {place : Place} {s s' : State} {mem : Mem} {pool : Pool} {pc : Pc} {call : Call}
  {addr : Addr} {l : Nat} {b : UInt8} {range : Nat → Bool}

theorem Inv.update (hinv : Inv place s)
    (hsame : Set.EqOn mem.view s.mem.view (region place s.pool))
    (hdurable : mem.Durable (region place s.pool))
    (howns : ∀ call addr, pc.block = some (call, addr) → Owns place s.pool call addr)
    (hprogress : Progress place s.pool mem pc) :
    Inv place { s with mem := mem, pc := pc } where
  represents := represents_congr hinv.represents hsame
  durable := hdurable
  apart := hinv.apart
  grounded := hinv.grounded
  created := hinv.created
  owns := howns
  progress := hprogress

theorem Owns.notMem_region (howns : Owns place pool call addr)
    (hl : l ∈ block addr (create call.write)) : l ∉ region place pool :=
  Set.disjoint_left.mp howns.free.2.2 hl

theorem Owns.of_block (howns : Owns place pool call addr) (hblock : pc.block = some (call, addr)) :
    ∀ call addr, pc.block = some (call, addr) → Owns place pool call addr := by
  intro call' addr' hblock'
  cases hblock.symm.trans hblock'
  exact howns

theorem Inv.goto (hinv : Inv place s) (howns : Owns place s.pool call addr)
    (hblock : pc.block = some (call, addr)) (hprogress : Progress place s.pool s.mem pc) :
    Inv place { s with pc := pc } :=
  hinv.update (Set.eqOn_refl ..) hinv.durable (howns.of_block hblock) hprogress

theorem Inv.store (hinv : Inv place s) (howns : Owns place s.pool call addr)
    (hblock : pc.block = some (call, addr)) (hl : l ∈ block addr (create call.write))
    (hprogress : Progress place s.pool (s.mem.store l b) pc) :
    Inv place { s with mem := s.mem.store l b, pc := pc } := by
  have hnotMem := howns.notMem_region hl
  have hsame : Set.EqOn (s.mem.store l b).view s.mem.view (region place s.pool) :=
    fun _ hother => Memory.view_store_of_mem hother hnotMem
  exact hinv.update hsame (hinv.durable.store hnotMem) (howns.of_block hblock) hprogress

theorem Inv.persist (hinv : Inv place s) (howns : Owns place s.pool call addr)
    (hblock : pc.block = some (call, addr))
    (hprogress : Progress place s.pool (s.mem.persist range) pc) :
    Inv place { s with mem := s.mem.persist range, pc := pc } :=
  hinv.update (Set.eqOn_refl ..) (hinv.durable.persist range) (howns.of_block hblock) hprogress

theorem Constructed.store (hconstructed : Constructed place mem call addr)
    (hl : l ∉ header addr) : Constructed place (mem.store l b) call addr where
  holds := by
    apply hconstructed.holds.congr
    rw [length_headerBytes]
    exact fun _ hother => Memory.view_store_of_mem hother hl
  durable := hconstructed.durable.store hl

theorem Constructed.evict {x : UInt8} (hconstructed : Constructed place mem call addr)
    (hx : mem.Evictable l x) : Constructed place (mem.evict l x) call addr where
  holds := hconstructed.holds
  durable := hconstructed.durable.evict hx

theorem Inv.evict {x : UInt8} (hinv : Inv place s) (hx : s.mem.Evictable l x) :
    Inv place { s with mem := s.mem.evict l x } := by
  have hsame : Set.EqOn (s.mem.evict l x).view s.mem.view (region place s.pool) := fun _ _ => rfl
  apply hinv.update hsame (hinv.durable.evict hx) hinv.owns
  have hprogress := hinv.progress
  cases hpc : s.pc with
  | idle => trivial
  | undefined => rwa [hpc] at hprogress
  | allocating call => rwa [hpc] at hprogress
  | constructing call addr i => rwa [hpc] at hprogress
  | persisting call addr => rwa [hpc] at hprogress
  | copying call addr n i =>
      rw [hpc] at hprogress
      obtain ⟨hconstructed, hn, hdata⟩ := hprogress
      exact ⟨hconstructed.evict hx, hn, hdata⟩
  | draining call addr n =>
      rw [hpc] at hprogress
      obtain ⟨hconstructed, hn, hdata⟩ := hprogress
      exact ⟨hconstructed.evict hx, hn, hdata⟩
  | publishing call addr =>
      rw [hpc] at hprogress
      obtain ⟨hconstructed, hdata, hdurable⟩ := hprogress
      exact ⟨hconstructed.evict hx, hdata, hdurable.evict hx⟩

theorem Inv.crash (hinv : Inv place s) : Inv place { s with mem := s.mem.crash, pc := .idle } :=
  hinv.update hinv.durable (fun _ _ => rfl) nofun trivial

theorem within_iff {n : Nat} : within addr n l = true ↔ l ∈ Set.Ico addr (addr + n) := by
  simp [within]

theorem Continues.goto (hblock : pc.block = some (call, addr))
    (hlt : pc.remaining < s.pc.remaining) : Continues call addr s { s with pc := pc } where
  block := hblock
  pool := rfl
  created := rfl
  view := Set.eqOn_refl ..
  medium := Set.eqOn_refl ..
  remaining := hlt

theorem Continues.store (hblock : pc.block = some (call, addr))
    (hl : l ∈ header addr ∪ payload addr call.write) (hlt : pc.remaining < s.pc.remaining) :
    Continues call addr s { s with mem := s.mem.store l b, pc := pc } where
  block := hblock
  pool := rfl
  created := rfl
  view _ hother := Memory.view_store_of_mem hother fun hcompl => hcompl hl
  medium := Set.eqOn_refl ..
  remaining := hlt

theorem Continues.persist (hblock : pc.block = some (call, addr))
    (hrange : ∀ l, range l = true → l ∈ header addr ∪ payload addr call.write)
    (hlt : pc.remaining < s.pc.remaining) :
    Continues call addr s { s with mem := s.mem.persist range, pc := pc } where
  block := hblock
  pool := rfl
  created := rfl
  view := Set.eqOn_refl ..
  medium other hother := by
    apply Memory.medium_persist_of_not
    exact Bool.eq_false_iff.mpr fun htrue => hother (hrange other htrue)
  remaining := hlt

end Steps

structure Decodes (image : Nat → UInt8) (addr : Addr) (write : Write) : Prop where
  offset : (nodeAt image addr).offset = write.offset
  sv : (nodeAt image addr).sv = write.data

/-- The call returns. Apart from its block, it has changed the pointer to it. -/
structure Returns (place : Place) (call : Call) (addr : Addr) (s s' : State) : Prop where
  pc : s'.pc = .idle
  created : s'.created = s.created ++ [(addr, call.write)]
  next : (nodeAt s'.mem.view addr).next = none
  view : Decodes s'.mem.view addr call.write
  medium : Decodes s'.mem.medium addr call.write
  elsewhere : ∃ dest, destinationAt place call.ptr = some dest ∧
    pointerAt s'.mem.view dest = some addr ∧
    Set.EqOn s'.mem.view s.mem.view
      (Set.compl (header addr ∪ payload addr call.write ∪ slot dest)) ∧
    Set.EqOn s'.mem.medium s.mem.medium
      (Set.compl (header addr ∪ payload addr call.write ∪ slot dest))

def Proceeds (place : Place) (call : Call) (addr : Addr) (s : State) : Prop :=
  ∃ s', work place s = some s' ∧ Inv place s' ∧
    (Continues call addr s s' ∨ Returns place call addr s s')

section Calls

variable {place : Place} {mem : Mem} {pool : Pool} {created : List (Addr × Write)} {call : Call}
  {addr : Addr} {n i : Nat} {s s' t : State}

theorem Decodes.of_write {image : Nat → UInt8} {node : Node} {write : Write}
    (hnode : nodeAt image addr = node) (hwrite : node.write = write) :
    Decodes image addr write where
  offset := by
    rw [hnode, ← hwrite]
    rfl
  sv := by
    rw [hnode, ← hwrite]
    rfl

private theorem proceeds_constructing
    (hinv : Inv place ⟨mem, pool, .constructing call addr i, created⟩) :
    Proceeds place call addr ⟨mem, pool, .constructing call addr i, created⟩ := by
  have howns := hinv.owns call addr rfl
  have hholds : Holds mem.view addr ((headerBytes place.uuid call.write).take i) := hinv.progress
  cases hget : (headerBytes place.uuid call.write)[i]? with
  | some b =>
      have hlt : i < sizeofPersistent := by
        rw [← length_headerBytes place.uuid call.write]
        exact (List.getElem?_eq_some_iff.mp hget).1
      have hl : addr + i ∈ header addr := ⟨Nat.le_add_right .., Nat.add_lt_add_left hlt addr⟩
      refine ⟨⟨mem.store (addr + i) b, pool, .constructing call addr (i + 1), created⟩,
        ?_, ?_, .inl ?_⟩
      · simp only [work, hget]
      · exact hinv.store howns rfl (header_subset_block hl) (hholds.snoc hget)
      · apply Continues.store rfl (.inl hl)
        simp only [Pc.remaining]
        omega
  | none =>
      have hle : (headerBytes place.uuid call.write).length ≤ i := List.getElem?_eq_none_iff.mp hget
      rw [List.take_of_length_le hle] at hholds
      refine ⟨⟨mem, pool, .persisting call addr, created⟩, ?_, ?_, .inl ?_⟩
      · simp only [work, hget]
      · exact hinv.goto howns rfl hholds
      · apply Continues.goto rfl
        simp only [Pc.remaining]
        omega

private theorem proceeds_persisting (hinv : Inv place ⟨mem, pool, .persisting call addr, created⟩) :
    Proceeds place call addr ⟨mem, pool, .persisting call addr, created⟩ := by
  have howns := hinv.owns call addr rfl
  have hholds : Holds mem.view addr (headerBytes place.uuid call.write) := hinv.progress
  have hsize := toNat_sizeAt_of_holds call.fits hholds
  refine ⟨⟨mem.persist (within addr sizeofPersistent), pool,
    .copying call addr call.write.data.length 0, created⟩, ?_, ?_, .inl ?_⟩
  · simp only [work, hsize]
  · have hdurable : (mem.persist (within addr sizeofPersistent)).Durable (header addr) :=
      Memory.durable_persist fun _ hl => within_iff.mpr hl
    exact hinv.persist howns rfl ⟨⟨hholds, hdurable⟩, rfl, holds_nil⟩
  · apply Continues.persist rfl fun _ hl => .inl (within_iff.mp hl)
    simp only [Pc.remaining]
    omega

private theorem proceeds_copying (hinv : Inv place ⟨mem, pool, .copying call addr n i, created⟩) :
    Proceeds place call addr ⟨mem, pool, .copying call addr n i, created⟩ := by
  have howns := hinv.owns call addr rfl
  obtain ⟨hconstructed, hn, hdata⟩ := hinv.progress
  by_cases hlt : i < n
  · obtain ⟨b, hget⟩ : ∃ b, call.write.data[i]? = some b :=
      ⟨_, List.getElem?_eq_getElem (hn ▸ hlt)⟩
    have hl : dataAt addr + i ∈ payload addr call.write :=
      ⟨Nat.le_add_right .., Nat.add_lt_add_left (hn ▸ hlt) _⟩
    refine ⟨⟨mem.store (dataAt addr + i) b, pool, .copying call addr n (i + 1), created⟩,
      ?_, ?_, .inl ?_⟩
    · simp only [work, hlt, if_true, hget]
    · have hnotMem : dataAt addr + i ∉ header addr :=
        fun hheader => Set.disjoint_left.mp disjoint_header_payload hheader hl
      exact hinv.store howns rfl (payload_subset_block hl)
        ⟨hconstructed.store hnotMem, hn, hdata.snoc hget⟩
    · apply Continues.store rfl (.inr hl)
      simp only [Pc.remaining]
      omega
  · rw [List.take_of_length_le (hn ▸ Nat.le_of_not_lt hlt)] at hdata
    refine ⟨⟨mem, pool, .draining call addr n, created⟩, ?_, ?_, .inl ?_⟩
    · simp only [work, hlt, if_false]
    · exact hinv.goto howns rfl ⟨hconstructed, hn, hdata⟩
    · apply Continues.goto rfl
      simp only [Pc.remaining]
      omega

private theorem proceeds_draining (hinv : Inv place ⟨mem, pool, .draining call addr n, created⟩) :
    Proceeds place call addr ⟨mem, pool, .draining call addr n, created⟩ := by
  have howns := hinv.owns call addr rfl
  obtain ⟨hconstructed, rfl, hdata⟩ := hinv.progress
  refine ⟨⟨mem.persist (within (dataAt addr) call.write.data.length), pool,
    .publishing call addr, created⟩, rfl, ?_, .inl ?_⟩
  · have hdurable : (mem.persist (within (dataAt addr) call.write.data.length)).Durable
        (payload addr call.write) :=
      Memory.durable_persist fun _ hl => within_iff.mpr hl
    exact hinv.persist howns rfl
      ⟨⟨hconstructed.holds, hconstructed.durable.persist _⟩, hdata, hdurable⟩
  · apply Continues.persist rfl fun _ hl => .inr (within_iff.mp hl)
    simp only [Pc.remaining]
    omega

theorem Inv.published {pool' : Pool} {dest : Nat} (hinv : Inv place s)
    (hfree : Free place s.pool addr (extent (create call.write)))
    (hnew : nodeAt s.mem.view addr = create call.write)
    (hdurable : s.mem.Durable (block addr (create call.write)))
    (hpublished : Published place s.pool addr call.write dest pool') :
    Inv place ⟨s.mem.assign (patch dest (pointerBytes place.uuid (some addr))), pool', .idle,
      s.created ++ [(addr, call.write)]⟩ where
  represents := hpublished.represents hfree hinv.represents hnew
  durable := by
    have hall : s.mem.Durable (region place s.pool ∪ block addr (create call.write)) := by
      rintro l (hregion | hblock)
      · exact hinv.durable l hregion
      · exact hdurable l hblock
    exact (hall.mono hpublished.region_subset).assign _
  apart := hpublished.apart hfree hinv.apart
  grounded := hpublished.grounded hinv.grounded
  created other write hmem := by
    rcases List.mem_append.mp hmem with hold | hlast
    · exact hpublished.keep other write (hinv.created other write hold)
    · cases List.mem_singleton.mp hlast
      unfold Heap.writeAt
      rw [hpublished.new, Option.map_some, create_write]
  owns := nofun
  progress := trivial

private theorem proceeds_publishing (hinv : Inv place ⟨mem, pool, .publishing call addr, created⟩) :
    Proceeds place call addr ⟨mem, pool, .publishing call addr, created⟩ := by
  have howns := hinv.owns call addr rfl
  obtain ⟨hconstructed, hdata, hpayload⟩ := hinv.progress
  have hbb : pool.bb.isSome := Option.isSome_iff_exists.mpr ⟨_, hinv.represents.bb⟩
  obtain ⟨dest, pool', hdest, hmake, hpublished⟩ :=
    publish hbb hinv.apart howns.valid howns.free
  have hnew : nodeAt mem.view addr = create call.write :=
    nodeAt_of_holds call.fits hconstructed.holds hdata
  have hdurable : mem.Durable (block addr (create call.write)) := by
    rw [block_eq]
    rintro l (hl | hl)
    · exact hconstructed.durable l hl
    · exact hpayload l hl
  have hafter := hinv.published howns.free hnew hdurable hpublished
  have hview := hafter.represents.node addr _ hpublished.new
  have hmedium := (represents_congr hafter.represents hafter.durable).node addr _ hpublished.new
  have hoff : Set.compl (header addr ∪ payload addr call.write ∪ slot dest) ⊆
      Set.compl (slot dest) := Set.compl_subset_compl.mpr Set.subset_union_right
  refine ⟨_, ?_, hafter, .inr ?_⟩
  · simp only [work, hdest, hmake]
  · exact {
      pc := rfl
      created := rfl
      next := by rw [hview, create_next]
      view := .of_write hview (create_write _)
      medium := .of_write hmedium (create_write _)
      elsewhere := ⟨dest, hdest, pointerAt_overwrite howns.free,
        overwrite_pointer_eqOn.mono hoff, overwrite_pointer_eqOn.mono hoff⟩ }

theorem Inv.proceeds (hinv : Inv place s) (hblock : s.pc.block = some (call, addr)) :
    Proceeds place call addr s := by
  obtain ⟨mem, pool, pc, created⟩ := s
  cases pc with
  | idle => cases hblock
  | allocating _ => cases hblock
  | undefined => cases hblock
  | constructing _ _ _ =>
      cases hblock
      exact proceeds_constructing hinv
  | persisting _ _ =>
      cases hblock
      exact proceeds_persisting hinv
  | copying _ _ _ _ =>
      cases hblock
      exact proceeds_copying hinv
  | draining _ _ _ =>
      cases hblock
      exact proceeds_draining hinv
  | publishing _ _ =>
      cases hblock
      exact proceeds_publishing hinv

private theorem work_of_block_eq_none (hblock : s.pc.block = none) : work place s = none := by
  obtain ⟨mem, pool, pc, created⟩ := s
  cases pc with
  | idle => rfl
  | allocating _ => rfl
  | undefined => rfl
  | constructing _ _ _ => cases hblock
  | persisting _ _ => cases hblock
  | copying _ _ _ _ => cases hblock
  | draining _ _ _ => cases hblock
  | publishing _ _ => cases hblock

theorem Inv.step {action : Action} (hinv : Inv place s)
    (hstep : (machine place).step s action s') : Inv place s' := by
  obtain ⟨hcan, hstep⟩ := hstep
  unfold Creation.step at hstep
  split at hstep
  · cases hstep
    exact hinv.update (Set.eqOn_refl ..) hinv.durable nofun hcan
  · rename_i addr call hpc
    cases hstep
    have hvalid := hinv.progress
    rw [hpc] at hvalid
    have hfree := hcan call hpc
    rw [toNat_reqCapacity call.fits] at hfree
    exact hinv.goto ⟨hvalid, hfree⟩ rfl holds_nil
  · cases hstep
    exact hinv.update (Set.eqOn_refl ..) hinv.durable nofun trivial
  · cases hblock : s.pc.block with
    | none =>
        rw [work_of_block_eq_none hblock] at hstep
        cases hstep
    | some block =>
        obtain ⟨t, hwork, hafter, _⟩ := hinv.proceeds hblock
        rw [hwork] at hstep
        cases hstep
        exact hafter
  · cases hstep
    exact hinv.evict hcan
  · cases hstep
    exact hinv.crash
  · cases hstep

theorem inv_of_reachable (hs : (machine place).Reachable s) : Inv place s := by
  apply hs.invariant
  · rintro s ⟨hidle, hcreated, hrepresents, hdurable, hapart, hgrounded⟩
    refine ⟨hrepresents, hdurable, hapart, hgrounded, ?_, ?_, ?_⟩
    · rw [hcreated]
      nofun
    · rw [hidle]
      nofun
    · rw [hidle]
      trivial
  · intro s action t _ hinv hstep
    exact hinv.step hstep

theorem Continues.returns (hcontinues : Continues call addr s t)
    (hreturns : Returns place call addr t s') : Returns place call addr s s' where
  pc := hreturns.pc
  created := hcontinues.created ▸ hreturns.created
  next := hreturns.next
  view := hreturns.view
  medium := hreturns.medium
  elsewhere := by
    obtain ⟨dest, hdest, hpointer, hview, hmedium⟩ := hreturns.elsewhere
    have hoff : Set.compl (header addr ∪ payload addr call.write ∪ slot dest) ⊆
        Set.compl (header addr ∪ payload addr call.write) :=
      Set.compl_subset_compl.mpr Set.subset_union_left
    exact ⟨dest, hdest, hpointer, hview.trans (hcontinues.view.mono hoff),
      hmedium.trans (hcontinues.medium.mono hoff)⟩

private theorem exists_run_returns (hinv : Inv place s) (hblock : s.pc.block = some (call, addr)) :
    ∃ n s', (machine place).Run s (List.replicate n .work) s' ∧
      Returns place call addr s s' := by
  induction hremaining : s.pc.remaining using Nat.strong_induction_on generalizing s with
  | h remaining ih =>
      obtain ⟨t, hwork, hafter, hcontinues | hreturns⟩ := hinv.proceeds hblock
      · obtain ⟨n, s', hrun, hreturns⟩ :=
          ih _ (hremaining ▸ hcontinues.remaining) hafter hcontinues.block rfl
        exact ⟨n + 1, s', .cons ⟨trivial, hwork⟩ hrun, hcontinues.returns hreturns⟩
      · exact ⟨1, t, .single ⟨trivial, hwork⟩, hreturns⟩

end Calls

/-- A walk from `BurstBuffer::Persistent` along the pointers in memory. -/
inductive Reaches (place : Place) (image : Nat → UInt8) : Addr → Prop where
  | active {addr : Addr} : pointerAt image place.bb = some addr → Reaches place image addr
  | flushing {addr : Addr} :
      pointerAt image (flushingAt place) = some addr → Reaches place image addr
  | next {addr target : Addr} :
      Reaches place image addr → pointerAt image addr = some target → Reaches place image target

structure InPlace (place : Place) (pool : Pool) (addr : Addr) (write : Write) : Prop where
  capacity : (reqCapacity write.data).toNat = sizeofPersistent + write.data.length
  header : header addr ⊆ allocation addr write
  payload : payload addr write ⊆ allocation addr write
  apart : Disjoint (RoundTrip.header addr) (RoundTrip.payload addr write)
  elsewhere : Disjoint (allocation addr write) (region place pool)

variable {place : Place} {s : State} {image : Nat → UInt8} {pool : Pool} {call : Call} {addr : Addr}

theorem Reaches.mem (hreaches : Reaches place image addr)
    (hrepresents : Represents place image pool) (hgrounded : Grounded pool) :
    addr ∈ pool.heap := by
  induction hreaches with
  | active hpointer =>
      apply hgrounded.active
      rw [hrepresents.active_eq]
      exact hpointer
  | flushing hpointer =>
      apply hgrounded.flushing
      rw [hrepresents.flushing_eq]
      exact hpointer
  | next _ hpointer ih =>
      obtain ⟨node, hlookup⟩ := Finmap.mem_iff.mp ih
      apply hgrounded.next _ node _ hlookup
      rw [← hrepresents.node _ node hlookup, nodeAt_next]
      exact hpointer

theorem Owns.inPlace (howns : Owns place pool call addr) : InPlace place pool addr call.write := by
  have hallocation := allocation_eq addr call.fits
  refine ⟨toNat_reqCapacity call.fits, ?_, ?_, disjoint_header_payload, ?_⟩
  · rw [hallocation]
    exact header_subset_block
  · rw [hallocation]
    exact payload_subset_block
  · rw [hallocation]
    exact howns.free.2.2

/-- In every state, what has been created decodes, and would after a crash; and a call
writes in its own block only, which nothing refers to after a crash, until it returns. -/
theorem create_complete (place : Place) {s : State} (hs : (machine place).Reachable s) :
    (∀ addr write, (addr, write) ∈ s.created →
      Decodes s.mem.view addr write ∧ Decodes s.mem.medium addr write) ∧
    ∀ call addr, s.pc.block = some (call, addr) →
      InPlace place s.pool addr call.write ∧
      (∀ s', (machine place).step s .work s' →
        Continues call addr s s' ∨ Returns place call addr s s') ∧
      (∃ n s', (machine place).Run s (List.replicate n .work) s' ∧
        Returns place call addr s s') ∧
      ∀ s', (machine place).step s .crash s' → ¬ Reaches place s'.mem.view addr := by
  have hinv := inv_of_reachable hs
  have hmedium := represents_congr hinv.represents hinv.durable
  constructor
  · intro addr write hmem
    obtain ⟨node, hlookup, hwrite⟩ := Option.map_eq_some_iff.mp (hinv.created addr write hmem)
    exact ⟨.of_write (hinv.represents.node addr node hlookup) hwrite,
      .of_write (hmedium.node addr node hlookup) hwrite⟩
  · intro call addr hblock
    have howns := hinv.owns call addr hblock
    refine ⟨howns.inPlace, ?_, exists_run_returns hinv hblock, ?_⟩
    · rintro s' ⟨_, hstep⟩
      obtain ⟨t, hwork, _, hnext⟩ := hinv.proceeds hblock
      cases hwork.symm.trans hstep
      exact hnext
    · rintro s' ⟨_, hcrash⟩ hreaches
      cases hcrash
      exact notMem_of_free howns.free (hreaches.mem hmedium hinv.grounded)

def freshPlace : Place := ⟨1, 4096, 16, by decide⟩

def freshPool : Pool := ⟨some ⟨none, none⟩, ∅⟩

def twoBytes : Call := ⟨.active, ⟨7, [1, 2]⟩, by decide⟩

def freshState (pc : Pc) : State := ⟨⟨fun _ => 0, fun _ => 0⟩, freshPool, pc, []⟩

private theorem fresh_reachable :
    (machine freshPlace).Reachable (freshState (.constructing twoBytes 64 0)) := by
  have hlookup : ∀ addr node, freshPool.heap.lookup addr ≠ some node := nofun
  have hidle : (machine freshPlace).Reachable (freshState .idle) := by
    apply System.reachable_init
    refine ⟨rfl, rfl, ⟨by decide, ?_⟩, fun _ _ => rfl, ⟨?_, ?_⟩, ⟨nofun, nofun, ?_⟩⟩
    · exact fun addr node h => absurd h (hlookup addr node)
    · exact fun addr node _ _ h => absurd h (hlookup addr node)
    · exact fun addr node h => absurd h (hlookup addr node)
    · exact fun addr node _ h => absurd h (hlookup addr node)
  have hcall : (machine freshPlace).step (freshState .idle) (.makePersistentAtomic twoBytes)
      (freshState (.allocating twoBytes)) := ⟨trivial, rfl⟩
  have hallocate : (machine freshPlace).step (freshState (.allocating twoBytes)) (.allocate 64)
      (freshState (.constructing twoBytes 64 0)) := by
    refine ⟨?_, rfl⟩
    rintro _ ⟨⟩
    refine ⟨by decide, by decide, Set.disjoint_left.mpr ?_⟩
    rintro l ⟨hle, _⟩ (⟨_, hlt⟩ | ⟨addr, node, h, _⟩)
    · exact absurd (hle.trans_lt hlt) (by decide)
    · exact hlookup addr node h
  exact (hidle.step hcall).step hallocate

theorem create_complete_twoBytes : ∃ n s',
    (machine freshPlace).Run (freshState (.constructing twoBytes 64 0))
      (List.replicate n .work) s' ∧
    s'.pc = .idle ∧ Decodes s'.mem.medium 64 ⟨7, [1, 2]⟩ := by
  obtain ⟨_, hcall⟩ := create_complete freshPlace fresh_reachable
  obtain ⟨_, _, ⟨n, s', hrun, hreturns⟩, _⟩ := hcall twoBytes 64 rfl
  exact ⟨n, s', hrun, hreturns.pc, hreturns.medium⟩

end SpackPlayground.BurstBuffer.RoundTrip
