import Mathlib.Algebra.Order.Group.Nat
import Mathlib.Order.CompletePartialOrder
import Mathlib.Order.Interval.Set.Disjoint
import SpackPlayground.BurstBuffer.Encoding
import SpackPlayground.BurstBuffer.Shape

/-! Where the live objects are in the pool file, and what becomes of that when a new
node is published. -/
namespace SpackPlayground.BurstBuffer.Regions

open Encoding Library.Bytes Memory Operations Shape

/-- The pool file: its identifier, its size, and where `BurstBuffer::Persistent` is. -/
structure Place where
  uuid : UInt64
  poolSize : Nat
  bb : Nat
  fits : poolSize ≤ 2 ^ 64

def flushingAt (place : Place) : Nat := place.bb + sizeofPersistentPtr

def slot (dest : Nat) : Set Nat := Set.Ico dest (dest + sizeofPersistentPtr)

def root (place : Place) : Set Nat := Set.Ico place.bb (flushingAt place + sizeofPersistentPtr)

def extent (node : Node) : Nat := sizeofPersistent + node.bytes.length

def block (addr : Nat) (node : Node) : Set Nat := Set.Ico addr (addr + extent node)

def region (place : Place) (pool : Pool) : Set Nat :=
  {l | l ∈ root place ∨
    ∃ addr node, pool.heap.lookup addr = some node ∧ l ∈ block addr node}

def Free (place : Place) (pool : Pool) (addr n : Nat) : Prop :=
  0 < addr ∧ addr + n ≤ place.poolSize ∧ Disjoint (Set.Ico addr (addr + n)) (region place pool)

/-- The bytes of the live objects are those of `pool`. -/
structure Represents (place : Place) (image : Nat → UInt8) (pool : Pool) : Prop where
  bb : pool.bb = some ⟨pointerAt image place.bb, pointerAt image (flushingAt place)⟩
  node : ∀ addr node, pool.heap.lookup addr = some node → nodeAt image addr = node

structure Apart (place : Place) (pool : Pool) : Prop where
  nodes : ∀ addr node other node', pool.heap.lookup addr = some node →
    pool.heap.lookup other = some node' → addr ≠ other →
    Disjoint (block addr node) (block other node')
  bb : ∀ addr node, pool.heap.lookup addr = some node →
    Disjoint (root place) (block addr node)

structure Grounded (pool : Pool) : Prop where
  active : ∀ addr, pool.active = some addr → addr ∈ pool.heap
  flushing : ∀ addr, pool.flushing = some addr → addr ∈ pool.heap
  next : ∀ addr node target, pool.heap.lookup addr = some node → node.next = some target →
    target ∈ pool.heap

def destinationAt (place : Place) : Destination → Option Nat
  | .active => some place.bb
  | .nextOf ptr => ptr

/-- The pointer to be overwritten is one of a live object. -/
def Valid (pool : Pool) : Destination → Prop
  | .active => True
  | .nextOf ptr => ∃ addr, ptr = some addr ∧ addr ∈ pool.heap

variable {place : Place} {pool pool' : Pool} {image image' : Nat → UInt8} {addr dest : Nat}
  {node : Node} {write : Write}

theorem extent_eq (node : Node) : extent node = sizeofPersistentPtr + (16 + node.bytes.length) := by
  unfold extent sizeofPersistent offsetofWriteReq sizeofInlineWriteRequest
  omega

theorem mem_block_self : addr ∈ block addr node := by
  have hpos : addr < addr + extent node := by
    rw [extent_eq]
    omega
  exact ⟨le_rfl, hpos⟩

theorem slot_subset_block : slot addr ⊆ block addr node := by
  have hle : addr + sizeofPersistentPtr ≤ addr + extent node := by
    rw [extent_eq]
    omega
  exact Set.Ico_subset_Ico_right hle

private theorem rest_subset_block :
    Set.Ico (writeReqAt addr) (dataAt addr + node.bytes.length) ⊆ block addr node := by
  have hend : dataAt addr + node.bytes.length = addr + extent node := by
    unfold extent
    rw [dataAt_eq, Nat.add_assoc]
  rw [hend]
  exact Set.Ico_subset_Ico_left (Nat.le_add_right ..)

theorem nodeAt_congr (hnode : nodeAt image addr = node)
    (hsame : Set.EqOn image' image (block addr node)) : nodeAt image' addr = node := by
  have hnext : pointerAt image' addr = node.next := by
    rw [← hnode, nodeAt_next]
    exact pointerAt_congr (hsame.mono slot_subset_block)
  rw [nodeAt_of_eqOn hnode (hsame.mono rest_subset_block), hnext]

theorem active_subset_root : slot place.bb ⊆ root place :=
  Set.Ico_subset_Ico_right (Nat.le_add_right ..)

theorem flushing_subset_root : slot (flushingAt place) ⊆ root place :=
  Set.Ico_subset_Ico_left (Nat.le_add_right ..)

private theorem disjoint_slots (place : Place) :
    Disjoint (slot place.bb) (slot (flushingAt place)) :=
  Set.disjoint_left.mpr fun _ hl hl' => Nat.not_lt.mpr hl'.1 hl.2

theorem root_subset_region : root place ⊆ region place pool := fun _ hl => .inl hl

theorem block_subset_region (hlookup : pool.heap.lookup addr = some node) :
    block addr node ⊆ region place pool :=
  fun _ hl => .inr ⟨addr, node, hlookup, hl⟩

theorem represents_congr (hrepresents : Represents place image pool)
    (hsame : Set.EqOn image' image (region place pool)) : Represents place image' pool where
  bb := by
    rw [pointerAt_congr (hsame.mono (active_subset_root.trans root_subset_region)),
      pointerAt_congr (hsame.mono (flushing_subset_root.trans root_subset_region))]
    exact hrepresents.bb
  node addr node hlookup :=
    nodeAt_congr (hrepresents.node addr node hlookup) (hsame.mono (block_subset_region hlookup))

theorem Represents.active_eq (hrepresents : Represents place image pool) :
    pool.active = pointerAt image place.bb := by
  unfold Pool.active
  rw [hrepresents.bb, Option.bind_some]

theorem Represents.flushing_eq (hrepresents : Represents place image pool) :
    pool.flushing = pointerAt image (flushingAt place) := by
  unfold Pool.flushing
  rw [hrepresents.bb, Option.bind_some]

theorem notMem_of_free (hfree : Free place pool addr (extent node)) : addr ∉ pool.heap := by
  intro hmem
  obtain ⟨other, hlookup⟩ := Finmap.mem_iff.mp hmem
  have hself : addr ∈ block addr node := mem_block_self
  exact Set.disjoint_left.mp hfree.2.2 hself (block_subset_region hlookup mem_block_self)

theorem pointerAt_overwrite (hfree : Free place pool addr (extent node)) :
    pointerAt (overwrite image dest (pointerBytes place.uuid (some addr))) dest = some addr := by
  apply pointerAt_of_holds _ holds_overwrite
  rintro _ ⟨⟩
  have hlt : addr < addr + extent node := mem_block_self.2
  exact ⟨hfree.1, (hlt.trans_le hfree.2.1).trans_le place.fits⟩

theorem overwrite_pointer_eqOn {uuid : UInt64} {ptr : PersistentPtr} :
    Set.EqOn (overwrite image dest (pointerBytes uuid ptr)) image (Set.compl (slot dest)) := by
  have hsame : Set.EqOn (overwrite image dest (pointerBytes uuid ptr)) image
      (Set.compl (Set.Ico dest (dest + (pointerBytes uuid ptr).length))) := overwrite_eqOn
  rw [length_pointerBytes] at hsame
  exact hsame

/-- `pool'` is `pool` with a new node, which the pointer at `dest` points to. -/
structure Published (place : Place) (pool : Pool) (addr : Nat) (write : Write) (dest : Nat)
    (pool' : Pool) : Prop where
  slot : slot dest ⊆ region place pool
  bb : (dest = place.bb ∧ pool'.bb = pool.bb.map fun bb => { bb with active := some addr }) ∨
    (Disjoint (Regions.slot dest) (root place) ∧ pool'.bb = pool.bb)
  new : pool'.heap.lookup addr = some (create write)
  node : ∀ other node, other ≠ addr → pool'.heap.lookup other = some node →
    ∃ old, pool.heap.lookup other = some old ∧
      ((other = dest ∧ node = { old with next := some addr }) ∨
        (Disjoint (Regions.slot dest) (block other old) ∧ node = old))
  keep : ∀ other write, pool.heap.writeAt other = some write →
    pool'.heap.writeAt other = some write

namespace Published

variable (hpublished : Published place pool addr write dest pool')
  (hfree : Free place pool addr (extent (create write)))

include hpublished

theorem block_cases {other : Nat} (hlookup : pool'.heap.lookup other = some node) :
    (other = addr ∧ node = create write) ∨
      ∃ old, pool.heap.lookup other = some old ∧ block other node = block other old ∧
        (node.next = some addr ∨ node = old) := by
  by_cases hnew : other = addr
  · subst hnew
    rw [hpublished.new] at hlookup
    exact .inl ⟨rfl, (Option.some.inj hlookup).symm⟩
  · obtain ⟨old, hold, ⟨_, rfl⟩ | ⟨_, rfl⟩⟩ := hpublished.node other node hnew hlookup
    · exact .inr ⟨old, hold, rfl, .inl rfl⟩
    · exact .inr ⟨node, hold, rfl, .inr rfl⟩

theorem mem_new : addr ∈ pool'.heap := Finmap.mem_of_lookup_eq_some hpublished.new

theorem mem {other : Nat} (hmem : other ∈ pool.heap) : other ∈ pool'.heap := by
  obtain ⟨node, hlookup⟩ := Finmap.mem_iff.mp hmem
  have hwrite : pool.heap.writeAt other = some node.write := by
    unfold Heap.writeAt
    rw [hlookup, Option.map_some]
  obtain ⟨node', hlookup', _⟩ := Option.map_eq_some_iff.mp (hpublished.keep other _ hwrite)
  exact Finmap.mem_of_lookup_eq_some hlookup'

theorem region_subset : region place pool' ⊆ region place pool ∪ block addr (create write) := by
  intro l hl
  rcases hl with hroot | ⟨other, node, hlookup, hl⟩
  · exact .inl (.inl hroot)
  · rcases hpublished.block_cases hlookup with ⟨rfl, rfl⟩ | ⟨old, hold, hblock, _⟩
    · exact .inr hl
    · exact .inl (.inr ⟨other, old, hold, hblock ▸ hl⟩)

theorem grounded (hgrounded : Grounded pool) : Grounded pool' where
  active target htarget := by
    rcases hpublished.bb with ⟨_, hbb⟩ | ⟨_, hbb⟩
    · unfold Pool.active at htarget
      rw [hbb] at htarget
      obtain ⟨_, hsome, hactive⟩ := Option.bind_eq_some_iff.mp htarget
      obtain ⟨bb, _, rfl⟩ := Option.map_eq_some_iff.mp hsome
      cases hactive
      exact hpublished.mem_new
    · apply hpublished.mem
      apply hgrounded.active
      unfold Pool.active
      rw [← hbb]
      exact htarget
  flushing target htarget := by
    apply hpublished.mem
    apply hgrounded.flushing
    unfold Pool.flushing at htarget ⊢
    rcases hpublished.bb with ⟨_, hbb⟩ | ⟨_, hbb⟩
    · rw [hbb, Option.bind_map] at htarget
      exact htarget
    · rw [← hbb]
      exact htarget
  next other node target hlookup htarget := by
    rcases hpublished.block_cases hlookup with ⟨_, rfl⟩ | ⟨old, hold, _, hnext | rfl⟩
    · rw [create_next] at htarget
      cases htarget
    · rw [htarget] at hnext
      cases hnext
      exact hpublished.mem_new
    · exact hpublished.mem (hgrounded.next other node target hold htarget)

include hfree

theorem apart (hapart : Apart place pool) : Apart place pool' where
  nodes first node second node' hfirst hsecond hne := by
    rcases hpublished.block_cases hfirst with ⟨rfl, rfl⟩ | ⟨old, hold, hblock, _⟩
    · rcases hpublished.block_cases hsecond with ⟨rfl, _⟩ | ⟨old', hold', hblock', _⟩
      · exact absurd rfl hne
      · rw [hblock']
        exact hfree.2.2.mono_right (block_subset_region hold')
    · rw [hblock]
      rcases hpublished.block_cases hsecond with ⟨rfl, rfl⟩ | ⟨old', hold', hblock', _⟩
      · exact (hfree.2.2.mono_right (block_subset_region hold)).symm
      · rw [hblock']
        exact hapart.nodes first old second old' hold hold' hne
  bb other node hlookup := by
    rcases hpublished.block_cases hlookup with ⟨rfl, rfl⟩ | ⟨old, hold, hblock, _⟩
    · exact (hfree.2.2.mono_right root_subset_region).symm
    · rw [hblock]
      exact hapart.bb other old hold

theorem represents (hrepresents : Represents place image pool)
    (hnew : nodeAt image addr = create write) :
    Represents place (overwrite image dest (pointerBytes place.uuid (some addr))) pool' := by
  have hpointer : pointerAt (overwrite image dest (pointerBytes place.uuid (some addr))) dest =
      some addr := pointerAt_overwrite hfree
  have hoff : ∀ s, Disjoint (Regions.slot dest) s →
      Set.EqOn (overwrite image dest (pointerBytes place.uuid (some addr))) image s :=
    fun s hdisjoint => overwrite_pointer_eqOn.mono hdisjoint.subset_compl_left
  constructor
  · rcases hpublished.bb with ⟨rfl, hbb⟩ | ⟨hdisjoint, hbb⟩
    · have hflushing := pointerAt_congr (hoff _ (disjoint_slots place))
      rw [hbb, hrepresents.bb, hpointer, hflushing, Option.map_some]
    · have hactive := pointerAt_congr ((hoff _ hdisjoint).mono active_subset_root)
      have hflushing := pointerAt_congr ((hoff _ hdisjoint).mono flushing_subset_root)
      rw [hbb, hrepresents.bb, hactive, hflushing]
  · intro other node hlookup
    by_cases hother : other = addr
    · subst hother
      rw [hpublished.new] at hlookup
      cases hlookup
      exact nodeAt_congr hnew (hoff _ (hfree.2.2.mono_right hpublished.slot).symm)
    · obtain ⟨old, hold, ⟨rfl, rfl⟩ | ⟨hdisjoint, rfl⟩⟩ :=
        hpublished.node other node hother hlookup
      · have hrest : Disjoint (Regions.slot other)
            (Set.Ico (writeReqAt other) (dataAt other + old.bytes.length)) :=
          Set.disjoint_left.mpr fun _ hl hl' => Nat.not_lt.mpr hl'.1 hl.2
        rw [nodeAt_of_eqOn (hrepresents.node other old hold) (hoff _ hrest), hpointer]
      · exact nodeAt_congr (hrepresents.node other node hold) (hoff _ hdisjoint)

end Published

theorem writeAt_insert_of_free (hfree : Free place pool addr (extent node)) (other : Addr)
    (hwrite : pool.heap.writeAt other = some write) :
    Heap.writeAt (pool.heap.insert addr node) other = some write := by
  obtain ⟨old, hlookup, _⟩ := Option.map_eq_some_iff.mp hwrite
  have hne : other ≠ addr :=
    fun heq => notMem_of_free hfree (heq ▸ Finmap.mem_of_lookup_eq_some hlookup)
  rw [writeAt_insert_of_ne _ _ hne]
  exact hwrite

private theorem published_active {bb : Persistent} (hbb : pool.bb = some bb)
    (hapart : Apart place pool)
    (hfree : Free place pool addr (extent (create write))) :
    Published place pool addr write place.bb
      ⟨some { bb with active := some addr }, pool.heap.insert addr (create write)⟩ where
  slot := active_subset_root.trans root_subset_region
  bb := .inl ⟨rfl, by rw [hbb, Option.map_some]⟩
  new := Finmap.lookup_insert _
  node other node hother hlookup := by
    rw [Finmap.lookup_insert_of_ne _ hother] at hlookup
    have hdisjoint := (hapart.bb other node hlookup).mono_left active_subset_root
    exact ⟨node, hlookup, .inr ⟨hdisjoint, rfl⟩⟩
  keep other _ hwrite := writeAt_insert_of_free hfree other hwrite

private theorem published_next {tail : Addr} {old : Node} (hold : pool.heap.lookup tail = some old)
    (hapart : Apart place pool) (hfree : Free place pool addr (extent (create write))) :
    Published place pool addr write tail ⟨pool.bb,
      (pool.heap.insert addr (create write)).insert tail { old with next := some addr }⟩ := by
  have hne : tail ≠ addr :=
    fun heq => notMem_of_free hfree (heq ▸ Finmap.mem_of_lookup_eq_some hold)
  have hlookup : (pool.heap.insert addr (create write)).lookup tail = some old := by
    rw [Finmap.lookup_insert_of_ne _ hne]
    exact hold
  constructor
  · exact slot_subset_block.trans (block_subset_region hold)
  · exact .inr ⟨((hapart.bb tail old hold).mono_right slot_subset_block).symm, rfl⟩
  · rw [Finmap.lookup_insert_of_ne _ hne.symm]
    exact Finmap.lookup_insert _
  · intro other node hother hnode
    by_cases heq : other = tail
    · subst heq
      rw [Finmap.lookup_insert] at hnode
      exact ⟨old, hold, .inl ⟨rfl, (Option.some.inj hnode).symm⟩⟩
    · rw [Finmap.lookup_insert_of_ne _ heq, Finmap.lookup_insert_of_ne _ hother] at hnode
      have hdisjoint := hapart.nodes tail old other node hold hnode (Ne.symm heq)
      exact ⟨node, hnode, .inr ⟨hdisjoint.mono_left slot_subset_block, rfl⟩⟩
  · intro other write' hwrite
    rw [writeAt_setNext hlookup]
    exact writeAt_insert_of_free hfree other hwrite

theorem publish {ptr : Destination} (hbb : pool.bb.isSome) (hapart : Apart place pool)
    (hvalid : Valid pool ptr) (hfree : Free place pool addr (extent (create write))) :
    ∃ dest pool', destinationAt place ptr = some dest ∧
      makePersistentAtomic pool ptr (.allocated addr) write = .ok (.ok pool') ∧
      Published place pool addr write dest pool' := by
  have hnotMem : addr ∉ pool.heap := notMem_of_free hfree
  unfold makePersistentAtomic
  simp only [hnotMem, if_false]
  cases ptr with
  | active =>
      obtain ⟨bb, hbb⟩ := Option.isSome_iff_exists.mp hbb
      refine ⟨place.bb, _, rfl, ?_, published_active hbb hapart hfree⟩
      simp only [store, Pool.persistent, hbb]
      rfl
  | nextOf ptr =>
      obtain ⟨tail, rfl, htail⟩ := hvalid
      obtain ⟨old, hold⟩ := Finmap.mem_iff.mp htail
      have hne : tail ≠ addr := fun heq => hnotMem (heq ▸ htail)
      have hlookup : (pool.heap.insert addr (create write)).lookup tail = some old := by
        rw [Finmap.lookup_insert_of_ne _ hne]
        exact hold
      refine ⟨tail, _, rfl, ?_, published_next hold hapart hfree⟩
      simp only [store, setNext_of_lookup hlookup]
      rfl

end SpackPlayground.BurstBuffer.Regions
