import SpackPlayground.BurstBuffer.Operations

/-! The shape of the pool once the sentinel exists, and what each operation
does to it. The lemmas here are total: they say that the operation has a
result, and which. -/
namespace SpackPlayground.BurstBuffer.Shape

open Memory Operations Library.LinkedChain

/-- `batch` lies on the chain from `flushing`, `pending` on the chain behind the
sentinel, and these nodes are all there is. -/
structure Built (pool : Pool) (sentinel : Addr) (batch pending : List Addr) : Prop where
  bb : pool.bb = some ⟨some sentinel, batch.head?⟩
  active : Chain (link pool.heap) (some sentinel) (sentinel :: pending)
  flushing : Chain (link pool.heap) batch.head? batch
  nodup : (sentinel :: (pending ++ batch)).Nodup
  live : ∀ addr, addr ∈ pool.heap ↔ addr ∈ sentinel :: (pending ++ batch)

structure Unbuilt (pool : Pool) : Prop where
  bb : pool.bb = none ∨ pool.bb = some ⟨none, none⟩
  heap : pool.heap = ∅

section Reading

variable {pool : Pool} {sentinel : Addr} {batch pending : List Addr}

theorem Built.pool_active (hbuilt : Built pool sentinel batch pending) :
    pool.active = some sentinel := by
  simp [Pool.active, hbuilt.bb]

theorem Built.pool_flushing (hbuilt : Built pool sentinel batch pending) :
    pool.flushing = batch.head? := by
  simp [Pool.flushing, hbuilt.bb]

theorem Built.persistent (hbuilt : Built pool sentinel batch pending) :
    pool.persistent = .ok ⟨some sentinel, batch.head?⟩ := by
  simp [Pool.persistent, hbuilt.bb]

theorem Built.link_sentinel (hbuilt : Built pool sentinel batch pending) :
    link pool.heap sentinel = some pending.head? := by
  obtain ⟨_, next, hlink, hrest⟩ := chain_cons_iff.mp hbuilt.active
  rw [hlink, hrest.start_eq_head?]

theorem Built.pool_pending (hbuilt : Built pool sentinel batch pending) :
    pool.pending = pending.head? := by
  simp [Pool.pending, hbuilt.pool_active, hbuilt.link_sentinel]

theorem Built.pending_chain (hbuilt : Built pool sentinel batch pending) :
    Chain (link pool.heap) pending.head? pending :=
  Chain.suffix (show Chain _ _ ([sentinel] ++ pending) from hbuilt.active)

theorem Built.writes_flushing (hbuilt : Built pool sentinel batch pending) :
    pool.heap.writes pool.flushing = some (batch.map pool.heap.writeOf) := by
  rw [hbuilt.pool_flushing]
  exact writes_of_chain hbuilt.flushing

theorem Built.writes_pending (hbuilt : Built pool sentinel batch pending) :
    pool.heap.writes pool.pending = some (pending.map pool.heap.writeOf) := by
  rw [hbuilt.pool_pending]
  exact writes_of_chain hbuilt.pending_chain

theorem exists_init_getLastD (sentinel : Addr) (pending : List Addr) :
    ∃ before, sentinel :: pending = before ++ [pending.getLastD sentinel] := by
  rcases pending.eq_nil_or_concat with rfl | ⟨before, last, rfl⟩
  · exact ⟨[], rfl⟩
  · exact ⟨sentinel :: before, by simp⟩

private theorem getLastD_mem (sentinel : Addr) (pending : List Addr) :
    pending.getLastD sentinel ∈ sentinel :: pending := by
  obtain ⟨before, hbefore⟩ := exists_init_getLastD sentinel pending
  rw [hbefore]
  exact List.mem_append_right before (List.mem_singleton_self _)

theorem Built.link_last (hbuilt : Built pool sentinel batch pending) :
    link pool.heap (pending.getLastD sentinel) = some none := by
  obtain ⟨before, hbefore⟩ := exists_init_getLastD sentinel pending
  have hchain := hbuilt.active
  rw [hbefore] at hchain
  exact hchain.link_last

theorem Built.mem_heap_of_pending (hbuilt : Built pool sentinel batch pending) {addr : Addr}
    (hmem : addr ∈ sentinel :: pending) : addr ∈ pool.heap := by
  rw [hbuilt.live, ← List.cons_append]
  exact List.mem_append_left batch hmem

theorem Built.mem_heap_of_batch (hbuilt : Built pool sentinel batch pending) {addr : Addr}
    (hmem : addr ∈ batch) : addr ∈ pool.heap := by
  rw [hbuilt.live, ← List.cons_append]
  exact List.mem_append_right _ hmem

end Reading

private theorem writeAt_insert_self (heap : Heap) (addr : Addr) (node : Node) :
    Heap.writeAt (heap.insert addr node) addr = some node.write := by
  simp [Heap.writeAt]

theorem writeAt_insert_of_ne (heap : Heap) {addr other : Addr} (node : Node)
    (hne : addr ≠ other) : Heap.writeAt (heap.insert other node) addr = heap.writeAt addr := by
  simp [Heap.writeAt, Finmap.lookup_insert_of_ne _ hne]

private theorem writeAt_erase_of_ne (heap : Heap) {addr other : Addr} (hne : addr ≠ other) :
    Heap.writeAt (heap.erase other) addr = heap.writeAt addr := by
  simp [Heap.writeAt, Finmap.lookup_erase_ne hne]

theorem writeAt_setNext {heap : Heap} {addr : Addr} {node : Node} {next : PersistentPtr}
    (hlookup : heap.lookup addr = some node) (other : Addr) :
    Heap.writeAt (heap.insert addr { node with next := next }) other = heap.writeAt other := by
  by_cases heq : other = addr
  · subst heq
    simp [Heap.writeAt, hlookup]
  · exact writeAt_insert_of_ne heap _ heq

theorem setNext_of_lookup {heap : Heap} {addr : Addr} {node : Node}
    (hlookup : heap.lookup addr = some node) (value : PersistentPtr) :
    heap.setNext (some addr) value = .ok (heap.insert addr { node with next := value }) := by
  simp only [Heap.setNext, deref_of_lookup hlookup]
  rfl

theorem deletePersistent_of_mem {heap : Heap} {addr : Addr} (hmem : addr ∈ heap) :
    heap.deletePersistent addr = .ok (heap.erase addr) := by
  simp [Heap.deletePersistent, hmem]

section Pwrite

variable {pool : Pool} {sentinel : Addr} {batch pending : List Addr}

/-- A successful allocation hangs the new node behind the last one. -/
theorem Built.tryPwrite_allocated (hbuilt : Built pool sentinel batch pending) {addr : Addr}
    (hfresh : addr ∉ pool.heap) (write : Write) :
    ∃ pool', tryPwrite pool (some (pending.getLastD sentinel)) (.allocated addr) write =
        .ok (.ok pool') ∧
      Built pool' sentinel batch (pending ++ [addr]) ∧
      pool'.heap.writeAt addr = some write ∧
      ∀ other, other ≠ addr → pool'.heap.writeAt other = pool.heap.writeAt other := by
  obtain ⟨before, hbefore⟩ := exists_init_getLastD sentinel pending
  obtain ⟨node, hlookup, hnext⟩ := lookup_of_link hbuilt.link_last
  have hpending := getLastD_mem sentinel pending
  generalize pending.getLastD sentinel = last at hbefore hlookup hpending ⊢
  have hlive : last ∈ pool.heap := Finmap.mem_of_lookup_eq_some hlookup
  have hne : last ≠ addr := fun heq => hfresh (heq ▸ hlive)
  have hlookup' : (pool.heap.insert addr (create write)).lookup last = some node := by
    rwa [Finmap.lookup_insert_of_ne _ hne]
  set heap' := (pool.heap.insert addr (create write)).insert last { node with next := some addr }
    with hheap'
  have hframe : ∀ other, other ≠ addr → other ≠ last →
      link heap' other = link pool.heap other := by
    intro other haddr hother
    rw [hheap', link_insert_of_ne _ _ hother, link_insert_of_ne _ _ haddr]
  have hnodup := hbuilt.nodup
  have hbatch : ∀ other ∈ batch, other ≠ addr ∧ other ≠ last := by
    intro other hmem
    refine ⟨fun heq => hfresh (heq ▸ hbuilt.mem_heap_of_batch hmem), fun heq => ?_⟩
    rw [← List.cons_append] at hnodup
    exact List.disjoint_of_nodup_append hnodup hpending (heq ▸ hmem)
  refine ⟨{ pool with heap := heap' }, ?_, ?_, ?_, ?_⟩
  · simp only [tryPwrite, deref_of_lookup hlookup, makePersistentAtomic, if_neg hfresh, store,
      setNext_of_lookup hlookup']
    rfl
  · refine ⟨hbuilt.bb, ?_, ?_, ?_, ?_⟩
    · have hchain := hbuilt.active
      rw [hbefore] at hchain
      have hsnoc : Chain (link heap') (some sentinel) (before ++ [last, addr]) := by
        apply hchain.snoc (by simp [hheap'])
        · rw [hheap', link_insert_of_ne _ _ hne.symm, link_insert_self, create_next]
        · intro other hmem
          have hlive' : other ∈ sentinel :: pending := hbefore ▸ List.mem_append_left _ hmem
          refine hframe other (fun heq => hfresh (heq ▸ hbuilt.mem_heap_of_pending hlive'))
            fun heq => ?_
          have hnodup' := hchain.nodup
          exact List.disjoint_of_nodup_append hnodup' hmem (heq ▸ List.mem_singleton_self _)
      rw [← List.cons_append, hbefore, List.append_assoc]
      exact hsnoc
    · exact hbuilt.flushing.frame fun other hmem =>
        hframe other (hbatch other hmem).1 (hbatch other hmem).2
    · have haddr : addr ∉ sentinel :: (pending ++ batch) := by
        rwa [← hbuilt.live]
      have hperm : (addr :: sentinel :: (pending ++ batch)).Perm
          (sentinel :: (pending ++ [addr] ++ batch)) := by
        refine (List.Perm.swap _ _ _).trans (List.Perm.cons _ ?_)
        rw [List.append_assoc]
        exact List.perm_middle.symm
      exact hperm.nodup_iff.mp (List.nodup_cons.mpr ⟨haddr, hbuilt.nodup⟩)
    · intro other
      simp only [hheap', Finmap.mem_insert, hbuilt.live, List.mem_cons, List.mem_append]
      constructor
      · rintro (heq | heq | hmem)
        · rw [heq]
          simp only [List.mem_cons] at hpending
          tauto
        · tauto
        · tauto
      · tauto
  · rw [writeAt_setNext hlookup', writeAt_insert_self, create_write]
  · intro other hother
    rw [writeAt_setNext hlookup', writeAt_insert_of_ne _ _ hother]

theorem Built.tryPwrite_failed (hbuilt : Built pool sentinel batch pending) (errno : Errno)
    (write : Write) :
    tryPwrite pool (some (pending.getLastD sentinel)) (.failed errno) write =
      .ok (.error errno) := by
  obtain ⟨node, hlookup, _⟩ := lookup_of_link hbuilt.link_last
  simp only [tryPwrite, deref_of_lookup hlookup]
  rfl

theorem Built.tryPwrite_live (hbuilt : Built pool sentinel batch pending) {addr : Addr}
    (hlive : addr ∈ pool.heap) (write : Write) :
    tryPwrite pool (some (pending.getLastD sentinel)) (.allocated addr) write =
      .error .disabled := by
  obtain ⟨node, hlookup, _⟩ := lookup_of_link hbuilt.link_last
  simp only [tryPwrite, deref_of_lookup hlookup, makePersistentAtomic, if_pos hlive]
  rfl

theorem Built.advanceTail_eq {addr : Addr}
    (hbuilt : Built pool sentinel batch (pending ++ [addr])) :
    advanceTail pool.heap (some (pending.getLastD sentinel)) = .ok (some addr) := by
  obtain ⟨before, hbefore⟩ := exists_init_getLastD sentinel pending
  have hchain := hbuilt.active
  rw [← List.cons_append, hbefore, List.append_assoc] at hchain
  obtain ⟨_, next, hlink, hrest⟩ := chain_cons_iff.mp hchain.suffix
  obtain ⟨node, hlookup, hnext⟩ := lookup_of_link hlink
  simp only [advanceTail, deref_of_lookup hlookup]
  rw [hrest.start_eq_head?] at hnext
  exact congrArg Except.ok hnext

end Pwrite

section Transactions

variable {pool : Pool} {sentinel : Addr} {batch pending : List Addr}

theorem Built.enqueueBody_eq (hbuilt : Built pool sentinel [] pending) :
    ∃ pool', enqueueBody pool = .ok pool' ∧ Built pool' sentinel pending [] ∧
      ∀ addr, pool'.heap.writeAt addr = pool.heap.writeAt addr := by
  obtain ⟨node, hlookup, hnext⟩ := lookup_of_link hbuilt.link_sentinel
  have hnodup := hbuilt.nodup
  simp only [List.append_nil] at hnodup
  refine ⟨{ bb := some ⟨some sentinel, pending.head?⟩
            heap := pool.heap.insert sentinel { node with next := none } }, ?_, ?_, ?_⟩
  · simp only [enqueueBody, hbuilt.persistent, bind, Except.bind, deref_of_lookup hlookup, store,
      setNext_of_lookup hlookup, hnext]
    rfl
  · refine ⟨rfl, ?_, ?_, ?_, ?_⟩
    · exact .node (link_insert_self _ _ _) .null
    · refine hbuilt.pending_chain.frame fun addr hmem => link_insert_of_ne _ _ fun heq => ?_
      exact (List.nodup_cons.mp hnodup).1 (heq ▸ hmem)
    · simpa using hnodup
    · intro addr
      have hlive := hbuilt.live addr
      simp only [List.append_nil] at hlive
      simp only [Finmap.mem_insert, List.nil_append, hlive, List.mem_cons]
      tauto
  · exact writeAt_setNext hlookup

/-- The freeing loop visits the nodes of the chain once each, in order, and
frees exactly them. -/
private theorem freeLoop_of_chain {heap : Heap} {start : PersistentPtr} {nodes : List Addr}
    (hchain : Chain (link heap) start nodes) {fuel : Nat} (hfuel : nodes.length ≤ fuel) :
    ∃ heap', freeLoop fuel heap start = .ok (heap', nodes.map fun a => (a, heap.writeOf a)) ∧
      ∀ addr, heap'.lookup addr = if addr ∈ nodes then none else heap.lookup addr := by
  induction nodes generalizing heap start fuel with
  | nil =>
      rw [chain_nil_iff.mp hchain]
      exact ⟨heap, by cases fuel <;> rfl, by simp⟩
  | cons cur rest ih =>
      have hnodup := hchain.nodup
      obtain ⟨rfl, next, hlink, hrest⟩ := chain_cons_iff.mp hchain
      obtain ⟨node, hlookup, rfl⟩ := lookup_of_link hlink
      have hne : ∀ addr ∈ rest, addr ≠ cur :=
        fun addr hmem heq => (List.nodup_cons.mp hnodup).1 (heq ▸ hmem)
      have hrest' : Chain (link (heap.erase cur)) node.next rest :=
        hrest.frame fun addr hmem => link_erase_of_ne heap (hne addr hmem)
      obtain ⟨fuel, rfl⟩ : ∃ n, fuel = n + 1 := ⟨fuel - 1, by simp at hfuel; omega⟩
      obtain ⟨heap', hloop, hheap'⟩ := ih hrest' (Nat.le_of_succ_le_succ hfuel)
      have hwrite : node.write = heap.writeOf cur := by
        simp [Heap.writeOf, Heap.writeAt, hlookup]
      have hfreed : (rest.map fun a => (a, Heap.writeOf (heap.erase cur) a)) =
          rest.map fun a => (a, heap.writeOf a) := by
        refine List.map_congr_left fun addr hmem => ?_
        simp only [Heap.writeOf, writeAt_erase_of_ne heap (hne addr hmem)]
      refine ⟨heap', ?_, ?_⟩
      · simp only [freeLoop, bind, Except.bind, deref_of_lookup hlookup,
          deletePersistent_of_mem (Finmap.mem_of_lookup_eq_some hlookup), hloop, hfreed, hwrite]
        rfl
      · intro addr
        rw [hheap']
        by_cases heq : addr = cur
        · subst heq
          simp [Finmap.lookup_erase]
        · simp [heq, Finmap.lookup_erase_ne heq]

theorem Built.freeBody_eq (hbuilt : Built pool sentinel batch pending) :
    ∃ pool', freeBody pool = .ok (pool', batch.map fun a => (a, pool.heap.writeOf a)) ∧
      Built pool' sentinel [] pending ∧
      ∀ addr, pool'.heap.lookup addr =
        if addr ∈ batch then none else pool.heap.lookup addr := by
  obtain ⟨heap', hloop, hheap'⟩ :=
    freeLoop_of_chain hbuilt.flushing (length_le_card hbuilt.flushing)
  have hnodup := hbuilt.nodup
  rw [← List.cons_append] at hnodup
  have hkeep : ∀ addr ∈ sentinel :: pending, addr ∉ batch := fun addr hmem hbatch =>
    List.disjoint_of_nodup_append hnodup hmem hbatch
  refine ⟨{ bb := some ⟨some sentinel, none⟩, heap := heap' }, ?_, ?_, hheap'⟩
  · simp only [freeBody, hbuilt.persistent, bind, Except.bind, hloop]
    rfl
  · refine ⟨rfl, ?_, .null, ?_, ?_⟩
    · refine hbuilt.active.frame fun addr hmem => ?_
      simp [link, hheap', hkeep addr hmem]
    · simpa using hnodup.of_append_left
    · intro addr
      have hlive := hbuilt.live addr
      rw [← List.cons_append, List.mem_append] at hlive
      rw [List.append_nil, ← Finmap.lookup_isSome, hheap']
      by_cases hbatch : addr ∈ batch
      · simp only [hbatch, if_true, Option.isSome_none, Bool.false_eq_true, false_iff]
        exact fun hmem => hkeep addr hmem hbatch
      · rw [if_neg hbatch, Finmap.lookup_isSome, hlive]
        tauto

private theorem walkTail_of_chain {heap : Heap} {start last : Addr} {before : List Addr}
    (hchain : Chain (link heap) (some start) (before ++ [last])) {fuel : Nat}
    (hfuel : before.length ≤ fuel) : walkTail fuel heap (some start) = .ok (some last) := by
  induction before generalizing start fuel with
  | nil =>
      obtain ⟨hstart, next, hlink, hrest⟩ := chain_cons_iff.mp hchain
      cases hstart
      obtain ⟨node, hlookup, hnext⟩ := lookup_of_link hlink
      rw [chain_nil_iff.mp hrest] at hnext
      cases fuel <;>
        simp only [walkTail, bind, Except.bind, deref_of_lookup hlookup, hnext, if_true] <;> rfl
  | cons a before ih =>
      obtain ⟨hstart, next, hlink, hrest⟩ := chain_cons_iff.mp hchain
      cases hstart
      obtain ⟨node, hlookup, rfl⟩ := lookup_of_link hlink
      obtain ⟨fuel, rfl⟩ : ∃ n, fuel = n + 1 := ⟨fuel - 1, by simp at hfuel; omega⟩
      obtain ⟨b, hnext⟩ : ∃ b, node.next = some b := by
        rw [hrest.start_eq_head?]
        cases before with
        | nil => exact ⟨last, rfl⟩
        | cons b _ => exact ⟨b, rfl⟩
      rw [hnext] at hrest
      simp only [walkTail, bind, Except.bind, deref_of_lookup hlookup, hnext, reduceCtorEq,
        if_false]
      exact ih hrest (Nat.le_of_succ_le_succ hfuel)

theorem Built.retrieveTail_eq (hbuilt : Built pool sentinel batch pending) :
    retrieveTail pool = .ok (some (pending.getLastD sentinel)) := by
  obtain ⟨before, hbefore⟩ := exists_init_getLastD sentinel pending
  have hchain := hbuilt.active
  have hlength := length_le_card hchain
  rw [hbefore] at hchain hlength
  rw [List.length_append] at hlength
  simp only [retrieveTail, hbuilt.persistent, bind, Except.bind]
  exact walkTail_of_chain hchain (Nat.le_of_succ_le hlength)

end Transactions

section Sentinel

variable {pool : Pool}

theorem ensureSentinel_allocated (hheap : pool.heap = ∅)
    (hbb : pool.bb = some ⟨none, none⟩) (addr : Addr) :
    ∃ pool', ensureSentinel pool (.allocated addr) = .ok (.ok pool') ∧
      Built pool' addr [] [] := by
  have hfresh : addr ∉ pool.heap := by
    rw [hheap]
    exact Finmap.notMem_empty
  refine ⟨{ bb := some ⟨some addr, none⟩
            heap := pool.heap.insert addr (create sentinelWrite) }, ?_, ?_⟩
  · simp only [ensureSentinel, Pool.persistent, hbb, bind, Except.bind, makePersistentAtomic,
      if_neg hfresh, store]
    rfl
  · refine ⟨rfl, .node (link_insert_self _ _ _) .null, .null, by simp, ?_⟩
    intro other
    simp [Finmap.mem_insert, hheap, Finmap.notMem_empty]

theorem ensureSentinel_failed (hbb : pool.bb = some ⟨none, none⟩) (errno : Errno) :
    ensureSentinel pool (.failed errno) = .ok (.error errno) := by
  simp only [ensureSentinel, Pool.persistent, hbb, bind, Except.bind, makePersistentAtomic]

theorem Built.ensureSentinel_eq {sentinel : Addr} {batch pending : List Addr}
    (hbuilt : Built pool sentinel batch pending) (result : XallocResult) :
    ensureSentinel pool result = .ok (.ok pool) := by
  simp only [ensureSentinel, hbuilt.persistent, bind, Except.bind]
  rfl

end Sentinel

end SpackPlayground.BurstBuffer.Shape
