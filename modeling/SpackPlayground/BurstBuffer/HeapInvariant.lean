import SpackPlayground.BurstBuffer.Refinement

/-! The heap of the burst buffer: two disjoint chains and a sentinel, nothing
leaked, nothing dangling, and `tail_` where a fresh walk would put it. -/
namespace SpackPlayground.BurstBuffer.HeapInvariant

open Memory Operations Machine Shape Invariant Refinement

/-- A pool with a sentinel, read through the source's own operations. -/
structure TwoChains (pool : Pool) (sentinel : Addr) (flushing active : List Addr) : Prop where
  sentinel_eq : pool.active = some sentinel
  sentinel_live : sentinel ∈ pool.heap
  active_chain : pool.heap.nodes pool.active = some (sentinel :: active)
  flushing_chain : pool.heap.nodes pool.flushing = some flushing
  distinct : (sentinel :: (active ++ flushing)).Nodup
  /-- Nothing leaks, and no freed node is reachable. -/
  live_iff : ∀ addr, addr ∈ pool.heap ↔ addr ∈ sentinel :: (active ++ flushing)
  /-- The freeing loop ends; it frees each node of the flushing chain once, and no other. -/
  frees : ∃ pool', freeBody pool = .ok (pool', flushing.map fun a => (a, pool.heap.writeOf a)) ∧
    pool'.flushing = none ∧ pool'.active = some sentinel ∧
    (∀ addr ∈ flushing, addr ∉ pool'.heap) ∧
    ∀ addr ∉ flushing, pool'.heap.lookup addr = pool.heap.lookup addr
  walk : retrieveTail pool = .ok (some (active.getLastD sentinel))

theorem Built.twoChains {pool : Pool} {sentinel : Addr} {flushing active : List Addr}
    (hbuilt : Built pool sentinel flushing active) :
    TwoChains pool sentinel flushing active where
  sentinel_eq := hbuilt.pool_active
  sentinel_live := hbuilt.mem_heap_of_pending List.mem_cons_self
  active_chain := by
    rw [hbuilt.pool_active]
    exact nodes_eq_some_iff.mpr hbuilt.active
  flushing_chain := by
    rw [hbuilt.pool_flushing]
    exact nodes_eq_some_iff.mpr hbuilt.flushing
  distinct := hbuilt.nodup
  live_iff := hbuilt.live
  frees := by
    obtain ⟨pool', hbody, hbuilt', hlookup⟩ := hbuilt.freeBody_eq
    refine ⟨pool', hbody, hbuilt'.pool_flushing, hbuilt'.pool_active, ?_, ?_⟩
    · intro addr hmem
      rw [← Finmap.lookup_eq_none, hlookup, if_pos hmem]
    · intro addr hmem
      rw [hlookup, if_neg hmem]
  walk := hbuilt.retrieveTail_eq

theorem Threads.tail_of_idle {heap : Heap} {sentinel : Addr} {batch pending : List Addr}
    {v : Volatile} (hthreads : Threads heap sentinel batch pending v) (hidle : v.writer = .idle) :
    v.tail = some (pending.getLastD sentinel) := by
  have hwriter := hthreads.writer
  rw [hidle] at hwriter
  exact hwriter

private theorem sentinel_kept {c c' : Config} {actions : List Action} (hc : machine.Reachable c)
    (hrun : machine.Run c actions c') : SentinelKept c.pool c'.pool := by
  intro sentinel hactive
  refine hrun.preserves (motive := fun d => d.pool.active = some sentinel) ?_ hc hactive
  intro d action d' hd hactive hstep
  obtain ⟨batch, pending, hheld⟩ := held_of_reachable hd
  obtain ⟨_, _, _, _, hkept⟩ := hheld.effect hstep
  exact hkept sentinel hactive

theorem heap_invariant (c : Config) (hc : machine.Reachable c) :
    -- before the first `runtimeInitialize` there is nothing at all
    (c.pool.active = none → c.pool.flushing = none ∧ c.pool.heap = ∅) ∧
    (∀ sentinel, c.pool.active = some sentinel →
      (∃ flushing active, TwoChains c.pool sentinel flushing active) ∧
      ∀ actions c', machine.Run c actions c' →
        c'.pool.active = some sentinel ∧ sentinel ∈ c'.pool.heap) ∧
    (∀ v, c.process = .running v → c.pool.active ≠ none ∧
      (v.writer = .idle → retrieveTail c.pool = .ok v.tail)) ∧
    -- no step follows a null or dangling pointer, frees twice or diverges
    ∀ action, c.step action ≠ .error .undefinedBehaviour ∧ c.step action ≠ .error .diverges := by
  obtain ⟨batch, pending, hheld⟩ := held_of_reachable hc
  refine ⟨?_, ?_, ?_, ?_⟩
  · intro hnull
    rcases hheld.pool with ⟨sentinel, hbuilt⟩ | ⟨hunbuilt, _, _⟩
    · rw [hbuilt.pool_active] at hnull
      cases hnull
    · refine ⟨?_, hunbuilt.heap⟩
      rcases hunbuilt.bb with hbb | hbb <;> simp [Pool.flushing, hbb]
  · intro sentinel hactive
    have hbuilt_of {d : Config} (hd : machine.Reachable d)
        (hsentinel : d.pool.active = some sentinel) :
        ∃ batch pending, Built d.pool sentinel batch pending := by
      obtain ⟨batch, pending, hheld⟩ := held_of_reachable hd
      rcases hheld.pool with ⟨other, hbuilt⟩ | ⟨hunbuilt, _, _⟩
      · obtain rfl : other = sentinel :=
          Option.some.inj (hbuilt.pool_active.symm.trans hsentinel)
        exact ⟨batch, pending, hbuilt⟩
      · rcases hunbuilt.bb with hbb | hbb <;> simp [Pool.active, hbb] at hsentinel
    refine ⟨?_, ?_⟩
    · obtain ⟨batch, pending, hbuilt⟩ := hbuilt_of hc hactive
      exact ⟨batch, pending, Built.twoChains hbuilt⟩
    · intro actions c' hrun
      have hactive' := sentinel_kept hc hrun sentinel hactive
      obtain ⟨_, _, hbuilt⟩ := hbuilt_of (hc.run hrun) hactive'
      exact ⟨hactive', hbuilt.mem_heap_of_pending List.mem_cons_self⟩
  · intro v hrunning
    have hprocess := hheld.process
    rw [hrunning] at hprocess
    obtain ⟨sentinel, hbuilt, hthreads⟩ := hprocess
    refine ⟨by simp [hbuilt.pool_active], fun hidle => ?_⟩
    rw [Threads.tail_of_idle hthreads hidle]
    exact hbuilt.retrieveTail_eq
  · intro action
    rcases hheld.step action with hdisabled | ⟨c', _, _, hstep, _⟩
    · simp [hdisabled]
    · simp [hstep]

theorem heap_invariant_crashedFlush : ∃ c, execute crashedFlush = some c ∧
    (∃ flushing active, TwoChains c.pool 1 flushing active) ∧
    ∀ action, c.step action ≠ .error .undefinedBehaviour ∧ c.step action ≠ .error .diverges := by
  obtain ⟨c, hexecute, hactive⟩ : ∃ c, execute crashedFlush = some c ∧
      c.pool.active = some 1 := ⟨_, rfl, rfl⟩
  obtain ⟨_, hchains, _, hsteps⟩ := heap_invariant c (reachable_of_execute crashedFlush hexecute)
  exact ⟨c, hexecute, (hchains 1 hactive).1, hsteps⟩

end SpackPlayground.BurstBuffer.HeapInvariant
