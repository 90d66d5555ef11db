import SpackPlayground.BurstBuffer.Invariant
import SpackPlayground.Library.StagedQueue

/-! The burst buffer is a two-stage queue: `pwrite` puts, `tryEnqueueFlush`
closes the open stage, `flushAll` releases the closed one. Everything else,
crashes included, is invisible to the queue. -/
namespace SpackPlayground.BurstBuffer.Refinement

open Memory Operations Machine Shape Invariant
open Library.Transition Library.StagedQueue

theorem map_writeOf_congr {heap heap' : Heap} {nodes : List Addr}
    (hkept : ∀ addr ∈ nodes, heap'.writeAt addr = heap.writeAt addr) :
    nodes.map heap'.writeOf = nodes.map heap.writeOf :=
  List.map_congr_left fun addr hmem => by simp only [Heap.writeOf, hkept addr hmem]

private theorem map_writeOf_freed {heap heap' : Heap} {batch nodes : List Addr}
    (hlookup : ∀ addr, heap'.lookup addr = if addr ∈ batch then none else heap.lookup addr)
    (hdisjoint : ∀ addr ∈ nodes, addr ∉ batch) :
    nodes.map heap'.writeOf = nodes.map heap.writeOf :=
  map_writeOf_congr fun addr hmem => by
    simp [Heap.writeAt, hlookup, hdisjoint addr hmem]

theorem freedWrites_eq_nil {call : FlushCall} (hended : ∀ freed, call.ended ≠ .completed freed) :
    call.freedWrites = [] := by
  unfold FlushCall.freedWrites
  split
  · rename_i freed heq
    exact absurd heq (hended freed)
  · rfl

structure Represents (c : Config) (q : Queue Write) (batch pending : List Addr) : Prop where
  held : Held c batch pending
  released : q.released.flatten = c.freed
  closedStage : q.closedStage = batch.map c.pool.heap.writeOf
  openStage : q.openStage = pending.map c.pool.heap.writeOf
  accepted : q.accepted = c.stored
  batches : q.batches = c.history.batches

theorem Represents.step {c c' : Config} {q : Queue Write} {batch pending batch' pending' :
    List Addr} {action : Action} (hq : Represents c q batch pending)
    (hheld' : Held c' batch' pending')
    (heffect : Effect c c' batch pending action batch' pending') :
    ∃ labels q', (queue Write).Run q labels q' ∧ Represents c' q' batch' pending' := by
  cases heffect with
  | quiet _ ended _ _ hkept hstored hbatches hflushes hended =>
      refine ⟨[], q, .nil q, hheld', ?_, ?_, ?_, hq.accepted.trans hstored.symm,
        hq.batches.trans hbatches.symm⟩
      · have hnone : ended.flatMap FlushCall.freedWrites = [] :=
          List.flatMap_eq_nil_iff.mpr fun call hcall => freedWrites_eq_nil (hended call hcall).2
        rw [hq.released, Config.freed, Config.freed, hflushes, List.flatMap_append, hnone,
          List.append_nil]
      · rw [hq.closedStage, map_writeOf_congr fun addr h => hkept addr (List.mem_append_left _ h)]
      · rw [hq.openStage, map_writeOf_congr fun addr h => hkept addr (List.mem_append_right _ h)]
  | stored addr write hkept hnew hstored hbatches hflushes =>
      refine ⟨[.put write], _, .single (.put q write), hheld', ?_, ?_, ?_, ?_,
        hq.batches.trans hbatches.symm⟩
      · simp only [hq.released, Config.freed, hflushes]
      · simp only [hq.closedStage]
        rw [map_writeOf_congr fun addr h => hkept addr (List.mem_append_left _ h)]
      · simp only [hq.openStage, List.map_append, List.map_cons, List.map_nil]
        rw [map_writeOf_congr fun addr h => hkept addr (List.mem_append_right _ h)]
        simp [Heap.writeOf, hnew]
      · simp only [hq.accepted, hstored]
  | enqueued hempty hkept hstored hbatches hflushes =>
      subst hempty
      refine ⟨[.close], _, .single (.close q hq.closedStage), hheld', ?_, ?_, rfl,
        hq.accepted.trans hstored.symm, ?_⟩
      · simp only [hq.released, Config.freed, hflushes]
      · simp only [hq.openStage]
        rw [map_writeOf_congr hkept]
      · simp only [hq.batches, hq.openStage, hbatches]
  | completed call hlookup hstored hbatches hflushes _ _ hended =>
      have hfreed : call.freedWrites = batch.map c.pool.heap.writeOf := by
        simp [FlushCall.freedWrites, hended, Function.comp_def]
      refine ⟨[.release], _, .single (.release q), hheld', ?_, rfl, ?_,
        hq.accepted.trans hstored.symm, hq.batches.trans hbatches.symm⟩
      · simp [hq.released, Config.freed, hflushes, hfreed, hq.closedStage]
      · simp only [hq.openStage]
        rw [map_writeOf_freed hlookup fun addr h => Owned.disjoint hq.held.pool h]

/-- The machine refines the two-stage queue. -/
theorem refines : Simulation machine (queue Write) fun c q =>
    ∃ batch pending, Represents c q batch pending where
  init := by
    rintro c rfl
    exact ⟨emptyQueue, rfl, [], [], held_freshPool, rfl, rfl, rfl, rfl, rfl⟩
  step := by
    rintro c action c' q - ⟨batch, pending, hq⟩ hstep
    obtain ⟨batch', pending', hheld', heffect, _⟩ := hq.held.effect hstep
    obtain ⟨labels, q', hrun, hq'⟩ := hq.step hheld' heffect
    exact ⟨labels, q', hrun, batch', pending', hq'⟩

/-- No run loses, duplicates or reorders a write, and `pwrite` returns zero
only for writes that are in the buffer and an error only for writes that are
not. -/
theorem no_write_lost (c : Config) (hc : machine.Reachable c) :
    (∃ flushing active, c.pool.heap.writes c.pool.flushing = some flushing ∧
      c.pool.heap.writes c.pool.pending = some active ∧
      c.freed ++ flushing ++ active = c.stored) ∧
    ∀ call ∈ c.calls, (call.returned = some 0 → call.tookEffect = true) ∧
      ∀ code, call.returned = some code → code ≠ 0 → call.tookEffect = false := by
  obtain ⟨q, hqueue, batch, pending, hq⟩ := refines.reachable hc
  have hflow := accepted_eq hqueue
  rw [hq.released, hq.closedStage, hq.openStage, hq.accepted] at hflow
  refine ⟨⟨_, _, hq.held.pool.writes_flushing, hq.held.pool.writes_pending, hflow⟩, ?_⟩
  intro call hcall
  have hsound := hq.held.calls call hcall
  exact ⟨hsound.success, hsound.failure⟩

theorem no_write_lost_crashedFlush : ∃ c, execute crashedFlush = some c ∧
    c.freed = [⟨0, [104]⟩, ⟨5, [98, 98]⟩] ∧ c.stored = [⟨0, [104]⟩, ⟨5, [98, 98]⟩, ⟨9, []⟩] ∧
    (∃ flushing active, c.pool.heap.writes c.pool.flushing = some flushing ∧
      c.pool.heap.writes c.pool.pending = some active ∧
      c.freed ++ flushing ++ active = c.stored) ∧
    ∀ call ∈ c.calls, (call.returned = some 0 → call.tookEffect = true) ∧
      ∀ code, call.returned = some code → code ≠ 0 → call.tookEffect = false := by
  obtain ⟨c, hexecute, hfreed, hstored⟩ : ∃ c, execute crashedFlush = some c ∧
      c.freed = [⟨0, [104]⟩, ⟨5, [98, 98]⟩] ∧ c.stored = [⟨0, [104]⟩, ⟨5, [98, 98]⟩, ⟨9, []⟩] :=
    ⟨_, rfl, rfl, rfl⟩
  exact ⟨c, hexecute, hfreed, hstored, no_write_lost c (reachable_of_execute crashedFlush hexecute)⟩

end SpackPlayground.BurstBuffer.Refinement
