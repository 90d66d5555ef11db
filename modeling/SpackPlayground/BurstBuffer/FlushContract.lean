import SpackPlayground.BurstBuffer.Refinement

/-! `flushAll` towards its callback and towards the buffer: it hands out the
batch from the front, and it frees the whole batch or nothing. -/
namespace SpackPlayground.BurstBuffer.FlushContract

open Memory Operations Machine Shape Invariant Refinement
open Library.Transition Library.LinkedChain Library.StagedQueue

/-- A finished `flushAll` call, judged by the batches that were enqueued and by
the writes that earlier calls freed. It worked on the first batch that was not
freed, or there was none. -/
structure CallContract (batches : List (List Write)) (freedBefore : List Write)
    (call : FlushCall) : Prop where
  once : (call.deliveries.map Delivery.addr).Nodup
  verdicts : FlushCall.VerdictsOk call
  batch : ∃ earlier batch later, freedBefore = earlier.flatten ∧
    (batches = earlier ++ batch :: later ∨ batch = [] ∧ batches = earlier ++ later) ∧
    call.deliveries.map Delivery.write <+: batch ∧
    ∀ freed, call.ended = .completed freed → call.deliveries.map Delivery.write = batch

inductive Ledger (batches : List (List Write)) : List FlushCall → Prop where
  | nil : Ledger batches []
  | snoc {before : List FlushCall} {call : FlushCall} : Ledger batches before →
      CallContract batches (before.flatMap FlushCall.freedWrites) call →
      Ledger batches (before ++ [call])

section Ledger

variable {batches : List (List Write)} {flushes : List FlushCall}

theorem CallContract.mono {freedBefore : List Write} {call : FlushCall}
    (hcall : CallContract batches freedBefore call) (next : List Write) :
    CallContract (batches ++ [next]) freedBefore call := by
  refine ⟨hcall.once, hcall.verdicts, ?_⟩
  obtain ⟨earlier, batch, later, hfreed, hbatches, hrest⟩ := hcall.batch
  refine ⟨earlier, batch, later ++ [next], hfreed, ?_, hrest⟩
  rcases hbatches with h | ⟨hempty, h⟩
  · exact .inl (by simp [h])
  · exact .inr ⟨hempty, by simp [h]⟩

theorem Ledger.mono (hledger : Ledger batches flushes) (next : List Write) :
    Ledger (batches ++ [next]) flushes := by
  induction hledger with
  | nil => exact .nil
  | snoc _ hcall ih => exact .snoc ih (hcall.mono next)

theorem Ledger.append {ended : List FlushCall} (hledger : Ledger batches flushes)
    (hended : ∀ call ∈ ended, call.freedWrites = [] ∧
      CallContract batches (flushes.flatMap FlushCall.freedWrites) call) :
    Ledger batches (flushes ++ ended) := by
  induction ended generalizing flushes with
  | nil => rwa [List.append_nil]
  | cons call ended ih =>
      obtain ⟨hnone, hcall⟩ := hended call List.mem_cons_self
      rw [List.append_cons]
      refine ih (hledger.snoc hcall) fun other hmem => ?_
      have hother := hended other (List.mem_cons_of_mem call hmem)
      simpa [hnone] using hother

end Ledger

theorem map_write_eq {heap : Heap} {deliveries : List Delivery}
    (hcontents : ∀ d ∈ deliveries, heap.writeAt d.addr = some d.write) :
    deliveries.map Delivery.write = (deliveries.map Delivery.addr).map heap.writeOf := by
  rw [List.map_map]
  refine List.map_congr_left fun d hd => ?_
  simp [Heap.writeOf, hcontents d hd]

theorem callContract_of_ended {c : Config} {q : Queue Write} {batch pending : List Addr}
    {call : FlushCall} (hq : Represents c q batch pending) (hqueue : (queue Write).Reachable q)
    (hcall : CallOk c.pool.heap batch call)
    (hcompleted : ∀ freed, call.ended = .completed freed →
      call.deliveries.map Delivery.addr = batch) :
    CallContract c.history.batches c.freed call := by
  have hwrites := map_write_eq hcall.contents
  refine ⟨hq.held.pool.batch_nodup.sublist hcall.inOrder.sublist, hcall.verdicts, ?_⟩
  obtain ⟨earlier, hreleased, hclosed⟩ := batches_eq hqueue
  rw [hq.released] at hreleased
  rw [hq.batches] at hclosed
  refine ⟨earlier, q.closedStage, [], hreleased, ?_, ?_, ?_⟩
  · rcases hclosed with h | ⟨h, hempty⟩
    · exact .inl h
    · exact .inr ⟨hempty, by rw [h, List.append_nil]⟩
  · rw [hwrites, hq.closedStage]
    exact hcall.inOrder.map _
  · intro freed hended
    rw [hwrites, hq.closedStage, hcompleted freed hended]

theorem ledger_of_reachable {c : Config} (hc : machine.Reachable c) :
    Ledger c.history.batches c.history.flushes := by
  apply hc.invariant (motive := fun c => Ledger c.history.batches c.history.flushes)
  · rintro c rfl
    exact .nil
  · intro c action c' hc hledger hstep
    obtain ⟨q, hqueue, batch, pending, hq⟩ := refines.reachable hc
    obtain ⟨batch', pending', hheld', heffect, _⟩ := hq.held.effect hstep
    cases heffect with
    | quiet _ ended _ _ _ _ hbatches hflushes hended =>
        rw [hbatches, hflushes]
        refine hledger.append fun call hmem => ?_
        obtain ⟨hcall, hunfreed⟩ := hended call hmem
        exact ⟨freedWrites_eq_nil hunfreed,
          callContract_of_ended hq hqueue hcall fun freed heq => absurd heq (hunfreed freed)⟩
    | stored addr write _ _ _ hbatches hflushes => rwa [hbatches, hflushes]
    | enqueued _ _ _ hbatches hflushes =>
        rw [hbatches, hflushes]
        exact hledger.mono _
    | completed call _ _ hbatches hflushes hcall haddrs _ =>
        rw [hbatches, hflushes]
        exact hledger.snoc (callContract_of_ended hq hqueue hcall fun _ _ => haddrs)

/-- The chains and what they store, unchanged apart from appends to the active
chain. -/
structure ChainsKept (pool pool' : Pool) : Prop where
  first : pool'.flushing = pool.flushing
  flushing : ∃ nodes, pool.heap.nodes pool.flushing = some nodes ∧
    pool'.heap.nodes pool'.flushing = some nodes ∧
    ∀ addr ∈ nodes, pool'.heap.writeAt addr = pool.heap.writeAt addr
  pending : ∃ nodes appended, pool.heap.nodes pool.pending = some nodes ∧
    pool'.heap.nodes pool'.pending = some (nodes ++ appended) ∧
    ∀ addr ∈ nodes, pool'.heap.writeAt addr = pool.heap.writeAt addr

theorem ChainsKept.trans {first second third : Pool} (hfirst : ChainsKept first second)
    (hsecond : ChainsKept second third) : ChainsKept first third := by
  refine ⟨hsecond.first.trans hfirst.first, ?_, ?_⟩
  · obtain ⟨nodes, h1, h2, hkept⟩ := hfirst.flushing
    obtain ⟨nodes', h2', h3, hkept'⟩ := hsecond.flushing
    obtain rfl : nodes = nodes' := Option.some.inj (h2.symm.trans h2')
    exact ⟨nodes, h1, h3, fun addr hmem => (hkept' addr hmem).trans (hkept addr hmem)⟩
  · obtain ⟨nodes, appended, h1, h2, hkept⟩ := hfirst.pending
    obtain ⟨nodes', appended', h2', h3, hkept'⟩ := hsecond.pending
    obtain rfl : nodes ++ appended = nodes' := Option.some.inj (h2.symm.trans h2')
    exact ⟨nodes, appended ++ appended', h1, by rw [h3, List.append_assoc],
      fun addr hmem => (hkept' addr (List.mem_append_left _ hmem)).trans (hkept addr hmem)⟩

theorem chainsKept_of_owned {pool pool' : Pool} {batch pending : List Addr}
    (appended : List Addr) (howned : Owned pool batch pending)
    (howned' : Owned pool' batch (pending ++ appended))
    (hkept : ∀ addr ∈ batch ++ pending, pool'.heap.writeAt addr = pool.heap.writeAt addr) :
    ChainsKept pool pool' where
  first := by rw [howned.flushing_eq, howned'.flushing_eq]
  flushing := ⟨batch, howned.nodes_flushing, howned'.nodes_flushing,
    fun addr hmem => hkept addr (List.mem_append_left _ hmem)⟩
  pending := ⟨pending, appended, howned.nodes_pending, howned'.nodes_pending,
    fun addr hmem => hkept addr (List.mem_append_right _ hmem)⟩

/-- A committed freeing transaction: the batch was accepted node by node in this
very call, exactly its nodes are freed, and nothing else changes. -/
structure BatchFreed (c c' : Config) : Prop where
  freed : ∃ nodes call, c.pool.heap.nodes c.pool.flushing = some nodes ∧
    c'.history.flushes = c.history.flushes ++ [call] ∧
    call.deliveries.map Delivery.addr = nodes ∧
    (∀ d ∈ call.deliveries, d.verdict = .accept ∧ c.pool.heap.writeAt d.addr = some d.write) ∧
    ∀ addr, c'.pool.heap.lookup addr = if addr ∈ nodes then none else c.pool.heap.lookup addr
  null : c'.pool.flushing = none
  pending : c'.pool.heap.nodes c'.pool.pending = c.pool.heap.nodes c.pool.pending

structure StepContract (c c' : Config) (action : Action) : Prop where
  free : action = .freeTransaction .commit → BatchFreed c c'
  enqueue : action = .enqueueTransaction .commit → c.pool.flushing = none
  keep : action ≠ .freeTransaction .commit → action ≠ .enqueueTransaction .commit →
    ChainsKept c.pool c'.pool
  start : action = .lockFlush → ∃ v, c'.process = .running v ∧
    v.flusher = .visiting c.pool.flushing ∧ v.deliveries = []
  refuse : action = .testFlushing → c.pool.flushing ≠ none →
    c'.pool = c.pool ∧ ∃ v, c'.process = .running v ∧ v.writer = .idle

private theorem lockFlush_start {c c' : Config} (hstep : c.step .lockFlush = .ok c') :
    ∃ v, c'.process = .running v ∧ v.flusher = .visiting c.pool.flushing ∧ v.deliveries = [] := by
  obtain ⟨⟨bb, heap⟩, process, history⟩ := c
  cases process with
  | running v =>
      obtain ⟨tail, flushMutex, writer, flusher, deliveries⟩ := v
      cases flusher with
      | idle =>
          by_cases hfree : flushMutex = none
          · cases bb with
            | none => simp [Config.step, Config.threadStep, Config.flushStep, hfree,
                Pool.persistent, bind, Except.bind] at hstep
            | some bb =>
                simp only [Config.step, Config.threadStep, Config.flushStep, hfree, if_true,
                  Pool.persistent, bind, Except.bind, pure, Except.pure] at hstep
                rw [← Except.ok.inj hstep]
                exact ⟨_, rfl, rfl, rfl⟩
          · simp [Config.step, Config.threadStep, Config.flushStep, hfree] at hstep
      | visiting cur => cases cur <;> cases hstep
  | _ => cases hstep

private theorem testFlushing_refuse {c c' : Config} (hstep : c.step .testFlushing = .ok c')
    (hflushing : c.pool.flushing ≠ none) :
    c'.pool = c.pool ∧ ∃ v, c'.process = .running v ∧ v.writer = .idle := by
  obtain ⟨⟨bb, heap⟩, process, history⟩ := c
  cases process with
  | running v =>
      obtain ⟨tail, flushMutex, writer, flusher, deliveries⟩ := v
      cases writer with
      | testing =>
          cases bb with
          | none => exact absurd rfl hflushing
          | some bb =>
              have hbatch : bb.flushing ≠ none := hflushing
              simp only [Config.step, Config.threadStep, Config.enqueueStep, hbatch, if_false,
                Pool.persistent, bind, Except.bind, pure, Except.pure] at hstep
              rw [← Except.ok.inj hstep]
              exact ⟨rfl, _, rfl, rfl⟩
      | _ => cases hstep
  | _ => cases hstep

theorem stepContract {c c' : Config} {action : Action} (hc : machine.Reachable c)
    (hstep : machine.step c action c') : StepContract c c' action := by
  obtain ⟨batch, pending, hheld⟩ := held_of_reachable hc
  obtain ⟨batch', pending', hheld', heffect, _⟩ := hheld.effect hstep
  refine ⟨?_, ?_, ?_, ?_, ?_⟩
  · rintro rfl
    cases heffect with
    | quiet _ _ _ hfree => exact absurd rfl hfree
    | completed call hlookup _ _ hflushes hcall haddrs hended =>
        have hverdicts := hcall.verdicts
        simp only [FlushCall.VerdictsOk, hended] at hverdicts
        refine ⟨⟨batch, call, hheld.pool.nodes_flushing, hflushes, haddrs,
          fun d hd => ⟨hverdicts.1 d hd, hcall.contents d hd⟩, hlookup⟩, ?_, ?_⟩
        · rw [hheld'.pool.flushing_eq, List.head?_nil]
        · rw [hheld.pool.nodes_pending, hheld'.pool.nodes_pending]
  · rintro rfl
    cases heffect with
    | quiet _ _ henqueue => exact absurd rfl henqueue
    | enqueued hempty => rw [hheld.pool.flushing_eq, hempty, List.head?_nil]
  · intro hfree henqueue
    cases heffect with
    | quiet _ _ _ _ hkept =>
        exact chainsKept_of_owned [] hheld.pool
          (by rw [List.append_nil]; exact hheld'.pool) hkept
    | stored addr write hkept => exact chainsKept_of_owned [addr] hheld.pool hheld'.pool hkept
    | enqueued => exact absurd rfl henqueue
    | completed => exact absurd rfl hfree
  · rintro rfl
    exact lockFlush_start hstep
  · rintro rfl
    exact testFlushing_refuse hstep

private theorem chainsKept_of_run {c c' : Config} {actions : List Action} (hc : machine.Reachable c)
    (hrun : machine.Run c actions c') (hfree : .freeTransaction .commit ∉ actions)
    (henqueue : c.pool.flushing ≠ none ∨ .enqueueTransaction .commit ∉ actions) :
    ChainsKept c.pool c'.pool := by
  induction hrun with
  | nil c =>
      obtain ⟨batch, pending, hheld⟩ := held_of_reachable hc
      exact chainsKept_of_owned [] hheld.pool
        (by rw [List.append_nil]; exact hheld.pool) fun _ _ => rfl
  | @cons c d c' action actions hstep _ ih =>
      obtain ⟨hfirst, hfree⟩ := not_or.mp (mt List.mem_cons.mpr hfree)
      have hcontract := stepContract hc hstep
      have hother : action ≠ .enqueueTransaction .commit := by
        rintro rfl
        rcases henqueue with hflushing | habsent
        · exact hflushing (hcontract.enqueue rfl)
        · exact habsent List.mem_cons_self
      have hkept := hcontract.keep (Ne.symm hfirst) hother
      refine hkept.trans (ih (hc.step hstep) hfree ?_)
      rw [hkept.first]
      exact henqueue.imp_right fun habsent hmem => habsent (List.mem_cons_of_mem _ hmem)

/-- The running `flushAll` has handed out a prefix of the batch in write order,
each node once, and goes on with the rest. -/
structure HandingOut (c : Config) (deliveries : List Delivery) (cur : PersistentPtr) : Prop where
  chain : ∃ rest, c.pool.heap.nodes c.pool.flushing =
    some (deliveries.map Delivery.addr ++ rest) ∧ c.pool.heap.nodes cur = some rest ∧
    (deliveries.map Delivery.addr ++ rest).Nodup
  accepted : ∀ d ∈ deliveries, d.verdict = .accept ∧ c.pool.heap.writeAt d.addr = some d.write
  inOrder : c.freed ++ deliveries.map Delivery.write <+: c.stored

private theorem handingOut_of_visiting {c : Config} (hc : machine.Reachable c) {v : Volatile}
    {cur : PersistentPtr} (hrunning : c.process = .running v)
    (hvisiting : v.flusher = .visiting cur) :
    HandingOut c v.deliveries cur := by
  obtain ⟨q, hqueue, batch, pending, hq⟩ := refines.reachable hc
  have hprocess := hq.held.process
  rw [hrunning] at hprocess
  obtain ⟨sentinel, hbuilt, hthreads⟩ := hprocess
  have hflusher := hthreads.flusher
  rw [hvisiting] at hflusher
  obtain ⟨rest, hbatch, hcur, haccepted⟩ := hflusher
  have hchain := hbuilt.flushing
  have hnodup := hq.held.pool.batch_nodup
  rw [hbatch] at hchain hnodup
  refine ⟨⟨rest, ?_, ?_, hnodup⟩, haccepted, ?_⟩
  · rw [hq.held.pool.nodes_flushing, hbatch]
  · rw [hcur]
    exact nodes_eq_some_iff.mpr hchain.suffix
  · have hflow := accepted_eq hqueue
    rw [hq.released, hq.closedStage, hq.accepted, hbatch, List.map_append,
      ← map_write_eq fun d hd => (haccepted d hd).2] at hflow
    exact ⟨rest.map c.pool.heap.writeOf ++ q.openStage, by rw [← hflow]; simp⟩

/-- `flushAll` is all or nothing towards the buffer and at least once towards
the callback. -/
theorem flush_contract (c : Config) (hc : machine.Reachable c) :
    -- every call so far worked on the first batch that was not freed before it
    (Ledger c.history.batches c.history.flushes ∧ c.history.batches.flatten <+: c.stored) ∧
    (∀ v cur, c.process = .running v → v.flusher = .visiting cur →
      HandingOut c v.deliveries cur) ∧
    (∀ action c', machine.step c action c' → StepContract c c' action) ∧
    ∀ actions c', machine.Run c actions c' → .freeTransaction .commit ∉ actions →
      (c.pool.flushing ≠ none ∨ .enqueueTransaction .commit ∉ actions) →
      ChainsKept c.pool c'.pool := by
  refine ⟨⟨ledger_of_reachable hc, ?_⟩, fun _ _ => handingOut_of_visiting hc,
    fun _ _ => stepContract hc, fun _ _ => chainsKept_of_run hc⟩
  obtain ⟨q, hqueue, _, _, hq⟩ := refines.reachable hc
  have hflow := batches_flatten_append hqueue
  rw [hq.batches, hq.accepted] at hflow
  exact ⟨q.openStage, hflow⟩

theorem flush_contract_crashedFlush : ∃ c, execute crashedFlush = some c ∧
    c.history.flushes.length = 2 ∧ Ledger c.history.batches c.history.flushes ∧
    ∀ action c', machine.step c action c' → StepContract c c' action := by
  obtain ⟨c, hexecute, hlength⟩ : ∃ c, execute crashedFlush = some c ∧
      c.history.flushes.length = 2 := ⟨_, rfl, rfl⟩
  obtain ⟨⟨hledger, _⟩, _, hsteps, _⟩ :=
    flush_contract c (reachable_of_execute crashedFlush hexecute)
  exact ⟨c, hexecute, hlength, hledger, hsteps⟩

end SpackPlayground.BurstBuffer.FlushContract
