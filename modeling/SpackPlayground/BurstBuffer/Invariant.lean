import SpackPlayground.BurstBuffer.Machine
import SpackPlayground.BurstBuffer.Shape

/-! What holds in every state of a run, and what one step can do to it. The
step lemma `Held.step` says both that no step goes wrong and which of four
things the step does to the chains; later modules never open `Config.step`. -/
namespace SpackPlayground.BurstBuffer.Invariant

open Memory Operations Machine Shape
open Library.Transition Library.LinkedChain

def WriterOk (sentinel : Addr) (batch pending : List Addr) (tail : PersistentPtr) :
    WriterPc → Prop
  | .advancing _ => ∃ before addr,
      pending = before ++ [addr] ∧ tail = some (before.getLastD sentinel)
  | .transacting => batch = [] ∧ tail = some (pending.getLastD sentinel)
  -- the transaction has moved the node that `tail_` points to
  | .resetting => pending = []
  | _ => tail = some (pending.getLastD sentinel)

def Accepted (heap : Heap) (deliveries : List Delivery) : Prop :=
  ∀ delivery ∈ deliveries,
    delivery.verdict = .accept ∧ heap.writeAt delivery.addr = some delivery.write

/-- The running `flushAll` has handed out the front of the batch, and `cur` is
the first node that is left. -/
def FlusherOk (heap : Heap) (batch : List Addr) (deliveries : List Delivery) :
    FlusherPc → Prop
  | .idle => True
  | .visiting cur => ∃ rest,
      batch = deliveries.map Delivery.addr ++ rest ∧ cur = rest.head? ∧ Accepted heap deliveries

def WriterPc.locks : WriterPc → Prop
  | .testing | .transacting | .resetting => True
  | _ => False

def FlusherPc.locks : FlusherPc → Prop
  | .idle => False
  | .visiting _ => True

structure MutexOk (v : Volatile) : Prop where
  writer : WriterPc.locks v.writer ↔ v.flushMutex = some .writer
  flusher : FlusherPc.locks v.flusher ↔ v.flushMutex = some .flusher

structure Threads (heap : Heap) (sentinel : Addr) (batch pending : List Addr)
    (v : Volatile) : Prop where
  writer : WriterOk sentinel batch pending v.tail v.writer
  flusher : FlusherOk heap batch v.deliveries v.flusher
  mutex : MutexOk v

def ProcessOk (pool : Pool) (batch pending : List Addr) : Process → Prop
  | .down => True
  | .opened => pool.bb ≠ none
  | .initialized => ∃ sentinel, Built pool sentinel batch pending
  | .running v => ∃ sentinel, Built pool sentinel batch pending ∧
      Threads pool.heap sentinel batch pending v

/-- The pool holds `batch` and `pending`, and nothing else but the sentinel. -/
def Owned (pool : Pool) (batch pending : List Addr) : Prop :=
  (∃ sentinel, Built pool sentinel batch pending) ∨
    Unbuilt pool ∧ batch = [] ∧ pending = []

structure Call.Sound (call : Call) : Prop where
  success : call.returned = some 0 → call.tookEffect = true
  failure : ∀ code, call.returned = some code → code ≠ 0 → call.tookEffect = false

structure Held (c : Config) (batch pending : List Addr) : Prop where
  pool : Owned c.pool batch pending
  process : ProcessOk c.pool batch pending c.process
  calls : ∀ call ∈ c.calls, Call.Sound call

def FlushCall.VerdictsOk (call : FlushCall) : Prop :=
  match call.ended with
  | .completed freed =>
      (∀ d ∈ call.deliveries, d.verdict = .accept) ∧
        freed = call.deliveries.map fun d => (d.addr, d.write)
  | .rolledBack | .interrupted => ∀ d ∈ call.deliveries, d.verdict = .accept
  | .aborted => ∃ before last, call.deliveries = before ++ [last] ∧ last.verdict = .abort ∧
      ∀ d ∈ before, d.verdict = .accept
  | .threw => ∃ before last, call.deliveries = before ++ [last] ∧ last.verdict = .throw ∧
      ∀ d ∈ before, d.verdict = .accept

structure CallOk (heap : Heap) (batch : List Addr) (call : FlushCall) : Prop where
  inOrder : call.deliveries.map Delivery.addr <+: batch
  contents : ∀ d ∈ call.deliveries, heap.writeAt d.addr = some d.write
  verdicts : FlushCall.VerdictsOk call

inductive Effect (c c' : Config) (batch pending : List Addr) :
    Action → List Addr → List Addr → Prop where
  /-- Nothing; at most a `flushAll` call ends without freeing anything. -/
  | quiet (action : Action) (ended : List FlushCall) :
      action ≠ .enqueueTransaction .commit → action ≠ .freeTransaction .commit →
      (∀ addr ∈ batch ++ pending, c'.pool.heap.writeAt addr = c.pool.heap.writeAt addr) →
      c'.stored = c.stored → c'.history.batches = c.history.batches →
      c'.history.flushes = c.history.flushes ++ ended →
      (∀ call ∈ ended, CallOk c.pool.heap batch call ∧ ∀ freed, call.ended ≠ .completed freed) →
      Effect c c' batch pending action batch pending
  | stored (addr : Addr) (write : Write) :
      (∀ addr ∈ batch ++ pending, c'.pool.heap.writeAt addr = c.pool.heap.writeAt addr) →
      c'.pool.heap.writeAt addr = some write →
      c'.stored = c.stored ++ [write] → c'.history.batches = c.history.batches →
      c'.history.flushes = c.history.flushes →
      Effect c c' batch pending (.xalloc (.allocated addr)) batch (pending ++ [addr])
  | enqueued :
      batch = [] →
      (∀ addr ∈ pending, c'.pool.heap.writeAt addr = c.pool.heap.writeAt addr) →
      c'.stored = c.stored →
      c'.history.batches = c.history.batches ++ [pending.map c.pool.heap.writeOf] →
      c'.history.flushes = c.history.flushes →
      Effect c c' batch pending (.enqueueTransaction .commit) pending []
  | completed (call : FlushCall) :
      (∀ addr, c'.pool.heap.lookup addr =
        if addr ∈ batch then none else c.pool.heap.lookup addr) →
      c'.stored = c.stored → c'.history.batches = c.history.batches →
      c'.history.flushes = c.history.flushes ++ [call] →
      CallOk c.pool.heap batch call → call.deliveries.map Delivery.addr = batch →
      call.ended = .completed (batch.map fun a => (a, c.pool.heap.writeOf a)) →
      Effect c c' batch pending (.freeTransaction .commit) [] pending

def SentinelKept (pool pool' : Pool) : Prop :=
  ∀ sentinel, pool.active = some sentinel → pool'.active = some sentinel

theorem SentinelKept.refl (pool : Pool) : SentinelKept pool pool :=
  fun _ hactive => hactive

theorem SentinelKept.of_built {pool pool' : Pool} {sentinel : Addr}
    {batch pending batch' pending' : List Addr} (hbuilt : Built pool sentinel batch pending)
    (hbuilt' : Built pool' sentinel batch' pending') : SentinelKept pool pool' := by
  intro other hother
  rw [hbuilt'.pool_active, ← hbuilt.pool_active, hother]

theorem SentinelKept.of_unbuilt {pool pool' : Pool} (hunbuilt : Unbuilt pool) :
    SentinelKept pool pool' := by
  intro sentinel hactive
  rcases hunbuilt.bb with hbb | hbb <;> simp [Pool.active, hbb] at hactive

/-- A step is refused as impossible here, or it keeps the invariant. It never
runs into undefined behaviour and never diverges. -/
def StepOk (c : Config) (batch pending : List Addr) (action : Action) : Prop :=
  c.step action = .error .disabled ∨
    ∃ c' batch' pending', c.step action = .ok c' ∧ Held c' batch' pending' ∧
      Effect c c' batch pending action batch' pending' ∧ SentinelKept c.pool c'.pool

section Steps

variable {c c' : Config} {batch pending : List Addr} {action : Action}

theorem StepOk.of_quiet (hstep : c.step action = .ok c') (hheld : Held c' batch pending)
    (henqueue : action ≠ .enqueueTransaction .commit)
    (hfree : action ≠ .freeTransaction .commit) (hheap : c'.pool.heap = c.pool.heap)
    (hstored : c'.stored = c.stored) (hbatches : c'.history.batches = c.history.batches)
    (hflushes : c'.history.flushes = c.history.flushes)
    (hsentinel : SentinelKept c.pool c'.pool) : StepOk c batch pending action := by
  refine .inr ⟨c', batch, pending, hstep, hheld, .quiet action [] henqueue hfree ?_ hstored
    hbatches ?_ ?_, hsentinel⟩
  · intro addr _
    rw [hheap]
  · rw [hflushes, List.append_nil]
  · simp

variable {pool : Pool} {history : History} {sentinel : Addr} {v : Volatile}

def CallsOk (history : History) (v : Volatile) : Prop :=
  ∀ call ∈ history.calls ++ v.writer.call, Call.Sound call

theorem CallsOk.ended {call : Call} (hcalls : CallsOk history v) (hsound : Call.Sound call)
    {v' : Volatile} (hidle : v'.writer = .idle) :
    CallsOk { history with calls := history.calls ++ [call] } v' := by
  intro other hmem
  simp only [hidle, WriterPc.call, List.append_nil, List.mem_append, List.mem_singleton] at hmem
  rcases hmem with hold | rfl
  · exact hcalls other (List.mem_append_left _ hold)
  · exact hsound

theorem Call.sound_unreturned (write : Write) (tookEffect : Bool) :
    Call.Sound ⟨write, tookEffect, none⟩ :=
  ⟨nofun, nofun⟩

theorem Call.sound_success (write : Write) : Call.Sound ⟨write, true, some pwriteSuccess⟩ :=
  ⟨fun _ => rfl, fun _ hcode hne => absurd (Option.some.inj hcode).symm hne⟩

theorem Call.sound_failure (write : Write) (errno : Errno) :
    Call.Sound ⟨write, false, some (pwriteFailure errno)⟩ := by
  refine ⟨fun hzero => ?_, fun _ _ _ => rfl⟩
  have hcode : -(errno.val : Int) = 0 := Option.some.inj hzero
  have hpositive := errno.property
  omega

theorem CallsOk.began {write : Write} {tookEffect : Bool} (hcalls : CallsOk history v)
    {v' : Volatile} (hcall : v'.writer.call = [⟨write, tookEffect, none⟩]) :
    CallsOk history v' := by
  intro call hmem
  rw [hcall, List.mem_append, List.mem_singleton] at hmem
  rcases hmem with hold | rfl
  · exact hcalls call (List.mem_append_left _ hold)
  · exact Call.sound_unreturned write tookEffect

theorem Held.running (hbuilt : Built pool sentinel batch pending)
    (hthreads : Threads pool.heap sentinel batch pending v) (hcalls : CallsOk history v) :
    Held ⟨pool, .running v, history⟩ batch pending :=
  ⟨.inl ⟨sentinel, hbuilt⟩, ⟨sentinel, hbuilt, hthreads⟩, hcalls⟩

theorem callPwrite_ok (hbuilt : Built pool sentinel batch pending)
    (hthreads : Threads pool.heap sentinel batch pending v)
    (hcalls : CallsOk history v) (write : Write) :
    StepOk ⟨pool, .running v, history⟩ batch pending (.callPwrite write) := by
  obtain ⟨tail, flushMutex, writer, flusher, deliveries⟩ := v
  cases writer with
  | idle =>
      have hheld : Held ⟨pool, .running ⟨tail, flushMutex, .allocating write, flusher, deliveries⟩,
          history⟩ batch pending :=
        Held.running hbuilt ⟨hthreads.writer, hthreads.flusher, hthreads.mutex.writer,
          hthreads.mutex.flusher⟩ (hcalls.began rfl)
      exact .of_quiet rfl hheld nofun nofun rfl
        (by simp [Config.stored, Config.calls, Process.call, WriterPc.call, Config.resume])
        rfl rfl (.refl _)
  | _ => exact .inl rfl

theorem advanceTail_ok (hbuilt : Built pool sentinel batch pending)
    (hthreads : Threads pool.heap sentinel batch pending v)
    (hcalls : CallsOk history v) :
    StepOk ⟨pool, .running v, history⟩ batch pending .advanceTail := by
  obtain ⟨tail, flushMutex, writer, flusher, deliveries⟩ := v
  cases writer with
  | advancing write =>
      obtain ⟨before, addr, rfl, rfl⟩ := hthreads.writer
      have hstep : Config.step ⟨pool, .running ⟨some (before.getLastD sentinel), flushMutex,
            .advancing write, flusher, deliveries⟩, history⟩ .advanceTail =
          .ok ⟨pool, .running ⟨some addr, flushMutex, .idle, flusher, deliveries⟩,
            { history with calls := history.calls ++ [⟨write, true, some pwriteSuccess⟩] }⟩ := by
        simp only [Config.step, Config.threadStep, Config.pwriteStep, hbuilt.advanceTail_eq]
        rfl
      have hheld : Held ⟨pool, .running ⟨some addr, flushMutex, .idle, flusher, deliveries⟩,
          { history with calls := history.calls ++ [⟨write, true, some pwriteSuccess⟩] }⟩ batch
          (before ++ [addr]) :=
        Held.running hbuilt ⟨by simp [WriterOk], hthreads.flusher, hthreads.mutex.writer,
          hthreads.mutex.flusher⟩ (hcalls.ended (Call.sound_success write) rfl)
      exact .of_quiet hstep hheld nofun nofun rfl
        (by simp [Config.stored, Config.calls, Process.call, WriterPc.call]) rfl rfl (.refl _)
  | _ => exact .inl rfl

theorem xalloc_ok (hbuilt : Built pool sentinel batch pending)
    (hthreads : Threads pool.heap sentinel batch pending v)
    (hcalls : CallsOk history v) (result : XallocResult) :
    StepOk ⟨pool, .running v, history⟩ batch pending (.xalloc result) := by
  obtain ⟨tail, flushMutex, writer, flusher, deliveries⟩ := v
  cases writer with
  | allocating write =>
      have htail : tail = some (pending.getLastD sentinel) := hthreads.writer
      subst htail
      cases result with
      | failed errno =>
          have hstep : Config.step ⟨pool, .running ⟨some (pending.getLastD sentinel), flushMutex,
                .allocating write, flusher, deliveries⟩, history⟩ (.xalloc (.failed errno)) =
              .ok ⟨pool, .running ⟨some (pending.getLastD sentinel), flushMutex, .idle, flusher,
                deliveries⟩, { history with
                  calls := history.calls ++ [⟨write, false, some (pwriteFailure errno)⟩] }⟩ := by
            simp only [Config.step, Config.threadStep, Config.pwriteStep,
              hbuilt.tryPwrite_failed]
            rfl
          have hheld : Held ⟨pool, .running ⟨some (pending.getLastD sentinel), flushMutex, .idle,
              flusher, deliveries⟩, { history with
                calls := history.calls ++ [⟨write, false, some (pwriteFailure errno)⟩] }⟩
              batch pending :=
            Held.running hbuilt ⟨rfl, hthreads.flusher, hthreads.mutex.writer,
              hthreads.mutex.flusher⟩ (hcalls.ended (Call.sound_failure write errno) rfl)
          exact .of_quiet hstep hheld nofun nofun rfl
            (by simp [Config.stored, Config.calls, Process.call, WriterPc.call]) rfl rfl
            (.refl _)
      | allocated addr =>
          by_cases hlive : addr ∈ pool.heap
          · left
            simp only [Config.step, Config.threadStep, Config.pwriteStep,
              hbuilt.tryPwrite_live hlive]
            rfl
          · obtain ⟨pool', hxalloc, hbuilt', hnew, hold⟩ := hbuilt.tryPwrite_allocated hlive write
            have hkept : ∀ other, other ∈ batch ++ pending →
                pool'.heap.writeAt other = pool.heap.writeAt other := by
              refine fun other hmem => hold other fun heq => hlive (heq ▸ ?_)
              rw [hbuilt.live, List.mem_cons, List.mem_append]
              rw [List.mem_append] at hmem
              tauto
            refine .inr ⟨⟨pool', .running ⟨some (pending.getLastD sentinel), flushMutex,
              .advancing write, flusher, deliveries⟩, history⟩, batch, pending ++ [addr], ?_, ?_,
              .stored addr write hkept hnew ?_ rfl rfl, .of_built hbuilt hbuilt'⟩
            · simp only [Config.step, Config.threadStep, Config.pwriteStep, hxalloc]
              rfl
            · refine Held.running hbuilt' ⟨⟨pending, addr, rfl, rfl⟩, ?_, hthreads.mutex.writer,
                hthreads.mutex.flusher⟩ (hcalls.began rfl)
              cases flusher with
              | idle => trivial
              | visiting cur =>
                  obtain ⟨rest, hbatch, hcur, haccepted⟩ := hthreads.flusher
                  refine ⟨rest, hbatch, hcur, fun d hd => ⟨(haccepted d hd).1, ?_⟩⟩
                  rw [hkept]
                  · exact (haccepted d hd).2
                  · rw [hbatch]
                    exact List.mem_append_left _
                      (List.mem_append_left _ (List.mem_map_of_mem hd))
            · simp [Config.stored, Config.calls, Process.call, WriterPc.call]
  | _ => exact .inl rfl

theorem lockEnqueue_ok (hbuilt : Built pool sentinel batch pending)
    (hthreads : Threads pool.heap sentinel batch pending v)
    (hcalls : CallsOk history v) :
    StepOk ⟨pool, .running v, history⟩ batch pending .lockEnqueue := by
  obtain ⟨tail, flushMutex, writer, flusher, deliveries⟩ := v
  cases writer with
  | idle =>
      by_cases hfree : flushMutex = none
      · subst hfree
        have hflusher : ¬ FlusherPc.locks flusher := by simp [hthreads.mutex.flusher]
        have hheld : Held ⟨pool, .running ⟨tail, some .writer, .testing, flusher, deliveries⟩,
            history⟩ batch pending :=
          Held.running hbuilt ⟨hthreads.writer, hthreads.flusher, by simp [WriterPc.locks],
            by simp [hflusher]⟩ hcalls
        exact .of_quiet rfl hheld nofun nofun rfl rfl rfl rfl (.refl _)
      · left
        simp [Config.step, Config.threadStep, Config.enqueueStep, hfree]
  | _ => exact .inl rfl

theorem Threads.leaveEnqueue {heap : Heap} (hthreads : Threads heap sentinel batch pending v)
    (hlocks : WriterPc.locks v.writer) (htail : v.tail = some (pending.getLastD sentinel)) :
    Threads heap sentinel batch pending v.leaveEnqueue := by
  have hwriter : v.flushMutex = some .writer := hthreads.mutex.writer.mp hlocks
  have hflusher : ¬ FlusherPc.locks v.flusher := by simp [hthreads.mutex.flusher, hwriter]
  exact ⟨htail, hthreads.flusher, by simp [Volatile.leaveEnqueue, WriterPc.locks],
    by simpa [Volatile.leaveEnqueue] using hflusher⟩

theorem testFlushing_ok (hbuilt : Built pool sentinel batch pending)
    (hthreads : Threads pool.heap sentinel batch pending v)
    (hcalls : CallsOk history v) :
    StepOk ⟨pool, .running v, history⟩ batch pending .testFlushing := by
  obtain ⟨tail, flushMutex, writer, flusher, deliveries⟩ := v
  cases writer with
  | testing =>
      by_cases hbatch : batch.head? = none
      · have hstep : Config.step ⟨pool, .running ⟨tail, flushMutex, .testing, flusher, deliveries⟩,
              history⟩ .testFlushing =
            .ok ⟨pool, .running ⟨tail, flushMutex, .transacting, flusher, deliveries⟩,
              history⟩ := by
          simp only [Config.step, Config.threadStep, Config.enqueueStep, hbuilt.persistent, bind,
            Except.bind, hbatch, if_true]
          rfl
        have hheld : Held ⟨pool, .running ⟨tail, flushMutex, .transacting, flusher, deliveries⟩,
            history⟩ batch pending :=
          Held.running hbuilt ⟨⟨List.head?_eq_none_iff.mp hbatch, hthreads.writer⟩,
            hthreads.flusher, hthreads.mutex.writer, hthreads.mutex.flusher⟩ hcalls
        exact .of_quiet hstep hheld nofun nofun rfl rfl rfl rfl (.refl _)
      · have hstep : Config.step ⟨pool, .running ⟨tail, flushMutex, .testing, flusher, deliveries⟩,
              history⟩ .testFlushing =
            .ok ⟨pool, .running ⟨tail, none, .idle, flusher, deliveries⟩, history⟩ := by
          simp only [Config.step, Config.threadStep, Config.enqueueStep, hbuilt.persistent, bind,
            Except.bind, hbatch, if_false]
          rfl
        have hheld := Held.running hbuilt (hthreads.leaveEnqueue trivial hthreads.writer)
          hcalls
        exact .of_quiet hstep hheld nofun nofun rfl rfl rfl rfl (.refl _)
  | _ => exact .inl rfl

theorem enqueueTransaction_ok (hbuilt : Built pool sentinel batch pending)
    (hthreads : Threads pool.heap sentinel batch pending v)
    (hcalls : CallsOk history v) (outcome : TxOutcome) :
    StepOk ⟨pool, .running v, history⟩ batch pending (.enqueueTransaction outcome) := by
  obtain ⟨tail, flushMutex, writer, flusher, deliveries⟩ := v
  cases writer with
  | transacting =>
      obtain ⟨rfl, htail⟩ : batch = [] ∧ tail = some (pending.getLastD sentinel) :=
        hthreads.writer
      cases outcome with
      | abort =>
          have hheld := Held.running hbuilt (hthreads.leaveEnqueue trivial htail) hcalls
          exact .of_quiet rfl hheld nofun nofun rfl rfl rfl rfl (.refl _)
      | commit =>
          obtain ⟨pool', hbody, hbuilt', hkept⟩ := hbuilt.enqueueBody_eq
          have hmutex : flushMutex = some .writer := hthreads.mutex.writer.mp trivial
          have hflusher : flusher = .idle := by
            cases flusher with
            | idle => rfl
            | visiting cur =>
                have := hthreads.mutex.flusher.mp trivial
                simp [hmutex] at this
          subst hflusher
          have hbatch : (pool'.heap.writes pool'.flushing).getD [] =
              pending.map pool.heap.writeOf := by
            rw [hbuilt'.writes_flushing, Option.getD_some]
            exact List.map_congr_left fun addr _ => by simp only [Heap.writeOf, hkept]
          refine .inr ⟨⟨pool', .running ⟨tail, flushMutex, .resetting, .idle, deliveries⟩,
            { history with batches := history.batches ++ [pending.map pool.heap.writeOf] }⟩,
            pending, [], ?_, ?_, .enqueued rfl (fun addr _ => hkept addr) rfl rfl rfl,
            .of_built hbuilt hbuilt'⟩
          · simp only [Config.step, Config.threadStep, Config.enqueueStep, hbody, bind,
              Except.bind, hbatch]
            rfl
          · exact Held.running hbuilt' ⟨rfl, trivial, hthreads.mutex.writer,
              hthreads.mutex.flusher⟩ hcalls
  | _ => cases outcome <;> exact .inl rfl

theorem resetTail_ok (hbuilt : Built pool sentinel batch pending)
    (hthreads : Threads pool.heap sentinel batch pending v)
    (hcalls : CallsOk history v) :
    StepOk ⟨pool, .running v, history⟩ batch pending .resetTail := by
  obtain ⟨tail, flushMutex, writer, flusher, deliveries⟩ := v
  cases writer with
  | resetting =>
      have hpending : pending = [] := hthreads.writer
      have hstep : Config.step ⟨pool, .running ⟨tail, flushMutex, .resetting, flusher, deliveries⟩,
            history⟩ .resetTail =
          .ok ⟨pool, .running ⟨some sentinel, none, .idle, flusher, deliveries⟩, history⟩ := by
        simp only [Config.step, Config.threadStep, Config.enqueueStep, hbuilt.persistent, bind,
          Except.bind]
        rfl
      have hmutex : flushMutex = some .writer := hthreads.mutex.writer.mp trivial
      have hflusher : ¬ FlusherPc.locks flusher := by simp [hthreads.mutex.flusher, hmutex]
      have hheld : Held ⟨pool, .running ⟨some sentinel, none, .idle, flusher, deliveries⟩,
          history⟩ batch pending :=
        Held.running hbuilt ⟨by simp [WriterOk, hpending], hthreads.flusher,
          by simp [WriterPc.locks], by simp [hflusher]⟩ hcalls
      exact .of_quiet hstep hheld nofun nofun rfl rfl rfl rfl (.refl _)
  | _ => exact .inl rfl

theorem lockFlush_ok (hbuilt : Built pool sentinel batch pending)
    (hthreads : Threads pool.heap sentinel batch pending v)
    (hcalls : CallsOk history v) :
    StepOk ⟨pool, .running v, history⟩ batch pending .lockFlush := by
  obtain ⟨tail, flushMutex, writer, flusher, deliveries⟩ := v
  cases flusher with
  | idle =>
      by_cases hfree : flushMutex = none
      · subst hfree
        have hwriter : ¬ WriterPc.locks writer := by simp [hthreads.mutex.writer]
        have hstep : Config.step ⟨pool, .running ⟨tail, none, writer, .idle, deliveries⟩,
              history⟩ .lockFlush =
            .ok ⟨pool, .running ⟨tail, some .flusher, writer, .visiting batch.head?, []⟩,
              history⟩ := by
          simp only [Config.step, Config.threadStep, Config.flushStep, if_true,
            hbuilt.persistent, bind, Except.bind]
          rfl
        have hheld : Held ⟨pool, .running ⟨tail, some .flusher, writer, .visiting batch.head?, []⟩,
            history⟩ batch pending :=
          Held.running hbuilt ⟨hthreads.writer, ⟨batch, rfl, rfl, by simp [Accepted]⟩,
            by simp [hwriter], by simp [FlusherPc.locks]⟩ hcalls
        exact .of_quiet hstep hheld nofun nofun rfl rfl rfl rfl (.refl _)
      · left
        simp [Config.step, Config.threadStep, Config.flushStep, hfree]
  | visiting cur => cases cur <;> exact .inl rfl

/-- Leaving `flushAll` frees the mutex. The writer was outside
`tryEnqueueFlush`, so its position does not depend on the batch. -/
theorem Threads.leaveFlush {heap heap' : Heap} {batch' : List Addr}
    (hthreads : Threads heap sentinel batch pending v) (hlocks : FlusherPc.locks v.flusher) :
    Threads heap' sentinel batch' pending v.leaveFlush := by
  have hflusher : v.flushMutex = some .flusher := hthreads.mutex.flusher.mp hlocks
  have hwriter : ¬ WriterPc.locks v.writer := by simp [hthreads.mutex.writer, hflusher]
  refine ⟨?_, trivial, by simpa [Volatile.leaveFlush] using hwriter,
    by simp [Volatile.leaveFlush, FlusherPc.locks]⟩
  have hok := hthreads.writer
  unfold Volatile.leaveFlush
  cases hpc : v.writer <;> rw [hpc] at hwriter hok
  case testing => exact absurd trivial hwriter
  case transacting => exact absurd trivial hwriter
  case resetting => exact absurd trivial hwriter
  all_goals exact hok

theorem StepOk.of_endFlush (call : FlushCall) (hbuilt : Built pool sentinel batch pending)
    (hthreads : Threads pool.heap sentinel batch pending v) (hcalls : CallsOk history v)
    (hlocks : FlusherPc.locks v.flusher)
    (hstep : Config.step ⟨pool, .running v, history⟩ action =
      .ok ⟨pool, .running v.leaveFlush,
        { history with flushes := history.flushes ++ [call] }⟩)
    (henqueue : action ≠ .enqueueTransaction .commit)
    (hfree : action ≠ .freeTransaction .commit)
    (hcall : CallOk pool.heap batch call) (hfreed : ∀ freed, call.ended ≠ .completed freed) :
    StepOk ⟨pool, .running v, history⟩ batch pending action :=
  .inr ⟨_, batch, pending, hstep, Held.running hbuilt (hthreads.leaveFlush hlocks) hcalls,
    .quiet action [call] henqueue hfree (fun _ _ => rfl) rfl rfl rfl
      (by simpa using ⟨hcall, hfreed⟩), .refl _⟩

theorem visit_ok (hbuilt : Built pool sentinel batch pending)
    (hthreads : Threads pool.heap sentinel batch pending v)
    (hcalls : CallsOk history v) (verdict : Verdict) :
    StepOk ⟨pool, .running v, history⟩ batch pending (.visit verdict) := by
  obtain ⟨tail, flushMutex, writer, flusher, deliveries⟩ := v
  cases flusher with
  | idle => exact .inl rfl
  | visiting cur =>
      obtain ⟨rest, hbatch, hcur, haccepted⟩ := hthreads.flusher
      cases rest with
      | nil =>
          subst hcur
          exact .inl rfl
      | cons a rest =>
          subst hcur
          have hchain := hbuilt.flushing
          rw [hbatch] at hchain
          obtain ⟨_, next, hlink, hrest⟩ := chain_cons_iff.mp hchain.suffix
          obtain ⟨node, hlookup, rfl⟩ := lookup_of_link hlink
          have hwrite : pool.heap.writeAt a = some node.write := by
            simp [Heap.writeAt, hlookup]
          set delivery : Delivery := ⟨a, node.write, verdict⟩ with hdelivery
          have haddrs : (deliveries ++ [delivery]).map Delivery.addr ++ rest = batch := by
            simp [hbatch, hdelivery]
          have hcontents : ∀ d ∈ deliveries ++ [delivery],
              pool.heap.writeAt d.addr = some d.write := by
            intro d hd
            rcases List.mem_append.mp hd with hold | hnew
            · exact (haccepted d hold).2
            · rw [List.mem_singleton.mp hnew]
              exact hwrite
          have hbefore : ∀ d ∈ deliveries, d.verdict = .accept := fun d hd => (haccepted d hd).1
          cases verdict with
          | accept =>
              have hstep : Config.step ⟨pool, .running ⟨tail, flushMutex, writer,
                    .visiting (some a), deliveries⟩, history⟩ (.visit .accept) =
                  .ok ⟨pool, .running ⟨tail, flushMutex, writer, .visiting node.next,
                    deliveries ++ [delivery]⟩, history⟩ := by
                simp only [Config.step, Config.threadStep, Config.flushStep,
                  deref_of_lookup hlookup]
                rfl
              have hflusher : FlusherOk pool.heap batch (deliveries ++ [delivery])
                  (.visiting node.next) := by
                refine ⟨rest, haddrs.symm, hrest.start_eq_head?, fun d hd => ⟨?_, hcontents d hd⟩⟩
                rcases List.mem_append.mp hd with hold | hnew
                · exact hbefore d hold
                · rw [List.mem_singleton.mp hnew]
              have hheld : Held ⟨pool, .running ⟨tail, flushMutex, writer, .visiting node.next,
                  deliveries ++ [delivery]⟩, history⟩ batch pending :=
                Held.running hbuilt ⟨hthreads.writer, hflusher, hthreads.mutex.writer,
                  hthreads.mutex.flusher⟩ hcalls
              exact .of_quiet hstep hheld (by simp) (by simp) rfl rfl rfl rfl (.refl _)
          | abort =>
              refine .of_endFlush ⟨deliveries ++ [delivery], .aborted⟩ hbuilt hthreads hcalls
                trivial ?_ (by simp) (by simp) ⟨⟨rest, haddrs⟩, hcontents, ?_⟩ (by simp)
              · simp only [Config.step, Config.threadStep, Config.flushStep, List.head?_cons,
                  deref_of_lookup hlookup]
                rfl
              · exact ⟨deliveries, delivery, rfl, rfl, hbefore⟩
          | throw =>
              refine .of_endFlush ⟨deliveries ++ [delivery], .threw⟩ hbuilt hthreads hcalls
                trivial ?_ (by simp) (by simp) ⟨⟨rest, haddrs⟩, hcontents, ?_⟩ (by simp)
              · simp only [Config.step, Config.threadStep, Config.flushStep, List.head?_cons,
                  deref_of_lookup hlookup]
                rfl
              · exact ⟨deliveries, delivery, rfl, rfl, hbefore⟩

theorem freeTransaction_ok (hbuilt : Built pool sentinel batch pending)
    (hthreads : Threads pool.heap sentinel batch pending v)
    (hcalls : CallsOk history v) (outcome : TxOutcome) :
    StepOk ⟨pool, .running v, history⟩ batch pending (.freeTransaction outcome) := by
  obtain ⟨tail, flushMutex, writer, flusher, deliveries⟩ := v
  cases flusher with
  | idle => cases outcome <;> exact .inl rfl
  | visiting cur =>
      obtain ⟨rest, hbatch, hcur, haccepted⟩ := hthreads.flusher
      cases rest with
      | cons a rest =>
          subst hcur
          cases outcome <;> exact .inl rfl
      | nil =>
          subst hcur
          rw [List.append_nil] at hbatch
          have hcontents : ∀ d ∈ deliveries, pool.heap.writeAt d.addr = some d.write :=
            fun d hd => (haccepted d hd).2
          have hall : ∀ d ∈ deliveries, d.verdict = .accept := fun d hd => (haccepted d hd).1
          have horder : deliveries.map Delivery.addr <+: batch := hbatch ▸ List.prefix_rfl
          cases outcome with
          | abort =>
              exact .of_endFlush ⟨deliveries, .rolledBack⟩ hbuilt hthreads hcalls trivial
                rfl nofun nofun ⟨horder, hcontents, hall⟩ nofun
          | commit =>
              obtain ⟨pool', hbody, hbuilt', hlookup⟩ := hbuilt.freeBody_eq
              have hfreed : (batch.map fun a => (a, pool.heap.writeOf a)) =
                  deliveries.map fun d => (d.addr, d.write) := by
                rw [hbatch, List.map_map]
                refine List.map_congr_left fun d hd => ?_
                simp [Heap.writeOf, hcontents d hd]
              refine .inr ⟨⟨pool', .running (Volatile.leaveFlush ⟨tail, flushMutex, writer,
                  .visiting none, deliveries⟩), { history with flushes := history.flushes ++
                    [⟨deliveries, .completed (batch.map fun a => (a, pool.heap.writeOf a))⟩] }⟩,
                [], pending, ?_, ?_, .completed _ hlookup rfl rfl rfl
                  ⟨horder, hcontents, hall, hfreed⟩ hbatch.symm rfl, .of_built hbuilt hbuilt'⟩
              · simp only [Config.step, Config.threadStep, Config.flushStep, List.head?_nil,
                  hbody]
                rfl
              · exact Held.running hbuilt' (hthreads.leaveFlush trivial) hcalls

theorem crash_ok (hheld : Held c batch pending) : StepOk c batch pending .crash := by
  have hstored : c.crash.stored = c.stored := by
    simp [Config.stored, Config.calls, Config.crash, Process.call]
  have hcalls : ∀ call ∈ c.crash.calls, Call.Sound call := by
    simpa [Config.calls, Config.crash, Process.call] using hheld.calls
  refine .inr ⟨c.crash, batch, pending, by simp [Config.step], ⟨hheld.pool, trivial, hcalls⟩,
    .quiet .crash c.process.cutFlush nofun nofun (fun _ _ => rfl) hstored rfl rfl ?_, .refl _⟩
  obtain ⟨pool, process, history⟩ := c
  cases process with
  | running v =>
      obtain ⟨sentinel, hbuilt, hthreads⟩ := hheld.process
      have hflusher := hthreads.flusher
      intro call hcall
      cases hpc : v.flusher with
      | idle => simp [Process.cutFlush, FlusherPc.cut, hpc] at hcall
      | visiting cur =>
          rw [hpc] at hflusher
          obtain ⟨rest, hbatch, _, haccepted⟩ := hflusher
          simp only [Process.cutFlush, FlusherPc.cut, hpc, List.mem_singleton] at hcall
          subst hcall
          exact ⟨⟨⟨rest, hbatch.symm⟩, fun d hd => (haccepted d hd).2,
            fun d hd => (haccepted d hd).1⟩, nofun⟩
  | _ => simp [Process.cutFlush]

theorem openPool_ok (hheld : Held ⟨pool, .down, history⟩ batch pending) (outcome : TxOutcome) :
    StepOk ⟨pool, .down, history⟩ batch pending (.openPool outcome) := by
  obtain ⟨bb, heap⟩ := pool
  cases bb with
  | some bb =>
      have hheld' : Held ⟨⟨some bb, heap⟩, .opened, history⟩ batch pending :=
        ⟨hheld.pool, nofun, hheld.calls⟩
      exact .of_quiet rfl hheld' nofun nofun rfl rfl rfl rfl (.refl _)
  | none =>
      obtain ⟨sentinel, hbuilt⟩ | ⟨hunbuilt, rfl, rfl⟩ := hheld.pool
      · cases hbuilt.bb
      · cases outcome with
        | abort => exact .of_quiet rfl hheld nofun nofun rfl rfl rfl rfl (.refl _)
        | commit =>
            have hheld' : Held ⟨makeRoot ⟨none, heap⟩, .opened, history⟩ [] [] :=
              ⟨.inr ⟨⟨.inr rfl, hunbuilt.heap⟩, rfl, rfl⟩, nofun, hheld.calls⟩
            exact .of_quiet rfl hheld' nofun nofun rfl rfl rfl rfl (.of_unbuilt hunbuilt)

theorem ensureSentinel_ok (hheld : Held ⟨pool, .opened, history⟩ batch pending)
    (result : XallocResult) :
    StepOk ⟨pool, .opened, history⟩ batch pending (.ensureSentinel result) := by
  obtain ⟨sentinel, hbuilt⟩ | ⟨hunbuilt, rfl, rfl⟩ := hheld.pool
  · have hstep : Config.step ⟨pool, .opened, history⟩ (.ensureSentinel result) =
        .ok ⟨pool, .initialized, history⟩ := by
      simp only [Config.step, Config.startStep, hbuilt.ensureSentinel_eq]
      rfl
    have hheld' : Held ⟨pool, .initialized, history⟩ batch pending :=
      ⟨.inl ⟨sentinel, hbuilt⟩, ⟨sentinel, hbuilt⟩, hheld.calls⟩
    exact .of_quiet hstep hheld' nofun nofun rfl rfl rfl rfl (.refl _)
  · have hbb : pool.bb = some ⟨none, none⟩ := hunbuilt.bb.resolve_left hheld.process
    cases result with
    | failed errno =>
        have hstep : Config.step ⟨pool, .opened, history⟩ (.ensureSentinel (.failed errno)) =
            .ok ⟨pool, .down, history⟩ := by
          simp only [Config.step, Config.startStep, ensureSentinel_failed hbb]
          rfl
        have hheld' : Held ⟨pool, .down, history⟩ [] [] :=
          ⟨hheld.pool, trivial, hheld.calls⟩
        exact .of_quiet hstep hheld' nofun nofun rfl rfl rfl rfl (.refl _)
    | allocated addr =>
        obtain ⟨pool', hensure, hbuilt⟩ := ensureSentinel_allocated hunbuilt.heap hbb addr
        refine .inr ⟨⟨pool', .initialized, history⟩, [], [], ?_,
          ⟨.inl ⟨addr, hbuilt⟩, ⟨addr, hbuilt⟩, hheld.calls⟩,
          .quiet _ [] nofun nofun (by simp) rfl rfl (by simp) (by simp), .of_unbuilt hunbuilt⟩
        simp only [Config.step, Config.startStep, hensure]
        rfl

theorem retrieveTail_ok (hheld : Held ⟨pool, .initialized, history⟩ batch pending) :
    StepOk ⟨pool, .initialized, history⟩ batch pending .retrieveTail := by
  obtain ⟨sentinel, hbuilt⟩ := hheld.process
  have hstep : Config.step ⟨pool, .initialized, history⟩ .retrieveTail =
      .ok ⟨pool, .running (startThreads (some (pending.getLastD sentinel))), history⟩ := by
    simp only [Config.step, Config.startStep, hbuilt.retrieveTail_eq]
    rfl
  have hheld' : Held ⟨pool, .running (startThreads (some (pending.getLastD sentinel))), history⟩
      batch pending :=
    Held.running hbuilt ⟨rfl, trivial, by simp [startThreads, WriterPc.locks],
      by simp [startThreads, FlusherPc.locks]⟩ hheld.calls
  exact .of_quiet hstep hheld' nofun nofun rfl rfl rfl rfl (.refl _)

theorem start_ok (hheld : Held c batch pending) (hcrash : action ≠ .crash)
    (hdown : ∀ v, c.process ≠ .running v) : StepOk c batch pending action := by
  obtain ⟨pool, process, history⟩ := c
  cases process with
  | running v => exact absurd rfl (hdown v)
  | down =>
      cases action with
      | openPool outcome => exact openPool_ok hheld outcome
      | crash => exact absurd rfl hcrash
      | _ => exact .inl rfl
  | opened =>
      cases action with
      | ensureSentinel result => exact ensureSentinel_ok hheld result
      | crash => exact absurd rfl hcrash
      | _ => exact .inl rfl
  | initialized =>
      cases action with
      | retrieveTail => exact retrieveTail_ok hheld
      | crash => exact absurd rfl hcrash
      | _ => exact .inl rfl

theorem Held.step (hheld : Held c batch pending) (action : Action) :
    StepOk c batch pending action := by
  by_cases hcrash : action = .crash
  · subst hcrash
    exact crash_ok hheld
  · obtain ⟨pool, process, history⟩ := c
    cases process with
    | running v =>
        obtain ⟨sentinel, hbuilt, hthreads⟩ := hheld.process
        cases action with
        | crash => exact absurd rfl hcrash
        | callPwrite write => exact callPwrite_ok hbuilt hthreads hheld.calls write
        | xalloc result => exact xalloc_ok hbuilt hthreads hheld.calls result
        | advanceTail => exact advanceTail_ok hbuilt hthreads hheld.calls
        | lockEnqueue => exact lockEnqueue_ok hbuilt hthreads hheld.calls
        | testFlushing => exact testFlushing_ok hbuilt hthreads hheld.calls
        | enqueueTransaction outcome =>
            exact enqueueTransaction_ok hbuilt hthreads hheld.calls outcome
        | resetTail => exact resetTail_ok hbuilt hthreads hheld.calls
        | lockFlush => exact lockFlush_ok hbuilt hthreads hheld.calls
        | visit verdict => exact visit_ok hbuilt hthreads hheld.calls verdict
        | freeTransaction outcome => exact freeTransaction_ok hbuilt hthreads hheld.calls outcome
        | openPool outcome => exact .inl rfl
        | ensureSentinel result => exact .inl rfl
        | retrieveTail => exact .inl rfl
    | _ => exact start_ok hheld hcrash (fun v => nofun)

end Steps

section Owned

variable {pool : Pool} {batch pending : List Addr}

theorem Owned.flushing_eq (howned : Owned pool batch pending) :
    pool.flushing = batch.head? := by
  rcases howned with ⟨sentinel, hbuilt⟩ | ⟨hunbuilt, rfl, rfl⟩
  · exact hbuilt.pool_flushing
  · rcases hunbuilt.bb with hbb | hbb <;> simp [Pool.flushing, hbb]

theorem Owned.nodes_flushing (howned : Owned pool batch pending) :
    pool.heap.nodes pool.flushing = some batch := by
  rw [howned.flushing_eq, nodes_eq_some_iff]
  rcases howned with ⟨sentinel, hbuilt⟩ | ⟨_, rfl, rfl⟩
  · exact hbuilt.flushing
  · exact .null

theorem Owned.nodes_pending (howned : Owned pool batch pending) :
    pool.heap.nodes pool.pending = some pending := by
  rw [nodes_eq_some_iff]
  rcases howned with ⟨sentinel, hbuilt⟩ | ⟨hunbuilt, rfl, rfl⟩
  · rw [hbuilt.pool_pending]
    exact hbuilt.pending_chain
  · have hnull : pool.pending = none := by
      rcases hunbuilt.bb with hbb | hbb <;> simp [Pool.pending, Pool.active, hbb]
    rw [hnull]
    exact .null

theorem Owned.batch_nodup (howned : Owned pool batch pending) : batch.Nodup := by
  rcases howned with ⟨sentinel, hbuilt⟩ | ⟨_, rfl, rfl⟩
  · exact (List.nodup_cons.mp hbuilt.nodup).2.of_append_right
  · exact .nil

theorem Owned.writes_flushing (howned : Owned pool batch pending) :
    pool.heap.writes pool.flushing = some (batch.map pool.heap.writeOf) := by
  rcases howned with ⟨sentinel, hbuilt⟩ | ⟨hunbuilt, rfl, rfl⟩
  · exact hbuilt.writes_flushing
  · have hnull : pool.flushing = none := by
      rcases hunbuilt.bb with hbb | hbb <;> simp [Pool.flushing, hbb]
    rw [hnull]
    exact writes_of_chain .null

theorem Owned.writes_pending (howned : Owned pool batch pending) :
    pool.heap.writes pool.pending = some (pending.map pool.heap.writeOf) := by
  rcases howned with ⟨sentinel, hbuilt⟩ | ⟨hunbuilt, rfl, rfl⟩
  · exact hbuilt.writes_pending
  · have hnull : pool.pending = none := by
      rcases hunbuilt.bb with hbb | hbb <;> simp [Pool.pending, Pool.active, hbb]
    rw [hnull]
    exact writes_of_chain .null

theorem Owned.disjoint (howned : Owned pool batch pending) {addr : Addr}
    (hpending : addr ∈ pending) : addr ∉ batch := by
  rcases howned with ⟨sentinel, hbuilt⟩ | ⟨_, rfl, rfl⟩
  · intro hbatch
    exact List.disjoint_of_nodup_append (List.nodup_cons.mp hbuilt.nodup).2 hpending hbatch
  · simp

end Owned

theorem held_freshPool : Held freshPool [] [] where
  pool := .inr ⟨⟨.inl rfl, rfl⟩, rfl, rfl⟩
  process := trivial
  calls := nofun

theorem Held.effect {c c' : Config} {batch pending : List Addr} {action : Action}
    (hheld : Held c batch pending) (hstep : machine.step c action c') :
    ∃ batch' pending', Held c' batch' pending' ∧
      Effect c c' batch pending action batch' pending' ∧ SentinelKept c.pool c'.pool := by
  have hstep : c.step action = .ok c' := hstep
  rcases hheld.step action with hdisabled | ⟨d, batch', pending', hd, hheld', heffect⟩
  · rw [hdisabled] at hstep
    cases hstep
  · obtain rfl : d = c' := Except.ok.inj (hd.symm.trans hstep)
    exact ⟨batch', pending', hheld', heffect⟩

theorem held_of_reachable {c : Config} (hc : machine.Reachable c) :
    ∃ batch pending, Held c batch pending := by
  apply hc.invariant (motive := fun c => ∃ batch pending, Held c batch pending)
  · rintro c rfl
    exact ⟨[], [], held_freshPool⟩
  · rintro c action c' - ⟨batch, pending, hheld⟩ hstep
    obtain ⟨batch', pending', hheld', _⟩ := hheld.effect hstep
    exact ⟨batch', pending', hheld'⟩

end SpackPlayground.BurstBuffer.Invariant
