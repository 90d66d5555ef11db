import SpackPlayground.BurstBuffer.Operations
import SpackPlayground.Library.Transition

/-! The running burst buffer: `main` before its threads start, one writer
thread, one flusher thread, and crashes. Each step of a thread is one place
where the other thread or a crash can come in between. -/
namespace SpackPlayground.BurstBuffer.Machine

open Memory Operations Library.Transition

inductive Thread where
  | writer
  | flusher
  deriving DecidableEq

/-- What the callback of `flushAll` does with a node. -/
inductive Verdict where
  /-- It returns `false`. -/
  | accept
  /-- It returns `true`. -/
  | abort
  | throw
  deriving DecidableEq

/-- Where the writer stands. `testing` to `resetting` hold `flush_mutex_`. -/
inductive WriterPc where
  | idle
  /-- In `tryPwrite`, before `pmemobj_xalloc`. -/
  | allocating (write : Write)
  /-- In `tryPwrite`, before `tail_` is advanced. -/
  | advancing (write : Write)
  /-- In `tryEnqueueFlush`, before the test of `flushing`. -/
  | testing
  /-- In `tryEnqueueFlush`, before the transaction. -/
  | transacting
  /-- In `tryEnqueueFlush`, before `tail_` is reset. -/
  | resetting
  deriving DecidableEq

/-- Where the flusher stands. `visiting` holds `flush_mutex_`. -/
inductive FlusherPc where
  | idle
  /-- In `flushAll`, at the head of the loop, with the local variable `cur`. -/
  | visiting (cur : PersistentPtr)
  deriving DecidableEq

structure Delivery where
  addr : Addr
  write : Write
  verdict : Verdict
  deriving DecidableEq

inductive FlushEnd where
  | completed (freed : List (Addr × Write))
  | aborted
  | threw
  | rolledBack
  | interrupted
  deriving DecidableEq

structure FlushCall where
  deliveries : List Delivery
  ended : FlushEnd

/-- One `pwrite` call. A call cut by a crash has not returned. -/
structure Call where
  write : Write
  tookEffect : Bool
  returned : Option Int
  deriving DecidableEq

structure Volatile where
  tail : PersistentPtr
  flushMutex : Option Thread
  writer : WriterPc
  flusher : FlusherPc
  deliveries : List Delivery

inductive Process where
  | down
  /-- `Root::bb` is there; `runtimeInitialize` is about to start. -/
  | opened
  /-- The sentinel is there; `runtimeInitialize` is about to look for the tail. -/
  | initialized
  | running (threads : Volatile)

/-- What has happened so far, each list oldest first. No step reads it. -/
structure History where
  calls : List Call
  /-- The writes moved by each committed `tryEnqueueFlush`. -/
  batches : List (List Write)
  flushes : List FlushCall

structure Config where
  pool : Pool
  process : Process
  history : History

inductive Action where
  | crash
  | openPool (outcome : TxOutcome)
  | ensureSentinel (result : XallocResult)
  | retrieveTail
  | callPwrite (write : Write)
  | xalloc (result : XallocResult)
  | advanceTail
  | lockEnqueue
  | testFlushing
  | enqueueTransaction (outcome : TxOutcome)
  | resetTail
  | lockFlush
  | visit (verdict : Verdict)
  | freeTransaction (outcome : TxOutcome)

def WriterPc.call : WriterPc → List Call
  | .allocating write => [⟨write, false, none⟩]
  | .advancing write => [⟨write, true, none⟩]
  | _ => []

def Process.call : Process → List Call
  | .running threads => threads.writer.call
  | _ => []

def FlusherPc.cut (deliveries : List Delivery) : FlusherPc → List FlushCall
  | .idle => []
  | .visiting _ => [⟨deliveries, .interrupted⟩]

def Process.cutFlush : Process → List FlushCall
  | .running threads => threads.flusher.cut threads.deliveries
  | _ => []

/-- A crash keeps the pool and loses everything else. -/
def Config.crash (c : Config) : Config where
  pool := c.pool
  process := .down
  history := { c.history with
    calls := c.history.calls ++ c.process.call
    flushes := c.history.flushes ++ c.process.cutFlush }

def startThreads (tail : PersistentPtr) : Volatile where
  tail := tail
  flushMutex := none
  writer := .idle
  flusher := .idle
  deliveries := []

def Config.startStep (c : Config) : Process → Action → Except Refusal Config
  | .down, .openPool outcome =>
      match c.pool.bb, outcome with
      | some _, _ => .ok { c with process := .opened }
      | none, .commit => .ok { c with pool := makeRoot c.pool, process := .opened }
      | none, .abort => .ok c
  | .opened, .ensureSentinel result => do
      match ← ensureSentinel c.pool result with
      | .ok pool => pure { c with pool := pool, process := .initialized }
      | .error _ => pure { c with process := .down }
  | .initialized, .retrieveTail => do
      let tail ← retrieveTail c.pool
      pure { c with process := .running (startThreads tail) }
  | _, _ => .error .disabled

def Config.resume (c : Config) (v : Volatile) : Config :=
  { c with process := .running v }

def Config.endCall (c : Config) (call : Call) : Config :=
  { c with history := { c.history with calls := c.history.calls ++ [call] } }

def Config.endFlush (c : Config) (call : FlushCall) : Config :=
  { c with history := { c.history with flushes := c.history.flushes ++ [call] } }

def Config.enqueued (c : Config) (batch : List Write) : Config :=
  { c with history := { c.history with batches := c.history.batches ++ [batch] } }

def Config.pwriteStep (c : Config) (v : Volatile) : WriterPc → Action → Except Refusal Config
  | .idle, .callPwrite write => .ok (c.resume { v with writer := .allocating write })
  | .allocating write, .xalloc result => do
      match ← tryPwrite c.pool v.tail result write with
      | .error errno =>
          pure ((c.endCall ⟨write, false, some (pwriteFailure errno)⟩).resume
            { v with writer := .idle })
      | .ok pool => pure ({ c with pool := pool }.resume { v with writer := .advancing write })
  | .advancing write, .advanceTail => do
      let tail ← advanceTail c.pool.heap v.tail
      pure ((c.endCall ⟨write, true, some pwriteSuccess⟩).resume
        { v with tail := tail, writer := .idle })
  | _, _ => .error .disabled

def Volatile.leaveEnqueue (v : Volatile) : Volatile :=
  { v with flushMutex := none, writer := .idle }

def Config.enqueueStep (c : Config) (v : Volatile) : WriterPc → Action → Except Refusal Config
  | .idle, .lockEnqueue =>
      if v.flushMutex = none then
        .ok (c.resume { v with flushMutex := some .writer, writer := .testing })
      else .error .disabled
  | .testing, .testFlushing => do
      let bb ← c.pool.persistent
      if bb.flushing = none then
        pure (c.resume { v with writer := .transacting })
      else
        -- `return false`
        pure (c.resume v.leaveEnqueue)
  | .transacting, .enqueueTransaction .abort => .ok (c.resume v.leaveEnqueue)
  | .transacting, .enqueueTransaction .commit => do
      let pool ← enqueueBody c.pool
      let batch := (pool.heap.writes pool.flushing).getD []
      pure (({ c with pool := pool }.enqueued batch).resume { v with writer := .resetting })
  | .resetting, .resetTail => do
      let bb ← c.pool.persistent
      pure (c.resume { v.leaveEnqueue with tail := bb.active })
  | _, _ => .error .disabled

def Volatile.leaveFlush (v : Volatile) : Volatile :=
  { v with flushMutex := none, flusher := .idle, deliveries := [] }

def Config.flushStep (c : Config) (v : Volatile) : FlusherPc → Action → Except Refusal Config
  | .idle, .lockFlush =>
      if v.flushMutex = none then do
        let bb ← c.pool.persistent
        pure (c.resume { v with
          flushMutex := some .flusher, flusher := .visiting bb.flushing, deliveries := [] })
      else .error .disabled
  | .visiting (some cur), .visit verdict => do
      let (addr, node) ← c.pool.heap.deref (some cur)
      let deliveries := v.deliveries ++ [⟨addr, node.write, verdict⟩]
      match verdict with
      | .accept =>
          pure (c.resume { v with flusher := .visiting node.next, deliveries := deliveries })
      | .abort => pure ((c.endFlush ⟨deliveries, .aborted⟩).resume v.leaveFlush)
      | .throw => pure ((c.endFlush ⟨deliveries, .threw⟩).resume v.leaveFlush)
  | .visiting none, .freeTransaction .abort =>
      .ok ((c.endFlush ⟨v.deliveries, .rolledBack⟩).resume v.leaveFlush)
  | .visiting none, .freeTransaction .commit => do
      let (pool, freed) ← freeBody c.pool
      pure (({ c with pool := pool }.endFlush ⟨v.deliveries, .completed freed⟩).resume
        v.leaveFlush)
  | _, _ => .error .disabled

def Config.threadStep (c : Config) (v : Volatile) (action : Action) : Except Refusal Config :=
  match action with
  | .callPwrite _ | .xalloc _ | .advanceTail => c.pwriteStep v v.writer action
  | .lockEnqueue | .testFlushing | .enqueueTransaction _ | .resetTail =>
      c.enqueueStep v v.writer action
  | .lockFlush | .visit _ | .freeTransaction _ => c.flushStep v v.flusher action
  | _ => .error .disabled

def Config.step (c : Config) (action : Action) : Except Refusal Config :=
  match action, c.process with
  | .crash, _ => .ok c.crash
  | _, .running v => c.threadStep v action
  | _, process => c.startStep process action

/-- A freshly created pool: `Root::bb` is null and nothing is allocated. -/
def freshPool : Config where
  pool := { bb := none, heap := ∅ }
  process := .down
  history := { calls := [], batches := [], flushes := [] }

def machine : System Config Action where
  init c := c = freshPool
  step c action c' := c.step action = .ok c'

def execute (actions : List Action) : Option Config :=
  System.execute (fun c action => (c.step action).toOption) freshPool actions

theorem reachable_of_execute {c : Config} (actions : List Action)
    (hexecute : execute actions = some c) : machine.Reachable c := by
  refine ⟨freshPool, actions, rfl, System.run_of_execute ?_ hexecute⟩
  intro c action c' hstep
  change c.step action = .ok c'
  cases hresult : c.step action with
  | error refusal => simp [hresult, Except.toOption] at hstep
  | ok next =>
      rw [hresult] at hstep
      exact congrArg Except.ok (Option.some.inj hstep)

def FlushCall.freedWrites (call : FlushCall) : List Write :=
  match call.ended with
  | .completed freed => freed.map Prod.snd
  | _ => []

/-- The writes of the nodes freed so far, in freeing order. -/
def Config.freed (c : Config) : List Write :=
  c.history.flushes.flatMap FlushCall.freedWrites

def Config.calls (c : Config) : List Call :=
  c.history.calls ++ c.process.call

/-- The writes of the calls whose allocation took effect, in call order. -/
def Config.stored (c : Config) : List Write :=
  (c.calls.filter Call.tookEffect).map Call.write

def startActions (sentinel : Addr) : List Action :=
  [.openPool .commit, .ensureSentinel (.allocated sentinel), .retrieveTail]

def pwriteActions (write : Write) (addr : Addr) : List Action :=
  [.callPwrite write, .xalloc (.allocated addr), .advanceTail]

def enqueueActions : List Action :=
  [.lockEnqueue, .testFlushing, .enqueueTransaction .commit, .resetTail]

/-- Two writes are enqueued, and a crash cuts the first `flushAll` while a third
write is on its way. The next `flushAll` completes. -/
def crashedFlush : List Action :=
  startActions 1 ++ pwriteActions ⟨0, [104]⟩ 2 ++ pwriteActions ⟨5, [98, 98]⟩ 3 ++
    enqueueActions ++
    [.lockFlush, .visit .accept, .callPwrite ⟨9, []⟩, .xalloc (.allocated 4), .crash] ++
    startActions 5 ++ [.lockFlush, .visit .accept, .visit .accept, .freeTransaction .commit]

end SpackPlayground.BurstBuffer.Machine
