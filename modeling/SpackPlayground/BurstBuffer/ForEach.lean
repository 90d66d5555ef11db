import SpackPlayground.BurstBuffer.Refinement

/-! `Writer::forEach`: the writer thread goes over the list of writes that are not
enqueued, while the flusher thread goes on. -/
namespace SpackPlayground.BurstBuffer.ForEach

open Memory Machine Shape Invariant Refinement
open Library.Transition Library.LinkedChain

structure Visit where
  addr : Addr
  write : Write
  deriving DecidableEq

/-- A running `forEach`: its variable `cur`, what it has done, and the buffer at its start,
which no step reads. -/
structure Walk where
  cur : PersistentPtr
  visits : List Visit
  entered : Config

inductive WalkEnd where
  | exhausted
  /-- The callback has returned `true`. -/
  | stopped
  | interrupted
  deriving DecidableEq

structure WalkCall where
  entered : Config
  visits : List Visit
  ended : WalkEnd

structure State where
  config : Config
  walk : Option Walk
  calls : List WalkCall

inductive Action where
  /-- A step of `main`, of the flusher, or of the writer outside of `forEach`; or a crash. -/
  | other (action : Machine.Action)
  | enter
  /-- The callback returns `stop`. -/
  | visit (stop : Bool)
  | leave

def begins : Machine.Action → Bool
  | .callPwrite _ | .lockEnqueue => true
  | _ => false

def State.leave (s : State) (walk : Walk) (ended : WalkEnd) : State :=
  { s with walk := none, calls := s.calls ++ [⟨walk.entered, walk.visits, ended⟩] }

def State.other (s : State) (action : Machine.Action) : Except Refusal State :=
  match s.walk, action with
  | none, _ => do
      let config ← s.config.step action
      pure { s with config := config }
  | some walk, .crash => do
      let config ← s.config.step .crash
      pure ({ s with config := config }.leave walk .interrupted)
  | some _, action =>
      if begins action then .error .disabled
      else do
        let config ← s.config.step action
        pure { s with config := config }

def State.enter (s : State) : Except Refusal State :=
  match s.config.process, s.walk with
  | .running v, none =>
      if v.writer = .idle then do
        let bb ← s.config.pool.persistent
        pure { s with walk := some ⟨bb.active, [], s.config⟩ }
      else .error .disabled
  | _, _ => .error .disabled

/-- The body of the loop; `cur->next` is not null. -/
def State.visit (s : State) (stop : Bool) : Except Refusal State :=
  match s.walk with
  | none => .error .disabled
  | some walk => do
      let (_, node) ← s.config.pool.heap.deref walk.cur
      if node.next = none then .error .disabled
      else do
        let (addr, next) ← s.config.pool.heap.deref node.next
        let walk := { walk with cur := some addr, visits := walk.visits ++ [⟨addr, next.write⟩] }
        if stop then pure (s.leave walk .stopped) else pure { s with walk := some walk }

def State.exhaust (s : State) : Except Refusal State :=
  match s.walk with
  | none => .error .disabled
  | some walk => do
      let (_, node) ← s.config.pool.heap.deref walk.cur
      if node.next = none then pure (s.leave walk .exhausted) else .error .disabled

def State.step (s : State) : Action → Except Refusal State
  | .other action => s.other action
  | .enter => s.enter
  | .visit stop => s.visit stop
  | .leave => s.exhaust

def machine : System State Action where
  init s := s = ⟨freshPool, none, []⟩
  step s action s' := s.step action = .ok s'

section Flusher

variable {c c' : Config} {v : Volatile} {action : Machine.Action}

theorem ok_of_bind {α β : Type} {x : Except Refusal α} {f : α → Except Refusal β} {b : β}
    (hbind : x >>= f = .ok b) : ∃ a, x = .ok a ∧ f a = .ok b := by
  cases x with
  | error refusal => cases hbind
  | ok a => exact ⟨a, rfl, hbind⟩

private theorem flushStep_writer {pc : FlusherPc} (hstep : c.flushStep v pc action = .ok c') :
    ∃ v', c'.process = .running v' ∧ v'.writer = v.writer := by
  unfold Config.flushStep at hstep
  split at hstep
  · split at hstep
    · obtain ⟨bb, _, hresume⟩ := ok_of_bind hstep
      cases hresume
      exact ⟨_, rfl, rfl⟩
    · cases hstep
  · obtain ⟨⟨addr, node⟩, _, hverdict⟩ := ok_of_bind hstep
    dsimp only at hverdict
    split at hverdict <;> cases hverdict <;> exact ⟨_, rfl, rfl⟩
  · cases hstep
    exact ⟨_, rfl, rfl⟩
  · obtain ⟨⟨pool, freed⟩, _, hfreed⟩ := ok_of_bind hstep
    cases hfreed
    exact ⟨_, rfl, rfl⟩
  · cases hstep

private theorem idle_of_step (hrunning : c.process = .running v) (hidle : v.writer = .idle)
    (hbegins : begins action = false) (hcrash : action ≠ .crash)
    (hstep : c.step action = .ok c') :
    (∃ v', c'.process = .running v' ∧ v'.writer = .idle) ∧ (∀ result, action ≠ .xalloc result) ∧
      ∀ outcome, action ≠ .enqueueTransaction outcome := by
  obtain ⟨pool, process, history⟩ := c
  cases hrunning
  obtain ⟨tail, flushMutex, writer, flusher, deliveries⟩ := v
  cases hidle
  cases action with
  | crash => exact absurd rfl hcrash
  | callPwrite | lockEnqueue => cases hbegins
  | lockFlush | visit | freeTransaction => exact ⟨flushStep_writer hstep, nofun, nofun⟩
  | _ => cases hstep

end Flusher

section Walks

variable {c c' : Config} {walk : Walk} {sentinel : Addr} {batch rest : List Addr}
  {action : Machine.Action}

def Walk.addrs (walk : Walk) : List Addr := walk.visits.map Visit.addr

/-- The walk has passed the front of the list, and `rest` is left. -/
structure Standing (c : Config) (walk : Walk) (sentinel : Addr) (batch rest : List Addr) :
    Prop where
  idle : ∃ v, c.process = .running v ∧ v.writer = .idle
  built : Built c.pool sentinel batch (walk.addrs ++ rest)
  cur : walk.cur = some (walk.addrs.getLastD sentinel)
  contents : ∀ visit ∈ walk.visits, c.pool.heap.writeAt visit.addr = some visit.write
  entered : walk.entered.pool.heap.writes walk.entered.pool.pending =
    some ((walk.addrs ++ rest).map c.pool.heap.writeOf)

theorem Built.eq_of_built {pool : Pool} {other : Addr} {batch' pending pending' : List Addr}
    (hbuilt : Built pool sentinel batch pending) (hbuilt' : Built pool other batch' pending') :
    other = sentinel ∧ batch' = batch ∧ pending' = pending := by
  have hactive := hbuilt.pool_active.symm.trans hbuilt'.pool_active
  cases hactive
  have hflushing := hbuilt.pool_flushing.symm.trans hbuilt'.pool_flushing
  have hchain := hbuilt'.flushing
  rw [← hflushing] at hchain
  have hpending := (hbuilt'.active).unique hbuilt.active
  exact ⟨rfl, hchain.unique hbuilt.flushing, (List.cons.inj hpending).2⟩

theorem Standing.held (hstanding : Standing c walk sentinel batch rest)
    (hc : Machine.machine.Reachable c) : Held c batch (walk.addrs ++ rest) := by
  obtain ⟨v, hrunning, _⟩ := hstanding.idle
  obtain ⟨batch', pending', hheld⟩ := held_of_reachable hc
  have hprocess := hheld.process
  rw [hrunning] at hprocess
  obtain ⟨other, hbuilt, _⟩ := hprocess
  obtain ⟨_, rfl, rfl⟩ := Built.eq_of_built hstanding.built hbuilt
  exact hheld

theorem Standing.step (hstanding : Standing c walk sentinel batch rest)
    (hc : Machine.machine.Reachable c) (hbegins : begins action = false)
    (hcrash : action ≠ .crash) (hstep : c.step action = .ok c') :
    ∃ batch', Standing c' walk sentinel batch' rest := by
  have hheld := hstanding.held hc
  obtain ⟨v, hrunning, hidle⟩ := hstanding.idle
  obtain ⟨hidle', hxalloc, henqueue⟩ := idle_of_step hrunning hidle hbegins hcrash hstep
  obtain ⟨batch', pending', hheld', heffect, hkept⟩ := hheld.effect hstep
  obtain ⟨v', hrunning', _⟩ := id hidle'
  have hprocess := hheld'.process
  rw [hrunning'] at hprocess
  obtain ⟨other, hbuilt', _⟩ := hprocess
  have hsentinel : other = sentinel :=
    Option.some.inj (hbuilt'.pool_active.symm.trans (hkept sentinel hstanding.built.pool_active))
  subst hsentinel
  have hcontents : pending' = walk.addrs ++ rest ∧
      ∀ addr ∈ walk.addrs ++ rest, c'.pool.heap.writeAt addr = c.pool.heap.writeAt addr := by
    cases heffect with
    | quiet _ _ _ _ hsame => exact ⟨rfl, fun addr hmem => hsame addr (List.mem_append_right _ hmem)⟩
    | stored addr write => exact absurd rfl (hxalloc _)
    | enqueued => exact absurd rfl (henqueue _)
    | completed call hlookup =>
        refine ⟨rfl, fun addr hmem => ?_⟩
        simp [Heap.writeAt, hlookup, hheld.pool.disjoint hmem]
  obtain ⟨rfl, hsame⟩ := hcontents
  refine ⟨batch', hidle', hbuilt', hstanding.cur, fun visit hvisit => ?_, ?_⟩
  · have hmem : visit.addr ∈ walk.addrs ++ rest :=
      List.mem_append_left _ (List.mem_map_of_mem hvisit)
    rw [hsame _ hmem]
    exact hstanding.contents visit hvisit
  · rw [hstanding.entered, map_writeOf_congr hsame]

theorem Standing.link_cur (hstanding : Standing c walk sentinel batch rest) :
    link c.pool.heap (walk.addrs.getLastD sentinel) = some rest.head? := by
  obtain ⟨before, hbefore⟩ := exists_init_getLastD sentinel walk.addrs
  have hchain := hstanding.built.active
  rw [← List.cons_append, hbefore, List.append_assoc] at hchain
  obtain ⟨_, next, hlink, hrest⟩ := chain_cons_iff.mp hchain.suffix
  rw [hlink, hrest.start_eq_head?]
  rfl

theorem Standing.deref_cur (hstanding : Standing c walk sentinel batch rest) :
    ∃ node, c.pool.heap.deref walk.cur = .ok (walk.addrs.getLastD sentinel, node) ∧
      node.next = rest.head? := by
  obtain ⟨node, hlookup, hnext⟩ := lookup_of_link hstanding.link_cur
  rw [hstanding.cur]
  exact ⟨node, deref_of_lookup hlookup, hnext⟩

theorem Standing.passed (hstanding : Standing c walk sentinel batch rest) :
    walk.visits.map Visit.write = walk.addrs.map c.pool.heap.writeOf := by
  unfold Walk.addrs
  rw [List.map_map]
  refine List.map_congr_left fun visit hvisit => ?_
  simp [Heap.writeOf, hstanding.contents visit hvisit]

theorem standing_enter {v : Volatile} (hc : Machine.machine.Reachable c)
    (hrunning : c.process = .running v) (hidle : v.writer = .idle) :
    ∃ sentinel batch rest, c.pool.persistent = .ok ⟨some sentinel, batch.head?⟩ ∧
      Standing c ⟨some sentinel, [], c⟩ sentinel batch rest := by
  obtain ⟨batch, pending, hheld⟩ := held_of_reachable hc
  have hprocess := hheld.process
  rw [hrunning] at hprocess
  obtain ⟨sentinel, hbuilt, _⟩ := hprocess
  exact ⟨sentinel, batch, pending, hbuilt.persistent,
    ⟨v, hrunning, hidle⟩, hbuilt, rfl, nofun, hheld.pool.writes_pending⟩

def Walk.pass (walk : Walk) (addr : Addr) (write : Write) : Walk :=
  { walk with cur := some addr, visits := walk.visits ++ [⟨addr, write⟩] }

theorem Standing.pass {addr : Addr} (hstanding : Standing c walk sentinel batch (addr :: rest)) :
    ∃ node next, c.pool.heap.deref walk.cur = .ok (walk.addrs.getLastD sentinel, node) ∧
      node.next = some addr ∧ c.pool.heap.deref (some addr) = .ok (addr, next) ∧
      Standing c (walk.pass addr next.write) sentinel batch rest := by
  obtain ⟨node, hcur, hnext⟩ := hstanding.deref_cur
  have hlive : addr ∈ c.pool.heap := hstanding.built.mem_heap_of_pending (by simp)
  obtain ⟨next, hlookup⟩ := Finmap.mem_iff.mp hlive
  have haddrs : (walk.pass addr next.write).addrs ++ rest = walk.addrs ++ addr :: rest := by
    simp [Walk.pass, Walk.addrs]
  refine ⟨node, next, hcur, hnext, deref_of_lookup hlookup, hstanding.idle, ?_, ?_, ?_, ?_⟩
  · rw [haddrs]
    exact hstanding.built
  · simp [Walk.pass, Walk.addrs]
  · intro visit hvisit
    cases List.mem_append.mp hvisit with
    | inl hmem => exact hstanding.contents visit hmem
    | inr hmem =>
        cases List.mem_singleton.mp hmem
        simp [Heap.writeAt, hlookup]
  · rw [haddrs]
    exact hstanding.entered

end Walks

section Steps

/-- The callback has got the writes that were pending when `forEach` was called, in their
order, up to the one it has stopped at. -/
structure CallOk (call : WalkCall) : Prop where
  entered : Machine.machine.Reachable call.entered
  visits : ∃ writes, call.entered.pool.heap.writes call.entered.pool.pending = some writes ∧
    call.visits.map Visit.write <+: writes ∧
    (call.ended = .exhausted → call.visits.map Visit.write = writes)

structure Inv (s : State) : Prop where
  config : Machine.machine.Reachable s.config
  walk : ∀ walk, s.walk = some walk → Machine.machine.Reachable walk.entered ∧
    ∃ sentinel batch rest, Standing s.config walk sentinel batch rest
  calls : ∀ call ∈ s.calls, CallOk call

variable {s s' : State} {walk : Walk} {sentinel : Addr} {batch rest : List Addr}

theorem Standing.callOk (hentered : Machine.machine.Reachable walk.entered)
    (hstanding : Standing s.config walk sentinel batch rest) {ended : WalkEnd}
    (hended : ended = .exhausted → rest = []) : CallOk ⟨walk.entered, walk.visits, ended⟩ := by
  refine ⟨hentered, _, hstanding.entered, ?_, fun hexhausted => ?_⟩
  · rw [List.map_append, ← hstanding.passed]
    exact List.prefix_append _ _
  · rw [hended hexhausted, List.append_nil]
    exact hstanding.passed

theorem Inv.leave (hinv : Inv s) (hentered : Machine.machine.Reachable walk.entered)
    (hstanding : Standing s.config walk sentinel batch rest) {ended : WalkEnd}
    (hended : ended = .exhausted → rest = []) {config : Config}
    (hconfig : Machine.machine.Reachable config) :
    Inv ({ s with config := config }.leave walk ended) := by
  refine ⟨hconfig, nofun, fun call hcall => ?_⟩
  cases List.mem_append.mp hcall with
  | inl hmem => exact hinv.calls call hmem
  | inr hmem =>
      cases List.mem_singleton.mp hmem
      exact hstanding.callOk hentered hended

theorem Inv.other (hinv : Inv s) {action : Machine.Action} (hstep : s.other action = .ok s') :
    Inv s' := by
  unfold State.other at hstep
  split at hstep
  · rename_i hnone
    obtain ⟨config, hconfig, heq⟩ := ok_of_bind hstep
    cases heq
    refine ⟨hinv.config.step hconfig, fun walk hwalk => ?_, hinv.calls⟩
    cases hnone.symm.trans hwalk
  · rename_i walk hwalk
    obtain ⟨config, hconfig, heq⟩ := ok_of_bind hstep
    cases heq
    obtain ⟨hentered, sentinel, batch, rest, hstanding⟩ := hinv.walk walk hwalk
    have hended : WalkEnd.interrupted = .exhausted → rest = [] := nofun
    exact hinv.leave hentered hstanding hended (hinv.config.step hconfig)
  · rename_i walk hwalk hcrash
    split at hstep
    · cases hstep
    · rename_i hbegins
      obtain ⟨config, hconfig, heq⟩ := ok_of_bind hstep
      cases heq
      refine ⟨hinv.config.step hconfig, fun walk' hwalk' => ?_, hinv.calls⟩
      obtain ⟨hentered, sentinel, batch, rest, hstanding⟩ := hinv.walk walk' hwalk'
      obtain ⟨batch', hstanding'⟩ := hstanding.step hinv.config
        (Bool.eq_false_iff.mpr hbegins) (fun heq => hcrash heq) hconfig
      exact ⟨hentered, sentinel, batch', rest, hstanding'⟩

theorem Inv.enter (hinv : Inv s) (hstep : s.enter = .ok s') : Inv s' := by
  unfold State.enter at hstep
  split at hstep
  · rename_i v hrunning hnone
    split at hstep
    · rename_i hidle
      obtain ⟨sentinel, batch, rest, hpersistent, hstanding⟩ :=
        standing_enter hinv.config hrunning hidle
      rw [hpersistent] at hstep
      cases hstep
      refine ⟨hinv.config, fun walk hwalk => ?_, hinv.calls⟩
      cases hwalk
      exact ⟨hinv.config, sentinel, batch, rest, hstanding⟩
    · cases hstep
  · cases hstep

theorem visit_eq (hwalk : s.walk = some walk)
    (hstanding : Standing s.config walk sentinel batch rest) (stop : Bool) :
    (rest = [] ∧ s.visit stop = .error .disabled) ∨
      ∃ addr rest' write, rest = addr :: rest' ∧
        Standing s.config (walk.pass addr write) sentinel batch rest' ∧
        s.visit stop = .ok (if stop then s.leave (walk.pass addr write) .stopped
          else { s with walk := some (walk.pass addr write) }) := by
  cases rest with
  | nil =>
      obtain ⟨node, hcur, hnext⟩ := hstanding.deref_cur
      refine .inl ⟨rfl, ?_⟩
      simp [State.visit, hwalk, hcur, hnext, bind, Except.bind]
  | cons addr rest =>
      obtain ⟨node, next, hcur, hnext, hderef, hpassed⟩ := hstanding.pass
      refine .inr ⟨addr, rest, next.write, rfl, hpassed, ?_⟩
      simp only [State.visit, hwalk, hcur, hnext, hderef, bind, Except.bind, reduceCtorEq, if_false]
      cases stop <;> rfl

theorem exhaust_eq (hwalk : s.walk = some walk)
    (hstanding : Standing s.config walk sentinel batch rest) :
    s.exhaust = if rest = [] then .ok (s.leave walk .exhausted) else .error .disabled := by
  obtain ⟨node, hcur, hnext⟩ := hstanding.deref_cur
  simp only [State.exhaust, hwalk, hcur, hnext, bind, Except.bind, List.head?_eq_none_iff]
  rfl

theorem Inv.visit (hinv : Inv s) {stop : Bool} (hstep : s.visit stop = .ok s') : Inv s' := by
  cases hwalk : s.walk with
  | none => simp [State.visit, hwalk] at hstep
  | some walk =>
      obtain ⟨hentered, sentinel, batch, rest, hstanding⟩ := hinv.walk walk hwalk
      obtain ⟨_, hdisabled⟩ | ⟨addr, rest', write, rfl, hpassed, heq⟩ :=
        visit_eq hwalk hstanding stop
      · rw [hdisabled] at hstep
        cases hstep
      · rw [heq] at hstep
        cases stop with
        | true =>
            cases hstep
            have hended : WalkEnd.stopped = .exhausted → rest' = [] := nofun
            have hentered' : Machine.machine.Reachable (walk.pass addr write).entered := hentered
            exact hinv.leave hentered' hpassed hended hinv.config
        | false =>
            cases hstep
            refine ⟨hinv.config, fun walk' hwalk' => ?_, hinv.calls⟩
            cases hwalk'
            exact ⟨hentered, sentinel, batch, rest', hpassed⟩

theorem Inv.exhaust (hinv : Inv s) (hstep : s.exhaust = .ok s') : Inv s' := by
  cases hwalk : s.walk with
  | none => simp [State.exhaust, hwalk] at hstep
  | some walk =>
      obtain ⟨hentered, sentinel, batch, rest, hstanding⟩ := hinv.walk walk hwalk
      rw [exhaust_eq hwalk hstanding] at hstep
      split at hstep
      · rename_i hempty
        cases hstep
        exact hinv.leave hentered hstanding (fun _ => hempty) hinv.config
      · cases hstep

theorem inv_of_reachable (hs : machine.Reachable s) : Inv s := by
  apply hs.invariant (motive := Inv)
  · rintro _ rfl
    exact ⟨System.reachable_init rfl, nofun, nofun⟩
  · intro s action s' _ hinv hstep
    cases action with
    | other action => exact hinv.other hstep
    | enter => exact hinv.enter hstep
    | visit stop => exact hinv.visit hstep
    | leave => exact hinv.exhaust hstep

def Defined (result : Except Refusal State) : Prop :=
  result = .error .disabled ∨ ∃ s', result = .ok s'

theorem defined_bind (hinv : Inv s) (action : Machine.Action) (next : Config → State) :
    Defined (s.config.step action >>= fun config => pure (next config)) := by
  obtain ⟨batch, pending, hheld⟩ := held_of_reachable hinv.config
  rcases hheld.step action with hdisabled | ⟨config, _, _, hok, _⟩
  · rw [hdisabled]
    exact .inl rfl
  · rw [hok]
    exact .inr ⟨next config, rfl⟩

private theorem defined_other (hinv : Inv s) (action : Machine.Action) :
    Defined (s.other action) := by
  unfold State.other
  split
  · exact defined_bind hinv _ _
  · exact defined_bind hinv _ _
  · split
    · exact .inl rfl
    · exact defined_bind hinv _ _

private theorem defined_enter (hinv : Inv s) : Defined s.enter := by
  unfold State.enter
  split
  · rename_i v hrunning _
    split
    · rename_i hidle
      obtain ⟨sentinel, batch, rest, hpersistent, _⟩ := standing_enter hinv.config hrunning hidle
      rw [hpersistent]
      exact .inr ⟨_, rfl⟩
    · exact .inl rfl
  · exact .inl rfl

theorem Inv.defined (hinv : Inv s) (action : Action) : Defined (s.step action) := by
  cases action with
  | other action => exact defined_other hinv action
  | enter => exact defined_enter hinv
  | visit stop =>
      change Defined (s.visit stop)
      cases hwalk : s.walk with
      | none => exact .inl (by simp [State.visit, hwalk])
      | some walk =>
          obtain ⟨_, sentinel, batch, rest, hstanding⟩ := hinv.walk walk hwalk
          obtain ⟨_, hdisabled⟩ | ⟨_, _, _, _, _, heq⟩ := visit_eq hwalk hstanding stop
          · exact .inl hdisabled
          · exact .inr ⟨_, heq⟩
  | leave =>
      change Defined s.exhaust
      cases hwalk : s.walk with
      | none => exact .inl (by simp [State.exhaust, hwalk])
      | some walk =>
          obtain ⟨_, sentinel, batch, rest, hstanding⟩ := hinv.walk walk hwalk
          rw [exhaust_eq hwalk hstanding]
          split
          · exact .inr ⟨_, rfl⟩
          · exact .inl rfl

end Steps

/-- Whatever the flusher does meanwhile, `forEach` passes the writes that were pending when it
was called to the callback, oldest first, until the callback stops it; it changes nothing
and never runs into undefined behaviour. -/
theorem forEach_pending (s : State) (hs : machine.Reachable s) :
    Machine.machine.Reachable s.config ∧ (∀ call ∈ s.calls, CallOk call) ∧
    (∀ action, Defined (s.step action)) ∧
    ∀ walk, s.walk = some walk → ∃ writes,
      walk.entered.pool.heap.writes walk.entered.pool.pending = some writes ∧
      s.config.pool.heap.writes s.config.pool.pending = some writes ∧
      walk.visits.map Visit.write <+: writes ∧
      (walk.visits.map Visit.write = writes → s.step .leave = .ok (s.leave walk .exhausted)) ∧
      (walk.visits.map Visit.write ≠ writes → ∀ stop, ∃ s' walk', s.step (.visit stop) = .ok s' ∧
        s'.config = s.config ∧ walk'.visits.map Visit.write <+: writes ∧
        walk'.visits.length = walk.visits.length + 1 ∧
        s' = if stop then s.leave walk' .stopped else { s with walk := some walk' }) := by
  have hinv := inv_of_reachable hs
  refine ⟨hinv.config, hinv.calls, hinv.defined, fun walk hwalk => ?_⟩
  obtain ⟨hentered, sentinel, batch, rest, hstanding⟩ := hinv.walk walk hwalk
  have hpassed := hstanding.passed
  have hwrites : (walk.addrs ++ rest).map s.config.pool.heap.writeOf =
      walk.visits.map Visit.write ++ rest.map s.config.pool.heap.writeOf := by
    rw [List.map_append, hpassed]
  refine ⟨_, hstanding.entered, (hstanding.held hinv.config).pool.writes_pending, ?_, ?_, ?_⟩
  · rw [hwrites]
    exact List.prefix_append _ _
  · intro hall
    have hempty : rest = [] := by
      rw [hwrites, List.self_eq_append_right, List.map_eq_nil_iff] at hall
      exact hall
    exact (exhaust_eq hwalk hstanding).trans (if_pos hempty)
  · intro hmore stop
    obtain ⟨hempty, _⟩ | ⟨addr, rest', write, rfl, hpass, heq⟩ := visit_eq hwalk hstanding stop
    · rw [hwrites, hempty, List.map_nil, List.append_nil] at hmore
      exact absurd rfl hmore
    · refine ⟨_, walk.pass addr write, heq, ?_, ?_, ?_, rfl⟩
      · cases stop <;> rfl
      · rw [hpass.passed]
        exact List.IsPrefix.map _ ⟨rest', by simp [Walk.pass, Walk.addrs]⟩
      · simp [Walk.pass]

def walkedTwoWrites : List Action :=
  ((startActions 1 ++ pwriteActions ⟨0, [104]⟩ 2 ++ pwriteActions ⟨5, [98, 98]⟩ 3).map .other) ++
    [.enter, .visit false, .other .lockFlush, .other (.freeTransaction .commit), .visit false,
      .leave]

theorem forEach_pending_twoWrites : ∃ s, machine.Reachable s ∧ s.walk = none ∧
    s.calls.map (fun call => call.visits.map Visit.write) = [[⟨0, [104]⟩, ⟨5, [98, 98]⟩]] ∧
    ∀ call ∈ s.calls, CallOk call := by
  obtain ⟨s, hexecute, hwalk, hcalls⟩ : ∃ s,
      System.execute (fun s action => (State.step s action).toOption) ⟨freshPool, none, []⟩
        walkedTwoWrites = some s ∧ s.walk = none ∧
      s.calls.map (fun call => call.visits.map Visit.write) = [[⟨0, [104]⟩, ⟨5, [98, 98]⟩]] :=
    ⟨_, rfl, rfl, rfl⟩
  have hs : machine.Reachable s := by
    refine ⟨_, walkedTwoWrites, rfl, System.run_of_execute ?_ hexecute⟩
    intro s action s' hstep
    change s.step action = .ok s'
    cases hresult : s.step action with
    | error refusal => simp [hresult, Except.toOption] at hstep
    | ok next =>
        rw [hresult] at hstep
        exact congrArg Except.ok (Option.some.inj hstep)
  exact ⟨s, hs, hwalk, hcalls, (forEach_pending s hs).2.1⟩

end SpackPlayground.BurstBuffer.ForEach
