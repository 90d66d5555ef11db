import SpackPlayground.TransactionCounter.Code

/-! The mutex keeps increments from being lost while nothing crashes. Since it is
unlocked before the commit, what a crash rolls back may have been read already. -/
namespace SpackPlayground.TransactionCounter

open Library.Tally Library.Transition

def Worker.Holds : Worker → Prop
  | locked | snapshotted _ | loaded _ _ | stored _ => True
  | started | began | unlocked _ | finished => False

def Worker.Stored : Worker → Prop
  | stored _ | unlocked _ | finished => True
  | started | began | locked | snapshotted _ | loaded _ _ => False

instance : DecidablePred Worker.Stored := fun worker => by
  cases worker <;> unfold Worker.Stored <;> infer_instance

variable {n : Nat}

def State.committed (s : State n) : Nat := tally (· = Worker.finished) s.workers

structure Inv (s : State n) : Prop where
  owner : ∀ w, (s.workers w).Holds ↔ s.mtx = some w
  counter : s.counter.toInt = s.start.toInt + tally Worker.Stored s.workers
  loaded : ∀ w old value, s.workers w = .loaded old value → value = s.counter
  /-- An open transaction has the counter before its own increment in its log. -/
  undo : ∀ w old, (s.workers w).undo = some old →
    s.start.toInt ≤ old.toInt ∧ ((s.workers w).Stored → old.toInt < s.counter.toInt) ∧
      (¬ (s.workers w).Stored → old = s.counter)
  distinct : ∀ v w old, (s.workers v).undo = some old → (s.workers w).undo = some old → v = w

/-- Whichever way a crash is recovered from, the counter has the committed increments
and no others. -/
def Exact (s : State n) : Prop :=
  ∀ lanes, s.Lanes lanes → (s.recovered lanes).toInt = s.start.toInt + s.committed

theorem Worker.holds_of_undo {worker : Worker} {old : Int32} (hundo : worker.undo = some old)
    (hstored : ¬ worker.Stored) : worker.Holds := by
  cases worker with
  | snapshotted | loaded => trivial
  | stored | unlocked => exact absurd trivial hstored
  | started | began | locked | finished => cases hundo

theorem Worker.stored_iff (worker : Worker) :
    worker.Stored ↔ worker = finished ∨ worker.Stored ∧ worker.undo.isSome := by
  cases worker <;> simp [Worker.Stored, Worker.undo]

section Recovery

variable {s : State n} {lanes : List (Fin n)} {w : Fin n} {old : Int32}

theorem recovered_append_singleton (hundo : (s.workers w).undo = some old) :
    s.recovered (lanes ++ [w]) = old := by
  simp [State.recovered, hundo]

theorem exists_lanes (hundo : (s.workers w).undo = some old) :
    ∃ lanes, s.Lanes lanes ∧ s.recovered lanes = old := by
  let others := (List.finRange n).filter fun v => (s.workers v).undo.isSome ∧ v ≠ w
  refine ⟨others ++ [w], ⟨?_, ?_⟩, recovered_append_singleton hundo⟩
  · refine List.nodup_append.mpr ⟨(List.nodup_finRange n).filter _, List.nodup_singleton w, ?_⟩
    intro v hv u hu heq
    have hne := (of_decide_eq_true (List.mem_filter.mp hv).2).2
    exact hne (heq.trans (List.mem_singleton.mp hu))
  · intro v
    by_cases hv : v = w
    · subst hv
      simp [hundo]
    · simp [others, hv]

theorem tally_stored_of_none (hnone : ∀ w, (s.workers w).undo = none) :
    tally Worker.Stored s.workers = s.committed := by
  apply le_antisymm
  · refine tally_mono fun w hw => ?_
    have hstored := (Worker.stored_iff _).mp hw
    simpa [hnone w] using hstored
  · refine tally_mono fun w hw => ?_
    rw [hw]
    trivial

theorem Inv.recovered_cases (hinv : Inv s) (hlanes : s.Lanes lanes) :
    ((∀ w, (s.workers w).undo = none) ∧ (s.recovered lanes).toInt = s.start.toInt + s.committed) ∨
      ∃ w, (s.workers w).undo = some (s.recovered lanes) := by
  cases lanes using List.reverseRecOn with
  | nil =>
      have hnone : ∀ w, (s.workers w).undo = none := fun w =>
        Option.not_isSome_iff_eq_none.mp fun hsome => List.not_mem_nil ((hlanes.2 w).mpr hsome)
      exact .inl ⟨hnone, hinv.counter.trans (by rw [tally_stored_of_none hnone])⟩
  | append_singleton lanes w =>
      obtain ⟨old, hundo⟩ := Option.isSome_iff_exists.mp ((hlanes.2 w).mp (by simp))
      exact .inr ⟨w, by rw [recovered_append_singleton hundo, hundo]⟩

theorem Inv.exact_iff (hinv : Inv s) : Exact s ↔
    ∀ w old, (s.workers w).undo = some old → old.toInt = s.start.toInt + s.committed := by
  constructor
  · intro hexact w old hundo
    obtain ⟨lanes, hlanes, hrecovered⟩ := exists_lanes hundo
    rw [← hrecovered]
    exact hexact lanes hlanes
  · intro hall lanes hlanes
    rcases hinv.recovered_cases hlanes with ⟨_, heq⟩ | ⟨w, hundo⟩
    · exact heq
    · exact hall w _ hundo

end Recovery

section Steps

variable {s s' : State n} {w : Fin n} {worker : Worker}

theorem inv_fresh (n : Nat) (counter : Int32) : Inv (fresh n counter) where
  owner w := iff_of_false id nofun
  counter := by
    rw [tally_eq_zero fun _ => id]
    exact (add_zero counter.toInt).symm
  loaded := nofun
  undo := nofun
  distinct := nofun

theorem Inv.owner_moved (hinv : Inv s) (hholds : worker.Holds ↔ (s.workers w).Holds) (v : Fin n) :
    (Function.update s.workers w worker v).Holds ↔ s.mtx = some v := by
  refine forall_update (motive := fun v (worker : Worker) => worker.Holds ↔ s.mtx = some v) ?_
    (fun v _ => hinv.owner v) v
  rw [hholds]
  exact hinv.owner w

theorem Inv.not_holds (hinv : Inv s) (hw : (s.workers w).Holds) {v : Fin n} (hv : v ≠ w) :
    ¬ (s.workers v).Holds := by
  intro hholds
  have hmtx := (hinv.owner w).mp hw
  rw [(hinv.owner v).mp hholds] at hmtx
  exact hv (Option.some_inj.mp hmtx)

theorem Inv.stored_of_undo (hinv : Inv s) (hw : (s.workers w).Holds) {v : Fin n} (hv : v ≠ w)
    {old : Int32} (hundo : (s.workers v).undo = some old) : (s.workers v).Stored :=
  not_not.mp fun hstored => hinv.not_holds hw hv (Worker.holds_of_undo hundo hstored)

theorem Inv.moved (hinv : Inv s) (hundo : worker.undo = (s.workers w).undo)
    (hstored : worker.Stored ↔ (s.workers w).Stored)
    (hloaded : ∀ old value, worker = .loaded old value → value = s.counter) {mtx : Option (Fin n)}
    (howner : ∀ v, (Function.update s.workers w worker v).Holds ↔ mtx = some v) :
    Inv { s.move w worker with mtx := mtx } := by
  have hundos : ∀ v, (Function.update s.workers w worker v).undo = (s.workers v).undo :=
    forall_update (motive := fun v (worker : Worker) => worker.undo = (s.workers v).undo)
      hundo fun _ _ => rfl
  have hstoreds : ∀ v, (Function.update s.workers w worker v).Stored ↔ (s.workers v).Stored :=
    forall_update (motive := fun v (worker : Worker) => worker.Stored ↔ (s.workers v).Stored)
      hstored fun _ _ => Iff.rfl
  refine ⟨howner, ?_, ?_, ?_, ?_⟩
  · change s.counter.toInt =
      s.start.toInt + tally Worker.Stored (Function.update s.workers w worker)
    rw [tally_congr hstoreds]
    exact hinv.counter
  · exact forall_update
      (motive := fun _ (worker : Worker) => ∀ old value, worker = .loaded old value →
        value = s.counter) hloaded fun v _ => hinv.loaded v
  · intro v old hv
    have hold := hinv.undo v old ((hundos v).symm.trans hv)
    exact ⟨hold.1, fun h => hold.2.1 ((hstoreds v).mp h),
      fun h => hold.2.2 (mt (hstoreds v).mpr h)⟩
  · intro v u old hv hu
    exact hinv.distinct v u old ((hundos v).symm.trans hv) ((hundos u).symm.trans hu)

theorem Inv.lock (hinv : Inv s) (hworker : s.workers w = .began) (hfree : s.mtx = none) :
    Inv { s.move w .locked with mtx := some w } := by
  refine hinv.moved (by rw [hworker]; rfl) (by rw [hworker]; exact Iff.rfl)
    (fun _ _ heq => by cases heq) ?_
  refine forall_update (motive := fun v (worker : Worker) => worker.Holds ↔ some w = some v)
    (iff_of_true trivial rfl) fun v hv => ?_
  rw [hinv.owner v, hfree]
  exact iff_of_false nofun fun heq => hv (Option.some_inj.mp heq).symm

theorem Inv.unlock (hinv : Inv s) {old : Int32} (hworker : s.workers w = .stored old) :
    Inv { s.move w (.unlocked old) with mtx := none } := by
  refine hinv.moved (by rw [hworker]; rfl) (by rw [hworker]; exact Iff.rfl)
    (fun _ _ heq => by cases heq) ?_
  refine forall_update (motive := fun v (worker : Worker) => worker.Holds ↔ none = some v)
    (iff_of_false id nofun) fun v hv => ?_
  exact iff_of_false (hinv.not_holds (by rw [hworker]; trivial) hv) nofun

theorem Inv.snapshot (hinv : Inv s) (hworker : s.workers w = .locked) :
    Inv (s.move w (.snapshotted s.counter)) := by
  have hholds : (s.workers w).Holds := by rw [hworker]; trivial
  have hlt : ∀ v, v ≠ w → ∀ old, (s.workers v).undo = some old →
      old.toInt < s.counter.toInt := by
    intro v hv old hundo
    exact (hinv.undo v old hundo).2.1 (hinv.stored_of_undo hholds hv hundo)
  refine ⟨hinv.owner_moved (by rw [hworker]; exact Iff.rfl), ?_, ?_, ?_, ?_⟩
  · change s.counter.toInt = s.start.toInt + tally Worker.Stored (Function.update s.workers w _)
    rw [tally_update_of_iff (by rw [hworker]; exact Iff.rfl)]
    exact hinv.counter
  · exact forall_update
      (motive := fun _ (worker : Worker) => ∀ old value, worker = .loaded old value →
        value = s.counter) nofun fun v _ => hinv.loaded v
  · refine forall_update (motive := fun _ (worker : Worker) => ∀ old, worker.undo = some old →
      s.start.toInt ≤ old.toInt ∧ (worker.Stored → old.toInt < s.counter.toInt) ∧
        (¬ worker.Stored → old = s.counter)) ?_
      fun v _ => hinv.undo v
    intro old heq
    cases heq
    refine ⟨?_, False.elim, fun _ => rfl⟩
    rw [hinv.counter]
    omega
  · intro v u old hv hu
    by_cases hvw : v = w <;> by_cases huw : u = w
    · rw [hvw, huw]
    · subst hvw
      simp only [State.move, Function.update_self, Function.update_of_ne huw] at hv hu
      cases hv
      exact absurd (hlt u huw _ hu) (lt_irrefl _)
    · subst huw
      simp only [State.move, Function.update_self, Function.update_of_ne hvw] at hv hu
      cases hu
      exact absurd (hlt v hvw _ hv) (lt_irrefl _)
    · simp only [State.move, Function.update_of_ne hvw, Function.update_of_ne huw] at hv hu
      exact hinv.distinct v u old hv hu

private theorem toInt_add_one {value : Int32} (hvalue : value < Int32.maxValue) :
    (value + 1).toInt = value.toInt + 1 := by
  have hlt := Int32.lt_iff_toInt_lt.mp hvalue
  have hle := value.le_toInt
  rw [Int32.toInt_maxValue] at hlt
  rw [Int32.toInt_add, Int32.toInt_one, Int.bmod_eq_of_le] <;> omega

theorem Inv.store (hinv : Inv s) {old value : Int32} (hworker : s.workers w = .loaded old value)
    (hmax : value < Int32.maxValue) :
    Inv { s.move w (.stored old) with counter := value + 1 } := by
  have hholds : (s.workers w).Holds := by rw [hworker]; trivial
  have hvalue : value = s.counter := hinv.loaded w old value hworker
  have hsucc := toInt_add_one hmax
  have hundos : ∀ v, (Function.update s.workers w (.stored old) v).undo = (s.workers v).undo :=
    forall_update (motive := fun v (worker : Worker) => worker.undo = (s.workers v).undo)
      (by rw [hworker]; rfl) fun _ _ => rfl
  subst hvalue
  refine ⟨hinv.owner_moved (by rw [hworker]; exact Iff.rfl), ?_, ?_, ?_, ?_⟩
  · change (s.counter + 1).toInt =
      s.start.toInt + tally Worker.Stored (Function.update s.workers w _)
    rw [tally_update_succ (by rw [hworker]; exact id) trivial, hsucc, hinv.counter]
    omega
  · refine forall_update (motive := fun _ (worker : Worker) => ∀ old value,
      worker = .loaded old value → value = s.counter + 1) nofun fun v hv old value hloaded => ?_
    exact absurd (show (s.workers v).Holds by rw [hloaded]; trivial) (hinv.not_holds hholds hv)
  · refine forall_update (motive := fun _ (worker : Worker) => ∀ old, worker.undo = some old →
      s.start.toInt ≤ old.toInt ∧ (worker.Stored → old.toInt < (s.counter + 1).toInt) ∧
        (¬ worker.Stored → old = s.counter + 1)) ?_ fun v hv old hundo => ?_
    · intro old' heq
      cases heq
      have hold := hinv.undo w old (by rw [hworker]; rfl)
      have hcounter := congrArg Int32.toInt (hold.2.2 (by rw [hworker]; exact id))
      exact ⟨hold.1, fun _ => by omega, fun hnot => absurd trivial hnot⟩
    · have hstored := hinv.stored_of_undo hholds hv hundo
      have hold := hinv.undo v old hundo
      have hlt := hold.2.1 hstored
      exact ⟨hold.1, fun _ => by omega, fun hnot => absurd hstored hnot⟩
  · intro v u old hv hu
    exact hinv.distinct v u old ((hundos v).symm.trans hv) ((hundos u).symm.trans hu)

theorem Inv.commit (hinv : Inv s) {old : Int32} (hworker : s.workers w = .unlocked old) :
    Inv (s.move w .finished) := by
  refine ⟨hinv.owner_moved (by rw [hworker]; exact Iff.rfl), ?_, ?_, ?_, ?_⟩
  · change s.counter.toInt = s.start.toInt + tally Worker.Stored (Function.update s.workers w _)
    rw [tally_update_of_iff (by rw [hworker]; exact Iff.rfl)]
    exact hinv.counter
  · exact forall_update
      (motive := fun _ (worker : Worker) => ∀ old value, worker = .loaded old value →
        value = s.counter) nofun fun v _ => hinv.loaded v
  · exact forall_update (motive := fun _ (worker : Worker) => ∀ old, worker.undo = some old →
      s.start.toInt ≤ old.toInt ∧ (worker.Stored → old.toInt < s.counter.toInt) ∧
        (¬ worker.Stored → old = s.counter))
      (fun _ heq => by cases heq) fun v _ => hinv.undo v
  · have hundo : ∀ v old, (Function.update s.workers w .finished v).undo = some old →
        (s.workers v).undo = some old := by
      intro v old
      exact forall_update (motive := fun v (worker : Worker) => worker.undo = some old →
        (s.workers v).undo = some old) (fun heq => by cases heq) (fun _ _ => id) v
    intro v u old hv hu
    exact hinv.distinct v u old (hundo v old hv) (hundo u old hu)

theorem Inv.preserved (hinv : Inv s) {action : Action n} (hstep : step s action = some s') :
    Inv s' := by
  cases moves_of_step hstep with
  | begin w hworker =>
      have hmoved : Inv { s.move w .began with mtx := s.mtx } :=
        hinv.moved (by rw [hworker]; rfl) (by rw [hworker]; exact Iff.rfl)
          (fun _ _ heq => by cases heq) (hinv.owner_moved (by rw [hworker]; exact Iff.rfl))
      exact hmoved
  | lock w hworker hfree => exact hinv.lock hworker hfree
  | snapshot w hworker => exact hinv.snapshot hworker
  | load w old hworker =>
      refine hinv.moved (by rw [hworker]; rfl) (by rw [hworker]; exact Iff.rfl) ?_
        (hinv.owner_moved (by rw [hworker]; exact Iff.rfl))
      intro _ _ heq
      cases heq
      rfl
  | store w old value hworker hmax => exact hinv.store hworker hmax
  | unlock w old hworker => exact hinv.unlock hworker
  | commit w old hworker => exact hinv.commit hworker
  | crash lanes _ => exact inv_fresh n _
  | reopen _ => exact inv_fresh n _

theorem inv_of_reachable (hs : (machine n).Reachable s) : Inv s := by
  apply hs.invariant (motive := Inv)
  · rintro s ⟨counter, rfl⟩
    exact inv_fresh n counter
  · exact fun s action s' _ hinv hstep => hinv.preserved hstep

end Steps

/-- A worker takes its snapshot only when no other transaction is open that has one. -/
def Isolated (s : State n) : Action n → Prop
  | .snapshot _ => ∀ v, (s.workers v).undo = none
  | _ => True

section Exactness

variable {s s' : State n} {w : Fin n} {worker : Worker}

theorem committed_le_stored (s : State n) : s.committed ≤ tally Worker.Stored s.workers :=
  tally_mono fun _ hv => hv ▸ trivial

private theorem exact_of_moved (hinv : Inv s) (hinv' : Inv s') (hexact : Exact s)
    (hworkers : s'.workers = Function.update s.workers w worker) (hstart : s'.start = s.start)
    (hundo : worker.undo = (s.workers w).undo)
    (hfinished : worker = .finished ↔ s.workers w = .finished) : Exact s' := by
  have hcommitted : s'.committed = s.committed := by
    unfold State.committed
    rw [hworkers]
    exact tally_update_of_iff hfinished
  rw [hinv'.exact_iff, hcommitted, hstart, hworkers]
  refine forall_update (motive := fun _ (worker : Worker) => ∀ old, worker.undo = some old →
    old.toInt = s.start.toInt + s.committed) ?_ fun v _ => hinv.exact_iff.mp hexact v
  intro old hold
  exact hinv.exact_iff.mp hexact w old (hundo.symm.trans hold)

theorem exact_fresh (n : Nat) (counter : Int32) : Exact (fresh n counter) :=
  (inv_fresh n counter).exact_iff.mpr nofun

private theorem committed_snapshot (hworker : s.workers w = .locked) :
    (s.move w (.snapshotted s.counter)).committed = s.committed :=
  tally_update_of_iff (by simp [hworker])

private theorem exact_snapshot_iff (hinv : Inv s) (hworker : s.workers w = .locked) :
    Exact (s.move w (.snapshotted s.counter)) ↔ ∀ v, (s.workers v).undo = none := by
  have hcounter := hinv.counter
  have hle := committed_le_stored s
  rw [(hinv.snapshot hworker).exact_iff, committed_snapshot hworker]
  constructor
  · intro hexact v
    by_contra hopen
    obtain ⟨old, hundo⟩ := Option.ne_none_iff_exists'.mp hopen
    have hvw : v ≠ w := by
      rintro rfl
      rw [hworker] at hundo
      cases hundo
    have hstored := hinv.stored_of_undo (by rw [hworker]; trivial) hvw hundo
    have hlt : s.committed < tally Worker.Stored s.workers := by
      refine tally_lt_tally (fun u hu => hu ▸ trivial) hstored fun hfinished => ?_
      rw [hfinished] at hundo
      cases hundo
    have hsnapshot := hexact w s.counter (by simp [State.move, Worker.undo])
    simp only [State.move] at hsnapshot
    omega
  · intro hnone
    have hstored := tally_stored_of_none hnone
    refine forall_update (motive := fun _ (worker : Worker) => ∀ old, worker.undo = some old →
      old.toInt = s.start.toInt + s.committed) ?_ fun v _ old hundo => ?_
    · intro old heq
      cases heq
      omega
    · rw [hnone v] at hundo
      cases hundo

private theorem exact_commit (hinv : Inv s) (hexact : Exact s) {old : Int32}
    (hworker : s.workers w = .unlocked old) : Exact (s.move w .finished) := by
  have hall := hinv.exact_iff.mp hexact
  have hundo : (s.workers w).undo = some old := by rw [hworker]; rfl
  rw [(hinv.commit hworker).exact_iff]
  refine forall_update (motive := fun _ (worker : Worker) => ∀ old, worker.undo = some old →
    old.toInt = _) (fun _ heq => by cases heq) fun v hv old' hother => ?_
  have hsame : old' = old :=
    Int32.toInt_inj.mp ((hall v old' hother).trans (hall w old hundo).symm)
  exact absurd (hinv.distinct v w old (hsame ▸ hother) hundo) hv

private theorem exact_step_iff (hinv : Inv s) (hexact : Exact s) {action : Action n}
    (hstep : step s action = some s') : Exact s' ↔ Isolated s action := by
  have hinv' := hinv.preserved hstep
  cases moves_of_step hstep with
  | snapshot w hworker => exact exact_snapshot_iff hinv hworker
  | commit w old hworker => exact iff_of_true (exact_commit hinv hexact hworker) trivial
  | crash lanes _ => exact iff_of_true (exact_fresh n _) trivial
  | reopen _ => exact iff_of_true (exact_fresh n _) trivial
  | begin w hworker | lock w hworker _ | load w old hworker | store w old _ hworker _
  | unlock w old hworker =>
      refine iff_of_true (exact_of_moved hinv hinv' hexact rfl rfl ?_ ?_) trivial
      · rw [hworker]
        rfl
      · simp [hworker]

/-- Crashes keep exactly the committed increments throughout a run, when and only when
the transactions of the run have been isolated from each other. -/
theorem exact_throughout_iff {n : Nat} (start s : State n) (actions : List (Action n))
    (hinit : (machine n).init start) (hrun : (machine n).Run start actions s) :
    (∀ first t, first <+: actions → (machine n).Run start first t → Exact t) ↔
      ∀ first action t, first ++ [action] <+: actions → (machine n).Run start first t →
        Isolated t action := by
  have hkeep : ∀ s action t, (machine n).Reachable s → Exact s → (machine n).step s action t →
      (Exact t ↔ Isolated s action) :=
    fun _ _ _ hs hexact hstep => exact_step_iff (inv_of_reachable hs) hexact hstep
  have hdet : ∀ s action t u, (machine n).step s action t → (machine n).step s action u → t = u :=
    fun _ _ _ _ ht hu => Option.some_inj.mp (ht.symm.trans hu)
  have hstart : Exact start := by
    obtain ⟨counter, rfl⟩ := hinit
    exact exact_fresh n counter
  exact System.throughout_iff hkeep hdet hinit hstart hrun

/-- What a crash can leave in the counter: what some open transaction has in its log. -/
theorem recoverable_iff {n : Nat} (s : State n) (hs : (machine n).Reachable s) :
    s.counter.toInt = s.start.toInt + tally Worker.Stored s.workers ∧
    (∀ counter, (∃ lanes, s.Lanes lanes ∧ s.recovered lanes = counter) ↔
      ((∀ w, (s.workers w).undo = none) ∧ counter.toInt = s.start.toInt + s.committed) ∨
        ∃ w, (s.workers w).undo = some counter) ∧
    (∀ lanes, s.Lanes lanes → s.start ≤ s.recovered lanes ∧ s.recovered lanes ≤ s.counter) ∧
    ((∀ w, s.workers w = .finished) → s.counter.toInt = s.start.toInt + n) := by
  have hinv := inv_of_reachable hs
  refine ⟨hinv.counter, fun counter => ⟨?_, ?_⟩, fun lanes hlanes => ?_, fun hfinished => ?_⟩
  · rintro ⟨lanes, hlanes, rfl⟩
    exact hinv.recovered_cases hlanes
  · rintro (⟨hnone, hcommitted⟩ | ⟨w, hundo⟩)
    · refine ⟨[], ⟨List.nodup_nil, fun w => by simp [hnone w]⟩, Int32.toInt_inj.mp ?_⟩
      rw [hcommitted, ← tally_stored_of_none hnone]
      exact hinv.counter
    · exact exists_lanes hundo
  · rw [Int32.le_iff_toInt_le, Int32.le_iff_toInt_le]
    have hcounter := hinv.counter
    have hle := committed_le_stored s
    rcases hinv.recovered_cases hlanes with ⟨_, heq⟩ | ⟨w, hundo⟩
    · omega
    · obtain ⟨hlow, hstored, hnot⟩ := hinv.undo w _ hundo
      refine ⟨hlow, ?_⟩
      by_cases h : (s.workers w).Stored
      · exact (hstored h).le
      · exact (congrArg Int32.toInt (hnot h)).le
  · rw [hinv.counter, tally_eq_card_iff.mpr fun w => hfinished w ▸ trivial, Fintype.card_fin]

end Exactness

def overlapping : List (Action 3) :=
  [.begin 0, .lock 0, .snapshot 0, .load 0, .store 0, .unlock 0, .begin 1, .lock 1]

theorem exact_throughout_iff_overlapping : ∃ s,
    (machine 3).Run (fresh 3 0) (overlapping ++ [.snapshot 1]) s ∧
    ¬ ∀ first t, first <+: overlapping ++ [.snapshot 1] →
      (machine 3).Run (fresh 3 0) first t → Exact t := by
  obtain ⟨t, hbefore, hundo⟩ : ∃ t, System.execute step (fresh 3 0) overlapping = some t ∧
      (t.workers 0).undo = some 0 :=
    ⟨_, rfl, rfl⟩
  obtain ⟨s, hexecute⟩ : ∃ s,
      System.execute step (fresh 3 0) (overlapping ++ [.snapshot 1]) = some s :=
    ⟨_, rfl⟩
  have hrun : (machine 3).Run (fresh 3 0) (overlapping ++ [.snapshot 1]) s :=
    System.run_of_execute (fun _ _ _ hstep => hstep) hexecute
  have hfirst : (machine 3).Run (fresh 3 0) overlapping t :=
    System.run_of_execute (fun _ _ _ hstep => hstep) hbefore
  refine ⟨s, hrun, fun hexact => ?_⟩
  have hisolated := (exact_throughout_iff (fresh 3 0) s _ ⟨0, rfl⟩ hrun).mp hexact
    overlapping (.snapshot 1) t (List.prefix_refl _) hfirst 0
  rw [hundo] at hisolated
  cases hisolated

/-- The second increment is committed, and a crash forgets it. -/
theorem recoverable_iff_overlapping : ∃ s, (machine 3).Reachable s ∧ s.committed = 1 ∧
    (∃ lanes, s.Lanes lanes ∧ s.recovered lanes = 0) ∧
    ¬ ∃ lanes, s.Lanes lanes ∧ s.recovered lanes = 1 := by
  obtain ⟨s, hexecute, hcommitted, hfirst, hothers⟩ : ∃ s,
      System.execute step (fresh 3 0) (overlapping ++
        [.snapshot 1, .load 1, .store 1, .unlock 1, .commit 1]) = some s ∧
      s.committed = 1 ∧ s.workers 0 = .unlocked 0 ∧ ∀ w, w ≠ 0 → (s.workers w).undo = none :=
    ⟨_, rfl, rfl, rfl, by decide⟩
  have hreachable : (machine 3).Reachable s :=
    ⟨_, _, ⟨0, rfl⟩, System.run_of_execute (fun _ _ _ hstep => hstep) hexecute⟩
  have hiff := (recoverable_iff s hreachable).2.1
  refine ⟨s, hreachable, hcommitted, (hiff 0).mpr (.inr ⟨0, by rw [hfirst]; rfl⟩), fun hone => ?_⟩
  rcases (hiff 1).mp hone with ⟨hnone, _⟩ | ⟨w, hw⟩
  · have hopen := hnone 0
    rw [hfirst] at hopen
    cases hopen
  · by_cases hzero : w = 0
    · rw [hzero, hfirst] at hw
      cases hw
    · rw [hothers w hzero] at hw
      cases hw

end SpackPlayground.TransactionCounter
