import Mathlib.Algebra.Order.BigOperators.Group.List
import Mathlib.Algebra.Order.Group.Nat
import SpackPlayground.DistributedCounter.Code
import SpackPlayground.Library.History
import SpackPlayground.Library.Ownership
import SpackPlayground.Library.Tally

/-! The counters of `pmem_distributed_counter` add up to what was committed, since
each entry has one live worker at most. -/
namespace SpackPlayground.DistributedCounter

open Library.History Library.Ownership Library.Tally Library.Transition

/-- The committed transactions since the latest `counters.clear()`. -/
def committed (log : List Event) : Nat :=
  log.foldl (fun n event => match event with
    | .cleared => 0
    | .committed => n + 1
    | .printed _ | .printedSum .. => n) 0

section Committed

variable {log : List Event}

@[simp] theorem committed_cleared : committed (log ++ [.cleared]) = 0 := by simp [committed]

@[simp] theorem committed_committed : committed (log ++ [.committed]) = committed log + 1 := by
  simp [committed]

@[simp] theorem committed_printed (counters : List UInt64) :
    committed (log ++ [.printed counters]) = committed log := by simp [committed]

@[simp] theorem committed_printedSum (nthreads sum : UInt64) :
    committed (log ++ [.printedSum nthreads sum]) = committed log := by simp [committed]

end Committed

/-- The counters add up to `n`, as `size_t` and, where it fits, as numbers. -/
structure AddsUp (counters : List UInt64) (n : Nat) : Prop where
  sum : counters.sum = UInt64.ofNat n
  exact : n < 2 ^ 64 → (counters.map UInt64.toNat).sum = n

section AddsUp

variable {counters : List UInt64} {n entry : Nat} {counter : UInt64}

theorem addsUp_nil : AddsUp [] 0 := ⟨rfl, fun _ => rfl⟩

theorem AddsUp.grow (hadds : AddsUp counters n) (entry : Nat) : AddsUp (grow counters entry) n where
  sum := by
    unfold DistributedCounter.grow
    rw [List.sum_append, hadds.sum]
    simp
  exact hn := by
    unfold DistributedCounter.grow
    rw [List.map_append, List.sum_append, hadds.exact hn]
    simp

theorem AddsUp.increment (hadds : AddsUp counters n) (hcounter : counters[entry]? = some counter) :
    AddsUp (counters.set entry (counter + 1)) (n + 1) where
  sum := by
    have hset := sum_map_set_add hcounter id (counter + 1)
    rw [List.map_id, List.map_id, hadds.sum, id, id, ← add_assoc, add_right_comm] at hset
    rw [add_right_cancel hset, UInt64.ofNat_add]
    rfl
  exact hn := by
    have hset := sum_map_set_add hcounter UInt64.toNat (counter + 1)
    have hsum := hadds.exact (by omega)
    have hle : counter.toNat ≤ (counters.map UInt64.toNat).sum :=
      List.le_sum_of_mem (List.mem_map_of_mem (List.mem_of_getElem? hcounter))
    have hnext : (counter + 1).toNat = counter.toNat + 1 := by
      rw [UInt64.toNat_add]
      exact Nat.mod_eq_of_lt (by simp; omega)
    omega

end AddsUp

def Worker.done : Worker → Nat
  | .started => 0
  | .looping _ j | .incrementing _ j _ => j
  | .finished => increments

def Worker.Bounded : Worker → Prop
  | .looping _ j => j ≤ increments
  | .incrementing _ j _ => j < increments
  | .started | .finished => True

def holder (workers : List Worker) (i : Nat) : Option Nat := workers[i]?.bind Worker.entry

def entries (counters : List UInt64) : Set Nat := {entry | entry < counters.length}

/-- No entry has two live workers, and what a transaction has read is still there. -/
structure Crew (counters : List UInt64) (workers : List Worker) : Prop where
  exclusive : Exclusive (holder workers) (entries counters)
  read : ∀ (i : Nat) entry j counter, workers[i]? = some (.incrementing entry j counter) →
    counters[entry]? = some counter
  bounded : ∀ worker ∈ workers, worker.Bounded

inductive Works (counters : List UInt64) (taken : List Nat) :
    Worker → List UInt64 → Worker → List Event → Prop where
  | entered (entry : Nat) : entry ∉ taken →
      Works counters taken .started (grow counters entry) (.looping entry 0) []
  | read (entry j : Nat) (counter : UInt64) : j < increments → counters[entry]? = some counter →
      Works counters taken (.looping entry j) counters (.incrementing entry j counter) []
  | committed (entry j : Nat) (counter : UInt64) :
      Works counters taken (.incrementing entry j counter) (counters.set entry (counter + 1))
        (.looping entry (j + 1)) [.committed]
  | left (entry j : Nat) : ¬ j < increments →
      Works counters taken (.looping entry j) counters .finished []

section Workers

variable {counters counters' : List UInt64} {workers : List Worker} {worker worker' : Worker}
  {events : List Event} {taken : List Nat} {i n : Nat}

private theorem works_of_work {label : Label}
    (hwork : work counters taken worker label = some (counters', worker', events)) :
    Works counters taken worker counters' worker' events := by
  unfold work at hwork
  split at hwork
  · split at hwork
    · cases hwork
    · cases hwork
      exact .entered _ ‹_›
  · split at hwork
    · obtain ⟨counter, hcounter, heq⟩ := Option.map_eq_some_iff.mp hwork
      cases heq
      exact .read _ _ counter ‹_› hcounter
    · cases hwork
  · cases hwork
    exact .committed ..
  · split at hwork
    · cases hwork
    · cases hwork
      exact .left _ _ ‹_›
  · cases hwork

theorem holder_set (hi : workers[i]? = some worker) (worker' : Worker) :
    holder (workers.set i worker') = Function.update (holder workers) i worker'.entry := by
  funext k
  unfold holder
  by_cases hk : k = i
  · subst hk
    rw [Function.update_self, List.getElem?_set_self (List.getElem?_eq_some_iff.mp hi).1]
    rfl
  · rw [Function.update_of_ne hk, List.getElem?_set_ne (Ne.symm hk)]

theorem holder_of_getElem? (hi : workers[i]? = some worker) : holder workers i = worker.entry := by
  unfold holder
  rw [hi, Option.bind_some]

theorem holder_set_of_entry_eq (hi : workers[i]? = some worker)
    (hentry : worker'.entry = worker.entry) :
    holder (workers.set i worker') = holder workers := by
  rw [holder_set hi, hentry, ← holder_of_getElem? hi, Function.update_eq_self]

private theorem mem_taken_of_holder {k entry : Nat} (hk : holder workers k = some entry) :
    entry ∈ workers.filterMap Worker.entry := by
  obtain ⟨worker, hworker, hentry⟩ := Option.bind_eq_some_iff.mp hk
  exact List.mem_filterMap.mpr ⟨worker, List.mem_of_getElem? hworker, hentry⟩

theorem length_grow (counters : List UInt64) (entry : Nat) :
    (grow counters entry).length = max counters.length (entry + 1) := by
  unfold grow
  rw [List.length_append, List.length_replicate]
  omega

private theorem getElem?_grow {entry other : Nat} {counter : UInt64}
    (hother : counters[other]? = some counter) : (grow counters entry)[other]? = some counter := by
  unfold grow
  rw [List.getElem?_append_left (List.getElem?_eq_some_iff.mp hother).1]
  exact hother

private theorem forall_mem_set {motive : Worker → Prop} (hall : ∀ worker ∈ workers, motive worker)
    (hnew : motive worker') : ∀ worker ∈ workers.set i worker', motive worker := by
  intro worker hworker
  cases List.mem_or_eq_of_mem_set hworker with
  | inl hold => exact hall worker hold
  | inr heq => exact heq ▸ hnew

theorem Crew.set (hcrew : Crew counters workers)
    (hexclusive : Exclusive (holder (workers.set i worker')) (entries counters'))
    (hbounded : worker'.Bounded)
    (hself : ∀ entry j counter, worker' = .incrementing entry j counter →
      counters'[entry]? = some counter)
    (hothers : ∀ (k : Nat) entry j counter, k ≠ i →
      workers[k]? = some (.incrementing entry j counter) → counters'[entry]? = some counter) :
    Crew counters' (workers.set i worker') where
  exclusive := hexclusive
  read k entry j counter hk := by
    by_cases heq : k = i
    · subst heq
      rw [List.getElem?_set] at hk
      split at hk
      · split at hk
        · exact hself entry j counter (Option.some.inj hk)
        · cases hk
      · exact absurd rfl ‹_›
    · rw [List.getElem?_set_ne (Ne.symm heq)] at hk
      exact hothers k entry j counter heq hk
  bounded := forall_mem_set hcrew.bounded hbounded

theorem Crew.works (hcrew : Crew counters workers) (hi : workers[i]? = some worker)
    (hworks : Works counters (workers.filterMap Worker.entry) worker counters' worker' events) :
    Crew counters' (workers.set i worker') := by
  have hread := hcrew.read
  have hbounded := hcrew.bounded worker (List.mem_of_getElem? hi)
  cases hworks with
  | entered entry hfree =>
      apply hcrew.set
      · rw [holder_set hi]
        apply (hcrew.exclusive.mono _).refer
        · rw [entries, Set.mem_ofPred_eq, length_grow]
          omega
        · exact fun k hk => hfree (mem_taken_of_holder hk)
        · intro other hother
          rw [entries, Set.mem_ofPred_eq] at hother ⊢
          rw [length_grow]
          omega
      · exact Nat.zero_le _
      · nofun
      · exact fun k other j counter _ hk => getElem?_grow (hread k other j counter hk)
  | read entry j counter hj hcounter =>
      have hholder : holder (workers.set i (.incrementing entry j counter)) = holder workers :=
        holder_set_of_entry_eq hi rfl
      apply hcrew.set
      · rw [hholder]
        exact hcrew.exclusive
      · exact hj
      · rintro _ _ _ ⟨⟩
        exact hcounter
      · exact fun k other j counter _ hk => hread k other j counter hk
  | left entry j hj =>
      apply hcrew.set
      · rw [holder_set hi]
        exact hcrew.exclusive.release i
      · trivial
      · nofun
      · exact fun k other j counter _ hk => hread k other j counter hk
  | committed entry j counter =>
      have hholder : holder (workers.set i (.looping entry (j + 1))) = holder workers :=
        holder_set_of_entry_eq hi rfl
      apply hcrew.set
      · rw [hholder, entries, List.length_set]
        exact hcrew.exclusive
      · exact hbounded
      · nofun
      · intro k other j' counter' hk hother
        have hne : entry ≠ other := by
          intro heq
          subst heq
          apply hk
          apply hcrew.exclusive.unique k i entry _ (holder_of_getElem? hi)
          rw [holder_of_getElem? hother]
          rfl
        rw [List.getElem?_set_ne hne]
        exact hread k other j' counter' hother

private theorem works_addsUp (hcrew : Crew counters workers) (hi : workers[i]? = some worker)
    (hworks : Works counters taken worker counters' worker' events) {log : List Event}
    (hadds : AddsUp counters (committed log)) : AddsUp counters' (committed (log ++ events)) := by
  cases hworks with
  | entered entry hfree =>
      rw [List.append_nil]
      exact hadds.grow entry
  | read entry j counter hj hcounter =>
      rw [List.append_nil]
      exact hadds
  | left entry j hj =>
      rw [List.append_nil]
      exact hadds
  | committed entry j counter =>
      rw [committed_committed]
      exact hadds.increment (hcrew.read i entry j counter hi)

private theorem works_done (hbounded : worker.Bounded)
    (hworks : Works counters taken worker counters' worker' events) (log : List Event) :
    committed (log ++ events) + worker.done = committed log + worker'.done := by
  cases hworks with
  | entered entry hfree => simp [Worker.done]
  | read entry j counter hj hcounter => simp [Worker.done]
  | committed entry j counter =>
      rw [committed_committed, Worker.done, Worker.done]
      omega
  | left entry j hj =>
      have hj : j = increments := Nat.le_antisymm hbounded (Nat.le_of_not_lt hj)
      rw [List.append_nil, Worker.done, Worker.done, hj]

theorem Works.eachWhen (hworks : Works counters taken worker counters' worker' events)
    {log : List Event} {q : List Event → Event → Prop} (hlog : EachWhen q log)
    (hcommitted : q log .committed) : EachWhen q (log ++ events) := by
  cases hworks with
  | entered entry hfree => rwa [List.append_nil]
  | read entry j counter hj hcounter => rwa [List.append_nil]
  | left entry j hj => rwa [List.append_nil]
  | committed entry j counter => exact hlog.append_singleton hcommitted

private theorem works_not_finished
    (hworks : Works counters taken worker counters' worker' events) : worker ≠ .finished := by
  cases hworks <;> simp

end Workers

structure Running (counters : List UInt64) (log : List Event) (nthreads : UInt64)
    (workers : List Worker) (joined : Nat) : Prop where
  crew : Crew counters workers
  done : committed log = (workers.map Worker.done).sum
  created : workers.length ≤ nthreads.toNat
  joined : ∀ k < joined, workers[k]? = some .finished

private theorem running_nil (log : List Event) (nthreads : UInt64) (hcleared : committed log = 0) :
    Running [] log nthreads [] 0 where
  crew :=
    { exclusive := by constructor <;> simp [holder]
      read := by simp
      bounded := by simp }
  done := hcleared
  created := Nat.zero_le _
  joined := by simp

section Running

variable {counters : List UInt64} {log : List Event} {nthreads : UInt64} {workers : List Worker}
  {joined : Nat}

theorem getElem?_append_started {i : Nat} {worker : Worker}
    (hi : (workers ++ [.started])[i]? = some worker) :
    workers[i]? = some worker ∨ worker = .started := by
  cases getElem?_append_singleton_eq_some.mp hi with
  | inl hold => exact .inl hold
  | inr hnew => exact .inr hnew.2.symm

private theorem holder_append_started : holder (workers ++ [.started]) = holder workers := by
  funext i
  apply Option.ext
  intro entry
  unfold holder
  rw [Option.bind_eq_some_iff, Option.bind_eq_some_iff]
  constructor
  · intro ⟨worker, hworker, hentry⟩
    cases getElem?_append_started hworker with
    | inl hold => exact ⟨worker, hold, hentry⟩
    | inr hnew =>
        subst hnew
        cases hentry
  · intro ⟨worker, hworker, hentry⟩
    refine ⟨worker, ?_, hentry⟩
    rw [List.getElem?_append_left (List.getElem?_eq_some_iff.mp hworker).1]
    exact hworker

theorem Running.createWorker (hrunning : Running counters log nthreads workers joined)
    (hmore : workers.length < nthreads.toNat) :
    Running counters log nthreads (workers ++ [.started]) joined where
  crew :=
    { exclusive := by
        rw [holder_append_started]
        exact hrunning.crew.exclusive
      read := fun i entry j counter hi =>
        hrunning.crew.read i entry j counter ((getElem?_append_started hi).resolve_right nofun)
      bounded := by
        intro worker hworker
        cases List.mem_append.mp hworker with
        | inl hold => exact hrunning.crew.bounded worker hold
        | inr hnew =>
            rw [List.mem_singleton.mp hnew]
            trivial }
  done := by
    rw [hrunning.done]
    simp [Worker.done]
  created := by
    rw [List.length_append, List.length_singleton]
    exact hmore
  joined k hk := by
    have hold := hrunning.joined k hk
    rw [List.getElem?_append_left (List.getElem?_eq_some_iff.mp hold).1]
    exact hold

theorem Running.join (hrunning : Running counters log nthreads workers joined)
    (hfinished : workers[joined]? = some .finished) :
    Running counters log nthreads workers (joined + 1) where
  crew := hrunning.crew
  done := hrunning.done
  created := hrunning.created
  joined k hk := by
    cases Nat.lt_succ_iff_lt_or_eq.mp hk with
    | inl hlt => exact hrunning.joined k hlt
    | inr heq => exact heq ▸ hfinished

theorem Running.works (hrunning : Running counters log nthreads workers joined) {i : Nat}
    {worker worker' : Worker} {counters' : List UInt64} {events : List Event}
    (hi : workers[i]? = some worker)
    (hworks : Works counters (workers.filterMap Worker.entry) worker counters' worker' events) :
    Running counters' (log ++ events) nthreads (workers.set i worker') joined where
  crew := hrunning.crew.works hi hworks
  done := by
    have hdone := works_done (hrunning.crew.bounded worker (List.mem_of_getElem? hi)) hworks log
    have hset := sum_map_set_add hi Worker.done worker'
    have hold := hrunning.done
    omega
  created := by
    rw [List.length_set]
    exact hrunning.created
  joined k hk := by
    have hfinished := hrunning.joined k hk
    have hne : i ≠ k := by
      intro heq
      subst heq
      rw [hfinished] at hi
      exact works_not_finished hworks (Option.some.inj hi).symm
    rw [List.getElem?_set_ne hne]
    exact hfinished

theorem Running.committed_eq (hrunning : Running counters log nthreads workers joined)
    (hcreated : ¬ workers.length < nthreads.toNat) (hjoined : ¬ joined < workers.length) :
    committed log = increments * nthreads.toNat := by
  have hlength : workers.length = nthreads.toNat :=
    Nat.le_antisymm hrunning.created (Nat.le_of_not_lt hcreated)
  have hfinished : workers = List.replicate workers.length .finished := by
    apply List.eq_replicate_of_mem
    intro worker hworker
    obtain ⟨k, hk, rfl⟩ := List.getElem_of_mem hworker
    have hjoin := hrunning.joined k (by omega)
    rw [List.getElem?_eq_getElem hk] at hjoin
    exact Option.some.inj hjoin
  rw [hrunning.done, hfinished, List.map_replicate, List.sum_replicate, hlength, Worker.done]
  exact Nat.mul_comm ..

end Running

def Truthful (before : List Event) : Event → Prop
  | .printed counters => AddsUp counters (committed before)
  | .printedSum nthreads sum => committed before = 1000 * nthreads.toNat ∧
      sum = 1000 * nthreads ∧ (1000 * nthreads.toNat < 2 ^ 64 → sum.toNat = 1000 * nthreads.toNat)
  | .cleared | .committed => True

structure Inv (s : State) : Prop where
  addsUp : AddsUp s.counters (committed s.log)
  truthful : EachWhen Truthful s.log
  running : ∀ nthreads workers joined, s.process = .running nthreads workers joined →
    Running s.counters s.log nthreads workers joined

theorem Inv.of_idle {s : State} (haddsUp : AddsUp s.counters (committed s.log))
    (htruthful : EachWhen Truthful s.log)
    (hidle : ∀ nthreads workers joined, s.process ≠ .running nthreads workers joined) : Inv s where
  addsUp := haddsUp
  truthful := htruthful
  running nthreads workers joined hprocess := absurd hprocess (hidle nthreads workers joined)

private theorem truthful_printedSum {log : List Event} {counters : List UInt64} {nthreads : UInt64}
    (haddsUp : AddsUp counters (committed log))
    (hcommitted : committed log = increments * nthreads.toNat) :
    Truthful log (.printedSum nthreads counters.sum) := by
  have hsum : counters.sum = 1000 * nthreads := by
    rw [haddsUp.sum, hcommitted, UInt64.ofNat_mul, UInt64.ofNat_toNat]
    rfl
  refine ⟨hcommitted, hsum, fun hfits => ?_⟩
  rw [hsum, UInt64.toNat_mul]
  exact Nat.mod_eq_of_lt hfits

inductive Moves (s : State) : State → Prop where
  | opened (nthreads : UInt64) : Moves s { s with process := .opened nthreads }
  | printed (nthreads : UInt64) :
      Moves s ({ s with process := .printed nthreads }.record [.printed s.counters])
  | cleared (nthreads : UInt64) : Moves s
      ({ s with counters := [], process := .running nthreads [] 0 }.record [.cleared])
  | created (nthreads : UInt64) (workers : List Worker) (joined : Nat) :
      s.process = .running nthreads workers joined → workers.length < nthreads.toNat →
      Moves s { s with process := .running nthreads (workers ++ [.started]) joined }
  | worked (nthreads : UInt64) (workers : List Worker) (joined i : Nat)
      (worker worker' : Worker) (counters : List UInt64) (events : List Event) :
      s.process = .running nthreads workers joined → workers[i]? = some worker →
      Works s.counters (workers.filterMap Worker.entry) worker counters worker' events →
      Moves s ⟨counters, .running nthreads (workers.set i worker') joined, s.log ++ events⟩
  | joined (nthreads : UInt64) (workers : List Worker) (joined : Nat) :
      s.process = .running nthreads workers joined → workers[joined]? = some .finished →
      Moves s { s with process := .running nthreads workers (joined + 1) }
  | printedSum (nthreads : UInt64) (workers : List Worker) (joined : Nat) :
      s.process = .running nthreads workers joined → ¬ workers.length < nthreads.toNat →
      ¬ joined < workers.length →
      Moves s ({ s with process := .closing }.record [.printedSum nthreads s.counters.sum])
  | ended : Moves s { s with process := .down }

theorem moves_of_step {s t : State} {action : Action} (hstep : step s action = some t) :
    Moves s t := by
  unfold step at hstep
  split at hstep
  · cases hstep
    exact .opened _
  · cases hstep
    exact .printed _
  · cases hstep
    exact .cleared _
  · split at hstep
    · cases hstep
      exact .created _ _ _ ‹_› ‹_›
    · cases hstep
  · obtain ⟨worker, hworker, hrest⟩ := Option.bind_eq_some_iff.mp hstep
    obtain ⟨⟨counters, worker', events⟩, hwork, heq⟩ := Option.bind_eq_some_iff.mp hrest
    cases heq
    exact .worked _ _ _ _ worker worker' counters events ‹_› hworker (works_of_work hwork)
  · split at hstep
    · split at hstep
      · cases hstep
      · cases hstep
        exact .joined _ _ _ ‹_› ‹_›
    · cases hstep
  · split at hstep
    · cases hstep
    · have hall := not_or.mp ‹¬ (_ ∨ _)›
      cases hstep
      exact .printedSum _ _ _ ‹_› hall.1 hall.2
  · cases hstep
    exact .ended
  · cases hstep
    exact .ended
  · cases hstep

theorem Inv.preserved {s t : State} (hinv : Inv s) (hmoves : Moves s t) : Inv t := by
  cases hmoves with
  | opened nthreads => exact .of_idle hinv.addsUp hinv.truthful nofun
  | ended => exact .of_idle hinv.addsUp hinv.truthful nofun
  | printed nthreads =>
      refine .of_idle ?_ (hinv.truthful.append_singleton hinv.addsUp) nofun
      exact (committed_printed s.counters).symm ▸ hinv.addsUp
  | cleared nthreads =>
      refine ⟨?_, hinv.truthful.append_singleton trivial, ?_⟩
      · exact committed_cleared.symm ▸ addsUp_nil
      · rintro _ _ _ ⟨⟩
        exact running_nil _ nthreads committed_cleared
  | created nthreads workers joined hprocess hmore =>
      refine ⟨hinv.addsUp, hinv.truthful, ?_⟩
      rintro _ _ _ ⟨⟩
      exact (hinv.running _ _ _ hprocess).createWorker hmore
  | worked nthreads workers joined i worker worker' counters events hprocess hworker hworks =>
      have hrunning := hinv.running _ _ _ hprocess
      refine ⟨works_addsUp hrunning.crew hworker hworks hinv.addsUp, ?_, ?_⟩
      · exact hworks.eachWhen hinv.truthful trivial
      · rintro _ _ _ ⟨⟩
        exact hrunning.works hworker hworks
  | joined nthreads workers joined hprocess hfinished =>
      refine ⟨hinv.addsUp, hinv.truthful, ?_⟩
      rintro _ _ _ ⟨⟩
      exact (hinv.running _ _ _ hprocess).join hfinished
  | printedSum nthreads workers joined hprocess hcreated hjoined =>
      have hcommitted := (hinv.running _ _ _ hprocess).committed_eq hcreated hjoined
      refine .of_idle ?_ (hinv.truthful.append_singleton ?_) nofun
      · exact (committed_printedSum nthreads s.counters.sum).symm ▸ hinv.addsUp
      · exact truthful_printedSum hinv.addsUp hcommitted

/-- No increment is lost: the counters add up to what was committed since they were
cleared, and what is printed is right. -/
theorem counters_add_up (s : State) (hs : machine.Reachable s) :
    AddsUp s.counters (committed s.log) ∧ EachWhen Truthful s.log := by
  have hinv : Inv s := by
    apply hs.invariant (motive := Inv)
    · intro s hinit
      subst hinit
      exact .of_idle addsUp_nil eachWhen_nil nofun
    · intro s action t _ hinv hstep
      exact hinv.preserved (moves_of_step hstep)
  exact ⟨hinv.addsUp, hinv.truthful⟩

/-- Two workers, whose transactions overlap, are killed, and the program starts again. -/
theorem counters_add_up_restarted : ∃ s, machine.Reachable s ∧ s.counters = [2, 0, 1] ∧
    (s.counters.map UInt64.toNat).sum = committed s.log ∧ EachWhen Truthful s.log := by
  obtain ⟨s, hexecute, hcounters, hcommitted⟩ : ∃ s,
      System.execute step ⟨[], .down, []⟩
        [.openPool 2, .printStored, .clear, .createWorker, .work 0 (.localEntry 0), .work 0 .read,
          .work 0 .commit, .createWorker, .work 1 (.localEntry 2), .work 1 .read, .work 0 .read,
          .work 1 .commit, .work 0 .commit, .work 0 .read, .crash, .openPool 1,
          .printStored] = some s ∧
      s.counters = [2, 0, 1] ∧ committed s.log = 3 :=
    ⟨_, rfl, rfl, rfl⟩
  have hreachable : machine.Reachable s :=
    ⟨_, _, rfl, System.run_of_execute (fun _ _ _ hstep => hstep) hexecute⟩
  obtain ⟨haddsUp, htruthful⟩ := counters_add_up s hreachable
  refine ⟨s, hreachable, hcounters, haddsUp.exact ?_, htruthful⟩
  rw [hcommitted]
  decide

end SpackPlayground.DistributedCounter
