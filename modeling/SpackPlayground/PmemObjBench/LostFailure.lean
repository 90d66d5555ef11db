import SpackPlayground.PmemObjBench.AllocLoop

/-! What the report of `pmemobjbench` says about failed allocations. Between the
store of a result in the shared `ret` and its test, another worker can store its
own result over it. -/
namespace SpackPlayground.PmemObjBench.LostFailure

open Library.Transition Striped.Layout Timing.Workers AllocLoop

def worker : Event → Option Nat
  | .resized _ => none
  | .allocated i _ _ | .refused i _ _ | .copied i _ _ _ => some i

def RefusedBy (log : List Event) (i : Nat) : Prop :=
  ∃ blockOfs ret, Event.refused i blockOfs ret ∈ log

def success (shared : Shared) : Bool := !shared.fail

def Stops (log : List Event) : Prop :=
  log.Pairwise fun earlier later =>
    ∀ i blockOfs ret, earlier = .refused i blockOfs ret → worker later ≠ some i

variable {n : Nat}

structure Honest (crew : Crew n Shared Local) : Prop where
  reported : (∀ i, (crew.locals i).pc = .left) → success crew.shared = true →
    ∀ i, ¬ RefusedBy crew.shared.log i
  stops : Stops crew.shared.log

/-- No worker stores a zero while another one has its failure in `ret` and has
not tested it yet. -/
def Unmasked (crew : Crew n Shared Local) (move : Fin n × Label) : Prop :=
  move.2 = .storeRet → (crew.locals move.1).pc = .returned 0 →
    ∀ j ≠ move.1, ∀ result, (crew.locals j).pc = .stored result → result = 0

def Stopped (fail : Bool) : Pc → Prop
  | .atBlock _ => False
  | .returned result | .stored result => result ≠ 0
  | .failing => True
  | .atStripe | .left => fail = true

theorem Stopped.of_fail {fail : Bool} {pc : Pc} (hstopped : Stopped fail pc) :
    Stopped true pc := by
  cases pc <;> first | exact hstopped | rfl

structure Inv (crew : Crew n Shared Local) : Prop where
  stopped : ∀ i, RefusedBy crew.shared.log i →
    ∃ k : Fin n, k.val = i ∧ Stopped crew.shared.fail (crew.locals k).pc
  visible : ∀ j result, (crew.locals j).pc = .stored result → result ≠ 0 → crew.shared.ret ≠ 0
  stops : Stops crew.shared.log

section Logs

variable {log : List Event} {event : Event} {i : Nat}

theorem refusedBy_append_iff : RefusedBy (log ++ [event]) i ↔
    RefusedBy log i ∨ ∃ blockOfs ret, event = .refused i blockOfs ret := by
  unfold RefusedBy
  simp only [List.mem_append, List.mem_singleton]
  constructor
  · intro hrefused
    obtain ⟨blockOfs, ret, hmem | heq⟩ := hrefused
    · exact .inl ⟨blockOfs, ret, hmem⟩
    · exact .inr ⟨blockOfs, ret, heq.symm⟩
  · intro hrefused
    cases hrefused with
    | inl hmem =>
        obtain ⟨blockOfs, ret, hmem⟩ := hmem
        exact ⟨blockOfs, ret, .inl hmem⟩
    | inr heq =>
        obtain ⟨blockOfs, ret, heq⟩ := heq
        exact ⟨blockOfs, ret, .inr heq.symm⟩

theorem Stops.append_singleton (hlog : Stops log) (hworker : worker event = some i)
    (hnot : ¬ RefusedBy log i) : Stops (log ++ [event]) := by
  unfold Stops at hlog ⊢
  rw [List.pairwise_append]
  refine ⟨hlog, List.pairwise_singleton _ _, ?_⟩
  intro earlier hearlier later hlater j blockOfs ret heq hlast
  rw [List.mem_singleton.mp hlater, hworker] at hlast
  cases hlast
  exact hnot ⟨blockOfs, ret, heq ▸ hearlier⟩

end Logs

section Steps

variable {crew : Crew n Shared Local} {i : Fin n} {l' : Local}

theorem Inv.stopped_moved (hinv : Inv crew) {log : List Event} {fail : Bool}
    (hfail : crew.shared.fail = true → fail = true)
    (hself : RefusedBy log i.val → Stopped fail l'.pc)
    (hothers : ∀ k, k ≠ i.val → RefusedBy log k → RefusedBy crew.shared.log k)
    (k : Nat) (hk : RefusedBy log k) :
    ∃ j : Fin n, j.val = k ∧ Stopped fail (Function.update crew.locals i l' j).pc := by
  by_cases hki : k = i.val
  · subst hki
    refine ⟨i, rfl, ?_⟩
    rw [Function.update_self]
    exact hself hk
  · obtain ⟨j, rfl, hstopped⟩ := hinv.stopped k (hothers k hki hk)
    refine ⟨j, rfl, ?_⟩
    rw [Function.update_of_ne fun hj => hki (congrArg Fin.val hj)]
    cases hold : crew.shared.fail with
    | true =>
        rw [hfail hold]
        exact hstopped.of_fail
    | false =>
        rw [hold] at hstopped
        cases fail with
        | true => exact hstopped.of_fail
        | false => exact hstopped

theorem Inv.visible_moved (hinv : Inv crew) (hpc : ∀ result, l'.pc ≠ .stored result) (j : Fin n)
    (result : Int) (hj : (Function.update crew.locals i l' j).pc = .stored result)
    (hresult : result ≠ 0) : crew.shared.ret ≠ 0 := by
  by_cases hji : j = i
  · subst hji
    rw [Function.update_self] at hj
    exact absurd hj (hpc result)
  · rw [Function.update_of_ne hji] at hj
    exact hinv.visible j result hj hresult

theorem Inv.not_refused (hinv : Inv crew)
    (hnot : ¬ Stopped crew.shared.fail (crew.locals i).pc) :
    ¬ RefusedBy crew.shared.log i.val := by
  intro hrefused
  obtain ⟨k, hk, hstopped⟩ := hinv.stopped i.val hrefused
  rw [Fin.ext hk] at hstopped
  exact hnot hstopped

theorem Inv.innocent (hinv : Inv crew) (hnot : ¬ RefusedBy crew.shared.log i.val)
    (hpc : ∀ result, l'.pc ≠ .stored result) :
    Inv { crew with locals := Function.update crew.locals i l' } where
  stopped := hinv.stopped_moved id (fun hrefused => absurd hrefused hnot) fun _ _ => id
  visible := hinv.visible_moved hpc
  stops := hinv.stops

theorem Inv.innocent_record (hinv : Inv crew) (hnot : ¬ RefusedBy crew.shared.log i.val)
    (hpc : ∀ result, l'.pc ≠ .stored result) {event : Event}
    (hworker : worker event = some i.val)
    (hevent : ∀ j blockOfs ret, event ≠ .refused j blockOfs ret) (pool : Objects.Pool) :
    Inv ⟨{ crew.shared with pool := pool }.record event,
      Function.update crew.locals i l'⟩ where
  stopped := by
    have hsame : ∀ k, RefusedBy (crew.shared.log ++ [event]) k → RefusedBy crew.shared.log k := by
      intro k hk
      apply (refusedBy_append_iff.mp hk).resolve_right
      rintro ⟨blockOfs, ret, heq⟩
      exact hevent k blockOfs ret heq
    exact hinv.stopped_moved id (fun hrefused => absurd (hsame _ hrefused) hnot)
      fun k _ => hsame k
  visible := hinv.visible_moved hpc
  stops := hinv.stops.append_singleton hworker hnot

theorem Inv.refused (hinv : Inv crew) {blockOfs : UInt64} {ret : Int} (hret : ret ≠ 0)
    (hpc : (crew.locals i).pc = .atBlock blockOfs) :
    Inv ⟨crew.shared.record (.refused i.val blockOfs ret),
      Function.update crew.locals i { crew.locals i with pc := .returned ret }⟩ where
  stopped := by
    refine hinv.stopped_moved id (fun _ => hret) fun k hk hrefused => ?_
    apply (refusedBy_append_iff.mp hrefused).resolve_right
    rintro ⟨_, _, heq⟩
    cases heq
    exact hk rfl
  visible := hinv.visible_moved nofun
  stops := hinv.stops.append_singleton rfl (hinv.not_refused (by simp [hpc, Stopped]))

theorem Inv.storeRet (hinv : Inv crew) {result : Int} (hpc : (crew.locals i).pc = .returned result)
    (hunmasked : Unmasked crew (i, .storeRet)) :
    Inv ⟨{ crew.shared with ret := result },
      Function.update crew.locals i { crew.locals i with pc := .stored result }⟩ where
  stopped := by
    refine hinv.stopped_moved id (fun hrefused => ?_) fun _ _ => id
    by_contra hzero
    exact hinv.not_refused (by rwa [hpc]) hrefused
  visible j result' hj hresult' := by
    have hj : (Function.update crew.locals i { crew.locals i with pc := .stored result } j).pc =
      .stored result' := hj
    by_cases hji : j = i
    · subst hji
      rw [Function.update_self] at hj
      cases hj
      exact hresult'
    · rw [Function.update_of_ne hji] at hj
      intro hzero
      have hzero : result = 0 := hzero
      rw [hzero] at hpc
      exact hresult' (hunmasked rfl hpc j hji result' hj)
  stops := hinv.stops

theorem Inv.testFailed (hinv : Inv crew) :
    Inv { crew with locals := Function.update crew.locals i { crew.locals i with pc := .failing } }
    where
  stopped := hinv.stopped_moved id (fun _ => trivial) fun _ _ => id
  visible := hinv.visible_moved nofun
  stops := hinv.stops

theorem Inv.storeFail (hinv : Inv crew) :
    Inv ⟨{ crew.shared with fail := true },
      Function.update crew.locals i { crew.locals i with pc := .atStripe }⟩ where
  stopped := hinv.stopped_moved (fun _ => rfl) (fun _ => rfl) fun _ _ => id
  visible := hinv.visible_moved nofun
  stops := hinv.stops

theorem Inv.leave (hinv : Inv crew) (hfail : crew.shared.fail = true) :
    Inv { crew with locals := Function.update crew.locals i ⟨.left, [], []⟩ } where
  stopped := hinv.stopped_moved id (fun _ => hfail) fun _ _ => id
  visible := hinv.visible_moved nofun
  stops := hinv.stops

theorem atStrip_ne_stored (stripes : List (List UInt64)) (strip : List UInt64) (result : Int) :
    (atStrip stripes strip).pc ≠ .stored result := by
  cases strip <;> nofun

theorem atStripes_ne_stored (stripes : List (List UInt64)) (result : Int) :
    (atStripes stripes).pc ≠ .stored result := by
  cases stripes with
  | nil => nofun
  | cons strip rest => exact atStrip_ne_stored rest strip result

theorem Inv.preserved (hinv : Inv crew) {invocation : Invocation} {label : Label}
    {shared' : Shared}
    (hmoves : Moves invocation i.val crew.shared (crew.locals i) label shared' l')
    (hunmasked : Unmasked crew (i, label)) :
    Inv ⟨shared', Function.update crew.locals i l'⟩ := by
  have hblock {blockOfs : UInt64} (hpc : (crew.locals i).pc = .atBlock blockOfs) :
      ¬ RefusedBy crew.shared.log i.val := hinv.not_refused (by simp [hpc, Stopped])
  cases hmoves with
  | xalloc blockOfs addr hpc _ =>
      exact hinv.innocent_record (hblock hpc) (by simp) rfl (by simp) _
  | refused blockOfs ret hpc => exact hinv.refused ret.property hpc
  | storeRet result hpc => exact hinv.storeRet hpc hunmasked
  | testFailed result hpc hret => exact hinv.testFailed
  | testPassed result hpc hret =>
      refine hinv.innocent ?_ (atStrip_ne_stored _ _)
      apply hinv.not_refused
      rw [hpc]
      exact fun hresult => hinv.visible i result hpc hresult hret
  | storeFail hpc => exact hinv.storeFail
  | leave hpc hfail => exact hinv.leave hfail
  | goOn hpc hfail =>
      refine hinv.innocent (hinv.not_refused ?_) (atStripes_ne_stored _)
      simp [hpc, hfail, Stopped]
  | makePersistent blockOfs addr hpc _ =>
      exact hinv.innocent_record (hblock hpc) (atStrip_ne_stored _ _) rfl (by simp) _
  | copy blockOfs hpc _ =>
      exact hinv.innocent_record (hblock hpc) (atStrip_ne_stored _ _) rfl (by simp) crew.shared.pool

end Steps

theorem inv_of_reachable {invocation : Invocation}
    {crew : Crew invocation.args.nthreads.toNat Shared Local}
    (hcrew : ((program invocation).system.restrict Unmasked).Reachable crew) : Inv crew := by
  apply hcrew.invariant (motive := Inv)
  · rintro crew ⟨⟨_, hlog⟩, hlocals⟩
    refine ⟨?_, ?_, ?_⟩
    · rintro i ⟨_, _, hmem⟩
      rw [hlog] at hmem
      cases hmem
    · intro j result hj
      rw [hlocals] at hj
      exact absurd hj (atStripes_ne_stored _ result)
    · rw [hlog]
      exact .nil
  · rintro crew ⟨i, label⟩ crew' _ hinv ⟨hunmasked, hwork⟩
    obtain ⟨shared', l', hstep, rfl⟩ := work_eq_some_iff.mp hwork
    exact hinv.preserved (moves_of_step hstep) hunmasked

theorem Inv.honest {crew : Crew n Shared Local} (hinv : Inv crew) : Honest crew where
  reported hleft hsuccess i hrefused := by
    obtain ⟨k, _, hstopped⟩ := hinv.stopped i hrefused
    rw [hleft k] at hstopped
    have hfail : crew.shared.fail = true := hstopped
    simp [success, hfail] at hsuccess
  stops := hinv.stops

private theorem goes_on_of_masked {invocation : Invocation}
    {crew : Crew invocation.args.nthreads.toNat Shared Local}
    {i j : Fin invocation.args.nthreads.toNat} {result : Int} (hji : j ≠ i)
    (hi : (crew.locals i).pc = .returned 0) (hj : (crew.locals j).pc = .stored result) :
    ∃ crew', (program invocation).system.Run crew [(i, .storeRet), (j, .testRet)] crew' ∧
      crew'.locals j = atStrip (crew.locals j).stripes (crew.locals j).strip ∧
      crew'.shared.fail = crew.shared.fail := by
  let masked : Crew invocation.args.nthreads.toNat Shared Local :=
    ⟨{ crew.shared with ret := 0 },
      Function.update crew.locals i { crew.locals i with pc := .stored 0 }⟩
  have hlocal : masked.locals j = crew.locals j := Function.update_of_ne hji ..
  have hstore : crew.work (program invocation) i .storeRet = some masked := by
    refine work_eq_some_iff.mpr ⟨_, _, ?_, rfl⟩
    simp only [program, step, hi]
  have htest : masked.work (program invocation) j .testRet = some
      { masked with
        locals := Function.update masked.locals j
          (atStrip (crew.locals j).stripes (crew.locals j).strip) } := by
    refine work_eq_some_iff.mpr ⟨_, _, ?_, rfl⟩
    simp only [program, step, hlocal, hj]
    rfl
  exact ⟨_, .cons hstore (.single htest), Function.update_self .., rfl⟩

/-- The report is honest in every run that masks no failure; where a run is
about to mask one, the worker whose call failed can go on unnoticed. -/
theorem failure_reported (invocation : Invocation) :
    (∀ crew, ((program invocation).system.restrict Unmasked).Reachable crew → Honest crew) ∧
    ∀ crew i, ¬ Unmasked crew (i, .storeRet) →
      ∃ j crew', (program invocation).system.Run crew [(i, .storeRet), (j, .testRet)] crew' ∧
        (∃ result ≠ 0, (crew.locals j).pc = .stored result) ∧
        crew'.locals j = atStrip (crew.locals j).stripes (crew.locals j).strip ∧
        crew'.shared.fail = crew.shared.fail := by
  refine ⟨fun crew hcrew => (inv_of_reachable hcrew).honest, ?_⟩
  intro crew i hmasked
  unfold Unmasked at hmasked
  push Not at hmasked
  obtain ⟨_, hi, j, hji, result, hj, hresult⟩ := hmasked
  obtain ⟨crew', hrun, hlocal, hfail⟩ := goes_on_of_masked hji hi hj
  exact ⟨j, crew', hrun, ⟨result, hresult, hj⟩, hlocal, hfail⟩

def twoBlocks : Args where
  blockSize := 512
  stripeSize := 1024
  nthreads := 2
  totalSize := 1024
  opRead := false
  opWrite := true

def twoWriters : Invocation where
  args := twoBlocks
  opAlloc := false
  accessOffset := [0]
  accepted := by constructor <;> decide
  shuffled := by unfold AccessOffset; decide

def twoWritersCrew : Crew twoWriters.args.nthreads.toNat Shared Local :=
  ⟨⟨0, false, ⟨[⟨none⟩, ⟨none⟩], ∅⟩, []⟩, (program twoWriters).start⟩

theorem twoWritersCrew_init : (program twoWriters).system.init twoWritersCrew :=
  ⟨⟨rfl, rfl⟩, rfl⟩

/-- The first writer fails and says so; the second one is about to store over
a failure that has not been tested. -/
theorem failure_reported_twoWriters :
    (∃ crew, ((program twoWriters).system.restrict Unmasked).Reachable crew ∧ Honest crew ∧
      crew.shared.fail = true ∧ RefusedBy crew.shared.log 0) ∧
    ∃ crew, (program twoWriters).system.Reachable crew ∧
      ∃ j crew', (program twoWriters).system.Run crew
          [(⟨1, by decide⟩, .storeRet), (j, .testRet)] crew' ∧
        crew'.shared.fail = false ∧ RefusedBy crew.shared.log 0 := by
  let first : Fin twoWriters.args.nthreads.toNat := ⟨0, by decide⟩
  let second : Fin twoWriters.args.nthreads.toNat := ⟨1, by decide⟩
  constructor
  · obtain ⟨crew, hrun, hfail, hlog⟩ : ∃ crew,
        ((program twoWriters).system.restrict Unmasked).Run twoWritersCrew
          [(first, .xalloc (.failed ⟨-1, by decide⟩)), (first, .storeRet), (first, .testRet),
            (first, .storeFail)] crew ∧
        crew.shared.fail = true ∧ crew.shared.log = [.refused 0 0 (-1)] :=
      ⟨_, .cons ⟨nofun, rfl⟩ (.cons ⟨fun _ hpc => absurd hpc (by decide), rfl⟩
        (.cons ⟨nofun, rfl⟩ (.cons ⟨nofun, rfl⟩ (.nil _)))), rfl, rfl⟩
    have hreachable : ((program twoWriters).system.restrict Unmasked).Reachable crew :=
      ⟨_, _, twoWritersCrew_init, hrun⟩
    refine ⟨crew, hreachable, (failure_reported twoWriters).1 crew hreachable, hfail, 0, -1, ?_⟩
    rw [hlog]
    exact List.mem_singleton_self _
  · obtain ⟨crew, hexecute, hsecond, hfirst, hfail, hlog⟩ : ∃ crew,
        System.execute (fun crew move => crew.work (program twoWriters) move.1 move.2)
          twoWritersCrew
          [(first, .xalloc (.failed ⟨-1, by decide⟩)), (second, .xalloc (.allocated 0)),
            (first, .storeRet)] = some crew ∧
        (crew.locals second).pc = .returned 0 ∧ (crew.locals first).pc = .stored (-1) ∧
        crew.shared.fail = false ∧
        crew.shared.log = [.refused 0 0 (-1), .allocated 1 1 512] :=
      ⟨_, rfl, rfl, rfl, rfl, rfl⟩
    have hmasked : ¬ Unmasked crew (second, .storeRet) := fun hunmasked =>
      absurd (hunmasked rfl hsecond first (by decide) (-1) hfirst) (by decide)
    obtain ⟨j, crew', hrun, _, _, hsame⟩ :=
      (failure_reported twoWriters).2 crew second hmasked
    refine ⟨crew, reachable_of_execute twoWritersCrew_init hexecute, j, crew', hrun,
      hsame.trans hfail, 0, -1, ?_⟩
    rw [hlog]
    exact List.mem_cons_self

theorem not_honest_twoWriters : ¬ ∀ invocation : Invocation,
    invocation.args.opWrite = true → invocation.opAlloc = false →
    ∀ crew, (program invocation).system.Reachable crew → Honest crew := by
  intro hall
  let first : Fin twoWriters.args.nthreads.toNat := ⟨0, by decide⟩
  let second : Fin twoWriters.args.nthreads.toNat := ⟨1, by decide⟩
  obtain ⟨crew, hexecute, hleft, hfail, hlog⟩ : ∃ crew,
      System.execute (fun crew move => crew.work (program twoWriters) move.1 move.2)
        twoWritersCrew
        [(first, .xalloc (.failed ⟨-1, by decide⟩)), (second, .xalloc (.allocated 0)),
          (first, .storeRet), (second, .storeRet), (first, .testRet), (second, .testRet),
          (first, .testFail), (second, .testFail)] = some crew ∧
      (∀ i, (crew.locals i).pc = .left) ∧ crew.shared.fail = false ∧
      crew.shared.log = [.refused 0 0 (-1), .allocated 1 1 512] :=
    ⟨_, rfl, by decide, rfl, rfl⟩
  have hreachable := reachable_of_execute twoWritersCrew_init hexecute
  have hhonest := hall twoWriters rfl rfl crew hreachable
  refine hhonest.reported hleft (by simp [success, hfail]) 0 ⟨0, -1, ?_⟩
  rw [hlog]
  exact List.mem_cons_self

end SpackPlayground.PmemObjBench.LostFailure
