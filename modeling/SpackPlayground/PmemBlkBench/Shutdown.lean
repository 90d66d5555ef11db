import Mathlib.Algebra.Order.BigOperators.Group.Finset
import SpackPlayground.Library.Progress
import SpackPlayground.Library.Tally
import SpackPlayground.PmemBlkBench.Report

/-! How a run of `pmemblkbench` comes to its end: how many steps it can take, and
how much is still accessed once a call has failed. -/
namespace SpackPlayground.PmemBlkBench.Shutdown

open Library.Tally Library.Transition Striped.Layout Striped.Coverage
open Timing.Workers Workers Report

variable {Block : Type}

def rankOf (l : Local Block) : Nat :=
  (match l.pc with
    | .atBlock _ => l.strip.length + 3
    | .failing => 2
    | .atStripe => 1
    | .left => 0) + (l.stripes.map fun strip => strip.length + 2).sum

def unitRest (l : Local Block) : Nat :=
  match l.pc with
  | .atBlock _ => l.strip.length + 1
  | _ => 0

structure Narrow (unit : Nat) (l : Local Block) : Prop where
  rest : unitRest l ≤ unit
  strips : ∀ strip ∈ l.stripes, strip.length ≤ unit

section Steps

variable {invocation : Invocation} {data : Block} {i unit : Nat} {shared shared' : Shared Block}
  {l l' : Local Block} {label : Label Block}

theorem rankOf_atStrip_le (stripes : List (List UInt64)) (buf : Block) (strip : List UInt64) :
    rankOf (atStrip stripes buf strip) ≤
      strip.length + 2 + (stripes.map fun strip => strip.length + 2).sum := by
  cases strip <;> simp [rankOf, atStrip]

theorem rankOf_atStripes_le (buf : Block) (stripes : List (List UInt64)) :
    rankOf (atStripes buf stripes) ≤ (stripes.map fun strip => strip.length + 2).sum := by
  cases stripes with
  | nil => simp [rankOf, atStripes]
  | cons strip stripes => exact rankOf_atStrip_le stripes buf strip

private theorem rankOf_lt (hmoves : Moves invocation data i shared l label shared' l') :
    rankOf l' < rankOf l := by
  cases hmoves with
  | succeed blockOfs hpc _ =>
      refine (rankOf_atStrip_le _ _ _).trans_lt ?_
      simp [rankOf, hpc]
  | fail blockOfs left hpc => simp [rankOf, hpc]
  | storeFail hpc => simp [rankOf, hpc]
  | leave hpc _ => simp [rankOf, hpc]
  | goOn hpc _ =>
      refine (rankOf_atStripes_le _ _).trans_lt ?_
      simp [rankOf, hpc]

@[simp] theorem unitRest_atStrip (stripes : List (List UInt64)) (buf : Block)
    (strip : List UInt64) : unitRest (atStrip stripes buf strip) = strip.length := by
  cases strip <;> rfl

theorem Narrow.atStrip {stripes : List (List UInt64)} {strip : List UInt64} (buf : Block)
    (hstrip : strip.length ≤ unit) (hstrips : ∀ strip ∈ stripes, strip.length ≤ unit) :
    Narrow unit (atStrip stripes buf strip) where
  rest := by rwa [unitRest_atStrip]
  strips := by cases strip <;> exact hstrips

theorem Narrow.atStripes {stripes : List (List UInt64)} (buf : Block)
    (hstrips : ∀ strip ∈ stripes, strip.length ≤ unit) : Narrow unit (atStripes buf stripes) := by
  cases stripes with
  | nil => exact ⟨Nat.zero_le _, hstrips⟩
  | cons strip stripes =>
      exact .atStrip buf (hstrips strip List.mem_cons_self)
        fun other hother => hstrips other (List.mem_cons_of_mem _ hother)

theorem Narrow.preserved (hnarrow : Narrow unit l)
    (hmoves : Moves invocation data i shared l label shared' l') : Narrow unit l' := by
  cases hmoves with
  | succeed blockOfs hpc _ =>
      have hrest := hnarrow.rest
      simp only [unitRest, hpc] at hrest
      exact .atStrip _ (by omega) hnarrow.strips
  | fail blockOfs left hpc => exact ⟨Nat.zero_le _, hnarrow.strips⟩
  | storeFail hpc => exact ⟨Nat.zero_le _, hnarrow.strips⟩
  | leave hpc _ => exact ⟨Nat.zero_le _, nofun⟩
  | goOn hpc _ => exact .atStripes _ hnarrow.strips

private theorem unitRest_of_stopped {fail : Bool} (hstopped : Stopped fail l.pc) :
    unitRest l = 0 := by
  unfold unitRest
  cases hpc : l.pc with
  | atBlock =>
      rw [hpc] at hstopped
      exact hstopped.elim
  | _ => rfl

/-- Once the flag is set, or its own call has failed, a worker does not begin
another stripe. -/
private theorem rest_after (hmoves : Moves invocation data i shared l label shared' l')
    (hending : shared.fail = true ∨ Stopped shared.fail l.pc) :
    (shared'.fail = true ∨ Stopped shared'.fail l'.pc) ∧
      ∃ added, shared'.log = shared.log ++ added ∧ (∀ access ∈ added, access.worker = i) ∧
        added.length + unitRest l' ≤ unitRest l := by
  cases hmoves with
  | succeed blockOfs hpc _ =>
      refine ⟨.inl (hending.resolve_right (by simp [hpc, Stopped])), [⟨i, blockOfs, true⟩], rfl,
        by simp, ?_⟩
      rw [unitRest_atStrip]
      simp [unitRest, hpc, Nat.add_comm]
  | fail blockOfs left hpc =>
      refine ⟨.inr trivial, [⟨i, blockOfs, false⟩], rfl, by simp, ?_⟩
      simp [unitRest, hpc]
  | storeFail hpc => exact ⟨.inl rfl, [], by simp, by simp, by simp [unitRest]⟩
  | leave hpc hfail => exact ⟨.inl hfail, [], by simp, by simp, by simp [unitRest]⟩
  | goOn hpc hfail => simp [hpc, Stopped, hfail] at hending

end Steps

section Runs

variable {invocation : Invocation} {data : Block} {start : UInt64 → Block}
  {crew crew' : Crew invocation.args.nthreads.toNat (Shared Block) (Local Block)}
  {i : Fin invocation.args.nthreads.toNat}

private theorem accessesOf_append (log added : List Access) (i : Nat) :
    accessesOf (log ++ added) i = accessesOf log i ++ accessesOf added i := by
  simp [accessesOf]

private theorem accessesOf_of_ne {added : List Access} {i j : Nat} (hne : j ≠ i)
    (hadded : ∀ access ∈ added, access.worker = j) : accessesOf added i = [] := by
  unfold accessesOf
  rw [List.map_eq_nil_iff, List.filter_eq_nil_iff]
  intro access hmem hworker
  exact hne ((hadded access hmem).symm.trans (of_decide_eq_true hworker))

private theorem length_accessesOf_le (added : List Access) (i : Nat) :
    (accessesOf added i).length ≤ added.length := by
  unfold accessesOf
  rw [List.length_map]
  exact List.length_filter_le _ _

private theorem rest_step {move : Fin invocation.args.nthreads.toNat × Label Block}
    (hstep : (program invocation data start).system.step crew move crew')
    (hending : crew.shared.fail = true ∨ Stopped crew.shared.fail (crew.locals i).pc) :
    (crew'.shared.fail = true ∨ Stopped crew'.shared.fail (crew'.locals i).pc) ∧
      ∃ added, crew'.shared.log = crew.shared.log ++ added ∧
        (accessesOf added i.val).length + unitRest (crew'.locals i) ≤ unitRest (crew.locals i) := by
  obtain ⟨mover, label⟩ := move
  obtain ⟨shared, l, hwork, rfl⟩ := work_eq_some_iff.mp hstep
  have hmoves := moves_of_step hwork
  dsimp only at hmoves ⊢
  by_cases hi : i = mover
  · subst hi
    obtain ⟨hafter, added, hlog, _, hrest⟩ := rest_after hmoves hending
    have hlength := length_accessesOf_le added i.val
    refine ⟨?_, added, hlog, ?_⟩
    · rwa [Function.update_self]
    · rw [Function.update_self]
      omega
  · rw [Function.update_of_ne hi]
    have hother : mover.val ≠ i.val := fun heq => hi (Fin.ext heq.symm)
    cases hmoves with
    | succeed blockOfs hpc _ | fail blockOfs left hpc =>
        refine ⟨hending, [_], rfl, ?_⟩
        rw [accessesOf_of_ne hother (by simp)]
        simp
    | storeFail hpc => exact ⟨.inl rfl, [], by simp, by simp [accessesOf]⟩
    | leave | goOn => exact ⟨hending, [], by simp, by simp [accessesOf]⟩

private theorem log_step {move : Fin invocation.args.nthreads.toNat × Label Block}
    (hstep : (program invocation data start).system.step crew move crew') :
    ∃ added, crew'.shared.log = crew.shared.log ++ added := by
  obtain ⟨mover, label⟩ := move
  obtain ⟨shared, l, hwork, rfl⟩ := work_eq_some_iff.mp hstep
  cases moves_of_step hwork with
  | succeed | fail => exact ⟨[_], rfl⟩
  | storeFail | leave | goOn => exact ⟨[], (List.append_nil _).symm⟩

variable {moves : List (Fin invocation.args.nthreads.toNat × Label Block)}

theorem log_run (hrun : (program invocation data start).system.Run crew moves crew') :
    ∃ added, crew'.shared.log = crew.shared.log ++ added := by
  induction hrun with
  | nil => exact ⟨[], (List.append_nil _).symm⟩
  | cons hstep _ ih =>
      obtain ⟨first, hfirst⟩ := log_step hstep
      obtain ⟨added, hlog⟩ := ih
      exact ⟨first ++ added, by rw [hlog, hfirst, List.append_assoc]⟩

theorem rest_run (hrun : (program invocation data start).system.Run crew moves crew')
    (hending : crew.shared.fail = true ∨ Stopped crew.shared.fail (crew.locals i).pc)
    {added : List Access} (hlog : crew'.shared.log = crew.shared.log ++ added) :
    (accessesOf added i.val).length ≤ unitRest (crew.locals i) := by
  induction hrun generalizing added with
  | nil =>
      have hnone : added = [] := by simpa using hlog
      simp [hnone, accessesOf]
  | cons hstep hrest ih =>
      obtain ⟨hafter, first, hfirst, hfewer⟩ := rest_step hstep hending
      obtain ⟨others, hothers⟩ := log_run hrest
      have hadded : added = first ++ others := by
        rw [hothers, hfirst, List.append_assoc, List.append_cancel_left_eq] at hlog
        exact hlog.symm
      have hle := ih hafter hothers
      rw [hadded, accessesOf_append, List.length_append]
      omega

def rank (crew : Crew invocation.args.nthreads.toNat (Shared Block) (Local Block)) : Nat :=
  ∑ i, rankOf (crew.locals i)

theorem rank_step {move : Fin invocation.args.nthreads.toNat × Label Block}
    (hstep : (program invocation data start).system.step crew move crew') :
    rank crew' + 1 ≤ rank crew := by
  obtain ⟨shared, l, hwork, rfl⟩ := work_eq_some_iff.mp hstep
  have hlower := rankOf_lt (moves_of_step hwork)
  have hupdate := sum_update_add rankOf crew.locals move.1 l
  unfold rank
  dsimp only
  omega

theorem length_of_mem_workerStripes {i : UInt64} {strip : List UInt64}
    (hmem : strip ∈ workerStripes invocation i) :
    strip.length = invocation.args.blocksInStripUnit.toNat := by
  obtain ⟨stripe, _, rfl⟩ := List.mem_map.mp hmem
  simp [stripBlocks]

theorem narrow_of_reachable (hs : (program invocation data start).system.Reachable crew)
    (i : Fin invocation.args.nthreads.toNat) :
    Narrow invocation.args.blocksInStripUnit.toNat (crew.locals i) := by
  apply hs.invariant (motive := fun crew => ∀ i,
    Narrow invocation.args.blocksInStripUnit.toNat (crew.locals i))
  · rintro crew ⟨_, hlocals⟩ i
    rw [hlocals]
    exact .atStripes _ fun strip hmem => (length_of_mem_workerStripes hmem).le
  · intro crew move crew' _ hnarrow hstep
    obtain ⟨shared, l, hwork, rfl⟩ := work_eq_some_iff.mp hstep
    exact forall_update (motive := fun _ l => Narrow _ l)
      ((hnarrow move.1).preserved (moves_of_step hwork)) fun j _ => hnarrow j

def steps (args : Args) : Nat :=
  args.nthreads.toNat * (args.stripeCount.toNat * (args.blocksInStripUnit.toNat + 2))

private theorem rank_start_le (hinit : (program invocation data start).system.init crew) :
    rank crew ≤ steps invocation.args := by
  have hworker : ∀ i, rankOf (crew.locals i) ≤ invocation.args.stripeCount.toNat *
      (invocation.args.blocksInStripUnit.toNat + 2) := by
    intro i
    have hlengths : (workerStripes invocation (.ofNat i.val)).map (fun strip => strip.length + 2) =
        List.replicate invocation.args.stripeCount.toNat
          (invocation.args.blocksInStripUnit.toNat + 2) := by
      rw [List.eq_replicate_iff]
      constructor
      · simp [workerStripes]
      · intro k hk
        obtain ⟨strip, hmem, rfl⟩ := List.mem_map.mp hk
        rw [length_of_mem_workerStripes hmem]
    rw [hinit.2]
    refine (rankOf_atStripes_le _ _).trans_eq ?_
    rw [hlengths, List.sum_replicate_nat]
  calc
    rank crew ≤ ∑ _i : Fin invocation.args.nthreads.toNat, invocation.args.stripeCount.toNat *
        (invocation.args.blocksInStripUnit.toNat + 2) := Finset.sum_le_sum fun i _ => hworker i
    _ = steps invocation.args := by
      rw [Finset.sum_const, Finset.card_univ, Fintype.card_fin, Nat.nsmul_eq_mul, steps]

theorem rank_le_of_reachable (hs : (program invocation data start).system.Reachable crew) :
    rank crew ≤ steps invocation.args := by
  apply hs.invariant (motive := fun crew => rank crew ≤ steps invocation.args)
  · exact fun crew hinit => rank_start_le hinit
  · intro crew move crew' _ hle hstep
    have hlower := rank_step hstep
    omega

/-- Every run of the workers ends; once the flag is set a worker at most completes its
strip, and a worker whose own call has failed accesses nothing more. -/
theorem run_ends (invocation : Invocation) (data : Block) (start : UInt64 → Block)
    (crew : Crew invocation.args.nthreads.toNat (Shared Block) (Local Block))
    (hs : (program invocation data start).system.Reachable crew) :
    ((∃ i, (crew.locals i).pc ≠ .left) →
      ∃ move crew', (program invocation data start).system.step crew move crew') ∧
    (∀ moves crew', (program invocation data start).system.Run crew moves crew' →
      moves.length ≤ steps invocation.args ∧
      ∃ added, crew'.shared.log = crew.shared.log ++ added ∧
        (crew.shared.fail = true → ∀ i < invocation.args.nthreads.toNat,
          (accessesOf added i).length ≤ invocation.args.blocksInStripUnit.toNat) ∧
        ∀ access ∈ crew.shared.log, access.succeeded = false →
          accessesOf added access.worker = []) := by
  have hinv := inv_of_reachable hs
  constructor
  · rintro ⟨i, hi⟩
    obtain ⟨label, ⟨shared, l⟩, hstep⟩ :=
      (program invocation data start).live i crew.shared (crew.locals i) (by
        simpa [program] using hi)
    exact ⟨(i, label), _, work_eq_some_iff.mpr ⟨shared, l, hstep, rfl⟩⟩
  · intro moves crew' hrun
    have hlength := hrun.length_le rank (fun _ => 0)
      (fun _ _ _ _ hstep => rank_step hstep) hs
    have hrank := rank_le_of_reachable hs
    have hnone : (moves.map fun _ => 0).sum = 0 := by simp
    obtain ⟨added, hlog⟩ := log_run hrun
    refine ⟨by omega, added, hlog, ?_, ?_⟩
    · intro hfail i hi
      have hrest := rest_run (i := ⟨i, hi⟩) hrun (.inl hfail) hlog
      exact hrest.trans (narrow_of_reachable hs ⟨i, hi⟩).rest
    · intro access hmem hfailed
      have hworker := hinv.workers access hmem
      have hstopped := (hinv.courses ⟨access.worker, hworker⟩).stopped access hmem rfl hfailed
      have hrest := rest_run (i := ⟨access.worker, hworker⟩) hrun (.inr hstopped) hlog
      rw [unitRest_of_stopped hstopped] at hrest
      exact List.eq_nil_of_length_eq_zero (Nat.le_zero.mp hrest)

end Runs

theorem run_ends_twoWriters : ∃ crew,
    (program twoWriters 7 fun _ => 0).system.Reachable crew ∧
    crew.shared.log = [⟨0, 0, false⟩] ∧
    ∀ moves crew', (program twoWriters 7 fun _ => 0).system.Run crew moves crew' →
      moves.length ≤ steps twoBlocks ∧
      ∃ added, crew'.shared.log = crew.shared.log ++ added ∧ accessesOf added 0 = [] := by
  let first : Fin twoWriters.args.nthreads.toNat := ⟨0, by decide⟩
  obtain ⟨crew, hexecute, hlog⟩ : ∃ crew,
      System.execute (fun crew move => crew.work (program twoWriters 7 fun _ => 0) move.1 move.2)
        twoWritersCrew [(first, .fail 9)] = some crew ∧ crew.shared.log = [⟨0, 0, false⟩] :=
    ⟨_, rfl, rfl⟩
  have hreachable := reachable_of_execute ⟨rfl, rfl⟩ hexecute
  refine ⟨crew, hreachable, hlog, fun moves crew' hrun => ?_⟩
  obtain ⟨hlength, added, hadded, _, hfailed⟩ :=
    (run_ends twoWriters 7 (fun _ => 0) crew hreachable).2 moves crew' hrun
  exact ⟨hlength, added, hadded, hfailed ⟨0, 0, false⟩ (by simp [hlog]) rfl⟩

end SpackPlayground.PmemBlkBench.Shutdown
