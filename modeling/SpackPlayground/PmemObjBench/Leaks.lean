import SpackPlayground.Library.Ownership
import SpackPlayground.PmemObjBench.Invocations

/-! Who owns the data blocks. `pmemobjbench` opens a pool that may already hold
blocks, but it never frees one. -/
namespace SpackPlayground.PmemObjBench.Leaks

open Library.History Library.Ownership Library.Transition
open Objects AllocLoop Invocations

/-- Each block that was allocated, and none is ever freed, is referenced by
exactly one entry of `r->objs`. -/
def Referenced (pool : Pool) : Prop :=
  ∀ addr ∈ pool.heap, ∃! k : Nat, pool.objs[k]? = some ⟨some addr⟩

/-- An allocation is for an element that no block was allocated for, or that
has been dropped since; a resize drops no element that has a block. -/
def Spares (before : List Event) : Event → Prop
  | .resized n => ∀ k size, n ≤ k → ¬ LastAllocated before k size
  | .allocated _ blockOfs _ => ∀ size, ¬ LastAllocated before blockOfs.toNat size
  | .refused .. | .copied .. => True

def referent (pool : Pool) (k : Nat) : Option Addr := pool.objs[k]?.bind Object.data

def blocks (pool : Pool) : Set Addr := {addr | addr ∈ pool.heap}

section Pools

variable {pool : Pool} {k : Nat} {addr : Addr}

theorem referent_eq_some_iff : referent pool k = some addr ↔
    pool.objs[k]? = some ⟨some addr⟩ := by
  unfold referent
  rw [Option.bind_eq_some_iff]
  constructor
  · intro hreferent
    obtain ⟨⟨data⟩, hobj, hdata⟩ := hreferent
    cases hdata
    exact hobj
  · intro hobj
    exact ⟨_, hobj, rfl⟩

theorem referent_resize (n : Nat) :
    referent { pool with objs := resize pool.objs n } = drop (· < n) (referent pool) := by
  funext k
  apply Option.ext
  intro addr
  rw [drop_eq_some_iff, referent_eq_some_iff, referent_eq_some_iff]
  exact getElem?_resize pool.objs n k addr

theorem referent_allocate {blockOfs : UInt64} (hblock : blockOfs.toNat < pool.objs.length)
    (size : Nat) : referent (allocate pool blockOfs addr size) =
      Function.update (referent pool) blockOfs.toNat (some addr) := by
  funext k
  unfold referent allocate
  by_cases hk : k = blockOfs.toNat
  · subst hk
    rw [Function.update_self, List.getElem?_set_self hblock]
    rfl
  · rw [Function.update_of_ne hk, List.getElem?_set_ne (Ne.symm hk)]

theorem blocks_allocate {blockOfs : UInt64} (size : Nat) :
    blocks (allocate pool blockOfs addr size) = insert addr (blocks pool) := by
  ext other
  unfold blocks allocate
  rw [Set.mem_ofPred_eq, Finmap.mem_insert, Set.mem_insert_iff, Set.mem_ofPred_eq]

private theorem referenced_iff_covered (hpool : Exclusive (referent pool) (blocks pool)) :
    Referenced pool ↔ Covered (referent pool) (blocks pool) := by
  rw [hpool.covered_iff]
  unfold Referenced
  simp only [referent_eq_some_iff]
  rfl

variable {log : List Event}

theorem referent_eq_none_iff (hpool : Recorded pool log) :
    referent pool k = none ↔ ∀ size, ¬ LastAllocated log k size := by
  simp only [← hpool.tracks, liveSize_eq_some_iff, Option.eq_none_iff_forall_ne_some, ne_eq,
    referent_eq_some_iff]
  constructor
  · intro hnone size hlive
    obtain ⟨addr, hobj, _⟩ := hlive
    exact hnone addr hobj
  · intro hnone addr hobj
    obtain ⟨size, hsize⟩ := Finmap.mem_iff.mp (hpool.grounded k addr hobj)
    exact hnone size ⟨addr, hobj, hsize⟩

structure Owned (pool : Pool) (log : List Event) : Prop where
  exclusive : Exclusive (referent pool) (blocks pool)
  covered : Covered (referent pool) (blocks pool) ↔ EachWhen Spares log

private theorem owned_newPool : Owned newPool [] where
  exclusive := by constructor <;> simp [referent, newPool]
  covered := by
    apply iff_of_true _ eachWhen_nil
    intro addr hlive
    exact absurd hlive Finmap.notMem_empty

theorem Owned.resized (howned : Owned pool log) (hpool : Recorded pool log) (n : Nat) :
    Owned { pool with objs := resize pool.objs n } (log ++ [.resized n]) where
  exclusive := by
    rw [referent_resize]
    exact howned.exclusive.drop (· < n)
  covered := by
    rw [referent_resize, eachWhen_append_singleton_iff, ← howned.covered]
    apply (howned.exclusive.covered_drop_iff (· < n)).trans
    apply and_congr_right
    intro _
    simp only [referent_eq_none_iff hpool, Nat.not_lt, Spares]
    exact ⟨fun h k size hk => h k hk size, fun h k hk size => h k size hk⟩

theorem Owned.allocated (howned : Owned pool log) (hpool : Recorded pool log)
    {blockOfs : UInt64} (hfresh : addr ∉ pool.heap)
    (hblock : blockOfs.toNat < pool.objs.length) (i size : Nat) :
    Owned (allocate pool blockOfs addr size) (log ++ [.allocated i blockOfs size]) where
  exclusive := by
    rw [referent_allocate hblock, blocks_allocate]
    exact howned.exclusive.assign hfresh
  covered := by
    rw [referent_allocate hblock, blocks_allocate, eachWhen_append_singleton_iff,
      ← howned.covered, howned.exclusive.covered_assign_iff hfresh, referent_eq_none_iff hpool]
    rfl

theorem Owned.untouched (howned : Owned pool log) {event : Event} (hspares : Spares log event) :
    Owned pool (log ++ [event]) where
  exclusive := howned.exclusive
  covered := by
    rw [eachWhen_append_singleton_iff, ← howned.covered, and_iff_left hspares]

theorem Owned.preserved (howned : Owned pool log) (hpool : Recorded pool log) {pool' : Pool}
    {log' : List Event} (hchanges : Changes pool log pool' log') : Owned pool' log' := by
  cases hchanges with
  | same => exact howned
  | resized n => exact howned.resized hpool n
  | allocated i blockOfs addr size hfresh hblock =>
      exact howned.allocated hpool hfresh hblock i size
  | refused i blockOfs ret => exact howned.untouched trivial
  | copied i blockOfs size => exact howned.untouched trivial

end Pools

theorem owned_of_reachable {s : State} (hs : machine.Reachable s) : Owned s.pool s.log := by
  apply hs.invariant (motive := fun s => Owned s.pool s.log)
  · intro s hinit
    subst hinit
    exact owned_newPool
  · intro s action s' hreach howned hstep
    have hinv := inv_of_reachable hreach
    exact howned.preserved hinv.recorded (changes_of_step hinv.indexed hstep).1

/-- When no data block leaks. -/
theorem referenced_iff (s : State) (hs : machine.Reachable s) :
    Referenced s.pool ↔ EachWhen Spares s.log := by
  have howned := owned_of_reachable hs
  rw [referenced_iff_covered howned.exclusive, howned.covered]

def Writing (_ : State) : Action → Prop
  | .invoke invocation => invocation.args.opWrite = true
  | .resize .. | .work .. | .stop => True

instance (s : State) (action : Action) : Decidable (Writing s action) := by
  cases action <;> unfold Writing <;> infer_instance

theorem not_referenced_rewritten :
    ¬ ∀ s, (machine.restrict Writing).Reachable s → Referenced s.pool := by
  intro hall
  obtain ⟨s, hexecute, hlookup, hobjs⟩ : ∃ s,
      System.execute (fun s action => if Writing s action then step s action else none)
        (.down none [])
        [.invoke (twoStripes true), .resize 0, .work 0 (.makePersistent 7), .stop,
          .invoke (twoStripes true), .resize 0, .work 0 (.makePersistent 8)] = some s ∧
      s.pool.heap.lookup 7 = some 4096 ∧ s.pool.objs = [⟨some 8⟩, ⟨none⟩] :=
    ⟨_, rfl, rfl, rfl⟩
  have hreachable : (machine.restrict Writing).Reachable s :=
    ⟨_, _, rfl, System.run_of_execute
      (fun _ _ _ hnext => Option.ite_none_right_eq_some.mp hnext) hexecute⟩
  obtain ⟨k, hk, _⟩ := hall s hreachable 7 (Finmap.mem_iff.mpr ⟨4096, hlookup⟩)
  rw [hobjs] at hk
  match k with
  | 0 => simp at hk
  | 1 => simp at hk
  | k + 2 => simp at hk

theorem referenced_iff_written_once : ∃ s, machine.Reachable s ∧
    s.log = [.resized 2, .allocated 0 0 4096] ∧ Referenced s.pool := by
  obtain ⟨s, hexecute, hlog⟩ : ∃ s,
      System.execute step (.down none [])
        [.invoke (twoStripes true), .resize 0, .work 0 (.makePersistent 7)] = some s ∧
      s.log = [] ++ [.resized 2] ++ [.allocated 0 0 4096] :=
    ⟨_, rfl, rfl⟩
  have hreachable := reachable_of_execute hexecute
  apply Exists.intro s
  apply And.intro hreachable
  apply And.intro hlog
  apply (referenced_iff s hreachable).mpr
  have hempty (k size : Nat) : ¬ LastAllocated [] k size := by
    intro hlast
    obtain ⟨_, _, hlatest⟩ := hlast
    exact not_latest_nil hlatest
  have hresized (size : Nat) : ¬ LastAllocated ([] ++ [.resized 2]) 0 size := by
    rw [lastAllocated_append_singleton]
    simp [Touches, hempty]
  rw [hlog, eachWhen_append_singleton_iff, eachWhen_append_singleton_iff]
  exact ⟨⟨eachWhen_nil, fun k size _ => hempty k size⟩, hresized⟩

end SpackPlayground.PmemObjBench.Leaks
