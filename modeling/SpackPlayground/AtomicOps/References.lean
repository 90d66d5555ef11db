import SpackPlayground.AtomicOps.Code
import SpackPlayground.Library.Ownership

/-! What the root pointers of `pmemobj_atomic_ops` refer to. The transaction frees
their objects without setting them to null. -/
namespace SpackPlayground.AtomicOps

open Library.Ownership Library.Transition

/-- No dangling pointer, no object freed twice, and none without its pointer. -/
structure Sound (s : State) : Prop where
  refers : ∀ slot addr, s.pool.root slot = some addr → addr ∈ s.pool.heap
  defined : s.process ≠ .undefined
  owned : ∀ addr ∈ s.pool.heap, ∃! slot, s.pool.root slot = some addr

/-- An allocation is for a pointer that is null, and the transaction does not commit. -/
def Spares (s : State) : Action → Prop
  | .xalloc (.allocated _) => ∀ slot randData, s.process = .allocating slot randData →
      s.pool.root slot = none
  | .transaction .commit => False
  | _ => True

def live (pool : Pool) : Set Addr := {addr | addr ∈ pool.heap}

def Slot.index : Slot → Nat
  | .ptr => 0
  | .ptr2 => 1
  | .ptr3 => 2

def Assigned : Process → Slot → Prop
  | .allocating current _, slot => slot.index < current.index
  | .deleting _, _ => True
  | .down, _ | .undefined, _ => False

instance (process : Process) : DecidablePred (Assigned process) := by
  intro slot
  cases process <;> unfold Assigned <;> infer_instance

/-- The pointers set in this round refer to different live objects. -/
structure Inv (s : State) : Prop where
  defined : s.process ≠ .undefined
  assigned : ∀ slot, Assigned s.process slot → s.pool.root slot ≠ none
  exclusive : Exclusive (drop (Assigned s.process) s.pool.root) (live s.pool)

section Steps

variable {s t : State}

private theorem not_assigned {process : Process} (hnone : ∀ slot, ¬ Assigned process slot)
    (root : Slot → Option Addr) (objects : Set Addr) :
    Exclusive (drop (Assigned process) root) objects where
  live slot _ hslot := absurd (drop_eq_some_iff.mp hslot).1 (hnone slot)
  unique slot _ _ hslot _ := absurd (drop_eq_some_iff.mp hslot).1 (hnone slot)

theorem not_assigned_first (randData : List UInt8) (slot : Slot) :
    ¬ Assigned (.allocating .ptr randData) slot := Nat.not_lt_zero _

theorem assigned_afterAllocation {randData : List UInt8} {current slot : Slot} :
    Assigned (afterAllocation randData current) slot ↔
      slot = current ∨ Assigned (.allocating current randData) slot := by
  cases current <;> cases slot <;> simp [afterAllocation, Assigned, Slot.index]

private theorem drop_makePersistentAtomic (pool : Pool) (slot : Slot) (addr : Addr)
    (randData : List UInt8) (offset : Int64) :
    drop (Assigned (afterAllocation randData slot))
        (makePersistentAtomic pool slot addr randData offset).root =
      Function.update (drop (Assigned (.allocating slot randData)) pool.root) slot (some addr) := by
  funext other
  apply Option.ext
  intro found
  rw [drop_eq_some_iff, assigned_afterAllocation, makePersistentAtomic, update_eq_some_iff,
    update_eq_some_iff, drop_eq_some_iff]
  have hself : ¬ Assigned (.allocating slot randData) slot := Nat.lt_irrefl _
  constructor
  · rintro ⟨heq | hold, hnew | hkept⟩
    · exact .inl hnew
    · exact absurd heq hkept.1
    · exact .inl hnew
    · exact .inr ⟨hkept.1, hold, hkept.2⟩
  · rintro (hnew | ⟨hne, hold, hkept⟩)
    · exact ⟨.inl hnew.1, .inl hnew⟩
    · exact ⟨.inr hold, .inr ⟨hne, hkept⟩⟩

theorem live_makePersistentAtomic (pool : Pool) (slot : Slot) (addr : Addr)
    (randData : List UInt8) (offset : Int64) :
    live (makePersistentAtomic pool slot addr randData offset) = insert addr (live pool) := by
  ext other
  simp [live, makePersistentAtomic, Finmap.mem_insert]

inductive Moves (s : State) : Action → State → Prop where
  | started (randData : List UInt8) : s.process = .down →
      Moves s (.start randData) { s with process := .allocating .ptr randData }
  | allocated (slot : Slot) (randData : List UInt8) (addr : Addr) :
      s.process = .allocating slot randData → addr ∉ s.pool.heap →
      Moves s (.xalloc (.allocated addr))
        ⟨makePersistentAtomic s.pool slot addr randData 0, afterAllocation randData slot⟩
  | ended (action : Action) : s.process ≠ .undefined → Spares s action →
      Moves s action { s with process := .down }
  | committed (randData : List UInt8) (pool : Pool) : s.process = .deleting randData →
      deleteAll s.pool = some pool →
      Moves s (.transaction .commit) ⟨pool, .allocating .ptr randData⟩
  | undefined (randData : List UInt8) : s.process = .deleting randData →
      deleteAll s.pool = none →
      Moves s (.transaction .commit) { s with process := .undefined }

theorem moves_of_step {action : Action} (hstep : step s action = some t) : Moves s action t := by
  cases action with
  | start randData =>
      cases hprocess : s.process <;> simp only [step, hprocess, reduceCtorEq] at hstep
      cases hstep
      exact .started randData hprocess
  | crash =>
      cases hprocess : s.process with
      | undefined => simp [step, hprocess] at hstep
      | down | allocating _ _ | deleting _ =>
          simp only [step, hprocess] at hstep
          cases hstep
          exact .ended _ (by simp [hprocess]) trivial
  | xalloc outcome =>
      cases hprocess : s.process with
      | allocating slot randData =>
          cases outcome with
          | failed =>
              simp only [step, hprocess] at hstep
              cases hstep
              exact .ended _ (by simp [hprocess]) trivial
          | allocated addr =>
              simp only [step, hprocess] at hstep
              split at hstep
              · cases hstep
              · cases hstep
                exact .allocated slot randData addr hprocess ‹_›
      | down | deleting _ | undefined => simp [step, hprocess] at hstep
  | transaction outcome =>
      cases hprocess : s.process with
      | deleting randData =>
          cases outcome with
          | abort =>
              simp only [step, hprocess] at hstep
              cases hstep
              exact .ended _ (by simp [hprocess]) trivial
          | commit =>
              simp only [step, hprocess] at hstep
              split at hstep
              · cases hstep
                exact .committed randData _ hprocess ‹_›
              · cases hstep
                exact .undefined randData hprocess ‹_›
      | down | allocating _ _ | undefined => simp [step, hprocess] at hstep

theorem deletePersistent_of_mem {heap : Finmap fun _ : Addr => InlineWriteRequest} {addr : Addr}
    (hlive : addr ∈ heap) : deletePersistent heap (some addr) = some (heap.erase addr) :=
  if_pos hlive

theorem Inv.exists_refers (hinv : Inv s) {slot : Slot} (hslot : Assigned s.process slot) :
    ∃ addr, s.pool.root slot = some addr ∧ addr ∈ s.pool.heap := by
  obtain ⟨addr, haddr⟩ := Option.ne_none_iff_exists'.mp (hinv.assigned slot hslot)
  exact ⟨addr, haddr, hinv.exclusive.live slot addr (drop_eq_some_iff.mpr ⟨hslot, haddr⟩)⟩

theorem Inv.deleteAll_eq (hinv : Inv s) {randData : List UInt8}
    (hprocess : s.process = .deleting randData) :
    ∃ heap, deleteAll s.pool = some { s.pool with heap := heap } ∧
      ∀ addr ∈ heap, ∀ slot, s.pool.root slot ≠ some addr := by
  have hassigned (slot : Slot) : Assigned s.process slot := by
    rw [hprocess]
    trivial
  have hne {j k : Slot} {a b : Addr} (hjk : j ≠ k) (ha : s.pool.root j = some a)
      (hb : s.pool.root k = some b) : b ≠ a := by
    intro heq
    apply hjk
    rw [heq] at hb
    exact hinv.exclusive.unique j k a (drop_eq_some_iff.mpr ⟨hassigned j, ha⟩)
      (drop_eq_some_iff.mpr ⟨hassigned k, hb⟩)
  obtain ⟨a, ha, halive⟩ := hinv.exists_refers (hassigned .ptr)
  obtain ⟨b, hb, hblive⟩ := hinv.exists_refers (hassigned .ptr2)
  obtain ⟨c, hc, hclive⟩ := hinv.exists_refers (hassigned .ptr3)
  have hba := hne (by decide : Slot.ptr ≠ .ptr2) ha hb
  have hca := hne (by decide : Slot.ptr ≠ .ptr3) ha hc
  have hcb := hne (by decide : Slot.ptr2 ≠ .ptr3) hb hc
  have hb' : b ∈ s.pool.heap.erase a := Finmap.mem_erase.mpr ⟨hba, hblive⟩
  have hc' : c ∈ (s.pool.heap.erase a).erase b :=
    Finmap.mem_erase.mpr ⟨hcb, Finmap.mem_erase.mpr ⟨hca, hclive⟩⟩
  refine ⟨((s.pool.heap.erase a).erase b).erase c, ?_, ?_⟩
  · unfold deleteAll
    rw [ha, hb, hc, deletePersistent_of_mem halive]
    simp [deletePersistent_of_mem hb', deletePersistent_of_mem hc']
  · intro addr haddr slot
    simp only [Finmap.mem_erase] at haddr
    cases slot with
    | ptr =>
        rw [ha]
        exact fun heq => haddr.2.2.1 (Option.some.inj heq).symm
    | ptr2 =>
        rw [hb]
        exact fun heq => haddr.2.1 (Option.some.inj heq).symm
    | ptr3 =>
        rw [hc]
        exact fun heq => haddr.1 (Option.some.inj heq).symm

theorem Inv.of_unassigned {process : Process} (pool : Pool) (hdefined : process ≠ .undefined)
    (hnone : ∀ slot, ¬ Assigned process slot) : Inv ⟨pool, process⟩ where
  defined := hdefined
  assigned slot hslot := absurd hslot (hnone slot)
  exclusive := not_assigned hnone ..

theorem Inv.preserved (hinv : Inv s) {action : Action} (hmoves : Moves s action t) : Inv t := by
  cases hmoves with
  | started randData hprocess =>
      exact .of_unassigned _ (by simp) (not_assigned_first randData)
  | ended action hdefined hspares => exact .of_unassigned _ (by simp) fun _ => id
  | committed randData pool hprocess hdelete =>
      exact .of_unassigned _ (by simp) (not_assigned_first randData)
  | undefined randData hprocess hdelete =>
      obtain ⟨heap, hheap, _⟩ := hinv.deleteAll_eq hprocess
      rw [hheap] at hdelete
      cases hdelete
  | allocated slot randData addr hprocess hfresh =>
      refine ⟨?_, ?_, ?_⟩
      · cases slot <;> simp [afterAllocation]
      · intro other hother
        change Function.update s.pool.root slot (some addr) other ≠ none
        by_cases heq : other = slot
        · rw [heq, Function.update_self]
          simp
        · rw [Function.update_of_ne heq]
          apply hinv.assigned
          rw [hprocess]
          exact (assigned_afterAllocation.mp hother).resolve_left heq
      · rw [drop_makePersistentAtomic, live_makePersistentAtomic, ← hprocess]
        exact hinv.exclusive.assign hfresh

theorem inv_of_reachable (hs : machine.Reachable s) : Inv s := by
  apply hs.invariant (motive := Inv)
  · intro s hinit
    subst hinit
    exact .of_unassigned _ (by simp) fun _ => id
  · intro s action t _ hinv hstep
    exact hinv.preserved (moves_of_step hstep)

theorem sound_iff_exclusive : Sound s ↔ s.process ≠ .undefined ∧
    Exclusive s.pool.root (live s.pool) ∧ Covered s.pool.root (live s.pool) := by
  constructor
  · intro hsound
    have hexclusive : Exclusive s.pool.root (live s.pool) :=
      { live := hsound.refers
        unique := fun j k addr hj hk =>
          (hsound.owned addr (hsound.refers j addr hj)).unique hj hk }
    exact ⟨hsound.defined, hexclusive, hexclusive.covered_iff.mpr hsound.owned⟩
  · intro ⟨hdefined, hexclusive, hcovered⟩
    exact ⟨hexclusive.live, hdefined, hexclusive.covered_iff.mp hcovered⟩

theorem Sound.of_pool_eq (hsound : Sound s) (hpool : t.pool = s.pool)
    (hdefined : t.process ≠ .undefined) : Sound t := by
  rw [sound_iff_exclusive, hpool]
  exact ⟨hdefined, (sound_iff_exclusive.mp hsound).2⟩

theorem Inv.sound_iff_spares (hinv : Inv s) (hsound : Sound s) {action : Action}
    (hmoves : Moves s action t) : Sound t ↔ Spares s action := by
  have hinv' := hinv.preserved hmoves
  cases hmoves with
  | started randData hprocess => exact iff_of_true (hsound.of_pool_eq rfl hinv'.defined) trivial
  | ended action hdefined hspares => exact iff_of_true (hsound.of_pool_eq rfl hinv'.defined) hspares
  | undefined randData hprocess hdelete => exact absurd rfl hinv'.defined
  | committed randData pool hprocess hdelete =>
      apply iff_of_false _ id
      intro hsound'
      obtain ⟨heap, hheap, hfreed⟩ := hinv.deleteAll_eq hprocess
      rw [hheap] at hdelete
      cases hdelete
      obtain ⟨addr, haddr, _⟩ := hinv.exists_refers
        (show Assigned s.process .ptr by rw [hprocess]; trivial)
      exact hfreed addr (hsound'.refers .ptr addr haddr) .ptr haddr
  | allocated slot randData addr hprocess hfresh =>
      obtain ⟨_, hexclusive, hcovered⟩ := sound_iff_exclusive.mp hsound
      have hspares : Spares s (.xalloc (.allocated addr)) ↔ s.pool.root slot = none := by
        simp [Spares, hprocess]
      have hassign := hexclusive.covered_assign_iff (k := slot) hfresh
      rw [and_iff_right hcovered] at hassign
      have hroot : (makePersistentAtomic s.pool slot addr randData 0).root =
          Function.update s.pool.root slot (some addr) := rfl
      rw [sound_iff_exclusive, and_iff_right hinv'.defined, live_makePersistentAtomic, hroot,
        and_iff_right (hexclusive.assign hfresh), hspares]
      exact hassign

end Steps

private theorem sound_start : Sound start where
  refers slot addr hslot := by cases hslot
  defined := by simp [start]
  owned addr haddr := absurd haddr Finmap.notMem_empty

/-- In which runs no root pointer dangles and no object is lost. -/
theorem sound_throughout_iff (actions : List Action) (s : State)
    (hrun : machine.Run start actions s) :
    (∀ first t, first <+: actions → machine.Run start first t → Sound t) ↔
      ∀ first action t, first ++ [action] <+: actions → machine.Run start first t →
        Spares t action := by
  apply System.throughout_iff _ _ rfl sound_start hrun
  · intro s action t hs hsound hstep
    exact (inv_of_reachable hs).sound_iff_spares hsound (moves_of_step hstep)
  · intro s action t u ht hu
    exact Option.some.inj (ht.symm.trans hu)

theorem run_iff_execute {s t : State} {actions : List Action} :
    machine.Run s actions t ↔ System.execute step s actions = some t :=
  System.run_iff_execute fun _ _ _ => Iff.rfl

/-- Two allocations, and a crash. -/
theorem sound_throughout_crashed : ∃ s,
    machine.Run start [.start [104], .xalloc (.allocated 1), .xalloc (.allocated 2), .crash] s ∧
      s.pool.root .ptr2 = some 2 ∧ Sound s := by
  obtain ⟨s, hexecute, hroot⟩ : ∃ s,
      System.execute step start [.start [104], .xalloc (.allocated 1), .xalloc (.allocated 2),
        .crash] = some s ∧ s.pool.root .ptr2 = some 2 :=
    ⟨_, rfl, rfl⟩
  have hrun := run_iff_execute.mpr hexecute
  refine ⟨s, hrun, hroot, (sound_throughout_iff _ s hrun).mpr ?_ _ s List.prefix_rfl hrun⟩
  intro first action t hprefix hfirst
  rw [run_iff_execute] at hfirst
  match first with
  | [] =>
      simp at hprefix
      subst hprefix
      trivial
  | [_] =>
      simp at hprefix
      obtain ⟨rfl, rfl⟩ := hprefix
      cases hfirst
      intro slot randData hprocess
      cases hprocess
      rfl
  | [_, _] =>
      simp at hprefix
      obtain ⟨rfl, rfl, rfl⟩ := hprefix
      cases hfirst
      intro slot randData hprocess
      cases hprocess
      rfl
  | [_, _, _] =>
      simp at hprefix
      obtain ⟨rfl, rfl, rfl, rfl⟩ := hprefix
      trivial
  | _ :: _ :: _ :: _ :: _ => simp at hprefix

/-- The first round of the loop leaves three dangling pointers. -/
theorem not_sound_round : ¬ ∀ s, machine.Reachable s → Sound s := by
  intro hall
  obtain ⟨s, hexecute, hroot, hheap⟩ : ∃ s,
      System.execute step start [.start [104], .xalloc (.allocated 1), .xalloc (.allocated 2),
        .xalloc (.allocated 3), .transaction .commit] = some s ∧
      s.pool.root .ptr = some 1 ∧ s.pool.heap.lookup 1 = none :=
    ⟨_, rfl, rfl, rfl⟩
  have hreachable : machine.Reachable s := ⟨start, _, rfl, run_iff_execute.mpr hexecute⟩
  exact Finmap.lookup_eq_none.mp hheap ((hall s hreachable).refers .ptr 1 hroot)

end SpackPlayground.AtomicOps
