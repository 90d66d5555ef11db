import SpackPlayground.OutOfOrder.Records

/-! What a crash can leave of the counter and the records: each record is as its flag
says, but the counter on the medium has no fixed relation to them. -/
namespace SpackPlayground.OutOfOrder

open Library.Persistence Library.Transition

def record (image : Image) (i : Nat) : UInt8 × List Char := (image (.valid i), image (.name i))

def counterOf (image : Image) : Nat := image .counter

def Complete (image : Image) (i : Nat) : Prop :=
  record image i = (1, []) ∨ record image i = (2, recordName i)

/-- The image after a crash while record `k` is written, or behind the last one. -/
structure CrashImage (k : Nat) (image : Image) : Prop where
  complete : ∀ i < k, Complete image i
  current : (record image k).1 = 0
  later : ∀ i, k < i ∨ k = nrecords ∧ i = nrecords → record image i = (0, [])
  counter : counterOf image ≤ k + 1 ∧ counterOf image ≤ nrecords

def Synced (mem : Mem) (i : Nat) : Prop := record mem.medium i = record mem.view i

def Current (mem : Mem) : Pc → Prop
  | .counting i | .choosing i => record mem.view i = (0, []) ∧ Synced mem i ∧ i < nrecords
  | .named i =>
      record mem.view i = (0, recordName i) ∧ (record mem.medium i).1 = 0 ∧ i < nrecords
  | .flushed i => record mem.view i = (0, recordName i) ∧ Synced mem i ∧ i < nrecords
  | .marked i => Complete mem.view i ∧ (record mem.medium i).2 = (record mem.view i).2 ∧
      ((record mem.medium i).1 = 0 ∨ (record mem.medium i).1 = (record mem.view i).1) ∧
      i < nrecords
  | .closing | .closed => record mem.view nrecords = (0, []) ∧ Synced mem nrecords

def Pc.index : Pc → Nat
  | counting i | choosing i | named i | flushed i | marked i => i
  | closing | closed => nrecords

def Pc.count : Pc → Nat
  | counting i => i
  | choosing i | named i | flushed i | marked i => i + 1
  | closing | closed => nrecords

structure Inv (s : State) : Prop where
  complete : ∀ i < s.pc.index, Complete s.mem.view i ∧ Synced s.mem i
  current : Current s.mem s.pc
  later : ∀ i, s.pc.index < i → record s.mem.view i = (0, []) ∧ Synced s.mem i
  view : counterOf s.mem.view = s.pc.count
  medium : counterOf s.mem.medium ≤ s.pc.count
  closed : s.pc = .closed → counterOf s.mem.medium = nrecords

section Frame

variable {mem : Mem} {l : Loc} {x : Val l} {i : Nat}

def Loc.record : Loc → Option Nat
  | counter => none
  | name i | valid i => some i

theorem record_store_of_ne (hl : l.record ≠ some i) :
    OutOfOrder.record (mem.store l x).view i = OutOfOrder.record mem.view i := by
  have hvalid : Loc.valid i ≠ l := by rintro rfl; exact hl rfl
  have hname : Loc.name i ≠ l := by rintro rfl; exact hl rfl
  unfold OutOfOrder.record
  rw [Memory.view_store_of_ne hvalid, Memory.view_store_of_ne hname]

theorem synced_store_of_ne (hl : l.record ≠ some i) : Synced (mem.store l x) i ↔ Synced mem i := by
  unfold Synced
  rw [record_store_of_ne hl, Memory.medium_store]

theorem record_store_name (mem : Mem) (i : Nat) (x : List Char) :
    OutOfOrder.record (mem.store (.name i) x).view i = ((OutOfOrder.record mem.view i).1, x) := by
  have hne : Loc.valid i ≠ .name i := nofun
  unfold OutOfOrder.record
  rw [Memory.view_store_self, Memory.view_store_of_ne hne]

theorem record_store_valid (mem : Mem) (i : Nat) (x : UInt8) :
    OutOfOrder.record (mem.store (.valid i) x).view i = (x, (OutOfOrder.record mem.view i).2) := by
  have hne : Loc.name i ≠ .valid i := nofun
  unfold OutOfOrder.record
  rw [Memory.view_store_self, Memory.view_store_of_ne hne]

theorem medium_persist_self (mem : Mem) (l : Loc) :
    (mem.persist fun other => other = l).medium l = mem.view l :=
  Memory.medium_persist (decide_eq_true rfl)

theorem medium_persist_of_ne (mem : Mem) {l other : Loc} (hne : other ≠ l) :
    (mem.persist fun other => other = l).medium other = mem.medium other :=
  Memory.medium_persist_of_not (decide_eq_false hne)

theorem record_persist_name (mem : Mem) (i : Nat) :
    OutOfOrder.record (mem.persist fun l => l = .name i).medium i =
      ((OutOfOrder.record mem.medium i).1, (OutOfOrder.record mem.view i).2) := by
  have hne : Loc.valid i ≠ .name i := nofun
  unfold OutOfOrder.record
  rw [medium_persist_self, medium_persist_of_ne mem hne]

theorem record_persist_valid (mem : Mem) (i : Nat) :
    OutOfOrder.record (mem.persist fun l => l = .valid i).medium i =
      ((OutOfOrder.record mem.view i).1, (OutOfOrder.record mem.medium i).2) := by
  have hne : Loc.name i ≠ .valid i := nofun
  unfold OutOfOrder.record
  rw [medium_persist_self, medium_persist_of_ne mem hne]

theorem synced_iff_durable : Synced mem i ↔ mem.Durable {.valid i, .name i} := by
  constructor
  · intro hsynced l hl
    rcases hl with rfl | rfl
    · exact congrArg Prod.fst hsynced
    · exact congrArg Prod.snd hsynced
  · intro hdurable
    exact Prod.ext (hdurable _ (.inl rfl)) (hdurable _ (.inr rfl))

theorem Synced.persist (hsynced : Synced mem i) (range : Loc → Bool) :
    Synced (mem.persist range) i :=
  synced_iff_durable.mpr ((synced_iff_durable.mp hsynced).persist range)

theorem CanOccur.evictable {pc : Pc} (hoccurs : CanOccur ⟨mem, pc⟩ (.evict l x)) :
    mem.Evictable l x := by
  cases l with
  | counter | valid => exact .inl hoccurs
  | name => exact hoccurs

theorem Synced.evict (hsynced : Synced mem i) (hx : mem.Evictable l x) :
    Synced (mem.evict l x) i :=
  synced_iff_durable.mpr ((synced_iff_durable.mp hsynced).evict hx)

theorem valid_evict {pc : Pc} (hoccurs : CanOccur ⟨mem, pc⟩ (.evict l x)) (i : Nat) :
    (OutOfOrder.record (mem.evict l x).medium i).1 = (OutOfOrder.record mem.medium i).1 ∨
      (OutOfOrder.record (mem.evict l x).medium i).1 = (OutOfOrder.record mem.view i).1 := by
  by_cases hl : Loc.valid i = l
  · subst hl
    exact .inr (Memory.medium_evict_self.trans hoccurs)
  · exact .inl (Memory.medium_evict_of_ne hl)

private theorem name_evict (hx : mem.Evictable l x)
    (hname : (OutOfOrder.record mem.medium i).2 = (OutOfOrder.record mem.view i).2) :
    (OutOfOrder.record (mem.evict l x).medium i).2 = (OutOfOrder.record mem.view i).2 := by
  have hdurable : mem.Durable {Loc.name i} := by
    rintro _ rfl
    exact hname
  exact hdurable.evict hx _ rfl

end Frame

section Steps

variable {s s' : State} {i : Nat} {coin : Bool}

theorem inv_initial : Inv initial where
  complete i hi := absurd hi (Nat.not_lt_zero i)
  current := ⟨rfl, rfl, by decide⟩
  later _ _ := ⟨rfl, rfl⟩
  view := rfl
  medium := le_rfl
  closed := nofun

theorem Inv.stored (hinv : Inv s) {l : Loc} {x : Val l} {pc : Pc}
    (hl : ∀ j, l.record = some j → j = s.pc.index) (hindex : pc.index = s.pc.index)
    (hcurrent : Current (s.mem.store l x) pc)
    (hview : counterOf (s.mem.store l x).view = pc.count)
    (hcount : s.pc.count ≤ pc.count) (hopen : pc ≠ .closed) : Inv ⟨s.mem.store l x, pc⟩ := by
  have hne : ∀ j, j ≠ s.pc.index → l.record ≠ some j := fun j hj heq => hj (hl j heq)
  refine ⟨fun j hj => ?_, hcurrent, fun j hj => ?_, hview, hinv.medium.trans hcount,
    fun hclosed => absurd hclosed hopen⟩
  · have hj : j < s.pc.index := hindex ▸ hj
    unfold Complete
    rw [record_store_of_ne (hne j hj.ne), synced_store_of_ne (hne j hj.ne)]
    exact hinv.complete j hj
  · have hj : s.pc.index < j := hindex ▸ hj
    rw [record_store_of_ne (hne j hj.ne'), synced_store_of_ne (hne j hj.ne')]
    exact hinv.later j hj

theorem Inv.medium_persist_le (hinv : Inv s) (range : Loc → Bool) :
    counterOf (s.mem.persist range).medium ≤ s.pc.count := by
  unfold counterOf Memory.persist
  dsimp only
  split
  · exact hinv.view.le
  · exact hinv.medium

theorem Inv.persisted (hinv : Inv s) {range : Loc → Bool} {pc : Pc}
    (hindex : pc.index = s.pc.index) (hcount : pc.count = s.pc.count)
    (hcurrent : Current (s.mem.persist range) pc)
    (hclosed : pc = .closed → counterOf (s.mem.persist range).medium = nrecords) :
    Inv ⟨s.mem.persist range, pc⟩ := by
  refine ⟨fun j hj => ?_, hcurrent, fun j hj => ?_, hinv.view.trans hcount.symm,
    (hinv.medium_persist_le range).trans hcount.ge, hclosed⟩
  · have hcomplete := hinv.complete j (hindex ▸ hj)
    exact ⟨hcomplete.1, hcomplete.2.persist range⟩
  · have hlater := hinv.later j (hindex ▸ hj)
    exact ⟨hlater.1, hlater.2.persist range⟩

theorem Inv.counting (hinv : Inv s) (hpc : s.pc = .counting i) :
    Inv ⟨s.mem.store .counter (s.mem.view .counter + 1 : Nat), .choosing i⟩ := by
  obtain ⟨hrecord, hsynced, hi⟩ : Current s.mem (.counting i) := hpc ▸ hinv.current
  have hview := hinv.view
  rw [hpc] at hview
  have hnone : Loc.counter.record ≠ some i := nofun
  refine hinv.stored nofun (by rw [hpc]; rfl) ⟨?_, ?_, hi⟩ ?_ ?_ nofun
  · rwa [record_store_of_ne hnone]
  · rwa [synced_store_of_ne hnone]
  · exact Eq.trans Memory.view_store_self (congrArg (· + 1) hview)
  · rw [hpc]
    exact Nat.le_succ i

theorem Inv.choosing (hinv : Inv s) (hpc : s.pc = .choosing i) (coin : Bool) : Inv
    (if coin then ⟨s.mem.store (.name i) (recordName i), .named i⟩
      else ⟨s.mem.store (.valid i) (1 : UInt8), .marked i⟩) := by
  obtain ⟨hrecord, hsynced, hi⟩ : Current s.mem (.choosing i) := hpc ▸ hinv.current
  have hview := hinv.view
  have hmedium : record s.mem.medium i = (0, []) := hsynced.trans hrecord
  rw [hpc] at hview
  have hindex : ∀ j, some i = some j → j = s.pc.index := by
    rintro j heq
    cases heq
    rw [hpc]
    rfl
  cases coin with
  | true =>
      refine hinv.stored hindex (by rw [hpc]; rfl) ⟨?_, ?_, hi⟩ hview (by rw [hpc]; rfl) nofun
      · rw [record_store_name, hrecord]
      · rw [Memory.medium_store, hmedium]
  | false =>
      refine hinv.stored hindex (by rw [hpc]; rfl) ⟨.inl ?_, ?_, .inl ?_, hi⟩ hview
        (by rw [hpc]; rfl) nofun
      · rw [record_store_valid, hrecord]
      · rw [record_store_valid, Memory.medium_store, hmedium, hrecord]
      · rw [Memory.medium_store, hmedium]

theorem Inv.named (hinv : Inv s) (hpc : s.pc = .named i) :
    Inv ⟨s.mem.persist fun l => l = .name i, .flushed i⟩ := by
  obtain ⟨hrecord, hmedium, hi⟩ : Current s.mem (.named i) := hpc ▸ hinv.current
  refine hinv.persisted (by rw [hpc]; rfl) (by rw [hpc]; rfl) ⟨hrecord, ?_, hi⟩ nofun
  have hview : record (s.mem.persist fun l => l = .name i).view i = (0, recordName i) := hrecord
  unfold Synced
  rw [record_persist_name, hview, hmedium, hrecord]

theorem Inv.flushed (hinv : Inv s) (hpc : s.pc = .flushed i) :
    Inv ⟨s.mem.store (.valid i) (2 : UInt8), .marked i⟩ := by
  obtain ⟨hrecord, hsynced, hi⟩ : Current s.mem (.flushed i) := hpc ▸ hinv.current
  have hview := hinv.view
  have hmedium : record s.mem.medium i = (0, recordName i) := hsynced.trans hrecord
  rw [hpc] at hview
  refine hinv.stored ?_ (by rw [hpc]; rfl) ⟨.inr ?_, ?_, .inl ?_, hi⟩ hview (by rw [hpc]; rfl) nofun
  · rintro j heq
    cases heq
    rw [hpc]
    rfl
  · rw [record_store_valid, hrecord]
  · rw [record_store_valid, Memory.medium_store, hmedium, hrecord]
  · rw [Memory.medium_store, hmedium]

theorem Inv.marked (hinv : Inv s) (hpc : s.pc = .marked i) :
    Inv ⟨s.mem.persist fun l => l = .valid i, atRecord (i + 1)⟩ := by
  obtain ⟨hcomplete, hname, _, hi⟩ : Current s.mem (.marked i) := hpc ▸ hinv.current
  have hview := hinv.view
  have hmedium := hinv.medium_persist_le fun l => l = .valid i
  have hbefore := hinv.complete
  have hlater := hinv.later
  rw [hpc] at hview hmedium hbefore hlater
  have hsynced : Synced (s.mem.persist fun l => l = .valid i) i := by
    unfold Synced
    rw [record_persist_valid, hname]
    rfl
  have hdone : ∀ j < i + 1, Complete s.mem.view j ∧
      Synced (s.mem.persist fun l => l = .valid i) j := by
    intro j hj
    rcases Nat.lt_succ_iff_lt_or_eq.mp hj with hlt | heq
    · exact ⟨(hbefore j hlt).1, (hbefore j hlt).2.persist _⟩
    · subst heq
      exact ⟨hcomplete, hsynced⟩
  have hrest : ∀ j, i < j → record s.mem.view j = (0, []) ∧
      Synced (s.mem.persist fun l => l = .valid i) j :=
    fun j hj => ⟨(hlater j hj).1, (hlater j hj).2.persist _⟩
  unfold atRecord
  split
  · rename_i hmore
    exact ⟨hdone, ⟨(hrest _ (Nat.lt_succ_self i)).1, (hrest _ (Nat.lt_succ_self i)).2, hmore⟩,
      fun j hj => hrest j ((Nat.lt_succ_self i).trans hj), hview, hmedium, nofun⟩
  · rename_i hend
    have heq : i + 1 = nrecords := le_antisymm hi (Nat.le_of_not_lt hend)
    rw [heq] at hdone
    have hend := hrest nrecords (heq ▸ Nat.lt_succ_self i)
    refine ⟨hdone, hend, fun j hj => hrest j ?_, ?_, ?_, nofun⟩
    · exact Nat.lt_of_succ_lt (heq.trans_lt hj)
    · exact hview.trans heq
    · exact hmedium.trans_eq heq

theorem Inv.closing (hinv : Inv s) (hpc : s.pc = .closing) :
    Inv ⟨s.mem.persist fun l => l = .counter, .closed⟩ := by
  obtain ⟨hrecord, hsynced⟩ : Current s.mem .closing := hpc ▸ hinv.current
  have hview := hinv.view
  rw [hpc] at hview
  refine hinv.persisted (by rw [hpc]; rfl) (by rw [hpc]; rfl) ⟨hrecord, hsynced.persist _⟩ ?_
  intro _
  exact (medium_persist_self s.mem .counter).trans hview

theorem Inv.work (hinv : Inv s) (hstep : step s (.work coin) = some s') : Inv s' := by
  obtain ⟨mem, pc⟩ := s
  simp only [step, Option.map_eq_some_iff] at hstep
  obtain ⟨next, hnext, rfl⟩ := hstep
  cases pc with
  | counting i =>
      cases hnext
      exact hinv.counting rfl
  | choosing i =>
      cases hnext
      have hchosen := hinv.choosing rfl coin
      cases coin <;> exact hchosen
  | named i =>
      cases hnext
      exact hinv.named rfl
  | flushed i =>
      cases hnext
      exact hinv.flushed rfl
  | marked i =>
      cases hnext
      exact hinv.marked rfl
  | closing =>
      cases hnext
      exact hinv.closing rfl
  | closed => cases hnext

theorem Inv.evict (hinv : Inv s) {l : Loc} {x : Val l} (hoccurs : CanOccur s (.evict l x)) :
    Inv { s with mem := s.mem.evict l x } := by
  have hx := CanOccur.evictable hoccurs
  refine ⟨fun i hi => ?_, ?_, fun i hi => ?_, hinv.view, ?_, fun hclosed => ?_⟩
  · exact ⟨(hinv.complete i hi).1, (hinv.complete i hi).2.evict hx⟩
  · have hcurrent := hinv.current
    change Current (s.mem.evict l x) s.pc
    cases hpc : s.pc with
    | counting i | choosing i | flushed i =>
        rw [hpc] at hcurrent
        exact ⟨hcurrent.1, hcurrent.2.1.evict hx, hcurrent.2.2⟩
    | named i =>
        rw [hpc] at hcurrent
        refine ⟨hcurrent.1, ?_, hcurrent.2.2⟩
        rcases valid_evict hoccurs i with heq | heq
        · exact heq.trans hcurrent.2.1
        · rw [heq, hcurrent.1]
    | marked i =>
        rw [hpc] at hcurrent
        obtain ⟨hcomplete, hname, hvalid, hi⟩ := hcurrent
        refine ⟨hcomplete, name_evict hx hname, ?_, hi⟩
        rcases valid_evict hoccurs i with heq | heq
        · rw [heq]
          exact hvalid
        · exact .inr heq
    | closing | closed =>
        rw [hpc] at hcurrent
        exact ⟨hcurrent.1, hcurrent.2.evict hx⟩
  · exact ⟨(hinv.later i hi).1, (hinv.later i hi).2.evict hx⟩
  · by_cases hl : Loc.counter = l
    · subst hl
      exact (Memory.medium_evict_self.trans hoccurs).le.trans hinv.view.le
    · exact (Memory.medium_evict_of_ne hl).le.trans hinv.medium
  · have hpc : s.pc = .closed := hclosed
    have hview : counterOf s.mem.view = nrecords := by
      rw [hinv.view, hpc]
      rfl
    have hdurable : s.mem.Durable {Loc.counter} := by
      rintro _ rfl
      exact (hinv.closed hpc).trans hview.symm
    exact (hdurable.evict hx _ rfl).trans hview

theorem inv_of_reachable (hs : machine.Reachable s) : Inv s := by
  apply hs.invariant (motive := Inv)
  · rintro s rfl
    exact inv_initial
  · intro s action s' _ hinv hstep
    cases action with
    | work coin => exact hinv.work hstep.2
    | evict l x =>
        cases hstep.2
        exact hinv.evict hstep.1

theorem crashImage_of_lt {image : Image} {k : Nat} (hk : k < nrecords)
    (hcomplete : ∀ i < k, Complete image i) (hcurrent : (record image k).1 = 0)
    (hlater : ∀ i, k < i → record image i = (0, [])) (hcounter : counterOf image ≤ k + 1) :
    CrashImage k image where
  complete := hcomplete
  current := hcurrent
  later i hi := hlater i (hi.resolve_right fun hend => hk.ne hend.1)
  counter := ⟨hcounter, hcounter.trans hk⟩

theorem Inv.crashImage (hinv : Inv s) : ∃ k ≤ nrecords, CrashImage k s.mem.medium := by
  have hcounter := hinv.medium
  have hcomplete : ∀ i < s.pc.index, Complete s.mem.medium i := by
    intro i hi
    obtain ⟨hcomplete, hsynced⟩ := hinv.complete i hi
    unfold Complete
    rwa [show record s.mem.medium i = record s.mem.view i from hsynced]
  have hlater : ∀ i, s.pc.index < i → record s.mem.medium i = (0, []) := fun i hi =>
    (hinv.later i hi).2.trans (hinv.later i hi).1
  have hcurrent := hinv.current
  cases hpc : s.pc with
  | counting i | choosing i | flushed i =>
      rw [hpc] at hcurrent hcomplete hlater hcounter
      obtain ⟨hrecord, hsynced, hi⟩ := hcurrent
      refine ⟨i, hi.le, crashImage_of_lt hi hcomplete ?_ hlater ?_⟩
      · rw [show record s.mem.medium i = record s.mem.view i from hsynced, hrecord]
      · exact hcounter.trans (by simp [Pc.count])
  | named i =>
      rw [hpc] at hcurrent hcomplete hlater hcounter
      exact ⟨i, hcurrent.2.2.le,
        crashImage_of_lt hcurrent.2.2 hcomplete hcurrent.2.1 hlater hcounter⟩
  | marked i =>
      rw [hpc] at hcurrent hcomplete hlater hcounter
      obtain ⟨hview, hname, hvalid, hi⟩ := hcurrent
      cases hvalid with
      | inl hzero => exact ⟨i, hi.le, crashImage_of_lt hi hcomplete hzero hlater hcounter⟩
      | inr hsame =>
          have hsynced : record s.mem.medium i = record s.mem.view i := Prod.ext hsame hname
          refine ⟨i + 1, hi, ?_, ?_, ?_, hcounter.trans (Nat.le_succ _), hcounter.trans hi⟩
          · intro j hj
            rcases Nat.lt_succ_iff_lt_or_eq.mp hj with hlt | rfl
            · exact hcomplete j hlt
            · unfold Complete
              rwa [hsynced]
          · rw [hlater (i + 1) (Nat.lt_succ_self i)]
          · rintro j (hj | ⟨_, rfl⟩)
            · exact hlater j (Nat.lt_of_succ_lt hj)
            · exact hlater nrecords hi
  | closing | closed =>
      rw [hpc] at hcurrent hcomplete hlater hcounter
      have hlast : record s.mem.medium nrecords = (0, []) := hcurrent.2.trans hcurrent.1
      refine ⟨nrecords, le_rfl, hcomplete, ?_, ?_, hcounter.trans (Nat.le_succ _), hcounter⟩
      · rw [hlast]
      · rintro j (hj | ⟨_, rfl⟩)
        · exact hlater j hj
        · exact hlast

end Steps

section Runs

variable {image : Image} {mem mem' : Mem} {pc pc' : Pc} {i k : Nat}

/-- The first `i` records are as in `image`, the counter is at `n`, and it has been
evicted when it was as in `image`. -/
structure Written (image : Image) (n i : Nat) (mem : Mem) : Prop where
  view : counterOf mem.view = n
  medium : counterOf mem.medium = if counterOf image ≤ n then counterOf image else 0
  records : ∀ j, record mem.view j = (if j < i then record image j else (0, [])) ∧ Synced mem j

theorem work_reachable (coin : Bool) (hs : machine.Reachable ⟨mem, pc⟩)
    (hnext : advance mem coin pc = some (mem', pc')) : machine.Reachable ⟨mem', pc'⟩ := by
  have hstep : machine.step ⟨mem, pc⟩ (.work coin) ⟨mem', pc'⟩ := by
    refine ⟨trivial, ?_⟩
    simp only [step, hnext, Option.map_some]
  exact hs.step hstep

theorem evict_reachable {l : Loc} {x : Val l} (hs : machine.Reachable ⟨mem, pc⟩)
    (hoccurs : CanOccur ⟨mem, pc⟩ (.evict l x)) : machine.Reachable ⟨mem.evict l x, pc⟩ := by
  have hstep : machine.step ⟨mem, pc⟩ (.evict l x) ⟨mem.evict l x, pc⟩ := ⟨hoccurs, rfl⟩
  exact hs.step hstep

theorem counted_reachable (hwritten : Written image i i mem)
    (hs : machine.Reachable ⟨mem, .counting i⟩) :
    ∃ mem', Written image (i + 1) i mem' ∧ machine.Reachable ⟨mem', .choosing i⟩ := by
  have hstored := work_reachable true hs rfl
  have hview : counterOf (mem.store .counter (mem.view .counter + 1 : Nat)).view = i + 1 :=
    Eq.trans Memory.view_store_self (congrArg (· + 1) hwritten.view)
  have hnone : ∀ j, Loc.counter.record ≠ some j := fun j => nofun
  have hrecords : ∀ j,
      record (mem.store .counter (mem.view .counter + 1 : Nat)).view j =
        (if j < i then record image j else (0, [])) ∧
      Synced (mem.store .counter (mem.view .counter + 1 : Nat)) j := by
    intro j
    rw [record_store_of_ne (hnone j), synced_store_of_ne (hnone j)]
    exact hwritten.records j
  have hmedium := hwritten.medium
  rw [← show counterOf (mem.store .counter (mem.view .counter + 1 : Nat)).medium =
    counterOf mem.medium from rfl] at hmedium
  generalize mem.store .counter (mem.view .counter + 1 : Nat) = stored at *
  by_cases hcounter : counterOf image = i + 1
  · refine ⟨stored.evict .counter (stored.view .counter), ⟨hview, ?_, fun j => ?_⟩,
      evict_reachable hstored rfl⟩
    · rw [if_pos hcounter.le, hcounter, ← hview]
      exact Memory.medium_evict_self
    · exact ⟨(hrecords j).1, (hrecords j).2.evict (.inl rfl)⟩
  · have hiff : counterOf image ≤ i + 1 ↔ counterOf image ≤ i := by omega
    refine ⟨stored, ⟨hview, ?_, hrecords⟩, hstored⟩
    rw [if_congr hiff rfl rfl]
    exact hmedium

structure Elsewhere (i : Nat) (mem mem' : Mem) : Prop where
  view : counterOf mem'.view = counterOf mem.view
  medium : counterOf mem'.medium = counterOf mem.medium
  records : ∀ j, j ≠ i → record mem'.view j = record mem.view j ∧ (Synced mem j → Synced mem' j)

theorem Elsewhere.trans {mem'' : Mem} (hfirst : Elsewhere i mem mem')
    (hsecond : Elsewhere i mem' mem'') : Elsewhere i mem mem'' where
  view := hsecond.view.trans hfirst.view
  medium := hsecond.medium.trans hfirst.medium
  records j hj :=
    ⟨(hsecond.records j hj).1.trans (hfirst.records j hj).1,
      fun hsynced => (hsecond.records j hj).2 ((hfirst.records j hj).2 hsynced)⟩

theorem elsewhere_store {l : Loc} (hl : l.record = some i) (x : Val l) :
    Elsewhere i mem (mem.store l x) := by
  have hne : ∀ j, j ≠ i → l.record ≠ some j := by
    intro j hj heq
    exact hj (Option.some.inj (heq.symm.trans hl))
  have hcounter : Loc.counter ≠ l := by
    rintro rfl
    cases hl
  exact ⟨Memory.view_store_of_ne hcounter, rfl, fun j hj =>
    ⟨record_store_of_ne (hne j hj), (synced_store_of_ne (hne j hj)).mpr⟩⟩

theorem elsewhere_persist {l : Loc} (hl : l.record = some i) :
    Elsewhere i mem (mem.persist fun other => other = l) := by
  have hcounter : Loc.counter ≠ l := by
    rintro rfl
    cases hl
  exact ⟨rfl, medium_persist_of_ne mem hcounter, fun j _ => ⟨rfl, fun hsynced => hsynced.persist _⟩⟩

theorem Written.succ {n : Nat} (hwritten : Written image n i mem)
    (helsewhere : Elsewhere i mem mem')
    (hrecord : record mem'.view i = record image i) (hsynced : Synced mem' i) :
    Written image n (i + 1) mem' := by
  refine ⟨helsewhere.view.trans hwritten.view, helsewhere.medium.trans hwritten.medium, ?_⟩
  intro j
  by_cases hj : j = i
  · subst hj
    exact ⟨hrecord.trans (if_pos (Nat.lt_succ_self j)).symm, hsynced⟩
  · have hiff : j < i + 1 ↔ j < i := by omega
    rw [if_congr hiff rfl rfl, (helsewhere.records j hj).1]
    exact ⟨(hwritten.records j).1, (helsewhere.records j hj).2 (hwritten.records j).2⟩

private theorem record_reachable {n : Nat} (hwritten : Written image n i mem)
    (hcomplete : Complete image i) (hs : machine.Reachable ⟨mem, .choosing i⟩) :
    ∃ mem', Written image n (i + 1) mem' ∧ machine.Reachable ⟨mem', atRecord (i + 1)⟩ := by
  have hempty : record mem.view i = (0, []) :=
    (hwritten.records i).1.trans (if_neg (lt_irrefl i))
  have hmedium : record mem.medium i = (0, []) := (hwritten.records i).2.trans hempty
  cases hcomplete with
  | inl hone =>
      have hmarked := work_reachable false hs rfl
      have hdone := work_reachable true hmarked rfl
      have hview : record (mem.store (.valid i) (1 : UInt8)).view i = (1, []) := by
        rw [record_store_valid, hempty]
      refine ⟨_, hwritten.succ ((elsewhere_store rfl _).trans (elsewhere_persist rfl))
        (hview.trans hone.symm) ?_, hdone⟩
      unfold Synced
      rw [record_persist_valid, hview, Memory.medium_store, hmedium]
      exact hview.symm
  | inr htwo =>
      have hnamed := work_reachable true hs rfl
      have hflushed := work_reachable true hnamed rfl
      have hmarked := work_reachable true hflushed rfl
      have hdone := work_reachable true hmarked rfl
      have hname := record_store_name mem i (recordName i)
      rw [hempty] at hname
      have hnames := record_persist_name (mem.store (.name i) (recordName i)) i
      rw [hname, Memory.medium_store, hmedium] at hnames
      have hview := record_store_valid
        ((mem.store (.name i) (recordName i)).persist fun l => l = .name i) i 2
      rw [show record ((mem.store (.name i) (recordName i)).persist fun l => l = .name i).view i =
        (0, recordName i) from hname] at hview
      refine ⟨_, hwritten.succ (((elsewhere_store rfl _).trans (elsewhere_persist rfl)).trans
        ((elsewhere_store rfl _).trans (elsewhere_persist rfl))) (hview.trans htwo.symm) ?_, hdone⟩
      unfold Synced
      rw [record_persist_valid, hview, Memory.medium_store, hnames]
      exact hview.symm

private theorem written_reachable (hcrash : CrashImage k image) (hk : k ≤ nrecords) (hi : i ≤ k) :
    ∃ mem, Written image i i mem ∧ machine.Reachable ⟨mem, atRecord i⟩ := by
  induction i with
  | zero =>
      refine ⟨⟨zeroed, zeroed⟩, ⟨rfl, ?_, fun j => ⟨rfl, rfl⟩⟩, System.reachable_init rfl⟩
      split
      · rename_i hle
        exact (Nat.le_zero.mp hle).symm
      · rfl
  | succ i ih =>
      obtain ⟨mem, hwritten, hs⟩ := ih (Nat.le_of_succ_le hi)
      have hmore : atRecord i = .counting i := if_pos (hi.trans hk)
      rw [hmore] at hs
      obtain ⟨counted, hcounted, hs⟩ := counted_reachable hwritten hs
      exact record_reachable hcounted (hcrash.complete i hi) hs

theorem image_ext {image image' : Image} (hcounter : counterOf image = counterOf image')
    (hrecord : ∀ j, record image j = record image' j) : image = image' := by
  funext l
  cases l with
  | counter => exact hcounter
  | name j => exact congrArg Prod.snd (hrecord j)
  | valid j => exact congrArg Prod.fst (hrecord j)

theorem Written.record_medium {n j : Nat} (hwritten : Written image n k mem)
    (hlater : ∀ j, k < j → record image j = (0, [])) (hj : j ≠ k) :
    record mem.medium j = record image j := by
  rw [(hwritten.records j).2, (hwritten.records j).1]
  split
  · rfl
  · rename_i hge
    exact (hlater j (lt_of_le_of_ne (Nat.le_of_not_lt hge) hj.symm)).symm

theorem Written.medium_current {n : Nat} (hwritten : Written image n k mem) :
    record mem.medium k = (0, []) :=
  (hwritten.records k).2.trans ((hwritten.records k).1.trans (if_neg (lt_irrefl k)))

theorem Written.medium_eq {n : Nat} (hwritten : Written image n k mem)
    (hcounter : counterOf image ≤ n) (hlater : ∀ j, k < j → record image j = (0, []))
    (hcurrent : record image k = (0, [])) : mem.medium = image := by
  apply image_ext
  · rw [hwritten.medium, if_pos hcounter]
  · intro j
    by_cases hj : j = k
    · subst hj
      exact hwritten.medium_current.trans hcurrent.symm
    · exact hwritten.record_medium hlater hj

theorem Written.medium_evict_name {n : Nat} (hwritten : Written image n k mem)
    (hcounter : counterOf image ≤ n) (hlater : ∀ j, k < j → record image j = (0, []))
    (hcurrent : record image k = (0, recordName k)) :
    (mem.evict (.name k) (recordName k)).medium = image := by
  apply image_ext
  · have hne : Loc.counter ≠ .name k := nofun
    have hkept := Memory.medium_evict_of_ne (m := mem) (x := recordName k) hne
    exact hkept.trans (hwritten.medium.trans (if_pos hcounter))
  · intro j
    have hvalid : Loc.valid j ≠ .name k := nofun
    by_cases hj : j = k
    · subst hj
      have hflag := congrArg Prod.fst hwritten.medium_current
      rw [hcurrent]
      unfold record
      rw [Memory.medium_evict_self, Memory.medium_evict_of_ne hvalid]
      exact Prod.ext hflag rfl
    · have hname : Loc.name j ≠ .name k := fun heq => hj (Loc.name.inj heq)
      rw [← hwritten.record_medium hlater hj]
      unfold record
      rw [Memory.medium_evict_of_ne hname, Memory.medium_evict_of_ne hvalid]

/-- Every such image is left by a run. The name of the record that is written is
there in whole or not at all; how else it can be torn is up to the hardware. -/
theorem CrashImage.reachable (hcrash : CrashImage k image) (hk : k ≤ nrecords)
    (hname : (record image k).2 = [] ∨ (record image k).2 = recordName k) :
    ∃ s, machine.Reachable s ∧ s.mem.medium = image := by
  obtain ⟨mem, hwritten, hs⟩ := written_reachable hcrash hk le_rfl
  have hlater : ∀ j, k < j → record image j = (0, []) := fun j hj => hcrash.later j (.inl hj)
  rcases hk.lt_or_eq with hlt | rfl
  · have hmore : atRecord k = .counting k := if_pos hlt
    rw [hmore] at hs
    obtain ⟨counted, hcounted, hs⟩ := counted_reachable hwritten hs
    cases hname with
    | inl hempty =>
        exact ⟨_, hs, hcounted.medium_eq hcrash.counter.1 hlater (Prod.ext hcrash.current hempty)⟩
    | inr hwhole =>
        have hnamed := work_reachable true hs rfl
        have hview : (counted.store (.name k) (recordName k)).view (.name k) = recordName k :=
          Memory.view_store_self
        have hevicted := evict_reachable hnamed
          (show CanOccur _ (.evict (.name k) (recordName k)) from .inl hview.symm)
        exact ⟨_, hevicted, hcounted.medium_evict_name hcrash.counter.1 hlater
          (Prod.ext hcrash.current hwhole)⟩
  · have hlast : record image nrecords = (0, []) := hcrash.later nrecords (.inr ⟨rfl, rfl⟩)
    exact ⟨_, hs, hwritten.medium_eq hcrash.counter.2 hlater hlast⟩

/-- A crash finds every record complete before some `k`, a torn name without a flag at `k`,
nothing behind it, and a counter that may have missed any number of records or be one
ahead of the complete ones; and every such image does occur. Only after the last
`persist` do the two agree. -/
theorem crash_images :
    (∀ s, machine.Reachable s → ∃ k ≤ nrecords, CrashImage k s.mem.medium) ∧
      (∀ k ≤ nrecords, ∀ image, CrashImage k image →
        ((record image k).2 = [] ∨ (record image k).2 = recordName k) →
        ∃ s, machine.Reachable s ∧ s.mem.medium = image) ∧
      ∀ s, machine.Reachable s → s.pc = .closed → counterOf s.mem.medium = nrecords ∧
        ∀ i < nrecords, Complete s.mem.medium i := by
  refine ⟨fun s hs => (inv_of_reachable hs).crashImage,
    fun k hk image hcrash hname => hcrash.reachable hk hname, fun s hs hpc => ?_⟩
  have hinv := inv_of_reachable hs
  have hcomplete := hinv.complete
  rw [hpc] at hcomplete
  refine ⟨hinv.closed hpc, fun i hi => ?_⟩
  obtain ⟨hview, hsynced⟩ := hcomplete i hi
  unfold Complete
  rwa [show record s.mem.medium i = record s.mem.view i from hsynced]

end Runs

end SpackPlayground.OutOfOrder
