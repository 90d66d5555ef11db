import Mathlib.Data.Fintype.Lattice
import Mathlib.Data.Fintype.Option
import SpackPlayground.Timing.Harness

/-! The timed window: `t0` is set before the first step of any worker, and `t1`
after the last one. -/
namespace SpackPlayground.Timing.Window

open Library.Transition Library.Tally Psync Workers Harness

/-- Where a thread stands, and where it stands in the calls of one barrier. -/
structure Agrees (gate : Gate) (place : Place) (pc : Barrier.Pc) : Prop where
  before : place.rank < gate.rank → pc = .outside
  inside : place.rank = gate.rank → pc ≠ .returned
  behind : gate.rank < place.rank → pc = .returned

theorem Agrees.advance {gate : Gate} {place place' : Place} {pc : Barrier.Pc}
    (hagrees : Agrees gate place pc) (hne : place.rank ≠ gate.rank)
    (hnext : place'.rank = place.rank + 1) : Agrees gate place' pc := by
  constructor
  · intro hbefore
    exact hagrees.before (by omega)
  · intro hinside
    rw [hagrees.before (by omega)]
    decide
  · intro hbehind
    exact hagrees.behind (by omega)

private theorem rank_ne_of_gate {place : Place} {gate : Gate} (hgate : place.gate = some gate)
    (other : Gate) : place.rank ≠ other.rank := by
  cases place <;> cases other <;> simp_all [Place.gate, Place.rank, Gate.rank]

private theorem rank_entering_of_gate {place : Place} {gate : Gate}
    (hgate : place.gate = some gate) :
    (Place.entering gate).rank = place.rank + 1 := by
  cases place <;> simp_all [Place.gate] <;> subst hgate <;> rfl

theorem rank_after (gate : Gate) : gate.after.rank = (Place.entering gate).rank + 1 := by
  cases gate <;> rfl

def placeOfRank : Nat → Place
  | 0 => .preparing
  | 1 => .entering .ready
  | 2 => .setting
  | 3 => .entering .timer
  | 4 => .working
  | 5 => .entering .finish
  | 6 => .closing
  | _ => .ended

theorem placeOfRank_rank (place : Place) : placeOfRank place.rank = place := by
  cases place with
  | entering gate => cases gate <;> rfl
  | _ => rfl

theorem place_eq_of_rank {place place' : Place} (hrank : place.rank = place'.rank) :
    place = place' := by
  rw [← placeOfRank_rank place, hrank, placeOfRank_rank]

variable {Shared Local Label : Type} {n : Nat}

/-- The log of a run: `t0` first, then work, then `t1`. Work needs the last `t0`. -/
structure LogOk (clockSets clock : Nat) (frozen : Bool) (log : List (Event n Label)) : Prop where
  shape : ∃ works : List (Fin n × Label),
    log = List.replicate clock .setT0 ++ works.map (fun w => .work w.1 w.2) ++
      (if frozen then [.setT1] else []) ∧
    (works ≠ [] → clock = clockSets)

structure InOrder (benchmark : Benchmark Shared Local Label) (c : benchmark.Config) : Prop where
  started : ∀ a, 0 < (c.places a).rank → c.Started a
  timed : 2 < (c.places none).rank → c.clock = benchmark.clockSets
  done : ∀ i, 4 < (c.places (some i)).rank → benchmark.program.ended (c.crew.locals i) = true
  frozen : c.frozen = true → 5 < (c.places none).rank
  joined : c.places none = .ended → c.Joined none

structure Inv (benchmark : Benchmark Shared Local Label) (c : benchmark.Config) : Prop where
  gate : ∀ gate, Barrier.Inv (c.gates gate)
  agrees : ∀ gate a, Agrees gate (c.places a) ((c.gates gate).pcs a)
  entries_nodup : ∀ gate, (c.entries gate).Nodup
  mem_entries : ∀ gate a, a ∈ c.entries gate ↔ (c.gates gate).pcs a ≠ .outside
  spawned : c.spawned ≤ benchmark.nthreads.toNat
  clock : c.clock ≤ benchmark.clockSets
  order : InOrder benchmark c
  log : LogOk benchmark.clockSets c.clock c.frozen c.log

private theorem fits_threads (nthreads : UInt64) :
    Barrier.Fits (Thread nthreads.toNat) (nthreads + 1) := by
  have hcard : Fintype.card (Thread nthreads.toNat) = nthreads.toNat + 1 := by simp
  have hbound := nthreads.toNat_lt
  have hadd : (nthreads + 1).toNat = (nthreads.toNat + 1) % 2 ^ 64 := UInt64.toNat_add _ _
  unfold Barrier.Fits
  rw [hcard]
  by_cases hlast : nthreads.toNat + 1 < 2 ^ 64
  · left
    rw [hadd, Nat.mod_eq_of_lt hlast]
  · right
    have hmax : nthreads.toNat + 1 = 2 ^ 64 := by omega
    refine ⟨UInt64.toNat.inj ?_, hmax⟩
    rw [hadd, hmax]
    rfl

section Preservation

variable {benchmark : Benchmark Shared Local Label} {c c' : benchmark.Config}

theorem inv_initial (hinitial : benchmark.Initial c) : Inv benchmark c where
  gate gate := by
    rw [hinitial.gates]
    exact Barrier.inv_construct (fits_threads benchmark.nthreads)
  agrees gate a := by
    rw [hinitial.places, hinitial.gates]
    cases gate <;> exact ⟨fun _ => rfl, nofun, nofun⟩
  entries_nodup gate := by
    rw [hinitial.entries]
    exact .nil
  mem_entries gate a := by
    rw [hinitial.entries, hinitial.gates]
    simp [Barrier.construct]
  spawned := by
    rw [hinitial.spawned]
    exact Nat.zero_le _
  clock := by
    rw [hinitial.clock]
    exact Nat.zero_le _
  order := by
    constructor <;> simp [hinitial.places, hinitial.frozen, Place.rank]
  log := by
    rw [hinitial.log, hinitial.clock, hinitial.frozen]
    exact ⟨[], rfl, fun hne => absurd rfl hne⟩

theorem Inv.reached (hinv : Inv benchmark c) (gate : Gate) (a : Thread benchmark.nthreads.toNat)
    (hbehind : gate.rank < (c.places a).rank) (b : Thread benchmark.nthreads.toNat) :
    gate.rank ≤ (c.places b).rank := by
  have hreturned := (hinv.agrees gate a).behind hbehind
  have hzero : (c.gates gate).nthreads = 0 :=
    (hinv.gate gate).passed a (by simp [hreturned, Barrier.Pc.Passed])
  have hall := ((hinv.gate gate).zero_iff (b := a)
    (by simp [hreturned, Barrier.Pc.Decremented])).mp hzero b
  by_contra hbefore
  have houtside := (hinv.agrees gate b).before (by omega)
  simp [houtside, Barrier.Pc.Decremented] at hall

theorem Inv.working (hinv : Inv benchmark c) {i : Fin benchmark.nthreads.toNat}
    (hworking : c.places (some i) = .working) :
    c.clock = benchmark.clockSets ∧ c.frozen = false := by
  constructor
  · have htimer := hinv.reached .timer (some i) (by rw [hworking]; decide) none
    exact hinv.order.timed (Nat.lt_of_lt_of_le (by decide) htimer)
  · by_contra hfrozen
    have hmain := hinv.order.frozen (Bool.eq_true_of_not_eq_false hfrozen)
    have hfinish := hinv.reached .finish none hmain (some i)
    rw [hworking] at hfinish
    exact absurd hfinish (by decide)

theorem Inv.all_done (hinv : Inv benchmark c) (hclosing : 5 < (c.places none).rank)
    (i : Fin benchmark.nthreads.toNat) : benchmark.program.ended (c.crew.locals i) = true := by
  have hfinish := hinv.reached .finish none hclosing (some i)
  exact hinv.order.done i (Nat.lt_of_lt_of_le (by decide) hfinish)

theorem InOrder.move (horder : InOrder benchmark c) {a : Thread benchmark.nthreads.toNat}
    {place : Place} (hnext : place.rank = (c.places a).rank + 1) (hstarted : c.Started a)
    (hidle : benchmark.Idle c a) (hjoined : place = .ended → c.Joined a) :
    InOrder benchmark (c.move a place) := by
  have hself : (c.move a place).places a = place := Function.update_self ..
  have hother {b : Thread benchmark.nthreads.toNat} (hb : b ≠ a) :
      (c.move a place).places b = c.places b := Function.update_of_ne hb ..
  constructor
  · intro b hrank
    have hb : c.Started b := by
      by_cases hb : b = a
      · rwa [hb]
      · rw [hother hb] at hrank
        exact horder.started b hrank
    cases b <;> exact hb
  · intro hrank
    by_cases hmain : none = a
    · subst hmain
      rw [hself, hnext] at hrank
      by_cases hsetting : (c.places none).rank = Place.setting.rank
      · exact hidle (place_eq_of_rank hsetting)
      · have hpast : (c.places none).rank ≠ 2 := hsetting
        exact horder.timed (by omega)
    · rw [hother hmain] at hrank
      exact horder.timed hrank
  · intro i hrank
    by_cases hworker : some i = a
    · subst hworker
      rw [hself, hnext] at hrank
      by_cases hworking : (c.places (some i)).rank = Place.working.rank
      · exact hidle (place_eq_of_rank hworking)
      · have hpast : (c.places (some i)).rank ≠ 4 := hworking
        exact horder.done i (by omega)
    · rw [hother hworker] at hrank
      exact horder.done i hrank
  · intro hfrozen
    have hmain := horder.frozen hfrozen
    by_cases hb : none = a
    · subst hb
      rw [hself, hnext]
      omega
    · rwa [hother hb]
  · intro hended
    have hworkers : c.Joined none → (∀ i, some i ≠ a) → (c.move a place).Joined none :=
      fun hc hne => ⟨hc.1, fun i => by rw [hother (hne i)]; exact hc.2 i⟩
    by_cases hb : none = a
    · subst hb
      rw [hself] at hended
      exact hworkers (hjoined hended) nofun
    · rw [hother hb] at hended
      refine hworkers (horder.joined hended) fun i hi => ?_
      rw [← hi, (horder.joined hended).2 i] at hnext
      have hlast : place.rank ≤ 7 := by
        cases place with
        | entering gate => cases gate <;> decide
        | _ => decide
      simp only [Place.rank] at hnext hlast
      omega

theorem Inv.spawn (hinv : Inv benchmark c) (hmain : c.places none = .preparing)
    (hmore : c.spawned < benchmark.nthreads.toNat) :
    Inv benchmark { c with spawned := c.spawned + 1 } := by
  have horder := hinv.order
  refine { hinv with spawned := hmore, order := { horder with started := ?_ } }
  intro a hrank
  cases a with
  | none =>
      rw [hmain] at hrank
      cases hrank
  | some i => exact Nat.lt_succ_of_lt (horder.started (some i) hrank)

theorem Inv.move (hinv : Inv benchmark c) {a : Thread benchmark.nthreads.toNat} {place : Place}
    (hopen : ∀ gate : Gate, (c.places a).rank ≠ gate.rank)
    (hnext : place.rank = (c.places a).rank + 1) (hstarted : c.Started a)
    (hidle : benchmark.Idle c a) (hjoined : place = .ended → c.Joined a) :
    Inv benchmark (c.move a place) := by
  refine { hinv with
    agrees := fun gate => ?_
    order := hinv.order.move hnext hstarted hidle hjoined }
  exact forall_update (motive := fun b place => Agrees gate place ((c.gates gate).pcs b))
    ((hinv.agrees gate a).advance (hopen gate) hnext) fun b _ => hinv.agrees gate b

theorem Inv.entered_agrees_self (hinv : Inv benchmark c) {gate : Gate}
    {a : Thread benchmark.nthreads.toNat} {action : Barrier.Action}
    {barrier : Barrier.State (Thread benchmark.nthreads.toNat)}
    (hplace : c.places a = .entering gate) (other : Gate) :
    Agrees other ((c.entered gate a action barrier).places a)
      (((c.entered gate a action barrier).gates other).pcs a) := by
  have hagrees := hinv.agrees other a
  have hafter : gate.after.rank = gate.rank + 1 := rank_after gate
  rw [Config.places_entered_self hplace]
  by_cases hother : other = gate
  · subst hother
    rw [Config.gates_entered_self]
    split
    · rename_i hreturned
      exact ⟨fun _ => by omega, fun _ => by omega, fun _ => hreturned⟩
    · rename_i hinside
      exact ⟨fun h => absurd h (Nat.lt_irrefl _), fun _ => hinside,
        fun h => absurd h (Nat.lt_irrefl _)⟩
  · rw [Config.gates_entered_of_ne hother]
    rw [hplace] at hagrees
    split
    · refine hagrees.advance (fun hrank => hother ?_) hafter
      cases gate <;> cases other <;> simp_all [Place.rank, Gate.rank]
    · exact hagrees

theorem Inv.entered_agrees (hinv : Inv benchmark c) {gate : Gate}
    {a : Thread benchmark.nthreads.toNat} {action : Barrier.Action}
    {barrier : Barrier.State (Thread benchmark.nthreads.toNat)}
    (hplace : c.places a = .entering gate)
    (hstep : Barrier.step (c.gates gate) a action = some barrier)
    (other : Gate) (b : Thread benchmark.nthreads.toNat) :
    Agrees other ((c.entered gate a action barrier).places b)
      (((c.entered gate a action barrier).gates other).pcs b) := by
  by_cases hb : b = a
  · subst hb
    exact hinv.entered_agrees_self hplace other
  · have hagrees := hinv.agrees other b
    rw [Config.places_entered_of_ne hb]
    by_cases hother : other = gate
    · subst hother
      rw [Config.gates_entered_self]
      cases Barrier.pcs_of_ne hstep hb with
      | inl hsame => rwa [hsame]
      | inr hwoken =>
          rw [hwoken.1] at hagrees
          rw [hwoken.2]
          exact ⟨fun h => absurd (hagrees.before h) (by decide), fun _ => by decide,
            fun h => absurd (hagrees.behind h) (by decide)⟩
    · rwa [Config.gates_entered_of_ne hother]

theorem Inv.entered_entries (hinv : Inv benchmark c) {gate : Gate}
    {a : Thread benchmark.nthreads.toNat} {action : Barrier.Action}
    {barrier : Barrier.State (Thread benchmark.nthreads.toNat)}
    (hstep : Barrier.step (c.gates gate) a action = some barrier) (other : Gate) :
    ((c.entered gate a action barrier).entries other).Nodup ∧
    ∀ b, b ∈ (c.entered gate a action barrier).entries other ↔
      ((c.entered gate a action barrier).gates other).pcs b ≠ .outside := by
  have hnodup := hinv.entries_nodup other
  have hmem := hinv.mem_entries other
  by_cases hother : other = gate
  · subst hother
    have houtside := Barrier.outside_iff_lock hstep
    have hself := Barrier.pcs_self_ne_outside hstep
    have hsame : ∀ b, b ≠ a →
        (barrier.pcs b ≠ .outside ↔ (c.gates other).pcs b ≠ .outside) := by
      intro b hb
      cases Barrier.pcs_of_ne hstep hb with
      | inl heq => rw [heq]
      | inr hwoken => simp [hwoken.1, hwoken.2]
    rw [Config.gates_entered_self]
    by_cases hlock : action = .lock
    · have hnew : a ∉ c.entries other := by
        rw [hmem]
        exact not_not_intro (houtside.mpr hlock)
      rw [hlock, Config.entries_entered_of_lock]
      constructor
      · exact List.nodup_append.mpr ⟨hnodup, List.nodup_singleton a, by
          intro x hx y hy heq
          rw [List.mem_singleton.mp hy] at heq
          exact hnew (heq ▸ hx)⟩
      · intro b
        by_cases hb : b = a
        · simp [hb, hself]
        · simp [hb, hmem, hsame b hb]
    · rw [Config.entries_entered_of_ne_lock hlock]
      refine ⟨hnodup, fun b => ?_⟩
      by_cases hb : b = a
      · simp [hb, hself, hmem, houtside, hlock]
      · rw [hmem, hsame b hb]
  · rw [Config.gates_entered_of_ne hother, Config.entries_entered_of_ne hother]
    exact ⟨hnodup, hmem⟩

theorem Inv.enter (hinv : Inv benchmark c) {gate : Gate} {a : Thread benchmark.nthreads.toNat}
    {action : Barrier.Action} {barrier : Barrier.State (Thread benchmark.nthreads.toNat)}
    (hplace : c.places a = .entering gate)
    (hstep : Barrier.step (c.gates gate) a action = some barrier) :
    Inv benchmark (c.entered gate a action barrier) where
  gate := forall_update (motive := fun _ barrier => Barrier.Inv barrier)
    ((hinv.gate gate).preserved hstep) fun other _ => hinv.gate other
  agrees := hinv.entered_agrees hplace hstep
  entries_nodup other := (hinv.entered_entries hstep other).1
  mem_entries other := (hinv.entered_entries hstep other).2
  spawned := hinv.spawned
  clock := hinv.clock
  order := by
    unfold Config.entered
    split
    · have hstarted := hinv.order.started a (by rw [hplace]; cases gate <;> decide)
      have hidle : benchmark.Idle c a := by
        cases a <;> simp [Benchmark.Idle, hplace]
      have horder := hinv.order.move (hplace ▸ rank_after gate) hstarted hidle
        (by cases gate <;> nofun)
      exact ⟨horder.started, horder.timed, horder.done, horder.frozen, horder.joined⟩
    · have horder := hinv.order
      exact ⟨horder.started, horder.timed, horder.done, horder.frozen, horder.joined⟩
  log := hinv.log

theorem Inv.setT0 (hinv : Inv benchmark c) (hmain : c.places none = .setting)
    (hmore : c.clock < benchmark.clockSets) :
    Inv benchmark { c with clock := c.clock + 1, log := c.log ++ [.setT0] } := by
  have horder := hinv.order
  have hthawed : c.frozen = false := by
    by_contra hfrozen
    have hrank := horder.frozen (Bool.eq_true_of_not_eq_false hfrozen)
    rw [hmain] at hrank
    exact absurd hrank (by decide)
  obtain ⟨works, hlog, hworks⟩ := hinv.log.shape
  have hnone : works = [] := by
    by_contra hne
    have hset := hworks hne
    omega
  refine { hinv with clock := hmore, order := { horder with timed := ?_ }, log := ⟨[], ?_, ?_⟩ }
  · intro hrank
    rw [hmain] at hrank
    exact absurd hrank (by decide)
  · rw [hlog, hnone, hthawed]
    simp [List.replicate_succ']
  · exact fun hne => absurd rfl hne

theorem Inv.work (hinv : Inv benchmark c) {i : Fin benchmark.nthreads.toNat} {label : Label}
    {crew : Crew benchmark.nthreads.toNat Shared Local} (hplace : c.places (some i) = .working)
    (hwork : c.crew.work benchmark.program i label = some crew) :
    Inv benchmark { c with crew := crew, log := c.log ++ [.work i label] } := by
  have horder := hinv.order
  obtain ⟨hset, hthawed⟩ := hinv.working hplace
  obtain ⟨works, hlog, _⟩ := hinv.log.shape
  obtain ⟨shared, l, _, rfl⟩ := work_eq_some_iff.mp hwork
  refine { hinv with
    order := { horder with done := ?_ }, log := ⟨works ++ [(i, label)], ?_, fun _ => hset⟩ }
  · intro j hrank
    have hj : j ≠ i := by
      rintro rfl
      rw [hplace] at hrank
      exact absurd hrank (by decide)
    simp only [Function.update_of_ne hj]
    exact horder.done j hrank
  · rw [hlog, hthawed]
    simp

theorem Inv.freeze (hinv : Inv benchmark c) (hmain : c.places none = .closing)
    (hthawed : c.frozen = false) :
    Inv benchmark { c with frozen := true, log := c.log ++ [.setT1] } := by
  have horder := hinv.order
  obtain ⟨works, hlog, hworks⟩ := hinv.log.shape
  refine { hinv with
    order := { horder with frozen := ?_, joined := ?_ }, log := ⟨works, ?_, hworks⟩ }
  · intro _
    rw [hmain]
    decide
  · intro hended
    rw [hmain] at hended
    cases hended
  · rw [hlog, hthawed]
    simp

theorem Inv.exit (hinv : Inv benchmark c) {a : Thread benchmark.nthreads.toNat}
    (hplace : c.places a = .closing) (hjoined : c.Joined a) : Inv benchmark (c.move a .ended) := by
  refine hinv.move ?_ ?_ (hinv.order.started a ?_) ?_ fun _ => hjoined
  · intro gate
    rw [hplace]
    cases gate <;> decide
  · rw [hplace]
    rfl
  · rw [hplace]
    decide
  · cases a <;> simp [Benchmark.Idle, hplace]

theorem Inv.arrive (hinv : Inv benchmark c) {a : Thread benchmark.nthreads.toNat} {gate : Gate}
    (hgate : (c.places a).gate = some gate) (hstarted : c.Started a) (hidle : benchmark.Idle c a) :
    Inv benchmark (c.move a (.entering gate)) :=
  hinv.move (rank_ne_of_gate hgate) (rank_entering_of_gate hgate) hstarted hidle nofun

theorem Inv.preserved (hinv : Inv benchmark c) {action : Action benchmark.nthreads.toNat Label}
    (hstep : benchmark.step c action = some c') : Inv benchmark c' := by
  cases action with
  | spawn =>
      obtain ⟨⟨hmain, hmore⟩, heq⟩ := Option.ite_none_right_eq_some.mp hstep
      cases heq
      exact hinv.spawn hmain hmore
  | arrive a =>
      obtain ⟨⟨hstarted, hidle⟩, hmap⟩ := Option.ite_none_right_eq_some.mp hstep
      obtain ⟨gate, hgate, rfl⟩ := Option.map_eq_some_iff.mp hmap
      exact hinv.arrive hgate hstarted hidle
  | enter gate a action =>
      obtain ⟨hplace, hmap⟩ := Option.ite_none_right_eq_some.mp hstep
      obtain ⟨barrier, hbarrier, rfl⟩ := Option.map_eq_some_iff.mp hmap
      exact hinv.enter hplace hbarrier
  | setT0 =>
      obtain ⟨⟨hmain, hmore⟩, heq⟩ := Option.ite_none_right_eq_some.mp hstep
      cases heq
      exact hinv.setT0 hmain hmore
  | work i label =>
      obtain ⟨hplace, hmap⟩ := Option.ite_none_right_eq_some.mp hstep
      obtain ⟨crew, hwork, rfl⟩ := Option.map_eq_some_iff.mp hmap
      exact hinv.work hplace hwork
  | freeze =>
      obtain ⟨⟨hmain, hthawed⟩, heq⟩ := Option.ite_none_right_eq_some.mp hstep
      cases heq
      exact hinv.freeze hmain hthawed
  | exit a =>
      obtain ⟨⟨hplace, hjoined⟩, heq⟩ := Option.ite_none_right_eq_some.mp hstep
      cases heq
      exact hinv.exit hplace hjoined

theorem inv_of_reachable (hc : benchmark.machine.Reachable c) : Inv benchmark c := by
  apply hc.invariant (motive := Inv benchmark) (fun c hinitial => inv_initial hinitial)
  intro c action c' _ hinv hstep
  exact hinv.preserved hstep

/-- The frame does not interfere: the workers do what they would do alone. -/
theorem crew_reachable (hc : benchmark.machine.Reachable c) :
    benchmark.program.system.Reachable c.crew := by
  apply hc.invariant (motive := fun c => benchmark.program.system.Reachable c.crew)
  · intro c hinitial
    exact System.reachable_init ⟨hinitial.shared, hinitial.locals⟩
  · intro c action c' _ hcrew hstep
    have hstep : benchmark.step c action = some c' := hstep
    cases action with
    | arrive a =>
        obtain ⟨_, hmap⟩ := Option.ite_none_right_eq_some.mp hstep
        obtain ⟨gate, _, rfl⟩ := Option.map_eq_some_iff.mp hmap
        exact hcrew
    | enter gate a action =>
        obtain ⟨_, hmap⟩ := Option.ite_none_right_eq_some.mp hstep
        obtain ⟨barrier, _, rfl⟩ := Option.map_eq_some_iff.mp hmap
        exact hcrew
    | work i label =>
        obtain ⟨_, hmap⟩ := Option.ite_none_right_eq_some.mp hstep
        obtain ⟨crew, hwork, rfl⟩ := Option.map_eq_some_iff.mp hmap
        have hmove : benchmark.program.system.step c.crew (i, label) crew := hwork
        exact hcrew.step hmove
    | _ =>
        obtain ⟨_, heq⟩ := Option.ite_none_right_eq_some.mp hstep
        cases heq
        exact hcrew

end Preservation

section Progress

variable {benchmark : Benchmark Shared Local Label} {c : benchmark.Config}

/-- Some step other than a spurious wake-up can be taken. -/
def CanGoOn (benchmark : Benchmark Shared Local Label) (c : benchmark.Config) : Prop :=
  ∃ action c', (∀ gate a, action ≠ .enter gate a .wake) ∧ benchmark.step c action = some c'

theorem canGoOn_arrive {a : Thread benchmark.nthreads.toNat} {gate : Gate}
    (hgate : (c.places a).gate = some gate) (hstarted : c.Started a) (hidle : benchmark.Idle c a) :
    CanGoOn benchmark c := by
  refine ⟨.arrive a, c.move a (.entering gate), nofun, ?_⟩
  simp only [Benchmark.step, hstarted, hidle, hgate, and_self, if_true, Option.map_some]

theorem Inv.canGoOn_preparing (hinv : Inv benchmark c) {a : Thread benchmark.nthreads.toNat}
    (hplace : c.places a = .preparing) : CanGoOn benchmark c := by
  have hgate : (c.places a).gate = some .ready := by rw [hplace]; rfl
  have hidle : benchmark.Idle c a := by
    cases a <;> simp [Benchmark.Idle, hplace]
  by_cases hstarted : c.Started a
  · exact canGoOn_arrive hgate hstarted hidle
  · have hmore : c.spawned < benchmark.nthreads.toNat := by
      have hspawned := hinv.spawned
      cases a with
      | none => exact lt_of_le_of_ne hspawned hstarted
      | some i => exact (Nat.le_of_not_lt hstarted).trans_lt i.isLt
    have hmain : c.places none = .preparing := by
      apply place_eq_of_rank
      by_contra hrank
      have hall : c.spawned = benchmark.nthreads.toNat :=
        hinv.order.started none (Nat.pos_of_ne_zero hrank)
      omega
    exact ⟨.spawn, _, nofun, by simp only [Benchmark.step, hmain, hmore, and_self, if_true]; rfl⟩

theorem Inv.canGoOn_setting (hinv : Inv benchmark c) {a : Thread benchmark.nthreads.toNat}
    (hplace : c.places a = .setting) : CanGoOn benchmark c := by
  have hgate : (c.places a).gate = some .timer := by rw [hplace]; rfl
  have hstarted : c.Started a := hinv.order.started a (by rw [hplace]; decide)
  cases a with
  | some i => exact canGoOn_arrive hgate hstarted (by simp [Benchmark.Idle, hplace])
  | none =>
      by_cases hset : c.clock = benchmark.clockSets
      · exact canGoOn_arrive hgate hstarted fun _ => hset
      · have hmore := lt_of_le_of_ne hinv.clock hset
        exact ⟨.setT0, _, nofun, by
          simp only [Benchmark.step, hplace, hmore, and_self, if_true]; rfl⟩

theorem Inv.canGoOn_working (hinv : Inv benchmark c) {a : Thread benchmark.nthreads.toNat}
    (hplace : c.places a = .working) : CanGoOn benchmark c := by
  have hgate : (c.places a).gate = some .finish := by rw [hplace]; rfl
  have hstarted : c.Started a := hinv.order.started a (by rw [hplace]; decide)
  cases a with
  | none => exact canGoOn_arrive hgate hstarted (by simp [Benchmark.Idle, hplace])
  | some i =>
      by_cases hended : benchmark.program.ended (c.crew.locals i) = true
      · exact canGoOn_arrive hgate hstarted fun _ => hended
      · obtain ⟨label, result, hresult⟩ :=
          benchmark.program.live i c.crew.shared _ (Bool.eq_false_of_not_eq_true hended)
        refine ⟨.work i label, { c with
          crew := ⟨result.1, Function.update c.crew.locals i result.2⟩
          log := c.log ++ [.work i label] }, nofun, ?_⟩
        simp only [Benchmark.step, hplace, if_true, Crew.work, hresult, Option.map_some]

/-- The threads that have come least far stand at a barrier: one of them can
take a step of its call. -/
theorem Inv.canGoOn_entering (hinv : Inv benchmark c) {a : Thread benchmark.nthreads.toNat}
    {gate : Gate} (hplace : c.places a = .entering gate)
    (hleast : ∀ b, (c.places a).rank ≤ (c.places b).rank) : CanGoOn benchmark c := by
  have hinside : ((c.gates gate).pcs a) ≠ .returned :=
    (hinv.agrees gate a).inside (by rw [hplace]; rfl)
  obtain ⟨b, action, barrier, hwake, hstep⟩ := (hinv.gate gate).progress hinside
  have hb : c.places b = .entering gate := by
    refine place_eq_of_rank (le_antisymm ?_ ?_)
    · by_contra hbehind
      exact Barrier.ne_returned_of_step hstep
        ((hinv.agrees gate b).behind (Nat.lt_of_not_le hbehind))
    · rw [← hplace]
      exact hleast b
  refine ⟨.enter gate b action, c.entered gate b action barrier, ?_, ?_⟩
  · intro gate' a' heq
    cases heq
    exact hwake rfl
  · simp only [Benchmark.step, hb, if_true, hstep, Option.map_some]

theorem Inv.canGoOn (hinv : Inv benchmark c) (hmain : c.places none ≠ .ended) :
    CanGoOn benchmark c := by
  obtain ⟨a, hleast⟩ := Finite.exists_min fun a => (c.places a).rank
  cases hplace : c.places a with
  | preparing => exact hinv.canGoOn_preparing hplace
  | entering gate => exact hinv.canGoOn_entering hplace hleast
  | setting => exact hinv.canGoOn_setting hplace
  | working => exact hinv.canGoOn_working hplace
  | closing =>
      have hlate : ∀ b, c.places b = .closing ∨ c.places b = .ended := by
        intro b
        have hrank := hleast b
        rw [hplace] at hrank
        cases hb : c.places b with
        | entering gate =>
            rw [hb] at hrank
            cases gate <;> exact absurd hrank (by decide)
        | closing => exact .inl rfl
        | ended => exact .inr rfl
        | _ =>
            rw [hb] at hrank
            exact absurd hrank (by decide)
      have hclosing : c.places none = .closing := (hlate none).resolve_right hmain
      by_cases hworker : ∃ i, c.places (some i) = .closing
      · obtain ⟨i, hi⟩ := hworker
        exact ⟨.exit (some i), _, nofun, by
          simp only [Benchmark.step, hi, Config.Joined, and_self, if_true]; rfl⟩
      · have hended : ∀ i, c.places (some i) = .ended :=
          fun i => (hlate (some i)).resolve_left fun hi => hworker ⟨i, hi⟩
        by_cases hfrozen : c.frozen = true
        · have hjoined : c.Joined none := ⟨hfrozen, hended⟩
          exact ⟨.exit none, _, nofun, by
            simp only [Benchmark.step, hclosing, hjoined, and_self, if_true]; rfl⟩
        · have hthawed := Bool.eq_false_of_not_eq_true hfrozen
          exact ⟨.freeze, _, nofun, by
            simp only [Benchmark.step, hclosing, hthawed, and_self, if_true]; rfl⟩
  | ended =>
      have hrank := hleast none
      rw [hplace] at hrank
      refine absurd (place_eq_of_rank (le_antisymm ?_ hrank)) hmain
      cases c.places none with
      | entering gate => cases gate <;> decide
      | _ => decide

end Progress

structure WindowOk (benchmark : Benchmark Shared Local Label) (c : benchmark.Config) : Prop where
  /-- Nobody enters a barrier twice, and when `main` is behind it, all have. -/
  once : ∀ gate, (c.entries gate).Nodup
  all : ∀ gate : Gate, gate.rank < (c.places none).rank →
    (c.entries gate).length = benchmark.nthreads.toNat + 1
  window : LogOk benchmark.clockSets c.clock c.frozen c.log
  done : c.frozen = true → ∀ i, benchmark.program.ended (c.crew.locals i) = true
  canGoOn : c.places none ≠ .ended → CanGoOn benchmark c

def NoWrap (benchmark : Benchmark Shared Local Label) (c : benchmark.Config) : Prop :=
  ∀ gate a barrier, Barrier.step (c.gates gate) a .decrement = some barrier →
    barrier.nthreads.toNat + 1 = (c.gates gate).nthreads.toNat

variable {benchmark : Benchmark Shared Local Label} {c : benchmark.Config}

theorem windowOk_of_reachable (hc : benchmark.machine.Reachable c) : WindowOk benchmark c := by
  have hinv := inv_of_reachable hc
  refine ⟨hinv.entries_nodup, ?_, hinv.log, ?_, hinv.canGoOn⟩
  · intro gate hbehind
    have hall : ∀ a, a ∈ c.entries gate := by
      intro a
      rw [hinv.mem_entries]
      intro houtside
      have hreturned := (hinv.agrees gate none).behind hbehind
      have hzero := (hinv.gate gate).passed none (by simp [hreturned, Barrier.Pc.Passed])
      have hdecremented := ((hinv.gate gate).zero_iff (b := none)
        (by simp [hreturned, Barrier.Pc.Decremented])).mp hzero a
      simp [houtside, Barrier.Pc.Decremented] at hdecremented
    have huniv : (c.entries gate).toFinset = Finset.univ := by
      ext a
      simp [hall a]
    rw [← List.toFinset_card_of_nodup (hinv.entries_nodup gate), huniv, Finset.card_univ]
    simp
  · intro hfrozen
    exact hinv.all_done (hinv.order.frozen hfrozen)

theorem noWrap_of_reachable (hc : benchmark.machine.Reachable c)
    (hnthreads : benchmark.nthreads.toNat + 1 < 2 ^ 64) : NoWrap benchmark c := by
  intro gate a barrier hstep
  have hcard : Fintype.card (Thread benchmark.nthreads.toNat) < 2 ^ 64 := by simpa using hnthreads
  have hgate := (inv_of_reachable hc).gate gate
  cases Barrier.moves_of_step hstep with
  | decrement hpc =>
      exact hgate.toNat_decrement (a := a) hcard (by simp [hpc, Barrier.Pc.Decremented])

end SpackPlayground.Timing.Window
