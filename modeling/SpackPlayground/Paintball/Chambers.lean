import SpackPlayground.Library.Ownership
import SpackPlayground.Paintball.Code

/-! The chambers hold at most a bullet each, in the pool as on the medium, whatever becomes
of the processes. -/
namespace SpackPlayground.Paintball

open Library.CrashHoare Library.Ownership Library.Persistence Library.Transition

abbrev Bullets := Chamber → Option UInt32

structure Result where
  bullets : Bullets
  out : Text
  err : Text

def Result.behind (t r : Result) : Result := ⟨r.bullets, t.out ++ r.out, t.err ++ r.err⟩

inductive Ends (bullets : Bullets) (pid : Nat) : Nat → Result → Prop where
  | unopened (why : Text) : Ends bullets pid 1 ⟨bullets, [], couldntOpen why⟩
  | rootless : Ends bullets pid 1 ⟨bullets, [], noRoot⟩
  | reloaded (now : UInt64) : bullets (chamberOf pid) = none →
      Ends bullets pid 0
        ⟨Function.update bullets (chamberOf pid) (some (color now)), reloading, []⟩
  | full (why : Text) : bullets (chamberOf pid) = none →
      Ends bullets pid 1 ⟨bullets, reloading, failedToAlloc why⟩
  | shot (c : UInt32) : bullets (chamberOf pid) = some c →
      Ends bullets pid 0 ⟨Function.update bullets (chamberOf pid) none, shooting c, []⟩

/-- What a process can leave that is killed; its output may never have been flushed. -/
inductive Stops (bullets : Bullets) (pid : Nat) : Result → Prop where
  | cut {status : Nat} {r : Result} {bullets' : Bullets} {out err : Text} :
      Ends bullets pid status r → bullets' = bullets ∨ bullets' = r.bullets →
      out <+: r.out → err = [] ∨ err = r.err → Stops bullets pid ⟨bullets', out, err⟩

inductive GunMoves (t : Result) : Event → Result → Prop where
  | ran {pid status : Nat} {r : Result} : Ends t.bullets pid status r →
      GunMoves t (.ran pid status) (t.behind r)
  | killed {pid : Nat} {r : Result} : Stops t.bullets pid r →
      GunMoves t (.killed pid) (t.behind r)
  | powerFailed {pid : Nat} {r : Result} : Stops t.bullets pid r →
      GunMoves t (.powerFailed pid) (t.behind r)

def gun : System Result Event where
  init t := t = ⟨fun _ => none, [], []⟩
  step := GunMoves

/-- The chambers share no bullet, no bullet is lost, and all are durable. -/
structure Loaded (bullets : Bullets) (p : Pool) : Prop where
  owned : Exclusive p.chambers p.live
  covered : Covered p.chambers p.live
  durable : p.memory.Durable p.live
  bullets : ∀ k, bullets k = (p.chambers k).map p.memory.view

/-- Inside a process that found `t`: it has printed `r.out`, flushed or not. -/
structure During (t r : Result) (p : Pool) : Prop extends Loaded r.bullets p where
  out : ∃ front, p.out = t.out ++ front ∧ front ++ p.buffer = r.out
  err : p.err = t.err ++ r.err

section Steps

variable {t r : Result} {bullets : Bullets} {more : Text} {p p' : Pool} {k : Chamber} {o : Oid}
  {c : UInt32}

theorem Drifts.live (hdrifts : Drifts p p') : p'.live = p.live := by
  cases hdrifts <;> rfl

theorem Drifts.chambers (hdrifts : Drifts p p') : p'.chambers = p.chambers := by
  cases hdrifts <;> rfl

theorem Drifts.view (hdrifts : Drifts p p') : p'.memory.view = p.memory.view := by
  cases hdrifts with
  | evict memory hevicts => exact hevicts.view_eq
  | fflush => rfl

theorem Drifts.durable {s : Set Oid} (hdrifts : Drifts p p') (hdurable : p.memory.Durable s) :
    p'.memory.Durable s := by
  cases hdrifts with
  | evict memory hevicts => exact hevicts.durable hdurable
  | fflush => exact hdurable

theorem Drifts.safe {s : Set Oid} (hdrifts : Drifts p p') (hsafe : p.memory.Safe s) :
    p'.memory.Safe s := by
  cases hdrifts with
  | evict memory hevicts => exact hevicts.safe hsafe
  | fflush => exact hsafe

theorem Loaded.drift (hloaded : Loaded bullets p) (hdrifts : Drifts p p') :
    Loaded bullets p' where
  owned := by
    rw [hdrifts.chambers, hdrifts.live]
    exact hloaded.owned
  covered := by
    rw [hdrifts.chambers, hdrifts.live]
    exact hloaded.covered
  durable := by
    rw [hdrifts.live]
    exact hdrifts.durable hloaded.durable
  bullets j := by
    rw [hdrifts.chambers, hdrifts.view]
    exact hloaded.bullets j

theorem stable_during : Stable semantics (During t r) := by
  intro p p' hduring hdrifts
  refine ⟨hduring.toLoaded.drift hdrifts, ?_, ?_⟩
  · obtain ⟨front, hout, htext⟩ := hduring.out
    cases hdrifts with
    | evict => exact ⟨front, hout, htext⟩
    | fflush flushed back hbuffer =>
        refine ⟨front ++ flushed, ?_, ?_⟩
        · rw [← List.append_assoc, ← hout]
        · rw [List.append_assoc, ← hbuffer, htext]
  · cases hdrifts <;> exact hduring.err

theorem stable_chamber {x : Option Oid} : Stable semantics fun p => p.chambers k = x := by
  intro p p' hchamber hdrifts
  exact (congrFun (Drifts.chambers hdrifts) k).trans hchamber

theorem stable_fresh : Stable semantics fun p => o ∉ p.live := by
  intro p p' hfresh hdrifts
  rwa [Drifts.live hdrifts]

theorem stable_view : Stable semantics fun p => p.memory.view o = c := by
  intro p p' hview hdrifts
  exact (congrFun (Drifts.view hdrifts) o).trans hview

private theorem stable_safe : Stable semantics fun p => p.memory.Safe {o} :=
  fun _ _ hsafe hdrifts => Drifts.safe hdrifts hsafe

private theorem stable_durable : Stable semantics fun p => p.memory.Durable {o} :=
  fun _ _ hdurable hdrifts => Drifts.durable hdrifts hdurable

theorem During.printf (hduring : During t r p) :
    During t { r with out := r.out ++ more } { p with buffer := p.buffer ++ more } := by
  obtain ⟨front, hout, htext⟩ := hduring.out
  refine ⟨⟨hduring.owned, hduring.covered, hduring.durable, hduring.bullets⟩, ⟨front, hout, ?_⟩,
    hduring.err⟩
  rw [← List.append_assoc, htext]

theorem During.eprintf (hduring : During t r p) :
    During t { r with err := r.err ++ more } { p with err := p.err ++ more } := by
  refine ⟨⟨hduring.owned, hduring.covered, hduring.durable, hduring.bullets⟩, hduring.out, ?_⟩
  rw [← List.append_assoc, ← hduring.err]

theorem During.store (hduring : During t r p) (hfresh : o ∉ p.live) :
    During t r { p with memory := p.memory.store o c } := by
  refine ⟨⟨hduring.owned, hduring.covered, hduring.durable.store hfresh, fun j => ?_⟩,
    hduring.out, hduring.err⟩
  rw [hduring.bullets j]
  cases hj : p.chambers j with
  | none => rfl
  | some other =>
      have hlive := hduring.owned.live j other hj
      exact congrArg some (Memory.view_store_of_mem hlive hfresh).symm

theorem During.flush (hduring : During t r p) (range : Oid → Bool) :
    During t r { p with memory := p.memory.flush range } :=
  ⟨⟨hduring.owned, hduring.covered, hduring.durable, hduring.bullets⟩, hduring.out, hduring.err⟩

theorem During.drain (hduring : During t r p) :
    During t r { p with memory := p.memory.drain } :=
  ⟨⟨hduring.owned, hduring.covered, Pipeline.durable_drain hduring.durable, hduring.bullets⟩,
    hduring.out, hduring.err⟩

theorem During.publish (hduring : During t r p) (hfresh : o ∉ p.live)
    (hview : p.memory.view o = c) (hdurable : p.memory.Durable {o}) (hempty : p.chambers k = none) :
    During t { r with bullets := Function.update r.bullets k (some c) } (p.publish k o) := by
  refine ⟨⟨hduring.owned.assign hfresh,
    (hduring.owned.covered_assign_iff hfresh).mpr ⟨hduring.covered, hempty⟩,
    fun other hother => ?_, fun j => ?_⟩, hduring.out, hduring.err⟩
  · exact hother.elim (fun heq => hdurable other heq) (hduring.durable other)
  · change Function.update r.bullets k (some c) j =
      (Function.update p.chambers k (some o) j).map p.memory.view
    by_cases hj : j = k
    · rw [hj, Function.update_self, Function.update_self, Option.map_some, hview]
    · rw [Function.update_of_ne hj, Function.update_of_ne hj]
      exact hduring.bullets j

theorem During.free (hduring : During t r p) :
    During t { r with bullets := Function.update r.bullets k none } (p.free k) := by
  refine ⟨⟨hduring.owned.free k, hduring.covered.free k, hduring.durable.mono fun _ ho => ho.1,
    fun j => ?_⟩, hduring.out, hduring.err⟩
  change Function.update r.bullets k none j =
    (Function.update p.chambers k none j).map p.memory.view
  by_cases hj : j = k
  · rw [hj, Function.update_self, Function.update_self, Option.map_none]
  · rw [Function.update_of_ne hj, Function.update_of_ne hj]
    exact hduring.bullets j

end Steps

section Triples

variable {t r : Result} {pid status : Nat} {p : Pool}

def Ended (t : Result) (pid status : Nat) (p : Pool) : Prop :=
  ∃ r, Ends t.bullets pid status r ∧ During t r p

def Stopped (t : Result) (pid : Nat) (p : Pool) : Prop :=
  ∃ r, Stops t.bullets pid r ∧ Loaded r.bullets p ∧ p.out = t.out ++ r.out ∧ p.err = t.err ++ r.err

theorem Ends.stops (hends : Ends t.bullets pid status r) : Stops t.bullets pid r :=
  .cut hends (.inr rfl) (List.prefix_refl _) (.inr rfl)

theorem stops_before : Stops t.bullets pid ⟨t.bullets, [], []⟩ :=
  .cut .rootless (.inl rfl) (List.prefix_refl _) (.inl rfl)

theorem Ends.printed (hends : Ends t.bullets pid status r) :
    Stops t.bullets pid ⟨t.bullets, r.out, []⟩ :=
  .cut hends (.inl rfl) (List.prefix_refl _) (.inl rfl)

theorem stopped_of_during (hstops : Stops t.bullets pid r) (hduring : During t r p) :
    Stopped t pid p := by
  obtain ⟨front, hout, htext⟩ := hduring.out
  cases hstops with
  | cut hends hbullets hprefix herr =>
      dsimp only at htext
      rw [← htext] at hprefix
      have hfront := (List.prefix_append front p.buffer).trans hprefix
      exact ⟨_, .cut hends hbullets hfront herr, hduring.toLoaded, hout, hduring.err⟩

theorem call_triple {β : Type} {cmd : Cmd β} {next : β → Program} {known : Pool → Prop}
    (mid : β → Pool → Prop) (hstops : Stops t.bullets pid r) (hstable : Stable semantics known)
    (hexec : ∀ p x p', During t r p → known p → exec cmd p x p' → mid x p')
    (hnext : ∀ x, Triple semantics (mid x) (next x) (Ended t pid) (Stopped t pid)) :
    Triple semantics (fun p => During t r p ∧ known p) (.call cmd next)
      (Ended t pid) (Stopped t pid) :=
  .call mid (stable_during.and hstable) (fun _ hp => stopped_of_during hstops hp.1)
    (fun p x p' hp => hexec p x p' hp.1 hp.2) hnext

theorem done_triple (hends : Ends t.bullets pid status r) :
    Triple semantics (During t r) (.done status) (Ended t pid) (Stopped t pid) :=
  .done stable_during (fun _ => stopped_of_during hends.stops) fun _ hduring => ⟨r, hends, hduring⟩

theorem plain_triple {β : Type} {cmd : Cmd β} {next : β → Program} (mid : β → Pool → Prop)
    (hstops : Stops t.bullets pid r) (hexec : ∀ p x p', During t r p → exec cmd p x p' → mid x p')
    (hnext : ∀ x, Triple semantics (mid x) (next x) (Ended t pid) (Stopped t pid)) :
    Triple semantics (During t r) (.call cmd next) (Ended t pid) (Stopped t pid) :=
  .call mid stable_during (fun _ => stopped_of_during hstops) hexec hnext

theorem die_triple {out what : Text} (hends : Ends t.bullets pid 1 ⟨t.bullets, out, what⟩) :
    Triple semantics (During t ⟨t.bullets, out, []⟩) (die what)
      (Ended t pid) (Stopped t pid) := by
  apply plain_triple (fun _ => During t ⟨t.bullets, out, what⟩) hends.printed
  · intro p _ p' hduring hexec
    cases hexec
    exact hduring.eprintf
  · intro _
    exact done_triple hends

theorem publish_triple {o : Oid} {now : UInt64} (hempty : t.bullets (chamberOf pid) = none) :
    Triple semantics (fun p => During t ⟨t.bullets, reloading, []⟩ p ∧
        ((p.chambers (chamberOf pid) = none ∧ o ∉ p.live) ∧
          p.memory.view o = color now ∧ p.memory.Durable {o}))
      (.call (.publish (chamberOf pid) o) fun _ => .done 0) (Ended t pid) (Stopped t pid) := by
  have hends := Ends.reloaded now hempty
  apply call_triple (fun _ => During t ⟨_, reloading, []⟩) hends.printed
    ((stable_chamber.and stable_fresh).and (stable_view.and stable_durable))
  · rintro p _ p' hduring ⟨⟨hchamber, hfresh⟩, hview, hdurable⟩ hexec
    cases hexec
    exact hduring.publish hfresh hview hdurable hchamber
  · intro _
    exact done_triple hends

theorem paintballInit_triple {o : Oid} (hempty : t.bullets (chamberOf pid) = none) :
    Triple semantics (fun p => During t ⟨t.bullets, reloading, []⟩ p ∧
        (p.chambers (chamberOf pid) = none ∧ o ∉ p.live))
      (paintballInit o <| .call (.publish (chamberOf pid) o) fun _ => .done 0)
      (Ended t pid) (Stopped t pid) := by
  have hprinted := (Ends.reloaded 0 hempty).printed
  have hplain : Stable semantics fun p => p.chambers (chamberOf pid) = none ∧ o ∉ p.live :=
    stable_chamber.and stable_fresh
  refine call_triple (fun now p => During t ⟨t.bullets, reloading, []⟩ p ∧
    (p.chambers (chamberOf pid) = none ∧ o ∉ p.live)) hprinted hplain ?_ fun now => ?_
  · intro p now p' hduring hknown hexec
    cases hexec
    exact ⟨hduring, hknown⟩
  refine call_triple (fun _ p => During t ⟨t.bullets, reloading, []⟩ p ∧
    ((p.chambers (chamberOf pid) = none ∧ o ∉ p.live) ∧ p.memory.view o = color now))
    hprinted hplain ?_ fun _ => ?_
  · intro p _ p' hduring hknown hexec
    cases hexec
    exact ⟨hduring.store hknown.2, hknown, Memory.view_store_self⟩
  refine call_triple (fun _ p => During t ⟨t.bullets, reloading, []⟩ p ∧
    ((p.chambers (chamberOf pid) = none ∧ o ∉ p.live) ∧
      p.memory.view o = color now ∧ p.memory.Safe {o}))
    hprinted (hplain.and stable_view) ?_ fun _ => ?_
  · intro p _ p' hduring hknown hexec
    cases hexec
    refine ⟨hduring.flush _, hknown.1, hknown.2, Pipeline.safe_flush fun l hl => ?_⟩
    exact decide_eq_true hl
  refine call_triple (fun _ p => During t ⟨t.bullets, reloading, []⟩ p ∧
    ((p.chambers (chamberOf pid) = none ∧ o ∉ p.live) ∧
      p.memory.view o = color now ∧ p.memory.Durable {o}))
    hprinted (hplain.and (stable_view.and stable_safe)) ?_ fun _ => publish_triple hempty
  intro p _ p' hduring hknown hexec
  cases hexec
  exact ⟨hduring.drain, hknown.1, hknown.2.1, hknown.2.2.drain⟩

theorem alloc_triple (hempty : t.bullets (chamberOf pid) = none) :
    Triple semantics (fun p => During t ⟨t.bullets, reloading, []⟩ p ∧
        p.chambers (chamberOf pid) = none) (alloc (chamberOf pid))
      (Ended t pid) (Stopped t pid) := by
  refine call_triple (fun answer p => During t ⟨t.bullets, reloading, []⟩ p ∧
    (p.chambers (chamberOf pid) = none ∧ ∀ o, answer = .ok o → o ∉ p.live))
    (Ends.reloaded 0 hempty).printed stable_chamber ?_ fun answer => ?_
  · rintro p answer p' hduring hchamber ⟨hfresh, rfl⟩
    exact ⟨hduring, hchamber, hfresh⟩
  cases answer with
  | error why =>
      exact (die_triple (.full why hempty)).mono (fun _ hp => hp.1) (fun _ _ => id) fun _ => id
  | ok o =>
      refine (paintballInit_triple hempty).mono (fun p hp => ?_) (fun _ _ => id) fun _ => id
      exact ⟨hp.1, hp.2.1, hp.2.2 o rfl⟩

theorem free_triple {o : Oid} {c : UInt32} (hloaded : t.bullets (chamberOf pid) = some c) :
    Triple semantics (fun p => During t ⟨t.bullets, shooting c, []⟩ p ∧
        p.chambers (chamberOf pid) = some o)
      (.call (.free (chamberOf pid)) fun _ => .done 0) (Ended t pid) (Stopped t pid) := by
  have hends := Ends.shot c hloaded
  apply call_triple (fun _ => During t ⟨_, shooting c, []⟩) hends.printed stable_chamber
  · intro p _ p' hduring _ hexec
    cases hexec
    exact hduring.free
  · intro _
    exact done_triple hends

theorem shoot_triple {o : Oid} :
    Triple semantics (fun p => During t ⟨t.bullets, [], []⟩ p ∧
        p.chambers (chamberOf pid) = some o) (shoot (chamberOf pid) o)
      (Ended t pid) (Stopped t pid) := by
  refine call_triple (fun c p => t.bullets (chamberOf pid) = some c ∧
    (During t ⟨t.bullets, [], []⟩ p ∧ p.chambers (chamberOf pid) = some o))
    stops_before stable_chamber ?_ fun c => Triple.of_and fun hloaded => ?_
  · rintro p c p' hduring hchamber ⟨rfl, rfl⟩
    refine ⟨(hduring.bullets _).trans ?_, hduring, hchamber⟩
    rw [hchamber, Option.map_some]
  refine call_triple (fun _ p => During t ⟨t.bullets, shooting c, []⟩ p ∧
    p.chambers (chamberOf pid) = some o) stops_before stable_chamber ?_ fun _ =>
      free_triple hloaded
  intro p _ p' hduring hchamber hexec
  cases hexec
  exact ⟨hduring.printf, hchamber⟩

theorem opened_triple : Triple semantics (During t ⟨t.bullets, [], []⟩)
    (.call (.chamber (chamberOf pid)) fun
      | none => .call (.printf reloading) fun _ => alloc (chamberOf pid)
      | some o => shoot (chamberOf pid) o) (Ended t pid) (Stopped t pid) := by
  refine plain_triple (fun o p => (o = none → t.bullets (chamberOf pid) = none) ∧
    (During t ⟨t.bullets, [], []⟩ p ∧ p.chambers (chamberOf pid) = o)) stops_before ?_
    fun o => Triple.of_and fun hempty => ?_
  · rintro p o p' hduring ⟨rfl, rfl⟩
    refine ⟨fun hnone => (hduring.bullets _).trans ?_, hduring, rfl⟩
    rw [hnone, Option.map_none]
  cases o with
  | some o => exact shoot_triple
  | none =>
      refine call_triple (fun _ p => During t ⟨t.bullets, reloading, []⟩ p ∧
        p.chambers (chamberOf pid) = none) stops_before stable_chamber ?_ fun _ =>
          alloc_triple (hempty rfl)
      intro p _ p' hduring hchamber hexec
      cases hexec
      exact ⟨hduring.printf, hchamber⟩

theorem main_triple (t : Result) (pid : Nat) :
    Triple semantics (During t ⟨t.bullets, [], []⟩) (main pid) (Ended t pid) (Stopped t pid) := by
  refine plain_triple (fun _ => During t ⟨t.bullets, [], []⟩) stops_before ?_ fun failure => ?_
  · intro p _ p' hduring hexec
    cases hexec
    exact hduring
  cases failure with
  | some why => exact die_triple (.unopened why)
  | none =>
      refine plain_triple (fun _ => During t ⟨t.bullets, [], []⟩) stops_before ?_ fun null => ?_
      · intro p _ p' hduring hexec
        cases hexec
        exact hduring
      cases null with
      | true => exact die_triple .rootless
      | false => exact opened_triple

end Triples

structure Rests (t : Result) (p : Pool) : Prop extends Loaded t.bullets p where
  buffer : p.buffer = []
  out : p.out = t.out
  err : p.err = t.err

section Runs

variable {t r : Result} {p p' : Pool} {pid status : Nat}

theorem Rests.during (hrests : Rests t p) : During t ⟨t.bullets, [], []⟩ p := by
  refine ⟨hrests.toLoaded, ⟨[], ?_, hrests.buffer⟩, ?_⟩
  · rw [List.append_nil, hrests.out]
  · rw [List.append_nil, hrests.err]

theorem During.exited (hduring : During t r p) : Rests (t.behind r) p.exited := by
  refine ⟨⟨hduring.owned, hduring.covered, hduring.durable, hduring.bullets⟩, rfl, ?_, hduring.err⟩
  obtain ⟨front, hout, htext⟩ := hduring.out
  change p.out ++ p.buffer = t.out ++ r.out
  rw [hout, List.append_assoc, htext]

theorem Loaded.powerFailed {bullets : Bullets} (hloaded : Loaded bullets p) :
    Loaded bullets p.powerFailed := by
  refine ⟨hloaded.owned, hloaded.covered, fun _ _ => rfl, fun k => (hloaded.bullets k).trans ?_⟩
  change (p.chambers k).map p.memory.view = (p.chambers k).map p.memory.medium
  cases hk : p.chambers k with
  | none => rfl
  | some o => exact congrArg some (hloaded.durable o (hloaded.owned.live k o hk)).symm

theorem simulation {event : Event} (hrests : Rests t p) (hmoves : Moves p event p') :
    ∃ t', GunMoves t event t' ∧ Rests t' p' := by
  cases hmoves with
  | ran hreaches =>
      obtain ⟨r, hends, hduring⟩ := (main_triple t _).post p _ _ hrests.during hreaches
      exact ⟨_, .ran hends, hduring.exited⟩
  | killed hreaches =>
      obtain ⟨r, hstops, hloaded, hout, herr⟩ := (main_triple t _).cut p _ _ hrests.during hreaches
      refine ⟨_, .killed hstops, ⟨?_, rfl, hout, herr⟩⟩
      exact ⟨hloaded.owned, hloaded.covered, hloaded.durable, hloaded.bullets⟩
  | powerFailed hreaches =>
      obtain ⟨r, hstops, hloaded, hout, herr⟩ := (main_triple t _).cut p _ _ hrests.during hreaches
      exact ⟨_, .powerFailed hstops, ⟨hloaded.powerFailed, rfl, hout, herr⟩⟩

private theorem rests_run {events : List Event} (hrests : Rests t p)
    (hrun : machine.Run p events p') :
    ∃ t', gun.Run t events t' ∧ Rests t' p' :=
  hrun.lockstep (fun p t => Rests t p) (fun _ _ _ _ => simulation) hrests

private theorem rests_created (memory : Pipeline fun _ : Oid => UInt32) :
    Rests ⟨fun _ => none, [], []⟩ (created memory) := by
  refine ⟨⟨⟨fun k o hk => ?_, fun j k o hj => ?_⟩, fun o ho => ho.elim, fun o ho => ho.elim,
    fun _ => rfl⟩, rfl, rfl, rfl⟩
  · cases hk
  · cases hj

def Colored (bullets : Bullets) : Prop := ∀ k c, bullets k = some c → c.toNat < 0x1000000

private theorem color_lt (now : UInt64) : (color now).toNat < 0x1000000 := by
  have hand : (now &&& 0xffffff).toNat ≤ 0xffffff := by
    rw [UInt64.toNat_and]
    exact Nat.and_le_right
  have hcolor : (color now).toNat ≤ (now &&& 0xffffff).toNat := by
    unfold color
    rw [UInt64.toNat_toUInt32]
    exact Nat.mod_le _ _
  exact Nat.lt_succ_of_le (hcolor.trans hand)

theorem Colored.update {bullets : Bullets} (hcolored : Colored bullets) {k : Chamber}
    {x : Option UInt32} (hx : ∀ c, x = some c → c.toNat < 0x1000000) :
    Colored (Function.update bullets k x) := by
  intro j c hj
  by_cases heq : j = k
  · rw [heq, Function.update_self] at hj
    exact hx c hj
  · rw [Function.update_of_ne heq] at hj
    exact hcolored j c hj

theorem Colored.ends (hcolored : Colored t.bullets) (hends : Ends t.bullets pid status r) :
    Colored r.bullets := by
  cases hends with
  | unopened | rootless | full => exact hcolored
  | reloaded now hempty =>
      apply hcolored.update
      rintro _ ⟨⟩
      exact color_lt now
  | shot => exact hcolored.update fun _ hnone => by cases hnone

theorem Colored.stops (hcolored : Colored t.bullets) (hstops : Stops t.bullets pid r) :
    Colored r.bullets := by
  cases hstops with
  | cut hends hbullets =>
      have hafter := hcolored.ends hends
      obtain rfl | rfl := hbullets
      · exact hcolored
      · exact hafter

theorem Colored.step {t' : Result} {event : Event} (hcolored : Colored t.bullets)
    (hstep : GunMoves t event t') : Colored t'.bullets := by
  cases hstep with
  | ran hends =>
      have hafter := hcolored.ends hends
      exact hafter
  | killed hstops | powerFailed hstops =>
      have hafter := hcolored.stops hstops
      exact hafter

theorem Colored.run {t' : Result} {events : List Event} (hcolored : Colored t.bullets)
    (hrun : gun.Run t events t') : Colored t'.bullets := by
  induction hrun with
  | nil => exact hcolored
  | cons hstep _ ih => exact ih (hcolored.step hstep)

/-- Whatever processes run one after the other, are killed or lose their power, they load and
shoot as on six chambers with colors in them; no bullet is lost, and none is in two chambers
or left behind in the pool. -/
theorem chambers_refine (memory : Pipeline fun _ : Oid => UInt32) {events : List Event}
    (hrun : machine.Run (created memory) events p) :
    ∃ bullets, gun.Run ⟨fun _ => none, [], []⟩ events ⟨bullets, p.out, p.err⟩ ∧
      Loaded bullets p ∧ Colored bullets := by
  obtain ⟨t, ht, hrests⟩ := rests_run (rests_created memory) hrun
  have hcolored : Colored t.bullets := Colored.run (fun k c hk => by cases hk) ht
  refine ⟨t.bullets, ?_, hrests.toLoaded, hcolored⟩
  rwa [hrests.out, hrests.err]

/-- A bullet is loaded, and the power fails between the text of the shot and the shot. -/
def misfire : List Event := [.ran 7 0, .powerFailed 7]

theorem chambers_refine_misfire : ∃ bullets : Bullets,
    gun.Run ⟨fun _ => none, [], []⟩ misfire ⟨bullets, reloading ++ shooting 5, []⟩ ∧
    bullets 1 = some 5 := by
  let blank : Pipeline fun _ : Oid => UInt32 := ⟨⟨fun _ => 0, fun _ => 0⟩, fun _ => false⟩
  obtain ⟨p, hload, hchamber, hview, hmedium, hbuffer, hout, herr⟩ : ∃ p,
      Moves (created blank) (.ran 7 0) p ∧ p.chambers 1 = some 0 ∧ p.memory.view 0 = 5 ∧
      p.memory.medium 0 = 5 ∧ p.buffer = [] ∧ p.out = reloading ∧ p.err = [] :=
    ⟨_, .ran <| .call (x := none) rfl <| .call (x := false) rfl <|
      .call (x := none) ⟨rfl, rfl⟩ <| .call (x := ()) rfl <|
      .call (x := .ok 0) ⟨fun _ _ => id, rfl⟩ <| .call (x := 5) rfl <| .call (x := ()) rfl <|
      .call (x := ()) rfl <| .call (x := ()) rfl <| .call (x := ()) rfl <| .refl _ _,
      rfl, rfl, rfl, rfl, rfl, rfl⟩
  obtain ⟨rest, hshot⟩ : ∃ rest, Reaches semantics (main 7) p rest
      { p with buffer := [], out := p.out ++ shooting 5 } :=
    ⟨_, .call (x := none) rfl <| .call (x := false) rfl <|
      .call (x := some 0) ⟨hchamber.symm, rfl⟩ <|
      .call (x := 5) ⟨hview.symm, rfl⟩ <| .call (x := ()) rfl <|
      .drift (.fflush (shooting 5) [] (by rw [hbuffer, List.append_nil, List.nil_append])) <|
      .refl _ _⟩
  obtain ⟨bullets, hgun, hloaded, _⟩ :=
    chambers_refine blank (.cons hload (.single (.powerFailed hshot)))
  refine ⟨bullets, ?_, (hloaded.bullets 1).trans ?_⟩
  · change gun.Run _ misfire ⟨bullets, p.out ++ shooting 5, p.err⟩ at hgun
    rwa [hout, herr] at hgun
  · change (p.chambers 1).map p.memory.medium = some 5
    rw [hchamber, Option.map_some, hmedium]

end Runs

end SpackPlayground.Paintball
