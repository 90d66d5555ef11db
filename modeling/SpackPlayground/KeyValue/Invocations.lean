import Mathlib.Data.Option.Basic
import SpackPlayground.KeyValue.CommandLine
import SpackPlayground.KeyValue.Sessions

/-! Invocations one after the other, also where they are killed, are operations on
finite maps, one for each pool. -/
namespace SpackPlayground.KeyValue.CommandLine

open Library Library.CrashHoare Library.Transition Store

abbrev Map := Text → Option Int

abbrev Maps (File : Type) := File → Option (Option Map)

structure Result (File : Type) where
  maps : Maps File
  out : Text
  err : Text

variable {File : Type}

namespace Result

def written (t : Result File) : Stream → Text → Result File
  | .out, text => { t with out := t.out ++ text }
  | .err, text => { t with err := t.err ++ text }

def behind (t r : Result File) : Result File := ⟨r.maps, t.out ++ r.out, t.err ++ r.err⟩

end Result

section Finite

variable [DecidableEq File]

inductive Serves (maps : Maps File) (name : Text) (file : File) (map : Map) :
    Request → Exit → Result File → Prop where
  | found (key : Text) (val : Int) : map key = some val →
      Serves maps name file map (.get key) (.status 0) ⟨maps, line (InputStream.spell val), []⟩
  | missing (key : Text) : map key = none → Serves maps name file map (.get key) (.status 0)
      ⟨maps, [], line "no entry in simplekv".toList⟩
  | malformed (key text what : Text) : stoi text = .error what →
      Serves maps name file map (.put key text) (.status 0) ⟨maps, [], line what⟩
  | stored (key text : Text) (val : Int) : stoi text = .ok val →
      Serves maps name file map (.put key text) (.status 0)
        ⟨Function.update maps file (some (some (Function.update map key (some val)))), [], []⟩
  | aborted (key text what : Text) (val : Int) : stoi text = .ok val →
      Serves maps name file map (.put key text) (.status 0) ⟨maps, [], line what⟩
  | other : Serves maps name file map .other (.status 1) ⟨maps, [], usage name⟩

/-- A pool with its map, which is empty where there was none. -/
inductive Ready (maps : Maps File) (file : File) : Maps File → Map → Prop where
  | found (map : Map) : maps file = some (some map) → Ready maps file maps map
  | made : maps file = some none →
      Ready maps file (Function.update maps file (some (some fun _ => none))) fun _ => none

variable (fileOf : Text → File)

inductive Ends (maps : Maps File) (argv : Argv) : Exit → Result File → Prop where
  | few : argv.operands.length < 2 → Ends maps argv (.status 1) ⟨maps, [], usage argv.name⟩
  | unopened (what : Text) : 2 ≤ argv.operands.length →
      Ends maps argv .terminated ⟨maps, [], line what ++ advice⟩
  | rootless (path what : Text) (operands : List Text) : argv.operands = path :: operands →
      operands ≠ [] → maps (fileOf path) ≠ none →
      Ends maps argv (.status 0) ⟨maps, [], line what ++ advice⟩
  | unmade (path what : Text) (operands : List Text) : argv.operands = path :: operands →
      operands ≠ [] → maps (fileOf path) = some none →
      Ends maps argv (.status 0) ⟨maps, [], line what⟩
  | served {path : Text} {operands : List Text} {maps' : Maps File} {map : Map} {exit : Exit}
      {r : Result File} : argv.operands = path :: operands → operands ≠ [] →
      Ready maps (fileOf path) maps' map →
      Serves maps' argv.name (fileOf path) map (request operands) exit r →
      Ends maps argv exit r

inductive Stops (maps : Maps File) (argv : Argv) : Result File → Prop where
  | before : Stops maps argv ⟨maps, [], []⟩
  | made (path : Text) (operands : List Text) : argv.operands = path :: operands →
      operands ≠ [] → maps (fileOf path) = some none →
      Stops maps argv ⟨Function.update maps (fileOf path) (some (some fun _ => none)), [], []⟩
  | writing {exit : Exit} {r : Result File} {out err : Text} : Ends fileOf maps argv exit r →
      out <+: r.out → err <+: r.err → Stops maps argv ⟨r.maps, out, err⟩

inductive FiniteMoves (t : Result File) : Event → Result File → Prop where
  | create (path : Text) : t.maps (fileOf path) = none →
      FiniteMoves t (.create path)
        { t with maps := Function.update t.maps (fileOf path) (some none) }
  | ran {argv : Argv} {exit : Exit} {r : Result File} : Ends fileOf t.maps argv exit r →
      FiniteMoves t (.ran argv exit) (t.behind r)
  | killed {argv : Argv} {r : Result File} : Stops fileOf t.maps argv r →
      FiniteMoves t (.killed argv) (t.behind r)

def finite : System (Result File) Event where
  init t := t = ⟨fun _ => none, [], []⟩
  step := FiniteMoves fileOf

end Finite

variable {fileOf : Text → File} {hashing : Hashing Text}

structure Shows (t : Result File) (s : State File hashing) : Prop where
  pools : ∀ file, Option.Rel (Option.Rel FiniteMap.Implements) (s.pools file) (t.maps file)
  out : s.out = t.out
  err : s.err = t.err

section Shows

variable {t : Result File} {s : State File hashing} {file : File}

theorem Shows.pool_none_iff (hshows : Shows t s) : s.pools file = none ↔ t.maps file = none := by
  have hpool := hshows.pools file
  generalize s.pools file = kv at hpool ⊢
  generalize t.maps file = map at hpool ⊢
  cases hpool <;> simp

theorem Shows.kv {kv : Option (SimpleKv hashing Int)} (hshows : Shows t s)
    (hkv : s.pools file = some kv) :
    ∃ map, t.maps file = some map ∧ Option.Rel FiniteMap.Implements kv map := by
  have hpool := hshows.pools file
  rw [hkv] at hpool
  generalize t.maps file = map at hpool ⊢
  cases hpool with
  | some hrel => exact ⟨_, rfl, hrel⟩

theorem Shows.of_map {map : Map} (hshows : Shows t s) (hmap : t.maps file = some (some map)) :
    ∃ kv, s.pools file = some (some kv) ∧ FiniteMap.Implements kv map := by
  have hpool := hshows.pools file
  rw [hmap] at hpool
  generalize s.pools file = kv at hpool ⊢
  cases hpool with
  | some hrel =>
      cases hrel with
      | some himplements => exact ⟨_, rfl, himplements⟩

theorem Shows.implements {kv : SimpleKv hashing Int} {map : Map} (hshows : Shows t s)
    (hkv : s.pools file = some (some kv)) (hmap : t.maps file = some (some map)) :
    FiniteMap.Implements kv map := by
  obtain ⟨other, hother, hrel⟩ := hshows.kv hkv
  cases hmap.symm.trans hother
  cases hrel with
  | some himplements => exact himplements

theorem Shows.get {key : Text} {kv : SimpleKv hashing Int} {map : Map} (hshows : Shows t s)
    (hkv : s.pools file = some (some kv)) (hmap : t.maps file = some (some map)) :
    kv.get key = answer (map key) :=
  (hshows.implements hkv hmap).get_eq key

theorem Shows.written (hshows : Shows t s) (stream : Stream) (c : Char) :
    Shows (t.written stream [c]) (s.written stream c) := by
  cases stream with
  | out => exact ⟨hshows.pools, congrArg (· ++ [c]) hshows.out, hshows.err⟩
  | err => exact ⟨hshows.pools, hshows.out, congrArg (· ++ [c]) hshows.err⟩

theorem Shows.update [DecidableEq File] (hshows : Shows t s)
    {kv : Option (SimpleKv hashing Int)} {map : Option Map}
    (hkv : Option.Rel FiniteMap.Implements kv map) :
    Shows { t with maps := Function.update t.maps file (some map) }
      { s with pools := Function.update s.pools file (some kv) } where
  pools other := by
    dsimp only
    by_cases hother : other = file
    · rw [hother, Function.update_self, Function.update_self]
      exact .some hkv
    · rw [Function.update_of_ne hother, Function.update_of_ne hother]
      exact hshows.pools other
  out := hshows.out
  err := hshows.err

end Shows

theorem shows_init : Shows ⟨fun _ => none, [], []⟩ (⟨fun _ => none, [], []⟩ : State File hashing) :=
  ⟨fun _ => .none, rfl, rfl⟩

theorem Result.written_nil (t : Result File) (stream : Stream) : t.written stream [] = t := by
  cases stream <;> simp only [Result.written, List.append_nil]

theorem Result.written_written (t : Result File) (stream : Stream) (first second : Text) :
    (t.written stream first).written stream second = t.written stream (first ++ second) := by
  cases stream <;> simp only [Result.written, List.append_assoc]

variable [DecidableEq File]

theorem stable (pre : State File hashing → Prop) : Stable (semantics fileOf hashing) pre :=
  fun _ _ _ hdrift => hdrift.elim

section Triples

variable {t : Result File} {argv : Argv} {next : Program} {post : Exit → State File hashing → Prop}
  {cut : State File hashing → Prop}

theorem write_triple {stream : Stream} {text : Text}
    (hcut : ∀ front, front <+: text → ∀ s, Shows (t.written stream front) s → cut s)
    (hnext : Triple (semantics fileOf hashing) (Shows (t.written stream text)) next post cut) :
    Triple (semantics fileOf hashing) (Shows t) (write stream text next) post cut := by
  induction text generalizing t with
  | nil => rwa [Result.written_nil] at hnext
  | cons c text ih =>
      apply Triple.call (fun _ => Shows (t.written stream [c])) (stable _)
      · intro s hs
        apply hcut [] List.nil_prefix
        rwa [Result.written_nil]
      · rintro s _ _ hs rfl
        exact hs.written stream c
      · intro _
        apply ih
        · intro front hfront s hs
          rw [Result.written_written] at hs
          exact hcut (c :: front) (List.prefix_cons_inj c |>.mpr hfront) s hs
        · rwa [Result.written_written]

private theorem write_append (stream : Stream) (first second : Text) (next : Program) :
    write stream (first ++ second) next = write stream first (write stream second next) := by
  induction first with
  | nil => rfl
  | cons c first ih => exact congrArg (Prog.call (.write stream c)) (funext fun _ => ih)

def Ended (fileOf : Text → File) (t : Result File) (argv : Argv) (exit : Exit)
    (s : State File hashing) : Prop :=
  ∃ r, Ends fileOf t.maps argv exit r ∧ Shows (t.behind r) s

def Stopped (fileOf : Text → File) (t : Result File) (argv : Argv)
    (s : State File hashing) : Prop :=
  ∃ r, Stops fileOf t.maps argv r ∧ Shows (t.behind r) s

private theorem stopped_of_shows {maps : Maps File} {s : State File hashing}
    (hstops : Stops fileOf t.maps argv ⟨maps, [], []⟩)
    (hshows : Shows { t with maps := maps } s) : Stopped fileOf t argv s := by
  refine ⟨_, hstops, ?_⟩
  unfold Result.behind
  rwa [List.append_nil, List.append_nil]

theorem last_triple {maps : Maps File} {stream : Stream} {text : Text} {exit : Exit}
    (hends : Ends fileOf t.maps argv exit (Result.written ⟨maps, [], []⟩ stream text)) :
    Triple (semantics fileOf hashing) (Shows { t with maps := maps })
      (write stream text (.done exit)) (Ended fileOf t argv) (Stopped fileOf t argv) := by
  have hbehind (front : Text) : Result.written { t with maps := maps } stream front =
      t.behind (Result.written ⟨maps, [], []⟩ stream front) := by
    cases stream <;> simp [Result.written, Result.behind]
  have hstops (front : Text) (hfront : front <+: text) :
      Stops fileOf t.maps argv (Result.written ⟨maps, [], []⟩ stream front) := by
    cases stream with
    | out =>
        have hstops := Stops.writing hends hfront (List.prefix_refl [])
        exact hstops
    | err =>
        have hstops := Stops.writing hends (List.prefix_refl []) hfront
        exact hstops
  apply write_triple
  · intro front hfront s hs
    rw [hbehind] at hs
    exact ⟨_, hstops front hfront, hs⟩
  · rw [hbehind]
    apply Triple.done (stable _)
    · intro s hs
      exact ⟨_, hstops text (List.prefix_refl _), hs⟩
    · intro s hs
      exact ⟨_, hends, hs⟩

theorem done_triple {maps : Maps File} {exit : Exit}
    (hends : Ends fileOf t.maps argv exit ⟨maps, [], []⟩) :
    Triple (semantics fileOf hashing) (Shows { t with maps := maps }) (.done exit)
      (Ended fileOf t argv) (Stopped fileOf t argv) := by
  have hnothing : Ends fileOf t.maps argv exit (Result.written ⟨maps, [], []⟩ .out []) := hends
  exact last_triple hnothing

theorem call_triple {β : Type} {maps : Maps File} {cmd : Cmd β} {next : β → Program}
    (mid : β → State File hashing → Prop) (hstops : Stops fileOf t.maps argv ⟨maps, [], []⟩)
    (hexec : ∀ s x s', Shows { t with maps := maps } s → exec fileOf cmd s x s' → mid x s')
    (hnext : ∀ x, Triple (semantics fileOf hashing) (mid x) (next x) (Ended fileOf t argv)
      (Stopped fileOf t argv)) :
    Triple (semantics fileOf hashing) (Shows { t with maps := maps }) (.call cmd next)
      (Ended fileOf t argv) (Stopped fileOf t argv) :=
  .call mid (stable _) (fun _ hs => stopped_of_shows hstops hs) hexec hnext

section Serve

variable {path : Text} {operands : List Text} {maps : Maps File} {map : Map}

theorem Ready.found_self {before : Maps File} {file : File} (hready : Ready before file maps map) :
    maps file = some (some map) := by
  cases hready with
  | found _ hmap => exact hmap
  | made => exact Function.update_self ..

theorem Ready.stops (hready : Ready t.maps (fileOf path) maps map)
    (hoperands : argv.operands = path :: operands) (hne : operands ≠ []) :
    Stops fileOf t.maps argv ⟨maps, [], []⟩ := by
  cases hready with
  | found => exact .before
  | made hnull => exact .made path operands hoperands hne hnull

theorem get_triple {key : Text} (hready : Ready t.maps (fileOf path) maps map)
    (hoperands : argv.operands = path :: operands) (hne : operands ≠ [])
    (hrequest : request operands = .get key) :
    Triple (semantics fileOf hashing) (Shows { t with maps := maps })
      (.call (.get path key) (answered [])) (Ended fileOf t argv) (Stopped fileOf t argv) := by
  apply call_triple (fun x s => x = answer (map key) ∧ Shows { t with maps := maps } s)
    (hready.stops hoperands hne)
  · rintro s x _ hs ⟨kv, hkv, rfl, rfl⟩
    exact ⟨hs.get hkv hready.found_self, hs⟩
  · intro x
    apply Triple.of_and
    rintro rfl
    have hends {exit : Exit} {r : Result File}
        (hserves : Serves maps argv.name (fileOf path) map (.get key) exit r) :
        Ends fileOf t.maps argv exit r :=
      .served hoperands hne hready (hrequest ▸ hserves)
    cases hmap : map key with
    | some val => exact last_triple (hends (.found key val hmap))
    | none => exact last_triple (hends (.missing key hmap))

theorem Shows.put {s : State File hashing} {file : File} {key : Text} {val : Int}
    {kv : SimpleKv hashing Int} {commits : Bool} (hshows : Shows { t with maps := maps } s)
    (hmap : maps file = some (some map)) (hkv : s.pools file = some (some kv)) :
    (kv.put key val commits).2 = (if commits then .stored else .aborted) ∧
      Shows { t with maps := if commits then
          Function.update maps file (some (some (Function.update map key (some val))))
        else maps } (s.setKv file (kv.put key val commits).1) := by
  obtain ⟨himplements, hanswer⟩ :=
    FiniteMap.implements_put (hshows.implements hkv hmap) key val commits
  rw [hanswer]
  cases commits with
  | true => exact ⟨rfl, hshows.update (.some himplements)⟩
  | false =>
      refine ⟨rfl, ?_⟩
      have hupdate : Shows { t with maps := Function.update maps file (some (some map)) }
        (s.setKv file (kv.put key val false).1) := hshows.update (.some himplements)
      have hsame : Function.update maps file (some (some map)) = maps :=
        Function.update_eq_self_iff.mpr hmap.symm
      rwa [hsame] at hupdate

theorem put_triple {key text : Text} {val : Int} (hready : Ready t.maps (fileOf path) maps map)
    (hoperands : argv.operands = path :: operands) (hne : operands ≠ [])
    (hrequest : request operands = .put key text) (hval : stoi text = .ok val) :
    Triple (semantics fileOf hashing) (Shows { t with maps := maps })
      (.call (.put path key val) fun answer => answered answer.2 answer.1)
      (Ended fileOf t argv) (Stopped fileOf t argv) := by
  have hends {exit : Exit} {r : Result File}
      (hserves : Serves maps argv.name (fileOf path) map (.put key text) exit r) :
      Ends fileOf t.maps argv exit r := .served hoperands hne hready (hrequest ▸ hserves)
  apply call_triple
    (fun x s => (x.1 = .stored ∨ x.1 = .aborted) ∧
      Shows { t with maps := if x.1 = .stored then
          Function.update maps (fileOf path) (some (some (Function.update map key (some val))))
        else maps } s)
    (hready.stops hoperands hne)
  · rintro s ⟨x, what⟩ _ hs ⟨kv, commits, hkv, rfl, rfl⟩
    obtain ⟨hanswer, hshows⟩ := hs.put hready.found_self hkv
    dsimp only
    rw [hanswer]
    cases commits with
    | true => exact ⟨.inl rfl, hshows⟩
    | false => exact ⟨.inr rfl, hshows⟩
  · rintro ⟨x, what⟩
    apply Triple.of_and
    rintro (rfl | rfl)
    · exact done_triple (hends (.stored key text val hval))
    · exact last_triple (hends (.aborted key text what val hval))

theorem serve_triple (hready : Ready t.maps (fileOf path) maps map)
    (hoperands : argv.operands = path :: operands) (hne : operands ≠ []) :
    Triple (semantics fileOf hashing) (Shows { t with maps := maps })
      (serve argv.name path (request operands)) (Ended fileOf t argv) (Stopped fileOf t argv) := by
  have hends {exit : Exit} {r : Result File}
      (hserves : Serves maps argv.name (fileOf path) map (request operands) exit r) :
      Ends fileOf t.maps argv exit r := .served hoperands hne hready hserves
  cases hrequest : request operands with
  | get key => exact get_triple hready hoperands hne hrequest
  | put key text =>
      rw [hrequest] at hends
      unfold serve
      dsimp only
      cases hval : stoi text with
      | error what => exact last_triple (hends (.malformed key text what hval))
      | ok val => exact put_triple hready hoperands hne hrequest hval
  | other =>
      rw [hrequest] at hends
      exact last_triple (hends .other)

end Serve

theorem poolError_eq (what : Text) (next : Program) :
    poolError what next = write .err (line what ++ advice) next :=
  (write_append .err (line what) advice next).symm

theorem opened_triple {path : Text} {operands : List Text} (hfound : t.maps (fileOf path) ≠ none)
    (hoperands : argv.operands = path :: operands) (hne : operands ≠ []) :
    Triple (semantics fileOf hashing) (Shows t) (opened argv.name path (request operands))
      (Ended fileOf t argv) (Stopped fileOf t argv) := by
  apply call_triple (fun _ => Shows t) .before
  · rintro s _ _ hs rfl
    exact hs
  rintro (_ | what)
  · apply call_triple (fun null s =>
      (∃ map, t.maps (fileOf path) = some map ∧ null = map.isNone) ∧ Shows t s) .before
    · rintro s _ _ hs ⟨kv, hkv, rfl, rfl⟩
      obtain ⟨map, hmap, hrel⟩ := hs.kv hkv
      refine ⟨⟨map, hmap, ?_⟩, hs⟩
      cases hrel <;> rfl
    intro null
    apply Triple.of_and
    rintro ⟨_ | map, hmap, rfl⟩
    · apply call_triple
        (fun failure => Shows { t with
          maps := if failure = none then
              Function.update t.maps (fileOf path) (some (some fun _ => none))
            else t.maps }) .before
      · rintro s failure _ hs rfl
        split
        · exact hs.update (.some ⟨[], Store.holds_nil, Library.HashIndex.represents_nil⟩)
        · exact hs
      rintro (_ | what)
      · exact serve_triple (.made hmap) hoperands hne
      · exact last_triple (.unmade path what operands hoperands hne hmap)
    · exact serve_triple (.found map hmap) hoperands hne
  · dsimp only
    rw [poolError_eq]
    exact last_triple (.rootless path what operands hoperands hne hfound)

theorem main_triple (t : Result File) (argv : Argv) :
    Triple (semantics fileOf hashing) (Shows t) (main argv) (Ended fileOf t argv)
      (Stopped fileOf t argv) := by
  have hfew (hlt : argv.operands.length < 2) : Triple (semantics fileOf hashing) (Shows t)
      (showUsage argv.name (.done (.status 1))) (Ended fileOf t argv) (Stopped fileOf t argv) :=
    last_triple (.few hlt)
  unfold main
  match hoperands : argv.operands with
  | [] => exact hfew (by simp [hoperands])
  | [_] => exact hfew (by simp [hoperands])
  | path :: operand :: operands =>
      apply call_triple
        (fun failure s => (failure = none → t.maps (fileOf path) ≠ none) ∧ Shows t s) .before
      · rintro s failure _ hs ⟨hopen, rfl⟩
        exact ⟨fun hnone => mt hs.pool_none_iff.mpr (hopen hnone), hs⟩
      intro failure
      apply Triple.of_and
      intro hfound
      cases failure with
      | none => exact opened_triple (hfound rfl) hoperands (List.cons_ne_nil _ _)
      | some what =>
          dsimp only
          rw [poolError_eq]
          exact last_triple (.unopened what (by simp [hoperands]))

end Triples

theorem simulation (fileOf : Text → File) (hashing : Hashing Text) : ∀ s event s' t, Shows t s →
    (machine fileOf hashing).step s event s' →
      ∃ t', (finite fileOf).step t event t' ∧ Shows t' s' := by
  intro s event s' t hshows hstep
  cases hstep with
  | create path hnone =>
      exact ⟨_, .create path (hshows.pool_none_iff.mp hnone), hshows.update .none⟩
  | ran hreaches =>
      obtain ⟨r, hends, hr⟩ := (main_triple t _).post s _ s' hshows hreaches
      exact ⟨_, .ran hends, hr⟩
  | killed hreaches =>
      obtain ⟨r, hstops, hr⟩ := (main_triple t _).cut s _ s' hshows hreaches
      exact ⟨_, .killed hstops, hr⟩

theorem shows_run {s s' : State File hashing} {t : Result File} {events : List Event}
    (hshows : Shows t s) (hrun : (machine fileOf hashing).Run s events s') :
    ∃ t', (finite fileOf).Run t events t' ∧ Shows t' s' :=
  hrun.lockstep (fun s t => Shows t s) (simulation fileOf hashing) hshows

theorem Serves.exit_ne_undefined {maps : Maps File} {name : Text} {file : File} {map : Map}
    {asked : Request} {exit : Exit} {r : Result File}
    (hserves : Serves maps name file map asked exit r) :
    exit ≠ .undefined := by
  cases hserves <;> simp

theorem Ends.exit_ne_undefined {maps : Maps File} {argv : Argv} {exit : Exit} {r : Result File}
    (hends : Ends fileOf maps argv exit r) : exit ≠ .undefined := by
  cases hends with
  | served _ _ _ hserves => exact hserves.exit_ne_undefined
  | _ => simp

private theorem defined_run {t t' : Result File} {events : List Event}
    (hrun : (finite fileOf).Run t events t') (argv : Argv) : .ran argv .undefined ∉ events := by
  induction hrun with
  | nil => exact List.not_mem_nil
  | cons hstep _ ih =>
      intro hmem
      cases List.mem_cons.mp hmem with
      | inl heq =>
          subst heq
          cases hstep with
          | ran hends => exact hends.exit_ne_undefined rfl
      | inr hrest => exact ih hrest

section Reaching

variable {s s' : State File hashing} {stream : Stream} {next rest : Program} {argv : Argv}
  {path key text : Text} {operands : List Text} {kv : SimpleKv hashing Int} {val : Int}

def State.writes (s : State File hashing) : Stream → Text → State File hashing
  | .out, text => { s with out := s.out ++ text }
  | .err, text => { s with err := s.err ++ text }

private theorem reaches_write (text : Text) :
    Reaches (semantics fileOf hashing) (write stream text next) s next (s.writes stream text) := by
  induction text generalizing s with
  | nil =>
      have hnil : s.writes stream [] = s := by
        cases stream <;> simp only [State.writes, List.append_nil]
      rw [hnil]
      exact .refl _ _
  | cons c text ih =>
      have hcons : (s.written stream c).writes stream text = s.writes stream (c :: text) := by
        cases stream <;>
          simp only [State.writes, State.written, List.append_assoc, List.singleton_append]
      rw [← hcons]
      exact .call (x := ()) rfl ih

theorem main_eq (hoperands : argv.operands = path :: operands) (hne : operands ≠ []) :
    main argv = .call (.openPool path) fun
      | some what => poolError what (.done .terminated)
      | none => opened argv.name path (request operands) := by
  obtain ⟨operand, operands, rfl⟩ := List.exists_cons_of_ne_nil hne
  obtain ⟨name, given⟩ := argv
  dsimp only at hoperands
  subst hoperands
  rfl

private theorem reaches_serve (hoperands : argv.operands = path :: operands) (hne : operands ≠ [])
    (hkv : s.pools (fileOf path) = some (some kv))
    (hserve : Reaches (semantics fileOf hashing) (serve argv.name path (request operands)) s
      rest s') :
    Reaches (semantics fileOf hashing) (main argv) s rest s' := by
  rw [main_eq hoperands hne]
  have hpool : s.pools (fileOf path) ≠ none := by simp [hkv]
  exact .call (x := none) ⟨fun _ => hpool, rfl⟩ <| .call (x := none) rfl <|
    .call (x := false) ⟨_, hkv, rfl, rfl⟩ hserve

private theorem reaches_serve_new (hoperands : argv.operands = path :: operands)
    (hne : operands ≠ [])
    (hpool : s.pools (fileOf path) = some none)
    (hserve : Reaches (semantics fileOf hashing) (serve argv.name path (request operands))
      (s.setKv (fileOf path) SimpleKv.empty) rest s') :
    Reaches (semantics fileOf hashing) (main argv) s rest s' := by
  rw [main_eq hoperands hne]
  have hfound : s.pools (fileOf path) ≠ none := by simp [hpool]
  exact .call (x := none) ⟨fun _ => hfound, rfl⟩ <| .call (x := none) rfl <|
    .call (x := true) ⟨_, hpool, rfl, rfl⟩ <| .call (x := none) rfl hserve

private theorem reaches_put (name : Text) (hkv : s.pools (fileOf path) = some (some kv))
    (hval : stoi text = .ok val) (hstored : (kv.put key val true).2 = .stored) :
    Reaches (semantics fileOf hashing) (serve name path (.put key text)) s (.done (.status 0))
      (s.setKv (fileOf path) (kv.put key val true).1) := by
  unfold serve
  dsimp only
  rw [hval]
  exact .call (x := (.stored, [])) ⟨kv, true, hkv, hstored.symm, rfl⟩ (.refl _ _)

private theorem reaches_get (name : Text) (hkv : s.pools (fileOf path) = some (some kv))
    (hfound : kv.get key = .found val) :
    Reaches (semantics fileOf hashing) (serve name path (.get key)) s (.done (.status 0))
      (s.writes .out (line (InputStream.spell val))) :=
  .call (x := .found val) ⟨kv, hkv, hfound.symm, rfl⟩ (reaches_write _)

private theorem moves_get (name : Text) (hkv : s.pools (fileOf path) = some (some kv))
    (hfound : kv.get key = .found val) :
    Moves fileOf s (.ran ⟨name, [path, "get".toList, key]⟩ (.status 0))
      (s.writes .out (line (InputStream.spell val))) := by
  have hrequest : request ["get".toList, key] = .get key := by simp only [request, if_true]
  refine .ran (reaches_serve rfl (List.cons_ne_nil _ _) hkv ?_)
  rw [hrequest]
  exact reaches_get name hkv hfound

end Reaching

/-- The pools hold finite maps whatever becomes of the invocations, and what these write
is what the maps answer. -/
theorem invocations_refine (fileOf : Text → File) (hashing : Hashing Text) {events : List Event}
    {s : State File hashing}
    (hrun : (machine fileOf hashing).Run ⟨fun _ => none, [], []⟩ events s) :
    (∃ maps, (finite fileOf).Run ⟨fun _ => none, [], []⟩ events ⟨maps, s.out, s.err⟩ ∧
      ∀ file, Option.Rel (Option.Rel FiniteMap.Implements) (s.pools file) (maps file)) ∧
    ∀ argv, .ran argv .undefined ∉ events := by
  obtain ⟨t, ht, hshows⟩ := shows_run shows_init hrun
  refine ⟨⟨t.maps, ?_, hshows.pools⟩, defined_run ht⟩
  rwa [hshows.out, hshows.err]

/-- A path, with and without the directory in front of it. -/
def plain : Text → Text
  | '.' :: '/' :: path => path
  | path => path

def putter (text : Text) : Argv := ⟨"simplekv".toList, [['p'], "put".toList, ['k'], text]⟩

def created : State Text Prompt.byLength :=
  ⟨Function.update (fun _ => none) ['p'] (some none), [], []⟩

def stored (val : Int) : State Text Prompt.byLength :=
  (created.setKv ['p'] SimpleKv.empty).setKv ['p'] (SimpleKv.empty.put ['k'] val true).1

theorem run_created :
    (machine plain Prompt.byLength).Run ⟨fun _ => none, [], []⟩ [.create ['p']] created :=
  .single (.create ['p'] rfl)

theorem moves_stored (val : Int) (hval : stoi (InputStream.spell val) = .ok val) :
    Moves plain created (.ran (putter (InputStream.spell val)) (.status 0)) (stored val) := by
  have hrequest : request ["put".toList, ['k'], InputStream.spell val] =
      .put ['k'] (InputStream.spell val) := by simp only [request, if_true]
  have hnew : Function.update (fun _ => none) ['p'] (some none) (plain ['p']) =
      (some none : Option (Option (SimpleKv Prompt.byLength Int))) := Function.update_self ..
  apply Moves.ran
  apply reaches_serve_new rfl (List.cons_ne_nil _ _) hnew
  rw [hrequest]
  exact reaches_put _ (State.pools_setKv_self ..) hval rfl

theorem invocations_refine_stored : ∃ maps map, (finite plain).Run ⟨fun _ => none, [], []⟩
      [.create ['p'], .ran (putter (InputStream.spell 7)) (.status 0)] ⟨maps, [], []⟩ ∧
    maps ['p'] = some (some map) ∧ FiniteMap.Implements
      (SimpleKv.empty.put ['k'] 7 true : SimpleKv Prompt.byLength Int × _).1 map := by
  have hrun := run_created.append (.single (moves_stored 7 rfl))
  obtain ⟨⟨maps, hmaps, hpools⟩, _⟩ := invocations_refine plain Prompt.byLength hrun
  have hstored : (stored 7).pools ['p'] = some (some (SimpleKv.empty.put ['k'] 7 true).1) :=
    State.pools_setKv_self ..
  obtain ⟨map, hmap, hrel⟩ := (⟨hpools, rfl, rfl⟩ : Shows ⟨maps, [], []⟩ (stored 7)).kv hstored
  cases hrel with
  | some himplements => exact ⟨maps, _, hmaps, hmap, himplements⟩

/-- Invocations that may change the value of `key` in the pool. -/
def Event.Puts (fileOf : Text → File) (file : File) (key : Text) : Event → Prop
  | create _ => False
  | ran argv _ | killed argv =>
      ∃ path text, argv.operands = [path, "put".toList, key, text] ∧ fileOf path = file

def Kept (maps : Maps File) (file : File) (key : Text) (val : Int) : Prop :=
  ∃ map, maps file = some (some map) ∧ map key = some val

section Kept

variable {maps maps' : Maps File} {map : Map} {file other : File} {path key : Text} {val : Int}
  {argv : Argv} {exit : Exit} {r : Result File}

private theorem request_eq_put {operands : List Text} {text : Text}
    (hrequest : request operands = .put key text) : operands = ["put".toList, key, text] := by
  unfold request at hrequest
  split at hrequest
  · split at hrequest <;> cases hrequest
  · split at hrequest
    · rename_i hcommand
      cases hrequest
      rw [hcommand]
    · cases hrequest
  · cases hrequest

theorem Kept.update_of_ne (hkept : Kept maps file key val) (hne : file ≠ other)
    (x : Option (Option Map)) : Kept (Function.update maps other x) file key val := by
  obtain ⟨map, hmap, hkey⟩ := hkept
  exact ⟨map, by rwa [Function.update_of_ne hne], hkey⟩

theorem Kept.ready (hkept : Kept maps file key val) (hready : Ready maps other maps' map) :
    Kept maps' file key val := by
  cases hready with
  | found => exact hkept
  | made hnull =>
      refine hkept.update_of_ne ?_ _
      rintro rfl
      obtain ⟨map, hmap, _⟩ := hkept
      cases hnull.symm.trans hmap

theorem Kept.serves {name : Text} {asked : Request} (hkept : Kept maps file key val)
    (hmap : maps other = some (some map)) (hserves : Serves maps name other map asked exit r)
    (hother : file = other → ∀ text, asked ≠ .put key text) : Kept r.maps file key val := by
  cases hserves with
  | stored key' text val' hval =>
      dsimp only
      by_cases hpath : file = other
      · subst hpath
        obtain ⟨found, hfound, hkey⟩ := hkept
        cases hmap.symm.trans hfound
        refine ⟨_, Function.update_self .., ?_⟩
        rw [Function.update_of_ne, hkey]
        rintro rfl
        exact hother rfl text rfl
      · exact hkept.update_of_ne hpath _
  | _ => exact hkept

theorem Kept.ends (hkept : Kept maps file key val) (hends : Ends fileOf maps argv exit r)
    (hother : ∀ path text, argv.operands = [path, "put".toList, key, text] → fileOf path ≠ file) :
    Kept r.maps file key val := by
  cases hends with
  | served hoperands hne hready hserves =>
      apply (hkept.ready hready).serves hready.found_self hserves
      intro hfile text hrequest
      exact hother _ text (by rw [hoperands, request_eq_put hrequest]) hfile.symm
  | _ => exact hkept

theorem Kept.step {t t' : Result File} {event : Event} (hkept : Kept t.maps file key val)
    (hstep : (finite fileOf).step t event t') (hother : ¬ event.Puts fileOf file key) :
    Kept t'.maps file key val := by
  cases hstep with
  | create path' hnone =>
      refine hkept.update_of_ne ?_ _
      rintro rfl
      obtain ⟨map, hmap, _⟩ := hkept
      cases hnone.symm.trans hmap
  | ran hends =>
      have hkept := hkept.ends hends fun path text hoperands hfile =>
        hother ⟨path, text, hoperands, hfile⟩
      exact hkept
  | killed hstops =>
      cases hstops with
      | before => exact hkept
      | made path' operands _ _ hnull => exact hkept.ready (.made hnull)
      | writing hends =>
          have hkept := hkept.ends hends fun path text hoperands hfile =>
            hother ⟨path, text, hoperands, hfile⟩
          exact hkept

theorem Kept.run {t t' : Result File} {events : List Event} (hkept : Kept t.maps file key val)
    (hrun : (finite fileOf).Run t events t')
    (hother : ∀ event ∈ events, ¬ event.Puts fileOf file key) :
    Kept t'.maps file key val := by
  induction hrun with
  | nil => exact hkept
  | cons hstep _ ih =>
      apply ih (hkept.step hstep (hother _ List.mem_cons_self))
      exact fun event hevent => hother event (List.mem_cons_of_mem _ hevent)

theorem line_ne_nil (text : Text) : line text ≠ [] := List.concat_ne_nil _ _

theorem Ends.put {text : Text} (hends : Ends fileOf maps argv exit r)
    (hoperands : argv.operands = [path, "put".toList, key, text]) (hquiet : r.err = []) :
    exit = .status 0 ∧ ∃ val, stoi text = .ok val ∧ Kept r.maps (fileOf path) key val := by
  cases hends with
  | few hlt => simp [hoperands] at hlt
  | unopened what => exact absurd hquiet (List.append_ne_nil_of_left_ne_nil (line_ne_nil _) _)
  | rootless _ what => exact absurd hquiet (List.append_ne_nil_of_left_ne_nil (line_ne_nil _) _)
  | unmade _ what => exact absurd hquiet (line_ne_nil _)
  | served hpath hne hready hserves =>
      rw [hoperands] at hpath
      cases hpath
      have hrequest : request ["put".toList, key, text] = .put key text := by
        simp only [request, if_true]
      rw [hrequest] at hserves
      cases hserves with
      | malformed _ _ what => exact absurd hquiet (line_ne_nil _)
      | stored _ _ val hval =>
          exact ⟨rfl, val, hval, _, Function.update_self .., Function.update_self ..⟩
      | aborted _ _ what => exact absurd hquiet (line_ne_nil _)

theorem Ends.get (hends : Ends fileOf maps argv exit r)
    (hoperands : argv.operands = [path, "get".toList, key]) (hquiet : r.err = [])
    (hkept : Kept maps (fileOf path) key val) :
    exit = .status 0 ∧ r.out = line (InputStream.spell val) := by
  cases hends with
  | few hlt => simp [hoperands] at hlt
  | unopened what => exact absurd hquiet (List.append_ne_nil_of_left_ne_nil (line_ne_nil _) _)
  | rootless _ what => exact absurd hquiet (List.append_ne_nil_of_left_ne_nil (line_ne_nil _) _)
  | unmade _ what => exact absurd hquiet (line_ne_nil _)
  | served hpath hne hready hserves =>
      rw [hoperands] at hpath
      cases hpath
      have hrequest : request ["get".toList, key] = .get key := by
        simp only [request, if_true]
      rw [hrequest] at hserves
      obtain ⟨found, hfound, hkey⟩ := hkept.ready hready
      cases hready.found_self.symm.trans hfound
      cases hserves with
      | found _ val' hval =>
          cases hkey.symm.trans hval
          exact ⟨rfl, rfl⟩
      | missing => exact absurd hquiet (line_ne_nil _)

end Kept

private theorem stoi_spell (value : Int) : stoi (InputStream.spell value) =
    if value < intMin ∨ intMax < value then .error "stoi".toList else .ok value := by
  have hword := InputStream.isWord_spell value
  have hdrop : (InputStream.spell value).dropWhile InputStream.isSpace =
      InputStream.spell value := by
    obtain ⟨c, text, htext⟩ := List.exists_cons_of_ne_nil hword.1
    rw [htext] at hword ⊢
    exact List.dropWhile_cons_of_neg (by simp [hword.2 c List.mem_cons_self])
  have hsign := InputStream.sign_spell value []
  have hdigits : (Nat.toDigits 10 value.natAbs).takeWhile Char.isDigit =
      Nat.toDigits 10 value.natAbs :=
    List.takeWhile_eq_self_iff.mpr (InputStream.isDigit_toDigits value.natAbs)
  have hvalue : (if value < 0 then -(value.natAbs : Int) else value.natAbs) = value := by
    split <;> omega
  rw [List.append_nil, List.append_nil] at hsign
  simp only [stoi, hdrop, hsign, hdigits, Nat.toDigits_ne_nil, if_false,
    Nat.ofDigitChars_ten_toDigits, decide_eq_true_eq, hvalue]

/-- Between a `put` and a `get` of a key that both have nothing to report, anything may run or
be killed that puts nothing else there; a number then comes back as it was typed. -/
theorem put_get (name' : Text) {before between : List Event} {s t u : State File hashing}
    {name path path' key text : Text} {exit : Exit} (hfile : fileOf path' = fileOf path)
    (hbefore : (machine fileOf hashing).Run ⟨fun _ => none, [], []⟩ before s)
    (hput : Moves fileOf s (.ran ⟨name, [path, "put".toList, key, text]⟩ exit) t)
    (hquiet : t.err = s.err) (hbetween : (machine fileOf hashing).Run t between u)
    (hother : ∀ event ∈ between, ¬ event.Puts fileOf (fileOf path) key) :
    ∃ val, stoi text = .ok val ∧ (∀ n, text = InputStream.spell n → val = n) ∧
      (∃ v, Moves fileOf u (.ran ⟨name', [path', "get".toList, key]⟩ (.status 0)) v ∧
        v.err = u.err) ∧
      ∀ exit' v, Moves fileOf u (.ran ⟨name', [path', "get".toList, key]⟩ exit') v → v.err = u.err →
        exit' = .status 0 ∧ v.out = u.out ++ line (InputStream.spell val) := by
  obtain ⟨s₁, _, hs⟩ := shows_run shows_init hbefore
  obtain ⟨t₁, hput₁, ht⟩ := simulation fileOf hashing _ _ _ s₁ hs hput
  obtain ⟨u₁, hrun, hu⟩ := shows_run ht hbetween
  cases hput₁ with
  | @ran _ _ r hends =>
      have herr : r.err = [] := by
        have hwritten : s₁.err ++ r.err = s₁.err := ht.err.symm.trans (hquiet.trans hs.err)
        exact List.append_right_eq_self.mp hwritten
      obtain ⟨_, val, hval, hput⟩ := hends.put rfl herr
      have hafter : Kept (s₁.behind r).maps (fileOf path) key val := hput
      have hkept := hafter.run hrun hother
      rw [← hfile] at hkept
      refine ⟨val, hval, ?_, ?_, ?_⟩
      · rintro n rfl
        rw [stoi_spell] at hval
        split at hval
        · cases hval
        · exact (Except.ok.inj hval).symm
      · obtain ⟨map, hmap, hkey⟩ := hkept
        obtain ⟨kv, hkv, himplements⟩ := hu.of_map hmap
        have hfound : kv.get key = .found val := by
          rw [himplements.get_eq key, hkey]
          rfl
        exact ⟨_, moves_get name' hkv hfound, rfl⟩
      · intro exit' v hget hquiet'
        obtain ⟨v₁, hget₁, hv⟩ := simulation fileOf hashing _ _ _ u₁ hu hget
        cases hget₁ with
        | @ran _ _ r' hends' =>
            have herr' : r'.err = [] := by
              have hwritten : u₁.err ++ r'.err = u₁.err := hv.err.symm.trans (hquiet'.trans hu.err)
              exact List.append_right_eq_self.mp hwritten
            obtain ⟨hexit, hout⟩ := hends'.get rfl herr' hkept
            refine ⟨hexit, hv.out.trans ?_⟩
            rw [hu.out, ← hout]
            rfl

/-- The value is asked for under the other spelling of the path. -/
theorem put_get_stored : ∃ v : State Text Prompt.byLength,
    Moves plain (stored (-7))
      (.ran ⟨"simplekv".toList, [['.', '/', 'p'], "get".toList, ['k']]⟩ (.status 0)) v ∧
    v.out = ['-', '7', '\n'] := by
  have hbetween : (machine plain Prompt.byLength).Run (stored (-7))
      [.killed ⟨"simplekv".toList, [['p']]⟩] (stored (-7)) := .single (.killed (.refl _ _))
  have hother : ∀ event ∈ [Event.killed ⟨"simplekv".toList, [['p']]⟩],
      ¬ event.Puts plain ['p'] ['k'] := by
    intro event hevent hputs
    cases List.mem_singleton.mp hevent
    obtain ⟨path, text, htext, _⟩ := hputs
    cases htext
  have hfile : plain ['.', '/', 'p'] = plain ['p'] := rfl
  obtain ⟨val, hval, hspell, ⟨v, hget, hquiet⟩, hall⟩ :=
    put_get "simplekv".toList hfile run_created (moves_stored (-7) rfl) rfl hbetween hother
  obtain rfl := hspell (-7) rfl
  exact ⟨v, hget, (hall _ v hget hquiet).2⟩

end SpackPlayground.KeyValue.CommandLine
