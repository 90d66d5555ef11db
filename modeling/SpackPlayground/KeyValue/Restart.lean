import SpackPlayground.KeyValue.Rebuild
import SpackPlayground.Library.Transition

/-! A `simple_kv_runtime` over its whole life: the process may be gone at any
point, also between a commit and the insertion into the volatile buckets. -/
namespace SpackPlayground.KeyValue.Restart

open Library.HashIndex Library.Transition Store

variable {Key Value : Type*} {hashing : Hashing Key}

inductive Process (hashing : Hashing Key) where
  | down
  /-- Between operations. -/
  | running (buckets : Buckets hashing)
  /-- Behind the transaction of a `put` that inserts `key`. -/
  | inserting (buckets : Buckets hashing) (key : Key)
  /-- An element beyond the end of a vector was used. -/
  | undefined

structure State (hashing : Hashing Key) (Value : Type*) where
  data : Persistent Key Value
  process : Process hashing

inductive Action (Key Value : Type*) where
  /-- When the transaction aborts, the caller gets its exception. -/
  | put (key : Key) (val : Value) (commits : Bool)
  | insert
  | get (key : Key)
  | crash
  | restart

/-- What the volatile side holds at each point of the process. -/
def Indexed (data : Persistent Key Value) : Process hashing → Prop
  | .down => True
  | .running buckets => buckets = indexed hashing.index data.keys
  | .inserting buckets key => ∃ keys, data.keys = keys ++ [key] ∧
      buckets = indexed hashing.index keys
  | .undefined => False

structure Inv (s : State hashing Value) : Prop where
  lengths : s.data.keys.length = s.data.values.length
  nodup : s.data.keys.Nodup
  indexed : Indexed s.data s.process

theorem Inv.holds {s : State hashing Value} {buckets : Buckets hashing} (hinv : Inv s)
    (hprocess : s.process = .running buckets) : Holds buckets s.data.keys s.data.values where
  lengths := hinv.lengths
  nodup := hinv.nodup
  buckets := by
    have hindexed := hinv.indexed
    rw [hprocess] at hindexed
    exact hindexed

theorem Inv.insert {s : State hashing Value} {buckets : Buckets hashing} {key : Key}
    (hinv : Inv s) (hprocess : s.process = .inserting buckets key) :
    Inv { s with process := .running (Runtime.insert ⟨buckets, s.data⟩ key).buckets } where
  lengths := hinv.lengths
  nodup := hinv.nodup
  indexed := by
    have hindexed := hinv.indexed
    rw [hprocess] at hindexed
    obtain ⟨keys, hkeys, hbuckets⟩ := hindexed
    change push hashing.index buckets key (s.data.values.length - 1) = _
    rw [← hinv.lengths, hkeys, indexed_append_singleton, hbuckets, List.length_append]
    rfl

variable [DecidableEq Key]

def step (s : State hashing Value) (action : Action Key Value) : Option (State hashing Value) :=
  match s.process, action with
  | .running buckets, .put key val commits =>
      match Runtime.transact ⟨buckets, s.data⟩ key val commits with
      | (data, .returned .undefined) => some ⟨data, .undefined⟩
      | (data, .returned _) => some ⟨data, .running buckets⟩
      | (data, .committed) => some ⟨data, .inserting buckets key⟩
  | .running buckets, .get key =>
      match Runtime.get ⟨buckets, s.data⟩ key with
      | .undefined => some { s with process := .undefined }
      | _ => some s
  | .inserting buckets key, .insert =>
      some { s with process := .running (Runtime.insert ⟨buckets, s.data⟩ key).buckets }
  | .running _, .crash => some { s with process := .down }
  | .inserting .., .crash => some { s with process := .down }
  | .down, .restart =>
      match Runtime.construct s.data with
      | some kv => some { s with process := .running kv.buckets }
      | none => some { s with process := .undefined }
  | _, _ => none

def machine (hashing : Hashing Key) (Value : Type*) :
    System (State hashing Value) (Action Key Value) where
  init s := s = ⟨⟨[], []⟩, .down⟩
  step s action s' := step s action = some s'

section Steps

variable {s s' : State hashing Value} {buckets : Buckets hashing} {key : Key} {val : Value}

theorem Inv.put (hinv : Inv s) (hprocess : s.process = .running buckets) {commits : Bool}
    (hstep : step s (.put key val commits) = some s') : Inv s' := by
  have hholds := hinv.holds hprocess
  change Holds (Runtime.buckets ⟨buckets, s.data⟩) _ _ at hholds
  unfold step at hstep
  simp only [hprocess] at hstep
  obtain ⟨_, habort⟩ | ⟨_, i, hkey, hi, hstored⟩ | ⟨_, hnew, hcommitted⟩ :=
    Runtime.transact_cases hholds key val commits
  · rw [habort] at hstep
    cases hstep
    exact ⟨hinv.lengths, hinv.nodup, hholds.buckets⟩
  · rw [hstored] at hstep
    cases hstep
    exact ⟨hholds.set.lengths, hinv.nodup, hholds.buckets⟩
  · rw [hcommitted] at hstep
    cases hstep
    have hpush : Holds _ (s.data.keys ++ [key]) (s.data.values ++ [val]) := hholds.push hnew
    exact ⟨hpush.lengths, hpush.nodup, s.data.keys, rfl, hholds.buckets⟩

theorem Inv.eq_of_get (hinv : Inv s) (hprocess : s.process = .running buckets)
    (hstep : step s (.get key) = some s') : s' = s := by
  have hdefined := search_ne_undefined (hinv.holds hprocess) key
  unfold step at hstep
  simp only [hprocess] at hstep
  split at hstep
  · contradiction
  · cases hstep
    rfl

theorem Inv.restart (hinv : Inv s) (hstep : step s .restart = some s')
    (hprocess : s.process = .down) : Inv s' := by
  unfold step Runtime.construct at hstep
  simp only [hprocess, Runtime.rebuild_eq hinv.lengths hashing] at hstep
  cases hstep
  exact ⟨hinv.lengths, hinv.nodup, rfl⟩

theorem Inv.preserved (hinv : Inv s) {action : Action Key Value}
    (hstep : step s action = some s') : Inv s' := by
  cases hprocess : s.process with
  | down =>
      cases action with
      | restart => exact hinv.restart hstep hprocess
      | _ => simp [step, hprocess] at hstep
  | running buckets =>
      cases action with
      | put key val commits => exact hinv.put hprocess hstep
      | get key =>
          rw [hinv.eq_of_get hprocess hstep]
          exact hinv
      | crash =>
          simp only [step, hprocess] at hstep
          cases hstep
          exact ⟨hinv.lengths, hinv.nodup, trivial⟩
      | _ => simp [step, hprocess] at hstep
  | inserting buckets key =>
      cases action with
      | insert =>
          simp only [step, hprocess] at hstep
          cases hstep
          exact hinv.insert hprocess
      | crash =>
          simp only [step, hprocess] at hstep
          cases hstep
          exact ⟨hinv.lengths, hinv.nodup, trivial⟩
      | _ => simp [step, hprocess] at hstep
  | undefined =>
      have hindexed := hinv.indexed
      rw [hprocess] at hindexed
      exact hindexed.elim

end Steps

theorem inv_of_reachable {s : State hashing Value} (hs : (machine hashing Value).Reachable s) :
    Inv s := by
  apply hs.invariant (motive := Inv)
  · intro s hinit
    subst hinit
    exact ⟨rfl, List.nodup_nil, trivial⟩
  · intro s action s' _ hinv hstep
    exact hinv.preserved hstep

/-- The buckets in memory are those that a restart would rebuild. -/
theorem buckets_eq_rebuilt (s : State hashing Value) (hs : (machine hashing Value).Reachable s) :
    s.data.keys.length = s.data.values.length ∧ s.data.keys.Nodup ∧ s.process ≠ .undefined ∧
      ∀ buckets, s.process = .running buckets →
        Runtime.rebuild hashing s.data = some buckets ∧
        ∀ (kv : Runtime hashing Value) (key : Key), Runtime.construct s.data = some kv →
          kv.get key = Runtime.get ⟨buckets, s.data⟩ key := by
  have hinv := inv_of_reachable hs
  have hrebuilt := Runtime.rebuild_eq hinv.lengths hashing
  refine ⟨hinv.lengths, hinv.nodup, ?_, ?_⟩
  · intro hprocess
    have hindexed := hinv.indexed
    rw [hprocess] at hindexed
    exact hindexed
  · intro buckets hprocess
    rw [← (hinv.holds hprocess).buckets] at hrebuilt
    apply And.intro hrebuilt
    intro kv key hconstruct
    unfold Runtime.construct at hconstruct
    rw [hrebuilt] at hconstruct
    cases hconstruct
    rfl

def parity : Hashing Nat := ⟨id, 2, by decide⟩

theorem buckets_eq_rebuilt_after_crash : ∃ s buckets, (machine parity Nat).Reachable s ∧
    s.process = .running buckets ∧ s.data = ⟨[11, 30, 40], [1, 3, 4]⟩ ∧
    buckets (parity.index 1) = [(1, 0), (3, 1)] ∧ Runtime.rebuild parity s.data = some buckets := by
  obtain ⟨s, buckets, hexecute, hprocess, hdata, hbuckets⟩ : ∃ s buckets,
      System.execute step ⟨⟨[], []⟩, .down⟩
        [.restart, .put 1 10 true, .insert, .put 3 30 true, .crash, .restart, .put 1 11 true,
          .put 5 50 false, .put 4 40 true, .insert] = some s ∧
      s.process = .running buckets ∧ s.data = ⟨[11, 30, 40], [1, 3, 4]⟩ ∧
      buckets (parity.index 1) = [(1, 0), (3, 1)] :=
    ⟨_, _, rfl, rfl, rfl, rfl⟩
  have hreachable : (machine parity Nat).Reachable s :=
    ⟨_, _, rfl, System.run_of_execute (fun _ _ _ hstep => hstep) hexecute⟩
  exact ⟨s, buckets, hreachable, hprocess, hdata, hbuckets,
    ((buckets_eq_rebuilt s hreachable).2.2.2 buckets hprocess).1⟩

end SpackPlayground.KeyValue.Restart
