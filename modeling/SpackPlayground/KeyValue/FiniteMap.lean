import Mathlib.Data.Fintype.Basic
import SpackPlayground.KeyValue.Rebuild
import SpackPlayground.KeyValue.SimpleKv
import SpackPlayground.Library.Mealy

/-! Both stores are finite maps. -/
namespace SpackPlayground.KeyValue.FiniteMap

open Library.HashIndex Library.Mealy Store

variable {Key Value : Type*} {hashing : Hashing Key}

/-- Each key occurs at most once, in its bucket, and the positions are those of
the values, each once. -/
structure Placed (buckets : Buckets hashing) (values : List Value) : Prop where
  keys : ((entries buckets).map Prod.fst).Nodup
  bucket : ∀ b, ∀ e ∈ buckets b, b.val = hashing.hash e.1 % hashing.n
  positions : (entries buckets).map Prod.snd = Multiset.range values.length
  inRange : ∀ b, ∀ e ∈ buckets b, e.2 < values.length

theorem placed_of_holds {buckets : Buckets hashing} {keys : List Key} {values : List Value}
    (hholds : Holds buckets keys values) : Placed buckets values where
  keys := by
    rw [hholds.buckets, map_fst_entries_indexed]
    exact Multiset.coe_nodup.mpr hholds.nodup
  bucket b e he := by
    rw [hholds.buckets] at he
    rw [← (mem_indexed.mp he).2]
    rfl
  positions := by rw [hholds.buckets, map_snd_entries_indexed, hholds.lengths]
  inRange b e he := by
    rw [hholds.buckets] at he
    exact hholds.lt_length (mem_indexed.mp he).1

variable [DecidableEq Key]

def apply (map : Key → Option Value) : Op Key Value → (Key → Option Value) × Answer Value
  | .put key val true => (Function.update map key (some val), .stored)
  | .put _ _ false => (map, .aborted)
  | .get key => (map, answer (map key))

def committedPut (key : Key) : Op Key Value → Option Value
  | .put other val true => if other = key then some val else none
  | .put _ _ false => none
  | .get _ => none

def latestPut (ops : List (Op Key Value)) (key : Key) : Option Value :=
  (ops.filterMap (committedPut key)).getLast?

private theorem latestPut_append_singleton (ops : List (Op Key Value)) (op : Op Key Value)
    (key : Key) :
    latestPut (ops ++ [op]) key = (committedPut key op).or (latestPut ops key) := by
  unfold latestPut
  rw [List.filterMap_append, List.getLast?_append]
  congr 1
  cases hput : committedPut key op with
  | none => simp [hput]
  | some val => simp [hput]

theorem run_apply (ops : List (Op Key Value)) :
    (run apply (fun _ => none) ops).1 = latestPut ops := by
  induction ops using List.reverseRecOn with
  | nil => rfl
  | append_singleton ops op ih =>
      rw [run_append_singleton, ih]
      funext key
      rw [latestPut_append_singleton]
      cases op with
      | get other => rfl
      | put other val commits =>
          cases commits with
          | false => rfl
          | true =>
              by_cases hkey : key = other
              · subst hkey
                simp [apply, committedPut]
              · simp [apply, committedPut, hkey, Ne.symm hkey]

def Implements (kv : SimpleKv hashing Value) (map : Key → Option Value) : Prop :=
  ∃ keys, Holds kv.buckets keys kv.values ∧ Represents keys kv.values map

def RuntimeImplements (kv : Runtime hashing Value) (map : Key → Option Value) : Prop :=
  Holds kv.buckets kv.data.keys kv.data.values ∧ Represents kv.data.keys kv.data.values map

theorem implements_put {kv : SimpleKv hashing Value} {map : Key → Option Value}
    (himplements : Implements kv map) (key : Key) (val : Value) (commits : Bool) :
    Implements (kv.put key val commits).1 (apply map (.put key val commits)).1 ∧
      (kv.put key val commits).2 = (apply map (.put key val commits)).2 := by
  obtain ⟨keys, hholds, hmap⟩ := himplements
  obtain ⟨rfl, hput⟩ | ⟨rfl, i, hkey, hi, hput⟩ | ⟨rfl, hnew, hput⟩ :=
    SimpleKv.put_cases hholds key val commits
  · rw [hput]
    exact ⟨⟨keys, hholds, hmap⟩, rfl⟩
  · rw [hput]
    exact ⟨⟨keys, hholds.set, hmap.set hholds.nodup hkey hi⟩, rfl⟩
  · rw [hput]
    exact ⟨⟨keys ++ [key], hholds.push hnew, hmap.push hholds.lengths hnew⟩, rfl⟩

theorem simulates_simpleKv :
    Simulates Implements (SimpleKv.apply : SimpleKv hashing Value → Op Key Value → _) apply := by
  intro kv map op himplements
  cases op with
  | get key =>
      obtain ⟨keys, hholds, hmap⟩ := himplements
      exact ⟨⟨keys, hholds, hmap⟩, search_eq hholds hmap key⟩
  | put key val commits => exact implements_put himplements key val commits

theorem runtimeImplements_put {kv : Runtime hashing Value} {map : Key → Option Value}
    (himplements : RuntimeImplements kv map) (key : Key) (val : Value) (commits : Bool) :
    RuntimeImplements (kv.put key val commits).1 (apply map (.put key val commits)).1 ∧
      (kv.put key val commits).2 = (apply map (.put key val commits)).2 := by
  obtain ⟨hholds, hmap⟩ := himplements
  unfold Runtime.put
  obtain ⟨rfl, hput⟩ | ⟨rfl, i, hkey, hi, hput⟩ | ⟨rfl, hnew, hput⟩ :=
    Runtime.transact_cases hholds key val commits
  · rw [hput]
    exact ⟨⟨hholds, hmap⟩, rfl⟩
  · rw [hput]
    exact ⟨⟨hholds.set, hmap.set hholds.nodup hkey hi⟩, rfl⟩
  · rw [hput]
    have hlast : (kv.data.values ++ [val]).length - 1 = kv.data.values.length := by simp
    unfold Runtime.insert RuntimeImplements
    simp only [hlast]
    exact ⟨⟨hholds.push hnew, hmap.push hholds.lengths hnew⟩, rfl⟩

theorem simulates_runtime :
    Simulates RuntimeImplements (Runtime.apply : Runtime hashing Value → Op Key Value → _)
      apply := by
  intro kv map op himplements
  cases op with
  | get key => exact ⟨himplements, search_eq himplements.1 himplements.2 key⟩
  | put key val commits => exact runtimeImplements_put himplements key val commits

theorem Implements.get_eq {kv : SimpleKv hashing Value} {map : Key → Option Value}
    (himplements : Implements kv map) (key : Key) : kv.get key = answer (map key) := by
  obtain ⟨keys, hholds, hmap⟩ := himplements
  exact search_eq hholds hmap key

theorem RuntimeImplements.get_eq {kv : Runtime hashing Value} {map : Key → Option Value}
    (himplements : RuntimeImplements kv map) (key : Key) : kv.get key = answer (map key) :=
  search_eq himplements.1 himplements.2 key

private theorem implements_run (hashing : Hashing Key) (ops : List (Op Key Value)) :
    Implements (run SimpleKv.apply (SimpleKv.empty : SimpleKv hashing Value) ops).1
        (latestPut ops) ∧
      (run SimpleKv.apply (SimpleKv.empty : SimpleKv hashing Value) ops).2 =
        (run apply (fun _ => none) ops).2 := by
  rw [← run_apply]
  apply simulates_simpleKv.run
  exact ⟨[], holds_nil, represents_nil⟩

private theorem runtimeImplements_run (hashing : Hashing Key) (ops : List (Op Key Value)) :
    RuntimeImplements (run Runtime.apply (Runtime.empty : Runtime hashing Value) ops).1
        (latestPut ops) ∧
      (run Runtime.apply (Runtime.empty : Runtime hashing Value) ops).2 =
        (run apply (fun _ => none) ops).2 := by
  rw [← run_apply]
  apply simulates_runtime.run
  exact ⟨holds_nil, represents_nil⟩

/-- Both stores give the same answers, each `get` that of the latest committed
put of its key. -/
theorem finite_map (hashing : Hashing Key) (ops : List (Op Key Value)) :
    let kv := run SimpleKv.apply (SimpleKv.empty : SimpleKv hashing Value) ops
    let runtime := run Runtime.apply (Runtime.empty : Runtime hashing Value) ops
    kv.2 = runtime.2 ∧
      (∀ key, kv.1.get key = answer (latestPut ops key) ∧
        runtime.1.get key = answer (latestPut ops key)) ∧
      Placed kv.1.buckets kv.1.values ∧ Placed runtime.1.buckets runtime.1.data.values ∧
      ∀ key val other, (kv.1.put key val false).1.get other = kv.1.get other ∧
        (runtime.1.put key val false).1.get other = runtime.1.get other := by
  intro kv runtime
  obtain ⟨hkv, hkvAnswers⟩ := implements_run hashing ops
  obtain ⟨hruntime, hruntimeAnswers⟩ := runtimeImplements_run hashing ops
  refine ⟨hkvAnswers.trans hruntimeAnswers.symm, ?_, ?_, placed_of_holds hruntime.1, ?_⟩
  · intro key
    exact ⟨hkv.get_eq key, hruntime.get_eq key⟩
  · obtain ⟨keys, hholds, _⟩ := hkv
    exact placed_of_holds hholds
  · intro key val other
    have habort := (implements_put hkv key val false).1.get_eq other
    have hruntimeAbort := (runtimeImplements_put hruntime key val false).1.get_eq other
    exact ⟨habort.trans (hkv.get_eq other).symm,
      hruntimeAbort.trans (hruntime.get_eq other).symm⟩

end SpackPlayground.KeyValue.FiniteMap
