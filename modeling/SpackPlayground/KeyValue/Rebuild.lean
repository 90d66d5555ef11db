import SpackPlayground.KeyValue.Store

/-! `simple_kv_runtime`: keys and values are persistent, the buckets are volatile
and rebuilt from them. -/
namespace SpackPlayground.KeyValue

open Library.HashIndex Store

structure Persistent (Key Value : Type*) where
  values : List Value
  keys : List Key

structure Runtime {Key : Type*} (hashing : Hashing Key) (Value : Type*) where
  buckets : Buckets hashing
  data : Persistent Key Value

namespace Runtime

variable {Key Value : Type*}

def rebuildStep (hashing : Hashing Key) (data : Persistent Key Value) (buckets : Buckets hashing)
    (i : Nat) : Option (Buckets hashing) := do
  let key ← data.keys[i]?
  return push hashing.index buckets key i

/-- The loop of the constructor; `none` is a read beyond the end of `keys`. -/
def rebuild (hashing : Hashing Key) (data : Persistent Key Value) : Option (Buckets hashing) :=
  (List.range data.values.length).foldlM (rebuildStep hashing data) fun _ => []

private theorem rebuildStep_indexed {hashing : Hashing Key} {data : Persistent Key Value} {n : Nat}
    (hn : n < data.keys.length) :
    rebuildStep hashing data (indexed hashing.index (data.keys.take n)) n =
      some (indexed hashing.index (data.keys.take (n + 1))) := by
  have hlength : (data.keys.take n).length = n := by
    rw [List.length_take]
    omega
  have hpush : indexed hashing.index (data.keys.take n ++ [data.keys[n]]) =
      push hashing.index (indexed hashing.index (data.keys.take n)) data.keys[n]
        (data.keys.take n).length := indexed_append_singleton
  rw [hlength, ← List.take_succ_eq_append_getElem hn] at hpush
  unfold rebuildStep
  rw [List.getElem?_eq_getElem hn, hpush]
  rfl

theorem rebuild_eq {data : Persistent Key Value} (hlengths : data.keys.length = data.values.length)
    (hashing : Hashing Key) :
    rebuild hashing data = some (indexed hashing.index data.keys) := by
  have hprefix (n : Nat) (hn : n ≤ data.keys.length) :
      (List.range n).foldlM (rebuildStep hashing data) (fun _ => []) =
        some (indexed hashing.index (data.keys.take n)) := by
    induction n with
    | zero => simp
    | succ n ih =>
        rw [List.range_succ, List.foldlM_append, ih (Nat.le_of_succ_le hn)]
        simp [rebuildStep_indexed hn]
  unfold rebuild
  rw [← hlengths, hprefix _ (Nat.le_refl _), List.take_length]

variable {hashing : Hashing Key}

def construct (data : Persistent Key Value) : Option (Runtime hashing Value) :=
  (rebuild hashing data).map fun buckets => ⟨buckets, data⟩

def empty : Runtime hashing Value := ⟨fun _ => [], ⟨[], []⟩⟩

variable [DecidableEq Key]

def get (kv : Runtime hashing Value) (key : Key) : Answer Value :=
  search kv.buckets kv.data.values key

inductive Progress (Value : Type*) where
  | returned (answer : Answer Value)
  /-- Both vectors have grown; the volatile insertion is left to do. -/
  | committed

/-- `put` up to the end of its transaction. -/
def transact (kv : Runtime hashing Value) (key : Key) (val : Value) (commits : Bool) :
    Persistent Key Value × Progress Value :=
  match find key (kv.buckets (hashing.index key)) with
  | some e =>
      let assigned := assign kv.data.values e.2 val commits
      ({ kv.data with values := assigned.1 }, .returned assigned.2)
  | none =>
      if commits then (⟨kv.data.values ++ [val], kv.data.keys ++ [key]⟩, .committed)
      else (kv.data, .returned .aborted)

def insert (kv : Runtime hashing Value) (key : Key) : Runtime hashing Value :=
  { kv with buckets := push hashing.index kv.buckets key (kv.data.values.length - 1) }

def put (kv : Runtime hashing Value) (key : Key) (val : Value) (commits : Bool) :
    Runtime hashing Value × Answer Value :=
  match kv.transact key val commits with
  | (data, .returned answer) => ({ kv with data := data }, answer)
  | (data, .committed) => (insert { kv with data := data } key, .stored)

def apply (kv : Runtime hashing Value) : Op Key Value → Runtime hashing Value × Answer Value
  | .put key val commits => kv.put key val commits
  | .get key => (kv, kv.get key)

section Proofs

variable {kv : Runtime hashing Value}

/-- A transaction keeps the index, or the rest of `put` will restore it. -/
theorem transact_cases (hholds : Holds kv.buckets kv.data.keys kv.data.values) (key : Key)
    (val : Value) (commits : Bool) :
    (commits = false ∧ kv.transact key val commits = (kv.data, .returned .aborted)) ∨
      (commits = true ∧ ∃ i : Nat, kv.data.keys[i]? = some key ∧ i < kv.data.values.length ∧
        kv.transact key val commits =
          (⟨kv.data.values.set i val, kv.data.keys⟩, .returned .stored)) ∨
      (commits = true ∧ key ∉ kv.data.keys ∧ kv.transact key val commits =
        (⟨kv.data.values ++ [val], kv.data.keys ++ [key]⟩, .committed)) := by
  unfold transact
  cases hfind : find key (kv.buckets (hashing.index key)) with
  | none =>
      cases commits with
      | false => exact .inl ⟨rfl, rfl⟩
      | true => exact .inr (.inr ⟨rfl, hholds.of_find_none hfind, rfl⟩)
  | some e =>
      have he := hholds.of_find_some hfind
      simp only [assign_of_lt he.2]
      cases commits with
      | false => exact .inl ⟨rfl, rfl⟩
      | true => exact .inr (.inl ⟨rfl, e.2, he.1, he.2, rfl⟩)

end Proofs

end Runtime

end SpackPlayground.KeyValue
