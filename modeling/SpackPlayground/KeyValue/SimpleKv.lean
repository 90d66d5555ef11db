import SpackPlayground.KeyValue.Store

/-! `simple_kv`: buckets and values are persistent. -/
namespace SpackPlayground.KeyValue

open Library.HashIndex Store

structure SimpleKv {Key : Type*} (hashing : Hashing Key) (Value : Type*) where
  buckets : Buckets hashing
  values : List Value

namespace SimpleKv

variable {Key Value : Type*} {hashing : Hashing Key}

def empty : SimpleKv hashing Value := ⟨fun _ => [], []⟩

variable [DecidableEq Key]

def get (kv : SimpleKv hashing Value) (key : Key) : Answer Value :=
  search kv.buckets kv.values key

def put (kv : SimpleKv hashing Value) (key : Key) (val : Value) (commits : Bool) :
    SimpleKv hashing Value × Answer Value :=
  match find key (kv.buckets (hashing.index key)) with
  | some e =>
      let assigned := assign kv.values e.2 val commits
      ({ kv with values := assigned.1 }, assigned.2)
  | none =>
      if commits then
        let values := kv.values ++ [val]
        (⟨push hashing.index kv.buckets key (values.length - 1), values⟩, .stored)
      else (kv, .aborted)

def apply (kv : SimpleKv hashing Value) : Op Key Value → SimpleKv hashing Value × Answer Value
  | .put key val commits => kv.put key val commits
  | .get key => (kv, kv.get key)

theorem put_cases {kv : SimpleKv hashing Value} {keys : List Key}
    (hholds : Holds kv.buckets keys kv.values) (key : Key) (val : Value) (commits : Bool) :
    (commits = false ∧ kv.put key val commits = (kv, .aborted)) ∨
      (commits = true ∧ ∃ i : Nat, keys[i]? = some key ∧ i < kv.values.length ∧
        kv.put key val commits = (⟨kv.buckets, kv.values.set i val⟩, .stored)) ∨
      (commits = true ∧ key ∉ keys ∧ kv.put key val commits =
        (⟨push hashing.index kv.buckets key kv.values.length, kv.values ++ [val]⟩,
          .stored)) := by
  unfold put
  cases hfind : find key (kv.buckets (hashing.index key)) with
  | none =>
      cases commits with
      | false => exact .inl ⟨rfl, rfl⟩
      | true =>
          have hlast : (kv.values ++ [val]).length - 1 = kv.values.length := by simp
          apply Or.inr
          apply Or.inr
          apply And.intro rfl
          apply And.intro (hholds.of_find_none hfind)
          simp only [hlast, if_true]
  | some e =>
      have he := hholds.of_find_some hfind
      simp only [assign_of_lt he.2]
      cases commits with
      | false => exact .inl ⟨rfl, rfl⟩
      | true => exact .inr (.inl ⟨rfl, e.2, he.1, he.2, rfl⟩)

end SimpleKv

end SpackPlayground.KeyValue
