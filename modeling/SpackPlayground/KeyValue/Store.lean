import SpackPlayground.Library.HashIndex

/-! What `simple_kv` and `simple_kv_runtime` have in common: buckets of keys with
positions in a vector of values. -/
namespace SpackPlayground.KeyValue.Store

open Library.HashIndex

structure Hashing (Key : Type*) where
  hash : Key → Nat
  n : Nat
  pos : 0 < n

variable {Key Value : Type*}

def Hashing.index (hashing : Hashing Key) (key : Key) : Fin hashing.n :=
  ⟨hashing.hash key % hashing.n, Nat.mod_lt _ hashing.pos⟩

abbrev Buckets (hashing : Hashing Key) := Fin hashing.n → List (Key × Nat)

inductive Answer (Value : Type*) where
  | stored
  | found (val : Value)
  /-- `std::out_of_range("no entry in simplekv")`. -/
  | outOfRange
  /-- The transaction was rolled back, and its exception reaches the caller. -/
  | aborted
  /-- `values[e.second]` beyond the end of `values`: undefined behaviour. -/
  | undefined
  deriving DecidableEq

/-- A `put` comes with the outcome of its transaction. -/
inductive Op (Key Value : Type*) where
  | put (key : Key) (val : Value) (commits : Bool)
  | get (key : Key)

variable {hashing : Hashing Key}

structure Holds (buckets : Buckets hashing) (keys : List Key) (values : List Value) : Prop where
  lengths : keys.length = values.length
  nodup : keys.Nodup
  buckets : buckets = indexed hashing.index keys

section Holds

variable {buckets : Buckets hashing} {keys : List Key} {values : List Value} {key : Key}
  {val : Value} {i : Nat}

theorem holds_nil : Holds (fun _ : Fin hashing.n => []) [] ([] : List Value) where
  lengths := rfl
  nodup := List.nodup_nil
  buckets := rfl

theorem Holds.push (hholds : Holds buckets keys values) (hnew : key ∉ keys) :
    Holds (push hashing.index buckets key values.length) (keys ++ [key]) (values ++ [val]) where
  lengths := by rw [List.length_append, List.length_append, hholds.lengths]; rfl
  nodup := by
    rw [List.nodup_append_comm]
    exact List.nodup_cons.mpr ⟨hnew, hholds.nodup⟩
  buckets := by rw [indexed_append_singleton, hholds.buckets, hholds.lengths]

theorem Holds.set (hholds : Holds buckets keys values) :
    Holds buckets keys (values.set i val) where
  lengths := by rw [List.length_set, hholds.lengths]
  nodup := hholds.nodup
  buckets := hholds.buckets

theorem Holds.lt_length (hholds : Holds buckets keys values) (hkey : keys[i]? = some key) :
    i < values.length := by
  rw [← hholds.lengths]
  exact (List.getElem?_eq_some_iff.mp hkey).1

end Holds

def assign (values : List Value) (position : Nat) (val : Value) (commits : Bool) :
    List Value × Answer Value :=
  if position < values.length then
    if commits then (values.set position val, .stored) else (values, .aborted)
  else (values, .undefined)

theorem assign_of_lt {values : List Value} {position : Nat} (hlt : position < values.length)
    (val : Value) (commits : Bool) : assign values position val commits =
      if commits then (values.set position val, .stored) else (values, .aborted) :=
  if_pos hlt

variable [DecidableEq Key]

def search (buckets : Buckets hashing) (values : List Value) (key : Key) : Answer Value :=
  match find key (buckets (hashing.index key)) with
  | some e =>
      match values[e.2]? with
      | some val => .found val
      | none => .undefined
  | none => .outOfRange

def answer : Option Value → Answer Value
  | some val => .found val
  | none => .outOfRange

section Find

variable {buckets : Buckets hashing} {keys : List Key} {values : List Value} {key : Key}
  {map : Key → Option Value}

theorem Holds.of_find_none (hholds : Holds buckets keys values)
    (hfind : find key (buckets (hashing.index key)) = none) : key ∉ keys := by
  rw [hholds.buckets] at hfind
  exact find_eq_none hfind

theorem Holds.of_find_some (hholds : Holds buckets keys values) {e : Key × Nat}
    (hfind : find key (buckets (hashing.index key)) = some e) :
    keys[e.2]? = some key ∧ e.2 < values.length := by
  rw [hholds.buckets] at hfind
  have hkey := (find_eq_some hfind).2
  exact ⟨hkey, hholds.lt_length hkey⟩

theorem search_ne_undefined (hholds : Holds buckets keys values) (key : Key) :
    search buckets values key ≠ .undefined := by
  unfold search
  cases hfind : find key (buckets (hashing.index key)) with
  | none => simp
  | some e => simp [List.getElem?_eq_getElem (hholds.of_find_some hfind).2]

theorem search_eq (hholds : Holds buckets keys values) (hmap : Represents keys values map)
    (key : Key) : search buckets values key = answer (map key) := by
  unfold search
  cases hfind : find key (buckets (hashing.index key)) with
  | none =>
      have hnone : map key = none := by
        apply Option.eq_none_iff_forall_ne_some.mpr
        intro val hval
        obtain ⟨i, hkey, _⟩ := (hmap key val).mp hval
        exact hholds.of_find_none hfind (List.mem_of_getElem? hkey)
      rw [hnone]
      rfl
  | some e =>
      have he := hholds.of_find_some hfind
      have hval := List.getElem?_eq_getElem he.2
      rw [(hmap key _).mpr ⟨e.2, he.1, hval⟩]
      simp only [hval]
      rfl

end Find

end SpackPlayground.KeyValue.Store
