import Mathlib.Algebra.BigOperators.Group.Finset.Piecewise
import Mathlib.Data.List.Nodup
import Mathlib.Data.Multiset.Range
import SpackPlayground.Library.History

/-! An index of a list of keys: each key is stored, with its position, in the
bucket that a slot function gives. -/
namespace SpackPlayground.Library.HashIndex

open History

variable {Key Value Slot : Type*} [DecidableEq Slot] (slot : Key → Slot)

def indexed (keys : List Key) (b : Slot) : List (Key × Nat) :=
  keys.zipIdx.filter fun entry => slot entry.1 = b

def push (buckets : Slot → List (Key × Nat)) (key : Key) (position : Nat) :
    Slot → List (Key × Nat) :=
  Function.update buckets (slot key) (buckets (slot key) ++ [(key, position)])

variable {slot} {keys : List Key} {key : Key} {i : Nat} {b : Slot}

@[simp] theorem indexed_nil : indexed slot [] = fun _ => [] := rfl

theorem indexed_append_singleton :
    indexed slot (keys ++ [key]) = push slot (indexed slot keys) key keys.length := by
  funext b
  unfold push indexed
  rw [List.zipIdx_append, List.filter_append]
  by_cases hb : b = slot key
  · subst hb
    simp
  · simp [hb, Ne.symm hb]

theorem mem_indexed : (key, i) ∈ indexed slot keys b ↔ keys[i]? = some key ∧ slot key = b := by
  unfold indexed
  rw [List.mem_filter, List.mem_zipIdx_iff_getElem?, decide_eq_true_iff]

section Find

variable [DecidableEq Key]

def find (key : Key) (bucket : List (Key × Nat)) : Option (Key × Nat) :=
  bucket.find? fun entry => entry.1 = key

theorem find_eq_none (hfind : find key (indexed slot keys (slot key)) = none) : key ∉ keys := by
  intro hmem
  obtain ⟨i, hi⟩ := List.getElem?_of_mem hmem
  have hnone := List.find?_eq_none.mp hfind (key, i) (mem_indexed.mpr ⟨hi, rfl⟩)
  simp at hnone

theorem find_eq_some {entry : Key × Nat}
    (hfind : find key (indexed slot keys (slot key)) = some entry) :
    entry.1 = key ∧ keys[entry.2]? = some key := by
  have hkey : entry.1 = key := by simpa using List.find?_some hfind
  have hmem : (entry.1, entry.2) ∈ indexed slot keys (slot key) := List.mem_of_find?_eq_some hfind
  rw [hkey] at hmem
  exact ⟨hkey, (mem_indexed.mp hmem).1⟩

end Find

section Entries

variable [Fintype Slot]

def entries (buckets : Slot → List (Key × Nat)) : Multiset (Key × Nat) :=
  ∑ b, (buckets b : Multiset (Key × Nat))

theorem entries_push (buckets : Slot → List (Key × Nat)) :
    entries (push slot buckets key i) = (key, i) ::ₘ entries buckets := by
  unfold entries push
  have hupdate : (fun b => ((Function.update buckets (slot key)
        (buckets (slot key) ++ [(key, i)]) b : List (Key × Nat)) : Multiset (Key × Nat))) =
      Function.update (fun b => (buckets b : Multiset (Key × Nat))) (slot key)
        ((key, i) ::ₘ (buckets (slot key) : Multiset (Key × Nat))) := by
    funext b
    by_cases hb : b = slot key
    · subst hb
      rw [Function.update_self, Function.update_self, ← Multiset.coe_add, add_comm]
      rfl
    · rw [Function.update_of_ne hb, Function.update_of_ne hb]
  rw [hupdate, Finset.sum_update_of_mem (Finset.mem_univ _), Multiset.cons_add,
    Finset.sdiff_singleton_eq_erase,
    Finset.add_sum_erase Finset.univ (fun b => (buckets b : Multiset (Key × Nat)))
      (Finset.mem_univ (slot key))]

theorem entries_indexed : entries (indexed slot keys) = (keys.zipIdx : Multiset (Key × Nat)) := by
  induction keys using List.reverseRecOn with
  | nil => simp [entries]
  | append_singleton keys key ih =>
      rw [indexed_append_singleton, entries_push, ih, List.zipIdx_append, ← Multiset.coe_add,
        add_comm]
      simp

theorem map_snd_entries_indexed :
    (entries (indexed slot keys)).map Prod.snd = Multiset.range keys.length := by
  rw [entries_indexed, Multiset.map_coe, List.zipIdx_map_snd, ← List.range_eq_range']
  rfl

theorem map_fst_entries_indexed : (entries (indexed slot keys)).map Prod.fst = keys := by
  rw [entries_indexed, Multiset.map_coe, List.zipIdx_map_fst]

end Entries

section Map

/-- The map that two lists of the same length stand for. -/
def Represents (keys : List Key) (values : List Value) (map : Key → Option Value) : Prop :=
  ∀ key val, map key = some val ↔ ∃ i : Nat, keys[i]? = some key ∧ values[i]? = some val

variable {values : List Value} {val : Value} {map : Key → Option Value}

theorem represents_nil : Represents [] [] fun _ : Key => (none : Option Value) := by
  intro key val
  simp

variable [DecidableEq Key]

theorem Represents.push (hmap : Represents keys values map)
    (hlengths : keys.length = values.length) (hnew : key ∉ keys) :
    Represents (keys ++ [key]) (values ++ [val]) (Function.update map key (some val)) := by
  have hlt {i : Nat} {other : Key} (hkey : keys[i]? = some other) : i < keys.length :=
    (List.getElem?_eq_some_iff.mp hkey).1
  intro other found
  simp only [getElem?_append_singleton_eq_some]
  by_cases hother : other = key
  · subst hother
    rw [Function.update_self, Option.some_inj]
    constructor
    · intro hfound
      exact ⟨keys.length, .inr ⟨rfl, rfl⟩, .inr ⟨hlengths, hfound⟩⟩
    · intro hfound
      obtain ⟨i, hold | hlast, hval⟩ := hfound
      · exact absurd (List.mem_of_getElem? hold) hnew
      · cases hval with
        | inl hval =>
            have hi := (List.getElem?_eq_some_iff.mp hval).1
            omega
        | inr hval => exact hval.2
  · rw [Function.update_of_ne hother, hmap]
    apply exists_congr
    intro i
    constructor
    · intro hold
      exact ⟨.inl hold.1, .inl hold.2⟩
    · intro hnew
      obtain ⟨hold | hlast, hval⟩ := hnew
      · apply And.intro hold
        cases hval with
        | inl hval => exact hval
        | inr hval =>
            have hi := hlt hold
            omega
      · exact absurd hlast.2.symm hother

theorem Represents.set (hmap : Represents keys values map) (hnodup : keys.Nodup)
    (hkey : keys[i]? = some key) (hi : i < values.length) :
    Represents keys (values.set i val) (Function.update map key (some val)) := by
  intro other found
  by_cases hother : other = key
  · subst hother
    rw [Function.update_self]
    constructor
    · intro hfound
      exact ⟨i, hkey, by rw [List.getElem?_set_self hi, hfound]⟩
    · intro hfound
      obtain ⟨j, hj, hval⟩ := hfound
      have hlt := (List.getElem?_eq_some_iff.mp hj).1
      rw [(List.getElem?_inj hlt hnodup).mp (hj.trans hkey.symm)] at hval
      rwa [List.getElem?_set_self hi] at hval
  · rw [Function.update_of_ne hother, hmap]
    apply exists_congr
    intro j
    apply and_congr_right
    intro hj
    have hne : i ≠ j := by
      intro heq
      rw [← heq, hkey] at hj
      exact hother (Option.some_inj.mp hj).symm
    rw [List.getElem?_set_ne hne]

end Map

end SpackPlayground.Library.HashIndex
