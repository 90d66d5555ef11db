import Mathlib.Data.Nat.Digits.Defs
import Mathlib.Logic.Function.Basic
import Mathlib.Order.Interval.Set.Defs

/-! Little-endian words, and the bytes that an image of memory holds at an address. -/
namespace SpackPlayground.Library.Bytes

/-- The lowest `width` bytes of a number, lowest first. -/
def littleEndian (width n : Nat) : List UInt8 :=
  (List.range width).map fun i => UInt8.ofNat (n / 256 ^ i)

def ofLittleEndian (bytes : List UInt8) : Nat := Nat.ofDigits 256 (bytes.map UInt8.toNat)

@[simp] theorem length_littleEndian (width n : Nat) : (littleEndian width n).length = width := by
  simp [littleEndian]

theorem ofLittleEndian_littleEndian (width n : Nat) :
    ofLittleEndian (littleEndian width n) = n % 256 ^ width := by
  unfold ofLittleEndian littleEndian
  induction width with
  | zero => simp [Nat.mod_one]
  | succ width ih =>
      rw [List.range_succ, List.map_append, List.map_append, Nat.ofDigits_append, ih,
        Nat.mod_pow_succ]
      simp

def word (x : UInt64) : List UInt8 := littleEndian 8 x.toNat

def ofWord (bytes : List UInt8) : UInt64 := UInt64.ofNat (ofLittleEndian bytes)

@[simp] theorem length_word (x : UInt64) : (word x).length = 8 := length_littleEndian ..

@[simp] theorem ofWord_word (x : UInt64) : ofWord (word x) = x := by
  have hlt : x.toNat < 256 ^ 8 := x.toNat_lt
  unfold ofWord word
  rw [ofLittleEndian_littleEndian, Nat.mod_eq_of_lt hlt, UInt64.ofNat_toNat]

section Images

variable {image image' : Nat → UInt8} {addr n i : Nat} {bytes more : List UInt8} {b : UInt8}

def bytesAt (image : Nat → UInt8) (addr n : Nat) : List UInt8 :=
  (List.range n).map fun i => image (addr + i)

def wordAt (image : Nat → UInt8) (addr : Nat) : UInt64 := ofWord (bytesAt image addr 8)

theorem bytesAt_congr (hsame : Set.EqOn image image' (Set.Ico addr (addr + n))) :
    bytesAt image addr n = bytesAt image' addr n := by
  apply List.map_congr_left
  intro i hi
  have hi := List.mem_range.mp hi
  exact hsame ⟨by omega, by omega⟩

theorem wordAt_congr (hsame : Set.EqOn image image' (Set.Ico addr (addr + 8))) :
    wordAt image addr = wordAt image' addr :=
  congrArg ofWord (bytesAt_congr hsame)

def Holds (image : Nat → UInt8) (addr : Nat) (bytes : List UInt8) : Prop :=
  ∀ i b, bytes[i]? = some b → image (addr + i) = b

theorem holds_nil : Holds image addr [] := nofun

theorem holds_append : Holds image addr (bytes ++ more) ↔
    Holds image addr bytes ∧ Holds image (addr + bytes.length) more := by
  constructor
  · intro hholds
    constructor
    · intro i b hi
      apply hholds
      rw [List.getElem?_append_left (List.getElem?_eq_some_iff.mp hi).1]
      exact hi
    · intro i b hi
      rw [Nat.add_assoc]
      apply hholds
      rw [List.getElem?_append_right (Nat.le_add_right ..), Nat.add_sub_cancel_left]
      exact hi
  · intro hboth i b hi
    by_cases hlt : i < bytes.length
    · rw [List.getElem?_append_left hlt] at hi
      exact hboth.1 i b hi
    · rw [List.getElem?_append_right (Nat.le_of_not_lt hlt)] at hi
      have hmore := hboth.2 _ b hi
      rwa [Nat.add_assoc, Nat.add_sub_cancel' (Nat.le_of_not_lt hlt)] at hmore

theorem Holds.bytesAt_eq (hholds : Holds image addr bytes) :
    bytesAt image addr bytes.length = bytes := by
  apply List.ext_getElem
  · simp [bytesAt]
  · intro i _ hi
    simp only [bytesAt, List.getElem_map, List.getElem_range]
    exact hholds i bytes[i] (List.getElem?_eq_getElem hi)

theorem Holds.wordAt_eq {x : UInt64} (hholds : Holds image addr (word x)) :
    wordAt image addr = x := by
  have hbytes := hholds.bytesAt_eq
  rw [length_word] at hbytes
  unfold wordAt
  rw [hbytes, ofWord_word]

theorem Holds.congr (hholds : Holds image addr bytes)
    (hsame : Set.EqOn image' image (Set.Ico addr (addr + bytes.length))) :
    Holds image' addr bytes := by
  intro i b hi
  have hlt := (List.getElem?_eq_some_iff.mp hi).1
  rw [hsame ⟨by omega, by omega⟩]
  exact hholds i b hi

theorem Holds.snoc (hholds : Holds image addr (bytes.take i)) (hi : bytes[i]? = some b) :
    Holds (Function.update image (addr + i) b) addr (bytes.take (i + 1)) := by
  intro j c hj
  obtain ⟨hlt, hj⟩ := List.getElem?_eq_some_iff.mp hj
  rw [List.length_take] at hlt
  by_cases heq : j = i
  · subst heq
    rw [Function.update_self]
    rw [List.getElem?_eq_getElem (by omega)] at hi
    rw [← hj, List.getElem_take]
    exact (Option.some.inj hi).symm
  · rw [Function.update_of_ne (by omega)]
    apply hholds
    rw [List.getElem?_take_of_lt (by omega), ← hj, List.getElem_take,
      List.getElem?_eq_getElem]

def patch (addr : Nat) (bytes : List UInt8) (l : Nat) : Option UInt8 :=
  if addr ≤ l then bytes[l - addr]? else none

theorem patch_eq_none_iff {l : Nat} :
    patch addr bytes l = none ↔ l ∉ Set.Ico addr (addr + bytes.length) := by
  unfold patch
  split
  · rw [List.getElem?_eq_none_iff, Set.mem_Ico]
    omega
  · rw [Set.mem_Ico, eq_self_iff_true, true_iff]
    omega

theorem patch_add (h : bytes[i]? = some b) : patch addr bytes (addr + i) = some b := by
  unfold patch
  rw [if_pos (Nat.le_add_right ..), Nat.add_sub_cancel_left]
  exact h

def overwrite (image : Nat → UInt8) (addr : Nat) (bytes : List UInt8) (l : Nat) : UInt8 :=
  (patch addr bytes l).getD (image l)

theorem holds_overwrite : Holds (overwrite image addr bytes) addr bytes := by
  intro i b hi
  unfold overwrite
  rw [patch_add hi, Option.getD_some]

theorem overwrite_eqOn : Set.EqOn (overwrite image addr bytes) image
    (Set.compl (Set.Ico addr (addr + bytes.length))) := by
  intro l hl
  unfold overwrite
  rw [patch_eq_none_iff.mpr hl, Option.getD_none]

end Images

end SpackPlayground.Library.Bytes
