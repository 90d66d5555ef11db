import Mathlib.Algebra.Order.Ring.Nat
import Mathlib.Tactic.Ring

/-! Striping: a range of blocks is cut into stripes, and each stripe into one
unit per worker. Blocks at the end of a stripe that belong to no unit are left
over. -/
namespace SpackPlayground.Library.Striping

structure Geometry where
  unit : Nat
  workers : Nat
  stripe : Nat
  stripes : Nat
  fits : workers * unit ≤ stripe

namespace Geometry

variable (g : Geometry)

/-- The block at `offset` in the unit of `worker` in stripe `s`. -/
def index (worker s offset : Nat) : Nat :=
  offset + (s * g.stripe + worker * g.unit)

structure Place (worker s offset : Nat) : Prop where
  worker : worker < g.workers
  stripe : s < g.stripes
  offset : offset < g.unit

variable {g}

theorem Place.within {worker s offset : Nat} (hplace : g.Place worker s offset) :
    offset + worker * g.unit < g.workers * g.unit := by
  have hnext : (worker + 1) * g.unit ≤ g.workers * g.unit :=
    Nat.mul_le_mul_right g.unit hplace.worker
  have hoffset := hplace.offset
  rw [Nat.add_mul, Nat.one_mul] at hnext
  omega

theorem Place.index_lt {worker s offset : Nat} (hplace : g.Place worker s offset) :
    g.index worker s offset < s * g.stripe + g.workers * g.unit := by
  have hwithin := hplace.within
  unfold index
  omega

theorem Place.index_lt_total {worker s offset : Nat} (hplace : g.Place worker s offset) :
    g.index worker s offset < g.stripes * g.stripe := by
  have hnext : (s + 1) * g.stripe ≤ g.stripes * g.stripe :=
    Nat.mul_le_mul_right g.stripe hplace.stripe
  have hindex := hplace.index_lt
  have hfits := g.fits
  rw [Nat.add_mul, Nat.one_mul] at hnext
  omega

theorem digits_unique {radix low low' high high' : Nat} (hlow : low < radix)
    (hlow' : low' < radix) (heq : low + high * radix = low' + high' * radix) :
    low = low' ∧ high = high' := by
  have hradix : 0 < radix := Nat.zero_lt_of_lt hlow
  have hhigh : high = high' := by
    have hdiv := congrArg (· / radix) heq
    simpa [Nat.add_mul_div_right _ _ hradix, Nat.div_eq_of_lt hlow,
      Nat.div_eq_of_lt hlow'] using hdiv
  subst hhigh
  exact ⟨Nat.add_right_cancel heq, rfl⟩

theorem index_injective {worker s offset worker' s' offset' : Nat}
    (hplace : g.Place worker s offset) (hplace' : g.Place worker' s' offset')
    (heq : g.index worker s offset = g.index worker' s' offset') :
    worker = worker' ∧ s = s' ∧ offset = offset' := by
  have hinner : offset + worker * g.unit < g.stripe := hplace.within.trans_le g.fits
  have hinner' : offset' + worker' * g.unit < g.stripe := hplace'.within.trans_le g.fits
  have heq' : offset + worker * g.unit + s * g.stripe =
      offset' + worker' * g.unit + s' * g.stripe := by
    unfold index at heq
    omega
  obtain ⟨hwithin, hstripe⟩ := digits_unique hinner hinner' heq'
  obtain ⟨hoffset, hworker⟩ := digits_unique hplace.offset hplace'.offset hwithin
  exact ⟨hworker, hstripe, hoffset⟩

theorem exists_place {block : Nat} (hfull : g.workers * g.unit = g.stripe)
    (hblock : block < g.stripes * g.stripe) :
    ∃ worker s offset, g.Place worker s offset ∧ g.index worker s offset = block := by
  have hstripe : 0 < g.stripe := Nat.pos_of_lt_mul_left hblock
  have hinner : block % g.stripe < g.workers * g.unit :=
    (Nat.mod_lt block hstripe).trans_eq hfull.symm
  have hunit : 0 < g.unit := Nat.pos_of_lt_mul_left hinner
  refine ⟨block % g.stripe / g.unit, block / g.stripe, block % g.stripe % g.unit,
    ⟨?_, ?_, Nat.mod_lt _ hunit⟩, ?_⟩
  · exact Nat.div_lt_of_lt_mul (by rwa [Nat.mul_comm])
  · exact Nat.div_lt_of_lt_mul (by rwa [Nat.mul_comm])
  · have hlow := Nat.mod_add_div' (block % g.stripe) g.unit
    have hhigh := Nat.mod_add_div' block g.stripe
    unfold index
    omega

/-- When the units do not fill the stripes, the last block of the first stripe
is left over. -/
theorem left_over (hgap : g.workers * g.unit < g.stripe) {worker s offset : Nat}
    (hplace : g.Place worker s offset) : g.index worker s offset ≠ g.stripe - 1 := by
  intro heq
  have hinner : offset + worker * g.unit < g.stripe := hplace.within.trans_le g.fits
  have hwithin := hplace.within
  have heq' : offset + worker * g.unit + s * g.stripe = g.stripe - 1 + 0 * g.stripe := by
    unfold index at heq
    omega
  obtain ⟨hlast, _⟩ := digits_unique hinner (by omega) heq'
  omega

/-- Every block has a place exactly when the units fill the stripes. -/
theorem covers_iff (hstripes : 0 < g.stripes) :
    (∀ block < g.stripes * g.stripe,
      ∃ worker s offset, g.Place worker s offset ∧ g.index worker s offset = block) ↔
    g.workers * g.unit = g.stripe := by
  constructor
  · intro hcovers
    by_contra hne
    have hgap : g.workers * g.unit < g.stripe := lt_of_le_of_ne g.fits hne
    have hlast : g.stripe - 1 < g.stripes * g.stripe := by
      have hone : 1 * g.stripe ≤ g.stripes * g.stripe := Nat.mul_le_mul_right g.stripe hstripes
      omega
    obtain ⟨worker, s, offset, hplace, hindex⟩ := hcovers _ hlast
    exact left_over hgap hplace hindex
  · exact fun hfull _ hblock => exists_place hfull hblock

end Geometry

end SpackPlayground.Library.Striping
