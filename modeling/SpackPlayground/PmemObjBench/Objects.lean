import Mathlib.Data.Finmap

/-! The persistent side of `pmemobjbench`: the vector `Root::objs` and the data
blocks that its elements point to. -/
namespace SpackPlayground.PmemObjBench.Objects

abbrev Addr := Nat

/-- `Object`, with a null `persistent_ptr` as `none`. -/
structure Object where
  data : Option Addr
  deriving DecidableEq

/-- The pool file: `Root::objs`, and the live data blocks with their sizes. -/
structure Pool where
  objs : List Object
  heap : Finmap fun _ : Addr => Nat

/-- `pmem::obj::vector::resize`: new elements are null, dropped ones free nothing. -/
def resize (objs : List Object) (n : Nat) : List Object :=
  objs.take n ++ List.replicate (n - objs.length) ⟨none⟩

@[simp] theorem length_resize (objs : List Object) (n : Nat) : (resize objs n).length = n := by
  simp only [resize, List.length_append, List.length_take, List.length_replicate]
  omega

end SpackPlayground.PmemObjBench.Objects
