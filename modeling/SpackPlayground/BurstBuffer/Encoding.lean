import Mathlib.Order.Interval.Set.Basic
import SpackPlayground.BurstBuffer.Memory
import SpackPlayground.Library.Bytes

/-! The bytes of a list node: `ListNode::Persistent`, whose last member
`InlineWriteRequest` is followed by the payload. -/
namespace SpackPlayground.BurstBuffer.Encoding

open Library.Bytes Memory

/-- A `PMEMoid` is the identifier of the pool and the offset in it. -/
def sizeofPersistentPtr : Nat := 16

def sizeofInlineWriteRequest : Nat := 16

def offsetofWriteReq : Nat := sizeofPersistentPtr

def sizeofPersistent : Nat := offsetofWriteReq + sizeofInlineWriteRequest

def writeReqAt (addr : Nat) : Nat := addr + offsetofWriteReq

/-- `InlineWriteRequest::data`, which is `this + 1`. -/
def dataAt (addr : Nat) : Nat := writeReqAt addr + sizeofInlineWriteRequest

theorem dataAt_eq (addr : Nat) : dataAt addr = addr + sizeofPersistent := rfl

/-- What `makePersistentAtomic` asks the allocator for, as `size_t`. -/
def reqCapacity (data : List UInt8) : UInt64 :=
  UInt64.ofNat sizeofPersistent + UInt64.ofNat data.length

def pointerBytes (uuid : UInt64) : PersistentPtr → List UInt8
  | none => word 0 ++ word 0
  | some addr => word uuid ++ word (UInt64.ofNat addr)

/-- A pointer is null when its offset is zero. -/
def pointerAt (image : Nat → UInt8) (addr : Nat) : PersistentPtr :=
  let off := wordAt image (addr + 8)
  if off = 0 then none else some off.toNat

/-- What the constructor of `ListNode::Persistent` stores. -/
def headerBytes (uuid : UInt64) (write : Write) : List UInt8 :=
  pointerBytes uuid none ++
    (word write.offset.toUInt64 ++ word (UInt64.ofNat write.data.length))

def sizeAt (image : Nat → UInt8) (addr : Nat) : UInt64 := wordAt image (writeReqAt addr + 8)

def nodeAt (image : Nat → UInt8) (addr : Nat) : Node where
  next := pointerAt image addr
  writeReq := ⟨(wordAt image (writeReqAt addr)).toInt64, (sizeAt image addr).toNat⟩
  bytes := bytesAt image (dataAt addr) (sizeAt image addr).toNat

@[simp] theorem nodeAt_next (image : Nat → UInt8) (addr : Nat) :
    (nodeAt image addr).next = pointerAt image addr := by
  unfold nodeAt
  dsimp only

@[simp] theorem length_pointerBytes (uuid : UInt64) (ptr : PersistentPtr) :
    (pointerBytes uuid ptr).length = sizeofPersistentPtr := by
  cases ptr <;> simp [pointerBytes, sizeofPersistentPtr]

@[simp] theorem length_headerBytes (uuid : UInt64) (write : Write) :
    (headerBytes uuid write).length = sizeofPersistent := by
  simp [headerBytes, sizeofPersistent, offsetofWriteReq, sizeofInlineWriteRequest]

theorem toNat_reqCapacity {data : List UInt8} (hfits : data.length < 2 ^ 63) :
    (reqCapacity data).toNat = sizeofPersistent + data.length := by
  unfold reqCapacity sizeofPersistent offsetofWriteReq sizeofPersistentPtr sizeofInlineWriteRequest
  rw [UInt64.toNat_add, UInt64.toNat_ofNat', UInt64.toNat_ofNat']
  omega

section Images

variable {image image' : Nat → UInt8} {addr : Nat} {uuid : UInt64} {node : Node} {write : Write}

theorem pointerAt_of_holds {ptr : PersistentPtr}
    (hptr : ∀ target, ptr = some target → 0 < target ∧ target < 2 ^ 64)
    (hholds : Holds image addr (pointerBytes uuid ptr)) : pointerAt image addr = ptr := by
  unfold pointerAt
  cases ptr with
  | none =>
      have hoff := (holds_append.mp hholds).2.wordAt_eq
      rw [length_word] at hoff
      simp [hoff]
  | some target =>
      have hoff := (holds_append.mp hholds).2.wordAt_eq
      rw [length_word] at hoff
      obtain ⟨hpos, hlt⟩ := hptr target rfl
      have htarget : (UInt64.ofNat target).toNat = target := UInt64.toNat_ofNat_of_lt' hlt
      have hne : UInt64.ofNat target ≠ 0 := by
        intro hzero
        rw [hzero] at htarget
        exact Nat.ne_of_lt hpos htarget
      simp only [hoff, hne, if_false, htarget]

theorem toNat_sizeAt_of_holds (hfits : write.data.length < 2 ^ 63)
    (hheader : Holds image addr (headerBytes uuid write)) :
    (sizeAt image addr).toNat = write.data.length := by
  have hsize := (holds_append.mp (holds_append.mp hheader).2).2
  rw [length_pointerBytes, length_word] at hsize
  have hword : sizeAt image addr = UInt64.ofNat write.data.length := hsize.wordAt_eq
  rw [hword]
  exact UInt64.toNat_ofNat_of_lt' (hfits.trans (by decide))

/-- The encoding round-trips. -/
theorem nodeAt_of_holds (hfits : write.data.length < 2 ^ 63)
    (hheader : Holds image addr (headerBytes uuid write))
    (hdata : Holds image (dataAt addr) write.data) : nodeAt image addr = create write := by
  obtain ⟨hnext, hreq⟩ := holds_append.mp hheader
  have hoffset := (holds_append.mp hreq).1
  rw [length_pointerBytes] at hoffset
  have hnext : pointerAt image addr = none := pointerAt_of_holds nofun hnext
  have hoffset : wordAt image (writeReqAt addr) = write.offset.toUInt64 := hoffset.wordAt_eq
  unfold nodeAt create
  rw [hnext, hoffset, toNat_sizeAt_of_holds hfits hheader, hdata.bytesAt_eq,
    Int64.toInt64_toUInt64]

theorem pointerAt_congr
    (hsame : Set.EqOn image' image (Set.Ico addr (addr + sizeofPersistentPtr))) :
    pointerAt image' addr = pointerAt image addr := by
  have hoff : wordAt image' (addr + 8) = wordAt image (addr + 8) :=
    wordAt_congr (hsame.mono (Set.Ico_subset_Ico (by omega) (by simp [sizeofPersistentPtr])))
  unfold pointerAt
  rw [hoff]

theorem nodeAt_of_eqOn (hnode : nodeAt image addr = node)
    (hsame : Set.EqOn image' image
      (Set.Ico (writeReqAt addr) (dataAt addr + node.bytes.length))) :
    nodeAt image' addr = { node with next := pointerAt image' addr } := by
  subst hnode
  have hlength : (nodeAt image addr).bytes.length = (sizeAt image addr).toNat := by
    simp [nodeAt, bytesAt]
  rw [hlength] at hsame
  have hreq : writeReqAt addr + 8 + 8 = dataAt addr := rfl
  have hoffset : wordAt image' (writeReqAt addr) = wordAt image (writeReqAt addr) :=
    wordAt_congr (hsame.mono (Set.Ico_subset_Ico (by omega) (by omega)))
  have hsize : sizeAt image' addr = sizeAt image addr :=
    wordAt_congr (hsame.mono (Set.Ico_subset_Ico (by omega) (by omega)))
  have hbytes : bytesAt image' (dataAt addr) (sizeAt image addr).toNat =
      bytesAt image (dataAt addr) (sizeAt image addr).toNat :=
    bytesAt_congr (hsame.mono (Set.Ico_subset_Ico (by omega) (by omega)))
  unfold nodeAt
  rw [hoffset, hsize, hbytes]

end Images

end SpackPlayground.BurstBuffer.Encoding
