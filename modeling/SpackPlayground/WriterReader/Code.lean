import SpackPlayground.Library.Flushing

/-! `ppm_ch7_1` writes a string into the root object of a new pool, and `ppm_ch7_2` prints
it when it has the length that is stored with it. -/
namespace SpackPlayground.WriterReader

open Library.CrashHoare Library.Persistence

inductive Loc where
  | len
  | char (i : Nat)
  deriving DecidableEq

@[reducible] def Val : Loc → Type
  | .len => UInt64
  | .char _ => Char

abbrev Image := (l : Loc) → Val l

def maxBufLen : Nat := 31

def nul : Char := Char.ofNat 0

def persist {α : Type} (range : Loc → Bool) (next : Prog (Cmd Val) α) : Prog (Cmd Val) α :=
  .call (.flush range) fun _ => .call .drain fun _ => next

/-- The copy that `pmemobj_memcpy_persist` makes from `i` on. -/
def copy {α : Type} (next : Prog (Cmd Val) α) : Nat → List Char → Prog (Cmd Val) α
  | _, [] => next
  | i, c :: text => .call (.store (.char i) c) fun _ => copy next (i + 1) text

def Loc.InBuf (n : Nat) : Loc → Bool
  | len => false
  | char i => i < n

/-- `main` of the writer from the root object on; `text` is `buf` up to its end. -/
def writer (text : List Char) : Prog (Cmd Val) Unit :=
  .call (.store .len (.ofNat text.length)) fun _ =>
  persist (fun l => l = .len) <|
  copy (persist (Loc.InBuf text.length) (.done ())) 0 text

def zeroed : Image
  | .len => (0 : UInt64)
  | .char _ => nul

def created : Pipeline Val := ⟨⟨zeroed, zeroed⟩, fun _ => false⟩

/-- A `size_t` and a `char` reach the medium as a whole. -/
def machine : Semantics (Cmd Val) (Pipeline Val) := semantics fun _ => false

def buf (image : Image) : List Char := (List.range maxBufLen).map fun i => image (.char i)

/-- `strlen`; `none` is a read beyond the end of the array. -/
def strlen (chars : List Char) : Option Nat := chars.findIdx? fun c => c = nul

inductive Output where
  | silent
  | printed (text : List Char)
  | undefined
  deriving DecidableEq

def reader (image : Image) : Output :=
  match strlen (buf image) with
  | none => .undefined
  | some n =>
      if (image .len).toNat = n then .printed ((buf image).take n ++ ['\n']) else .silent

end SpackPlayground.WriterReader
