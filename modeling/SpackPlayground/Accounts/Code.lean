import SpackPlayground.Library.Flushing

/-! `ppm_ch7_6` and `ppm_ch7_7`: two accounts in a new pool, and a transfer between them,
by published actions in the first and by a transaction in the second. -/
namespace SpackPlayground.Accounts

open Library.CrashHoare Library.Persistence

abbrev Oid := Nat

/-- The characters of a string, and the fields of a `struct account`. -/
inductive Loc where
  | char (o : Oid) (i : Nat)
  | name (o : Oid)
  | balance (o : Oid)
  deriving DecidableEq

def Loc.object : Loc → Oid
  | char o _ | name o | balance o => o

@[reducible] def Val : Loc → Type
  | .char .. => Char
  | .name _ => Oid
  | .balance _ => UInt64

abbrev Image := (l : Loc) → Val l

structure Object where
  size : Nat
  typeNum : Nat
  deriving DecidableEq

inductive PobjAction where
  | reserved (o : Oid)
  | setValue (o : Oid) (x : UInt64)
  deriving DecidableEq

/-- A pool; `reserved` is volatile. The log is that of the open transaction, with the
balances as they were when they were added to it. -/
structure Pool where
  memory : Pipeline Val
  live : Oid → Option Object
  reserved : Oid → Option Object
  log : List (Oid × UInt64)

def zeroed : Image
  | .char .. => Char.ofNat 0
  | .name _ => 0
  | .balance _ => 0

def created (memory : Pipeline Val) : Pool := ⟨memory, fun _ => none, fun _ => none, []⟩

inductive Cmd : Type → Type where
  | reserve (size typeNum : Nat) : Cmd (Option Oid)
  | load (l : Loc) : Cmd (Val l)
  | store (l : Loc) (x : Val l) : Cmd Unit
  | flush (range : Loc → Bool) : Cmd Unit
  | drain : Cmd Unit
  | publish (act : List PobjAction) : Cmd Unit
  | txBegin : Cmd Unit
  /-- `TX_ADD_DIRECT` of the balance of an account. -/
  | txAddDirect (o : Oid) : Cmd Unit
  | txEnd : Cmd Unit

def setValues (act : List PobjAction) : (l : Loc) → Option (Val l)
  | .char .. | .name _ => none
  | .balance o => act.findSome? fun
      | .setValue other x => if other = o then some x else none
      | .reserved _ => none

namespace Pool

/-- All the actions take effect at once, and are durable. -/
def publish (p : Pool) (act : List PobjAction) : Pool :=
  { p with
    memory := { p.memory.toMemory.assign (setValues act) with flushed := p.memory.flushed }
    live := fun o => if .reserved o ∈ act then p.reserved o else p.live o
    reserved := fun o => if .reserved o ∈ act then none else p.reserved o }

def logged (p : Pool) : Loc → Bool
  | .char .. | .name _ => false
  | .balance o => (p.log.lookup o).isSome

/-- What was added to the transaction is made durable, and the log is dropped. -/
def commit (p : Pool) : Pool :=
  { p with
    memory := { p.memory.toMemory.persist p.logged with flushed := p.memory.flushed }
    log := [] }

/-- What the next `open` finds: the log is undone. -/
def recovered (p : Pool) : Image
  | .char o i => p.memory.medium (.char o i)
  | .name o => p.memory.medium (.name o)
  | .balance o => (p.log.lookup o).getD (p.memory.medium (.balance o))

end Pool

/-- A reservation finds an object that nothing else has, or fails. -/
def exec {β : Type} : Cmd β → Pool → β → Pool → Prop
  | .reserve size typeNum, p, answer, p' =>
      answer = none ∧ p' = p ∨ ∃ o, answer = some o ∧ p.live o = none ∧ p.reserved o = none ∧
        p' = { p with reserved := Function.update p.reserved o (some ⟨size, typeNum⟩) }
  | .load l, p, x, p' => x = p.memory.view l ∧ p' = p
  | .store l x, p, _, p' => p' = { p with memory := p.memory.store l x }
  | .flush range, p, _, p' => p' = { p with memory := p.memory.flush range }
  | .drain, p, _, p' => p' = { p with memory := p.memory.drain }
  | .publish act, p, _, p' => p' = p.publish act
  | .txBegin, p, _, p' => p' = { p with log := [] }
  | .txAddDirect o, p, _, p' =>
      p' = { p with log := p.log ++ [(o, p.memory.view (.balance o))] }
  | .txEnd, p, _, p' => p' = p.commit

/-- A `PMEMoid` is wider than a store. -/
def Loc.wide : Loc → Bool
  | name _ => true
  | char .. | balance _ => false

def machine : Semantics Cmd Pool where
  exec := exec
  drift p p' := ∃ memory, Evicts Loc.wide p.memory memory ∧ p' = { p with memory := memory }

abbrev Program (α : Type) := Prog Cmd α

def cstr (name : List Char) : List Char := name ++ [Char.ofNat 0]

def copy {α : Type} (str : Oid) (next : Program α) : Nat → List Char → Program α
  | _, [] => next
  | i, c :: rest => .call (.store (.char str i) c) fun _ => copy str next (i + 1) rest

def Loc.InText (str : Oid) (len : Nat) : Loc → Bool
  | char o i => o = str ∧ i < len
  | name _ | balance _ => false

def Loc.InAccount (acc : Oid) : Loc → Bool
  | char .. => false
  | name o | balance o => o = acc

/-- `pmemobj_memcpy` with `PMEMOBJ_F_MEM_NODRAIN`. -/
def memcpyNodrain {α : Type} (str : Oid) (chars : List Char) (next : Program α) : Program α :=
  copy str (.call (.flush (Loc.InText str chars.length)) fun _ => next) 0 chars

def persist {α : Type} (range : Loc → Bool) (next : Program α) : Program α :=
  .call (.flush range) fun _ => .call .drain fun _ => next

/-- `new_account`; `none` is `die`. -/
def newAccount (name : List Char) (deposit : Int) : Program (Option Oid) :=
  .call (.reserve (name.length + 1) 0) fun
    | none => .done none
    | some str =>
        memcpyNodrain str (cstr name) <|
        .call (.reserve 24 1) fun
          | none => .done none
          | some acc =>
              .call (.store (.name acc) str) fun _ =>
              .call (.store (.balance acc) (UInt64.ofInt deposit)) fun _ =>
              persist (Loc.InAccount acc) <|
              .call (.publish [.reserved str, .reserved acc]) fun _ => .done (some acc)

def publishTransfer (price : Int) (accountA accountB : Oid) : Program Unit :=
  .call (.load (.balance accountA)) fun a =>
  .call (.load (.balance accountB)) fun b =>
  .call (.publish [.setValue accountA (a - UInt64.ofInt price),
    .setValue accountB (b + UInt64.ofInt price)]) fun _ => .done ()

def txTransfer (price : Int) (accountA accountB : Oid) : Program Unit :=
  .call .txBegin fun _ =>
  .call (.txAddDirect accountA) fun _ =>
  .call (.txAddDirect accountB) fun _ =>
  .call (.load (.balance accountA)) fun a =>
  .call (.store (.balance accountA) (a - UInt64.ofInt price)) fun _ =>
  .call (.load (.balance accountB)) fun b =>
  .call (.store (.balance accountB) (b + UInt64.ofInt price)) fun _ =>
  .call .txEnd fun _ => .done ()

structure Opening where
  name : List Char
  deposit : Int

/-- `main` from the new pool on; the answer says whether it has come to its end. -/
def main (transfer : Oid → Oid → Program Unit) (first second : Opening) : Program Bool :=
  (newAccount first.name first.deposit).bind fun
    | none => .done false
    | some accountA => (newAccount second.name second.deposit).bind fun
        | none => .done false
        | some accountB => (transfer accountA accountB).bind fun _ => .done true

def caesar : Opening := ⟨"Julius Caesar".toList, 100⟩

def anthony : Opening := ⟨"Mark Anthony".toList, 50⟩

def price : Int := 42

end SpackPlayground.Accounts
