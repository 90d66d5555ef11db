import SpackPlayground.Library.Persistence
import SpackPlayground.Library.Transition

/-! `ppm_ch12_38_out_of_order_bug`: a counter and ten records in persistent memory.
The name and the flag of a record are persisted at once, the counter at the end. -/
namespace SpackPlayground.OutOfOrder

open Library.Persistence Library.Transition

inductive Loc where
  /-- `header->counter`. -/
  | counter
  | name (i : Nat)
  | valid (i : Nat)
  deriving DecidableEq

@[reducible] def Val : Loc → Type
  | .counter => Nat
  | .name _ => List Char
  | .valid _ => UInt8

abbrev Mem := Memory Val

abbrev Image := (l : Loc) → Val l

def nrecords : Nat := 10

def recordName (i : Nat) : List Char := "record #".toList ++ Nat.toDigits 10 (i + 1)

inductive Pc where
  /-- Before `header->counter++`. -/
  | counting (i : Nat)
  /-- Before `rand`. -/
  | choosing (i : Nat)
  /-- The name is stored, but not persisted. -/
  | named (i : Nat)
  /-- Before `valid` is set to 2. -/
  | flushed (i : Nat)
  /-- Before `valid` is persisted. -/
  | marked (i : Nat)
  /-- Before the counter is persisted. -/
  | closing
  | closed
  deriving DecidableEq

def atRecord (i : Nat) : Pc := if i < nrecords then .counting i else .closing

/-- The program's next step; `coin` is what `rand() % 2 == 0` says. -/
def advance (mem : Mem) (coin : Bool) : Pc → Option (Mem × Pc)
  | .counting i => some (mem.store .counter (mem.view .counter + 1 : Nat), .choosing i)
  | .choosing i =>
      some (if coin then (mem.store (.name i) (recordName i), .named i)
        else (mem.store (.valid i) (1 : UInt8), .marked i))
  | .named i => some (mem.persist fun l => l = .name i, .flushed i)
  | .flushed i => some (mem.store (.valid i) (2 : UInt8), .marked i)
  | .marked i => some (mem.persist fun l => l = .valid i, atRecord (i + 1))
  | .closing => some (mem.persist fun l => l = .counter, .closed)
  | .closed => none

structure State where
  mem : Mem
  pc : Pc

inductive Action where
  | work (coin : Bool)
  | evict (l : Loc) (x : Val l)

def step (s : State) : Action → Option State
  | .work coin => (advance s.mem coin s.pc).map fun next => ⟨next.1, next.2⟩
  | .evict l x => some { s with mem := s.mem.evict l x }

/-- A counter and a flag reach the medium as a whole, a name also in part. -/
def CanOccur (s : State) : Action → Prop
  | .evict (.name i) x => s.mem.Evictable (.name i) x
  | .evict l x => x = s.mem.view l
  | .work _ => True

def zeroed : Image
  | .counter => (0 : Nat)
  | .name _ => []
  | .valid _ => (0 : UInt8)

def initial : State := ⟨⟨zeroed, zeroed⟩, atRecord 0⟩

def machine : System State Action where
  init s := s = initial
  step s action s' := CanOccur s action ∧ step s action = some s'

end SpackPlayground.OutOfOrder
