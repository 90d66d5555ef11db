import SpackPlayground.Library.LowerBound
import SpackPlayground.Library.Persistence
import SpackPlayground.Library.Transition

/-! The sorted array with two copies of `ppm_ch11_6_versioning_insert`, one store
a step, in memory that a crash reduces to what has reached the medium. -/
namespace SpackPlayground.VersionedArray

open Library.LowerBound Library.Persistence Library.Transition

inductive Loc (slots : Nat) where
  | entry (copy : Fin 2) (i : Fin slots)
  | size (copy : Fin 2)
  | current
  deriving DecidableEq

@[reducible] def Val (Value : Type) {slots : Nat} : Loc slots → Type
  | .entry .. => Value
  | .size _ => Nat
  | .current => UInt32

abbrev Mem (Value : Type) (slots : Nat) := Memory fun l : Loc slots => Val Value l

abbrev Image (Value : Type) (slots : Nat) := (l : Loc slots) → Val Value l

variable {Value : Type} {slots : Nat}

/-- `v[n]`; `none` is beyond the end of `v`. -/
def copyAt (n : UInt32) : Option (Fin 2) :=
  if h : n.toNat < 2 then some ⟨n.toNat, h⟩ else none

def contents (image : Image Value slots) (copy : Fin 2) : List Value :=
  (List.ofFn fun i => image (.entry copy i)).take (image (.size copy))

structure Frame (Value : Type) where
  entry : Value
  workingCopy : Fin 2
  consistentCopy : Fin 2
  insertPosition : Nat

inductive Pc (Value : Type) where
  | idle
  /-- In the first `std::copy`, before element `i`. -/
  | copyFront (frame : Frame Value) (i : Nat)
  /-- Before `*working_insert_position = entry`. -/
  | placeEntry (frame : Frame Value)
  /-- In the second `std::copy`, before element `i` of the consistent copy. -/
  | copyBack (frame : Frame Value) (i last : Nat)
  /-- Before the store to `working_copy.size`. -/
  | setSize (frame : Frame Value)
  | persistCopy (entry : Value)
  /-- Before the store to `current`. -/
  | flip (entry : Value)
  | persistCurrent (entry : Value)
  /-- An access beyond `v` or `entries`. -/
  | undefined

def readEntry (mem : Mem Value slots) (copy : Fin 2) (i : Nat) : Option Value :=
  if h : i < slots then some (mem.view (.entry copy ⟨i, h⟩)) else none

def writeEntry (mem : Mem Value slots) (copy : Fin 2) (i : Nat) (x : Value) :
    Option (Mem Value slots) :=
  if h : i < slots then some (mem.store (.entry copy ⟨i, h⟩) x) else none

def copyEntry (mem : Mem Value slots) (source : Fin 2) (i : Nat) (target : Fin 2) (j : Nat) :
    Option (Mem Value slots) := do
  let x ← readEntry mem source i
  writeEntry mem target j x

def inCopy (copy : Fin 2) : Loc slots → Bool
  | .entry other _ => other = copy
  | .size other => other = copy
  | .current => false

def orUndefined (next : Option (Mem Value slots)) (mem : Mem Value slots) (pc : Pc Value) :
    Mem Value slots × Pc Value :=
  match next with
  | some mem' => (mem', pc)
  | none => (mem, .undefined)

/-- `insert_element` up to the first `std::copy`. -/
def begin (order : StrictWeakOrder Value) (mem : Mem Value slots) (entry : Value) : Pc Value :=
  match copyAt (1 - mem.view .current), copyAt (mem.view .current) with
  | some workingCopy, some consistentCopy =>
      if mem.view (.size consistentCopy) ≤ slots then
        .copyFront
          { entry := entry
            workingCopy := workingCopy
            consistentCopy := consistentCopy
            insertPosition := lowerBound order (contents mem.view consistentCopy) entry } 0
      else .undefined
  | _, _ => .undefined

def advance (mem : Mem Value slots) : Pc Value → Option (Mem Value slots × Pc Value)
  | .idle => none
  | .copyFront frame i =>
      if i < frame.insertPosition then
        some (orUndefined (copyEntry mem frame.consistentCopy i frame.workingCopy i) mem
          (.copyFront frame (i + 1)))
      else some (mem, .placeEntry frame)
  | .placeEntry frame =>
      some (orUndefined (writeEntry mem frame.workingCopy frame.insertPosition frame.entry) mem
        (.copyBack frame frame.insertPosition (mem.view (.size frame.consistentCopy))))
  | .copyBack frame i last =>
      if i < last then
        some (orUndefined (copyEntry mem frame.consistentCopy i frame.workingCopy (i + 1)) mem
          (.copyBack frame (i + 1) last))
      else some (mem, .setSize frame)
  | .setSize frame =>
      some (mem.store (.size frame.workingCopy) (mem.view (.size frame.consistentCopy) + 1),
        .persistCopy frame.entry)
  | .persistCopy entry =>
      match copyAt (1 - mem.view .current) with
      | some copy => some (mem.persist (inCopy copy), .flip entry)
      | none => some (mem, .undefined)
  | .flip entry => some (mem.store .current (1 - mem.view .current), .persistCurrent entry)
  | .persistCurrent _ => some (mem.persist fun l => l = .current, .idle)
  | .undefined => none

def Pc.running : Pc Value → List Value
  | .idle | .undefined => []
  | .copyFront frame _ | .placeEntry frame | .copyBack frame .. | .setSize frame => [frame.entry]
  | .persistCopy entry | .flip entry | .persistCurrent entry => [entry]

/-- The memory, the `insert` that runs, and the values of all that came before. -/
structure State (Value : Type) (slots : Nat) where
  mem : Mem Value slots
  pc : Pc Value
  completed : List Value
  interrupted : List Value

inductive Action (Value : Type) (slots : Nat) where
  | insert (entry : Value)
  | work
  | evict (l : Loc slots) (x : Val Value l)
  | crash

def returned (before after : Pc Value) : List Value :=
  match after with
  | .idle => before.running
  | _ => []

def step (order : StrictWeakOrder Value) (s : State Value slots) :
    Action Value slots → Option (State Value slots)
  | .insert entry =>
      match s.pc with
      | .idle => some { s with pc := begin order s.mem entry }
      | _ => none
  | .work => (advance s.mem s.pc).map fun next =>
      { s with mem := next.1, pc := next.2, completed := s.completed ++ returned s.pc next.2 }
  | .evict l x => some { s with mem := s.mem.evict l x }
  | .crash => some
      { mem := s.mem.crash
        pc := .idle
        completed := s.completed
        interrupted := s.interrupted ++ s.pc.running }

def zeroed (zero : Value) : Image Value slots
  | .entry .. => zero
  | .size _ => 0
  | .current => 0

/-- The cache evicts what it can, and `current` never in part. -/
def CanOccur (s : State Value slots) : Action Value slots → Prop
  | .evict l x => s.mem.Evictable l x ∧ (l = .current → x = s.mem.view l)
  | _ => True

/-- No `insert` starts when the array is full. -/
def HasRoom (s : State Value slots) : Action Value slots → Prop
  | .insert _ => ∀ copy, copyAt (s.mem.view .current) = some copy → s.mem.view (.size copy) ≠ slots
  | _ => True

def machine (order : StrictWeakOrder Value) (slots : Nat) (zero : Value) :
    System (State Value slots) (Action Value slots) where
  init s := s = ⟨⟨zeroed zero, zeroed zero⟩, .idle, [], []⟩
  step s action s' := CanOccur s action ∧ step order s action = some s'

end SpackPlayground.VersionedArray
