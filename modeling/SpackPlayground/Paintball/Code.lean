import SpackPlayground.Library.Flushing
import SpackPlayground.Library.InputStream
import SpackPlayground.Library.Transition

/-! `ppm_ch7_5`: a process takes one of six chambers; it loads a bullet of some colour into
an empty one, and shoots the bullet that is in it. -/
namespace SpackPlayground.Paintball

open Library Library.CrashHoare Library.Persistence Library.Transition

abbrev Text := List Char

abbrev Oid := Nat

abbrev Chamber := Fin 6

/-- The pool, and the streams of the processes. The objects are colours. Only the allocator
writes to the chambers, and its log makes that durable at once. -/
structure Pool where
  memory : Pipeline fun _ : Oid => UInt32
  live : Set Oid
  chambers : Chamber → Option Oid
  /-- What is still in the buffer of the standard output. -/
  buffer : Text
  out : Text
  err : Text

def created (memory : Pipeline fun _ : Oid => UInt32) : Pool :=
  ⟨memory, ∅, fun _ => none, [], [], []⟩

/-- Where a text is answered, the call has failed. A reservation is kept by the process. -/
inductive Cmd : Type → Type where
  | openPool : Cmd (Option Text)
  /-- Whether there is no root object. -/
  | root : Cmd Bool
  | chamber (k : Chamber) : Cmd (Option Oid)
  | reserve : Cmd (Except Text Oid)
  | time : Cmd UInt64
  | store (o : Oid) (c : UInt32) : Cmd Unit
  | load (o : Oid) : Cmd UInt32
  | flush (o : Oid) : Cmd Unit
  | drain : Cmd Unit
  | publish (k : Chamber) (o : Oid) : Cmd Unit
  | free (k : Chamber) : Cmd Unit
  | printf (text : Text) : Cmd Unit
  | eprintf (text : Text) : Cmd Unit

namespace Pool

/-- The redo log of `pmemobj_alloc` is applied. -/
def publish (p : Pool) (k : Chamber) (o : Oid) : Pool :=
  { p with
    live := insert o p.live
    chambers := Function.update p.chambers k (some o) }

/-- `pmemobj_free`, which also clears the chamber. -/
def free (p : Pool) (k : Chamber) : Pool :=
  { p with
    live := {o | o ∈ p.live ∧ p.chambers k ≠ some o}
    chambers := Function.update p.chambers k none }

def killed (p : Pool) : Pool := { p with buffer := [] }

def exited (p : Pool) : Pool := { p with buffer := [], out := p.out ++ p.buffer }

def powerFailed (p : Pool) : Pool :=
  { p.killed with memory := ⟨p.memory.toMemory.crash, fun _ => false⟩ }

end Pool

def exec {β : Type} : Cmd β → Pool → β → Pool → Prop
  | .openPool, p, _, p' | .root, p, _, p' | .time, p, _, p' => p' = p
  | .chamber k, p, o, p' => o = p.chambers k ∧ p' = p
  | .reserve, p, answer, p' => (∀ o, answer = .ok o → o ∉ p.live) ∧ p' = p
  | .store o c, p, _, p' => p' = { p with memory := p.memory.store o c }
  | .load o, p, c, p' => c = p.memory.view o ∧ p' = p
  | .flush o, p, _, p' => p' = { p with memory := p.memory.flush fun l => l = o }
  | .drain, p, _, p' => p' = { p with memory := p.memory.drain }
  | .publish k o, p, _, p' => p' = p.publish k o
  | .free k, p, _, p' => p' = p.free k
  | .printf text, p, _, p' => p' = { p with buffer := p.buffer ++ text }
  | .eprintf text, p, _, p' => p' = { p with err := p.err ++ text }

/-- The cache writes back, and the buffer is flushed, also in part. -/
inductive Drifts (p : Pool) : Pool → Prop where
  | evict (memory : Pipeline fun _ : Oid => UInt32) :
      Evicts (fun _ => false) p.memory memory → Drifts p { p with memory := memory }
  | fflush (front back : Text) : p.buffer = front ++ back →
      Drifts p { p with buffer := back, out := p.out ++ front }

def semantics : Semantics Cmd Pool where
  exec := exec
  drift := Drifts

abbrev Program := Prog Cmd Nat

def die (text : Text) : Program := .call (.eprintf text) fun _ => .done 1

/-- What becomes of the time. -/
def color (now : UInt64) : UInt32 := (now &&& 0xffffff).toUInt32

def hex6 (c : UInt32) : Text :=
  let digits := Nat.toDigits 16 c.toNat
  List.replicate (6 - digits.length) '0' ++ digits

def couldntOpen (why : Text) : Text := line ("Couldn't open pool: ".toList ++ why)

def noRoot : Text := line "Couldn't access root object.".toList

def reloading : Text := line "Reloading.".toList

def shooting (c : UInt32) : Text :=
  line ("Shooting ".toList ++ hex6 c ++ " colored bullet.".toList)

def failedToAlloc (why : Text) : Text := line ("Failed to alloc: ".toList ++ why)

/-- `paintball_init`, and what the allocator does behind it. -/
def paintballInit (ptr : Oid) (next : Program) : Program :=
  .call .time fun now => .call (.store ptr (color now)) fun _ =>
  .call (.flush ptr) fun _ => .call .drain fun _ => next

def alloc (k : Chamber) : Program :=
  .call .reserve fun
    | .error why => die (failedToAlloc why)
    | .ok o => paintballInit o <| .call (.publish k o) fun _ => .done 0

def shoot (k : Chamber) (o : Oid) : Program :=
  .call (.load o) fun c => .call (.printf (shooting c)) fun _ => .call (.free k) fun _ => .done 0

def chamberOf (pid : Nat) : Chamber := Fin.ofNat 6 pid

def main (pid : Nat) : Program :=
  .call .openPool fun
    | some why => die (couldntOpen why)
    | none => .call .root fun
        | true => die noRoot
        | false => .call (.chamber (chamberOf pid)) fun
            | none => .call (.printf reloading) fun _ => alloc (chamberOf pid)
            | some o => shoot (chamberOf pid) o

inductive Event where
  | ran (pid status : Nat)
  | killed (pid : Nat)
  | powerFailed (pid : Nat)

inductive Moves (p : Pool) : Event → Pool → Prop where
  | ran {pid status : Nat} {p' : Pool} : Reaches semantics (main pid) p (.done status) p' →
      Moves p (.ran pid status) p'.exited
  | killed {pid : Nat} {rest : Program} {p' : Pool} : Reaches semantics (main pid) p rest p' →
      Moves p (.killed pid) p'.killed
  | powerFailed {pid : Nat} {rest : Program} {p' : Pool} :
      Reaches semantics (main pid) p rest p' → Moves p (.powerFailed pid) p'.powerFailed

/-- Only one process at a time has the pool open. -/
def machine : System Pool Event where
  init p := ∃ memory, p = created memory
  step := Moves

end SpackPlayground.Paintball
