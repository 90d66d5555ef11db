import SpackPlayground.KeyValue.SimpleKv
import SpackPlayground.Library.CrashHoare
import SpackPlayground.Library.InputStream
import SpackPlayground.Library.Transition

/-! `ppm_ch11_4_simplekv`: each invocation opens the pool at a path for one `get` or `put`. -/
namespace SpackPlayground.KeyValue.CommandLine

open Library Library.CrashHoare Library.Transition Store

abbrev Text := List Char

/-- The arguments; `name` is `argv[0]`. -/
structure Argv where
  name : Text
  operands : List Text

inductive Exit where
  | status (code : Nat)
  /-- An exception has left it. -/
  | terminated
  /-- An element beyond the end of a vector was used. -/
  | undefined
  deriving DecidableEq

inductive Stream where
  | out
  | err

/-- Where a text is answered, it is that of an exception. -/
inductive Cmd : Type → Type where
  | openPool (path : Text) : Cmd (Option Text)
  | root (path : Text) : Cmd (Option Text)
  | kvIsNull (path : Text) : Cmd Bool
  | makeKv (path : Text) : Cmd (Option Text)
  | get (path key : Text) : Cmd (Answer Int)
  | put (path key : Text) (val : Int) : Cmd (Answer Int × Text)
  | write (stream : Stream) (c : Char) : Cmd Unit

/-- The pool files, each with the pointer in its root object, and all that was written
to the two streams. -/
structure State (File : Type) (hashing : Hashing Text) where
  pools : File → Option (Option (SimpleKv hashing Int))
  out : Text
  err : Text

variable {File : Type} {hashing : Hashing Text}

namespace State

section Pools

variable [DecidableEq File]

def setKv (s : State File hashing) (file : File) (kv : SimpleKv hashing Int) : State File hashing :=
  { s with pools := Function.update s.pools file (some (some kv)) }

theorem pools_setKv_self (s : State File hashing) (file : File) (kv : SimpleKv hashing Int) :
    (s.setKv file kv).pools file = some (some kv) := by
  dsimp only [setKv]
  rw [Function.update_self]

end Pools

def written (s : State File hashing) : Stream → Char → State File hashing
  | .out, c => { s with out := s.out ++ [c] }
  | .err, c => { s with err := s.err ++ [c] }

end State

section Semantics

variable [DecidableEq File] (fileOf : Text → File)

/-- `fileOf` tells the file at a path. A call into the library may fail at any time,
and a transaction may abort. -/
def exec {β : Type} : Cmd β → State File hashing → β → State File hashing → Prop
  | .openPool path, s, failure, s' => (failure = none → s.pools (fileOf path) ≠ none) ∧ s' = s
  | .root _, s, _, s' => s' = s
  | .kvIsNull path, s, null, s' =>
      ∃ kv, s.pools (fileOf path) = some kv ∧ null = kv.isNone ∧ s' = s
  | .makeKv path, s, failure, s' =>
      s' = if failure = none then s.setKv (fileOf path) SimpleKv.empty else s
  | .get path key, s, answer, s' =>
      ∃ kv, s.pools (fileOf path) = some (some kv) ∧ answer = kv.get key ∧ s' = s
  | .put path key val, s, answer, s' => ∃ kv commits, s.pools (fileOf path) = some (some kv) ∧
      answer.1 = (kv.put key val commits).2 ∧
      s' = s.setKv (fileOf path) (kv.put key val commits).1
  | .write stream c, s, _, s' => s' = s.written stream c

def semantics (hashing : Hashing Text) : Semantics Cmd (State File hashing) where
  exec := exec fileOf
  drift _ _ := False

end Semantics

abbrev Program := Prog Cmd Exit

/-- `std::stoi`, which ignores what comes behind the number. -/
def stoi (text : Text) : Except Text Int :=
  let signed := InputStream.sign (text.dropWhile InputStream.isSpace)
  let digits := signed.2.takeWhile Char.isDigit
  let magnitude : Int := Nat.ofDigitChars 10 digits 0
  let value := if signed.1 then -magnitude else magnitude
  -- `std::invalid_argument`, then `std::out_of_range`.
  if digits = [] then .error "stoi".toList
  else if value < intMin ∨ intMax < value then .error "stoi".toList
  else .ok value

def write (stream : Stream) (text : Text) (next : Program) : Program :=
  match text with
  | [] => next
  | c :: text => .call (.write stream c) fun _ => write stream text next

def usage (name : Text) : Text :=
  line ("usage: ".toList ++ name ++ " file-name [get key|put key value]".toList)

def showUsage (name : Text) (next : Program) : Program := write .err (usage name) next

def caught (what : Text) : Program := write .err (line what) (.done (.status 0))

def advice : Text :=
  line "To create pool run: pmempool create obj --layout=simplekv -s 100M path_to_pool".toList

def poolError (what : Text) (next : Program) : Program :=
  write .err (line what) (write .err advice next)

def answered (what : Text) : Answer Int → Program
  | .stored => .done (.status 0)
  | .found val => write .out (line (InputStream.spell val)) (.done (.status 0))
  | .outOfRange => caught "no entry in simplekv".toList
  | .aborted => caught what
  | .undefined => .done .undefined

inductive Request where
  | get (key : Text)
  | put (key val : Text)
  | other
  deriving DecidableEq

def request : List Text → Request
  | [command, key] => if command = "get".toList then .get key else .other
  | [command, key, val] => if command = "put".toList then .put key val else .other
  | _ => .other

def serve (name path : Text) : Request → Program
  | .get key => .call (.get path key) (answered [])
  | .put key val =>
      match stoi val with
      | .error what => caught what
      | .ok val => .call (.put path key val) fun answer => answered answer.2 answer.1
  | .other => showUsage name (.done (.status 1))

/-- The block of `try` behind `open`. -/
def opened (name path : Text) (asked : Request) : Program :=
  .call (.root path) fun
    | some what => poolError what (.done (.status 0))
    | none => .call (.kvIsNull path) fun
        | false => serve name path asked
        | true => .call (.makeKv path) fun
            | some what => caught what
            | none => serve name path asked

/-- `close` throws where the pool was not opened. -/
def main (argv : Argv) : Program :=
  match argv.operands with
  | [] | [_] => showUsage argv.name (.done (.status 1))
  | path :: operands => .call (.openPool path) fun
      | some what => poolError what (.done .terminated)
      | none => opened argv.name path (request operands)

inductive Event where
  | create (path : Text)
  | ran (argv : Argv) (exit : Exit)
  | killed (argv : Argv)

section Moves

variable [DecidableEq File] (fileOf : Text → File)

inductive Moves (s : State File hashing) : Event → State File hashing → Prop where
  | create (path : Text) : s.pools (fileOf path) = none →
      Moves s (.create path) { s with pools := Function.update s.pools (fileOf path) (some none) }
  | ran {argv : Argv} {exit : Exit} {s' : State File hashing} :
      Reaches (semantics fileOf hashing) (main argv) s (.done exit) s' → Moves s (.ran argv exit) s'
  | killed {argv : Argv} {rest : Program} {s' : State File hashing} :
      Reaches (semantics fileOf hashing) (main argv) s rest s' → Moves s (.killed argv) s'

/-- Invocations one after the other, while no path comes to lead to another file. -/
def machine (hashing : Hashing Text) : System (State File hashing) Event where
  init s := s = ⟨fun _ => none, [], []⟩
  step := Moves fileOf

end Moves

end SpackPlayground.KeyValue.CommandLine
