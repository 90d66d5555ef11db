import SpackPlayground.KeyValue.Rebuild
import SpackPlayground.Library.InputStream
import SpackPlayground.Library.Transition

/-! `ppm_ch11_5_simplekv_rebuild`: a loop that reads commands from the standard input
and carries them out on the map in the pool. -/
namespace SpackPlayground.KeyValue.Prompt

open Library Library.Transition Store

abbrev Word := List Char

/-- What `main` uses of a map: `D` is in the pool, `R` in the memory of the process. -/
structure Interface (D R : Type) where
  create : D
  construct : D → Option R
  get : R → D → Word → Answer Int
  transact : R → D → Word → Int → Bool → D × Runtime.Progress Int
  insert : R → D → Word → R

def rebuilt (hashing : Hashing Word) : Interface (Persistent Word Int) (Buckets hashing) where
  create := ⟨[], []⟩
  construct := Runtime.rebuild hashing
  get buckets data key := Runtime.get ⟨buckets, data⟩ key
  transact buckets data key val commits := Runtime.transact ⟨buckets, data⟩ key val commits
  insert buckets data key := (Runtime.insert ⟨buckets, data⟩ key).buckets

inductive Process (R : Type) where
  | down
  /-- Before the pointer in the root object is tested. -/
  | opened (input : InputStream)
  /-- Before the constructor of the runtime map. -/
  | constructing (input : InputStream)
  /-- At the head of the loop. -/
  | prompting (kv : R) (input : InputStream)
  /-- Before `text` is written to the standard output; the head of the loop is next. -/
  | writing (kv : R) (text : List Char) (input : InputStream)
  /-- Behind the transaction of a `put` that inserts `key`. -/
  | inserting (kv : R) (key : Word) (input : InputStream)
  /-- In the handler of an exception, before its text is written. -/
  | caught (what : List Char)
  /-- An element beyond the end of a vector was used. -/
  | undefined

/-- The root object and the process that has the pool open, with all that was ever
written to the standard output and the standard error stream. -/
structure State (D R : Type) where
  root : Option D
  process : Process R
  out : List Char
  err : List Char

variable {D R : Type}

def usage : List Char := line "usage: [get key|put key value|exit]".toList

def Process.pending : Process R → List Char × List Char
  | writing _ text _ => (text, [])
  | caught what => ([], line what)
  | down | opened _ | constructing _ | prompting .. | inserting .. | undefined => ([], [])

/-- Where a call of `get` or `put` leaves `main`; `failure` is the text of the exception
that a transaction ends with. -/
def Process.answered (failure : Option (List Char)) (kv : R) (input : InputStream) :
    Answer Int → Process R
  | .stored => prompting kv input
  | .found val => writing kv (line (InputStream.spell val)) input
  | .outOfRange => caught "no entry in simplekv".toList
  | .aborted => caught (failure.getD [])
  | .undefined => undefined

def put (map : Interface D R) (failure : Option (List Char)) (s : State D R) (data : D) (kv : R)
    (key : Word) (val : Int) (input : InputStream) : State D R :=
  match map.transact kv data key val failure.isNone with
  | (data, .returned answer) =>
      { s with root := some data, process := .answered failure kv input answer }
  | (data, .committed) => { s with root := some data, process := .inserting kv key input }

/-- The commands; a `get` or `put` that cannot be read to its end is none. -/
def obey (map : Interface D R) (failure : Option (List Char)) (s : State D R) (data : D) (kv : R)
    (op : Word) (input : InputStream) : State D R :=
  if op = "get".toList then
    match input.extractString with
    | (some key, input) =>
        { s with process := .answered failure kv input (map.get kv data key) }
    | (none, input) => { s with process := .writing kv usage input }
  else if op = "put".toList then
    match input.extractString with
    | (some key, input) =>
        match input.extractInt intMin intMax with
        | (some val, ⟨rest, false⟩) => put map failure s data kv key val ⟨rest, false⟩
        | (_, input) => { s with process := .writing kv usage input }
    | (none, input) => { s with process := .writing kv usage input }
  else if op = "exit".toList then { s with process := .down }
  else { s with process := .writing kv usage input }

def turn (map : Interface D R) (failure : Option (List Char)) (s : State D R) (data : D) (kv : R)
    (input : InputStream) : State D R :=
  match input.extractString with
  | (some op, input) => obey map failure s data kv op input
  | (none, _) => { s with process := .down }

/-- The constructor of the runtime map, and the text behind it. -/
def construct (map : Interface D R) (s : State D R) (data : D) (input : InputStream) :
    State D R :=
  match map.construct data with
  | some kv => { s with process := .writing kv usage input }
  | none => { s with process := .undefined }

def create (map : Interface D R) (failure : Option (List Char)) (s : State D R)
    (input : InputStream) : State D R :=
  match failure with
  | none => { s with root := some map.create, process := .constructing input }
  | some what => { s with process := .caught what }

/-- The steps; where a transaction may run, `failure` is how it ends. -/
inductive Action where
  | start (input : List Char)
  | test (failure : Option (List Char))
  | construct
  | turn (failure : Option (List Char))
  | insert
  | write
  | report
  /-- The process is killed when `written` characters of its next text are out. -/
  | crash (written : Nat)

inductive Moves (map : Interface D R) (s : State D R) : Action → State D R → Prop where
  | start (input : List Char) : s.process = .down →
      Moves map s (.start input) { s with process := .opened ⟨input, false⟩ }
  | create (failure : Option (List Char)) (input : InputStream) : s.process = .opened input →
      s.root = none → Moves map s (.test failure) (create map failure s input)
  | found (failure : Option (List Char)) (input : InputStream) (data : D) :
      s.process = .opened input → s.root = some data →
      Moves map s (.test failure) { s with process := .constructing input }
  | construct (input : InputStream) (data : D) : s.process = .constructing input →
      s.root = some data → Moves map s .construct (construct map s data input)
  | turn (failure : Option (List Char)) (kv : R) (input : InputStream) (data : D) :
      s.process = .prompting kv input → s.root = some data →
      Moves map s (.turn failure) (turn map failure s data kv input)
  | insert (kv : R) (key : Word) (input : InputStream) (data : D) :
      s.process = .inserting kv key input → s.root = some data →
      Moves map s .insert { s with process := .prompting (map.insert kv data key) input }
  | write (kv : R) (text : List Char) (input : InputStream) : s.process = .writing kv text input →
      Moves map s .write { s with process := .prompting kv input, out := s.out ++ text }
  | report (what : List Char) : s.process = .caught what →
      Moves map s .report { s with process := .down, err := s.err ++ line what }
  | crash (written : Nat) : s.process ≠ .down → s.process ≠ .undefined →
      Moves map s (.crash written)
        { s with
          process := .down
          out := s.out ++ s.process.pending.1.take written
          err := s.err ++ s.process.pending.2.take written }

def machine (map : Interface D R) : System (State D R) Action where
  init s := s = ⟨none, .down, [], []⟩
  step := Moves map

end SpackPlayground.KeyValue.Prompt
