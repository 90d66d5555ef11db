import SpackPlayground.Library.InputStream
import SpackPlayground.Library.Transition
import SpackPlayground.LinkedQueue.Code

/-! `ppm_ch8_7_persistent_queue`: a loop that reads commands from the standard input
and carries them out on the queue in the pool. -/
namespace SpackPlayground.LinkedQueue.Prompt

open Library Library.Transition

/-- `queue_op`; the enumerator `SHOW` is `showAll` here. -/
inductive QueueOp where
  | push
  | pop
  | showAll
  | exit
  | maxOps
  deriving DecidableEq

def opsStr : List (String × QueueOp) :=
  [("push", .push), ("pop", .pop), ("show", .showAll), ("exit", .exit)]

def parseQueueOps (ops : List Char) : QueueOp :=
  match opsStr.find? fun entry => ops = entry.1.toList with
  | some entry => entry.2
  | none => .maxOps

def shown (value : Int) : List Char := line ("show: ".toList ++ InputStream.spell value)

/-- The loop of `show`. One that visits more nodes than there are goes round in circles. -/
def showLoop (heap : Finmap fun _ : Addr => Node Int) : Nat → Option Addr →
    Except Failure (List Char)
  | _, none => .ok []
  | 0, some _ => .error .undefined
  | fuel + 1, some addr =>
      match heap.lookup addr with
      | none => .error .undefined
      | some node => (showLoop heap fuel node.next).map (shown node.value ++ ·)

/-- What `main` calls of a queue. An allocation comes with the node that it finds, a
transaction with whether it commits. -/
structure Interface (Q : Type) where
  Free : Addr → Q → Prop
  push : Int → Addr → Bool → Q → Except Failure Unit × Q
  pop : Bool → Q → Except Failure Int × Q
  showAll : Q → Except Failure (List Char)

def linked : Interface (Queue Int) where
  Free node q := node ∉ q.heap
  push value node commits q := PersistentQueue.push value node commits q
  pop commits q := PersistentQueue.pop commits q
  showAll q := (showLoop q.heap q.heap.keys.card q.head).map line

inductive Process where
  | down
  /-- At the head of the loop. -/
  | prompting (input : InputStream)
  /-- Before `text` is written to the standard output. -/
  | answering (text : List Char) (input : InputStream)
  /-- An `int` without a value or a bad pointer was used. -/
  | undefined

def Process.thrown : Failure → Process
  | .undefined => .undefined
  | .outOfRange | .rolledBack => .down

/-- The pool and the process that has it open, with all that was ever written to the
standard output and the standard error stream. -/
structure State (Q : Type) where
  queue : Q
  process : Process
  out : List Char
  err : List Char

variable {Q : Type}

def usage : List Char := line "[push value|pop|show|exit]".toList

def State.resume {α : Type} (s : State Q) (result : Except Failure α × Q) (next : α → Process) :
    State Q :=
  match result.1 with
  | .ok value => { s with queue := result.2, process := next value }
  | .error failure => { s with queue := result.2, process := .thrown failure }

def obey (queue : Interface Q) (node : Addr) (commits : Bool) (s : State Q) (input : InputStream) :
    QueueOp → State Q
  | .push =>
      match input.extractInt intMin intMax with
      | (none, _) => { s with process := .undefined }
      | (some value, input) =>
          s.resume (queue.push value node commits s.queue) fun _ => .prompting input
  | .pop =>
      s.resume (queue.pop commits s.queue) fun value =>
        .answering (line (InputStream.spell value)) input
  | .showAll =>
      s.resume (queue.showAll s.queue, s.queue) fun text => .answering text input
  | .exit => { s with process := .down }
  | .maxOps => { s with process := .down, err := s.err ++ line "unknown ops".toList }

def turn (queue : Interface Q) (node : Addr) (commits : Bool) (s : State Q) (input : InputStream) :
    State Q :=
  let (command, input) := input.extractString
  obey queue node commits { s with out := s.out ++ usage } input
    (parseQueueOps (command.getD []))

inductive Action where
  | start (input : List Char)
  | turn (node : Addr) (commits : Bool)
  | answer
  /-- The process is killed when `written` characters of its next text are out. -/
  | crash (written : Nat)

inductive Moves (queue : Interface Q) (s : State Q) : Action → State Q → Prop where
  | start (input : List Char) : s.process = .down →
      Moves queue s (.start input) { s with process := .prompting ⟨input, false⟩ }
  | turn (input : InputStream) (node : Addr) (commits : Bool) : s.process = .prompting input →
      queue.Free node s.queue →
      Moves queue s (.turn node commits) (turn queue node commits s input)
  | answer (text : List Char) (input : InputStream) : s.process = .answering text input →
      Moves queue s .answer { s with process := .prompting input, out := s.out ++ text }
  | crashPrompting (input : InputStream) (written : Nat) : s.process = .prompting input →
      Moves queue s (.crash written)
        { s with process := .down, out := s.out ++ usage.take written }
  | crashAnswering (text : List Char) (input : InputStream) (written : Nat) :
      s.process = .answering text input →
      Moves queue s (.crash written)
        { s with process := .down, out := s.out ++ text.take written }

def machine (queue : Interface Q) (q : Q) : System (State Q) Action where
  init s := s = ⟨q, .down, [], []⟩
  step := Moves queue

end SpackPlayground.LinkedQueue.Prompt
