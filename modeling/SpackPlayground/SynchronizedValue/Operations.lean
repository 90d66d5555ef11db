import Mathlib.Logic.Embedding.Basic
import SpackPlayground.Library.LockMachine

/-! The operations of `SynchronizedValue`, on objects each with a `value_` and a
`mutex_`. -/
namespace SpackPlayground.SynchronizedValue

open Library.LockedCode Library.LockMachine

/-- What the move operations of `T` leave of the value they move from. -/
structure Move (V : Type) where
  afterConstruct : V → V
  /-- Depends on the value that is assigned to, and on the one moved from. -/
  afterAssign : V → V → V

inductive Result (V R : Type) where
  | void
  | value (x : V)
  | user (r : R)

/-- Code of the user, or of an operator of `T`, on the values behind proxies. -/
inductive CriticalSection (Proxy V R : Type) where
  | done (r : R)
  | read (proxy : Proxy) (next : V → CriticalSection Proxy V R)
  | write (proxy : Proxy) (x : V) (next : CriticalSection Proxy V R)

variable {Obj Proxy V R : Type}

def CriticalSection.code (object : Proxy → Obj) (done : R → Code Obj V (Result V R)) :
    CriticalSection Proxy V R → Code Obj V (Result V R)
  | .done r => done r
  | .read proxy next => .read (object proxy) fun x => (next x).code object done
  | .write proxy x next => .write (object proxy) x (next.code object done)

/-- A scope that holds the mutexes of `objs`: `std::lock_guard`, `std::scoped_lock`,
and the proxies. -/
def withLock (objs : List Obj)
    (body : (Result V R → Code Obj V (Result V R)) → Code Obj V (Result V R)) :
    Code Obj V (Result V R) :=
  .lock objs (body fun r => .unlock objs (.ret r))

def construct (self : Obj) (other : V) : Code Obj V (Result V R) := .write self other (.ret .void)

/-- `SynchronizedValueImpl(SynchronizedValueImpl const&)`; the temporary guard
lives until the constructor it delegates to has returned. -/
def copyConstruct (self other : Obj) : Code Obj V (Result V R) :=
  withLock [other] fun done => .read other fun x => .write self x (done .void)

def moveConstruct (move : Move V) (self other : Obj) : Code Obj V (Result V R) :=
  withLock [other] fun done => .read other fun x =>
    .write self x (.write other (move.afterConstruct x) (done .void))

variable [DecidableEq Obj]

def copyAssign (self rhs : Obj) : Code Obj V (Result V R) :=
  if rhs ≠ self then
    withLock [self, rhs] fun done => .read rhs fun x => .write self x (done .void)
  else .ret .void

def moveAssign (move : Move V) (self rhs : Obj) : Code Obj V (Result V R) :=
  if rhs ≠ self then
    withLock [self, rhs] fun done => .read self fun old => .read rhs fun x =>
      .write self x (.write rhs (move.afterAssign old x) (done .void))
  else .ret .void

def assign (self : Obj) (other : V) : Code Obj V (Result V R) :=
  withLock [self] fun done => .write self other (done .void)

/-- The assignment of a plain value to a `SynchronizedValue`, whose `operator=` hide
those of `SynchronizedValueImpl`: the value is converted to a temporary first. -/
def convertAssign (move : Move V) (self temporary : Obj) (other : V) :
    Code Obj V (Result V R) :=
  .write temporary other (moveAssign move self temporary)

def get (self : Obj) : Code Obj V (Result V R) :=
  withLock [self] fun done => .read self fun x => done (.value x)

def swap (self rhs : Obj) : Code Obj V (Result V R) :=
  if self = rhs then .ret .void
  else
    withLock [self, rhs] fun done => .read self fun x => .read rhs fun y =>
      .write self y (.write rhs x (done .void))

/-- `swap(value_type&)`; the result is what the argument becomes. -/
def swapValue (self : Obj) (rhs : V) : Code Obj V (Result V R) :=
  withLock [self] fun done => .read self fun x => .write self rhs (done (.value x))

def save (self : Obj) (insert : V → R) : Code Obj V (Result V R) :=
  withLock [self] fun done => .read self fun x => done (.user (insert x))

def load (self : Obj) (extract : CriticalSection Unit V R) : Code Obj V (Result V R) :=
  withLock [self] fun done => extract.code (fun _ => self) fun r => done (.user r)

/-- `synchronize()` and `operator->`, and the code until the proxy is gone. -/
def synchronize (self : Obj) (body : CriticalSection Unit V R) : Code Obj V (Result V R) :=
  withLock [self] fun done => body.code (fun _ => self) fun r => done (.user r)

def synchronizeAll {n : Nat} (sv : Fin n → Obj) (body : CriticalSection (Fin n) V R) :
    Code Obj V (Result V R) :=
  withLock (List.ofFn sv) fun done => body.code sv fun r => done (.user r)

inductive Operation (Obj V R : Type) where
  | construct (self : Obj) (other : V)
  | copyConstruct (self other : Obj)
  | moveConstruct (self other : Obj)
  | copyAssign (self rhs : Obj)
  | moveAssign (self rhs : Obj)
  | assign (self : Obj) (other : V)
  | convertAssign (self temporary : Obj) (other : V)
  | get (self : Obj)
  | swap (self rhs : Obj)
  | swapValue (self : Obj) (rhs : V)
  | save (self : Obj) (insert : V → R)
  | load (self : Obj) (extract : CriticalSection Unit V R)
  | synchronize (self : Obj) (body : CriticalSection Unit V R)
  | synchronizeAll {n : Nat} (sv : Fin n ↪ Obj) (body : CriticalSection (Fin n) V R)

namespace Operation

def code (move : Move V) : Operation Obj V R → Code Obj V (Result V R)
  | .construct self other => SynchronizedValue.construct self other
  | .copyConstruct self other => SynchronizedValue.copyConstruct self other
  | .moveConstruct self other => SynchronizedValue.moveConstruct move self other
  | .copyAssign self rhs => SynchronizedValue.copyAssign self rhs
  | .moveAssign self rhs => SynchronizedValue.moveAssign move self rhs
  | .assign self other => SynchronizedValue.assign self other
  | .convertAssign self temporary other =>
      SynchronizedValue.convertAssign move self temporary other
  | .get self => SynchronizedValue.get self
  | .swap self rhs => SynchronizedValue.swap self rhs
  | .swapValue self rhs => SynchronizedValue.swapValue self rhs
  | .save self insert => SynchronizedValue.save self insert
  | .load self extract => SynchronizedValue.load self extract
  | .synchronize self body => SynchronizedValue.synchronize self body
  | .synchronizeAll sv body => SynchronizedValue.synchronizeAll sv body

def uses : Operation Obj V R → List Obj
  | .construct .. => []
  | .copyConstruct _ other | .moveConstruct _ other => [other]
  | .copyAssign self rhs | .moveAssign self rhs | .swap self rhs => [self, rhs]
  | .assign self _ | .convertAssign self .. | .get self | .swapValue self _ | .save self _
  | .load self _ | .synchronize self _ => [self]
  | .synchronizeAll sv _ => List.ofFn sv

def constructs : Operation Obj V R → List Obj
  | .construct self _ | .copyConstruct self _ | .moveConstruct self _ => [self]
  | _ => []

def temporaries : Operation Obj V R → List Obj
  | .convertAssign _ temporary _ => [temporary]
  | _ => []

end Operation

def interface (move : Move V) : Interface (Operation Obj V R) Obj V (Result V R) where
  code := Operation.code move
  uses := Operation.uses
  constructs := Operation.constructs
  temporaries := Operation.temporaries

end SpackPlayground.SynchronizedValue
