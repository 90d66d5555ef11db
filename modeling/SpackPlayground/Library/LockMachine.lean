import SpackPlayground.Library.LockedCode
import SpackPlayground.Library.Transition

/-! Threads that run operations on shared objects, one step of one thread at a
time. A mutex is held by one thread, and a thread waits until all the mutexes it
locks are free. -/
namespace SpackPlayground.Library.LockMachine

open Library.LockedCode Library.Transition

structure Interface (Op Obj V R : Type*) where
  code : Op → Code Obj V R
  /-- The objects that are constructed before the call. -/
  uses : Op → List Obj
  constructs : Op → List Obj
  /-- The objects that exist during the call only. -/
  temporaries : Op → List Obj

variable {Tid Op Obj V R : Type*}

namespace Interface

def fresh (p : Interface Op Obj V R) (op : Op) : List Obj := p.constructs op ++ p.temporaries op

structure Disciplined (p : Interface Op Obj V R) : Prop where
  code : ∀ op, (p.code op).Disciplined (p.fresh op) (p.uses op)

def effect [DecidableEq Obj] (p : Interface Op Obj V R) (op : Op) (values : Obj → V) :
    R × (Obj → V) :=
  (p.code op).run values

end Interface

inductive Status (Tid : Type*) where
  | raw
  | building (t : Tid)
  | ready
  deriving DecidableEq

structure Call (Op : Type*) where
  id : Nat
  op : Op

structure Running (Op Obj V R : Type*) extends Call Op where
  code : Code Obj V R

inductive Event (Tid Op R : Type*) where
  | call (id : Nat) (t : Tid) (op : Op)
  | ret (id : Nat) (r : R)

structure State (Tid Op Obj V R : Type*) where
  value : Obj → V
  owner : Obj → Option Tid
  status : Obj → Status Tid
  running : Tid → Option (Running Op Obj V R)
  history : List (Event Tid Op R)

inductive Action (Tid Op : Type*) where
  | call (t : Tid) (op : Op)
  | advance (t : Tid)

section Objects

variable [DecidableEq Obj] {p : Interface Op Obj V R} {s : State Tid Op Obj V R} {op : Op}
  {status : Obj → Status Tid} {objs : List Obj} {owner : Option Tid} {o : Obj}

/-- The objects after the call: constructed, gone, or as they were. -/
def settled (p : Interface Op Obj V R) (op : Op) (status : Obj → Status Tid) (o : Obj) :
    Status Tid :=
  if o ∈ p.constructs op then .ready else if o ∈ p.temporaries op then .raw else status o

theorem settled_of_notMem (ho : o ∉ p.fresh op) : settled p op status o = status o := by
  unfold Interface.fresh at ho
  rw [List.mem_append, not_or] at ho
  unfold settled
  rw [if_neg ho.1, if_neg ho.2]

theorem settled_of_mem (ho : o ∈ p.fresh op) : ∀ t, settled p op status o ≠ .building t := by
  intro t
  unfold settled
  split
  · simp
  · rename_i hconstructs
    rw [if_pos ((List.mem_append.mp ho).resolve_left hconstructs)]
    simp

def setOwner (s : State Tid Op Obj V R) (objs : List Obj) (owner : Option Tid) :
    State Tid Op Obj V R :=
  { s with owner := fun o => if o ∈ objs then owner else s.owner o }

theorem owner_setOwner_of_mem (ho : o ∈ objs) : (setOwner s objs owner).owner o = owner :=
  if_pos ho

theorem owner_setOwner_of_notMem (ho : o ∉ objs) : (setOwner s objs owner).owner o = s.owner o :=
  if_neg ho

end Objects

section Threads

variable [DecidableEq Tid]

def proceed (s : State Tid Op Obj V R) (t : Tid) (c : Running Op Obj V R)
    (next : Code Obj V R) : State Tid Op Obj V R :=
  { s with running := Function.update s.running t (some { c with code := next }) }

@[simp] theorem owner_proceed {s : State Tid Op Obj V R} {t : Tid} {c : Running Op Obj V R}
    {next : Code Obj V R} : (proceed s t c next).owner = s.owner := rfl

end Threads

section Steps

variable [DecidableEq Tid] [DecidableEq Obj]

def finish (p : Interface Op Obj V R) (s : State Tid Op Obj V R) (t : Tid)
    (c : Running Op Obj V R) (r : R) : State Tid Op Obj V R :=
  { s with
    status := settled p c.op s.status
    running := Function.update s.running t none
    history := s.history ++ [.ret c.id r] }

def enter (p : Interface Op Obj V R) (s : State Tid Op Obj V R) (t : Tid) (op : Op) :
    State Tid Op Obj V R :=
  { s with
    status := fun o => if o ∈ p.fresh op then .building t else s.status o
    running := Function.update s.running t (some ⟨⟨s.history.length, op⟩, p.code op⟩)
    history := s.history ++ [.call s.history.length t op] }

/-- A thread calls one operation at a time, and gives it constructed objects. -/
def call (p : Interface Op Obj V R) (s : State Tid Op Obj V R) (t : Tid) (op : Op) :
    Option (State Tid Op Obj V R) :=
  if (s.running t).isNone ∧ (∀ o ∈ p.uses op, s.status o = .ready) ∧
      ∀ o ∈ p.fresh op, s.status o = .raw then
    some (enter p s t op)
  else none

def advance (p : Interface Op Obj V R) (s : State Tid Op Obj V R) (t : Tid) :
    Option (State Tid Op Obj V R) :=
  match s.running t with
  | none => none
  | some c =>
      match c.code with
      | .ret r => some (finish p s t c r)
      | .lock objs next =>
          if objs.Nodup ∧ ∀ o ∈ objs, s.owner o = none then
            some (proceed (setOwner s objs (some t)) t c next)
          else none
      | .unlock objs next => some (proceed (setOwner s objs none) t c next)
      | .read o next => some (proceed s t c (next (s.value o)))
      | .write o x next =>
          some (proceed { s with value := Function.update s.value o x } t c next)

def step (p : Interface Op Obj V R) (s : State Tid Op Obj V R) :
    Action Tid Op → Option (State Tid Op Obj V R)
  | .call t op => call p s t op
  | .advance t => advance p s t

section Fields

variable {p : Interface Op Obj V R} {s : State Tid Op Obj V R} {t t' : Tid}
  {c : Running Op Obj V R} {op : Op} {r : R} {o : Obj}

theorem running_finish_self : (finish p s t c r).running t = none := Function.update_self ..

theorem running_finish_of_ne (hne : t' ≠ t) : (finish p s t c r).running t' = s.running t' :=
  Function.update_of_ne hne ..

theorem running_enter_self :
    (enter p s t op).running t = some ⟨⟨s.history.length, op⟩, p.code op⟩ :=
  Function.update_self ..

theorem running_enter_of_ne (hne : t' ≠ t) : (enter p s t op).running t' = s.running t' :=
  Function.update_of_ne hne ..

theorem status_enter_of_mem (ho : o ∈ p.fresh op) : (enter p s t op).status o = .building t :=
  if_pos ho

theorem status_enter_of_notMem (ho : o ∉ p.fresh op) : (enter p s t op).status o = s.status o :=
  if_neg ho

end Fields

def initial (start : Obj → V) (constructed : Obj → Bool) : State Tid Op Obj V R where
  value := start
  owner := fun _ => none
  status := fun o => if constructed o then .ready else .raw
  running := fun _ => none
  history := []

/-- Starts with the values `start`, and with the objects of `constructed` ready. -/
def machine (p : Interface Op Obj V R) (start : Obj → V) (constructed : Obj → Bool) :
    System (State Tid Op Obj V R) (Action Tid Op) where
  init s := s = initial start constructed
  step s action s' := step p s action = some s'

end Steps

section Serialization

variable (effect : Op → (Obj → V) → R × (Obj → V)) (start : Obj → V)

def valuesAfter (order : List (Call Op)) : Obj → V :=
  order.foldl (fun values c => (effect c.op values).2) start

def resultAfter (before : List (Call Op)) (c : Call Op) : R :=
  (effect c.op (valuesAfter effect start before)).1

structure Free (s : State Tid Op Obj V R) (o : Obj) : Prop where
  owner : s.owner o = none
  status : ∀ t, s.status o ≠ .building t

/-- The calls of `order`, one at a time, explain the run to `s`. -/
structure Serialization (s : State Tid Op Obj V R) (order : List (Call Op)) : Prop where
  called : ∀ c ∈ order, ∃ t, .call c.id t c.op ∈ s.history
  once : (order.map Call.id).Nodup
  results : ∀ id r, .ret id r ∈ s.history → ∃ before c after, order = before ++ c :: after ∧
    c.id = id ∧ r = resultAfter effect start before c
  /-- A call that comes after the return of another comes after it in the order. -/
  realTime : ∀ first r second t op, [.ret first r, .call second t op].Sublist s.history →
    second ∈ order.map Call.id → [first, second].Sublist (order.map Call.id)
  values : ∀ o, Free s o → s.value o = valuesAfter effect start order o

end Serialization

end SpackPlayground.Library.LockMachine
