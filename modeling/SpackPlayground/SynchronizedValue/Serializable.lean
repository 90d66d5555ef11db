import Mathlib.Data.List.FinRange
import Mathlib.Logic.Equiv.Basic
import SpackPlayground.Library.Serializability
import SpackPlayground.SynchronizedValue.Operations

/-! Every operation of `SynchronizedValue` acts at once on the values, in any
interleaving, and none deadlocks. -/
namespace SpackPlayground.SynchronizedValue

open Library.LockedCode Library.LockMachine Library.Transition

variable {Tid Obj Proxy V R : Type}

section Effects

variable [DecidableEq Obj]

def CriticalSection.effect (object : Proxy → Obj) :
    CriticalSection Proxy V R → (Obj → V) → Result V R × (Obj → V)
  | .done r, values => (.user r, values)
  | .read proxy next, values => (next (values (object proxy))).effect object values
  | .write proxy x next, values =>
      next.effect object (Function.update values (object proxy) x)

/-- What an operation means for plain values without mutexes. -/
def Operation.effect (move : Move V) :
    Operation Obj V R → (Obj → V) → Result V R × (Obj → V)
  | .construct self other, values | .assign self other, values =>
      (.void, Function.update values self other)
  | .copyConstruct self other, values | .copyAssign self other, values =>
      (.void, Function.update values self (values other))
  | .moveConstruct self other, values =>
      (.void, Function.update (Function.update values self (values other)) other
        (move.afterConstruct (values other)))
  | .moveAssign self rhs, values =>
      (.void, if rhs = self then values
        else Function.update (Function.update values self (values rhs)) rhs
          (move.afterAssign (values self) (values rhs)))
  | .convertAssign self temporary other, values =>
      (.void, if temporary = self then Function.update values self other
        else Function.update (Function.update values self other) temporary
          (move.afterAssign (values self) other))
  | .get self, values => (.value (values self), values)
  | .swap self rhs, values => (.void, values ∘ Equiv.swap self rhs)
  | .swapValue self rhs, values => (.value (values self), Function.update values self rhs)
  | .save self insert, values => (.user (insert (values self)), values)
  | .load self extract, values => extract.effect (fun _ => self) values
  | .synchronize self body, values => body.effect (fun _ => self) values
  | .synchronizeAll sv body, values => body.effect sv values

theorem CriticalSection.run_code (object : Proxy → Obj) (body : CriticalSection Proxy V R)
    (objs : List Obj) (values : Obj → V) :
    (body.code object fun r => .unlock objs (.ret (.user r))).run values =
      body.effect object values := by
  induction body generalizing values with
  | done r => rfl
  | read proxy next ih => exact ih _ values
  | write proxy x next ih => exact ih _

private theorem run_copyAssign (self rhs : Obj) (values : Obj → V) :
    (copyAssign self rhs : Code Obj V (Result V R)).run values =
      (.void, Function.update values self (values rhs)) := by
  unfold copyAssign
  split
  · rfl
  · rename_i heq
    rw [not_not.mp heq, Function.update_eq_self, Code.run_ret]

theorem run_moveAssign (move : Move V) (self rhs : Obj) (values : Obj → V) :
    (moveAssign move self rhs : Code Obj V (Result V R)).run values =
      (.void, if rhs = self then values
        else Function.update (Function.update values self (values rhs)) rhs
          (move.afterAssign (values self) (values rhs))) := by
  unfold moveAssign
  by_cases heq : rhs = self
  · rw [if_neg (not_not.mpr heq), if_pos heq, Code.run_ret]
  · rw [if_pos heq, if_neg heq]
    rfl

private theorem run_convertAssign (move : Move V) (self temporary : Obj) (other : V)
    (values : Obj → V) :
    (convertAssign move self temporary other : Code Obj V (Result V R)).run values =
      (.void, if temporary = self then Function.update values self other
        else Function.update (Function.update values self other) temporary
          (move.afterAssign (values self) other)) := by
  unfold convertAssign
  rw [Code.run_write, run_moveAssign]
  by_cases heq : temporary = self
  · rw [if_pos heq, if_pos heq, heq]
  · rw [if_neg heq, if_neg heq, Function.update_self, Function.update_of_ne (Ne.symm heq),
      Function.update_comm heq, Function.update_idem]

private theorem run_swap (self rhs : Obj) (values : Obj → V) :
    (swap self rhs : Code Obj V (Result V R)).run values =
      (.void, values ∘ Equiv.swap self rhs) := by
  unfold swap
  by_cases heq : self = rhs
  · rw [if_pos heq, heq, Equiv.swap_self]
    rfl
  · rw [if_neg heq, Equiv.swap_comm, Equiv.comp_swap_eq_update]
    rfl

theorem run_code (move : Move V) (op : Operation Obj V R) (values : Obj → V) :
    (op.code move).run values = op.effect move values := by
  cases op with
  | copyAssign self rhs => exact run_copyAssign self rhs values
  | moveAssign self rhs => exact run_moveAssign move self rhs values
  | convertAssign self temporary other => exact run_convertAssign move self temporary other values
  | swap self rhs => exact run_swap self rhs values
  | load self extract => exact extract.run_code _ _ values
  | synchronize self body => exact body.run_code _ _ values
  | synchronizeAll sv body => exact body.run_code _ _ values
  | _ => rfl

end Effects

section Discipline

variable {fresh uses objs : List Obj}

theorem CriticalSection.guarded {object : Proxy → Obj} (hobjs : ∀ proxy, object proxy ∈ objs)
    (body : CriticalSection Proxy V R) :
    (body.code object fun r => .unlock objs (.ret (.user r))).Guarded fresh objs := by
  induction body with
  | done r => exact ⟨rfl, rfl⟩
  | read proxy next ih => exact ⟨.inl (hobjs proxy), ih⟩
  | write proxy x next ih => exact ⟨.inl (hobjs proxy), ih⟩

theorem CriticalSection.disciplined {object : Proxy → Obj} (hnodup : objs.Nodup)
    (hobjs : ∀ proxy, object proxy ∈ objs) (body : CriticalSection Proxy V R) :
    (withLock objs fun done => body.code object fun r => done (.user r)).Disciplined fresh objs :=
  ⟨hnodup, fun _ => .inl, body.guarded hobjs⟩

variable [DecidableEq Obj]

private theorem copyAssign_disciplined (self rhs : Obj) :
    (copyAssign self rhs : Code Obj V (Result V R)).Disciplined fresh [self, rhs] := by
  unfold copyAssign
  split
  · rename_i hne
    refine ⟨by simp [hne.symm], fun _ => .inl, ?_⟩
    exact ⟨.inl (by simp), fun x => ⟨.inl (by simp), rfl, rfl⟩⟩
  · trivial

theorem moveAssign_disciplined (move : Move V) {self rhs : Obj}
    (hallowed : ∀ o ∈ [self, rhs], o ∈ uses ∨ o ∈ fresh) :
    (moveAssign move self rhs : Code Obj V (Result V R)).Disciplined fresh uses := by
  unfold moveAssign
  split
  · rename_i hne
    refine ⟨by simp [hne.symm], hallowed, ?_⟩
    exact ⟨.inl (by simp), fun old => ⟨.inl (by simp), fun x =>
      ⟨.inl (by simp), .inl (by simp), rfl, rfl⟩⟩⟩
  · trivial

private theorem swap_disciplined (self rhs : Obj) :
    (swap self rhs : Code Obj V (Result V R)).Disciplined fresh [self, rhs] := by
  unfold swap
  split
  · trivial
  · rename_i hne
    refine ⟨by simp [hne], fun _ => .inl, ?_⟩
    exact ⟨.inl (by simp), fun x => ⟨.inl (by simp), fun y =>
      ⟨.inl (by simp), .inl (by simp), rfl, rfl⟩⟩⟩

private theorem interface_disciplined (move : Move V) :
    (interface move : Interface (Operation Obj V R) Obj V (Result V R)).Disciplined := by
  constructor
  intro op
  have hself : ∀ self : Obj, self ∈ [self] := fun _ => List.mem_cons_self
  cases op with
  | construct self other => exact ⟨hself self, trivial⟩
  | copyConstruct self other =>
      refine ⟨List.nodup_singleton other, fun _ => .inl, ?_⟩
      exact ⟨.inl (hself other), fun x => ⟨.inr (hself self), rfl, rfl⟩⟩
  | moveConstruct self other =>
      refine ⟨List.nodup_singleton other, fun _ => .inl, ?_⟩
      exact ⟨.inl (hself other), fun x => ⟨.inr (hself self), .inl (hself other), rfl, rfl⟩⟩
  | copyAssign self rhs => exact copyAssign_disciplined self rhs
  | moveAssign self rhs => exact moveAssign_disciplined move fun _ => .inl
  | assign self other =>
      refine ⟨List.nodup_singleton self, fun _ => .inl, ?_⟩
      exact ⟨.inl (hself self), rfl, rfl⟩
  | convertAssign self temporary other =>
      refine ⟨hself temporary, moveAssign_disciplined move ?_⟩
      intro o ho
      rcases List.mem_pair.mp ho with rfl | rfl
      · exact .inl (hself o)
      · exact .inr (hself o)
  | get self =>
      refine ⟨List.nodup_singleton self, fun _ => .inl, ?_⟩
      exact ⟨.inl (hself self), fun x => ⟨rfl, rfl⟩⟩
  | swap self rhs => exact swap_disciplined self rhs
  | swapValue self rhs =>
      refine ⟨List.nodup_singleton self, fun _ => .inl, ?_⟩
      exact ⟨.inl (hself self), fun x => ⟨.inl (hself self), rfl, rfl⟩⟩
  | save self insert =>
      refine ⟨List.nodup_singleton self, fun _ => .inl, ?_⟩
      exact ⟨.inl (hself self), fun x => ⟨rfl, rfl⟩⟩
  | load self extract =>
      exact extract.disciplined (List.nodup_singleton self) fun _ => hself self
  | synchronize self body =>
      exact body.disciplined (List.nodup_singleton self) fun _ => hself self
  | synchronizeAll sv body =>
      exact body.disciplined (List.nodup_ofFn.mpr sv.injective) fun i => List.mem_ofFn.mpr ⟨i, rfl⟩

end Discipline

private theorem effect_interface [DecidableEq Obj] (move : Move V) :
    (interface move : Interface (Operation Obj V R) Obj V (Result V R)).effect =
      Operation.effect move := by
  funext op values
  exact run_code move op values

theorem serializable_and_live [DecidableEq Tid] [DecidableEq Obj] (move : Move V)
    (start : Obj → V) (constructed : Obj → Bool)
    {s : State Tid (Operation Obj V R) Obj V (Result V R)}
    (hs : (machine (interface move) start constructed).Reachable s) :
    (∀ t c o, s.running t = some c → c.code.accessed = some o → s.status o = .ready →
      s.owner o = some t) ∧
    (∃ order, Serialization (Operation.effect move) start s order ∧
      ((∀ t, s.running t = none) → s.value = valuesAfter (Operation.effect move) start order)) ∧
    ((∃ t, s.running t ≠ none) → ∃ t s', advance (interface move) s t = some s') := by
  have hdisciplined : (interface move : Interface (Operation Obj V R) Obj V _).Disciplined :=
    interface_disciplined move
  refine ⟨?_, ?_, ?_⟩
  · intro t c o hc ho hready
    apply (accessed_mem_territory hdisciplined hs hc ho).resolve_right
    intro hbuilding
    rw [hready] at hbuilding
    cases hbuilding
  · obtain ⟨order, hserial⟩ := serializable hdisciplined hs
    rw [effect_interface] at hserial
    refine ⟨order, hserial, fun hidle => ?_⟩
    funext o
    exact hserial.values o (free_of_idle hdisciplined hs hidle o)
  · rintro ⟨t, hrunning⟩
    obtain ⟨c, hc⟩ := Option.ne_none_iff_exists'.mp hrunning
    exact no_deadlock hdisciplined hs hc

def keep : Move Nat := ⟨id, fun _ x => x⟩

private theorem reachable_opposed :
    ∃ s : State Bool (Operation Bool Nat Unit) Bool Nat (Result Nat Unit),
      (machine (interface keep) (fun _ => 0) (fun _ => true)).Reachable s ∧
      s.running true ≠ none ∧ advance (interface keep) s true = none :=
  ⟨_, ⟨_, [.call false (.copyAssign false true), .call true (.copyAssign true false),
    .advance false], rfl, .cons rfl (.cons rfl (.single rfl))⟩, Option.some_ne_none _, rfl⟩

theorem live_opposed :
    ∃ s : State Bool (Operation Bool Nat Unit) Bool Nat (Result Nat Unit),
      (machine (interface keep) (fun _ => 0) (fun _ => true)).Reachable s ∧
      s.running true ≠ none ∧ advance (interface keep) s true = none ∧
      ∃ t s', advance (interface keep) s t = some s' := by
  obtain ⟨s, hs, hrunning, hblocked⟩ := reachable_opposed
  obtain ⟨-, -, hlive⟩ := serializable_and_live keep (fun _ => 0) (fun _ => true) hs
  exact ⟨s, hs, hrunning, hblocked, hlive ⟨true, hrunning⟩⟩

end SpackPlayground.SynchronizedValue
