import SpackPlayground.Library.Transition

/-! What the workers of a benchmark do inside the timed window, apart from the
barriers around it: a shared state, and for each worker its own loops. -/
namespace SpackPlayground.Timing.Workers

open Library.Transition

/-- The loops of `n` workers. A step takes a label with what the outside
decides about it. -/
structure Program (n : Nat) (Shared Local Label : Type) where
  init : Shared → Prop
  start : Fin n → Local
  step : Fin n → Shared → Local → Label → Option (Shared × Local)
  ended : Local → Bool
  /-- A worker whose loops have not ended can always go on. -/
  live : ∀ i shared l, ended l = false → ∃ label result, step i shared l label = some result

structure Crew (n : Nat) (Shared Local : Type) where
  shared : Shared
  locals : Fin n → Local

variable {n : Nat} {Shared Local Label : Type}

def Crew.work (program : Program n Shared Local Label) (crew : Crew n Shared Local) (i : Fin n)
    (label : Label) : Option (Crew n Shared Local) :=
  (program.step i crew.shared (crew.locals i) label).map fun result =>
    { shared := result.1, locals := Function.update crew.locals i result.2 }

def Program.system (program : Program n Shared Local Label) :
    System (Crew n Shared Local) (Fin n × Label) where
  init crew := program.init crew.shared ∧ crew.locals = program.start
  step crew move crew' := crew.work program move.1 move.2 = some crew'

theorem reachable_of_execute {program : Program n Shared Local Label}
    {crew crew' : Crew n Shared Local} (hinit : program.system.init crew)
    {moves : List (Fin n × Label)} (hexecute : System.execute
      (fun crew move => crew.work program move.1 move.2) crew moves = some crew') :
    program.system.Reachable crew' :=
  ⟨crew, moves, hinit, System.run_of_execute (fun _ _ _ hstep => hstep) hexecute⟩

theorem work_eq_some_iff {program : Program n Shared Local Label} {crew crew' : Crew n Shared Local}
    {i : Fin n} {label : Label} : crew.work program i label = some crew' ↔
      ∃ shared l, program.step i crew.shared (crew.locals i) label = some (shared, l) ∧
        crew' = ⟨shared, Function.update crew.locals i l⟩ := by
  unfold Crew.work
  rw [Option.map_eq_some_iff]
  constructor
  · intro hwork
    obtain ⟨⟨shared, l⟩, hstep, heq⟩ := hwork
    exact ⟨shared, l, hstep, heq.symm⟩
  · intro hwork
    obtain ⟨shared, l, hstep, heq⟩ := hwork
    exact ⟨(shared, l), hstep, heq.symm⟩

end SpackPlayground.Timing.Workers
