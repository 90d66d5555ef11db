import Mathlib.Data.Finset.Card
import Mathlib.Data.Fintype.EquivFin
import SpackPlayground.Library.Progress
import SpackPlayground.LinkedQueue.Fifo
import SpackPlayground.LinkedQueue.Prompt

/-! The prompt over the life of a pool: whatever is typed, the linked queue cannot be
told from a list of its values. -/
namespace SpackPlayground.LinkedQueue.Prompt

open Library Library.LinkedChain Library.Transition

def values : Interface (List Int) where
  Free _ _ := True
  push value _ commits contents :=
    if commits then (.ok (), contents ++ [value]) else (.error .rolledBack, contents)
  pop commits contents :=
    match contents with
    | [] => (.error .outOfRange, [])
    | value :: rest => if commits then (.ok value, rest) else (.error .rolledBack, value :: rest)
  showAll contents := .ok (line (contents.flatMap shown))

structure Related (s : State (Queue Int)) (x : State (List Int)) : Prop where
  queue : Contains s.queue x.queue
  process : s.process = x.process
  out : s.out = x.out
  err : s.err = x.err

section Refinement

variable {s s' : State (Queue Int)} {x : State (List Int)} {q : Queue Int} {contents : List Int}
  {node : Addr} {commits : Bool}

private theorem showLoop_eq {start : Option Addr} {nodes : List (Addr × Int)} {fuel : Nat}
    (hchain : Chain (link q) start (nodes.map Prod.fst))
    (hvalue : ∀ addr v, (addr, v) ∈ nodes → valueAt q addr = some v)
    (hfuel : nodes.length ≤ fuel) :
    showLoop q.heap fuel start = .ok ((nodes.map Prod.snd).flatMap shown) := by
  induction nodes generalizing start fuel with
  | nil =>
      rw [chain_nil_iff.mp hchain]
      cases fuel <;> rfl
  | cons entry nodes ih =>
      obtain ⟨addr, value⟩ := entry
      obtain ⟨rfl, next, hlink, hrest⟩ := chain_cons_iff.mp hchain
      have hlookup := lookup_eq_of_link hlink (hvalue addr value List.mem_cons_self)
      cases fuel with
      | zero => cases hfuel
      | succ fuel =>
          have hloop := ih hrest (fun a v hmem => hvalue a v (List.mem_cons_of_mem _ hmem))
            (Nat.le_of_succ_le_succ hfuel)
          simp only [showLoop, hlookup, hloop]
          rfl

private theorem showAll_eq (hcontains : Contains q contents) :
    linked.showAll q = values.showAll contents := by
  obtain ⟨nodes, hshape, rfl⟩ := hcontains
  have hfuel : nodes.length ≤ q.heap.keys.card := by
    have hsub : (nodes.map Prod.fst).toFinset ⊆ q.heap.keys := by
      intro addr haddr
      rw [Finmap.mem_keys]
      exact (hshape.live addr).mpr (List.mem_toFinset.mp haddr)
    have hcard := Finset.card_le_card hsub
    rwa [List.toFinset_card_of_nodup hshape.chain.nodup, List.length_map] at hcard
  change Except.map line (showLoop q.heap q.heap.keys.card q.head) = _
  rw [showLoop_eq hshape.chain hshape.value hfuel]
  rfl

/-- Both have the same outcome, and contain the same again. -/
def Same {α : Type} (concrete : Except Failure α × Queue Int)
    (abstract : Except Failure α × List Int) : Prop :=
  concrete.1 = abstract.1 ∧ Contains concrete.2 abstract.2

private theorem push_same (hcontains : Contains q contents) (hfree : linked.Free node q)
    (value : Int)
    (commits : Bool) :
    Same (linked.push value node commits q) (values.push value node commits contents) := by
  obtain ⟨q', hpush, hcontains'⟩ := hcontains.push hfree value
  change Same (transaction (pushBody value node) commits q) _
  rw [transaction_of_ok hpush]
  cases commits with
  | true => exact ⟨rfl, hcontains'⟩
  | false => exact ⟨rfl, hcontains⟩

private theorem pop_same (hcontains : Contains q contents) (commits : Bool) :
    Same (linked.pop commits q) (values.pop commits contents) := by
  change Same (transaction popBody commits q) _
  cases contents with
  | nil =>
      rw [transaction_of_error hcontains.pop_nil]
      exact ⟨rfl, hcontains⟩
  | cons value contents =>
      obtain ⟨q', hpop, hcontains'⟩ := hcontains.pop_cons
      rw [transaction_of_ok hpop]
      cases commits with
      | true => exact ⟨rfl, hcontains'⟩
      | false => exact ⟨rfl, hcontains⟩

theorem resume_related {α : Type} (hrelated : Related s x) {concrete : Except Failure α × Queue Int}
    {abstract : Except Failure α × List Int} (hsame : Same concrete abstract)
    (next : α → Process) : Related (s.resume concrete next) (x.resume abstract next) := by
  unfold State.resume
  rw [hsame.1]
  cases abstract.1 with
  | ok value => exact ⟨hsame.2, rfl, hrelated.out, hrelated.err⟩
  | error failure => exact ⟨hsame.2, rfl, hrelated.out, hrelated.err⟩

theorem obey_related (hrelated : Related s x) (hfree : linked.Free node s.queue) (commits : Bool)
    (input : InputStream) (op : QueueOp) :
    Related (obey linked node commits s input op) (obey values node commits x input op) := by
  cases op with
  | push =>
      unfold obey
      cases hvalue : input.extractInt intMin intMax with
      | mk value input =>
          cases value with
          | none => exact { hrelated with process := rfl }
          | some value => exact resume_related hrelated (push_same hrelated.queue hfree value _) _
  | pop => exact resume_related hrelated (pop_same hrelated.queue commits) _
  | showAll =>
      have hsame : Same (linked.showAll s.queue, s.queue) (values.showAll x.queue, x.queue) :=
        ⟨showAll_eq hrelated.queue, hrelated.queue⟩
      exact resume_related hrelated hsame _
  | exit => exact { hrelated with process := rfl }
  | maxOps => exact { hrelated with process := rfl, err := congrArg (· ++ _) hrelated.err }

theorem turn_related (hrelated : Related s x) (hfree : linked.Free node s.queue) (commits : Bool)
    (input : InputStream) :
    Related (turn linked node commits s input) (turn values node commits x input) := by
  have husage : Related { s with out := s.out ++ usage } { x with out := x.out ++ usage } :=
    ⟨hrelated.queue, hrelated.process, congrArg (· ++ usage) hrelated.out, hrelated.err⟩
  exact obey_related husage hfree commits _ _

theorem moves_related (hrelated : Related s x) {action : Action}
    (hmoves : Moves linked s action s') : ∃ x', Moves values x action x' ∧ Related s' x' := by
  have hprocess := hrelated.process
  cases hmoves with
  | start input hdown =>
      exact ⟨_, .start input (hprocess.symm.trans hdown), { hrelated with process := rfl }⟩
  | turn input node commits hprompting hfree =>
      exact ⟨_, .turn input node commits (hprocess.symm.trans hprompting) trivial,
        turn_related hrelated hfree commits input⟩
  | answer text input hanswering =>
      exact ⟨_, .answer text input (hprocess.symm.trans hanswering),
        { hrelated with process := rfl, out := congrArg (· ++ text) hrelated.out }⟩
  | crashPrompting input written hprompting =>
      exact ⟨_, .crashPrompting input written (hprocess.symm.trans hprompting),
        { hrelated with process := rfl, out := congrArg (· ++ usage.take written) hrelated.out }⟩
  | crashAnswering text input written hanswering =>
      exact ⟨_, .crashAnswering text input written (hprocess.symm.trans hanswering),
        { hrelated with process := rfl, out := congrArg (· ++ text.take written) hrelated.out }⟩

theorem run_related (hrelated : Related s x) {actions : List Action}
    (hrun : (machine linked empty).Run s actions s') :
    ∃ x', (machine values []).Run x actions x' ∧ Related s' x' :=
  hrun.lockstep Related (fun _ _ _ _ hrelated hmoves => moves_related hrelated hmoves) hrelated

theorem exists_related (hs : (machine linked empty).Reachable s) :
    ∃ x, (machine values []).Reachable x ∧ Related s x := by
  obtain ⟨_, actions, rfl, hrun⟩ := hs
  have hstart : Related ⟨empty, .down, [], []⟩ ⟨[], .down, [], []⟩ :=
    ⟨⟨[], shape_empty, rfl⟩, rfl, rfl, rfl⟩
  obtain ⟨x, hx, hrelated⟩ := run_related hstart hrun
  exact ⟨x, ⟨_, actions, rfl, hx⟩, hrelated⟩

end Refinement

section Ends

variable {Q : Type} {queue : Interface Q} {q : Q} {s s' : State Q} {input : InputStream}

def Process.rank : Process → Nat
  | down | undefined => 0
  | prompting input => 2 * input.rest.length + 1
  | answering _ input => 2 * input.rest.length + 2

private theorem rank_thrown (failure : Failure) : (Process.thrown failure).rank = 0 := by
  cases failure <;> rfl

theorem rank_resume_le {α : Type} (result : Except Failure α × Q) {next : α → Process} {bound : Nat}
    (hnext : ∀ value, (next value).rank ≤ bound) : (s.resume result next).process.rank ≤ bound := by
  unfold State.resume
  cases result.1 with
  | ok value => exact hnext value
  | error failure => exact (rank_thrown failure).le.trans (Nat.zero_le bound)

theorem rank_obey_le (node : Addr) (commits : Bool) (op : QueueOp) :
    (obey queue node commits s input op).process.rank ≤ 2 * input.rest.length + 2 := by
  cases op with
  | push =>
      unfold obey
      have hlength := input.length_extractInt_le intMin intMax
      cases hvalue : input.extractInt intMin intMax with
      | mk value input' =>
          rw [hvalue] at hlength
          cases value with
          | none => exact Nat.zero_le _
          | some value =>
              refine rank_resume_le _ fun _ => ?_
              change input'.rest.length ≤ input.rest.length at hlength
              change 2 * input'.rest.length + 1 ≤ _
              omega
  | pop | showAll => exact rank_resume_le _ fun _ => le_rfl
  | exit | maxOps => exact Nat.zero_le _

theorem rank_turn_lt (node : Addr) (commits : Bool) :
    (turn queue node commits s input).process.rank < (Process.prompting input).rank := by
  unfold turn
  cases hword : input.extractString with
  | mk command input' =>
      cases command with
      | none => exact Nat.succ_pos _
      | some word =>
          have hlength := InputStream.length_extractString (congrArg Prod.fst hword)
          rw [hword] at hlength
          refine (rank_obey_le node commits _).trans_lt ?_
          change 2 * input'.rest.length + 2 < 2 * input.rest.length + 1
          change input'.rest.length < input.rest.length at hlength
          omega

/-- Everything but the start of another session lowers the rank. -/
def Action.Starts : Action → Prop
  | start _ => True
  | turn .. | answer | crash _ => False

theorem rank_moves {action : Action} (hstarts : ¬ action.Starts)
    (hmoves : Moves queue s action s') : s'.process.rank < s.process.rank := by
  cases hmoves with
  | start => exact absurd trivial hstarts
  | turn input node commits hprompting =>
      rw [hprompting]
      exact rank_turn_lt node commits
  | answer text input hanswering =>
      rw [hanswering]
      exact Nat.lt_succ_self _
  | crashPrompting input written hprompting =>
      rw [hprompting]
      exact Nat.succ_pos _
  | crashAnswering text input written hanswering =>
      rw [hanswering]
      exact Nat.succ_pos _

theorem length_le_rank {actions : List Action} (hrun : (machine queue q).Run s actions s')
    (hstarts : ∀ action ∈ actions, ¬ action.Starts) : actions.length ≤ s.process.rank :=
  hrun.length_le_rank (fun s => s.process.rank) (fun action => ¬ action.Starts)
    (fun _ _ _ => rank_moves) hstarts

end Ends

theorem exists_turn {s : State (Queue Int)} {input : InputStream}
    (hprompting : s.process = .prompting input) :
    ∃ node, ∀ commits, ∃ s', (machine linked empty).step s (.turn node commits) s' := by
  obtain ⟨node, hfree⟩ := Infinite.exists_notMem_finset s.queue.heap.keys
  refine ⟨node, fun commits => ⟨_, .turn input node commits hprompting ?_⟩⟩
  exact fun hmem => hfree (Finmap.mem_keys.mpr hmem)

/-- Whatever is typed, session after session and crash after crash, the program prints and
keeps what it would with a list of numbers, and every session ends. -/
theorem sessions_refine (s : State (Queue Int)) (hs : (machine linked empty).Reachable s) :
    (∃ x, (machine values []).Reachable x ∧ Related s x) ∧
    (∀ input, s.process = .prompting input →
      ∃ node, ∀ commits, ∃ s', (machine linked empty).step s (.turn node commits) s') ∧
    ∀ actions s', (machine linked empty).Run s actions s' →
      (∀ action ∈ actions, ¬ action.Starts) → actions.length ≤ s.process.rank :=
  ⟨exists_related hs, fun _ => exists_turn, fun _ _ => length_le_rank⟩

theorem sessions_refine_pop : ∃ s, (machine linked empty).Reachable s ∧
    s.process = .prompting ⟨['p', 'o', 'p'], false⟩ ∧
    (∃ node, ∀ commits, ∃ s', (machine linked empty).step s (.turn node commits) s') ∧
    ∀ actions s', (machine linked empty).Run s actions s' →
      (∀ action ∈ actions, ¬ action.Starts) → actions.length ≤ 7 := by
  have hstart : (machine linked empty).step ⟨empty, .down, [], []⟩ (.start ['p', 'o', 'p']) _ :=
    .start _ rfl
  have hs := (System.reachable_init rfl).step hstart
  obtain ⟨_, hturn, hlength⟩ := sessions_refine _ hs
  exact ⟨_, hs, rfl, hturn _ rfl, hlength⟩

end SpackPlayground.LinkedQueue.Prompt
