import SpackPlayground.KeyValue.FiniteMap
import SpackPlayground.KeyValue.Prompt
import SpackPlayground.Library.Progress

/-! The prompt over the life of a pool: whatever is typed and wherever the process is
killed, the vectors and their index cannot be told from a map. -/
namespace SpackPlayground.KeyValue.Prompt

open Library Library.HashIndex Library.Transition Store

/-- The map as a function, in which a `put` has nothing left to do behind its transaction. -/
def finite : Interface (Word → Option Int) Unit where
  create _ := none
  construct _ := some ()
  get _ map key := answer (map key)
  transact _ map key val commits :=
    if commits then (Function.update map key (some val), .returned .stored)
    else (map, .returned .aborted)
  insert _ _ _ := ()

structure Stored (data : Persistent Word Int) (map : Word → Option Int) : Prop where
  lengths : data.keys.length = data.values.length
  nodup : data.keys.Nodup
  represents : Represents data.keys data.values map

inductive RootRelated : Option (Persistent Word Int) → Option (Word → Option Int) → Prop where
  | missing : RootRelated none none
  | stored {data : Persistent Word Int} {map : Word → Option Int} : Stored data map →
      RootRelated (some data) (some map)

variable {hashing : Hashing Word}

def Process.forget : Process (Buckets hashing) → Process Unit
  | down => down
  | opened input => opened input
  | constructing input => constructing input
  | prompting _ input => prompting () input
  | writing _ text input => writing () text input
  | inserting _ _ input => prompting () input
  | caught what => caught what
  | undefined => undefined

/-- The buckets in memory are those of the keys in the pool, or the last one is still
to be inserted. -/
def Process.Indexed (root : Option (Persistent Word Int)) : Process (Buckets hashing) → Prop
  | prompting buckets _ | writing buckets _ _ =>
      ∃ data, root = some data ∧ buckets = indexed hashing.index data.keys
  | inserting buckets key _ => ∃ data before, root = some data ∧ data.keys = before ++ [key] ∧
      buckets = indexed hashing.index before
  | constructing _ => ∃ data, root = some data
  | down | opened _ | caught _ => True
  | undefined => False

structure Related (s : State (Persistent Word Int) (Buckets hashing))
    (x : State (Word → Option Int) Unit) : Prop where
  root : RootRelated s.root x.root
  process : x.process = s.process.forget
  indexed : s.process.Indexed s.root
  out : x.out = s.out
  err : x.err = s.err

section Refinement

variable {s s' : State (Persistent Word Int) (Buckets hashing)}
  {x : State (Word → Option Int) Unit} {data : Persistent Word Int} {map : Word → Option Int}

theorem Stored.holds (hstored : Stored data map) :
    Holds (indexed hashing.index data.keys) data.keys data.values :=
  ⟨hstored.lengths, hstored.nodup, rfl⟩

theorem Related.stored (hrelated : Related s x) (hdata : s.root = some data) :
    ∃ map, x.root = some map ∧ Stored data map := by
  have hroot := hrelated.root
  rw [hdata] at hroot
  generalize x.root = root at hroot
  cases hroot with
  | stored hstored => exact ⟨_, rfl, hstored⟩

theorem Related.missing (hrelated : Related s x) (hnone : s.root = none) : x.root = none := by
  have hroot := hrelated.root
  rw [hnone] at hroot
  generalize x.root = root at hroot
  cases hroot
  rfl

private theorem forget_answered (failure : Option (List Char)) (buckets : Buckets hashing)
    (input : InputStream) (a : Answer Int) :
    (Process.answered failure buckets input a).forget = .answered failure () input a := by
  cases a <;> rfl

private theorem indexed_answered (failure : Option (List Char)) (input : InputStream)
    {a : Answer Int}
    (hdefined : a ≠ .undefined) :
    (Process.answered failure (indexed hashing.index data.keys) input a).Indexed (some data) := by
  cases a with
  | stored | found val => exact ⟨data, rfl, rfl⟩
  | outOfRange | aborted => trivial
  | undefined => exact absurd rfl hdefined

private theorem answer_ne_undefined (val : Option Int) : answer val ≠ .undefined := by
  cases val <;> simp [answer]

private theorem put_related (hrelated : Related s x) (hstored : Stored data map)
    (failure : Option (List Char)) (key : Word) (val : Int) (input : InputStream) :
    Related (put (rebuilt hashing) failure s data (indexed hashing.index data.keys) key val input)
      (put finite failure x map () key val input) := by
  have hholds : Holds (Runtime.buckets ⟨indexed hashing.index data.keys, data⟩) data.keys
      data.values := hstored.holds
  unfold put
  simp only [rebuilt, finite]
  obtain ⟨hcommits, hput⟩ | ⟨hcommits, i, hkey, hi, hput⟩ | ⟨hcommits, hnew, hput⟩ :=
    Runtime.transact_cases hholds key val failure.isNone
  · rw [hput, hcommits]
    exact ⟨.stored hstored, rfl, trivial, hrelated.out, hrelated.err⟩
  · rw [hput, hcommits]
    have hset : Stored ⟨data.values.set i val, data.keys⟩ (Function.update map key (some val)) :=
      ⟨hholds.set.lengths, hstored.nodup, hstored.represents.set hstored.nodup hkey hi⟩
    exact ⟨.stored hset, rfl, ⟨_, rfl, rfl⟩, hrelated.out, hrelated.err⟩
  · rw [hput, hcommits]
    have hpush : Holds _ (data.keys ++ [key]) (data.values ++ [val]) := hholds.push hnew
    have hgrown : Stored ⟨data.values ++ [val], data.keys ++ [key]⟩
        (Function.update map key (some val)) :=
      ⟨hpush.lengths, hpush.nodup, hstored.represents.push hstored.lengths hnew⟩
    exact ⟨.stored hgrown, rfl, ⟨_, data.keys, rfl, rfl, rfl⟩, hrelated.out, hrelated.err⟩

theorem Related.goes (hrelated : Related s x) {process : Process (Buckets hashing)}
    (hindexed : process.Indexed s.root) :
    Related { s with process := process } { x with process := process.forget } :=
  { hrelated with process := rfl, indexed := hindexed }

private theorem get_related (hrelated : Related s x) (hdata : s.root = some data)
    (hstored : Stored data map) (failure : Option (List Char)) (key : Word)
    (input : InputStream) :
    Related
      { s with process := .answered failure (indexed hashing.index data.keys) input
                ((rebuilt hashing).get (indexed hashing.index data.keys) data key) }
      { x with process := .answered failure () input (finite.get () map key) } := by
  have hget : (rebuilt hashing).get (indexed hashing.index data.keys) data key =
      finite.get () map key :=
    search_eq hstored.holds hstored.represents key
  have hdefined : finite.get () map key ≠ .undefined := answer_ne_undefined (map key)
  rw [hget, ← forget_answered failure (indexed hashing.index data.keys)]
  apply hrelated.goes
  rw [hdata]
  exact indexed_answered failure input hdefined

theorem obey_related (hrelated : Related s x) (hdata : s.root = some data)
    (hstored : Stored data map) (failure : Option (List Char)) (op : Word) (input : InputStream) :
    Related
      (obey (rebuilt hashing) failure s data (indexed hashing.index data.keys) op input)
      (obey finite failure x map () op input) := by
  have husage (input : InputStream) :
      Related { s with process := .writing (indexed hashing.index data.keys) usage input }
        { x with process := .writing () usage input } :=
    hrelated.goes ⟨data, hdata, rfl⟩
  unfold obey
  split
  · cases input.extractString with
    | mk key input =>
        cases key with
        | none => exact husage input
        | some key => exact get_related hrelated hdata hstored failure key input
  · split
    · cases input.extractString with
      | mk key input =>
          cases key with
          | none => exact husage input
          | some key =>
              dsimp only
              rcases input.extractInt intMin intMax with ⟨_ | val, rest, _ | _⟩
              · exact husage _
              · exact husage _
              · exact put_related hrelated hstored failure key val _
              · exact husage _
    · split
      · exact hrelated.goes trivial
      · exact husage input

theorem turn_related (hrelated : Related s x) (hdata : s.root = some data)
    (hstored : Stored data map) (failure : Option (List Char)) (input : InputStream) :
    Related (turn (rebuilt hashing) failure s data (indexed hashing.index data.keys) input)
      (turn finite failure x map () input) := by
  unfold turn
  cases input.extractString with
  | mk op input =>
      cases op with
      | none => exact hrelated.goes trivial
      | some op => exact obey_related hrelated hdata hstored failure op input

private theorem create_related (hrelated : Related s x) (failure : Option (List Char))
    (input : InputStream) :
    Related (create (rebuilt hashing) failure s input) (create finite failure x input) := by
  cases failure with
  | some what => exact hrelated.goes trivial
  | none =>
      have hempty : Stored ⟨[], []⟩ fun _ => none := ⟨rfl, List.nodup_nil, represents_nil⟩
      exact ⟨.stored hempty, rfl, ⟨_, rfl⟩, hrelated.out, hrelated.err⟩

private theorem construct_related (hrelated : Related s x) (hdata : s.root = some data)
    (hstored : Stored data map) (input : InputStream) :
    Related (construct (rebuilt hashing) s data input) (construct finite x map input) := by
  unfold construct
  simp only [rebuilt, finite, Runtime.rebuild_eq hstored.lengths hashing]
  exact hrelated.goes ⟨data, hdata, rfl⟩

private theorem insert_related (hrelated : Related s x) {buckets : Buckets hashing} {key : Word}
    {input : InputStream} (hprocess : s.process = .inserting buckets key input)
    (hdata : s.root = some data) :
    Related
      { s with process := .prompting ((rebuilt hashing).insert buckets data key) input } x := by
  obtain ⟨map, hmap, hstored⟩ := hrelated.stored hdata
  have hindexed := hrelated.indexed
  rw [hprocess] at hindexed
  obtain ⟨_, before, hroot, hbefore, hbuckets⟩ := hindexed
  cases hdata.symm.trans hroot
  have hprompting := hrelated.process
  rw [hprocess] at hprompting
  refine { hrelated with process := hprompting, indexed := ⟨data, hdata, ?_⟩ }
  change push hashing.index buckets key (data.values.length - 1) = _
  rw [← hstored.lengths, hbefore, indexed_append_singleton, hbuckets, List.length_append]
  rfl

def Action.visible : Action → Bool
  | insert => false
  | start _ | test _ | construct | turn _ | write | report | crash _ => true

private theorem pending_forget (process : Process (Buckets hashing)) :
    process.forget.pending = process.pending := by
  cases process <;> rfl

theorem moves_related (hrelated : Related s x) {action : Action}
    (hmoves : Moves (rebuilt hashing) s action s') :
    if action.visible then ∃ x', Moves finite x action x' ∧ Related s' x'
    else Related s' x := by
  have hprocess := hrelated.process
  have hindexed := hrelated.indexed
  cases hmoves with
  | start input hdown =>
      rw [hdown] at hprocess
      exact ⟨_, .start input hprocess, hrelated.goes trivial⟩
  | create failure input hopened hroot =>
      rw [hopened] at hprocess
      exact ⟨_, .create failure input hprocess (hrelated.missing hroot),
        create_related hrelated failure input⟩
  | found failure input data hopened hdata =>
      rw [hopened] at hprocess
      obtain ⟨map, hmap, _⟩ := hrelated.stored hdata
      exact ⟨_, .found failure input map hprocess hmap, hrelated.goes ⟨data, hdata⟩⟩
  | construct input data hconstructing hdata =>
      rw [hconstructing] at hprocess
      obtain ⟨map, hmap, hstored⟩ := hrelated.stored hdata
      exact ⟨_, .construct input map hprocess hmap,
        construct_related hrelated hdata hstored input⟩
  | turn failure buckets input data hprompting hdata =>
      rw [hprompting] at hprocess hindexed
      obtain ⟨map, hmap, hstored⟩ := hrelated.stored hdata
      refine ⟨_, .turn failure () input map hprocess hmap, ?_⟩
      obtain ⟨_, hroot, rfl⟩ := hindexed
      cases hdata.symm.trans hroot
      exact turn_related hrelated hdata hstored failure input
  | insert buckets key input data hinserting hdata =>
      exact insert_related hrelated hinserting hdata
  | write buckets text input hwriting =>
      rw [hwriting] at hprocess hindexed
      exact ⟨_, .write () text input hprocess,
        { hrelated with
          process := rfl
          indexed := hindexed
          out := congrArg (· ++ text) hrelated.out }⟩
  | report what hcaught =>
      rw [hcaught] at hprocess
      exact ⟨_, .report what hprocess,
        { hrelated with process := rfl, indexed := trivial, err := congrArg (· ++ _) hrelated.err }⟩
  | crash written hup hdefined =>
      refine ⟨_, .crash written ?_ ?_, ?_⟩
      · rw [hprocess]
        cases hs : s.process <;> first | exact absurd hs hup | simp [Process.forget]
      · rw [hprocess]
        cases hs : s.process <;> first | exact absurd hs hdefined | simp [Process.forget]
      · rw [hprocess, pending_forget, hrelated.out, hrelated.err]
        exact ⟨hrelated.root, rfl, trivial, rfl, rfl⟩

theorem run_related (hrelated : Related s x) {actions : List Action}
    (hrun : (machine (rebuilt hashing)).Run s actions s') :
    ∃ x', (machine finite).Run x (actions.filter Action.visible) x' ∧ Related s' x' := by
  induction hrun generalizing x with
  | nil => exact ⟨x, .nil x, hrelated⟩
  | @cons _ _ _ action actions hstep _ ih =>
      have hmoves := moves_related hrelated hstep
      cases hvisible : action.visible with
      | true =>
          rw [hvisible, if_pos rfl] at hmoves
          obtain ⟨y, hstep', hy⟩ := hmoves
          obtain ⟨x', hrest, hx'⟩ := ih hy
          rw [List.filter_cons_of_pos hvisible]
          exact ⟨x', .cons hstep' hrest, hx'⟩
      | false =>
          simp only [hvisible, Bool.false_eq_true, if_false] at hmoves
          rw [List.filter_cons_of_neg (Bool.eq_false_iff.mp hvisible)]
          exact ih hmoves

def Process.next {R : Type} (failure : Option (List Char)) : Process R → Option Action
  | opened _ => some (.test failure)
  | constructing _ => some .construct
  | prompting .. => some (.turn failure)
  | writing .. => some .write
  | inserting .. => some .insert
  | caught _ => some .report
  | down | undefined => none

theorem Related.progress (hrelated : Related s x) (hup : s.process ≠ .down)
    (failure : Option (List Char)) :
    ∃ action ∈ s.process.next failure, ∃ t, (machine (rebuilt hashing)).step s action t := by
  have hindexed := hrelated.indexed
  cases hprocess : s.process with
  | down => exact absurd hprocess hup
  | opened input =>
      cases hroot : s.root with
      | none => exact ⟨_, rfl, _, .create failure input hprocess hroot⟩
      | some data => exact ⟨_, rfl, _, .found failure input data hprocess hroot⟩
  | constructing input =>
      rw [hprocess] at hindexed
      obtain ⟨data, hroot⟩ := hindexed
      exact ⟨_, rfl, _, .construct input data hprocess hroot⟩
  | prompting buckets input =>
      rw [hprocess] at hindexed
      obtain ⟨data, hroot, _⟩ := hindexed
      exact ⟨_, rfl, _, .turn failure buckets input data hprocess hroot⟩
  | writing buckets text input => exact ⟨_, rfl, _, .write buckets text input hprocess⟩
  | inserting buckets key input =>
      rw [hprocess] at hindexed
      obtain ⟨data, _, hroot, _⟩ := hindexed
      exact ⟨_, rfl, _, .insert buckets key input data hprocess hroot⟩
  | caught what => exact ⟨_, rfl, _, .report what hprocess⟩
  | undefined =>
      rw [hprocess] at hindexed
      exact hindexed.elim

end Refinement

section Ends

variable {D R : Type} {map : Interface D R} {s s' : State D R} {kv : R} {data : D}
  {input : InputStream} {failure : Option (List Char)}

def Process.rank : Process R → Nat
  | down | undefined => 0
  | caught _ => 1
  | prompting _ input => 2 * input.rest.length + 2
  | writing _ _ input | inserting _ _ input => 2 * input.rest.length + 3
  | constructing input => 2 * input.rest.length + 4
  | opened input => 2 * input.rest.length + 5

theorem rank_answered_le (a : Answer Int) :
    (Process.answered failure kv input a).rank ≤ 2 * input.rest.length + 3 := by
  cases a with
  | stored | found val => simp [Process.answered, Process.rank]
  | outOfRange | aborted | undefined => simp [Process.answered, Process.rank]

private theorem rank_put_le (key : Word) (val : Int) :
    (put map failure s data kv key val input).process.rank ≤ 2 * input.rest.length + 3 := by
  unfold put
  split
  · exact rank_answered_le _
  · exact le_rfl

theorem rank_obey_le (op : Word) :
    (obey map failure s data kv op input).process.rank ≤ 2 * input.rest.length + 3 := by
  have hle := input.length_extractString_le
  unfold obey
  split
  · split
    · rename_i key rest hkey
      rw [hkey] at hle
      dsimp only at hle
      exact (rank_answered_le _).trans (by omega)
    · rename_i rest hkey
      rw [hkey] at hle
      exact Nat.add_le_add_right (Nat.mul_le_mul_left 2 hle) 3
  · split
    · split
      · rename_i key input' hkey
        rw [hkey] at hle
        have hint := input'.length_extractInt_le intMin intMax
        split
        · rename_i val rest hval
          rw [hval] at hint
          exact (rank_put_le key val).trans (by dsimp only at hle hint ⊢; omega)
        · rename_i rest _ hval
          rw [hval] at hint
          exact Nat.add_le_add_right (Nat.mul_le_mul_left 2 (hint.trans hle)) 3
      · rename_i rest hkey
        rw [hkey] at hle
        exact Nat.add_le_add_right (Nat.mul_le_mul_left 2 hle) 3
    · split
      · exact Nat.zero_le _
      · exact le_rfl

theorem rank_turn_lt :
    (turn map failure s data kv input).process.rank < (Process.prompting kv input).rank := by
  unfold turn
  split
  · rename_i op rest hop
    have hlength := InputStream.length_extractString (congrArg Prod.fst hop)
    rw [hop] at hlength
    refine (rank_obey_le op).trans_lt ?_
    change 2 * rest.rest.length + 3 < 2 * input.rest.length + 2
    dsimp only at hlength
    omega
  · exact Nat.succ_pos _

def Action.Starts : Action → Prop
  | start _ => True
  | test _ | construct | turn _ | insert | write | report | crash _ => False

theorem rank_moves {action : Action} (hstarts : ¬ action.Starts) (hmoves : Moves map s action s') :
    s'.process.rank < s.process.rank := by
  cases hmoves with
  | start => exact absurd trivial hstarts
  | create failure input hopened _ =>
      rw [hopened]
      cases failure <;> simp [create, Process.rank]
  | found failure input data hopened _ =>
      rw [hopened]
      exact Nat.lt_succ_self _
  | construct input data hconstructing _ =>
      rw [hconstructing]
      unfold construct
      split <;> simp [Process.rank]
  | turn failure kv input data hprompting _ =>
      rw [hprompting]
      exact rank_turn_lt
  | insert kv key input data hinserting _ =>
      rw [hinserting]
      exact Nat.lt_succ_self _
  | write kv text input hwriting =>
      rw [hwriting]
      exact Nat.lt_succ_self _
  | report what hcaught =>
      rw [hcaught]
      exact Nat.one_pos
  | crash written hup hdefined =>
      cases hprocess : s.process <;>
        first | exact absurd hprocess hup | exact absurd hprocess hdefined | exact Nat.succ_pos _

end Ends

section Restarts

variable {s : State (Persistent Word Int) (Buckets hashing)} {actions : List Action}

theorem exists_related (hrun : (machine (rebuilt hashing)).Run ⟨none, .down, [], []⟩ actions s) :
    ∃ x, (machine finite).Run ⟨none, .down, [], []⟩ (actions.filter Action.visible) x ∧
      Related s x := by
  have hstart : Related (⟨none, .down, [], []⟩ : State (Persistent Word Int) (Buckets hashing))
      ⟨none, .down, [], []⟩ := ⟨.missing, rfl, trivial, rfl, rfl⟩
  exact run_related hstart hrun

/-- Whatever is typed, session after session and crash after crash, the program prints what
it would with a map, keeps the map, and every session ends. -/
theorem restarts_refine (hashing : Hashing Word) (actions : List Action)
    (s : State (Persistent Word Int) (Buckets hashing))
    (hrun : (machine (rebuilt hashing)).Run ⟨none, .down, [], []⟩ actions s) :
    (∃ x, (machine finite).Run ⟨none, .down, [], []⟩ (actions.filter Action.visible) x ∧
      Related s x) ∧
    (s.process ≠ .down → ∀ failure,
      ∃ action ∈ s.process.next failure, ∃ t, (machine (rebuilt hashing)).step s action t) ∧
    ∀ more t, (machine (rebuilt hashing)).Run s more t → (∀ action ∈ more, ¬ action.Starts) →
      more.length ≤ s.process.rank := by
  obtain ⟨x, hx, hrelated⟩ := exists_related hrun
  refine ⟨⟨x, hx, hrelated⟩, hrelated.progress, fun more t hmore hstarts => ?_⟩
  exact hmore.length_le_rank (fun s => s.process.rank) (fun action => ¬ action.Starts)
    (fun _ _ _ => rank_moves) hstarts

def byLength : Hashing Word := ⟨List.length, 10, by decide⟩

/-- Killed between the commit of a `put` and the insertion, and started again. -/
def killedPut : List Action :=
  [.start ['p', 'u', 't', ' ', 'k', ' ', '1'], .test none, .construct, .write, .turn none,
    .crash 0, .start ['g', 'e', 't', ' ', 'k'], .test none, .construct, .write, .turn none]

theorem restarts_refine_killedPut : ∃ (s : State (Persistent Word Int) (Buckets byLength))
    (x : State (Word → Option Int) Unit),
    (machine finite).Run ⟨none, .down, [], []⟩ killedPut x ∧ Related s x ∧
    s.root = some ⟨[1], [['k']]⟩ ∧ x.process = .writing () ['1', '\n'] ⟨[], false⟩ := by
  have hrun : (machine (rebuilt byLength)).Run ⟨none, .down, [], []⟩ killedPut _ :=
    .cons (.start _ rfl) <| .cons (.create none _ rfl rfl) <| .cons (.construct _ _ rfl rfl) <|
    .cons (.write _ _ _ rfl) <| .cons (.turn none _ _ _ rfl rfl) <|
    .cons (.crash 0 (fun hdown => by cases hdown) (fun hbad => by cases hbad)) <|
    .cons (.start _ rfl) <| .cons (.found none _ _ rfl rfl) <| .cons (.construct _ _ rfl rfl) <|
    .cons (.write _ _ _ rfl) <| .cons (.turn none _ _ _ rfl rfl) <| .nil _
  obtain ⟨⟨x, hx, hrelated⟩, _⟩ := restarts_refine byLength _ _ hrun
  exact ⟨_, x, hx, hrelated, rfl, hrelated.process⟩

end Restarts

end SpackPlayground.KeyValue.Prompt
