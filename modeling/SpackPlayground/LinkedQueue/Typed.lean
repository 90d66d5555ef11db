import SpackPlayground.LinkedQueue.Sessions

/-! What a session does with commands as they are meant to be typed. -/
namespace SpackPlayground.LinkedQueue.Prompt

open Library Library.Transition

inductive Command where
  | push (value : Int)
  | pop
  | showAll
  | exit

namespace Command

def words : Command → List (List Char)
  | push value => ["push".toList, InputStream.spell value]
  | pop => ["pop".toList]
  | showAll => ["show".toList]
  | exit => ["exit".toList]

def Fits : Command → Prop
  | push value => intMin ≤ value ∧ value ≤ intMax
  | pop | showAll | exit => True

end Command

structure Transcript where
  queue : List Int
  out : List Char
  err : List Char

def Transcript.behind (text : List Char) (t : Transcript) : Transcript :=
  { t with out := text ++ t.out }

/-- A session on `contents`; it ends at `exit`, at a `pop` from the empty queue, or
with the text. -/
def transcript : List Command → List Int → Transcript
  | [], contents => ⟨contents, usage, line "unknown ops".toList⟩
  | .push value :: script, contents => (transcript script (contents ++ [value])).behind usage
  | .pop :: _, [] => ⟨[], usage, []⟩
  | .pop :: script, value :: contents =>
      (transcript script contents).behind (usage ++ line (InputStream.spell value))
  | .showAll :: script, contents =>
      (transcript script contents).behind (usage ++ line (contents.flatMap shown))
  | .exit :: _, contents => ⟨contents, usage, []⟩

def Action.Commits : Action → Prop
  | turn _ commits => commits = true
  | answer => True
  | start _ | crash _ => False

section Turns

variable {x x' : State (List Int)} {text : List Char} {words : List (List Char)} {node : Addr}

def State.on (x : State (List Int)) (contents : List Int) (process : Process) : State (List Int) :=
  { x with queue := contents, process := process, out := x.out ++ usage }

theorem turn_nil (hwords : InputStream.Words [] text) :
    turn values node true x ⟨text, false⟩ =
      { x with
        process := .down
        out := x.out ++ usage
        err := x.err ++ line "unknown ops".toList } := by
  simp only [turn, hwords.extractString_nil]
  rfl

private theorem turn_push {value : Int} (hfits : (Command.push value).Fits)
    (hwords : InputStream.Words ("push".toList :: InputStream.spell value :: words) text) :
    ∃ rest, InputStream.Words words rest ∧ turn values node true x ⟨text, false⟩ =
      x.on (x.queue ++ [value]) (.prompting ⟨rest, false⟩) := by
  obtain ⟨behind, hcommand, hvalue⟩ := hwords.extractString_cons
  obtain ⟨rest, hint, hrest⟩ := hvalue.extractInt_cons hfits.1 hfits.2
  have hop : parseQueueOps "push".toList = .push := by decide
  refine ⟨rest, hrest, ?_⟩
  simp only [turn, hcommand, Option.getD_some, hop, obey, hint]
  rfl

private theorem turn_pop (hwords : InputStream.Words ("pop".toList :: words) text) :
    ∃ rest, InputStream.Words words rest ∧ turn values node true x ⟨text, false⟩ =
      match x.queue with
      | [] => x.on [] .down
      | value :: contents =>
          x.on contents (.answering (line (InputStream.spell value)) ⟨rest, false⟩) := by
  obtain ⟨rest, hcommand, hrest⟩ := hwords.extractString_cons
  have hop : parseQueueOps "pop".toList = .pop := by decide
  refine ⟨rest, hrest, ?_⟩
  simp only [turn, hcommand, Option.getD_some, hop, obey, values]
  cases x.queue <;> rfl

private theorem turn_showAll (hwords : InputStream.Words ("show".toList :: words) text) :
    ∃ rest, InputStream.Words words rest ∧ turn values node true x ⟨text, false⟩ =
      x.on x.queue (.answering (line (x.queue.flatMap shown)) ⟨rest, false⟩) := by
  obtain ⟨rest, hcommand, hrest⟩ := hwords.extractString_cons
  have hop : parseQueueOps "show".toList = .showAll := by decide
  refine ⟨rest, hrest, ?_⟩
  simp only [turn, hcommand, Option.getD_some, hop]
  rfl

theorem turn_exit (hwords : InputStream.Words ("exit".toList :: words) text) :
    turn values node true x ⟨text, false⟩ = x.on x.queue .down := by
  obtain ⟨rest, hcommand, _⟩ := hwords.extractString_cons
  have hop : parseQueueOps "exit".toList = .exit := by decide
  simp only [turn, hcommand, Option.getD_some, hop]
  rfl

end Turns

section Runs

variable {Q : Type} {queue : Interface Q} {q : Q} {s s' : State Q} {input : InputStream}
  {actions : List Action}

structure Completes (queue : Interface Q) (q : Q) (s : State Q) (actions : List Action)
    (s' : State Q) : Prop where
  run : (machine queue q).Run s actions s'
  commits : ∀ action ∈ actions, action.Commits
  ended : s'.process.rank = 0

theorem Completes.eq_of_down (hcompletes : Completes queue q s actions s')
    (hdown : s.process = .down) : s' = s := by
  obtain ⟨hrun, hcommits, _⟩ := hcompletes
  cases hrun with
  | nil => rfl
  | cons hstep _ =>
      have hfirst := hcommits _ List.mem_cons_self
      cases hstep with
      | start => cases hfirst
      | turn input _ _ hprompting => cases hdown.symm.trans hprompting
      | answer text input hanswering => cases hdown.symm.trans hanswering
      | crashPrompting | crashAnswering => cases hfirst

theorem Completes.turn (hcompletes : Completes queue q s actions s')
    (hprompting : s.process = .prompting input) :
    ∃ node rest, Completes queue q (turn queue node true s input) rest s' := by
  obtain ⟨hrun, hcommits, hended⟩ := hcompletes
  cases hrun with
  | nil =>
      rw [hprompting] at hended
      cases hended
  | cons hstep hrest =>
      have hfirst := hcommits _ List.mem_cons_self
      have hbehind := fun action hmem => hcommits action (List.mem_cons_of_mem _ hmem)
      cases hstep with
      | start => cases hfirst
      | turn input' node commits hprompting' =>
          cases hprompting.symm.trans hprompting'
          cases hfirst
          exact ⟨node, _, hrest, hbehind, hended⟩
      | answer text input hanswering => cases hprompting.symm.trans hanswering
      | crashPrompting | crashAnswering => cases hfirst

theorem Completes.answer {text : List Char} (hcompletes : Completes queue q s actions s')
    (hanswering : s.process = .answering text input) :
    ∃ rest, Completes queue q { s with process := .prompting input, out := s.out ++ text } rest
      s' := by
  obtain ⟨hrun, hcommits, hended⟩ := hcompletes
  cases hrun with
  | nil =>
      rw [hanswering] at hended
      cases hended
  | cons hstep hrest =>
      have hfirst := hcommits _ List.mem_cons_self
      have hbehind := fun action hmem => hcommits action (List.mem_cons_of_mem _ hmem)
      cases hstep with
      | start => cases hfirst
      | turn input' node commits hprompting => cases hanswering.symm.trans hprompting
      | answer text' input' hanswering' =>
          cases hanswering.symm.trans hanswering'
          exact ⟨_, hrest, hbehind, hended⟩
      | crashPrompting | crashAnswering => cases hfirst

end Runs

section Scripts

variable {x x' : State (List Int)} {text : List Char} {actions : List Action}

def State.after (x : State (List Int)) (t : Transcript) : State (List Int) :=
  ⟨t.queue, .down, x.out ++ t.out, x.err ++ t.err⟩

theorem after_behind (x : State (List Int)) (text : List Char) (t : Transcript) :
    x.after (t.behind text) = { x with out := x.out ++ text }.after t := by
  simp only [State.after, Transcript.behind, List.append_assoc]

/-- By induction on the script; the words of its first command are read in one turn. -/
private theorem completes_values (script : List Command) (hfits : ∀ command ∈ script, command.Fits)
    (hwords : InputStream.Words (script.flatMap Command.words) text)
    (hprompting : x.process = .prompting ⟨text, false⟩)
    (hcompletes : Completes values [] x actions x') :
    x' = x.after (transcript script x.queue) := by
  induction script generalizing x text actions with
  | nil =>
      obtain ⟨node, _, hrest⟩ := hcompletes.turn hprompting
      rw [turn_nil hwords] at hrest
      exact hrest.eq_of_down rfl
  | cons command script ih =>
      have hfirst := hfits command List.mem_cons_self
      have hscript := fun command hmem => hfits command (List.mem_cons_of_mem _ hmem)
      obtain ⟨node, _, hrest⟩ := hcompletes.turn hprompting
      cases command with
      | push value =>
          obtain ⟨text, hmore, hturn⟩ := turn_push hfirst hwords
          rw [hturn] at hrest
          rw [ih hscript hmore rfl hrest]
          exact (after_behind x usage _).symm
      | pop =>
          obtain ⟨text, hmore, hturn⟩ := turn_pop hwords
          rw [hturn] at hrest
          cases hqueue : x.queue with
          | nil =>
              rw [hqueue] at hrest
              rw [hrest.eq_of_down rfl]
              simp [State.on, State.after, transcript]
          | cons value contents =>
              rw [hqueue] at hrest
              obtain ⟨_, hanswered⟩ := hrest.answer rfl
              rw [ih hscript hmore rfl hanswered]
              have hbehind := after_behind x (usage ++ line (InputStream.spell value))
                (transcript script contents)
              rw [← List.append_assoc] at hbehind
              exact hbehind.symm
      | showAll =>
          obtain ⟨text, hmore, hturn⟩ := turn_showAll hwords
          rw [hturn] at hrest
          obtain ⟨_, hanswered⟩ := hrest.answer rfl
          rw [ih hscript hmore rfl hanswered]
          have hbehind := after_behind x (usage ++ line (x.queue.flatMap shown))
            (transcript script x.queue)
          rw [← List.append_assoc] at hbehind
          exact hbehind.symm
      | exit =>
          rw [turn_exit hwords] at hrest
          rw [hrest.eq_of_down rfl]
          simp [State.on, State.after, transcript]

end Scripts

section Sessions

variable {s s' : State (Queue Int)} {actions : List Action}

theorem Completes.values {x : State (List Int)} (hrelated : Related s x)
    (hcompletes : Completes linked empty s actions s') :
    ∃ x', Completes values [] x actions x' ∧ Related s' x' := by
  obtain ⟨x', hrun, hrelated'⟩ := run_related hrelated hcompletes.run
  exact ⟨x', ⟨hrun, hcompletes.commits, hrelated'.process ▸ hcompletes.ended⟩, hrelated'⟩

theorem not_starts_of_commits {action : Action} (hcommits : action.Commits) :
    ¬ action.Starts := by
  cases action with
  | start => exact absurd hcommits id
  | turn | answer | crash => exact id

private theorem exists_commits_step (hopen : s.process.rank ≠ 0) :
    ∃ action s', action.Commits ∧ (machine linked empty).step s action s' := by
  cases hprocess : s.process with
  | down | undefined => exact absurd (congrArg Process.rank hprocess) hopen
  | prompting input =>
      obtain ⟨node, hstep⟩ := exists_turn hprocess
      obtain ⟨s', hturn⟩ := hstep true
      exact ⟨.turn node true, s', rfl, hturn⟩
  | answering text input => exact ⟨.answer, _, trivial, .answer text input hprocess⟩

theorem exists_completes (hs : (machine linked empty).Reachable s) :
    ∃ actions s', Completes linked empty s actions s' := by
  have hrank : ∀ s action t, (machine linked empty).Reachable s → action.Commits →
      (machine linked empty).step s action t → t.process.rank < s.process.rank :=
    fun _ _ _ _ hcommits hstep => rank_moves (not_starts_of_commits hcommits) hstep
  obtain ⟨actions, s', hcommits, hrun, hended⟩ := hs.completes (fun s => s.process.rank)
    Action.Commits (fun s => s.process.rank = 0) hrank fun _ _ => exists_commits_step
  exact ⟨actions, s', hrun, hcommits, hended⟩

/-- Commands that are typed with any white space between them are carried out in order,
and the session ends with their transcript. -/
theorem session_typed (s : State (Queue Int)) (hs : (machine linked empty).Reachable s)
    (hdown : s.process = .down) (contents : List Int) (hcontains : Contains s.queue contents)
    (script : List Command) (hfits : ∀ command ∈ script, command.Fits) (text : List Char)
    (hwords : InputStream.Words (script.flatMap Command.words) text) :
    ∃ t, (machine linked empty).step s (.start text) t ∧
      (∃ actions s', Completes linked empty t actions s') ∧
      ∀ actions s', Completes linked empty t actions s' →
        s'.process = .down ∧ Contains s'.queue (transcript script contents).queue ∧
        s'.out = s.out ++ (transcript script contents).out ∧
        s'.err = s.err ++ (transcript script contents).err := by
  have hstart : (machine linked empty).step s (.start text) _ := .start text hdown
  refine ⟨_, hstart, exists_completes (hs.step hstart), fun actions s' hcompletes => ?_⟩
  have hrelated : Related { s with process := .prompting ⟨text, false⟩ }
      ⟨contents, .prompting ⟨text, false⟩, s.out, s.err⟩ := ⟨hcontains, rfl, rfl, rfl⟩
  obtain ⟨x', hvalues, hrelated'⟩ := hcompletes.values hrelated
  have hx' := completes_values script hfits hwords rfl hvalues
  subst hx'
  exact ⟨hrelated'.process, hrelated'.queue, hrelated'.out, hrelated'.err⟩

end Sessions

theorem session_typed_twoCommands : ∃ t,
    (machine linked empty).step ⟨empty, .down, [], []⟩ (.start "push -5\n pop".toList) t ∧
    ∃ actions s', Completes linked empty t actions s' ∧ Contains s'.queue [] ∧
      s'.out = usage ++ (usage ++ line "-5".toList ++ usage) := by
  have hspell : InputStream.spell (-5) = ['-', '5'] := rfl
  have htext : "push -5\n pop".toList = [] ++ (['p', 'u', 's', 'h'] ++ ([' '] ++
      (InputStream.spell (-5) ++ (['\n', ' '] ++ (['p', 'o', 'p'] ++ []))))) := by simp [hspell]
  have hpush : InputStream.IsWord "push".toList := ⟨by simp, by simp [InputStream.isSpace]⟩
  have hpop : InputStream.IsWord "pop".toList := ⟨by simp, by simp [InputStream.isSpace]⟩
  have hwords : InputStream.Words ([.push (-5), .pop].flatMap Command.words)
      "push -5\n pop".toList := by
    rw [htext]
    refine .cons (by simp) hpush (by rintro c ⟨⟩; rfl) ?_
    refine .cons (by simp [InputStream.isSpace]) (InputStream.isWord_spell (-5))
      (by rintro c ⟨⟩; rfl) ?_
    exact .cons (by simp [InputStream.isSpace]) hpop (by simp [InputStream.Separated])
      (.nil (by simp))
  obtain ⟨t, hstep, ⟨actions, s', hcompletes⟩, hall⟩ := session_typed ⟨empty, .down, [], []⟩
    (System.reachable_init rfl) rfl [] ⟨[], shape_empty, rfl⟩ [.push (-5), .pop]
    (by simp [Command.Fits, intMin, intMax]) _ hwords
  obtain ⟨_, hqueue, hout, _⟩ := hall actions s' hcompletes
  exact ⟨t, hstep, actions, s', hcompletes, hqueue, hout⟩

end SpackPlayground.LinkedQueue.Prompt
