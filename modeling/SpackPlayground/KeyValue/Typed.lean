import SpackPlayground.KeyValue.Sessions

/-! What a session does with commands as they are meant to be typed. -/
namespace SpackPlayground.KeyValue.Prompt

open Library Library.HashIndex Library.Transition Store

inductive Command where
  | put (key : Word) (val : Int)
  | get (key : Word)
  | exit
  /-- A word that is no command. -/
  | other (word : Word)

namespace Command

def words : Command → List Word
  | put key val => ["put".toList, key, InputStream.spell val]
  | get key => ["get".toList, key]
  | exit => ["exit".toList]
  | other word => [word]

def Proper : Command → Prop
  | put .. | get _ | exit => True
  | other word => word ≠ "get".toList ∧ word ≠ "put".toList ∧ word ≠ "exit".toList

end Command

structure Transcript where
  map : Word → Option Int
  out : List Char
  err : List Char

def Transcript.behind (text : List Char) (t : Transcript) : Transcript :=
  { t with out := text ++ t.out }

/-- The loop on `map`. It ends at `exit`, at a key that is not there, at a number that is
no `int`, or with the text. -/
def transcript : List Command → (Word → Option Int) → Transcript
  | [], map => ⟨map, [], []⟩
  | .put key val :: script, map =>
      if intMin ≤ val ∧ val ≤ intMax then transcript script (Function.update map key (some val))
      else ⟨map, usage, []⟩
  | .get key :: script, map =>
      match map key with
      | some val => (transcript script map).behind (line (InputStream.spell val))
      | none => ⟨map, [], line "no entry in simplekv".toList⟩
  | .exit :: _, map => ⟨map, [], []⟩
  | .other _ :: script, map => (transcript script map).behind usage

def Action.Commits : Action → Prop
  | test failure | turn failure => failure = none
  | construct | insert | write | report => True
  | start _ | crash _ => False

section Turns

variable (x : State (Word → Option Int) Unit) (map : Word → Option Int) {text : List Char}
  {words : List Word} {key : Word} {val : Int}

theorem turn_nil (hwords : InputStream.Words [] text) :
    turn finite none x map () ⟨text, false⟩ = { x with process := .down } := by
  simp only [turn, hwords.extractString_nil]

private theorem turn_failed (text : List Char) :
    turn finite none x map () ⟨text, true⟩ = { x with process := .down } := by
  simp only [turn, InputStream.extractString_failed]

private theorem turn_put (hval : intMin ≤ val ∧ val ≤ intMax)
    (hwords : InputStream.Words ("put".toList :: key :: InputStream.spell val :: words) text) :
    ∃ rest, InputStream.Words words rest ∧ turn finite none x map () ⟨text, false⟩ =
      { x with root := some (Function.update map key (some val))
               process := .prompting () ⟨rest, false⟩ } := by
  obtain ⟨_, hop, hbehind⟩ := hwords.extractString_cons
  obtain ⟨_, hkey, hnumber⟩ := hbehind.extractString_cons
  obtain ⟨rest, hint, hrest⟩ := hnumber.extractInt_cons hval.1 hval.2
  have hne : "put".toList ≠ "get".toList := by decide
  refine ⟨rest, hrest, ?_⟩
  simp only [turn, hop, obey, if_neg hne, if_pos, hkey, hint]
  rfl

private theorem turn_put_out (hval : ¬ (intMin ≤ val ∧ val ≤ intMax))
    (hwords : InputStream.Words ("put".toList :: key :: InputStream.spell val :: words) text) :
    ∃ rest, turn finite none x map () ⟨text, false⟩ =
      { x with process := .writing () usage ⟨rest, true⟩ } := by
  obtain ⟨_, hop, hbehind⟩ := hwords.extractString_cons
  obtain ⟨_, hkey, hnumber⟩ := hbehind.extractString_cons
  obtain ⟨bound, rest, hint⟩ := hnumber.extractInt_out hval
  have hne : "put".toList ≠ "get".toList := by decide
  refine ⟨rest, ?_⟩
  simp only [turn, hop, obey, if_neg hne, if_pos, hkey, hint]

private theorem turn_get (hwords : InputStream.Words ("get".toList :: key :: words) text) :
    ∃ rest, InputStream.Words words rest ∧ turn finite none x map () ⟨text, false⟩ =
      { x with process := .answered none () ⟨rest, false⟩ (answer (map key)) } := by
  obtain ⟨_, hop, hbehind⟩ := hwords.extractString_cons
  obtain ⟨rest, hkey, hrest⟩ := hbehind.extractString_cons
  refine ⟨rest, hrest, ?_⟩
  simp only [turn, hop, obey, if_pos, hkey]
  rfl

theorem turn_exit (hwords : InputStream.Words ("exit".toList :: words) text) :
    turn finite none x map () ⟨text, false⟩ = { x with process := .down } := by
  obtain ⟨_, hop, _⟩ := hwords.extractString_cons
  have hget : "exit".toList ≠ "get".toList := by decide
  have hput : "exit".toList ≠ "put".toList := by decide
  simp only [turn, hop, obey, if_neg hget, if_neg hput, if_pos]

private theorem turn_other {word : Word} (hproper : (Command.other word).Proper)
    (hwords : InputStream.Words (word :: words) text) :
    ∃ rest, InputStream.Words words rest ∧ turn finite none x map () ⟨text, false⟩ =
      { x with process := .writing () usage ⟨rest, false⟩ } := by
  obtain ⟨hget, hput, hexit⟩ := hproper
  obtain ⟨rest, hop, hrest⟩ := hwords.extractString_cons
  refine ⟨rest, hrest, ?_⟩
  simp only [turn, hop, obey, if_neg hget, if_neg hput, if_neg hexit]

end Turns

section Runs

variable {D R : Type} {map : Interface D R} {s s' t u : State D R} {action other : Action}
  {actions : List Action}

/-- A run to the end of a session without a crash or a failed transaction. -/
structure Completes (map : Interface D R) (s : State D R) (actions : List Action)
    (s' : State D R) : Prop where
  run : (machine map).Run s actions s'
  commits : ∀ action ∈ actions, action.Commits
  ended : s'.process = .down

theorem Completes.cons (hstep : (machine map).step s action t) (hcommits : action.Commits)
    (hcompletes : Completes map t actions s') : Completes map s (action :: actions) s' where
  run := .cons hstep hcompletes.run
  commits next hnext := by
    cases List.mem_cons.mp hnext with
    | inl heq => exact heq ▸ hcommits
    | inr hmem => exact hcompletes.commits next hmem
  ended := hcompletes.ended

theorem completes_down (hdown : s.process = .down) : Completes map s [] s :=
  ⟨.nil s, by simp, hdown⟩

theorem not_starts_of_commits (hcommits : action.Commits) : ¬ action.Starts := by
  cases action with
  | start => exact absurd hcommits id
  | test | construct | turn | insert | write | report | crash => exact id

/-- Where a process goes without crashes and failures. -/
def advance (map : Interface D R) (s : State D R) : Option (State D R) :=
  match s.process, s.root with
  | .opened input, none => some (create map none s input)
  | .opened input, some _ => some { s with process := .constructing input }
  | .constructing input, some data => some (construct map s data input)
  | .prompting kv input, some data => some (turn map none s data kv input)
  | .inserting kv key input, some data =>
      some { s with process := .prompting (map.insert kv data key) input }
  | .writing kv text input, _ =>
      some { s with process := .prompting kv input, out := s.out ++ text }
  | .caught what, _ => some { s with process := .down, err := s.err ++ line what }
  | _, _ => none

theorem advance_of_moves (hmoves : Moves map s action t) (hcommits : action.Commits) :
    advance map s = some t := by
  cases hmoves with
  | start | crash => cases hcommits
  | create failure input hopened hroot =>
      cases hcommits
      simp only [advance, hopened, hroot]
  | found failure input data hopened hroot => simp only [advance, hopened, hroot]
  | construct input data hconstructing hroot => simp only [advance, hconstructing, hroot]
  | turn failure kv input data hprompting hroot =>
      cases hcommits
      simp only [advance, hprompting, hroot]
  | insert kv key input data hinserting hroot => simp only [advance, hinserting, hroot]
  | write kv text input hwriting => simp only [advance, hwriting]
  | report what hcaught => simp only [advance, hcaught]

theorem Completes.unique {others : List Action} {t' : State D R}
    (hcompletes : Completes map s actions s') (hother : Completes map s others t') : s' = t' := by
  refine hcompletes.run.ends_eq Action.Commits (fun s => s.process = .down) ?_ ?_
    hcompletes.commits hcompletes.ended hother.run hother.commits hother.ended
  · intro s action t other u hcommits hcommits' hmoves hmoves'
    exact Option.some_inj.mp
      ((advance_of_moves hmoves hcommits).symm.trans (advance_of_moves hmoves' hcommits'))
  · intro s action t hdown hcommits hmoves
    have hadvance := advance_of_moves hmoves hcommits
    simp [advance, hdown] at hadvance

end Runs

section Scripts

variable {x : State (Word → Option Int) Unit} {map : Word → Option Int} {text : List Char}

def State.after (x : State (Word → Option Int) Unit) (t : Transcript) :
    State (Word → Option Int) Unit :=
  ⟨some t.map, .down, x.out ++ t.out, x.err ++ t.err⟩

theorem after_behind (x : State (Word → Option Int) Unit) (text : List Char) (t : Transcript) :
    { x with out := x.out ++ text }.after t = x.after (t.behind text) := by
  simp only [State.after, Transcript.behind, List.append_assoc]

private theorem after_nil (hroot : x.root = some map) :
    x.after ⟨map, [], []⟩ = { x with process := .down } := by
  simp only [State.after, List.append_nil, hroot]

theorem exists_completes_writing {shown : List Char} {input : InputStream} {t : Transcript}
    (hwriting : x.process = .writing () shown input)
    (hrest : ∃ actions, Completes finite
      { x with process := .prompting () input, out := x.out ++ shown } actions
      ({ x with out := x.out ++ shown }.after t)) :
    ∃ actions, Completes finite x actions (x.after (t.behind shown)) := by
  obtain ⟨actions, hcompletes⟩ := hrest
  rw [after_behind] at hcompletes
  exact ⟨_, hcompletes.cons (.write () shown input hwriting) trivial⟩

theorem exists_completes_end {input : InputStream} (hprompting : x.process = .prompting () input)
    (hroot : x.root = some map)
    (hturn : turn finite none x map () input = { x with process := .down }) :
    ∃ actions, Completes finite x actions (x.after ⟨map, [], []⟩) := by
  have hstep : Moves finite x (.turn none) _ := .turn none () input map hprompting hroot
  rw [hturn] at hstep
  rw [after_nil hroot]
  exact ⟨_, (completes_down rfl).cons hstep rfl⟩

/-- By induction on the script; the words of its first command are read in one turn. -/
private theorem exists_completes_script (script : List Command)
    (hproper : ∀ command ∈ script, command.Proper)
    (hwords : InputStream.Words (script.flatMap Command.words) text)
    (hprompting : x.process = .prompting () ⟨text, false⟩) (hroot : x.root = some map) :
    ∃ actions, Completes finite x actions (x.after (transcript script map)) := by
  induction script generalizing x text map with
  | nil => exact exists_completes_end hprompting hroot (turn_nil x map hwords)
  | cons command script ih =>
      have hfirst := hproper command List.mem_cons_self
      have hscript := fun command hmem => hproper command (List.mem_cons_of_mem _ hmem)
      have hstep : Moves finite x (.turn none) _ := .turn none () _ map hprompting hroot
      cases command with
      | put key val =>
          by_cases hval : intMin ≤ val ∧ val ≤ intMax
          · obtain ⟨rest, hmore, hturn⟩ := turn_put x map hval hwords
            rw [hturn] at hstep
            obtain ⟨actions, hrest⟩ :=
              ih (x := { x with root := _, process := _ }) hscript hmore rfl rfl
            rw [transcript, if_pos hval]
            exact ⟨_, hrest.cons hstep rfl⟩
          · obtain ⟨rest, hturn⟩ := turn_put_out x map hval hwords
            rw [hturn] at hstep
            obtain ⟨actions, hrest⟩ := exists_completes_writing (x := { x with process := _ }) rfl
              (exists_completes_end rfl hroot (turn_failed _ map rest))
            rw [transcript, if_neg hval]
            rw [Transcript.behind, List.append_nil] at hrest
            exact ⟨_, hrest.cons hstep rfl⟩
      | get key =>
          obtain ⟨rest, hmore, hturn⟩ := turn_get x map hwords
          rw [hturn] at hstep
          cases hkey : map key with
          | none =>
              rw [hkey] at hstep
              have hreport : Moves finite { x with process := _ } .report _ :=
                .report "no entry in simplekv".toList rfl
              have hlast := (completes_down rfl).cons hreport trivial
              simp only [transcript, hkey, State.after, List.append_nil, ← hroot]
              exact ⟨_, hlast.cons hstep rfl⟩
          | some val =>
              rw [hkey] at hstep
              obtain ⟨actions, hrest⟩ := exists_completes_writing (x := { x with process := _ })
                rfl (ih hscript hmore rfl hroot)
              simp only [transcript, hkey]
              exact ⟨_, hrest.cons hstep rfl⟩
      | exit => exact exists_completes_end hprompting hroot (turn_exit x map hwords)
      | other word =>
          obtain ⟨rest, hmore, hturn⟩ := turn_other x map hfirst hwords
          rw [hturn] at hstep
          obtain ⟨actions, hrest⟩ := exists_completes_writing (x := { x with process := _ })
            rfl (ih hscript hmore rfl hroot)
          exact ⟨_, hrest.cons hstep rfl⟩

theorem exists_completes_constructing (script : List Command)
    (hproper : ∀ command ∈ script, command.Proper)
    (hwords : InputStream.Words (script.flatMap Command.words) text)
    (hconstructing : x.process = .constructing ⟨text, false⟩) (hroot : x.root = some map) :
    ∃ actions, Completes finite x actions (x.after ((transcript script map).behind usage)) := by
  have hstep : Moves finite x .construct _ := .construct _ map hconstructing hroot
  obtain ⟨actions, hrest⟩ := exists_completes_writing (x := { x with process := _ }) rfl
    (exists_completes_script script hproper hwords rfl hroot)
  exact ⟨_, hrest.cons hstep trivial⟩

private theorem exists_completes_opened (script : List Command)
    (hproper : ∀ command ∈ script, command.Proper)
    (hwords : InputStream.Words (script.flatMap Command.words) text)
    (hopened : x.process = .opened ⟨text, false⟩) :
    ∃ actions, Completes finite x actions
      (x.after ((transcript script (x.root.getD fun _ => none)).behind usage)) := by
  cases hroot : x.root with
  | none =>
      have hstep : Moves finite x (.test none) _ := .create none _ hopened hroot
      obtain ⟨actions, hrest⟩ := exists_completes_constructing
        (x := { x with root := _, process := _ }) script hproper hwords rfl rfl
      exact ⟨_, hrest.cons hstep rfl⟩
  | some map =>
      have hstep : Moves finite x (.test none) _ := .found none _ map hopened hroot
      obtain ⟨actions, hrest⟩ := exists_completes_constructing
        (x := { x with process := _ }) script hproper hwords rfl hroot
      exact ⟨_, hrest.cons hstep rfl⟩

end Scripts

section Sessions

variable {hashing : Hashing Word} {s s' : State (Persistent Word Int) (Buckets hashing)}
  {x : State (Word → Option Int) Unit} {actions : List Action}

theorem Related.stored_getD (hrelated : Related s x) :
    Stored (s.root.getD ⟨[], []⟩) (x.root.getD fun _ => none) := by
  have hroot := hrelated.root
  generalize s.root = root at hroot
  generalize x.root = map at hroot
  cases hroot with
  | missing => exact ⟨rfl, List.nodup_nil, represents_nil⟩
  | stored hstored => exact hstored

theorem Completes.finite (hrelated : Related s x)
    (hcompletes : Completes (rebuilt hashing) s actions s') :
    ∃ x', Completes finite x (actions.filter Action.visible) x' ∧ Related s' x' := by
  obtain ⟨x', hrun, hrelated'⟩ := run_related hrelated hcompletes.run
  refine ⟨x', ⟨hrun, fun action hmem => ?_, ?_⟩, hrelated'⟩
  · exact hcompletes.commits action (List.mem_of_mem_filter hmem)
  · rw [hrelated'.process, hcompletes.ended]
    rfl

private theorem commits_next {R : Type} {process : Process R} {action : Action}
    (hnext : action ∈ process.next none) : action.Commits := by
  cases process <;> cases hnext <;> first | rfl | trivial

theorem exists_completes (hs : (machine (rebuilt hashing)).Reachable s) :
    ∃ actions s', Completes (rebuilt hashing) s actions s' := by
  have hrank : ∀ s action t, (machine (rebuilt hashing)).Reachable s → action.Commits →
      (machine (rebuilt hashing)).step s action t → t.process.rank < s.process.rank :=
    fun _ _ _ _ hcommits hstep => rank_moves (not_starts_of_commits hcommits) hstep
  obtain ⟨actions, s', hcommits, hrun, hended⟩ := hs.completes (fun s => s.process.rank)
    Action.Commits (fun s => s.process = .down) hrank fun s hs hup => by
      obtain ⟨_, before, rfl, hrun⟩ := hs
      obtain ⟨x, _, hrelated⟩ := exists_related hrun
      obtain ⟨action, hnext, t, hstep⟩ := hrelated.progress hup none
      exact ⟨action, t, commits_next hnext, hstep⟩
  exact ⟨actions, s', hrun, hcommits, hended⟩

/-- Commands that are typed with any white space between them are carried out in order on
the map that the pool holds, and the session ends with their transcript. -/
theorem restart_typed (hashing : Hashing Word)
    (s : State (Persistent Word Int) (Buckets hashing))
    (hs : (machine (rebuilt hashing)).Reachable s) (hdown : s.process = .down) :
    ∃ map, Stored (s.root.getD ⟨[], []⟩) map ∧
      ∀ (script : List Command) (text : List Char), (∀ command ∈ script, command.Proper) →
        InputStream.Words (script.flatMap Command.words) text →
        ∃ t, (machine (rebuilt hashing)).step s (.start text) t ∧
          (∃ actions s', Completes (rebuilt hashing) t actions s') ∧
          ∀ actions s', Completes (rebuilt hashing) t actions s' →
            (∃ data, s'.root = some data ∧ Stored data (transcript script map).map) ∧
            s'.out = s.out ++ (usage ++ (transcript script map).out) ∧
            s'.err = s.err ++ (transcript script map).err := by
  obtain ⟨_, before, rfl, hrun⟩ := id hs
  obtain ⟨x, _, hrelated⟩ := exists_related hrun
  refine ⟨_, hrelated.stored_getD, fun script text hproper hwords => ?_⟩
  have hstep : (machine (rebuilt hashing)).step s (.start text) _ := .start text hdown
  refine ⟨_, hstep, exists_completes (hs.step hstep), fun actions s' hcompletes => ?_⟩
  have hopened : Related { s with process := .opened ⟨text, false⟩ }
      { x with process := .opened ⟨text, false⟩ } := hrelated.goes trivial
  obtain ⟨x', hfinite, hrelated'⟩ := hcompletes.finite hopened
  obtain ⟨_, hscript⟩ := exists_completes_opened (x := { x with process := _ }) script hproper
    hwords rfl
  have hx' := hfinite.unique hscript
  subst hx'
  refine ⟨?_, ?_, ?_⟩
  · have hroot := hrelated'.root
    generalize s'.root = root at hroot
    cases hroot with
    | stored hstored => exact ⟨_, rfl, hstored⟩
  · rw [← hrelated'.out, ← hrelated.out]
    rfl
  · rw [← hrelated'.err, ← hrelated.err]
    rfl

end Sessions

theorem restart_typed_putGet : ∃ t, (machine (rebuilt byLength)).step ⟨none, .down, [], []⟩
      (.start "put k 7 get k".toList) t ∧
    ∃ actions s', Completes (rebuilt byLength) t actions s' ∧
      s'.out = usage ++ line "7".toList ∧ s'.err = [] := by
  have hspell : InputStream.spell 7 = ['7'] := rfl
  have htext : "put k 7 get k".toList = [] ++ (['p', 'u', 't'] ++ ([' '] ++ (['k'] ++ ([' '] ++
      (InputStream.spell 7 ++ ([' '] ++ (['g', 'e', 't'] ++ ([' '] ++ (['k'] ++ []))))))))) := by
    simp [hspell]
  have hput : InputStream.IsWord "put".toList := ⟨by simp, by simp [InputStream.isSpace]⟩
  have hget : InputStream.IsWord "get".toList := ⟨by simp, by simp [InputStream.isSpace]⟩
  have hkey : InputStream.IsWord ['k'] := ⟨by simp, by simp [InputStream.isSpace]⟩
  have hblank : ∀ c ∈ [' '], InputStream.isSpace c = true := by simp [InputStream.isSpace]
  have hseparated (rest : List Char) : InputStream.Separated ([' '] ++ rest) := by
    simp [InputStream.Separated, InputStream.isSpace]
  have hwords : InputStream.Words ([.put ['k'] 7, .get ['k']].flatMap Command.words)
      "put k 7 get k".toList := by
    rw [htext]
    refine .cons (by simp) hput (hseparated _) ?_
    refine .cons hblank hkey (hseparated _) ?_
    refine .cons hblank (InputStream.isWord_spell 7) (hseparated _) ?_
    refine .cons hblank hget (hseparated _) ?_
    exact .cons hblank hkey (by simp [InputStream.Separated]) (.nil (by simp))
  obtain ⟨map, _, hsession⟩ := restart_typed byLength ⟨none, .down, [], []⟩
    (System.reachable_init rfl) rfl
  obtain ⟨t, hstep, ⟨actions, s', hcompletes⟩, hall⟩ := hsession _ _
    (by simp [Command.Proper]) hwords
  obtain ⟨_, hout, herr⟩ := hall actions s' hcompletes
  have hval : intMin ≤ 7 ∧ 7 ≤ intMax := by decide
  have htranscript : transcript [.put ['k'] 7, .get ['k']] map =
      (⟨Function.update map ['k'] (some 7), [], []⟩ : Transcript).behind (line ['7']) := by
    simp only [transcript, if_pos hval, Function.update_self, hspell]
  rw [htranscript] at hout herr
  refine ⟨t, hstep, actions, s', hcompletes, hout.trans ?_, herr⟩
  simp [Transcript.behind]

end SpackPlayground.KeyValue.Prompt
