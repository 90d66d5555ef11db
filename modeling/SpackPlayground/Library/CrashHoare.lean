import Mathlib.Logic.Basic

/-! Programs that call commands one after the other, on a state that changes by itself
in between, and triples that also say what holds wherever such a program may be cut off. -/
namespace SpackPlayground.Library.CrashHoare

/-- A result, or a command and what each of its answers leads to. -/
inductive Prog (Cmd : Type → Type) (α : Type) : Type 1 where
  | done (x : α)
  | call {β : Type} (cmd : Cmd β) (next : β → Prog Cmd α)

variable {Cmd : Type → Type} {State α β γ : Type}

def Prog.bind : Prog Cmd α → (α → Prog Cmd γ) → Prog Cmd γ
  | done x, f => f x
  | call cmd next, f => call cmd fun y => (next y).bind f

/-- What a command answers and does, and how the state drifts between two commands. -/
structure Semantics (Cmd : Type → Type) (State : Type) where
  exec : {β : Type} → Cmd β → State → β → State → Prop
  drift : State → State → Prop

variable {sem : Semantics Cmd State}

/-- The part of a run from `p` in `s` to `q` in `t`. -/
inductive Reaches (sem : Semantics Cmd State) :
    Prog Cmd α → State → Prog Cmd α → State → Prop where
  | refl (p : Prog Cmd α) (s : State) : Reaches sem p s p s
  | drift {p q : Prog Cmd α} {s t u : State} : sem.drift s t → Reaches sem p t q u →
      Reaches sem p s q u
  | call {β : Type} {cmd : Cmd β} {next : β → Prog Cmd α} {q : Prog Cmd α} {x : β}
      {s t u : State} : sem.exec cmd s x t → Reaches sem (next x) t q u →
      Reaches sem (.call cmd next) s q u

theorem Reaches.trans {p q r : Prog Cmd α} {s t u : State} (hfirst : Reaches sem p s q t)
    (hsecond : Reaches sem q t r u) : Reaches sem p s r u := by
  induction hfirst with
  | refl => exact hsecond
  | drift hdrift _ ih => exact .drift hdrift (ih hsecond)
  | call hexec _ ih => exact .call hexec (ih hsecond)

/-- A run of a sequence is in its first part, or has come through it. -/
theorem reaches_bind {p : Prog Cmd α} {f : α → Prog Cmd γ} {q : Prog Cmd γ} {s u : State}
    (hreaches : Reaches sem (p.bind f) s q u) :
    (∃ p', Reaches sem p s p' u ∧ q = p'.bind f) ∨
      ∃ x t, Reaches sem p s (.done x) t ∧ Reaches sem (f x) t q u := by
  generalize hprog : p.bind f = r at hreaches
  induction hreaches generalizing p with
  | refl r s => exact .inl ⟨p, .refl p s, hprog.symm⟩
  | drift hdrift _ ih =>
      obtain ⟨p', hp', hq⟩ | ⟨x, t, hx, hq⟩ := ih hprog
      · exact .inl ⟨p', .drift hdrift hp', hq⟩
      · exact .inr ⟨x, t, .drift hdrift hx, hq⟩
  | call hexec hrest ih =>
      cases p with
      | done x =>
          change f x = _ at hprog
          exact .inr ⟨x, _, .refl _ _, hprog ▸ .call hexec hrest⟩
      | call cmd next =>
          cases hprog
          obtain ⟨p', hp', hq⟩ | ⟨x, t, hx, hq⟩ := ih rfl
          · exact .inl ⟨p', .call hexec hp', hq⟩
          · exact .inr ⟨x, t, .call hexec hx, hq⟩

/-- Started where `pre` holds, the program leaves `cut` wherever it is cut off, and `post`
where it is done. -/
structure Triple (sem : Semantics Cmd State) (pre : State → Prop) (p : Prog Cmd α)
    (post : α → State → Prop) (cut : State → Prop) : Prop where
  cut : ∀ s q t, pre s → Reaches sem p s q t → cut t
  post : ∀ s x t, pre s → Reaches sem p s (.done x) t → post x t

def Stable (sem : Semantics Cmd State) (pre : State → Prop) : Prop :=
  ∀ s t, pre s → sem.drift s t → pre t

theorem Stable.and {pre pre' : State → Prop} (hstable : Stable sem pre)
    (hstable' : Stable sem pre') : Stable sem fun s => pre s ∧ pre' s :=
  fun s t hpre hdrift => ⟨hstable s t hpre.1 hdrift, hstable' s t hpre.2 hdrift⟩

section Rules

variable {pre pre' cut cut' : State → Prop} {post post' : α → State → Prop}

theorem reaches_done {x : α} {q : Prog Cmd α} {s t : State} (hstable : Stable sem pre)
    (hpre : pre s) (hreaches : Reaches sem (.done x) s q t) : q = .done x ∧ pre t := by
  generalize hprog : Prog.done x = p at hreaches
  induction hreaches with
  | refl => exact ⟨rfl, hpre⟩
  | drift hdrift _ ih => exact ih (hstable _ _ hpre hdrift) hprog
  | call => cases hprog

theorem Triple.done {x : α} (hstable : Stable sem pre) (hcut : ∀ s, pre s → cut s)
    (hpost : ∀ s, pre s → post x s) : Triple sem pre (.done x) post cut where
  cut s q t hpre hreaches := hcut t (reaches_done hstable hpre hreaches).2
  post s y t hpre hreaches := by
    obtain ⟨heq, ht⟩ := reaches_done hstable hpre hreaches
    cases heq
    exact hpost t ht

theorem reaches_call {cmd : Cmd β} {next : β → Prog Cmd α} {q : Prog Cmd α} {s u : State}
    (hstable : Stable sem pre) (hpre : pre s) (hreaches : Reaches sem (.call cmd next) s q u) :
    (q = .call cmd next ∧ pre u) ∨
      ∃ x r t, pre r ∧ sem.exec cmd r x t ∧ Reaches sem (next x) t q u := by
  generalize hprog : Prog.call cmd next = p at hreaches
  induction hreaches with
  | refl => exact .inl ⟨rfl, hpre⟩
  | drift hdrift _ ih => exact ih (hstable _ _ hpre hdrift) hprog
  | call hexec hrest _ =>
      cases hprog
      exact .inr ⟨_, _, _, hpre, hexec, hrest⟩

theorem Triple.call {cmd : Cmd β} {next : β → Prog Cmd α} (mid : β → State → Prop)
    (hstable : Stable sem pre) (hcut : ∀ s, pre s → cut s)
    (hexec : ∀ s x t, pre s → sem.exec cmd s x t → mid x t)
    (hnext : ∀ x, Triple sem (mid x) (next x) post cut) :
    Triple sem pre (.call cmd next) post cut where
  cut s q t hpre hreaches := by
    obtain ⟨_, ht⟩ | ⟨x, _, r, hr, hcmd, hrest⟩ := reaches_call hstable hpre hreaches
    · exact hcut t ht
    · exact (hnext x).cut r q t (hexec _ x r hr hcmd) hrest
  post s y t hpre hreaches := by
    obtain ⟨hcall, _⟩ | ⟨x, _, r, hr, hcmd, hrest⟩ := reaches_call hstable hpre hreaches
    · cases hcall
    · exact (hnext x).post r y t (hexec _ x r hr hcmd) hrest

theorem Triple.bind {p : Prog Cmd α} {f : α → Prog Cmd γ} {last : γ → State → Prop}
    (hfirst : Triple sem pre p post cut) (hnext : ∀ x, Triple sem (post x) (f x) last cut) :
    Triple sem pre (p.bind f) last cut where
  cut s q t hpre hreaches := by
    obtain ⟨p', hp', _⟩ | ⟨x, r, hx, hrest⟩ := reaches_bind hreaches
    · exact hfirst.cut s p' t hpre hp'
    · exact (hnext x).cut r q t (hfirst.post s x r hpre hx) hrest
  post s y t hpre hreaches := by
    obtain ⟨p', hp', hq⟩ | ⟨x, r, hx, hrest⟩ := reaches_bind hreaches
    · cases p' with
      | done x => exact (hnext x).post t y t (hfirst.post s x t hpre hp') (hq ▸ .refl _ _)
      | call => cases hq
    · exact (hnext x).post r y t (hfirst.post s x r hpre hx) hrest

theorem Triple.of_and {known : Prop} {p : Prog Cmd α}
    (htriple : known → Triple sem pre p post cut) :
    Triple sem (fun s => known ∧ pre s) p post cut where
  cut s q t hs hreaches := (htriple hs.1).cut s q t hs.2 hreaches
  post s x t hs hreaches := (htriple hs.1).post s x t hs.2 hreaches

theorem Triple.mono {p : Prog Cmd α} (htriple : Triple sem pre p post cut)
    (hpre : ∀ s, pre' s → pre s) (hpost : ∀ x s, post x s → post' x s)
    (hcut : ∀ s, cut s → cut' s) : Triple sem pre' p post' cut' where
  cut s q t hs hreaches := hcut t (htriple.cut s q t (hpre s hs) hreaches)
  post s x t hs hreaches := hpost x t (htriple.post s x t (hpre s hs) hreaches)

end Rules

end SpackPlayground.Library.CrashHoare
