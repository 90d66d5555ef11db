import Mathlib.Data.List.Basic

/-! Histories: lists of events, oldest first, that grow at their end. -/
namespace SpackPlayground.Library.History

variable {Event : Type*} {history before after : List Event} {event other : Event}

theorem append_singleton_eq_iff : history ++ [event] = before ++ other :: after ↔
    (history = before ∧ event = other ∧ after = []) ∨
      ∃ rest, after = rest ++ [event] ∧ history = before ++ other :: rest := by
  constructor
  · intro hsplit
    cases List.eq_nil_or_concat after with
    | inl hnil =>
        subst hnil
        obtain ⟨hbefore, hevent⟩ := List.append_inj' hsplit rfl
        exact .inl ⟨hbefore, List.singleton_inj.mp hevent, rfl⟩
    | inr hconcat =>
        obtain ⟨rest, last, rfl⟩ := hconcat
        have hsplit : history ++ [event] = (before ++ other :: rest) ++ [last] := by
          simpa using hsplit
        obtain ⟨hhistory, hlast⟩ := List.append_inj' hsplit rfl
        exact .inr ⟨rest, by rw [List.singleton_inj.mp hlast]; simp, hhistory⟩
  · intro hcases
    cases hcases with
    | inl hnew =>
        obtain ⟨rfl, rfl, rfl⟩ := hnew
        rfl
    | inr hold =>
        obtain ⟨rest, rfl, rfl⟩ := hold
        simp

theorem getElem?_append_singleton_eq_some {i : Nat} : (history ++ [event])[i]? = some other ↔
    history[i]? = some other ∨ (i = history.length ∧ event = other) := by
  cases Nat.lt_trichotomy i history.length with
  | inl hlt =>
      rw [List.getElem?_append_left hlt]
      simp [Nat.ne_of_lt hlt]
  | inr hge =>
      rw [List.getElem?_eq_none (l := history) (by omega)]
      cases hge with
      | inl heq =>
          subst heq
          simp
      | inr hgt =>
          rw [List.getElem?_eq_none (by simp; omega)]
          simp [Nat.ne_of_gt hgt]

def Latest (p : Event → Prop) (history : List Event) (event : Event) : Prop :=
  ∃ before after, history = before ++ event :: after ∧ p event ∧ ∀ later ∈ after, ¬ p later

variable {p : Event → Prop}

theorem not_latest_nil : ¬ Latest p [] event := by
  intro hlatest
  obtain ⟨before, after, hsplit, _⟩ := hlatest
  simp at hsplit

theorem latest_append_singleton : Latest p (history ++ [event]) other ↔
    (event = other ∧ p event) ∨ (¬ p event ∧ Latest p history other) := by
  unfold Latest
  simp only [append_singleton_eq_iff]
  constructor
  · intro hlatest
    obtain ⟨before, after, hnew | ⟨rest, rfl, hold⟩, hother, hafter⟩ := hlatest
    · exact .inl ⟨hnew.2.1, hnew.2.1 ▸ hother⟩
    · refine .inr ⟨hafter event (by simp), before, rest, hold, hother, fun later hlater => ?_⟩
      exact hafter later (List.mem_append_left _ hlater)
  · intro hcases
    cases hcases with
    | inl hnew =>
        obtain ⟨rfl, hevent⟩ := hnew
        exact ⟨history, [], .inl ⟨rfl, rfl, rfl⟩, hevent, by simp⟩
    | inr hold =>
        obtain ⟨hevent, before, rest, hsplit, hother, hrest⟩ := hold
        refine ⟨before, rest ++ [event], .inr ⟨rest, rfl, hsplit⟩, hother, ?_⟩
        intro later hlater
        cases List.mem_append.mp hlater with
        | inl hlater => exact hrest later hlater
        | inr hlater => rwa [List.mem_singleton.mp hlater]

/-- Each event met `q` when it was appended. -/
def EachWhen (q : List Event → Event → Prop) (history : List Event) : Prop :=
  ∀ before event after, history = before ++ event :: after → q before event

variable {q : List Event → Event → Prop}

theorem eachWhen_nil : EachWhen q [] := by
  intro before event after hsplit
  simp at hsplit

theorem EachWhen.append_singleton (heach : EachWhen q history) (hevent : q history event) :
    EachWhen q (history ++ [event]) := by
  intro before other after hsplit
  cases append_singleton_eq_iff.mp hsplit with
  | inl hnew =>
      obtain ⟨rfl, rfl, _⟩ := hnew
      exact hevent
  | inr hold =>
      obtain ⟨rest, _, hhistory⟩ := hold
      exact heach before other rest hhistory

/-- What each event had to meet when it was appended, read off the finished history. -/
theorem EachWhen.forall_iff
    (heach : EachWhen (fun before event => p event ↔ q before event) history) :
    (∀ event ∈ history, p event) ↔ EachWhen q history := by
  constructor
  · intro hall before event after hhistory
    apply (heach before event after hhistory).mp
    apply hall
    rw [hhistory]
    simp
  · intro hwhen event hevent
    obtain ⟨before, after, hhistory⟩ := List.append_of_mem hevent
    exact (heach before event after hhistory).mpr (hwhen before event after hhistory)

theorem eachWhen_append_singleton_iff :
    EachWhen q (history ++ [event]) ↔ EachWhen q history ∧ q history event := by
  constructor
  · intro heach
    constructor
    · intro before other after hhistory
      apply heach before other (after ++ [event])
      rw [hhistory]
      simp
    · exact heach history event [] rfl
  · intro hboth
    exact hboth.1.append_singleton hboth.2

end SpackPlayground.Library.History
