import Mathlib.Data.List.Basic

/-! Regular expressions with groups. The matcher tries what a backtracking
engine tries, in that order; it finds a match when there is one. -/
namespace SpackPlayground.Library.Regex

inductive Pattern (α : Type*) where
  | item (p : α → Bool)
  | seq (first second : Pattern α)
  | alt (first second : Pattern α)
  | opt (body : Pattern α)
  | plus (body : Pattern α)
  | group (n : Nat) (body : Pattern α)

variable {α : Type*}

/-- The text of each group, as the groups were closed. -/
abbrev Captures (α : Type*) := List (Nat × List α)

structure Attempt (α : Type*) where
  text : List α
  rest : List α
  captures : Captures α

def Attempt.before (attempt next : Attempt α) : Attempt α where
  text := attempt.text ++ next.text
  rest := next.rest
  captures := attempt.captures ++ next.captures

/-- One or more rounds; a round that matches nothing is the last one. -/
def rounds (body : List α → List (Attempt α)) : Nat → List α → List (Attempt α)
  | 0, s => body s
  | fuel + 1, s => (body s).flatMap fun attempt =>
      if attempt.text = [] then [attempt]
      else (rounds body fuel attempt.rest).map attempt.before ++ [attempt]

/-- All attempts at the front of `s`, the preferred one first. -/
def attempts : Pattern α → List α → List (Attempt α)
  | .item p, s =>
      match s with
      | [] => []
      | x :: rest => if p x then [⟨[x], rest, []⟩] else []
  | .seq first second, s =>
      (attempts first s).flatMap fun attempt => (attempts second attempt.rest).map attempt.before
  | .alt first second, s => attempts first s ++ attempts second s
  | .opt body, s => attempts body s ++ [⟨[], s, []⟩]
  | .plus body, s => rounds (attempts body) s.length s
  | .group n body, s =>
      (attempts body s).map fun attempt =>
        { attempt with captures := attempt.captures ++ [(n, attempt.text)] }

def regexMatch (r : Pattern α) (s : List α) : Option (Captures α) :=
  ((attempts r s).find? fun attempt => attempt.rest.isEmpty).map Attempt.captures

def Captures.text (captures : Captures α) (n : Nat) : List α :=
  ((captures.findRev? fun capture => capture.1 = n).map Prod.snd).getD []

inductive Matches : Pattern α → List α → Captures α → Prop where
  | item {p : α → Bool} {x : α} : p x = true → Matches (.item p) [x] []
  | seq {first second : Pattern α} {s t : List α} {captures later : Captures α} :
      Matches first s captures → Matches second t later →
        Matches (.seq first second) (s ++ t) (captures ++ later)
  | left {first second : Pattern α} {s : List α} {captures : Captures α} :
      Matches first s captures → Matches (.alt first second) s captures
  | right {first second : Pattern α} {s : List α} {captures : Captures α} :
      Matches second s captures → Matches (.alt first second) s captures
  | absent {body : Pattern α} : Matches (.opt body) [] []
  | present {body : Pattern α} {s : List α} {captures : Captures α} :
      Matches body s captures → Matches (.opt body) s captures
  | once {body : Pattern α} {s : List α} {captures : Captures α} :
      Matches body s captures → Matches (.plus body) s captures
  | again {body : Pattern α} {s t : List α} {captures later : Captures α} :
      Matches body s captures → s ≠ [] → Matches (.plus body) t later →
        Matches (.plus body) (s ++ t) (captures ++ later)
  | group {n : Nat} {body : Pattern α} {s : List α} {captures : Captures α} :
      Matches body s captures → Matches (.group n body) s (captures ++ [(n, s)])

/-- `attempts` lists exactly the matches of the fronts of `s`. -/
def Correct (r : Pattern α) : Prop :=
  ∀ (s : List α) (attempt : Attempt α), attempt ∈ attempts r s ↔
    s = attempt.text ++ attempt.rest ∧ Matches r attempt.text attempt.captures

theorem append_before {s : List α} {attempt next : Attempt α}
    (hsplit : s = attempt.text ++ attempt.rest) (hnext : attempt.rest = next.text ++ next.rest) :
    s = (attempt.before next).text ++ (attempt.before next).rest := by
  rw [hsplit, hnext]
  simp [Attempt.before]

private theorem correct_item (p : α → Bool) : Correct (.item p) := by
  intro s attempt
  obtain ⟨text, rest, captures⟩ := attempt
  constructor
  · intro hmem
    cases s with
    | nil => simp [attempts] at hmem
    | cons x s =>
        simp only [attempts] at hmem
        split at hmem
        · obtain ⟨rfl, rfl, rfl⟩ := Attempt.mk.inj (List.mem_singleton.mp hmem)
          exact ⟨rfl, .item ‹_›⟩
        · cases hmem
  · intro hmatch
    obtain ⟨rfl, hmatch⟩ := hmatch
    cases hmatch with
    | item hp => simp [attempts, hp]

private theorem correct_seq {first second : Pattern α} (hfirst : Correct first)
    (hsecond : Correct second) :
    Correct (.seq first second) := by
  intro s attempt
  simp only [attempts, List.mem_flatMap, List.mem_map]
  constructor
  · intro hmem
    obtain ⟨before, hbefore, after, hafter, rfl⟩ := hmem
    have hbefore := (hfirst s before).mp hbefore
    have hafter := (hsecond before.rest after).mp hafter
    exact ⟨append_before hbefore.1 hafter.1, .seq hbefore.2 hafter.2⟩
  · intro hmatch
    obtain ⟨text, rest, captures⟩ := attempt
    obtain ⟨rfl, hmatch⟩ := hmatch
    cases hmatch with
    | @seq _ _ u v before after hbefore hafter =>
        exact ⟨⟨u, v ++ rest, before⟩, (hfirst ..).mpr ⟨by simp, hbefore⟩, ⟨v, rest, after⟩,
          (hsecond ..).mpr ⟨rfl, hafter⟩, rfl⟩

private theorem correct_alt {first second : Pattern α} (hfirst : Correct first)
    (hsecond : Correct second) :
    Correct (.alt first second) := by
  intro s attempt
  simp only [attempts, List.mem_append, hfirst s attempt, hsecond s attempt]
  constructor
  · intro hmem
    cases hmem with
    | inl hmem => exact ⟨hmem.1, .left hmem.2⟩
    | inr hmem => exact ⟨hmem.1, .right hmem.2⟩
  · intro hmatch
    obtain ⟨hsplit, hmatch⟩ := hmatch
    generalize attempt.text = text at *
    generalize attempt.captures = captures at *
    cases hmatch with
    | left hmatch => exact .inl ⟨hsplit, hmatch⟩
    | right hmatch => exact .inr ⟨hsplit, hmatch⟩

private theorem correct_opt {body : Pattern α} (hbody : Correct body) : Correct (.opt body) := by
  intro s attempt
  obtain ⟨text, rest, captures⟩ := attempt
  simp only [attempts, List.mem_append, hbody s, List.mem_singleton, Attempt.mk.injEq]
  constructor
  · intro hmem
    cases hmem with
    | inl hmem => exact ⟨hmem.1, .present hmem.2⟩
    | inr hmem =>
        obtain ⟨rfl, rfl, rfl⟩ := hmem
        exact ⟨rfl, .absent⟩
  · intro hmatch
    obtain ⟨hsplit, hmatch⟩ := hmatch
    cases hmatch with
    | absent => exact .inr ⟨rfl, hsplit.symm, rfl⟩
    | present hmatch => exact .inl ⟨hsplit, hmatch⟩

private theorem correct_group {n : Nat} {body : Pattern α} (hbody : Correct body) :
    Correct (.group n body) := by
  intro s attempt
  simp only [attempts, List.mem_map]
  constructor
  · intro hmem
    obtain ⟨inner, hinner, rfl⟩ := hmem
    have hinner := (hbody s inner).mp hinner
    exact ⟨hinner.1, .group hinner.2⟩
  · intro hmatch
    obtain ⟨text, rest, captures⟩ := attempt
    obtain ⟨hsplit, hmatch⟩ := hmatch
    dsimp only at hsplit hmatch
    cases hmatch with
    | @group _ _ _ inner hmatch =>
        exact ⟨⟨text, rest, inner⟩, (hbody ..).mpr ⟨hsplit, hmatch⟩, rfl⟩

theorem length_rest_lt {s text rest : List α} (hsplit : s = text ++ rest) (hne : text ≠ []) :
    rest.length < s.length := by
  have hpos := List.length_pos_of_ne_nil hne
  rw [hsplit, List.length_append]
  omega

private theorem plus_of_nil {body : Pattern α} {text : List α} {captures : Captures α}
    (hmatch : Matches (.plus body) text captures) (hnil : text = []) :
    Matches body text captures := by
  cases hmatch with
  | once hmatch => exact hmatch
  | again _ hne _ => exact absurd (List.append_eq_nil_iff.mp hnil).1 hne

/-- By induction on the fuel, which bounds what is left to match. -/
private theorem mem_rounds {body : Pattern α} (hbody : Correct body) (fuel : Nat) {s : List α}
    (hfuel : s.length ≤ fuel) (attempt : Attempt α) :
    attempt ∈ rounds (attempts body) fuel s ↔
      s = attempt.text ++ attempt.rest ∧ Matches (.plus body) attempt.text attempt.captures := by
  induction fuel generalizing s attempt with
  | zero =>
      have hnil : s = [] := List.eq_nil_of_length_eq_zero (Nat.le_zero.mp hfuel)
      subst hnil
      unfold rounds
      rw [hbody]
      apply and_congr_right
      intro hsplit
      have htext := (List.append_eq_nil_iff.mp hsplit.symm).1
      exact ⟨.once, fun hmatch => plus_of_nil hmatch htext⟩
  | succ fuel ih =>
      simp only [rounds, List.mem_flatMap]
      constructor
      · intro hmem
        obtain ⟨first, hfirst, hmem⟩ := hmem
        have hfirst := (hbody s first).mp hfirst
        have honce : attempt = first →
            s = attempt.text ++ attempt.rest ∧
              Matches (.plus body) attempt.text attempt.captures := by
          intro heq
          rw [heq]
          exact ⟨hfirst.1, .once hfirst.2⟩
        split at hmem
        · exact honce (List.mem_singleton.mp hmem)
        · rename_i hne
          cases List.mem_append.mp hmem with
          | inl hlater =>
              obtain ⟨later, hrounds, rfl⟩ := List.mem_map.mp hlater
              have hlength := length_rest_lt hfirst.1 hne
              have hrest : first.rest.length ≤ fuel := by omega
              have hlater := (ih hrest later).mp hrounds
              exact ⟨append_before hfirst.1 hlater.1, .again hfirst.2 hne hlater.2⟩
          | inr hmem => exact honce (List.mem_singleton.mp hmem)
      · intro hmatch
        obtain ⟨text, rest, captures⟩ := attempt
        obtain ⟨hsplit, hmatch⟩ := hmatch
        dsimp only at hsplit hmatch
        cases hmatch with
        | once hmatch =>
            apply Exists.intro ⟨text, rest, captures⟩
            apply And.intro ((hbody ..).mpr ⟨hsplit, hmatch⟩)
            split <;> simp
        | @again _ u v before after hbefore hne hafter =>
            rw [List.append_assoc] at hsplit
            have hlength := length_rest_lt hsplit hne
            have hrest : (v ++ rest).length ≤ fuel := by omega
            have hlater := (ih hrest ⟨v, rest, after⟩).mpr ⟨rfl, hafter⟩
            apply Exists.intro ⟨u, v ++ rest, before⟩
            apply And.intro ((hbody ..).mpr ⟨hsplit, hbefore⟩)
            rw [if_neg hne]
            apply List.mem_append_left
            exact List.mem_map.mpr ⟨_, hlater, rfl⟩

private theorem correct_plus {body : Pattern α} (hbody : Correct body) : Correct (.plus body) :=
  fun s attempt => mem_rounds hbody s.length (Nat.le_refl _) attempt

theorem correct (r : Pattern α) : Correct r := by
  induction r with
  | item p => exact correct_item p
  | seq first second hfirst hsecond => exact correct_seq hfirst hsecond
  | alt first second hfirst hsecond => exact correct_alt hfirst hsecond
  | opt body hbody => exact correct_opt hbody
  | plus body hbody => exact correct_plus hbody
  | group n body hbody => exact correct_group hbody

theorem matches_of_regexMatch {r : Pattern α} {s : List α} {captures : Captures α}
    (hmatch : regexMatch r s = some captures) : Matches r s captures := by
  unfold regexMatch at hmatch
  obtain ⟨attempt, hfind, rfl⟩ := Option.map_eq_some_iff.mp hmatch
  have hempty := List.find?_some hfind
  have hattempt := (correct r s attempt).mp (List.mem_of_find?_eq_some hfind)
  rw [List.isEmpty_iff.mp hempty, List.append_nil] at hattempt
  rw [hattempt.1]
  exact hattempt.2

theorem not_matches_of_regexMatch {r : Pattern α} {s : List α} (hmatch : regexMatch r s = none)
    (captures : Captures α) : ¬ Matches r s captures := by
  intro hmatches
  unfold regexMatch at hmatch
  rw [Option.map_eq_none_iff, List.find?_eq_none] at hmatch
  have hmem := (correct r s ⟨s, [], captures⟩).mpr ⟨by simp, hmatches⟩
  exact hmatch _ hmem rfl

section Inversion

variable {first second body : Pattern α} {p : α → Bool} {n : Nat} {s : List α}
  {captures : Captures α}

theorem matches_item : Matches (.item p) s captures ↔
    ∃ x, p x = true ∧ s = [x] ∧ captures = [] := by
  constructor
  · intro hmatch
    cases hmatch with
    | @item _ x hp => exact ⟨x, hp, rfl, rfl⟩
  · intro hitem
    obtain ⟨x, hp, rfl, rfl⟩ := hitem
    exact .item hp

theorem matches_seq : Matches (.seq first second) s captures ↔
    ∃ t u before after, Matches first t before ∧ Matches second u after ∧ s = t ++ u ∧
      captures = before ++ after := by
  constructor
  · intro hmatch
    cases hmatch with
    | seq hfirst hsecond => exact ⟨_, _, _, _, hfirst, hsecond, rfl, rfl⟩
  · intro hseq
    obtain ⟨t, u, before, after, hfirst, hsecond, rfl, rfl⟩ := hseq
    exact .seq hfirst hsecond

theorem matches_alt : Matches (.alt first second) s captures ↔
    Matches first s captures ∨ Matches second s captures := by
  constructor
  · intro hmatch
    cases hmatch with
    | left hmatch => exact .inl hmatch
    | right hmatch => exact .inr hmatch
  · intro hmatch
    cases hmatch with
    | inl hmatch => exact .left hmatch
    | inr hmatch => exact .right hmatch

theorem matches_opt : Matches (.opt body) s captures ↔
    (s = [] ∧ captures = []) ∨ Matches body s captures := by
  constructor
  · intro hmatch
    cases hmatch with
    | absent => exact .inl ⟨rfl, rfl⟩
    | present hmatch => exact .inr hmatch
  · intro hmatch
    cases hmatch with
    | inl hnil =>
        obtain ⟨rfl, rfl⟩ := hnil
        exact .absent
    | inr hmatch => exact .present hmatch

theorem matches_group : Matches (.group n body) s captures ↔
    ∃ inner, Matches body s inner ∧ captures = inner ++ [(n, s)] := by
  constructor
  · intro hmatch
    cases hmatch with
    | group hmatch => exact ⟨_, hmatch, rfl⟩
  · intro hgroup
    obtain ⟨inner, hmatch, rfl⟩ := hgroup
    exact .group hmatch

theorem matches_plus_item : Matches (.plus (.item p)) s captures ↔
    s ≠ [] ∧ (∀ x ∈ s, p x = true) ∧ captures = [] := by
  constructor
  · intro hmatch
    generalize hr : Pattern.plus (.item p) = r at hmatch
    induction hmatch with
    | once hmatch =>
        cases hr
        obtain ⟨x, hp, rfl, rfl⟩ := matches_item.mp hmatch
        simp [hp]
    | again hfirst _ _ _ ih =>
        cases hr
        obtain ⟨x, hp, rfl, rfl⟩ := matches_item.mp hfirst
        obtain ⟨_, hall, rfl⟩ := ih rfl
        simpa [hp] using hall
    | _ => cases hr
  · intro hall
    obtain ⟨hne, hall, rfl⟩ := hall
    induction s with
    | nil => exact absurd rfl hne
    | cons x s ih =>
        have hx : Matches (.item p) [x] [] := .item (hall x List.mem_cons_self)
        cases s with
        | nil => exact .once hx
        | cons y s =>
            have hrest := ih (by simp) fun z hz => hall z (List.mem_cons_of_mem x hz)
            exact .again hx (by simp) hrest

end Inversion

end SpackPlayground.Library.Regex
