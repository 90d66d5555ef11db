import Mathlib.Data.List.Nodup
import Mathlib.Data.List.Basic

/-! Singly linked chains in a memory. A memory is seen only through its links:
`link a` is `none` when nothing is stored at `a`, and otherwise the successor
stored there, `none` again for the null pointer. -/
namespace SpackPlayground.Library.LinkedChain

variable {α : Type*} {link link' : α → Option (Option α)}

/-- `Chain link start nodes`: following the links from `start` visits exactly
`nodes`, in that order, and then reaches the null pointer. -/
inductive Chain (link : α → Option (Option α)) : Option α → List α → Prop where
  | null : Chain link none []
  | node {a : α} {next : Option α} {rest : List α} :
      link a = some next → Chain link next rest → Chain link (some a) (a :: rest)

theorem Chain.of_none {nodes : List α} (hchain : Chain link none nodes) : nodes = [] := by
  cases hchain
  rfl

theorem Chain.of_some {a : α} {nodes : List α} (hchain : Chain link (some a) nodes) :
    ∃ next rest, link a = some next ∧ nodes = a :: rest ∧ Chain link next rest := by
  cases hchain with
  | node hlink hrest => exact ⟨_, _, hlink, rfl, hrest⟩

theorem Chain.start_eq_head? {start : Option α} {nodes : List α}
    (hchain : Chain link start nodes) : start = nodes.head? := by
  cases hchain <;> rfl

theorem chain_nil_iff {start : Option α} : Chain link start [] ↔ start = none := by
  constructor
  · intro hchain
    exact hchain.start_eq_head?
  · rintro rfl
    exact .null

theorem chain_cons_iff {start : Option α} {a : α} {rest : List α} :
    Chain link start (a :: rest) ↔
      start = some a ∧ ∃ next, link a = some next ∧ Chain link next rest := by
  constructor
  · intro hchain
    cases hchain with
    | node hlink hrest => exact ⟨rfl, _, hlink, hrest⟩
  · rintro ⟨rfl, next, hlink, hrest⟩
    exact .node hlink hrest

theorem Chain.unique {start : Option α} {first second : List α}
    (hfirst : Chain link start first) (hsecond : Chain link start second) :
    first = second := by
  induction hfirst generalizing second with
  | null => exact hsecond.of_none.symm
  | @node a next rest hlink _ ih =>
      obtain ⟨next', rest', hlink', rfl, hrest'⟩ := hsecond.of_some
      have hnext : next = next' := Option.some.inj (hlink.symm.trans hlink')
      subst hnext
      rw [ih hrest']

theorem Chain.suffix {start : Option α} {before after : List α}
    (hchain : Chain link start (before ++ after)) : Chain link after.head? after := by
  induction before generalizing start with
  | nil =>
      rw [List.nil_append] at hchain
      rwa [hchain.start_eq_head?] at hchain
  | cons a before ih =>
      obtain ⟨_, _, _, hrest⟩ := chain_cons_iff.mp hchain
      exact ih hrest

/-- A chain is acyclic: a repeated node would start two chains of different
lengths. -/
theorem Chain.nodup {start : Option α} {nodes : List α} (hchain : Chain link start nodes) :
    nodes.Nodup := by
  induction hchain with
  | null => exact List.nodup_nil
  | @node a next rest hlink hrest ih =>
      refine List.nodup_cons.mpr ⟨?_, ih⟩
      intro hmem
      obtain ⟨before, after, rfl⟩ := List.append_of_mem hmem
      have hagain : Chain link (some a) (a :: after) := hrest.suffix
      have hlength := congrArg List.length (hagain.unique (.node hlink hrest))
      simp only [List.length_cons, List.length_append] at hlength
      omega

/-- Frame rule: a chain depends only on the links of its own nodes. -/
theorem Chain.frame {start : Option α} {nodes : List α} (hchain : Chain link start nodes)
    (hframe : ∀ a ∈ nodes, link' a = link a) : Chain link' start nodes := by
  induction hchain with
  | null => exact .null
  | @node a next rest hlink _ ih =>
      refine .node ((hframe a List.mem_cons_self).trans hlink) (ih ?_)
      intro b hb
      exact hframe b (List.mem_cons_of_mem a hb)

theorem Chain.link_isSome {start : Option α} {nodes : List α}
    (hchain : Chain link start nodes) {a : α} (ha : a ∈ nodes) : ∃ next, link a = some next := by
  induction hchain with
  | null => cases ha
  | node hlink _ ih =>
      cases List.mem_cons.mp ha with
      | inl heq => exact ⟨_, heq ▸ hlink⟩
      | inr hmem => exact ih hmem

theorem Chain.link_last {start : Option α} {before : List α} {last : α}
    (hchain : Chain link start (before ++ [last])) : link last = some none := by
  obtain ⟨_, next, hlink, hrest⟩ := chain_cons_iff.mp hchain.suffix
  rw [hlink, chain_nil_iff.mp hrest]

theorem Chain.snoc {start : Option α} {before : List α} {last fresh : α}
    (hchain : Chain link start (before ++ [last])) (hlast : link' last = some (some fresh))
    (hfresh : link' fresh = some none) (hframe : ∀ a ∈ before, link' a = link a) :
    Chain link' start (before ++ [last, fresh]) := by
  induction before generalizing start with
  | nil =>
      rw [List.nil_append, chain_cons_iff] at hchain
      obtain ⟨rfl, _⟩ := hchain
      exact .node hlast (.node hfresh .null)
  | cons a before ih =>
      obtain ⟨rfl, next, hlink, hrest⟩ := chain_cons_iff.mp hchain
      refine .node ((hframe a List.mem_cons_self).trans hlink) (ih hrest ?_)
      intro b hb
      exact hframe b (List.mem_cons_of_mem a hb)

/-- Collect the nodes of a chain, giving up after `fuel` of them or at a
dangling pointer. -/
def collect (link : α → Option (Option α)) : Nat → Option α → Option (List α)
  | _, none => some []
  | 0, some _ => none
  | fuel + 1, some a => do
      let next ← link a
      let rest ← collect link fuel next
      pure (a :: rest)

theorem Chain.collect_eq {start : Option α} {nodes : List α} (hchain : Chain link start nodes)
    {fuel : Nat} (hfuel : nodes.length ≤ fuel) : collect link fuel start = some nodes := by
  induction hchain generalizing fuel with
  | null => cases fuel <;> rfl
  | node hlink _ ih =>
      cases fuel with
      | zero => simp at hfuel
      | succ fuel =>
          simp only [collect, hlink, ih (Nat.le_of_succ_le_succ hfuel), Option.bind_eq_bind,
            Option.bind_some, Option.pure_def]

theorem chain_of_collect_eq {fuel : Nat} {start : Option α} {nodes : List α}
    (hcollect : collect link fuel start = some nodes) : Chain link start nodes := by
  induction fuel generalizing start nodes with
  | zero =>
      cases start with
      | none => cases hcollect; exact .null
      | some a => cases hcollect
  | succ fuel ih =>
      cases start with
      | none => cases hcollect; exact .null
      | some a =>
          simp only [collect, Option.bind_eq_bind, Option.bind_eq_some_iff, Option.pure_def,
            Option.some.injEq] at hcollect
          obtain ⟨next, hlink, rest, hrest, rfl⟩ := hcollect
          exact .node hlink (ih hrest)

end SpackPlayground.Library.LinkedChain
