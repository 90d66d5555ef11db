import Mathlib.Data.List.Nodup
import SpackPlayground.Accounts.Code

/-! The accounts that a pool holds, and what the commands of `new_account` do to them. -/
namespace SpackPlayground.Accounts

open Library.CrashHoare Library.Persistence

structure Account where
  name : List Char
  balance : UInt64

def Opening.account (opening : Opening) : Account := ⟨opening.name, .ofInt opening.deposit⟩

def Within (live : Oid → Option Object) : Set Loc := fun
  | .char o i => ∃ size, live o = some ⟨size, 0⟩ ∧ i < size
  | .name o | .balance o => ∃ size, live o = some ⟨size, 1⟩

structure At (image : Image) (live : Oid → Option Object) (o : Oid) (account : Account) :
    Prop where
  object : live o = some ⟨24, 1⟩
  text : live (image (.name o)) = some ⟨(cstr account.name).length, 0⟩
  chars : ∀ i c, (cstr account.name)[i]? = some c → image (.char (image (.name o)) i) = c
  balance : image (.balance o) = account.balance

/-- The objects with the type number of accounts are these. -/
structure Lists (image : Image) (live : Oid → Option Object) (accounts : List (Oid × Account)) :
    Prop where
  nodup : (accounts.map Prod.fst).Nodup
  found : ∀ entry ∈ accounts, At image live entry.1 entry.2
  all : ∀ o object, live o = some object → object.typeNum = 1 → o ∈ accounts.map Prod.fst

def Cut (accounts : List (Oid × Account)) (p : Pool) : Prop := Lists p.recovered p.live accounts

/-- Between transactions: the accounts are as the program sees them. -/
structure Ledger (accounts : List (Oid × Account)) (p : Pool) : Prop where
  lists : Lists p.memory.view p.live accounts
  durable : p.memory.Durable (Within p.live)
  apart : ∀ o, p.reserved o ≠ none → p.live o = none
  log : p.log = []

section Images

variable {image image' : Image} {live live' : Oid → Option Object} {o : Oid} {account : Account}
  {accounts : List (Oid × Account)} {p : Pool}

theorem At.congr (hat : At image live o account) (hlive : ∀ o, live o ≠ none → live' o = live o)
    (hagree : ∀ l ∈ Within live, image' l = image l) : At image' live' o account := by
  have hname : image' (.name o) = image (.name o) := hagree _ ⟨24, hat.object⟩
  refine ⟨?_, ?_, fun i c hc => ?_, ?_⟩
  · rw [hlive o (by simp [hat.object]), hat.object]
  · rw [hname, hlive _ (by simp [hat.text]), hat.text]
  · have hi : i < (cstr account.name).length := (List.getElem?_eq_some_iff.mp hc).1
    have hchar : image' (.char (image (.name o)) i) = image (.char (image (.name o)) i) :=
      hagree _ ⟨_, hat.text, hi⟩
    rw [hname, hchar]
    exact hat.chars i c hc
  · have hbalance : image' (.balance o) = image (.balance o) := hagree _ ⟨24, hat.object⟩
    rw [hbalance, hat.balance]

theorem Lists.congr (hlists : Lists image live accounts)
    (hagree : ∀ l ∈ Within live, image' l = image l) : Lists image' live accounts :=
  ⟨hlists.nodup, fun entry hentry => (hlists.found entry hentry).congr (fun _ _ => rfl) hagree,
    hlists.all⟩

private theorem recovered_of_log (hlog : p.log = []) (l : Loc) :
    p.recovered l = p.memory.medium l := by
  cases l with
  | char | name => rfl
  | balance o =>
      change (p.log.lookup o).getD _ = _
      rw [hlog]
      rfl

theorem Ledger.cut (hledger : Ledger accounts p) : Cut accounts p :=
  hledger.lists.congr fun l hl => (recovered_of_log hledger.log l).trans (hledger.durable l hl)

end Images

section Drafts

variable {accounts : List (Oid × Account)} {p p' : Pool} {l : Loc} {x : Val l} {o : Oid}
  {seen seen' : Image → (Oid → Option Object) → Prop} {safe : Set Loc}

structure Draft (accounts : List (Oid × Account)) (seen : Image → (Oid → Option Object) → Prop)
    (safe : Set Loc) (p : Pool) : Prop where
  ledger : Ledger accounts p
  seen : seen p.memory.view p.reserved
  safe : p.memory.Safe safe

theorem notMem_within (hlive : p.live l.object = none) : l ∉ Within p.live := by
  intro hl
  cases l with
  | char o i =>
      obtain ⟨_, hobject, _⟩ := hl
      cases hlive.symm.trans hobject
  | name o | balance o =>
      obtain ⟨_, hobject⟩ := hl
      cases hlive.symm.trans hobject

theorem Ledger.drift (hledger : Ledger accounts p) (hdrift : machine.drift p p') :
    Ledger accounts p' := by
  obtain ⟨memory, hevicts, rfl⟩ := hdrift
  refine ⟨?_, hevicts.durable hledger.durable, hledger.apart, hledger.log⟩
  change Lists memory.view p.live accounts
  rw [hevicts.view_eq]
  exact hledger.lists

theorem stable_ledger : Stable machine (Ledger accounts) := fun _ _ => Ledger.drift

theorem stable_draft : Stable machine (Draft accounts seen safe) := by
  intro p p' hdraft hdrift
  have hledger := hdraft.ledger.drift hdrift
  obtain ⟨memory, hevicts, rfl⟩ := hdrift
  refine ⟨hledger, ?_, hevicts.safe hdraft.safe⟩
  change seen memory.view p.reserved
  rw [hevicts.view_eq]
  exact hdraft.seen

theorem Ledger.draft (hledger : Ledger accounts p) :
    Draft accounts (fun _ _ => True) ∅ p :=
  ⟨hledger, trivial, fun _ hl => hl.elim⟩

theorem Draft.store (hdraft : Draft accounts seen safe p) (hreserved : p.reserved l.object ≠ none)
    (hl : l ∉ safe) (hseen : seen' (Function.update p.memory.view l x) p.reserved) :
    Draft accounts seen' safe { p with memory := p.memory.store l x } := by
  have hout := notMem_within (hdraft.ledger.apart _ hreserved)
  refine ⟨⟨?_, hdraft.ledger.durable.store hout, hdraft.ledger.apart, hdraft.ledger.log⟩, hseen,
    hdraft.safe.store hl⟩
  exact hdraft.ledger.lists.congr fun other hother => Memory.view_store_of_mem hother hout

theorem Draft.flush (hdraft : Draft accounts seen safe p) (range : Loc → Bool) :
    Draft accounts seen (safe ∪ {l | range l = true})
      { p with memory := p.memory.flush range } :=
  ⟨⟨hdraft.ledger.lists, hdraft.ledger.durable, hdraft.ledger.apart, hdraft.ledger.log⟩,
    hdraft.seen, (hdraft.safe.flush range).union (Pipeline.safe_flush fun _ => id)⟩

theorem Draft.drain (hdraft : Draft accounts seen safe p) :
    Draft accounts seen safe { p with memory := p.memory.drain } ∧
      p.memory.drain.Durable safe :=
  ⟨⟨⟨hdraft.ledger.lists, Pipeline.durable_drain hdraft.ledger.durable, hdraft.ledger.apart,
    hdraft.ledger.log⟩, hdraft.seen, fun l hl => .inr (hdraft.safe.drain l hl)⟩,
    hdraft.safe.drain⟩

theorem Draft.reserve (hdraft : Draft accounts seen safe p) {object : Object}
    (hlive : p.live o = none)
    (hseen : seen' p.memory.view (Function.update p.reserved o (some object))) :
    Draft accounts seen' safe
      { p with reserved := Function.update p.reserved o (some object) } := by
  refine ⟨⟨hdraft.ledger.lists, hdraft.ledger.durable, fun other hother => ?_,
    hdraft.ledger.log⟩, hseen, hdraft.safe⟩
  by_cases heq : other = o
  · exact heq ▸ hlive
  · dsimp only at hother
    rw [Function.update_of_ne heq] at hother
    exact hdraft.ledger.apart other hother

end Drafts

end SpackPlayground.Accounts
