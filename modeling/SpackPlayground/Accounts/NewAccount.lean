import SpackPlayground.Accounts.Ledger

/-! `new_account` on a ledger: until both objects are published the accounts are those there
were, and from then on the new one is there with all of its name. -/
namespace SpackPlayground.Accounts

open Library.CrashHoare Library.Persistence

section Publication

variable {accounts : List (Oid × Account)} {account : Account} {p : Pool} {str acc : Oid}

def Loc.OfAccount (str acc : Oid) (len : Nat) : Set Loc :=
  {l | l.InText str len = true} ∪ {l | l.InAccount acc = true}

structure Ready (str acc : Oid) (account : Account) (image : Image)
    (reserved : Oid → Option Object) : Prop where
  name : image (.name acc) = str
  account : At image reserved acc account

theorem Ready.text (hready : Ready str acc account p.memory.view p.reserved) :
    p.reserved str = some ⟨(cstr account.name).length, 0⟩ := by
  rw [← hready.name]
  exact hready.account.text

theorem live_publish (o : Oid) :
    (p.publish [.reserved str, .reserved acc]).live o =
      if o = str ∨ o = acc then p.reserved o else p.live o := by
  simp [Pool.publish]

private theorem reserved_publish (o : Oid) :
    (p.publish [.reserved str, .reserved acc]).reserved o =
      if o = str ∨ o = acc then none else p.reserved o := by
  simp [Pool.publish]

private theorem setValues_reserved (l : Loc) :
    setValues [.reserved str, .reserved acc] l = none := by
  cases l <;> rfl

private theorem view_publish :
    (p.publish [.reserved str, .reserved acc]).memory.view = p.memory.view := by
  funext l
  change (setValues _ l).getD _ = _
  rw [setValues_reserved]
  rfl

private theorem within_publish {len : Nat} (htext : p.reserved str = some ⟨len, 0⟩)
    (hobject : p.reserved acc = some ⟨24, 1⟩) :
    Within (p.publish [.reserved str, .reserved acc]).live ⊆
      Within p.live ∪ Loc.OfAccount str acc len := by
  intro l hl
  cases l with
  | char o i =>
      obtain ⟨size, ho, hi⟩ := hl
      rw [live_publish] at ho
      split at ho
      · rename_i hnew
        rcases hnew with rfl | rfl
        · cases htext.symm.trans ho
          exact .inr (.inl (decide_eq_true ⟨rfl, hi⟩))
        · cases hobject.symm.trans ho
      · exact .inl ⟨size, ho, hi⟩
  | name o | balance o =>
      obtain ⟨size, ho⟩ := hl
      rw [live_publish] at ho
      split at ho
      · rename_i hnew
        rcases hnew with rfl | rfl
        · cases htext.symm.trans ho
        · exact .inr (.inr (decide_eq_true rfl))
      · exact .inl ⟨size, ho⟩

/-- The publication of the two objects is the moment at which the account exists. -/
theorem Ledger.publish (hledger : Ledger accounts p)
    (hready : Ready str acc account p.memory.view p.reserved)
    (hdurable : p.memory.Durable (Loc.OfAccount str acc (cstr account.name).length)) :
    Ledger (accounts ++ [(acc, account)]) (p.publish [.reserved str, .reserved acc]) := by
  have htext := hready.text
  have hobject := hready.account.object
  have hlive (o : Oid) (ho : p.live o ≠ none) :
      (p.publish [.reserved str, .reserved acc]).live o = p.live o := by
    rw [live_publish, if_neg]
    rintro (rfl | rfl)
    · exact ho (hledger.apart _ (by simp [htext]))
    · exact ho (hledger.apart _ (by simp [hobject]))
  have hstr : (p.publish [.reserved str, .reserved acc]).live str = p.reserved str := by
    rw [live_publish, if_pos (.inl rfl)]
  have hacc : (p.publish [.reserved str, .reserved acc]).live acc = p.reserved acc := by
    rw [live_publish, if_pos (.inr rfl)]
  refine ⟨⟨?_, fun entry hentry => ?_, fun o object ho htype => ?_⟩, fun l hl => ?_,
    fun o ho => ?_, hledger.log⟩
  · have hfresh : acc ∉ accounts.map Prod.fst := by
      intro hmem
      obtain ⟨entry, hentry, rfl⟩ := List.mem_map.mp hmem
      have hold := (hledger.lists.found entry hentry).object
      cases hold.symm.trans (hledger.apart _ (by simp [hobject]))
    rw [List.map_append, List.map_singleton]
    refine List.nodup_append.mpr ⟨hledger.lists.nodup, List.nodup_singleton acc, ?_⟩
    rintro o ho _ hnew rfl
    obtain rfl : o = acc := List.mem_singleton.mp hnew
    exact hfresh ho
  · rw [view_publish]
    obtain hold | hnew := List.mem_append.mp hentry
    · exact (hledger.lists.found entry hold).congr hlive fun _ _ => rfl
    · obtain rfl := List.mem_singleton.mp hnew
      refine ⟨hacc.trans hobject, ?_, hready.account.chars, hready.account.balance⟩
      rw [hready.name]
      exact hstr.trans htext
  · rw [List.map_append, List.mem_append]
    by_cases hnew : o = acc
    · exact .inr (List.mem_singleton.mpr hnew)
    · have hother : o ≠ str := by
        rintro rfl
        cases (hstr.trans htext).symm.trans ho
        cases htype
      rw [live_publish, if_neg (not_or.mpr ⟨hother, hnew⟩)] at ho
      exact .inl (hledger.lists.all o object ho htype)
  · have hall : p.memory.Durable
        (Within p.live ∪ Loc.OfAccount str acc (cstr account.name).length) := fun other hother =>
      hother.elim (hledger.durable other) (hdurable other)
    exact hall.assign _ l (within_publish htext hobject hl)
  · rw [reserved_publish] at ho
    split at ho
    · exact absurd rfl ho
    · rename_i hout
      rw [live_publish, if_neg hout]
      exact hledger.apart o ho

end Publication

section NewAccount

variable {accounts : List (Oid × Account)} {str acc : Oid} {chars name : List Char} {i : Nat}
  {α : Type} {post : α → Pool → Prop} {cut : Pool → Prop}

structure Copied (str : Oid) (chars : List Char) (i : Nat) (image : Image)
    (reserved : Oid → Option Object) : Prop where
  text : reserved str = some ⟨chars.length, 0⟩
  chars : ∀ j c, j < i → chars[j]? = some c → image (.char str j) = c

theorem Copied.store {c : Char} {image : Image} {reserved : Oid → Option Object}
    (hcopied : Copied str chars i image reserved) (hc : chars[i]? = some c) :
    Copied str chars (i + 1) (Function.update image (.char str i) c) reserved := by
  refine ⟨hcopied.text, fun j d hj hd => ?_⟩
  by_cases heq : j = i
  · subst heq
    rw [Function.update_self]
    exact Option.some_inj.mp (hc.symm.trans hd)
  · rw [Function.update_of_ne fun hloc => heq (Loc.char.inj hloc).2]
    exact hcopied.chars j d (by omega) hd

theorem copy_triple (hcut : ∀ p, Ledger accounts p → cut p) {next : Program α}
    (hnext : Triple machine (Draft accounts (Copied str chars chars.length) ∅) next post cut)
    {rest : List Char} (hrest : chars.drop i = rest) :
    Triple machine (Draft accounts (Copied str chars i) ∅) (copy str next i rest) post cut := by
  induction rest generalizing i with
  | nil =>
      have hi : chars.length ≤ i := List.drop_eq_nil_iff.mp hrest
      refine hnext.mono (fun p hdraft => ?_) (fun _ _ => id) fun _ => id
      exact { hdraft with
        seen := ⟨hdraft.seen.text, fun j c hj hc => hdraft.seen.chars j c (by omega) hc⟩ }
  | cons c rest ih =>
      have hc : chars[i]? = some c := by
        have hhead : (chars.drop i)[0]? = chars[i + 0]? := List.getElem?_drop
        rw [hrest] at hhead
        exact hhead.symm
      have htail : chars.drop (i + 1) = rest := by rw [← List.tail_drop, hrest, List.tail_cons]
      refine .call _ stable_draft (fun p hdraft => hcut p hdraft.ledger)
        (fun p _ p' hdraft hexec => ?_) fun _ => ih htail
      cases hexec
      have hreserved : p.reserved str ≠ none := by simp [hdraft.seen.text]
      exact hdraft.store hreserved id (hdraft.seen.store hc)

structure Allocated (str acc : Oid) (chars : List Char) (image : Image)
    (reserved : Oid → Option Object) : Prop where
  copied : Copied str chars chars.length image reserved
  object : reserved acc = some ⟨24, 1⟩

theorem Allocated.store {image : Image} {reserved : Oid → Option Object} {l : Loc} {x : Val l}
    (hallocated : Allocated str acc chars image reserved) (hl : ∀ i, .char str i ≠ l) :
    Allocated str acc chars (Function.update image l x) reserved := by
  refine ⟨⟨hallocated.copied.text, fun j c hj hc => ?_⟩, hallocated.object⟩
  rw [Function.update_of_ne (hl j)]
  exact hallocated.copied.chars j c hj hc

theorem Allocated.ready {image : Image} {reserved : Oid → Option Object} {balance : UInt64}
    (hallocated : Allocated str acc (cstr name) image reserved) (hname : image (.name acc) = str)
    (hbalance : image (.balance acc) = balance) : Ready str acc ⟨name, balance⟩ image reserved := by
  refine ⟨hname, hallocated.object, ?_, fun j c hc => ?_, hbalance⟩
  · rw [hname]
    exact hallocated.copied.text
  · rw [hname]
    exact hallocated.copied.chars j c (List.getElem?_eq_some_iff.mp hc).1 hc

variable {deposit : Int} {p : Pool}

def Opened (accounts : List (Oid × Account)) (account : Account) (answer : Option Oid)
    (p : Pool) : Prop :=
  match answer with
  | none => Ledger accounts p
  | some acc => Ledger (accounts ++ [(acc, account)]) p

theorem draft_call {β : Type} {cmd : Cmd β} {next : β → Program α}
    {seen : Image → (Oid → Option Object) → Prop} {safe : Set Loc} (mid : β → Pool → Prop)
    (hold : ∀ p, Ledger accounts p → cut p)
    (hexec : ∀ p x p', Draft accounts seen safe p → exec cmd p x p' → mid x p')
    (hnext : ∀ x, Triple machine (mid x) (next x) post cut) :
    Triple machine (Draft accounts seen safe) (.call cmd next) post cut :=
  .call mid stable_draft (fun p hdraft => hold p hdraft.ledger) hexec hnext

section Fill

variable {account : Account} (hold : ∀ p, Ledger accounts p → cut p)
  (hnew : ∀ acc p, Ledger (accounts ++ [(acc, account)]) p → cut p)
include hold hnew

theorem publish_triple :
    Triple machine
      (fun p => Draft accounts (Ready str acc account)
          (Loc.OfAccount str acc (cstr account.name).length) p ∧
        p.memory.Durable (Loc.OfAccount str acc (cstr account.name).length))
      (.call (.publish [.reserved str, .reserved acc]) fun _ => .done (some acc))
      (Opened accounts account) cut := by
  refine .call (fun _ => Ledger (accounts ++ [(acc, account)])) (fun p p' hpre hdrift => ?_)
    (fun p hpre => hold p hpre.1.ledger) (fun p _ p' hpre hexec => ?_) fun _ =>
      .done stable_ledger (hnew acc) fun _ => id
  · refine ⟨stable_draft p p' hpre.1 hdrift, ?_⟩
    obtain ⟨memory, hevicts, rfl⟩ := hdrift
    exact hevicts.durable hpre.2
  · cases hexec
    exact hpre.1.ledger.publish hpre.1.seen hpre.2

theorem persist_triple :
    Triple machine
      (Draft accounts (Ready str acc account) {l | l.InText str (cstr account.name).length = true})
      (persist (Loc.InAccount acc) <|
        .call (.publish [.reserved str, .reserved acc]) fun _ => .done (some acc))
      (Opened accounts account) cut := by
  refine draft_call (fun _ => Draft accounts (Ready str acc account)
      (Loc.OfAccount str acc (cstr account.name).length)) hold
    (fun p _ p' hdraft hexec => ?_) fun _ =>
      draft_call _ hold (fun p _ p' hdraft hexec => ?_) fun _ => publish_triple hold hnew
  · cases hexec
    exact hdraft.flush _
  · cases hexec
    exact hdraft.drain

theorem fill_triple :
    Triple machine
      (Draft accounts (Allocated str acc (cstr account.name))
        {l | l.InText str (cstr account.name).length = true})
      (.call (.store (.name acc) str) fun _ =>
        .call (.store (.balance acc) account.balance) fun _ =>
        persist (Loc.InAccount acc) <|
        .call (.publish [.reserved str, .reserved acc]) fun _ => .done (some acc))
      (Opened accounts account) cut := by
  refine draft_call (fun _ => Draft accounts (fun image reserved =>
      Allocated str acc (cstr account.name) image reserved ∧ image (.name acc) = str)
      {l | l.InText str (cstr account.name).length = true}) hold
    (fun p _ p' hdraft hexec => ?_) fun _ =>
      draft_call _ hold (fun p _ p' hdraft hexec => ?_) fun _ => persist_triple hold hnew
  · cases hexec
    have hreserved : p.reserved acc ≠ none := by simp [hdraft.seen.object]
    refine hdraft.store hreserved (by simp [Loc.InText]) ⟨hdraft.seen.store (by simp), ?_⟩
    exact Function.update_self ..
  · cases hexec
    obtain ⟨hallocated, hname⟩ := hdraft.seen
    have hreserved : p.reserved acc ≠ none := by simp [hallocated.object]
    refine hdraft.store hreserved (by simp [Loc.InText])
      ((hallocated.store (by simp)).ready ?_ ?_)
    · rw [Function.update_of_ne (by simp)]
      exact hname
    · exact Function.update_self ..

end Fill

theorem reserve_triple {size typeNum : Nat} {next : Option Oid → Program α}
    {seen : Image → (Oid → Option Object) → Prop} {safe : Set Loc}
    (seen' : Oid → Image → (Oid → Option Object) → Prop)
    (hold : ∀ p, Ledger accounts p → cut p)
    (hseen : ∀ o image reserved, reserved o = none → seen image reserved →
      seen' o image (Function.update reserved o (some ⟨size, typeNum⟩)))
    (hnone : Triple machine (Draft accounts seen safe) (next none) post cut)
    (hsome : ∀ o, Triple machine (Draft accounts (seen' o) safe) (next (some o)) post cut) :
    Triple machine (Draft accounts seen safe) (.call (.reserve size typeNum) next) post cut := by
  refine draft_call (fun
    | none => Draft accounts seen safe
    | some o => Draft accounts (seen' o) safe) hold (fun p answer p' hdraft hexec => ?_)
    fun answer => ?_
  · obtain ⟨rfl, rfl⟩ | ⟨o, rfl, hlive, hreserved, rfl⟩ := hexec
    · exact hdraft
    · exact hdraft.reserve hlive (hseen o _ _ hreserved hdraft.seen)
  · cases answer with
    | none => exact hnone
    | some o => exact hsome o

/-- `new_account`, whatever is to hold wherever it may be cut off. -/
theorem newAccount_triple (hold : ∀ p, Ledger accounts p → cut p)
    (hnew : ∀ acc p, Ledger (accounts ++ [(acc, ⟨name, .ofInt deposit⟩)]) p → cut p) :
    Triple machine (Ledger accounts) (newAccount name deposit)
      (Opened accounts ⟨name, .ofInt deposit⟩) cut := by
  have hfailed {seen : Image → (Oid → Option Object) → Prop} {safe : Set Loc} :
      Triple machine (Draft accounts seen safe) (.done none)
        (Opened accounts ⟨name, .ofInt deposit⟩) cut :=
    .done stable_draft (fun p hdraft => hold p hdraft.ledger) fun _ hdraft => hdraft.ledger
  have hlength : (cstr name).length = name.length + 1 := by
    unfold cstr
    rw [List.length_append, List.length_singleton]
  have hstart : Triple machine (Draft accounts (fun _ _ => True) ∅) (newAccount name deposit)
      (Opened accounts ⟨name, .ofInt deposit⟩) cut := by
    refine reserve_triple (fun str => Copied str (cstr name) 0) hold
      (fun str image reserved _ _ => ?_) hfailed fun str => ?_
    · refine ⟨?_, fun j c hj => absurd hj (Nat.not_lt_zero j)⟩
      rw [Function.update_self, hlength]
    · refine copy_triple hold (draft_call (fun _ => Draft accounts
        (Copied str (cstr name) (cstr name).length)
        {l | l.InText str (cstr name).length = true}) hold (fun p _ p' hdraft hexec => ?_)
        fun _ => ?_) List.drop_zero
      · cases hexec
        rw [← Set.empty_union {l | Loc.InText str (cstr name).length l = true}]
        exact hdraft.flush _
      · refine reserve_triple (fun acc => Allocated str acc (cstr name)) hold
          (fun acc image reserved hfresh hcopied => ?_) hfailed fun acc => fill_triple hold hnew
        have hne : str ≠ acc := by
          rintro rfl
          cases hcopied.text.symm.trans hfresh
        refine ⟨⟨?_, hcopied.chars⟩, Function.update_self ..⟩
        rw [Function.update_of_ne hne]
        exact hcopied.text
  exact hstart.mono (fun _ => Ledger.draft) (fun _ _ => id) fun _ => id

end NewAccount

end SpackPlayground.Accounts
