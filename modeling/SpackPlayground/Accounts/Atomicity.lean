import SpackPlayground.Accounts.NewAccount

/-! The transfer between two accounts, by either of the two mechanisms, and `main`. -/
namespace SpackPlayground.Accounts

open Library.CrashHoare Library.Persistence

section Balances

variable {image image' : Image} {live : Oid → Option Object} {accounts : List (Oid × Account)}

def settle (image : Image) (accounts : List (Oid × Account)) : List (Oid × Account) :=
  accounts.map fun entry => (entry.1, { entry.2 with balance := image (.balance entry.1) })

theorem map_fst_settle : (settle image accounts).map Prod.fst = accounts.map Prod.fst := by
  unfold settle
  rw [List.map_map]
  rfl

theorem Lists.settle (hlists : Lists image live accounts)
    (hagree : ∀ l ∈ Within live, (∀ o, l ≠ .balance o) → image' l = image l) :
    Lists image' live (settle image' accounts) := by
  refine ⟨?_, fun entry hentry => ?_, fun o object ho htype => ?_⟩
  · rw [map_fst_settle]
    exact hlists.nodup
  · obtain ⟨old, hold, rfl⟩ := List.mem_map.mp hentry
    have hat := hlists.found old hold
    have hname : image' (.name old.1) = image (.name old.1) :=
      hagree _ ⟨24, hat.object⟩ (by simp)
    refine ⟨hat.object, ?_, fun i c hc => ?_, rfl⟩
    · rw [hname]
      exact hat.text
    · have hi : i < (cstr old.2.name).length := (List.getElem?_eq_some_iff.mp hc).1
      have hchar : image' (.char (image (.name old.1)) i) = image (.char (image (.name old.1)) i) :=
        hagree _ ⟨_, hat.text, hi⟩ (by simp)
      rw [hname, hchar]
      exact hat.chars i c hc
  · rw [map_fst_settle]
    exact hlists.all o object ho htype

end Balances

section Transactions

variable {accounts : List (Oid × Account)} {p : Pool} {l : Loc} {o : Oid}

structure InTx (accounts : List (Oid × Account)) (p : Pool) : Prop where
  cut : Cut accounts p
  durable : p.memory.Durable {l | l ∈ Within p.live ∧ p.logged l = false}
  apart : ∀ o, p.reserved o ≠ none → p.live o = none

theorem recovered_of_not_logged (hl : p.logged l = false) :
    p.recovered l = p.memory.medium l := by
  cases l with
  | char | name => rfl
  | balance o =>
      have hlookup : p.log.lookup o = none :=
        Option.isNone_iff_eq_none.mp (Option.isSome_eq_false_iff.mp hl)
      change (p.log.lookup o).getD _ = _
      rw [hlookup]
      rfl

private theorem recovered_of_logged {memory : Pipeline Val} (hl : p.logged l = true) :
    ({ p with memory := memory } : Pool).recovered l = p.recovered l := by
  cases l with
  | char | name => cases hl
  | balance o =>
      obtain ⟨x, hx⟩ := Option.isSome_iff_exists.mp hl
      change (p.log.lookup o).getD _ = (p.log.lookup o).getD _
      rw [hx]
      rfl

theorem InTx.with_memory (htx : InTx accounts p) {memory : Pipeline Val}
    (hdurable : memory.Durable {l | l ∈ Within p.live ∧ p.logged l = false})
    (hmedium : ∀ l ∈ Within p.live, p.logged l = false → memory.medium l = p.memory.medium l) :
    InTx accounts { p with memory := memory } := by
  refine ⟨htx.cut.congr fun l hl => ?_, hdurable, htx.apart⟩
  cases hlogged : p.logged l with
  | true => exact recovered_of_logged hlogged
  | false =>
      have hlogged' : ({ p with memory := memory } : Pool).logged l = false := by
        cases l <;> exact hlogged
      rw [recovered_of_not_logged hlogged, recovered_of_not_logged hlogged']
      exact hmedium l hl hlogged

theorem InTx.store (htx : InTx accounts p) {x : Val l} (hl : p.logged l = true) :
    InTx accounts { p with memory := p.memory.store l x } := by
  refine htx.with_memory (htx.durable.store fun hmem => ?_) fun _ _ _ => rfl
  cases hl.symm.trans hmem.2

theorem InTx.drift {p' : Pool} (htx : InTx accounts p) (hdrift : machine.drift p p') :
    InTx accounts p' := by
  obtain ⟨memory, hevicts, rfl⟩ := hdrift
  have hdurable := hevicts.durable htx.durable
  refine htx.with_memory hdurable fun l hl hlogged => ?_
  rw [hdurable l ⟨hl, hlogged⟩, hevicts.view_eq]
  exact (htx.durable l ⟨hl, hlogged⟩).symm

theorem Ledger.inTx (hledger : Ledger accounts p) : InTx accounts { p with log := [] } := by
  refine ⟨?_, hledger.durable.mono fun l hl => hl.1, hledger.apart⟩
  exact Ledger.cut ⟨hledger.lists, hledger.durable, hledger.apart, rfl⟩

theorem logged_append {x : UInt64} (hl : p.logged l = true) :
    ({ p with log := p.log ++ [(o, x)] } : Pool).logged l = true := by
  cases l with
  | char | name => cases hl
  | balance other =>
      change ((p.log ++ [(o, x)]).lookup other).isSome = true
      rw [List.lookup_append, Option.isSome_or]
      exact Bool.or_eq_true_iff.mpr (.inl hl)

private theorem logged_append_self (x : UInt64) :
    ({ p with log := p.log ++ [(o, x)] } : Pool).logged (.balance o) = true := by
  change ((p.log ++ [(o, x)]).lookup o).isSome = true
  rw [List.lookup_append, Option.isSome_or, List.lookup_cons_self]
  exact Bool.or_true _

theorem InTx.add (htx : InTx accounts p) (ho : .balance o ∈ Within p.live) :
    InTx accounts { p with log := p.log ++ [(o, p.memory.view (.balance o))] } := by
  refine ⟨htx.cut.congr fun l hl => ?_, htx.durable.mono fun l hl => ⟨hl.1, ?_⟩, htx.apart⟩
  · cases l with
    | char | name => rfl
    | balance other =>
        change ((p.log ++ [(o, p.memory.view (.balance o))]).lookup other).getD
          (p.memory.medium (.balance other)) = (p.log.lookup other).getD _
        rw [List.lookup_append]
        cases hlookup : p.log.lookup other with
        | some x => rfl
        | none =>
            by_cases heq : other = o
            · subst heq
              rw [List.lookup_cons_self]
              have hlogged : p.logged (.balance other) = false := congrArg Option.isSome hlookup
              exact (htx.durable _ ⟨ho, hlogged⟩).symm
            · rw [List.lookup_cons, beq_eq_false_iff_ne.mpr heq]
              rfl
  · rw [Bool.eq_false_iff]
    intro hlogged
    cases hl.2.symm.trans (logged_append hlogged)

theorem InTx.commit (htx : InTx accounts p) :
    Ledger (settle p.memory.view accounts) p.commit := by
  refine ⟨?_, fun l hl => ?_, htx.apart, rfl⟩
  · refine htx.cut.settle fun l hl hout => ?_
    have hlogged : p.logged l = false := by
      cases l with
      | char | name => rfl
      | balance o => exact absurd rfl (hout o)
    rw [recovered_of_not_logged hlogged]
    exact (htx.durable l ⟨hl, hlogged⟩).symm
  · change (if p.logged l then p.memory.view l else p.memory.medium l) = p.memory.view l
    split
    · rfl
    · rename_i hlogged
      exact htx.durable l ⟨hl, Bool.eq_false_iff.mpr hlogged⟩

end Transactions

section Transfers

variable {accounts : List (Oid × Account)} {a b : Oid} {first second : Account} {price : Int}
  {cut : Pool → Prop}

def Account.pay (account : Account) (price : Int) : Account :=
  { account with balance := account.balance - .ofInt price }

def Account.receive (account : Account) (price : Int) : Account :=
  { account with balance := account.balance + .ofInt price }

theorem Ledger.ne {p : Pool} (hledger : Ledger [(a, first), (b, second)] p) : a ≠ b := by
  intro heq
  have hnodup := hledger.lists.nodup
  simp [heq] at hnodup

theorem settle_pair {image : Image} {x y : UInt64} (ha : image (.balance a) = x)
    (hb : image (.balance b) = y) :
    settle image [(a, first), (b, second)] =
      [(a, { first with balance := x }), (b, { second with balance := y })] := by
  subst ha hb
  rfl

theorem Ledger.publish_values {p : Pool} {x y : UInt64}
    (hledger : Ledger [(a, first), (b, second)] p) :
    Ledger [(a, { first with balance := x }), (b, { second with balance := y })]
      (p.publish [.setValue a x, .setValue b y]) := by
  have hlive : (p.publish [.setValue a x, .setValue b y]).live = p.live := by
    funext o
    simp [Pool.publish]
  have hreserved : (p.publish [.setValue a x, .setValue b y]).reserved = p.reserved := by
    funext o
    simp [Pool.publish]
  have hne := hledger.ne
  refine ⟨?_, ?_, ?_, hledger.log⟩
  · have ha : (p.publish [.setValue a x, .setValue b y]).memory.view (.balance a) = x := by
      simp [Pool.publish, Memory.assign, setValues]
    have hb : (p.publish [.setValue a x, .setValue b y]).memory.view (.balance b) = y := by
      simp [Pool.publish, Memory.assign, setValues, hne]
    rw [hlive, ← settle_pair ha hb]
    refine hledger.lists.settle fun l _ hl => ?_
    cases l with
    | char | name => rfl
    | balance o => exact absurd rfl (hl o)
  · rw [hlive]
    exact hledger.durable.assign _
  · rw [hlive, hreserved]
    exact hledger.apart

theorem Ledger.balances {p : Pool} (hledger : Ledger [(a, first), (b, second)] p) :
    p.memory.view (.balance a) = first.balance ∧ p.memory.view (.balance b) = second.balance :=
  ⟨(hledger.lists.found (a, first) (by simp)).balance,
    (hledger.lists.found (b, second) (by simp)).balance⟩

theorem publishTransfer_triple
    (hold : ∀ p, Cut [(a, first), (b, second)] p → cut p)
    (hnew : ∀ p, Cut [(a, first.pay price), (b, second.receive price)] p → cut p) :
    Triple machine (Ledger [(a, first), (b, second)]) (publishTransfer price a b)
      (fun _ => Ledger [(a, first.pay price), (b, second.receive price)]) cut := by
  refine .call (fun x p => x = first.balance ∧ Ledger [(a, first), (b, second)] p) stable_ledger
    (fun p hledger => hold p hledger.cut) (fun p x p' hledger hexec => ?_) fun x =>
      .of_and fun hx => ?_
  · obtain ⟨rfl, rfl⟩ := hexec
    exact ⟨hledger.balances.1, hledger⟩
  · subst hx
    refine .call (fun y p => y = second.balance ∧ Ledger [(a, first), (b, second)] p) stable_ledger
      (fun p hledger => hold p hledger.cut) (fun p y p' hledger hexec => ?_) fun y =>
        .of_and fun hy => ?_
    · obtain ⟨rfl, rfl⟩ := hexec
      exact ⟨hledger.balances.2, hledger⟩
    · subst hy
      refine .call (fun _ => Ledger [(a, first.pay price), (b, second.receive price)])
        stable_ledger (fun p hledger => hold p hledger.cut) (fun p _ p' hledger hexec => ?_)
        fun _ => .done stable_ledger (fun p hledger => hnew p hledger.cut) fun _ => id
      cases hexec
      exact hledger.publish_values

structure InTransfer (a b : Oid) (first second : Account) (added : List Oid) (x y : UInt64)
    (p : Pool) : Prop where
  tx : InTx [(a, first), (b, second)] p
  logged : ∀ o ∈ added, p.logged (.balance o) = true
  view_a : p.memory.view (.balance a) = x
  view_b : p.memory.view (.balance b) = y

section InTransfer

variable {added : List Oid} {x y : UInt64} {p p' : Pool}

theorem stable_inTransfer : Stable machine (InTransfer a b first second added x y) := by
  intro p p' htransfer hdrift
  have htx := htransfer.tx.drift hdrift
  obtain ⟨memory, hevicts, rfl⟩ := hdrift
  refine ⟨htx, fun o ho => htransfer.logged o ho, ?_, ?_⟩
  · change memory.view (.balance a) = x
    rw [hevicts.view_eq]
    exact htransfer.view_a
  · change memory.view (.balance b) = y
    rw [hevicts.view_eq]
    exact htransfer.view_b

theorem InTransfer.within (htransfer : InTransfer a b first second added x y p) {o : Oid}
    (ho : o = a ∨ o = b) : .balance o ∈ Within p.live := by
  rcases ho with rfl | rfl
  · exact ⟨24, (htransfer.tx.cut.found (o, first) (by simp)).object⟩
  · exact ⟨24, (htransfer.tx.cut.found (o, second) (by simp)).object⟩

theorem InTransfer.ne (htransfer : InTransfer a b first second added x y p) : a ≠ b := by
  intro heq
  have hnodup := htransfer.tx.cut.nodup
  simp [heq] at hnodup

theorem InTransfer.add (htransfer : InTransfer a b first second added x y p) {o : Oid}
    (ho : o = a ∨ o = b) :
    InTransfer a b first second (o :: added) x y
      { p with log := p.log ++ [(o, p.memory.view (.balance o))] } := by
  refine ⟨htransfer.tx.add (htransfer.within ho), fun other hother => ?_, htransfer.view_a,
    htransfer.view_b⟩
  cases hother with
  | head => exact logged_append_self _
  | tail _ hother => exact logged_append (htransfer.logged other hother)

theorem InTransfer.store_a (htransfer : InTransfer a b first second added x y p) (ha : a ∈ added)
    (z : UInt64) :
    InTransfer a b first second added z y
      { p with memory := p.memory.store (.balance a) z } := by
  refine ⟨htransfer.tx.store (htransfer.logged a ha), htransfer.logged, Memory.view_store_self, ?_⟩
  refine Eq.trans (Memory.view_store_of_ne fun heq => ?_) htransfer.view_b
  exact htransfer.ne (Loc.balance.inj heq).symm

theorem InTransfer.store_b (htransfer : InTransfer a b first second added x y p) (hb : b ∈ added)
    (z : UInt64) :
    InTransfer a b first second added x z
      { p with memory := p.memory.store (.balance b) z } := by
  refine ⟨htransfer.tx.store (htransfer.logged b hb), htransfer.logged, ?_, Memory.view_store_self⟩
  refine Eq.trans (Memory.view_store_of_ne fun heq => ?_) htransfer.view_a
  exact htransfer.ne (Loc.balance.inj heq)

theorem InTransfer.commit (htransfer : InTransfer a b first second added x y p) :
    Ledger [(a, { first with balance := x }), (b, { second with balance := y })] p.commit := by
  rw [← settle_pair htransfer.view_a htransfer.view_b]
  exact htransfer.tx.commit

end InTransfer

theorem modify_triple {pre mid : Pool → Prop} {post : Unit → Pool → Prop} {o : Oid}
    {old : UInt64} {f : UInt64 → UInt64} {next : Program Unit} (hstable : Stable machine pre)
    (hcut : ∀ p, pre p → cut p) (hload : ∀ p, pre p → p.memory.view (.balance o) = old)
    (hstore : ∀ p, pre p → mid { p with memory := p.memory.store (.balance o) (f old) })
    (hnext : Triple machine mid next post cut) :
    Triple machine pre
      (.call (.load (.balance o)) fun x => .call (.store (.balance o) (f x)) fun _ => next)
      post cut := by
  refine .call (fun x p => x = old ∧ pre p) hstable hcut (fun p x p' hpre hexec => ?_) fun x =>
    .of_and fun hx => .call (fun _ => mid) hstable hcut (fun p _ p' hpre hexec => ?_) fun _ => hnext
  · obtain ⟨rfl, rfl⟩ := hexec
    exact ⟨hload _ hpre, hpre⟩
  · cases hexec
    subst hx
    exact hstore p hpre

theorem txTransfer_triple
    (hold : ∀ p, Cut [(a, first), (b, second)] p → cut p)
    (hnew : ∀ p, Cut [(a, first.pay price), (b, second.receive price)] p → cut p) :
    Triple machine (Ledger [(a, first), (b, second)]) (txTransfer price a b)
      (fun _ => Ledger [(a, first.pay price), (b, second.receive price)]) cut := by
  have hcut {added : List Oid} {x y : UInt64} (p : Pool)
      (htransfer : InTransfer a b first second added x y p) : cut p :=
    hold p htransfer.tx.cut
  have hend : Triple machine
      (InTransfer a b first second [b, a] (first.pay price).balance (second.receive price).balance)
      (.call .txEnd fun _ => .done ())
      (fun _ => Ledger [(a, first.pay price), (b, second.receive price)]) cut := by
    refine .call _ stable_inTransfer hcut (fun p _ p' htransfer hexec => ?_) fun _ =>
      .done stable_ledger (fun p hledger => hnew p hledger.cut) fun _ => id
    cases hexec
    exact htransfer.commit
  have hstores : Triple machine
      (InTransfer a b first second [b, a] first.balance second.balance)
      (.call (.load (.balance a)) fun x =>
        .call (.store (.balance a) (x - UInt64.ofInt price)) fun _ =>
        .call (.load (.balance b)) fun y =>
        .call (.store (.balance b) (y + UInt64.ofInt price)) fun _ =>
        .call .txEnd fun _ => .done ())
      (fun _ => Ledger [(a, first.pay price), (b, second.receive price)]) cut := by
    refine modify_triple stable_inTransfer hcut (fun _ => InTransfer.view_a)
      (fun p htransfer => htransfer.store_a (by simp) _) ?_
    exact modify_triple stable_inTransfer hcut (fun _ => InTransfer.view_b)
      (fun p htransfer => htransfer.store_b (by simp) _) hend
  refine .call (fun _ => InTransfer a b first second [] first.balance second.balance)
    stable_ledger (fun p hledger => hold p hledger.cut) (fun p _ p' hledger hexec => ?_) fun _ =>
    .call (fun _ => InTransfer a b first second [a] first.balance second.balance)
      stable_inTransfer hcut (fun p _ p' htransfer hexec => ?_) fun _ =>
      .call (fun _ => InTransfer a b first second [b, a] first.balance second.balance)
        stable_inTransfer hcut (fun p _ p' htransfer hexec => ?_) fun _ => hstores
  · cases hexec
    exact ⟨hledger.inTx, fun _ ho => by simp at ho, hledger.balances.1, hledger.balances.2⟩
  · cases hexec
    exact htransfer.add (.inl rfl)
  · cases hexec
    exact htransfer.add (.inr rfl)

end Transfers

section Main

variable {first second : Opening} {price : Int} {transfer : Oid → Oid → Program Unit}

/-- The accounts that there may be in the pool. -/
def stages (first second : Opening) (price : Int) : List (List Account) :=
  [[], [first.account], [first.account, second.account],
    [first.account.pay price, second.account.receive price]]

def InStages (first second : Opening) (price : Int) (p : Pool) : Prop :=
  ∃ accounts, Cut accounts p ∧ accounts.map Prod.snd ∈ stages first second price

private theorem ledger_created (memory : Pipeline Val) : Ledger [] (created memory) := by
  refine ⟨⟨List.nodup_nil, fun entry hentry => by simp at hentry, fun o object ho => ?_⟩,
    fun l hl => ?_, fun o ho => absurd rfl ho, rfl⟩
  · cases ho
  · exact absurd hl (notMem_within (p := created memory) rfl)

def Transfers (price : Int) (transfer : Oid → Oid → Program Unit) : Prop :=
  ∀ (a b : Oid) (first second : Account) (cut : Pool → Prop),
    (∀ p, Cut [(a, first), (b, second)] p → cut p) →
    (∀ p, Cut [(a, first.pay price), (b, second.receive price)] p → cut p) →
    Triple machine (Ledger [(a, first), (b, second)]) (transfer a b)
      (fun _ => Ledger [(a, first.pay price), (b, second.receive price)]) cut

private theorem transfers_of_mem
    (htransfer : transfer ∈ [publishTransfer price, txTransfer price]) :
    Transfers price transfer := by
  intro a b first second cut hold hnew
  obtain rfl | htransfer := List.mem_cons.mp htransfer
  · exact publishTransfer_triple hold hnew
  · obtain rfl := List.mem_singleton.mp htransfer
    exact txTransfer_triple hold hnew

theorem main_triple (htransfers : Transfers price transfer) :
    Triple machine (Ledger []) (main transfer first second)
      (fun ended p => ended = true →
        ∃ a b, Ledger [(a, first.account.pay price), (b, second.account.receive price)] p)
      (InStages first second price) := by
  have hfailed {accounts : List (Oid × Account)}
      (hcut : ∀ p, Ledger accounts p → InStages first second price p) :
      Triple machine (Ledger accounts) (.done false)
        (fun ended p => ended = true →
          ∃ a b, Ledger [(a, first.account.pay price), (b, second.account.receive price)] p)
        (InStages first second price) :=
    .done stable_ledger hcut fun _ _ hended => by cases hended
  have hnone (p : Pool) (hledger : Ledger [] p) : InStages first second price p :=
    ⟨_, hledger.cut, by simp [stages]⟩
  have hone (a : Oid) (p : Pool) (hledger : Ledger [(a, first.account)] p) :
      InStages first second price p :=
    ⟨_, hledger.cut, by simp [stages]⟩
  have htwo (a b : Oid) (p : Pool) (hcut : Cut [(a, first.account), (b, second.account)] p) :
      InStages first second price p :=
    ⟨_, hcut, by simp [stages]⟩
  have hpaid (a b : Oid) (p : Pool)
      (hcut : Cut [(a, first.account.pay price), (b, second.account.receive price)] p) :
      InStages first second price p :=
    ⟨_, hcut, by simp [stages]⟩
  refine (newAccount_triple hnone hone).bind fun answer => ?_
  cases answer with
  | none => exact hfailed hnone
  | some a =>
      refine (newAccount_triple (hone a) fun b p hledger => htwo a b p hledger.cut).bind
        fun answer => ?_
      cases answer with
      | none => exact hfailed (hone a)
      | some b =>
          refine (htransfers a b first.account second.account _ (htwo a b) (hpaid a b)).bind
            fun _ => .done stable_ledger (fun p hledger => hpaid a b p hledger.cut)
              fun p hledger _ => ⟨a, b, hledger⟩

def total (accounts : List Account) : UInt64 :=
  accounts.foldr (fun account sum => account.balance + sum) 0

theorem total_of_stages {accounts : List Account} (hstages : accounts ∈ stages first second price)
    (hlength : accounts.length = 2) : total accounts = total [first.account, second.account] := by
  simp only [stages, List.mem_cons, List.not_mem_nil, or_false] at hstages
  rcases hstages with rfl | rfl | rfl | rfl
  · cases hlength
  · cases hlength
  · rfl
  · change first.account.balance - .ofInt price + (second.account.balance + .ofInt price + 0) =
      first.account.balance + (second.account.balance + 0)
    grind

end Main

/-- Wherever `main` is cut off, by either mechanism and whatever the cache has written back
by then, the pool holds whole accounts, in a state before or after a step of `main`. -/
theorem transfers_atomic (first second : Opening) (price : Int)
    (transfer : Oid → Oid → Program Unit)
    (htransfer : transfer ∈ [publishTransfer price, txTransfer price])
    (memory : Pipeline Val) (q : Program Bool) (p : Pool)
    (hreaches : Reaches machine (main transfer first second) (created memory) q p) :
    ∃ accounts, Cut accounts p ∧ accounts.map Prod.snd ∈ stages first second price ∧
      (accounts.length = 2 →
        total (accounts.map Prod.snd) = total [first.account, second.account]) ∧
      (q = .done true → accounts.map Prod.snd =
        [first.account.pay price, second.account.receive price]) := by
  have htriple : Triple machine (Ledger []) (main transfer first second) _
      (InStages first second price) :=
    main_triple (transfers_of_mem htransfer)
  have hstart := ledger_created memory
  obtain ⟨accounts, hcut, hstages⟩ := htriple.cut _ q p hstart hreaches
  by_cases hq : q = .done true
  · subst hq
    obtain ⟨a, b, hledger⟩ := htriple.post _ true p hstart hreaches rfl
    have hend : [first.account.pay price, second.account.receive price] ∈
        stages first second price := by
      simp [stages]
    exact ⟨_, hledger.cut, hend, fun _ => total_of_stages hend rfl, fun _ => rfl⟩
  · refine ⟨accounts, hcut, hstages, fun hlength => ?_, fun hended => absurd hended hq⟩
    exact total_of_stages hstages ((List.length_map _).trans hlength)

/-- Killed in the transaction when the first balance has reached the medium. -/
theorem transfers_atomic_undone : ∃ q p accounts,
    Reaches machine (main (txTransfer price) ⟨['a'], 100⟩ ⟨['b'], 50⟩)
      (created ⟨⟨zeroed, zeroed⟩, fun _ => false⟩) q p ∧
    p.memory.medium (.balance 1) = 58 ∧ p.recovered (.balance 1) = 100 ∧
    Cut accounts p ∧ accounts.map Prod.snd ∈ stages ⟨['a'], 100⟩ ⟨['b'], 50⟩ price := by
  obtain ⟨q, p, hreaches, hmedium, hrecovered⟩ : ∃ q p,
      Reaches machine (main (txTransfer price) ⟨['a'], 100⟩ ⟨['b'], 50⟩)
        (created ⟨⟨zeroed, zeroed⟩, fun _ => false⟩) q p ∧
      p.memory.medium (.balance 1) = 58 ∧ p.recovered (.balance 1) = 100 := by
    refine ⟨_, _, .call (x := some 0) (.inr ⟨0, rfl, rfl, rfl, rfl⟩) <| .call (x := ()) rfl <|
      .call (x := ()) rfl <| .call (x := ()) rfl <|
      .call (x := some 1) (.inr ⟨1, rfl, rfl, rfl, rfl⟩) <| .call (x := ()) rfl <|
      .call (x := ()) rfl <| .call (x := ()) rfl <| .call (x := ()) rfl <|
      .call (x := ()) rfl <| .call (x := some 2) (.inr ⟨2, rfl, rfl, rfl, rfl⟩) <|
      .call (x := ()) rfl <| .call (x := ()) rfl <| .call (x := ()) rfl <|
      .call (x := some 3) (.inr ⟨3, rfl, rfl, rfl, rfl⟩) <| .call (x := ()) rfl <|
      .call (x := ()) rfl <| .call (x := ()) rfl <| .call (x := ()) rfl <|
      .call (x := ()) rfl <| .call (x := ()) rfl <| .call (x := ()) rfl <|
      .call (x := ()) rfl <| .call (x := 100) ⟨rfl, rfl⟩ <| .call (x := ()) rfl <|
      .drift ⟨_, ⟨.balance 1, 58, rfl, rfl⟩, rfl⟩ <| .refl _ _, ?_, ?_⟩ <;> rfl
  obtain ⟨accounts, hcut, hstages, _⟩ := transfers_atomic ⟨['a'], 100⟩ ⟨['b'], 50⟩ price
    (txTransfer price) (by simp) _ q p hreaches
  exact ⟨q, p, accounts, hreaches, hmedium, hrecovered, hcut, hstages⟩

example : total [caesar.account, anthony.account] = 150 := rfl

end SpackPlayground.Accounts
