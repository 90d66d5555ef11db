import SpackPlayground.Library.LockMachine

/-! Disciplined operations are serializable in the order in which they lock, and
never deadlock. -/
namespace SpackPlayground.Library.LockMachine

open Library.LockedCode Library.Transition

variable {Tid Op Obj V R : Type*}

theorem pair_sublist_append_singleton {α : Type*} {x y z : α} {items : List α} :
    [x, y].Sublist (items ++ [z]) ↔ [x, y].Sublist items ∨ x ∈ items ∧ y = z := by
  rw [List.sublist_append_iff]
  constructor
  · rintro ⟨front, back, heq, hfront, hback⟩
    cases List.sublist_singleton.mp hback with
    | inl hnil =>
        rw [hnil, List.append_nil] at heq
        exact .inl (heq ▸ hfront)
    | inr hlast =>
        rw [hlast] at heq
        have hsplit : [x] ++ [y] = front ++ [z] := heq
        obtain ⟨rfl, hy⟩ := List.append_inj' hsplit rfl
        exact .inr ⟨List.singleton_sublist.mp hfront, List.singleton_inj.mp hy⟩
  · rintro (hitems | ⟨hx, rfl⟩)
    · exact ⟨[x, y], [], (List.append_nil _).symm, hitems, List.nil_sublist _⟩
    · exact ⟨[x], [y], rfl, List.singleton_sublist.mpr hx, List.Sublist.refl _⟩

def territory (s : State Tid Op Obj V R) (t : Tid) : Set Obj :=
  {o | s.owner o = some t ∨ s.status o = .building t}

theorem Free.notMem_territory {s : State Tid Op Obj V R} {o : Obj} (hfree : Free s o) (t : Tid) :
    o ∉ territory s t := by
  rintro (howner | hbuilding)
  · rw [hfree.owner] at howner
    cases howner
  · exact hfree.status t hbuilding

variable {effect : Op → (Obj → V) → R × (Obj → V)} {start : Obj → V}
  {s s' : State Tid Op Obj V R} {order order' : List (Call Op)}

theorem valuesAfter_append_singleton (order : List (Call Op)) (c : Call Op) :
    valuesAfter effect start (order ++ [c]) = (effect c.op (valuesAfter effect start order)).2 := by
  unfold valuesAfter
  rw [List.foldl_append]
  rfl

namespace Serialization

theorem mem_of_ret (hserial : Serialization effect start s order) {id : Nat} {r : R}
    (hret : .ret id r ∈ s.history) : id ∈ order.map Call.id := by
  obtain ⟨before, c, after, rfl, rfl, -⟩ := hserial.results id r hret
  exact List.mem_map_of_mem (List.mem_append_right _ List.mem_cons_self)

theorem of_values (hserial : Serialization effect start s order) (hhistory : s'.history = s.history)
    (hvalues : ∀ o, Free s' o → s'.value o = valuesAfter effect start order o) :
    Serialization effect start s' order where
  called := by
    rw [hhistory]
    exact hserial.called
  once := hserial.once
  results := by
    rw [hhistory]
    exact hserial.results
  realTime := by
    rw [hhistory]
    exact hserial.realTime
  values := hvalues

theorem append (hserial : Serialization effect start s order) {c : Call Op} {t : Tid}
    (hcalled : .call c.id t c.op ∈ s.history) (hid : c.id ∉ order.map Call.id)
    (hvalues : ∀ o, Free s o → s.value o = valuesAfter effect start (order ++ [c]) o) :
    Serialization effect start s (order ++ [c]) where
  called := by
    intro call hcall
    rcases List.mem_append.mp hcall with hold | hnew
    · exact hserial.called call hold
    · rw [List.mem_singleton.mp hnew]
      exact ⟨t, hcalled⟩
  once := by
    rw [List.map_append, List.perm_append_comm.nodup_iff]
    exact List.nodup_cons.mpr ⟨hid, hserial.once⟩
  results := by
    intro id r hret
    obtain ⟨before, call, after, rfl, hcall, hr⟩ := hserial.results id r hret
    exact ⟨before, call, after ++ [c], by simp, hcall, hr⟩
  realTime := by
    intro first r second t op hhistory hsecond
    rw [List.map_append] at hsecond ⊢
    rcases List.mem_append.mp hsecond with hold | hnew
    · exact (hserial.realTime first r second t op hhistory hold).trans
        (List.sublist_append_left _ _)
    · rw [List.mem_singleton.mp hnew]
      have hfirst := hserial.mem_of_ret (hhistory.subset List.mem_cons_self)
      exact (List.singleton_sublist.mpr hfirst).append (List.Sublist.refl _)
  values := hvalues

theorem record (hserial : Serialization effect start s order) {event : Event Tid Op R}
    (hhistory : s'.history = s.history ++ [event])
    (hresult : ∀ id r, event = .ret id r → ∃ before c after, order = before ++ c :: after ∧
      c.id = id ∧ r = resultAfter effect start before c)
    (hcall : ∀ id t op, event = .call id t op → id ∉ order.map Call.id)
    (hvalues : ∀ o, Free s' o → s'.value o = valuesAfter effect start order o) :
    Serialization effect start s' order where
  called := by
    intro call hcall
    obtain ⟨t, hmem⟩ := hserial.called call hcall
    rw [hhistory]
    exact ⟨t, List.mem_append_left _ hmem⟩
  once := hserial.once
  results := by
    intro id r hret
    rw [hhistory] at hret
    rcases List.mem_append.mp hret with hold | hnew
    · exact hserial.results id r hold
    · exact hresult id r (List.mem_singleton.mp hnew).symm
  realTime := by
    intro first r second t op hpair hsecond
    rw [hhistory] at hpair
    rcases pair_sublist_append_singleton.mp hpair with hold | ⟨-, hlast⟩
    · exact hserial.realTime first r second t op hold hsecond
    · exact absurd hsecond (hcall second t op hlast.symm)
  values := hvalues

theorem ret (hserial : Serialization effect start s order) {id : Nat} {r : R}
    (hhistory : s'.history = s.history ++ [.ret id r])
    (hresult : ∃ before c after, order = before ++ c :: after ∧ c.id = id ∧
      r = resultAfter effect start before c)
    (hvalues : ∀ o, Free s' o → s'.value o = valuesAfter effect start order o) :
    Serialization effect start s' order := by
  apply hserial.record hhistory _ nofun hvalues
  rintro _ _ ⟨⟩
  exact hresult

theorem call (hserial : Serialization effect start s order) {id : Nat} {t : Tid} {op : Op}
    (hhistory : s'.history = s.history ++ [.call id t op]) (hid : id ∉ order.map Call.id)
    (hvalues : ∀ o, Free s' o → s'.value o = valuesAfter effect start order o) :
    Serialization effect start s' order := by
  apply hserial.record hhistory nofun _ hvalues
  rintro _ _ _ ⟨⟩
  exact hid

end Serialization

variable [DecidableEq Obj] {p : Interface Op Obj V R}

/-- The call holds no mutex and has no place in the order yet. Whatever values
it will find, it has used only objects of its own. -/
structure Waiting (p : Interface Op Obj V R) (start : Obj → V) (s : State Tid Op Obj V R)
    (order : List (Call Op)) (t : Tid) (c : Running Op Obj V R) : Prop where
  owner : ∀ o, s.owner o ≠ some t
  code : c.code.Disciplined (p.fresh c.op) (p.uses c.op)
  unordered : c.id ∉ order.map Call.id
  run : ∀ values, (∀ o ∈ p.fresh c.op, values o = valuesAfter p.effect start order o) →
    (p.code c.op).run values = c.code.run (overlay (p.fresh c.op) s.value values)

/-- The call holds the mutexes of `held`, has its place in the order, and will
return and leave what it would there. -/
structure Inside (p : Interface Op Obj V R) (start : Obj → V) (s : State Tid Op Obj V R)
    (order : List (Call Op)) (t : Tid) (c : Running Op Obj V R) (held : List Obj) : Prop where
  owner : ∀ o, s.owner o = some t ↔ o ∈ held
  allowed : ∀ o ∈ held, o ∈ p.uses c.op ∨ o ∈ p.fresh c.op
  code : c.code.Guarded (p.fresh c.op) held
  result : ∃ before after, order = before ++ c.toCall :: after ∧
    (c.code.run s.value).1 = resultAfter p.effect start before c.toCall
  values : ∀ o, o ∈ held ∨ o ∈ p.fresh c.op →
    (c.code.run s.value).2 o = valuesAfter p.effect start order o

structure Active (p : Interface Op Obj V R) (start : Obj → V) (s : State Tid Op Obj V R)
    (order : List (Call Op)) (t : Tid) (c : Running Op Obj V R) : Prop where
  called : .call c.id t c.op ∈ s.history
  fresh : ∀ o ∈ p.fresh c.op, s.status o = .building t
  uses : ∀ o ∈ p.uses c.op, s.status o = .ready
  phase : Waiting p start s order t c ∨ ∃ held, Inside p start s order t c held

structure Orderly (p : Interface Op Obj V R) (start : Obj → V) (s : State Tid Op Obj V R)
    (order : List (Call Op)) : Prop where
  active : ∀ t c, s.running t = some c → Active p start s order t c
  owner : ∀ o t, s.owner o = some t → ∃ c, s.running t = some c
  building : ∀ o t, s.status o = .building t → ∃ c, s.running t = some c ∧ o ∈ p.fresh c.op
  distinct : ∀ t t' c c', s.running t = some c → s.running t' = some c' → c.id = c'.id → t = t'
  bounded : ∀ id t op, .call id t op ∈ s.history → id < s.history.length
  serial : Serialization p.effect start s order

section Territory

variable {t t' : Tid} {c : Running Op Obj V R} {o : Obj} {held : List Obj}

theorem Orderly.status_of_owner (horderly : Orderly p start s order) (howner : s.owner o = some t) :
    s.status o = .ready ∨ s.status o = .building t := by
  obtain ⟨c, hc⟩ := horderly.owner o t howner
  have hactive := horderly.active t c hc
  cases hactive.phase with
  | inl hwaiting => exact absurd howner (hwaiting.owner o)
  | inr hinside =>
      obtain ⟨held, hinside⟩ := hinside
      cases hinside.allowed o ((hinside.owner o).mp howner) with
      | inl huses => exact .inl (hactive.uses o huses)
      | inr hfresh => exact .inr (hactive.fresh o hfresh)

theorem Orderly.territory_disjoint (horderly : Orderly p start s order)
    (ht : o ∈ territory s t) (ht' : o ∈ territory s t') : t = t' := by
  have hmixed : ∀ {t t'}, s.owner o = some t → s.status o = .building t' → t = t' := by
    intro t t' howner hbuilding
    rcases horderly.status_of_owner howner with hready | hown
    · rw [hready] at hbuilding
      cases hbuilding
    · rw [hown] at hbuilding
      exact Status.building.inj hbuilding
  rcases ht with howner | hbuilding <;> rcases ht' with howner' | hbuilding'
  · rw [howner] at howner'
    exact Option.some_inj.mp howner'
  · exact hmixed howner hbuilding'
  · exact (hmixed howner' hbuilding).symm
  · rw [hbuilding] at hbuilding'
    exact Status.building.inj hbuilding'

theorem Active.fresh_subset (hactive : Active p start s order t c) :
    ∀ o ∈ p.fresh c.op, o ∈ territory s t :=
  fun o ho => .inr (hactive.fresh o ho)

theorem Inside.subset (hinside : Inside p start s order t c held)
    (hactive : Active p start s order t c) :
    ∀ o, o ∈ held ∨ o ∈ p.fresh c.op → o ∈ territory s t := by
  rintro o (hheld | hfresh)
  · exact .inl ((hinside.owner o).mpr hheld)
  · exact hactive.fresh_subset o hfresh

theorem Orderly.id_lt (horderly : Orderly p start s order) {id : Nat}
    (hid : id ∈ order.map Call.id) : id < s.history.length := by
  obtain ⟨call, hcall, rfl⟩ := List.mem_map.mp hid
  obtain ⟨t, hcalled⟩ := horderly.serial.called call hcall
  exact horderly.bounded call.id t call.op hcalled

end Territory

section Frame

variable {t : Tid} {c : Running Op Obj V R} {extra : List (Call Op)} {held : List Obj}

theorem Waiting.frame (hwaiting : Waiting p start s order t c)
    (hfresh : ∀ o ∈ p.fresh c.op, o ∈ territory s t)
    (howner : ∀ o, s'.owner o = some t ↔ s.owner o = some t)
    (hvalue : ∀ o ∈ territory s t, s'.value o = s.value o)
    (horder : ∀ o ∈ territory s t,
      valuesAfter p.effect start (order ++ extra) o = valuesAfter p.effect start order o)
    (hid : c.id ∉ extra.map Call.id) : Waiting p start s' (order ++ extra) t c where
  owner := by
    intro o hown
    exact hwaiting.owner o ((howner o).mp hown)
  code := hwaiting.code
  unordered := by
    rw [List.map_append, List.mem_append]
    exact not_or.mpr ⟨hwaiting.unordered, hid⟩
  run := by
    intro values hvalues
    rw [overlay_congr fun o ho => hvalue o (hfresh o ho)]
    apply hwaiting.run
    intro o ho
    rw [hvalues o ho, horder o (hfresh o ho)]

theorem Inside.frame (hinside : Inside p start s order t c held)
    (hsubset : ∀ o, o ∈ held ∨ o ∈ p.fresh c.op → o ∈ territory s t)
    (howner : ∀ o, s'.owner o = some t ↔ s.owner o = some t)
    (hvalue : ∀ o ∈ territory s t, s'.value o = s.value o)
    (horder : ∀ o ∈ territory s t,
      valuesAfter p.effect start (order ++ extra) o = valuesAfter p.effect start order o) :
    Inside p start s' (order ++ extra) t c held := by
  have hrun := hinside.code.within.run_congr fun o ho => hvalue o (hsubset o ho)
  obtain ⟨before, after, heq, hresult⟩ := hinside.result
  exact
    { owner := fun o => (howner o).trans (hinside.owner o)
      allowed := hinside.allowed
      code := hinside.code
      result := ⟨before, after ++ extra, by rw [heq]; simp, hrun.1.trans hresult⟩
      values := by
        intro o ho
        rw [horder o (hsubset o ho), ← hinside.values o ho]
        exact hrun.2 ho }

theorem Waiting.valuesAfter_append (hwaiting : Waiting p start s order t c) :
    valuesAfter p.effect start (order ++ [c.toCall]) =
      (c.code.run (overlay (p.fresh c.op) s.value (valuesAfter p.effect start order))).2 := by
  rw [valuesAfter_append_singleton]
  exact congrArg Prod.snd (hwaiting.run _ fun _ _ => rfl)

theorem Waiting.resultAfter_eq (hwaiting : Waiting p start s order t c) :
    resultAfter p.effect start order c.toCall =
      (c.code.run (overlay (p.fresh c.op) s.value (valuesAfter p.effect start order))).1 :=
  congrArg Prod.fst (hwaiting.run _ fun _ _ => rfl)

theorem Active.frame (hactive : Active p start s order t c) (hextends : order' = order ++ extra)
    (hhistory : ∀ event ∈ s.history, event ∈ s'.history)
    (howner : ∀ o, s'.owner o = some t ↔ s.owner o = some t)
    (hready : ∀ o, s.status o = .ready → s'.status o = .ready)
    (hbuilding : ∀ o, s.status o = .building t → s'.status o = .building t)
    (hvalue : ∀ o ∈ territory s t, s'.value o = s.value o)
    (horder : ∀ o ∈ territory s t,
      valuesAfter p.effect start order' o = valuesAfter p.effect start order o)
    (hid : c.id ∉ extra.map Call.id) : Active p start s' order' t c where
  called := hhistory _ hactive.called
  fresh := fun o ho => hbuilding o (hactive.fresh o ho)
  uses := fun o ho => hready o (hactive.uses o ho)
  phase := by
    subst hextends
    cases hactive.phase with
    | inl hwaiting =>
        exact .inl (hwaiting.frame hactive.fresh_subset howner hvalue horder hid)
    | inr hinside =>
        obtain ⟨held, hinside⟩ := hinside
        exact .inr ⟨held, hinside.frame (hinside.subset hactive) howner hvalue horder⟩

end Frame

section Phases

variable {t : Tid} {c : Running Op Obj V R} {next : Code Obj V R} {objs : List Obj} {o : Obj}

theorem Active.waiting_of_lock (hactive : Active p start s order t c)
    (hcode : c.code = .lock objs next) : Waiting p start s order t c := by
  rcases hactive.phase with hwaiting | ⟨held, hinside⟩
  · exact hwaiting
  · have hguarded := hinside.code
    rw [hcode] at hguarded
    exact hguarded.elim

theorem Orderly.eqOn_overlay (horderly : Orderly p start s order)
    (hactive : Active p start s order t c)
    (hallowed : ∀ o ∈ objs, o ∈ p.uses c.op ∨ o ∈ p.fresh c.op)
    (hfree : ∀ o ∈ objs, s.owner o = none) :
    Set.EqOn s.value (overlay (p.fresh c.op) s.value (valuesAfter p.effect start order))
      {o | o ∈ objs ∨ o ∈ p.fresh c.op} := by
  intro o ho
  by_cases hfresh : o ∈ p.fresh c.op
  · rw [overlay_of_mem hfresh]
  · have hobjs := ho.resolve_right hfresh
    have hready := hactive.uses o ((hallowed o hobjs).resolve_right hfresh)
    rw [overlay_of_notMem hfresh]
    exact horderly.serial.values o ⟨hfree o hobjs, by simp [hready]⟩

theorem Orderly.notMem_of_territory (horderly : Orderly p start s order)
    (hactive : Active p start s order t c)
    (hallowed : ∀ o ∈ objs, o ∈ p.uses c.op ∨ o ∈ p.fresh c.op)
    (hfree : ∀ o ∈ objs, s.owner o = none) {t' : Tid} (hne : t' ≠ t) (ho : o ∈ territory s t') :
    ¬(o ∈ objs ∨ o ∈ p.fresh c.op) := by
  intro hmem
  have hnotFresh : o ∉ p.fresh c.op := fun hfresh =>
    hne (horderly.territory_disjoint ho (hactive.fresh_subset o hfresh))
  have hobjs := hmem.resolve_right hnotFresh
  have hready := hactive.uses o ((hallowed o hobjs).resolve_right hnotFresh)
  rcases ho with howner | hbuilding
  · rw [hfree o hobjs] at howner
    cases howner
  · rw [hready] at hbuilding
    cases hbuilding

theorem Active.inside_of_unlock (hactive : Active p start s order t c)
    (hcode : c.code = .unlock objs next) : Inside p start s order t c objs := by
  rcases hactive.phase with hwaiting | ⟨held, hinside⟩
  · have hdisciplined := hwaiting.code
    rw [hcode] at hdisciplined
    exact hdisciplined.elim
  · have hguarded := hinside.code
    rw [hcode] at hguarded
    rw [hguarded.1]
    exact hinside

theorem Orderly.free_of_raw (horderly : Orderly p start s order) (hraw : s.status o = .raw) :
    Free s o := by
  constructor
  · by_contra howned
    obtain ⟨t, howner⟩ := Option.ne_none_iff_exists'.mp howned
    rcases horderly.status_of_owner howner with hstatus | hstatus
    · rw [hraw] at hstatus
      cases hstatus
    · rw [hraw] at hstatus
      cases hstatus
  · simp [hraw]

end Phases

section Steps

variable [DecidableEq Tid] {t : Tid} {c : Running Op Obj V R} {extra : List (Call Op)}
  {next : Code Obj V R} {objs held : List Obj} {o : Obj}

theorem Orderly.ongoing (horderly : Orderly p start s order) (hc : s.running t = some c)
    (hextends : order' = order ++ extra) (hextra : ∀ call ∈ extra, call = c.toCall)
    (hstatus : s'.status = s.status) (hhistory : s'.history = s.history)
    (hrunning : s'.running = Function.update s.running t (some { c with code := next }))
    (howner : ∀ t', t' ≠ t → ∀ o, s'.owner o = some t' ↔ s.owner o = some t')
    (hvalue : ∀ o, o ∉ territory s t → s'.value o = s.value o)
    (horder : ∀ t', t' ≠ t → ∀ o ∈ territory s t',
      valuesAfter p.effect start order' o = valuesAfter p.effect start order o)
    (hphase : Waiting p start s' order' t { c with code := next } ∨
      ∃ held, Inside p start s' order' t { c with code := next } held)
    (hserial : Serialization p.effect start s' order') : Orderly p start s' order' := by
  subst hextends
  have hself : s'.running t = some { c with code := next } := by
    rw [hrunning, Function.update_self]
  have hother : ∀ t', t' ≠ t → s'.running t' = s.running t' := by
    intro t' hne
    rw [hrunning, Function.update_of_ne hne]
  constructor
  case active =>
    intro t' c' hc'
    by_cases heq : t' = t
    · subst heq
      rw [hself, Option.some_inj] at hc'
      subst hc'
      have hactive := horderly.active t' c hc
      exact ⟨hhistory ▸ hactive.called, hstatus ▸ hactive.fresh, hstatus ▸ hactive.uses, hphase⟩
    · rw [hother t' heq] at hc'
      apply (horderly.active t' c' hc').frame rfl (fun _ hevent => hhistory ▸ hevent)
        (howner t' heq) (fun _ h => hstatus ▸ h) (fun _ h => hstatus ▸ h)
      · intro o ho
        exact hvalue o fun hown => heq (horderly.territory_disjoint ho hown)
      · exact horder t' heq
      · intro hid
        obtain ⟨call, hcall, hcallId⟩ := List.mem_map.mp hid
        rw [hextra call hcall] at hcallId
        exact heq (horderly.distinct t' t c' c hc' hc hcallId.symm)
  case owner =>
    intro o t' howns
    by_cases heq : t' = t
    · exact ⟨_, heq ▸ hself⟩
    · rw [hother t' heq]
      exact horderly.owner o t' ((howner t' heq o).mp howns)
  case building =>
    intro o t' hbuilding
    rw [hstatus] at hbuilding
    obtain ⟨c', hc', ho⟩ := horderly.building o t' hbuilding
    by_cases heq : t' = t
    · subst heq
      rw [hc, Option.some_inj] at hc'
      subst hc'
      exact ⟨_, hself, ho⟩
    · exact ⟨c', (hother t' heq).trans hc', ho⟩
  case distinct =>
    have hold : ∀ t' c', s'.running t' = some c' →
        ∃ c₀, s.running t' = some c₀ ∧ c₀.id = c'.id := by
      intro t' c' hc'
      by_cases heq : t' = t
      · subst heq
        rw [hself, Option.some_inj] at hc'
        subst hc'
        exact ⟨c, hc, rfl⟩
      · exact ⟨c', (hother t' heq) ▸ hc', rfl⟩
    intro t₁ t₂ c₁ c₂ h₁ h₂ hid
    obtain ⟨d₁, hd₁, hid₁⟩ := hold t₁ c₁ h₁
    obtain ⟨d₂, hd₂, hid₂⟩ := hold t₂ c₂ h₂
    exact horderly.distinct t₁ t₂ d₁ d₂ hd₁ hd₂ (by rw [hid₁, hid₂, hid])
  case bounded =>
    rw [hhistory]
    exact horderly.bounded
  case serial => exact hserial

theorem Orderly.read (horderly : Orderly p start s order) (hc : s.running t = some c)
    {rest : V → Code Obj V R} (hcode : c.code = .read o rest) :
    Orderly p start (proceed s t c (rest (s.value o))) order := by
  have hserial : Serialization p.effect start (proceed s t c (rest (s.value o))) order :=
    horderly.serial.of_values rfl fun o hfree =>
      horderly.serial.values o ⟨hfree.owner, hfree.status⟩
  refine horderly.ongoing hc (List.append_nil order).symm (by simp) rfl rfl rfl
    (fun _ _ _ => Iff.rfl) (fun _ _ => rfl) (fun _ _ _ _ => rfl) ?_ hserial
  cases (horderly.active t c hc).phase with
  | inl hwaiting =>
      have hdisciplined := hwaiting.code
      rw [hcode] at hdisciplined
      refine .inl ⟨hwaiting.owner, hdisciplined.2 _, hwaiting.unordered, ?_⟩
      intro values hvalues
      rw [hwaiting.run values hvalues, hcode, Code.run_read, overlay_of_mem hdisciplined.1]
      rfl
  | inr hinside =>
      obtain ⟨held, hinside⟩ := hinside
      have hguarded := hinside.code
      have hresult := hinside.result
      have hvalues := hinside.values
      rw [hcode] at hguarded hresult hvalues
      exact .inr ⟨held, hinside.owner, hinside.allowed, hguarded.2 _, hresult, hvalues⟩

theorem Orderly.write (horderly : Orderly p start s order) (hc : s.running t = some c) {x : V}
    (hcode : c.code = .write o x next) : Orderly p start
      (proceed { s with value := Function.update s.value o x } t c next) order := by
  have hactive := horderly.active t c hc
  have hterritory : o ∈ territory s t := by
    cases hactive.phase with
    | inl hwaiting =>
        have hdisciplined := hwaiting.code
        rw [hcode] at hdisciplined
        exact hactive.fresh_subset o hdisciplined.1
    | inr hinside =>
        obtain ⟨held, hinside⟩ := hinside
        have hguarded := hinside.code
        rw [hcode] at hguarded
        exact hinside.subset hactive o hguarded.1
  have hvalue : ∀ other, other ∉ territory s t →
      Function.update s.value o x other = s.value other := by
    intro other hother
    apply Function.update_of_ne
    intro heq
    exact hother (heq ▸ hterritory)
  have hserial : Serialization p.effect start
      (proceed { s with value := Function.update s.value o x } t c next) order := by
    refine horderly.serial.of_values rfl ?_
    intro other hfree
    have hfree : Free s other := ⟨hfree.owner, hfree.status⟩
    exact (hvalue other (hfree.notMem_territory t)).trans (horderly.serial.values other hfree)
  refine horderly.ongoing hc (List.append_nil order).symm (by simp) rfl rfl rfl
    (fun _ _ _ => Iff.rfl) hvalue (fun _ _ _ _ => rfl) ?_ hserial
  cases hactive.phase with
  | inl hwaiting =>
      have hdisciplined := hwaiting.code
      rw [hcode] at hdisciplined
      refine .inl ⟨hwaiting.owner, hdisciplined.2, hwaiting.unordered, ?_⟩
      intro values hvalues
      rw [hwaiting.run values hvalues, hcode, Code.run_write, ← overlay_update hdisciplined.1]
      rfl
  | inr hinside =>
      obtain ⟨held, hinside⟩ := hinside
      have hguarded := hinside.code
      have hresult := hinside.result
      have hvalues := hinside.values
      rw [hcode] at hguarded hresult hvalues
      exact .inr ⟨held, hinside.owner, hinside.allowed, hguarded.2, hresult, hvalues⟩

theorem Orderly.lock (horderly : Orderly p start s order) (hc : s.running t = some c)
    (hcode : c.code = .lock objs next) (hfree : ∀ o ∈ objs, s.owner o = none) :
    Orderly p start (proceed (setOwner s objs (some t)) t c next) (order ++ [c.toCall]) := by
  have hactive := horderly.active t c hc
  have hwaiting := hactive.waiting_of_lock hcode
  have hdisciplined := hwaiting.code
  have hresult := hwaiting.resultAfter_eq
  have hvalues := hwaiting.valuesAfter_append
  rw [hcode] at hdisciplined hresult hvalues
  rw [Code.run_lock] at hresult hvalues
  obtain ⟨-, hallowed, hguarded⟩ := hdisciplined
  have hfound := hguarded.within.run_congr (horderly.eqOn_overlay hactive hallowed hfree)
  have houtside : ∀ o, ¬(o ∈ objs ∨ o ∈ p.fresh c.op) →
      valuesAfter p.effect start (order ++ [c.toCall]) o = valuesAfter p.effect start order o := by
    intro o ho
    rw [hvalues, hguarded.within.run_of_notMem ho,
      overlay_of_notMem fun hfresh => ho (.inr hfresh)]
  have hafter : ∀ o, Free (proceed (setOwner s objs (some t)) t c next) o →
      Free s o ∧ ¬(o ∈ objs ∨ o ∈ p.fresh c.op) := by
    intro o hafter
    have hobjs : o ∉ objs := by
      intro hobjs
      have howner := hafter.owner
      rw [owner_proceed, owner_setOwner_of_mem hobjs] at howner
      cases howner
    have hfresh : o ∉ p.fresh c.op := fun hfresh => hafter.status t (hactive.fresh o hfresh)
    exact ⟨⟨(owner_setOwner_of_notMem hobjs).symm.trans hafter.owner, hafter.status⟩,
      not_or.mpr ⟨hobjs, hfresh⟩⟩
  refine horderly.ongoing hc rfl (fun _ => List.mem_singleton.mp) rfl rfl rfl ?_ (fun _ _ => rfl)
    ?_ (.inr ⟨objs, ?_, hallowed, hguarded, ⟨order, [], rfl, ?_⟩, ?_⟩) ?_
  · intro t' hne o
    rw [owner_proceed]
    by_cases hobjs : o ∈ objs
    · rw [owner_setOwner_of_mem hobjs, hfree o hobjs]
      simp [hne.symm]
    · rw [owner_setOwner_of_notMem hobjs]
  · intro t' hne o ho
    exact houtside o (horderly.notMem_of_territory hactive hallowed hfree hne ho)
  · intro o
    by_cases hobjs : o ∈ objs
    · exact iff_of_true (owner_setOwner_of_mem hobjs) hobjs
    · rw [owner_proceed, owner_setOwner_of_notMem hobjs]
      exact iff_of_false (hwaiting.owner o) hobjs
  · exact hfound.1.trans hresult.symm
  · intro o ho
    rw [hvalues]
    exact hfound.2 ho
  · have hbefore : Serialization p.effect start (proceed (setOwner s objs (some t)) t c next)
        order :=
      horderly.serial.of_values rfl fun o hfree => horderly.serial.values o (hafter o hfree).1
    apply hbefore.append hactive.called hwaiting.unordered
    intro o hfree
    obtain ⟨hbefore, ho⟩ := hafter o hfree
    rw [houtside o ho]
    exact horderly.serial.values o hbefore

theorem Orderly.unlock (horderly : Orderly p start s order) (hc : s.running t = some c)
    (hcode : c.code = .unlock objs next) :
    Orderly p start (proceed (setOwner s objs none) t c next) order := by
  have hactive := horderly.active t c hc
  have hinside := hactive.inside_of_unlock hcode
  have hguarded := hinside.code
  have hresult := hinside.result
  have hvalues := hinside.values
  rw [hcode] at hguarded hresult hvalues
  have hwithin := hguarded.2.within
  refine horderly.ongoing hc (List.append_nil order).symm (by simp) rfl rfl rfl ?_ (fun _ _ => rfl)
    (fun _ _ _ _ => rfl) (.inr ⟨[], ?_, by simp, hguarded.2, hresult, ?_⟩) ?_
  · intro t' hne o
    rw [owner_proceed]
    by_cases hobjs : o ∈ objs
    · rw [owner_setOwner_of_mem hobjs, (hinside.owner o).mpr hobjs]
      simp [hne.symm]
    · rw [owner_setOwner_of_notMem hobjs]
  · intro o
    rw [owner_proceed]
    by_cases hobjs : o ∈ objs
    · simp [owner_setOwner_of_mem hobjs]
    · rw [owner_setOwner_of_notMem hobjs, hinside.owner o]
      exact iff_of_false hobjs List.not_mem_nil
  · intro o ho
    exact hvalues o (.inr (ho.resolve_left List.not_mem_nil))
  · refine horderly.serial.of_values rfl ?_
    intro o hafter
    have hnotFresh : o ∉ p.fresh c.op := fun hfresh => hafter.status t (hactive.fresh o hfresh)
    by_cases hobjs : o ∈ objs
    · rw [← hvalues o (.inl hobjs)]
      exact (hwithin.run_of_notMem (by simp [hnotFresh]) s.value).symm
    · apply horderly.serial.values o
      exact ⟨(owner_setOwner_of_notMem hobjs).symm.trans hafter.owner, hafter.status⟩

/-- A call that returns has its place in the order, at the latest now. -/
theorem Orderly.inside_of_ret (horderly : Orderly p start s order) (hc : s.running t = some c)
    {r : R} (hcode : c.code = .ret r) :
    ∃ order', Orderly p start s order' ∧ Inside p start s order' t c [] := by
  have hactive := horderly.active t c hc
  rcases hactive.phase with hwaiting | ⟨held, hinside⟩
  · have hresult := hwaiting.resultAfter_eq
    have hvalues := hwaiting.valuesAfter_append
    rw [hcode, Code.run_ret] at hresult hvalues
    dsimp only at hresult hvalues
    have houtside : ∀ o, o ∉ p.fresh c.op →
        valuesAfter p.effect start (order ++ [c.toCall]) o =
          valuesAfter p.effect start order o := by
      intro o ho
      rw [hvalues, overlay_of_notMem ho]
    have hinside : Inside p start s (order ++ [c.toCall]) t c [] := by
      refine ⟨?_, by simp, by rw [hcode]; rfl, ⟨order, [], rfl, ?_⟩, ?_⟩
      · intro o
        exact iff_of_false (hwaiting.owner o) List.not_mem_nil
      · rw [hcode, hresult]
        rfl
      · intro o ho
        rw [hcode, hvalues, overlay_of_mem (ho.resolve_left List.not_mem_nil)]
        rfl
    refine ⟨order ++ [c.toCall], ?_, hinside⟩
    refine horderly.ongoing hc rfl (fun _ => List.mem_singleton.mp) rfl rfl
      (Function.update_eq_self_iff.mpr hc.symm).symm (fun _ _ _ => Iff.rfl) (fun _ _ => rfl) ?_
      (.inr ⟨[], hinside⟩) ?_
    · intro t' hne o ho
      exact houtside o fun hfresh =>
        hne (horderly.territory_disjoint ho (hactive.fresh_subset o hfresh))
    · apply horderly.serial.append hactive.called hwaiting.unordered
      intro o hfree
      rw [houtside o fun hfresh => hfree.status t (hactive.fresh o hfresh)]
      exact horderly.serial.values o hfree
  · have hguarded := hinside.code
    rw [hcode] at hguarded
    exact ⟨order, horderly, hguarded ▸ hinside⟩

theorem Orderly.finish (horderly : Orderly p start s order) (hc : s.running t = some c) {r : R}
    (hcode : c.code = .ret r) (hinside : Inside p start s order t c []) :
    Orderly p start (LockMachine.finish p s t c r) order := by
  have hactive := horderly.active t c hc
  have hother : ∀ t' c', (LockMachine.finish p s t c r).running t' = some c' →
      t' ≠ t ∧ s.running t' = some c' := by
    intro t' c' hc'
    have hne : t' ≠ t := by
      rintro rfl
      rw [running_finish_self] at hc'
      cases hc'
    exact ⟨hne, (running_finish_of_ne hne).symm.trans hc'⟩
  have hsame : ∀ t', t' ≠ t → ∀ o, s.status o = .building t' → o ∉ p.fresh c.op := by
    intro t' hne o hbuilding hfresh
    rw [hactive.fresh o hfresh] at hbuilding
    exact hne (Status.building.inj hbuilding).symm
  constructor
  case active =>
    intro t' c' hc'
    obtain ⟨hne, hc'⟩ := hother t' c' hc'
    refine (horderly.active t' c' hc').frame (List.append_nil order).symm
      (fun _ => List.mem_append_left _) (fun _ => Iff.rfl) ?_ ?_ (fun _ _ => rfl) (fun _ _ => rfl)
      List.not_mem_nil
    · intro o hready
      have hnotFresh : o ∉ p.fresh c.op := by
        intro hfresh
        rw [hactive.fresh o hfresh] at hready
        cases hready
      exact (settled_of_notMem hnotFresh).trans hready
    · intro o hbuilding
      exact (settled_of_notMem (hsame t' hne o hbuilding)).trans hbuilding
  case owner =>
    intro o t' howner
    have hne : t' ≠ t := by
      rintro rfl
      exact List.not_mem_nil ((hinside.owner o).mp howner)
    obtain ⟨c', hc'⟩ := horderly.owner o t' howner
    exact ⟨c', (running_finish_of_ne hne).trans hc'⟩
  case building =>
    intro o t' hbuilding
    have hnotFresh : o ∉ p.fresh c.op := fun hfresh => settled_of_mem hfresh t' hbuilding
    obtain ⟨c', hc', ho⟩ :=
      horderly.building o t' ((settled_of_notMem hnotFresh).symm.trans hbuilding)
    have hne : t' ≠ t := by
      rintro rfl
      rw [hc, Option.some_inj] at hc'
      exact hnotFresh (hc' ▸ ho)
    exact ⟨c', (running_finish_of_ne hne).trans hc', ho⟩
  case distinct =>
    intro t₁ t₂ c₁ c₂ h₁ h₂ hid
    exact horderly.distinct t₁ t₂ c₁ c₂ (hother t₁ c₁ h₁).2 (hother t₂ c₂ h₂).2 hid
  case bounded =>
    intro id t' op hcall
    rcases List.mem_append.mp hcall with hold | hnew
    · have hlt := horderly.bounded id t' op hold
      exact Nat.lt_of_lt_of_le hlt (List.sublist_append_left _ _).length_le
    · cases List.mem_singleton.mp hnew
  case serial =>
    obtain ⟨before, after, horder, hresult⟩ := hinside.result
    have hvalues := hinside.values
    rw [hcode] at hresult hvalues
    refine horderly.serial.ret rfl ⟨before, c.toCall, after, horder, rfl, hresult⟩ ?_
    intro o hfree
    by_cases hfresh : o ∈ p.fresh c.op
    · exact hvalues o (.inr hfresh)
    · apply horderly.serial.values o
      refine ⟨hfree.owner, fun t' hbuilding => hfree.status t' ?_⟩
      exact (settled_of_notMem hfresh).trans hbuilding

theorem Orderly.waiting_enter (horderly : Orderly p start s order) (hdisciplined : p.Disciplined)
    {op : Op} (hidle : s.running t = none) (hraw : ∀ o ∈ p.fresh op, s.status o = .raw) :
    Waiting p start (enter p s t op) order t ⟨⟨s.history.length, op⟩, p.code op⟩ where
  owner := by
    intro o howner
    obtain ⟨c, hc⟩ := horderly.owner o t howner
    rw [hidle] at hc
    cases hc
  code := hdisciplined.code op
  unordered := fun hid => absurd (horderly.id_lt hid) (Nat.lt_irrefl _)
  run := by
    intro values hvalues
    rw [overlay_eq_of_agree]
    intro o ho
    rw [hvalues o ho]
    exact horderly.serial.values o (horderly.free_of_raw (hraw o ho))

theorem Orderly.call (horderly : Orderly p start s order) (hdisciplined : p.Disciplined) {op : Op}
    (hidle : s.running t = none) (huses : ∀ o ∈ p.uses op, s.status o = .ready)
    (hraw : ∀ o ∈ p.fresh op, s.status o = .raw) : Orderly p start (enter p s t op) order := by
  have hrunning : ∀ t' c', s.running t' = some c' → t' ≠ t ∧ c'.id < s.history.length := by
    intro t' c' hc'
    constructor
    · rintro rfl
      rw [hidle] at hc'
      cases hc'
    · exact horderly.bounded c'.id t' c'.op (horderly.active t' c' hc').called
  have hother : ∀ t' c', (enter p s t op).running t' = some c' →
      t' = t ∧ c' = ⟨⟨s.history.length, op⟩, p.code op⟩ ∨ s.running t' = some c' := by
    intro t' c' hc'
    by_cases heq : t' = t
    · subst heq
      rw [running_enter_self, Option.some_inj] at hc'
      exact .inl ⟨rfl, hc'.symm⟩
    · exact .inr ((running_enter_of_ne heq).symm.trans hc')
  have hstatus : ∀ o, s.status o ≠ .raw → (enter p s t op).status o = s.status o := by
    intro o hne
    exact status_enter_of_notMem fun hfresh => hne (hraw o hfresh)
  constructor
  case active =>
    intro t' c' hc'
    rcases hother t' c' hc' with ⟨rfl, rfl⟩ | hc'
    · refine ⟨List.mem_append_right _ List.mem_cons_self, fun o => status_enter_of_mem, ?_,
        .inl (horderly.waiting_enter hdisciplined hidle hraw)⟩
      intro o ho
      rw [hstatus o (by simp [huses o ho]), huses o ho]
    · refine (horderly.active t' c' hc').frame (List.append_nil order).symm
        (fun _ => List.mem_append_left _) (fun _ => Iff.rfl) ?_ ?_ (fun _ _ => rfl)
        (fun _ _ => rfl) List.not_mem_nil
      · intro o hready
        rw [hstatus o (by simp [hready]), hready]
      · intro o hbuilding
        rw [hstatus o (by simp [hbuilding]), hbuilding]
  case owner =>
    intro o t' howner
    obtain ⟨c', hc'⟩ := horderly.owner o t' howner
    exact ⟨c', (running_enter_of_ne (hrunning t' c' hc').1).trans hc'⟩
  case building =>
    intro o t' hbuilding
    by_cases hfresh : o ∈ p.fresh op
    · rw [status_enter_of_mem hfresh] at hbuilding
      cases hbuilding
      exact ⟨_, running_enter_self, hfresh⟩
    · rw [status_enter_of_notMem hfresh] at hbuilding
      obtain ⟨c', hc', ho⟩ := horderly.building o t' hbuilding
      exact ⟨c', (running_enter_of_ne (hrunning t' c' hc').1).trans hc', ho⟩
  case distinct =>
    intro t₁ t₂ c₁ c₂ h₁ h₂ hid
    rcases hother t₁ c₁ h₁ with ⟨rfl, rfl⟩ | hold₁ <;>
      rcases hother t₂ c₂ h₂ with ⟨rfl, rfl⟩ | hold₂
    · rfl
    · exact absurd hid (Nat.ne_of_gt (hrunning t₂ c₂ hold₂).2)
    · exact absurd hid (Nat.ne_of_lt (hrunning t₁ c₁ hold₁).2)
    · exact horderly.distinct t₁ t₂ c₁ c₂ hold₁ hold₂ hid
  case bounded =>
    intro id t' op' hcall
    have hlength : (enter p s t op).history.length = s.history.length + 1 := List.length_append
    rw [hlength]
    rcases List.mem_append.mp hcall with hold | hnew
    · exact Nat.lt_succ_of_lt (horderly.bounded id t' op' hold)
    · cases List.mem_singleton.mp hnew
      exact Nat.lt_succ_self _
  case serial =>
    refine horderly.serial.call rfl (fun hid => absurd (horderly.id_lt hid) (Nat.lt_irrefl _)) ?_
    intro o hafter
    apply horderly.serial.values o
    have hfresh : o ∉ p.fresh op := fun hfresh => hafter.status t (status_enter_of_mem hfresh)
    exact ⟨hafter.owner, fun t' hbuilding =>
      hafter.status t' ((status_enter_of_notMem hfresh).trans hbuilding)⟩

theorem Orderly.advance (horderly : Orderly p start s order)
    (hstep : LockMachine.advance p s t = some s') : ∃ order', Orderly p start s' order' := by
  unfold LockMachine.advance at hstep
  cases hc : s.running t with
  | none =>
      rw [hc] at hstep
      cases hstep
  | some c =>
      rw [hc] at hstep
      cases hcode : c.code with
      | ret r =>
          simp only [hcode] at hstep
          cases hstep
          obtain ⟨order', horderly', hinside⟩ := horderly.inside_of_ret hc hcode
          exact ⟨order', horderly'.finish hc hcode hinside⟩
      | lock objs next =>
          simp only [hcode] at hstep
          obtain ⟨⟨-, hfree⟩, hs'⟩ := Option.ite_none_right_eq_some.mp hstep
          cases hs'
          exact ⟨_, horderly.lock hc hcode hfree⟩
      | unlock objs next =>
          simp only [hcode] at hstep
          cases hstep
          exact ⟨order, horderly.unlock hc hcode⟩
      | read o rest =>
          simp only [hcode] at hstep
          cases hstep
          exact ⟨order, horderly.read hc hcode⟩
      | write o x next =>
          simp only [hcode] at hstep
          cases hstep
          exact ⟨order, horderly.write hc hcode⟩

end Steps

section Reachable

variable [DecidableEq Tid] {t : Tid} {c : Running Op Obj V R} {constructed : Obj → Bool}

omit [DecidableEq Tid] in
theorem orderly_initial :
    Orderly p start (initial start constructed : State Tid Op Obj V R) [] where
  active := by
    rintro t c hc
    cases hc
  owner := by
    rintro o t howner
    cases howner
  building := by
    intro o t hstatus
    unfold initial at hstatus
    dsimp only at hstatus
    split at hstatus <;> cases hstatus
  distinct := by
    rintro t t' c c' hc
    cases hc
  bounded := by
    intro id t op hcall
    exact absurd hcall List.not_mem_nil
  serial :=
    { called := by simp
      once := List.nodup_nil
      results := fun _ _ hret => absurd hret List.not_mem_nil
      realTime := fun _ _ _ _ _ _ hmem => absurd hmem List.not_mem_nil
      values := fun _ _ => rfl }

theorem orderly_of_reachable (hdisciplined : p.Disciplined)
    (hs : (machine p start constructed).Reachable s) : ∃ order, Orderly p start s order := by
  apply hs.invariant (motive := fun s => ∃ order, Orderly p start s order)
  · rintro s rfl
    exact ⟨[], orderly_initial⟩
  · rintro s action s' - ⟨order, horderly⟩ hstep
    cases action with
    | call t op =>
        obtain ⟨⟨hidle, huses, hraw⟩, hs'⟩ := Option.ite_none_right_eq_some.mp hstep
        cases hs'
        exact ⟨order, horderly.call hdisciplined (Option.isNone_iff_eq_none.mp hidle) huses hraw⟩
    | advance t => exact horderly.advance hstep

theorem free_of_idle (hdisciplined : p.Disciplined)
    (hs : (machine p start constructed).Reachable s) (hidle : ∀ t, s.running t = none) (o : Obj) :
    Free s o := by
  obtain ⟨order, horderly⟩ := orderly_of_reachable hdisciplined hs
  constructor
  · by_contra howned
    obtain ⟨t, howner⟩ := Option.ne_none_iff_exists'.mp howned
    obtain ⟨c, hc⟩ := horderly.owner o t howner
    rw [hidle t] at hc
    cases hc
  · intro t hbuilding
    obtain ⟨c, hc, -⟩ := horderly.building o t hbuilding
    rw [hidle t] at hc
    cases hc

/-- The calls take effect one at a time, in the order in which they lock. -/
theorem serializable (hdisciplined : p.Disciplined)
    (hs : (machine p start constructed).Reachable s) :
    ∃ order, Serialization p.effect start s order := by
  obtain ⟨order, horderly⟩ := orderly_of_reachable hdisciplined hs
  exact ⟨order, horderly.serial⟩

theorem accessed_mem_territory (hdisciplined : p.Disciplined)
    (hs : (machine p start constructed).Reachable s) (hc : s.running t = some c) {o : Obj}
    (ho : c.code.accessed = some o) : o ∈ territory s t := by
  obtain ⟨order, horderly⟩ := orderly_of_reachable hdisciplined hs
  have hactive := horderly.active t c hc
  have hmem : ∀ held, c.code.Guarded (p.fresh c.op) held → o ∈ held ∨ o ∈ p.fresh c.op := by
    intro held hguarded
    cases hcode : c.code <;> rw [hcode] at ho hguarded <;> cases ho
    all_goals exact hguarded.1
  rcases hactive.phase with hwaiting | ⟨held, hinside⟩
  · have hdisciplined := hwaiting.code
    apply hactive.fresh_subset o
    cases hcode : c.code <;> rw [hcode] at ho hdisciplined <;> cases ho
    all_goals exact hdisciplined.1
  · exact hinside.subset hactive o (hmem held hinside.code)

theorem exists_advance_of_free (hc : s.running t = some c)
    (hlock : ∀ objs next, c.code = .lock objs next → objs.Nodup ∧ ∀ o ∈ objs, s.owner o = none) :
    ∃ s', advance p s t = some s' := by
  unfold advance
  rw [hc]
  cases hcode : c.code with
  | lock objs next => exact ⟨_, by simp only [hcode]; exact if_pos (hlock objs next hcode)⟩
  | ret r => exact ⟨_, by simp only [hcode]; rfl⟩
  | unlock objs next => exact ⟨_, by simp only [hcode]; rfl⟩
  | read o rest => exact ⟨_, by simp only [hcode]; rfl⟩
  | write o x next => exact ⟨_, by simp only [hcode]; rfl⟩

/-- While a call is not finished, some thread can go on with its own. -/
theorem no_deadlock (hdisciplined : p.Disciplined)
    (hs : (machine p start constructed).Reachable s) (hc : s.running t = some c) :
    ∃ t' s', advance p s t' = some s' := by
  obtain ⟨order, horderly⟩ := orderly_of_reachable hdisciplined hs
  by_cases hsome : ∃ t' c' held, s.running t' = some c' ∧ Inside p start s order t' c' held
  · obtain ⟨t', c', held, hc', hinside⟩ := hsome
    obtain ⟨s', hs'⟩ := exists_advance_of_free (p := p) hc' (by
      intro objs next hcode
      have hguarded := hinside.code
      rw [hcode] at hguarded
      exact hguarded.elim)
    exact ⟨t', s', hs'⟩
  · have hwaiting : ∀ t' c', s.running t' = some c' → Waiting p start s order t' c' := by
      intro t' c' hc'
      rcases (horderly.active t' c' hc').phase with hwaiting | ⟨held, hinside⟩
      · exact hwaiting
      · exact absurd ⟨t', c', held, hc', hinside⟩ hsome
    have hfree : ∀ o, s.owner o = none := by
      intro o
      by_contra howned
      obtain ⟨t', howner⟩ := Option.ne_none_iff_exists'.mp howned
      obtain ⟨c', hc'⟩ := horderly.owner o t' howner
      exact (hwaiting t' c' hc').owner o howner
    obtain ⟨s', hs'⟩ := exists_advance_of_free (p := p) hc (by
      intro objs next hcode
      have hcode' := (hwaiting t c hc).code
      rw [hcode] at hcode'
      exact ⟨hcode'.1, fun o _ => hfree o⟩)
    exact ⟨t, s', hs'⟩

end Reachable

end SpackPlayground.Library.LockMachine
