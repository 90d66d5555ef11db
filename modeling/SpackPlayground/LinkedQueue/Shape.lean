import SpackPlayground.LinkedQueue.Code

/-! The nodes of a linked queue, and what `push` and `pop` do to them. -/
namespace SpackPlayground.LinkedQueue

open Library.LinkedChain

variable {Value : Type}

def valueAt (q : Queue Value) (addr : Addr) : Option Value := (q.heap.lookup addr).map Node.value

/-- The chain from `head` has exactly the live nodes, and ends in `tail`. -/
structure Shape (q : Queue Value) (nodes : List (Addr × Value)) : Prop where
  chain : Chain (link q) q.head (nodes.map Prod.fst)
  tail : q.tail = (nodes.map Prod.fst).getLast?
  live : ∀ addr, addr ∈ q.heap ↔ addr ∈ nodes.map Prod.fst
  value : ∀ addr v, (addr, v) ∈ nodes → valueAt q addr = some v

theorem shape_empty : Shape (⟨∅, none, none⟩ : Queue Value) [] where
  chain := .null
  tail := rfl
  live addr := by
    apply iff_of_false Finmap.notMem_empty
    simp
  value addr v hmem := by simp at hmem

theorem link_insert_self {heap : Finmap fun _ : Addr => Node Value} {head tail : Option Addr}
    {addr : Addr} {node : Node Value} :
    link ⟨heap.insert addr node, head, tail⟩ addr = some node.next := by
  simp [link]

theorem lookup_eq_of_link {q : Queue Value} {addr : Addr} {next : Option Addr} {v : Value}
    (hlink : link q addr = some next) (hvalue : valueAt q addr = some v) :
    q.heap.lookup addr = some ⟨v, next⟩ := by
  unfold link at hlink
  unfold valueAt at hvalue
  cases hlookup : q.heap.lookup addr with
  | none => simp [hlookup] at hlink
  | some node =>
      simp only [hlookup, Option.map_some, Option.some_inj] at hlink hvalue
      rw [← hlink, ← hvalue]

section Append

variable {heap : Finmap fun _ : Addr => Node Value} {head : Option Addr} {last node : Addr}
  {lastValue value : Value}

def appended (heap : Finmap fun _ : Addr => Node Value) (head : Option Addr) (last node : Addr)
    (lastValue value : Value) : Queue Value where
  heap := (heap.insert node ⟨value, none⟩).insert last ⟨lastValue, some node⟩
  head := head
  tail := some node

theorem lookup_appended_node (hne : node ≠ last) :
    (appended heap head last node lastValue value).heap.lookup node = some ⟨value, none⟩ := by
  simp [appended, Finmap.lookup_insert_of_ne _ hne]

theorem lookup_appended_last :
    (appended heap head last node lastValue value).heap.lookup last =
      some ⟨lastValue, some node⟩ := by
  simp [appended]

theorem lookup_appended_of_ne {addr : Addr} (hnode : addr ≠ node) (hlast : addr ≠ last) :
    (appended heap head last node lastValue value).heap.lookup addr = heap.lookup addr := by
  simp [appended, Finmap.lookup_insert_of_ne _ hnode, Finmap.lookup_insert_of_ne _ hlast]

end Append

section Push

variable {q : Queue Value} {nodes : List (Addr × Value)} {node : Addr}

theorem Shape.push_empty (hshape : Shape q []) (value : Value) :
    ∃ q', pushBody value node q = (.ok (), q') ∧ Shape q' [(node, value)] := by
  obtain ⟨heap, head, tail⟩ := q
  have hhead : head = none := chain_nil_iff.mp hshape.chain
  subst hhead
  apply Exists.intro _
  apply And.intro (pushBody_of_empty heap tail value node)
  exact
    { chain := .node link_insert_self .null
      tail := rfl
      live := by
        intro addr
        have hlive := hshape.live addr
        rw [Finmap.mem_insert, hlive]
        simp
      value := by
        intro addr v hmem
        obtain ⟨rfl, rfl⟩ := Prod.mk.inj (List.mem_singleton.mp hmem)
        simp [valueAt] }

theorem Shape.ne_of_mem (hshape : Shape q nodes) (hfresh : node ∉ q.heap) {addr : Addr}
    {v : Value} (hmem : (addr, v) ∈ nodes) : addr ≠ node := by
  intro heq
  rw [heq] at hmem
  exact hfresh ((hshape.live node).mpr (List.mem_map_of_mem hmem))

variable {heap : Finmap fun _ : Addr => Node Value} {head tail : Option Addr}
  {before : List (Addr × Value)} {last : Addr} {lastValue value : Value}

theorem Shape.appended (hshape : Shape ⟨heap, head, tail⟩ (before ++ [(last, lastValue)]))
    (hfresh : node ∉ heap) : Shape (appended heap head last node lastValue value)
      (before ++ [(last, lastValue)] ++ [(node, value)]) := by
  have hlastMem : (last, lastValue) ∈ before ++ [(last, lastValue)] := by simp
  have hne : last ≠ node := hshape.ne_of_mem hfresh hlastMem
  have hchain := hshape.chain
  rw [List.map_append, List.map_singleton] at hchain
  exact
    { chain := by
        have hsnoc : Chain (link (LinkedQueue.appended heap head last node lastValue value)) head
            (before.map Prod.fst ++ [last, node]) := by
          apply hchain.snoc
          · rw [link, lookup_appended_last]
            rfl
          · rw [link, lookup_appended_node hne.symm]
            rfl
          · intro addr haddr
            have hlast : addr ≠ last :=
              (List.nodup_append.mp hchain.nodup).2.2 addr haddr last (by simp)
            obtain ⟨⟨_, v⟩, hmem, rfl⟩ := List.mem_map.mp haddr
            have hnode := hshape.ne_of_mem hfresh (List.mem_append_left _ hmem)
            rw [link, lookup_appended_of_ne hnode hlast]
            rfl
        simpa [LinkedQueue.appended] using hsnoc
      tail := by simp [LinkedQueue.appended]
      live := by
        intro addr
        have hlive := hshape.live addr
        unfold LinkedQueue.appended
        rw [Finmap.mem_insert, Finmap.mem_insert, hlive]
        simp only [List.map_append, List.map_singleton, List.mem_append, List.mem_singleton]
        tauto
      value := by
        intro addr v hmem
        cases List.mem_append.mp hmem with
        | inl hold =>
            have hnode := hshape.ne_of_mem hfresh hold
            have hvalue := hshape.value addr v hold
            by_cases hlast : addr = last
            · subst hlast
              have hlastValue := hshape.value addr lastValue hlastMem
              rw [valueAt, lookup_appended_last, ← hvalue, hlastValue]
              rfl
            · rw [valueAt, lookup_appended_of_ne hnode hlast]
              exact hvalue
        | inr hnew =>
            obtain ⟨rfl, rfl⟩ := Prod.mk.inj (List.mem_singleton.mp hnew)
            rw [valueAt, lookup_appended_node hne.symm]
            rfl }

theorem Shape.push_behind (hshape : Shape q (before ++ [(last, lastValue)]))
    (hfresh : node ∉ q.heap) (value : Value) :
    ∃ q', pushBody value node q = (.ok (), q') ∧
      Shape q' (before ++ [(last, lastValue)] ++ [(node, value)]) := by
  have hlastMem : (last, lastValue) ∈ before ++ [(last, lastValue)] := by simp
  have hne : last ≠ node := hshape.ne_of_mem hfresh hlastMem
  have hlastValue := hshape.value last lastValue hlastMem
  have hchain := hshape.chain
  rw [List.map_append, List.map_singleton] at hchain
  have hlookup := lookup_eq_of_link hchain.link_last hlastValue
  obtain ⟨heap, head, tail⟩ := q
  have htail : tail = some last := by
    rw [show tail = _ from hshape.tail]
    simp
  subst htail
  cases head with
  | none => simpa using hchain.of_none
  | some first =>
      have hinserted : (heap.insert node ⟨value, none⟩).lookup last = some ⟨lastValue, none⟩ := by
        rw [Finmap.lookup_insert_of_ne _ hne]
        exact hlookup
      apply Exists.intro (LinkedQueue.appended heap (some first) last node lastValue value)
      apply And.intro (pushBody_of_lookup hinserted)
      exact hshape.appended hfresh

theorem Shape.push (hshape : Shape q nodes) (hfresh : node ∉ q.heap) (value : Value) :
    ∃ q', pushBody value node q = (.ok (), q') ∧ Shape q' (nodes ++ [(node, value)]) := by
  cases List.eq_nil_or_concat nodes with
  | inl hnil =>
      subst hnil
      exact hshape.push_empty value
  | inr hconcat =>
      obtain ⟨before, ⟨last, lastValue⟩, hconcat⟩ := hconcat
      rw [List.concat_eq_append] at hconcat
      subst hconcat
      exact hshape.push_behind hfresh value

end Push

section Pop

variable {q : Queue Value} {rest : List (Addr × Value)} {first : Addr} {value : Value}

theorem Shape.pop_empty (hshape : Shape q []) : popBody q = (.error .outOfRange, q) := by
  obtain ⟨heap, head, tail⟩ := q
  have hhead : head = none := chain_nil_iff.mp hshape.chain
  subst hhead
  exact popBody_of_empty heap tail

theorem Shape.erased {heap : Finmap fun _ : Addr => Node Value} {tail next : Option Addr}
    (hshape : Shape ⟨heap, some first, tail⟩ ((first, value) :: rest))
    (hlookup : heap.lookup first = some ⟨value, next⟩) :
    Shape ⟨heap.erase first, next, if next = none then none else tail⟩ rest := by
  have hchain := hshape.chain
  rw [List.map_cons] at hchain
  have hfirst : first ∉ rest.map Prod.fst := (List.nodup_cons.mp hchain.nodup).1
  have hne {addr : Addr} (hmem : addr ∈ rest.map Prod.fst) : addr ≠ first := by
    intro heq
    exact hfirst (heq ▸ hmem)
  obtain ⟨_, next', hlink, hrest⟩ := chain_cons_iff.mp hchain
  have hnext : next' = next := by
    unfold link at hlink
    rw [hlookup] at hlink
    exact (Option.some_inj.mp hlink).symm
  subst hnext
  exact
    { chain := by
        apply hrest.frame
        intro addr hmem
        simp only [link, Finmap.lookup_erase_ne (hne hmem)]
      tail := by
        cases rest with
        | nil =>
            rw [chain_nil_iff.mp hrest]
            rfl
        | cons second rest =>
            have htail : tail = _ := hshape.tail
            rw [hrest.start_eq_head?, htail]
            simp
      live := by
        intro addr
        have hlive := hshape.live addr
        rw [Finmap.mem_erase, hlive, List.map_cons, List.mem_cons]
        constructor
        · intro hboth
          exact hboth.2.resolve_left hboth.1
        · intro hmem
          exact ⟨hne hmem, .inr hmem⟩
      value := by
        intro addr v hmem
        have hother := hne (List.mem_map_of_mem hmem)
        rw [valueAt, Finmap.lookup_erase_ne hother]
        exact hshape.value addr v (List.mem_cons_of_mem _ hmem) }

theorem Shape.pop (hshape : Shape q ((first, value) :: rest)) :
    ∃ q', popBody q = (.ok value, q') ∧ Shape q' rest := by
  have hchain := hshape.chain
  rw [List.map_cons] at hchain
  obtain ⟨hhead, next, hlink, _⟩ := chain_cons_iff.mp hchain
  have hvalue := hshape.value first value List.mem_cons_self
  have hlookup := lookup_eq_of_link hlink hvalue
  obtain ⟨heap, head, tail⟩ := q
  change head = some first at hhead
  subst hhead
  apply Exists.intro _
  apply And.intro (popBody_of_lookup hlookup)
  exact hshape.erased hlookup

def Contains (q : Queue Value) (values : List Value) : Prop :=
  ∃ nodes, Shape q nodes ∧ nodes.map Prod.snd = values

variable {values : List Value}

theorem Contains.push (hcontains : Contains q values) {node : Addr} (hfresh : node ∉ q.heap)
    (value : Value) :
    ∃ q', pushBody value node q = (.ok (), q') ∧ Contains q' (values ++ [value]) := by
  obtain ⟨nodes, hshape, rfl⟩ := hcontains
  obtain ⟨q', hpush, hshape'⟩ := hshape.push hfresh value
  exact ⟨q', hpush, _, hshape', by simp⟩

theorem Contains.pop_nil (hcontains : Contains q []) : popBody q = (.error .outOfRange, q) := by
  obtain ⟨nodes, hshape, hvalues⟩ := hcontains
  rw [List.map_eq_nil_iff] at hvalues
  subst hvalues
  exact hshape.pop_empty

theorem Contains.pop_cons (hcontains : Contains q (value :: values)) :
    ∃ q', popBody q = (.ok value, q') ∧ Contains q' values := by
  obtain ⟨nodes, hshape, hvalues⟩ := hcontains
  obtain ⟨⟨first, _⟩, rest, rfl, rfl, rfl⟩ := List.map_eq_cons_iff.mp hvalues
  obtain ⟨q', hpop, hshape'⟩ := hshape.pop
  exact ⟨q', hpop, rest, hshape', rfl⟩

end Pop

end SpackPlayground.LinkedQueue
