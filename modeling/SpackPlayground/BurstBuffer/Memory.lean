import Mathlib.Data.Finmap
import SpackPlayground.Library.LinkedChain

/-! The persistent side of the burst buffer: list nodes, the pool they live in,
and the pointer operations that `pmembb_list` performs on them. An operation
that would touch memory the program does not own is refused as undefined
behaviour instead of being given a result. -/
namespace SpackPlayground.BurstBuffer.Memory

open Library.LinkedChain

abbrev Addr := Nat

/-- `pmem::obj::persistent_ptr`, with `OID_NULL` as `none`. -/
abbrev PersistentPtr := Option Addr

inductive Refusal where
  | disabled
  /-- A null or dangling pointer would be followed, or a block freed twice. -/
  | undefinedBehaviour
  | diverges
  deriving DecidableEq, Repr

structure InlineWriteRequest where
  offset : Int64
  size : Nat
  deriving DecidableEq

/-- `ListNode::Persistent` together with the bytes that `InlineWriteRequest::data`
finds behind the header. -/
structure Node where
  next : PersistentPtr
  writeReq : InlineWriteRequest
  bytes : List UInt8
  deriving DecidableEq

structure Write where
  offset : Int64
  data : List UInt8
  deriving DecidableEq

/-- `ListNode::Persistent::create`: the header is constructed first, then the
payload is copied behind it. -/
def create (write : Write) : Node where
  next := none
  writeReq := ⟨write.offset, write.data.length⟩
  bytes := write.data

def Node.offset (node : Node) : Int64 := node.writeReq.offset

def Node.sv (node : Node) : List UInt8 := node.bytes.take node.writeReq.size

def Node.write (node : Node) : Write := ⟨node.offset, node.sv⟩

@[simp] theorem create_next (write : Write) : (create write).next = none := rfl

@[simp] theorem create_write (write : Write) : (create write).write = write := by
  simp [create, Node.write, Node.offset, Node.sv]

@[simp] theorem write_with_next (node : Node) (next : PersistentPtr) :
    { node with next := next }.write = node.write := rfl

abbrev Heap := Finmap fun _ : Addr => Node

structure Persistent where
  active : PersistentPtr
  flushing : PersistentPtr
  deriving DecidableEq

/-- The pool file: `Root::bb` and the live `ListNode::Persistent` allocations. -/
structure Pool where
  bb : Option Persistent
  heap : Heap

def link (heap : Heap) (addr : Addr) : Option PersistentPtr :=
  (heap.lookup addr).map Node.next

private theorem link_eq_some_iff {heap : Heap} {addr : Addr} {next : PersistentPtr} :
    link heap addr = some next ↔ ∃ node, heap.lookup addr = some node ∧ node.next = next := by
  simp [link]

theorem lookup_of_link {heap : Heap} {addr : Addr} {next : PersistentPtr}
    (hlink : link heap addr = some next) :
    ∃ node, heap.lookup addr = some node ∧ node.next = next :=
  link_eq_some_iff.mp hlink

@[simp] theorem link_insert_self (heap : Heap) (addr : Addr) (node : Node) :
    link (heap.insert addr node) addr = some node.next := by
  simp [link]

theorem link_insert_of_ne (heap : Heap) {addr other : Addr} (node : Node) (hne : addr ≠ other) :
    link (heap.insert other node) addr = link heap addr := by
  simp [link, Finmap.lookup_insert_of_ne _ hne]

theorem link_erase_of_ne (heap : Heap) {addr other : Addr} (hne : addr ≠ other) :
    link (heap.erase other) addr = link heap addr := by
  simp [link, Finmap.lookup_erase_ne hne]

def Heap.deref (heap : Heap) (ptr : PersistentPtr) : Except Refusal (Addr × Node) :=
  match ptr with
  | none => .error .undefinedBehaviour
  | some addr =>
      match heap.lookup addr with
      | none => .error .undefinedBehaviour
      | some node => .ok (addr, node)

def Heap.setNext (heap : Heap) (ptr value : PersistentPtr) : Except Refusal Heap := do
  let (addr, node) ← heap.deref ptr
  pure (heap.insert addr { node with next := value })

theorem deref_of_lookup {heap : Heap} {addr : Addr} {node : Node}
    (hlookup : heap.lookup addr = some node) : heap.deref (some addr) = .ok (addr, node) := by
  simp [Heap.deref, hlookup]

def Heap.deletePersistent (heap : Heap) (addr : Addr) : Except Refusal Heap :=
  if addr ∈ heap then .ok (heap.erase addr) else .error .undefinedBehaviour

def Pool.persistent (pool : Pool) : Except Refusal Persistent :=
  match pool.bb with
  | none => .error .undefinedBehaviour
  | some bb => .ok bb

/-- `persistent_->flushing`; null while there is no `BurstBuffer::Persistent`. -/
def Pool.flushing (pool : Pool) : PersistentPtr :=
  pool.bb.bind Persistent.flushing

def Pool.active (pool : Pool) : PersistentPtr :=
  pool.bb.bind Persistent.active

/-- `persistent_->active->next`; null while there is no sentinel. -/
def Pool.pending (pool : Pool) : PersistentPtr :=
  (pool.active.bind (link pool.heap)).join

/-- The nodes reachable from `ptr`, or `none` if the links from there cycle or
dangle. Every node of a chain is live, so the number of live nodes is fuel
enough. -/
def Heap.nodes (heap : Heap) (ptr : PersistentPtr) : Option (List Addr) :=
  collect (link heap) heap.keys.card ptr

def Heap.writeAt (heap : Heap) (addr : Addr) : Option Write :=
  (heap.lookup addr).map Node.write

def Heap.writes (heap : Heap) (ptr : PersistentPtr) : Option (List Write) := do
  let nodes ← heap.nodes ptr
  nodes.mapM heap.writeAt

theorem length_le_card {heap : Heap} {start : PersistentPtr} {nodes : List Addr}
    (hchain : Chain (link heap) start nodes) : nodes.length ≤ heap.keys.card := by
  have hsubset : nodes.toFinset ⊆ heap.keys := by
    intro addr haddr
    obtain ⟨next, hlink⟩ := hchain.link_isSome (List.mem_toFinset.mp haddr)
    obtain ⟨node, hlookup, _⟩ := lookup_of_link hlink
    exact Finmap.mem_keys.mpr (Finmap.mem_of_lookup_eq_some hlookup)
  calc
    nodes.length = nodes.toFinset.card := (List.toFinset_card_of_nodup hchain.nodup).symm
    _ ≤ heap.keys.card := Finset.card_le_card hsubset

theorem nodes_eq_some_iff {heap : Heap} {ptr : PersistentPtr} {nodes : List Addr} :
    heap.nodes ptr = some nodes ↔ Chain (link heap) ptr nodes :=
  ⟨chain_of_collect_eq, fun hchain => hchain.collect_eq (length_le_card hchain)⟩

/-- The write stored at a live node; an arbitrary one elsewhere. -/
def Heap.writeOf (heap : Heap) (addr : Addr) : Write :=
  (heap.writeAt addr).getD ⟨0, []⟩

private theorem writeAt_of_link {heap : Heap} {addr : Addr} {next : PersistentPtr}
    (hlink : link heap addr = some next) : heap.writeAt addr = some (heap.writeOf addr) := by
  obtain ⟨node, hlookup, _⟩ := lookup_of_link hlink
  simp [Heap.writeOf, Heap.writeAt, hlookup]

theorem writes_of_chain {heap : Heap} {ptr : PersistentPtr} {nodes : List Addr}
    (hchain : Chain (link heap) ptr nodes) :
    heap.writes ptr = some (nodes.map heap.writeOf) := by
  have hnodes : heap.nodes ptr = some nodes := nodes_eq_some_iff.mpr hchain
  have hmapM : ∀ part ⊆ nodes, part.mapM heap.writeAt = some (part.map heap.writeOf) := by
    intro part hpart
    induction part with
    | nil => rfl
    | cons addr rest ih =>
        obtain ⟨next, hlink⟩ := hchain.link_isSome (hpart List.mem_cons_self)
        simp only [List.mapM_cons, writeAt_of_link hlink,
          ih fun _ h => hpart (List.mem_cons_of_mem _ h), Option.pure_def, Option.bind_eq_bind,
          Option.bind_some, List.map_cons]
  simp only [Heap.writes, hnodes, Option.bind_eq_bind, Option.bind_some]
  exact hmapM nodes (List.Subset.refl nodes)

end SpackPlayground.BurstBuffer.Memory
