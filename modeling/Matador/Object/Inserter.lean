import Matador.Lib.Worklist
import Matador.Object.HasOneStore
import Matador.Object.Transaction

/-!
# Inserting a graph of objects

`object_store::insert` links a proxy and lets `object_inserter` visit the fields of its object. A
field that cascades leads to the next object: a new one is inserted, of a stored one the fields are
visited. Three guards stop the walk: `is_inserted_` of a field, set when it is visited;
`object_proxies_`, the proxies that fields have led to; and an id, which a proxy gets before its
fields are visited.

The calls that wait for others to return are kept in a list: the fields that are still to be
visited, and behind them what `insert` does with the object at its end. No relation has another
side.
-/

namespace Matador.Object

open Lib

/-- An object store with the objects of its program and their has_one fields. -/
structure GraphStore where
  store : ObjectStore
  /-- `obj()` of the proxies -/
  object : ProxyPtr → Option NewObject
  fields : ProxyPtr → List HasOne
  /-- `reference_counter_` -/
  count : ProxyPtr → Int
  transaction : Option Transaction

/-- `object_store::insert(object_proxy *)` up to `node->insert(proxy)`, for a proxy that is not in
the store and the node of its type. -/
def ObjectStore.linkAt (s : ObjectStore) (p : ProxyPtr) (o : NewObject) (n : PrototypeNode) :
    ObjectStore × ObjectProxy :=
  let id := Sequencer.next s.seq
  let data : ObjectProxy := ⟨id, o.classname, n.type, o.pk id⟩
  ({ s with lists := s.lists.insertAt p data, seq := o.seqAfter id }, data)

namespace GraphStore

abbrev proxies (s : GraphStore) : ProxyPtr → Option ObjectProxy := s.store.lists.proxies

def id (s : GraphStore) (p : ProxyPtr) : Nat := ((s.proxies p).map ObjectProxy.id).getD 0

def setField (s : GraphStore) (p : ProxyPtr) (i : Nat) (f : HasOne) : GraphStore :=
  { s with fields := Function.update s.fields p ((s.fields p).set i f) }

def addCount (s : GraphStore) (p : ProxyPtr) (n : Int) : GraphStore :=
  { s with count := Function.update s.count p (s.count p + n) }

/-! ## The inserter -/

inductive Call
  /-- `insert_object` of field `i` of an object -/
  | field (owner : ProxyPtr) (i : Nat)
  /-- the end of `object_store::insert`, behind the visit of the fields -/
  | leave (proxy : ProxyPtr) (data : ObjectProxy)

structure Inserting where
  graph : GraphStore
  seen : List ProxyPtr

/-- An exception, and the store as it is left. -/
structure Thrown where
  graph : GraphStore
  error : String

def positions (s : GraphStore) (p : ProxyPtr) : List Call :=
  (List.range (s.fields p).length).map (Call.field p)

/-- `object_store::insert(object_proxy *)`. The fields of the object come next. -/
def insertProxy (t : Inserting) (p : ProxyPtr) : Except Thrown (Inserting × List Call) :=
  match t.graph.object p with
  | none => .error ⟨t.graph, "object is null"⟩
  | some o =>
    match t.graph.store.lists.tree.findPrototypeNode o.classname with
    | .error e => .error ⟨t.graph, e⟩
    | .ok none => .error ⟨t.graph, "couldn't find object type"⟩
    | .ok (some n) =>
      if 0 < t.graph.id p then .ok (t, [])
      else
        let r := t.graph.store.linkAt p o n
        .ok ({ t with graph := { t.graph with store := r.1 } },
          t.graph.positions p ++ [.leave p r.2])

/-- `object_inserter::insert_object` of a field. -/
def insertObject (t : Inserting) (p : ProxyPtr) (i : Nat) : Except Thrown (Inserting × List Call) :=
  match (t.graph.fields p)[i]? with
  | none => .ok (t, [])
  | some f =>
    if f.isInserted then .ok (t, [])
    else
      let g := t.graph.setField p i { f with isInserted := true }
      match f.target with
      | none => .ok ({ t with graph := g }, [])
      | some q =>
        if (g.object q).isNone then .ok ({ t with graph := g }, [])
        else
          let g := g.addCount q 1
          if q ∈ t.seen then .ok ({ t with graph := g }, [])
          else if f.inserts then
            if 0 < g.id q then .ok (⟨g, q :: t.seen⟩, g.positions q)
            else insertProxy ⟨g, q :: t.seen⟩ q
          else .ok (⟨g, q :: t.seen⟩, [])

/-- The end of `object_store::insert`: the transaction is notified, and the proxy gets into
`object_map_`. -/
def leave (t : Inserting) (p : ProxyPtr) (data : ObjectProxy) :
    Except Thrown (Inserting × List Call) :=
  match t.graph.transaction with
  | none => .ok ({ t with graph := { t.graph with store := t.graph.store.mapProxy p data } }, [])
  | some log =>
    match log.onInsert ⟨p, data⟩ with
    | .error e => .error ⟨t.graph, e⟩
    | .ok log =>
      .ok ({ t with
          graph := { t.graph with
            store := t.graph.store.mapProxy p data, transaction := some log } }, [])

def call (t : Inserting) : Call → Except Thrown (Inserting × List Call)
  | .field p i => insertObject t p i
  | .leave p data => leave t p data

/-- One call. Behind an exception no other call is made. -/
def visit (t : Except Thrown Inserting) (c : Call) : Except Thrown Inserting × List Call :=
  match t with
  | .error e => (.error e, [])
  | .ok t =>
    match call t c with
    | .error e => (.error e, [])
    | .ok (t, calls) => (.ok t, calls)

/-- No walk that visits each object once makes more calls. -/
def fuel (s : GraphStore) : Nat :=
  ((List.range s.store.lists.tree.nextProxy).map fun p => (s.fields p).length + 1).sum

/-- `object_store::insert` of an object; `none` if it does not come to an end. The object itself may
be visited a second time. -/
def insert (s : GraphStore) (p : ProxyPtr) : Option (Except Thrown GraphStore) :=
  match insertProxy ⟨s, []⟩ p with
  | .error e => some (.error e)
  | .ok (t, calls) =>
    (Worklist.run visit ((s.fields p).length + 1 + s.fuel) calls (.ok t)).map
      (Except.map Inserting.graph)

/-! ## What is to be inserted -/

def Stored (s : GraphStore) (p : ProxyPtr) : Prop := (s.proxies p).isSome

instance (s : GraphStore) (p : ProxyPtr) : Decidable (s.Stored p) :=
  inferInstanceAs (Decidable (Option.isSome _ = true))

/-- A field of `a` refers to `b`. -/
def Refers (s : GraphStore) (a b : ProxyPtr) : Prop := ∃ f ∈ s.fields a, f.target = some b

/-- `b` can be reached from `a`. -/
def Reaches (s : GraphStore) : ProxyPtr → ProxyPtr → Prop := Relation.ReflTransGen s.Refers

/-- `b` can be reached from `a` over new objects. -/
def ReachesNew (s : GraphStore) : ProxyPtr → ProxyPtr → Prop :=
  Relation.ReflTransGen fun a b => ¬s.Stored b ∧ s.Refers a b

/-- The proxy is met once on the way through the list of its node, and not in the list of another
node. -/
def LinkedOnce (s : ObjectStore) (p : ProxyPtr) (n : PrototypeNode) : Prop :=
  (∃ fuel l, walk s.lists.tree.links.next fuel n.opFirst n.opMarker = some l ∧ l.count p = 1) ∧
    ∀ m ∈ s.lists.tree.nodes, m.type ≠ n.type →
      ∀ fuel l, walk s.lists.tree.links.next fuel m.opFirst m.opMarker = some l → p ∉ l

/-- The store `s'` holds, besides what `s` holds, the objects of `new`. -/
structure Adds (s s' : GraphStore) (new : ProxyPtr → Prop) : Prop where
  kept : ∀ p d, s.proxies p = some d → s'.proxies p = some d
  stored : ∀ p, s'.Stored p ↔ s.Stored p ∨ new p
  linked : ∀ p, new p → ∃ o n, s.object p = some o ∧
    s'.store.lists.tree.findPrototypeNode o.classname = .ok (some n) ∧ LinkedOnce s'.store p n
  /-- each with an id of its own that leads to it -/
  ids : ∀ p, new p → ∃ d, s'.proxies p = some d ∧ s.store.findProxy d.id = none ∧
    s'.store.findProxy d.id = some p ∧
    ∀ q d', s'.proxies q = some d' → d'.id = d.id → q = p
  /-- each of their fields is counted once -/
  counts : ∃ news : List ProxyPtr, news.Nodup ∧ (∀ p, p ∈ news ↔ new p) ∧
    ∀ q, s'.count q = s.count q +
      ((news.map fun p => (s.fields p).countP (HasOneStore.refersTo q)).sum : Nat)

end GraphStore

end Matador.Object
