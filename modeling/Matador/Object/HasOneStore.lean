import Matador.Object.Deleter

/-!
# Stores with has_one fields

A store whose types are related by has_one fields only, none of which has a field at the other side.
Such a field is an `object_ptr`, and a proxy counts the fields that refer to it.

`GraphStore` has the inserter together with the lists of the store, and objects that may bring keys
of their own; `shows_insert` says that this one shows what that one does. Proxies have addresses
that are never used again, and proxies without a store are not deleted here.
-/

namespace Matador.Object

open Function Lib

structure HasOne where
  target : Option ProxyPtr
  /-- `is_inserted_`; `relation_info_` is set at the same time -/
  isInserted : Bool
  /-- the field is in the `ptr_set_` of its target -/
  isListed : Bool
  inserts : Bool
  removes : Bool
  /-- how many fields the class of the field has; an object of a derived class has more behind
  these -/
  size : Nat
  deriving DecidableEq

structure HasOneStore where
  fields : ProxyPtr → List HasOne
  /-- the proxies in the store in the order of their ids -/
  stored : List ProxyPtr
  id : ProxyPtr → Nat
  /-- `reference_counter_`, read as a signed number -/
  count : ProxyPtr → Int
  seq : Nat
  next : ProxyPtr

namespace HasOneStore

def empty : HasOneStore := ⟨fun _ => [], [], fun _ => 0, fun _ => 0, 0, 1⟩

def setField (s : HasOneStore) (p : ProxyPtr) (i : Nat) (f : HasOne) : HasOneStore :=
  { s with fields := update s.fields p ((s.fields p).set i f) }

def addCount (s : HasOneStore) (p : ProxyPtr) (n : Int) : HasOneStore :=
  { s with count := update s.count p (s.count p + n) }

/-- What the class of an object says about a field. -/
structure HasOneType where
  inserts : Bool
  removes : Bool
  size : Nat

/-- A new object of a class with the given fields, and its proxy. It refers to nothing. -/
def create (s : HasOneStore) (types : List HasOneType) : HasOneStore :=
  { s with
    fields := update s.fields s.next
      (types.map fun c => ⟨none, false, true, c.inserts, c.removes, c.size⟩)
    id := update s.id s.next 0
    count := update s.count s.next 0
    next := s.next + 1 }

/-! ## Inserting -/

def positions (s : HasOneStore) (p : ProxyPtr) : List (ProxyPtr × Nat) :=
  (List.range (s.fields p).length).map fun i => (p, i)

/-- `object_store::insert(object_proxy *)` before the fields are visited. -/
def link (s : HasOneStore) (p : ProxyPtr) : HasOneStore :=
  { s with stored := s.stored ++ [p], id := update s.id p (s.seq + 1), seq := s.seq + 1 }

/-- The store during an insertion, and the `object_proxies_` of the inserter. -/
structure Inserting where
  store : HasOneStore
  seen : List ProxyPtr

/-- `object_inserter::insert_object` of a field, and the fields it leads to. -/
def insertObject (s : Inserting) (x : ProxyPtr × Nat) : Inserting × List (ProxyPtr × Nat) :=
  match (s.store.fields x.1)[x.2]? with
  | none => (s, [])
  | some f =>
    if f.isInserted then (s, [])
    else
      let store := s.store.setField x.1 x.2 { f with isInserted := true }
      match f.target with
      | none => ({ s with store := store }, [])
      | some q =>
        let store := store.addCount q 1
        if q ∈ s.seen then ({ s with store := store }, [])
        else if f.inserts then
          let store := if q ∈ store.stored then store else store.link q
          (⟨store, q :: s.seen⟩, store.positions q)
        else (⟨store, q :: s.seen⟩, [])

/-- No walk that visits each object once takes more steps. -/
def fuel (s : HasOneStore) : Nat := ((List.range s.next).map fun p => (s.fields p).length).sum

/-- `object_store::insert`. The object itself may be visited a second time. -/
def insert (s : HasOneStore) (p : ProxyPtr) : Option HasOneStore :=
  if p ∈ s.stored then some s
  else
    (Worklist.run insertObject ((s.fields p).length + s.fuel) (s.positions p) ⟨s.link p, []⟩).map
      Inserting.store

/-! ## Assigning -/

/-- The counter of a target is changed by a field of a stored object; a target without a store is
not counted. -/
def counted (s : HasOneStore) (f : HasOne) (target : Option ProxyPtr) (n : Int) : HasOneStore :=
  match target with
  | none => s
  | some q => if q ∈ s.stored ∧ f.isInserted then s.addCount q n else s

def reset (s : HasOneStore) (p : ProxyPtr) (i : Nat) (target : Option ProxyPtr) : HasOneStore :=
  match (s.fields p)[i]? with
  | none => s
  | some f =>
    if f.target = target then s
    else
      (((s.counted f f.target (-1)).counted f target 1).setField p i
        { f with target := target, isListed := true })

/-- `object_holder::operator=(object_holder &&)`. The source keeps its target. -/
def moveAssign (s : HasOneStore) (p : ProxyPtr) (i : Nat) (q : ProxyPtr) (j : Nat) : HasOneStore :=
  match (s.fields q)[j]? with
  | none => s
  | some x =>
    if p = q ∧ i = j then s
    else
      ((s.counted x x.target (-1)).setField q j
        { x with isListed := x.isListed && x.target.isNone }).reset
        p i x.target

/-! ## Removing -/

def deleteProxy (s : HasOneStore) (p : ProxyPtr) : HasOneStore :=
  let s := (s.fields p).foldl (fun s f => s.counted f f.target (-1)) s
  { s with
    fields := fun q =>
      if q = p then []
      else (s.fields q).map fun f =>
        if f.target = some p ∧ f.isListed then { f with target := none } else f
    stored := s.stored.erase p
    count := update s.count p 0 }

def graph (s : HasOneStore) : ObjectGraph where
  proxies := List.range s.next
  members p := (s.fields p).map fun f =>
    .hasOne f.target f.removes (if f.isInserted then some ⟨none⟩ else none)
  id := s.id
  count := s.count
  isRelationNode _ := false
  size p i := (s.fields p)[i]?.map HasOne.size

/-- Nothing is at the other side of a relation, so nothing is to be taken out there. -/
def relationStore : RelationStore HasOneStore where
  graph := graph
  hasNode s p := decide (p ∈ s.stored)
  removeValue _ s := .ok s
  removeSingle p s := if p ∈ s.stored then .ok (s.deleteProxy p) else .undefined

/-! ## References -/

def refersTo (q : ProxyPtr) (f : HasOne) : Bool := f.target = some q

/-- How many fields of the objects `ps` refer to `q`. -/
def references (s : HasOneStore) (ps : List ProxyPtr) (q : ProxyPtr) : Nat :=
  (ps.map fun p => (s.fields p).countP (refersTo q)).sum

/-- A store in which all fields refer to stored objects and every reference is counted. -/
structure Accurate (s : HasOneStore) : Prop where
  nodup : s.stored.Nodup
  ids : (s.stored.map s.id).Pairwise (· < ·)
  seq : ∀ p ∈ s.stored, s.id p ≤ s.seq
  allocated : ∀ p ∈ s.stored, p < s.next
  inserted : ∀ p ∈ s.stored, ∀ f ∈ s.fields p, f.isInserted = true
  pending : ∀ p, p ∉ s.stored → ∀ f ∈ s.fields p, f.isInserted = false
  listed : ∀ p, ∀ f ∈ s.fields p, f.isListed = true
  created : ∀ p, s.next ≤ p → s.fields p = []
  targets : ∀ p, ∀ f ∈ s.fields p, ∀ q ∈ f.target, q < s.next
  closed : ∀ p ∈ s.stored, ∀ f ∈ s.fields p, ∀ q ∈ f.target, q ∈ s.stored
  counts : ∀ q, s.count q = s.references s.stored q

end HasOneStore

end Matador.Object
