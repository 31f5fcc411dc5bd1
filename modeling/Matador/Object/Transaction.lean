import Matador.Object.Attribute
import Matador.Object.StoreMap

/-!
# Transactions

All objects of one type that are inserted share one `insert_action`; a modified or removed object
has an action of its own, and the state of the object when the action was made is appended to
`object_buffer_`. `id_action_index_map_` leads from the id of an object to the index of its action
in `actions_`. When an `insert_action` gets empty it is erased from the vector, and the indices of
all later actions are off by one from then on.

Objects have plain attributes only, so an insertion does not cascade and a removal takes one object.
-/

namespace Matador.Object

open Lib PrototypeTree

/-- A proxy an action refers to, with its data; the data stays while the proxy is not in the
store. -/
structure Entry where
  proxy : ProxyPtr
  data : ObjectProxy

/-- `insert_action`, `update_action` and `delete_action`. -/
inductive Action
  | insert (type : String) (entries : List Entry)
  | update (entry : Entry)
  | delete (entry : Entry)

namespace Action

def entries : Action → List Entry
  | .insert _ es => es
  | .update e => [e]
  | .delete e => [e]

/-- The action refers to the proxy. -/
def Holds (p : ProxyPtr) (a : Action) : Prop := p ∈ a.entries.map Entry.proxy

instance (p : ProxyPtr) (a : Action) : Decidable (a.Holds p) :=
  inferInstanceAs (Decidable (p ∈ a.entries.map Entry.proxy))

end Action

/-- `transaction_data`. -/
structure Transaction where
  actions : List Action
  idActionIndexMap : Nat → Option Nat
  objectBuffer : List UInt8

namespace Transaction

def empty : Transaction := ⟨[], fun _ => none, []⟩

/-- `action_inserter::insert`: the actions with the entry in the `insert_action` of its type, and
the index of that action. -/
def addInsert (e : Entry) : List Action → List Action × Nat
  | [] => ([.insert e.data.node [e]], 0)
  | .insert type es :: as =>
    if type = e.data.node then (.insert type (es ++ [e]) :: as, 0)
    else (.insert type es :: (addInsert e as).1, (addInsert e as).2 + 1)
  | a :: as => (a :: (addInsert e as).1, (addInsert e as).2 + 1)

/-- `transaction::on_insert`. The index that the inserter returns is never the size of the vector,
so its second error does not occur. -/
def onInsert (t : Transaction) (e : Entry) : Except String Transaction :=
  match t.idActionIndexMap e.data.id with
  | none =>
    .ok { t with
      actions := (addInsert e t.actions).1
      idActionIndexMap := insertNew t.idActionIndexMap e.data.id (addInsert e t.actions).2 }
  | some _ => .error ("transaction: an object with id " ++ toString e.data.id ++ " already exists")

/-- `transaction::backup` of an action for a proxy whose object is `o`. -/
def backup (t : Transaction) (a : Action) (e : Entry) (o : Attributes) : Transaction :=
  { actions := t.actions ++ [a]
    idActionIndexMap := insertNew t.idActionIndexMap e.data.id t.actions.length
    objectBuffer := t.objectBuffer ++ o.backup }

def onUpdate (t : Transaction) (e : Entry) (o : Attributes) : Transaction :=
  match t.idActionIndexMap e.data.id with
  | none => t.backup (.update e) e o
  | some _ => t

/-- `action_remover`: the action at `index` is told that the object is removed. -/
def removeAction (e : Entry) (index : Nat) (a : Action) (actions : List Action) : List Action :=
  match a with
  | .insert type es =>
    let es := es.eraseP (·.data.id = e.data.id)
    if es.isEmpty then actions.eraseIdx index else actions.set index (.insert type es)
  | .update u => if u.data.id = e.data.id then actions.set index (.delete u) else actions
  | .delete _ => actions

/-- `transaction::on_delete`. The access `actions_.at(index)` throws `std::out_of_range` behind the
end of the vector. -/
def onDelete (t : Transaction) (e : Entry) (o : Attributes) : Except String Transaction :=
  match t.idActionIndexMap e.data.id with
  | none => .ok (t.backup (.delete e) e o)
  | some index =>
    match t.actions[index]? with
    | none => .error "out_of_range"
    | some a => .ok { t with actions := removeAction e index a t.actions }

end Transaction

/-! ## A store with an open transaction -/

structure TransactionState where
  store : ObjectStore
  objects : ProxyPtr → Attributes
  transaction : Transaction

namespace TransactionState

def begin (store : ObjectStore) (objects : ProxyPtr → Attributes) : TransactionState :=
  ⟨store, objects, Transaction.empty⟩

abbrev proxies (s : TransactionState) : ProxyPtr → Option ObjectProxy := s.store.lists.proxies

inductive Op where
  /-- the attributes are those of the object once its key is set -/
  | insert (object : NewObject) (attributes : Attributes)
  /-- `object_ptr::modify` and what is assigned through the pointer it returns -/
  | modify (proxy : ProxyPtr) (attributes : Attributes)
  | remove (proxy : ProxyPtr)

/-- The key of a new object: an object has a key if its class has one. -/
def resolveKey (s : ObjectStore) (o : NewObject) : NewObject :=
  match s.lists.tree.findPrototypeNode o.classname with
  | .ok (some n) => if n.hasPrimaryKey then o else { o with key := .null }
  | _ => o

/-- `object_store::insert` of one object. -/
def insert (s : TransactionState) (o : NewObject) (attributes : Attributes) :
    TransactionState × Option String :=
  match s.store.link (resolveKey s.store o) with
  | .error m => (s, some m)
  | .ok (store, p, data) =>
    let objects := Function.update s.objects p attributes
    match s.transaction.onInsert ⟨p, data⟩ with
    | .error m => ({ s with store := store, objects := objects }, some m)
    | .ok t => (⟨store.mapProxy p data, objects, t⟩, none)

/-- `object_ptr::modify`: the transaction is told before the object is changed. What is assigned
has the attributes of the class. -/
def modify (s : TransactionState) (p : ProxyPtr) (attributes : Attributes) :
    TransactionState × Option String :=
  match s.proxies p with
  | none => (s, none)
  | some data =>
    ({ s with
      transaction := s.transaction.onUpdate ⟨p, data⟩ (s.objects p)
      objects :=
        if attributes.shape = (s.objects p).shape then Function.update s.objects p attributes
        else s.objects }, none)

/-- `object_store::remove` of one object. -/
def remove (s : TransactionState) (p : ProxyPtr) : TransactionState × Option String :=
  match s.proxies p with
  | none => (s, some "prototype node is nullptr")
  | some data =>
    match s.store.removeProxy p data with
    | .error m => (s, some m)
    | .ok store =>
      match s.transaction.onDelete ⟨p, data⟩ (s.objects p) with
      | .error m => ({ s with store := store }, some m)
      | .ok t => ({ s with store := store, transaction := t }, none)

def call (s : TransactionState) : Op → TransactionState × Option String
  | .insert o attributes => s.insert o attributes
  | .modify p attributes => s.modify p attributes
  | .remove p => s.remove p

def step (s : TransactionState) (op : Op) : TransactionState := (s.call op).1

/-- The same call succeeds on a store without a transaction. -/
def PlainOk (s : TransactionState) : Op → Prop
  | .insert o _ => (s.store.link (resolveKey s.store o)).isOk
  | .modify _ _ => True
  | .remove p => (s.store.removeSingle p).isOk

instance (s : TransactionState) (op : Op) : Decidable (s.PlainOk op) :=
  match op with
  | .insert o _ => inferInstanceAs (Decidable ((s.store.link (resolveKey s.store o)).isOk = true))
  | .modify _ _ => .isTrue trivial
  | .remove p => inferInstanceAs (Decidable ((s.store.removeSingle p).isOk = true))

/-! ## Ending the transaction -/

/-- `transaction::commit`: the actions that the observer gets. -/
def commit (s : TransactionState) : List Action := s.transaction.actions

def insertProxy (s : ObjectStore) (e : Entry) : Except String ObjectStore :=
  if e.data.id = 0 then .error "object proxy doesn't have an id"
  else
    match s.lists.tree.findPrototypeNode e.data.classname with
    | .error m => .error m
    | .ok none => .error "couldn't find object type"
    | .ok (some n) =>
      let lists : ObjectLists :=
        { tree := s.lists.tree.insertProxy n.type e.proxy e.data.pk
          proxies := Function.update s.lists.proxies e.proxy (some e.data) }
      .ok ({ s with lists := lists }.mapProxy e.proxy e.data)

/-- `object_proxy::restore`; reading behind the end of the buffer is undefined. -/
def restoreObject (s : TransactionState) (p : ProxyPtr) : Except String TransactionState :=
  match (s.objects p).restore s.transaction.objectBuffer with
  | none => .error "undefined"
  | some (o, buffer) =>
    .ok { s with
      objects := Function.update s.objects p o
      transaction := { s.transaction with objectBuffer := buffer } }

/-- `insert_action::restore`. -/
def removeEntries : List Entry → ObjectStore → Except String ObjectStore
  | [], s => .ok s
  | e :: es, s =>
    match s.removeProxy e.proxy e.data with
    | .error m => .error m
    | .ok s => removeEntries es s

def restore (s : TransactionState) : Action → Except String TransactionState
  | .insert _ es =>
    match removeEntries es s.store with
    | .error m => .error m
    | .ok store => .ok { s with store := store }
  | .update e => s.restoreObject e.proxy
  | .delete e =>
    match s.store.findProxy e.data.id with
    | some p => s.restoreObject p
    | none =>
      match insertProxy s.store e with
      | .error m => .error m
      | .ok store => { s with store := store }.restoreObject e.proxy

/-- The loop of `transaction::rollback`. -/
def restoreAll : List Action → TransactionState → TransactionState × Option String
  | [], s => (s, none)
  | a :: as, s =>
    match s.restore a with
    | .error m => (s, some m)
    | .ok s => restoreAll as s

/-- `transaction::rollback` of the open transaction. -/
def rollback (s : TransactionState) : TransactionState × Option String :=
  restoreAll s.transaction.actions s

end TransactionState

end Matador.Object
