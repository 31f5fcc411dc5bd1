import Matador.Lib.KeyedTable
import Matador.Object.TransactionLog

/-!
# Persistence

Outside a transaction every change of an object is queued in `proxy_change_queue_`, one entry for
each proxy, and `session::flush` writes the queue to the database. An update finds the row of its
object by the key in `proxy_identifier_map_`, a removal by the key of the proxy (`pk_`), which is
read from the object when it is inserted, and not again when its key field is modified.
-/

namespace Matador.Orm

open Lib Object

/-- `proxy_change_action`. -/
inductive ChangeAction
  | insert | update | remove
  deriving DecidableEq

structure ProxyChange where
  entry : Entry
  action : ChangeAction

/-- An object with its primary key field and its other attributes. -/
structure Record where
  /-- the value of the field, as a statement gets it -/
  key : Identifier
  attributes : Attributes

/-- The table of a type. -/
abbrev Table := KeyedTable Identifier Attributes

/-- A session with its persistence: the store, the objects of the proxies, the database, and the
types that have a table. -/
structure Session where
  store : ObjectStore
  objects : ProxyPtr → Record
  tables : List String
  database : String → Table
  proxyChangeQueue : List ProxyChange
  proxyIdentifierMap : ProxyPtr → Option Identifier

/-! ## Queueing changes -/

def setAction (p : ProxyPtr) (action : ChangeAction) : List ProxyChange → List ProxyChange
  | [] => []
  | c :: queue =>
      if c.entry.proxy = p then { c with action := action } :: queue
      else c :: setAction p action queue

/-- `find_if` for the change of a proxy. -/
def findChange (p : ProxyPtr) (queue : List ProxyChange) : Option ProxyChange :=
  queue.find? fun c => c.entry.proxy = p

def registerProxyInsert (e : Entry) (queue : List ProxyChange) : List ProxyChange :=
  match findChange e.proxy queue with
  | some c => if c.action = .remove then setAction e.proxy .insert queue else queue
  | none => queue ++ [⟨e, .insert⟩]

/-- `persistence::register_proxy_update`, for the queue. -/
def registerProxyUpdate (e : Entry) (queue : List ProxyChange) : List ProxyChange :=
  match findChange e.proxy queue with
  | some _ => queue
  | none => queue ++ [⟨e, .update⟩]

def registerProxyDelete (e : Entry) (queue : List ProxyChange) : List ProxyChange :=
  match findChange e.proxy queue with
  | some c =>
    match c.action with
    | .insert => queue.eraseP fun c => c.entry.proxy = e.proxy
    | .update => setAction e.proxy .remove queue
    | .remove => queue
  | none => queue ++ [⟨e, .remove⟩]

namespace Session

abbrev proxies (s : Session) : ProxyPtr → Option ObjectProxy := s.store.lists.proxies

inductive Op
  | insert (object : NewObject) (attributes : Attributes)
  /-- `object_ptr::modify` and what is assigned through the pointer -/
  | modify (proxy : ProxyPtr) (record : Record)
  | remove (proxy : ProxyPtr)

/-- The key field of a new object: `sync_id` assigns the id to an integral key that is not valid. -/
def syncId (o : NewObject) (id : Nat) : Identifier :=
  match o.key with
  | .integral _ value => .integral 64 (if 0 < value then value else o.keyType.cast id)
  | key => key

/-- `object_store::insert` of one object. -/
def insert (s : Session) (o : NewObject) (attributes : Attributes) : Session :=
  match s.store.link o with
  | .error _ => s
  | .ok (store, p, data) =>
    { s with
      store := store.mapProxy p data
      objects := Function.update s.objects p ⟨syncId o data.id, attributes⟩
      proxyChangeQueue := registerProxyInsert ⟨p, data⟩ s.proxyChangeQueue }

def modify (s : Session) (p : ProxyPtr) (record : Record) : Session :=
  match s.proxies p with
  | none => s
  | some data =>
    { s with
      objects := Function.update s.objects p record
      proxyChangeQueue := registerProxyUpdate ⟨p, data⟩ s.proxyChangeQueue
      proxyIdentifierMap := insertNew s.proxyIdentifierMap p data.pk }

/-- `object_store::remove` of one object. -/
def remove (s : Session) (p : ProxyPtr) : Session :=
  match s.proxies p with
  | none => s
  | some data =>
    match s.store.removeProxy p data with
    | .error _ => s
    | .ok store =>
      { s with
        store := store
        proxyChangeQueue := registerProxyDelete ⟨p, data⟩ s.proxyChangeQueue }

def step (s : Session) : Op → Session
  | .insert o attributes => s.insert o attributes
  | .modify p record => s.modify p record
  | .remove p => s.remove p

/-! ## Flushing -/

/-- The statement for one change on its table, as `table<T>` binds it. -/
def statement (s : Session) (c : ProxyChange) (t : Table) : Except String Table :=
  let record := s.objects c.entry.proxy
  match c.action with
  | .insert =>
    match t.insertRow record.key record.attributes with
    | none => .error "primary key is not unique"
    | some t => .ok t
  | .update =>
    match s.proxyIdentifierMap c.entry.proxy with
    | none => .error "couldn't find proxy"
    | some pk =>
      match t.updateRow pk.bound record.key record.attributes with
      | none => .error "primary key is not unique"
      | some t => .ok t
  | .remove => .ok (t.deleteRow c.entry.data.pk.bound)

/-- The loop of `flush` on the database; an error ends it. -/
def executeAll (s : Session) : List ProxyChange → (String → Table) → Except String (String → Table)
  | [], database => .ok database
  | c :: queue, database =>
    if c.entry.data.node ∈ s.tables then
      match s.statement c (database c.entry.data.node) with
      | .error m => .error m
      | .ok t => s.executeAll queue (Function.update database c.entry.data.node t)
    else s.executeAll queue database

def flush (s : Session) : Except String Session :=
  match s.executeAll s.proxyChangeQueue s.database with
  | .error m => .error m
  | .ok database =>
    .ok { s with
      database := database
      proxyChangeQueue := []
      proxyIdentifierMap := fun _ => none }

/-- Every table has one row for each stored object of its type and no others. -/
def InSync (s : Session) : Prop :=
  ∀ type ∈ s.tables, ∀ key attributes, s.database type key = some attributes ↔
    ∃ p data, s.proxies p = some data ∧ data.node = type ∧ (s.objects p).key = key ∧
      (s.objects p).attributes = attributes

/-- Stored objects of one type have different keys. -/
def KeysDistinct (s : Session) : Prop :=
  ∀ p q d d', s.proxies p = some d → s.proxies q = some d' → d.node = d'.node →
    (s.objects p).key = (s.objects q).key → p = q

end Session

end Matador.Orm
