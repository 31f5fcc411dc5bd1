import Matador.Object.ObjectLists
import Matador.Utils.Sequencer

/-!
# The object store

`object_store` keeps the stored proxies twice: in the lists of the prototype nodes and in
`object_map_`, which finds a proxy by its id.

Which objects an insertion cascades to and which proxies a removal takes is up to the relations of
the objects; here these are part of the operation. An operation on a proxy that is not stored
throws.
-/

namespace Matador.Object

open Lib PrototypeTree

structure ObjectStore where
  lists : ObjectLists
  objectMap : Nat → Option ProxyPtr
  seq : Nat

structure NewObject where
  /-- the name of its C++ type -/
  classname : String
  /-- the type of its primary key, if that is integral -/
  keyType : IntegralType
  /-- the value of its primary key, null if the type has none -/
  key : Identifier

/-- New objects in the order in which `insert` is called for them; `cascade` are the objects that
are inserted from within the insertion of the first one. -/
inductive NewObjects
  | nil
  | cons (object : NewObject) (cascade next : NewObjects)

namespace NewObject

/-- `pk_` of the proxy once it has got its id: an invalid key is replaced by the id. -/
def pk (o : NewObject) (id : Nat) : Identifier :=
  if o.key.isNull ∨ o.key.isValid then o.key else .integral 64 id

/-- The sequencer after the id has been given: a valid key is synchronised. -/
def seqAfter (o : NewObject) (id : Nat) : Nat :=
  if o.key.isValid then Sequencer.sync o.keyType id o.key else id

end NewObject

namespace ObjectStore

def empty : ObjectStore := ⟨ObjectLists.empty, fun _ => none, 0⟩

/-! ## Inserting -/

/-- `insert` up to the point where the proxy is linked: the store, the new proxy and its data. -/
def link (s : ObjectStore) (o : NewObject) : Except String (ObjectStore × ProxyPtr × ObjectProxy) :=
  match s.lists.tree.findPrototypeNode o.classname with
  | .error e => .error e
  | .ok none => .error "couldn't find object type"
  | .ok (some n) =>
    let id := Sequencer.next s.seq
    let p := s.lists.tree.nextProxy
    let data : ObjectProxy := ⟨id, o.classname, n.type, o.pk id⟩
    .ok ({ s with lists := s.lists.alloc.insertAt p data, seq := o.seqAfter id }, p, data)

/-- `object_map_.insert` of a linked proxy. -/
def mapProxy (s : ObjectStore) (proxy : ProxyPtr) (o : ObjectProxy) : ObjectStore :=
  { s with objectMap := insertNew s.objectMap o.id proxy }

/-- `insert` of new objects with all they cascade to; an error ends it. -/
def insert (s : ObjectStore) : NewObjects → ObjectStore × Option String
  | .nil => (s, none)
  | .cons o cascade next =>
    match s.link o with
    | .error e => (s, some e)
    | .ok (s₁, p, data) =>
      match s₁.insert cascade with
      | (s₂, some e) => (s₂, some e)
      | (s₂, none) => (s₂.mapProxy p data).insert next

/-! ## Removing -/

/-- `remove_proxy`, and `remove(proxy, false)` up to the notification of the transaction. -/
def removeProxy (s : ObjectStore) (proxy : ProxyPtr) (o : ObjectProxy) :
    Except String ObjectStore :=
  if (s.objectMap o.id).isNone then .error "couldn't remove object"
  else .ok { s with lists := s.lists.removeAt proxy o, objectMap := erase s.objectMap o.id }

/-- `remove(proxy, false)` without a transaction. -/
def removeSingle (s : ObjectStore) (proxy : ProxyPtr) : Except String ObjectStore :=
  match s.lists.proxies proxy with
  | none => .error "prototype node is nullptr"
  | some o => s.removeProxy proxy o

/-- `remove` of the proxies the deleter has collected; an error ends it. -/
def remove (s : ObjectStore) : List ProxyPtr → ObjectStore × Option String
  | [] => (s, none)
  | p :: ps =>
    match s.removeSingle p with
    | .error e => (s, some e)
    | .ok s' => s'.remove ps

end ObjectStore

/-! ## Removing nodes -/

namespace ObjectLists

/-- `prototype_node::clear(false)`: the objects of the node are unlinked and deleted. -/
def clearNode (s : ObjectLists) (type : String) : ObjectLists :=
  match locate type s.tree.nodes with
  | none => s
  | some (pre, n, post) =>
    let k := s.tree.links
    if k.next n.opFirst = n.opMarker then s
    else
      let r := k.unlinkBetween 0 n.opFirst n.opMarker s.tree.nextProxy
      { tree :=
          { s.tree with
            nodes := adjustLeftMarker n.depth (k.next n.opFirst) n.opMarker pre ++
              { n with count := 0, idMap := fun _ => none } ::
              adjustRightMarker (k.prev n.opMarker) n.opFirst post
            links := r.1 }
        proxies := fun p => if p ∈ r.2 then none else s.proxies p }

def firstChild (t : PrototypeTree) (type : String) : Option String :=
  match locate type t.nodes with
  | some (_, n, c :: _) => if n.depth < c.depth then some c.type else none
  | _ => none

/-- The end of `remove_prototype_node`: the node is cleared and taken out of the forest. -/
def dropNode (s : ObjectLists) (type : String) : ObjectLists :=
  let s' := s.clearNode type
  { s' with tree := { s'.tree with nodes := s'.tree.nodes.eraseP (·.type = type) } }

/-- `object_store::remove_prototype_node`: while the node has children the first one is removed. -/
def removePrototypeNode : Nat → ObjectLists → String → ObjectLists
  | 0, s, _ => s
  | fuel + 1, s, type =>
    match firstChild s.tree type with
    | some child => removePrototypeNode fuel (removePrototypeNode fuel s child) type
    | none => s.dropNode type

/-- The loop of `clear(true)`: the first root is removed until there is none. -/
def removeAllNodes : Nat → ObjectLists → ObjectLists
  | 0, s => s
  | fuel + 1, s =>
    match s.tree.nodes with
    | [] => s
    | n :: _ => removeAllNodes fuel (s.removePrototypeNode s.tree.nodes.length n.type)

end ObjectLists

namespace ObjectStore

def detach (s : ObjectStore) (type : String) : Except String ObjectStore :=
  match s.lists.tree.findPrototypeNode type with
  | .error e => .error e
  | .ok none => .error "unknown prototype type"
  | .ok (some n) =>
      .ok { s with lists := s.lists.removePrototypeNode s.lists.tree.nodes.length n.type }

/-- `object_store::clear(const char *)` for a type without children: its node is removed. For an
unknown type the end iterator is dereferenced, and for a type with children the walk over the
children leaves the subtree behind the last child and ends at a null pointer; both are undefined. -/
def clearType (s : ObjectStore) (type : String) : Option (Except String ObjectStore) :=
  match s.lists.tree.findPrototypeNode type with
  | .error e => some (.error e)
  | .ok none => none
  | .ok (some n) =>
    if (ObjectLists.firstChild s.lists.tree n.type).isSome then none
    else some (.ok { s with lists := s.lists.removePrototypeNode 1 n.type })

/-- `object_store::clear(bool)`. -/
def clear (s : ObjectStore) (full : Bool) : ObjectStore :=
  { s with
    lists :=
      if full then s.lists.removeAllNodes s.lists.tree.nodes.length
      else (s.lists.tree.nodes.map PrototypeNode.type).foldl ObjectLists.clearNode s.lists
    objectMap := fun _ => none }

def attach (s : ObjectStore) (type typeId : String) (hasPrimaryKey : Bool)
    (parent : Option String) : Except String ObjectStore :=
  match s.lists.tree.attach type typeId hasPrimaryKey parent with
  | .error e => .error e
  | .ok t => .ok { s with lists := { s.lists with tree := t } }

/-! ## Operations -/

inductive Op where
  | attach (type typeId : String) (hasPrimaryKey : Bool) (parent : Option String)
  | insert (objects : NewObjects)
  | remove (proxies : List ProxyPtr)
  | clearType (type : String)
  | clear (full : Bool)
  | detach (type : String)

/-- The store after a call. A call that throws keeps what it has done before; an undefined one is
not modelled further. -/
def step (s : ObjectStore) : Op → ObjectStore
  | .attach type typeId hasPrimaryKey parent =>
      (s.attach type typeId hasPrimaryKey parent).toOption.getD s
  | .insert objects => (s.insert objects).1
  | .remove proxies => (s.remove proxies).1
  | .clearType type => ((s.clearType type).bind Except.toOption).getD s
  | .clear full => s.clear full
  | .detach type => (s.detach type).toOption.getD s

def findProxy (s : ObjectStore) (id : Nat) : Option ProxyPtr := s.objectMap id

/-- `object_store::get<T>(pk)` for the C++ type `classname`. -/
def get (s : ObjectStore) (classname : String) (pk : Identifier) :
    Except String (Option ProxyPtr) :=
  match s.lists.tree.findPrototypeNode classname with
  | .error e => .error e
  | .ok none => .ok none
  | .ok (some n) => .ok (n.idMap pk)

end ObjectStore

end Matador.Object
