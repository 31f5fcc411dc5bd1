import Matador.Object.Attribute
import Matador.Object.Inserter

/-!
# Loading tables

`table::load` makes an object of each row, and the has_one fields of the object are resolved at
once: a field gets the proxy with its foreign key from the node of its type, or, if that row has not
been read yet, a proxy without an object. Such a proxy is parked in `identifier_proxy_map_` of the
table of its type, for other fields with the same key and until its own row is read.

`load` keeps an iterator into `identifier_proxy_map_` while the fields of the row are resolved. If
another proxy is parked in the same map meanwhile, a rehash may make it invalid; `stable` says that
the iterators of the library outlive a rehash. The references are not counted here.
-/

namespace Matador.Orm

open Lib Object

structure Row where
  key : Identifier
  attributes : Attributes
  foreignKeys : List Identifier

structure TableType where
  /-- the name of its node, and of the table -/
  name : String
  /-- the name of the C++ type -/
  classname : String
  /-- the type of its primary key, if that is integral -/
  keyType : IntegralType
  /-- the C++ types of the has_one fields -/
  fields : List String

/-- What a has_one field refers to: a proxy of its own that knows only a key, as it is read from a
row, or a proxy that other fields share. -/
inductive HasOneField
  | read (pk : Identifier)
  | proxy (p : ProxyPtr)
  deriving DecidableEq

structure RowObject where
  row : Row
  fields : List HasOneField

structure Loader where
  store : ObjectStore
  /-- `obj()` of the proxies -/
  object : ProxyPtr → Option RowObject
  /-- `identifier_proxy_map_` of the tables -/
  parked : String → Identifier → Option ProxyPtr

namespace Loader

abbrev proxies (s : Loader) : ProxyPtr → Option ObjectProxy := s.store.lists.proxies

def setParked (s : Loader) (name : String) (pk : Identifier) (p : Option ProxyPtr) : Loader :=
  { s with parked := Function.update s.parked name (Function.update (s.parked name) pk p) }

def next (s : Loader) : ProxyPtr := s.store.lists.tree.nextProxy

def alloc (s : Loader) : Loader := { s with store := { s.store with lists := s.store.lists.alloc } }

/-- `result_impl::read_foreign_object`: a key that is not valid is read as none. -/
def readForeignObject (pk : Identifier) : Identifier := if pk.isValid then pk else .null

/-- `relation_resolver::on_has_one` of a field of the type `classname` that has read the key
`pk`. -/
def onHasOne (types : List TableType) (s : Loader) (classname : String) (pk : Identifier) :
    Except String (Loader × HasOneField) :=
  if pk.isNull then .ok (s, .read pk)
  else
    match s.store.lists.tree.findPrototypeNode classname with
    | .error e => .error e
    | .ok none => .error "undefined"
    | .ok (some n) =>
      match n.idMap pk with
      | some p => .ok (s, .proxy p)
      | none =>
        if ∀ u ∈ types, u.name ≠ n.type then .error ("unknown table " ++ n.type)
        else
          match s.parked n.type pk with
          | some p => .ok (s, .proxy p)
          | none => .ok (s.alloc.setParked n.type pk (some s.next), .proxy s.next)

/-- `relation_resolver::resolve`: the fields in their order. -/
def resolve (types : List TableType) (s : Loader) :
    List (String × Identifier) → Except String (Loader × List HasOneField)
  | [] => .ok (s, [])
  | x :: xs =>
    match onHasOne types s x.1 x.2 with
    | .error e => .error e
    | .ok (s, f) =>
      match resolve types s xs with
      | .error e => .error e
      | .ok (s, fs) => .ok (s, f :: fs)

/-- `object_store::insert(proxy, false)` of the proxy of a row. The fields of its object have no
objects yet, so the inserter does not follow them. -/
def insertRow (s : Loader) (t : TableType) (p : ProxyPtr) (row : Row) : Except String Loader :=
  match s.store.lists.tree.findPrototypeNode t.classname with
  | .error e => .error e
  | .ok none => .error "couldn't find object type"
  | .ok (some n) =>
    let r := s.store.linkAt p ⟨t.classname, t.keyType, row.key⟩ n
    .ok { s with
      store := r.1.mapProxy p r.2
      object := Function.update s.object p
        (some ⟨row, row.foreignKeys.map fun pk => .read (readForeignObject pk)⟩) }

def acquire (s : Loader) (t : TableType) (row : Row) : Loader × ProxyPtr :=
  match s.parked t.name row.key with
  | some p => (s, p)
  | none => (s.alloc, s.next)

def parksIn (name : String) (s s' : Loader) (xs : List (String × Identifier)) : Bool :=
  xs.any fun x => (s.parked name x.2).isNone && (s'.parked name x.2).isSome

/-- One round of the loop of `table::load`. -/
def loadRow (stable : Bool) (types : List TableType) (t : TableType) (s : Loader) (row : Row) :
    Except String Loader :=
  let r := s.acquire t row
  match r.1.insertRow t r.2 row with
  | .error e => .error e
  | .ok s₁ =>
    let xs := t.fields.zip (row.foreignKeys.map readForeignObject)
    match resolve types s₁ xs with
    | .error e => .error e
    | .ok (s₂, fields) =>
      let s₂ := { s₂ with object := Function.update s₂.object r.2 (some ⟨row, fields⟩) }
      if (s.parked t.name row.key).isSome then
        -- the iterator is used again
        if !stable && parksIn t.name s₁ s₂ xs then .error "undefined"
        else .ok (s₂.setParked t.name row.key none)
      else .ok s₂

/-- The proxy `p` holds the object read from a row. -/
def Holds (s : Loader) (t : TableType) (row : Row) (p : ProxyPtr) : Prop :=
  (∃ d, s.proxies p = some d ∧ d.node = t.name ∧ d.pk = row.key) ∧
    ∃ o, s.object p = some o ∧ o.row = row

/-- Tables with a primary key each, whose foreign keys refer to rows. -/
structure WellFormed (types : List TableType) (database : String → List Row) : Prop where
  names : (types.map TableType.name).Nodup
  /-- a class is mapped to one table -/
  classes : (types.map TableType.classname).Nodup
  keys : ∀ t ∈ types, ((database t.name).map Row.key).Nodup
  columns : ∀ t ∈ types, ∀ row ∈ database t.name, row.key ≠ .null ∧
    row.foreignKeys.length = t.fields.length
  refers : ∀ t ∈ types, ∀ row ∈ database t.name, ∀ (i : Nat) (classname : String) (pk : Identifier),
    t.fields[i]? = some classname → row.foreignKeys[i]? = some pk → pk ≠ .null →
      ∃ u ∈ types, u.classname = classname ∧ ∃ row' ∈ database u.name, row'.key = pk

end Loader

end Matador.Orm
