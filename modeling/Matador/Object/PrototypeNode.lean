import Matador.Lib.Linked
import Matador.Lib.Run
import Matador.Utils.Identifier

/-!
# Prototype nodes and their object lists

Every attached type is a `prototype_node`. The nodes form a forest, and all nodes of one tree share
one doubly linked list of object proxies between two sentinels. The objects of a node stand
together, the nodes in preorder; three pointers per node mark its part of the list:

* `op_first` — the proxy before the first object of the node
* `op_marker` — the proxy behind the last object of the node itself
* `op_last` — the proxy behind the last object of the node and all its descendants

The forest is kept as the list of its nodes in preorder, each with its depth: `next_node` and
`previous_node` are the neighbours in the list, the descendants of a node the deeper nodes that
directly follow it. Node pointers are type names, which `prototype_map_` keeps unique. Proxies are
addresses that are never used again (`0` is `nullptr`).
-/

namespace Matador.Object

open List Lib

/-- The address of an `object_proxy`. -/
abbrev ProxyPtr := Nat

/-- The fields of `prototype_node` that describe its place in the forest and in the list. -/
structure PrototypeNode where
  /-- `type_`, the name the type is attached under -/
  type : String
  /-- the name of the C++ type, `info_->type_index().name()` -/
  typeId : String
  hasPrimaryKey : Bool
  depth : Nat
  opFirst : ProxyPtr
  opMarker : ProxyPtr
  opLast : ProxyPtr
  count : Nat
  idMap : Identifier → Option ProxyPtr

/-- The nodes of an object store in preorder and the pointers of all proxies. -/
structure PrototypeTree where
  nodes : List PrototypeNode
  links : Links ProxyPtr
  nextProxy : ProxyPtr

namespace PrototypeTree

def empty : PrototypeTree := ⟨[], ⟨fun _ => 0, fun _ => 0⟩, 1⟩

def locate (type : String) : List PrototypeNode →
    Option (List PrototypeNode × PrototypeNode × List PrototypeNode)
  | [] => none
  | n :: ns =>
    if n.type = type then some ([], n, ns)
    else (locate type ns).map fun r => (n :: r.1, r.2)

/-- The descendants of a node of the given depth among the nodes that follow it. -/
def descendants (depth : Nat) (post : List PrototypeNode) : List PrototypeNode :=
  post.takeWhile fun m => depth < m.depth

def behind (depth : Nat) (post : List PrototypeNode) : List PrototypeNode :=
  post.dropWhile fun m => depth < m.depth

theorem locate_eq {type : String} {ns : List PrototypeNode}
    {r : List PrototypeNode × PrototypeNode × List PrototypeNode} (h : locate type ns = some r) :
    ns = r.1 ++ r.2.1 :: r.2.2 ∧ r.2.1.type = type := by
  induction ns generalizing r with
  | nil => simp [locate] at h
  | cons n ns ih =>
    rw [locate] at h
    split at h
    · next ht =>
      cases h
      exact ⟨rfl, ht⟩
    · obtain ⟨r', hr', rfl⟩ := Option.map_eq_some_iff.mp h
      obtain ⟨hns, ht⟩ := ih hr'
      exact ⟨by simp only [cons_append, ← hns], ht⟩

theorem locate_eq_none {type : String} {ns : List PrototypeNode} :
    locate type ns = none ↔ ∀ n ∈ ns, n.type ≠ type := by
  induction ns with
  | nil => simp [locate]
  | cons n ns ih =>
    rw [locate]
    split
    · next ht => simp [ht]
    · next ht => simp [ih, ht]

theorem locate_append_cons {pre post : List PrototypeNode} {n : PrototypeNode}
    (h : ∀ m ∈ pre, m.type ≠ n.type) : locate n.type (pre ++ n :: post) = some (pre, n, post) := by
  induction pre with
  | nil => rw [nil_append, locate, if_pos rfl]
  | cons m pre ih =>
    rw [cons_append, locate, if_neg (h m (by simp)), ih fun k hk => h k (by simp [hk])]
    rfl

/-! ## Markers -/

/-- The body of the loop in `adjust_left_marker`, for a root of depth `depth`. -/
def leftMarker (depth : Nat) (oldProxy newProxy : ProxyPtr) (n : PrototypeNode) : PrototypeNode :=
  { n with
    opMarker := if n.opMarker = oldProxy then newProxy else n.opMarker
    opLast := if depth ≤ n.depth ∧ n.opLast = oldProxy then newProxy else n.opLast }

/-- `adjust_left_marker`: the walk over all predecessors of a node of depth `depth`. -/
def adjustLeftMarker (depth : Nat) (oldProxy newProxy : ProxyPtr) (pre : List PrototypeNode) :
    List PrototypeNode := pre.map (leftMarker depth oldProxy newProxy)

/-- The body of the loop in `adjust_right_marker`. -/
def rightMarker (oldProxy newProxy : ProxyPtr) (n : PrototypeNode) : PrototypeNode :=
  { n with opFirst := if n.opFirst = oldProxy then newProxy else n.opFirst }

/-- `adjust_right_marker`: the walk over all successors. -/
def adjustRightMarker (oldProxy newProxy : ProxyPtr) (post : List PrototypeNode) :
    List PrototypeNode := post.map (rightMarker oldProxy newProxy)

/-! ## Attaching -/

def newNode (type typeId : String) (hasPrimaryKey : Bool) : PrototypeNode :=
  ⟨type, typeId, hasPrimaryKey, 0, 0, 0, 0, 0, fun _ => none⟩

/-- `prototype_node::append` behind the last root: a tree of its own with two new sentinels. -/
def append (t : PrototypeTree) (sibling : PrototypeNode) : PrototypeTree :=
  let first := t.nextProxy
  let last := t.nextProxy + 1
  { nodes := t.nodes ++
      [{ sibling with depth := 0, opFirst := first, opMarker := last, opLast := last }]
    links := ⟨Function.update (Function.update t.links.prev first 0) last first,
      Function.update (Function.update t.links.next last 0) first last⟩
    nextProxy := t.nextProxy + 2 }

/-- `prototype_node::insert(prototype_node *child)`: `child` becomes the last child of `parent`. -/
def insertChild (t : PrototypeTree) (parent : String) (child : PrototypeNode) : PrototypeTree :=
  match locate parent t.nodes with
  | none => t
  | some (pre, p, post) =>
    let child :=
      { child with
        depth := p.depth + 1
        opFirst := if t.links.next p.opFirst = p.opLast then p.opFirst else t.links.prev p.opLast
        opMarker := p.opLast
        opLast := p.opLast }
    { t with nodes := pre ++ p :: (descendants p.depth post ++ child :: behind p.depth post) }

/-! ## Objects -/

/-- The `id_map_` after `insert` of a proxy with primary key `pk`. -/
def insertId (idMap : Identifier → Option ProxyPtr) (pk : Identifier) (proxy : ProxyPtr) :
    Identifier → Option ProxyPtr :=
  if pk.isNull then idMap else insertNew idMap pk proxy

/-- `prototype_node::insert(object_proxy *proxy)` at the node of `type`. -/
def insertProxy (t : PrototypeTree) (type : String) (proxy : ProxyPtr) (pk : Identifier) :
    PrototypeTree :=
  match locate type t.nodes with
  | none => t
  | some (pre, n, post) =>
    let n' := { n with count := n.count + 1, idMap := insertId n.idMap pk proxy }
    if 2 ≤ n.count then
      { t with
        nodes := pre ++ n' :: post
        links := t.links.insertBefore 0 proxy (t.links.prev n.opMarker) }
    else if n.count = 1 then
      let links := t.links.insertBefore 0 proxy (t.links.prev n.opMarker)
      { t with
        nodes := adjustLeftMarker n.depth (links.next proxy) proxy pre ++ n' :: post
        links := links }
    else
      let links := t.links.insertBefore 0 proxy n.opMarker
      { t with
        nodes := adjustLeftMarker n.depth (links.next proxy) proxy pre ++
          n' :: adjustRightMarker (links.prev proxy) proxy post
        links := links }

/-- `prototype_node::remove(object_proxy *proxy)` at the node of `type`. -/
def removeProxy (t : PrototypeTree) (type : String) (proxy : ProxyPtr) (pk : Identifier) :
    PrototypeTree :=
  match locate type t.nodes with
  | none => t
  | some (pre, n, post) =>
    let first := t.links.next n.opFirst
    let pre :=
      if proxy = first then adjustLeftMarker n.depth first (t.links.next first) pre else pre
    let post :=
      if proxy = t.links.prev n.opMarker then
        adjustRightMarker proxy (t.links.prev (t.links.prev n.opMarker)) post
      else post
    { t with
      nodes := pre ++ { n with
          count := n.count - 1
          idMap := if n.hasPrimaryKey then erase n.idMap pk else n.idMap } :: post
      links := t.links.unlink 0 proxy }

@[simp] theorem insertProxy_nextProxy (t : PrototypeTree) (type : String) (p : ProxyPtr)
    (pk : Identifier) : (t.insertProxy type p pk).nextProxy = t.nextProxy := by
  unfold insertProxy
  split
  · rfl
  · dsimp only
    split
    · rfl
    · split
      · rfl
      · rfl

@[simp] theorem removeProxy_nextProxy (t : PrototypeTree) (type : String) (p : ProxyPtr)
    (pk : Identifier) : (t.removeProxy type p pk).nextProxy = t.nextProxy := by
  unfold removeProxy
  split
  · rfl
  · rfl

def body (n : PrototypeNode) : PrototypeNode := { n with opFirst := 0, opMarker := 0, opLast := 0 }

theorem map_of_bodies {β : Type*} {f : PrototypeNode → β} (hf : ∀ n, f (body n) = f n)
    {ns ms : List PrototypeNode} (h : ns.map body = ms.map body) : ns.map f = ms.map f := by
  have hcomp : f ∘ body = f := funext hf
  rw [← hcomp, ← map_map, ← map_map, h]

theorem adjustLeftMarker_bodies (depth : Nat) (p q : ProxyPtr) (ns : List PrototypeNode) :
    (adjustLeftMarker depth p q ns).map body = ns.map body := by
  rw [adjustLeftMarker, map_map]
  rfl

theorem adjustRightMarker_bodies (p q : ProxyPtr) (ns : List PrototypeNode) :
    (adjustRightMarker p q ns).map body = ns.map body := by
  rw [adjustRightMarker, map_map]
  rfl

section Located

variable {t : PrototypeTree} {type : String} {pre post : List PrototypeNode} {n : PrototypeNode}

theorem insertProxy_bodies (hloc : locate type t.nodes = some (pre, n, post)) (p : ProxyPtr)
    (pk : Identifier) : (t.insertProxy type p pk).nodes.map body =
      (pre ++ { n with count := n.count + 1, idMap := insertId n.idMap pk p } :: post).map
        body := by
  simp only [insertProxy, hloc]
  split
  · rfl
  · split
    · simp only [map_append, adjustLeftMarker_bodies]
    · simp only [map_append, map_cons, adjustLeftMarker_bodies, adjustRightMarker_bodies]

theorem removeProxy_bodies (hloc : locate type t.nodes = some (pre, n, post)) (p : ProxyPtr)
    (pk : Identifier) : (t.removeProxy type p pk).nodes.map body = (pre ++ { n with
        count := n.count - 1
        idMap := if n.hasPrimaryKey then erase n.idMap pk else n.idMap } :: post).map body := by
  simp only [removeProxy, hloc, map_append, map_cons, apply_ite (map body), adjustLeftMarker_bodies,
    adjustRightMarker_bodies, ite_self]

end Located

/-! ## Types -/

/-- `object_store::find_prototype_node`: by name, else by the name of the C++ type. -/
def findPrototypeNode (t : PrototypeTree) (type : String) : Except String (Option PrototypeNode) :=
  match t.nodes.find? (·.type = type) with
  | some n => .ok (some n)
  | none =>
    match t.nodes.filter (·.typeId = type) with
    | [] => .ok none
    | [n] => .ok (some n)
    | _ => .error "type id not unique"

/-- `object_store::validate`. Its last test, a node of this name in the typeid map, can only be
reached when the name is not in `prototype_map_`, so it never holds. -/
def validate (t : PrototypeTree) (type typeId : String) : Except String Unit :=
  if t.nodes.any (·.type = type) then .error ("prototype already inserted: " ++ type)
  else if t.nodes.any (·.type = typeId) then .error ("prototype already inserted: " ++ type)
  else .ok ()

/-- `object_store::find_parent` for a given name. -/
def findParent (t : PrototypeTree) (name : String) : Except String PrototypeNode :=
  match t.findPrototypeNode name with
  | .ok (some n) => .ok n
  | .ok none => .error "unknown prototype type"
  | .error e => .error e

/-- `object_store::attach`, as far as it concerns the node of the type itself. -/
def attach (t : PrototypeTree) (type typeId : String) (hasPrimaryKey : Bool)
    (parent : Option String) : Except String PrototypeTree :=
  match t.validate type typeId with
  | .error e => .error e
  | .ok () =>
    match parent with
    | none => .ok (t.append (newNode type typeId hasPrimaryKey))
    | some name =>
      match t.findParent name with
      | .error e => .error e
      | .ok n => .ok (t.insertChild n.type (newNode type typeId hasPrimaryKey))

def subtree (t : PrototypeTree) (type : String) : List PrototypeNode :=
  match locate type t.nodes with
  | none => []
  | some (_, n, post) => n :: descendants n.depth post

theorem findPrototypeNode_mem {t : PrototypeTree} {type : String} {n : PrototypeNode}
    (h : t.findPrototypeNode type = .ok (some n)) : n ∈ t.nodes := by
  unfold findPrototypeNode at h
  split at h
  · next m hm =>
    cases h
    exact mem_of_find?_eq_some hm
  · split at h
    · cases h
    · next m hm =>
      cases h
      exact (mem_filter.mp (hm ▸ mem_singleton_self n)).1
    · cases h

theorem attach_ok {t t' : PrototypeTree} {type typeId : String} {hasPrimaryKey : Bool}
    {parent : Option String} (h : t.attach type typeId hasPrimaryKey parent = .ok t') :
    type ∉ t.nodes.map PrototypeNode.type ∧ (t' = t.append (newNode type typeId hasPrimaryKey) ∨
        ∃ name n, parent = some name ∧ t.findParent name = .ok n ∧ n ∈ t.nodes ∧
          t' = t.insertChild n.type (newNode type typeId hasPrimaryKey)) := by
  unfold attach at h
  have hval : ∀ u, t.validate type typeId = .ok u → type ∉ t.nodes.map PrototypeNode.type := by
    intro u hu hmem
    unfold validate at hu
    rw [if_pos] at hu
    · cases hu
    · obtain ⟨n, hn, ht⟩ := mem_map.mp hmem
      exact any_eq_true.mpr ⟨n, hn, by simpa using ht⟩
  split at h
  · cases h
  · next hv =>
    refine ⟨hval _ hv, ?_⟩
    split at h
    · cases h
      exact .inl rfl
    · split at h
      · cases h
      · next n hn =>
        cases h
        have hn' := hn
        unfold findParent at hn'
        split at hn'
        · next m hm =>
          cases hn'
          exact .inr ⟨_, n, rfl, hn, findPrototypeNode_mem hm, rfl⟩
        · cases hn'
        · cases hn'

end PrototypeTree

end Matador.Object
