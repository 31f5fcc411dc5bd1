import Matador.Lib.Worklist
import Matador.Object.PrototypeNode

/-!
# The object deleter

Before an object is removed, `object_deleter` walks over its relations. It collects the object and
all objects it cascades to in `objects_to_remove_`, and keeps in `visited_objects_` for each object
it has met how many references are left without those it has come along. The object may be removed
if no collected object has references left. Meanwhile it queues in `relations_to_remove_` calls that
take the objects out of the relations of others.

The recursion over the fields is a loop over the fields still to be visited (`Worklist`).
`relations_to_remove_` is cleared only by a removal that comes to its end, `visited_objects_` at the
end of `is_deletable`, unless that throws.
-/

namespace Matador.Object

open List Lib

inductive Outcome (α : Type)
  | ok (result : α)
  | throws (message : String)
  /-- a null pointer or a destroyed field is used, or the recursion does not end -/
  | undefined
  deriving DecidableEq

/-! ## What the deleter reads -/

/-- `basic_relation_endpoint::relation_type`. -/
inductive EndpointType
  | hasOne | belongsTo | hasMany
  deriving DecidableEq

/-- `relation_info_` of a field. -/
structure RelationInfo where
  /-- the type of `foreign_endpoint`, if there is one -/
  foreign : Option EndpointType
  deriving DecidableEq

/-- A field of an object that belongs to a relation. `removes` says whether it cascades a removal,
`info` is none where `relation_info_` is null. -/
inductive Member
  | hasOne (target : Option ProxyPtr) (removes : Bool) (info : Option RelationInfo)
  | belongsTo (target : Option ProxyPtr) (removes : Bool) (info : Option RelationInfo)
  /-- a container with so many objects -/
  | hasMany (size : Nat) (info : Option RelationInfo)
  /-- a container with so many values of a builtin type -/
  | values (size : Nat)
  deriving DecidableEq

def Member.target : Member → Option ProxyPtr
  | .hasOne target _ _ | .belongsTo target _ _ => target
  | .hasMany _ _ | .values _ => none

def Member.removes : Member → Bool
  | .hasOne _ removes _ | .belongsTo _ removes _ => removes
  | .hasMany _ _ | .values _ => false

/-- The objects with their relations, as the deleter sees them. -/
structure ObjectGraph where
  proxies : List ProxyPtr
  members : ProxyPtr → List Member
  id : ProxyPtr → Nat
  /-- `reference_count()`, read as a signed number -/
  count : ProxyPtr → Int
  /-- the node of the proxy is a relation table -/
  isRelationNode : ProxyPtr → Bool
  /-- how many fields the class of a field has, if its object may be of a derived class; these come
  first -/
  size : ProxyPtr → Nat → Option Nat := fun _ _ => none

structure Item where
  owner : ProxyPtr
  index : Nat
  member : Member

namespace ObjectGraph

def items (g : ObjectGraph) (p : ProxyPtr) : List Item :=
  (g.members p).mapIdx fun i m => ⟨p, i, m⟩

/-- The fields of `q` that are visited by way of field `i` of `p`: `access::process` is called for
the class of the field, not for that of the object. -/
def reached (g : ObjectGraph) (p : ProxyPtr) (i : Nat) (q : ProxyPtr) : List Item :=
  match g.size p i with
  | none => g.items q
  | some n => (g.items q).take n

theorem reached_sublist (g : ObjectGraph) (p : ProxyPtr) (i : Nat) (q : ProxyPtr) :
    g.reached p i q <+ g.items q := by
  unfold reached
  split
  · exact .refl _
  · exact take_sublist _ _

/-- No walk that visits each object once takes more steps. -/
def fuel (g : ObjectGraph) : Nat := (g.proxies.map fun p => (g.members p).length).sum

end ObjectGraph

/-! ## The walk -/

/-- A call in `relations_to_remove_`: the field it takes its object from, for a container with the
index of the item. -/
structure RelationToRemove where
  owner : ProxyPtr
  member : Nat
  item : Option Nat
  deriving DecidableEq

/-- The field a queued call holds a reference to has not been destroyed. -/
def ObjectGraph.HasField (g : ObjectGraph) (r : RelationToRemove) : Prop :=
  r.member < (g.members r.owner).length

instance (g : ObjectGraph) (r : RelationToRemove) : Decidable (g.HasField r) := Nat.decLt _ _

structure Deleter where
  /-- a map from ids, in the order of the ids -/
  objectsToRemove : List (Nat × ProxyPtr)
  relationsToRemove : List RelationToRemove
  visitedObjects : ProxyPtr → Option Int
  /-- the walk has used a null pointer -/
  undefined : Bool

namespace Deleter

def empty : Deleter := ⟨[], [], fun _ => none, false⟩

/-- `objects_to_remove_.insert`: an id that is in the map keeps its object. -/
def insertObject (id : Nat) (p : ProxyPtr) : List (Nat × ProxyPtr) → List (Nat × ProxyPtr)
  | [] => [(id, p)]
  | x :: xs =>
    if id < x.1 then (id, p) :: x :: xs
    else if id = x.1 then x :: xs
    else x :: insertObject id p xs

def enqueue (d : Deleter) (r : RelationToRemove) : Deleter :=
  { d with relationsToRemove := d.relationsToRemove ++ [r] }

def mark (d : Deleter) (q : ProxyPtr) (references : Int) : Deleter :=
  { d with visitedObjects := insertNew d.visitedObjects q references }

/-- One reference less is left for `p`, if it has been visited. -/
def decrement (d : Deleter) (p : ProxyPtr) : Deleter :=
  { d with
    visitedObjects :=
      Function.update d.visitedObjects p ((d.visitedObjects p).map fun n => n - 1) }

variable (g : ObjectGraph)

/-- The end of `on_has_one` and `on_belongs_to`: a field that cascades is followed. -/
def cascade (d : Deleter) (owner : ProxyPtr) (index : Nat) (removes : Bool) (q : ProxyPtr) :
    Deleter × List Item :=
  if removes then
    ({ d with objectsToRemove := insertObject (g.id q) q d.objectsToRemove },
      g.reached owner index q)
  else (d, [])

/-- `object_deleter::on_has_one` of a field that refers to `q`. -/
def onHasOne (d : Deleter) (owner : ProxyPtr) (index : Nat) (q : ProxyPtr) (removes : Bool)
    (info : Option RelationInfo) : Deleter × List Item :=
  if (d.visitedObjects q).isSome then (d, [])
  else if g.isRelationNode owner then d.cascade g owner index removes q
  else
    match info with
    | none => ({ d with undefined := true }, [])
    | some info =>
      let d := d.enqueue ⟨owner, index, none⟩
      let d := if info.foreign = some .belongsTo then d.decrement owner else d
      (d.mark q (g.count q - 1)).cascade g owner index removes q

/-- `object_deleter::on_belongs_to` of a field that refers to `q`. -/
def onBelongsTo (d : Deleter) (owner : ProxyPtr) (index : Nat) (q : ProxyPtr) (removes : Bool)
    (info : Option RelationInfo) : Deleter × List Item :=
  if (d.visitedObjects q).isSome then (d, [])
  else
    let d :=
      if g.isRelationNode owner then d
      else (if info.isSome then d.enqueue ⟨owner, index, none⟩ else d).mark q (g.count q - 1)
    (d.decrement owner).cascade g owner index removes q

/-- `object_deleter::on_has_many` of a container of objects. -/
def onHasMany (d : Deleter) (owner : ProxyPtr) (index size : Nat) (info : Option RelationInfo) :
    Deleter :=
  (range size).foldl (fun d k =>
    (if info.isSome then d.enqueue ⟨owner, index, some k⟩ else d).decrement owner) d

def visit (d : Deleter) (x : Item) : Deleter × List Item :=
  match x.member with
  | .hasOne none _ _ | .belongsTo none _ _ => (d, [])
  | .hasOne (some q) removes info => d.onHasOne g x.owner x.index q removes info
  | .belongsTo (some q) removes info => d.onBelongsTo g x.owner x.index q removes info
  | .hasMany size info => (d.onHasMany x.owner x.index size info, [])
  | .values size => ((range size).foldl (fun d _ => d.decrement x.owner) d, [])

def checkObjectCountMap (visited : ProxyPtr → Option Int) :
    List (Nat × ProxyPtr) → Except String Bool
  | [] => .ok true
  | x :: xs =>
    match visited x.2 with
    | none => checkObjectCountMap visited xs
    | some n =>
      if n > 0 then .ok false
      else if n < 0 then .error "reference count is less zero"
      else checkObjectCountMap visited xs

/-- The state in which `is_deletable` starts to walk. -/
def start (d : Deleter) (p : ProxyPtr) : Deleter :=
  { d with objectsToRemove := [(g.id p, p)] }.mark p (g.count p)

def isDeletable (d : Deleter) (p : ProxyPtr) : Deleter × Outcome Bool :=
  match Worklist.run (visit g) g.fuel (g.items p) (d.start g p) with
  | none => (d, .undefined)
  | some d =>
    if d.undefined then (d, .undefined)
    else
      match checkObjectCountMap d.visitedObjects d.objectsToRemove with
      | .error m => (d, .throws m)
      | .ok result => ({ d with visitedObjects := fun _ => none }, .ok result)

theorem visit_of_hasOne {g : ObjectGraph} {d : Deleter} {x : Item} {q : ProxyPtr} {removes : Bool}
    (hg : g.isRelationNode x.owner = false) (hx : x.member = .hasOne (some q) removes (some ⟨none⟩))
    (hq : d.visitedObjects q = none) :
    visit g d x = ((d.enqueue ⟨x.owner, x.index, none⟩).mark q (g.count q - 1)).cascade g
      x.owner x.index removes q := by
  rw [visit, hx]
  show d.onHasOne g x.owner x.index q removes (some ⟨none⟩) = _
  rw [onHasOne, hq, hg]
  rfl

theorem visit_of_met {g : ObjectGraph} {d : Deleter} {x : Item} {target : Option ProxyPtr}
    {removes : Bool} {info : Option RelationInfo} (hx : x.member = .hasOne target removes info)
    (hmet : ∀ q ∈ target, (d.visitedObjects q).isSome) : visit g d x = (d, []) := by
  rw [visit, hx]
  cases target with
  | none => rfl
  | some q =>
    show d.onHasOne g x.owner x.index q removes info = _
    unfold onHasOne
    rw [if_pos (hmet q rfl)]

def unmet (d : Deleter) : Nat :=
  Worklist.unvisited (fun p => (g.members p).length) (fun p => (d.visitedObjects p).isSome)
    g.proxies

section Unmet

variable {g} {d d' : Deleter} {q : ProxyPtr}

theorem unmet_le (hold : ∀ u, (d.visitedObjects u).isSome → (d'.visitedObjects u).isSome) :
    d'.unmet g ≤ d.unmet g :=
  Worklist.unvisited_le hold

theorem unmet_visit (hq : q ∈ g.proxies) (hnew : d.visitedObjects q = none)
    (hself : (d'.visitedObjects q).isSome)
    (hold : ∀ u, (d.visitedObjects u).isSome → (d'.visitedObjects u).isSome) {p : ProxyPtr}
    {i : Nat} : (g.reached p i q).length + d'.unmet g ≤ d.unmet g := by
  have hall : (g.items q).length + d'.unmet g ≤ d.unmet g := by
    rw [ObjectGraph.items, length_mapIdx]
    exact Worklist.unvisited_visit (fun p => (g.members p).length) hq (by rw [hnew]; rfl) hself hold
  exact (Nat.add_le_add_right (g.reached_sublist p i q).length_le _).trans hall

theorem unmet_start (hq : q ∈ g.proxies) : (g.items q).length + (d.start g q).unmet g ≤ g.fuel := by
  have hfuel :
      g.fuel = Worklist.unvisited (fun p => (g.members p).length) (fun _ => false) g.proxies := rfl
  rw [hfuel, ObjectGraph.items, length_mapIdx]
  exact Worklist.unvisited_visit (fun p => (g.members p).length) hq rfl
    (isSome_insertNew.mpr (.inl rfl)) nofun

end Unmet

/-! ## Collected objects -/

variable {id : Nat} {xs : List (Nat × ProxyPtr)}

theorem mem_insertObject {p : ProxyPtr} {x : Nat × ProxyPtr}
    (h : x ∈ insertObject id p xs) : x = (id, p) ∨ x ∈ xs := by
  induction xs with
  | nil => exact .inl (mem_singleton.mp h)
  | cons y ys ih =>
    rw [insertObject] at h
    split at h
    · rcases mem_cons.mp h with h | h
      · exact .inl h
      · exact .inr h
    · split at h
      · exact .inr h
      · rcases mem_cons.mp h with rfl | h
        · exact .inr mem_cons_self
        · exact (ih h).imp_right (mem_cons_of_mem _)

theorem subset_insertObject {p : ProxyPtr} {x : Nat × ProxyPtr} (h : x ∈ xs) :
    x ∈ insertObject id p xs := by
  induction xs with
  | nil => cases h
  | cons y ys ih =>
    rw [insertObject]
    split
    · exact mem_cons_of_mem _ h
    · split
      · exact h
      · rcases mem_cons.mp h with rfl | h
        · exact mem_cons_self ..
        · exact mem_cons_of_mem _ (ih h)

theorem mem_insertObject_self (p : ProxyPtr) (h : id ∉ xs.map Prod.fst) :
    (id, p) ∈ insertObject id p xs := by
  induction xs with
  | nil => exact mem_singleton_self _
  | cons y ys ih =>
    rw [map_cons, mem_cons, not_or] at h
    rw [insertObject]
    split
    · exact mem_cons_self ..
    · rw [if_neg h.1]
      exact mem_cons_of_mem _ (ih h.2)

theorem pairwise_insertObject (id : Nat) (p : ProxyPtr)
    (h : (xs.map Prod.fst).Pairwise (· < ·)) :
    ((insertObject id p xs).map Prod.fst).Pairwise (· < ·) := by
  induction xs with
  | nil => exact pairwise_singleton ..
  | cons y ys ih =>
    obtain ⟨hy, hys⟩ := pairwise_cons.mp h
    rw [insertObject]
    split
    · next hlt =>
      refine pairwise_cons.mpr ⟨fun n hn => ?_, h⟩
      rcases mem_cons.mp hn with rfl | hn
      · exact hlt
      · exact hlt.trans (hy n hn)
    · split
      · exact h
      · next hlt hne =>
        refine pairwise_cons.mpr ⟨fun n hn => ?_, ih hys⟩
        obtain ⟨x, hx, rfl⟩ := mem_map.mp hn
        rcases mem_insertObject hx with rfl | hx
        · exact Nat.lt_of_le_of_ne (Nat.le_of_not_lt hlt) (Ne.symm hne)
        · exact hy _ (mem_map_of_mem hx)

end Deleter

/-! ## Removing -/

structure RelationStore (ω : Type) where
  graph : ω → ObjectGraph
  /-- the proxy has a node -/
  hasNode : ω → ProxyPtr → Bool
  /-- `remove_value_from_foreign` for a field -/
  removeValue : RelationToRemove → ω → Outcome ω
  /-- `object_store::remove(proxy, false)` -/
  removeSingle : ProxyPtr → ω → Outcome ω

def runAll {α ω : Type} (f : α → ω → Outcome ω) : List α → ω → ω × Outcome Unit
  | [], w => (w, .ok ())
  | a :: as, w =>
    match f a w with
    | .ok w => runAll f as w
    | .throws m => (w, .throws m)
    | .undefined => (w, .undefined)

theorem runAll_of_ok {α ω : Type} {f : α → ω → Outcome ω} {as : List α} {w : ω}
    (hf : ∀ a ∈ as, f a w = .ok w) : runAll f as w = (w, .ok ()) := by
  induction as with
  | nil => rfl
  | cons a as ih =>
    rw [runAll, hf a mem_cons_self]
    exact ih fun b hb => hf b (mem_cons_of_mem _ hb)

namespace RelationStore

variable {ω : Type} (S : RelationStore ω)

/-- The call of `remove_value_from_foreign` that is queued for a field. -/
def callQueued (r : RelationToRemove) (w : ω) : Outcome ω :=
  if (S.graph w).HasField r then S.removeValue r w else .undefined

/-- `object_deleter::remove`. -/
def removeCollected (w : ω) (d : Deleter) : ω × Deleter × Outcome Unit :=
  match runAll S.callQueued d.relationsToRemove w with
  | (w, .ok _) =>
    match runAll (fun x => S.removeSingle x.2) d.objectsToRemove w with
    | (w, .ok _) => (w, { d with relationsToRemove := [], objectsToRemove := [] }, .ok ())
    | (w, r) => (w, d, r)
  | (w, r) => (w, d, r)

/-- `object_store::remove(proxy, true)`. -/
def remove (w : ω) (d : Deleter) (p : ProxyPtr) : ω × Deleter × Outcome Unit :=
  if S.hasNode w p then
    match d.isDeletable (S.graph w) p with
    | (d, .ok true) => S.removeCollected w d
    | (d, .ok false) => (w, d, .throws "object is not removable")
    | (d, .throws m) => (w, d, .throws m)
    | (d, .undefined) => (w, d, .undefined)
  else (w, d, .throws "prototype node is nullptr")

end RelationStore

end Matador.Object
