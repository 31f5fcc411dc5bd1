import Matador.Object.Deleter
import Matador.Object.Rollback
import Matador.Object.Serializer

/-!
# A transaction over objects with has_one fields

The objects have plain attributes, dates and has_one fields, none of which has a field at the other
side. While a transaction is open, every object that a removal takes out of the store is saved in
its log, in the order of the ids, and the rollback puts them back in this order.

The counters are read by the deleter only; what a rollback does to them is left out.
-/

namespace Matador.Object

open List Lib PrototypeTree

/-! ## Objects on the heap -/

/-- The field after the proxy `p` has been deleted. -/
def Field.forget (p : ProxyPtr) : Field → Field
  | .hasOne classname proxy => .hasOne classname (if proxy = some p then none else proxy)
  | f => f

namespace Heap

def setStore (h : Heap) (store : ObjectStore)
    (hnext : store.lists.tree.nextProxy = h.store.lists.tree.nextProxy) : Heap :=
  { h with store := store, allocated := fun p hp => hnext ▸ h.allocated p hp }

def setObject (h : Heap) (p : ProxyPtr) (o : List Field) : Heap :=
  { h with objects := Function.update h.objects p o }

theorem setObject_self (h : Heap) (p : ProxyPtr) (o : List Field) :
    (h.setObject p o).objects p = o := by
  simp only [setObject, Function.update_self]

theorem setObject_of_ne {h : Heap} {p q : ProxyPtr} {o : List Field} (hq : q ≠ p) :
    (h.setObject p o).objects q = h.objects q := by
  simp only [setObject, Function.update_of_ne hq]

/-- The proxy is deleted, and the fields that refer to it become null. -/
def deleteProxy (h : Heap) (p : ProxyPtr) : Heap :=
  { h with objects := fun q => (h.objects q).map (Field.forget p) }

end Heap

structure RelationState where
  heap : Heap
  /-- `reference_counter_`, read as a signed number -/
  count : ProxyPtr → Int
  /-- whether a has_one field of the object cascades a removal -/
  removes : ProxyPtr → Nat → Bool
  actions : List Action
  idActionIndexMap : Nat → Option Nat
  objectBuffer : ByteBuffer

namespace RelationState

abbrev proxies (s : RelationState) : ProxyPtr → Option ObjectProxy := s.heap.store.lists.proxies

/-! ## Removing -/

def onDelete (s : RelationState) (e : Entry) : Outcome RelationState :=
  match s.idActionIndexMap e.data.id with
  | none =>
    match backupFields s.heap (s.heap.objects e.proxy) s.objectBuffer with
    | none => .undefined
    | some buffer =>
      .ok { s with
        actions := s.actions ++ [.delete e]
        idActionIndexMap := insertNew s.idActionIndexMap e.data.id s.actions.length
        objectBuffer := buffer }
  | some index =>
    match s.actions[index]? with
    | none => .throws "out_of_range"
    | some a => .ok { s with actions := Transaction.removeAction e index a s.actions }

/-- `object_store::remove(proxy, false)`. -/
def removeSingle (p : ProxyPtr) (s : RelationState) : Outcome RelationState :=
  match s.proxies p with
  | none => .throws "couldn't remove object"
  | some data =>
    match hs : s.heap.store.removeProxy p data with
    | .error m => .throws m
    | .ok store =>
        { s with heap := s.heap.setStore store (removeProxy_store hs).2.1 }.onDelete ⟨p, data⟩

def member (s : RelationState) (p : ProxyPtr) : Field × Nat → Option Member
  | (.hasOne _ proxy, i) => some (.hasOne proxy (s.removes p i) (some ⟨none⟩))
  | _ => none

def graph (s : RelationState) : ObjectGraph where
  proxies := range s.heap.store.lists.tree.nextProxy
  members p := (s.heap.objects p).zipIdx.filterMap (s.member p)
  id := s.heap.oid
  count := s.count
  isRelationNode _ := false

/-- Nothing is at the other side of a relation, so nothing is to be taken out there. -/
def relationStore : RelationStore RelationState where
  graph := graph
  hasNode s p := (s.proxies p).isSome
  removeValue _ s := .ok s
  removeSingle := removeSingle

/-! ## Rolling back -/

variable (create : String → List Field)

/-- `object_proxy::restore`. -/
def restoreObject (s : RelationState) (p : ProxyPtr) : Except String RelationState :=
  (restoreFields create (s.heap.objects p) s.heap s.objectBuffer).map fun r =>
    { s with heap := r.2.1.setObject p r.1, objectBuffer := r.2.2 }

theorem removeEntries_nextProxy {es : List Entry} {store store' : ObjectStore}
    (h : TransactionState.removeEntries es store = .ok store') :
    store'.lists.tree.nextProxy = store.lists.tree.nextProxy := by
  induction es generalizing store with
  | nil =>
    cases h
    rfl
  | cons e es ih =>
    unfold TransactionState.removeEntries at h
    split at h
    · cases h
    · next hs => exact (ih h).trans (removeProxy_store hs).2.1

/-- `action::restore`. A `delete_action` whose id is taken deletes its own proxy. -/
def restore (s : RelationState) : Action → Except String RelationState
  | .insert _ es =>
    match hs : TransactionState.removeEntries es s.heap.store with
    | .error m => .error m
    | .ok store => .ok { s with heap := s.heap.setStore store (removeEntries_nextProxy hs) }
  | .update e => s.restoreObject create e.proxy
  | .delete e =>
    match s.heap.store.findProxy e.data.id with
    | some p =>
        (s.restoreObject create p).map fun s => { s with heap := s.heap.deleteProxy e.proxy }
    | none =>
      match hs : TransactionState.insertProxy s.heap.store e with
      | .error m => .error m
      | .ok store =>
          { s with heap := s.heap.setStore store (insertProxy_nextProxy hs) }.restoreObject
            create e.proxy

/-- The loop of `transaction::rollback`. -/
def restoreAll : List Action → RelationState → RelationState × Option String
  | [], s => (s, none)
  | a :: as, s =>
    match s.restore create a with
    | .error m => (s, some m)
    | .ok s => restoreAll as s

def rollback (s : RelationState) : RelationState × Option String := restoreAll create s.actions s

end RelationState

/-! ## Reading objects back -/

section Reading

variable {create : String → List Field} {h h₀ : Heap} {o now : List Field} {b : ByteBuffer}
  {rest : List UInt8}

/-- The object a field refers to is found by its id, if it has one. -/
def Field.Found (h₀ h : Heap) (f : Field) : Prop :=
  ∀ c q, f = .hasOne c (some q) → h₀.oid q ≠ 0 → ∃ p, h.store.findProxy (h₀.oid q) = some p

/-- The field `g` refers to what is found by the id of the object `f` refers to. -/
def Field.Refers (h₀ h : Heap) (f g : Field) : Prop :=
  ∀ c q, f = .hasOne c (some q) → h₀.oid q ≠ 0 → g = .hasOne c (h.store.findProxy (h₀.oid q))

theorem Field.restoreFrom_readable (create : String → List Field) {f now : Field}
    (hshape : now.shape = f.shape) (hf : f.Readable) (hfound : f.Found h₀ h)
    (hb : b.content = f.written h₀ ++ rest) :
    ∃ g b', now.restoreFrom create h b = .ok (g, h, b') ∧ b'.content = rest ∧ g.shape = f.shape ∧
      f.Refers h₀ h g := by
  cases sameShape hshape with
  | plain hs =>
    obtain ⟨c, b', hb', hcs, -, hrest⟩ := restoreFrom_plain create hs hf.1 hb
    exact ⟨_, b', hb', hrest, congrArg FieldShape.plain hcs, fun c q hq => by cases hq⟩
  | hasOne classname proxy now =>
    obtain ⟨b', hb', hrest⟩ := restoreFrom_hasOne create h classname now (h₀.id_lt proxy) hb
    by_cases h0 : h₀.id proxy = 0
    · refine ⟨.hasOne classname now, b', ?_, hrest, rfl, ?_⟩
      · rw [hb', Heap.foreignObject, if_pos h0]
        rfl
      · rintro c q hq hoid
        cases hq
        exact absurd h0 hoid
    · cases proxy with
      | none => exact absurd rfl h0
      | some q =>
        obtain ⟨p, hp⟩ := hfound classname q rfl h0
        refine ⟨.hasOne classname (some p), b', ?_, hrest, rfl, ?_⟩
        · have hid : h₀.id (some q) = h₀.oid q := rfl
          simp only [hid] at hb' h0
          rw [hb', Heap.foreignObject, if_neg h0, hp]
          rfl
        · rintro c q' hq' -
          cases hq'
          rw [hp]

theorem restoreFields_readable (create : String → List Field)
    (hshp : now.map Field.shape = o.map Field.shape) (ho : ∀ f ∈ o, f.Readable)
    (hfnd : ∀ f ∈ o, f.Found h₀ h) (hb : b.content = o.flatMap (Field.written h₀) ++ rest) :
    ∃ r b', restoreFields create now h b = .ok (r, h, b') ∧ b'.content = rest ∧
      r.map Field.shape = o.map Field.shape ∧ List.Forall₂ (Field.Refers h₀ h) o r := by
  induction o generalizing now b with
  | nil =>
    rw [map_eq_nil_iff.mp hshp]
    exact ⟨[], b, rfl, hb, rfl, .nil⟩
  | cons f o ih =>
    cases now with
    | nil => cases hshp
    | cons now nows =>
      obtain ⟨hfs, hos⟩ := cons.inj hshp
      obtain ⟨hf, ho⟩ := forall_mem_cons.mp ho
      obtain ⟨hff, hfo⟩ := forall_mem_cons.mp hfnd
      rw [flatMap_cons, append_assoc] at hb
      obtain ⟨g, b₁, hg, hb₁, hgs, hgr⟩ := Field.restoreFrom_readable create hfs hf hff hb
      obtain ⟨r, b', hr, hb', hrs, hrr⟩ := ih hos ho hfo hb₁
      refine ⟨g :: r, b', ?_, hb', ?_, .cons hgr hrr⟩
      · rw [restoreFields, hg]
        show (restoreFields create _ h b₁ >>= _) = _
        rw [hr]
        rfl
      · rw [map_cons, map_cons, hgs, hrs]

theorem restoreFields_append (xs ys : List Field) (h : Heap) (b : ByteBuffer) :
    restoreFields create (xs ++ ys) h b = (do
      let (xs, h, b) ← restoreFields create xs h b
      let (ys, h, b) ← restoreFields create ys h b
      .ok (xs ++ ys, h, b)) := by
  induction xs generalizing h b with
  | nil =>
    show restoreFields create ys h b = (restoreFields create ys h b >>= _)
    cases restoreFields create ys h b <;> rfl
  | cons x xs ih =>
    rw [cons_append, restoreFields, restoreFields]
    cases hx : x.restoreFrom create h b with
    | error m => rfl
    | ok r =>
      show (restoreFields create (xs ++ ys) r.2.1 r.2.2 >>= _) = _
      rw [ih]
      cases hxs : restoreFields create xs r.2.1 r.2.2 with
      | error m => simp only [bind, Except.bind, hxs]
      | ok r' =>
        simp only [bind, Except.bind, hxs]
        cases restoreFields create ys r'.2.1 r'.2.2 <;> rfl

/-- An object with a field whose object is not there: a new one is made for this field. -/
theorem restoreFields_placeholder {h' : Heap} {pre post : List Field} {c : String} {p q : ProxyPtr}
    (hpre : ∀ f ∈ pre, f.Readable ∧ f.Found h₀ h) (hpost : ∀ f ∈ post, f.Readable ∧ f.Found h₀ h')
    (hoid : h₀.oid q ≠ 0) (hnone : h.store.findProxy (h₀.oid q) = none)
    (hnew : h.placeholder create c (h₀.oid q) (h₀.oid_lt q) = .ok (p, h'))
    (hb : b.content = (pre ++ .hasOne c (some q) :: post).flatMap (Field.written h₀) ++ rest) :
    ∃ r r' b', restoreFields create (pre ++ .hasOne c (some q) :: post) h b =
        .ok (r ++ .hasOne c (some p) :: r', h', b') ∧ b'.content = rest ∧
        r.length = pre.length := by
  rw [flatMap_append, append_assoc] at hb
  obtain ⟨r, b₁, hr, hb₁, hshp, -⟩ :=
    restoreFields_readable create rfl (fun f hf => (hpre f hf).1) (fun f hf => (hpre f hf).2) hb
  obtain ⟨b₂, hfie, hb₂⟩ := Field.restoreFrom_hasOne create h c (some q) (h₀.oid_lt q) hb₁
  obtain ⟨r', b', hr', hb', -⟩ :=
    restoreFields_readable create rfl (fun f hf => (hpost f hf).1) (fun f hf => (hpost f hf).2) hb₂
  refine ⟨r, r', b', ?_, hb', ?_⟩
  · rw [Heap.foreignObject, if_neg hoid, hnone] at hfie
    rw [hnew] at hfie
    rw [restoreFields_append, hr]
    show (restoreFields create (.hasOne c (some q) :: post) h b₁ >>= _) = _
    rw [restoreFields, hfie]
    show ((restoreFields create post h' b₂ >>= _) >>= _) = _
    rw [hr']
    rfl
  · rw [← length_map, hshp, length_map]

end Reading

end Matador.Object
