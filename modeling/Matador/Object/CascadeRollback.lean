import Matador.Object.HasOneRemove
import Matador.Object.RelationTransaction

/-!
# Rolling back a removal that cascades

An object `a` refers to `b` with a has_one field that cascades a removal (`Owns`). Removing `a`
takes both out of the store, the one with the smaller id first, and the rollback puts them back in
this order. If `a` comes first, `b` is not there when the field is read: a new object is made under
its id, without a key, and `b` is read into that one. Its key is lost.
-/

namespace Matador.Object

open Deleter Function List Lib PrototypeTree TransactionState Option

/-! ## Being linked once -/

/-- The proxy is met exactly once on the way from `op_first` to `op_marker` of the node. -/
def ObjectLists.LinkedOnce (s : ObjectLists) (type : String) (p : ProxyPtr) : Prop :=
  ∃ n ∈ s.tree.nodes, n.type = type ∧
    ∃ fuel l, walk s.tree.links.next fuel n.opFirst n.opMarker = some l ∧ l.count p = 1

variable {p : ProxyPtr} {d : ObjectProxy}

theorem ListsInv.linkedOnce {own : Own} {segs : List Segment} {s : ObjectLists}
    (h : ListsInv own segs s) (hd : s.proxies p = some d) : s.LinkedOnce d.node p := by
  obtain ⟨n, hn, hnt⟩ := mem_map.mp (h.attached p d hd)
  exact ⟨n, hn, hnt, _, _, h.walk_eq hn, h.count_own hn hd hnt.symm⟩

variable {s : ObjectStore}

theorem Mapped.stored_lt (h : Mapped [] s) (hd : s.lists.proxies p = some d) :
    p < s.lists.tree.nextProxy := by
  by_contra hle
  rw [proxies_eq_none_of_le h (Nat.le_of_not_lt hle)] at hd
  cases hd

theorem Mapped.findProxy_eq (h : Mapped [] s) (hd : s.lists.proxies p = some d) :
    s.findProxy d.id = some p :=
  (h.map d.id p).mpr ⟨⟨d, hd, rfl⟩, by simp⟩

variable {i : Nat}

theorem Mapped.findProxy_eq_none (h : Mapped [] s)
    (hi : ∀ p d, s.lists.proxies p = some d → d.id ≠ i) : s.findProxy i = none := by
  cases hfind : s.findProxy i with
  | none => rfl
  | some q =>
    obtain ⟨⟨d, hd, hid⟩, -⟩ := (h.map i q).mp hfind
    exact absurd hid (hi q d hd)

namespace RelationState

/-! ## Two objects -/

/-- The object `a` refers to `b` with its field `k`, which cascades a removal, and nothing else
refers to them. A transaction has begun. -/
structure Owns (create : String → List Field) (s : RelationState) (a b : ProxyPtr) (k : Nat)
    (da db : ObjectProxy) : Prop where
  begin : BeginOk s.heap.store
  oids : ∀ p d, s.proxies p = some d → s.heap.oid p = d.id
  left : s.proxies a = some da
  right : s.proxies b = some db
  field : (s.heap.objects a)[k]? = some (.hasOne db.classname (some b))
  removes : s.removes a k = true
  free : s.count a = 0
  owned : s.count b = 1
  /-- the other fields do not cascade; they refer to other objects, which are stored if they have an
  id -/
  others : ∀ p i c q, p = a ∧ i ≠ k ∨ p = b → (s.heap.objects p)[i]? = some (.hasOne c (some q)) →
    q ≠ a ∧ q ≠ b ∧ s.removes p i = false ∧ (s.heap.oid q ≠ 0 → (s.proxies q).isSome)
  resolves : ∀ p d, p = a ∨ p = b → s.proxies p = some d → ∃ n,
    s.heap.store.lists.tree.findPrototypeNode d.classname = .ok (some n) ∧ n.type = d.node
  keyed : da.pk ≠ .null ∧ db.pk ≠ .null
  keys : da.node = db.node → da.pk ≠ db.pk
  /-- a new object of the class of `b` has the fields of the class -/
  instance_shape : (create db.classname).map Field.shape = (s.heap.objects b).map Field.shape
  actions : s.actions = []
  unlogged : ∀ i, s.idActionIndexMap i = none
  buffer : s.objectBuffer.content = []

section Owns

variable {create : String → List Field} {s : RelationState} {a b : ProxyPtr} {k : Nat}
  {da db : ObjectProxy}

theorem Owns.ne (h : Owns create s a b k da db) : a ≠ b := by
  rintro rfl
  have hfree := h.free
  rw [h.owned] at hfree
  cases hfree

theorem Owns.id_ne (h : Owns create s a b k da db) : da.id ≠ db.id := fun heq =>
  h.ne (h.begin.mapped.unique a b da db h.left h.right heq)

/-! ## What the deleter collects -/

theorem mem_members {m : Member} (hm : m ∈ s.graph.members p) :
    ∃ i c proxy, (s.heap.objects p)[i]? = some (.hasOne c proxy) ∧
      m = .hasOne proxy (s.removes p i) (some ⟨none⟩) := by
  obtain ⟨⟨f, i⟩, hf, hmember⟩ := mem_filterMap.mp hm
  have hfi : (s.heap.objects p)[i]? = some f := mem_zipIdx_iff_getElem?.mp hf
  cases f with
  | hasOne c proxy => exact ⟨i, c, proxy, hfi, (some.inj hmember).symm⟩
  | plain => cases hmember

section

variable (h : Owns create s a b k da db)

include h

theorem Owns.mem_members {m : Member} (hp : p = a ∨ p = b) (hm : m ∈ s.graph.members p) :
    ∃ target removes, m = .hasOne target removes (some ⟨none⟩) ∧
      ∀ q ∈ target, q = b ∧ removes ∨ q ≠ b ∧ removes = false := by
  obtain ⟨i, c, proxy, hf, rfl⟩ := RelationState.mem_members hm
  refine ⟨_, _, rfl, fun q hq => ?_⟩
  rw [mem_def.mp hq] at hf
  by_cases hk : p = a ∧ i = k
  · obtain ⟨rfl, rfl⟩ := hk
    rw [h.field] at hf
    cases hf
    exact .inl ⟨rfl, h.removes⟩
  · have hoth : p = a ∧ i ≠ k ∨ p = b := hp.imp_left fun hpa => ⟨hpa, fun hi => hk ⟨hpa, hi⟩⟩
    obtain ⟨-, hqb, hrem, -⟩ := h.others p i c q hoth hf
    exact .inr ⟨hqb, hrem⟩

theorem Owns.closed : Closed s.graph fun p => p = a ∨ p = b where
  known := by
    rintro p (rfl | rfl)
    · exact ⟨mem_range.mpr (h.begin.mapped.stored_lt h.left), rfl⟩
    · exact ⟨mem_range.mpr (h.begin.mapped.stored_lt h.right), rfl⟩
  members p hp m hm := by
    obtain ⟨target, removes, rfl, htgt⟩ := h.mem_members hp hm
    refine ⟨target, removes, rfl, fun hrem q hq => ?_⟩
    rcases htgt q hq with ⟨rfl, -⟩ | ⟨-, hfal⟩
    · exact .inr rfl
    · cases hrem.symm.trans hfal
  ids := by
    have hne : s.graph.id a ≠ s.graph.id b := by
      show s.heap.oid a ≠ s.heap.oid b
      rw [h.oids a da h.left, h.oids b db h.right]
      exact h.id_ne
    rintro p q (rfl | rfl) (rfl | rfl) heq
    · rfl
    · exact absurd heq hne
    · exact absurd heq.symm hne
    · rfl

theorem Owns.right_collected {d : Deleter} (hw : Walk s.graph (fun p => p = a ∨ p = b) a [] d) :
    b ∈ d.collected := by
  have hmem : Member.hasOne (some b) true (some ⟨none⟩) ∈ s.graph.members a := by
    refine mem_filterMap.mpr ⟨(.hasOne db.classname (some b), k),
      mem_zipIdx_iff_getElem?.mpr h.field, ?_⟩
    rw [member, h.removes]
  by_contra hnot
  have hvis : (d.visitedObjects b).isSome := by
    rcases hw.ahead (fun _ _ _ _ _ _ _ => rfl) a hw.start _ hmem b rfl with hvis | ⟨x, hx, -⟩
    · exact hvis
    · cases hx
  obtain ⟨p, hp, m, hm, htgt, hrem⟩ := hw.passed b hvis hnot
  obtain ⟨target, removes, rfl, hall⟩ := h.mem_members (hw.cascaded p hp).1 hm
  rcases hall b htgt with ⟨-, htrue⟩ | ⟨hne, -⟩
  · cases htrue.symm.trans hrem
  · exact hne rfl

theorem Owns.objectsToRemove_eq {d : Deleter} (hw : Walk s.graph (fun p => p = a ∨ p = b) a [] d) :
    d.objectsToRemove = insertObject db.id b [(da.id, a)] := by
  have hmem {p : ProxyPtr} {e : ObjectProxy} (he : s.proxies p = some e) (hp : p ∈ d.collected) :
      (e.id, p) ∈ d.objectsToRemove := by
    obtain ⟨y, hy, rfl⟩ := mem_map.mp hp
    rw [← h.oids y.2 e he]
    exact (Prod.ext (hw.ids y hy) rfl : y = (s.heap.oid y.2, y.2)) ▸ hy
  refine List.Subset.antisymm_of_pairwise (pairwise_map.mp hw.ordered)
    (pairwise_map.mp (pairwise_insertObject _ _ (pairwise_singleton ..))) (fun x hx => ?_)
      fun x hx => ?_
  · have hid : x.1 = s.heap.oid x.2 := hw.ids x hx
    rcases (hw.cascaded x.2 (mem_map_of_mem hx)).1 with heq | heq
    · rw [heq, h.oids a da h.left] at hid
      exact subset_insertObject (mem_singleton.mpr (Prod.ext hid heq))
    · rw [heq, h.oids b db h.right] at hid
      rw [show x = (db.id, b) from Prod.ext hid heq]
      exact mem_insertObject_self b (by simpa using h.id_ne.symm)
  · rcases mem_insertObject hx with rfl | hx
    · exact hmem h.right (h.right_collected hw)
    · rw [mem_singleton.mp hx]
      exact hmem h.left hw.start

theorem Owns.exists_isDeletable {d : Deleter} (hd : d.Clean s.graph) :
    ∃ d', d.isDeletable s.graph a = (d', .ok true) ∧
    (∀ r ∈ d'.relationsToRemove, s.graph.HasField r) ∧
      d'.objectsToRemove = insertObject db.id b [(da.id, a)] := by
  obtain ⟨d', hw, hdel⟩ := exists_isDeletable_eq h.closed (.inl rfl) hd
  have hche : checkObjectCountMap d'.visitedObjects d'.objectsToRemove = .ok true := by
    refine checkObjectCountMap_eq_true.mpr fun x hx n hn => ?_
    rcases (hw.cascaded x.2 (mem_map_of_mem hx)).1 with heq | heq
    · rw [heq, hw.root] at hn
      exact (some.inj hn).symm.trans h.free
    · rw [heq] at hn
      rw [hw.visited b n hn h.ne.symm, show s.graph.count b = 1 from h.owned]
      rfl
  rw [hche] at hdel
  exact ⟨_, hdel, hw.queued, (h.objectsToRemove_eq hw :)⟩

end

end Owns

/-! ## Taking objects out -/

/-- Both objects are out of the store `s`, and nothing else has changed. -/
structure Removed (S : List ProxyPtr) (s s₁ : RelationState) (a b : ProxyPtr)
    (da db : ObjectProxy) : Prop where
  sentinels : ∃ own segs, ListsInv own segs s.heap.store.lists ∧ Object.sentinels segs = S
  kept : Kept S s.heap.store s₁.heap.store
  objects : s₁.heap.objects = s.heap.objects
  same : ∀ q, q ≠ a → q ≠ b → s₁.proxies q = s.proxies q
  left : s₁.proxies a = none
  right : s₁.proxies b = none
  left_key : s₁.heap.store.lists.tree.idMapOf da.node da.pk = none
  right_key : s₁.heap.store.lists.tree.idMapOf db.node db.pk = none

section Remove

variable {S : List ProxyPtr} {store₀ : ObjectStore} {s : RelationState} {p : ProxyPtr}
  {d : ObjectProxy}

/-- The state of the transaction after `e` has been saved in `buffer`. -/
def logged (s : RelationState) (store : ObjectStore)
    (hnext : store.lists.tree.nextProxy = s.heap.store.lists.tree.nextProxy) (e : Entry)
    (buffer : ByteBuffer) : RelationState :=
  { s with
    heap := s.heap.setStore store hnext
    actions := s.actions ++ [.delete e]
    idActionIndexMap := insertNew s.idActionIndexMap e.data.id s.actions.length
    objectBuffer := buffer }

theorem exists_removeSingle (hkept : Kept S store₀ s.heap.store) (hd : s.proxies p = some d)
    (hnew : s.idActionIndexMap d.id = none) (hread : ∀ f ∈ s.heap.objects p, f.Readable) :
    ∃ store hnext buffer, removeSingle p s = .ok (s.logged store hnext ⟨p, d⟩ buffer) ∧
      Kept S store₀ store ∧ store.lists.proxies = update s.proxies p none ∧
      (∀ type key, store.lists.tree.idMapOf type key = if type = d.node ∧ key = d.pk then none
        else s.heap.store.lists.tree.idMapOf type key) ∧
      buffer.content = s.objectBuffer.content ++
        (s.heap.objects p).flatMap (Field.written s.heap) := by
  have hfind : (s.heap.store.objectMap d.id).isNone = false := by
    rw [show s.heap.store.objectMap d.id = some p from hkept.mapped.findProxy_eq hd]
    rfl
  obtain ⟨store, hsto⟩ : ∃ store, s.heap.store.removeProxy p d = .ok store := by
    rw [ObjectStore.removeProxy, hfind]
    exact ⟨_, rfl⟩
  obtain ⟨hkept', hmap⟩ := hkept.removeProxy hd hsto
  obtain ⟨-, hnext, hpxs⟩ := removeProxy_store hsto
  obtain ⟨buffer, hbuf⟩ :=
    exists_backupFields (h := s.heap.setStore store hnext) hread s.objectBuffer
  have hcon := content_backupFields hbuf
  refine ⟨store, hnext, buffer, ?_, hkept', hpxs, hmap, hcon⟩
  unfold removeSingle
  rw [hd]
  dsimp only
  split
  · next hs => cases hsto.symm.trans hs
  · next store' hs =>
    cases hsto.symm.trans hs
    unfold onDelete
    rw [hnew]
    rw [show backupFields (s.heap.setStore store hnext) ((s.heap.setStore store hnext).objects p)
      s.objectBuffer = some buffer from hbuf]
    rfl

theorem Removed.symm {s₁ : RelationState} {a b : ProxyPtr} {da db : ObjectProxy}
    (h : Removed S s s₁ a b da db) : Removed S s s₁ b a db da :=
  ⟨h.sentinels, h.kept, h.objects, fun q hqb hqa => h.same q hqa hqb, h.right, h.left,
    h.right_key, h.left_key⟩

theorem exists_removeTwo (hbeg : BeginOk s.heap.store) {q : ProxyPtr} {d' : ObjectProxy}
    (hd : s.proxies p = some d) (hd' : s.proxies q = some d') (hpq : p ≠ q) (hid : d.id ≠ d'.id)
    (hkeys : d.node = d'.node → d.pk ≠ d'.pk) (hact : s.actions = [])
    (hnew : ∀ i, s.idActionIndexMap i = none) (hbuf : s.objectBuffer.content = [])
    (hread : ∀ f ∈ s.heap.objects p, f.Readable) (hread' : ∀ f ∈ s.heap.objects q, f.Readable) :
    ∃ S t, runAll (fun x : Nat × ProxyPtr => removeSingle x.2) [(d.id, p), (d'.id, q)] s =
      (t, .ok ()) ∧ Removed S s t p q d d' ∧ t.actions = [.delete ⟨p, d⟩, .delete ⟨q, d'⟩] ∧
      t.objectBuffer.content = (s.heap.objects p).flatMap (Field.written s.heap) ++
        (s.heap.objects q).flatMap (Field.written s.heap) := by
  obtain ⟨own, segs, hinv⟩ := hbeg.mapped.lists
  have hkept : Kept (sentinels segs) s.heap.store s.heap.store :=
    ⟨hbeg.mapped, ⟨own, segs, hinv, rfl⟩, rfl, Nat.le_refl _, Nat.le_refl _, hbeg.keyed, hbeg.nulls⟩
  obtain ⟨store₁, hnext₁, buffer₁, hrem₁, hkept₁, hpxs₁, hmap₁, hcon₁⟩ :=
    exists_removeSingle hkept hd (hnew d.id) hread
  have hstd : (s.logged store₁ hnext₁ ⟨p, d⟩ buffer₁).proxies q = some d' := by
    show store₁.lists.proxies q = some d'
    rw [hpxs₁, update_of_ne hpq.symm]
    exact hd'
  have hunl : (s.logged store₁ hnext₁ ⟨p, d⟩ buffer₁).idActionIndexMap d'.id = none :=
    (insertNew_of_ne hid.symm _).trans (hnew d'.id)
  obtain ⟨store₂, hnext₂, buffer₂, hrem₂, hkept₂, hpxs₂, hmap₂, hcon₂⟩ :=
    exists_removeSingle hkept₁ hstd hunl hread'
  replace hpxs₂ : store₂.lists.proxies = update (update s.proxies p none) q none := by
    rw [hpxs₂, ← hpxs₁]
    rfl
  refine ⟨_, (s.logged store₁ hnext₁ ⟨p, d⟩ buffer₁).logged store₂ hnext₂ ⟨q, d'⟩ buffer₂, ?_,
    ⟨⟨own, segs, hinv, rfl⟩, hkept₂, rfl, fun r hrp hrq => ?_, ?_, ?_, ?_, ?_⟩, ?_, ?_⟩
  · rw [runAll, hrem₁]
    dsimp only
    rw [runAll, hrem₂]
    rfl
  · refine (congrFun hpxs₂ r).trans ?_
    rw [update_of_ne hrq, update_of_ne hrp]
  · refine (congrFun hpxs₂ p).trans ?_
    rw [update_of_ne hpq, update_self]
  · exact (congrFun hpxs₂ q).trans (update_self ..)
  · refine (hmap₂ d.node d.pk).trans ((if_neg fun heq => hkeys heq.1 heq.2).trans ?_)
    exact (hmap₁ d.node d.pk).trans (if_pos ⟨rfl, rfl⟩)
  · exact (hmap₂ d'.node d'.pk).trans (if_pos ⟨rfl, rfl⟩)
  · show (s.actions ++ [Action.delete ⟨p, d⟩]) ++ [Action.delete ⟨q, d'⟩] = _
    rw [hact]
    rfl
  · refine hcon₂.trans ?_
    show buffer₁.content ++ _ = _
    rw [hcon₁, hbuf]
    rfl

end Remove

/-! ## Putting objects back -/

section Restore

variable (create : String → List Field) {S : List ProxyPtr} {store₀ : ObjectStore}
  {s : RelationState}

/-- The objects that can be linked again: those of `store₀`, which is as it was at `begin`. -/
structure Relinkable (store₀ : ObjectStore) (S : List ProxyPtr) (e : Entry) : Prop where
  begin : BeginOk store₀
  sentinels : ∃ own segs, ListsInv own segs store₀.lists ∧ Object.sentinels segs = S
  stored : store₀.lists.proxies e.proxy = some e.data
  resolves : ∃ n, store₀.lists.tree.findPrototypeNode e.data.classname = .ok (some n) ∧
    n.type = e.data.node

theorem exists_restore_delete {e : Entry} (he : Relinkable store₀ S e)
    (hkept : Kept S store₀ s.heap.store) (hgone : s.proxies e.proxy = none)
    (hnew : ∀ q d, s.proxies q = some d → d.id ≠ e.data.id) :
    ∃ store hnext, s.restore create (.delete e) =
        { s with heap := s.heap.setStore store hnext }.restoreObject create e.proxy ∧
      Kept S store₀ store ∧ store.lists.proxies = update s.proxies e.proxy (some e.data) ∧
      store.lists.tree.idMapOf = withKey s.heap.store.lists.tree.idMapOf e.data.node e.data.pk
        e.proxy := by
  obtain ⟨own, segs, hinv, hsent⟩ := he.sentinels
  have hcell := hinv.layout.cells_lt _ (hinv.mem_cells ((hinv.stored _ _).mpr ⟨_, he.stored, rfl⟩))
  obtain ⟨store, hsto, hpxs, hkept', hmap⟩ := hkept.insertProxy hgone
    (hsent ▸ hinv.not_mem_sentinels he.stored) ⟨hcell.1, lt_of_lt_of_le hcell.2 hkept.next⟩
    (he.begin.ids _ _ he.stored) ((he.begin.mapped.ids _ _ he.stored).trans hkept.seq)
      hnew he.resolves
    (he.begin.keyed _ _ he.stored)
  refine ⟨store, insertProxy_nextProxy hsto, ?_, hkept', hpxs, hmap⟩
  unfold restore
  dsimp only
  rw [hkept.mapped.findProxy_eq_none hnew]
  dsimp only
  split
  · next hs => cases hsto.symm.trans hs
  · next store' hs =>
    cases hsto.symm.trans hs
    rfl

theorem restore_delete_of_taken {e : Entry} (hfind : s.heap.store.findProxy e.data.id = some p) :
    s.restore create (.delete e) = (s.restoreObject create p).map
      fun s => { s with heap := s.heap.deleteProxy e.proxy } := by
  unfold restore
  dsimp only
  rw [hfind]

theorem exists_restoreObject {o : List Field} {h₀ : Heap} (rest : List UInt8)
    (hshp : (s.heap.objects p).map Field.shape = o.map Field.shape) (ho : ∀ f ∈ o, f.Readable)
    (hfnd : ∀ f ∈ o, f.Found h₀ s.heap)
    (hb : s.objectBuffer.content = o.flatMap (Field.written h₀) ++ rest) :
    ∃ r buffer, s.restoreObject create p =
      .ok { s with heap := s.heap.setObject p r, objectBuffer := buffer } ∧
      buffer.content = rest ∧ List.Forall₂ (Field.Refers h₀ s.heap) o r := by
  obtain ⟨r, buffer, hr, hbuf, -, href⟩ := restoreFields_readable create hshp ho hfnd hb
  refine ⟨r, buffer, ?_, hbuf, href⟩
  rw [restoreObject, hr]
  rfl

theorem exists_placeholder {h : Heap} {classname node : String} {oid : Nat} (hlt : oid < 2 ^ 64)
    (hkept : Kept S store₀ h.store) (hoid : oid ≠ 0) (hle : oid ≤ h.store.seq)
    (hnew : ∀ q d, h.store.lists.proxies q = some d → d.id ≠ oid)
    (hfind : ∃ n, store₀.lists.tree.findPrototypeNode classname = .ok (some n) ∧ n.type = node) :
    ∃ store hnext, h.placeholder create classname oid hlt =
        .ok (h.store.lists.tree.nextProxy, h.add store oid (create classname) hlt hnext) ∧
      Kept S store₀ store ∧
      store.lists.proxies = update h.store.lists.proxies h.store.lists.tree.nextProxy
        (some ⟨oid, classname, node, .null⟩) ∧
      store.lists.tree.idMapOf = h.store.lists.tree.idMapOf := by
  obtain ⟨n₀, hfind₀, rfl⟩ := hfind
  obtain ⟨n, hfind, hsig⟩ := findPrototypeNode_congr hkept.sigs hfind₀
  have hnode : n.type = n₀.type := (Prod.mk.inj hsig).1
  obtain ⟨hall, hnone, hpos, hS⟩ := hkept.alloc
  obtain ⟨store, hsto, hpxs, hkept', hmap⟩ := hall.insertProxy
    (e := ⟨h.store.lists.tree.nextProxy, ⟨oid, classname, n₀.type, .null⟩⟩) hnone hS
    ⟨hpos, Nat.lt_succ_self _⟩ hoid hle hnew ⟨n₀, hfind₀, rfl⟩ fun hnull => absurd rfl hnull
  refine ⟨store, insertProxy_nextProxy hsto, ?_, hkept', hpxs, hmap.trans ?_⟩
  swap
  · funext type k
    exact if_neg fun hc => hc.1 rfl
  unfold Heap.placeholder
  rw [hfind]
  dsimp only
  split
  · next hs =>
    rw [hnode] at hs
    cases hsto.symm.trans hs
  · next store' hs =>
    rw [hnode] at hs
    cases hsto.symm.trans hs
    rfl

end Restore

/-! ## Both objects -/

/-- `a` is found by its id and its key, the field of `a` refers to the proxy `p`, which is found by
the id of `b`, and both are linked once. -/
structure Relinked (t : RelationState) (a p : ProxyPtr) (k : Nat) (da db : ObjectProxy) : Prop where
  left : t.heap.store.findProxy da.id = some a
  left_linked : t.heap.store.lists.LinkedOnce da.node a
  left_key : t.heap.store.get da.classname da.pk = .ok (some a)
  right : t.heap.store.findProxy db.id = some p
  right_linked : t.heap.store.lists.LinkedOnce db.node p
  field : (t.heap.objects a)[k]? = some (.hasOne db.classname (some p))

/-- Removing `a` takes both objects out, and the rollback brings both back, the second under its key
too. -/
def RestoresBoth (create : String → List Field) (s : RelationState) (d : Deleter)
    (a b : ProxyPtr) (k : Nat) (da db : ObjectProxy) : Prop :=
  ∃ s₁ d₁ t p, relationStore.remove s d a = (s₁, d₁, .ok ()) ∧ s₁.proxies a = none ∧
    s₁.proxies b = none ∧
    s₁.rollback create = (t, none) ∧ t.Relinked a p k da db ∧
    t.heap.store.get db.classname db.pk = .ok (some p)

section Both

variable {create : String → List Field} {s s₁ : RelationState} {a b : ProxyPtr} {k : Nat}
  {da db : ObjectProxy} {d : Deleter} {S : List ProxyPtr}

theorem remove_eq (h : Owns create s a b k da db) (hd : d.Clean s.graph) {t : RelationState}
    (hrun : runAll (fun x : Nat × ProxyPtr => removeSingle x.2)
      (insertObject db.id b [(da.id, a)]) s = (t, .ok ())) : ∃ d',
      relationStore.remove s d a = (t, d', .ok ()) := by
  obtain ⟨d', hdel, hque, hcol⟩ := h.exists_isDeletable hd
  refine ⟨{ d' with relationsToRemove := [], objectsToRemove := [] }, ?_⟩
  have hstd : relationStore.hasNode s a := by
    show (s.proxies a).isSome
    rw [h.left]
    rfl
  have hval : runAll relationStore.callQueued d'.relationsToRemove s = (s, .ok ()) :=
    runAll_of_ok fun r hr => if_pos (hque r hr)
  rw [RelationStore.remove, if_pos hstd, show relationStore.graph s = s.graph from rfl, hdel]
  dsimp only
  rw [RelationStore.removeCollected, hval]
  dsimp only
  rw [hcol, show relationStore.removeSingle = removeSingle from rfl, hrun]

theorem exists_removed (h : Owns create s a b k da db) (hd : d.Clean s.graph)
    (hleft : ∀ f ∈ s.heap.objects a, f.Readable) (hrgt : ∀ f ∈ s.heap.objects b, f.Readable) :
    ∃ S s₁ d₁, relationStore.remove s d a = (s₁, d₁, .ok ()) ∧ Removed S s s₁ a b da db ∧
      (db.id < da.id ∧ s₁.actions = [.delete ⟨b, db⟩, .delete ⟨a, da⟩] ∧
          s₁.objectBuffer.content = (s.heap.objects b).flatMap (Field.written s.heap) ++
            (s.heap.objects a).flatMap (Field.written s.heap) ∨
        da.id < db.id ∧ s₁.actions = [.delete ⟨a, da⟩, .delete ⟨b, db⟩] ∧
          s₁.objectBuffer.content = (s.heap.objects a).flatMap (Field.written s.heap) ++
            (s.heap.objects b).flatMap (Field.written s.heap)) := by
  rcases Nat.lt_or_gt_of_ne h.id_ne with hlt | hlt
  · obtain ⟨S, s₁, hrun, hr, hact, hcon⟩ :=
      exists_removeTwo h.begin h.left h.right h.ne h.id_ne h.keys
      h.actions h.unlogged h.buffer hleft hrgt
    rw [← show insertObject db.id b [(da.id, a)] = [(da.id, a), (db.id, b)] from
      (if_neg hlt.not_gt).trans (if_neg hlt.ne')] at hrun
    obtain ⟨d₁, hrem⟩ := remove_eq h hd hrun
    exact ⟨S, s₁, d₁, hrem, hr, .inr ⟨hlt, hact, hcon⟩⟩
  · obtain ⟨S, s₁, hrun, hr, hact, hcon⟩ :=
      exists_removeTwo h.begin h.right h.left h.ne.symm h.id_ne.symm
      (fun heq hpk => h.keys heq.symm hpk.symm) h.actions h.unlogged h.buffer hrgt hleft
    rw [← show insertObject db.id b [(da.id, a)] = _ from if_pos hlt] at hrun
    obtain ⟨d₁, hrem⟩ := remove_eq h hd hrun
    exact ⟨S, s₁, d₁, hrem, hr.symm, .inl ⟨hlt, hact, hcon⟩⟩

theorem Removed.stored (hr : Removed S s s₁ a b da db) {q : ProxyPtr} {e : ObjectProxy}
    (hq : s₁.proxies q = some e) : q ≠ a ∧ q ≠ b ∧ s.proxies q = some e := by
  have hqa : q ≠ a := by
    rintro rfl
    rw [hr.left] at hq
    cases hq
  have hqb : q ≠ b := by
    rintro rfl
    rw [hr.right] at hq
    cases hq
  exact ⟨hqa, hqb, hr.same q hqa hqb ▸ hq⟩

theorem Removed.other_id (h : Owns create s a b k da db) (hr : Removed S s s₁ a b da db)
    {d : ObjectProxy} (hp : p = a ∨ p = b) (hd : s.proxies p = some d) (q : ProxyPtr)
    (e : ObjectProxy) (hq : s₁.proxies q = some e) : e.id ≠ d.id := fun heq => by
  obtain ⟨hqa, hqb, hstd⟩ := hr.stored hq
  obtain rfl := h.begin.mapped.unique q p e d hstd hd heq
  exact hp.elim hqa hqb

theorem get_of_kept {store₀ store : ObjectStore} (hkept : Kept S store₀ store)
    {classname node : String}
    (hfind : ∃ n, store₀.lists.tree.findPrototypeNode classname = .ok (some n) ∧ n.type = node)
    (key : Identifier) : store.get classname key = .ok (store.lists.tree.idMapOf node key) := by
  obtain ⟨n₀, hfind₀, rfl⟩ := hfind
  obtain ⟨n, hfind, hsig⟩ := findPrototypeNode_congr hkept.sigs hfind₀
  have hnode : n.type = n₀.type := (Prod.mk.inj hsig).1
  rw [ObjectStore.get, hfind, ← hnode, PrototypeTree.idMapOf,
    idMapIn_of_mem hkept.types_nodup (findPrototypeNode_mem hfind)]

theorem linkedOnce_of_kept {store₀ store : ObjectStore} (hkept : Kept S store₀ store)
    {d : ObjectProxy} (hd : store.lists.proxies p = some d) : store.lists.LinkedOnce d.node p := by
  obtain ⟨own, segs, hinv, -⟩ := hkept.lists
  exact hinv.linkedOnce hd

/-- The objects other than `a` and `b` are stored as in `s`. -/
def KeepsOthers (s : RelationState) (a b : ProxyPtr) (store : ObjectStore) : Prop :=
  ∀ q, q ≠ a → q ≠ b → ∀ d, s.proxies q = some d → store.lists.proxies q = some d

variable {h' : Heap} {f : Field}

section Found

variable (h : Owns create s a b k da db) (hmapped : Mapped [] h'.store)
  (hsame : s.KeepsOthers a b h'.store)

include h hmapped hsame

theorem Owns.found (hp : p = a ∧ i ≠ k ∨ p = b) (hf : (s.heap.objects p)[i]? = some f) :
    f.Found s.heap h' := by
  rintro c q rfl hoid
  obtain ⟨hqa, hqb, -, hstd⟩ := h.others p i c q hp hf
  obtain ⟨d, hd⟩ := isSome_iff_exists.mp (hstd hoid)
  refine ⟨q, ?_⟩
  rw [h.oids q d hd]
  exact hmapped.findProxy_eq (hsame q hqa hqb d hd)

theorem Owns.found_right : ∀ f ∈ s.heap.objects b, f.Found s.heap h' := by
  intro f hf
  obtain ⟨i, hi⟩ := getElem?_of_mem hf
  exact h.found hmapped hsame (.inr rfl) hi

theorem Owns.found_before {pre post : List Field} (hspl : s.heap.objects a = pre ++ f :: post)
    (hk : pre.length = k) : ∀ g ∈ pre, g.Found s.heap h' := by
  intro g hg
  obtain ⟨i, hi⟩ := getElem?_of_mem hg
  have hlt : i < pre.length := (List.getElem?_eq_some_iff.mp hi).1
  refine h.found hmapped hsame (.inl ⟨rfl, (hk ▸ hlt).ne⟩) ?_
  rw [hspl, getElem?_append_left hlt, hi]

theorem Owns.found_behind {pre post : List Field} (hspl : s.heap.objects a = pre ++ f :: post)
    (hk : pre.length = k) : ∀ g ∈ post, g.Found s.heap h' := by
  intro g hg
  obtain ⟨i, hi⟩ := getElem?_of_mem hg
  refine h.found (i := k + (i + 1)) hmapped hsame (.inl ⟨rfl, by omega⟩) ?_
  rw [hspl, getElem?_append_right (by omega), hk, Nat.add_sub_cancel_left, getElem?_cons_succ, hi]

end Found

theorem Owns.exists_fields (h : Owns create s a b k da db) :
    ∃ pre post, s.heap.objects a = pre ++ .hasOne db.classname (some b) :: post ∧
    pre.length = k := by
  obtain ⟨hk, hfie⟩ := List.getElem?_eq_some_iff.mp h.field
  refine ⟨(s.heap.objects a).take k, (s.heap.objects a).drop (k + 1), ?_, length_take_of_le hk.le⟩
  rw [← hfie, getElem_cons_drop, take_append_drop]

theorem forall₂_getElem? {R : Field → Field → Prop} {o r : List Field} (h : List.Forall₂ R o r)
    (hf : o[i]? = some f) : ∃ g, r[i]? = some g ∧ R f g := by
  induction h generalizing i with
  | nil => cases hf
  | cons hfg _ ih =>
    cases i with
    | zero =>
      cases hf
      exact ⟨_, rfl, hfg⟩
    | succ i => exact ih hf

theorem rollback_two {x y : Action} {s₂ t : RelationState} (hact : s₁.actions = [x, y])
    (hx : s₁.restore create x = .ok s₂) (hy : s₂.restore create y = .ok t) :
    s₁.rollback create = (t, none) := by
  rw [rollback, hact, restoreAll, hx]
  dsimp only
  rw [restoreAll, hy]
  rfl

section Rollback

variable (h : Owns create s a b k da db) (hr : Removed S s s₁ a b da db)
  (hleft : ∀ f ∈ s.heap.objects a, f.Readable)

include h hr hleft

/-- **`b` comes first**: its proxy is there when the field of `a` is read. -/
theorem exists_rollback_of_lt (hrgt : ∀ f ∈ s.heap.objects b, f.Readable)
    (hact : s₁.actions = [.delete ⟨b, db⟩, .delete ⟨a, da⟩])
    (hcon : s₁.objectBuffer.content = (s.heap.objects b).flatMap (Field.written s.heap) ++
      (s.heap.objects a).flatMap (Field.written s.heap)) :
    ∃ t, s₁.rollback create = (t, none) ∧ t.Relinked a b k da db ∧
      t.heap.store.get db.classname db.pk = .ok (some b) := by
  obtain ⟨store₂, hnext₂, hres₂, hkept₂, hpxs₂, hmap₂⟩ :=
    exists_restore_delete create (e := ⟨b, db⟩)
      ⟨h.begin, hr.sentinels, h.right, h.resolves b db (.inr rfl) h.right⟩ hr.kept hr.right
      (hr.other_id h (.inr rfl) h.right)
  have hsame₂ : s.KeepsOthers a b store₂ := by
    intro q hqa hqb d hq
    rw [hpxs₂, update_of_ne hqb, hr.same q hqa hqb, hq]
  obtain ⟨r₂, buffer₂, hobj₂, hcon₂, -⟩ :=
    exists_restoreObject create (s := { s₁ with heap := s₁.heap.setStore store₂ hnext₂ })
      ((s.heap.objects a).flatMap (Field.written s.heap))
        (congrArg (map Field.shape) (congrFun hr.objects b)) hrgt
      (h.found_right hkept₂.mapped hsame₂) hcon
  obtain ⟨store₃, hnext₃, hres₃, hkept₃, hpxs₃, hmap₃⟩ :=
    exists_restore_delete create (e := ⟨a, da⟩) (s := { s₁ with
        heap := (s₁.heap.setStore store₂ hnext₂).setObject b r₂, objectBuffer := buffer₂ })
      ⟨h.begin, hr.sentinels, h.left, h.resolves a da (.inl rfl) h.left⟩ hkept₂
      (show store₂.lists.proxies a = none by rw [hpxs₂, update_of_ne h.ne, hr.left])
      (fun q e (hq : store₂.lists.proxies q = some e) => by
        rw [hpxs₂] at hq
        rcases eq_or_ne q b with rfl | hqb
        · rw [update_self] at hq
          cases hq
          exact h.id_ne.symm
        · rw [update_of_ne hqb] at hq
          exact hr.other_id h (.inl rfl) h.left q e hq)
  replace hpxs₃ : store₃.lists.proxies = update store₂.lists.proxies a (some da) := hpxs₃
  have hstored_a : store₃.lists.proxies a = some da := by rw [hpxs₃, update_self]
  have hstored_b : store₃.lists.proxies b = some db := by
    rw [hpxs₃, update_of_ne h.ne.symm, hpxs₂, update_self]
  have hfind_b : store₃.findProxy db.id = some b := hkept₃.mapped.findProxy_eq hstored_b
  have hsame₃ : s.KeepsOthers a b store₃ := by
    intro q hqa hqb d hq
    rw [hpxs₃, update_of_ne hqa]
    exact hsame₂ q hqa hqb d hq
  obtain ⟨r₃, buffer₃, hobj₃, -, href⟩ :=
    exists_restoreObject create (s := { s₁ with
        heap := ((s₁.heap.setStore store₂ hnext₂).setObject b r₂).setStore store₃ hnext₃
        objectBuffer := buffer₂ })
      []
      (congrArg (map Field.shape) ((Heap.setObject_of_ne h.ne).trans (congrFun hr.objects a))) hleft
      (fun f hf => by
        obtain ⟨i, hi⟩ := getElem?_of_mem hf
        rcases eq_or_ne i k with rfl | hik
        · rintro c q rfl -
          rw [h.field] at hi
          cases hi
          exact ⟨b, h.oids b db h.right ▸ hfind_b⟩
        · exact h.found hkept₃.mapped hsame₃ (.inl ⟨rfl, hik⟩) hi)
      (hcon₂.trans (append_nil _).symm)
  obtain ⟨g, hg, hrefe⟩ := forall₂_getElem? href h.field
  refine ⟨{ s₁ with
      heap :=
        (((s₁.heap.setStore store₂ hnext₂).setObject b r₂).setStore store₃ hnext₃).setObject a r₃
      objectBuffer := buffer₃ }, ?_,
    ⟨hkept₃.mapped.findProxy_eq hstored_a, linkedOnce_of_kept hkept₃ hstored_a, ?_, hfind_b,
      linkedOnce_of_kept hkept₃ hstored_b, ?_⟩, ?_⟩
  · exact rollback_two hact (hres₂.trans hobj₂) (hres₃.trans hobj₃)
  · refine (get_of_kept hkept₃ (h.resolves a da (.inl rfl) h.left) da.pk).trans (congrArg _ ?_)
    rw [hmap₃, withKey, if_pos ⟨h.keyed.1, rfl, rfl⟩]
    show ((store₂.lists.tree.idMapOf da.node da.pk).or _) = _
    rw [hmap₂, withKey, if_neg fun heq => h.keys heq.2.1 heq.2.2, hr.left_key]
    rfl
  · dsimp only
    rw [Heap.setObject_self, hg,
      hrefe _ _ rfl (by rw [h.oids b db h.right]; exact h.begin.ids b db h.right),
      h.oids b db h.right]
    exact congrArg (fun p => some (Field.hasOne db.classname p)) hfind_b
  · refine (get_of_kept hkept₃ (h.resolves b db (.inr rfl) h.right) db.pk).trans (congrArg _ ?_)
    rw [hmap₃, withKey, if_neg fun heq => h.keys heq.2.1.symm heq.2.2.symm]
    show store₂.lists.tree.idMapOf db.node db.pk = _
    rw [hmap₂, withKey, if_pos ⟨h.keyed.2, rfl, rfl⟩, hr.right_key]
    rfl

theorem exists_restore_left (rest : List UInt8)
    (hcon : s₁.objectBuffer.content = (s.heap.objects a).flatMap (Field.written s.heap) ++ rest) :
    ∃ t p, s₁.restore create (.delete ⟨a, da⟩) = .ok t ∧ Kept S s.heap.store t.heap.store ∧
      p ≠ b ∧ t.proxies a = some da ∧
      t.proxies p = some ⟨db.id, db.classname, db.node, .null⟩ ∧
      s.KeepsOthers a b t.heap.store ∧
      t.heap.store.lists.tree.idMapOf da.node da.pk = some a ∧
      t.heap.store.lists.tree.idMapOf db.node db.pk = none ∧
      t.heap.objects p = create db.classname ∧
      (t.heap.objects a)[k]? = some (.hasOne db.classname (some p)) ∧
      t.objectBuffer.content = rest := by
  obtain ⟨pre, post, hspl, hk⟩ := h.exists_fields
  have hoid : s.heap.oid b = db.id := h.oids b db h.right
  obtain ⟨store₂, hnext₂, hres₂, hkept₂, hpxs₂, hmap₂⟩ :=
    exists_restore_delete create (e := ⟨a, da⟩)
      ⟨h.begin, hr.sentinels, h.left, h.resolves a da (.inl rfl) h.left⟩ hr.kept hr.left
      (hr.other_id h (.inl rfl) h.left)
  have hsame₂ : s.KeepsOthers a b store₂ := by
    intro q hqa hqb d hq
    rw [hpxs₂, update_of_ne hqa, hr.same q hqa hqb, hq]
  have hnew : ∀ q e, store₂.lists.proxies q = some e → e.id ≠ db.id := by
    intro q e hq
    rw [hpxs₂] at hq
    rcases eq_or_ne q a with rfl | hqa
    · rw [update_self] at hq
      cases hq
      exact h.id_ne
    · rw [update_of_ne hqa] at hq
      exact hr.other_id h (.inr rfl) h.right q e hq
  -- the new object
  obtain ⟨store₃, hnext₃, hplc, hkept₃, hpxs₃, hmap₃⟩ :=
    exists_placeholder create (h := s₁.heap.setStore store₂ hnext₂) (s.heap.oid_lt b) hkept₂
      (hoid ▸ h.begin.ids b db h.right) (hoid ▸ (h.begin.mapped.ids b db h.right).trans hkept₂.seq)
      (hoid ▸ hnew) (h.resolves b db (.inr rfl) h.right)
  have hlt {q : ProxyPtr} {e : ObjectProxy} (hq : store₂.lists.proxies q = some e) :
      q ≠ store₂.lists.tree.nextProxy := (hkept₂.mapped.stored_lt hq).ne
  have ha : a ≠ store₂.lists.tree.nextProxy := hlt (by rw [hpxs₂, update_self])
  have hb : b ≠ store₂.lists.tree.nextProxy :=
    (lt_of_lt_of_le (h.begin.mapped.stored_lt h.right) hkept₂.next).ne
  replace hpxs₃ : store₃.lists.proxies = update store₂.lists.proxies
      store₂.lists.tree.nextProxy (some ⟨db.id, db.classname, db.node, .null⟩) :=
    hoid ▸ hpxs₃
  have hsame₃ : s.KeepsOthers a b store₃ := by
    intro q hqa hqb d hq
    rw [hpxs₃, update_of_ne (hlt (hsame₂ q hqa hqb d hq))]
    exact hsame₂ q hqa hqb d hq
  obtain ⟨r, r', buffer₃, hread, hcon₃, hlen⟩ := restoreFields_placeholder
    (fun f hf => ⟨hleft f (hspl ▸ mem_append_left _ hf),
      show f.Found s.heap (s₁.heap.setStore store₂ hnext₂) from
        h.found_before hkept₂.mapped hsame₂ hspl hk f hf⟩)
    (fun f hf => ⟨hleft f (hspl ▸ mem_append_right _ (mem_cons_of_mem _ hf)),
      h.found_behind hkept₃.mapped hsame₃ hspl hk f hf⟩)
    (hoid ▸ h.begin.ids b db h.right) (hoid ▸ hkept₂.mapped.findProxy_eq_none hnew) hplc
    (hspl ▸ hcon)
  refine ⟨{ s₁ with
      heap := ((s₁.heap.setStore store₂ hnext₂).add store₃ (s.heap.oid b) (create db.classname)
        (s.heap.oid_lt b) hnext₃).setObject a (r ++
          .hasOne db.classname (some store₂.lists.tree.nextProxy) :: r')
      objectBuffer := buffer₃ }, store₂.lists.tree.nextProxy, ?_, hkept₃, hb.symm, ?_, ?_, hsame₃,
      ?_, ?_, ?_, ?_, hcon₃⟩
  · refine hres₂.trans ?_
    rw [restoreObject]
    rw [show (s₁.heap.setStore store₂ hnext₂).objects a = _ from (congrFun hr.objects a).trans hspl,
      hread]
    rfl
  · show store₃.lists.proxies a = some da
    rw [hpxs₃, update_of_ne ha, hpxs₂, update_self]
  · show store₃.lists.proxies _ = _
    rw [hpxs₃, update_self]
  · show store₃.lists.tree.idMapOf da.node da.pk = some a
    have hkey₂ : store₂.lists.tree.idMapOf da.node da.pk = some a := by
      rw [hmap₂, withKey, if_pos ⟨h.keyed.1, rfl, rfl⟩, hr.left_key]
      rfl
    rw [hmap₃]
    exact hkey₂
  · show store₃.lists.tree.idMapOf db.node db.pk = _
    have hkey₂ : store₂.lists.tree.idMapOf db.node db.pk = none := by
      rw [hmap₂, withKey, if_neg fun heq => h.keys heq.2.1.symm heq.2.2.symm, hr.right_key]
    rw [hmap₃]
    exact hkey₂
  · exact (Heap.setObject_of_ne ha.symm).trans (update_self ..)
  · rw [Heap.setObject_self, getElem?_append_right (by omega), hlen, hk, Nat.sub_self]
    rfl

/-- **`a` comes first**: `b` is read into the new object, and its own proxy is deleted. -/
theorem exists_rollback_of_gt (hrgt : ∀ f ∈ s.heap.objects b, f.Readable)
    (hact : s₁.actions = [.delete ⟨a, da⟩, .delete ⟨b, db⟩])
    (hcon : s₁.objectBuffer.content = (s.heap.objects a).flatMap (Field.written s.heap) ++
      (s.heap.objects b).flatMap (Field.written s.heap)) :
    ∃ t p, s₁.rollback create = (t, none) ∧ t.Relinked a p k da db ∧
    t.heap.store.get db.classname db.pk = .ok none := by
  obtain ⟨s₂, p, hres, hkept, hpb, hstored_a, hstored_p, hsame, hkey_a, hkey_b, hobj, hfie,
    hcon₂⟩ := exists_restore_left h hr hleft _ hcon
  have hfind : s₂.heap.store.findProxy db.id = some p :=
    hkept.mapped.findProxy_eq (d := ⟨db.id, db.classname, db.node, .null⟩) hstored_p
  have hpa : a ≠ p := by
    rintro rfl
    rw [hstored_a, Option.some.injEq] at hstored_p
    rw [hstored_p] at h
    exact h.id_ne rfl
  obtain ⟨r, buffer, hread, -, -⟩ := exists_restoreObject create []
    (by rw [hobj, h.instance_shape]) hrgt (h.found_right hkept.mapped hsame)
    (hcon₂.trans (append_nil _).symm)
  refine ⟨{ s₂ with heap := (s₂.heap.setObject p r).deleteProxy b, objectBuffer := buffer }, p, ?_,
    ⟨hkept.mapped.findProxy_eq hstored_a, linkedOnce_of_kept hkept hstored_a, ?_, hfind,
      linkedOnce_of_kept hkept (d := ⟨db.id, db.classname, db.node, .null⟩) hstored_p, ?_⟩,
    ?_⟩
  · refine rollback_two hact hres ((restore_delete_of_taken create hfind).trans ?_)
    rw [hread]
    rfl
  · exact (get_of_kept hkept (h.resolves a da (.inl rfl) h.left) da.pk).trans (congrArg _ hkey_a)
  · show (((s₂.heap.setObject p r).objects a).map (Field.forget b))[k]? = _
    rw [Heap.setObject_of_ne hpa, getElem?_map, hfie, map_some, Field.forget, if_neg fun heq =>
      hpb (some.inj heq)]
  · exact (get_of_kept hkept (h.resolves b db (.inr rfl) h.right) db.pk).trans (congrArg _ hkey_b)

end Rollback

theorem not_restoresBoth (h : Owns create s a b k da db) (hd : d.Clean s.graph)
    (hleft : ∀ f ∈ s.heap.objects a, f.Readable) (hrgt : ∀ f ∈ s.heap.objects b, f.Readable)
    (hlt : ¬db.id < da.id) : ¬RestoresBoth create s d a b k da db := by
  rintro ⟨s₁', d₁', t', p', hrem', -, -, hroll', -, hkey'⟩
  obtain ⟨S, s₁, d₁, hrem, hr, hlog⟩ := exists_removed h hd hleft hrgt
  obtain ⟨-, hact, hcon⟩ := hlog.resolve_left fun hlog => hlt hlog.1
  obtain ⟨t, p, hroll, hlkd, hkey⟩ := exists_rollback_of_gt h hr hleft hrgt hact hcon
  rw [hrem] at hrem'
  cases hrem'
  rw [hroll] at hroll'
  cases hroll'
  rw [hkey] at hkey'
  cases hkey'

/-- **Both objects are found again if and only if the owned object has the smaller id.** -/
theorem restoresBoth_iff (h : Owns create s a b k da db) (hd : d.Clean s.graph)
    (hleft : ∀ f ∈ s.heap.objects a, f.Readable) (hright : ∀ f ∈ s.heap.objects b, f.Readable) :
    RestoresBoth create s d a b k da db ↔ db.id < da.id := by
  refine ⟨fun hboth => ?_, fun hlt => ?_⟩
  · by_contra hlt
    exact not_restoresBoth h hd hleft hright hlt hboth
  · obtain ⟨S, s₁, d₁, hrem, hr, ⟨-, hact, hcon⟩ | ⟨hgt, -⟩⟩ :=
      exists_removed h hd hleft hright
    · obtain ⟨t, hroll, hlkd, hkey⟩ := exists_rollback_of_lt h hr hleft hright hact hcon
      exact ⟨s₁, d₁, t, b, hrem, hr.left, hr.right, hroll, hlkd, hkey⟩
    · exact absurd hlt hgt.not_gt

end Both

/-! ## An author and a book -/

def authors : ObjectStore :=
  [.attach "author" "A" true none, .attach "book" "B" true none,
    .insert (.cons ⟨"A", .long, .integral 64 0⟩ .nil .nil),
    .insert (.cons ⟨"B", .long, .integral 64 0⟩ .nil .nil)].foldl ObjectStore.step ObjectStore.empty

theorem stored_authors (hd : authors.lists.proxies p = some d) :
    p = 5 ∧ d = ⟨1, "A", "author", .integral 64 1⟩ ∨ p = 6 ∧
    d = ⟨2, "B", "book", .integral 64 2⟩ := by
  have hpxs : authors.lists.proxies = update (update (fun _ => none)
      5 (some ⟨1, "A", "author", .integral 64 1⟩)) 6 (some ⟨2, "B", "book", .integral 64 2⟩) := rfl
  rw [hpxs, update_apply, update_apply] at hd
  split at hd
  · next hp => exact .inr ⟨hp, (some.inj hd).symm⟩
  · split at hd
    · next hp => exact .inl ⟨hp, (some.inj hd).symm⟩
    · cases hd

theorem beginOk_authors : BeginOk authors := by
  refine ⟨RunMeets.invariant step_mapped mapped_empty
    (show RunMeets ObjectStore.step ObjectStore.Allowed ObjectStore.empty _ by decide),
    fun p d hd => ?_, fun p d hd _ => ?_, fun type => idMapIn_eq_none (by decide) type⟩
  · rcases stored_authors hd with ⟨-, rfl⟩ | ⟨-, rfl⟩ <;> decide
  · rcases stored_authors hd with ⟨-, rfl⟩ | ⟨-, rfl⟩ <;> decide

/-- The object `a` refers to the object `b` of the class. -/
def owning (a b : ProxyPtr) (classname : String) : RelationState where
  heap := {
    store := authors
    oid := fun p => if p = 5 then 1 else if p = 6 then 2 else 0
    objects := fun p => if p = a then [.hasOne classname (some b)] else []
    oid_lt := fun p => by
      split
      · decide
      · split <;> decide
    allocated := fun p hp => by
      have hnext : authors.lists.tree.nextProxy = 7 := rfl
      split at hp
      · next h => rw [h, hnext]; decide
      · split at hp
        · next h => rw [h, hnext]; decide
        · exact absurd rfl hp }
  count p := if p = b then 1 else 0
  removes _ _ := true
  actions := []
  idActionIndexMap _ := none
  objectBuffer := .empty

def blank : String → List Field := fun _ => []

theorem owns_owning {a b : ProxyPtr} {da db : ObjectProxy} (hab : a ≠ b)
    (ha : authors.lists.proxies a = some da) (hb : authors.lists.proxies b = some db) :
    Owns blank (owning a b db.classname) a b 0 da db where
  begin := beginOk_authors
  oids p d hd := by
    rcases stored_authors hd with ⟨rfl, rfl⟩ | ⟨rfl, rfl⟩ <;> rfl
  left := ha
  right := hb
  field := by simp [owning]
  removes := rfl
  free := if_neg hab
  owned := if_pos rfl
  others p i c q hp hf := by
    rcases hp with ⟨rfl, hi⟩ | rfl
    · obtain ⟨j, rfl⟩ := Nat.exists_eq_succ_of_ne_zero hi
      simp [owning] at hf
    · simp [owning, hab.symm] at hf
  resolves p d _ hd := by
    rcases stored_authors hd with ⟨-, rfl⟩ | ⟨-, rfl⟩
    · exact ⟨_, rfl, rfl⟩
    · exact ⟨_, rfl, rfl⟩
  keyed := by
    rcases stored_authors ha with ⟨rfl, rfl⟩ | ⟨rfl, rfl⟩ <;>
      rcases stored_authors hb with ⟨rfl, rfl⟩ | ⟨rfl, rfl⟩ <;> decide
  keys := by
    rcases stored_authors ha with ⟨rfl, rfl⟩ | ⟨rfl, rfl⟩ <;>
      rcases stored_authors hb with ⟨rfl, rfl⟩ | ⟨rfl, rfl⟩
    · exact absurd rfl hab
    · decide
    · decide
    · exact absurd rfl hab
  instance_shape := by simp [owning, blank, hab.symm]
  actions := rfl
  unlogged _ := rfl
  buffer := rfl

theorem owns_author : Owns blank (owning 6 5 "A") 6 5 0 ⟨2, "B", "book", .integral 64 2⟩
    ⟨1, "A", "author", .integral 64 1⟩ :=
  owns_owning (by decide) rfl (show authors.lists.proxies 5 = some _ from rfl)

theorem owns_book :
    Owns blank (owning 5 6 "B") 5 6 0 ⟨1, "A", "author", .integral 64 1⟩
      ⟨2, "B", "book", .integral 64 2⟩ :=
  owns_owning (by decide) rfl (show authors.lists.proxies 6 = some _ from rfl)

theorem readable_owning (a b p : ProxyPtr) (classname : String) :
    ∀ f ∈ (owning a b classname).heap.objects p, f.Readable := by
  intro f hf
  replace hf : f ∈ if p = a then [Field.hasOne classname (some b)] else [] := hf
  split at hf
  · rw [mem_singleton.mp hf]
    trivial
  · cases hf

/-- A book that owns the author, who is older. -/
theorem restoresBoth_older :
    RestoresBoth blank (owning 6 5 "A") .empty 6 5 0 ⟨2, "B", "book", .integral 64 2⟩
      ⟨1, "A", "author", .integral 64 1⟩ :=
  (restoresBoth_iff owns_author (Deleter.clean_empty _) (readable_owning _ _ _ _)
    (readable_owning _ _ _ _)).mpr
    (by decide)

/-- An author that owns the book, which is younger: the book is not found under its key. -/
theorem younger_book_loses_key :
    ¬RestoresBoth blank (owning 5 6 "B") .empty 5 6 0 ⟨1, "A", "author", .integral 64 1⟩
      ⟨2, "B", "book", .integral 64 2⟩ :=
  not_restoresBoth owns_book (Deleter.clean_empty _) (readable_owning _ _ _ _)
    (readable_owning _ _ _ _) (by decide)

end RelationState

end Matador.Object
