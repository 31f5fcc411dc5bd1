import Matador.Object.NetEffect
import Matador.Object.NodeKeys

/-!
# Rolling back

`rollback` restores the actions from the first to the last. `Undo` says that what is left of the log
still describes the difference between the store and the store at `begin`; every restored action
takes its entries off this log, and reads its part of the buffer.
-/

namespace Matador.Object

open PrototypeNode TransactionState Function List Lib PrototypeTree Option

/-! ## What stays of the store -/

theorem ListsInv.not_mem_sentinels {own : Own} {segs : List Segment} {l : ObjectLists}
    (h : ListsInv own segs l) {p : ProxyPtr} {d : ObjectProxy} (hd : l.proxies p = some d) :
    p ∉ sentinels segs := by
  obtain ⟨n, hn, hnt⟩ := mem_map.mp (h.attached p d hd)
  have hown : p ∈ own n.type := (h.stored p n.type).mpr ⟨d, hd, hnt.symm⟩
  have hperm : ∀ segs : List Segment, (segs.flatMap (Segment.cells own)).Perm
      (sentinels segs ++ cellsOf (ownOf own) (segs.flatMap Segment.nodes)) := by
    intro segs
    induction segs with
    | nil => exact List.Perm.refl _
    | cons S segs ih =>
      refine perm_iff_count.mpr fun a => ?_
      have hcou := perm_iff_count.mp ih a
      simp only [sentinels, cellsOf, Segment.cells, flatMap_cons, flatMap_append,
        count_append, count_cons] at hcou ⊢
      omega
  have hnd := (hperm segs).nodup_iff.mp h.layout.cells_nodup
  rw [← h.layout.nodes_eq] at hnd
  intro hc
  exact (nodup_append.mp hnd).2.2 p hc p (mem_flatMap.mpr ⟨n, hn, hown⟩) rfl

/-- What the calls of a transaction that began with `store₀` keep of the store; `S` are the
sentinels. -/
structure Kept (S : List ProxyPtr) (store₀ store : ObjectStore) : Prop where
  mapped : Mapped [] store
  lists : ∃ own segs, ListsInv own segs store.lists ∧ sentinels segs = S
  sigs : store.lists.tree.nodes.map PrototypeNode.sig =
    store₀.lists.tree.nodes.map PrototypeNode.sig
  next : store₀.lists.tree.nextProxy ≤ store.lists.tree.nextProxy
  seq : store₀.seq ≤ store.seq
  keyed : ∀ p d, store.lists.proxies p = some d → d.pk ≠ .null →
    ∃ n ∈ store.lists.tree.nodes, n.type = d.node ∧ n.hasPrimaryKey
  nulls : ∀ type, store.lists.tree.idMapOf type .null = none

variable {o : NewObject}

section Kept

variable {S : List ProxyPtr} {store₀ store store' : ObjectStore} {p : ProxyPtr} {d : ObjectProxy}

theorem Kept.types_nodup (h : Kept S store₀ store) : (store.lists.tree.nodes.map type).Nodup := by
  obtain ⟨own, segs, hinv, -⟩ := h.lists
  exact hinv.layout.types_nodup

theorem exists_keyed {t t' : PrototypeTree} (hsig : t'.nodes.map sig = t.nodes.map sig)
    {type : String} (h : ∃ n ∈ t.nodes, n.type = type ∧ n.hasPrimaryKey) :
    ∃ n ∈ t'.nodes, n.type = type ∧ n.hasPrimaryKey := by
  obtain ⟨n, hn, hnt, hkey⟩ := h
  have hmem : n.sig ∈ t'.nodes.map sig := by
    rw [hsig]
    exact mem_map_of_mem hn
  obtain ⟨n', hn', hsig'⟩ := mem_map.mp hmem
  simp only [sig, Prod.mk.injEq] at hsig'
  exact ⟨n', hn', hsig'.1.trans hnt, hsig'.2.2.1 ▸ hkey⟩

theorem Kept.removeProxy (h : Kept S store₀ store) (hd : store.lists.proxies p = some d)
    (hrem : store.removeProxy p d = .ok store') :
    Kept S store₀ store' ∧ ∀ type k, store'.lists.tree.idMapOf type k =
      if type = d.node ∧ k = d.pk then none else store.lists.tree.idMapOf type k := by
  obtain ⟨own, segs, hinv, hS⟩ := h.lists
  obtain ⟨n, hn, hnt⟩ := mem_map.mp (hinv.attached p d hd)
  obtain ⟨pre, post, hnds⟩ := append_of_mem hn
  have hmapp := h.mapped.removeProxy hd hrem
  obtain ⟨-, hnext, hpxs⟩ := removeProxy_store hrem
  obtain ⟨-, rfl⟩ := removeProxy_ok hrem
  obtain ⟨own', segs', hinv', hS', -⟩ := hinv.removeAt hnds hd hnt.symm
  have hpk : d.pk ≠ .null → n.hasPrimaryKey := by
    intro hpk
    obtain ⟨m, hm, hmt, hkey⟩ := h.keyed p d hd hpk
    rwa [← inj_on_of_nodup_map h.types_nodup hm hn (hmt.trans hnt.symm)]
  have hmap : ∀ type k, (store.lists.removeAt p d).tree.idMapOf type k =
      if type = d.node ∧ k = d.pk then none else store.lists.tree.idMapOf type k := by
    intro type k
    rw [ObjectLists.removeAt, ← hnt]
    exact idMapOf_removeProxy h.types_nodup hn hpk (h.nulls _) type k
  have hsigs : (store.lists.removeAt p d).tree.nodes.map sig =
      store.lists.tree.nodes.map sig := removeProxy_sigs _ _ _ _
  refine ⟨⟨hmapp, ⟨own', segs', hinv', hS'.trans hS⟩, hsigs.trans h.sigs, hnext ▸ h.next, h.seq,
    ?_, ?_⟩, hmap⟩
  · intro q d' hd' hpk'
    exact exists_keyed hsigs (h.keyed q d' (removeAt_proxies.mp hd').2 hpk')
  · intro type
    rw [hmap]
    split
    · rfl
    · exact h.nulls type

theorem Kept.insertAt (h : Kept S store₀ store) {n : PrototypeNode}
    (hn : n ∈ store.lists.tree.nodes) (hnode : d.node = n.type)
    (hp : store.lists.proxies p = none) (hpS : p ∉ S)
    (hlt : 0 < p ∧ p < store.lists.tree.nextProxy) (hkey : d.pk ≠ .null → n.hasPrimaryKey)
    {objectMap : Nat → Option ProxyPtr} {seq : Nat} (hseq : store.seq ≤ seq)
    (hmapp : (∃ own segs, ListsInv own segs (store.lists.insertAt p d)) →
      Mapped [] { lists := store.lists.insertAt p d, objectMap := objectMap, seq := seq }) :
    Kept S store₀ { lists := store.lists.insertAt p d, objectMap := objectMap, seq := seq } ∧
      (store.lists.insertAt p d).tree.idMapOf = withKey store.lists.tree.idMapOf d.node d.pk p := by
  obtain ⟨own, segs, hinv, hS⟩ := h.lists
  obtain ⟨own', segs', hinv', hS'⟩ := hinv.insertAt_free hn hp hS hpS hlt hnode
  have hmap : (store.lists.insertAt p d).tree.idMapOf =
      withKey store.lists.tree.idMapOf d.node d.pk p := by
    rw [ObjectLists.insertAt, hnode]
    exact idMapOf_insertProxy h.types_nodup hn
  have hsigs : (store.lists.insertAt p d).tree.nodes.map sig =
      store.lists.tree.nodes.map sig := insertProxy_sigs _ _ _ _
  refine ⟨⟨hmapp ⟨own', segs', hinv'⟩, ⟨own', segs', hinv', hS'⟩, hsigs.trans h.sigs, ?_,
    h.seq.trans hseq, ?_, ?_⟩, hmap⟩
  · exact h.next.trans (PrototypeTree.insertProxy_nextProxy ..).ge
  · intro q d' hd' hpk
    refine exists_keyed hsigs ?_
    by_cases hq : q = p
    · subst hq
      have hdd : d = d' := by simpa [ObjectLists.insertAt] using hd'
      subst hdd
      exact ⟨n, hn, hnode.symm, hkey hpk⟩
    · exact h.keyed q d' ((update_of_ne hq _ _).symm.trans hd') hpk
  · intro type
    rw [hmap, withKey, if_neg fun hc => hc.1 hc.2.2.symm]
    exact h.nulls type

theorem resolveKey_pk {n : PrototypeNode} {id : Nat}
    (hfind : store.lists.tree.findPrototypeNode o.classname = .ok (some n))
    (hpk : (resolveKey store o).pk id ≠ .null) : n.hasPrimaryKey := by
  by_contra hkey
  refine hpk ?_
  rw [resolveKey, hfind]
  simp [hkey, NewObject.pk, Identifier.isNull]

theorem resolveKey_classname (store : ObjectStore) (o : NewObject) :
    (resolveKey store o).classname = o.classname := by
  unfold resolveKey
  split
  · split
    · rfl
    · rfl
  · rfl

theorem Kept.alloc (h : Kept S store₀ store) :
    Kept S store₀ { store with lists := store.lists.alloc } ∧
      store.lists.proxies store.lists.tree.nextProxy = none ∧ 0 < store.lists.tree.nextProxy ∧
      store.lists.tree.nextProxy ∉ S := by
  obtain ⟨own, segs, hinv, hS⟩ := h.lists
  obtain ⟨hall, hfsh⟩ := hinv.alloc
  refine ⟨⟨h.mapped.of_proxies ⟨own, segs, hall⟩ fun _ _ => Iff.rfl, ⟨own, segs, hall, hS⟩, h.sigs,
    h.next.trans (Nat.le_succ _), h.seq, h.keyed, h.nulls⟩, hinv.proxies_nextProxy,
    hinv.layout.next_pos, fun hc => ?_⟩
  exact hfsh (mem_cells_iff.mpr (.inl (hS ▸ hc)))

theorem Kept.link (h : Kept S store₀ store) (hseq : store.seq + 1 < 2 ^ 64)
    (hlink : store.link (resolveKey store o) = .ok (store', p, d)) :
    Kept S store₀ (store'.mapProxy p d) ∧
      store'.lists.tree.idMapOf = withKey store.lists.tree.idMapOf d.node d.pk p := by
  obtain ⟨hmap, hstd, hseq', -⟩ := h.mapped.link hseq hlink
  obtain ⟨n, hfind, rfl, hd, rfl⟩ := link_ok hlink
  rw [resolveKey_classname] at hfind
  obtain ⟨hkept, hnone, hpos, hS⟩ := h.alloc
  refine hkept.insertAt (findPrototypeNode_mem hfind) (by rw [hd]) hnone hS ⟨hpos,
    Nat.lt_succ_self _⟩
    (fun hpk => ?_) ?_ fun _ => hmap.mapProxy (by simp) hstd
  · rw [hd] at hpk
    exact resolveKey_pk hfind hpk
  · exact (Nat.le_succ _).trans ((NewObject.le_seqAfter _ _).trans hseq'.ge)

theorem Kept.insertProxy (h : Kept S store₀ store) {e : Entry}
    (hp : store.lists.proxies e.proxy = none) (hpS : e.proxy ∉ S)
    (hlt : 0 < e.proxy ∧ e.proxy < store.lists.tree.nextProxy) (hid : e.data.id ≠ 0)
    (hle : e.data.id ≤ store.seq)
    (hnew : ∀ q d', store.lists.proxies q = some d' → d'.id ≠ e.data.id)
    (hfind : ∃ n, store₀.lists.tree.findPrototypeNode e.data.classname = .ok (some n) ∧
      n.type = e.data.node)
      (hkeye : e.data.pk ≠ .null → ∃ n ∈ store₀.lists.tree.nodes, n.type = e.data.node ∧
        n.hasPrimaryKey) :
    ∃ store', insertProxy store e = .ok store' ∧
      store'.lists.proxies = update store.lists.proxies e.proxy (some e.data) ∧
      Kept S store₀ store' ∧
      store'.lists.tree.idMapOf = withKey store.lists.tree.idMapOf e.data.node e.data.pk
        e.proxy := by
  obtain ⟨n₀, hfind₀, hn₀⟩ := hfind
  obtain ⟨n, hfind, hsig⟩ := findPrototypeNode_congr h.sigs hfind₀
  have hn := findPrototypeNode_mem hfind
  have hnode : e.data.node = n.type := hn₀.symm.trans (Prod.mk.inj hsig).1.symm
  refine ⟨{ store with lists := store.lists.insertAt e.proxy e.data }.mapProxy e.proxy e.data,
    ?_, rfl, ?_⟩
  · rw [TransactionState.insertProxy, if_neg hid, hfind]
    simp only [ObjectLists.insertAt, hnode]
  · have hkey : e.data.pk ≠ .null → n.hasPrimaryKey := by
      intro hpk
      obtain ⟨m, hm, hmt, hmkey⟩ := exists_keyed h.sigs (hkeye hpk)
      rwa [← inj_on_of_nodup_map h.types_nodup hm hn (hmt.trans hnode)]
    refine h.insertAt hn hnode hp hpS hlt hkey (Nat.le_refl _) fun hlis => ?_
    exact (h.mapped.insertAt hlis hp hle (Nat.le_refl _) hnew).mapProxy (by simp) (update_self ..)

end Kept

/-! ## The invariant -/

namespace TransactionState

/-- What the buffer holds for an entry: updates and deletions have saved the object. -/
def saved (objects : ProxyPtr → Attributes) : ActionKind × Entry → List UInt8
  | (.insert, _) => []
  | (_, e) => (objects e.proxy).backup

/-- The log `L` describes the difference between `s` and the state at `begin`. -/
structure Undo (S : List ProxyPtr) (s₀ s : TransactionState)
    (L : List (ActionKind × Entry)) : Prop where
  kept : Kept S s₀.store s.store
  net : Net s₀.proxies s.proxies s₀.store.seq L
  keys : Keys s₀.store.lists.tree.idMapOf s.store.lists.tree.idMapOf L
  resolves : ∀ e, (.delete, e) ∈ L → ∃ n,
    s₀.store.lists.tree.findPrototypeNode e.data.classname = .ok (some n) ∧ n.type = e.data.node
  shapes : ∀ p, (s₀.proxies p).isSome → (s.objects p).shape = (s₀.objects p).shape
  values : ∀ p, (s₀.proxies p).isSome → (p ∉ L.map fun x => x.2.proxy) →
    (s.objects p).value = (s₀.objects p).value
  buffer : s.transaction.objectBuffer = L.flatMap (saved s₀.objects)

/-- The store at `begin`: what every store is that was filled by insertions. -/
structure BeginOk (store : ObjectStore) : Prop where
  mapped : Mapped [] store
  ids : ∀ p d, store.lists.proxies p = some d → d.id ≠ 0
  keyed : ∀ p d, store.lists.proxies p = some d → d.pk ≠ .null →
    ∃ n ∈ store.lists.tree.nodes, n.type = d.node ∧ n.hasPrimaryKey
  nulls : ∀ type, store.lists.tree.idMapOf type .null = none

/-- The calls that a rollback undoes. The new object has a key that is free, and was not freed by
this transaction; a removed object is found by its key, and its class by its name. -/
def Undoable (s : TransactionState) (op : Op) : Prop :=
  s.LogFits op ∧ match op with
    | .insert o _ =>
      ∀ n ∈ (s.store.lists.tree.findPrototypeNode o.classname).toOption.join,
        let pk := (resolveKey s.store o).pk (Sequencer.next s.store.seq)
        pk ≠ .null → s.store.lists.tree.idMapOf n.type pk = none ∧
          ∀ x ∈ logOf s.transaction.actions,
            ¬(x.1 = .delete ∧ x.2.data.node = n.type ∧ x.2.data.pk = pk)
    | .modify _ _ => True
    | .remove p =>
      ∀ d ∈ s.proxies p, (d.pk ≠ .null → s.store.lists.tree.idMapOf d.node d.pk = some p) ∧
          ∃ n ∈ (s.store.lists.tree.findPrototypeNode d.classname).toOption.join, n.type = d.node

instance (s : TransactionState) (op : Op) : Decidable (s.Undoable op) :=
  match op with
  | .insert _ _ => inferInstanceAs (Decidable (_ ∧ ∀ n ∈ Option.join _, _ → _ ∧ _))
  | .modify _ _ => inferInstanceAs (Decidable (_ ∧ True))
  | .remove _ => inferInstanceAs (Decidable (_ ∧ ∀ _ ∈ _, (_ → _) ∧ _))

/-! ## Every call keeps the invariant -/

variable {store : ObjectStore}

section Steps

variable {S : List ProxyPtr} {s₀ s : TransactionState} {done : List Op} {p : ProxyPtr}
  {d : ObjectProxy}

theorem saved_inserts (objects : ProxyPtr → Attributes) (es : List Entry) :
    (es.map fun e => (ActionKind.insert, e)).flatMap (saved objects) = [] := by
  rw [flatMap_eq_nil_iff]
  intro x hx
  obtain ⟨e, -, rfl⟩ := mem_map.mp hx
  rfl

theorem saved_addInsert (objects : ProxyPtr → Attributes) (e : Entry) (actions : List Action) :
    (logOf (Transaction.addInsert e actions).1).flatMap (saved objects) =
      (logOf actions).flatMap (saved objects) := by
  rcases addInsert_cases e actions with ⟨as, es, bs, rfl, hadd⟩ | ⟨-, hadd⟩
  · rw [hadd]
    simp only [logOf_append, logOf_cons, log_insert, flatMap_append, saved_inserts]
  · rw [hadd, logOf_append, flatMap_append]
    exact append_nil _

section

variable (h : Undo S s₀ s (logOf s.transaction.actions))

include h

theorem Undo.insert (hlog : LogInv s₀ done s) {attributes : Attributes}
    (hop : s.Undoable (.insert o attributes))
    (hlink : s.store.link (resolveKey s.store o) = .ok (store, p, d)) :
    Undo S s₀ (s.insert o attributes).1 (logOf (s.insert o attributes).1.transaction.actions) := by
  have hseq : s.store.seq + 1 < 2 ^ 64 := hop.1
  have hfree : d.pk ≠ .null → s.store.lists.tree.idMapOf d.node d.pk = none ∧
      ∀ e, (.delete, e) ∈ logOf s.transaction.actions →
        ¬(e.data.node = d.node ∧ e.data.pk = d.pk) := by
    obtain ⟨n, hfind, -, rfl, -⟩ := link_ok hlink
    rw [resolveKey_classname] at hfind
    intro hpk
    obtain ⟨hnone, hdel⟩ := hop.2 n (by simp [hfind, Except.toOption]) hpk
    exact ⟨hnone, fun e he hc => hdel _ he ⟨rfl, hc⟩⟩
  obtain ⟨hkept, hmap⟩ := h.kept.link hseq hlink
  replace hmap :=
    fun type k => (congrFun₂ hmap type k).trans (withKey_of_free (fun hpk => (hfree hpk).1) type k)
  have hnet := (hlog.insert hseq hlink attributes).net
  obtain ⟨-, heq⟩ := hlog.insert_eq hseq hlink attributes
  have hperm := logOf_addInsert ⟨p, d⟩ s.transaction.actions
  have hp : s₀.proxies p = none := by
    obtain ⟨n, -, hp, -⟩ := link_ok hlink
    exact hlog.addresses p hp.ge
  have hne : ∀ q, (s₀.proxies q).isSome → q ≠ p := by
    rintro q hq rfl
    rw [hp] at hq
    cases hq
  rw [heq] at hnet ⊢
  refine ⟨hkept, hnet, (h.keys.cons_insert hfree hmap).perm hperm, ?_, ?_, ?_, ?_⟩
  · intro e he
    exact h.resolves e ((mem_cons.mp (hperm.mem_iff.mp he)).resolve_left (by simp))
  · intro q hq
    show (update s.objects p attributes q).shape = _
    rw [update_of_ne (hne q hq)]
    exact h.shapes q hq
  · intro q hq hqL
    show (update s.objects p attributes q).value = _
    rw [update_of_ne (hne q hq)]
    refine h.values q hq fun hc => hqL ((hperm.map _).mem_iff.mpr ?_)
    exact mem_cons_of_mem _ hc
  · exact h.buffer.trans (saved_addInsert _ _ _).symm

theorem Undo.saved_eq (hd : s.proxies p = some d)
    (hp : p ∉ (logOf s.transaction.actions).map fun x => x.2.proxy) :
    (s.objects p).backup = (s₀.objects p).backup := by
  have hbef : (s₀.proxies p).isSome := by
    rw [← h.net.eq_before hp, hd]
    rfl
  exact Attributes.backup_congr (h.shapes p hbef) (h.values p hbef hp)

theorem Undo.modify (hlog : LogInv s₀ done s) (attributes : Attributes) :
    Undo S s₀ (s.modify p attributes).1 (logOf (s.modify p attributes).1.transaction.actions) := by
  have hnet := (hlog.modify (p := p) attributes).net
  cases hd : s.proxies p with
  | none =>
    have heq : (s.modify p attributes).1 = s := by rw [TransactionState.modify, hd]
    rw [heq]
    exact h
  | some d =>
    have heq : (s.modify p attributes).1 = { s with
        transaction := s.transaction.onUpdate ⟨p, d⟩ (s.objects p)
        objects := if attributes.shape = (s.objects p).shape then
          update s.objects p attributes else s.objects } := by
      rw [TransactionState.modify, hd]
    rw [heq] at hnet ⊢
    have hsha : ∀ q, ((if attributes.shape = (s.objects p).shape then
        update s.objects p attributes else s.objects) q).shape = (s.objects q).shape := by
      intro q
      split
      · next hshp =>
        by_cases hq : q = p
        · rw [hq, update_self, hshp]
        · rw [update_of_ne hq]
      · rfl
    have hoth : ∀ q, q ≠ p → (if attributes.shape = (s.objects p).shape then
        update s.objects p attributes else s.objects) q = s.objects q := by
      intro q hq
      split
      · rw [update_of_ne hq]
      · rfl
    cases hidx : s.transaction.idActionIndexMap d.id with
    | some i =>
      have hupd : s.transaction.onUpdate ⟨p, d⟩ (s.objects p) = s.transaction := by
        rw [Transaction.onUpdate, hidx]
      rw [hupd] at hnet ⊢
      have hp := hlog.recorded p d hd (by rw [hidx]; rfl)
      refine ⟨h.kept, h.net, h.keys, h.resolves, ?_, ?_, h.buffer⟩
      · exact fun q hq => (hsha q).trans (h.shapes q hq)
      · intro q hq hqL
        refine (congrArg _ (hoth q fun hc => hqL (hc ▸ hp))).trans (h.values q hq hqL)
    | none =>
      have hupd : s.transaction.onUpdate ⟨p, d⟩ (s.objects p) =
          s.transaction.backup (.update ⟨p, d⟩) ⟨p, d⟩ (s.objects p) := by
        rw [Transaction.onUpdate, hidx]
      rw [hupd] at hnet ⊢
      have hp := hlog.not_mem_log hd hidx
      have hperm := logOf_concat_perm (log_update ⟨p, d⟩) s.transaction.actions
      refine ⟨h.kept, hnet, h.keys.cons_update.perm hperm, ?_, ?_, ?_, ?_⟩
      · intro e he
        exact h.resolves e ((mem_cons.mp (hperm.mem_iff.mp he)).resolve_left (by simp))
      · exact fun q hq => (hsha q).trans (h.shapes q hq)
      · intro q hq hqL
        rw [Transaction.backup, (hperm.map _).mem_iff, map_cons, mem_cons, not_or] at hqL
        exact (congrArg _ (hoth q hqL.1)).trans (h.values q hq hqL.2)
      · show s.transaction.objectBuffer ++ (s.objects p).backup =
          (logOf (s.transaction.actions ++ [.update ⟨p, d⟩])).flatMap (saved s₀.objects)
        rw [h.buffer, h.saved_eq hd hp, logOf_concat (log_update _), flatMap_append,
          flatMap_singleton]
        rfl

omit h in
theorem Undo.drop_insert {L L' : List (ActionKind × Entry)} {e : Entry} (h : Undo S s₀ s L)
    (hperm : L.Perm ((.insert, e) :: L')) (hsto : s.store.removeProxy e.proxy e.data = .ok store)
    {t : Transaction} (hbuf : t.objectBuffer = L'.flatMap (saved s₀.objects)) :
    Undo S s₀ ⟨store, s.objects, t⟩ L' := by
  have hmem : (.insert, e) ∈ L := hperm.mem_iff.mpr mem_cons_self
  obtain ⟨hbef, hnow, -⟩ := h.net.insert e hmem
  obtain ⟨hkept, hmap⟩ := h.kept.removeProxy hnow hsto
  have hnet := h.net.perm hperm.symm
  refine ⟨hkept, ?_,
    (h.keys.perm hperm.symm).tail (by simp) (nodup_cons.mp hnet.nodup).1 fun type k => ?_,
    fun e' he' => h.resolves e' (hperm.mem_iff.mpr (mem_cons_of_mem _ he')), h.shapes,
    fun q hq hqL => ?_, hbuf⟩
  · have htail := hnet.tail
    simp only [hbef] at htail
    show Net s₀.proxies store.lists.proxies s₀.store.seq _
    rw [(removeProxy_store hsto).2.2]
    exact htail
  · rw [hmap]
    refine if_ctx_congr Iff.rfl (fun hc => ?_) fun _ => rfl
    -- the key was free at `begin`
    rw [hc.1, hc.2]
    by_cases hpk : e.data.pk = .null
    · rw [hpk, ← h.keys.null_eq, h.kept.nulls]
    · exact (h.keys.insert e hmem hpk).1.symm
  · refine h.values q hq fun hc => ?_
    rcases mem_cons.mp ((hperm.map _).mem_iff.mp hc) with hc | hc
    · rw [hc, hbef] at hq
      cases hq
    · exact hqL hc

theorem Undo.remove (hlog : LogInv s₀ done s) (hop : s.Undoable (.remove p))
    (hd : s.proxies p = some d) :
    Undo S s₀ (s.remove p).1 (logOf (s.remove p).1.transaction.actions) := by
  obtain ⟨hkey, n, hn, hnt⟩ := hop.2 d hd
  obtain ⟨store, hsto, hcas⟩ := hlog.remove_cases hop.1 hd
  obtain ⟨hkept, hmap⟩ := h.kept.removeProxy hd hsto
  have hnet := (hlog.remove hop.1 hd).net
  have hres : ∃ n, s₀.store.lists.tree.findPrototypeNode d.classname = .ok (some n) ∧
      n.type = d.node := by
    obtain ⟨n₀, hn₀, hsig⟩ := findPrototypeNode_congr h.kept.sigs.symm (toOption_join_eq.mp hn)
    exact ⟨n₀, hn₀, (Prod.mk.inj hsig).1.trans hnt⟩
  have hnul := h.kept.nulls d.node
  rcases hcas with ⟨hidx, heq⟩ | ⟨as, es₁, es₂, bs, hacts, heq⟩ | ⟨as, bs, hacts, heq⟩
  · rw [heq] at hnet ⊢
    have hp := hlog.not_mem_log hd hidx
    have hperm := logOf_concat_perm (log_delete ⟨p, d⟩) s.transaction.actions
    refine ⟨hkept, hnet, (h.keys.cons_delete hkey ?_ hnul hmap).perm hperm, ?_, h.shapes, ?_, ?_⟩
    · intro e he hep
      exact hp (mem_map.mpr ⟨(.insert, e), he, hep⟩)
    · intro e he
      rcases mem_cons.mp (hperm.mem_iff.mp he) with he | he
      · cases he
        exact hres
      · exact h.resolves e he
    · intro q hq hqL
      rw [Transaction.backup, (hperm.map _).mem_iff, map_cons, mem_cons, not_or] at hqL
      exact h.values q hq hqL.2
    · show s.transaction.objectBuffer ++ (s.objects p).backup =
        (logOf (s.transaction.actions ++ [.delete ⟨p, d⟩])).flatMap (saved s₀.objects)
      rw [h.buffer, h.saved_eq hd hp, logOf_concat (log_delete _), flatMap_append,
        flatMap_singleton]
      rfl
  · rw [heq]
    have hperm := logOf_leave as bs d.node ⟨p, d⟩ es₁ es₂
    rw [← hacts] at hperm
    refine h.drop_insert hperm hsto (h.buffer.trans ?_)
    rw [hacts]
    simp only [logOf_append, logOf_cons, log_insert, logOf_leftInsert, flatMap_append,
      saved_inserts]
  · rw [heq] at hnet ⊢
    have hperm := logOf_middle (log_update ⟨p, d⟩) as bs
    have hperm' := logOf_middle (log_delete ⟨p, d⟩) as bs
    rw [← hacts] at hperm
    have hnot := (nodup_cons.mp (h.net.perm hperm.symm).nodup).1
    refine ⟨hkept, hnet, ((h.keys.perm hperm.symm).tail_update.cons_delete hkey ?_
      hnul hmap).perm hperm', ?_, h.shapes, ?_, ?_⟩
    · intro e he hep
      exact hnot (mem_map.mpr ⟨(.insert, e), he, hep⟩)
    · intro e he
      rcases mem_cons.mp (hperm'.mem_iff.mp he) with he | he
      · cases he
        exact hres
      · exact h.resolves e (hperm.mem_iff.mpr (mem_cons_of_mem _ he))
    · intro q hq hqL
      refine h.values q hq fun hc => hqL ?_
      exact (hperm'.map _).mem_iff.mpr ((hperm.map _).mem_iff.mp hc)
    · refine h.buffer.trans ?_
      rw [hacts]
      simp only [logOf_append, flatMap_append]
      rfl

end

structure UndoInv (S : List ProxyPtr) (s₀ : TransactionState) (done : List Op)
    (s : TransactionState) : Prop where
  log : LogInv s₀ done s
  undo : Undo S s₀ s (logOf s.transaction.actions)

/-- **Every call that can be undone keeps the invariant.** -/
theorem step_undoInv (done : List Op) (s : TransactionState) (op : Op) (h : UndoInv S s₀ done s)
    (hop : s.Undoable op) : UndoInv S s₀ (done ++ [op]) (s.step op) := by
  refine ⟨step_logInv done s op h.log hop.1, ?_⟩
  cases op with
  | insert o attributes =>
    cases hlink : s.store.link (resolveKey s.store o) with
    | error m =>
      rw [step, call, insert, hlink]
      exact h.undo
    | ok r => exact h.undo.insert h.log hop hlink
  | modify p attributes => exact h.undo.modify h.log attributes
  | remove p =>
    cases hd : s.proxies p with
    | none =>
      rw [step, call, remove, hd]
      exact h.undo
    | some d => exact h.undo.remove h.log hop hd

end Steps

/-! ## Restoring the actions -/

section Restore

variable {S : List ProxyPtr} {s₀ s : TransactionState} {L : List (ActionKind × Entry)} {e : Entry}

theorem removeEntries_spec (es : List Entry)
    (h : Undo S s₀ s (es.map (fun e => (.insert, e)) ++ L)) :
    ∃ store, removeEntries es s.store = .ok store ∧ Undo S s₀ { s with store := store } L := by
  induction es generalizing s with
  | nil => exact ⟨s.store, rfl, h⟩
  | cons e es ih =>
    obtain ⟨-, hnow, -⟩ := h.net.insert e (by simp)
    have hmap : s.store.objectMap e.data.id = some e.proxy :=
      (h.kept.mapped.map _ _).mpr ⟨⟨e.data, hnow, rfl⟩, by simp⟩
    obtain ⟨store, hsto⟩ : ∃ store, s.store.removeProxy e.proxy e.data = .ok store := by
      simp [ObjectStore.removeProxy, hmap]
    have hundo := h.drop_insert (List.Perm.refl _) hsto h.buffer
    obtain ⟨store', hsto', hundo'⟩ := ih hundo
    refine ⟨store', ?_, hundo'⟩
    rw [removeEntries, hsto]
    exact hsto'

theorem restoreObject_spec {p : ProxyPtr} (rest : List UInt8)
    (hshp : (s.objects p).shape = (s₀.objects p).shape)
    (hread : (s.objects p).Restorable (s₀.objects p))
    (hbuf : s.transaction.objectBuffer = (s₀.objects p).backup ++ rest) :
    ∃ o, o.shape = (s₀.objects p).shape ∧ o.value = (s₀.objects p).value ∧
    s.restoreObject p = .ok { s with
        objects := update s.objects p o
        transaction := { s.transaction with objectBuffer := rest } } := by
  obtain ⟨o, ho, hos, hov⟩ := Attributes.restore_backup hshp hread rest
  refine ⟨o, hos, hov, ?_⟩
  rw [restoreObject, hbuf, ho]

theorem Undo.restored {kind : ActionKind} (h : Undo S s₀ s ((kind, e) :: L))
    (hkept : Kept S s₀.store store)
    (hpxs : store.lists.proxies = update s.proxies e.proxy (s₀.proxies e.proxy))
    (hkeys : Keys s₀.store.lists.tree.idMapOf store.lists.tree.idMapOf L) {o : Attributes}
    (hshp : o.shape = (s₀.objects e.proxy).shape) (hval : o.value = (s₀.objects e.proxy).value) :
    Undo S s₀ ⟨store, update s.objects e.proxy o,
      { s.transaction with objectBuffer := L.flatMap (saved s₀.objects) }⟩ L := by
  refine ⟨hkept, ?_, hkeys, fun e' he' => h.resolves e' (mem_cons_of_mem _ he'), ?_, ?_, rfl⟩
  · show Net s₀.proxies store.lists.proxies s₀.store.seq L
    rw [hpxs]
    exact h.net.tail
  · intro q hq
    by_cases hqe : q = e.proxy
    · rw [hqe]
      exact (congrArg _ (update_self ..)).trans hshp
    · exact (congrArg _ (update_of_ne hqe _ _)).trans (h.shapes q hq)
  · intro q hq hqL
    by_cases hqe : q = e.proxy
    · rw [hqe]
      exact (congrArg _ (update_self ..)).trans hval
    · refine (congrArg _ (update_of_ne hqe _ _)).trans (h.values q hq fun hc => ?_)
      rcases mem_cons.mp hc with hc | hc
      · exact hqe hc
      · exact hqL hc

theorem restore_update (h : Undo S s₀ s ((.update, e) :: L))
    (hread : (s.objects e.proxy).Restorable (s₀.objects e.proxy)) :
    ∃ s', s.restore (.update e) = .ok s' ∧ Undo S s₀ s' L ∧ ∀ q, q ≠ e.proxy →
    s'.objects q = s.objects q := by
  obtain ⟨hbef, hnow⟩ := h.net.update e mem_cons_self
  obtain ⟨o, hos, hov, heq⟩ := restoreObject_spec (L.flatMap (saved s₀.objects))
    (h.shapes e.proxy (by rw [hbef]; rfl)) hread h.buffer
  refine ⟨_, heq, h.restored h.kept ?_ h.keys.tail_update hos hov, fun q hq => ?_⟩
  · rw [hbef, ← hnow, update_eq_self]
  · exact update_of_ne hq _ _

section

variable (h : Undo S s₀ s ((.delete, e) :: L)) (hbegin : BeginOk s₀.store)
  (hS : ∃ own segs, ListsInv own segs s₀.store.lists ∧ sentinels segs = S)

include h hbegin hS

theorem Undo.insertProxy : s.store.findProxy e.data.id = none ∧
    ∃ store, insertProxy s.store e = .ok store ∧
      store.lists.proxies = update s.proxies e.proxy (some e.data) ∧
      Kept S s₀.store store ∧ Keys s₀.store.lists.tree.idMapOf store.lists.tree.idMapOf L := by
  obtain ⟨hbef, hnow⟩ := h.net.delete e mem_cons_self
  have hidle : e.data.id ≤ s₀.store.seq := hbegin.mapped.ids _ _ hbef
  -- a stored object is an old one with another id, or a new one
  have hnew : ∀ q d', s.proxies q = some d' → d'.id ≠ e.data.id := by
    intro q d' hd' hid
    rcases h.net.old_or_new hd' with hold | hnew
    · rw [hbegin.mapped.unique _ _ _ _ hold hbef hid, hnow] at hd'
      cases hd'
    · omega
  obtain ⟨own, segs, hinv, hsent⟩ := hS
  have hcell := hinv.layout.cells_lt _ (hinv.mem_cells ((hinv.stored _ _).mpr ⟨_, hbef, rfl⟩))
  obtain ⟨store, hsto, hpxs, hkept, hmap⟩ := h.kept.insertProxy hnow
    (hsent ▸ hinv.not_mem_sentinels hbef) ⟨hcell.1, lt_of_lt_of_le hcell.2 h.kept.next⟩
    (hbegin.ids _ _ hbef) (hidle.trans h.kept.seq) hnew (h.resolves e mem_cons_self)
    (hbegin.keyed _ _ hbef)
  replace hmap := fun type k => (congrFun₂ hmap type k).trans
    (withKey_of_free (fun hpk => (h.keys.delete e mem_cons_self hpk).2) type k)
  refine ⟨?_, store, hsto, hpxs, hkept, ?_⟩
  · cases hfind : s.store.findProxy e.data.id with
    | none => rfl
    | some q =>
      obtain ⟨⟨d', hd', hid⟩, -⟩ := (h.kept.mapped.map _ _).mp hfind
      exact absurd hid (hnew q d' hd')
  · refine h.keys.tail (by simp) (nodup_cons.mp h.net.nodup).1 fun type k => ?_
    rw [hmap]
    by_cases hc : type = e.data.node ∧ k = e.data.pk
    · rw [if_pos hc, hc.1, hc.2]
      by_cases hpk : e.data.pk = .null
      · rw [if_neg fun hc => hc.1 hpk, hpk, h.keys.null_eq]
      · rw [if_pos ⟨hpk, rfl, rfl⟩, (h.keys.delete e mem_cons_self hpk).1]
    · rw [if_neg hc, if_neg fun hc' => hc hc'.2]

theorem restore_delete (hread : (s.objects e.proxy).Restorable (s₀.objects e.proxy)) :
    ∃ s', s.restore (.delete e) = .ok s' ∧ Undo S s₀ s' L ∧ ∀ q, q ≠ e.proxy →
    s'.objects q = s.objects q := by
  obtain ⟨hbef, hnow⟩ := h.net.delete e mem_cons_self
  obtain ⟨hfind, store, hsto, hpxs, hkept, hkeys⟩ := h.insertProxy hbegin hS
  obtain ⟨o, hos, hov, heq⟩ := restoreObject_spec (s := { s with store := store })
    (L.flatMap (saved s₀.objects)) (h.shapes e.proxy (by rw [hbef]; rfl)) hread h.buffer
  refine ⟨_, ?_, h.restored hkept ?_ hkeys hos hov, fun q hq => ?_⟩
  · rw [restore, hfind, hsto]
    exact heq
  · rw [hbef]
    exact hpxs
  · exact update_of_ne hq _ _

end

/-- **Restoring the actions undoes the log.** -/
theorem restoreAll_spec (hbegin : BeginOk s₀.store)
    (hS : ∃ own segs, ListsInv own segs s₀.store.lists ∧ sentinels segs = S) (actions : List Action)
    (h : Undo S s₀ s (logOf actions))
    (hread : ∀ k e, (k, e) ∈ logOf actions → k ≠ .insert →
      (s.objects e.proxy).Restorable (s₀.objects e.proxy)) :
    (restoreAll actions s).2 = none ∧ Undo S s₀ (restoreAll actions s).1 [] := by
  induction actions generalizing s with
  | nil => exact ⟨rfl, h⟩
  | cons a as ih =>
    have hnd := h.net.nodup
    rw [logOf_cons] at h hread hnd
    -- restoring `a` leaves the objects of the later entries alone
    have hres : ∃ s', s.restore a = .ok s' ∧ Undo S s₀ s' (logOf as) ∧
        ∀ k e, (k, e) ∈ logOf as → s'.objects e.proxy = s.objects e.proxy := by
      cases a with
      | insert type es =>
        obtain ⟨store, hsto, hundo⟩ := removeEntries_spec es h
        refine ⟨{ s with store := store }, ?_, hundo, fun _ _ _ => rfl⟩
        rw [restore, hsto]
      | update e =>
        obtain ⟨s', hs', hundo, hobs⟩ :=
          restore_update h (hread .update e (by simp [log_update]) (by simp))
        refine ⟨s', hs', hundo, fun k e' he' => hobs _ fun hc => ?_⟩
        exact (nodup_cons.mp hnd).1 (mem_map.mpr ⟨(k, e'), he', hc⟩)
      | delete e =>
        obtain ⟨s', hs', hundo, hobs⟩ := restore_delete h hbegin hS
          (hread .delete e (by simp [log_delete]) (by simp))
        refine ⟨s', hs', hundo, fun k e' he' => hobs _ fun hc => ?_⟩
        exact (nodup_cons.mp hnd).1 (mem_map.mpr ⟨(k, e'), he', hc⟩)
    obtain ⟨s', hs', hundo, hobs⟩ := hres
    rw [restoreAll, hs']
    refine ih hundo fun k e he hk => ?_
    rw [hobs k e he]
    exact hread k e (mem_append_right _ he) hk

end Restore

/-! ## Whole transactions -/

/-- The objects of `s` are those of `s₀`: under the same ids and addresses, with the same attribute
values, and found by the same keys. -/
structure SameObjects (s₀ s : TransactionState) : Prop where
  findProxy : ∀ id, s.store.findProxy id = s₀.store.findProxy id
  proxies : s.proxies = s₀.proxies
  linked : ∀ p, s.store.lists.Linked p ↔ s₀.store.lists.Linked p
  get : ∀ classname pk, s.store.get classname pk = s₀.store.get classname pk
  values : ∀ p, (s₀.proxies p).isSome → (s.objects p).value = (s₀.objects p).value

/-- The calls `ops` succeed in a transaction if they would without one, and the rollback leaves the
objects of `begin`. -/
structure RollsBack (s₀ : TransactionState) (ops : List Op) : Prop where
  calls : ∀ done op rest, ops = done ++ op :: rest → (done.foldl step s₀).PlainOk op →
    ((done.foldl step s₀).call op).2 = none
  rollback : (ops.foldl step s₀).rollback.2 = none
  objects : SameObjects s₀ (ops.foldl step s₀).rollback.1

theorem get_eq_sig (hnd : (store.lists.tree.nodes.map type).Nodup) (classname : String)
    (pk : Identifier) :
    store.get classname pk = (findSig (store.lists.tree.nodes.map sig) classname).map
        fun r => r.bind fun x => store.lists.tree.idMapOf x.1 pk := by
  rw [← findPrototypeNode_sig, ObjectStore.get]
  cases hfind : store.lists.tree.findPrototypeNode classname with
  | error m => rfl
  | ok r =>
    cases r with
    | none => rfl
    | some n =>
      have hmap : store.lists.tree.idMapOf n.type = n.idMap :=
        idMapIn_of_mem hnd (findPrototypeNode_mem hfind)
      simp only [Except.map, map_some, bind_some, sig, hmap]

theorem Undo.sameObjects {S : List ProxyPtr} {s₀ s : TransactionState} (hbegin : BeginOk s₀.store)
    (h : Undo S s₀ s []) : SameObjects s₀ s := by
  have hpxs : s.proxies = s₀.proxies := funext fun p => h.net.eq_before (by simp)
  have hmap : s.store.lists.tree.idMapOf = s₀.store.lists.tree.idMapOf := by
    funext type k
    exact h.keys.rest type k fun _ _ hc => by cases hc
  obtain ⟨own, segs, hinv⟩ := h.kept.mapped.lists
  obtain ⟨own₀, segs₀, hinv₀⟩ := hbegin.mapped.lists
  refine ⟨fun id => ?_, hpxs, fun p => ?_, fun classname pk => ?_, fun p hp => ?_⟩
  · refine ext fun p => ?_
    rw [ObjectStore.findProxy, ObjectStore.findProxy, h.kept.mapped.map, hbegin.mapped.map]
    exact iff_of_eq (by rw [show s.store.lists.proxies = s₀.store.lists.proxies from hpxs])
  · rw [hinv.linked_iff, hinv₀.linked_iff]
    exact iff_of_eq (by rw [show s.store.lists.proxies = s₀.store.lists.proxies from hpxs])
  · rw [get_eq_sig h.kept.types_nodup, get_eq_sig hinv₀.layout.types_nodup, h.kept.sigs, hmap]
  · exact h.values p hp (by simp)

theorem undoInv_begin (h : BeginOk store) (objects : ProxyPtr → Attributes)
    {own : Own} {segs : List Segment} (hinv : ListsInv own segs store.lists) :
    UndoInv (sentinels segs) (begin store objects) [] (begin store objects) where
  log := logInv_begin h.mapped objects
  undo := {
    kept := ⟨h.mapped, ⟨own, segs, hinv, rfl⟩, rfl, Nat.le_refl _, Nat.le_refl _, h.keyed, h.nulls⟩
    net := (logInv_begin h.mapped objects).net
    keys := ⟨by simp [begin, Transaction.empty, logOf], by simp [begin, Transaction.empty, logOf],
      fun _ _ _ => rfl⟩
    resolves := by simp [begin, Transaction.empty, logOf]
    shapes := fun _ _ => rfl
    values := fun _ _ _ => rfl
    buffer := rfl }

theorem LogInv.call_ok {s₀ s : TransactionState} {done : List Op} (h : LogInv s₀ done s) {op : Op}
    (hop : s.LogFits op) (hok : s.PlainOk op) : (s.call op).2 = none := by
  cases op with
  | insert o attributes =>
    cases hlink : s.store.link (resolveKey s.store o) with
    | error m =>
      rw [PlainOk, hlink] at hok
      cases hok
    | ok r => rw [call, (h.insert_eq hop hlink attributes).2]
  | modify p attributes =>
    rw [call, TransactionState.modify]
    split
    · rfl
    · rfl
  | remove p =>
    cases hd : s.proxies p with
    | none =>
      rw [PlainOk, ObjectStore.removeSingle, show s.store.lists.proxies p = none from hd] at hok
      cases hok
    | some d =>
      obtain ⟨store, -, ⟨-, heq⟩ | ⟨_, _, _, _, -, heq⟩ | ⟨_, _, -, heq⟩⟩ := h.remove_cases hop hd
      · rw [call, heq]
      · rw [call, heq]
      · rw [call, heq]

/-- **A transaction of calls that can be undone rolls back**, if what has been saved of the objects
can be read back. -/
theorem rollback_of_run {store : ObjectStore} (hbegin : BeginOk store)
    (objects : ProxyPtr → Attributes) (ops : List Op)
    (h : RunMeets step Undoable (begin store objects) ops)
    (hread : ∀ x ∈ logOf (ops.foldl step (begin store objects)).transaction.actions, x.1 ≠ .insert →
      ((ops.foldl step (begin store objects)).objects x.2.proxy).Restorable (objects x.2.proxy)) :
    RollsBack (begin store objects) ops := by
  obtain ⟨own, segs, hinv⟩ := hbegin.mapped.lists
  have hsta := undoInv_begin hbegin objects hinv
  have hend := RunMeets.invariant_trace step_undoInv hsta h
  obtain ⟨hok, hundo⟩ :=
    restoreAll_spec hbegin ⟨own, segs, hinv, rfl⟩ _ hend.undo fun k e he hk => hread (k, e) he hk
  refine ⟨?_, hok, hundo.sameObjects hbegin⟩
  rintro done op rest rfl hpln
  obtain ⟨hdone, hop⟩ := h.split
  exact (RunMeets.invariant_trace step_undoInv hsta hdone).log.call_ok hop.1 hpln

theorem beginOk_shelf : BeginOk shelf := by
  have hpxs :
      shelf.lists.proxies = update (fun _ => none) 7 (some ⟨1, "B", "book", .integral 64 1⟩) := rfl
  have hstd : ∀ p d, shelf.lists.proxies p = some d → d = ⟨1, "B", "book", .integral 64 1⟩ := by
    intro p d hd
    rw [hpxs, update_apply] at hd
    split at hd
    · exact (some.inj hd).symm
    · cases hd
  refine ⟨mapped_shelf, fun p d hd => ?_, fun p d hd _ => ?_, fun type => ?_⟩
  · rw [hstd p d hd]
    decide
  · rw [hstd p d hd]
    decide
  · exact idMapIn_eq_none (by decide) type

/-- The book on the shelf is modified and removed, and comes back with its first title. -/
def restocked : List Op :=
  [.insert ⟨"B", .long, .integral 64 0⟩ [.scalar [2]],
    .insert ⟨"B", .long, .integral 64 9⟩ [.scalar [3]], .modify 7 [.scalar [4]], .remove 8,
    .remove 7]

theorem rollback_of_shelf :
    RunMeets step Undoable (begin shelf fun _ => [.scalar [1]]) restocked ∧
    RollsBack (begin shelf fun _ => [.scalar [1]]) restocked :=
  ⟨by decide, rollback_of_run beginOk_shelf _ _ (by decide) (by decide)⟩

/-- When the `insert_action` of the labels is erased, the index of the modified book lies behind the
end of the actions: removing the book throws. -/
theorem removing_modified_book_throws : ¬RollsBack (begin shelf fun _ => [])
      [.insert ⟨"L", .long, .integral 64 0⟩ [], .modify 7 [], .remove 8, .remove 7] := by
  intro h
  have hok := h.calls [.insert ⟨"L", .long, .integral 64 0⟩ [], .modify 7 [], .remove 8] (.remove 7)
    [] rfl (by decide)
  revert hok
  decide

end TransactionState

end Matador.Object
