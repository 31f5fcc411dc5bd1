import Matador.Object.TransactionLog

/-!
# The net effect of a transaction

A removal looks up the action of the object by its index. `LogFits` asks that this index leads to an
action that holds the object. Under this condition the log stays the net effect of the calls.
-/

namespace Matador.Object

open Transaction Function List Lib PrototypeTree

/-! ## The invariant -/

namespace TransactionState

/-- The state of a transaction that began in `s₀`, after the calls `done`. The map of indices knows
every object of the log; it may also know objects that were inserted and removed. -/
structure LogInv (s₀ : TransactionState) (done : List Op) (s : TransactionState) : Prop where
  mapped : Mapped [] s.store
  net : Net s₀.proxies s.proxies s₀.store.seq (logOf s.transaction.actions)
  inserts : ∀ type es, .insert type es ∈ s.transaction.actions →
    es ≠ [] ∧ ∀ e ∈ es, e.data.node = type
  types : (s.transaction.actions.filterMap Action.insertType).Nodup
  indexed : ∀ k e, (k, e) ∈ logOf s.transaction.actions →
    (s.transaction.idActionIndexMap e.data.id).isSome
  recorded : ∀ p d, s.proxies p = some d → (s.transaction.idActionIndexMap d.id).isSome →
    p ∈ (logOf s.transaction.actions).map fun x => x.2.proxy
  bounded : ∀ i, (s.transaction.idActionIndexMap i).isSome → i ≤ s.store.seq
  modified : ∀ p attributes d, .modify p attributes ∈ done → s.proxies p = some d →
    (s.transaction.idActionIndexMap d.id).isSome
  addresses : ∀ p, s.store.lists.tree.nextProxy ≤ p → s₀.proxies p = none
  seq_le : s₀.store.seq ≤ s.store.seq

/-- The calls for which the index of a removed object is right. -/
def LogFits (s : TransactionState) : Op → Prop
  | .insert _ _ => s.store.seq + 1 < 2 ^ 64
  | .modify _ _ => True
  | .remove p => ∀ d ∈ s.proxies p, ∀ i ∈ s.transaction.idActionIndexMap d.id,
      ∃ a ∈ s.transaction.actions[i]?, a.Holds p

instance (s : TransactionState) (op : Op) : Decidable (s.LogFits op) :=
  match op with
  | .insert _ _ => inferInstanceAs (Decidable (s.store.seq + 1 < 2 ^ 64))
  | .modify _ _ => inferInstanceAs (Decidable True)
  | .remove p => inferInstanceAs (Decidable (∀ d ∈ s.proxies p,
      ∀ i ∈ s.transaction.idActionIndexMap d.id, ∃ a ∈ s.transaction.actions[i]?, a.Holds p))

theorem proxies_eq_none_of_le {pending : List ProxyPtr} {s : ObjectStore} (h : Mapped pending s)
    {p : ProxyPtr} (hp : s.lists.tree.nextProxy ≤ p) : s.lists.proxies p = none := by
  obtain ⟨own, segs, hinv⟩ := h.lists
  cases hd : s.lists.proxies p with
  | none => rfl
  | some d =>
    have hlt := (hinv.layout.cells_lt p (hinv.mem_cells ((hinv.stored _ _).mpr ⟨d, hd, rfl⟩))).2
    lia

variable {store : ObjectStore}

theorem logInv_begin (h : Mapped [] store) (objects : ProxyPtr → Attributes) :
    LogInv (begin store objects) [] (begin store objects) where
  mapped := h
  net := ⟨nodup_nil, by simp [begin, Transaction.empty, logOf],
    by simp [begin, Transaction.empty, logOf], by simp [begin, Transaction.empty, logOf],
    fun _ _ => rfl⟩
  inserts := by simp [begin, Transaction.empty]
  types := nodup_nil
  indexed := by simp [begin, Transaction.empty, logOf]
  recorded := by simp [begin, Transaction.empty]
  bounded := by simp [begin, Transaction.empty]
  modified := by simp
  addresses := fun _ => proxies_eq_none_of_le h
  seq_le := Nat.le_refl _

variable {s₀ s : TransactionState} {done : List Op} {p : ProxyPtr} {d : ObjectProxy}

theorem LogInv.not_mem_log (h : LogInv s₀ done s) (hd : s.proxies p = some d)
    (hidx : s.transaction.idActionIndexMap d.id = none) :
    p ∉ (logOf s.transaction.actions).map fun x => x.2.proxy := by
  intro hp
  obtain ⟨⟨k, e⟩, he, rfl⟩ := mem_map.mp hp
  have hsome := h.indexed k e he
  rw [← (h.net.data_eq he hd).1, hidx] at hsome
  cases hsome

theorem LogInv.insert_eq (h : LogInv s₀ done s) {o : NewObject} (hseq : s.store.seq + 1 < 2 ^ 64)
    (hlink : s.store.link (resolveKey s.store o) = .ok (store, p, d))
    (attributes : Attributes) :
    s.transaction.idActionIndexMap d.id = none ∧
    s.insert o attributes =
      (⟨store.mapProxy p d, update s.objects p attributes, { s.transaction with
          actions := (addInsert ⟨p, d⟩ s.transaction.actions).1
          idActionIndexMap := insertNew s.transaction.idActionIndexMap d.id
            (addInsert ⟨p, d⟩ s.transaction.actions).2 }⟩, none) := by
  have hnone : s.transaction.idActionIndexMap d.id = none := by
    obtain ⟨n, -, -, rfl, -⟩ := link_ok hlink
    rw [Sequencer.next_eq hseq]
    by_contra hsome
    exact Nat.not_succ_le_self _ (h.bounded _ (Option.isSome_iff_ne_none.mpr hsome))
  refine ⟨hnone, ?_⟩
  simp only [insert, hlink, onInsert, hnone]

variable {a : Action}

section

variable (h : LogInv s₀ done s)

include h

theorem LogInv.entry_mem (hd : s.proxies p = some d) (ha : a ∈ s.transaction.actions)
    (hp : a.Holds p) : (⟨p, d⟩ : Entry) ∈ a.entries ∧ a.kind ≠ .delete := by
  obtain ⟨⟨q, d'⟩, he, hq⟩ := mem_map.mp hp
  subst hq
  obtain ⟨rfl, hk⟩ := h.net.data_eq (mem_logOf.mpr ⟨a, ha, rfl, he⟩) hd
  exact ⟨he, hk⟩

theorem LogInv.eraseP_entries (hd : s.proxies p = some d) {type : String}
    {es : List Entry} (ha : .insert type es ∈ s.transaction.actions) (he : ⟨p, d⟩ ∈ es) :
    ∃ es₁ es₂, es = es₁ ++ ⟨p, d⟩ :: es₂ ∧ es.eraseP (·.data.id = d.id) = es₁ ++ es₂ := by
  obtain ⟨e, es₁, es₂, -, hid, hes, hera⟩ :=
    exists_of_eraseP he (p := fun e => decide (e.data.id = d.id)) (by simp)
  have hmem : (ActionKind.insert, e) ∈ logOf s.transaction.actions :=
    mem_logOf.mpr ⟨_, ha, rfl, by rw [hes]; simp [Action.entries]⟩
  have hstd := (h.net.insert e hmem).2.1
  -- ids are unique among the stored objects
  have hep : e.proxy = p := h.mapped.unique _ _ _ _ hstd hd (by simpa using hid)
  have hed : e.data = d := by
    rw [hep, hd] at hstd
    exact (Option.some.inj hstd).symm
  refine ⟨es₁, es₂, ?_, hera⟩
  rw [hes, ← hep, ← hed]

/-- **What the removal of a stored object does to the log.** It is added as a deletion, it leaves
the `insert_action` that holds it, or its update becomes a deletion. -/
theorem LogInv.remove_cases (hfits : s.LogFits (.remove p)) (hd : s.proxies p = some d) :
    ∃ store, s.store.removeProxy p d = .ok store ∧ ((s.transaction.idActionIndexMap d.id = none ∧
          s.remove p = ({ s with
            store := store
            transaction := s.transaction.backup (.delete ⟨p, d⟩) ⟨p, d⟩ (s.objects p) }, none)) ∨
        (∃ as es₁ es₂ bs, s.transaction.actions = as ++
          .insert d.node (es₁ ++ ⟨p, d⟩ :: es₂) :: bs ∧
            s.remove p = ({ s with
              store := store
              transaction := { s.transaction with
                actions := as ++ (leftInsert d.node (es₁ ++ es₂) ++ bs) } }, none)) ∨
        ∃ as bs, s.transaction.actions = as ++ .update ⟨p, d⟩ :: bs ∧ s.remove p = ({ s with
          store := store
          transaction := { s.transaction with
            actions := as ++ .delete ⟨p, d⟩ :: bs } }, none)) := by
  have hmap : s.store.objectMap d.id = some p := (h.mapped.map _ _).mpr ⟨⟨d, hd, rfl⟩, by simp⟩
  obtain ⟨store, hstore⟩ : ∃ store, s.store.removeProxy p d = .ok store := by
    simp [ObjectStore.removeProxy, hmap]
  refine ⟨store, hstore, ?_⟩
  cases hidx : s.transaction.idActionIndexMap d.id with
  | none =>
    refine .inl ⟨rfl, ?_⟩
    simp only [remove, hd, hstore, onDelete, hidx]
  | some i =>
    obtain ⟨a, ha, hp⟩ := hfits d hd i hidx
    have hget : s.transaction.actions[i]? = some a := ha
    have hmem := mem_of_getElem? hget
    obtain ⟨he, hk⟩ := h.entry_mem hd hmem hp
    obtain ⟨hi, hgeti⟩ := List.getElem?_eq_some_iff.mp hget
    obtain ⟨as, bs, hacts, hlen⟩ : ∃ as bs, s.transaction.actions = as ++ a :: bs ∧ as.length = i :=
      ⟨s.transaction.actions.take i, s.transaction.actions.drop (i + 1),
        by rw [← hgeti, ← drop_eq_getElem_cons hi, take_append_drop],
        length_take_of_le hi.le⟩
    have hrem : s.remove p = ({ s with
        store := store
        transaction := { s.transaction with
          actions := removeAction ⟨p, d⟩ i a s.transaction.actions } }, none) := by
      simp only [remove, hd, hstore, onDelete, hidx, hget]
    rw [hrem]
    cases a with
    | insert type es =>
      obtain ⟨es₁, es₂, rfl, hera⟩ := h.eraseP_entries hd hmem he
      have htype : d.node = type := (h.inserts _ _ hmem).2 _ he
      refine .inr (.inl ⟨as, es₁, es₂, bs, by rw [htype]; exact hacts, ?_⟩)
      rw [hacts, ← hlen, removeAction_insert, hera, htype]
    | update u =>
      have hu : u = ⟨p, d⟩ := (mem_singleton.mp he).symm
      subst hu
      refine .inr (.inr ⟨as, bs, hacts, ?_⟩)
      rw [hacts, ← hlen, removeAction_update]
    | delete u => exact absurd rfl hk

/-! ## Every call keeps the invariant -/

theorem LogInv.concat {op : Op}
    (hop : ∀ q attributes d, op = .modify q attributes → s.proxies q = some d →
      (s.transaction.idActionIndexMap d.id).isSome) : LogInv s₀ (done ++ [op]) s := by
  refine { h with modified := fun q attributes d hq hd => ?_ }
  rcases mem_append.mp hq with hq | hq
  · exact h.modified q attributes d hq hd
  · exact hop q attributes d (mem_singleton.mp hq).symm hd

theorem LogInv.of_objects (objects : ProxyPtr → Attributes) :
    LogInv s₀ done { s with objects := objects } := { h with }

theorem LogInv.fresh_not_mem_log (hp : s.store.lists.tree.nextProxy ≤ p) :
    p ∉ (logOf s.transaction.actions).map fun x => x.2.proxy :=
  h.net.not_mem_of_none (h.addresses _ hp) (proxies_eq_none_of_le h.mapped hp)

end

variable {e : Entry} {actions : List Action}

theorem inserts_addInsert
    (h : ∀ type es, .insert type es ∈ actions → es ≠ [] ∧ ∀ e ∈ es, e.data.node = type) :
    ∀ type es, .insert type es ∈ (addInsert e actions).1 →
    es ≠ [] ∧ ∀ e ∈ es, e.data.node = type := by
  intro type es hes
  rcases addInsert_cases e actions with ⟨as, es', bs, rfl, hadd⟩ | ⟨-, hadd⟩
  · rw [hadd] at hes
    rcases mem_append.mp hes with hes | hes
    · exact h type es (mem_append_left _ hes)
    rcases mem_cons.mp hes with hes | hes
    · cases hes
      refine ⟨by simp, fun e' he' => ?_⟩
      rcases mem_append.mp he' with he' | he'
      · exact (h _ es' (by simp)).2 e' he'
      · rw [mem_singleton.mp he']
    · exact h type es (mem_append_right _ (mem_cons_of_mem _ hes))
  · rw [hadd] at hes
    rcases mem_append.mp hes with hes | hes
    · exact h type es hes
    · cases mem_singleton.mp hes
      exact ⟨by simp, by simp⟩

theorem types_addInsert (h : (actions.filterMap Action.insertType).Nodup) :
    ((addInsert e actions).1.filterMap Action.insertType).Nodup := by
  rcases addInsert_cases e actions with ⟨as, es, bs, rfl, hadd⟩ | ⟨hnew, hadd⟩
  · rw [hadd]
    simpa [Action.insertType] using h
  · rw [hadd, filterMap_append]
    refine nodup_append.mpr ⟨h, by simp [Action.insertType], fun a ha b hb => ?_⟩
    rw [show b = e.data.node by simpa [Action.insertType] using hb]
    rintro rfl
    exact hnew ha

section

variable (h : LogInv s₀ done s)

include h

theorem LogInv.insert {o : NewObject} (hseq : s.store.seq + 1 < 2 ^ 64)
    (hlink : s.store.link (resolveKey s.store o) = .ok (store, p, d))
    (attributes : Attributes) : LogInv s₀ done (s.insert o attributes).1 := by
  obtain ⟨hmap, hstd, -⟩ := h.mapped.link hseq hlink
  obtain ⟨hp, hid, hle, hnext, hpxs⟩ := link_store hseq hlink
  obtain ⟨hnone, heq⟩ := h.insert_eq hseq hlink attributes
  have hfsh := h.fresh_not_mem_log hp.ge
  have hperm := logOf_addInsert ⟨p, d⟩ s.transaction.actions
  rw [heq]
  refine ⟨hmap.mapProxy (by simp) hstd, ?_, inserts_addInsert h.inserts,
    types_addInsert h.types, ?_, ?_, ?_, ?_, ?_, ?_⟩
  · refine Net.perm ?_ hperm
    have hnet := h.net.cons (k := .insert) (e := ⟨p, d⟩) hfsh
      ⟨h.addresses p hp.ge, rfl, by rw [hid]; exact Nat.lt_succ_of_le h.seq_le⟩
    rwa [← hpxs] at hnet
  · intro k e he
    rw [isSome_insertNew]
    rcases mem_cons.mp (hperm.mem_iff.mp he) with he | he
    · cases he
      exact .inl rfl
    · exact .inr (h.indexed k e he)
  · intro q d' hd' hidx
    rw [(hperm.map _).mem_iff, map_cons, mem_cons]
    by_cases hq : q = p
    · exact .inl hq
    · rw [proxies, ObjectStore.mapProxy, hpxs, update_of_ne hq] at hd'
      refine .inr (h.recorded q d' hd' ?_)
      refine (isSome_insertNew.mp hidx).resolve_left fun hc => ?_
      have := h.mapped.ids q d' hd'
      omega
  · intro i hi
    rcases isSome_insertNew.mp hi with rfl | hi
    · rw [hid]
      exact hle
    · exact (h.bounded i hi).trans ((Nat.le_succ _).trans hle)
  · intro q attributes' d' hq hd'
    rw [isSome_insertNew]
    by_cases hqp : q = p
    · subst hqp
      rw [proxies, ObjectStore.mapProxy, hpxs, update_self, Option.some.injEq] at hd'
      exact .inl (by rw [hd'])
    · rw [proxies, ObjectStore.mapProxy, hpxs, update_of_ne hqp] at hd'
      exact .inr (h.modified q attributes' d' hq hd')
  · intro q hq
    refine h.addresses q ?_
    have : store.lists.tree.nextProxy ≤ q := hq
    lia
  · exact h.seq_le.trans ((Nat.le_succ _).trans hle)

theorem LogInv.backup (hd : s.proxies p = some d) {k : ActionKind}
    (ha : a.log = [(k, ⟨p, d⟩)]) (htype : a.insertType = none)
    (hmap : Mapped [] store) (hseq : store.seq = s.store.seq)
    (hnext : store.lists.tree.nextProxy = s.store.lists.tree.nextProxy)
    (hpxs : ∀ q, q ≠ p → store.lists.proxies q = s.proxies q)
    (hp : ∀ d', store.lists.proxies p = some d' → d' = d)
    (hnet : Net s₀.proxies store.lists.proxies s₀.store.seq
      ((k, ⟨p, d⟩) :: logOf s.transaction.actions)) :
    LogInv s₀ done { s with
      store := store
      transaction := s.transaction.backup a ⟨p, d⟩ (s.objects p) } := by
  have hperm := logOf_concat_perm ha s.transaction.actions
  refine ⟨hmap, hnet.perm hperm, ?_, ?_, ?_, ?_, ?_, ?_, ?_, ?_⟩
  · intro type es hes
    rcases mem_append.mp hes with hes | hes
    · exact h.inserts type es hes
    · rw [← mem_singleton.mp hes] at htype
      cases htype
  · show ((s.transaction.actions ++ [a]).filterMap Action.insertType).Nodup
    rw [filterMap_append, filterMap_cons_none htype, filterMap_nil, append_nil]
    exact h.types
  · intro k' e he
    refine isSome_insertNew.mpr ?_
    rcases mem_cons.mp (hperm.mem_iff.mp he) with he | he
    · cases he
      exact .inl rfl
    · exact .inr (h.indexed k' e he)
  · intro q d' hd' hidx
    show q ∈ (logOf (s.transaction.actions ++ [a])).map fun x => x.2.proxy
    rw [(hperm.map _).mem_iff, map_cons, mem_cons]
    by_cases hq : q = p
    · exact .inl hq
    · have hold : s.proxies q = some d' := (hpxs q hq).symm.trans hd'
      refine .inr (h.recorded q d' hold ?_)
      exact (isSome_insertNew.mp hidx).resolve_left fun hc =>
        hq (h.mapped.unique _ _ _ _ hold hd hc)
  · intro i hi
    rw [hseq]
    rcases isSome_insertNew.mp hi with rfl | hi
    · exact h.mapped.ids p d hd
    · exact h.bounded i hi
  · intro q attributes d' hq hd'
    refine isSome_insertNew.mpr ?_
    by_cases hqp : q = p
    · subst hqp
      exact .inl (by rw [hp d' hd'])
    · exact .inr (h.modified q attributes d' hq ((hpxs q hqp).symm.trans hd'))
  · intro q hq
    exact h.addresses q (hnext ▸ hq)
  · show s₀.store.seq ≤ store.seq
    rw [hseq]
    exact h.seq_le

/-- **A modified object is in the log.** -/
theorem LogInv.modify (attributes : Attributes) :
    LogInv s₀ (done ++ [.modify p attributes]) (s.modify p attributes).1 := by
  unfold TransactionState.modify
  cases hd : s.proxies p with
  | none =>
    refine h.concat fun q attributes' d' hq hd' => ?_
    cases hq
    rw [hd] at hd'
    cases hd'
  | some d =>
    have hlog :
        LogInv s₀ done { s with transaction := s.transaction.onUpdate ⟨p, d⟩ (s.objects p) } := by
      unfold onUpdate
      cases hidx : s.transaction.idActionIndexMap d.id with
      | some i => exact h
      | none =>
        exact h.backup hd (log_update _) rfl h.mapped rfl rfl (fun _ _ => rfl)
          (fun d' hd' => Option.some.inj (hd'.symm.trans hd))
          (h.net.cons_update hd (h.not_mem_log hd hidx))
    refine LogInv.concat (hlog.of_objects _) fun q attributes' d' hq hd' => ?_
    cases hq
    rw [hd, Option.some.injEq] at hd'
    subst hd'
    unfold onUpdate
    cases hidx : s.transaction.idActionIndexMap d.id with
    | some i => simp [hidx]
    | none => exact isSome_insertNew.mpr (.inl rfl)

section

variable (hd : s.proxies p = some d) (hstore : s.store.removeProxy p d = .ok store)

include hd hstore

theorem LogInv.replace
    (hnet : Net s₀.proxies (update s.proxies p none) s₀.store.seq (logOf actions))
    (hins : ∀ type es, .insert type es ∈ actions → es ≠ [] ∧ ∀ e ∈ es, e.data.node = type)
    (htys : (actions.filterMap Action.insertType).Nodup)
    (hlog : ∀ k e, (k, e) ∈ logOf actions → ∃ k', (k', e) ∈ logOf s.transaction.actions)
    (hkeep : ∀ k e, (k, e) ∈ logOf s.transaction.actions → e.proxy ≠ p → (k, e) ∈ logOf actions) :
    LogInv s₀ done { s with
      store := store
      transaction := { s.transaction with actions := actions } } := by
  obtain ⟨hseq, hnext, hpxs⟩ := removeProxy_store hstore
  have hold : ∀ q d', store.lists.proxies q = some d' → q ≠ p ∧ s.proxies q = some d' := by
    intro q d' hd'
    rw [hpxs] at hd'
    by_cases hq : q = p
    · rw [hq, update_self] at hd'
      cases hd'
    · exact ⟨hq, by rwa [update_of_ne hq] at hd'⟩
  refine ⟨h.mapped.removeProxy hd hstore, ?_, hins, htys, ?_, ?_, ?_, ?_, ?_, ?_⟩
  · show Net s₀.proxies store.lists.proxies s₀.store.seq (logOf actions)
    rw [hpxs]
    exact hnet
  · intro k e he
    obtain ⟨k', he'⟩ := hlog k e he
    exact h.indexed k' e he'
  · intro q d' hd' hidx
    obtain ⟨hq, hd'⟩ := hold q d' hd'
    obtain ⟨⟨k, e⟩, he, hep⟩ := mem_map.mp (h.recorded q d' hd' hidx)
    exact mem_map.mpr ⟨(k, e), hkeep k e he (hep ▸ hq), hep⟩
  · intro i hi
    exact (h.bounded i hi).trans hseq.ge
  · intro q attributes d' hq hd'
    exact h.modified q attributes d' hq (hold q d' hd').2
  · intro q hq
    exact h.addresses q (hnext ▸ hq)
  · exact h.seq_le.trans hseq.ge

theorem LogInv.leave {as bs : List Action} {es₁ es₂ : List Entry}
    (hacts : s.transaction.actions = as ++ .insert d.node (es₁ ++ ⟨p, d⟩ :: es₂) :: bs) :
    LogInv s₀ done { s with
      store := store
      transaction := { s.transaction with
        actions := as ++ (leftInsert d.node (es₁ ++ es₂) ++ bs) } } := by
  have hperm := logOf_leave as bs d.node ⟨p, d⟩ es₁ es₂
  rw [← hacts] at hperm
  refine h.replace hd hstore (h.net.perm hperm.symm).tail_insert ?_ ?_ ?_ ?_
  · intro type es hes
    rcases mem_append.mp hes with hes | hes
    · exact h.inserts type es (by simp [hacts, hes])
    rcases mem_append.mp hes with hes | hes
    · obtain ⟨hne, hins⟩ := mem_leftInsert hes
      cases hins
      have hall := (h.inserts d.node (es₁ ++ ⟨p, d⟩ :: es₂) (by rw [hacts]; simp)).2
      refine ⟨hne, fun e he => hall e ?_⟩
      exact mem_append.mpr ((mem_append.mp he).imp_right (mem_cons_of_mem _))
    · exact h.inserts type es (by simp [hacts, hes])
  · refine List.Nodup.sublist ?_ h.types
    rw [hacts, filterMap_append, filterMap_append, filterMap_append]
    exact (List.Sublist.refl _).append ((insertType_leftInsert _ _).append (List.Sublist.refl _))
  · intro k e he
    exact ⟨k, hperm.mem_iff.mpr (mem_cons_of_mem _ he)⟩
  · intro k e he hep
    refine (mem_cons.mp (hperm.mem_iff.mp he)).resolve_left fun hc => hep ?_
    cases hc
    rfl

theorem LogInv.updateToDelete {as bs : List Action}
    (hacts : s.transaction.actions = as ++ .update ⟨p, d⟩ :: bs) : LogInv s₀ done { s with
      store := store
      transaction := { s.transaction with actions := as ++ .delete ⟨p, d⟩ :: bs } } := by
  have hperm := logOf_middle (log_update ⟨p, d⟩) as bs
  have hperm' := logOf_middle (log_delete ⟨p, d⟩) as bs
  rw [← hacts] at hperm
  refine h.replace hd hstore ((h.net.perm hperm.symm).update_to_delete.perm hperm') ?_ ?_ ?_ ?_
  · intro type es hes
    refine h.inserts type es ?_
    simpa [hacts] using hes
  · simpa [hacts, filterMap_cons, Action.insertType] using h.types
  · intro k e he
    rcases mem_cons.mp (hperm'.mem_iff.mp he) with he | he
    · cases he
      exact ⟨.update, hperm.mem_iff.mpr mem_cons_self⟩
    · exact ⟨k, hperm.mem_iff.mpr (mem_cons_of_mem _ he)⟩
  · intro k e he hep
    refine hperm'.mem_iff.mpr (mem_cons_of_mem _ ?_)
    refine (mem_cons.mp (hperm.mem_iff.mp he)).resolve_left fun hc => hep ?_
    cases hc
    rfl

end

theorem LogInv.remove (hfits : s.LogFits (.remove p))
    (hd : s.proxies p = some d) : LogInv s₀ done (s.remove p).1 := by
  obtain ⟨store, hstore, hcas⟩ := h.remove_cases hfits hd
  rcases hcas with ⟨hidx, heq⟩ | ⟨as, es₁, es₂, bs, hacts, heq⟩ | ⟨as, bs, hacts, heq⟩
  · rw [heq]
    obtain ⟨hseq, hnext, hpxs⟩ := removeProxy_store hstore
    have hnew := h.not_mem_log hd hidx
    refine h.backup hd (log_delete _) rfl (h.mapped.removeProxy hd hstore) hseq hnext
      (fun q hq => ?_) (fun d' hd' => ?_) ?_
    · rw [hpxs, update_of_ne hq]
    · rw [hpxs, update_self] at hd'
      cases hd'
    · rw [hpxs]
      exact h.net.cons (e := ⟨p, d⟩) hnew ⟨(h.net.eq_before hnew).symm.trans hd, rfl⟩
  · rw [heq]
    exact h.leave hd hstore hacts
  · rw [heq]
    exact h.updateToDelete hd hstore hacts

end

/-- **Every call that meets the condition keeps the invariant.** -/
theorem step_logInv (done : List Op) (s : TransactionState) (op : Op) (h : LogInv s₀ done s)
    (hop : s.LogFits op) : LogInv s₀ (done ++ [op]) (s.step op) := by
  cases op with
  | insert o attributes =>
    refine LogInv.concat ?_ fun _ _ _ hc => by cases hc
    cases hlink : s.store.link (resolveKey s.store o) with
    | error m =>
      rw [step, call, TransactionState.insert, hlink]
      exact h
    | ok r => exact h.insert hop hlink attributes
  | modify p attributes => exact h.modify attributes
  | remove p =>
    refine LogInv.concat ?_ fun _ _ _ hc => by cases hc
    cases hd : s.proxies p with
    | none =>
      rw [step, call, TransactionState.remove, hd]
      exact h
    | some d => exact h.remove hop hd

/-! ## The actions at commit -/

/-- The actions that the observer gets are the net effect of the calls `ops` of a transaction that
began in `s₀` and ended in `s`. -/
structure NetEffect (s₀ : TransactionState) (ops : List Op) (s : TransactionState) : Prop where
  /-- a type has one `insert_action` -/
  types : (s.commit.filterMap Action.insertType).Nodup
  inserted : ∀ p d, s₀.proxies p = none → s.proxies p = some d → ∃ es₁ es₂,
    s.commit.filter (Action.Holds p) = [.insert d.node (es₁ ++ ⟨p, d⟩ :: es₂)] ∧
      p ∉ (es₁ ++ es₂).map Entry.proxy
  deleted : ∀ p d, s₀.proxies p = some d → s.proxies p = none →
    s.commit.filter (Action.Holds p) = [.delete ⟨p, d⟩]
  updated : ∀ p d attributes, s₀.proxies p = some d → (s.proxies p).isSome →
    .modify p attributes ∈ ops → s.commit.filter (Action.Holds p) = [.update ⟨p, d⟩]
  gone : ∀ p, s₀.proxies p = none → s.proxies p = none → s.commit.filter (Action.Holds p) = []

theorem filter_holds_eq_nil
    (hp : p ∉ (logOf actions).map fun x => x.2.proxy) : actions.filter (Action.Holds p) = [] := by
  refine filter_eq_nil_iff.mpr fun a ha hhld => hp ?_
  obtain ⟨e, he, rfl⟩ := mem_map.mp (of_decide_eq_true hhld)
  exact mem_map.mpr ⟨(a.kind, e), mem_logOf.mpr ⟨a, ha, rfl, he⟩, rfl⟩

theorem filter_holds (hnd : ((logOf actions).map fun x => x.2.proxy).Nodup) (ha : a ∈ actions)
    (he : e ∈ a.entries) :
    actions.filter (Action.Holds e.proxy) = [a] ∧ (a.entries.map Entry.proxy).Nodup := by
  obtain ⟨as, bs, rfl⟩ := append_of_mem ha
  have hmap : (a.log.map fun x => x.2.proxy) = a.entries.map Entry.proxy := by
    rw [Action.log, map_map]
    rfl
  have hself : e.proxy ∈ a.entries.map Entry.proxy := mem_map.mpr ⟨e, he, rfl⟩
  rw [logOf_append, logOf_cons, map_append, map_append, hmap] at hnd
  obtain ⟨-, hnd, has⟩ := nodup_append.mp hnd
  obtain ⟨hnda, -, hbs⟩ := nodup_append.mp hnd
  refine ⟨?_, hnda⟩
  rw [filter_append, filter_cons_of_pos (p := (Action.Holds e.proxy ·)) (decide_eq_true hself),
    filter_holds_eq_nil fun hc => has _ hc _ (mem_append_left _ hself) rfl,
    filter_holds_eq_nil fun hc => hbs _ hself _ hc rfl]
  rfl

theorem LogInv.netEffect (h : LogInv s₀ done s) : NetEffect s₀ done s where
  types := h.types
  inserted := by
    intro p d hbef hnow
    have hp : p ∈ (logOf s.transaction.actions).map fun x => x.2.proxy := by
      by_contra hc
      rw [h.net.eq_before hc, hbef] at hnow
      cases hnow
    obtain ⟨⟨k, e⟩, he, rfl⟩ := mem_map.mp hp
    obtain ⟨a, ha, hk, hea⟩ := mem_logOf.mp he
    have hde := (h.net.data_eq he hnow).1
    cases a with
    | insert type es =>
      obtain ⟨es₁, es₂, rfl⟩ := append_of_mem (show e ∈ es from hea)
      have htype : d.node = type := by
        rw [hde]
        exact (h.inserts _ _ ha).2 e hea
      obtain ⟨hfil, hnd⟩ := filter_holds h.net.nodup ha hea
      refine ⟨es₁, es₂, by rw [commit, hfil, htype, hde], ?_⟩
      rw [Action.entries, map_append, map_cons, nodup_middle, nodup_cons] at hnd
      rw [map_append]
      exact hnd.1
    | update u =>
      subst hk
      rw [(h.net.update e he).1] at hbef
      cases hbef
    | delete u =>
      subst hk
      rw [(h.net.delete e he).1] at hbef
      cases hbef
  deleted := by
    intro p d hbef hnow
    have hp : p ∈ (logOf s.transaction.actions).map fun x => x.2.proxy := by
      by_contra hc
      rw [← h.net.eq_before hc, hnow] at hbef
      cases hbef
    obtain ⟨⟨k, e⟩, he, rfl⟩ := mem_map.mp hp
    obtain ⟨a, ha, hk, hea⟩ := mem_logOf.mp he
    cases a with
    | insert type es =>
      subst hk
      rw [(h.net.insert e he).1] at hbef
      cases hbef
    | update u =>
      subst hk
      rw [(h.net.update e he).2] at hnow
      cases hnow
    | delete u =>
      subst hk
      rw [(h.net.delete e he).1, Option.some.injEq] at hbef
      rw [commit, (filter_holds h.net.nodup ha hea).1, ← hbef, ← mem_singleton.mp hea]
  updated := by
    intro p d attributes hbef hsome hmod
    obtain ⟨d', hnow⟩ := Option.isSome_iff_exists.mp hsome
    have hp := h.recorded p d' hnow (h.modified p attributes d' hmod hnow)
    obtain ⟨⟨k, e⟩, he, rfl⟩ := mem_map.mp hp
    obtain ⟨a, ha, hk, hea⟩ := mem_logOf.mp he
    cases a with
    | insert type es =>
      subst hk
      rw [(h.net.insert e he).1] at hbef
      cases hbef
    | update u =>
      subst hk
      rw [(h.net.update e he).1, Option.some.injEq] at hbef
      rw [commit, (filter_holds h.net.nodup ha hea).1, ← hbef, ← mem_singleton.mp hea]
    | delete u =>
      subst hk
      rw [(h.net.delete e he).2] at hnow
      cases hnow
  gone := fun p hbef hnow => filter_holds_eq_nil (h.net.not_mem_of_none hbef hnow)

/-- **The actions handed to `on_commit` are the net effect of the calls**, in every run in which the
indices of removed objects are right. -/
theorem netEffect_of_run {store : ObjectStore} (hstore : Mapped [] store)
    (objects : ProxyPtr → Attributes) (ops : List Op)
    (h : RunMeets step LogFits (begin store objects) ops) :
    NetEffect (begin store objects) ops (ops.foldl step (begin store objects)) :=
  (RunMeets.invariant_trace step_logInv (logInv_begin hstore objects) h).netEffect

def shelf : ObjectStore :=
  [.attach "book" "B" true none, .attach "shelf" "S" true none, .attach "label" "L" true none,
    .insert (.cons ⟨"B", .long, .integral 64 0⟩ .nil .nil)].foldl ObjectStore.step ObjectStore.empty

theorem mapped_shelf : Mapped [] shelf :=
  RunMeets.invariant step_mapped mapped_empty
    (show RunMeets ObjectStore.step ObjectStore.Allowed ObjectStore.empty _ by decide)

/-- All kinds of calls; the book that was on the shelf is modified and removed. -/
def reshelved : List Op :=
  [.insert ⟨"B", .long, .integral 64 0⟩ [], .insert ⟨"B", .long, .integral 64 0⟩ [],
    .modify 7 [], .insert ⟨"L", .long, .integral 64 0⟩ [], .modify 8 [], .remove 8, .remove 7]

theorem netEffect_of_shelf : RunMeets step LogFits (begin shelf fun _ => []) reshelved ∧
    NetEffect (begin shelf fun _ => []) reshelved
      (reshelved.foldl step (begin shelf fun _ => [])) :=
  ⟨by decide, netEffect_of_run mapped_shelf _ _ (by decide)⟩

def unshelved : List Op :=
  [.insert ⟨"B", .long, .integral 64 0⟩ [], .insert ⟨"S", .long, .integral 64 0⟩ [],
    .insert ⟨"L", .long, .integral 64 0⟩ [], .remove 8, .remove 9]

/-- When the `insert_action` of the books gets empty and is erased, the index of the shelf leads to
the labels: the removed shelf stays in its `insert_action`. -/
theorem removed_shelf_is_committed : ¬NetEffect (begin shelf fun _ => []) unshelved
    (unshelved.foldl step (begin shelf fun _ => [])) := by
  intro h
  have hgone := h.gone 9 (by decide) (by decide)
  revert hgone
  decide

end TransactionState

end Matador.Object
