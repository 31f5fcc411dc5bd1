import Matador.Orm.Persistence
import Matador.Object.NetEffect

/-!
# Flushing brings the database in sync

Between two flushes the queue is the net effect of the changes (`Net`), and every queued update or
removal is bound to the key its object has in the database (`QueueInv`). The flush then changes the
rows of one object after the other; `Progress` describes the tables while the changes `ys` are still
to come.
-/

namespace Matador.Orm

open Function List Lib Object TransactionState

/-! ## The queue as a log -/

def ChangeAction.kind : ChangeAction → ActionKind
  | .insert => .insert
  | .update => .update
  | .remove => .delete

def ProxyChange.log (c : ProxyChange) : ActionKind × Entry := (c.action.kind, c.entry)

section Queue

variable {p : ProxyPtr} {queue : List ProxyChange} {c : ProxyChange} {e : Entry}

theorem map_log_proxy (queue : List ProxyChange) :
    ((queue.map ProxyChange.log).map fun x => x.2.proxy) = queue.map fun c => c.entry.proxy := by
  rw [map_map]
  rfl

theorem mem_map_log (hc : c ∈ queue) : (c.action.kind, c.entry) ∈ queue.map ProxyChange.log :=
  mem_map_of_mem hc

theorem findChange_eq_none : findChange p queue = none ↔ p ∉ queue.map fun c => c.entry.proxy := by
  simp [findChange]

theorem findChange_split (h : findChange p queue = some c) :
    c.entry.proxy = p ∧ ∃ as bs, queue = as ++ c :: bs ∧ ∀ x ∈ as, x.entry.proxy ≠ p := by
  obtain ⟨hc, as, bs, hq, has⟩ := find?_eq_some_iff_append.mp h
  refine ⟨of_decide_eq_true hc, as, bs, hq, fun x hx hxp => ?_⟩
  have hnot := has x hx
  simp [hxp] at hnot

theorem setAction_append {as bs : List ProxyChange} (has : ∀ x ∈ as, x.entry.proxy ≠ p)
    (hc : c.entry.proxy = p) (action : ChangeAction) :
    setAction p action (as ++ c :: bs) = as ++ { c with action := action } :: bs := by
  induction as with
  | nil => rw [nil_append, setAction, if_pos hc, nil_append]
  | cons x as ih =>
    rw [cons_append, setAction, if_neg (has x (by simp)), ih fun y hy => has y (by simp [hy])]
    rfl

theorem eraseP_append {as bs : List ProxyChange} (has : ∀ x ∈ as, x.entry.proxy ≠ p)
    (hc : c.entry.proxy = p) : (as ++ c :: bs).eraseP (fun c => c.entry.proxy = p) = as ++ bs := by
  rw [eraseP_append_right _ fun x hx =>
    by simpa using has x hx, eraseP_cons_of_pos (by simpa using hc)]

end Queue

namespace Session

/-! ## The invariant of the queue -/

/-- The queue and the map of keys after a flush that left `s₀`. -/
structure QueueInv (s₀ s : Session) : Prop where
  mapped : Mapped [] s.store
  net : Net s₀.proxies s.proxies s₀.store.seq (s.proxyChangeQueue.map ProxyChange.log)
  database : s.database = s₀.database
  tables : s.tables = s₀.tables
  untouched : ∀ p, (s₀.proxies p).isSome → (p ∉ s.proxyChangeQueue.map fun c => c.entry.proxy) →
    s.objects p = s₀.objects p
  bound : ∀ c ∈ s.proxyChangeQueue, c.action ≠ .insert →
    c.entry.data.pk.bound = (s₀.objects c.entry.proxy).key
  ident : ∀ c ∈ s.proxyChangeQueue, c.action = .update →
    s.proxyIdentifierMap c.entry.proxy = some c.entry.data.pk
  keyed : ∀ p k d, s.proxyIdentifierMap p = some k → s.proxies p = some d → k = d.pk
  addresses : ∀ p, s.store.lists.tree.nextProxy ≤ p →
    s₀.proxies p = none ∧ s.proxyIdentifierMap p = none
  seq_le : s₀.store.seq ≤ s.store.seq

/-- The first change of an object finds the key of the proxy up to date. -/
def Fits (s : Session) : Op → Prop
  | .insert _ _ => s.store.seq + 1 < 2 ^ 64
  | .modify p _ | .remove p =>
    ∀ d ∈ s.proxies p, (p ∉ s.proxyChangeQueue.map fun c => c.entry.proxy) →
      d.pk.bound = (s.objects p).key

instance (s : Session) (op : Op) : Decidable (s.Fits op) :=
  match op with
  | .insert _ _ => inferInstanceAs (Decidable (s.store.seq + 1 < 2 ^ 64))
  | .modify p _ | .remove p => inferInstanceAs (Decidable (∀ d ∈ s.proxies p,
      (p ∉ s.proxyChangeQueue.map fun c => c.entry.proxy) → d.pk.bound = (s.objects p).key))

structure Flushed (s : Session) : Prop where
  mapped : Mapped [] s.store
  queue : s.proxyChangeQueue = []
  ident : s.proxyIdentifierMap = fun _ => none
  sync : s.InSync
  distinct : s.KeysDistinct

theorem queueInv_flushed {s : Session} (h : Flushed s) : QueueInv s s where
  mapped := h.mapped
  net := by
    rw [h.queue]
    exact ⟨nodup_nil, by simp, by simp, by simp, fun _ _ => rfl⟩
  database := rfl
  tables := rfl
  untouched := fun _ _ _ => rfl
  bound := by simp [h.queue]
  ident := by simp [h.queue]
  keyed := by simp [h.ident]
  addresses := fun p hp => ⟨proxies_eq_none_of_le h.mapped hp, by rw [h.ident]⟩
  seq_le := Nat.le_refl _

section Steps

variable {s₀ s : Session} {p : ProxyPtr} {d : ObjectProxy}

section

variable (h : QueueInv s₀ s)

include h

theorem QueueInv.insert {o : NewObject} (hseq : s.store.seq + 1 < 2 ^ 64)
    (attributes : Attributes) : QueueInv s₀ (s.insert o attributes) := by
  unfold Session.insert
  cases hlink : s.store.link o with
  | error m => exact h
  | ok r =>
    obtain ⟨store, p, d⟩ := r
    obtain ⟨hmap, hstd, -⟩ := h.mapped.link hseq hlink
    obtain ⟨hp, hid, hle, hnext, hpxs⟩ := link_store hseq hlink
    have hbef := (h.addresses p hp.ge).1
    have hfsh := h.net.not_mem_of_none hbef (proxies_eq_none_of_le h.mapped hp.ge)
    have hque : registerProxyInsert ⟨p, d⟩ s.proxyChangeQueue =
        s.proxyChangeQueue ++ [⟨⟨p, d⟩, .insert⟩] := by
      rw [registerProxyInsert, findChange_eq_none.mpr (map_log_proxy _ ▸ hfsh)]
    simp only [hque]
    refine ⟨hmap.mapProxy (by simp) hstd, ?_, h.database, h.tables, ?_, ?_, ?_, ?_, ?_, ?_⟩
    · show Net s₀.proxies store.lists.proxies s₀.store.seq
        ((s.proxyChangeQueue ++ [(⟨⟨p, d⟩, .insert⟩ : ProxyChange)]).map ProxyChange.log)
      rw [hpxs, map_append]
      refine (h.net.cons (k := .insert) (e := ⟨p, d⟩) hfsh ⟨hbef, rfl, ?_⟩).perm perm_append_comm
      rw [hid]
      exact Nat.lt_succ_of_le h.seq_le
    · intro q hq hque
      simp only [map_append, mem_append, not_or] at hque
      have hqp : q ≠ p := fun hc => hque.2 (by simp [hc])
      show update s.objects p _ q = s₀.objects q
      rw [update_of_ne hqp]
      exact h.untouched q hq hque.1
    · intro c hc hca
      rcases mem_append.mp hc with hc | hc
      · exact h.bound c hc hca
      · rw [mem_singleton.mp hc] at hca
        exact absurd rfl hca
    · intro c hc hca
      rcases mem_append.mp hc with hc | hc
      · exact h.ident c hc hca
      · rw [mem_singleton.mp hc] at hca
        cases hca
    · intro q k d' hk hd'
      have hqp : q ≠ p := by
        rintro rfl
        rw [(h.addresses q hp.ge).2] at hk
        cases hk
      have hd' : store.lists.proxies q = some d' := hd'
      rw [hpxs, update_of_ne hqp] at hd'
      exact h.keyed q k d' hk hd'
    · intro q hq
      refine h.addresses q ?_
      have : store.lists.tree.nextProxy ≤ q := hq
      lia
    · exact h.seq_le.trans ((Nat.le_succ _).trans hle)

theorem QueueInv.before (hd : s.proxies p = some d)
    (hp : p ∉ s.proxyChangeQueue.map fun c => c.entry.proxy) :
    s₀.proxies p = some d ∧ s.objects p = s₀.objects p := by
  have hbef : s₀.proxies p = some d := (h.net.eq_before ((map_log_proxy _).symm ▸ hp)).symm.trans hd
  exact ⟨hbef, h.untouched p (by rw [hbef]; rfl) hp⟩

theorem QueueInv.identMap (hd : s.proxies p = some d) :
    insertNew s.proxyIdentifierMap p d.pk p = some d.pk ∧
    (∀ q k, s.proxyIdentifierMap q = some k → insertNew s.proxyIdentifierMap p d.pk q = some k) ∧
    (∀ q k d', insertNew s.proxyIdentifierMap p d.pk q = some k → s.proxies q = some d' →
      k = d'.pk) ∧
    ∀ q, s.store.lists.tree.nextProxy ≤ q → insertNew s.proxyIdentifierMap p d.pk q = none := by
  have hiden : insertNew s.proxyIdentifierMap p d.pk p = some d.pk := by
    cases hk : s.proxyIdentifierMap p with
    | none => rw [insertNew_of_none hk, update_self]
    | some k => rw [insertNew, hk, ← h.keyed p k d hk hd, Option.isSome_some, if_pos rfl, hk]
  refine ⟨hiden, fun q k hk => ?_, fun q k d' hk hd' => ?_, fun q hq => ?_⟩
  · by_cases hq : q = p
    · rw [hq] at hk ⊢
      rw [hiden, h.keyed p k d hk hd]
    · rw [insertNew_of_ne hq, hk]
  · by_cases hq : q = p
    · rw [hq] at hk hd'
      rw [hiden, Option.some.injEq] at hk
      rw [hd, Option.some.injEq] at hd'
      rw [← hk, hd']
    · rw [insertNew_of_ne hq] at hk
      exact h.keyed q k d' hk hd'
  · have hnow : s.proxies q = none := proxies_eq_none_of_le h.mapped hq
    rw [insertNew_of_ne, (h.addresses q hq).2]
    rintro rfl
    rw [hd] at hnow
    cases hnow

theorem QueueInv.modify (record : Record) (hfits : s.Fits (.modify p record)) :
    QueueInv s₀ (s.modify p record) := by
  unfold Session.modify
  cases hd : s.proxies p with
  | none => exact h
  | some d =>
    obtain ⟨hiden, hold, hkey, hnone⟩ := h.identMap hd
    have hadd := fun q hq => And.intro (h.addresses q hq).1 (hnone q hq)
    cases hfind : findChange p s.proxyChangeQueue with
    | some c =>
      obtain ⟨hcp, as, bs, hq, -⟩ := findChange_split hfind
      have hmem : p ∈ s.proxyChangeQueue.map fun c => c.entry.proxy := by simp [hq, hcp]
      have hque : registerProxyUpdate ⟨p, d⟩ s.proxyChangeQueue = s.proxyChangeQueue := by
        rw [registerProxyUpdate, hfind]
      simp only [hque]
      refine { h with untouched := ?_, ident := ?_, keyed := hkey, addresses := hadd }
      · intro q hq hque
        have hqp : q ≠ p := by
          rintro rfl
          exact hque hmem
        exact (update_of_ne hqp _ _).trans (h.untouched q hq hque)
      · exact fun c hc hca => hold _ _ (h.ident c hc hca)
    | none =>
      have hmem := findChange_eq_none.mp hfind
      have hque : registerProxyUpdate ⟨p, d⟩ s.proxyChangeQueue =
          s.proxyChangeQueue ++ [⟨⟨p, d⟩, .update⟩] := by
        rw [registerProxyUpdate, hfind]
      simp only [hque]
      refine ⟨h.mapped, ?_, h.database, h.tables, ?_, ?_, ?_, hkey, hadd, h.seq_le⟩
      · rw [map_append]
        exact (h.net.cons_update hd ((map_log_proxy _).symm ▸ hmem)).perm perm_append_comm
      · intro q hq hque
        simp only [map_append, mem_append, not_or] at hque
        have hqp : q ≠ p := fun hc => hque.2 (by simp [hc])
        exact (update_of_ne hqp _ _).trans (h.untouched q hq hque.1)
      · intro c hc hca
        rcases mem_append.mp hc with hc | hc
        · exact h.bound c hc hca
        · rw [mem_singleton.mp hc]
          exact (hfits d hd hmem).trans (by rw [(h.before hd hmem).2])
      · intro c hc hca
        rcases mem_append.mp hc with hc | hc
        · exact hold _ _ (h.ident c hc hca)
        · rw [mem_singleton.mp hc]
          exact hiden

theorem QueueInv.delete_cases (hd : s.proxies p = some d) :
    ((p ∉ s.proxyChangeQueue.map fun c => c.entry.proxy) ∧
        registerProxyDelete ⟨p, d⟩ s.proxyChangeQueue = s.proxyChangeQueue ++ [⟨⟨p, d⟩, .remove⟩]) ∨
      ∃ as bs, (s.proxyChangeQueue = as ++ ⟨⟨p, d⟩, .insert⟩ :: bs ∧
          registerProxyDelete ⟨p, d⟩ s.proxyChangeQueue = as ++ bs) ∨
        s.proxyChangeQueue = as ++ ⟨⟨p, d⟩, .update⟩ :: bs ∧
          registerProxyDelete ⟨p, d⟩ s.proxyChangeQueue = as ++ ⟨⟨p, d⟩, .remove⟩ :: bs := by
  cases hfind : findChange p s.proxyChangeQueue with
  | none => exact .inl ⟨findChange_eq_none.mp hfind, by rw [registerProxyDelete, hfind]⟩
  | some c =>
    obtain ⟨⟨q, d'⟩, action⟩ := c
    obtain ⟨rfl, as, bs, hq, has⟩ := findChange_split hfind
    have hmem : (action.kind, ⟨q, d'⟩) ∈ s.proxyChangeQueue.map ProxyChange.log :=
      mem_map.mpr ⟨⟨⟨q, d'⟩, action⟩, by simp [hq], rfl⟩
    obtain ⟨rfl, hkind⟩ := h.net.data_eq hmem hd
    refine .inr ⟨as, bs, ?_⟩
    cases action with
    | insert =>
      refine .inl ⟨hq, ?_⟩
      rw [registerProxyDelete, hfind]
      rw [hq, eraseP_append has rfl]
    | update =>
      refine .inr ⟨hq, ?_⟩
      rw [registerProxyDelete, hfind]
      rw [hq, setAction_append has rfl]
    | remove => exact absurd rfl hkind

theorem QueueInv.removed {store : ObjectStore} (hd : s.proxies p = some d)
    (hsto : s.store.removeProxy p d = .ok store) {queue : List ProxyChange}
    (hnet : Net s₀.proxies (update s.proxies p none) s₀.store.seq (queue.map ProxyChange.log))
    (hunt : ∀ q, (s₀.proxies q).isSome → (q ∉ queue.map fun c => c.entry.proxy) →
      q ∉ s.proxyChangeQueue.map fun c => c.entry.proxy)
    (hbou : ∀ c ∈ queue, c.action ≠ .insert →
      c.entry.data.pk.bound = (s₀.objects c.entry.proxy).key)
    (hiden : ∀ c ∈ queue, c.action = .update → c ∈ s.proxyChangeQueue) :
    QueueInv s₀ { s with store := store, proxyChangeQueue := queue } := by
  obtain ⟨hseq, hnext, hpxs⟩ := removeProxy_store hsto
  refine ⟨h.mapped.removeProxy hd hsto, ?_, h.database, h.tables, ?_, hbou, ?_, ?_, ?_, ?_⟩
  · show Net s₀.proxies store.lists.proxies s₀.store.seq (queue.map ProxyChange.log)
    rw [hpxs]
    exact hnet
  · exact fun q hq hque => h.untouched q hq (hunt q hq hque)
  · exact fun c hc hca => h.ident c (hiden c hc hca) hca
  · intro q k d' hk hd'
    have hd' : store.lists.proxies q = some d' := hd'
    rw [hpxs, update_apply] at hd'
    split at hd'
    · cases hd'
    · exact h.keyed q k d' hk hd'
  · exact fun q hq => h.addresses q (hnext ▸ hq)
  · exact h.seq_le.trans hseq.ge

theorem QueueInv.remove (hfits : s.Fits (.remove p)) : QueueInv s₀ (s.remove p) := by
  unfold Session.remove
  cases hd : s.proxies p with
  | none => exact h
  | some d =>
    simp only
    cases hsto : s.store.removeProxy p d with
    | error m => exact h
    | ok store =>
      rcases h.delete_cases hd with ⟨hmem, hque⟩ | ⟨as, bs, ⟨hq, hque⟩ | ⟨hq, hque⟩⟩
      · simp only [hque]
        obtain ⟨hbef, hobj⟩ := h.before hd hmem
        refine h.removed hd hsto ?_ ?_ ?_ ?_
        · rw [map_append]
          exact (h.net.cons (k := .delete) (e := ⟨p, d⟩) ((map_log_proxy _).symm ▸ hmem)
            ⟨hbef, rfl⟩).perm
            perm_append_comm
        · intro q _ hq hc
          exact hq (by rw [map_append]; exact mem_append_left _ hc)
        · intro c hc hca
          rcases mem_append.mp hc with hc | hc
          · exact h.bound c hc hca
          · rw [mem_singleton.mp hc]
            exact (hfits d hd hmem).trans (by rw [hobj])
        · intro c hc hca
          rcases mem_append.mp hc with hc | hc
          · exact hc
          · rw [mem_singleton.mp hc] at hca
            cases hca
      · simp only [hque]
        have hnet := h.net
        rw [hq, map_append] at hnet
        have hnet := hnet.perm perm_middle.symm
        have hsub : ∀ c ∈ as ++ bs, c ∈ s.proxyChangeQueue := by
          intro c hc
          rw [hq]
          exact mem_append.mpr ((mem_append.mp hc).imp_right (mem_cons_of_mem _))
        refine h.removed hd hsto ?_ ?_ (fun c hc => h.bound c (hsub c hc)) fun c hc _ => hsub c hc
        · rw [map_append]
          exact hnet.tail_insert
        · intro q hsome hque hc
          rw [hq] at hc
          simp only [map_append, map_cons, mem_append, mem_cons, not_or]
            at hque hc
          rcases hc with hc | hc | hc
          · exact hque.1 hc
          · rw [hc, (hnet.insert ⟨p, d⟩ mem_cons_self).1] at hsome
            cases hsome
          · exact hque.2 hc
      · simp only [hque]
        have hnet := h.net
        rw [hq, map_append] at hnet
        have hnet := hnet.perm perm_middle.symm
        have hmem : (⟨⟨p, d⟩, .update⟩ : ProxyChange) ∈ s.proxyChangeQueue := by
          rw [hq]
          exact mem_append_right _ mem_cons_self
        have hsub : ∀ c ∈ as ++ (⟨⟨p, d⟩, .remove⟩ : ProxyChange) :: bs, c ∈ s.proxyChangeQueue ∨
            c = ⟨⟨p, d⟩, .remove⟩ := by
          intro c hc
          rw [hq]
          simp only [mem_append, mem_cons] at hc ⊢
          tauto
        refine h.removed hd hsto ?_ ?_ ?_ ?_
        · rw [map_append]
          exact hnet.update_to_delete.perm perm_middle
        · intro q _ hque hc
          rw [hq] at hc
          exact hque (by simpa using hc)
        · intro c hc hca
          rcases hsub c hc with hc | rfl
          · exact h.bound c hc hca
          · exact h.bound ⟨⟨p, d⟩, .update⟩ hmem (by simp)
        · intro c hc hca
          rcases hsub c hc with hc | rfl
          · exact hc
          · cases hca

end

/-- **Every change that fits keeps the invariant.** -/
theorem step_queueInv (s : Session) (op : Op) (h : QueueInv s₀ s) (hop : s.Fits op) :
    QueueInv s₀ (s.step op) := by
  cases op with
  | insert o attributes => exact h.insert hop attributes
  | modify p record => exact h.modify record hop
  | remove p => exact h.remove hop

end Steps

/-! ## The flush -/

variable {p : ProxyPtr}

section Flush

/-- The keys in the database stay apart while the queue is executed. -/
structure FlushFits (s : Session) : Prop where
  distinct : s.KeysDistinct
  /-- no row takes the key of a row that is rewritten or deleted later -/
  order : s.proxyChangeQueue.Pairwise fun x y => x.action ≠ .remove → y.action ≠ .insert →
    x.entry.data.node = y.entry.data.node → (s.objects x.entry.proxy).key ≠ y.entry.data.pk.bound

variable {s₀ s : Session} {c : ProxyChange} {ys : List ProxyChange}

/-- The proxy is still to be written. -/
abbrev Pending (ys : List ProxyChange) (p : ProxyPtr) : Prop := p ∈ ys.map fun c => c.entry.proxy

/-- The objects that a table shows while `ys` is still to be executed. -/
def shown (s₀ s : Session) (ys : List ProxyChange) (type : String) : Set ProxyPtr :=
  {p | ∃ d, (if Pending ys p then s₀.proxies p else s.proxies p) = some d ∧ d.node = type}

def recordAt (s₀ s : Session) (ys : List ProxyChange) (p : ProxyPtr) : Record :=
  if Pending ys p then s₀.objects p else s.objects p

/-- The database while `ys` is still to be executed. -/
def Progress (s₀ s : Session) (ys : List ProxyChange) (database : String → Table) : Prop :=
  ∀ type ∈ s.tables, Stores (database type) (shown s₀ s ys type)
    (fun p => (recordAt s₀ s ys p).key) fun p => (recordAt s₀ s ys p).attributes

variable {type : String}

theorem mem_shown : p ∈ shown s₀ s ys type ↔
      ∃ d, (if Pending ys p then s₀.proxies p else s.proxies p) = some d ∧ d.node = type := Iff.rfl

theorem pending_cons : Pending (c :: ys) p ↔ p = c.entry.proxy ∨ Pending ys p := by
  simp [Pending]

theorem mem_shown_cons (hp : p ≠ c.entry.proxy) :
    p ∈ shown s₀ s (c :: ys) type ↔ p ∈ shown s₀ s ys type := by
  rw [mem_shown, mem_shown, if_congr (pending_cons.trans (or_iff_right hp)) rfl rfl]

theorem recordAt_cons (hp : p ≠ c.entry.proxy) :
    recordAt s₀ s ys p = recordAt s₀ s (c :: ys) p := by
  rw [recordAt, recordAt, if_congr (pending_cons.trans (or_iff_right hp)) rfl rfl]

theorem progress_start (h : QueueInv s₀ s) (hsta : Flushed s₀) :
    Progress s₀ s s.proxyChangeQueue s.database := by
  intro type htype
  rw [h.tables] at htype
  have hsync : Stores (s₀.database type) {p | ∃ d, s₀.proxies p = some d ∧ d.node = type}
      (fun p => (s₀.objects p).key) fun p => (s₀.objects p).attributes := by
    refine ⟨fun k r => ?_, ?_⟩
    · rw [hsta.sync type htype]
      constructor
      · rintro ⟨p, d, hd, hnode, hkey, hattr⟩
        exact ⟨p, ⟨d, hd, hnode⟩, hkey, hattr⟩
      · rintro ⟨p, ⟨d, hd, hnode⟩, hkey, hattr⟩
        exact ⟨p, d, hd, hnode, hkey, hattr⟩
    · rintro p ⟨d, hd, hnode⟩ q ⟨d', hd', hnode'⟩ hkey
      exact hsta.distinct p q d d' hd hd' (hnode.trans hnode'.symm) hkey
  have hpxs : ∀ p, ¬Pending s.proxyChangeQueue p → s.proxies p = s₀.proxies p := fun p hp =>
    h.net.eq_before ((map_log_proxy _).symm ▸ hp)
  have hrec : ∀ p, (s₀.proxies p).isSome → recordAt s₀ s s.proxyChangeQueue p = s₀.objects p := by
    intro p hp
    unfold recordAt
    split
    · rfl
    · next hq => exact h.untouched p hp hq
  rw [h.database]
  refine hsync.congr ?_ ?_ ?_
  · ext p
    rw [mem_shown]
    split
    · rfl
    · next hp =>
      rw [hpxs p hp]
      rfl
  · rintro p ⟨d, hd, -⟩
    exact congrArg Record.key (hrec p (by rw [hd]; rfl))
  · rintro p ⟨d, hd, -⟩
    exact congrArg Record.attributes (hrec p (by rw [hd]; rfl))

theorem inSync_of_progress {database : String → Table} (h : Progress s₀ s [] database) :
    InSync { s with
      database := database, proxyChangeQueue := [], proxyIdentifierMap := fun _ => none } := by
  intro type htype key attributes
  rw [(h type htype).rows]
  constructor
  · rintro ⟨p, ⟨d, hd, hnode⟩, hkey, hattr⟩
    exact ⟨p, d, hd, hnode, hkey, hattr⟩
  · rintro ⟨p, d, hd, hnode, hkey, hattr⟩
    exact ⟨p, ⟨d, hd, hnode⟩, hkey, hattr⟩

section

variable (h : QueueInv s₀ s)

include h

theorem QueueInv.change (hc : c ∈ s.proxyChangeQueue) :
    (s₀.proxies c.entry.proxy = if c.action = .insert then none else some c.entry.data) ∧
      s.proxies c.entry.proxy = if c.action = .remove then none else some c.entry.data := by
  have hmem := mem_map_log hc
  obtain ⟨e, action⟩ := c
  cases action with
  | insert =>
    obtain ⟨hbef, hnow, -⟩ := h.net.insert e hmem
    exact ⟨hbef, hnow⟩
  | update => exact h.net.update e hmem
  | remove => exact h.net.delete e hmem

theorem QueueInv.free (hfits : s.FlushFits) (hc : c ∈ s.proxyChangeQueue)
    (hca : c.action ≠ .remove) (hys : ∀ y ∈ ys, y ∈ s.proxyChangeQueue)
    (hord : ∀ y ∈ ys, y.action ≠ .insert → c.entry.data.node = y.entry.data.node →
      (s.objects c.entry.proxy).key ≠ y.entry.data.pk.bound) {q : ProxyPtr}
    (hq : q ∈ shown s₀ s (c :: ys) c.entry.data.node) (hqc : q ≠ c.entry.proxy) :
    (recordAt s₀ s (c :: ys) q).key ≠ (s.objects c.entry.proxy).key := by
  rw [mem_shown_cons hqc] at hq
  rw [← recordAt_cons hqc]
  obtain ⟨d, hd, hnode⟩ := hq
  unfold recordAt
  split
  · next hpen =>
    -- its row is still the old one
    rw [if_pos hpen] at hd
    obtain ⟨y, hy, rfl⟩ := mem_map.mp hpen
    have hbef := (h.change (hys y hy)).1
    have hya : y.action ≠ .insert := by
      intro hya
      rw [hd, if_pos hya] at hbef
      cases hbef
    rw [hd, if_neg hya, Option.some.injEq] at hbef
    rw [← h.bound y (hys y hy) hya]
    exact (hord y hy hya (by rw [← hbef, hnode])).symm
  · next hpen =>
    rw [if_neg hpen] at hd
    intro hkey
    have hstd := (h.change hc).2
    rw [if_neg hca] at hstd
    exact hqc (hfits.distinct _ _ _ _ hd hstd hnode hkey)

/-- **One statement brings the row of one object up to date.** -/
theorem QueueInv.statement (hfits : s.FlushFits) (hc : c ∈ s.proxyChangeQueue)
    (hys : ∀ y ∈ ys, y ∈ s.proxyChangeQueue)
    (hord : ∀ y ∈ ys, c.action ≠ .remove → y.action ≠ .insert →
      c.entry.data.node = y.entry.data.node → (s.objects c.entry.proxy).key ≠ y.entry.data.pk.bound)
    (hnew : ¬Pending ys c.entry.proxy) {t : Table}
    (ht : Stores t (shown s₀ s (c :: ys) c.entry.data.node)
      (fun p => (recordAt s₀ s (c :: ys) p).key) fun p => (recordAt s₀ s (c :: ys) p).attributes) :
    ∃ t', s.statement c t = .ok t' ∧ Stores t' (shown s₀ s ys c.entry.data.node)
      (fun p => (recordAt s₀ s ys p).key) fun p => (recordAt s₀ s ys p).attributes := by
  obtain ⟨hbef, hnow⟩ := h.change hc
  have hpen : Pending (c :: ys) c.entry.proxy := pending_cons.mpr (.inl rfl)
  have hold : recordAt s₀ s (c :: ys) c.entry.proxy = s₀.objects c.entry.proxy := if_pos hpen
  have hrec : recordAt s₀ s ys c.entry.proxy = s.objects c.entry.proxy := if_neg hnew
  have hkey : ∀ I : Set ProxyPtr, c.entry.proxy ∉ I → Set.EqOn
      (fun p => (recordAt s₀ s ys p).key) (fun p => (recordAt s₀ s (c :: ys) p).key) I :=
    fun I hI q hq => congrArg Record.key (recordAt_cons fun hqc => hI (hqc ▸ hq))
  have hrow : ∀ I : Set ProxyPtr, c.entry.proxy ∉ I → Set.EqOn
      (fun p => (recordAt s₀ s ys p).attributes) (fun p =>
        (recordAt s₀ s (c :: ys) p).attributes) I :=
    fun I hI q hq => congrArg Record.attributes (recordAt_cons fun hqc => hI (hqc ▸ hq))
  unfold Session.statement
  cases hca : c.action with
  | insert =>
    simp only [hca] at hbef hnow
    have hnot : c.entry.proxy ∉ shown s₀ s (c :: ys) c.entry.data.node := by
      rintro ⟨d, hd, -⟩
      rw [if_pos hpen, hbef] at hd
      cases hd
    have hI : shown s₀ s ys c.entry.data.node =
        Insert.insert c.entry.proxy (shown s₀ s (c :: ys) c.entry.data.node) := by
      ext q
      by_cases hq : q = c.entry.proxy
      · subst hq
        exact iff_of_true ⟨_, (if_neg hnew).trans hnow, rfl⟩ (Set.mem_insert _ _)
      · rw [Set.mem_insert_iff, or_iff_right hq, mem_shown_cons hq]
    obtain ⟨t', ht', hsto⟩ := ht.insertRow hnot _ _ hI (hkey _ hnot) (hrow _ hnot) fun q hq => by
        rw [hrec]
        exact h.free hfits hc (by simp [hca]) hys (fun y hy => hord y hy (by simp [hca])) hq
          fun hqc => hnot (hqc ▸ hq)
    refine ⟨t', ?_, hsto⟩
    simp only [hrec] at ht'
    simp only [ht']
  | update =>
    simp only [hca] at hbef hnow
    have hmem : c.entry.proxy ∈ shown s₀ s (c :: ys) c.entry.data.node :=
      ⟨_, (if_pos hpen).trans hbef, rfl⟩
    have hI : shown s₀ s ys c.entry.data.node = shown s₀ s (c :: ys) c.entry.data.node := by
      ext q
      by_cases hq : q = c.entry.proxy
      · subst hq
        exact iff_of_true ⟨_, (if_neg hnew).trans hnow, rfl⟩ hmem
      · rw [mem_shown_cons hq]
    obtain ⟨t', ht', hsto⟩ :=
      ht.updateRow hmem _ _ (hkey _ (by simp)) (hrow _ (by simp)) fun q hq hqc => by
        rw [hrec]
        exact h.free hfits hc (by simp [hca]) hys (fun y hy => hord y hy (by simp [hca])) hq hqc
    refine ⟨t', ?_, hI ▸ hsto⟩
    simp only [hrec, hold, ← h.bound c hc (by simp [hca])] at ht'
    simp only [h.ident c hc hca, ht']
  | remove =>
    simp only [hca] at hbef hnow
    have hmem : c.entry.proxy ∈ shown s₀ s (c :: ys) c.entry.data.node :=
      ⟨_, (if_pos hpen).trans hbef, rfl⟩
    have hI : shown s₀ s ys c.entry.data.node =
        shown s₀ s (c :: ys) c.entry.data.node \ {c.entry.proxy} := by
      ext q
      by_cases hq : q = c.entry.proxy
      · subst hq
        refine iff_of_false ?_ (by simp)
        rintro ⟨d, hd, -⟩
        rw [if_neg hnew, hnow] at hd
        cases hd
      · rw [Set.mem_sdiff, Set.mem_singleton_iff, and_iff_left hq, mem_shown_cons hq]
    have hnot : c.entry.proxy ∉ shown s₀ s ys c.entry.data.node := by simp [hI]
    have hsto := ht.deleteRow hmem hI (hkey _ hnot) (hrow _ hnot)
    simp only [hold, ← h.bound c hc (by simp [hca])] at hsto
    exact ⟨_, rfl, hsto⟩

theorem QueueInv.other_type (hc : c ∈ s.proxyChangeQueue)
    (hnew : ¬Pending ys c.entry.proxy) (htype : type ≠ c.entry.data.node) {t : Table}
    (ht : Stores t (shown s₀ s (c :: ys) type)
      (fun p => (recordAt s₀ s (c :: ys) p).key) fun p => (recordAt s₀ s (c :: ys) p).attributes) :
    Stores t (shown s₀ s ys type) (fun p => (recordAt s₀ s ys p).key) fun p =>
    (recordAt s₀ s ys p).attributes := by
  obtain ⟨hbef, hnow⟩ := h.change hc
  have hnot : c.entry.proxy ∉ shown s₀ s (c :: ys) type := by
    rintro ⟨d, hd, hnode⟩
    rw [if_pos (pending_cons.mpr (.inl rfl)), hbef] at hd
    split at hd
    · cases hd
    · exact htype (by rw [← hnode, Option.some.inj hd])
  have hnot' : c.entry.proxy ∉ shown s₀ s ys type := by
    rintro ⟨d, hd, hnode⟩
    rw [if_neg hnew, hnow] at hd
    split at hd
    · cases hd
    · exact htype (by rw [← hnode, Option.some.inj hd])
  refine ht.congr ?_ ?_ ?_
  · ext q
    by_cases hq : q = c.entry.proxy
    · subst hq
      exact iff_of_false hnot' hnot
    · rw [mem_shown_cons hq]
  · exact fun q hq => congrArg Record.key (recordAt_cons fun hqc => hnot (hqc ▸ hq))
  · exact fun q hq => congrArg Record.attributes (recordAt_cons fun hqc => hnot (hqc ▸ hq))

/-- **The loop of the flush brings all tables up to date.** -/
theorem QueueInv.executeAll (hfits : s.FlushFits) {ys : List ProxyChange}
    (hys : ys.Sublist s.proxyChangeQueue) {database : String → Table}
    (hdb : Progress s₀ s ys database) :
    ∃ database', s.executeAll ys database = .ok database' ∧ Progress s₀ s [] database' := by
  induction ys generalizing database with
  | nil => exact ⟨database, rfl, hdb⟩
  | cons c ys ih =>
    have hc : c ∈ s.proxyChangeQueue := hys.subset mem_cons_self
    have hys' : ys.Sublist s.proxyChangeQueue := (sublist_cons_self c ys).trans hys
    have hnew : ¬Pending ys c.entry.proxy := by
      have hnd := h.net.nodup
      rw [map_log_proxy] at hnd
      exact (nodup_cons.mp (hnd.sublist (hys.map _))).1
    have hord := (pairwise_cons.mp (hfits.order.sublist hys)).1
    unfold Session.executeAll
    split
    · next htbl =>
      obtain ⟨t', ht', hsto⟩ := h.statement hfits hc hys'.subset hord hnew (hdb _ htbl)
      rw [ht']
      refine ih hys' fun type htype => ?_
      by_cases hct : type = c.entry.data.node
      · rw [hct, update_self]
        exact hsto
      · rw [update_of_ne hct]
        exact h.other_type hc hnew hct (hdb type htype)
    · next htbl =>
      refine ih hys' fun type htype => ?_
      exact h.other_type hc hnew (fun hct => htbl (hct ▸ htype)) (hdb type htype)

theorem QueueInv.flush (hsta : Flushed s₀) (hfits : s.FlushFits) :
    ∃ s', s.flush = .ok s' ∧ Flushed s' ∧ s'.proxies = s.proxies ∧ s'.objects = s.objects := by
  obtain ⟨database, hdb, hpro⟩ := h.executeAll hfits (List.Sublist.refl _) (progress_start h hsta)
  refine
    ⟨{ s with database := database, proxyChangeQueue := [], proxyIdentifierMap := fun _ => none },
      ?_, ⟨h.mapped, rfl, rfl, inSync_of_progress hpro, hfits.distinct⟩, rfl, rfl⟩
  rw [Session.flush, hdb]

end

end Flush

/-- The flush after the changes `ops` leaves every table with the objects of its type in the
store. -/
def FlushSyncs (s₀ : Session) (ops : List Op) : Prop :=
  ∃ s, (ops.foldl step s₀).flush = .ok s ∧ s.InSync ∧ s.proxies = (ops.foldl step s₀).proxies ∧
    s.objects = (ops.foldl step s₀).objects

/-- **The flush brings the database in sync**, if all changes fit and the keys stay apart while the
queue is executed. -/
theorem flushSyncs_of_run {s₀ : Session} (hstart : Flushed s₀) (ops : List Op)
    (h : RunMeets step Fits s₀ ops) (hfits : (ops.foldl step s₀).FlushFits) :
    FlushSyncs s₀ ops := by
  have hinv : QueueInv s₀ (ops.foldl step s₀) :=
    RunMeets.invariant step_queueInv (queueInv_flushed hstart) h
  obtain ⟨s, hs, hflu, hpxs, hobs⟩ := hinv.flush hstart hfits
  exact ⟨s, hs, hflu.sync, hpxs, hobs⟩

theorem keysDistinct_of_lt {s : Session} (hmap : Mapped [] s.store)
    (h : ∀ p < s.store.lists.tree.nextProxy, ∀ q < s.store.lists.tree.nextProxy,
      ∀ d ∈ s.proxies p, ∀ d' ∈ s.proxies q, d.node = d'.node →
        (s.objects p).key = (s.objects q).key → p = q) : s.KeysDistinct := by
  have hlt : ∀ p d, s.proxies p = some d → p < s.store.lists.tree.nextProxy := by
    intro p d hd
    by_contra hle
    have hnone : s.proxies p = none := proxies_eq_none_of_le hmap (Nat.le_of_not_lt hle)
    rw [hd] at hnone
    cases hnone
  intro p q d d' hd hd'
  exact h p (hlt p d hd) q (hlt q d' hd') d hd d' hd'

def shelved : Session where
  store := TransactionState.shelf
  objects := fun _ => ⟨.integral 64 1, [.scalar [1]]⟩
  tables := ["book", "label"]
  database :=
    update (fun _ _ => none) "book" (update (fun _ => none) (.integral 64 1) (some [.scalar [1]]))
  proxyChangeQueue := []
  proxyIdentifierMap := fun _ => none

theorem shelved_proxies {d : ObjectProxy} :
    shelved.proxies p = some d ↔ p = 7 ∧ d = ⟨1, "B", "book", .integral 64 1⟩ := by
  have hpxs : shelved.proxies = update (fun _ => none) 7 (some ⟨1, "B", "book", .integral 64 1⟩) :=
    rfl
  rw [hpxs, update_apply]
  split
  · next hp => simp [hp, eq_comm]
  · next hp => simp [hp]

theorem flushed_shelved : Flushed shelved where
  mapped := mapped_shelf
  queue := rfl
  ident := rfl
  sync := by
    intro type _ key attributes
    simp only [shelved_proxies]
    show update (fun _ _ => none) "book"
      (update (fun _ => none) (.integral 64 1) (some [.scalar [1]])) type key = some attributes ↔
        ∃ (p : ProxyPtr) (d : ObjectProxy), (p = 7 ∧ d = _) ∧ d.node = type ∧
          Identifier.integral 64 1 = key ∧
          [Attribute.scalar [1]] = attributes
    by_cases ht : type = "book"
    · subst ht
      rw [update_self, update_apply]
      split
      · next hk => simp [hk]
      · next hk => simp [Ne.symm hk]
    · rw [update_of_ne ht]
      refine iff_of_false (by simp) ?_
      rintro ⟨p, d, ⟨-, rfl⟩, hnode, -⟩
      exact ht hnode.symm
  distinct := by
    intro p q d d' hd hd' _ _
    rw [(shelved_proxies.mp hd).1, (shelved_proxies.mp hd').1]

/-- Two labels come, one of them goes again, and the book gets another key and another title. -/
def labelled : List Op :=
  [.insert ⟨"L", .long, .integral 64 0⟩ [.scalar [5]],
    .insert ⟨"L", .long, .integral 64 0⟩ [.scalar [6]],
    .modify 7 ⟨.integral 64 9, [.scalar [2]]⟩, .remove 8]

theorem flushSyncs_of_shelved :
    RunMeets step Fits shelved labelled ∧ FlushSyncs shelved labelled := by
  have hrun : RunMeets step Fits shelved labelled := by decide
  have hinv := RunMeets.invariant step_queueInv (queueInv_flushed flushed_shelved) hrun
  exact ⟨hrun, flushSyncs_of_run flushed_shelved _ hrun
    ⟨keysDistinct_of_lt hinv.mapped (by decide), by decide⟩⟩

def flushed (s : Session) : Session := s.flush.toOption.getD s

/-- A book gets another key and is flushed; the key of its proxy is still the old one, so the next
update finds no row. -/
theorem flush_misses_rekeyed_book :
    Flushed (shelved.step (.modify 7 ⟨.integral 64 2, [.scalar [1]]⟩)).flushed ∧
      ¬FlushSyncs (shelved.step (.modify 7 ⟨.integral 64 2, [.scalar [1]]⟩)).flushed
        [.modify 7 ⟨.integral 64 2, [.scalar [3]]⟩] := by
  constructor
  · have hinv : QueueInv shelved (shelved.step (.modify 7 ⟨.integral 64 2, [.scalar [1]]⟩)) :=
      step_queueInv _ _ (queueInv_flushed flushed_shelved) (by decide)
    obtain ⟨s, hs, hflu, -⟩ :=
      hinv.flush flushed_shelved ⟨keysDistinct_of_lt hinv.mapped (by decide), by decide⟩
    rw [flushed, hs]
    exact hflu
  · rintro ⟨s, hs, hsync, hpxs, hobs⟩
    have hold : ([Op.modify 7 ⟨.integral 64 2, [.scalar [3]]⟩].foldl step
        (shelved.step (.modify 7 ⟨.integral 64 2, [.scalar [1]]⟩)).flushed).flush.toOption.map
          (fun s => (s.tables, s.database "book" (.integral 64 2))) =
        some (["book", "label"], some [.scalar [1]]) := by decide
    rw [hs] at hold
    simp only [Except.toOption, Option.map_some, Option.some.injEq, Prod.mk.injEq] at hold
    have hnew := (hsync "book" (by rw [hold.1]; simp) (.integral 64 2) [.scalar [3]]).mpr
      ⟨7, ⟨1, "B", "book", .integral 64 1⟩, by rw [hpxs]; rfl, rfl, by rw [hobs]; decide,
        by rw [hobs]; decide⟩
    rw [hold.2] at hnew
    revert hnew
    decide

end Session

end Matador.Orm
