import Matador.Orm.SessionTransaction

/-!
# The keys of the UPDATE statements

`proxy_identifier_map_` remembers the key of a proxy, and this key is read from the object when it
is inserted; it is not read again when the object is written. So an UPDATE looks for the row under
the first key of the object, and this is the key of the row as long as none has been written with
another key.
-/

namespace Matador.Orm

open ProxyChange Function List Lib Object TransactionState
open Option hiding map_map

namespace TransactionalSession

/-- The keys of the rows once an open transaction of the database has been rolled back. -/
def rowKeys (s : TransactionalSession) : ProxyPtr → Option Identifier := s.begun.getD s.rows

/-- The calls for which the keys stay known. -/
def Allowed (s : TransactionalSession) : Op → Prop
  -- nothing is left of another proxy with this address
  | .insert p _ _ => s.proxyIdentifierMap p = none ∧ p ∉ s.pending.map fun x => x.2.proxy
  -- the row has not been written with another key
  | .modify p _ | .save p _ => ∀ d ∈ s.proxies p, ∀ k ∈ s.rowKeys p, d.pk.bound = k
  -- all changes have been written
  | .begin => s.pending.isEmpty
  | _ => True

instance (s : TransactionalSession) (op : Op) : Decidable (s.Allowed op) :=
  match op with
  | .insert p _ _ =>
      inferInstanceAs (Decidable (s.proxyIdentifierMap p = none ∧
        p ∉ s.pending.map fun x => x.2.proxy))
  | .modify p _ | .save p _ =>
      inferInstanceAs (Decidable (∀ d ∈ s.proxies p, ∀ k ∈ s.rowKeys p, d.pk.bound = k))
  | .begin => inferInstanceAs (Decidable (s.pending.isEmpty = true))
  | .remove _ | .commit _ | .rollback | .flush _ => .isTrue trivial

/-! ## The keys of the changes -/

/-- The proxies have the data `data`, and the changes `xs` that are still to be written find their
rows. -/
structure Keys (data : ProxyPtr → ObjectProxy) (proxies : ProxyPtr → Option ObjectProxy)
    (xs : List (ActionKind × Entry)) (idents rows : ProxyPtr → Option Identifier) : Prop where
  stored : ∀ p d, proxies p = some d → d = data p
  entries : ∀ x ∈ xs, x.2.data = data x.2.proxy
  idents : ∀ p, (proxies p).isSome ∨ p ∈ xs.map (·.2.proxy) → ∀ k ∈ idents p, k = (data p).pk
  rows : ∀ x ∈ xs, x.1 = .update → ∀ k ∈ rows x.2.proxy, k = (data x.2.proxy).pk.bound

section Keys

variable {data : ProxyPtr → ObjectProxy} {proxies proxies' : ProxyPtr → Option ObjectProxy}
  {xs xs' : List (ActionKind × Entry)} {idents rows rows' : ProxyPtr → Option Identifier}
  {p : ProxyPtr} {d : ObjectProxy}

section

variable (h : Keys data proxies xs idents rows)

include h

section

variable (hproxies : ∀ q d, proxies' q = some d → proxies q = some d ∨ ∃ x ∈ xs, x.2 = ⟨q, d⟩)

include hproxies

/-- Updates may vanish. Other changes, and stored objects, are those of proxies that were known. -/
theorem Keys.mono
    (hxs : ∀ x ∈ xs', x ∈ xs ∨ x.1 ≠ .update ∧
      ((∃ k, (k, x.2) ∈ xs) ∨ proxies x.2.proxy = some x.2.data)) :
    Keys data proxies' xs' idents rows := by
  have hkno (x : ActionKind × Entry) (hx : x ∈ xs') :
      (∃ k, (k, x.2) ∈ xs) ∨ proxies x.2.proxy = some x.2.data := by
    rcases hxs x hx with hx | ⟨-, hx⟩
    · exact .inl ⟨x.1, hx⟩
    · exact hx
  refine ⟨fun q d hd => ?_, fun x hx => ?_, fun q hq => h.idents q ?_, fun x hx hkind => ?_⟩
  · rcases hproxies q d hd with hd | ⟨x, hx, hxq⟩
    · exact h.stored q d hd
    · have hdata := h.entries x hx
      rw [hxq] at hdata
      exact hdata
  · rcases hkno x hx with ⟨k, hk⟩ | hd
    · exact h.entries (k, x.2) hk
    · exact h.stored _ _ hd
  · rcases hq with hq | hq
    · obtain ⟨d, hd⟩ := isSome_iff_exists.mp hq
      rcases hproxies q d hd with hd | ⟨x, hx, hxq⟩
      · exact .inl (isSome_of_mem hd)
      · exact .inr (mem_map.mpr ⟨x, hx, congrArg Entry.proxy hxq⟩)
    · obtain ⟨x, hx, rfl⟩ := mem_map.mp hq
      rcases hkno x hx with ⟨k, hk⟩ | hd
      · exact .inr (mem_map.mpr ⟨(k, x.2), hk, rfl⟩)
      · exact .inl (isSome_of_mem hd)
  · rcases hxs x hx with hx | ⟨hne, -⟩
    · exact h.rows x hx hkind
    · exact absurd hkind hne

theorem Keys.done : Keys data proxies' [] idents rows' := by
  have h' : Keys data proxies' [] idents rows := h.mono hproxies (by simp)
  exact ⟨h'.stored, h'.entries, h'.idents, by simp⟩

end

theorem Keys.update (hd : proxies p = some d) (hrow : ∀ k ∈ rows p, d.pk.bound = k) :
    Keys data proxies ((.update, ⟨p, d⟩) :: xs) idents rows where
  stored := h.stored
  entries x hx := by
    rcases mem_cons.mp hx with rfl | hx
    · exact h.stored p d hd
    · exact h.entries x hx
  idents q hq := by
    refine h.idents q ?_
    rcases hq with hq | hq
    · exact .inl hq
    · rcases mem_cons.mp hq with rfl | hq
      · exact .inl (isSome_of_mem hd)
      · exact .inr hq
  rows x hx hkind k hk := by
    rcases mem_cons.mp hx with rfl | hx
    · rw [← hrow k hk, h.stored p d hd]
    · exact h.rows x hx hkind k hk

theorem Keys.remember (hd : proxies p = some d) :
    Keys data proxies xs (insertNew idents p d.pk) rows := by
  refine ⟨h.stored, h.entries, fun q hq k hk => ?_, h.rows⟩
  by_cases hqp : q = p
  · subst hqp
    cases hold : idents q with
    | some k' =>
      rw [insertNew, hold] at hk
      exact h.idents q hq k hk
    | none =>
      rw [insertNew_of_none hold, update_self] at hk
      cases hk
      rw [h.stored q d hd]
  · rw [insertNew_of_ne hqp] at hk
    exact h.idents q hq k hk

theorem Keys.forget : Keys data proxies xs (fun _ => none) rows :=
  ⟨h.stored, h.entries, by simp, h.rows⟩

theorem Keys.insert (hp : proxies p = none) (hxs : p ∉ xs.map (·.2.proxy))
    (hiden : idents p = none) :
    Keys (Function.update data p d) (Function.update proxies p (some d))
      ((.insert, ⟨p, d⟩) :: xs) idents (Function.update rows p none) := by
  have hne {x : ActionKind × Entry} (hx : x ∈ xs) : x.2.proxy ≠ p :=
    fun heq => hxs (mem_map.mpr ⟨x, hx, heq⟩)
  refine ⟨fun q d' hd' => ?_, fun x hx => ?_, fun q hq k hk => ?_, fun x hx hkind k hk => ?_⟩
  · by_cases hqp : q = p
    · subst hqp
      rw [update_self] at hd' ⊢
      exact (some.inj hd').symm
    · rw [update_of_ne hqp] at hd' ⊢
      exact h.stored q d' hd'
  · rcases mem_cons.mp hx with rfl | hx
    · rw [update_self]
    · rw [update_of_ne (hne hx)]
      exact h.entries x hx
  · by_cases hqp : q = p
    · rw [hqp, hiden] at hk
      cases hk
    · rw [update_of_ne hqp] at hq ⊢
      refine h.idents q (hq.imp_right fun hq => ?_) k hk
      exact (mem_cons.mp hq).resolve_left hqp
  · rcases mem_cons.mp hx with rfl | hx
    · cases hkind
    · rw [update_of_ne (hne hx)] at hk ⊢
      exact h.rows x hx hkind k hk

end

end Keys

/-! ## The queue and the logs -/

def changes (queue : List (ActionKind × Entry)) (logs : List Transaction) :
    List (ActionKind × Entry) :=
  queue ++ logs.flatMap fun t => logOf t.actions

/-- Each object has one change, in the queue or in the log of the current transaction. -/
structure OneChange (queue : List (ActionKind × Entry)) (logs : List Transaction) : Prop where
  queueNodup : (queue.map (·.2.proxy)).Nodup
  logNodup : ∀ t ∈ logs, ((logOf t.actions).map (·.2.proxy)).Nodup
  /-- the objects of a log have an index -/
  ids : ∀ t ∈ logs, ∀ x ∈ logOf t.actions, (t.idActionIndexMap x.2.data.id).isSome
  alone : queue = [] ∨ logs = []
  below : ∀ t ∈ logs.tail, logOf t.actions = []

variable {x : ActionKind × Entry}

section OneChange

variable {queue queue' : List (ActionKind × Entry)} {logs : List Transaction} {t t' : Transaction}

theorem changes_nil : changes queue [] = queue := append_nil _

section

variable (h : OneChange queue (t :: logs))

include h

theorem OneChange.queue_eq : queue = [] := by
  rcases h.alone with hq | hc
  · exact hq
  · cases hc

theorem OneChange.changes_cons : changes queue (t :: logs) = logOf t.actions := by
  have hlogs : (logs.flatMap fun t => logOf t.actions) = [] := flatMap_eq_nil_iff.mpr h.below
  rw [changes, h.queue_eq, flatMap_cons, hlogs]
  exact append_nil _

theorem OneChange.changes_tail : changes queue logs = [] := by
  rw [h.queue_eq]
  exact flatMap_eq_nil_iff.mpr h.below

theorem OneChange.pop : OneChange queue logs :=
  { h with
    logNodup := fun u hu => h.logNodup u (mem_cons_of_mem _ hu)
    ids := fun u hu => h.ids u (mem_cons_of_mem _ hu)
    alone := .inl h.queue_eq
    below := fun u hu => h.below u (mem_of_mem_tail hu) }

end

theorem OneChange.push (h : OneChange queue logs) (hnil : changes queue logs = []) :
    OneChange queue (Transaction.empty :: logs) := by
  obtain ⟨hque, hlogs⟩ := append_eq_nil_iff.mp hnil
  exact {
    queueNodup := h.queueNodup
    logNodup := fun u hu => by
      rcases mem_cons.mp hu with rfl | hu
      · exact nodup_nil
      · exact h.logNodup u hu
    ids := fun u hu x hx => by
      rcases mem_cons.mp hu with rfl | hu
      · cases hx
      · exact h.ids u hu x hx
    alone := .inl hque
    below := flatMap_eq_nil_iff.mp hlogs }

theorem OneChange.setQueue (hnd : (queue.map (·.2.proxy)).Nodup) : OneChange queue [] :=
  ⟨hnd, by simp, by simp, .inr rfl, by simp⟩

theorem OneChange.setLog (h : OneChange queue (t :: logs))
    (hnd : ((logOf t'.actions).map (·.2.proxy)).Nodup)
    (hids : ∀ x ∈ logOf t'.actions, (t'.idActionIndexMap x.2.data.id).isSome) :
    OneChange queue (t' :: logs) where
  queueNodup := h.queueNodup
  logNodup u hu := by
    rcases mem_cons.mp hu with rfl | hu
    · exact hnd
    · exact h.logNodup u (mem_cons_of_mem _ hu)
  ids u hu := by
    rcases mem_cons.mp hu with rfl | hu
    · exact hids
    · exact h.ids u (mem_cons_of_mem _ hu)
  alone := .inl h.queue_eq
  below := h.below

theorem OneChange.shrinkLog (h : OneChange queue (t :: logs))
    (hlog : ((logOf t'.actions).map Prod.snd).Sublist ((logOf t.actions).map Prod.snd))
    (hids : t'.idActionIndexMap = t.idActionIndexMap) : OneChange queue (t' :: logs) := by
  refine h.setLog ?_ fun x hx => ?_
  · have hsub := (hlog.map Entry.proxy).nodup
    rw [map_map, map_map] at hsub
    exact hsub (h.logNodup t mem_cons_self)
  · obtain ⟨y, hy, hxy⟩ := mem_map.mp (hlog.subset (mem_map_of_mem hx))
    rw [hids, ← hxy]
    exact h.ids t mem_cons_self y hy

theorem OneChange.addLog (h : OneChange queue (t :: logs))
    (hlog : (logOf t'.actions).Perm (x :: logOf t.actions))
    (hnew : x.2.proxy ∉ (logOf t.actions).map (·.2.proxy))
    (hids : ∀ id, id = x.2.data.id ∨ (t.idActionIndexMap id).isSome →
      (t'.idActionIndexMap id).isSome) :
    OneChange queue (t' :: logs) := by
  refine h.setLog ?_ fun y hy => hids _ ?_
  · rw [(hlog.map _).nodup_iff]
    exact nodup_cons.mpr ⟨hnew, h.logNodup t mem_cons_self⟩
  · rcases mem_cons.mp (hlog.mem_iff.mp hy) with rfl | hy
    · exact .inl rfl
    · exact .inr (h.ids t mem_cons_self y hy)

end OneChange

/-! ## The log of a transaction -/

variable {a : Action}

section Log

variable {t t' : Transaction} {e : Entry} {o : Attributes}

theorem logOf_onInsert (h : t.onInsert e = .ok t') :
    (logOf t'.actions).Perm ((.insert, e) :: logOf t.actions) ∧
    ∀ id, id = e.data.id ∨ (t.idActionIndexMap id).isSome → (t'.idActionIndexMap id).isSome := by
  unfold Transaction.onInsert at h
  split at h
  · cases h
    exact ⟨logOf_addInsert e t.actions, fun id hid => isSome_insertNew.mpr hid⟩
  · cases h

theorem logOf_backup (ha : a.log = [x]) :
    (logOf (t.backup a e o).actions).Perm (x :: logOf t.actions) ∧
    ∀ id, id = e.data.id ∨ (t.idActionIndexMap id).isSome →
    ((t.backup a e o).idActionIndexMap id).isSome :=
  ⟨logOf_concat_perm ha t.actions, fun _ hid => isSome_insertNew.mpr hid⟩

theorem logOf_set {actions : List Action} {index : Nat} {a' : Action}
    (ha : actions[index]? = some a) (hent : a'.entries.Sublist a.entries)
    (hkind : a'.kind ≠ .update) :
    ((logOf (actions.set index a')).map Prod.snd).Sublist ((logOf actions).map Prod.snd) ∧
      ∀ u, (.update, u) ∈ logOf (actions.set index a') → (.update, u) ∈ logOf actions := by
  obtain ⟨hlt, hget⟩ := List.getElem?_eq_some_iff.mp ha
  have hspl : actions = actions.take index ++ a :: actions.drop (index + 1) := by
    rw [← hget, getElem_cons_drop, take_append_drop]
  have hset : actions.set index a' = actions.take index ++ a' :: actions.drop (index + 1) :=
    set_eq_take_append_cons_drop .. |>.trans (if_pos hlt)
  have hsnd (b : Action) : b.log.map Prod.snd = b.entries := by simp [Action.log]
  constructor
  · rw [hset]
    conv => rhs; rw [hspl]
    simp only [logOf_append, logOf_cons, map_append, hsnd]
    exact (List.Sublist.refl _).append (hent.append (List.Sublist.refl _))
  · intro u hu
    rw [hset, mem_logOf] at hu
    obtain ⟨b, hb, hbki, hub⟩ := hu
    refine mem_logOf.mpr ⟨b, ?_, hbki, hub⟩
    rw [hspl]
    simp only [mem_append, mem_cons] at hb ⊢
    rcases hb with hb | rfl | hb
    · exact .inl hb
    · exact absurd hbki hkind
    · exact .inr (.inr hb)

theorem logOf_removeAction {actions : List Action} {index : Nat} (ha : actions[index]? = some a) :
    ((logOf (Transaction.removeAction e index a actions)).map Prod.snd).Sublist
      ((logOf actions).map Prod.snd) ∧
      ∀ u, (.update, u) ∈ logOf (Transaction.removeAction e index a actions) →
      (.update, u) ∈ logOf actions := by
  unfold Transaction.removeAction
  cases a with
  | insert type es =>
    simp only
    split
    · have hsub : (logOf (actions.eraseIdx index)).Sublist (logOf actions) :=
        (eraseIdx_sublist ..).flatMap _
      exact ⟨hsub.map _, fun u hu => hsub.subset hu⟩
    · exact logOf_set ha eraseP_sublist nofun
  | update u =>
    simp only
    split
    · exact logOf_set ha (List.Sublist.refl _) nofun
    · exact ⟨List.Sublist.refl _, fun _ hu => hu⟩
  | delete u => exact ⟨List.Sublist.refl _, fun _ hu => hu⟩

end Log

/-! ## The queue -/

theorem log_registerProxyDelete {e : Entry} {queue : List ProxyChange}
    (hnd : ((queue.map log).map (·.2.proxy)).Nodup) :
    (((registerProxyDelete e queue).map log).map (·.2.proxy)).Nodup ∧
      ∀ x ∈ (registerProxyDelete e queue).map log, x ∈ queue.map log ∨
        x.1 ≠ .update ∧ ((∃ k, (k, x.2) ∈ queue.map log) ∨ x.2 = e) := by
  unfold registerProxyDelete
  cases hfind : findChange e.proxy queue with
  | none =>
    have hnew : e.proxy ∉ (queue.map log).map (·.2.proxy) := by
      rw [map_log_proxy]
      exact findChange_eq_none.mp hfind
    simp only [map_append]
    refine ⟨nodup_append_comm.mpr (nodup_cons.mpr ⟨hnew, hnd⟩), fun x hx => ?_⟩
    rcases mem_append.mp hx with hx | hx
    · exact .inl hx
    · cases mem_singleton.mp hx
      exact .inr ⟨nofun, .inr rfl⟩
  | some c =>
    obtain ⟨hc, as, bs, rfl, has⟩ := findChange_split hfind
    simp only
    cases c.action with
    | insert =>
      have hsub : (((as ++ c :: bs).eraseP fun c => c.entry.proxy = e.proxy).map log).Sublist
          ((as ++ c :: bs).map log) := eraseP_sublist.map _
      exact ⟨(hsub.map _).nodup hnd, fun x hx => .inl (hsub.subset hx)⟩
    | update =>
      simp only [setAction_append has hc]
      refine ⟨?_, fun x hx => ?_⟩
      · rw [map_log_proxy, map_append] at hnd ⊢
        exact hnd
      · rw [map_append] at hx ⊢
        rcases mem_append.mp hx with hx | hx
        · exact .inl (mem_append_left _ hx)
        · rcases mem_cons.mp hx with rfl | hx
          · exact .inr ⟨nofun, .inl ⟨_, mem_append_right _ mem_cons_self⟩⟩
          · exact .inl (mem_append_right _ (mem_cons_of_mem _ hx))
    | remove => exact ⟨hnd, fun x hx => .inl hx⟩

/-! ## Rolling back -/

section Restore

variable {r r' : TransactionState}

theorem proxies_removeEntries {es : List Entry} {store store' : ObjectStore}
    (h : removeEntries es store = .ok store') {q : ProxyPtr} {d : ObjectProxy}
    (hd : store'.lists.proxies q = some d) : store.lists.proxies q = some d := by
  induction es generalizing store with
  | nil =>
    cases h
    exact hd
  | cons e es ih =>
    unfold removeEntries at h
    split at h
    · cases h
    · next store₁ hrem =>
      obtain ⟨-, rfl⟩ := removeProxy_ok hrem
      exact (removeAt_proxies.mp (ih h)).2

theorem restoreObject_eq {p : ProxyPtr} (h : r.restoreObject p = .ok r') :
    r'.store = r.store ∧ r'.transaction.idActionIndexMap = r.transaction.idActionIndexMap := by
  unfold restoreObject at h
  split at h
  · cases h
  · cases h
    exact ⟨rfl, rfl⟩

theorem restore_proxies (h : r.restore a = .ok r') :
    r'.transaction.idActionIndexMap = r.transaction.idActionIndexMap ∧
      ∀ q d, r'.proxies q = some d → r.proxies q = some d ∨ ∃ x ∈ a.log, x.2 = ⟨q, d⟩ := by
  cases a with
  | insert type es =>
    simp only [restore] at h
    split at h
    · cases h
    · next store hrem =>
      cases h
      exact ⟨rfl, fun q d hd => .inl (proxies_removeEntries hrem hd)⟩
  | update e =>
    obtain ⟨hsto, hids⟩ := restoreObject_eq h
    exact ⟨hids, fun q d hd => .inl (by rwa [TransactionState.proxies, hsto] at hd)⟩
  | delete e =>
    simp only [restore] at h
    split at h
    · obtain ⟨hsto, hids⟩ := restoreObject_eq h
      exact ⟨hids, fun q d hd => .inl (by rwa [TransactionState.proxies, hsto] at hd)⟩
    · split at h
      · cases h
      · next store hins =>
        obtain ⟨hsto, hids⟩ := restoreObject_eq h
        refine ⟨hids, fun q d hd => ?_⟩
        rw [TransactionState.proxies, hsto] at hd
        unfold insertProxy at hins
        split at hins
        · cases hins
        · split at hins
          · cases hins
          · cases hins
          · cases hins
            by_cases hq : q = e.proxy
            · subst hq
              have hdata : update r.proxies e.proxy (some e.data) e.proxy = some d := hd
              rw [update_self] at hdata
              cases hdata
              exact .inr ⟨_, mem_singleton.mpr rfl, rfl⟩
            · exact .inl ((update_of_ne hq ..).symm.trans hd)

theorem restoreActions_proxies {deleted : List ProxyPtr} {as : List Action} {rest : List Action}
    {m : Option String} (h : restoreActions deleted as r = (r', rest, m)) :
    r'.transaction.idActionIndexMap = r.transaction.idActionIndexMap ∧ rest.Sublist as ∧
      ∀ q d, r'.proxies q = some d → r.proxies q = some d ∨ ∃ x ∈ logOf as, x.2 = ⟨q, d⟩ := by
  induction as generalizing r with
  | nil =>
    cases h
    exact ⟨rfl, List.Sublist.refl _, fun q d hd => .inl hd⟩
  | cons a as ih =>
    unfold restoreActions at h
    split at h
    · cases h
      exact ⟨rfl, sublist_cons_self .., fun q d hd => .inl hd⟩
    · split at h
      · cases h
        exact ⟨rfl, sublist_cons_self .., fun q d hd => .inl hd⟩
      · next r₁ hres =>
        obtain ⟨hids, hproxies⟩ := restore_proxies hres
        obtain ⟨hids', hrest, hproxies'⟩ := ih h
        refine ⟨hids'.trans hids, hrest.cons a, fun q d hd => ?_⟩
        rcases hproxies' q d hd with hd | ⟨x, hx, hxq⟩
        · rcases hproxies q d hd with hd | ⟨x, hx, hxq⟩
          · exact .inl hd
          · exact .inr ⟨x, mem_append_left _ hx, hxq⟩
        · exact .inr ⟨x, mem_append_right _ hx, hxq⟩

end Restore

/-! ## The statements -/

section Statements

variable {data : ProxyPtr → ObjectProxy} {s s' : TransactionalSession} {flushing : Bool}

theorem statement_eq (h : s.statement flushing x = .ok s') : ∃ row updates deleted, s' = { s with
      rows := update s.rows x.2.proxy row
      updates := updates
      deleted := deleted } ∧
    ∀ u ∈ updates, u ∈ s.updates ∨ x.1 = .update ∧ u.row = s.rows x.2.proxy ∧
      ∃ k ∈ s.proxyIdentifierMap x.2.proxy, u.pk = k.bound := by
  obtain ⟨kind, e⟩ := x
  unfold statement at h
  simp only at h
  split at h
  · cases h
  · cases kind with
    | insert =>
      cases h
      exact ⟨_, s.updates, s.deleted, rfl, fun u hu => .inl hu⟩
    | delete =>
      cases h
      exact ⟨none, s.updates, _, rfl, fun u hu => .inl hu⟩
    | update =>
      simp only at h
      split at h
      · cases h
      · next pk hpk =>
        split at h
        · cases h
          refine ⟨_, _, s.deleted, rfl, fun u hu => ?_⟩
          rcases mem_append.mp hu with hu | hu
          · exact .inl hu
          · cases mem_singleton.mp hu
            exact .inr ⟨rfl, rfl, pk, hpk, rfl⟩
        · cases h

/-- **The UPDATE statements of a flush or a commit find their rows.** An object has one change, so
its row has its old key when its statement is executed. -/
theorem executeAll_matches {xs : List (ActionKind × Entry)} (flushing : Bool) (fails : Option Nat)
    (hnd : (xs.map (·.2.proxy)).Nodup)
    (hiden : ∀ x ∈ xs, ∀ k ∈ s.proxyIdentifierMap x.2.proxy, k = (data x.2.proxy).pk)
    (hrows : ∀ x ∈ xs, x.1 = .update → ∀ k ∈ s.rows x.2.proxy, k = (data x.2.proxy).pk.bound)
    (hmts : ∀ u ∈ s.updates, u.Matches) :
    ∃ rows updates deleted, (executeAll flushing fails xs s).1 = { s with
      rows := rows
      updates := updates
      deleted := deleted } ∧ (∀ u ∈ updates, u.Matches) := by
  induction xs generalizing s fails with
  | nil => exact ⟨s.rows, s.updates, s.deleted, rfl, hmts⟩
  | cons x xs ih =>
    obtain ⟨hx, hnd⟩ := nodup_cons.mp hnd
    have hiden' := (forall_mem_cons.mp hiden).2
    have hrows' := (forall_mem_cons.mp hrows).2
    unfold executeAll
    split
    · cases hsta : s.statement flushing x with
      | error m => exact ⟨s.rows, s.updates, s.deleted, rfl, hmts⟩
      | ok s' =>
        obtain ⟨row, updates, deleted, rfl, hnew⟩ := statement_eq hsta
        have hmts' : ∀ u ∈ updates, u.Matches := by
          intro u hu k hk
          rcases hnew u hu with hu | ⟨hkind, hrow, pk, hpk, hbound⟩
          · exact hmts u hu k hk
          · rw [hrow] at hk
            rw [hbound, hiden x mem_cons_self pk hpk, hrows x mem_cons_self hkind k hk]
        simp only
        split
        · exact ⟨s.rows, updates, s.deleted, rfl, hmts'⟩
        · refine ih _ hnd hiden' (fun y hy hkind k hk => ?_) hmts'
          -- the row of another object
          have hne : y.2.proxy ≠ x.2.proxy := fun heq => hx (mem_map.mpr ⟨y, hy, heq⟩)
          refine hrows' y hy hkind k ?_
          rwa [← update_of_ne hne row s.rows]
    · exact ih _ hnd hiden' hrows' hmts

theorem write_matches {xs : List (ActionKind × Entry)} (flushing : Bool) (fails : Option Nat)
    (hnd : (xs.map (·.2.proxy)).Nodup)
    (hiden : ∀ x ∈ xs, ∀ k ∈ s.proxyIdentifierMap x.2.proxy, k = (data x.2.proxy).pk)
    (hrows : ∀ x ∈ xs, x.1 = .update → ∀ k ∈ s.rowKeys x.2.proxy, k = (data x.2.proxy).pk.bound)
    (hmts : ∀ u ∈ s.updates, u.Matches) :
    ∃ rows updates deleted begun, (s.write flushing fails xs).1 = { s with
      rows := rows
      updates := updates
      deleted := deleted
      begun := begun } ∧
    (∀ u ∈ updates, u.Matches) ∧
    ((s.write flushing fails xs).2.isSome ∨ xs = [] → begun.getD rows = s.rowKeys) := by
  unfold write
  split
  · exact ⟨s.rows, s.updates, s.deleted, s.begun, rfl, hmts, fun _ => rfl⟩
  · next hbeg =>
    have hnone : s.begun = none := by simpa using hbeg
    have hkeys : s.rowKeys = s.rows := by rw [rowKeys, hnone, getD_none]
    rw [hkeys] at hrows ⊢
    obtain ⟨rows, updates, deleted, heq, hupd⟩ := executeAll_matches
      (s := { s with begun := some s.rows }) flushing fails hnd hiden hrows hmts
    split
    · next r m hres =>
      rw [hres] at heq
      exact ⟨rows, updates, deleted, some s.rows, heq, hupd, fun _ => rfl⟩
    · next r hres =>
      rw [hres] at heq
      subst heq
      refine ⟨rows, updates, deleted, none, rfl, hupd, fun h => ?_⟩
      rcases h with h | rfl
      · cases h
      · exact congrArg TransactionalSession.rows (Prod.mk.inj hres).1.symm

end Statements

/-! ## The calls -/

theorem pending_eq (s : TransactionalSession) :
    s.pending = changes (s.proxyChangeQueue.map log) (s.transactions.map OpenTransaction.data) := by
  rw [pending, changes, flatMap_map]

/-- The rows of all changes that are still to be written have the keys of their proxies. -/
structure Inv (s : TransactionalSession) : Prop where
  keys : ∃ data, Keys data s.proxies s.pending s.proxyIdentifierMap s.rowKeys
  one : OneChange (s.proxyChangeQueue.map ProxyChange.log) (s.transactions.map OpenTransaction.data)
  updates : ∀ u ∈ s.updates, u.Matches

section Calls

variable {s : TransactionalSession} {p : ProxyPtr} {d : ObjectProxy} {t : OpenTransaction}
  {ts : List OpenTransaction}

theorem inv_queue {s' : TransactionalSession} (hnil : s'.transactions = [])
    {queue : List (ActionKind × Entry)} (hque : s'.proxyChangeQueue.map log = queue)
    (hnd : (queue.map (·.2.proxy)).Nodup)
    (hkeys : ∃ data, Keys data s'.proxies queue s'.proxyIdentifierMap s'.rowKeys)
    (hmts : ∀ u ∈ s'.updates, u.Matches) : Inv s' := by
  subst hque
  refine ⟨?_, ?_, hmts⟩
  · rwa [pending_eq, hnil, map_nil, changes_nil]
  · rw [hnil]
    exact OneChange.setQueue hnd

theorem inv_log {s' : TransactionalSession} (hcons : s'.transactions = t :: ts)
    (hone : OneChange (s'.proxyChangeQueue.map log) (t.data :: ts.map OpenTransaction.data))
    (hkeys : ∃ data, Keys data s'.proxies (logOf t.data.actions) s'.proxyIdentifierMap s'.rowKeys)
    (hmts : ∀ u ∈ s'.updates, u.Matches) : Inv s' := by
  refine ⟨?_, ?_, hmts⟩
  · rwa [pending_eq, hcons, map_cons, hone.changes_cons]
  · rwa [hcons]

theorem pending_nil (hnil : s.transactions = []) : s.pending = s.proxyChangeQueue.map log := by
  rw [pending, hnil]
  exact append_nil _

theorem Inv.one_cons (h : Inv s) (hcons : s.transactions = t :: ts) :
    OneChange (s.proxyChangeQueue.map log) (t.data :: ts.map OpenTransaction.data) := by
  have hone := h.one
  rwa [hcons] at hone

theorem Inv.pending_cons (h : Inv s) (hcons : s.transactions = t :: ts) :
    s.pending = logOf t.data.actions := by
  rw [pending_eq, hcons]
  exact (h.one_cons hcons).changes_cons

theorem Inv.insert (h : Inv s) (o : NewObject) (attributes : Attributes)
    (hall : s.Allowed (.insert p o attributes)) : Inv (s.insert p o attributes).1 := by
  obtain ⟨hiden, hnew⟩ := hall
  obtain ⟨data, hkeys⟩ := h.keys
  unfold TransactionalSession.insert
  split
  · exact h
  · next hfree =>
    have hp : s.proxies p = none := by
      cases hd : s.proxies p with
      | none => rfl
      | some d => exact absurd (.inl (by rw [hd]; rfl)) hfree
    simp only
    split
    · exact h
    · exact h
    · next n hn =>
      generalize resolveKey s.store o = o'
      have hins := hkeys.insert (d := (s.store.linkAt p o' n).2) hp hnew hiden
      have hrows : (s.begun.map fun rows => update rows p none).getD (update s.rows p none) =
          update s.rowKeys p none := by
        unfold rowKeys
        cases s.begun <;> rfl
      rw [← hrows] at hins
      cases htxs : s.transactions with
      | nil =>
        have hque : ∀ c ∈ s.proxyChangeQueue, c.entry.proxy ≠ p := fun c hc heq =>
          hnew (mem_map.mpr ⟨c.log, mem_append_left _ (mem_map_of_mem hc), heq⟩)
        have hsame : (s.proxyChangeQueue.map fun c =>
            if c.entry.proxy = p then { c with entry := ⟨p, (s.store.linkAt p o' n).2⟩ }
            else c) = s.proxyChangeQueue :=
          (map_congr_left fun c hc => if_neg (hque c hc)).trans (map_id _)
        have hfind : findChange p s.proxyChangeQueue = none := findChange_eq_none.mpr fun hc => by
          obtain ⟨c, hc, heq⟩ := mem_map.mp hc
          exact hque c hc heq
        have hone := h.one
        rw [pending_nil htxs] at hins hnew
        simp only [hsame, registerProxyInsert, hfind]
        refine inv_queue rfl (map_append ..) ?_ ⟨_, hins.mono (fun q d hd => .inl hd) fun x hx =>
          .inl ?_⟩ h.updates
        · rw [map_append]
          exact nodup_append_comm.mpr (nodup_cons.mpr ⟨hnew, hone.queueNodup⟩)
        · exact perm_append_comm.mem_iff.mp hx
      | cons t ts =>
        have hone := h.one_cons htxs
        rw [h.pending_cons htxs] at hins hnew
        simp only
        split
        · -- the object is not logged
          exact inv_log rfl hone ⟨_, hins.mono (fun q d hd => .inl hd) fun x hx =>
            .inl (mem_cons_of_mem _ hx)⟩ h.updates
        · next t' ht' =>
          obtain ⟨hperm, hids⟩ := logOf_onInsert ht'
          exact inv_log rfl (hone.addLog hperm hnew hids) ⟨_,
            hins.mono (fun q d hd => .inl hd) fun x hx =>
            .inl (hperm.mem_iff.mp hx)⟩ h.updates

theorem OneChange.not_mem_log {data : ProxyPtr → ObjectProxy}
    {proxies : ProxyPtr → Option ObjectProxy} {queue : List (ActionKind × Entry)}
    {log : Transaction} {logs : List Transaction} {idents rows : ProxyPtr → Option Identifier}
    (h : OneChange queue (log :: logs)) (hkeys : Keys data proxies (logOf log.actions) idents rows)
    (hd : proxies p = some d) (hid : log.idActionIndexMap d.id = none) :
    p ∉ (logOf log.actions).map (·.2.proxy) := by
  intro hc
  obtain ⟨x, hx, rfl⟩ := mem_map.mp hc
  have hind := h.ids log mem_cons_self x hx
  rw [hkeys.entries x hx, ← hkeys.stored _ d hd, hid] at hind
  cases hind

section

variable (h : Inv s) (hd : s.proxies p = some d) (hrow : ∀ k ∈ s.rowKeys p, d.pk.bound = k)

include h hd hrow

theorem Inv.onUpdate : Inv (s.onUpdate ⟨p, d⟩) := by
  obtain ⟨data, hkeys⟩ := h.keys
  unfold TransactionalSession.onUpdate
  split
  · exact h
  · next t ts htxs =>
    have hone := h.one_cons htxs
    unfold Transaction.onUpdate
    cases hid : t.data.idActionIndexMap d.id with
    | some index =>
      rw [h.pending_cons htxs] at hkeys
      exact inv_log rfl hone ⟨data, hkeys⟩ h.updates
    | none =>
      rw [h.pending_cons htxs] at hkeys
      obtain ⟨hperm, hids⟩ := logOf_backup (log_update ⟨p, d⟩)
      exact inv_log rfl (hone.addLog hperm (hone.not_mem_log hkeys hd hid) hids) ⟨data,
        (hkeys.update hd hrow).mono (fun q d' hd' => .inl hd')
        fun x hx => .inl (hperm.mem_iff.mp hx)⟩ h.updates

theorem Inv.register : Inv (s.register ⟨p, d⟩) := by
  obtain ⟨data, hkeys⟩ := h.keys
  have hkeys' := hkeys.remember hd
  unfold TransactionalSession.register
  cases htxs : s.transactions with
  | cons t ts =>
    rw [h.pending_cons htxs] at hkeys'
    exact inv_log rfl (h.one_cons htxs) ⟨data, hkeys'⟩ h.updates
  | nil =>
    rw [pending_nil htxs] at hkeys'
    have hone := h.one
    simp only [registerProxyUpdate]
    cases hfind : findChange p s.proxyChangeQueue with
    | some c => exact inv_queue rfl rfl hone.queueNodup ⟨data, hkeys'⟩ h.updates
    | none =>
      have hnew : p ∉ (s.proxyChangeQueue.map log).map (·.2.proxy) := by
        rw [map_log_proxy]
        exact findChange_eq_none.mp hfind
      refine inv_queue rfl (map_append ..) ?_
        ⟨data, (hkeys'.update hd hrow).mono (fun q d' hd' => .inl hd') fun x hx =>
          .inl ?_⟩ h.updates
      · rw [map_append]
        exact nodup_append_comm.mpr (nodup_cons.mpr ⟨hnew, hone.queueNodup⟩)
      · exact perm_append_comm.mem_iff.mp hx

theorem Inv.markModified : Inv (s.markModified ⟨p, d⟩) :=
  (h.register hd hrow).onUpdate hd hrow

end

theorem Inv.modify (h : Inv s) (attributes : Attributes) (hall : s.Allowed (.modify p attributes)) :
    Inv (s.modify p attributes) := by
  unfold TransactionalSession.modify
  split
  · exact h
  · next d hd =>
    have hmod := h.markModified hd (hall d hd)
    exact ⟨hmod.keys, hmod.one, hmod.updates⟩

theorem Inv.remove (h : Inv s) (p : ProxyPtr) : Inv (s.remove p).1 := by
  obtain ⟨data, hkeys⟩ := h.keys
  unfold TransactionalSession.remove
  split
  · exact h
  · next d hd =>
    split
    · exact h
    · next store hrem =>
      obtain ⟨-, -, hproxies⟩ := removeProxy_store hrem
      have hsub (q : ProxyPtr) (d' : ObjectProxy) (hd' : store.lists.proxies q = some d') :
          s.proxies q = some d' := by
        rw [hproxies] at hd'
        by_cases hq : q = p
        · rw [hq, update_self] at hd'
          cases hd'
        · rwa [update_of_ne hq] at hd'
      cases htxs : s.transactions with
      | nil =>
        rw [pending_nil htxs] at hkeys
        obtain ⟨hnd, hque⟩ := log_registerProxyDelete h.one.queueNodup
        refine inv_queue rfl rfl hnd ⟨data,
          hkeys.mono (fun q d' hd' => .inl (hsub q d' hd')) fun x hx => ?_⟩ h.updates
        rcases hque x hx with hx | ⟨hkind, hx | hx⟩
        · exact .inl hx
        · exact .inr ⟨hkind, .inl hx⟩
        · exact .inr ⟨hkind, .inr (by rw [hx]; exact hd)⟩
      | cons t ts =>
        have hone := h.one_cons htxs
        rw [h.pending_cons htxs] at hkeys
        simp only
        split
        · exact inv_log rfl hone ⟨data,
            hkeys.mono (fun q d' hd' => .inl (hsub q d' hd')) fun x hx => .inl hx⟩ h.updates
        · next t' hdel =>
          unfold Transaction.onDelete at hdel
          split at hdel
          · next hid =>
            cases hdel
            obtain ⟨hperm, hids⟩ := logOf_backup (log_delete ⟨p, d⟩)
            refine inv_log rfl (hone.addLog hperm (hone.not_mem_log hkeys hd hid) hids)
              ⟨data, hkeys.mono (fun q d' hd' => .inl (hsub q d' hd')) fun x hx => ?_⟩ h.updates
            rcases mem_cons.mp (hperm.mem_iff.mp hx) with rfl | hx
            · exact .inr ⟨nofun, .inr hd⟩
            · exact .inl hx
          · split at hdel
            · cases hdel
            · next a ha =>
              cases hdel
              obtain ⟨hlog, hupd⟩ := logOf_removeAction ha
              refine inv_log rfl (hone.shrinkLog hlog rfl)
                ⟨data, hkeys.mono (fun q d' hd' => .inl (hsub q d' hd')) fun x hx => ?_⟩ h.updates
              by_cases hkind : x.1 = .update
              · obtain ⟨k, e⟩ := x
                cases hkind
                exact .inl (hupd e hx)
              · obtain ⟨y, hy, hyx⟩ := mem_map.mp (hlog.subset (mem_map_of_mem hx))
                exact .inr ⟨hkind, .inl ⟨y.1, hyx ▸ hy⟩⟩

theorem Inv.flush (h : Inv s) (fails : Option Nat) : Inv (s.flush fails).1 := by
  obtain ⟨data, hkeys⟩ := h.keys
  have hmem {x : ActionKind × Entry} (hx : x ∈ s.proxyChangeQueue.map log) : x ∈ s.pending :=
    mem_append_left _ hx
  obtain ⟨rows, updates, deleted, begun, hwri, hmts, hrows⟩ :=
    write_matches true fails h.one.queueNodup
      (fun x hx => hkeys.idents _ (.inr (mem_map.mpr ⟨x, hmem hx, rfl⟩))) (fun x hx =>
        hkeys.rows x (hmem hx))
      h.updates
  unfold TransactionalSession.flush
  split
  · next s' m hres =>
    rw [hres] at hwri hrows
    cases hwri
    have hsame := hrows (.inl rfl)
    refine ⟨⟨data, ?_⟩, h.one, hmts⟩
    show Keys data s.proxies s.pending s.proxyIdentifierMap (begun.getD rows)
    rwa [hsame]
  · next s' hres =>
    rw [hres] at hwri hrows
    cases hwri
    cases htxs : s.transactions with
    | nil => exact inv_queue rfl rfl nodup_nil ⟨data, hkeys.forget.done fun q d hd => .inl hd⟩ hmts
    | cons t ts =>
      have hone := h.one_cons htxs
      have hsame := hrows (.inr hone.queue_eq)
      rw [h.pending_cons htxs] at hkeys
      rw [hone.queue_eq] at hone
      refine inv_log rfl hone ⟨data, ?_⟩ hmts
      show Keys data s.proxies _ _ (begun.getD rows)
      rw [hsame]
      exact hkeys.forget

theorem Inv.save (h : Inv s) (fails : Option Nat) (hall : s.Allowed (.save p fails)) :
    Inv (s.save p fails).1 := by
  unfold TransactionalSession.save
  split
  · exact h
  · next d hd =>
    split
    · exact (h.markModified hd (hall d hd)).flush fails
    · exact h.onUpdate hd (hall d hd)

theorem Inv.commit (h : Inv s) (fails : Option Nat) : Inv (s.commit fails).1 := by
  obtain ⟨data, hkeys⟩ := h.keys
  unfold TransactionalSession.commit
  split
  · exact h
  · next t ts htxs =>
    have hone := h.one_cons htxs
    rw [h.pending_cons htxs] at hkeys
    obtain ⟨rows, updates, deleted, begun, hwri, hmts, hrows⟩ :=
      write_matches (s := { s with transactions := { t with committing := true } :: ts }) false
        fails
        (hone.logNodup t.data mem_cons_self)
        (fun x hx => hkeys.idents _ (.inr (mem_map.mpr ⟨x, hx, rfl⟩))) hkeys.rows h.updates
    simp only
    split
    · next s' m hres =>
      rw [hres] at hwri hrows
      cases hwri
      have hsame := hrows (.inl rfl)
      refine inv_log rfl hone ⟨data, ?_⟩ hmts
      show Keys data s.proxies _ s.proxyIdentifierMap (begun.getD rows)
      rw [hsame]
      exact hkeys
    · next s' hres =>
      rw [hres] at hwri
      cases hwri
      refine ⟨⟨data, ?_⟩, hone.pop, hmts⟩
      rw [pending_eq]
      exact hone.changes_tail.symm ▸ hkeys.done fun q d hd => .inl hd

theorem Inv.rollback (h : Inv s) : Inv s.rollback.1 := by
  obtain ⟨data, hkeys⟩ := h.keys
  unfold TransactionalSession.rollback
  split
  · exact h
  · next t ts htxs =>
    have hone := h.one_cons htxs
    rw [h.pending_cons htxs] at hkeys
    split
    · next r rest m hres =>
      obtain ⟨hids, hrest, hproxies⟩ := restoreActions_proxies hres
      have hlog : (logOf rest).Sublist (logOf t.data.actions) := hrest.flatMap _
      exact inv_log rfl (hone.shrinkLog (hlog.map _) hids) ⟨data, hkeys.mono hproxies fun x hx =>
        .inl (hlog.subset hx)⟩
        h.updates
    · next r rest hres =>
      obtain ⟨-, -, hproxies⟩ := restoreActions_proxies hres
      refine ⟨⟨data, ?_⟩, hone.pop, h.updates⟩
      rw [pending_eq]
      exact hone.changes_tail.symm ▸ hkeys.done hproxies

theorem step_inv (s : TransactionalSession) (op : Op) (h : Inv s) (hall : s.Allowed op) :
    Inv (s.step op) := by
  cases op with
  | insert p o attributes => exact h.insert o attributes hall
  | modify p attributes => exact h.modify attributes hall
  | save p fails => exact h.save fails hall
  | remove p => exact h.remove p
  | begin =>
    have hnil : s.pending = [] := isEmpty_iff.mp hall
    obtain ⟨data, hkeys⟩ := h.keys
    rw [hnil] at hkeys
    refine inv_log rfl (h.one.push ?_) ⟨data, hkeys⟩ h.updates
    rw [← pending_eq, hnil]
  | commit fails => exact h.commit fails
  | rollback => exact h.rollback
  | flush fails => exact h.flush fails

end Calls

/-! ## Runs -/

structure Fresh (s : TransactionalSession) : Prop where
  transactions : s.transactions = []
  queue : s.proxyChangeQueue = []
  idents : ∀ p, s.proxyIdentifierMap p = none
  updates : s.updates = []

end TransactionalSession

end Matador.Orm
