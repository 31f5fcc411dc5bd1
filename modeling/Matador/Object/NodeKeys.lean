import Matador.Object.TransactionLog

/-!
# Primary keys during a transaction

Every node has a map from primary keys to proxies. `idMapOf` gives it by the type, and `Keys` says
how a log describes the change of these maps, as `Net` does for the proxies: the key of an inserted
object was free and leads to it, the key of a deleted object led to it and is free.
-/

namespace Matador.Object

open Function List Lib PrototypeTree

/-! ## The maps by type -/

def idMapIn : List PrototypeNode → String → Identifier → Option ProxyPtr
  | [], _ => fun _ => none
  | n :: ns, type => if n.type = type then n.idMap else idMapIn ns type

def PrototypeTree.idMapOf (t : PrototypeTree) : String → Identifier → Option ProxyPtr :=
  idMapIn t.nodes

section IdMap

variable {t : PrototypeTree} {pre post : List PrototypeNode} {n : PrototypeNode} {p : ProxyPtr}
  {pk : Identifier}

theorem idMapIn_congr {ns ns' : List PrototypeNode}
    (h : ns'.map (fun m => (m.type, m.idMap)) = ns.map fun m => (m.type, m.idMap)) :
    idMapIn ns' = idMapIn ns := by
  induction ns generalizing ns' with
  | nil => rw [map_eq_nil_iff.mp h]
  | cons n ns ih =>
    cases ns' with
    | nil => simp at h
    | cons n' ns' =>
      simp only [map_cons, cons.injEq, Prod.mk.injEq] at h
      funext type
      rw [idMapIn, idMapIn, h.1.1, h.1.2, ih h.2]

theorem idMapIn_of_mem {ns : List PrototypeNode} (hnd : (ns.map PrototypeNode.type).Nodup)
    (hn : n ∈ ns) : idMapIn ns n.type = n.idMap := by
  induction ns with
  | nil => cases hn
  | cons m ns ih =>
    obtain ⟨hm, hnd⟩ := nodup_cons.mp hnd
    rw [idMapIn]
    rcases mem_cons.mp hn with rfl | hn
    · rw [if_pos rfl]
    · rw [if_neg fun hc => hm (mem_map.mpr ⟨n, hn, hc.symm⟩), ih hnd hn]

theorem idMapIn_eq_none {ns : List PrototypeNode} {k : Identifier} (h : ∀ n ∈ ns, n.idMap k = none)
    (type : String) : idMapIn ns type k = none := by
  induction ns with
  | nil => rfl
  | cons n ns ih =>
    rw [idMapIn]
    split
    · exact h n (by simp)
    · exact ih fun m hm => h m (by simp [hm])

theorem idMapIn_replace (hnd : ((pre ++ n :: post).map PrototypeNode.type).Nodup)
    (idMap : Identifier → Option ProxyPtr) :
    idMapIn (pre ++ { n with idMap := idMap } :: post) =
      update (idMapIn (pre ++ n :: post)) n.type idMap := by
  funext type
  induction pre with
  | nil =>
    by_cases ht : n.type = type
    · subst ht
      simp [idMapIn]
    · simp [idMapIn, ht, update_of_ne (Ne.symm ht)]
  | cons m pre ih =>
    obtain ⟨hm, hnd⟩ := nodup_cons.mp hnd
    have hne : m.type ≠ n.type := fun hc => hm (by simp [hc])
    have hih := ih hnd
    by_cases ht : type = n.type
    · subst ht
      simp [idMapIn, hne, hih]
    · rw [update_of_ne ht] at hih
      simp [idMapIn, hih, update_of_ne ht]

section

variable (hnd : (t.nodes.map PrototypeNode.type).Nodup)

include hnd

theorem idMapOf_change {t' : PrototypeTree}
    (hnds : t.nodes = pre ++ n :: post) {idMap : Identifier → Option ProxyPtr}
    (h : t'.nodes.map (fun m => (m.type, m.idMap)) =
      (pre ++ { n with idMap := idMap } :: post).map fun m => (m.type, m.idMap)) :
    t'.idMapOf = update t.idMapOf n.type idMap := by
  rw [hnds] at hnd
  rw [idMapOf, idMapIn_congr h, idMapIn_replace hnd, idMapOf, hnds]

theorem insertProxy_idMapOf (hn : n ∈ t.nodes) : (t.insertProxy n.type p pk).idMapOf =
      update t.idMapOf n.type (insertId n.idMap pk p) := by
  obtain ⟨pre, post, hnds⟩ := append_of_mem hn
  refine idMapOf_change hnd hnds ?_
  rw [map_of_bodies (fun _ => rfl) (insertProxy_bodies (locate_of_nodup hnd hnds) p pk),
    map_append, map_append]
  rfl

theorem removeProxy_idMapOf (hn : n ∈ t.nodes) : (t.removeProxy n.type p pk).idMapOf =
      update t.idMapOf n.type (if n.hasPrimaryKey then erase n.idMap pk else n.idMap) := by
  obtain ⟨pre, post, hnds⟩ := append_of_mem hn
  refine idMapOf_change hnd hnds ?_
  rw [map_of_bodies (fun _ => rfl) (removeProxy_bodies (locate_of_nodup hnd hnds) p pk),
    map_append, map_append]
  rfl

/-- The keys when an object is linked at `node`: a key that is not free stays where it is. -/
def withKey (map : String → Identifier → Option ProxyPtr) (node : String) (pk : Identifier)
    (p : ProxyPtr) (type : String) (k : Identifier) : Option ProxyPtr :=
  if pk ≠ .null ∧ type = node ∧ k = pk then (map type k).or (some p) else map type k

theorem idMapOf_insertProxy (hn : n ∈ t.nodes) :
    (t.insertProxy n.type p pk).idMapOf = withKey t.idMapOf n.type pk p := by
  funext type k
  have hmap : t.idMapOf n.type = n.idMap := idMapIn_of_mem hnd hn
  have hins (hpk : pk ≠ .null) : insertId n.idMap pk p k =
      if k = pk then (n.idMap k).or (some p) else n.idMap k := by
    have hnull : pk.isNull = false := by
      cases pk with
      | null => exact absurd rfl hpk
      | integral bits v => rfl
      | string v => rfl
    rw [insertId, hnull]
    show insertNew n.idMap pk p k = _
    by_cases hk : k = pk
    · subst hk
      rw [insertNew]
      cases hold : n.idMap k with
      | none => simp
      | some q => simp [hold]
    · rw [if_neg hk, insertNew_of_ne hk]
  rw [insertProxy_idMapOf hnd hn, withKey]
  by_cases ht : type = n.type
  · subst ht
    rw [update_self, hmap]
    by_cases hpk : pk = .null
    · rw [hpk]
      rfl
    · rw [hins hpk]
      simp [hpk]
  · rw [update_of_ne ht, if_neg fun hc => ht hc.2.1]

end

theorem withKey_of_free {map : String → Identifier → Option ProxyPtr} {node : String}
    (hfree : pk ≠ .null → map node pk = none) (type : String) (k : Identifier) :
    withKey map node pk p type k = if pk ≠ .null ∧ type = node ∧ k = pk then some p
    else map type k := by
  unfold withKey
  split
  · next hc => rw [hc.2.1, hc.2.2, hfree hc.1, Option.none_or]
  · rfl

theorem idMapOf_removeProxy (hnd : (t.nodes.map PrototypeNode.type).Nodup)
    (hn : n ∈ t.nodes) (hpk : pk ≠ .null → n.hasPrimaryKey)
    (hnull : t.idMapOf n.type .null = none) (type : String) (k : Identifier) :
    (t.removeProxy n.type p pk).idMapOf type k = if type = n.type ∧ k = pk then none
    else t.idMapOf type k := by
  have hmap : t.idMapOf n.type = n.idMap := idMapIn_of_mem hnd hn
  rw [removeProxy_idMapOf hnd hn, ← hmap]
  by_cases ht : type = n.type
  · subst ht
    rw [update_self]
    by_cases hkey : n.hasPrimaryKey
    · rw [if_pos hkey, erase, update_apply]
      simp
    · have hpk : pk = .null := by
        by_contra hc
        exact hkey (hpk hc)
      rw [if_neg hkey, hpk]
      by_cases hk : k = .null
      · simp [hk, hnull]
      · simp [hk]
  · rw [update_of_ne ht, if_neg fun hc => ht hc.1]

end IdMap

/-! ## Keys in the log -/

/-- The log `L` describes the change of the maps from `before` to `now`. -/
structure Keys (before now : String → Identifier → Option ProxyPtr)
    (L : List (ActionKind × Entry)) : Prop where
  insert : ∀ e, (.insert, e) ∈ L → e.data.pk ≠ .null →
    before e.data.node e.data.pk = none ∧ now e.data.node e.data.pk = some e.proxy
  delete : ∀ e, (.delete, e) ∈ L → e.data.pk ≠ .null →
    before e.data.node e.data.pk = some e.proxy ∧ now e.data.node e.data.pk = none
  rest : ∀ type k, (∀ kind e, (kind, e) ∈ L → kind ≠ .update → k ≠ .null →
    ¬(type = e.data.node ∧ k = e.data.pk)) → now type k = before type k

namespace Keys

variable {before now now' : String → Identifier → Option ProxyPtr}
  {L L' : List (ActionKind × Entry)} {e : Entry}

theorem perm (h : Keys before now L) (hL : L'.Perm L) : Keys before now L' where
  insert := fun e he => h.insert e (hL.mem_iff.mp he)
  delete := fun e he => h.delete e (hL.mem_iff.mp he)
  rest := fun type k hk => h.rest type k fun kind e he => hk kind e (hL.mem_iff.mpr he)

theorem null_eq (h : Keys before now L) (type : String) : now type .null = before type .null :=
  h.rest type .null fun _ _ _ _ hc => absurd rfl hc

theorem cons_update (h : Keys before now L) : Keys before now ((.update, e) :: L) where
  insert := fun e' he' => h.insert e' ((mem_cons.mp he').resolve_left (by simp))
  delete := fun e' he' => h.delete e' ((mem_cons.mp he').resolve_left (by simp))
  rest := fun type k hk => h.rest type k fun kind e' he' => hk kind e' (by simp [he'])

theorem tail_update (h : Keys before now ((.update, e) :: L)) : Keys before now L where
  insert := fun e' he' => h.insert e' (by simp [he'])
  delete := fun e' he' => h.delete e' (by simp [he'])
  rest := by
    refine fun type k hk => h.rest type k fun kind e' he' hkind => ?_
    refine hk kind e' ((mem_cons.mp he').resolve_left fun hc => hkind ?_) hkind
    exact (Prod.mk.inj hc).1

theorem cons_insert (h : Keys before now L)
    (hfree : e.data.pk ≠ .null → now e.data.node e.data.pk = none ∧
      ∀ e', (.delete, e') ∈ L → ¬(e'.data.node = e.data.node ∧ e'.data.pk = e.data.pk))
    (hnow : ∀ type k, now' type k =
      if e.data.pk ≠ .null ∧ type = e.data.node ∧ k = e.data.pk then some e.proxy else now type k) :
    Keys before now' ((.insert, e) :: L) := by
  have hsame : ∀ type k, ¬(e.data.pk ≠ .null ∧ type = e.data.node ∧ k = e.data.pk) →
      now' type k = now type k := fun type k hne => by rw [hnow, if_neg hne]
  refine ⟨?_, ?_, ?_⟩
  · intro e' he' hpk
    rcases mem_cons.mp he' with he' | he'
    · cases he'
      obtain ⟨hnone, hdel⟩ := hfree hpk
      refine ⟨?_, by rw [hnow, if_pos ⟨hpk, rfl, rfl⟩]⟩
      -- no entry of the log has this key
      rw [← h.rest _ _ fun kind e' he' hkind _ hkey => ?_]
      · exact hnone
      · cases kind with
        | insert =>
          rw [hkey.1, hkey.2, (h.insert e' he' (hkey.2 ▸ hpk)).2] at hnone
          cases hnone
        | update => exact hkind rfl
        | delete => exact hdel e' he' ⟨hkey.1.symm, hkey.2.symm⟩
    · obtain ⟨hbef, hthen⟩ := h.insert e' he' hpk
      refine ⟨hbef, ?_⟩
      rw [hsame _ _ fun hc => ?_]
      · exact hthen
      · rw [hc.2.1, hc.2.2, (hfree hc.1).1] at hthen
        cases hthen
  · intro e' he' hpk
    have he' := (mem_cons.mp he').resolve_left (by simp)
    obtain ⟨hbef, hthen⟩ := h.delete e' he' hpk
    exact ⟨hbef, (hsame _ _ fun hc => (hfree hc.1).2 e' he' hc.2).trans hthen⟩
  · intro type k hk
    rw [hsame type k fun hc => hk .insert e (by simp) (by simp) (hc.2.2 ▸ hc.1) hc.2]
    exact h.rest type k fun kind e' he' => hk kind e' (by simp [he'])

theorem cons_delete (h : Keys before now L)
    (hkey : e.data.pk ≠ .null → now e.data.node e.data.pk = some e.proxy)
    (hp : ∀ e', (.insert, e') ∈ L → e'.proxy ≠ e.proxy) (hnull : now e.data.node .null = none)
    (hnow : ∀ type k, now' type k = if type = e.data.node ∧ k = e.data.pk then none
      else now type k) :
    Keys before now' ((.delete, e) :: L) := by
  refine ⟨?_, ?_, ?_⟩
  · intro e' he' hpk
    have he' := (mem_cons.mp he').resolve_left (by simp)
    obtain ⟨hbef, hthen⟩ := h.insert e' he' hpk
    refine ⟨hbef, ?_⟩
    rw [hnow, if_neg fun hc => ?_]
    · exact hthen
    · rw [hc.1, hc.2, hkey (hc.2 ▸ hpk), Option.some.injEq] at hthen
      exact hp e' he' hthen.symm
  · intro e' he' hpk
    rcases mem_cons.mp he' with he' | he'
    · cases he'
      refine ⟨?_, by rw [hnow, if_pos ⟨rfl, rfl⟩]⟩
      rw [← h.rest _ _ fun kind e' he' hkind _ hc => ?_]
      · exact hkey hpk
      · cases kind with
        | insert =>
          have hthen := (h.insert e' he' (hc.2 ▸ hpk)).2
          rw [← hc.1, ← hc.2, hkey hpk, Option.some.injEq] at hthen
          exact hp e' he' hthen.symm
        | update => exact hkind rfl
        | delete =>
          have hthen := (h.delete e' he' (hc.2 ▸ hpk)).2
          rw [← hc.1, ← hc.2, hkey hpk] at hthen
          cases hthen
    · obtain ⟨hbef, hthen⟩ := h.delete e' he' hpk
      refine ⟨hbef, ?_⟩
      rw [hnow]
      split
      · rfl
      · exact hthen
  · intro type k hk
    rw [← h.rest type k fun kind e' he' => hk kind e' (by simp [he']), hnow]
    split
    · next hc =>
      have hkn : k = .null := by
        by_contra hkn
        exact hk .delete e (by simp) (by simp) hkn hc
      rw [hc.1, hkn, hnull]
    · rfl

theorem tail {kind : ActionKind} (h : Keys before now ((kind, e) :: L)) (hkind : kind ≠ .update)
    (hp : e.proxy ∉ L.map fun x => x.2.proxy)
    (hnow : ∀ type k, now' type k = if type = e.data.node ∧ k = e.data.pk then before type k
      else now type k) :
    Keys before now' L := by
  have hne : ∀ kind' e', (kind', e') ∈ L → e'.proxy ≠ e.proxy := fun kind' e' he' hc =>
    hp (mem_map.mpr ⟨(kind', e'), he', hc⟩)
  -- the other entries have other keys
  have hoth : ∀ kind' e', (kind', e') ∈ L → kind' ≠ .update → e'.data.pk ≠ .null →
      ¬(e'.data.node = e.data.node ∧ e'.data.pk = e.data.pk) := by
    rintro kind' e' he' hkind' hpk ⟨hnode, hkey⟩
    cases kind' with
    | update => exact hkind' rfl
    | insert =>
      have h' := (h.insert e' (by simp [he']) hpk).2
      cases kind with
      | update => exact hkind rfl
      | insert =>
        rw [hnode, hkey, (h.insert e (by simp) (hkey ▸ hpk)).2, Option.some.injEq] at h'
        exact hne _ e' he' h'.symm
      | delete =>
        rw [hnode, hkey, (h.delete e (by simp) (hkey ▸ hpk)).2] at h'
        cases h'
    | delete =>
      obtain ⟨hbef, hthen⟩ := h.delete e' (by simp [he']) hpk
      cases kind with
      | update => exact hkind rfl
      | insert =>
        rw [hnode, hkey, (h.insert e (by simp) (hkey ▸ hpk)).2] at hthen
        cases hthen
      | delete =>
        rw [hnode, hkey, (h.delete e (by simp) (hkey ▸ hpk)).1, Option.some.injEq] at hbef
        exact hne _ e' he' hbef.symm
  refine ⟨?_, ?_, ?_⟩
  · intro e' he' hpk
    rw [hnow, if_neg (hoth _ e' he' (by simp) hpk)]
    exact h.insert e' (by simp [he']) hpk
  · intro e' he' hpk
    rw [hnow, if_neg (hoth _ e' he' (by simp) hpk)]
    exact h.delete e' (by simp [he']) hpk
  · intro type k hk
    rw [hnow]
    split
    · rfl
    · next hc =>
      refine h.rest type k fun kind' e' he' hkind' hkn => ?_
      rcases mem_cons.mp he' with he' | he'
      · cases he'
        exact hc
      · exact hk kind' e' he' hkind' hkn

end Keys

end Matador.Object
