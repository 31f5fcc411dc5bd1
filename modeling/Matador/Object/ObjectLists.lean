import Matador.Object.NodeAttach

/-!
# The stored objects in their lists

`ListsInv` says that the list of every node consists of exactly the stored objects of that node; it
is kept by attaching types and by inserting and removing proxies. Each of these lemmas also says
when the ranges stay right: `BorderGuard` excludes that a move of the first object of a node leaves
an `op_last` behind.
-/

namespace Matador.Object

open Function List Lib PrototypeTree

/-! ## The stored objects -/

structure ObjectProxy where
  id : Nat
  /-- the name of the C++ type of the object -/
  classname : String
  /-- the name of `node()` -/
  node : String
  pk : Identifier

/-- The nodes with their lists, and the proxies that are in the store. -/
structure ObjectLists where
  tree : PrototypeTree
  proxies : ProxyPtr → Option ObjectProxy

namespace ObjectLists

def empty : ObjectLists := ⟨PrototypeTree.empty, fun _ => none⟩

/-- A new proxy is created; its address is the old `nextProxy`. -/
def alloc (s : ObjectLists) : ObjectLists :=
  { s with tree := { s.tree with nextProxy := s.tree.nextProxy + 1 } }

/-- `prototype_node::insert` of a proxy at its node. -/
def insertAt (s : ObjectLists) (proxy : ProxyPtr) (o : ObjectProxy) : ObjectLists :=
  { tree := s.tree.insertProxy o.node proxy o.pk
    proxies := update s.proxies proxy (some o) }

/-- `prototype_node::remove` of a stored proxy. -/
def removeAt (s : ObjectLists) (proxy : ProxyPtr) (o : ObjectProxy) : ObjectLists :=
  { tree := s.tree.removeProxy o.node proxy o.pk
    proxies := update s.proxies proxy none }

end ObjectLists

/-- The lists contain exactly the stored objects, each in the list of its node. -/
structure ListsInv (own : Own) (segs : List Segment) (s : ObjectLists) : Prop where
  layout : Layout own s.tree segs
  stored : ∀ p type, p ∈ own type ↔ ∃ o, s.proxies p = some o ∧ o.node = type
  attached : ∀ p o, s.proxies p = some o → o.node ∈ s.tree.nodes.map PrototypeNode.type

theorem listsInv_empty : ListsInv (fun _ => []) [] ObjectLists.empty where
  layout := layout_empty _
  stored := by simp [ObjectLists.empty]
  attached := by simp [ObjectLists.empty]

section Invariant

variable {own : Own} {segs : List Segment} {s : ObjectLists} {t' : PrototypeTree}

theorem ListsInv.own_eq_nil (h : ListsInv own segs s) {type : String}
    (ht : type ∉ s.tree.nodes.map PrototypeNode.type) : own type = [] := by
  rw [eq_nil_iff_forall_not_mem]
  intro p hp
  obtain ⟨o, ho, rfl⟩ := (h.stored p type).mp hp
  exact ht (h.attached p o ho)

theorem ListsInv.attach (h : ListsInv own segs s) {type typeId : String} {hasPrimaryKey : Bool}
    {parent : Option String} (hatt : s.tree.attach type typeId hasPrimaryKey parent = .ok t')
    (hlast : ∀ name n, parent = some name → s.tree.findParent name = .ok n →
      ∀ G₁ S G₂ pre post, segs = G₁ ++ S :: G₂ → S.nodes = pre ++ n :: post →
        n.opLast = firstOf (ownOf own) (behind n.depth post) S.tail) :
    ∃ segs', ListsInv own segs' { s with tree := t' } ∧
    (LastsRight own segs → LastsRight own segs') := by
  obtain ⟨hfsh, rfl | ⟨name, n, rfl, hpar, hn, rfl⟩⟩ := attach_ok hatt
  · refine ⟨_, ⟨h.layout.append hfsh (h.own_eq_nil hfsh) rfl, h.stored, ?_⟩, LastsRight.append⟩
    intro p o ho
    simp only [PrototypeTree.append, map_append]
    exact mem_append_left _ (h.attached p o ho)
  · obtain ⟨pre₀, post₀, hnds⟩ := append_of_mem hn
    obtain ⟨G₁, S, G₂, pre, post, rfl, hS, rfl, rfl⟩ := h.layout.exists_split hnds
    have hlay := h.layout.insertChild (c := newNode type typeId hasPrimaryKey) hS
      (hlast name n rfl hpar _ _ _ _ _ rfl hS) hfsh (h.own_eq_nil hfsh) rfl
    refine ⟨_, ⟨hlay, h.stored, ?_⟩, fun hl => hl.insertChild hS (h.own_eq_nil hfsh)⟩
    intro p o ho
    have hmem := h.attached p o ho
    obtain ⟨m, hm, hmt⟩ := mem_map.mp hmem
    refine mem_map.mpr ⟨m, ?_, hmt⟩
    unfold PrototypeTree.insertChild
    rw [h.layout.locate_split hS]
    rw [hnds] at hm
    simp only [mem_append, mem_cons] at hm ⊢
    have hspl := descendants_append_behind n.depth (post ++ G₂.flatMap Segment.nodes)
    have hm' : m ∈ post ++ G₂.flatMap Segment.nodes → m ∈ descendants n.depth
        (post ++ G₂.flatMap Segment.nodes) ∨
          m ∈ behind n.depth (post ++ G₂.flatMap Segment.nodes) := by
      intro hc
      rw [← hspl] at hc
      exact mem_append.mp hc
    simp only [mem_append] at hm'
    tauto

theorem ListsInv.mem_cells (h : ListsInv own segs s) {p : ProxyPtr} {type : String}
    (hp : p ∈ own type) : p ∈ segs.flatMap (Segment.cells own) := by
  obtain ⟨o, ho, rfl⟩ := (h.stored p type).mp hp
  obtain ⟨n, hn, hnt⟩ := mem_map.mp (h.attached p o ho)
  rw [h.layout.nodes_eq] at hn
  obtain ⟨S, hS, hn⟩ := mem_flatMap.mp hn
  refine mem_flatMap.mpr ⟨S, hS, ?_⟩
  have hcell : p ∈ cellsOf (ownOf own) S.nodes :=
    mem_flatMap.mpr ⟨n, hn, by rw [ownOf, hnt]; exact hp⟩
  exact mem_append_left _ (mem_cons_of_mem _ hcell)

/-- No move of the first object of `n` leaves an `op_last` behind; `pre` are the nodes before
`n`. -/
def BorderGuard (t : PrototypeTree) (pre : List PrototypeNode) (n : PrototypeNode) : Prop :=
  LastsGuard PrototypeNode.opLast PrototypeNode.depth n.depth (t.links.next n.opFirst) pre

instance (t : PrototypeTree) (pre : List PrototypeNode) (n : PrototypeNode) :
    Decidable (BorderGuard t pre n) := inferInstanceAs (Decidable (LastsGuard ..))

theorem ListsInv.alloc (h : ListsInv own segs s) :
    ListsInv own segs s.alloc ∧ s.tree.nextProxy ∉ segs.flatMap (Segment.cells own) := by
  refine ⟨⟨{ h.layout with cells_lt := fun c hc => ?_, next_pos := Nat.succ_pos _ }, h.stored,
    h.attached⟩, fun hc => ?_⟩
  · exact ⟨(h.layout.cells_lt c hc).1, Nat.lt_succ_of_lt (h.layout.cells_lt c hc).2⟩
  · exact absurd (h.layout.cells_lt _ hc).2 (Nat.lt_irrefl _)

theorem ListsInv.change {G₁ G₂ : List Segment} {S : Segment} {pre post : List PrototypeNode}
    {n n' : PrototypeNode} {u : List ProxyPtr} {k' : Links ProxyPtr}
    {proxies' : ProxyPtr → Option ObjectProxy} (h : ListsInv own (G₁ ++ S :: G₂) s)
    (hS : S.nodes = pre ++ n :: post) (hn : n'.type = n.type)
    (hlay : Layout (update own n.type u) (changed own s.tree G₁ S pre n n' post G₂ u k') segs)
    (hstd : ∀ p, p ∈ u ↔ ∃ o, proxies' p = some o ∧ o.node = n.type)
    (hoth : ∀ p o, o.node ≠ n.type → (proxies' p = some o ↔ s.proxies p = some o)) :
    ListsInv (update own n.type u) segs ⟨changed own s.tree G₁ S pre n n' post G₂ u k',
      proxies'⟩ := by
  refine ⟨hlay, fun p type => ?_, fun p o ho => changed_types h.layout hS hn ▸ ?_⟩
  · by_cases ht : type = n.type
    · rw [ht, update_self]
      exact hstd p
    · rw [update_of_ne ht, h.stored]
      exact exists_congr fun o => and_congr_left fun hnode => (hoth p o (hnode ▸ ht)).symm
  · by_cases hnode : o.node = n.type
    · rw [hnode, h.layout.nodes_split hS]
      simp
    · exact h.attached p o ((hoth p o hnode).mp ho)

theorem ListsInv.insertAt (h : ListsInv own segs s) {pre₀ post₀ : List PrototypeNode}
    {n : PrototypeNode} (hnds : s.tree.nodes = pre₀ ++ n :: post₀) {p : ProxyPtr}
    (hp : p ∉ segs.flatMap (Segment.cells own)) (hlt : 0 < p ∧ p < s.tree.nextProxy)
    {o : ObjectProxy} (hn : o.node = n.type) :
    ∃ own' segs', ListsInv own' segs' (s.insertAt p o) ∧ sentinels segs' = sentinels segs ∧
      ((n.count ≤ 1 → BorderGuard s.tree pre₀ n) → LastsRight own segs →
        LastsRight own' segs') := by
  obtain ⟨G₁, S, G₂, pre, post, rfl, hS, rfl, rfl⟩ := h.layout.exists_split hnds
  have hlay := h.layout.insertProxy hS hp o.pk hlt
  rw [ObjectLists.insertAt, hn]
  rw [h.layout.insertProxy_eq hS hp] at hlay ⊢
  refine ⟨_, _, h.change hS rfl hlay (fun q => ?_) (fun q d hd => ?_), sentinels_changedSegs .., ?_⟩
  · rw [mem_insertOwn, update_apply]
    by_cases hqp : q = p
    · simp [hqp, hn]
    · rw [or_iff_right hqp, if_neg hqp, h.stored]
  · rw [update_apply]
    by_cases hqp : q = p
    · rw [if_pos hqp, hqp]
      refine iff_of_false (fun ho => hd ?_) fun ho =>
        hp (h.mem_cells ((h.stored p d.node).mpr ⟨d, ho, rfl⟩))
      rw [← Option.some.inj ho, hn]
    · rw [if_neg hqp]
  · intro hgrd hl
    refine hl.change h.layout hS (h.layout.insert_nodeChange hS p o.pk) (update_self ..) ?_
    have hcou := h.layout.count_eq hS
    by_cases hc : n.count ≤ 1
    · right
      have hg := (hgrd hc).of_append
      rwa [(h.layout.borders hS).1] at hg
    · -- the first object stays the first
      left
      match hu : own n.type with
      | [] | [_] =>
        rw [hu] at hcou
        simp at hcou
        omega
      | x :: y :: l => rfl

theorem ListsInv.insertAt_free (h : ListsInv own segs s) {n : PrototypeNode} (hn : n ∈ s.tree.nodes)
    {p : ProxyPtr} (hp : s.proxies p = none) {S : List ProxyPtr} (hS : sentinels segs = S)
    (hpS : p ∉ S) (hlt : 0 < p ∧ p < s.tree.nextProxy) {o : ObjectProxy} (hnode : o.node = n.type) :
    ∃ own' segs', ListsInv own' segs' (s.insertAt p o) ∧ sentinels segs' = S := by
  obtain ⟨pre, post, hnds⟩ := append_of_mem hn
  have hcls : p ∉ segs.flatMap (Segment.cells own) := by
    rw [mem_cells_iff, hS, not_or]
    refine ⟨hpS, ?_⟩
    rintro ⟨m, -, hm⟩
    obtain ⟨d, hd, -⟩ := (h.stored p _).mp hm
    cases hd.symm.trans hp
  obtain ⟨own', segs', hinv', hS', -⟩ := h.insertAt hnds hcls hlt hnode
  exact ⟨own', segs', hinv', hS'.trans hS⟩

theorem ListsInv.removeAt (h : ListsInv own segs s) {pre₀ post₀ : List PrototypeNode}
    {n : PrototypeNode} (hnds : s.tree.nodes = pre₀ ++ n :: post₀) {p : ProxyPtr} {o : ObjectProxy}
    (ho : s.proxies p = some o) (hn : o.node = n.type) :
    ∃ own' segs', ListsInv own' segs' (s.removeAt p o) ∧ sentinels segs' = sentinels segs ∧
      ((p = s.tree.links.next n.opFirst → BorderGuard s.tree pre₀ n) → LastsRight own segs →
        LastsRight own' segs') := by
  obtain ⟨G₁, S, G₂, pre, post, rfl, hS, rfl, rfl⟩ := h.layout.exists_split hnds
  obtain ⟨u, v, hu⟩ := append_of_mem ((h.stored p n.type).mpr ⟨o, ho, hn⟩)
  have hlay := h.layout.removeProxy hS hu o.pk
  rw [ObjectLists.removeAt, hn]
  rw [h.layout.removeProxy_eq hS hu] at hlay ⊢
  refine ⟨_, _, h.change hS rfl hlay (fun q => ?_) (fun q d hd => ?_), sentinels_changedSegs .., ?_⟩
  · rw [update_apply]
    by_cases hqp : q = p
    · have hnd := h.layout.nodup_own hS
      rw [hu, nodup_middle] at hnd
      simpa [hqp] using hnd.notMem
    · rw [if_neg hqp, ← h.stored, hu]
      simp [hqp]
  · rw [update_apply]
    by_cases hqp : q = p
    · rw [if_pos hqp, hqp, ho]
      refine iff_of_false nofun fun hod => hd ?_
      rw [← Option.some.inj hod, hn]
    · rw [if_neg hqp]
  · intro hgrd hl
    refine hl.change h.layout hS (h.layout.remove_nodeChange hS hu o.pk) (update_self ..) ?_
    have hfst := (h.layout.borders hS).1
    rw [hu] at hfst ⊢
    cases u with
    | nil =>
      right
      have hg := (hgrd hfst.symm).of_append
      rwa [hfst] at hg
    | cons x u => exact .inl rfl

end Invariant

end Matador.Object
