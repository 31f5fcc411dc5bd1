import Matador.Object.NodeLayout

/-!
# Inserting and removing proxies keeps the layout

`prototype_node::insert` puts a new proxy before the last object of its node, or makes it the only
one; `prototype_node::remove` takes a proxy out. In each case the three branches of the source come
down to one change of a segment: where the source does not touch the markers, the border of the
segment has not moved, and redirecting a pointer to itself does nothing.
-/

namespace Matador.Object

open Function List Lib PrototypeTree

variable {own : Own} {t : PrototypeTree} {segs G₁ G₂ : List Segment} {S : Segment}
  {pre post : List PrototypeNode} {n : PrototypeNode} {p : ProxyPtr} {pk : Identifier}

theorem Layout.exists_split (h : Layout own t segs) {pre₀ post₀ : List PrototypeNode}
    (hnds : t.nodes = pre₀ ++ n :: post₀) :
    ∃ G₁ S G₂ pre post, segs = G₁ ++ S :: G₂ ∧ S.nodes = pre ++ n :: post ∧
      pre₀ = G₁.flatMap Segment.nodes ++ pre ∧ post₀ = post ++ G₂.flatMap Segment.nodes :=
  flatMap_eq_append_cons (h.nodes_eq ▸ hnds)

theorem Layout.replace (h : Layout own t (G₁ ++ S :: G₂)) {S' : Segment}
    (hcls : S'.cells own = S.cells own) (hok : S'.Ok own t.links) {ns : List PrototypeNode}
    (hns : ns = (G₁ ++ S' :: G₂).flatMap Segment.nodes) (htys : (ns.map PrototypeNode.type).Nodup) :
    Layout own { t with nodes := ns } (G₁ ++ S' :: G₂) := by
  have hall : (G₁ ++ S' :: G₂).flatMap (Segment.cells own) =
      (G₁ ++ S :: G₂).flatMap (Segment.cells own) := by
    rw [flatMap_append, flatMap_append, flatMap_cons, flatMap_cons, hcls]
  obtain ⟨hok₁, hok₂⟩ := forall_mem_append.mp h.ok
  exact ⟨hns, htys, hall ▸ h.cells_nodup, hall ▸ h.cells_lt, h.next_pos,
    forall_mem_append.mpr ⟨hok₁, forall_mem_cons.mpr ⟨hok, (forall_mem_cons.mp hok₂).2⟩⟩⟩

/-! ## The neighbours of a segment -/

section Neighbours

variable (h : Layout own t (G₁ ++ S :: G₂)) (hS : S.nodes = pre ++ n :: post)

include h hS

theorem Layout.locate_split : locate n.type t.nodes =
      some (G₁.flatMap Segment.nodes ++ pre, n, post ++ G₂.flatMap Segment.nodes) := by
  exact locate_of_nodup h.types_nodup (h.nodes_split hS)

theorem Layout.linked_split : Linked t.links ((S.head :: cellsOf (ownOf own) pre) ++ own n.type ++
      (cellsOf (ownOf own) post ++ [S.tail])) := by
  have hl := (h.ok S (by simp)).linked
  rwa [Segment.cells_eq hS] at hl

theorem Layout.nodup_split : ((S.head :: cellsOf (ownOf own) pre) ++ own n.type ++
      (cellsOf (ownOf own) post ++ [S.tail])).Nodup := by
  have hnd := (nodup_flatMap.mp h.cells_nodup).1 S (by simp)
  rwa [Segment.cells_eq hS] at hnd

theorem Layout.nodup_own : (own n.type).Nodup :=
  (nodup_append.mp (nodup_append.mp (h.nodup_split hS)).1).2.1

theorem Layout.count_eq : n.count = (own n.type).length :=
  (h.ok S (by simp)).count n (by rw [hS]; simp)

theorem Layout.opFirst_eq : n.opFirst = lastOf (ownOf own) S.head pre := by
  have hf := (h.ok S (by simp)).first
  rw [hS, firstsOk_append] at hf
  exact hf.2.1

theorem Layout.opMarker_eq : n.opMarker = firstOf (ownOf own) post S.tail := by
  have hm := (h.ok S (by simp)).marker
  rw [hS, markersOk_append] at hm
  exact hm.2.1

theorem Layout.behind_eq : ∃ rest, cellsOf (ownOf own) post ++ [S.tail] = n.opMarker :: rest := by
  rw [h.opMarker_eq hS]
  exact exists_firstOf post S.tail

theorem Layout.before_eq : ∃ rest, S.head :: cellsOf (ownOf own) pre = rest ++ [n.opFirst] := by
  rw [h.opFirst_eq hS, lastOf]
  rcases eq_nil_or_concat (cellsOf (ownOf own) pre) with hc | ⟨l, a, hc⟩
  · rw [hc]
    exact ⟨[], rfl⟩
  · rw [hc]
    exact ⟨S.head :: l, by simp⟩

theorem Layout.borders : t.links.next n.opFirst = leftBorder own S (own n.type) post ∧
    t.links.prev n.opMarker = rightBorder own S pre (own n.type) := by
  have hl := h.linked_split hS
  obtain ⟨rest, hrest⟩ := h.behind_eq hS
  obtain ⟨front, hfrt⟩ := h.before_eq hS
  rw [hrest, hfrt, append_assoc, append_assoc] at hl
  rw [hl.borders.1, hl.borders.2, h.opMarker_eq hS, h.opFirst_eq hS]
  exact ⟨rfl, rfl⟩

theorem Layout.not_mem_of_mem_other {T : Segment} (hT : T ∈ G₁ ++ G₂) :
    ∀ c ∈ T.cells own, c ∉ (S.head :: cellsOf (ownOf own) pre) ++ own n.type ++
      (cellsOf (ownOf own) post ++ [S.tail]) := by
  intro c hc hcS
  have hall := h.cells_nodup
  rw [← Segment.cells_eq hS] at hcS
  rw [flatMap_append] at hall
  rcases mem_append.mp hT with hT | hT
  · exact (nodup_append.mp hall).2.2 c (mem_flatMap.mpr ⟨T, hT, hc⟩) c (mem_append_left _ hcS) rfl
  · exact (nodup_append.mp (nodup_append.mp hall).2.1).2.2 c hcS c (mem_flatMap.mpr ⟨T, hT, hc⟩) rfl

theorem Layout.zero_not_mem : (0 : ProxyPtr) ∉ (S.head :: cellsOf (ownOf own) pre) ++ own n.type ++
    (cellsOf (ownOf own) post ++ [S.tail]) := by
  rw [← Segment.cells_eq hS]
  exact fun hc => absurd (h.cells_lt 0 (mem_flatMap.mpr ⟨S, by simp, hc⟩)).1 (Nat.lt_irrefl 0)

end Neighbours

/-! ## Inserting -/

/-- The objects of a node after `insert`: the new proxy stands before the last one. -/
def insertOwn (p : ProxyPtr) (u : List ProxyPtr) : List ProxyPtr :=
  u.dropLast ++ p :: u.getLast?.toList

theorem insertOwn_concat (p : ProxyPtr) (l : List ProxyPtr) (y : ProxyPtr) :
    insertOwn p (l ++ [y]) = l ++ [p, y] := by
  simp [insertOwn]

theorem mem_insertOwn {p c : ProxyPtr} {u : List ProxyPtr} : c ∈ insertOwn p u ↔ c = p ∨ c ∈ u := by
  rcases eq_nil_or_concat u with rfl | ⟨l, y, rfl⟩
  · simp [insertOwn]
  · rw [concat_eq_append, insertOwn_concat]
    simp only [mem_append, mem_cons]
    tauto

theorem length_insertOwn (p : ProxyPtr) (u : List ProxyPtr) :
    (insertOwn p u).length = u.length + 1 := by
  rcases eq_nil_or_concat u with rfl | ⟨l, y, rfl⟩
  · rfl
  · rw [concat_eq_append, insertOwn_concat]
    simp

theorem nodup_insertOwn {p : ProxyPtr} {u : List ProxyPtr} (hp : p ∉ u) (hu : u.Nodup) :
    (insertOwn p u).Nodup := by
  rcases eq_nil_or_concat u with rfl | ⟨l, y, rfl⟩
  · simp [insertOwn]
  · rw [concat_eq_append] at hp hu ⊢
    rw [insertOwn_concat]
    grind

def insertedNode (n : PrototypeNode) (p : ProxyPtr) (pk : Identifier) : PrototypeNode :=
  { n with count := n.count + 1, idMap := insertId n.idMap pk p }

def insertPosition (own : Own) (n : PrototypeNode) : ProxyPtr := (own n.type).getLastD n.opMarker

section Insert

variable (h : Layout own t (G₁ ++ S :: G₂)) (hS : S.nodes = pre ++ n :: post)
  (hp : p ∉ (G₁ ++ S :: G₂).flatMap (Segment.cells own))

include h hS hp

theorem Layout.linked_insert : Linked (t.links.insertBefore 0 p (insertPosition own n))
        ((S.head :: cellsOf (ownOf own) pre) ++ insertOwn p (own n.type) ++
          (cellsOf (ownOf own) post ++ [S.tail])) ∧
      ∀ T ∈ G₁ ++ G₂, Linked (t.links.insertBefore 0 p (insertPosition own n)) (T.cells own) := by
  have hl := h.linked_split hS
  have hnd := h.nodup_split hS
  have h0S := h.zero_not_mem hS
  have hpS : p ∉ (S.head :: cellsOf (ownOf own) pre) ++ own n.type ++
      (cellsOf (ownOf own) post ++ [S.tail]) := by
    rw [← Segment.cells_eq hS]
    exact fun hc => hp (mem_flatMap.mpr ⟨S, by simp, hc⟩)
  -- the list around the place of insertion
  obtain ⟨l₁, l₂, hlist, hne, hnew⟩ : ∃ l₁ l₂,
      (S.head :: cellsOf (ownOf own) pre) ++ own n.type ++ (cellsOf (ownOf own) post ++ [S.tail]) =
        l₁ ++ insertPosition own n :: l₂ ∧ l₁ ≠ [] ∧
      (S.head :: cellsOf (ownOf own) pre) ++ insertOwn p (own n.type) ++
        (cellsOf (ownOf own) post ++ [S.tail]) = l₁ ++ p :: insertPosition own n :: l₂ := by
    rw [insertPosition]
    rcases eq_nil_or_concat (own n.type) with hu | ⟨l, y, hu⟩
    · obtain ⟨rest, hrest⟩ := h.behind_eq hS
      rw [hu, hrest]
      exact ⟨S.head :: cellsOf (ownOf own) pre, rest, by simp, by simp, by simp [insertOwn]⟩
    · rw [hu, concat_eq_append, insertOwn_concat]
      exact ⟨S.head :: cellsOf (ownOf own) pre ++ l, cellsOf (ownOf own) post ++ [S.tail],
        by simp, by simp, by simp⟩
  rw [hnew]
  rw [hlist] at hl hnd hpS h0S
  obtain ⟨hlkd, hfrm⟩ := hl.insertBefore 0 hne hnd hpS fun hc => h0S (mem_append_left _ hc)
  refine ⟨hlkd, fun T hT => hfrm _ (h.ok T (by grind)).linked ?_ ?_⟩
  · exact fun hc => hp (mem_flatMap.mpr ⟨T, by grind, hc⟩)
  · rw [← hlist]
    exact h.not_mem_of_mem_other hS hT

theorem Layout.insertProxy_eq : t.insertProxy n.type p pk =
      changed own t G₁ S pre n (insertedNode n p pk) post G₂ (insertOwn p (own n.type))
        (t.links.insertBefore 0 p (insertPosition own n)) := by
  have hcou := h.count_eq hS
  have hprev := (h.borders hS).2
  have hmar := h.opMarker_eq hS
  -- the new cell between its neighbours
  have hl := (h.linked_insert hS hp).1
  unfold PrototypeTree.insertProxy
  rw [h.locate_split hS]
  simp only [changed, leftNodes, rightNodes, insertPosition] at hl ⊢
  rcases eq_nil_or_concat (own n.type) with hu | ⟨l, y, hu⟩
  · -- no object: both borders move to the new proxy
    rw [hu] at hcou hprev hl ⊢
    obtain ⟨rest, hrest⟩ := h.behind_eq hS
    obtain ⟨front, hfrt⟩ := h.before_eq hS
    rw [hrest, hfrt, append_assoc, append_assoc, getLastD_nil] at hl
    obtain ⟨-, hpp, hpn, -⟩ := hl.neighbours
    rw [length_nil] at hcou
    rw [if_neg (by omega), if_neg (by omega), hpn, hpp, leftBorder, rightBorder, ← hmar,
      ← h.opFirst_eq hS]
    rfl
  · rw [concat_eq_append] at hu
    rw [hu] at hcou hprev hl ⊢
    have hpy : t.links.prev n.opMarker = y := by rw [hprev, rightBorder, getLastD_concat]
    -- the last object stays the last one
    have hrgt : ∀ ns, adjustRightMarker (rightBorder own S pre (l ++ [y]))
        (rightBorder own S pre (insertOwn p (l ++ [y]))) ns = ns := by
      intro ns
      have hb : rightBorder own S pre (insertOwn p (l ++ [y])) =
          rightBorder own S pre (l ++ [y]) := by
        simp [rightBorder, insertOwn_concat]
      rw [hb]
      exact map_id'' (fun m => rightMarker_self _ m) ns
    rw [hrgt, hpy, getLastD_concat]
    rw [length_append, length_singleton] at hcou
    cases l with
    | nil =>
      -- one object: the new proxy becomes the first
      rw [nil_append, getLastD_cons, getLastD_nil, append_assoc] at hl
      obtain ⟨front, hfrt⟩ := h.before_eq hS
      rw [hfrt, append_assoc] at hl
      obtain ⟨-, -, hpn, -⟩ := hl.neighbours
      rw [length_nil] at hcou
      rw [if_neg (by omega), if_pos hcou, hpn]
      rfl
    | cons x l =>
      -- more objects: no border moves
      rw [length_cons] at hcou
      rw [if_pos (by omega)]
      have hb : leftBorder own S (insertOwn p (x :: l ++ [y])) post =
          leftBorder own S (x :: l ++ [y]) post := by
        rw [insertOwn_concat]
        rfl
      rw [hb, adjustLeftMarker, map_id'' (fun m => leftMarker_self _ _ m)]
      rfl

omit hp in
theorem Layout.insert_nodeChange (p : ProxyPtr) (pk : Identifier) :
    NodeChange own (update own n.type (insertOwn p (own n.type))) n (insertedNode n p pk) :=
  .update own n (by rw [length_insertOwn, h.count_eq hS]) _

/-- **Inserting a proxy keeps the layout**, the proxy being a new object of its type. -/
theorem Layout.insertProxy (pk : Identifier) (hlt : 0 < p ∧ p < t.nextProxy) :
    Layout (update own n.type (insertOwn p (own n.type))) (t.insertProxy n.type p pk)
      (changedSegs own G₁ S pre n (insertedNode n p pk) post G₂ (insertOwn p (own n.type))) := by
  have hpu : p ∉ own n.type := fun hc => hp (by rw [cells_split hS]; simp [hc])
  obtain ⟨hk, hoth⟩ := h.linked_insert hS hp
  rw [h.insertProxy_eq hS hp]
  refine h.change hS (h.insert_nodeChange hS p pk) (update_self ..) hk hoth
    (nodup_insertOwn hpu (h.nodup_own hS)) fun c hc => ?_
  rcases mem_insertOwn.mp hc with rfl | hc
  · exact .inr ⟨hp, hlt⟩
  · exact .inl hc

end Insert

/-! ## Removing -/

def removedNode (n : PrototypeNode) (pk : Identifier) : PrototypeNode :=
  { n with
    count := n.count - 1
    idMap := if n.hasPrimaryKey then erase n.idMap pk else n.idMap }

section Remove

variable (h : Layout own t (G₁ ++ S :: G₂)) (hS : S.nodes = pre ++ n :: post)
  {u v : List ProxyPtr} (hu : own n.type = u ++ p :: v)

include h hS hu

theorem Layout.linked_remove :
    Linked (t.links.unlink 0 p) ((S.head :: cellsOf (ownOf own) pre) ++ (u ++ v) ++
        (cellsOf (ownOf own) post ++ [S.tail])) ∧
      ∀ T ∈ G₁ ++ G₂, Linked (t.links.unlink 0 p) (T.cells own) := by
  have hlist : (S.head :: cellsOf (ownOf own) pre) ++ own n.type ++
      (cellsOf (ownOf own) post ++ [S.tail]) = (S.head :: cellsOf (ownOf own) pre ++ u) ++
        p :: (v ++ (cellsOf (ownOf own) post ++ [S.tail])) := by
    rw [hu]
    simp
  have hl := h.linked_split hS
  have hnd := h.nodup_split hS
  have h0 := h.zero_not_mem hS
  rw [hlist] at hl hnd h0
  obtain ⟨hlkd, hfrm⟩ := hl.unlink 0 (by simp) (by simp) hnd h0
  refine ⟨?_, fun T hT => hfrm _ (h.ok T (by grind)).linked ?_⟩
  · simpa only [append_assoc] using hlkd
  · rw [← hlist]
    exact h.not_mem_of_mem_other hS hT

theorem Layout.remove_left (ns : List PrototypeNode) : (if p = t.links.next n.opFirst then
      adjustLeftMarker n.depth (t.links.next n.opFirst) (t.links.next (t.links.next n.opFirst)) ns
      else ns) = leftNodes own S n post (u ++ v) ns := by
  have hnd := h.nodup_own hS
  have hl := h.linked_split hS
  rw [hu] at hnd hl
  rw [(h.borders hS).1, leftNodes, hu]
  cases u with
  | nil =>
    -- `p` is the first object
    have hp : leftBorder own S ([] ++ p :: v) post = p := rfl
    obtain ⟨rest, hrest⟩ := h.behind_eq hS
    simp only [hrest, append_assoc, cons_append] at hl
    rw [← cons_append] at hl
    rw [hp, if_pos rfl, hl.borders.1, h.opMarker_eq hS]
    rfl
  | cons x u =>
    have hp : leftBorder own S (x :: u ++ p :: v) post = x := rfl
    have hx : leftBorder own S (x :: u ++ v) post = x := rfl
    have hpx : p ≠ x := by
      rintro rfl
      exact (nodup_cons.mp hnd).1 (by simp)
    rw [hp, hx, if_neg hpx, adjustLeftMarker, map_id'' (fun m => leftMarker_self _ _ m)]

theorem Layout.remove_right (ns : List PrototypeNode) : (if p = t.links.prev n.opMarker then
      adjustRightMarker p (t.links.prev (t.links.prev n.opMarker)) ns else ns) =
        rightNodes own S pre n (u ++ v) ns := by
  have hnd := h.nodup_own hS
  have hl := h.linked_split hS
  rw [hu] at hnd hl
  rw [(h.borders hS).2, rightNodes, hu]
  rcases eq_nil_or_concat v with rfl | ⟨v, y, rfl⟩
  · -- `p` is the last object
    have hp : rightBorder own S pre (u ++ [p]) = p := by simp [rightBorder]
    obtain ⟨front, hfrt⟩ := h.before_eq hS
    rw [hfrt] at hl
    simp only [append_assoc] at hl
    rw [hp, if_pos rfl, hl.borders.2, h.opFirst_eq hS, append_nil]
    rfl
  · rw [concat_eq_append] at hnd ⊢
    have hp : rightBorder own S pre (u ++ p :: (v ++ [y])) = y := by
      rw [rightBorder, getLastD_append, ← cons_append, getLastD_append]
      rfl
    have hy : rightBorder own S pre (u ++ (v ++ [y])) = y := by simp [rightBorder]
    have hpy : p ≠ y := by
      rintro rfl
      exact (nodup_cons.mp (nodup_append.mp hnd).2.1).1 (by simp)
    rw [hp, hy, if_neg hpy, adjustRightMarker, map_id'' (fun m => rightMarker_self _ m)]

theorem Layout.removeProxy_eq : t.removeProxy n.type p pk =
      changed own t G₁ S pre n (removedNode n pk) post G₂ (u ++ v) (t.links.unlink 0 p) := by
  unfold PrototypeTree.removeProxy
  rw [h.locate_split hS]
  simp only [h.remove_left hS hu, h.remove_right hS hu]
  rfl

theorem Layout.remove_nodeChange (pk : Identifier) :
    NodeChange own (update own n.type (u ++ v)) n (removedNode n pk) := by
  refine .update own n ?_ _
  rw [h.count_eq hS, hu, length_append, length_append]
  rfl

/-- **Removing a proxy keeps the layout.** -/
theorem Layout.removeProxy (pk : Identifier) :
    Layout (update own n.type (u ++ v)) (t.removeProxy n.type p pk)
      (changedSegs own G₁ S pre n (removedNode n pk) post G₂ (u ++ v)) := by
  have hsub : (u ++ v).Sublist (own n.type) := hu ▸ (sublist_cons_self p v).append_left u
  obtain ⟨hk, hoth⟩ := h.linked_remove hS hu
  rw [h.removeProxy_eq hS hu]
  exact h.change hS (h.remove_nodeChange hS hu pk) (update_self ..) hk hoth
    ((h.nodup_own hS).sublist hsub)
    fun c hc => .inl (hsub.subset hc)

end Remove

end Matador.Object
