import Matador.Object.NodeObjects

/-!
# Attaching types keeps the layout

A root gets a list of its own. A child is put behind the subtree of its parent: `op_last` of the
parent is used as the border behind the subtree, so this pointer has to be right (`hlast` in
`Layout.insertChild`).

`LastsRight` says that every `op_last` is right. It is kept as long as every move of the first
object of a node reaches all nodes whose range ends there (`LastsRight.change`).
-/

namespace Matador.Object

open PrototypeNode List Lib PrototypeTree

variable {own : Own} {t : PrototypeTree} {segs G₁ G₂ : List Segment} {S : Segment}
  {pre post : List PrototypeNode} {n c : PrototypeNode}

/-! ## Roots -/

def rootNode (t : PrototypeTree) (c : PrototypeNode) : PrototypeNode :=
  { c with
    depth := 0, opFirst := t.nextProxy, opMarker := t.nextProxy + 1, opLast := t.nextProxy + 1 }

/-- **A new root keeps the layout.** -/
theorem Layout.append (h : Layout own t segs) (hc : c.type ∉ t.nodes.map type)
    (hown : own c.type = []) (hcou : c.count = 0) :
    Layout own (t.append c) (segs ++ [⟨t.nextProxy, t.nextProxy + 1, [rootNode t c]⟩]) := by
  have hcls : Segment.cells own ⟨t.nextProxy, t.nextProxy + 1, [rootNode t c]⟩ =
      [t.nextProxy, t.nextProxy + 1] := by
    simp [Segment.cells, cellsOf, ownOf, rootNode, hown]
  have hlt := h.cells_lt
  refine ⟨?_, ?_, ?_, ?_, by simp only [PrototypeTree.append]; lia, ?_⟩
  · rw [flatMap_append, ← h.nodes_eq]
    rfl
  · simp only [PrototypeTree.append, map_append]
    exact nodup_append.mpr ⟨h.types_nodup, nodup_singleton _, by
      rintro a ha b hb rfl
      rw [mem_singleton.mp hb] at ha
      exact hc ha⟩
  · rw [flatMap_append, flatMap_cons, hcls]
    refine nodup_append.mpr ⟨h.cells_nodup, by simp, ?_⟩
    rintro a ha b hb rfl
    have := (hlt a ha).2
    simp only [flatMap_nil, append_nil, mem_cons, not_mem_nil] at hb
    lia
  · intro a ha
    rw [flatMap_append, flatMap_cons, hcls] at ha
    rcases mem_append.mp ha with ha | ha
    · have := hlt a ha
      simp only [PrototypeTree.append]
      lia
    · simp only [flatMap_nil, append_nil, mem_cons, not_mem_nil] at ha
      simp only [PrototypeTree.append]
      have hpos : 0 < t.nextProxy := h.next_pos
      lia
  · intro T hT
    rcases mem_append.mp hT with hT | hT
    · have hT' := h.ok T hT
      refine { hT' with linked := hT'.linked.congr (fun a ha => ?_) (fun a ha => ?_) }
      · have := (hlt a (mem_flatMap.mpr ⟨T, hT, dropLast_subset _ ha⟩)).2
        simp only [PrototypeTree.append]
        rw [Function.update_of_ne (by lia), Function.update_of_ne (by lia)]
      · have := (hlt a (mem_flatMap.mpr ⟨T, hT, mem_of_mem_tail ha⟩)).2
        simp only [PrototypeTree.append]
        rw [Function.update_of_ne (by lia), Function.update_of_ne (by lia)]
    · rw [mem_singleton.mp hT]
      refine ⟨?_, ⟨rfl, trivial⟩, ⟨rfl, trivial⟩, ?_, ⟨rootNode t c, [], rfl, rfl, by simp⟩⟩
      · rw [hcls, linked_cons_cons]
        refine ⟨⟨?_, ?_⟩, linked_singleton _ _⟩
        · simp [PrototypeTree.append]
        · simp [PrototypeTree.append]
      · intro m hm
        rw [mem_singleton.mp hm]
        simp [rootNode, hown, hcou]

/-! ## Children -/

theorem Layout.roots (h : Layout own t (G₁ ++ S :: G₂)) :
    ∀ m ∈ (G₂.flatMap Segment.nodes).head?, m.depth = 0 := by
  cases G₂ with
  | nil => simp
  | cons T G =>
    obtain ⟨r, rest, hr, hd, -⟩ := (h.ok T (by simp)).root
    intro m hm
    rw [flatMap_cons, hr] at hm
    simp only [cons_append, head?_cons, Option.mem_def, Option.some.injEq] at hm
    rw [← hm, hd]

theorem descendants_append {d : Nat} {ms : List PrototypeNode}
    (hms : ∀ m ∈ ms.head?, m.depth = 0) (ns : List PrototypeNode) :
    descendants d (ns ++ ms) = descendants d ns ∧ behind d (ns ++ ms) = behind d ns ++ ms := by
  have hroot : ms.takeWhile (fun m => d < m.depth) = [] ∧
      ms.dropWhile (fun m => d < m.depth) = ms := by
    cases ms with
    | nil => exact ⟨rfl, rfl⟩
    | cons m ms =>
      have hm := hms m rfl
      rw [takeWhile_cons_of_neg (by simp [hm]), dropWhile_cons_of_neg (by simp [hm])]
      exact ⟨rfl, rfl⟩
  induction ns with
  | nil => exact hroot
  | cons n ns ih =>
    simp only [descendants, behind] at ih ⊢
    by_cases hd : d < n.depth
    · rw [cons_append, takeWhile_cons_of_pos (by simpa using hd),
        takeWhile_cons_of_pos (by simpa using hd), dropWhile_cons_of_pos (by simpa using hd),
        dropWhile_cons_of_pos (by simpa using hd), ih.1, ih.2]
      exact ⟨rfl, rfl⟩
    · rw [cons_append, takeWhile_cons_of_neg (by simpa using hd),
        takeWhile_cons_of_neg (by simpa using hd), dropWhile_cons_of_neg (by simpa using hd),
        dropWhile_cons_of_neg (by simpa using hd)]
      exact ⟨rfl, rfl⟩

theorem descendants_append_behind (d : Nat) (ns : List PrototypeNode) :
    descendants d ns ++ behind d ns = ns := takeWhile_append_dropWhile

def childNode (t : PrototypeTree) (n c : PrototypeNode) : PrototypeNode :=
  { c with
    depth := n.depth + 1
    opFirst := if t.links.next n.opFirst = n.opLast then n.opFirst else t.links.prev n.opLast
    opMarker := n.opLast
    opLast := n.opLast }

def childSegment (t : PrototypeTree) (S : Segment) (pre : List PrototypeNode)
    (n c : PrototypeNode) (post : List PrototypeNode) : Segment :=
  { S with
    nodes := pre ++ n :: (descendants n.depth post ++ childNode t n c :: behind n.depth post) }

theorem root_insert {ns ms : List PrototypeNode}
    (hroot : ∃ r rest, ns ++ ms = r :: rest ∧ r.depth = 0 ∧ ∀ m ∈ rest, 0 < m.depth)
    (hns : ns ≠ []) (hn : 0 < n.depth) :
    ∃ r rest, ns ++ n :: ms = r :: rest ∧ r.depth = 0 ∧ ∀ m ∈ rest, 0 < m.depth := by
  obtain ⟨r, rest, hr, hd, hrest⟩ := hroot
  cases ns with
  | nil => exact absurd rfl hns
  | cons k ns =>
    obtain ⟨rfl, rfl⟩ := cons.inj hr
    obtain ⟨hns, hms⟩ := forall_mem_append.mp hrest
    exact ⟨k, ns ++ n :: ms, rfl, hd, forall_mem_append.mpr ⟨hns, forall_mem_cons.mpr ⟨hn, hms⟩⟩⟩

section Child

variable (h : Layout own t (G₁ ++ S :: G₂)) (hS : S.nodes = pre ++ n :: post)
  (hlast : n.opLast = firstOf (ownOf own) (behind n.depth post) S.tail)

include h hS hlast

theorem Layout.subtree_split : ∃ l₁ l₂, S.cells own = l₁ ++ n.opFirst ::
      ((own n.type ++ cellsOf (ownOf own) (descendants n.depth post)) ++ n.opLast :: l₂) ∧
    S.head :: cellsOf (ownOf own) pre = l₁ ++ [n.opFirst] ∧
    cellsOf (ownOf own) (behind n.depth post) ++ [S.tail] = n.opLast :: l₂ := by
  obtain ⟨l₁, hl₁⟩ := h.before_eq hS
  obtain ⟨l₂, hl₂⟩ := @exists_firstOf _ _ (ownOf own) (behind n.depth post) S.tail
  rw [← hlast] at hl₂
  refine ⟨l₁, l₂, ?_, hl₁, hl₂⟩
  have hpost : cellsOf (ownOf own) post = cellsOf (ownOf own) (descendants n.depth post) ++
      cellsOf (ownOf own) (behind n.depth post) := by
    rw [← cellsOf_append, descendants_append_behind]
  rw [Segment.cells_eq hS, hl₁, hpost, append_assoc, append_assoc, append_assoc, hl₂]
  simp only [append_assoc, cons_append, nil_append]

theorem Layout.childNode_opFirst : (childNode t n c).opFirst =
      lastOf (ownOf own) S.head (pre ++ n :: descendants n.depth post) := by
  obtain ⟨l₁, l₂, hcls, -, -⟩ := h.subtree_split hS hlast
  have hl := (h.ok S (by simp)).linked
  have hnd := (nodup_flatMap.mp h.cells_nodup).1 S (by simp)
  rw [hcls] at hl hnd
  have hlas : lastOf (ownOf own) S.head (pre ++ n :: descendants n.depth post) =
      (own n.type ++ cellsOf (ownOf own) (descendants n.depth post)).getLastD n.opFirst := by
    rw [lastOf_append, ← h.opFirst_eq hS]
    rfl
  rw [hlas]
  simp only [childNode, hl.borders.1, hl.borders.2]
  -- the list between the two pointers is empty exactly when `next` of the first is the last
  cases hw : own n.type ++ cellsOf (ownOf own) (descendants n.depth post) with
  | nil => rw [headD_nil, if_pos rfl, getLastD_nil]
  | cons x w =>
    have hx : x ≠ n.opLast := by
      rintro rfl
      rw [hw] at hnd
      have hnd' := (nodup_cons.mp (nodup_append.mp hnd).2.1).2
      exact (nodup_cons.mp hnd').1 (by simp)
    rw [headD_cons, if_neg hx]

/-- **A new child keeps the layout.** -/
theorem Layout.insertChild (hc : c.type ∉ t.nodes.map type) (hown : own c.type = [])
    (hcou : c.count = 0) :
    Layout own (t.insertChild n.type c) (G₁ ++ childSegment t S pre n c post :: G₂) := by
  have hnew : ownOf own (childNode t n c) = [] := hown
  have hpost := descendants_append_behind n.depth post
  -- the list of nodes is cut at the place of the child
  have hS' : S.nodes = (pre ++ n :: descendants n.depth post) ++ behind n.depth post := by
    rw [hS, append_assoc, cons_append, hpost]
  have hchd : (childSegment t S pre n c post).nodes =
      (pre ++ n :: descendants n.depth post) ++ childNode t n c :: behind n.depth post := by
    simp only [childSegment, append_assoc, cons_append]
  have hcls : (childSegment t S pre n c post).cells own = S.cells own := by
    rw [Segment.cells, Segment.cells, hS', hchd]
    simp only [cellsOf_append, cellsOf_cons, hnew]
    rfl
  have htree : t.insertChild n.type c =
      { t with nodes := (G₁ ++ childSegment t S pre n c post :: G₂).flatMap Segment.nodes } := by
    obtain ⟨hd, hb⟩ := descendants_append (d := n.depth) h.roots post
    unfold PrototypeTree.insertChild
    rw [h.locate_split hS]
    simp only [hd, hb]
    rw [flatMap_append, flatMap_cons, hchd]
    simp only [append_assoc]
    rfl
  rw [htree]
  refine h.replace hcls ?_ rfl ?_
  · have hok := h.ok S (by simp)
    obtain ⟨hf₁, hf₂⟩ : _ ∧ _ := firstsOk_append.mp (hS' ▸ hok.first)
    obtain ⟨hm₁, hm₂⟩ : _ ∧ _ := markersOk_append.mp (hS' ▸ hok.marker)
    obtain ⟨hc₁, hc₂⟩ : _ ∧ _ := forall_mem_append.mp (hS' ▸ hok.count)
    refine ⟨by rw [hcls]; exact hok.linked, ?_, ?_, ?_, ?_⟩
    · rw [hchd]
      refine firstsOk_append.mpr ⟨hf₁, h.childNode_opFirst hS hlast, ?_⟩
      rw [hnew]
      exact hf₂
    · rw [hchd]
      refine markersOk_append.mpr ⟨?_, hlast, hm₂⟩
      rw [firstOf_cons, hnew]
      exact hm₁
    · rw [hchd]
      refine forall_mem_append.mpr ⟨hc₁, forall_mem_cons.mpr ⟨hcou.trans ?_, hc₂⟩⟩
      rw [childNode, hown]
      rfl
    · rw [hchd]
      exact root_insert (hS' ▸ hok.root) (by simp) (Nat.succ_pos _)
  · have hnds : t.nodes = (G₁.flatMap Segment.nodes ++ (pre ++ n :: descendants n.depth post)) ++
        (behind n.depth post ++ G₂.flatMap Segment.nodes) := by
      rw [h.nodes_eq, flatMap_append, flatMap_cons, hS', append_assoc _ (behind _ _),
        ← append_assoc]
    rw [flatMap_append, flatMap_cons, hchd, append_assoc, ← append_assoc, cons_append,
      map_append, map_cons, nodup_middle, ← map_append, ← hnds]
    exact nodup_cons.mpr ⟨hc, h.types_nodup⟩

end Child

/-! ## The ranges -/

/-- Every `op_last` is the proxy behind the last object of the node and its descendants. -/
def LastsRight (own : Own) (segs : List Segment) : Prop :=
  ∀ S ∈ segs, LastsOk (ownOf own) PrototypeNode.opLast PrototypeNode.depth S.tail S.nodes

section Range

variable {own' : Own} {n' : PrototypeNode}

theorem LastsRight.opLast_eq (hl : LastsRight own (G₁ ++ S :: G₂))
    (hS : S.nodes = pre ++ n :: post) :
    n.opLast = firstOf (ownOf own) (behind n.depth post) S.tail := by
  have h : LastsOk _ _ _ _ S.nodes := hl S (by simp)
  rw [hS] at h
  clear hS
  induction pre with
  | nil => exact h.1
  | cons m pre ih => exact ih h.2

/-- **A change of one segment keeps the ranges** when the border does not move or no `op_last` is
left behind. -/
theorem LastsRight.change (h : Layout own t (G₁ ++ S :: G₂)) (hS : S.nodes = pre ++ n :: post)
    (hl : LastsRight own (G₁ ++ S :: G₂)) (hch : NodeChange own own' n n')
    {u : List ProxyPtr} (hu : own' n.type = u)
    (hgrd : leftBorder own S (own n.type) post = leftBorder own S u post ∨
      LastsGuard opLast depth n.depth (leftBorder own S (own n.type) post) pre) :
    LastsRight own' (changedSegs own G₁ S pre n n' post G₂ u) := by
  subst hu
  obtain ⟨hne₁, hne₂⟩ := type_ne_of_nodup h.types_nodup (h.nodes_split hS)
  have hbord : leftBorder own S (own n.type) post ∈ (S.head :: cellsOf (ownOf own) pre) ++
      own n.type ++ (cellsOf (ownOf own) post ++ [S.tail]) := by
    rw [append_assoc]
    exact mem_append_right _ (leftBorder_mem own S _ post)
  intro T hT
  rcases mem_append.mp hT with hT | hT
  · -- a tree before the one with `n`: no `op_last` points into the list of `n`
    obtain ⟨T, hT', rfl⟩ := mem_map.mp hT
    have hTl := hl T (by simp [hT'])
    refine hTl.map (fun m hm => hch.own_of_ne (hne₁ m ?_) rfl) (fun _ _ => rfl) fun m hm => ?_
    · exact mem_append_left _ (mem_flatMap.mpr ⟨T, hT', hm⟩)
    · have hmem : m.opLast ∈ T.cells own := mem_cons_of_mem _ (hTl.last_mem hm)
      have hne : m.opLast ≠ leftBorder own S (own n.type) post := by
        intro he
        exact h.not_mem_of_mem_other hS (mem_append_left _ hT') _ hmem (he ▸ hbord)
      exact if_neg fun hc => hne hc.2
  · rcases mem_cons.mp hT with rfl | hT
    · have hSl := hl S (by simp)
      rw [hS] at hSl
      have hnd := h.nodup_split hS
      have hown : ∀ m ∈ post, ownOf own' (rightMarker (rightBorder own S pre (own n.type))
          (rightBorder own S pre (own' n.type)) m) = ownOf own m :=
        fun m hm => hch.own_of_ne (hne₂ m (mem_append_left _ hm)) rfl
      refine hSl.replace hgrd (firstOf_cons n post S.tail) ?_ ?_
        (fun m hm => hch.own_of_ne (hne₁ m (mem_append_right _ hm)) rfl) (fun _ _ => rfl)
        (fun _ _ => rfl) ⟨hch.depth, hch.last⟩ hown (fun _ _ => rfl) fun _ _ => rfl
      · rw [firstOf_cons, ownOf, hch.type, firstOf_map hown]
        rfl
      · intro hc
        rw [append_assoc, nodup_append] at hnd
        exact hnd.2.2 _ (mem_cons_of_mem _ hc) _ (leftBorder_mem own S _ post) rfl
    · obtain ⟨T, hT', rfl⟩ := mem_map.mp hT
      refine (hl T (by simp [hT'])).map (fun m hm => hch.own_of_ne (hne₂ m ?_) rfl) (fun _ _ => rfl)
        fun _ _ => rfl
      exact mem_append_right _ (mem_flatMap.mpr ⟨T, hT', hm⟩)

theorem LastsRight.append (hl : LastsRight own segs) :
    LastsRight own (segs ++ [⟨t.nextProxy, t.nextProxy + 1, [rootNode t c]⟩]) := by
  intro T hT
  rcases mem_append.mp hT with hT | hT
  · exact hl T hT
  · rw [mem_singleton.mp hT]
    exact ⟨rfl, trivial⟩

theorem LastsRight.insertChild (hS : S.nodes = pre ++ n :: post)
    (hl : LastsRight own (G₁ ++ S :: G₂)) (hown : own c.type = []) :
    LastsRight own (G₁ ++ childSegment t S pre n c post :: G₂) := by
  intro T hT
  by_cases hTS : T = childSegment t S pre n c post
  · subst hTS
    have hSl := hl S (by simp)
    rw [hS, ← descendants_append_behind n.depth post, ← cons_append, ← append_assoc] at hSl
    have hins := hSl.insert (c := childNode t n c) (fun m hm => ?_) hown (hl.opLast_eq hS)
    · rwa [append_assoc] at hins
    · -- the first node behind the subtree is not deeper than `n`
      have hm' := head?_dropWhile_not (fun m : PrototypeNode => decide (n.depth < m.depth)) post
      rw [behind] at hm
      rw [hm] at hm'
      simp only [childNode]
      simp at hm'
      omega
  · refine hl T ?_
    rcases mem_append.mp hT with hT | hT
    · exact mem_append_left _ hT
    · exact mem_append_right _ (mem_cons_of_mem _ ((mem_cons.mp hT).resolve_left hTS))

end Range

end Matador.Object
