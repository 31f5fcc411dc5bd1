import Matador.Object.PrototypeNode
import Matador.Lib.Segments

/-!
# The layout of the object lists

The list of a tree of prototype nodes is cut into one segment per node. `Layout own t segs` says
that the pointers of `t` describe this cut: `own` gives the objects of each type in the order of the
list, and `segs` groups the nodes into trees, each with the two sentinels of its list. `op_last`
needs a condition of its own (`LastsRight`).

`insertProxy` and `removeProxy` change the segment of one node. The nodes before it redirect their
`op_marker` from the old to the new first cell at or behind the segment, those behind it their
`op_first` from the old to the new last cell at or before it. `Layout.change` says that such a
change keeps the layout.
-/

namespace Matador.Object

open List Lib PrototypeTree

/-- The objects of each type. -/
abbrev Own := String → List ProxyPtr

def ownOf (own : Own) (n : PrototypeNode) : List ProxyPtr := own n.type

/-- One tree of the forest with the sentinels of its object list. -/
structure Segment where
  head : ProxyPtr
  tail : ProxyPtr
  nodes : List PrototypeNode

namespace Segment

def cells (own : Own) (S : Segment) : List ProxyPtr :=
  S.head :: cellsOf (ownOf own) S.nodes ++ [S.tail]

/-- The pointers describe the segments of the tree. -/
structure Ok (own : Own) (k : Links ProxyPtr) (S : Segment) : Prop where
  linked : Linked k (S.cells own)
  first : FirstsOk (ownOf own) PrototypeNode.opFirst S.head S.nodes
  marker : MarkersOk (ownOf own) PrototypeNode.opMarker S.tail S.nodes
  count : ∀ n ∈ S.nodes, n.count = (own n.type).length
  root : ∃ r rest, S.nodes = r :: rest ∧ r.depth = 0 ∧ ∀ m ∈ rest, 0 < m.depth

def map (f : PrototypeNode → PrototypeNode) (S : Segment) : Segment :=
  { S with nodes := S.nodes.map f }

end Segment

/-- The forest is the sequence of the segments' nodes, and the lists are disjoint. -/
structure Layout (own : Own) (t : PrototypeTree) (segs : List Segment) : Prop where
  nodes_eq : t.nodes = segs.flatMap Segment.nodes
  types_nodup : (t.nodes.map PrototypeNode.type).Nodup
  cells_nodup : (segs.flatMap (Segment.cells own)).Nodup
  cells_lt : ∀ c ∈ segs.flatMap (Segment.cells own), 0 < c ∧ c < t.nextProxy
  next_pos : 0 < t.nextProxy
  ok : ∀ S ∈ segs, S.Ok own t.links

theorem layout_empty (own : Own) : Layout own PrototypeTree.empty [] where
  nodes_eq := rfl
  types_nodup := nodup_nil
  cells_nodup := nodup_nil
  cells_lt := by simp
  next_pos := Nat.one_pos
  ok := by simp

/-! ## Changing one segment -/

section Marker

variable (d : Nat) (old new : ProxyPtr) (m : PrototypeNode)

@[simp] theorem leftMarker_type : (leftMarker d old new m).type = m.type := rfl
@[simp] theorem leftMarker_count : (leftMarker d old new m).count = m.count := rfl
theorem leftMarker_opMarker : (leftMarker d old new m).opMarker = redirect old new m.opMarker := rfl
@[simp] theorem rightMarker_type : (rightMarker old new m).type = m.type := rfl
@[simp] theorem rightMarker_count : (rightMarker old new m).count = m.count := rfl
theorem rightMarker_opFirst : (rightMarker old new m).opFirst = redirect old new m.opFirst := rfl

theorem leftMarker_self : leftMarker d old old m = m := by
  simp only [leftMarker]
  congr 1
  · split <;> simp_all
  · split <;> simp_all

theorem rightMarker_self : rightMarker old old m = m := by
  simp only [rightMarker]
  congr 1
  split <;> simp_all

end Marker

/-- The node `n` gets the segment `own' n.type`. -/
structure NodeChange (own own' : Own) (n n' : PrototypeNode) : Prop where
  type : n'.type = n.type
  depth : n'.depth = n.depth
  first : n'.opFirst = n.opFirst
  marker : n'.opMarker = n.opMarker
  last : n'.opLast = n.opLast
  count : n'.count = (own' n.type).length
  own_eq : ∀ type, type ≠ n.type → own' type = own type

theorem NodeChange.update (own : Own) (n : PrototypeNode) {u : List ProxyPtr} {count : Nat}
    (h : count = u.length) (idMap : Identifier → Option ProxyPtr) :
    NodeChange own (Function.update own n.type u) n { n with count, idMap } where
  type := rfl
  depth := rfl
  first := rfl
  marker := rfl
  last := rfl
  count := by rw [Function.update_self]; exact h
  own_eq := fun _ ht => Function.update_of_ne ht _ _

section Change

variable {own own' : Own} {n n' : PrototypeNode} {d : Nat} {old new : ProxyPtr}
  {k k' : Links ProxyPtr} {ns : List PrototypeNode}

theorem root_of_depths {ns' : List PrototypeNode}
    (h : ns'.map PrototypeNode.depth = ns.map PrototypeNode.depth)
    (hroot : ∃ r rest, ns = r :: rest ∧ r.depth = 0 ∧ ∀ m ∈ rest, 0 < m.depth) :
    ∃ r rest, ns' = r :: rest ∧ r.depth = 0 ∧ ∀ m ∈ rest, 0 < m.depth := by
  obtain ⟨r, rest, rfl, hr, hrest⟩ := hroot
  obtain ⟨r', rest', rfl, hr', hrest'⟩ := map_eq_cons_iff.mp h
  refine ⟨r', rest', rfl, hr'.trans hr, fun m hm => ?_⟩
  obtain ⟨j, hj, hd⟩ := mem_map.mp (hrest' ▸ mem_map_of_mem hm)
  exact hd ▸ hrest j hj

variable {pre post : List PrototypeNode}

theorem NodeChange.own_of_ne (hch : NodeChange own own' n n') {m m' : PrototypeNode}
    (hm : m.type ≠ n.type) (heq : m'.type = m.type) : ownOf own' m' = ownOf own m := by
  rw [ownOf, heq, hch.own_eq _ hm, ownOf]

variable {S : Segment}

theorem Segment.Ok.mapNodes (h : S.Ok own k) (hch : NodeChange own own' n n')
    (hn : ∀ m ∈ S.nodes, m.type ≠ n.type) (hk : Linked k' (S.cells own))
    {f : PrototypeNode → PrototypeNode} {r l : ProxyPtr → ProxyPtr}
    (hf : ∀ m, (f m).type = m.type ∧ (f m).count = m.count) (hdep : ∀ m, (f m).depth = m.depth)
    (hfst : ∀ m, (f m).opFirst = r m.opFirst) (hmar : ∀ m, (f m).opMarker = l m.opMarker)
    (hr : ∀ c ∈ S.cells own, r c = c ∧ l c = c) : (S.map f).Ok own' k' := by
  have hown : ∀ m ∈ S.nodes, ownOf own' (f m) = ownOf own m :=
    fun m hm => hch.own_of_ne (hn m hm) (hf m).1
  refine ⟨?_, ?_, ?_, ?_, root_of_depths (by simp [Segment.map, hdep]) h.root⟩
  · rwa [Segment.cells, Segment.map, cellsOf_map hown]
  · have hfir := h.first.map hown (fun m _ => hfst m) fun c hc =>
      (hr c (by simp [Segment.cells, hc])).1
    rwa [(hr S.head (by simp [Segment.cells])).1] at hfir
  · have hmark := h.marker.map hown (fun m _ => hmar m) fun c hc =>
      (hr c (by simp [Segment.cells, hc])).2
    rwa [(hr S.tail (by simp [Segment.cells])).2] at hmark
  · intro m hm
    obtain ⟨m, hm', rfl⟩ := mem_map.mp hm
    rw [(hf m).2, h.count m hm', (hf m).1, hch.own_eq _ (hn m hm')]

theorem Segment.cells_eq (hS : S.nodes = pre ++ n :: post) :
    S.cells own = (S.head :: cellsOf (ownOf own) pre) ++ own n.type ++
      (cellsOf (ownOf own) post ++ [S.tail]) := by
  rw [Segment.cells, hS, cellsOf_append, cellsOf_cons, ownOf]
  simp only [cons_append, append_assoc]

/-- The first cell of a segment `u` or behind it, `post` being the nodes that follow. -/
def leftBorder (own : Own) (S : Segment) (u : List ProxyPtr) (post : List PrototypeNode) :
    ProxyPtr := u.headD (firstOf (ownOf own) post S.tail)

/-- The last cell of a segment `u` or before it, `pre` being the nodes that precede. -/
def rightBorder (own : Own) (S : Segment) (pre : List PrototypeNode) (u : List ProxyPtr) :
    ProxyPtr := u.getLastD (lastOf (ownOf own) S.head pre)

theorem leftBorder_mem (own : Own) (S : Segment) (u : List ProxyPtr) (post : List PrototypeNode) :
    leftBorder own S u post ∈ u ++ (cellsOf (ownOf own) post ++ [S.tail]) := by
  rw [leftBorder, firstOf]
  rcases mem_append.mp (headD_mem_cons u ((cellsOf (ownOf own) post).headD S.tail)) with h | h
  · exact mem_append_left _ h
  · rw [mem_singleton.mp h]
    exact mem_append_right _ (headD_mem_cons _ _)

theorem rightBorder_mem (own : Own) (S : Segment) (pre : List PrototypeNode)
    (u : List ProxyPtr) : rightBorder own S pre u ∈ (S.head :: cellsOf (ownOf own) pre) ++ u := by
  have h : u.getLastD (lastOf (ownOf own) S.head pre) ∈ lastOf (ownOf own) S.head pre :: u :=
    getLastD_mem_cons
  have h' : lastOf (ownOf own) S.head pre ∈ S.head :: cellsOf (ownOf own) pre := getLastD_mem_cons
  rcases mem_cons.mp h with h | h
  · rw [rightBorder, h]
    exact mem_append_left _ h'
  · exact mem_append_right _ h

/-- The nodes before `n` after the change of its segment to `u`. -/
def leftNodes (own : Own) (S : Segment) (n : PrototypeNode) (post : List PrototypeNode)
    (u : List ProxyPtr) (ns : List PrototypeNode) : List PrototypeNode :=
  adjustLeftMarker n.depth (leftBorder own S (own n.type) post) (leftBorder own S u post) ns

/-- The nodes behind `n` after the change of its segment to `u`. -/
def rightNodes (own : Own) (S : Segment) (pre : List PrototypeNode) (n : PrototypeNode)
    (u : List ProxyPtr) (ns : List PrototypeNode) : List PrototypeNode :=
  adjustRightMarker (rightBorder own S pre (own n.type)) (rightBorder own S pre u) ns

theorem Segment.Ok.changeAt (h : S.Ok own k) (hS : S.nodes = pre ++ n :: post)
    (hch : NodeChange own own' n n') (hpre : ∀ m ∈ pre, m.type ≠ n.type)
    (hpost : ∀ m ∈ post, m.type ≠ n.type) (hnd : (S.cells own).Nodup)
    (hk : Linked k' ((S.head :: cellsOf (ownOf own) pre) ++ own' n.type ++
      (cellsOf (ownOf own) post ++ [S.tail]))) :
    Segment.Ok own' k' ⟨S.head, S.tail, leftNodes own S n post (own' n.type) pre ++
      n' :: rightNodes own S pre n (own' n.type) post⟩ := by
  have hownf : ∀ m ∈ pre, ownOf own' (leftMarker n.depth (leftBorder own S (own n.type) post)
      (leftBorder own S (own' n.type) post) m) = ownOf own m :=
    fun m hm => hch.own_of_ne (hpre m hm) rfl
  have howng : ∀ m ∈ post, ownOf own' (rightMarker (rightBorder own S pre (own n.type))
      (rightBorder own S pre (own' n.type)) m) = ownOf own m :=
    fun m hm => hch.own_of_ne (hpost m hm) rfl
  have hn : ownOf own' n' = own' n.type := by rw [ownOf, hch.type]
  -- the borders lie in the list around the segment, so no other segment contains them
  rw [Segment.cells_eq hS] at hnd
  have hleft : leftBorder own S (own n.type) post ∉ cellsOf (ownOf own) pre := by
    intro hc
    rw [append_assoc, nodup_append] at hnd
    exact hnd.2.2 _ (mem_cons_of_mem _ hc) _ (leftBorder_mem own S _ post) rfl
  have hrgt : rightBorder own S pre (own n.type) ∉ cellsOf (ownOf own) post := by
    intro hc
    rw [nodup_append] at hnd
    exact hnd.2.2 _ (rightBorder_mem own S pre _) _ (mem_append_left _ hc) rfl
  obtain ⟨hf₁, hf₂, hf₃⟩ : _ ∧ _ ∧ _ := by
    have hf := h.first
    rwa [hS, firstsOk_append] at hf
  obtain ⟨hm₁, hm₂, hm₃⟩ : _ ∧ _ ∧ _ := by
    have hm := h.marker
    rwa [hS, markersOk_append] at hm
  refine ⟨?_, ?_, ?_, ?_, ?_⟩
  · rw [Segment.cells]
    simp only [leftNodes, rightNodes, adjustLeftMarker, adjustRightMarker, cellsOf_append,
      cellsOf_cons, cellsOf_map hownf, cellsOf_map howng, hn]
    simpa only [cons_append, append_assoc] using hk
  · refine firstsOk_append.mpr ⟨hf₁.map hownf (fun _ _ => rfl) fun _ _ => rfl, ?_, ?_⟩
    · rw [hch.first, hf₂, lastOf, lastOf, leftNodes, adjustLeftMarker, cellsOf_map hownf]
    · have hr := hf₃.map howng (fun m _ => rightMarker_opFirst _ _ m)
        (redirect_fixes hrgt (rightBorder own S pre (own' n.type)))
      rw [show (ownOf own n).getLastD (lastOf (ownOf own) S.head pre) =
        rightBorder own S pre (own n.type) from rfl, redirect_self] at hr
      rw [hn, lastOf, leftNodes, adjustLeftMarker, cellsOf_map hownf]
      exact hr
  · refine markersOk_append.mpr ⟨?_, ?_, hm₃.map howng (fun _ _ => rfl) fun _ _ => rfl⟩
    · have hr := hm₁.map hownf (fun m _ => leftMarker_opMarker _ _ _ m)
        (redirect_fixes hleft (leftBorder own S (own' n.type) post))
      rw [firstOf_cons, show (ownOf own n).headD (firstOf (ownOf own) post S.tail) =
        leftBorder own S (own n.type) post from rfl, redirect_self] at hr
      rw [firstOf_cons, hn, rightNodes, adjustRightMarker, firstOf_map howng]
      exact hr
    · rw [hch.marker, hm₂, rightNodes, adjustRightMarker, firstOf_map howng]
  · intro m hm
    have hcou := h.count
    rw [hS] at hcou
    rcases mem_append.mp hm with hm | hm
    · obtain ⟨j, hj, rfl⟩ := mem_map.mp hm
      rw [leftMarker_count, hcou j (by simp [hj]), leftMarker_type, hch.own_eq _ (hpre j hj)]
    · rcases mem_cons.mp hm with rfl | hm
      · rw [hch.count, hch.type]
      · obtain ⟨j, hj, rfl⟩ := mem_map.mp hm
        rw [rightMarker_count, hcou j (by simp [hj]), rightMarker_type, hch.own_eq _ (hpost j hj)]
  · refine root_of_depths ?_ h.root
    simp only [leftNodes, rightNodes, adjustLeftMarker, adjustRightMarker, hS, map_append, map_cons,
      map_map, hch.depth]
    rfl

/-- The forest after the change of `n` in the tree `S`. -/
def changed (own : Own) (t : PrototypeTree) (G₁ : List Segment) (S : Segment)
    (pre : List PrototypeNode) (n n' : PrototypeNode) (post : List PrototypeNode)
    (G₂ : List Segment) (u : List ProxyPtr) (k' : Links ProxyPtr) : PrototypeTree :=
  { t with
    nodes := leftNodes own S n post u (G₁.flatMap Segment.nodes ++ pre) ++
      n' :: rightNodes own S pre n u (post ++ G₂.flatMap Segment.nodes)
    links := k' }

def changedSegs (own : Own) (G₁ : List Segment) (S : Segment) (pre : List PrototypeNode)
    (n n' : PrototypeNode) (post : List PrototypeNode) (G₂ : List Segment) (u : List ProxyPtr) :
    List Segment :=
  G₁.map (fun T => { T with nodes := leftNodes own S n post u T.nodes }) ++
    ⟨S.head, S.tail, leftNodes own S n post u pre ++ n' :: rightNodes own S pre n u post⟩ ::
    G₂.map (fun T => { T with nodes := rightNodes own S pre n u T.nodes })

def sentinels (segs : List Segment) : List ProxyPtr := segs.flatMap fun S => [S.head, S.tail]

theorem sentinels_changedSegs (own : Own) (G₁ : List Segment) (S : Segment)
    (pre : List PrototypeNode) (n n' : PrototypeNode) (post : List PrototypeNode)
    (G₂ : List Segment) (u : List ProxyPtr) :
    sentinels (changedSegs own G₁ S pre n n' post G₂ u) = sentinels (G₁ ++ S :: G₂) := by
  simp only [sentinels, changedSegs, flatMap_append, flatMap_cons, flatMap_map]

theorem mem_cells_iff {own : Own} {segs : List Segment} {c : ProxyPtr} :
    c ∈ segs.flatMap (Segment.cells own) ↔
      c ∈ sentinels segs ∨ ∃ n ∈ segs.flatMap Segment.nodes, c ∈ own n.type := by
  simp only [sentinels, mem_flatMap, Segment.cells, cellsOf, mem_append, mem_cons]
  constructor
  · rintro ⟨S, hS, (hc | ⟨n, hn, hc⟩) | hc⟩
    · exact .inl ⟨S, hS, .inl hc⟩
    · exact .inr ⟨n, ⟨S, hS, hn⟩, hc⟩
    · exact .inl ⟨S, hS, .inr hc⟩
  · rintro (⟨S, hS, hc | hc⟩ | ⟨n, ⟨S, hS, hn⟩, hc⟩)
    · exact ⟨S, hS, .inl (.inl hc)⟩
    · exact ⟨S, hS, .inr hc⟩
    · exact ⟨S, hS, .inl (.inr ⟨n, hn, hc⟩)⟩

theorem type_ne_of_nodup (hnd : (ns.map PrototypeNode.type).Nodup) (h : ns = pre ++ n :: post) :
    (∀ m ∈ pre, m.type ≠ n.type) ∧ ∀ m ∈ post, m.type ≠ n.type := by
  subst h
  rw [map_append, nodup_append] at hnd
  obtain ⟨-, hnd₂, hdisj⟩ := hnd
  constructor
  · intro m hm
    exact hdisj _ (mem_map_of_mem hm) _ (by simp)
  · intro m hm he
    exact (nodup_cons.mp hnd₂).1 (he ▸ mem_map_of_mem hm)

theorem locate_of_nodup (hnd : (ns.map PrototypeNode.type).Nodup)
    (h : ns = pre ++ n :: post) : locate n.type ns = some (pre, n, post) := by
  rw [h]
  exact locate_append_cons (type_ne_of_nodup hnd h).1

theorem nodup_replace {α : Type*} {x u u' y : List α} (h : (x ++ u ++ y).Nodup) (hu : u'.Nodup)
    (hsub : ∀ c ∈ u', c ∈ u ∨ c ∉ x ++ u ++ y) : (x ++ u' ++ y).Nodup := by
  rw [append_assoc] at h hsub ⊢
  rw [nodup_append] at h
  obtain ⟨hx, hr, hxr⟩ := h
  rw [nodup_append] at hr
  obtain ⟨-, hy, huy⟩ := hr
  refine nodup_append.mpr ⟨hx, nodup_append.mpr ⟨hu, hy, ?_⟩, ?_⟩
  · rintro c hc d hd rfl
    rcases hsub c hc with h | h
    · exact huy c h c hd rfl
    · exact h (by simp [hd])
  · rintro c hc d hd rfl
    rcases mem_append.mp hd with hd | hd
    · rcases hsub c hd with h | h
      · exact hxr c hc c (by simp [h]) rfl
      · exact h (by simp [hc])
    · exact hxr c hc c (by simp [hd]) rfl

variable {t : PrototypeTree} {G₁ G₂ : List Segment} {S : Segment} {pre post : List PrototypeNode}

theorem Layout.nodes_split (h : Layout own t (G₁ ++ S :: G₂)) (hS : S.nodes = pre ++ n :: post) :
    t.nodes = (G₁.flatMap Segment.nodes ++ pre) ++ n :: (post ++ G₂.flatMap Segment.nodes) := by
  rw [h.nodes_eq, flatMap_append, flatMap_cons, hS]
  simp only [append_assoc, cons_append]

theorem changed_types {u : List ProxyPtr} (h : Layout own t (G₁ ++ S :: G₂))
    (hS : S.nodes = pre ++ n :: post) (hn : n'.type = n.type) :
    (changed own t G₁ S pre n n' post G₂ u k').nodes.map PrototypeNode.type =
      t.nodes.map PrototypeNode.type := by
  rw [changed, h.nodes_split hS]
  simp only [leftNodes, rightNodes, adjustLeftMarker, adjustRightMarker, map_append, map_cons,
    map_map, hn]
  rfl

theorem cells_split (hS : S.nodes = pre ++ n :: post) :
    (G₁ ++ S :: G₂).flatMap (Segment.cells own) =
      (G₁.flatMap (Segment.cells own) ++ (S.head :: cellsOf (ownOf own) pre)) ++ own n.type ++
        ((cellsOf (ownOf own) post ++ [S.tail]) ++ G₂.flatMap (Segment.cells own)) := by
  rw [flatMap_append, flatMap_cons, Segment.cells_eq hS]
  simp only [append_assoc]

section

variable (h : Layout own t (G₁ ++ S :: G₂)) (hS : S.nodes = pre ++ n :: post)
  (hch : NodeChange own own' n n')

include h hS hch

theorem cells_changedSegs :
    (changedSegs own G₁ S pre n n' post G₂ (own' n.type)).flatMap (Segment.cells own') =
      (G₁.flatMap (Segment.cells own) ++ (S.head :: cellsOf (ownOf own) pre)) ++ own' n.type ++
        ((cellsOf (ownOf own) post ++ [S.tail]) ++ G₂.flatMap (Segment.cells own)) := by
  obtain ⟨hl, hr⟩ := type_ne_of_nodup h.types_nodup (h.nodes_split hS)
  have hleft : ∀ ns, (∀ m ∈ ns, m.type ≠ n.type) →
      cellsOf (ownOf own') (leftNodes own S n post (own' n.type) ns) = cellsOf (ownOf own) ns :=
    fun ns hns => cellsOf_map fun m hm => hch.own_of_ne (hns m hm) rfl
  have hrgt : ∀ ns, (∀ m ∈ ns, m.type ≠ n.type) →
      cellsOf (ownOf own') (rightNodes own S pre n (own' n.type) ns) = cellsOf (ownOf own) ns :=
    fun ns hns => cellsOf_map fun m hm => hch.own_of_ne (hns m hm) rfl
  have h₁ :
    (G₁.map fun T => { T with nodes := leftNodes own S n post (own' n.type) T.nodes }).flatMap
      (Segment.cells own') = G₁.flatMap (Segment.cells own) := by
    rw [flatMap_map]
    refine flatMap_congr fun T hT => ?_
    rw [Segment.cells, Segment.cells, hleft T.nodes fun m hm =>
      hl m (mem_append_left _ (mem_flatMap.mpr ⟨T, hT, hm⟩))]
  have h₂ :
    (G₂.map fun T => { T with nodes := rightNodes own S pre n (own' n.type) T.nodes }).flatMap
      (Segment.cells own') = G₂.flatMap (Segment.cells own) := by
    rw [flatMap_map]
    refine flatMap_congr fun T hT => ?_
    rw [Segment.cells, Segment.cells, hrgt T.nodes fun m hm =>
      hr m (mem_append_right _ (mem_flatMap.mpr ⟨T, hT, hm⟩))]
  rw [changedSegs, flatMap_append, flatMap_cons, h₁, h₂, Segment.cells, cellsOf_append,
    cellsOf_cons, hleft pre fun m hm => hl m (mem_append_right _ hm),
    hrgt post fun m hm => hr m (mem_append_left _ hm), ownOf, hch.type]
  simp only [append_assoc, cons_append]

/-- **A change of one segment keeps the layout** when the list it belongs to is linked again and
the other lists stay linked. -/
theorem Layout.change {u : List ProxyPtr} (hu : own' n.type = u)
    (hk : Linked k' ((S.head :: cellsOf (ownOf own) pre) ++ u ++
      (cellsOf (ownOf own) post ++ [S.tail])))
    (hoth : ∀ T ∈ G₁ ++ G₂, Linked k' (T.cells own)) (hnd : u.Nodup)
    (hnew : ∀ c ∈ u, c ∈ own n.type ∨ c ∉ (G₁ ++ S :: G₂).flatMap (Segment.cells own) ∧ 0 < c ∧
      c < t.nextProxy) :
    Layout own' (changed own t G₁ S pre n n' post G₂ u k')
      (changedSegs own G₁ S pre n n' post G₂ u) := by
  subst hu
  have hnds := h.nodes_split hS
  obtain ⟨hl, hr⟩ := type_ne_of_nodup h.types_nodup hnds
  have hall := h.cells_nodup
  rw [cells_split hS] at hall
  refine ⟨?_, ?_, ?_, ?_, h.next_pos, ?_⟩
  · rw [changedSegs, flatMap_append, flatMap_cons, flatMap_map, flatMap_map, changed]
    simp only [leftNodes, rightNodes, adjustLeftMarker, adjustRightMarker, map_append,
      map_flatMap, append_assoc, cons_append]
  · rw [changed_types h hS hch.type]
    exact h.types_nodup
  · rw [cells_changedSegs h hS hch]
    refine nodup_replace hall hnd fun c hc => (hnew c hc).imp id fun hc' => ?_
    rw [cells_split hS] at hc'
    exact hc'.1
  · intro c hc
    rw [cells_changedSegs h hS hch] at hc
    have hold := h.cells_lt
    rw [cells_split hS] at hold
    simp only [mem_append] at hc hold
    rcases hc with (hc | hc) | hc
    · exact hold c (.inl (.inl hc))
    · rcases hnew c hc with hc | ⟨-, hc⟩
      · exact hold c (.inl (.inr hc))
      · exact hc
    · exact hold c (.inr hc)
  · -- the borders belong to the list of `S`
    have hleft : ∀ T ∈ G₁, leftBorder own S (own n.type) post ∉ T.cells own := by
      intro T hT hc
      rw [append_assoc, append_assoc, nodup_append] at hall
      refine hall.2.2 _ (mem_flatMap.mpr ⟨T, hT, hc⟩) _ ?_ rfl
      have hb := leftBorder_mem own S (own n.type) post
      simp only [mem_append] at hb ⊢
      tauto
    have hrgt : ∀ T ∈ G₂, rightBorder own S pre (own n.type) ∉ T.cells own := by
      intro T hT hc
      rw [← append_assoc, nodup_append] at hall
      refine hall.2.2 _ ?_ _ (mem_flatMap.mpr ⟨T, hT, hc⟩) rfl
      have hb := rightBorder_mem own S pre (own n.type)
      simp only [mem_append] at hb ⊢
      tauto
    intro T hT
    rcases mem_append.mp hT with hT | hT
    · obtain ⟨T, hT', rfl⟩ := mem_map.mp hT
      exact (h.ok T (by simp [hT'])).mapNodes hch
        (fun m hm => hl m (mem_append_left _ (mem_flatMap.mpr ⟨T, hT', hm⟩)))
          (hoth T (by simp [hT']))
        (fun _ => ⟨rfl, rfl⟩) (fun _ => rfl) (fun _ => rfl) (leftMarker_opMarker _ _ _)
        fun c hc => ⟨rfl, redirect_fixes (hleft T hT') _ c hc⟩
    · rcases mem_cons.mp hT with rfl | hT
      · have hSnd : (S.cells own).Nodup := (nodup_flatMap.mp h.cells_nodup).1 S (by simp)
        exact (h.ok S (by simp)).changeAt hS hch (fun m hm => hl m (mem_append_right _ hm))
          (fun m hm => hr m (mem_append_left _ hm)) hSnd hk
      · obtain ⟨T, hT', rfl⟩ := mem_map.mp hT
        exact (h.ok T (by simp [hT'])).mapNodes hch
          (fun m hm => hr m (mem_append_right _ (mem_flatMap.mpr ⟨T, hT', hm⟩)))
            (hoth T (by simp [hT']))
          (fun _ => ⟨rfl, rfl⟩) (fun _ => rfl) (rightMarker_opFirst _ _) (fun _ => rfl)
          fun c hc => ⟨redirect_fixes (hrgt T hT') _ c hc, rfl⟩

end

end Change

end Matador.Object
