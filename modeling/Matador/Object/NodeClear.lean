import Matador.Object.ObjectStore

/-!
# Clearing and removing nodes

`prototype_node::clear` empties the segment of one node, `remove_prototype_node` takes a whole
subtree out of the forest. Both keep the layout of the lists, and delete exactly the objects of
their nodes. A node is taken out only after its children, so the forest changes by one leaf at a
time (`ListsInv.dropNode`).
-/

namespace Matador.Object

open ObjectLists PrototypeNode Function List Lib PrototypeTree

variable {own : Own} {t : PrototypeTree} {segs G₁ G₂ : List Segment} {S : Segment}
  {pre post : List PrototypeNode} {n : PrototypeNode} {s : ObjectLists} {type : String}

/-! ## Clearing a node -/

def clearedNode (n : PrototypeNode) : PrototypeNode :=
  { n with count := 0, idMap := fun _ => none }

theorem length_le_of_nodup_of_lt {l : List Nat} {b : Nat} (hnd : l.Nodup) (h : ∀ c ∈ l, c < b) :
    l.length ≤ b := by
  have hsub : l ⊆ range b := fun c hc => mem_range.mpr (h c hc)
  have hle := (subperm_of_subset hnd hsub).length_le
  rwa [length_range] at hle

theorem Layout.linked_clear (h : Layout own t (G₁ ++ S :: G₂)) (hS : S.nodes = pre ++ n :: post) :
    (t.links.unlinkBetween 0 n.opFirst n.opMarker t.nextProxy).2 = own n.type ∧
      Linked (t.links.unlinkBetween 0 n.opFirst n.opMarker t.nextProxy).1
        ((S.head :: cellsOf (ownOf own) pre) ++ [] ++ (cellsOf (ownOf own) post ++ [S.tail])) ∧
      ∀ T ∈ G₁ ++ G₂, Linked (t.links.unlinkBetween 0 n.opFirst n.opMarker t.nextProxy).1
        (T.cells own) := by
  obtain ⟨rest, hrest⟩ := h.behind_eq hS
  obtain ⟨front, hfrt⟩ := h.before_eq hS
  have hlist : (S.head :: cellsOf (ownOf own) pre) ++ own n.type ++
    (cellsOf (ownOf own) post ++ [S.tail]) =
        front ++ n.opFirst :: (own n.type ++ n.opMarker :: rest) := by
    rw [hrest, hfrt]
    simp
  have hl := h.linked_split hS
  have hnd := h.nodup_split hS
  have h0 := h.zero_not_mem hS
  have hlen : (own n.type).length ≤ t.nextProxy := by
    refine length_le_of_nodup_of_lt (h.nodup_own hS) fun c hc => ?_
    refine (h.cells_lt c ?_).2
    rw [cells_split hS]
    simp [hc]
  rw [hlist] at hl hnd h0
  obtain ⟨hu, hlkd, hfrm⟩ := hl.unlinkBetween 0 hnd h0 hlen
  refine ⟨hu, ?_, fun T hT => hfrm _ (h.ok T (by grind)).linked ?_⟩
  · rw [append_nil, hfrt, hrest, append_assoc]
    exact hlkd
  · rw [← hlist]
    exact h.not_mem_of_mem_other hS hT

theorem Layout.clear_nodeChange (own : Own) (n : PrototypeNode) :
    NodeChange own (update own n.type []) n (clearedNode n) := .update own n rfl _

/-- **Clearing a node keeps the layout.** -/
theorem Layout.clear (h : Layout own t (G₁ ++ S :: G₂)) (hS : S.nodes = pre ++ n :: post) :
    Layout (update own n.type []) (changed own t G₁ S pre n (clearedNode n) post G₂ []
        (t.links.unlinkBetween 0 n.opFirst n.opMarker t.nextProxy).1)
      (changedSegs own G₁ S pre n (clearedNode n) post G₂ []) := by
  obtain ⟨-, hk, hoth⟩ := h.linked_clear hS
  exact h.change hS (Layout.clear_nodeChange own n) (update_self ..) hk hoth nodup_nil nofun

/-- What a node is apart from its pointers and objects. -/
def PrototypeNode.sig (n : PrototypeNode) : String × String × Bool × Nat :=
  (n.type, n.typeId, n.hasPrimaryKey, n.depth)

theorem types_of_sigs (ns : List PrototypeNode) :
    ns.map PrototypeNode.type = (ns.map PrototypeNode.sig).map Prod.fst := by
  rw [map_map]
  rfl

theorem clearNode_sigs (s : ObjectLists) (type : String) :
    (s.clearNode type).tree.nodes.map sig = s.tree.nodes.map sig := by
  unfold clearNode
  cases hloc : locate type s.tree.nodes with
  | none => rfl
  | some r =>
    dsimp only
    split
    · rfl
    · rw [(locate_eq hloc).1, map_append, map_cons, map_append,
        map_of_bodies (fun _ => rfl) (adjustLeftMarker_bodies ..),
        map_of_bodies (fun _ => rfl) (adjustRightMarker_bodies ..)]
      rfl

section Clear

variable (h : ListsInv own (G₁ ++ S :: G₂) s) (hS : S.nodes = pre ++ n :: post)

include h hS

theorem ListsInv.empty_iff : s.tree.links.next n.opFirst = n.opMarker ↔ own n.type = [] := by
  have hfst := (h.layout.borders hS).1
  have hmar := h.layout.opMarker_eq hS
  constructor
  · intro hemp
    rw [hfst, leftBorder] at hemp
    cases hu : own n.type with
    | nil => rfl
    | cons x u =>
      exfalso
      rw [hu, headD_cons] at hemp
      have hnd := h.layout.nodup_split hS
      obtain ⟨rest, hrest⟩ := h.layout.behind_eq hS
      rw [hrest, hu, hemp] at hnd
      exact (nodup_append.mp hnd).2.2 n.opMarker (by simp) n.opMarker (by simp) rfl
  · intro hu
    rw [hfst, hu, hmar]
    rfl

theorem ListsInv.clearNode_of_nil (hown : own n.type = []) : s.clearNode n.type = s := by
  unfold clearNode
  rw [h.layout.locate_split hS]
  simp only [if_pos ((h.empty_iff hS).mpr hown)]

theorem ListsInv.clearNode_of_ne (hown : own n.type ≠ []) : s.clearNode n.type =
      { tree := changed own s.tree G₁ S pre n (clearedNode n) post G₂ []
          (s.tree.links.unlinkBetween 0 n.opFirst n.opMarker s.tree.nextProxy).1
        proxies := fun p => if p ∈ own n.type then none else s.proxies p } := by
  unfold clearNode
  rw [h.layout.locate_split hS]
  simp only [if_neg (mt (h.empty_iff hS).mp hown), (h.layout.linked_clear hS).1]
  have hl : leftBorder own S [] post = n.opMarker := (h.layout.opMarker_eq hS).symm
  have hr : rightBorder own S pre [] = n.opFirst := (h.layout.opFirst_eq hS).symm
  rw [changed, leftNodes, rightNodes, (h.layout.borders hS).1, (h.layout.borders hS).2, hl, hr]
  rfl

end Clear

/-- **`clear` deletes the objects of the node and nothing else.** -/
theorem ListsInv.clearNode (h : ListsInv own segs s)
    (hn : type ∈ s.tree.nodes.map PrototypeNode.type) :
    ∃ own' segs', ListsInv own' segs' (s.clearNode type) ∧ own' type = [] ∧
      ∀ p o, (s.clearNode type).proxies p = some o ↔ s.proxies p = some o ∧ o.node ≠ type := by
  obtain ⟨n, hmem, rfl⟩ := mem_map.mp hn
  obtain ⟨pre₀, post₀, hnds⟩ := append_of_mem hmem
  obtain ⟨G₁, S, G₂, pre, post, rfl, hS, rfl, rfl⟩ := h.layout.exists_split hnds
  by_cases hown : own n.type = []
  · rw [h.clearNode_of_nil hS hown]
    refine ⟨own, _, h, hown, fun p o => ⟨fun ho => ⟨ho, fun hnode => ?_⟩, fun ho => ho.1⟩⟩
    have hp := (h.stored p n.type).mpr ⟨o, ho, hnode⟩
    rw [hown] at hp
    exact absurd hp (by simp)
  · have hpxs : ∀ p o, (if p ∈ own n.type then none else s.proxies p) = some o ↔
        s.proxies p = some o ∧ o.node ≠ n.type := by
      intro p o
      by_cases hp : p ∈ own n.type
      · rw [if_pos hp]
        obtain ⟨o', ho', hnode⟩ := (h.stored p n.type).mp hp
        refine iff_of_false (by simp) fun hc => hc.2 ?_
        rw [ho', Option.some.injEq] at hc
        rw [← hc.1, hnode]
      · rw [if_neg hp]
        exact ⟨fun ho => ⟨ho, fun hc => hp ((h.stored p n.type).mpr ⟨o, ho, hc⟩)⟩, fun ho => ho.1⟩
    rw [h.clearNode_of_ne hS hown]
    refine ⟨_, _, h.change hS rfl (h.layout.clear hS) (fun p => ?_) (fun p o ho => ?_),
      update_self .., hpxs⟩
    · simp [hpxs]
    · rw [hpxs, and_iff_left ho]

/-! ## Taking a leaf out of the forest -/

theorem eraseP_type {pre₀ post₀ : List PrototypeNode} (hpre : ∀ m ∈ pre₀, m.type ≠ n.type) :
    (pre₀ ++ n :: post₀).eraseP (·.type = n.type) = pre₀ ++ post₀ := by
  rw [eraseP_append_right _ (by simpa using hpre), eraseP_cons_of_pos (by simp)]

theorem Segment.Ok.without (hok : S.Ok own t.links) (hS : S.nodes = pre ++ n :: post)
    (hown : own n.type = []) (hpre : pre ≠ []) :
    Segment.Ok own t.links { S with nodes := pre ++ post } := by
  have hn : ownOf own n = [] := hown
  obtain ⟨hf₁, -, hf₂⟩ := firstsOk_append.mp (hS ▸ hok.first)
  obtain ⟨hm₁, -, hm₂⟩ := markersOk_append.mp (hS ▸ hok.marker)
  have hcou := hok.count
  rw [hS] at hcou
  refine ⟨?_, ?_, ?_, ?_, ?_⟩
  · have hl := hok.linked
    rw [Segment.cells_eq hS, hown] at hl
    rw [Segment.cells, cellsOf_append]
    simpa using hl
  · rw [hn] at hf₂
    exact firstsOk_append.mpr ⟨hf₁, hf₂⟩
  · rw [firstOf_cons, hn] at hm₁
    exact markersOk_append.mpr ⟨hm₁, hm₂⟩
  · intro m hm
    refine hcou m ?_
    simp only [mem_append] at hm ⊢
    tauto
  · obtain ⟨r, rest, hr, hd, hrest⟩ := hok.root
    cases pre with
    | nil => exact absurd rfl hpre
    | cons m pre =>
      rw [hS] at hr
      obtain ⟨rfl, rfl⟩ := cons.inj hr
      refine ⟨m, pre ++ post, rfl, hd, fun k hk => hrest k ?_⟩
      rcases mem_append.mp hk with hk | hk
      · exact mem_append_left _ hk
      · exact mem_append_right _ (mem_cons_of_mem _ hk)

theorem Layout.without (h : Layout own t (G₁ ++ S :: G₂)) (hS : S.nodes = pre ++ n :: post)
    (hown : own n.type = []) (hleaf : ∀ c ∈ post.head?, c.depth ≤ n.depth) :
    ∃ segs', Layout own { t with nodes := t.nodes.eraseP (·.type = n.type) } segs' := by
  have hnds := h.nodes_split hS
  have hera : t.nodes.eraseP (·.type = n.type) =
      (G₁.flatMap Segment.nodes ++ pre) ++ (post ++ G₂.flatMap Segment.nodes) := by
    rw [hnds]
    exact eraseP_type (type_ne_of_nodup h.types_nodup hnds).1
  have hok := h.ok S (by simp)
  have htys : ((t.nodes.eraseP (·.type = n.type)).map type).Nodup :=
    h.types_nodup.sublist (eraseP_sublist.map _)
  by_cases hpre : pre = []
  · -- the root of a tree without other nodes
    subst hpre
    have hpost : post = [] := by
      obtain ⟨r, rest, hr, hd, hrest⟩ := hok.root
      rw [hS] at hr
      obtain ⟨rfl, rfl⟩ := cons.inj hr
      cases post with
      | nil => rfl
      | cons c post =>
        have hc := hleaf c rfl
        have hc' := hrest c (by simp)
        omega
    subst hpost
    have hsub : ((G₁ ++ G₂).flatMap (Segment.cells own)).Sublist
        ((G₁ ++ S :: G₂).flatMap (Segment.cells own)) := by
      rw [flatMap_append, flatMap_append]
      exact (sublist_append_right _ _).append_left _
    refine ⟨G₁ ++ G₂, ?_, htys, h.cells_nodup.sublist hsub, fun c hc => h.cells_lt c
      (hsub.subset hc), h.next_pos, fun T hT => h.ok T ?_⟩
    · rw [hera]
      simp
    · simp only [mem_append] at hT ⊢
      tauto
  · have hcls : Segment.cells own { S with nodes := pre ++ post } = S.cells own := by
      rw [Segment.cells_eq hS, hown, Segment.cells, cellsOf_append]
      simp
    refine ⟨_, h.replace hcls (hok.without hS hown hpre) ?_ htys⟩
    rw [hera]
    simp

variable {P Q : List (String × String × Bool × Nat)} {x : String × String × Bool × Nat}

theorem nodes_of_sigs (h : t.nodes.map sig = P ++ x :: Q) :
    ∃ pre₀ n post₀, t.nodes = pre₀ ++ n :: post₀ ∧ pre₀.map sig = P ∧ n.sig = x ∧
    post₀.map sig = Q := by
  obtain ⟨pre₀, rest, hnds, hP, hrest⟩ := map_eq_append_iff.mp h
  obtain ⟨n, post₀, rfl, hx, hQ⟩ := map_eq_cons_iff.mp hrest
  exact ⟨pre₀, n, post₀, hnds, hP, hx, hQ⟩

def sigDepth (x : String × String × Bool × Nat) : Nat := x.2.2.2

theorem clearNode_split (hnd : (s.tree.nodes.map PrototypeNode.type).Nodup)
    (hsig : s.tree.nodes.map sig = P ++ x :: Q) :
    ∃ pre₀ n post₀, (s.clearNode x.1).tree.nodes = pre₀ ++ n :: post₀ ∧
    pre₀.map sig = P ∧ n.sig = x ∧
      post₀.map sig = Q ∧ (s.dropNode x.1).tree.nodes = pre₀ ++ post₀ := by
  obtain ⟨pre₀, n, post₀, hnds, rfl, rfl, rfl⟩ := nodes_of_sigs ((clearNode_sigs s x.1).trans hsig)
  refine ⟨pre₀, n, post₀, hnds, rfl, rfl, rfl, ?_⟩
  rw [types_of_sigs, ← clearNode_sigs s n.sig.1, ← types_of_sigs] at hnd
  change (s.clearNode n.sig.1).tree.nodes.eraseP (·.type = n.type) = _
  rw [hnds]
  exact eraseP_type (type_ne_of_nodup hnd hnds).1

theorem dropNode_sigs (hnd : (s.tree.nodes.map PrototypeNode.type).Nodup)
    (hsig : s.tree.nodes.map sig = P ++ x :: Q) :
    (s.dropNode x.1).tree.nodes.map PrototypeNode.sig = P ++ Q := by
  obtain ⟨pre₀, n, post₀, -, rfl, rfl, rfl, hdrop⟩ := clearNode_split hnd hsig
  rw [hdrop, map_append]

/-- **A leaf is removed with its objects.** -/
theorem ListsInv.dropNode (h : ListsInv own segs s) (hsig : s.tree.nodes.map sig = P ++ x :: Q)
    (hleaf : ∀ c ∈ Q.head?, sigDepth c ≤ sigDepth x) :
    ∃ own' segs', ListsInv own' segs' (s.dropNode x.1) ∧
      ∀ p o, (s.dropNode x.1).proxies p = some o ↔ s.proxies p = some o ∧ o.node ≠ x.1 := by
  have hmem : x.1 ∈ s.tree.nodes.map type := by
    rw [types_of_sigs, hsig]
    simp
  obtain ⟨own', segs', hinv, hown, hpxs⟩ := h.clearNode hmem
  obtain ⟨pre₀, n, post₀, hnds, rfl, rfl, rfl, hdrop⟩ := clearNode_split h.layout.types_nodup hsig
  obtain ⟨G₁, S, G₂, pre, post, rfl, hS, rfl, rfl⟩ := hinv.layout.exists_split hnds
  obtain ⟨segs'', hlay⟩ := hinv.layout.without hS hown (by
    intro c hc
    cases post with
    | nil => simp at hc
    | cons k post =>
      rw [head?_cons, Option.mem_def, Option.some.injEq] at hc
      subst hc
      exact hleaf k.sig rfl)
  refine ⟨own', segs'', ⟨hlay, hinv.stored, fun p o ho => ?_⟩, hpxs⟩
  have hne := ((hpxs p o).mp ho).2
  have hatt := hinv.attached p o ho
  rw [hnds] at hatt
  rw [hdrop]
  simp only [map_append, map_cons, mem_append, mem_cons] at hatt ⊢
  rcases hatt with hatt | hatt | hatt
  · exact .inl hatt
  · exact absurd hatt hne
  · exact .inr hatt

/-! ## Removing a subtree -/

theorem subtree_eq (hnd : (t.nodes.map PrototypeNode.type).Nodup)
    (hnds : t.nodes = pre ++ n :: post) : t.subtree n.type = n :: descendants n.depth post := by
  rw [PrototypeTree.subtree, locate_of_nodup hnd hnds]

theorem firstChild_eq_none (hnd : (t.nodes.map PrototypeNode.type).Nodup)
    (hnds : t.nodes = pre ++ n :: post) :
    firstChild t n.type = none ↔ descendants n.depth post = [] := by
  rw [firstChild, locate_of_nodup hnd hnds]
  cases post with
  | nil => simp [descendants]
  | cons c post =>
    by_cases hd : n.depth < c.depth
    · simp [descendants, hd]
    · simp [descendants, hd]

theorem takeWhile_eq_append {α : Type*} {f g : α → Bool} (hfg : ∀ a, f a → g a) (l : List α) :
    l.takeWhile g = l.takeWhile f ++ (l.dropWhile f).takeWhile g ∧
    l.dropWhile g = (l.dropWhile f).dropWhile g := by
  induction l with
  | nil => exact ⟨rfl, rfl⟩
  | cons a l ih =>
    by_cases hf : f a
    · rw [takeWhile_cons_of_pos hf, dropWhile_cons_of_pos hf,
        takeWhile_cons_of_pos (hfg a hf), dropWhile_cons_of_pos (hfg a hf)]
      exact ⟨congrArg (a :: ·) ih.1, ih.2⟩
    · rw [takeWhile_cons_of_neg hf, dropWhile_cons_of_neg hf]
      exact ⟨rfl, rfl⟩

theorem firstChild_eq (hnd : (t.nodes.map PrototypeNode.type).Nodup)
    (hsig : t.nodes.map sig = P ++ x :: Q) : firstChild t x.1 = match Q with
      | [] => none
      | c :: _ => if sigDepth x < sigDepth c then some c.1 else none := by
  obtain ⟨pre₀, n, post₀, hnds, rfl, rfl, rfl⟩ := nodes_of_sigs hsig
  have hloc : locate (sig n).1 t.nodes = some (pre₀, n, post₀) := locate_of_nodup hnd hnds
  rw [firstChild, hloc]
  cases post₀ with
  | nil => rfl
  | cons c post₀ => rfl

variable {fuel : Nat}

section Subtree

variable {P Q : List (String × String × Bool × Nat)} {x c : String × String × Bool × Nat}

theorem takeWhile_child (hd : sigDepth x < sigDepth c) :
    (c :: Q).takeWhile (fun k => sigDepth x < sigDepth k) =
        c :: Q.takeWhile (fun k => sigDepth c < sigDepth k) ++
          (Q.dropWhile fun k => sigDepth c < sigDepth k).takeWhile
            (fun k => sigDepth x < sigDepth k) ∧
      (c :: Q).dropWhile (fun k => sigDepth x < sigDepth k) =
        (Q.dropWhile fun k => sigDepth c < sigDepth k).dropWhile
          (fun k => sigDepth x < sigDepth k) := by
  obtain ⟨htake, hdrop⟩ := takeWhile_eq_append (f := fun k => decide (sigDepth c < sigDepth k))
    (g := fun k => decide (sigDepth x < sigDepth k)) (by
      intro k hk
      simp only [decide_eq_true_eq] at hk ⊢
      omega) Q
  rw [takeWhile_cons_of_pos (by simpa using hd), dropWhile_cons_of_pos (by simpa using hd), htake]
  exact ⟨rfl, hdrop⟩

/-- **`remove_prototype_node` removes the node and its descendants.** The induction is on the fuel;
a child is removed by the first recursive call, and the second one goes on with the children that
are left.
-/
theorem removePrototypeNode_sigs (hnd : (s.tree.nodes.map PrototypeNode.type).Nodup)
    (hsig : s.tree.nodes.map sig = P ++ x :: Q)
    (hfuel : (Q.takeWhile fun c => sigDepth x < sigDepth c).length < fuel) :
    (s.removePrototypeNode fuel x.1).tree.nodes.map sig =
      P ++ Q.dropWhile (fun c => sigDepth x < sigDepth c) := by
  induction fuel generalizing s P x Q with
  | zero => omega
  | succ fuel ih =>
    rw [removePrototypeNode, firstChild_eq hnd hsig]
    cases Q with
    | nil => exact dropNode_sigs hnd hsig
    | cons c Q =>
      by_cases hd : sigDepth x < sigDepth c
      · simp only [if_pos hd]
        rw [(takeWhile_child hd).1, length_append, length_cons] at hfuel
        have hsig₁ := ih (P := P ++ [x]) (x := c) (Q := Q) hnd (by rw [hsig]; simp) (by omega)
        rw [append_assoc, singleton_append] at hsig₁
        rw [ih ?_ hsig₁ (by omega), (takeWhile_child hd).2]
        rw [types_of_sigs, hsig] at hnd
        rw [types_of_sigs, hsig₁]
        refine hnd.sublist (List.Sublist.map _ ?_)
        exact (((dropWhile_sublist _).trans (sublist_cons_self ..)).cons_cons x).append_left P
      · simp only [if_neg hd]
        rw [dropWhile_cons_of_neg (by simpa using hd)]
        exact dropNode_sigs hnd hsig

/-- **The objects of these nodes are deleted with them.** -/
theorem removePrototypeNode_spec (h : ListsInv own segs s)
    (hsig : s.tree.nodes.map sig = P ++ x :: Q)
    (hfuel : (Q.takeWhile fun c => sigDepth x < sigDepth c).length < fuel) :
    ∃ own' segs', ListsInv own' segs' (s.removePrototypeNode fuel x.1) ∧
      ∀ p o, (s.removePrototypeNode fuel x.1).proxies p = some o ↔ s.proxies p = some o ∧
        ∀ c ∈ x :: Q.takeWhile (fun c => sigDepth x < sigDepth c), o.node ≠ c.1 := by
  induction fuel generalizing own segs s P x Q with
  | zero => omega
  | succ fuel ih =>
    rw [removePrototypeNode, firstChild_eq h.layout.types_nodup hsig]
    cases Q with
    | nil =>
      obtain ⟨own', segs', hinv, hpxs⟩ := h.dropNode hsig (by simp)
      exact ⟨own', segs', hinv, fun p o => by rw [hpxs]; simp⟩
    | cons c Q =>
      by_cases hd : sigDepth x < sigDepth c
      · simp only [if_pos hd]
        rw [(takeWhile_child hd).1, length_append, length_cons] at hfuel
        have hsig₀ : s.tree.nodes.map sig = (P ++ [x]) ++ c :: Q := by
          rw [hsig]
          simp
        have hsig₁ : (s.removePrototypeNode fuel c.1).tree.nodes.map sig = _ :=
          removePrototypeNode_sigs h.layout.types_nodup hsig₀ (by omega)
        rw [append_assoc, singleton_append] at hsig₁
        obtain ⟨own₁, segs₁, hinv₁, hpxs₁⟩ := ih h hsig₀ (by omega)
        obtain ⟨own₂, segs₂, hinv₂, hpxs₂⟩ := ih hinv₁ hsig₁ (by omega)
        refine ⟨own₂, segs₂, hinv₂, fun p o => ?_⟩
        rw [hpxs₂, hpxs₁, (takeWhile_child hd).1]
        simp only [mem_cons, mem_append, or_imp, forall_and]
        tauto
      · simp only [if_neg hd]
        obtain ⟨own', segs', hinv, hpxs⟩ := h.dropNode hsig (by
          intro k hk
          rw [head?_cons, Option.mem_def, Option.some.injEq] at hk
          rw [← hk]
          omega)
        rw [takeWhile_cons_of_neg (by simpa using hd)]
        exact ⟨own', segs', hinv, fun p o => by rw [hpxs]; simp⟩

theorem sigs_split {ns : List PrototypeNode} (hnds : ns = pre ++ n :: post) :
    ns.map sig = pre.map sig ++ n.sig :: post.map sig := by
  rw [hnds, map_append, map_cons]

theorem takeWhile_sigs : (post.map sig).takeWhile (fun c => sigDepth n.sig < sigDepth c) =
    (descendants n.depth post).map sig := takeWhile_map ..

theorem removePrototypeNode_sigs_at (hnd : (s.tree.nodes.map PrototypeNode.type).Nodup)
    (hnds : s.tree.nodes = pre ++ n :: post) (hfuel : (descendants n.depth post).length < fuel) :
    (s.removePrototypeNode fuel n.type).tree.nodes.map sig =
      (pre ++ behind n.depth post).map PrototypeNode.sig := by
  have hdrop : (post.map sig).dropWhile (fun c => sigDepth n.sig < sigDepth c) =
      (behind n.depth post).map PrototypeNode.sig := dropWhile_map ..
  have hsigs := removePrototypeNode_sigs hnd (sigs_split hnds) (by rwa [takeWhile_sigs, length_map])
  rwa [hdrop, ← map_append] at hsigs

theorem removePrototypeNode_at (h : ListsInv own segs s)
    (hnds : s.tree.nodes = pre ++ n :: post) (hfuel : (descendants n.depth post).length < fuel) :
    (∃ own' segs', ListsInv own' segs' (s.removePrototypeNode fuel n.type)) ∧
      ∀ p o, (s.removePrototypeNode fuel n.type).proxies p = some o ↔
        s.proxies p = some o ∧ o.node ∉ (n :: descendants n.depth post).map PrototypeNode.type := by
  obtain ⟨own', segs', hinv, hpxs⟩ := removePrototypeNode_spec h (sigs_split hnds)
    (by rwa [takeWhile_sigs, length_map])
  refine ⟨⟨own', segs', hinv⟩, fun p o => (hpxs p o).trans (and_congr_right fun _ => ?_)⟩
  rw [takeWhile_sigs, ← map_cons, types_of_sigs]
  simp only [mem_map, not_exists, not_and, ne_comm]

end Subtree

theorem removeAllNodes_spec (h : ListsInv own segs s) (hfuel : s.tree.nodes.length ≤ fuel) :
    ∃ own' segs', ListsInv own' segs' (s.removeAllNodes fuel) ∧
    (s.removeAllNodes fuel).tree.nodes = [] := by
  induction fuel generalizing own segs s with
  | zero => exact ⟨own, segs, h, eq_nil_of_length_eq_zero (Nat.le_zero.mp hfuel)⟩
  | succ fuel ih =>
    rw [removeAllNodes]
    cases hnds : s.tree.nodes with
    | nil => exact ⟨own, segs, h, hnds⟩
    | cons n rest =>
      have hsig : s.tree.nodes.map sig = [] ++ n.sig :: rest.map sig := by
        rw [hnds]
        rfl
      have hlen : ((rest.map sig).takeWhile fun c => sigDepth n.sig < sigDepth c).length <
          (n :: rest).length := by
        have hle :=
          (takeWhile_sublist (fun c => decide (sigDepth n.sig < sigDepth c))
            (l := rest.map sig)).length_le
        rw [length_map] at hle
        rw [length_cons]
        omega
      obtain ⟨own₁, segs₁, hinv₁, -⟩ := removePrototypeNode_spec h hsig hlen
      refine ih hinv₁ ?_
      have hlen₁ := congrArg length (removePrototypeNode_sigs h.layout.types_nodup hsig hlen)
      have hle := (dropWhile_sublist (fun c => decide (sigDepth n.sig < sigDepth c))
        (l := rest.map PrototypeNode.sig)).length_le
      rw [hnds, length_cons] at hfuel
      simp only [length_map, nil_append] at hlen₁ hle
      change (s.removePrototypeNode (n :: rest).length n.sig.1).tree.nodes.length ≤ fuel
      omega

end Matador.Object
