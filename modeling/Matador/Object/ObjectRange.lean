import Matador.Object.ObjectLists

/-!
# The range of a node

The objects between `op_first` and `op_last` of a node should be those of the node and of all its
descendants. `adjust_left_marker` only redirects `op_last` of nodes at least as deep as the node it
starts from; a preceding node that is less deep and not an ancestor keeps its old `op_last`, and its
range takes in the objects of a cousin. `Guarded` says that an operation meets no such node.
-/

namespace Matador.Object

open List Lib PrototypeTree

/-- Attaching a type, inserting an object of a C++ type, removing an object. -/
inductive ListOp where
  | attach (type typeId : String) (hasPrimaryKey : Bool) (parent : Option String)
  | insert (classname : String) (id : Nat) (pk : Identifier)
  | remove (proxy : ProxyPtr)

def ListOp.isAttach : ListOp → Bool
  | .attach .. => true
  | _ => false

namespace ObjectLists

/-- One operation; one that throws leaves the lists as they are. -/
def step (s : ObjectLists) : ListOp → ObjectLists
  | .attach type typeId hasPrimaryKey parent =>
    match s.tree.attach type typeId hasPrimaryKey parent with
    | .ok t => { s with tree := t }
    | .error _ => s
  | .insert classname id pk =>
    match s.tree.findPrototypeNode classname with
    | .ok (some n) => s.alloc.insertAt s.tree.nextProxy ⟨id, classname, n.type, pk⟩
    | _ => s
  | .remove p =>
    match s.proxies p with
    | some o => s.removeAt p o
    | none => s

/-- No operation leaves an `op_last` behind: if it moves the first object of a node, every
preceding node whose range ends there is at least as deep or an ancestor. -/
def Guarded (s : ObjectLists) : ListOp → Prop
  | .attach .. => True
  | .insert classname _ _ =>
    ∀ n ∈ (s.tree.findPrototypeNode classname).toOption.join, ∀ r ∈ locate n.type s.tree.nodes,
      r.2.1.count ≤ 1 → BorderGuard s.tree r.1 r.2.1
  | .remove p =>
    ∀ o ∈ s.proxies p, ∀ r ∈ locate o.node s.tree.nodes,
      p = s.tree.links.next r.2.1.opFirst → BorderGuard s.tree r.1 r.2.1

instance (s : ObjectLists) : ∀ op, Decidable (s.Guarded op)
  | .attach .. => .isTrue trivial
  | .insert classname _ _ => inferInstanceAs (Decidable (∀ n ∈
      (s.tree.findPrototypeNode classname).toOption.join, ∀ r ∈ locate n.type s.tree.nodes,
        r.2.1.count ≤ 1 → BorderGuard s.tree r.1 r.2.1))
  | .remove p => inferInstanceAs (Decidable (∀ o ∈ s.proxies p, ∀ r ∈ locate o.node s.tree.nodes,
      p = s.tree.links.next r.2.1.opFirst → BorderGuard s.tree r.1 r.2.1))

/-- Following `next` from `op_first` to `op_last` meets the stored objects of the node and of its
descendants, each once, and no others. -/
def RangesRight (s : ObjectLists) : Prop :=
  ∀ n ∈ s.tree.nodes, ∃ fuel l, walk s.tree.links.next fuel n.opFirst n.opLast = some l ∧ l.Nodup ∧
    ∀ p, p ∈ l ↔
      ∃ o, s.proxies p = some o ∧ o.node ∈ (s.tree.subtree n.type).map PrototypeNode.type

theorem step_lists {s : ObjectLists} (op : ListOp) {own : Own} {segs : List Segment}
    (h : ListsInv own segs s) (hop : op.isAttach = false) :
    ∃ own' segs', ListsInv own' segs' (s.step op) ∧
      (s.Guarded op → LastsRight own segs → LastsRight own' segs') := by
  cases op with
  | attach => cases hop
  | insert classname id pk =>
    simp only [step]
    split
    · next n hfind =>
      obtain ⟨pre, post, hnds⟩ := append_of_mem (findPrototypeNode_mem hfind)
      have hloc := locate_of_nodup h.layout.types_nodup hnds
      obtain ⟨hall, hfsh⟩ := h.alloc
      obtain ⟨own', segs', hinv', -, hl⟩ :=
        hall.insertAt (o := ⟨id, classname, n.type, pk⟩) hnds hfsh
        ⟨h.layout.next_pos, Nat.lt_succ_self _⟩ rfl
      exact ⟨own', segs', hinv', fun hg => hl (hg n (by rw [hfind]; rfl) _ hloc)⟩
    · exact ⟨own, segs, h, fun _ hlas => hlas⟩
  | remove p =>
    simp only [step]
    split
    · next o ho =>
      obtain ⟨n, hn, hnt⟩ := mem_map.mp (h.attached p o ho)
      obtain ⟨pre, post, hnds⟩ := append_of_mem hn
      have hloc := locate_of_nodup h.layout.types_nodup hnds
      rw [hnt] at hloc
      obtain ⟨own', segs', hinv', -, hl⟩ := h.removeAt hnds ho hnt.symm
      exact ⟨own', segs', hinv', fun hg => hl (hg o ho _ hloc)⟩
    · exact ⟨own, segs, h, fun _ hlas => hlas⟩

/-- The lists are laid out and every `op_last` is right. -/
def Inv (s : ObjectLists) : Prop := ∃ own segs, ListsInv own segs s ∧ LastsRight own segs

theorem inv_empty : empty.Inv := ⟨_, _, listsInv_empty, by simp [LastsRight]⟩

theorem step_inv (s : ObjectLists) (op : ListOp) (h : s.Inv) (hg : s.Guarded op) :
    (s.step op).Inv := by
  obtain ⟨own, segs, hinv, hlas⟩ := h
  cases op with
  | attach type typeId hasPrimaryKey parent =>
    simp only [step]
    cases hatt : s.tree.attach type typeId hasPrimaryKey parent with
    | error e => exact ⟨own, segs, hinv, hlas⟩
    | ok t =>
      obtain ⟨segs', hinv', hl⟩ := hinv.attach hatt (by
        rintro name n - - G₁ S G₂ pre post rfl hS
        exact hlas.opLast_eq hS)
      exact ⟨own, segs', hinv', hl hlas⟩
  | insert classname id pk =>
    obtain ⟨own', segs', hinv', hl⟩ := step_lists (.insert classname id pk) hinv rfl
    exact ⟨own', segs', hinv', hl hg hlas⟩
  | remove p =>
    obtain ⟨own', segs', hinv', hl⟩ := step_lists (.remove p) hinv rfl
    exact ⟨own', segs', hinv', hl hg hlas⟩

theorem Inv.rangesRight {s : ObjectLists} (h : s.Inv) : s.RangesRight := by
  obtain ⟨own, segs, hinv, hlas⟩ := h
  intro n hn
  obtain ⟨pre₀, post₀, hnds⟩ := append_of_mem hn
  obtain ⟨G₁, S, G₂, pre, post, rfl, hS, rfl, rfl⟩ := hinv.layout.exists_split hnds
  obtain ⟨l₁, l₂, hcls, -, -⟩ := hinv.layout.subtree_split hS (hlas.opLast_eq hS)
  have hl := (hinv.layout.ok S (by simp)).linked
  have hnd := (nodup_flatMap.mp hinv.layout.cells_nodup).1 S (by simp)
  rw [hcls] at hl hnd
  have hrng : own n.type ++ cellsOf (ownOf own) (descendants n.depth post) =
      cellsOf (ownOf own) (s.tree.subtree n.type) := by
    rw [PrototypeTree.subtree, hinv.layout.locate_split hS]
    simp only [(descendants_append hinv.layout.roots post).1]
    rfl
  rw [hrng] at hl hnd
  have hnd' := (nodup_cons.mp (nodup_append.mp hnd).2.1).2
  have hl' :
      Linked s.tree.links (n.opFirst :: cellsOf (ownOf own) (s.tree.subtree n.type) ++
        [n.opLast]) := by
    refine Linked.part l₁ l₂ ?_
    simpa using hl
  have hlast : n.opLast ∉ cellsOf (ownOf own) (s.tree.subtree n.type) := fun hc =>
    (nodup_append.mp hnd').2.2 _ hc _ (by simp) rfl
  refine ⟨_, _, walk_of_linked hl' hlast (Nat.lt_succ_self _), (nodup_append.mp hnd').1, ?_⟩
  intro p
  constructor
  · intro hp
    obtain ⟨m, hm, hpm⟩ := mem_flatMap.mp hp
    obtain ⟨o, ho, hom⟩ := (hinv.stored p m.type).mp hpm
    exact ⟨o, ho, hom ▸ mem_map_of_mem hm⟩
  · rintro ⟨o, ho, hom⟩
    obtain ⟨m, hm, hmo⟩ := mem_map.mp hom
    exact mem_flatMap.mpr ⟨m, hm, (hinv.stored p m.type).mpr ⟨o, ho, hmo.symm⟩⟩

/-- **In every run whose steps are guarded all ranges are right.** -/
theorem ranges_of_run (ops : List ListOp) (h : RunMeets step Guarded empty ops) :
    (ops.foldl step empty).RangesRight :=
  (RunMeets.invariant step_inv inv_empty h).rangesRight

/-- Two subtypes of a type with objects of all three, one of them removed again. -/
def siblings : List ListOp :=
  [.attach "person" "P" true none, .attach "student" "S" true (some "person"),
    .attach "employee" "E" true (some "P"), .insert "E" 1 (.integral 64 1),
    .insert "P" 2 (.integral 64 2), .insert "S" 3 (.integral 64 3),
    .insert "S" 4 (.integral 64 4), .remove 5]

theorem ranges_of_siblings :
    RunMeets step Guarded empty siblings ∧ (siblings.foldl step empty).RangesRight :=
  ⟨by decide, ranges_of_run _ (by decide)⟩

def clerkTypes : List ListOp :=
  [.attach "person" "P" true none, .attach "student" "S" true (some "person"),
    .attach "employee" "E" true (some "person"), .attach "clerk" "C" true (some "employee")]

/-- An object of `clerk`, a subtype of `employee`, is put into the range of `student`: that node
precedes `clerk`, but `adjust_left_marker` spares it for its smaller depth. -/
theorem student_range_contains_clerk :
    ¬((clerkTypes ++ [ListOp.insert "C" 1 (.integral 64 1)]).foldl step empty).RangesRight := by
  generalize hs : (clerkTypes ++ [ListOp.insert "C" 1 (.integral 64 1)]).foldl step empty = s
  intro h
  -- the range of `student` is the whole list
  obtain ⟨student, hmem, hstu⟩ : ∃ n ∈ s.tree.nodes,
      (n.type, n.opFirst, n.opLast) = ("student", 1, 2) := by
    subst hs
    decide
  simp only [Prod.mk.injEq] at hstu
  obtain ⟨fuel, l, hl, -, hobj⟩ := h student hmem
  rw [hstu.1] at hobj
  rw [hstu.2.1, hstu.2.2] at hl
  have hcle : walk s.tree.links.next 2 1 2 = some [3] := by
    subst hs
    decide
  have hl' := walk_mono hl (Nat.le_add_right fuel 2)
  rw [walk_mono hcle (Nat.le_add_left 2 fuel), Option.some.injEq] at hl'
  obtain ⟨o, ho, hnode⟩ := (hobj 3).mp (by rw [← hl']; simp)
  have hnot : ∀ o ∈ s.proxies 3, o.node ∉ (s.tree.subtree "student").map PrototypeNode.type := by
    subst hs
    decide
  exact hnot o ho hnode

/-! ## The lists without the ranges -/

/-- The list of each tree is linked in both directions and has the objects of its nodes in preorder,
`own` those of each node; they are what `next` meets between `op_first` and `op_marker`. -/
def ListsRight (s : ObjectLists) : Prop :=
  ∃ (own : Own) (segs : List Segment), s.tree.nodes = segs.flatMap Segment.nodes ∧
    (∀ S ∈ segs, Linked s.tree.links (S.cells own) ∧ (S.cells own).Nodup ∧
      ∃ r rest, S.nodes = r :: rest ∧ r.depth = 0 ∧ ∀ m ∈ rest, 0 < m.depth) ∧
    ∀ n ∈ s.tree.nodes,
      (∃ fuel, walk s.tree.links.next fuel n.opFirst n.opMarker = some (own n.type)) ∧
      n.count = (own n.type).length ∧ ∀ p, p ∈ own n.type ↔
        ∃ o, s.proxies p = some o ∧ o.node = n.type

theorem listsRight_of_inv {s : ObjectLists} {own : Own} {segs : List Segment}
    (h : ListsInv own segs s) : s.ListsRight := by
  refine ⟨own, segs, h.layout.nodes_eq, fun S hS => ?_, fun n hn => ?_⟩
  · exact ⟨(h.layout.ok S hS).linked, (nodup_flatMap.mp h.layout.cells_nodup).1 S hS,
      (h.layout.ok S hS).root⟩
  · obtain ⟨pre₀, post₀, hnds⟩ := append_of_mem hn
    obtain ⟨G₁, S, G₂, pre, post, rfl, hS, rfl, rfl⟩ := h.layout.exists_split hnds
    have hl := h.layout.linked_split hS
    have hnd := h.layout.nodup_split hS
    obtain ⟨rest, hrest⟩ := h.layout.behind_eq hS
    obtain ⟨front, hfrt⟩ := h.layout.before_eq hS
    rw [hrest, hfrt] at hl hnd
    have hmar : n.opMarker ∉ own n.type := fun hc =>
      (nodup_append.mp hnd).2.2 _ (mem_append_right _ hc) _ mem_cons_self rfl
    have hl' : Linked s.tree.links (n.opFirst :: own n.type ++ [n.opMarker]) :=
      Linked.part front rest (by simpa using hl)
    exact ⟨⟨_, walk_of_linked hl' hmar (Nat.lt_succ_self _)⟩, h.layout.count_eq hS, fun p =>
      h.stored p n.type⟩

theorem listsInv_of_run (types ops : List ListOp)
    (htypes : ∀ op ∈ types, op.isAttach = true) (hops : ∀ op ∈ ops, op.isAttach = false) :
    ∃ own segs, ListsInv own segs ((types ++ ops).foldl step empty) := by
  have hatt : (types.foldl step empty).Inv := by
    refine foldlRecOn types step inv_empty fun s h op hop => step_inv s op h ?_
    have := htypes op hop
    cases op with
    | attach => trivial
    | _ => cases this
  obtain ⟨own, segs, hinv, -⟩ := hatt
  rw [foldl_append]
  refine foldlRecOn (motive := fun s => ∃ own segs, ListsInv own segs s) ops step ⟨own,
    segs, hinv⟩ ?_
  rintro s ⟨own, segs, h⟩ op hop
  obtain ⟨own', segs', h', -⟩ := step_lists op h (hops op hop)
  exact ⟨own', segs', h'⟩

/-- **If the types are attached before the first object is inserted, the lists are right in every
run.** -/
theorem lists_of_run {types ops : List ListOp} (htypes : ∀ op ∈ types, op.isAttach = true)
    (hops : ∀ op ∈ ops, op.isAttach = false) : ((types ++ ops).foldl step empty).ListsRight := by
  obtain ⟨own, segs, h⟩ := listsInv_of_run _ _ htypes hops
  exact listsRight_of_inv h

/-- The lists that are right where the range of `student` is wrong. -/
theorem lists_of_clerk : (foldl step empty (clerkTypes ++
    [.insert "C" 1 (.integral 64 1), .insert "S" 2 (.integral 64 2), .remove 3])).ListsRight :=
  lists_of_run (by decide) (by decide)

end ObjectLists

end Matador.Object
