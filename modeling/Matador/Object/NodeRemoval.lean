import Matador.Object.ObjectRange
import Matador.Object.StoreMap

/-!
# Detaching and clearing nodes of the tree

`detach` of an iterator removes its node with the subtree and returns an iterator to the node behind
it; `clear` of a type should delete the objects of its node and of the nodes below it. Both go on
with what `remove_prototype_node` returns, the successor the node had before anything was removed:

* for a node with children it is the first child, which is deleted with the node
* for the last child of a node it is behind the subtree, so the loop over the children never meets
  their end; it clears the nodes that follow until there is none

Besides, `clear` ends with the removal of the node itself.
-/

namespace Matador.Object

open List Lib PrototypeTree

variable {s : ObjectLists} {n : PrototypeNode} {pre post : List PrototypeNode}

namespace ObjectLists

/-- `next_node`: the neighbour in preorder, `none` for `last_`. -/
def nextNode (t : PrototypeTree) (type : String) : Option String :=
  match locate type t.nodes with
  | some (_, _, c :: _) => some c.type
  | _ => none

/-- `object_store::detach(const prototype_iterator&)`, with the node of the iterator it returns. -/
def detachAt (s : ObjectLists) (type : String) : ObjectLists × Option String :=
  (s.removePrototypeNode s.tree.nodes.length type, nextNode s.tree type)

mutual

/-- `object_store::clear(prototype_node*)`, with the node it returns; an error if a null pointer is
read, and `none` if it takes more calls than `fuel`. -/
def clearSubtree : Nat → ObjectLists → Option String →
    Option (Except Unit (ObjectLists × Option String))
  | 0, _, _ => none
  -- `last_` has no `first`
  | _ + 1, _, none => some (.error ())
  | fuel + 1, s, some type =>
    match firstChild s.tree type with
    | none => some (.ok (s.removePrototypeNode 1 type, nextNode s.tree type))
    | some child => clearChildren fuel s (some child)

/-- The loop over the children. The successor of a node is never the end of a list of children, so
it goes on. -/
def clearChildren : Nat → ObjectLists → Option String →
    Option (Except Unit (ObjectLists × Option String))
  | 0, _, _ => none
  | fuel + 1, s, current =>
    match clearSubtree fuel s current with
    | some (.ok (s', next)) => clearChildren fuel s' next
    | r => r

end

end ObjectLists

open ObjectLists

/-! ## Detaching -/

def outside (t : PrototypeTree) (type : String) : List PrototypeNode :=
  t.nodes.filter fun m => m.type ∉ (t.subtree type).map PrototypeNode.type

def nextBehind (t : PrototypeTree) (type : String) : Option String :=
  match locate type t.nodes with
  | some (_, n, post) => (behind n.depth post).head?.map PrototypeNode.type
  | none => none

/-- The subtree is removed, and the iterator is at the node behind it. -/
structure Detaches (s : ObjectLists) (type : String) : Prop where
  nodes : (s.detachAt type).1.tree.nodes.map PrototypeNode.sig =
    (outside s.tree type).map PrototypeNode.sig
  next : (s.detachAt type).2 = nextBehind s.tree type

section Removal

variable (hnd : (s.tree.nodes.map PrototypeNode.type).Nodup)
  (hnodes : s.tree.nodes = pre ++ n :: post)

include hnd hnodes

theorem nextNode_eq : nextNode s.tree n.type = post.head?.map PrototypeNode.type := by
  rw [nextNode, locate_of_nodup hnd hnodes]
  cases post with
  | nil => rfl
  | cons c post => rfl

theorem nextBehind_eq :
    nextBehind s.tree n.type = (behind n.depth post).head?.map PrototypeNode.type := by
  rw [nextBehind, locate_of_nodup hnd hnodes]

theorem outside_eq : outside s.tree n.type = pre ++ behind n.depth post := by
  have hspl : s.tree.nodes = pre ++ ((n :: descendants n.depth post) ++ behind n.depth post) := by
    rw [cons_append, descendants_append_behind, hnodes]
  rw [outside, subtree_eq hnd hnodes, hspl, filter_append, filter_append]
  rw [hspl, map_append, map_append, nodup_append, nodup_append] at hnd
  obtain ⟨-, ⟨-, -, hbhd⟩, hpre⟩ := hnd
  have hin : (n :: descendants n.depth post).filter
      (fun m => m.type ∉ (n :: descendants n.depth post).map PrototypeNode.type) = [] :=
    filter_eq_nil_iff.mpr fun m hm hc => of_decide_eq_true hc (mem_map_of_mem hm)
  rw [hin]
  congr 1
  · refine filter_eq_self.mpr fun m hm => decide_eq_true fun hc => ?_
    exact hpre m.type (mem_map_of_mem hm) m.type (mem_append_left _ hc) rfl
  · refine filter_eq_self.mpr fun m hm => decide_eq_true fun hc => ?_
    exact hbhd m.type hc m.type (mem_map_of_mem hm) rfl

/-- The node that `remove_prototype_node` goes on with is behind the subtree only if there are no
children. -/
theorem nextNode_eq_nextBehind :
    nextNode s.tree n.type = nextBehind s.tree n.type ↔ descendants n.depth post = [] := by
  rw [nextNode_eq hnd hnodes, nextBehind_eq hnd hnodes]
  have hspl := descendants_append_behind n.depth post
  constructor
  · intro heq
    cases hdesc : descendants n.depth post with
    | nil => rfl
    | cons c l =>
      have hhead : post.head? = some c := by rw [← hspl, hdesc, cons_append, head?_cons]
      rw [hhead] at heq
      obtain ⟨m, hm, hmc⟩ := Option.map_eq_some_iff.mp heq.symm
      have hplc : s.tree.nodes = (pre ++ [n]) ++ c :: (l ++ behind n.depth post) := by
        rw [hnodes, ← cons_append, ← hdesc, hspl]
        simp
      exact absurd hmc ((type_ne_of_nodup hnd hplc).2 m (mem_append_right _ (mem_of_mem_head? hm)))
  · intro hdesc
    rw [hdesc, nil_append] at hspl
    rw [hspl]

end Removal

/-- **`detach` of an iterator is right if and only if its node has no children.** The names of the
nodes are unique, because `attach` refuses a name that is taken. -/
theorem detaches_iff {type : String} (hnd : (s.tree.nodes.map PrototypeNode.type).Nodup)
    (hmem : type ∈ s.tree.nodes.map PrototypeNode.type) :
    Detaches s type ↔ firstChild s.tree type = none := by
  obtain ⟨n, hn, rfl⟩ := mem_map.mp hmem
  obtain ⟨pre, post, hnodes⟩ := append_of_mem hn
  rw [firstChild_eq_none hnd hnodes, ← nextNode_eq_nextBehind hnd hnodes]
  have hlen : (descendants n.depth post).length < s.tree.nodes.length := by
    have hle :=
      (takeWhile_sublist (fun m : PrototypeNode => n.depth < m.depth) (l := post)).length_le
    rw [hnodes, length_append, length_cons, descendants]
    omega
  have hsigs := removePrototypeNode_sigs_at hnd hnodes hlen
  constructor
  · intro h
    exact h.next
  · intro hnext
    exact ⟨hsigs.trans (by rw [outside_eq hnd hnodes]), hnext⟩

def studentTree : ObjectLists :=
  [ListOp.attach "person" "P" true none, .attach "student" "S" true (some "person"),
    .insert "P" 1 (.integral 64 1), .insert "S" 2 (.integral 64 2)].foldl step empty

theorem student_detaches : Detaches studentTree "student" :=
  (detaches_iff (by decide) (by decide)).mpr (by decide)

/-- Detaching `person` returns an iterator to the deleted node of `student`. -/
theorem person_not_detaches : ¬Detaches studentTree "person" := by
  intro h
  have hnext := h.next
  revert hnext
  decide

/-! ## Clearing -/

/-- The objects of the subtree are deleted and no others, and the other nodes are kept. -/
structure ClearsObjects (s s' : ObjectLists) (type : String) : Prop where
  objects : ∀ p o, s'.proxies p = some o ↔
    s.proxies p = some o ∧ o.node ∉ (s.tree.subtree type).map PrototypeNode.type
  nodes :
    ((outside s.tree type).map PrototypeNode.sig).Sublist (s'.tree.nodes.map PrototypeNode.sig)

/-- `clear(type)` returns and deletes the objects of the subtree. -/
def Deletes (s : ObjectLists) (type : String) : Prop :=
  ∃ fuel s' next, clearSubtree fuel s (some type) = some (.ok (s', next)) ∧ ClearsObjects s s' type

/-- Besides, all types are still attached. -/
def Clears (s : ObjectLists) (type : String) : Prop :=
  ∃ fuel s' next, clearSubtree fuel s (some type) = some (.ok (s', next)) ∧
    ClearsObjects s s' type ∧
    s'.tree.nodes.map PrototypeNode.type = s.tree.nodes.map PrototypeNode.type

theorem clearChildren_ne_ok (fuel : Nat) (s : ObjectLists) (current : Option String)
    (r : ObjectLists × Option String) : clearChildren fuel s current ≠ some (.ok r) := by
  induction fuel generalizing s current with
  | zero => exact nofun
  | succ fuel ih =>
    rw [clearChildren]
    cases hcle : clearSubtree fuel s current with
    | none => exact nofun
    | some e =>
      cases e with
      | error u => exact nofun
      | ok r' => exact ih r'.1 r'.2

theorem clearSubtree_ok {fuel : Nat} {type : String} {s' : ObjectLists} {next : Option String}
    (h : clearSubtree fuel s (some type) = some (.ok (s', next))) :
    firstChild s.tree type = none ∧ s' = s.removePrototypeNode 1 type := by
  cases fuel with
  | zero =>
    cases h
  | succ fuel =>
    rw [clearSubtree] at h
    cases hchd : firstChild s.tree type with
    | some child =>
      rw [hchd] at h
      exact absurd h (clearChildren_ne_ok fuel s (some child) (s', next))
    | none =>
      rw [hchd] at h
      cases h
      exact ⟨rfl, rfl⟩

/-- **`clear` never keeps the attached types; it deletes the right objects if and only if the node
has no children.** -/
theorem deletes_iff {type : String} (hnd : (s.tree.nodes.map PrototypeNode.type).Nodup)
    (hmem : type ∈ s.tree.nodes.map PrototypeNode.type) :
    ¬Clears s type ∧ ∀ own segs, ListsInv own segs s →
    (Deletes s type ↔ firstChild s.tree type = none) := by
  obtain ⟨n, hn, rfl⟩ := mem_map.mp hmem
  obtain ⟨pre, post, hnodes⟩ := append_of_mem hn
  have hleaf (hchd : firstChild s.tree n.type = none) : (descendants n.depth post).length < 1 := by
    rw [(firstChild_eq_none hnd hnodes).mp hchd]
    exact Nat.one_pos
  constructor
  · rintro ⟨fuel, s', next, hcle, -, htys⟩
    obtain ⟨hchd, rfl⟩ := clearSubtree_ok hcle
    have hsigs := removePrototypeNode_sigs_at hnd hnodes (hleaf hchd)
    -- the type of the node is not among those that are left
    rw [← htys, types_of_sigs, hsigs, ← types_of_sigs] at hmem
    obtain ⟨hpre, hpost⟩ := type_ne_of_nodup hnd hnodes
    obtain ⟨m, hm, hmt⟩ := mem_map.mp hmem
    rcases mem_append.mp hm with hm | hm
    · exact hpre m hm hmt
    · exact hpost m ((dropWhile_sublist _).subset hm) hmt
  · intro own segs h
    constructor
    · rintro ⟨fuel, s', next, hcle, -⟩
      exact (clearSubtree_ok hcle).1
    · intro hchd
      have hsigs := removePrototypeNode_sigs_at hnd hnodes (hleaf hchd)
      refine ⟨1, s.removePrototypeNode 1 n.type, nextNode s.tree n.type,
        by simp only [clearSubtree, hchd], ?_, ?_⟩
      · rw [subtree_eq hnd hnodes]
        exact (removePrototypeNode_at h hnodes (hleaf hchd)).2
      · rw [hsigs, outside_eq hnd hnodes]

theorem student_deletes : ¬Clears studentTree "student" ∧ Deletes studentTree "student" := by
  obtain ⟨own, segs, h⟩ : ∃ own segs, ListsInv own segs studentTree := listsInv_of_run
    [.attach "person" "P" true none, .attach "student" "S" true (some "person")]
    [.insert "P" 1 (.integral 64 1), .insert "S" 2 (.integral 64 2)] (by decide) (by decide)
  obtain ⟨hclr, hdel⟩ : ¬Clears studentTree "student" ∧ _ := deletes_iff (by decide) (by decide)
  exact ⟨hclr, (hdel own segs h).mpr (by decide)⟩

/-- Clearing `student` removes its node. -/
theorem student_not_clears : ¬Clears studentTree "student" := by
  rintro ⟨fuel, s', next, hcle, -, htys⟩
  obtain ⟨-, rfl⟩ := clearSubtree_ok hcle
  revert htys
  decide

end Matador.Object
