import Matador.Object.HasOneCount

/-!
# Removing an object with all it cascades to

The objects to be removed with `o` are those that are reached from it by fields that cascade a
removal (`Cascaded`). The deleter takes one reference off an object, for the field by which it meets
the object first, and collects it only if that field cascades.
-/

namespace Matador.Object

open Deleter Function List Lib Relation Option

/-! ## Collected objects -/

variable {xs : List (Nat × ProxyPtr)}

namespace Deleter

theorem checkObjectCountMap_eq_true {visited : ProxyPtr → Option Int} :
    checkObjectCountMap visited xs = .ok true ↔ ∀ x ∈ xs, ∀ n ∈ visited x.2, n = 0 := by
  induction xs with
  | nil => simp [checkObjectCountMap]
  | cons x xs ih =>
    rw [checkObjectCountMap, forall_mem_cons]
    cases hx : visited x.2 with
    | none => simp [ih]
    | some n =>
      simp only [mem_def, Option.some.injEq, forall_eq']
      split
      · next h =>
        simp only [Except.ok.injEq, Bool.false_eq_true, false_iff]
        omega
      · split
        · next h =>
          simp only [reduceCtorEq, false_iff]
          omega
        · next h h' =>
          rw [ih]
          have : n = 0 := by omega
          simp [this]

theorem exists_checkObjectCountMap {visited : ProxyPtr → Option Int}
    (h : ∀ x ∈ xs, ∀ n ∈ visited x.2, 0 ≤ n) : ∃ b, checkObjectCountMap visited xs = .ok b := by
  induction xs with
  | nil => exact ⟨true, rfl⟩
  | cons x xs ih =>
    obtain ⟨hx, hxs⟩ := forall_mem_cons.mp h
    rw [checkObjectCountMap]
    cases hn : visited x.2 with
    | none => exact ih hxs
    | some n =>
      have hnon := hx n hn
      by_cases hpos : n > 0
      · exact ⟨false, if_pos hpos⟩
      · dsimp only
        rw [if_neg hpos, if_neg (by omega)]
        exact ih hxs

/-- `is_deletable` has left nothing behind but calls for fields that still exist, and no null
pointer has been used. -/
structure Clean (g : ObjectGraph) (d : Deleter) : Prop where
  visited : ∀ p, d.visitedObjects p = none
  defined : d.undefined = false
  queued : ∀ r ∈ d.relationsToRemove, g.HasField r

theorem clean_empty (g : ObjectGraph) : empty.Clean g := ⟨fun _ => rfl, rfl, nofun⟩

def collected (d : Deleter) : List ProxyPtr := d.objectsToRemove.map Prod.snd

/-! ## The walk of the deleter -/

/-- The objects in `C` have only has_one fields with nothing at the other side, and those that
cascade a removal lead to objects in `C`. -/
structure Closed (g : ObjectGraph) (C : ProxyPtr → Prop) : Prop where
  known : ∀ p, C p → p ∈ g.proxies ∧ g.isRelationNode p = false
  members : ∀ p, C p → ∀ m ∈ g.members p, ∃ target removes,
    m = .hasOne target removes (some ⟨none⟩) ∧
    (removes = true → ∀ q ∈ target, C q)
  ids : ∀ p q, C p → C q → g.id p = g.id q → p = q

/-- The fields that cascade are of the class of their object: no field of it is left out. -/
def Whole (g : ObjectGraph) (C : ProxyPtr → Prop) : Prop :=
  ∀ p, C p → ∀ x ∈ g.items p, x.member.removes = true →
    ∀ q ∈ x.member.target, g.reached p x.index q = g.items q

/-- What the deleter knows on its way from `o`. -/
structure Walk (g : ObjectGraph) (C : ProxyPtr → Prop) (o : ProxyPtr) (work : List Item)
    (d : Deleter) : Prop where
  defined : d.undefined = false
  queued : ∀ r ∈ d.relationsToRemove, g.HasField r
  root : d.visitedObjects o = some (g.count o)
  visited : ∀ q n, d.visitedObjects q = some n → q ≠ o → n = g.count q - 1
  ordered : (d.objectsToRemove.map Prod.fst).Pairwise (· < ·)
  ids : ∀ x ∈ d.objectsToRemove, x.1 = g.id x.2
  cascaded : ∀ p ∈ d.collected, C p ∧ (d.visitedObjects p).isSome
  start : o ∈ d.collected
  items : ∀ x ∈ work, x.owner ∈ d.collected ∧ x ∈ g.items x.owner
  ahead : Whole g C → ∀ p ∈ d.collected, ∀ m ∈ g.members p, ∀ q ∈ m.target,
    (d.visitedObjects q).isSome ∨ ∃ x ∈ work, x.member.target = some q
  passed : ∀ q, (d.visitedObjects q).isSome → q ∉ d.collected →
    ∃ p ∈ d.collected, ∃ m ∈ g.members p, m.target = some q ∧ m.removes = false

section Walk

variable {g : ObjectGraph} {C : ProxyPtr → Prop} {o p q : ProxyPtr} {d : Deleter}
  {work : List Item} {x : Item}

theorem mem_items (hx : x ∈ g.items p) :
    x.owner = p ∧ x.member ∈ g.members p ∧ x.index < (g.members p).length := by
  obtain ⟨i, hi, rfl⟩ := mem_mapIdx.mp hx
  exact ⟨rfl, getElem_mem hi, hi⟩

theorem exists_item {m : Member} (hm : m ∈ g.members p) : ∃ x ∈ g.items p, x.member = m := by
  obtain ⟨i, hi, rfl⟩ := getElem_of_mem hm
  exact ⟨_, mem_mapIdx.mpr ⟨i, hi, rfl⟩, rfl⟩

theorem Walk.skip (h : Walk g C o (x :: work) d)
    (hx : ∀ q ∈ x.member.target, (d.visitedObjects q).isSome) : Walk g C o work d :=
  { h with
    items := fun y hy => h.items y (mem_cons_of_mem _ hy)
    ahead := fun hall p hp m hm q hq => by
      rcases h.ahead hall p hp m hm q hq with hvis | ⟨y, hy, hyq⟩
      · exact .inl hvis
      · rcases mem_cons.mp hy with rfl | hy
        · exact .inl (hx q hyq)
        · exact .inr ⟨y, hy, hyq⟩ }

variable (g x q) in
def meet (d : Deleter) : Deleter := (d.enqueue ⟨x.owner, x.index, none⟩).mark q (g.count q - 1)

theorem isSome_meet {u : ProxyPtr} : ((d.meet g q x).visitedObjects u).isSome ↔
    u = q ∨ (d.visitedObjects u).isSome :=
  isSome_insertNew

theorem Walk.meet_visited (h : Walk g C o work d) (hq : d.visitedObjects q = none) :
    (d.meet g q x).visitedObjects o = some (g.count o) ∧
      ∀ u n, (d.meet g q x).visitedObjects u = some n → u ≠ o → n = g.count u - 1 := by
  have hoq : o ≠ q := by
    rintro rfl
    rw [h.root] at hq
    cases hq
  rw [show (d.meet g q x).visitedObjects = update d.visitedObjects q (some (g.count q - 1)) from
    insertNew_of_none hq _]
  refine ⟨by rw [update_of_ne hoq, h.root], fun u n hu huo => ?_⟩
  rw [update_apply] at hu
  split at hu
  · next huq =>
    cases hu
    rw [huq]
  · exact h.visited u n hu huo

theorem Walk.ahead_meet (h : Walk g C o (x :: work) d) (hall : Whole g C)
    (hx : x.member.target = some q) (hp : p ∈ d.collected) {m : Member} (hm : m ∈ g.members p)
    {u : ProxyPtr} (hu : u ∈ m.target) : ((d.meet g q x).visitedObjects u).isSome ∨
    ∃ y ∈ work, y.member.target = some u := by
  rcases h.ahead hall p hp m hm u hu with hvis | ⟨y, hy, hyu⟩
  · exact .inl (isSome_meet.mpr (.inr hvis))
  · rcases mem_cons.mp hy with rfl | hy
    · rw [hx] at hyu
      exact .inl (isSome_meet.mpr (.inl (some.inj hyu).symm))
    · exact .inr ⟨y, hy, hyu⟩

theorem Walk.queued_meet (h : Walk g C o (x :: work) d) :
    ∀ r ∈ (d.meet g q x).relationsToRemove, g.HasField r := by
  intro r hr
  rcases mem_append.mp hr with hr | hr
  · exact h.queued r hr
  · rw [mem_singleton.mp hr]
    exact (mem_items (h.items x mem_cons_self).2).2.2

theorem Walk.pass (h : Walk g C o (x :: work) d)
    (hx : x.member = .hasOne (some q) false (some ⟨none⟩)) (hq : d.visitedObjects q = none) :
    Walk g C o work (d.meet g q x) :=
  { h with
    queued := h.queued_meet
    root := (h.meet_visited hq).1
    visited := (h.meet_visited hq).2
    cascaded := fun p hp => (h.cascaded p hp).imp_right fun hsome => isSome_meet.mpr (.inr hsome)
    items := fun y hy => h.items y (mem_cons_of_mem _ hy)
    ahead := fun hall p hp m hm u hu => h.ahead_meet hall (by rw [hx]; rfl) hp hm hu
    passed := fun u hu hnot => by
      rcases isSome_meet.mp hu with rfl | hu
      · obtain ⟨hown, hmem⟩ := h.items x mem_cons_self
        exact ⟨x.owner, hown, x.member, (mem_items hmem).2.1, by rw [hx]; exact ⟨rfl, rfl⟩⟩
      · exact h.passed u hu hnot }

variable (g x q) in
def collect (d : Deleter) : Deleter :=
  { d.meet g q x with objectsToRemove := insertObject (g.id q) q d.objectsToRemove }

theorem Walk.mem_collect (h : Walk g C o work d) (hC : Closed g C) (hCq : C q)
    (hq : d.visitedObjects q = none) :
    p ∈ (d.collect g q x).collected ↔ p = q ∨ p ∈ d.collected := by
  have hnew : g.id q ∉ d.objectsToRemove.map Prod.fst := by
    intro hmem
    obtain ⟨y, hy, hyq⟩ := mem_map.mp hmem
    rw [h.ids y hy] at hyq
    have hcol := h.cascaded y.2 (mem_map_of_mem hy)
    rw [hC.ids _ _ hcol.1 hCq hyq, hq] at hcol
    cases hcol.2
  constructor
  · intro hp
    obtain ⟨y, hy, rfl⟩ := mem_map.mp hp
    rcases mem_insertObject hy with rfl | hy
    · exact .inl rfl
    · exact .inr (mem_map_of_mem hy)
  · rintro (rfl | hp)
    · exact mem_map.mpr ⟨_, mem_insertObject_self _ hnew, rfl⟩
    · obtain ⟨y, hy, rfl⟩ := mem_map.mp hp
      exact mem_map.mpr ⟨y, subset_insertObject hy, rfl⟩

theorem Walk.follow (h : Walk g C o (x :: work) d) (hC : Closed g C) (hCq : C q)
    (hx : x.member = .hasOne (some q) true (some ⟨none⟩)) (hq : d.visitedObjects q = none) :
    Walk g C o (g.reached x.owner x.index q ++ work) (d.collect g q x) := by
  have htgt : x.member.target = some q := by rw [hx]; rfl
  have hmem {p : ProxyPtr} : p ∈ (d.collect g q x).collected ↔ p = q ∨ p ∈ d.collected :=
    h.mem_collect hC hCq hq
  exact {
    defined := h.defined
    queued := h.queued_meet (q := q)
    root := (h.meet_visited hq).1
    visited := (h.meet_visited hq).2
    ordered := pairwise_insertObject _ _ h.ordered
    ids := fun y hy => by
      rcases mem_insertObject hy with rfl | hy
      · rfl
      · exact h.ids y hy
    cascaded := fun p hp => by
      rcases hmem.mp hp with rfl | hp
      · exact ⟨hCq, isSome_meet.mpr (.inl rfl)⟩
      · exact (h.cascaded p hp).imp_right fun hsome => isSome_meet.mpr (.inr hsome)
    start := hmem.mpr (.inr h.start)
    items := fun y hy => by
      rcases mem_append.mp hy with hy | hy
      · have hyq := (g.reached_sublist _ _ _).subset hy
        obtain ⟨rfl, -⟩ := mem_items hyq
        exact ⟨hmem.mpr (.inl rfl), hyq⟩
      · obtain ⟨hown, hmemb⟩ := h.items y (mem_cons_of_mem _ hy)
        exact ⟨hmem.mpr (.inr hown), hmemb⟩
    ahead := fun hall p hp m hm u hu => by
      rcases hmem.mp hp with rfl | hp
      · obtain ⟨y, hy, rfl⟩ := exists_item hm
        obtain ⟨hown, hitem⟩ := h.items x mem_cons_self
        have hrea := hall _ (h.cascaded _ hown).1 x hitem (by rw [hx]; rfl) p htgt
        exact .inr ⟨y, mem_append_left _ (hrea ▸ hy), hu⟩
      · refine (h.ahead_meet hall htgt hp hm hu).imp_right ?_
        rintro ⟨y, hy, hyu⟩
        exact ⟨y, mem_append_right _ hy, hyu⟩
    passed := fun u hu hnot => by
      rw [hmem, not_or] at hnot
      rcases isSome_meet.mp hu with rfl | hu
      · exact absurd rfl hnot.1
      · obtain ⟨p, hp, hrest⟩ := h.passed u hu hnot.2
        exact ⟨p, hmem.mpr (.inr hp), hrest⟩ }

theorem Walk.visit (h : Walk g C o (x :: work) d) (hC : Closed g C) :
    Walk g C o ((visit g d x).2 ++ work) (visit g d x).1 ∧
      (visit g d x).2.length + (visit g d x).1.unmet g ≤ d.unmet g := by
  obtain ⟨hown, hmem⟩ := h.items x mem_cons_self
  have hcow := (h.cascaded _ hown).1
  obtain ⟨target, removes, hx, hcas⟩ := hC.members _ hcow _ (mem_items hmem).2.1
  by_cases hmet : ∀ q ∈ target, (d.visitedObjects q).isSome
  · rw [visit_of_met hx hmet]
    refine ⟨h.skip fun q hq => hmet q ?_, Nat.le_of_eq (Nat.zero_add _)⟩
    rwa [hx] at hq
  · simp only [not_forall, Bool.not_eq_true, isSome_eq_false_iff, isNone_iff_eq_none] at hmet
    obtain ⟨q, htgt, hq⟩ := hmet
    rw [mem_def.mp htgt] at hx hcas
    rw [visit_of_hasOne (hC.known _ hcow).2 hx hq]
    have hold (u : ProxyPtr) (hu : (d.visitedObjects u).isSome) :
        ((d.meet g q x).visitedObjects u).isSome := isSome_meet.mpr (.inr hu)
    cases removes with
    | false => exact ⟨h.pass hx hq, (Nat.zero_add _).le.trans (unmet_le hold)⟩
    | true =>
      have hCq := hcas rfl q rfl
      exact ⟨h.follow hC hCq hx hq,
        unmet_visit (hC.known q hCq).1 hq (isSome_meet.mpr (.inl rfl)) hold⟩

theorem exists_walk (hC : Closed g C) (ho : C o) (hd : d.Clean g) :
    ∃ d', Worklist.run (Deleter.visit g) g.fuel (g.items o) (d.start g o) = some d' ∧
    Walk g C o [] d' := by
  have hvis : (d.start g o).visitedObjects = update d.visitedObjects o (some (g.count o)) :=
    insertNew_of_none (hd.visited o) _
  have hsome (u : ProxyPtr) : ((d.start g o).visitedObjects u).isSome ↔ u = o := by
    rw [hvis, update_apply]
    split
    · simpa
    · next hne => simp [hd.visited u, hne]
  have hcol (u : ProxyPtr) : u ∈ (d.start g o).collected ↔ u = o := mem_singleton
  have hsta : Walk g C o (g.items o) (d.start g o) := {
    defined := hd.defined
    queued := hd.queued
    root := by rw [hvis, update_self]
    visited := fun q n hq hne => by
      rw [hvis, update_of_ne hne, hd.visited] at hq
      cases hq
    ordered := pairwise_singleton ..
    ids := fun y hy => by rw [mem_singleton.mp hy]
    cascaded := fun p hp => by
      rw [hcol] at hp
      exact ⟨hp ▸ ho, (hsome p).mpr hp⟩
    start := (hcol o).mpr rfl
    items := fun x hx => by
      obtain ⟨rfl, -⟩ := mem_items hx
      exact ⟨(hcol _).mpr rfl, hx⟩
    ahead := fun _ p hp m hm q hq => by
      rw [hcol] at hp
      subst hp
      obtain ⟨y, hy, rfl⟩ := exists_item hm
      exact .inr ⟨y, hy, hq⟩
    passed := fun q hq hnot => absurd ((hcol q).mpr ((hsome q).mp hq)) hnot }
  exact Worklist.exists_run (Walk g C o) (unmet g) (fun x work d hwalk => hwalk.visit hC) hsta
    (unmet_start (hC.known o ho).1)

theorem exists_isDeletable_eq (hC : Closed g C) (ho : C o) (hd : d.Clean g) :
    ∃ d', Walk g C o [] d' ∧
    d.isDeletable g o = match checkObjectCountMap d'.visitedObjects d'.objectsToRemove with
      | .error m => (d', .throws m)
      | .ok result => ({ d' with visitedObjects := fun _ => none }, .ok result) := by
  obtain ⟨d', hrun, hwalk⟩ := exists_walk hC ho hd
  refine ⟨d', hwalk, ?_⟩
  rw [isDeletable, hrun]
  dsimp only
  rw [hwalk.defined]
  rfl

end Walk

end Deleter

namespace HasOneStore

/-- A field of `p` cascades a removal to `q`. -/
def Cascades (s : HasOneStore) (p q : ProxyPtr) : Prop :=
  ∃ f ∈ s.fields p, f.target = some q ∧ f.removes = true

/-- The objects to be removed with `o`. -/
def Cascaded (s : HasOneStore) (o q : ProxyPtr) : Prop := ReflTransGen s.Cascades o q

variable {f : HasOne}

section Closed

variable {s : HasOneStore} {o p q : ProxyPtr}

theorem Accurate.cascaded_stored (hs : s.Accurate) (ho : o ∈ s.stored) (h : s.Cascaded o q) :
    q ∈ s.stored := by
  induction h with
  | refl => exact ho
  | tail _ hstep ih =>
    obtain ⟨f, hf, htgt, -⟩ := hstep
    exact hs.closed _ ih f hf _ htgt

theorem mem_members {m : Member} : m ∈ s.graph.members p ↔
    ∃ f ∈ s.fields p, .hasOne f.target f.removes (if f.isInserted then some ⟨none⟩ else none) = m :=
  mem_map

theorem Accurate.closed_cascaded (hs : s.Accurate) (ho : o ∈ s.stored) :
    Closed s.graph (s.Cascaded o) where
  known p hp := ⟨mem_range.mpr (hs.allocated p (hs.cascaded_stored ho hp)), rfl⟩
  members p hp m hm := by
    obtain ⟨f, hf, rfl⟩ := mem_members.mp hm
    rw [hs.inserted p (hs.cascaded_stored ho hp) f hf]
    exact ⟨_, _, rfl, fun hrem q hq => hp.tail ⟨f, hf, hq, hrem⟩⟩
  ids p q hp hq heq := by
    have hnd : (s.stored.map s.id).Nodup := hs.ids.imp fun hlt => Nat.ne_of_lt hlt
    exact inj_on_of_nodup_map hnd (hs.cascaded_stored ho hp) (hs.cascaded_stored ho hq) heq

end Closed

/-! ## Deleting the collected objects -/

section Delete

variable {s : HasOneStore} {p : ProxyPtr}

@[simp] theorem counted_stored (f : HasOne) (target : Option ProxyPtr) (n : Int) :
    (s.counted f target n).stored = s.stored := by
  unfold counted
  split
  · rfl
  · split <;> rfl

theorem foldl_counted_stored (fs : List HasOne) (n : Int) :
    (fs.foldl (fun s f => s.counted f f.target n) s).stored = s.stored := by
  induction fs generalizing s with
  | nil => rfl
  | cons f fs ih => rw [foldl_cons, ih, counted_stored]

theorem deleteProxy_stored : (s.deleteProxy p).stored = s.stored.erase p := by
  exact congrArg (fun ps => ps.erase p) (foldl_counted_stored _ _)

theorem exists_runAll_removeSingle (hs : s.stored.Nodup)
    (hxs : (xs.map Prod.snd).Nodup) (hstd : ∀ p ∈ xs.map Prod.snd, p ∈ s.stored) :
    ∃ s', runAll (fun x => relationStore.removeSingle x.2) xs s = (s', .ok ()) ∧
      ∀ p, p ∈ s'.stored ↔ p ∈ s.stored ∧ p ∉ xs.map Prod.snd := by
  induction xs generalizing s with
  | nil => exact ⟨s, rfl, fun p => by simp⟩
  | cons x xs ih =>
    obtain ⟨hx, hxs⟩ := nodup_cons.mp hxs
    have hmem (p : ProxyPtr) : p ∈ (s.deleteProxy x.2).stored ↔ p ≠ x.2 ∧ p ∈ s.stored := by
      rw [deleteProxy_stored, hs.mem_erase_iff]
    have hnd : (s.deleteProxy x.2).stored.Nodup := by
      rw [deleteProxy_stored]
      exact hs.erase _
    obtain ⟨s', hrun, hs'⟩ := ih hnd hxs fun p hp => (hmem p).mpr
      ⟨fun heq => hx (heq ▸ hp), hstd p (mem_cons_of_mem _ hp)⟩
    refine ⟨s', ?_, fun p => ?_⟩
    · have hsgl : relationStore.removeSingle x.2 s = .ok (s.deleteProxy x.2) :=
        if_pos (hstd x.2 mem_cons_self)
      rw [runAll, hsgl]
      exact hrun
    · rw [hs', hmem, map_cons, mem_cons]
      tauto

end Delete

/-! ## Whether an object can be removed -/

section Remove

variable {s : HasOneStore} {o p : ProxyPtr} {d : Deleter}

theorem exists_remove_eq (hs : s.Accurate) (ho : o ∈ s.stored) (hd : d.Clean s.graph) :
    ∃ d' s', Walk s.graph (s.Cascaded o) o [] d' ∧
    (∀ p, p ∈ s'.stored ↔ p ∈ s.stored ∧ p ∉ d'.collected) ∧
      s.remove d o = match checkObjectCountMap d'.visitedObjects d'.objectsToRemove with
        | .error m => (s, d', .throws m)
        | .ok false =>
            (s, { d' with visitedObjects := fun _ => none }, .throws "object is not removable")
        | .ok true =>
          (s',
            { d' with
              visitedObjects := fun _ => none, relationsToRemove := [], objectsToRemove := [] },
            .ok ()) := by
  obtain ⟨d', hwalk, hdel⟩ := exists_isDeletable_eq (hs.closed_cascaded ho) .refl hd
  have hnd : (d'.objectsToRemove.map Prod.snd).Nodup := by
    have hids : (d'.objectsToRemove.map Prod.snd).map s.id = d'.objectsToRemove.map Prod.fst := by
      rw [List.map_map]
      exact map_congr_left fun x hx => (hwalk.ids x hx).symm
    refine List.Nodup.of_map s.id ?_
    rw [hids]
    exact hwalk.ordered.imp fun hlt => Nat.ne_of_lt hlt
  obtain ⟨s', hsgl, hs'⟩ := exists_runAll_removeSingle hs.nodup hnd fun p hp =>
    hs.cascaded_stored ho (hwalk.cascaded p hp).1
  have hcol : relationStore.removeCollected s { d' with visitedObjects := fun _ => none } =
      (s',
        { d' with visitedObjects := fun _ => none, relationsToRemove := [], objectsToRemove := [] },
        .ok ()) := by
    have hcal : runAll relationStore.callQueued d'.relationsToRemove s = (s, .ok ()) :=
      runAll_of_ok fun r hr => if_pos (hwalk.queued r hr)
    rw [RelationStore.removeCollected, hcal]
    dsimp only
    rw [hsgl]
  refine ⟨d', s', hwalk, hs', ?_⟩
  have hnod : relationStore.hasNode s o := decide_eq_true ho
  rw [remove, RelationStore.remove, if_pos hnod,
    show relationStore.graph s = s.graph from rfl, hdel]
  cases checkObjectCountMap d'.visitedObjects d'.objectsToRemove with
  | error m => rfl
  | ok result =>
    cases result with
    | false => rfl
    | true => exact hcol

theorem references_eq_countP {ps : List ProxyPtr} {q : ProxyPtr} :
    s.references ps q = (ps.flatMap s.fields).countP (refersTo q) := by
  rw [countP_flatMap]
  rfl

theorem exists_remove (hs : s.Accurate) (ho : o ∈ s.stored) (hd : d.Clean s.graph) :
    ∃ d', Walk s.graph (s.Cascaded o) o [] d' ∧
      ((s.remove d o).2.2 = .ok () ↔ ∀ p ∈ d'.collected, ∀ n ∈ d'.visitedObjects p, n = 0) ∧
      ((s.remove d o).2.2 = .ok () → ∀ p, p ∈ (s.remove d o).1.stored ↔
        p ∈ s.stored ∧ p ∉ d'.collected) := by
  obtain ⟨d', s', hwalk, hs', hrem⟩ := exists_remove_eq hs ho hd
  refine ⟨d', hwalk, ?_⟩
  have hche : checkObjectCountMap d'.visitedObjects d'.objectsToRemove = .ok true ↔
      ∀ p ∈ d'.collected, ∀ n ∈ d'.visitedObjects p, n = 0 := by
    rw [checkObjectCountMap_eq_true, collected, List.forall_mem_map]
  rw [← hche, hrem]
  cases checkObjectCountMap d'.visitedObjects d'.objectsToRemove with
  | error m => simp
  | ok result =>
    cases result with
    | false => simp
    | true => exact ⟨by simp, fun _ => hs'⟩

theorem references_left (hw : Walk s.graph (s.Cascaded o) o [] d) (hs : s.Accurate)
    (hp : p ∈ d.collected) :
    d.visitedObjects p = some ((s.references s.stored p : Int) - if p = o then 0 else 1) := by
  have hcou : s.graph.count p = s.references s.stored p := hs.counts p
  by_cases hpo : p = o
  · rw [if_pos hpo, sub_zero, ← hcou, hpo, hw.root]
  · obtain ⟨n, hn⟩ := isSome_iff_exists.mp (hw.cascaded p hp).2
    rw [hn, hw.visited p n hn hpo, hcou, if_neg hpo]

theorem nonneg_left (hw : Walk s.graph (s.Cascaded o) o [] d) (hs : s.Accurate) (ho : o ∈ s.stored)
    (hp : p ∈ d.collected) {n : Int} (hn : d.visitedObjects p = some n) : 0 ≤ n := by
  obtain rfl := some.inj ((references_left hw hs hp).symm.trans hn)
  by_cases hpo : p = o
  · rw [if_pos hpo]
    omega
  · -- a field of the object before `p` on the way from `o` refers to `p`
    obtain ⟨r, hr, f, hf, htgt, -⟩ := (hw.cascaded p hp).1.cases_tail.resolve_left hpo
    have hmem : f ∈ s.stored.flatMap s.fields := mem_flatMap.mpr ⟨r, hs.cascaded_stored ho hr, hf⟩
    have hpos : 0 < s.references s.stored p := by
      rw [references_eq_countP]
      exact countP_pos_iff.mpr ⟨f, hmem, decide_eq_true htgt⟩
    omega

theorem remove_defined (hs : s.Accurate) (hd : d.Clean s.graph) :
    (s.remove d o).2.2 ≠ .undefined ∧ (s.remove d o).2.1.Clean (s.remove d o).1.graph := by
  by_cases ho : o ∈ s.stored
  · obtain ⟨d', s', hwalk, -, hrem⟩ := exists_remove_eq hs ho hd
    have hnon (x : Nat × ProxyPtr) (hx : x ∈ d'.objectsToRemove) (n : Int)
        (hn : n ∈ d'.visitedObjects x.2) : 0 ≤ n :=
      nonneg_left hwalk hs ho (mem_map_of_mem hx) hn
    obtain ⟨result, hche⟩ := exists_checkObjectCountMap hnon
    rw [hrem, hche]
    cases result with
    | false => exact ⟨by simp, fun _ => rfl, hwalk.defined, hwalk.queued⟩
    | true => exact ⟨by simp, fun _ => rfl, hwalk.defined, nofun⟩
  · have hrem : s.remove d o = (s, d, .throws "prototype node is nullptr") :=
      if_neg (Bool.eq_false_iff.mp (decide_eq_false ho))
    rw [hrem]
    exact ⟨by simp, hd⟩

end Remove

/-! ## Shared objects -/

/-- Every field that refers to an object to be removed belongs to such an object. -/
def Enclosed (s : HasOneStore) (o : ProxyPtr) : Prop :=
  ∀ p ∈ s.stored, ∀ f ∈ s.fields p, ∀ q ∈ f.target, s.Cascaded o q → s.Cascaded o p

open Classical in
noncomputable def cascade (s : HasOneStore) (o : ProxyPtr) : List ProxyPtr :=
  s.stored.filter fun p => s.Cascaded o p

/-- Among the objects to be removed, one field refers to each but `o`, and none refers to `o`. -/
def Unshared (s : HasOneStore) (o : ProxyPtr) : Prop :=
  ∀ q, s.Cascaded o q → s.references (s.cascade o) q = if q = o then 0 else 1

/-- No object to be removed has more fields than the class of a field that cascades to it. -/
def Exact (s : HasOneStore) (o : ProxyPtr) : Prop :=
  ∀ p, s.Cascaded o p → ∀ f ∈ s.fields p, f.removes = true →
    ∀ q ∈ f.target, (s.fields q).length ≤ f.size

/-- `remove` succeeds if nothing but the objects to be removed refers to them, and removes these. -/
structure RemovesCascade (s : HasOneStore) (d : Deleter) (o : ProxyPtr) : Prop where
  succeeds : (s.remove d o).2.2 = .ok () ↔ s.Enclosed o
  removed : (s.remove d o).2.2 = .ok () →
    ∀ p, p ∈ s.stored ∧ p ∉ (s.remove d o).1.stored ↔ s.Cascaded o p

section Shared

variable {s : HasOneStore} {o p q : ProxyPtr} {d : Deleter} {ps : List ProxyPtr}

theorem references_eq_zero : s.references ps q = 0 ↔
    ∀ p ∈ ps, ∀ f ∈ s.fields p, f.target ≠ some q := by
  rw [references_eq_countP, countP_eq_zero]
  simp only [mem_flatMap, refersTo, decide_eq_true_eq]
  constructor
  · exact fun h p hp f hf => h f ⟨p, hp, hf⟩
  · rintro h f ⟨p, hp, hf⟩
    exact h p hp f hf

theorem references_filter (b : ProxyPtr → Bool) :
    s.references ps q = s.references (ps.filter b) q +
      s.references (ps.filter fun p => !b p) q := by
  induction ps with
  | nil => rfl
  | cons p ps ih =>
    simp only [references] at ih ⊢
    cases hb : b p with
    | true =>
      simp only [filter_cons, hb, if_true, Bool.not_true, Bool.false_eq_true, if_false,
        map_cons, sum_cons]
      omega
    | false =>
      simp only [filter_cons, hb, if_true, Bool.not_false, Bool.false_eq_true, if_false,
        map_cons, sum_cons]
      omega

theorem two_le_references {p' : ProxyPtr} {f' : HasOne} (hp : p ∈ ps) (hp' : p' ∈ ps)
    (hf : f ∈ s.fields p) (hf' : f' ∈ s.fields p') (hq : f.target = some q)
    (hq' : f'.target = some q) (hne : f ≠ f') : 2 ≤ s.references ps q := by
  rw [references_eq_countP, countP_eq_length_filter]
  have hmem : f ∈ (ps.flatMap s.fields).filter (refersTo q) :=
    mem_filter.mpr ⟨mem_flatMap.mpr ⟨p, hp, hf⟩, decide_eq_true hq⟩
  have hmem' : f' ∈ (ps.flatMap s.fields).filter (refersTo q) :=
    mem_filter.mpr ⟨mem_flatMap.mpr ⟨p', hp', hf'⟩, decide_eq_true hq'⟩
  match h : (ps.flatMap s.fields).filter (refersTo q) with
  | [] =>
    rw [h] at hmem
    cases hmem
  | [g] =>
    rw [h, mem_singleton] at hmem hmem'
    exact absurd (hmem.trans hmem'.symm) hne
  | _ :: _ :: _ => simp

theorem mem_cascade : p ∈ s.cascade o ↔ p ∈ s.stored ∧ s.Cascaded o p := by
  simp [cascade]

open Classical in
/-- The references to an object from outside the objects to be removed. -/
noncomputable def outside (s : HasOneStore) (o q : ProxyPtr) : Nat :=
  s.references (s.stored.filter fun p => !decide (s.Cascaded o p)) q

theorem references_stored (q : ProxyPtr) :
    s.references s.stored q = s.references (s.cascade o) q + s.outside o q :=
  references_filter _

theorem enclosed_iff : s.Enclosed o ↔ ∀ q, s.Cascaded o q → s.outside o q = 0 := by
  simp only [outside, references_eq_zero, mem_filter, Bool.not_eq_true', decide_eq_false_iff_not]
  constructor
  · rintro h q hq p ⟨hp, hout⟩ f hf htgt
    exact hout (h p hp f hf q htgt hq)
  · intro h p hp f hf q htgt hq
    by_contra hout
    exact h q hq p ⟨hp, hout⟩ f hf htgt

theorem Exact.whole (h : s.Exact o) : Whole s.graph (s.Cascaded o) := by
  intro p hp x hx hrem q hq
  obtain ⟨i, hi, rfl⟩ := mem_mapIdx.mp hx
  have hi' : i < (s.fields p).length := (length_map ..).symm ▸ hi
  have hmem : s.graph.members p = (s.fields p).map fun f =>
    .hasOne f.target f.removes (if f.isInserted then some ⟨none⟩ else none) := rfl
  simp only [hmem, getElem_map] at hrem hq
  have hsize : s.graph.size p i = some (s.fields p)[i].size := by
    show (s.fields p)[i]?.map HasOne.size = _
    rw [getElem?_eq_getElem hi']
    rfl
  show s.graph.reached p i q = _
  rw [ObjectGraph.reached, hsize]
  refine take_of_length_le ?_
  rw [ObjectGraph.items, length_mapIdx]
  exact (length_map ..).le.trans (h p hp _ (getElem_mem hi') hrem q hq)

theorem collected_iff (hw : Walk s.graph (s.Cascaded o) o [] d) (hs : s.Accurate)
    (ho : o ∈ s.stored) (hall : s.Exact o) (hu : s.Unshared o) :
    p ∈ d.collected ↔ s.Cascaded o p := by
  refine ⟨fun hp => (hw.cascaded p hp).1, fun hp => ?_⟩
  induction hp with
  | refl => exact hw.start
  | @tail p q hp hstep ih =>
    obtain ⟨f, hf, htgt, hrem⟩ := hstep
    by_contra hnot
    have hvis : (d.visitedObjects q).isSome := by
      rcases hw.ahead hall.whole p ih _ (mem_members.mpr ⟨f, hf, rfl⟩) q htgt with h | ⟨x, hx, -⟩
      · exact h
      · cases hx
    -- then it was met by a field that does not cascade, which is a second reference
    obtain ⟨p', hp', _, hm', htgt', hrem'⟩ := hw.passed q hvis hnot
    obtain ⟨f', hf', rfl⟩ := mem_members.mp hm'
    have hmem {u : ProxyPtr} (hu : u ∈ d.collected) : u ∈ s.cascade o :=
      mem_cascade.mpr ⟨hs.cascaded_stored ho (hw.cascaded u hu).1, (hw.cascaded u hu).1⟩
    have htwo : 2 ≤ s.references (s.cascade o) q :=
      two_le_references (hmem ih) (hmem hp') hf hf' htgt htgt' fun heq => by
        rw [heq] at hrem
        exact Bool.false_ne_true (hrem'.symm.trans hrem)
    have hone := hu q (hp.tail ⟨f, hf, htgt, hrem⟩)
    split at hone <;> omega

theorem removesCascade_of_unshared (hs : s.Accurate) (ho : o ∈ s.stored) (hd : d.Clean s.graph)
    (hall : s.Exact o) (hu : s.Unshared o) : RemovesCascade s d o := by
  obtain ⟨d', hw, hok, hstd⟩ := exists_remove hs ho hd
  have hcol (p : ProxyPtr) : p ∈ d'.collected ↔ s.Cascaded o p := collected_iff hw hs ho hall hu
  constructor
  · rw [hok, enclosed_iff]
    refine forall_congr' fun q => ?_
    rw [hcol]
    refine imp_congr_right fun hq => ?_
    rw [references_left hw hs ((hcol q).mpr hq)]
    simp only [mem_def, Option.some.injEq, forall_eq']
    rw [references_stored, hu q hq]
    split <;> omega
  · intro h p
    rw [hstd h, hcol]
    have := fun hp : s.Cascaded o p => hs.cascaded_stored ho hp
    tauto

theorem unshared_of_removesCascade (hs : s.Accurate) (ho : o ∈ s.stored) (hd : d.Clean s.graph)
    (henc : s.Enclosed o) (h : RemovesCascade s d o) : s.Unshared o := by
  obtain ⟨d', hw, hok, hstd⟩ := exists_remove hs ho hd
  have hsuc := h.succeeds.mpr henc
  intro q hq
  have hcol : q ∈ d'.collected := by
    by_contra hnot
    obtain ⟨hq', hgone⟩ := (h.removed hsuc q).mpr hq
    exact hgone ((hstd hsuc q).mpr ⟨hq', hnot⟩)
  have hleft := hok.mp hsuc q hcol _ (references_left hw hs hcol)
  have hspl := references_stored (s := s) (o := o) q
  have hout := enclosed_iff.mp henc q hq
  split at hleft
  · next hqo =>
    rw [if_pos hqo]
    omega
  · next hqo =>
    rw [if_neg hqo]
    omega

end Shared

/-- **When a removal does what it is for.** In a store with right counters, for objects of the
classes of the fields, and if all queued calls refer to fields that still exist: if no removed
object is shared, `remove` succeeds exactly if nothing else refers to the removed objects, and
removes all of them. If nothing else refers to them, this condition is necessary. -/
theorem removesCascade_iff (s : HasOneStore) (hs : s.Accurate) (o : ProxyPtr) (ho : o ∈ s.stored)
    (hall : s.Exact o) (d : Deleter) (hd : d.Clean s.graph) :
    (s.Unshared o → RemovesCascade s d o) ∧
    (s.Enclosed o → (RemovesCascade s d o ↔ s.Unshared o)) :=
  ⟨removesCascade_of_unshared hs ho hd hall, fun henc =>
    ⟨unshared_of_removesCascade hs ho hd henc, removesCascade_of_unshared hs ho hd hall⟩⟩

/-! ### Two objects -/

/-- Object 1 refers to object 2 with `n` fields that cascade. -/
def pair (n : Nat) : HasOneStore where
  fields p := if p = 1 then replicate n ⟨some 2, true, true, true, true, 0⟩ else []
  stored := [1, 2]
  id p := p
  count p := if p = 2 then n else 0
  seq := 2
  next := 3

variable {n : Nat}

theorem mem_fields_pair {p : ProxyPtr} (hf : f ∈ (pair n).fields p) :
    p = 1 ∧ f = ⟨some 2, true, true, true, true, 0⟩ := by
  have hf' : f ∈ if p = 1 then replicate n (⟨some 2, true, true, true, true, 0⟩ : HasOne) else [] :=
    hf
  split at hf'
  · next hp => exact ⟨hp, eq_of_mem_replicate hf'⟩
  · cases hf'

theorem references_pair (n : Nat) (q : ProxyPtr) :
    (pair n).references [1, 2] q = if q = 2 then n else 0 := by
  have hfst : (pair n).fields 1 = replicate n ⟨some 2, true, true, true, true, 0⟩ := rfl
  simp only [references, map_cons, hfst, countP_replicate, refersTo, Option.some.injEq,
    decide_eq_true_eq]
  exact if_congr eq_comm rfl rfl

theorem accurate_pair (n : Nat) : (pair n).Accurate where
  nodup := (by decide : [1, 2].Nodup)
  ids := (by decide : [1, 2].Pairwise (· < ·))
  seq := (by decide : ∀ p ∈ [1, 2], p ≤ 2)
  allocated := (by decide : ∀ p ∈ [1, 2], p < 3)
  inserted := fun _ _ _ hf => (mem_fields_pair hf).2 ▸ rfl
  pending := fun p hp f hf => absurd (mem_cons.mpr (.inl (mem_fields_pair hf).1)) hp
  listed := fun _ _ hf => (mem_fields_pair hf).2 ▸ rfl
  created := fun p hp => if_neg fun (heq : p = 1) => absurd (heq ▸ hp : 3 ≤ 1) (by decide)
  targets := fun _ f hf q hq => by
    rw [(mem_fields_pair hf).2] at hq
    cases hq
    exact (by decide : 2 < 3)
  closed := fun _ _ f hf q hq => by
    rw [(mem_fields_pair hf).2] at hq
    cases hq
    exact (by decide : 2 ∈ [1, 2])
  counts := fun q => by
    show (if q = 2 then (n : Int) else 0) = ((pair n).references [1, 2] q : Nat)
    rw [references_pair]
    split <;> rfl

theorem cascaded_pair (hn : 0 < n) (q : ProxyPtr) : (pair n).Cascaded 1 q ↔ q = 1 ∨ q = 2 := by
  constructor
  · intro hq
    induction hq with
    | refl => exact .inl rfl
    | tail _ hstep _ =>
      obtain ⟨f, hf, htgt, -⟩ := hstep
      rw [(mem_fields_pair hf).2] at htgt
      exact .inr (some.inj htgt).symm
  · rintro (rfl | rfl)
    · exact .refl
    · exact .single ⟨_, mem_replicate.mpr ⟨hn.ne', rfl⟩, rfl, rfl⟩

theorem exact_pair : (pair n).Exact 1 := by
  intro p _ f hf _ q hq
  rw [(mem_fields_pair hf).2] at hq ⊢
  cases hq
  exact Nat.le_refl 0

theorem enclosed_pair : (pair n).Enclosed 1 := by
  intro p _ f hf q _ _
  rw [(mem_fields_pair hf).1]
  exact .refl

theorem removesCascade_pair_one : RemovesCascade (pair 1) Deleter.empty 1 := by
  refine (removesCascade_iff (pair 1) (accurate_pair 1) 1 (by decide) exact_pair _
    (Deleter.clean_empty _)).1
    fun q hq => ?_
  have hcas : (pair 1).cascade 1 = [1, 2] := by
    refine filter_eq_self.mpr fun p hp => ?_
    simp only [decide_eq_true_eq, cascaded_pair Nat.one_pos]
    exact (mem_cons.mp hp).imp_right mem_singleton.mp
  rw [hcas, references_pair]
  rcases (cascaded_pair Nat.one_pos q).mp hq with rfl | rfl <;> rfl

/-- One reference is taken off for two fields: the objects cannot be removed, although nothing else
refers to them. -/
theorem pair_two_not_removed : (pair 2).Accurate ∧ (pair 2).Exact 1 ∧ (pair 2).Enclosed 1 ∧
      ((pair 2).remove Deleter.empty 1).2.2 = .throws "object is not removable" ∧
      ¬RemovesCascade (pair 2) Deleter.empty 1 := by
  have hthr : ((pair 2).remove Deleter.empty 1).2.2 = .throws "object is not removable" := by decide
  refine ⟨accurate_pair 2, exact_pair, enclosed_pair, hthr, fun h => ?_⟩
  have hsuc := h.succeeds.mpr enclosed_pair
  rw [hthr] at hsuc
  cases hsuc

end HasOneStore

end Matador.Object
