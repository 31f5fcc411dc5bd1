import Matador.Object.HasOneStore

/-!
# The reference counters

The counter of a proxy should be the number of has_one fields of stored objects that refer to it.
All calls keep it so (`Accurate`) as long as the fields of stored objects refer to stored objects
only, and no reference is moved out of a field.
-/

namespace Matador.Object

open Function List Lib Relation Option

namespace HasOneStore

/-! ## Counting fields -/

def tally (b : HasOne → Bool) (fields : ProxyPtr → List HasOne) (ps : List ProxyPtr) : Nat :=
  (ps.map fun p => (fields p).countP b).sum

variable {i : Nat} {f : HasOne}

section Tally

variable {b b' : HasOne → Bool} {fields fields' : ProxyPtr → List HasOne} {ps : List ProxyPtr}
  {p q : ProxyPtr}

theorem tally_cons : tally b fields (p :: ps) = (fields p).countP b + tally b fields ps := rfl

theorem tally_append (qs : List ProxyPtr) :
    tally b fields (ps ++ qs) = tally b fields ps + tally b fields qs := by
  simp [tally]

theorem tally_congr (h : ∀ p ∈ ps, (fields p).countP b = (fields' p).countP b') :
    tally b fields ps = tally b' fields' ps := by
  rw [tally, tally, map_congr_left h]

theorem tally_erase (hp : p ∈ ps) :
    (fields p).countP b + tally b fields (ps.erase p) = tally b fields ps := by
  have hperm := (perm_cons_erase hp).map fun p => (fields p).countP b
  rw [tally, tally, hperm.sum_eq]
  rfl

theorem tally_set (hps : ps.Nodup) (hp : p ∈ ps) (hf : (fields p)[i]? = some f) (f' : HasOne) :
    tally b (update fields p ((fields p).set i f')) ps + (if b f then 1 else 0) =
      tally b fields ps + if b f' then 1 else 0 := by
  obtain ⟨hi, hfi⟩ := List.getElem?_eq_some_iff.mp hf
  have hrest : tally b (update fields p ((fields p).set i f')) (ps.erase p) =
      tally b fields (ps.erase p) :=
    tally_congr fun r hr => by rw [update_of_ne (hps.mem_erase_iff.mp hr).1]
  have hpos : (if b f then 1 else 0) ≤ (fields p).countP b := by
    split
    · next hb =>
      exact countP_pos_iff.mpr ⟨f, mem_of_getElem? hf, hb⟩
    · exact Nat.zero_le _
  rw [← tally_erase hp, ← tally_erase hp, update_self, countP_set hi, hfi]
  omega

theorem getElem?_setField {r : ProxyPtr} {j : Nat} {g : HasOne}
    (hg : (update fields p ((fields p).set i f) r)[j]? = some g) :
    (r = p ∧ j = i) ∧ g = f ∨ ¬(r = p ∧ j = i) ∧ (fields r)[j]? = some g := by
  rw [update_apply] at hg
  split at hg
  · next hr =>
    subst hr
    rw [getElem?_set] at hg
    split at hg
    · next hij =>
      refine .inl ⟨⟨rfl, hij.symm⟩, ?_⟩
      split at hg
      · exact (some.inj hg).symm
      · cases hg
    · next hij => exact .inr ⟨fun heq => hij heq.2.symm, hg⟩
  · next hr => exact .inr ⟨fun heq => hr heq.1, hg⟩

theorem mem_setField {r : ProxyPtr} {g : HasOne} (hg : g ∈ update fields p ((fields p).set i f) r) :
    r = p ∧ g = f ∨ g ∈ fields r := by
  obtain ⟨j, hgj⟩ := getElem?_of_mem hg
  rcases getElem?_setField hgj with ⟨⟨hr, -⟩, hg⟩ | ⟨-, hg⟩
  · exact .inl ⟨hr, hg⟩
  · exact .inr (mem_of_getElem? hg)

theorem length_setField (r : ProxyPtr) (i : Nat) (f : HasOne) :
    (update fields p ((fields p).set i f) r).length = (fields r).length := by
  rw [update_apply]
  split
  · next hr => rw [length_set, hr]
  · rfl

theorem tally_update_of_not_mem (hp : p ∉ ps) (fs : List HasOne) :
    tally b (update fields p fs) ps = tally b fields ps :=
  tally_congr fun r hr => by rw [update_of_ne fun (heq : r = p) => hp (heq ▸ hr)]

end Tally

theorem references_eq_tally (s : HasOneStore) (ps : List ProxyPtr) (q : ProxyPtr) :
    s.references ps q = tally (refersTo q) s.fields ps := rfl

/-! ## Single counters -/

section Counted

variable {s : HasOneStore} {f : HasOne} {target : Option ProxyPtr} {n : Int}

theorem counted_eq : s.counted f target n =
    { s with count := fun u =>
        s.count u + if target = some u ∧ u ∈ s.stored ∧ f.isInserted then n else 0 } := by
  unfold counted
  split
  · simp
  · next q =>
    by_cases hq : q ∈ s.stored ∧ f.isInserted
    · rw [if_pos hq, addCount]
      congr 1
      funext u
      by_cases huq : u = q
      · subst huq
        rw [update_self, if_pos ⟨rfl, hq⟩]
      · rw [update_of_ne huq, if_neg fun h => huq (some.inj h.1).symm, add_zero]
    · have hnone (u : ProxyPtr) : ¬(some q = some u ∧ u ∈ s.stored ∧ f.isInserted) := by
        rintro ⟨htgt, hu⟩
        rw [← some.inj htgt] at hu
        exact hq hu
      simp only [if_neg hq, hnone, if_false, add_zero]

theorem foldl_counted {fs : List HasOne} (hfs : ∀ f ∈ fs, f.isInserted)
    (hstd : ∀ f ∈ fs, ∀ q ∈ f.target, q ∈ s.stored) :
    fs.foldl (fun s f => s.counted f f.target (-1)) s =
      { s with count := fun u => s.count u - (fs.countP (refersTo u) : Nat) } := by
  induction fs generalizing s with
  | nil => simp
  | cons f fs ih =>
    rw [foldl_cons, counted_eq]
    refine (ih (forall_mem_cons.mp hfs).2 ?_).trans ?_
    · exact (forall_mem_cons.mp hstd).2
    congr 1
    funext u
    have hu : (f.target = some u ∧ u ∈ s.stored ∧ f.isInserted) ↔ f.target = some u :=
      ⟨And.left, fun h => ⟨h, hstd f mem_cons_self u h, hfs f mem_cons_self⟩⟩
    simp only [hu, countP_cons, refersTo, decide_eq_true_eq]
    split <;> omega

end Counted

/-! ## Assigning -/

section Assign

variable {s : HasOneStore} {p : ProxyPtr} {i : Nat} {f : HasOne} {target : Option ProxyPtr}

theorem Accurate.update (hs : s.Accurate) (hf : (s.fields p)[i]? = some f) (f' : HasOne)
    (hind : f'.isInserted = f.isInserted) (hlis : f'.isListed)
    (hnext : ∀ q ∈ f'.target, q < s.next) (hcld : p ∈ s.stored → ∀ q ∈ f'.target, q ∈ s.stored)
    {count : ProxyPtr → Int}
    (hcou : ∀ q,
      count q = tally (refersTo q) (update s.fields p ((s.fields p).set i f')) s.stored) :
    Accurate { s with fields := update s.fields p ((s.fields p).set i f'), count := count } := by
  have hmem := mem_of_getElem? hf
  exact { hs with
    inserted := fun r hr g hg => by
      rcases mem_setField hg with ⟨rfl, rfl⟩ | hg
      · rw [hind]
        exact hs.inserted r hr f hmem
      · exact hs.inserted r hr g hg
    pending := fun r hr g hg => by
      rcases mem_setField hg with ⟨rfl, rfl⟩ | hg
      · rw [hind]
        exact hs.pending r hr f hmem
      · exact hs.pending r hr g hg
    listed := fun r g hg => by
      rcases mem_setField hg with ⟨rfl, rfl⟩ | hg
      · exact hlis
      · exact hs.listed r g hg
    created := fun r hr => by
      have hrp : r ≠ p := by
        rintro rfl
        rw [hs.created r hr] at hmem
        cases hmem
      show Function.update s.fields p _ r = []
      rw [update_of_ne hrp, hs.created r hr]
    targets := fun r g hg => by
      rcases mem_setField hg with ⟨rfl, rfl⟩ | hg
      · exact hnext
      · exact hs.targets r g hg
    closed := fun r hr g hg => by
      rcases mem_setField hg with ⟨rfl, rfl⟩ | hg
      · exact hcld hr
      · exact hs.closed r hr g hg
    counts := hcou }

theorem length_fields_reset (q : ProxyPtr) :
    ((s.reset p i target).fields q).length = (s.fields q).length := by
  unfold reset
  split
  · rfl
  · split
    · rfl
    · simp only [counted_eq, setField]
      exact length_setField ..

theorem accurate_reset (hs : s.Accurate) (hnext : ∀ q ∈ target, q < s.next)
    (hcld : p ∈ s.stored → ∀ q ∈ target, q ∈ s.stored) : (s.reset p i target).Accurate := by
  unfold reset
  split
  · exact hs
  · next f hf =>
    split
    · exact hs
    · rw [counted_eq, counted_eq]
      refine hs.update hf { f with target := target, isListed := true } rfl rfl hnext hcld fun q =>
        ?_
      dsimp only
      rw [hs.counts, references_eq_tally]
      by_cases hp : p ∈ s.stored
      · have hmem := mem_of_getElem? hf
        have hind := hs.inserted p hp f hmem
        have hset :=
          tally_set (b := refersTo q) hs.nodup hp hf { f with target := target, isListed := true }
        have hold : (f.target = some q ∧ q ∈ s.stored ∧ f.isInserted) ↔ f.target = some q :=
          ⟨And.left, fun h => ⟨h, hs.closed p hp f hmem q h, hind⟩⟩
        have hnew : (target = some q ∧ q ∈ s.stored ∧ f.isInserted) ↔ target = some q :=
          ⟨And.left, fun h => ⟨h, hcld hp q h, hind⟩⟩
        have hmin : (if f.target = some q then (-1 : Int) else 0) =
            -((if refersTo q f then 1 else 0 : Nat) : Int) := by
          simp only [refersTo, decide_eq_true_eq]
          split <;> rfl
        have hplus : (if target = some q then (1 : Int) else 0) =
            ((if refersTo q { f with target := target, isListed := true } then 1
              else 0 : Nat) : Int) := by
          simp only [refersTo, decide_eq_true_eq]
          split <;> rfl
        simp only [hold, hnew]
        omega
      · have hind := hs.pending p hp f (mem_of_getElem? hf)
        rw [tally_update_of_not_mem hp]
        simp [hind]

end Assign

/-! ## Deleting -/

section Delete

variable {s : HasOneStore} {p : ProxyPtr}

def forget (p : ProxyPtr) (f : HasOne) : HasOne :=
  if f.target = some p ∧ f.isListed then { f with target := none } else f

theorem deleteProxy_eq (hs : s.Accurate) (hp : p ∈ s.stored) : s.deleteProxy p = { s with
        fields := fun q => if q = p then [] else (s.fields q).map (forget p)
        stored := s.stored.erase p
        count := update (fun u => s.count u - ((s.fields p).countP (refersTo u) : Nat)) p 0 } := by
  rw [deleteProxy, foldl_counted (hs.inserted p hp) (hs.closed p hp)]
  rfl

theorem forget_isInserted (f : HasOne) : (forget p f).isInserted = f.isInserted := by
  unfold forget
  split <;> rfl

theorem forget_isListed (f : HasOne) : (forget p f).isListed = f.isListed := by
  unfold forget
  split <;> rfl

theorem forget_target (hf : f.isListed) {q : ProxyPtr} :
    (forget p f).target = some q ↔ f.target = some q ∧ q ≠ p := by
  unfold forget
  by_cases htgt : f.target = some p
  · rw [if_pos ⟨htgt, hf⟩, htgt]
    constructor
    · rintro ⟨⟩
    · rintro ⟨hq, hne⟩
      exact absurd (some.inj hq).symm hne
  · rw [if_neg fun h => htgt h.1]
    refine ⟨fun hq => ⟨hq, ?_⟩, And.left⟩
    rintro rfl
    exact htgt hq

theorem accurate_deleteProxy (hs : s.Accurate) (hp : p ∈ s.stored) :
    (s.deleteProxy p).Accurate := by
  rw [deleteProxy_eq hs hp]
  have hmem {q : ProxyPtr} : q ∈ s.stored.erase p ↔ q ≠ p ∧ q ∈ s.stored := hs.nodup.mem_erase_iff
  have hcas {r : ProxyPtr} {g : HasOne} (hg : g ∈ if r = p then []
    else (s.fields r).map (forget p)) : r ≠ p ∧ ∃ f ∈ s.fields r, g = forget p f := by
    split at hg
    · cases hg
    · next hr =>
      obtain ⟨f, hf, rfl⟩ := mem_map.mp hg
      exact ⟨hr, f, hf, rfl⟩
  exact {
    nodup := hs.nodup.erase p
    ids := hs.ids.sublist ((erase_sublist ..).map s.id)
    seq := fun q hq => hs.seq q (hmem.mp hq).2
    allocated := fun q hq => hs.allocated q (hmem.mp hq).2
    inserted := fun q hq g hg => by
      obtain ⟨-, f, hf, rfl⟩ := hcas hg
      rw [forget_isInserted]
      exact hs.inserted q (hmem.mp hq).2 f hf
    pending := fun q hq g hg => by
      obtain ⟨hqp, f, hf, rfl⟩ := hcas hg
      rw [forget_isInserted]
      exact hs.pending q (fun hq' => hq (hmem.mpr ⟨hqp, hq'⟩)) f hf
    listed := fun q g hg => by
      obtain ⟨-, f, hf, rfl⟩ := hcas hg
      rw [forget_isListed]
      exact hs.listed q f hf
    created := fun q hq => by
      dsimp only
      rw [hs.created q hq]
      split <;> rfl
    targets := fun q g hg u hu => by
      obtain ⟨-, f, hf, rfl⟩ := hcas hg
      exact hs.targets q f hf u ((forget_target (hs.listed q f hf)).mp hu).1
    closed := fun q hq g hg u hu => by
      obtain ⟨-, f, hf, rfl⟩ := hcas hg
      obtain ⟨hu, hup⟩ := (forget_target (hs.listed q f hf)).mp hu
      exact hmem.mpr ⟨hup, hs.closed q (hmem.mp hq).2 f hf u hu⟩
    counts := fun q => by
      -- the fields of the other objects that refer to `q`, unless `q` is deleted
      have hrest : tally (refersTo q) (fun r => if r = p then [] else (s.fields r).map (forget p))
          (s.stored.erase p) = if q = p then 0
          else tally (refersTo q) s.fields (s.stored.erase p) := by
        have hcou (r : ProxyPtr) (hr : r ∈ s.stored.erase p) :
            (if r = p then [] else (s.fields r).map (forget p)).countP (refersTo q) =
              (s.fields r).countP fun f => refersTo q f && decide (q ≠ p) := by
          rw [if_neg (hmem.mp hr).1, countP_map]
          refine countP_congr fun f hf => ?_
          simp only [comp, refersTo, forget_target (hs.listed r f hf), Bool.and_eq_true,
            decide_eq_true_eq]
        rw [tally_congr hcou]
        split
        · next hqp => simp [tally, hqp]
        · next hqp => exact tally_congr fun r _ => by simp [hqp]
      rw [references_eq_tally, hrest]
      dsimp only
      by_cases hqp : q = p
      · rw [hqp, update_self, if_pos rfl]
        rfl
      · have hera : (s.fields p).countP (refersTo q) +
            tally (refersTo q) s.fields (s.stored.erase p) =
              tally (refersTo q) s.fields s.stored := tally_erase hp
        rw [update_of_ne hqp, if_neg hqp, hs.counts, references_eq_tally]
        omega }

theorem accurate_runAll {xs : List (Nat × ProxyPtr)} (hs : s.Accurate) :
    (runAll (fun x => relationStore.removeSingle x.2) xs s).1.Accurate := by
  induction xs generalizing s with
  | nil => exact hs
  | cons x xs ih =>
    by_cases hx : x.2 ∈ s.stored
    · have hsgl : relationStore.removeSingle x.2 s = .ok (s.deleteProxy x.2) := if_pos hx
      rw [runAll, hsgl]
      exact ih (accurate_deleteProxy hs hx)
    · have hsgl : relationStore.removeSingle x.2 s = .undefined := if_neg hx
      rw [runAll, hsgl]
      exact hs

theorem runAll_callQueued_fst (rs : List RelationToRemove) :
    (runAll relationStore.callQueued rs s).1 = s := by
  induction rs with
  | nil => rfl
  | cons r rs ih =>
    by_cases hr : s.graph.HasField r
    · have hok : relationStore.callQueued r s = .ok s := if_pos hr
      rw [runAll, hok]
      exact ih
    · have hund : relationStore.callQueued r s = .undefined := if_neg hr
      rw [runAll, hund]

/-- `object_store::remove` in such a store. -/
abbrev remove (s : HasOneStore) (d : Deleter) (o : ProxyPtr) :
    HasOneStore × Deleter × Outcome Unit :=
  relationStore.remove s d o

theorem accurate_remove (hs : s.Accurate) (d : Deleter) : (s.remove d p).1.Accurate := by
  unfold remove RelationStore.remove
  split
  · split
    · next d' _ =>
      have hfst := runAll_callQueued_fst (s := s) d'.relationsToRemove
      have hrun :
          (runAll (fun x => relationStore.removeSingle x.2) d'.objectsToRemove s).1.Accurate :=
        accurate_runAll hs
      rw [RelationStore.removeCollected]
      split
      · next hcal =>
        rw [hcal] at hfst
        obtain rfl := hfst
        split <;> simp_all
      · next hcal =>
        rw [hcal] at hfst
        exact hfst ▸ hs
    all_goals exact hs
  · exact hs

end Delete

/-! ## Inserting -/

/-- `q` gets into the store when `p` is inserted: fields that cascade lead from `p` to it. -/
def Inserted (s : HasOneStore) (p q : ProxyPtr) : Prop :=
  ReflTransGen
    (fun a b => b ∉ s.stored ∧ ∃ f ∈ s.fields a, f.target = some b ∧ f.inserts = true) p q

/-- Every field of an object that gets into the store refers to a stored object, or cascades. -/
def InsertsAll (s : HasOneStore) (p : ProxyPtr) : Prop :=
  ∀ q, s.Inserted p q → ∀ f ∈ s.fields q, ∀ u ∈ f.target, u ∈ s.stored ∨ f.inserts = true

def countedFor (q : ProxyPtr) (f : HasOne) : Bool := f.isInserted && refersTo q f

theorem tally_visit {fields : ProxyPtr → List HasOne} {ps : List ProxyPtr} {p : ProxyPtr}
    (hps : ps.Nodup) (hp : p ∈ ps) (hf : (fields p)[i]? = some f) (hnot : f.isInserted = false)
    (u : ProxyPtr) :
    tally (countedFor u) (update fields p ((fields p).set i { f with isInserted := true })) ps =
      tally (countedFor u) fields ps + if f.target = some u then 1 else 0 := by
  have hset := tally_set (b := countedFor u) hps hp hf { f with isInserted := true }
  have hold : countedFor u f = false := by rw [countedFor, hnot]; rfl
  have hnew : countedFor u { f with isInserted := true } = decide (f.target = some u) := rfl
  rw [hold, hnew] at hset
  simpa using hset

/-- The fields while objects are inserted: those of `before`, but some have been visited. The
objects `ps` are counted, and the fields `todo` are still to be visited. -/
structure FieldWalk (before fields : ProxyPtr → List HasOne) (base count : ProxyPtr → Int)
    (ps : List ProxyPtr) (stored : ProxyPtr → Prop) (todo : ProxyPtr → Nat → Prop) : Prop where
  nodup : ps.Nodup
  lengths : ∀ q, (fields q).length = (before q).length
  same : ∀ (q : ProxyPtr) (i : Nat) (f : HasOne), (fields q)[i]? = some f →
    ∃ g : HasOne, (before q)[i]? = some g ∧ f = { g with isInserted := f.isInserted } ∧
      (g.isInserted = true → f.isInserted = true)
  pending : ∀ q, ¬stored q → ∀ f ∈ fields q, f.isInserted = false
  ahead : ∀ q, stored q → ∀ (i : Nat) (f : HasOne), (fields q)[i]? = some f →
    f.isInserted = false → todo q i
  owners : ∀ q i, todo q i → stored q
  closed : ∀ q ∈ ps, ∀ f ∈ fields q, f.isInserted = true → ∀ u ∈ f.target, stored u
  counts : ∀ q, count q = base q + (tally (countedFor q) fields ps : Nat)

namespace FieldWalk

variable {before fields : ProxyPtr → List HasOne} {base count : ProxyPtr → Int} {ps : List ProxyPtr}
  {stored stored' : ProxyPtr → Prop} {todo todo' : ProxyPtr → Nat → Prop} {p q : ProxyPtr}
  (h : FieldWalk before fields base count ps stored todo)
include h

theorem retarget (htodo : ∀ q j, todo q j → todo' q j ∨ ∀ f, (fields q)[j]? = some f → f.isInserted)
    (hown : ∀ q j, todo' q j → stored q) : FieldWalk before fields base count ps stored todo' :=
  { h with
    ahead := fun q hq j f hf hnot => by
      refine (htodo q j (h.ahead q hq j f hf hnot)).resolve_right fun hvis => ?_
      rw [hvis f hf] at hnot
      cases hnot
    owners := hown }

theorem link (hq : ¬stored q) (hps : q ∉ ps) (hstd : ∀ p, stored' p ↔ stored p ∨ p = q)
    (htodo : ∀ p j, todo' p j ↔ todo p j ∨ p = q ∧ j < (fields q).length) :
    FieldWalk before fields base count (ps ++ [q]) stored' todo' where
  nodup := nodup_append.mpr ⟨h.nodup, nodup_singleton q, fun a ha b hb hab =>
    hps (mem_singleton.mp hb ▸ hab ▸ ha)⟩
  lengths := h.lengths
  same := h.same
  pending r hr := h.pending r fun hr' => hr ((hstd r).mpr (.inl hr'))
  ahead r hr j f hf hnot := by
    rcases (hstd r).mp hr with hr | rfl
    · exact (htodo r j).mpr (.inl (h.ahead r hr j f hf hnot))
    · obtain ⟨hj, -⟩ := List.getElem?_eq_some_iff.mp hf
      exact (htodo r j).mpr (.inr ⟨rfl, hj⟩)
  owners r j hr := (hstd r).mpr (((htodo r j).mp hr).imp (h.owners r j) And.left)
  closed r hr f hf hins u hu := by
    rcases mem_append.mp hr with hr | hr
    · exact (hstd u).mpr (.inl (h.closed r hr f hf hins u hu))
    · rw [mem_singleton.mp hr] at hf
      rw [h.pending q hq f hf] at hins
      cases hins
  counts u := by
    have hzero : (fields q).countP (countedFor u) = 0 :=
      countP_eq_zero.mpr fun f hf => by simp [countedFor, h.pending q hq f hf]
    rw [tally_append, tally_cons, hzero, h.counts u]
    rfl

section Visit

variable (hp : p ∈ ps) (htodo : ∀ q j, todo q j ↔ todo' q j ∨ q = p ∧ j = i)
include htodo

theorem skip (hvis : ∀ f, (fields p)[i]? = some f → f.isInserted) :
    FieldWalk before fields base count ps stored todo' := by
  refine h.retarget (fun q j hq => ((htodo q j).mp hq).imp_right ?_) fun q j hq =>
    h.owners q j ((htodo q j).mpr (.inl hq))
  rintro ⟨rfl, rfl⟩
  exact hvis

variable (hf : (fields p)[i]? = some f) (hnot : f.isInserted = false)
include hp hf hnot

theorem mark (htgt : ∀ u ∈ f.target, stored u) {count' : ProxyPtr → Int}
    (hcou : ∀ u, count' u = count u + if f.target = some u then 1 else 0) :
    FieldWalk before (update fields p ((fields p).set i { f with isInserted := true })) base count'
      ps stored todo' where
  nodup := h.nodup
  lengths r := (length_setField ..).trans (h.lengths r)
  same r j g hg := by
    rcases getElem?_setField hg with ⟨⟨rfl, rfl⟩, rfl⟩ | ⟨-, hg⟩
    · obtain ⟨g, hg, hfg, -⟩ := h.same r j f hf
      exact ⟨g, hg, by rw [hfg], fun _ => rfl⟩
    · exact h.same r j g hg
  pending r hr g hg := by
    rcases mem_setField hg with ⟨rfl, -⟩ | hg
    · exact absurd (h.owners r i ((htodo r i).mpr (.inr ⟨rfl, rfl⟩))) hr
    · exact h.pending r hr g hg
  ahead r hr j g hg hnotg := by
    rcases getElem?_setField hg with ⟨-, rfl⟩ | ⟨hne, hg⟩
    · cases hnotg
    · exact ((htodo r j).mp (h.ahead r hr j g hg hnotg)).resolve_right hne
  owners r j hr := h.owners r j ((htodo r j).mpr (.inl hr))
  closed r hr g hg hins := by
    rcases mem_setField hg with ⟨-, rfl⟩ | hg
    · exact htgt
    · exact h.closed r hr g hg hins
  counts u := by
    rw [hcou, h.counts, tally_visit h.nodup hp hf hnot]
    split <;> simp [Int.add_assoc]

theorem visited (hq : f.target = some q) (hstd : stored q) :
    FieldWalk before (update fields p ((fields p).set i { f with isInserted := true })) base
      (update count q (count q + 1)) ps stored todo' := by
  refine h.mark hp htodo hf hnot (fun u hu => ?_) fun u => ?_
  · rw [hq] at hu
    exact some.inj hu ▸ hstd
  · rw [update_apply, hq]
    split
    · next hu => rw [hu, if_pos rfl]
    · next hu => rw [if_neg fun heq => hu (some.inj heq).symm, add_zero]

theorem visited_none (hnone : f.target = none) :
    FieldWalk before (update fields p ((fields p).set i { f with isInserted := true })) base count
      ps stored todo' := by
  refine h.mark hp htodo hf hnot (fun u hu => ?_) fun u => ?_
  · rw [hnone] at hu
    cases hu
  · rw [hnone, if_neg (by simp), add_zero]

end Visit

theorem inserted (htodo : ∀ p j, ¬todo p j) (hp : stored p) : ∀ f ∈ fields p, f.isInserted := by
  intro f hf
  obtain ⟨j, hj⟩ := getElem?_of_mem hf
  by_contra hnot
  exact htodo p j (h.ahead p hp j f hj (Bool.eq_false_of_not_eq_true hnot))

end FieldWalk

/-- The state while `p` is inserted into `s`: the fields in `work` are still to be visited. -/
structure Inserts (s : HasOneStore) (p : ProxyPtr) (work : List (ProxyPtr × Nat))
    (t : Inserting) : Prop where
  walk :
    FieldWalk s.fields t.store.fields (fun _ => 0) t.store.count t.store.stored (· ∈ t.store.stored)
    fun q i => (q, i) ∈ work
  ids : (t.store.stored.map t.store.id).Pairwise (· < ·)
  seq : ∀ q ∈ t.store.stored, t.store.id q ≤ t.store.seq
  next : t.store.next = s.next
  allocated : ∀ q ∈ t.store.stored, q < s.next
  kept : ∀ q ∈ s.stored, q ∈ t.store.stored
  new : ∀ q ∈ t.store.stored, q ∈ s.stored ∨ s.Inserted p q
  seen : ∀ q ∈ t.seen, q ∈ t.store.stored

section Insert

variable {s : HasOneStore} {p q : ProxyPtr} {t : Inserting} {work work' : List (ProxyPtr × Nat)}

theorem Inserts.mono (h : Inserts s p work t) (hwork : ∀ x ∈ work, x ∈ work')
    (hown : ∀ x ∈ work', x.1 ∈ t.store.stored) : Inserts s p work' t :=
  { h with walk := h.walk.retarget (fun _ _ hq => .inl (hwork _ hq)) fun _ _ hq => hown _ hq }

variable {x : ProxyPtr × Nat}

theorem mem_cons_iff_field {q : ProxyPtr} {j : Nat} :
    (q, j) ∈ x :: work ↔ (q, j) ∈ work ∨ q = x.1 ∧ j = x.2 := by
  rw [mem_cons, or_comm, Prod.ext_iff]

theorem Inserts.link (h : Inserts s p work t) (hq : q ∉ t.store.stored) (hnext : q < s.next)
    (hnew : s.Inserted p q) :
    Inserts s p (t.store.positions q ++ work) { t with store := t.store.link q } := by
  have hmem {r : ProxyPtr} : r ∈ t.store.stored ++ [q] ↔ r ∈ t.store.stored ∨ r = q := by simp
  have hid {r : ProxyPtr} (hr : r ∈ t.store.stored) :
      update t.store.id q (t.store.seq + 1) r = t.store.id r :=
    update_of_ne (fun (heq : r = q) => hq (heq ▸ hr)) ..
  exact {
    walk := h.walk.link hq hq (fun r => hmem) fun r j => by
      simp only [positions, mem_append, List.mem_map, List.mem_range, Prod.mk.injEq]
      constructor
      · rintro (⟨i, hi, rfl, rfl⟩ | hr)
        · exact .inr ⟨rfl, hi⟩
        · exact .inl hr
      · rintro (hr | ⟨rfl, hj⟩)
        · exact .inr hr
        · exact .inl ⟨j, hj, rfl, rfl⟩
    ids := by
      show ((t.store.stored ++ [q]).map (update t.store.id q (t.store.seq + 1))).Pairwise _
      rw [map_append, map_congr_left fun r hr => hid hr]
      refine pairwise_append.mpr ⟨h.ids, pairwise_singleton .., fun a ha b hb => ?_⟩
      obtain ⟨r, hr, rfl⟩ := mem_map.mp ha
      rw [map_singleton, mem_singleton] at hb
      rw [hb, update_self]
      exact Nat.lt_succ_of_le (h.seq r hr)
    seq := fun r hr => by
      show update t.store.id q (t.store.seq + 1) r ≤ t.store.seq + 1
      rcases hmem.mp hr with hr | rfl
      · rw [hid hr]
        exact Nat.le_succ_of_le (h.seq r hr)
      · rw [update_self]
    next := h.next
    allocated := fun r hr => by
      rcases hmem.mp hr with hr | rfl
      · exact h.allocated r hr
      · exact hnext
    kept := fun r hr => hmem.mpr (.inl (h.kept r hr))
    new := fun r hr => by
      rcases hmem.mp hr with hr | rfl
      · exact h.new r hr
      · exact .inr hnew
    seen := fun r hr => hmem.mpr (.inl (h.seen r hr)) }

theorem Inserts.see (h : Inserts s p work t) (hq : q ∈ t.store.stored) :
    Inserts s p work { t with seen := q :: t.seen } :=
  { h with
    seen := fun r hr => by
      rcases mem_cons.mp hr with rfl | hr
      · exact hq
      · exact h.seen r hr }

def unseen (s : HasOneStore) (t : Inserting) : Nat :=
  Worklist.unvisited (fun q => (s.fields q).length) (fun q => decide (q ∈ t.seen)) (range s.next)

theorem unseen_see (hq : q < s.next) (hnot : q ∉ t.seen) {store : HasOneStore} :
    (s.fields q).length + s.unseen ⟨store, q :: t.seen⟩ ≤ s.unseen t :=
  Worklist.unvisited_visit (fun q => (s.fields q).length) (mem_range.mpr hq) (decide_eq_false hnot)
    (decide_eq_true mem_cons_self) fun _ hu =>
      decide_eq_true (mem_cons_of_mem _ (of_decide_eq_true hu))

theorem Inserts.positions_eq (h : Inserts s p work t) :
    t.store.positions q = (range (s.fields q).length).map fun i => (q, i) := by
  rw [positions, h.walk.lengths]

/-- The field `f` of `x` has been visited, and the reference to `q` counted. -/
def visited (store : HasOneStore) (x : ProxyPtr × Nat) (f : HasOne) (q : ProxyPtr) : HasOneStore :=
  (store.setField x.1 x.2 { f with isInserted := true }).addCount q 1

theorem insertObject_eq (hf : (t.store.fields x.1)[x.2]? = some f)
    (hnot : f.isInserted = false) (hq : f.target = some q) :
    insertObject t x = if q ∈ t.seen then ({ t with store := t.store.visited x f q }, [])
      else if f.inserts then
        if q ∈ t.store.stored then
          (⟨t.store.visited x f q, q :: t.seen⟩, (t.store.visited x f q).positions q)
        else
          (⟨(t.store.visited x f q).link q, q :: t.seen⟩,
            ((t.store.visited x f q).link q).positions q)
      else (⟨t.store.visited x f q, q :: t.seen⟩, []) := by
  rw [insertObject, hf]
  dsimp only
  rw [if_neg (by rw [hnot]; decide)]
  split
  · next hnone =>
    rw [hq] at hnone
    cases hnone
  · next q' hq' =>
    obtain rfl : q' = q := some.inj (hq'.symm.trans hq)
    have hvis : (t.store.setField x.1 x.2 { f with isInserted := true }).addCount q' 1 =
        t.store.visited x f q' := rfl
    rw [hvis]
    by_cases hstd : q' ∈ t.store.stored
    · rw [if_pos hstd, if_pos (show q' ∈ (t.store.visited x f q').stored from hstd)]
    · rw [if_neg hstd, if_neg (show q' ∉ (t.store.visited x f q').stored from hstd)]

theorem Inserts.visited (h : Inserts s p (x :: work) t)
    (hf : (t.store.fields x.1)[x.2]? = some f) (hnot : f.isInserted = false)
    (hq : f.target = some q) (hstd : q ∈ t.store.stored) :
    Inserts s p work { t with store := t.store.visited x f q } :=
  { h with
    walk := h.walk.visited (h.walk.owners x.1 x.2 mem_cons_self) (fun _ _ => mem_cons_iff_field) hf
      hnot hq hstd }

theorem Inserts.target_cases (h : Inserts s p (x :: work) t)
    (hs : s.Accurate) (hall : s.InsertsAll p) (hf : (t.store.fields x.1)[x.2]? = some f)
    (hnot : f.isInserted = false) (hq : f.target = some q) :
    q < s.next ∧ (q ∈ s.stored ∨ f.inserts ∧ (q ∈ s.stored ∨ s.Inserted p q)) := by
  obtain ⟨g, hg, hfg, hkeep⟩ := h.walk.same x.1 x.2 f hf
  have hgmem := mem_of_getElem? hg
  have hgta : g.target = some q := by rw [← hq, hfg]
  have hgin : g.inserts = f.inserts := by rw [hfg]
  refine ⟨hs.targets x.1 g hgmem q hgta, ?_⟩
  rcases h.new x.1 (h.walk.owners x.1 x.2 mem_cons_self) with hold | hnew
  · rw [hkeep (hs.inserted x.1 hold g hgmem)] at hnot
    cases hnot
  · rcases hall x.1 hnew g hgmem q hgta with hstd | hins
    · exact .inl hstd
    · refine .inr ⟨hgin ▸ hins, ?_⟩
      by_cases hstd : q ∈ s.stored
      · exact .inl hstd
      · exact .inr (hnew.tail ⟨hstd, g, hgmem, hgta, hins⟩)

theorem Inserts.step (h : Inserts s p (x :: work) t) (hs : s.Accurate) (hall : s.InsertsAll p) :
    Inserts s p ((insertObject t x).2 ++ work) (insertObject t x).1 ∧
      (insertObject t x).2.length + s.unseen (insertObject t x).1 ≤ s.unseen t := by
  cases hf : (t.store.fields x.1)[x.2]? with
  | none =>
    have hvis : insertObject t x = (t, []) := by rw [insertObject, hf]
    rw [hvis]
    refine ⟨{ h with walk := h.walk.skip (fun _ _ => mem_cons_iff_field) fun f hf' => ?_ },
      Nat.le_of_eq (Nat.zero_add _)⟩
    rw [hf] at hf'
    cases hf'
  | some f =>
    cases hins : f.isInserted with
    | true =>
      have hvis : insertObject t x = (t, []) := by
        rw [insertObject, hf]
        simp only [hins, if_true]
      rw [hvis]
      refine ⟨{ h with walk := h.walk.skip (fun _ _ => mem_cons_iff_field) fun f' hf' => ?_ },
        Nat.le_of_eq (Nat.zero_add _)⟩
      rw [hf] at hf'
      rw [← some.inj hf', hins]
    | false =>
      cases htgt : f.target with
      | none =>
        have hvis : insertObject t x =
            ({ t with store := t.store.setField x.1 x.2 { f with isInserted := true } }, []) := by
          rw [insertObject, hf]
          simp only [hins, htgt, Bool.false_eq_true, if_false]
        rw [hvis]
        exact ⟨{ h with
          walk := h.walk.visited_none (h.walk.owners x.1 x.2 mem_cons_self)
            (fun _ _ => mem_cons_iff_field) hf hins htgt }, Nat.le_of_eq (Nat.zero_add _)⟩
      | some q =>
        obtain ⟨hnext, htar⟩ := h.target_cases hs hall hf hins htgt
        by_cases hseen : q ∈ t.seen
        · have hvis : insertObject t x = ({ t with store := t.store.visited x f q }, []) := by
            rw [insertObject_eq hf hins htgt, if_pos hseen]
          rw [hvis]
          exact ⟨h.visited hf hins htgt (h.seen q hseen), Nat.le_of_eq (Nat.zero_add _)⟩
        · have hpaid (store : HasOneStore) :
              (s.fields q).length + s.unseen ⟨store, q :: t.seen⟩ ≤ s.unseen t :=
            unseen_see hnext hseen
          cases hinse : f.inserts with
          | false =>
            have hstd : q ∈ t.store.stored := by
              rcases htar with hold | ⟨hins', -⟩
              · exact h.kept q hold
              · rw [hinse] at hins'
                cases hins'
            have hvis : insertObject t x = (⟨t.store.visited x f q, q :: t.seen⟩, []) := by
              rw [insertObject_eq hf hins htgt, if_neg hseen, hinse]
              rfl
            rw [hvis]
            refine ⟨(h.visited hf hins htgt hstd).see hstd, ?_⟩
            exact (Nat.add_le_add_right (Nat.zero_le _) _).trans (hpaid (t.store.visited x f q))
          | true =>
            by_cases hstd : q ∈ t.store.stored
            · have hvisi := (h.visited hf hins htgt hstd).see hstd
              have hvis : insertObject t x =
                  (⟨t.store.visited x f q, q :: t.seen⟩, (t.store.visited x f q).positions q) := by
                rw [insertObject_eq hf hins htgt, if_neg hseen, if_pos hinse, if_pos hstd]
              rw [hvis]
              refine ⟨hvisi.mono (fun y hy => mem_append_right _ hy) fun y hy => ?_, ?_⟩
              · rcases mem_append.mp hy with hy | hy
                · obtain ⟨i, -, rfl⟩ := mem_map.mp hy
                  exact hstd
                · exact hvisi.walk.owners y.1 y.2 hy
              · have hpos := hvisi.positions_eq (q := q)
                rw [hpos, length_map, length_range]
                exact hpaid _
            · have hnew : s.Inserted p q := by
                rcases htar with hold | ⟨-, hold | hnew⟩
                · exact absurd (h.kept q hold) hstd
                · exact absurd (h.kept q hold) hstd
                · exact hnew
              -- the new object is linked first: the order does not matter for the result
              have hlink := h.link hstd hnext hnew
              have hqs : q ∈ (t.store.link q).stored := mem_append_right _ (mem_singleton_self q)
              have hperm : (t.store.positions q ++ x :: work).Perm
                  (x :: (t.store.positions q ++ work)) := perm_middle
              have hlink' := hlink.mono (fun y hy => hperm.mem_iff.mp hy) fun y hy =>
                hlink.walk.owners y.1 y.2 (hperm.mem_iff.mpr hy)
              have hvisi := (hlink'.visited hf hins htgt hqs).see hqs
              have hvis : insertObject t x = (⟨(t.store.link q).visited x f q, q :: t.seen⟩,
                    ((t.store.link q).visited x f q).positions q) := by
                rw [insertObject_eq hf hins htgt, if_neg hseen, if_pos hinse, if_neg hstd]
                rfl
              have hpos := hvisi.positions_eq (q := q)
              have hpos' := h.positions_eq (q := q)
              rw [hvis]
              rw [hpos, ← hpos']
              refine ⟨hvisi, ?_⟩
              rw [hpos', length_map, length_range]
              exact hpaid _

theorem Inserts.start (hs : s.Accurate) (hp : p ∉ s.stored) (hnext : p < s.next) :
    Inserts s p (s.positions p) ⟨s.link p, []⟩ := by
  have hbef : Inserts s p [] ⟨s, []⟩ := {
    walk := {
      nodup := hs.nodup
      lengths := fun _ => rfl
      same := fun q i f hf => ⟨f, hf, rfl, fun h => h⟩
      pending := hs.pending
      ahead := fun q hq i f hf hnot => by
        rw [hs.inserted q hq f (mem_of_getElem? hf)] at hnot
        cases hnot
      owners := fun _ _ hx => by cases hx
      closed := fun q hq f hf _ => hs.closed q hq f hf
      counts := fun q => by
        rw [hs.counts, zero_add]
        refine congrArg Nat.cast (tally_congr fun r hr => countP_congr fun f hf => ?_)
        rw [countedFor, hs.inserted r hr f hf, Bool.true_and] }
    ids := hs.ids
    seq := hs.seq
    next := rfl
    allocated := hs.allocated
    kept := fun _ hq => hq
    new := fun _ hq => .inl hq
    seen := fun _ hq => by cases hq }
  have hlink := hbef.link hp hnext .refl
  rwa [append_nil] at hlink

theorem Inserts.accurate (h : Inserts s p [] t) (hs : s.Accurate) : t.store.Accurate := by
  have hind (q : ProxyPtr) (hq : q ∈ t.store.stored) : ∀ f ∈ t.store.fields q, f.isInserted :=
    h.walk.inserted (fun _ _ => not_mem_nil) hq
  have hold {q : ProxyPtr} {f : HasOne} (hf : f ∈ t.store.fields q) :
      ∃ g ∈ s.fields q, f = { g with isInserted := f.isInserted } := by
    obtain ⟨i, hi⟩ := getElem?_of_mem hf
    obtain ⟨g, hg, hfg, -⟩ := h.walk.same q i f hi
    exact ⟨g, mem_of_getElem? hg, hfg⟩
  exact {
    nodup := h.walk.nodup
    ids := h.ids
    seq := h.seq
    allocated := fun q hq => h.next ▸ h.allocated q hq
    inserted := hind
    pending := h.walk.pending
    listed := fun q f hf => by
      obtain ⟨g, hg, hfg⟩ := hold hf
      rw [hfg]
      exact hs.listed q g hg
    created := fun q hq => by
      rw [h.next] at hq
      have hlen := h.walk.lengths q
      rw [hs.created q hq] at hlen
      exact eq_nil_of_length_eq_zero hlen
    targets := fun q f hf u hu => by
      obtain ⟨g, hg, hfg⟩ := hold hf
      rw [hfg] at hu
      exact h.next ▸ hs.targets q g hg u hu
    closed := fun q hq f hf => h.walk.closed q hq f hf (hind q hq f hf)
    counts := fun q => by
      rw [h.walk.counts, zero_add]
      refine congrArg Nat.cast (tally_congr fun r hr => countP_congr fun f hf => ?_)
      rw [countedFor, hind r hr f hf, Bool.true_and] }

/-- **Inserting an object** with all it cascades to. No object gets or loses a field. -/
theorem accurate_insert (hs : s.Accurate) (hnext : p < s.next) (hall : s.InsertsAll p) :
    ∃ t, s.insert p = some t ∧ t.Accurate ∧ ∀ q, (t.fields q).length = (s.fields q).length := by
  unfold insert
  split
  · exact ⟨s, rfl, hs, fun _ => rfl⟩
  · next hp =>
    obtain ⟨t, hrun, ht⟩ := Worklist.exists_run (Inserts s p) s.unseen
      (fun _ _ _ h => h.step hs hall) (n := (s.fields p).length + s.fuel)
        (Inserts.start hs hp hnext)
      (by simp [positions, unseen, fuel, Worklist.unvisited])
    exact ⟨t.store, by rw [hrun]; rfl, ht.accurate hs, ht.walk.lengths⟩

theorem insertsAll_of_subset (ps : List ProxyPtr) (hp : p ∈ ps)
    (hps : ∀ q ∈ ps, ∀ f ∈ s.fields q, ∀ u ∈ f.target, u ∈ s.stored ∨ f.inserts ∧ u ∈ ps) :
    s.InsertsAll p := by
  have hmem {q : ProxyPtr} (hq : s.Inserted p q) : q ∈ ps := by
    induction hq with
    | refl => exact hp
    | tail _ hstep ih =>
      obtain ⟨hnew, f, hf, htgt, -⟩ := hstep
      exact ((hps _ ih f hf _ htgt).resolve_left hnew).2
  exact fun q hq f hf u hu => (hps q (hmem hq) f hf u hu).imp_right And.left

end Insert

theorem accurate_create {s : HasOneStore} (hs : s.Accurate) (types : List HasOneType) :
    (s.create types).Accurate := by
  have hnew : s.next ∉ s.stored := fun hmem => Nat.lt_irrefl _ (hs.allocated _ hmem)
  have hne {p : ProxyPtr} (hp : p ∈ s.stored) : p ≠ s.next := fun heq => hnew (heq ▸ hp)
  have hfie {p : ProxyPtr} (hp : p ∈ s.stored) : (s.create types).fields p = s.fields p :=
    update_of_ne (hne hp) ..
  have hid {p : ProxyPtr} (hp : p ∈ s.stored) : (s.create types).id p = s.id p :=
    update_of_ne (hne hp) ..
  have hcas {p : ProxyPtr} {f : HasOne} (hf : f ∈ (s.create types).fields p) :
      f.target = none ∧ f.isInserted = false ∧ f.isListed ∨ f ∈ s.fields p := by
    have hf' : f ∈ update s.fields s.next
        (types.map fun c => ⟨none, false, true, c.inserts, c.removes, c.size⟩) p := hf
    rw [update_apply] at hf'
    split at hf'
    · obtain ⟨c, -, rfl⟩ := mem_map.mp hf'
      exact .inl ⟨rfl, rfl, rfl⟩
    · exact .inr hf'
  exact { hs with
    ids := by
      have hmap : s.stored.map (s.create types).id = s.stored.map s.id :=
        map_congr_left fun p hp => hid hp
      exact hmap ▸ hs.ids
    seq := fun p hp => (hid hp).le.trans (hs.seq p hp)
    allocated := fun p hp => Nat.lt_succ_of_lt (hs.allocated p hp)
    inserted := fun p hp f hf => hs.inserted p hp f (hfie hp ▸ hf)
    pending := fun p hp f hf => by
      rcases hcas hf with ⟨-, hf, -⟩ | hf
      · exact hf
      · exact hs.pending p hp f hf
    listed := fun p f hf => by
      rcases hcas hf with ⟨-, -, hf⟩ | hf
      · exact hf
      · exact hs.listed p f hf
    created := fun p hp => by
      have hlt : s.next < p := hp
      show update s.fields s.next _ p = []
      rw [update_of_ne hlt.ne', hs.created p hlt.le]
    targets := fun p f hf q hq => by
      rcases hcas hf with ⟨hf, -, -⟩ | hf
      · rw [hf] at hq
        cases hq
      · exact Nat.lt_succ_of_lt (hs.targets p f hf q hq)
    closed := fun p hp f hf => hs.closed p hp f (hfie hp ▸ hf)
    counts := fun q => by
      have href : (s.create types).references (s.create types).stored q =
          s.references s.stored q := tally_congr fun p hp => by rw [hfie hp]
      rw [href]
      show update s.count s.next 0 q = _
      rw [update_apply]
      split
      · next hq =>
        have hzero : tally (refersTo q) s.fields s.stored = 0 := by
          refine sum_eq_zero fun n hn => ?_
          obtain ⟨p, -, rfl⟩ := mem_map.mp hn
          refine countP_eq_zero.mpr fun f hf htgt => ?_
          exact Nat.lt_irrefl _ (hq ▸ hs.targets p f hf q (of_decide_eq_true htgt))
        rw [references_eq_tally, hzero]
        rfl
      · exact hs.counts q }

theorem accurate_empty : empty.Accurate where
  nodup := .nil
  ids := .nil
  seq := fun _ hp => by cases hp
  allocated := fun _ hp => by cases hp
  inserted := fun _ hp => by cases hp
  pending := fun _ _ _ hf => by cases hf
  listed := fun _ _ hf => by cases hf
  created := fun _ _ => rfl
  targets := fun _ _ hf => by cases hf
  closed := fun _ hp => by cases hp
  counts := fun _ => rfl

end HasOneStore

end Matador.Object
