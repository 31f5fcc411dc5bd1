import Mathlib

/-!
# Doubly linked lists over a heap of cells

`Links` holds the pointers of every cell to the previous and the next one. `Linked k l` says that
the cells of `l` follow each other in `k` in both directions; a list between two sentinels has these
as its first and last cell.
-/

namespace Matador.Lib

open Function List Option

variable {α : Type*}

structure Links (α : Type*) where
  prev : α → α
  next : α → α

/-- The cells of `l` follow each other in both directions. -/
def Linked (k : Links α) (l : List α) : Prop :=
  l.IsChain fun a b => k.next a = b ∧ k.prev b = a

variable {k : Links α} {a b : α} {l : List α}

theorem linked_cons_cons : Linked k (a :: b :: l) ↔
    (k.next a = b ∧ k.prev b = a) ∧ Linked k (b :: l) :=
  isChain_cons_cons

theorem linked_singleton (k : Links α) (a : α) : Linked k [a] := isChain_singleton a

variable {l₁ l₂ : List α}

theorem linked_append_cons_cons : Linked k (l₁ ++ a :: b :: l₂) ↔
      Linked k (l₁ ++ [a]) ∧ (k.next a = b ∧ k.prev b = a) ∧ Linked k (b :: l₂) :=
  isChain_append_cons_cons

theorem Linked.congr {k' : Links α} (h : Linked k l)
    (hnext : ∀ a ∈ l.dropLast, k'.next a = k.next a) (hprev : ∀ a ∈ l.tail, k'.prev a = k.prev a) :
    Linked k' l := by
  induction l with
  | nil => exact isChain_nil
  | cons a l ih =>
    cases l with
    | nil => exact linked_singleton k' a
    | cons b l =>
      rw [linked_cons_cons] at h ⊢
      obtain ⟨⟨hn, hp⟩, h⟩ := h
      refine ⟨⟨?_, ?_⟩, ih h ?_ ?_⟩
      · rw [hnext a (by simp), hn]
      · rw [hprev b (by simp), hp]
      · exact fun c hc => hnext c (by simp [hc])
      · exact fun c hc => hprev c (by exact mem_cons_of_mem b hc)

variable {p : α}

theorem Linked.neighbours (h : Linked k (l₁ ++ a :: p :: b :: l₂)) :
    k.next a = p ∧ k.prev p = a ∧ k.next p = b ∧ k.prev b = p := by
  obtain ⟨-, ⟨h₁, h₂⟩, h⟩ := linked_append_cons_cons.mp h
  obtain ⟨⟨h₃, h₄⟩, -⟩ := linked_cons_cons.mp h
  exact ⟨h₁, h₂, h₃, h₄⟩

variable {x : α}

theorem Linked.prev_mem (h : Linked k (l₁ ++ x :: l₂)) (hne : l₁ ≠ []) :
    ∃ l a, l₁ = l ++ [a] ∧ k.prev x = a := by
  obtain ⟨l, a, rfl⟩ := eq_nil_or_concat l₁ |>.resolve_left hne
  rw [concat_eq_append, append_assoc] at h
  exact ⟨l, a, by simp, (linked_append_cons_cons.mp h).2.1.2⟩

theorem Linked.next_mem (h : Linked k (l₁ ++ x :: l₂)) (hne : l₂ ≠ []) :
    ∃ b l, l₂ = b :: l ∧ k.next x = b := by
  obtain ⟨b, l, rfl⟩ := exists_cons_of_ne_nil hne
  exact ⟨b, l, rfl, (linked_append_cons_cons.mp h).2.1.1⟩

theorem Linked.part (l₁ l₂ : List α) (h : Linked k (l₁ ++ l ++ l₂)) : Linked k l :=
  (List.IsChain.left_of_append h).right_of_append

theorem Linked.borders {w : List α} (h : Linked k (l₁ ++ a :: (w ++ b :: l₂))) :
    k.next a = w.headD b ∧ k.prev b = w.getLastD a := by
  constructor
  · obtain ⟨c, l, hcl, hc⟩ := h.next_mem (by simp)
    rw [hc]
    cases w with
    | nil => exact (cons.inj hcl).1.symm
    | cons x w => exact (cons.inj hcl).1.symm
  · rw [← cons_append, ← append_assoc] at h
    obtain ⟨l, c, hlc, hc⟩ := h.prev_mem (by simp)
    rw [hc]
    rcases eq_nil_or_concat w with rfl | ⟨w, x, rfl⟩
    · have hlast := congrArg getLast? hlc
      simpa using hlast.symm
    · have hlast := congrArg getLast? hlc
      rw [concat_eq_append, getLastD_concat]
      rw [concat_eq_append, ← cons_append, ← append_assoc, getLast?_concat, getLast?_concat]
        at hlast
      exact (some.inj hlast).symm

theorem Linked.splice {k' : Links α} (w w' : List α) (h : Linked k (l₁ ++ a :: (w ++ b :: l₂)))
    (hnext : ∀ c ∈ l₁ ++ b :: l₂, k'.next c = k.next c)
    (hprev : ∀ c ∈ l₁ ++ a :: l₂, k'.prev c = k.prev c) (hw : Linked k' (a :: w' ++ [b])) :
    Linked k' (l₁ ++ a :: (w' ++ b :: l₂)) := by
  obtain ⟨hleft, hrest⟩ := isChain_split.mp h
  have hrgt : Linked k (b :: l₂) := (@isChain_split _ _ b (a :: w) l₂ |>.mp hrest).2
  have hleft' : Linked k' (l₁ ++ [a]) := by
    refine Linked.congr hleft (fun c hc => hnext c ?_) fun c hc => hprev c ?_
    · exact mem_append_left _ (by rwa [dropLast_concat] at hc)
    · exact (cons_sublist_cons.mpr (nil_sublist l₂)).append_left l₁ |>.subset (mem_of_mem_tail hc)
  have hrgt' : Linked k' (b :: l₂) :=
    hrgt.congr (fun c hc => hnext c (mem_append_right _ (dropLast_subset _ hc)))
      fun c hc => hprev c (mem_append_right _ (mem_cons_of_mem _ hc))
  exact isChain_split.mpr ⟨hleft', @isChain_split _ _ b (a :: w') l₂ |>.mpr ⟨hw, hrgt'⟩⟩

/-! ## Updates -/

section Updates

variable [DecidableEq α]

def Links.insertBefore (null : α) (k : Links α) (p x : α) : Links α :=
  let k₁ : Links α := ⟨update k.prev p (k.prev x), update k.next p x⟩
  let k₂ : Links α := if k₁.prev x ≠ null then ⟨k₁.prev, update k₁.next (k₁.prev x) p⟩ else k₁
  ⟨update k₂.prev x p, k₂.next⟩

def Links.unlink (null : α) (k : Links α) (p : α) : Links α :=
  let k₁ : Links α := if k.prev p ≠ null then ⟨k.prev, update k.next (k.prev p) (k.next p)⟩ else k
  let k₂ : Links α :=
    if k₁.next p ≠ null then ⟨update k₁.prev (k₁.next p) (k₁.prev p), k₁.next⟩ else k₁
  ⟨update k₂.prev p null, update k₂.next p null⟩

theorem insertBefore_prev (null : α) (k : Links α) (p x : α) :
    (k.insertBefore null p x).prev = update (update k.prev p (k.prev x)) x p := by
  unfold Links.insertBefore
  dsimp only
  split <;> rfl

theorem insertBefore_next (null : α) (k : Links α) (h : p ≠ x) : (k.insertBefore null p x).next =
      if k.prev x ≠ null then update (update k.next p x) (k.prev x) p
      else update k.next p x := by
  unfold Links.insertBefore
  simp only [update_of_ne (Ne.symm h)]
  split <;> rfl

variable {null : α}

theorem insertBefore_frame (hpx : p ≠ x) (hp : a ≠ p) :
    (a ≠ x → (k.insertBefore null p x).prev a = k.prev a) ∧
      (a ≠ k.prev x → (k.insertBefore null p x).next a = k.next a) := by
  constructor
  · intro hax
    rw [insertBefore_prev, update_of_ne hax, update_of_ne hp]
  · intro hax
    rw [insertBefore_next null k hpx]
    split
    · rw [update_of_ne hax, update_of_ne hp]
    · rw [update_of_ne hp]

theorem insertBefore_self (hpx : p ≠ x) (hxa : k.prev x = a) (ha : a ≠ null) (hap : a ≠ p) :
    (k.insertBefore null p x).next a = p ∧ (k.insertBefore null p x).prev p = a ∧
      (k.insertBefore null p x).next p = x ∧ (k.insertBefore null p x).prev x = p := by
  rw [insertBefore_prev, insertBefore_next null k hpx, hxa, if_pos ha]
  refine ⟨update_self .., ?_, ?_, update_self ..⟩
  · rw [update_of_ne hpx, update_self]
  · rw [update_of_ne (Ne.symm hap), update_self]

theorem unlink_prev_next (ha : k.prev p = a) (hb : k.next p = b) (ha₀ : a ≠ null) (hb₀ : b ≠ null)
    (hap : p ≠ a) : (k.unlink null p).prev = update (update k.prev b a) p null ∧
      (k.unlink null p).next = update (update k.next a b) p null := by
  unfold Links.unlink
  simp only [ha, hb, ne_eq, ha₀, not_false_eq_true, if_true, update_of_ne hap, hb₀, and_self]

/-- **Putting a cell between two neighbours.** -/
theorem linked_insertBefore (h : Linked k (l₁ ++ a :: x :: l₂)) (hnd : (l₁ ++ a :: x :: l₂).Nodup)
    (hp : p ∉ l₁ ++ a :: x :: l₂) (ha : a ≠ null) :
    Linked (k.insertBefore null p x) (l₁ ++ a :: p :: x :: l₂) := by
  have hxa := (linked_append_cons_cons.mp h).2.1.2
  have ha' := (nodup_middle.mp hnd).notMem
  have hpx : p ≠ x := fun e => hp (by simp [e])
  have hfrm {c : α} (hc : c ∈ l₁ ++ a :: x :: l₂) :=
    @insertBefore_frame _ k c p x _ null hpx (ne_of_mem_of_not_mem hc hp)
  obtain ⟨h₁, h₂, h₃, h₄⟩ := insertBefore_self hpx hxa ha fun e => hp (by simp [e])
  refine Linked.splice [] [p] h (fun c hc => ?_) (fun c hc => ?_) ?_
  · exact (hfrm (by grind)).2 (by rw [hxa]; exact ne_of_mem_of_not_mem hc ha')
  · exact (hfrm (by grind)).1 (by grind)
  · exact linked_cons_cons.mpr ⟨⟨h₁, h₂⟩, linked_cons_cons.mpr ⟨⟨h₃, h₄⟩, linked_singleton _ x⟩⟩

/-- **Taking a cell out from between its neighbours.** -/
theorem linked_unlink (h : Linked k (l₁ ++ a :: p :: b :: l₂))
    (hnd : (l₁ ++ a :: p :: b :: l₂).Nodup) (ha : a ≠ null) (hb : b ≠ null) :
    Linked (k.unlink null p) (l₁ ++ a :: b :: l₂) := by
  obtain ⟨-, hpa, hpb, -⟩ := h.neighbours
  obtain ⟨hprev, hnext⟩ := unlink_prev_next hpa hpb ha hb (by grind)
  refine Linked.splice [p] [] h (fun c hc => ?_) (fun c hc => ?_) ?_
  · rw [hnext, update_of_ne (by grind), update_of_ne (by grind)]
  · rw [hprev, update_of_ne (by grind), update_of_ne (by grind)]
  · refine linked_cons_cons.mpr ⟨⟨?_, ?_⟩, linked_singleton _ b⟩
    · rw [hnext, update_of_ne (by grind), update_self]
    · rw [hprev, update_of_ne (by grind), update_self]

theorem Linked.insertBefore (null : α) (h : Linked k (l₁ ++ x :: l₂)) (hne : l₁ ≠ [])
    (hnd : (l₁ ++ x :: l₂).Nodup) (hp : p ∉ l₁ ++ x :: l₂) (hnull : null ∉ l₁) :
    Linked (k.insertBefore null p x) (l₁ ++ p :: x :: l₂) ∧ ∀ l, Linked k l → p ∉ l →
    (∀ c ∈ l, c ∉ l₁ ++ x :: l₂) → Linked (k.insertBefore null p x) l := by
  obtain ⟨l, a, rfl, ha⟩ := h.prev_mem hne
  have hpx : p ≠ x := fun e => hp (by simp [e])
  constructor
  · rw [append_assoc] at h hnd hp ⊢
    exact linked_insertBefore h hnd hp fun e => hnull (by simp [e])
  · intro m hm hpm hdisj
    have hxm : x ∉ m := fun hx => hdisj x hx (by simp)
    have ham : k.prev x ∉ m := fun hx => hdisj _ hx (by simp [ha])
    refine hm.congr (fun c hc => ?_) (fun c hc => ?_)
    · replace hc := dropLast_subset _ hc
      exact (insertBefore_frame hpx (ne_of_mem_of_not_mem hc hpm)).2 (ne_of_mem_of_not_mem hc ham)
    · replace hc := mem_of_mem_tail hc
      exact (insertBefore_frame hpx (ne_of_mem_of_not_mem hc hpm)).1 (ne_of_mem_of_not_mem hc hxm)

theorem Linked.unlink (null : α)
    (h : Linked k (l₁ ++ p :: l₂)) (hne₁ : l₁ ≠ []) (hne₂ : l₂ ≠ []) (hnd : (l₁ ++ p :: l₂).Nodup)
    (hnull : null ∉ l₁ ++ p :: l₂) :
    Linked (k.unlink null p) (l₁ ++ l₂) ∧
      ∀ l, Linked k l → (∀ c ∈ l, c ∉ l₁ ++ p :: l₂) → Linked (k.unlink null p) l := by
  obtain ⟨l, a, rfl, ha⟩ := h.prev_mem hne₁
  obtain ⟨b, r, rfl, hb⟩ := h.next_mem hne₂
  have ha₀ : a ≠ null := fun e => hnull (by simp [e])
  have hb₀ : b ≠ null := fun e => hnull (by simp [e])
  have hpa : p ≠ a := by
    rintro rfl
    rw [append_assoc] at hnd
    simpa using (nodup_append.mp hnd).2.1
  constructor
  · rw [append_assoc] at h hnd ⊢
    exact linked_unlink h hnd ha₀ hb₀
  · intro m hm hdisj
    obtain ⟨hprev, hnext⟩ := unlink_prev_next ha hb ha₀ hb₀ hpa
    have hpm : p ∉ m := fun hx => hdisj p hx (by simp)
    have ham : a ∉ m := fun hx => hdisj a hx (by simp)
    have hbm : b ∉ m := fun hx => hdisj b hx (by simp)
    refine hm.congr (fun c hc => ?_) (fun c hc => ?_)
    · replace hc := dropLast_subset _ hc
      rw [hnext, update_of_ne (ne_of_mem_of_not_mem hc hpm),
        update_of_ne (ne_of_mem_of_not_mem hc ham)]
    · replace hc := mem_of_mem_tail hc
      rw [hprev, update_of_ne (ne_of_mem_of_not_mem hc hpm),
        update_of_ne (ne_of_mem_of_not_mem hc hbm)]

/-- Take out the cells between `a` and `b` one after the other, for at most `fuel` cells; the
cells taken out are listed. -/
def Links.unlinkBetween (null a b : α) : Nat → Links α → Links α × List α
  | 0, k => (k, [])
  | fuel + 1, k =>
    if k.next a = b then (k, [])
    else
      let r := Links.unlinkBetween null a b fuel (k.unlink null (k.next a))
      (r.1, k.next a :: r.2)

theorem Linked.unlinkBetween (null : α) {u : List α}
    (h : Linked k (l₁ ++ a :: (u ++ b :: l₂))) (hnd : (l₁ ++ a :: (u ++ b :: l₂)).Nodup)
    (hnull : null ∉ l₁ ++ a :: (u ++ b :: l₂)) {fuel : Nat} (hfuel : u.length ≤ fuel) :
    (k.unlinkBetween null a b fuel).2 = u ∧
    Linked (k.unlinkBetween null a b fuel).1 (l₁ ++ a :: b :: l₂) ∧
      ∀ l, Linked k l → (∀ c ∈ l, c ∉ l₁ ++ a :: (u ++ b :: l₂)) →
      Linked (k.unlinkBetween null a b fuel).1 l := by
  induction u generalizing k fuel with
  | nil =>
    have hab : k.next a = b := h.borders.1
    cases fuel with
    | zero => exact ⟨rfl, h, fun l hl _ => hl⟩
    | succ fuel =>
      rw [Links.unlinkBetween, if_pos hab]
      exact ⟨rfl, h, fun l hl _ => hl⟩
  | cons x u ih =>
    obtain ⟨fuel, rfl⟩ : ∃ m, fuel = m + 1 := ⟨fuel - 1, by simp at hfuel; omega⟩
    have hax : k.next a = x := h.borders.1
    have hxb : x ≠ b := by
      rintro rfl
      have hnd' := (nodup_cons.mp (nodup_append.mp hnd).2.1).2
      exact (nodup_cons.mp hnd').1 (by simp)
    have hspl : l₁ ++ a :: (x :: u ++ b :: l₂) = (l₁ ++ [a]) ++ x :: (u ++ b :: l₂) := by simp
    rw [hspl] at h hnd hnull
    obtain ⟨hlkd, hfrm⟩ := h.unlink null (by simp) (by simp) hnd hnull
    rw [append_assoc] at hlkd
    have hsub : (l₁ ++ a :: (u ++ b :: l₂)).Sublist ((l₁ ++ [a]) ++ x :: (u ++ b :: l₂)) := by
      rw [append_assoc]
      exact ((sublist_cons_self x _).cons_cons a).append_left l₁
    obtain ⟨hu, hl, hrest⟩ :=
      ih hlkd (hnd.sublist hsub) (fun hc => hnull (hsub.subset hc)) (by simpa using hfuel)
    rw [Links.unlinkBetween, if_neg (by rw [hax]; exact hxb), hax]
    refine ⟨congrArg (x :: ·) hu, hl, fun l hl' hdisj => hrest l (hfrm l hl' ?_) ?_⟩
    · intro c hc
      rw [← hspl]
      exact hdisj c hc
    · intro c hc hmem
      refine hdisj c hc ?_
      rw [hspl]
      exact hsub.subset hmem

end Updates

/-! ## Walking -/

section Walk

variable [DecidableEq α]

/-- The cells strictly between `a` and `b`, following `next` for at most `fuel` steps. -/
def walk (next : α → α) : Nat → α → α → Option (List α)
  | 0, _, _ => none
  | n + 1, a, b => if next a = b then some [] else (walk next n (next a) b).map (next a :: ·)

theorem walk_of_linked (h : Linked k (a :: l ++ [b]))
    (hb : b ∉ l) {n : Nat} (hn : l.length < n) : walk k.next n a b = some l := by
  induction l generalizing a n with
  | nil =>
    obtain ⟨n, rfl⟩ : ∃ m, n = m + 1 := ⟨n - 1, by omega⟩
    have hab := (linked_cons_cons.mp h).1.1
    rw [walk, if_pos hab]
  | cons c l ih =>
    obtain ⟨n, rfl⟩ : ∃ m, n = m + 1 := ⟨n - 1, by omega⟩
    obtain ⟨⟨hac, -⟩, h⟩ := linked_cons_cons.mp h
    simp only [mem_cons, not_or] at hb
    simp only [length_cons] at hn
    rw [walk, hac, if_neg (Ne.symm hb.1), ih h hb.2 (by omega), map_some]

theorem walk_mono {next : α → α} {n m : Nat}
    (h : walk next n a b = some l) (hnm : n ≤ m) : walk next m a b = some l := by
  induction n generalizing m a l with
  | zero => simp [walk] at h
  | succ n ih =>
    obtain ⟨m, rfl⟩ : ∃ j, m = j + 1 := ⟨m - 1, by omega⟩
    rw [walk] at h ⊢
    split at h
    · next hab => rw [if_pos hab, h]
    · next hab =>
      obtain ⟨l', hl', rfl⟩ := map_eq_some_iff.mp h
      rw [if_neg hab, ih hl' (by omega), map_some]

end Walk

end Matador.Lib
