import Mathlib

/-!
# Segments of a sequence and pointers to their borders

A sequence of cells is cut into consecutive segments, one for each item of a list `ns`; `own n` is
the segment of `n`. An item holds pointers to cells around its segment:

* `FirstsOk first b ns` — `first n` is the cell before the segment of `n`
* `MarkersOk marker e ns` — `marker n` is the cell behind the segment of `n`
* `LastsOk last depth e ns` — the items are the preorder of a forest with the given depths, and
  `last n` is the cell behind the segments of `n` and of all its descendants

When one border cell is replaced by another, it is enough to redirect the pointers that are equal to
it.
-/

namespace Matador.Lib

open List

/-! ## First and last element with a default -/

section Ends

variable {α : Type*}

theorem headD_append (l₁ l₂ : List α) (e : α) : (l₁ ++ l₂).headD e = l₁.headD (l₂.headD e) := by
  cases l₁ <;> rfl

theorem getLastD_append (l₁ l₂ : List α) (b : α) :
    (l₁ ++ l₂).getLastD b = l₂.getLastD (l₁.getLastD b) := by
  cases l₂.getLast? <;> simp

variable {l : List α}

theorem apply_headD {r : α → α} (h : ∀ c ∈ l, r c = c) (e : α) : r (l.headD e) = l.headD (r e) := by
  cases l with
  | nil => rfl
  | cons a l => exact h a mem_cons_self

theorem apply_getLastD {r : α → α} (h : ∀ c ∈ l, r c = c) (b : α) :
    r (l.getLastD b) = l.getLastD (r b) := by
  rw [getLastD_eq_getLast?, getLastD_eq_getLast?]
  cases hl : l.getLast? with
  | none => rfl
  | some a => exact h a (mem_of_getLast? hl)

theorem headD_mem_cons (l : List α) (e : α) : l.headD e ∈ l ++ [e] := by
  cases l <;> simp

def redirect [DecidableEq α] (old new x : α) : α := if x = old then new else x

variable [DecidableEq α]

@[simp] theorem redirect_self (old new : α) : redirect old new old = new := if_pos rfl

theorem redirect_of_ne {old x : α} (new : α) (h : x ≠ old) : redirect old new x = x := if_neg h

theorem redirect_fixes {old : α} (h : old ∉ l) (new : α) :
    ∀ c ∈ l, redirect old new c = c := fun _ hc => redirect_of_ne new (ne_of_mem_of_not_mem hc h)

end Ends

theorem flatMap_eq_append_cons {β γ : Type*} {f : β → List γ} {xs : List β} {pre post : List γ}
    {c : γ} (h : xs.flatMap f = pre ++ c :: post) :
    ∃ xs₁ x xs₂ pre' post', xs = xs₁ ++ x :: xs₂ ∧ f x = pre' ++ c :: post' ∧
      pre = xs₁.flatMap f ++ pre' ∧ post = post' ++ xs₂.flatMap f := by
  induction xs generalizing pre with
  | nil => simp at h
  | cons x xs ih =>
    rw [flatMap_cons, append_eq_append_iff] at h
    rcases h with ⟨as, rfl, hxs⟩ | ⟨bs, hx, hpost⟩
    · obtain ⟨xs₁, y, xs₂, pre', post', rfl, hy, rfl, rfl⟩ := ih hxs
      exact ⟨x :: xs₁, y, xs₂, pre', post', rfl, hy, by simp, rfl⟩
    · cases bs with
      | nil =>
        -- the border case: the element is the first of the remaining lists
        rw [append_nil] at hx
        have hnil : xs.flatMap f = [] ++ c :: post := hpost.symm
        obtain ⟨xs₁, y, xs₂, pre', post', rfl, hy, hpre, rfl⟩ := ih hnil
        refine ⟨x :: xs₁, y, xs₂, pre', post', rfl, hy, ?_, rfl⟩
        rw [flatMap_cons, append_assoc, ← hpre, append_nil, hx]
      | cons b bs =>
        obtain ⟨rfl, rfl⟩ := cons.inj hpost
        exact ⟨[], x, xs, pre, bs, rfl, hx, rfl, rfl⟩

/-! ## Segments -/

section Segments

variable {ι α : Type*} (own : ι → List α)

def cellsOf (ns : List ι) : List α := ns.flatMap own

/-- The first cell of the segments, `e` if they are empty. -/
def firstOf (ns : List ι) (e : α) : α := (cellsOf own ns).headD e

/-- The last cell of the segments, `b` if they are empty. -/
def lastOf (b : α) (ns : List ι) : α := (cellsOf own ns).getLastD b

def FirstsOk (first : ι → α) : α → List ι → Prop
  | _, [] => True
  | b, n :: ns => first n = b ∧ FirstsOk first ((own n).getLastD b) ns

def MarkersOk (marker : ι → α) : α → List ι → Prop
  | _, [] => True
  | e, n :: ns => marker n = firstOf own ns e ∧ MarkersOk marker e ns

def LastsOk (last : ι → α) (depth : ι → Nat) : α → List ι → Prop
  | _, [] => True
  | e, n :: ns => last n = firstOf own (ns.dropWhile fun m => depth n < depth m) e ∧
      LastsOk last depth e ns

variable {own} {first marker last : ι → α} {depth : ι → Nat}

theorem cellsOf_append (ns ms : List ι) :
    cellsOf own (ns ++ ms) = cellsOf own ns ++ cellsOf own ms :=
  flatMap_append

theorem cellsOf_cons (n : ι) (ns : List ι) : cellsOf own (n :: ns) = own n ++ cellsOf own ns :=
  flatMap_cons ..

theorem firstOf_append (ns ms : List ι) (e : α) :
    firstOf own (ns ++ ms) e = firstOf own ns (firstOf own ms e) := by
  rw [firstOf, cellsOf_append, headD_append]
  rfl

theorem firstOf_cons (n : ι) (ns : List ι) (e : α) :
    firstOf own (n :: ns) e = (own n).headD (firstOf own ns e) := by
  rw [firstOf, cellsOf_cons, headD_append]
  rfl

theorem lastOf_append (b : α) (ns ms : List ι) :
    lastOf own b (ns ++ ms) = lastOf own (lastOf own b ns) ms := by
  rw [lastOf, cellsOf_append, getLastD_append]
  rfl

variable {ns ms : List ι}

theorem cellsOf_dropWhile_sublist (p : ι → Bool) :
    (cellsOf own (ns.dropWhile p)).Sublist (cellsOf own ns) :=
  (dropWhile_sublist p).flatMap own

theorem exists_firstOf (ns : List ι) (e : α) :
    ∃ l, cellsOf own ns ++ [e] = firstOf own ns e :: l := by
  rw [firstOf]
  cases cellsOf own ns with
  | nil => exact ⟨[], rfl⟩
  | cons c cs => exact ⟨cs ++ [e], rfl⟩

theorem firstsOk_append {b : α} : FirstsOk own first b (ns ++ ms) ↔
      FirstsOk own first b ns ∧ FirstsOk own first (lastOf own b ns) ms := by
  induction ns generalizing b with
  | nil => simp [FirstsOk, lastOf, cellsOf]
  | cons n ns ih =>
    have hlast : lastOf own b (n :: ns) = lastOf own ((own n).getLastD b) ns := by
      rw [lastOf, cellsOf_cons, getLastD_append]
      rfl
    rw [cons_append, FirstsOk, FirstsOk, ih, hlast, and_assoc]

variable {e : α}

theorem markersOk_append : MarkersOk own marker e (ns ++ ms) ↔
      MarkersOk own marker (firstOf own ms e) ns ∧ MarkersOk own marker e ms := by
  induction ns with
  | nil => simp [MarkersOk]
  | cons n ns ih => rw [cons_append, MarkersOk, MarkersOk, ih, firstOf_append, and_assoc]

variable {d : Nat}

theorem firstOf_dropWhile_append_of_exists (h : ∃ k ∈ ns, depth k ≤ d) (ms : List ι) (e : α) :
    firstOf own ((ns ++ ms).dropWhile fun m => d < depth m) e =
      firstOf own (ns.dropWhile fun m => d < depth m) (firstOf own ms e) := by
  induction ns with
  | nil => simp at h
  | cons n ns ih =>
    rw [cons_append, dropWhile_cons, dropWhile_cons]
    by_cases hd : d < depth n
    · rw [if_pos (by simpa using hd), if_pos (by simpa using hd)]
      obtain ⟨k, hk, hkd⟩ := h
      refine ih ⟨k, (mem_cons.mp hk).resolve_left ?_, hkd⟩
      rintro rfl
      omega
    · rw [if_neg (by simpa using hd), if_neg (by simpa using hd), ← cons_append, firstOf_append]

theorem firstOf_dropWhile_append_of_forall (h : ∀ k ∈ ns, d < depth k) (ms : List ι) (e : α) :
    firstOf own ((ns ++ ms).dropWhile fun m => d < depth m) e =
      firstOf own (ms.dropWhile fun m => d < depth m) e := by
  rw [dropWhile_append_of_pos (by simpa using h)]

theorem LastsOk.insert {c : ι} (h : LastsOk own last depth e (ns ++ ms))
    (hms : ∀ m ∈ ms.head?, depth m < depth c) (hown : own c = [])
    (hlast : last c = firstOf own ms e) : LastsOk own last depth e (ns ++ c :: ms) := by
  have hfst : firstOf own (c :: ms) e = firstOf own ms e := by
    rw [firstOf_cons, hown]
    rfl
  -- an item at least as deep as `c` ends at `ms`
  have hend : ∀ d, depth c ≤ d → ms.dropWhile (fun m => d < depth m) = ms := by
    intro d hd
    cases ms with
    | nil => rfl
    | cons m ms =>
      have hm := hms m rfl
      exact dropWhile_cons_of_neg (by simp; omega)
  induction ns with
  | nil =>
    refine ⟨?_, h⟩
    rw [hend _ (Nat.le_refl _), hlast]
  | cons n ns ih =>
    refine ⟨?_, ih h.2⟩
    have hn : last n = firstOf own ((ns ++ ms).dropWhile fun k => depth n < depth k) e := h.1
    change last n = firstOf own ((ns ++ c :: ms).dropWhile fun k => depth n < depth k) e
    rw [hn]
    by_cases hends : ∃ k ∈ ns, depth k ≤ depth n
    · rw [firstOf_dropWhile_append_of_exists hends, firstOf_dropWhile_append_of_exists hends, hfst]
    · have hall : ∀ k ∈ ns, depth n < depth k := by simpa using hends
      rw [firstOf_dropWhile_append_of_forall hall, firstOf_dropWhile_append_of_forall hall]
      by_cases hd : depth n < depth c
      · rw [dropWhile_cons_of_pos (by simpa using hd)]
      · rw [dropWhile_cons_of_neg (by simpa using hd), hfst, hend _ (Nat.not_lt.mp hd)]

/-! ## Redirecting the pointers -/

section Redirect

variable {own' : ι → List α} {f : ι → ι}

theorem cellsOf_map (hown : ∀ n ∈ ns, own' (f n) = own n) :
    cellsOf own' (ns.map f) = cellsOf own ns := by
  rw [cellsOf, flatMap_map]
  exact flatMap_congr hown

theorem firstOf_map (hown : ∀ n ∈ ns, own' (f n) = own n) :
    firstOf own' (ns.map f) e = firstOf own ns e := by
  rw [firstOf, cellsOf_map hown, firstOf]

theorem firstOf_dropWhile_map (hown : ∀ n ∈ ns, own' (f n) = own n)
    (hdep : ∀ n ∈ ns, depth (f n) = depth n) :
    firstOf own' ((ns.map f).dropWhile fun m => d < depth m) e =
      firstOf own (ns.dropWhile fun m => d < depth m) e := by
  induction ns with
  | nil => rfl
  | cons n ns ih =>
    obtain ⟨hdep₁, hdep'⟩ := forall_mem_cons.mp hdep
    rw [map_cons, dropWhile_cons, dropWhile_cons, hdep₁]
    split
    · exact ih (forall_mem_cons.mp hown).2 hdep'
    · rw [← map_cons]
      exact firstOf_map hown

theorem FirstsOk.map {r : α → α} {b : α} (h : FirstsOk own first b ns)
    (hown : ∀ n ∈ ns, own' (f n) = own n) (hfst : ∀ n ∈ ns, first (f n) = r (first n))
    (hr : ∀ c ∈ cellsOf own ns, r c = c) : FirstsOk own' first (r b) (ns.map f) := by
  induction ns generalizing b with
  | nil => trivial
  | cons n ns ih =>
    obtain ⟨hn, hr'⟩ := forall_mem_append.mp hr
    obtain ⟨hown₁, hown'⟩ := forall_mem_cons.mp hown
    obtain ⟨hfst₁, hfst'⟩ := forall_mem_cons.mp hfst
    refine ⟨by rw [hfst₁, h.1], ?_⟩
    rw [hown₁, ← apply_getLastD hn]
    exact ih h.2 hown' hfst' hr'

theorem MarkersOk.map {r : α → α} (h : MarkersOk own marker e ns)
    (hown : ∀ n ∈ ns, own' (f n) = own n) (hmar : ∀ n ∈ ns, marker (f n) = r (marker n))
    (hr : ∀ c ∈ cellsOf own ns, r c = c) : MarkersOk own' marker (r e) (ns.map f) := by
  induction ns with
  | nil => trivial
  | cons n ns ih =>
    have hr' : ∀ c ∈ cellsOf own ns, r c = c := (forall_mem_append.mp hr).2
    have hown' := (forall_mem_cons.mp hown).2
    obtain ⟨hmar₁, hmar'⟩ := forall_mem_cons.mp hmar
    refine ⟨?_, ih h.2 hown' hmar' hr'⟩
    rw [hmar₁, h.1, firstOf_map hown', firstOf, apply_headD hr', firstOf]

theorem LastsOk.map (h : LastsOk own last depth e ns)
    (hown : ∀ n ∈ ns, own' (f n) = own n) (hdep : ∀ n ∈ ns, depth (f n) = depth n)
    (hlast : ∀ n ∈ ns, last (f n) = last n) : LastsOk own' last depth e (ns.map f) := by
  induction ns with
  | nil => trivial
  | cons n ns ih =>
    have hown' := (forall_mem_cons.mp hown).2
    obtain ⟨hdep₁, hdep'⟩ := forall_mem_cons.mp hdep
    obtain ⟨hlast₁, hlast'⟩ := forall_mem_cons.mp hlast
    refine ⟨?_, ih h.2 hown' hdep' hlast'⟩
    rw [hlast₁, h.1, hdep₁]
    exact (firstOf_dropWhile_map hown' hdep').symm

theorem LastsOk.last_mem (h : LastsOk own last depth e ns) {n : ι}
    (hn : n ∈ ns) : last n ∈ cellsOf own ns ++ [e] := by
  induction ns with
  | nil => simp at hn
  | cons m ns ih =>
    rw [cellsOf_cons, append_assoc]
    refine mem_append_right _ ?_
    rcases mem_cons.mp hn with rfl | hn
    · rw [h.1]
      exact ((cellsOf_dropWhile_sublist _).append_right [e]).subset (headD_mem_cons _ e)
    · exact ih h.2 hn

variable [DecidableEq α]

/-- No item that ends before the last one of `ns` and is less deep than `d` points to `old`. -/
def LastsGuard (last : ι → α) (depth : ι → Nat) (d : Nat) (old : α) : List ι → Prop
  | [] => True
  | m :: ms => (depth m < d → (∃ k ∈ ms, depth k ≤ depth m) → last m ≠ old) ∧
      LastsGuard last depth d old ms

instance decidableLastsGuard (last : ι → α) (depth : ι → Nat) (d : Nat) (old : α) :
    ∀ ns, Decidable (LastsGuard last depth d old ns)
  | [] => .isTrue trivial
  | m :: ms =>
    have := decidableLastsGuard last depth d old ms
    inferInstanceAs (Decidable ((depth m < d → (∃ k ∈ ms, depth k ≤ depth m) → last m ≠ old) ∧
      LastsGuard last depth d old ms))

omit [DecidableEq α] in
theorem LastsGuard.of_append {old : α}
    (h : LastsGuard last depth d old (ns ++ ms)) : LastsGuard last depth d old ms := by
  induction ns with
  | nil => exact h
  | cons n ns ih => exact ih h.2

/--
**The segment of `n` gets a new first cell.** The items before `n` redirect their `last` pointer
only if they are at least as deep as `n`; this is right for the items that contain `n`, and for the
others by `LastsGuard`.
-/
theorem LastsOk.replace {old new : α} {pre post : List ι} {n n' : ι} {g : ι → ι}
    (h : LastsOk own last depth e (pre ++ n :: post))
    (hgrd : old = new ∨ LastsGuard last depth (depth n) old pre)
    (hold : firstOf own (n :: post) e = old)
    (hnew : firstOf own' (n' :: post.map g) e = new) (hmem : old ∉ cellsOf own pre)
    (hown : ∀ m ∈ pre, own' (f m) = own m) (hdep : ∀ m ∈ pre, depth (f m) = depth m)
    (hlast : ∀ m ∈ pre, last (f m) = if depth n ≤ depth m ∧ last m = old then new else last m)
    (hn : depth n' = depth n ∧ last n' = last n)
    (hown₂ : ∀ m ∈ post, own' (g m) = own m) (hdep₂ : ∀ m ∈ post, depth (g m) = depth m)
    (hlast₂ : ∀ m ∈ post, last (g m) = last m) :
    LastsOk own' last depth e (pre.map f ++ n' :: post.map g) := by
  induction pre with
  | nil =>
    refine ⟨?_, LastsOk.map h.2 hown₂ hdep₂ hlast₂⟩
    rw [hn.1, hn.2, h.1, firstOf_dropWhile_map hown₂ hdep₂]
  | cons m ms ih =>
    rw [cellsOf_cons, mem_append, not_or] at hmem
    have hown' := (forall_mem_cons.mp hown).2
    obtain ⟨hdep₁, hdep'⟩ := forall_mem_cons.mp hdep
    obtain ⟨hlast₁, hlast'⟩ := forall_mem_cons.mp hlast
    refine ⟨?_, ih h.2 (hgrd.imp id (·.2)) hmem.2 hown' hdep' hlast'⟩
    have hm : last m = firstOf own ((ms ++ n :: post).dropWhile fun k => depth m < depth k) e := h.1
    change last (f m) = firstOf own' ((ms.map f ++ n' :: post.map g).dropWhile fun k =>
      depth (f m) < depth k) e
    rw [hlast₁, hdep₁]
    by_cases hends : ∃ k ∈ ms, depth k ≤ depth m
    · -- `m` ends before `n`: its pointer is a cell of `ms`, or the first cell of `n`
      have hends' : ∃ k ∈ ms.map f, depth k ≤ depth m := by
        obtain ⟨k, hk, hkd⟩ := hends
        exact ⟨f k, mem_map_of_mem hk, by rw [hdep' k hk]; exact hkd⟩
      rw [firstOf_dropWhile_append_of_exists hends, hold] at hm
      rw [firstOf_dropWhile_append_of_exists hends', hnew, firstOf_dropWhile_map hown' hdep']
      have hnot : old ∉ cellsOf own (ms.dropWhile fun k => depth m < depth k) :=
        fun hc => hmem.2 ((cellsOf_dropWhile_sublist _).subset hc)
      have hred : redirect old new (last m) =
          firstOf own (ms.dropWhile fun k => depth m < depth k) new := by
        rw [hm, firstOf, apply_headD (redirect_fixes hnot new), redirect_self, firstOf]
      rw [← hred, redirect]
      by_cases hlo : last m = old
      · rw [if_pos hlo]
        rcases hgrd with hon | hgrd
        · rw [hlo, hon, ite_self]
        · have hd : depth n ≤ depth m := by
            by_contra hd
            exact hgrd.1 (Nat.not_le.mp hd) hends hlo
          rw [if_pos ⟨hd, hlo⟩]
      · rw [if_neg (fun hc => hlo hc.2), if_neg hlo]
    · have hall : ∀ k ∈ ms, depth m < depth k := by simpa using hends
      have hall' : ∀ k ∈ ms.map f, depth m < depth k :=
        forall_mem_map.mpr fun k hk => (hdep' k hk).symm ▸ hall k hk
      rw [firstOf_dropWhile_append_of_forall hall] at hm
      rw [firstOf_dropWhile_append_of_forall hall']
      by_cases hd : depth m < depth n
      · -- `n` is a descendant of `m`
        rw [dropWhile_cons_of_pos (by simpa using hd)] at hm
        rw [dropWhile_cons_of_pos (by simpa [hn.1] using hd), if_neg (by omega), hm,
          firstOf_dropWhile_map hown₂ hdep₂]
      · -- `m` ends right before `n`
        rw [dropWhile_cons_of_neg (by simpa using hd), hold] at hm
        rw [dropWhile_cons_of_neg (by simpa [hn.1] using hd), hnew, if_pos ⟨by omega, hm⟩]

end Redirect

end Segments

end Matador.Lib
