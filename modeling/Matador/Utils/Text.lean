import Mathlib

/-!
# Replacing and splitting

`replace_all` replaces what it has found and goes on behind the replacement, so a replacement is
never searched again. `split` reads one item after the other up to the delimiter; an empty item at
the end is none.
-/

namespace Matador.Text

open List

variable {α : Type*} [DecidableEq α]

/-- The position of `pat` in `rest`, the part of a string from position `pos` on. -/
def findIn (pat : List α) : List α → Nat → Option Nat
  | [], pos => if pat = [] then some pos else none
  | c :: cs, pos => if pat.isPrefixOf (c :: cs) then some pos else findIn pat cs (pos + 1)

/-- `std::string::find` from a position on; `none` is `npos`. -/
def find (str pat : List α) (pos : Nat) : Option Nat :=
  if pos ≤ str.length then findIn pat (str.drop pos) pos else none

theorem findIn_bounds {pat rest : List α} {pos i : Nat} (h : findIn pat rest pos = some i) :
    pos ≤ i ∧ i + pat.length ≤ pos + rest.length := by
  induction rest generalizing pos with
  | nil =>
    unfold findIn at h
    split at h
    · next hpat =>
      cases h
      simp [hpat]
    · cases h
  | cons c cs ih =>
    unfold findIn at h
    split at h
    · next hpre =>
      cases h
      have := ( isPrefixOf_iff_prefix.mp hpre).length_le
      omega
    · obtain ⟨hle, hlen⟩ := ih h
      simp only [length_cons]
      omega

theorem find_bounds {str pat : List α} {pos i : Nat} (h : find str pat pos = some i) :
    pos ≤ i ∧ i + pat.length ≤ str.length := by
  unfold find at h
  split at h
  · obtain ⟨hle, hlen⟩ := findIn_bounds h
    rw [length_drop] at hlen
    omega
  · cases h

/-- The loop of `replace_all` from `start_pos` on. -/
def replaceAllFrom (str pat repl : List α) (pos : Nat) (hpat : 0 < pat.length) : List α :=
  match h : find str pat pos with
  | none => str
  | some i =>
    have := find_bounds h
    replaceAllFrom (str.take i ++ repl ++ str.drop (i + pat.length)) pat repl (i + repl.length) hpat
termination_by str.length - pos
decreasing_by
  simp only [length_append, length_take, length_drop]
  omega

def replaceAll (str pat repl : List α) : List α :=
  if h : 0 < pat.length then replaceAllFrom str pat repl 0 h else str

/-! ## A pattern of one character -/

theorem findIn_singleton_of_not_mem {c : α} {rest : List α} (h : c ∉ rest) (pos : Nat) :
    findIn [c] rest pos = none := by
  induction rest generalizing pos with
  | nil => simp [findIn]
  | cons x xs ih =>
    rw [mem_cons, not_or] at h
    simp [findIn, h.1, ih h.2]

theorem findIn_singleton_append {c : α} {pre : List α} (h : c ∉ pre) (post : List α) (pos : Nat) :
    findIn [c] (pre ++ c :: post) pos = some (pos + pre.length) := by
  induction pre generalizing pos with
  | nil => simp [findIn]
  | cons x xs ih =>
    rw [mem_cons, not_or] at h
    have hne : [c].isPrefixOf (x :: (xs ++ c :: post)) = false := by simp [isPrefixOf, h.1]
    simp only [cons_append, findIn, hne, Bool.false_eq_true, if_false, ih h.2, length_cons]
    rw [Nat.add_assoc, Nat.add_comm 1]

theorem flatMap_of_not_mem {c : α} {pre : List α} (h : c ∉ pre) (repl : List α) :
    (pre.flatMap fun x => if x = c then repl else [x]) = pre := by
  induction pre with
  | nil => rfl
  | cons x xs ih =>
    rw [mem_cons, not_or] at h
    rw [flatMap_cons, if_neg (Ne.symm h.1), ih h.2, singleton_append]

theorem replaceAllFrom_singleton (c : α) (repl : List α) (hpat : 0 < [c].length) (rest : List α) :
    ∀ done : List α, replaceAllFrom (done ++ rest) [c] repl done.length hpat =
      done ++ rest.flatMap fun x => if x = c then repl else [x] := by
  -- induction on the number of characters that are still to be searched
  induction hn : rest.length using Nat.strongRecOn generalizing rest with
  | ind n ih =>
    intro done
    have hfind : find (done ++ rest) [c] done.length = findIn [c] rest done.length := by simp [find]
    rw [replaceAllFrom]
    by_cases hc : c ∈ rest
    · obtain ⟨pre, post, rfl, hpre⟩ := eq_append_cons_of_mem hc
      rw [findIn_singleton_append hpre] at hfind
      have hspl : done ++ (pre ++ c :: post) = (done ++ pre) ++ ([c] ++ post) := by simp
      have hlen : done.length + pre.length = (done ++ pre).length := length_append.symm
      have hlt : post.length < n := by
        rw [← hn]
        simp only [length_append, length_cons]
        omega
      have hrest := ih post.length hlt post rfl (done ++ pre ++ repl)
      split
      · next hnone =>
        rw [hfind] at hnone
        cases hnone
      · next i hsome =>
        rw [hfind] at hsome
        cases hsome
        have hstr : (done ++ (pre ++ c :: post)).take (done.length + pre.length) ++ repl ++
            (done ++ (pre ++ c :: post)).drop (done.length + pre.length + [c].length) =
              done ++ pre ++ repl ++ post := by
          rw [hspl, hlen, take_left, ← drop_drop, drop_left, drop_left]
        have hpos : done.length + pre.length + repl.length = (done ++ pre ++ repl).length := by
          simp only [length_append]
        rw [hstr, hpos, hrest, flatMap_append, flatMap_cons, if_pos rfl, flatMap_of_not_mem hpre]
        simp only [append_assoc]
    · split
      · rw [flatMap_of_not_mem hc]
      · next i hsome =>
        rw [hfind, findIn_singleton_of_not_mem hc] at hsome
        cases hsome

/-- **With a pattern of one character each occurrence is replaced, and nothing else.** -/
theorem replaceAll_singleton (str : List α) (c : α) (repl : List α) :
    replaceAll str [c] repl = str.flatMap fun x => if x = c then repl else [x] := by
  exact replaceAllFrom_singleton c repl _ str []

/-! ## Splitting -/

/-- The loop of `split` with what `std::getline` has read of the current item. -/
def splitFrom (delim : α) : List α → List α → List (List α)
  | item, [] => if item.isEmpty then [] else [item]
  | item, c :: cs =>
      if c = delim then item :: splitFrom delim [] cs else splitFrom delim (item ++ [c]) cs

def split (delim : α) (str : List α) : List (List α) := splitFrom delim [] str

theorem splitFrom_append {delim : α} {part : List α} (h : delim ∉ part) (item rest : List α) :
    splitFrom delim item (part ++ rest) = splitFrom delim (item ++ part) rest := by
  induction part generalizing item with
  | nil => simp
  | cons c part ih =>
    rw [mem_cons, not_or] at h
    rw [cons_append, splitFrom, if_neg (Ne.symm h.1), ih h.2, append_assoc, singleton_append]

/-- **What is joined with the delimiter is split again**, if no item is empty or contains the
delimiter. -/
theorem split_flatMap {delim : α} {first : List α} {items : List (List α)}
    (hfst : first ≠ [] ∧ delim ∉ first) (hitm : ∀ item ∈ items, item ≠ [] ∧ delim ∉ item) :
    split delim (first ++ items.flatMap (delim :: ·)) = first :: items := by
  unfold split
  induction items generalizing first with
  | nil =>
      rw [splitFrom_append hfst.2, nil_append, flatMap_nil, splitFrom, if_neg (by simp [hfst.1])]
  | cons item items ih =>
    rw [splitFrom_append hfst.2, nil_append, flatMap_cons, cons_append, splitFrom, if_pos rfl,
      ih (hitm item mem_cons_self) (forall_mem_cons.mp hitm).2]

end Matador.Text
