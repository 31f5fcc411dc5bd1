import Mathlib

/-!
# Maps as sorted lists

`std::map` as the list of its entries in ascending order of the keys. `set` is `m.insert({k,
…}).first->second = v`: an entry that exists is overwritten.
-/

namespace Matador.Lib.SortedMap

open List

variable {κ β : Type*} [LinearOrder κ]

/-- `m[k] = v`. -/
def set (k : κ) (v : β) : List (κ × β) → List (κ × β)
  | [] => [(k, v)]
  | e :: es =>
    if k < e.1 then (k, v) :: e :: es
    else if k = e.1 then (k, v) :: es
    else e :: set k v es

/-- `m.find(k)`. -/
def get (k : κ) : List (κ × β) → Option β
  | [] => none
  | e :: es => if k = e.1 then some e.2 else get k es

theorem get_set_self (k : κ) (v : β) (es : List (κ × β)) : get k (set k v es) = some v := by
  induction es with
  | nil => simp [set, get]
  | cons e es ih =>
    unfold set
    split
    · simp [get]
    · split
      · simp [get]
      · next hne => rw [get, if_neg hne, ih]

theorem get_set_of_ne {k k' : κ} (h : k' ≠ k) (v : β) (es : List (κ × β)) :
    get k' (set k v es) = get k' es := by
  induction es with
  | nil => simp [set, get, h]
  | cons e es ih =>
    unfold set
    split
    · rw [get, if_neg h]
    · split
      · next heq => rw [get, get, if_neg h, if_neg (heq ▸ h)]
      · rw [get, get, ih]

theorem set_set_self (k : κ) (v w : β) (es : List (κ × β)) : set k w (set k v es) = set k w es := by
  induction es with
  | nil => simp [set]
  | cons e es ih =>
    rw [set]
    split
    · next hlt => simp [set, hlt]
    · next hlt =>
      split
      · next heq =>
        subst heq
        simp [set]
      · next hne => rw [set, if_neg hlt, if_neg hne, ih, set, if_neg hlt, if_neg hne]

theorem set_append {k : κ} {es : List (κ × β)} (h : ∀ e ∈ es, e.1 < k) (v : β) :
    set k v es = es ++ [(k, v)] := by
  induction es with
  | nil => rfl
  | cons e es ih =>
    have he := h e mem_cons_self
    rw [set, if_neg (lt_asymm he), if_neg (ne_of_gt he), ih fun e' he' =>
      h e' (mem_cons_of_mem _ he'), cons_append]

theorem mem_set {k : κ} {v : β} {es : List (κ × β)} {e : κ × β} (h : e ∈ set k v es) :
    e = (k, v) ∨ e ∈ es := by
  induction es with
  | nil => simpa [set] using h
  | cons e' es ih =>
    unfold set at h
    split at h
    · simpa using h
    · split at h
      · rcases mem_cons.mp h with h | h
        · exact Or.inl h
        · exact Or.inr (mem_cons_of_mem _ h)
      · rcases mem_cons.mp h with rfl | h
        · exact Or.inr mem_cons_self
        · exact (ih h).imp_right (mem_cons_of_mem _)

end Matador.Lib.SortedMap
