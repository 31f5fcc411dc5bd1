import Mathlib

/-!
# Maps without an order

`std::unordered_map` as the list of its entries, in the order in which a loop over the map finds
them. No two entries have the same key, and any order is one of some map.
-/

namespace Matador.Lib

open List Option

structure UnorderedMap (κ β : Type) where
  entries : List (κ × β)
  nodup : (entries.map Prod.fst).Nodup

namespace UnorderedMap

variable {κ β : Type}

theorem ext_entries {m m' : UnorderedMap κ β} (h : m.entries = m'.entries) : m = m' := by
  cases m
  cases h
  rfl

variable [DecidableEq κ]

instance [DecidableEq β] : DecidableEq (UnorderedMap κ β) := fun m m' =>
  decidable_of_iff (m.entries = m'.entries) ⟨ext_entries, congrArg entries⟩

def empty : UnorderedMap κ β := ⟨[], nodup_nil⟩

def find (m : UnorderedMap κ β) (k : κ) : Option β := m.entries.lookup k

/-- `insert`: an entry that exists is kept. -/
def insert (m : UnorderedMap κ β) (k : κ) (v : β) : UnorderedMap κ β :=
  if h : k ∈ m.entries.map Prod.fst then m
  else
    ⟨m.entries ++ [(k, v)], by
      rw [map_append]
      exact m.nodup.append (nodup_singleton k) (by simpa using h)⟩

variable {m : UnorderedMap κ β} {k k' : κ} {v : β}

theorem lookup_eq_some_iff {es : List (κ × β)} (h : (es.map Prod.fst).Nodup) :
    es.lookup k = some v ↔ (k, v) ∈ es := by
  induction es with
  | nil => simp
  | cons e es ih =>
    obtain ⟨k₁, v₁⟩ := e
    rw [map_cons, nodup_cons] at h
    rw [lookup_cons]
    by_cases hk : k = k₁
    · subst hk
      have hnot : (k, v) ∉ es := fun hmem => h.1 (mem_map.mpr ⟨_, hmem, rfl⟩)
      simp [hnot, eq_comm]
    · have hbeq : (k == k₁) = false := by simpa using hk
      rw [hbeq]
      simp [ih h.2, hk]

theorem find_eq_some_iff : m.find k = some v ↔ (k, v) ∈ m.entries := lookup_eq_some_iff m.nodup

theorem find_eq_none_iff : m.find k = none ↔ k ∉ m.entries.map Prod.fst := by
  rw [eq_none_iff_forall_ne_some]
  constructor
  · intro h hmem
    obtain ⟨⟨k, v⟩, hkv, rfl⟩ := mem_map.mp hmem
    exact h v (find_eq_some_iff.mpr hkv)
  · intro h v hv
    exact h (mem_map_of_mem (find_eq_some_iff.mp hv))

@[simp] theorem find_empty : (empty : UnorderedMap κ β).find k = none := rfl

theorem find_insert_self (h : m.find k = none) : (m.insert k v).find k = some v := by
  rw [find_eq_none_iff] at h
  rw [find_eq_some_iff, insert, dif_neg h]
  simp

theorem find_insert_of_some (h : m.find k = some v) (k' : κ) (v' : β) :
    (m.insert k' v').find k = some v := by
  rw [find_eq_some_iff] at h ⊢
  unfold insert
  split
  · exact h
  · exact mem_append_left _ h

theorem find_insert_of_ne (h : k ≠ k') (v' : β) : (m.insert k' v').find k = m.find k := by
  refine ext fun v => ?_
  rw [find_eq_some_iff, find_eq_some_iff]
  unfold insert
  split
  · rfl
  · simp [h]

theorem find_foldl_insert (es : List (κ × β)) (m : UnorderedMap κ β) (k : κ) :
    (es.foldl (fun m e => m.insert e.1 e.2) m).find k = (m.find k).or (es.lookup k) := by
  induction es generalizing m with
  | nil => simp
  | cons e es ih =>
    rw [foldl_cons, ih, lookup_cons]
    by_cases hk : k = e.1
    · subst hk
      cases hm : m.find e.1 with
      | none => simp [find_insert_self hm]
      | some v => simp [find_insert_of_some hm]
    · have hbeq : (k == e.1) = false := by simpa using hk
      rw [find_insert_of_ne hk, hbeq]

theorem find_foldl_entries {es : List (κ × β)} (h : (k, v) ∈ m.entries) :
    ((m.entries ++ es).foldl (fun m e => m.insert e.1 e.2) empty).find k = some v := by
  have hloo : m.entries.lookup k = some v := find_eq_some_iff.mpr h
  rw [find_foldl_insert, find_empty, none_or, lookup_append, hloo, some_or]

end UnorderedMap

end Matador.Lib
