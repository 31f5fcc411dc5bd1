import Matador.Lib.Segments

/-!
# Escaped text of web pages

`html::escape` replaces five characters by entities. Each entity starts with `&`, and `&` itself is
replaced, so the entities of an escaped text are those that were written, whatever text was escaped.
-/

namespace Matador.Html

open List

abbrev Text := List Char

def entity : Char → Option Text
  | '&' => some ['&', 'a', 'm', 'p', ';']
  | '"' => some ['&', 'q', 'u', 'o', 't', ';']
  | '\'' => some ['&', 'a', 'p', 'o', 's', ';']
  | '<' => some ['&', 'l', 't', ';']
  | '>' => some ['&', 'g', 't', ';']
  | _ => none

def escapeChar (c : Char) : Text := (entity c).getD [c]

def escape (value : Text) : Text := value.flatMap escapeChar

/-- The text with its entities replaced by their characters, from left to right. -/
def unescape : Text → Text
  | '&' :: 'a' :: 'm' :: 'p' :: ';' :: rest => '&' :: unescape rest
  | '&' :: 'q' :: 'u' :: 'o' :: 't' :: ';' :: rest => '"' :: unescape rest
  | '&' :: 'a' :: 'p' :: 'o' :: 's' :: ';' :: rest => '\'' :: unescape rest
  | '&' :: 'l' :: 't' :: ';' :: rest => '<' :: unescape rest
  | '&' :: 'g' :: 't' :: ';' :: rest => '>' :: unescape rest
  | c :: rest => c :: unescape rest
  | [] => []

theorem unescape_cons_of_ne {c : Char} (h : c ≠ '&') (rest : Text) :
    unescape (c :: rest) = c :: unescape rest := by
  rw [unescape.eq_def]
  split <;> simp_all

def special : Text := ['&', '<', '>', '"', '\'']

/-- A character stays, or becomes an entity: it has its `&` in front only, and is read back with any
text behind it. -/
theorem escapeChar_cases (c : Char) : c ∉ special ∧ escapeChar c = [c] ∨
    ∃ tail, entity c = some ('&' :: tail) ∧ escapeChar c = '&' :: tail ∧ (∀ x ∈ tail, x ∉ special) ∧
      ∀ rest, unescape ('&' :: tail ++ rest) = c :: unescape rest := by
  unfold escapeChar
  by_cases hc : c ∈ special
  · refine .inr ?_
    simp only [special, mem_cons, not_mem_nil, or_false] at hc
    rcases hc with rfl | rfl | rfl | rfl | rfl
    all_goals exact ⟨_, rfl, rfl, by simp [special], fun rest => by simp [unescape]⟩
  · refine .inl ⟨hc, ?_⟩
    unfold entity
    split
    all_goals first
      | rfl
      | exact absurd (by decide) hc

/-- **An escaped text has no character of markup, its entities are those that were written, and it
is read back.** -/
theorem escape_spec (value : Text) : (∀ c ∈ escape value, c ∉ ['<', '>', '"', '\'']) ∧
    (∀ before after, escape value = before ++ '&' :: after →
      ∃ c, ∃ e ∈ entity c, e <+: '&' :: after) ∧ unescape (escape value) = value := by
  refine ⟨fun c hc hmem => ?_, fun before after h => ?_, ?_⟩
  · obtain ⟨x, -, hx⟩ := mem_flatMap.mp hc
    rcases escapeChar_cases x with ⟨hspe, heq⟩ | ⟨tail, -, heq, htail, -⟩
    · rw [heq, mem_singleton] at hx
      exact hspe (hx ▸ mem_cons_of_mem _ hmem)
    · rw [heq] at hx
      rcases mem_cons.mp hx with rfl | hx
      · revert hmem
        decide
      · exact htail c hx (mem_cons_of_mem _ hmem)
  · obtain ⟨-, x, s, pre, post, -, hx, -, rfl⟩ := Lib.flatMap_eq_append_cons h
    rcases escapeChar_cases x with ⟨hspe, heq⟩ | ⟨tail, hent, heq, htail, -⟩
    · have hmem : '&' ∈ escapeChar x := hx ▸ mem_append_right _ mem_cons_self
      rw [heq, mem_singleton] at hmem
      exact absurd (hmem ▸ mem_cons_self) hspe
    · rw [heq] at hx
      cases pre with
      | nil =>
        cases hx
        exact ⟨x, _, hent, prefix_append _ _⟩
      | cons y pre =>
        have hmem : '&' ∈ tail := (cons.inj hx).2 ▸ mem_append_right _ mem_cons_self
        exact absurd mem_cons_self (htail '&' hmem)
  · induction value with
    | nil => simp [escape, unescape]
    | cons c value ih =>
      have hcons : escape (c :: value) = escapeChar c ++ escape value := flatMap_cons
      rw [hcons]
      rcases escapeChar_cases c with ⟨hspe, heq⟩ | ⟨tail, -, heq, -, hread⟩
      · have hne : c ≠ '&' := fun hc => hspe (by rw [hc]; exact mem_cons_self)
        rw [heq, singleton_append, unescape_cons_of_ne hne, ih]
      · rw [heq, hread, ih]

end Matador.Html
