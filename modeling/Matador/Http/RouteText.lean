import Matador.Http.Routing

/-!
# The text of a route

What is written for a part of a route is read as that part again, so a route is given by the list of
its parts.
-/

namespace Matador.Http

open List hiding count
open Lib Lib.Regex

namespace Segment

def text : Segment → Str
  | file => ['*', '.', '*']
  | plain text => text
  | param name => '\x7b' :: (name ++ ['\x7d'])
  | paramRegex name regex => '\x7b' :: (name ++ ':' :: ' ' :: (regex ++ ['\x7d']))

/-- A part that can be written. The expression of a parameter begins behind the blanks, does not
reach over a slash or the end of a line, and is one for `std::regex`. -/
def Valid (compile : Str → Option Regex) : Segment → Prop
  | file => True
  | plain text => text ≠ [] ∧ ∀ x ∈ text, isPlain x = true
  | param name => name ≠ [] ∧ ∀ x ∈ name, isWord x = true
  | paramRegex name regex => (name ≠ [] ∧ ∀ x ∈ name, isWord x = true) ∧
      (∀ x ∈ regex, notLineEnd x = true ∧ x ≠ '/') ∧ (∀ x ∈ regex.head?, Json.isSpace x = false) ∧
        (compile regex).isSome

end Segment

/-! ## One part -/

section Part

variable {b : List Char}

theorem regexMatch_of_ne {x : Char} {rest : Str} (h : x ≠ '*') : routeRegex.regexMatch (x :: rest) =
      (paramPart.first 1 ⟨[], x :: rest⟩ (fun _ => none) atEnd).or
        ((group
          (plus (chars ['[', 'a', '-', 'z', 'A', '-', 'Z', '0', '-', '9', '-', '_', ']']
            isPlain))).first 4
          ⟨[], x :: rest⟩ (fun _ => none) atEnd) := by
  have hfile : (group (seqs [escaped '*', escaped '.', escaped '*'])).first 0 ⟨[], x :: rest⟩
    (fun _ => none) atEnd =
      none := by
    refine first_eq_none _ _ _ _ rfl ?_
    simpa [heads, seqs, reads] using h
  rw [regexMatch, routeRegex, first_alt, hfile, first_alt]
  rfl

theorem classify_plain {text : Str} (hne : text ≠ []) (htext : ∀ x ∈ text, isPlain x) :
    classify text = .ok (.plain text) := by
  have hmat : routeRegex.regexMatch text = some (Captures.set (fun _ => none) 5 text) := by
    obtain ⟨x, w, rfl⟩ := exists_cons_of_ne_nil hne
    have hx := htext x mem_cons_self
    have hpar : paramPart.first 1 ⟨[], x :: w⟩ (fun _ => none) atEnd = none := by
      refine first_eq_none _ _ _ _ (by decide) ?_
      simp only [head?_cons, Option.mem_def, Option.some.injEq, paramPart, heads, seqs, reads]
      rintro y rfl
      simp only [Bool.not_true, Bool.false_and, Bool.or_false, decide_eq_false_iff_not]
      rintro rfl
      exact absurd hx (by decide)
    rw [regexMatch_of_ne (by rintro rfl; exact absurd hx (by decide)), hpar, first_group,
      first_word_end hne htext]
    · rw [Position.upTo_end]
      rfl
    · rintro q ⟨y, hy, -⟩
      exact if_neg (by rintro h; simp [h] at hy)
  rw [classify, hmat]
  simp [Captures.set_of_ne, Captures.str]

variable {name : Str}

theorem first_paramPart {rest : Str} (hne : name ≠ []) (hname : ∀ x ∈ name, isWord x)
    (hrest : ∀ x ∈ rest.head?, isWord x = false) :
    paramPart.first 1 ⟨[], '\x7b' :: (name ++ rest)⟩ (fun _ => none) atEnd =
      (optional
        (group (seqs [char ':', star (chars ['\\', 's'] Json.isSpace),
          group (star (chars ['.'] notLineEnd))]))).first 2
        ⟨name.reverse ++ ['\x7b'], rest⟩ (Captures.set (fun _ => none) 2 name) fun q d =>
          (escaped '\x7d').first 4 q d atEnd := by
  rw [paramPart, first_seqs, first_char (by simp), first_seqs, first_group,
    first_word hne hname hrest, first_seqs, Position.upTo_word]
  · rfl
  · -- neither a colon nor a closing bracket is a character of a word
    rintro q ⟨x, hx, hmem⟩
    have hoth {y : Char} (hy : isWord y = false) : ∀ z ∈ q.rest.head?, decide (z = y) = false := by
      intro z hz
      rw [hx] at hz
      cases hz
      simp only [decide_eq_false_iff_not]
      rintro rfl
      simp [hy] at hmem
    rw [first_seqs, first_optional_skip _ _ _ _ (by decide)]
    · exact first_eq_none _ _ _ _ rfl (hoth (by decide))
    · simpa [heads, seqs, reads] using hoth (by decide)

theorem classify_param (hne : name ≠ []) (hname : ∀ x ∈ name, isWord x) :
    classify (Segment.param name).text = .ok (.param name) := by
  have hmat : routeRegex.regexMatch (Segment.param name).text =
      some (Captures.set (fun _ => none) 2 name) := by
    rw [Segment.text, regexMatch_of_ne (by decide), first_paramPart hne hname (by simp; decide)]
    rfl
  rw [classify, hmat]
  simp [Captures.set_of_ne, Captures.str]

theorem first_lastBracket {regex : Str} (hreg : ∀ x ∈ regex, notLineEnd x) (off o : Nat)
    (c : Captures) (f : Position → Captures → Captures) :
    (star (chars ['.'] notLineEnd)).first off ⟨b, regex ++ ['\x7d']⟩ c
        (fun q d => (escaped '\x7d').first o q (f q d) atEnd) =
      some (f ⟨regex.reverse ++ b, ['\x7d']⟩ c) := by
  have hwhl : ∀ x ∈ regex ++ ['\x7d'], notLineEnd x := by
    intro x hx
    obtain hx | hx := mem_append.mp hx
    · exact hreg x hx
    · rw [mem_singleton.mp hx]
      decide
  have hp : (⟨b, regex ++ ['\x7d']⟩ : Position).rest = (regex ++ ['\x7d']) ++ [] :=
    (append_nil _).symm
  have hat : (⟨b, regex ++ ['\x7d']⟩ : Position).advance regex.length =
      ⟨regex.reverse ++ b, ['\x7d']⟩ := by
    simp [Position.advance]
  have hread : (escaped '\x7d').first o ⟨regex.reverse ++ b, ['\x7d']⟩
    (f ⟨regex.reverse ++ b, ['\x7d']⟩ c) atEnd = some (f ⟨regex.reverse ++ b, ['\x7d']⟩ c) := by
    rfl
  rw [first_star_word hp hwhl (by simp) ['.'] off c (i := regex.length) (by simp), hat, hread]
  · -- the bracket is read as well, and nothing is left for the sign
    intro j hj hle
    refine first_chars_nil _ _ _ _ _ _ ?_
    simp [Position.advance]
    omega
  · rw [hat]
    exact .inl rfl

theorem classify_paramRegex {regex : Str} (hne : name ≠ []) (hname : ∀ x ∈ name, isWord x)
    (hreg : ∀ x ∈ regex, notLineEnd x) (hspc : ∀ x ∈ regex.head?, Json.isSpace x = false) :
    classify (Segment.paramRegex name regex).text = .ok (.paramRegex name regex) := by
  obtain ⟨what, hmat, h1, h5, h4, h2⟩ :
    ∃ what, routeRegex.regexMatch (Segment.paramRegex name regex).text = some what ∧
      what 1 = none ∧ what 5 = none ∧ what 4 = some regex ∧ what 2 = some name := by
    rw [Segment.text, regexMatch_of_ne (by decide), first_paramPart hne hname (by simp; decide),
      first_optional _ _ _ _ (by decide), first_group, first_seqs, first_char (by simp), first_seqs]
    have hblk : (⟨':' :: (name.reverse ++ ['\x7b']), ' ' :: (regex ++ ['\x7d'])⟩ : Position).rest =
        [' '] ++ (regex ++ ['\x7d']) := rfl
    have hbeg : ∀ x ∈ (regex ++ ['\x7d']).head?, Json.isSpace x = false := by
      cases regex with
      | nil => simp; decide
      | cons y regex => simpa using hspc
    rw [first_star_word hblk (all_eq_true.mp rfl) hbeg ['\\', 's'] _ _ (i := 1) (le_refl _)
      (fun j hj hle => by simp at hle; omega)]
    · simp only [Position.advance, drop_succ_cons, drop_zero]
      rw [first_seqs_singleton, first_group, first_lastBracket hreg]
      rw [Position.upTo_word]
      simp [Captures.set, Captures.reset, count]
    · simp only [Position.advance, drop_succ_cons, drop_zero]
      rw [first_seqs_singleton, first_group, first_lastBracket hreg]
      exact .inl rfl
  rw [classify, hmat]
  simp [h1, h5, h4, h2, Captures.str]

end Part

variable {compile : Str → Option Regex} {s : Segment}

theorem classify_text (h : s.Valid compile) : classify s.text = .ok s := by
  cases s with
  | file => rfl
  | plain text => exact classify_plain h.1 h.2
  | param name => exact classify_param h.1 h.2
  | paramRegex name regex =>
      exact classify_paramRegex h.1.1 h.1.2 (fun x hx => (h.2.1 x hx).1) h.2.2.1

/-! ## The specification -/

def specText (segments : List Segment) : Str :=
  if segments = [] then ['/'] else segments.flatMap fun s => '/' :: s.text

theorem text_ne_nil (h : s.Valid compile) : s.text ≠ [] := by
  cases s with
  | file => simp [Segment.text]
  | plain text => exact h.1
  | param _ | paramRegex _ _ => simp [Segment.text]

theorem slash_not_mem_text (h : s.Valid compile) : '/' ∉ s.text := by
  have hword {w : Str} (hw : ∀ x ∈ w, isWord x) : '/' ∉ w := fun hx => absurd (hw _ hx) (by decide)
  cases s with
  | file => decide
  | plain text => exact fun hx => absurd (h.2 _ hx) (by decide)
  | param name =>
    have := hword h.2
    simp [Segment.text, this]
  | paramRegex name regex =>
    have hname := hword h.1.2
    have hreg : '/' ∉ regex := fun hx => (h.2.1 _ hx).2 rfl
    simp [Segment.text, hname, hreg]

theorem regex_isSome (h : s.Valid compile) : (s.regex compile).isSome := by
  cases s with
  | file => rfl
  | plain text => rfl
  | param name => rfl
  | paramRegex name regex =>
    rw [Segment.regex, Option.isSome_map]
    exact h.2.2.2

/-- Valid parts and their expressions. -/
def Parts (compile : Str → Option Regex) : List Segment → List Regex → Prop :=
  Forall₂ fun s r => s.Valid compile ∧ s.regex compile = some r

section Spec

variable {compile : Str → Option Regex} {segments : List Segment}
  (hvalid : ∀ s ∈ segments, s.Valid compile)

include hvalid

theorem prepareRoutePathElements_specText (hne : segments ≠ []) :
    prepareRoutePathElements (specText segments) = segments.map Segment.text := by
  obtain ⟨s, rest, rfl⟩ := exists_cons_of_ne_nil hne
  have hitem (t : Segment) (ht : t ∈ s :: rest) : t.text ≠ [] ∧ '/' ∉ t.text :=
    ⟨text_ne_nil (hvalid t ht), slash_not_mem_text (hvalid t ht)⟩
  have hspl : Text.split '/' (s.text ++ (rest.map Segment.text).flatMap ('/' :: ·)) =
      s.text :: rest.map Segment.text := by
    refine Text.split_flatMap (hitem s mem_cons_self) fun item hmem => ?_
    obtain ⟨t, ht, rfl⟩ := mem_map.mp hmem
    exact hitem t (mem_cons_of_mem s ht)
  have htext :
      specText (s :: rest) = '/' :: (s.text ++ (rest.map Segment.text).flatMap ('/' :: ·)) := by
    simp [specText, flatMap_map]
  rw [prepareRoutePathElements, htext, Text.split, Text.splitFrom, ← Text.split, hspl]
  rfl

theorem mapM_classify : (segments.map Segment.text).mapM classify = .ok segments := by
  induction segments with
  | nil => rfl
  | cons s segments ih =>
    rw [map_cons, mapM_cons, classify_text (hvalid s mem_cons_self),
      ih (forall_mem_cons.mp hvalid).2]
    rfl

theorem specText_ne (hne : segments ≠ []) : specText segments ≠ ['/'] := by
  obtain ⟨s, rest, rfl⟩ := exists_cons_of_ne_nil hne
  have htext := text_ne_nil (hvalid s mem_cons_self)
  simp [specText, htext]

theorem exists_parts : ∃ rs, segments.mapM (Segment.regex compile) = some rs ∧
    Parts compile segments rs := by
  induction segments with
  | nil => exact ⟨[], rfl, .nil⟩
  | cons s segments ih =>
    obtain ⟨r, hr⟩ := Option.isSome_iff_exists.mp (regex_isSome (hvalid s mem_cons_self))
    obtain ⟨rs, hrs, hpts⟩ := ih (forall_mem_cons.mp hvalid).2
    exact ⟨r :: rs, by rw [mapM_cons, hr, hrs]; rfl, .cons ⟨hvalid s mem_cons_self, hr⟩ hpts⟩

/-- **The endpoint of the text of a route**: the expressions of the parts behind slashes, and the
names of the parameters in their order. -/
theorem createRouteEndpoint_text (hne : segments ≠ []) (method : Method) :
    ∃ rs, Parts compile segments rs ∧ createRouteEndpoint compile (specText segments) method =
        .ok ⟨specText segments, pathRegex rs, method,
          indexMap .empty 0 (segments.filterMap Segment.name)⟩ := by
  obtain ⟨rs, hrs, hpts⟩ := exists_parts hvalid
  have hfil : (segments.map Segment.text).filter (· ≠ []) = segments.map Segment.text := by
    refine filter_eq_self.mpr fun text htext => ?_
    obtain ⟨s, hs, rfl⟩ := mem_map.mp htext
    simpa using text_ne_nil (hvalid s hs)
  refine ⟨rs, hpts, ?_⟩
  rw [createRouteEndpoint, if_neg (specText_ne hvalid hne),
    prepareRoutePathElements_specText hvalid hne, hfil, mapM_classify hvalid]
  simp only [bind, Except.bind, hrs]

end Spec

end Matador.Http
