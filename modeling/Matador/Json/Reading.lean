import Matador.Json.Parser
import Matador.Lib.Run

/-!
# What a run of the parser has read

Every run that succeeds has read the calls of some value, with its fields in the order of the text.
Its cost is counted in backslashes: a string costs as many as it has, and more unless it stands in
the text as it is.
-/

namespace Matador.Json

open List Lib

/-! ## Strings and integers of a value -/

/-- A string without quotes in which every backslash starts an escape `\uXXXX`. -/
def isLiteral : Str → Bool
  | [] => true
  | '\\' :: 'u' :: h₁ :: h₂ :: h₃ :: h₄ :: s =>
    isHexDigit h₁ && isHexDigit h₂ && isHexDigit h₃ && isHexDigit h₄ && isLiteral s
  | c :: s => c != '"' && c != '\\' && isLiteral s

mutual

def strings : Json → List Str
  | .string s => [s]
  | .object fields => fieldStrings fields
  | .array items => itemStrings items
  | _ => []

def fieldStrings : List (Str × Json) → List Str
  | [] => []
  | (key, value) :: fields => key :: value.strings ++ fieldStrings fields

def itemStrings : List Json → List Str
  | [] => []
  | item :: items => item.strings ++ itemStrings items

end

mutual

def integers : Json → List LongLong
  | .integer i => [i]
  | .object fields => fieldIntegers fields
  | .array items => itemIntegers items
  | _ => []

def fieldIntegers : List (Str × Json) → List LongLong
  | [] => []
  | (_, value) :: fields => value.integers ++ fieldIntegers fields

def itemIntegers : List Json → List LongLong
  | [] => []
  | item :: items => item.integers ++ itemIntegers items

end

/-! ## Backslashes -/

def backslashes (ss : List Str) : Nat := (ss.map (count '\\')).sum

@[simp] theorem backslashes_nil : backslashes [] = 0 := rfl

@[simp] theorem backslashes_cons (s : Str) (ss : List Str) :
    backslashes (s :: ss) = s.count '\\' + backslashes ss := rfl

@[simp] theorem backslashes_append (ss ts : List Str) :
    backslashes (ss ++ ts) = backslashes ss + backslashes ts := by
  simp [backslashes]

/-- From `cs` to `rest` the strings `ss` have been read. -/
structure Spends (cs rest : Str) (ss : List Str) : Prop where
  le : rest.count '\\' + backslashes ss ≤ cs.count '\\'
  lt : ss.all isLiteral = false → rest.count '\\' + backslashes ss < cs.count '\\'

namespace Spends

variable {cs mid rest : Str} {ss ts : List Str}

theorem of_suffix (h : rest <:+ cs) : Spends cs rest [] :=
  ⟨h.sublist.count_le '\\', fun h => nomatch h⟩

theorem trans (h : Spends cs mid ss) (h' : Spends mid rest ts) : Spends cs rest (ss ++ ts) := by
  have hle := h.le
  have hle' := h'.le
  refine ⟨by rw [backslashes_append]; omega, fun hall => ?_⟩
  rw [backslashes_append]
  rw [all_append, Bool.and_eq_false_iff] at hall
  rcases hall with hall | hall
  · have := h.lt hall
    omega
  · have := h'.lt hall
    omega

theorem suffix_right (h : Spends cs mid ss) (hrest : rest <:+ mid) : Spends cs rest ss := by
  have := h.trans (of_suffix hrest)
  rwa [append_nil] at this

theorem suffix_left (hmid : mid <:+ cs) (h : Spends mid rest ss) : Spends cs rest ss :=
  (of_suffix hmid).trans h

end Spends

/-! ## The cursor -/

theorem eq_cons_of_current {cs : Str} (h : current cs ≠ '\x00') : cs = current cs :: cs.tail := by
  cases cs with
  | nil => exact absurd rfl h
  | cons c cs => rfl

theorem length_tail_lt {cs : Str} (h : current cs ≠ '\x00') : cs.tail.length < cs.length := by
  cases cs with
  | nil => exact absurd rfl h
  | cons c cs => exact Nat.lt_succ_self _

theorem skipWs_suffix (cs : Str) : skipWs cs <:+ cs := dropWhile_suffix _

/-! ## Strings -/

theorem isLiteral_cons {c : Char} (hc : c ≠ '\\') (s : Str) :
    isLiteral (c :: s) = (c != '"' && isLiteral s) := by
  rw [isLiteral.eq_def]
  split
  · next h => cases h
  · next h => exact absurd (cons.inj h).1 hc
  · next h =>
    cases h
    have hne : (c != '\\') := bne_iff_ne.mpr hc
    rw [hne, Bool.and_true]

theorem isLiteral_unicode (h₁ h₂ h₃ h₄ : Char) (s : Str) :
    isLiteral ('\\' :: 'u' :: h₁ :: h₂ :: h₃ :: h₄ :: s) =
      (isHexDigit h₁ && isHexDigit h₂ && isHexDigit h₃ && isHexDigit h₄ && isLiteral s) := by
  rw [isLiteral]

namespace Spends

variable {cs rest s : Str}

theorem plain {c : Char} (hq : c ≠ '"') (hc : c ≠ '\\') (h : Spends cs rest [s]) :
    Spends (c :: cs) rest [c :: s] := by
  have hle := h.le
  have hlt := h.lt
  simp only [all_cons, all_nil, Bool.and_true] at hle hlt
  have hlit : isLiteral (c :: s) = isLiteral s := by simp [isLiteral_cons hc, hq]
  refine ⟨?_, fun hall => ?_⟩
  · simpa [count_cons_of_ne hc] using hle
  · simp only [all_cons, all_nil, Bool.and_true, hlit] at hall
    simpa [count_cons_of_ne hc] using hlt hall

theorem unescape_eq_backslash {e : Char} (h : unescape e = some '\\') : e = '\\' := by
  unfold unescape at h
  split at h <;> first | rfl | cases h

theorem escape {e x : Char} (hx : unescape e = some x) (h : Spends cs rest [s]) :
    Spends ('\\' :: e :: cs) rest [x :: s] := by
  have hle := h.le
  have hcou : (x :: s).count '\\' + cs.count '\\' = s.count '\\' + (e :: cs).count '\\' := by
    by_cases he : e = '\\'
    · subst he
      cases hx
      simp only [count_cons_self]
      omega
    · have hne : x ≠ '\\' := fun hx' => he (unescape_eq_backslash (hx' ▸ hx))
      rw [count_cons_of_ne he, count_cons_of_ne hne]
  have hlt : rest.count '\\' + backslashes [x :: s] < ('\\' :: e :: cs).count '\\' := by
    simp only [backslashes_cons, count_cons_self] at hle ⊢
    omega
  exact ⟨Nat.le_of_lt hlt, fun _ => hlt⟩

theorem unicode {h₁ h₂ h₃ h₄ : Char}
    (hhex : (isHexDigit h₁ && isHexDigit h₂ && isHexDigit h₃ && isHexDigit h₄))
    (h : Spends cs rest [s]) :
    Spends ('\\' :: 'u' :: h₁ :: h₂ :: h₃ :: h₄ :: cs) rest
      ['\\' :: 'u' :: h₁ :: h₂ :: h₃ :: h₄ :: s] := by
  have hle := h.le
  have hlt := h.lt
  simp only [backslashes_cons, all_cons, all_nil, Bool.and_true] at hle hlt
  have hcou : ('\\' :: 'u' :: h₁ :: h₂ :: h₃ :: h₄ :: s).count '\\' + cs.count '\\' =
      s.count '\\' + ('\\' :: 'u' :: h₁ :: h₂ :: h₃ :: h₄ :: cs).count '\\' := by
    simp only [count_cons]
    omega
  refine ⟨?_, fun hall => ?_⟩
  · simp only [backslashes_cons]
    omega
  · simp only [all_cons, all_nil, Bool.and_true, isLiteral_unicode, hhex] at hall
    have := hlt hall
    simp only [backslashes_cons]
    omega

end Spends

theorem spends_readBody {cs s rest : Str} (h : readBody cs = .ok (s, rest)) :
    Spends cs rest [s] ∧ rest <:+ cs := by
  have hnil (rest cs : Str) (h : rest <:+ cs) : Spends cs rest [[]] :=
    ⟨h.sublist.count_le '\\', fun h => nomatch h⟩
  fun_induction readBody cs generalizing s with
  | case1 =>
    cases h
    exact ⟨hnil _ _ (suffix_refl _), suffix_refl _⟩
  | case2 c cs hc =>
    cases h
    exact ⟨hnil _ _ (suffix_refl _), suffix_refl _⟩
  | case3 cs hc =>
    cases h
    exact ⟨hnil _ _ (suffix_cons ..), suffix_cons ..⟩
  | case4 h₁ h₂ h₃ h₄ cs hhex _ _ ih =>
    obtain ⟨⟨s', rest'⟩, hr, heq⟩ := map_eq_ok.mp h
    cases heq
    obtain ⟨hspe, hsuf⟩ := ih hr
    exact ⟨hspe.unicode hhex, hsuf.trans ⟨['\\', 'u', h₁, h₂, h₃, h₄], rfl⟩⟩
  | case5 => cases h
  | case6 => cases h
  | case7 e cs _ _ x hx _ _ ih =>
    obtain ⟨⟨s', rest'⟩, hr, heq⟩ := map_eq_ok.mp h
    cases heq
    obtain ⟨hspe, hsuf⟩ := ih hr
    exact ⟨hspe.escape hx, hsuf.trans ⟨['\\', e], rfl⟩⟩
  | case8 => cases h
  | case9 => cases h
  | case10 c cs _ hq hc ih =>
    obtain ⟨⟨s', rest'⟩, hr, heq⟩ := map_eq_ok.mp h
    cases heq
    obtain ⟨hspe, hsuf⟩ := ih hr
    exact ⟨hspe.plain hq hc, hsuf.trans (suffix_cons ..)⟩

theorem spends_parseString {cs s rest : Str} (h : parseString cs = .ok (s, rest)) :
    Spends cs rest [s] ∧ rest.length < cs.length := by
  unfold parseString at h
  split at h
  · cases h
  · next c cs' hskip =>
    have hsuf : cs' <:+ cs := (suffix_cons c cs').trans (hskip ▸ skipWs_suffix cs)
    have hlen : cs'.length < cs.length := by
      have := (skipWs_suffix cs).length_le
      rw [hskip, length_cons] at this
      omega
    split at h
    · cases h
    · split at h
      · cases h
      · obtain ⟨hspe, hrest⟩ := spends_readBody h
        exact ⟨hspe.suffix_left hsuf, Nat.lt_of_le_of_lt hrest.length_le hlen⟩

/-! ## Numbers and words -/

theorem readDigits_suffix {cs rest : Str} {n : Nat} (h : readDigits cs = some (n, rest)) :
    rest <:+ cs ∧ rest.length < cs.length := by
  unfold readDigits at h
  split at h
  · cases h
  · next hne =>
    cases h
    refine ⟨dropWhile_suffix _, ?_⟩
    have hspl := congrArg length (takeWhile_append_dropWhile (p := Char.isDigit) (l := cs))
    have hpos : 0 < (cs.takeWhile Char.isDigit).length := by
      rw [length_pos_iff]
      simpa using hne
    rw [length_append] at hspl
    omega

theorem strtoll_suffix {cs rest : Str} {i : Int} (h : strtoll cs = some (i, rest)) :
    rest <:+ cs ∧ rest.length < cs.length := by
  unfold strtoll at h
  split at h
  · obtain ⟨⟨n, rest'⟩, hr, heq⟩ := Option.map_eq_some_iff.mp h
    cases heq
    obtain ⟨hsuf, hlen⟩ := readDigits_suffix hr
    have htail : cs.tail.length ≤ cs.length := (tail_suffix cs).length_le
    exact ⟨hsuf.trans (tail_suffix cs), Nat.lt_of_lt_of_le hlen htail⟩
  · obtain ⟨⟨n, rest'⟩, hr, heq⟩ := Option.map_eq_some_iff.mp h
    cases heq
    exact readDigits_suffix hr

theorem skipExponent_suffix (cs : Str) : skipExponent cs <:+ cs := by
  have hdig : (if current cs.tail = '+' ∨ current cs.tail = '-' then cs.tail.tail else cs.tail) <:+
      cs := by
    split
    · exact (tail_suffix _).trans (tail_suffix _)
    · exact tail_suffix _
  simp only [skipExponent]
  generalize (if current cs.tail = '+' ∨ current cs.tail = '-' then cs.tail.tail else cs.tail) =
    digits
    at *
  split
  · exact (dropWhile_suffix _).trans hdig
  · exact suffix_refl _

theorem compareString_suffix {e : JsonException} {word cs rest : Str}
    (h : compareString e word cs = .ok rest) : rest <:+ cs := by
  induction word generalizing cs with
  | nil =>
    cases h
    exact suffix_refl _
  | cons w word ih =>
    unfold compareString at h
    split at h
    · cases h
    · split at h
      · cases h
      · exact (ih h).trans (tail_suffix _)

/-! ## Values -/

/-- A value read between two places of a text. `errno` stays `ERANGE`, and lets no extreme integer
pass. -/
structure ReadsValue (erange : Bool) (cs : Str) (r : Parsed) (calls : List Event) (ss : List Str)
    (is : List LongLong) : Prop where
  events : r.1 = calls
  spends : Spends cs r.2.1 ss
  shorter : r.2.1.length < cs.length
  errno : erange = true → r.2.2 = true ∧ is.all (fun i => !isExtreme i) = true

variable {strtod : Strtod}

theorem skipWs_skipWs (cs : Str) : skipWs (skipWs cs) = skipWs cs := dropWhile_idempotent ..

theorem parseString_skipWs (cs : Str) : parseString (skipWs cs) = parseString cs := by
  rw [parseString, parseString, skipWs_skipWs]

theorem parseValue_skipWs (n : Nat) (erange : Bool) (cs : Str) :
    parseValue strtod n erange (skipWs cs) = parseValue strtod n erange cs := by
  cases n with
  | zero => rfl
  | succ n => rw [parseValue, parseValue, skipWs_skipWs]

theorem parseItems_skipWs (n : Nat) (erange : Bool) (cs : Str) :
    parseItems strtod n erange (skipWs cs) = parseItems strtod n erange cs := by
  cases n with
  | zero => rfl
  | succ n => rw [parseItems, parseItems, parseValue_skipWs]

theorem parseMembers_skipWs (n : Nat) (erange : Bool) (cs : Str) :
    parseMembers strtod n erange (skipWs cs) = parseMembers strtod n erange cs := by
  cases n with
  | zero => rfl
  | succ n => rw [parseMembers, parseMembers, parseString_skipWs]

theorem exists_parseValue (strtod : Strtod) (n : Nat) (erange : Bool) (cs : Str) :
    ∃ m, n ≤ m ∧ parseRoot strtod n erange (skipWs cs) = parseValue strtod m erange cs := by
  unfold parseRoot
  split
  · next hbra =>
    refine ⟨n + 1, Nat.le_succ n, ?_⟩
    simp [parseValue, hbra, isEos]
  split
  · next hbrac =>
    refine ⟨n + 1, Nat.le_succ n, ?_⟩
    simp [parseValue, hbrac, isEos]
  · exact ⟨n, Nat.le_refl n, parseValue_skipWs n erange cs⟩

theorem reads_parseNumber {erange : Bool} {cs : Str} {r : Event × Str × Bool}
    (h : parseNumber strtod erange cs = .ok r) :
    ∃ j, ReadsValue erange cs ([r.1], r.2) (events j) (strings j) (integers j) := by
  unfold parseNumber at h
  split at h
  · cases h
  · next i rest hi =>
    obtain ⟨hsuf, hlen⟩ := strtoll_suffix hi
    split at h
    · next hrng =>
      split at h
      · cases h
      · next hext =>
        split at h
        · -- a real
          dsimp only at h
          generalize hrest : skipExponent (rest.tail.dropWhile Char.isDigit) = rest' at h
          have hsuf' : rest' <:+ rest :=
            hrest ▸ (skipExponent_suffix _).trans ((dropWhile_suffix _).trans (tail_suffix _))
          split at h
          · cases h
          · split at h
            · cases h
              refine ⟨.real _, rfl, .of_suffix (hsuf'.trans hsuf),
                Nat.lt_of_le_of_lt hsuf'.length_le hlen, fun he => ?_⟩
              simp [he, integers]
            · cases h
        · split at h
          · cases h
            refine ⟨.integer ⟨i, hrng⟩, rfl, .of_suffix hsuf, hlen, fun he => ⟨he, ?_⟩⟩
            simpa [he, integers] using hext
          · cases h
    · cases h

/-- All runs with some fuel read values. -/
structure ReadsAt (strtod : Strtod) (n : Nat) : Prop where
  value : ∀ {erange cs r}, parseValue strtod n erange cs = .ok r →
    ∃ j, ReadsValue erange cs r (events j) (strings j) (integers j)
  object : ∀ {erange cs r}, parseObject strtod n erange cs = .ok r →
    ∃ fields, ReadsValue erange cs r (events (.object fields)) (fieldStrings fields)
      (fieldIntegers fields)
  members : ∀ {erange cs r}, parseMembers strtod n erange cs = .ok r →
    ∃ fields, ReadsValue erange cs r (fieldEvents fields) (fieldStrings fields)
      (fieldIntegers fields)
  array : ∀ {erange cs r}, parseArray strtod n erange cs = .ok r →
    ∃ items, ReadsValue erange cs r (events (.array items)) (itemStrings items) (itemIntegers items)
  items : ∀ {erange cs r}, parseItems strtod n erange cs = .ok r →
    ∃ items, ReadsValue erange cs r (itemEvents items) (itemStrings items) (itemIntegers items)

section Step

variable {n : Nat} {erange : Bool} {cs : Str} {r : Parsed}

namespace ReadsValue

variable {r' : Parsed} {calls calls' : List Event} {ss ss' : List Str} {is is' : List LongLong}

theorem suffix_left {cs' : Str} (hcs : cs' <:+ cs) (h : ReadsValue erange cs' r calls ss is) :
    ReadsValue erange cs r calls ss is :=
  ⟨h.events, h.spends.suffix_left hcs, Nat.lt_of_lt_of_le h.shorter hcs.length_le, h.errno⟩

theorem of_suffix {rest : Str} (hcs : current cs ≠ '\x00') (hrest : rest <:+ cs.tail)
    (calls : List Event) : ReadsValue erange cs (calls, rest, erange) calls [] [] :=
  ⟨rfl, .of_suffix (hrest.trans (tail_suffix cs)),
    Nat.lt_of_le_of_lt hrest.length_le (length_tail_lt hcs), fun he => ⟨he, rfl⟩⟩

theorem suffix_right (h : ReadsValue erange cs r calls ss is) {rest : Str}
    (hrest : rest <:+ r.2.1) : ReadsValue erange cs (r.1, rest, r.2.2) calls ss is :=
  ⟨h.events, h.spends.suffix_right hrest, Nat.lt_of_le_of_lt hrest.length_le h.shorter, h.errno⟩

theorem tail_skipWs_suffix (cs : Str) : (skipWs cs).tail <:+ cs :=
  (tail_suffix _).trans (skipWs_suffix cs)

theorem brackets (h : ReadsValue erange cs r calls ss is) (first last : Event) :
    ReadsValue erange cs (first :: r.1 ++ [last], (skipWs r.2.1).tail, r.2.2)
      (first :: calls ++ [last]) ss is := by
  have hcld := h.suffix_right (tail_skipWs_suffix r.2.1)
  exact ⟨by rw [h.events], hcld.spends, hcld.shorter, h.errno⟩

theorem key {k rest : Str} (hkey : parseString cs = .ok (k, rest))
    (h : ReadsValue erange (skipWs rest).tail r calls ss is) :
    ReadsValue erange cs (.objectKey k :: r.1, r.2) (.objectKey k :: calls) (k :: ss) is := by
  obtain ⟨hspe, hlen⟩ := spends_parseString hkey
  have hval := h.suffix_left (tail_skipWs_suffix rest)
  exact ⟨by rw [h.events], hspe.trans hval.spends, Nat.lt_trans hval.shorter hlen, h.errno⟩

theorem comma (h : ReadsValue erange cs r calls ss is)
    (h' : ReadsValue r.2.2 (skipWs r.2.1).tail r' calls' ss' is') :
    ReadsValue erange cs (r.1 ++ r'.1, r'.2) (calls ++ calls') (ss ++ ss') (is ++ is') := by
  have hrest := h'.suffix_left (tail_skipWs_suffix r.2.1)
  refine ⟨by rw [h.events,
      h'.events], h.spends.trans hrest.spends, Nat.lt_trans hrest.shorter h.shorter, fun he => ?_⟩
  obtain ⟨he, his⟩ := h.errno he
  obtain ⟨he', his'⟩ := h'.errno he
  exact ⟨he', by rw [all_append, his, his']; rfl⟩

end ReadsValue

section

variable (ih : ReadsAt strtod n)

include ih

theorem ReadsAt.value_step (h : parseValue strtod (n + 1) erange cs = .ok r) :
    ∃ j, ReadsValue erange cs r (events j) (strings j) (integers j) := by
  rw [parseValue] at h
  have hsuf := skipWs_suffix cs
  generalize skipWs cs = cs' at *
  -- from the text behind the whitespace it is enough
  suffices hj : ∃ j, ReadsValue erange cs' r (events j) (strings j) (integers j) by
    obtain ⟨j, hj⟩ := hj
    exact ⟨j, hj.suffix_left hsuf⟩
  split at h
  · cases h
  · next heos =>
    have hcur : current cs' ≠ '\x00' := by simpa [isEos] using heos
    have htail := tail_suffix cs'
    split at h
    · obtain ⟨fields, hfie⟩ := ih.object h
      exact ⟨.object fields, hfie.suffix_left htail⟩
    · split at h
      · obtain ⟨items, hitm⟩ := ih.array h
        exact ⟨.array items, hitm.suffix_left htail⟩
      · split at h
        · obtain ⟨⟨s, rest⟩, hs, rfl⟩ := map_eq_ok.mp h
          obtain ⟨hspe, hlen⟩ := spends_parseString hs
          exact ⟨.string s, rfl, hspe, hlen, fun he => ⟨he, rfl⟩⟩
        · split at h
          · obtain ⟨number, hnum, rfl⟩ := map_eq_ok.mp h
            exact reads_parseNumber hnum
          · split at h
            · obtain ⟨rest, hrest, rfl⟩ := map_eq_ok.mp h
              exact ⟨.boolean true, .of_suffix hcur (compareString_suffix hrest) _⟩
            · split at h
              · obtain ⟨rest, hrest, rfl⟩ := map_eq_ok.mp h
                exact ⟨.boolean false, .of_suffix hcur (compareString_suffix hrest) _⟩
              · split at h
                · obtain ⟨rest, hrest, rfl⟩ := map_eq_ok.mp h
                  exact ⟨.null, .of_suffix hcur (compareString_suffix hrest) _⟩
                · cases h

theorem ReadsAt.object_step (h : parseObject strtod (n + 1) erange cs = .ok r) :
    ∃ fields, ReadsValue erange cs r (events (.object fields)) (fieldStrings fields)
      (fieldIntegers fields) := by
  rw [parseObject] at h
  dsimp only at h
  have hsuf := skipWs_suffix cs
  generalize skipWs cs = cs' at *
  split at h
  · next hcur =>
    cases h
    have hne : current cs' ≠ '\x00' := by rw [hcur]; decide
    exact ⟨[], (ReadsValue.of_suffix hne (suffix_refl _) _).suffix_left hsuf⟩
  · obtain ⟨members, hmbs, h⟩ := bind_eq_ok.mp h
    obtain ⟨fields, hfie⟩ := ih.members hmbs
    split at h
    · cases h
      exact ⟨fields, (hfie.brackets _ _).suffix_left hsuf⟩
    · cases h

theorem ReadsAt.members_step (h : parseMembers strtod (n + 1) erange cs = .ok r) :
    ∃ fields, ReadsValue erange cs r (fieldEvents fields) (fieldStrings fields)
      (fieldIntegers fields) := by
  obtain ⟨⟨key, afterKey⟩, hkey, h⟩ := bind_eq_ok.mp h
  dsimp only at h
  split at h
  · cases h
  · split at h
    · obtain ⟨value, hval, h⟩ := bind_eq_ok.mp h
      obtain ⟨j, hj⟩ := ih.value hval
      have hfie := hj.key hkey
      split at h
      · obtain ⟨members, hmbs, h⟩ := bind_eq_ok.mp h
        obtain ⟨fields, hfiel⟩ := ih.members hmbs
        cases h
        exact ⟨(key, j) :: fields, hfie.comma hfiel⟩
      · cases h
        refine ⟨[(key, j)], ?_⟩
        rw [fieldEvents, fieldEvents, fieldStrings, fieldStrings, fieldIntegers, fieldIntegers,
          append_nil, append_nil, append_nil]
        exact hfie.suffix_right (skipWs_suffix _)
    · cases h

theorem ReadsAt.array_step (h : parseArray strtod (n + 1) erange cs = .ok r) :
    ∃ items, ReadsValue erange cs r (events (.array items)) (itemStrings items)
      (itemIntegers items) := by
  rw [parseArray] at h
  dsimp only at h
  have hsuf := skipWs_suffix cs
  generalize skipWs cs = cs' at *
  split at h
  · next hcur =>
    cases h
    have hne : current cs' ≠ '\x00' := by rw [hcur]; decide
    exact ⟨[], (ReadsValue.of_suffix hne (suffix_refl _) _).suffix_left hsuf⟩
  · obtain ⟨read, hread, h⟩ := bind_eq_ok.mp h
    obtain ⟨items, hitm⟩ := ih.items hread
    split at h
    · cases h
      exact ⟨items, (hitm.brackets _ _).suffix_left hsuf⟩
    · cases h

theorem ReadsAt.items_step (h : parseItems strtod (n + 1) erange cs = .ok r) :
    ∃ items, ReadsValue erange cs r (itemEvents items) (itemStrings items)
      (itemIntegers items) := by
  obtain ⟨value, hval, h⟩ := bind_eq_ok.mp h
  obtain ⟨j, hj⟩ := ih.value hval
  dsimp only at h
  split at h
  · obtain ⟨rest, hrest, h⟩ := bind_eq_ok.mp h
    obtain ⟨items, hitm⟩ := ih.items hrest
    cases h
    exact ⟨j :: items, hj.comma hitm⟩
  · cases h
    refine ⟨[j], ?_⟩
    rw [itemEvents, itemEvents, itemStrings, itemStrings, itemIntegers, itemIntegers, append_nil,
      append_nil, append_nil]
    exact hj.suffix_right (skipWs_suffix _)

end

end Step

/-- **Every run that succeeds has read a value.** -/
theorem reads_parse (strtod : Strtod) (n : Nat) : ReadsAt strtod n := by
  induction n with
  | zero =>
    constructor <;>
    · intro erange cs r h
      cases h
  | succ n ih =>
      exact ⟨ih.value_step, ih.object_step, ih.members_step, ih.array_step, ih.items_step⟩

/-! ## The root -/

theorem reads_parseJson {erange : Bool} {str : Str} {calls : List Event}
    (h : parseJson strtod erange str = .ok calls) :
    ∃ j, calls = events j ∧ Spends str [] (strings j) ∧
      (erange → (integers j).all (fun i => !isExtreme i)) := by
  unfold parseJson at h
  dsimp only at h
  split at h
  · cases h
  · obtain ⟨root, hroot, h⟩ := bind_eq_ok.mp h
    obtain ⟨m, -, hval⟩ := exists_parseValue strtod (3 * str.length + 3) erange str
    obtain ⟨j, hj⟩ := (reads_parse strtod m).value (hval.symm.trans hroot)
    split at h
    · cases h
      exact ⟨j, hj.events, hj.spends.suffix_right nil_suffix, fun he => (hj.errno he).2⟩
    · cases h

end Matador.Json
