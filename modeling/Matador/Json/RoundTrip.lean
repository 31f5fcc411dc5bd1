import Matador.Json.Reading

/-!
# Parsing what `str` has written

`str` escapes nothing. A string is read back exactly if it has no quote and each of its backslashes
starts an escape `\uXXXX`, which the parser keeps as it is. Besides, the integers 0, `LLONG_MIN` and
`LLONG_MAX` are rejected while `errno` is `ERANGE` from an earlier call.
-/

namespace Matador.Json

open List Lib JsonParser

/-! ## What `str` writes -/

theorem count_integerText (i : Int) : (integerText i).count '\\' = 0 := by
  have hdig (n : Nat) : (Nat.toDigits 10 n).count '\\' = 0 :=
    count_eq_zero.mpr fun h => absurd (isDigit_of_mem_toDigits h) (by decide)
  cases i with
  | ofNat n => exact hdig n
  | negSucc n => exact hdig (n + 1)

theorem count_quoted (s : Str) : (quoted s).count '\\' = s.count '\\' := by
  simp [quoted]

mutual

theorem count_str (j : Json) (h : j.Valid) : j.str.count '\\' = backslashes j.strings := by
  match j with
  | .null => decide
  | .integer i => exact count_integerText i.1
  | .real text => exact h.elim
  | .boolean true => decide
  | .boolean false => decide
  | .string s => simp [str, strings, count_quoted]
  | .object fields =>
    have hfie := count_joinFields fields h
    simp [str, strings, hfie]
  | .array items =>
    have hitm := count_joinItems items h
    simp [str, strings, hitm]

theorem count_joinFields (fields : List (Str × Json)) (h : ValidFields fields) :
    (joinFields fields).count '\\' = backslashes (fieldStrings fields) := by
  match fields with
  | [] => rfl
  | [(key, value)] =>
    have hval := count_str value h.2.2.1
    simp [joinFields, fieldStrings, count_quoted, hval]
  | (key, value) :: field :: fields =>
    have hval := count_str value h.2.2.1
    have hfie := count_joinFields (field :: fields) h.2.2.2
    rw [fieldStrings, backslashes_append, backslashes_cons, ← hfie, ← hval]
    simp [joinFields, count_quoted, Nat.add_assoc]

theorem count_joinItems (items : List Json) (h : ValidItems items) :
    (joinItems items).count '\\' = backslashes (itemStrings items) := by
  match items with
  | [] => rfl
  | [item] =>
    have hitem := count_str item h.1
    simp [joinItems, itemStrings, hitem]
  | item :: item' :: items =>
    have hitem := count_str item h.1
    have hitm := count_joinItems (item' :: items) h.2
    rw [itemStrings, backslashes_append, ← hitm, ← hitem]
    simp [joinItems]

end

/-! ## What is built -/

mutual

theorem built_of_valid (j : Json) (h : j.Valid) : j.built = j := by
  match j with
  | .null => rfl
  | .integer i => rfl
  | .real text => rfl
  | .boolean b => rfl
  | .string s => rfl
  | .object fields =>
    rw [built, builtFields_of_valid [] fields (fun _ h => nomatch h) h]
    rfl
  | .array items => rw [built, builtItems_of_valid items h]

theorem builtFields_of_valid (acc fields : List (Str × Json))
    (hacc : ∀ a ∈ acc, ∀ f ∈ fields, a.1 < f.1) (h : ValidFields fields) :
    builtFields acc fields = acc ++ fields := by
  match fields with
  | [] => simp [builtFields]
  | (key, value) :: fields =>
    have hset : SortedMap.set key value acc = acc ++ [(key, value)] :=
      SortedMap.set_append (fun a ha => hacc a ha _ mem_cons_self) value
    rw [builtFields, built_of_valid value h.2.2.1, hset,
      builtFields_of_valid (acc ++ [(key, value)]) fields ?_ h.2.2.2, append_assoc]
    · rfl
    · intro a ha f hf
      rcases mem_append.mp ha with ha | ha
      · exact hacc a ha f (mem_cons_of_mem _ hf)
      · rw [mem_singleton.mp ha]
        exact h.2.1 f hf

theorem builtItems_of_valid (items : List Json) (h : ValidItems items) :
    builtItems items = items := by
  match items with
  | [] => rfl
  | item :: items => rw [builtItems, built_of_valid item h.1, builtItems_of_valid items h.2]

end

variable {fields : List (Str × Json)} {s : Str}

theorem mem_fieldStrings : s ∈ fieldStrings fields ↔ ∃ f ∈ fields, s = f.1 ∨ s ∈ f.2.strings := by
  induction fields with
  | nil => simp [fieldStrings]
  | cons f fields ih => simp [fieldStrings, ih, or_assoc]

variable {i : LongLong}

theorem mem_fieldIntegers : i ∈ fieldIntegers fields ↔ ∃ f ∈ fields, i ∈ f.2.integers := by
  induction fields with
  | nil => simp [fieldIntegers]
  | cons f fields ih => simp [fieldIntegers, ih]

theorem backslashes_set (key : Str) (value : Json) (acc : List (Str × Json)) :
    backslashes (fieldStrings (SortedMap.set key value acc)) ≤
      key.count '\\' + backslashes value.strings + backslashes (fieldStrings acc) := by
  induction acc with
  | nil => simp [SortedMap.set, fieldStrings]
  | cons f acc ih =>
    unfold SortedMap.set
    split
    · simp only [fieldStrings, backslashes_append, backslashes_cons]
      omega
    · split
      · simp only [fieldStrings, backslashes_append, backslashes_cons]
        omega
      · simp only [fieldStrings, backslashes_append]
        omega

/-- What has been built has the strings and integers of what was read, or fewer. -/
structure Kept (ss ss' : List Str) (is is' : List LongLong) : Prop where
  strings : ∀ s ∈ ss', s ∈ ss
  backslashes : backslashes ss' ≤ backslashes ss
  integers : ∀ i ∈ is', i ∈ is

mutual

theorem kept_built (j : Json) : Kept j.strings j.built.strings j.integers j.built.integers := by
  match j with
  | .null => exact ⟨fun _ h => h, Nat.le_refl _, fun _ h => h⟩
  | .integer _ | .real _ | .boolean _ | .string _ =>
      exact ⟨fun _ h => h, Nat.le_refl _, fun _ h => h⟩
  | .object fields => exact kept_builtFields [] fields
  | .array items => exact kept_builtItems items

theorem kept_builtFields (acc fields : List (Str × Json)) :
    Kept (fieldStrings acc ++ fieldStrings fields) (fieldStrings (builtFields acc fields))
      (fieldIntegers acc ++ fieldIntegers fields) (fieldIntegers (builtFields acc fields)) := by
  match fields with
  | [] =>
    rw [builtFields, fieldStrings, fieldIntegers, append_nil, append_nil]
    exact ⟨fun _ h => h, Nat.le_refl _, fun _ h => h⟩
  | (key, value) :: fields =>
    have hval := kept_built value
    have hfie := kept_builtFields (SortedMap.set key value.built acc) fields
    have hset := backslashes_set key value.built acc
    refine ⟨fun s hs => ?_, ?_, fun i hi => ?_⟩
    · rcases mem_append.mp (hfie.strings s hs) with h | h
      · obtain ⟨f, hf, hs'⟩ := mem_fieldStrings.mp h
        rcases SortedMap.mem_set hf with rfl | hf
        · rcases hs' with rfl | hs'
          · simp [fieldStrings]
          · simp [fieldStrings, hval.strings s hs']
        · exact mem_append_left _ (mem_fieldStrings.mpr ⟨f, hf, hs'⟩)
      · simp [fieldStrings, h]
    · have := hfie.backslashes
      have := hval.backslashes
      rw [backslashes_append] at *
      rw [builtFields, fieldStrings, backslashes_append, backslashes_cons]
      omega
    · rcases mem_append.mp (hfie.integers i hi) with h | h
      · obtain ⟨f, hf, hi'⟩ := mem_fieldIntegers.mp h
        rcases SortedMap.mem_set hf with rfl | hf
        · simp [fieldIntegers, hval.integers i hi']
        · exact mem_append_left _ (mem_fieldIntegers.mpr ⟨f, hf, hi'⟩)
      · simp [fieldIntegers, h]

theorem kept_builtItems (items : List Json) :
    Kept (itemStrings items) (itemStrings (builtItems items)) (itemIntegers items)
      (itemIntegers (builtItems items)) := by
  match items with
  | [] => exact ⟨fun _ h => h, Nat.le_refl _, fun _ h => h⟩
  | item :: items =>
    have hitem := kept_built item
    have hitm := kept_builtItems items
    refine ⟨fun s hs => ?_, ?_, fun i hi => ?_⟩
    · rcases mem_append.mp hs with h | h
      · exact mem_append_left _ (hitem.strings s h)
      · exact mem_append_right _ (hitm.strings s h)
    · have := hitem.backslashes
      have := hitm.backslashes
      rw [builtItems, itemStrings, itemStrings, backslashes_append, backslashes_append]
      omega
    · rcases mem_append.mp hi with h | h
      · exact mem_append_left _ (hitem.integers i h)
      · exact mem_append_right _ (hitm.integers i h)

end

/-! ## Reading the text back -/

variable {c : Char}

theorem skipWs_of_not_space (h : isSpace c = false) (cs : Str) : skipWs (c :: cs) = c :: cs := by
  rw [skipWs, dropWhile_cons_of_neg (by rw [h]; decide)]

theorem skipWs_blank (cs : Str) : skipWs (' ' :: cs) = skipWs cs := rfl

theorem readBody_quote (cs : Str) : readBody ('"' :: cs) = .ok ([], cs) := by
  rw [readBody.eq_def]
  simp [isEos]

theorem readBody_plain (hnul : c ≠ '\x00') (hq : c ≠ '"') (hc : c ≠ '\\') (cs : Str) :
    readBody (c :: cs) = (readBody cs).map fun r => (c :: r.1, r.2) := by
  rw [readBody.eq_def]
  simp [isEos, hnul, hq, hc]

theorem readBody_unicode {h₁ h₂ h₃ h₄ : Char}
    (hhex : (isHexDigit h₁ && isHexDigit h₂ && isHexDigit h₃ && isHexDigit h₄)) (cs : Str) :
    readBody ('\\' :: 'u' :: h₁ :: h₂ :: h₃ :: h₄ :: cs) =
      (readBody cs).map fun r => ('\\' :: 'u' :: h₁ :: h₂ :: h₃ :: h₄ :: r.1, r.2) := by
  rw [readBody.eq_def]
  simp only [hhex]
  rfl

theorem readBody_literal (hs : isLiteral s) (hnul : '\x00' ∉ s) (rest : Str) :
    readBody (s ++ '"' :: rest) = .ok (s, rest) := by
  fun_induction isLiteral s with
  | case1 => exact readBody_quote rest
  | case2 h₁ h₂ h₃ h₄ s ih =>
    rw [Bool.and_eq_true] at hs
    simp only [mem_cons, not_or] at hnul
    have hread := ih hs.2 hnul.2.2.2.2.2.2
    simp only [cons_append]
    rw [readBody_unicode hs.1, hread]
    rfl
  | case3 c s hnot ih =>
    rw [Bool.and_eq_true, Bool.and_eq_true, bne_iff_ne, bne_iff_ne] at hs
    rw [mem_cons, not_or] at hnul
    have hread := ih hs.2 hnul.2
    rw [cons_append, readBody_plain (Ne.symm hnul.1) hs.1.1 hs.1.2, hread]
    rfl

theorem parseString_quoted (hs : isLiteral s) (hnul : '\x00' ∉ s) (rest : Str) :
    parseString (quoted s ++ rest) = .ok (s, rest) := by
  have hskip : skipWs (quoted s ++ rest) = '"' :: (s ++ '"' :: rest) := by
    rw [quoted, cons_append, cons_append, append_assoc]
    rfl
  unfold parseString
  rw [hskip]
  exact readBody_literal hs hnul rest

theorem integerText_eq_cons (i : Int) : ∃ c cs, integerText i = c :: cs ∧
    (c = '-' ∨ c.isDigit) := by
  cases i with
  | negSucc n => exact ⟨'-', _, rfl, Or.inl rfl⟩
  | ofNat n =>
    cases h : Nat.toDigits 10 n with
    | nil => exact absurd h Nat.toDigits_ne_nil
    | cons c cs =>
      have hc : c ∈ Nat.toDigits 10 n := by rw [h]; exact mem_cons_self ..
      exact ⟨c, cs, h, Or.inr (isDigit_of_mem_toDigits hc)⟩

variable {rest : Str}

theorem strtoll_integerText (hrest : endsNumber (current rest)) (i : Int) :
    strtoll (integerText i ++ rest) = some (i, rest) := by
  cases i with
  | negSucc n =>
    show (readDigits (Nat.toDigits 10 (n + 1) ++ rest)).map _ = _
    rw [readDigits_toDigits hrest]
    rfl
  | ofNat n =>
    have hcur : current (Nat.toDigits 10 n ++ rest) ≠ '-' := by
      cases h : Nat.toDigits 10 n with
      | nil => exact absurd h Nat.toDigits_ne_nil
      | cons c cs =>
        have hc : c ∈ Nat.toDigits 10 n := by rw [h]; exact mem_cons_self ..
        rintro rfl
        exact absurd (isDigit_of_mem_toDigits hc) (by decide)
    rw [integerText, strtoll, if_neg hcur, readDigits_toDigits hrest]
    rfl

theorem parseNumber_integerText {strtod : Strtod} {erange : Bool}
    (hrest : endsNumber (current rest)) (hi : erange → isExtreme i = false) :
    parseNumber strtod erange (integerText i.1 ++ rest) = .ok (.integer i, rest, erange) := by
  have hextr : ¬(erange && isExtreme i) := by
    rw [Bool.and_eq_true]
    rintro ⟨he, hext⟩
    rw [hi he] at hext
    cases hext
  rw [parseNumber, strtoll_integerText hrest]
  simp only [i.2, and_self, dif_pos]
  rw [if_neg hextr, if_neg (of_endsNumber hrest).2, if_pos hrest]

variable {j : Json}

section Read

variable {strtod : Strtod} {erange : Bool}

theorem ne_of_isDigit {d : Char} (hc : c.isDigit) (hd : d.isDigit = false) : c ≠ d := by
  rintro rfl
  rw [hd] at hc
  cases hc

theorem not_space_of_isDigit (h : c.isDigit) : isSpace c = false := by
  simp [isSpace, ne_of_isDigit h]

/-- The first character of a value is neither whitespace nor a closing bracket. -/
def starts (c : Char) : Bool := !isSpace c && c != ']' && !isEos c

theorem starts_number (h : c = '-' ∨ c.isDigit) : starts c := by
  rcases h with rfl | h
  · rfl
  · simp [starts, not_space_of_isDigit h, ne_of_isDigit h, isEos]

theorem of_starts (h : starts c) : isSpace c = false ∧ c ≠ ']' ∧ isEos c = false := by
  simpa [starts, and_assoc] using h

theorem str_eq_cons (h : j.Valid) : ∃ c cs, j.str = c :: cs ∧ starts c := by
  cases j with
  | integer i =>
    obtain ⟨c, cs, hc, hdig⟩ := integerText_eq_cons i.1
    exact ⟨c, cs, hc, starts_number hdig⟩
  | real text => exact h.elim
  | boolean b => cases b <;> exact ⟨_, _, rfl, rfl⟩
  | null | string _ | object _ | array _ => exact ⟨_, _, rfl, rfl⟩

theorem parseValue_cons (hc : isSpace c = false) (n : Nat) (cs : Str) :
    parseValue strtod (n + 1) erange (c :: cs) = if isEos c then .error (.thrown .invalidStream)
      else if c = '{' then parseObject strtod n erange cs
      else if c = '[' then parseArray strtod n erange cs
      else if c = '"' then (parseString (c :: cs)).map fun r => ([.string r.1], r.2, erange)
      else if c = '-' || c.isDigit || c = '.' then
        (parseNumber strtod erange (c :: cs)).map fun r => ([r.1], r.2)
      else if c = 't' then
        (compareString .boolString ['r', 'u', 'e'] cs).map fun r => ([.bool true], r, erange)
      else if c = 'f' then
        (compareString .boolString ['a', 'l', 's', 'e'] cs).map fun r => ([.bool false], r, erange)
      else if c = 'n' then
        (compareString .nullCharacter ['u', 'l', 'l'] cs).map fun r => ([.null], r, erange)
      else .error (.thrown .unknownType) := by
  rw [parseValue, skipWs_of_not_space hc]
  rfl

theorem parseValue_null (n : Nat) (rest : Str) :
    parseValue strtod (n + 1) erange (['n', 'u', 'l', 'l'] ++ rest) =
      .ok ([.null], rest, erange) := by
  rfl

theorem parseValue_boolean (b : Bool) (n : Nat) (rest : Str) :
    parseValue strtod (n + 1) erange ((Json.boolean b).str ++ rest) =
      .ok ([.bool b], rest, erange) := by
  cases b with
  | true => rfl
  | false => rfl

theorem parseValue_integerText (hrest : endsNumber (current rest))
    (hi : erange → isExtreme i = false) (n : Nat) :
    parseValue strtod (n + 1) erange (integerText i.1 ++ rest) =
      .ok ([.integer i], rest, erange) := by
  have hnum : parseNumber strtod erange (integerText i.1 ++ rest) =
      .ok (.integer i, rest, erange) :=
    parseNumber_integerText hrest hi
  obtain ⟨c, cs, hcs, hc⟩ := integerText_eq_cons i.1
  rw [hcs, cons_append] at hnum ⊢
  rcases hc with rfl | hc
  · rw [parseValue_cons (by decide), hnum]
    rfl
  · rw [parseValue_cons (not_space_of_isDigit hc), hnum]
    simp [isEos, ne_of_isDigit hc, hc, Except.map]

theorem joinFields_eq_cons (h : fields ≠ []) : ∃ cs, joinFields fields = '"' :: cs := by
  match fields with
  | [] => exact absurd rfl h
  | [(key, value)] => exact ⟨_, rfl⟩
  | (key, value) :: field :: fields => exact ⟨_, rfl⟩

theorem parseObject_of_members {n : Nat}
    (hmbs : fields ≠ [] → parseMembers strtod n erange (joinFields fields ++ '}' :: rest) =
      .ok (fieldEvents fields, '}' :: rest, erange)) :
    parseObject strtod (n + 1) erange (joinFields fields ++ '}' :: rest) =
      .ok (events (.object fields), rest, erange) := by
  by_cases hne : fields = []
  · subst hne
    rfl
  · obtain ⟨cs, hcs⟩ := joinFields_eq_cons hne
    have hread := hmbs hne
    rw [hcs, cons_append] at hread ⊢
    rw [parseObject, skipWs_of_not_space (by decide)]
    rw [hread]
    rfl

theorem joinItems_eq_cons {items : List Json} (h : items ≠ []) (hv : ValidItems items) :
    ∃ c cs, joinItems items = c :: cs ∧ starts c := by
  match items with
  | [] => exact absurd rfl h
  | [item] => exact str_eq_cons hv.1
  | item :: item' :: items =>
    obtain ⟨c, cs, hcs, hc⟩ := str_eq_cons hv.1
    refine ⟨c, cs ++ [',', ' '] ++ joinItems (item' :: items), ?_, hc⟩
    rw [joinItems, hcs]
    rfl

theorem parseArray_of_items {items : List Json} (hv : ValidItems items) {n : Nat}
    (hitm : items ≠ [] → parseItems strtod n erange (joinItems items ++ ']' :: rest) =
      .ok (itemEvents items, ']' :: rest, erange)) :
    parseArray strtod (n + 1) erange (joinItems items ++ ']' :: rest) =
      .ok (events (.array items), rest, erange) := by
  by_cases hne : items = []
  · subst hne
    rfl
  · obtain ⟨c, cs, hcs, hc⟩ := joinItems_eq_cons hne hv
    obtain ⟨hspc, hbra, -⟩ := of_starts hc
    have hread := hitm hne
    rw [hcs, cons_append] at hread ⊢
    rw [parseArray, skipWs_of_not_space hspc]
    show (if c = ']' then _ else parseItems strtod n erange _ >>= _) = _
    rw [if_neg hbra, hread]
    rfl

/-- Literal strings, and no integer that is taken for a failed conversion. -/
structure ReadsBack (erange : Bool) (ss : List Str) (is : List LongLong) : Prop where
  literal : ∀ s ∈ ss, isLiteral s = true
  integers : erange = true → ∀ i ∈ is, isExtreme i = false

theorem ReadsBack.split {ss ss' : List Str} {is is' : List LongLong}
    (h : ReadsBack erange (ss ++ ss') (is ++ is')) :
    ReadsBack erange ss is ∧ ReadsBack erange ss' is' :=
  ⟨⟨fun s hs => h.literal s (mem_append_left _ hs), fun he i hi =>
    h.integers he i (mem_append_left _ hi)⟩,
    ⟨fun s hs => h.literal s (mem_append_right _ hs), fun he i hi =>
      h.integers he i (mem_append_right _ hi)⟩⟩

theorem parseMembers_field {key cs : Str} (hkey : isLiteral key) (hnul : '\x00' ∉ key) {n : Nat}
    (hval : parseValue strtod n erange (j.str ++ cs) = .ok (j.events, cs, erange)) :
    parseMembers strtod (n + 1) erange (quoted key ++ ':' :: ' ' :: (j.str ++ cs)) =
      if current (skipWs cs) = ',' then
        parseMembers strtod n erange (skipWs cs).tail >>= fun members =>
          .ok (.objectKey key :: j.events ++ members.1, members.2)
      else .ok (.objectKey key :: j.events, skipWs cs, erange) := by
  rw [parseMembers, parseString_quoted hkey hnul]
  show (parseValue strtod n erange (' ' :: _) >>= _) = _
  rw [← parseValue_skipWs, skipWs_blank, parseValue_skipWs, hval]
  rfl

mutual

theorem parseValue_str (j : Json) (hv : j.Valid)
    (h : ReadsBack erange j.strings j.integers) {n : Nat} (hn : 3 * j.str.length + 1 ≤ n)
    {rest : Str} (hrest : endsNumber (current rest)) :
    parseValue strtod n erange (j.str ++ rest) = .ok (j.events, rest, erange) := by
  obtain ⟨n, rfl⟩ : ∃ m, n = m + 1 := ⟨n - 1, by omega⟩
  match j with
  | .null => exact parseValue_null n rest
  | .boolean b => exact parseValue_boolean b n rest
  | .integer i => exact parseValue_integerText hrest (fun he => h.integers he i mem_cons_self) n
  | .real text => exact hv.elim
  | .string s =>
    have hread := parseString_quoted (h.literal s mem_cons_self) hv rest
    rw [str, quoted, cons_append, cons_append] at *
    rw [parseValue_cons (by decide), hread]
    rfl
  | .object fields =>
    rw [str, cons_append, length_cons, length_append] at hn
    rw [str, cons_append, cons_append, append_assoc, parseValue_cons (by decide)]
    obtain ⟨n, rfl⟩ : ∃ m, n = m + 1 := ⟨n - 1, by omega⟩
    refine parseObject_of_members fun hne => ?_
    exact parseMembers_joinFields fields hne hv h (by simp at hn; omega) rest
  | .array items =>
    rw [str, cons_append, length_cons, length_append] at hn
    rw [str, cons_append, cons_append, append_assoc, parseValue_cons (by decide)]
    obtain ⟨n, rfl⟩ : ∃ m, n = m + 1 := ⟨n - 1, by omega⟩
    refine parseArray_of_items hv fun hne => ?_
    exact parseItems_joinItems items hne hv h (by simp at hn; omega) rest

theorem parseMembers_joinFields (fields : List (Str × Json)) (hne : fields ≠ [])
    (hv : ValidFields fields) (h : ReadsBack erange (fieldStrings fields) (fieldIntegers fields))
    {n : Nat} (hn : 3 * (joinFields fields).length + 2 ≤ n) (rest : Str) :
    parseMembers strtod n erange (joinFields fields ++ '}' :: rest) =
      .ok (fieldEvents fields, '}' :: rest, erange) := by
  obtain ⟨n, rfl⟩ : ∃ m, n = m + 1 := ⟨n - 1, by omega⟩
  match fields with
  | [] => exact absurd rfl hne
  | (key, value) :: fields =>
    have hkey := h.literal key mem_cons_self
    obtain ⟨hstr, hfie⟩ := h.split
    have hval (cs : Str) (hcs : endsNumber (current cs)) := parseValue_str value hv.2.2.1
      ⟨fun s hs => hstr.literal s (mem_cons_of_mem _ hs), hstr.integers⟩ (n := n)
      (by cases fields <;> simp [joinFields] at hn <;> omega) hcs
    match fields with
    | [] =>
      have htext : joinFields [(key, value)] ++ '}' :: rest =
          quoted key ++ ':' :: ' ' :: (value.str ++ '}' :: rest) := by
        simp [joinFields]
      rw [htext, parseMembers_field hkey hv.1 (hval _ rfl), fieldEvents, fieldEvents, append_nil]
      rfl
    | field :: fields =>
      have hfie :=
        parseMembers_joinFields (field :: fields) (cons_ne_nil _ _) hv.2.2.2 hfie (n := n)
        (by simp [joinFields] at hn; omega) rest
      have htext : joinFields ((key, value) :: field :: fields) ++ '}' :: rest = quoted key ++
          ':' :: ' ' ::
            (value.str ++ ',' :: ' ' :: (joinFields (field :: fields) ++ '}' :: rest)) := by
        simp [joinFields]
      rw [htext, parseMembers_field hkey hv.1 (hval _ rfl)]
      show (parseMembers strtod n erange (' ' :: _) >>= _) = _
      rw [← parseMembers_skipWs, skipWs_blank, parseMembers_skipWs, hfie]
      rfl

theorem parseItems_joinItems (items : List Json) (hne : items ≠ []) (hv : ValidItems items)
    (h : ReadsBack erange (itemStrings items) (itemIntegers items)) {n : Nat}
    (hn : 3 * (joinItems items).length + 2 ≤ n) (rest : Str) :
    parseItems strtod n erange (joinItems items ++ ']' :: rest) =
      .ok (itemEvents items, ']' :: rest, erange) := by
  obtain ⟨n, rfl⟩ : ∃ m, n = m + 1 := ⟨n - 1, by omega⟩
  match items with
  | [] => exact absurd rfl hne
  | item :: items =>
    obtain ⟨hstr, hitm⟩ := h.split
    have hitem (cs : Str) (hcs : endsNumber (current cs)) := parseValue_str item hv.1 hstr (n := n)
      (by cases items <;> simp [joinItems] at hn <;> omega) hcs
    match items with
    | [] =>
      rw [joinItems, parseItems, hitem _ rfl, itemEvents, itemEvents, append_nil]
      rfl
    | item' :: items =>
      have hitm := parseItems_joinItems (item' :: items) (cons_ne_nil _ _) hv.2 hitm (n := n)
        (by simp [joinItems] at hn; omega) rest
      have htext : joinItems (item :: item' :: items) ++ ']' :: rest =
          item.str ++ ',' :: ' ' :: (joinItems (item' :: items) ++ ']' :: rest) := by
        simp [joinItems]
      rw [htext, parseItems, hitem _ rfl]
      show (parseItems strtod n erange (' ' :: _) >>= _) = _
      rw [← parseItems_skipWs, skipWs_blank, parseItems_skipWs, hitm]
      rfl

end

/-! ## The round trip -/

theorem parseJson_str (hj : j.Valid) (h : ReadsBack erange j.strings j.integers) :
    parseJson strtod erange j.str = .ok j.events := by
  obtain ⟨c, cs, hcs, hc⟩ := str_eq_cons hj
  obtain ⟨hspc, -, heos⟩ := of_starts hc
  have hskip : skipWs j.str = c :: cs := by rw [hcs, skipWs_of_not_space hspc]
  obtain ⟨m, hm, hroot⟩ := exists_parseValue strtod (3 * j.str.length + 3) erange j.str
  have hval : parseValue strtod m erange (j.str ++ []) = .ok (j.events, [], erange) :=
    parseValue_str j hj h (by omega) rfl
  rw [append_nil] at hval
  rw [parseJson, hroot, hval, hskip]
  show (if isEos c then _ else _) = _
  rw [heos]
  rfl

end Read

theorem literal_of_parse_str {strtod : Strtod} {erange : Bool} {s : JsonParser}
    (hj : j.Valid) (h : JsonParser.parse strtod erange s j.str = .ok j) :
    (∀ t ∈ j.strings, isLiteral t) ∧ (erange → ∀ i ∈ j.integers, isExtreme i = false) := by
  unfold JsonParser.parse at h
  split at h
  · cases h
  · rename_i calls hcal
    obtain ⟨r, rfl, hspe, herr⟩ := reads_parseJson hcal
    obtain ⟨key, hbui⟩ := foldlM_events r s
    rw [hbui] at h
    obtain rfl : r.built = j := Except.ok.inj h
    have hkept := kept_built r
    -- the strings read have at least the backslashes of those built, so none of them needs more
    have hlit : r.strings.all isLiteral := by
      by_contra hnot
      have hlt := hspe.lt (Bool.eq_false_iff.mpr hnot)
      have hle := hkept.backslashes
      rw [count_str _ hj] at hlt
      omega
    refine ⟨fun t ht => all_eq_true.mp hlit t (hkept.strings t ht), fun he i hi => ?_⟩
    have hext := all_eq_true.mp (herr he) i (hkept.integers i hi)
    simpa using hext

/-- **A value is read back from its text exactly if its strings are literal** and, while `errno` is
`ERANGE`, it has none of the integers the error check takes for a failed conversion. -/
theorem parse_str_iff (strtod : Strtod) (erange : Bool) (s : JsonParser) (j : Json) (hj : j.Valid) :
    JsonParser.parse strtod erange s j.str = .ok j ↔ (∀ t ∈ j.strings, isLiteral t = true) ∧
        (erange = true → ∀ i ∈ j.integers, isExtreme i = false) := by
  refine ⟨literal_of_parse_str hj, fun ⟨hl, hi⟩ => ?_⟩
  obtain ⟨key, hbui⟩ := foldlM_events j s
  rw [JsonParser.parse, parseJson_str hj ⟨hl, hi⟩]
  dsimp only
  rw [hbui, built_of_valid j hj]

/-- The value `{"k": [null, "\u00e9"]}`. -/
def escaped : Json :=
  .object [(['k'], .array [.null, .string ['\\', 'u', '0', '0', 'e', '9']])]

/-- It is read back, also after an earlier range error. -/
theorem parse_str_escaped : Valid escaped ∧
    JsonParser.parse ⟨fun _ => false, fun _ => false⟩ true ⟨.null, [], []⟩ (str escaped) =
      .ok escaped := by
  have hvld : Valid escaped := by simp [escaped, Valid, ValidFields, ValidItems]
  refine ⟨hvld, (parse_str_iff _ _ _ _ hvld).mpr ⟨?_, fun _ i hi => ?_⟩⟩
  · simp [escaped, strings, fieldStrings, itemStrings, isLiteral, isHexDigit]
  · simp [escaped, integers, fieldIntegers, itemIntegers] at hi

/-- The text of the string `a"b` is `"a"b"`. -/
theorem quote_not_read_back : Valid (.string ['a', '"', 'b']) ∧
      JsonParser.parse ⟨fun _ => false, fun _ => false⟩ false ⟨.null, [], []⟩
        (str (.string ['a', '"', 'b'])) ≠ .ok (.string ['a', '"', 'b']) := by
  have hvld : Valid (.string ['a', '"', 'b']) := by simp [Valid]
  refine ⟨hvld, fun h => ?_⟩
  have hlit := (literal_of_parse_str hvld h).1 _ (mem_singleton_self _)
  exact absurd hlit (by decide)

end Matador.Json
