import Matador.Json.RoundTrip
import Matador.Json.Soundness

/-!
# What the parser rejects

The parser reads every text of the grammar up to its numbers. A number is rejected if a tab or a
carriage return stands behind it, if it has an exponent but no fraction, or if the part in front of
the fraction does not fit into 64 bits. Since `errno` is never reset, a real that sets `ERANGE`
without being out of range makes it reject the numbers behind it whose value is one that a failed
conversion returns.
-/

namespace Matador.Json

open List Lib Rfc Option

/-! ## Numbers of a text -/

namespace Rfc

mutual

def Value.numbers (follow : Char) : Value → List (Number × Char)
  | .number n => [(n, follow)]
  | .array items => items.numbers
  | .object members => members.numbers
  | _ => []

def Items.numbers : Items → List (Number × Char)
  | .last _ value behind => value.numbers (current (behind.chars ++ [']']))
  | .cons _ value behind items => value.numbers (current (behind.chars ++ [','])) ++ items.numbers

def Members.numbers : Members → List (Number × Char)
  | .last _ _ _ _ value behind => value.numbers (current (behind.chars ++ ['}']))
  | .cons _ _ _ _ value behind members =>
      value.numbers (current (behind.chars ++ [','])) ++ members.numbers

end

def Document.numbers (d : Document) : List (Number × Char) :=
  d.value.numbers (current d.behind.chars)

namespace Number

variable (strtod : Strtod)

def fits (n : Number) : Prop := llongMin ≤ n.intValue ∧ n.intValue ≤ llongMax

instance (n : Number) : Decidable n.fits := inferInstanceAs (Decidable (_ ∧ _))

/-- The values that `is_error` does not tell from a failed conversion, for `strtoll`. -/
def extremeInt (n : Number) : Bool :=
  n.intValue == 0 || n.intValue == llongMax || n.intValue == llongMin

/-- The same, for `strtoll` or `strtod`. -/
def extreme (n : Number) : Bool := n.extremeInt || n.frac.isSome && strtod.extreme n.text

/-- `strtod` sets `errno`. -/
def setsErange (n : Number) : Bool := n.frac.isSome && strtod.outOfRange n.text

/-- In the range of `double`: the conversion does not end at zero or `HUGE_VAL` with a range
error. -/
def inRange (n : Number) : Prop :=
  ¬ (strtod.outOfRange n.text = true ∧ strtod.extreme n.text = true)

end Number

structure Readable (strtod : Strtod) (numbers : List (Number × Char)) : Prop where
  follow : ∀ p ∈ numbers, endsNumber p.2 = true
  fraction : ∀ p ∈ numbers, p.1.exp.isSome = true → p.1.frac.isSome = true
  fits : ∀ p ∈ numbers, p.1.fits
  errno : numbers.Pairwise fun q p => q.1.setsErange strtod = true → p.1.extreme strtod = false

end Rfc

variable {n : Number}

/-! ## The run over the numbers -/

/-- Whether the parser reads a number, and whether `errno` is `ERANGE` then. -/
def Rfc.Number.passes (strtod : Strtod) (follow : Char) (erange : Bool) (n : Number) :
    Option Bool :=
  if n.fits then
    if erange && n.extremeInt then none
    else if n.frac.isSome then
      if (erange || strtod.outOfRange n.text) && strtod.extreme n.text then none
      else if endsNumber follow then some (erange || strtod.outOfRange n.text)
      else none
    else if n.exp.isNone && endsNumber follow then some erange
    else none
  else none

def passes (strtod : Strtod) : List (Number × Char) → Bool → Option Bool
  | [], erange => some erange
  | (n, follow) :: numbers, erange => (n.passes strtod follow erange).bind (passes strtod numbers)

theorem passes_append (strtod : Strtod) (a b : List (Number × Char)) (erange : Bool) :
    passes strtod (a ++ b) erange = (passes strtod a erange).bind (passes strtod b) := by
  induction a generalizing erange with
  | nil => rfl
  | cons p a ih =>
    rw [cons_append, passes, passes, bind_assoc]
    exact congrArg _ (funext ih)

theorem passes_number {strtod : Strtod} (hrng : n.frac.isSome → n.inRange strtod) (follow : Char)
    (erange : Bool) :
    n.passes strtod follow erange =
      if n.fits ∧ (n.exp.isSome → n.frac.isSome) ∧ endsNumber follow ∧
        (erange → n.extreme strtod = false)
      then some (erange || n.setsErange strtod) else none := by
  unfold Number.passes Number.extreme Number.setsErange
  unfold Number.inRange at hrng
  by_cases hfits : n.fits
  · rw [← not_isSome]
    -- what is left is a table of truth values
    generalize n.frac.isSome = frac at *
    generalize endsNumber follow = ends at *
    cases frac <;> cases ends <;> cases erange <;> grind
  · rw [if_neg hfits, if_neg fun h => hfits h.1]

theorem passes_isSome_iff {strtod : Strtod} {numbers : List (Number × Char)}
    (hrng : ∀ p ∈ numbers, p.1.frac.isSome → p.1.inRange strtod) (erange : Bool) :
    (passes strtod numbers erange).isSome ↔
      (erange → ∀ p ∈ numbers, p.1.extreme strtod = false) ∧ Readable strtod numbers := by
  induction numbers generalizing erange with
  | nil => exact ⟨fun _ => ⟨fun _ => nofun, nofun, nofun, nofun, .nil⟩, fun _ => rfl⟩
  | cons p numbers ih =>
    obtain ⟨n, follow⟩ := p
    have hn := passes_number (hrng (n, follow) mem_cons_self) follow erange
    have htail := ih (forall_mem_cons.mp hrng).2 (erange || n.setsErange strtod)
    rw [passes, hn]
    constructor
    · intro h
      split at h
      · next hpass =>
        obtain ⟨hext, hrea⟩ := htail.mp h
        refine ⟨fun he p hp => ?_, ?_, ?_, ?_, ?_⟩
        · rcases mem_cons.mp hp with rfl | hp
          · exact hpass.2.2.2 he
          · exact hext (by simp [he]) p hp
        · exact forall_mem_cons.mpr ⟨hpass.2.2.1, hrea.follow⟩
        · exact forall_mem_cons.mpr ⟨hpass.2.1, hrea.fraction⟩
        · exact forall_mem_cons.mpr ⟨hpass.1, hrea.fits⟩
        · exact .cons (fun p hp hsets => hext (by simp [show n.setsErange strtod from hsets]) p hp)
            hrea.errno
      · cases h
    · rintro ⟨hext, hfol, hfra, hfits, herr⟩
      obtain ⟨hfol₁, hfol⟩ := forall_mem_cons.mp hfol
      obtain ⟨hfra₁, hfra⟩ := forall_mem_cons.mp hfra
      obtain ⟨hfits₁, hfits⟩ := forall_mem_cons.mp hfits
      obtain ⟨herr₁, herr⟩ := pairwise_cons.mp herr
      rw [if_pos ⟨hfits₁, hfra₁, hfol₁, fun he => hext he _ mem_cons_self⟩]
      refine htail.mpr ⟨fun he p hp => ?_, hfol, hfra, hfits, herr⟩
      rcases Bool.or_eq_true_iff.mp he with he | he
      · exact hext he p (mem_cons_of_mem _ hp)
      · exact herr₁ p hp he

/-! ## Lexemes -/

variable {c : Char}

theorem isSpace_of_isWs (h : isWs c) : isSpace c := by
  simp only [isWs, Bool.or_eq_true, beq_iff_eq] at h
  rcases h with ((rfl | rfl) | rfl) | rfl <;> rfl

theorem skipWs_ws (ws : Ws) (cs : Str) : skipWs (ws.chars ++ cs) = skipWs cs :=
  dropWhile_append_of_pos fun c hc => isSpace_of_isWs (ws.ws c hc)

theorem readBody_escape {e x : Char} (h : unescape e = some x) (cs : Str) :
    readBody ('\\' :: e :: cs) = (readBody cs).map fun r => (x :: r.1, r.2) := by
  have hu : e ≠ 'u' := by
    rintro rfl
    cases h
  rw [readBody.eq_def]
  simp only [isEos, Char.reduceBEq, Bool.false_eq_true, if_false, Char.reduceEq, if_true]
  split
  · next heq => exact absurd (cons.inj heq).1 hu
  · next heq => exact absurd (cons.inj heq).1 hu
  · next heq =>
    cases heq
    rw [h]
  · next heq => cases heq

theorem readBody_strChar (c : StrChar) (cs : Str) :
    readBody (c.text ++ cs) = (readBody cs).map fun r => (c.value ++ r.1, r.2) := by
  cases c with
  | unescaped c control quote backslash =>
    have hnul : c ≠ '\x00' := by
      rintro rfl
      exact absurd control (by decide)
    exact readBody_plain hnul quote backslash cs
  | escape e x h => exact readBody_escape h cs
  | unicode h₁ h₂ h₃ h₄ hex => exact readBody_unicode hex cs

theorem parseString_text (before : Ws) (cs : List StrChar) (rest : Str) :
    parseString (before.chars ++ (stringText cs ++ rest)) = .ok (stringValue cs, rest) := by
  have hskip : skipWs (before.chars ++ (stringText cs ++ rest)) =
      '"' :: (cs.flatMap StrChar.text ++ '"' :: rest) := by
    rw [skipWs_ws, stringText, cons_append, append_assoc]
    rfl
  have hbody : readBody (cs.flatMap StrChar.text ++ '"' :: rest) = .ok (stringValue cs, rest) := by
    induction cs with
    | nil => exact readBody_quote rest
    | cons c cs ih =>
      have hcs := ih (by rw [skipWs_ws, stringText, cons_append, append_assoc]; rfl)
      rw [flatMap_cons, append_assoc, readBody_strChar, hcs]
      rfl
  unfold parseString
  rw [hskip]
  exact hbody

variable {rest : Str}

theorem isDigit_current (d : Digits) (rest : Str) : (current (d.chars ++ rest)).isDigit := by
  obtain ⟨c, cs, hcs⟩ := exists_cons_of_ne_nil d.ne_nil
  rw [hcs]
  exact d.digit c (by simp [hcs])

theorem strtoll_number (n : Number) (hrest : (current rest).isDigit = false) :
    strtoll (n.signText ++ (n.int.chars ++ rest)) = some (n.intValue, rest) := by
  have hread := readDigits_append n.int.ne_nil n.int.digit hrest
  unfold Number.signText Number.intValue
  cases n.minus with
  | true =>
    show (readDigits (n.int.chars ++ rest)).map _ = _
    rw [hread]
    rfl
  | false =>
    have hcur : current (n.int.chars ++ rest) ≠ '-' :=
      ne_of_isDigit (isDigit_current n.int rest) (by decide)
    show strtoll (n.int.chars ++ rest) = _
    rw [strtoll, if_neg hcur, hread]
    rfl

theorem not_isDigit_of_delimits (h : delimits c) : c.isDigit = false := by
  rcases delimits_cases h with rfl | rfl | rfl | rfl | rfl | rfl | rfl | rfl <;> rfl

theorem current_exponent (e : Exponent) (rest : Str) : current (e.text ++ rest) = e.mark := rfl

theorem skipExponent_text (exp : Option Exponent) (hrest : delimits (current rest)) :
    skipExponent (exp.elim [] Exponent.text ++ rest) = rest := by
  cases exp with
  | none =>
    have hmark : ¬ (current rest = 'e' ∨ current rest = 'E') := by
      rcases delimits_cases hrest with h | h | h | h | h | h | h | h <;> (rw [h]; decide)
    exact if_neg fun h => hmark h.1
  | some e =>
    have hcur := isDigit_current e.digits rest
    have hsign :
      (if current (e.sign ++ (e.digits.chars ++ rest)) = '+' ∨
        current (e.sign ++ (e.digits.chars ++ rest)) = '-'
        then (e.sign ++ (e.digits.chars ++ rest)).tail
        else e.sign ++ (e.digits.chars ++ rest)) = e.digits.chars ++ rest := by
      rcases e.sign_eq with h | h | h
      · rw [h, nil_append, if_neg]
        exact not_or.mpr ⟨ne_of_isDigit hcur (by decide), ne_of_isDigit hcur (by decide)⟩
      · rw [h]
        rfl
      · rw [h]
        rfl
    have htext : (some e).elim [] Exponent.text ++ rest =
        e.mark :: (e.sign ++ (e.digits.chars ++ rest)) := by
      simp [Exponent.text]
    unfold skipExponent
    rw [htext, tail_cons]
    simp only [hsign]
    rw [if_pos ⟨e.mark_eq, hcur⟩]
    exact (span_append e.digits.digit (not_isDigit_of_delimits hrest)).2

/-- What a run does, if the numbers it reads pass, and if not: it makes the calls for what has been
read. -/
def Gives {α : Type} (calls : α → List Event) (read : Option α) (rest : Str)
    (r : Except ParseError Parsed) : Option Bool → Prop
  | some erange => ∃ a, read = some a ∧ r = .ok (calls a, rest, erange)
  | none => ∃ e, r = .error e

variable {strtod : Strtod}

theorem not_isDigit_behind_int (n : Number) (hrest : delimits (current rest)) :
    (current (n.fracText ++ (n.expText ++ rest))).isDigit = false ∧
    (current (n.expText ++ rest)).isDigit = false := by
  have hexp : (current (n.expText ++ rest)).isDigit = false := by
    unfold Number.expText
    cases n.exp with
    | none => exact not_isDigit_of_delimits hrest
    | some e =>
      rw [elim_some, current_exponent]
      rcases e.mark_eq with h | h <;> (rw [h]; rfl)
  refine ⟨?_, hexp⟩
  unfold Number.fracText
  cases n.frac with
  | none => exact hexp
  | some d => rfl

theorem numberText_eq_cons (n : Number) : ∃ c cs, n.text = c :: cs ∧ (c = '-' ∨ c.isDigit) := by
  unfold Number.text Number.signText
  cases n.minus with
  | true => exact ⟨_, _, rfl, .inl rfl⟩
  | false =>
    obtain ⟨c, cs, hcs⟩ := exists_cons_of_ne_nil n.int.ne_nil
    refine ⟨c, cs ++ (n.fracText ++ n.expText), ?_, .inr (n.int.digit c (by simp [hcs]))⟩
    simp [hcs]

theorem gives_number (n : Number) (erange : Bool) (hrest : delimits (current rest)) :
    Gives events n.json rest ((parseNumber strtod erange (n.text ++ rest)).map fun r =>
      ([r.1], r.2)) (n.passes strtod (current rest) erange) := by
  obtain ⟨hfrac, hexp⟩ := not_isDigit_behind_int n hrest
  have htext :
      n.text ++ rest = n.signText ++ (n.int.chars ++ (n.fracText ++ (n.expText ++ rest))) := by
    simp only [Number.text, append_assoc]
  have hread : strtoll (n.text ++ rest) = some (n.intValue, n.fracText ++ (n.expText ++ rest)) := by
    rw [htext, strtoll_number n hfrac]
  unfold parseNumber Number.passes
  rw [hread]
  dsimp only
  by_cases hfits : n.fits
  · have hfits' : llongMin ≤ n.intValue ∧ n.intValue ≤ llongMax := hfits
    rw [if_pos hfits, dif_pos hfits']
    by_cases hext : (erange && n.extremeInt)
    · rw [if_pos hext, if_pos (show (erange && isExtreme ⟨n.intValue, hfits⟩) from hext)]
      exact ⟨_, rfl⟩
    rw [if_neg hext, if_neg (show ¬ (erange && isExtreme ⟨n.intValue, hfits⟩) from hext)]
    cases hn : n.frac with
    | some d =>
      have hbhd : n.fracText ++ (n.expText ++ rest) = '.' :: (d.chars ++ (n.expText ++ rest)) := by
        simp [Number.fracText, hn]
      have hskip :
          skipExponent ((d.chars ++ (n.expText ++ rest)).dropWhile Char.isDigit) = rest := by
        rw [(span_append d.digit hexp).2]
        exact skipExponent_text n.exp hrest
      have htake : (n.text ++ rest).take ((n.text ++ rest).length - rest.length) = n.text := by
        rw [length_append, Nat.add_sub_cancel, take_left]
      have hjson : n.json = some (.real n.text) := by simp [Number.json, hn]
      have hpnt : current ('.' :: (d.chars ++ (n.expText ++ rest))) = '.' := rfl
      rw [hbhd, if_pos hpnt, tail_cons, hskip, htake]
      split
      · exact ⟨_, rfl⟩
      · split
        · exact ⟨_, hjson, rfl⟩
        · exact ⟨_, rfl⟩
    | none =>
      have hbhd : n.fracText ++ (n.expText ++ rest) = n.expText ++ rest := by
        simp [Number.fracText, hn]
      rw [hbhd]
      cases he : n.exp with
      | some e =>
        have hcur : current (n.expText ++ rest) = e.mark := by
          simp [Number.expText, he, current_exponent]
        rw [hcur]
        have hmark : e.mark ≠ '.' ∧ endsNumber e.mark = false := by
          rcases e.mark_eq with h | h <;> (rw [h]; decide)
        rw [if_neg hmark.1, if_neg (by rw [hmark.2]; decide)]
        exact ⟨_, rfl⟩
      | none =>
        have hcur : n.expText ++ rest = rest := by simp [Number.expText, he]
        have hjson : n.json = some (.integer ⟨n.intValue, hfits⟩) := by
          simp only [Number.json, hn, he, isNone_none, and_self, if_true, dif_pos hfits']
        have hpnt : current rest ≠ '.' := by
          rcases delimits_cases hrest with h | h | h | h | h | h | h | h <;> (rw [h]; decide)
        rw [hcur, if_neg hpnt]
        simp only [isNone_none, Bool.true_and]
        split
        · exact ⟨_, hjson, rfl⟩
        · exact ⟨_, rfl⟩
  · rw [if_neg hfits, dif_neg (show ¬ (llongMin ≤ n.intValue ∧ n.intValue ≤ llongMax) from hfits)]
    exact ⟨_, rfl⟩

/-! ## Values -/

section Gives

variable {α β : Type} {calls : α → List Event} {calls' : β → List Event} {read : Option α}
  {rest' : Str} {r : Except ParseError Parsed} {o : Option Bool}
  {f : Parsed → Except ParseError Parsed}

theorem Gives.bind {k : α → Option β} {g : Bool → Option Bool} (h : Gives calls read rest r o)
    (hf : ∀ a e, Gives calls' (k a) rest' (f (calls a, rest, e)) (g e)) :
    Gives calls' (read.bind k) rest' (r >>= f) (o.bind g) := by
  cases o with
  | none =>
    obtain ⟨e, rfl⟩ := h
    exact ⟨e, rfl⟩
  | some e =>
    obtain ⟨a, rfl, rfl⟩ := h
    exact hf a e

theorem Gives.map {k : α → β} (h : Gives calls read rest r o)
    (hf : ∀ a e, f (calls a, rest, e) = .ok (calls' (k a), rest', e)) :
    Gives calls' (read.map k) rest' (r >>= f) o := by
  rw [map_eq_bind, ← bind_fun_some o]
  exact h.bind fun a e => ⟨k a, rfl, hf a e⟩

end Gives

theorem parseValue_ws (n : Nat) (erange : Bool) (ws : Ws) (cs : Str) :
    parseValue strtod n erange (ws.chars ++ cs) = parseValue strtod n erange cs := by
  rw [← parseValue_skipWs, skipWs_ws, parseValue_skipWs]

theorem text_eq_cons (v : Value) : ∃ c cs, v.text = c :: cs ∧ isSpace c = false ∧ c ≠ ']' ∧
    isEos c = false := by
  suffices h : ∃ c cs, v.text = c :: cs ∧ starts c by
    obtain ⟨c, cs, hcs, hc⟩ := h
    exact ⟨c, cs, hcs, of_starts hc⟩
  cases v with
  | boolean b => cases b <;> exact ⟨_, _, rfl, rfl⟩
  | number n =>
    obtain ⟨c, cs, hcs, hc⟩ := numberText_eq_cons n
    exact ⟨c, cs, hcs, starts_number hc⟩
  | null | string _ | emptyArray _ | array _ | emptyObject _ | object _ => exact ⟨_, _, rfl, rfl⟩

theorem skipWs_mark (ws : Ws) (hc : isSpace c = false) (rest : Str) :
    skipWs (ws.chars ++ c :: rest) = c :: rest := by
  rw [skipWs_ws, skipWs_of_not_space hc]

theorem delimits_mark (ws : Ws) (hc : delimits c) (rest : Str) :
    delimits (current (ws.chars ++ c :: rest)) := delimits_ws ws hc

theorem current_mark (cs : Str) (c : Char) (rest : Str) :
    current (cs ++ c :: rest) = current (cs ++ [c]) := by
  cases cs <;> rfl

theorem current_cons (c : Char) (cs : Str) : current (c :: cs) = c := rfl

theorem parseMembers_key (n : Nat) (erange : Bool) (before : Ws) (key : List StrChar)
    (beforeColon behindColon : Ws) (cs : Str) :
    parseMembers strtod (n + 1) erange
        (before.chars ++
          (stringText key ++ (beforeColon.chars ++ ':' :: (behindColon.chars ++ cs)))) =
      parseValue strtod n erange cs >>= fun value =>
        if current (skipWs value.2.1) = ',' then
          parseMembers strtod n value.2.2 (skipWs value.2.1).tail >>= fun members =>
            .ok (.objectKey (stringValue key) :: value.1 ++ members.1, members.2)
        else .ok (.objectKey (stringValue key) :: value.1, skipWs value.2.1, value.2.2) := by
  rw [parseMembers, parseString_text]
  show (if isEos (current (skipWs (beforeColon.chars ++ _))) then _ else _) = _
  rw [skipWs_mark beforeColon (by decide), current_cons, if_neg (by decide), if_pos rfl, tail_cons,
    parseValue_ws]

theorem gives_numberValue (m : Number) (n : Nat) (erange : Bool) (hrest : delimits (current rest)) :
    Gives events m.json rest (parseValue strtod (n + 1) erange (m.text ++ rest))
      (passes strtod [(m, current rest)] erange) := by
  have hnum : Gives _ _ _ _ (m.passes strtod _ _) := gives_number m erange hrest
  have hpas : passes strtod [(m, current rest)] erange = m.passes strtod (current rest) erange := by
    exact bind_fun_some _
  obtain ⟨c, cs, hcs, hc⟩ := numberText_eq_cons m
  rw [hpas]
  rw [hcs, cons_append] at hnum ⊢
  rcases hc with rfl | hc
  · rw [parseValue_cons (by decide)]
    exact hnum
  · rw [parseValue_cons (not_space_of_isDigit hc)]
    simpa [isEos, ne_of_isDigit hc, hc] using hnum

theorem gives_array {items : Items} {n : Nat} {erange : Bool}
    (h : Gives itemEvents items.json (']' :: rest)
      (parseItems strtod n erange (items.text ++ ']' :: rest))
      (passes strtod items.numbers erange)) :
    Gives events (Value.array items).json rest
      (parseArray strtod (n + 1) erange (items.text ++ ']' :: rest))
      (passes strtod items.numbers erange) := by
  have hcur : current (skipWs (items.text ++ ']' :: rest)) ≠ ']' := by
    have hval (before : Ws) (v : Value) (cs : Str) :
        current (skipWs (before.chars ++ (v.text ++ cs))) ≠ ']' := by
      obtain ⟨c, cs', hcs, hspc, hc, -⟩ := text_eq_cons v
      rw [hcs, cons_append, skipWs_mark before hspc]
      exact hc
    cases items with
    | last _ _ _ | cons _ _ _ _ =>
      rw [Items.text, append_assoc, append_assoc]
      exact hval _ _ _
  rw [parseArray]
  rw [if_neg hcur, parseItems_skipWs]
  exact h.map fun a e => rfl

theorem gives_object {members : Members} {n : Nat} {erange : Bool}
    (h : Gives fieldEvents members.json ('}' :: rest)
      (parseMembers strtod n erange (members.text ++ '}' :: rest))
      (passes strtod members.numbers erange)) :
    Gives events (Value.object members).json rest
      (parseObject strtod (n + 1) erange (members.text ++ '}' :: rest))
      (passes strtod members.numbers erange) := by
  have hcur : current (skipWs (members.text ++ '}' :: rest)) ≠ '}' := by
    have hkey (before : Ws) (key : List StrChar) (cs : Str) :
        current (skipWs (before.chars ++ (stringText key ++ cs))) = '"' := by
      rw [stringText, cons_append, skipWs_mark before (by decide)]
      rfl
    cases members with
    | last _ _ _ _ _ _ | cons _ _ _ _ _ _ _ =>
      rw [Members.text, append_assoc, append_assoc, hkey]
      decide
  rw [parseObject]
  rw [if_neg hcur, parseMembers_skipWs]
  exact h.map fun a e => rfl

mutual

theorem gives_value (v : Value) {n : Nat} (hn : 3 * v.text.length + 1 ≤ n)
    (erange : Bool) {rest : Str} (hrest : delimits (current rest)) :
    Gives events v.json rest (parseValue strtod n erange (v.text ++ rest))
      (passes strtod (v.numbers (current rest)) erange) := by
  obtain ⟨n, rfl⟩ : ∃ m, n = m + 1 := ⟨n - 1, by omega⟩
  match v with
  | .null => exact ⟨_, rfl, parseValue_null n rest⟩
  | .boolean true => exact ⟨_, rfl, parseValue_boolean true n rest⟩
  | .boolean false => exact ⟨_, rfl, parseValue_boolean false n rest⟩
  | .number m => exact gives_numberValue m n erange hrest
  | .string cs =>
    have hread := parseString_text ⟨[], nofun⟩ cs rest
    rw [nil_append, stringText, cons_append] at hread
    refine ⟨_, rfl, ?_⟩
    show parseValue strtod (n + 1) erange (stringText cs ++ rest) = _
    rw [stringText, cons_append, parseValue_cons (by decide), hread]
    rfl
  | .emptyArray ws =>
    obtain ⟨n, rfl⟩ : ∃ m, n = m + 1 := ⟨n - 1, by simp [Value.text] at hn; omega⟩
    refine ⟨_, rfl, ?_⟩
    show parseValue strtod (n + 2) erange ('[' :: (ws.chars ++ [']'] ++ rest)) = _
    rw [parseValue_cons (by decide), append_assoc]
    show parseArray strtod (n + 1) erange (ws.chars ++ ']' :: rest) = _
    rw [parseArray, skipWs_mark ws (by decide)]
    rfl
  | .array items =>
    simp only [Value.text, length_cons, length_append, length_nil] at hn
    obtain ⟨n, rfl⟩ : ∃ m, n = m + 1 := ⟨n - 1, by omega⟩
    rw [Value.text, cons_append, append_assoc, parseValue_cons (by decide)]
    exact gives_array (gives_items items (by omega) erange rest)
  | .emptyObject ws =>
    obtain ⟨n, rfl⟩ : ∃ m, n = m + 1 := ⟨n - 1, by simp [Value.text] at hn; omega⟩
    refine ⟨_, rfl, ?_⟩
    show parseValue strtod (n + 2) erange ('{' :: (ws.chars ++ ['}'] ++ rest)) = _
    rw [parseValue_cons (by decide), append_assoc]
    show parseObject strtod (n + 1) erange (ws.chars ++ '}' :: rest) = _
    rw [parseObject, skipWs_mark ws (by decide)]
    rfl
  | .object members =>
    simp only [Value.text, length_cons, length_append, length_nil] at hn
    obtain ⟨n, rfl⟩ : ∃ m, n = m + 1 := ⟨n - 1, by omega⟩
    rw [Value.text, cons_append, append_assoc, parseValue_cons (by decide)]
    exact gives_object (gives_members members (by omega) erange rest)

theorem gives_items (items : Items) {n : Nat} (hn : 3 * items.text.length + 2 ≤ n) (erange : Bool)
    (rest : Str) :
    Gives itemEvents items.json (']' :: rest)
      (parseItems strtod n erange (items.text ++ ']' :: rest))
      (passes strtod items.numbers erange) := by
  obtain ⟨n, rfl⟩ : ∃ m, n = m + 1 := ⟨n - 1, by omega⟩
  match items with
  | .last before v behind =>
    simp only [Items.text, length_append] at hn
    have hval := gives_value v (n := n) (by omega) erange
      (delimits_mark behind (show delimits ']' from rfl) rest)
    rw [current_mark] at hval
    rw [Items.text, append_assoc, append_assoc, parseItems, parseValue_ws,
      Items.numbers, Items.json]
    refine hval.map fun j e => ?_
    dsimp only
    rw [skipWs_mark behind (by decide), itemEvents, itemEvents, append_nil]
    rfl
  | .cons before v behind items =>
    simp only [Items.text, length_append, length_cons] at hn
    have hval := gives_value v (n := n) (by omega) erange
      (delimits_mark behind (show delimits ',' from rfl) (items.text ++ ']' :: rest))
    rw [current_mark] at hval
    rw [Items.text, append_assoc, append_assoc, append_assoc, cons_append, parseItems,
      parseValue_ws, Items.numbers, passes_append, Items.json]
    refine hval.bind fun j e => ?_
    dsimp only
    rw [skipWs_mark behind (by decide), current_cons, if_pos rfl]
    exact (gives_items items (by omega) e rest).map fun js e => rfl

theorem gives_members (members : Members) {n : Nat} (hn : 3 * members.text.length + 2 ≤ n)
    (erange : Bool) (rest : Str) :
    Gives fieldEvents members.json ('}' :: rest)
      (parseMembers strtod n erange (members.text ++ '}' :: rest))
      (passes strtod members.numbers erange) := by
  obtain ⟨n, rfl⟩ : ∃ m, n = m + 1 := ⟨n - 1, by omega⟩
  match members with
  | .last before key beforeColon behindColon v behind =>
    simp only [Members.text, length_append, length_cons] at hn
    have hval := gives_value v (n := n) (by omega) erange
      (delimits_mark behind (show delimits '}' from rfl) rest)
    rw [current_mark] at hval
    simp only [Members.text, append_assoc, cons_append]
    rw [parseMembers_key, Members.numbers, Members.json]
    refine hval.map fun j e => ?_
    dsimp only
    rw [skipWs_mark behind (by decide), fieldEvents, fieldEvents, append_nil]
    rfl
  | .cons before key beforeColon behindColon v behind members =>
    simp only [Members.text, length_append, length_cons] at hn
    have hval := gives_value v (n := n) (by omega) erange
      (delimits_mark behind (show delimits ',' from rfl) (members.text ++ '}' :: rest))
    rw [current_mark] at hval
    simp only [Members.text, append_assoc, cons_append]
    rw [parseMembers_key, Members.numbers, passes_append, Members.json]
    refine hval.bind fun j e => ?_
    dsimp only
    rw [skipWs_mark behind (by decide), current_cons, if_pos rfl]
    exact (gives_members members (by omega) e rest).map fun fields e => rfl

end

/-! ## Documents -/

theorem gives_document (strtod : Strtod) (erange : Bool) (d : Document) :
    ((passes strtod d.numbers erange).isSome ∧
        ∃ j, d.value.json = some j ∧ parseJson strtod erange d.text = .ok (events j)) ∨
      (passes strtod d.numbers erange).isSome = false ∧
      ∃ e, parseJson strtod erange d.text = .error e := by
  have hbhd : delimits (current d.behind.chars) := by
    rw [← append_nil d.behind.chars]
    exact delimits_ws d.behind rfl
  obtain ⟨m, hm, hval⟩ := exists_parseValue strtod (3 * d.text.length + 3) erange d.text
  have hlen : 3 * d.value.text.length + 1 ≤ m := by
    simp only [Document.text, length_append] at hm
    omega
  have hroot : Gives _ _ _ _ (passes strtod _ _) := gives_value d.value hlen erange hbhd
  rw [← parseValue_ws m erange d.before, ← Document.text, ← hval] at hroot
  have heos : ¬ isEos (current (skipWs d.text)) := by
    obtain ⟨c, cs, hcs, hspc, -, heos⟩ := text_eq_cons d.value
    rw [Document.text, hcs, cons_append, skipWs_mark d.before hspc]
    exact Bool.eq_false_iff.mp heos
  have hend : isEos (current (skipWs d.behind.chars)) := by
    rw [← append_nil d.behind.chars, skipWs_ws]
    rfl
  unfold parseJson
  rw [if_neg heos]
  unfold Document.numbers
  cases hpas : passes strtod (d.value.numbers (current d.behind.chars)) erange with
  | none =>
    rw [hpas] at hroot
    obtain ⟨e, he⟩ := hroot
    refine .inr ⟨rfl, e, ?_⟩
    rw [he]
    rfl
  | some _ =>
    rw [hpas] at hroot
    obtain ⟨j, hj, hroot⟩ := hroot
    refine .inl ⟨rfl, j, hj, ?_⟩
    rw [hroot]
    show (if isEos (current (skipWs d.behind.chars)) then _ else _) = _
    rw [if_pos hend]

theorem parse_ok_iff_passes (strtod : Strtod) (erange : Bool) (s : JsonParser)
    {d : Document} {j : Json} (hj : d.value.json = some j) :
    s.parse strtod erange d.text = .ok j.built ↔ (passes strtod d.numbers erange).isSome := by
  unfold JsonParser.parse
  rcases gives_document strtod erange d with ⟨hpas, j', hj', hpar⟩ | ⟨hpas, e, hpar⟩
  · obtain rfl : j' = j := some.inj (hj'.symm.trans hj)
    obtain ⟨key, hbui⟩ := foldlM_events j' s
    rw [hpar, hpas]
    dsimp only
    rw [hbui]
    exact ⟨fun _ => rfl, fun _ => rfl⟩
  · rw [hpar, hpas]
    exact ⟨nofun, nofun⟩

theorem accepts_iff_readable (strtod : Strtod) (erange : Bool) (s : JsonParser) (d : Document)
    (hrng : ∀ p ∈ d.numbers, p.1.frac.isSome → p.1.inRange strtod) :
    (∃ j, s.parse strtod erange d.text = .ok j) ↔
      (erange → ∀ p ∈ d.numbers, p.1.extreme strtod = false) ∧ Readable strtod d.numbers := by
  have hpas := passes_isSome_iff hrng erange
  constructor
  · rintro ⟨j, hj⟩
    rcases gives_document strtod erange d with ⟨hsome, -⟩ | ⟨-, e, hpar⟩
    · exact hpas.mp hsome
    · rw [JsonParser.parse, hpar] at hj
      cases hj
  · intro hrea
    rcases gives_document strtod erange d with ⟨hsome, j, hj, -⟩ | ⟨hnone, -⟩
    · exact ⟨_, (parse_ok_iff_passes strtod erange s hj).mpr hsome⟩
    · rw [hpas.mpr hrea] at hnone
      cases hnone

/-! ## Whitespace -/

namespace Rfc

mutual

def Value.bare : Value → Value
  | .emptyArray _ => .emptyArray ⟨[], nofun⟩
  | .array items => .array items.bare
  | .emptyObject _ => .emptyObject ⟨[], nofun⟩
  | .object members => .object members.bare
  | v => v

def Items.bare : Items → Items
  | .last _ value _ => .last ⟨[], nofun⟩ value.bare ⟨[], nofun⟩
  | .cons _ value _ items => .cons ⟨[], nofun⟩ value.bare ⟨[], nofun⟩ items.bare

def Members.bare : Members → Members
  | .last _ key _ _ value _ => .last ⟨[], nofun⟩ key ⟨[], nofun⟩ ⟨[], nofun⟩ value.bare ⟨[], nofun⟩
  | .cons _ key _ _ value _ members =>
    .cons ⟨[], nofun⟩ key ⟨[], nofun⟩ ⟨[], nofun⟩ value.bare ⟨[], nofun⟩ members.bare

end

mutual

theorem Value.json_bare (v : Value) : v.bare.json = v.json := by
  match v with
  | .array items => rw [Value.bare, Value.json, Value.json, items.json_bare]
  | .object members => rw [Value.bare, Value.json, Value.json, members.json_bare]
  | .null | .boolean _ | .number _ | .string _ | .emptyArray _ | .emptyObject _ => rfl

theorem Items.json_bare (items : Items) : items.bare.json = items.json := by
  match items with
  | .last _ v _ => rw [Items.bare, Items.json, Items.json, v.json_bare]
  | .cons _ v _ items => rw [Items.bare, Items.json, Items.json, v.json_bare, items.json_bare]

theorem Members.json_bare (members : Members) : members.bare.json = members.json := by
  match members with
  | .last _ _ _ _ v _ => rw [Members.bare, Members.json, Members.json, v.json_bare]
  | .cons _ _ _ _ v _ members =>
      rw [Members.bare, Members.json, Members.json, v.json_bare, members.json_bare]

end

mutual

theorem Value.numbers_bare (v : Value) (c c' : Char) :
    (v.bare.numbers c).map Prod.fst = (v.numbers c').map Prod.fst := by
  match v with
  | .array items => exact items.numbers_bare
  | .object members => exact members.numbers_bare
  | .null | .boolean _ | .number _ | .string _ | .emptyArray _ | .emptyObject _ => rfl

theorem Items.numbers_bare (items : Items) :
    items.bare.numbers.map Prod.fst = items.numbers.map Prod.fst := by
  match items with
  | .last _ v _ => exact v.numbers_bare _ _
  | .cons _ v _ items =>
    rw [Items.bare, Items.numbers, Items.numbers, map_append, map_append, items.numbers_bare]
    exact congrArg (· ++ _) (v.numbers_bare _ _)

theorem Members.numbers_bare (members : Members) :
    members.bare.numbers.map Prod.fst = members.numbers.map Prod.fst := by
  match members with
  | .last _ _ _ _ v _ => exact v.numbers_bare _ _
  | .cons _ _ _ _ v _ members =>
    rw [Members.bare, Members.numbers, Members.numbers, map_append, map_append,
      members.numbers_bare]
    exact congrArg (· ++ _) (v.numbers_bare _ _)

end

theorem Document.numbers_of_bare {d d' : Document} (h : d.value.bare = d'.value.bare) :
    d.numbers.map Prod.fst = d'.numbers.map Prod.fst := by
  unfold Document.numbers
  rw [← d.value.numbers_bare '\x00', ← d'.value.numbers_bare '\x00', h]

end Rfc

/-- **A text is read as the value of its tokens if and only if its numbers are readable**, with
whatever whitespace stands between the tokens: `d'` has the tokens of `d`, whose value is `j`. -/
theorem parse_iff_readable (strtod : Strtod) (s : JsonParser) (d d' : Document)
    (hsame : d'.value.bare = d.value.bare) (j : Json) (hj : d.value.json = some j)
    (hrange : ∀ p ∈ d.numbers, p.1.frac.isSome = true → p.1.inRange strtod) :
    s.parse strtod false d'.text = .ok j.built ↔ Readable strtod d'.numbers := by
  have hj' : d'.value.json = some j := by rw [← Value.json_bare, hsame, Value.json_bare, hj]
  have hrange' : ∀ p ∈ d'.numbers, p.1.frac.isSome → p.1.inRange strtod := by
    intro p hp
    have hmem : p.1 ∈ d.numbers.map Prod.fst := by
      rw [← Document.numbers_of_bare hsame]
      exact mem_map_of_mem hp
    obtain ⟨q, hq, hqp⟩ := mem_map.mp hmem
    rw [← hqp]
    exact hrange q hq
  rw [parse_ok_iff_passes strtod false s hj', passes_isSome_iff hrange']
  exact ⟨fun h => h.2, fun h => ⟨nofun, h⟩⟩

def numberOne : Number := ⟨false, ⟨['1'], by decide, all_eq_true.mp rfl⟩, by decide, none, none⟩

def arrayOne (before behind : Ws) : Document :=
  ⟨⟨[], nofun⟩, .array (.last before (.number numberOne) behind), ⟨[], nofun⟩⟩

/-- `[1]` and `[ 1\n]` are read as the same value. -/
theorem parse_arrayOne : (arrayOne ⟨[], nofun⟩ ⟨[], nofun⟩).text = ['[', '1', ']'] ∧
    freshParser.parse inRange false ['[', '1', ']'] = .ok (.array [.integer ⟨1, by decide⟩]) ∧
    freshParser.parse inRange false ['[', ' ', '1', '\n', ']'] =
      .ok (.array [.integer ⟨1, by decide⟩]) := by
  have hnum (before behind : Ws) :
      (arrayOne before behind).numbers = [(numberOne, current (behind.chars ++ [']']))] := rfl
  have hread (before behind : Ws) (h : endsNumber (current (behind.chars ++ [']']))) :=
    (parse_iff_readable inRange freshParser (arrayOne ⟨[], nofun⟩ ⟨[], nofun⟩)
      (arrayOne before behind) rfl
      (.array [.integer ⟨1, by decide⟩]) rfl (by rw [hnum]; simp [numberOne])).mpr
      (by
        rw [hnum]
        refine ⟨?_, ?_, ?_, pairwise_singleton _ _⟩
        · simpa using h
        · simp [numberOne]
        · simp only [mem_singleton, forall_eq]
          decide)
  exact ⟨rfl, hread ⟨[], nofun⟩ ⟨[], nofun⟩ rfl,
    hread ⟨[' '], all_eq_true.mp rfl⟩ ⟨['\n'], all_eq_true.mp rfl⟩ rfl⟩

/-- A tab behind the number: `[1\t]` has the tokens of `[1]`, which is read, and is rejected. -/
theorem tab_behind_number_rejected :
    (arrayOne ⟨[], nofun⟩ ⟨['\t'], all_eq_true.mp rfl⟩).text = ['[', '1', '\t', ']'] ∧
      (arrayOne ⟨[], nofun⟩ ⟨['\t'], all_eq_true.mp rfl⟩).value.bare =
        (arrayOne ⟨[], nofun⟩ ⟨[], nofun⟩).value.bare ∧
      (arrayOne ⟨[], nofun⟩ ⟨['\t'], all_eq_true.mp rfl⟩).value.json =
        some (.array [.integer ⟨1, by decide⟩]) ∧
      freshParser.parse inRange false ['[', '1', ']'] = .ok (.array [.integer ⟨1, by decide⟩]) ∧
      freshParser.parse inRange false ['[', '1', '\t', ']'] =
        .error (.parser (.thrown .invalidCharacter)) :=
  ⟨rfl, rfl, rfl, rfl, rfl⟩

end Matador.Json
