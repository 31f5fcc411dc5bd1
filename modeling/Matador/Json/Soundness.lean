import Matador.Json.Grammar
import Matador.Json.Reading

/-!
# What the parser accepts

The parser accepts more than the grammar of RFC 8259: an unclosed string at the end of the text,
control characters in strings, leading zeros, empty fractions, and vertical tabs and form feeds as
whitespace. `lexes` looks for these things alone, in one pass over a text.
-/

namespace Matador.Json

open List Lib Rfc

/-! ## The scan -/

/-- Where a scan is: outside of strings and numbers, behind the first digit of a number if that is
zero, in the other digits in front of the point, right behind the point, in a fraction, in an
exponent, in a string, and behind a backslash. -/
inductive LexMode
  | free | zero | int | point | frac | exp | string | escape
  deriving DecidableEq, Repr

namespace LexMode

def begin (c : Char) : Option LexMode :=
  if c = '"' then some string
  else if c = '0' then some zero
  else if c.isDigit then some int
  else if c = '\x0b' ∨ c = '\x0c' then none
  else some free

def next : LexMode → Char → Option LexMode
  | .free, c => begin c
  | .zero, c =>
    if c.isDigit then none else if c = '.' then some point
    else if c = 'e' ∨ c = 'E' then some exp else begin c
  | .int, c =>
    if c.isDigit then some int else if c = '.' then some point
    else if c = 'e' ∨ c = 'E' then some exp else begin c
  | .point, c => if c.isDigit then some frac else none
  | .frac, c => if c.isDigit then some frac else if c = 'e' ∨ c = 'E' then some exp else begin c
  | .exp, c => if c.isDigit ∨ c = '+' ∨ c = '-' then some exp else begin c
  | .string, c =>
    if c = '"' then some free else if c = '\\' then some escape
    else if c < ' ' then none else some string
  | .escape, _ => some string

def final (m : LexMode) : Bool := m != .point && m != .string && m != .escape

end LexMode

def lexes : LexMode → Str → Bool
  | m, [] => m.final
  | m, c :: cs => (m.next c).elim false (lexes · cs)

variable {m : LexMode} {c : Char}

theorem lexes_cons {m' : LexMode} (h : m.next c = some m') (cs : Str) :
    lexes m (c :: cs) = lexes m' cs := by
  rw [lexes, h]
  rfl

variable {cs : Str}

theorem next_of_lexes (h : lexes m (c :: cs)) : ∃ m', m.next c = some m' ∧ lexes m' cs := by
  cases hnext : m.next c with
  | none => simp [lexes, hnext] at h
  | some m' => exact ⟨m', rfl, (lexes_cons hnext cs).symm.trans h⟩

theorem lexes_append {u : Str} (h : ∀ c ∈ u, m.next c = some m) (rest : Str) :
    lexes m (u ++ rest) = lexes m rest := by
  induction u with
  | nil => rfl
  | cons c u ih => rw [cons_append, lexes_cons (h c mem_cons_self), ih (forall_mem_cons.mp h).2]

def delimits (c : Char) : Bool := isWs c || c == ',' || c == ']' || c == '}' || c == '\x00'

theorem delimits_cases (h : delimits c) :
    c = ' ' ∨ c = '\t' ∨ c = '\n' ∨ c = '\r' ∨ c = ',' ∨ c = ']' ∨ c = '}' ∨ c = '\x00' := by
  simpa [delimits, isWs, or_assoc] using h

variable {rest : Str}

theorem lexes_of_delimits (hm : m = .zero ∨ m = .int ∨ m = .frac ∨ m = .exp)
    (hrest : delimits (current rest)) : lexes m rest = lexes .free rest := by
  cases rest with
  | nil => rcases hm with rfl | rfl | rfl | rfl <;> rfl
  | cons c rest =>
    have hnext : m.next c = LexMode.next .free c := by
      rcases delimits_cases hrest with h | h | h | h | h | h | h | h <;>
        (rw [show c = _ from h]; rcases hm with rfl | rfl | rfl | rfl <;> rfl)
    rw [lexes, lexes, hnext]

/-! ## Texts of the grammar pass -/

theorem begin_of_isWs (h : isWs c) : LexMode.next .free c = some .free := by
  simp only [isWs, Bool.or_eq_true, beq_iff_eq] at h
  rcases h with ((rfl | rfl) | rfl) | rfl <;> rfl

theorem lexes_ws (ws : Ws) (rest : Str) : lexes .free (ws.chars ++ rest) = lexes .free rest :=
  lexes_append (fun c hc => begin_of_isWs (ws.ws c hc)) rest

theorem next_string_of_isHexDigit (h : isHexDigit c) : LexMode.next .string c = some .string := by
  have hquo : c ≠ '"' := by
    rintro rfl
    cases h
  have hbsl : c ≠ '\\' := by
    rintro rfl
    cases h
  have hcon : ¬ c < ' ' := by
    simp only [isHexDigit, Char.isDigit, Bool.or_eq_true, Bool.and_eq_true, decide_eq_true_eq] at h
    rw [not_lt]
    rcases h with (h | h) | h
    · exact le_trans (by decide) (show '0' ≤ c from h.1)
    · exact le_trans (by decide) h.1
    · exact le_trans (by decide) h.1
  rw [LexMode.next, if_neg hquo, if_neg hbsl, if_neg hcon]

theorem lexes_strChar (c : StrChar) (rest : Str) :
    lexes .string (c.text ++ rest) = lexes .string rest := by
  cases c with
  | unescaped c control quote backslash =>
    refine lexes_cons ?_ rest
    rw [LexMode.next, if_neg quote, if_neg backslash, if_neg (not_lt.mpr control)]
  | escape e x h => rfl
  | unicode h₁ h₂ h₃ h₄ hex =>
    simp only [Bool.and_eq_true] at hex
    show lexes .string ([h₁, h₂, h₃, h₄] ++ rest) = _
    refine lexes_append (fun h hmem => next_string_of_isHexDigit ?_) rest
    simp only [mem_cons, not_mem_nil, or_false] at hmem
    rcases hmem with rfl | rfl | rfl | rfl
    · exact hex.1.1.1
    · exact hex.1.1.2
    · exact hex.1.2
    · exact hex.2

theorem lexes_stringText (cs : List StrChar) (rest : Str) :
    lexes .free (stringText cs ++ rest) = lexes .free rest := by
  have hbody : lexes .string (cs.flatMap StrChar.text ++ '"' :: rest) = lexes .free rest := by
    induction cs with
    | nil => rfl
    | cons c cs ih => rw [flatMap_cons, append_assoc, lexes_strChar, ih]
  rw [stringText, cons_append, append_assoc]
  exact hbody

theorem next_digit (hm : m = .int ∨ m = .frac ∨ m = .exp) (h : c.isDigit) : m.next c = some m := by
  rcases hm with rfl | rfl | rfl
  · rw [LexMode.next, if_pos h]
  · rw [LexMode.next, if_pos h]
  · rw [LexMode.next, if_pos (.inl h)]

theorem lexes_int {d : Digits} (hzero : d.chars.head? = some '0' → d.chars = ['0']) (rest : Str) :
    ∃ m, (m = .zero ∨ m = .int) ∧ lexes .free (d.chars ++ rest) = lexes m rest := by
  obtain ⟨chars, hne, hdig⟩ := d
  obtain ⟨c, cs, rfl⟩ := exists_cons_of_ne_nil hne
  have hc := hdig c mem_cons_self
  by_cases h : c = '0'
  · subst h
    cases hzero rfl
    exact ⟨.zero, .inl rfl, rfl⟩
  · have hquo : c ≠ '"' := by
      rintro rfl
      cases hc
    have hnext : LexMode.next .free c = some .int := by
      rw [LexMode.next, LexMode.begin, if_neg hquo, if_neg h, if_pos hc]
    refine ⟨.int, .inr rfl, ?_⟩
    rw [cons_append, lexes_cons hnext]
    exact lexes_append (fun d hd => next_digit (.inl rfl) (hdig d (mem_cons_of_mem c hd))) rest

theorem lexes_exponent (hm : m = .zero ∨ m = .int ∨ m = .frac) (e : Exponent) (rest : Str) :
    lexes m (e.text ++ rest) = lexes .exp rest := by
  have hmark : m.next e.mark = some .exp := by
    rcases hm with rfl | rfl | rfl <;> rcases e.mark_eq with h | h <;> (rw [h]; rfl)
  have hstay : ∀ c ∈ e.sign ++ e.digits.chars, LexMode.next .exp c = some .exp := by
    intro c hc
    rcases mem_append.mp hc with hc | hc
    · rcases e.sign_eq with h | h | h <;> rw [h] at hc
      · cases hc
      · cases mem_singleton.mp hc
        rfl
      · cases mem_singleton.mp hc
        rfl
    · exact next_digit (.inr (.inr rfl)) (e.digits.digit c hc)
  rw [Exponent.text, cons_append, lexes_cons hmark, lexes_append hstay]

theorem lexes_fraction (hm : m = .zero ∨ m = .int) (d : Digits) (rest : Str) :
    lexes m ('.' :: d.chars ++ rest) = lexes .frac rest := by
  obtain ⟨chars, hne, hdig⟩ := d
  obtain ⟨c, cs, rfl⟩ := exists_cons_of_ne_nil hne
  have hpnt : m.next '.' = some .point := by
    rcases hm with rfl | rfl <;> rfl
  have hfst : LexMode.next .point c = some .frac := by
    rw [LexMode.next, if_pos (hdig c mem_cons_self)]
  rw [cons_append, lexes_cons hpnt, cons_append, lexes_cons hfst]
  exact lexes_append (fun d hd => next_digit (.inr (.inl rfl)) (hdig d (mem_cons_of_mem c hd))) rest

theorem lexes_number (n : Number) (hrest : delimits (current rest)) :
    lexes .free (n.text ++ rest) = lexes .free rest := by
  have hsign (cs : Str) : lexes .free (n.signText ++ cs) = lexes .free cs := by
    unfold Number.signText
    split <;> rfl
  obtain ⟨m, hm, hint⟩ := lexes_int n.noLeadingZero (n.fracText ++ (n.expText ++ rest))
  obtain ⟨m', hm', hfrac⟩ : ∃ m', (m' = .zero ∨ m' = .int ∨ m' = .frac) ∧
      lexes m (n.fracText ++ (n.expText ++ rest)) = lexes m' (n.expText ++ rest) := by
    unfold Number.fracText
    cases n.frac with
    | none => exact ⟨m, hm.imp_right .inl, rfl⟩
    | some d => exact ⟨.frac, .inr (.inr rfl), lexes_fraction hm d _⟩
  have hexp : lexes m' (n.expText ++ rest) = lexes .free rest := by
    unfold Number.expText
    cases n.exp with
    | none =>
      refine lexes_of_delimits ?_ hrest
      rcases hm' with rfl | rfl | rfl <;> simp
    | some e =>
        exact (lexes_exponent hm' e rest).trans (lexes_of_delimits (.inr (.inr (.inr rfl))) hrest)
  rw [Number.text, append_assoc, hsign, append_assoc, append_assoc, hint, hfrac, hexp]

theorem delimits_ws (ws : Ws) (hrest : delimits (current rest)) :
    delimits (current (ws.chars ++ rest)) := by
  cases hws : ws.chars with
  | nil => exact hrest
  | cons c cs =>
    have hc := ws.ws c (by simp [hws])
    show delimits c
    simp [delimits, hc]

mutual

/-- **Texts of the grammar pass.** -/
theorem lexes_value (v : Value) {rest : Str} (hrest : delimits (current rest)) :
    lexes .free (v.text ++ rest) = lexes .free rest := by
  match v with
  | .null => rfl
  | .boolean true => rfl
  | .boolean false => rfl
  | .number n => exact lexes_number n hrest
  | .string cs => exact lexes_stringText cs rest
  | .emptyArray ws =>
    have hws := lexes_ws ws (']' :: rest)
    rw [Value.text, cons_append, append_assoc]
    exact hws
  | .array items =>
    have hitm : lexes .free (items.text ++ ']' :: rest) = lexes .free (']' :: rest) :=
      lexes_items items rfl
    rw [Value.text, cons_append, append_assoc]
    exact hitm
  | .emptyObject ws =>
    have hws := lexes_ws ws ('}' :: rest)
    rw [Value.text, cons_append, append_assoc]
    exact hws
  | .object members =>
    have hmbs : lexes .free (members.text ++ '}' :: rest) = lexes .free ('}' :: rest) :=
      lexes_members members rfl
    rw [Value.text, cons_append, append_assoc]
    exact hmbs

theorem lexes_items (items : Items) {rest : Str} (hrest : delimits (current rest)) :
    lexes .free (items.text ++ rest) = lexes .free rest := by
  match items with
  | .last before value behind =>
    rw [Items.text, append_assoc, lexes_ws, append_assoc,
      lexes_value value (delimits_ws behind hrest), lexes_ws]
  | .cons before value behind items =>
    have hitm := lexes_items items hrest
    rw [Items.text, append_assoc, lexes_ws, append_assoc, append_assoc, cons_append,
      lexes_value value (delimits_ws behind rfl), lexes_ws]
    exact hitm

theorem lexes_members (members : Members) {rest : Str} (hrest : delimits (current rest)) :
    lexes .free (members.text ++ rest) = lexes .free rest := by
  match members with
  | .last before key beforeColon behindColon value behind =>
    have hval : lexes .free (value.text ++ (behind.chars ++ rest)) = lexes .free rest := by
      rw [lexes_value value (delimits_ws behind hrest), lexes_ws]
    have hcol := lexes_ws behindColon (value.text ++ (behind.chars ++ rest))
    simp only [Members.text, append_assoc, cons_append]
    rw [lexes_ws, lexes_stringText, lexes_ws]
    exact hcol.trans hval
  | .cons before key beforeColon behindColon value behind members =>
    have hmbs := lexes_members members hrest
    have hval : lexes .free (value.text ++ (behind.chars ++ ',' :: (members.text ++ rest))) =
        lexes .free rest := by
      rw [lexes_value value (delimits_ws behind rfl), lexes_ws]
      exact hmbs
    have hcol :=
      lexes_ws behindColon (value.text ++ (behind.chars ++ ',' :: (members.text ++ rest)))
    simp only [Members.text, append_assoc, cons_append]
    rw [lexes_ws, lexes_stringText, lexes_ws]
    exact hcol.trans hval

end

/-! ## What is accepted and passes -/

/-- A rest of a text that passes. -/
structure Clean (cs : Str) : Prop where
  nul : '\x00' ∉ cs
  lexes : lexes .free cs = true

theorem Clean.tail (h : Clean (c :: cs)) (hc : LexMode.next .free c = some .free) : Clean cs :=
  ⟨fun hmem => h.nul (mem_cons_of_mem c hmem), (lexes_cons hc cs).symm.trans h.lexes⟩

theorem Clean.mark (h : Clean cs) (hcur : current cs = c) (hnul : c ≠ '\x00')
    (hc : LexMode.next .free c = some .free) : cs = c :: cs.tail ∧ Clean cs.tail := by
  have hcons : cs = c :: cs.tail := by
    rw [← hcur] at hnul ⊢
    exact eq_cons_of_current hnul
  exact ⟨hcons, (hcons ▸ h).tail hc⟩

theorem Clean.close {start : Char} {u text : Str} (h : Clean cs) (htext : text = u ++ cs)
    (hcur : current cs = c) (hnul : c ≠ '\x00') (hc : LexMode.next .free c = some .free) :
    start :: text = start :: (u ++ [c]) ++ cs.tail ∧ Clean cs.tail := by
  obtain ⟨hcons, htail⟩ := h.mark hcur hnul hc
  refine ⟨?_, htail⟩
  rw [cons_append, append_assoc, singleton_append, ← hcons, htext]

theorem Clean.append {u : Str} (h : Clean (u ++ cs))
    (hu : Json.lexes .free (u ++ cs) = Json.lexes .free cs) : Clean cs :=
  ⟨fun hmem => h.nul (mem_append_right u hmem), hu.symm.trans h.lexes⟩

theorem Clean.skipWs (h : Clean cs) : ∃ ws :
    Ws, cs = ws.chars ++ skipWs cs ∧ Clean (skipWs cs) := by
  induction cs with
  | nil => exact ⟨⟨[], nofun⟩, rfl, h⟩
  | cons c cs ih =>
    by_cases hspc : isSpace c
    · have hws : isWs c := by
        simp only [isSpace, Bool.or_eq_true, beq_iff_eq] at hspc
        rcases hspc with ((((rfl | rfl) | rfl) | rfl) | rfl) | rfl
        · rfl
        · rfl
        · rfl
        · cases h.lexes
        · cases h.lexes
        · rfl
      obtain ⟨ws, hcs, hcle⟩ := ih (h.tail (begin_of_isWs hws))
      have hskip : Json.skipWs (c :: cs) = Json.skipWs cs := dropWhile_cons_of_pos hspc
      rw [hskip]
      refine ⟨⟨c :: ws.chars, ?_⟩, congrArg (c :: ·) hcs, hcle⟩
      intro d hd
      rcases mem_cons.mp hd with rfl | hd
      · exact hws
      · exact ws.ws d hd
    · have hskip : Json.skipWs (c :: cs) = c :: cs := dropWhile_cons_of_neg hspc
      rw [hskip]
      exact ⟨⟨[], nofun⟩, rfl, h⟩

theorem sound_readBody {s : Str} (h : readBody cs = .ok (s, rest)) (hnul : '\x00' ∉ cs)
    (hlex : lexes .string cs) :
    ∃ chars : List StrChar, cs = chars.flatMap StrChar.text ++ '"' :: rest ∧ lexes .free rest := by
  fun_induction readBody cs generalizing s with
  | case1 => cases hlex
  | case2 c cs hc => exact absurd (by simpa [isEos] using hc) (ne_of_not_mem_cons hnul).symm
  | case3 cs hc =>
    cases h
    exact ⟨[], rfl, hlex⟩
  | case4 h₁ h₂ h₃ h₄ cs hhex _ _ ih =>
    obtain ⟨⟨s', rest'⟩, hr, heq⟩ := map_eq_ok.mp h
    cases heq
    have hlex' : lexes .string cs := (lexes_strChar (.unicode h₁ h₂ h₃ h₄ hhex) cs).symm.trans hlex
    obtain ⟨chars, hcs, hrest⟩ := ih hr (fun hmem => hnul (by simp [hmem])) hlex'
    exact ⟨.unicode h₁ h₂ h₃ h₄ hhex :: chars,
      congrArg (['\\', 'u', h₁, h₂, h₃, h₄] ++ ·) hcs, hrest⟩
  | case5 => cases h
  | case6 => cases h
  | case7 e cs _ _ x hx _ _ ih =>
    obtain ⟨⟨s', rest'⟩, hr, heq⟩ := map_eq_ok.mp h
    cases heq
    obtain ⟨chars, hcs, hrest⟩ := ih hr (fun hmem => hnul (by simp [hmem])) hlex
    exact ⟨.escape e x hx :: chars, congrArg (['\\', e] ++ ·) hcs, hrest⟩
  | case8 => cases h
  | case9 => cases h
  | case10 c cs _ hq hc ih =>
    obtain ⟨⟨s', rest'⟩, hr, heq⟩ := map_eq_ok.mp h
    cases heq
    obtain ⟨m, hnext, hlex'⟩ := next_of_lexes hlex
    rw [LexMode.next, if_neg hq, if_neg hc] at hnext
    split at hnext
    · cases hnext
    · next hcon =>
      cases hnext
      obtain ⟨chars, hcs, hrest⟩ := ih hr (fun hmem => hnul (mem_cons_of_mem c hmem)) hlex'
      exact ⟨.unescaped c (not_lt.mp hcon) hq hc :: chars, congrArg (c :: ·) hcs, hrest⟩

theorem sound_parseString {s : Str} (h : parseString cs = .ok (s, rest)) (hcle : Clean cs) :
    ∃ (before : Ws) (chars : List StrChar), cs = before.chars ++ (stringText chars ++ rest) ∧
    Clean rest := by
  obtain ⟨before, hcs, hskip⟩ := hcle.skipWs
  unfold parseString at h
  split at h
  · cases h
  · next c cs' heq =>
    rw [heq] at hcs hskip
    split at h
    · cases h
    split at h
    · cases h
    · next hquo =>
      cases not_not.mp hquo
      obtain ⟨chars, hcs', hrest⟩ :=
        sound_readBody h (fun hmem => hskip.nul (mem_cons_of_mem _ hmem)) hskip.lexes
      have htext : cs = before.chars ++ (stringText chars ++ rest) := by
        rw [hcs, hcs', stringText]
        simp
      refine ⟨before, chars, htext, fun hmem => hcle.nul ?_, hrest⟩
      rw [htext]
      simp [hmem]

theorem delimits_of_endsNumber (h : endsNumber c) : delimits c := by
  simp only [endsNumber, Bool.or_eq_true, beq_iff_eq] at h
  rcases h with ((((rfl | rfl) | rfl) | rfl) | rfl) | rfl <;> rfl

def takenDigits (cs : Str) (h : (current cs).isDigit = true) : Digits where
  chars := cs.takeWhile Char.isDigit
  ne_nil := by
    cases cs with
    | nil => cases h
    | cons c cs => simp [show c.isDigit = true from h]
  digit c hc := mem_takeWhile_imp hc

theorem takenDigits_append (h : (current cs).isDigit) :
    cs = (takenDigits cs h).chars ++ cs.dropWhile Char.isDigit := takeWhile_append_dropWhile.symm

theorem sound_readDigits {k : Nat} (h : readDigits cs = some (k, rest)) (hlex : lexes .free cs) :
    ∃ d : Digits, (d.chars.head? = some '0' → d.chars = ['0']) ∧ cs = d.chars ++ rest ∧
      ∃ m, (m = .zero ∨ m = .int) ∧ lexes m rest := by
  unfold readDigits at h
  split at h
  · cases h
  · next hne =>
    cases h
    cases cs with
    | nil => exact absurd rfl hne
    | cons c cs =>
      have hc : (current (c :: cs)).isDigit := by
        by_contra hc
        exact hne (by simp [show ¬ c.isDigit from hc])
      have hspl := takenDigits_append hc
      have hzero : (takenDigits (c :: cs) hc).chars.head? = some '0' →
          (takenDigits (c :: cs) hc).chars = ['0'] := by
        intro hhead
        have htak : (takenDigits (c :: cs) hc).chars = c :: cs.takeWhile Char.isDigit :=
          takeWhile_cons_of_pos hc
        rw [htak] at hhead ⊢
        cases hhead
        -- behind the zero no digit passes
        cases cs with
        | nil => rfl
        | cons d cs =>
          obtain ⟨m, hnext, _⟩ := next_of_lexes (show lexes .zero (d :: cs) from hlex)
          have hd : ¬ d.isDigit := by
            intro hd
            rw [LexMode.next, if_pos hd] at hnext
            cases hnext
          rw [takeWhile_cons_of_neg hd]
      obtain ⟨m, hm, hint⟩ := lexes_int hzero ((c :: cs).dropWhile Char.isDigit)
      rw [← hspl] at hint
      exact ⟨takenDigits (c :: cs) hc, hzero, hspl, m, hm, hint.symm.trans hlex⟩

theorem sound_skipExponent (hlex : lexes .frac cs)
    (hends : endsNumber (current (skipExponent cs))) :
    ∃ exp : Option Exponent, cs = exp.elim [] Exponent.text ++ skipExponent cs ∧
    lexes .free (skipExponent cs) := by
  have hdel := delimits_of_endsNumber hends
  obtain ⟨sign, hsign, htail⟩ : ∃ sign : Str, (sign = [] ∨ sign = ['+'] ∨ sign = ['-']) ∧
    cs.tail = sign ++
      (if current cs.tail = '+' ∨ current cs.tail = '-' then cs.tail.tail else cs.tail) := by
    split
    · next h =>
      rcases h with h | h
      · exact ⟨['+'], .inr (.inl rfl),
          (eq_cons_of_current (by rw [h]; decide)).trans (by rw [h]; rfl)⟩
      · exact ⟨['-'], .inr (.inr rfl),
          (eq_cons_of_current (by rw [h]; decide)).trans (by rw [h]; rfl)⟩
    · exact ⟨[], .inl rfl, rfl⟩
  unfold skipExponent at hdel ⊢
  generalize (if current cs.tail = '+' ∨ current cs.tail = '-' then cs.tail.tail else cs.tail) =
    digits at *
  by_cases hexp : (current cs = 'e' ∨ current cs = 'E') ∧ (current digits).isDigit
  · rw [if_pos hexp] at hdel ⊢
    let e : Exponent := ⟨current cs, hexp.1, sign, hsign, takenDigits digits hexp.2⟩
    have hcs : cs = e.text ++ digits.dropWhile Char.isDigit := by
      have hcons : cs = current cs :: cs.tail :=
        eq_cons_of_current (by rcases hexp.1 with h | h <;> (rw [h]; decide))
      rw [Exponent.text, cons_append, append_assoc, ← takenDigits_append hexp.2, ← htail]
      exact hcons
    refine ⟨some e, hcs, ?_⟩
    rw [hcs, lexes_exponent (by simp), lexes_of_delimits (by simp) hdel] at hlex
    exact hlex
  · rw [if_neg hexp] at hdel ⊢
    exact ⟨none, rfl, (lexes_of_delimits (by simp) hdel).symm.trans hlex⟩

theorem sound_strtoll {i : Int} (h : strtoll cs = some (i, rest)) (hlex : lexes .free cs) :
    ∃ (minus : Bool) (d : Digits), (d.chars.head? = some '0' → d.chars = ['0']) ∧
      cs = (if minus then ['-'] else []) ++ (d.chars ++ rest) ∧ ∃ m, (m = .zero ∨ m = .int) ∧
      lexes m rest := by
  unfold strtoll at h
  split at h
  · next hmin =>
    obtain ⟨⟨k, rest'⟩, hr, heq⟩ := Option.map_eq_some_iff.mp h
    cases heq
    have hcons := eq_cons_of_current (show current cs ≠ '\x00' by rw [hmin]; decide)
    rw [hmin] at hcons
    rw [hcons] at hlex
    obtain ⟨d, hzero, hcs, hm⟩ := sound_readDigits hr hlex
    exact ⟨true, d, hzero, hcons.trans (congrArg ('-' :: ·) hcs), hm⟩
  · obtain ⟨⟨k, rest'⟩, hr, heq⟩ := Option.map_eq_some_iff.mp h
    cases heq
    obtain ⟨d, hzero, hcs, hm⟩ := sound_readDigits hr hlex
    exact ⟨false, d, hzero, hcs, hm⟩

theorem sound_fraction (hm : m = .zero ∨ m = .int) (hpnt : current cs = '.') (hlex : lexes m cs) :
    ∃ d : Digits, cs = '.' :: d.chars ++ cs.tail.dropWhile Char.isDigit ∧
      lexes .frac (cs.tail.dropWhile Char.isDigit) := by
  have hcons := eq_cons_of_current (show current cs ≠ '\x00' by rw [hpnt]; decide)
  rw [hpnt] at hcons
  have hnext : m.next '.' = some .point := by
    rcases hm with rfl | rfl <;> rfl
  have hbhd : lexes .point cs.tail := by
    rw [hcons, lexes_cons hnext] at hlex
    exact hlex
  have hdig : (current cs.tail).isDigit := by
    cases htail : cs.tail with
    | nil =>
      rw [htail] at hbhd
      cases hbhd
    | cons c t =>
      rw [htail] at hbhd
      obtain ⟨m', hnext', _⟩ := next_of_lexes hbhd
      by_contra hc
      rw [LexMode.next, if_neg (show ¬ c.isDigit from hc)] at hnext'
      cases hnext'
  have hspl := takenDigits_append hdig
  have hcs : cs = '.' :: (takenDigits cs.tail hdig).chars ++ cs.tail.dropWhile Char.isDigit :=
    hcons.trans (congrArg ('.' :: ·) hspl)
  refine ⟨_, hcs, ?_⟩
  rw [← lexes_fraction hm (takenDigits cs.tail hdig), ← hcs]
  exact hlex

variable {strtod : Strtod}

theorem sound_parseNumber {erange : Bool} {r : Event × Str × Bool}
    (h : parseNumber strtod erange cs = .ok r) (hcle : Clean cs) :
    ∃ n : Number, cs = n.text ++ r.2.1 ∧ Clean r.2.1 := by
  -- it is enough to find the text
  suffices hn : ∃ n : Number, cs = n.text ++ r.2.1 ∧ delimits (current r.2.1) by
    obtain ⟨n, hcs, hdel⟩ := hn
    exact ⟨n, hcs, (hcs ▸ hcle).append (lexes_number n hdel)⟩
  unfold parseNumber at h
  split at h
  · cases h
  · next i rest hi =>
    obtain ⟨minus, d, hzero, hcs, m, hm, hlex⟩ := sound_strtoll hi hcle.lexes
    split at h
    · split at h
      · cases h
      split at h
      · next hpnt =>
        dsimp only at h
        split at h
        · cases h
        split at h
        · next hends =>
          cases h
          obtain ⟨frac, hrest, hlex'⟩ := sound_fraction hm hpnt hlex
          obtain ⟨exp, hrest', _⟩ := sound_skipExponent hlex' hends
          refine ⟨⟨minus, d, hzero, some frac, exp⟩, ?_, delimits_of_endsNumber hends⟩
          rw [hcs, Number.text, append_assoc, append_assoc, append_assoc]
          refine congrArg (_ ++ ·) (congrArg (d.chars ++ ·) ?_)
          exact hrest.trans (congrArg (('.' :: frac.chars) ++ ·) hrest')
        · cases h
      · split at h
        · next hends =>
          cases h
          refine ⟨⟨minus, d, hzero, none, none⟩, ?_, delimits_of_endsNumber hends⟩
          rw [hcs, Number.text, append_assoc, append_assoc]
          rfl
        · cases h
    · cases h

/-! ## Values -/

theorem sound_compareString {e : JsonException} {word : Str}
    (h : compareString e word cs = .ok rest) (hword : ∀ c ∈ word, LexMode.next .free c = some .free)
    (hcle : Clean cs) : cs = word ++ rest ∧ Clean rest := by
  have hcs : cs = word ++ rest := by
    induction word generalizing cs with
    | nil =>
      cases h
      rfl
    | cons w word ih =>
      unfold compareString at h
      split at h
      · cases h
      · next heos =>
        have hnul : current cs ≠ '\x00' := by simpa [isEos] using heos
        have hcons := eq_cons_of_current hnul
        split at h
        · cases h
        · next hw =>
          rw [← not_not.mp hw] at hcons
          have hcle' : Clean cs.tail := (hcons ▸ hcle).tail (hword w mem_cons_self)
          have htail := ih h (forall_mem_cons.mp hword).2 hcle'
          rw [hcons, htail]
          rfl
  exact ⟨hcs, (hcs ▸ hcle).append (lexes_append hword rest)⟩

/-- What is accepted with some fuel, if it passes. -/
structure SoundAt (strtod : Strtod) (n : Nat) : Prop where
  value : ∀ {erange cs r}, parseValue strtod n erange cs = .ok r → Clean cs →
    ∃ (before : Ws) (v : Value), cs = before.chars ++ (v.text ++ r.2.1) ∧ Clean r.2.1
  object : ∀ {erange cs r}, parseObject strtod n erange cs = .ok r → Clean cs →
    ∃ v : Value, '{' :: cs = v.text ++ r.2.1 ∧ Clean r.2.1
  members : ∀ {erange cs r}, parseMembers strtod n erange cs = .ok r → Clean cs →
    ∃ members : Members, cs = members.text ++ r.2.1 ∧ Clean r.2.1 ∧ skipWs r.2.1 = r.2.1
  array : ∀ {erange cs r}, parseArray strtod n erange cs = .ok r → Clean cs →
    ∃ v : Value, '[' :: cs = v.text ++ r.2.1 ∧ Clean r.2.1
  items : ∀ {erange cs r}, parseItems strtod n erange cs = .ok r → Clean cs →
    ∃ items : Items, cs = items.text ++ r.2.1 ∧ Clean r.2.1 ∧ skipWs r.2.1 = r.2.1

section Step

variable {n : Nat} {erange : Bool} {cs : Str} {r : Parsed}

section

variable (ih : SoundAt strtod n)

include ih

theorem SoundAt.value_step (h : parseValue strtod (n + 1) erange cs = .ok r)
    (hcle : Clean cs) : ∃ (before : Ws) (v : Value), cs = before.chars ++ (v.text ++ r.2.1) ∧
    Clean r.2.1 := by
  obtain ⟨before, hcs, hskip⟩ := hcle.skipWs
  rw [parseValue] at h
  generalize skipWs cs = cs' at *
  -- from the text behind the whitespace it is enough
  suffices hv : ∃ v : Value, cs' = v.text ++ r.2.1 ∧ Clean r.2.1 by
    obtain ⟨v, hv, hrest⟩ := hv
    exact ⟨before, v, by rw [hcs, hv], hrest⟩
  split at h
  · cases h
  split at h
  · next hcur =>
    obtain ⟨hcons, htail⟩ := hskip.mark hcur (by decide) rfl
    obtain ⟨v, hv, hrest⟩ := ih.object h htail
    exact ⟨v, hcons.trans hv, hrest⟩
  split at h
  · next hcur =>
    obtain ⟨hcons, htail⟩ := hskip.mark hcur (by decide) rfl
    obtain ⟨v, hv, hrest⟩ := ih.array h htail
    exact ⟨v, hcons.trans hv, hrest⟩
  split at h
  · next hcur =>
    obtain ⟨⟨s, rest⟩, hs, rfl⟩ := map_eq_ok.mp h
    obtain ⟨ws, chars, htext, hrest⟩ := sound_parseString hs hskip
    cases hws : ws.chars with
    | nil =>
      rw [hws] at htext
      exact ⟨.string chars, htext, hrest⟩
    | cons c t =>
      rw [htext, hws] at hcur
      have hc := ws.ws c (by simp [hws])
      rw [show c = '"' from hcur] at hc
      cases hc
  split at h
  · obtain ⟨number, hnum, rfl⟩ := map_eq_ok.mp h
    obtain ⟨n, hn, hrest⟩ := sound_parseNumber hnum hskip
    exact ⟨.number n, hn, hrest⟩
  split at h
  · next hcur =>
    obtain ⟨hcons, htail⟩ := hskip.mark hcur (by decide) rfl
    obtain ⟨rest, hrest, rfl⟩ := map_eq_ok.mp h
    obtain ⟨hword, hrest'⟩ := sound_compareString hrest (all_iff_forall_prop.mp rfl) htail
    exact ⟨.boolean true, hcons.trans (congrArg ('t' :: ·) hword), hrest'⟩
  split at h
  · next hcur =>
    obtain ⟨hcons, htail⟩ := hskip.mark hcur (by decide) rfl
    obtain ⟨rest, hrest, rfl⟩ := map_eq_ok.mp h
    obtain ⟨hword, hrest'⟩ := sound_compareString hrest (all_iff_forall_prop.mp rfl) htail
    exact ⟨.boolean false, hcons.trans (congrArg ('f' :: ·) hword), hrest'⟩
  split at h
  · next hcur =>
    obtain ⟨hcons, htail⟩ := hskip.mark hcur (by decide) rfl
    obtain ⟨rest, hrest, rfl⟩ := map_eq_ok.mp h
    obtain ⟨hword, hrest'⟩ := sound_compareString hrest (all_iff_forall_prop.mp rfl) htail
    exact ⟨.null, hcons.trans (congrArg ('n' :: ·) hword), hrest'⟩
  · cases h

theorem SoundAt.object_step (h : parseObject strtod (n + 1) erange cs = .ok r)
    (hcle : Clean cs) : ∃ v : Value, '{' :: cs = v.text ++ r.2.1 ∧ Clean r.2.1 := by
  rw [parseObject] at h
  dsimp only at h
  split at h
  · next hcur =>
    cases h
    obtain ⟨ws, hcs, hskip⟩ := hcle.skipWs
    exact ⟨.emptyObject ws, hskip.close hcs hcur (by decide) rfl⟩
  · obtain ⟨read, hread, h⟩ := bind_eq_ok.mp h
    rw [parseMembers_skipWs] at hread
    obtain ⟨members, hcs, hrest, hskip⟩ := ih.members hread hcle
    rw [hskip] at h
    split at h
    · next hcur =>
      cases h
      exact ⟨.object members, hrest.close hcs hcur (by decide) rfl⟩
    · cases h

theorem SoundAt.array_step (h : parseArray strtod (n + 1) erange cs = .ok r)
    (hcle : Clean cs) : ∃ v : Value, '[' :: cs = v.text ++ r.2.1 ∧ Clean r.2.1 := by
  rw [parseArray] at h
  dsimp only at h
  split at h
  · next hcur =>
    cases h
    obtain ⟨ws, hcs, hskip⟩ := hcle.skipWs
    exact ⟨.emptyArray ws, hskip.close hcs hcur (by decide) rfl⟩
  · obtain ⟨read, hread, h⟩ := bind_eq_ok.mp h
    rw [parseItems_skipWs] at hread
    obtain ⟨items, hcs, hrest, hskip⟩ := ih.items hread hcle
    rw [hskip] at h
    split at h
    · next hcur =>
      cases h
      exact ⟨.array items, hrest.close hcs hcur (by decide) rfl⟩
    · cases h

theorem SoundAt.items_step (h : parseItems strtod (n + 1) erange cs = .ok r)
    (hcle : Clean cs) : ∃ items : Items, cs = items.text ++ r.2.1 ∧ Clean r.2.1 ∧
    skipWs r.2.1 = r.2.1 := by
  obtain ⟨value, hval, h⟩ := bind_eq_ok.mp h
  obtain ⟨before, v, hcs, hrest⟩ := ih.value hval hcle
  obtain ⟨behind, hbhd, hskip⟩ := hrest.skipWs
  dsimp only at h
  split at h
  · next hcur =>
    obtain ⟨rest, hread, h⟩ := bind_eq_ok.mp h
    obtain ⟨hcons, htail⟩ := hskip.mark hcur (by decide) rfl
    obtain ⟨items, hitm, hcle', hskip'⟩ := ih.items hread htail
    cases h
    refine ⟨.cons before v behind items, ?_, hcle', hskip'⟩
    simp only [Items.text, append_assoc, cons_append]
    rw [← hitm, ← hcons, ← hbhd]
    exact hcs
  · cases h
    refine ⟨.last before v behind, ?_, hskip, skipWs_skipWs _⟩
    simp only [Items.text, append_assoc]
    rw [← hbhd]
    exact hcs

theorem SoundAt.members_step (h : parseMembers strtod (n + 1) erange cs = .ok r)
    (hcle : Clean cs) : ∃ members : Members, cs = members.text ++ r.2.1 ∧ Clean r.2.1 ∧
    skipWs r.2.1 = r.2.1 := by
  obtain ⟨⟨key, afterKey⟩, hkey, h⟩ := bind_eq_ok.mp h
  obtain ⟨before, chars, hcs, haft⟩ := sound_parseString hkey hcle
  obtain ⟨beforeColon, hbef, hski⟩ := haft.skipWs
  dsimp only at h
  split at h
  · cases h
  split at h
  · next hcol =>
    obtain ⟨hcon, htai⟩ := hski.mark hcol (by decide) rfl
    obtain ⟨value, hval, h⟩ := bind_eq_ok.mp h
    obtain ⟨behindColon, v, hv, hrest⟩ := ih.value hval htai
    obtain ⟨behind, hbhd, hskip⟩ := hrest.skipWs
    split at h
    · next hcur =>
      obtain ⟨rest, hread, h⟩ := bind_eq_ok.mp h
      obtain ⟨hcons, htail⟩ := hskip.mark hcur (by decide) rfl
      obtain ⟨members, hmbs, hcle', hskip'⟩ := ih.members hread htail
      cases h
      refine ⟨.cons before chars beforeColon behindColon v behind members, ?_, hcle', hskip'⟩
      simp only [Members.text, append_assoc, cons_append]
      rw [← hmbs, ← hcons, ← hbhd, ← hv, ← hcon, ← hbef]
      exact hcs
    · cases h
      refine ⟨.last before chars beforeColon behindColon v behind, ?_, hskip, skipWs_skipWs _⟩
      simp only [Members.text, append_assoc, cons_append]
      rw [← hbhd, ← hv, ← hcon, ← hbef]
      exact hcs
  · cases h

end

end Step

theorem soundAt (strtod : Strtod) (n : Nat) : SoundAt strtod n := by
  induction n with
  | zero =>
    constructor <;>
    · intro erange cs r h
      cases h
  | succ n ih =>
      exact ⟨ih.value_step, ih.object_step, ih.members_step, ih.array_step, ih.items_step⟩

theorem sound_parse {erange : Bool} {text : Str} {calls : List Event}
    (h : parseJson strtod erange text = .ok calls) (hcle : Clean text) : IsText text := by
  unfold parseJson at h
  dsimp only at h
  split at h
  · cases h
  · obtain ⟨root, hroot, h⟩ := bind_eq_ok.mp h
    obtain ⟨m, -, hval⟩ := exists_parseValue strtod (3 * text.length + 3) erange text
    obtain ⟨before, v, htext, hrest⟩ := (soundAt strtod m).value (hval.symm.trans hroot) hcle
    split at h
    · next heos =>
      obtain ⟨behind, hbhd, hend⟩ := hrest.skipWs
      -- the text has no NUL, so its end is reached
      have hnil : skipWs root.2.1 = [] := by
        cases hski : skipWs root.2.1 with
        | nil => rfl
        | cons c cs =>
          rw [hski] at heos hend
          have hc : c = '\x00' := by simpa [isEos, current] using heos
          exact absurd mem_cons_self (hc ▸ hend.nul)
      refine ⟨⟨before, v, behind⟩, ?_⟩
      rw [hnil, append_nil] at hbhd
      rw [Document.text, ← hbhd, ← htext]
    · cases h

theorem lexes_of_isText {text : Str} (h : IsText text) : lexes .free text := by
  obtain ⟨d, rfl⟩ := h
  have hbhd := lexes_ws d.behind []
  rw [append_nil] at hbhd
  have hend : delimits (current (d.behind.chars ++ [])) := delimits_ws d.behind rfl
  rw [append_nil] at hend
  rw [Document.text, lexes_ws, lexes_value d.value hend, hbhd]
  rfl

/-- **An accepted text is a JSON text if and only if it passes the scan.** -/
theorem isText_iff_lexes (strtod : Strtod) (erange : Bool) (s : JsonParser) (text : Str) (j : Json)
    (hnul : '\x00' ∉ text) (h : s.parse strtod erange text = .ok j) :
    IsText text ↔ lexes .free text = true := by
  refine ⟨lexes_of_isText, fun hlex => ?_⟩
  unfold JsonParser.parse at h
  cases hpar : parseJson strtod erange text with
  | error e =>
    rw [hpar] at h
    cases h
  | ok calls => exact sound_parse hpar ⟨hnul, hlex⟩

/-- A parser that has not been used, and reals that are all in range. -/
def freshParser : JsonParser := ⟨.null, [], []⟩

def inRange : Strtod := ⟨fun _ => false, fun _ => false⟩

theorem isText_iff_lexes_leadingZero : '\x00' ∉ ['0', '1'] ∧
    freshParser.parse inRange false ['0', '1'] = .ok (.integer ⟨1, by decide⟩) ∧
    (IsText ['0', '1'] ↔ lexes .free ['0', '1'] = true) :=
  ⟨by decide, rfl, isText_iff_lexes inRange false freshParser ['0', '1'] _ (by decide) rfl⟩

/-- An open string, a line break in a string, a leading zero, an empty fraction and a vertical tab
are accepted. -/
theorem accepted_not_isText :
    (freshParser.parse inRange false ['"', 'a'] = .ok (.string ['a']) ∧ ¬ IsText ['"', 'a']) ∧
    (freshParser.parse inRange false ['"', '\n', '"'] = .ok (.string ['\n']) ∧
      ¬ IsText ['"', '\n', '"']) ∧
    (freshParser.parse inRange false ['0', '1'] = .ok (.integer ⟨1, by decide⟩) ∧
      ¬ IsText ['0', '1']) ∧
    (freshParser.parse inRange false ['1', '.'] = .ok (.real ['1', '.']) ∧ ¬ IsText ['1', '.']) ∧
    freshParser.parse inRange false ['[', ']', '\x0b'] = .ok (.array []) ∧
    ¬ IsText ['[', ']', '\x0b'] := by
  have hnot {text : Str} (h : lexes .free text = false) : ¬ IsText text := by
    intro htext
    rw [lexes_of_isText htext] at h
    cases h
  exact ⟨⟨rfl, hnot rfl⟩, ⟨rfl, hnot rfl⟩, ⟨rfl, hnot rfl⟩, ⟨rfl, hnot rfl⟩, rfl, hnot rfl⟩

end Matador.Json
