import Matador.Json.Serializer

/-!
# Commas of a JSON text

A comma stands between two values and nowhere else. This is seen by a scan that knows of each place
what stands in front of it (`Spot`): a text of the grammar has no value directly behind a value
(`juxtaposes`) and no comma in front of a closing bracket (`trails`).

The serializer only appends to its buffer and erases commas, so a value directly behind a value
stays, and a comma in front of a closing bracket cannot be reached without that (`Lost`).
-/

namespace Matador.Json

open List Rfc Option

/-! ## The scan -/

/-- What stands in front of a place. -/
inductive Spot
  | opening | comma | value | string | escape
  deriving DecidableEq

variable {s : Spot} {a b cs : Str}

namespace Spot

def next : Spot → Char → Spot
  | .escape, _ => .string
  | .string, c => if c = '"' then .value else if c = '\\' then .escape else .string
  | s, c =>
    if c = '"' then .string
    else if c = ',' then .comma
    else if c = ':' ∨ c = '{' ∨ c = '[' then .opening
    else if isWs c then s
    else .value

abbrev outside (s : Spot) : Prop := s = .opening ∨ s = .comma ∨ s = .value

def expects (s : Spot) : Prop := s = .opening ∨ s = .comma

theorem expects.outside (h : s.expects) : s.outside := by
  rcases h with rfl | rfl
  · exact .inl rfl
  · exact .inr (.inl rfl)

def juxtaposes (s : Spot) (c : Char) : Bool := s == .value && (c == '"' || c == '{' || c == '[')

def trails (s : Spot) (c : Char) : Bool := s == .comma && (c == ']' || c == '}')

def run (s : Spot) (cs : Str) : Spot := cs.foldl next s

/-- Whether the scan meets a character that is bad where it stands. -/
def meets (bad : Spot → Char → Bool) : Spot → Str → Bool
  | _, [] => false
  | s, c :: cs => bad s c || meets bad (s.next c) cs

theorem run_append (s : Spot) (a b : Str) : s.run (a ++ b) = (s.run a).run b := foldl_append

theorem meets_append (bad : Spot → Char → Bool) (s : Spot) (a b : Str) :
    meets bad s (a ++ b) = (meets bad s a || meets bad (s.run a) b) := by
  induction a generalizing s with
  | nil => rfl
  | cons c a ih =>
    rw [cons_append, meets, meets, ih, Bool.or_assoc]
    rfl

/-- A text that is read from one spot to another without a bad character. -/
structure Reads (s : Spot) (cs : Str) (s' : Spot) : Prop where
  run : s.run cs = s'
  juxtaposes : meets juxtaposes s cs = false
  trails : meets trails s cs = false

theorem Reads.append {s' s'' : Spot} (ha : Reads s a s') (hb : Reads s' b s'') :
    Reads s (a ++ b) s'' := by
  obtain ⟨rfl, hja, hta⟩ := ha
  obtain ⟨rfl, hjb, htb⟩ := hb
  refine ⟨run_append .., ?_, ?_⟩
  · rw [meets_append, hja, hjb]
    rfl
  · rw [meets_append, hta, htb]
    rfl

variable {c : Char}

theorem Reads.cons {s' : Spot} (hj : s.juxtaposes c = false) (ht : s.trails c = false)
    (h : Reads (s.next c) cs s') : Reads s (c :: cs) s' := by
  refine ⟨h.run, ?_, ?_⟩
  · rw [meets, hj, h.juxtaposes]
    rfl
  · rw [meets, ht, h.trails]
    rfl

theorem reads_nil (s : Spot) : Reads s [] s := ⟨rfl, rfl, rfl⟩

theorem reads_same (h : ∀ c ∈ cs, s.next c = s ∧ s.juxtaposes c = false ∧ s.trails c = false) :
    Reads s cs s := by
  induction cs with
  | nil => exact reads_nil s
  | cons c cs ih =>
    obtain ⟨⟨hnext, hj, ht⟩, hcs⟩ := forall_mem_cons.mp h
    refine .cons hj ht ?_
    rw [hnext]
    exact ih hcs

theorem reads_ws (hs : s.outside) (ws : Ws) : Reads s ws.chars s := by
  refine reads_same fun c hc => ?_
  have hws := ws.ws c hc
  simp only [isWs, Bool.or_eq_true, beq_iff_eq] at hws
  rcases hs with rfl | rfl | rfl <;> rcases hws with ((rfl | rfl) | rfl) | rfl <;> decide

/-! ## Lexemes -/

def isAtom (c : Char) : Bool := c.isDigit || c.isAlpha || c == '-' || c == '+' || c == '.'

theorem next_atom (hs : s.outside) (hc : isAtom c) :
    s.next c = .value ∧ s.juxtaposes c = false ∧ s.trails c = false := by
  have hne (d : Char) (hd : isAtom d = false) : c ≠ d := by
    rintro rfl
    rw [hd] at hc
    cases hc
  have hws : isWs c = false := by simp [isWs, hne ' ' rfl, hne '\t' rfl, hne '\n' rfl, hne '\r' rfl]
  rcases hs with rfl | rfl | rfl <;>
    simp [next, juxtaposes, trails, hne '"' rfl, hne ',' rfl, hne ':' rfl, hne '{' rfl, hne '[' rfl,
      hne ']' rfl, hne '}' rfl, hws]

theorem reads_atoms (hs : s.outside) (hne : cs ≠ []) (h : ∀ c ∈ cs, isAtom c) :
    Reads s cs .value := by
  obtain ⟨c, cs, rfl⟩ := exists_cons_of_ne_nil hne
  obtain ⟨hc, hcs⟩ := forall_mem_cons.mp h
  obtain ⟨hnext, hj, ht⟩ := next_atom hs hc
  refine .cons hj ht ?_
  rw [hnext]
  exact reads_same fun c hc => next_atom (.inr (.inr rfl)) (hcs c hc)

theorem next_string (hq : c ≠ '"') (hb : c ≠ '\\') : Spot.next .string c = .string := by
  simp [next, hq, hb]

theorem reads_strChar (c : StrChar) : Reads .string c.text .string := by
  cases c with
  | unescaped c control quote backslash =>
    refine .cons rfl rfl ?_
    rw [next_string quote backslash]
    exact reads_nil _
  | escape e x h => exact ⟨rfl, rfl, rfl⟩
  | unicode h₁ h₂ h₃ h₄ hex =>
    simp only [Bool.and_eq_true] at hex
    have hhex {c : Char} (hc : isHexDigit c) : Spot.next .string c = .string := by
      refine next_string ?_ ?_ <;> (rintro rfl; cases hc)
    have hdig : Reads .string [h₁, h₂, h₃, h₄] .string := by
      refine reads_same fun c hc => ⟨hhex ?_, rfl, rfl⟩
      simp only [mem_cons, not_mem_nil, or_false] at hc
      rcases hc with rfl | rfl | rfl | rfl
      · exact hex.1.1.1
      · exact hex.1.1.2
      · exact hex.1.2
      · exact hex.2
    exact .cons rfl rfl (.cons rfl rfl hdig)

theorem reads_string (hs : s.expects) (cs : List StrChar) : Reads s (stringText cs) .value := by
  have hcha : Reads .string (cs.flatMap StrChar.text) .string := by
    induction cs with
    | nil => exact reads_nil _
    | cons c cs ih => exact (reads_strChar c).append ih
  have hquo : Reads .string ['"'] .value := ⟨rfl, rfl, rfl⟩
  rcases hs with rfl | rfl
  · exact .cons rfl rfl (hcha.append hquo)
  · exact .cons rfl rfl (hcha.append hquo)

theorem isAtom_of_isDigit (h : c.isDigit) : isAtom c := by simp [isAtom, h]

theorem isAtom_number (n : Number) : ∀ c ∈ n.text, isAtom c := by
  have hdig (d : Digits) : ∀ c ∈ d.chars, isAtom c := fun c hc => isAtom_of_isDigit (d.digit c hc)
  have hsign : ∀ c ∈ n.signText, isAtom c := by
    unfold Number.signText
    split <;> simp [isAtom]
  have hfrac : ∀ c ∈ n.fracText, isAtom c := by
    unfold Number.fracText
    cases n.frac with
    | none => exact nofun
    | some d => exact forall_mem_cons.mpr ⟨rfl, hdig d⟩
  have hexp : ∀ c ∈ n.expText, isAtom c := by
    unfold Number.expText
    cases n.exp with
    | none => exact nofun
    | some e =>
      refine forall_mem_cons.mpr ⟨?_, forall_mem_append.mpr ⟨?_, hdig e.digits⟩⟩
      · rcases e.mark_eq with h | h <;> (rw [h]; rfl)
      · rcases e.sign_eq with h | h | h <;> simp [h, isAtom]
  exact forall_mem_append.mpr ⟨hsign,
    forall_mem_append.mpr ⟨hdig n.int, forall_mem_append.mpr ⟨hfrac, hexp⟩⟩⟩

theorem reads_number (hs : s.outside) (n : Number) : Reads s n.text .value := by
  obtain ⟨c, cs, hcs, -⟩ := numberText_eq_cons n
  exact reads_atoms hs (by rw [hcs]; exact cons_ne_nil _ _) (isAtom_number n)

theorem reads_open (hs : s.expects) (hc : c = '{' ∨ c = '[')
    (h : Reads .opening cs .value) : Reads s (c :: cs) .value := by
  rcases hs with rfl | rfl <;> rcases hc with rfl | rfl <;> exact .cons rfl rfl h

theorem reads_close (hs : s = .opening ∨ s = .value) (hc : c = '}' ∨ c = ']') :
    Reads s [c] .value := by
  rcases hs with rfl | rfl <;> rcases hc with rfl | rfl <;> exact ⟨rfl, rfl, rfl⟩

theorem reads_comma : Reads .value [','] .comma := ⟨rfl, rfl, rfl⟩

theorem reads_colon : Reads .value [':'] .opening := ⟨rfl, rfl, rfl⟩

/-! ## The grammar -/

mutual

theorem reads_value (v : Value) {s : Spot} (hs : s.expects) : Reads s v.text .value := by
  match v with
  | .null | .boolean true | .boolean false =>
      exact reads_atoms hs.outside (by decide) (all_eq_true.mp rfl)
  | .number n => exact reads_number hs.outside n
  | .string cs => exact reads_string hs cs
  | .emptyArray ws =>
      exact reads_open hs (.inr rfl)
        ((reads_ws (.inl rfl) ws).append (reads_close (.inl rfl) (.inr rfl)))
  | .array items =>
    exact reads_open hs (.inr rfl)
      ((reads_items items (.inl rfl)).append (reads_close (.inr rfl) (.inr rfl)))
  | .emptyObject ws =>
      exact reads_open hs (.inl rfl)
        ((reads_ws (.inl rfl) ws).append (reads_close (.inl rfl) (.inl rfl)))
  | .object members =>
    exact reads_open hs (.inl rfl)
      ((reads_members members (.inl rfl)).append (reads_close (.inr rfl) (.inl rfl)))

theorem reads_items (items : Items) {s : Spot} (hs : s.expects) : Reads s items.text .value := by
  match items with
  | .last before v behind =>
    exact (reads_ws hs.outside before).append
      ((reads_value v hs).append (reads_ws (.inr (.inr rfl)) behind))
  | .cons before v behind items =>
    have hrest : Reads .value (',' :: items.text) .value :=
      reads_comma.append (reads_items items (.inr rfl))
    exact (reads_ws hs.outside before).append
      ((reads_value v hs).append ((reads_ws (.inr (.inr rfl)) behind).append hrest))

theorem reads_members (members : Members) {s : Spot} (hs : s.expects) :
    Reads s members.text .value := by
  have hkey (before : Ws) (key : List StrChar) (beforeColon behindColon : Ws) {cs : Str}
      (h : Reads .opening cs .value) :
      Reads s (before.chars ++
        (stringText key ++ (beforeColon.chars ++ (':' :: (behindColon.chars ++ cs))))) .value :=
    (reads_ws hs.outside before).append
      ((reads_string hs key).append ((reads_ws (.inr (.inr rfl)) beforeColon).append
        (reads_colon.append ((reads_ws (.inl rfl) behindColon).append h))))
  match members with
  | .last before key beforeColon behindColon v behind =>
    exact hkey before key beforeColon behindColon
      ((reads_value v (.inl rfl)).append (reads_ws (.inr (.inr rfl)) behind))
  | .cons before key beforeColon behindColon v behind members =>
    have hrest : Reads .value (',' :: members.text) .value :=
      reads_comma.append (reads_members members (.inr rfl))
    exact hkey before key beforeColon behindColon
      ((reads_value v (.inl rfl)).append ((reads_ws (.inr (.inr rfl)) behind).append hrest))

end

end Spot

open Spot

/-- **A JSON text has no value behind a value and no comma in front of a closing bracket.** -/
theorem reads_of_isText {text : Str} (h : IsText text) : Reads .opening text .value := by
  obtain ⟨d, rfl⟩ := h
  exact (reads_ws (.inl rfl) d.before).append
    ((reads_value d.value (.inl rfl)).append (reads_ws (.inr (.inr rfl)) d.behind))

/-! ## Buffers -/

/-- No backslash, and every string is closed. -/
structure Balanced (cs : Str) : Prop where
  closed : ∀ s ∈ [Spot.opening, .comma, .value], (s.run cs).outside
  backslash : '\\' ∉ cs

theorem Balanced.outside (h : Balanced cs) (hs : s.outside) : (s.run cs).outside :=
  h.closed s (by rcases hs with rfl | rfl | rfl <;> decide)

theorem balanced_of_run (h : ∀ s : Spot, s.outside → (s.run cs).outside) (hbsl : '\\' ∉ cs) :
    Balanced cs :=
  ⟨fun s hs => h s (by simpa using hs), hbsl⟩

theorem Balanced.append (ha : Balanced a) (hb : Balanced b) : Balanced (a ++ b) := by
  refine balanced_of_run (fun s hs => ?_) (not_mem_append ha.backslash hb.backslash)
  rw [run_append]
  exact hb.outside (ha.outside hs)

theorem balanced_ws (ws : Ws) : Balanced ws.chars := by
  refine balanced_of_run (fun s hs => ?_) fun hmem => absurd (ws.ws _ hmem) (by decide)
  rw [(reads_ws hs ws).run]
  exact hs

theorem run_ne_escape (h : '\\' ∉ cs) (hs : s ≠ .escape) : s.run cs ≠ .escape := by
  induction cs generalizing s with
  | nil => exact hs
  | cons c cs ih =>
    rw [mem_cons, not_or] at h
    refine ih h.2 ?_
    cases s with
    | escape => exact absurd rfl hs
    | opening | comma | value | string =>
      simp only [Spot.next]
      split_ifs <;> simp_all

theorem not_comma_mem_of_eraseLastComma (h : eraseLastComma cs = none) : ',' ∉ cs := by
  induction cs with
  | nil => exact not_mem_nil
  | cons c cs ih =>
    rw [eraseLastComma] at h
    cases hcs : eraseLastComma cs with
    | some rest =>
      rw [hcs] at h
      cases h
    | none =>
      rw [hcs] at h
      rw [mem_cons, not_or]
      refine ⟨?_, ih hcs⟩
      rintro rfl
      cases h

variable {cs' : Str}

theorem eraseLastComma_eq_some (h : eraseLastComma cs = some cs') :
    ∃ a b, cs = a ++ ',' :: b ∧ ',' ∉ b ∧ cs' = a ++ b := by
  induction cs generalizing cs' with
  | nil => cases h
  | cons c cs ih =>
    rw [eraseLastComma] at h
    cases hcs : eraseLastComma cs with
    | some rest =>
      rw [hcs] at h
      obtain ⟨a, b, rfl, hb, rfl⟩ := ih hcs
      exact ⟨c :: a, b, rfl, hb, (some.inj h).symm⟩
    | none =>
      rw [hcs] at h
      dsimp only at h
      split at h
      · next hc =>
        subst hc
        exact ⟨[], cs, rfl, not_comma_mem_of_eraseLastComma hcs, (some.inj h).symm⟩
      · cases h

theorem run_of_comma (hs : s.outside) : ((Spot.run .comma b).outside → (s.run b).outside) ∧
      (meets juxtaposes .comma b → meets juxtaposes s b) := by
  induction b generalizing s with
  | nil => exact ⟨fun _ => hs, fun h => h⟩
  | cons c b ih =>
    have hnext : Spot.next .comma c = s.next c ∨ Spot.next .comma c = .comma ∧ s.next c = s := by
      rcases hs with rfl | rfl | rfl <;> (simp only [Spot.next]; split_ifs <;> simp)
    have hcons : ((Spot.run (Spot.next .comma c) b).outside → ((s.next c).run b).outside) ∧
        (meets juxtaposes (Spot.next .comma c) b → meets juxtaposes (s.next c) b) := by
      rcases hnext with hnext | ⟨hcom, hsame⟩
      · rw [hnext]
        exact ⟨id, id⟩
      · rw [hcom, hsame]
        exact ih hs
    refine ⟨hcons.1, fun h => ?_⟩
    rw [meets, hcons.2 h, Bool.or_true]

theorem run_erased (ha : s.run a ≠ .escape) :
    ((s.run (a ++ ',' :: b)).outside → (s.run (a ++ b)).outside) ∧
      (meets juxtaposes s (a ++ ',' :: b) → meets juxtaposes s (a ++ b)) := by
  rw [run_append, run_append, meets_append, meets_append, Bool.or_eq_true, Bool.or_eq_true]
  generalize s.run a = s at *
  cases s with
  | escape => exact absurd rfl ha
  | string => exact ⟨id, id⟩
  | opening => exact (run_of_comma (.inl rfl)).imp id (Or.imp_right ·)
  | comma => exact (run_of_comma (.inr (.inl rfl))).imp id (Or.imp_right ·)
  | value => exact (run_of_comma (.inr (.inr rfl))).imp id (Or.imp_right ·)

theorem Balanced.eraseLastComma (h : Balanced cs) (he : Json.eraseLastComma cs = some cs') :
    Balanced cs' := by
  obtain ⟨a, b, rfl, -, rfl⟩ := eraseLastComma_eq_some he
  have hbsl := h.backslash
  rw [mem_append, mem_cons, not_or, not_or] at hbsl
  refine balanced_of_run (fun s hs => (run_erased (run_ne_escape hbsl.1 ?_)).1 (h.outside hs))
    (not_mem_append hbsl.1 hbsl.2.2)
  rcases hs with rfl | rfl | rfl <;> decide

/-! ## What is lost -/

/-- Behind whitespace, a quote or an opening brace. -/
def Begins (cs : Str) : Prop :=
  ∃ (ws : Ws) (c : Char) (rest : Str), cs = ws.chars ++ c :: rest ∧ (c = '"' ∨ c = '{')

theorem Begins.append (h : Begins cs) (t : Str) : Begins (cs ++ t) := by
  obtain ⟨ws, c, rest, rfl, hc⟩ := h
  exact ⟨ws, c, rest ++ t, by simp, hc⟩

theorem juxtaposes_of_begins (ha : Spot.run .opening a = .value) (hb : Begins b) :
    meets juxtaposes .opening (a ++ b) := by
  obtain ⟨ws, c, rest, rfl, hc⟩ := hb
  have hws : Spot.run .value ws.chars = .value := (reads_ws (.inr (.inr rfl)) ws).run
  have hmee : meets juxtaposes .value (ws.chars ++ c :: rest) := by
    rw [meets_append, hws, meets]
    rcases hc with rfl | rfl <;> simp [juxtaposes]
  rw [meets_append, ha, hmee, Bool.or_true]

/-- A buffer that does not become a JSON text any more. -/
inductive Lost (cs : Str) : Prop
  | juxtaposed (h : meets juxtaposes .opening cs = true)
  /-- the comma behind `a` cannot be erased without that, and `a` has a comma in front of a
  bracket -/
  | trailing (a b : Str) (h : cs = a ++ ',' :: b) (htrails : meets trails .opening a = true)
    (hvalue : Spot.run .opening a = .value) (hbegins : Begins b)

theorem Lost.append (h : Lost cs) (t : Str) : Lost (cs ++ t) := by
  cases h with
  | juxtaposed h =>
    refine .juxtaposed ?_
    rw [meets_append, h, Bool.true_or]
  | trailing a b h htra hval hbeg =>
    refine .trailing a (b ++ t) ?_ htra hval (hbeg.append t)
    rw [h, append_assoc, cons_append]

theorem eraseLastComma_split (h : eraseLastComma (a ++ ',' :: b) = some cs) :
    (',' ∉ b ∧ cs = a ++ b) ∨ ∃ b', eraseLastComma b = some b' ∧ cs = a ++ ',' :: b' := by
  cases hb : eraseLastComma b with
  | none =>
    have hcom := not_comma_mem_of_eraseLastComma hb
    rw [eraseLastComma_append hcom] at h
    exact .inl ⟨hcom, (some.inj h).symm⟩
  | some b' =>
    obtain ⟨x, y, rfl, hy, rfl⟩ := eraseLastComma_eq_some hb
    have hspl : a ++ ',' :: (x ++ ',' :: y) = (a ++ ',' :: x) ++ ',' :: y := by simp
    rw [hspl, eraseLastComma_append hy] at h
    rw [← some.inj h]
    simp

theorem eraseLastComma_append_left (ha : ',' ∉ a) (b : Str) :
    eraseLastComma (a ++ b) = (eraseLastComma b).map (a ++ ·) := by
  induction a with
  | nil => simp
  | cons c a ih =>
    rw [mem_cons, not_or] at ha
    rw [cons_append, eraseLastComma, ih ha.2]
    cases eraseLastComma b with
    | none => exact if_neg (Ne.symm ha.1)
    | some b' => rfl

theorem not_comma_mem_ws (ws : Ws) : ',' ∉ ws.chars := fun h => absurd (ws.ws _ h) (by decide)

theorem Begins.eraseLastComma (h : Begins cs) (he : Json.eraseLastComma cs = some cs') :
    Begins cs' := by
  obtain ⟨ws, c, rest, rfl, hc⟩ := h
  have hcom : ',' ∉ [c] := by
    rcases hc with rfl | rfl <;> decide
  rw [eraseLastComma_append_left (not_comma_mem_ws ws), ← singleton_append,
    eraseLastComma_append_left hcom] at he
  cases hrest : Json.eraseLastComma rest with
  | none =>
    rw [hrest] at he
    cases he
  | some rest' =>
    rw [hrest] at he
    exact ⟨ws, c, rest', (some.inj he).symm, hc⟩

theorem Lost.eraseLastComma (h : Lost cs) (hbsl : '\\' ∉ cs)
    (he : Json.eraseLastComma cs = some cs') : Lost cs' := by
  cases h with
  | juxtaposed h =>
    obtain ⟨a, b, rfl, -, rfl⟩ := eraseLastComma_eq_some he
    exact .juxtaposed
      ((run_erased (run_ne_escape (fun hmem => hbsl (mem_append_left _ hmem)) (by decide))).2 h)
  | trailing a b h htra hval hbeg =>
    subst h
    rcases eraseLastComma_split he with ⟨-, rfl⟩ | ⟨b', hb', rfl⟩
    · exact .juxtaposed (juxtaposes_of_begins hval hbeg)
    · exact .trailing a b' rfl htra hval (hbeg.eraseLastComma hb')

theorem Lost.not_isText (h : Lost cs) : ¬ IsText cs := by
  intro htext
  have hrds := reads_of_isText htext
  cases h with
  | juxtaposed h =>
    rw [hrds.juxtaposes] at h
    cases h
  | trailing a b h htra hval hbeg =>
    have := hrds.trails
    rw [h, meets_append, htra] at this
    cases this

end Matador.Json
