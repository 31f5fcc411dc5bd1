import Matador.Http.Http
import Matador.Lib.Pieces

/-!
# The header lines

`request_parser` and `response_parser` read them with functions of the same names and bodies. The
characters of a value and what is done with a header are parameters here.

A line that starts with a blank continues the value of the line before it, without the blanks. A
header is inserted when the first character of the next line has been read.
-/

namespace Matador.Http

open List Lib Option

/-! ## Where a parser is -/

/-- Where a parser is in a text: in the method, in the url, behind so many letters of `HTTP`, or
behind its slash. -/
inductive Place
  | method
  | url
  | word (letters : Nat)
  | behind
  deriving DecidableEq

def Place.next : Place → Char → Place
  | .method, c => if c = ' ' then .url else .method
  | .url, c => if c = ' ' then .word 0 else .url
  | .word i, _ => if i < 4 then .word (i + 1) else .behind
  | .behind, _ => .behind

theorem Place.foldl_behind (u : Str) : u.foldl next .behind = .behind :=
  foldl_fixed' (fun _ => rfl) u

theorem Place.foldl_word (u : Str) {i : Nat} (hi : i ≤ 4) :
    u.foldl next (.word i) = if i + u.length ≤ 4 then .word (i + u.length) else .behind := by
  induction u generalizing i with
  | nil => rw [length_nil, Nat.add_zero, if_pos hi, foldl_nil]
  | cons c u ih =>
    rw [foldl_cons, next, length_cons]
    by_cases hlt : i < 4
    · rw [if_pos hlt, ih hlt, Nat.succ_add_eq_add_succ]
    · rw [if_neg hlt, foldl_behind, if_neg (by omega)]

/-- What a character does at a place: where it moves the parser to, and when it ends the head or
throws. -/
def Place.Moves {σ : Type} (place : σ → Place) (inBody : σ → Bool) (Throws : Char → σ → Prop)
    (c : Char) (s : σ) : Verdict × σ → Prop
  | (.accept, s') => place s' = (place s).next c ∧ inBody s' = false
  | (.finish, s') => place s = .behind ∧ inBody s' = true
  | (.reject, _) => True
  | (.throw, _) => place s = .behind ∧ Throws c s

/-- A parser that every character moves on in the text. -/
structure Place.Follows {σ : Type} (R : Reader Char σ) (place : σ → Place)
    (Throws : Char → σ → Prop) : Prop where
  step : ∀ c s, Moves place R.inBody Throws c s (R.step c s)
  inBody : ∀ s, R.inBody s = true → place s = .behind

namespace Place.Follows

variable {σ : Type} {R : Reader Char σ} {place : σ → Place} {Throws : Char → σ → Prop}
  (hR : R.Counted) (hplace : Follows R place Throws) {s₀ t : σ} {u : Str} {i : Nat}
  (hs₀ : R.inBody s₀ = false) (hstop : R.Passes s₀ u)
include hplace

theorem moves {c : Char} {s : σ} {r : Verdict × σ} (h : R.step c s = r) :
    Moves place R.inBody Throws c s r :=
  h ▸ hplace.step c s

include hR hs₀ hstop

theorem cases : (∃ t, R.process u s₀ = (.more, t) ∧ place t = u.foldl next (place s₀)) ∨
    (R.process u s₀).1 = .invalid ∨
      u.foldl next (place s₀) = .behind ∧ ∀ t, R.process u s₀ = (.more, t) → place t = .behind := by
  rcases hR.process_cases (fun v s => place s = v.foldl next (place s₀))
    (fun c v s s' hs h => by rw [foldl_append, ← hs]; exact (hplace.moves h).1) rfl hs₀ hstop with
    hmore | hinv | ⟨⟨v, c, s, w, t, rest, rfl, hs, hstep, hw⟩, hbody⟩
  · exact .inl hmore
  · exact .inr (.inl hinv)
  · have hbhd : place s = .behind := by
      rcases hw with rfl | rfl <;> exact (hplace.moves hstep).1
    refine .inr (.inr ⟨?_, fun t ht => hplace.inBody t (hbody t ht)⟩)
    rw [foldl_append, ← hs, hbhd, foldl_behind]

theorem more_of_word (hu : u.foldl next (place s₀) = .word i)
    (hvld : (R.process u s₀).1 ≠ .invalid) :
    ∃ t, R.process u s₀ = (.more, t) ∧ place t = .word i := by
  rcases hplace.cases hR hs₀ hstop with ⟨t, ht, hplace⟩ | hinv | ⟨hbhd, -⟩
  · exact ⟨t, ht, hplace.trans hu⟩
  · exact absurd hinv hvld
  · rw [hbhd] at hu
    cases hu

theorem word_of_more (h : R.process u s₀ = (.more, t)) (ht : place t = .word i) :
    u.foldl next (place s₀) = .word i := by
  rcases hplace.cases hR hs₀ hstop with ⟨t', ht', hplace⟩ | hinv | ⟨-, hbhd⟩
  · cases h.symm.trans ht'
    exact hplace.symm.trans ht
  · rw [h] at hinv
    cases hinv
  · rw [hbhd t h] at ht
    cases ht

end Place.Follows

/-- Within the word `HTTP`, or behind it. -/
def Place.InWord {σ : Type} (place : σ → Place) (s : σ) : Prop := ∃ i, 0 < i ∧ place s = .word i

/-! ## The version -/

section Version

variable {σ : Type}

/-- `parse_version` of both parsers; `next` is behind a letter of `HTTP`, `major` behind the
slash. -/
def parseVersionWord (c : Char) (index : Nat) (next major s : σ) : Verdict × σ :=
  if index < httpVersionPrefix.length then
    (if httpVersionPrefix[index]? = some c then .accept else .reject, next)
  else if c = '/' then (.accept, major)
  else (.reject, s)

/-- `parse_major_version` and `parse_minor_version` of both parsers: a digit, or the character
behind it. -/
def parseVersionDigit (c last : Char) (digit next s : σ) : Verdict × σ :=
  if c.isDigit then (.accept, digit)
  else if c = last then (.accept, next)
  else (.reject, s)

variable {c : Char} {index : Nat} {next next' major major' s s' : σ}

theorem related_parseVersionWord {R : σ → σ → Prop} (hnext : R next next') (hmajor : R major major')
    (hs : R s s') :
    Reader.Related R (parseVersionWord c index next major s)
      (parseVersionWord c index next' major' s') := by
  unfold parseVersionWord
  split_ifs
  · exact ⟨rfl, hnext⟩
  · exact ⟨rfl, hnext⟩
  · exact ⟨rfl, hmajor⟩
  · exact ⟨rfl, hs⟩

theorem Place.moves_parseVersionWord {place : σ → Place} {inBody : σ → Bool}
    {Throws : Char → σ → Prop} (hs : place s = .word index)
    (hnext : place next = .word (index + 1) ∧ inBody next = false)
    (hmajor : place major = .behind ∧ inBody major = false) :
    Moves place inBody Throws c s (parseVersionWord c index next major s) := by
  unfold parseVersionWord
  split_ifs with hlt
  · exact ⟨hnext.1.trans (by rw [hs]; exact (if_pos hlt).symm), hnext.2⟩
  · trivial
  · exact ⟨hmajor.1.trans (by rw [hs]; exact (if_neg hlt).symm), hmajor.2⟩
  · trivial

/-- Within the word `HTTP` no character is accepted both there and at its start. -/
theorem reject_of_word (hpos : 0 < index) :
    (parseVersionWord c index next major s).1 = .reject ∨
    (parseVersionWord c 0 next' major' s').1 = .reject := by
  have hfst (h : ¬ httpVersionPrefix[0]? = some c) :
      (parseVersionWord c 0 next' major' s').1 = .reject := if_neg h
  rw [parseVersionWord]
  split_ifs with hlt hlet hsls
  · exact .inr (hfst (letter_ne_first hpos hlet))
  · exact .inl rfl
  · exact .inr (hfst (by rw [hsls]; decide))
  · exact .inl rfl

end Version

/-! ## Writing header lines -/

def crlf : Str := ['\r', '\n']

def nameValueSeparator : Str := [':', ' ']

def headerBuffers (header : Str × Str) : List Str := [header.1, nameValueSeparator, header.2, crlf]

/-! ## The functions -/

/-- The states of both parsers from `HEADER` on. -/
inductive LineState
  | header | headerKey | headerValueBegin | headerValue | headerNewline | headerFinish | body
  deriving DecidableEq, Repr

/-- The members of both parsers that the header functions use. -/
structure Lines where
  currentKey : Str := []
  currentValue : Str := []
  blanks : Str := []
  skipBlanks : Bool := false
  deriving DecidableEq, Repr

namespace Lines

variable {M : Type}

def parseHeader (c : Char) (l : Lines) : Option (LineState × Lines) :=
  if c = '\n' then some (.headerKey, { l with currentKey := [], currentValue := [] }) else none

def parseHeaderKey (c : Char) (l : Lines) : Option (LineState × Lines) :=
  if c.isAlphanum || c == '-' then some (.headerKey, { l with currentKey := l.currentKey ++ [c] })
  else if c = ':' then some (.headerValueBegin, l)
  else if c = ' ' then some (.headerKey, l)
  else none

def parseHeaderValueBegin (c : Char) (l : Lines) : Option (LineState × Lines) :=
  if c = ' ' then some (.headerValueBegin, l)
  else if isGraph c then some (.headerValue, { l with blanks := [], currentValue := [c] })
  else none

/-- What `parse_header_value` does with the blanks before a character. -/
def fold (l : Lines) : Lines :=
  if !l.blanks.isEmpty && !l.skipBlanks then
    { l with currentValue := l.currentValue ++ l.blanks, blanks := [] }
  else if l.skipBlanks then { l with blanks := [], skipBlanks := false }
  else l

def parseHeaderValue (valueChar : Char → Bool) (c : Char) (l : Lines) :
    Option (LineState × Lines) :=
  if c == ' ' || c == '\t' then some (.headerValue, { l with blanks := l.blanks ++ [c] })
  else if valueChar c then
    some (.headerValue, { l.fold with currentValue := l.fold.currentValue ++ [c] })
  else if c = '\r' then some (.headerNewline, l)
  else none

def parseHeaderNewline (insertHeader : Str → Str → M → M) (c : Char) (l : Lines) (m : M) :
    Option (LineState × Lines × M) :=
  if c = '\n' then some (.headerNewline, l, m)
  else if c == ' ' || c == '\t' then some (.headerValue, { l with skipBlanks := true }, m)
  else if isGraph c then
    some (.headerKey, { l with currentKey := [c] }, insertHeader l.currentKey l.currentValue m)
  else if c = '\r' then
    some (.headerFinish, { l with currentKey := [] }, insertHeader l.currentKey l.currentValue m)
  else none

def parseHeaderFinish (c : Char) (l : Lines) : Option (LineState × Lines) :=
  if c = '\n' then some (.body, l) else none

/-- One character of the header lines. In the state `BODY` there is none. -/
def step (valueChar : Char → Bool) (insertHeader : Str → Str → M → M) (c : Char)
    (state : LineState) (l : Lines) (m : M) : Option (LineState × Lines × M) :=
  match state with
  | .header => (parseHeader c l).map fun r => (r.1, r.2, m)
  | .headerKey => (parseHeaderKey c l).map fun r => (r.1, r.2, m)
  | .headerValueBegin => (parseHeaderValueBegin c l).map fun r => (r.1, r.2, m)
  | .headerValue => (parseHeaderValue valueChar c l).map fun r => (r.1, r.2, m)
  | .headerNewline => parseHeaderNewline insertHeader c l m
  | .headerFinish => (parseHeaderFinish c l).map fun r => (r.1, r.2, m)
  | .body => none

/-- The functions from `parse_header` to `parse_header_finish` of a parser into which `put`
writes. -/
def read {σ : Type} (valueChar : Char → Bool) (insertHeader : Str → Str → M → M)
    (put : LineState → Lines → M → σ) (c : Char) (state : LineState) (l : Lines) (m : M) (s : σ) :
    Verdict × σ :=
  match step valueChar insertHeader c state l m with
  | some (state, l, m) => (if state = .body then .finish else .accept, put state l m)
  | none => (.reject, s)

theorem moves_read {σ : Type} {place : σ → Place} {inBody : σ → Bool} {Throws : Char → σ → Prop}
    {valueChar : Char → Bool} {insertHeader : Str → Str → M → M}
    {put : LineState → Lines → M → σ} {c : Char} {state : LineState} {l : Lines} {m : M} {s : σ}
    (hs : place s = .behind) (hput : ∀ st l m, place (put st l m) = .behind)
    (hbody : ∀ st l m, inBody (put st l m) = (st == .body)) :
    Place.Moves place inBody Throws c s (read valueChar insertHeader put c state l m s) := by
  unfold read
  split
  · next st l m _ =>
    split_ifs with hst
    · exact ⟨hs, by rw [hbody, hst]; rfl⟩
    · exact ⟨by rw [hput, hs]; rfl, by rw [hbody, beq_eq_false_iff_ne.mpr hst]⟩
  · trivial

theorem frame_step {X : Type} (f : M → X) {valueChar : Char → Bool}
    {insertHeader : Str → Str → M → M} (hins : ∀ key value m, f (insertHeader key value m) = f m)
    {c : Char} {state : LineState} {l : Lines} {m : M} {r : LineState × Lines × M}
    (h : step valueChar insertHeader c state l m = some r) : f r.2.2 = f m := by
  cases state with
  | headerNewline =>
    simp only [step, parseHeaderNewline] at h
    split_ifs at h <;> cases h
    · rfl
    · rfl
    · exact hins ..
    · exact hins ..
  | body => cases h
  | _ =>
    obtain ⟨_, -, rfl⟩ := Option.map_eq_some_iff.mp h
    rfl

/-! ## What is read again -/

/-- The members differ at most in what is set again before it is used. -/
def Like (l l' : Lines) : LineState → Prop
  | .header | .headerFinish | .body => l.skipBlanks = l'.skipBlanks
  | .headerKey | .headerValueBegin => l.currentKey = l'.currentKey ∧ l.skipBlanks = l'.skipBlanks
  | .headerValue | .headerNewline => l = l'

theorem Like.refl (l : Lines) (state : LineState) : Like l l state := by
  cases state <;> simp [Like]

theorem Like.skipBlanks {l l' : Lines} {state : LineState} (h : Like l l' state) :
    l.skipBlanks = l'.skipBlanks := by
  cases state with
  | header | headerFinish | body => exact h
  | headerKey | headerValueBegin => exact h.2
  | headerValue | headerNewline => exact congrArg Lines.skipBlanks h

theorem Like.step (valueChar : Char → Bool) (insertHeader : Str → Str → M → M) {l l' : Lines}
    {state : LineState} (h : Like l l' state) (c : Char) (m : M) :
    (step valueChar insertHeader c state l m = none ∧
      step valueChar insertHeader c state l' m = none) ∨
      ∃ state' l₁ l₂ m', step valueChar insertHeader c state l m = some (state', l₁, m') ∧
        step valueChar insertHeader c state l' m = some (state', l₂, m') ∧ Like l₁ l₂ state' := by
  cases state with
  | headerValue | headerNewline =>
    cases h
    rcases hstep : Lines.step valueChar insertHeader c _ l m with _ | ⟨state', l₁, m'⟩
    · exact .inl ⟨rfl, rfl⟩
    · exact .inr ⟨state', l₁, l₁, m', rfl, rfl, .refl l₁ state'⟩
  | body => exact .inl ⟨rfl, rfl⟩
  | _ =>
    simp only [Lines.step, parseHeader, parseHeaderKey, parseHeaderValueBegin, parseHeaderFinish]
    split_ifs
    all_goals first
      | exact .inl ⟨rfl, rfl⟩
      | exact .inr ⟨_, _, _, m, rfl, rfl, by simpa [Like] using h⟩

theorem Like.read {σ : Type} {R : σ → σ → Prop} {valueChar : Char → Bool}
    {insertHeader : Str → Str → M → M} {put put' : LineState → Lines → M → σ} {c : Char}
    {l l' : Lines} {state : LineState} {m : M} {s s' : σ} (h : Like l l' state) (hs : R s s')
    (hput : ∀ st l l' m, Like l l' st → R (put st l m) (put' st l' m)) :
    Reader.Related R (read valueChar insertHeader put c state l m s)
      (read valueChar insertHeader put' c state l' m s') := by
  unfold Lines.read
  rcases h.step valueChar insertHeader c m with ⟨h₁, h₂⟩ | ⟨st, l₁, l₂, m', h₁, h₂, hlike⟩
  · rw [h₁, h₂]
    exact ⟨rfl, hs⟩
  · rw [h₁, h₂]
    exact ⟨rfl, hput st l₁ l₂ m' hlike⟩

/-! ## Reading header lines -/

/-- The characters of a header name. -/
def IsName (key : Str) : Prop := key ≠ [] ∧ ∀ c ∈ key, c.isAlphanum || c == '-'

/-- A header value: printable, neither starting nor ending with a blank. -/
structure IsValue (value : Str) : Prop where
  ne_nil : value ≠ []
  print : ∀ c ∈ value, isPrint c = true
  head : value.head? ≠ some ' '
  last : value.getLast? ≠ some ' '

theorem isName_contentLength : IsName contentLengthName := ⟨by decide, all_eq_true.mp rfl⟩

theorem isName_contentType : IsName contentTypeName := ⟨by decide, all_eq_true.mp rfl⟩

/-- A name that has nothing to do with the content. -/
def IsPlainName (key : Str) : Prop :=
  sameLetters key contentTypeName = false ∧ sameLetters key contentLengthName = false ∧
    sameLetters key contentMd5Name = false

theorem isValue_natText (n : Nat) : IsValue (natText n) := by
  have hdig {c : Char} (hc : c ∈ natText n) : c.isDigit := Json.isDigit_of_mem_toDigits hc
  have hblk : ' ' ∉ natText n := fun h => absurd (hdig h) (by decide)
  refine ⟨Nat.toDigits_ne_nil, fun c hc => isPrint_of_isDigit (hdig hc), ?_, ?_⟩
  · exact fun h => hblk (mem_of_mem_head? h)
  · exact fun h => hblk (mem_of_mem_getLast? h)

def text (header : Str × Str) : Str := header.1 ++ ':' :: ' ' :: header.2 ++ ['\r', '\n']

theorem flatten_headerBuffers (headers : List (Str × Str)) :
    (headers.flatMap headerBuffers).flatten = headers.flatMap text := by
  induction headers with
  | nil => rfl
  | cons header headers ih =>
    rw [flatMap_cons, flatten_append, ih]
    simp [headerBuffers, text, nameValueSeparator, crlf]

def buffers (entries : List (Str × Str)) (content : Content) (body : Str) : List Str :=
  entries.flatMap headerBuffers ++ (if body.isEmpty then []
      else headerBuffers (contentLengthName, content.length) ++
        headerBuffers (contentTypeName, content.type)) ++
    [crlf] ++ if body.isEmpty then [] else [body]

def withContent (entries : List (Str × Str)) (content : Content) (body : Str) : List (Str × Str) :=
  entries ++ if body.isEmpty then []
    else [(contentLengthName, content.length), (contentTypeName, content.type)]

theorem flatten_buffers (entries : List (Str × Str)) (content : Content) (body : Str) :
    (buffers entries content body).flatten =
      (withContent entries content body).flatMap text ++ '\r' :: '\n' :: body := by
  rw [buffers, append_assoc, append_assoc, flatten_append, flatten_headerBuffers, withContent]
  cases hbody : body.isEmpty with
  | true =>
    rw [List.isEmpty_iff] at hbody
    simp [hbody, crlf]
  | false => simp [headerBuffers, text, nameValueSeparator, crlf]

theorem forall_withContent {P : Str × Str → Prop} {entries : List (Str × Str)} {content : Content}
    {body : Str} (h : ∀ header ∈ entries, P header)
    (hbody : body ≠ [] → P (contentLengthName, content.length) ∧
      P (contentTypeName, content.type)) :
    ∀ header ∈ withContent entries content body, P header := by
  refine forall_mem_append.mpr ⟨h, ?_⟩
  split
  · nofun
  · next hne =>
    obtain ⟨hlen, htype⟩ := hbody (by simpa using hne)
    exact forall_mem_cons.mpr ⟨hlen, forall_mem_singleton.mpr htype⟩

section Run

variable (valueChar : Char → Bool) (insertHeader : Str → Str → M → M)

def run : Str → LineState × Lines × M → Option (LineState × Lines × M)
  | [], s => some s
  | c :: cs, s => (step valueChar insertHeader c s.1 s.2.1 s.2.2).bind (run cs)

variable {valueChar insertHeader} (hvalue : ∀ c, isGraph c = true → valueChar c = true)
  (hcr : valueChar '\r' = false)

theorem run_append (u v : Str) (s : LineState × Lines × M) : run valueChar insertHeader (u ++ v) s =
      (run valueChar insertHeader u s).bind (run valueChar insertHeader v) := by
  induction u generalizing s with
  | nil => rfl
  | cons c u ih =>
    rw [cons_append, run, run, bind_assoc]
    exact congrArg _ (funext ih)

theorem run_key {key : Str} (hkey : ∀ c ∈ key, c.isAlphanum || c == '-') (l : Lines) (m : M) :
    run valueChar insertHeader key (.headerKey, l, m) =
      some (.headerKey, { l with currentKey := l.currentKey ++ key }, m) := by
  induction key generalizing l with
  | nil => simp [run]
  | cons c key ih =>
    have hc := hkey c mem_cons_self
    rw [run, step, parseHeaderKey, if_pos hc]
    refine (ih (forall_mem_cons.mp hkey).2 _).trans ?_
    simp

theorem step_blank (l : Lines) (m : M) :
    step valueChar insertHeader ' ' .headerValue l m =
      some (.headerValue, { l with blanks := l.blanks ++ [' '] }, m) :=
  rfl

theorem step_graph {c : Char} (hvalue : valueChar c) (hc : isGraph c) {l : Lines}
    (hskip : l.skipBlanks = false) (m : M) :
    step valueChar insertHeader c .headerValue l m =
      some (.headerValue,
        { l with currentValue := l.currentValue ++ l.blanks ++ [c], blanks := [] }, m) := by
  have hblk : ¬ (c == ' ' || c == '\t') := by
    simp [ne_of_isGraph hc (d := ' ') rfl, ne_of_isGraph hc (d := '\t') rfl]
  rw [step, parseHeaderValue, if_neg hblk, if_pos hvalue, fold]
  cases hbla : l.blanks with
  | nil => simp [hskip, ← hbla]
  | cons b bs => simp [hskip]

include hvalue in
theorem run_value {v : Str} (hv : ∀ c ∈ v, isPrint c) {l : Lines}
    (hskip : l.skipBlanks = false) (m : M) :
    ∃ l', run valueChar insertHeader v (.headerValue, l, m) = some (.headerValue, l', m) ∧
      l'.currentKey = l.currentKey ∧ l'.skipBlanks = false ∧
      l'.currentValue ++ l'.blanks = l.currentValue ++ l.blanks ++ v ∧
      (v ≠ [] → v.getLast? ≠ some ' ' → l'.blanks = []) := by
  induction v generalizing l with
  | nil => exact ⟨l, rfl, rfl, hskip, by simp, fun h => absurd rfl h⟩
  | cons c v ih =>
    -- the state behind the character
    obtain ⟨l₁, hstep, hkey₁, hskip₁, htext₁, hlast₁⟩ : ∃ l₁,
        step valueChar insertHeader c .headerValue l m = some (.headerValue, l₁, m) ∧
          l₁.currentKey = l.currentKey ∧
          l₁.skipBlanks = false ∧ l₁.currentValue ++ l₁.blanks = l.currentValue ++ l.blanks ++ [c] ∧
          (c ≠ ' ' → l₁.blanks = []) := by
      by_cases hc : c = ' '
      · subst hc
        exact ⟨_, step_blank l m, rfl, hskip, by simp, fun h => absurd rfl h⟩
      · have hgph := isGraph_of_isPrint (hv c mem_cons_self) hc
        exact ⟨_, step_graph (hvalue c hgph) hgph hskip m, rfl, hskip, by simp, fun _ => rfl⟩
    obtain ⟨l', hrun, hkey, hskip', htext, hlast⟩ := ih (forall_mem_cons.mp hv).2 hskip₁
    refine ⟨l', ?_, hkey.trans hkey₁, hskip', ?_, fun _ hend => ?_⟩
    · rw [run, hstep, bind_some, hrun]
    · rw [htext, htext₁]
      simp
    · cases v with
      | nil =>
        cases hrun
        exact hlast₁ (by simpa using hend)
      | cons d v => exact hlast (by simp) (by simpa using hend)

def pending (header : Str × Str) : Lines := ⟨header.1, header.2, [], false⟩

include hvalue hcr

theorem run_tail {header : Str × Str} (hv : IsValue header.2)
    {l : Lines} (hkey : l.currentKey = header.1) (hskip : l.skipBlanks = false) (m : M) :
    run valueChar insertHeader (':' :: ' ' :: header.2 ++ ['\r', '\n']) (.headerKey, l, m) =
      some (.headerNewline, pending header, m) := by
  obtain ⟨key, value⟩ := header
  obtain ⟨c, v, rfl⟩ := exists_cons_of_ne_nil hv.ne_nil
  have hc : c ≠ ' ' := fun h => hv.head (by simp [h])
  have hgph := isGraph_of_isPrint (hv.print c mem_cons_self) hc
  obtain ⟨l', hrun, hkey', hskip', htext, hlast⟩ := @run_value _ _ insertHeader hvalue _
    (fun x hx => hv.print x (mem_cons_of_mem c hx))
      { l with blanks := [], currentValue := [c] } hskip m
  have hbla : l'.blanks = [] := by
    cases v with
    | nil =>
      cases hrun
      rfl
    | cons d v => exact hlast (by simp) (by simpa using hv.last)
  have hl' : l' = pending (key, c :: v) := by
    rw [hbla, append_nil] at htext
    cases l'
    simp only at hkey' hskip' htext hbla
    simp [pending, hkey', hskip', htext, hbla, hkey]
  have hbeg : step valueChar insertHeader c .headerValueBegin l m =
      some (.headerValue, { l with blanks := [], currentValue := [c] }, m) := by
    rw [step, parseHeaderValueBegin, if_neg hc, if_pos hgph]
    rfl
  show run valueChar insertHeader (c :: v ++ ['\r', '\n']) (.headerValueBegin, l, m) = _
  have hret (l : Lines) :
      step valueChar insertHeader '\r' .headerValue l m = some (.headerNewline, l, m) := by
    rw [step, parseHeaderValue, if_neg (by decide), if_neg (by simp [hcr])]
    rfl
  rw [cons_append, run, hbeg, bind_some, run_append, hrun, hl', bind_some, run, hret]
  rfl

theorem run_first {header : Str × Str} (hk : IsName header.1) (hv : IsValue header.2) {l : Lines}
    (hkey : l.currentKey = []) (hskip : l.skipBlanks = false) (m : M) :
    run valueChar insertHeader (text header) (.headerKey, l, m) =
      some (.headerNewline, pending header, m) := by
  rw [text, append_assoc, run_append, run_key hk.2]
  refine run_tail hvalue hcr hv (l := { l with currentKey := l.currentKey ++ header.1 }) ?_ hskip m
  simp [hkey]

theorem run_next {before header : Str × Str} (hk : IsName header.1)
    (hv : IsValue header.2) (m : M) :
    run valueChar insertHeader (text header) (.headerNewline, pending before, m) =
      some (.headerNewline, pending header, insertHeader before.1 before.2 m) := by
  obtain ⟨key, value⟩ := header
  obtain ⟨hne, hname⟩ := hk
  obtain ⟨c, key, rfl⟩ := exists_cons_of_ne_nil hne
  have hgph := isGraph_of_name (hname c mem_cons_self)
  have hblk : ¬ (c == ' ' || c == '\t') := by
    simp [ne_of_isGraph hgph (d := ' ') rfl, ne_of_isGraph hgph (d := '\t') rfl]
  have hfst : step valueChar insertHeader c .headerNewline (pending before) m =
      some (.headerKey, { pending before with currentKey := [c] },
        insertHeader before.1 before.2 m) := by
    rw [step, parseHeaderNewline, if_neg (ne_of_isGraph hgph rfl), if_neg hblk, if_pos hgph]
    rfl
  rw [text, append_assoc, cons_append, run, hfst, bind_some, run_append,
    run_key (forall_mem_cons.mp hname).2]
  exact run_tail hvalue hcr hv rfl rfl _

def insertAll (insertHeader : Str → Str → M → M) (headers : List (Str × Str)) (m : M) : M :=
  headers.foldl (fun m header => insertHeader header.1 header.2 m) m

omit hvalue hcr in
theorem insertAll_eq {X : Type} (f : M → X) {headers : List (Str × Str)}
    (h : ∀ header ∈ headers, ∀ m, f (insertHeader header.1 header.2 m) = f m) (m : M) :
    f (insertAll insertHeader headers m) = f m := by
  induction headers generalizing m with
  | nil => rfl
  | cons header headers ih => exact (ih (forall_mem_cons.mp h).2 _).trans (h header mem_cons_self m)

theorem run_rest {before : Str × Str} {headers : List (Str × Str)}
    (hk : ∀ header ∈ headers, IsName header.1) (hv : ∀ header ∈ headers, IsValue header.2) (m : M) :
    ∃ l', run valueChar insertHeader (headers.flatMap text ++ ['\r'])
      (.headerNewline, pending before, m) =
      some (.headerFinish, l', insertAll insertHeader (before :: headers) m) := by
  induction headers generalizing before m with
  | nil => exact ⟨_, rfl⟩
  | cons header headers ih =>
    rw [flatMap_cons, append_assoc, run_append,
      run_next hvalue hcr (hk header mem_cons_self) (hv header mem_cons_self)]
    exact ih (forall_mem_cons.mp hk).2 (forall_mem_cons.mp hv).2 _

/-- **The header lines up to the blank line**: all headers are inserted, in their order. -/
theorem run_lines {headers : List (Str × Str)} (hne : headers ≠ [])
    (hk : ∀ header ∈ headers, IsName header.1) (hv : ∀ header ∈ headers, IsValue header.2)
    {l : Lines} (hkey : l.currentKey = []) (hskip : l.skipBlanks = false) (m : M) :
    ∃ l', run valueChar insertHeader (headers.flatMap text ++ ['\r']) (.headerKey, l, m) =
      some (.headerFinish, l', insertAll insertHeader headers m) := by
  obtain ⟨header, headers, rfl⟩ := exists_cons_of_ne_nil hne
  rw [flatMap_cons, append_assoc, run_append,
    run_first hvalue hcr (hk header mem_cons_self) (hv header mem_cons_self) hkey hskip]
  exact run_rest hvalue hcr (forall_mem_cons.mp hk).2 (forall_mem_cons.mp hv).2 m

end Run

/-! ## What the headers change -/

/-- How a message keeps the headers that are inserted: those of the content twice. -/
structure Holds (insertHeader : Str → Str → M → M) (headers : M → ParamMap)
    (content : M → Content) : Prop where
  headers : ∀ key value m, headers (insertHeader key value m) = (headers m).insert key value
  plain : ∀ key value m, IsPlainName key → content (insertHeader key value m) = content m
  length : ∀ value m, content (insertHeader contentLengthName value m) =
    { content m with length := value }
  type : ∀ value m, content (insertHeader contentTypeName value m) =
    { content m with type := value }

namespace Holds

variable {insertHeader : Str → Str → M → M} {headers : M → ParamMap} {content : M → Content}
  (h : Holds insertHeader headers content) {entries : List (Str × Str)} {c : Content}
  {body : Str} (m : M)
include h

theorem headers_insertAll (lines : List (Str × Str)) :
    headers (insertAll insertHeader lines m) =
      lines.foldl (fun m e => m.insert e.1 e.2) (headers m) := by
  induction lines generalizing m with
  | nil => rfl
  | cons header lines ih => exact (ih _).trans (by rw [h.headers]; rfl)

theorem content_withContent (hpln : ∀ header ∈ entries, IsPlainName header.1) :
    content (insertAll insertHeader (withContent entries c body) m) =
      if body = [] then content m else { content m with length := c.length, type := c.type } := by
  have hent : content (insertAll insertHeader entries m) = content m :=
    insertAll_eq content (fun header hmem m => h.plain header.1 header.2 m (hpln header hmem)) m
  unfold withContent
  split_ifs with hemp hbody hbody
  · rw [append_nil, hent]
  · exact absurd (isEmpty_iff.mp hemp) hbody
  · exact absurd (isEmpty_iff.mpr hbody) hemp
  · rw [insertAll, foldl_append, foldl_cons, foldl_cons, foldl_nil, h.type, h.length]
    exact congrArg (fun content : Content => { content with length := c.length, type := c.type })
      hent

end Holds

section Scan

variable {valueChar : Char → Bool} {insertHeader : Str → Str → M → M} {σ : Type} {R : Reader Char σ}
  {put : LineState → Lines → M → σ}

/-- A parser that reads the header lines with these functions. -/
structure ReadsLines (valueChar : Char → Bool) (insertHeader : Str → Str → M → M)
    (R : Reader Char σ) (put : LineState → Lines → M → σ) : Prop where
  stop : ∀ c st l m r, step valueChar insertHeader c st l m = some r → R.stop c = false
  accept : ∀ c st l m st' l' m', st' ≠ .body →
    step valueChar insertHeader c st l m = some (st', l', m') →
    R.step c (put st l m) = (.accept, put st' l' m')
  finish : ∀ c st l m l' m', step valueChar insertHeader c st l m = some (.body, l', m') →
    R.step c (put st l m) = (.finish, put .body l' m')

theorem ReadsLines.of_read
    (hstep : ∀ c st l m, R.step c (put st l m) =
      read valueChar insertHeader put c st l m (put st l m))
    (hstop : ∀ c st l m r, step valueChar insertHeader c st l m = some r → R.stop c = false) :
    ReadsLines valueChar insertHeader R put where
  stop := hstop
  accept c st l m st' l' m' hst' h := by
    rw [hstep, read, h]
    exact congrArg (·, put st' l' m') (if_neg hst')
  finish c st l m l' m' h := by rw [hstep, read, h]; rfl

theorem ReadsLines.scan_run (hR : ReadsLines valueChar insertHeader R put) {u : Str}
    {st st' : LineState} {l l' : Lines} {m m' : M} (hst' : st' ≠ .body)
    (h : run valueChar insertHeader u (st, l, m) = some (st', l', m')) (rest : Str) :
    R.scan (u ++ rest) (put st l m) = R.scan rest (put st' l' m') := by
  induction u generalizing st l m with
  | nil =>
    cases h
    rfl
  | cons c u ih =>
    obtain ⟨⟨st₁, l₁, m₁⟩, hstep, hrun⟩ := bind_eq_some_iff.mp h
    have hst₁ : st₁ ≠ .body := by
      rintro rfl
      cases u with
      | nil =>
        cases hrun
        exact hst' rfl
      | cons d u => cases hrun
    have hstop : ¬ R.stop c := by simp [hR.stop _ _ _ _ _ hstep]
    rw [cons_append, Reader.scan, if_neg hstop, hR.accept _ _ _ _ _ _ _ hst₁ hstep]
    exact ih hrun

/-- **The header lines and the blank line behind them**: the head ends, and all headers are
inserted. -/
theorem ReadsLines.scan_lines (hR : ReadsLines valueChar insertHeader R put)
    (hvalue : ∀ c, isGraph c → valueChar c) (hcr : valueChar '\r' = false)
    {headers : List (Str × Str)} (hne : headers ≠ []) (hk : ∀ header ∈ headers, IsName header.1)
    (hv : ∀ header ∈ headers, IsValue header.2) {l : Lines} (hkey : l.currentKey = [])
    (hskip : l.skipBlanks = false) (m : M) (rest : Str) :
    ∃ l', R.scan (headers.flatMap text ++ '\r' :: '\n' :: rest) (put .headerKey l m) =
      (.finish, put .body l' (insertAll insertHeader headers m), rest) := by
  obtain ⟨l', hrun⟩ := @run_lines _ _ insertHeader hvalue hcr _ hne hk hv _ hkey hskip m
  have hfin : step valueChar insertHeader '\n' .headerFinish l' (insertAll insertHeader headers m) =
      some (.body, l', insertAll insertHeader headers m) := rfl
  have hstop : ¬ R.stop '\n' := by simp [hR.stop _ _ _ _ _ hfin]
  have hst : LineState.headerFinish ≠ .body := nofun
  refine ⟨l', ?_⟩
  rw [append_cons, hR.scan_run hst hrun, Reader.scan, if_neg hstop, hR.finish _ _ _ _ _ _ hfin]

end Scan

end Lines

end Matador.Http
