import Matador.Http.HeaderLines

/-!
# Parsing responses

`response_parser` reads a response in one or more calls of `parse`. The start of a call that is not
in the body sets `http_prefix_index_` to zero, also within the word `HTTP` at the start of the
response.
-/

namespace Matador.Http

open Lib

/-! ## Responses -/

structure Response where
  status : Status := .ok
  version : Version := {}
  content : Content := {}
  headers : ParamMap := .empty
  body : Str := []
  deriving DecidableEq

def Response.insertHeader (key value : Str) (resp : Response) : Response :=
  let resp := { resp with headers := resp.headers.insert key value }
  if sameLetters key contentTypeName then { resp with content.type := value }
  else if sameLetters key contentLengthName then { resp with content.length := value }
  else if sameLetters key contentMd5Name then { resp with content.md5 := value }
  else resp

/-! ## The parser -/

/-- The states of `response_parser` that are used. -/
inductive ResponseState
  | version | majorVersion | minorVersion | statusCode | statusText
  | line (state : LineState)
  deriving DecidableEq, Repr

/-- `response_parser`, with the response it fills. -/
structure ResponseParser where
  state : ResponseState := .version
  httpPrefixIndex : Nat := 0
  currentStatus : Str := []
  lines : Lines := {}
  resp : Response := {}
  deriving DecidableEq

namespace ResponseParser

def parseVersion (c : Char) (s : ResponseParser) : Verdict × ResponseParser :=
  parseVersionWord c s.httpPrefixIndex { s with httpPrefixIndex := s.httpPrefixIndex + 1 }
    { s with state := .majorVersion } s

def parseMajorVersion (c : Char) (s : ResponseParser) : Verdict × ResponseParser :=
  parseVersionDigit c '.' { s with resp.version.major := c.toNat - 48 }
    { s with state := .minorVersion } s

def parseMinorVersion (c : Char) (s : ResponseParser) : Verdict × ResponseParser :=
  parseVersionDigit c ' ' { s with resp.version.minor := c.toNat - 48 }
    { s with state := .statusCode } s

def parseStatusCode (c : Char) (s : ResponseParser) : Verdict × ResponseParser :=
  if c.isDigit then (.accept, { s with currentStatus := s.currentStatus ++ [c] })
  else if c = ' ' then
    match toStatus s.currentStatus with
    | some status =>
        (.accept, { s with resp.status := status, currentStatus := [], state := .statusText })
    | none => (.throw, s)
  else (.reject, s)

def parseStatusText (c : Char) (s : ResponseParser) : Verdict × ResponseParser :=
  if c.isAlphanum || c == ' ' then (.accept, { s with currentStatus := s.currentStatus ++ [c] })
  else if c = '\r' then (.accept, { s with currentStatus := [], state := .line .header })
  else (.reject, s)

/-- The characters that `parse_header_value` adds to a value. -/
def isValueChar (c : Char) : Bool := isUtf8 c || isGraph c

def put (s : ResponseParser) (state : LineState) (lines : Lines) (resp : Response) :
    ResponseParser :=
  { s with state := .line state, lines, resp }

/-- The functions from `parse_header` to `parse_header_finish`. -/
def parseLine (state : LineState) (c : Char) (s : ResponseParser) : Verdict × ResponseParser :=
  Lines.read isValueChar Response.insertHeader s.put c state s.lines s.resp s

def step (c : Char) (s : ResponseParser) : Verdict × ResponseParser :=
  match s.state with
  | .version => parseVersion c s
  | .majorVersion => parseMajorVersion c s
  | .minorVersion => parseMinorVersion c s
  | .statusCode => parseStatusCode c s
  | .statusText => parseStatusText c s
  | .line state => parseLine state c s

end ResponseParser

/-- `response_parser::parse`, as a reader. -/
def responseReader : Reader Char ResponseParser where
  enter s := if s.state = .line .body then s else { s with httpPrefixIndex := 0 }
  stop _ := false
  step := ResponseParser.step
  inBody s := s.state == .line .body
  hasBody _ := true
  missing s := missingOf s.resp.content.length s.resp.body
  append rest s := { s with resp.body := s.resp.body ++ rest }
  complete s := { s with state := .version }
  assign rest s := { s with resp.body := rest, state := .version }
  leave s := s

namespace ResponseParser

open Reader

/-! ## The start of a call -/

def atIndex (i : Nat) (s : ResponseParser) : ResponseParser := { s with httpPrefixIndex := i }

/-- The parser with other members that are set before they are used. -/
def beside (i : Nat) (l : Lines) (s : ResponseParser) : ResponseParser :=
  { s with httpPrefixIndex := i, lines := l }

def lineState (s : ResponseParser) : LineState :=
  match s.state with
  | .line state => state
  | _ => .header

/-- The parsers differ at most in members that are set before they are used, if a call starts
here. -/
def Alike (s t : ResponseParser) : Prop := ∃ i l, s = t.beside i l ∧ l.Like t.lines t.lineState

/-- The parsers differ at most in members that are set before they are used. -/
def Same (s t : ResponseParser) : Prop :=
  Alike s t ∧ (t.state = .version → s.httpPrefixIndex = t.httpPrefixIndex)

def place (s : ResponseParser) : Place :=
  if s.state = .version then .word s.httpPrefixIndex else .behind

theorem place_eq_word {s : ResponseParser} {i : Nat} :
    s.place = .word i ↔ s.state = .version ∧ s.httpPrefixIndex = i := by
  unfold place
  split <;> simp_all

theorem Same.refl (s : ResponseParser) : Same s s :=
  ⟨⟨s.httpPrefixIndex, s.lines, rfl, .refl _ _⟩, fun _ => rfl⟩

section Step

variable {s t : ResponseParser}

theorem Alike.resp (h : Alike s t) : s.resp = t.resp := by
  obtain ⟨i, l, rfl, -⟩ := h
  rfl

theorem Alike.state (h : Alike s t) : s.state = t.state := by
  obtain ⟨i, l, rfl, -⟩ := h
  rfl

theorem same_step (c : Char) (h : Same s t) : Related Same (step c s) (step c t) := by
  unfold step
  rw [h.1.state]
  cases hsta : t.state with
  | version =>
    have hind : s.httpPrefixIndex = t.httpPrefixIndex := h.2 hsta
    obtain ⟨⟨i, l, rfl, hl⟩, -⟩ := h
    obtain rfl : i = t.httpPrefixIndex := hind
    have hflag : l.Like t.lines .header := by simpa [lineState, hsta] using hl
    exact related_parseVersionWord ⟨⟨_, l, rfl, hl⟩, fun _ => rfl⟩ ⟨⟨_, l, rfl, hflag⟩, nofun⟩
      ⟨⟨_, l, rfl, hl⟩, fun _ => rfl⟩
  | line state =>
    obtain ⟨⟨i, l, rfl, hl⟩, -⟩ := h
    obtain ⟨_, index, status, lines, resp⟩ := t
    cases hsta
    exact (show l.Like lines state from hl).read ⟨⟨i, l, rfl, hl⟩, nofun⟩
      fun st l₁ l₂ m hlike => ⟨⟨i, l₁, rfl, hlike⟩, nofun⟩
  | _ =>
    obtain ⟨⟨i, l, rfl, hl⟩, -⟩ := h
    obtain ⟨_, index, status, lines, resp⟩ := t
    cases hsta
    simp only [parseMajorVersion, parseMinorVersion, parseVersionDigit, parseStatusCode,
      parseStatusText, beside]
    split_ifs
    all_goals try split
    all_goals exact ⟨rfl, ⟨i, l, rfl, hl⟩, nofun⟩

end Step

/-! ## What a character does -/

/-- The blank behind a status code that is not in the map. -/
def EndsUnknown (c : Char) (s : ResponseParser) : Prop :=
  c = ' ' ∧ s.state = .statusCode ∧ toStatus s.currentStatus = none

section Spec

variable {c : Char} {s : ResponseParser}

/-- **What a character does.** -/
theorem step_spec : Place.Moves place (·.state == .line .body) EndsUnknown c s (step c s) := by
  obtain ⟨state, index, status, lines, resp⟩ := s
  cases state with
  | line state => exact Lines.moves_read rfl (fun _ _ _ => rfl) fun st _ _ => by cases st <;> rfl
  | version => exact Place.moves_parseVersionWord rfl ⟨rfl, rfl⟩ ⟨rfl, rfl⟩
  | statusCode =>
    simp only [step, parseStatusCode]
    split_ifs with _ hblk
    · exact ⟨rfl, rfl⟩
    · split
      · exact ⟨rfl, rfl⟩
      · next hnone => exact ⟨rfl, hblk, rfl, hnone⟩
    · trivial
  | _ =>
    simp only [step, parseMajorVersion, parseMinorVersion, parseVersionDigit, parseStatusText]
    split_ifs
    · exact ⟨rfl, rfl⟩
    · exact ⟨rfl, rfl⟩
    · trivial

end Spec

theorem enter_of_head {s : ResponseParser} (h : s.state ≠ .line .body) :
    responseReader.enter s = s.atIndex 0 := if_neg h

theorem follows : Place.Follows responseReader place EndsUnknown where
  step c s := step_spec
  inBody s h := by rw [place, show s.state = .line .body from beq_iff_eq.mp h, if_neg nofun]

theorem coherent : responseReader.Coherent Same Alike (Place.InWord place) where
  append_append p q s := by simp [responseReader]
  missing_append _ _ _ := missingOf_append
  hasBody_append _ _ := rfl
  inBody_append _ _ := rfl
  inBody_finish c s s' h := (follows.moves h).2
  inBody_accept c s s' h := (follows.moves h).2
  refl := .refl
  alike _ _ h := h.1
  step c _ _ := same_step c
  inBody s t h := congrArg (· == .line .body) h.1.state
  hasBody _ _ _ := rfl
  missing s t h :=
    congrArg (fun resp : Response => missingOf resp.content.length resp.body) h.1.resp
  append p s t := by
    rintro ⟨⟨i, l, rfl, hl⟩, hi⟩
    exact ⟨⟨i, l, rfl, hl⟩, hi⟩
  complete s t := by
    rintro ⟨⟨i, l, rfl, hl⟩, -⟩
    exact ⟨i, l, rfl, hl.skipBlanks⟩
  assign p s t := by
    rintro ⟨⟨i, l, rfl, hl⟩, -⟩
    exact ⟨i, l, rfl, hl.skipBlanks⟩
  leave s t h := h
  enter s t h htorn := by
    by_cases hbody : s.state = .line .body
    · rwa [show responseReader.enter s = s from if_pos hbody]
    · rw [enter_of_head hbody]
      obtain ⟨⟨i, l, rfl, hl⟩, -⟩ := h
      refine ⟨⟨0, l, rfl, hl⟩, fun hsta => ?_⟩
      by_contra hne
      exact htorn ⟨_, Nat.pos_of_ne_zero (Ne.symm hne), place_eq_word.mpr ⟨hsta, rfl⟩⟩
  enter_alike s t h := by
    by_cases hbody : t.state = .line .body
    · rw [show responseReader.enter s = s from if_pos (h.state.trans hbody),
        show responseReader.enter t = t from if_pos hbody]
      exact ⟨h, fun hsta => absurd (hbody.symm.trans hsta) nofun⟩
    · rw [enter_of_head hbody, enter_of_head (h.state ▸ hbody)]
      obtain ⟨i, l, rfl, hl⟩ := h
      exact ⟨⟨0, l, rfl, hl⟩, fun _ => rfl⟩
  torn c s t := by
    rintro ⟨⟨i, l, rfl, -⟩, hi⟩ ⟨j, hpos, hword⟩
    obtain ⟨hsta, rfl⟩ := place_eq_word.mp hword
    have hhead : t.state ≠ .line .body := by simp [hsta]
    have hbody : (t.state == .line .body) = false := beq_eq_false_iff_ne.mpr hhead
    rw [enter_of_head (s := t.beside i l) hhead]
    refine ⟨hbody, hbody, ?_⟩
    have hstep (s : ResponseParser) (h : s.state = .version) :
        responseReader.step c s = parseVersion c s := by
      show step c s = _
      rw [step, h]
    rw [hstep t hsta, hstep _ (show ((t.beside i l).atIndex 0).state = .version from hsta)]
    exact reject_of_word hpos

end ResponseParser

end Matador.Http
