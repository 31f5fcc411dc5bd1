import Matador.Http.HeaderLines

/-!
# Parsing requests

`request_parser` reads a request in one or more calls of `parse`. The start of a call sets
`http_prefix_index_` to zero, also within the word `HTTP`, which is then expected from its start
again.
-/

namespace Matador.Http

open Lib

/-! ## Requests -/

/-- `request`, without the members that the parser does not use. -/
structure Request where
  method : Method := .unknown
  url : Str := []
  fragment : Str := []
  version : Version := {}
  host : Str := []
  content : Content := {}
  headers : ParamMap := .empty
  queryParams : ParamMap := .empty
  formData : ParamMap := .empty
  body : Str := []
  deriving DecidableEq

def Request.insertHeader (key value : Str) (req : Request) : Request :=
  let req := { req with headers := req.headers.insert key value }
  if sameLetters key contentTypeName then { req with content.type := value }
  else if sameLetters key contentLengthName then { req with content.length := value }
  else if sameLetters key contentMd5Name then { req with content.md5 := value }
  else if sameLetters key hostName then { req with host := value }
  else req

/-! ## The parser -/

/-- `state_t` of `request_parser`. -/
inductive RequestState
  | method | urlPath | urlQueryField | urlQueryValue | urlFragment | version | majorVersion |
      minorVersion
  | line (state : LineState)
  deriving DecidableEq, Repr

/-- `hex_parse_t`. -/
inductive HexParse
  | first | second | finished
  deriving DecidableEq, Repr

/-- `request_parser`, with the request it fills. -/
structure RequestParser where
  state : RequestState := .method
  httpPrefixIndex : Nat := 0
  currentMethod : Str := []
  lines : Lines := {}
  currentQueryField : Str := []
  currentQueryValue : Str := []
  hexParseState : HexParse := .finished
  hexStr : Str := []
  req : Request := {}
  deriving DecidableEq

namespace RequestParser

/-- `parse_method`, with `apply_method`. -/
def parseMethod (c : Char) (s : RequestParser) : Verdict × RequestParser :=
  if c.isUpper then (.accept, { s with currentMethod := s.currentMethod ++ [c] })
  else if c = ' ' then
    (.accept,
      { s with req.method := toMethod s.currentMethod, currentMethod := [], state := .urlPath })
  else (.reject, s)

def parseUrlPath (c : Char) (s : RequestParser) : Verdict × RequestParser :=
  if c = '?' then (.accept, { s with currentQueryField := [], state := .urlQueryField })
  else if isUrlChar c then (.accept, { s with req.url := s.req.url ++ [c] })
  else if c = ' ' then (.accept, { s with httpPrefixIndex := 0, state := .version })
  else (.reject, s)

def parseUrlQueryField (c : Char) (s : RequestParser) : Verdict × RequestParser :=
  if c = '=' then (.accept, { s with state := .urlQueryValue })
  else if isUrlChar c && c != '?' then
    (.accept, { s with currentQueryField := s.currentQueryField ++ [c] })
  else (.reject, s)

/-- `strtol` of at most two characters to the base 16, up to the first that is no digit. -/
def hexValue (str : Str) : Nat :=
  (str.takeWhile Json.isHexDigit).foldl (fun n c =>
    16 * n + if c.isDigit then c.toNat - 48 else if c.isUpper then c.toNat - 55 else c.toNat - 87) 0

def insertParam (insert : Str → Str → Request → Request) (state : RequestState)
    (s : RequestParser) : Verdict × RequestParser :=
  if s.hexParseState = .finished then
    (.accept, { s with
      req := insert s.currentQueryField s.currentQueryValue s.req
      currentQueryField := []
      currentQueryValue := []
      state })
  else (.reject, s)

def parseValueChar (insert : Str → Str → Request → Request) (c : Char) (s : RequestParser) :
    Verdict × RequestParser :=
  if c = '%' then (.accept, { s with hexStr := [], hexParseState := .first })
  else if c = '&' then insertParam insert .urlQueryField s
  else if c = '#' then insertParam insert .urlFragment s
  else if c = '+' then (.accept, { s with currentQueryValue := s.currentQueryValue ++ [' '] })
  else if isUrlChar c && c != '?' then
    (.accept, { s with currentQueryValue := s.currentQueryValue ++ [c] })
  else if c = ' ' then
    let r := insertParam insert .version s
    if r.1 = .accept then (.accept, { r.2 with httpPrefixIndex := 0 }) else r
  else (.reject, s)

def parseUrlQueryValue (insert : Str → Str → Request → Request) (c : Char) (s : RequestParser) :
    Verdict × RequestParser :=
  if s.hexParseState = .first then
    if isHexChar c then (.accept, { s with hexStr := s.hexStr ++ [c], hexParseState := .second })
    else (.reject, s)
  else if s.hexParseState = .second then
    if isHexChar c then
      (.accept, { s with
        hexStr := s.hexStr ++ [c]
        currentQueryValue := s.currentQueryValue ++ [Char.ofNat (hexValue (s.hexStr ++ [c]))]
        hexParseState := .finished })
    else (.reject, s)
  else parseValueChar insert c s

def parseUrlFragment (c : Char) (s : RequestParser) : Verdict × RequestParser :=
  if isUrlChar c then (.accept, { s with req.fragment := s.req.fragment ++ [c] })
  else if c = ' ' then (.accept, { s with httpPrefixIndex := 0, state := .version })
  else (.reject, s)

def parseVersion (c : Char) (s : RequestParser) : Verdict × RequestParser :=
  parseVersionWord c s.httpPrefixIndex { s with httpPrefixIndex := s.httpPrefixIndex + 1 }
    { s with state := .majorVersion } s

def parseMajorVersion (c : Char) (s : RequestParser) : Verdict × RequestParser :=
  parseVersionDigit c '.' { s with req.version.major := c.toNat - 48 }
    { s with state := .minorVersion } s

def parseMinorVersion (c : Char) (s : RequestParser) : Verdict × RequestParser :=
  parseVersionDigit c '\r' { s with req.version.minor := c.toNat - 48 }
    { s with state := .line .header } s

/-- The characters that `parse_header_value` adds to a value. -/
def isValueChar (c : Char) : Bool := isGraph c

def put (s : RequestParser) (state : LineState) (lines : Lines) (req : Request) : RequestParser :=
  { s with state := .line state, lines, req }

/-- The functions from `parse_header` to `parse_header_finish`. -/
def parseLine (state : LineState) (c : Char) (s : RequestParser) : Verdict × RequestParser :=
  Lines.read isValueChar Request.insertHeader s.put c state s.lines s.req s

def insertQueryParam (key value : Str) (req : Request) : Request :=
  { req with queryParams := req.queryParams.insert key value }

def step (c : Char) (s : RequestParser) : Verdict × RequestParser :=
  match s.state with
  | .method => parseMethod c s
  | .urlPath => parseUrlPath c s
  | .urlQueryField => parseUrlQueryField c s
  | .urlQueryValue => parseUrlQueryValue insertQueryParam c s
  | .urlFragment => parseUrlFragment c s
  | .version => parseVersion c s
  | .majorVersion => parseMajorVersion c s
  | .minorVersion => parseMinorVersion c s
  | .line state => parseLine state c s

/-! ## The body -/

def insertFormData (key value : Str) (req : Request) : Request :=
  { req with formData := req.formData.insert key value }

/-- The switch of `parse_form_data`. -/
def formStep (c : Char) (s : RequestParser) : Verdict × RequestParser :=
  match s.state with
  | .urlQueryField => parseUrlQueryField c s
  | .urlQueryValue => parseUrlQueryValue insertFormData c s
  | _ => (.reject, s)

/-- The loop of `parse_form_data`, with `ret`. -/
def formLoop : Str → Bool → RequestParser → Bool × RequestParser
  | [], ret, s => (ret, s)
  | c :: cs, ret, s =>
    if c = '\x00' then (ret, s)
    else if (formStep c s).1 = .accept then formLoop cs true (formStep c s).2
    else (false, (formStep c s).2)

/-- The end of `parse_form_data`. The value that was read last is not cleared. -/
def formEnd (r : Bool × RequestParser) : RequestParser :=
  if r.1 && !r.2.currentQueryField.isEmpty then
    { r.2 with
      req := insertFormData r.2.currentQueryField r.2.currentQueryValue r.2.req
      currentQueryField := [] }
  else { r.2 with currentQueryField := [] }

def parseFormData (s : RequestParser) : RequestParser :=
  formEnd (formLoop s.req.body false { s with state := .urlQueryField })

def processBody (s : RequestParser) : RequestParser :=
  if s.req.content.type = formUrlencoded then parseFormData s else s

/-- `state_ = METHOD`. -/
def restart (s : RequestParser) : RequestParser := { s with state := .method }

end RequestParser

/-- `request_parser::parse`, as a reader. -/
def requestReader : Reader Char RequestParser where
  enter s := { s with httpPrefixIndex := 0 }
  stop c := c == '\x00'
  step := RequestParser.step
  inBody s := s.state == .line .body
  hasBody s := s.req.method == .post || s.req.method == .put
  missing s := missingOf s.req.content.length s.req.body
  append rest s := { s with req.body := s.req.body ++ rest }
  complete s := s.processBody.restart
  assign rest s := { s with req.body := rest, state := .method }
  leave s := s.restart

namespace RequestParser

open Reader

/-! ## The start of a call -/

/-- The parser with other members that are set before they are used. -/
def beside (i : Nat) (hex : Str) (l : Lines) (s : RequestParser) : RequestParser :=
  { s with httpPrefixIndex := i, hexStr := hex, lines := l }

def lineState (s : RequestParser) : LineState :=
  match s.state with
  | .line state => state
  | _ => .header

/-- The parsers differ at most in members that are set before they are used, if a call starts
here. -/
def Alike (s t : RequestParser) : Prop :=
  ∃ i hex l, s = t.beside i hex l ∧ (t.hexParseState ≠ .finished → hex = t.hexStr) ∧
    l.Like t.lines t.lineState

/-- The parsers differ at most in members that are set before they are used. -/
def Same (s t : RequestParser) : Prop :=
  Alike s t ∧ (t.state = .version → s.httpPrefixIndex = t.httpPrefixIndex)

def place (s : RequestParser) : Place :=
  match s.state with
  | .method => .method
  | .urlPath | .urlQueryField | .urlQueryValue | .urlFragment => .url
  | .version => .word s.httpPrefixIndex
  | .majorVersion | .minorVersion | .line _ => .behind

theorem place_eq_word {s : RequestParser} {i : Nat} :
    s.place = .word i ↔ s.state = .version ∧ s.httpPrefixIndex = i := by
  unfold place
  cases s.state <;> simp

theorem Same.refl (s : RequestParser) : Same s s :=
  ⟨⟨s.httpPrefixIndex, s.hexStr, s.lines, rfl, fun _ => rfl, .refl _ _⟩, fun _ => rfl⟩

variable {s t : RequestParser}

theorem Alike.req (h : Alike s t) : s.req = t.req := by
  obtain ⟨i, hex, l, rfl, -⟩ := h
  rfl

theorem Alike.state (h : Alike s t) : s.state = t.state := by
  obtain ⟨i, hex, l, rfl, -⟩ := h
  rfl

section Step

variable {s : RequestParser} {c : Char}

theorem same_parseUrlQueryField (h : Same s t) (ht : t.state = .urlQueryField) :
    Related Same (parseUrlQueryField c s) (parseUrlQueryField c t) := by
  obtain ⟨⟨i, hex, l, rfl, hhex, hl⟩, -⟩ := h
  obtain ⟨state, index, method, lines, field, value, hexs, hexStr, req⟩ := t
  cases ht
  simp only [parseUrlQueryField]
  split_ifs
  all_goals exact ⟨rfl, ⟨i, hex, l, rfl, hhex, hl⟩, nofun⟩

theorem same_parseUrlQueryValue (insert : Str → Str → Request → Request) (h : Same s t)
    (ht : t.state = .urlQueryValue) :
    Related Same (parseUrlQueryValue insert c s) (parseUrlQueryValue insert c t) := by
  obtain ⟨⟨i, hex, l, rfl, hhex, hl⟩, -⟩ := h
  obtain ⟨state, index, method, lines, field, value, hexs, hexStr, req⟩ := t
  cases ht
  simp only [parseUrlQueryValue, parseValueChar, insertParam, beside]
  cases hexs with
  | first | second =>
    obtain rfl : hex = hexStr := hhex nofun
    simp only [if_true]
    split_ifs
    all_goals exact ⟨rfl, ⟨i, _, l, rfl, fun _ => rfl, hl⟩, nofun⟩
  | finished =>
    simp only [reduceCtorEq, if_true, if_false]
    split_ifs
    -- the digits of an escape are cleared before it, where the index is zero
    all_goals first
      | exact ⟨rfl, ⟨i, _, l, rfl, hhex, hl⟩, nofun⟩
      | exact ⟨rfl, ⟨i, _, l, rfl, fun _ => rfl, hl⟩, nofun⟩
      | exact ⟨rfl, ⟨0, _, l, rfl, hhex, hl⟩, fun _ => rfl⟩

theorem same_step (c : Char) (h : Same s t) : Related Same (step c s) (step c t) := by
  unfold step
  rw [h.1.state]
  cases hsta : t.state with
  | urlQueryField => exact same_parseUrlQueryField h hsta
  | urlQueryValue => exact same_parseUrlQueryValue insertQueryParam h hsta
  | line state =>
    obtain ⟨⟨i, hex, l, rfl, hhex, hl⟩, -⟩ := h
    obtain ⟨_, index, method, lines, field, value, hexs, hexStr, req⟩ := t
    cases hsta
    exact (show l.Like lines state from hl).read ⟨⟨i, hex, l, rfl, hhex, hl⟩, nofun⟩
      fun st l₁ l₂ m hlike => ⟨⟨i, hex, l₁, rfl, hhex, hlike⟩, nofun⟩
  | version =>
    have hind : s.httpPrefixIndex = t.httpPrefixIndex := h.2 hsta
    obtain ⟨⟨i, hex, l, rfl, hhex, hl⟩, -⟩ := h
    obtain rfl : i = t.httpPrefixIndex := hind
    have hflag : l.Like t.lines .header := by simpa [lineState, hsta] using hl
    exact related_parseVersionWord ⟨⟨_, hex, l, rfl, hhex, hl⟩, fun _ => rfl⟩
      ⟨⟨_, hex, l, rfl, hhex, hflag⟩, nofun⟩
      ⟨⟨_, hex, l, rfl, hhex, hl⟩, fun _ => rfl⟩
  | _ =>
    obtain ⟨⟨i, hex, l, rfl, hhex, hl⟩, -⟩ := h
    obtain ⟨_, index, method, lines, field, value, hexs, hexStr, req⟩ := t
    cases hsta
    simp only [parseMethod, parseUrlPath, parseUrlFragment, parseMajorVersion, parseMinorVersion,
      parseVersionDigit]
    split_ifs
    -- the version starts with the index zero
    all_goals first
      | exact ⟨rfl, ⟨_, hex, l, rfl, hhex, hl⟩, fun _ => rfl⟩
      | exact ⟨rfl, ⟨_, hex, l, rfl, hhex, hl⟩, nofun⟩

end Step

theorem same_formStep (c : Char) (h : Same s t) : Related Same (formStep c s) (formStep c t) := by
  unfold formStep
  rw [h.1.state]
  split
  · next hsta => exact same_parseUrlQueryField h hsta
  · next hsta => exact same_parseUrlQueryValue insertFormData h hsta
  · exact ⟨rfl, h⟩

theorem same_formLoop (cs : Str) (ret : Bool) (h : Same s t) :
    Related Same (formLoop cs ret s) (formLoop cs ret t) := by
  induction cs generalizing ret s t with
  | nil => exact ⟨rfl, h⟩
  | cons c cs ih =>
    have hstep := same_formStep c h
    unfold formLoop
    rw [hstep.1]
    split_ifs
    · exact ⟨rfl, h⟩
    · exact ih true hstep.2
    · exact ⟨rfl, hstep.2⟩

theorem alike_restart (h : Alike s t) : Alike s.restart t.restart := by
  obtain ⟨i, hex, l, rfl, hhex, hl⟩ := h
  exact ⟨i, hex, l, rfl, hhex, hl.skipBlanks⟩

theorem alike_formEnd {x y : Bool × RequestParser} (h : Related Same x y) :
    Alike (formEnd x) (formEnd y) := by
  obtain ⟨ret, s⟩ := x
  obtain ⟨ret', t⟩ := y
  obtain ⟨hret, ⟨i, hex, l, hs, hhex, hl⟩, -⟩ := h
  dsimp only at hret hs
  subst hret hs
  unfold formEnd
  rw [show (t.beside i hex l).currentQueryField = t.currentQueryField from rfl]
  split_ifs
  · exact ⟨i, hex, l, rfl, hhex, hl⟩
  · exact ⟨i, hex, l, rfl, hhex, hl⟩

theorem alike_processBody (h : Alike s t) : Alike s.processBody t.processBody := by
  unfold processBody
  rw [h.req]
  split_ifs
  · obtain ⟨i, hex, l, rfl, hhex, hl⟩ := h
    exact alike_formEnd
      (same_formLoop t.req.body false ⟨⟨i, hex, l, rfl, hhex, hl.skipBlanks⟩, nofun⟩)
  · exact h

/-! ## What a character does -/

section Spec

variable {c : Char} {s : RequestParser}

/-- **What a character does.** -/
theorem step_spec :
    Place.Moves place (·.state == .line .body) (fun _ _ => False) c s (step c s) := by
  have hurl (h : isUrlChar c) : c ≠ ' ' := ne_blank_of h rfl
  have hupper (h : c.isUpper) : c ≠ ' ' := ne_blank_of h rfl
  obtain ⟨state, index, method, lines, field, value, escape, hex, req⟩ := s
  cases state with
  | line state => exact Lines.moves_read rfl (fun _ _ _ => rfl) fun st _ _ => by cases st <;> rfl
  | version => exact Place.moves_parseVersionWord rfl ⟨rfl, rfl⟩ ⟨rfl, rfl⟩
  | urlQueryValue =>
    simp only [step, parseUrlQueryValue, parseValueChar, insertParam]
    cases escape with
    | first | second =>
      simp only [reduceCtorEq, if_true, if_false]
      split_ifs with hhex
      · exact ⟨(if_neg (ne_blank_of hhex rfl)).symm, rfl⟩
      · trivial
    | finished =>
      simp only [reduceCtorEq, if_true, if_false]
      split_ifs
      all_goals simp_all [Place.Moves, place, Place.next]
  | _ =>
    simp only [step, parseMethod, parseUrlPath, parseUrlQueryField, parseUrlFragment,
      parseMajorVersion, parseMinorVersion, parseVersionDigit]
    split_ifs
    all_goals simp_all [Place.Moves, place, Place.next]

end Spec

theorem follows : Place.Follows requestReader place (fun _ _ => False) where
  step c s := step_spec
  inBody s h := by rw [place, show s.state = .line .body from beq_iff_eq.mp h]

theorem coherent : requestReader.Coherent Same Alike (Place.InWord place) where
  append_append p q s := by simp [requestReader]
  missing_append _ _ _ := missingOf_append
  hasBody_append _ _ := rfl
  inBody_append _ _ := rfl
  inBody_finish c s s' h := (follows.moves h).2
  inBody_accept c s s' h := (follows.moves h).2
  refl := .refl
  alike _ _ h := h.1
  step c _ _ := same_step c
  inBody s t h := congrArg (· == .line .body) h.1.state
  hasBody s t h := congrArg (fun req : Request => req.method == .post || req.method == .put) h.1.req
  missing s t h := congrArg (fun req : Request => missingOf req.content.length req.body) h.1.req
  append p s t := by
    rintro ⟨⟨i, hex, l, rfl, h⟩, hi⟩
    exact ⟨⟨i, hex, l, rfl, h⟩, hi⟩
  complete s t h := alike_restart (alike_processBody h.1)
  assign p s t := by
    rintro ⟨⟨i, hex, l, rfl, hhex, hl⟩, -⟩
    exact ⟨i, hex, l, rfl, hhex, hl.skipBlanks⟩
  leave s t h := alike_restart h
  enter s t := by
    rintro ⟨⟨i, hex, l, rfl, h⟩, hi⟩ htorn
    refine ⟨⟨0, hex, l, rfl, h⟩, fun hsta => ?_⟩
    by_contra hne
    exact htorn ⟨_, Nat.pos_of_ne_zero (Ne.symm hne), place_eq_word.mpr ⟨hsta, rfl⟩⟩
  enter_alike s t := by
    rintro ⟨i, hex, l, rfl, h⟩
    exact ⟨⟨0, hex, l, rfl, h⟩, fun _ => rfl⟩
  torn c s t := by
    rintro ⟨⟨i, hex, l, rfl, -⟩, hi⟩ ⟨j, hpos, hword⟩
    obtain ⟨hsta, rfl⟩ := place_eq_word.mp hword
    have hbody : (t.state == .line .body) = false := by simp [hsta]
    refine ⟨hbody, hbody, ?_⟩
    have hstep (s : RequestParser) (h : s.state = .version) :
        requestReader.step c s = parseVersion c s := by
      show step c s = _
      rw [step, h]
    rw [hstep t hsta, hstep (requestReader.enter (t.beside i hex l)) hsta]
    exact reject_of_word hpos

end RequestParser

end Matador.Http
