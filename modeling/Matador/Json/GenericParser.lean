import Matador.Json.Value

/-!
# The character-level parser

`generic_json_parser` calls a function of the derived class for each part of a text. Nothing depends
on what these functions do, so a run is given by the list of the calls (`Event`).

The cursor is what remains of the text; its end is the terminating NUL, and moving it behind the NUL
is undefined. `errno` is read by the number parser and never reset, so whether it is `ERANGE` is an
input and a result. `fuel` bounds the depth of the calls: a character takes three of them at most.
-/

namespace Matador.Json

/-! ## Errors and events -/

inductive JsonException
  | invalidStream | notColon | objectBracket | arrayBracket | openingQuotes | hexCharacter
  | controlCharacter | integerError | doubleError | invalidCharacter | boolString | nullCharacter
  | unexpectedEnd | unknownType | afterRoot
  deriving DecidableEq, Repr

def JsonException.what : JsonException → String
  | .invalidStream => "invalid stream"
  | .notColon => "character isn't colon"
  | .objectBracket => "not a valid object closing bracket"
  | .arrayBracket => "not a valid array closing bracket"
  | .openingQuotes => "expected string opening quotes"
  | .hexCharacter => "invalid json string hex character"
  | .controlCharacter => "invalid json control string character"
  | .integerError => "errno integer error"
  | .doubleError => "errno double error"
  | .invalidCharacter => "invalid json character"
  | .boolString => "invalid character for bool value string"
  | .nullCharacter => "invalid null character"
  | .unexpectedEnd => "unexpected end of string"
  | .unknownType => "unknown json type"
  | .afterRoot => "no characters are allowed after closed root node"

inductive ParseError
  | thrown (e : JsonException)
  | undefined
  | fuel
  deriving DecidableEq, Repr

inductive Event
  | beginObject
  | objectKey (key : Str)
  | endObject
  | beginArray
  | endArray
  | string (s : Str)
  | real (text : Str)
  | integer (i : LongLong)
  | bool (b : Bool)
  | null

/-! ## The cursor -/

def isSpace (c : Char) : Bool :=
  c == ' ' || c == '\t' || c == '\n' || c == '\x0b' || c == '\x0c' || c == '\r'

/-- `isxdigit`. -/
def isHexDigit (c : Char) : Bool :=
  c.isDigit || ('a' ≤ c && c ≤ 'f') || ('A' ≤ c && c ≤ 'F')

def isEos (c : Char) : Bool := c == '\x00'

/-- `current_char`. -/
def current (cs : Str) : Char := cs.headD '\x00'

/-- `skip_whitespace`. -/
def skipWs (cs : Str) : Str := cs.dropWhile isSpace

/-! ## Strings -/

def unescape : Char → Option Char
  | '"' => some '"'
  | '\\' => some '\\'
  | '/' => some '/'
  | 'b' => some '\x08'
  | 'f' => some '\x0c'
  | 'n' => some '\n'
  | 'r' => some '\r'
  | 't' => some '\t'
  | _ => none

/-- The loop of `parse_json_string`. The end of the text ends a string like a quote; an escape
`\uXXXX` is kept as it is. -/
def readBody : Str → Except ParseError (Str × Str)
  | [] => .ok ([], [])
  | c :: cs =>
    if isEos c then .ok ([], c :: cs)
    else if c = '"' then .ok ([], cs)
    else if c = '\\' then
      match cs with
      | 'u' :: h₁ :: h₂ :: h₃ :: h₄ :: cs =>
        if isHexDigit h₁ && isHexDigit h₂ && isHexDigit h₃ && isHexDigit h₄ then
          (readBody cs).map fun r => ('\\' :: 'u' :: h₁ :: h₂ :: h₃ :: h₄ :: r.1, r.2)
        else .error (.thrown .hexCharacter)
      | 'u' :: _ => .error (.thrown .hexCharacter)
      | e :: cs =>
        match unescape e with
        | some x => (readBody cs).map fun r => (x :: r.1, r.2)
        | none => .error (.thrown .controlCharacter)
      | [] => .error (.thrown .controlCharacter)
    else (readBody cs).map fun r => (c :: r.1, r.2)

/-- `parse_json_string`. At the end of the text the check for the quote passes and the cursor leaves
the text. -/
def parseString (cs : Str) : Except ParseError (Str × Str) :=
  match skipWs cs with
  | [] => .error .undefined
  | c :: cs =>
    if isEos c then .error .undefined
    else if c ≠ '"' then .error (.thrown .openingQuotes)
    else readBody cs

/-! ## Numbers -/

/-- The digits at the cursor, and the end; `none` if there is no digit. -/
def readDigits (cs : Str) : Option (Nat × Str) :=
  if (cs.takeWhile Char.isDigit).isEmpty then none
  else some (Nat.ofDigitChars 10 (cs.takeWhile Char.isDigit) 0, cs.dropWhile Char.isDigit)

/-- `strtoll` at a character that starts a number: the value before it is cut to the range, and the
end; `none` if nothing is converted. -/
def strtoll (cs : Str) : Option (Int × Str) :=
  if current cs = '-' then (readDigits cs.tail).map fun r => (-r.1, r.2)
  else (readDigits cs).map fun r => (r.1, r.2)

def skipExponent (cs : Str) : Str :=
  let digits := if current cs.tail = '+' ∨ current cs.tail = '-' then cs.tail.tail else cs.tail
  if (current cs = 'e' ∨ current cs = 'E') ∧ (current digits).isDigit then
    digits.dropWhile Char.isDigit
  else cs

/-- What `strtod` makes of the text of a number. -/
structure Strtod where
  outOfRange : Str → Bool
  /-- the value is zero or `HUGE_VAL` with either sign -/
  extreme : Str → Bool

def endsNumber (c : Char) : Bool :=
  c == '\n' || c == '\x00' || c == ' ' || c == ',' || c == ']' || c == '}'

/-- `is_error` lets these values pass only if `errno` is not `ERANGE`. -/
def isExtreme (i : LongLong) : Bool := i.1 == 0 || i.1 == llongMax || i.1 == llongMin

theorem isDigit_of_mem_toDigits {n : Nat} {c : Char} (h : c ∈ Nat.toDigits 10 n) : c.isDigit :=
  Nat.isDigit_of_mem_toDigits (by omega) (by omega) h

theorem of_endsNumber {c : Char} (h : endsNumber c) : c.isDigit = false ∧ c ≠ '.' := by
  simp only [endsNumber, Bool.or_eq_true, beq_iff_eq] at h
  rcases h with ((((rfl | rfl) | rfl) | rfl) | rfl) | rfl <;> decide

theorem span_append {p : Char → Bool} {u rest : Str} (hu : ∀ c ∈ u, p c)
    (hrest : p (current rest) = false) : (u ++ rest).takeWhile p = u ∧
    (u ++ rest).dropWhile p = rest := by
  rw [List.takeWhile_append_of_pos hu, List.dropWhile_append_of_pos hu]
  cases rest with
  | nil => simp
  | cons c cs => simp [show p c = false from hrest]

theorem readDigits_append {digits rest : Str} (hne : digits ≠ []) (hdig : ∀ c ∈ digits, c.isDigit)
    (hrest : (current rest).isDigit = false) :
    readDigits (digits ++ rest) = some (Nat.ofDigitChars 10 digits 0, rest) := by
  obtain ⟨htake, hdrop⟩ := span_append hdig hrest
  rw [readDigits, htake, hdrop, if_neg (by simp [hne])]

theorem readDigits_toDigits {rest : Str} (hrest : endsNumber (current rest)) (n : Nat) :
    readDigits (Nat.toDigits 10 n ++ rest) = some (n, rest) := by
  have hread :=
    readDigits_append Nat.toDigits_ne_nil (fun c hc => isDigit_of_mem_toDigits (n := n) hc)
    (of_endsNumber hrest).1
  rwa [Nat.ofDigitChars_toDigits (by omega) (by omega)] at hread

/-- `parse_json_number` and `on_parse_number`. -/
def parseNumber (strtod : Strtod) (erange : Bool) (cs : Str) :
    Except ParseError (Event × Str × Bool) :=
  match strtoll cs with
  | none => .error (.thrown .integerError)
  | some (i, rest) =>
    if h : llongMin ≤ i ∧ i ≤ llongMax then
      if erange && isExtreme ⟨i, h⟩ then .error (.thrown .integerError)
      else if current rest = '.' then
        let rest := skipExponent (rest.tail.dropWhile Char.isDigit)
        let text := cs.take (cs.length - rest.length)
        let erange := erange || strtod.outOfRange text
        if erange && strtod.extreme text then .error (.thrown .doubleError)
        else if endsNumber (current rest) then .ok (.real text, rest, erange)
        else .error (.thrown .invalidCharacter)
      else if endsNumber (current rest) then .ok (.integer ⟨i, h⟩, rest, erange)
      else .error (.thrown .invalidCharacter)
    else
      -- the value is cut to the range and `errno` is set
      .error (.thrown .integerError)

/-! ## Words -/

/-- `compare_string` and the loop of `parse_json_null`: the rest of the word, then the next
character. -/
def compareString (e : JsonException) : Str → Str → Except ParseError Str
  | [], cs => .ok cs
  | w :: word, cs =>
    if isEos (current cs) then .error (.thrown .unexpectedEnd)
    else if w ≠ current cs then .error (.thrown e)
    else compareString e word cs.tail

/-! ## Values -/

/-- The events of a part of the text, what follows it, and whether `errno` is `ERANGE`. -/
abbrev Parsed := List Event × Str × Bool

variable (strtod : Strtod)

mutual

/-- `parse_json_value`. -/
def parseValue : Nat → Bool → Str → Except ParseError Parsed
  | 0, _, _ => .error .fuel
  | n + 1, erange, cs =>
    let cs := skipWs cs
    let c := current cs
    if isEos c then .error (.thrown .invalidStream)
    else if c = '{' then parseObject n erange cs.tail
    else if c = '[' then parseArray n erange cs.tail
    else if c = '"' then (parseString cs).map fun r => ([.string r.1], r.2, erange)
    else if c = '-' || c.isDigit || c = '.' then
      (parseNumber strtod erange cs).map fun r => ([r.1], r.2)
    else if c = 't' then
      (compareString .boolString ['r', 'u', 'e'] cs.tail).map fun r => ([.bool true], r, erange)
    else if c = 'f' then
      (compareString .boolString ['a', 'l', 's', 'e'] cs.tail).map fun r =>
        ([.bool false], r, erange)
    else if c = 'n' then
      (compareString .nullCharacter ['u', 'l', 'l'] cs.tail).map fun r => ([.null], r, erange)
    else .error (.thrown .unknownType)

/-- `on_parse_object` behind the bracket. -/
def parseObject : Nat → Bool → Str → Except ParseError Parsed
  | 0, _, _ => .error .fuel
  | n + 1, erange, cs =>
    let cs := skipWs cs
    if current cs = '}' then .ok ([.beginObject, .endObject], cs.tail, erange)
    else do
      let members ← parseMembers n erange cs
      let rest := skipWs members.2.1
      if current rest = '}' then
        .ok (.beginObject :: members.1 ++ [.endObject], rest.tail, members.2.2)
      else .error (.thrown .objectBracket)

/-- The loop of `on_parse_object`. -/
def parseMembers : Nat → Bool → Str → Except ParseError Parsed
  | 0, _, _ => .error .fuel
  | n + 1, erange, cs => do
    let key ← parseString cs
    let rest := skipWs key.2
    if isEos (current rest) then .error (.thrown .invalidStream)
    else if current rest = ':' then do
      let value ← parseValue n erange rest.tail
      let rest := skipWs value.2.1
      if current rest = ',' then do
        let members ← parseMembers n value.2.2 rest.tail
        .ok (.objectKey key.1 :: value.1 ++ members.1, members.2)
      else .ok (.objectKey key.1 :: value.1, rest, value.2.2)
    else .error (.thrown .notColon)

/-- `on_parse_array` behind the bracket. -/
def parseArray : Nat → Bool → Str → Except ParseError Parsed
  | 0, _, _ => .error .fuel
  | n + 1, erange, cs =>
    let cs := skipWs cs
    if current cs = ']' then .ok ([.beginArray, .endArray], cs.tail, erange)
    else do
      let items ← parseItems n erange cs
      let rest := skipWs items.2.1
      if current rest = ']' then
        .ok (.beginArray :: items.1 ++ [.endArray], rest.tail, items.2.2)
      else .error (.thrown .arrayBracket)

/-- The loop of `on_parse_array`. -/
def parseItems : Nat → Bool → Str → Except ParseError Parsed
  | 0, _, _ => .error .fuel
  | n + 1, erange, cs => do
    let value ← parseValue n erange cs
    let rest := skipWs value.2.1
    if current rest = ',' then do
      let items ← parseItems n value.2.2 rest.tail
      .ok (value.1 ++ items.1, items.2)
    else .ok (value.1, rest, value.2.2)

end

/-- The switch of `parse_json`. -/
def parseRoot (n : Nat) (erange : Bool) (cs : Str) : Except ParseError Parsed :=
  if current cs = '{' then parseObject strtod n erange cs.tail
  else if current cs = '[' then parseArray strtod n erange cs.tail
  else parseValue strtod n erange cs

def parseJson (erange : Bool) (str : Str) : Except ParseError (List Event) :=
  let cs := skipWs str
  if isEos (current cs) then .error (.thrown .invalidStream)
  else do
    let root ← parseRoot strtod (3 * str.length + 3) erange cs
    if isEos (current (skipWs root.2.1)) then .ok root.1
    else .error (.thrown .afterRoot)

end Matador.Json
