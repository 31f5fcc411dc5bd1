import Matador.Json.Parser

/-!
# The grammar of RFC 8259

Syntax trees of JSON texts with every character of the text in them, whitespace included. `IsText`
says that a text is derived by the grammar; the value of a tree does not see the whitespace. An
escape `\uXXXX` stands for itself in the value of a string, as the parser leaves it.
-/

namespace Matador.Json.Rfc

/-! ## Lexemes -/

/-- `ws`. -/
def isWs (c : Char) : Bool := c == ' ' || c == '\t' || c == '\n' || c == '\r'

structure Ws where
  chars : Str
  ws : ∀ c ∈ chars, isWs c = true

/-- `char` of a string. -/
inductive StrChar
  | unescaped (c : Char) (control : ' ' ≤ c) (quote : c ≠ '"') (backslash : c ≠ '\\')
  | escape (e x : Char) (h : unescape e = some x)
  | unicode (h₁ h₂ h₃ h₄ : Char)
    (hex : (isHexDigit h₁ && isHexDigit h₂ && isHexDigit h₃ && isHexDigit h₄) = true)

def StrChar.text : StrChar → Str
  | .unescaped c .. => [c]
  | .escape e .. => ['\\', e]
  | .unicode h₁ h₂ h₃ h₄ _ => ['\\', 'u', h₁, h₂, h₃, h₄]

def StrChar.value : StrChar → Str
  | .unescaped c .. => [c]
  | .escape _ x _ => [x]
  | .unicode h₁ h₂ h₃ h₄ _ => ['\\', 'u', h₁, h₂, h₃, h₄]

def stringText (cs : List StrChar) : Str := '"' :: (cs.flatMap StrChar.text ++ ['"'])

def stringValue (cs : List StrChar) : Str := cs.flatMap StrChar.value

structure Digits where
  chars : Str
  ne_nil : chars ≠ []
  digit : ∀ c ∈ chars, c.isDigit = true

structure Exponent where
  mark : Char
  mark_eq : mark = 'e' ∨ mark = 'E'
  sign : Str
  sign_eq : sign = [] ∨ sign = ['+'] ∨ sign = ['-']
  digits : Digits

structure Number where
  minus : Bool
  int : Digits
  noLeadingZero : int.chars.head? = some '0' → int.chars = ['0']
  frac : Option Digits
  exp : Option Exponent

def Exponent.text (e : Exponent) : Str := e.mark :: (e.sign ++ e.digits.chars)

namespace Number

def signText (n : Number) : Str := if n.minus then ['-'] else []

def fracText (n : Number) : Str := n.frac.elim [] ('.' :: ·.chars)

def expText (n : Number) : Str := n.exp.elim [] Exponent.text

def text (n : Number) : Str := n.signText ++ (n.int.chars ++ (n.fracText ++ n.expText))

def intValue (n : Number) : Int :=
  if n.minus then -(Nat.ofDigitChars 10 n.int.chars 0 : Nat)
  else (Nat.ofDigitChars 10 n.int.chars 0 : Nat)

def json (n : Number) : Option Json :=
  if n.frac.isNone ∧ n.exp.isNone then
    if h : llongMin ≤ n.intValue ∧ n.intValue ≤ llongMax then some (.integer ⟨n.intValue, h⟩)
    else none
  else some (.real n.text)

end Number

/-! ## Values -/

mutual

/-- `value`. -/
inductive Value
  | null
  | boolean (b : Bool)
  | number (n : Number)
  | string (cs : List StrChar)
  | emptyArray (ws : Ws)
  | array (items : Items)
  | emptyObject (ws : Ws)
  | object (members : Members)

inductive Items
  | last (before : Ws) (value : Value) (behind : Ws)
  | cons (before : Ws) (value : Value) (behind : Ws) (items : Items)

inductive Members
  | last (before : Ws) (key : List StrChar) (beforeColon : Ws) (behindColon : Ws) (value : Value)
      (behind : Ws)
  | cons (before : Ws) (key : List StrChar) (beforeColon : Ws) (behindColon : Ws) (value : Value)
      (behind : Ws)
    (members : Members)

end

/-- `JSON-text`. -/
structure Document where
  before : Ws
  value : Value
  behind : Ws

mutual

def Value.text : Value → Str
  | .null => ['n', 'u', 'l', 'l']
  | .boolean true => ['t', 'r', 'u', 'e']
  | .boolean false => ['f', 'a', 'l', 's', 'e']
  | .number n => n.text
  | .string cs => stringText cs
  | .emptyArray ws => '[' :: (ws.chars ++ [']'])
  | .array items => '[' :: (items.text ++ [']'])
  | .emptyObject ws => '{' :: (ws.chars ++ ['}'])
  | .object members => '{' :: (members.text ++ ['}'])

def Items.text : Items → Str
  | .last before value behind => before.chars ++ (value.text ++ behind.chars)
  | .cons before value behind items =>
      before.chars ++ (value.text ++ (behind.chars ++ (',' :: items.text)))

def Members.text : Members → Str
  | .last before key beforeColon behindColon value behind =>
    before.chars ++ (stringText key ++
        (beforeColon.chars ++ (':' :: (behindColon.chars ++ (value.text ++ behind.chars)))))
  | .cons before key beforeColon behindColon value behind members =>
    before.chars ++
      (stringText key ++ (beforeColon.chars ++ (':' :: (behindColon.chars ++ (value.text ++
        (behind.chars ++ (',' :: members.text)))))))

end

def Document.text (d : Document) : Str := d.before.chars ++ (d.value.text ++ d.behind.chars)

def IsText (text : Str) : Prop := ∃ d : Document, d.text = text

mutual

/-- The value of a tree, with the members of an object in their order; there is none if an integer
does not fit into 64 bits. -/
def Value.json : Value → Option Json
  | .null => some .null
  | .boolean b => some (.boolean b)
  | .number n => n.json
  | .string cs => some (.string (stringValue cs))
  | .emptyArray _ => some (.array [])
  | .array items => items.json.map Json.array
  | .emptyObject _ => some (.object [])
  | .object members => members.json.map Json.object

def Items.json : Items → Option (List Json)
  | .last _ value _ => value.json.map ([·])
  | .cons _ value _ items => value.json.bind fun j => items.json.map (j :: ·)

def Members.json : Members → Option (List (Str × Json))
  | .last _ key _ _ value _ => value.json.map fun j => [(stringValue key, j)]
  | .cons _ key _ _ value _ members =>
      value.json.bind fun j => members.json.map ((stringValue key, j) :: ·)

end

end Matador.Json.Rfc
