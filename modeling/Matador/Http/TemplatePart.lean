import Matador.Http.Http
import Matador.Json.Parser
import Matador.Utils.Text

/-!
# The parts of a template

`template_part` and its kinds, the filters of a variable and the expressions of a condition, and how
they are rendered with json data. Rendering a part that the parser has left null (`Part.null`), or a
loop whose text has no end, is undefined.
-/

namespace Matador.Http

open Json Lib

/-! ## Errors -/

inductive TemplateException
  | expectedIn
  | endTag
  | invalidOperator (op : Str)
  | notOperator
  | missingFile (path : Str)
  | notObject
  | missingKey (key : Str)
  | wrongType
  | notContainer
  | notText
  deriving DecidableEq, Repr

def TemplateException.what : TemplateException → Str
  | .expectedIn => "expected keyword 'in' for for loop".toList
  | .endTag => "couldn't read expected command end tag '%\x7d'".toList
  | .invalidOperator op => "invalid operator ".toList ++ op
  | .notOperator => "character is not operator ".toList
  | .missingFile path => "file ".toList ++ path ++ " doesn't exists".toList
  | .notObject => "type isn't object".toList
  | .missingKey key => "object doesn't contain key ".toList ++ key
  | .wrongType => "wrong type; couldn't cast".toList
  | .notContainer => "json object isn't of type array or object".toList
  | .notText => "couldn't cats object or array to string".toList

/-- How building or rendering can fail; `depth` stands for includes that are nested deeper than they
are followed. -/
inductive TemplateError
  | thrown (e : TemplateException)
  | operand (e : JsonParser.Error)
  | undefined
  | depth
  | fuel

/-! ## Environment -/

inductive Operator
  | eq | ne | lt | le | gt | ge
  deriving DecidableEq, Repr

/-- What a template depends on besides its text and the data. -/
structure TemplateEnv where
  files : Str → Option Str
  strtod : Strtod
  erange : Bool
  compare : Operator → Json → Json → Bool
  realText : Str → Str
  realPositive : Str → Bool

/-! ## Access to the data -/

/-- `json::get`. -/
def getKey (key : Str) : Json → Except TemplateError Json
  | .object fields =>
    match SortedMap.get key fields with
    | some value => .ok value
    | none => .error (.thrown (.missingKey key))
  | _ => .error (.thrown .notObject)

/-- `json::at_path` with the delimiter `.`. -/
def atPath (path : Str) (data : Json) : Except TemplateError Json :=
  (Text.split '.' path).foldlM (fun j key => getKey key j) data

/-- The elements that `for` goes over, for an object its values. -/
def elements : Json → Option (List Json)
  | .array items => some items
  | .object fields => some (fields.map Prod.snd)
  | _ => none

/-- The data of one turn of a loop: `item[elem_name_] = elem; item["forloop"]["parent"] = data`. -/
def loopItem (elemName : Str) (elem data : Json) : Json :=
  let fields := SortedMap.set elemName elem []
  let forloop := (SortedMap.get "forloop".toList fields).getD .null
  .object (SortedMap.set "forloop".toList (forloop.setKey "parent".toList data) fields)

/-! ## Filters -/

/-- `template_filter`. -/
inductive Filter
  | escape | capfirst | upper | lower
  deriving DecidableEq, Repr

/-- `template_filter_factory::produce`; a name that is not known gives a null pointer. -/
def produceFilter (name : Str) : Option Filter :=
  if name = "escape".toList then some .escape
  else if name = "capfirst".toList then some .capfirst
  else if name = "upper".toList then some .upper
  else if name = "lower".toList then some .lower
  else none

/-- `html::escape`. -/
def htmlEscape (value : Str) : Str :=
  value.flatMap fun
    | '&' => "&amp;".toList
    | '"' => "&quot;".toList
    | '\'' => "&apos;".toList
    | '<' => "&lt;".toList
    | '>' => "&gt;".toList
    | c => [c]

/-- `evaluate` of a filter. All but `escape` let values pass that are no strings. -/
def Filter.evaluate : Filter → Json → Except TemplateError Json
  | .escape, .string s => .ok (.string (htmlEscape s))
  | .escape, _ => .error (.thrown .wrongType)
  | .capfirst, .string (c :: s) => .ok (.string (c.toUpper :: s))
  | .upper, .string s => .ok (.string (s.map Char.toUpper))
  | .lower, .string s => .ok (.string (s.map Char.toLower))
  | _, data => .ok data

/-- `apply_filter`, with the chain of filters as a list. -/
def applyFilter (filters : List Filter) (data : Json) : Except TemplateError Json :=
  filters.foldlM (fun data filter => filter.evaluate data) data

/-! ## Expressions -/

/-- `template_expression`. -/
inductive Expression
  | value (name : Str)
  | compare (name : Str) (op : Operator) (operand : Json)
  | compareBoth (left right : Str) (op : Operator)

/-- `json_value_expression::evaluate` of the value that was found. A string is never empty for
`json::empty`. -/
def holds (env : TemplateEnv) : Json → Bool
  | .array items => !items.isEmpty
  | .object fields => !fields.isEmpty
  | .string _ => true
  | .boolean b => b
  | .integer i => decide (0 < i.1)
  | .real text => env.realPositive text
  | .null => false

/-- `evaluate`. A path that leads nowhere makes a value expression false, and throws in a
comparison. -/
def Expression.evaluate (env : TemplateEnv) (data : Json) : Expression → Except TemplateError Bool
  | .value name =>
    match atPath name data with
    | .ok val => .ok (holds env val)
    | .error _ => .ok false
  | .compare name op operand => (atPath name data).map fun value => env.compare op value operand
  | .compareBoth left right op => do
    let left ← atPath left data
    let right ← atPath right data
    .ok (env.compare op left right)

/-! ## Parts -/

/-- `template_part`; a `multi_template_part` inside another part is the list of its parts. -/
inductive Part
  | static (str : Str)
  | variable (str : Str) (filters : List Filter)
  | multi (parts : List Part)
  | loop (part : List Part) (loopPart : Option (List Part)) (listName elemName : Str)
  | branch (expressionList : List (Expression × List Part)) (elsePart : List Part)
  | null

/-- The conversion of `variable_part::render`. -/
def valueText (env : TemplateEnv) : Json → Except TemplateError Str
  | .integer i => .ok (integerText (Int.bmod i.1 (2 ^ 32)))
  | .real text => .ok (env.realText text)
  | .boolean b => .ok (if b then ['1'] else ['0'])
  | .string s => .ok s
  | .null => .ok "null".toList
  | _ => .error (.thrown .notText)

variable (env : TemplateEnv)

mutual

def Part.render : Part → Json → Except TemplateError Str
  | .static str, _ => .ok str
  | .variable str filters, data => do
    let val ← atPath str data
    let val ← applyFilter filters val
    valueText env val
  | .multi parts, data => renderParts parts data
  | .loop part loopPart listName elemName, data => do
    let cont ← atPath listName data
    match elements cont with
    | none => .error (.thrown .notContainer)
    | some [] => renderParts part data
    | some items =>
        (items.mapM fun elem => renderLoop loopPart (loopItem elemName elem data)).map List.flatten
  | .branch expressionList elsePart, data =>
      renderBranches expressionList (renderParts elsePart data) data
  | .null, _ => .error .undefined

/-- `multi_template_part::render`. -/
def renderParts : List Part → Json → Except TemplateError Str
  | [], _ => .ok []
  | part :: parts, data => do
    let text ← part.render data
    let rest ← renderParts parts data
    .ok (text ++ rest)

def renderLoop : Option (List Part) → Json → Except TemplateError Str
  | some parts, data => renderParts parts data
  | none, _ => .error .undefined

/-- The loop of `if_template_part::render`. -/
def renderBranches : List (Expression × List Part) → Except TemplateError Str → Json →
    Except TemplateError Str
  | [], otherwise, _ => otherwise
  | (expression, parts) :: branches, otherwise, data => do
    if ← expression.evaluate env data then renderParts parts data
    else renderBranches branches otherwise data

end

end Matador.Http
