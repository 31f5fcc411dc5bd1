import Matador.Http.TemplatePart

/-!
# The template parser

`template_parser::parse` goes over the text character by character; a command reads its own text,
and for a block starts another parser at the same cursor. What a tag inside a block means is decided
by a function that the command passes to this parser (`OnCommand`): `endfor` and `endif` end the
block and leave the cursor in their tag, so that the outer parser reads its end.

The cursor is what remains of the text; its end is the terminating NUL. `fuel` bounds the rounds of
the loops: two for each character and two more, since a round may read nothing only before one that
does.
-/

namespace Matador.Http

open List Json Lib

/-! ## Words -/

/-- The loop of `parse_token`, `parse_filepath` and `parse_operand`, which differ in the characters
they accept. -/
def parseWord (accepts : Char → Bool) (cursor : Str) : Str × Str :=
  ((skipWs cursor).takeWhile accepts, skipWs ((skipWs cursor).dropWhile accepts))

def isTokenChar (c : Char) : Bool := c.isAlphanum || c == '.'

def parseToken : Str → Str × Str := parseWord isTokenChar

def parseFilepath : Str → Str × Str :=
  parseWord fun c => c.isAlphanum || c == '.' || c == '_' || c == '/'

def parseOperand : Str → Str × Str := parseWord fun c => c.isAlphanum || c == '.' || c == '"'

def parseEndOfCommandTag (cursor : Str) : Option Str :=
  match skipWs cursor with
  | '%' :: '}' :: rest => some rest
  | _ => none

/-! ## Expressions -/

def isOp (c : Char) : Bool := c == '=' || c == '!' || c == '<' || c == '>'

def parseOperator : Str → Except TemplateError (Str × Str)
  | [] => .ok ([], [])
  | c :: cursor =>
    if Json.isSpace c || isEos c then .ok ([], c :: cursor)
    else if isOp c then (parseOperator cursor).map fun r => (c :: r.1, r.2)
    else .error (.thrown .notOperator)

/-- The operators that `parse_expression` knows. -/
def toOperator (op : Str) : Option Operator :=
  if op = ['=', '='] then some .eq
  else if op = ['!', '='] then some .ne
  else if op = ['<'] then some .lt
  else if op = ['<', '='] then some .le
  else if op = ['>'] then some .gt
  else if op = ['>', '='] then some .ge
  else none

def parseExpression (env : TemplateEnv) (cursor : Str) : Except TemplateError (Expression × Str) :=
  let token := parseToken cursor
  if current token.2 = '%' then .ok (.value token.1, token.2)
  else do
    let op ← parseOperator token.2
    match toOperator op.1 with
    | none => .error (.thrown (.invalidOperator op.1))
    | some op' =>
      let operand := parseOperand op.2
      if (current operand.1).isAlpha then .ok (.compareBoth token.1 operand.1 op', operand.2)
      else
        match JsonParser.parse env.strtod env.erange ⟨.null, [], []⟩ operand.1 with
        | .ok j => .ok (.compare token.1 op' j, operand.2)
        | .error e => .error (.operand e)

/-! ## The loop of the parser -/

/-- `state_t`; `UNKNOWN` is never seen by the loop. -/
inductive TemplateState
  | staticText | initiateTemplate | processCommand | processCommandFinish
  | processVariable | processVariableRead | processVariableFinish | processFilter |
      processFilterFinished
  deriving DecidableEq, Repr

/-- `template_parser` with the variables of `parse`. -/
structure TemplateParser where
  cursor : Str
  state : TemplateState := .staticText
  currentPart : Str := []
  parts : List Part := []

/-- `parts_->parts().back()->append_filter(filter)`. -/
def appendFilter (filter : Option Filter) (parts : List Part) : List Part :=
  match parts.getLast?, filter with
  | some (.variable str filters), some filter =>
      parts.dropLast ++ [.variable str (filters ++ [filter])]
  | _, _ => parts

/-- One round of the loop of `parse`, if it calls no command. -/
def TemplateParser.advance (p : TemplateParser) : TemplateParser :=
  let c := current p.cursor
  if c = '{' ∧ p.state = .staticText then
    { state := .initiateTemplate, currentPart := [], parts := p.parts ++ [.static p.currentPart],
      cursor := p.cursor.tail }
  else if c = '{' ∧ p.state = .initiateTemplate then
    { p with state := .processVariable, cursor := p.cursor.tail }
  else if c = '%' ∧ p.state = .initiateTemplate then
    { p with state := .processCommand, cursor := p.cursor.tail }
  else if c = '|' ∧ (p.state = .processVariableRead ∨ p.state = .processFilterFinished) then
    { p with state := .processFilter, cursor := p.cursor.tail }
  else if c = '}' ∧ (p.state = .processVariableRead ∨ p.state = .processFilterFinished) then
    { p with state := .processVariableFinish, cursor := p.cursor.tail }
  else if c = '%' ∧ p.state = .processCommand then
    { p with state := .processCommandFinish, cursor := p.cursor.tail }
  else if c = '}' ∧ (p.state = .processVariableFinish ∨ p.state = .processCommandFinish) then
    { p with state := .staticText, cursor := p.cursor.tail }
  else if p.state = .processFilter then
    { p with
      state := .processFilterFinished
      parts := appendFilter (produceFilter (parseToken p.cursor).1) p.parts
      cursor := (parseToken p.cursor).2 }
  else if p.state = .processVariable then
    { p with
      state := .processVariableRead
      parts := p.parts ++ [.variable (parseToken p.cursor).1 []]
      cursor := (parseToken p.cursor).2 }
  else
    -- the text outside of tags, and a state that does not expect the character
    { p with state := .staticText, currentPart := p.currentPart ++ [c], cursor := p.cursor.tail }

/-- `on_command_result_t`. -/
inductive CommandResult
  | finished | intermediate | nextCommand
  deriving DecidableEq, Repr

/-- The function that `parse` calls for a command. It may change the variables of the command that
passed it, the parts, and the cursor. -/
abbrev OnCommand (σ : Type) :=
  Str → σ → List Part → Str → Except TemplateError (CommandResult × σ × List Part × Str)

/-- `parse` as a command sees it. -/
abbrev ParseBlock := (σ : Type) → OnCommand σ → σ → Str → Except TemplateError (σ × List Part × Str)

/-! ## Commands -/

/-- The function of `template_engine::build` and of `include`. -/
def onAnyCommand : OnCommand Unit := fun _ s parts cursor => .ok (.nextCommand, s, parts, cursor)

/-- The function of `foreach_command::parse`, which keeps the loop part. -/
def onLoopCommand : OnCommand (Option (List Part)) := fun cmd loopPart parts cursor =>
  if cmd = "empty".toList then .ok (.intermediate, some parts, [], cursor)
  else if cmd = "endfor".toList then
    match loopPart with
    | none => .ok (.finished, some parts, [], cursor)
    | some _ => .ok (.finished, loopPart, parts, cursor)
  else .ok (.nextCommand, loopPart, parts, cursor)

/-- `foreach_command::parse`. -/
def parseForeach (parse : ParseBlock) (cursor : Str) : Except TemplateError (Part × Str) :=
  let elemName := parseToken (skipWs cursor)
  let word := parseToken (skipWs elemName.2)
  if word.1 ≠ "in".toList then .error (.thrown .expectedIn)
  else
    let listName := parseToken (skipWs word.2)
    match parseEndOfCommandTag listName.2 with
    | none => .error (.thrown .endTag)
    | some cursor => do
      let r ← parse _ onLoopCommand none cursor
      .ok (.loop r.2.1 r.1 listName.1 elemName.1, r.2.2)

/-- The variables of `if_else_command::parse`. -/
structure Branches where
  expr : Expression
  hasElse : Bool := false
  expressionList : List (Expression × List Part) := []

def Branches.addExpression (s : Branches) (parts : List Part) : Branches :=
  { s with expressionList := s.expressionList ++ [(s.expr, parts)] }

/-- The function of `if_else_command::parse`. -/
def onBranchCommand (env : TemplateEnv) : OnCommand Branches := fun cmd s parts cursor =>
  if cmd = "else".toList then
    .ok (.intermediate, { s.addExpression parts with hasElse := true }, [], cursor)
  else if cmd = "elif".toList then do
    let expr ← parseExpression env cursor
    .ok (.intermediate, { s.addExpression parts with expr := expr.1 }, [], expr.2)
  else if cmd = "endif".toList then
    if s.hasElse then .ok (.finished, s, parts, cursor)
    else .ok (.finished, s.addExpression parts, [], cursor)
  else .ok (.nextCommand, s, parts, cursor)

/-- `if_else_command::parse`. -/
def parseIfElse (env : TemplateEnv) (parse : ParseBlock) (cursor : Str) :
    Except TemplateError (Part × Str) := do
  let expr ← parseExpression env (skipWs cursor)
  match parseEndOfCommandTag expr.2 with
  | none => .error (.thrown .endTag)
  | some cursor => do
    let r ← parse _ (onBranchCommand env) { expr := expr.1 } cursor
    .ok (.branch r.1.expressionList r.2.1, r.2.2)

/-- `include_command::parse`. What stands behind the path is not looked at; a path that is no text
in quotes gives no part. -/
def parseInclude (included : Str → Except TemplateError (List Part)) (cursor : Str) :
    Except TemplateError (Part × Str) :=
  let cursor := skipWs cursor
  if current cursor = '"' then
    let filepath := parseFilepath cursor.tail
    match filepath.2 with
    | [] => .error .undefined
    | _ :: rest => (included filepath.1).map fun parts => (.multi parts, skipWs rest)
  else
    match parseEndOfCommandTag (parseToken cursor).2 with
    | none => .error (.thrown .endTag)
    | some cursor => .ok (.null, cursor)

/-- `template_command_factory::produce(cmd)->parse(cursor)`; the pointer is null for other
commands. -/
def parseCommand (env : TemplateEnv) (included : Str → Except TemplateError (List Part))
    (parse : ParseBlock) (cmd cursor : Str) : Except TemplateError (Part × Str) :=
  if cmd = "for".toList then parseForeach parse cursor
  else if cmd = "if".toList then parseIfElse env parse cursor
  else if cmd = "include".toList then parseInclude included cursor
  else .error .undefined

/-! ## Building and rendering -/

variable (env : TemplateEnv)

section Parse

variable (included : Str → Except TemplateError (List Part))

/-- `template_parser::parse`. -/
def parseTemplate : Nat → (σ : Type) → OnCommand σ → σ → TemplateParser →
    Except TemplateError (σ × List Part × Str)
  | 0, _, _, _, _ => .error .fuel
  | n + 1, σ, onCommand, s, p =>
    if isEos (current p.cursor) then .ok (s, p.parts ++ [.static p.currentPart], p.cursor)
    else if p.state = .processCommand ∧ current p.cursor ≠ '%' then do
      let cmd := parseToken p.cursor
      let r ← onCommand cmd.1 s p.parts cmd.2
      match r.1 with
      | .finished => .ok r.2
      | .intermediate =>
          parseTemplate n σ onCommand r.2.1 { p with parts := r.2.2.1, cursor := r.2.2.2 }
      | .nextCommand => do
        let part ← parseCommand env included (fun σ onCommand s cursor =>
          parseTemplate n σ onCommand s { cursor }) cmd.1 r.2.2.2
        parseTemplate n σ onCommand r.2.1 { p with parts := r.2.2.1 ++ [part.1], cursor := part.2 }
    else parseTemplate n σ onCommand s p.advance

/-- `parse` of a whole text. -/
def parseText (text : Str) : Except TemplateError (List Part) :=
  (parseTemplate env included (2 * text.length + 2) Unit onAnyCommand () { cursor := text }).map
    fun r => r.2.1

end Parse

/-- The file of an `include`. -/
def includeFile (build : Str → Except TemplateError (List Part)) (path : Str) :
    Except TemplateError (List Part) :=
  match env.files path with
  | none => .error (.thrown (.missingFile path))
  | some content => build content

/-- `template_engine::build`. Includes inside of includes are followed down to the given depth. -/
def build : Nat → Str → Except TemplateError (List Part)
  | 0, format => parseText env (includeFile env fun _ => .error .depth) format
  | depth + 1, format => parseText env (includeFile env (build depth)) format

def render (depth : Nat) (format : Str) (data : Json) : Except TemplateError Str := do
  let parts ← build env depth format
  renderParts env parts data

end Matador.Http
