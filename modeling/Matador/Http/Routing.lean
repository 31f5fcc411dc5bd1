import Matador.Http.Http
import Matador.Lib.Regex
import Matador.Utils.Text

/-!
# Routes

A route is registered with a specification of its path, made of parts between slashes:

* `*.*` — any text
* letters, digits, `-` and `_` — the part itself
* `{name}` — a parameter of the path, a word
* `{name: regex}` — a parameter with an expression of its own

`create_route_endpoint` makes one expression of the specification and numbers the parameters from
one on. `route_endpoint::match` sets the parameter with number `i` to the group `i`, although `*.*`
and the groups inside the expressions of parameters are groups as well.

How `std::regex` reads the expression of a parameter is an argument, `compile`.
-/

namespace Matador.Http

open Lib Lib.Regex

/-! ## Parts of a specification -/

inductive Segment
  | file
  | plain (text : Str)
  | param (name : Str)
  | paramRegex (name regex : Str)
  deriving DecidableEq

/-- The class `[a-zA-Z0-9-_]`. -/
def isPlain (x : Char) : Bool := x.isAlphanum || x = '-' || x = '_'

/-- The second alternative of `route_regex`: a parameter, with the groups 2 to 4. -/
def paramPart : Regex :=
  seqs [escaped '\x7b', group (plus (chars ['\\', 'w'] isWord)),
    optional (group (seqs [
      char ':', star (chars ['\\', 's'] Json.isSpace), group (star (chars ['.'] notLineEnd))])),
    escaped '\x7d']

def routeRegex : Regex :=
  let plain := chars ['[', 'a', '-', 'z', 'A', '-', 'Z', '0', '-', '9', '-', '_', ']'] isPlain
  alt (group (seqs [escaped '*', escaped '.', escaped '*'])) (alt paramPart (group (plus plain)))

/-- The expression is that of the source. -/
example :
    routeRegex.text = "(\\*\\.\\*)|\\\x7b(\\w+)(:\\s*(.*))?\\\x7d|([a-zA-Z0-9-_]+)".toList := by
  decide

/-- What is thrown for a specification: a text of the source, or the `std::regex_error` for an
expression. -/
inductive RouteError
  | logicError (text : Str)
  | regexError
  deriving DecidableEq

/-- The branches of the loop of `create_route_endpoint` for one part. -/
def classify (part : Str) : Except RouteError Segment :=
  match routeRegex.regexMatch part with
  | none => .error (.logicError ("invalid route spec part: ".toList ++ part))
  | some what =>
    if (what 1).isSome then .ok .file
    else if (what 5).isSome then .ok (.plain (what.str 5))
    else if (what 4).isSome then .ok (.paramRegex (what.str 2) (what.str 4))
    else if (what 2).isSome then .ok (.param (what.str 2))
    else .error (.logicError "invalid route spec pattern match".toList)

namespace Segment

def name : Segment → Option Str
  | file => none
  | plain _ => none
  | param name => some name
  | paramRegex name _ => some name

/-- What a part adds to the expression of the route, behind its slash. -/
def regex (compile : Str → Option Regex) : Segment → Option Regex
  | file => some (group (star (chars ['[', '^', '?', ']'] (· ≠ '?'))))
  | plain text => some (seqs (text.map char))
  | param _ => some (group (plus (chars ['\\', 'w'] isWord)))
  | paramRegex _ regex => (compile regex).map group

end Segment

/-! ## Endpoints -/

structure RouteEndpoint where
  pathSpec : Str
  pathRegex : Regex
  method : Method
  paramIndexMap : UnorderedMap Nat Str

def prepareRoutePathElements (path : Str) : List Str :=
  match Text.split '/' path with
  | [] :: parts => parts
  | parts => parts

def pathRegex : List Regex → Regex
  | [] => empty
  | r :: rs => seq (escaped '/') (seq r (pathRegex rs))

/-- `path_param_to_index_map`: the names by their numbers, behind the first `i` of them. -/
def indexMap (m : UnorderedMap Nat Str) (i : Nat) : List Str → UnorderedMap Nat Str
  | [] => m
  | name :: names => indexMap (m.insert (i + 1) name) (i + 1) names

def createRouteEndpoint (compile : Str → Option Regex) (pathSpec : Str) (method : Method) :
    Except RouteError RouteEndpoint :=
  if pathSpec = ['/'] then .ok ⟨pathSpec, escaped '/', method, .empty⟩
  else do
    let segments ← ((prepareRoutePathElements pathSpec).filter (· ≠ [])).mapM classify
    match segments.mapM (Segment.regex compile) with
    | none => .error .regexError
    | some rs =>
        .ok ⟨pathSpec, pathRegex rs, method, indexMap .empty 0 (segments.filterMap Segment.name)⟩

structure RouteRequest where
  method : Method
  url : Str
  pathParams : ParamMap := .empty

/-- The loop of `route_endpoint::match` over the groups from 1 to `n`. -/
def setPathParams (m : UnorderedMap Nat Str) (what : Captures) (n : Nat)
    (params : ParamMap) : ParamMap :=
  (List.range n).foldl (fun params i =>
    match m.find (i + 1) with
    | some name => params.insert name (what.str (i + 1))
    | none => params) params

/-- `route_endpoint::match`, with the request behind it. -/
def RouteEndpoint.matchRequest (ep : RouteEndpoint) (req : RouteRequest) : Option RouteRequest :=
  if ep.method ≠ req.method then none
  else
    match ep.pathRegex.regexMatch req.url with
    | none => none
    | some what =>
      some { req with
          pathParams := setPathParams ep.paramIndexMap what ep.pathRegex.count req.pathParams }

/-! ## The engine -/

structure RoutingEngine where
  routes : List RouteEndpoint := []

namespace RoutingEngine

/-- `find` and `find_internal`. -/
def find (engine : RoutingEngine) (path : Str) (method : Method) : Option RouteEndpoint :=
  engine.routes.find? fun ep => ep.method = method && ep.pathSpec = path

def add (compile : Str → Option Regex) (engine : RoutingEngine) (path : Str) (method : Method) :
    Except RouteError RoutingEngine :=
  if (engine.find path method).isSome then .ok engine
  else do
    let endpoint ← createRouteEndpoint compile path method
    return ⟨engine.routes ++ [endpoint]⟩

/-- `match`: the first route that matches, and the request behind it. -/
def matchRequest (engine : RoutingEngine) (req : RouteRequest) :
    Option (RouteEndpoint × RouteRequest) :=
  engine.routes.findSome? fun ep => (ep.matchRequest req).map (ep, ·)

end RoutingEngine

end Matador.Http
