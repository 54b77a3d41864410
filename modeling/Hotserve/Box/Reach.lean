/-
Whether a request reaches box_webhook (box/reach.go): a walk of the
adapted routes that decides what it can of each matcher from the
configuration alone, and answers for every request it cannot tell apart.

Caddy's own matchers, each for the one request the walk asks about, are
a parameter. A decoded JSON object is its fields; the walk reads them by
key, and Caddy in an order of its own.
-/
import Hotserve.Bytes
import Mathlib

namespace Hotserve.Box.Reach

open Bytes

/-- A decoded JSON value, as far as the walk looks. -/
inductive Json
  | text (s : Bytes)
  | list (items : List Json)
  | object (fields : List (Bytes × Json))
  | other

def Json.isObject : Json → Bool
  | .object _ => true
  | _ => false

mutual

/-- `adaptedRoute`. -/
inductive Route
  | mk (group : Bytes) (sets : List (List (Bytes × Json)))
      (handle : List Handler) (terminal : Bool)

/-- `adaptedHandler`. -/
inductive Handler
  | mk (name : Bytes) (request : Bool) (setting : Bytes) (sub : List Route)

end

-- ====== verdicts

inductive MatchStatus
  | noMatch
  | mayMatch
  | matched
  deriving DecidableEq

/-- `matchVerdict`. -/
structure Verdict where
  status : MatchStatus
  matcher : Bytes
  fails : Bool
  deriving DecidableEq

def sure : Verdict := ⟨.matched, [], false⟩

def never : Verdict := ⟨.noMatch, [], false⟩

def mayBe (key : Bytes) : Verdict := ⟨.mayMatch, key, false⟩

def decided (matched : Bool) : Verdict := if matched then sure else never

/-- Caddy's matchers, of the request: `none` where provisioning fails. -/
structure Caddy where
  host : List Bytes → Option Bool
  path : List Bytes → Option Bool
  method : List Bytes → Bool
  protocol : Bytes → Bool

/-- `staticPatterns`. -/
def staticPatterns : Json → Option (List Bytes)
  | .list items => items.mapM fun
      | .text p => if p.contains 123 then none else some p
      | _ => none
  | _ => none

/-- A matcher decided with Caddy's own type, where it can be. -/
def static (key : Bytes) (v : Json) (run : List Bytes → Option Bool) :
    Verdict :=
  match (staticPatterns v).bind run with
  | none => mayBe key
  | some b => decided b

/-- The matchers Caddy decides per request but never fails on. -/
def perRequest : List Bytes :=
  [str "header", str "header_regexp", str "query", str "path_regexp",
    str "vars", str "vars_regexp", str "tls", str "remote_ip", str "client_ip"]

/-- `one`, of everything but a `not` that lists sets. -/
def leaf (c : Caddy) (key : Bytes) (v : Json) : Verdict :=
  if key = str "host" then static key v c.host
  else if key = str "path" then static key v c.path
  else if key = str "method" then static key v fun l => some (c.method l)
  else if key = str "protocol" then
    match v with
    | .text p =>
      if p ∈ [str "http", str "https", str "grpc"] then decided (c.protocol p)
      else mayBe key
    | _ => mayBe key
  else if key = str "not" then mayBe key
  else if key ∈ perRequest then mayBe key
  else { mayBe key with fails := true }

/-- `set`, of its matchers' verdicts in the order of their keys; `best` is
what those before came to. -/
def setVerdict (best : Verdict) : List Verdict → Verdict
  | [] => best
  | v :: rest =>
    if v.fails then v
    else if v.status = .noMatch then setVerdict v rest
    else if v.status = .mayMatch ∧ best.status = .matched then
      setVerdict v rest
    else setVerdict best rest

/-- `match`, of its sets' verdicts. -/
def anyVerdict (best : Verdict) : List Verdict → Verdict
  | [] => best
  | v :: rest =>
    if v.fails ∨ v.status = .matched then v
    else if v.status = .mayMatch ∧ best.status = .noMatch then
      anyVerdict v rest
    else anyVerdict best rest

/-- A `not`, of what its sets come to. -/
def negated (key : Bytes) (inner : Verdict) : Verdict :=
  if inner.fails then { mayBe key with fails := true }
  else
    match inner.status with
    | .matched => never
    | .noMatch => sure
    | .mayMatch => mayBe key

mutual

/-- `one`. -/
def one (c : Caddy) (key : Bytes) : Json → Verdict
  | .list items =>
    if key = str "not" ∧ items.all Json.isObject then
      -- with nothing negated, as Caddy, a match
      negated key (anyVerdict never (setVerdicts c items))
    else leaf c key (.list items)
  | v => leaf c key v

/-- Each set's verdict. -/
def setVerdicts (c : Caddy) : List Json → List Verdict
  | [] => []
  | .object fields :: rest =>
    setVerdict sure (((fieldVerdicts c fields).insertionSort
      fun a b => a.1 ≤ b.1).map Prod.snd) :: setVerdicts c rest
  | _ :: rest => setVerdicts c rest

/-- Each matcher's verdict, under its key. -/
def fieldVerdicts (c : Caddy) : List (Bytes × Json) → List (Bytes × Verdict)
  | [] => []
  | (key, v) :: rest => (key, one c key v) :: fieldVerdicts c rest

end

/-- `match` of a route: no set is a match. -/
def routeVerdict (c : Caddy) (sets : List (List (Bytes × Json))) : Verdict :=
  if sets.isEmpty then sure
  else anyVerdict never (setVerdicts c (sets.map .object))

-- ====== handlers

inductive HandlerClass
  | answers
  | passes
  | changes
  | caps
  | cuts
  | subroute
  | reached
  deriving DecidableEq

/-- `classify`. -/
def classify : Handler → HandlerClass
  | .mk name request setting _ =>
    if name = str "box_webhook" then .reached
    else if name = str "subroute" then .subroute
    else if name ∈ [str "vars", str "map", str "log_append", str "tracing",
        str "encode", str "push", str "hint_penaltybox"] then .passes
    else if name = str "headers" then if request then .changes else .passes
    else if name = str "request_body" then
      if setting = str "set" then .changes
      else if setting = str "max_size" then .caps
      else .passes
    else if name = str "timeouts" then
      if setting ≠ [] then .cuts else .passes
    else if name = str "rewrite" then .changes
    else .answers

-- ====== the walk

/-- `reachBlock`: what stood in the way. -/
structure Block where
  name : Bytes := []
  setting : Bytes := []
  terminal : Bool := false
  site : Bool := false
  changes : Bool := false
  caps : Bool := false
  cuts : Bool := false
  may : Bool := false
  behind : Bool := false
  fails : Bool := false
  matcher : Bytes := []
  deriving DecidableEq

/-- `reachEnd`, with its block. -/
inductive ReachEnd
  | fellThrough
  | reachedWebhook
  | blocked (b : Block)
  deriving DecidableEq

/-- `groupState`: what a route group has matched so far. -/
structure GroupState where
  status : MatchStatus
  matcher : Bytes
  deriving DecidableEq

/-- `reachWalk.groups`: nothing matched of a group not in it. -/
abbrev Groups := Bytes → GroupState

/-- Whether the first says less than the second. -/
def MatchStatus.below : MatchStatus → MatchStatus → Bool
  | .noMatch, .mayMatch => true
  | .noMatch, .matched => true
  | .mayMatch, .matched => true
  | _, _ => false

/-- The groups once a member that is `v` has been met. -/
def recordGroup (groups : Groups) (group : Bytes) (v : Verdict) : Groups :=
  if (groups group).status.below v.status then
    Function.update groups group ⟨v.status, v.matcher⟩
  else groups

/-- What a member's handlers run under: no more than "may" after an
earlier member may have matched. -/
def underGroup (g : GroupState) (v : Verdict) : Verdict :=
  if g.status = .mayMatch ∧ v.status = .matched then mayBe g.matcher else v

mutual

/-- `reachWalk.routes`, each route under the enclosing verdict `outer`;
`top` is the server's own list. -/
def walkRoutes (c : Caddy) (outer : Verdict) (top : Bool) :
    List Route → Groups → ReachEnd × Groups
  | [], groups => (.fellThrough, groups)
  | .mk group sets handle terminal :: rest, groups =>
    let own := routeVerdict c sets
    if own.fails then
      (.blocked { fails := true, matcher := own.matcher }, groups)
    else if own.status = .noMatch then walkRoutes c outer top rest groups
    else
      let v := if outer.status.below own.status then outer else own
      if group ≠ [] ∧ (groups group).status = .matched then
        walkRoutes c outer top rest groups
      else
        let after := if group ≠ [] then recordGroup groups group v else groups
        let v := if group ≠ [] then underGroup (groups group) v else v
        match walkHandlers c v handle after with
        | (.fellThrough, groups) =>
          if terminal then
            (.blocked { terminal := true, site := top,
                        may := v.status = .mayMatch, matcher := v.matcher },
              groups)
          else walkRoutes c outer top rest groups
        | done => done

/-- A route's handlers, under its verdict. -/
def walkHandlers (c : Caddy) (v : Verdict) :
    List Handler → Groups → ReachEnd × Groups
  | [], groups => (.fellThrough, groups)
  | .mk name request setting sub :: rest, groups =>
    let may : Bool := v.status = .mayMatch
    let block : Block :=
      { name := name, setting := setting, may := may, matcher := v.matcher }
    match classify (.mk name request setting sub) with
    | .reached =>
      if may then
        (.blocked { name := name, behind := true, matcher := v.matcher },
          groups)
      else (.reachedWebhook, groups)
    | .subroute =>
      match walkRoutes c v false sub groups with
      | (.fellThrough, groups) => walkHandlers c v rest groups
      | done => done
    | .passes => walkHandlers c v rest groups
    | .changes => (.blocked { block with changes := true }, groups)
    | .caps => (.blocked { block with caps := true }, groups)
    | .cuts => (.blocked { block with cuts := true }, groups)
    | .answers => (.blocked { block with setting := [] }, groups)

end

/-- The walk of a server's routes. -/
def walk (c : Caddy) (routes : List Route) : ReachEnd :=
  (walkRoutes c sure true routes fun _ => ⟨.noMatch, []⟩).1

end Hotserve.Box.Reach
