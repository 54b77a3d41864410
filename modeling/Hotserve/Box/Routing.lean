/-
Caddy's routing as the walk's comments state it: route lists run in
order; a route runs if any of its matcher sets matches, the sets tried
in order, each the conjunction of its matchers; a matching member of a
group is skipped once an earlier one matched, across nesting; a terminal
route ends the chain after its handlers; a subroute falls through to
what follows it.

What a matcher says of a request is an `Assignment`: at each evaluation
an outcome of its own, within what the walk's tables say of it.
-/
import Hotserve.Box.Reach

namespace Hotserve.Box.Reach

open Bytes

inductive Outcome
  | yes
  | no
  | error
  deriving DecidableEq

/-- Whether a matcher the walk calls `v` may come out so. -/
def Verdict.admits (v : Verdict) : Outcome → Prop
  | .yes => v.status ≠ .noMatch
  | .no => v.status ≠ .matched
  | .error => v.fails = true

/-- What each evaluation of a matcher comes to. -/
structure Assignment (c : Caddy) where
  outcome : Nat → Bytes → Json → Outcome
  agrees : ∀ n key v, (leaf c key v).admits (outcome n key v)

section

variable {c : Caddy} (a : Assignment c)

-- ====== matchers

def Outcome.negate : Outcome → Outcome
  | .yes => .no
  | .no => .yes
  | .error => .error

mutual

/-- One matcher, the `n`th to be evaluated; with the number after it. -/
def evalOne (key : Bytes) : Json → Nat → Outcome × Nat
  | .list items, n =>
    if key = str "not" ∧ items.all Json.isObject then
      let (o, n) := evalAny items n
      (o.negate, n)
    else (a.outcome n key (.list items), n + 1)
  | v, n => (a.outcome n key v, n + 1)

/-- Sets tried in order until one matches. -/
def evalAny : List Json → Nat → Outcome × Nat
  | [], n => (.no, n)
  | .object fields :: rest, n =>
    match evalAll fields n with
    | (.no, n) => evalAny rest n
    | done => done
  | _ :: rest, n => evalAny rest n

/-- A set's matchers, in Caddy's order, until one does not match. -/
def evalAll : List (Bytes × Json) → Nat → Outcome × Nat
  | [], n => (.yes, n)
  | (key, v) :: rest, n =>
    match evalOne key v n with
    | (.yes, n) => evalAll rest n
    | done => done

end

/-- A route's matchers; none is a match. -/
def evalRoute (sets : List (List (Bytes × Json))) (n : Nat) : Outcome × Nat :=
  if sets.isEmpty then (.yes, n) else evalAny a (sets.map .object) n

-- ====== routes

/-- A request under way: the evaluations made, and the groups a member of
which matched. -/
structure State where
  n : Nat
  met : Bytes → Bool

/-- What a request's routing ends with. -/
inductive Stop
  | webhook
  | matcherFailed
  | ended
  deriving DecidableEq

/-- How far routes took a request: `stop` is none where they ran out. -/
structure Result where
  stop : Option Stop
  state : State
  ran : List Handler

/-- What `next` makes of it, unless it ended. -/
def Result.andThen (r : Result) (next : State → Result) : Result :=
  match r.stop with
  | some _ => r
  | none =>
    let after := next r.state
    { after with ran := r.ran ++ after.ran }

mutual

def runRoutes : List Route → State → Result
  | [], s => ⟨none, s, []⟩
  | .mk group sets handle terminal :: rest, s =>
    match evalRoute a sets s.n with
    | (.error, n) => ⟨some .matcherFailed, { s with n := n }, []⟩
    | (.no, n) => runRoutes rest { s with n := n }
    | (.yes, n) =>
      if group ≠ [] ∧ s.met group then runRoutes rest { s with n := n }
      else
        let met := if group ≠ [] then Function.update s.met group true
          else s.met
        (runHandlers handle ⟨n, met⟩).andThen fun s =>
          if terminal then ⟨some .ended, s, []⟩ else runRoutes rest s

def runHandlers : List Handler → State → Result
  | [], s => ⟨none, s, []⟩
  | .mk name request setting sub :: rest, s =>
    let h := Handler.mk name request setting sub
    match classify h with
    | .reached => ⟨some .webhook, s, []⟩
    | .subroute =>
      (Result.mk none s [h]).andThen fun s =>
        (runRoutes sub s).andThen fun s => runHandlers rest s
    | .passes => (Result.mk none s [h]).andThen fun s => runHandlers rest s
    | _ => ⟨some .ended, s, [h]⟩

end

/-- A request, through a server's routes. -/
def serve (routes : List Route) : Result :=
  runRoutes a routes ⟨0, fun _ => false⟩

end

end Hotserve.Box.Reach
