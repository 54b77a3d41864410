/-
An app's env file (liveswap/app.go): the reading every launch makes of
it, and the rendering the box writes one by. Messages go through `%q`,
which is Go's and a parameter here.
-/
import Hotserve.Check
import Hotserve.Box.Names
import Mathlib.Data.List.Sort

namespace Hotserve.Liveswap

open Bytes
open Box (envKeyRe shellOwnedEnvKey)

/-- What `%q` writes. -/
abbrev Quote := Bytes → Bytes

def shellOwnedEnvKeyMsg : Bytes :=
  str ("is set by the shell every app unit runs behind (/bin/sh resets IFS, " ++
    "OPTIND, PPID and PWD at its start), so an app cannot be given it")

def notAName (quote : Quote) (key : Bytes) : Bytes :=
  quote key ++ str (" is not a valid environment variable name (systemd " ++
    "requires ^[A-Za-z_][A-Za-z0-9_]*$)")

-- ====== reading

/-- A value's quotes, one pair of them, taken off. -/
def unquote (value : Bytes) : Bytes :=
  if 2 ≤ value.length ∧
      ((value.head? = some 34 ∧ value.getLast? = some 34) ∨
        (value.head? = some 39 ∧ value.getLast? = some 39)) then
    value.tail.dropLast
  else value

/-- One line, the `i`th from nought: a variable, or none. -/
def parseEnvLine (quote : Quote) (path : Bytes) (i : Nat) (line : Bytes) :
    Except Bytes (Option Bytes) :=
  let at_ := path ++ str (":" ++ toString (i + 1) ++ ": ")
  let line := trimSpace line
  if line = [] ∨ (str "#").isPrefixOf line then .ok none
  else
    match cut 61 (trimPrefix (str "export ") line) with
    | none => .error (at_ ++ str "not KEY=VALUE")
    | some (key, value) =>
      let key := trimSpace key
      if key = [] then .error (at_ ++ str "not KEY=VALUE")
      else if !envKeyRe key then .error (at_ ++ notAName quote key)
      else if shellOwnedEnvKey key then
        .error (at_ ++ quote key ++ str " " ++ shellOwnedEnvKeyMsg)
      else .ok (some (key ++ 61 :: unquote (trimSpace value)))

/-- The lines from the `i`th on. -/
def parseEnvFrom (quote : Quote) (path : Bytes) :
    Nat → List Bytes → Except Bytes (List Bytes)
  | _, [] => .ok []
  | i, line :: lines => do
    let v ← parseEnvLine quote path i line
    let vars ← parseEnvFrom quote path (i + 1) lines
    return v.toList ++ vars

/-- `parseEnvLines`. -/
def parseEnvLines (quote : Quote) (path data : Bytes) :
    Except Bytes (List Bytes) :=
  parseEnvFrom quote path 0 (split 10 data)

-- ====== rendering

/-- A variable's name and value. -/
def takePair (quote : Quote) (kv : Bytes) : Except Bytes (Bytes × Bytes) :=
  match cut 61 kv with
  | none => .error (notAName quote kv)
  | some (key, value) =>
    if !envKeyRe key then .error (notAName quote key)
    else if shellOwnedEnvKey key then
      .error (quote key ++ str " " ++ shellOwnedEnvKeyMsg)
    else .ok (key, value)

/-- `strings.ContainsAny(value, "\n\r")`. -/
def hasLineBreak (value : Bytes) : Bool := value.any fun c => c == 10 || c == 13

/-- One `KEY="value"` line. -/
def renderLine (p : Bytes × Bytes) : Bytes := p.1 ++ 61 :: 34 :: p.2 ++ [34, 10]

/-- The sorted pairs from one on, `last` the key before it. -/
def renderFrom (last : Option Bytes) :
    List (Bytes × Bytes) → Except Bytes Bytes
  | [] => .ok []
  | p :: pairs =>
    if last = some p.1 then .error (p.1 ++ str " is given twice")
    else if hasLineBreak p.2 then
      .error (str "the value of " ++ p.1 ++
        str " has a line break, which an env file cannot carry")
    else if p.2.contains 0 then
      .error (str "the value of " ++ p.1 ++
        str " has a NUL byte, which an environment cannot carry")
    else if !validUTF8 p.2 then
      .error (str "the value of " ++ p.1 ++ str " is not UTF-8")
    else do
      let rest ← renderFrom (some p.1) pairs
      return renderLine p ++ rest

/-- `RenderEnvFile`. Keys that compare equal keep their order, which only
the message of a refusal depends on. -/
def renderEnvFile (quote : Quote) (vars : List Bytes) : Except Bytes Bytes := do
  let pairs ← vars.mapM (takePair quote)
  renderFrom none (pairs.insertionSort fun a b => a.1 ≤ b.1)

end Hotserve.Liveswap
