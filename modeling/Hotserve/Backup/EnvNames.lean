/-
The variables a Caddyfile is written with (backups/plan/make.go,
`envNames`): every match of one regular expression in it and in the files
beside it. Each tries what the adapter makes of another value, so one
that is missed would move what a backup reads without a word.
-/
import Hotserve.Box.Expand
import Hotserve.Regex
import Hotserve.Table
import Mathlib.Data.List.Sort

namespace Hotserve.Backup.EnvNames

open Bytes
open Box.Expand (spanOpen spanClose)

/-- `\s`. -/
def isSpace (c : UInt8) : Bool := [9, 10, 12, 13, 32].contains c

def nameByte (c : UInt8) : Bool := c != spanClose && c != 58 && !isSpace c

def dfltByte (c : UInt8) : Bool := c != spanClose

/-- `envRe`, over a text of `n` bytes. -/
def envRe (n : Nat) : Regex :=
  .seq (.lit spanOpen) (.seq (.group (.rep nameByte 1 n))
    (.seq (.opt (.group (.seq (.lit [58]) (.rep dfltByte 0 n))))
      (.lit [spanClose])))

/-- A match: its two groups, and how much of the text is left where it
begins and where it ends. -/
structure Match where
  name : Bytes
  dflt : Bytes
  start : Nat
  stop : Nat
  deriving DecidableEq

/-- A match at the front of the text, and what is after it. -/
def matchAt (text : Bytes) : Option (Match × Bytes) :=
  match (envRe text.length).run text with
  | ([name, dflt], rest) :: _ =>
    some (⟨name, dflt, text.length, rest.length⟩, rest)
  | _ => none

theorem matchAt_mem {text rest : Bytes} {m : Match}
    (h : matchAt text = some (m, rest)) :
    ([m.name, m.dflt], rest) ∈ (envRe text.length).run text ∧
      m.start = text.length ∧ m.stop = rest.length := by
  unfold matchAt at h
  split at h
  next name dflt rest' others hrun =>
    cases h
    rw [hrun]
    exact ⟨.head _, rfl, rfl⟩
  next => cases h

theorem matchAt_length {text rest : Bytes} {m : Match}
    (h : matchAt text = some (m, rest)) : rest.length < text.length := by
  obtain ⟨w, hw, w₁, w₂, c₁, c₂, rfl, -, ⟨rfl, -⟩, -⟩ :=
    Regex.mem_run.mp (matchAt_mem h).1
  have hopen : spanOpen.length = 2 := rfl
  rw [hw, List.length_append, List.length_append]
  omega

/-- `FindAllSubmatch`: leftmost first, and none within another. -/
def findAll (text : Bytes) : List Match :=
  match text with
  | [] => []
  | c :: text =>
    match _h : matchAt (c :: text) with
    | none => findAll text
    | some (m, rest) => m :: findAll rest
termination_by text.length
decreasing_by
  · exact Nat.lt_succ_self _
  · exact matchAt_length _h

/-- The variables so far, with whether one is written with no default, and
the files each is written in. -/
structure Names where
  names : Table Bytes Bool
  within : Table Bytes (List Bytes)

def note (file : Bytes) (s : Names) (m : Match) : Names :=
  let files := (s.within.get m.name).getD []
  { names := s.names.set m.name
      ((s.names.get m.name).getD false || m.dflt.isEmpty)
    within := if file ∈ files then s.within
      else s.within.set m.name (files ++ [file]) }

/-- `read`, of a file that can be. -/
def read (s : Names) (file : Bytes × Bytes) : Names :=
  (findAll file.2).foldl (note file.1) s

/-- `sorted`. -/
def sorted (names : Table Bytes Bool) : List Bytes × List Bytes :=
  ((names.entries.map Prod.fst).insertionSort (· ≤ ·),
    ((names.filter Prod.snd).entries.map Prod.fst).insertionSort (· ≤ ·))

/-- `envNames`: the Caddyfile, if it can be read, and the files the walk
beside it comes to and can read. -/
def envNames (errText : Bytes) (caddyfile : Bytes) (raw : Option Bytes)
    (beside : List (Bytes × Option Bytes)) :
    Except Bytes (List Bytes × List Bytes × Table Bytes (List Bytes)) :=
  match raw with
  | none => .error (str "reading the Caddyfile for \x7b$NAME\x7d: " ++ errText)
  | some raw =>
    let files := beside.filterMap fun f => f.2.map fun raw => (f.1, raw)
    let s := ((caddyfile, raw) :: files).foldl read ⟨.empty, .empty⟩
    .ok ((sorted s.names).1, (sorted s.names).2, s.within)

end Hotserve.Backup.EnvNames
